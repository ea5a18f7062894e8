/-!
# Quoted text

The written form of characters and texts: the text between two delimiters, where the delimiter
itself, the backslash and the four control characters with a letter of their own are escaped.
-/

namespace GraphQuery.Quoted

/-- One character between delimiters. -/
def escape (delimiter c : Char) : List Char :=
  if c = delimiter ∨ c = '\\' then ['\\', c]
  else if c = '\n' then ['\\', 'n']
  else if c = '\t' then ['\\', 't']
  else if c = '\r' then ['\\', 'r']
  else if c = '\x00' then ['\\', '0']
  else [c]

/-- Characters between two delimiters. -/
def quote (delimiter : Char) (cs : List Char) : String :=
  String.ofList (delimiter :: cs.flatMap (escape delimiter) ++ [delimiter])

/-- A text in double quotes. -/
def string (s : String) : String :=
  quote '"' s.toList

/-- A character in single quotes. -/
def char (c : Char) : String :=
  quote '\'' [c]

end GraphQuery.Quoted
