import GraphQuery.Item
/-!
# Errors

What can go wrong while tuples, operations and graphs are made and while queries are evaluated. An
error is a cause together with the trail of places that it passed through, outermost first. The
wording of every message is in this module.
-/

namespace GraphQuery

/-- A place where the type of one thing has to accept the type of another. -/
inductive Site where
  /-- A value given for a slot of a tuple. -/
  | tupleSlot (index : Nat)
  /-- The items that enter an operation on an arc. -/
  | arcInput (operation : String) (arc : Arc)
  /-- The items that an operation on an arc hands on. -/
  | arcOutput (operation : String) (arc : Arc)
  /-- The slot of a tuple type that an operation works on. -/
  | slotFor (index : Nat) (types : List ItemType) (operation : String)
  /-- The slots of a tuple that is too short for a function. -/
  | arguments (function : String)
  /-- One slot given to a function. -/
  | argument (index : Nat) (function : String)
  | other (text : String)

/-- Why a thing cannot be made from what is given for it. -/
inductive Defect where
  /-- The values of a tuple are not as many as its slot types. -/
  | arity (count : Nat) (types : List ItemType)
  /-- A view names a slot that its tuple does not have. -/
  | viewIndex (index arity : Nat)
  /-- An operation names a slot that its tuple type does not have. -/
  | slotIndex (index : Nat) (types : List ItemType)
  /-- A function has no parameters. -/
  | noReceiver (function : String)
  /-- A nested selection names a node of another query. -/
  | foreignNode (node : Node) (query : QueryId)
  | other (text : String)

/-- Why an operation cannot be carried out on an item. -/
inductive Failure where
  /-- A typed test or mapping meets an item of another kind. -/
  | wrongKind (name : String) (expected found : Kind)
  /-- An operation on tuples meets an item that is none. -/
  | notTuple (operation : String) (found : Kind)
  /-- An operation on tuples meets one whose slot types do not fit. -/
  | wrongTuple (operation : String) (expected found : List ItemType)
  /-- A typed function meets an argument of another kind. -/
  | wrongArgument (index : Nat) (function : String) (expected : Kind)
  /-- A function returns an item that its declared type does not admit. -/
  | wrongResult (function : String) (found : Kind) (expected : ItemType)
  | other (text : String)

/-- The innermost reason of an error. -/
inductive Cause where
  | typeMismatch (site : Site) (expected found : ItemType)
  | invalidArgument (defect : Defect)
  | operation (failure : Failure)
  | depthExceeded (limit : Nat)

/-- A place that an error passed through on its way out. -/
inductive Place where
  /-- An operation was being applied on an arc. -/
  | applying (operation : String) (arc : Arc)
  /-- The part of the graph behind an arc was being walked. -/
  | walking (arc : Arc)
  /-- A nested selection was being made for an item. -/
  | nested (selection : String) (item : Item)
  | other (text : String)

/-- A cause, and the places it passed through from the outermost to the innermost. -/
structure Error where
  trail : List Place
  cause : Cause

/-- The text of a place where types have to fit. -/
def Site.text : Site → String
  | .tupleSlot i => s!"tuple slot {i}"
  | .arcInput op arc => s!"input of {op} on arc {arc.text}"
  | .arcOutput op arc => s!"output of {op} on arc {arc.text}"
  | .slotFor i types op => s!"slot {i} of {(ItemType.tuple types).text} for {op}"
  | .arguments f => s!"arguments of '{f}'"
  | .argument i f => s!"argument {i} of '{f}'"
  | .other s => s

/-- The text of a defect. -/
def Defect.text : Defect → String
  | .arity n types => s!"tuple of {n} values does not fit type list {(ItemType.tuple types).text}"
  | .viewIndex i n => s!"permutation index {i} out of range for tuple of arity {n}"
  | .slotIndex i types => s!"slot {i} out of range for tuple type {(ItemType.tuple types).text}"
  | .noReceiver f => s!"function '{f}' needs at least a receiver"
  | .foreignNode n q => s!"node {n.label} is not part of query #{q}"
  | .other s => s

/-- The text of a failure. -/
def Failure.text : Failure → String
  | .wrongKind f expected found => s!"'{f}' expects {expected.name}, got {found.name}"
  | .notTuple op found => s!"{op} expects a tuple, got {found.name}"
  | .wrongTuple op expected found =>
    s!"{op} expects tuples of {(ItemType.tuple expected).text}, got {(ItemType.tuple found).text}"
  | .wrongArgument i f expected => s!"argument {i} of '{f}' is not a {expected.name}"
  | .wrongResult f found expected => s!"'{f}' returned {found.name}, expected {expected.text}"
  | .other s => s

/-- The message of a cause. -/
def Cause.message : Cause → String
  | .typeMismatch site expected found =>
    s!"Type mismatch in {site.text}: expected {expected.text}, got {found.text}"
  | .invalidArgument defect => s!"Invalid argument: {defect.text}"
  | .operation failure => s!"Operation failed: {failure.text}"
  | .depthExceeded limit => s!"Evaluation exceeded the maximum depth of {limit} frames"

/-- The name of the class that a cause belongs to. -/
def Cause.className : Cause → String
  | .typeMismatch .. => "TypeMismatch"
  | .invalidArgument _ => "InvalidArgument"
  | .operation _ => "Operation"
  | .depthExceeded _ => "DepthExceeded"

/-- The text of a place in a trail. -/
def Place.text : Place → String
  | .applying op arc => s!"applying {op} on {arc.text}"
  | .walking arc => s!"walking {arc.text}"
  | .nested selection item => s!"in {selection} for item {item.display}"
  | .other s => s

namespace Error

/-- An error that has passed through nothing yet. -/
def ofCause (cause : Cause) : Error :=
  ⟨[], cause⟩

/-- A thing of one type is given where another is expected. -/
def typeMismatch (site : Site) (expected found : ItemType) : Error :=
  ofCause (.typeMismatch site expected found)

/-- A thing cannot be made from what is given for it. -/
def invalidArgument (defect : Defect) : Error :=
  ofCause (.invalidArgument defect)

/-- An operation cannot be carried out. -/
def operation (failure : Failure) : Error :=
  ofCause (.operation failure)

/-- More frames were nested than the limit allows. -/
def depthExceeded (limit : Nat) : Error :=
  ofCause (.depthExceeded limit)

/-- The error after it has passed through one more place. -/
def through (place : Place) (e : Error) : Error :=
  { e with trail := place :: e.trail }

/-- Whether the cause is a type that does not fit. -/
def isTypeMismatch (e : Error) : Bool :=
  e.cause matches .typeMismatch ..

/-- The texts of the trail, outermost first. -/
def trailTexts (e : Error) : List String :=
  e.trail.map Place.text

/-- The message of an error on its own: its outermost place, or its cause if it has none. -/
def message (e : Error) : String :=
  match e.trail with
  | [] => e.cause.message
  | place :: _ => place.text

/-- The messages of the errors wrapped in this one, from the outside in. -/
def sources (e : Error) : List String :=
  match e.trail with
  | [] => []
  | _ :: rest => rest.map Place.text ++ [e.cause.message]

/-- The whole trail and the cause on one line. -/
def report (e : Error) : String :=
  ": ".intercalate (e.trailTexts ++ [e.cause.message])

end Error

end GraphQuery
