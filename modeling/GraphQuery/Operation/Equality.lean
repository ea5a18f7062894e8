import GraphQuery.Operation.Basic
/-!
# Equality of operations

Operations are equal when they are made alike from equal parts. The functions that callers supply
are compared by their numbers, queries by theirs, and conjunctions as multisets of their members.
-/

namespace GraphQuery

instance : BEq Predicate := ⟨fun p q => p.id == q.id⟩

instance : BEq Mapping := ⟨fun m n => m.id == n.id⟩

instance : BEq BoundFunction := ⟨fun f g => f.id == g.id && f.types == g.types⟩

instance : BEq Query := ⟨fun q r => q.id == r.id⟩

instance : BEq Selection where
  beq s t := s.query == t.query && s.start == t.start && s.stop? == t.stop? &&
    s.outputType == t.outputType

namespace Filter

mutual

/-- Whether two filters are equal. -/
def same : Filter → Filter → Bool
  | .test p, .test q => p == q
  | .anything t, .anything u => t == u
  | .equals x t, .equals y u => x == y && t == u
  | .every fs t, .every gs u => t == u && fs.length == gs.length && sameCounts fs fs gs
  | .counting s c k, .counting t d l => s == t && c == d && k == l
  | .onSlot ts i f, .onSlot us j g => ts == us && i.val == j.val && f.same g
  | _, _ => false

/-- Whether each of some filters occurs equally often in two lists. -/
def sameCounts : List Filter → List Filter → List Filter → Bool
  | [], _, _ => true
  | f :: rest, fs, gs =>
    fs.countP (fun g => f.same g) == gs.countP (fun g => f.same g) && sameCounts rest fs gs

end

instance : BEq Filter := ⟨same⟩

end Filter

/-- Whether two follows are equal. -/
def Follow.same : Follow → Follow → Bool
  | .map m, .map n => m == n
  | .filter f, .filter g => f == g
  | .select s, .select t => s == t
  | .slot ts i, .slot us j => ts == us && i.val == j.val
  | .permute ts o, .permute us p => ts == us && o.map Fin.val == p.map Fin.val
  | .pair f, .pair g => f.same g
  | .onSlot ts i f, .onSlot us j g => ts == us && i.val == j.val && f.same g
  | .call f, .call g => f == g
  | _, _ => false

instance : BEq Follow := ⟨Follow.same⟩

/-- Whether two operations are equal. A filter and the follow made from it are not. -/
def Operation.same : Operation → Operation → Bool
  | .filter f, .filter g => f == g
  | .follow f, .follow g => f == g
  | .count t, .count u => t == u
  | _, _ => false

instance : BEq Operation := ⟨Operation.same⟩

end GraphQuery
