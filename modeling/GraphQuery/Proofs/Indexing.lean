import GraphQuery.Proofs.Layouts
import GraphQuery.Proofs.WellTyped
/-!
# Indices that nothing checks

Binding a function, and following a view, a slot or a function, access lists at indices without a check. An
index out of range would be the end of the program. But arguments are accessed only after the parameters have
been counted, and what the other operations checked when they were made fits the tuples that they are given. So
every index is in range, and what is found there is what the operations are said to work on.
-/

namespace GraphQuery

namespace Access

variable {α : Type}

/-- The list with another element at an index. -/
def set? (xs : List α) (i : Nat) (x : α) : Option (List α) :=
  if i < xs.length then some (xs.set i x) else none

/-- The part of the list from an index on. -/
def from? (xs : List α) (i : Nat) : Option (List α) :=
  if i ≤ xs.length then some (xs.drop i) else none

/-- The part of the list before an index. -/
def upTo? (xs : List α) (i : Nat) : Option (List α) :=
  if i ≤ xs.length then some (xs.take i) else none

end Access

namespace BoundFunction

/-- Checks parameters against the slot types behind the first `kept`, from parameter `i` on. -/
def checkArgumentsAt? (name : String) (types : List ItemType) (kept : Nat) :
    (i : Nat) → (params : List ItemType) → Option (Except Error Unit)
  | _, [] => some (.ok ())
  | i, p :: ps => do
    let t ← types[kept + i]?
    if p.accepts t then
      checkArgumentsAt? name types kept (i + 1) ps
    else
      return throw (.typeMismatch (.argument i name) p t)

/-- The type of what a function makes of a tuple of which it leaves `kept` slots as they are. -/
def outputTypeAt? (types : List ItemType) (kept : Nat) (returns : ItemType) : Option ItemType :=
  if 0 < kept then
    (Access.upTo? types kept).map fun left => .tuple (left ++ [returns])
  else
    some returns

/-- Binds a function and gives the type of what it makes of a tuple, with slot types accessed by index. -/
def bindAt? (id : Nat) (name : String) (types params : List ItemType) (returns : ItemType)
    (call : List Item → Except Error Item) : Option (Except Error (BoundFunction × ItemType)) :=
  if params.isEmpty then
    return throw (.invalidArgument (.noReceiver name))
  else if types.length < params.length then
    return throw (.typeMismatch (.arguments name) (.tuple params) (.tuple types))
  else do
    let kept := types.length - params.length
    match ← checkArgumentsAt? name types kept 0 params with
    | .error e => return throw e
    | .ok () =>
      let outputType ← outputTypeAt? types kept returns
      return pure (⟨id, name, types, params, returns, call⟩, outputType)

theorem checkArgumentsAt?_eq {name : String} {types : List ItemType} {kept i : Nat}
    {params : List ItemType} (inside : kept + i + params.length ≤ types.length) :
    checkArgumentsAt? name types kept i params =
      some (checkArguments name i params (types.drop (kept + i))) := by
  induction params generalizing i with
  | nil => rfl
  | cons p ps ih =>
    rw [List.length_cons] at inside
    have here : kept + i < types.length := by omega
    rw [checkArgumentsAt?, List.getElem?_eq_getElem here, List.drop_eq_getElem_cons here,
      checkArguments, Option.bind_eq_bind, Option.bind_some]
    split
    · exact ih (by omega)
    · rfl

theorem outputTypeAt?_eq (f : BoundFunction) :
    outputTypeAt? f.types f.kept f.returns = some f.outputType := by
  unfold outputTypeAt? outputType
  by_cases all : f.kept = 0
  · rw [if_neg (by omega), if_pos all]
  · have inside : f.kept ≤ f.types.length := Nat.sub_le ..
    rw [if_pos (Nat.pos_of_ne_zero all), if_neg all, Access.upTo?, if_pos inside]
    rfl

/-- To bind a function accesses no slot type that is not there. -/
theorem bindAt?_eq (id : Nat) (name : String) (types params : List ItemType) (returns : ItemType)
    (call : List Item → Except Error Item) :
    bindAt? id name types params returns call =
      some ((bind id name types params returns call).map fun f => (f, f.outputType)) := by
  unfold bindAt? bind
  cases none : params.isEmpty with
  | true => rfl
  | false =>
    by_cases few : types.length < params.length
    · simp only [Bool.false_eq_true, if_false, if_pos few]
      rfl
    · simp only [Bool.false_eq_true, if_false, if_neg few]
      rw [checkArgumentsAt?_eq (by omega), Nat.add_zero]
      cases checkArguments name 0 params (types.drop (types.length - params.length)) with
      | error e => rfl
      | ok _ =>
        have output : outputTypeAt? types (types.length - params.length) returns = some _ :=
          outputTypeAt?_eq ⟨id, name, types, params, returns, call⟩
        dsimp only [Option.bind_eq_bind, Option.bind_some]
        rw [output]
        rfl

/-- The parameters take the slots that are not left as they are. -/
theorem kept_add_length {id : Nat} {name : String} {types params : List ItemType} {returns : ItemType}
    {call : List Item → Except Error Item} {f : BoundFunction}
    (bound : bind id name types params returns call = .ok f) :
    f.kept + params.length = f.types.length := by
  obtain ⟨rfl, suits⟩ := suits_of_bind bound
  have counted := suits.length_eq
  rw [List.length_drop] at counted
  have left : kept ⟨id, name, types, params, returns, call⟩ ≤ types.length := Nat.sub_le ..
  dsimp only
  omega

end BoundFunction

namespace Layout

variable {l : Layout}

/-- The indices at which operations on tuples access a layout are in range, and what is there is what they
work on. -/
structure InRange (l : Layout) : Prop where
  /-- A view can be made in the order of the operation. -/
  permute : ∀ types order g, Follow.permuteOf types order = .ok g →
    ∀ t, (Item.tuple l.tuple).fitting? types = some t → ∃ picked u, g = .permute types picked ∧
      l.permute order = some (.ok u) ∧ u.tuple = t.val.view (picked.map (Fin.cast t.property.symm))
  /-- The slot of the operation has a value, which can be replaced among the values. -/
  onSlot : ∀ types index inner g, Follow.onSlotOf types index inner = .ok g →
    ∀ t, (Item.tuple l.tuple).fitting? types = some t → ∃ i, g = .onSlot types i inner ∧
      l.get? index = some (Tuple.valueAt t i) ∧
      ∀ y, Access.set? l.values index y = some (t.val.values.set i y)
  /-- Behind the values that a function leaves as they are, there is one for each parameter. -/
  call : ∀ id name types params returns function f,
    BoundFunction.bind id name types params returns function = .ok f →
    ∀ t, (Item.tuple l.tuple).fitting? f.types = some t → f.kept + params.length = l.values.length ∧
      Access.from? l.values f.kept = some (t.val.values.drop f.kept)

theorem Made.of_fitting (made : l.Made) {types : List ItemType}
    {t : { t : Tuple // t.arity = types.length }}
    (fits : (Item.tuple l.tuple).fitting? types = some t) :
    t.val = l.tuple ∧ t.val.values = l.values ∧ l.values.length = types.length := by
  obtain ⟨same, -⟩ := Item.fitting?_eq_some.mp fits
  have same := (Item.tuple.inj same).symm
  refine ⟨same, same ▸ made.values_tuple, ?_⟩
  rw [← made.values_tuple, ← same, Tuple.length_values, t.property]

theorem Made.inRange (made : l.Made) : l.InRange where
  permute types order g accepted t fits := by
    obtain ⟨picked, rfl, rfl⟩ := Follow.permuteOf_eq_ok accepted
    obtain ⟨same, -⟩ := made.of_fitting fits
    obtain ⟨t, arity⟩ := t
    obtain rfl : t = l.tuple := same
    have views : l.tuple.permute (picked.map Fin.val) = .ok _ := Tuple.permute_eq_ok.mpr
      ⟨picked.map (Fin.cast arity.symm), by simp [Function.comp_def], rfl⟩
    obtain ⟨u, views, -, same⟩ := made.permute_of_tuple views
    exact ⟨picked, u, rfl, views, same⟩
  onSlot types index inner g accepted t fits := by
    obtain ⟨i, rfl, rfl, -⟩ := Follow.onSlotOf_eq_ok accepted
    obtain ⟨same, values, arity⟩ := made.of_fitting fits
    refine ⟨i, rfl, ?_, fun y => ?_⟩
    · rw [← made.get?_tuple, ← same]
      exact t.val.get?_of_slot (i.cast t.property.symm)
    · rw [Access.set?, if_pos (i.isLt.trans_eq arity.symm), values]
  call id name types params returns function f bound t fits := by
    obtain ⟨-, values, arity⟩ := made.of_fitting fits
    have counted := BoundFunction.kept_add_length bound
    refine ⟨counted.trans arity.symm, ?_⟩
    rw [Access.from?, if_pos (by omega), values]

/-- Layouts are made as tuples are and refused as tuples are, and every tuple that can be made is what one is
taken for. Reading one that can be made misses no slot, however deep its views nest, and finds a value of the
slot's type, and picking slots twice is picking them once. Operations on tuples that were accepted when they were
made access every tuple that fits within its range, and to bind a function stays in range whatever it is given. -/
theorem sound_and_inRange :
    (∀ values, (ofValues values).tuple = Tuple.ofValues values) ∧
    (∀ values types, (ofTyped values types).map tuple = Tuple.ofTyped values types) ∧
    (∀ t, (Item.tuple t).Made → ∃ l : Layout, l.Made ∧ l.tuple = t) ∧
    (∀ l : Layout, l.Made → l.Sound ∧ l.InRange) ∧
    ∀ id name types params returns function,
      BoundFunction.bindAt? id name types params returns function =
        some ((BoundFunction.bind id name types params returns function).map
          fun f => (f, f.outputType)) :=
  ⟨tuple_ofValues, tuple_ofTyped, fun _ => exists_made, fun _ made => ⟨made.sound, made.inRange⟩,
    BoundFunction.bindAt?_eq⟩

/-- A view of the pair of a number and a truth value the other way round. -/
def crossed : Layout :=
  .view (ofValues [.atom (.int64 1), .atom (.bool true)]) [1, 0] [.kind .bool, .kind .int64]

/-- A view of that view, with the truth value twice. -/
def stacked : Layout :=
  .view crossed [0, 0, 1] [.kind .bool, .kind .bool, .kind .int64]

/-- The number is in the third slot of `stacked`, where it can be replaced, and behind that slot is none. -/
theorem sound_and_inRange_stacked : stacked.Made ∧ stacked.values.length = 3 ∧
    stacked.get? 2 = some (.atom (.int64 1)) ∧ (stacked.get? 3).isSome = false ∧
    ∀ y, Access.set? stacked.values 2 y = some [.atom (.bool true), .atom (.bool true), y] := by
  have first : (ofValues [.atom (.int64 1), .atom (.bool true)]).permute [1, 0] =
    some (.ok crossed) := rfl
  have second : crossed.permute [0, 0, 1] = some (.ok stacked) := rfl
  have made : stacked.Made := .permute (.permute (.ofValues _) first) second
  obtain ⟨-, -, -, all, -⟩ := sound_and_inRange
  obtain ⟨sound, inRange⟩ := all stacked made
  have fits : (Item.tuple stacked.tuple).fitting? [.kind .bool, .kind .bool, .kind .int64] =
    some ⟨stacked.tuple, rfl⟩ := rfl
  obtain ⟨_, ⟨⟩, value, replaces⟩ := inRange.onSlot _ 2 (.filter (.anything .any)) _ rfl _ fits
  refine ⟨made, sound.values.1, value, ?_, replaces⟩
  exact Bool.eq_false_iff.mpr fun there => absurd ((sound.isSome_get? 3).mp there) (by decide)

end Layout

end GraphQuery
