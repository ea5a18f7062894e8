import GraphQuery.Operation.Make
import GraphQuery.Proofs.QuietOperations
/-!
# Follows along mappings

A follow along a caller's mapping makes no selection: it fails if the mapping fails on an item, and
otherwise collects what the mapping gives. It is pure if the mapping respects equality of items, as
mappings over positions do.
-/

namespace GraphQuery

namespace Mapping

variable {m : Mapping} {s : ItemSet}

/-- What the follow along a mapping makes of a set of items. -/
def outcome (m : Mapping) (s : ItemSet) : Except Error ItemSet := do
  let reached ← s.items.mapM m.map
  return .collect (reached.flatMap ItemSet.items) m.outputType

theorem inquiry_eq_done (m : Mapping) (s : ItemSet) :
    (Operation.follow (.map m)).inquiry s = .done (m.outcome s) := by
  have single : (Follow.map m).follow Inquiry.select =
      fun x => (Inquiry.done (m.map x) : Inquiry ItemSet) := by
    funext x
    change (ofOutcome (m.map x) : Inquiry ItemSet) = _
    rcases m.map x with e | t <;> rfl
  change (Follow.map m).apply Inquiry.select s = _
  rw [Follow.apply_eq, single, Filter.mapM_done, outcome]
  rcases s.items.mapM m.map with e | reached <;> rfl

/-- The follow along a mapping fails if the mapping fails on an item, and otherwise collects what it
gives. -/
theorem outcome_cases (m : Mapping) (s : ItemSet) :
    (∃ t, m.outcome s = .ok t ∧ (∀ x ∈ s.items, ∃ u, m.map x = .ok u) ∧ t.itemType = m.outputType ∧
      ∀ c, c ∈ t.contents ↔ ∃ x ∈ s.items, ∃ u, m.map x = .ok u ∧ c ∈ u.contents) ∨
    ∃ e, m.outcome s = .error e ∧ ∃ x ∈ s.items, m.map x = .error e := by
  unfold outcome
  cases mapped : s.items.mapM m.map with
  | error e => exact .inr ⟨e, rfl, mapM_error mapped⟩
  | ok reached =>
    have all := mapM_ok mapped
    refine .inl ⟨_, rfl, fun x => mapM_ok_of_mem all, rfl, fun c => ?_⟩
    rw [ItemSet.mem_contents_collect, List.mem_map]
    clear mapped
    generalize s.items = xs at all ⊢
    induction all with
    | nil => simp
    | @cons x u xs us here _ ih =>
      simp only [List.flatMap_cons, List.mem_append, or_and_right, exists_or, List.mem_cons]
      rw [ih, exists_eq_left, here]
      refine or_congr_left ⟨?_, ?_⟩
      · rintro ⟨y, inside, rfl⟩
        exact ⟨u, rfl, List.mem_map_of_mem inside⟩
      · rintro ⟨_, same, content⟩
        obtain rfl := Except.ok.inj same
        exact List.mem_map.mp content

/-- A follow along a mapping that respects equality of items is pure. -/
theorem isPure_map (respects : ∀ x y : Item, (x == y) = true → Alike (m.map x) (m.map y)) :
    (Operation.follow (.map m)).IsPure := by
  refine Operation.isPure_of_done m.inquiry_eq_done fun a b same => ?_
  have partner {a b : ItemSet} (same : a.essence = b.essence) {x : Item} (member : x ∈ a.items) :
      ∃ y ∈ b.items, Alike (m.map x) (m.map y) := by
    obtain ⟨y, member, equal⟩ := ItemSet.exists_beq_of_mem same member
    exact ⟨y, member, respects x y equal⟩
  rcases m.outcome_cases a with ⟨t, left, passed, typed, found⟩ | ⟨d, left, x, member, failed⟩
  · rcases m.outcome_cases b with ⟨t', right, passed', typed', found'⟩ | ⟨e, right, y, member, failed⟩
    · rw [left, right]
      refine .ok (ItemSet.essence_eq_iff.mp (congrArg₂ ItemSet.Essence.mk (typed.trans typed'.symm) ?_))
      have half {a b t t' : ItemSet} (same : a.essence = b.essence)
          (found : ∀ c, c ∈ t.contents ↔ ∃ x ∈ a.items, ∃ u, m.map x = .ok u ∧ c ∈ u.contents)
          (found' : ∀ c, c ∈ t'.contents ↔ ∃ x ∈ b.items, ∃ u, m.map x = .ok u ∧ c ∈ u.contents)
          {c : Content} (content : c ∈ t.contents) : c ∈ t'.contents := by
        obtain ⟨x, member, u, mapped, content⟩ := (found c).mp content
        obtain ⟨y, member', alike⟩ := partner same member
        rw [mapped] at alike
        cases mapped' : m.map y with
        | error e =>
          rw [mapped'] at alike
          cases alike
        | ok u' =>
          rw [mapped'] at alike
          cases alike with
          | ok equal =>
            refine (found' c).mpr ⟨y, member', u', mapped', ?_⟩
            rw [← ItemSet.mem_essence, ← ItemSet.essence_eq_iff.mpr equal]
            exact ItemSet.mem_essence.mpr content
      ext c
      rw [List.mem_toFinset, List.mem_toFinset]
      exact ⟨half same found found', half same.symm found' found⟩
    · obtain ⟨x, member', alike⟩ := partner same.symm member
      obtain ⟨u, mapped⟩ := passed x member'
      rw [failed, mapped] at alike
      cases alike
  · rcases m.outcome_cases b with ⟨t', right, passed', -⟩ | ⟨e, right, -⟩
    · obtain ⟨y, member', alike⟩ := partner same member
      obtain ⟨u, mapped⟩ := passed' y member'
      rw [failed, mapped] at alike
      cases alike
    · rw [left, right]
      exact .error d e

end Mapping

end GraphQuery
