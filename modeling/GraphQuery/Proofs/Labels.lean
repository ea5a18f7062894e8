import GraphQuery.Proofs.GraphLaws
/-!
# What holds of every label

A property that holds of each label as it is put on its arc holds of all labels of a graph, however
labels, arcs and nodes are added and removed. So each operation of a query fits the arc that it is
on: nothing but a check made when it was added has to be known of it.
-/

namespace GraphQuery

namespace Graph

variable {α : Type} {g : Graph α}

/-- A property holds of each label together with its arc. -/
def Every (P : Arc → α → Prop) (g : Graph α) : Prop :=
  ∀ a, ∀ l ∈ g.labels a, P a l

namespace Every

variable {P : Arc → α → Prop}

theorem addNode (every : g.Every P) (n : Node) : (g.addNode n).Every P := by
  intro a l member
  rw [labels_addNode] at member
  exact every a l member

theorem addLabel [BEq α] (every : g.Every P) {a : Arc} {l : α} (holds : P a l) :
    (g.addLabel a l).Every P := by
  intro b l' member
  rw [labels_addLabel] at member
  split at member
  · next here =>
    obtain ⟨rfl, -⟩ := here
    obtain old | new := List.mem_append.mp member
    · exact every b l' old
    · rwa [List.mem_singleton.mp new]
  · exact every b l' member

theorem merge [BEq α] (every : g.Every P) {other : Graph α} (every' : other.Every P) :
    (g.merge other).Every P :=
  merge_induction other every (fun _ n _ every => every.addNode n)
    fun _ a l member every => every.addLabel (every' a l member)

theorem keep {g' : Graph α} {kept : Arc → Bool} (every : g.Every P)
    (keeps : KeepsArcs g g' kept) : g'.Every P := by
  intro a l member
  rw [keeps.labels] at member
  split at member
  · exact every a l member
  · cases member

theorem removeArc? (every : g.Every P) (consistent : g.Consistent) {a : Arc} {g' : Graph α}
    (removed : g.removeArc? a = some g') : g'.Every P := by
  have keeps := removeArc?_keeps consistent a
  rw [removed, Option.getD_some] at keeps
  exact every.keep keeps

theorem removeNode? (every : g.Every P) (consistent : g.Consistent) {n : Node} {g' : Graph α}
    (removed : g.removeNode? n = some g') : g'.Every P := by
  have keeps := removeNode?_keeps consistent n
  rw [removed, Option.getD_some] at keeps
  exact every.keep keeps

theorem removeLabel? [BEq α] (every : g.Every P) (consistent : g.Consistent) {a : Arc} {l : α}
    {g' : Graph α} (removed : g.removeLabel? a l = some g') : g'.Every P := by
  intro b l' member
  have labels := labels_removeLabel? consistent a l b
  rw [removed, Option.getD_some] at labels
  rw [labels] at member
  split at member
  · next here => exact here ▸ every a l' (List.mem_filter.mp member).1
  · exact every b l' member

end Every

end Graph

/-- The operations of what is built fit the arcs that they are on. -/
theorem Builder.Made.fits {b : Builder} (made : b.Made) :
    Graph.Every (fun a op => misfit? a op = none) b := by
  induction made with
  | empty => exact fun a op member => nomatch member
  | addNode _ n ih => exact ih.addNode n
  | addArc _ added ih =>
    obtain ⟨fits, rfl⟩ := addArc_eq_ok.mp added
    exact ih.addLabel fits
  | addQuery _ _ ih ih' => exact ih.merge ih'
  | removeNode made removed ih => exact ih.removeNode? made.consistent removed
  | removeArc made removed ih => exact ih.removeArc? made.consistent removed
  | removeOperation made removed ih => exact ih.removeLabel? made.consistent removed

/-- An operation that fits its arc takes what leaves the source, and gives what the target takes. -/
theorem Builder.misfit?_eq_none {a : Arc} {op : Operation} : misfit? a op = none ↔
    op.inputType.accepts a.source.outputType = true ∧
      a.target.inputType.accepts op.outputType = true := by
  unfold misfit?
  cases op.inputType.accepts a.source.outputType <;>
    cases a.target.inputType.accepts op.outputType <;> simp

theorem Builder.Made.addLabel {b : Builder} (made : b.Made) {a : Arc} {op : Operation}
    (takes : op.inputType.accepts a.source.outputType = true)
    (gives : a.target.inputType.accepts op.outputType = true) : Made (Graph.addLabel b a op) :=
  .addArc made (addArc_eq_ok.mpr ⟨misfit?_eq_none.mpr ⟨takes, gives⟩, rfl⟩)

end GraphQuery
