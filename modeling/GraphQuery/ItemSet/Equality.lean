import GraphQuery.ItemSet.Basic
/-!
# Equality of item sets

The comparison of two sets looks at sizes and fingerprints first and then checks one inclusion. The
theorem `beq_iff` says that this amounts to equal declared types and the same contents. So equality
is an equivalence that fingerprints respect, and item sets may index a hash table.
-/

namespace GraphQuery

/-- Comparing fingerprints changes nothing where stores of the same items have the same one. -/
theorem Store.same_iff {s t : Store}
    (agree : s.size = t.size → s.subset t = true → s.held.digest = t.held.digest) :
    s.same t = true ↔ s.itemType = t.itemType ∧ s.size = t.size ∧ s.subset t = true := by
  unfold same
  rw [Bool.and_eq_true, Bool.and_eq_true, beq_iff_eq, beq_iff_eq, and_assoc]
  refine and_congr_right fun _ => and_congr_right fun size => ?_
  split
  · next held held' =>
    rw [held, held'] at agree
    rw [Bool.and_eq_true, beq_iff_eq]
    exact and_iff_right_of_imp (agree size)
  · rfl

namespace ItemSet

/-- What the items of a set hold. -/
def contents (s : ItemSet) : List Content :=
  s.items.map Item.content

theorem length_contents (s : ItemSet) : s.contents.length = s.size := by
  rw [contents, List.length_map, length_items]

theorem mem_iff_content_mem {s : ItemSet} {x : Item} : x ∈ s ↔ x.content ∈ s.contents := by
  rw [mem_iff_exists, contents, List.mem_map]
  exact exists_congr fun y => and_congr_right fun _ => Item.beq_iff.trans eq_comm

theorem nodup_contents (s : ItemSet) : s.contents.Nodup := by
  refine List.nodup_iff_pairwise_ne.2 (List.pairwise_map.2 (s.distinct.imp fun {x y} differ => ?_))
  rw [Ne, ← Item.beq_iff, differ]
  simp

theorem subset_iff_contents {s t : ItemSet} : s.subset t = true ↔ s.contents ⊆ t.contents := by
  simp only [subset_iff, mem_iff_content_mem]
  exact List.forall_mem_map.symm

/-- The fingerprint of a set depends on its contents only. -/
theorem digest_eq_contents (s : ItemSet) : s.digest = unorderedFingerprint s.contents := by
  rw [s.digest_eq, contents, unorderedFingerprint, unorderedFingerprint, List.foldr_map]
  rfl

/-- A list without repetitions that includes one at least as long has no other members. -/
theorem subset_of_nodup {α : Type} {as bs : List α} (distinct : as.Nodup) (sub : as ⊆ bs)
    (long : bs.length ≤ as.length) : bs ⊆ as := by
  intro b member
  apply Classical.byContradiction
  intro absent
  have := (List.nodup_cons.2 ⟨absent, distinct⟩).length_le_of_subset
    (List.cons_subset.2 ⟨member, sub⟩)
  simp only [List.length_cons] at this
  omega

theorem perm_contents_iff {s t : ItemSet} :
    s.contents.Perm t.contents ↔ s.size = t.size ∧ s.subset t = true := by
  simp only [← length_contents, subset_iff_contents]
  constructor
  · exact fun perm => ⟨perm.length_eq, perm.subset⟩
  · refine fun ⟨size, sub⟩ => (List.perm_ext_iff_of_nodup s.nodup_contents t.nodup_contents).2 ?_
    exact fun c => ⟨(sub ·), (subset_of_nodup s.nodup_contents sub (Nat.le_of_eq size.symm) ·)⟩

theorem beq_iff {s t : ItemSet} :
    (s == t) = true ↔ s.itemType = t.itemType ∧ s.contents.Perm t.contents := by
  rw [perm_contents_iff]
  refine Store.same_iff fun size sub => ?_
  change s.digest = t.digest
  rw [s.digest_eq_contents, t.digest_eq_contents]
  exact unorderedFingerprint_perm (perm_contents_iff.2 ⟨size, sub⟩)

instance : EquivBEq ItemSet where
  symm h := beq_iff.2 ((beq_iff.1 h).imp Eq.symm List.Perm.symm)
  trans h k :=
    beq_iff.2 ⟨(beq_iff.1 h).1.trans (beq_iff.1 k).1, (beq_iff.1 h).2.trans (beq_iff.1 k).2⟩
  rfl := beq_iff.2 ⟨rfl, .refl _⟩

/-- Equal sets have one fingerprint of their items, in whatever order they hold them. -/
theorem digest_congr {s t : ItemSet} (h : (s == t) = true) : s.digest = t.digest := by
  rw [s.digest_eq_contents, t.digest_eq_contents]
  exact unorderedFingerprint_perm (beq_iff.1 h).2

/-- Equal sets are encoded alike. -/
theorem encode_congr {s t : ItemSet} (h : (s == t) = true) : encode s = encode t := by
  obtain ⟨itemType, perm⟩ := beq_iff.1 h
  change encode s.itemType ++ Fingerprint.natBytes s.size ++ encode s.digest =
    encode t.itemType ++ Fingerprint.natBytes t.size ++ encode t.digest
  rw [itemType, (perm_contents_iff.1 perm).1, digest_congr h]

instance : LawfulHashable ItemSet where
  hash_eq _ _ h := congrArg (List.foldl Fingerprint.mix Fingerprint.basis) (encode_congr h)

end ItemSet

end GraphQuery
