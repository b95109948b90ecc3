import KeyHarvest.Proofs.Decimal.Rounding
import KeyHarvest.Proofs.Dictionary.FlatResult
import KeyHarvest.Proofs.Dictionary.Idempotence

/-!
# Counters that balance

Every extracted key is new or updated, and every key of the flattened dictionary is updated or
deleted. No more entries are empty than there are keys, so that the share shown is at most one
hundred percent. What holds of the counters of each reconciliation holds of their sum
(`stats_balanced`).
-/

namespace KeyHarvest

/-- Counters that balance for so many extracted keys and so many keys of a dictionary. -/
structure Stats.Balanced (s : Stats) (extracted persisted : Nat) : Prop where
  total_eq : s.total = extracted
  new_add_updated : s.new + s.updated = s.total
  updated_add_deleted : s.updated + s.deleted = persisted
  empty_le : s.empty ≤ s.total
  percent_le : s.emptyPercent.tenths ≤ 1000

namespace Stats

private theorem balanced_zero : Balanced {} 0 0 where
  total_eq := rfl
  new_add_updated := rfl
  updated_add_deleted := rfl
  empty_le := Nat.le_refl _
  percent_le := tenths_percent_le (Nat.le_refl 0)

/-- Counters that balance are added to counters that balance. -/
theorem Balanced.add {a b : Stats} {extracted persisted extracted' persisted' : Nat}
    (ha : a.Balanced extracted persisted) (hb : b.Balanced extracted' persisted') :
    (a + b).Balanced (extracted + extracted') (persisted + persisted') := by
  have hsum : a + b = ⟨a.total + b.total, a.new + b.new, a.deleted + b.deleted,
    a.updated + b.updated, a.empty + b.empty⟩ := rfl
  have hempty : a.empty + b.empty ≤ a.total + b.total := Nat.add_le_add ha.empty_le hb.empty_le
  rw [hsum]
  refine ⟨?_, ?_, ?_, hempty, tenths_percent_le hempty⟩
  · rw [ha.total_eq, hb.total_eq]
  · have := ha.new_add_updated
    have := hb.new_add_updated
    simp only
    omega
  · have := ha.updated_add_deleted
    have := hb.updated_add_deleted
    simp only
    omega

/-- Counters that balance, added up one after the other, balance. -/
theorem Balanced.foldl_add {start : Stats} {extracted persisted : Nat}
    (hstart : start.Balanced extracted persisted) {α : Type} (l : List α) (stats : α → Stats)
    (keys size : α → Nat) (h : ∀ a ∈ l, (stats a).Balanced (keys a) (size a)) :
    (l.foldl (fun sum a ↦ sum + stats a) start).Balanced (extracted + (l.map keys).sum)
      (persisted + (l.map size).sum) := by
  induction l generalizing start extracted persisted with
  | nil => exact hstart
  | cons a l ih =>
    rw [List.forall_mem_cons] at h
    rw [List.foldl_cons, List.map_cons, List.map_cons, List.sum_cons, List.sum_cons,
      ← Nat.add_assoc, ← Nat.add_assoc]
    exact ih (hstart.add h.1) h.2

end Stats

namespace Dictionary

/-- Every key of a dictionary is updated or deleted. -/
theorem updated_add_deleted_changes (keys : Extracted) (persisted : KeyMap String Json) :
    (changes keys persisted).updated + (changes keys persisted).deleted = persisted.size := by
  have hsplit := List.length_eq_countP_add_countP keys.contains (l := persisted.keys)
  have hsize : persisted.keys.length = persisted.size := List.length_map _
  have hcomm := keys.countP_contains_comm persisted
  simp only [Bool.not_eq_true, Bool.decide_eq_false] at hsplit
  simp only [changes]
  omega

/-- No more entries are empty than keys were extracted. -/
theorem empty_reconcile_le (keys : Extracted) (d : Dictionary) (options : MergeOptions) :
    (reconcile keys d options).stats.empty ≤ keys.size := by
  rw [reconcile]
  split
  · rw [empty_reconcileNested]
    calc _ ≤ (keys.keys.filter fun k ↦ k ∉ keys.shadowed).length := List.countP_le_length
      _ ≤ keys.keys.length := List.length_filter_le _ _
      _ = keys.size := List.length_map _
  · rw [empty_reconcileFlat]
    exact List.countP_le_length

private theorem balanced_reconcile (keys : Extracted) (d : Dictionary) (options : MergeOptions) :
    (reconcile keys d options).stats.Balanced keys.size d.flatten.size := by
  have hchanges := changes_reconcile keys d options
  have htotal : (reconcile keys d options).stats.total = keys.size :=
    congrArg Stats.total hchanges
  have hempty := empty_reconcile_le keys d options
  rw [← htotal] at hempty
  refine ⟨htotal, ?_, ?_, hempty, tenths_percent_le hempty⟩
  · have h := new_add_updated_changes keys d.flatten
    rwa [← hchanges] at h
  · have h := updated_add_deleted_changes keys d.flatten
    rwa [← hchanges] at h

/-- The counters of every reconciliation balance, and so do those of any number of reconciliations
added up: the extracted keys are the new and the updated ones, the keys of the flattened dictionary
are the updated and the deleted ones, and at most all extracted keys, one hundred percent as shown,
are empty. -/
theorem stats_balanced (keys : Extracted) (d : Dictionary) (options : MergeOptions)
    (rounds : List (Extracted × Dictionary × MergeOptions)) :
    (reconcile keys d options).stats.Balanced keys.size d.flatten.size ∧
      (rounds.foldl (fun sum r ↦ sum + (reconcile r.1 r.2.1 r.2.2).stats) {}).Balanced
        (rounds.map fun r ↦ r.1.size).sum (rounds.map fun r ↦ r.2.1.flatten.size).sum := by
  refine ⟨balanced_reconcile keys d options, ?_⟩
  have h := Stats.balanced_zero.foldl_add rounds
    (fun r ↦ (reconcile r.1 r.2.1 r.2.2).stats) (fun r ↦ r.1.size) (fun r ↦ r.2.1.flatten.size)
    fun r _ ↦ balanced_reconcile r.1 r.2.1 r.2.2
  rwa [Nat.zero_add, Nat.zero_add] at h

end Dictionary

end KeyHarvest
