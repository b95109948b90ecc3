/-!
# Paths apart

Two paths, of keys in a dictionary or of names in a file tree, are apart when neither begins the
other: then what stands at one is neither on the way to the other nor below it.
-/

namespace KeyHarvest

/-- Neither of two paths begins the other. -/
def Apart (p q : List String) : Prop :=
  ¬ p <+: q ∧ ¬ q <+: p

/-- To be apart is symmetric. -/
theorem Apart.symm {p q : List String} (h : Apart p q) : Apart q p :=
  ⟨h.2, h.1⟩

/-- Paths apart are different. -/
theorem Apart.ne {p q : List String} (h : Apart p q) : p ≠ q := by
  rintro rfl
  exact h.1 List.prefix_rfl

/-- A common first key does not matter to being apart. -/
theorem apart_cons_iff (key : String) (p q : List String) :
    Apart (key :: p) (key :: q) ↔ Apart p q := by
  simp [Apart, List.cons_prefix_cons]

end KeyHarvest
