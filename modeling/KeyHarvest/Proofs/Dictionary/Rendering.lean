import KeyHarvest.Dictionary.Store
import KeyHarvest.Proofs.Json.RoundTrip
import KeyHarvest.Proofs.Json.Sorting

/-!
# The text of a dictionary

The text of a dictionary is read back as the dictionary with its keys in order (`read_render`). It
is canonical: two dictionaries have one text exactly if they differ in nothing but the order of
members outside arrays (`render_canonical`). This holds of dictionaries whose numbers are integers
and that are nested no deeper than the reader allows.
-/

namespace KeyHarvest.Dictionary

open Json

/-- A rendered dictionary is read back with its keys in order. -/
theorem read_render {d : Dictionary} (hd : (Json.object d).Distinct)
    (hi : (Json.object d).Integral) (hn : (Json.object d).nesting < 128) :
    Json.read d.render = .ok (sortKeys (.object d)) := by
  have hparse : parse d.render = .ok (sortKeys (.object d)) :=
    parse_pretty 4 (distinct_sortKeys hd) (integral_sortKeys hd hi)
      (by rwa [nesting_sortKeys _ hd])
  rw [Json.read, hparse]
  rfl

/-- Dictionaries have one text exactly if they have one form with the keys in order. -/
theorem render_eq_iff {d d' : Dictionary} (hd : (Json.object d).Distinct)
    (hi : (Json.object d).Integral) (hn : (Json.object d).nesting < 128)
    (hd' : (Json.object d').Distinct) (hi' : (Json.object d').Integral)
    (hn' : (Json.object d').nesting < 128) :
    d.render = d'.render ↔ sortKeys (.object d) = sortKeys (.object d') := by
  constructor
  · intro h
    have hread := read_render hd hi hn
    rw [h, read_render hd' hi' hn'] at hread
    exact (Except.ok.inj hread).symm
  · intro h
    rw [render, render, h]

/-- The text of a dictionary is read back as the dictionary with its keys in order, everything else
unchanged, and dictionaries have one text exactly if they are the same up to the order of members
outside arrays. -/
theorem render_canonical {d : Dictionary} (hd : (Json.object d).Distinct)
    (hi : (Json.object d).Integral) (hn : (Json.object d).nesting < 128) :
    (∃ entries : Dictionary, Json.read d.render = .ok (.object entries) ∧
      Reordered (.object d) (.object entries) ∧ InKeyOrder (.object entries)) ∧
    ∀ d' : Dictionary, (Json.object d').Distinct → (Json.object d').Integral →
      (Json.object d').nesting < 128 →
      (d.render = d'.render ↔ Reordered (.object d) (.object d')) := by
  constructor
  · exact ⟨sortMembers (sortValues d), read_render hd hi hn, reordered_sortKeys _ hd,
      inKeyOrder_sortKeys _ hd⟩
  · intro d' hd' hi' hn'
    rw [render_eq_iff hd hi hn hd' hi' hn', reordered_iff_sortKeys_eq _ hd hd']

/-- A menu with its keys in reverse has the text of the menu in order, but not that of a menu
reversed inside its array too. -/
theorem render_canonical_menu :
    let items : Json := .array [.object [("z", .number (.int (-1))), ("a", .bool true)]]
    let reversed : Json := .array [.object [("a", .bool true), ("z", .number (.int (-1)))]]
    let open' : Json := .object [("y", .string "\"\\\n\x01é"), ("x", .null), ("e", .object [])]
    let ordered : Json := .object [("e", .object []), ("x", .null), ("y", .string "\"\\\n\x01é")]
    let d : Dictionary := [("open", open'), ("items", items)]
    Json.read d.render = .ok (.object [("items", items), ("open", ordered)]) ∧
      d.render = render [("items", items), ("open", ordered)] ∧
      d.render ≠ render [("items", reversed), ("open", ordered)] := by
  intro items reversed open' ordered d
  have hd : (Json.object d).Distinct := by decide
  have hi : (Json.object d).Integral := by decide
  have hn : (Json.object d).nesting < 128 := by decide
  obtain ⟨-, hiff⟩ := render_canonical hd hi hn
  refine ⟨?_, ?_, ?_⟩
  · rw [read_render hd hi hn, Except.ok.injEq]
    decide +kernel
  · rw [hiff _ (by decide) (by decide) (by decide), reordered_iff_sortKeys_eq _ hd (by decide)]
    decide +kernel
  · rw [Ne, hiff _ (by decide) (by decide) (by decide), reordered_iff_sortKeys_eq _ hd (by decide)]
    decide +kernel

end KeyHarvest.Dictionary
