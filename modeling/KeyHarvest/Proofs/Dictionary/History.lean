import KeyHarvest.Proofs.Dictionary.Reconciliation

/-!
# Histories of a locale

A locale is reconciled again and again, each time with other keys and perhaps in the other shape. A
round keeps a key if it extracts the key and does not shadow it, or if it is flat and in safe mode.
What every dictionary of a history has in common is that it reads back, so a round that keeps a key
also keeps its text (`get?_flatten_outcome`), and so do all rounds of a history that keep it
(`get?_flatten_afterRounds`).
-/

namespace KeyHarvest

open Json Dictionary

/-- One reconciliation of a locale: the keys extracted for it and how it is done. -/
structure Round where
  /-- The extracted keys. -/
  keys : Extracted
  /-- How the dictionary is reconciled. -/
  options : MergeOptions

namespace Round

/-- The outcome of a round on the dictionary that it finds. -/
def outcome (r : Round) (persisted : Dictionary) : Reconciled :=
  reconcile r.keys persisted r.options

/-- The round extracts a key without shadowing it, or is flat and keeps keys not extracted. -/
def Keeps (r : Round) (persisted : Dictionary) (key : String) : Prop :=
  (key ∈ r.keys.keys ∧ key ∉ (r.outcome persisted).shadowed) ∨
    (r.options.namespaced = false ∧ r.options.safeMode = true)

end Round

/-- The dictionary after some rounds, each of which finds what the one before it left. -/
def afterRounds (start : Dictionary) (rounds : List Round) : Dictionary :=
  rounds.foldl (fun d r ↦ (r.outcome d).dictionary) start

private theorem afterRounds_append (start : Dictionary) (rounds rounds' : List Round) :
    afterRounds start (rounds ++ rounds') = afterRounds (afterRounds start rounds) rounds' :=
  List.foldl_append

/-- The dictionaries of a history have distinct keys and read back. -/
theorem readsBack_afterRounds {start : Dictionary} (hd : (Json.object start).Distinct)
    (hb : start.ReadsBack) (rounds : List Round) :
    (Json.object (afterRounds start rounds)).Distinct ∧ (afterRounds start rounds).ReadsBack := by
  induction rounds generalizing start with
  | nil => exact ⟨hd, hb⟩
  | cons r rounds ih =>
    exact ih (distinct_reconcile r.keys hd r.options) (readsBack_reconcile r.keys hd r.options)

/-- A round that keeps a key keeps its text. -/
theorem get?_flatten_outcome {d : Dictionary} (hb : d.ReadsBack) (r : Round) {key : String}
    (hk : r.Keeps d key) {v : Json} (hne : v ≠ .string "") (hv : d.flatten.get? key = some v) :
    (r.outcome d).dictionary.flatten.get? key = some v := by
  rw [Round.Keeps, Round.outcome] at hk
  rw [Round.outcome]
  cases hns : r.options.namespaced with
  | true =>
    simp only [reconcile, hns, if_true, shadowed_reconcileNested] at hk ⊢
    have hvisible : key ∈ r.keys.keys ∧ key ∉ r.keys.shadowed := by simpa using hk
    rw [get?_flatten_reconcileNested, if_pos hvisible, settledLeaf, hb, hv, Option.getD_some,
      MergeOptions.settle_of_ne_blank r.options key hne]
  | false =>
    simp only [reconcile, hns, Bool.false_eq_true, if_false] at hk ⊢
    rw [get?_flatten_of_isFlat (isFlat_reconcileFlat _ _ _)
      (KeyMap.nodup_of_ascending (ascending_reconcileFlat _ _ _)), get?_reconcileFlat]
    cases hg : r.keys.get? key with
    | some text =>
      simp only [carriedOver, hv, Option.getD_some]
      rw [MergeOptions.settle_of_ne_blank r.options key hne]
    | none =>
      have hn : key ∉ r.keys.keys := by
        rw [KeyMap.mem_keys_iff, KeyMap.contains, hg]
        simp
      rcases hk with hk | hk
      · exact absurd hk.1 hn
      · simp [hk.2, hv]

/-- Rounds that all keep a key keep its text. -/
theorem get?_flatten_afterRounds_of_readsBack {d : Dictionary} (hd : (Json.object d).Distinct)
    (hb : d.ReadsBack) (rounds : List Round) {key : String} {v : Json} (hne : v ≠ .string "")
    (hv : d.flatten.get? key = some v)
    (hk : ∀ done r rest, rounds = done ++ r :: rest → r.Keeps (afterRounds d done) key) :
    (afterRounds d rounds).flatten.get? key = some v := by
  induction rounds generalizing d with
  | nil => exact hv
  | cons r rounds ih =>
    have hstep := get?_flatten_outcome hb r (hk [] r rounds rfl) hne hv
    have hd' := distinct_reconcile r.keys hd r.options
    apply ih hd' (readsBack_reconcile r.keys hd r.options) hstep
    intro done r' rest hl
    exact hk (r :: done) r' rest (by rw [hl, List.cons_append])

/-- In a history that starts from a flat dictionary a text other than the empty one stays bound to
its key for as long as every round keeps the key. -/
theorem get?_flatten_afterRounds {start : Dictionary} (hd : (Json.object start).Distinct)
    (hf : start.IsFlat) (earlier later : List Round) {key : String} {v : Json}
    (hne : v ≠ .string "") (hv : (afterRounds start earlier).flatten.get? key = some v)
    (hk : ∀ done r rest, later = done ++ r :: rest →
      r.Keeps (afterRounds start (earlier ++ done)) key) :
    ∀ done rest, later = done ++ rest →
      (afterRounds start (earlier ++ done)).flatten.get? key = some v := by
  intro done rest hl
  have hb := readsBack_of_isFlat hf ((distinct_object_iff start).mp hd).1
  obtain ⟨hd', hb'⟩ := readsBack_afterRounds hd hb earlier
  rw [afterRounds_append]
  apply get?_flatten_afterRounds_of_readsBack hd' hb' done hne hv
  intro done' r rest' hdone
  rw [← afterRounds_append]
  exact hk done' r (rest' ++ rest) (by rw [hl, hdone, List.append_assoc, List.cons_append])

/-- A text stored under a whole dotted key outlives a namespaced round, a flat one that only keeps
it and another namespaced one. -/
theorem get?_flatten_afterRounds_menu :
    let start : Dictionary := [("a..b", .null), ("menu.open", .string "Ouvrir")]
    let nested : Round := ⟨.ofList [("menu.open", ""), ("menu.close", "")], { namespaced := true }⟩
    let kept : Round := ⟨.ofList [("title", "")], { safeMode := true }⟩
    (Json.object start).Distinct ∧ start.IsFlat ∧
      (afterRounds start [nested]).flatten.get? "menu.open" = some (.string "Ouvrir") ∧
      (afterRounds start ([nested] ++ [kept, nested])).flatten.get? "menu.open" =
        some (.string "Ouvrir") := by
  intro start nested kept
  have hd : (Json.object start).Distinct := by decide
  have hf : start.IsFlat := by decide
  have hfirst : afterRounds start [nested] =
      [("menu", .object [("close", .string ""), ("open", .string "Ouvrir")])] := by decide +kernel
  have hv : (afterRounds start [nested]).flatten.get? "menu.open" = some (.string "Ouvrir") := by
    rw [hfirst]
    decide +kernel
  refine ⟨hd, hf, hv, ?_⟩
  apply get?_flatten_afterRounds hd hf [nested] [kept, nested] (by simp) hv ?_ [kept, nested] [] rfl
  intro done r rest hl
  cases done with
  | nil =>
    cases hl
    exact .inr ⟨rfl, rfl⟩
  | cons first done =>
    cases done with
    | nil =>
      cases hl
      have hshadowed : nested.keys.shadowed = [] := by decide +kernel
      refine .inl ⟨by decide +kernel, ?_⟩
      rw [Round.outcome, reconcile, if_pos rfl, shadowed_reconcileNested, hshadowed]
      simp
    | cons second done => simp at hl

end KeyHarvest
