import MongoRescue.Rotation.Vault
import MongoRescue.Lib.Errors
import MongoRescue.Lib.Prog

/-!
# Re-sealing reaches every sealed value

`Sealed k db`: every sealed value of the database was sealed with `k` for its own location, no field that
must be sealed holds plaintext, and the key check value is there. `reseal_sealed`: the transaction turns
`Sealed old` into `Sealed next`. Each query of `resealAll` binds a value as its writer did
(`selects_bound`), and between them they select every value that the store seals (`selects_all`), so a
pass leaves each value under one of the two keys and the last one leaves none under the old
(`resealAll_resealed`). What a value holds does not change.
-/

namespace MongoRescue.Rotation.Proof

/-! ## Sealed databases -/

def plain : Value → Option Plain
  | .raw _ => none
  | .sealed _ _ p => some p

/-- The value is sealed with `k` for its location. -/
def Under (k : Key) (c : Cell) : Prop :=
  ∃ f p, c.boundField = some f ∧ (c.binding f).valid = true ∧ c.value = .sealed k (c.binding f) p

/-- The value is not sealed and need not be. -/
def Bare (c : Cell) : Prop :=
  c.value.isSealed = false ∧ ((mustBeSealed c).isSome → c.value.isEmpty = true)

def CellOk (k : Key) (c : Cell) : Prop := Under k c ∨ Bare c

structure Sealed (k : Key) (db : Database) : Prop where
  cells : ∀ c ∈ db.cells, CellOk k c
  check : ∃ c ∈ db.cells, c.isSetting keyCheckSetting = true
  checked : ∀ c ∈ db.cells, c.isSetting keyCheckSetting = true →
    plain c.value = some (.text keyCheckPlaintext)

theorem boxOpen_sealed {k k' : Key} {loc : Binding} {p : Plain} (h : loc.valid = true) :
    boxOpen k' loc (.sealed k loc p) = if k = k' then .ok p else .error .decrypt := by
  simp [boxOpen, h]

theorem boxOpen_of_ne {k k' : Key} (h : k ≠ k') (loc loc' : Binding) (p : Plain) :
    ∃ e, boxOpen k' loc (.sealed k loc' p) = .error e := by
  unfold boxOpen
  split
  · exact ⟨_, rfl⟩
  · exact ⟨_, if_neg fun hk => h hk.1⟩

theorem boundField_setting {c : Cell} {key f : String} (h : c.isSetting key = true)
    (hf : c.boundField = some f) : f = fieldSettingValue := by
  simp only [Cell.isSetting, Bool.and_eq_true, decide_eq_true_eq] at h
  unfold Cell.boundField at hf
  rw [h.1] at hf
  revert hf
  simp only [tableSettings, tableConnections, tableJobs, tableStorageTargets, tableChannels, tableApprovals]
  simp
  intro _ _ hf
  exact hf.symm

theorem binding_setting {c : Cell} {key : String} (h : c.isSetting key = true) :
    c.binding fieldSettingValue = ⟨tableSettings, key, fieldSettingValue⟩ := by
  simp only [Cell.isSetting, Bool.and_eq_true, decide_eq_true_eq] at h
  simp [Cell.binding, h.1, h.2]

section
variable {k : Key} {db : Database}

theorem Sealed.setting_eq (h : Sealed k db) :
    setting db.cells keyCheckSetting = some (.sealed k keyCheckAt (.text keyCheckPlaintext)) := by
  unfold setting
  rcases hf : db.cells.find? (Cell.isSetting keyCheckSetting) with _ | c
  · obtain ⟨c, hc, hs⟩ := h.check
    have := List.find?_eq_none.mp hf c hc
    exact absurd hs this
  have hc := List.mem_of_find?_eq_some hf
  have hs := List.find?_some hf
  have hp := h.checked c hc hs
  rcases h.cells c hc with ⟨f, p, hb, -, hv⟩ | ⟨hn, -⟩
  · obtain rfl := boundField_setting hs hb
    rw [hv] at hp
    cases hp
    simp [hv, binding_setting hs, keyCheckAt]
  · rcases hv : c.value with t | ⟨k', loc, p⟩
    · rw [hv] at hp
      cases hp
    · rw [hv] at hn
      cases hn

theorem Sealed.keyCheckOpens (h : Sealed k db) (box : Key) :
    Rotation.keyCheckOpens db box = .ok (decide (k = box)) := by
  have hv : keyCheckAt.valid = true := by decide
  simp only [Rotation.keyCheckOpens, h.setting_eq, boxOpen_sealed hv]
  by_cases hk : k = box <;> simp [hk]

theorem verifySecretsSealed_ok (h : ∀ c ∈ db.cells, CellOk k c) :
    verifySecretsSealed db = .ok () := by
  have hnone : db.cells.findSome? (fun c => (mustBeSealed c).bind fun field =>
      if c.value.isEmpty || c.value.isSealed then none else some (c.binding field)) = none := by
    rw [List.findSome?_eq_none_iff]
    intro c hc
    rcases hm : mustBeSealed c with _ | field
    · rfl
    rcases h c hc with ⟨f, p, -, -, hv⟩ | ⟨-, he⟩
    · simp [hv, Value.isSealed]
    · simp [he (by rw [hm]; rfl)]
  unfold verifySecretsSealed
  rw [hnone]

theorem Sealed.openStore (h : Sealed k db) (box : Key) :
    Rotation.openStore box db = if k = box then .ok db else .error .mismatch := by
  have hv : keyCheckAt.valid = true := by decide
  have hcheck : checkSecretKey box db = if k = box then .ok db else .error .mismatch := by
    simp only [checkSecretKey, h.setting_eq, boxOpen_sealed hv, Value.isSealed, Bool.not_true]
    by_cases hk : k = box <;> simp [hk]
  unfold Rotation.openStore
  rw [hcheck]
  by_cases hk : k = box
  · rw [if_pos hk]
    show (do verifySecretsSealed db; Except.ok db) = _
    rw [verifySecretsSealed_ok h.cells]
    rfl
  · rw [if_neg hk]
    rfl

end

/-! ## One value -/

/-- `c'` is `c` re-sealed: the same location and plaintext, under `next`. -/
structure Resealed (next : Key) (c c' : Cell) : Prop where
  same : c' = { c with value := c'.value }
  plain : plain c'.value = plain c.value
  ok : CellOk next c'

theorem Resealed.trans {next : Key} {c c' c'' : Cell} (h : Resealed next c c')
    (h' : Resealed next c' c'') : Resealed next c c'' :=
  ⟨by rw [h'.same, h.same], h'.plain.trans h.plain, h'.ok⟩

theorem Bare.resealed {next : Key} {c : Cell} (h : Bare c) : Resealed next c c := ⟨rfl, rfl, .inr h⟩

section
variable {old next : Key}

theorem resealValue_old {loc : Binding} (h : loc.valid = true) (p : Plain) :
    resealValue old next loc (.sealed old loc p) = .ok (.sealed next loc p, []) := by
  simp [resealValue, Value.isEmpty, Value.isSealed, boxOpen, boxSeal, h]

theorem resealValue_left {loc : Binding} {v v' : Value} {left : List String} (hne : v.isEmpty = false)
    (hopen : ∀ p, boxOpen old loc v ≠ .ok p) (h : resealValue old next loc v = .ok (v', left)) :
    v' = v := by
  obtain ⟨e, he⟩ : ∃ e, (if v.isSealed then boxOpen old loc v else .error (.unsealedSecret loc)) =
      .error e := by
    split
    · rcases hb : boxOpen old loc v with e | p
      · exact ⟨e, rfl⟩
      · exact absurd hb (hopen p)
    · exact ⟨_, rfl⟩
  revert h
  fun_cases resealValue old next loc v <;> simp_all

theorem boxOpen_raw (k : Key) (loc : Binding) (t : String) (p : Plain) :
    boxOpen k loc (.raw t) ≠ .ok p := by
  unfold boxOpen
  split <;> simp

/-- `resealer.reseal` of a value that one of the two keys sealed. -/
theorem resealValue_resealed {c : Cell} {f : String} {v : Value} {left : List String}
    (hb : c.boundField = some f) (hc : CellOk old c ∨ CellOk next c)
    (h : resealValue old next (c.binding f) c.value = .ok (v, left)) :
    Resealed next c { c with value := v } := by
  have hbare : Bare c → Resealed next c { c with value := v } := by
    intro hn
    rcases hv : c.value with t | ⟨k', loc, p⟩
    · by_cases ht : (Value.raw t).isEmpty = true
      · have hr : resealValue old next (c.binding f) (.raw t) = .ok (.raw "", []) := if_pos ht
        rw [hv, hr] at h
        cases h
        exact ⟨rfl, by rw [hv]; rfl, .inr ⟨rfl, fun _ => rfl⟩⟩
      · rw [hv] at h
        have := resealValue_left (by simpa using ht) (boxOpen_raw _ _ _) h
        subst this
        rw [← hv]
        exact hn.resealed
    · have := hn.1
      rw [hv] at this
      cases this
  rcases hc with (⟨f', p, hf, hval, hv⟩ | hn) | (⟨f', p, hf, hval, hv⟩ | hn)
  · obtain rfl : f = f' := Option.some.inj (hb.symm.trans hf)
    rw [hv, resealValue_old hval] at h
    cases h
    exact ⟨rfl, by rw [hv]; rfl, .inl ⟨f, p, hb, hval, rfl⟩⟩
  · exact hbare hn
  · obtain rfl : f = f' := Option.some.inj (hb.symm.trans hf)
    by_cases hk : next = old
    · subst hk
      rw [hv, resealValue_old hval] at h
      cases h
      exact ⟨rfl, by rw [hv], .inl ⟨f, p, hb, hval, rfl⟩⟩
    · have hleft : v = c.value := by
        refine resealValue_left (by rw [hv]; rfl) (fun q hq => ?_) h
        rw [hv] at hq
        obtain ⟨e, he⟩ := boxOpen_of_ne hk (c.binding f) (c.binding f) p
        rw [he] at hq
        cases hq
      subst hleft
      exact ⟨rfl, rfl, .inl ⟨f, p, hb, hval, hv⟩⟩
  · exact hbare hn

/-! ## One query -/

/-- The query binds a value as its writer did. -/
def Bound (selects : Cell → Option Binding) : Prop :=
  ∀ c loc, selects c = some loc → ∃ f, c.boundField = some f ∧ loc = c.binding f

theorem resealCells_resealed {selects : Cell → Option Binding} (hs : Bound selects) {cells : List Cell}
    {r : Resealing} (hc : ∀ c ∈ cells, CellOk old c ∨ CellOk next c)
    (h : resealCells old next selects cells = .ok r) :
    List.Forall₂ (fun c c' => if (selects c).isSome then Resealed next c c' else c' = c) cells r.cells := by
  fun_induction resealCells old next selects cells generalizing r with
  | case1 =>
    cases h
    exact .nil
  | case2 c cs hsel ih =>
    obtain ⟨r', hr, h⟩ := Go.bind_ok h
    cases h
    exact .cons (by simp [hsel]) (ih (fun x hx => hc x (List.mem_cons_of_mem _ hx)) hr)
  | case3 c cs loc hsel ih =>
    obtain ⟨⟨v, left⟩, hv, h⟩ := Go.bind_ok h
    obtain ⟨r', hr, h⟩ := Go.bind_ok h
    cases h
    obtain ⟨f, hb, rfl⟩ := hs c loc hsel
    refine .cons ?_ (ih (fun x hx => hc x (List.mem_cons_of_mem _ hx)) hr)
    rw [if_pos (by rw [hsel]; rfl)]
    exact resealValue_resealed hb (hc c List.mem_cons_self) hv

/-! ## All queries -/

theorem boundField_settings {c : Cell} (h : c.table = tableSettings) :
    c.boundField = if (c.id ∈ secretSettingKeys ∨ c.id = keyCheckSetting ∨
      c.id = retiredMACKeysSetting) ∧ c.path = "value" then some fieldSettingValue else none := by
  unfold Cell.boundField
  rw [h]
  rfl

/-- A query that selects the values of one field. -/
theorem Bound.of_if {p : Cell → Prop} [DecidablePred p] {field : Cell → String}
    (h : ∀ c, p c → c.boundField = some (field c)) :
    Bound fun c => if p c then some (c.binding (field c)) else none := by
  intro c loc hsel
  rw [Option.ite_none_right_eq_some] at hsel
  exact ⟨_, h c hsel.1, (Option.some.inj hsel.2).symm⟩

theorem selects_bound : ∀ selects ∈ resealQueries, Bound selects := by
  intro selects hs
  simp only [resealQueries, List.mem_append, List.mem_map, List.mem_cons, List.not_mem_nil,
    or_false] at hs
  rcases hs with ⟨f, hf, rfl⟩ | rfl | rfl | rfl <;> refine Bound.of_if fun c hsel => ?_
  · unfold Cell.boundField
    rw [hsel.1, hsel.2.1]
    simp only [sealedJSONFields, List.mem_cons, List.not_mem_nil, or_false] at hf
    rcases hf with rfl | rfl | rfl | rfl | rfl | rfl | rfl <;> rfl
  · unfold Cell.boundField
    rw [hsel.1, if_pos hsel.2]
    rfl
  · unfold Cell.boundField
    rw [hsel.1, hsel.2.1, hsel.2.2.1]
    rfl
  · obtain ⟨ht, hp, hid, -⟩ := hsel
    simp only [List.mem_append, List.mem_cons, List.not_mem_nil, or_false] at hid
    rw [boundField_settings ht, if_pos ⟨hid, hp⟩]

/-- Every value that the store seals is selected by a query. -/
theorem selects_all {c : Cell} {f : String} (hb : c.boundField = some f) (hne : c.value.isEmpty = false) :
    ∃ selects ∈ resealQueries, (selects c).isSome = true := by
  have hjson : (∃ g ∈ sealedJSONFields, c.table = g.table ∧ c.path = g.path) →
      ∃ selects ∈ resealQueries, (selects c).isSome = true := by
    rintro ⟨g, hg, ht, hp⟩
    refine ⟨selectJSONField g, List.mem_append_left _ (List.mem_map_of_mem hg), ?_⟩
    simp [selectJSONField, ht, hp, hne]
  have hmem : ∀ g ∈ [selectChannels, selectApprovalSecrets,
      selectSettings (secretSettingKeys ++ [keyCheckSetting, retiredMACKeysSetting])],
      g ∈ resealQueries := fun g hg => List.mem_append_right _ hg
  revert hb
  -- by the table, and for the JSON columns by the path
  fun_cases Cell.boundField c <;> intro hb <;> cases hb
  case case11 => exact ⟨selectChannels, hmem _ (by simp), by simp [selectChannels, *]⟩
  case case13 =>
    exact ⟨selectApprovalSecrets, hmem _ (by simp), by simp [selectApprovalSecrets, *]⟩
  case case15 =>
    refine ⟨_, hmem _ (List.mem_cons_of_mem _ (List.mem_cons_of_mem _ List.mem_cons_self)), ?_⟩
    simp_all [selectSettings]
  all_goals exact hjson (by simp [sealedJSONFields, *])

theorem forall₂_comp {α β γ : Type} {R : α → β → Prop} {S : β → γ → Prop} {T : α → γ → Prop}
    (h : ∀ a b c, R a b → S b c → T a c) {as : List α} {bs : List β} {cs : List γ}
    (hab : List.Forall₂ R as bs) (hbc : List.Forall₂ S bs cs) : List.Forall₂ T as cs := by
  induction hab generalizing cs with
  | nil =>
    cases hbc
    exact .nil
  | cons hr _ ih =>
    cases hbc with
    | cons hs hrest => exact .cons (h _ _ _ hr hs) (ih hrest)

/-- By induction on the queries that are left: a value is re-sealed, or none of them selects it. -/
theorem foldlM_resealed {queries : List (Cell → Option Binding)} (hq : ∀ q ∈ queries, Bound q)
    {r r' : Resealing} (hc : ∀ c ∈ r.cells, CellOk old c ∨ CellOk next c)
    (h : queries.foldlM (resealStep old next) r = .ok r') :
    List.Forall₂ (fun c c' => Resealed next c c' ∨
      c' = c ∧ CellOk old c ∧ ∀ q ∈ queries, (q c).isSome = false) r.cells r'.cells := by
  induction queries generalizing r with
  | nil =>
    cases h
    refine List.forall₂_same.mpr fun c hm => ?_
    rcases hc c hm with ho | hn
    · exact .inr ⟨rfl, ho, by simp⟩
    · exact .inl ⟨rfl, rfl, hn⟩
  | cons q queries ih =>
    rw [List.foldlM_cons] at h
    obtain ⟨r₂, hstep, h⟩ := Go.bind_ok h
    obtain ⟨r₁, hr, hstep⟩ := Go.bind_ok hstep
    cases hstep
    have hone := resealCells_resealed (hq q List.mem_cons_self) hc hr
    have hmixed : ∀ c ∈ r₁.cells, CellOk old c ∨ CellOk next c := by
      intro c₁ hm
      obtain ⟨c, hcm, hrel⟩ := Prog.exists_left_of_forall₂ hone hm
      split at hrel
      · exact .inr hrel.ok
      · exact hrel ▸ hc c hcm
    have hrest := ih (fun q' hq' => hq q' (List.mem_cons_of_mem _ hq'))
      (r := ⟨r₁.cells, r.resealed + r₁.resealed, r.skipped ++ r₁.skipped⟩) hmixed h
    refine forall₂_comp (fun c c₁ c' h1 h2 => ?_) hone hrest
    split at h1
    · rcases h2 with h2 | ⟨rfl, -⟩
      · exact .inl (h1.trans h2)
      · exact .inl h1
    · rename_i hno
      subst h1
      rcases h2 with h2 | ⟨rfl, ho, hnone⟩
      · exact .inl h2
      · refine .inr ⟨rfl, ho, fun q' hq' => ?_⟩
        rcases List.mem_cons.mp hq' with rfl | hq'
        · exact Bool.eq_false_iff.mpr hno
        · exact hnone q' hq'

/-- **Every value is re-sealed.** -/
theorem resealAll_resealed {cells : List Cell} {r : Resealing} (hc : ∀ c ∈ cells, CellOk old c)
    (h : resealAll old next cells = .ok r) : List.Forall₂ (Resealed next) cells r.cells := by
  refine (foldlM_resealed selects_bound (fun c hm => .inl (hc c hm)) h).imp fun c c' hrel => ?_
  rcases hrel with hrel | ⟨rfl, ⟨f, p, hb, -, hv⟩ | hn, hnone⟩
  · exact hrel
  · obtain ⟨q, hq, hsel⟩ := selects_all hb (by rw [hv]; rfl)
    rw [hnone q hq] at hsel
    cases hsel
  · exact hn.resealed

/-! ## The transaction -/

theorem retired_ok (keys : List RetiredMAC) :
    CellOk next (settingCell retiredMACKeysSetting (.sealed next retiredMACsAt (.macs keys))) :=
  .inl ⟨fieldSettingValue, .macs keys, rfl, rfl, rfl⟩

/-- The retired MAC keys are dropped, or sealed under the next key; no other row changes. -/
theorem writeRetiredMACs_cells {hashes : List String} {keys : List RetiredMAC} {cells cells' : List Cell}
    {n : Nat} (h : writeRetiredMACs next hashes keys cells = .ok (cells', n)) :
    ∃ new, cells' = cells.filter (fun c => !c.isSetting retiredMACKeysSetting) ++ new ∧
      ∀ c ∈ new, CellOk next c ∧ c.isSetting keyCheckSetting = false := by
  unfold writeRetiredMACs at h
  split at h
  · cases h
    exact ⟨[], by simp [dropSetting], by simp⟩
  · have hs : ∀ p, boxSeal next retiredMACsAt p = .ok (.sealed next retiredMACsAt p) := fun p => rfl
    simp only [hs] at h
    cases h
    refine ⟨_, rfl, fun c hc => ?_⟩
    rw [List.mem_singleton] at hc
    subst hc
    exact ⟨retired_ok _, rfl⟩

theorem retireImportedKeyMAC_cells {macID : Go.Bytes → String} {skipped hashes : List String}
    {mac : Go.Bytes} {cells cells' : List Cell} {n : Nat}
    (h : retireImportedKeyMAC macID next skipped hashes mac cells = .ok (cells', n)) :
    ∃ new, cells' = cells.filter (fun c => !c.isSetting retiredMACKeysSetting) ++ new ∧
      ∀ c ∈ new, CellOk next c ∧ c.isSetting keyCheckSetting = false := by
  unfold retireImportedKeyMAC at h
  split at h
  · cases h
  · exact writeRetiredMACs_cells h

/-- **The re-sealing transaction moves the whole database to the next key.** -/
theorem reseal_sealed {macID : Go.Bytes → String} {r : SecretKeyRotation} {now : Int} {db db' : Database}
    {res : KeyRotationResult} (hs : Sealed old db) (h : reseal macID old r now db = .ok (db', res)) :
    Sealed r.next db' ∧ db'.marker = db.marker := by
  obtain ⟨a, ha, h⟩ := Go.bind_ok h
  obtain ⟨⟨cells, kept⟩, hm, h⟩ := Go.bind_ok h
  cases h
  have hall := resealAll_resealed hs.cells ha
  obtain ⟨new, rfl, hnew⟩ := retireImportedKeyMAC_cells hm
  refine ⟨⟨fun c hc => ?_, ?_, fun c hc hset => ?_⟩, rfl⟩
  · rcases List.mem_append.mp hc with hc | hc
    · obtain ⟨c₀, -, hrel⟩ := Prog.exists_left_of_forall₂ hall (List.mem_filter.mp hc).1
      exact hrel.ok
    · exact (hnew c hc).1
  · obtain ⟨c, hc, hset⟩ := hs.check
    obtain ⟨c', hc', hrel⟩ := Prog.exists_left_of_forall₂ hall.flip hc
    have hset' : c'.isSetting keyCheckSetting = true := by
      rw [hrel.same]
      exact hset
    have hne : c'.isSetting retiredMACKeysSetting = false := by
      simp only [Cell.isSetting, Bool.and_eq_true, decide_eq_true_eq] at hset'
      simp [Cell.isSetting, hset'.2, keyCheckSetting, retiredMACKeysSetting]
    exact ⟨c', List.mem_append_left _ (List.mem_filter.mpr ⟨hc', by simp [hne]⟩), hset'⟩
  · rcases List.mem_append.mp hc with hc | hc
    · obtain ⟨c₀, hc₀, hrel⟩ := Prog.exists_left_of_forall₂ hall (List.mem_filter.mp hc).1
      rw [hrel.plain]
      refine hs.checked c₀ hc₀ ?_
      rw [hrel.same] at hset
      exact hset
    · rw [(hnew c hc).2] at hset
      cases hset

end

end MongoRescue.Rotation.Proof
