import MongoRescue.Selection.Resolve

/-!
# The picks of a resolution

Every loop of `ResolveSelection` adds the names it goes through to the picks and includes some of them
(`Grown`, `Grown.foldl`), so the picks after all of them are read off (`picks_discovered`,
`picks_named`, `picks_single`). The returned lists are sorted, and determined by what is in them
(`sorted_eq_of_perm`, `compact_sorted_congr`).
-/

namespace MongoRescue.Selection.Proof

open Go (Bytes)

/-! ## Picks -/

def Covers (k : Picks) (x : Bytes) : Prop := x ∈ k.included ∨ x ∈ k.excluded.map (·.name)

/-- From `k` on the names of `names` were added, and of them those of `incl` included. -/
structure Grown (k k' : Picks) (names incl : Bytes → Prop) : Prop where
  covers : ∀ x, Covers k' x ↔ names x ∨ Covers k x
  included : ∀ x, x ∈ k'.included ↔ incl x ∨ x ∈ k.included

theorem not_covers_empty (x : Bytes) : ¬ Covers .empty x := by
  simp [Covers, Picks.empty]

theorem names_filter_ne {l : List ExcludedDatabase} {x name : Bytes} :
    x ∈ (l.filter (·.name ≠ name)).map (·.name) ↔ x ∈ l.map (·.name) ∧ x ≠ name := by
  simp only [List.mem_map, List.mem_filter, decide_eq_true_eq]
  constructor
  · rintro ⟨e, ⟨he, hne⟩, rfl⟩
    exact ⟨⟨e, he, rfl⟩, hne⟩
  · rintro ⟨⟨e, he, rfl⟩, hne⟩
    exact ⟨e, ⟨he, hne⟩, rfl⟩

theorem grown_include (k : Picks) (name : Bytes) :
    Grown k (k.include name) (· = name) (· = name) := by
  refine ⟨fun x => ?_, fun x => by simp [Picks.include, List.mem_insert_iff]⟩
  simp only [Covers, Picks.include, List.mem_insert_iff, names_filter_ne]
  tauto

theorem grown_exclude (k : Picks) (name : Bytes) (reason : Reason) (pattern : Bytes) :
    Grown k (k.exclude name reason pattern) (· = name) (fun _ => False) := by
  rw [Picks.exclude]
  by_cases h : name ∈ k.included
  · rw [dif_pos h]
    refine ⟨fun x => ⟨.inr, ?_⟩, fun x => by simp⟩
    rintro (rfl | hx)
    · exact .inl h
    · exact hx
  · rw [dif_neg h]
    refine ⟨fun x => ?_, fun x => by simp⟩
    simp only [Covers, List.map_cons, List.mem_cons, names_filter_ne]
    tauto

theorem grown_addMissing (k : Picks) (name : Bytes) :
    Grown k (k.addMissing name) (· = name) (fun _ => False) := by
  obtain ⟨hc, hi⟩ := grown_exclude { k with missing := k.missing ++ [name] } name .notFound []
  exact ⟨hc, hi⟩

theorem Grown.trans {k₁ k₂ k₃ : Picks} {n₁ n₂ i₁ i₂ : Bytes → Prop} (h₁ : Grown k₁ k₂ n₁ i₁)
    (h₂ : Grown k₂ k₃ n₂ i₂) : Grown k₁ k₃ (fun x => n₂ x ∨ n₁ x) (fun x => i₂ x ∨ i₁ x) :=
  ⟨fun x => by rw [h₂.covers, h₁.covers, or_assoc], fun x => by rw [h₂.included, h₁.included, or_assoc]⟩

theorem Grown.congr {k k' : Picks} {n n' i i' : Bytes → Prop} (h : Grown k k' n i)
    (hn : ∀ x, n x ↔ n' x) (hi : ∀ x, i x ↔ i' x) : Grown k k' n' i' :=
  ⟨fun x => by rw [h.covers, hn], fun x => by rw [h.included, hi]⟩

/-- **A loop adds the names it goes through and includes those that its step includes.** -/
theorem Grown.foldl {f : Picks → Bytes → Picks} {c : Bytes → Prop}
    (hf : ∀ k name, Grown k (f k name) (· = name) (fun x => x = name ∧ c x)) (l : List Bytes)
    (k : Picks) : Grown k (l.foldl f k) (· ∈ l) (fun x => x ∈ l ∧ c x) := by
  induction l generalizing k with
  | nil => exact ⟨fun x => by simp, fun x => by simp⟩
  | cons name l ih =>
    rw [List.foldl_cons]
    refine ((hf k name).trans (ih _)).congr (fun x => ?_) (fun x => ?_)
    · rw [List.mem_cons, or_comm]
    · rw [List.mem_cons, or_and_right, or_comm]

/-! ## The loops -/

section

variable {sel : DatabaseSelection} {server : List Bytes}

theorem grown_includeNamed (k : Picks) : Grown k (includeNamed sel server k) (· ∈ sel.databases)
    (fun x => x ∈ sel.databases ∧ x ∈ server) := by
  refine Grown.foldl (fun k name => ?_) _ _
  by_cases h : name ∈ server
  · rw [if_pos h]
    exact (grown_include k name).congr (fun _ => .rfl) fun x => ⟨fun hx => ⟨hx, hx ▸ h⟩, And.left⟩
  · rw [if_neg h]
    refine (grown_addMissing k name).congr (fun _ => .rfl) fun x => ⟨False.elim, ?_⟩
    rintro ⟨rfl, hx⟩
    exact h hx

theorem grown_single (k : Picks) : Grown k (sel.databases.foldl .include k) (· ∈ sel.databases)
    (· ∈ sel.databases) :=
  (Grown.foldl (c := fun _ => True) (fun k name => (grown_include k name).congr (fun _ => .rfl)
    (fun x => by simp)) _ _).congr (fun _ => .rfl) (fun x => by simp)

theorem grown_excludeRest (k : Picks) :
    Grown k (excludeRest server k) (· ∈ server) (fun _ => False) := by
  refine (Grown.foldl (c := fun _ => False) (fun k name => ?_) _ _).congr (fun _ => .rfl)
    (fun x => by simp)
  by_cases h : name ∈ k.included
  · rw [if_pos h]
    refine ⟨fun x => ⟨.inr, ?_⟩, fun x => by simp⟩
    rintro (rfl | hx)
    · exact .inl h
    · exact hx
  · rw [if_neg h]
    exact (grown_exclude k name _ _).congr (fun _ => .rfl) (fun x => by simp)

theorem matchOne_of_matched {st : Picks × List Bytes} {name : Bytes} (h : unmatched sel name = none) :
    matchOne sel st name = (st.1, st.2 ++ [name]) := by
  rw [matchOne, h]

theorem matchOne_of_unmatched {st : Picks × List Bytes} {name pattern : Bytes} {reason : Reason}
    (h : unmatched sel name = some (reason, pattern)) :
    matchOne sel st name = (st.1.exclude name reason pattern, st.2) := by
  rw [matchOne, h]

/-- The first loop keeps what the patterns match, in order, and excludes the rest. -/
theorem foldl_matchOne (st : Picks × List Bytes) :
    (server.foldl (matchOne sel) st).2 = st.2 ++ server.filter (unmatched sel · = none) ∧
      Grown st.1 (server.foldl (matchOne sel) st).1
        (fun x => x ∈ server ∧ unmatched sel x ≠ none) (fun _ => False) := by
  induction server generalizing st with
  | nil => exact ⟨by simp, ⟨fun x => by simp, fun x => by simp⟩⟩
  | cons name server ih =>
    rw [List.foldl_cons]
    obtain ⟨hl, hg⟩ := ih (matchOne sel st name)
    rcases h : unmatched sel name with _ | ⟨reason, pattern⟩
    · rw [matchOne_of_matched h] at hl hg ⊢
      refine ⟨by rw [hl, List.filter_cons_of_pos (by simp [h])]; simp, ?_⟩
      refine hg.congr (fun x => ?_) (fun _ => .rfl)
      rw [List.mem_cons]
      constructor
      · rintro ⟨hx, hu⟩
        exact ⟨.inr hx, hu⟩
      · rintro ⟨rfl | hx, hu⟩
        · exact absurd h hu
        · exact ⟨hx, hu⟩
    · rw [matchOne_of_unmatched h] at hl hg ⊢
      refine ⟨by rw [hl, List.filter_cons_of_neg (by simp [h])], ?_⟩
      refine ((grown_exclude _ name reason pattern).trans hg).congr (fun x => ?_) (fun x => by simp)
      rw [List.mem_cons]
      constructor
      · rintro (⟨hx, hu⟩ | rfl)
        · exact ⟨.inr hx, hu⟩
        · exact ⟨.inl rfl, by simp [h]⟩
      · rintro ⟨rfl | hx, hu⟩
        · exact .inr rfl
        · exact .inl ⟨hx, hu⟩

/-! ## Discovered databases -/

/-- A database the patterns match is backed up. -/
def Backs (sel : DatabaseSelection) (known : Option (List Bytes)) (x : Bytes) : Prop :=
  ∀ ks, known = some ks → x ∈ ks ∨ sel.autoIncludeNew = true

variable (known : Option (List Bytes))

/-- A database the patterns match was not known. -/
def Unknown (x : Bytes) : Prop := ∃ ks, known = some ks ∧ x ∉ ks

def Matched (sel : DatabaseSelection) (server : List Bytes) (x : Bytes) : Prop :=
  x ∈ server ∧ unmatched sel x = none

/-- A matched database that becomes known. -/
def Fresh (sel : DatabaseSelection) (known : Option (List Bytes)) (x : Bytes) : Prop :=
  Backs sel known x ∧ ∀ ks, known = some ks → x ∉ ks

/-- What the loop over some names finds. -/
structure Discovered (sel : DatabaseSelection) (known : Option (List Bytes)) (names : Bytes → Prop)
    (st st' : Discovery) : Prop where
  picks : Grown st.picks st'.picks names (fun x => names x ∧ Backs sel known x)
  new : ∀ x, x ∈ st'.new ↔ (names x ∧ Unknown known x) ∨ x ∈ st.new
  known : ∀ x, x ∈ st'.known ↔ (names x ∧ Fresh sel known x) ∨ x ∈ st.known

theorem discover_spec (st : Discovery) (name : Bytes) :
    Discovered sel known (· = name) st (discover sel known st name) := by
  rcases known with _ | ks
  · exact ⟨(grown_include st.picks name).congr (fun _ => .rfl) (fun x => by simp [Backs]),
      fun x => by simp [discover, Unknown], fun x => by simp [discover, Fresh, Backs, or_comm]⟩
  by_cases hk : name ∈ ks
  · have heq : discover sel (some ks) st name = { st with picks := st.picks.include name } := by
      rw [discover, if_pos hk]
    rw [heq]
    refine ⟨(grown_include st.picks name).congr (fun _ => .rfl) fun x => ⟨fun hx => ⟨hx, ?_⟩, And.left⟩,
      fun x => ⟨.inr, ?_⟩, fun x => ⟨.inr, ?_⟩⟩
    · rintro ks' ⟨⟩
      exact .inl (hx ▸ hk)
    · rintro (⟨rfl, ks', hks, hx⟩ | hx)
      · cases hks
        exact absurd hk hx
      · exact hx
    · rintro (⟨rfl, -, hx⟩ | hx)
      · exact absurd hk (hx ks rfl)
      · exact hx
  have hnew (x : Bytes) : x ∈ st.new ++ [name] ↔ (x = name ∧ Unknown (some ks) x) ∨ x ∈ st.new := by
    simp only [List.mem_append, List.mem_singleton, Unknown, Option.some.injEq, exists_eq_left']
    grind
  by_cases ha : sel.autoIncludeNew = true
  · have heq : discover sel (some ks) st name =
        ⟨st.picks.include name, st.known ++ [name], st.new ++ [name]⟩ := by
      rw [discover, if_neg hk, if_pos ha]
    rw [heq]
    refine ⟨(grown_include st.picks name).congr (fun _ => .rfl) fun x => ⟨fun hx => ⟨hx, ?_⟩, And.left⟩,
      hnew, fun x => ?_⟩
    · exact fun _ _ => .inr ha
    · simp only [List.mem_append, List.mem_singleton, Fresh, Backs, Option.some.injEq, forall_eq', ha,
        or_true, true_and]
      grind
  · have heq : discover sel (some ks) st name =
        ⟨st.picks.exclude name .new [], st.known, st.new ++ [name]⟩ := by
      rw [discover, if_neg hk, if_neg ha]
    rw [heq]
    refine ⟨(grown_exclude st.picks name _ _).congr (fun _ => .rfl) fun x => ⟨False.elim, ?_⟩,
      hnew, fun x => ⟨.inr, ?_⟩⟩
    · rintro ⟨rfl, hb⟩
      exact absurd (hb ks rfl) (by simp [hk, ha])
    · rintro (⟨rfl, hb, -⟩ | hx)
      · exact absurd (hb ks rfl) (by simp [hk, ha])
      · exact hx

theorem foldl_discover (l : List Bytes) (st : Discovery) :
    Discovered sel known (· ∈ l) st (l.foldl (discover sel known) st) := by
  induction l generalizing st with
  | nil => exact ⟨⟨fun x => by simp, fun x => by simp⟩, fun x => by simp, fun x => by simp⟩
  | cons name l ih =>
    rw [List.foldl_cons]
    have hstep : Discovered sel known (· = name) st _ := discover_spec known st name
    have hrest := ih (discover sel known st name)
    refine ⟨(hstep.picks.trans hrest.picks).congr (fun x => ?_) (fun x => ?_), fun x => ?_, fun x => ?_⟩
    · rw [List.mem_cons, or_comm]
    · rw [List.mem_cons, or_and_right, or_comm]
    · rw [hrest.new, hstep.new, List.mem_cons, or_and_right, or_assoc, or_left_comm]
    · rw [hrest.known, hstep.known, List.mem_cons, or_and_right, or_assoc, or_left_comm]

theorem discoverServer_spec : Grown .empty (discoverServer sel server known).picks (· ∈ server)
        (fun x => Matched sel server x ∧ Backs sel known x) ∧
      (∀ x, x ∈ (discoverServer sel server known).new ↔ Matched sel server x ∧ Unknown known x) ∧
      ∀ x, x ∈ (discoverServer sel server known).known ↔
        (Matched sel server x ∧ Fresh sel known x) ∨ x ∈ known.getD [] := by
  obtain ⟨hl, hg⟩ : (matchServer sel server .empty).2 = [] ++ server.filter (unmatched sel · = none) ∧
      Grown .empty (matchServer sel server .empty).1 (fun x => x ∈ server ∧ unmatched sel x ≠ none)
        (fun _ => False) := foldl_matchOne (.empty, [])
  have hmem (x : Bytes) : x ∈ sorted (matchServer sel server .empty).2 ↔ Matched sel server x := by
    rw [sorted, List.mem_insertionSort, hl]
    simp [Matched]
  have hd : Discovered sel known (· ∈ sorted (matchServer sel server .empty).2)
      ⟨(matchServer sel server .empty).1, known.getD [], []⟩ (discoverServer sel server known) :=
    foldl_discover known _ _
  refine ⟨(hg.trans hd.picks).congr (fun x => ?_) (fun x => ?_), fun x => ?_, fun x => ?_⟩
  · rw [hmem, Matched]
    by_cases h : unmatched sel x = none <;> simp [h]
  · rw [hmem, or_false]
  · rw [hd.new, hmem]
    simp
  · rw [hd.known, hmem]

/-- The picks of an all or pattern selection. -/
theorem picks_discovered :
    Grown .empty (includeNamed sel server (discoverServer sel server known).picks)
      (fun x => x ∈ server ∨ x ∈ sel.databases)
      (fun x => (Matched sel server x ∧ Backs sel known x) ∨ (x ∈ sel.databases ∧ x ∈ server)) :=
  ((discoverServer_spec known).1.trans (grown_includeNamed _)).congr (fun _ => or_comm) (fun _ => or_comm)

/-- The picks of a list selection. -/
theorem picks_named : Grown .empty (excludeRest server (includeNamed sel server .empty))
    (fun x => x ∈ server ∨ x ∈ sel.databases) (fun x => x ∈ sel.databases ∧ x ∈ server) :=
  ((grown_includeNamed _).trans (grown_excludeRest _)).congr (fun _ => .rfl) (fun x => by simp)

theorem picks_single : Grown .empty (excludeRest server (sel.databases.foldl .include .empty))
    (fun x => x ∈ server ∨ x ∈ sel.databases) (fun x => x ∈ sel.databases) :=
  ((grown_single _).trans (grown_excludeRest _)).congr (fun _ => .rfl) (fun x => by simp)

/-! ## The returned lists -/

@[simp] theorem mem_sorted {l : List Bytes} {x : Bytes} : x ∈ sorted l ↔ x ∈ l :=
  List.mem_insertionSort _

theorem pairwise_sorted (l : List Bytes) : (sorted l).Pairwise (· ≤ ·) :=
  List.pairwise_insertionSort _ _

theorem sorted_eq_of_perm {l l' : List Bytes} (h : l.Perm l') : sorted l = sorted l' := by
  refine List.Perm.eq_of_pairwise ?_ (pairwise_sorted l) (pairwise_sorted l')
    (((List.perm_insertionSort _ _).trans h).trans (List.perm_insertionSort _ _).symm)
  exact fun a b _ _ => List.le_antisymm

theorem mem_compact {l : List Bytes} {x : Bytes} : x ∈ compact l ↔ x ∈ l := by
  fun_induction compact l with
  | case1 a l ih => rw [ih]; simp
  | case2 a b l hne ih => rw [List.mem_cons, ih, List.mem_cons (l := b :: l)]
  | case3 l _ => rfl

theorem compact_sublist (l : List Bytes) : (compact l).Sublist l := by
  fun_induction compact l with
  | case1 a l ih => exact ih.cons a
  | case2 a b l hne ih => exact ih.cons_cons a
  | case3 l _ => exact List.Sublist.refl _

theorem nodup_compact {l : List Bytes} (h : l.Pairwise (· ≤ ·)) : (compact l).Nodup := by
  fun_induction compact l with
  | case1 a l ih => exact ih (List.pairwise_cons.mp h).2
  | case2 a b l hne ih =>
    obtain ⟨ha, h⟩ := List.pairwise_cons.mp h
    refine List.nodup_cons.mpr ⟨fun hmem => ?_, ih h⟩
    -- between two equal names nothing else stands
    have hba : b ≤ a := by
      rcases List.mem_cons.mp (mem_compact.mp hmem) with rfl | hmem
      · exact List.le_refl _
      · exact (List.pairwise_cons.mp h).1 a hmem
    exact hne (List.le_antisymm (ha b List.mem_cons_self) hba)
  | case3 l hl =>
    cases l with
    | nil => exact List.nodup_nil
    | cons a l =>
      cases l with
      | nil => exact List.nodup_singleton a
      | cons b l => exact absurd rfl (hl a b l)

/-- Known databases are stored as a set. -/
theorem compact_sorted_congr {l l' : List Bytes} (h : ∀ x, x ∈ l ↔ x ∈ l') :
    compact (sorted l) = compact (sorted l') := by
  refine List.Perm.eq_of_pairwise (fun a b _ _ => List.le_antisymm)
    ((pairwise_sorted l).sublist (compact_sublist _)) ((pairwise_sorted l').sublist (compact_sublist _))
    ((List.perm_ext_iff_of_nodup (nodup_compact (pairwise_sorted l))
      (nodup_compact (pairwise_sorted l'))).mpr fun x => ?_)
  rw [mem_compact, mem_compact, mem_sorted, mem_sorted, h]

end

end MongoRescue.Selection.Proof
