import Mathlib.Data.List.Induction

/-!
# Hash chains

Entries with consecutive numbers, each with a hash of its content chained to the hash before it
(`Chained`). Chains can be cut and joined (`chained_append`), so a chain stays one when entries are
added at its end or removed from its start. Where the hash determines what it was made from, the start
and the head of a chain determine everything between them (`Chained.unique`).
-/

namespace HashChain

variable {ε κ : Type} (number : ε → Int) (hash : ε → κ) (link : κ → ε → κ)

/-- Every entry follows the one before it, the first one an entry with number `n` and hash `h`. -/
def Chained : Int → κ → List ε → Prop
  | _, _, [] => True
  | n, h, e :: es => number e = n + 1 ∧ hash e = link h e ∧ Chained (number e) (hash e) es

/-- The number at the end of a chain from `n`. -/
def headNumber : Int → List ε → Int
  | n, [] => n
  | _, e :: es => headNumber (number e) es

/-- The hash at the end of a chain from `h`. -/
def headHash : κ → List ε → κ
  | h, [] => h
  | _, e :: es => headHash (hash e) es

variable {number hash link}

@[simp] theorem headNumber_nil (n : Int) : headNumber number n [] = n := rfl

@[simp] theorem headHash_nil (h : κ) : headHash hash h [] = h := rfl

@[simp] theorem headNumber_cons (n : Int) (e : ε) (es : List ε) :
    headNumber number n (e :: es) = headNumber number (number e) es := rfl

@[simp] theorem headHash_cons (h : κ) (e : ε) (es : List ε) :
    headHash hash h (e :: es) = headHash hash (hash e) es := rfl

theorem chained_append {n : Int} {h : κ} {es fs : List ε} :
    Chained number hash link n h (es ++ fs) ↔ Chained number hash link n h es ∧
      Chained number hash link (headNumber number n es) (headHash hash h es) fs := by
  induction es generalizing n h with
  | nil => simp [Chained]
  | cons e es ih => simp [Chained, ih, and_assoc]

@[simp] theorem headNumber_append (n : Int) (es fs : List ε) :
    headNumber number n (es ++ fs) = headNumber number (headNumber number n es) fs := by
  induction es generalizing n with
  | nil => rfl
  | cons e es ih => simp [ih]

@[simp] theorem headHash_append (h : κ) (es fs : List ε) :
    headHash hash h (es ++ fs) = headHash hash (headHash hash h es) fs := by
  induction es generalizing h with
  | nil => rfl
  | cons e es ih => simp [ih]

/-- The number at the end of a chain that is not empty is that of an entry. -/
theorem exists_headNumber (number : ε → Int) (n : Int) {es : List ε} (hne : es ≠ []) :
    ∃ e ∈ es, number e = headNumber number n es := by
  induction es generalizing n with
  | nil => exact absurd rfl hne
  | cons e es ih =>
    cases es with
    | nil => exact ⟨e, List.mem_cons_self, rfl⟩
    | cons f es =>
      obtain ⟨x, hx, hnum⟩ := ih (number e) (by simp)
      exact ⟨x, List.mem_cons_of_mem _ hx, hnum⟩

namespace Chained

variable {n : Int} {h : κ} {es : List ε}

/-- The numbers of a chain are counted up from its start. -/
theorem headNumber_eq (hc : Chained number hash link n h es) :
    headNumber number n es = n + es.length := by
  induction es generalizing n h with
  | nil => simp
  | cons e es ih =>
    obtain ⟨hn, -, hrest⟩ := hc
    rw [headNumber_cons, ih hrest, hn, List.length_cons]
    omega

theorem lt_of_mem (hc : Chained number hash link n h es) {e : ε} (he : e ∈ es) : n < number e := by
  induction es generalizing n h with
  | nil => cases he
  | cons x es ih =>
    obtain ⟨hn, -, hrest⟩ := hc
    rcases List.mem_cons.mp he with rfl | he
    · omega
    · have := ih hrest he
      omega

theorem le_headNumber (hc : Chained number hash link n h es) {e : ε} (he : e ∈ es) :
    number e ≤ headNumber number n es := by
  obtain ⟨es₁, es₂, rfl⟩ := List.append_of_mem he
  obtain ⟨-, -, -, hrest⟩ := chained_append.mp hc
  have := hrest.headNumber_eq
  rw [headNumber_append, headNumber_cons]
  omega

/-- The last hash of a chain is one that `link` gave, if not the one it starts with. -/
theorem headHash_property {K : κ → Prop} (hlink : ∀ h e, K (link h e)) (hh : K h)
    (hc : Chained number hash link n h es) : K (headHash hash h es) := by
  induction es generalizing n h with
  | nil => exact hh
  | cons e es ih =>
    obtain ⟨-, he, hrest⟩ := hc
    rw [headHash_cons]
    exact ih (by rw [he]; exact hlink _ _) hrest

/-- **The start and the head of a chain determine its entries.** `hinj` says what is needed of the
hash: where `P` holds of an entry's content, its hash is the hash of no other content or predecessor.
Only one of the two chains must be made of such entries. -/
theorem unique {P : ε → Prop} {K : κ → Prop} (hlink : ∀ h e, K (link h e))
    (hinj : ∀ {h h' e e'}, P e → K h → K h' → link h e = link h' e' → hash e = hash e' →
      h = h' ∧ e = e')
    {fs : List ε} (hK : K h) (hP : ∀ e ∈ es, P e) (hes : Chained number hash link n h es)
    (hfs : Chained number hash link n h fs)
    (hnumber : headNumber number n es = headNumber number n fs)
    (hhash : headHash hash h es = headHash hash h fs) : es = fs := by
  have hlen : es.length = fs.length := by
    have h1 := hes.headNumber_eq
    have h2 := hfs.headNumber_eq
    omega
  clear hnumber
  -- from the end: the last entries are equal, and so are the hashes before them
  induction es using List.reverseRecOn generalizing fs with
  | nil => exact (List.length_eq_zero_iff.mp hlen.symm).symm
  | append_singleton es e ih =>
    rcases List.eq_nil_or_concat fs with rfl | ⟨fs, f, rfl⟩
    · simp at hlen
    · rw [List.concat_eq_append] at *
      obtain ⟨hes₀, -, he, -⟩ := chained_append.mp hes
      obtain ⟨hfs₀, -, hf, -⟩ := chained_append.mp hfs
      have hef : hash e = hash f := by simpa using hhash
      obtain ⟨hprev, rfl⟩ := hinj (hP e (by simp)) (hes₀.headHash_property hlink hK)
        (hfs₀.headHash_property hlink hK) (by rw [← he, ← hf, hef]) hef
      have hlen' : es.length = fs.length := by simpa using hlen
      have hrest : es = fs := ih (fun x hx => hP x (by simp [hx])) hes₀ hfs₀ hprev hlen'
      rw [hrest]

end Chained

end HashChain
