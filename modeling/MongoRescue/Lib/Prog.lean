import Mathlib.Data.List.Forall2

/-!
# Programs with state and errors

`Prog σ ε α`: a computation over a state `σ` that returns an `α` or fails with an `ε`. The state it
leaves is kept in both cases, as that of a method that returns an error half way is.

`Triple P x Q E`: from a state in `P`, the program `x` either returns an `a` in a state in `Q a`, or
fails in a state in `E`. The rules follow the shape of the program (`Triple.bind`, `Triple.ite`,
`Triple.each` for a loop that collects a result of each item). `Returns x φ` is the part of it that
does not look at the state: every value `x` returns satisfies `φ`. `Frames g x` and `Moves R x` say
what `x` leaves alone; instances find them for a program from its parts.
-/

def Prog (σ ε α : Type) : Type := σ → Except ε α × σ

namespace Prog

variable {σ ε α β : Type}

def ret (a : α) : Prog σ ε α := fun s => (.ok a, s)

def andThen (x : Prog σ ε α) (f : α → Prog σ ε β) : Prog σ ε β := fun s =>
  match x s with
  | (.ok a, s') => f a s'
  | (.error e, s') => (.error e, s')

instance : Monad (Prog σ ε) where
  pure := ret
  bind := andThen

def fail (e : ε) : Prog σ ε α := fun s => (.error e, s)

def get : Prog σ ε σ := fun s => (.ok s, s)

def modify (f : σ → σ) : Prog σ ε Unit := fun s => (.ok (), f s)

/-- The value of an `Option`, or the error `e`. -/
def orFail (e : ε) : Option α → Prog σ ε α
  | none => fail e
  | some a => ret a

/-- The value of an `Except`. -/
def lift : Except ε α → Prog σ ε α
  | .error e => fail e
  | .ok a => ret a

/-- Runs `x` and returns how it ended. -/
def attempt (x : Prog σ ε α) : Prog σ ε (Except ε α) := fun s => (.ok (x s).1, (x s).2)

/-- Runs `f` on the items in order and collects the results; the first error ends the loop. -/
def each (f : α → Prog σ ε β) : List α → Prog σ ε (List β)
  | [] => pure []
  | a :: as => do
    let b ← f a
    let bs ← each f as
    return b :: bs

theorem bind_run (x : Prog σ ε α) (f : α → Prog σ ε β) (s : σ) : (x >>= f) s = match x s with
      | (.ok a, s') => f a s'
      | (.error e, s') => (.error e, s') := rfl

@[simp] theorem pure_run (a : α) (s : σ) : (pure a : Prog σ ε α) s = (.ok a, s) := rfl

@[simp] theorem fail_run (e : ε) (s : σ) : (fail e : Prog σ ε α) s = (.error e, s) := rfl

/-- A program that returned went through its first part. -/
theorem bind_ok {x : Prog σ ε α} {f : α → Prog σ ε β} {s s' : σ} {b : β}
    (h : (x >>= f) s = (.ok b, s')) : ∃ a t, x s = (.ok a, t) ∧ f a t = (.ok b, s') := by
  rw [bind_run] at h
  split at h
  · rename_i a t hx
    exact ⟨a, t, hx, h⟩
  · cases h

theorem orFail_ok {e : ε} {o : Option α} {f : α → Prog σ ε β} {s s' : σ} {b : β}
    (h : (orFail e o >>= f) s = (.ok b, s')) : ∃ a, o = some a ∧ f a s = (.ok b, s') := by
  cases o with
  | none => cases h
  | some a => exact ⟨a, rfl, h⟩

theorem lift_ok {r : Except ε α} {f : α → Prog σ ε β} {s s' : σ} {b : β}
    (h : (lift r >>= f) s = (.ok b, s')) : ∃ a, r = .ok a ∧ f a s = (.ok b, s') := by
  cases r with
  | error e => cases h
  | ok a => exact ⟨a, rfl, h⟩

/-- Each result of a loop comes from one of its items. -/
theorem exists_left_of_forall₂ {R : α → β → Prop} {as : List α} {bs : List β}
    (h : List.Forall₂ R as bs) {b : β} (hb : b ∈ bs) : ∃ a ∈ as, R a b := by
  induction h with
  | nil => simp at hb
  | cons hab _ ih =>
    rcases List.mem_cons.mp hb with rfl | hb
    · exact ⟨_, List.mem_cons_self, hab⟩
    · obtain ⟨a, ha, hr⟩ := ih hb
      exact ⟨a, List.mem_cons_of_mem _ ha, hr⟩

/-! ## Triples -/

def Triple (P : σ → Prop) (x : Prog σ ε α) (Q : α → σ → Prop) (E : σ → Prop) : Prop :=
  ∀ s, P s → match x s with
    | (.ok a, s') => Q a s'
    | (.error _, s') => E s'

namespace Triple

variable {P P' : σ → Prop} {Q Q' : α → σ → Prop} {E E' : σ → Prop} {x : Prog σ ε α}

/-- What a program keeps however it ends holds in the state it leaves. -/
theorem kept {I : σ → Prop} (h : Triple I x (fun _ => I) I) {s : σ} (hs : I s) : I (x s).2 := by
  have := h s hs
  revert this
  rcases x s with ⟨r, s'⟩
  cases r <;> exact id

theorem pure {a : α} (h : ∀ s, P s → Q a s) : Triple P (pure a : Prog σ ε α) Q E :=
  fun s hs => h s hs

theorem fail {e : ε} (h : ∀ s, P s → E s) : Triple P (Prog.fail e : Prog σ ε α) Q E :=
  fun s hs => h s hs

theorem get {Q : σ → σ → Prop} (h : ∀ s, P s → Q s s) : Triple P (Prog.get : Prog σ ε σ) Q E :=
  fun s hs => h s hs

theorem modify {f : σ → σ} {Q : Unit → σ → Prop} (h : ∀ s, P s → Q () (f s)) :
    Triple P (Prog.modify f : Prog σ ε Unit) Q E :=
  fun s hs => h s hs

theorem orFail {e : ε} {o : Option α} (he : ∀ s, P s → E s) (h : ∀ a, o = some a → ∀ s, P s → Q a s) :
    Triple P (Prog.orFail e o : Prog σ ε α) Q E := by
  intro s hs
  cases o with
  | none => exact he s hs
  | some a => exact h a rfl s hs

theorem bind {f : α → Prog σ ε β} {R : β → σ → Prop} (hx : Triple P x Q E)
    (hf : ∀ a, Triple (Q a) (f a) R E) : Triple P (x >>= f) R E := by
  intro s hs
  have h1 := hx s hs
  rw [bind_run]
  revert h1
  rcases x s with ⟨r, s'⟩
  cases r with
  | error e => exact id
  | ok a => exact fun h1 => hf a s' h1

/-- A program that starts by reading the state, for each state it may read. -/
theorem get_bind {f : σ → Prog σ ε β} {R : β → σ → Prop}
    (h : ∀ t, P t → Triple (fun s => P s ∧ s = t) (f t) R E) : Triple P (Prog.get >>= f) R E :=
  fun s hs => h s hs s ⟨hs, rfl⟩

/-- A program that starts with a value that may be missing, for each value it may have. -/
theorem orFail_bind {e : ε} {o : Option α} {f : α → Prog σ ε β} {R : β → σ → Prop}
    (h : ∀ a, o = some a → Triple P (f a) R P) : Triple P (Prog.orFail e o >>= f) R P := by
  cases o with
  | none => exact fun _ hs => hs
  | some a => exact h a rfl

theorem lift_bind {r : Except ε α} {f : α → Prog σ ε β} {R : β → σ → Prop}
    (h : ∀ a, r = .ok a → Triple P (f a) R P) : Triple P (Prog.lift r >>= f) R P := by
  cases r with
  | error e => exact fun _ hs => hs
  | ok a => exact h a rfl

theorem conseq (h : Triple P x Q E) (hp : ∀ s, P' s → P s) (hq : ∀ a s, Q a s → Q' a s)
    (he : ∀ s, E s → E' s) : Triple P' x Q' E' := by
  intro s hs
  have := h s (hp s hs)
  revert this
  rcases x s with ⟨r, s'⟩
  cases r with
  | error e => exact he s'
  | ok a => exact hq a s'

theorem pre (h : Triple P x Q E) (hp : ∀ s, P' s → P s) : Triple P' x Q E :=
  h.conseq hp (fun _ _ h => h) fun _ h => h

theorem err (h : Triple P x Q E) (he : ∀ s, E s → E' s) : Triple P x Q E' :=
  h.conseq (fun _ h => h) (fun _ _ h => h) he

/-- A fact that does not depend on the state is kept. -/
theorem keep {φ : Prop} (h : Triple P x Q E) :
    Triple (fun s => P s ∧ φ) x (fun a s => Q a s ∧ φ) E := by
  intro s hs
  have := h s hs.1
  revert this
  rcases x s with ⟨r, s'⟩
  cases r with
  | error e => exact id
  | ok a => exact fun h1 => ⟨h1, hs.2⟩

/-- A fact of the precondition that does not depend on the state can be assumed. -/
theorem assume {φ : Prop} (h : φ → Triple P x Q E) : Triple (fun s => P s ∧ φ) x Q E :=
  fun s hs => h hs.2 s hs.1

theorem ite {c : Prop} [Decidable c] {y : Prog σ ε α} (h1 : c → Triple P x Q E)
    (h2 : ¬ c → Triple P y Q E) : Triple P (if c then x else y) Q E := by
  split
  · exact h1 ‹_›
  · exact h2 ‹_›

/-- What holds after a program that returned or failed. -/
def after (Q : α → σ → Prop) (E : σ → Prop) : Except ε α → σ → Prop
  | .ok a, s => Q a s
  | .error _, s => E s

theorem attempt (h : Triple P x Q E) : Triple P (Prog.attempt x) (after Q E) E' := by
  intro s hs
  have := h s hs
  show after Q E (x s).1 (x s).2
  revert this
  rcases x s with ⟨r, s'⟩
  cases r <;> exact id

/-- A loop keeps what each of its rounds keeps, and relates each item to its result. -/
theorem each {f : α → Prog σ ε β} {I : σ → Prop} {R : α → β → Prop} {as : List α}
    (h : ∀ a ∈ as, Triple I (f a) (fun b s => I s ∧ R a b) E) :
    Triple I (Prog.each f as) (fun bs s => I s ∧ List.Forall₂ R as bs) E := by
  induction as with
  | nil => exact Triple.pure fun s hs => ⟨hs, .nil⟩
  | cons a as ih =>
    refine Triple.bind (h a List.mem_cons_self) fun b => ?_
    refine fun s hs => ?_
    have hrest := (ih fun a ha => h a (List.mem_cons_of_mem _ ha)) s hs.1
    rw [bind_run]
    revert hrest
    rcases Prog.each f as s with ⟨r, s'⟩
    cases r with
    | error e => exact id
    | ok bs => exact fun hrest => ⟨hrest.1, .cons hs.2 hrest.2⟩

end Triple

/-! ## Returned values -/

def Returns (x : Prog σ ε α) (φ : α → Prop) : Prop := ∀ s a s', x s = (.ok a, s') → φ a

namespace Returns

variable {φ φ' : α → Prop} {ψ : β → Prop} {x y : Prog σ ε α}

theorem any (x : Prog σ ε α) : Returns x fun _ => True := fun _ _ _ _ => trivial

theorem pure {a : α} (h : φ a) : Returns (pure a : Prog σ ε α) φ := by
  intro s b s' hb
  cases hb
  exact h

theorem fail {e : ε} : Returns (Prog.fail e : Prog σ ε α) φ :=
  fun _ _ _ h => by cases h

theorem orFail {e : ε} {o : Option α} : Returns (Prog.orFail e o : Prog σ ε α) (o = some ·) := by
  intro s a s' h
  cases o with
  | none => cases h
  | some b =>
    cases h
    rfl

theorem lift {r : Except ε α} : Returns (Prog.lift r : Prog σ ε α) (r = .ok ·) := by
  intro s a s' h
  cases r with
  | error e => cases h
  | ok b =>
    cases h
    rfl

theorem bind {f : α → Prog σ ε β} (hx : Returns x φ) (hf : ∀ a, φ a → Returns (f a) ψ) :
    Returns (x >>= f) ψ := by
  intro s b s' h
  obtain ⟨a, t, ha, hb⟩ := bind_ok h
  exact hf a (hx s a t ha) t b s' hb

theorem mono (h : Returns x φ) (hi : ∀ a, φ a → φ' a) : Returns x φ' :=
  fun s a s' ha => hi a (h s a s' ha)

theorem ite {c : Prop} [Decidable c] (h1 : c → Returns x φ) (h2 : ¬ c → Returns y φ) :
    Returns (if c then x else y) φ := by
  split
  · exact h1 ‹_›
  · exact h2 ‹_›

/-- Each result of a loop is related to its item. -/
theorem each {f : α → Prog σ ε β} {R : α → β → Prop} {as : List α}
    (h : ∀ a ∈ as, Returns (f a) (R a)) : Returns (Prog.each f as) (List.Forall₂ R as) := by
  induction as with
  | nil => exact Returns.pure .nil
  | cons a as ih =>
    refine Returns.bind (h a List.mem_cons_self) fun b hb => ?_
    refine Returns.bind (ih fun a' ha' => h a' (List.mem_cons_of_mem _ ha')) fun bs hbs => ?_
    exact Returns.pure (.cons hb hbs)

end Returns

/-! ## Frames -/

/-- The program leaves the part `g` of the state as it is, however it ends. A class, so that the
frame of a program is found from those of its parts. -/
class Frames {γ : Type} (g : σ → γ) (x : Prog σ ε α) : Prop where
  eq : ∀ s, g (x s).2 = g s

namespace Frames

variable {γ : Type} {g : σ → γ} {x y : Prog σ ε α}

instance pure (a : α) : Frames g (pure a : Prog σ ε α) := ⟨fun _ => rfl⟩

instance fail (e : ε) : Frames g (Prog.fail e : Prog σ ε α) := ⟨fun _ => rfl⟩

instance get : Frames g (Prog.get : Prog σ ε σ) := ⟨fun _ => rfl⟩

theorem modify {f : σ → σ} (h : ∀ s, g (f s) = g s) :
    Frames g (Prog.modify f : Prog σ ε Unit) := ⟨h⟩

instance orFail (e : ε) (o : Option α) : Frames g (Prog.orFail e o : Prog σ ε α) :=
  ⟨fun _ => by cases o <;> rfl⟩

instance lift (r : Except ε α) : Frames g (Prog.lift r : Prog σ ε α) :=
  ⟨fun _ => by cases r <;> rfl⟩

theorem seq {f : α → Prog σ ε β} (hx : Frames g x) (hf : ∀ a, Frames g (f a)) :
    Frames g (x >>= f) := by
  refine ⟨fun s => ?_⟩
  have h1 := hx.eq s
  rw [bind_run]
  revert h1
  rcases x s with ⟨r, s'⟩
  cases r with
  | error e => exact id
  | ok a => exact fun h1 => ((hf a).eq s').trans h1

instance bind {f : α → Prog σ ε β} [hx : Frames g x] [hf : ∀ a, Frames g (f a)] :
    Frames g (x >>= f) := seq hx hf

instance ite {c : Prop} [Decidable c] [hx : Frames g x] [hy : Frames g y] :
    Frames g (if c then x else y) := by
  split
  · exact hx
  · exact hy

instance each {f : α → Prog σ ε β} [hf : ∀ a, Frames g (f a)] (as : List α) :
    Frames g (Prog.each f as) := by
  induction as with
  | nil => exact pure []
  | cons a as ih => exact bind

end Frames

/-! ## Changes along a relation -/

/-- The program changes the state only along `R`, however it ends; a frame is the case of an
equivalence. -/
class Moves (R : σ → σ → Prop) (x : Prog σ ε α) : Prop where
  rel : ∀ s, R s (x s).2

/-- What holds of a state holds of every state after it. -/
def Closed (R : σ → σ → Prop) (P : σ → Prop) : Prop := ∀ s s', R s s' → P s → P s'

theorem Closed.and {R : σ → σ → Prop} {P Q : σ → Prop} (hP : Closed R P) (hQ : Closed R Q) :
    Closed R fun s => P s ∧ Q s :=
  fun s s' h hs => ⟨hP s s' h hs.1, hQ s s' h hs.2⟩

namespace Moves

variable {R : σ → σ → Prop} {x y : Prog σ ε α}

instance pure [Std.Refl R] (a : α) : Moves R (pure a : Prog σ ε α) := ⟨refl_of R⟩

instance fail [Std.Refl R] (e : ε) : Moves R (Prog.fail e : Prog σ ε α) := ⟨refl_of R⟩

instance get [Std.Refl R] : Moves R (Prog.get : Prog σ ε σ) := ⟨refl_of R⟩

theorem modify {f : σ → σ} (h : ∀ s, R s (f s)) : Moves R (Prog.modify f : Prog σ ε Unit) := ⟨h⟩

instance orFail [Std.Refl R] (e : ε) (o : Option α) : Moves R (Prog.orFail e o : Prog σ ε α) :=
  ⟨fun s => by cases o <;> exact refl_of R s⟩

theorem seq [IsTrans σ R] {f : α → Prog σ ε β} (hx : Moves R x) (hf : ∀ a, Moves R (f a)) :
    Moves R (x >>= f) := by
  refine ⟨fun s => ?_⟩
  have h1 := hx.rel s
  rw [bind_run]
  revert h1
  rcases x s with ⟨r, s'⟩
  cases r with
  | error e => exact id
  | ok a => exact fun h1 => trans_of R h1 ((hf a).rel s')

instance bind [IsTrans σ R] {f : α → Prog σ ε β} [hx : Moves R x] [hf : ∀ a, Moves R (f a)] :
    Moves R (x >>= f) := seq hx hf

instance ite {c : Prop} [Decidable c] [hx : Moves R x] [hy : Moves R y] :
    Moves R (if c then x else y) := by
  split
  · exact hx
  · exact hy

/-- What is closed under the changes is kept. -/
theorem triple [hx : Moves R x] {P E : σ → Prop} (hP : Closed R P) (hE : ∀ s, P s → E s) :
    Triple P x (fun _ => P) E := by
  intro s hs
  have h1 := hP s _ (hx.rel s) hs
  revert h1
  rcases x s with ⟨r, s'⟩
  cases r with
  | error e => exact hE s'
  | ok a => exact id

end Moves

end Prog
