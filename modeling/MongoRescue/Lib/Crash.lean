import MongoRescue.Lib.Trans
import Mathlib.Logic.Function.Basic

/-!
# Programs that are cut short

A program (`Conc.Proc`) makes calls of a signature, each answered by a device, one after the other;
`Ran` are its runs, cut short after any call. What a cut run leaves is what the device holds, so a
crash is the end of a run like any other, and what happens over many crashes and restarts is `Lives`:
any number of programs, each run on what the one before left.

`Wp` is the logic: every call of the program leaves the device in `I`, and the program ends in `Q`.
`Lives.inv` is its use: an invariant that every program keeps, call by call, holds at every moment of
every life. A run in which the environment always plays the same part is `eval`; `Wp.eval` says what it
returns.
-/

namespace Conc

/-! ## Programs -/

/-- The calls a program makes, and what they answer. -/
structure Sig where
  Op : Type
  Ans : Op → Type

inductive Proc (S : Sig) (α : Type)
  | ret (a : α)
  | call (op : S.Op) (k : S.Ans op → Proc S α)

namespace Proc

variable {S : Sig} {α β : Type}

def bind (x : Proc S α) (f : α → Proc S β) : Proc S β :=
  match x with
  | .ret a => f a
  | .call op k => .call op fun a => (k a).bind f

instance : Monad (Proc S) where
  pure := .ret
  bind := bind

/-- The program that makes one call. -/
def op (o : S.Op) : Proc S (S.Ans o) := .call o .ret

end Proc

end Conc

namespace Crash

open Conc (Sig Proc)

/-- What a call does to the state, with the environment's part in it. -/
abbrev Device (S : Sig) (σ ε : Type) := (op : S.Op) → σ → ε → σ × S.Ans op

section

variable {S : Sig} {σ ε α β : Type} (dev : Device S σ ε) (ok : S.Op → σ → ε → Prop)

/-- The runs of a program whose calls meet `ok`; `none` when it was cut short. -/
inductive Ran : Proc S α → σ → Option α → σ → Prop
  | cut (x : Proc S α) (s : σ) : Ran x s none s
  | ret (a : α) (s : σ) : Ran (.ret a) s (some a) s
  | call {op : S.Op} {k : S.Ans op → Proc S α} {s s' : σ} {r : Option α} (e : ε) :
      ok op s e → Ran (k (dev op s e).2) (dev op s e).1 r s' → Ran (.call op k) s r s'

/-- The run in which the environment plays the part `e` in every call. -/
def eval (e : ε) : Proc S α → σ → α × σ
  | .ret a, s => (a, s)
  | .call op k, s => eval e (k (dev op s e).2) (dev op s e).1

/-- Every call leaves a state in `I`, and the program ends in `Q`. -/
def Wp (I : σ → Prop) : Proc S α → (α → σ → Prop) → σ → Prop
  | .ret a, Q, s => Q a s
  | .call op k, Q, s => ∀ e, ok op s e → I (dev op s e).1 ∧ Wp I (k (dev op s e).2) Q (dev op s e).1

variable {dev ok} {I : σ → Prop}

theorem eval_bind (e : ε) (x : Proc S α) (f : α → Proc S β) (s : σ) :
    eval dev e (x >>= f) s = eval dev e (f (eval dev e x s).1) (eval dev e x s).2 := by
  induction x generalizing s with
  | ret a => rfl
  | call op k ih => exact ih _ _

@[simp] theorem eval_pure (e : ε) (a : α) (s : σ) : eval dev e (pure a : Proc S α) s = (a, s) := rfl

variable {x : Proc S α}

theorem Wp.conseq {Q Q' : α → σ → Prop} {s : σ} (h : Wp dev ok I x Q s)
    (hq : ∀ a s, Q a s → Q' a s) : Wp dev ok I x Q' s := by
  induction x generalizing s with
  | ret a => exact hq _ _ h
  | call op k ih => exact fun e he => ⟨(h e he).1, ih _ (h e he).2⟩

theorem Wp.bind {f : α → Proc S β} {Q : β → σ → Prop} {s : σ}
    (h : Wp dev ok I x (fun a s => Wp dev ok I (f a) Q s) s) : Wp dev ok I (x >>= f) Q s := by
  induction x generalizing s with
  | ret a => exact h
  | call op k ih => exact fun e he => ⟨(h e he).1, ih _ (h e he).2⟩

/-- **Soundness**: the state a run ends in, or was cut short in, is in `I`. -/
theorem Wp.ran {Q : α → σ → Prop} {s s' : σ} {r : Option α} (h : Wp dev ok I x Q s)
    (hs : I s) (hr : Ran dev ok x s r s') : I s' ∧ ∀ a, r = some a → Q a s' := by
  induction hr with
  | cut x s => exact ⟨hs, fun a ha => by cases ha⟩
  | ret a s => exact ⟨hs, fun b hb => by cases hb; exact h⟩
  | call e he _ ih => exact ih (h e he).2 (h e he).1

/-- What a run with the environment fixed to `e` returns. -/
theorem Wp.eval {Q : α → σ → Prop} {s : σ} {e : ε} (h : Wp dev ok I x Q s)
    (he : ∀ op s, ok op s e) : Q (eval dev e x s).1 (eval dev e x s).2 := by
  induction x generalizing s with
  | ret a => exact h
  | call op k ih => exact ih _ (h e (he op s)).2

theorem ran_eval {e : ε} (he : ∀ op s, ok op s e) (x : Proc S α) (s : σ) :
    Ran dev ok x s (some (eval dev e x s).1) (eval dev e x s).2 := by
  induction x generalizing s with
  | ret a => exact .ret a s
  | call op k ih => exact .call e (he op s) (ih _ _)

theorem Wp.and {I' : σ → Prop} {Q Q' : α → σ → Prop} {s : σ} (h : Wp dev ok I x Q s)
    (h' : Wp dev ok I' x Q' s) : Wp dev ok I x (fun a s => Q a s ∧ Q' a s) s := by
  induction x generalizing s with
  | ret a => exact ⟨h, h'⟩
  | call op k ih => exact fun e he => ⟨(h e he).1, ih _ (h e he).2 (h' e he).2⟩

/-- Fewer parts of the environment leave fewer runs. -/
theorem Wp.under {ok' : S.Op → σ → ε → Prop} {Q : α → σ → Prop} {s : σ}
    (h : Wp dev ok I x Q s) (hok : ∀ op s e, ok' op s e → ok op s e) : Wp dev ok' I x Q s := by
  induction x generalizing s with
  | ret a => exact h
  | call op k ih => exact fun e he => ⟨(h e (hok op s e he)).1, ih _ (h e (hok op s e he)).2⟩

/-- The state after `n` calls in which the environment plays the part `e`. -/
def cutAfter (dev : Device S σ ε) (e : ε) : Nat → Proc S α → σ → σ
  | 0, _, s => s
  | _ + 1, .ret _, s => s
  | n + 1, .call op k, s => cutAfter dev e n (k (dev op s e).2) (dev op s e).1

theorem ran_cutAfter {e : ε} (he : ∀ op s, ok op s e) (n : Nat) (x : Proc S α) (s : σ) :
    Ran dev ok x s none (cutAfter dev e n x s) := by
  induction n generalizing x s with
  | zero => exact .cut x s
  | succ n ih =>
    cases x with
    | ret a => exact .cut _ s
    | call op k => exact .call e (he op s) (ih _ _)

/-! ## Triples -/

variable (dev ok I)

def Triple (P : σ → Prop) (x : Proc S α) (Q : α → σ → Prop) : Prop := ∀ s, P s → Wp dev ok I x Q s

variable {dev ok I}

namespace Triple

variable {P P' : σ → Prop} {Q Q' : α → σ → Prop}

theorem ret {a : α} (h : ∀ s, P s → Q a s) : Triple dev ok I P (pure a) Q := h

variable {x : Proc S α}

theorem pre (h : Triple dev ok I P x Q) (hp : ∀ s, P' s → P s) : Triple dev ok I P' x Q :=
  fun s hs => h s (hp s hs)

theorem post (h : Triple dev ok I P x Q) (hq : ∀ a s, Q a s → Q' a s) : Triple dev ok I P x Q' :=
  fun s hs => (h s hs).conseq hq

theorem bind {f : α → Proc S β} {R : β → σ → Prop} (hx : Triple dev ok I P x Q)
    (hf : ∀ a, Triple dev ok I (Q a) (f a) R) : Triple dev ok I P (x >>= f) R :=
  fun s hs => ((hx s hs).conseq fun a s' h => hf a s' h).bind

theorem and {I' : σ → Prop} (h : Triple dev ok I P x Q) (h' : Triple dev ok I' P' x Q') :
    Triple dev ok I (fun s => P s ∧ P' s) x fun a s => Q a s ∧ Q' a s :=
  fun s hs => (h s hs.1).and (h' s hs.2)

theorem under {ok' : S.Op → σ → ε → Prop} (h : Triple dev ok I P x Q)
    (hok : ∀ op s e, ok' op s e → ok op s e) : Triple dev ok' I P x Q :=
  fun s hs => (h s hs).under hok

/-- The rule of a call. -/
theorem op {o : S.Op} {Q : S.Ans o → σ → Prop}
    (h : ∀ s e, P s → ok o s e → I (dev o s e).1 ∧ Q (dev o s e).2 (dev o s e).1) :
    Triple dev ok I P (Proc.op o) Q :=
  fun s hs e he => h s e hs he

theorem ite {c : Prop} [Decidable c] {x y : Proc S α} (hx : c → Triple dev ok I P x Q)
    (hy : ¬c → Triple dev ok I P y Q) : Triple dev ok I P (if c then x else y) Q := by
  split
  · exact hx ‹_›
  · exact hy ‹_›

/-- A fact of the precondition that does not depend on the state. -/
theorem assume {p : Prop} (h : p → Triple dev ok I P x Q) :
    Triple dev ok I (fun s => p ∧ P s) x Q :=
  fun s hs => h hs.1 s hs.2

end Triple

/-! ## Footprints -/

/-- Every call that the program can make is in `p`. -/
def Uses (p : S.Op → Prop) : Proc S α → Prop
  | .ret _ => True
  | .call op k => p op ∧ ∀ a, Uses p (k a)

theorem Uses.bind {p : S.Op → Prop} {f : α → Proc S β} (hx : Uses p x)
    (hf : ∀ a, Uses p (f a)) : Uses p (x >>= f) := by
  induction x with
  | ret a => exact hf a
  | call op k ih => exact ⟨hx.1, fun a => ih a (hx.2 a)⟩

theorem Uses.ite {p : S.Op → Prop} {c : Prop} [Decidable c] {x y : Proc S α} (hx : Uses p x)
    (hy : Uses p y) : Uses p (if c then x else y) := by
  split
  · exact hx
  · exact hy

theorem Uses.mono {p q : S.Op → Prop} (hx : Uses p x) (h : ∀ op, p op → q op) : Uses q x := by
  induction x with
  | ret a => trivial
  | call op k ih => exact ⟨h op hx.1, fun a => ih a (hx.2 a)⟩

theorem Uses.all (x : Proc S α) : Uses (fun _ => True) x := by
  induction x with
  | ret a => trivial
  | call op k ih => exact ⟨trivial, ih⟩

/-- **The frame rule**: a program keeps what each of its calls keeps. -/
theorem Uses.triple {p : S.Op → Prop} {J : σ → Prop} (hx : Uses p x)
    (hI : ∀ s, J s → I s) (hp : ∀ op s e, p op → ok op s e → J s → J (dev op s e).1) :
    Triple dev ok I J x fun _ => J := by
  induction x with
  | ret a => exact fun s hs => hs
  | call op k ih =>
    intro s hs e he
    have hJ := hp op s e hx.1 he hs
    exact ⟨hI _ hJ, ih _ (hx.2 _) _ hJ⟩

end

/-! ## Lives -/

section

variable {S : Sig} {σ ε α J : Type}

/-- The states that lives reach: each runs one of the programs `prog` on what the one before left, and
is cut short anywhere or runs to its end. -/
inductive Lives (dev : Device S σ ε) (ok : S.Op → σ → ε → Prop) (init : σ → Prop) (prog : J → Proc S α) :
    σ → Prop
  | init {s : σ} : init s → Lives dev ok init prog s
  | life {s s' : σ} {r : Option α} (j : J) : Lives dev ok init prog s → Ran dev ok (prog j) s r s' →
      Lives dev ok init prog s'

/-- **The invariant rule**: what every program keeps call by call holds at every moment. -/
theorem Lives.inv {dev : Device S σ ε} {ok : S.Op → σ → ε → Prop} {init : σ → Prop}
    {prog : J → Proc S α} {I : σ → Prop} (h0 : ∀ s, init s → I s)
    (hp : ∀ j, Triple dev ok I I (prog j) fun _ _ => True) {s : σ} (h : Lives dev ok init prog s) :
    I s := by
  induction h with
  | init hi => exact h0 _ hi
  | life j _ hr ih => exact ((hp j _ ih).ran ih hr).1

end

end Crash
