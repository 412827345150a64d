import ChronoFS.Lib.Run
import Mathlib.Logic.Function.Basic

/-!
# Programs that run interleaved on a shared state

A `Prog` is a sequence of atomic actions on a shared state, each of which gives an answer on which
the rest may depend. In a `System` any number of processes make calls; a call is a program, and the
actions of the calls in progress interleave in any way.

`Logic` is a way to reason about one program at a time. Each call in progress has an account of what
it holds; `pre` and `post` say what an action asks of the account of the caller and makes of it, and
`inv` relates the shared state to all accounts. An action leaves the accounts of the other calls
alone, so a program that is `Safe` with its account is so whatever the others do
(`Logic.run_inv`).
-/

open Function

/-- The actions on a shared state, and what they answer. -/
structure Sig where
  /-- The actions. -/
  Act : Type
  /-- The answers to an action. -/
  Resp : Act → Type

/-- A program that returns an `α`. -/
inductive Prog (S : Sig) (α : Type) : Type
  /-- It returns. -/
  | ret (a : α) : Prog S α
  /-- It takes an action, and goes on with the answer. -/
  | act (a : S.Act) (k : S.Resp a → Prog S α) : Prog S α

namespace Prog

variable {S : Sig} {α β : Type}

/-- One program after another. -/
def bind : Prog S α → (α → Prog S β) → Prog S β
  | .ret a, f => f a
  | .act a k, f => .act a fun r => (k r).bind f

instance : Monad (Prog S) where
  pure := .ret
  bind := bind

/-- The program of one action. -/
def call (a : S.Act) : Prog S (S.Resp a) := .act a .ret

end Prog

/-- Processes `P` that make calls `C`, which return a `ρ`, on a shared state `σ`. -/
structure System (S : Sig) (σ P C ρ : Type) where
  /-- The program of a call. -/
  code : C → Prog S ρ
  /-- What an action of a process can do, and answer. -/
  sem : P → (a : S.Act) → σ → S.Resp a → σ → Prop
  /-- The process can make a call. -/
  ready : σ → P → Prop

/-- The shared state and the calls in progress. The last two fields are history variables. -/
structure Config (S : Sig) (σ P ρ : Type) where
  /-- The shared state. -/
  shared : σ
  /-- What is left of the call of a process. -/
  prog : P → Option (Prog S ρ)
  /-- The shared state when the last call of the process began. -/
  start : P → σ
  /-- The steps of the last call of the process: an action, the shared state before it and the one
  after it. -/
  steps : P → List (σ × S.Act × σ)

/-- A step of a process. -/
inductive Turn (P C ρ : Type)
  /-- It makes a call. -/
  | call (p : P) (c : C)
  /-- Its call takes an action. -/
  | act (p : P)
  /-- Its call returns. -/
  | ret (p : P) (r : ρ)

namespace System

variable {S : Sig} {σ P C ρ : Type} [DecidableEq P]

/-- The steps of a system. -/
inductive Step (Y : System S σ P C ρ) : Config S σ P ρ → Turn P C ρ → Config S σ P ρ → Prop
  | call {c : Config S σ P ρ} {p : P} {q : C} (hp : c.prog p = none) (h : Y.ready c.shared p) :
      Step Y c (.call p q) { c with
        prog := update c.prog p (some (Y.code q))
        start := update c.start p c.shared
        steps := update c.steps p [] }
  | act {c : Config S σ P ρ} {p : P} {a : S.Act} {k : S.Resp a → Prog S ρ} {r : S.Resp a} {s' : σ}
      (hp : c.prog p = some (.act a k)) (h : Y.sem p a c.shared r s') :
      Step Y c (.act p) { c with
        shared := s'
        prog := update c.prog p (some (k r))
        steps := update c.steps p (c.steps p ++ [(c.shared, a, s')]) }
  | ret {c : Config S σ P ρ} {p : P} {r : ρ} (hp : c.prog p = some (.ret r)) :
      Step Y c (.ret p r) { c with prog := update c.prog p none }

end System

/-- How to account for what the calls in progress hold. -/
structure Logic {S : Sig} {σ P C ρ : Type} [DecidableEq P] (Y : System S σ P C ρ) (Own : Type) where
  /-- What holds of the shared state and the accounts of the calls in progress. -/
  inv : σ → (P → Option Own) → Prop
  /-- What an action needs. -/
  pre : Own → S.Act → Prop
  /-- What an action makes of the account. -/
  post : Own → (a : S.Act) → S.Resp a → Own → Prop
  /-- The account with which a call begins. -/
  fresh : σ → P → Own
  /-- The account with which a call that began so may return. -/
  done : Own → ρ → Own → Prop
  /-- What the account says about the steps of a call that began in a state. -/
  told : P → σ → List (σ × S.Act × σ) → Own → Prop
  /-- A call begins. -/
  enter : ∀ {s own p}, inv s own → own p = none → Y.ready s p →
    inv s (update own p (some (fresh s p))) ∧ told p s [] (fresh s p)
  /-- An action is taken. -/
  sound : ∀ {s own p o a r s'}, inv s own → own p = some o → pre o a → Y.sem p a s r s' →
    ∃ o', post o a r o' ∧ inv s' (update own p (some o')) ∧
      ∀ s₀ l, told p s₀ l o → told p s₀ (l ++ [(s, a, s')]) o'
  /-- A call returns. -/
  leave : ∀ {s own p o₀ r o}, inv s own → own p = some o → done o₀ r o →
    inv s (update own p none)

namespace Logic

variable {S : Sig} {σ P C ρ α β Own : Type} [DecidableEq P] {Y : System S σ P C ρ}
  (L : Logic Y Own)

/-- The program does what `pre` asks for, and ends with `Q`. -/
def Safe (Q : α → Own → Prop) : Prog S α → Own → Prop
  | .ret a, o => Q a o
  | .act a k, o => L.pre o a ∧ ∀ r o', L.post o a r o' → Safe Q (k r) o'

variable {L} {Q Q' : α → Own → Prop} {R : β → Own → Prop} {m : Prog S α} {f : α → Prog S β} {o : Own}

theorem safe_bind : L.Safe R (m.bind f) o ↔ L.Safe (fun a o' => L.Safe R (f a) o') m o := by
  induction m generalizing o with
  | ret a => exact Iff.rfl
  | act a k ih =>
    constructor
    · exact fun h => ⟨h.1, fun r o' hp => (ih r).mp (h.2 r o' hp)⟩
    · exact fun h => ⟨h.1, fun r o' hp => (ih r).mpr (h.2 r o' hp)⟩

/-- An action, then the rest of the program. -/
theorem safe_act {a : S.Act} {f : S.Resp a → Prog S β} (hpre : L.pre o a)
    (h : ∀ r o', L.post o a r o' → L.Safe R (f r) o') : L.Safe R ((Prog.call a).bind f) o :=
  ⟨hpre, h⟩

/-- The configuration is accounted for: the invariant holds with an account for each call in
progress, with which the rest of the call is safe. -/
def Accounted (L : Logic Y Own) (c : Config S σ P ρ) : Prop :=
  ∃ own : P → Option Own, L.inv c.shared own ∧ ∀ p, match c.prog p with
    | none => own p = none
    | some m => ∃ o, own p = some o ∧ L.told p (c.start p) (c.steps p) o ∧
        L.Safe (L.done (L.fresh (c.start p) p)) m o

/-- A step of a system whose calls are safe keeps it accounted for. -/
theorem Accounted.step {c c' : Config S σ P ρ} {t : Turn P C ρ}
    (hsafe : ∀ q s p, Y.ready s p → L.Safe (L.done (L.fresh s p)) (Y.code q) (L.fresh s p))
    (h : L.Accounted c) (hstep : Y.Step c t c') : L.Accounted c' := by
  obtain ⟨own, hinv, hown⟩ := h
  cases hstep with
  | @call p q hp hready =>
    have hp' := hown p
    rw [hp] at hp'
    obtain ⟨hinv', htold⟩ := L.enter hinv hp' hready
    refine ⟨_, hinv', fun p' => ?_⟩
    by_cases he : p' = p
    · subst he
      simp only [update_self]
      exact ⟨_, rfl, htold, hsafe q _ _ hready⟩
    · simp only [update_of_ne he]
      exact hown p'
  | @act p a k r s' hp hsem =>
    have hp' := hown p
    rw [hp] at hp'
    obtain ⟨o, ho, htold, hpre, hk⟩ := hp'
    obtain ⟨o', hpost, hinv', htold'⟩ := L.sound hinv ho hpre hsem
    refine ⟨_, hinv', fun p' => ?_⟩
    by_cases he : p' = p
    · subst he
      simp only [update_self]
      exact ⟨o', rfl, htold' _ _ htold, hk r o' hpost⟩
    · simp only [update_of_ne he]
      exact hown p'
  | @ret p r hp =>
    have hp' := hown p
    rw [hp] at hp'
    obtain ⟨o, ho, -, hdone⟩ := hp'
    refine ⟨_, L.leave hinv ho hdone, fun p' => ?_⟩
    by_cases he : p' = p
    · subst he
      simp only [update_self]
    · simp only [update_of_ne he]
      exact hown p'

/-- Whatever way safe calls interleave, they stay accounted for. -/
theorem run_inv {c c' : Config S σ P ρ} {ts : List (Turn P C ρ)}
    (hsafe : ∀ q s p, Y.ready s p → L.Safe (L.done (L.fresh s p)) (Y.code q) (L.fresh s p))
    (h : L.Accounted c) (hrun : Run Y.Step c ts c') : L.Accounted c' :=
  hrun.invariant (fun _ _ _ hc hstep => hc.step hsafe hstep) h

end Logic
