/-!
# Programs that take turns

A program over a shared state is cut into turns: between two of its turns other
programs may change the state. `Turns` is what is left of a program, a value and
a state at the end, or a pause that says what it waits for and how it goes on
from whatever state it then finds. `Flow` is a program before its first turn;
flows are composed like functions with state.

`Flow.run` is the program with nobody in between. It takes composition to
composition (`run_bind`), so what is proved of sequential runs is ordinary
reasoning about state.
-/

namespace Purse

/-- What is left of a program: `ω` says what a pause waits for. -/
inductive Turns (ω σ α : Type) where
  | done (value : α) (state : σ)
  | pause (wait : ω) (state : σ) (resume : σ → Turns ω σ α)

namespace Turns

variable {ω σ α β γ : Type}

/-- Goes on with another program once this one is done. -/
def bind : Turns ω σ α → (α → σ → Turns ω σ β) → Turns ω σ β
  | done a s, f => f a s
  | pause w s resume, f => pause w s fun s' => (resume s').bind f

/-- Goes through all pauses at once. -/
def run : Turns ω σ α → α × σ
  | done a s => (a, s)
  | pause _ s resume => (resume s).run

/-- How many pauses are left if nobody comes in between. -/
def pauses : Turns ω σ α → Nat
  | done _ _ => 0
  | pause _ s resume => (resume s).pauses + 1

/-- Goes on as far as the turn lasts. A turn has so many units; `pass` says what is
left of them after a pause, or that the turn ends there. -/
def proceed (pass : ω → σ → Nat → Option Nat) : Turns ω σ α → Nat → Turns ω σ α
  | done a s, _ => done a s
  | pause w s resume, units =>
    match pass w s units with
    | some units => (resume s).proceed pass units
    | none => pause w s resume

theorem bind_done (t : Turns ω σ α) : t.bind done = t := by
  induction t with
  | done a s => rfl
  | pause w s resume ih => simp only [bind, ih]

theorem bind_assoc (t : Turns ω σ α) (f : α → σ → Turns ω σ β) (g : β → σ → Turns ω σ γ) :
    (t.bind f).bind g = t.bind fun a s => (f a s).bind g := by
  induction t with
  | done a s => rfl
  | pause w s resume ih => simp only [bind, ih]

theorem run_bind (t : Turns ω σ α) (f : α → σ → Turns ω σ β) :
    (t.bind f).run = (f t.run.1 t.run.2).run := by
  induction t with
  | done a s => rfl
  | pause w s resume ih => simp only [bind, run, ih]

end Turns

/-- A program that takes turns over a shared state. -/
def Flow (ω σ α : Type) : Type :=
  σ → Turns ω σ α

namespace Flow

variable {ω σ α β : Type}

instance : Monad (Flow ω σ) where
  pure a := fun s => .done a s
  bind x f := fun s => (x s).bind f

instance : MonadStateOf σ (Flow ω σ) where
  get := fun s => .done s s
  set s := fun _ => .done ⟨⟩ s
  modifyGet f := fun s => .done (f s).1 (f s).2

/-- Ends the turn; the next one starts when the wait is over. -/
def pause (wait : ω) : Flow ω σ Unit :=
  fun s => .pause wait s fun s' => .done () s'

/-- The program with nobody in between. -/
def run (x : Flow ω σ α) (s : σ) : α × σ :=
  (x s).run

instance : LawfulMonad (Flow ω σ) :=
  LawfulMonad.mk' _
    (fun x => funext fun s => Turns.bind_done (x s))
    (fun _ _ => rfl)
    (fun x f g => funext fun s => Turns.bind_assoc (x s) f g)

theorem run_bind (x : Flow ω σ α) (f : α → Flow ω σ β) (s : σ) :
    (x >>= f).run s = (f (x.run s).1).run (x.run s).2 :=
  Turns.run_bind (x s) f

theorem run_pause (wait : ω) (s : σ) : (pause wait : Flow ω σ Unit).run s = ((), s) := rfl

end Flow

end Purse
