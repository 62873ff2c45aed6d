import Mathlib.Logic.Basic

/-!
# Calls that a failed read can cut

A call over a state that reads from a store on its way. A failed read ends the
call and leaves the state behind that the call had reached; any other failure is
only reported. `Follows` says that the call is the plain one as long as every read
succeeds.
-/
namespace Lib

inductive Interruptible (E C A : Type)
  | done (a : A) (c : C)
  | threw (e : E)
  | readFailed (e : E) (c : C)

namespace Interruptible

variable {E C A B X : Type}

def bind (x : Interruptible E C A) (f : A → C → Interruptible E C B) : Interruptible E C B :=
  match x with
  | .done a c => f a c
  | .threw e => .threw e
  | .readFailed e c => .readFailed e c

/-- Goes on with what a computation gives that reads nothing. -/
def given (x : Except E A) (f : A → Interruptible E C B) : Interruptible E C B :=
  match x with
  | .ok a => f a
  | .error e => .threw e

/-- A change of the state that reads nothing. -/
def step : Except E C → Interruptible E C Unit
  | .ok c => .done () c
  | .error e => .threw e

/-- A change of the state that reads nothing and answers. -/
def stepWith : Except E (A × C) → Interruptible E C A
  | .ok (a, c) => .done a c
  | .error e => .threw e

/-- The same call over another form of the state. -/
def onto {D : Type} (x : Interruptible E C A) (f : A → B) (h : C → D) : Interruptible E D B :=
  match x with
  | .done a c => .done (f a) (h c)
  | .threw e => .threw e
  | .readFailed e c => .readFailed e (h c)

/-- Goes through a list, with an accumulator. -/
def fold (f : B → X → C → Interruptible E C B) : B → List X → C → Interruptible E C B
  | acc, [], c => .done acc c
  | acc, x :: rest, c => (f acc x c).bind fun acc c => fold f acc rest c

@[simp] theorem done_bind (a : A) (c : C) (f : A → C → Interruptible E C B) :
    (done a c).bind f = f a c := rfl

@[simp] theorem readFailed_bind (e : E) (c : C) (f : A → C → Interruptible E C B) :
    (readFailed e c : Interruptible E C A).bind f = readFailed e c := rfl

theorem bind_eq_readFailed {f : A → C → Interruptible E C B} (cut : x.bind f = readFailed e c) :
    x = readFailed e c ∨ ∃ a c', x = done a c' ∧ f a c' = readFailed e c := by
  cases x with
  | done a c' => exact Or.inr ⟨a, c', rfl, cut⟩
  | threw e' => cases cut
  | readFailed e' c' => exact Or.inl (by cases cut; rfl)

theorem bind_eq_done {f : A → C → Interruptible E C B} (ended : x.bind f = done b c) :
    ∃ a c', x = done a c' ∧ f a c' = done b c := by
  cases x with
  | done a c' => exact ⟨a, c', rfl, ended⟩
  | threw e | readFailed e c' => cases ended

theorem given_eq_readFailed {f : A → Interruptible E C B} (cut : given x f = readFailed e c) :
    ∃ a, x = .ok a ∧ f a = readFailed e c := by
  cases x with
  | ok a => exact ⟨a, rfl, cut⟩
  | error e' => cases cut

theorem stepWith_ne_readFailed {x : Except E (A × C)} : stepWith x ≠ readFailed e c := by
  rcases x with e' | ⟨a, c'⟩ <;> simp [stepWith]

theorem step_ne_readFailed {e : E} {c : C} : step x ≠ readFailed e c := by
  cases x <;> simp [step]

/-- What holds of the state that the call leaves behind, whether it ends or is cut. -/
def Leaves (P : C → Prop) : Interruptible E C A → Prop
  | .done _ c | .readFailed _ c => P c
  | .threw _ => True

theorem Leaves.of_done {P : C → Prop} {x : Interruptible E C A} (left : x.Leaves P)
    (ended : x = .done a c) : P c := by
  subst ended
  exact left

theorem Leaves.of_cut {P : C → Prop} {x : Interruptible E C A} (left : x.Leaves P)
    (cut : x = .readFailed e c) : P c := by
  subst cut
  exact left

theorem Leaves.mono {P Q : C → Prop} {x : Interruptible E C A} (left : x.Leaves P)
    (weaker : ∀ c, P c → Q c) : x.Leaves Q := by
  cases x with
  | done _ c | readFailed _ c => exact weaker c left
  | threw _ => trivial

theorem Leaves.bind {P : C → Prop} {x : Interruptible E C A} {f : A → C → Interruptible E C B}
    (left : x.Leaves P) (next : ∀ a c, P c → (f a c).Leaves P) : (x.bind f).Leaves P := by
  cases x with
  | done a c => exact next a c left
  | readFailed _ c => exact left
  | threw _ => trivial

theorem Leaves.given {P : C → Prop} {x : Except E A} {f : A → Interruptible E C B}
    (next : ∀ a, (f a).Leaves P) : (Interruptible.given x f).Leaves P := by
  cases x with
  | ok a => exact next a
  | error _ => trivial

/-- What every step of a fold keeps, the fold keeps. -/
theorem Leaves.fold {f : B → X → C → Interruptible E C B} {P : C → Prop} (items)
    (each : ∀ acc x c, x ∈ items → P c → (f acc x c).Leaves P) (acc : B) (c : C) (init : P c) :
    (Interruptible.fold f acc items c).Leaves P := by
  induction items generalizing acc c with
  | nil => exact init
  | cons x rest ih =>
    apply (each acc x c (.head rest) init).bind
    exact ih fun acc y c mem => each acc y c (.tail x mem)

variable {R Q : Type}

/-- The call does what the plain one does, unless a read fails; `pack` is what the plain call
makes of an answer and a state. Where no read is to fail, only the plain call's own failed reads
cut it. -/
def Follows (quiet : Prop) (pack : A → C → R) (x : Interruptible E C A) (plain : Except E R) :
    Prop :=
  match x with
  | .done a c => plain = .ok (pack a c)
  | .threw e => plain = .error e
  | .readFailed e _ => quiet → plain = .error e

variable {quiet : Prop} {pack : A → C → R} {pack' : B → C → Q}

theorem Follows.bind {g : R → Except E Q} (first : Follows quiet pack x plain)
    (next : ∀ a c, plain = .ok (pack a c) → Follows quiet pack' (f a c) (g (pack a c))) :
    Follows quiet pack' (x.bind f) (plain >>= g) := by
  cases x with
  | done a c =>
    have ended : plain = .ok (pack a c) := first
    have later := next a c ended
    rw [ended]
    exact later
  | threw e =>
    have failed : plain = .error e := first
    rw [failed]
    rfl
  | readFailed e c =>
    intro all
    have failed : plain = .error e := first all
    rw [failed]
    rfl

theorem Follows.step (x : Except E C) : Follows quiet (fun _ c => c) (Interruptible.step x) x := by
  cases x <;> rfl

theorem onto_eq_readFailed {f : A → B} {h : C → D} {e : E} (cut : x.onto f h = readFailed e d) :
    ∃ c, x = readFailed e c ∧ h c = d := by
  cases x with
  | done a c | threw e' => cases cut
  | readFailed e' c =>
    cases cut
    exact ⟨c, rfl, rfl⟩

theorem Follows.fold {g : Q → X → Except E Q} (items)
    (each : ∀ acc x c, Follows quiet pack' (f acc x c) (g (pack' acc c) x)) (acc : B) (c : C) :
    Follows quiet pack' (Interruptible.fold f acc items c) (items.foldlM g (pack' acc c)) := by
  induction items generalizing acc c with
  | nil => rfl
  | cons x rest ih =>
    apply (each acc x c).bind
    intro acc' c' _
    exact ih acc' c'

end Interruptible

end Lib
