/-
Machines: a state, a set of actions, a total step (an action that is not enabled leaves the state as it is), and what
holds along every run.

- `run`: the state after a list of actions;
- `Guarded ok`: every action of the run is taken in a state in which `ok` allows it. The guard is how an assumption on
  the schedule or on the environment is stated: it speaks about the state before the step and the action, never about
  the outcome;
- `run_inv`: what one allowed step preserves, every guarded run preserves;
- `guarded_iff`: when a step keeps a property exactly where the guard allows it, the guarded runs are those that have it
  throughout;
- `run_inv_acc`: the same for an invariant that speaks about the actions so far too;
- `Inevitable ok Q`: whichever allowed steps are taken, `Q` is reached; `inevitable_of_measure`: it is, when an allowed
  step lowers a measure and there is one until `Q` holds.
-/
import Mathlib.Tactic

namespace Machine

variable {σ α : Type*}

/-- the state after the actions `as`, taken in order -/
def run (step : σ → α → σ) (s : σ) (as : List α) : σ := as.foldl step s

/-- every action of the run is taken in a state in which `ok` allows it -/
def Guarded (step : σ → α → σ) (ok : σ → α → Prop) : σ → List α → Prop
  | _, [] => True
  | s, a :: as => ok s a ∧ Guarded step ok (step s a) as

instance Guarded.decidable (step : σ → α → σ) (ok : σ → α → Prop) [∀ s a, Decidable (ok s a)] :
    ∀ (s : σ) (as : List α), Decidable (Guarded step ok s as)
  | _, [] => inferInstanceAs (Decidable True)
  | s, a :: as =>
    have := Guarded.decidable step ok (step s a) as
    inferInstanceAs (Decidable (ok s a ∧ Guarded step ok (step s a) as))

/-- on every run of allowed steps that goes on as long as it can, `Q` is reached -/
inductive Inevitable (step : σ → α → σ) (ok : σ → α → Prop) (Q : σ → Prop) : σ → Prop where
  | now {s : σ} (h : Q s) : Inevitable step ok Q s
  | later {s : σ} (hex : ∃ a, ok s a) (h : ∀ a, ok s a → Inevitable step ok Q (step s a)) : Inevitable step ok Q s

section

variable {step : σ → α → σ} {ok : σ → α → Prop}

@[simp] theorem run_nil (s : σ) : run step s [] = s := rfl

@[simp] theorem run_cons (s : σ) (a : α) (as : List α) : run step s (a :: as) = run step (step s a) as := rfl

theorem run_append (s : σ) (as bs : List α) : run step s (as ++ bs) = run step (run step s as) bs := by
  simp [run, List.foldl_append]

theorem run_snoc (s : σ) (as : List α) (a : α) : run step s (as ++ [a]) = step (run step s as) a := by
  rw [run_append]; rfl

@[simp] theorem guarded_nil (s : σ) : Guarded step ok s [] := trivial

@[simp] theorem guarded_cons (s : σ) (a : α) (as : List α) :
    Guarded step ok s (a :: as) ↔ ok s a ∧ Guarded step ok (step s a) as := Iff.rfl

theorem guarded_append (s : σ) (as bs : List α) :
    Guarded step ok s (as ++ bs) ↔ Guarded step ok s as ∧ Guarded step ok (run step s as) bs := by
  induction as generalizing s with
  | nil => simp
  | cons a as ih => simp only [List.cons_append, guarded_cons, run_cons, ih, and_assoc]

theorem guarded_snoc (s : σ) (as : List α) (a : α) :
    Guarded step ok s (as ++ [a]) ↔ Guarded step ok s as ∧ ok (run step s as) a := by
  rw [guarded_append]; simp

/-- each action of a guarded run is allowed where it is taken -/
theorem Guarded.allowed {s : σ} {as : List α} (h : Guarded step ok s as) {n : ℕ} {a : α} (ha : as[n]? = some a) :
    ok (run step s (as.take n)) a := by
  induction as generalizing s n with
  | nil => simp at ha
  | cons b as ih =>
    cases n with
    | zero =>
      cases ha
      exact h.1
    | succ n => exact ih h.2 ha

theorem Guarded.take {s : σ} {as : List α} (h : Guarded step ok s as) (n : ℕ) : Guarded step ok s (as.take n) := by
  rw [← List.take_append_drop n as, guarded_append] at h
  exact h.1

/-- **Invariants.** What every allowed step preserves holds at the end of every guarded run (hence in every state the
run passes through, each of which ends a shorter guarded run). -/
theorem run_inv {Inv : σ → Prop} (hstep : ∀ s a, Inv s → ok s a → Inv (step s a)) {s : σ} {as : List α}
    (hs : Inv s) (h : Guarded step ok s as) : Inv (run step s as) := by
  induction as generalizing s with
  | nil => exact hs
  | cons a as ih => exact ih (hstep s a hs h.1) h.2

/-- **Invariants with a history.** What every allowed step preserves together with what is made of the actions so far. -/
theorem run_inv_acc {β : Type*} (acc : β → α → β) {Inv : σ → β → Prop}
    (hstep : ∀ s b a, Inv s b → ok s a → Inv (step s a) (acc b a)) {s : σ} {b : β} {as : List α} (hs : Inv s b)
    (h : Guarded step ok s as) : Inv (run step s as) (as.foldl acc b) := by
  induction as generalizing s b with
  | nil => exact hs
  | cons a as ih => exact ih (hstep s b a hs h.1) h.2

/-- **The exact guard.** Where, in a state that is still good, a step keeps it good exactly when it is allowed, the
guarded runs are those that are good in every state. -/
theorem guarded_iff {Inv P : σ → Prop} (hinv : ∀ s a, Inv s → Inv (step s a))
    (hexact : ∀ s a, Inv s → P s → (P (step s a) ↔ ok s a)) {s : σ} (hs : Inv s) (hp : P s) (as : List α) :
    Guarded step ok s as ↔ ∀ n, P (run step s (as.take n)) := by
  induction as generalizing s with
  | nil => simpa using hp
  | cons a as ih =>
    constructor
    · intro h n
      cases n with
      | zero => exact hp
      | succ n => exact (ih (hinv s a hs) ((hexact s a hs hp).mpr h.1)).mp h.2 n
    · intro h
      have hnext : P (step s a) := by simpa using h 1
      exact ⟨(hexact s a hs hp).mp hnext, (ih (hinv s a hs) hnext).mpr fun n => h (n + 1)⟩

/-- what every step preserves holds at the end of every run -/
theorem run_inv_all (P : σ → Prop) (hstep : ∀ s a, P s → P (step s a)) {s : σ} {as : List α} (hs : P s) :
    P (run step s as) := by
  induction as generalizing s with
  | nil => exact hs
  | cons a as ih => exact ih (hstep s a hs)

/-- **Progress.** Allowed steps keep the invariant and lower the measure, and until `Q` holds there is one. -/
theorem inevitable_of_measure {Q : σ → Prop} (Inv : σ → Prop) (work : σ → ℕ) (hinv : ∀ s a, Inv s → ok s a → Inv (step s a))
    (hwork : ∀ s a, Inv s → ok s a → work (step s a) < work s) (hex : ∀ s, Inv s → Q s ∨ ∃ a, ok s a) {s : σ}
    (hs : Inv s) : Inevitable step ok Q s := by
  induction hn : work s using Nat.strong_induction_on generalizing s with
  | _ n ih =>
    subst hn
    rcases hex s hs with hq | he
    · exact .now hq
    · exact .later he fun a ha => ih _ (hwork s a hs ha) (hinv s a hs ha) rfl

theorem Inevitable.imp {Q Q' : σ → Prop} {s : σ} (h : Inevitable step ok Q s) (himp : ∀ s, Q s → Q' s) :
    Inevitable step ok Q' s := by
  induction h with
  | now hq => exact .now (himp _ hq)
  | later hex _ ih => exact .later hex ih

end

end Machine
