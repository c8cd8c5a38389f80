/-
Memo tables, and computations that fill them.

A `Memo` keeps answers already given, newest first; `memo` answers from it, or runs and keeps the answer. A table that only
keeps values of a function `f` (`Memo.Holds f`) answers with `f` and goes on doing so (`memo_eq`, `Memo.Holds.memo`).

`Answers Inv m a`: from any state with the invariant, the stateful computation `m` answers `a` and keeps the invariant. The
rules follow the syntax of the computation (`Answers.pure`, `Answers.bind`); a run of computations that keep the
invariant keeps it (`keeps_foldl`).
-/
import Mathlib.Tactic

/-- answers already given -/
abbrev Memo (κ β : Type*) := List (κ × β)

namespace Memo

variable {κ β : Type*}

/-- every answer kept is the value of `f` -/
def Holds (f : κ → β) (m : Memo κ β) : Prop := ∀ e ∈ m, e.2 = f e.1

/-- answer from the table, or run and keep the answer -/
def memo [DecidableEq κ] (m : Memo κ β) (key : κ) (run : β) : β × Memo κ β :=
  match m.find? fun e => e.1 = key with
  | some hit => (hit.2, m)
  | none => (run, (key, run) :: m)

theorem memo_eq [DecidableEq κ] {f : κ → β} {m : Memo κ β} (h : Holds f m) (key : κ) : (memo m key (f key)).1 = f key := by
  unfold memo
  cases hfind : m.find? fun e => e.1 = key with
  | none => rfl
  | some hit =>
    have hkey : hit.1 = key := by simpa using List.find?_some hfind
    rw [← hkey]
    exact h hit (List.mem_of_find?_eq_some hfind)

theorem Holds.memo [DecidableEq κ] {f : κ → β} {m : Memo κ β} (h : Holds f m) (key : κ) : Holds f (memo m key (f key)).2 := by
  unfold Memo.memo
  cases m.find? fun e => e.1 = key with
  | none =>
    intro e he
    rcases List.mem_cons.1 he with rfl | he
    · rfl
    · exact h e he
  | some hit => exact h

end Memo

section

universe u

variable {σ α β : Type u}

/-- from any state with the invariant, the answer is `a` and the invariant is kept -/
def Answers (Inv : σ → Prop) (m : StateM σ α) (a : α) : Prop := ∀ s, Inv s → (m.run s).1 = a ∧ Inv (m.run s).2

variable {Inv : σ → Prop}

theorem Answers.pure (a : α) : Answers Inv (Pure.pure a) a := fun _ hs => ⟨rfl, hs⟩

theorem Answers.bind {m : StateM σ α} {f : α → StateM σ β} {a : α} {b : β} (hm : Answers Inv m a)
    (hf : Answers Inv (f a) b) : Answers Inv (m >>= f) b := by
  intro s hs
  obtain ⟨ha, hinv⟩ := hm s hs
  obtain ⟨hb, hinv'⟩ := hf (m.run s).2 hinv
  have hrun : (m >>= f).run s = (f (m.run s).1).run (m.run s).2 := rfl
  rw [hrun, ha]
  exact ⟨hb, hinv'⟩

/-- computations that keep the invariant, one after the other -/
theorem keeps_foldl (ms : List (σ → σ)) (hms : ∀ m ∈ ms, ∀ s, Inv s → Inv (m s)) {s : σ} (hs : Inv s) :
    Inv (ms.foldl (fun s m => m s) s) := by
  induction ms generalizing s with
  | nil => exact hs
  | cons m ms ih =>
    have hm : Inv (m s) := hms m List.mem_cons_self s hs
    exact ih (fun m' hm' => hms m' (.tail _ hm')) hm

end
