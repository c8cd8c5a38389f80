/-
Global search and replace, and what a scanner says of it.

- `Finder`: what matches at a place of a list, and what the match means; a match takes something;
- `segments`: a list cut from left to right into matches and the elements between them (`cut_induction` is induction
  along the cut); a replacement puts something for each of them;
- `Scanner`: reads a list element by element from a state, may refuse one, and reports what it has seen. `run_flatMap`:
  where what is put for each segment is read as the segment was, the whole is read as it was.
-/
import Mathlib.Tactic

namespace Rewrite

open List

variable {α β S ω : Type*}

/-! ## Search -/

/-- what is taken at a place and what it means; the flag says that the place is the start of the whole list -/
structure Finder (α β : Type*) where
  find : Bool → List α → Option (List α × β)
  nonempty : ∀ {first text taken b}, find first text = some (taken, b) → taken ≠ []
  isPrefix : ∀ {first text taken b}, find first text = some (taken, b) → taken <+: text

inductive Segment (α β : Type*) where
  | char (c : α)
  | hit (taken : List α) (b : β)
  deriving DecidableEq

def Segment.source : Segment α β → List α
  | .char c => [c]
  | .hit taken _ => taken

namespace Finder

variable (F : Finder α β)

/-- the segments after the next `skip` elements -/
def segmentsFrom : Bool → ℕ → List α → List (Segment α β)
  | _, _, [] => []
  | _, skip + 1, _ :: t => segmentsFrom false skip t
  | first, 0, c :: t => match F.find first (c :: t) with
    | none => .char c :: segmentsFrom false 0 t
    | some (taken, b) => .hit taken b :: segmentsFrom false (taken.length - 1) t

def segments (text : List α) : List (Segment α β) := F.segmentsFrom true 0 text

variable {F} {first : Bool} {text taken t : List α} {b : β} {c : α}

theorem segmentsFrom_skip (first : Bool) (n : ℕ) (t : List α) :
    F.segmentsFrom first (n + 1) t = F.segmentsFrom false 0 (t.drop (n + 1)) := by
  induction t generalizing first n with
  | nil => rfl
  | cons c t ih =>
    cases n with
    | zero => rfl
    | succ n => exact ih false n

theorem segmentsFrom_char (h : F.find first (c :: t) = none) :
    F.segmentsFrom first 0 (c :: t) = .char c :: F.segmentsFrom false 0 t := by
  rw [segmentsFrom, h]

theorem segmentsFrom_hit (h : F.find first (taken ++ t) = some (taken, b)) :
    F.segmentsFrom first 0 (taken ++ t) = .hit taken b :: F.segmentsFrom false 0 t := by
  cases taken with
  | nil => exact absurd rfl (F.nonempty h)
  | cons c taken =>
    rw [cons_append] at h ⊢
    rw [segmentsFrom, h]
    dsimp only
    rw [length_cons, Nat.add_sub_cancel]
    cases taken with
    | nil => rfl
    | cons c' taken =>
      rw [length_cons, segmentsFrom_skip, drop_left' (by rw [length_cons])]

/-- induction along the cut -/
theorem cut_induction {P : Bool → List α → List (Segment α β) → Prop} (nil : ∀ first, P first [] [])
    (char : ∀ first c t, F.find first (c :: t) = none → P false t (F.segmentsFrom false 0 t) →
      P first (c :: t) (.char c :: F.segmentsFrom false 0 t))
    (hit : ∀ first taken b t, F.find first (taken ++ t) = some (taken, b) → P false t (F.segmentsFrom false 0 t) →
      P first (taken ++ t) (.hit taken b :: F.segmentsFrom false 0 t))
    (first : Bool) (text : List α) : P first text (F.segmentsFrom first 0 text) := by
  induction hn : text.length using Nat.strong_induction_on generalizing first text with
  | _ n ih =>
    subst hn
    cases text with
    | nil => exact nil first
    | cons c t =>
      cases hfind : F.find first (c :: t) with
      | none =>
        rw [segmentsFrom_char hfind]
        exact char first c t hfind (ih t.length (Nat.lt_succ_self _) false t rfl)
      | some r =>
        obtain ⟨taken, b⟩ := r
        obtain ⟨rest, hrest⟩ := F.isPrefix hfind
        have hpos : 0 < taken.length := length_pos_iff.2 (F.nonempty hfind)
        have hlen : (c :: t).length = taken.length + rest.length := by rw [← hrest, length_append]
        rw [← hrest] at hfind ⊢
        rw [segmentsFrom_hit hfind]
        exact hit first taken b rest hfind (ih rest.length (by omega) false rest rfl)

/-- the cut loses nothing -/
theorem flatMap_source (text : List α) : (F.segments text).flatMap Segment.source = text := by
  refine cut_induction (P := fun _ text segs => segs.flatMap Segment.source = text) (fun _ => rfl) ?_ ?_ true text
  · intro first c t _ ih
    rw [flatMap_cons, ih]
    rfl
  · intro first taken b t _ ih
    rw [flatMap_cons, ih]
    rfl

/-- a hit was found -/
theorem find_of_hit (h : Segment.hit taken b ∈ F.segments text) :
    ∃ first rest, F.find first (taken ++ rest) = some (taken, b) := by
  refine cut_induction
    (P := fun _ _ segs => .hit taken b ∈ segs → ∃ first rest, F.find first (taken ++ rest) = some (taken, b))
    (fun _ h => absurd h not_mem_nil) ?_ ?_ true text h
  · intro first c t _ ih hmem
    rcases mem_cons.1 hmem with heq | hmem
    · cases heq
    · exact ih hmem
  · intro first taken' b' t hfind ih hmem
    rcases mem_cons.1 hmem with heq | hmem
    · obtain ⟨rfl, rfl⟩ := Segment.hit.inj heq
      exact ⟨first, t, hfind⟩
    · exact ih hmem

/-- what is in a segment is in the list -/
theorem mem_of_segment {seg : Segment α β} (h : seg ∈ F.segments text) (hc : c ∈ seg.source) : c ∈ text := by
  rw [← flatMap_source (F := F) text]
  exact mem_flatMap.2 ⟨seg, h, hc⟩

end Finder

/-! ## Scanners -/

/-- the next state and what is reported, or nothing: the element is refused -/
structure Scanner (S α ω : Type*) where
  step : S → α → Option (S × List ω)

namespace Scanner

variable (M : Scanner S α ω)

def run : S → List α → Option (S × List ω)
  | s, [] => some (s, [])
  | s, c :: t => (M.step s c).bind fun r => (run r.1 t).map fun q => (q.1, r.2 ++ q.2)

variable {M} {s u : S} {a b : List α} {o : List ω} {c : α}

theorem run_cons : M.run s (c :: a) = some (u, o) ↔
    ∃ t o₁ o₂, M.step s c = some (t, o₁) ∧ M.run t a = some (u, o₂) ∧ o = o₁ ++ o₂ := by
  rw [run]
  constructor
  · intro h
    obtain ⟨⟨t, o₁⟩, hstep, h⟩ := Option.bind_eq_some_iff.1 h
    obtain ⟨⟨u', o₂⟩, hrun, heq⟩ := Option.map_eq_some_iff.1 h
    cases heq
    exact ⟨t, o₁, o₂, hstep, hrun, rfl⟩
  · intro h
    obtain ⟨t, o₁, o₂, hstep, hrun, rfl⟩ := h
    rw [hstep, Option.bind_some, hrun]
    rfl

theorem run_nil : M.run s [] = some (u, o) ↔ s = u ∧ o = [] := by
  rw [run, Option.some.injEq, Prod.mk.injEq, eq_comm (a := o)]

theorem run_append : M.run s (a ++ b) = some (u, o) ↔
    ∃ t o₁ o₂, M.run s a = some (t, o₁) ∧ M.run t b = some (u, o₂) ∧ o = o₁ ++ o₂ := by
  induction a generalizing s o with
  | nil =>
    constructor
    · exact fun h => ⟨s, [], o, rfl, h, rfl⟩
    · intro h
      obtain ⟨t, o₁, o₂, hnil, hrun, rfl⟩ := h
      obtain ⟨rfl, rfl⟩ := run_nil.1 hnil
      exact hrun
  | cons c a ih =>
    rw [cons_append, run_cons]
    constructor
    · intro h
      obtain ⟨t, o₁, o₂, hstep, hrun, rfl⟩ := h
      obtain ⟨t', o₃, o₄, ha, hb, rfl⟩ := ih.1 hrun
      exact ⟨t', o₁ ++ o₃, o₄, run_cons.2 ⟨t, o₁, o₃, hstep, ha, rfl⟩, hb, (append_assoc ..).symm⟩
    · intro h
      obtain ⟨t', o₁, o₂, hfirst, hb, rfl⟩ := h
      obtain ⟨t, o₃, o₄, hstep, ha, rfl⟩ := run_cons.1 hfirst
      exact ⟨t, o₃, o₄ ++ o₂, hstep, ih.2 ⟨t', o₄, o₂, ha, hb, rfl⟩, append_assoc ..⟩

/-- elements that leave the state and report nothing -/
theorem run_quiet (h : ∀ c ∈ a, M.step s c = some (s, [])) : M.run s a = some (s, []) := by
  induction a with
  | nil => rfl
  | cons c a ih =>
    exact run_cons.2 ⟨s, [], [], h c mem_cons_self, ih fun d hd => h d (mem_cons_of_mem c hd), rfl⟩

/-- the element is read in one state only, and nothing changes -/
def Resets (M : Scanner S α ω) (out : S) (c : α) : Prop :=
  ∀ s u o, M.step s c = some (u, o) → s = out ∧ u = out ∧ o = []

theorem run_resets {out : S} (ha : a ≠ []) (h : ∀ c ∈ a, M.Resets out c) (hrun : M.run s a = some (u, o)) :
    s = out ∧ u = out ∧ o = [] := by
  induction a generalizing s o with
  | nil => exact absurd rfl ha
  | cons c a ih =>
    obtain ⟨t, o₁, o₂, hstep, hrest, rfl⟩ := run_cons.1 hrun
    obtain ⟨rfl, rfl, rfl⟩ := h c mem_cons_self _ _ _ hstep
    cases a with
    | nil =>
      obtain ⟨rfl, rfl⟩ := run_nil.1 hrest
      exact ⟨rfl, rfl, rfl⟩
    | cons d a =>
      obtain ⟨_, rfl, rfl⟩ := ih (cons_ne_nil d a) (fun e he => h e (mem_cons_of_mem c he)) hrest
      exact ⟨rfl, rfl, rfl⟩

/-- what is put for a segment is read as the segment was -/
def Reads (M : Scanner S α ω) (a b : List α) : Prop := ∀ s u o, M.run s a = some (u, o) → M.run s b = some (u, o)

/-- delimiters that are replaced by others -/
theorem reads_wrapped {out : S} {pre d inner opening closing : List α} (hd : d ≠ []) (hreset : ∀ c ∈ d, M.Resets out c)
    (hopening : M.run out opening = some (out, [])) (hclosing : M.run out closing = some (out, [])) :
    M.Reads (pre ++ d ++ inner ++ d) (pre ++ opening ++ inner ++ closing) := by
  intro s u o hrun
  obtain ⟨v, o₁, o₂, hfront, hlast, rfl⟩ := run_append.1 hrun
  obtain ⟨rfl, rfl, rfl⟩ := run_resets hd hreset hlast
  obtain ⟨w, o₃, o₄, hstart, hinner, rfl⟩ := run_append.1 hfront
  obtain ⟨x, o₅, o₆, hpre, hfirst, rfl⟩ := run_append.1 hstart
  obtain ⟨rfl, rfl, rfl⟩ := run_resets hd hreset hfirst
  have hopened := run_append.2 ⟨_, _, [], hpre, hopening, rfl⟩
  have hfilled := run_append.2 ⟨_, _, o₄, hopened, hinner, rfl⟩
  exact run_append.2 ⟨_, _, [], hfilled, hclosing, rfl⟩

theorem run_flatMap {segs : List (Segment α β)} {put : Segment α β → List α}
    (hput : ∀ seg ∈ segs, M.Reads seg.source (put seg)) (h : M.run s (segs.flatMap Segment.source) = some (u, o)) :
    M.run s (segs.flatMap put) = some (u, o) := by
  induction segs generalizing s o with
  | nil => exact h
  | cons seg segs ih =>
    obtain ⟨t, o₁, o₂, hseg, hrest, rfl⟩ := run_append.1 h
    exact run_append.2 ⟨t, o₁, o₂, hput seg mem_cons_self _ _ _ hseg,
      ih (fun seg' hmem => hput seg' (mem_cons_of_mem seg hmem)) hrest, rfl⟩

end Scanner

end Rewrite
