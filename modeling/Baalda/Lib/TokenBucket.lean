/-
Token buckets: a level that refills at a rate up to a burst, and arrivals that are charged to it or refused.

An arrival has its time, its size, and the span that the refill is computed from; the span is at most the time that has
passed (`Clocked`), and often exactly that (`Exact`). `spentIn_le`: what is admitted of a window of times is at most the
burst and the rate times the window. `admits_iff`: from a full bucket everything is admitted exactly if the arrivals
conform, no stretch of them exceeding the burst and the rate times the time from its first to its last.
-/
import Mathlib.Tactic

namespace TokenBucket

open List

structure Arrival (𝕜 : Type*) where
  time : 𝕜
  span : 𝕜
  size : 𝕜

section

variable {𝕜 : Type*} [CommRing 𝕜] [LinearOrder 𝕜] (rate burst : 𝕜)

def refill (level span : 𝕜) : 𝕜 := min burst (level + span * rate)

/-- the level is enough for the arrival -/
def admits (level : 𝕜) (e : Arrival 𝕜) : Prop := e.size ≤ refill rate burst level e.span

instance (level : 𝕜) (e : Arrival 𝕜) : Decidable (admits rate burst level e) := inferInstanceAs (Decidable (_ ≤ _))

/-- the level that an arrival leaves -/
def charge (level : 𝕜) (e : Arrival 𝕜) : 𝕜 :=
  if admits rate burst level e then refill rate burst level e.span - e.size else refill rate burst level e.span

/-- what is admitted from `a` to `b` -/
def spentIn (a b level : 𝕜) : List (Arrival 𝕜) → 𝕜
  | [] => 0
  | e :: es =>
    (if admits rate burst level e ∧ a ≤ e.time ∧ e.time ≤ b then e.size else 0) +
      spentIn a b (charge rate burst level e) es

def admitsAll (level : 𝕜) : List (Arrival 𝕜) → Prop
  | [] => True
  | e :: es => admits rate burst level e ∧ admitsAll (charge rate burst level e) es

/-- the times do not run backwards, and no span is longer than what has passed -/
def Clocked (since : 𝕜) : List (Arrival 𝕜) → Prop
  | [] => True
  | e :: es => since ≤ e.time ∧ 0 ≤ e.span ∧ e.span ≤ e.time - since ∧ Clocked e.time es

/-- every span is what has passed -/
def Exact (since : 𝕜) : List (Arrival 𝕜) → Prop
  | [] => True
  | e :: es => since ≤ e.time ∧ e.span = e.time - since ∧ Exact e.time es

/-- when, and how much -/
def Arrival.load (e : Arrival 𝕜) : 𝕜 × 𝕜 := (e.time, e.size)

def total (loads : List (𝕜 × 𝕜)) : 𝕜 := (loads.map Prod.snd).sum

/-- every stretch is within the burst and the rate -/
def Conforms (loads : List (𝕜 × 𝕜)) : Prop :=
  ∀ seg, seg <:+: loads → ∀ first ∈ seg.head?, ∀ last ∈ seg.getLast?,
    total seg ≤ burst + (last.1 - first.1) * rate

end

section

variable {𝕜 : Type*} [CommRing 𝕜] [LinearOrder 𝕜] [IsStrictOrderedRing 𝕜] {rate burst : 𝕜}
variable {level since a b : 𝕜} {e : Arrival 𝕜} {es : List (Arrival 𝕜)}

theorem refill_le_burst {span : 𝕜} : refill rate burst level span ≤ burst := min_le_left _ _

theorem refill_le {span : 𝕜} : refill rate burst level span ≤ level + span * rate := min_le_right _ _

theorem refill_nonneg {span : 𝕜} (hrate : 0 ≤ rate) (hburst : 0 ≤ burst) (hlevel : 0 ≤ level) (hspan : 0 ≤ span) :
    0 ≤ refill rate burst level span :=
  le_min hburst (add_nonneg hlevel (mul_nonneg hspan hrate))

theorem charge_nonneg (hrate : 0 ≤ rate) (hburst : 0 ≤ burst) (hlevel : 0 ≤ level) (hspan : 0 ≤ e.span) :
    0 ≤ charge rate burst level e := by
  unfold charge
  split
  next hadmits => exact sub_nonneg.2 hadmits
  next => exact refill_nonneg hrate hburst hlevel hspan

/-- what an arrival takes and what it leaves are what the refill made -/
theorem taken_add_charge (a b : 𝕜) (hsize : 0 ≤ e.size) :
    (if admits rate burst level e ∧ a ≤ e.time ∧ e.time ≤ b then e.size else 0) + charge rate burst level e ≤
      refill rate burst level e.span := by
  unfold charge
  by_cases hadmits : admits rate burst level e
  · split
    next => exact (add_sub_cancel _ _).le
    next => linarith
  · rw [if_neg hadmits, if_neg fun h => hadmits h.1, zero_add]

theorem spentIn_after (hsince : b < since) (hclock : Clocked since es) : spentIn rate burst a b level es = 0 := by
  induction es generalizing level since with
  | nil => rfl
  | cons e es ih =>
    obtain ⟨htime, _, _, hrest⟩ := hclock
    have hlate : b < e.time := hsince.trans_le htime
    rw [spentIn, if_neg fun h => absurd h.2.2 (not_le.2 hlate), ih hlate hrest, add_zero]

/-- inside the window: what is left in the bucket and what refills until its end is all there is to spend -/
theorem spentIn_inside (hrate : 0 ≤ rate) (hburst : 0 ≤ burst) (hlevel : 0 ≤ level) (hsince : since ≤ b)
    (hsizes : ∀ e ∈ es, 0 ≤ e.size) (hclock : Clocked since es) :
    spentIn rate burst a b level es ≤ level + (b - since) * rate := by
  induction es generalizing level since with
  | nil => exact add_nonneg hlevel (mul_nonneg (sub_nonneg.2 hsince) hrate)
  | cons e es ih =>
    obtain ⟨htime, hspan, hpassed, hrest⟩ := hclock
    rw [spentIn]
    rcases le_or_gt e.time b with hin | hlate
    · have htail := ih (charge_nonneg hrate hburst hlevel hspan) hin
        (fun x hx => hsizes x (mem_cons_of_mem e hx)) hrest
      have htaken : _ ≤ refill rate burst level e.span := taken_add_charge a b (hsizes e mem_cons_self)
      have hrefill : refill rate burst level e.span ≤ level + e.span * rate := refill_le
      have hspans : e.span * rate ≤ (e.time - since) * rate := mul_le_mul_of_nonneg_right hpassed hrate
      calc _ ≤ refill rate burst level e.span + (b - e.time) * rate := by linarith
        _ ≤ level + (e.time - since) * rate + (b - e.time) * rate := by linarith
        _ = level + (b - since) * rate := by ring
    · rw [if_neg fun h => absurd h.2.2 (not_le.2 hlate), spentIn_after hlate hrest, add_zero]
      exact add_nonneg hlevel (mul_nonneg (sub_nonneg.2 hsince) hrate)

/-- **Every window.** What is admitted in it is at most the burst and the rate times its length. -/
theorem spentIn_le (hrate : 0 ≤ rate) (hburst : 0 ≤ burst) (hlevel : 0 ≤ level) (hwindow : a ≤ b)
    (hsizes : ∀ e ∈ es, 0 ≤ e.size) (hclock : Clocked since es) :
    spentIn rate burst a b level es ≤ burst + (b - a) * rate := by
  induction es generalizing level since with
  | nil => exact add_nonneg hburst (mul_nonneg (sub_nonneg.2 hwindow) hrate)
  | cons e es ih =>
    obtain ⟨_, hspan, _, hrest⟩ := hclock
    have hleft : 0 ≤ charge rate burst level e := charge_nonneg hrate hburst hlevel hspan
    have hrests : ∀ x ∈ es, 0 ≤ x.size := fun x hx => hsizes x (mem_cons_of_mem e hx)
    rw [spentIn]
    by_cases hin : a ≤ e.time ∧ e.time ≤ b
    · have htail : spentIn rate burst a b (charge rate burst level e) es ≤ _ :=
        spentIn_inside hrate hburst hleft hin.2 hrests hrest
      have htaken : _ ≤ refill rate burst level e.span := taken_add_charge a b (hsizes e mem_cons_self)
      have hfull : refill rate burst level e.span ≤ burst := refill_le_burst
      have hlonger : (b - e.time) * rate ≤ (b - a) * rate :=
        mul_le_mul_of_nonneg_right (sub_le_sub_left hin.1 b) hrate
      linarith
    · rw [if_neg fun h => hin h.2, zero_add]
      exact ih hleft hrests hrest

/-- every beginning is within the level and the rate -/
def Affords (rate level since : 𝕜) (loads : List (𝕜 × 𝕜)) : Prop :=
  ∀ pre, pre <+: loads → ∀ last ∈ pre.getLast?, total pre ≤ level + (last.1 - since) * rate

variable {p : 𝕜 × 𝕜} {loads : List (𝕜 × 𝕜)}

theorem total_cons : total (p :: loads) = p.2 + total loads := by
  rfl

theorem affords_cons : Affords rate level since (p :: loads) ↔
    p.2 ≤ level + (p.1 - since) * rate ∧ Affords rate (level + (p.1 - since) * rate - p.2) p.1 loads := by
  constructor
  · intro h
    constructor
    · have hone := h [p] (cons_prefix_cons.2 ⟨rfl, nil_prefix⟩) p rfl
      rwa [total_cons, total, map_nil, sum_nil, add_zero] at hone
    · intro pre hpre last hlast
      have hlonger : last ∈ (p :: pre).getLast? := by
        rw [getLast?_cons, Option.mem_def.1 hlast]
        rfl
      have hsum := h (p :: pre) (cons_prefix_cons.2 ⟨rfl, hpre⟩) last hlonger
      rw [total_cons] at hsum
      linarith
  · rintro ⟨hfirst, hrest⟩ pre hpre last hlast
    cases pre with
    | nil => cases hlast
    | cons x pre =>
      obtain ⟨rfl, htail⟩ := cons_prefix_cons.1 hpre
      cases pre with
      | nil =>
        cases hlast
        rwa [total_cons, total, map_nil, sum_nil, add_zero]
      | cons y pre =>
        have hsum := hrest (y :: pre) htail last hlast
        rw [total_cons]
        linarith

theorem affords_min {level' : 𝕜} : Affords rate (min level level') since loads ↔
    Affords rate level since loads ∧ Affords rate level' since loads := by
  simp only [Affords, ← min_add_add_right, le_min_iff]
  exact ⟨fun h => ⟨fun q hq l hl => (h q hq l hl).1, fun q hq l hl => (h q hq l hl).2⟩,
    fun h q hq l hl => ⟨h.1 q hq l hl, h.2 q hq l hl⟩⟩

theorem conforms_cons : Conforms rate burst (p :: loads) ↔
    Affords rate burst p.1 (p :: loads) ∧ Conforms rate burst loads := by
  constructor
  · intro h
    refine ⟨fun pre hpre last hlast => ?_, fun seg hseg => h seg (hseg.trans (suffix_cons p loads).isInfix)⟩
    cases pre with
    | nil => cases hlast
    | cons x pre =>
      have hx := (cons_prefix_cons.1 hpre).1
      exact h (x :: pre) hpre.isInfix p (hx ▸ rfl) last hlast
  · rintro ⟨hbegin, hrest⟩ seg hseg first hfirst last hlast
    rcases infix_cons_iff.1 hseg with hpre | hin
    · cases seg with
      | nil => cases hfirst
      | cons x seg =>
        cases hfirst
        obtain rfl := (cons_prefix_cons.1 hpre).1
        exact hbegin _ hpre last hlast
    · exact hrest seg hin first hfirst last hlast

theorem admitsAll_iff (hexact : Exact since es) : admitsAll rate burst level es ↔
    Conforms rate burst (es.map Arrival.load) ∧ Affords rate level since (es.map Arrival.load) := by
  induction es generalizing level since with
  | nil =>
    refine iff_of_true trivial ⟨fun seg hseg first hfirst => ?_, fun pre hpre last hlast => ?_⟩
    · rw [eq_nil_of_infix_nil hseg] at hfirst
      cases hfirst
    · rw [prefix_nil.1 hpre] at hlast
      cases hlast
  | cons e es ih =>
    obtain ⟨_, hspan, hrest⟩ := hexact
    rw [map_cons, conforms_cons, affords_cons, affords_cons, sub_self, zero_mul, add_zero, admitsAll]
    have hrefill : refill rate burst level e.span = min burst (level + (e.time - since) * rate) := by
      rw [refill, hspan]
    constructor
    · rintro ⟨hadmits, hall⟩
      rw [charge, if_pos hadmits, ih hrest, hrefill, ← min_sub_sub_right, affords_min] at hall
      rw [admits, hrefill, le_min_iff] at hadmits
      exact ⟨⟨⟨hadmits.1, hall.2.1⟩, hall.1⟩, hadmits.2, hall.2.2⟩
    · rintro ⟨⟨⟨hburst, hfull⟩, hconforms⟩, hlevel, hpart⟩
      have hadmits : admits rate burst level e := by
        rw [admits, hrefill]
        exact le_min hburst hlevel
      refine ⟨hadmits, ?_⟩
      rw [charge, if_pos hadmits, ih hrest, hrefill, ← min_sub_sub_right, affords_min]
      exact ⟨hconforms, hfull, hpart⟩

/-- **From a full bucket** everything is admitted exactly if the arrivals conform. -/
theorem admitsAll_full_iff (hrate : 0 ≤ rate) (hexact : Exact since es) :
    admitsAll rate burst burst es ↔ Conforms rate burst (es.map Arrival.load) := by
  rw [admitsAll_iff hexact]
  refine and_iff_left_of_imp fun hconforms pre hpre last hlast => ?_
  cases es with
  | nil =>
    rw [prefix_nil.1 hpre] at hlast
    cases hlast
  | cons e es =>
    have hbegin : total pre ≤ burst + (last.1 - e.time) * rate :=
      (conforms_cons.1 hconforms).1 pre hpre last hlast
    have hlater : (last.1 - e.time) * rate ≤ (last.1 - since) * rate :=
      mul_le_mul_of_nonneg_right (sub_le_sub_left hexact.1 _) hrate
    linarith

end

end TokenBucket
