/-
The throttle of failed sign-ins of one account (auth/signin-throttle.ts).

An attempt takes the account's password slot, looks whether the account is locked, has the password checked, and
records the failure before it gives the slot back. The window is a fixed one: it starts over with the first failure
after it has run out. So a stretch as long as a window can lie across two of them, and gets the failures of both
(`fixed_window`): four of each that do not lock, and one attempt that is not recorded yet (`signin_throttle`).

Times are the database's, in microseconds. The attempts are those of one account since its row was last cleared, all of
them with wrong passwords.
-/
import Baalda.Lib.Machine

namespace Baalda.SigninThrottle

open List Option

/-! ## Model -/

def ms (n : ℕ) : ℕ := 1000 * n

def maxFailures : ℕ := 5
def windowMs : ℕ := 15 * 60000
def lockoutLadderMs : List ℕ := [60000, 5 * 60000, 15 * 60000]
def lockoutMemoryMs : ℕ := 24 * 60 * 60000

/-- a row of `signin_throttle` -/
structure Row where
  failures : ℕ := 0
  windowStart : ℕ
  lockouts : ℕ := 0
  lockedUntil : Option ℕ := none
  deriving DecidableEq

/-- in seconds, 0 when it is not locked -/
def lockedForSeconds (row : Option Row) (now : ℕ) : ℕ :=
  match row.bind Row.lockedUntil with
  | some until_ => if now < until_ then (until_ - now + 999999) / 1000000 else 0
  | none => 0

def ladderMs (lockouts : ℕ) : ℕ := lockoutLadderMs.getD (min lockouts (lockoutLadderMs.length - 1)) 0

/-- the row, and the lockout that the failure triggers, in milliseconds -/
def recordFailure (row : Option Row) (now : ℕ) : Row × ℕ :=
  let row := row.getD { windowStart := now }
  let windowExpired := decide (row.windowStart + ms windowMs < now)
  let lockoutForgotten := row.lockedUntil.any fun until_ => until_ + ms lockoutMemoryMs < now
  let lockouts := if lockoutForgotten then 0 else row.lockouts
  let failures := if windowExpired then 1 else row.failures + 1
  if maxFailures ≤ failures then
    ({ failures := 0, windowStart := now, lockouts := lockouts + 1,
       lockedUntil := some (now + ms (ladderMs lockouts)) }, ladderMs lockouts)
  else ({ row with
    failures := failures
    windowStart := if windowExpired then now else row.windowStart
    lockouts := lockouts }, 0)

/-- how far the attempt that holds the slot is -/
inductive Phase where
  | entered
  | allowed
  | verifying
  deriving DecidableEq

structure Lockout where
  start : ℕ
  until_ : ℕ
  deriving DecidableEq

/-- an attempt reaches the password check: when, and the lockouts there were -/
structure Reached where
  time : ℕ
  lockouts : List Lockout
  deriving DecidableEq

inductive Answer where
  | tooManyAttempts (retryAfterSeconds : ℕ)
  | unauthorized
  deriving DecidableEq

/-- the account's row, the slot, and what has happened, the last first -/
structure St where
  row : Option Row := none
  clock : ℕ := 0
  slot : Option Phase := none
  reached : List Reached := []
  lockouts : List Lockout := []
  answers : List Answer := []
  deriving DecidableEq

inductive Act where
  /-- an attempt, on any instance, gets the slot; while it is held the attempts only poll it -/
  | takes
  | gaveUp
  | checks
  | verifies
  | records
  deriving DecidableEq

/-- the failure is recorded, the slot given back, and the attempt gets its own 401 -/
def St.records (s : St) (now : ℕ) : St :=
  let recorded := recordFailure s.row now
  { s with
    clock := now
    row := some recorded.1
    slot := none
    lockouts := if recorded.2 = 0 then s.lockouts else ⟨now, now + ms recorded.2⟩ :: s.lockouts
    answers := .unauthorized :: s.answers }

/-- the next thing that happens, and when; nothing does that cannot -/
def step (s : St) (a : Act × ℕ) : St :=
  let now := a.2
  if s.clock ≤ now then
    match a.1 with
    | .takes => if s.slot = none then { s with clock := now, slot := some .entered } else s
    | .gaveUp => { s with clock := now, answers := .tooManyAttempts 1 :: s.answers }
    | .checks =>
      if s.slot = some .entered then
        let wait := lockedForSeconds s.row now
        if 0 < wait then { s with clock := now, slot := none, answers := .tooManyAttempts wait :: s.answers }
        else { s with clock := now, slot := some .allowed }
      else s
    | .verifies =>
      if s.slot = some .allowed then
        { s with clock := now, slot := some .verifying, reached := ⟨now, s.lockouts⟩ :: s.reached }
      else s
    | .records => if s.slot = some .verifying then s.records now else s
  else s

abbrev run : St → List (Act × ℕ) → St := Machine.run step

/-! ## What is to be shown -/

/-- in the window's length from `a` on -/
def Within (a t : ℕ) : Prop := a ≤ t ∧ t ≤ a + ms windowMs

instance (a t : ℕ) : Decidable (Within a t) := inferInstanceAs (Decidable (_ ∧ _))

/-- the attempts in a stretch that reach the password check -/
def St.reachedIn (s : St) (a : ℕ) : ℕ := s.reached.countP fun r => Within a r.time

/-- no lockout starts in the stretch -/
def St.Unlocked (s : St) (a : ℕ) : Prop := ∀ l ∈ s.lockouts, ¬ Within a l.start

instance (s : St) (a : ℕ) : Decidable (s.Unlocked a) :=
  inferInstanceAs (Decidable (∀ l ∈ s.lockouts, ¬ Within a l.start))

/-- of two successive lockouts less than a day apart the later one is as long as the earlier one -/
def NotShorter (later earlier : Lockout) : Prop :=
  later.start ≤ earlier.until_ + ms lockoutMemoryMs → earlier.until_ - earlier.start ≤ later.until_ - later.start

/-! ## What a step can do -/

inductive Next (s : St) (now : ℕ) : St → Prop where
  | waits (slot : Option Phase) (answers : List Answer) (hflight : s.slot = some .verifying → slot = some .verifying)
      (hslot : slot = some .allowed ∨ slot = some .verifying →
        slot = s.slot ∨ lockedForSeconds s.row now = 0) :
      Next s now { s with clock := now, slot := slot, answers := answers }
  | verifies (hslot : s.slot = some .allowed) :
      Next s now { s with clock := now, slot := some .verifying, reached := ⟨now, s.lockouts⟩ :: s.reached }
  | records (hslot : s.slot = some .verifying) : Next s now (s.records now)

theorem step_cases (s : St) (a : Act × ℕ) : step s a = s ∨ s.clock ≤ a.2 ∧ Next s a.2 (step s a) := by
  obtain ⟨a, now⟩ := a
  by_cases hnow : s.clock ≤ now
  swap
  · exact .inl (if_neg hnow)
  simp only [step, if_pos hnow]
  cases a with
  | takes =>
    dsimp only
    split
    · next hslot => exact .inr ⟨hnow, .waits (some .entered) s.answers (by simp [hslot]) (by simp)⟩
    · exact .inl rfl
  | gaveUp => exact .inr ⟨hnow, .waits s.slot _ id fun _ => .inl rfl⟩
  | checks =>
    dsimp only
    split
    · next hslot =>
      split
      · exact .inr ⟨hnow, .waits none _ (by simp [hslot]) (by simp)⟩
      · next hzero =>
        exact .inr ⟨hnow, .waits (some .allowed) s.answers (by simp [hslot]) fun _ =>
          .inr (Nat.eq_zero_of_not_pos hzero)⟩
    · exact .inl rfl
  | verifies =>
    dsimp only
    split
    · next hslot => exact .inr ⟨hnow, .verifies hslot⟩
    · exact .inl rfl
  | records =>
    dsimp only
    split
    · next hslot => exact .inr ⟨hnow, .records hslot⟩
    · exact .inl rfl

/-! ## Recording a failure -/

theorem ladderMs_pos (lockouts : ℕ) : 0 < ladderMs lockouts := by
  unfold ladderMs
  have hle : min lockouts (lockoutLadderMs.length - 1) ≤ 2 := min_le_right _ _
  interval_cases min lockouts (lockoutLadderMs.length - 1) <;> decide

theorem ladderMs_succ (lockouts : ℕ) : ladderMs lockouts ≤ ladderMs (lockouts + 1) := by
  match lockouts with
  | 0 => decide
  | 1 => decide
  | n + 2 =>
    have hmin : ∀ m, min (m + 2) (lockoutLadderMs.length - 1) = 2 := fun m => min_eq_right (by simp [lockoutLadderMs])
    unfold ladderMs
    rw [hmin n, show n + 2 + 1 = n + 1 + 2 from rfl, hmin (n + 1)]

/-- the lockouts that count for the next one -/
def remembered (row : Option Row) (now : ℕ) : ℕ :=
  match row with
  | none => 0
  | some r => if r.lockedUntil.any fun until_ => until_ + ms lockoutMemoryMs < now then 0 else r.lockouts

/-- what a failure can do to the row -/
theorem recordFailure_cases (row : Option Row) (now : ℕ) :
    (recordFailure row now = ({
        failures := 0
        windowStart := now
        lockouts := remembered row now + 1
        lockedUntil := some (now + ms (ladderMs (remembered row now))) }, ladderMs (remembered row now)) ∧
      ∃ r, row = some r ∧ maxFailures ≤ r.failures + 1) ∨
    ∃ r, recordFailure row now = (r, 0) ∧ r.failures < maxFailures ∧ r.lockouts = remembered row now ∧
      r.lockedUntil = row.bind Row.lockedUntil ∧
      ((r.windowStart = now ∧ r.failures = 1 ∧ ∀ r₀, row = some r₀ → r₀.windowStart + ms windowMs < now) ∨
        ∃ r₀, row = some r₀ ∧ r.windowStart = r₀.windowStart ∧ r.failures = r₀.failures + 1) := by
  cases row with
  | none =>
    refine .inr ⟨{ failures := 1, windowStart := now }, ?_, by simp [maxFailures], rfl, rfl,
      .inl ⟨rfl, rfl, by simp⟩⟩
    simp [recordFailure, maxFailures]
  | some r =>
    unfold recordFailure remembered
    simp only [getD_some, bind_some]
    by_cases hexpired : r.windowStart + ms windowMs < now
    · rw [if_neg (by simp [hexpired, maxFailures])]
      exact .inr ⟨_, rfl, by simp [hexpired, maxFailures], rfl, rfl, .inl (by simp [hexpired])⟩
    · by_cases hfull : maxFailures ≤ r.failures + 1
      · rw [if_pos (by simpa [hexpired] using hfull)]
        exact .inl ⟨rfl, r, rfl, hfull⟩
      · rw [if_neg (by simpa [hexpired] using hfull)]
        exact .inr ⟨_, rfl, by simpa [hexpired] using hfull, rfl, rfl, .inr ⟨r, rfl, by simp [hexpired]⟩⟩

/-! ## What holds in every state -/

structure Inv (s : St) : Prop where
  past : ∀ r ∈ s.reached, r.time ≤ s.clock
  few : ∀ r, s.row = some r → r.failures < maxFailures
  /-- the row knows the last lockout, and how long it was -/
  last : ∀ l ∈ s.lockouts.head?, ∃ r, s.row = some r ∧ r.lockedUntil = some l.until_ ∧
    (r.lockouts = 0 ∧ l.until_ + ms lockoutMemoryMs < s.clock ∨
      ∃ n, r.lockouts = n + 1 ∧ l.until_ = l.start + ms (ladderMs n))
  ended : ∀ l ∈ s.lockouts, ∀ l' ∈ s.lockouts.head?, l.until_ ≤ l'.until_
  passed : s.slot = some .allowed ∨ s.slot = some .verifying → ∀ l ∈ s.lockouts, l.until_ ≤ s.clock
  fair : ∀ r ∈ s.reached, ∀ l ∈ r.lockouts, l.until_ ≤ r.time
  ladder : s.lockouts.IsChain NotShorter

def St.inFlight (s : St) : ℕ := if s.slot = some .verifying then 1 else 0

/-- what the row says about the attempts of a stretch that is not over -/
def St.allowance (s : St) (a : ℕ) : ℕ :=
  match s.row with
  | none => 0
  | some r => (if a ≤ r.windowStart then maxFailures - 1 else 0) + r.failures

/-- the attempts of a stretch are few, and while it lasts the row counts them -/
structure Bounded (a : ℕ) (s : St) : Prop where
  few : s.reachedIn a ≤ 2 * maxFailures - 1
  counted : s.clock ≤ a + ms windowMs → s.reachedIn a ≤ s.allowance a + s.inFlight

section

variable {s : St} {now a : ℕ}

theorem reachedIn_eq_zero (h : Inv s) (ha : s.clock < a) : s.reachedIn a = 0 := by
  apply countP_eq_zero.2
  intro r hr hin
  have hpast := h.past r hr
  have hle := (of_decide_eq_true hin).1
  omega

theorem lockedForSeconds_eq_zero {row : Option Row} {r : Row} {u : ℕ} (hrow : row = some r)
    (hu : r.lockedUntil = some u) (h : lockedForSeconds row now = 0) : u ≤ now := by
  by_contra hlt
  simp only [lockedForSeconds, hrow, bind_some, hu, if_pos (not_le.1 hlt)] at h
  omega

/-- time passes, and the slot changes hands -/
theorem Inv.waits (h : Inv s) (hnow : s.clock ≤ now) (slot : Option Phase) (answers : List Answer)
    (hslot : slot = some .allowed ∨ slot = some .verifying → ∀ l ∈ s.lockouts, l.until_ ≤ now) :
    Inv { s with clock := now, slot := slot, answers := answers } where
  past r hr := (h.past r hr).trans hnow
  few := h.few
  last l hl := by
    obtain ⟨r, hr, hu, hlen⟩ := h.last l hl
    exact ⟨r, hr, hu, hlen.imp_left fun ⟨h0, hlt⟩ => ⟨h0, hlt.trans_le hnow⟩⟩
  ended := h.ended
  passed := hslot
  fair := h.fair
  ladder := h.ladder

/-- at a failure the account is not locked any more -/
theorem remembered_last (h : Inv s) {l : Lockout} (hl : l ∈ s.lockouts.head?) (hnow : s.clock ≤ now) :
    (remembered s.row now = 0 ∧ l.until_ + ms lockoutMemoryMs < now) ∨
      ∃ n, remembered s.row now = n + 1 ∧ l.until_ = l.start + ms (ladderMs n) := by
  obtain ⟨r, hr, hu, hlen⟩ := h.last l hl
  simp only [remembered, hr]
  by_cases hforgotten : (r.lockedUntil.any fun until_ => until_ + ms lockoutMemoryMs < now) = true
  · rw [hu, any_some] at hforgotten
    exact .inl ⟨if_pos (by rwa [hu, any_some]), of_decide_eq_true hforgotten⟩
  · rw [if_neg hforgotten]
    exact hlen.imp_left fun ⟨h0, hlt⟩ => ⟨h0, hlt.trans_le hnow⟩

/-- the next lockout is no shorter -/
theorem notShorter (h : Inv s) (hnow : s.clock ≤ now) {l : Lockout} (hl : l ∈ s.lockouts.head?) :
    NotShorter ⟨now, now + ms (ladderMs (remembered s.row now))⟩ l := by
  intro hday
  rcases remembered_last h hl hnow with ⟨-, hlt⟩ | ⟨n, hn, hu⟩
  · exact absurd hday (by simpa using hlt)
  · have hle := ladderMs_succ n
    rw [hn, hu]
    simp only [Nat.add_sub_cancel_left, ms]
    omega

theorem Inv.records (h : Inv s) (hnow : s.clock ≤ now) (hslot : s.slot = some .verifying) : Inv (s.records now) := by
  have hpassed := h.passed (.inr hslot)
  have hhead : ∀ l ∈ s.lockouts.head?, l ∈ s.lockouts := fun l hl => mem_of_mem_head? hl
  unfold St.records
  rcases recordFailure_cases s.row now with ⟨heq, -⟩ | ⟨r, heq, hfew, hlockouts, hu, -⟩
  · simp only [heq, if_neg (ladderMs_pos _).ne']
    refine ⟨fun r hr => (h.past r hr).trans hnow, ?_, ?_, ?_, by simp, h.fair, ?_⟩
    · intro r hr
      cases hr
      simp [maxFailures]
    · intro l hl
      obtain rfl : _ = l := by simpa using hl
      exact ⟨_, rfl, rfl, .inr ⟨_, rfl, rfl⟩⟩
    · intro l hl l' hl'
      obtain rfl : _ = l' := by simpa using hl'
      rcases mem_cons.1 hl with rfl | hl
      · exact le_rfl
      · exact ((hpassed l hl).trans hnow).trans (Nat.le_add_right _ _)
    · cases hls : s.lockouts with
      | nil => exact isChain_singleton _
      | cons l ls => exact isChain_cons_cons.2 ⟨notShorter h hnow (by simp [hls]), hls ▸ h.ladder⟩
  · simp only [heq, if_true]
    refine ⟨fun r hr => (h.past r hr).trans hnow, ?_, ?_, h.ended, by simp, h.fair, h.ladder⟩
    · intro r' hr'
      cases hr'
      exact hfew
    · intro l hl
      obtain ⟨r₀, hr₀, hu₀, -⟩ := h.last l hl
      refine ⟨r, rfl, by rw [hu, hr₀, bind_some, hu₀], ?_⟩
      rw [hlockouts]
      exact remembered_last h hl hnow

theorem inv_step (h : Inv s) (act : Act × ℕ) : Inv (step s act) := by
  rcases step_cases s act with hstays | ⟨hnow, hnext⟩
  · rw [hstays]
    exact h
  generalize step s act = t at hnext ⊢
  generalize act.2 = now at hnow hnext
  cases hnext with
  | waits slot answers _ hslot =>
    refine h.waits hnow slot answers fun hphase l hl => ?_
    rcases hslot hphase with hsame | hzero
    · exact (h.passed (hsame ▸ hphase) l hl).trans hnow
    · obtain ⟨l', hl'⟩ : ∃ l', l' ∈ s.lockouts.head? := by
        cases hls : s.lockouts with
        | nil => simp [hls] at hl
        | cons l' ls => exact ⟨l', by simp⟩
      obtain ⟨r, hr, hu, -⟩ := h.last l' hl'
      exact (h.ended l hl l' hl').trans (lockedForSeconds_eq_zero hr hu hzero)
  | verifies hslot =>
    have hpassed := fun l hl => (h.passed (.inl hslot) l hl).trans hnow
    have hw := h.waits hnow (some .verifying) s.answers fun _ => hpassed
    refine ⟨fun r hr => ?_, hw.few, hw.last, hw.ended, hw.passed, fun r hr => ?_, hw.ladder⟩
    · rcases mem_cons.1 hr with rfl | hr
      · exact le_rfl
      · exact hw.past r hr
    · rcases mem_cons.1 hr with rfl | hr
      · exact hpassed
      · exact h.fair r hr
  | records hslot => exact h.records hnow hslot

/-! ## The attempts of a stretch -/

theorem allowance_le (h : Inv s) (a : ℕ) : s.allowance a ≤ 2 * (maxFailures - 1) := by
  unfold St.allowance
  split
  · exact Nat.zero_le _
  · next r hr =>
    have hfew := h.few r hr
    simp only [maxFailures] at hfew ⊢
    split <;> omega

/-- a failure that does not lock is counted by the row, in this window or in the next one -/
theorem allowance_records (h : Inv s) (hin : now ≤ a + ms windowMs)
    (hcounted : s.reachedIn a ≤ s.allowance a + 1) (hzero : now < a → s.reachedIn a = 0) {r : Row}
    (hwindow : (r.windowStart = now ∧ r.failures = 1 ∧ ∀ r₀, s.row = some r₀ → r₀.windowStart + ms windowMs < now) ∨
      ∃ r₀, s.row = some r₀ ∧ r.windowStart = r₀.windowStart ∧ r.failures = r₀.failures + 1) :
    s.reachedIn a ≤ (if a ≤ r.windowStart then maxFailures - 1 else 0) + r.failures := by
  by_cases ha : now < a
  · simp [hzero ha]
  unfold St.allowance at hcounted
  rcases hwindow with ⟨hstart, hone, hexpired⟩ | ⟨r₀, hr₀, hstart, hnext⟩
  · -- the window of before had run out, so it did not begin in this stretch
    rw [if_pos (by omega), hone]
    cases hrow : s.row with
    | none =>
      rw [hrow] at hcounted
      exact hcounted.trans (Nat.add_le_add_right (Nat.zero_le _) _)
    | some r₀ =>
      have hbefore := hexpired r₀ hrow
      have hfew := h.few r₀ hrow
      simp only [hrow, if_neg (show ¬ a ≤ r₀.windowStart by omega), maxFailures] at hcounted hfew ⊢
      omega
  · simp only [hr₀] at hcounted
    rw [hstart, hnext]
    exact hcounted.trans (by omega)

theorem bounded_step (h : Inv s) (hb : s.Unlocked a → Bounded a s) (act : Act × ℕ)
    (hfree : (step s act).Unlocked a) : Bounded a (step s act) := by
  rcases step_cases s act with hstays | ⟨hnow, hnext⟩
  · rw [hstays] at hfree ⊢
    exact hb hfree
  generalize step s act = t at hfree hnext ⊢
  generalize act.2 = now at hnow hnext
  cases hnext with
  | waits slot answers hflight _ =>
    obtain ⟨hfew, hcounted⟩ := hb hfree
    refine ⟨hfew, fun hlast => (hcounted (hnow.trans hlast)).trans (Nat.add_le_add_left ?_ _)⟩
    unfold St.inFlight
    split
    · next hslot => rw [if_pos (hflight hslot)]
    · exact Nat.zero_le _
  | verifies hslot =>
    obtain ⟨hfew, hcounted⟩ := hb hfree
    have hle := allowance_le h a
    have hflight : s.inFlight = 0 := by simp [St.inFlight, hslot]
    have hone : St.reachedIn { s with
        clock := now
        slot := some .verifying
        reached := ⟨now, s.lockouts⟩ :: s.reached } a = s.reachedIn a + if Within a now then 1 else 0 := by
      simp [St.reachedIn, countP_cons]
    rw [hflight] at hcounted
    refine ⟨?_, fun hlast => ?_⟩
    · rw [hone]
      split
      · next hin =>
        have hcounted := hcounted (hnow.trans hin.2)
        simp only [maxFailures] at hle ⊢
        omega
      · exact hfew
    · rw [hone]
      have hcounted := hcounted (hnow.trans hlast)
      refine Nat.add_le_add hcounted ?_
      split <;> simp [St.inFlight]
  | records hslot =>
    have hflight : s.inFlight = 1 := by simp [St.inFlight, hslot]
    have hzero : now < a → s.reachedIn a = 0 := fun ha => reachedIn_eq_zero h (by omega)
    unfold St.records at hfree ⊢
    rcases recordFailure_cases s.row now with ⟨heq, -⟩ | ⟨r, heq, -, -, -, hwindow⟩
    · simp only [heq, if_neg (ladderMs_pos _).ne'] at hfree ⊢
      obtain ⟨hnew, hold⟩ := forall_mem_cons.1 hfree
      refine ⟨(hb hold).few, fun hlast => ?_⟩
      have ha : now < a := by
        by_contra hge
        exact hnew ⟨not_lt.1 hge, hlast⟩
      exact (hzero ha).le.trans (Nat.zero_le _)
    · simp only [heq, if_true] at hfree ⊢
      obtain ⟨hfew, hcounted⟩ := hb hfree
      refine ⟨hfew, fun hlast => ?_⟩
      exact allowance_records h hlast (hflight ▸ hcounted (hnow.trans hlast)) hzero hwindow

end

/-- **The throttle.** no stretch as long as a window has more than `2 * maxFailures - 1` attempts that reach the
password check without a lockout starting in it, none reaches it while the account is locked, and of two successive
lockouts less than a day apart the later one is as long. -/
theorem signin_throttle (acts : List (Act × ℕ)) :
    (∀ a, (run {} acts).Unlocked a → (run {} acts).reachedIn a ≤ 2 * maxFailures - 1) ∧
    (∀ r ∈ (run {} acts).reached, ∀ l ∈ r.lockouts, l.until_ ≤ r.time) ∧
    (run {} acts).lockouts.IsChain NotShorter := by
  have hinv : Inv (run {} acts) := by
    refine Machine.run_inv_all Inv (fun s act h => inv_step h act) ⟨?_, ?_, ?_, ?_, ?_, ?_, ?_⟩ <;> simp
  refine ⟨fun a => ?_, hinv.fair, hinv.ladder⟩
  have hboth : Inv (run {} acts) ∧ ((run {} acts).Unlocked a → Bounded a (run {} acts)) := by
    refine Machine.run_inv_all (fun s => Inv s ∧ (s.Unlocked a → Bounded a s))
      (fun s act h => ⟨inv_step h.1 act, bounded_step h.1 h.2 act⟩) 
      ⟨⟨?_, ?_, ?_, ?_, ?_, ?_, ?_⟩, fun _ => ⟨?_, ?_⟩⟩ <;> simp [St.reachedIn]
  exact fun hfree => (hboth.2 hfree).few

/-- an attempt, all at one time -/
def attempt (seconds : ℕ) : List (Act × ℕ) :=
  [.takes, .checks, .verifies, .records].map fun a => (a, ms (1000 * seconds))

/-- nine attempts in two minutes, and no lockout: five at first lock the account, four end the window that begins then,
and five begin the next one, of which the last one has not been recorded -/
def aroundTheWindow : List (Act × ℕ) :=
  ((replicate 5 0 ++ replicate 4 840 ++ replicate 5 901).flatMap attempt).dropLast

theorem fixed_window :
    (run {} aroundTheWindow).Unlocked (ms (1000 * 800)) ∧
      maxFailures < (run {} aroundTheWindow).reachedIn (ms (1000 * 800)) ∧
      (run {} aroundTheWindow).reachedIn (ms (1000 * 800)) = 2 * maxFailures - 1 := by
  decide +kernel

end Baalda.SigninThrottle
