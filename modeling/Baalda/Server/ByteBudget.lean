/-
Admission control for uploads (blobs/admission.ts): a first-in first-out queue over a byte budget.

An upload reserves its bytes before its body is read and gives them back when it is done. `acquire` admits it at once,
sends it away, or lets it wait; `release` admits waiters from the head of the queue while they fit; a waiter whose time
is up leaves the queue, and nobody is admitted in its place. `live` and `answers` are kept beside the code's fields: the
reservations admitted and not given back, and what the callers were told.

`head_waits_iff`: the accounts are right in every run, and no upload that fits waits exactly in the runs in which no
waiter leaves the head of the queue before one that fits.
-/
import Baalda.Lib.Machine

namespace Baalda.ByteBudget

open List

/-! ## Model -/

/-- Requests allowed to wait for budget before we start shedding. -/
def MAX_UPLOAD_QUEUE : ℕ := 16

/-- an upload, by the number of its `acquire`, and the bytes it asks for -/
structure Waiter where
  id : ℕ
  bytes : ℕ
  deriving DecidableEq

structure St where
  inflight : ℕ := 0
  waiters : List Waiter := []
  live : List Waiter := []
  /-- in the order in which they were given; `true`: admitted -/
  answers : List (ℕ × Bool) := []
  /-- the calls of `acquire` so far -/
  calls : ℕ := 0
  deriving DecidableEq

inductive Action where
  | acquire (bytes : ℕ)
  /-- the upload of a call that was admitted is done -/
  | release (id : ℕ)
  /-- the timer of a waiter fires -/
  | timeout (id : ℕ)
  deriving DecidableEq

variable (budget maxQueue : ℕ)

def fits (inflight bytes : ℕ) : Bool := inflight = 0 || inflight + bytes ≤ budget

/-- the loop of `release`: what is admitted, and what goes on waiting -/
def admitted : ℕ → List Waiter → List Waiter × List Waiter
  | _, [] => ([], [])
  | inflight, w :: ws =>
    if fits budget inflight w.bytes then
      let rest := admitted (inflight + w.bytes) ws
      (w :: rest.1, rest.2)
    else ([], w :: ws)

def size (ws : List Waiter) : ℕ := (ws.map (·.bytes)).sum

namespace St

variable (s : St)

def acquire (budget maxQueue : ℕ) (bytes : ℕ) : St :=
  let w : Waiter := ⟨s.calls, bytes⟩
  if s.waiters = [] ∧ fits budget s.inflight bytes then
    { s with
      inflight := s.inflight + bytes, live := s.live ++ [w], answers := s.answers ++ [(w.id, true)],
      calls := s.calls + 1 }
  else if maxQueue ≤ s.waiters.length then { s with answers := s.answers ++ [(w.id, false)], calls := s.calls + 1 }
  else { s with waiters := s.waiters ++ [w], calls := s.calls + 1 }

/-- a call is released at most once, from the `finally` of its route -/
def release (budget : ℕ) (id : ℕ) : St := match s.live.find? (·.id = id) with
  | none => s
  | some r =>
    let inflight := s.inflight - r.bytes
    let out := admitted budget inflight s.waiters
    { s with
      inflight := inflight + size out.1, waiters := out.2, live := s.live.erase r ++ out.1,
      answers := s.answers ++ out.1.map fun w => (w.id, true) }

/-- the timer of an upload that was admitted is cleared -/
def timeout (id : ℕ) : St := match s.waiters.find? (·.id = id) with
  | none => s
  | some w => { s with waiters := s.waiters.erase w, answers := s.answers ++ [(id, false)] }

end St

def step (s : St) : Action → St
  | .acquire bytes => s.acquire budget maxQueue bytes
  | .release id => s.release budget id
  | .timeout id => s.timeout id

def run (s : St) (as : List Action) : St := Machine.run (step budget maxQueue) s as

/-! ## What is to hold -/

/-- what the budget's books say, in every state -/
structure Accounts (s : St) : Prop where
  reserved : s.inflight = size s.live
  /-- over the budget, one reservation holds all the bytes -/
  alone : budget < s.inflight → (s.live.filter (0 < ·.bytes)).length = 1
  /-- in the order of arrival: admitted before waiting, and each in its order -/
  order : (((s.answers.filter (·.2)).map (·.1)) ++ s.waiters.map (·.id)).Pairwise (· < ·)
  /-- a call is answered once, or it waits -/
  once : ∀ id, (s.answers.map (·.1)).count id + (s.waiters.map (·.id)).count id = if id < s.calls then 1 else 0

/-- no upload waits while there is room for it: the first does not fit, and the others wait for it -/
def HeadWaits (s : St) : Prop := ∀ w ∈ s.waiters.head?, fits budget s.inflight w.bytes = false

/-- where the first waiter's time is up, the second does not fit either -/
def NoRoomBehind (s : St) : Action → Prop
  | .timeout id => match s.waiters with
    | w :: w' :: _ => w.id = id → fits budget s.inflight w'.bytes = false
    | _ => True
  | _ => True

instance (s : St) : Decidable (HeadWaits budget s) := inferInstanceAs (Decidable (∀ w ∈ s.waiters.head?, _))

/-! ## The accounts -/

section

variable {budget maxQueue : ℕ} {s : St} {inflight : ℕ} {ws live : List Waiter} {w : Waiter}

@[simp] theorem size_nil : size [] = 0 := rfl

@[simp] theorem size_cons (w : Waiter) (ws : List Waiter) : size (w :: ws) = w.bytes + size ws := rfl

@[simp] theorem size_append (ws ws' : List Waiter) : size (ws ++ ws') = size ws + size ws' := by
  simp [size, sum_append]

theorem size_erase (h : w ∈ live) : size (live.erase w) + w.bytes = size live := by
  have hperm : size live = size (w :: live.erase w) := ((perm_cons_erase h).map Waiter.bytes).sum_eq
  rw [hperm, size_cons, Nat.add_comm]

theorem fits_iff {bytes : ℕ} : fits budget inflight bytes = true ↔ inflight = 0 ∨ inflight + bytes ≤ budget := by
  simp [fits]

theorem admitted_append (inflight : ℕ) (ws : List Waiter) :
    (admitted budget inflight ws).1 ++ (admitted budget inflight ws).2 = ws := by
  induction ws generalizing inflight with
  | nil => rfl
  | cons w ws ih =>
    unfold admitted
    split
    · exact congrArg (w :: ·) (ih _)
    · rfl

/-- `release` goes on until the first waiter does not fit -/
theorem admitted_head (inflight : ℕ) (ws : List Waiter) : ∀ w ∈ (admitted budget inflight ws).2.head?,
    fits budget (inflight + size (admitted budget inflight ws).1) w.bytes = false := by
  induction ws generalizing inflight with
  | nil => simp [admitted]
  | cons w ws ih =>
    unfold admitted
    split
    · rw [size_cons, ← Nat.add_assoc]
      exact ih _
    · next hfits => simpa using hfits

/-- over the budget, one reservation holds all the bytes -/
def Alone (budget : ℕ) (live : List Waiter) : Prop := budget < size live → (live.filter (0 < ·.bytes)).length = 1

theorem filter_eq_nil (h : size live = 0) : live.filter (0 < ·.bytes) = [] := by
  apply filter_eq_nil_iff.2
  intro r hr
  have hle : r.bytes ≤ size live := single_le_sum (by simp) _ (mem_map_of_mem hr)
  simp only [decide_eq_true_eq]
  omega

theorem alone_append (h : fits budget (size live) w.bytes = true) : Alone budget (live ++ [w]) := by
  intro hover
  rw [size_append, size_cons, size_nil] at hover
  rcases fits_iff.1 h with hnone | hroom
  · rw [filter_append, filter_eq_nil hnone, filter_cons_of_pos (by simp; omega)]
    rfl
  · omega

theorem Alone.erase (h : Alone budget live) (hw : w ∈ live) : Alone budget (live.erase w) := by
  intro hover
  have hle : size (live.erase w) ≤ size live := by
    have hsize := size_erase hw
    omega
  have hone := h (lt_of_lt_of_le hover hle)
  have hsub := ((erase_sublist (a := w) (l := live)).filter (0 < ·.bytes)).length_le
  have hsome : (live.erase w).filter (0 < ·.bytes) ≠ [] := by
    intro hnone
    have hzero : ∀ b ∈ (live.erase w).map (·.bytes), b = 0 := by
      intro b hb
      obtain ⟨r, hr, rfl⟩ := mem_map.1 hb
      have hnot := filter_eq_nil_iff.1 hnone r hr
      simpa using hnot
    have hsum : size (live.erase w) = 0 := sum_eq_zero hzero
    omega
  have hpos := length_pos_of_ne_nil hsome
  omega

theorem Alone.admitted (h : Alone budget live) (ws : List Waiter) :
    Alone budget (live ++ (admitted budget (size live) ws).1) := by
  induction ws generalizing live with
  | nil => simpa [ByteBudget.admitted] using h
  | cons w ws ih =>
    unfold ByteBudget.admitted
    split
    · next hfits =>
      have hnext := ih (alone_append hfits)
      simpa using hnext
    · simpa using h

theorem Accounts.waiting (h : Accounts budget s) (hw : w ∈ s.waiters) : w.id < s.calls := by
  have hcount : 0 < (s.waiters.map (·.id)).count w.id := count_pos_iff.2 (mem_map_of_mem hw)
  have honce := h.once w.id
  by_contra hnot
  rw [if_neg hnot] at honce
  omega

theorem Accounts.answered (h : Accounts budget s) {id : ℕ} (hid : id ∈ s.answers.map (·.1)) : id < s.calls := by
  have hcount : 0 < (s.answers.map (·.1)).count id := count_pos_iff.2 hid
  have honce := h.once id
  by_contra hnot
  rw [if_neg hnot] at honce
  omega

/-! ## Every step -/

/-- one more call, which is answered or waits -/
theorem once_succ {f : ℕ → ℕ} {n : ℕ} (h : ∀ id, f id = if id < n then 1 else 0) (id : ℕ) :
    (f id + if n = id then 1 else 0) = if id < n + 1 then 1 else 0 := by
  rw [h]
  split_ifs <;> omega

theorem Accounts.acquire (h : Accounts budget s) (bytes : ℕ) : Accounts budget (s.acquire budget maxQueue bytes) := by
  have hfresh : ∀ id ∈ s.answers.map (·.1), id < s.calls := fun id hid => h.answered hid
  have hwaiting : ∀ id ∈ s.waiters.map (·.id), id < s.calls := by
    intro id hid
    obtain ⟨w, hw, rfl⟩ := mem_map.1 hid
    exact h.waiting hw
  unfold St.acquire
  split
  · next hgrant =>
    obtain ⟨hnobody, hfits⟩ := hgrant
    have horder := h.order
    rw [hnobody, map_nil, append_nil] at horder
    refine ⟨?_, ?_, ?_, ?_⟩
    · simp [h.reserved]
    · intro hover
      have halone : Alone budget (s.live ++ [⟨s.calls, bytes⟩]) := alone_append (h.reserved ▸ hfits)
      apply halone
      simpa [h.reserved] using hover
    · have hlast : ∀ id ∈ (s.answers.filter (·.2)).map (·.1), id < s.calls := fun id hid =>
        hfresh id ((filter_sublist.map _).subset hid)
      simpa [hnobody, filter_append, pairwise_append, horder] using hlast
    · intro id
      have honce := once_succ h.once id
      simp only [map_append, map_cons, map_nil, count_append, count_singleton, beq_iff_eq]
      omega
  · split
    · refine ⟨h.reserved, h.alone, ?_, ?_⟩
      · simpa using h.order
      · intro id
        have honce := once_succ h.once id
        simp only [map_append, map_cons, map_nil, count_append, count_singleton, beq_iff_eq]
        omega
    · refine ⟨h.reserved, h.alone, ?_, ?_⟩
      · have hlast : ∀ id ∈ (s.answers.filter (·.2)).map (·.1) ++ s.waiters.map (·.id), id < s.calls := by
          intro id hid
          rcases mem_append.1 hid with hid | hid
          · exact hfresh id ((filter_sublist.map _).subset hid)
          · exact hwaiting id hid
        rw [map_append, ← append_assoc]
        exact pairwise_append.2 ⟨h.order, pairwise_singleton _ _, by simpa using hlast⟩
      · intro id
        have honce := once_succ h.once id
        simp only [map_append, map_cons, map_nil, count_append, count_singleton, beq_iff_eq]
        omega

theorem Accounts.release (h : Accounts budget s) (id : ℕ) : Accounts budget (s.release budget id) := by
  unfold St.release
  split
  · exact h
  · next r hr =>
    have hmem : r ∈ s.live := mem_of_find?_eq_some hr
    have hleft : s.inflight - r.bytes = size (s.live.erase r) := by
      have hsize := size_erase hmem
      have hreserved := h.reserved
      omega
    have hqueue : _ = s.waiters := @admitted_append budget (s.inflight - r.bytes) s.waiters
    dsimp only
    obtain ⟨out, hout⟩ : ∃ out, out = admitted budget (s.inflight - r.bytes) s.waiters := ⟨_, rfl⟩
    rw [← hout] at hqueue ⊢
    have hfilter : ((out.1.map fun w => (w.id, true)).filter (·.2)).map (·.1) = out.1.map (·.id) := by
      simp [filter_map, Function.comp_def]
    refine ⟨?_, ?_, ?_, ?_⟩
    · rw [size_append, hleft]
    · have halone : Alone budget s.live := fun hover => h.alone (h.reserved ▸ hover)
      have hnext := (halone.erase hmem).admitted s.waiters
      rw [← hleft, ← hout] at hnext
      intro hover
      apply hnext
      rwa [size_append, ← hleft]
    · rw [filter_append, map_append, hfilter, append_assoc, ← map_append, hqueue]
      exact h.order
    · intro id'
      have honce := h.once id'
      rw [← hqueue, map_append, count_append] at honce
      rw [map_append, count_append, map_map]
      change (s.answers.map (·.1)).count id' + (out.1.map (·.id)).count id' + (out.2.map (·.id)).count id' = _
      dsimp only
      omega

theorem Accounts.timeout (h : Accounts budget s) (id : ℕ) : Accounts budget (s.timeout id) := by
  unfold St.timeout
  split
  · exact h
  · next w hw =>
    have hmem : w ∈ s.waiters := mem_of_find?_eq_some hw
    have hid : w.id = id := by simpa using find?_some hw
    refine ⟨h.reserved, h.alone, ?_, ?_⟩
    · have hsub : ((s.waiters.erase w).map (·.id)).Sublist (s.waiters.map (·.id)) := erase_sublist.map _
      simpa using h.order.sublist ((List.Sublist.refl _).append hsub)
    · intro id'
      have honce := h.once id'
      have hcount : (s.waiters.map (·.id)).count id' = ((w :: s.waiters.erase w).map (·.id)).count id' :=
        ((perm_cons_erase hmem).map Waiter.id).count_eq id'
      rw [hcount, map_cons, count_cons, hid] at honce
      rw [map_append, count_append, map_singleton, count_singleton]
      dsimp only
      omega

theorem accounts_step (s : St) (a : Action) (h : Accounts budget s) : Accounts budget (step budget maxQueue s a) := by
  cases a with
  | acquire bytes => exact h.acquire bytes
  | release id => exact h.release id
  | timeout id => exact h.timeout id

theorem accounts_init : Accounts budget {} := ⟨rfl, by simp, by simp, by simp⟩

theorem accounts_run (as : List Action) : Accounts budget (run budget maxQueue {} as) :=
  Machine.run_inv_all (Accounts budget) accounts_step accounts_init

/-- a step leaves no room unused exactly if it is no timeout that makes room -/
theorem headWaits_step (s : St) (a : Action) (h : Accounts budget s) (hs : HeadWaits budget s) :
    HeadWaits budget (step budget maxQueue s a) ↔ NoRoomBehind budget s a := by
  cases a with
  | acquire bytes =>
    refine iff_of_true ?_ trivial
    change HeadWaits budget (s.acquire budget maxQueue bytes)
    unfold St.acquire
    split
    · next hgrant =>
      unfold HeadWaits
      simp [hgrant.1]
    · next hwait =>
      split
      · exact hs
      · cases hqueue : s.waiters with
        | nil =>
          have hnot : fits budget s.inflight bytes = false := by simpa [hqueue] using hwait
          simpa [HeadWaits] using hnot
        | cons w ws =>
          have hhead := hs w (by simp [hqueue])
          simpa [HeadWaits] using hhead
  | release id =>
    refine iff_of_true ?_ trivial
    change HeadWaits budget (s.release budget id)
    unfold St.release
    split
    · exact hs
    · exact admitted_head _ _
  | timeout id =>
    change HeadWaits budget (s.timeout id) ↔ _
    unfold St.timeout NoRoomBehind
    cases hqueue : s.waiters with
    | nil => simp [HeadWaits, hqueue]
    | cons w ws =>
      by_cases hid : w.id = id
      · rw [find?_cons_of_pos (by simpa using hid)]
        cases ws with
        | nil => simp [HeadWaits]
        | cons w' ws => simp [HeadWaits, hid]
      · -- somebody else leaves: the head is as it was
        have hhead := hs w (by simp [hqueue])
        rw [find?_cons_of_neg (by simpa using hid)]
        cases hfound : ws.find? (·.id = id) with
        | none => cases ws <;> simp [HeadWaits, hid, hqueue, hhead]
        | some v =>
          have hne : w ≠ v := by
            rintro rfl
            exact hid (by simpa using find?_some hfound)
          dsimp only
          rw [erase_cons_tail (by simpa using hne)]
          cases ws <;> simp [HeadWaits, hid, hhead]

end

/-- **No upload waits while there is room.** In every run the accounts are right, and the first waiter does not fit
exactly if no waiter's time is up at the head of the queue before one that fits. -/
theorem head_waits_iff (budget maxQueue : ℕ) (as : List Action) :
    Machine.Guarded (step budget maxQueue) (NoRoomBehind budget) {} as ↔
      ∀ n, Accounts budget (run budget maxQueue {} (as.take n)) ∧
        HeadWaits budget (run budget maxQueue {} (as.take n)) := by
  have hinit : Accounts budget {} := accounts_init
  have hempty : HeadWaits budget {} := by simp [HeadWaits]
  have hstep : ∀ s a, Accounts budget s → HeadWaits budget s →
      (HeadWaits budget (step budget maxQueue s a) ↔ NoRoomBehind budget s a) := headWaits_step
  have hguarded := Machine.guarded_iff accounts_step hstep hinit hempty as
  rw [hguarded]
  exact forall_congr' fun n => (and_iff_right (accounts_run _)).symm

section Runs

/-- of ten bytes six are taken; an upload of eight and one of two wait, and the first gives up -/
def leaving : List Action := [.acquire 6, .acquire 8, .acquire 2, .timeout 1]

/-- the upload of two bytes waits while there is room for it -/
theorem fitting_upload_waits : ¬ (Accounts 10 (run 10 MAX_UPLOAD_QUEUE {} leaving) ∧
    HeadWaits 10 (run 10 MAX_UPLOAD_QUEUE {} leaving)) := by
  intro h
  exact absurd h.2 (by decide)

end Runs

end Baalda.ByteBudget
