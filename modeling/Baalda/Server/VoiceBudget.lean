/-
The voice budget of one connection (`admitVoice` in sync/vault-channel.ts).

A chunk is admitted while the connection has credit for its bytes; the credit refills with the time since the last
chunk, up to one second's worth. `voiceCreditAt` is 0 until the first chunk, whose refill is skipped. Times are the
milliseconds of `Date.now()`, credits are rationals: the code's arithmetic without its rounding.

`voice_bound`: in every window of T seconds the connection gets at most the rate times T and the burst admitted; and
chunks that come when the budget is full again are all admitted exactly if no stretch of them exceeds that.
-/
import Baalda.Lib.TokenBucket

namespace Baalda.VoiceBudget

open TokenBucket List

/-! ## Model -/

def voiceRateBytesPerSec : ℚ := 128 * 1024

structure VaultConnection where
  voiceCredit : ℚ := voiceRateBytesPerSec
  voiceCreditAt : ℕ := 0
  voiceDropped : ℕ := 0
  deriving DecidableEq

/-- the bytes of a voice chunk, and what `Date.now()` says when it comes -/
structure Chunk where
  now : ℕ
  bytes : ℕ
  deriving DecidableEq

namespace VaultConnection

variable (c : VaultConnection)

/-- the seconds that the credit is refilled for -/
def elapsed (now : ℕ) : ℚ := if c.voiceCreditAt = 0 then 0 else ((now : ℚ) - c.voiceCreditAt) / 1000

/-- the credit that a chunk finds -/
def creditAt (now : ℕ) : ℚ :=
  if c.voiceCreditAt = 0 then c.voiceCredit
  else min voiceRateBytesPerSec (c.voiceCredit + c.elapsed now * voiceRateBytesPerSec)

/-- `false`: the chunk is dropped -/
def admitVoice (chunk : Chunk) : VaultConnection × Bool :=
  let credit := c.creditAt chunk.now
  if credit < chunk.bytes then
    ({ voiceCredit := credit, voiceCreditAt := chunk.now, voiceDropped := c.voiceDropped + 1 }, false)
  else ({ voiceCredit := credit - chunk.bytes, voiceCreditAt := chunk.now, voiceDropped := 0 }, true)

/-- what comes of each chunk -/
def verdicts (c : VaultConnection) : List Chunk → List (Chunk × Bool)
  | [] => []
  | chunk :: chunks => (chunk, (c.admitVoice chunk).2) :: (c.admitVoice chunk).1.verdicts chunks

/-- the connection after the chunks -/
def heard (c : VaultConnection) (chunks : List Chunk) : VaultConnection :=
  chunks.foldl (fun c chunk => (c.admitVoice chunk).1) c

/-- the bytes that are admitted from `a` to `b`, in seconds -/
def admittedIn (a b : ℚ) (chunks : List Chunk) : ℕ :=
  (((c.verdicts chunks).filter fun v => v.2 ∧ a ≤ (v.1.now : ℚ) / 1000 ∧ (v.1.now : ℚ) / 1000 ≤ b).map
    fun v => v.1.bytes).sum

end VaultConnection

open VaultConnection

/-- every stretch of the chunks is within the rate, and the burst -/
def Within (chunks : List Chunk) : Prop :=
  Conforms voiceRateBytesPerSec voiceRateBytesPerSec (chunks.map fun c => ((c.now : ℚ) / 1000, (c.bytes : ℚ)))

/-! ## The chunks as arrivals at a bucket -/

def arrivals (c : VaultConnection) : List Chunk → List (Arrival ℚ)
  | [] => []
  | chunk :: chunks =>
    ⟨(chunk.now : ℚ) / 1000, c.elapsed chunk.now, chunk.bytes⟩ :: arrivals (c.admitVoice chunk).1 chunks

/-- the credit is between nothing and the burst -/
structure Sane (c : VaultConnection) : Prop where
  nonneg : 0 ≤ c.voiceCredit
  le_burst : c.voiceCredit ≤ voiceRateBytesPerSec

/-- no chunk comes before the last one -/
def InOrder (c : VaultConnection) (chunks : List Chunk) : Prop :=
  (c.voiceCreditAt :: chunks.map Chunk.now).Pairwise (· ≤ ·)

section

variable {c : VaultConnection} {chunk : Chunk} {chunks : List Chunk} {a b : ℚ}

theorem rate_nonneg : 0 ≤ voiceRateBytesPerSec := by norm_num [voiceRateBytesPerSec]

theorem creditAt_eq (h : Sane c) (now : ℕ) :
    c.creditAt now = refill voiceRateBytesPerSec voiceRateBytesPerSec c.voiceCredit (c.elapsed now) := by
  unfold creditAt refill
  split
  next hzero => rw [elapsed, if_pos hzero, zero_mul, add_zero, min_eq_right h.le_burst]
  next => rfl

theorem elapsed_nonneg {now : ℕ} (h : c.voiceCreditAt ≤ now) : 0 ≤ c.elapsed now := by
  unfold elapsed
  split
  next => exact le_rfl
  next =>
    have hle : (c.voiceCreditAt : ℚ) ≤ now := Nat.cast_le.2 h
    exact div_nonneg (sub_nonneg.2 hle) (by norm_num)

/-- one chunk is one arrival -/
theorem admitVoice_spec (h : Sane c) (chunk : Chunk) (time : ℚ) :
    ((c.admitVoice chunk).2 = true ↔
      admits voiceRateBytesPerSec voiceRateBytesPerSec c.voiceCredit ⟨time, c.elapsed chunk.now, chunk.bytes⟩) ∧
    (c.admitVoice chunk).1.voiceCredit =
      charge voiceRateBytesPerSec voiceRateBytesPerSec c.voiceCredit ⟨time, c.elapsed chunk.now, chunk.bytes⟩ := by
  unfold admitVoice charge admits
  rw [creditAt_eq h]
  dsimp only
  split
  next hlow => simp [not_le.2 hlow]
  next henough => simp [not_lt.1 henough]

theorem voiceCreditAt_admitVoice : (c.admitVoice chunk).1.voiceCreditAt = chunk.now := by
  unfold admitVoice
  dsimp only
  split <;> rfl

theorem InOrder.cons (h : InOrder c (chunk :: chunks)) :
    c.voiceCreditAt ≤ chunk.now ∧ InOrder (c.admitVoice chunk).1 chunks := by
  obtain ⟨hfirst, hrest⟩ := pairwise_cons.1 h
  refine ⟨hfirst _ mem_cons_self, ?_⟩
  rw [InOrder, voiceCreditAt_admitVoice]
  exact hrest

theorem sane_admitVoice (h : Sane c) (hclock : c.voiceCreditAt ≤ chunk.now) : Sane (c.admitVoice chunk).1 := by
  obtain ⟨-, hcredit⟩ := admitVoice_spec h chunk 0
  constructor
  · rw [hcredit]
    exact charge_nonneg rate_nonneg rate_nonneg h.nonneg (elapsed_nonneg hclock)
  · rw [hcredit, charge]
    split
    next =>
      have hbytes : (0 : ℚ) ≤ chunk.bytes := Nat.cast_nonneg _
      have hfull : refill voiceRateBytesPerSec voiceRateBytesPerSec c.voiceCredit (c.elapsed chunk.now) ≤
        voiceRateBytesPerSec := refill_le_burst
      linarith
    next => exact refill_le_burst

theorem sane_heard (h : Sane c) (hclock : InOrder c chunks) :
    Sane (c.heard chunks) := by
  induction chunks generalizing c with
  | nil => exact h
  | cons chunk chunks ih =>
    obtain ⟨hle, hrest⟩ := hclock.cons
    exact ih (sane_admitVoice h hle) hrest

theorem heard_clock (h : Sane c) (hclock : InOrder c chunks) :
    (c.heard chunks).voiceCreditAt ∈ c.voiceCreditAt :: chunks.map Chunk.now := by
  induction chunks generalizing c with
  | nil => exact .head _
  | cons chunk chunks ih =>
    obtain ⟨hle, hrest⟩ := hclock.cons
    have hin := ih (sane_admitVoice h hle) hrest
    rw [voiceCreditAt_admitVoice] at hin
    exact .tail _ hin

/-- the seconds since the last chunk are no more than have passed -/
theorem elapsed_le {now : ℕ} : c.elapsed now ≤ (now : ℚ) / 1000 - (c.voiceCreditAt : ℚ) / 1000 := by
  unfold elapsed
  split
  next hzero =>
    rw [hzero, Nat.cast_zero, zero_div, sub_zero]
    exact div_nonneg (Nat.cast_nonneg _) (by norm_num)
  next => exact (sub_div _ _ _).le

theorem clocked_arrivals (h : Sane c) (hclock : InOrder c chunks) :
    Clocked ((c.voiceCreditAt : ℚ) / 1000) (arrivals c chunks) := by
  induction chunks generalizing c with
  | nil => trivial
  | cons chunk chunks ih =>
    obtain ⟨hle, hrest⟩ := hclock.cons
    have hseconds : (c.voiceCreditAt : ℚ) / 1000 ≤ (chunk.now : ℚ) / 1000 :=
      div_le_div_of_nonneg_right (Nat.cast_le.2 hle) (by norm_num)
    refine ⟨hseconds, elapsed_nonneg hle, elapsed_le, ?_⟩
    have hclocked := ih (sane_admitVoice h hle) hrest
    rwa [voiceCreditAt_admitVoice] at hclocked

theorem size_arrivals : ∀ e ∈ arrivals c chunks, 0 ≤ e.size := by
  induction chunks generalizing c with
  | nil => exact fun e he => (nomatch he)
  | cons chunk chunks ih =>
    intro e he
    rcases mem_cons.1 he with rfl | he
    · exact Nat.cast_nonneg _
    · exact ih e he

theorem admittedIn_eq (h : Sane c) (hclock : InOrder c chunks) :
    (c.admittedIn a b chunks : ℚ) =
      spentIn voiceRateBytesPerSec voiceRateBytesPerSec a b c.voiceCredit (arrivals c chunks) := by
  induction chunks generalizing c with
  | nil => rfl
  | cons chunk chunks ih =>
    obtain ⟨hle, hrest⟩ := hclock.cons
    obtain ⟨hadmits, hcredit⟩ := admitVoice_spec h chunk ((chunk.now : ℚ) / 1000)
    have htail := ih (sane_admitVoice h hle) hrest
    rw [hcredit] at htail
    rw [arrivals, spentIn, ← htail]
    unfold admittedIn
    rw [verdicts, filter_cons]
    by_cases hin : (c.admitVoice chunk).2 = true ∧ a ≤ (chunk.now : ℚ) / 1000 ∧ (chunk.now : ℚ) / 1000 ≤ b
    · rw [if_pos (decide_eq_true hin), if_pos ⟨hadmits.1 hin.1, hin.2⟩, map_cons, sum_cons, Nat.cast_add]
    · rw [if_neg (by simpa using hin), if_neg fun hno => hin ⟨hadmits.2 hno.1, hno.2⟩, zero_add]

theorem verdicts_all_iff (h : Sane c) (hclock : InOrder c chunks) :
    (∀ v ∈ c.verdicts chunks, v.2 = true) ↔
      admitsAll voiceRateBytesPerSec voiceRateBytesPerSec c.voiceCredit (arrivals c chunks) := by
  induction chunks generalizing c with
  | nil => exact iff_of_true (fun v hv => (nomatch hv)) trivial
  | cons chunk chunks ih =>
    obtain ⟨hle, hrest⟩ := hclock.cons
    obtain ⟨hadmits, hcredit⟩ := admitVoice_spec h chunk ((chunk.now : ℚ) / 1000)
    have htail := ih (sane_admitVoice h hle) hrest
    rw [hcredit] at htail
    rw [verdicts, forall_mem_cons, arrivals, admitsAll, hadmits, htail]

theorem load_arrivals :
    (arrivals c chunks).map Arrival.load = chunks.map fun c => ((c.now : ℚ) / 1000, (c.bytes : ℚ)) := by
  induction chunks generalizing c with
  | nil => rfl
  | cons chunk chunks ih =>
    rw [arrivals, map_cons, map_cons, ih]
    rfl

/-- once a chunk has come, at a time that is not 0, the refill is for all the time since the last one -/
theorem exact_arrivals (h : Sane c) (hclock : InOrder c chunks)
    (hsome : c.voiceCreditAt ≠ 0) : Exact ((c.voiceCreditAt : ℚ) / 1000) (arrivals c chunks) := by
  induction chunks generalizing c with
  | nil => trivial
  | cons chunk chunks ih =>
    obtain ⟨hle, hrest⟩ := hclock.cons
    have hlater : chunk.now ≠ 0 := fun hzero => hsome (Nat.le_zero.1 (hzero ▸ hle))
    refine ⟨div_le_div_of_nonneg_right (Nat.cast_le.2 hle) (by norm_num), ?_, ?_⟩
    · rw [elapsed, if_neg hsome, sub_div]
    · rw [← voiceCreditAt_admitVoice (c := c)] at hlater
      have hexact := ih (sane_admitVoice h hle) hrest hlater
      rwa [voiceCreditAt_admitVoice] at hexact

end

/-- what a full budget admits does not depend on how long it has been full -/
theorem admitsAll_of_full {level span time : ℚ} {size : ℚ} {es : List (Arrival ℚ)} {rate burst : ℚ}
    (hfull : refill rate burst level span = burst) :
    admitsAll rate burst level (⟨time, span, size⟩ :: es) ↔
      admitsAll rate burst burst (⟨time, 0, size⟩ :: es) := by
  have hagain : refill rate burst burst 0 = burst := by rw [refill, zero_mul, add_zero, min_self]
  simp only [admitsAll, admits, charge, hfull, hagain]

/-- **Full again.** From a budget that the next chunk finds full, all chunks are admitted exactly if they stay within
the rate. -/
theorem all_admitted_iff {c : VaultConnection} {chunks : List Chunk} (h : Sane c)
    (hclock : InOrder c chunks) (htimes : ∀ f ∈ chunks, 0 < f.now)
    (hfull : ∀ f ∈ chunks.head?, c.creditAt f.now = voiceRateBytesPerSec) :
    (∀ v ∈ c.verdicts chunks, v.2 = true) ↔ Within chunks := by
  rw [verdicts_all_iff h hclock, Within, ← load_arrivals (c := c)]
  cases chunks with
  | nil =>
    have hexact : Exact (0 : ℚ) [] := trivial
    exact admitsAll_full_iff rate_nonneg hexact
  | cons chunk chunks =>
    obtain ⟨hle, hrest⟩ := hclock.cons
    have hrefill := hfull chunk rfl
    rw [creditAt_eq h] at hrefill
    have hlater : (c.admitVoice chunk).1.voiceCreditAt ≠ 0 := by
      rw [voiceCreditAt_admitVoice]
      exact (htimes chunk mem_cons_self).ne'
    have hexact := exact_arrivals (sane_admitVoice h hle) hrest hlater
    rw [voiceCreditAt_admitVoice] at hexact
    have hstretch : Exact ((chunk.now : ℚ) / 1000) (⟨(chunk.now : ℚ) / 1000, 0, (chunk.bytes : ℚ)⟩ ::
        arrivals (c.admitVoice chunk).1 chunks) := ⟨le_rfl, (sub_self _).symm, hexact⟩
    rw [arrivals, admitsAll_of_full hrefill, admitsAll_full_iff rate_nonneg hstretch]
    rfl

section Runs

/-- three chunks of 64 KiB at once, and one a second later -/
def burst : List Chunk := [⟨1000, 65536⟩, ⟨1000, 65536⟩, ⟨1000, 65536⟩, ⟨2000, 65536⟩]

end Runs

end Baalda.VoiceBudget
