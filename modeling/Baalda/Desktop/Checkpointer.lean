/-
The checkpointer of `.context/config.json` (`apps/desktop/src/lib/sync/checkpoint.ts`): one writer that is told of work
(`touch`) and writes the caller's state once a batch is full or a window closes.

A flush that finds work appends a run to the chain; one that finds none waits for the last run. The first run of the
chain starts (it takes its snapshot), settles (written or failed) and resolves, which is when the flushes that wait for
it return and the next run may start. Between these moments anything may be called. A snapshot is told by how many
touches came before it.

- `Pays`: writes never overlap, a flush that resolves was saved or leaves the checkpointer dirty, and what is dirty has
  a timer armed or a write queued or running.
- `Allowed`: no write ends dirty with neither a timer nor a further run, and no flush takes the dirty flag that a failed
  write has set before that write has resolved.
`inv_step`: what every step keeps. `pays_step`: a step keeps `Pays` exactly where it is allowed.
-/
import Mathlib.Tactic
import Baalda.Lib.Machine

namespace Baalda.Checkpointer

open List

inductive Stage where
  | queued
  | writing (value : ℕ)
  | ended
  deriving DecidableEq

/-- the first run of the chain, with the touches that came before the last flush that waits for it -/
structure Run where
  upTo : ℕ
  stage : Stage

structure St where
  everyItems : ℤ
  everyMs : ℤ
  everyMsBulk : ℤ
  bulk : Bool := false
  pending : ℤ := 0
  dirty : Bool := false
  /-- the window of the armed timer -/
  timer : Option ℤ := none
  run : Option Run := none
  /-- the runs behind the first one -/
  queue : List ℕ := []
  writes : ℕ := 0
  /-- writes that have begun and not ended -/
  active : ℕ := 0
  /-- touches so far -/
  made : ℕ := 0
  /-- touches that a value contains whose write succeeded -/
  saved : ℕ := 0

def init (everyItems everyMs everyMsBulk : Option ℤ) : St :=
  { everyItems := max 1 (everyItems.getD 25), everyMs := max 0 (everyMs.getD 750),
    everyMsBulk := max 0 (everyMsBulk.getD 3000) }

inductive Event where
  | touch (n : ℤ)
  | flush
  | setEveryItems (n : ℤ)
  | setBulk (active : Bool)
  | fires
  | starts
  | settles (ok : Bool)
  | resolves

namespace St

variable (s : St)

/-- `chain = chain.then(…)` -/
def append : St := match s.run with
  | none => { s with run := some ⟨s.made, .queued⟩ }
  | some _ => { s with queue := s.queue ++ [s.made] }

/-- one more flush waits for the last run -/
def awaits : St :=
  if s.queue = [] then { s with run := s.run.map fun r => { r with upTo := s.made } }
  else { s with queue := s.queue.dropLast ++ [s.made] }

def flush : St :=
  if s.dirty then { s with timer := none, dirty := false, pending := 0 }.append else { s with timer := none }.awaits

def touched (n : ℤ) : St := { s with pending := s.pending + n, dirty := true, made := s.made + 1 }

def touch (n : ℤ) : St :=
  if s.everyItems ≤ s.pending + n then (s.touched n).flush
  else { s.touched n with timer := some (s.timer.getD (if s.bulk then s.everyMsBulk else s.everyMs)) }

def setEveryItems (n : ℤ) : St :=
  if max 1 n ≤ s.pending then { s with everyItems := max 1 n }.flush else { s with everyItems := max 1 n }

def fires : St := if s.timer.isSome then { s with timer := none }.flush else s

/-- the first run takes its snapshot -/
def starts : St := match s.run with
  | some ⟨upTo, .queued⟩ => { s with run := some ⟨upTo, .writing s.made⟩, active := s.active + 1 }
  | _ => s

def settles (ok : Bool) : St := match s.run with
  | some ⟨upTo, .writing value⟩ =>
    let s' := { s with run := some ⟨upTo, .ended⟩, active := s.active - 1 }
    if ok then { s' with saved := max s.saved value, writes := s.writes + 1 } else { s' with dirty := true }
  | _ => s

def resolves : St := match s.run with
  | some ⟨_, .ended⟩ => { s with run := s.queue.head?.map (⟨·, .queued⟩), queue := s.queue.tail }
  | _ => s

end St

def step (s : St) : Event → St
  | .touch n => s.touch n
  | .flush => s.flush
  | .setEveryItems n => s.setEveryItems n
  | .setBulk active => { s with bulk := active }
  | .fires => s.fires
  | .starts => s.starts
  | .settles ok => s.settles ok
  | .resolves => s.resolves

/-- what the checkpointer owes -/
structure Pays (s : St) : Prop where
  single : s.active ≤ 1
  /-- a flush whose run is over resolves in this state -/
  ended : ∀ upTo, s.run = some ⟨upTo, .ended⟩ → upTo ≤ s.saved ∨ s.dirty
  /-- a flush that finds no run resolves at once -/
  idle : s.run = none → s.made ≤ s.saved ∨ s.dirty
  owed : s.dirty → s.timer.isSome ∨ s.queue ≠ [] ∨ ∃ upTo stage, s.run = some ⟨upTo, stage⟩ ∧ stage ≠ .ended

/-- the event ends in a flush that takes the dirty flag -/
def Takes (s : St) : Event → Prop
  | .touch n => s.everyItems ≤ s.pending + n
  | .flush => s.dirty
  | .setEveryItems n => max 1 n ≤ s.pending ∧ s.dirty
  | .fires => s.timer.isSome ∧ s.dirty
  | _ => False

structure Allowed (s : St) (e : Event) : Prop where
  ended : Takes s e → ∀ upTo, s.run = some ⟨upTo, .ended⟩ → upTo ≤ s.saved
  owed : ∀ ok, e = .settles ok → ∀ upTo value, s.run = some ⟨upTo, .writing value⟩ → s.dirty ∨ ok = false →
    s.timer.isSome ∨ s.queue ≠ []

/-! ## What every step keeps -/

structure Inv (s : St) : Prop where
  saved : s.saved ≤ s.made
  /-- a run that waits behind is behind another one -/
  idle : s.run = none → s.queue = [] ∧ s.active = 0
  queue : ∀ upTo ∈ s.queue, upTo ≤ s.made
  upTo : ∀ upTo stage, s.run = some ⟨upTo, stage⟩ → upTo ≤ s.made
  quiet : ∀ upTo stage, s.run = some ⟨upTo, stage⟩ → stage = .queued ∨ stage = .ended → s.active = 0
  writing : ∀ upTo value, s.run = some ⟨upTo, .writing value⟩ →
    s.active = 1 ∧ upTo ≤ value ∧ s.saved ≤ value ∧ value ≤ s.made
  /-- the last touch is saved, or about to be -/
  cover : s.dirty ∨ s.made ≤ s.saved ∨ s.queue ≠ [] ∨ (∃ upTo, s.run = some ⟨upTo, .queued⟩) ∨
    ∃ upTo value, s.run = some ⟨upTo, .writing value⟩ ∧ s.made ≤ value

variable {s : St}

theorem inv_flush (h : Inv s) : Inv s.flush := by
  obtain ⟨hsaved, hidle, hqueue, hupTo, hquiet, hwriting, hcover⟩ := h
  rw [St.flush]
  split
  next hd =>
    rcases hr : s.run with - | ⟨upTo, stage⟩
    · simp only [St.append]
      constructor <;> grind
    · simp only [St.append]
      constructor <;> grind [append_eq_nil_iff]
  next hd =>
    rw [St.awaits]
    split
    next hq =>
      rcases hr : s.run with - | ⟨upTo, stage | value | -⟩ <;> constructor <;> grind
    next hq =>
      have hmem : ∀ upTo ∈ s.queue.dropLast, upTo ∈ s.queue := fun _ => mem_of_mem_dropLast
      constructor <;> grind [append_eq_nil_iff]

theorem inv_touched (h : Inv s) (n : ℤ) : Inv (s.touched n) := by
  obtain ⟨hsaved, hidle, hqueue, hupTo, hquiet, hwriting, -⟩ := h
  rw [St.touched]
  constructor <;> grind

theorem inv_setEveryItems (h : Inv s) (n : ℤ) : Inv { s with everyItems := max 1 n } :=
  ⟨h.saved, h.idle, h.queue, h.upTo, h.quiet, h.writing, h.cover⟩

theorem inv_step (h : Inv s) (e : Event) : Inv (step s e) := by
  cases e with
  | touch n =>
    have htouched := inv_touched h n
    simp only [step, St.touch]
    split
    next => exact inv_flush htouched
    next => exact 
      ⟨htouched.saved, htouched.idle, htouched.queue, htouched.upTo, htouched.quiet, htouched.writing, .inl rfl⟩
  | flush => exact inv_flush h
  | setEveryItems n =>
    simp only [step, St.setEveryItems]
    split
    next => exact inv_flush (inv_setEveryItems h n)
    next => exact inv_setEveryItems h n
  | setBulk active => exact ⟨h.saved, h.idle, h.queue, h.upTo, h.quiet, h.writing, h.cover⟩
  | fires =>
    simp only [step, St.fires]
    split
    next => exact inv_flush ⟨h.saved, h.idle, h.queue, h.upTo, h.quiet, h.writing, h.cover⟩
    next => exact h
  | starts =>
    obtain ⟨hsaved, hidle, hqueue, hupTo, hquiet, hwriting, hcover⟩ := h
    simp only [step, St.starts]
    split
    next upTo hr => constructor <;> grind
    next => constructor <;> assumption
  | settles ok =>
    obtain ⟨hsaved, hidle, hqueue, hupTo, hquiet, hwriting, hcover⟩ := h
    simp only [step, St.settles]
    split
    next upTo value hr => cases ok <;> constructor <;> grind
    next => constructor <;> assumption
  | resolves =>
    obtain ⟨hsaved, hidle, hqueue, hupTo, hquiet, hwriting, hcover⟩ := h
    simp only [step, St.resolves]
    split
    next upTo hr => rcases hq : s.queue with - | ⟨next, rest⟩ <;> constructor <;> grind
    next => constructor <;> assumption

/-! ## What a step owes -/

/-- a flush pays exactly where the dirty flag it takes is not that of a write about to resolve -/
theorem pays_flush (h : Inv s) (hp : s.active ≤ 1)
    (hended : ∀ upTo, s.run = some ⟨upTo, .ended⟩ → upTo ≤ s.saved ∨ s.dirty)
    (hidle : s.run = none → s.made ≤ s.saved ∨ s.dirty) :
    Pays s.flush ↔ (s.dirty → ∀ upTo, s.run = some ⟨upTo, .ended⟩ → upTo ≤ s.saved) := by
  obtain ⟨-, hnone, -, -, -, -, hcover⟩ := h
  rw [St.flush]
  split
  next hd =>
    rcases hr : s.run with - | ⟨upTo, stage⟩
    · simp only [St.append]
      constructor
      · grind
      · intro _
        constructor <;> grind
    · simp only [St.append]
      constructor
      · rintro ⟨-, hafter, -, -⟩
        grind
      · intro _
        constructor <;> grind
  next hd =>
    refine iff_of_true ?_ fun h => absurd h hd
    rw [St.awaits]
    split
    next hq => rcases hr : s.run with - | ⟨upTo, stage | value | -⟩ <;> constructor <;> grind
    next hq => constructor <;> grind

theorem allowed_iff {e : Event} (he : ∀ ok, e ≠ .settles ok) :
    Allowed s e ↔ (Takes s e → ∀ upTo, s.run = some ⟨upTo, .ended⟩ → upTo ≤ s.saved) :=
  ⟨fun h => h.ended, fun h => ⟨h, fun ok hok => absurd hok (he ok)⟩⟩

theorem pays_step (h : Inv s) (hp : Pays s) (e : Event) : Pays (step s e) ↔ Allowed s e := by
  obtain ⟨hsingle, hended, hidle, howed⟩ := hp
  cases e with
  | touch n =>
    have htouched : Inv (s.touched n) := inv_touched h n
    rw [allowed_iff fun _ => Event.noConfusion, step, St.touch]
    split
    next hfull =>
      rw [pays_flush htouched hsingle (fun _ _ => .inr rfl) fun _ => .inr rfl]
      simp [Takes, hfull, St.touched]
    next hfull =>
      refine iff_of_true ⟨hsingle, fun _ _ => .inr rfl, fun _ => .inr rfl, fun _ => .inl rfl⟩ ?_
      exact fun htakes => absurd htakes hfull
  | flush =>
    rw [allowed_iff fun _ => Event.noConfusion]
    exact pays_flush h hsingle hended hidle
  | setEveryItems n =>
    rw [allowed_iff fun _ => Event.noConfusion, step, St.setEveryItems]
    split
    next hfull =>
      rw [pays_flush (inv_setEveryItems h n) hsingle hended hidle]
      simp [Takes, hfull]
    next hfull => exact iff_of_true ⟨hsingle, hended, hidle, howed⟩ fun htakes => absurd htakes.1 hfull
  | setBulk active =>
    rw [allowed_iff fun _ => Event.noConfusion]
    exact iff_of_true ⟨hsingle, hended, hidle, howed⟩ False.elim
  | fires =>
    rw [allowed_iff fun _ => Event.noConfusion, step, St.fires]
    split
    next harmed =>
      have hfired : Inv { s with timer := none } := ⟨h.saved, h.idle, h.queue, h.upTo, h.quiet, h.writing, h.cover⟩
      refine (pays_flush hfired hsingle hended hidle).trans ?_
      simp [Takes, harmed]
    next harmed => exact iff_of_true ⟨hsingle, hended, hidle, howed⟩ fun htakes => absurd htakes.1 harmed
  | starts =>
    rw [allowed_iff fun _ => Event.noConfusion]
    refine iff_of_true ?_ False.elim
    obtain ⟨-, -, -, -, hquiet, -, -⟩ := h
    simp only [step, St.starts]
    split
    next upTo hr => constructor <;> grind
    next => exact ⟨hsingle, hended, hidle, howed⟩
  | settles ok =>
    obtain ⟨-, -, -, -, -, hwriting, -⟩ := h
    simp only [step, St.settles]
    split
    next upTo value hr =>
      constructor
      · rintro ⟨-, -, -, howed'⟩
        constructor <;> cases ok <;> grind [Takes]
      · rintro ⟨-, howes⟩
        cases ok <;> constructor <;> grind
    next hno =>
      refine iff_of_true ⟨hsingle, hended, hidle, howed⟩ ⟨False.elim, ?_⟩
      exact fun _ _ upTo value hr => absurd hr (hno _ _)
  | resolves =>
    rw [allowed_iff fun _ => Event.noConfusion]
    refine iff_of_true ?_ False.elim
    obtain ⟨-, -, -, -, -, -, hcover⟩ := h
    simp only [step, St.resolves]
    split
    next upTo hr =>
      rcases hq : s.queue with - | ⟨next, rest⟩
      · constructor <;> grind
      · refine ⟨hsingle, ?_, ?_, fun _ => .inr (.inr ⟨_, _, rfl, Stage.noConfusion⟩)⟩
        · rintro _ ⟨⟩
        · rintro ⟨⟩
    next => exact ⟨hsingle, hended, hidle, howed⟩

/-- **What it owes.** Along every run the checkpointer pays exactly where every step is allowed: no write ends dirty
with neither a timer armed nor a further run queued, and no flush takes the dirty flag that a failed write has set
before that write has resolved. -/
theorem checkpointer_pays (everyItems everyMs everyMsBulk : Option ℤ) (es : List Event) :
    Machine.Guarded step Allowed (init everyItems everyMs everyMsBulk) es ↔
      ∀ n, Pays (Machine.run step (init everyItems everyMs everyMsBulk) (es.take n)) := by
  refine Machine.guarded_iff (fun (s : St) e (h : Inv s) => inv_step h e) (fun _ e h hp => pays_step h hp e) ?_ ?_ es
  · constructor <;> simp [init]
  · constructor <;> simp [init]

/-- One touch, one flush, one write that fails: dirty, with no timer and nothing queued. -/
theorem failed_write_not_retried : ¬ ∀ (everyItems everyMs everyMsBulk : Option ℤ) (es : List Event),
    Pays (Machine.run step (init everyItems everyMs everyMsBulk) es) := by
  intro h
  rcases (h none none none [.touch 1, .flush, .starts, .settles false]).owed rfl with h | h | ⟨upTo, stage, h, hst⟩
  · cases h
  · exact h rfl
  · cases h
    exact hst rfl

end Baalda.Checkpointer
