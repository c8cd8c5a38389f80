/-
A batch push (`lib/sync/docBatchPush.ts DocBatchPusher.run`).

A pool of lanes prepares the items; `enqueue` packs the prepared ones into chunks; the chain of sends takes one chunk
after the other, each with its retries, and `settle` goes through a chunk item by item. Other lanes act between any two
awaits. Every call of a listener (`progress`, `markPushed`, `skip`) may throw; `onFailure` and `markAcked` are caught
where they are called. Nobody cancels. Each list of the answer holds the outcomes of its kind, in their order; an item
that ends in none of them is `unsent`. The loop of `awaitSendSlot` is left when few enough chunks are outstanding.

The model, what is to hold of it, and what its turns and updates do.
-/
import Baalda.Lib.Machine
import Baalda.Lib.Slots

namespace Baalda.BatchPusher

def BATCH_MAX_DOCS : ℕ := 100
def BATCH_MAX_DECODED_BYTES : ℕ := 4 * 1024 * 1024
def BULK_ITEM_MAX_BYTES : ℕ := 1024 * 1024
def MAX_NOTE_BYTES : ℕ := 10 * 1024 * 1024
def MAX_OUTSTANDING_CHUNKS : ℕ := 2

/-- of `withRetry` -/
def ATTEMPTS : ℕ := 3

/-! ## Calls of listeners -/

inductive DocSyncState where
  | queued | syncing | synced | error
deriving DecidableEq

/-- the listeners whose throw is not caught where they are called; `skip` has an action of its own -/
inductive Listener where
  | doc | item | markPushed
deriving DecidableEq

/-- what a failure says -/
inductive Reason where
  | openFailed | tooLarge | thrown | transport | noAnswer | unreadable | noReset | resetFailed | shrinkHeld | refused
deriving DecidableEq

inductive Outcome where
  | pushed
  | conflict
  | oversized
  /-- `denied` too, where the server refused the write -/
  | deferred (denied : Bool)
  | failed (reason : Reason)
  /-- settled without sending -/
  | unsent
deriving DecidableEq

inductive Call where
  | doc (state : DocSyncState)
  | item (ok : Bool)
  | markPushed
  /-- the item goes to a list of the answer -/
  | record (outcome : Outcome)
deriving DecidableEq

def Call.listener : Call → Option Listener
  | .doc _ => some .doc
  | .item _ => some .item
  | .markPushed => some .markPushed
  | .record _ => none

/-- the calls of a block up to the one that throws, and whether one does -/
def upTo (t : Option Listener) : List Call → List Call × Bool
  | [] => ([], false)
  | c :: cs => if t.isSome ∧ c.listener = t then ([c], true) else (c :: (upTo t cs).1, (upTo t cs).2)

/-- a throw inside `prepare`'s `try`, and one inside its `catch` -/
structure Throws where
  first : Option Listener := none
  second : Option Listener := none

/-- `fail` -/
def fail (reason : Reason) : List Call := [.record (.failed reason), .doc .error, .item false]

/-! ## The state -/

section

variable (D : Type*)

structure DocPushWork where
  docId : D
  serverEmpty : Bool
  ingestFromFile : Bool := false
  settledIfUnchanged : Bool := false
deriving DecidableEq

structure Prepared where
  /-- its place in the work list -/
  item : ℕ
  docId : D
  /-- `update.byteLength` -/
  bytes : ℕ
  seeded : Bool
deriving DecidableEq

end

inductive PushStatus where
  | applied | skipped | conflict | denied | tooLarge
  /-- any other -/
  | error (shrinkHeld : Bool)
deriving DecidableEq

structure DocPushResult (D : Type*) where
  docId : D
  status : PushStatus
deriving DecidableEq

/-- where `prepare` stands -/
inductive Stage where
  | queued
  /-- in `awaitSendSlot` -/
  | slot
  | ready
  | acquiring
  | ingesting
  | reading
  | seeding
  /-- in `finally` -/
  | releasing
  | finished
deriving DecidableEq

structure Item (D : Type*) where
  work : DocPushWork D
  stage : Stage := .queued
  /-- was the document empty when the file was asked for? -/
  localEmpty : Bool := false
deriving DecidableEq

inductive LinkStage (D : Type*) where
  | waiting
  | sending (attempt : ℕ)
  | settling (rest : List (Prepared D))
  | done
deriving DecidableEq

/-- one `then` of the send chain -/
structure Link (D : Type*) where
  chunk : List (Prepared D)
  stage : LinkStage D := .waiting
  /-- what the server answered, if it did -/
  answers : Option (List (DocPushResult D)) := none
deriving DecidableEq

/-- record: a file read for an item that the server called empty -/
structure FileRead where
  item : ℕ
  localEmpty : Bool
  bytes : Option ℕ
deriving DecidableEq

inductive Phase where
  | starting | packing | draining | returned | rejected
deriving DecidableEq

structure St (D : Type*) where
  items : List (Item D)
  phase : Phase := .starting
  pending : List (Prepared D) := []
  pendingBytes : ℕ := 0
  chain : List (Link D) := []
  /-- the lists of the answer, and what ends in none -/
  outcomes : List (ℕ × Outcome) := []
  /-- calls of `progress.doc` and `progress.item` -/
  badges : List (ℕ × DocSyncState) := []
  reports : List (ℕ × Bool) := []
  /-- calls of `markPushed` -/
  marked : List ℕ := []
  /-- `transportError` is set -/
  transportError : Bool := false
  fileReads : List FileRead := []
deriving DecidableEq

variable {D : Type*} [DecidableEq D]

def fresh (work : List (DocPushWork D)) : St D := { items := work.map fun w => { work := w } }

namespace St

variable (s : St D)

def perform (i : ℕ) : Call → St D
  | .doc state => { s with badges := s.badges ++ [(i, state)] }
  | .item ok => { s with reports := s.reports ++ [(i, ok)] }
  | .markPushed => { s with marked := s.marked ++ [i] }
  | .record outcome => { s with outcomes := s.outcomes ++ [(i, outcome)] }

def performs (i : ℕ) (calls : List Call) : St D := calls.foldl (fun s c => s.perform i c) s

def setItem (i : ℕ) (x : Item D) : St D := { s with items := s.items.set i x }

def setLink (k : ℕ) (l : Link D) : St D := { s with chain := s.chain.set k l }

def setPhase (phase : Phase) : St D := { s with phase := phase }

def reads (r : FileRead) : St D := { s with fileReads := s.fileReads ++ [r] }

/-- `outstanding` -/
def outstanding : ℕ := s.chain.countP fun l => l.stage ≠ .done

/-- lanes that have an item -/
def active : ℕ := s.items.countP fun x => x.stage ≠ .queued ∧ x.stage ≠ .finished

/-- the item, if it stands there -/
def at? (i : ℕ) (stage : Stage) : Option (Item D) := s.items[i]?.filter fun x => x.stage = stage

/-! ### `enqueue` -/

def flushPending : St D :=
  if s.pending = [] then s
  else { s with pending := [], pendingBytes := 0, chain := s.chain ++ [{ chunk := s.pending }] }

def push (p : Prepared D) : St D :=
  { s with pending := s.pending ++ [p], pendingBytes := s.pendingBytes + p.bytes }

def full : Bool := s.pending.length ≥ BATCH_MAX_DOCS || s.pendingBytes ≥ BATCH_MAX_DECODED_BYTES

def flushIf (c : Bool) : St D := if c then s.flushPending else s

def enqueue (p : Prepared D) : St D :=
  let before := s.flushIf (s.pending ≠ [] && (s.pending.length ≥ BATCH_MAX_DOCS ||
    s.pendingBytes + p.bytes > BATCH_MAX_DECODED_BYTES))
  (before.push p).flushIf (before.push p).full

end St

/-! ### `prepare` -/

/-- what one turn of `prepare` finds in the bridge -/
structure View where
  /-- `crdtBytes` -/
  stateBytes : ℕ
  /-- `serialize().length === 0` -/
  empty : Bool
  /-- `encodeStateAsUpdate(..).byteLength` -/
  updateBytes : ℕ

/-- how a turn of the `try` ends -/
inductive Turn where
  | awaits (stage : Stage)
  | readsFile (localEmpty : Bool)
  | stops (calls : List Call)
  | enqueues (bytes : ℕ) (seeded : Bool)
  /-- a call of the bridge throws -/
  | throws

/-- the end of the `try`, after the seed -/
def packTurn (seeded : Bool) (view : View) : Turn :=
  if !seeded && view.empty then .stops [.record (.deferred false), .item true]
  else if view.updateBytes > MAX_NOTE_BYTES then .stops (fail .tooLarge)
  else if view.updateBytes > BULK_ITEM_MAX_BYTES then .stops [.record .oversized, .item true]
  else if view.updateBytes = 0 then .stops [.record .unsent, .item true]
  else .enqueues view.updateBytes seeded

/-- nothing on the server and nothing in the document: the file is read -/
def seedTurn (work : DocPushWork D) (view : View) : Turn :=
  if work.serverEmpty && view.empty then .readsFile view.empty else packTurn false view

def acquiredTurn (work : DocPushWork D) : Option View → Turn
  | none => .throws
  | some view =>
    if view.stateBytes > MAX_NOTE_BYTES then .stops (fail .tooLarge)
    else if work.ingestFromFile && !view.empty then .awaits .ingesting
    else seedTurn work view

def ingestedTurn (work : DocPushWork D) : Option (Bool × View) → Turn
  | none => .throws
  | some (changed, view) =>
    if !changed && work.settledIfUnchanged then .stops [.doc .synced, .record .unsent, .item true]
    else seedTurn work view

/-- `null`: unreadable -/
def fileTurn : Option ℕ → Turn
  | none => .awaits .seeding
  | some fileBytes =>
    if fileBytes > MAX_NOTE_BYTES then .stops (fail .tooLarge)
    else if fileBytes > BULK_ITEM_MAX_BYTES then .stops [.record .oversized, .item true]
    else if fileBytes = 0 then .stops [.markPushed, .doc .synced, .record .unsent, .item true]
    else .awaits .seeding

def seededTurn : Option (Bool × View) → Turn
  | none => .throws
  | some (seeded, view) => packTurn seeded view

namespace St

variable (s : St D)

/-- the `catch` -/
def caught (i : ℕ) (x : Item D) (th : Throws) : St D :=
  (s.performs i (upTo th.second (fail .thrown)).1).setItem i { x with stage := .releasing }

def take (i : ℕ) (x : Item D) (th : Throws) : Turn → St D
  | .awaits stage => s.setItem i { x with stage := stage }
  | .readsFile localEmpty => s.setItem i { x with stage := .reading, localEmpty := localEmpty }
  | .stops calls =>
    if (upTo th.first calls).2 then (s.performs i (upTo th.first calls).1).caught i x th
    else (s.performs i calls).setItem i { x with stage := .releasing }
  | .enqueues bytes seeded =>
    (s.enqueue ⟨i, x.work.docId, bytes, seeded⟩).setItem i { x with stage := .releasing }
  | .throws => s.caught i x th

/-- after `awaitSendSlot`: `none` where `skip` throws. What is thrown here the pool swallows. -/
def begins (i : ℕ) (x : Item D) (skip : Option Bool) (t : Option Listener) : St D := match skip with
  | none => s.setItem i { x with stage := .finished }
  | some true => (s.performs i (upTo t [.record .unsent, .item true]).1).setItem i { x with stage := .finished }
  | some false =>
    (s.perform i (.doc .syncing)).setItem i { x with stage := if t = some .doc then .finished else .acquiring }

end St

/-! ### `send` -/

/-- what `settle` meets: can the file be read, and does `discardLocalCrdt` succeed, where the host has it? -/
structure SettleIO where
  readable : Bool
  discard : Option Bool

/-- a seed that a `conflict` discards, or fails to, is in no account -/
def settle (io : SettleIO) : PushStatus → List Call
  | .applied | .skipped => [.markPushed, .doc .synced, .item true, .record .pushed]
  | .conflict => [.record .conflict, .doc .queued, .item true]
  | .denied =>
    if !io.readable then fail .unreadable
    else match io.discard with
      | none => fail .noReset
      | some false => fail .resetFailed
      | some true => [.record (.deferred true), .doc .queued, .item true]
  | .tooLarge => fail .tooLarge
  | .error held => fail (if held then .shrinkHeld else .refused)

/-- `byDocId`: of two answers for a document the later counts -/
def answerFor (answers : List (DocPushResult D)) (docId : D) : Option (DocPushResult D) :=
  answers.reverse.find? fun r => r.docId = docId

/-- what is called for an item of a chunk: `none` is a request that failed -/
def settleCalls (answers : Option (List (DocPushResult D))) (p : Prepared D) (io : SettleIO) : List Call :=
  match answers with
  | none => fail .transport
  | some answers => match answerFor answers p.docId with
    | none => fail .noAnswer
    | some res => settle io res.status

namespace St

variable (s : St D)

/-- an attempt fails: a terminal error, or the last attempt, fails the request -/
def attemptFails (k : ℕ) (l : Link D) (attempt : ℕ) (terminal : Bool) : St D :=
  if terminal ∨ ATTEMPTS ≤ attempt then
    { s.setLink k { l with stage := .settling l.chunk } with transportError := true }
  else s.setLink k { l with stage := .sending (attempt + 1) }

/-- a throw rejects the send, and the chain goes on -/
def settles (k : ℕ) (l : Link D) (p : Prepared D) (rest : List (Prepared D)) (io : SettleIO) (t : Option Listener) :
    St D :=
  let r := upTo t (settleCalls l.answers p io)
  (s.performs p.item r.1).setLink k { l with stage := if r.2 then .done else .settling rest }

end St

/-! ### The run -/

inductive Action (D : Type*) where
  /-- every item is shown as queued -/
  | starts (throws : Bool)
  /-- a lane takes the next item -/
  | picks
  | proceeds (i : ℕ)
  | begins (i : ℕ) (skip : Option Bool) (t : Option Listener)
  | acquireFails (i : ℕ) (t : Option Listener)
  | acquired (i : ℕ) (view : Option View) (th : Throws)
  | ingested (i : ℕ) (found : Option (Bool × View)) (th : Throws)
  | fileRead (i : ℕ) (fileBytes : Option ℕ) (th : Throws)
  | seeded (i : ℕ) (found : Option (Bool × View)) (th : Throws)
  | released (i : ℕ)
  /-- the last chunk is queued -/
  | drains
  | sends (k : ℕ)
  | attemptFails (k : ℕ) (terminal : Bool)
  | answers (k : ℕ) (results : List (DocPushResult D))
  | settles (k : ℕ) (io : SettleIO) (t : Option Listener)
  | sent (k : ℕ)
  /-- the last `flush` -/
  | returns (throws : Bool)

/-- the link, and the next item it is to settle -/
def St.settling (s : St D) (k : ℕ) : Option (Link D × Prepared D × List (Prepared D)) := s.chain[k]?.bind fun l =>
  match l.stage with
  | .settling (p :: rest) => some (l, p, rest)
  | _ => none

def St.sending (s : St D) (k : ℕ) : Option (Link D × ℕ) := s.chain[k]?.bind fun l => match l.stage with
  | .sending attempt => some (l, attempt)
  | _ => none

/-- the step, where it can be taken -/
def next (width : ℕ) (s : St D) : Action D → Option (St D)
  | .starts throws =>
    if s.phase ≠ .starting then none
    else if s.items = [] then some (s.setPhase .returned)
    else if throws then some (s.setPhase .rejected)
    else some (s.setPhase .packing)
  | .picks =>
    if s.phase = .packing ∧ s.active < width then
      (s.items.findIdx? fun x => x.stage = .queued).bind fun i => (s.at? i .queued).map fun x =>
        s.setItem i { x with stage := .slot }
    else none
  | .proceeds i => (s.at? i .slot).bind fun x =>
    if s.outstanding > MAX_OUTSTANDING_CHUNKS then none else some (s.setItem i { x with stage := .ready })
  | .begins i skip t => (s.at? i .ready).map fun x => s.begins i x skip t
  | .acquireFails i t => (s.at? i .acquiring).map fun x =>
    (s.performs i (upTo t (fail .openFailed)).1).setItem i { x with stage := .finished }
  | .acquired i view th => (s.at? i .acquiring).map fun x => s.take i x th (acquiredTurn x.work view)
  | .ingested i found th => (s.at? i .ingesting).map fun x => s.take i x th (ingestedTurn x.work found)
  | .fileRead i fileBytes th => (s.at? i .reading).map fun x =>
    (s.reads ⟨i, x.localEmpty, fileBytes⟩).take i x th (fileTurn fileBytes)
  | .seeded i found th => (s.at? i .seeding).map fun x => s.take i x th (seededTurn found)
  | .released i => (s.at? i .releasing).map fun x => s.setItem i { x with stage := .finished }
  | .drains =>
    if s.phase = .packing ∧ ∀ x ∈ s.items, x.stage = .finished then some (s.flushPending.setPhase .draining)
    else none
  | .sends k => (s.chain[k]?.filter fun l => l.stage = .waiting).bind fun l =>
    if ∀ l' ∈ s.chain.take k, l'.stage = .done then some (s.setLink k { l with stage := .sending 1 }) else none
  | .attemptFails k terminal => (s.sending k).map fun (l, attempt) => s.attemptFails k l attempt terminal
  | .answers k results => (s.sending k).map fun (l, _) =>
    s.setLink k { l with stage := .settling l.chunk, answers := some results }
  | .settles k io t => (s.settling k).map fun (l, p, rest) => s.settles k l p rest io t
  | .sent k => (s.chain[k]?.filter fun l => l.stage = .settling []).map fun l => s.setLink k { l with stage := .done }
  | .returns throws =>
    if s.phase = .draining ∧ s.outstanding = 0 then some (s.setPhase (if throws then .rejected else .returned))
    else none

def step (width : ℕ) (s : St D) (a : Action D) : St D := (next width s a).getD s

def run (width : ℕ) (s : St D) (as : List (Action D)) : St D := Machine.run (step width) s as

/-! ## What is to hold -/

/-- each throw leaves the block complete -/
def whole (t : Option Listener) (calls : List Call) : Prop := (upTo t calls).1 = calls

instance (t : Option Listener) (calls : List Call) : Decidable (whole t calls) := by
  unfold whole
  infer_instance

/-- a call that neither lists the item nor reports it -/
def Call.quiet : Call → Bool
  | .doc _ | .markPushed => true
  | .item _ | .record _ => false

/-- the `catch` is complete -/
def Throws.CatchOk (th : Throws) : Prop := whole th.second (fail .thrown)

/-- nothing throws in the `try`, or it does before the item is listed or reported, and the `catch` is complete -/
def Turn.Calm (th : Throws) : Turn → Prop
  | .stops calls => (upTo th.first calls).2 = true →
      (∀ c ∈ (upTo th.first calls).1, c.quiet = true) ∧ th.CatchOk
  | .throws => th.CatchOk
  | _ => True

/-- every throw of the step is harmless: nothing throws, or a call that ends its block, or one inside the `try` before
the item is listed or reported; in `settle`, no item of the chunk may be left either -/
def Calm (s : St D) : Action D → Prop
  | .starts throws => throws = true → s.items = []
  | .begins _ skip t => match skip with
    | none => False
    | some true => whole t [.record .unsent, .item true]
    | some false => t ≠ some .doc
  | .acquireFails _ t => whole t (fail .openFailed)
  | .acquired i view th => ∀ x ∈ s.at? i .acquiring, (acquiredTurn x.work view).Calm th
  | .ingested i found th => ∀ x ∈ s.at? i .ingesting, (ingestedTurn x.work found).Calm th
  | .fileRead _ fileBytes th => (fileTurn fileBytes).Calm th
  | .seeded _ found th => (seededTurn found).Calm th
  | .settles k io t => ∀ x ∈ s.settling k, whole t (settleCalls x.1.answers x.2.1 io) ∧
      ((upTo t (settleCalls x.1.answers x.2.1 io)).2 = true → x.2.2 = [])
  | .returns throws => throws = false
  | _ => True

/-- how often an item is in the lists, and how often it was reported -/
def St.listed (s : St D) (i : ℕ) : ℕ := s.outcomes.countP fun o => o.1 = i

def St.reported (s : St D) (i : ℕ) : ℕ := s.reports.countP fun r => r.1 = i

/-- the request keeps within the limits -/
def Link.WithinLimits (l : Link D) : Prop :=
  l.chunk.length ≤ BATCH_MAX_DOCS ∧ (l.chunk.map Prepared.bytes).sum ≤ BATCH_MAX_DECODED_BYTES

/-- the server answered `applied` or `skipped` for the item -/
def St.Confirmed (s : St D) (i : ℕ) (docId : D) : Prop :=
  ∃ l ∈ s.chain, (∃ p ∈ l.chunk, p.item = i) ∧ ∃ answers, l.answers = some answers ∧
    ∃ r ∈ answers, r.docId = docId ∧ (r.status = .applied ∨ r.status = .skipped)

/-- the server called the item empty, and document and file were -/
def St.EmptyOnBothSides (s : St D) (i : ℕ) (work : DocPushWork D) : Prop :=
  work.serverEmpty = true ∧ ∃ r ∈ s.fileReads, r.item = i ∧ r.localEmpty = true ∧ r.bytes = some 0

/-! ## Blocks -/

section

variable {t : Option Listener} {calls : List Call} {c : Call}

theorem upTo_subset (h : c ∈ (upTo t calls).1) : c ∈ calls := by
  induction calls with
  | nil => exact h
  | cons c' cs ih =>
    unfold upTo at h
    split at h
    · exact List.mem_cons.2 (.inl (List.mem_singleton.1 h))
    · rcases List.mem_cons.1 h with rfl | h
      · exact .head _
      · exact .tail _ (ih h)

/-- does the call list the item, does it report it -/
def Call.lists : Call → Bool
  | .record _ => true
  | _ => false

def Call.reports : Call → Bool
  | .item _ => true
  | _ => false

/-- the block lists the item once and reports it once -/
structure Balanced (calls : List Call) : Prop where
  lists : calls.countP Call.lists = 1
  reports : calls.countP Call.reports = 1

theorem balanced_fail (reason : Reason) : Balanced (fail reason) := ⟨rfl, rfl⟩

theorem balanced_settleCalls (answers : Option (List (DocPushResult D))) (p : Prepared D) (io : SettleIO) :
    Balanced (settleCalls answers p io) := by
  unfold settleCalls
  split
  · exact balanced_fail _
  · split
    · exact balanced_fail _
    · unfold settle
      repeat' split
      all_goals exact ⟨rfl, rfl⟩

end

/-! ## Turns of `prepare` -/

/-- what is left to do for an item that stands there -/
def Stage.weight : Stage → ℕ
  | .finished => 0
  | .releasing => 1
  | .seeding => 11
  | .reading => 12
  | .ingesting => 13
  | .acquiring => 14
  | .ready => 15
  | .slot => 16
  | .queued => 17

/-- neither listed nor packed yet -/
def Stage.isOpen : Stage → Bool
  | .releasing | .finished => false
  | _ => true

/-- what a turn taken at `stage` may be -/
def Turn.Sound (work : DocPushWork D) (stage : Stage) : Turn → Prop
  | .awaits stage' => stage'.isOpen = true ∧ stage' ≠ .reading ∧ stage'.weight < stage.weight
  | .readsFile localEmpty => work.serverEmpty = true ∧ localEmpty = true ∧ Stage.reading.weight < stage.weight
  | .stops calls => Balanced calls
  | .enqueues bytes _ => bytes ≤ BULK_ITEM_MAX_BYTES
  | .throws => True

/-- does the turn call `markPushed`? -/
def Turn.Marks : Turn → Prop
  | .stops calls => .markPushed ∈ calls
  | _ => False

section

variable {work : DocPushWork D} {stage : Stage} {view : View} {seeded : Bool}

theorem packTurn_sound : (packTurn seeded view).Sound work stage := by
  unfold packTurn
  repeat' split
  · exact ⟨rfl, rfl⟩
  · exact balanced_fail _
  · exact ⟨rfl, rfl⟩
  · exact ⟨rfl, rfl⟩
  · next h _ => exact Nat.le_of_not_lt h

theorem packTurn_marks : ¬ (packTurn seeded view).Marks := by
  unfold packTurn
  repeat' split
  all_goals simp [Turn.Marks, fail]

theorem seedTurn_sound (h : Stage.reading.weight < stage.weight) : (seedTurn work view).Sound work stage := by
  unfold seedTurn
  split
  · next hempty =>
    obtain ⟨hserver, hlocal⟩ := Bool.and_eq_true_iff.1 hempty
    exact ⟨hserver, hlocal, h⟩
  · exact packTurn_sound

theorem seedTurn_marks : ¬ (seedTurn work view).Marks := by
  unfold seedTurn
  split
  · exact id
  · exact packTurn_marks

theorem acquiredTurn_sound (view : Option View) : (acquiredTurn work view).Sound work .acquiring := by
  unfold acquiredTurn
  repeat' split
  · trivial
  · exact balanced_fail _
  · exact ⟨rfl, by decide, by decide⟩
  · exact seedTurn_sound (by decide)

theorem acquiredTurn_marks (view : Option View) : ¬ (acquiredTurn work view).Marks := by
  unfold acquiredTurn
  repeat' split
  · exact id
  · simp [Turn.Marks, fail]
  · exact id
  · exact seedTurn_marks

theorem ingestedTurn_sound (found : Option (Bool × View)) : (ingestedTurn work found).Sound work .ingesting := by
  unfold ingestedTurn
  repeat' split
  · trivial
  · exact ⟨rfl, rfl⟩
  · exact seedTurn_sound (by decide)

theorem ingestedTurn_marks (found : Option (Bool × View)) : ¬ (ingestedTurn work found).Marks := by
  unfold ingestedTurn
  repeat' split
  · exact id
  · simp [Turn.Marks]
  · exact seedTurn_marks

theorem fileTurn_sound (fileBytes : Option ℕ) : (fileTurn fileBytes).Sound work .reading := by
  unfold fileTurn
  repeat' split
  · exact ⟨rfl, by decide, by decide⟩
  · exact balanced_fail _
  · exact ⟨rfl, rfl⟩
  · exact ⟨rfl, rfl⟩
  · exact ⟨rfl, by decide, by decide⟩

theorem fileTurn_marks {fileBytes : Option ℕ} (h : (fileTurn fileBytes).Marks) : fileBytes = some 0 := by
  unfold fileTurn at h
  repeat' split at h
  · exact h.elim
  · simp [Turn.Marks, fail] at h
  · simp [Turn.Marks] at h
  · next hzero => rw [hzero]
  · exact h.elim

theorem seededTurn_sound (found : Option (Bool × View)) : (seededTurn found).Sound work stage := by
  unfold seededTurn
  split
  · trivial
  · exact packTurn_sound

theorem seededTurn_marks (found : Option (Bool × View)) : ¬ (seededTurn found).Marks := by
  unfold seededTurn
  split
  · exact id
  · exact packTurn_marks

end

/-! ## What each update of the state changes -/

namespace St

variable {s : St D} {i j k : ℕ} {calls : List Call} {x x' : Item D} {l l' : Link D} {p : Prepared D}

section

variable (s) (i) (calls)

@[simp] theorem performs_items : (s.performs i calls).items = s.items := by
  induction calls generalizing s with
  | nil => rfl
  | cons c cs ih => exact (ih _).trans (by cases c <;> rfl)

@[simp] theorem performs_pending : (s.performs i calls).pending = s.pending := by
  induction calls generalizing s with
  | nil => rfl
  | cons c cs ih => exact (ih _).trans (by cases c <;> rfl)

@[simp] theorem performs_pendingBytes : (s.performs i calls).pendingBytes = s.pendingBytes := by
  induction calls generalizing s with
  | nil => rfl
  | cons c cs ih => exact (ih _).trans (by cases c <;> rfl)

@[simp] theorem performs_chain : (s.performs i calls).chain = s.chain := by
  induction calls generalizing s with
  | nil => rfl
  | cons c cs ih => exact (ih _).trans (by cases c <;> rfl)

@[simp] theorem performs_phase : (s.performs i calls).phase = s.phase := by
  induction calls generalizing s with
  | nil => rfl
  | cons c cs ih => exact (ih _).trans (by cases c <;> rfl)

@[simp] theorem performs_fileReads : (s.performs i calls).fileReads = s.fileReads := by
  induction calls generalizing s with
  | nil => rfl
  | cons c cs ih => exact (ih _).trans (by cases c <;> rfl)

theorem listed_performs (j : ℕ) :
    (s.performs i calls).listed j = s.listed j + if i = j then calls.countP Call.lists else 0 := by
  induction calls generalizing s with
  | nil => simp [performs]
  | cons c cs ih =>
    have hone : (s.perform i c).listed j = s.listed j + if i = j then [c].countP Call.lists else 0 := by
      cases c <;> simp [perform, listed, Call.lists, List.countP_cons]
    calc (s.performs i (c :: cs)).listed j
        = (s.perform i c).listed j + if i = j then cs.countP Call.lists else 0 := ih _
      _ = s.listed j + if i = j then (c :: cs).countP Call.lists else 0 := by
        rw [hone, List.countP_cons, List.countP_cons]
        split <;> simp <;> omega

theorem reported_performs (j : ℕ) :
    (s.performs i calls).reported j = s.reported j + if i = j then calls.countP Call.reports else 0 := by
  induction calls generalizing s with
  | nil => simp [performs]
  | cons c cs ih =>
    have hone : (s.perform i c).reported j = s.reported j + if i = j then [c].countP Call.reports else 0 := by
      cases c <;> simp [perform, reported, Call.reports, List.countP_cons]
    calc (s.performs i (c :: cs)).reported j
        = (s.perform i c).reported j + if i = j then cs.countP Call.reports else 0 := ih _
      _ = s.reported j + if i = j then (c :: cs).countP Call.reports else 0 := by
        rw [hone, List.countP_cons, List.countP_cons]
        split <;> simp <;> omega

end

theorem mem_marked_performs :
    j ∈ (s.performs i calls).marked ↔ j ∈ s.marked ∨ j = i ∧ Call.markPushed ∈ calls := by
  induction calls generalizing s with
  | nil => simp [performs]
  | cons c cs ih =>
    have hone : j ∈ (s.perform i c).marked ↔ j ∈ s.marked ∨ j = i ∧ Call.markPushed = c := by
      cases c <;> simp [perform]
    calc j ∈ (s.performs i (c :: cs)).marked
        ↔ j ∈ (s.perform i c).marked ∨ j = i ∧ Call.markPushed ∈ cs := ih
      _ ↔ j ∈ s.marked ∨ j = i ∧ Call.markPushed ∈ c :: cs := by
        rw [hone, List.mem_cons, or_assoc, ← and_or_left]

theorem at?_eq_some {stage : Stage} (h : s.at? i stage = some x) : s.items[i]? = some x ∧ x.stage = stage := by
  obtain ⟨hx, hstage⟩ := Option.filter_eq_some_iff.1 h
  exact ⟨hx, of_decide_eq_true hstage⟩

/-- a block without a call listed or reported changes no account -/
theorem quiet_counts (h : ∀ c ∈ calls, c.quiet = true) :
    calls.countP Call.lists = 0 ∧ calls.countP Call.reports = 0 := by
  constructor
  · apply List.countP_eq_zero.2
    intro c hc
    have hq := h c hc
    cases c <;> simp_all [Call.quiet, Call.lists]
  · apply List.countP_eq_zero.2
    intro c hc
    have hq := h c hc
    cases c <;> simp_all [Call.quiet, Call.reports]

end St

end Baalda.BatchPusher
