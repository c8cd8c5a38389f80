/-
One `VaultConnection` of the vault channel (`sync/vault-channel.ts`) as a machine, from its subscription to the vault
topic on: the access view and the live fan-out share its readable set, its backfills and its socket.

Environment: the log (`committed`), the resolver's set (`granted`), soft deletions (`deleted`), the topic (a FIFO
`channel`; a message is published some time after what it announces has committed, `toPublish`), and the socket's
buffer (`blocked`: at the outbound bound).

Actors:
- the handshake: `aclRead`, `aclApply` (again while a message marked the set dirty), then `startBackfill` unless the
  client asked for live updates only;
- `receive`: the next message of the topic, a live update or an access change;
- `refreshAcl`: `refreshRead`, `refreshApply`, and, when documents fell out, the tombstone lookup (`refreshProbe`)
  before the frames that name them (`refreshFinish`);
- `sendDocBackfill`: a `Task` parked for capacity (`taskAdmit`), reading (`taskRead`), sending (`taskSend`), done
  (`taskEnd`); it is started by the handshake, by a refresh for what it grants, or by the resend loop;
- the resend loop `drainResync`: `loopNext`, `loopFinally`.
Every read may fail. The connection stays open, so the paths of a closed one are left out.

An update is its document and a number; a state or diff frame is recorded with the updates its read covered.
`trace` records the frames in the order they are sent, and (no frame, a ghost) each replacement of the readable set.
`has`, `received`, `dropped`, `initial`, `silentLoss`, `silentGain` and `readFailed` are ghosts too, and so is what a live
frame's event lists as heard before it.
-/
import Baalda.Lib.Machine

namespace Baalda.VaultChannel

open List

/-! ## Data -/

/-- an update of a document -/
structure Upd where
  doc : ℕ
  seq : ℕ
deriving DecidableEq

/-- a message of the vault topic -/
inductive Msg where
  | update (u : Upd)
  | access
deriving DecidableEq

inductive Event where
  /-- a live frame; ghost: the updates heard on the topic before this one -/
  | live (u : Upd) (heard : List Upd)
  | state (doc : ℕ) (covers : List Upd)
  | revoked (docs : List ℕ)
  | drop (doc : ℕ)
  /-- the client pulls what it may read; ghost: what that is when the frame is sent -/
  | bootstrap (docs : List ℕ)
  /-- not a frame: the readable set is replaced -/
  | access (docs : List ℕ)
deriving DecidableEq

/-- who asked for a document's backfill -/
inductive Origin where
  | handshake
  | grant
  | resync
deriving DecidableEq

inductive Phase where
  | parked
  | reading
  | read (covers : List Upd)
  | finished
deriving DecidableEq

/-- one `sendDocBackfill` -/
structure Task where
  doc : ℕ
  origin : Origin
  phase : Phase
deriving DecidableEq

inductive RefreshPhase where
  | reading
  | read (next : List ℕ)
  | probing (prev next : List ℕ)
  | probed (prev next deletedNow : List ℕ)
deriving DecidableEq

structure Refresh where
  seq : ℕ
  phase : RefreshPhase
deriving DecidableEq

/-- the handshake's read of the readable set -/
inductive Acl where
  | reading
  | read (next : List ℕ)
  | loaded
deriving DecidableEq

/-- the resend loop: `exiting` between its last check and its `finally` -/
inductive Loop where
  | idle
  | running
  | exiting
deriving DecidableEq

structure St where
  committed : List Upd
  granted : List ℕ
  deleted : List ℕ
  toPublish : List Msg
  channel : List Msg
  blocked : Bool
  liveOnly : Bool
  /-- the client takes `revoked` frames of several documents (else one `drop` each) -/
  batches : Bool
  /-- the client bootstraps a large grant by HTTP -/
  bulkRegrant : Bool
  /-- what the client's `hello` vectors cover -/
  held : List Upd
  /-- what its document has then; a deletion moves no clock, so the vectors may cover one that it lacks -/
  has : List Upd
  acl : Acl
  aclDirty : Bool
  readable : List ℕ
  refreshStarted : ℕ
  refreshApplied : ℕ
  refreshes : List Refresh
  /-- none: overflowed, or replayed -/
  preAclUpdates : Option (List Upd)
  backfillStarted : Bool
  pendingResync : List ℕ
  loop : Loop
  tasks : List Task
  trace : List Event
  received : List Upd
  /-- received, and lost with the overflowed buffer -/
  dropped : List Upd
  /-- the readable set when the handshake finished -/
  initial : List ℕ
  /-- left the readable set as deleted, so no frame named them -/
  silentLoss : List ℕ
  /-- granted, but the backfill had nothing to send or could not read -/
  silentGain : List ℕ
  readFailed : Bool
deriving DecidableEq

def PRE_ACL_UPDATES_MAX : ℕ := 256

def REVOKED_CAP : ℕ := 2000

/-- a grant of this size is bootstrapped, not streamed -/
def BULK_REGRANT_MIN : ℕ := 25

/-- a connection that has just subscribed; the updates `pending` have committed and are not published yet -/
def init (granted : List ℕ) (committed pending held has : List Upd) (liveOnly batches bulkRegrant : Bool) : St where
  committed := committed ++ pending
  granted := granted
  deleted := []
  toPublish := pending.map .update
  channel := []
  blocked := false
  liveOnly := liveOnly
  batches := batches
  bulkRegrant := bulkRegrant
  held := held
  has := has
  acl := .reading
  aclDirty := false
  readable := []
  refreshStarted := 1
  refreshApplied := 0
  refreshes := []
  preAclUpdates := some []
  backfillStarted := false
  pendingResync := []
  loop := .idle
  tasks := []
  trace := []
  received := []
  dropped := []
  initial := []
  silentLoss := []
  silentGain := []
  readFailed := false

inductive Action where
  | commit (u : Upd)
  | setGrants (granted deleted : List ℕ)
  | publish (i : ℕ)
  | buffer (blocked : Bool)
  | receive
  | aclRead
  | aclApply
  | startBackfill
  | refreshRead (i : ℕ) (ok : Bool)
  | refreshApply (i : ℕ)
  | refreshProbe (i : ℕ) (ok : Bool)
  | refreshFinish (i : ℕ)
  | taskAdmit (i : ℕ)
  | taskRead (i : ℕ) (ok : Bool)
  | taskSend (i : ℕ)
  | taskEnd (i : ℕ)
  | loopNext
  | loopFinally
deriving DecidableEq

/-! ## Live updates -/

/-- the document's resend is being read or sent -/
def resyncing (s : St) (doc : ℕ) : Prop := ∃ t ∈ s.tasks, t.origin = .resync ∧ t.doc = doc

instance (s : St) (doc : ℕ) : Decidable (resyncing s doc) := inferInstanceAs (Decidable (∃ t ∈ s.tasks, _))

/-- owe the document a resend, and make sure the loop runs -/
def markPending (s : St) (doc : ℕ) : St :=
  { s with
    pendingResync := if doc ∈ s.pendingResync then s.pendingResync else s.pendingResync ++ [doc]
    loop := if s.loop = .idle then .running else s.loop }

def forwardLive (s : St) (heard : List Upd) (u : Upd) : St :=
  if u.doc ∈ s.pendingResync ∨ resyncing s u.doc then markPending s u.doc
  else if s.blocked then markPending s u.doc
  else { s with trace := s.trace ++ [.live u heard] }

def forwardReadable (s : St) (heard : List Upd) (u : Upd) : St :=
  if u.doc ∈ s.readable then forwardLive s heard u else s

/-- an update heard before the readable set is known: held back, or the buffer is given up -/
def holdUpdate (s : St) (u : Upd) : St :=
  match s.preAclUpdates with
  | some held =>
    if held.length < PRE_ACL_UPDATES_MAX then { s with preAclUpdates := some (held ++ [u]) }
    else { s with preAclUpdates := none, dropped := s.received }
  | none => { s with dropped := s.received }

/-- the updates held back, judged by the readable set in order -/
def replay (s : St) (heard : List Upd) : List Upd → St
  | [] => s
  | u :: us => replay (forwardReadable s heard u) (heard ++ [u]) us

/-! ## Refreshes -/

/-- `revoked` frames of at most `REVOKED_CAP` documents -/
def revokedFrames : List ℕ → List ℕ → List Event
  | batch, [] => if batch = [] then [] else [.revoked batch]
  | batch, d :: docs =>
    if (batch ++ [d]).length = REVOKED_CAP then .revoked (batch ++ [d]) :: revokedFrames [] docs
    else revokedFrames (batch ++ [d]) docs

def lossFrames (batches : Bool) (docs : List ℕ) : List Event :=
  if batches then revokedFrames [] docs else docs.map .drop

/-- what a refresh does once it knows which of the documents that fell out are deleted: name the others, then bring the
added ones -/
def announce (s : St) (prev next deletedNow : List ℕ) : St :=
  let lost := prev.filter fun d => d ∉ next
  let added := next.filter fun d => d ∉ prev
  let frames := lossFrames s.batches (lost.filter fun d => d ∉ deletedNow)
  let bulk := BULK_REGRANT_MIN ≤ added.length ∧ s.bulkRegrant = true
  { s with
    trace := s.trace ++ frames ++ if bulk then [.bootstrap s.readable] else []
    tasks := if bulk then s.tasks else s.tasks ++ added.map fun d => ⟨d, .grant, .parked⟩
    silentLoss := s.silentLoss ++ lost.filter fun d => d ∈ deletedNow }

def replaceReadable (s : St) (seq : ℕ) (next : List ℕ) : St :=
  { s with
    refreshApplied := seq
    readable := next
    trace := s.trace ++ [.access next]
    silentLoss := s.silentLoss.filter fun d => d ∉ next
    silentGain := s.silentGain.filter fun d => d ∈ s.readable }

/-- a refresh that is not stale replaces the readable set; what fell out is looked up before it is announced -/
def applyRefresh (s : St) (i seq : ℕ) (next : List ℕ) : St :=
  if s.readable.filter (fun d => d ∉ next) = [] then
    announce { replaceReadable s seq next with refreshes := s.refreshes.eraseIdx i } s.readable next []
  else { replaceReadable s seq next with refreshes := s.refreshes.set i ⟨seq, .probing s.readable next⟩ }

/-! ## Backfills -/

def committedOf (s : St) (doc : ℕ) : List Upd := s.committed.filter fun u => u.doc = doc

/-- `loadDiff` has nothing for this client: nothing stored, or (a handshake's vector) nothing it lacks -/
def nothingToSend (s : St) (t : Task) : Prop :=
  committedOf s t.doc = [] ∨ (t.origin = .handshake ∧ ∀ u ∈ committedOf s t.doc, u ∈ s.held)

instance (s : St) (t : Task) : Decidable (nothingToSend s t) := inferInstanceAs (Decidable (_ ∨ _))

def setPhase (s : St) (i : ℕ) (t : Task) (p : Phase) : List Task := s.tasks.set i { t with phase := p }

/-- the ghost of a grant that ends without a frame -/
def endSilently (s : St) (t : Task) : List ℕ := if t.origin = .grant then s.silentGain ++ [t.doc] else s.silentGain

/-! ## Steps -/

/-- the handshake has its readable set -/
def openChannel (s : St) (next : List ℕ) : St :=
  { s with
    acl := .loaded, readable := next, refreshApplied := s.refreshStarted, initial := next, preAclUpdates := none
    trace := s.trace ++ [.access next] }

def step (s : St) : Action → St
  | .commit u =>
    if u ∈ s.committed then s
    else { s with committed := s.committed ++ [u], toPublish := s.toPublish ++ [.update u] }
  | .setGrants granted deleted =>
    { s with granted := granted, deleted := deleted, toPublish := s.toPublish ++ [.access] }
  | .publish i =>
    match s.toPublish[i]? with
    | none => s
    | some m => { s with toPublish := s.toPublish.eraseIdx i, channel := s.channel ++ [m] }
  | .buffer blocked => { s with blocked := blocked }
  | .receive =>
    match s.channel with
    | [] => s
    | .update u :: rest =>
      let heard := { s with channel := rest, received := s.received ++ [u] }
      if s.acl = .loaded then forwardReadable heard s.received u else holdUpdate heard u
    | .access :: rest =>
      if s.acl = .loaded then
        { s with
          channel := rest
          refreshStarted := s.refreshStarted + 1
          refreshes := s.refreshes ++ [⟨s.refreshStarted + 1, .reading⟩] }
      else { s with channel := rest, aclDirty := true }
  | .aclRead => if s.acl = .reading then { s with acl := .read s.granted } else s
  | .aclApply =>
    match s.acl with
    | .read next =>
      if s.aclDirty then
        { s with
          acl := .reading, aclDirty := false, refreshStarted := s.refreshStarted + 1, readable := next
          refreshApplied := s.refreshStarted }
      else
        replay (openChannel s next) [] (s.preAclUpdates.getD [])
    | _ => s
  | .startBackfill =>
    if s.acl = .loaded ∧ s.backfillStarted = false ∧ s.liveOnly = false then
      { s with backfillStarted := true, tasks := s.tasks ++ s.readable.map fun d => ⟨d, .handshake, .parked⟩ }
    else s
  | .refreshRead i ok =>
    match s.refreshes[i]? with
    | some ⟨seq, .reading⟩ =>
      if ok then { s with refreshes := s.refreshes.set i ⟨seq, .read s.granted⟩ }
      else { s with refreshes := s.refreshes.eraseIdx i, readFailed := true }
    | _ => s
  | .refreshApply i =>
    match s.refreshes[i]? with
    | some ⟨seq, .read next⟩ =>
      if seq < s.refreshApplied then { s with refreshes := s.refreshes.eraseIdx i }
      else applyRefresh s i seq next
    | _ => s
  | .refreshProbe i ok =>
    match s.refreshes[i]? with
    | some ⟨seq, .probing prev next⟩ =>
      { s with refreshes := s.refreshes.set i ⟨seq, .probed prev next (if ok then s.deleted else [])⟩ }
    | _ => s
  | .refreshFinish i =>
    match s.refreshes[i]? with
    | some ⟨_, .probed prev next deletedNow⟩ =>
      announce { s with refreshes := s.refreshes.eraseIdx i } prev next deletedNow
    | _ => s
  | .taskAdmit i =>
    match s.tasks[i]? with
    | some t =>
      if t.phase = .parked ∧ s.blocked = false then
        { s with tasks := setPhase s i t (if t.doc ∈ s.readable then .reading else .finished) }
      else s
    | none => s
  | .taskRead i ok =>
    match s.tasks[i]? with
    | some t =>
      if t.phase = .reading then
        if ok = false ∨ nothingToSend s t then
          { s with tasks := setPhase s i t .finished, silentGain := endSilently s t }
        else { s with tasks := setPhase s i t (.read (committedOf s t.doc)) }
      else s
    | none => s
  | .taskSend i =>
    match s.tasks[i]? with
    | some t =>
      match t.phase with
      | .read covers =>
        { s with
          tasks := setPhase s i t .finished
          trace := if t.doc ∈ s.readable then s.trace ++ [.state t.doc covers] else s.trace }
      | _ => s
    | none => s
  | .taskEnd i =>
    match s.tasks[i]? with
    | some t => if t.phase = .finished then { s with tasks := s.tasks.eraseIdx i } else s
    | none => s
  | .loopNext =>
    if s.loop = .running ∧ ∀ t ∈ s.tasks, t.origin ≠ .resync then
      match s.pendingResync with
      | [] => { s with loop := .exiting }
      | d :: rest => { s with pendingResync := rest, tasks := s.tasks ++ [⟨d, .resync, .parked⟩] }
    else s
  | .loopFinally =>
    if s.loop = .exiting then { s with loop := if s.pendingResync = [] then .idle else .running } else s

def run (s : St) (as : List Action) : St := Machine.run step s as

/-- nothing is on its way, being read, owed or running -/
def Quiescent (s : St) : Prop :=
  s.toPublish = [] ∧ s.channel = [] ∧ s.acl = .loaded ∧ (s.liveOnly = true ∨ s.backfillStarted = true) ∧
    s.refreshes = [] ∧ s.tasks = [] ∧ s.loop = .idle

instance (s : St) : Decidable (Quiescent s) := by unfold Quiescent; infer_instance

/-! ## What a step can do -/

/-- the enabled steps, one constructor for each branch of `step` that changes the state -/
inductive Fires (s : St) : Action → St → Prop where
  | commit (u : Upd) : Fires s (.commit u)
      { s with committed := s.committed ++ [u], toPublish := s.toPublish ++ [.update u] }
  | setGrants (granted deleted : List ℕ) : Fires s (.setGrants granted deleted)
      { s with granted := granted, deleted := deleted, toPublish := s.toPublish ++ [.access] }
  | publish {i : ℕ} {m : Msg} (hm : s.toPublish[i]? = some m) : Fires s (.publish i)
      { s with toPublish := s.toPublish.eraseIdx i, channel := s.channel ++ [m] }
  | buffer (blocked : Bool) : Fires s (.buffer blocked) { s with blocked := blocked }
  | forward {u : Upd} {rest : List Msg} (hc : s.channel = .update u :: rest) (hl : s.acl = .loaded) :
      Fires s .receive (forwardReadable { s with channel := rest, received := s.received ++ [u] } s.received u)
  | hold {u : Upd} {rest : List Msg} (hc : s.channel = .update u :: rest) (hl : s.acl ≠ .loaded) :
      Fires s .receive (holdUpdate { s with channel := rest, received := s.received ++ [u] } u)
  | refreshStart {rest : List Msg} (hc : s.channel = .access :: rest) (hl : s.acl = .loaded) : Fires s .receive
      { s with
        channel := rest
        refreshStarted := s.refreshStarted + 1
        refreshes := s.refreshes ++ [⟨s.refreshStarted + 1, .reading⟩] }
  | markDirty {rest : List Msg} (hc : s.channel = .access :: rest) (hl : s.acl ≠ .loaded) :
      Fires s .receive { s with channel := rest, aclDirty := true }
  | aclRead (ha : s.acl = .reading) : Fires s .aclRead { s with acl := .read s.granted }
  | aclAgain {next : List ℕ} (ha : s.acl = .read next) (hd : s.aclDirty = true) : Fires s .aclApply
      { s with
        acl := .reading, aclDirty := false, refreshStarted := s.refreshStarted + 1, readable := next
        refreshApplied := s.refreshStarted }
  | aclLoad {next : List ℕ} (ha : s.acl = .read next) (hd : s.aclDirty = false) :
      Fires s .aclApply (replay (openChannel s next) [] (s.preAclUpdates.getD []))
  | startBackfill (hl : s.acl = .loaded) (hb : s.backfillStarted = false) (hm : s.liveOnly = false) :
      Fires s .startBackfill
      { s with backfillStarted := true, tasks := s.tasks ++ s.readable.map fun d => ⟨d, .handshake, .parked⟩ }
  | refreshRead {i seq : ℕ} (hi : s.refreshes[i]? = some ⟨seq, .reading⟩) : Fires s (.refreshRead i true)
      { s with refreshes := s.refreshes.set i ⟨seq, .read s.granted⟩ }
  | refreshFail {i seq : ℕ} (hi : s.refreshes[i]? = some ⟨seq, .reading⟩) : Fires s (.refreshRead i false)
      { s with refreshes := s.refreshes.eraseIdx i, readFailed := true }
  | refreshStale {i seq : ℕ} {next : List ℕ} (hi : s.refreshes[i]? = some ⟨seq, .read next⟩)
      (hs : seq < s.refreshApplied) : Fires s (.refreshApply i) { s with refreshes := s.refreshes.eraseIdx i }
  | refreshApply {i seq : ℕ} {next : List ℕ} (hi : s.refreshes[i]? = some ⟨seq, .read next⟩)
      (hs : s.refreshApplied ≤ seq) : Fires s (.refreshApply i) (applyRefresh s i seq next)
  | refreshProbe {i seq : ℕ} {prev next : List ℕ} (ok : Bool)
      (hi : s.refreshes[i]? = some ⟨seq, .probing prev next⟩) : Fires s (.refreshProbe i ok)
      { s with refreshes := s.refreshes.set i ⟨seq, .probed prev next (if ok then s.deleted else [])⟩ }
  | refreshFinish {i seq : ℕ} {prev next deletedNow : List ℕ}
      (hi : s.refreshes[i]? = some ⟨seq, .probed prev next deletedNow⟩) : Fires s (.refreshFinish i)
      (announce { s with refreshes := s.refreshes.eraseIdx i } prev next deletedNow)
  | taskAdmit {i : ℕ} {t : Task} (hi : s.tasks[i]? = some t) (hp : t.phase = .parked) : Fires s (.taskAdmit i)
      { s with tasks := setPhase s i t (if t.doc ∈ s.readable then .reading else .finished) }
  | taskSilent {i : ℕ} {t : Task} {ok : Bool} (hi : s.tasks[i]? = some t) (hp : t.phase = .reading)
      (hn : ok = false ∨ nothingToSend s t) : Fires s (.taskRead i ok)
      { s with tasks := setPhase s i t .finished, silentGain := endSilently s t }
  | taskRead {i : ℕ} {t : Task} (hi : s.tasks[i]? = some t) (hp : t.phase = .reading) (hn : ¬ nothingToSend s t) :
      Fires s (.taskRead i true) { s with tasks := setPhase s i t (.read (committedOf s t.doc)) }
  | taskSend {i : ℕ} {t : Task} {covers : List Upd} (hi : s.tasks[i]? = some t) (hp : t.phase = .read covers) :
      Fires s (.taskSend i)
      { s with
        tasks := setPhase s i t .finished
        trace := if t.doc ∈ s.readable then s.trace ++ [.state t.doc covers] else s.trace }
  | taskEnd {i : ℕ} {t : Task} (hi : s.tasks[i]? = some t) (hp : t.phase = .finished) :
      Fires s (.taskEnd i) { s with tasks := s.tasks.eraseIdx i }
  | loopExit (hl : s.loop = .running) (hp : s.pendingResync = []) : Fires s .loopNext { s with loop := .exiting }
  | loopNext {d : ℕ} {rest : List ℕ} (hl : s.loop = .running) (hr : ∀ t ∈ s.tasks, t.origin ≠ .resync)
      (hp : s.pendingResync = d :: rest) : Fires s .loopNext
      { s with pendingResync := rest, tasks := s.tasks ++ [⟨d, .resync, .parked⟩] }
  | loopFinally (hl : s.loop = .exiting) :
      Fires s .loopFinally { s with loop := if s.pendingResync = [] then .idle else .running }

/-- **A step fires or stays.** -/
theorem step_fires (s : St) (a : Action) : step s a = s ∨ Fires s a (step s a) := by
  cases a with
  | commit u =>
    simp only [step]
    split_ifs with h
    · exact .inl rfl
    · exact .inr (.commit u)
  | setGrants g d => exact .inr (.setGrants g d)
  | publish i =>
    simp only [step]
    split
    · exact .inl rfl
    · rename_i m hm
      exact .inr (.publish hm)
  | buffer b => exact .inr (.buffer b)
  | receive =>
    simp only [step]
    split
    · exact .inl rfl
    · rename_i u rest hc
      split_ifs with hl
      · exact .inr (.forward hc hl)
      · exact .inr (.hold hc hl)
    · rename_i rest hc
      split_ifs with hl
      · exact .inr (.refreshStart hc hl)
      · exact .inr (.markDirty hc hl)
  | aclRead =>
    simp only [step]
    split_ifs with ha
    · exact .inr (.aclRead ha)
    · exact .inl rfl
  | aclApply =>
    simp only [step]
    split
    · rename_i next ha
      split_ifs with hd
      · exact .inr (.aclAgain ha hd)
      · exact .inr (.aclLoad ha (by simpa using hd))
    · exact .inl rfl
  | startBackfill =>
    simp only [step]
    split_ifs with h
    · exact .inr (.startBackfill h.1 h.2.1 h.2.2)
    · exact .inl rfl
  | refreshRead i ok =>
    simp only [step]
    split
    · rename_i seq hi
      cases ok with
      | true => exact .inr (.refreshRead hi)
      | false => exact .inr (.refreshFail hi)
    · exact .inl rfl
  | refreshApply i =>
    simp only [step]
    split
    · rename_i seq next hi
      split_ifs with hs
      · exact .inr (.refreshStale hi hs)
      · exact .inr (.refreshApply hi (not_lt.1 hs))
    · exact .inl rfl
  | refreshProbe i ok =>
    simp only [step]
    split
    · rename_i seq prev next hi
      exact .inr (.refreshProbe ok hi)
    · exact .inl rfl
  | refreshFinish i =>
    simp only [step]
    split
    · rename_i seq prev next deletedNow hi
      exact .inr (.refreshFinish hi)
    · exact .inl rfl
  | taskAdmit i =>
    simp only [step]
    split
    · rename_i t hi
      by_cases h : t.phase = .parked ∧ s.blocked = false
      · rw [if_pos h]
        exact .inr (.taskAdmit hi h.1)
      · rw [if_neg h]
        exact .inl rfl
    · exact .inl rfl
  | taskRead i ok =>
    simp only [step]
    split
    · rename_i t hi
      split_ifs with hp hn
      · exact .inr (.taskSilent hi hp hn)
      · cases ok with
        | true => exact .inr (.taskRead hi hp fun h => hn (.inr h))
        | false => exact absurd (.inl rfl) hn
      · exact .inl rfl
    · exact .inl rfl
  | taskSend i =>
    simp only [step]
    split
    · rename_i t hi
      split
      · rename_i covers hp
        exact .inr (.taskSend hi hp)
      · exact .inl rfl
    · exact .inl rfl
  | taskEnd i =>
    simp only [step]
    split
    · rename_i t hi
      split_ifs with hp
      · exact .inr (.taskEnd hi hp)
      · exact .inl rfl
    · exact .inl rfl
  | loopNext =>
    simp only [step]
    split_ifs with h
    · split
      · rename_i hp
        exact .inr (.loopExit h.1 hp)
      · rename_i d rest hp
        exact .inr (.loopNext h.1 h.2 hp)
    · exact .inl rfl
  | loopFinally =>
    simp only [step]
    by_cases h : s.loop = .exiting
    · rw [if_pos h]
      exact .inr (.loopFinally h)
    · rw [if_neg h]
      exact .inl rfl

/-! ## What the larger steps leave alone -/

theorem forwardReadable_eq (s : St) (heard : List Upd) (u : Upd) :
    (u.doc ∉ s.readable ∧ forwardReadable s heard u = s) ∨
      (u.doc ∈ s.readable ∧ forwardReadable s heard u = markPending s u.doc) ∨
      (u.doc ∈ s.readable ∧ u.doc ∉ s.pendingResync ∧ ¬ resyncing s u.doc ∧ s.blocked = false ∧
        forwardReadable s heard u = { s with trace := s.trace ++ [.live u heard] }) := by
  unfold forwardReadable forwardLive
  split_ifs with hr hp hb
  · exact .inr (.inl ⟨hr, rfl⟩)
  · exact .inr (.inl ⟨hr, rfl⟩)
  · exact .inr (.inr ⟨hr, fun h => hp (.inl h), fun h => hp (.inr h), by simpa using hb, rfl⟩)
  · exact .inl ⟨hr, rfl⟩

/-- a live update touches the queue of owed documents, the loop and the trace only -/
theorem forwardReadable_shape (s : St) (heard : List Upd) (u : Upd) :
    ∃ p l t, forwardReadable s heard u = { s with pendingResync := p, loop := l, trace := t } := by
  rcases forwardReadable_eq s heard u with ⟨-, h⟩ | ⟨-, h⟩ | ⟨-, -, -, -, h⟩
  · exact ⟨s.pendingResync, s.loop, s.trace, h⟩
  · exact ⟨_, _, s.trace, h⟩
  · exact ⟨s.pendingResync, s.loop, _, h⟩

theorem replay_shape (s : St) (heard us : List Upd) :
    ∃ p l t, replay s heard us = { s with pendingResync := p, loop := l, trace := t } := by
  induction us generalizing s heard with
  | nil => exact ⟨s.pendingResync, s.loop, s.trace, rfl⟩
  | cons u us ih =>
    obtain ⟨p, l, t, hf⟩ := forwardReadable_shape s heard u
    obtain ⟨p', l', t', hr⟩ := ih (forwardReadable s heard u) (heard ++ [u])
    refine ⟨p', l', t', ?_⟩
    rw [replay, hr, hf]

/-- frames that name or bring documents, but carry no live update -/
def NoLive (es : List Event) : Prop := ∀ e ∈ es, ∀ u heard, e ≠ .live u heard

theorem noLive_revokedFrames (batch docs : List ℕ) : NoLive (revokedFrames batch docs) := by
  induction docs generalizing batch with
  | nil =>
    intro e he u heard
    unfold revokedFrames at he
    split_ifs at he
    · simp at he
    · rw [mem_singleton.1 he]
      simp
  | cons d docs ih =>
    intro e he u heard
    unfold revokedFrames at he
    split_ifs at he
    · rcases mem_cons.1 he with rfl | he
      · simp
      · exact ih [] e he u heard
    · exact ih (batch ++ [d]) e he u heard

theorem noLive_lossFrames (batches : Bool) (docs : List ℕ) : NoLive (lossFrames batches docs) := by
  unfold lossFrames
  split_ifs
  · exact noLive_revokedFrames [] docs
  · intro e he u heard
    obtain ⟨d, _, rfl⟩ := mem_map.1 he
    simp

/-- an announcement touches the trace, the tasks and the ghost of silent losses only -/
theorem announce_shape (s : St) (prev next deletedNow : List ℕ) :
    ∃ es ts sl, NoLive es ∧ (∀ t ∈ ts, t.origin = Origin.grant) ∧ announce s prev next deletedNow =
      { s with trace := s.trace ++ es, tasks := s.tasks ++ ts, silentLoss := sl } := by
  have hloss := noLive_lossFrames s.batches ((prev.filter fun d => d ∉ next).filter fun d => d ∉ deletedNow)
  unfold announce
  dsimp only
  generalize lossFrames s.batches ((prev.filter fun d => d ∉ next).filter fun d => d ∉ deletedNow) = frames at hloss ⊢
  generalize (next.filter fun d => d ∉ prev) = added
  split_ifs with hb
  · refine ⟨frames ++ [.bootstrap s.readable], [], _, ?_, by simp, by
      simp only [append_assoc, append_nil]; rfl⟩
    intro e he u heard
    rcases mem_append.1 he with he | he
    · exact hloss e he u heard
    · rw [mem_singleton.1 he]
      simp
  · refine ⟨frames, added.map fun d => ⟨d, .grant, .parked⟩, _, hloss, ?_, by simp only [append_nil]; rfl⟩
    intro t ht
    obtain ⟨d, _, rfl⟩ := mem_map.1 ht
    rfl

/-- a refresh that is applied leaves no new read set behind, and touches neither the log nor the queue of owed documents -/
theorem applyRefresh_shape (s : St) (i seq : ℕ) (next : List ℕ) :
    ∃ rs es ts sl sg, NoLive es ∧ (∀ r ∈ rs, r ∈ s.refreshes ∨ ∀ n, r.phase ≠ .read n) ∧ applyRefresh s i seq next =
      { s with
        refreshApplied := seq, readable := next, refreshes := rs, trace := s.trace ++ es, tasks := s.tasks ++ ts
        silentLoss := sl, silentGain := sg } := by
  unfold applyRefresh
  split_ifs
  · obtain ⟨es, ts, sl, hes, -, he⟩ := announce_shape
      { replaceReadable s seq next with refreshes := s.refreshes.eraseIdx i } s.readable next []
    refine ⟨_, [.access next] ++ es, ts, sl, _, ?_, fun r hr => .inl ((eraseIdx_sublist _ _).subset hr), by
      rw [he]; simp only [replaceReadable, append_assoc]; rfl⟩
    intro e hmem u heard
    rcases mem_append.1 hmem with hmem | hmem
    · rw [mem_singleton.1 hmem]
      simp
    · exact hes e hmem u heard
  · refine ⟨_, [.access next], [], _, _, ?_, fun r hr => ?_, by simp only [replaceReadable, append_nil]; rfl⟩
    · intro e hmem u heard
      rw [mem_singleton.1 hmem]
      simp
    · rcases mem_or_eq_of_mem_set hr with hr | rfl
      · exact .inl hr
      · exact .inr fun n => by simp

/-- what every firing step preserves, every step preserves -/
theorem step_preserves (P : St → Prop) {s : St} {a : Action} (hs : P s) (h : ∀ t, Fires s a t → P t) :
    P (step s a) := by
  rcases step_fires s a with he | hf
  · rwa [he]
  · exact h _ hf

end Baalda.VaultChannel
