/-
The bridge between a note's document and its file (`bridge/noteBridge.ts NoteBridge`) as a machine.

One step of it is what the bridge does between two awaits, or what others do to the file and the document: an edit (of the
editor or of a peer), an external write, a watcher event, a timer that runs out, the read, the hash or the write of a pass
taking effect, the continuation after it. Ingest passes run one at a time in the order they were queued, and so do egest
passes; the two chains and the seeds interleave freely.

- `hydrate`: the state in which `NoteBridge.open` returns; nobody else has the document before that;
- `judged`, `applyRead`: an ingest pass after the hash and after the recovery snapshot (`mergeDiskRead`);
- `egestHashed`, `egestWrites`, `egestAnswered`: an egest pass (`runEgest`), whose write is a compare-and-swap over the hash
  of the bytes last observed (`notefile.rs write_note_cas`);
- `step`: all of them.

`refused` and `accounts` are records of the run that no step reads: the file text last refused, and for each hash what
became of the bytes that have it.
-/
import Baalda.Lib.Machine
import Baalda.Desktop.PullReconcile

namespace Baalda.Bridge

open TextDiff TextCrdt

/-- what a bridge is given: its configuration, the diff, the shared text and the hash -/
structure BridgeIO (ι H : Type*) where
  cfg : BridgeConfig
  seedOnOpen : Bool
  computeDiff : Text → Text → List (Hunk UInt16)
  applyUpdate : Doc ι UInt16 → Doc ι UInt16 → Doc ι UInt16
  /-- the id of the `n`-th unit this device inserts -/
  freshId : ℕ → ι
  sha256 : Text → H

/-- what became of bytes of the file -/
inductive Account where
  /-- an earlier session synced them with the document -/
  | synced
  | written
  | merged
  /-- the document, or the pass's baseline, reads them -/
  | held
  /-- refused under a rule: too big, blank, read-only, unseeded -/
  | refused
  | savedAside
  /-- nothing but white space when a bridge without a document opened -/
  | blank
  deriving DecidableEq

/-- a queued call of `drainIngest` -/
structure IngestJob (ι : Type*) where
  /-- the fixed base: the document before a pull, or the state that matched the file before a stale write -/
  base : Option (Doc ι UInt16) := none
  /-- `reconcileAfterPull` awaits it -/
  reconcile : Bool := false
  deriving DecidableEq

inductive IngestPhase (H : Type*) where
  | reading
  /-- the file's text has been read, and is being hashed -/
  | hashing (fileText : Text)
  /-- a read-only document: the file's text is being saved aside -/
  | keeping (fileText : Text) (fileHash : H)
  /-- a large diff: the recovery snapshot is being written -/
  | snapshotting (fileText : Text) (fileHash : H) (diffs : List (Hunk UInt16))
  deriving DecidableEq

structure IngestPass (ι H : Type*) where
  job : IngestJob ι
  /-- the document before the first transaction since the pass began -/
  baseline : Option (Doc ι UInt16) := none
  hadContent : Bool
  phase : IngestPhase H := .reading
  deriving DecidableEq

inductive EgestPhase (ι H : Type*) where
  /-- an empty text the document may never have held: the file is being read -/
  | checking
  | hashing
  /-- the file an open without a document found is being saved aside -/
  | savingAside (unagreed : Text × H) (hash : H)
  | writing (hash : H) (expected : Option H) (writtenState : Option (Doc ι UInt16))
  /-- the write has taken effect, or was refused as stale -/
  | answering (hash : H) (writtenState : Option (Doc ι UInt16)) (stale : Bool)
  deriving DecidableEq

structure EgestPass (ι H : Type*) where
  content : Text
  phase : EgestPhase ι H
  deriving DecidableEq

/-- where a call of `seedFromFileIfEmpty` stands -/
inductive SeedPhase where
  | reading
  | inserting (fileText : Text)
  | hashing (fileText : Text)
  | done
  deriving DecidableEq

structure NoteBridge (ι H : Type*) extends Hashes H where
  file : Option Text
  /-- a change of the file the watcher has not told of yet -/
  event : Bool := false
  doc : Doc ι UInt16
  /-- how many units this device has inserted -/
  clock : ℕ := 0
  everHadContent : Bool
  /-- the hash of the bytes last seen on disk, and the document that read them, if known -/
  observed : Option (H × Option (Doc ι UInt16))
  /-- the bytes an open without a document and without a disk base found -/
  unagreedFile : Option (Text × H) := none
  /-- the document before the pull the bridge waits for -/
  prePull : Option (Doc ι UInt16) := none
  egestDeferred : Bool := false
  ingestTimer : Bool := false
  ingestDirty : Bool := false
  ingestQueue : List (IngestJob ι) := []
  ingestPass : Option (IngestPass ι H) := none
  egestTimer : Bool := false
  /-- calls of `drainEgest` that have not begun -/
  egestQueue : ℕ := 0
  egestPass : Option (EgestPass ι H) := none
  seeds : List SeedPhase := []
  readOnly : Bool := false
  destroyed : Bool := false
  /-- record: the file text last refused -/
  refused : Option Text := none
  /-- record: what became of the bytes with a hash -/
  accounts : List (H × Account) := []

namespace NoteBridge

variable {ι H : Type*} [DecidableEq H]

def account (s : NoteBridge ι H) (hash : H) (a : Account) : NoteBridge ι H := { s with accounts := (hash, a) :: s.accounts }

/-- with no `state` given, the known one stays if the hash has not moved -/
def observe (s : NoteBridge ι H) (hash : H) : NoteBridge ι H :=
  if s.observed.map Prod.fst = some hash then s else { s with observed := some (hash, none) }

def observeState (s : NoteBridge ι H) (hash : H) (state : Option (Doc ι UInt16)) : NoteBridge ι H :=
  { s with observed := some (hash, state) }

def stateIfText (t : Text) (d : Doc ι UInt16) : Option (Doc ι UInt16) := if text d = t then some d else none

/-! ## Scheduling -/

section

variable (s : NoteBridge ι H)

def scheduleEgest : NoteBridge ι H :=
  if s.destroyed then s
  else if s.prePull.isSome then { s with egestDeferred := true }
  else { s with egestTimer := true }

def scheduleEgestRetry : NoteBridge ι H := if s.destroyed then s else { s with egestTimer := true }

def ingest : NoteBridge ι H :=
  if s.destroyed then s
  else if s.prePull.isSome then { s with ingestDirty := true }
  else { s with ingestDirty := true, ingestTimer := true }

def drainIngest (job : IngestJob ι) : NoteBridge ι H :=
  { s with ingestTimer := false, ingestDirty := true, ingestQueue := s.ingestQueue ++ [job] }

def beginPull : NoteBridge ι H :=
  if s.destroyed ∨ s.prePull.isSome then s
  else { s with
    prePull := some s.doc, ingestDirty := true, ingestTimer := false, egestTimer := false
    egestDeferred := s.egestDeferred || s.egestTimer }

def reconcileAfterPull : NoteBridge ι H := match s.prePull with
  | none => s
  | some pre =>
    if s.destroyed then s else { s with prePull := none }.drainIngest { base := some pre, reconcile := true }

def ingestNow : NoteBridge ι H :=
  if s.destroyed then s else if s.prePull.isSome then s.reconcileAfterPull else s.drainIngest {}

/-- the end of a pass; a reconcile re-arms the egest put off during the pull -/
def endIngest (job : IngestJob ι) : NoteBridge ι H :=
  if job.reconcile && s.egestDeferred then { s with ingestPass := none, egestDeferred := false }.scheduleEgest
  else { s with ingestPass := none }

def destroy : NoteBridge ι H :=
  if s.destroyed then s else { s with destroyed := true, ingestTimer := false, egestTimer := false, prePull := none }

/-! ## Transactions -/

/-- a pass that is tracking keeps the document as it was before the first transaction -/
def capture : NoteBridge ι H := match s.ingestPass with
  | some p =>
    if p.job.base.isNone && p.baseline.isNone then { s with ingestPass := some { p with baseline := some s.doc } } else s
  | none => s

/-- the document becomes `d` -/
def setDoc (d : Doc ι UInt16) : NoteBridge ι H :=
  { s with doc := d, everHadContent := s.everHadContent || !(text d).isEmpty }

/-- an edit of the editor or of a peer -/
def edit (d : Doc ι UInt16) : NoteBridge ι H :=
  if s.destroyed then s else (s.capture.setDoc d).scheduleEgest

end

end NoteBridge

namespace IngestPass

variable {ι H : Type*}

/-- the document the file is diffed against, where it is not the live one -/
def branch (p : IngestPass ι H) : Option (Doc ι UInt16) := p.job.base.or p.baseline

end IngestPass

namespace NoteBridge

variable {ι H : Type*} [DecidableEq H]

section

variable (s : NoteBridge ι H)

/-- `getBaseline()` -/
def baselineOf (p : IngestPass ι H) : Doc ι UInt16 := p.branch.getD s.doc

def setPhase (p : IngestPass ι H) (phase : IngestPhase H) : NoteBridge ι H :=
  { s with ingestPass := some { p with phase := phase } }

/-! ## An ingest pass -/

def ingestStarts : NoteBridge ι H := match s.ingestPass, s.ingestQueue with
  | none, job :: rest =>
    if s.destroyed || !s.ingestDirty then { s with ingestQueue := rest }.endIngest job
    else { s with
      ingestQueue := rest, ingestDirty := false, ingestPass := some { job := job, hadContent := s.everHadContent } }
  | _, _ => s

/-- what reading the file yields: nothing if there is none, or if the read fails -/
def readFile (ok : Bool) : Option Text := if ok then s.file else none

def ingestReads (ok : Bool) : NoteBridge ι H := match s.ingestPass with
  | some p => match p.phase with
    | .reading => match s.readFile ok with
      | some fileText => s.setPhase p (.hashing fileText)
      | none => { s with observed := none }.endIngest p.job
    | _ => s
  | none => s

/-- the read is refused: the document keeps its text -/
def refuse (p : IngestPass ι H) (fileText : Text) (fileHash : H) : NoteBridge ι H :=
  ({ s with refused := some fileText }.account fileHash .refused).endIngest p.job

/-- the file is taken for behind the document, which is written out -/
def writeOut (p : IngestPass ι H) (fileHash : H) : NoteBridge ι H :=
  ({ s with lastWrittenHash := some fileHash, refused := none }.scheduleEgest).endIngest p.job

end

section

variable (io : BridgeIO ι H) (s : NoteBridge ι H) (p : IngestPass ι H) (fileText : Text)

/-- the diff goes into the document, on a branch of the baseline if that is another one -/
def replayRead (fileHash : H) (diffs : List (Hunk UInt16)) : NoteBridge ι H :=
  let target := replay io.freshId s.clock (s.baselineOf p) diffs
  let s := { s with clock := s.clock + (inserted diffs).length }.observeState fileHash (stateIfText fileText target)
  match p.branch with
  | none => s.setDoc target
  | some _ =>
    let s := s.setDoc (io.applyUpdate s.doc target)
    if text s.doc = fileText then s else { s with pendingMergedFileHash := some fileHash }.scheduleEgest

/-- after the recovery snapshot: the read enters the document, unless its text arrived meanwhile -/
def applyRead (fileHash : H) (diffs : List (Hunk UInt16)) : NoteBridge ι H :=
  if s.destroyed then s.endIngest p.job
  else if text s.doc = fileText then ({ s with lastWrittenHash := some fileHash }.account fileHash .held).endIngest p.job
  else ({ replayRead io s p fileText fileHash diffs with
    unagreedFile := none, diskBase := some fileHash }.account fileHash .merged).endIngest p.job

/-- the verdict on the read, and what it leads to -/
def verdict : Verdict :=
  judge io.cfg io.computeDiff io.seedOnOpen s.readOnly s.toHashes ⟨p.hadContent, p.job.base.isSome⟩ (text s.doc)
    (text (s.baselineOf p)) p.branch.isSome fileText (io.sha256 fileText)

def judged : NoteBridge ι H :=
  let fileHash := io.sha256 fileText
  if oversize io.cfg fileText then (s.observe fileHash).refuse p fileText fileHash
  else match s.verdict io p fileText with
    | .echo => (s.observe fileHash).endIngest p.job
    | .converged =>
      ({ s with lastWrittenHash := some fileHash, diskBase := some fileHash, refused := none }.observeState fileHash
        (some s.doc)).account fileHash .held |>.endIngest p.job
    | .behindDiskBase => (s.observe fileHash).writeOut p fileHash
    | .behindBaseline true => ((s.observe fileHash).account fileHash .held).writeOut p fileHash
    | .behindBaseline false => ((s.observe fileHash).account fileHash .held).endIngest p.job
    | .blank | .readOnlyEmpty | .unseeded => (s.observe fileHash).refuse p fileText fileHash
    | .readOnly =>
      ({ s.observe fileHash with refused := some fileText }.account fileHash .refused).setPhase p
        (.keeping fileText fileHash)
    | .nothingOwn => ((s.observe fileHash).account fileHash .merged).writeOut p fileHash
    | .merge diffs large =>
      let s := { s.observe fileHash with refused := none }
      if large then s.setPhase p (.snapshotting fileText fileHash diffs) else applyRead io s p fileText fileHash diffs

end

def ingestHashed (io : BridgeIO ι H) (s : NoteBridge ι H) : NoteBridge ι H := match s.ingestPass with
  | some p => match p.phase with
    | .hashing fileText => judged io s p fileText
    | _ => s
  | none => s

/-- the copy of a read-only note's file landed, or did not -/
def ingestKept (s : NoteBridge ι H) (kept : Bool) : NoteBridge ι H := match s.ingestPass with
  | some p => match p.phase with
    | .keeping _ fileHash =>
      if !kept then s.endIngest p.job
      else if s.destroyed then (s.account fileHash .savedAside).endIngest p.job
      else (s.account fileHash .savedAside).writeOut p fileHash
    | _ => s
  | none => s

def ingestSnapshotted (io : BridgeIO ι H) (s : NoteBridge ι H) : NoteBridge ι H := match s.ingestPass with
  | some p => match p.phase with
    | .snapshotting fileText fileHash diffs => applyRead io s p fileText fileHash diffs
    | _ => s
  | none => s

/-! ## An egest pass -/

section

variable (s : NoteBridge ι H)

def setEgest (e : EgestPass ι H) (phase : EgestPhase ι H) : NoteBridge ι H :=
  { s with egestPass := some { e with phase := phase } }

def endEgest : NoteBridge ι H := { s with egestPass := none }

/-- a document that never held text, or that is read-only, does not write its emptiness over text -/
def firstPhase : EgestPhase ι H :=
  if text s.doc = [] ∧ (s.everHadContent = false ∨ s.readOnly = true) then .checking else .hashing

def egestStarts : NoteBridge ι H := match s.egestPass with
  | some _ => s
  | none =>
    if s.egestQueue = 0 then s
    else if s.destroyed then { s with egestQueue := s.egestQueue - 1 }
    else { s with egestQueue := s.egestQueue - 1, egestPass := some ⟨text s.doc, s.firstPhase⟩ }

def egestChecks (ok : Bool) : NoteBridge ι H := match s.egestPass with
  | some e => match e.phase with
    | .checking => match s.readFile ok with
      | some (u :: t) => { s with refused := some (u :: t) }.endEgest
      | _ => s.setEgest e .hashing
    | _ => s
  | none => s

/-- the compare-and-swap is set up -/
def takesExpected (e : EgestPass ι H) (hash : H) : NoteBridge ι H :=
  s.setEgest e (.writing hash (s.observed.map Prod.fst) (stateIfText e.content s.doc))

/-- nothing is written if the file is known to hold the text; an unagreed file is saved aside before it is replaced -/
def comparesHash (e : EgestPass ι H) (hash : H) : NoteBridge ι H :=
  if s.lastWrittenHash = some hash then ({ s with unagreedFile := none }.account hash .held).endEgest
  else match s.unagreedFile with
    | none => s.takesExpected e hash
    | some unagreed =>
      if e.content = unagreed.1 then ({ s with unagreedFile := none }.account unagreed.2 .held).takesExpected e hash
      else if s.observed.map Prod.fst = some unagreed.2 then s.setEgest e (.savingAside unagreed hash)
      else { s with unagreedFile := none }.takesExpected e hash

end

def egestHashed (io : BridgeIO ι H) (s : NoteBridge ι H) : NoteBridge ι H := match s.egestPass with
  | some e => match e.phase with
    | .hashing => s.comparesHash e (io.sha256 e.content)
    | _ => s
  | none => s

def egestSavedAside (s : NoteBridge ι H) (saved : Bool) : NoteBridge ι H := match s.egestPass with
  | some e => match e.phase with
    | .savingAside unagreed hash =>
      if saved then
        let s := { s with unagreedFile := if s.unagreedFile = some unagreed then none else s.unagreedFile }.account
          unagreed.2 .savedAside
        if s.destroyed ∨ text s.doc ≠ e.content then s.endEgest else s.takesExpected e hash
      else s.endEgest
    | _ => s
  | none => s

/-- the hash of the file, which is that of the empty text if there is none -/
def fileHash (io : BridgeIO ι H) (s : NoteBridge ι H) : H := io.sha256 (s.file.getD [])

/-- `write_note_cas` -/
def egestWrites (io : BridgeIO ι H) (s : NoteBridge ι H) : NoteBridge ι H := match s.egestPass with
  | some e => match e.phase with
    | .writing hash expected state =>
      if expected.all (· = s.fileHash io) then
        ({ s with file := some e.content, event := true }.account hash .written).setEgest e (.answering hash state false)
      else s.setEgest e (.answering hash state true)
    | _ => s
  | none => s

section

variable (s : NoteBridge ι H)

def egestWriteFails : NoteBridge ι H := match s.egestPass with
  | some e => match e.phase with
    | .writing _ _ _ => s.endEgest.scheduleEgestRetry
    | _ => s
  | none => s

/-- the file moved on: it is read and merged, on the state that last matched it if there is one -/
def mergeStaleFile : NoteBridge ι H :=
  if s.destroyed then s else { s with lastWrittenHash := none }.drainIngest { base := s.observed.bind Prod.snd }

def egestAnswered : NoteBridge ι H := match s.egestPass with
  | some e => match e.phase with
    | .answering hash state stale =>
      if stale then s.endEgest.mergeStaleFile
      else ({ s with
        lastWrittenHash := some hash, diskBase := some hash
        pendingMergedFileHash := if text s.doc = e.content then none else s.pendingMergedFileHash }.observeState hash
          state).endEgest
    | _ => s
  | none => s

/-! ## Seeding -/

def seedStarts : NoteBridge ι H :=
  if s.destroyed ∨ text s.doc ≠ [] then s else { s with seeds := s.seeds ++ [.reading] }

def seedReads (i : ℕ) (ok : Bool) : NoteBridge ι H :=
  if s.seeds[i]? = some .reading then
    match s.readFile ok with
    | some (u :: t) => { s with seeds := s.seeds.set i (.inserting (u :: t)) }
    | _ => { s with seeds := s.seeds.set i .done }
  else s

end

/-- the document takes the file's text, unless it has one by now -/
def seedInserts (io : BridgeIO ι H) (s : NoteBridge ι H) (i : ℕ) : NoteBridge ι H := match s.seeds[i]? with
  | some (.inserting fileText) =>
    if text s.doc = [] then
      ({ s.capture with
        seeds := s.seeds.set i (.hashing fileText), unagreedFile := none, refused := none
        clock := s.clock + fileText.length }.setDoc (newCells io.freshId s.clock fileText ++ s.doc)).account
          (io.sha256 fileText) .merged
    else { s.capture with seeds := s.seeds.set i .done }
  | _ => s

def seedHashed (io : BridgeIO ι H) (s : NoteBridge ι H) (i : ℕ) : NoteBridge ι H := match s.seeds[i]? with
  | some (.hashing fileText) =>
    { s with
      seeds := s.seeds.set i .done, lastWrittenHash := some (io.sha256 fileText)
      diskBase := some (io.sha256 fileText) }.observeState (io.sha256 fileText) (stateIfText fileText s.doc)
  | _ => s

end NoteBridge

/-! ## What a step is about to do -/

namespace NoteBridge

variable {ι H : Type*}

/-- the text an egest is about to compare with the file -/
def comparing (s : NoteBridge ι H) : Option Text := match s.egestPass with
  | some ⟨content, .hashing⟩ => some content
  | _ => none

/-- the file an egest saves aside before it takes its expected hash -/
def saving (s : NoteBridge ι H) : Option H := match s.egestPass with
  | some ⟨_, .savingAside unagreed _⟩ => some unagreed.2
  | _ => none

/-- the text a seed is about to insert -/
def seeding (s : NoteBridge ι H) (i : ℕ) : Option Text := match s.seeds[i]? with
  | some (.inserting fileText) => some fileText
  | _ => none

end NoteBridge

/-! ## What the helpers of a step change -/

namespace NoteBridge

section

variable {ι H : Type*} (s : NoteBridge ι H) (p : IngestPass ι H) (job : IngestJob ι) (fileText : Text) (hash : H)

theorem observe_eq [DecidableEq H] : ∃ o : Option (H × Option (Doc ι UInt16)), o.map Prod.fst = some hash ∧
    s.observe hash = { s with observed := o } := by
  unfold observe
  split_ifs with h
  · exact ⟨s.observed, h, rfl⟩
  · exact ⟨some (hash, none), rfl, rfl⟩

theorem scheduleEgest_eq : ∃ d t, s.scheduleEgest = { s with egestDeferred := d, egestTimer := t } := by
  unfold scheduleEgest
  split_ifs
  · exact ⟨_, _, rfl⟩
  · exact ⟨true, s.egestTimer, rfl⟩
  · exact ⟨s.egestDeferred, true, rfl⟩

theorem ingest_eq : ∃ d t, s.ingest = { s with ingestDirty := d, ingestTimer := t } := by
  unfold ingest
  split_ifs
  · exact ⟨_, _, rfl⟩
  · exact ⟨true, s.ingestTimer, rfl⟩
  · exact ⟨true, true, rfl⟩

theorem endIngest_eq : ∃ d t, s.endIngest job = { s with ingestPass := none, egestDeferred := d, egestTimer := t } := by
  unfold endIngest
  split_ifs
  · obtain ⟨d, t, h⟩ := scheduleEgest_eq { s with ingestPass := none, egestDeferred := false }
    exact ⟨d, t, h⟩
  · exact ⟨s.egestDeferred, s.egestTimer, rfl⟩

theorem writeOut_eq : ∃ d t, s.writeOut p hash = { s with
    lastWrittenHash := some hash, refused := none, ingestPass := none, egestDeferred := d, egestTimer := t } := by
  unfold writeOut
  obtain ⟨d, t, h⟩ := scheduleEgest_eq { s with lastWrittenHash := some hash, refused := none }
  rw [h]
  exact endIngest_eq _ _

theorem refuse_eq : ∃ d t, s.refuse p fileText hash = { s with
    refused := some fileText, accounts := (hash, .refused) :: s.accounts
    ingestPass := none, egestDeferred := d, egestTimer := t } := by
  exact endIngest_eq _ _

/-- a transaction moves no pass to another phase -/
theorem capture_eq : s.capture = s ∨ ∃ p, s.ingestPass = some p ∧ p.job.base = none ∧ p.baseline = none ∧
    s.capture = { s with ingestPass := some { p with baseline := some s.doc } } := by
  unfold capture
  cases hp : s.ingestPass with
  | none => exact .inl rfl
  | some p =>
    dsimp only
    split_ifs with h
    · obtain ⟨hbase, hbaseline⟩ := Bool.and_eq_true_iff.mp h
      exact .inr ⟨p, rfl, Option.isNone_iff_eq_none.mp hbase, Option.isNone_iff_eq_none.mp hbaseline, rfl⟩
    · exact .inl rfl

/-- a transaction changes nothing but the pass -/
theorem capture_same : s.capture = { s with ingestPass := s.capture.ingestPass } := by
  rcases s.capture_eq with heq | ⟨p, -, -, -, heq⟩
  · rw [heq]
  · rw [heq]

/-- after a transaction every pass has a branch -/
theorem capture_some {s : NoteBridge ι H} {p : IngestPass ι H} (h : s.capture.ingestPass = some p) :
    ∃ q, s.ingestPass = some q ∧ p.phase = q.phase ∧ p.branch ≠ none := by
  unfold capture at h
  cases hq : s.ingestPass with
  | none =>
    rw [hq] at h
    exact absurd (hq.symm.trans h) (by simp)
  | some q =>
    rw [hq] at h
    dsimp only at h
    split_ifs at h with hfree
    · cases h
      exact ⟨q, rfl, rfl, by simp [IngestPass.branch]⟩
    · obtain rfl := Option.some.inj (hq.symm.trans h)
      refine ⟨q, rfl, rfl, ?_⟩
      unfold IngestPass.branch
      intro hnone
      rw [Option.or_eq_none_iff] at hnone
      exact hfree (by simp [hnone.1, hnone.2])

theorem edit_eq (d : Doc ι UInt16) : s.edit d = s ∨ ∃ e v t, s.edit d = { s.capture with
    doc := d, everHadContent := e, egestDeferred := v, egestTimer := t } := by
  unfold edit
  split_ifs
  · exact .inl rfl
  · obtain ⟨v, t, h⟩ := scheduleEgest_eq (s.capture.setDoc d)
    exact .inr ⟨_, v, t, h⟩

theorem beginPull_eq : ∃ pre dirty it et d, s.beginPull = { s with
    prePull := pre, ingestDirty := dirty, ingestTimer := it, egestTimer := et, egestDeferred := d } := by
  unfold beginPull
  split_ifs
  · exact ⟨_, _, _, _, _, rfl⟩
  · exact ⟨_, _, _, _, _, rfl⟩

theorem reconcileAfterPull_eq : ∃ pre dirty it q, s.reconcileAfterPull = { s with
    prePull := pre, ingestDirty := dirty, ingestTimer := it, ingestQueue := q } := by
  unfold reconcileAfterPull
  split
  · exact ⟨_, _, _, _, rfl⟩
  · split_ifs
    · exact ⟨_, _, _, _, rfl⟩
    · exact ⟨none, true, false, _, rfl⟩

theorem ingestNow_eq : ∃ pre dirty it q, s.ingestNow = { s with
    prePull := pre, ingestDirty := dirty, ingestTimer := it, ingestQueue := q } := by
  unfold ingestNow
  split_ifs
  · exact ⟨_, _, _, _, rfl⟩
  · exact reconcileAfterPull_eq s
  · exact ⟨s.prePull, true, false, _, rfl⟩

theorem mergeStaleFile_eq : ∃ l dirty it q, (s.destroyed = false → l = none) ∧ (l = none ∨ l = s.lastWrittenHash) ∧
    s.mergeStaleFile = { s with lastWrittenHash := l, ingestDirty := dirty, ingestTimer := it, ingestQueue := q } := by
  unfold mergeStaleFile
  split_ifs with h
  · exact ⟨s.lastWrittenHash, _, _, _, by simp [h], .inr rfl, rfl⟩
  · exact ⟨none, true, false, _, fun _ => rfl, .inl rfl, rfl⟩

/-- what a replay leaves as it was -/
theorem replayRead_eq (io : BridgeIO ι H) (diffs : List (Hunk UInt16)) : ∃ d clock e o pm v t,
    o.map Prod.fst = some hash ∧ (pm = s.pendingMergedFileHash ∨ pm = some hash) ∧
    replayRead io s p fileText hash diffs = { s with
      doc := d, clock := clock, everHadContent := e, observed := o, pendingMergedFileHash := pm
      egestDeferred := v, egestTimer := t } := by
  unfold replayRead
  dsimp only
  split
  · exact ⟨_, _, _, _, _, _, _, rfl, .inl rfl, rfl⟩
  · split_ifs
    · exact ⟨_, _, _, _, _, _, _, rfl, .inl rfl, rfl⟩
    · rw [(scheduleEgest_eq _).choose_spec.choose_spec]
      exact ⟨_, _, _, _, _, _, _, rfl, .inr rfl, rfl⟩

end

end NoteBridge

/-! ## The machine -/

inductive Action (ι : Type*) where
  /-- a transaction of the editor or of a peer -/
  | edit (d : Doc ι UInt16)
  /-- another program writes or removes the file -/
  | external (fileText : Option Text)
  | watcherEvent
  | ingestTimerFires
  | ingestNow
  | ingestStarts
  | ingestReads (ok : Bool)
  | ingestHashed
  | ingestKept (kept : Bool)
  | ingestSnapshotted
  /-- the debounce or the retry delay is over, or `flushEgest` does not wait for it -/
  | egestTimerFires
  | egestStarts
  | egestChecks (ok : Bool)
  | egestHashed
  | egestSavedAside (saved : Bool)
  | egestWrites
  | egestWriteFails
  | egestAnswered
  | beginPull
  | reconcileAfterPull
  | seedStarts
  | seedReads (i : ℕ) (ok : Bool)
  | seedInserts (i : ℕ)
  | seedHashed (i : ℕ)
  | markReadOnly (value : Bool)
  | destroy

variable {ι H : Type*} [DecidableEq H]

def step (io : BridgeIO ι H) (s : NoteBridge ι H) : Action ι → NoteBridge ι H
  | .edit d => s.edit d
  | .external fileText => { s with file := fileText, event := true }
  | .watcherEvent => { s with event := false }.ingest
  | .ingestTimerFires =>
    if s.ingestTimer then { s with ingestTimer := false, ingestQueue := s.ingestQueue ++ [{}] } else s
  | .ingestNow => s.ingestNow
  | .ingestStarts => s.ingestStarts
  | .ingestReads ok => s.ingestReads ok
  | .ingestHashed => s.ingestHashed io
  | .ingestKept kept => s.ingestKept kept
  | .ingestSnapshotted => s.ingestSnapshotted io
  | .egestTimerFires => if s.egestTimer then { s with egestTimer := false, egestQueue := s.egestQueue + 1 } else s
  | .egestStarts => s.egestStarts
  | .egestChecks ok => s.egestChecks ok
  | .egestHashed => s.egestHashed io
  | .egestSavedAside saved => s.egestSavedAside saved
  | .egestWrites => s.egestWrites io
  | .egestWriteFails => s.egestWriteFails
  | .egestAnswered => s.egestAnswered
  | .beginPull => s.beginPull
  | .reconcileAfterPull => s.reconcileAfterPull
  | .seedStarts => s.seedStarts
  | .seedReads i ok => s.seedReads i ok
  | .seedInserts i => s.seedInserts io i
  | .seedHashed i => s.seedHashed io i
  | .markReadOnly value => { s with readOnly := value }
  | .destroy => s.destroy

def run (io : BridgeIO ι H) (s : NoteBridge ι H) (as : List (Action ι)) : NoteBridge ι H := Machine.run (step io) s as

/-! ## Opening a note -/

/-- what `open` finds: the stored document, if any was stored, the disk base, the file and whether it could be read -/
structure Opened (ι H : Type*) where
  stored : Option (Doc ι UInt16)
  diskBase : Option H
  file : Option Text
  /-- if a file that moved on while there was no document is saved aside, the copy landed -/
  copied : Bool := true
  readOnly : Bool := false

section

variable (io : BridgeIO ι H) (o : Opened ι H)

/-- the stored document is loaded; the echo guard is set to its text -/
def loaded (d : Doc ι UInt16) : NoteBridge ι H where
  file := o.file
  doc := d
  everHadContent := !(text d).isEmpty
  diskBase := o.diskBase
  lastWrittenHash := some (io.sha256 (text d))
  observed := o.diskBase.map (·, none)
  readOnly := o.readOnly
  accounts := (io.sha256 (text d), .held) :: (o.diskBase.map (·, Account.synced)).toList

/-- with a stored document: the file is read later, or after the pull -/
def hydrateStored (d : Doc ι UInt16) : NoteBridge ι H :=
  if io.seedOnOpen then (loaded io o d).ingest else if text d = [] then loaded io o d else (loaded io o d).beginPull

/-- the hash of what an open without a document reads; a file that cannot be read counts as empty -/
def Opened.fileHash : H := io.sha256 (o.file.getD [])

/-- without one and signed in: the document stays empty until the pull -/
def hydrateUnseeded : NoteBridge ι H :=
  let fileText := o.file.getD []
  let s : NoteBridge ι H := {
    file := o.file, doc := [], everHadContent := false, diskBase := o.diskBase
    lastWrittenHash := some (o.fileHash io)
    observed := o.file.map fun _ => (o.fileHash io, NoteBridge.stateIfText fileText [])
    readOnly := o.readOnly, accounts := (o.diskBase.map (·, Account.synced)).toList }
  if trim fileText = [] then s.account (o.fileHash io) .blank
  else if o.diskBase = none then { s with unagreedFile := some (fileText, o.fileHash io) }
  else if o.diskBase = some (o.fileHash io) ∨ o.copied = false then s
  else s.account (o.fileHash io) .savedAside

/-- without one and with no server: the file seeds the document -/
def hydrateSeeded : NoteBridge ι H :=
  let fileText := o.file.getD []
  let d : Doc ι UInt16 := newCells io.freshId 0 fileText
  { file := o.file, doc := d, clock := fileText.length, everHadContent := !fileText.isEmpty
    diskBase := if fileText = [] then o.diskBase else some (o.fileHash io)
    lastWrittenHash := some (o.fileHash io), observed := o.file.map fun _ => (o.fileHash io, some d)
    readOnly := o.readOnly
    accounts := (o.fileHash io, if fileText = [] then .blank else .merged) :: (o.diskBase.map (·, Account.synced)).toList }

/-- the state in which `open` returns -/
def hydrate : NoteBridge ι H := match o.stored with
  | some d => hydrateStored io o d
  | none => if io.seedOnOpen then hydrateSeeded io o else hydrateUnseeded io o

end

/-! ## A concrete bridge -/

/-- texts are their own hashes; this device's units come from client 9 -/
def plainBridge (seedOnOpen : Bool) : BridgeIO (ℕ × ℕ) Text where
  cfg := {}
  seedOnOpen := seedOnOpen
  computeDiff := prefixDiff
  applyUpdate := appendMerge
  freshId := branchId
  sha256 := id

/-- a file, and neither a document nor a disk base -/
def fileOnly (fileText : Text) : Opened (ℕ × ℕ) Text := { stored := none, diskBase := none, file := some fileText }

/-- the document of a note seeded with `a`, and `t` typed after it -/
def typedAfter (t : Text) : Doc (ℕ × ℕ) UInt16 := newCells branchId 0 [97] ++ typed 1 t

/-- an egest pass up to its write -/
def egestSteps : List (Action (ℕ × ℕ)) := [.egestTimerFires, .egestStarts, .egestHashed]

/-- an ingest pass up to its verdict -/
def ingestSteps : List (Action (ℕ × ℕ)) :=
  [.watcherEvent, .ingestTimerFires, .ingestStarts, .ingestReads true, .ingestHashed]

end Baalda.Bridge
