/-
Sealing a keyed vault's plaintext rows and clearing it (`crypto/backfill.ts`, `crypto/null-out.ts`), beside the writers
of the same rows: appends and compactions (`yjs/persistence.ts`), captured texts and their sweep (`versions/texts.ts`).

A batch reads rows, makes and verifies each one's write and sends it later, a statement on its own that looks at the row
again (`Write`); it may stop anywhere. A compaction and a clear of a document's rows hold its exclusive lock. The cipher
is ideal and a document's vault has one key; a document is in one vault (`vaultOf`), so the vault's column of a row is
left out. `note_versions` and `vault_checkpoint_docs` are one table with a kind, as the batches treat them. Statements
on the search index write none of these rows and are left out.

`sealing_keeps_values`: no write of the two workers changes what any row reads as, and every row can be read, in every
state, exactly if no row is inserted whose text was swept and no text is swept that such a row names.
-/
import Baalda.Lib.Envelope
import Baalda.Lib.Machine
import Baalda.Server.NoteTexts

namespace Baalda.SealedRows

open Envelope List

abbrev Text := List Char

/-- what an envelope is bound to beside its vault -/
inductive Aad (Id Sha : Type*) where
  /-- `doc_updates.update` -/
  | update (docId : Id)
  /-- `doc_snapshots.snapshot` -/
  | snapshot (docId : Id)
  /-- `note_texts.content` -/
  | text (docId : Id) (sha : Sha)
  deriving DecidableEq

variable {Id Key Bytes Sha : Type*}

/-! ## Rows -/

structure UpdateRow (Id Key Bytes Sha : Type*) where
  id : ℕ
  docId : Id
  update : Option Bytes
  updateEnc : Option (Sealed Key (Aad Id Sha) Bytes)
  deriving DecidableEq

structure SnapshotRow (Id Key Bytes Sha : Type*) where
  docId : Id
  snapshot : Option Bytes
  snapshotEnc : Option (Sealed Key (Aad Id Sha) Bytes)
  seq : Option ℕ
  deriving DecidableEq

structure TextRow (Id Key Sha : Type*) where
  docId : Id
  sha : Sha
  content : Text
  contentEnc : Option (Sealed Key (Aad Id Sha) Text)
  lastRefAt : ℕ
  deriving DecidableEq

inductive Kind where
  | noteVersions
  | vaultCheckpointDocs
  deriving DecidableEq

/-- a row of `note_versions` or `vault_checkpoint_docs` -/
structure RefRow (Id Sha : Type*) where
  kind : Kind
  id : ℕ
  docId : Id
  sha : Sha
  /-- a text that is inline -/
  content : Option Text
  deriving DecidableEq

/-- a statement that a batch is about to send -/
inductive Write (Id Key Bytes Sha : Type*) where
  | sealUpdate (id : ℕ) (update : Bytes) (enc : Sealed Key (Aad Id Sha) Bytes)
  | sealSnapshot (docId : Id) (snapshot : Bytes) (seq : Option ℕ) (enc : Sealed Key (Aad Id Sha) Bytes)
  | sealText (docId : Id) (sha : Sha) (content : Text) (enc : Sealed Key (Aad Id Sha) Text)
  | sealInline (docId : Id) (sha : Sha) (enc : Sealed Key (Aad Id Sha) Text) (now : ℕ)
  | clearUpdate (id : ℕ) (docId : Id) (update : Bytes) (enc : Sealed Key (Aad Id Sha) Bytes)
  | clearSnapshot (docId : Id) (snapshot : Bytes) (seq : Option ℕ) (enc : Sealed Key (Aad Id Sha) Bytes)
  | clearText (docId : Id) (sha : Sha) (content : Text) (enc : Sealed Key (Aad Id Sha) Text)
  | clearInline (kind : Kind) (id : ℕ) (docId : Id) (sha : Sha) (content : Text) (enc : Sealed Key (Aad Id Sha) Text)
  deriving DecidableEq

/-- a compaction under way, and what it has read -/
structure Compaction (Id Key Bytes Sha : Type*) where
  docId : Id
  /-- it has the key -/
  keyed : Bool
  snapshot : Option (Option (SnapshotRow Id Key Bytes Sha)) := none
  rows : Option (List (UpdateRow Id Key Bytes Sha)) := none
  deriving DecidableEq

/-- a capture that has stored its text and not inserted its row -/
structure Capture (Id Sha : Type*) where
  kind : Kind
  docId : Id
  sha : Sha
  deriving DecidableEq

structure St (Id Key Bytes Sha : Type*) where
  updates : List (UpdateRow Id Key Bytes Sha) := []
  snapshots : List (SnapshotRow Id Key Bytes Sha) := []
  texts : List (TextRow Id Key Sha) := []
  refs : List (RefRow Id Sha) := []
  /-- `BIGSERIAL` -/
  nextId : ℕ := 0
  writes : List (Write Id Key Bytes Sha) := []
  compactions : List (Compaction Id Key Bytes Sha) := []
  captures : List (Capture Id Sha) := []
  /-- the sweeps under way: the texts each has found, and its `now()` -/
  sweeps : List (List (Id × Sha) × ℕ) := []
  deriving DecidableEq

/-- Yjs, as a compaction uses it -/
structure Yjs (Bytes : Type*) where
  /-- `encodeStateAsUpdate` of a document with these applied -/
  state : List Bytes → Bytes
  mergeUpdates : List Bytes → Bytes
  /-- `sameDoc` of what the two lists of updates make -/
  sameDoc : List Bytes → List Bytes → Bool
  /-- `Buffer.alloc(0)` -/
  empty : Bytes

inductive Action (Id Bytes Sha : Type*) where
  /-- a batch of the backfill comes to the row; `nonce` is the seal's -/
  | readsUpdate (id nonce : ℕ)
  | readsSnapshot (docId : Id) (nonce : ℕ)
  | readsText (docId : Id) (sha : Sha) (nonce : ℕ)
  | readsInline (kind : Kind) (id nonce now : ℕ)
  /-- a batch of the null-out comes to the row -/
  | comparesUpdate (id : ℕ)
  | comparesSnapshot (docId : Id)
  | comparesText (docId : Id) (sha : Sha)
  | comparesInline (kind : Kind) (id : ℕ)
  /-- a write is sent -/
  | sends (i : ℕ)
  /-- a worker stops, or a statement fails -/
  | drops (i : ℕ)
  | appends (docId : Id) (update : Bytes) (keyed : Bool) (nonce : ℕ)
  | compactionLocks (docId : Id) (keyed : Bool)
  | compactionReadsSnapshot (i : ℕ)
  | compactionReadsLog (i : ℕ)
  | compactionWrites (i nonce nonce' : ℕ)
  | compactionFails (i : ℕ)
  | storesText (kind : Kind) (docId : Id) (content : Text) (keyed : Bool) (nonce now : ℕ)
  | insertsRef (i : ℕ)
  | captureFails (i : ℕ)
  | prunes (kind : Kind) (id : ℕ)
  | sweeps (vaultId : Id) (now : ℕ)
  /-- the sweep comes to a text -/
  | sweepsText (i : ℕ) (docId : Id) (sha : Sha)
  deriving DecidableEq

section

variable [DecidableEq Id] [DecidableEq Key] [DecidableEq Bytes] [DecidableEq Sha]
variable (keyOf : Id → Key)

/-! ## What a row reads as -/

/-- `openDocBytes` with the key -/
def openDocBytes (docId : Id) (aad : Aad Id Sha) (enc : Option (Sealed Key (Aad Id Sha) Bytes)) (plain : Option Bytes) :
    Option Bytes := match enc with
  | some s => openWith (keyOf docId) aad s
  | none => plain

def UpdateRow.reads (r : UpdateRow Id Key Bytes Sha) : Option Bytes :=
  openDocBytes keyOf r.docId (.update r.docId) r.updateEnc r.update

def SnapshotRow.reads (r : SnapshotRow Id Key Bytes Sha) : Option Bytes :=
  openDocBytes keyOf r.docId (.snapshot r.docId) r.snapshotEnc r.snapshot

def TextRow.reads (t : TextRow Id Key Sha) : Option Text := match t.contentEnc with
  | some s => openWith (keyOf t.docId) (.text t.docId t.sha) s
  | none => some t.content

/-- the text a reference names -/
def findText (texts : List (TextRow Id Key Sha)) (docId : Id) (sha : Sha) : Option (TextRow Id Key Sha) :=
  texts.find? fun t => t.docId = docId ∧ t.sha = sha

/-- `(doc_id, sha256)` -/
def textKeys (texts : List (TextRow Id Key Sha)) : List (Id × Sha) := texts.map fun t => (t.docId, t.sha)

/-- `VERSION_CONTENT` and `VERSION_CONTENT_ENC`, resolved -/
def RefRow.reads (texts : List (TextRow Id Key Sha)) (r : RefRow Id Sha) : Option Text := match r.content with
  | some content => some content
  | none => (findText texts r.docId r.sha).bind (TextRow.reads keyOf)

/-! ## The two workers -/

namespace St

variable (s : St Id Key Bytes Sha)

def plans (w : Write Id Key Bytes Sha) : St Id Key Bytes Sha := { s with writes := s.writes ++ [w] }

/-- `batchDocUpdates`, of one row -/
def readsUpdate (id nonce : ℕ) : St Id Key Bytes Sha := match s.updates.find? fun r => r.id = id with
  | some ⟨_, docId, some update, none⟩ =>
    let enc := sealWith (keyOf docId) (.update docId) update nonce
    if openWith (keyOf docId) (.update docId) enc = some update then s.plans (.sealUpdate id update enc) else s
  | _ => s

/-- `batchDocSnapshots` -/
def readsSnapshot (docId : Id) (nonce : ℕ) : St Id Key Bytes Sha :=
  match s.snapshots.find? fun r => r.docId = docId with
  | some ⟨_, some snapshot, none, seq⟩ =>
    let enc := sealWith (keyOf docId) (.snapshot docId) snapshot nonce
    if openWith (keyOf docId) (.snapshot docId) enc = some snapshot then s.plans (.sealSnapshot docId snapshot seq enc)
    else s
  | _ => s

/-- `batchNoteTexts` -/
def readsText (docId : Id) (sha : Sha) (nonce : ℕ) : St Id Key Bytes Sha := match findText s.texts docId sha with
  | some ⟨_, _, content, none, _⟩ =>
    let enc := sealWith (keyOf docId) (.text docId sha) content nonce
    if openWith (keyOf docId) (.text docId sha) enc = some content then s.plans (.sealText docId sha content enc) else s
  | _ => s

variable (sha256 : Text → Sha)

def findRef (kind : Kind) (id : ℕ) : Option (RefRow Id Sha) := s.refs.find? fun r => r.kind = kind ∧ r.id = id

/-- `batchInlineTexts` -/
def readsInline (kind : Kind) (id nonce now : ℕ) : St Id Key Bytes Sha := match s.findRef kind id with
  | some ⟨_, _, docId, sha, some content⟩ =>
    if sha256 content = sha ∧ ¬ ∃ t ∈ s.texts, t.docId = docId ∧ t.sha = sha ∧ t.contentEnc ≠ none then
      let enc := sealWith (keyOf docId) (.text docId sha) content nonce
      if openWith (keyOf docId) (.text docId sha) enc = some content then s.plans (.sealInline docId sha enc now) else s
    else s
  | _ => s

def comparesUpdate (id : ℕ) : St Id Key Bytes Sha := match s.updates.find? fun r => r.id = id with
  | some ⟨_, docId, some update, some enc⟩ =>
    if openWith (keyOf docId) (.update docId) enc = some update then s.plans (.clearUpdate id docId update enc) else s
  | _ => s

def comparesSnapshot (docId : Id) : St Id Key Bytes Sha := match s.snapshots.find? fun r => r.docId = docId with
  | some ⟨_, some snapshot, some enc, seq⟩ =>
    if openWith (keyOf docId) (.snapshot docId) enc = some snapshot then s.plans (.clearSnapshot docId snapshot seq enc)
    else s
  | _ => s

def comparesText (docId : Id) (sha : Sha) : St Id Key Bytes Sha := match findText s.texts docId sha with
  | some ⟨_, _, content, some enc, _⟩ =>
    if content ≠ [] ∧ openWith (keyOf docId) (.text docId sha) enc = some content then
      s.plans (.clearText docId sha content enc)
    else s
  | _ => s

def comparesInline (kind : Kind) (id : ℕ) : St Id Key Bytes Sha := match s.findRef kind id with
  | some ⟨_, _, docId, sha, some content⟩ => match (findText s.texts docId sha).bind TextRow.contentEnc with
    | some enc =>
      if openWith (keyOf docId) (.text docId sha) enc = some content ∧ sha256 content = sha then
        s.plans (.clearInline kind id docId sha content enc)
      else s
    | none => s
  | _ => s

/-- a compaction has the document's lock -/
def isLocked (docId : Id) : Bool := s.compactions.any fun c => c.docId = docId

/-- the statement; `none`: it waits -/
def exec : Write Id Key Bytes Sha → Option (St Id Key Bytes Sha)
  | .sealUpdate id update enc => some { s with updates := s.updates.map fun r =>
    if r.id = id ∧ r.updateEnc = none ∧ r.update = some update then { r with updateEnc := some enc } else r }
  | .sealSnapshot docId snapshot seq enc => some { s with snapshots := s.snapshots.map fun r =>
    if r.docId = docId ∧ r.snapshotEnc = none ∧ r.snapshot = some snapshot ∧ r.seq = seq then
      { r with snapshotEnc := some enc }
    else r }
  | .sealText docId sha content enc => some { s with texts := s.texts.map fun t =>
    if t.docId = docId ∧ t.sha = sha ∧ t.contentEnc = none ∧ t.content = content then { t with contentEnc := some enc }
    else t }
  -- `ON CONFLICT (doc_id, sha256) DO NOTHING`
  | .sealInline docId sha enc now => some (
    if (findText s.texts docId sha).isSome then s
    else { s with texts := s.texts ++ [⟨docId, sha, [], some enc, now⟩] })
  | .clearUpdate id docId update enc =>
    if s.isLocked docId then none
    else some { s with updates := s.updates.map fun r =>
      if r.id = id ∧ r.update = some update ∧ r.updateEnc = some enc then { r with update := none } else r }
  | .clearSnapshot docId snapshot seq enc =>
    if s.isLocked docId then none
    else some { s with snapshots := s.snapshots.map fun r =>
      if r.docId = docId ∧ r.snapshot = some snapshot ∧ r.snapshotEnc = some enc ∧ r.seq = seq then
        { r with snapshot := none }
      else r }
  | .clearText docId sha content enc => some { s with texts := s.texts.map fun t =>
    if t.docId = docId ∧ t.sha = sha ∧ t.content = content ∧ t.contentEnc = some enc then { t with content := [] }
    else t }
  | .clearInline kind id docId sha content enc => some (
    if ∃ t ∈ s.texts, t.docId = docId ∧ t.sha = sha ∧ t.contentEnc = some enc then
      { s with refs := s.refs.map fun r =>
        if r.kind = kind ∧ r.id = id ∧ r.docId = docId ∧ r.sha = sha ∧ r.content = some content then
          { r with content := none }
        else r }
    else s)

def sends (i : ℕ) : St Id Key Bytes Sha := match s.writes[i]? with
  | some w => match s.exec w with
    | some s' => { s' with writes := s.writes.eraseIdx i }
    | none => s
  | none => s

/-! ## The other writers -/

/-- the row that `appendUpdate` inserts -/
def newRow (docId : Id) (update : Bytes) (keyed : Bool) (nonce : ℕ) : UpdateRow Id Key Bytes Sha :=
  if keyed then ⟨s.nextId, docId, none, some (sealWith (keyOf docId) (.update docId) update nonce)⟩
  else ⟨s.nextId, docId, some update, none⟩

/-- `appendUpdate` -/
def appends (docId : Id) (update : Bytes) (keyed : Bool) (nonce : ℕ) : St Id Key Bytes Sha :=
  { s with
    updates := s.updates ++ [s.newRow keyOf docId update keyed nonce]
    nextId := s.nextId + 1 }

def compactionLocks (docId : Id) (keyed : Bool) : St Id Key Bytes Sha :=
  if s.isLocked docId then s else { s with compactions := s.compactions ++ [{ docId := docId, keyed := keyed }] }

def compactionReadsSnapshot (i : ℕ) : St Id Key Bytes Sha :=
  { s with compactions := s.compactions.modify i fun c =>
    { c with snapshot := some (s.snapshots.find? fun r => r.docId = c.docId) } }

def compactionReadsLog (i : ℕ) : St Id Key Bytes Sha :=
  { s with compactions := s.compactions.modify i fun c =>
    { c with rows := some (s.updates.filter fun r => r.docId = c.docId) } }

end St

variable (yjs : Yjs Bytes)

/-- `openDocBytes`, and `KeyRequiredError` -/
def openPart (keyed : Bool) (docId : Id) (aad : Aad Id Sha) (enc : Option (Sealed Key (Aad Id Sha) Bytes))
    (plain : Option Bytes) : Option Bytes := match enc with
  | some s => if keyed then openWith (keyOf docId) aad s else none
  | none => some (plain.getD yjs.empty)

def openSnapshot (keyed : Bool) (docId : Id) : Option (SnapshotRow Id Key Bytes Sha) → Option (List Bytes)
  | some ⟨_, none, none, _⟩ | none => some []
  | some r => (openPart keyOf yjs keyed docId (.snapshot docId) r.snapshotEnc r.snapshot).map fun b => [b]

/-- `openParts`: the snapshot, if there is one, and the log -/
def openParts (keyed : Bool) (docId : Id) (snap : Option (SnapshotRow Id Key Bytes Sha))
    (rows : List (UpdateRow Id Key Bytes Sha)) : Option (List Bytes) :=
  match openSnapshot keyOf yjs keyed docId snap,
    rows.mapM fun r => openPart keyOf yjs keyed docId (.update docId) r.updateEnc r.update with
  | some snapshot, some updates => some (snapshot ++ updates)
  | _, _ => none

/-- `checkDual`: a sealed copy, if there is one, is the plaintext's -/
def checkDual (docId : Id) (aad : Aad Id Sha) (enc : Option (Sealed Key (Aad Id Sha) Bytes)) (plain : Bytes) : Bool :=
  enc.all fun s => openWith (keyOf docId) aad s = some plain

/-- what a compaction writes -/
structure CompactionWrite (Id Key Bytes Sha : Type*) where
  snapshot : SnapshotRow Id Key Bytes Sha
  maxId : ℕ
  /-- the dual row: its plaintext and its seal -/
  legacy : Option (Bytes × Sealed Key (Aad Id Sha) Bytes) := none
  keep : Option ℕ := none

def maxId (rows : List (UpdateRow Id Key Bytes Sha)) : ℕ := (rows.getLast?.map UpdateRow.id).getD 0

/-- `compactLocked` -/
def compactLocked (keyed : Bool) (docId : Id) (rows : List (UpdateRow Id Key Bytes Sha)) (parts : List Bytes)
    (nonce : ℕ) : Option (CompactionWrite Id Key Bytes Sha) :=
  let merged := yjs.state parts
  if keyed then
    let enc := sealWith (keyOf docId) (.snapshot docId) merged nonce
    if openWith (keyOf docId) (.snapshot docId) enc = some merged ∧ yjs.sameDoc [merged] parts then
      some { snapshot := ⟨docId, none, some enc, some (maxId rows)⟩, maxId := maxId rows }
    else none
  else some { snapshot := ⟨docId, some merged, none, some (maxId rows)⟩, maxId := maxId rows }

section

variable (snap : Option (SnapshotRow Id Key Bytes Sha)) (rows : List (UpdateRow Id Key Bytes Sha))

/-- the lone plaintext row that has its seal already -/
def legacyRow : Option (UpdateRow Id Key Bytes Sha) :=
  match snap.bind SnapshotRow.snapshot, rows.filter fun r => r.update ≠ none with
  | none, [r] => if r.updateEnc ≠ none then some r else none
  | _, _ => none

/-- the plaintext of the snapshot and of the log -/
def plainParts : List Bytes :=
  (snap.bind SnapshotRow.snapshot).toList ++ rows.filterMap UpdateRow.update

/-- the plaintext of the one dual row that is left for older readers -/
def legacyPlain : Bytes :=
  match (legacyRow snap rows).bind UpdateRow.update, plainParts snap rows with
  | some update, _ => update
  | none, [p] => p
  | none, ps => yjs.mergeUpdates ps

end

/-- `compactConverting` -/
def compactConverting (docId : Id) (snap : Option (SnapshotRow Id Key Bytes Sha))
    (rows : List (UpdateRow Id Key Bytes Sha)) (parts : List Bytes) (nonce nonce' : ℕ) :
    Option (CompactionWrite Id Key Bytes Sha) :=
  let keep := legacyRow snap rows
  let merged := yjs.state parts
  let mergedEnc := sealWith (keyOf docId) (.snapshot docId) merged nonce
  let legacy := legacyPlain yjs snap rows
  let legacyEnc := sealWith (keyOf docId) (.update docId) legacy nonce'
  if ((snap.bind SnapshotRow.snapshot).all fun p =>
      checkDual keyOf docId (.snapshot docId) (snap.bind SnapshotRow.snapshotEnc) p) ∧
      (∀ r ∈ rows, r.update.all fun p => checkDual keyOf docId (.update docId) r.updateEnc p) ∧
      openWith (keyOf docId) (.snapshot docId) mergedEnc = some merged ∧ yjs.sameDoc [merged] parts ∧
      yjs.sameDoc (plainParts snap rows) [legacy] ∧ yjs.sameDoc [merged, legacy] parts ∧
      openWith (keyOf docId) (.update docId) legacyEnc = some legacy then
    some {
      snapshot := ⟨docId, none, some mergedEnc, some (maxId rows)⟩
      maxId := maxId rows
      legacy := if keep = none then some (legacy, legacyEnc) else none
      keep := keep.map UpdateRow.id }
  else none

def planCompaction (keyed : Bool) (docId : Id) (snap : Option (SnapshotRow Id Key Bytes Sha))
    (rows : List (UpdateRow Id Key Bytes Sha)) (nonce nonce' : ℕ) : Option (CompactionWrite Id Key Bytes Sha) :=
  match openParts keyOf yjs keyed docId snap rows with
  | none => none
  | some parts =>
    if keyed ∧ ((snap.bind SnapshotRow.snapshot).isSome ∨ ∃ r ∈ rows, r.update ≠ none) then
      compactConverting keyOf yjs docId snap rows parts nonce nonce'
    else compactLocked keyOf yjs keyed docId rows parts nonce

namespace St

variable (s : St Id Key Bytes Sha)

/-- `WHERE doc_snapshots.seq IS NULL OR doc_snapshots.seq < EXCLUDED.seq` -/
def admits (w : CompactionWrite Id Key Bytes Sha) : Bool :=
  (s.snapshots.find? fun r => r.docId = w.snapshot.docId).all fun r => r.seq.all (· < w.maxId)

def upsertSnapshot (row : SnapshotRow Id Key Bytes Sha) : List (SnapshotRow Id Key Bytes Sha) :=
  (s.snapshots.filter fun r => r.docId ≠ row.docId) ++ [row]

def writeCompaction (w : CompactionWrite Id Key Bytes Sha) : St Id Key Bytes Sha :=
  let legacy := w.legacy.toList.map fun x : Bytes × Sealed Key (Aad Id Sha) Bytes =>
    (⟨s.nextId, w.snapshot.docId, some x.1, some x.2⟩ : UpdateRow Id Key Bytes Sha)
  if s.admits w then { s with
    snapshots := s.upsertSnapshot w.snapshot
    updates := (s.updates.filter fun r => ¬ (r.docId = w.snapshot.docId ∧ r.id ≤ w.maxId ∧ some r.id ≠ w.keep)) ++
      legacy
    nextId := s.nextId + 1 }
  else s

def compactionWrites (i nonce nonce' : ℕ) : St Id Key Bytes Sha := match s.compactions[i]? with
  | some ⟨docId, keyed, some snap, some rows⟩ =>
    let done := { s with compactions := s.compactions.eraseIdx i }
    if rows = [] then done
    else match planCompaction keyOf yjs keyed docId snap rows nonce nonce' with
      | some w => done.writeCompaction w
      | none => done
  | _ => s

/-- `storeNoteText` -/
def storesText (sha256 : Text → Sha) (kind : Kind) (docId : Id) (content : Text) (keyed : Bool) (nonce now : ℕ) :
    St Id Key Bytes Sha :=
  let sha := sha256 content
  let row : TextRow Id Key Sha :=
    if keyed then ⟨docId, sha, [], some (sealWith (keyOf docId) (.text docId sha) content nonce), now⟩
    else ⟨docId, sha, content, none, now⟩
  let texts :=
    if (findText s.texts docId sha).isSome then s.texts.map fun t =>
      if t.docId = docId ∧ t.sha = sha ∧ t.lastRefAt + NoteTexts.touchInterval < now then { t with lastRefAt := now }
      else t
    else s.texts ++ [row]
  { s with
    texts := texts
    captures := s.captures ++ [⟨kind, docId, sha⟩] }

def insertsRef (i : ℕ) : St Id Key Bytes Sha := match s.captures[i]? with
  | some c => { s with
    refs := s.refs ++ [⟨c.kind, s.nextId, c.docId, c.sha, none⟩]
    captures := s.captures.eraseIdx i
    nextId := s.nextId + 1 }
  | none => s

variable (vaultOf : Id → Id)

/-- `gcNoteTexts` starts -/
def startsSweep (vaultId : Id) (now : ℕ) : St Id Key Bytes Sha :=
  let found := s.texts.filter fun t => vaultOf t.docId = vaultId ∧ t.lastRefAt + NoteTexts.gcGrace < now ∧
    ¬ ∃ r ∈ s.refs, r.docId = t.docId ∧ r.sha = t.sha
  { s with sweeps := s.sweeps ++ [(found.map fun t => (t.docId, t.sha), now)] }

local instance : LawfulBEq (Id × Sha) := inferInstance

/-- a text the `i`-th sweep deletes when it comes to it -/
def isSwept (i : ℕ) (docId : Id) (sha : Sha) (t : TextRow Id Key Sha) : Bool :=
  t.docId = docId ∧ t.sha = sha ∧ (s.sweeps[i]?).any fun x => (docId, sha) ∈ x.1 ∧ t.lastRefAt + NoteTexts.gcGrace < x.2

def sweepsText (i : ℕ) (docId : Id) (sha : Sha) : St Id Key Bytes Sha :=
  { s with texts := s.texts.filter fun t => !s.isSwept i docId sha t }

end St

variable (vaultOf : Id → Id) (sha256 : Text → Sha)

def step (s : St Id Key Bytes Sha) : Action Id Bytes Sha → St Id Key Bytes Sha
  | .readsUpdate id nonce => s.readsUpdate keyOf id nonce
  | .readsSnapshot docId nonce => s.readsSnapshot keyOf docId nonce
  | .readsText docId sha nonce => s.readsText keyOf docId sha nonce
  | .readsInline kind id nonce now => s.readsInline keyOf sha256 kind id nonce now
  | .comparesUpdate id => s.comparesUpdate keyOf id
  | .comparesSnapshot docId => s.comparesSnapshot keyOf docId
  | .comparesText docId sha => s.comparesText keyOf docId sha
  | .comparesInline kind id => s.comparesInline keyOf sha256 kind id
  | .sends i => s.sends i
  | .drops i => { s with writes := s.writes.eraseIdx i }
  | .appends docId update keyed nonce => s.appends keyOf docId update keyed nonce
  | .compactionLocks docId keyed => s.compactionLocks docId keyed
  | .compactionReadsSnapshot i => s.compactionReadsSnapshot i
  | .compactionReadsLog i => s.compactionReadsLog i
  | .compactionWrites i nonce nonce' => s.compactionWrites keyOf yjs i nonce nonce'
  | .compactionFails i => { s with compactions := s.compactions.eraseIdx i }
  | .storesText kind docId content keyed nonce now => s.storesText keyOf sha256 kind docId content keyed nonce now
  | .insertsRef i => s.insertsRef i
  | .captureFails i => { s with captures := s.captures.eraseIdx i }
  | .prunes kind id => { s with refs := s.refs.filter fun r => ¬ (r.kind = kind ∧ r.id = id) }
  | .sweeps vaultId now => s.startsSweep vaultOf vaultId now
  | .sweepsText i docId sha => s.sweepsText i docId sha

def run (s : St Id Key Bytes Sha) (as : List (Action Id Bytes Sha)) : St Id Key Bytes Sha :=
  Machine.run (step keyOf yjs vaultOf sha256) s as

/-! ## What is to hold -/

/-- every row reads as what it read as -/
structure SameReads (s s' : St Id Key Bytes Sha) : Prop where
  updates : s'.updates.map (fun r => (r.id, r.docId, r.reads keyOf)) =
    s.updates.map fun r => (r.id, r.docId, r.reads keyOf)
  snapshots : s'.snapshots.map (fun r => (r.docId, r.seq, r.reads keyOf)) =
    s.snapshots.map fun r => (r.docId, r.seq, r.reads keyOf)
  texts : s.texts.map (fun t => (t.docId, t.sha, t.reads keyOf)) <+:
    s'.texts.map fun t => (t.docId, t.sha, t.reads keyOf)
  refs : List.Forall₂ (fun r r' => (r'.kind, r'.id, r'.docId, r'.sha) = (r.kind, r.id, r.docId, r.sha) ∧
    ∀ content, r.reads keyOf s.texts = some content → r'.reads keyOf s'.texts = some content) s.refs s'.refs

/-- every row can be read, and a text has the hash that it is named by -/
structure Readable (s : St Id Key Bytes Sha) : Prop where
  updates : ∀ r ∈ s.updates, ∃ update, r.reads keyOf = some update
  snapshots : ∀ r ∈ s.snapshots, ∃ snapshot, r.reads keyOf = some snapshot
  texts : ∀ t ∈ s.texts, ∃ content, t.reads keyOf = some content ∧ sha256 content = t.sha
  refs : ∀ r ∈ s.refs, ∃ content, r.reads keyOf s.texts = some content

/-- a row is inserted while its text is there, and no text is swept that a row without a text of its own names -/
def TextsInUse (s : St Id Key Bytes Sha) : Action Id Bytes Sha → Prop
  | .insertsRef i => ∀ c ∈ s.captures[i]?, (findText s.texts c.docId c.sha).isSome
  | .sweepsText i docId sha => (∃ t ∈ s.texts, s.isSwept i docId sha t) → ∀ r ∈ s.refs, r.docId = docId → r.sha = sha →
      r.content ≠ none
  | _ => True

/-- an envelope on its way is of what it says -/
def Write.Ok (s : St Id Key Bytes Sha) : Write Id Key Bytes Sha → Prop
  | .sealUpdate id update enc => id < s.nextId ∧
      ∀ r ∈ s.updates, r.id = id → openWith (keyOf r.docId) (.update r.docId) enc = some update
  | .sealSnapshot docId snapshot _ enc => openWith (keyOf docId) (.snapshot docId) enc = some snapshot
  | .sealText docId sha content enc => openWith (keyOf docId) (.text docId sha) enc = some content
  | .sealInline docId sha enc _ => ∃ content, openWith (keyOf docId) (.text docId sha) enc = some content ∧
      sha256 content = sha
  | .clearInline _ _ docId sha content enc => openWith (keyOf docId) (.text docId sha) enc = some content ∧
      sha256 content = sha
  | _ => True

structure St.Ok (s : St Id Key Bytes Sha) : Prop where
  ids : ∀ r ∈ s.updates, r.id < s.nextId
  unique : (s.updates.map UpdateRow.id).Nodup
  texts : (textKeys s.texts).Nodup
  writes : ∀ w ∈ s.writes, w.Ok keyOf sha256 s

/-- a database at rest -/
structure St.AtRest (s : St Id Key Bytes Sha) : Prop where
  ids : ∀ r ∈ s.updates, r.id < s.nextId
  unique : (s.updates.map UpdateRow.id).Nodup
  texts : (textKeys s.texts).Nodup
  writes : s.writes = []
  captures : s.captures = []
  compactions : s.compactions = []
  sweeps : s.sweeps = []
  readable : Readable keyOf sha256 s

/-! ## A write -/

section

variable {keyOf sha256} {s : St Id Key Bytes Sha}

variable {texts : List (TextRow Id Key Sha)} {docId : Id} {t : TextRow Id Key Sha}

theorem findText_some {sha : Sha} (h : findText texts docId sha = some t) :
    t ∈ texts ∧ t.docId = docId ∧ t.sha = sha :=
  ⟨mem_of_find?_eq_some h, by simpa using find?_some h⟩

/-- the key of `note_texts` -/
theorem findText_eq (hnodup : (textKeys texts).Nodup) (h : t ∈ texts) : findText texts t.docId t.sha = some t := by
  cases hfind : findText texts t.docId t.sha with
  | none => exact absurd (find?_eq_none.1 hfind t h) (by simp)
  | some t' =>
    obtain ⟨hmem, hdoc, hsha⟩ := findText_some hfind
    rw [inj_on_of_nodup_map hnodup hmem h (by rw [hdoc, hsha])]

theorem findText_append {rest : List (TextRow Id Key Sha)} {sha : Sha} (h : findText texts docId sha = some t) :
    findText (texts ++ rest) docId sha = some t := by
  unfold findText at h ⊢
  rw [find?_append, h, Option.some_or]

variable {f : TextRow Id Key Sha → TextRow Id Key Sha}

/-- texts change, and are where they were -/
theorem findText_map (hrow : ∀ t, ((f t).docId, (f t).sha) = (t.docId, t.sha)) (docId : Id) (sha : Sha) :
    findText (texts.map f) docId sha = (findText texts docId sha).map f := by
  unfold findText
  rw [find?_map]
  congr 2
  funext t
  simp only [Function.comp_apply, (Prod.mk.inj (hrow t)).1, (Prod.mk.inj (hrow t)).2]

/-- a row names texts that read the same -/
theorem reads_map (hrow : ∀ t, ((f t).docId, (f t).sha) = (t.docId, t.sha))
    (hreads : ∀ t, (f t).reads keyOf = t.reads keyOf) (r : RefRow Id Sha) :
    r.reads keyOf (texts.map f) = r.reads keyOf texts := by
  unfold RefRow.reads
  cases r.content with
  | some content => rfl
  | none =>
    dsimp only
    rw [findText_map hrow, Option.bind_map]
    congr 1
    funext t
    exact hreads t

theorem reads_append {rest : List (TextRow Id Key Sha)} {r : RefRow Id Sha} {content : Text}
    (h : r.reads keyOf texts = some content) : r.reads keyOf (texts ++ rest) = some content := by
  unfold RefRow.reads at h ⊢
  cases hinline : r.content with
  | some c => simpa [hinline] using h
  | none =>
    rw [hinline] at h
    obtain ⟨t, hfind, hreads⟩ := Option.bind_eq_some_iff.1 h
    exact Option.bind_eq_some_iff.2 ⟨t, findText_append hfind, hreads⟩

variable {w : Write Id Key Bytes Sha} {s' : St Id Key Bytes Sha}

/-- what a statement makes of the rows: each reads as it did, and a text that comes is sealed as it is named -/
inductive Executed (keyOf : Id → Key) (sha256 : Text → Sha) (s : St Id Key Bytes Sha) : St Id Key Bytes Sha → Prop
  | same : Executed keyOf sha256 s s
  | updates (f : UpdateRow Id Key Bytes Sha → UpdateRow Id Key Bytes Sha)
      (hrow : ∀ r ∈ s.updates, ((f r).id, (f r).docId, (f r).reads keyOf) = (r.id, r.docId, r.reads keyOf)) :
      Executed keyOf sha256 s { s with updates := s.updates.map f }
  | snapshots (f : SnapshotRow Id Key Bytes Sha → SnapshotRow Id Key Bytes Sha)
      (hrow : ∀ r, ((f r).docId, (f r).seq, (f r).reads keyOf) = (r.docId, r.seq, r.reads keyOf)) :
      Executed keyOf sha256 s { s with snapshots := s.snapshots.map f }
  | texts (f : TextRow Id Key Sha → TextRow Id Key Sha) (hrow : ∀ t, ((f t).docId, (f t).sha) = (t.docId, t.sha))
      (hreads : ∀ t, (f t).reads keyOf = t.reads keyOf) : Executed keyOf sha256 s { s with texts := s.texts.map f }
  | newText (t : TextRow Id Key Sha) (hnone : ¬ (findText s.texts t.docId t.sha).isSome)
      (ht : ∃ content, t.reads keyOf = some content ∧ sha256 content = t.sha) :
      Executed keyOf sha256 s { s with texts := s.texts ++ [t] }
  | refs (f : RefRow Id Sha → RefRow Id Sha)
      (hrow : ∀ r, ((f r).kind, (f r).id, (f r).docId, (f r).sha) = (r.kind, r.id, r.docId, r.sha))
      (hreads : ∀ r content, r.reads keyOf s.texts = some content → (f r).reads keyOf s.texts = some content) :
      Executed keyOf sha256 s { s with refs := s.refs.map f }

theorem exec_cases (h : s.Ok keyOf sha256) (hw : w.Ok keyOf sha256 s) (hexec : s.exec w = some s') :
    Executed keyOf sha256 s s' := by
  cases w with
  | sealUpdate id update enc =>
    cases hexec
    refine .updates _ fun r hr => ?_
    split
    · next hrow =>
      obtain ⟨hid, hnone, hplain⟩ := hrow
      have hopen := hw.2 r hr hid
      simp only [UpdateRow.reads, openDocBytes, hnone, hplain, hopen]
    · rfl
  | sealSnapshot docId snapshot seq enc =>
    cases hexec
    refine .snapshots _ fun r => ?_
    split
    · next hrow =>
      obtain ⟨rfl, hnone, hplain, _⟩ := hrow
      have hopen : openWith (keyOf r.docId) (.snapshot r.docId) enc = some snapshot := hw
      simp only [SnapshotRow.reads, openDocBytes, hnone, hplain, hopen]
    · rfl
  | sealText docId sha content enc =>
    cases hexec
    refine .texts _ (fun t => by split <;> rfl) fun t => ?_
    split
    · next hrow =>
      obtain ⟨rfl, rfl, hnone, rfl⟩ := hrow
      have hopen : openWith (keyOf t.docId) (.text t.docId t.sha) enc = some t.content := hw
      simp only [TextRow.reads, hnone, hopen]
    · rfl
  | sealInline docId sha enc now =>
    cases hexec
    split
    · exact .same
    · next hnone => exact .newText ⟨docId, sha, [], some enc, now⟩ hnone hw
  | clearUpdate id docId update enc =>
    dsimp only [St.exec] at hexec
    split at hexec
    · cases hexec
    cases hexec
    refine .updates _ fun r _ => ?_
    split
    · next hrow => simp only [UpdateRow.reads, openDocBytes, hrow.2.2]
    · rfl
  | clearSnapshot docId snapshot seq enc =>
    dsimp only [St.exec] at hexec
    split at hexec
    · cases hexec
    cases hexec
    refine .snapshots _ fun r => ?_
    split
    · next hrow => simp only [SnapshotRow.reads, openDocBytes, hrow.2.2.1]
    · rfl
  | clearText docId sha content enc =>
    cases hexec
    refine .texts _ (fun t => by split <;> rfl) fun t => ?_
    split
    · next hrow => simp only [TextRow.reads, hrow.2.2.2]
    · rfl
  | clearInline kind id docId sha content enc =>
    cases hexec
    split
    · next hsealed =>
      obtain ⟨t, ht, rfl, rfl, henc⟩ := hsealed
      refine .refs _ (fun r => by split <;> rfl) fun r c hreads => ?_
      split
      · next hrow =>
        obtain ⟨_, _, hdoc, hsha, hinline⟩ := hrow
        -- it reads its text from here on
        have hcontent : content = c := by simpa [RefRow.reads, hinline] using hreads
        have hfind : findText s.texts r.docId r.sha = some t := by
          rw [hdoc, hsha]
          exact findText_eq h.texts ht
        simp only [RefRow.reads, hfind, Option.bind_some, TextRow.reads, henc, hw.1, hcontent]
      · exact hreads
    · exact .same

/-- **A write changes no value.** -/
theorem Executed.sameReads (h : Executed keyOf sha256 s s') : SameReads keyOf s s' := by
  have hrefs : List.Forall₂ (fun r r' => (r'.kind, r'.id, r'.docId, r'.sha) = (r.kind, r.id, r.docId, r.sha) ∧
      ∀ content, r.reads keyOf s.texts = some content → r'.reads keyOf s.texts = some content) s.refs s.refs :=
    List.forall₂_same.2 fun _ _ => ⟨rfl, fun _ h => h⟩
  cases h with
  | same => exact ⟨rfl, rfl, prefix_rfl, hrefs⟩
  | updates f hrow =>
    refine ⟨?_, rfl, prefix_rfl, hrefs⟩
    rw [map_map]
    exact map_congr_left hrow
  | snapshots f hrow =>
    refine ⟨rfl, ?_, prefix_rfl, hrefs⟩
    rw [map_map]
    exact map_congr_left fun r _ => hrow r
  | texts f hrow hreads =>
    refine ⟨rfl, rfl, ?_, List.forall₂_same.2 fun r _ => ⟨rfl, fun content h => by rwa [reads_map hrow hreads]⟩⟩
    rw [map_map]
    refine (map_congr_left fun t _ => ?_) ▸ prefix_rfl
    simp only [Function.comp_apply, hreads, (Prod.mk.inj (hrow t)).1, (Prod.mk.inj (hrow t)).2]
  | newText t =>
    refine ⟨rfl, rfl, ?_, List.forall₂_same.2 fun r _ => ⟨rfl, fun content hreads => reads_append hreads⟩⟩
    rw [map_append]
    exact prefix_append _ _
  | refs f hrow hreads =>
    exact ⟨rfl, rfl, prefix_rfl, List.forall₂_map_right_iff.2 (List.forall₂_same.2 fun r _ => ⟨hrow r, hreads r⟩)⟩

/-! ## What is on its way -/

/-- ids are not used twice: a row is there already, or new -/
structure Grows (s s' : St Id Key Bytes Sha) : Prop where
  nextId : s.nextId ≤ s'.nextId
  updates : ∀ r' ∈ s'.updates,
    r'.id < s'.nextId ∧ (r'.id < s.nextId → ∃ r ∈ s.updates, r.id = r'.id ∧ r.docId = r'.docId)
  unique : (s'.updates.map UpdateRow.id).Nodup

variable {s : St Id Key Bytes Sha}

theorem Write.Ok.grows (h : Grows s s') (hw : w.Ok keyOf sha256 s) : w.Ok keyOf sha256 s' := by
  cases w with
  | sealUpdate id update enc =>
    refine ⟨hw.1.trans_le h.nextId, fun r' hr' hid => ?_⟩
    obtain ⟨r, hr, hrid, hdoc⟩ := (h.updates r' hr').2 (hid ▸ hw.1)
    rw [← hdoc]
    exact hw.2 r hr (hrid.trans hid)
  | _ => exact hw

theorem St.Ok.next (h : s.Ok keyOf sha256) (hgrows : Grows s s') (htexts : (textKeys s'.texts).Nodup)
    (hwrites : ∀ w ∈ s'.writes, w ∈ s.writes ∨ w.Ok keyOf sha256 s') : s'.Ok keyOf sha256 := by
  refine ⟨fun r' hr' => (hgrows.updates r' hr').1, hgrows.unique, htexts, fun w hw => ?_⟩
  rcases hwrites w hw with hw | hw
  · exact (h.writes w hw).grows hgrows
  · exact hw

/-- ids and documents stay -/
theorem St.Ok.growsMap (h : s.Ok keyOf sha256) {f : UpdateRow Id Key Bytes Sha → UpdateRow Id Key Bytes Sha}
    (hrow : ∀ r ∈ s.updates, (f r).id = r.id ∧ (f r).docId = r.docId) (hupdates : s'.updates = s.updates.map f)
    (hnext : s.nextId ≤ s'.nextId) : Grows s s' := by
  refine ⟨hnext, fun r' hr' => ?_, ?_⟩
  · rw [hupdates] at hr'
    obtain ⟨r, hr, rfl⟩ := mem_map.1 hr'
    obtain ⟨hid, hdoc⟩ := hrow r hr
    exact ⟨by rw [hid]; exact (h.ids r hr).trans_le hnext, fun _ => ⟨r, hr, hid.symm, hdoc.symm⟩⟩
  · have hsame : s.updates.map (UpdateRow.id ∘ f) = s.updates.map UpdateRow.id :=
      map_congr_left fun r hr => (hrow r hr).1
    rw [hupdates, map_map, hsame]
    exact h.unique

theorem St.Ok.grows (h : s.Ok keyOf sha256) (hupdates : s'.updates = s.updates) (hnext : s.nextId ≤ s'.nextId) :
    Grows s s' :=
  h.growsMap (f := id) (fun _ _ => ⟨rfl, rfl⟩) (by rw [hupdates, map_id]) hnext

variable {rows : List (UpdateRow Id Key Bytes Sha)}

/-- some rows go, and some come with new ids -/
theorem St.Ok.growsFilter (h : s.Ok keyOf sha256) {p : UpdateRow Id Key Bytes Sha → Bool}
    (hrows : ∀ r ∈ rows, r.id = s.nextId) (hlen : rows.length ≤ 1)
    (hupdates : s'.updates = s.updates.filter p ++ rows) (hnext : s'.nextId = s.nextId + 1) : Grows s s' := by
  refine ⟨by omega, fun r' hr' => ?_, ?_⟩
  · rw [hupdates] at hr'
    rcases mem_append.1 hr' with hr' | hr'
    · have hold := mem_of_mem_filter hr'
      have hlt := h.ids r' hold
      exact ⟨by omega, fun _ => ⟨r', hold, rfl, rfl⟩⟩
    · have hid := hrows r' hr'
      exact ⟨by omega, fun hlt => absurd hlt (by omega)⟩
  · rw [hupdates, map_append]
    refine List.Nodup.append (h.unique.sublist (filter_sublist.map _)) ?_ ?_
    · match rows, hlen with
      | [], _ => exact nodup_nil
      | [r], _ => exact nodup_singleton _
    · intro id hold hnew
      obtain ⟨r, hr, rfl⟩ := mem_map.1 hold
      obtain ⟨r', hr', hid⟩ := mem_map.1 hnew
      have hlt := h.ids r (mem_of_mem_filter hr)
      have heq := hrows r' hr'
      omega

/-- nothing that a write says is touched -/
theorem St.Ok.keep (h : s.Ok keyOf sha256) (hupdates : s'.updates = s.updates) (hnext : s.nextId ≤ s'.nextId)
    (htexts : (textKeys s'.texts).Nodup) (hwrites : ∀ w ∈ s'.writes, w ∈ s.writes) : s'.Ok keyOf sha256 :=
  h.next (h.grows hupdates hnext) htexts fun w hw => .inl (hwrites w hw)

/-- a batch plans a write of what it has checked, or nothing -/
inductive Planned (keyOf : Id → Key) (sha256 : Text → Sha) (s : St Id Key Bytes Sha) : St Id Key Bytes Sha → Prop
  | none : Planned keyOf sha256 s s
  | plans (w : Write Id Key Bytes Sha) (hw : w.Ok keyOf sha256 s) : Planned keyOf sha256 s (s.plans w)

theorem Planned.ok (hplan : Planned keyOf sha256 s s') (h : s.Ok keyOf sha256) : s'.Ok keyOf sha256 := by
  cases hplan with
  | none => exact h
  | plans w hw =>
    refine h.next (h.grows rfl le_rfl) h.texts fun w' hw' => ?_
    rcases mem_snoc.1 hw' with hw' | rfl
    · exact .inl hw'
    · exact .inr (hw.grows (h.grows rfl le_rfl))

/-- a batch that comes to an update plans a seal of that update -/
theorem readsUpdate_plans (h : s.Ok keyOf sha256) (id nonce : ℕ) :
    Planned keyOf sha256 s (s.readsUpdate keyOf id nonce) := by
  unfold St.readsUpdate
  split
  · next docId update hfind =>
    dsimp only
    split
    · next hopen =>
      have hmem := mem_of_find?_eq_some hfind
      have hid := find?_some hfind
      simp only [decide_eq_true_eq] at hid
      refine .plans _ ⟨?_, fun r hr hrid => ?_⟩
      · rw [← hid]
        exact h.ids _ hmem
      · have hrow : r = _ := inj_on_of_nodup_map h.unique hr hmem (hrid.trans hid.symm)
        rw [hrow]
        exact hopen
    · exact .none
  · exact .none

theorem readsSnapshot_plans (docId : Id) (nonce : ℕ) : Planned keyOf sha256 s (s.readsSnapshot keyOf docId nonce) := by
  unfold St.readsSnapshot
  split
  · dsimp only
    split
    · next hopen => exact .plans _ hopen
    · exact .none
  · exact .none

theorem readsText_plans (docId : Id) (sha : Sha) (nonce : ℕ) :
    Planned keyOf sha256 s (s.readsText keyOf docId sha nonce) := by
  unfold St.readsText
  split
  · dsimp only
    split
    · next hopen => exact .plans _ hopen
    · exact .none
  · exact .none

theorem readsInline_plans (kind : Kind) (id nonce now : ℕ) :
    Planned keyOf sha256 s (s.readsInline keyOf sha256 kind id nonce now) := by
  unfold St.readsInline
  split
  · next docId sha content hfind =>
    split
    · next hsha =>
      dsimp only
      split
      · next hopen => exact .plans _ ⟨content, hopen, hsha.1⟩
      · exact .none
    · exact .none
  · exact .none

theorem comparesUpdate_plans (id : ℕ) : Planned keyOf sha256 s (s.comparesUpdate keyOf id) := by
  unfold St.comparesUpdate
  split
  · split
    · exact .plans _ trivial
    · exact .none
  · exact .none

theorem comparesSnapshot_plans (docId : Id) : Planned keyOf sha256 s (s.comparesSnapshot keyOf docId) := by
  unfold St.comparesSnapshot
  split
  · split
    · exact .plans _ trivial
    · exact .none
  · exact .none

theorem comparesText_plans (docId : Id) (sha : Sha) : Planned keyOf sha256 s (s.comparesText keyOf docId sha) := by
  unfold St.comparesText
  split
  · split
    · exact .plans _ trivial
    · exact .none
  · exact .none

theorem comparesInline_plans (kind : Kind) (id : ℕ) :
    Planned keyOf sha256 s (s.comparesInline keyOf sha256 kind id) := by
  unfold St.comparesInline
  split
  · split
    · split
      · next hopen => exact .plans _ hopen
      · exact .none
    · exact .none
  · exact .none

theorem textKeys_map (hrow : ∀ t, ((f t).docId, (f t).sha) = (t.docId, t.sha)) :
    textKeys (texts.map f) = textKeys texts := by
  unfold textKeys
  rw [map_map]
  exact map_congr_left fun t _ => hrow t

theorem textKeys_append (h : (textKeys texts).Nodup) (hnone : ¬ (findText texts t.docId t.sha).isSome) :
    (textKeys (texts ++ [t])).Nodup := by
  unfold textKeys at h ⊢
  rw [map_append]
  refine List.Nodup.append h (nodup_singleton _) ?_
  intro key hold hnew
  obtain ⟨t', ht', rfl⟩ := mem_map.1 hold
  have hsame := mem_singleton.1 hnew
  apply hnone
  rw [findText, find?_isSome]
  exact ⟨t', ht', by simpa using hsame⟩

/-- what a statement leaves of the keys -/
theorem Executed.ok (hexec : Executed keyOf sha256 s s') (h : s.Ok keyOf sha256) :
    Grows s s' ∧ (textKeys s'.texts).Nodup := by
  cases hexec with
  | updates f hrow =>
    refine ⟨h.growsMap (fun r hr => ?_) rfl le_rfl, h.texts⟩
    have heq := hrow r hr
    simp only [Prod.mk.injEq] at heq
    exact ⟨heq.1, heq.2.1⟩
  | texts f hrow => exact ⟨h.grows rfl le_rfl, by rw [textKeys_map hrow]; exact h.texts⟩
  | newText t hnone => exact ⟨h.grows rfl le_rfl, textKeys_append h.texts hnone⟩
  | same | snapshots | refs => exact ⟨h.grows rfl le_rfl, h.texts⟩

theorem sends_ok (h : s.Ok keyOf sha256) (i : ℕ) : (s.sends i).Ok keyOf sha256 := by
  unfold St.sends
  split
  · next w hw =>
    split
    · next s' hexec =>
      obtain ⟨hgrows, htexts⟩ := (exec_cases h (h.writes w (mem_of_getElem? hw)) hexec).ok h
      have hsent : Grows s { s' with writes := s.writes.eraseIdx i } := ⟨hgrows.nextId, hgrows.updates, hgrows.unique⟩
      exact h.next hsent htexts fun w hw => .inl (mem_of_mem_eraseIdx hw)
    · exact h
  · exact h

theorem writeCompaction_ok (h : s.Ok keyOf sha256) (w : CompactionWrite Id Key Bytes Sha) :
    (s.writeCompaction w).Ok keyOf sha256 := by
  unfold St.writeCompaction
  split
  · refine h.next (h.growsFilter ?_ ?_ rfl rfl) h.texts fun w hw => .inl hw
    · intro r hr
      obtain ⟨x, _, rfl⟩ := mem_map.1 hr
      rfl
    · cases w.legacy with
      | none | some x => simp
  · exact h

/-- a capture's text is there, or comes sealed or plain -/
theorem storesText_cases (kind : Kind) (docId : Id) (content : Text) (keyed : Bool) (nonce now : ℕ) :
    Executed keyOf sha256 s
      { s with texts := (s.storesText keyOf sha256 kind docId content keyed nonce now).texts } := by
  unfold St.storesText
  dsimp only
  split
  · refine .texts _ (fun t => ?_) fun t => ?_ <;> split <;> rfl
  · next hnone =>
    refine .newText _ ?_ ?_ <;> split
    · exact hnone
    · exact hnone
    · exact ⟨content, openWith_sealWith _ _ _ _, rfl⟩
    · exact ⟨content, rfl, rfl⟩

variable (vaultOf : Id → Id) (yjs : Yjs Bytes)

/-- **What is on its way stays what it says.** -/
theorem step_ok (h : s.Ok keyOf sha256) (a : Action Id Bytes Sha) :
    (step keyOf yjs vaultOf sha256 s a).Ok keyOf sha256 := by
  cases a with
  | readsUpdate id nonce => exact (readsUpdate_plans h id nonce).ok h
  | readsSnapshot docId nonce => exact (readsSnapshot_plans docId nonce).ok h
  | readsText docId sha nonce => exact (readsText_plans docId sha nonce).ok h
  | readsInline kind id nonce now => exact (readsInline_plans kind id nonce now).ok h
  | comparesUpdate id => exact (comparesUpdate_plans id).ok h
  | comparesSnapshot docId => exact (comparesSnapshot_plans docId).ok h
  | comparesText docId sha => exact (comparesText_plans docId sha).ok h
  | comparesInline kind id => exact (comparesInline_plans kind id).ok h
  | sends i => exact sends_ok h i
  | drops i => exact h.keep rfl le_rfl h.texts fun w hw => mem_of_mem_eraseIdx hw
  | appends docId update keyed nonce =>
    have hkept : s.updates = s.updates.filter fun _ => true := (filter_true _).symm
    refine h.next (h.growsFilter (p := fun _ => true) ?_ ?_ (congrArg (· ++ _) hkept) rfl) h.texts fun w hw => .inl hw
    · intro r hr
      obtain rfl := mem_singleton.1 hr
      unfold St.newRow
      split <;> rfl
    · exact le_rfl
  | compactionLocks docId keyed =>
    simp only [step, St.compactionLocks]
    split
    · exact h
    · exact h.keep rfl le_rfl h.texts fun w hw => hw
  | compactionReadsSnapshot i | compactionReadsLog i | compactionFails i | captureFails i | prunes kind id
  | sweeps vaultId now => exact h.keep rfl le_rfl h.texts fun w hw => hw
  | compactionWrites i nonce nonce' =>
    simp only [step, St.compactionWrites]
    split
    · next docId keyed snap rows hi =>
      have hdone : ({ s with compactions := s.compactions.eraseIdx i } : St Id Key Bytes Sha).Ok keyOf sha256 :=
        h.keep rfl le_rfl h.texts fun w hw => hw
      split
      · exact hdone
      · split
        · next w hplan => exact writeCompaction_ok hdone w
        · exact hdone
    · exact h
  | storesText kind docId content keyed nonce now =>
    exact h.keep rfl le_rfl ((storesText_cases kind docId content keyed nonce now).ok h).2 fun w hw => hw
  | insertsRef i =>
    simp only [step, St.insertsRef]
    split
    · exact h.keep rfl (Nat.le_succ _) h.texts fun w hw => hw
    · exact h
  | sweepsText i docId sha =>
    exact h.keep rfl le_rfl (h.texts.sublist (filter_sublist.map _)) fun w hw => hw

/-! ## What can be read -/

theorem findText_isSome {sha : Sha} (h : (findText texts docId sha).isSome) :
    ∃ t ∈ texts, t.docId = docId ∧ t.sha = sha := by
  obtain ⟨t, hfind⟩ := Option.isSome_iff_exists.1 h
  exact ⟨t, findText_some hfind⟩

/-- a row that names a text that is there -/
theorem reads_named (htexts : ∀ t ∈ texts, ∃ content, t.reads keyOf = some content ∧ sha256 content = t.sha)
    {r : RefRow Id Sha} (hfind : (findText texts r.docId r.sha).isSome) :
    ∃ content, r.reads keyOf texts = some content := by
  obtain ⟨t, ht⟩ := Option.isSome_iff_exists.1 hfind
  obtain ⟨content, hreads, _⟩ := htexts t (findText_some ht).1
  cases hinline : r.content with
  | some c => exact ⟨c, by simp only [RefRow.reads, hinline]⟩
  | none => exact ⟨content, by simp only [RefRow.reads, hinline, ht, Option.bind_some, hreads]⟩

/-- it reads what is there, or what it has itself -/
theorem reads_iff (htexts : ∀ t ∈ texts, ∃ content, t.reads keyOf = some content ∧ sha256 content = t.sha)
    (r : RefRow Id Sha) :
    (∃ content, r.reads keyOf texts = some content) ↔ (r.content = none → (findText texts r.docId r.sha).isSome) := by
  constructor
  · rintro ⟨content, hreads⟩ hinline
    unfold RefRow.reads at hreads
    rw [hinline] at hreads
    obtain ⟨t, hfind, _⟩ := Option.bind_eq_some_iff.1 hreads
    exact Option.isSome_iff_exists.2 ⟨t, hfind⟩
  · intro h
    cases hinline : r.content with
    | some c => exact ⟨c, by simp only [RefRow.reads, hinline]⟩
    | none => exact reads_named htexts (h hinline)

/-- a text that a statement leaves: it was there, or it is sealed as it is named -/
theorem Executed.texts_named (hexec : Executed keyOf sha256 s s')
    (htexts : ∀ t ∈ s.texts, ∃ content, t.reads keyOf = some content ∧ sha256 content = t.sha) :
    ∀ t ∈ s'.texts, ∃ content, t.reads keyOf = some content ∧ sha256 content = t.sha := by
  cases hexec with
  | texts f hrow hreads =>
    intro t' ht'
    obtain ⟨t, ht, rfl⟩ := mem_map.1 ht'
    rw [hreads, (Prod.mk.inj (hrow t)).2]
    exact htexts t ht
  | newText t hnone hnamed =>
    intro t' ht'
    rcases mem_snoc.1 ht' with ht' | rfl
    · exact htexts t' ht'
    · exact hnamed
  | same | updates | snapshots | refs => exact htexts

/-- a row that is related to another row, in its place -/
theorem forall₂_mem {R : RefRow Id Sha → RefRow Id Sha → Prop} {refs refs' : List (RefRow Id Sha)}
    (h : List.Forall₂ R refs refs') : ∀ r' ∈ refs', ∃ r ∈ refs, R r r' := by
  induction h with
  | nil => simp
  | @cons r r' refs refs' hr _ ih =>
    intro r'' hr''
    rcases mem_cons.1 hr'' with rfl | hr''
    · exact ⟨r, .head _, hr⟩
    · obtain ⟨r₀, hmem, hrel⟩ := ih r'' hr''
      exact ⟨r₀, .tail _ hmem, hrel⟩

theorem Executed.readable (hexec : Executed keyOf sha256 s s') (hread : Readable keyOf sha256 s) :
    Readable keyOf sha256 s' := by
  have hsame := hexec.sameReads
  refine ⟨fun r' hr' => ?_, fun r' hr' => ?_, hexec.texts_named hread.texts, fun r' hr' => ?_⟩
  · have hmem := mem_map_of_mem (f := fun r : UpdateRow Id Key Bytes Sha => (r.id, r.docId, r.reads keyOf)) hr'
    rw [hsame.updates] at hmem
    obtain ⟨r, hr, heq⟩ := mem_map.1 hmem
    obtain ⟨update, hreads⟩ := hread.updates r hr
    simp only [Prod.mk.injEq] at heq
    exact ⟨update, heq.2.2 ▸ hreads⟩
  · have hmem := mem_map_of_mem (f := fun r : SnapshotRow Id Key Bytes Sha => (r.docId, r.seq, r.reads keyOf)) hr'
    rw [hsame.snapshots] at hmem
    obtain ⟨r, hr, heq⟩ := mem_map.1 hmem
    obtain ⟨snapshot, hreads⟩ := hread.snapshots r hr
    simp only [Prod.mk.injEq] at heq
    exact ⟨snapshot, heq.2.2 ▸ hreads⟩
  · obtain ⟨r, hr, _, hreads⟩ := forall₂_mem hsame.refs r' hr'
    obtain ⟨content, hcontent⟩ := hread.refs r hr
    exact ⟨content, hreads content hcontent⟩

/-- a step that touches no row -/
theorem Readable.keep (h : Readable keyOf sha256 s) (hupdates : s'.updates = s.updates)
    (hsnapshots : s'.snapshots = s.snapshots) (htexts : s'.texts = s.texts) (hrefs : ∀ r ∈ s'.refs, r ∈ s.refs) :
    Readable keyOf sha256 s' := by
  refine ⟨hupdates ▸ h.updates, hsnapshots ▸ h.snapshots, htexts ▸ h.texts, fun r hr => ?_⟩
  rw [htexts]
  exact h.refs r (hrefs r hr)

/-- a batch only plans -/
theorem Planned.readable (hplan : Planned keyOf sha256 s s') (h : Readable keyOf sha256 s) : Readable keyOf sha256 s' := by
  cases hplan with
  | none => exact h
  | plans w => exact h.keep rfl rfl rfl fun _ hr => hr

/-- what a compaction writes can be read -/
structure CompactionWrite.Ok (keyOf : Id → Key) (w : CompactionWrite Id Key Bytes Sha) : Prop where
  snapshot : ∃ snapshot, w.snapshot.reads keyOf = some snapshot
  legacy : ∀ x ∈ w.legacy, openWith (keyOf w.snapshot.docId) (.update w.snapshot.docId) x.2 = some x.1

variable (vaultOf : Id → Id) (yjs : Yjs Bytes)

theorem compactLocked_ok {keyed : Bool} {parts : List Bytes} {nonce : ℕ} {w : CompactionWrite Id Key Bytes Sha}
    (h : compactLocked keyOf yjs keyed docId rows parts nonce = some w) : w.Ok keyOf := by
  unfold compactLocked at h
  dsimp only at h
  split at h
  · split at h
    · next hopen =>
      cases h
      exact ⟨⟨_, hopen.1⟩, by simp⟩
    · cases h
  · cases h
    exact ⟨⟨_, rfl⟩, by simp⟩

theorem compactConverting_ok {snap : Option (SnapshotRow Id Key Bytes Sha)} {parts : List Bytes} {nonce nonce' : ℕ}
    {w : CompactionWrite Id Key Bytes Sha}
    (h : compactConverting keyOf yjs docId snap rows parts nonce nonce' = some w) : w.Ok keyOf := by
  unfold compactConverting at h
  dsimp only at h
  split at h
  · next hchecked =>
    cases h
    refine ⟨⟨_, hchecked.2.2.1⟩, fun x hx => ?_⟩
    split at hx
    · cases hx
      exact openWith_sealWith _ _ _ _
    · cases hx
  · cases h

theorem planCompaction_ok {keyed : Bool} {snap : Option (SnapshotRow Id Key Bytes Sha)} {nonce nonce' : ℕ}
    {w : CompactionWrite Id Key Bytes Sha} (h : planCompaction keyOf yjs keyed docId snap rows nonce nonce' = some w) :
    w.Ok keyOf := by
  unfold planCompaction at h
  split at h
  · cases h
  · split at h
    · exact compactConverting_ok yjs h
    · exact compactLocked_ok yjs h

theorem writeCompaction_readable (h : Readable keyOf sha256 s) {w : CompactionWrite Id Key Bytes Sha}
    (hw : w.Ok keyOf) : Readable keyOf sha256 (s.writeCompaction w) := by
  unfold St.writeCompaction
  split
  · refine ⟨fun r hr => ?_, fun r hr => ?_, h.texts, h.refs⟩
    · rcases mem_append.1 hr with hr | hr
      · exact h.updates r (mem_of_mem_filter hr)
      · obtain ⟨x, hx, rfl⟩ := mem_map.1 hr
        exact ⟨x.1, hw.legacy x (by simpa using hx)⟩
    · rcases mem_snoc.1 hr with hr | rfl
      · exact h.snapshots r (mem_of_mem_filter hr)
      · exact hw.snapshot
  · exact h

/-- a row that names its text can be read exactly if the text is there -/
theorem insertsRef_readable (hread : Readable keyOf sha256 s) (i : ℕ) :
    Readable keyOf sha256 (s.insertsRef i) ↔ ∀ c ∈ s.captures[i]?, (findText s.texts c.docId c.sha).isSome := by
  unfold St.insertsRef
  cases hi : s.captures[i]? with
  | none => simpa using hread
  | some c =>
    simp only [Option.mem_def, Option.some.injEq, forall_eq']
    constructor
    · intro h
      have hnew := h.refs ⟨c.kind, s.nextId, c.docId, c.sha, none⟩ (mem_append_right _ (mem_singleton_self _))
      exact (reads_iff h.texts _).1 hnew rfl
    · intro hfind
      refine ⟨hread.updates, hread.snapshots, hread.texts, fun r hr => ?_⟩
      rcases mem_snoc.1 hr with hr | rfl
      · exact hread.refs r hr
      · exact (reads_iff hread.texts _).2 fun _ => hfind

/-- every row can still be read exactly if the text that goes is named by none -/
theorem sweepsText_readable (h : s.Ok keyOf sha256) (hread : Readable keyOf sha256 s) (i : ℕ) (docId : Id) (sha : Sha) :
    Readable keyOf sha256 (s.sweepsText i docId sha) ↔ ((∃ t ∈ s.texts, s.isSwept i docId sha t) →
      ∀ r ∈ s.refs, r.docId = docId → r.sha = sha → r.content ≠ none) := by
  constructor
  · rintro hafter ⟨t, ht, hswept⟩ r hr hdoc hsha hinline
    have hfind := (reads_iff hafter.texts r).1 (hafter.refs r hr) hinline
    obtain ⟨t', ht', hdoc', hsha'⟩ := findText_isSome hfind
    obtain ⟨hmem, hstays⟩ := mem_filter.1 ht'
    -- a text has one row
    have hkey : t'.docId = t.docId ∧ t'.sha = t.sha := by
      simp only [St.isSwept, Bool.decide_and, Bool.and_eq_true, decide_eq_true_eq] at hswept
      exact ⟨by rw [hdoc', hdoc, hswept.1], by rw [hsha', hsha, hswept.2.1]⟩
    have hsame : t' = t := inj_on_of_nodup_map h.texts hmem ht (by rw [hkey.1, hkey.2])
    rw [hsame, hswept] at hstays
    cases hstays
  · intro hfree
    refine ⟨hread.updates, hread.snapshots, fun t ht => hread.texts t (mem_of_mem_filter ht), fun r hr => ?_⟩
    refine (reads_iff (fun t ht => hread.texts t (mem_of_mem_filter ht)) r).2 fun hinline => ?_
    obtain ⟨t, ht, hdoc, hsha⟩ := findText_isSome ((reads_iff hread.texts r).1 (hread.refs r hr) hinline)
    unfold findText
    rw [find?_isSome]
    refine ⟨t, mem_filter.2 ⟨ht, ?_⟩, by simp [hdoc, hsha]⟩
    cases hswept : s.isSwept i docId sha t with
    | false => rfl
    | true =>
      have hkey : t.docId = docId ∧ t.sha = sha := by
        simp only [St.isSwept, Bool.decide_and, Bool.and_eq_true, decide_eq_true_eq] at hswept
        exact ⟨hswept.1, hswept.2.1⟩
      exact absurd hinline (hfree ⟨t, ht, hswept⟩ r hr (hdoc.symm.trans hkey.1) (hsha.symm.trans hkey.2))

/-- **A step leaves every row readable exactly if the texts in use are left.** -/
theorem step_readable (h : s.Ok keyOf sha256) (hread : Readable keyOf sha256 s) (a : Action Id Bytes Sha) :
    Readable keyOf sha256 (step keyOf yjs vaultOf sha256 s a) ↔ TextsInUse s a := by
  cases a with
  | readsUpdate id nonce => exact iff_of_true ((readsUpdate_plans h id nonce).readable hread) trivial
  | readsSnapshot docId nonce => exact iff_of_true ((readsSnapshot_plans docId nonce).readable hread) trivial
  | readsText docId sha nonce => exact iff_of_true ((readsText_plans docId sha nonce).readable hread) trivial
  | readsInline kind id nonce now =>
    exact iff_of_true ((readsInline_plans kind id nonce now).readable hread) trivial
  | comparesUpdate id => exact iff_of_true ((comparesUpdate_plans id).readable hread) trivial
  | comparesSnapshot docId => exact iff_of_true ((comparesSnapshot_plans docId).readable hread) trivial
  | comparesText docId sha => exact iff_of_true ((comparesText_plans docId sha).readable hread) trivial
  | comparesInline kind id => exact iff_of_true ((comparesInline_plans kind id).readable hread) trivial
  | sends i =>
    refine iff_of_true ?_ trivial
    simp only [step, St.sends]
    split
    · next w hw =>
      split
      · next s' hexec =>
        have hnext := (exec_cases h (h.writes w (mem_of_getElem? hw)) hexec).readable hread
        exact hnext.keep rfl rfl rfl fun _ hr => hr
      · exact hread
    · exact hread
  | drops i | compactionReadsSnapshot i | compactionReadsLog i | compactionFails i | captureFails i
  | sweeps vaultId now => exact iff_of_true (hread.keep rfl rfl rfl fun _ hr => hr) trivial
  | appends docId update keyed nonce =>
    refine iff_of_true ⟨fun r hr => ?_, hread.snapshots, hread.texts, hread.refs⟩ trivial
    rcases mem_snoc.1 hr with hr | rfl
    · exact hread.updates r hr
    · unfold St.newRow
      split
      · exact ⟨update, openWith_sealWith _ _ _ _⟩
      · exact ⟨update, rfl⟩
  | compactionLocks docId keyed =>
    refine iff_of_true ?_ trivial
    simp only [step, St.compactionLocks]
    split
    · exact hread
    · exact hread.keep rfl rfl rfl fun _ hr => hr
  | compactionWrites i nonce nonce' =>
    refine iff_of_true ?_ trivial
    simp only [step, St.compactionWrites]
    split
    · next docId keyed snap rows hi =>
      have hdone : Readable keyOf sha256 ({ s with compactions := s.compactions.eraseIdx i } : St Id Key Bytes Sha) :=
        hread.keep rfl rfl rfl fun _ hr => hr
      split
      · exact hdone
      · split
        · next w hplan => exact writeCompaction_readable hdone (planCompaction_ok yjs hplan)
        · exact hdone
    · exact hread
  | storesText kind docId content keyed nonce now =>
    have hnext : Readable keyOf sha256
        { s with texts := (s.storesText keyOf sha256 kind docId content keyed nonce now).texts } :=
      (storesText_cases kind docId content keyed nonce now).readable hread
    exact iff_of_true (hnext.keep rfl rfl rfl fun _ hr => hr) trivial
  | insertsRef i => exact insertsRef_readable hread i
  | prunes kind id => exact iff_of_true (hread.keep rfl rfl rfl fun r hr => mem_of_mem_filter hr) trivial
  | sweepsText i docId sha => exact sweepsText_readable h hread i docId sha

theorem sends_sameReads (h : s.Ok keyOf sha256) (i : ℕ) : SameReads keyOf s (s.sends i) := by
  unfold St.sends
  split
  · next w hw =>
    split
    · next s' hexec =>
      have hsame := (exec_cases h (h.writes w (mem_of_getElem? hw)) hexec).sameReads
      exact ⟨hsame.updates, hsame.snapshots, hsame.texts, hsame.refs⟩
    · exact Executed.sameReads (.same : Executed keyOf sha256 s s)
  · exact Executed.sameReads (.same : Executed keyOf sha256 s s)

theorem St.AtRest.ok (h : s.AtRest keyOf sha256) : s.Ok keyOf sha256 :=
  ⟨h.ids, h.unique, h.texts, fun w hw => by simp [h.writes] at hw⟩

theorem run_ok (h : s.Ok keyOf sha256) (as : List (Action Id Bytes Sha)) :
    (run keyOf yjs vaultOf sha256 s as).Ok keyOf sha256 :=
  Machine.run_inv_all (fun s => St.Ok keyOf sha256 s) (fun _ a hs => step_ok vaultOf yjs hs a) h

end

/-- **Sealing and clearing keep every value.** From a database at rest, in every run: no write of the two workers
changes what a row reads as; and every row can be read, in every state the run passes through, exactly if a row is only
inserted while its text is there and no text is swept that a row names. -/
theorem sealing_keeps_values (s₀ : St Id Key Bytes Sha) (h₀ : s₀.AtRest keyOf sha256)
    (as : List (Action Id Bytes Sha)) :
    (∀ n i, SameReads keyOf (run keyOf yjs vaultOf sha256 s₀ (as.take n))
      (step keyOf yjs vaultOf sha256 (run keyOf yjs vaultOf sha256 s₀ (as.take n)) (.sends i))) ∧
    ((∀ n, Readable keyOf sha256 (run keyOf yjs vaultOf sha256 s₀ (as.take n))) ↔
      Machine.Guarded (step keyOf yjs vaultOf sha256) TextsInUse s₀ as) := by
  refine ⟨fun n i => sends_sameReads (run_ok vaultOf yjs h₀.ok _) i, ?_⟩
  have hinv : ∀ (s : St Id Key Bytes Sha) a, s.Ok keyOf sha256 →
      St.Ok keyOf sha256 (step keyOf yjs vaultOf sha256 s a) :=
    fun s a hs => step_ok vaultOf yjs hs a
  have hexact : ∀ (s : St Id Key Bytes Sha) a, s.Ok keyOf sha256 → Readable keyOf sha256 s →
      (Readable keyOf sha256 (step keyOf yjs vaultOf sha256 s a) ↔ TextsInUse s a) :=
    fun s a hs hread => step_readable vaultOf yjs hs hread a
  exact (Machine.guarded_iff hinv hexact h₀.ok h₀.readable as).symm

end

/-! ## A run -/

section

/-- a key of a document is the document, a text's hash is the text, bytes are a number -/
def yjs₀ : Yjs ℕ := ⟨List.sum, List.sum, fun a b => a.sum = b.sum, 0⟩

/-- a note before its vault got a key: an update, a snapshot, a text, and a version with its text inline -/
def unsealed : St ℕ ℕ ℕ Text := {
  updates := [⟨0, 7, some 1, none⟩]
  snapshots := [⟨7, some 2, none, none⟩]
  texts := [⟨7, ['a'], ['a'], none, 0⟩]
  refs := [⟨.noteVersions, 1, 7, ['b'], some ['b']⟩, ⟨.noteVersions, 2, 7, ['a'], none⟩]
  nextId := 3 }

theorem unsealed_atRest : unsealed.AtRest id id where
  ids := by decide
  unique := by decide
  texts := by decide
  writes := rfl
  captures := rfl
  compactions := rfl
  sweeps := rfl
  readable := by
    refine ⟨?_, ?_, ?_, ?_⟩
    · intro r hr
      obtain rfl := mem_singleton.1 hr
      exact ⟨1, rfl⟩
    · intro r hr
      obtain rfl := mem_singleton.1 hr
      exact ⟨2, rfl⟩
    · intro t ht
      obtain rfl := mem_singleton.1 ht
      exact ⟨['a'], rfl, rfl⟩
    · intro r hr
      rcases mem_cons.1 hr with rfl | hr
      · exact ⟨['b'], rfl⟩
      · obtain rfl := mem_singleton.1 hr
        exact ⟨['a'], rfl⟩

/-- the note is sealed, and its plaintext cleared -/
def sealAndClear : List (Action ℕ ℕ Text) :=
  [.readsUpdate 0 0, .readsSnapshot 7 1, .readsText 7 ['a'] 2, .readsInline .noteVersions 1 3 5, .sends 0, .sends 0,
    .sends 0, .sends 0, .comparesUpdate 0, .comparesSnapshot 7, .comparesText 7 ['a'], .comparesInline .noteVersions 1,
    .sends 0, .sends 0, .sends 0, .sends 0]

example : run id yjs₀ id id unsealed sealAndClear = {
    updates := [⟨0, 7, none, some ⟨7, .update 7, 1, 0⟩⟩]
    snapshots := [⟨7, none, some ⟨7, .snapshot 7, 2, 1⟩, none⟩]
    texts := [⟨7, ['a'], [], some ⟨7, .text 7 ['a'], ['a'], 2⟩, 0⟩,
      ⟨7, ['b'], [], some ⟨7, .text 7 ['b'], ['b'], 3⟩, 5⟩]
    refs := [⟨.noteVersions, 1, 7, ['b'], none⟩, ⟨.noteVersions, 2, 7, ['a'], none⟩]
    nextId := 3 } := by decide

/-- a note is sealed and cleared; every row is there to be read -/
theorem sealed_and_cleared : unsealed.AtRest id id ∧
    ∀ n, Readable id id (run id yjs₀ id id unsealed (sealAndClear.take n)) :=
  ⟨unsealed_atRest, ((sealing_keeps_values id yjs₀ id id unsealed unsealed_atRest sealAndClear).2).2
    (by simp [sealAndClear, Machine.Guarded, TextsInUse])⟩

/-- a version's capture finds a text nine minutes old, and is held up until a sweep has deleted it -/
def sweptCapture : List (Action ℕ ℕ Text) :=
  [.storesText .noteVersions 7 ['c'] true 0 0, .captureFails 0, .storesText .noteVersions 7 ['c'] true 1 (9 * 60000),
    .sweeps 7 (61 * 60000), .sweepsText 0 7 ['c'], .insertsRef 0]

/-- a version is left that no text is there for -/
theorem version_without_text : unsealed.AtRest id id ∧ ¬ Readable id id (run id yjs₀ id id unsealed sweptCapture) := by
  refine ⟨unsealed_atRest, fun h => ?_⟩
  obtain ⟨content, hreads⟩ := h.refs ⟨.noteVersions, 3, 7, ['c'], none⟩ (by decide)
  have hnone : RefRow.reads id (run id yjs₀ id id unsealed sweptCapture).texts
      ⟨.noteVersions, 3, 7, ['c'], none⟩ = none := by decide
  exact absurd (hnone.symm.trans hreads) (by simp)

end

end Baalda.SealedRows
