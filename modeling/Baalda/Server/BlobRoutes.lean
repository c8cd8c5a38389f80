/-
Uploads of attachments and tree files (`http/routes/blobs.ts`: intent, bytes, complete), and the sweeps of abandoned
rows and of deleted rows' objects (`blobs/gc.ts`), with a provider that stores objects outside the database.

An object's key is its vault and its hash (`blobs/keys.ts`), so rows of the same content share it. Every statement on
the tables and every call of the store is a step: between two of them anything else may run. A statement that looks for
rows and then changes them (the sweep's `DELETE`) finds them in its snapshot and comes to each one later, by its id. A
presigned PUT may be used at any time after it was given out, and lets through a body of the length that was signed.
What a gate answers (membership, quota, what `registerFile` makes of a registration) comes from outside.
-/
import Baalda.Lib.Machine

namespace Baalda.BlobRoutes

abbrev Path := List Char
abbrev Mime := List Char

variable {Id Sha Bytes : Type*}

/-! ## Tables -/

/-- `objectKey` -/
abbrev Key (Id Sha : Type*) := Id × Sha

/-- a row of `blobs` -/
structure Row (Id Sha : Type*) where
  id : ℕ
  vaultId : Id
  sha : Sha
  size : ℕ
  mime : Mime
  relPath : Path
  docId : Option Id
  /-- its status is ready, and not pending -/
  ready : Bool := false
  /-- it has a `pending_register` -/
  register : Bool := false
  updatedAt : ℕ
  deriving DecidableEq

def Row.key (r : Row Id Sha) : Key Id Sha := (r.vaultId, r.sha)

/-- the tables, in the order of `created_at`, and the bucket -/
structure Db (Id Sha Bytes : Type*) where
  rows : List (Row Id Sha) := []
  /-- the ids of `files` -/
  files : List Id := []
  /-- `vault_checkpoint_blobs` -/
  pins : List (Key Id Sha) := []
  /-- `blob_deletions` -/
  queue : List (Key Id Sha) := []
  objects : Key Id Sha → Option Bytes
  /-- a key and the length that was signed for it -/
  presigned : List (Key Id Sha × ℕ) := []
  nextId : ℕ := 0

inductive Answer where
  | published (blobId : ℕ)
  | deduped (blobId : ℕ)
  | staleBase
  | refused
  | failed
  deriving DecidableEq

/-- where an upload is: its intent, its bytes, its complete -/
inductive Stage (Id Sha : Type*) where
  /-- `again`: its insert met another row -/
  | searching (again : Bool)
  | claiming (hit : Row Id Sha)
  | rebinding (hit : Row Id Sha)
  | checking
  | inserting
  | creating
  | waiting (blobId : ℕ)
  /-- `complete` has its row, and has measured the object or not -/
  | completing (row : Row Id Sha) (measured : Option ℕ)
  | rejecting (row : Row Id Sha)
  | dropping (row : Row Id Sha)
  | retiring (docId : Option Id) (keep : ℕ) (updated : Bool)
  | done (answer : Answer)
  deriving DecidableEq

structure Upload (Id Sha : Type*) where
  vaultId : Id
  sha : Sha
  size : ℕ
  mime : Mime
  relPath : Path
  docId : Option Id
  baseSha : Option Sha := none
  /-- the file is to be registered by this upload -/
  register : Bool := false
  stage : Stage Id Sha := .searching false
  /-- the file's versions that `baseSha` was checked against -/
  versions : List Sha := []
  deriving DecidableEq

/-- an object that a sweep is about to delete -/
structure Removal (Id Sha : Type*) where
  key : Key Id Sha
  /-- no row and no pin named it when it was looked for -/
  free : Bool := false
  /-- it came from the queue -/
  queued : Bool
  deriving DecidableEq

structure St (Id Sha Bytes : Type*) where
  db : Db Id Sha Bytes
  uploads : List (Upload Id Sha) := []
  /-- `PUT /blobs/:id/data`: the row's key and the declared length -/
  dataPuts : List (Key Id Sha × ℕ) := []
  /-- the rows that each pending sweep has found -/
  sweeps : List (List ℕ) := []
  removals : List (Removal Id Sha) := []
  /-- ready rows that a pending sweep deleted -/
  sweptReady : List ℕ := []

/-- a step of an upload -/
inductive Move (Id Bytes : Type*) where
  /-- `findBlob` -/
  | searches
  /-- `registerFile` at a dedupe hit -/
  | registers (out : Option (Id × Path))
  | claims (now : ℕ)
  | rebinds (now : ℕ)
  /-- `staleBaseConflict` -/
  | checks
  /-- a gate of the intent refuses -/
  | refuses
  | reuses (now : ℕ)
  | creates (now : ℕ)
  | completeStarts
  | assembles (bytes : Bytes)
  | measures
  /-- the hash is restated otherwise, or the quota is passed, or the object is not what was declared -/
  | rejects
  | drops
  | publishes (now : ℕ)
  | publishesRegistered (out : Option Id) (now : ℕ)
  | retires
  /-- the `DELETE` fails, which is let go -/
  | retireFails
  /-- the request dies -/
  | fails

inductive Action (Id Sha Bytes : Type*) where
  | begins (vaultId : Id) (sha : Sha) (size : ℕ) (mime : Mime) (relPath : Path) (docId : Option Id)
      (baseSha : Option Sha) (register : Bool)
  | moves (i : ℕ) (m : Move Id Bytes)
  | puts (key : Key Id Sha) (bytes : Bytes)
  | dataStarts (blobId declared : ℕ)
  | dataStores (k : ℕ) (bytes : Bytes)
  /-- length, hash or type are not as declared -/
  | dataRefuses (k : ℕ)
  | deletesRow (blobId : ℕ)
  | pins (blobId : ℕ)
  | unpins (key : Key Id Sha)
  | sweepFinds (now : ℕ)
  | sweepDeletes (k blobId : ℕ)
  | drainClaims (key : Key Id Sha)
  | looks (k : ℕ)
  | removes (k : ℕ)

section

variable [DecidableEq Id] [DecidableEq Sha] [DecidableEq Bytes]

/-! ## Statements -/

/-- the partial unique indexes: a content has one row for a file, and one for no file -/
def fits (rows : List (Row Id Sha)) (row : Row Id Sha) : Bool :=
  rows.all fun r => r.id = row.id ∨ r.key ≠ row.key ∨ r.docId ≠ row.docId

namespace Db

variable (db : Db Id Sha Bytes)

def row (blobId : ℕ) : Option (Row Id Sha) := db.rows.find? fun r => r.id = blobId

/-- the ready rows of a file -/
def versionsOf (docId : Id) : List (Row Id Sha) := db.rows.filter fun r => r.docId = some docId ∧ r.ready

/-- the rows a new upload may dedupe onto -/
def mayDedupe (vaultId : Id) (sha : Sha) (docId : Option Id) (r : Row Id Sha) : Bool :=
  r.key = (vaultId, sha) ∧ r.ready ∧ (r.docId = none ∨ r.docId = docId ∨ ∀ d ∈ r.docId, d ∉ db.files)

def findBlob (vaultId : Id) (sha : Sha) (docId : Option Id) : Option (Row Id Sha) :=
  let found := db.rows.filter (db.mayDedupe vaultId sha docId)
  (found.find? fun r => r.docId = docId).or ((found.find? fun r => r.docId = none).or found.head?)

/-- the file has moved on from the version that an upload started from -/
def staleBaseConflict (docId : Option Id) (baseSha : Option Sha) (incomingSha : Sha) : Bool :=
  match docId, baseSha with
  | some docId, some baseSha => db.versionsOf docId ≠ [] ∧
      ¬ ∃ r ∈ db.versionsOf docId, r.sha = baseSha ∨ r.sha = incomingSha
  | _, _ => false

/-- `UPDATE blobs … WHERE id`, or nothing where an index would break -/
def update (blobId : ℕ) (f : Row Id Sha → Row Id Sha) : Db Id Sha Bytes :=
  { db with rows := db.rows.map fun r => if r.id = blobId then f r else r }

/-- `DELETE FROM blobs`, and its trigger -/
def delete (p : Row Id Sha → Bool) : Db Id Sha Bytes :=
  { db with
    rows := db.rows.filter fun r => !p r
    queue := db.queue ++ (db.rows.filter p).map Row.key }

def put (key : Key Id Sha) (bytes : Bytes) : Db Id Sha Bytes :=
  { db with objects := Function.update db.objects key (some bytes) }

def remove (key : Key Id Sha) : Db Id Sha Bytes := { db with objects := Function.update db.objects key none }

/-- `objectStillReferenced` -/
def objectStillReferenced (key : Key Id Sha) : Bool := (db.rows.any fun r => r.key = key) ∨ key ∈ db.pins

end Db

/-! ## An upload -/

namespace Upload

variable (isAttachment : Path → Bool) (length : Bytes → ℕ) (accepts : Mime → Bytes → Bool)
variable (db : Db Id Sha Bytes) (u : Upload Id Sha)

def answered (answer : Answer) : Upload Id Sha := { u with stage := .done answer }

def searches : Option (Db Id Sha Bytes × Upload Id Sha) := match u.stage with
  | .searching again => match db.findBlob u.vaultId u.sha u.docId with
    | some hit => some (db, { u with stage := .claiming hit })
    | none => some (db, if again then u.answered .failed else { u with stage := .checking })
  | _ => none

def registers (out : Option (Id × Path)) : Option (Db Id Sha Bytes × Upload Id Sha) :=
  match u.stage, u.register, out with
  | .claiming _, true, none => some (db, u.answered .refused)
  | .claiming _, true, some (docId, relPath) =>
    some ({ db with files := db.files ++ [docId] },
      { u with
        docId := some docId
        relPath := relPath
        register := false })
  | _, _, _ => none

/-- `copyRowForDoc` -/
def copyRowForDoc (hit : Row Id Sha) (docId : Id) (now : ℕ) : Db Id Sha Bytes × Upload Id Sha :=
  match db.rows.find? fun r => r.id = hit.id ∧ r.ready with
  | some src =>
    let row := { src with
      id := db.nextId
      relPath := u.relPath
      docId := some docId
      register := false
      updatedAt := now }
    if fits db.rows row then
      ({ db with
        rows := db.rows ++ [row]
        nextId := db.nextId + 1 }, u.answered (.deduped row.id))
    else match db.rows.find? fun r => r.key = hit.key ∧ r.docId = some docId ∧ r.ready with
      | some own => (db, u.answered (.deduped own.id))
      | none => (db, u.answered (.deduped hit.id))
  | none => (db, u.answered (.deduped hit.id))

/-- `UPDATE blobs SET doc_id`, where the row still has the one that was read -/
def bind (hit : Row Id Sha) (docId : Id) (now : ℕ) : Db Id Sha Bytes :=
  match db.rows.find? fun r => r.id = hit.id ∧ r.docId = hit.docId with
  | some r =>
    if fits db.rows { r with docId := some docId } then
      db.update hit.id fun r => { r with
        docId := some docId
        updatedAt := now }
    else db
  | none => db

/-- `claimDoc` -/
def claims (now : ℕ) : Option (Db Id Sha Bytes × Upload Id Sha) := match u.stage, u.register with
  | .claiming hit, false => match u.docId with
    | none => some (db, u.answered (.deduped hit.id))
    | some docId =>
      if hit.docId = some docId then some (db, u.answered (.deduped hit.id))
      else match hit.docId with
        | none =>
          if isAttachment hit.relPath ∧ ¬ isAttachment u.relPath then some (u.copyRowForDoc db hit docId now)
          else some (bind db hit docId now, u.answered (.deduped hit.id))
        | some other =>
          if other ∈ db.files then some (db, u.answered (.deduped hit.id))
          else some (db, { u with stage := .rebinding hit })
  | _, _ => none

def rebinds (now : ℕ) : Option (Db Id Sha Bytes × Upload Id Sha) := match u.stage, u.docId with
  | .rebinding hit, some docId => some (bind db hit docId now, u.answered (.deduped hit.id))
  | _, _ => none

def checks : Option (Db Id Sha Bytes × Upload Id Sha) := match u.stage with
  | .checking =>
    if db.staleBaseConflict u.docId u.baseSha u.sha then some (db, u.answered .staleBase)
    else some (db, { u with
      stage := .inserting
      versions := (u.docId.toList.flatMap db.versionsOf).map Row.sha })
  | _ => none

def refuses : Option (Db Id Sha Bytes × Upload Id Sha) := match u.stage with
  | .inserting => some (db, u.answered .refused)
  | _ => none

/-- the pending rows that a further intent of the same content takes over -/
def mayReuse (r : Row Id Sha) : Bool :=
  r.key = (u.vaultId, u.sha) ∧ !r.ready ∧ (r.docId = none ∧ !u.register ∨ u.docId ≠ none ∧ r.docId = u.docId)

def presign (blobId : ℕ) : Db Id Sha Bytes × Upload Id Sha :=
  ({ db with presigned := db.presigned ++ [((u.vaultId, u.sha), u.size)] }, { u with stage := .waiting blobId })

def reuses (now : ℕ) : Option (Db Id Sha Bytes × Upload Id Sha) := match u.stage with
  | .inserting => match db.rows.filter u.mayReuse with
    | [] => some (db, { u with stage := .creating })
    | [r] =>
      if fits db.rows { r with docId := r.docId.or u.docId } then
        some (presign (db.update r.id fun r => { r with
          mime := u.mime
          relPath := u.relPath
          docId := r.docId.or u.docId
          register := r.register || u.register
          updatedAt := now }) u r.id)
      else some (db, u.answered .failed)
    -- one for no file and one for this file: they cannot become the same
    | _ => some (db, u.answered .failed)
  | _ => none

def creates (now : ℕ) : Option (Db Id Sha Bytes × Upload Id Sha) := match u.stage with
  | .creating =>
    let row : Row Id Sha := {
      id := db.nextId
      vaultId := u.vaultId
      sha := u.sha
      size := u.size
      mime := u.mime
      relPath := u.relPath
      docId := u.docId
      register := u.register
      updatedAt := now }
    if fits db.rows row then
      some (presign { db with
        rows := db.rows ++ [row]
        nextId := db.nextId + 1 } u row.id)
    else some (db, { u with stage := .searching true })
  | _ => none

def completeStarts : Option (Db Id Sha Bytes × Upload Id Sha) := match u.stage with
  | .waiting blobId => match db.row blobId with
    | some r =>
      if r.ready then some (db, { u with
        docId := r.docId
        stage := .done (.published r.id) })
      else some (db, { u with stage := .completing r none })
    | none => some (db, u.answered .failed)
  | _ => none

/-- `completeMultipart` -/
def assembles (bytes : Bytes) : Option (Db Id Sha Bytes × Upload Id Sha) := match u.stage with
  | .completing r none => some (db.put r.key bytes, u)
  | _ => none

/-- `head` and `peek` -/
def measures : Option (Db Id Sha Bytes × Upload Id Sha) := match u.stage with
  | .completing r none => match db.objects r.key with
    | some bytes =>
      if length bytes = r.size ∧ accepts r.mime bytes then
        some (db, { u with stage := .completing r (some (length bytes)) })
      else some (db, { u with stage := .rejecting r })
    | none => some (db, { u with stage := .waiting r.id })
  | _ => none

/-- `store.delete(key)` -/
def rejects : Option (Db Id Sha Bytes × Upload Id Sha) := match u.stage with
  | .completing r _ | .rejecting r => some (db.remove r.key, { u with stage := .dropping r })
  | _ => none

def drops : Option (Db Id Sha Bytes × Upload Id Sha) := match u.stage with
  | .dropping row => some (db.delete fun r => r.id = row.id ∧ !r.ready, u.answered .refused)
  | _ => none

def publishes (now : ℕ) : Option (Db Id Sha Bytes × Upload Id Sha) := match u.stage with
  | .completing row (some n) =>
    if row.register then none
    else
      let found := db.row row.id
      let docId := (found.bind Row.docId).or row.docId
      some (db.update row.id fun r => { r with
          ready := true
          size := n
          updatedAt := now },
        { u with
          docId := docId
          stage := .retiring docId row.id found.isSome })
  | _ => none

/-- `completeWithRegistration` -/
def publishesRegistered (out : Option Id) (now : ℕ) : Option (Db Id Sha Bytes × Upload Id Sha) := match u.stage with
  | .completing row (some n) =>
    if ¬ row.register then none
    else match out with
      | none => some (db, { u with stage := .dropping row })
      | some docId =>
        let registered := { db with files := db.files ++ [docId] }
        let u' := { u with docId := some docId }
        match db.row row.id with
        | some cur =>
          if cur.ready then some (registered, { u' with stage := .retiring (some docId) cur.id true })
          else if fits db.rows { cur with docId := some docId } then
            some (registered.update row.id fun r => { r with
                ready := true
                size := n
                docId := some docId
                register := false
                updatedAt := now },
              { u' with stage := .retiring (some docId) row.id true })
          else match db.rows.find? fun r => r.key = row.key ∧ r.docId = some docId ∧ r.ready with
            | some twin => some (registered.delete fun r => r.id = row.id ∧ !r.ready,
                { u' with stage := .retiring (some docId) twin.id true })
            | none => some (db, u.answered .failed)
        | none => some (db, u.answered .failed)
  | _ => none

/-- what is answered after `retireSupersededDocBlobs` -/
def settled (keep : ℕ) (updated : Bool) : Upload Id Sha := u.answered (if updated then .published keep else .failed)

def retires : Option (Db Id Sha Bytes × Upload Id Sha) := match u.stage with
  | .retiring (some docId) keep updated =>
    some (db.delete fun r => r.docId = some docId ∧ r.id ≠ keep ∧ r.ready, u.settled keep updated)
  | .retiring none keep updated => some (db, u.settled keep updated)
  | _ => none

def retireFails : Option (Db Id Sha Bytes × Upload Id Sha) := match u.stage with
  | .retiring _ keep updated => some (db, u.settled keep updated)
  | _ => none

def fails : Option (Db Id Sha Bytes × Upload Id Sha) := match u.stage with
  | .done _ => none
  | _ => some (db, u.answered .failed)

def move : Move Id Bytes → Option (Db Id Sha Bytes × Upload Id Sha)
  | .searches => u.searches db
  | .registers out => u.registers db out
  | .claims now => u.claims isAttachment db now
  | .rebinds now => u.rebinds db now
  | .checks => u.checks db
  | .refuses => u.refuses db
  | .reuses now => u.reuses db now
  | .creates now => u.creates db now
  | .completeStarts => u.completeStarts db
  | .assembles bytes => u.assembles db bytes
  | .measures => u.measures length accepts db
  | .rejects => u.rejects db
  | .drops => u.drops db
  | .publishes now => u.publishes db now
  | .publishesRegistered out now => u.publishesRegistered db out now
  | .retires => u.retires db
  | .retireFails => u.retireFails db
  | .fails => u.fails db

end Upload

/-! ## The machine -/

namespace St

variable (length : Bytes → ℕ) (s : St Id Sha Bytes)

def puts (key : Key Id Sha) (bytes : Bytes) : St Id Sha Bytes :=
  if (key, length bytes) ∈ s.db.presigned then { s with db := s.db.put key bytes } else s

def dataStarts (blobId declared : ℕ) : St Id Sha Bytes := match s.db.row blobId with
  | some r =>
    if !r.ready ∧ (r.key, declared) ∈ s.db.presigned then { s with dataPuts := s.dataPuts ++ [(r.key, declared)] }
    else s
  | none => s

def dataStores (k : ℕ) (bytes : Bytes) : St Id Sha Bytes := match s.dataPuts[k]? with
  | some (key, declared) => if length bytes = declared then { s with db := s.db.put key bytes } else s
  | none => s

def dataRefuses (k : ℕ) : St Id Sha Bytes := match s.dataPuts[k]? with
  | some (key, _) => { s with
    db := s.db.remove key
    dataPuts := s.dataPuts.eraseIdx k }
  | none => s

def deletesRow (blobId : ℕ) : St Id Sha Bytes := { s with db := s.db.delete fun r => r.id = blobId }

def pins (blobId : ℕ) : St Id Sha Bytes := match s.db.row blobId with
  | some r => if r.ready then { s with db := { s.db with pins := s.db.pins ++ [r.key] } } else s
  | none => s

/-- a pin goes; with the last one the object is queued, unless a row names it -/
def unpins (key : Key Id Sha) : St Id Sha Bytes :=
  let pins := s.db.pins.erase key
  if key ∈ s.db.pins ∧ key ∉ pins ∧ ¬ ∃ r ∈ s.db.rows, r.key = key then { s with db := { s.db with
    pins := pins
    queue := s.db.queue ++ [key] } }
  else { s with db := { s.db with pins := pins } }

/-- `BLOB_PENDING_TTL_MINUTES` -/
def pendingTtl : ℕ := 60

/-- the snapshot of the sweep's `DELETE` -/
def sweepFinds (now : ℕ) : St Id Sha Bytes :=
  { s with sweeps := s.sweeps ++ [(s.db.rows.filter fun r => !r.ready ∧ r.updatedAt + pendingTtl < now).map Row.id] }

/-- it comes to one of its rows, whatever has become of it -/
def sweepDeletes (k blobId : ℕ) : St Id Sha Bytes := match s.db.row blobId with
  | some r =>
    if blobId ∈ (s.sweeps[k]?).getD [] then { s with
      db := s.db.delete fun r => r.id = blobId
      sweeps := s.sweeps.modify k fun ids => ids.erase blobId
      removals := s.removals ++ [{ key := r.key, queued := false }]
      sweptReady := s.sweptReady ++ if r.ready then [blobId] else [] }
    else s
  | none => s

def drainClaims (key : Key Id Sha) : St Id Sha Bytes :=
  if key ∈ s.db.queue then { s with removals := s.removals ++ [{ key := key, queued := true }] } else s

/-- the queue's row goes when its object is gone, or in use -/
def unqueue (x : Removal Id Sha) : Db Id Sha Bytes :=
  if x.queued then { s.db with queue := s.db.queue.erase x.key } else s.db

def looks (k : ℕ) : St Id Sha Bytes := match s.removals[k]? with
  | some x =>
    if s.db.objectStillReferenced x.key then { s with
      db := s.unqueue x
      removals := s.removals.eraseIdx k }
    else { s with removals := s.removals.set k { x with free := true } }
  | none => s

def removes (k : ℕ) : St Id Sha Bytes := match s.removals[k]? with
  | some x =>
    if x.free then { s with
      db := (s.unqueue x).remove x.key
      removals := s.removals.eraseIdx k }
    else s
  | none => s

end St

variable (isAttachment : Path → Bool) (length : Bytes → ℕ) (accepts : Mime → Bytes → Bool)

def step (s : St Id Sha Bytes) : Action Id Sha Bytes → St Id Sha Bytes
  | .begins vaultId sha size mime relPath docId baseSha register =>
    { s with uploads := s.uploads ++ [{
      vaultId := vaultId
      sha := sha
      size := size
      mime := mime
      relPath := relPath
      docId := docId
      baseSha := baseSha
      register := register }] }
  | .moves i m => match s.uploads[i]? with
    | some u => match u.move isAttachment length accepts s.db m with
      | some (db, u') => { s with
        db := db
        uploads := s.uploads.set i u' }
      | none => s
    | none => s
  | .puts key bytes => s.puts length key bytes
  | .dataStarts blobId declared => s.dataStarts blobId declared
  | .dataStores k bytes => s.dataStores length k bytes
  | .dataRefuses k => s.dataRefuses k
  | .deletesRow blobId => s.deletesRow blobId
  | .pins blobId => s.pins blobId
  | .unpins key => s.unpins key
  | .sweepFinds now => s.sweepFinds now
  | .sweepDeletes k blobId => s.sweepDeletes k blobId
  | .drainClaims key => s.drainClaims key
  | .looks k => s.looks k
  | .removes k => s.removes k

def run (s : St Id Sha Bytes) (as : List (Action Id Sha Bytes)) : St Id Sha Bytes :=
  Machine.run (step isAttachment length accepts) s as

end

end Baalda.BlobRoutes
