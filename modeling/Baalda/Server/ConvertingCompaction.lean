/-
Compaction of a document whose vault is keyed while some of its rows are still plaintext (`compact`, `compactOnce`,
`compactLocked` and `compactConverting` in `yjs/persistence.ts`, with `openDocBytes` of `crypto/doc-crypto.ts`), on the
rows of one document, statement by statement, any of which may fail.

The cipher is ideal; a Yjs document is the update it holds, `sameDoc` is computed on it, and the library's `encode`,
`mergeUpdates` and decoder are parameters. The document's lock is held throughout; what appends that commit meanwhile
meet is in `Compaction`. The generation that an envelope's header records is left out: nothing here reads it.
-/
import Baalda.Lib.Crdt
import Baalda.Lib.Envelope
import Baalda.Lib.Slots

namespace Baalda.ConvertingCompaction

open Crdt Crdt.Update Envelope List

/-! ## Yjs -/

/-- what is used of the library -/
structure Yjs (Bytes : Type) where
  /-- what `applyUpdate` takes from these bytes; `none`: it throws -/
  read : Bytes → Option Update
  /-- `encodeStateAsUpdate` of a document that holds this -/
  encode : Update → Bytes
  /-- `none`: it throws -/
  mergeUpdates : List Bytes → Option Bytes
  /-- `getText("content")` -/
  text : Update → List Char
  /-- `Buffer.alloc(0)` -/
  empty : Bytes

/-- an encoded document and a merge of updates read as what they were made of -/
structure Yjs.Lawful {Bytes : Type} (yjs : Yjs Bytes) : Prop where
  read_encode : ∀ u, yjs.read (yjs.encode u) = some u
  read_mergeUpdates : ∀ parts us merged, parts.mapM yjs.read = some us → yjs.mergeUpdates parts = some merged →
    yjs.read merged = some (mergeAll us)

inductive Error where
  | sealVerify
  | keyRequired
  /-- `EnvelopeError` -/
  | envelope
  | yjs
  /-- a statement failed -/
  | database
  deriving DecidableEq

section

variable {Bytes : Type} (yjs : Yjs Bytes)

/-- a new `Y.Doc` with these applied -/
def applyUpdates (parts : List Bytes) : Except Error Update := match parts.mapM yjs.read with
  | some us => .ok (mergeAll us)
  | none => .error .yjs

def mergeUpdates (parts : List Bytes) : Except Error Bytes := match yjs.mergeUpdates parts with
  | some merged => .ok merged
  | none => .error .yjs

def sameDoc (a b : Update) : Bool := stateVector a = stateVector b ∧ yjs.text a = yjs.text b

end

/-! ## Rows -/

inductive SealedColumn where
  | update
  | snapshot
  deriving DecidableEq

/-- `aadFor` -/
structure Aad (Id : Type) where
  column : SealedColumn
  vaultId : Id
  docId : Id
  deriving DecidableEq

structure DocCrypto (Id Key : Type) where
  vaultId : Id
  key : Key
  deriving DecidableEq

structure UpdateRow (Id Key Bytes : Type) where
  id : ℕ
  update : Option Bytes
  updateEnc : Option (Sealed Key (Aad Id) Bytes)
  deriving DecidableEq

structure SnapshotRow (Id Key Bytes : Type) where
  snapshot : Option Bytes
  snapshotEnc : Option (Sealed Key (Aad Id) Bytes)
  stateVector : StateVector
  seq : Option ℕ
  deriving DecidableEq

/-- what is stored of a document -/
structure Stored (Id Key Bytes : Type) where
  snapshot : Option (SnapshotRow Id Key Bytes)
  /-- `ORDER BY id ASC` -/
  log : List (UpdateRow Id Key Bytes)
  /-- `BIGSERIAL` -/
  nextId : ℕ
  /-- the row of `doc_state_vectors` -/
  vector : Option StateVector
  ordered : log.Pairwise fun r r' => r.id < r'.id
  ids : ∀ r ∈ log, 0 < r.id ∧ r.id < nextId
  nextId_pos : 0 < nextId

variable {Id Key Bytes : Type} [DecidableEq Id] [DecidableEq Key] [DecidableEq Bytes]

namespace Stored

variable (d : Stored Id Key Bytes)

/-- `WHERE doc_snapshots.seq IS NULL OR doc_snapshots.seq < EXCLUDED.seq`, or no row -/
def admits (maxId : ℕ) : Bool := d.snapshot.all fun row => row.seq.all fun seq => seq < maxId

def upsertSnapshot (row : SnapshotRow Id Key Bytes) : Stored Id Key Bytes := { d with snapshot := some row }

def insertUpdate (update : Bytes) (enc : Sealed Key (Aad Id) Bytes) : Stored Id Key Bytes where
  snapshot := d.snapshot
  log := d.log ++ [⟨d.nextId, some update, some enc⟩]
  nextId := d.nextId + 1
  vector := d.vector
  ordered := by
    refine List.pairwise_append.2 ⟨d.ordered, List.pairwise_singleton _ _, fun r hr r' hr' => ?_⟩
    obtain rfl := List.mem_singleton.1 hr'
    exact (d.ids r hr).2
  ids r hr := by
    rcases mem_snoc.1 hr with hr | rfl
    · exact ⟨(d.ids r hr).1, Nat.lt_succ_of_lt (d.ids r hr).2⟩
    · exact ⟨d.nextId_pos, Nat.lt_succ_self _⟩
  nextId_pos := Nat.succ_pos _

/-- `id <= maxId`, and `id <> keep` -/
def deleteUpdates (maxId : ℕ) (keep : Option ℕ) : Stored Id Key Bytes where
  snapshot := d.snapshot
  log := d.log.filter fun r => ¬ (r.id ≤ maxId ∧ some r.id ≠ keep)
  nextId := d.nextId
  vector := d.vector
  ordered := d.ordered.filter _
  ids r hr := d.ids r (List.mem_of_mem_filter hr)
  nextId_pos := d.nextId_pos

def invalidateStateVector : Stored Id Key Bytes := { d with vector := none }

/-- a row has an `*_enc` -/
def isSealed : Bool := (d.log.any fun r => r.updateEnc.isSome) || d.snapshot.any fun row => row.snapshotEnc.isSome

def plaintextLeft : Bool := (d.snapshot.any fun row => row.snapshot.isSome) || d.log.any fun r => r.update.isSome

end Stored

/-! ## Sealing and opening -/

def sealDocBytes (c : DocCrypto Id Key) (column : SealedColumn) (docId : Id) (plain : Bytes) (nonce : ℕ) :
    Sealed Key (Aad Id) Bytes := sealWith c.key ⟨column, c.vaultId, docId⟩ plain nonce

def openDocBytes (c : Option (DocCrypto Id Key)) (column : SealedColumn) (docId : Id)
    (enc : Option (Sealed Key (Aad Id) Bytes)) (plain : Option Bytes) : Except Error (Option Bytes) := match enc, c with
  | some _, none => .error .keyRequired
  | some enc, some c => match openWith c.key ⟨column, c.vaultId, docId⟩ enc with
    | some opened => .ok (some opened)
    | none => .error .envelope
  | none, _ => .ok plain

variable (yjs : Yjs Bytes)

section

variable (c : Option (DocCrypto Id Key)) (docId : Id)

def openSnapshot (snapRow : Option (SnapshotRow Id Key Bytes)) : Except Error (Option Bytes) := match snapRow with
  | some row => openDocBytes c .snapshot docId row.snapshotEnc row.snapshot
  | none => .ok none

def openUpdate (r : UpdateRow Id Key Bytes) : Except Error Bytes :=
  (openDocBytes c .update docId r.updateEnc r.update).map fun update => update.getD yjs.empty

/-- the snapshot's bytes, if it has any, and the log's -/
def openParts (snapRow : Option (SnapshotRow Id Key Bytes))
    (rows : List (UpdateRow Id Key Bytes)) : Except Error (List Bytes) := do
  let snapshotBuf ← openSnapshot c docId snapRow
  let updates ← rows.mapM (openUpdate yjs c docId)
  pure (snapshotBuf.toList ++ updates)

end

/-! ## Compaction -/

/-- what a compaction asks the database -/
inductive Statement where
  | sealedRows
  /-- `vaultOfDoc` and `loadVkCheck` -/
  | keyState
  | begins
  | lock
  | readSnapshot
  | readLog
  | upsert
  | insertLegacy
  | delete
  /-- around the statement that drops the cached vector -/
  | savepoint
  | invalidate
  | commit
  /-- it has committed, and nobody is told -/
  | commitReply
  deriving DecidableEq

/-- some statements fail -/
def query (fails : Statement → Bool) (statement : Statement) : Except Error Unit :=
  if fails statement then .error .database else .ok ()

/-- `throw new SealVerifyError` unless -/
def verify (ok : Bool) : Except Error Unit := if ok then .ok () else .error .sealVerify

/-- `catch { throw new SealVerifyError }` -/
def orSealVerify {α : Type} : Except Error α → Except Error α
  | .ok a => .ok a
  | .error _ => .error .sealVerify

def verifySealedSnapshot (c : DocCrypto Id Key) (docId : Id) (enc : Sealed Key (Aad Id) Bytes) (plain : Bytes)
    (expected : Update) : Except Error Unit := do
  let opened ← orSealVerify (openDocBytes (some c) .snapshot docId (some enc) none)
  verify (decide (opened = some plain))
  let check ← applyUpdates yjs [plain]
  verify (sameDoc yjs check expected)

def checkDual (c : DocCrypto Id Key) (column : SealedColumn) (docId : Id) (plain : Bytes)
    (enc : Option (Sealed Key (Aad Id) Bytes)) : Except Error Unit := match enc with
  | some enc => do
    let opened ← orSealVerify (openDocBytes (some c) column docId (some enc) none)
    verify (decide (opened = some plain))
  | none => .ok ()

/-- `row.id` of the last row, `"0"` without one -/
def maxId (rows : List (UpdateRow Id Key Bytes)) : ℕ := (rows.getLast?.map UpdateRow.id).getD 0

/-- the plaintext columns of the snapshot and of the log -/
def plainParts (snapRow : Option (SnapshotRow Id Key Bytes)) (rows : List (UpdateRow Id Key Bytes)) : List Bytes :=
  (snapRow.bind SnapshotRow.snapshot).toList ++ rows.filterMap UpdateRow.update

/-- a plaintext column and the sealed one beside it -/
def checkRow (c : DocCrypto Id Key) (column : SealedColumn) (docId : Id) (plain : Option Bytes)
    (enc : Option (Sealed Key (Aad Id) Bytes)) : Except Error Unit := match plain with
  | some plain => checkDual c column docId plain enc
  | none => .ok ()

/-- where a row is dual, its sealed copy opens to its plaintext -/
def checkDuals (c : DocCrypto Id Key) (docId : Id) (snapRow : Option (SnapshotRow Id Key Bytes))
    (rows : List (UpdateRow Id Key Bytes)) : Except Error Unit := do
  snapRow.toList.forM fun row => checkRow c .snapshot docId row.snapshot row.snapshotEnc
  rows.forM fun r => checkRow c .update docId r.update r.updateEnc

/-- a lone plaintext row that is dual already, and its plaintext -/
def legacyRow (snapRow : Option (SnapshotRow Id Key Bytes)) (rows : List (UpdateRow Id Key Bytes)) :
    Option (UpdateRow Id Key Bytes × Bytes) :=
  match snapRow.bind SnapshotRow.snapshot, rows.filter fun r => r.update.isSome with
  | none, [⟨id, some update, some enc⟩] => some (⟨id, some update, some enc⟩, update)
  | _, _ => none

def mergeLegacy : List Bytes → Except Error Bytes
  | [part] => .ok part
  | parts => mergeUpdates yjs parts

/-- the plaintext of the legacy row -/
def legacyPlain (snapRow : Option (SnapshotRow Id Key Bytes)) (rows : List (UpdateRow Id Key Bytes)) :
    Except Error Bytes := match legacyRow snapRow rows with
  | some (_, update) => .ok update
  | none => mergeLegacy yjs (plainParts snapRow rows)

/-- what a compaction has made and checked before it writes -/
structure Plan (Id Key Bytes : Type) where
  row : SnapshotRow Id Key Bytes
  maxId : ℕ
  legacy : Option (Bytes × Sealed Key (Aad Id) Bytes) := none
  keep : Option ℕ := none

def insertLegacy (fails : Statement → Bool) (legacy : Option (Bytes × Sealed Key (Aad Id) Bytes))
    (d : Stored Id Key Bytes) : Except Error (Stored Id Key Bytes) := match legacy with
  | some (plain, enc) => do
    query fails .insertLegacy
    pure (d.insertUpdate plain enc)
  | none => pure d

/-- the upsert, the insert and the delete -/
def Plan.write (fails : Statement → Bool) (p : Plan Id Key Bytes) (d : Stored Id Key Bytes) :
    Except Error (Stored Id Key Bytes) := do
  query fails .upsert
  if d.admits p.maxId then
    let inserted ← insertLegacy fails p.legacy (d.upsertSnapshot p.row)
    query fails .delete
    let deleted := inserted.deleteUpdates p.maxId p.keep
    query fails .savepoint
    pure (if fails .invalidate then deleted else deleted.invalidateStateVector)
  else pure d

def planConverting (docId : Id) (c : DocCrypto Id Key) (snapRow : Option (SnapshotRow Id Key Bytes))
    (rows : List (UpdateRow Id Key Bytes)) (nonce nonce' : ℕ) : Except Error (Plan Id Key Bytes) := do
  checkDuals c docId snapRow rows
  let parts ← orSealVerify (openParts yjs (some c) docId snapRow rows)
  let full ← applyUpdates yjs parts
  let mergedPlain := yjs.encode full
  let mergedEnc := sealDocBytes c .snapshot docId mergedPlain nonce
  verifySealedSnapshot yjs c docId mergedEnc mergedPlain full
  let legacyPlain ← legacyPlain yjs snapRow rows
  -- the legacy merge stands for exactly the plaintext parts
  let legacyDoc ← applyUpdates yjs (plainParts snapRow rows)
  let legacyCheck ← applyUpdates yjs [legacyPlain]
  verify (sameDoc yjs legacyDoc legacyCheck)
  -- the sealed snapshot covers every legacy op
  let covered ← applyUpdates yjs [mergedPlain, legacyPlain]
  verify (sameDoc yjs covered full)
  let row : SnapshotRow Id Key Bytes := ⟨none, some mergedEnc, stateVector full, some (maxId rows)⟩
  match legacyRow snapRow rows with
  | some (r, _) => pure { row := row, maxId := maxId rows, keep := some r.id }
  | none => do
    let legacyEnc := sealDocBytes c .update docId legacyPlain nonce'
    checkDual c .update docId legacyPlain (some legacyEnc)
    pure { row := row, maxId := maxId rows, legacy := some (legacyPlain, legacyEnc), keep := some 0 }

def compactConverting (fails : Statement → Bool) (docId : Id) (c : DocCrypto Id Key)
    (snapRow : Option (SnapshotRow Id Key Bytes)) (rows : List (UpdateRow Id Key Bytes)) (nonce nonce' : ℕ)
    (d : Stored Id Key Bytes) : Except Error (Stored Id Key Bytes) := do
  let p ← planConverting yjs docId c snapRow rows nonce nonce'
  p.write fails d

/-- the merge of `compactLocked`: every row is sealed, or there is no key -/
def planMerge (docId : Id) (c : Option (DocCrypto Id Key)) (snapRow : Option (SnapshotRow Id Key Bytes))
    (rows : List (UpdateRow Id Key Bytes)) (nonce : ℕ) : Except Error (Plan Id Key Bytes) := do
  let parts ← openParts yjs c docId snapRow rows
  let full ← applyUpdates yjs parts
  let mergedPlain := yjs.encode full
  match c with
  | some c => do
    let mergedEnc := sealDocBytes c .snapshot docId mergedPlain nonce
    verifySealedSnapshot yjs c docId mergedEnc mergedPlain full
    pure { row := ⟨none, some mergedEnc, stateVector full, some (maxId rows)⟩, maxId := maxId rows }
  | none => pure { row := ⟨some mergedPlain, none, stateVector full, some (maxId rows)⟩, maxId := maxId rows }

/-- inside the transaction -/
def compactLocked (fails : Statement → Bool) (docId : Id) (c : Option (DocCrypto Id Key)) (nonce nonce' : ℕ)
    (d : Stored Id Key Bytes) : Except Error (Stored Id Key Bytes) := do
  query fails .readSnapshot
  query fails .readLog
  if d.log.isEmpty then pure d
  else match c, d.plaintextLeft with
    | some c, true => compactConverting yjs fails docId c d.snapshot d.log nonce nonce' d
    | c, _ => do
      let p ← planMerge yjs docId c d.snapshot d.log nonce
      p.write fails d

/-- the exclusive lock and its transaction: what it ends with, and what is stored then -/
def withDocLock (fails : Statement → Bool) (f : Stored Id Key Bytes → Except Error (Stored Id Key Bytes))
    (d : Stored Id Key Bytes) : Except Error Unit × Stored Id Key Bytes :=
  match (do query fails .begins; query fails .lock; let d' ← f d; query fails .commit; pure d') with
  | .ok d' => (query fails .commitReply, d')
  -- `ROLLBACK`
  | .error e => (.error e, d)

/-- the process's key cache, and what the database says of a vault's key -/
structure Keys (Id Key : Type) where
  vaultOfDoc : Id → Option Id
  /-- `vaultKeyCache`: a key and its generation -/
  cache : Id → Option (Key × ℕ)
  /-- the check, if it was not wiped, and the generation -/
  loadVkCheck : Id → Option (Option (Sealed Key Id Unit) × ℕ)

def verifyVk (key : Key) (vaultId : Id) (check : Option (Sealed Key Id Unit)) : Bool :=
  (check.bind (openWith key vaultId)).isSome

/-- the cached key, if it is still the vault's -/
def heldCrypto (keys : Keys Id Key) (docId : Id) : Option (DocCrypto Id Key) := match keys.vaultOfDoc docId with
  | some vaultId => match keys.cache vaultId, keys.loadVkCheck vaultId with
    | some (key, generation), some (check, current) =>
      if current = generation ∧ verifyVk key vaultId check then some ⟨vaultId, key⟩ else none
    | _, _ => none
  | none => none

/-- a seal that does not verify is logged -/
def logged : Except Error Unit × Stored Id Key Bytes → Except Error Unit × Stored Id Key Bytes
  | (.error .sealVerify, d) => (.ok (), d)
  | out => out

/-- `compactOnce`, in its turn of the document's chain -/
def compact (fails : Statement → Bool) (keys : Keys Id Key) (docId : Id) (given : Option (DocCrypto Id Key))
    (nonce nonce' : ℕ) (d : Stored Id Key Bytes) : Except Error Unit × Stored Id Key Bytes :=
  let locked c := logged (withDocLock fails (compactLocked yjs fails docId c nonce nonce') d)
  match given with
  | some c => locked (some c)
  | none =>
    if fails .sealedRows then (.error .database, d)
    else if d.isSealed then
      if fails .keyState then (.error .database, d)
      else match heldCrypto keys docId with
        | some c => locked (some c)
        -- it defers
        | none => (.ok (), d)
    else locked none

/-! ## What a compaction leaves -/

/-- the document that the rows hold, opened with the key -/
def Stored.decrypted (d : Stored Id Key Bytes) (c : Option (DocCrypto Id Key)) (docId : Id) : Except Error Update := do
  let parts ← openParts yjs c docId d.snapshot d.log
  applyUpdates yjs parts

/-- the rows that a conversion of `d` leaves: a snapshot without plaintext, sealed, of the whole document `u`; and one
row of the log, whose plaintext is that of `d` and whose sealed copy opens to it -/
structure Converted (docId : Id) (c : DocCrypto Id Key) (d d' : Stored Id Key Bytes) (u : Update) : Prop where
  before : d.decrypted yjs (some c) docId = .ok u
  after : d'.decrypted yjs (some c) docId = .ok u
  snapshot : ∃ row enc merged, d'.snapshot = some row ∧ row.snapshot = none ∧ row.snapshotEnc = some enc ∧
    openWith c.key ⟨.snapshot, c.vaultId, docId⟩ enc = some merged ∧ yjs.read merged = some u
  log : ∃ id plain enc, d'.log = [⟨id, some plain, some enc⟩] ∧
    openWith c.key ⟨.update, c.vaultId, docId⟩ enc = some plain ∧
    applyUpdates yjs [plain] = applyUpdates yjs (plainParts d.snapshot d.log) ∧
    (id = d.nextId ∨ ⟨id, some plain, some enc⟩ ∈ d.log)

/-- the key a compaction works with -/
inductive CryptoFor (keys : Keys Id Key) (docId : Id) (d : Stored Id Key Bytes) :
    Option (DocCrypto Id Key) → Option (DocCrypto Id Key) → Prop where
  /-- the caller's -/
  | given (c : DocCrypto Id Key) : CryptoFor keys docId d (some c) (some c)
  /-- the cache's, of the vault's generation and opening its check -/
  | held (vaultId : Id) (key : Key) (generation : ℕ) (check : Option (Sealed Key Id Unit)) :
    d.isSealed → keys.vaultOfDoc docId = some vaultId → keys.cache vaultId = some (key, generation) →
    keys.loadVkCheck vaultId = some (check, generation) → verifyVk key vaultId check →
    CryptoFor keys docId d none (some ⟨vaultId, key⟩)
  | plaintext : d.isSealed = false → CryptoFor keys docId d none none

/-! ## Steps that did not throw -/

section

variable {α β : Type}

theorem ok_of_bind {x : Except Error α} {f : α → Except Error β} {b : β} (h : x >>= f = .ok b) :
    ∃ a, x = .ok a ∧ f a = .ok b := by
  cases x with
  | error e => simp [bind, Except.bind] at h
  | ok a => exact ⟨a, rfl, h⟩

theorem ok_of_pure {a b : α} (h : (pure a : Except Error α) = .ok b) : a = b := Except.ok.inj h

theorem verify_ok {ok : Bool} {u : Unit} (h : verify ok = .ok u) : ok = true := by
  unfold verify at h
  split at h
  · next hok => exact hok
  · cases h

theorem ok_of_orSealVerify {x : Except Error α} {a : α} (h : orSealVerify x = .ok a) : x = .ok a := by
  cases x with
  | error e => simp [orSealVerify] at h
  | ok b => exact h

variable {xs : List α} {ys : List β}

/-- every member of a list that was gone through has its result -/
theorem mem_mapM_ok {f : α → Except Error β} (h : xs.mapM f = .ok ys) {x : α} (hx : x ∈ xs) :
    ∃ y ∈ ys, f x = .ok y := by
  induction xs generalizing ys with
  | nil => exact absurd hx not_mem_nil
  | cons a xs ih =>
    rw [mapM_cons] at h
    obtain ⟨b, hb, h⟩ := ok_of_bind h
    obtain ⟨bs, hbs, h⟩ := ok_of_bind h
    obtain rfl := ok_of_pure h
    rcases mem_cons.1 hx with rfl | hx
    · exact ⟨b, .head _, hb⟩
    · obtain ⟨y, hy, hfy⟩ := ih hbs hx
      exact ⟨y, .tail _ hy, hfy⟩

theorem mem_forM_ok {f : α → Except Error Unit} {u : Unit} (h : xs.forM f = .ok u) {x : α} (hx : x ∈ xs) :
    f x = .ok () := by
  induction xs with
  | nil => exact absurd hx not_mem_nil
  | cons a xs ih =>
    obtain ⟨v, hv, h⟩ := ok_of_bind h
    rcases mem_cons.1 hx with rfl | hx
    · exact hv
    · exact ih h hx

theorem mem_mapM_some {f : α → Option β} (h : xs.mapM f = some ys) {y : β} (hy : y ∈ ys) :
    ∃ x ∈ xs, f x = some y := by
  induction xs generalizing ys with
  | nil =>
    cases h
    exact absurd hy not_mem_nil
  | cons a xs ih =>
    rw [mapM_cons] at h
    obtain ⟨b, hb, h⟩ := Option.bind_eq_some_iff.1 h
    obtain ⟨bs, hbs, h⟩ := Option.bind_eq_some_iff.1 h
    cases h
    rcases mem_cons.1 hy with rfl | hy
    · exact ⟨a, .head _, hb⟩
    · obtain ⟨x, hx, hfx⟩ := ih hbs hy
      exact ⟨x, .tail _ hx, hfx⟩

theorem mapM_some_mem {f : α → Option β} (h : xs.mapM f = some ys) {x : α} (hx : x ∈ xs) :
    ∃ y ∈ ys, f x = some y := by
  induction xs generalizing ys with
  | nil => exact absurd hx not_mem_nil
  | cons a xs ih =>
    rw [mapM_cons] at h
    obtain ⟨b, hb, h⟩ := Option.bind_eq_some_iff.1 h
    obtain ⟨bs, hbs, h⟩ := Option.bind_eq_some_iff.1 h
    cases h
    rcases mem_cons.1 hx with rfl | hx
    · exact ⟨b, .head _, hb⟩
    · obtain ⟨y, hy, hfy⟩ := ih hbs hx
      exact ⟨y, .tail _ hy, hfy⟩

end

/-! ## What was opened -/

section

variable {yjs} {docId : Id} {c : DocCrypto Id Key} {snapRow : Option (SnapshotRow Id Key Bytes)}
variable {rows : List (UpdateRow Id Key Bytes)}

variable {column : SealedColumn}

theorem openWith_of_openDocBytes {enc : Sealed Key (Aad Id) Bytes} {plain opened : Option Bytes}
    (h : openDocBytes (some c) column docId (some enc) plain = .ok opened) :
    openWith c.key ⟨column, c.vaultId, docId⟩ enc = opened := by
  unfold openDocBytes at h
  dsimp only at h
  split at h
  · next b hb =>
    obtain rfl := Except.ok.inj h
    exact hb
  · cases h

/-- a plaintext passes if its row reads as the same bytes -/
theorem openDocBytes_of_checkDual {plain : Bytes} {enc : Option (Sealed Key (Aad Id) Bytes)} {u : Unit}
    (h : checkDual c column docId plain enc = .ok u) :
    openDocBytes (some c) column docId enc (some plain) = .ok (some plain) := by
  cases enc with
  | none => rfl
  | some enc =>
    obtain ⟨opened, hopened, h⟩ := ok_of_bind h
    have heq : opened = some plain := of_decide_eq_true (verify_ok h)
    have hopen := openWith_of_openDocBytes (ok_of_orSealVerify hopened)
    unfold openDocBytes
    dsimp only
    rw [hopen, heq]

theorem openDocBytes_of_checkRow {plain : Option Bytes} {p : Bytes} {enc : Option (Sealed Key (Aad Id) Bytes)}
    {u : Unit} (h : checkRow c column docId plain enc = .ok u) (hplain : plain = some p) :
    openDocBytes (some c) column docId enc plain = .ok (some p) := by
  subst hplain
  exact openDocBytes_of_checkDual h

variable {parts : List Bytes}

/-- **The plaintext is among what was opened**, if no dual row's copy differs. -/
theorem plainParts_subset {u : Unit} (hdual : checkDuals c docId snapRow rows = .ok u)
    (hopen : openParts yjs (some c) docId snapRow rows = .ok parts) : plainParts snapRow rows ⊆ parts := by
  obtain ⟨snapshotBuf, hsnap, hopen⟩ := ok_of_bind hopen
  obtain ⟨updates, hupdates, hopen⟩ := ok_of_bind hopen
  obtain rfl := ok_of_pure hopen
  obtain ⟨_, hdualSnap, hdualRows⟩ := ok_of_bind hdual
  refine append_subset.2 ⟨fun p hp => mem_append_left _ ?_, fun p hp => mem_append_right _ ?_⟩
  · obtain ⟨row, rfl, hplain⟩ := Option.bind_eq_some_iff.1 (Option.mem_toList.1 hp)
    have hread := openDocBytes_of_checkRow (mem_forM_ok hdualSnap (Option.mem_toList.2 rfl)) hplain
    have hbuf : snapshotBuf = some p := Except.ok.inj (hsnap.symm.trans hread)
    rw [hbuf]
    exact mem_singleton_self p
  · obtain ⟨r, hr, hplain⟩ := mem_filterMap.1 hp
    obtain ⟨b, hb, hread⟩ := mem_mapM_ok hupdates hr
    unfold openUpdate at hread
    rw [openDocBytes_of_checkRow (mem_forM_ok hdualRows hr) hplain] at hread
    obtain rfl : p = b := Except.ok.inj hread
    exact hb

variable {u : Update}

theorem applyUpdates_ok (h : applyUpdates yjs parts = .ok u) :
    ∃ us, parts.mapM yjs.read = some us ∧ mergeAll us = u := by
  unfold applyUpdates at h
  split at h
  · next us hus => exact ⟨us, hus, Except.ok.inj h⟩
  · cases h

theorem read_of_singleton {b : Bytes} (h : applyUpdates yjs [b] = .ok u) : yjs.read b = some u := by
  obtain ⟨us, hus, rfl⟩ := applyUpdates_ok h
  obtain ⟨w, hw, hus⟩ := Option.bind_eq_some_iff.1 hus
  cases hus
  rw [hw]
  exact congrArg some (sup_bot_eq w).symm

theorem applyUpdates_singleton {b : Bytes} (h : yjs.read b = some u) : applyUpdates yjs [b] = .ok u := by
  unfold applyUpdates
  have hreads : [b].mapM yjs.read = some [u] := by rw [mapM_cons, h]; rfl
  rw [hreads]
  exact congrArg Except.ok (sup_bot_eq u)

theorem applyUpdates_pair {b b' : Bytes} {u' : Update} (h : yjs.read b = some u) (h' : yjs.read b' = some u') :
    applyUpdates yjs [b, b'] = .ok (u ⊔ u') := by
  unfold applyUpdates
  have hreads : [b, b'].mapM yjs.read = some [u, u'] := by
    rw [mapM_cons, mapM_cons, h, h']
    rfl
  rw [hreads]
  exact congrArg Except.ok (congrArg (u ⊔ ·) (sup_bot_eq u'))

/-- fewer parts make a smaller document -/
theorem applyUpdates_le {parts' : List Bytes} {u' : Update} (h : applyUpdates yjs parts = .ok u)
    (h' : applyUpdates yjs parts' = .ok u') (hsub : parts ⊆ parts') : u ≤ u' := by
  obtain ⟨us, hus, rfl⟩ := applyUpdates_ok h
  obtain ⟨us', hus', rfl⟩ := applyUpdates_ok h'
  refine mergeAll_le fun w hw => ?_
  obtain ⟨b, hb, hread⟩ := mem_mapM_some hus hw
  obtain ⟨w', hw', hread'⟩ := mapM_some_mem hus' (hsub hb)
  cases hread.symm.trans hread'
  exact le_mergeAll hw'

/-- the one row's plaintext is all that was plaintext -/
theorem plainParts_of_legacyRow {r : UpdateRow Id Key Bytes} {plain : Bytes}
    (h : legacyRow snapRow rows = some (r, plain)) :
    plainParts snapRow rows = [plain] ∧ r ∈ rows ∧ ∃ enc, r = ⟨r.id, some plain, some enc⟩ := by
  unfold legacyRow at h
  split at h
  · next id update enc hsnap hrows =>
    obtain ⟨rfl, rfl⟩ := Prod.mk.inj (Option.some.inj h)
    refine ⟨?_, ?_, enc, rfl⟩
    · unfold plainParts
      rw [hsnap]
      have hfilter : rows.filterMap UpdateRow.update =
          (rows.filter fun r => r.update.isSome).filterMap UpdateRow.update := by
        rw [filterMap_filter]
        refine filterMap_congr fun x _ => ?_
        cases x.update <;> rfl
      rw [hfilter, hrows]
      rfl
    · have hmem : (⟨id, some update, some enc⟩ : UpdateRow Id Key Bytes) ∈ rows.filter fun r => r.update.isSome := by
        rw [hrows]
        exact mem_singleton_self _
      exact mem_of_mem_filter hmem
  · cases h

/-- the legacy merge reads as the plaintext parts do -/
theorem read_mergeLegacy (hyjs : yjs.Lawful) {merged : Bytes} (h : mergeLegacy yjs parts = .ok merged)
    (hparts : applyUpdates yjs parts = .ok u) : yjs.read merged = some u := by
  obtain ⟨us, hus, rfl⟩ := applyUpdates_ok hparts
  unfold mergeLegacy at h
  split at h
  · obtain rfl := Except.ok.inj h
    exact read_of_singleton hparts
  · unfold mergeUpdates at h
    split at h
    · next b hb =>
      obtain rfl := Except.ok.inj h
      exact hyjs.read_mergeUpdates _ us b hus hb
    · cases h

end

/-! ## What is written -/

section

variable {yjs} {docId : Id} {c : DocCrypto Id Key} {snapRow : Option (SnapshotRow Id Key Bytes)}
variable {rows : List (UpdateRow Id Key Bytes)} {fails : Statement → Bool} {d d' : Stored Id Key Bytes}

/-- the row that a plan inserts -/
def Plan.inserts (p : Plan Id Key Bytes) (id : ℕ) : List (UpdateRow Id Key Bytes) :=
  p.legacy.toList.map fun x => ⟨id, some x.1, some x.2⟩

variable {p : Plan Id Key Bytes}

theorem insertLegacy_cases (h : insertLegacy fails p.legacy d = .ok d') :
    d'.snapshot = d.snapshot ∧ d'.log = d.log ++ p.inserts d.nextId := by
  unfold insertLegacy at h
  unfold Plan.inserts
  split at h
  · next plain enc hlegacy =>
    obtain ⟨_, _, h⟩ := ok_of_bind h
    obtain rfl := ok_of_pure h
    rw [hlegacy]
    exact ⟨rfl, rfl⟩
  · next hlegacy =>
    obtain rfl := ok_of_pure h
    rw [hlegacy]
    exact ⟨rfl, (append_nil _).symm⟩

/-- a write ends as it began if the snapshot is not older, else with the plan's snapshot and without what it merged -/
theorem Plan.write_cases (h : p.write fails d = .ok d') :
    (d.admits p.maxId = false ∧ d' = d) ∨ (d'.snapshot = some p.row ∧
      d'.log = (d.log ++ p.inserts d.nextId).filter fun r => ¬ (r.id ≤ p.maxId ∧ some r.id ≠ p.keep)) := by
  obtain ⟨_, _, h⟩ := ok_of_bind h
  split at h
  · obtain ⟨inserted, hinserted, h⟩ := ok_of_bind h
    obtain ⟨_, _, h⟩ := ok_of_bind h
    obtain ⟨_, _, h⟩ := ok_of_bind h
    have hsame : d'.snapshot = inserted.snapshot ∧
        d'.log = inserted.log.filter fun r => ¬ (r.id ≤ p.maxId ∧ some r.id ≠ p.keep) := by
      obtain rfl := ok_of_pure h
      split
      · exact ⟨rfl, rfl⟩
      · exact ⟨rfl, rfl⟩
    obtain ⟨hsnapshot, hlog⟩ := insertLegacy_cases hinserted
    rw [hsame.1, hsame.2, hsnapshot, hlog]
    exact .inr ⟨rfl, rfl⟩
  · next hadmits =>
    obtain rfl := ok_of_pure h
    exact .inl ⟨Bool.eq_false_iff.2 hadmits, rfl⟩

variable {r : UpdateRow Id Key Bytes}

/-- the last id is the largest -/
theorem le_maxId (hordered : rows.Pairwise fun r r' => r.id < r'.id) (hr : r ∈ rows) : r.id ≤ maxId rows := by
  rcases eq_nil_or_concat rows with rfl | ⟨front, last, rfl⟩
  · exact absurd hr not_mem_nil
  · have hlast : maxId (front ++ [last]) = last.id := by simp [maxId]
    rw [concat_eq_append] at *
    rw [hlast]
    rcases mem_snoc.1 hr with hr | rfl
    · exact ((pairwise_append.1 hordered).2.2 r hr last (mem_singleton_self _)).le
    · exact le_rfl

/-- an id names one row -/
theorem filter_id (hordered : rows.Pairwise fun r r' => r.id < r'.id) (hr : r ∈ rows) :
    (rows.filter fun x => x.id = r.id) = [r] := by
  induction rows with
  | nil => exact absurd hr not_mem_nil
  | cons a rows ih =>
    obtain ⟨ha, hrest⟩ := pairwise_cons.1 hordered
    rcases mem_cons.1 hr with rfl | hr
    · rw [filter_cons_of_pos (by simp), filter_eq_nil_iff.2 fun x hx => by simpa using (ha x hx).ne']
    · rw [filter_cons_of_neg (by simpa using (ha r hr).ne)]
      exact ih hrest hr

/-- none of the rows that were read is left -/
theorem filter_merged {keep : Option ℕ} (hkeep : ∀ r ∈ d.log, some r.id ≠ keep) :
    (d.log.filter fun r => ¬ (r.id ≤ maxId d.log ∧ some r.id ≠ keep)) = [] := by
  refine filter_eq_nil_iff.2 fun r hr => ?_
  have hmerged : r.id ≤ maxId d.log ∧ some r.id ≠ keep := ⟨le_maxId d.ordered hr, hkeep r hr⟩
  simpa using hmerged

/-- the row that is kept is left, and no other -/
theorem filter_kept (hr : r ∈ d.log) :
    (d.log.filter fun x => ¬ (x.id ≤ maxId d.log ∧ some x.id ≠ some r.id)) = [r] := by
  have hsame : ∀ x ∈ d.log, (decide ¬ (x.id ≤ maxId d.log ∧ some x.id ≠ some r.id)) = decide (x.id = r.id) := by
    intro x hx
    have hle := le_maxId d.ordered hx
    simp [hle]
  rw [filter_congr hsame]
  exact filter_id d.ordered hr

/-- a row inserted now is above the ids that were read -/
theorem maxId_lt_nextId (d : Stored Id Key Bytes) : maxId d.log < d.nextId := by
  unfold maxId
  cases hlast : d.log.getLast? with
  | none => exact d.nextId_pos
  | some r => exact (d.ids r (mem_of_getLast? hlast)).2

/-- the row that is inserted is left, and no other -/
theorem filter_inserted (plain : Bytes) (enc : Sealed Key (Aad Id) Bytes) :
    ((d.log ++ [(⟨d.nextId, some plain, some enc⟩ : UpdateRow Id Key Bytes)]).filter fun r =>
      ¬ (r.id ≤ maxId d.log ∧ some r.id ≠ some 0)) = [⟨d.nextId, some plain, some enc⟩] := by
  have hkeep : ∀ r ∈ d.log, some r.id ≠ some 0 := fun r hr h => (d.ids r hr).1.ne' (Option.some.inj h)
  have habove : ¬ d.nextId ≤ maxId d.log := not_le.2 (maxId_lt_nextId d)
  rw [filter_append, filter_merged hkeep, nil_append, filter_cons_of_pos (by simp [habove])]
  rfl

/-- a conversion's plan: what was opened, the sealed snapshot, and the row that is kept or inserted -/
theorem planConverting_cases {nonce nonce' : ℕ} (h : planConverting yjs docId c snapRow rows nonce nonce' = .ok p) :
    ∃ parts full legacy legacyPlain, openParts yjs (some c) docId snapRow rows = .ok parts ∧
      applyUpdates yjs parts = .ok full ∧ plainParts snapRow rows ⊆ parts ∧
      applyUpdates yjs (plainParts snapRow rows) = .ok legacy ∧
      p.row = ⟨none, some (sealDocBytes c .snapshot docId (yjs.encode full) nonce), stateVector full,
        some (maxId rows)⟩ ∧ p.maxId = maxId rows ∧
      ((∃ r, legacyRow snapRow rows = some (r, legacyPlain) ∧ p.legacy = none ∧ p.keep = some r.id) ∨
        (mergeLegacy yjs (plainParts snapRow rows) = .ok legacyPlain ∧
          p.legacy = some (legacyPlain, sealDocBytes c .update docId legacyPlain nonce') ∧ p.keep = some 0)) := by
  obtain ⟨_, hdual, h⟩ := ok_of_bind h
  obtain ⟨parts, hopen, h⟩ := ok_of_bind h
  obtain ⟨full, hfull, h⟩ := ok_of_bind h
  obtain ⟨_, _, h⟩ := ok_of_bind h
  obtain ⟨legacyPlain, hlegacyPlain, h⟩ := ok_of_bind h
  obtain ⟨legacy, hlegacy, h⟩ := ok_of_bind h
  obtain ⟨_, _, h⟩ := ok_of_bind h
  obtain ⟨_, _, h⟩ := ok_of_bind h
  obtain ⟨_, _, h⟩ := ok_of_bind h
  obtain ⟨_, _, h⟩ := ok_of_bind h
  have hopened := ok_of_orSealVerify hopen
  refine ⟨parts, full, legacy, legacyPlain, hopened, hfull, plainParts_subset hdual hopened, hlegacy, ?_⟩
  unfold ConvertingCompaction.legacyPlain at hlegacyPlain
  cases hkeep : legacyRow snapRow rows with
  | some x =>
    obtain ⟨r, update⟩ := x
    rw [hkeep] at h hlegacyPlain
    obtain rfl := Except.ok.inj hlegacyPlain
    obtain rfl := ok_of_pure h
    exact ⟨rfl, rfl, .inl ⟨r, rfl, rfl, rfl⟩⟩
  | none =>
    rw [hkeep] at h hlegacyPlain
    obtain ⟨_, _, h⟩ := ok_of_bind h
    obtain rfl := ok_of_pure h
    exact ⟨rfl, rfl, .inr ⟨hlegacyPlain, rfl, rfl⟩⟩

/-- a merge's plan -/
theorem planMerge_cases {c : Option (DocCrypto Id Key)} {nonce : ℕ}
    (h : planMerge yjs docId c snapRow rows nonce = .ok p) :
    ∃ parts full, openParts yjs c docId snapRow rows = .ok parts ∧ applyUpdates yjs parts = .ok full ∧
      openDocBytes c .snapshot docId p.row.snapshotEnc p.row.snapshot = .ok (some (yjs.encode full)) ∧
      p.maxId = maxId rows ∧ p.legacy = none ∧ p.keep = none := by
  obtain ⟨parts, hopen, h⟩ := ok_of_bind h
  obtain ⟨full, hfull, h⟩ := ok_of_bind h
  refine ⟨parts, full, hopen, hfull, ?_⟩
  cases c with
  | none =>
    obtain rfl := ok_of_pure h
    exact ⟨rfl, rfl, rfl, rfl⟩
  | some c =>
    obtain ⟨_, _, h⟩ := ok_of_bind h
    obtain rfl := ok_of_pure h
    refine ⟨?_, rfl, rfl, rfl⟩
    unfold openDocBytes sealDocBytes
    dsimp only
    rw [openWith_sealWith]

end

/-! ## Results -/

section

variable {yjs} {docId : Id} {fails : Statement → Bool} {d d' : Stored Id Key Bytes}

variable {c : Option (DocCrypto Id Key)}

theorem decrypted_eq {parts : List Bytes} (h : openParts yjs c docId d.snapshot d.log = .ok parts) :
    d.decrypted yjs c docId = applyUpdates yjs parts := by
  unfold Stored.decrypted
  rw [h]
  rfl

variable {nonce nonce' : ℕ}

/-- **One row is left of the log.** It is dual and its plaintext reads as the plaintext parts do. -/
theorem legacy_left (hyjs : yjs.Lawful) {c : DocCrypto Id Key} {p : Plan Id Key Bytes} {legacy : Update}
    {legacyPlain : Bytes} (hplan : planConverting yjs docId c d.snapshot d.log nonce nonce' = .ok p)
    (hlegacy : applyUpdates yjs (plainParts d.snapshot d.log) = .ok legacy)
    (hkept : (∃ r, legacyRow d.snapshot d.log = some (r, legacyPlain) ∧ p.legacy = none ∧ p.keep = some r.id) ∨
      (mergeLegacy yjs (plainParts d.snapshot d.log) = .ok legacyPlain ∧ p.legacy = some (legacyPlain,
      sealDocBytes c .update docId legacyPlain nonce') ∧ p.keep = some 0)) :
    ∃ id enc, ((d.log ++ p.inserts d.nextId).filter fun r => ¬ (r.id ≤ maxId d.log ∧ some r.id ≠ p.keep)) =
        [⟨id, some legacyPlain, some enc⟩] ∧
      openWith c.key ⟨.update, c.vaultId, docId⟩ enc = some legacyPlain ∧ yjs.read legacyPlain = some legacy ∧
      (id = d.nextId ∨ ⟨id, some legacyPlain, some enc⟩ ∈ d.log) := by
  unfold Plan.inserts
  rcases hkept with ⟨r, hkeep, hnone, hid⟩ | ⟨hmerge, hsome, hid⟩
  · -- the row that is kept
    obtain ⟨hplain, hr, enc, heq⟩ := plainParts_of_legacyRow hkeep
    obtain ⟨_, hdual, _⟩ := ok_of_bind hplan
    obtain ⟨_, _, hduals⟩ := ok_of_bind hdual
    have hcheck := mem_forM_ok hduals hr
    rw [heq] at hcheck
    have hopens := openWith_of_openDocBytes (openDocBytes_of_checkRow hcheck rfl)
    rw [hplain] at hlegacy
    refine ⟨r.id, enc, ?_, hopens, read_of_singleton hlegacy, .inr (heq ▸ hr)⟩
    rw [hnone, hid, Option.toList_none, map_nil, append_nil, filter_kept hr, ← heq]
  · -- the row that is inserted
    refine ⟨d.nextId, sealDocBytes c .update docId legacyPlain nonce', ?_, openWith_sealWith _ _ _ _,
      read_mergeLegacy hyjs hmerge hlegacy, .inl rfl⟩
    rw [hsome, hid]
    exact filter_inserted _ _

/-- **A conversion leaves the rows as they are, or converted.** It leaves them only if the snapshot is not older. -/
theorem compactConverting_spec (hyjs : yjs.Lawful) {c : DocCrypto Id Key}
    (h : compactConverting yjs fails docId c d.snapshot d.log nonce nonce' d = .ok d') :
    (d.admits (maxId d.log) = false ∧ d' = d) ∨ ∃ u, Converted yjs docId c d d' u := by
  obtain ⟨p, hplan, hwrite⟩ := ok_of_bind h
  obtain ⟨parts, full, legacy, legacyPlain, hopen, hfull, hsub, hlegacy, hrow, hmax, hkept⟩ :=
    planConverting_cases hplan
  rcases Plan.write_cases hwrite with ⟨hrefused, rfl⟩ | ⟨hsnapshot, hlog⟩
  · rw [hmax] at hrefused
    exact .inl ⟨hrefused, rfl⟩
  refine .inr ⟨full, ?_⟩
  have hle : legacy ≤ full := applyUpdates_le hlegacy hfull hsub
  obtain ⟨id, enc, hleft, hdual, hread, hwhence⟩ := legacy_left hyjs hplan hlegacy hkept
  rw [← hmax, ← hlog] at hleft
  have hopens : openParts yjs (some c) docId d'.snapshot d'.log = .ok [yjs.encode full, legacyPlain] := by
    have hsnap : openSnapshot (some c) docId d'.snapshot = .ok (some (yjs.encode full)) := by
      rw [hsnapshot, hrow]
      unfold openSnapshot openDocBytes sealDocBytes
      dsimp only
      rw [openWith_sealWith]
    have hupdate : openUpdate yjs (some c) docId ⟨id, some legacyPlain, some enc⟩ = .ok legacyPlain := by
      unfold openUpdate openDocBytes
      dsimp only
      rw [hdual]
      rfl
    unfold openParts
    rw [hsnap, hleft, mapM_cons, hupdate]
    rfl
  exact {
    before := (decrypted_eq hopen).trans hfull
    after := by
      rw [decrypted_eq hopens, applyUpdates_pair (hyjs.read_encode full) hread, sup_eq_left.2 hle]
    snapshot := ⟨p.row, sealDocBytes c .snapshot docId (yjs.encode full) nonce, yjs.encode full, hsnapshot,
      by rw [hrow], by rw [hrow], openWith_sealWith _ _ _ _, hyjs.read_encode full⟩
    log := ⟨id, legacyPlain, enc, hleft, hdual, (applyUpdates_singleton hread).trans hlegacy.symm, hwhence⟩ }

/-- **A merge keeps the document.** -/
theorem merge_decrypted (hyjs : yjs.Lawful) {p : Plan Id Key Bytes}
    (hplan : planMerge yjs docId c d.snapshot d.log nonce = .ok p) (hwrite : p.write fails d = .ok d') :
    d' = d ∨ ∃ u, d.decrypted yjs c docId = .ok u ∧ d'.decrypted yjs c docId = .ok u := by
  obtain ⟨parts, full, hopen, hfull, hrow, hmax, hlegacy, hkeep⟩ := planMerge_cases hplan
  rcases Plan.write_cases hwrite with ⟨_, rfl⟩ | ⟨hsnapshot, hlog⟩
  · exact .inl rfl
  refine .inr ⟨full, (decrypted_eq hopen).trans hfull, ?_⟩
  have hnil : d'.log = [] := by
    rw [hlog, hmax, hkeep]
    unfold Plan.inserts
    rw [hlegacy, Option.toList_none, map_nil, append_nil]
    exact filter_merged fun _ _ => by simp
  have hopens : openParts yjs c docId d'.snapshot d'.log = .ok [yjs.encode full] := by
    have hsnap : openSnapshot c docId d'.snapshot = .ok (some (yjs.encode full)) := by
      rw [hsnapshot]
      exact hrow
    unfold openParts
    rw [hsnap, hnil]
    rfl
  rw [decrypted_eq hopens]
  exact applyUpdates_singleton (hyjs.read_encode full)

/-- what one compaction with this key may leave -/
def Kept (yjs : Yjs Bytes) (docId : Id) (c : Option (DocCrypto Id Key)) (d d' : Stored Id Key Bytes) : Prop :=
  d' = d ∨ ∃ u, d.decrypted yjs c docId = .ok u ∧ d'.decrypted yjs c docId = .ok u ∧
    ∀ k, c = some k → d.plaintextLeft → Converted yjs docId k d d' u

theorem compactLocked_kept (hyjs : yjs.Lawful) (h : compactLocked yjs fails docId c nonce nonce' d = .ok d') :
    Kept yjs docId c d d' := by
  obtain ⟨_, _, h⟩ := ok_of_bind h
  obtain ⟨_, _, h⟩ := ok_of_bind h
  split at h
  · exact .inl (ok_of_pure h).symm
  · split at h
    · next k _ =>
      rcases compactConverting_spec hyjs h with ⟨_, rfl⟩ | ⟨u, hu⟩
      · exact .inl rfl
      · refine .inr ⟨u, hu.before, hu.after, fun k' hk' _ => ?_⟩
        cases hk'
        exact hu
    · next hnot =>
      obtain ⟨p, hplan, hwrite⟩ := ok_of_bind h
      rcases merge_decrypted hyjs hplan hwrite with rfl | ⟨u, hbefore, hafter⟩
      · exact .inl rfl
      · exact .inr ⟨u, hbefore, hafter, fun k hk hleft => absurd hleft (hnot k hk)⟩

/-- a transaction commits what it did, or leaves everything -/
theorem withDocLock_cases (f : Stored Id Key Bytes → Except Error (Stored Id Key Bytes)) (d : Stored Id Key Bytes) :
    (logged (withDocLock fails f d)).2 = d ∨ f d = .ok (logged (withDocLock fails f d)).2 := by
  have hlogged : ∀ out : Except Error Unit × Stored Id Key Bytes, (logged out).2 = out.2 := by
    intro out
    unfold logged
    split
    · rfl
    · rfl
  rw [hlogged]
  unfold withDocLock
  split
  · next d' h =>
    obtain ⟨_, _, h⟩ := ok_of_bind h
    obtain ⟨_, _, h⟩ := ok_of_bind h
    obtain ⟨d'', hf, h⟩ := ok_of_bind h
    obtain ⟨_, _, h⟩ := ok_of_bind h
    obtain rfl := ok_of_pure h
    exact .inr hf
  · exact .inl rfl

theorem heldCrypto_cases {keys : Keys Id Key} {c : DocCrypto Id Key} (hsealed : d.isSealed = true)
    (h : heldCrypto keys docId = some c) : CryptoFor keys docId d none (some c) := by
  unfold heldCrypto at h
  split at h
  · next vaultId hvault =>
    split at h
    · next key generation check current hcache hcheck =>
      split at h
      · next hcurrent =>
        obtain ⟨rfl, hverify⟩ := hcurrent
        cases h
        exact .held vaultId key current check hsealed hvault hcache hcheck hverify
      · cases h
    · cases h
  · cases h

/-- **A compaction leaves the rows as they are, or has a key that opens them all and keeps the document.** -/
theorem compact_kept (hyjs : yjs.Lawful) (keys : Keys Id Key) (given : Option (DocCrypto Id Key)) (nonce nonce' : ℕ) :
    (compact yjs fails keys docId given nonce nonce' d).2 = d ∨
      ∃ k, CryptoFor keys docId d given k ∧
        Kept yjs docId k d (compact yjs fails keys docId given nonce nonce' d).2 := by
  have hlocked : ∀ c, CryptoFor keys docId d given c →
      (logged (withDocLock fails (compactLocked yjs fails docId c nonce nonce') d)).2 = d ∨
        ∃ k, CryptoFor keys docId d given k ∧
          Kept yjs docId k d (logged (withDocLock fails (compactLocked yjs fails docId c nonce nonce') d)).2 := by
    intro c hc
    rcases withDocLock_cases (compactLocked yjs fails docId c nonce nonce') d with hsame | hok
    · exact .inl hsame
    · exact .inr ⟨c, hc, compactLocked_kept hyjs hok⟩
  unfold compact
  cases given with
  | some c => exact hlocked (some c) (.given c)
  | none =>
    dsimp only
    split
    · exact .inl rfl
    · split
      · next hsealed =>
        split
        · exact .inl rfl
        · split
          · next c hheld => exact hlocked (some c) (heldCrypto_cases hsealed hheld)
          · exact .inl rfl
      · next hnot => exact hlocked none (.plaintext (Bool.eq_false_iff.2 hnot))

end

/-- **A conversion keeps the document and fails closed.** Whatever the rows, the keys and the statements that fail:
`compactConverting` leaves the rows as they are, which is if the snapshot is not older, or converted; and so does
`compact` where it has a key and plaintext is left. It leaves them as they are if no key it may use opens every row. -/
theorem converting_compaction_keeps (hyjs : yjs.Lawful) (fails : Statement → Bool) (keys : Keys Id Key) (docId : Id)
    (given : Option (DocCrypto Id Key)) (nonce nonce' : ℕ) (d : Stored Id Key Bytes) :
    (∀ c d', compactConverting yjs fails docId c d.snapshot d.log nonce nonce' d = .ok d' →
      (d.admits (maxId d.log) = false ∧ d' = d) ∨ ∃ u, Converted yjs docId c d d' u) ∧
    ((compact yjs fails keys docId given nonce nonce' d).2 = d ∨ ∃ c, CryptoFor keys docId d given c ∧
      ∃ u, d.decrypted yjs c docId = .ok u ∧
        (compact yjs fails keys docId given nonce nonce' d).2.decrypted yjs c docId = .ok u ∧
        ∀ k, c = some k → d.plaintextLeft →
          Converted yjs docId k d (compact yjs fails keys docId given nonce nonce' d).2 u) ∧
    ((∀ c, CryptoFor keys docId d given c → ∀ u, d.decrypted yjs c docId ≠ .ok u) →
      (compact yjs fails keys docId given nonce nonce' d).2 = d) := by
  have hkept : (compact yjs fails keys docId given nonce nonce' d).2 = d ∨ ∃ c, CryptoFor keys docId d given c ∧
      ∃ u, d.decrypted yjs c docId = .ok u ∧
        (compact yjs fails keys docId given nonce nonce' d).2.decrypted yjs c docId = .ok u ∧
        ∀ k, c = some k → d.plaintextLeft →
          Converted yjs docId k d (compact yjs fails keys docId given nonce nonce' d).2 u := by
    rcases compact_kept hyjs keys given nonce nonce' with hsame | ⟨c, hc, hsame | hu⟩
    · exact .inl hsame
    · exact .inl hsame
    · exact .inr ⟨c, hc, hu⟩
  refine ⟨fun c d' h => compactConverting_spec hyjs h, hkept, fun hclosed => ?_⟩
  rcases hkept with hsame | ⟨c, hc, u, hu, _⟩
  · exact hsame
  · exact absurd hu (hclosed c hc u)

/-! ## A run -/

section

/-- an update's bytes are the update; no bytes are none -/
def yjs₀ : Yjs (Option Update) where
  read := id
  encode := some
  mergeUpdates parts := (parts.mapM id).map fun us => some (mergeAll us)
  text _ := []
  empty := none

theorem yjs₀_lawful : yjs₀.Lawful where
  read_encode _ := rfl
  read_mergeUpdates parts us merged hus hmerged := by
    have hparts : parts.mapM id = some us := hus
    have hmerge : ((parts.mapM id).map fun us => some (mergeAll us)) = some merged := hmerged
    rw [hparts] at hmerge
    exact (Option.some.inj hmerge).symm

def typed (clock : ℕ) : Update := ⟨{⟨1, clock⟩}, ∅⟩

def crypto₀ : DocCrypto ℕ ℕ := ⟨3, 5⟩

def sealed₀ (u : Update) : Sealed ℕ (Aad ℕ) (Option Update) := sealDocBytes crypto₀ .update 7 (some u) 0

/-- two updates from before the vault had its key, and one from after -/
def keyed : Stored ℕ ℕ (Option Update) where
  snapshot := none
  log := [⟨1, some (some (typed 0)), none⟩, ⟨2, some (some (typed 1)), some (sealed₀ (typed 1))⟩,
    ⟨3, none, some (sealed₀ (typed 2))⟩]
  nextId := 4
  vector := none
  ordered := by decide
  ids := by decide
  nextId_pos := by decide

def noKeys : Keys ℕ ℕ := ⟨fun _ => some 3, fun _ => none, fun _ => none⟩

def compacted : Stored ℕ ℕ (Option Update) := (compact yjs₀ (fun _ => false) noKeys 7 (some crypto₀) 1 2 keyed).2

/-- with the key the note is converted; without, it is left -/
theorem keyed_is_converted : (∃ u, Converted yjs₀ 7 crypto₀ keyed compacted u) ∧
    (compact yjs₀ (fun _ => false) noKeys 7 none 1 2 keyed).2 = keyed := by
  have hgiven := converting_compaction_keeps yjs₀ yjs₀_lawful (fun _ => false) noKeys 7 (some crypto₀) 1 2 keyed
  have hnone := converting_compaction_keeps yjs₀ yjs₀_lawful (fun _ => false) noKeys 7 none 1 2 keyed
  refine ⟨?_, hnone.2.2 fun c hc => ?_⟩
  · rcases hgiven.2.1 with hsame | ⟨c, hc, u, _, _, hconverted⟩
    · have hlog : compacted.log ≠ keyed.log := by decide +kernel
      exact absurd (congrArg Stored.log hsame) hlog
    · cases hc with
      | given => exact ⟨u, hconverted crypto₀ rfl rfl⟩
  · cases hc with
    | held vaultId key generation check _ _ hcache => exact absurd hcache (by simp [noKeys])
    | plaintext hopen => exact absurd hopen (by decide)

/-- the row that the conversion wrote holds plaintext -/
theorem plaintext_is_written : (compact yjs₀ (fun _ => false) noKeys 7 (some crypto₀) 1 2 keyed).1 = .ok () ∧
    ∃ r ∈ compacted.log, r ∉ keyed.log ∧ r.update = some (some (typed 0 ⊔ typed 1)) := by
  have hlog : compacted.log =
      [⟨4, some (some (typed 0 ⊔ typed 1)), some (sealDocBytes crypto₀ .update 7 (some (typed 0 ⊔ typed 1)) 2)⟩] := by
    decide +kernel
  refine ⟨by rfl, _, hlog ▸ mem_singleton_self _, by decide +kernel, rfl⟩

end

end Baalda.ConvertingCompaction
