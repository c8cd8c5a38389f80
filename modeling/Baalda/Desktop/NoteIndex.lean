/-
The local index of a vault's notes (`src-tauri/src/index.rs`): tables that can be dropped and derived again from the
files, and the operations that keep them up to date instead.

- A note is a `NoteRow`: the row of `notes`, its row of `notes_fts` and its tags, which are only ever written together.
  Its outbound links are rows of `links`, found by `src_note_id`; `note_file_identity` outlives the note.
- `indexOne` reads one file: a file whose hash its row already has is left alone (`hashGate`), an oversized one keeps a
  title only, and a new path may adopt the row of a path that is gone (`idForExternalMove`).
- A batch does its row work first and then one link pass (`resolveLinks`), over every link (`LinkScope.all`) or over the
  links that touch the batch's notes and the dangling ones (`LinkScope.touched`).

An operation that fails as a whole leaves the database as it was (one transaction); its result is then `none`, or the
index unchanged. What the index reads of the disk is a `Disk`. The order in which SQLite returns rows is not specified:
a link pass is given one.
-/
import Baalda.Desktop.NoteParse

namespace Baalda.NoteIndex

local instance : LawfulBEq Text := inferInstance

/-! ## The disk -/

/-- what the index reads of a note file; `F` is a file's identity -/
structure File (F : Type*) where
  size : ℕ
  /-- `read_to_string`, which refuses what is not UTF-8 -/
  text : Option Text
  mtime : ℤ
  identity : Option F
  deriving DecidableEq

inductive Node (F : Type*) where
  /-- a file the walk of `rebuild` takes for a note -/
  | note (file : File F)
  /-- a folder, a file that is no note, an ignored one -/
  | other (identity : Option F)
  deriving DecidableEq

structure Disk (F : Type*) where
  node : Path → Option (Node F)
  /-- the notes in the order of the walk -/
  walk : List Path
  walk_nodup : walk.Nodup
  mem_walk : ∀ path, path ∈ walk ↔ ∃ file, node path = some (.note file)

def Disk.file {F : Type*} (disk : Disk F) (path : Path) : Option (File F) := match disk.node path with
  | some (.note file) => some file
  | _ => none

/-- `note_file_identity::identity` -/
def Disk.identity {F : Type*} (disk : Disk F) (path : Path) : Option F := match disk.node path with
  | some (.note file) => file.identity
  | some (.other identity) => identity
  | none => none

/-- a disk that holds these notes and nothing else -/
def Disk.ofFiles {F : Type*} (files : List (Path × File F)) (h : (files.map Prod.fst).Nodup) : Disk F where
  node path := (files.find? (·.1 = path)).map fun e => .note e.2
  walk := files.map Prod.fst
  walk_nodup := h
  mem_walk path := by
    simp only [List.mem_map, Option.map_eq_some_iff, Node.note.injEq]
    constructor
    · intro hmem
      obtain ⟨e, he, rfl⟩ := hmem
      obtain ⟨x, hx⟩ := Option.isSome_iff_exists.mp (List.find?_isSome (p := (·.1 = e.1)).mpr ⟨e, he, by simp⟩)
      exact ⟨x.2, x, hx, rfl⟩
    · intro hex
      obtain ⟨-, e, he, -⟩ := hex
      exact ⟨e, List.mem_of_find?_eq_some he, by simpa using List.find?_some he⟩

/-! ## The tables -/

/-- the columns derived from a file -/
structure Values (Sha : Type*) where
  title : Text
  sha256 : Option Sha
  frontmatter : Option Text
  tags : Finset Text
  ftsTitle : Text
  body : Text
  deriving DecidableEq

structure NoteRow (D Sha : Type*) where
  id : D
  path : Path
  mtime : ℤ
  values : Values Sha
  deriving DecidableEq

structure LinkRow (D : Type*) where
  src : D
  dst : Option D
  link : ParsedLink
  deriving DecidableEq

structure IdentityRow (D F : Type*) where
  docId : D
  path : Path
  fileId : F
  deriving DecidableEq

structure Index (D Sha F : Type*) where
  notes : List (NoteRow D Sha)
  links : List (LinkRow D)
  identities : List (IdentityRow D F)
  deriving DecidableEq

def empty {D Sha F : Type*} : Index D Sha F := ⟨[], [], []⟩

/-- an order in which SQLite may return the rows of `notes` -/
structure RowOrder (D Sha : Type*) where
  order : List (NoteRow D Sha) → List (NoteRow D Sha)
  perm : ∀ rows, (order rows).Perm rows

/-- the order in which they were inserted -/
def insertionOrder {D Sha : Type*} : RowOrder D Sha := ⟨id, fun _ => .refl _⟩

/-- what the index takes from elsewhere -/
structure Env (D Sha : Type*) where
  crates : Crates Sha
  /-- `Uuid::new_v4`, given the ids in use -/
  newId : List D → D
  newId_fresh : ∀ used, newId used ∉ used

/-- what `index_one` did -/
inductive Indexed (D : Type*) where
  | indexed (id : D)
  | unchanged
  deriving DecidableEq

inductive LinkScope (D : Type*) where
  | all
  | touched (ids : List D)

variable {D Sha F : Type*} [DecidableEq D] [DecidableEq Sha] [DecidableEq F]

/-! ## What a file derives to -/

/-- a file above the cap: its title alone -/
def oversized (path : Path) : Values Sha × List ParsedLink :=
  (⟨stemOf path, none, none, ∅, stemOf path, []⟩, [])

def parsedValues (C : Crates Sha) (path : Path) (text : Text) : Values Sha × List ParsedLink :=
  let parsed := parseFor C path text
  (⟨parsed.title, some (C.sha256 text), parsed.frontmatterJson, parsed.tags, parsed.title, parsed.body⟩, parsed.links)

/-! ## Links -/

/-- the key a link's target is looked up under as a title -/
def targetKey (C : Crates Sha) (raw : Text) : Text := linkKey C (beforeAlias raw)

/-- and as a basename -/
def targetBase (C : Crates Sha) (raw : Text) : Text := trimEndMd (lastPart (targetKey C raw))

def NoteRow.basename (C : Crates Sha) (r : NoteRow D Sha) : Text := linkKey C (trimEndMd (lastPart r.path))

def NoteRow.titleKey (C : Crates Sha) (r : NoteRow D Sha) : Text := linkKey C r.values.title

/-- the answer of one pass over `rows`: the first note of that basename, or the first of that title -/
def lookup (C : Crates Sha) (rows : List (NoteRow D Sha)) (raw : Text) : Option D :=
  match rows.find? fun r => r.basename C = targetBase C raw with
  | some r => some r.id
  | none => (rows.find? fun r => r.titleKey C = targetKey C raw).map NoteRow.id

/-- the link is looked at again -/
def LinkScope.takes (scope : LinkScope D) (l : LinkRow D) : Bool := match scope with
  | .all => true
  | .touched ids => l.dst.isNone || l.src ∈ ids || l.dst.any (· ∈ ids)

namespace Index

variable (s : Index D Sha F)

def resolveLinks (C : Crates Sha) (order : RowOrder D Sha) (scope : LinkScope D) : Index D Sha F :=
  { s with
    links := s.links.map fun l =>
      if scope.takes l then { l with dst := lookup C (order.order s.notes) l.link.target } else l }

/-! ## Rows -/

def idForPath (path : Path) : Option D := (s.notes.find? (·.path = path)).map NoteRow.id

/-- every id some row holds -/
def used : List D :=
  s.notes.map NoteRow.id ++ s.links.map LinkRow.src ++ s.identities.map IdentityRow.docId

def rememberFileIdentity (id : D) (path : Path) (identity : Option F) : Index D Sha F :=
  { s with
    identities := match identity with
      | some fileId =>
        if s.identities.any (·.docId = id) then
          s.identities.map fun i => if i.docId = id then ⟨id, path, fileId⟩ else i
        else s.identities ++ [⟨id, path, fileId⟩]
      | none => s.identities.filter (·.docId ≠ id) }

/-- the path a document with that identity was last seen at -/
def lastPath (i : IdentityRow D F) : Path := ((s.notes.find? (·.id = i.docId)).map NoteRow.path).getD i.path

def idForExternalMove (disk : Disk F) (path : Path) : Option D := match disk.identity path with
  | none => none
  | some fileId =>
    match s.identities.filter (·.fileId = fileId) with
    | [i] => if disk.node (s.lastPath i) = none then some i.docId else none
    | _ => none

/-- the upsert of a note row by id; another row at its path is a conflict -/
def upsertNote (row : NoteRow D Sha) : Option (Index D Sha F) :=
  if s.notes.any fun r => r.path = row.path ∧ r.id ≠ row.id then none
  else if s.notes.any (·.id = row.id) then
    some { s with notes := s.notes.map fun r => if r.id = row.id then row else r }
  else some { s with notes := s.notes ++ [row] }

/-- the outbound links of a note, all dangling at first -/
def putLinks (id : D) (links : List ParsedLink) : Index D Sha F :=
  { s with links := s.links.filter (·.src ≠ id) ++ links.map fun l => ⟨id, none, l⟩ }

/-- the row, its search row, its tags and its links -/
def putNote (id : D) (path : Path) (file : File F) (derived : Values Sha × List ParsedLink) : Option (Index D Sha F) :=
  (s.upsertNote ⟨id, path, file.mtime, derived.1⟩).map fun t =>
    (t.putLinks id derived.2).rememberFileIdentity id path file.identity

/-- the row of that id is at this path and has the hash of the text on disk -/
def hashGate (reuse : Option D) (path : Path) (sha : Sha) : Option (NoteRow D Sha) :=
  reuse.bind fun id => s.notes.find? fun r => r.id = id ∧ r.path = path ∧ r.values.sha256 = some sha

def refreshMtime (id : D) (mtime : ℤ) : Index D Sha F :=
  { s with notes := s.notes.map fun r => if r.id = id then { r with mtime := mtime } else r }

/-- `index_one`; `none` is an error that has written nothing -/
def indexOne (E : Env D Sha) (disk : Disk F) (path : Path) (reuse : Option D) : Option (Index D Sha F × Indexed D) :=
  match disk.file path with
  | none => none
  | some file =>
    let reuse := reuse.orElse fun _ => s.idForExternalMove disk path
    let id := reuse.getD (E.newId s.used)
    if MAX_INDEX_BYTES < file.size then (s.putNote id path file (oversized path)).map fun t => (t, .indexed id)
    else
      match file.text with
      | none => none
      | some text =>
        match s.hashGate reuse path (E.crates.sha256 text) with
        | some r =>
          some ((s.refreshMtime r.id file.mtime).rememberFileIdentity r.id path file.identity, .unchanged)
        | none => (s.putNote id path file (parsedValues E.crates path text)).map fun t => (t, .indexed id)

def deleteNotes (ids : List D) : Index D Sha F :=
  { s with notes := s.notes.filter (·.id ∉ ids), links := s.links.filter (·.src ∉ ids) }

/-- the rows `remove_one` deletes: the note of that path and those below it -/
def victims (path : Path) : List D :=
  (s.notes.filter fun r => r.path = path ∨ likeBelow path r.path).map NoteRow.id

/-- the row work of `rebind_note_id`: whether the row of id `current` now has id `docId` -/
def rebindInTx (current docId : D) : Index D Sha F × Bool :=
  if current = docId then (s, true)
  else if s.notes.any (·.id = docId) then (s, false)
  else
    ({ notes := s.notes.map fun r => if r.id = current then { r with id := docId } else r
       links := s.links.map fun l => if l.src = current then { l with src := docId } else l
       identities := (s.identities.filter (·.docId ≠ docId)).map fun i =>
         if i.docId = current then { i with docId := docId } else i }, true)

/-! ## Operations -/

/-- the row work of `index_notes`: a path that fails is passed over -/
def indexRows (E : Env D Sha) (disk : Disk F) : List Path → Index D Sha F → Index D Sha F × List D
  | [], s => (s, [])
  | path :: paths, s =>
    match s.indexOne E disk path (s.idForPath path) with
    | some (t, .indexed id) => ((indexRows E disk paths t).1, id :: (indexRows E disk paths t).2)
    | some (t, .unchanged) => indexRows E disk paths t
    | none => indexRows E disk paths s

/-- a batch's one link pass, if it has touched a note -/
def commitBatch (C : Crates Sha) (order : RowOrder D Sha) (batch : Index D Sha F × List D) : Index D Sha F :=
  if batch.2 = [] then batch.1 else batch.1.resolveLinks C order (.touched batch.2)

def indexNotes (E : Env D Sha) (disk : Disk F) (order : RowOrder D Sha) (paths : List Path) : Index D Sha F :=
  commitBatch E.crates order (indexRows E disk paths s)

def removeRows : List Path → Index D Sha F → Index D Sha F × List D
  | [], s => (s, [])
  | path :: paths, s =>
    ((removeRows paths (s.deleteNotes (s.victims path))).1,
      s.victims path ++ (removeRows paths (s.deleteNotes (s.victims path))).2)

def removeNotes (C : Crates Sha) (order : RowOrder D Sha) (paths : List Path) : Index D Sha F :=
  commitBatch C order (removeRows paths s)

/-- `UPDATE notes SET path`; the path of another row is a conflict -/
def setPath (disk : Disk F) (id : D) (path : Path) : Option (Index D Sha F) :=
  if s.notes.any fun r => r.path = path ∧ r.id ≠ id then none
  else
    some (({ s with notes := s.notes.map fun r => if r.id = id then { r with path := path } else r } : Index D Sha F)
      |>.rememberFileIdentity id path (disk.identity path))

/-- `&path[n..]`, of bytes; a cut inside a character panics -/
def sliceFrom : ℕ → Text → Option Text
  | 0, t => some t
  | _ + 1, [] => none
  | n + 1, c :: t => if c.utf8Size ≤ n + 1 then sliceFrom (n + 1 - c.utf8Size) t else none

/-- the note at the path itself -/
def renameExact (disk : Disk F) (old new : Path) : Option (Index D Sha F) := match s.idForPath old with
  | some id => s.setPath disk id new
  | none => some s

/-- one descendant of a moved folder -/
def renameChild (disk : Disk F) (old new : Path) (s : Index D Sha F) (r : NoteRow D Sha) : Option (Index D Sha F) :=
  (sliceFrom (utf8Len (old ++ ['/'])) r.path).bind fun suffix => s.setPath disk r.id (new ++ '/' :: suffix)

def renameRows (disk : Disk F) (old new : Path) : Option (Index D Sha F) :=
  (s.renameExact disk old new).bind fun t =>
    (t.notes.filter fun r => likeBelow old r.path).foldlM (renameChild disk old new) t

/-- `disk` is what `rename_note` finds: the files have been moved -/
def renameNote (C : Crates Sha) (disk : Disk F) (order : RowOrder D Sha) (old new : Path) : Index D Sha F :=
  match s.renameRows disk old new with
  | some t => t.resolveLinks C order .all
  | none => s

def rebindNoteId (C : Crates Sha) (order : RowOrder D Sha) (path : Path) (docId : D) : Index D Sha F :=
  match s.idForPath path with
  | none => s
  | some current =>
    if current = docId then s
    else if (s.rebindInTx current docId).2 then (s.rebindInTx current docId).1.resolveLinks C order .all
    else s

/-- one row of a bootstrap or materialize batch: index the file, then give its row the server's id -/
def commitRow (E : Env D Sha) (disk : Disk F) (path : Path) (docId : Option D) : Index D Sha F × List D :=
  match s.indexOne E disk path (s.idForPath path) with
  | none => (s, [])
  | some (t, outcome) =>
    let localId := match outcome with
      | .indexed id => some id
      | .unchanged => s.idForPath path
    match localId, docId with
    | none, _ => (t, [])
    | some current, none => (t, [current])
    | some current, some docId =>
      if (t.rebindInTx current docId).2 then ((t.rebindInTx current docId).1, [current, docId]) else (t, [current])

def commitRows (E : Env D Sha) (disk : Disk F) : List (Path × Option D) → Index D Sha F → Index D Sha F × List D
  | [], s => (s, [])
  | row :: rows, s =>
    let first := s.commitRow E disk row.1 row.2
    ((commitRows E disk rows first.1).1, first.2 ++ (commitRows E disk rows first.1).2)

/-- the index half of `commit_bootstrap_rows` (every row has its document's id) and of `commit_materialized` -/
def commitNotes (E : Env D Sha) (disk : Disk F) (order : RowOrder D Sha) (rows : List (Path × Option D)) :
    Index D Sha F :=
  commitBatch E.crates order (commitRows E disk rows s)

/-- one note of the walk of `rebuild`; `indexed` is what was in the index when it began -/
def rebuildOne (E : Env D Sha) (disk : Disk F) (indexed : List (NoteRow D Sha)) (s : Index D Sha F) (path : Path) :
    Option (Index D Sha F × Bool) :=
  match indexed.find? (·.path = path), disk.file path with
  | _, none => some (s, false)
  | prior, some file =>
    if prior.any (·.mtime = file.mtime) then
      some (prior.elim s fun r => s.rememberFileIdentity r.id path file.identity, false)
    else
      match s.indexOne E disk path (prior.map NoteRow.id) with
      | some (t, .indexed _) => some (t, true)
      | some (t, .unchanged) => some (t, false)
      -- `skip_unreadable`: any other failure ends the rebuild
      | none => if file.text = none then some (s, false) else none

def rebuildWalk (E : Env D Sha) (disk : Disk F) (indexed : List (NoteRow D Sha)) :
    List Path → Index D Sha F → Option (Index D Sha F × Bool)
  | [], s => some (s, false)
  | path :: paths, s =>
    (rebuildOne E disk indexed s path).bind fun one =>
      (rebuildWalk E disk indexed paths one.1).map fun rest => (rest.1, one.2 || rest.2)

/-- the rows of vanished files that no other path has adopted -/
def stale (disk : Disk F) (indexed : List (NoteRow D Sha)) : List D :=
  (indexed.filter fun r => r.path ∉ disk.walk ∧ s.idForPath r.path = some r.id).map NoteRow.id

def rebuild (E : Env D Sha) (disk : Disk F) (order : RowOrder D Sha) : Index D Sha F :=
  match rebuildWalk E disk s.notes disk.walk s with
  | none => s
  | some (t, changed) =>
    let u := t.deleteNotes (t.stale disk s.notes)
    if changed ∨ t.stale disk s.notes ≠ [] then u.resolveLinks E.crates order .all else u

end Index

end Baalda.NoteIndex
