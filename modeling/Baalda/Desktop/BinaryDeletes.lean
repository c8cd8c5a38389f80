/-
The delete queue of the binaries (`lib/sync/binaryDeletes.ts BinaryDeleteQueue`).

`noteChanged` collects the paths the watcher reports, a timer closes the window, and `drain` decides: it asks the disk
(`checking`), lists the disk and the server (`listing`), moves the rows of renamed files (`moving`) and deletes the rest
(`removing`). A drain works on the entries it found when it began; events, claims (`suppressNext`), a vanished root and
registrations may come at each of its awaits. What runs between two awaits is one step here.

The two pools start their items in order and keep to their width. An item whose lane is free starts in a step of its own.
Records, which no step reads: the claims made since the drain began, the claims whose echo has not come, the requests.

`safe_iff`: every request is justified where no deleted path has been claimed and no row is moved onto a path with a row.
`claimed_path_is_deleted`: neither is checked.
-/
import Baalda.Lib.Machine
import Baalda.Lib.Slots

namespace Baalda.BinaryDeletes

open List

variable {Path K Sha Id : Type*}

structure Io (Path K Sha : Type*) where
  /-- `pathKey` -/
  key : Path → K
  /-- the empty string -/
  noSha : Sha

def binaryDeleteCap (binaryCount : ℕ) : ℕ := max 5 ((binaryCount + 4) / 5)

def maxListingRetries : ℕ := 3

/-- `EXISTS_CONCURRENCY` -/
def existsConcurrency : ℕ := 8

def registryConcurrency : ℕ := 6

/-! ## The state -/

structure LocalBinary (Path Sha : Type*) where
  relPath : Path
  sha256 : Sha
  deriving DecidableEq

structure RemoteBlob (Path Sha Id : Type*) where
  id : Id
  sha256 : Sha
  relPath : Option Path
  deriving DecidableEq

/-- an entry of the window: `uid` says which object it is -/
structure Pending (Path : Type*) where
  uid : ℕ
  relPath : Path
  attempts : ℕ := 0
  /-- record: its event was the echo of a claim that `suppressed` had lost -/
  echo : Bool := false
  deriving DecidableEq

/-- what the disk says to `exists` -/
inductive Answer where
  | found | notFound | threw
  deriving DecidableEq

/-- an entry of `deletes`: without a blob, only the row goes -/
structure Delete (Path Sha Id : Type*) where
  item : Pending Path
  blob : Option (RemoteBlob Path Sha Id)
  deriving DecidableEq

structure Listing (Path Sha Id : Type*) where
  onDisk : List (LocalBinary Path Sha)
  server : List (RemoteBlob Path Sha Id)
  deriving DecidableEq

/-- where step 2 is: the candidates to come, the paths nothing was paired with, the deletes so far -/
structure Pairing (Path K Sha Id : Type*) where
  listing : Listing Path Sha Id
  gone : List (Pending Path)
  unpaired : List K
  deletes : List (Delete Path Sha Id)
  deriving DecidableEq

inductive Stage (Path K Sha Id : Type*) where
  /-- `exists` is being asked; `switched` once an answer found another vault -/
  | checking (switched : Bool)
  | listing (gone : List (Pending Path)) (present : List Path)
  /-- `applyRename`: the row, if there is one, is being moved -/
  | moving (item : Pending Path) (renamedTo : Path) (row : Option Id) (rest : Pairing Path K Sha Id)
  | removing (listing : Listing Path Sha Id) (deletes : List (Delete Path Sha Id)) (cursor : ℕ)
      (underway : List (Delete Path Sha Id))
  deriving DecidableEq

structure Drain (Path K Sha Id : Type*) where
  batch : List (Pending Path)
  /-- what `isLive` said -/
  live : Bool
  /-- of the items asked so far, in the order of the batch -/
  answers : List (Option Answer) := []
  stage : Stage Path K Sha Id := .checking false
  /-- record: the claims since the batch was taken -/
  claimed : List K := []
  deriving DecidableEq

/-- `DELETE /api/files/:id` or `DELETE /api/blobs/:id`, and the facts it rests on -/
structure DeleteRequest (Path K Sha Id : Type*) where
  path : Path
  row : Option Id
  blob : Option (RemoteBlob Path Sha Id)
  live : Bool
  current : Bool
  notFound : Bool
  listed : List K
  /-- a claim for the path was made, and this is not a later deletion of it -/
  claimed : Bool
  /-- the how manyth of its drain it is, and of how many -/
  nth : ℕ
  deletes : ℕ
  deriving DecidableEq

/-- `POST /api/files` with the id of a row, and the facts it rests on -/
structure MoveRequest (Path K Sha Id : Type*) where
  path : Path
  row : Id
  renamedTo : Path
  listing : Listing Path Sha Id
  /-- what the window has heard of -/
  window : List K
  /-- the target has a row of its own -/
  registered : Bool
  deriving DecidableEq

structure St (Path K Sha Id : Type*) where
  /-- in the order of the map -/
  pending : List (Pending Path) := []
  suppressed : List K := []
  retained : List K := []
  timer : Bool := false
  drain : Option (Drain Path K Sha Id) := none
  /-- the registry's `fileByPath` -/
  fileIds : List (Path × Id)
  current : Bool
  live : Bool
  /-- how many entries there have been -/
  created : ℕ := 0
  /-- records -/
  owed : List K := []
  deletes : List (DeleteRequest Path K Sha Id) := []
  moves : List (MoveRequest Path K Sha Id) := []
  deriving DecidableEq

def St.fresh (fileIds : List (Path × Id)) (current live : Bool) : St Path K Sha Id :=
  { fileIds := fileIds, current := current, live := live }

/-- what awaits the end of a step 2 -/
inductive Paired (Path K Sha Id : Type*) where
  | move (item : Pending Path) (renamedTo : Path) (rest : Pairing Path K Sha Id)
  | over (deletes : List (Delete Path Sha Id))

inductive Action (Path Sha Id : Type*) where
  | noteChanged (relPath : Path)
  | suppressNext (relPath : Path)
  | timerFires
  /-- a caller other than the timer -/
  | drains
  | asks
  | answers (i : ℕ) (a : Answer)
  | lists (listing : Listing Path Sha Id)
  | listingFails
  | moveAnswers (ok : Bool)
  | starts
  /-- not `removed`: a 409, or any other failure -/
  | deleteAnswers (i : ℕ) (removed : Bool)
  | stop
  /-- the vault is switched, its root vanishes or comes back -/
  | setCurrent (current : Bool)
  | setLive (live : Bool)
  /-- the rest of the app registers a path or forgets it -/
  | setFileId (relPath : Path) (id : Option Id)

section

variable [DecidableEq Path] [DecidableEq K] [DecidableEq Sha] [DecidableEq Id]

/-! ### Step 2 -/

/-- `blobByPath`: of two blobs at a path the later one -/
def Listing.blobAt (io : Io Path K Sha) (l : Listing Path Sha Id) (relPath : Path) : Option (RemoteBlob Path Sha Id) :=
  (l.server.filter fun b => b.relPath.map io.key = some (io.key relPath)).getLast?

/-- which path of the window holds these bytes now -/
def matchRename (io : Io Path K Sha) (sha256 : Sha) (l : Listing Path Sha Id) (candidates : List K) : Option Path :=
  if sha256 = io.noSha then none
  else (l.onDisk.find? fun a => a.sha256 = sha256 ∧ io.key a.relPath ∈ candidates).map LocalBinary.relPath

/-- step 2 up to its next await -/
def pairNext (io : Io Path K Sha) (fileId : Path → Option Id) (l : Listing Path Sha Id) :
    List (Pending Path) → List K → List (Delete Path Sha Id) → Paired Path K Sha Id
  | [], _, deletes => .over deletes
  | item :: gone, unpaired, deletes => match l.blobAt io item.relPath with
    -- a path without a row has none to forget
    | none => if (fileId item.relPath).isSome then pairNext io fileId l gone unpaired (deletes ++ [⟨item, none⟩])
      else pairNext io fileId l gone unpaired deletes
    | some blob => match matchRename io blob.sha256 l unpaired with
      | some renamedTo => .move item renamedTo ⟨l, gone, unpaired.filter (· ≠ io.key renamedTo), deletes⟩
      | none => pairNext io fileId l gone unpaired (deletes ++ [⟨item, some blob⟩])

def Drain.asked (d : Drain Path K Sha Id) : List (Pending Path × Option Answer) := d.batch.zip d.answers

/-- the keys of the batch -/
def Drain.window (io : Io Path K Sha) (d : Drain Path K Sha Id) : List K := d.batch.map fun i => io.key i.relPath

/-- the items of a batch the disk did not find, and the paths of the others -/
def Drain.gone (d : Drain Path K Sha Id) : List (Pending Path) :=
  (d.asked.filter fun x => x.2 = some .notFound).map Prod.fst

def Drain.present (d : Drain Path K Sha Id) : List Path :=
  (d.batch.filter (· ∉ d.gone)).map Pending.relPath

/-- step 1b: a file the listing names is on disk -/
def stillGone (io : Io Path K Sha) (l : Listing Path Sha Id) (gone : List (Pending Path)) : List (Pending Path) :=
  gone.filter fun item => io.key item.relPath ∉ l.onDisk.map fun a => io.key a.relPath

namespace St

variable (io : Io Path K Sha) (s : St Path K Sha Id)

def fileId (relPath : Path) : Option Id := (s.fileIds.find? fun e => e.1 = relPath).map Prod.snd

def forgetFileId (relPath : Path) : St Path K Sha Id :=
  { s with fileIds := s.fileIds.filter fun e => e.1 ≠ relPath }

def setFileId (relPath : Path) (id : Id) : St Path K Sha Id :=
  { s with fileIds := (relPath, id) :: s.fileIds.filter fun e => e.1 ≠ relPath }

def moveFileId (relPath renamedTo : Path) : St Path K Sha Id := match s.fileId relPath with
  | some id => (s.forgetFileId relPath).setFileId renamedTo id
  | none => s

def isPending (relPath : Path) : Bool := s.pending.any fun p => io.key p.relPath = io.key relPath

def hasUnsettled : Bool := s.pending.any fun p => 0 < p.attempts

def arm : St Path K Sha Id := { s with timer := true }

/-- `Map.set`: an entry that is there keeps its place -/
def setPending (p : Pending Path) : St Path K Sha Id :=
  { s with pending := if s.isPending io p.relPath
      then s.pending.map fun q => if io.key q.relPath = io.key p.relPath then p else q
      else s.pending ++ [p] }

def noteChanged (relPath : Path) : St Path K Sha Id :=
  let owed := s.owed.filter (· ≠ io.key relPath)
  if !s.current then { s with owed := owed }
  else if io.key relPath ∈ s.suppressed then
    { s with suppressed := s.suppressed.filter (· ≠ io.key relPath), owed := owed }
  else if !s.live then { s with owed := owed }
  else
    let prior := s.pending.find? fun p => io.key p.relPath = io.key relPath
    arm { s.setPending io ⟨s.created, relPath, (prior.map Pending.attempts).getD 0, io.key relPath ∈ s.owed⟩ with
      created := s.created + 1, owed := owed }

def suppressNext (relPath : Path) : St Path K Sha Id :=
  let suppressed := if 20000 < s.suppressed.length then [] else s.suppressed
  { s with
    suppressed := io.key relPath :: suppressed.filter (· ≠ io.key relPath)
    pending := s.pending.filter fun p => io.key p.relPath ≠ io.key relPath
    owed := io.key relPath :: s.owed
    drain := s.drain.map fun d => { d with claimed := io.key relPath :: d.claimed } }

/-- the `finally` of a drain: its entries go, but for those it keeps -/
def finishes (d : Drain Path K Sha Id) : St Path K Sha Id :=
  { s with
    drain := none
    pending := s.pending.filter fun p => p.uid ∉ d.batch.map Pending.uid ∨ io.key p.relPath ∈ s.retained
    retained := s.retained.filter (· ∉ d.window io) }

/-- `drain`, up to its first await -/
def drains : St Path K Sha Id :=
  if s.drain.isSome then s
  else if !s.current then s
  else if s.pending = [] then s
  else if !s.live then s.finishes io { batch := s.pending, live := false }
  else { s with drain := some { batch := s.pending, live := true } }

def timerFires : St Path K Sha Id := if s.timer then ({ s with timer := false } : St Path K Sha Id).drains io else s

/-- one more window for a candidate: its object counts it -/
def bump (item : Pending Path) : St Path K Sha Id :=
  { s with pending := s.pending.map fun p => if p.uid = item.uid then { p with attempts := item.attempts + 1 } else p }

def retain (k : K) : St Path K Sha Id := { s with retained := k :: s.retained.filter (· ≠ k) }

/-! ### Step 1 -/

def asks (d : Drain Path K Sha Id) : St Path K Sha Id := match d.stage with
  | .checking switched =>
    if !switched ∧ d.answers.length < d.batch.length ∧ (d.answers.filter (· = none)).length < existsConcurrency then
      { s with drain := some { d with answers := d.answers ++ [none] } }
    else s
  | _ => s

/-- every lane has returned -/
def checked (d : Drain Path K Sha Id) (switched : Bool) : St Path K Sha Id :=
  if switched ∨ !s.current ∨ d.gone = [] then s.finishes io d
  else { s with drain := some { d with stage := .listing d.gone d.present } }

def answers (d : Drain Path K Sha Id) (i : ℕ) (a : Answer) : St Path K Sha Id := match d.stage with
  | .checking switched =>
    if d.answers[i]? = some none then
      let d' := { d with answers := d.answers.set i (some a), stage := .checking (switched || !s.current) }
      if none ∉ d'.answers ∧ ((switched || !s.current) ∨ d'.answers.length = d'.batch.length) then
        s.checked io d' (switched || !s.current)
      else { s with drain := some d' }
    else s
  | _ => s

/-! ### The listings -/

section

variable (d : Drain Path K Sha Id)

/-- the whole batch waits for another window, but for what has waited long enough -/
def listingFails : St Path K Sha Id := match d.stage with
  | .listing _ _ =>
    let kept := d.batch.filter fun item => item.attempts + 1 < maxListingRetries
    let s' := kept.foldl (fun s item => (s.bump item).retain (io.key item.relPath)) s
    (if kept = [] then s' else s'.arm).finishes io d
  | _ => s

/-- what step 2 sends before its next await -/
def moveRequest (p : Pairing Path K Sha Id) : Option (MoveRequest Path K Sha Id) :=
  match pairNext io s.fileId p.listing p.gone p.unpaired p.deletes with
  | .move item renamedTo _ => (s.fileId item.relPath).map fun id =>
    { path := item.relPath, row := id, renamedTo := renamedTo, listing := p.listing,
      window := d.window io, registered := (s.fileId renamedTo).isSome }
  | .over _ => none

/-- step 2 goes on, and step 3 after it -/
def pairs (p : Pairing Path K Sha Id) : St Path K Sha Id :=
  match pairNext io s.fileId p.listing p.gone p.unpaired p.deletes with
  | .move item renamedTo rest =>
    { s with
      drain := some { d with stage := .moving item renamedTo (s.fileId item.relPath) rest }
      moves := s.moves ++ (s.moveRequest io d p).toList }
  | .over deletes =>
    if deletes = [] ∨ binaryDeleteCap (p.listing.onDisk.length + deletes.length) < deletes.length then s.finishes io d
    else { s with drain := some { d with stage := .removing p.listing deletes 0 [] } }

/-- where step 2 begins, when the listings are there -/
def listed (l : Listing Path Sha Id) : Option (Pairing Path K Sha Id) := match d.stage with
  | .listing gone present =>
    if s.current ∧ stillGone io l gone ≠ [] then some ⟨l, stillGone io l gone, present.map io.key, []⟩ else none
  | _ => none

def lists (l : Listing Path Sha Id) : St Path K Sha Id := match d.stage with
  | .listing _ _ => match s.listed io d l with
    | some p => s.pairs io d p
    | none => s.finishes io d
  | _ => s

end

/-- `applyRename` returns, and a candidate whose move was refused is kept -/
def moved (item : Pending Path) (renamedTo : Path) (row : Option Id) (ok : Bool) : St Path K Sha Id :=
  if row = none then s
  else if ok then s.moveFileId item.relPath renamedTo
  else if item.attempts + 1 < maxListingRetries then
    let s' := (s.bump item).retain (io.key item.relPath)
    if s'.isPending io renamedTo then s'.retain (io.key renamedTo) else s'
  else s

section

variable (d : Drain Path K Sha Id)

/-- where step 2 goes on after a move, unless the vault is another -/
def moveAnswered (ok : Bool) : Option (St Path K Sha Id × Pairing Path K Sha Id) :=
  match d.stage with
  | .moving item renamedTo row rest => if s.current then some (s.moved io item renamedTo row ok, rest) else none
  | _ => none

def moveAnswers (ok : Bool) : St Path K Sha Id := match d.stage with
  | .moving _ _ _ _ => match s.moveAnswered io d ok with
    | some (s', p) => s'.pairs io d p
    | none => s.finishes io d
  | _ => s

/-! ### Step 4 -/

/-- the pool is over once nothing is under way and its lanes find nothing more to do -/
def removes (l : Listing Path Sha Id) (deletes : List (Delete Path Sha Id)) (cursor : ℕ)
    (underway : List (Delete Path Sha Id)) : St Path K Sha Id :=
  if underway = [] ∧ (cursor = deletes.length ∨ !s.current) then s.finishes io d
  else { s with drain := some { d with stage := .removing l deletes cursor underway } }

/-- the delete a free lane takes -/
def nextDelete : Option (Delete Path Sha Id) := match d.stage with
  | .removing _ deletes cursor underway =>
    if s.current ∧ underway.length < registryConcurrency then deletes[cursor]? else none
  | _ => none

/-- what it sends: nothing, where neither row nor blob is left -/
def deleteRequest (x : Delete Path Sha Id) : Option (DeleteRequest Path K Sha Id) :=
  match d.stage with
  | .removing l deletes cursor _ =>
    if (s.fileId x.item.relPath).isSome ∨ x.blob.isSome then some
      { path := x.item.relPath, row := s.fileId x.item.relPath, blob := x.blob, live := d.live, current := s.current,
        notFound := (x.item, some .notFound) ∈ d.asked, listed := l.onDisk.map fun a => io.key a.relPath,
        claimed := x.item.echo || decide (io.key x.item.relPath ∈ d.claimed), nth := cursor + 1,
        deletes := deletes.length }
    else none
  | _ => none

def starts : St Path K Sha Id := match d.stage with
  | .removing l deletes cursor underway => match s.nextDelete d with
    | some x =>
      { s with
        drain := some { d with stage := .removing l deletes (cursor + 1) (underway ++ [x]) }
        deletes := s.deletes ++ (s.deleteRequest io d x).toList }
    | none => s.removes io d l deletes cursor underway
  | _ => s

def deleteAnswers (i : ℕ) (removed : Bool) : St Path K Sha Id := match d.stage with
  | .removing l deletes cursor underway => match underway[i]? with
    | some x => (if removed then s.forgetFileId x.item.relPath else s).removes io d l deletes cursor (underway.eraseIdx i)
    | none => s
  | _ => s

end

/-- a drain under way goes on -/
def stop : St Path K Sha Id := { s with timer := false, pending := [], suppressed := [], retained := [] }

/-- a step of the drain under way -/
def inDrain (f : Drain Path K Sha Id → St Path K Sha Id) : St Path K Sha Id := match s.drain with
  | some d => f d
  | none => s

end St

section

variable (io : Io Path K Sha)

def step (s : St Path K Sha Id) : Action Path Sha Id → St Path K Sha Id
  | .noteChanged relPath => s.noteChanged io relPath
  | .suppressNext relPath => s.suppressNext io relPath
  | .timerFires => s.timerFires io
  | .drains => s.drains io
  | .asks => s.inDrain s.asks
  | .answers i a => s.inDrain fun d => s.answers io d i a
  | .lists listing => s.inDrain fun d => s.lists io d listing
  | .listingFails => s.inDrain (s.listingFails io)
  | .moveAnswers ok => s.inDrain fun d => s.moveAnswers io d ok
  | .starts => s.inDrain (s.starts io)
  | .deleteAnswers i removed => s.inDrain fun d => s.deleteAnswers io d i removed
  | .stop => s.stop
  | .setCurrent current => { s with current := current }
  | .setLive live => { s with live := live }
  | .setFileId relPath (some id) => s.setFileId relPath id
  | .setFileId relPath none => s.forgetFileId relPath

def run (s : St Path K Sha Id) (as : List (Action Path Sha Id)) : St Path K Sha Id :=
  Machine.run (step io) s as

/-! ## What is to hold -/

/-- a request rests on a definite answer and on the listing after it, within the cap, and on no claim of the app's own -/
def DeleteRequest.Justified (r : DeleteRequest Path K Sha Id) : Prop :=
  r.live ∧ r.current ∧ r.notFound ∧ io.key r.path ∉ r.listed ∧ r.nth ≤ binaryDeleteCap (r.listed.length + r.deletes) ∧
    r.claimed = false

/-- the target held the row's bytes, is of the window and has no row of its own -/
def MoveRequest.Justified (r : MoveRequest Path K Sha Id) : Prop :=
  (∃ b, r.listing.blobAt io r.path = some b ∧ ⟨r.renamedTo, b.sha256⟩ ∈ r.listing.onDisk) ∧
    io.key r.renamedTo ∈ r.window ∧ r.registered = false

def St.Safe (s : St Path K Sha Id) : Prop :=
  (∀ r ∈ s.deletes, r.Justified io) ∧ ∀ r ∈ s.moves, r.Justified io

/-- where step 2 goes on in a step -/
def St.pairing (s : St Path K Sha Id) :
    Action Path Sha Id → Option (St Path K Sha Id × Drain Path K Sha Id × Pairing Path K Sha Id)
  | .lists l => s.drain.bind fun d => (s.listed io d l).map fun p => (s, d, p)
  | .moveAnswers ok => s.drain.bind fun d => (s.moveAnswered io d ok).map fun x => (x.1, d, x.2)
  | _ => none

/-- the row that a step moves -/
def St.sendsMove (s : St Path K Sha Id) (a : Action Path Sha Id) : Option (MoveRequest Path K Sha Id) :=
  (s.pairing io a).bind fun x => x.1.moveRequest io x.2.1 x.2.2

/-- the delete that a step sends -/
def St.sendsDelete (s : St Path K Sha Id) :
    Action Path Sha Id → Option (DeleteRequest Path K Sha Id)
  | .starts => s.drain.bind fun d => (s.nextDelete d).bind fun x => s.deleteRequest io d x
  | _ => none

/-- a path that is deleted has not been claimed, and a row is not moved onto a path that has one -/
def Unclaimed (s : St Path K Sha Id) (a : Action Path Sha Id) : Prop :=
  (∀ r ∈ s.sendsDelete io a, r.claimed = false) ∧ ∀ r ∈ s.sendsMove io a, r.registered = false

end

/-! ### What a step sends -/

/-- the requests so far -/
def St.sent (s : St Path K Sha Id) : List (DeleteRequest Path K Sha Id) × List (MoveRequest Path K Sha Id) :=
  (s.deletes, s.moves)

namespace St

variable (io : Io Path K Sha) (s : St Path K Sha Id) (d : Drain Path K Sha Id)

theorem sent_drains : (s.drains io).sent = s.sent := by
  unfold drains
  split_ifs <;> rfl

theorem sent_timerFires : (s.timerFires io).sent = s.sent := by
  unfold timerFires
  split
  · exact sent_drains io _
  · rfl

theorem sent_noteChanged (relPath : Path) : (s.noteChanged io relPath).sent = s.sent := by
  unfold noteChanged
  split_ifs <;> rfl

theorem sent_asks : (s.asks d).sent = s.sent := by
  unfold asks
  split
  · split <;> rfl
  · rfl

theorem sent_checked (switched : Bool) : (s.checked io d switched).sent = s.sent := by
  unfold checked
  split <;> rfl

theorem sent_answers (i : ℕ) (a : Answer) : (s.answers io d i a).sent = s.sent := by
  unfold answers
  split
  · dsimp only
    split
    · split
      · exact sent_checked io s _ _
      · rfl
    · rfl
  · rfl

theorem sent_keeps (kept : List (Pending Path)) :
    (kept.foldl (fun s item => (s.bump item).retain (io.key item.relPath)) s).sent = s.sent := by
  induction kept generalizing s with
  | nil => rfl
  | cons item kept ih => exact ih _

theorem sent_listingFails : (s.listingFails io d).sent = s.sent := by
  unfold listingFails
  split
  · dsimp only
    split
    · exact sent_keeps io s _
    · exact sent_keeps io s _
  · rfl

theorem sent_moved (item : Pending Path) (renamedTo : Path) (row : Option Id) (ok : Bool) :
    (s.moved io item renamedTo row ok).sent = s.sent := by
  unfold moved
  dsimp only
  split_ifs
  · rfl
  · unfold moveFileId
    split <;> rfl
  all_goals rfl

theorem sent_removes (l : Listing Path Sha Id) (deletes : List (Delete Path Sha Id)) (cursor : ℕ)
    (underway : List (Delete Path Sha Id)) : (s.removes io d l deletes cursor underway).sent = s.sent := by
  unfold removes
  split <;> rfl

theorem sent_deleteAnswers (i : ℕ) (removed : Bool) : (s.deleteAnswers io d i removed).sent = s.sent := by
  unfold deleteAnswers
  split
  · split
    · rw [sent_removes]
      cases removed <;> rfl
    · rfl
  · rfl

/-- step 2 sends the move it pairs next, and no delete -/
theorem sent_pairs (p : Pairing Path K Sha Id) :
    (s.pairs io d p).sent = (s.deletes, s.moves ++ (s.moveRequest io d p).toList) := by
  unfold pairs moveRequest
  split
  · next h => simp only [sent]
  · next h =>
    split
    · simp [sent, finishes]
    · simp [sent]

theorem sent_lists (l : Listing Path Sha Id) :
    (s.lists io d l).sent =
      (s.deletes, s.moves ++ (((s.listed io d l).bind fun p => s.moveRequest io d p).toList)) := by
  unfold lists
  split
  · split
    · next p hp => simp [sent_pairs, hp]
    · next hp => simp [hp, sent, finishes]
  · next hstage =>
    have hp : s.listed io d l = none := by
      unfold listed
      split
      · next hs => exact absurd hs (hstage _ _)
      · rfl
    simp [hp, sent]

theorem sent_moveAnswers (ok : Bool) :
    (s.moveAnswers io d ok).sent =
      (s.deletes, s.moves ++ (((s.moveAnswered io d ok).bind fun x => x.1.moveRequest io d x.2).toList)) := by
  unfold moveAnswers
  split
  · next item renamedTo row rest hstage =>
    split
    · next s' p hp =>
      have hsame : s'.sent = s.sent := by
        unfold moveAnswered at hp
        rw [hstage] at hp
        dsimp only at hp
        split at hp
        · cases hp
          exact sent_moved io s _ _ _ _
        · cases hp
      obtain ⟨hdeletes, hmoves⟩ := Prod.mk.inj hsame
      simp [sent_pairs, hp, hdeletes, hmoves]
    · next hp => simp [hp, sent, finishes]
  · next hstage =>
    have hp : s.moveAnswered io d ok = none := by
      unfold moveAnswered
      split
      · next hs => exact absurd hs (hstage _ _ _ _)
      · rfl
    simp [hp, sent]

theorem sent_starts :
    (s.starts io d).sent =
      (s.deletes ++ (((s.nextDelete d).bind fun x => s.deleteRequest io d x).toList), s.moves) := by
  unfold starts
  split
  · split
    · next x hx => simp [hx, sent]
    · next hx => simp [hx, sent_removes]; rfl
  · next hstage =>
    have hx : s.nextDelete d = none := by
      unfold nextDelete
      split
      · next hs => exact absurd hs (hstage _ _ _ _)
      · rfl
    simp [hx, sent]

end St

/-- what a step adds to the requests -/
theorem sent_step (io : Io Path K Sha) (s : St Path K Sha Id) (a : Action Path Sha Id) :
    (step io s a).sent = (s.deletes ++ (s.sendsDelete io a).toList, s.moves ++ (s.sendsMove io a).toList) := by
  have hsame : ∀ s' : St Path K Sha Id, s'.sent = s.sent → s'.sent = (s.deletes ++ [], s.moves ++ []) := by
    intro s' h
    simpa [St.sent] using h
  have hdrain : ∀ f : Drain Path K Sha Id → St Path K Sha Id, (∀ d, (f d).sent = s.sent) →
      (s.inDrain f).sent = (s.deletes ++ [], s.moves ++ []) := by
    intro f hf
    unfold St.inDrain
    split
    · exact hsame _ (hf _)
    · exact hsame _ rfl
  cases a with
  | noteChanged relPath => exact hsame _ (s.sent_noteChanged io relPath)
  | suppressNext relPath | stop | setCurrent current | setLive live => exact hsame _ rfl
  | timerFires => exact hsame _ (s.sent_timerFires io)
  | drains => exact hsame _ (s.sent_drains io)
  | asks => exact hdrain _ fun d => s.sent_asks d
  | answers i a => exact hdrain _ fun d => s.sent_answers io d i a
  | lists l =>
    unfold step St.inDrain St.sendsMove St.pairing St.sendsDelete
    cases hd : s.drain with
    | none => simp [St.sent]
    | some d => cases hp : s.listed io d l <;> simp [St.sent_lists, hp]
  | listingFails => exact hdrain _ fun d => s.sent_listingFails io d
  | moveAnswers ok =>
    unfold step St.inDrain St.sendsMove St.pairing St.sendsDelete
    cases hd : s.drain with
    | none => simp [St.sent]
    | some d => cases hp : s.moveAnswered io d ok <;> simp [St.sent_moveAnswers, hp]
  | starts =>
    unfold step St.inDrain St.sendsMove St.pairing St.sendsDelete
    cases hd : s.drain with
    | none => simp [St.sent]
    | some d => simp [St.sent_starts]
  | deleteAnswers i removed => exact hdrain _ fun d => s.sent_deleteAnswers io d i removed
  | setFileId relPath id => cases id <;> exact hsame _ rfl

/-! ### What a drain knows -/

/-- the disk did not find it, and the listing does not name it -/
def Lost (io : Io Path K Sha) (asked : List (Pending Path × Option Answer)) (l : Listing Path Sha Id)
    (item : Pending Path) : Prop :=
  (item, some .notFound) ∈ asked ∧ io.key item.relPath ∉ l.onDisk.map fun a => io.key a.relPath

structure Pairing.Ok (io : Io Path K Sha) (asked : List (Pending Path × Option Answer)) (window : List K)
    (p : Pairing Path K Sha Id) : Prop where
  gone : ∀ item ∈ p.gone, Lost io asked p.listing item
  deletes : ∀ x ∈ p.deletes, Lost io asked p.listing x.item
  unpaired : ∀ k ∈ p.unpaired, k ∈ window

def Stage.Ok (io : Io Path K Sha) (asked : List (Pending Path × Option Answer)) (window : List K) :
    Stage Path K Sha Id → Prop
  | .checking _ => True
  | .listing gone present => (∀ item ∈ gone, (item, some .notFound) ∈ asked) ∧ ∀ path ∈ present, io.key path ∈ window
  | .moving item renamedTo _ rest => (item, some .notFound) ∈ asked ∧ io.key renamedTo ∈ window ∧ rest.Ok io asked window
  | .removing l deletes _ _ => (∀ x ∈ deletes, Lost io asked l x.item) ∧
      deletes.length ≤ binaryDeleteCap (l.onDisk.length + deletes.length)

def St.Ok (io : Io Path K Sha) (s : St Path K Sha Id) : Prop :=
  ∀ d ∈ s.drain, d.live = true ∧ d.stage.Ok io d.asked (d.window io)

/-- what is paired was lost, and its bytes are at the new path -/
def Paired.Ok (io : Io Path K Sha) (asked : List (Pending Path × Option Answer)) (window : List K)
    (l : Listing Path Sha Id) : Paired Path K Sha Id → Prop
  | .move item renamedTo rest => (item, some .notFound) ∈ asked ∧ io.key renamedTo ∈ window ∧
      rest.Ok io asked window ∧ ∃ b, l.blobAt io item.relPath = some b ∧ ⟨renamedTo, b.sha256⟩ ∈ l.onDisk
  | .over deletes => ∀ x ∈ deletes, Lost io asked l x.item

theorem matchRename_some {io : Io Path K Sha} {sha256 : Sha} {l : Listing Path Sha Id} {candidates : List K}
    {renamedTo : Path} (h : matchRename io sha256 l candidates = some renamedTo) :
    ⟨renamedTo, sha256⟩ ∈ l.onDisk ∧ io.key renamedTo ∈ candidates := by
  unfold matchRename at h
  split at h
  · cases h
  · obtain ⟨a, ha, rfl⟩ := Option.map_eq_some_iff.mp h
    obtain ⟨rfl, hkey⟩ : a.sha256 = sha256 ∧ io.key a.relPath ∈ candidates := by simpa using find?_some ha
    exact ⟨mem_of_find?_eq_some ha, hkey⟩

theorem pairNext_ok {io : Io Path K Sha} {asked : List (Pending Path × Option Answer)} {window : List K}
    (fileId : Path → Option Id) {l : Listing Path Sha Id} {gone : List (Pending Path)} {unpaired : List K}
    {deletes : List (Delete Path Sha Id)} (h : Pairing.Ok io asked window ⟨l, gone, unpaired, deletes⟩) :
    (pairNext io fileId l gone unpaired deletes).Ok io asked window l := by
  induction gone generalizing deletes with
  | nil => exact h.deletes
  | cons item gone ih =>
    have hitem : Lost io asked l item := h.gone item mem_cons_self
    have hgone : ∀ item ∈ gone, Lost io asked l item := fun x hx => h.gone x (mem_cons_of_mem item hx)
    have hpush : ∀ blob, ∀ x ∈ deletes ++ [⟨item, blob⟩], Lost io asked l x.item := by
      intro blob x hx
      rcases mem_snoc.1 hx with hold | rfl
      · exact h.deletes x hold
      · exact hitem
    unfold pairNext
    cases hblob : l.blobAt io item.relPath with
    | none =>
      dsimp only
      split
      · exact ih ⟨hgone, hpush none, h.unpaired⟩
      · exact ih ⟨hgone, h.deletes, h.unpaired⟩
    | some blob =>
      dsimp only
      cases hmatch : matchRename io blob.sha256 l unpaired with
      | none => exact ih ⟨hgone, hpush (some blob), h.unpaired⟩
      | some renamedTo =>
        obtain ⟨hbytes, hkey⟩ := matchRename_some hmatch
        refine ⟨hitem.1, h.unpaired _ hkey, ⟨hgone, h.deletes, ?_⟩, blob, hblob, hbytes⟩
        intro k hk
        exact h.unpaired k (mem_of_mem_filter hk)

namespace St

variable {io : Io Path K Sha} {s s' : St Path K Sha Id} {d : Drain Path K Sha Id}

/-- with no drain there is nothing to know -/
theorem Ok.idle (h : s.drain = none) : s.Ok io := by
  intro d hd
  rw [h] at hd
  cases hd

theorem Ok.running (h : s.drain = some d) (hlive : d.live = true) (hstage : d.stage.Ok io d.asked (d.window io)) : s.Ok io := by
  intro d' hd'
  rw [h] at hd'
  cases hd'
  exact ⟨hlive, hstage⟩

theorem Ok.same (h : s.Ok io) (hdrain : s'.drain = s.drain) : s'.Ok io := by
  unfold Ok
  rw [hdrain]
  exact h

theorem Ok.drains (h : s.Ok io) : (s.drains io).Ok io := by
  unfold St.drains
  split_ifs
  · exact h
  · exact h
  · exact h
  · exact Ok.idle rfl
  · exact Ok.running rfl rfl trivial

theorem Ok.timerFires (h : s.Ok io) : (s.timerFires io).Ok io := by
  unfold St.timerFires
  split
  · exact Ok.drains (h.same rfl)
  · exact h

theorem Ok.noteChanged (h : s.Ok io) (relPath : Path) : (s.noteChanged io relPath).Ok io := by
  refine h.same ?_
  unfold St.noteChanged
  dsimp only
  split_ifs <;> rfl

theorem Ok.listingFails (h : s.Ok io) : (s.listingFails io d).Ok io := by
  unfold St.listingFails
  split
  · exact Ok.idle rfl
  · exact h

theorem Ok.asks (h : s.Ok io) (hd : s.drain = some d) : (s.asks d).Ok io := by
  unfold St.asks
  split
  · next hstage =>
    split
    · exact Ok.running rfl (h d hd).1 (by change d.stage.Ok _ _ _; rw [hstage]; trivial)
    · exact h
  · exact h

theorem Ok.checked (hlive : d.live = true) (switched : Bool) : (s.checked io d switched).Ok io := by
  unfold St.checked
  split
  · exact Ok.idle rfl
  · refine Ok.running rfl hlive ⟨?_, ?_⟩
    · intro item hitem
      obtain ⟨⟨i, a⟩, hmem, rfl⟩ := mem_map.mp hitem
      obtain ⟨hzip, hanswer⟩ := mem_filter.mp hmem
      obtain rfl : a = some .notFound := by simpa using hanswer
      exact hzip
    · intro path hpath
      obtain ⟨i, hi, rfl⟩ := mem_map.mp hpath
      exact mem_map_of_mem (mem_of_mem_filter hi)

theorem Ok.answers (h : s.Ok io) (hd : s.drain = some d) (i : ℕ) (a : Answer) : (s.answers io d i a).Ok io := by
  unfold St.answers
  split
  · dsimp only
    split
    · split
      · exact Ok.checked (by exact (h d hd).1) _
      · exact Ok.running rfl (h d hd).1 trivial
    · exact h
  · exact h

theorem Ok.pairs (hlive : d.live = true) {p : Pairing Path K Sha Id} (hp : p.Ok io d.asked (d.window io)) : (s.pairs io d p).Ok io := by
  have hnext := pairNext_ok s.fileId hp
  unfold St.pairs
  split
  · next hpair =>
    rw [hpair] at hnext
    exact Ok.running rfl hlive ⟨hnext.1, hnext.2.1, hnext.2.2.1⟩
  · next hpair =>
    rw [hpair] at hnext
    split
    · exact Ok.idle rfl
    · next hcap =>
      rw [not_or, not_lt] at hcap
      exact Ok.running rfl hlive ⟨hnext, hcap.2⟩

variable {l : Listing Path Sha Id}

/-- where step 2 begins, what is gone is lost -/
theorem listed_ok (hstage : d.stage.Ok io d.asked (d.window io)) {p : Pairing Path K Sha Id}
    (hp : s.listed io d l = some p) : p.Ok io d.asked (d.window io) := by
  unfold listed at hp
  split at hp
  · next gone present hlisting =>
    rw [hlisting] at hstage
    split at hp
    · cases hp
      refine ⟨?_, fun x hx => by simp at hx, ?_⟩
      · intro item hitem
        obtain ⟨hgone, habsent⟩ := mem_filter.mp hitem
        exact ⟨hstage.1 item hgone, by simpa using habsent⟩
      · intro k hk
        obtain ⟨path, hpath, rfl⟩ := mem_map.mp hk
        exact hstage.2 path hpath
    · cases hp
  · cases hp

theorem moveAnswered_ok (hstage : d.stage.Ok io d.asked (d.window io)) {ok : Bool} {x : St Path K Sha Id × Pairing Path K Sha Id}
    (hx : s.moveAnswered io d ok = some x) : x.2.Ok io d.asked (d.window io) := by
  unfold moveAnswered at hx
  split at hx
  · next hmoving =>
    rw [hmoving] at hstage
    split at hx
    · cases hx
      exact hstage.2.2
    · cases hx
  · cases hx

theorem Ok.lists (h : s.Ok io) (hd : s.drain = some d) (l : Listing Path Sha Id) : (s.lists io d l).Ok io := by
  unfold St.lists
  split
  · split
    · next hp => exact Ok.pairs (h d hd).1 (listed_ok (h d hd).2 hp)
    · exact Ok.idle rfl
  · exact h

theorem Ok.moveAnswers (h : s.Ok io) (hd : s.drain = some d) (ok : Bool) : (s.moveAnswers io d ok).Ok io := by
  unfold St.moveAnswers
  split
  · split
    · next hx => exact Ok.pairs (h d hd).1 (moveAnswered_ok (h d hd).2 hx)
    · exact Ok.idle rfl
  · exact h

theorem Ok.removes (hlive : d.live = true) {deletes : List (Delete Path Sha Id)}
    (hdeletes : (∀ x ∈ deletes, Lost io d.asked l x.item) ∧ deletes.length ≤ binaryDeleteCap (l.onDisk.length + deletes.length))
    (cursor : ℕ) (underway : List (Delete Path Sha Id)) : (s.removes io d l deletes cursor underway).Ok io := by
  unfold St.removes
  split
  · exact Ok.idle rfl
  · exact Ok.running rfl hlive hdeletes

/-- what a drain that deletes knows -/
theorem Ok.removing (h : s.Ok io) (hd : s.drain = some d) {deletes : List (Delete Path Sha Id)} {cursor : ℕ}
    {underway : List (Delete Path Sha Id)} (hstage : d.stage = .removing l deletes cursor underway) :
    (∀ x ∈ deletes, Lost io d.asked l x.item) ∧ deletes.length ≤ binaryDeleteCap (l.onDisk.length + deletes.length) := by
  have hok := (h d hd).2
  rwa [hstage] at hok

theorem Ok.starts (h : s.Ok io) (hd : s.drain = some d) : (s.starts io d).Ok io := by
  unfold St.starts
  split
  · next hstage =>
    split
    · exact Ok.running rfl (h d hd).1 (h.removing hd hstage)
    · exact Ok.removes (h d hd).1 (h.removing hd hstage) _ _
  · exact h

theorem Ok.deleteAnswers (h : s.Ok io) (hd : s.drain = some d) (i : ℕ) (removed : Bool) :
    (s.deleteAnswers io d i removed).Ok io := by
  unfold St.deleteAnswers
  split
  · next hstage =>
    split
    · exact Ok.removes (h d hd).1 (h.removing hd hstage) _ _
    · exact h
  · exact h

end St

/-- every step keeps what the drain knows -/
theorem ok_step (io : Io Path K Sha) (s : St Path K Sha Id) (a : Action Path Sha Id) (h : s.Ok io) :
    (step io s a).Ok io := by
  have hdrain : ∀ f : Drain Path K Sha Id → St Path K Sha Id, (∀ d, s.drain = some d → (f d).Ok io) →
      (s.inDrain f).Ok io := by
    intro f hf
    unfold St.inDrain
    split
    · next d hd => exact hf d hd
    · exact h
  cases a with
  | noteChanged relPath => exact h.noteChanged relPath
  | suppressNext relPath =>
    intro d hd
    obtain ⟨d', hd', rfl⟩ := Option.mem_map.mp hd
    exact h d' hd'
  | timerFires => exact h.timerFires
  | drains => exact h.drains
  | asks => exact hdrain _ fun d hd => h.asks hd
  | answers i a => exact hdrain _ fun d hd => h.answers hd i a
  | lists l => exact hdrain _ fun d hd => h.lists hd l
  | listingFails => exact hdrain _ fun d _ => h.listingFails
  | moveAnswers ok => exact hdrain _ fun d hd => h.moveAnswers hd ok
  | starts => exact hdrain _ fun d hd => h.starts hd
  | deleteAnswers i removed => exact hdrain _ fun d hd => h.deleteAnswers hd i removed
  | stop | setCurrent current | setLive live => exact h.same rfl
  | setFileId relPath id => cases id <;> exact h.same rfl

/-! ### The requests of a run -/

section

variable {io : Io Path K Sha} {s : St Path K Sha Id} {a : Action Path Sha Id}

theorem sendsDelete_justified (h : s.Ok io) {r : DeleteRequest Path K Sha Id} (hr : s.sendsDelete io a = some r) :
    r.Justified io ↔ r.claimed = false := by
  cases a with
  | starts =>
    obtain ⟨d, hd, hr⟩ := Option.bind_eq_some_iff.mp hr
    obtain ⟨x, hx, hr⟩ := Option.bind_eq_some_iff.mp hr
    unfold St.nextDelete at hx
    unfold St.deleteRequest at hr
    cases hstage : d.stage with
    | removing l deletes cursor underway =>
      rw [hstage] at hx hr
      dsimp only at hx hr
      split at hx
      · next hfree =>
        split at hr
        · cases hr
          obtain ⟨hlost, hcap⟩ := h.removing hd hstage
          obtain ⟨hasked, hlisted⟩ := hlost x (List.mem_of_getElem? hx)
          have hnth : cursor + 1 ≤ deletes.length := (List.getElem?_eq_some_iff.mp hx).1
          constructor
          · exact fun hj => hj.2.2.2.2.2
          · intro hclaimed
            refine ⟨(h d hd).1, hfree.1, decide_eq_true hasked, hlisted, ?_, hclaimed⟩
            rw [List.length_map]
            exact hnth.trans hcap
        · cases hr
      · cases hx
    | _ =>
      rw [hstage] at hx
      cases hx
  | _ => simp [St.sendsDelete] at hr

/-- where step 2 goes on, what is gone is lost -/
theorem pairing_ok (h : s.Ok io) {x : St Path K Sha Id × Drain Path K Sha Id × Pairing Path K Sha Id}
    (hx : s.pairing io a = some x) : x.2.2.Ok io x.2.1.asked (x.2.1.window io) := by
  cases a with
  | lists l =>
    obtain ⟨d, hd, hx⟩ := Option.bind_eq_some_iff.mp hx
    obtain ⟨p, hp, rfl⟩ := Option.map_eq_some_iff.mp hx
    exact St.listed_ok (h d hd).2 hp
  | moveAnswers ok =>
    obtain ⟨d, hd, hx⟩ := Option.bind_eq_some_iff.mp hx
    obtain ⟨y, hy, rfl⟩ := Option.map_eq_some_iff.mp hx
    exact St.moveAnswered_ok (h d hd).2 hy
  | _ => simp [St.pairing] at hx

theorem sendsMove_justified (h : s.Ok io) {r : MoveRequest Path K Sha Id} (hr : s.sendsMove io a = some r) :
    r.Justified io ↔ r.registered = false := by
  obtain ⟨⟨s', d, p⟩, hx, hr⟩ := Option.bind_eq_some_iff.mp hr
  have hnext := pairNext_ok s'.fileId (pairing_ok h hx)
  unfold St.moveRequest at hr
  split at hr
  · next hpair =>
    rw [hpair] at hnext
    obtain ⟨id, _, rfl⟩ := Option.map_eq_some_iff.mp hr
    obtain ⟨_, hwindow, _, hbytes⟩ := hnext
    constructor
    · exact fun hj => hj.2.2
    · exact fun hregistered => ⟨hbytes, hwindow, hregistered⟩
  · cases hr

/-- a step that sends nothing claimed and moves nothing onto a row keeps the requests justified, and no other does -/
theorem safe_step (h : s.Ok io) (hsafe : s.Safe io) : (step io s a).Safe io ↔ Unclaimed io s a := by
  obtain ⟨hdeletes, hmoves⟩ := Prod.mk.inj (sent_step io s a)
  have hdelete : (∀ r ∈ (step io s a).deletes, r.Justified io) ↔ ∀ r ∈ s.sendsDelete io a, r.claimed = false := by
    rw [hdeletes, forall_mem_append]
    constructor
    · intro hall r hr
      exact (sendsDelete_justified h hr).mp (hall.2 r (Option.mem_toList.mpr hr))
    · intro hnew
      refine ⟨hsafe.1, fun r hr => ?_⟩
      have hr := Option.mem_toList.mp hr
      exact (sendsDelete_justified h hr).mpr (hnew r hr)
  have hmove : (∀ r ∈ (step io s a).moves, r.Justified io) ↔ ∀ r ∈ s.sendsMove io a, r.registered = false := by
    rw [hmoves, forall_mem_append]
    constructor
    · intro hall r hr
      exact (sendsMove_justified h hr).mp (hall.2 r (Option.mem_toList.mpr hr))
    · intro hnew
      refine ⟨hsafe.2, fun r hr => ?_⟩
      have hr := Option.mem_toList.mp hr
      exact (sendsMove_justified h hr).mpr (hnew r hr)
  exact and_congr hdelete hmove

end

/-- **Binary deletes are safe, but for claims and rows.** In every run, every DELETE sent so far was for a path that
the disk did not find in a live session, that the listing does not name, under the cap and not claimed, and every row
moved went to an unregistered path of the window with its bytes, exactly if no step sends a DELETE for a path claimed
since the drain began, or one whose event was a claim's lost echo, and none moves a row onto a path that has one. -/
theorem safe_iff (io : Io Path K Sha) (fileIds : List (Path × Id)) (current live : Bool)
    (as : List (Action Path Sha Id)) :
    Machine.Guarded (step io) (Unclaimed io) (.fresh fileIds current live) as ↔
      ∀ n, (run io (.fresh fileIds current live) (as.take n)).Safe io := by
  have hexact : ∀ (s : St Path K Sha Id) (a : Action Path Sha Id), s.Ok io → s.Safe io →
      ((step io s a).Safe io ↔ Unclaimed io s a) := fun s a hok hsafe => safe_step hok hsafe
  apply Machine.guarded_iff (ok_step io) hexact (St.Ok.idle rfl)
  exact ⟨fun r hr => absurd hr (by simp [St.fresh]), fun r hr => absurd hr (by simp [St.fresh])⟩

/-! ### The two that get through -/

def plainIo : Io ℕ ℕ ℕ := { key := id, noSha := 0 }

/-- the file 7 is being asked about when the app claims it and removes it -/
def claimedRun : List (Action ℕ ℕ ℕ) :=
  [.noteChanged 7, .timerFires, .asks, .suppressNext 7, .answers 0 .notFound, .lists ⟨[], [⟨90, 5, some 7⟩]⟩, .starts]

/-- of two registered copies, one is removed and the other is touched -/
def copyRun : List (Action ℕ ℕ ℕ) :=
  [.noteChanged 7, .noteChanged 8, .timerFires, .asks, .asks, .answers 0 .notFound, .answers 1 .found,
    .lists ⟨[⟨8, 5⟩], [⟨90, 5, some 7⟩, ⟨91, 5, some 8⟩]⟩]

/-- **The batch is not looked at again.** A path claimed while the disk is being asked is deleted on the server; the row
of a removed copy moves onto the row of the other. -/
theorem claimed_path_is_deleted :
    ¬ (run plainIo (.fresh [(7, 70)] true true) claimedRun).Safe plainIo ∧
      ¬ (run plainIo (.fresh [(7, 70), (8, 80)] true true) copyRun).Safe plainIo := by
  constructor
  · intro h
    have hclaimed : ∃ r ∈ (run plainIo (.fresh [(7, 70)] true true) claimedRun).deletes, r.claimed = true := by decide
    obtain ⟨r, hr, hclaimed⟩ := hclaimed
    exact absurd (h.1 r hr).2.2.2.2.2 (by simp [hclaimed])
  · intro h
    have hrow : ∃ r ∈ (run plainIo (.fresh [(7, 70), (8, 80)] true true) copyRun).moves, r.registered = true := by
      decide
    obtain ⟨r, hr, hrow⟩ := hrow
    exact absurd (h.2 r hr).2.2 (by simp [hrow])

end

end Baalda.BinaryDeletes
