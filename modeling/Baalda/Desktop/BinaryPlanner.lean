/-
The plan of a pass over the binaries (`planBinarySync` in lib/sync/attachments.ts).

Each local file of the tree is compared with the server's rows of its `files` id or, where this device knows no id for
it, of its path; `bases` are what this device last agreed on. A file without rows may be the arrival of a rename made
while no window was open. What is left is compared by content. A null or empty field of a row is `none`.

- `plan_safe`: what the plan does to a file, a row and a path;
- `shared_rows`: one row decides two files, and a file whose id a row under `attachments/` carries is trashed.
-/
import Mathlib.Tactic
import Baalda.Lib.Slots

namespace Baalda.BinaryPlanner

open List

abbrev Text := List Char

local instance : LawfulBEq Text := inferInstance

/-! ## Names -/

/-- Unicode, and the format registry -/
structure Names where
  nfc : Text → Text
  toLowerCase : Text → Text
  /-- no note, surfaced, and synced as an attachment -/
  surfacedBinary : Text → Bool

def segments (path : Text) : List Text := path.splitOnP fun c => c = '/' || c = '\\'

def isUnderAttachments (relPath : Text) : Bool :=
  relPath = "attachments".toList || "attachments/".toList.isPrefixOf relPath

/-- neither empty, nor hidden, nor a step up -/
def plainSegment (seg : Text) : Bool := seg ≠ [] && seg.head? ≠ some '.'

def isSafeAttachmentRelPath (relPath : Text) : Bool :=
  relPath ≠ [] && (segments relPath).head? = some "attachments".toList && 2 ≤ (segments relPath).length &&
    (segments relPath).all plainSegment

def treeDeniedDirs : List Text :=
  ["node_modules", "dist", "build", "target", "vendor", "__pycache__", "venv"].map String.toList

section

variable (io : Names)

def pathKey (path : Text) : Text := io.toLowerCase (io.nfc path)

def isTransientFileName (name : Text) : Bool :=
  ["~$", ".~lock."].any (fun p => p.toList.isPrefixOf name) ||
    name.head? = some '~' && name.length > 5 && ".tmp".toList.isSuffixOf (io.toLowerCase name)

def isTransientPath (relPath : Text) : Bool :=
  let name := (segments relPath).getLast?.getD []
  name ≠ [] && isTransientFileName io name

def isSafeTreeBinaryRelPath (relPath : Text) : Bool :=
  relPath ≠ [] && (segments relPath).all plainSegment && !(segments relPath).any (· ∈ treeDeniedDirs) &&
    !isTransientPath io relPath && io.surfacedBinary relPath

def isSafeBlobRelPath (relPath : Text) : Bool :=
  if isUnderAttachments relPath then isSafeAttachmentRelPath relPath else isSafeTreeBinaryRelPath io relPath

end

/-! ## Listings and plan -/

section

variable (Sha Id : Type*)

structure LocalAttachment where
  relPath : Text
  sha256 : Sha
deriving DecidableEq

structure ServerBlob where
  id : Id
  sha256 : Option Sha
  relPath : Option Text
  docId : Option Id
deriving DecidableEq

/-- a row with all its fields, outside `attachments/` -/
structure TreeRow where
  id : Id
  sha256 : Sha
  relPath : Text
  docId : Id
deriving DecidableEq

structure PlannedUpload where
  file : LocalAttachment Sha
  baseSha : Option Sha
deriving DecidableEq

inductive Reason where
  | teammateEdit | noBase | conflict
deriving DecidableEq

structure BinaryReplace where
  file : LocalAttachment Sha
  /-- its path is the file's -/
  blob : TreeRow Sha Id
  keepCopy : Bool
  reason : Reason
deriving DecidableEq

structure Agreed where
  relPath : Text
  docId : Id
  sha256 : Sha
deriving DecidableEq

structure Move where
  docId : Id
  fromPath : Text
  toPath : Text
  sha256 : Sha
deriving DecidableEq

structure BinaryPlan where
  toUpload : List (PlannedUpload Sha) := []
  toDownload : List (ServerBlob Sha Id) := []
  toReplace : List (BinaryReplace Sha Id) := []
  agreed : List (Agreed Sha Id) := []
  toTrash : List (LocalAttachment Sha × Id) := []
  toMove : List (Move Sha Id) := []
deriving DecidableEq

/-- what this device remembers -/
structure BinaryPlanContext where
  docIdFor : Text → Option Id
  baseFor : Id → Option Sha
  isTombstoned : Id → Bool

end

variable {Sha Id : Type*} [DecidableEq Sha] [DecidableEq Id] (io : Names)

/-! ## The three-way -/

def ServerBlob.treeRow? (b : ServerBlob Sha Id) : Option (TreeRow Sha Id) :=
  match b.docId, b.sha256, b.relPath with
  | some docId, some sha256, some relPath =>
    if isUnderAttachments relPath then none else some ⟨b.id, sha256, relPath, docId⟩
  | _, _, _ => none

/-- `byDoc.get` -/
def byDoc (server : List (ServerBlob Sha Id)) (docId : Id) : List (TreeRow Sha Id) :=
  (server.filterMap ServerBlob.treeRow?).filter fun r => r.docId = docId

/-- `byPath.get` -/
def byPath (server : List (ServerBlob Sha Id)) (key : Text) : List (TreeRow Sha Id) :=
  (server.filterMap ServerBlob.treeRow?).filter fun r => pathKey io r.relPath = key

/-- what the three-way makes of a local file -/
inductive Decision (Sha Id : Type*) where
  /-- under `attachments/`, or the server has another file at its path -/
  | leaves
  | trashes (docId : Id)
  | orphan
  | agrees (row : TreeRow Sha Id)
  | uploads (base : Sha)
  | replaces (row : TreeRow Sha Id) (keepCopy : Bool) (reason : Reason)

section

variable (ctx : BinaryPlanContext Sha Id) (server : List (ServerBlob Sha Id)) (a : LocalAttachment Sha)

/-- the rows that decide a file: of its id, or else of its path -/
def rowsFor : List (TreeRow Sha Id) :=
  if isUnderAttachments a.relPath then []
  else match ctx.docIdFor a.relPath with
    | some knownId => byDoc server knownId
    | none => byPath io server (pathKey io a.relPath)

def decide₃ : Decision Sha Id :=
  if isUnderAttachments a.relPath then .leaves
  else match rowsFor io ctx server a with
    | [] => match (ctx.docIdFor a.relPath).filter ctx.isTombstoned with
      | some knownId => .trashes knownId
      | none => if byPath io server (pathKey io a.relPath) = [] then .orphan else .leaves
    | current :: rest => match (current :: rest).find? fun r => r.sha256 = a.sha256 with
      | some same => .agrees same
      | none =>
        match (ctx.baseFor current.docId).filter fun base => (current :: rest).any fun r => r.sha256 = base with
        | some base => .uploads base
        | none =>
          let blob := { current with relPath := a.relPath }
          if ctx.baseFor current.docId = some a.sha256 then .replaces blob false .teammateEdit
          else .replaces blob true (if (ctx.baseFor current.docId).isSome then .conflict else .noBase)

end

/-- the lists the loop fills -/
structure ThreeWay (Sha Id : Type*) where
  plan : BinaryPlan Sha Id := {}
  /-- server rows: never also a plain download -/
  consumed : List Id := []
  /-- local paths: never also a plain upload -/
  decided : List Text := []
  orphans : List (LocalAttachment Sha) := []
  /-- ids that some local path is known by -/
  claimedIds : List Id := []

def ThreeWay.add (t : ThreeWay Sha Id) (a : LocalAttachment Sha) : Decision Sha Id → ThreeWay Sha Id
  | .leaves => t
  | .trashes docId =>
    { t with decided := t.decided ++ [a.relPath], plan := { t.plan with toTrash := t.plan.toTrash ++ [(a, docId)] } }
  | .orphan => { t with orphans := t.orphans ++ [a] }
  | .agrees row =>
    { t with
      decided := t.decided ++ [a.relPath],
      plan := { t.plan with agreed := t.plan.agreed ++ [⟨a.relPath, row.docId, a.sha256⟩] } }
  | .uploads base =>
    { t with
      decided := t.decided ++ [a.relPath], plan := { t.plan with toUpload := t.plan.toUpload ++ [⟨a, some base⟩] } }
  | .replaces row keepCopy reason =>
    { t with
      decided := t.decided ++ [a.relPath],
      plan := { t.plan with toReplace := t.plan.toReplace ++ [⟨a, row, keepCopy, reason⟩] } }

section

variable (ctx : BinaryPlanContext Sha Id) (server : List (ServerBlob Sha Id)) (files : List (LocalAttachment Sha))

def threeWayStep (t : ThreeWay Sha Id) (a : LocalAttachment Sha) : ThreeWay Sha Id :=
  if isUnderAttachments a.relPath then t
  else
    { t with
      claimedIds := t.claimedIds ++ (ctx.docIdFor a.relPath).toList,
      consumed := t.consumed ++ (rowsFor io ctx server a).map TreeRow.id }.add a (decide₃ io ctx server a)

def threeWay : ThreeWay Sha Id := files.foldl (threeWayStep io ctx server) {}

/-! ## Offline renames -/

/-- does the disk hold the path? -/
def onDisk (relPath : Text) : Bool := files.any fun a => pathKey io a.relPath = pathKey io relPath

/-- the row of a document whose file is gone from here, with the bytes last agreed on -/
def vacatedRow (t : ThreeWay Sha Id) (docId : Id) : Option (TreeRow Sha Id) :=
  if docId ∈ t.claimedIds || ctx.isTombstoned docId then none
  else if (byDoc server docId).any fun r => r.id ∈ t.consumed || onDisk io files r.relPath then none
  else (ctx.baseFor docId).bind fun base => (byDoc server docId).find? fun r => r.sha256 = base

/-- the keys of `byDoc` -/
def docIds : List Id := ((server.filterMap ServerBlob.treeRow?).map TreeRow.docId).eraseDups

def vacated (t : ThreeWay Sha Id) : List (TreeRow Sha Id) :=
  (docIds server).filterMap (vacatedRow io ctx server files t)

/-- paired only where one such row and one such file have the content -/
def pairUp (rows : List (TreeRow Sha Id)) (orphans : List (LocalAttachment Sha)) (sha256 : Sha) :
    Option (Move Sha Id) :=
  match rows.filter fun r => r.sha256 = sha256, orphans.filter fun a => a.sha256 = sha256 with
  | [row], [a] => some ⟨row.docId, row.relPath, a.relPath, sha256⟩
  | _, _ => none

def moves (t : ThreeWay Sha Id) : List (Move Sha Id) :=
  let rows := vacated io ctx server files t
  (rows.map TreeRow.sha256).eraseDups.filterMap
    (pairUp rows (t.orphans.filter fun a => !isTransientPath io a.relPath))

def withMoves (t : ThreeWay Sha Id) : ThreeWay Sha Id :=
  let toMove := moves io ctx server files t
  { t with
    plan := { t.plan with toMove := toMove },
    decided := t.decided ++ toMove.map Move.toPath,
    consumed := t.consumed ++ (toMove.flatMap fun m => byDoc server m.docId).map TreeRow.id }

end

/-! ## The plan -/

/-- what is left goes up: content the server lacks, or has only as drops for a file it does not know -/
def plainUpload (ctx : Option (BinaryPlanContext Sha Id)) (server : List (ServerBlob Sha Id)) (decided : List Text)
    (a : LocalAttachment Sha) : Bool :=
  a.relPath ∉ decided &&
    (!(server.any fun b => b.sha256 = some a.sha256) ||
      ctx.any (fun ctx => !isUnderAttachments a.relPath && ctx.docIdFor a.relPath = none &&
        !(server.any fun b => !b.relPath.any isUnderAttachments && b.sha256 = some a.sha256)))

def plainDownload (files : List (LocalAttachment Sha)) (consumed : List Id) (b : ServerBlob Sha Id) : Bool :=
  b.id ∉ consumed && b.sha256.isSome && b.relPath.any fun relPath =>
    isSafeBlobRelPath io relPath &&
      (isUnderAttachments relPath || !(files.any fun a => b.sha256 = some a.sha256)) && !onDisk io files relPath

def planBinarySync (files : List (LocalAttachment Sha)) (server : List (ServerBlob Sha Id))
    (ctx : Option (BinaryPlanContext Sha Id)) : BinaryPlan Sha Id :=
  let t := match ctx with
    | some ctx => withMoves io ctx server files (threeWay io ctx server files)
    | none => {}
  { t.plan with
    toUpload := t.plan.toUpload ++ (files.filter (plainUpload ctx server t.decided)).map fun a => ⟨a, none⟩,
    toDownload := server.filter (plainDownload io files t.consumed) }

def diffAttachments (files : List (LocalAttachment Sha)) (server : List (ServerBlob Sha Id)) :
    List (PlannedUpload Sha) × List (ServerBlob Sha Id) :=
  let plan := planBinarySync io files server none
  (plan.toUpload, plan.toDownload)

/-! ## What the loop fills its lists with -/

/-- the file is in a list of the plan -/
def Decision.decides : Decision Sha Id → Bool
  | .leaves | .orphan => false
  | _ => true

def Decision.isOrphan : Decision Sha Id → Bool
  | .orphan => true
  | _ => false

theorem Decision.decides_or_isOrphan (d : Decision Sha Id) : d.decides = false ∨ d.isOrphan = false := by
  cases d <;> simp [decides, isOrphan]

/-- the paths of the files in the lists of the plan -/
def BinaryPlan.outcomes (plan : BinaryPlan Sha Id) : List Text :=
  (plan.toUpload.map fun u => u.file.relPath) ++ (plan.toReplace.map fun r => r.file.relPath) ++
    plan.agreed.map Agreed.relPath ++ (plan.toTrash.map fun x => x.1.relPath) ++ plan.toMove.map Move.toPath

section

variable {io} {ctx : BinaryPlanContext Sha Id} {server : List (ServerBlob Sha Id)} {files : List (LocalAttachment Sha)}
  {a : LocalAttachment Sha} {t : ThreeWay Sha Id} {p : Text} {docId : Id}

theorem threeWay_snoc : threeWay io ctx server (files ++ [a]) =
    threeWayStep io ctx server (threeWay io ctx server files) a := by
  simp [threeWay]

theorem rowsFor_of_under (h : isUnderAttachments a.relPath = true) : rowsFor io ctx server a = [] := if_pos h

theorem decide₃_of_under (h : isUnderAttachments a.relPath = true) : decide₃ io ctx server a = .leaves := if_pos h

theorem mem_toTrash {x : LocalAttachment Sha × Id} (h : x ∈ (threeWay io ctx server files).plan.toTrash) :
    x.1 ∈ files ∧ decide₃ io ctx server x.1 = .trashes x.2 := by
  induction files using reverseRecOn with
  | nil => simp [threeWay] at h
  | append_singleton files a ih =>
    rw [threeWay_snoc, threeWayStep] at h
    have hold : x ∈ (threeWay io ctx server files).plan.toTrash →
        x.1 ∈ files ++ [a] ∧ decide₃ io ctx server x.1 = .trashes x.2 :=
      fun hx => ⟨mem_append_left _ (ih hx).1, (ih hx).2⟩
    split at h
    · exact hold h
    · cases hd : decide₃ io ctx server a with
      | trashes docId =>
        rw [hd] at h
        rcases mem_snoc.1 h with h | rfl
        · exact hold h
        · exact ⟨mem_append_right _ (mem_singleton_self _), hd⟩
      | _ => rw [hd] at h; exact hold h

theorem mem_toReplace {r : BinaryReplace Sha Id} (h : r ∈ (threeWay io ctx server files).plan.toReplace) :
    r.file ∈ files ∧ decide₃ io ctx server r.file = .replaces r.blob r.keepCopy r.reason := by
  induction files using reverseRecOn with
  | nil => simp [threeWay] at h
  | append_singleton files a ih =>
    rw [threeWay_snoc, threeWayStep] at h
    have hold : r ∈ (threeWay io ctx server files).plan.toReplace →
        r.file ∈ files ++ [a] ∧ decide₃ io ctx server r.file = .replaces r.blob r.keepCopy r.reason :=
      fun hr => ⟨mem_append_left _ (ih hr).1, (ih hr).2⟩
    split at h
    · exact hold h
    · cases hd : decide₃ io ctx server a with
      | replaces row keepCopy reason =>
        rw [hd] at h
        rcases mem_snoc.1 h with h | rfl
        · exact hold h
        · exact ⟨mem_append_right _ (mem_singleton_self _), hd⟩
      | _ => rw [hd] at h; exact hold h

theorem orphans_eq (io : Names) (ctx : BinaryPlanContext Sha Id) (server : List (ServerBlob Sha Id))
    (files : List (LocalAttachment Sha)) :
    (threeWay io ctx server files).orphans = files.filter fun a => (decide₃ io ctx server a).isOrphan := by
  induction files using reverseRecOn with
  | nil => rfl
  | append_singleton files a ih =>
    rw [threeWay_snoc, threeWayStep, filter_append]
    split
    · next hunder => simp [ih, decide₃_of_under hunder, Decision.isOrphan]
    · cases hd : decide₃ io ctx server a <;> simp [ThreeWay.add, ih, hd, Decision.isOrphan]

theorem mem_consumed {id : Id} : id ∈ (threeWay io ctx server files).consumed ↔
    ∃ a ∈ files, ∃ r ∈ rowsFor io ctx server a, r.id = id := by
  induction files using reverseRecOn with
  | nil => simp [threeWay]
  | append_singleton files a ih =>
    have hadd : ∀ (t : ThreeWay Sha Id) (d : Decision Sha Id), (t.add a d).consumed = t.consumed := by
      intro t d
      cases d <;> rfl
    rw [threeWay_snoc, threeWayStep]
    split
    · next hunder =>
      rw [ih]
      simp [or_and_right, exists_or, rowsFor_of_under hunder]
    · rw [hadd, mem_append, ih, mem_map]
      simp [or_and_right, exists_or]

theorem mem_claimedIds : docId ∈ (threeWay io ctx server files).claimedIds ↔
    ∃ a ∈ files, isUnderAttachments a.relPath = false ∧ ctx.docIdFor a.relPath = some docId := by
  induction files using reverseRecOn with
  | nil => simp [threeWay]
  | append_singleton files a ih =>
    have hadd : ∀ (t : ThreeWay Sha Id) (d : Decision Sha Id), (t.add a d).claimedIds = t.claimedIds := by
      intro t d
      cases d <;> rfl
    rw [threeWay_snoc, threeWayStep]
    split
    · next hunder =>
      rw [ih]
      simp [or_and_right, exists_or, hunder]
    · next hunder =>
      rw [hadd, mem_append, ih]
      simp [or_and_right, exists_or, hunder]

theorem mem_decided : p ∈ (threeWay io ctx server files).decided ↔
    ∃ a ∈ files, (decide₃ io ctx server a).decides = true ∧ a.relPath = p := by
  induction files using reverseRecOn with
  | nil => simp [threeWay]
  | append_singleton files a ih =>
    rw [threeWay_snoc, threeWayStep]
    split
    · next hunder =>
      rw [ih]
      simp [or_and_right, exists_or, decide₃_of_under hunder, Decision.decides]
    · cases hd : decide₃ io ctx server a <;>
        simp [ThreeWay.add, ih, hd, Decision.decides, or_and_right, exists_or, @eq_comm _ p]

theorem no_moves : (threeWay io ctx server files).plan.toMove = [] := by
  induction files using reverseRecOn with
  | nil => rfl
  | append_singleton files a ih =>
    rw [threeWay_snoc, threeWayStep]
    split
    · exact ih
    · cases decide₃ io ctx server a <;> exact ih

/-- the lists of the loop name a path as often as files of that path were decided -/
theorem count_outcomes (p : Text) : (threeWay io ctx server files).plan.outcomes.count p =
    files.countP fun a => a.relPath = p && (decide₃ io ctx server a).decides := by
  induction files using reverseRecOn with
  | nil => rfl
  | append_singleton files a ih =>
    rw [threeWay_snoc, threeWayStep, countP_append, ← ih]
    split
    · next hunder => simp [decide₃_of_under hunder, Decision.decides]
    · cases hd : decide₃ io ctx server a <;> by_cases hp : a.relPath = p <;>
        simp [ThreeWay.add, BinaryPlan.outcomes, hd, Decision.decides, count_append, count_cons, hp] <;> omega

end

/-! ## What is to hold -/

section

variable (ctx : BinaryPlanContext Sha Id) (server : List (ServerBlob Sha Id)) (files : List (LocalAttachment Sha))

/-- a file of the tree that the server has nothing for -/
def arrived (a : LocalAttachment Sha) : Bool :=
  !isUnderAttachments a.relPath && rowsFor io ctx server a = [] && byPath io server (pathKey io a.relPath) = [] &&
    !(ctx.docIdFor a.relPath).any ctx.isTombstoned && !isTransientPath io a.relPath

/-- a live document that no file here stands for, by its id, its path or its row -/
def Vacated (docId : Id) : Prop :=
  (∀ a ∈ files, isUnderAttachments a.relPath = false → ctx.docIdFor a.relPath ≠ some docId) ∧
    ctx.isTombstoned docId = false ∧
    ∀ r ∈ byDoc server docId, onDisk io files r.relPath = false ∧
      ∀ a ∈ files, ∀ r' ∈ rowsFor io ctx server a, r'.id ≠ r.id

/-- a move pairs the one vacated document with the one arrived file that have the content last agreed on -/
structure Certain (m : Move Sha Id) : Prop where
  row : ∃ r ∈ byDoc server m.docId, r.relPath = m.fromPath ∧ r.sha256 = m.sha256
  agreed : ctx.baseFor m.docId = some m.sha256
  vacated : Vacated io ctx server files m.docId
  onlyRow : ∀ docId, Vacated io ctx server files docId → ctx.baseFor docId = some m.sha256 →
    (∃ r ∈ byDoc server docId, r.sha256 = m.sha256) → docId = m.docId
  onlyFile : ∃ a, (files.filter fun a => arrived io ctx server a && a.sha256 = m.sha256) = [a] ∧ a.relPath = m.toPath

end

structure PlanSafe (files : List (LocalAttachment Sha)) (server : List (ServerBlob Sha Id))
    (ctx : Option (BinaryPlanContext Sha Id)) (plan : BinaryPlan Sha Id) : Prop where
  /-- a file has one outcome at most -/
  once : ∀ p, plan.outcomes.count p ≤ (files.map LocalAttachment.relPath).count p
  /-- replaced without a copy: the bytes are those last agreed on -/
  copies : ∀ r ∈ plan.toReplace, r.keepCopy = false → ∃ c ∈ ctx, c.baseFor r.blob.docId = some r.file.sha256
  /-- trashed: its id is deleted, and no row of the tree carries it -/
  trashed : ∀ x ∈ plan.toTrash, ∃ c ∈ ctx, c.docIdFor x.1.relPath = some x.2 ∧ c.isTombstoned x.2 = true ∧
    byDoc server x.2 = []
  moved : ∀ m ∈ plan.toMove, ∃ c ∈ ctx, Certain io c server files m
  /-- no download where the disk holds a file -/
  downloads : ∀ b ∈ plan.toDownload, ∃ p, b.relPath = some p ∧ ∀ a ∈ files, pathKey io a.relPath ≠ pathKey io p
  /-- a downloaded row decides no file and moves none -/
  downloadedRows : ∀ b ∈ plan.toDownload, ∀ c ∈ ctx, (∀ a ∈ files, ∀ r ∈ rowsFor io c server a, r.id ≠ b.id) ∧
    ∀ m ∈ plan.toMove, ∀ r ∈ byDoc server m.docId, r.id ≠ b.id
  /-- a document moves once -/
  movesOnce : (plan.toMove.map Move.docId).Nodup

/-! ## Decisions -/

section

variable {io} {ctx : BinaryPlanContext Sha Id} {server : List (ServerBlob Sha Id)} {files : List (LocalAttachment Sha)}
  {a : LocalAttachment Sha} {t : ThreeWay Sha Id} {p : Text} {docId : Id} {rows : List (TreeRow Sha Id)}
  {orphans : List (LocalAttachment Sha)} {m : Move Sha Id}

theorem decide₃_trashes (h : decide₃ io ctx server a = .trashes docId) :
    ctx.docIdFor a.relPath = some docId ∧ ctx.isTombstoned docId = true ∧ byDoc server docId = [] := by
  unfold decide₃ at h
  split at h
  · cases h
  · next hunder =>
    split at h
    · next hrows =>
      split at h
      · next knownId hknown =>
        obtain rfl := Decision.trashes.inj h
        obtain ⟨hid, htomb⟩ := Option.filter_eq_some_iff.1 hknown
        rw [rowsFor, if_neg hunder, hid] at hrows
        exact ⟨hid, htomb, hrows⟩
      · split at h <;> cases h
    · repeat' split at h
      all_goals cases h

theorem decide₃_replaces {row : TreeRow Sha Id} {keepCopy : Bool} {reason : Reason}
    (h : decide₃ io ctx server a = .replaces row keepCopy reason) (hcopy : keepCopy = false) :
    ctx.baseFor row.docId = some a.sha256 := by
  unfold decide₃ at h
  split at h
  · cases h
  · split at h
    · repeat' split at h
      all_goals cases h
    · split at h
      · cases h
      · split at h
        · cases h
        · split at h
          · next hbase =>
            obtain ⟨rfl, -, -⟩ := Decision.replaces.inj h
            exact hbase
          · obtain ⟨-, rfl, -⟩ := Decision.replaces.inj h
            cases hcopy

theorem isOrphan_iff :
    ((decide₃ io ctx server a).isOrphan && !isTransientPath io a.relPath) = arrived io ctx server a := by
  unfold arrived decide₃
  split
  · next hunder => simp [hunder, Decision.isOrphan]
  · next hunder =>
    split
    · next hrows =>
      cases hknown : ctx.docIdFor a.relPath with
      | none =>
        by_cases hpath : byPath io server (pathKey io a.relPath) = [] <;>
          simp [hunder, hpath, hrows, Decision.isOrphan]
      | some knownId =>
        cases htomb : ctx.isTombstoned knownId <;>
          by_cases hpath : byPath io server (pathKey io a.relPath) = [] <;>
          simp [hunder, hpath, hrows, htomb, Decision.isOrphan, Option.filter]
    · next hrows =>
      have hnot : ∀ d : Decision Sha Id, d.isOrphan = false →
          (d.isOrphan && !isTransientPath io a.relPath) = false := by
        intro d hd
        rw [hd]
        rfl
      rw [hrows]
      simp only [cons_ne_nil, decide_false, Bool.and_false, Bool.false_and]
      apply hnot
      repeat' split
      all_goals rfl

/-! ## Moves -/

theorem nodup_eraseDups {α : Type*} [DecidableEq α] (l : List α) : l.eraseDups.Nodup := by
  induction hn : l.length using Nat.strong_induction_on generalizing l with
  | _ n ih =>
    cases l with
    | nil => simp
    | cons x xs =>
      rw [eraseDups_cons, nodup_cons]
      constructor
      · simp [mem_eraseDups]
      · apply ih _ _ _ rfl
        rw [← hn]
        exact Nat.lt_succ_of_le (length_filter_le _ _)

theorem pairUp_eq_some {sha256 : Sha} (h : pairUp rows orphans sha256 = some m) : m.sha256 = sha256 ∧
    ∃ row a, (rows.filter fun r => r.sha256 = sha256) = [row] ∧ (orphans.filter fun a => a.sha256 = sha256) = [a] ∧
      m = ⟨row.docId, row.relPath, a.relPath, sha256⟩ := by
  unfold pairUp at h
  split at h
  · next row a hrow ha =>
    cases h
    exact ⟨rfl, row, a, hrow, ha, rfl⟩
  · cases h

/-- distinct contents pair distinct files -/
theorem count_pairUp (p : Text) {contents : List Sha} (hnodup : contents.Nodup) :
    ((contents.filterMap (pairUp rows orphans)).map Move.toPath).count p ≤
      orphans.countP fun a => a.relPath = p && a.sha256 ∈ contents := by
  induction contents with
  | nil => simp
  | cons sha contents ih =>
    obtain ⟨hnew, hrest⟩ := nodup_cons.1 hnodup
    have hsplit : (orphans.countP fun a => a.relPath = p && a.sha256 ∈ sha :: contents) =
        (orphans.countP fun a => a.relPath = p && a.sha256 = sha) +
          orphans.countP fun a => a.relPath = p && a.sha256 ∈ contents := by
      clear ih
      induction orphans with
      | nil => rfl
      | cons a as ih =>
        rw [countP_cons, countP_cons, countP_cons, ih]
        by_cases hp : a.relPath = p
        · by_cases hsha : a.sha256 = sha
          · simp [hp, hsha, hnew]; omega
          · by_cases hin : a.sha256 ∈ contents <;> simp [hp, hsha, hin] <;> omega
        · simp [hp]
    rw [hsplit, filterMap_cons]
    cases hpair : pairUp rows orphans sha with
    | none => exact Nat.le_trans (ih hrest) (Nat.le_add_left _ _)
    | some m =>
      obtain ⟨-, row, a, -, ha, rfl⟩ := pairUp_eq_some hpair
      have hone : (orphans.countP fun a => a.relPath = p && a.sha256 = sha) = if a.relPath = p then 1 else 0 := by
        rw [← countP_filter, ha]
        simp [countP_cons]
      rw [hone, map_cons, count_cons]
      have hle := ih hrest
      by_cases hp : a.relPath = p
      · simp only [hp, beq_self_eq_true, if_true]
        omega
      · simp only [beq_iff_eq, hp, if_false]
        omega

theorem mem_vacated {row : TreeRow Sha Id} (h : row ∈ vacated io ctx server files (threeWay io ctx server files)) :
    row ∈ byDoc server row.docId ∧ ctx.baseFor row.docId = some row.sha256 ∧ Vacated io ctx server files row.docId ∧
      vacatedRow io ctx server files (threeWay io ctx server files) row.docId = some row := by
  obtain ⟨docId, -, hrow⟩ := mem_filterMap.1 h
  have hkeep := hrow
  unfold vacatedRow at hrow
  split at hrow
  · cases hrow
  · next hfree =>
    split at hrow
    · cases hrow
    · next hgone =>
      obtain ⟨base, hbase, hfind⟩ := Option.bind_eq_some_iff.1 hrow
      have hmem := mem_of_find?_eq_some hfind
      have hsha : row.sha256 = base := by simpa using find?_some hfind
      have hdoc : row.docId = docId := by simpa using (mem_filter.1 hmem).2
      subst hdoc
      rw [Bool.or_eq_true, not_or, decide_eq_true_eq] at hfree
      refine ⟨hmem, hsha ▸ hbase, ⟨?_, by simpa using hfree.2, ?_⟩, hkeep⟩
      · intro a ha hunder hid
        exact hfree.1 (mem_claimedIds.2 ⟨a, ha, hunder, hid⟩)
      · intro r hr
        have hnot : ¬ (r.id ∈ (threeWay io ctx server files).consumed ∨ onDisk io files r.relPath = true) := by
          intro hor
          exact hgone (any_eq_true.2 ⟨r, hr, by simpa using hor⟩)
        rw [not_or] at hnot
        refine ⟨by simpa using hnot.2, fun a ha r' hr' heq => ?_⟩
        exact hnot.1 (mem_consumed.2 ⟨a, ha, r', hr', heq⟩)

/-- a vacated document with the content last agreed on is found -/
theorem vacated_complete (h : Vacated io ctx server files docId) {sha : Sha} (hbase : ctx.baseFor docId = some sha)
    (hrow : ∃ r ∈ byDoc server docId, r.sha256 = sha) :
    ∃ row ∈ vacated io ctx server files (threeWay io ctx server files), row.docId = docId ∧ row.sha256 = sha := by
  obtain ⟨r, hr, hsha⟩ := hrow
  obtain ⟨hclaimed, htomb, hrows⟩ := h
  have hfind : ((byDoc server docId).find? fun r => r.sha256 = sha).isSome := by
    rw [find?_isSome]
    exact ⟨r, hr, by simpa using hsha⟩
  obtain ⟨row, hfind⟩ := Option.isSome_iff_exists.1 hfind
  have hmem := mem_of_find?_eq_some hfind
  have hfree : ¬ (docId ∈ (threeWay io ctx server files).claimedIds || ctx.isTombstoned docId) = true := by
    rw [Bool.or_eq_true, not_or, decide_eq_true_eq]
    refine ⟨fun hin => ?_, by rw [htomb]; exact Bool.false_ne_true⟩
    obtain ⟨a, ha, hunder, hid⟩ := mem_claimedIds.1 hin
    exact hclaimed a ha hunder hid
  have hgone : ¬ ((byDoc server docId).any fun r =>
      r.id ∈ (threeWay io ctx server files).consumed || onDisk io files r.relPath) = true := by
    intro hany
    obtain ⟨r', hr', hor⟩ := any_eq_true.1 hany
    obtain ⟨hdisk, hother⟩ := hrows r' hr'
    rw [hdisk, Bool.or_false, decide_eq_true_eq] at hor
    obtain ⟨a, ha, r'', hr'', heq⟩ := mem_consumed.1 hor
    exact hother a ha r'' hr'' heq
  refine ⟨row, mem_filterMap.2 ⟨docId, ?_, ?_⟩, ?_, ?_⟩
  · rw [docIds, mem_eraseDups]
    exact mem_map.2 ⟨row, (mem_filter.1 hmem).1, by simpa using (mem_filter.1 hmem).2⟩
  · rw [vacatedRow, if_neg hfree, if_neg hgone, hbase]
    exact hfind
  · simpa using (mem_filter.1 hmem).2
  · simpa using find?_some hfind

/-- **Moves.** A planned move is certain. -/
theorem certain_of_mem (h : m ∈ moves io ctx server files (threeWay io ctx server files)) :
    Certain io ctx server files m := by
  obtain ⟨sha, -, hpair⟩ := mem_filterMap.1 h
  obtain ⟨-, row, a, hrow, ha, rfl⟩ := pairUp_eq_some hpair
  obtain ⟨hin, hsha⟩ := mem_filter.1 (hrow ▸ mem_singleton_self row)
  have hsha : row.sha256 = sha := by simpa using hsha
  obtain ⟨hmem, hbase, hvacated, -⟩ := mem_vacated hin
  constructor
  · exact ⟨row, hmem, rfl, hsha⟩
  · exact hsha ▸ hbase
  · exact hvacated
  · intro docId hother hagreed hrows
    obtain ⟨row', hin', rfl, hsha'⟩ := vacated_complete hother hagreed hrows
    have hboth : row' ∈ (vacated io ctx server files (threeWay io ctx server files)).filter
        fun r => r.sha256 = sha := mem_filter.2 ⟨hin', by simpa using hsha'⟩
    rw [hrow, mem_singleton] at hboth
    rw [hboth]
  · refine ⟨a, ?_, rfl⟩
    rw [← ha, orphans_eq, filter_filter, filter_filter]
    apply filter_congr
    intro a' _
    rw [← isOrphan_iff]
    cases (decide₃ io ctx server a').isOrphan <;> cases isTransientPath io a'.relPath <;> simp

theorem moves_nodup : ((moves io ctx server files (threeWay io ctx server files)).map Move.docId).Nodup := by
  apply Nodup.map_on
  · intro m hm m' hm' heq
    obtain ⟨sha, -, hpair⟩ := mem_filterMap.1 hm
    obtain ⟨sha', -, hpair'⟩ := mem_filterMap.1 hm'
    -- one base for a document, hence one content
    have hbase := (certain_of_mem hm).agreed
    have hbase' := (certain_of_mem hm').agreed
    rw [heq, hbase'] at hbase
    have hsha := Option.some.inj hbase
    rw [(pairUp_eq_some hpair).1, (pairUp_eq_some hpair').1] at hsha
    subst hsha
    exact Option.some.inj (hpair.symm.trans hpair')
  · apply Nodup.filterMap
    · intro sha sha' m hm hm'
      rw [← (pairUp_eq_some hm).1, ← (pairUp_eq_some hm').1]
    · exact nodup_eraseDups _

theorem count_moves (p : Text) :
    ((moves io ctx server files (threeWay io ctx server files)).map Move.toPath).count p ≤
      files.countP fun a => a.relPath = p && (decide₃ io ctx server a).isOrphan := by
  refine (count_pairUp p (nodup_eraseDups _)).trans ?_
  rw [orphans_eq, countP_filter, countP_filter]
  apply countP_mono_left
  intro a _ h
  simp only [Bool.and_eq_true] at h ⊢
  exact ⟨h.1.1.1, h.2⟩

end

/-! ## The law -/

section

variable {io} {server : List (ServerBlob Sha Id)} {files : List (LocalAttachment Sha)}

theorem mem_plainUpload {ctx : Option (BinaryPlanContext Sha Id)} {decided : List Text} {a : LocalAttachment Sha}
    (h : plainUpload ctx server decided a = true) : a.relPath ∉ decided := by
  simpa using (Bool.and_eq_true_iff.1 h).1

theorem mem_plainDownload {consumed : List Id} {b : ServerBlob Sha Id}
    (h : plainDownload io files consumed b = true) :
    b.id ∉ consumed ∧ ∃ p, b.relPath = some p ∧ ∀ a ∈ files, pathKey io a.relPath ≠ pathKey io p := by
  unfold plainDownload at h
  simp only [Bool.and_eq_true] at h
  obtain ⟨⟨hid, -⟩, hpath⟩ := h
  refine ⟨by simpa using hid, ?_⟩
  obtain ⟨p, hp, hplace⟩ := (Option.any_eq_true _ _).1 hpath
  refine ⟨p, hp, fun a ha heq => ?_⟩
  have hdisk := (Bool.and_eq_true_iff.1 hplace).2
  rw [Bool.not_eq_true', ← Bool.not_eq_true] at hdisk
  exact hdisk (any_eq_true.2 ⟨a, ha, by simpa using heq⟩)

/-- a path that is decided is not uploaded besides -/
theorem once_of_plan (plan : BinaryPlan Sha Id) (decided : List Text) (ctx : Option (BinaryPlanContext Sha Id))
    (p : Text) (hin : p ∉ decided → plan.outcomes.count p = 0)
    (hle : plan.outcomes.count p ≤ (files.map LocalAttachment.relPath).count p) (down : List (ServerBlob Sha Id)) :
    ({ plan with
      toUpload := plan.toUpload ++ (files.filter (plainUpload ctx server decided)).map fun a => ⟨a, none⟩,
      toDownload := down } : BinaryPlan Sha Id).outcomes.count p ≤ (files.map LocalAttachment.relPath).count p := by
  have hmore : ({ plan with
      toUpload := plan.toUpload ++ (files.filter (plainUpload ctx server decided)).map fun a => ⟨a, none⟩,
      toDownload := down } : BinaryPlan Sha Id).outcomes.count p =
      plan.outcomes.count p +
        ((files.filter (plainUpload ctx server decided)).map LocalAttachment.relPath).count p := by
    have hnew : ∀ l : List (LocalAttachment Sha), ((l.map fun a => (⟨a, none⟩ : PlannedUpload Sha)).map
        fun u => u.file.relPath) = l.map LocalAttachment.relPath := by simp
    simp only [BinaryPlan.outcomes, map_append, hnew, count_append]
    omega
  rw [hmore]
  by_cases hp : p ∈ decided
  · have hnone : ((files.filter (plainUpload ctx server decided)).map LocalAttachment.relPath).count p = 0 := by
      apply count_eq_zero.2
      intro hmem
      obtain ⟨a, ha, rfl⟩ := mem_map.1 hmem
      exact mem_plainUpload (mem_filter.1 ha).2 hp
    omega
  · have hsub := (filter_sublist (l := files) (p := plainUpload ctx server decided)).map LocalAttachment.relPath
    have hcount := hsub.count_le p
    rw [hin hp]
    omega

theorem moves_decided {ctx : BinaryPlanContext Sha Id} {p : Text}
    (hp : p ∉ (withMoves io ctx server files (threeWay io ctx server files)).decided) :
    (withMoves io ctx server files (threeWay io ctx server files)).plan.outcomes.count p = 0 := by
  have hp : p ∉ (threeWay io ctx server files).decided ++
      (moves io ctx server files (threeWay io ctx server files)).map Move.toPath := hp
  rw [mem_append, not_or] at hp
  have hloop : (threeWay io ctx server files).plan.outcomes.count p = 0 := by
    rw [count_outcomes]
    apply countP_eq_zero.2
    intro a ha hdec
    rw [Bool.and_eq_true, decide_eq_true_eq] at hdec
    exact hp.1 (mem_decided.2 ⟨a, ha, hdec.2, hdec.1⟩)
  have hmoved := count_eq_zero.2 hp.2
  simp only [withMoves, BinaryPlan.outcomes, count_append, no_moves] at hloop ⊢
  omega

theorem moves_once {ctx : BinaryPlanContext Sha Id} (p : Text) :
    (withMoves io ctx server files (threeWay io ctx server files)).plan.outcomes.count p ≤
      (files.map LocalAttachment.relPath).count p := by
  have hloop : (threeWay io ctx server files).plan.outcomes.count p = _ := count_outcomes p
  have hmoved : ((moves io ctx server files (threeWay io ctx server files)).map Move.toPath).count p ≤ _ :=
    count_moves p
  -- a file is decided or an orphan, never both
  have hboth : (files.countP fun a => a.relPath = p && (decide₃ io ctx server a).decides) +
      (files.countP fun a => a.relPath = p && (decide₃ io ctx server a).isOrphan) ≤
      (files.map LocalAttachment.relPath).count p := by
    clear hloop hmoved
    induction files with
    | nil => simp
    | cons a as ih =>
      rw [countP_cons, countP_cons, map_cons, count_cons]
      by_cases hp : a.relPath = p
      · have hnot := (decide₃ io ctx server a).decides_or_isOrphan
        cases hdec : (decide₃ io ctx server a).decides <;> cases horph : (decide₃ io ctx server a).isOrphan <;>
          simp_all <;> omega
      · simp only [hp, decide_false, Bool.false_and, Bool.false_eq_true, if_false, beq_iff_eq]
        omega
  simp only [withMoves, BinaryPlan.outcomes, count_append, no_moves, map_nil, count_nil] at hloop ⊢
  omega

end

/-- **The plan.** For every listing, context and table of names: a file has no more outcomes than the listing has
entries for it, one is replaced without a copy only where its bytes are those last agreed on, trashed only where its id
is deleted and no row of the tree carries it, and moved only where the pairing is certain; a download meets no file of
the disk; and a row that is downloaded or moved is used for nothing else. -/
theorem plan_safe (files : List (LocalAttachment Sha)) (server : List (ServerBlob Sha Id))
    (ctx : Option (BinaryPlanContext Sha Id)) :
    PlanSafe io files server ctx (planBinarySync io files server ctx) := by
  cases ctx with
  | none =>
    constructor
    · intro p
      exact once_of_plan {} [] none p (fun _ => rfl) (Nat.zero_le _) _
    · exact fun r hr => (nomatch hr)
    · exact fun x hx => (nomatch hx)
    · exact fun m hm => (nomatch hm)
    · intro b hb
      exact (mem_plainDownload (mem_filter.1 hb).2).2
    · exact fun b _ c hc => (nomatch hc)
    · exact nodup_nil
  | some ctx =>
    constructor
    · intro p
      exact once_of_plan _ _ _ p moves_decided (moves_once p) _
    · intro r hr hcopy
      exact ⟨ctx, rfl, decide₃_replaces (mem_toReplace hr).2 hcopy⟩
    · intro x hx
      exact ⟨ctx, rfl, decide₃_trashes (mem_toTrash hx).2⟩
    · intro m hm
      exact ⟨ctx, rfl, certain_of_mem hm⟩
    · intro b hb
      exact (mem_plainDownload (mem_filter.1 hb).2).2
    · intro b hb c hc
      cases hc
      obtain ⟨hfree, -⟩ := mem_plainDownload (mem_filter.1 hb).2
      have hfree : b.id ∉ (threeWay io ctx server files).consumed ++
          ((moves io ctx server files (threeWay io ctx server files)).flatMap fun m =>
            byDoc server m.docId).map TreeRow.id := hfree
      rw [mem_append, not_or] at hfree
      constructor
      · intro a ha r hr heq
        exact hfree.1 (mem_consumed.2 ⟨a, ha, r, hr, heq⟩)
      · intro m hm r hr heq
        exact hfree.2 (mem_map.2 ⟨r, mem_flatMap.2 ⟨m, hm, hr⟩, heq⟩)
    · exact moves_nodup

/-! ## Runs on fixed inputs -/

/-- names as they are -/
def plainNames : Names where
  nfc := id
  toLowerCase := id
  surfacedBinary := fun _ => true

/-- this device knows `a.pdf` by document 7, which a teammate has renamed to `b.pdf`; here `b.pdf` is another file -/
def sharedFiles : List (LocalAttachment ℕ) := [⟨"a.pdf".toList, 1⟩, ⟨"b.pdf".toList, 2⟩]

def sharedServer : List (ServerBlob ℕ ℕ) := [⟨70, some 1, some "b.pdf".toList, some 7⟩]

def sharedContext : BinaryPlanContext ℕ ℕ where
  docIdFor := fun p => if p = "a.pdf".toList then some 7 else none
  baseFor := fun _ => none
  isTombstoned := fun _ => false

/-- **A shared row.** The row of document 7 agrees with one file and replaces another; a file whose id is deleted is
trashed while a row under `attachments/` carries the id. -/
theorem shared_rows :
    (planBinarySync plainNames sharedFiles sharedServer (some sharedContext)).agreed = [⟨"a.pdf".toList, 7, 1⟩] ∧
      (planBinarySync plainNames sharedFiles sharedServer (some sharedContext)).toReplace =
        [⟨⟨"b.pdf".toList, 2⟩, ⟨70, 1, "b.pdf".toList, 7⟩, true, .noBase⟩] ∧
      (planBinarySync plainNames [⟨"a.pdf".toList, 1⟩] [⟨70, some 1, some "attachments/a.pdf".toList, some 7⟩]
        (some { sharedContext with isTombstoned := fun _ => true })).toTrash = [(⟨"a.pdf".toList, 1⟩, 7)] := by
  decide +kernel

end Baalda.BinaryPlanner
