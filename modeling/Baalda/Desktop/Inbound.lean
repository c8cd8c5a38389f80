/-
Inbound structural reconciliation (`apps/desktop/src/lib/sync/inbound.ts`): the plan of what to change on disk because
the server's folders and notes moved.

`planInbound` reads what the server lists, its tombstones, the agreed baseline and what is on disk, and returns the
plan. It is translated loop by loop; a loop that only pushes is the list of what it pushes:
- folders: `createFolders`, and the three reasons for which a directory leaves (`movedFolders`, `deletedFolders`,
  `revokedFolders`);
- notes: `planNote` for every document of the baseline and of the listing, and every tombstoned document on disk;
- tree binaries: only those the server named on an authoritative pass;
- `applyBreakers`: the ceilings on what one pass may change.

A `Map` is the list of its entries, a `Set` the list of its elements. A path is the list of its characters; the two
string functions whose tables are not part of the program (`normalize("NFC")`, `toLowerCase`) are parameters.
-/
import Mathlib.Data.List.Sort
import Mathlib.Tactic

namespace Baalda.Inbound

open List

abbrev Path := List Char
abbrev DocId := ℕ
abbrev FolderId := ℕ

/-- the string functions that rest on the Unicode tables -/
structure Strings where
  normalize : Path → Path
  toLowerCase : Path → Path

/-- two vault paths with one key name the same file -/
def pathKey (S : Strings) (path : Path) : Path := S.toLowerCase (S.normalize path)

def samePath (S : Strings) (a b : Path) : Prop := a = b ∨ pathKey S a = pathKey S b

instance (S : Strings) (a b : Path) : Decidable (samePath S a b) :=
  inferInstanceAs (Decidable (a = b ∨ pathKey S a = pathKey S b))

/-- docId → path, in insertion order -/
abbrev PathsByDocId := List (DocId × Path)

def PathsByDocId.get (m : PathsByDocId) (docId : DocId) : Option Path := (m.find? (·.1 = docId)).map Prod.snd

def PathsByDocId.keys (m : PathsByDocId) : List DocId := m.map Prod.fst

def PathsByDocId.paths (m : PathsByDocId) : List Path := m.map Prod.snd

theorem PathsByDocId.mem_of_get {m : PathsByDocId} {docId : DocId} {path : Path} (h : m.get docId = some path) :
    (docId, path) ∈ m := by
  obtain ⟨e, he, rfl⟩ := Option.map_eq_some_iff.mp h
  have hid : e.1 = docId := of_decide_eq_true (find?_some he :)
  rw [← hid]
  exact mem_of_find?_eq_some he

theorem PathsByDocId.mem_keys_of_get {m : PathsByDocId} {docId : DocId} {path : Path} (h : m.get docId = some path) :
    docId ∈ m.keys :=
  mem_map_of_mem (mem_of_get h)

structure InboundInput where
  server : PathsByDocId
  /-- `none`: the server did not answer the question -/
  tombstones : Option (List DocId)
  baseline : PathsByDocId
  /-- `local` in the source -/
  localNotes : PathsByDocId
  serverFolders : List Path
  localFolders : List Path
  folderTombstones : Option (List FolderId)
  localFolderIds : Option (List (Path × FolderId))
  serverFolderIds : Option (List (FolderId × Path))
  authoritative : Bool
  authoritativeRevoked : Option (List DocId)
  localFiles : Option PathsByDocId

/-- `from` and `to` in the source -/
structure InboundRename where
  docId : DocId
  fromPath : Path
  toPath : Path
  deriving DecidableEq

inductive TrashReason where
  | deleted | revoked
  deriving DecidableEq

structure InboundTrash where
  docId : DocId
  path : Path
  reason : TrashReason
  binary : Bool := false
  deriving DecidableEq

inductive RejectionKind where
  | rename | trash | folder
  deriving DecidableEq

structure InboundRejection where
  kind : RejectionKind
  path : Path
  docId : Option DocId
  reason : String
  deriving DecidableEq

structure InboundPlan where
  createFolders : List Path := []
  removeFolders : List Path := []
  renames : List InboundRename := []
  trash : List InboundTrash := []
  suppress : List Path := []
  stubs : List Path := []
  releaseClaims : List DocId := []
  needsAccessCheck : List DocId := []
  rejected : List InboundRejection := []
  deriving DecidableEq

/-- `Set.add` -/
def setAdd {α : Type*} [DecidableEq α] (s : List α) (a : α) : List α := if a ∈ s then s else s ++ [a]

@[simp] theorem mem_setAdd {α : Type*} [DecidableEq α] {s : List α} {a b : α} : b ∈ setAdd s a ↔ b ∈ s ∨ b = a := by
  unfold setAdd
  split_ifs with h
  · constructor
    · exact .inl
    · rintro (hb | rfl)
      · exact hb
      · exact h
  · simp

/-! ## Path safety -/

def ignoredDirs : List Path := [".context".toList, ".git".toList]

def deniedDirs : List Path :=
  ["node_modules".toList, "dist".toList, "build".toList, "target".toList, "vendor".toList, "__pycache__".toList,
    "venv".toList]

def noteExts : List Path :=
  ["md".toList, "markdown".toList, "mdx".toList, "txt".toList, "html".toList, "htm".toList, "canvas".toList,
    "url".toList, "webloc".toList]

def maxSegmentBytes : ℕ := 255
def maxPathBytes : ℕ := 1024

/-- the `length` of a string: its UTF-16 code units -/
def utf16Length (s : Path) : ℕ := (s.map fun c => if c.toNat < 65536 then 1 else 2).sum

def backslash : Char := Char.ofNat 92

/-- `[\u0000-\u001f\u007f]` -/
def isControl (c : Char) : Bool := c.toNat ≤ 31 || c.toNat = 127

def segmentOk (seg : Path) : Bool :=
  if seg = [] ∨ seg = ['.'] ∨ seg = ['.', '.'] then false
  else if seg.head? = some '.' then false
  else if seg ∈ ignoredDirs ∨ seg ∈ deniedDirs then false
  else decide (utf16Length seg ≤ maxSegmentBytes)

def segmentsOk (path : Path) : Bool :=
  if path = [] ∨ maxPathBytes < utf16Length path then false
  else if path.head? = some '/' ∨ backslash ∈ path then false
  else if path.any isControl then false
  else (path.splitOn '/').all segmentOk

/-- what follows the last dot, unless there is no dot or it is the first character -/
def extension (path : Path) : Option Path :=
  match path.reverse.dropWhile (· ≠ '.') with
  | _ :: _ :: _ => some (path.reverse.takeWhile (· ≠ '.')).reverse
  | _ => none

def isSafeNotePath (S : Strings) (path : Path) : Bool :=
  segmentsOk path && match extension path with
    | none => false
    | some ext => decide (S.toLowerCase ext ∈ noteExts)

def isSafeTreeBinaryPath (S : Strings) (path : Path) : Bool :=
  segmentsOk path && match extension path with
    | none => false
    | some ext => decide (S.toLowerCase ext ∉ noteExts)

def isSafeFolderPath (path : Path) : Bool := segmentsOk path

/-! ## Circuit breakers -/

/-- `max(5, ⌈0.2 · mapped⌉)` -/
def trashCap (mapped : ℕ) : ℕ := max 5 ((mapped + 4) / 5)

/-- `max(20, ⌈0.5 · mapped⌉)` -/
def revokeCap (mapped : ℕ) : ℕ := max 20 ((mapped + 1) / 2)

/-- `max(20, ⌈0.3 · mapped⌉)` -/
def renameCap (mapped : ℕ) : ℕ := max 20 ((3 * mapped + 9) / 10)

def depth (path : Path) : ℕ := (path.splitOn '/').length

/-- parents before children -/
def sortParentsFirst (l : List Path) : List Path := l.insertionSort fun a b => depth a ≤ depth b

/-- children before parents -/
def sortChildrenFirst (l : List Path) : List Path := l.insertionSort fun a b => depth b ≤ depth a

@[simp] theorem mem_sortParentsFirst {l : List Path} {p : Path} : p ∈ sortParentsFirst l ↔ p ∈ l :=
  mem_insertionSort _

@[simp] theorem mem_sortChildrenFirst {l : List Path} {p : Path} : p ∈ sortChildrenFirst l ↔ p ∈ l :=
  mem_insertionSort _

/-! ## Folders -/

section folders

variable (S : Strings) (input : InboundInput)

def localFoldersCi : List Path := input.localFolders.map (pathKey S)

def serverFoldersCi : List Path := input.serverFolders.map (pathKey S)

/-- the server's folders that are not on disk -/
def missingFolders : List Path := input.serverFolders.filter fun path => pathKey S path ∉ localFoldersCi S input

/-- on disk, and not listed by the server under any spelling -/
def onlyLocal (path : Path) : Prop := pathKey S path ∈ localFoldersCi S input ∧ pathKey S path ∉ serverFoldersCi S input

instance (path : Path) : Decidable (onlyLocal S input path) :=
  inferInstanceAs (Decidable (_ ∧ _))

/-- `input.serverFolderIds?.get(id)` -/
def serverPathOf (ids : List (FolderId × Path)) (id : FolderId) : Option Path := (ids.find? (·.1 = id)).map Prod.snd

/-- the recorded id lives at another path now -/
def movedFolders : List Path :=
  match input.serverFolderIds, input.localFolderIds with
  | some serverIds, some localIds =>
    (localIds.filter fun (path, id) =>
      match serverPathOf serverIds id with
      | none => false
      | some now => ¬samePath S now path ∧ onlyLocal S input path ∧ isSafeFolderPath path).map Prod.fst
  | _, _ => []

/-- the recorded id is tombstoned -/
def tombstonedFolders : List Path :=
  match input.folderTombstones, input.localFolderIds with
  | some dead, some localIds =>
    (localIds.filter fun (path, id) => id ∈ dead ∧ onlyLocal S input path).map Prod.fst
  | _, _ => []

/-- the recorded id is neither listed nor tombstoned -/
def unlistedFolders : List Path :=
  match input.folderTombstones, input.serverFolderIds, input.localFolderIds with
  | some dead, some serverIds, some localIds =>
    (localIds.filter fun (path, id) =>
      serverPathOf serverIds id = none ∧ id ∉ dead ∧ onlyLocal S input path).map Prod.fst
  | _, _, _ => []

def revokedFolders : List Path := (unlistedFolders S input).filter isSafeFolderPath

def recordedFolders : ℕ := (input.localFolderIds.getD []).length

/-- more folders left the visible set in this pass than the limit allows -/
def folderCapBlown : Prop :=
  input.authoritative = false ∧ revokeCap (recordedFolders input) < (revokedFolders S input).length

instance : Decidable (folderCapBlown S input) := inferInstanceAs (Decidable (_ ∧ _))

def folderRejection (path : Path) (reason : String) : InboundRejection :=
  { kind := .folder, path := path, docId := none, reason := reason }

def folderCapReason (n cap : ℕ) : String :=
  "refused: " ++ toString n ++ " folder access removals in one pass exceeds the " ++ toString cap ++ " safety limit"

def planFolders : InboundPlan :=
  let created := (missingFolders S input).filter isSafeFolderPath
  let deleted := (tombstonedFolders S input).filter isSafeFolderPath
  let revoked := revokedFolders S input
  let blown := decide (folderCapBlown S input)
  { createFolders := sortParentsFirst created
    removeFolders := sortChildrenFirst (movedFolders S input ++ deleted ++ if blown then [] else revoked)
    rejected :=
      ((missingFolders S input).filter (!isSafeFolderPath ·)).map (folderRejection · "unsafe folder path from server")
        ++ ((tombstonedFolders S input).filter (!isSafeFolderPath ·)).map (folderRejection · "unsafe local folder path")
        ++ ((unlistedFolders S input).filter (!isSafeFolderPath ·)).map (folderRejection · "unsafe local folder path")
        ++ if blown then
            revoked.map (folderRejection · (folderCapReason revoked.length (revokeCap (recordedFolders input))))
          else [] }

end folders

/-! ## Notes -/

def occupiedReason (fromPath toPath : Path) : String :=
  "the server moved this note to " ++ String.ofList toPath ++
    ", but another note already occupies that path, so it was left at " ++ String.ofList fromPath

def pushRename (S : Strings) (localPaths : List Path) (docId : DocId) (fromPath toPath : Path) (plan : InboundPlan) :
    InboundPlan :=
  if fromPath = toPath then plan
  else if isSafeNotePath S toPath = false then
    { plan with
      rejected := plan.rejected ++
        [{ kind := .rename, path := toPath, docId := some docId, reason := "unsafe path from server" }] }
  else if pathKey S toPath ∈ localPaths then
    { plan with
      rejected := plan.rejected ++
        [{ kind := .rename, path := toPath, docId := some docId, reason := occupiedReason fromPath toPath }] }
  else { plan with renames := plan.renames ++ [{ docId := docId, fromPath := fromPath, toPath := toPath }] }

/-- the path is one the planner is willing to remove -/
def isSafeRemoval (S : Strings) (t : InboundTrash) : Bool :=
  if t.binary then isSafeTreeBinaryPath S t.path else isSafeNotePath S t.path

def pushTrash (S : Strings) (t : InboundTrash) (plan : InboundPlan) : InboundPlan :=
  if isSafeRemoval S t = false then
    { plan with
      rejected := plan.rejected ++
        [{ kind := .trash, path := t.path, docId := some t.docId, reason := "unsafe local path" }] }
  else { plan with trash := plan.trash ++ [t] }

def suppressPath (path : Path) (plan : InboundPlan) : InboundPlan :=
  { plan with suppress := setAdd plan.suppress path }

section notes

variable (S : Strings) (input : InboundInput)

def dead (docId : DocId) : Bool := match input.tombstones with
  | none => false
  | some ids => decide (docId ∈ ids)

/-- every note path on disk -/
def localPaths : List Path := input.localNotes.paths.map (pathKey S)

/-- the paths on disk held by a document the server lists live at that same path -/
def livePaths : List Path :=
  (input.localNotes.filter fun (docId, path) =>
    match input.server.get docId with
    | none => false
    | some srv => samePath S srv path).map fun e => pathKey S e.2

/-- the documents the loop visits -/
def docIds : List DocId :=
  (input.baseline.keys ++ input.server.keys ++ input.localNotes.keys.filter (dead input ·)).eraseDups

/-- a document the server lists at `srv` -/
def planListed (docId : DocId) (srv : Path) (plan : InboundPlan) : InboundPlan :=
  match input.localNotes.get docId with
  | none => plan
  | some loc =>
    if samePath S loc srv then plan
    else match input.baseline.get docId with
      | none => plan
      | some prev =>
        -- moved by the server alone, or on both sides: the server wins; moved here alone: the outbound half's work
        if samePath S loc prev then pushRename S (localPaths S input) docId loc srv plan
        else if samePath S srv prev then plan
        else pushRename S (localPaths S input) docId loc srv plan

/-- a tombstoned document with a baseline at `prev` -/
def planDead (docId : DocId) (prev : Path) (plan : InboundPlan) : InboundPlan :=
  match input.localNotes.get docId with
  | none =>
    if pathKey S prev ∈ livePaths S input then { plan with releaseClaims := plan.releaseClaims ++ [docId] }
    else if pathKey S prev ∈ localPaths S input then
      { suppressPath prev plan with stubs := plan.stubs ++ [prev] }
    else plan
  | some loc => pushTrash S { docId := docId, path := loc, reason := .deleted } (suppressPath loc plan)

/-- a document absent from both of the server's lists -/
def planRevoked (docId : DocId) (plan : InboundPlan) : InboundPlan :=
  match input.localNotes.get docId with
  | none => plan
  | some loc =>
    if input.tombstones.isSome then
      pushTrash S { docId := docId, path := loc, reason := .revoked } (suppressPath loc plan)
    else suppressPath loc plan

/-- a document gone from the server's listing that no baseline claims -/
def planUnclaimed (docId : DocId) (plan : InboundPlan) : InboundPlan :=
  match input.localNotes.get docId with
  | none => plan
  | some loc =>
    if dead input docId then pushTrash S { docId := docId, path := loc, reason := .deleted } (suppressPath loc plan)
    else plan

/-- one turn of the loop over the documents -/
def planNote (plan : InboundPlan) (docId : DocId) : InboundPlan :=
  match input.server.get docId with
  | some srv => planListed S input docId srv plan
  | none =>
    match input.baseline.get docId with
    | none => planUnclaimed S input docId plan
    | some prev => if dead input docId then planDead S input docId prev plan else planRevoked S input docId plan

def planNotes (plan : InboundPlan) : InboundPlan := (docIds input).foldl (planNote S input) plan

/-- the tree binaries the server named as no longer readable -/
def namedFiles : PathsByDocId :=
  match input.authoritative, input.authoritativeRevoked, input.localFiles with
  | true, some named, some files => files.filter fun e => e.1 ∈ named
  | _, _, _ => []

def planBinary (plan : InboundPlan) (file : DocId × Path) : InboundPlan :=
  pushTrash S { docId := file.1, path := file.2, reason := .revoked, binary := true } plan

def planBinaries (plan : InboundPlan) : InboundPlan := (namedFiles input).foldl (planBinary S) plan

def sortTrash (plan : InboundPlan) : InboundPlan :=
  { plan with trash := plan.trash.insertionSort fun a b => depth b.path ≤ depth a.path }

/-- the plan as the loops leave it, before the breakers -/
def planned : InboundPlan := sortTrash (planBinaries S input (planNotes S input (planFolders S input)))

end notes

/-! ## The breakers -/

/-- the removals an authoritative pass lifts out of the revocation budget -/
def exempt (input : InboundInput) (t : InboundTrash) : Bool :=
  input.authoritative && decide (t.reason = .revoked) && match input.authoritativeRevoked with
    | none => true
    | some named => decide (t.docId ∈ named)

/-- the removals for one reason that a cap measures -/
def capGroup (input : InboundInput) (reason : TrashReason) (trash : List InboundTrash) : List InboundTrash :=
  trash.filter fun t => t.reason = reason ∧ exempt input t = false

def trashCapReason (n : ℕ) (label : String) (cap : ℕ) : String :=
  "refused: " ++ toString n ++ " " ++ label ++ " in one pass exceeds the " ++ toString cap ++ " safety limit"

def trashRefusal (reason : String) (t : InboundTrash) : InboundRejection :=
  { kind := .trash, path := t.path, docId := some t.docId, reason := reason }

/-- over the line, the whole group is refused -/
def capTrash (input : InboundInput) (reason : TrashReason) (cap : ℕ) (label : String) (plan : InboundPlan) :
    InboundPlan :=
  let group := capGroup input reason plan.trash
  if group.length ≤ cap then plan
  else
    { plan with
      rejected := plan.rejected ++ group.map (trashRefusal (trashCapReason group.length label cap))
      trash := plan.trash.filter (· ∉ group) }

def revokedTrash (trash : List InboundTrash) : List InboundTrash := trash.filter (·.reason = .revoked)

/-- which of the removals that are left owe a second opinion: all revoked ones if the group as planned was over its cap,
and every binary -/
def secondOpinion (allRevoked mapped : ℕ) (plan : InboundPlan) : InboundPlan :=
  let owed := if revokeCap mapped < allRevoked then (revokedTrash plan.trash).map InboundTrash.docId
    else plan.needsAccessCheck
  { plan with
    needsAccessCheck :=
      (plan.trash.filter fun t => t.binary ∧ t.reason = .revoked).foldl (fun s t => setAdd s t.docId) owed.eraseDups }

def renameCapReason (n cap : ℕ) : String :=
  "refused: " ++ toString n ++ " moves in one pass exceeds the " ++ toString cap ++ " safety limit"

def capRenames (mapped : ℕ) (plan : InboundPlan) : InboundPlan :=
  if plan.renames.length ≤ renameCap mapped then plan
  else
    { plan with
      rejected := plan.rejected ++ plan.renames.map fun r =>
        { kind := .rename, path := r.toPath, docId := some r.docId,
          reason := renameCapReason plan.renames.length (renameCap mapped) }
      renames := [] }

def applyBreakers (input : InboundInput) (plan : InboundPlan) : InboundPlan :=
  let mapped := input.baseline.length
  let allRevoked := (revokedTrash plan.trash).length
  let plan := capTrash input .deleted (trashCap mapped) "deletions" plan
  let plan := capTrash input .revoked (revokeCap mapped) "access removals" plan
  capRenames mapped (secondOpinion allRevoked mapped plan)

def planInbound (S : Strings) (input : InboundInput) : InboundPlan := applyBreakers input (planned S input)

end Baalda.Inbound
