/-
Installing a published skill, and the scan that reports what is installed.

- `stage`: the version's files in a fresh folder, its marker last, and the walk that verifies it; `installSkill`: the
  whole of `install_skill` over any root; `scanRoot`: what a scan says of each folder of a root.
- `Staged`: which files and folders the staging folder holds after some of the files. `stageFiles_iff`: they can all be
  written just when no path is a folder of another.
`installed_iff_installable`: over an empty root a published version answers `Installed`, and the scan reports it as
managed with no edited files, just when its paths are `Installable` and its marker's JSON is not too long. The server
publishes three kinds of path for which the device does not agree with it (`skill_refused`).

A hash, `to_lowercase` and the JSON of a marker are parameters. The file system keeps names as they are given and fails
only where a file stands in a folder's place or a folder in a file's; the renames that swap the staged folder in are one
step.
-/
import Baalda.Desktop.SkillFolder

namespace Baalda.SkillInstall

open List

open SkillRules (Text Bytes Publishable)

local instance : LawfulBEq Text := inferInstance

def MAX_MARKER_BYTES : ℕ := 1048576

structure SkillMarker where
  skillId : Text
  orgId : Text
  serverUrl : Text
  /-- nothing in markers from before the field existed -/
  userId : Option Text
  name : Text
  version : UInt32
  bundleSha256 : Text
  files : OrdMap Text Text
  installedAt : Text
  deriving DecidableEq

structure SkillOwner where
  skillId : Text
  orgId : Text
  serverUrl : Text
  userId : Text
  deriving DecidableEq

inductive InstalledStatus where
  | managed
  | edited
  | unmanaged
  deriving DecidableEq

structure InstalledSkill where
  name : Text
  status : InstalledStatus
  marker : Option SkillMarker
  editedFiles : List Text
  deriving DecidableEq

inductive InstallStatus where
  | installed
  | unchanged
  | conflict
  | edited
  | adopted
  deriving DecidableEq

structure InstallOutcome where
  status : InstallStatus
  backupPath : Option Text
  detail : Option String
  deriving DecidableEq

def installOutcome (status : InstallStatus) (detail : Option String) : InstallOutcome := ⟨status, none, detail⟩

/-- the moment of an install, as the marker and as a backup's name write it -/
structure Now where
  rfc3339 : Text
  backupStamp : Text

/-- what stands directly in a root -/
inductive Entry where
  | folder (folder : Folder)
  | file
  | symlink

/-- a target root, which may be missing, and the backups beside it -/
structure Disk where
  root : Option (OrdMap Text Entry)
  backups : OrdMap Text Folder

def Disk.entry (disk : Disk) (name : Text) : Option Entry := disk.root.bind (·.get? name)

variable (sha256 : Bytes → Text) (lower : Text → Text)
variable (toJson : SkillMarker → Bytes) (fromJson : Bytes → Option SkillMarker)

/-! ## Markers -/

def readMarker (dir : Folder) : Option SkillMarker :=
  match dir.get? [MARKER] with
  | some (.file bytes _) => if MAX_MARKER_BYTES < bytes.length then none else fromJson bytes
  | _ => none

/-- a folder is ours only when its marker parses and names this folder -/
def managedMarker (dir : Folder) (name : Text) : Option SkillMarker := (readMarker fromJson dir).filter (·.name = name)

def sameOwner (marker : SkillMarker) (owner : SkillOwner) : Bool :=
  marker.skillId = owner.skillId && marker.orgId = owner.orgId && marker.serverUrl = owner.serverUrl &&
    marker.userId.all (· = owner.userId)

def ownerOf (marker : SkillMarker) : Option SkillOwner :=
  match marker.userId with
  | some userId =>
    if userId ≠ [] ∧ marker.skillId ≠ [] ∧ marker.orgId ≠ [] ∧ marker.serverUrl ≠ [] then
      some ⟨marker.skillId, marker.orgId, marker.serverUrl, userId⟩
    else none
  | none => none

/-! ## Scan -/

def scanFolder (name : Text) (dir : Folder) : InstalledSkill :=
  match managedMarker fromJson dir name with
  | none => ⟨name, .unmanaged, none, []⟩
  | some marker =>
    let edited := driftedFiles sha256 dir marker.files
    ⟨name, if edited = [] then .managed else .edited, some marker, edited⟩

def scanEntry (e : Text × Entry) : Option InstalledSkill :=
  if e.1.head? = some '.' then none
  else
    match e.2 with
    | .symlink => some ⟨e.1, .unmanaged, none, []⟩
    | .file => none
    | .folder dir => some (scanFolder sha256 fromJson e.1 dir)

/-- a missing root has nothing installed -/
def scanRoot (disk : Disk) : List InstalledSkill :=
  match disk.root with
  | none => []
  | some root => root.entries.filterMap (scanEntry sha256 fromJson)

/-! ## Install -/

def stageFile (staging : Folder) (d : Decoded) : AppResult Folder :=
  match writeAtomicFsync staging (joinRel d.rel) d.bytes with
  | .error e => .error e
  | .ok staging => setMode staging (joinRel d.rel) d.executable

def stageFiles (staging : Folder) : List Decoded → AppResult Folder
  | [] => .ok staging
  | d :: rest =>
    match stageFile staging d with
    | .error e => .error e
    | .ok staging => stageFiles staging rest

/-- the marker goes last: a staging folder without one is never taken for ours -/
def stage (decoded : List Decoded) (marker : SkillMarker) : AppResult Folder :=
  match stageFiles OrdMap.empty decoded with
  | .error e => .error e
  | .ok staging =>
    match writeAtomicFsync staging [MARKER] (toJson marker) with
    | .error e => .error e
    | .ok staging =>
      let drift := driftedFiles sha256 staging marker.files
      if drift ≠ [] then
        .error (.new ("staged skill did not verify: ".toList ++ intercalate ", ".toList drift))
      else .ok staging

/-- the staged folder under the skill's name, whatever stood there -/
def swapIn (disk : Disk) (name : Text) (staging : Folder) : Disk :=
  { disk with root := some ((disk.root.getD OrdMap.empty).insert name (.folder staging)) }

def finishInstall (disk : Disk) (name : Text) (decoded : List Decoded) (marker : SkillMarker) (now : Now)
    (backupPath : Option Text) : AppResult InstallOutcome × Disk :=
  match stage sha256 toJson decoded { marker with installedAt := now.rfc3339 } with
  | .error e => (.error e, disk)
  | .ok staging => (.ok ⟨.installed, backupPath, none⟩, swapIn disk name staging)

/-- the first free name for a backup -/
def backupName (backups : OrdMap Text Folder) (name : Text) (now : Now) : Text :=
  let base := name ++ ['-'] ++ now.backupStamp
  let numbered := (range backups.entries.length).map fun n => base ++ ['-'] ++ (Nat.repr (n + 2)).toList
  ((base :: numbered).find? fun dest => dest ∉ backups.keys).getD base

def notSymlink (n : Node) : Bool := n ≠ .symlink

/-- a copy of a folder among the backups, its links left out -/
def backupDir (disk : Disk) (dir : Folder) (name : Text) (now : Now) : Text × Disk :=
  let dest := backupName disk.backups name now
  let copied : Folder := ⟨dir.entries.filter fun e => notSymlink e.2, dir.sorted.filter _⟩
  (dest, { disk with backups := disk.backups.insert dest copied })

/-- what an upload leaves out: every dotted name, and some folders -/
def skippedName (name : Text) (isDir : Bool) : Bool := name.head? = some '.' || (isDir && name ∈ SKIP_DIRS)

def readEntries (seen : List Text) (out : OrdMap Text Text) : List (Rel × Node) → Option (OrdMap Text Text)
  | [] => some out
  | (_, .symlink) :: _ => none
  | (_, .dir) :: rest => readEntries seen out rest
  | (p, .file bytes _) :: rest =>
    match validateRelPath (relString p) with
    | .error _ => readEntries seen out rest
    | .ok () =>
      if lower (relString p) ∈ seen then readEntries seen out rest
      else if MAX_FILES ≤ out.entries.length then none
      else readEntries (lower (relString p) :: seen) (out.insert (relString p) (sha256 bytes)) rest

/-- a folder's files as an upload would read them; nothing when it holds what an upload refuses -/
def folderAsRead (dir : Folder) : Option (OrdMap Text Text) :=
  readEntries sha256 lower [] OrdMap.empty (walk skippedName dir)

/-- over a folder that is there -/
def installOver (disk : Disk) (dir : Folder) (owner : SkillOwner) (name : Text) (decoded : List Decoded)
    (marker : SkillMarker) (force replaceUnmanaged : Bool) (now : Now) : AppResult InstallOutcome × Disk :=
  let replace : AppResult InstallOutcome × Disk :=
    let (saved, disk) := backupDir disk dir name now
    finishInstall sha256 toJson disk name decoded marker now (some saved)
  let raw := readMarker fromJson dir
  -- any marker naming another owner wins, even one copied under another name
  if raw.any fun m => !sameOwner m owner then
    if replaceUnmanaged then replace else (.ok (installOutcome .conflict (some "other_owner")), disk)
  else
    match raw.filter (·.name = name) with
    | none =>
      if folderAsRead sha256 lower dir = some marker.files then
        match writeAtomicFsync dir [MARKER] (toJson { marker with installedAt := now.rfc3339 }) with
        | .error e => (.error e, disk)
        | .ok dir => (.ok (installOutcome .adopted none), swapIn disk name dir)
      else if replaceUnmanaged then replace
      else (.ok (installOutcome .conflict (some "unmanaged")), disk)
    | some old =>
      if driftedFiles sha256 dir old.files = [] then
        if old.bundleSha256 = marker.bundleSha256 ∧ old.version = marker.version ∧ old.files = marker.files then
          (.ok (installOutcome .unchanged none), disk)
        else finishInstall sha256 toJson disk name decoded marker now none
      else if force then replace
      else (.ok (installOutcome .edited none), disk)

def installSkill (disk : Disk) (name : Text) (marker : SkillMarker) (files : List SkillFilePayload)
    (force replaceUnmanaged : Bool) (now : Now) : AppResult InstallOutcome × Disk :=
  match validateName name with
  | .error e => (.error e, disk)
  | .ok () =>
    if marker.name ≠ name then (.error (.new "marker name does not match the skill name".toList), disk)
    else
      match ownerOf marker with
      | none => (.error (.new "marker is missing its owner".toList), disk)
      | some owner =>
        match decodePayloads sha256 lower files with
        | .error e => (.error e, disk)
        | .ok decoded =>
          if OrdMap.ofList (decoded.map fun d => (d.rel, d.sha)) ≠ marker.files then
            (.error (.new "marker files do not match the payload".toList), disk)
          else
            match disk.entry name with
            | some (.folder dir) =>
              installOver sha256 lower toJson fromJson disk dir owner name decoded marker force replaceUnmanaged now
            | some _ => (.ok (installOutcome .conflict (some "unmanaged")), disk)
            | none =>
              finishInstall sha256 toJson { disk with root := some (disk.root.getD OrdMap.empty) } name decoded marker
                now none

/-! ## The staging folder -/

/-- neither path is the other or lies in a folder of its name -/
def Apart (d d' : Decoded) : Prop := ¬ joinRel d.rel <+: joinRel d'.rel ∧ ¬ joinRel d'.rel <+: joinRel d.rel

/-- **The staging folder after some of the files.** It holds their files, the folders above them, and nothing else. -/
structure Staged (done : List Decoded) (folder : Folder) : Prop where
  file : ∀ p bytes x, folder.get? p = some (.file bytes x) ↔
    ∃ d ∈ done, joinRel d.rel = p ∧ d.bytes = bytes ∧ d.executable = x
  dir : ∀ p, folder.get? p = some .dir ↔ p ≠ [] ∧ ∃ d ∈ done, p <+: joinRel d.rel ∧ p ≠ joinRel d.rel
  nolink : ∀ p, folder.get? p ≠ some .symlink

section Staging

variable {done rest : List Decoded} {d : Decoded} {folder folder' mid : Folder} {p : Rel}

theorem joinRel_ne_nil (rel : Text) : joinRel rel ≠ [] := splitOn_ne_nil _ _

theorem prefix_dropLast {q : Rel} (hq : q ≠ []) : p <+: q.dropLast ↔ p <+: q ∧ p ≠ q := by
  obtain ⟨l, a, rfl⟩ := (eq_nil_or_concat' q).resolve_left hq
  rw [dropLast_concat, prefix_concat_iff]
  constructor
  · intro h
    refine ⟨.inr h, ?_⟩
    rintro rfl
    exact absurd h.length_le (by simp)
  · rintro ⟨h | h, hne⟩
    · exact absurd h hne
    · exact h

/-- what writing one file does: the folders above it, then the file -/
theorem stageFile_ok (h : stageFile folder d = .ok folder') :
    ∃ mid, createDirAll folder [] (joinRel d.rel).dropLast = .ok mid ∧ mid.get? (joinRel d.rel) ≠ some .dir ∧
      ∀ p, folder'.get? p = if p = joinRel d.rel then some (.file d.bytes d.executable) else mid.get? p := by
  rw [stageFile, writeAtomicFsync] at h
  split at h
  next => cases h
  next written hwritten =>
    split at hwritten
    next => cases hwritten
    next mid hmid =>
      split at hwritten
      next => cases hwritten
      next hne =>
        cases hwritten
        rw [setMode, OrdMap.get?_insert, if_pos rfl] at h
        cases h
        refine ⟨mid, hmid, hne, ?_⟩
        intro p
        rw [OrdMap.get?_insert, OrdMap.get?_insert]
        split <;> rfl

theorem stageFile_of (hmid : createDirAll folder [] (joinRel d.rel).dropLast = .ok mid)
    (hne : mid.get? (joinRel d.rel) ≠ some .dir) : ∃ folder', stageFile folder d = .ok folder' := by
  refine ⟨(mid.insert (joinRel d.rel) (.file d.bytes false)).insert (joinRel d.rel) (.file d.bytes d.executable), ?_⟩
  have hwritten : writeAtomicFsync folder (joinRel d.rel) d.bytes =
      .ok (mid.insert (joinRel d.rel) (.file d.bytes false)) := by
    rw [writeAtomicFsync, hmid]
    dsimp only
    split
    next hdir => exact absurd hdir hne
    next => rfl
  rw [stageFile, hwritten]
  dsimp only
  rw [setMode, OrdMap.get?_insert, if_pos rfl]

/-- after the folders above a file are made, its own place is as it was -/
theorem mid_self (hmid : createDirAll folder [] (joinRel d.rel).dropLast = .ok mid) :
    mid.get? (joinRel d.rel) = folder.get? (joinRel d.rel) := by
  apply (createDirAll_get hmid).2
  intro r _ hr heq
  exact ((prefix_dropLast (joinRel_ne_nil _)).1 hr).2 heq.symm

/-- **One file.** It can be written just when it is apart from those already there. -/
theorem Staged.writes_iff (hs : Staged done folder) (hfresh : ∀ d' ∈ done, joinRel d'.rel ≠ joinRel d.rel) :
    (∃ folder', stageFile folder d = .ok folder') ↔ ∀ d' ∈ done, Apart d' d := by
  constructor
  · rintro ⟨folder', h⟩ d' hd'
    obtain ⟨mid, hmid, hne, _⟩ := stageFile_ok h
    constructor
    · intro hpre
      have hfree := createDirAll_free hmid _ (joinRel_ne_nil d'.rel)
        ((prefix_dropLast (joinRel_ne_nil _)).2 ⟨hpre, hfresh d' hd'⟩)
      have hfile := (hs.file (joinRel d'.rel) _ _).2 ⟨d', hd', rfl, rfl, rfl⟩
      rw [nil_append, hfile] at hfree
      rcases hfree with hfree | hfree
      · cases hfree
      · cases hfree
    · intro hpre
      apply hne
      rw [mid_self hmid, hs.dir]
      exact ⟨joinRel_ne_nil _, d', hd', hpre, (hfresh d' hd').symm⟩
  · intro hapart
    have hfree : ∀ r, r ≠ [] → r <+: (joinRel d.rel).dropLast →
        folder.get? ([] ++ r) = none ∨ folder.get? ([] ++ r) = some .dir := by
      intro r _ hr
      rw [nil_append]
      cases hget : folder.get? r with
      | none => exact .inl rfl
      | some n =>
        cases n with
        | dir => exact .inr rfl
        | symlink => exact absurd hget (hs.nolink r)
        | file bytes x =>
          obtain ⟨d', hd', rfl, _⟩ := (hs.file r _ _).1 hget
          exact absurd ((prefix_dropLast (joinRel_ne_nil _)).1 hr).1 (hapart d' hd').1
    obtain ⟨mid, hmid⟩ := createDirAll_ok hfree
    apply stageFile_of hmid
    rw [mid_self hmid]
    intro hdir
    obtain ⟨_, d', hd', hpre, _⟩ := (hs.dir _).1 hdir
    exact (hapart d' hd').2 hpre

/-- **Step.** Writing a file that is apart from the others stages it beside them. -/
theorem Staged.snoc (hs : Staged done folder) (hapart : ∀ d' ∈ done, Apart d' d)
    (h : stageFile folder d = .ok folder') : Staged (done ++ [d]) folder' := by
  obtain ⟨mid, hmid, _, hget⟩ := stageFile_ok h
  obtain ⟨hmade, hkept⟩ := createDirAll_get hmid
  have hpre : ∀ {r : Rel}, r <+: (joinRel d.rel).dropLast ↔ r <+: joinRel d.rel ∧ r ≠ joinRel d.rel :=
    prefix_dropLast (joinRel_ne_nil _)
  -- the three kinds of place: the file's own, a folder above it, any other
  have hself : folder'.get? (joinRel d.rel) = some (.file d.bytes d.executable) := by rw [hget, if_pos rfl]
  have habove : ∀ p, p ≠ [] → p <+: joinRel d.rel → p ≠ joinRel d.rel → folder'.get? p = some .dir := by
    intro p hp0 hp hne
    rw [hget, if_neg hne]
    exact hmade p hp0 (hpre.2 ⟨hp, hne⟩)
  have hother : ∀ p, p ≠ joinRel d.rel → ¬ (p ≠ [] ∧ p <+: joinRel d.rel) → folder'.get? p = folder.get? p := by
    intro p hne hno
    rw [hget, if_neg hne]
    apply hkept
    rintro r hr0 hr rfl
    exact hno ⟨hr0, (hpre.1 hr).1⟩
  refine ⟨?_, ?_, ?_⟩
  · intro p bytes x
    simp only [mem_append, mem_singleton, or_and_right, exists_or, exists_eq_left]
    by_cases hp : p = joinRel d.rel
    · subst hp
      rw [hself]
      constructor
      · intro heq
        cases heq
        exact .inr ⟨rfl, rfl, rfl⟩
      · rintro (⟨d', hd', heq, _⟩ | ⟨_, rfl, rfl⟩)
        · exact absurd (heq ▸ prefix_rfl) (hapart d' hd').1
        · rfl
    · by_cases hin : p ≠ [] ∧ p <+: joinRel d.rel
      · rw [habove p hin.1 hin.2 hp]
        constructor
        · intro heq
          cases heq
        · rintro (⟨d', hd', rfl, _⟩ | ⟨heq, _⟩)
          · exact absurd hin.2 (hapart d' hd').1
          · exact absurd heq.symm hp
      · rw [hother p hp hin, hs.file]
        constructor
        · exact .inl
        · rintro (hd | ⟨heq, _⟩)
          · exact hd
          · exact absurd heq.symm hp
  · intro p
    simp only [mem_append, mem_singleton, or_and_right, exists_or, exists_eq_left]
    by_cases hp : p = joinRel d.rel
    · subst hp
      rw [hself]
      constructor
      · intro heq
        cases heq
      · rintro ⟨_, ⟨d', hd', hpre', _⟩ | ⟨_, hne⟩⟩
        · exact absurd hpre' (hapart d' hd').2
        · exact absurd rfl hne
    · by_cases hin : p ≠ [] ∧ p <+: joinRel d.rel
      · rw [habove p hin.1 hin.2 hp]
        exact ⟨fun _ => ⟨hin.1, .inr ⟨hin.2, hp⟩⟩, fun _ => rfl⟩
      · rw [hother p hp hin, hs.dir]
        constructor
        · rintro ⟨h0, hd⟩
          exact ⟨h0, .inl hd⟩
        · rintro ⟨h0, hd | hd⟩
          · exact ⟨h0, hd⟩
          · exact absurd ⟨h0, hd.1⟩ hin
  · intro p
    by_cases hp : p = joinRel d.rel
    · rw [hp, hself]
      exact fun heq => nomatch heq
    · by_cases hin : p ≠ [] ∧ p <+: joinRel d.rel
      · rw [habove p hin.1 hin.2 hp]
        exact fun heq => nomatch heq
      · rw [hother p hp hin]
        exact hs.nolink p

theorem Staged.empty : Staged [] OrdMap.empty := by
  refine ⟨?_, ?_, fun p h => nomatch h⟩
  · intro p bytes x
    exact ⟨fun h => (nomatch h), fun ⟨d, hd, _⟩ => absurd hd not_mem_nil⟩
  · intro p
    exact ⟨fun h => (nomatch h), fun ⟨_, d, hd, _⟩ => absurd hd not_mem_nil⟩

/-- **Run.** If all files are written they are pairwise apart, and staged. -/
theorem stageFiles_ok (hs : Staged done folder) (hdone : done.Pairwise Apart)
    (hnodup : ((done ++ rest).map (·.rel)).Nodup) (h : stageFiles folder rest = .ok folder') :
    (done ++ rest).Pairwise Apart ∧ Staged (done ++ rest) folder' := by
  induction rest generalizing done folder with
  | nil =>
    cases h
    rw [append_nil]
    exact ⟨hdone, hs⟩
  | cons d rest ih =>
    rw [stageFiles] at h
    split at h
    next => cases h
    next next hnext =>
      have hfresh : ∀ d' ∈ done, joinRel d'.rel ≠ joinRel d.rel := by
        intro d' hd' heq
        rw [map_append, nodup_append] at hnodup
        exact hnodup.2.2 _ (mem_map_of_mem hd') _ mem_cons_self (joinRel_inj heq)
      have hapart := (hs.writes_iff hfresh).1 ⟨next, hnext⟩
      have hsnoc : (done ++ [d]).Pairwise Apart := by
        rw [pairwise_append]
        refine ⟨hdone, pairwise_singleton _ _, ?_⟩
        intro d' hd' e he
        rw [mem_singleton.1 he]
        exact hapart d' hd'
      have hrest := ih (hs.snoc hapart hnext) hsnoc (by rwa [append_assoc]) h
      rwa [append_assoc] at hrest

/-- files that are pairwise apart can all be written -/
theorem stageFiles_of_apart (hs : Staged done folder) (hpair : (done ++ rest).Pairwise Apart) :
    ∃ folder', stageFiles folder rest = .ok folder' := by
  induction rest generalizing done folder with
  | nil => exact ⟨folder, rfl⟩
  | cons d rest ih =>
    have hapart : ∀ d' ∈ done, Apart d' d :=
      fun d' hd' => (pairwise_append.1 hpair).2.2 d' hd' d mem_cons_self
    have hfresh : ∀ d' ∈ done, joinRel d'.rel ≠ joinRel d.rel :=
      fun d' hd' heq => (hapart d' hd').1 (heq ▸ prefix_rfl)
    obtain ⟨next, hnext⟩ := (hs.writes_iff hfresh).2 hapart
    obtain ⟨folder', hrest⟩ := ih (hs.snoc hapart hnext) (by rwa [append_assoc])
    exact ⟨folder', by rw [stageFiles, hnext]; exact hrest⟩

end Staging

/-! ## Verifying and scanning -/

section Drift

variable {sha256} {decoded : List Decoded} {folder : Folder} {expected : OrdMap Text Text}

theorem keys_units {l : List Text} : (OrdMap.ofList (l.map fun rel => (rel, ()))).keys = [] ↔ l = [] := by
  rw [eq_nil_iff_forall_not_mem, eq_nil_iff_forall_not_mem]
  simp only [OrdMap.mem_keys_ofList, map_map]
  constructor
  · intro h a ha
    exact h a (mem_map.2 ⟨a, ha, rfl⟩)
  · intro h a ha
    obtain ⟨b, hb, rfl⟩ := mem_map.1 ha
    exact h b hb

/-- a folder with the files of a version and the marker at its root -/
structure Holds (decoded : List Decoded) (folder : Folder) : Prop where
  file : ∀ p bytes x, p ≠ [MARKER] → (folder.get? p = some (.file bytes x) ↔
    ∃ d ∈ decoded, joinRel d.rel = p ∧ d.bytes = bytes ∧ d.executable = x)
  nolink : ∀ p, folder.get? p ≠ some .symlink

/-- the hashes that a folder should have -/
structure Expects (sha256 : Bytes → Text) (decoded : List Decoded) (expected : OrdMap Text Text) : Prop where
  get : ∀ d ∈ decoded, expected.get? d.rel = some (sha256 d.bytes)
  keys : ∀ rel ∈ expected.keys, ∃ d ∈ decoded, d.rel = rel

theorem walked_iff {e : Rel × Node} (hne : e.1 ≠ []) :
    (e.1.dropLast.all (fun c => !isJunk c true) && !isJunk (e.1.getLastD []) e.2.isDir) = true ↔
      ∀ part ∈ e.1, part ∉ DRIFT_JUNK := by
  obtain ⟨p, n⟩ := e
  obtain ⟨l, a, rfl⟩ := (eq_nil_or_concat' p).resolve_left hne
  simp only [dropLast_concat, getLastD_concat, isJunk, Bool.and_eq_true, all_eq_true,
    Bool.not_eq_true', decide_eq_false_iff_not, mem_append, mem_singleton]
  constructor
  · rintro ⟨hl, ha⟩ part (hp | rfl)
    · exact hl part hp
    · exact ha
  · intro h
    exact ⟨fun part hp => h part (.inl hp), h a (.inr rfl)⟩

/-- the content of a folder that holds a version: those of its files that no dropping hides -/
theorem mem_content (h : Holds decoded folder) (hmarker : ∀ d ∈ decoded, joinRel d.rel ≠ [MARKER]) {e : Rel × Node} :
    e ∈ content folder ↔ ∃ d ∈ decoded, e = (joinRel d.rel, .file d.bytes d.executable) ∧
      ∀ part ∈ joinRel d.rel, part ∉ DRIFT_JUNK := by
  obtain ⟨p, n⟩ := e
  rw [content, walk, mem_filter, mem_filter, ← OrdMap.get?_eq_some]
  constructor
  · rintro ⟨⟨hget, hwalk⟩, hcontent⟩
    simp only [Bool.and_eq_true, Bool.not_eq_true', decide_eq_true_eq] at hcontent
    obtain ⟨hdir, hp⟩ := hcontent
    cases n with
    | dir => cases hdir
    | symlink => exact absurd hget (h.nolink p)
    | file bytes x =>
      obtain ⟨d, hd, rfl, rfl, rfl⟩ := (h.file p bytes x hp).1 hget
      exact ⟨d, hd, rfl, (walked_iff (joinRel_ne_nil _)).1 hwalk⟩
  · rintro ⟨d, hd, heq, hjunk⟩
    cases heq
    have hp := hmarker d hd
    refine ⟨⟨(h.file _ _ _ hp).2 ⟨d, hd, rfl, rfl, rfl⟩, (walked_iff (joinRel_ne_nil _)).2 hjunk⟩, ?_⟩
    simp only [Node.isDir, Bool.not_false, Bool.true_and, decide_eq_true_eq]
    exact hp

/-- **Drift.** A folder that holds a version verifies just when no component of its paths is a dropping's name. -/
theorem driftedFiles_eq_nil (h : Holds decoded folder) (hexp : Expects sha256 decoded expected)
    (hmarker : ∀ d ∈ decoded, joinRel d.rel ≠ [MARKER]) :
    driftedFiles sha256 folder expected = [] ↔ ∀ d ∈ decoded, ∀ part ∈ joinRel d.rel, part ∉ DRIFT_JUNK := by
  have hsame : ((content folder).filter fun e => !same sha256 expected e) = [] := by
    rw [filter_eq_nil_iff]
    intro e he
    obtain ⟨d, hd, rfl, _⟩ := (mem_content h hmarker).1 he
    have hsame : same sha256 expected (joinRel d.rel, .file d.bytes d.executable) = true := by
      rw [same, relString_joinRel]
      rw [hexp.get d hd]
      exact decide_eq_true rfl
    rw [hsame]
    exact Bool.false_ne_true
  rw [driftedFiles, keys_units, hsame, map_nil, nil_append, filter_eq_nil_iff]
  constructor
  · intro hpresent d hd
    have hkey : d.rel ∈ expected.keys := OrdMap.mem_keys.2 ⟨_, hexp.get d hd⟩
    have hin := hpresent d.rel hkey
    simp only [decide_eq_true_eq, not_not] at hin
    obtain ⟨e, he, heq⟩ := mem_map.1 hin
    obtain ⟨d', hd', rfl, hjunk⟩ := (mem_content h hmarker).1 he
    have hrel : d'.rel = d.rel := (relString_joinRel d'.rel).symm.trans heq
    rw [← hrel]
    exact hjunk
  · intro hjunk rel hrel
    obtain ⟨d, hd, rfl⟩ := hexp.keys rel hrel
    simp only [decide_eq_true_eq, not_not]
    exact mem_map.2 ⟨_, (mem_content h hmarker).2 ⟨d, hd, rfl, hjunk d hd⟩, relString_joinRel d.rel⟩

end Drift

section Stage

variable {sha256 toJson fromJson} {decoded : List Decoded} {marker : SkillMarker} {folder : Folder}

/-- what the server's rule for dotted names means for a staged folder -/
theorem marker_apart (h : ∀ d ∈ decoded, ∀ part ∈ joinRel d.rel, part.head? ≠ some '.') :
    ∀ d ∈ decoded, joinRel d.rel ≠ [MARKER] := by
  intro d hd heq
  exact h d hd MARKER (heq ▸ .head _) (by decide)

/-- the marker is written at the root, beside what is staged -/
theorem writeMarker (hs : Staged decoded folder) (hdots : ∀ d ∈ decoded, ∀ part ∈ joinRel d.rel, part.head? ≠ some '.')
    (json : Bytes) : writeAtomicFsync folder [MARKER] json = .ok (folder.insert [MARKER] (.file json false)) := by
  have hnodir : folder.get? [MARKER] ≠ some .dir := by
    intro hdir
    obtain ⟨_, d, hd, hpre, _⟩ := (hs.dir _).1 hdir
    exact hdots d hd MARKER (hpre.subset mem_cons_self) (by decide)
  have hparent : createDirAll folder [] [MARKER].dropLast = .ok folder := rfl
  rw [writeAtomicFsync, hparent]
  dsimp only
  split
  next hdir => exact absurd hdir hnodir
  next => rfl

theorem holds_of_staged (hs : Staged decoded folder) (json : Bytes) :
    Holds decoded (folder.insert [MARKER] (.file json false)) := by
  constructor
  · intro p bytes x hp
    rw [OrdMap.get?_insert, if_neg hp]
    exact hs.file p bytes x
  · intro p
    rw [OrdMap.get?_insert]
    split
    next => exact fun h => nomatch h
    next => exact hs.nolink p

/-- **Staging.** A version is staged and verified just when its files are pairwise apart and none of their paths has a
dropping's name in it; the staged folder then holds the version and its marker. -/
theorem stage_iff (hnodup : (decoded.map (·.rel)).Nodup)
    (hdots : ∀ d ∈ decoded, ∀ part ∈ joinRel d.rel, part.head? ≠ some '.')
    (hexp : Expects sha256 decoded marker.files) :
    (stage sha256 toJson decoded marker = .ok folder) ↔
      decoded.Pairwise Apart ∧ (∀ d ∈ decoded, ∀ part ∈ joinRel d.rel, part ∉ DRIFT_JUNK) ∧
        ∃ staging, stageFiles OrdMap.empty decoded = .ok staging ∧
          folder = staging.insert [MARKER] (.file (toJson marker) false) := by
  have hmarker := marker_apart hdots
  rw [stage]
  constructor
  · intro h
    split at h
    next => cases h
    next staging hstaging =>
      obtain ⟨hpair, hs⟩ := stageFiles_ok Staged.empty Pairwise.nil hnodup hstaging
      rw [writeMarker hs hdots] at h
      dsimp only at h
      split at h
      next => cases h
      next hdrift =>
        have hjunk := (driftedFiles_eq_nil (holds_of_staged hs _) hexp hmarker).1 (not_not.1 hdrift)
        exact ⟨hpair, hjunk, staging, hstaging, (Except.ok.inj h).symm⟩
  · rintro ⟨hpair, hjunk, staging, hstaging, rfl⟩
    obtain ⟨_, hs⟩ := stageFiles_ok Staged.empty Pairwise.nil hnodup hstaging
    have hdrift := (driftedFiles_eq_nil (holds_of_staged hs (toJson marker)) hexp hmarker).2 hjunk
    rw [hstaging]
    dsimp only
    rw [writeMarker hs hdots]
    dsimp only
    rw [hdrift, if_neg (not_not.2 rfl)]

end Stage

/-! ## Published versions -/

/-- the hashes of a version, by path -/
def filesOf (files : List SkillRules.DecodedSkillFile) : OrdMap Text Text :=
  OrdMap.ofList (files.map fun f => (f.path, f.sha256))

/-- paths that the device can hold: no control character above U+007F, no component that the walk takes for a dropping,
and no path that is a folder of another -/
structure Installable (files : List SkillRules.DecodedSkillFile) : Prop where
  control : ∀ f ∈ files, ∀ c ∈ f.path, ¬ isC1 c
  junk : ∀ f ∈ files, ∀ part ∈ joinRel f.path, part ∉ DRIFT_JUNK
  apart : ∀ f ∈ files, ∀ g ∈ files, joinRel f.path <+: joinRel g.path → f.path = g.path

/-- an answer `Installed`, after which a scan finds the skill managed with no edited files -/
def Ready (name : Text) (r : AppResult InstallOutcome × Disk) : Prop :=
  (∃ outcome, r.1 = .ok outcome ∧ outcome.status = .installed) ∧
    ∃ skill ∈ scanRoot sha256 fromJson r.2, skill.name = name ∧ skill.status = .managed ∧ skill.editedFiles = []

section Versions

variable {sha256 lower toJson fromJson} {files : List SkillRules.DecodedSkillFile} {marker : SkillMarker} {disk : Disk}
  {name : Text}

/-- the files of a version in the order in which the device writes them -/
def inOrder (files : List SkillRules.DecodedSkillFile) : List Decoded :=
  (files.map decodedOf).insertionSort fun a b => a.rel ≤ b.rel

theorem perm_inOrder (files : List SkillRules.DecodedSkillFile) : (inOrder files).Perm (files.map decodedOf) :=
  perm_insertionSort _ _

theorem mem_inOrder {d : Decoded} : d ∈ inOrder files ↔ ∃ f ∈ files, decodedOf f = d := by
  rw [(perm_inOrder files).mem_iff, mem_map]

section

variable (h : Publishable sha256 lower files)

include h

theorem paths_nodup : (files.map (·.path)).Nodup := by
  have hlower : ((files.map (·.path)).map lower).Nodup := by
    rw [map_map]
    exact h.unique
  exact hlower.of_map lower

theorem rels_nodup : ((inOrder files).map (·.rel)).Nodup := by
  rw [((perm_inOrder files).map (·.rel)).nodup_iff, map_map]
  exact paths_nodup h

/-- the payload's own table of hashes is the version's -/
theorem payload_files : OrdMap.ofList ((inOrder files).map fun d => (d.rel, d.sha)) = filesOf files := by
  have hperm : ((inOrder files).map fun d => (d.rel, d.sha)).Perm (files.map fun f => (f.path, f.sha256)) := by
    have hmap := (perm_inOrder files).map fun d => (d.rel, d.sha)
    rwa [map_map] at hmap
  apply OrdMap.ofList_perm _ hperm
  rw [map_map]
  exact rels_nodup h

theorem expects_filesOf : Expects sha256 (inOrder files) (filesOf files) := by
  have hnodup : ((files.map fun f => (f.path, f.sha256)).map Prod.fst).Nodup := by
    rw [map_map]
    exact paths_nodup h
  constructor
  · intro d hd
    obtain ⟨f, hf, rfl⟩ := mem_inOrder.1 hd
    apply (OrdMap.get?_ofList hnodup).2
    rw [decodedOf, ← (h.accepted f hf).sha256]
    exact mem_map.2 ⟨f, hf, rfl⟩
  · intro rel hrel
    rw [filesOf, OrdMap.mem_keys_ofList, map_map] at hrel
    obtain ⟨f, hf, rfl⟩ := mem_map.1 hrel
    exact ⟨decodedOf f, mem_inOrder.2 ⟨f, hf, rfl⟩, rfl⟩

theorem dots_inOrder : ∀ d ∈ inOrder files, ∀ part ∈ joinRel d.rel, part.head? ≠ some '.' := by
  intro d hd part hp
  obtain ⟨f, hf, rfl⟩ := mem_inOrder.1 hd
  have hok := SkillRules.skillPathProblem_eq_none.1 (h.accepted f hf).path
  exact (SkillRules.partProblem_eq_none.1 (hok.parts part hp)).dotfile

/-- the files that the device writes are pairwise apart just when no path of the version is a folder of another -/
theorem pairwise_inOrder : (inOrder files).Pairwise Apart ↔
    ∀ f ∈ files, ∀ g ∈ files, joinRel f.path <+: joinRel g.path → f.path = g.path := by
  constructor
  · intro hpair f hf g hg hpre
    by_contra hne
    have hne' : decodedOf f ≠ decodedOf g := fun heq => hne (congrArg Decoded.rel heq)
    have : Std.Symm Apart := ⟨fun _ _ hde => ⟨hde.2, hde.1⟩⟩
    exact (hpair.forall (mem_inOrder.2 ⟨f, hf, rfl⟩) (mem_inOrder.2 ⟨g, hg, rfl⟩) hne').1 hpre
  · intro hapart
    have hpw : (inOrder files).Pairwise fun d e => d.rel ≠ e.rel := pairwise_map.1 (rels_nodup h)
    apply hpw.imp_of_mem
    intro d e hd he hne
    obtain ⟨f, hf, rfl⟩ := mem_inOrder.1 hd
    obtain ⟨g, hg, rfl⟩ := mem_inOrder.1 he
    exact ⟨fun hpre => hne (hapart f hf g hg hpre), fun hpre => hne (hapart g hg f hf hpre).symm⟩

end

/-- a version that stages is installed into an empty root, and the scan reads its marker back -/
theorem ready_finish {now : Now} {staging : Folder} (hroot : disk.root = some OrdMap.empty)
    (hname : marker.name.head? ≠ some '.')
    (hjson : fromJson (toJson { marker with installedAt := now.rfc3339 }) =
      some { marker with installedAt := now.rfc3339 })
    {decoded : List Decoded} (hs : Staged decoded staging) (hexp : Expects sha256 decoded marker.files)
    (hdots : ∀ d ∈ decoded, ∀ part ∈ joinRel d.rel, part.head? ≠ some '.')
    (hjunk : ∀ d ∈ decoded, ∀ part ∈ joinRel d.rel, part ∉ DRIFT_JUNK) {outcome : InstallOutcome}
    (houtcome : outcome.status = .installed) :
    Ready sha256 fromJson marker.name (.ok outcome, swapIn disk marker.name
      (staging.insert [MARKER] (.file (toJson { marker with installedAt := now.rfc3339 }) false))) ↔
      (toJson { marker with installedAt := now.rfc3339 }).length ≤ MAX_MARKER_BYTES := by
  let installed : SkillMarker := { marker with installedAt := now.rfc3339 }
  let dir := staging.insert [MARKER] (.file (toJson installed) false)
  have hscan : scanRoot sha256 fromJson (swapIn disk marker.name dir) =
      [scanFolder sha256 fromJson marker.name dir] := by
    rw [scanRoot, swapIn, hroot]
    change filterMap (scanEntry sha256 fromJson) [(marker.name, Entry.folder dir)] = _
    rw [filterMap_cons, scanEntry, if_neg hname]
    rfl
  have hget : dir.get? [MARKER] = some (.file (toJson installed) false) := by rw [OrdMap.get?_insert, if_pos rfl]
  have hdrift := (driftedFiles_eq_nil (holds_of_staged hs (toJson installed)) hexp (marker_apart hdots)).2 hjunk
  rw [Ready, hscan]
  constructor
  · rintro ⟨_, skill, hskill, _, hstatus, _⟩
    rw [mem_singleton.1 hskill] at hstatus
    by_contra hlen
    rw [scanFolder, managedMarker, readMarker, hget] at hstatus
    dsimp only at hstatus
    rw [if_pos (not_le.1 hlen)] at hstatus
    cases hstatus
  · intro hlen
    refine ⟨⟨outcome, rfl, houtcome⟩, _, mem_singleton_self _, ?_⟩
    have hread : managedMarker fromJson dir marker.name = some installed := by
      rw [managedMarker, readMarker, hget]
      dsimp only
      rw [if_neg (not_lt.2 hlen), hjson, Option.filter_some, if_pos (decide_eq_true rfl)]
    have hnil : driftedFiles sha256 dir installed.files = [] := hdrift
    rw [scanFolder, hread]
    dsimp only
    rw [hnil, if_pos rfl]
    exact ⟨rfl, rfl, rfl⟩

section

variable (h : Publishable sha256 lower files) (hvalid : SkillRules.isValidSkillName marker.name = true) (howner :
    (ownerOf marker).isSome)

include h hvalid howner

/-- everything before the staging folder lets a version with plain paths through, and no other -/
theorem installSkill_eq (hfiles : marker.files = filesOf files)
    (hempty : disk.root.getD OrdMap.empty = OrdMap.empty) (force replaceUnmanaged : Bool) (now : Now)
    (hcontrol : ∀ f ∈ files, ∀ c ∈ f.path, ¬ isC1 c) :
    installSkill sha256 lower toJson fromJson disk marker.name marker (files.map payloadOf) force replaceUnmanaged now =
      finishInstall sha256 toJson { disk with root := some OrdMap.empty } marker.name (inOrder files) marker now
        none := by
  obtain ⟨owner, howner⟩ := Option.isSome_iff_exists.1 howner
  have hnone : disk.entry marker.name = none := by
    rw [Disk.entry]
    cases hroot : disk.root with
    | none => rfl
    | some root =>
      rw [hroot] at hempty
      have hroot' : root = OrdMap.empty := hempty
      rw [hroot']
      rfl
  rw [installSkill, validateName_ok hvalid]
  rw [if_neg (not_not.2 rfl), howner]
  rw [(decodePayloads_iff h).2 ⟨hcontrol, rfl⟩]
  dsimp only
  have htable : ¬ OrdMap.ofList ((inOrder files).map fun d => (d.rel, d.sha)) ≠ marker.files := by
    rw [payload_files h, hfiles]
    exact not_not.2 rfl
  rw [← inOrder, if_neg htable, hnone]
  rw [hempty]

/-- a path with such a control character stops the install before anything is written -/
theorem installSkill_refused
    (hcontrol : ¬ ∀ f ∈ files, ∀ c ∈ f.path, ¬ isC1 c) (disk : Disk) (force replaceUnmanaged : Bool) (now : Now) :
    ∃ e, (installSkill sha256 lower toJson fromJson disk marker.name marker (files.map payloadOf) force
      replaceUnmanaged now).1 = .error e := by
  obtain ⟨owner, howner⟩ := Option.isSome_iff_exists.1 howner
  rw [installSkill, validateName_ok hvalid]
  rw [if_neg (not_not.2 rfl), howner]
  cases hdecoded : decodePayloads sha256 lower (files.map payloadOf) with
  | ok decoded => exact absurd ((decodePayloads_iff h).1 hdecoded).1 hcontrol
  | error e => exact ⟨e, rfl⟩

end

theorem name_head (h : SkillRules.isValidSkillName name = true) : name.head? ≠ some '.' := by
  rw [SkillRules.isValidSkillName] at h
  simp only [Bool.and_eq_true] at h
  intro hhead
  cases name with
  | nil => cases hhead
  | cons c rest =>
    cases hhead
    exact absurd ((scanName_facts h.1.2).1 '.' mem_cons_self).1 (by decide)

end Versions

/-- **Which published versions install.** Over an empty root a version that the server can publish, with a marker that
names its owner and a JSON reader that reads that marker back, is installed and then found managed with no edited files
exactly when its paths are `Installable` and its marker's JSON has no more than the bytes that a marker may have. -/
theorem installed_iff_installable (files : List SkillRules.DecodedSkillFile) (marker : SkillMarker) (disk : Disk)
    (force replaceUnmanaged : Bool) (now : Now) (hpub : Publishable sha256 lower files)
    (hname : SkillRules.isValidSkillName marker.name = true) (howner : (ownerOf marker).isSome)
    (hfiles : marker.files = filesOf files) (hempty : disk.root.getD OrdMap.empty = OrdMap.empty)
    (hjson : fromJson (toJson { marker with installedAt := now.rfc3339 }) =
      some { marker with installedAt := now.rfc3339 }) :
    Ready sha256 fromJson marker.name (installSkill sha256 lower toJson fromJson disk marker.name marker
      (files.map payloadOf) force replaceUnmanaged now) ↔
      Installable files ∧ (toJson { marker with installedAt := now.rfc3339 }).length ≤ MAX_MARKER_BYTES := by
  have hdots := dots_inOrder hpub
  have hexp : Expects sha256 (inOrder files) marker.files := hfiles ▸ expects_filesOf hpub
  have hexp' : Expects sha256 (inOrder files) ({ marker with installedAt := now.rfc3339 } : SkillMarker).files := hexp
  have hjunk : (∀ f ∈ files, ∀ part ∈ joinRel f.path, part ∉ DRIFT_JUNK) ↔
      ∀ d ∈ inOrder files, ∀ part ∈ joinRel d.rel, part ∉ DRIFT_JUNK := by
    constructor
    · intro h d hd
      obtain ⟨f, hf, rfl⟩ := mem_inOrder.1 hd
      exact h f hf
    · exact fun h f hf => h (decodedOf f) (mem_inOrder.2 ⟨f, hf, rfl⟩)
  by_cases hcontrol : ∀ f ∈ files, ∀ c ∈ f.path, ¬ isC1 c
  · rw [installSkill_eq hpub hname howner hfiles hempty force replaceUnmanaged now hcontrol, finishInstall]
    constructor
    · intro hready
      split at hready
      next =>
        obtain ⟨⟨_, hok, _⟩, _⟩ := hready
        cases hok
      next folder hstage =>
        obtain ⟨hpair, hno, staging, hstaging, rfl⟩ := (stage_iff (rels_nodup hpub) hdots hexp').1 hstage
        have hs := (stageFiles_ok Staged.empty Pairwise.nil (rels_nodup hpub) hstaging).2
        refine ⟨⟨hcontrol, hjunk.2 hno, (pairwise_inOrder hpub).1 hpair⟩, ?_⟩
        exact (ready_finish rfl (name_head hname) hjson hs hexp hdots hno rfl).1 hready
    · rintro ⟨⟨_, hno, hapart⟩, hlen⟩
      have hpair := (pairwise_inOrder hpub).2 hapart
      obtain ⟨staging, hstaging⟩ := stageFiles_of_apart Staged.empty hpair
      have hs := (stageFiles_ok Staged.empty Pairwise.nil (rels_nodup hpub) hstaging).2
      rw [(stage_iff (rels_nodup hpub) hdots hexp').2 ⟨hpair, hjunk.1 hno, staging, hstaging, rfl⟩]
      exact (ready_finish rfl (name_head hname) hjson hs hexp hdots (hjunk.1 hno) rfl).2 hlen
  · constructor
    · rintro ⟨⟨outcome, hok, _⟩, _⟩
      obtain ⟨e, he⟩ := installSkill_refused hpub hname howner hcontrol disk force replaceUnmanaged now
      rw [he] at hok
      cases hok
    · exact fun h => absurd h.1.control hcontrol

section Runs

/-- the bytes of an ASCII text -/
def ascii (s : String) : Bytes := s.toList.map fun c => UInt8.ofNat c.toNat

def mdBytes : Bytes := ascii "---\nname: demo\ndescription: A demo.\n---\n"

def scriptBytes : Bytes := ascii "print(1)\n"

/-- the hashes of the two contents above, and of the empty one -/
def sampleSha (bytes : Bytes) : Text :=
  if bytes = mdBytes then "daaf9b9d751536368416ebea19160686e3797a31f83ee6b931166a80fefb58e3".toList
  else if bytes = scriptBytes then "cc42155088fca5730758db72b2a5bca33112a941dfaa2d43098ec422ce4ea213".toList
  else "e3b0c44298fc1c149afbf4c8996fb92427ae41e4649b934ca495991b7852b855".toList

def asciiLower (s : Text) : Text := s.map Char.toLower

def fileOf (path : String) (content : Bytes) (executable : Bool) : SkillRules.DecodedSkillFile :=
  ⟨path.toList, sampleSha content, content.length, executable, content⟩

def quoted (s : Text) : Text := ['"'] ++ s ++ ['"']

def field (name : String) (value : Text) : Text := "  ".toList ++ quoted name.toList ++ ": ".toList ++ value

/-- the JSON of a marker whose texts need no escapes, as it is written -/
def sampleJson (m : SkillMarker) : Bytes :=
  let files := m.files.entries.map fun e => "    ".toList ++ quoted e.1 ++ ": ".toList ++ quoted e.2
  let fields := [field "skillId" (quoted m.skillId), field "orgId" (quoted m.orgId),
    field "serverUrl" (quoted m.serverUrl), field "userId" ((m.userId.map quoted).getD "null".toList),
    field "name" (quoted m.name), field "version" (Nat.repr m.version.toNat).toList,
    field "bundleSha256" (quoted m.bundleSha256),
    field "files" ("\x7b\n".toList ++ intercalate ",\n".toList files ++ "\n  \x7d".toList),
    field "installedAt" (quoted m.installedAt)]
  ("\x7b\n".toList ++ intercalate ",\n".toList fields ++ "\n\x7d".toList).map fun c => UInt8.ofNat c.toNat

def sampleNow : Now := ⟨"2026-11-01T09:30:00Z".toList, "20261101-093000".toList⟩

section

variable (files : List SkillRules.DecodedSkillFile)

def sampleMarker : SkillMarker :=
  ⟨"s1".toList, "o1".toList, "https://notes.example".toList, some "u1".toList, "demo".toList, 1,
    "9a0113d202bd3a33b35cdaddbec1b247c77c5b83e13802b6cea5a2ca5c12291c".toList, filesOf files, []⟩

/-- what the installed marker's JSON reads back as -/
def sampleRead (bytes : Bytes) : Option SkillMarker :=
  let installed : SkillMarker := { sampleMarker files with installedAt := sampleNow.rfc3339 }
  if bytes = sampleJson installed then some installed else none

theorem sampleRead_installed :
    sampleRead files (sampleJson { sampleMarker files with installedAt := sampleNow.rfc3339 }) =
      some { sampleMarker files with installedAt := sampleNow.rfc3339 } := by
  rw [sampleRead]
  exact if_pos rfl

end

def emptyDisk : Disk := ⟨some OrdMap.empty, OrdMap.empty⟩

def sampleInstall (files : List SkillRules.DecodedSkillFile) : AppResult InstallOutcome × Disk :=
  installSkill sampleSha asciiLower sampleJson (sampleRead files) emptyDisk "demo".toList (sampleMarker files)
    (files.map payloadOf) false false sampleNow

def skillMd : SkillRules.DecodedSkillFile := fileOf "SKILL.md" mdBytes false

def scripted : List SkillRules.DecodedSkillFile := [skillMd, fileOf "scripts/run.py" scriptBytes true]

theorem publishable_scripted : Publishable sampleSha asciiLower scripted := by
  refine ⟨?_, by decide +kernel, by decide +kernel, ⟨skillMd, .head _, rfl⟩⟩
  intro f hf
  rcases mem_cons.1 hf with rfl | hf
  · exact ⟨by decide +kernel, rfl, rfl⟩
  · rw [mem_singleton.1 hf]
    exact ⟨by decide +kernel, rfl, rfl⟩

/-- a skill with a script is installed and found managed -/
theorem installed_iff_installable_scripted :
    Ready sampleSha (sampleRead scripted) "demo".toList (sampleInstall scripted) := by
  apply (installed_iff_installable sampleSha asciiLower sampleJson (sampleRead scripted) scripted
    (sampleMarker scripted) emptyDisk false false sampleNow publishable_scripted (by decide +kernel)
    (by decide +kernel) rfl rfl (sampleRead_installed scripted)).2
  have hcontrol : scripted.all (fun f => f.path.all fun c => decide (¬ isC1 c)) = true := by decide +kernel
  refine ⟨⟨?_, by decide +kernel, by decide +kernel⟩, by decide +kernel⟩
  intro f hf c hc
  exact of_decide_eq_true (all_eq_true.1 (all_eq_true.1 hcontrol f hf) c hc)

/-- **Paths on which the two sides disagree.** The server publishes a file in a `__pycache__` folder, a file and a
folder of one name, and a path with U+0085 in it; over an empty root the device refuses each of them. -/
theorem skill_refused :
    (Publishable sampleSha asciiLower [skillMd, fileOf "__pycache__/x.pyc" [] false] ∧
      (sampleInstall [skillMd, fileOf "__pycache__/x.pyc" [] false]).1 =
        .error (.new "staged skill did not verify: __pycache__/x.pyc".toList)) ∧
    (Publishable sampleSha asciiLower [skillMd, fileOf "a" [] false, fileOf "a/b" [] false] ∧
      (sampleInstall [skillMd, fileOf "a" [] false, fileOf "a/b" [] false]).1 = .error .io) ∧
    Publishable sampleSha asciiLower [skillMd, fileOf "a\u0085b" [] false] ∧
      (sampleInstall [skillMd, fileOf "a\u0085b" [] false]).1 =
        .error (.new "invalid skill path: a\u0085b (character not allowed on every system)".toList) := by
  have hpub : ∀ files, (∀ f ∈ files, f ∈ [skillMd, fileOf "__pycache__/x.pyc" [] false, fileOf "a" [] false,
      fileOf "a/b" [] false, fileOf "a\u0085b" [] false]) → (files.map fun f => asciiLower f.path).Nodup →
      SkillRules.checkSkillCaps files = .ok () → skillMd ∈ files → Publishable sampleSha asciiLower files := by
    intro files hfiles hunique hcaps hmd
    refine ⟨fun f hf => ?_, hunique, hcaps, ⟨skillMd, hmd, rfl⟩⟩
    have hin := hfiles f hf
    simp only [mem_cons, not_mem_nil, or_false] at hin
    rcases hin with rfl | rfl | rfl | rfl | rfl
    all_goals exact ⟨by decide +kernel, rfl, rfl⟩
  refine ⟨⟨?_, by decide +kernel⟩, ⟨?_, by decide +kernel⟩, ?_, by decide +kernel⟩
  all_goals exact hpub _ (by simp) (by decide +kernel) (by decide +kernel) mem_cons_self

end Runs

end Baalda.SkillInstall
