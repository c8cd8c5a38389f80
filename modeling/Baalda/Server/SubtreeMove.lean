/-
What a folder move does to the rows below the folder (`rewriteDescendantPaths`, `moveFolderInTransaction` in
registry/tree-ops.ts): folders, notes, files and the blobs that carry the bytes of files.

The rows below are found by `LIKE` with the old path escaped, and cut at `oldPath.length`, which counts UTF-16 units
where Postgres counts characters. `subtree_moves_iff`: a move puts the folder and every row below where they belong, and
leaves every other row, exactly if the old path has no character outside the basic plane or nothing is below it, and
the new path is not below the old one.
-/
import Baalda.Lib.Like
import Baalda.Server.TreeLocation

namespace Baalda.SubtreeMove

open VaultTree TreeOps TreeLocation List

variable {Id K : Type*}

/-! ## Model -/

/-- a row of `blobs`; one with a `docId` carries the bytes of that file -/
structure BlobRow (Id : Type*) where
  id : Id
  vaultId : Id
  docId : Option Id
  relPath : Path
  deriving DecidableEq

structure Tables (Id : Type*) where
  tree : Db Id
  blobs : List (BlobRow Id)
  deriving DecidableEq

/-- `substring(path FROM start)`, which counts characters from 1 -/
def substring (path : Path) (start : ℕ) : Path := path.drop (start - 1)

/-- `CASE WHEN path LIKE prefix || '/%' THEN newPath || substring(path FROM oldPath.length + 1) ELSE path END` -/
def rewriteColumn (oldPath newPath path : Path) : Path :=
  if Like.like (Like.likeEscape oldPath ++ ['/', '%']) path then newPath ++ substring path (utf16Length oldPath + 1)
  else path

section

variable [DecidableEq Id] [DecidableEq K] (key : Path → K)

def rewriteBlob (vaultId : Id) (oldPath newPath : Path) (b : BlobRow Id) : BlobRow Id :=
  if b.vaultId = vaultId ∧ b.docId.isSome then { b with relPath := rewriteColumn oldPath newPath b.relPath } else b

/-- `moveFolder` on all four tables; no constraint is on a blob's path -/
def moveFolder (t : Tables Id) (folderId : Id) (input : MoveFolderInput Id) : Option (Tables Id) :=
  match findFolder t.tree.folders folderId with
  | none => none
  | some folder => match planFolderMove key t.tree.folders folder input with
    | .error _ => none
    | .ok (newPath, _) => (TreeOps.moveFolder key t.tree folderId input).map fun tree =>
      { tree := tree
        blobs := if newPath = folder.path then t.blobs
          else t.blobs.map (rewriteBlob folder.vaultId folder.path newPath) }

end

/-! ## What a move is to do -/

section

variable {R : Type*}

/-- a row at `oldPath/s` is at `newPath/s` afterwards, any other is what it was -/
structure RowMoves (inside : Prop) (path : Path) (setPath : Path → R) (oldPath newPath : Path) (r r' : R) : Prop where
  below : inside → ∀ s, path = oldPath ++ '/' :: s → r' = setPath (newPath ++ '/' :: s)
  other : (inside → ∀ s, path ≠ oldPath ++ '/' :: s) → r' = r

variable [DecidableEq Id]

/-- where the folder and what is below it belong after the move -/
structure SubtreeMoves (folder : FolderRow Id) (newParentId : Option Id) (newName newPath : Path) (t t' : Tables Id) :
    Prop where
  folders : Forall₂ (fun f f' => if f.id = folder.id
      then f' = { f with parentId := newParentId, name := newName, path := newPath }
      else RowMoves (f.vaultId = folder.vaultId) f.path (fun path => { f with path := path }) folder.path newPath f f')
    t.tree.folders t'.tree.folders
  notes : Forall₂ (fun n n' => RowMoves (n.vaultId = folder.vaultId) n.relPath
      (fun path => { n with relPath := path }) folder.path newPath n n') t.tree.notes t'.tree.notes
  files : Forall₂ (fun f f' => RowMoves (f.vaultId = folder.vaultId) f.path
      (fun path => { f with path := path }) folder.path newPath f f') t.tree.files t'.tree.files
  blobs : Forall₂ (fun b b' => RowMoves (b.vaultId = folder.vaultId ∧ b.docId.isSome) b.relPath
      (fun path => { b with relPath := path }) folder.path newPath b b') t.blobs t'.blobs
  folderTombstones : t'.tree.folderTombstones = t.tree.folderTombstones
  fileTombstones : t'.tree.fileTombstones = t.tree.fileTombstones

/-- no row is below the folder -/
structure AloneAt (folder : FolderRow Id) (t : Tables Id) : Prop where
  folders : ∀ f ∈ t.tree.folders, f.id ≠ folder.id → f.vaultId = folder.vaultId → isBelow folder.path f.path = false
  notes : ∀ n ∈ t.tree.notes, n.vaultId = folder.vaultId → isBelow folder.path n.relPath = false
  files : ∀ f ∈ t.tree.files, f.vaultId = folder.vaultId → isBelow folder.path f.path = false
  blobs : ∀ b ∈ t.blobs, b.vaultId = folder.vaultId ∧ b.docId.isSome → isBelow folder.path b.relPath = false

/-- when a move is sound: the cut is after the old path, and the folder's own row is not below where it was -/
structure CutSound (folder : FolderRow Id) (newPath : Path) (t : Tables Id) : Prop where
  cut : utf16Length folder.path = folder.path.length ∨ AloneAt folder t
  self : isBelow folder.path newPath = true → newPath.length ≤ utf16Length folder.path

end

/-! ## Columns -/

section

variable {oldPath newPath path : Path}

/-- an escaped path matches what is below it and nothing else, whatever its characters -/
theorem like_eq_isBelow : Like.like (Like.likeEscape oldPath ++ ['/', '%']) path = isBelow oldPath path := by
  rw [Bool.eq_iff_iff, Like.like_below, isBelow, isPrefixOf_iff_prefix]

/-- the statement of the three tables is the model's -/
theorem rewriteColumn_eq : rewriteColumn oldPath newPath path = rewriteBelow oldPath newPath path := by
  unfold rewriteColumn rewriteBelow
  rw [like_eq_isBelow]
  rfl

/-- the cut is right for one row below exactly if the two lengths agree -/
theorem rewriteBelow_append_iff {s : Path} : rewriteBelow oldPath newPath (oldPath ++ '/' :: s) = newPath ++ '/' :: s ↔
    utf16Length oldPath = oldPath.length := by
  constructor
  · intro h
    unfold rewriteBelow at h
    rw [if_pos (isBelow_iff.2 ⟨s, rfl⟩), rewritten] at h
    have hlen := congrArg length (append_cancel_left h)
    rw [length_drop, length_append, length_cons] at hlen
    omega
  · exact fun h => rewriteBelow_append h s

/-- the folder's own row, which has the new path already -/
theorem rewriteBelow_self_iff : rewriteBelow oldPath newPath newPath = newPath ↔
    (isBelow oldPath newPath = true → newPath.length ≤ utf16Length oldPath) := by
  unfold rewriteBelow
  split
  next hbelow =>
    have hcut : newPath.drop (utf16Length oldPath) = [] ↔ newPath.length ≤ utf16Length oldPath := drop_eq_nil_iff
    rw [rewritten, append_right_eq_self, hcut]
    exact ⟨fun h _ => h, fun h => h hbelow⟩
  next hnot => exact ⟨fun _ hbelow => absurd hbelow hnot, fun _ => rfl⟩

end

section

variable {R : Type*} {inside : Prop} [Decidable inside] {oldPath newPath path : Path} {setPath : Path → R} {r : R}

theorem rowMoves_iff (hset : Function.Injective setPath) (hown : setPath path = r) :
    RowMoves inside path setPath oldPath newPath r (if inside then setPath (rewriteBelow oldPath newPath path) else r) ↔
      (inside → isBelow oldPath path = true → utf16Length oldPath = oldPath.length) := by
  constructor
  · intro h hinside hbelow
    obtain ⟨s, hs⟩ := isBelow_iff.1 hbelow
    have hmoved := h.below hinside s hs
    rw [if_pos hinside, hs] at hmoved
    exact rewriteBelow_append_iff.1 (hset hmoved)
  · intro h
    refine ⟨fun hinside s hs => ?_, fun hother => ?_⟩
    · have hunits := h hinside (isBelow_iff.2 ⟨s, hs⟩)
      rw [if_pos hinside, hs, rewriteBelow_append hunits]
    · split
      next hinside =>
        have hnot : isBelow oldPath path = false := by
          rw [Bool.eq_false_iff]
          intro hbelow
          obtain ⟨s, hs⟩ := isBelow_iff.1 hbelow
          exact hother hinside s hs
        rw [rewriteBelow_of_not hnot, hown]
      next => rfl

/-- a folder that keeps its path moves nothing -/
theorem rowMoves_same (hown : setPath path = r) : RowMoves inside path setPath oldPath oldPath r r :=
  ⟨fun _ s hs => by rw [← hs, hown], fun _ => rfl⟩

end

/-! ## Moves -/

section

variable [DecidableEq Id] [DecidableEq K] {key : Path → K} {t t' : Tables Id} {folderId : Id}
  {input : MoveFolderInput Id}

section

variable (folder : FolderRow Id)

/-- a row of `folders` after both updates -/
def rewriteFolder (newParentId : Option Id) (newName newPath : Path) (f : FolderRow Id) : FolderRow Id :=
  let f := writeFolder folder.id newParentId newName newPath f
  if f.vaultId = folder.vaultId then { f with path := rewriteBelow folder.path newPath f.path } else f

def rewriteNote (newPath : Path) (n : NoteRow Id) : NoteRow Id :=
  if n.vaultId = folder.vaultId then { n with relPath := rewriteBelow folder.path newPath n.relPath } else n

def rewriteFile (newPath : Path) (f : FileRow Id) : FileRow Id :=
  if f.vaultId = folder.vaultId then { f with path := rewriteBelow folder.path newPath f.path } else f

/-- the tables after an accepted move -/
def movedTables (newParentId : Option Id) (newName newPath : Path) (t : Tables Id) : Tables Id where
  tree := { t.tree with
    folders := t.tree.folders.map (rewriteFolder folder newParentId newName newPath)
    notes := t.tree.notes.map (rewriteNote folder newPath)
    files := t.tree.files.map (rewriteFile folder newPath) }
  blobs := t.blobs.map (rewriteBlob folder.vaultId folder.path newPath)

/-- the tables after a move that only writes the folder's own row -/
def renamedTables (newParentId : Option Id) (newName newPath : Path) (t : Tables Id) : Tables Id where
  tree := { t.tree with folders := t.tree.folders.map (writeFolder folder.id newParentId newName newPath) }
  blobs := t.blobs

end

/-- what an accepted move does -/
theorem moveFolder_spec (h : moveFolder key t folderId input = some t') :
    ∃ folder newPath newParentId, findFolder t.tree.folders folderId = some folder ∧
      planFolderMove key t.tree.folders folder input = .ok (newPath, newParentId) ∧
      closesCycle t.tree.folders folder newParentId = false ∧
      t' = if newPath = folder.path
        then renamedTables folder newParentId (input.name.getD (basename newPath)) newPath t
        else movedTables folder newParentId (input.name.getD (basename newPath)) newPath t := by
  unfold moveFolder at h
  split at h
  next => cases h
  next folder hfind =>
  split at h
  next => cases h
  next newPath newParentId hplan =>
  obtain ⟨tree, htree, rfl⟩ := Option.map_eq_some_iff.1 h
  unfold TreeOps.moveFolder at htree
  rw [hfind] at htree
  dsimp only at htree
  rw [hplan] at htree
  dsimp only at htree
  split at htree
  next => cases htree
  next hrefused =>
  have hcycle : closesCycle t.tree.folders folder newParentId = false := by
    rw [Bool.or_eq_true, not_or] at hrefused
    exact Bool.eq_false_iff.2 hrefused.1
  refine ⟨folder, newPath, newParentId, hfind, hplan, hcycle, ?_⟩
  have hid : folder.id = folderId := (FolderMoves.findFolder_mem hfind).2
  obtain ⟨tree₁, hwrite, hrest⟩ := Option.bind_eq_some_iff.1 htree
  obtain ⟨_, rfl⟩ := checked_eq_some.1 hwrite
  split at hrest
  next hsame =>
    cases hrest
    rw [if_pos hsame, if_pos hsame, renamedTables, hid]
  next hother =>
    unfold rewriteDescendantPaths at hrest
    obtain ⟨tree₂, hfolders, hrest⟩ := Option.bind_eq_some_iff.1 hrest
    obtain ⟨_, rfl⟩ := checked_eq_some.1 hfolders
    obtain ⟨tree₃, hnotes, hrest⟩ := Option.bind_eq_some_iff.1 hrest
    obtain ⟨_, rfl⟩ := checked_eq_some.1 hnotes
    obtain ⟨_, rfl⟩ := checked_eq_some.1 hrest
    rw [if_neg hother, if_neg hother, movedTables, map_map, ← hid]
    rfl

variable {folder : FolderRow Id} {newParentId : Option Id} {newName : Path}

/-- the folder's own row, and the others -/
theorem rewriteFolder_iff {f : FolderRow Id} {newPath : Path} :
    (if f.id = folder.id
      then rewriteFolder folder newParentId newName newPath f =
        { f with parentId := newParentId, name := newName, path := newPath }
      else RowMoves (f.vaultId = folder.vaultId) f.path (fun path => { f with path := path }) folder.path newPath f
        (rewriteFolder folder newParentId newName newPath f)) ↔
      (f.id = folder.id → f.vaultId = folder.vaultId → isBelow folder.path newPath = true →
        newPath.length ≤ utf16Length folder.path) ∧
      (f.id ≠ folder.id → f.vaultId = folder.vaultId → isBelow folder.path f.path = true →
        utf16Length folder.path = folder.path.length) := by
  unfold rewriteFolder
  by_cases hid : f.id = folder.id
  · rw [if_pos hid, writeFolder_new hid]
    by_cases hvault : f.vaultId = folder.vaultId
    · have hpath : ∀ path : Path, ({ f with parentId := newParentId, name := newName, path := path } : FolderRow Id) =
          { f with parentId := newParentId, name := newName, path := newPath } ↔ path = newPath := by
        intro path
        exact ⟨fun h => congrArg FolderRow.path h, fun h => by rw [h]⟩
      rw [if_pos hvault, hpath, rewriteBelow_self_iff]
      exact ⟨fun h => ⟨fun _ _ => h, fun hne => absurd hid hne⟩, fun h => h.1 hid hvault⟩
    · dsimp only
      rw [if_neg hvault]
      exact iff_of_true rfl ⟨fun _ h => absurd h hvault, fun hne => absurd hid hne⟩
  · have hset : Function.Injective fun path : Path => ({ f with path := path } : FolderRow Id) :=
      fun a b hab => congrArg FolderRow.path hab
    rw [if_neg hid, writeFolder_old hid]
    refine (rowMoves_iff hset rfl).trans ⟨fun h => ⟨fun heq => absurd heq hid, fun _ => h⟩, fun h => h.2 hid⟩

theorem subtreeMoves_moved_iff (hfolder : folder ∈ t.tree.folders) {newPath : Path} :
    SubtreeMoves folder newParentId newName newPath t (movedTables folder newParentId newName newPath t) ↔
      CutSound folder newPath t := by
  have hnote : ∀ n : NoteRow Id, RowMoves (n.vaultId = folder.vaultId) n.relPath
      (fun path => { n with relPath := path }) folder.path newPath n (rewriteNote folder newPath n) ↔
        (n.vaultId = folder.vaultId → isBelow folder.path n.relPath = true →
          utf16Length folder.path = folder.path.length) :=
    fun n => rowMoves_iff (fun a b hab => congrArg NoteRow.relPath hab) rfl
  have hfile : ∀ f : FileRow Id, RowMoves (f.vaultId = folder.vaultId) f.path
      (fun path => { f with path := path }) folder.path newPath f (rewriteFile folder newPath f) ↔
        (f.vaultId = folder.vaultId → isBelow folder.path f.path = true →
          utf16Length folder.path = folder.path.length) :=
    fun f => rowMoves_iff (fun a b hab => congrArg FileRow.path hab) rfl
  have hblob : ∀ b : BlobRow Id, RowMoves (b.vaultId = folder.vaultId ∧ b.docId.isSome) b.relPath
      (fun path => { b with relPath := path }) folder.path newPath b
        (rewriteBlob folder.vaultId folder.path newPath b) ↔
          (b.vaultId = folder.vaultId ∧ b.docId.isSome → isBelow folder.path b.relPath = true →
            utf16Length folder.path = folder.path.length) := by
    intro b
    unfold rewriteBlob
    rw [rewriteColumn_eq]
    exact rowMoves_iff (fun a b hab => congrArg BlobRow.relPath hab) rfl
  constructor
  · intro h
    obtain ⟨hfolders, hnotes, hfiles, hblobs, _, _⟩ := h
    have hfolders := forall₂_same.1 (forall₂_map_right_iff.1 hfolders)
    have hnotes := forall₂_same.1 (forall₂_map_right_iff.1 hnotes)
    have hfiles := forall₂_same.1 (forall₂_map_right_iff.1 hfiles)
    have hblobs := forall₂_same.1 (forall₂_map_right_iff.1 hblobs)
    refine ⟨or_iff_not_imp_left.2 fun hunits => ⟨?_, ?_, ?_, ?_⟩, ?_⟩
    · intro f hf hid hvault
      exact Bool.eq_false_iff.2 fun hbelow => hunits ((rewriteFolder_iff.1 (hfolders f hf)).2 hid hvault hbelow)
    · intro n hn hvault
      exact Bool.eq_false_iff.2 fun hbelow => hunits ((hnote n).1 (hnotes n hn) hvault hbelow)
    · intro f hf hvault
      exact Bool.eq_false_iff.2 fun hbelow => hunits ((hfile f).1 (hfiles f hf) hvault hbelow)
    · intro b hb hvault
      exact Bool.eq_false_iff.2 fun hbelow => hunits ((hblob b).1 (hblobs b hb) hvault hbelow)
    · exact (rewriteFolder_iff.1 (hfolders folder hfolder)).1 rfl rfl
  · intro h
    have hcut : ∀ {path : Path}, (AloneAt folder t → isBelow folder.path path = false) →
        isBelow folder.path path = true → utf16Length folder.path = folder.path.length := by
      intro path halone hbelow
      exact h.cut.resolve_right fun hnone => absurd hbelow (Bool.eq_false_iff.1 (halone hnone))
    refine ⟨forall₂_map_right_iff.2 (forall₂_same.2 fun f hf => ?_),
      forall₂_map_right_iff.2 (forall₂_same.2 fun n hn => ?_),
      forall₂_map_right_iff.2 (forall₂_same.2 fun f hf => ?_),
      forall₂_map_right_iff.2 (forall₂_same.2 fun b hb => ?_), rfl, rfl⟩
    · exact rewriteFolder_iff.2 ⟨fun _ _ => h.self,
        fun hid hvault => hcut fun hnone => hnone.folders f hf hid hvault⟩
    · exact (hnote n).2 fun hvault => hcut fun hnone => hnone.notes n hn hvault
    · exact (hfile f).2 fun hvault => hcut fun hnone => hnone.files f hf hvault
    · exact (hblob b).2 fun hvault => hcut fun hnone => hnone.blobs b hb hvault

/-- a move that leaves the path as it is writes the folder's own row only -/
theorem subtreeMoves_renamed :
    SubtreeMoves folder newParentId newName folder.path t
      (renamedTables folder newParentId newName folder.path t) := by
  refine ⟨forall₂_map_right_iff.2 (forall₂_same.2 fun f _ => ?_),
    forall₂_same.2 fun n _ => rowMoves_same rfl, forall₂_same.2 fun f _ => rowMoves_same rfl,
    forall₂_same.2 fun b _ => rowMoves_same rfl, rfl, rfl⟩
  split
  next hid => exact writeFolder_new hid
  next hid =>
    rw [writeFolder_old hid]
    exact rowMoves_same rfl

/-- **Moving a folder.** For all tables and every accepted move: the folder is where the move puts it, every row below
it in the four tables keeps what comes after the folder's path, and every other row is as it was, exactly if the path
stays, or the cut is after the old path (it has no character outside the basic plane, or nothing is below it) and the
folder's own row is not taken for one below. In a tree whose rows agree only a name with a separator makes it so. -/
theorem subtree_moves_iff (key : Path → K) (t t' : Tables Id) (folderId : Id) (input : MoveFolderInput Id)
    (hmove : moveFolder key t folderId input = some t') :
    ∃ folder newPath newParentId, findFolder t.tree.folders folderId = some folder ∧
      planFolderMove key t.tree.folders folder input = .ok (newPath, newParentId) ∧
      (SubtreeMoves folder newParentId (input.name.getD (basename newPath)) newPath t t' ↔
        newPath = folder.path ∨ CutSound folder newPath t) ∧
      (TreeInv key t.tree → (input.path = none → newPath ≠ [] ∧ ∀ name ∈ input.name, '/' ∉ name) →
        isBelow folder.path newPath = false) := by
  obtain ⟨folder, newPath, newParentId, hfind, hplan, hcycle, rfl⟩ := moveFolder_spec hmove
  obtain ⟨hfolder, _⟩ := FolderMoves.findFolder_mem hfind
  refine ⟨folder, newPath, newParentId, hfind, hplan, ?_, fun htree hname => ?_⟩
  · split
    next hsame =>
      subst hsame
      exact iff_of_true subtreeMoves_renamed (.inl rfl)
    next hother =>
      rw [subtreeMoves_moved_iff hfolder]
      exact ⟨.inr, fun h => h.resolve_left hother⟩
  · exact htree.not_below_new hfolder (htree.planFolderMove hfolder hname hplan).1 hcycle

section Runs

/-- a folder of that path, a note, a file and its blob in it, and a folder beside it -/
def vault (path : Path) : Tables ℕ where
  tree := {
    folders := [⟨1, 0, none, path, path⟩, ⟨2, 0, none, ['1'], ['1']⟩]
    notes := [⟨3, 0, some 1, none, path ++ ['/', 'a'], false⟩]
    files := [⟨4, 0, some 1, path ++ ['/', 'b']⟩] }
  blobs := [⟨5, 0, some 4, path ++ ['/', 'b']⟩]

/-- a folder with a character of `LIKE` for a name -/
theorem subtree_moves_percent : (moveFolder id (vault ['%']) 1 { name := some ['q'] }).isSome ∧
    ∀ t', moveFolder id (vault ['%']) 1 { name := some ['q'] } = some t' →
      SubtreeMoves ⟨1, 0, none, ['%'], ['%']⟩ none ['q'] ['q'] (vault ['%']) t' := by
  refine ⟨by decide, fun t' hmove => ?_⟩
  obtain ⟨folder, newPath, newParentId, hfind, hplan, hiff, _⟩ := subtree_moves_iff id (vault ['%']) t' 1 _ hmove
  cases hfind
  obtain ⟨rfl, rfl⟩ := Prod.mk.inj (Except.ok.inj hplan)
  exact hiff.2 (.inr ⟨.inl rfl, by decide⟩)

def astral : Char := Char.ofNat 0x1F600

/-- the note `😀/a` of the folder `😀` that moves to `q` is at `qa` -/
theorem cut_too_late : ∃ t', moveFolder id (vault [astral]) 1 { name := some ['q'] } = some t' ∧
    ¬ SubtreeMoves ⟨1, 0, none, [astral], [astral]⟩ none ['q'] ['q'] (vault [astral]) t' := by
  refine ⟨_, rfl, fun h => ?_⟩
  obtain ⟨hnote, _⟩ := forall₂_cons.1 h.notes
  have hmoved := hnote.below rfl ['a'] rfl
  exact absurd (congrArg NoteRow.relPath hmoved) (by decide)

end Runs

end

end Baalda.SubtreeMove
