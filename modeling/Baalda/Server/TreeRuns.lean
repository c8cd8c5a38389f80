/-
Runs of everything that changes the tree: registrations, moves, deletions, checkpoints and reverts, each as one
transaction, on the tables of all vaults.

`tree_located`: in a run in which no folder is given a path for a name, no folder whose path has a character outside the
basic plane moves with something below it, and a revert moves no folder from under an item that it leaves where it is,
paths and parents agree in every state.
-/
import Baalda.Lib.Machine
import Baalda.Lib.Slots
import Baalda.Server.TreeLocation

namespace Baalda.TreeRuns

open VaultTree RegisterNotes TreeOps VaultRevert TreeLocation List
open FileRaces (FileInput fileIds)

variable {Id K : Type*}

section

variable [DecidableEq Id] [DecidableEq K]

/-! ## The machine -/

structure St (Id : Type*) where
  db : Db Id := ⟨[], [], [], [], []⟩
  checkpoints : List (Checkpoint Id) := []

inductive Action (Id : Type*) where
  | registerFolder (vaultId : Id) (reads : Reads Id) (input : FolderInput Id)
  | registerNotes (vaultId : Id) (reads : Reads Id) (inputs : List (NoteInput Id))
  | registerFile (vaultId : Id) (reads : Reads Id) (input : FileInput Id)
  | moveFolder (folderId : Id) (input : MoveFolderInput Id)
  | moveNote (docId : Id) (input : MoveNoteInput Id)
  | deleteFolderCascade (folderId : Id)
  /-- `pinned`: the files whose bytes are kept; `bodies`: the texts there are -/
  | createCheckpoint (vaultId : Id) (pinned : Id → Bool) (bodies : Id → Option Text)
  /-- to the `i`-th checkpoint, after one of how it is now -/
  | revertVaultToCheckpoint (i : ℕ) (pinned : Id → Bool) (bodies : Id → Option Text)

/-- the orders of names -/
structure Orders where
  collate : Path → Path → Bool
  localeLe : Path → Path → Bool

variable (key : Path → K) (orders : Orders)

def step (s : St Id) : Action Id → St Id
  | .registerFolder vaultId reads input => match registerFolder key s.db vaultId reads input with
    | some r => { s with db := r.1 }
    | none => s
  | .registerNotes vaultId reads inputs => match TreeOps.registerNotes key s.db vaultId reads inputs with
    | some r => { s with db := r.1 }
    | none => s
  | .registerFile vaultId reads input => match registerFile key s.db vaultId reads input with
    | some r => { s with db := r.1 }
    | none => s
  | .moveFolder folderId input => { s with db := (moveFolder key s.db folderId input).getD s.db }
  | .moveNote docId input => { s with db := (moveNote key s.db docId input).getD s.db }
  | .deleteFolderCascade folderId => { s with db := (deleteFolderCascade s.db folderId).getD s.db }
  | .createCheckpoint vaultId pinned bodies =>
    { s with checkpoints := s.checkpoints ++ [captureCheckpoint orders.collate s.db vaultId pinned bodies] }
  | .revertVaultToCheckpoint i pinned bodies => match s.checkpoints[i]? with
    | some c => match revertStructure key orders.localeLe s.db c with
      | some r => {
        db := r.db
        checkpoints := s.checkpoints ++ [captureCheckpoint orders.collate s.db c.vaultId pinned bodies] }
      | none => s
    | none => s

def run (s : St Id) (as : List (Action Id)) : St Id := Machine.run (step key orders) s as

/-! ## The condition -/

/-- where the item hangs from a folder of the checkpoint, it has the path that folder had -/
def StaysUnder (c : Checkpoint Id) (parentId : Option Id) (path : Path) : Prop :=
  ∀ p ∈ parentId, ∀ s ∈ c.folders, s.id = p → s.path = dirname path

structure RevertSound (localeLe : Path → Path → Bool) (db : Db Id) (c : Checkpoint Id) : Prop where
  /-- folders that the checkpoint does not have -/
  folders : ∀ f ∈ db.folders, f.vaultId = c.vaultId → f.id ∉ VaultRevert.folderIds c.folders →
    StaysUnder c f.parentId f.path
  files : ∀ f ∈ db.files, f.vaultId = c.vaultId → StaysUnder c f.folderId f.path
  /-- a folder that is gone, and whose path another folder of the checkpoint has until its turn, had nothing in it -/
  apart : (byDepth localeLe c.folders).Pairwise fun s t => Takes db c.vaultId s t → Bare c s.id

def Sound (s : St Id) : Action Id → Prop
  | .moveFolder folderId input => ∀ folder ∈ findFolder s.db.folders folderId, ∀ newPath newParentId,
      planFolderMove key s.db.folders folder input = .ok (newPath, newParentId) →
        closesCycle s.db.folders folder newParentId = false → folderClashes key s.db.folders folder newPath = false →
          MoveSound s.db folder input newPath
  | .revertVaultToCheckpoint i _ _ => ∀ c ∈ s.checkpoints[i]?, RevertSound orders.localeLe s.db c
  | _ => True

/-! ## The invariant -/

/-- an item of a checkpoint hangs from a folder of it -/
structure HangsFrom (c : Checkpoint Id) (parentId : Option Id) (path : Path) : Prop where
  root : dirname path = [] ↔ parentId = none
  parent : ∀ p ∈ parentId, ∃ s ∈ c.folders, s.id = p ∧ s.path = dirname path

structure SnapshotOk (c : Checkpoint Id) : Prop where
  folderIds : (VaultRevert.folderIds c.folders).Nodup
  noteIds : (docIds c.notes).Nodup
  paths : ∀ f ∈ c.folders, ∀ g ∈ c.folders, f.path = g.path → f.id = g.id
  folders : ∀ f ∈ c.folders, HangsFrom c f.parentId f.path
  notes : ∀ n ∈ c.notes, HangsFrom c n.folderId n.relPath
  files : ∀ f ∈ c.files, HangsFrom c f.folderId f.path
  named : ∀ f ∈ c.folders, f.path ≠ []

structure St.Ok (s : St Id) : Prop where
  tree : TreeInv key s.db
  snapshots : ∀ c ∈ s.checkpoints, SnapshotOk c

/-! ## Checkpoints -/

section

variable {key} {db : Db Id} {c : Checkpoint Id} {localeLe : Path → Path → Bool}

theorem depth_eq (path : Path) : depth path = path.count '/' + 1 := by
  unfold depth
  induction path with
  | nil => rfl
  | cons x path ih =>
    rw [splitOn_cons_eq_if_modifyHead, count_cons]
    split
    · rw [length_cons, ih]
    · rw [length_modifyHead, ih, Nat.add_zero]

theorem depth_dirname {path : Path} (h : dirname path ≠ []) : depth (dirname path) < depth path := by
  have hcount := congrArg (count '/') (eq_dirname_basename (slash_mem_of_dirname h))
  simp only [count_append, count_cons_self] at hcount
  rw [depth_eq, depth_eq]
  omega

theorem byDepth_perm (folders : List (CheckpointFolder Id)) : (byDepth localeLe folders).Perm folders :=
  (mergeSort_perm _ _).trans (mergeSort_perm _ _)

theorem byDepth_sorted (folders : List (CheckpointFolder Id)) :
    (byDepth localeLe folders).Pairwise fun s t => depth s.path ≤ depth t.path := by
  obtain ⟨le, hle⟩ : ∃ le : CheckpointFolder Id → CheckpointFolder Id → Bool,
    le = fun a b => decide (depth a.path ≤ depth b.path) := ⟨_, rfl⟩
  have htrans : ∀ a b c, le a b = true → le b c = true → le a c = true := by
    intro a b c hab hbc
    simp only [hle, decide_eq_true_eq] at hab hbc ⊢
    exact hab.trans hbc
  have htotal : ∀ a b, (le a b || le b a) = true := by
    intro a b
    simpa [hle] using Nat.le_total (depth a.path) (depth b.path)
  have hsorted := pairwise_mergeSort htrans htotal (folders.mergeSort fun a b => localeLe a.path b.path)
  unfold byDepth
  rw [← hle]
  exact hsorted.imp fun h => by simpa [hle] using h

theorem SnapshotOk.orderly (h : SnapshotOk c)
    (hapart : (byDepth localeLe c.folders).Pairwise fun s t => Takes db c.vaultId s t → Bare c s.id) :
    Orderly c.vaultId db c (byDepth localeLe c.folders) := by
  have hperm : (byDepth localeLe c.folders).Perm c.folders := byDepth_perm c.folders
  have hids : (byDepth localeLe c.folders).Pairwise fun s t => s.id ≠ t.id := by
    have hnodup : (VaultRevert.folderIds (byDepth localeLe c.folders)).Nodup := (hperm.map _).nodup_iff.2 h.folderIds
    exact pairwise_map.1 hnodup
  refine ⟨hids, ?_, ?_, hapart⟩
  · apply hids.imp_of_mem
    intro s t hs ht hne heq
    exact hne (h.paths s (hperm.mem_iff.1 hs) t (hperm.mem_iff.1 ht) heq)
  · intro done s todo hsplit q hq
    have hs : s ∈ c.folders := hperm.mem_iff.1 (by rw [hsplit]; simp)
    obtain ⟨s', hs', hid, hpath⟩ := (h.folders s hs).parent q hq
    have hroot : dirname s.path ≠ [] := fun hnil => absurd ((h.folders s hs).root.1 hnil ▸ hq) (by simp)
    have hlt : depth s'.path < depth s.path := hpath ▸ depth_dirname hroot
    have hmem : s' ∈ done ++ s :: todo := hsplit ▸ hperm.mem_iff.2 hs'
    have hsorted : (byDepth localeLe c.folders).Pairwise fun s t => depth s.path ≤ depth t.path :=
      byDepth_sorted c.folders
    rw [hsplit] at hsorted
    rcases mem_append.1 hmem with hdone | htodo
    · exact hid ▸ mem_map_of_mem hdone
    · -- what comes later is as deep
      rcases mem_cons.1 htodo with rfl | htodo
      · exact absurd hlt (lt_irrefl _)
      · have hle := (pairwise_cons.1 (pairwise_append.1 hsorted).2.1).1 s' htodo
        omega

theorem snapshotOk_capture (h : TreeInv key db) (collate : Path → Path → Bool) (vaultId : Id) (pinned : Id → Bool)
    (bodies : Id → Option Text) : SnapshotOk (captureCheckpoint collate db vaultId pinned bodies) := by
  obtain ⟨c, hc⟩ : ∃ c, c = captureCheckpoint collate db vaultId pinned bodies := ⟨_, rfl⟩
  have hfolders : ∀ s, s ∈ c.folders ↔ ∃ f ∈ db.folders, f.vaultId = vaultId ∧ toCheckpointFolder f = s := by
    intro s
    rw [hc, captureCheckpoint]
    simp [mem_mergeSort, and_assoc]
  have hnotes : ∀ s, s ∈ c.notes ↔ ∃ n ∈ db.notes, (n.vaultId = vaultId ∧ n.deleted = false) ∧
      toCheckpointNote n = s := by
    intro s
    rw [hc, captureCheckpoint]
    simp [mem_mergeSort, and_assoc]
  have hfiles : ∀ s ∈ c.files, ∃ f ∈ db.files, f.vaultId = vaultId ∧ toPinnedFile f = s := by
    intro s hs
    rw [hc, captureCheckpoint] at hs
    simp only [mem_mergeSort, mem_map, mem_filter, decide_eq_true_eq] at hs
    obtain ⟨f, ⟨hf, hvault, _⟩, rfl⟩ := hs
    exact ⟨f, hf, hvault, rfl⟩
  have hhangs : ∀ (parentId : Option Id) (path : Path), Located db.folders vaultId parentId path →
      HangsFrom c parentId path := by
    intro parentId path hlocated
    refine ⟨hlocated.root, fun q hq => ?_⟩
    obtain ⟨f, hf, hid, hvault, hpath⟩ := hlocated.parent q hq
    exact ⟨toCheckpointFolder f, (hfolders _).2 ⟨f, hf, hvault, rfl⟩, hid, hpath⟩
  rw [← hc]
  refine ⟨?_, ?_, ?_, ?_, ?_, ?_, ?_⟩
  · have hnodup : (((db.folders.filter fun f => f.vaultId = vaultId).map toCheckpointFolder).map
        CheckpointFolder.id).Nodup := by
      rw [map_map]
      exact h.constraints.folderIds.sublist (filter_sublist.map _)
    have hperm := mergeSort_perm ((db.folders.filter fun f => f.vaultId = vaultId).map toCheckpointFolder)
      fun a b => collate a.path b.path
    rw [hc, captureCheckpoint]
    exact (hperm.map _).nodup_iff.2 hnodup
  · have hnodup : (((db.notes.filter fun n => n.vaultId = vaultId ∧ n.deleted = false).map toCheckpointNote).map
        CheckpointNote.id).Nodup := by
      rw [map_map]
      exact h.constraints.noteIds.sublist (filter_sublist.map _)
    have hperm := mergeSort_perm
      ((db.notes.filter fun n => n.vaultId = vaultId ∧ n.deleted = false).map toCheckpointNote)
      fun a b => collate a.relPath b.relPath
    rw [hc, captureCheckpoint]
    exact (hperm.map _).nodup_iff.2 hnodup
  · intro s hs t ht hpath
    obtain ⟨f, hf, hfvault, rfl⟩ := (hfolders s).1 hs
    obtain ⟨g, hg, hgvault, rfl⟩ := (hfolders t).1 ht
    have hkeys : key f.path = key g.path := congrArg key hpath
    exact h.constraints.folderPaths f hf g hg (hfvault.trans hgvault.symm) hkeys
  · intro s hs
    obtain ⟨f, hf, hvault, rfl⟩ := (hfolders s).1 hs
    exact hhangs _ _ (hvault ▸ h.folders f hf)
  · intro s hs
    obtain ⟨n, hn, ⟨hvault, hlive⟩, rfl⟩ := (hnotes s).1 hs
    exact hhangs _ _ (hvault ▸ h.notes n hn hlive)
  · intro s hs
    obtain ⟨f, hf, hvault, rfl⟩ := hfiles s hs
    exact hhangs _ _ (hvault ▸ h.files f hf)
  · intro s hs
    obtain ⟨f, hf, _, rfl⟩ := (hfolders s).1 hs
    exact h.named f hf

end

/-! ## Reverting -/

section

variable {key} {db : Db Id} {c : Checkpoint Id} {p : FolderProgress Id} {done : List (CheckpointFolder Id)}

/-- an item of the checkpoint, under the folder its folder has become -/
theorem HangsFrom.located (hdone : ∀ s, s ∈ done ↔ s ∈ c.folders) (hp : FolderInv key c.vaultId db c done p)
    {parentId : Option Id} {path : Path} (h : HangsFrom c parentId path)
    (hheld : ∀ q ∈ parentId, ¬ Bare c q) :
    Located p.db.folders c.vaultId (parentId.map (mapped p.folderIdMap)) path := by
  refine ⟨by simp [h.root], fun q hq => ?_⟩
  obtain ⟨id, hid, rfl⟩ := Option.map_eq_some_iff.1 hq
  obtain ⟨s, hs, rfl, hpath⟩ := h.parent id hid
  obtain ⟨f, hf, hfid, hvault, hfpath⟩ := hp.placed s ((hdone s).2 hs) (hheld s.id hid)
  exact ⟨f, hf, hfid, hvault, hfpath.trans hpath⟩

/-- an item that stays where it is -/
theorem located_reverted (hok : Constraints key db) (hdone : ∀ s, s ∈ done ↔ s ∈ c.folders)
    (hp : FolderInv key c.vaultId db c done p) {vaultId : Id} {parentId : Option Id} {path : Path}
    (h : Located db.folders vaultId parentId path) (hstays : vaultId = c.vaultId → StaysUnder c parentId path) :
    Located p.db.folders vaultId parentId path := by
  refine ⟨h.root, fun q hq => ?_⟩
  obtain ⟨g, hg, rfl, hvault, hpath⟩ := h.parent q hq
  obtain ⟨f, hf, hid, hfvault⟩ := hp.stay g hg
  refine ⟨f, hf, hid, hfvault.trans hvault, ?_⟩
  rcases hp.rows f hf with ⟨hold, _⟩ | ⟨hf', s, hs, _, hspath, _, hown⟩
  · rw [folder_eq_of_id hok.folderIds hold hg hid, hpath]
  · rcases hown with hown | ⟨_, g', hg', hg'id, _, hg'path⟩
    · rw [hspath]
      exact hstays (hvault.symm.trans (hfvault.symm.trans hf')) g.id hq s ((hdone s).1 hs) (hown.symm.trans hid)
    · obtain rfl : g' = g := folder_eq_of_id hok.folderIds hg' hg (hg'id.trans hid)
      rw [← hg'path, hpath]

/-- a revert whose condition holds -/
theorem inv_revertStructure (h : TreeInv key db) (hc : SnapshotOk c) {localeLe : Path → Path → Bool}
    (hsound : RevertSound localeLe db c) {r : Structure Id} (hr : revertStructure key localeLe db c = some r) :
    TreeInv key r.db := by
  obtain ⟨p, pn, pf, hfolders, _, hpn, hpf, hok, heq, _⟩ := revertStructure_eq_some h.constraints hc.noteIds hr
  have horder := hc.orderly hsound.apart
  obtain ⟨done, hdoneEq⟩ : ∃ done, done = (byDepth localeLe c.folders).reverse := ⟨_, rfl⟩
  have hdone : ∀ s, s ∈ done ↔ s ∈ c.folders := by
    intro s
    rw [hdoneEq, mem_reverse]
    exact (byDepth_perm c.folders).mem_iff
  have hp : FolderInv key c.vaultId db c done p := by
    rw [hdoneEq]
    exact FolderInv.revertFolders horder rfl (FolderInv.start h.constraints) hfolders
  have hsameFolders : pf.db.folders = p.db.folders := by
    rw [hpf.frame]
    rw [hpn.frame]
  have hsameNotes : pf.db.notes = pn.db.notes := by rw [hpf.frame]
  have holdNotes : p.db.notes = db.notes := by rw [hp.frame]
  have holdFiles : pn.db.files = db.files := by
    rw [hpn.frame]
    rw [hp.frame]
  have hheldFolder : ∀ s ∈ c.folders, ∀ q ∈ s.parentId, ¬ Bare c q := fun s hs q hq hbare => hbare.1 s hs hq
  have hheldNote : ∀ n ∈ c.notes, ∀ q ∈ n.folderId, ¬ Bare c q := fun n hn q hq hbare => hbare.2.1 n hn hq
  have hheldFile : ∀ f ∈ c.files, ∀ q ∈ f.folderId, ¬ Bare c q := fun f hf q hq hbare => hbare.2.2 f hf hq
  have hfolderRows : ∀ f ∈ p.db.folders, Located p.db.folders f.vaultId f.parentId f.path := by
    intro f hf
    rcases hp.rows f hf with ⟨hold, hnot⟩ | ⟨hvault, s, hs, _, hpath, hparent, _⟩
    · refine located_reverted h.constraints hdone hp (h.folders f hold) fun hvault => ?_
      refine hsound.folders f hold hvault fun hmem => hnot hvault ?_
      obtain ⟨s, hs, hid⟩ := mem_map.1 hmem
      exact mem_map.2 ⟨s, (hdone s).2 hs, hid⟩
    · rw [hvault, hpath, hparent]
      exact (hc.folders s ((hdone s).1 hs)).located hdone hp (hheldFolder s ((hdone s).1 hs))
  have hnamed : ∀ f ∈ p.db.folders, f.path ≠ [] := by
    intro f hf
    rcases hp.rows f hf with ⟨hold, _⟩ | ⟨_, s, hs, _, hpath, _⟩
    · exact h.named f hold
    · rw [hpath]
      exact hc.named s ((hdone s).1 hs)
  have hfileRows : ∀ f ∈ pf.db.files, Located p.db.folders f.vaultId f.folderId f.path := by
    intro f hf
    rcases hpf.rows f hf with hold | ⟨pin, hpin, rfl⟩
    · rw [holdFiles] at hold
      exact located_reverted h.constraints hdone hp (h.files f hold) (hsound.files f hold)
    · have hpin : pin ∈ c.files := by simpa using hpin
      have hlocated := (hc.files pin hpin).located hdone hp (hheldFile pin hpin)
      have hkeep : ((pin.folderId.map (mapped p.folderIdMap)).filter
          fun id => HasFolder pn.db.folders c.vaultId id) = pin.folderId.map (mapped p.folderIdMap) := by
        cases hq : pin.folderId.map (mapped p.folderIdMap) with
        | none => rfl
        | some q =>
          obtain ⟨f, hf, hid, hvault, _⟩ := hlocated.parent q hq
          have hthere : HasFolder pn.db.folders c.vaultId q := by
            rw [hpn.frame]
            exact ⟨f, hf, hid, hvault⟩
          simp [Option.filter, hthere]
      rw [hkeep]
      exact hlocated
  rw [heq] at hok ⊢
  refine ⟨hok, ?_, ?_, ?_, ?_⟩
  · rw [hsameFolders]
    exact hfolderRows
  · intro n' hn' hlive
    obtain ⟨n, hn, rfl⟩ := mem_map.1 hn'
    obtain ⟨hlive, hkept⟩ := Bool.or_eq_false_iff.1 hlive
    rw [hsameFolders]
    rw [hsameNotes] at hn
    rcases hpn.rows n hn with ⟨hold, hnot⟩ | ⟨_, s, hs, rfl⟩
    · rw [holdNotes] at hold
      refine located_reverted h.constraints hdone hp (h.notes n hold hlive) fun hvault => ?_
      -- it would have been deleted
      have hdoomed : isDoomed c.vaultId (docIds c.notes) n = true := by
        have hout : n.id ∉ docIds c.notes := by simpa [docIds] using hnot hvault
        exact decide_eq_true ⟨hvault, hlive, hout⟩
      exact absurd (hkept.symm.trans hdoomed) (by simp)
    · have hs : s ∈ c.notes := mem_reverse.1 hs
      exact (hc.notes s hs).located hdone hp (hheldNote s hs)
  · rw [hsameFolders]
    exact hfileRows
  · rw [hsameFolders]
    exact hnamed

end

/-! ## Every step -/

variable {key orders}

theorem ok_step (s : St Id) (a : Action Id) (h : s.Ok key) (hsound : Sound key orders s a) :
    (step key orders s a).Ok key := by
  cases a with
  | registerFolder vaultId reads input =>
    dsimp only [step]
    split
    · next r hr => exact ⟨h.tree.registerFolder hr, h.snapshots⟩
    · exact h
  | registerNotes vaultId reads inputs =>
    dsimp only [step]
    split
    · next r hr => exact ⟨h.tree.registerNotes hr, h.snapshots⟩
    · exact h
  | registerFile vaultId reads input =>
    dsimp only [step]
    split
    · next r hr => exact ⟨h.tree.registerFile hr, h.snapshots⟩
    · exact h
  | moveFolder folderId input =>
    refine ⟨?_, h.snapshots⟩
    dsimp only [step]
    cases hmove : moveFolder key s.db folderId input with
    | none => exact h.tree
    | some db' => exact h.tree.moveFolder hsound hmove
  | moveNote docId input =>
    refine ⟨?_, h.snapshots⟩
    dsimp only [step]
    cases hmove : moveNote key s.db docId input with
    | none => exact h.tree
    | some db' => exact h.tree.moveNote hmove
  | deleteFolderCascade folderId =>
    refine ⟨?_, h.snapshots⟩
    dsimp only [step]
    cases hdelete : deleteFolderCascade s.db folderId with
    | none => exact h.tree
    | some db' => exact h.tree.deleteFolderCascade hdelete
  | createCheckpoint vaultId pinned bodies =>
    refine ⟨h.tree, fun c hc => ?_⟩
    rcases mem_snoc.1 hc with hc | rfl
    · exact h.snapshots c hc
    · exact snapshotOk_capture h.tree orders.collate vaultId pinned bodies
  | revertVaultToCheckpoint i pinned bodies =>
    dsimp only [step]
    cases hc : s.checkpoints[i]? with
    | none => exact h
    | some c =>
      dsimp only
      split
      · next r hr =>
        refine ⟨inv_revertStructure h.tree (h.snapshots c (mem_of_getElem? hc)) (hsound c hc) hr, fun c' hc' => ?_⟩
        rcases mem_snoc.1 hc' with hc' | rfl
        · exact h.snapshots c' hc'
        · exact snapshotOk_capture h.tree orders.collate c.vaultId pinned bodies
      · exact h

theorem located_of_inv {db : Db Id} (h : TreeInv key db) : TreeLocated key db := by
  refine ⟨h.folders, h.notes, h.files, ?_, ?_, ?_⟩
  · intro f hf g hg hvault hpath
    exact folder_eq_of_id h.constraints.folderIds hf hg (h.constraints.folderPaths f hf g hg hvault hpath)
  · intro n hn m hm hvault hpath hlive hlive'
    exact note_eq_of_id h.constraints.noteIds hn hm (h.constraints.notePaths n hn m hm hvault hpath hlive hlive')
  · intro f hf g hg hvault hpath
    exact inj_on_of_nodup_map h.constraints.fileIds hf hg (h.constraints.filePaths f hf g hg hvault hpath)

/-- **Paths and parents agree.** From empty tables, in every run whose moves and reverts meet their conditions, every
live note, file and folder has the path of its parent folder for a directory, its parent is a folder of its vault, and
no two live rows of one kind in a vault have one path. -/
theorem tree_located (as : List (Action Id)) (h : Machine.Guarded (step key orders) (Sound key orders) {} as) :
    TreeLocated key (run key orders {} as).db := by
  have hinit : St.Ok key ({} : St Id) := by
    refine ⟨⟨⟨?_, ?_, ?_, ?_, ?_, ?_, ?_, ?_, ?_⟩, ?_, ?_, ?_, ?_⟩, ?_⟩ <;> simp [ids, noteIds, fileIds]
  have hok : St.Ok key (run key orders {} as) := Machine.run_inv ok_step hinit h
  exact located_of_inv hok.tree

/-- `a` moves to `b`, and back to where the checkpoint has it -/
theorem moved_and_reverted :
    TreeLocated id (run id ⟨fun _ _ => true, fun _ _ => true⟩ ({} : St ℕ)
      [.registerFolder 0 ⟨fun _ => true, fun _ => true, fun _ => true, fun _ => true, false, none⟩
        { path := ['a'], name := ['a'], minted := 1 },
        .createCheckpoint 0 (fun _ => true) (fun _ => none), .moveFolder 1 { name := some ['b'] },
        .revertVaultToCheckpoint 0 (fun _ => true) (fun _ => none)]).db := by
  refine tree_located _ ⟨trivial, trivial, ?_, ?_, trivial⟩
  · intro folder hfolder newPath newParentId hplan _ _
    obtain rfl : folder = ⟨1, 0, none, ['a'], ['a']⟩ := (Option.some.inj hfolder).symm
    obtain rfl := (Prod.mk.inj (Except.ok.inj hplan)).1
    exact ⟨fun _ => ⟨by decide, by decide⟩, fun _ => .inl (by decide)⟩
  · intro c hc
    have hfirst : captureCheckpoint (fun _ _ => true) (⟨[⟨1, 0, none, ['a'], ['a']⟩], [], [], [], []⟩ : Db ℕ) 0
        (fun _ => true) (fun _ => none) = ⟨0, [⟨1, none, ['a'], ['a']⟩], [], [], []⟩ := by
      simp [captureCheckpoint, toCheckpointFolder]
    obtain rfl := (Option.some.inj hc).symm.trans hfirst
    refine ⟨?_, ?_, ?_⟩
    · intro f hf _ hnot
      obtain rfl : f = ⟨1, 0, none, ['b'], ['b']⟩ := mem_singleton.1 hf
      exact absurd (by decide) hnot
    · intro f hf
      exact absurd hf not_mem_nil
    · simp [byDepth]

/-- the folder is called by a character of two code units: what is below loses a slash -/
theorem astral_folder :
    ¬ TreeLocated id (run id ⟨fun _ _ => true, fun _ _ => true⟩ ({} : St ℕ)
      [.registerFolder 0 ⟨fun _ => true, fun _ => true, fun _ => true, fun _ => true, false, none⟩
        { path := [Char.ofNat 0x1F600], name := [Char.ofNat 0x1F600], minted := 1 },
        .registerFolder 0 ⟨fun _ => true, fun _ => true, fun _ => true, fun _ => true, false, none⟩
          { path := [Char.ofNat 0x1F600, '/', 'b'], name := ['b'], minted := 2 },
        .moveFolder 1 { name := some ['a'] }]).db := by
  intro h
  have hroot := (h.folders ⟨2, 0, some 1, ['b'], ['a', 'b']⟩ (by decide)).root
  exact absurd (hroot.1 (by decide)) (by simp)

end

end Baalda.TreeRuns
