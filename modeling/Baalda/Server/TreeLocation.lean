/-
Where the items of a vault are, said twice: by their path and by their parent folder (`registry/tree-ops.ts`,
`registry/batch-ops.ts`).

`TreeInv` says that the two agree. Registrations, moves of notes and deletions of folders keep it; a move of a folder
does, unless the folder is given a path for a name, or has a character outside the basic plane in its path and something
below it.
-/
import Baalda.Lib.Machine
import Baalda.Lib.Slots
import Baalda.Server.FolderMoves
import Baalda.Server.NoteRaces
import Baalda.Server.VaultRevert

namespace Baalda.TreeLocation

open VaultTree RegisterNotes TreeOps VaultRevert List Option
open FileRaces (FileInput fileByKey fileIds moveRow)

variable {Id K : Type*}

/-! ## What is to hold -/

/-- the parent folder is there, in the vault, and its path is the directory of the item's path; root: no parent -/
structure Located (folders : List (FolderRow Id)) (vaultId : Id) (parentId : Option Id) (path : Path) : Prop where
  root : dirname path = [] ↔ parentId = none
  parent : ∀ p ∈ parentId, ∃ f ∈ folders, f.id = p ∧ f.vaultId = vaultId ∧ f.path = dirname path

structure TreeLocated (key : Path → K) (db : Db Id) : Prop where
  folders : ∀ f ∈ db.folders, Located db.folders f.vaultId f.parentId f.path
  notes : ∀ n ∈ db.notes, n.deleted = false → Located db.folders n.vaultId n.folderId n.relPath
  files : ∀ f ∈ db.files, Located db.folders f.vaultId f.folderId f.path
  folderPaths : ∀ f ∈ db.folders, ∀ g ∈ db.folders, f.vaultId = g.vaultId → key f.path = key g.path → f = g
  notePaths : ∀ n ∈ db.notes, ∀ m ∈ db.notes, n.vaultId = m.vaultId → key n.relPath = key m.relPath →
    n.deleted = false → m.deleted = false → n = m
  filePaths : ∀ f ∈ db.files, ∀ g ∈ db.files, f.vaultId = g.vaultId → key f.path = key g.path → f = g

section

variable [DecidableEq Id] [DecidableEq K] (key : Path → K)

/-! ## When a move keeps it -/

/-- nothing that is live is below the path -/
def NothingBelow (db : Db Id) (vaultId : Id) (path : Path) : Prop :=
  (∀ f ∈ db.folders, f.vaultId = vaultId → isBelow path f.path = false) ∧
    (∀ n ∈ db.notes, n.vaultId = vaultId → n.deleted = false → isBelow path n.relPath = false) ∧
    ∀ f ∈ db.files, f.vaultId = vaultId → isBelow path f.path = false

/-- a folder that moves gets a name, and its path counts in code points as it does in JavaScript, or nothing is below -/
structure MoveSound (db : Db Id) (folder : FolderRow Id) (input : MoveFolderInput Id) (newPath : Path) : Prop where
  name : input.path = none → newPath ≠ [] ∧ ∀ name ∈ input.name, '/' ∉ name
  below : newPath ≠ folder.path →
    utf16Length folder.path = folder.path.length ∨ NothingBelow db folder.vaultId folder.path

/-! ## The invariant -/

structure TreeInv (key : Path → K) (db : Db Id) : Prop where
  constraints : Constraints key db
  folders : ∀ f ∈ db.folders, Located db.folders f.vaultId f.parentId f.path
  notes : ∀ n ∈ db.notes, n.deleted = false → Located db.folders n.vaultId n.folderId n.relPath
  files : ∀ f ∈ db.files, Located db.folders f.vaultId f.folderId f.path
  named : ∀ f ∈ db.folders, f.path ≠ []

/-! ## Registrations and notes that move -/

section

variable {key} {db db' : Db Id} {folders : List (FolderRow Id)} {vaultId : Id} {parentId : Option Id} {path : Path}

theorem Located.mono {folders' : List (FolderRow Id)} (h : Located folders vaultId parentId path)
    (hsub : folders ⊆ folders') : Located folders' vaultId parentId path := by
  refine ⟨h.root, fun p hp => ?_⟩
  obtain ⟨f, hf, hrest⟩ := h.parent p hp
  exact ⟨f, hsub hf, hrest⟩

/-- a name in a folder of the vault -/
theorem Located.join {parent : FolderRow Id} (hmem : parent ∈ folders) (hvault : parent.vaultId = vaultId)
    (hnamed : parent.path ≠ []) {name : Path} (hname : '/' ∉ name) :
    Located folders vaultId (some parent.id) (parent.path ++ '/' :: name) := by
  have hdir : dirname (parent.path ++ '/' :: name) = parent.path := dirname_append hname parent.path
  refine ⟨by simp [hdir, hnamed], ?_⟩
  intro p hp
  cases hp
  exact ⟨parent, hmem, rfl, hvault, hdir.symm⟩

theorem joinPath_eq {dir name : Path} (h : dir ≠ []) : joinPath dir name = dir ++ '/' :: name := if_neg h

/-- where a registration or a move by path puts an item -/
theorem TreeInv.resolveParent (h : TreeInv key db) {input : Option Id} {storedPath : Path}
    (hresolve : resolveParent key db.folders vaultId path input = .ok (parentId, storedPath)) :
    Located db.folders vaultId parentId storedPath ∧ storedPath ≠ [] := by
  have hjoin : ∀ parent ∈ db.folders, parent.vaultId = vaultId →
      Located db.folders vaultId (some parent.id) (joinPath parent.path (basename path)) ∧
        joinPath parent.path (basename path) ≠ [] := by
    intro parent hparent hvault
    rw [joinPath_eq (h.named parent hparent)]
    exact ⟨Located.join hparent hvault (h.named parent hparent) (notMem_basename path), by simp⟩
  unfold VaultTree.resolveParent at hresolve
  split at hresolve
  · cases hresolve
  · next hvalid =>
    cases input with
    | some p =>
      dsimp only at hresolve
      cases hfind : findFolder db.folders p with
      | none =>
        rw [hfind] at hresolve
        cases hresolve
      | some parent =>
        rw [hfind] at hresolve
        dsimp only at hresolve
        split at hresolve
        · cases hresolve
        · next hvault =>
          split at hresolve
          · cases hresolve
          · cases Except.ok.inj hresolve
            exact hjoin parent (mem_of_find?_eq_some hfind) (not_ne_iff.1 hvault)
    | none =>
      dsimp only at hresolve
      split at hresolve
      · next hroot =>
        cases Except.ok.inj hresolve
        refine ⟨⟨by simp [hroot], by simp⟩, ?_⟩
        rintro rfl
        exact hvalid (by decide)
      · cases hfind : findFolderByPath key db.folders vaultId (dirname path) with
        | none =>
          rw [hfind] at hresolve
          cases hresolve
        | some parent =>
          rw [hfind] at hresolve
          cases Except.ok.inj hresolve
          have hparent := find?_some hfind
          simp only [decide_eq_true_eq] at hparent
          exact hjoin parent (mem_of_find?_eq_some hfind) hparent.1

variable {reads : Reads Id} {r : Db Id × RegisterResult Id}

theorem TreeInv.registerFolder (h : TreeInv key db) {input : FolderInput Id}
    (hr : registerFolder key db vaultId reads input = some r) : TreeInv key r.1 := by
  unfold TreeOps.registerFolder at hr
  split at hr
  · cases hr
    exact h
  split at hr
  · cases hr
    exact h
  next parentId storedPath hresolve =>
  split_ifs at hr
  · cases hr
    exact h
  · cases hr
    exact h
  dsimp only at hr
  split at hr
  · next db' hinsert =>
    cases hr
    obtain ⟨hok, rfl⟩ := checked_eq_some.1 hinsert
    obtain ⟨hlocated, hnamed⟩ := h.resolveParent hresolve
    have hsub := subset_append_left db.folders [⟨input.minted, vaultId, parentId, input.name, storedPath⟩]
    refine ⟨hok, ?_, fun n hn hlive => (h.notes n hn hlive).mono hsub, fun f hf => (h.files f hf).mono hsub, ?_⟩
    · intro f hf
      rcases mem_snoc.1 hf with hf | rfl
      · exact (h.folders f hf).mono hsub
      · exact hlocated.mono hsub
    · intro f hf
      rcases mem_snoc.1 hf with hf | rfl
      · exact h.named f hf
      · exact hnamed
  · obtain ⟨winner, _, rfl⟩ := map_eq_some_iff.1 hr
    exact h

/-- a write of `registerFile` that puts every file somewhere -/
theorem TreeInv.writeFile (h : TreeInv key db) {files : List (FileRow Id)} {result : RegisterResult Id}
    (hfiles : ∀ f ∈ files, Located db.folders f.vaultId f.folderId f.path)
    (hr : writeFile key db vaultId reads files path result = some r) : TreeInv key r.1 := by
  unfold TreeOps.writeFile at hr
  split at hr
  · next db' hwrite =>
    cases hr
    obtain ⟨hok, rfl⟩ := checked_eq_some.1 hwrite
    exact ⟨hok, h.folders, h.notes, hfiles, h.named⟩
  · obtain ⟨winner, _, rfl⟩ := map_eq_some_iff.1 hr
    exact h

theorem TreeInv.registerFile (h : TreeInv key db) {input : FileInput Id}
    (hr : registerFile key db vaultId reads input = some r) : TreeInv key r.1 := by
  unfold TreeOps.registerFile at hr
  split at hr
  · cases hr
    exact h
  split at hr
  · cases hr
    exact h
  split at hr
  · cases hr
    exact h
  next folderId storedPath hresolve =>
  obtain ⟨hlocated, _⟩ := h.resolveParent hresolve
  dsimp only at hr
  split at hr
  · cases hr
    exact h
  split at hr
  · cases hr
    exact h
  split at hr
  · next row hfind =>
    have hrow := find?_some hfind
    simp only [decide_eq_true_eq] at hrow
    split at hr
    · cases hr
      exact h
    · apply h.writeFile _ hr
      intro f' hf'
      obtain ⟨f, hf, rfl⟩ := mem_map.1 hf'
      by_cases hid : f.id = input.id
      · obtain rfl : f = row := inj_on_of_nodup_map h.constraints.fileIds hf (mem_of_find?_eq_some hfind)
          (hid.trans hrow.1.symm)
        rw [FileRaces.moveRow_new hid]
        exact hrow.2 ▸ hlocated
      · rw [FileRaces.moveRow_old hid]
        exact h.files f hf
  · split_ifs at hr
    · cases hr
      exact h
    · cases hr
      exact h
    · apply h.writeFile _ hr
      intro f hf
      rcases mem_snoc.1 hf with hf | rfl
      · exact h.files f hf
      · exact hlocated

variable {plan : NoteInsertPlan Id}

theorem planNote_resolved {env : Env Id K} {notes : List (NoteRow Id)} {existing : List Id} {p : Progress Id K}
    {input : NoteInput Id} (h : (planNote env notes existing p input).1 = .planned plan) :
    VaultTree.resolveParent env.key env.folders env.vaultId input.relPath input.folderId =
      .ok (plan.folderId, plan.storedRelPath) := by
  unfold planNote at h
  grind

/-- what a batch plans to insert has been resolved -/
theorem planNotes_resolved (env : Env Id K) (notes : List (NoteRow Id)) (existing : List Id)
    (inputs : List (NoteInput Id)) {p : Progress Id K} (h : .planned plan ∈ planNotes env notes existing p inputs) :
    ∃ path input,
      VaultTree.resolveParent env.key env.folders env.vaultId path input = .ok (plan.folderId, plan.storedRelPath) := by
  induction inputs generalizing p with
  | nil => exact absurd h not_mem_nil
  | cons input inputs ih =>
    rcases mem_cons.1 h with heq | h
    · exact ⟨input.relPath, input.folderId, planNote_resolved heq.symm⟩
    · exact ih h

theorem mem_outcomes_of_mem_firsts (outcomes : List (Outcome Id)) {seen : List Id} (h : plan ∈ firsts seen outcomes) :
    .planned plan ∈ outcomes := by
  induction outcomes generalizing seen with
  | nil => exact absurd h not_mem_nil
  | cons outcome outcomes ih =>
    cases outcome with
    | answered result => exact .tail _ (ih h)
    | planned plan' =>
      unfold firsts at h
      split at h
      · exact .tail _ (ih h)
      · rcases mem_cons.1 h with rfl | h
        · exact .head _
        · exact .tail _ (ih h)

/-- rows that were there or are planned, and none twice -/
structure Planned (env : Env Id K) (plans : List (NoteInsertPlan Id)) (notes notes' : List (NoteRow Id)) : Prop where
  indexed : NoteRaces.Indexed env.key notes'
  rows : ∀ n ∈ notes', n ∈ notes ∨ ∃ plan ∈ plans, n = plan.row env.vaultId

variable {env : Env Id K} {plans : List (NoteInsertPlan Id)} {notes notes₁ notes' : List (NoteRow Id)}

theorem Planned.insertOne (h : Planned env plans notes notes₁) (hplan : plan ∈ plans)
    (hinsert : insertOne env notes₁ plan = some notes') : Planned env plans notes notes' := by
  refine ⟨(h.indexed.insertOne hinsert).2.1, ?_⟩
  intro n hn
  rcases NoteRaces.insertOne_some hinsert with ⟨_, rfl⟩ | ⟨_, _, rfl⟩
  · exact h.rows n hn
  · rcases mem_snoc.1 hn with hn | hn
    · exact h.rows n hn
    · exact .inr ⟨plan, hplan, hn⟩

theorem Planned.insertAll (h : Planned env plans notes notes₁) {todo : List (NoteInsertPlan Id)} (htodo : todo ⊆ plans)
    (hinsert : insertAll env notes₁ todo = some notes') : Planned env plans notes notes' := by
  induction todo generalizing notes₁ with
  | nil =>
    cases hinsert
    exact h
  | cons plan todo ih =>
    obtain ⟨hplan, hrest⟩ := cons_subset.1 htodo
    obtain ⟨notes₂, hone, hall⟩ := bind_eq_some_iff.1 hinsert
    exact ih (h.insertOne hplan hone) hrest hall

theorem Planned.replay (h : Planned env plans notes notes₁) {todo : List (NoteInsertPlan Id)} (htodo : todo ⊆ plans)
    {r : List (NoteRow Id) × List (NoteInsertPlan Id × RegisterResult Id)}
    (hreplay : replay env notes₁ todo = some r) : Planned env plans notes r.1 := by
  induction todo generalizing notes₁ r with
  | nil =>
    cases hreplay
    exact h
  | cons plan todo ih =>
    obtain ⟨hplan, hrest⟩ := cons_subset.1 htodo
    unfold RegisterNotes.replay at hreplay
    cases hone : RegisterNotes.insertOne env notes₁ plan with
    | some notes₂ =>
      rw [hone] at hreplay
      exact ih (h.insertOne hplan hone) hrest hreplay
    | none =>
      rw [hone] at hreplay
      dsimp only at hreplay
      split at hreplay
      · obtain ⟨r', hr', rfl⟩ := map_eq_some_iff.1 hreplay
        exact (ih h hrest hr' :)
      · cases hreplay

theorem TreeInv.registerNotes (h : TreeInv key db) {inputs : List (NoteInput Id)}
    {r : Db Id × List (RegisterResult Id)} (hr : TreeOps.registerNotes key db vaultId reads inputs = some r) :
    TreeInv key r.1 := by
  obtain ⟨r', hr', rfl⟩ := map_eq_some_iff.1 hr
  obtain ⟨env, henv⟩ : ∃ env : Env Id K, env =
    ⟨key, vaultId, db.folders, reads.canCreateIn, reads.canAdoptDoc, reads.rootFrozen, reads.cap⟩ := ⟨_, rfl⟩
  rw [← henv] at hr'
  have hkey : env.key = key := by rw [henv]
  have hvaultId : env.vaultId = vaultId := by rw [henv]
  have hfolders : env.folders = db.folders := by rw [henv]
  have hindexed : NoteRaces.Indexed env.key db.notes := by
    rw [hkey]
    refine ⟨h.constraints.noteIds, fun n hn m hm hvault hpath hlive hlive' => ?_⟩
    exact note_eq_of_id h.constraints.noteIds hn hm (h.constraints.notePaths n hn m hm hvault hpath hlive hlive')
  unfold RegisterNotes.registerNotes at hr'
  obtain ⟨existing, hexisting⟩ : ∃ existing, existing = probeIds db.notes (inputs.filterMap NoteInput.docId) := ⟨_, rfl⟩
  rw [← hexisting] at hr'
  obtain ⟨outcomes, houtcomes⟩ : ∃ outcomes, outcomes = planNotes env db.notes existing
    { cache := prefetchNotes env db.notes inputs, remaining := env.cap.map (· - liveCount env db.notes) } inputs :=
    ⟨_, rfl⟩
  rw [← houtcomes] at hr'
  have hplanned : Planned env (firsts [] outcomes) db.notes r'.1 := by
    have hstart : Planned env (firsts [] outcomes) db.notes db.notes := ⟨hindexed, fun n hn => .inl hn⟩
    unfold applyNoteInserts at hr'
    dsimp only at hr'
    split at hr'
    · next notes' hinsert =>
      cases hr'
      exact hstart.insertAll (Subset.refl _) hinsert
    · obtain ⟨r'', hreplay, rfl⟩ := map_eq_some_iff.1 hr'
      exact hstart.replay (Subset.refl _) hreplay
  have hlocated : ∀ plan ∈ firsts [] outcomes, Located db.folders vaultId plan.folderId plan.storedRelPath := by
    intro plan hplan
    obtain ⟨path, input, hresolve⟩ :=
      planNotes_resolved env db.notes existing inputs (houtcomes ▸ mem_outcomes_of_mem_firsts outcomes hplan)
    rw [hkey, hvaultId, hfolders] at hresolve
    exact (h.resolveParent hresolve).1
  have hrow : ∀ n ∈ r'.1, n.deleted = false → Located db.folders n.vaultId n.folderId n.relPath := by
    intro n hn hlive
    rcases hplanned.rows n hn with hold | ⟨plan, hplan, rfl⟩
    · exact h.notes n hold hlive
    · rw [hvaultId]
      exact hlocated plan hplan
  have hok := h.constraints
  refine ⟨⟨hok.folderIds, hok.folderPaths, hok.folderParents, hplanned.indexed.ids, ?_, ?_, hok.fileIds, hok.filePaths,
    hok.fileFolders⟩, h.folders, hrow, h.files, h.named⟩
  · intro n hn m hm hvault hpath hlive hlive'
    rw [hplanned.indexed.paths n hn m hm hvault (by rw [hkey, hpath]) hlive hlive']
  · intro n hn q hq
    rcases hplanned.rows n hn with hold | ⟨plan, hplan, rfl⟩
    · exact h.constraints.noteFolders n hold q hq
    · obtain ⟨f, hf, hid, hvault, _⟩ := (hlocated plan hplan).parent q hq
      exact ⟨f, hf, hid, by rw [hvault]; exact hvaultId.symm⟩

/-- where a note that moves is put -/
theorem TreeInv.planNoteMove (h : TreeInv key db) {note : NoteRow Id} (hnote : note ∈ db.notes)
    (hlive : note.deleted = false) {input : MoveNoteInput Id} {relPath : Path} {folderId : Option Id}
    (hplan : planNoteMove key db.folders note input = .ok (relPath, folderId)) :
    Located db.folders note.vaultId folderId relPath := by
  unfold TreeOps.planNoteMove at hplan
  cases hpath : input.relPath with
  | some path =>
    rw [hpath] at hplan
    dsimp only at hplan
    split at hplan
    · next folderId' relPath' hresolve =>
      cases Except.ok.inj hplan
      exact (h.resolveParent hresolve).1
    · cases hplan
  | none =>
    rw [hpath] at hplan
    dsimp only at hplan
    split at hplan
    · cases Except.ok.inj hplan
      exact ⟨by simp [dirname_name (notMem_basename note.relPath)], by simp⟩
    · split at hplan
      · cases hplan
      · next parent hfind =>
        split at hplan
        · cases hplan
        · next hvault =>
          cases Except.ok.inj hplan
          have hmem : parent ∈ db.folders := mem_of_find?_eq_some hfind
          exact Located.join hmem (not_ne_iff.1 hvault) (h.named parent hmem) (notMem_basename note.relPath)
    · cases Except.ok.inj hplan
      exact h.notes note hnote hlive

theorem TreeInv.moveNote (h : TreeInv key db) {docId : Id} {input : MoveNoteInput Id}
    (hmove : moveNote key db docId input = some db') : TreeInv key db' := by
  unfold TreeOps.moveNote at hmove
  split at hmove
  · cases hmove
  next note hfind =>
  have hnote := find?_some hfind
  simp only [decide_eq_true_eq] at hnote
  have hmem : note ∈ db.notes := mem_of_find?_eq_some hfind
  split at hmove
  · cases hmove
  next relPath folderId hplan =>
  split at hmove
  · cases hmove
  obtain ⟨hok, rfl⟩ := checked_eq_some.1 hmove
  refine ⟨hok, h.folders, ?_, h.files, h.named⟩
  intro n' hn' hlive
  obtain ⟨n, hn, rfl⟩ := mem_map.1 hn'
  by_cases hid : n.id = docId
  · obtain rfl : n = note := note_eq_of_id h.constraints.noteIds hn hmem (hid.trans hnote.1.symm)
    rw [if_pos hid]
    exact h.planNoteMove hmem hnote.2 hplan
  · rw [if_neg hid] at hlive ⊢
    exact h.notes n hn hlive

end

/-! ## Deleting a folder -/

section

variable {key} {db db' : Db Id} {folder : FolderRow Id}

theorem length_dirname {path : Path} (h : dirname path ≠ []) : (dirname path).length < path.length := by
  have hslash : '/' ∈ path := by
    by_contra hnot
    exact h (dirname_name hnot)
  have hlength := congrArg length (eq_dirname_basename hslash)
  simp only [length_append, length_cons] at hlength
  omega

section

variable (h : TreeInv key db)

include h

theorem TreeInv.findFolder (hmem : folder ∈ db.folders) : findFolder db.folders folder.id = some folder := by
  obtain ⟨f, hf⟩ := FolderMoves.mem_ids_iff.1 (mem_map_of_mem (f := FolderRow.id) hmem)
  obtain ⟨hf', hid⟩ := FolderMoves.findFolder_mem hf
  rw [hf, folder_eq_of_id h.constraints.folderIds hf' hmem hid]

theorem TreeInv.parentOf (hmem : folder ∈ db.folders) : parentOf db.folders folder.id = folder.parentId := by
  unfold VaultTree.parentOf
  rw [h.findFolder hmem]
  rfl

/-- a parent's path is shorter -/
theorem TreeInv.acyclic : FolderMoves.Acyclic db.folders := by
  refine ⟨fun id => ((VaultTree.findFolder db.folders id).map fun f => f.path.length).getD 0, ?_⟩
  intro x hx q hq
  obtain ⟨f, hf, rfl⟩ := mem_map.1 hx
  rw [h.parentOf hf] at hq
  obtain ⟨g, hg, rfl, _, hpath⟩ := (h.folders f hf).parent q hq
  refine ⟨mem_map_of_mem hg, ?_⟩
  dsimp only
  rw [h.findFolder hf, h.findFolder hg, map_some, map_some, getD_some, getD_some, hpath]
  apply length_dirname
  intro hroot
  exact absurd ((h.folders f hf).root.1 hroot ▸ hq) (by simp)

theorem TreeInv.mem_subtree {id x : Id} : x ∈ subtree db.folders id ↔
    id ∈ Forest.ancestors (ids db.folders) (VaultTree.parentOf db.folders) x := by
  unfold subtree
  rw [Forest.mem_descendants h.acyclic]
  simp

/-- what hangs from a folder of the subtree is in it -/
theorem TreeInv.subtree_child {id q : Id} {f : FolderRow Id} (hf : f ∈ db.folders)
    (hq : f.parentId = some q) (hmem : q ∈ subtree db.folders id) : f.id ∈ subtree db.folders id := by
  rw [h.mem_subtree] at hmem ⊢
  exact Forest.mem_ancestors_of_parent h.acyclic (mem_map_of_mem hf) ((h.parentOf hf).trans hq) hmem

/-- a subtree is in one vault -/
theorem TreeInv.subtree_vault (hfolder : folder ∈ db.folders) :
    ∀ x ∈ ids db.folders, ∀ f ∈ db.folders, f.id = x → x ∈ subtree db.folders folder.id →
      f.vaultId = folder.vaultId := by
  refine h.acyclic.ind ?_ ?_
  · intro x hx hroot f hf hid hmem
    rw [h.mem_subtree, Forest.ancestors_root h.acyclic hx hroot, mem_singleton] at hmem
    rw [folder_eq_of_id h.constraints.folderIds hf hfolder (hid.trans hmem.symm)]
  · intro x hx q _ hparent ih f hf hid hmem
    rw [h.mem_subtree, Forest.ancestors_child h.acyclic hx hparent] at hmem
    rcases mem_cons.1 hmem with heq | habove
    · rw [folder_eq_of_id h.constraints.folderIds hf hfolder (hid.trans heq.symm)]
    · subst hid
      rw [h.parentOf hf] at hparent
      obtain ⟨g, hg, hgid, hgvault, _⟩ := (h.folders f hf).parent q hparent
      rw [← hgvault]
      exact ih g hg hgid (h.mem_subtree.2 habove)

end

variable {gone : List Id} {folderId : Option Id}

theorem cleared_of_notMem (h : ∀ q ∈ folderId, q ∉ gone) : cleared gone folderId = folderId := by
  cases folderId with
  | none => rfl
  | some q => simp [cleared, h q rfl]

theorem mem_cleared {q : Id} (h : q ∈ cleared gone folderId) : q ∈ folderId ∧ q ∉ gone := by
  obtain ⟨hmem, hnot⟩ := filter_eq_some_iff.1 h
  exact ⟨hmem, by simpa using hnot⟩

variable {vaultId : Id}

/-- an item outside the folders that are gone -/
theorem Located.filter {folders : List (FolderRow Id)} {parentId : Option Id} {path : Path}
    (h : Located folders vaultId parentId path) (hout : ∀ q ∈ parentId, q ∉ gone) :
    Located (folders.filter fun f => f.id ∉ gone) vaultId parentId path := by
  refine ⟨h.root, fun q hq => ?_⟩
  obtain ⟨f, hf, hid, hrest⟩ := h.parent q hq
  exact ⟨f, mem_filter.2 ⟨hf, by simpa [hid] using hout q hq⟩, hid, hrest⟩

theorem HasFolder.filter {folders : List (FolderRow Id)} {q : Id} (h : HasFolder folders vaultId q) (hout : q ∉ gone) :
    HasFolder (folders.filter fun f => f.id ∉ gone) vaultId q := by
  obtain ⟨f, hf, hid, hvault⟩ := h
  exact ⟨f, mem_filter.2 ⟨hf, by simpa [hid] using hout⟩, hid, hvault⟩

/-- an item that is left does not hang from what is gone -/
theorem TreeInv.outside (h : TreeInv key db) (hfolder : folder ∈ db.folders) {path : Path}
    (hlocated : Located db.folders vaultId folderId path)
    (hleft : vaultId = folder.vaultId → isWithin (subtree db.folders folder.id) folder.path folderId path = false) :
    ∀ q ∈ folderId, q ∉ subtree db.folders folder.id := by
  intro q hq hgone
  obtain ⟨g, hg, rfl, hvault, _⟩ := hlocated.parent q hq
  have hsame : vaultId = folder.vaultId :=
    hvault.symm.trans (h.subtree_vault hfolder g.id (mem_map_of_mem hg) g hg rfl hgone)
  have hnot := hleft hsame
  rw [hq] at hnot
  simp [isWithin, hgone] at hnot

theorem TreeInv.deleteFolderCascade (h : TreeInv key db) {folderId : Id}
    (hdelete : deleteFolderCascade db folderId = some db') : TreeInv key db' := by
  unfold TreeOps.deleteFolderCascade at hdelete
  split at hdelete
  · cases hdelete
  next folder hfind =>
  obtain ⟨hfolder, rfl⟩ := FolderMoves.findFolder_mem hfind
  cases hdelete
  have hok := h.constraints
  have hfolderOut : ∀ f ∈ db.folders, f.id ∉ subtree db.folders folder.id →
      ∀ q ∈ f.parentId, q ∉ subtree db.folders folder.id :=
    fun f hf hout q hq hgone => hout (h.subtree_child hf hq hgone)
  have hfileOut : ∀ f ∈ db.files, (!(decide (f.vaultId = folder.vaultId) &&
      isWithin (subtree db.folders folder.id) folder.path f.folderId f.path)) = true →
        ∀ q ∈ f.folderId, q ∉ subtree db.folders folder.id := by
    intro f hf hleft
    refine h.outside hfolder (h.files f hf) fun hvault => ?_
    simpa [hvault] using hleft
  refine ⟨⟨?_, ?_, ?_, ?_, ?_, ?_, ?_, ?_, ?_⟩, ?_, ?_, ?_, ?_⟩
  · exact hok.folderIds.sublist (filter_sublist.map _)
  · exact fun f hf g hg => hok.folderPaths f (mem_filter.1 hf).1 g (mem_filter.1 hg).1
  · intro f hf q hq
    obtain ⟨hf, hout⟩ := mem_filter.1 hf
    exact HasFolder.filter (hok.folderParents f hf q hq) (hfolderOut f hf (by simpa using hout) q hq)
  · simpa [noteIds, Function.comp_def] using hok.noteIds
  · intro n' hn' m' hm' hvault hpath hlive hlive'
    obtain ⟨n, hn, rfl⟩ := mem_map.1 hn'
    obtain ⟨m, hm, rfl⟩ := mem_map.1 hm'
    exact hok.notePaths n hn m hm hvault hpath (Bool.or_eq_false_iff.1 hlive).1 (Bool.or_eq_false_iff.1 hlive').1
  · intro n' hn' q hq
    obtain ⟨n, hn, rfl⟩ := mem_map.1 hn'
    obtain ⟨hq, hout⟩ := mem_cleared hq
    exact HasFolder.filter (hok.noteFolders n hn q hq) hout
  · have hids : (fileIds (db.files.filter fun f => !(decide (f.vaultId = folder.vaultId) &&
        isWithin (subtree db.folders folder.id) folder.path f.folderId f.path))).Nodup :=
      hok.fileIds.sublist (filter_sublist.map _)
    simpa [fileIds, Function.comp_def] using hids
  · intro f' hf' g' hg' hvault hpath
    obtain ⟨f, hf, rfl⟩ := mem_map.1 hf'
    obtain ⟨g, hg, rfl⟩ := mem_map.1 hg'
    exact hok.filePaths f (mem_filter.1 hf).1 g (mem_filter.1 hg).1 hvault hpath
  · intro f' hf' q hq
    obtain ⟨f, hf, rfl⟩ := mem_map.1 hf'
    obtain ⟨hq, hout⟩ := mem_cleared hq
    exact HasFolder.filter (hok.fileFolders f (mem_filter.1 hf).1 q hq) hout
  · intro f hf
    obtain ⟨hf, hout⟩ := mem_filter.1 hf
    exact (h.folders f hf).filter (hfolderOut f hf (by simpa using hout))
  · intro n' hn' hlive
    obtain ⟨n, hn, rfl⟩ := mem_map.1 hn'
    obtain ⟨hlive, hleft⟩ := Bool.or_eq_false_iff.1 hlive
    have hout : ∀ q ∈ n.folderId, q ∉ subtree db.folders folder.id := by
      refine h.outside hfolder (h.notes n hn hlive) fun hvault => ?_
      simpa [hvault] using hleft
    rw [cleared_of_notMem hout]
    exact (h.notes n hn hlive).filter hout
  · intro f' hf'
    obtain ⟨f, hf, rfl⟩ := mem_map.1 hf'
    obtain ⟨hf, hleft⟩ := mem_filter.1 hf
    have hout := hfileOut f hf hleft
    rw [cleared_of_notMem hout]
    exact (h.files f hf).filter hout
  · exact fun f hf => h.named f (mem_filter.1 hf).1

end

/-! ## Moving a folder -/

section

variable {oldPath newPath path : Path}

theorem isBelow_iff : isBelow oldPath path = true ↔ ∃ rest, path = oldPath ++ '/' :: rest := by
  unfold isBelow
  rw [ isPrefixOf_iff_prefix]
  constructor
  · rintro ⟨rest, rfl⟩
    exact ⟨rest, by simp⟩
  · rintro ⟨rest, rfl⟩
    exact ⟨rest, by simp⟩

theorem slash_mem_of_dirname (h : dirname path ≠ []) : '/' ∈ path := by
  by_contra hnot
  exact h (dirname_name hnot)

/-- what is below is in the folder itself, or in a folder below -/
theorem dirname_below (h : isBelow oldPath path = true) :
    dirname path = oldPath ∨ isBelow oldPath (dirname path) = true := by
  obtain ⟨rest, rfl⟩ := isBelow_iff.1 h
  by_cases hslash : '/' ∈ rest
  · right
    have hsplit : oldPath ++ '/' :: rest = (oldPath ++ '/' :: dirname rest) ++ '/' :: basename rest := by
      rw [append_assoc, cons_append, ← eq_dirname_basename hslash]
    rw [hsplit, dirname_append (notMem_basename rest)]
    exact isBelow_iff.2 ⟨_, rfl⟩
  · exact .inl (dirname_append hslash oldPath)

theorem below_of_dirname (hroot : dirname path ≠ [])
    (h : dirname path = oldPath ∨ isBelow oldPath (dirname path) = true) : isBelow oldPath path = true := by
  have hsplit := eq_dirname_basename (slash_mem_of_dirname hroot)
  rcases h with h | h
  · exact isBelow_iff.2 ⟨basename path, h ▸ hsplit⟩
  · obtain ⟨rest, hrest⟩ := isBelow_iff.1 h
    refine isBelow_iff.2 ⟨rest ++ '/' :: basename path, ?_⟩
    calc path = dirname path ++ '/' :: basename path := hsplit
      _ = (oldPath ++ '/' :: rest) ++ '/' :: basename path := by rw [hrest]
      _ = oldPath ++ '/' :: (rest ++ '/' :: basename path) := by simp

/-- where the folder at `path` is after the move -/
def movedPath (oldPath newPath path : Path) : Path :=
  if path = oldPath then newPath else rewriteBelow oldPath newPath path

theorem rewriteBelow_of_not (h : isBelow oldPath path = false) : rewriteBelow oldPath newPath path = path := by
  unfold rewriteBelow
  rw [if_neg (by simp [h])]

theorem rewriteBelow_append (hunits : utf16Length oldPath = oldPath.length) (rest : Path) :
    rewriteBelow oldPath newPath (oldPath ++ '/' :: rest) = newPath ++ '/' :: rest := by
  unfold rewriteBelow
  rw [if_pos (isBelow_iff.2 ⟨rest, rfl⟩), rewritten, hunits, drop_left]

/-- an item's directory moves as the item does -/
theorem dirname_rewriteBelow (hnamed : oldPath ≠ [])
    (hunits : utf16Length oldPath = oldPath.length ∨ isBelow oldPath path = false) :
    dirname (rewriteBelow oldPath newPath path) = movedPath oldPath newPath (dirname path) := by
  by_cases hbelow : isBelow oldPath path = true
  · have hcounts : utf16Length oldPath = oldPath.length := hunits.resolve_right (by simp [hbelow])
    obtain ⟨rest, rfl⟩ := isBelow_iff.1 hbelow
    rw [rewriteBelow_append hcounts]
    by_cases hslash : '/' ∈ rest
    · have hsplit : ∀ dir : Path, dirname (dir ++ '/' :: rest) = dir ++ '/' :: dirname rest := by
        intro dir
        have heq : dir ++ '/' :: rest = (dir ++ '/' :: dirname rest) ++ '/' :: basename rest := by
          rw [append_assoc, cons_append, ← eq_dirname_basename hslash]
        rw [heq, dirname_append (notMem_basename rest)]
      rw [hsplit, hsplit, movedPath, if_neg (by simp), rewriteBelow_append hcounts]
    · rw [dirname_append hslash, dirname_append hslash, movedPath, if_pos rfl]
  · have hnot : isBelow oldPath path = false := by simpa using hbelow
    rw [rewriteBelow_of_not hnot]
    by_cases hroot : dirname path = []
    · have hbelowRoot : isBelow oldPath [] = false := by
        rw [Bool.eq_false_iff]
        intro h
        obtain ⟨rest, hrest⟩ := isBelow_iff.1 h
        simp at hrest
      rw [hroot, movedPath, if_neg hnamed.symm, rewriteBelow_of_not hbelowRoot]
    · have hself : dirname path ≠ oldPath := fun h => hbelow (below_of_dirname hroot (.inl h))
      have hdir : isBelow oldPath (dirname path) = false := by
        rw [Bool.eq_false_iff]
        exact fun h => hbelow (below_of_dirname hroot (.inr h))
      rw [movedPath, if_neg hself, rewriteBelow_of_not hdir]

theorem movedPath_ne_nil (hunits : utf16Length oldPath = oldPath.length ∨ isBelow oldPath path = false)
    (hnew : newPath ≠ []) (hpath : path ≠ []) : movedPath oldPath newPath path ≠ [] := by
  unfold movedPath
  split
  · exact hnew
  · by_cases hbelow : isBelow oldPath path = true
    · obtain ⟨rest, rfl⟩ := isBelow_iff.1 hbelow
      rw [rewriteBelow_append (hunits.resolve_right (by simp [hbelow]))]
      simp
    · rw [rewriteBelow_of_not (by simpa using hbelow)]
      exact hpath

end

section

variable {key} {db db' : Db Id} {folder : FolderRow Id}

section

variable (h : TreeInv key db) (hfolder : folder ∈ db.folders)

include h hfolder

/-- a folder below by its path is below by its parents -/
theorem TreeInv.below_ancestor {g : FolderRow Id}
    (hg : g ∈ db.folders) (hvault : g.vaultId = folder.vaultId) (hbelow : isBelow folder.path g.path = true) :
    folder.id ∈ Forest.ancestors (ids db.folders) (VaultTree.parentOf db.folders) g.id := by
  induction hn : g.path.length using Nat.strong_induction_on generalizing g with
  | _ n ih =>
    have hdir := dirname_below hbelow
    have hroot : dirname g.path ≠ [] := by
      rcases hdir with hdir | hdir
      · exact hdir ▸ h.named folder hfolder
      · intro hnil
        obtain ⟨rest, hrest⟩ := isBelow_iff.1 hdir
        rw [hnil] at hrest
        simp at hrest
    obtain ⟨q, hq⟩ : ∃ q, g.parentId = some q := by
      cases hparent : g.parentId with
      | none => exact absurd ((h.folders g hg).root.2 hparent) hroot
      | some q => exact ⟨q, rfl⟩
    obtain ⟨f, hf, rfl, hfvault, hfpath⟩ := (h.folders g hg).parent q hq
    rw [Forest.ancestors_child h.acyclic (mem_map_of_mem hg) ((h.parentOf hg).trans hq)]
    apply mem_cons_of_mem
    rcases hdir with hdir | hdir
    · have hsame : f.id = folder.id :=
        h.constraints.folderPaths f hf folder hfolder (hfvault.trans hvault) (by rw [hfpath, hdir])
      rw [hsame]
      exact Forest.self_mem_ancestors h.acyclic (mem_map_of_mem hfolder)
    · exact ih f.path.length (by rw [← hn, hfpath]; exact length_dirname hroot) hf (hfvault.trans hvault)
        (hfpath ▸ hdir) rfl

/-- where a folder that moves is put -/
theorem TreeInv.planFolderMove {input : MoveFolderInput Id} {newPath : Path} {newParentId : Option Id}
    (hname : input.path = none → newPath ≠ [] ∧ ∀ name ∈ input.name, '/' ∉ name)
    (hplan : planFolderMove key db.folders folder input = .ok (newPath, newParentId)) :
    Located db.folders folder.vaultId newParentId newPath ∧ newPath ≠ [] := by
  unfold VaultTree.planFolderMove at hplan
  cases hpath : input.path with
  | some path =>
    rw [hpath] at hplan
    dsimp only at hplan
    split at hplan
    · next hresolve =>
      cases Except.ok.inj hplan
      exact h.resolveParent hresolve
    · cases hplan
  | none =>
    obtain ⟨hne, hslash⟩ := hname hpath
    have hgiven : '/' ∉ input.name.getD (basename folder.path) := by
      cases hinput : input.name with
      | none => exact notMem_basename folder.path
      | some name => exact hslash name hinput
    rw [hpath] at hplan
    dsimp only at hplan
    refine ⟨?_, hne⟩
    split at hplan
    · cases Except.ok.inj hplan
      exact ⟨by simp [dirname_name hgiven], by simp⟩
    · split at hplan
      · cases hplan
      · next parent hfind =>
        split at hplan
        · cases hplan
        · next hvault =>
          cases Except.ok.inj hplan
          have hmem : parent ∈ db.folders := mem_of_find?_eq_some hfind
          exact Located.join hmem (not_ne_iff.1 hvault) (h.named parent hmem) hgiven
    · split at hplan
      · next name hinput =>
        split_ifs at hplan
        · cases Except.ok.inj hplan
          have hdir : dirname (joinPath (dirname folder.path) name) = dirname folder.path :=
            dirname_joinPath (hslash name hinput) _
          have hlocated := h.folders folder hfolder
          exact ⟨by rw [hdir]; exact hlocated.root, fun q hq => by rw [hdir]; exact hlocated.parent q hq⟩
        · cases Except.ok.inj hplan
          exact h.folders folder hfolder
      · cases Except.ok.inj hplan
        exact h.folders folder hfolder

/-- the new parent is not the folder and not below it -/
theorem TreeInv.parent_outside {newPath : Path}
    {newParentId : Option Id} (hlocated : Located db.folders folder.vaultId newParentId newPath)
    (hcycle : closesCycle db.folders folder newParentId = false) (hroot : dirname newPath ≠ []) :
    dirname newPath ≠ folder.path ∧ isBelow folder.path (dirname newPath) = false := by
  obtain ⟨q, rfl⟩ : ∃ q, newParentId = some q := by
    cases newParentId with
    | none => exact absurd (hlocated.root.2 rfl) hroot
    | some q => exact ⟨q, rfl⟩
  obtain ⟨g, hg, rfl, hgvault, hgpath⟩ := hlocated.parent q rfl
  by_cases hsame : some g.id = folder.parentId
  · -- the parent it has: its path is shorter
    have hown := h.folders folder hfolder
    obtain ⟨g', hg', hid, _, hpath⟩ := hown.parent g.id hsame.symm
    obtain rfl : g' = g := folder_eq_of_id h.constraints.folderIds hg' hg hid
    have hne : dirname folder.path ≠ [] := fun hnil => absurd (hown.root.1 hnil ▸ hsame) (by simp)
    have hlt : (dirname newPath).length < folder.path.length := by
      rw [← hgpath, hpath]
      exact length_dirname hne
    constructor
    · intro heq
      rw [heq] at hlt
      exact lt_irrefl _ hlt
    · rw [Bool.eq_false_iff]
      intro hbelow
      obtain ⟨rest, hrest⟩ := isBelow_iff.1 hbelow
      rw [hrest] at hlt
      simp only [length_append, length_cons] at hlt
      omega
  · have hmem : g.id ∈ ids db.folders := mem_map_of_mem hg
    have hno : folder.id ∉ Forest.ancestors (ids db.folders) (VaultTree.parentOf db.folders) g.id := by
      rw [← FolderMoves.wouldCycle_iff h.acyclic hmem]
      simpa [closesCycle, hsame] using hcycle
    constructor
    · intro heq
      have hid : g.id = folder.id :=
        h.constraints.folderPaths g hg folder hfolder hgvault (by rw [hgpath, heq])
      exact hno (hid ▸ Forest.self_mem_ancestors h.acyclic hmem)
    · rw [Bool.eq_false_iff]
      intro hbelow
      exact hno (h.below_ancestor hfolder hg hgvault (hgpath ▸ hbelow))

end

/-- the path of a folder after the move -/
def folderPath (folder : FolderRow Id) (newPath : Path) (f : FolderRow Id) : Path :=
  if f.vaultId = folder.vaultId then movedPath folder.path newPath f.path else f.path

/-- what every row of a table of folders is after the move -/
structure Moved (db : Db Id) (folder : FolderRow Id) (newPath : Path) (newParentId : Option Id)
    (folders : List (FolderRow Id)) : Prop where
  from_old : ∀ f' ∈ folders, ∃ f ∈ db.folders, f'.id = f.id ∧ f'.vaultId = f.vaultId ∧
    f'.path = folderPath folder newPath f ∧ f'.parentId = if f.id = folder.id then newParentId else f.parentId
  to_new : ∀ f ∈ db.folders, ∃ f' ∈ folders, f'.id = f.id ∧ f'.vaultId = f.vaultId ∧
    f'.path = folderPath folder newPath f

/-- the path of a document, or of a folder that hangs from where it hung, after the move -/
def itemPath (folder : FolderRow Id) (newPath : Path) (vaultId : Id) (path : Path) : Path :=
  if vaultId = folder.vaultId then rewriteBelow folder.path newPath path else path

variable {newPath : Path} {newParentId : Option Id} {folders : List (FolderRow Id)}

theorem Located.moved (hmoved : Moved db folder newPath newParentId folders) (hnamed : folder.path ≠ [])
    (hnew : newPath ≠ []) (hdirs : ∀ f ∈ db.folders, f.vaultId = folder.vaultId →
      utf16Length folder.path = folder.path.length ∨ isBelow folder.path f.path = false)
    {vaultId : Id} {parentId : Option Id} {path : Path} (h : Located db.folders vaultId parentId path)
    (hunits : vaultId = folder.vaultId →
      utf16Length folder.path = folder.path.length ∨ isBelow folder.path path = false) :
    Located folders vaultId parentId (itemPath folder newPath vaultId path) := by
  unfold itemPath
  split
  · next hvault =>
    have hdir : dirname (rewriteBelow folder.path newPath path) = movedPath folder.path newPath (dirname path) :=
      dirname_rewriteBelow hnamed (hunits hvault)
    constructor
    · rw [hdir, ← h.root]
      constructor
      · intro hnil
        by_contra hne
        have hbelow : utf16Length folder.path = folder.path.length ∨ isBelow folder.path (dirname path) = false := by
          cases parentId with
          | none => exact absurd (h.root.2 rfl) hne
          | some q =>
            obtain ⟨f, hf, _, hfvault, hfpath⟩ := h.parent q rfl
            exact hfpath ▸ hdirs f hf (hfvault.trans hvault)
        exact movedPath_ne_nil hbelow hnew hne hnil
      · intro hnil
        rw [← hdir]
        have hnot : isBelow folder.path path = false := by
          rw [Bool.eq_false_iff]
          intro hbelow
          rcases dirname_below hbelow with heq | hbelow'
          · exact hnamed (heq ▸ hnil)
          · obtain ⟨rest, hrest⟩ := isBelow_iff.1 hbelow'
            rw [hnil] at hrest
            simp at hrest
        rw [rewriteBelow_of_not hnot, hnil]
    · intro q hq
      obtain ⟨f, hf, hid, hfvault, hfpath⟩ := h.parent q hq
      obtain ⟨f', hf', hid', hfvault', hfpath'⟩ := hmoved.to_new f hf
      refine ⟨f', hf', hid'.trans hid, hfvault'.trans hfvault, ?_⟩
      rw [hfpath', folderPath, if_pos (hfvault.trans hvault), hfpath, hdir]
  · next hvault =>
    refine ⟨h.root, fun q hq => ?_⟩
    obtain ⟨f, hf, hid, hfvault, hfpath⟩ := h.parent q hq
    obtain ⟨f', hf', hid', hfvault', hfpath'⟩ := hmoved.to_new f hf
    refine ⟨f', hf', hid'.trans hid, hfvault'.trans hfvault, ?_⟩
    rw [hfpath', folderPath, if_neg (by rw [hfvault]; exact hvault), hfpath]

/-- the folder itself, where it was planned to be -/
theorem TreeInv.moved_self (h : TreeInv key db) (hfolder : folder ∈ db.folders)
    (hmoved : Moved db folder newPath newParentId folders)
    (hlocated : Located db.folders folder.vaultId newParentId newPath)
    (hcycle : closesCycle db.folders folder newParentId = false) :
    Located folders folder.vaultId newParentId newPath := by
  refine ⟨hlocated.root, fun q hq => ?_⟩
  have hroot : dirname newPath ≠ [] := fun hnil => absurd (hlocated.root.1 hnil ▸ hq) (by simp)
  obtain ⟨hne, hnot⟩ := h.parent_outside hfolder hlocated hcycle hroot
  obtain ⟨f, hf, hid, hfvault, hfpath⟩ := hlocated.parent q hq
  obtain ⟨f', hf', hid', hfvault', hfpath'⟩ := hmoved.to_new f hf
  refine ⟨f', hf', hid'.trans hid, hfvault'.trans hfvault, ?_⟩
  rw [hfpath', folderPath, if_pos hfvault, movedPath, if_neg (by rw [hfpath]; exact hne), rewriteBelow_of_not
    (by rw [hfpath]; exact hnot), hfpath]

/-- when folders, notes and files are written -/
theorem TreeInv.moves (h : TreeInv key db) (hfolder : folder ∈ db.folders) (hnew : newPath ≠ [])
    (hlocated : Located db.folders folder.vaultId newParentId newPath)
    (hcycle : closesCycle db.folders folder newParentId = false)
    (hbelow : utf16Length folder.path = folder.path.length ∨ NothingBelow db folder.vaultId folder.path)
    (hok : Constraints key db') (hmoved : Moved db folder newPath newParentId db'.folders)
    (hnotes : ∀ n' ∈ db'.notes, ∃ n ∈ db.notes, n'.vaultId = n.vaultId ∧ n'.folderId = n.folderId ∧
      n'.deleted = n.deleted ∧ n'.relPath = itemPath folder newPath n.vaultId n.relPath)
    (hfiles : ∀ f' ∈ db'.files, ∃ f ∈ db.files, f'.vaultId = f.vaultId ∧ f'.folderId = f.folderId ∧
      f'.path = itemPath folder newPath f.vaultId f.path) : TreeInv key db' := by
  have hnamed := h.named folder hfolder
  have hdirs : ∀ f ∈ db.folders, f.vaultId = folder.vaultId →
      utf16Length folder.path = folder.path.length ∨ isBelow folder.path f.path = false :=
    fun f hf hvault => hbelow.imp_right fun hnothing => hnothing.1 f hf hvault
  refine ⟨hok, ?_, ?_, ?_, ?_⟩
  · intro f' hf'
    obtain ⟨f, hf, _, hvault, hpath, hparent⟩ := hmoved.from_old f' hf'
    rw [hvault, hpath, hparent]
    by_cases hid : f.id = folder.id
    · obtain rfl := folder_eq_of_id h.constraints.folderIds hf hfolder hid
      rw [if_pos rfl, folderPath, if_pos rfl, movedPath, if_pos rfl]
      exact h.moved_self hf hmoved hlocated hcycle
    · have hother : folderPath folder newPath f = itemPath folder newPath f.vaultId f.path := by
        unfold folderPath itemPath
        split
        · next hsame =>
          have hne : f.path ≠ folder.path := fun heq =>
            hid (h.constraints.folderPaths f hf folder hfolder hsame (by rw [heq]))
          rw [movedPath, if_neg hne]
        · rfl
      rw [if_neg hid, hother]
      exact (h.folders f hf).moved hmoved hnamed hnew hdirs (hdirs f hf)
  · intro n' hn' hlive
    obtain ⟨n, hn, hvault, hparent, hdeleted, hpath⟩ := hnotes n' hn'
    rw [hdeleted] at hlive
    rw [hvault, hparent, hpath]
    exact (h.notes n hn hlive).moved hmoved hnamed hnew hdirs fun hsame =>
      hbelow.imp_right fun hnothing => hnothing.2.1 n hn hsame hlive
  · intro f' hf'
    obtain ⟨f, hf, hvault, hparent, hpath⟩ := hfiles f' hf'
    rw [hvault, hparent, hpath]
    exact (h.files f hf).moved hmoved hnamed hnew hdirs fun hsame =>
      hbelow.imp_right fun hnothing => hnothing.2.2 f hf hsame
  · intro f' hf'
    obtain ⟨f, hf, _, _, hpath, _⟩ := hmoved.from_old f' hf'
    rw [hpath, folderPath]
    split
    · next hvault => exact movedPath_ne_nil (hdirs f hf hvault) hnew (h.named f hf)
    · exact h.named f hf

/-- the folders keep their paths -/
theorem Located.of_rows {folders folders' : List (FolderRow Id)} {vaultId : Id} {parentId : Option Id} {path : Path}
    (h : Located folders vaultId parentId path)
    (hrows : ∀ f ∈ folders, ∃ f' ∈ folders', f'.id = f.id ∧ f'.vaultId = f.vaultId ∧ f'.path = f.path) :
    Located folders' vaultId parentId path := by
  refine ⟨h.root, fun q hq => ?_⟩
  obtain ⟨f, hf, hid, hvault, hpath⟩ := h.parent q hq
  obtain ⟨f', hf', hid', hvault', hpath'⟩ := hrows f hf
  exact ⟨f', hf', hid'.trans hid, hvault'.trans hvault, hpath'.trans hpath⟩

section

variable (h : TreeInv key db) (hfolder : folder ∈ db.folders)

include h hfolder

/-- a folder that gets another name or another row for its parent, and stays where it is -/
theorem TreeInv.renames {name : Path} (hlocated : Located db.folders folder.vaultId newParentId folder.path)
    (hok : Constraints key { db with
      folders := db.folders.map (writeFolder folder.id newParentId name folder.path) }) :
    TreeInv key { db with folders := db.folders.map (writeFolder folder.id newParentId name folder.path) } := by
  have hpath : ∀ f ∈ db.folders, (writeFolder folder.id newParentId name folder.path f).path = f.path := by
    intro f hf
    by_cases hid : f.id = folder.id
    · rw [writeFolder_new hid, folder_eq_of_id h.constraints.folderIds hf hfolder hid]
    · rw [writeFolder_old hid]
  have hrows : ∀ f ∈ db.folders, ∃ f' ∈ db.folders.map (writeFolder folder.id newParentId name folder.path),
      f'.id = f.id ∧ f'.vaultId = f.vaultId ∧ f'.path = f.path :=
    fun f hf => ⟨_, mem_map_of_mem hf, by simp, by simp, hpath f hf⟩
  refine ⟨hok, ?_, fun n hn hlive => (h.notes n hn hlive).of_rows hrows, fun f hf => (h.files f hf).of_rows hrows, ?_⟩
  · intro f' hf'
    obtain ⟨f, hf, rfl⟩ := mem_map.1 hf'
    by_cases hid : f.id = folder.id
    · obtain rfl := folder_eq_of_id h.constraints.folderIds hf hfolder hid
      rw [writeFolder_new rfl]
      exact hlocated.of_rows hrows
    · rw [writeFolder_old hid]
      exact (h.folders f hf).of_rows hrows
  · intro f' hf'
    obtain ⟨f, hf, rfl⟩ := mem_map.1 hf'
    rw [hpath f hf]
    exact h.named f hf

/-- the new path is not below the old one -/
theorem TreeInv.not_below_new (hlocated : Located db.folders folder.vaultId newParentId newPath)
    (hcycle : closesCycle db.folders folder newParentId = false) : isBelow folder.path newPath = false := by
  rw [Bool.eq_false_iff]
  intro hbelow
  have hroot : dirname newPath ≠ [] := by
    rcases dirname_below hbelow with heq | hbelow'
    · exact heq ▸ h.named folder hfolder
    · intro hnil
      obtain ⟨rest, hrest⟩ := isBelow_iff.1 hbelow'
      rw [hnil] at hrest
      simp at hrest
  obtain ⟨hne, hno⟩ := h.parent_outside hfolder hlocated hcycle hroot
  rcases dirname_below hbelow with heq | hbelow'
  · exact hne heq
  · exact absurd (hno.symm.trans hbelow') (by simp)

/-- a row of `folders` after its own `UPDATE` and `rewriteDescendantPaths` -/
theorem TreeInv.rewritten_path
    (hnot : isBelow folder.path newPath = false) (newParentId : Option Id) (name : Path) {f : FolderRow Id}
    (hf : f ∈ db.folders) :
    (if (writeFolder folder.id newParentId name newPath f).vaultId = folder.vaultId then
      rewriteBelow folder.path newPath (writeFolder folder.id newParentId name newPath f).path
    else (writeFolder folder.id newParentId name newPath f).path) = folderPath folder newPath f := by
  unfold folderPath
  rw [writeFolder_vaultId]
  by_cases hid : f.id = folder.id
  · obtain rfl := folder_eq_of_id h.constraints.folderIds hf hfolder hid
    rw [if_pos rfl, if_pos rfl, writeFolder_new rfl, movedPath, if_pos rfl]
    exact rewriteBelow_of_not hnot
  · rw [writeFolder_old hid]
    split
    · next hvault =>
      have hne : f.path ≠ folder.path := fun heq =>
        hid (h.constraints.folderPaths f hf folder hfolder hvault (by rw [heq]))
      rw [movedPath, if_neg hne]
    · rfl

end

theorem TreeInv.moveFolder (h : TreeInv key db) {folderId : Id} {input : MoveFolderInput Id}
    (hsound : ∀ folder ∈ VaultTree.findFolder db.folders folderId, ∀ newPath newParentId,
      VaultTree.planFolderMove key db.folders folder input = .ok (newPath, newParentId) →
        closesCycle db.folders folder newParentId = false → folderClashes key db.folders folder newPath = false →
          MoveSound db folder input newPath)
    (hmove : moveFolder key db folderId input = some db') : TreeInv key db' := by
  unfold TreeOps.moveFolder at hmove
  split at hmove
  · cases hmove
  next folder hfind =>
  obtain ⟨hfolder, rfl⟩ := FolderMoves.findFolder_mem hfind
  split at hmove
  · cases hmove
  next newPath newParentId hplan =>
  split at hmove
  · cases hmove
  next hrefused =>
  obtain ⟨hcycle, hclash⟩ : closesCycle db.folders folder newParentId = false ∧
      folderClashes key db.folders folder newPath = false := by simpa using hrefused
  have hmoveSound := hsound folder hfind newPath newParentId hplan hcycle hclash
  obtain ⟨hlocated, hnew⟩ := h.planFolderMove hfolder hmoveSound.name hplan
  obtain ⟨db₁, hwrite, hrest⟩ := bind_eq_some_iff.1 hmove
  obtain ⟨hok₁, rfl⟩ := checked_eq_some.1 hwrite
  split at hrest
  · next hsame =>
    cases hrest
    subst hsame
    exact h.renames hfolder hlocated hok₁
  · next hother =>
    obtain ⟨db₂, hfolders, hrest⟩ := bind_eq_some_iff.1 hrest
    obtain ⟨_, rfl⟩ := checked_eq_some.1 hfolders
    obtain ⟨db₃, hnotes, hrest⟩ := bind_eq_some_iff.1 hrest
    obtain ⟨_, rfl⟩ := checked_eq_some.1 hnotes
    obtain ⟨hok, rfl⟩ := checked_eq_some.1 hrest
    have hnot := h.not_below_new hfolder hlocated hcycle
    have hrow : ∀ f ∈ db.folders, ∀ f' : FolderRow Id, f' = (fun f : FolderRow Id =>
        if f.vaultId = folder.vaultId then { f with path := rewriteBelow folder.path newPath f.path } else f)
          (writeFolder folder.id newParentId (input.name.getD (basename newPath)) newPath f) →
        f'.id = f.id ∧ f'.vaultId = f.vaultId ∧ f'.path = folderPath folder newPath f ∧
          f'.parentId = if f.id = folder.id then newParentId else f.parentId := by
      rintro f hf f' rfl
      have hpath := h.rewritten_path hfolder hnot newParentId (input.name.getD (basename newPath)) hf
      have hparent : (writeFolder folder.id newParentId (input.name.getD (basename newPath)) newPath f).parentId =
          if f.id = folder.id then newParentId else f.parentId := by
        unfold writeFolder
        split <;> rfl
      rw [← hpath, ← hparent]
      dsimp only
      split <;> simp
    apply h.moves hfolder hnew hlocated hcycle (hmoveSound.below hother) hok
    · constructor
      · intro f' hf'
        obtain ⟨f₁, hf₁, rfl⟩ := mem_map.1 hf'
        obtain ⟨f, hf, rfl⟩ := mem_map.1 hf₁
        exact ⟨f, hf, hrow f hf _ rfl⟩
      · intro f hf
        obtain ⟨hid, hvault, hpath, _⟩ := hrow f hf _ rfl
        exact ⟨_, mem_map_of_mem (mem_map_of_mem hf), hid, hvault, hpath⟩
    · intro n' hn'
      obtain ⟨n, hn, rfl⟩ := mem_map.1 hn'
      refine ⟨n, hn, ?_⟩
      unfold itemPath
      split <;> simp
    · intro f' hf'
      obtain ⟨f, hf, rfl⟩ := mem_map.1 hf'
      refine ⟨f, hf, ?_⟩
      unfold itemPath
      split <;> simp

end

end

end Baalda.TreeLocation
