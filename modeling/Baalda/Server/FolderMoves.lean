/-
Concurrent folder moves (`tree-ops.ts moveFolderInTransaction`).

Each move is one READ COMMITTED transaction: it locks its folder's row, plans, asks whether it would close a cycle,
probes the destination path, writes its row, rewrites the paths below and commits. Every statement reads what has been
committed when it starts, and its own writes; a row another transaction has locked is waited for. Foreign-key locks,
which only rule runs out, are left out, and `fails` stands for every way to roll back.

`forest_iff`: the folders stay a forest, after every step of every run, exactly if the cycle question, asked again when
a move commits, is still answered no. It is asked on the tree as it was committed before: `two_moves_close_a_cycle`.
-/
import Baalda.Lib.Machine
import Baalda.Lib.Slots
import Baalda.Server.VaultTree

namespace Baalda.FolderMoves

open VaultTree List

variable {Id K : Type*}

/-! ## The machine -/

/-- where a folder is to be, and what its row was -/
structure Plan (Id : Type*) where
  folder : FolderRow Id
  newPath : Path
  newParentId : Option Id
  deriving DecidableEq

inductive Stage (Id : Type*) where
  | begun
  /-- `SELECT ... FOR UPDATE` -/
  | locked (folder : FolderRow Id)
  | planned (plan : Plan Id)
  /-- no cycle -/
  | checked (plan : Plan Id)
  /-- no other folder at the path -/
  | probed (plan : Plan Id)
  /-- its own row is written -/
  | updated (plan : Plan Id)
  /-- the paths of the folders below are written -/
  | rewritten (plan : Plan Id) (rewrites : List (Id × Path))
  | committed
  | rolledBack
  deriving DecidableEq

structure Move (Id : Type*) where
  folderId : Id
  input : MoveFolderInput Id
  stage : Stage Id := .begun
  deriving DecidableEq

structure St (Id : Type*) where
  /-- as committed -/
  folders : List (FolderRow Id)
  moves : List (Move Id) := []
  deriving DecidableEq

inductive Action (Id : Type*) where
  | begins (folderId : Id) (input : MoveFolderInput Id)
  | locks (i : ℕ)
  | plans (i : ℕ)
  | checks (i : ℕ)
  | probes (i : ℕ)
  | updates (i : ℕ)
  | rewrites (i : ℕ)
  | commits (i : ℕ)
  | fails (i : ℕ)

/-- the rows a transaction has locked -/
def Move.rows (m : Move Id) : List Id := match m.stage with
  | .begun | .committed | .rolledBack => []
  | .locked _ | .planned _ | .checked _ | .probed _ | .updated _ => [m.folderId]
  | .rewritten _ rewrites => m.folderId :: rewrites.map Prod.fst

section

variable [DecidableEq Id] [DecidableEq K]

def rewriteRow (rewrites : List (Id × Path)) (f : FolderRow Id) : FolderRow Id := match rewrites.lookup f.id with
  | some path => { f with path := path }
  | none => f

namespace Move

variable (m : Move Id)

def newName (plan : Plan Id) : Path := m.input.name.getD (basename plan.newPath)

/-- the tables as the transaction sees them after its own `UPDATE` -/
def updateRow (plan : Plan Id) (f : FolderRow Id) : FolderRow Id :=
  if f.id = m.folderId then { f with path := plan.newPath, name := m.newName plan, parentId := plan.newParentId } else f

/-- what it has written -/
def apply (plan : Plan Id) (rewrites : List (Id × Path)) (folders : List (FolderRow Id)) : List (FolderRow Id) :=
  folders.map fun f => rewriteRow rewrites (m.updateRow plan f)

/-- the paths `rewriteDescendantPaths` writes in the folders table -/
def rewritesOf (plan : Plan Id) (folders : List (FolderRow Id)) : List (Id × Path) :=
  if plan.newPath = plan.folder.path then []
  else ((folders.map (m.updateRow plan)).filter fun f =>
    f.vaultId = plan.folder.vaultId ∧ isBelow plan.folder.path f.path).map fun f =>
      (f.id, rewritten plan.folder.path plan.newPath f.path)

end Move

/-- the unique index on vault and path key -/
def keysUnique (key : Path → K) (folders : List (FolderRow Id)) : Bool :=
  (folders.map fun f => (f.vaultId, key f.path)).Nodup

namespace St

variable (key : Path → K) (s : St Id)

/-- some other transaction has the row -/
def isLocked (i : ℕ) (id : Id) : Bool :=
  s.moves.zipIdx.any fun x => x.2 ≠ i ∧ id ∈ x.1.rows

def setStage (i : ℕ) (stage : Stage Id) : St Id :=
  { s with moves := s.moves.modify i fun m => { m with stage := stage } }

def locks (i : ℕ) : St Id := match s.moves[i]? with
  | some m => match m.stage with
    | .begun =>
      if s.isLocked i m.folderId then s
      else match findFolder s.folders m.folderId with
        | some folder => s.setStage i (.locked folder)
        | none => s.setStage i .rolledBack
    | _ => s
  | none => s

def plans (i : ℕ) : St Id := match s.moves[i]? with
  | some m => match m.stage with
    | .locked folder => match planFolderMove key s.folders folder m.input with
      | .ok (newPath, newParentId) => s.setStage i (.planned ⟨folder, newPath, newParentId⟩)
      | .error _ => s.setStage i .rolledBack
    | _ => s
  | none => s

/-- the question is asked where the parent is another -/
def cycles (m : Move Id) (plan : Plan Id) : Bool := match plan.newParentId with
  | some p => some p ≠ plan.folder.parentId && wouldCycle s.folders m.folderId p
  | none => false

def checks (i : ℕ) : St Id := match s.moves[i]? with
  | some m => match m.stage with
    | .planned plan => s.setStage i (if s.cycles m plan then .rolledBack else .checked plan)
    | _ => s
  | none => s

def clashes (m : Move Id) (plan : Plan Id) : Bool :=
  !samePath key plan.newPath plan.folder.path &&
    s.folders.any fun f => f.vaultId = plan.folder.vaultId ∧ key f.path = key plan.newPath ∧ f.id ≠ m.folderId

def probes (i : ℕ) : St Id := match s.moves[i]? with
  | some m => match m.stage with
    | .checked plan => s.setStage i (if s.clashes key m plan then .rolledBack else .probed plan)
    | _ => s
  | none => s

def updates (i : ℕ) : St Id := match s.moves[i]? with
  | some m => match m.stage with
    | .probed plan => s.setStage i (.updated plan)
    | _ => s
  | none => s

def rewrites (i : ℕ) : St Id := match s.moves[i]? with
  | some m => match m.stage with
    | .updated plan =>
      if (m.rewritesOf plan s.folders).any fun x => s.isLocked i x.1 then s
      else s.setStage i (.rewritten plan (m.rewritesOf plan s.folders))
    | _ => s
  | none => s

/-- the index would have refused a second row at a path -/
def commits (i : ℕ) : St Id := match s.moves[i]? with
  | some m => match m.stage with
    | .rewritten plan rewrites =>
      if keysUnique key (m.apply plan rewrites s.folders) then
        { s.setStage i .committed with folders := m.apply plan rewrites s.folders }
      else s.setStage i .rolledBack
    | _ => s
  | none => s

def fails (i : ℕ) : St Id := match s.moves[i]? with
  | some m => if m.stage = .committed then s else s.setStage i .rolledBack
  | none => s

end St

def step (key : Path → K) (s : St Id) : Action Id → St Id
  | .begins folderId input => { s with moves := s.moves ++ [{ folderId := folderId, input := input }] }
  | .locks i => s.locks i
  | .plans i => s.plans key i
  | .checks i => s.checks i
  | .probes i => s.probes key i
  | .updates i => s.updates i
  | .rewrites i => s.rewrites i
  | .commits i => s.commits key i
  | .fails i => s.fails i

def run (key : Path → K) (s : St Id) (as : List (Action Id)) : St Id := Machine.run (step key) s as

/-! ## What is to hold -/

/-- following `parent_id` ends at a root -/
def Acyclic (folders : List (FolderRow Id)) : Prop := Forest.Rooted (ids folders) (parentOf folders)

/-- the move a commit is about to make -/
def St.committing (s : St Id) (key : Path → K) : Action Id → Option (Move Id × Plan Id)
  | .commits i => s.moves[i]?.bind fun m => match m.stage with
    | .rewritten plan rewrites => if keysUnique key (m.apply plan rewrites s.folders) then some (m, plan) else none
    | _ => none
  | _ => none

/-- a move commits where the folder may still hang from its new parent -/
def StillNoCycle (key : Path → K) (s : St Id) (a : Action Id) : Prop :=
  ∀ x ∈ s.committing key a, ∀ p ∈ x.2.newParentId, wouldCycle s.folders x.1.folderId p = false

instance (key : Path → K) (s : St Id) (a : Action Id) : Decidable (StillNoCycle key s a) :=
  inferInstanceAs (Decidable (∀ x ∈ s.committing key a, ∀ p ∈ x.2.newParentId,
    wouldCycle s.folders x.1.folderId p = false))

/-- the plan a transaction has made -/
def Stage.plan? : Stage Id → Option (Plan Id)
  | .planned plan | .checked plan | .probed plan | .updated plan | .rewritten plan _ => some plan
  | _ => none

structure St.Ok (s : St Id) : Prop where
  /-- the foreign key -/
  parents : ∀ f ∈ s.folders, ∀ p ∈ f.parentId, p ∈ ids s.folders
  locked : ∀ m ∈ s.moves, ∀ folder, m.stage = .locked folder → m.folderId ∈ ids s.folders ∧
    ∀ p ∈ folder.parentId, p ∈ ids s.folders
  planned : ∀ m ∈ s.moves, ∀ plan ∈ m.stage.plan?, m.folderId ∈ ids s.folders ∧
    ∀ p ∈ plan.newParentId, p ∈ ids s.folders

/-! ## The tables under a move -/

section

variable {folders : List (FolderRow Id)} {m : Move Id} {plan : Plan Id} {rewrites : List (Id × Path)}

@[simp] theorem rewriteRow_id (f : FolderRow Id) : (rewriteRow rewrites f).id = f.id := by
  unfold rewriteRow
  split <;> rfl

@[simp] theorem rewriteRow_parentId (f : FolderRow Id) : (rewriteRow rewrites f).parentId = f.parentId := by
  unfold rewriteRow
  split <;> rfl

@[simp] theorem updateRow_id (f : FolderRow Id) : (m.updateRow plan f).id = f.id := by
  unfold Move.updateRow
  split <;> rfl

theorem updateRow_parentId (f : FolderRow Id) :
    (m.updateRow plan f).parentId = if f.id = m.folderId then plan.newParentId else f.parentId := by
  unfold Move.updateRow
  split <;> rfl

theorem ids_apply : ids (m.apply plan rewrites folders) = ids folders := by
  unfold ids Move.apply
  rw [map_map]
  apply map_congr_left
  intro f _
  simp

theorem findFolder_apply (id : Id) :
    findFolder (m.apply plan rewrites folders) id =
      (findFolder folders id).map fun f => rewriteRow rewrites (m.updateRow plan f) := by
  unfold findFolder Move.apply
  rw [find?_map]
  congr 2
  funext f
  simp

theorem findFolder_mem {id : Id} {f : FolderRow Id} (h : findFolder folders id = some f) : f ∈ folders ∧ f.id = id :=
  ⟨mem_of_find?_eq_some h, by simpa using find?_some h⟩

theorem mem_ids_iff {id : Id} : id ∈ ids folders ↔ ∃ f, findFolder folders id = some f := by
  constructor
  · intro h
    obtain ⟨f, hf, rfl⟩ := mem_map.mp h
    exact Option.isSome_iff_exists.mp (find?_isSome.mpr ⟨f, hf, by simp⟩)
  · rintro ⟨f, hf⟩
    obtain ⟨hmem, rfl⟩ := findFolder_mem hf
    exact mem_map_of_mem hmem

/-- a commit changes one parent -/
theorem parentOf_apply (hm : m.folderId ∈ ids folders) :
    parentOf (m.apply plan rewrites folders) = Function.update (parentOf folders) m.folderId plan.newParentId := by
  funext id
  unfold parentOf
  rw [findFolder_apply]
  by_cases heq : id = m.folderId
  · subst heq
    obtain ⟨f, hf⟩ := mem_ids_iff.mp hm
    rw [Function.update_self, hf]
    simp [updateRow_parentId, (findFolder_mem hf).2]
  · rw [Function.update_of_ne heq]
    cases hf : findFolder folders id with
    | none => rfl
    | some f => simp [updateRow_parentId, (findFolder_mem hf).2, heq]

/-- the question asked is the one that matters -/
theorem wouldCycle_iff (h : Acyclic folders) {folderId p : Id} (hp : p ∈ ids folders) :
    wouldCycle folders folderId p = true ↔ folderId ∈ Forest.ancestors (ids folders) (parentOf folders) p := by
  unfold wouldCycle
  simp only [Bool.or_eq_true, decide_eq_true_eq]
  rw [Forest.mem_descendants h, Forest.mem_ancestors_iff h hp]
  apply or_congr
  · exact eq_comm
  · constructor
    · rintro ⟨a, ha, hchild⟩
      obtain ⟨_, q, hq, hmem⟩ := Forest.mem_children.mp hchild
      obtain rfl := mem_singleton.mp hmem
      exact ⟨a, ha, hq⟩
    · rintro ⟨a, ha, hparent⟩
      refine ⟨a, ha, Forest.mem_children.mpr ⟨?_, folderId, hparent, mem_singleton_self _⟩⟩
      exact Forest.mem_nodes_of_mem_up ha

theorem acyclic_apply (h : Acyclic folders) (hm : m.folderId ∈ ids folders)
    (hp : ∀ p ∈ plan.newParentId, p ∈ ids folders) :
    Acyclic (m.apply plan rewrites folders) ↔ ∀ p ∈ plan.newParentId, wouldCycle folders m.folderId p = false := by
  unfold Acyclic
  rw [ids_apply, parentOf_apply hm]
  cases hparent : plan.newParentId with
  | none => simp [h.uproot]
  | some p =>
    have hpn : p ∈ ids folders := hp p hparent
    rw [Forest.rooted_reparent_iff h hm hpn, ← wouldCycle_iff h hpn]
    simp

/-- a plan's parent is a folder there is, or the one the folder had -/
theorem plan_parent_mem {key : Path → K} {folder : FolderRow Id} {input : MoveFolderInput Id} {newPath : Path}
    {newParentId : Option Id} (hfolder : ∀ p ∈ folder.parentId, p ∈ ids folders)
    (h : planFolderMove key folders folder input = .ok (newPath, newParentId)) :
    ∀ p ∈ newParentId, p ∈ ids folders := by
  have hfound : ∀ {id : Id} {f : FolderRow Id}, findFolder folders id = some f → ∀ p ∈ some f.id, p ∈ ids folders := by
    intro id f hf p hp
    cases hp
    exact mem_map_of_mem (findFolder_mem hf).1
  have hbypath : ∀ {dir : Path} {f : FolderRow Id}, findFolderByPath key folders folder.vaultId dir = some f →
      ∀ p ∈ some f.id, p ∈ ids folders := by
    intro dir f hf p hp
    cases hp
    exact mem_map_of_mem (mem_of_find?_eq_some hf)
  unfold planFolderMove resolveParent at h
  grind

end

/-! ## Every step -/

section

variable {key : Path → K} {s : St Id}

/-- a stage that knows nothing new -/
def Stage.Fine (folders : List (FolderRow Id)) (m : Move Id) (stage : Stage Id) : Prop :=
  (∀ folder, stage = .locked folder → m.folderId ∈ ids folders ∧ ∀ p ∈ folder.parentId, p ∈ ids folders) ∧
    ∀ plan ∈ stage.plan?, m.folderId ∈ ids folders ∧ ∀ p ∈ plan.newParentId, p ∈ ids folders

namespace St

variable {stage : Stage Id}

theorem Ok.setStage (h : s.Ok) {i : ℕ} {m : Move Id} (hm : s.moves[i]? = some m) (hstage : stage.Fine s.folders m) :
    (s.setStage i stage).Ok := by
  have hmoves : ∀ m' ∈ (s.setStage i stage).moves, m' ∈ s.moves ∨ m' = { m with stage := stage } := by
    intro m' hm'
    obtain ⟨j, hj⟩ := mem_iff_getElem?.mp hm'
    unfold St.setStage at hj
    rw [getElem?_modify] at hj
    split at hj
    · next heq =>
      subst heq
      rw [hm] at hj
      exact .inr (Option.some.inj hj).symm
    · exact .inl (mem_iff_getElem?.mpr ⟨j, by simpa using hj⟩)
  refine ⟨h.parents, ?_, ?_⟩
  · intro m' hm' folder hfolder
    rcases hmoves m' hm' with hold | rfl
    · exact h.locked m' hold folder hfolder
    · exact hstage.1 folder hfolder
  · intro m' hm' plan hplan
    rcases hmoves m' hm' with hold | rfl
    · exact h.planned m' hold plan hplan
    · exact hstage.2 plan hplan

theorem fine_ended {folders : List (FolderRow Id)} {m : Move Id} (hstage : stage = .committed ∨ stage = .rolledBack) :
    stage.Fine folders m := by
  rcases hstage with rfl | rfl
  all_goals exact ⟨fun _ h => by simp at h, fun _ h => by simp [Stage.plan?] at h⟩

/-- a later stage of the same plan -/
theorem Ok.fine (h : s.Ok) {i : ℕ} {m : Move Id} (hm : s.moves[i]? = some m) {plan : Plan Id}
    (hplan : m.stage.plan? = some plan) (hlocked : ∀ folder, stage ≠ .locked folder)
    (hstage : stage.plan? = some plan) : stage.Fine s.folders m := by
  refine ⟨fun folder hfolder => absurd hfolder (hlocked folder), ?_⟩
  intro plan' hplan'
  rw [hstage] at hplan'
  cases hplan'
  exact h.planned m (mem_of_getElem? hm) plan hplan

section

variable (h : s.Ok) (i : ℕ)

include h

theorem Ok.locks : (s.locks i).Ok := by
  unfold St.locks
  split
  · next m hm =>
    split
    · split
      · exact h
      · split
        · next folder hfolder =>
          apply h.setStage hm
          refine ⟨?_, fun _ hplan => by simp [Stage.plan?] at hplan⟩
          intro folder' heq
          obtain rfl := Stage.locked.inj heq
          exact ⟨mem_ids_iff.mpr ⟨folder, hfolder⟩, h.parents folder (findFolder_mem hfolder).1⟩
        · exact h.setStage hm (fine_ended (.inr rfl))
    · exact h
  · exact h

theorem Ok.plans : (s.plans key i).Ok := by
  unfold St.plans
  split
  · next m hm =>
    split
    · next folder hstage =>
      obtain ⟨hmem, hfolder⟩ := h.locked m (mem_of_getElem? hm) folder hstage
      split
      · next newPath newParentId hplan =>
        apply h.setStage hm
        refine ⟨fun _ heq => by simp at heq, ?_⟩
        intro plan hp
        cases hp
        exact ⟨hmem, plan_parent_mem hfolder hplan⟩
      · exact h.setStage hm (fine_ended (.inr rfl))
    · exact h
  · exact h

theorem Ok.checks : (s.checks i).Ok := by
  unfold St.checks
  split
  · next m hm =>
    split
    · next plan hstage =>
      apply h.setStage hm
      split
      · exact fine_ended (.inr rfl)
      · exact h.fine hm (by rw [hstage]; rfl) (by simp) rfl
    · exact h
  · exact h

theorem Ok.probes : (s.probes key i).Ok := by
  unfold St.probes
  split
  · next m hm =>
    split
    · next plan hstage =>
      apply h.setStage hm
      split
      · exact fine_ended (.inr rfl)
      · exact h.fine hm (by rw [hstage]; rfl) (by simp) rfl
    · exact h
  · exact h

theorem Ok.updates : (s.updates i).Ok := by
  unfold St.updates
  split
  · next m hm =>
    split
    · next plan hstage => exact h.setStage hm (h.fine hm (by rw [hstage]; rfl) (by simp) rfl)
    · exact h
  · exact h

theorem Ok.rewrites : (s.rewrites i).Ok := by
  unfold St.rewrites
  split
  · next m hm =>
    split
    · next plan hstage =>
      split
      · exact h
      · exact h.setStage hm (h.fine hm (by rw [hstage]; rfl) (by simp) rfl)
    · exact h
  · exact h

theorem Ok.fails : (s.fails i).Ok := by
  unfold St.fails
  split
  · next m hm =>
    split
    · exact h
    · exact h.setStage hm (fine_ended (.inr rfl))
  · exact h

/-- the rows keep their ids, and a row's parent is its own or the plan's -/
theorem Ok.commits : (s.commits key i).Ok := by
  unfold St.commits
  split
  · next m hm =>
    split
    · next plan rewrites hstage =>
      have hfine : Stage.Fine s.folders m .committed := fine_ended (.inl rfl)
      have hend := h.setStage hm hfine
      obtain ⟨_, hparent⟩ := h.planned m (mem_of_getElem? hm) plan (by rw [hstage]; rfl)
      split
      · refine ⟨?_, ?_, ?_⟩
        · intro f hf p hp
          obtain ⟨f', hf', rfl⟩ := mem_map.mp hf
          rw [rewriteRow_parentId, updateRow_parentId] at hp
          rw [ids_apply]
          split at hp
          · exact hparent p hp
          · exact h.parents f' hf' p hp
        · intro m' hm' folder hfolder
          have hold := hend.locked m' hm' folder hfolder
          rw [ids_apply]
          exact hold
        · intro m' hm' plan' hplan'
          have hold := hend.planned m' hm' plan' hplan'
          rw [ids_apply]
          exact hold
      · exact h.setStage hm (fine_ended (.inr rfl))
    · exact h
  · exact h

end

end St

theorem ok_step (key : Path → K) (s : St Id) (a : Action Id) (h : s.Ok) : (step key s a).Ok := by
  cases a with
  | begins folderId input =>
    refine ⟨h.parents, ?_, ?_⟩
    · intro m hm folder hfolder
      rcases mem_snoc.1 hm with hold | rfl
      · exact h.locked m hold folder hfolder
      · cases hfolder
    · intro m hm plan hplan
      rcases mem_snoc.1 hm with hold | rfl
      · exact h.planned m hold plan hplan
      · simp [Stage.plan?] at hplan
  | locks i => exact h.locks i
  | plans i => exact h.plans i
  | checks i => exact h.checks i
  | probes i => exact h.probes i
  | updates i => exact h.updates i
  | rewrites i => exact h.rewrites i
  | commits i => exact h.commits i
  | fails i => exact h.fails i

/-- only a commit changes the committed folders -/
theorem folders_step (a : Action Id) (ha : ∀ i, a ≠ .commits i) : (step key s a).folders = s.folders := by
  cases a with
  | begins folderId input => rfl
  | commits i => exact absurd rfl (ha i)
  | locks i =>
    unfold step St.locks
    grind [St.setStage]
  | plans i =>
    unfold step St.plans
    grind [St.setStage]
  | checks i =>
    unfold step St.checks
    grind [St.setStage]
  | probes i =>
    unfold step St.probes
    grind [St.setStage]
  | updates i =>
    unfold step St.updates
    grind [St.setStage]
  | rewrites i =>
    unfold step St.rewrites
    grind [St.setStage]
  | fails i =>
    unfold step St.fails
    grind [St.setStage]

/-- a commit keeps the forest exactly if the folder may still hang from its new parent -/
theorem acyclic_step (a : Action Id) (h : s.Ok) (hforest : Acyclic s.folders) :
    Acyclic (step key s a).folders ↔ StillNoCycle key s a := by
  by_cases ha : ∃ i, a = .commits i
  · obtain ⟨i, rfl⟩ := ha
    unfold step St.commits StillNoCycle St.committing
    dsimp only
    cases hm : s.moves[i]? with
    | none => simpa using hforest
    | some m =>
      simp only [Option.bind_some]
      split
      · next plan rewrites hstage =>
        obtain ⟨hmem, hparent⟩ := h.planned m (mem_of_getElem? hm) plan (by rw [hstage]; rfl)
        split
        · simpa using acyclic_apply hforest hmem hparent
        · simpa [St.setStage] using hforest
      · simpa using hforest
  · have hnot : ∀ i, a ≠ .commits i := fun i heq => ha ⟨i, heq⟩
    rw [folders_step a hnot]
    refine ⟨fun _ x hx => ?_, fun _ => hforest⟩
    cases a with
    | commits i => exact absurd rfl (hnot i)
    | _ => simp [St.committing] at hx

end

/-- **Folders stay a forest.** For every forest of folders and every interleaving of any number of moves, following
`parent_id` ends at a root in every state of the run, exactly if `wouldCycle`, asked of the committed folders when a
move commits, says no. -/
theorem forest_iff (key : Path → K) (folders : List (FolderRow Id)) (hforest : Acyclic folders)
    (hparents : ∀ f ∈ folders, ∀ p ∈ f.parentId, p ∈ ids folders) (as : List (Action Id)) :
    Machine.Guarded (step key) (StillNoCycle key) { folders := folders } as ↔
      ∀ n, Acyclic (run key { folders := folders } (as.take n)).folders := by
  have hexact : ∀ (s : St Id) (a : Action Id), s.Ok → Acyclic s.folders →
      (Acyclic (step key s a).folders ↔ StillNoCycle key s a) := fun s a h hs => acyclic_step a h hs
  have hinit : St.Ok { folders := folders } :=
    ⟨hparents, fun m hm => absurd hm not_mem_nil, fun m hm => absurd hm not_mem_nil⟩
  exact Machine.guarded_iff (ok_step key) hexact hinit hforest as

/-! A, A/C in A, B, B/D in B. -/

def fourFolders : List (FolderRow ℕ) :=
  [⟨1, 0, none, ['A'], ['A']⟩, ⟨2, 0, none, ['B'], ['B']⟩, ⟨3, 0, some 1, ['C'], ['A', '/', 'C']⟩,
    ⟨4, 0, some 2, ['D'], ['B', '/', 'D']⟩]

/-- A is moved into B/D -/
def oneMove : List (Action ℕ) :=
  [.begins 1 { parentId := some (some 4) }, .locks 0, .plans 0, .checks 0, .probes 0, .updates 0, .rewrites 0,
    .commits 0]

/-- B is to go into A/C; before it is written, A has gone into B/D -/
def twoMoves : List (Action ℕ) :=
  [.begins 1 { parentId := some (some 4) }, .begins 2 { parentId := some (some 3) }, .locks 1, .plans 1, .checks 1,
    .locks 0, .plans 0, .checks 0, .probes 0, .updates 0, .rewrites 0, .commits 0,
    .probes 1, .updates 1, .rewrites 1, .commits 1]

theorem fourFolders_acyclic : Acyclic fourFolders :=
  ⟨fun id => if id ≤ 2 then 0 else 1, by decide⟩

theorem one_move_keeps_forest : Acyclic (run id { folders := fourFolders } oneMove).folders := by
  have h := (forest_iff id fourFolders fourFolders_acyclic (by decide) oneMove).mp (by decide)
  exact h 8

/-- 1 hangs from 4, 4 from 2, 2 from 3 and 3 from 1 -/
theorem two_moves_close_a_cycle : ¬ Acyclic (run id { folders := fourFolders } twoMoves).folders := by
  have hup : ∀ x ∈ [(1, 4), (4, 2), (2, 3), (3, 1)], x.1 ∈ ids (run id { folders := fourFolders } twoMoves).folders ∧
      parentOf (run id { folders := fourFolders } twoMoves).folders x.1 = some x.2 := by
    decide
  rintro ⟨depth, hdepth⟩
  have hlt : ∀ x ∈ [(1, 4), (4, 2), (2, 3), (3, 1)], depth x.2 < depth x.1 := fun x hx =>
    (hdepth x.1 (hup x hx).1 x.2 (hup x hx).2).2
  have h₁ : depth 4 < depth 1 := hlt (1, 4) (by decide)
  have h₂ : depth 2 < depth 4 := hlt (4, 2) (by decide)
  have h₃ : depth 3 < depth 2 := hlt (2, 3) (by decide)
  have h₄ : depth 1 < depth 3 := hlt (3, 1) (by decide)
  omega

end

end Baalda.FolderMoves
