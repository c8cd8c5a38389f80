/-
Registering notes (`registry/batch-ops.ts registerNotes`): a batch plans every item on what it has read, inserts the
planned rows in one statement, and then says what became of each.

`Env` is what the items share: the vault, its folders, the caller's permissions and the note limit. A result or a plan
stands in the list where its item stood. `minted` is what `randomUUID()` gives, should an item have no id. `none` is a
thrown error.

`batch_iff`: with no other writer, a batch leaves the rows and gives the answers of registering its items one by one,
exactly if no item names a path that an earlier item was turned away from for its id.
-/
import Baalda.Lib.Slots
import Baalda.Server.VaultTree

namespace Baalda.RegisterNotes

open VaultTree List

variable {Id K : Type*}

/-! ## The request -/

structure NoteInput (Id : Type*) where
  relPath : Path
  docId : Option Id := none
  folderId : Option Id := none
  title : Option Path := none
  minted : Id
  deriving DecidableEq

/-- a row as an answer gives it -/
structure Registered (Id : Type*) where
  id : Id
  folderId : Option Id
  title : Option Path
  relPath : Path
  deriving DecidableEq

/-- `RegisterCode` of an error -/
inductive RegisterError (Id : Type*) where
  | pathFolderMismatch (message : TreeOpError Id)
  | transientFile (path : Path)
  | noWriteAccess
  | rootFrozen
  | noteLimitReached (limit : ℕ)
  | notReadable
  deriving DecidableEq

inductive ConflictCode where
  | docIdConflict
  | noteDeleted
  deriving DecidableEq

inductive RegisterResult (Id : Type*) where
  | created (row : Registered Id)
  | adopted (row : Registered Id)
  | conflict (code : ConflictCode) (id : Id)
  | error (code : RegisterError Id)
  deriving DecidableEq

structure NoteInsertPlan (Id : Type*) where
  id : Id
  folderId : Option Id
  title : Option Path
  storedRelPath : Path
  deriving DecidableEq

/-- what the planning makes of an item -/
inductive Outcome (Id : Type*) where
  | answered (result : RegisterResult Id)
  | planned (plan : NoteInsertPlan Id)
  deriving DecidableEq

structure Env (Id K : Type*) where
  key : Path → K
  vaultId : Id
  folders : List (FolderRow Id)
  canCreateIn : Option Id → Bool
  /-- no item-level Private hides the document from the caller -/
  canAdoptDoc : Id → Bool
  rootFrozen : Bool
  /-- `none`: no limit -/
  cap : Option ℕ

/-- the request's `cache.notes` -/
abbrev Cache (Id K : Type*) := K → Option (Option (Registered Id))

def toNote (row : NoteRow Id) : Registered Id := ⟨row.id, row.folderId, row.title, row.relPath⟩

def NoteInput.id (input : NoteInput Id) : Id := input.docId.getD input.minted

def noteIds (notes : List (NoteRow Id)) : List Id := notes.map NoteRow.id

namespace NoteInsertPlan

variable (plan : NoteInsertPlan Id)

def registered : Registered Id := ⟨plan.id, plan.folderId, plan.title, plan.storedRelPath⟩

def row (vaultId : Id) : NoteRow Id := ⟨plan.id, vaultId, plan.folderId, plan.title, plan.storedRelPath, false⟩

end NoteInsertPlan

section

variable [DecidableEq Id] [DecidableEq K] (env : Env Id K)

section

variable (notes : List (NoteRow Id))

/-- the live note at a path key -/
def liveByKey (k : K) : Option (NoteRow Id) :=
  notes.find? fun n => n.vaultId = env.vaultId ∧ env.key n.relPath = k ∧ n.deleted = false

def liveCount : ℕ := notes.countP fun n => n.vaultId = env.vaultId ∧ n.deleted = false

/-- `SELECT id FROM notes WHERE id = ANY` -/
def probeIds (asked : List Id) : List Id := asked.filter fun id => id ∈ noteIds notes

def prefetchNotes (inputs : List (NoteInput Id)) : Cache Id K := fun k =>
  if ∃ i ∈ inputs, i.relPath ≠ [] ∧ env.key i.relPath = k then some ((liveByKey env notes k).map toNote) else none

def liveNoteByPath (cache : Cache Id K) (relPath : Path) : Option (Registered Id) × Cache Id K :=
  match cache (env.key relPath) with
  | some hit => (hit, cache)
  | none =>
    let row := (liveByKey env notes (env.key relPath)).map toNote
    (row, Function.update cache (env.key relPath) (some row))

end

def adopt (row : Registered Id) : RegisterResult Id :=
  if env.canAdoptDoc row.id then .adopted row else .error .notReadable

/-- what the planning has found out and decided so far -/
structure Progress (Id K : Type*) where
  cache : Cache Id K
  known : List Id := []
  remaining : Option ℕ

/-- one turn of the planning loop; `existing` are the ids that had a row -/
def planNote (notes : List (NoteRow Id)) (existing : List Id) (p : Progress Id K) (input : NoteInput Id) :
    Outcome Id × Progress Id K :=
  let (byPath, cache) := liveNoteByPath env notes p.cache input.relPath
  match byPath with
  | some row => (.answered (adopt env row), { p with cache := cache })
  | none => match resolveParent env.key env.folders env.vaultId input.relPath input.folderId with
    | .error e => (.answered (.error (.pathFolderMismatch e)), { p with cache := cache })
    | .ok (folderId, storedRelPath) =>
      let isNew : Bool := input.id ∉ existing ∧ input.id ∉ p.known
      if !env.canCreateIn folderId then (.answered (.error .noWriteAccess), { p with cache := cache })
      else if folderId = none ∧ env.rootFrozen ∧ isNew then (.answered (.error .rootFrozen), { p with cache := cache })
      else if p.remaining = some 0 ∧ isNew then
        (.answered (.error (.noteLimitReached (env.cap.getD 0))), { p with cache := cache })
      else
        let plan : NoteInsertPlan Id := ⟨input.id, folderId, input.title, storedRelPath⟩
        (.planned plan,
          { cache := Function.update cache (env.key storedRelPath) (some (some plan.registered))
            known := input.id :: p.known
            remaining := if isNew then p.remaining.map (· - 1) else p.remaining })

def planNotes (notes : List (NoteRow Id)) (existing : List Id) (p : Progress Id K) :
    List (NoteInput Id) → List (Outcome Id)
  | [] => []
  | input :: inputs =>
    let (outcome, p') := planNote env notes existing p input
    outcome :: planNotes notes existing p' inputs

/-- the plans offered to the insert: the first of each id -/
def firsts : List Id → List (Outcome Id) → List (NoteInsertPlan Id)
  | _, [] => []
  | seen, .answered _ :: outcomes => firsts seen outcomes
  | seen, .planned plan :: outcomes =>
    if plan.id ∈ seen then firsts seen outcomes else plan :: firsts (plan.id :: seen) outcomes

/-- a row at a time: nothing on an id there is, an error on a path that is taken -/
def insertOne (notes : List (NoteRow Id)) (plan : NoteInsertPlan Id) : Option (List (NoteRow Id)) :=
  if plan.id ∈ noteIds notes then some notes
  else if (liveByKey env notes (env.key plan.storedRelPath)).isSome then none
  else some (notes ++ [plan.row env.vaultId])

/-- `INSERT ... SELECT FROM unnest(...) ON CONFLICT (id) DO NOTHING` -/
def insertAll (notes : List (NoteRow Id)) (plans : List (NoteInsertPlan Id)) : Option (List (NoteRow Id)) :=
  plans.foldlM (insertOne env) notes

/-- the replay after a unique violation: each row for itself, and the winner of its path -/
def replay (notes : List (NoteRow Id)) : List (NoteInsertPlan Id) →
    Option (List (NoteRow Id) × List (NoteInsertPlan Id × RegisterResult Id))
  | [] => some (notes, [])
  | plan :: plans => match insertOne env notes plan with
    | some notes' => replay notes' plans
    | none => match liveByKey env notes (env.key plan.storedRelPath) with
      | some winner => (replay notes plans).map fun r => (r.1, (plan, adopt env (toNote winner)) :: r.2)
      | none => none

/-- what `ON CONFLICT (id) DO NOTHING` declined to write -/
def decline (notes : List (NoteRow Id)) (plan : NoteInsertPlan Id) : RegisterResult Id :=
  match notes.find? fun n => n.id = plan.id with
  | none => .created plan.registered
  | some row =>
    if row.vaultId ≠ env.vaultId then .conflict .docIdConflict plan.id
    else if row.deleted then .conflict .noteDeleted plan.id
    else if row.relPath ≠ plan.storedRelPath then .adopted ⟨plan.id, row.folderId, row.title, row.relPath⟩
    else .created plan.registered

/-- the answers: `inserted` are the first plans whose row is new -/
def answers (notes : List (NoteRow Id)) (inserted : List Id) (lost : List (NoteInsertPlan Id × RegisterResult Id)) :
    List Id → List (Outcome Id) → List (RegisterResult Id)
  | _, [] => []
  | seen, .answered result :: outcomes => result :: answers notes inserted lost seen outcomes
  | seen, .planned plan :: outcomes =>
    if plan.id ∈ seen then decline env notes plan :: answers notes inserted lost seen outcomes
    else (match lost.lookup plan with
      | some result => result
      | none => if plan.id ∈ inserted then .created plan.registered else decline env notes plan) ::
        answers notes inserted lost (plan.id :: seen) outcomes

def applyNoteInserts (notes : List (NoteRow Id)) (outcomes : List (Outcome Id)) :
    Option (List (NoteRow Id) × List (RegisterResult Id)) :=
  let plans := firsts [] outcomes
  let isInserted := (plans.map NoteInsertPlan.id).filter fun id => id ∉ noteIds notes
  match insertAll env notes plans with
  | some notes' => some (notes', answers env notes' isInserted [] [] outcomes)
  | none => (replay env notes plans).map fun r => (r.1, answers env r.1 isInserted r.2 [] outcomes)

def registerNotes (notes : List (NoteRow Id)) (inputs : List (NoteInput Id)) :
    Option (List (NoteRow Id) × List (RegisterResult Id)) :=
  applyNoteInserts env notes (planNotes env notes (probeIds notes (inputs.filterMap NoteInput.docId))
    { cache := prefetchNotes env notes inputs, remaining := env.cap.map fun cap => cap - liveCount env notes } inputs)

/-- one request for each item -/
def oneByOne : List (NoteRow Id) → List (NoteInput Id) → Option (List (NoteRow Id) × List (RegisterResult Id))
  | notes, [] => some (notes, [])
  | notes, input :: inputs => (registerNotes env notes [input]).bind fun r =>
    (oneByOne r.1 inputs).map fun r' => (r'.1, r.2 ++ r'.2)

/-! ## One item by itself -/

/-- what an item is answered, or would insert, where the rows are `notes` -/
def planOne (notes : List (NoteRow Id)) (input : NoteInput Id) : Outcome Id :=
  match liveByKey env notes (env.key input.relPath) with
  | some row => .answered (adopt env (toNote row))
  | none => match resolveParent env.key env.folders env.vaultId input.relPath input.folderId with
    | .error e => .answered (.error (.pathFolderMismatch e))
    | .ok (folderId, storedRelPath) =>
      if !env.canCreateIn folderId then .answered (.error .noWriteAccess)
      else if folderId = none ∧ env.rootFrozen ∧ input.id ∉ noteIds notes then .answered (.error .rootFrozen)
      else if env.cap.map (· - liveCount env notes) = some 0 ∧ input.id ∉ noteIds notes then
        .answered (.error (.noteLimitReached (env.cap.getD 0)))
      else .planned ⟨input.id, folderId, input.title, storedRelPath⟩

/-- a plan is written unless its id has a row -/
def settleOne (notes : List (NoteRow Id)) : Outcome Id → List (NoteRow Id) × RegisterResult Id
  | .answered result => (notes, result)
  | .planned plan =>
    if plan.id ∈ noteIds notes then (notes, decline env notes plan)
    else (notes ++ [plan.row env.vaultId], .created plan.registered)

def settle (notes : List (NoteRow Id)) : List (Outcome Id) → List (NoteRow Id) × List (RegisterResult Id)
  | [] => (notes, [])
  | outcome :: outcomes =>
    let rest := settle (settleOne env notes outcome).1 outcomes
    (rest.1, (settleOne env notes outcome).2 :: rest.2)

def registerOne (notes : List (NoteRow Id)) (input : NoteInput Id) : List (NoteRow Id) × RegisterResult Id :=
  settleOne env notes (planOne env notes input)

def registerEach (notes : List (NoteRow Id)) : List (NoteInput Id) → List (NoteRow Id) × List (RegisterResult Id)
  | [] => (notes, [])
  | input :: inputs =>
    let rest := registerEach (registerOne env notes input).1 inputs
    (rest.1, (registerOne env notes input).2 :: rest.2)

/-! ## When a batch is as good -/

/-- no note is at the item's path, it may be created there, but its id has a row already: in another vault, deleted, at
another path -/
def TurnedAway (notes : List (NoteRow Id)) (input : NoteInput Id) : Prop :=
  liveByKey env notes (env.key input.relPath) = none ∧ input.id ∈ noteIds notes ∧
    match resolveParent env.key env.folders env.vaultId input.relPath input.folderId with
    | .ok (folderId, _) => env.canCreateIn folderId = true
    | .error _ => False

/-- no item names a path for which an earlier one was turned away; `ghosts` are those paths so far -/
def NoGhost (notes : List (NoteRow Id)) (ghosts : Set K) : List (NoteInput Id) → Prop
  | [] => True
  | input :: inputs => env.key input.relPath ∉ ghosts ∧
      NoGhost (registerOne env notes input).1
        ({k | TurnedAway env notes input ∧ k = env.key input.relPath} ∪ ghosts) inputs

/-- `randomUUID()` gives an id that nothing has -/
def Minted : List Id → List (NoteInput Id) → Prop
  | _, [] => True
  | taken, input :: inputs => (input.docId = none → input.id ∉ taken) ∧ Minted (input.id :: taken) inputs

/-! ## Inserting the plans -/

/-- a row that alone matches is what a query gives -/
theorem filter_eq_singleton {α : Type*} {rows : List α} {p : α → Bool} {a : α} (hnodup : rows.Nodup) (ha : a ∈ rows)
    (hp : p a) (halone : ∀ b ∈ rows, p b → b = a) : rows.filter p = [a] := by
  have hmem : ∀ b, b ∈ rows.filter p ↔ b ∈ [a] := by
    intro b
    rw [mem_filter, mem_singleton]
    constructor
    · rintro ⟨hb, hpb⟩
      exact halone b hb hpb
    · rintro rfl
      exact ⟨ha, hp⟩
  exact perm_singleton.1 ((perm_ext_iff_of_nodup (hnodup.filter _) (nodup_singleton a)).2 hmem)

section

variable {env}

@[simp] theorem noteIds_append_row (notes : List (NoteRow Id)) (plan : NoteInsertPlan Id) :
    noteIds (notes ++ [plan.row env.vaultId]) = noteIds notes ++ [plan.id] := by
  simp [noteIds, NoteInsertPlan.row]

/-- each plan finds its path free when its turn comes -/
def Clean (env : Env Id K) (notes : List (NoteRow Id)) : List (Outcome Id) → Prop
  | [] => True
  | outcome :: outcomes => (∀ plan, outcome = .planned plan → plan.id ∉ noteIds notes →
      liveByKey env notes (env.key plan.storedRelPath) = none) ∧ Clean env (settleOne env notes outcome).1 outcomes

variable {notes : List (NoteRow Id)} {plan : NoteInsertPlan Id}

theorem settleOne_old (h : plan.id ∈ noteIds notes) :
    settleOne env notes (.planned plan) = (notes, decline env notes plan) := if_pos h

theorem settleOne_new (h : plan.id ∉ noteIds notes) :
    settleOne env notes (.planned plan) = (notes ++ [plan.row env.vaultId], .created plan.registered) := if_neg h

variable {seen : List Id}

theorem insertAll_eq (outcomes : List (Outcome Id)) (hseen : seen ⊆ noteIds notes) (hclean : Clean env notes outcomes) :
    insertAll env notes (firsts seen outcomes) = some (settle env notes outcomes).1 := by
  induction outcomes generalizing seen notes with
  | nil => rfl
  | cons outcome outcomes ih =>
    obtain ⟨hhead, htail⟩ := hclean
    cases outcome with
    | answered result => exact ih hseen htail
    | planned plan =>
      unfold firsts settle
      by_cases hplan : plan.id ∈ seen
      · rw [if_pos hplan]
        rw [settleOne_old (hseen hplan)] at htail ⊢
        exact ih hseen htail
      · rw [if_neg hplan]
        unfold insertAll
        rw [foldlM_cons]
        unfold insertOne
        by_cases hid : plan.id ∈ noteIds notes
        · rw [settleOne_old hid] at htail ⊢
          rw [if_pos hid]
          exact ih (cons_subset.2 ⟨hid, hseen⟩) htail
        · rw [settleOne_new hid] at htail ⊢
          rw [if_neg hid, hhead plan rfl hid]
          apply ih _ htail
          rw [noteIds_append_row]
          intro id hmem
          rcases mem_cons.1 hmem with rfl | hmem
          · simp
          · exact mem_append_left _ (hseen hmem)

/-- the rows only grow -/
theorem settle_append (outcomes : List (Outcome Id)) (notes : List (NoteRow Id)) :
    ∃ extra, (settle env notes outcomes).1 = notes ++ extra := by
  induction outcomes generalizing notes with
  | nil => exact ⟨[], by simp [settle]⟩
  | cons outcome outcomes ih =>
    obtain ⟨extra, hextra⟩ := ih (settleOne env notes outcome).1
    have hone : ∃ extra₁, (settleOne env notes outcome).1 = notes ++ extra₁ := by
      cases outcome with
      | answered result => exact ⟨[], by simp [settleOne]⟩
      | planned plan =>
        by_cases hid : plan.id ∈ noteIds notes
        · exact ⟨[], by simp [settleOne_old hid]⟩
        · exact ⟨[plan.row env.vaultId], by rw [settleOne_new hid]⟩
    obtain ⟨extra₁, hextra₁⟩ := hone
    refine ⟨extra₁ ++ extra, ?_⟩
    rw [settle, hextra, hextra₁, append_assoc]

theorem decline_append {extra : List (NoteRow Id)} (h : plan.id ∈ noteIds notes) :
    decline env (notes ++ extra) plan = decline env notes plan := by
  obtain ⟨row, hrow, hid⟩ := mem_map.1 h
  have hsome : (notes.find? fun n => n.id = plan.id).isSome := find?_isSome.2 ⟨row, hrow, by simpa using hid⟩
  unfold decline
  rw [find?_append, Option.or_of_isSome hsome]

/-- the ids that are inserted -/
theorem mem_firsts (outcomes : List (Outcome Id)) (h : plan ∈ firsts seen outcomes) : plan.id ∉ seen := by
  induction outcomes generalizing seen with
  | nil => exact absurd h not_mem_nil
  | cons outcome outcomes ih =>
    cases outcome with
    | answered result => exact ih h
    | planned plan' =>
      unfold firsts at h
      split at h
      · exact ih h
      · next hnot =>
        rcases mem_cons.1 h with rfl | h
        · exact hnot
        · exact fun hmem => ih h (.tail _ hmem)

/-- `inserted` are the ids of new rows among the plans to come, `notes` the rows by then -/
theorem answers_eq (outcomes : List (Outcome Id)) {inserted : List Id} {final : List (NoteRow Id)}
    (hfinal : final = (settle env notes outcomes).1) (hseen : seen ⊆ noteIds notes)
    (hinserted : ∀ plan ∈ firsts seen outcomes, plan.id ∈ inserted ↔ plan.id ∉ noteIds notes) :
    answers env final inserted [] seen outcomes = (settle env notes outcomes).2 := by
  induction outcomes generalizing seen notes with
  | nil => rfl
  | cons outcome outcomes ih =>
    cases outcome with
    | answered result =>
      unfold answers settle
      congr 1
      exact ih hfinal hseen hinserted
    | planned plan =>
      have hdecline : plan.id ∈ noteIds notes → decline env final plan = decline env notes plan := by
        intro hid
        obtain ⟨extra, hextra⟩ : ∃ extra, (settle env notes (.planned plan :: outcomes)).1 = notes ++ extra :=
          settle_append _ _
        rw [hfinal, hextra]
        exact decline_append hid
      unfold settle at hfinal
      unfold answers settle
      unfold firsts at hinserted
      by_cases hplan : plan.id ∈ seen
      · rw [if_pos hplan] at hinserted ⊢
        rw [settleOne_old (hseen hplan)] at hfinal ⊢
        rw [hdecline (hseen hplan), ih hfinal hseen hinserted]
      · rw [if_neg hplan] at hinserted ⊢
        have hhead := hinserted plan mem_cons_self
        by_cases hid : plan.id ∈ noteIds notes
        · rw [settleOne_old hid] at hfinal ⊢
          have htail := ih hfinal (cons_subset.2 ⟨hid, hseen⟩)
            fun plan' hplan' => hinserted plan' (.tail _ hplan')
          simp [hhead, hid, hdecline hid, htail]
        · rw [settleOne_new hid] at hfinal ⊢
          have hseen' : plan.id :: seen ⊆ noteIds (notes ++ [plan.row env.vaultId]) := by
            rw [noteIds_append_row]
            grind
          have htail := ih hfinal hseen' fun plan' hplan' => by
            have hne : plan'.id ∉ plan.id :: seen := mem_firsts outcomes hplan'
            rw [hinserted plan' (.tail _ hplan'), noteIds_append_row]
            grind
          simp [hhead, hid, htail]

/-- **The statements do what the plans say.** Where every planned path is free in its turn, the insert is not aborted,
and each plan is answered as if it had been written in its turn. -/
theorem applyNoteInserts_eq {outcomes : List (Outcome Id)} (hclean : Clean env notes outcomes) :
    applyNoteInserts env notes outcomes = some (settle env notes outcomes) := by
  have hnil : ([] : List Id) ⊆ noteIds notes := nil_subset _
  unfold applyNoteInserts
  dsimp only
  rw [insertAll_eq outcomes hnil hclean]
  dsimp only
  rw [answers_eq outcomes rfl hnil]
  intro plan hplan
  simp [mem_map_of_mem (f := NoteInsertPlan.id) hplan]

/-! ## Planning -/

/-- the note at a path key, as the batch sees it -/
def Progress.sees (env : Env Id K) (notes : List (NoteRow Id)) (p : Progress Id K) (k : K) : Option (Registered Id) :=
  (p.cache k).getD ((liveByKey env notes k).map toNote)

variable {notes₀ notes : List (NoteRow Id)} {existing : List Id} {p : Progress Id K} {ghosts : Set K}
  {input : NoteInput Id}

theorem liveNoteByPath_fst (cache : Cache Id K) (relPath : Path) : (liveNoteByPath env notes cache relPath).1 =
    (cache (env.key relPath)).getD ((liveByKey env notes (env.key relPath)).map toNote) := by
  unfold liveNoteByPath
  cases cache (env.key relPath) <;> rfl

/-- a read that is remembered changes nothing -/
theorem liveNoteByPath_snd (cache : Cache Id K) (relPath : Path) (k : K) :
    ((liveNoteByPath env notes cache relPath).2 k).getD ((liveByKey env notes k).map toNote) =
      (cache k).getD ((liveByKey env notes k).map toNote) := by
  unfold liveNoteByPath
  cases hhit : cache (env.key relPath) with
  | some hit => rfl
  | none =>
    dsimp only
    by_cases hk : k = env.key relPath
    · subst hk
      rw [Function.update_self, hhit]
      rfl
    · rw [Function.update_of_ne hk]

/-- the path key of a directory and a name is that of the directory's key and the name -/
def KeyJoins (key : Path → K) : Prop := ∀ a b name, key a = key b → key (joinPath a name) = key (joinPath b name)

/-- a resolved path keeps its key -/
theorem key_resolveParent {key : Path → K} (hkey : KeyJoins key) {folders : List (FolderRow Id)} {vaultId : Id}
    {path stored : Path} {parentId folderId : Option Id}
    (h : resolveParent key folders vaultId path parentId = .ok (folderId, stored)) : key stored = key path := by
  have hvalid : validRelPath path = true := by
    unfold resolveParent at h
    grind
  have hjoin : ∀ dir, key dir = key (dirname path) → key (joinPath dir (basename path)) = key path := by
    intro dir hdir
    rw [hkey dir (dirname path) (basename path) hdir, joinPath_dirname_basename hvalid]
  have hsame : ∀ dir, samePath key dir (dirname path) = true → key dir = key (dirname path) := by
    intro dir hdir
    unfold samePath at hdir
    grind
  have hfound : ∀ parent, findFolderByPath key folders vaultId (dirname path) = some parent →
      key parent.path = key (dirname path) := by
    intro parent hparent
    have hp := find?_some hparent
    grind
  unfold resolveParent at h
  grind

structure Tracks (env : Env Id K) (notes₀ : List (NoteRow Id)) (existing : List Id) (p : Progress Id K)
    (notes : List (NoteRow Id)) (ghosts : Set K) : Prop where
  /-- elsewhere it sees the rows as they will be -/
  sees : ∀ k, k ∉ ghosts → p.sees env notes₀ k = (liveByKey env notes k).map toNote
  /-- a plan that will not be written -/
  ghost : ∀ k ∈ ghosts, liveByKey env notes k = none ∧ ∃ row, p.sees env notes₀ k = some row ∧ env.key row.relPath = k
  existing : existing ⊆ noteIds notes
  known : p.known ⊆ noteIds notes
  ids : ∀ id ∈ noteIds notes, id ∈ noteIds notes₀ ∨ id ∈ p.known
  remaining : p.remaining = env.cap.map (· - liveCount env notes)

theorem liveByKey_append {k : K} (h : liveByKey env notes (env.key plan.storedRelPath) = none) :
    liveByKey env (notes ++ [plan.row env.vaultId]) k =
      if k = env.key plan.storedRelPath then some (plan.row env.vaultId) else liveByKey env notes k := by
  unfold liveByKey at *
  rw [find?_append]
  by_cases hk : k = env.key plan.storedRelPath
  · subst hk
    rw [h, if_pos rfl]
    simp [NoteInsertPlan.row]
  · rw [if_neg hk]
    simp [NoteInsertPlan.row, Ne.symm hk]

theorem liveCount_append : liveCount env (notes ++ [plan.row env.vaultId]) = liveCount env notes + 1 := by
  unfold liveCount
  simp [NoteInsertPlan.row]

/-- the ids a request gives were looked up, and no minted id is any row's -/
def Asked (notes₀ notes : List (NoteRow Id)) (existing : List Id) (input : NoteInput Id) : Prop :=
  (∀ id ∈ input.docId, id ∈ noteIds notes₀ → id ∈ existing) ∧ (input.docId = none → input.id ∉ noteIds notes)

section

variable (h : Tracks env notes₀ existing p notes ghosts)

include h

/-- an id is new to the batch exactly if it has no row by then -/
theorem Tracks.isNew_iff (hasked : Asked notes₀ notes existing input) :
    (input.id ∉ existing ∧ input.id ∉ p.known) ↔ input.id ∉ noteIds notes := by
  constructor
  · rintro ⟨hexisting, hknown⟩ hmem
    cases hdoc : input.docId with
    | none => exact hasked.2 hdoc hmem
    | some id =>
      have hid : id = input.id := by
        unfold NoteInput.id
        rw [hdoc]
        rfl
      subst hid
      rcases h.ids _ hmem with hold | hnew
      · exact hexisting (hasked.1 _ hdoc hold)
      · exact hknown hnew
  · intro hmem
    exact ⟨fun he => hmem (h.existing he), fun hk => hmem (h.known hk)⟩

/-- where no plan haunts the path, the batch decides as an item by itself -/
theorem Tracks.planNote_eq (hasked : Asked notes₀ notes existing input)
    (hghost : env.key input.relPath ∉ ghosts) : (planNote env notes₀ existing p input).1 = planOne env notes input := by
  have hnew := h.isNew_iff hasked
  have hsees : (liveNoteByPath env notes₀ p.cache input.relPath).1 =
      (liveByKey env notes (env.key input.relPath)).map toNote := by
    rw [liveNoteByPath_fst]
    exact h.sees _ hghost
  unfold planNote planOne
  dsimp only
  rw [hsees, h.remaining]
  cases liveByKey env notes (env.key input.relPath) with
  | some row => rfl
  | none =>
    cases resolveParent env.key env.folders env.vaultId input.relPath input.folderId with
    | error e => rfl
    | ok loc =>
      grind

/-- where one does, it is adopted -/
theorem Tracks.planNote_ghost
    (hghost : env.key input.relPath ∈ ghosts) : ∃ row, env.key row.relPath = env.key input.relPath ∧
      (planNote env notes₀ existing p input).1 = .answered (adopt env row) := by
  obtain ⟨_, row, hrow, hkey⟩ := h.ghost _ hghost
  refine ⟨row, hkey, ?_⟩
  have hsees : (liveNoteByPath env notes₀ p.cache input.relPath).1 = some row := by
    rw [liveNoteByPath_fst]
    exact hrow
  unfold planNote
  dsimp only
  rw [hsees]

end

/-- a plan's path was free as the batch saw it -/
theorem planNote_planned (h : (planNote env notes₀ existing p input).1 = .planned plan) :
    p.sees env notes₀ (env.key input.relPath) = none ∧ plan.id = input.id ∧ (∃ folderId,
      resolveParent env.key env.folders env.vaultId input.relPath input.folderId = .ok (folderId, plan.storedRelPath) ∧
        env.canCreateIn folderId = true) ∧
      (planNote env notes₀ existing p input).2 =
        { cache := Function.update (liveNoteByPath env notes₀ p.cache input.relPath).2 (env.key plan.storedRelPath)
            (some (some plan.registered))
          known := input.id :: p.known
          remaining := if input.id ∉ existing ∧ input.id ∉ p.known then p.remaining.map (· - 1) else p.remaining } := by
  have hsees : p.sees env notes₀ (env.key input.relPath) = (liveNoteByPath env notes₀ p.cache input.relPath).1 :=
    (liveNoteByPath_fst _ _).symm
  unfold planNote at h ⊢
  grind

/-- an answer leaves what the batch knows -/
theorem planNote_answered {result : RegisterResult Id}
    (h : (planNote env notes₀ existing p input).1 = .answered result) :
    (planNote env notes₀ existing p input).2 =
      { p with cache := (liveNoteByPath env notes₀ p.cache input.relPath).2 } := by
  unfold planNote at h ⊢
  grind

theorem turnedAway_iff : TurnedAway env notes input ↔
    ∃ plan, planOne env notes input = .planned plan ∧ plan.id ∈ noteIds notes := by
  unfold TurnedAway planOne
  constructor
  · rintro ⟨hfree, hid, hmay⟩
    rw [hfree]
    split at hmay
    · next folderId stored hloc =>
      rw [hloc]
      exact ⟨⟨input.id, folderId, input.title, stored⟩, by simp [hmay, hid], hid⟩
    · exact absurd hmay id
  · rintro ⟨plan, hplan, hid⟩
    grind

/-- what the batch knows after an item, and the rows after it -/
theorem Tracks.planNote (hkey : KeyJoins env.key) (h : Tracks env notes₀ existing p notes ghosts)
    (hasked : Asked notes₀ notes existing input) :
    Tracks env notes₀ existing (planNote env notes₀ existing p input).2
      (settleOne env notes (RegisterNotes.planNote env notes₀ existing p input).1).1
      ({k | TurnedAway env notes input ∧ k = env.key input.relPath} ∪ ghosts) := by
  have hmemo : ∀ k, ((liveNoteByPath env notes₀ p.cache input.relPath).2 k).getD ((liveByKey env notes₀ k).map toNote) =
      p.sees env notes₀ k := liveNoteByPath_snd _ _
  cases houtcome : (RegisterNotes.planNote env notes₀ existing p input).1 with
  | answered result =>
    -- an item that is turned away has a plan, unless a ghost answers it
    have hghosts : {k | TurnedAway env notes input ∧ k = env.key input.relPath} ∪ ghosts = ghosts := by
      apply Set.union_eq_right.2
      rintro k ⟨haway, rfl⟩
      by_contra hghost
      obtain ⟨plan, hplan, _⟩ := turnedAway_iff.1 haway
      rw [← h.planNote_eq hasked hghost, houtcome] at hplan
      cases hplan
    rw [hghosts, planNote_answered houtcome]
    exact ⟨fun k hk => (hmemo k).trans (h.sees k hk),
      fun k hk => ⟨(h.ghost k hk).1, (h.ghost k hk).2.imp fun row hrow => ⟨(hmemo k).trans hrow.1, hrow.2⟩⟩,
      h.existing, h.known, h.ids, h.remaining⟩
  | planned plan =>
    obtain ⟨hsees, hid, ⟨folderId, hloc, hmay⟩, hnext⟩ := planNote_planned houtcome
    have hstored : env.key plan.storedRelPath = env.key input.relPath := key_resolveParent hkey hloc
    have hghost : env.key input.relPath ∉ ghosts := by
      intro hmem
      obtain ⟨_, row, hrow, _⟩ := h.ghost _ hmem
      exact absurd (hsees.symm.trans hrow) (by simp)
    have hfree : liveByKey env notes (env.key plan.storedRelPath) = none := by
      have hnone := (h.sees _ hghost).symm.trans hsees
      rw [hstored]
      simpa using hnone
    have hplan : planOne env notes input = .planned plan := (h.planNote_eq hasked hghost).symm.trans houtcome
    have hnew := h.isNew_iff hasked
    rw [hnext]
    have hsees' : ∀ q : Progress Id K, q.cache = Function.update (liveNoteByPath env notes₀ p.cache input.relPath).2
        (env.key plan.storedRelPath) (some (some plan.registered)) → ∀ k, q.sees env notes₀ k =
          if k = env.key input.relPath then some plan.registered else p.sees env notes₀ k := by
      intro q hq k
      unfold Progress.sees
      rw [hq, Function.update_apply, hstored]
      split
      · rfl
      · exact hmemo k
    by_cases hold : plan.id ∈ noteIds notes
    · have haway : TurnedAway env notes input := turnedAway_iff.2 ⟨plan, hplan, hold⟩
      rw [settleOne_old hold]
      refine ⟨?_, ?_, h.existing, ?_, ?_, ?_⟩
      · intro k hk
        have hne : k ≠ env.key input.relPath := fun heq => hk (.inl ⟨haway, heq⟩)
        rw [hsees' _ rfl, if_neg hne]
        exact h.sees k fun hmem => hk (.inr hmem)
      · intro k hk
        rw [hsees' _ rfl]
        rcases hk with ⟨_, rfl⟩ | hk
        · exact ⟨hstored ▸ hfree, plan.registered, if_pos rfl, hstored⟩
        · have hne : k ≠ env.key input.relPath := fun heq => hghost (heq ▸ hk)
          rw [if_neg hne]
          exact h.ghost k hk
      · exact cons_subset.2 ⟨hid ▸ hold, h.known⟩
      · intro id hmem
        exact (h.ids id hmem).imp_right (mem_cons_of_mem _)
      · rw [if_neg fun hisnew => hnew.1 hisnew (hid ▸ hold)]
        exact h.remaining
    · have haway : ¬ TurnedAway env notes input := by
        intro haway
        obtain ⟨plan', hplan', hold'⟩ := turnedAway_iff.1 haway
        obtain rfl := Outcome.planned.inj (hplan.symm.trans hplan')
        exact hold hold'
      have hghosts : {k | TurnedAway env notes input ∧ k = env.key input.relPath} ∪ ghosts = ghosts := by
        apply Set.union_eq_right.2
        rintro k ⟨haway', _⟩
        exact absurd haway' haway
      rw [settleOne_new hold, hghosts]
      refine ⟨?_, ?_, ?_, ?_, ?_, ?_⟩
      · intro k hk
        rw [hsees' _ rfl, liveByKey_append hfree, hstored]
        split
        · rfl
        · exact h.sees k hk
      · intro k hk
        have hne : k ≠ env.key input.relPath := fun heq => hghost (heq ▸ hk)
        rw [hsees' _ rfl, liveByKey_append hfree, hstored, if_neg hne, if_neg hne]
        exact h.ghost k hk
      · rw [noteIds_append_row]
        exact List.Subset.trans h.existing (subset_append_left _ _)
      · rw [noteIds_append_row]
        apply cons_subset.2
        exact ⟨by simp [hid], List.Subset.trans h.known (subset_append_left _ _)⟩
      · intro id hmem
        rw [noteIds_append_row] at hmem
        rcases mem_snoc.1 hmem with hmem | rfl
        · exact (h.ids id hmem).imp_right (mem_cons_of_mem _)
        · exact .inr (hid ▸ .head _)
      · rw [if_pos (hnew.2 (hid ▸ hold)), h.remaining, liveCount_append]
        cases env.cap with
        | none => rfl
        | some cap => simp [Nat.sub_sub]

/-- the rows only grow by the item's own -/
theorem noteIds_settleOne {outcome : Outcome Id} (h : ∀ plan, outcome = .planned plan → plan.id = input.id) :
    noteIds (settleOne env notes outcome).1 ⊆ input.id :: noteIds notes := by
  cases outcome with
  | answered result => exact subset_cons_self _ _
  | planned plan =>
    by_cases hold : plan.id ∈ noteIds notes
    · rw [settleOne_old hold]
      exact subset_cons_self _ _
    · rw [settleOne_new hold, noteIds_append_row, h plan rfl]
      intro id hmem
      simpa [or_comm] using hmem

variable {inputs : List (NoteInput Id)}

theorem Minted.mono {taken taken' : List Id} (h : Minted taken inputs) (hsub : taken' ⊆ taken) :
    Minted taken' inputs := by
  induction inputs generalizing taken taken' with
  | nil => trivial
  | cons input inputs ih =>
    exact ⟨fun hdoc hmem => h.1 hdoc (hsub hmem), ih h.2 (cons_subset_cons _ hsub)⟩

/-- an item by itself is never told of a plan that is not written -/
theorem registerOne_ne_ghost {row : Registered Id} (hfree : liveByKey env notes (env.key input.relPath) = none)
    (hrow : env.key row.relPath = env.key input.relPath) : (registerOne env notes input).2 ≠ adopt env row := by
  unfold registerOne
  have hadopt : adopt env row = .adopted row ∨ adopt env row = .error .notReadable := by
    unfold adopt
    split
    · exact .inl rfl
    · exact .inr rfl
  cases houtcome : planOne env notes input with
  | answered result =>
    unfold planOne at houtcome
    unfold settleOne
    grind
  | planned plan =>
    by_cases hold : plan.id ∈ noteIds notes
    · rw [settleOne_old hold]
      unfold decline
      split
      · grind
      · next found hfound =>
        -- what it would be told of is live, and elsewhere
        have hlive : found.vaultId = env.vaultId → found.deleted = false →
            env.key found.relPath ≠ env.key input.relPath := by
          intro hvault hdeleted hkey
          have hmem := mem_of_find?_eq_some hfound
          have hnone := find?_eq_none.1 hfree found hmem
          simp [hvault, hdeleted, hkey] at hnone
        grind
    · rw [settleOne_new hold]
      grind

/-- what is asked of the items of a batch -/
theorem Tracks.tail (hkey : KeyJoins env.key) (h : Tracks env notes₀ existing p notes ghosts)
    (hminted : Minted (noteIds notes) (input :: inputs))
    (hasked : ∀ i ∈ input :: inputs, ∀ id ∈ i.docId, id ∈ noteIds notes₀ → id ∈ existing) :
    Tracks env notes₀ existing (RegisterNotes.planNote env notes₀ existing p input).2
        (settleOne env notes (RegisterNotes.planNote env notes₀ existing p input).1).1
        ({k | TurnedAway env notes input ∧ k = env.key input.relPath} ∪ ghosts) ∧
      Minted (noteIds (settleOne env notes (RegisterNotes.planNote env notes₀ existing p input).1).1) inputs ∧
      ∀ i ∈ inputs, ∀ id ∈ i.docId, id ∈ noteIds notes₀ → id ∈ existing := by
  have hone : Asked notes₀ notes existing input := ⟨hasked input mem_cons_self, hminted.1⟩
  refine ⟨h.planNote hkey hone, hminted.2.mono ?_, fun i hi => hasked i (.tail _ hi)⟩
  apply noteIds_settleOne
  intro plan hplan
  exact (planNote_planned hplan).2.1

section

variable (hkey : KeyJoins env.key) (inputs : List (NoteInput Id)) (h : Tracks env notes₀ existing p notes ghosts)
    (hminted : Minted (noteIds notes) inputs) (hasked : ∀ i ∈ inputs, ∀ id ∈ i.docId, id ∈ noteIds notes₀ → id ∈
    existing)

include hkey h hminted hasked

/-- a planned path is free in its turn, whatever came before -/
theorem planNotes_clean : Clean env notes (planNotes env notes₀ existing p inputs) := by
  induction inputs generalizing p notes ghosts with
  | nil => trivial
  | cons input inputs ih =>
    obtain ⟨htracks, hminted', hasked'⟩ := h.tail hkey hminted hasked
    refine ⟨?_, ih htracks hminted' hasked'⟩
    intro plan hplan _
    obtain ⟨hsees, _, ⟨folderId, hloc, _⟩, _⟩ := planNote_planned hplan
    have hghost : env.key input.relPath ∉ ghosts := by
      intro hmem
      obtain ⟨_, row, hrow, _⟩ := h.ghost _ hmem
      exact absurd (hsees.symm.trans hrow) (by simp)
    have hnone := (h.sees _ hghost).symm.trans hsees
    rw [key_resolveParent hkey hloc]
    simpa using hnone

theorem settle_planNotes_iff :
    settle env notes (planNotes env notes₀ existing p inputs) = registerEach env notes inputs ↔
      NoGhost env notes ghosts inputs := by
  induction inputs generalizing p notes ghosts with
  | nil => exact iff_of_true rfl trivial
  | cons input inputs ih =>
    obtain ⟨htracks, hminted', hasked'⟩ := h.tail hkey hminted hasked
    have hone : Asked notes₀ notes existing input := ⟨hasked input mem_cons_self, hminted.1⟩
    unfold planNotes settle registerEach NoGhost
    by_cases hghost : env.key input.relPath ∈ ghosts
    · obtain ⟨row, hrow, hplan⟩ := h.planNote_ghost hghost
      have hne : (registerOne env notes input).2 ≠ adopt env row := registerOne_ne_ghost (h.ghost _ hghost).1 hrow
      refine iff_of_false ?_ fun hno => hno.1 hghost
      rw [hplan]
      intro heq
      exact hne (cons_eq_cons.1 (Prod.ext_iff.1 heq).2).1.symm
    · have hplan := h.planNote_eq hone hghost
      have hone' : settleOne env notes (planNote env notes₀ existing p input).1 = registerOne env notes input := by
        rw [hplan]
        rfl
      rw [hone'] at htracks hminted' ⊢
      rw [← ih htracks hminted' hasked', Prod.ext_iff, Prod.ext_iff]
      simp [hghost]

end

/-- nothing is planned before the first item -/
theorem tracks_start (inputs : List (NoteInput Id)) :
    Tracks env notes (probeIds notes (inputs.filterMap NoteInput.docId))
      { cache := prefetchNotes env notes inputs, remaining := env.cap.map fun cap => cap - liveCount env notes }
      notes ∅ := by
  refine ⟨?_, by simp, ?_, nil_subset _, fun id hid => .inl hid, rfl⟩
  · intro k _
    unfold Progress.sees prefetchNotes
    dsimp only
    split <;> rfl
  · intro id hid
    simpa using (mem_filter.1 hid).2

theorem asked_start : ∀ i ∈ inputs, ∀ id ∈ i.docId, id ∈ noteIds notes →
    id ∈ probeIds notes (inputs.filterMap NoteInput.docId) := by
  intro i hi id hid hmem
  exact mem_filter.2 ⟨mem_filterMap.2 ⟨i, hi, hid⟩, by simpa using hmem⟩

/-- a batch settles its plans in turn -/
theorem registerNotes_eq (hkey : KeyJoins env.key) (hminted : Minted (noteIds notes) inputs) :
    registerNotes env notes inputs = some (settle env notes
      (planNotes env notes (probeIds notes (inputs.filterMap NoteInput.docId))
        { cache := prefetchNotes env notes inputs, remaining := env.cap.map fun cap => cap - liveCount env notes }
        inputs)) :=
  applyNoteInserts_eq (planNotes_clean hkey inputs (tracks_start inputs) hminted asked_start)

theorem oneByOne_eq (hkey : KeyJoins env.key) (inputs : List (NoteInput Id)) (hminted : Minted (noteIds notes) inputs) :
    oneByOne env notes inputs = some (registerEach env notes inputs) := by
  induction inputs generalizing notes with
  | nil => rfl
  | cons input inputs ih =>
    have hsingle : Minted (noteIds notes) [input] := ⟨hminted.1, trivial⟩
    have hone : registerNotes env notes [input] = some (registerEach env notes [input]) := by
      rw [registerNotes_eq hkey hsingle,
        (settle_planNotes_iff hkey [input] (tracks_start [input]) hsingle asked_start).2]
      exact ⟨Set.notMem_empty _, trivial⟩
    have hrest : Minted (noteIds (registerOne env notes input).1) inputs := by
      apply hminted.2.mono
      apply noteIds_settleOne
      intro plan hplan
      unfold planOne at hplan
      grind
    unfold oneByOne
    rw [hone]
    simp [registerEach, ih hrest]

end

/-- **A batch is its items.** With no other writer, for every list of items and every state of the registry, a batch
ends in the rows and gives the answers of registering its items one at a time, in order, exactly if no item names a
path from which an earlier one was turned away. -/
theorem batch_iff (hkey : KeyJoins env.key) (notes : List (NoteRow Id)) (inputs : List (NoteInput Id))
    (hminted : Minted (noteIds notes) inputs) :
    registerNotes env notes inputs = oneByOne env notes inputs ↔ NoGhost env notes ∅ inputs := by
  rw [registerNotes_eq hkey hminted, oneByOne_eq hkey inputs hminted, Option.some_inj]
  exact settle_planNotes_iff hkey inputs (tracks_start inputs) hminted asked_start

/-- anything may be created in vault 0 -/
def openVault : Env ℕ Path := ⟨id, 0, [], fun _ => true, fun _ => true, false, none⟩

theorem openVault_keyJoins : KeyJoins openVault.key := fun a b name (h : a = b) => by rw [h]

/-- two items for one path -/
def twice (id id' : ℕ) : List (NoteInput ℕ) :=
  [{ relPath := ['a'], docId := some id, minted := 7 }, { relPath := ['a'], docId := some id', minted := 8 }]

/-- the second item adopts the first one's note, here as there -/
theorem repeated_path_has_no_ghost : NoGhost openVault [] ∅ (twice 2 3) := by
  apply (batch_iff openVault openVault_keyJoins [] (twice 2 3) (by simp [Minted, twice])).mp
  decide

/-- document 1 is in vault 9: the first item is a conflict, and the second, which would be created, adopts it -/
theorem ghost_adopted : registerNotes openVault [⟨1, 9, none, none, ['x'], false⟩] (twice 1 2) ≠
    oneByOne openVault [⟨1, 9, none, none, ['x'], false⟩] (twice 1 2) := by
  decide

end

end Baalda.RegisterNotes
