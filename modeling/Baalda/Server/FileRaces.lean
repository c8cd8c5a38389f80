/-
Registrations of files that interleave (`registry/batch-ops.ts registerFile`), statement by statement.

A request registers one file after the other, on one cache of what it has looked up: a path's file is adopted; an id the
vault has is moved to the path; any other is inserted. A unique violation reads the winner of the path. What a
registration reads of folders and permissions can be anything at each step.

`ok_step`: in a run in which no cached, found or written file is moved away before it is answered, and no row
is inserted under an id that has one, every answer tells of a row that is there.
-/
import Baalda.Lib.Machine
import Baalda.Lib.Slots
import Baalda.Server.RegisterNotes

namespace Baalda.FileRaces

open VaultTree RegisterNotes List

variable {Id K : Type*}

/-! ## The machine -/

structure FileInput (Id : Type*) where
  path : Path
  docId : Option Id := none
  folderId : Option Id := none
  minted : Id
  deriving DecidableEq

def FileInput.id (input : FileInput Id) : Id := input.docId.getD input.minted

def isTransientFileName (name : Path) : Bool :=
  "~$".toList.isPrefixOf name || ".~lock.".toList.isPrefixOf name ||
    ("~".toList.isPrefixOf name && utf16Length name > 5 && ".tmp".toList.isSuffixOf (name.map Char.toLower))

def isTransientPath (path : Path) : Bool := basename path ≠ [] && isTransientFileName (basename path)

inductive Stage (Id : Type*) where
  | idle
  | started (input : FileInput Id)
  /-- no file at its path -/
  | missed (input : FileInput Id)
  /-- to be adopted -/
  | found (row : Registered Id)
  | located (input : FileInput Id) (folderId : Option Id) (storedPath : Path)
  /-- where the vault has its id -/
  | looked (input : FileInput Id) (folderId : Option Id) (storedPath : Path) (byId : Option Path)
  /-- a unique violation -/
  | raced (path : Path)
  /-- the write statement is done; whether it wrote -/
  | written (created : Bool) (row : Registered Id) (wrote : Bool)
  deriving DecidableEq

/-- the file a request is about to answer with -/
def Stage.row : Stage Id → Option (Registered Id)
  | .found row | .written _ row _ => some row
  | _ => none

/-- a request that registers files -/
structure Call (Id K : Type*) where
  vaultId : Id
  cache : Cache Id K := fun _ => none
  stage : Stage Id := .idle

/-- an answer, whether a row was written, and the rows at that moment -/
structure Return (Id : Type*) where
  vaultId : Id
  result : RegisterResult Id × Bool
  files : List (FileRow Id)
  deriving DecidableEq

structure St (Id K : Type*) where
  files : List (FileRow Id)
  calls : List (Call Id K) := []
  returns : List (Return Id) := []

inductive CallAction (Id : Type*) where
  | prefetch (paths : List Path)
  | register (input : FileInput Id)
  | lookUp
  | resolve (folders : List (FolderRow Id))
  | readById
  | write (canCreateIn canEditDoc rootFrozen : Bool)
  | readWinner
  | answer (canAdoptDoc : Bool)

inductive Action (Id : Type*) where
  | calls (vaultId : Id)
  | goesOn (i : ℕ) (a : CallAction Id)

section

variable [DecidableEq Id] [DecidableEq K] (key : Path → K)

def toFile (row : FileRow Id) : Registered Id := ⟨row.id, row.folderId, none, row.path⟩

def fileByKey (vaultId : Id) (files : List (FileRow Id)) (k : K) : Option (FileRow Id) :=
  files.find? fun f => f.vaultId = vaultId ∧ key f.path = k

def fileIds (files : List (FileRow Id)) : List Id := files.map FileRow.id

/-- another file of the vault has the path -/
def taken (vaultId id : Id) (path : Path) (files : List (FileRow Id)) : Bool :=
  files.any fun f => f.id ≠ id ∧ f.vaultId = vaultId ∧ key f.path = key path

def moveRow (id : Id) (folderId : Option Id) (path : Path) (f : FileRow Id) : FileRow Id :=
  if f.id = id then { f with folderId := folderId, path := path } else f

namespace Call

variable (files : List (FileRow Id)) (c : Call Id K)

/-- the file at a path, as the request sees it -/
def fileByPath (path : Path) : Option (Registered Id) :=
  (c.cache (key path)).getD ((fileByKey key c.vaultId files (key path)).map toFile)

/-- the cache after looking a path up -/
def remember (path : Path) : Cache Id K := Function.update c.cache (key path) (some (c.fileByPath key files path))

def prefetched (paths : List Path) : Cache Id K := fun k =>
  if (∃ path ∈ paths, path ≠ [] ∧ key path = k) ∧ (c.cache k).isNone then
    some ((fileByKey key c.vaultId files k).map toFile)
  else c.cache k

def replies (result : RegisterResult Id) (wrote : Bool) : List (FileRow Id) × Call Id K × List (Return Id) :=
  (files, { c with stage := .idle }, [⟨c.vaultId, (result, wrote), files⟩])

/-- what the write statement does with an id the vault has -/
def moves (id : Id) (folderId : Option Id) (storedPath oldPath : Path) :
    List (FileRow Id) × Call Id K :=
  if taken key c.vaultId id storedPath files then (files, { c with stage := .raced storedPath })
  else
    let moved : Registered Id := ⟨id, folderId, none, storedPath⟩
    (files.map (moveRow id folderId storedPath), { c with
      cache := Function.update (Function.update c.cache (key oldPath) none) (key storedPath) (some (some moved))
      stage := .written false moved true })

/-- `ON CONFLICT (id) DO NOTHING` -/
def inserts (id : Id) (folderId : Option Id) (storedPath : Path) : List (FileRow Id) × Call Id K :=
  let created : Registered Id := ⟨id, folderId, none, storedPath⟩
  let cache := Function.update c.cache (key storedPath) (some (some created))
  if id ∈ fileIds files then (files, { c with cache := cache, stage := .written true created false })
  else if taken key c.vaultId id storedPath files then (files, { c with stage := .raced storedPath })
  else
    let file : FileRow Id := ⟨id, c.vaultId, folderId, storedPath⟩
    (files ++ [file], { c with cache := cache, stage := .written true created true })

/-- one statement of a request: the rows, the request and what it returns -/
def next : CallAction Id → Option (List (FileRow Id) × Call Id K × List (Return Id))
  | .prefetch paths => match c.stage with
    | .idle => some (files, { c with cache := c.prefetched key files paths }, [])
    | _ => none
  | .register input => match c.stage with
    | .idle => some (files, { c with stage := .started input }, [])
    | _ => none
  | .lookUp => match c.stage with
    | .started input =>
      let stage := match c.fileByPath key files input.path with
        | some row => .found row
        | none => .missed input
      some (files, { c with cache := c.remember key files input.path, stage := stage }, [])
    | _ => none
  | .resolve folders => match c.stage with
    | .missed input =>
      if isTransientPath input.path then some (c.replies files (.error (.transientFile input.path)) false)
      else match resolveParent key folders c.vaultId input.path input.folderId with
        | .error e => some (c.replies files (.error (.pathFolderMismatch e)) false)
        | .ok (folderId, storedPath) =>
          if samePath key storedPath input.path then
            some (files, { c with stage := .located input folderId storedPath }, [])
          else
            let stage := match c.fileByPath key files storedPath with
              | some row => .found row
              | none => .located input folderId storedPath
            some (files, { c with cache := c.remember key files storedPath, stage := stage }, [])
    | _ => none
  | .readById => match c.stage with
    | .located input folderId storedPath =>
      let byId := (files.find? fun f => f.id = input.id ∧ f.vaultId = c.vaultId).map FileRow.path
      some (files, { c with stage := .looked input folderId storedPath byId }, [])
    | _ => none
  | .write canCreateIn canEditDoc rootFrozen => match c.stage with
    | .looked input folderId storedPath byId =>
      if !canCreateIn then some (c.replies files (.error .noWriteAccess) false)
      else match byId with
        | some oldPath =>
          if !canEditDoc then some (c.replies files (.error .noWriteAccess) false)
          else
            let (files', c') := c.moves key files input.id folderId storedPath oldPath
            some (files', c', [])
        | none =>
          if folderId = none ∧ rootFrozen then some (c.replies files (.error .rootFrozen) false)
          else
            let (files', c') := c.inserts key files input.id folderId storedPath
            some (files', c', [])
    | _ => none
  | .readWinner => match c.stage with
    | .raced path => match fileByKey key c.vaultId files (key path) with
      | some winner => some (files, { c with
          cache := Function.update c.cache (key winner.path) (some (some (toFile winner)))
          stage := .found (toFile winner) }, [])
      | none => some (files, { c with stage := .idle }, [])
    | _ => none
  | .answer canAdoptDoc => match c.stage with
    | .found row => some (c.replies files (if canAdoptDoc then .adopted row else .error .notReadable) false)
    | .written created row wrote => some (c.replies files (if created then .created row else .adopted row) wrote)
    | _ => none

end Call

def step (s : St Id K) : Action Id → St Id K
  | .calls vaultId => { s with calls := s.calls ++ [{ vaultId := vaultId }] }
  | .goesOn i a => match s.calls[i]? with
    | some c => match c.next key s.files a with
      | some (files, c', returns) => { files := files, calls := s.calls.set i c', returns := s.returns ++ returns }
      | none => s
    | none => s

/-! ## What is to hold -/

/-- the primary key, and one row for each vault and path key -/
structure Indexed (files : List (FileRow Id)) : Prop where
  ids : (fileIds files).Nodup
  paths : ∀ f ∈ files, ∀ g ∈ files, f.vaultId = g.vaultId → key f.path = key g.path → f = g

/-- one row holds the path, and it is the one told of; a file that is refused has written nothing -/
def Truthful (files : List (FileRow Id)) (vaultId : Id) (x : RegisterResult Id × Bool) : Prop := match x.1 with
  | .created row | .adopted row => ∃ f,
      (files.filter fun f => f.vaultId = vaultId ∧ key f.path = key row.relPath) = [f] ∧ f.id = row.id ∧
        f.path = row.relPath
  | .conflict _ _ | .error _ => x.2 = false

def AnswersTruthful (s : St Id K) : Prop := ∀ r ∈ s.returns, Truthful key r.files r.vaultId r.result

/-- a file of the vault is at this path under this id -/
def Real (files : List (FileRow Id)) (vaultId : Id) (row : Registered Id) : Prop :=
  ∃ f ∈ files, f.vaultId = vaultId ∧ f.id = row.id ∧ f.path = row.relPath

/-- what the request has in its cache at a path is still there -/
def Call.Current (files : List (FileRow Id)) (c : Call Id K) (path : Path) : Prop :=
  ∀ row, c.cache (key path) = some (some row) → Real files c.vaultId row

/-- a cached file that is looked up is still where it was; a file that is moved is not one that another request is about
to answer with elsewhere; an id that is inserted has no row, but for this very one -/
def Call.Sound (calls : List (Call Id K)) (files : List (FileRow Id)) (c : Call Id K) : CallAction Id → Prop
  | .lookUp => match c.stage with
    | .started input => c.Current key files input.path
    | _ => True
  | .resolve folders => match c.stage with
    | .missed input => ∀ folderId storedPath,
        resolveParent key folders c.vaultId input.path input.folderId = .ok (folderId, storedPath) →
          samePath key storedPath input.path = false → c.Current key files storedPath
    | _ => True
  | .write canCreateIn canEditDoc rootFrozen => match c.stage with
    | .looked input _ storedPath (some _) => canCreateIn = true → canEditDoc = true →
        taken key c.vaultId input.id storedPath files = false →
          ∀ c' ∈ calls, ∀ row ∈ c'.stage.row, row.id = input.id → row.relPath = storedPath
    | .looked input folderId storedPath none => canCreateIn = true → ¬ (folderId = none ∧ rootFrozen = true) →
        input.id ∈ fileIds files → Real files c.vaultId ⟨input.id, folderId, none, storedPath⟩
    | _ => True
  | _ => True

def Sound (s : St Id K) : Action Id → Prop
  | .calls _ => True
  | .goesOn i a => ∀ c ∈ s.calls[i]?, c.Sound key s.calls s.files a

/-! ## Rows -/

section

variable {key} {files files' : List (FileRow Id)} {vaultId id : Id} {folderId : Option Id} {path : Path}
  {row : Registered Id}

/-- a file that is there is the only one at its path -/
theorem Indexed.filter_eq (h : Indexed key files) (hreal : Real files vaultId row) :
    ∃ f, (files.filter fun f => f.vaultId = vaultId ∧ key f.path = key row.relPath) = [f] ∧
      f.id = row.id ∧ f.path = row.relPath := by
  obtain ⟨f, hf, hvault, hid, hpath⟩ := hreal
  refine ⟨f, filter_eq_singleton (h.ids.of_map _) hf (by simp [hvault, hpath]) ?_, hid, hpath⟩
  intro g hg hmatches
  simp only [decide_eq_true_eq] at hmatches
  exact h.paths g hg f hf (hmatches.1.trans hvault.symm) (by rw [hmatches.2, hpath])

variable {f : FileRow Id}

theorem fileByKey_real {k : K} (h : fileByKey key vaultId files k = some f) : Real files vaultId (toFile f) := by
  have hf := find?_some h
  simp only [decide_eq_true_eq] at hf
  exact ⟨f, mem_of_find?_eq_some h, hf.1, rfl, rfl⟩

theorem fileByPath_real {c : Call Id K} (hcurrent : c.Current key files path)
    (h : c.fileByPath key files path = some row) : Real files c.vaultId row := by
  unfold Call.fileByPath at h
  cases hcache : c.cache (key path) with
  | some cached =>
    rw [hcache, Option.getD_some] at h
    exact hcurrent row (h ▸ hcache)
  | none =>
    rw [hcache, Option.getD_none] at h
    obtain ⟨f, hf, rfl⟩ := Option.map_eq_some_iff.1 h
    exact fileByKey_real hf

theorem taken_false_iff : taken key vaultId id path files = false ↔
    ∀ f ∈ files, f.id ≠ id → f.vaultId = vaultId → key f.path ≠ key path := by
  unfold taken
  simp

theorem moveRow_new (h : f.id = id) :
    moveRow id folderId path f = { f with folderId := folderId, path := path } := if_pos h

theorem moveRow_old (h : f.id ≠ id) : moveRow id folderId path f = f := if_neg h

@[simp] theorem moveRow_id (f : FileRow Id) : (moveRow id folderId path f).id = f.id := by
  unfold moveRow; split <;> rfl

@[simp] theorem moveRow_vaultId (f : FileRow Id) : (moveRow id folderId path f).vaultId = f.vaultId := by
  unfold moveRow; split <;> rfl

theorem Indexed.eq_of_id (h : Indexed key files) {g : FileRow Id} (hf : f ∈ files) (hg : g ∈ files)
    (hid : f.id = g.id) : f = g := inj_on_of_nodup_map h.ids hf hg hid

/-- a file of the vault moves to a path no other file of it has -/
theorem Indexed.move (h : Indexed key files) (hthere : ∃ f ∈ files, f.id = id ∧ f.vaultId = vaultId)
    (hfree : taken key vaultId id path files = false) : Indexed key (files.map (moveRow id folderId path)) := by
  rw [taken_false_iff] at hfree
  obtain ⟨f₀, hf₀, hid₀, hvault₀⟩ := hthere
  have hvault : ∀ f ∈ files, f.id = id → f.vaultId = vaultId := fun f hf hid =>
    h.eq_of_id hf hf₀ (hid.trans hid₀.symm) ▸ hvault₀
  constructor
  · have hids : fileIds (files.map (moveRow id folderId path)) = fileIds files := by simp [fileIds]
    exact hids ▸ h.ids
  · intro f' hf' g' hg' hvaults hkeys
    obtain ⟨f, hf, rfl⟩ := mem_map.1 hf'
    obtain ⟨g, hg, rfl⟩ := mem_map.1 hg'
    simp only [moveRow_vaultId] at hvaults
    by_cases hfid : f.id = id <;> by_cases hgid : g.id = id
    · rw [h.eq_of_id hf hg (hfid.trans hgid.symm)]
    · rw [moveRow_new hfid, moveRow_old hgid] at hkeys
      exact absurd hkeys.symm (hfree g hg hgid (hvaults ▸ hvault f hf hfid))
    · rw [moveRow_old hfid, moveRow_new hgid] at hkeys
      exact absurd hkeys (hfree f hf hfid (hvaults ▸ hvault g hg hgid))
    · rw [moveRow_old hfid, moveRow_old hgid] at hkeys ⊢
      exact h.paths f hf g hg hvaults hkeys

theorem Indexed.append (h : Indexed key files) (hnew : id ∉ fileIds files)
    (hfree : taken key vaultId id path files = false) : Indexed key (files ++ [⟨id, vaultId, folderId, path⟩]) := by
  rw [taken_false_iff] at hfree
  have hother : ∀ f ∈ files, f.id ≠ id := fun f hf hid => hnew (hid ▸ mem_map_of_mem hf)
  constructor
  · simp only [fileIds, map_append, map_cons, map_nil]
    refine nodup_append.2 ⟨h.ids, nodup_singleton _, ?_⟩
    rintro a ha b hb rfl
    exact hnew (mem_singleton.1 hb ▸ ha)
  · intro f hf g hg hvaults hkeys
    rcases mem_append.1 hf with hf | hf <;> rcases mem_append.1 hg with hg | hg
    · exact h.paths f hf g hg hvaults hkeys
    · obtain rfl := mem_singleton.1 hg
      exact absurd hkeys (hfree f hf (hother f hf) hvaults)
    · obtain rfl := mem_singleton.1 hf
      exact absurd hkeys.symm (hfree g hg (hother g hg) hvaults.symm)
    · rw [mem_singleton.1 hf, mem_singleton.1 hg]

theorem Real.append (h : Real files vaultId row) (f : FileRow Id) : Real (files ++ [f]) vaultId row := by
  obtain ⟨g, hg, hrest⟩ := h
  exact ⟨g, mem_append_left _ hg, hrest⟩

/-- a file stays where it is told of when another moves, or when it moves there -/
theorem Real.move (h : Real files vaultId row) (hmoved : row.id = id → row.relPath = path) :
    Real (files.map (moveRow id folderId path)) vaultId row := by
  obtain ⟨f, hf, hvault, hid, hpath⟩ := h
  refine ⟨moveRow id folderId path f, mem_map_of_mem hf, by simpa using hvault, by simpa using hid, ?_⟩
  by_cases hfid : f.id = id
  · rw [moveRow_new hfid]
    exact (hmoved (hid ▸ hfid)).symm
  · rw [moveRow_old hfid, hpath]

end

/-! ## Every step -/

section

variable {key} {files files' : List (FileRow Id)}

/-- a file with this id is in the vault -/
def Known (files : List (FileRow Id)) (vaultId id : Id) : Prop := ∃ f ∈ files, f.id = id ∧ f.vaultId = vaultId

/-- what holds of a request at each of its stages -/
structure Call.Ok (files : List (FileRow Id)) (c : Call Id K) : Prop where
  row : ∀ row ∈ c.stage.row, Real files c.vaultId row
  byId : ∀ input folderId storedPath oldPath, c.stage = .looked input folderId storedPath (some oldPath) →
    Known files c.vaultId input.id

/-- what becomes of the rows: one is added, or one moves away from where no request is about to answer with it -/
inductive Changed (key : Path → K) (calls : List (Call Id K)) (files : List (FileRow Id)) :
    List (FileRow Id) → Prop where
  | none : Changed key calls files files
  | added (f : FileRow Id) (hindexed : Indexed key (files ++ [f])) : Changed key calls files (files ++ [f])
  | moved (id : Id) (folderId : Option Id) (path : Path)
      (hindexed : Indexed key (files.map (moveRow id folderId path)))
      (htold : ∀ c ∈ calls, ∀ row ∈ c.stage.row, row.id = id → row.relPath = path) :
      Changed key calls files (files.map (moveRow id folderId path))

variable {calls : List (Call Id K)}

theorem Changed.indexed (h : Changed key calls files files') (hindexed : Indexed key files) : Indexed key files' := by
  cases h with
  | none => exact hindexed
  | added f h | moved id folderId path h _ => exact h

theorem Known.changed {vaultId id : Id} (h : Known files vaultId id) (hchanged : Changed key calls files files') :
    Known files' vaultId id := by
  obtain ⟨f, hf, hid, hvault⟩ := h
  cases hchanged with
  | none => exact ⟨f, hf, hid, hvault⟩
  | added g _ => exact ⟨f, mem_append_left _ hf, hid, hvault⟩
  | moved id' folderId' path' _ _ => exact ⟨_, mem_map_of_mem hf, by simpa using hid, by simpa using hvault⟩

variable {c : Call Id K}

theorem Call.Ok.changed (hok : c.Ok files) (hc : c ∈ calls) (h : Changed key calls files files') : c.Ok files' := by
  refine ⟨?_, fun input folderId storedPath oldPath hstage =>
    (hok.byId input folderId storedPath oldPath hstage).changed h⟩
  intro row hrow
  have hreal := hok.row row hrow
  cases h with
  | none => exact hreal
  | added f _ => exact hreal.append f
  | moved id folderId path _ htold => exact hreal.move (htold c hc row hrow)

/-- a request that is about to answer with a file that is there -/
theorem Call.Ok.of_real {row : Registered Id} (hrow : c.stage.row = some row) (hreal : Real files c.vaultId row) :
    c.Ok files := by
  constructor
  · intro row' hrow'
    obtain rfl : row = row' := Option.some.inj (hrow.symm.trans hrow')
    exact hreal
  · intro input folderId storedPath oldPath hstage
    rw [hstage] at hrow
    simp [Stage.row] at hrow

/-- a request that has found and written nothing -/
theorem Call.Ok.of_none (hrow : c.stage.row = none)
    (hstage : ∀ input folderId storedPath oldPath, c.stage ≠ .looked input folderId storedPath (some oldPath)) :
    c.Ok files := by
  constructor
  · intro row hrow'
    exact absurd (hrow.symm.trans hrow') (by simp)
  · intro input folderId storedPath oldPath heq
    exact absurd heq (hstage input folderId storedPath oldPath)

/-- an answer changes no row -/
theorem Call.Ok.replies {c' : Call Id K} {result : RegisterResult Id} {wrote : Bool} {returns : List (Return Id)}
    (htrue : Truthful key files c.vaultId (result, wrote))
    (hreplies : c.replies files result wrote = (files', c', returns)) :
    Changed key calls files files' ∧ c'.Ok files' ∧ ∀ r ∈ returns, Truthful key r.files r.vaultId r.result := by
  obtain ⟨rfl, rfl, rfl⟩ := hreplies
  refine ⟨.none, .of_none rfl (by simp), ?_⟩
  intro r hr
  obtain rfl := mem_singleton.1 hr
  exact htrue

theorem Call.Ok.refuses {c' : Call Id K} {e : RegisterError Id} {returns : List (Return Id)}
    (hreplies : c.replies files (.error e) false = (files', c', returns)) :
    Changed key calls files files' ∧ c'.Ok files' ∧ ∀ r ∈ returns, Truthful key r.files r.vaultId r.result := by
  have htrue : Truthful key files c.vaultId (.error e, false) := rfl
  exact Call.Ok.replies htrue hreplies

section

variable {calls : List (Call Id K)} {c c' : Call Id K} {id : Id} {folderId : Option Id} {storedPath oldPath : Path}

theorem Known.moves (h : Known files c.vaultId id) (hindexed : Indexed key files)
    (htold : taken key c.vaultId id storedPath files = false →
      ∀ c' ∈ calls, ∀ row ∈ c'.stage.row, row.id = id → row.relPath = storedPath)
    (hmoves : c.moves key files id folderId storedPath oldPath = (files', c')) :
    Changed key calls files files' ∧ c'.Ok files' := by
  unfold Call.moves at hmoves
  split at hmoves
  · cases hmoves
    exact ⟨.none, .of_none rfl (by simp)⟩
  · next hfree =>
    have hfree : taken key c.vaultId id storedPath files = false := by simpa using hfree
    cases hmoves
    refine ⟨.moved id folderId storedPath (hindexed.move h hfree) (htold hfree), .of_real rfl ?_⟩
    obtain ⟨f, hf, hid, hvault⟩ := h
    exact ⟨_, mem_map_of_mem hf, by simpa using hvault, by simpa using hid, by rw [moveRow_new hid]⟩

theorem Indexed.inserts (hindexed : Indexed key files)
    (hold : id ∈ fileIds files → Real files c.vaultId ⟨id, folderId, none, storedPath⟩)
    (hinserts : c.inserts key files id folderId storedPath = (files', c')) :
    Changed key calls files files' ∧ c'.Ok files' := by
  unfold Call.inserts at hinserts
  split at hinserts
  · next hid =>
    cases hinserts
    exact ⟨.none, .of_real rfl (hold hid)⟩
  · next hid =>
    split at hinserts
    · cases hinserts
      exact ⟨.none, .of_none rfl (by simp)⟩
    · next hfree =>
      cases hinserts
      refine ⟨.added _ (hindexed.append hid (by simpa using hfree)), .of_real rfl ?_⟩
      exact ⟨_, mem_append_right _ (mem_singleton_self _), rfl, rfl, rfl⟩

/-- one statement of a request: the rows change as they may, the request stays as it is to be, and what it returns is
true -/
theorem Call.Ok.next (h : c.Ok files) (hindexed : Indexed key files) {a : CallAction Id}
    (hsound : c.Sound key calls files a) {returns : List (Return Id)}
    (hnext : c.next key files a = some (files', c', returns)) :
    Changed key calls files files' ∧ c'.Ok files' ∧ ∀ r ∈ returns, Truthful key r.files r.vaultId r.result := by
  obtain ⟨hrows, hbyId⟩ := h
  unfold Call.next at hnext
  unfold Call.Sound at hsound
  cases a with
  | prefetch paths | register input =>
    cases hstage : c.stage with
    | idle =>
      rw [hstage] at hnext
      obtain ⟨rfl, rfl, rfl⟩ := hnext
      exact ⟨.none, .of_none rfl (by simp), by simp⟩
    | _ =>
      rw [hstage] at hnext
      cases hnext
  | lookUp =>
    cases hstage : c.stage with
    | started input =>
      rw [hstage] at hnext hsound
      obtain ⟨rfl, rfl, rfl⟩ := hnext
      refine ⟨.none, ?_, by simp⟩
      cases hrow : c.fileByPath key files input.path with
      | some row =>
        have hreal : Real files c.vaultId row := fileByPath_real hsound hrow
        exact .of_real rfl hreal
      | none => exact .of_none rfl (by simp)
    | _ =>
      rw [hstage] at hnext
      cases hnext
  | resolve folders =>
    cases hstage : c.stage with
    | missed input =>
      rw [hstage] at hnext hsound
      dsimp only at hnext hsound
      split at hnext
      · exact Call.Ok.refuses (Option.some.inj hnext)
      cases hloc : resolveParent key folders c.vaultId input.path input.folderId with
      | error e =>
        rw [hloc] at hnext
        exact Call.Ok.refuses (Option.some.inj hnext)
      | ok loc =>
        obtain ⟨folderId, storedPath⟩ := loc
        rw [hloc] at hnext
        dsimp only at hnext
        split at hnext
        · obtain ⟨rfl, rfl, rfl⟩ := hnext
          exact ⟨.none, .of_none rfl (by simp), by simp⟩
        · next hsame =>
          obtain ⟨rfl, rfl, rfl⟩ := hnext
          refine ⟨.none, ?_, by simp⟩
          cases hrow : c.fileByPath key files storedPath with
          | some row =>
            have hreal : Real files c.vaultId row :=
              fileByPath_real (hsound folderId storedPath hloc (by simpa using hsame)) hrow
            exact .of_real rfl hreal
          | none => exact .of_none rfl (by simp)
    | _ =>
      rw [hstage] at hnext
      cases hnext
  | readById =>
    cases hstage : c.stage with
    | located input folderId storedPath =>
      rw [hstage] at hnext
      obtain ⟨rfl, rfl, rfl⟩ := hnext
      refine ⟨.none, ⟨by simp [Stage.row], ?_⟩, by simp⟩
      intro input' folderId' storedPath' oldPath heq
      simp only [Stage.looked.injEq] at heq
      obtain ⟨rfl, _, _, hrow⟩ := heq
      obtain ⟨f, hfind, _⟩ := Option.map_eq_some_iff.1 hrow
      have hf := find?_some hfind
      simp only [decide_eq_true_eq] at hf
      exact ⟨f, mem_of_find?_eq_some hfind, hf⟩
    | _ =>
      rw [hstage] at hnext
      cases hnext
  | write canCreateIn canEditDoc rootFrozen =>
    cases hstage : c.stage with
    | looked input folderId storedPath byId =>
      rw [hstage] at hnext hsound
      cases canCreateIn with
      | false =>
        exact Call.Ok.refuses (Option.some.inj hnext)
      | true =>
        cases byId with
        | some oldPath =>
          cases canEditDoc with
          | false =>
            exact Call.Ok.refuses (Option.some.inj hnext)
          | true =>
            obtain ⟨rfl, rfl, rfl⟩ := hnext
            have hknown := hbyId input folderId storedPath oldPath hstage
            obtain ⟨hchanged, hok⟩ := hknown.moves hindexed (hsound rfl rfl) (Prod.mk.eta.symm)
            exact ⟨hchanged, hok, by simp⟩
        | none =>
          simp only [Bool.not_true, Bool.false_eq_true, if_false] at hnext
          split at hnext
          · exact Call.Ok.refuses (Option.some.inj hnext)
          · next hfrozen =>
            obtain ⟨rfl, rfl, rfl⟩ := hnext
            obtain ⟨hchanged, hok⟩ :=
              Indexed.inserts hindexed (hsound rfl hfrozen) (Prod.mk.eta.symm)
            exact ⟨hchanged, hok, by simp⟩
    | _ =>
      rw [hstage] at hnext
      cases hnext
  | readWinner =>
    cases hstage : c.stage with
    | raced path =>
      rw [hstage] at hnext
      dsimp only at hnext
      cases hwinner : fileByKey key c.vaultId files (key path) with
      | some winner =>
        rw [hwinner] at hnext
        obtain ⟨rfl, rfl, rfl⟩ := hnext
        exact ⟨.none, .of_real rfl (fileByKey_real hwinner), by simp⟩
      | none =>
        rw [hwinner] at hnext
        obtain ⟨rfl, rfl, rfl⟩ := hnext
        exact ⟨.none, .of_none rfl (by simp), by simp⟩
    | _ =>
      rw [hstage] at hnext
      cases hnext
  | answer canAdoptDoc =>
    cases hstage : c.stage with
    | found row =>
      rw [hstage] at hnext hrows
      refine Call.Ok.replies ?_ (Option.some.inj hnext)
      cases canAdoptDoc with
      | true => exact hindexed.filter_eq (hrows row rfl)
      | false => rfl
    | written created row wrote =>
      rw [hstage] at hnext hrows
      refine Call.Ok.replies ?_ (Option.some.inj hnext)
      cases created with
      | true | false => exact hindexed.filter_eq (hrows row rfl)
    | _ =>
      rw [hstage] at hnext
      cases hnext

end

end

structure St.Ok (s : St Id K) : Prop where
  indexed : Indexed key s.files
  calls : ∀ c ∈ s.calls, c.Ok s.files
  returns : AnswersTruthful key s

variable {key}

theorem ok_step (s : St Id K) (a : Action Id) (h : s.Ok key) (hsound : Sound key s a) : (step key s a).Ok key := by
  cases a with
  | calls vaultId =>
    refine ⟨h.indexed, ?_, h.returns⟩
    intro c hc
    rcases mem_snoc.1 hc with hc | rfl
    · exact h.calls c hc
    · exact .of_none rfl (by simp)
  | goesOn i a =>
    dsimp only [step]
    cases hc : s.calls[i]? with
    | none => exact h
    | some c =>
      dsimp only
      cases hnext : c.next key s.files a with
      | none => exact h
      | some r =>
        obtain ⟨hchanged, hok, htrue⟩ :=
          (h.calls c (mem_of_getElem? hc)).next h.indexed (hsound c hc) hnext
        refine ⟨hchanged.indexed h.indexed, ?_, ?_⟩
        · intro c'' hc''
          rcases mem_or_eq_of_mem_set hc'' with hold | rfl
          · exact (h.calls c'' hold).changed hold hchanged
          · exact hok
        · intro r hr
          rcases mem_append.1 hr with hr | hr
          · exact h.returns r hr
          · exact htrue r hr

end

end Baalda.FileRaces
