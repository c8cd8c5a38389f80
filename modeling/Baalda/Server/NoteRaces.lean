/-
Registrations of notes that interleave (`registry/batch-ops.ts registerNotes`), statement by statement.

A call prefetches, plans on what it read, and inserts its plans in one statement. A unique violation aborts that
statement and each row is then offered by itself; a row that loses its path reads the winner. The answers are put
together after a last read of the rows whose insert did nothing. What a call reads of folders, permissions and the note
limit can be anything at each step.

`ok_step`: in a run in which every row that an item of the same batch relies on is written when it is offered,
every answer tells of a row that is there.
-/
import Baalda.Lib.Machine
import Baalda.Lib.Slots
import Baalda.Server.RegisterNotes

namespace Baalda.NoteRaces

open VaultTree RegisterNotes List Option

variable {Id K : Type*}

/-! ## The machine -/

inductive Stage (Id K : Type*) where
  | started
  | prefetched (cache : Cache Id K)
  | planned (outcomes : List (Outcome Id))
  /-- the rows still to be offered, the ids that were written, the answers of the rows that lost -/
  | replaying (outcomes : List (Outcome Id)) (todo : List (NoteInsertPlan Id)) (inserted : List Id)
    (lost : List (NoteInsertPlan Id × RegisterResult Id))
  /-- `plan` has lost its path -/
  | raced (outcomes : List (Outcome Id)) (plan : NoteInsertPlan Id) (todo : List (NoteInsertPlan Id))
    (inserted : List Id) (lost : List (NoteInsertPlan Id × RegisterResult Id))
  | written (outcomes : List (Outcome Id)) (inserted : List Id) (lost : List (NoteInsertPlan Id × RegisterResult Id))
  | returned
  | threw

structure Call (Id K : Type*) where
  vaultId : Id
  inputs : List (NoteInput Id)
  stage : Stage Id K := .started

/-- a call's answers, each with whether its item's row was written, and the rows at that moment -/
structure Return (Id : Type*) where
  vaultId : Id
  results : List (RegisterResult Id × Bool)
  notes : List (NoteRow Id)
  deriving DecidableEq

structure St (Id K : Type*) where
  notes : List (NoteRow Id)
  calls : List (Call Id K) := []
  returns : List (Return Id) := []

inductive CallAction (Id K : Type*) where
  | prefetch
  /-- with what it reads of the rest -/
  | plan (reads : Env Id K) (existing : List Id) (remaining : Option ℕ)
  | insert
  | replay
  | readWinner (canAdoptDoc : Id → Bool)
  | answer

inductive Action (Id K : Type*) where
  | calls (vaultId : Id) (inputs : List (NoteInput Id))
  | goesOn (i : ℕ) (a : CallAction Id K)

section

variable [DecidableEq Id] [DecidableEq K] (key : Path → K)

/-- what a statement needs of the request -/
def Call.env (c : Call Id K) : Env Id K := ⟨key, c.vaultId, [], fun _ => false, fun _ => false, false, none⟩

/-- which items' rows were written -/
def writes (inserted : List Id) : List Id → List (Outcome Id) → List Bool
  | _, [] => []
  | seen, .answered _ :: outcomes => false :: writes inserted seen outcomes
  | seen, .planned plan :: outcomes =>
    if plan.id ∈ seen then false :: writes inserted seen outcomes
    else decide (plan.id ∈ inserted) :: writes inserted (plan.id :: seen) outcomes

/-- one statement of a call: the rows, its stage and what it returns -/
def Call.next (notes : List (NoteRow Id)) (c : Call Id K) :
    CallAction Id K → Option (List (NoteRow Id) × Stage Id K × List (Return Id))
  | .prefetch => match c.stage with
    | .started => some (notes, .prefetched (prefetchNotes (c.env key) notes c.inputs), [])
    | _ => none
  | .plan reads existing remaining => match c.stage with
    | .prefetched cache => some (notes, .planned (planNotes { reads with key := key, vaultId := c.vaultId } notes
        existing { cache := cache, remaining := remaining } c.inputs), [])
    | _ => none
  | .insert => match c.stage with
    | .planned outcomes => match insertAll (c.env key) notes (firsts [] outcomes) with
      | some notes' => some (notes', .written outcomes
          (((firsts [] outcomes).map NoteInsertPlan.id).filter fun id => id ∉ noteIds notes) [], [])
      | none => some (notes, .replaying outcomes (firsts [] outcomes) [] [], [])
    | _ => none
  | .replay => match c.stage with
    | .replaying outcomes [] inserted lost => some (notes, .written outcomes inserted lost, [])
    | .replaying outcomes (plan :: todo) inserted lost => match insertOne (c.env key) notes plan with
      | some notes' => some (notes', .replaying outcomes todo
          (if plan.id ∈ noteIds notes then inserted else plan.id :: inserted) lost, [])
      | none => some (notes, .raced outcomes plan todo inserted lost, [])
    | _ => none
  | .readWinner canAdoptDoc => match c.stage with
    | .raced outcomes plan todo inserted lost => match liveByKey (c.env key) notes (key plan.storedRelPath) with
      | some winner => some (notes, .replaying outcomes todo inserted
          (lost ++ [(plan, adopt { c.env key with canAdoptDoc := canAdoptDoc } (toNote winner))]), [])
      | none => some (notes, .threw, [])
    | _ => none
  | .answer => match c.stage with
    | .written outcomes inserted lost => some (notes, .returned, [⟨c.vaultId,
        (answers (c.env key) notes inserted lost [] outcomes).zip (writes inserted [] outcomes), notes⟩])
    | _ => none

def step (s : St Id K) : Action Id K → St Id K
  | .calls vaultId inputs => { s with calls := s.calls ++ [{ vaultId := vaultId, inputs := inputs }] }
  | .goesOn i a => match s.calls[i]? with
    | some c => match c.next key s.notes a with
      | some (notes, stage, returns) =>
        { notes := notes, calls := s.calls.set i { c with stage := stage }, returns := s.returns ++ returns }
      | none => s
    | none => s

/-! ## What is to hold -/

/-- the primary key, and one live row for each vault and path key -/
structure Indexed (notes : List (NoteRow Id)) : Prop where
  ids : (noteIds notes).Nodup
  paths : ∀ n ∈ notes, ∀ m ∈ notes, n.vaultId = m.vaultId → key n.relPath = key m.relPath → n.deleted = false →
    m.deleted = false → n = m

/-- one live row holds the path, and it is the one told of; an item that is refused has written nothing -/
def Truthful (notes : List (NoteRow Id)) (vaultId : Id) (x : RegisterResult Id × Bool) : Prop := match x.1 with
  | .created row | .adopted row => ∃ n, (notes.filter fun n => n.vaultId = vaultId ∧ key n.relPath = key row.relPath ∧
      n.deleted = false) = [n] ∧ n.id = row.id ∧ n.relPath = row.relPath
  | .conflict _ _ | .error _ => x.2 = false

def AnswersTruthful (s : St Id K) : Prop := ∀ r ∈ s.returns, ∀ x ∈ r.results, Truthful key r.notes r.vaultId x

/-- a live row of the vault is at this path under this id -/
def Real (notes : List (NoteRow Id)) (vaultId : Id) (row : Registered Id) : Prop :=
  ∃ n ∈ notes, n.vaultId = vaultId ∧ n.deleted = false ∧ n.id = row.id ∧ n.relPath = row.relPath

/-- how many items would insert this id -/
def claims (outcomes : List (Outcome Id)) (id : Id) : ℕ :=
  outcomes.countP fun o => match o with
    | .planned plan => plan.id = id
    | .answered _ => false

/-- a row is offered: what an item was answered with is what is now written, or is there, and an id that another item
claims does not lose its path -/
def Relied (notes : List (NoteRow Id)) (vaultId : Id) (outcomes : List (Outcome Id)) (plan : NoteInsertPlan Id) :
    Prop :=
  let isFree := plan.id ∉ noteIds notes ∧
    ∀ n ∈ notes, n.vaultId = vaultId → key n.relPath = key plan.storedRelPath → n.deleted = true
  (∀ q, .planned q ∈ outcomes → q.id = plan.id → .answered (.adopted q.registered) ∈ outcomes →
      (q = plan ∧ isFree) ∨ Real notes vaultId q.registered) ∧
    (1 < claims outcomes plan.id → plan.id ∈ noteIds notes ∨ isFree)

/-- at the statement that writes the plans, and at each row of a replay -/
def Call.Sound (notes : List (NoteRow Id)) (c : Call Id K) : CallAction Id K → Prop
  | .insert => match c.stage with
    | .planned outcomes => (insertAll (c.env key) notes (firsts [] outcomes)).isSome →
        ∀ plan ∈ firsts [] outcomes, Relied key notes c.vaultId outcomes plan
    | _ => True
  | .replay => match c.stage with
    | .replaying outcomes (plan :: _) _ _ => Relied key notes c.vaultId outcomes plan
    | _ => True
  | _ => True

def Sound (s : St Id K) : Action Id K → Prop
  | .calls _ _ => True
  | .goesOn i a => ∀ c ∈ s.calls[i]?, c.Sound key s.notes a

/-! ## Rows -/

section

variable {key} {notes notes' : List (NoteRow Id)} {env : Env Id K} {vaultId : Id} {plan : NoteInsertPlan Id}

theorem liveByKey_none_iff {k : K} : liveByKey env notes k = none ↔
    ∀ n ∈ notes, n.vaultId = env.vaultId → env.key n.relPath = k → n.deleted = true := by
  unfold liveByKey
  simp

theorem liveByKey_real {k : K} {n : NoteRow Id} (h : liveByKey env notes k = some n) :
    Real notes env.vaultId (toNote n) ∧ env.key n.relPath = k := by
  have hn := find?_some h
  simp only [decide_eq_true_eq] at hn
  exact ⟨⟨n, mem_of_find?_eq_some h, hn.1, hn.2.2, rfl, rfl⟩, hn.2.1⟩

theorem Real.mono {row : Registered Id} (h : Real notes vaultId row) (hsub : notes ⊆ notes') :
    Real notes' vaultId row := by
  obtain ⟨n, hn, hrest⟩ := h
  exact ⟨n, hsub hn, hrest⟩

theorem Real.row {vaultId : Id} : Real (notes ++ [plan.row vaultId]) vaultId plan.registered :=
  ⟨plan.row vaultId, by simp, rfl, rfl, rfl, rfl⟩

section

variable (h : Indexed key notes) {row : Registered Id} (hreal : Real notes vaultId row)

include h hreal

/-- a row that is there is the only one at its path -/
theorem Indexed.filter_eq :
    ∃ n, (notes.filter fun n => n.vaultId = vaultId ∧ key n.relPath = key row.relPath ∧ n.deleted = false) = [n] ∧
      n.id = row.id ∧ n.relPath = row.relPath := by
  obtain ⟨n, hn, hvault, hdeleted, hid, hpath⟩ := hreal
  refine ⟨n, filter_eq_singleton (h.ids.of_map _) hn (by simp [hvault, hpath, hdeleted]) ?_, hid, hpath⟩
  intro m hm hmatches
  simp only [decide_eq_true_eq] at hmatches
  exact h.paths m hm n hn (hmatches.1.trans hvault.symm) (by rw [hmatches.2.1, hpath]) hmatches.2.2 hdeleted

theorem Indexed.adopted (wrote : Bool) : Truthful key notes vaultId (.adopted row, wrote) := h.filter_eq hreal

theorem Indexed.created (wrote : Bool) : Truthful key notes vaultId (.created row, wrote) := h.filter_eq hreal

end

/-- what offering a row does -/
theorem insertOne_some (h : insertOne env notes plan = some notes') :
    plan.id ∈ noteIds notes ∧ notes' = notes ∨
      plan.id ∉ noteIds notes ∧ liveByKey env notes (env.key plan.storedRelPath) = none ∧
        notes' = notes ++ [plan.row env.vaultId] := by
  unfold insertOne at h
  split at h
  · next hid => exact .inl ⟨hid, (some.inj h).symm⟩
  · next hid =>
    split at h
    · cases h
    · next hfree => exact .inr ⟨hid, by simpa using hfree, (some.inj h).symm⟩

theorem insertOne_none (h : insertOne env notes plan = none) :
    plan.id ∉ noteIds notes ∧ (liveByKey env notes (env.key plan.storedRelPath)).isSome := by
  unfold insertOne at h
  split at h
  · cases h
  · next hid =>
    split at h
    · next hlive => exact ⟨hid, hlive⟩
    · cases h

theorem Indexed.insertOne (h : Indexed env.key notes) (hinsert : insertOne env notes plan = some notes') :
    notes ⊆ notes' ∧ Indexed env.key notes' ∧ plan.id ∈ noteIds notes' ∧
      (plan.id ∉ noteIds notes → Real notes' env.vaultId plan.registered) := by
  rcases insertOne_some hinsert with ⟨hid, rfl⟩ | ⟨hid, hfree, rfl⟩
  · exact ⟨Subset.refl _, h, hid, fun hnot => absurd hid hnot⟩
  · rw [liveByKey_none_iff] at hfree
    refine ⟨subset_append_left _ _, ⟨?_, ?_⟩, by simp, fun _ => Real.row⟩
    · rw [noteIds_append_row]
      refine nodup_append.2 ⟨h.ids, nodup_singleton _, ?_⟩
      rintro a ha b hb rfl
      exact hid (mem_singleton.1 hb ▸ ha)
    · intro n hn m hm hvault hkey hn' hm'
      rcases mem_append.1 hn with hn | hn <;> rcases mem_append.1 hm with hm | hm
      · exact h.paths n hn m hm hvault hkey hn' hm'
      · obtain rfl := mem_singleton.1 hm
        exact absurd (hn'.symm.trans (hfree n hn hvault hkey)) (by simp)
      · obtain rfl := mem_singleton.1 hn
        exact absurd (hm'.symm.trans (hfree m hm hvault.symm hkey.symm)) (by simp)
      · rw [mem_singleton.1 hn, mem_singleton.1 hm]

variable {plans : List (NoteInsertPlan Id)}

/-- what one statement for all rows does -/
theorem Indexed.insertAll (h : Indexed env.key notes) (hplans : (plans.map NoteInsertPlan.id).Nodup)
    (hinsert : insertAll env notes plans = some notes') :
    notes ⊆ notes' ∧ Indexed env.key notes' ∧ ∀ plan ∈ plans, plan.id ∈ noteIds notes' ∧
      (plan.id ∉ noteIds notes → Real notes' env.vaultId plan.registered) := by
  induction plans generalizing notes with
  | nil =>
    cases hinsert
    exact ⟨Subset.refl _, h, by simp⟩
  | cons plan plans ih =>
    obtain ⟨notes₁, hone, hrest⟩ := bind_eq_some_iff.1 hinsert
    rw [map_cons, nodup_cons] at hplans
    obtain ⟨hsub₁, hindexed₁, hid₁, hreal₁⟩ := h.insertOne hone
    obtain ⟨hsub, hindexed, hall⟩ := ih hindexed₁ hplans.2 hrest
    refine ⟨Subset.trans hsub₁ hsub, hindexed, ?_⟩
    intro plan' hplan'
    rcases mem_cons.1 hplan' with rfl | hplan'
    · exact ⟨map_subset _ hsub hid₁, fun hnew => (hreal₁ hnew).mono hsub⟩
    · obtain ⟨hid', hreal'⟩ := hall plan' hplan'
      refine ⟨hid', fun hnew => hreal' ?_⟩
      -- the row inserted before has another id
      rcases insertOne_some hone with ⟨_, rfl⟩ | ⟨_, _, rfl⟩
      · exact hnew
      · rw [noteIds_append_row, mem_append, mem_singleton]
        rintro (hold | heq)
        · exact hnew hold
        · exact hplans.1 (heq ▸ mem_map_of_mem hplan')

theorem firsts_nodup (outcomes : List (Outcome Id)) (seen : List Id) :
    ((firsts seen outcomes).map NoteInsertPlan.id).Nodup := by
  induction outcomes generalizing seen with
  | nil => exact nodup_nil
  | cons outcome outcomes ih =>
    cases outcome with
    | answered result => exact ih seen
    | planned plan =>
      unfold firsts
      split
      · exact ih seen
      · rw [map_cons, nodup_cons]
        refine ⟨?_, ih _⟩
        intro hmem
        obtain ⟨plan', hplan', hid⟩ := mem_map.1 hmem
        exact mem_firsts outcomes hplan' (hid ▸ .head _)

variable {outcomes : List (Outcome Id)} {seen : List Id}

theorem firsts_old (h : plan.id ∈ seen) :
    firsts seen (.planned plan :: outcomes) = firsts seen outcomes := if_pos h

theorem firsts_new (h : plan.id ∉ seen) :
    firsts seen (.planned plan :: outcomes) = plan :: firsts (plan.id :: seen) outcomes := if_neg h

/-- an id's first plan -/
theorem exists_first (h : .planned plan ∈ outcomes) (hseen : plan.id ∉ seen) :
    ∃ plan' ∈ firsts seen outcomes, plan'.id = plan.id := by
  induction outcomes generalizing seen with
  | nil => exact absurd h not_mem_nil
  | cons outcome outcomes ih =>
    rcases mem_cons.1 h with rfl | h'
    · unfold firsts
      rw [if_neg hseen]
      exact ⟨plan, .head _, rfl⟩
    · cases outcome with
      | answered result => exact ih h' hseen
      | planned plan₁ =>
        unfold firsts
        split
        · exact ih h' hseen
        · by_cases hid : plan₁.id = plan.id
          · exact ⟨plan₁, .head _, hid⟩
          · have hseen' : plan.id ∉ plan₁.id :: seen := by
              rw [mem_cons]
              rintro (heq | hmem)
              · exact hid heq.symm
              · exact hseen hmem
            obtain ⟨plan', hplan', hid'⟩ := ih h' hseen'
            exact ⟨plan', .tail _ hplan', hid'⟩

/-! ## What a call knows -/

/-- what the planning has answered: errors, rows there are, and rows it plans -/
def Told (notes : List (NoteRow Id)) (vaultId : Id) (outcomes : List (Outcome Id)) : Prop :=
  ∀ result, .answered result ∈ outcomes → (∃ e, result = .error e) ∨ ∃ row, result = .adopted row ∧
    (Real notes vaultId row ∨ ∃ plan, .planned plan ∈ outcomes ∧ row = plan.registered)

theorem Told.mono (h : Told notes vaultId outcomes) (hsub : notes ⊆ notes') : Told notes' vaultId outcomes := by
  intro result hresult
  rcases h result hresult with herror | ⟨row, hrow, hreal⟩
  · exact .inl herror
  · exact .inr ⟨row, hrow, hreal.imp_left fun hr => hr.mono hsub⟩

/-- a cache entry is a row there is, or a plan -/
def Cached (notes : List (NoteRow Id)) (vaultId : Id) (cache : Cache Id K) (plans : List (NoteInsertPlan Id)) : Prop :=
  ∀ k row, cache k = some (some row) → Real notes vaultId row ∨ ∃ plan ∈ plans, row = plan.registered

theorem prefetchNotes_cached (inputs : List (NoteInput Id)) :
    Cached notes env.vaultId (prefetchNotes env notes inputs) [] := by
  intro k row hrow
  unfold prefetchNotes at hrow
  split at hrow
  · obtain ⟨n, hn, rfl⟩ := map_eq_some_iff.1 (some.inj hrow)
    exact .inl (liveByKey_real hn).1
  · cases hrow

/-- looking a path up, and what it leaves in the cache -/
theorem Cached.liveNoteByPath {cache : Cache Id K} (h : Cached notes env.vaultId cache plans) (relPath : Path) :
    Cached notes env.vaultId (liveNoteByPath env notes cache relPath).2 plans ∧
      ∀ row, (liveNoteByPath env notes cache relPath).1 = some row →
        Real notes env.vaultId row ∨ ∃ plan ∈ plans, row = plan.registered := by
  unfold RegisterNotes.liveNoteByPath
  split
  · next hit hhit =>
    refine ⟨h, fun row hrow => ?_⟩
    obtain rfl : hit = some row := hrow
    exact h _ row hhit
  · have hfound : ∀ row, (liveByKey env notes (env.key relPath)).map toNote = some row →
        Real notes env.vaultId row := by
      intro row hrow
      obtain ⟨n, hn, rfl⟩ := map_eq_some_iff.1 hrow
      exact (liveByKey_real hn).1
    refine ⟨?_, fun row hrow => .inl (hfound row hrow)⟩
    intro k row hrow
    dsimp only at hrow
    rw [Function.update_apply] at hrow
    split at hrow
    · exact .inl (hfound row (some.inj hrow))
    · exact h k row hrow

theorem planNotes_told (env : Env Id K) (existing : List Id) (inputs : List (NoteInput Id)) {p : Progress Id K}
    (h : Cached notes env.vaultId p.cache plans) :
    ∀ result, .answered result ∈ planNotes env notes existing p inputs → (∃ e, result = .error e) ∨
      ∃ row, result = .adopted row ∧ (Real notes env.vaultId row ∨
        ∃ plan, (plan ∈ plans ∨ .planned plan ∈ planNotes env notes existing p inputs) ∧ row = plan.registered) := by
  induction inputs generalizing p plans with
  | nil => exact fun result hresult => absurd hresult not_mem_nil
  | cons input inputs ih =>
    obtain ⟨hcache, hfound⟩ := h.liveNoteByPath input.relPath
    intro result hresult
    unfold planNotes at hresult ⊢
    dsimp only at hresult ⊢
    cases houtcome : (planNote env notes existing p input).1 with
    | answered result' =>
      rw [houtcome] at hresult
      rcases mem_cons.1 hresult with heq | hresult
      · -- an answer of the planning itself
        have hanswer : (∃ e, result = .error e) ∨
            ∃ row, result = .adopted row ∧ (liveNoteByPath env notes p.cache input.relPath).1 = some row := by
          unfold planNote adopt at houtcome
          grind
        rcases hanswer with herror | ⟨row, hrow, hsome⟩
        · exact .inl herror
        · rcases hfound row hsome with hreal | ⟨plan, hplan, heq⟩
          · exact .inr ⟨row, hrow, .inl hreal⟩
          · exact .inr ⟨row, hrow, .inr ⟨plan, .inl hplan, heq⟩⟩
      · have hnext : Cached notes env.vaultId (planNote env notes existing p input).2.cache plans := by
          rw [planNote_answered houtcome]
          exact hcache
        rcases ih hnext result hresult with herror | ⟨row, hrow, hreal | ⟨plan, hplan, heq⟩⟩
        · exact .inl herror
        · exact .inr ⟨row, hrow, .inl hreal⟩
        · exact .inr ⟨row, hrow, .inr ⟨plan, hplan.imp_right (mem_cons_of_mem _), heq⟩⟩
    | planned plan₁ =>
      rw [houtcome] at hresult
      rcases mem_cons.1 hresult with heq | hresult
      · cases heq
      · have hnext : Cached notes env.vaultId (planNote env notes existing p input).2.cache (plan₁ :: plans) := by
          rw [(planNote_planned houtcome).2.2.2]
          intro k row hrow
          dsimp only at hrow
          rw [Function.update_apply] at hrow
          split at hrow
          · exact .inr ⟨plan₁, .head _, (some.inj (some.inj hrow)).symm⟩
          · exact (hcache k row hrow).imp_right fun h => h.imp fun plan hplan => ⟨.tail _ hplan.1, hplan.2⟩
        rcases ih hnext result hresult with herror | ⟨row, hrow, hreal | ⟨plan, hplan, heq⟩⟩
        · exact .inl herror
        · exact .inr ⟨row, hrow, .inl hreal⟩
        · refine .inr ⟨row, hrow, .inr ⟨plan, ?_, heq⟩⟩
          rcases hplan with hplan | hplan
          · rcases mem_cons.1 hplan with rfl | hplan
            · exact .inr mem_cons_self
            · exact .inl hplan
          · exact .inr (.tail _ hplan)

/-- a plan's fate is decided, and what relied on it holds -/
structure Decided (notes : List (NoteRow Id)) (vaultId : Id) (outcomes : List (Outcome Id)) (inserted : List Id)
    (lost : List (NoteInsertPlan Id × RegisterResult Id)) (plan : NoteInsertPlan Id) : Prop where
  relied : ∀ q, .planned q ∈ outcomes → q.id = plan.id → .answered (.adopted q.registered) ∈ outcomes →
    Real notes vaultId q.registered
  claimed : 1 < claims outcomes plan.id → plan.id ∈ noteIds notes
  inserted : plan.id ∈ inserted → Real notes vaultId plan.registered
  known : plan.id ∈ noteIds notes ∨ (lost.lookup plan).isSome

/-- a row that has lost its path -/
structure Lost (notes : List (NoteRow Id)) (vaultId : Id) (outcomes : List (Outcome Id)) (plan : NoteInsertPlan Id) :
    Prop where
  relied : ∀ q, .planned q ∈ outcomes → q.id = plan.id → .answered (.adopted q.registered) ∈ outcomes →
    Real notes vaultId q.registered
  claimed : 1 < claims outcomes plan.id → plan.id ∈ noteIds notes

structure Replay (notes : List (NoteRow Id)) (vaultId : Id) (outcomes : List (Outcome Id))
    (todo : List (NoteInsertPlan Id)) (inserted : List Id) (lost : List (NoteInsertPlan Id × RegisterResult Id)) :
    Prop where
  distinct : (todo.map NoteInsertPlan.id).Nodup
  offered : todo ⊆ firsts [] outcomes
  once : ∀ id ∈ inserted, id ∉ todo.map NoteInsertPlan.id
  apart : ∀ x ∈ lost, x.1.id ∉ todo.map NoteInsertPlan.id ∧ x.1.id ∉ inserted
  /-- whoever lost was told of the winner -/
  winners : ∀ x ∈ lost, (∃ e, x.2 = .error e) ∨ ∃ row, x.2 = .adopted row ∧ Real notes vaultId row
  decided : ∀ plan ∈ firsts [] outcomes, plan ∈ todo ∨ Decided notes vaultId outcomes inserted lost plan

section

variable {outcomes : List (Outcome Id)} {todo : List (NoteInsertPlan Id)} {inserted : List Id}
  {lost : List (NoteInsertPlan Id × RegisterResult Id)}

theorem Decided.mono (h : Decided notes vaultId outcomes inserted lost plan) (hsub : notes ⊆ notes') :
    Decided notes' vaultId outcomes inserted lost plan :=
  ⟨fun q hq hid hadopted => (h.relied q hq hid hadopted).mono hsub,
    fun hclaims => map_subset _ hsub (h.claimed hclaims),
    fun hinserted => (h.inserted hinserted).mono hsub, h.known.imp_left fun hid => map_subset _ hsub hid⟩

theorem Lost.mono (h : Lost notes vaultId outcomes plan) (hsub : notes ⊆ notes') : Lost notes' vaultId outcomes plan :=
  ⟨fun q hq hid hadopted => (h.relied q hq hid hadopted).mono hsub,
    fun hclaims => map_subset _ hsub (h.claimed hclaims)⟩

theorem Replay.mono (h : Replay notes vaultId outcomes todo inserted lost) (hsub : notes ⊆ notes') :
    Replay notes' vaultId outcomes todo inserted lost :=
  ⟨h.distinct, h.offered, h.once, h.apart,
    fun x hx => (h.winners x hx).imp_right fun ⟨row, hrow, hreal⟩ => ⟨row, hrow, hreal.mono hsub⟩,
    fun plan hplan => (h.decided plan hplan).imp_right fun hd => hd.mono hsub⟩

/-- a row that is written, or whose id has a row -/
theorem Relied.decided (h : Relied env.key notes env.vaultId outcomes plan) (hsub : notes ⊆ notes')
    (hid : plan.id ∈ noteIds notes') (hreal : plan.id ∉ noteIds notes → Real notes' env.vaultId plan.registered)
    (hinserted : plan.id ∈ inserted → plan.id ∉ noteIds notes) :
    Decided notes' env.vaultId outcomes inserted lost plan := by
  refine ⟨?_, fun _ => hid, fun hmem => hreal (hinserted hmem), .inl hid⟩
  intro q hq hqid hadopted
  rcases h.1 q hq hqid hadopted with ⟨rfl, hfree, _⟩ | hthere
  · exact hreal hfree
  · exact hthere.mono hsub

/-- a row that lost its path is one nobody relied on -/
theorem Relied.isLost (h : Relied env.key notes env.vaultId outcomes plan)
    (hlive : (liveByKey env notes (env.key plan.storedRelPath)).isSome) : Lost notes env.vaultId outcomes plan := by
  have hnot : ¬ ∀ n ∈ notes, n.vaultId = env.vaultId → env.key n.relPath = env.key plan.storedRelPath →
      n.deleted = true := by
    intro hfree
    rw [liveByKey_none_iff.2 hfree] at hlive
    cases hlive
  refine ⟨?_, fun hclaims => (h.2 hclaims).resolve_right fun hfree => hnot hfree.2⟩
  intro q hq hqid hadopted
  exact (h.1 q hq hqid hadopted).resolve_left fun hq' => hnot hq'.2.2

/-- the replay of one row -/
theorem Replay.insertOne (h : Replay notes env.vaultId outcomes (plan :: todo) inserted lost)
    (hindexed : Indexed env.key notes) (hrelied : Relied env.key notes env.vaultId outcomes plan)
    (hinsert : insertOne env notes plan = some notes') :
    Replay notes' env.vaultId outcomes todo
      (if plan.id ∈ noteIds notes then inserted else plan.id :: inserted) lost := by
  obtain ⟨hsub, _, hid, hreal⟩ := hindexed.insertOne hinsert
  have htodo := h.distinct
  rw [map_cons, nodup_cons] at htodo
  have hmine : plan.id ∉ inserted := fun hmem => h.once _ hmem (by simp)
  have hnew : ∀ id, id ∈ (if plan.id ∈ noteIds notes then inserted else plan.id :: inserted) →
      id ∈ inserted ∨ id = plan.id ∧ plan.id ∉ noteIds notes := by
    intro id hmem
    grind
  have hoffered := cons_subset.1 h.offered
  refine ⟨htodo.2, hoffered.2, ?_, ?_, ?_, ?_⟩
  · intro id hmem
    rcases hnew id hmem with hold | ⟨rfl, _⟩
    · exact fun hin => h.once id hold (.tail _ hin)
    · exact htodo.1
  · intro x hx
    obtain ⟨hnot, hnot'⟩ := h.apart x hx
    refine ⟨fun hin => hnot (.tail _ hin), ?_⟩
    intro hmem
    rcases hnew _ hmem with hold | ⟨heq, _⟩
    · exact hnot' hold
    · exact hnot (by simp [heq])
  · exact (h.mono hsub).winners
  · intro plan' hplan'
    rcases h.decided plan' hplan' with hin | hdecided
    · rcases mem_cons.1 hin with rfl | hin
      · right
        apply hrelied.decided hsub hid hreal
        intro hmem
        exact (hnew _ hmem).elim (fun hold => absurd hold hmine) fun hn => hn.2
      · exact .inl hin
    · right
      have hdecided' := hdecided.mono hsub
      refine ⟨hdecided'.relied, hdecided'.claimed, ?_, hdecided'.known⟩
      intro hmem
      rcases hnew _ hmem with hold | ⟨heq, hnew'⟩
      · exact hdecided'.inserted hold
      · -- the first of an id is one plan
        obtain rfl := inj_on_of_nodup_map (firsts_nodup outcomes []) hplan' hoffered.1 heq
        exact hreal hnew'

/-- a row that lost is answered with the winner -/
theorem Replay.lose (h : Replay notes vaultId outcomes (plan :: todo) inserted lost)
    (hlost : Lost notes vaultId outcomes plan) {result : RegisterResult Id}
    (hresult : (∃ e, result = .error e) ∨ ∃ row, result = .adopted row ∧ Real notes vaultId row) :
    Replay notes vaultId outcomes todo inserted (lost ++ [(plan, result)]) := by
  have htodo := h.distinct
  rw [map_cons, nodup_cons] at htodo
  refine ⟨htodo.2, (cons_subset.1 h.offered).2, ?_, ?_, ?_, ?_⟩
  · exact fun id hid hmem => h.once id hid (.tail _ hmem)
  · intro x hx
    rcases mem_snoc.1 hx with hx | rfl
    · exact ⟨fun hmem => (h.apart x hx).1 (.tail _ hmem), (h.apart x hx).2⟩
    · exact ⟨htodo.1, fun hmem => h.once _ hmem (by simp)⟩
  · intro x hx
    rcases mem_snoc.1 hx with hx | rfl
    · exact h.winners x hx
    · exact hresult
  · intro plan' hplan'
    rcases h.decided plan' hplan' with hin | hdecided
    · rcases mem_cons.1 hin with rfl | hin
      · refine .inr ⟨hlost.relied, hlost.claimed, fun hmem => absurd (by simp) (h.once _ hmem), .inr ?_⟩
        rw [lookup_append, isSome_or]
        simp
      · exact .inl hin
    · refine .inr ⟨hdecided.relied, hdecided.claimed, hdecided.inserted, hdecided.known.imp_right fun hsome => ?_⟩
      rw [lookup_append, isSome_or, hsome]
      rfl

/-- an id that has a row is told of as it stands -/
theorem Indexed.decline (h : Indexed env.key notes) (hid : plan.id ∈ noteIds notes) :
    Truthful env.key notes env.vaultId (decline env notes plan, false) := by
  obtain ⟨row, hrow, heq⟩ := mem_map.1 hid
  have hsome : (notes.find? fun n => n.id = plan.id).isSome := find?_isSome.2 ⟨row, hrow, by simpa using heq⟩
  obtain ⟨n, hn⟩ := isSome_iff_exists.1 hsome
  have hmem : n ∈ notes := mem_of_find?_eq_some hn
  have hnid : n.id = plan.id := by simpa using find?_some hn
  unfold RegisterNotes.decline
  rw [hn]
  dsimp only
  split_ifs with hvault hdeleted hpath
  · rfl
  · rfl
  · exact h.adopted ⟨n, hmem, by simpa using hvault, by simpa using hdeleted, hnid, rfl⟩ false
  · exact h.created ⟨n, hmem, by simpa using hvault, by simpa using hdeleted, hnid, not_ne_iff.1 hpath⟩ false

theorem claims_planned (plan : NoteInsertPlan Id) (id : Id) :
    claims (.planned plan :: outcomes) id = claims outcomes id + if plan.id = id then 1 else 0 := by
  unfold claims
  by_cases hid : plan.id = id <;> simp [hid]

theorem Replay.answers (hreplay : Replay notes env.vaultId outcomes [] inserted lost)
    (htold : Told notes env.vaultId outcomes) (hindexed : Indexed env.key notes) (rest : List (Outcome Id))
    {seen : List Id} (hrest : rest ⊆ outcomes) (hfirsts : firsts seen rest ⊆ firsts [] outcomes)
    (hclaims : ∀ id, claims rest id ≤ claims outcomes id) (hseen : ∀ id ∈ seen, claims rest id < claims outcomes id) :
    ∀ x ∈ (answers env notes inserted lost seen rest).zip (writes inserted seen rest),
      Truthful env.key notes env.vaultId x := by
  induction rest generalizing seen with
  | nil => exact fun x hx => absurd hx (by simp [RegisterNotes.answers])
  | cons outcome rest ih =>
    obtain ⟨hhead, htail⟩ := cons_subset.1 hrest
    have hdecided : ∀ p ∈ firsts [] outcomes, Decided notes env.vaultId outcomes inserted lost p := fun p hp =>
      (hreplay.decided p hp).resolve_left not_mem_nil
    cases outcome with
    | answered result =>
      intro x hx
      rcases mem_cons.1 hx with rfl | hx
      · -- what the planning answered
        rcases htold result hhead with ⟨e, rfl⟩ | ⟨row, rfl, hreal | ⟨q, hq, rfl⟩⟩
        · rfl
        · exact hindexed.adopted hreal false
        · obtain ⟨p, hp, hid⟩ := exists_first hq (not_mem_nil (a := q.id))
          exact hindexed.adopted ((hdecided p hp).relied q hq hid.symm hhead) false
      · exact ih htail hfirsts hclaims hseen x hx
    | planned plan =>
      simp only [claims_planned] at hclaims hseen
      unfold RegisterNotes.answers writes
      by_cases hplan : plan.id ∈ seen
      · rw [if_pos hplan, if_pos hplan]
        rw [firsts_old hplan] at hfirsts
        intro x hx
        rcases mem_cons.1 hx with rfl | hx
        · -- an id claimed before
          obtain ⟨p, hp, hid⟩ := exists_first hhead (not_mem_nil (a := plan.id))
          have hlt := hseen plan.id hplan
          rw [if_pos rfl] at hlt
          have hid' : plan.id ∈ noteIds notes := hid ▸ (hdecided p hp).claimed (by rw [hid]; omega)
          exact hindexed.decline hid'
        · refine ih htail hfirsts (fun id => ?_) (fun id hid => ?_) x hx
          · have hle := hclaims id
            omega
          · have hlt := hseen id hid
            omega
      · rw [if_neg hplan, if_neg hplan]
        rw [firsts_new hplan] at hfirsts
        obtain ⟨hfirst, hfirsts'⟩ := cons_subset.1 hfirsts
        have hd := hdecided plan hfirst
        intro x hx
        rcases mem_cons.1 hx with rfl | hx
        · cases hlookup : lost.lookup plan with
          | some result =>
            have hmem : (plan, result) ∈ lost := by
              obtain ⟨l₁, l₂, heq, _⟩ := lookup_eq_some_iff.1 hlookup
              simp [heq]
            have hnot : plan.id ∉ inserted := (hreplay.apart _ hmem).2
            rcases hreplay.winners _ hmem with ⟨e, he⟩ | ⟨row, hrow, hreal⟩
            · subst he
              exact decide_eq_false hnot
            · subst hrow
              exact hindexed.adopted hreal _
          | none =>
            by_cases hmem : plan.id ∈ inserted
            · rw [if_pos hmem]
              exact hindexed.created (hd.inserted hmem) _
            · rw [if_neg hmem, decide_eq_false hmem]
              apply hindexed.decline
              exact hd.known.resolve_right (by simp [hlookup])
        · refine ih htail hfirsts' (fun id => ?_) (fun id hid => ?_) x hx
          · have hle := hclaims id
            omega
          · rcases mem_cons.1 hid with rfl | hid
            · have hle := hclaims plan.id
              rw [if_pos rfl] at hle
              omega
            · have hlt := hseen id hid
              omega

end

/-- what holds of a call at each of its stages -/
def Call.Ok (notes : List (NoteRow Id)) (c : Call Id K) : Prop := match c.stage with
  | .started | .returned | .threw => True
  | .prefetched cache => Cached notes c.vaultId cache []
  | .planned outcomes => Told notes c.vaultId outcomes
  | .replaying outcomes todo inserted lost =>
    Told notes c.vaultId outcomes ∧ Replay notes c.vaultId outcomes todo inserted lost
  | .raced outcomes plan todo inserted lost => Told notes c.vaultId outcomes ∧
      Replay notes c.vaultId outcomes (plan :: todo) inserted lost ∧ Lost notes c.vaultId outcomes plan
  | .written outcomes inserted lost =>
    Told notes c.vaultId outcomes ∧ Replay notes c.vaultId outcomes [] inserted lost

theorem Call.Ok.mono {c : Call Id K} (h : c.Ok notes) (hsub : notes ⊆ notes') : c.Ok notes' := by
  unfold Call.Ok at h ⊢
  cases hstage : c.stage with
  | started | returned | threw => trivial
  | prefetched cache =>
    rw [hstage] at h
    exact fun k row hrow => (h k row hrow).imp_left fun hreal => hreal.mono hsub
  | planned outcomes =>
    rw [hstage] at h
    exact Told.mono h hsub
  | replaying outcomes todo inserted lost | written outcomes inserted lost =>
    rw [hstage] at h
    exact ⟨h.1.mono hsub, h.2.mono hsub⟩
  | raced outcomes plan todo inserted lost =>
    rw [hstage] at h
    exact ⟨h.1.mono hsub, h.2.1.mono hsub, h.2.2.mono hsub⟩

/-- one statement of a call: rows are only added, the call stays as it is to be, and what it returns is true -/
theorem Call.Ok.next {c : Call Id K} (h : c.Ok notes) (hindexed : Indexed key notes) {a : CallAction Id K}
    (hsound : c.Sound key notes a) {stage : Stage Id K} {returns : List (Return Id)}
    (hnext : c.next key notes a = some (notes', stage, returns)) :
    notes ⊆ notes' ∧ Indexed key notes' ∧ Call.Ok notes' { c with stage := stage } ∧
      ∀ r ∈ returns, ∀ x ∈ r.results, Truthful key r.notes r.vaultId x := by
  unfold Call.Ok at h
  unfold Call.next at hnext
  unfold Call.Sound at hsound
  cases a with
  | prefetch =>
    cases hstage : c.stage with
    | started =>
      rw [hstage] at hnext
      obtain ⟨rfl, rfl, rfl⟩ := hnext
      have hcached : Cached notes (c.env key).vaultId (prefetchNotes (c.env key) notes c.inputs) [] :=
        prefetchNotes_cached c.inputs
      exact ⟨Subset.refl _, hindexed, hcached, by simp⟩
    | _ =>
      rw [hstage] at hnext
      cases hnext
  | plan reads existing remaining =>
    cases hstage : c.stage with
    | prefetched cache =>
      rw [hstage] at hnext h
      simp only [some_inj, Prod.mk.injEq] at hnext
      obtain ⟨rfl, rfl, rfl⟩ := hnext
      refine ⟨Subset.refl _, hindexed, ?_, by simp⟩
      intro result hresult
      have htold := planNotes_told { reads with key := key, vaultId := c.vaultId } existing c.inputs
        (p := ⟨cache, [], remaining⟩) h result hresult
      rcases htold with herror | ⟨row, hrow, hreal | ⟨plan, hplan, heq⟩⟩
      · exact .inl herror
      · exact .inr ⟨row, hrow, .inl hreal⟩
      · exact .inr ⟨row, hrow, .inr ⟨plan, hplan.resolve_left not_mem_nil, heq⟩⟩
    | _ =>
      rw [hstage] at hnext
      cases hnext
  | insert =>
    cases hstage : c.stage with
    | planned outcomes =>
      rw [hstage] at hnext h hsound
      dsimp only at hnext h hsound
      cases hinsert : insertAll (c.env key) notes (firsts [] outcomes) with
      | some notes₁ =>
        rw [hinsert] at hnext hsound
        obtain ⟨rfl, rfl, rfl⟩ := hnext
        have hall : Indexed (c.env key).key notes := hindexed
        obtain ⟨hsub, hindexed', hrows⟩ := hall.insertAll (firsts_nodup outcomes []) hinsert
        refine ⟨hsub, hindexed', ⟨Told.mono h hsub, nodup_nil, nil_subset _, by simp, by simp, by simp, ?_⟩,
          by simp⟩
        intro plan hplan
        right
        have hrelied : Relied (c.env key).key notes (c.env key).vaultId outcomes plan := hsound rfl plan hplan
        exact hrelied.decided hsub (hrows plan hplan).1 (hrows plan hplan).2 fun hmem => by
          simpa using (mem_filter.1 hmem).2
      | none =>
        rw [hinsert] at hnext
        obtain ⟨rfl, rfl, rfl⟩ := hnext
        exact ⟨Subset.refl _, hindexed, ⟨h, firsts_nodup outcomes [], Subset.refl _, by simp, by simp,
          by simp, fun plan hplan => .inl hplan⟩, by simp⟩
    | _ =>
      rw [hstage] at hnext
      cases hnext
  | replay =>
    cases hstage : c.stage with
    | replaying outcomes todo inserted lost =>
      rw [hstage] at hnext h hsound
      obtain ⟨htold, hreplay⟩ := h
      cases todo with
      | nil =>
        obtain ⟨rfl, rfl, rfl⟩ := hnext
        exact ⟨Subset.refl _, hindexed, ⟨htold, hreplay⟩, by simp⟩
      | cons plan todo =>
        dsimp only at hnext hsound
        have hall : Indexed (c.env key).key notes := hindexed
        have hrelied : Relied (c.env key).key notes (c.env key).vaultId outcomes plan := hsound
        cases hinsert : insertOne (c.env key) notes plan with
        | some notes₁ =>
          rw [hinsert] at hnext
          obtain ⟨rfl, rfl, rfl⟩ := hnext
          obtain ⟨hsub, hindexed', _⟩ := hall.insertOne hinsert
          exact ⟨hsub, hindexed', ⟨htold.mono hsub, Replay.insertOne hreplay hall hrelied hinsert⟩, by simp⟩
        | none =>
          rw [hinsert] at hnext
          obtain ⟨rfl, rfl, rfl⟩ := hnext
          exact ⟨Subset.refl _, hindexed, ⟨htold, hreplay, hrelied.isLost (insertOne_none hinsert).2⟩, by simp⟩
    | _ =>
      rw [hstage] at hnext
      cases hnext
  | readWinner canAdoptDoc =>
    cases hstage : c.stage with
    | raced outcomes plan todo inserted lost =>
      rw [hstage] at hnext h
      obtain ⟨htold, hreplay, hlost⟩ := h
      dsimp only at hnext
      cases hwinner : liveByKey (c.env key) notes (key plan.storedRelPath) with
      | some winner =>
        rw [hwinner] at hnext
        obtain ⟨rfl, rfl, rfl⟩ := hnext
        refine ⟨Subset.refl _, hindexed, ⟨htold, hreplay.lose hlost ?_⟩, by simp⟩
        unfold adopt
        split
        · exact .inr ⟨_, rfl, (liveByKey_real hwinner).1⟩
        · exact .inl ⟨_, rfl⟩
      | none =>
        rw [hwinner] at hnext
        obtain ⟨rfl, rfl, rfl⟩ := hnext
        exact ⟨Subset.refl _, hindexed, trivial, by simp⟩
    | _ =>
      rw [hstage] at hnext
      cases hnext
  | answer =>
    cases hstage : c.stage with
    | written outcomes inserted lost =>
      rw [hstage] at hnext h
      obtain ⟨htold, hreplay⟩ := h
      obtain ⟨rfl, rfl, rfl⟩ := hnext
      refine ⟨Subset.refl _, hindexed, trivial, ?_⟩
      intro r hr
      obtain rfl := mem_singleton.1 hr
      have hall : Indexed (c.env key).key notes := hindexed
      exact Replay.answers hreplay htold hall outcomes (Subset.refl _) (Subset.refl _) (fun id => le_rfl)
        fun id hid => absurd hid not_mem_nil
    | _ =>
      rw [hstage] at hnext
      cases hnext

end

/-! ## Every step -/

structure St.Ok (s : St Id K) : Prop where
  indexed : Indexed key s.notes
  calls : ∀ c ∈ s.calls, c.Ok s.notes
  returns : AnswersTruthful key s

variable {key}

theorem ok_step (s : St Id K) (a : Action Id K) (h : s.Ok key) (hsound : Sound key s a) : (step key s a).Ok key := by
  cases a with
  | calls vaultId inputs =>
    refine ⟨h.indexed, ?_, h.returns⟩
    intro c hc
    rcases mem_snoc.1 hc with hc | rfl
    · exact h.calls c hc
    · trivial
  | goesOn i a =>
    dsimp only [step]
    cases hc : s.calls[i]? with
    | none => exact h
    | some c =>
      have hcall : c.Sound key s.notes a := hsound c hc
      dsimp only
      cases hnext : c.next key s.notes a with
      | none => exact h
      | some r =>
        obtain ⟨hsub, hindexed, hok, htrue⟩ := (h.calls c (mem_of_getElem? hc)).next h.indexed hcall hnext
        refine ⟨hindexed, ?_, ?_⟩
        · intro c' hc'
          rcases mem_or_eq_of_mem_set hc' with hold | rfl
          · exact (h.calls c' hold).mono hsub
          · exact hok
        · intro r hr
          rcases mem_append.1 hr with hr | hr
          · exact h.returns r hr
          · exact htrue r hr

end

end Baalda.NoteRaces
