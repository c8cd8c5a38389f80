/-
What an inbound plan may do to the disk.

Every removal has a `Cause` and every rename is one the server asked for (`Sound`), through each loop of the planner; the
breakers only take entries away (`Trimmed`). `SafePlan` lists what follows for the plan: `planInbound_safe`.

Two things the plan does not do (`over_cap_is_refused`): a group over its cap is refused and reported, not sent to the
access check; and the path a note is moved away from is the device's own, it is not judged.
-/
import Baalda.Desktop.Inbound
import Baalda.Lib.Slots

namespace Baalda.Inbound

open List

variable {S : Strings} {input : InboundInput} {plan : InboundPlan}

/-! ## Causes -/

/-- why a file may leave the disk -/
inductive Cause (input : InboundInput) : InboundTrash → Prop where
  | deleted {docId : DocId} {path : Path} (hdead : dead input docId = true) (hserver : input.server.get docId = none)
      (hlocal : input.localNotes.get docId = some path) :
      Cause input { docId := docId, path := path, reason := .deleted }
  | revoked {docId : DocId} {path prev : Path} (hbaseline : input.baseline.get docId = some prev)
      (hserver : input.server.get docId = none) (hanswered : input.tombstones.isSome = true)
      (hdead : dead input docId = false) (hlocal : input.localNotes.get docId = some path) :
      Cause input { docId := docId, path := path, reason := .revoked }
  | named {docId : DocId} {path : Path} (hfile : (docId, path) ∈ namedFiles input) :
      Cause input { docId := docId, path := path, reason := .revoked, binary := true }

/-- a move the server asked for, to a safe path no note on disk holds -/
structure Asked (S : Strings) (input : InboundInput) (r : InboundRename) : Prop where
  server : input.server.get r.docId = some r.toPath
  fromDisk : input.localNotes.get r.docId = some r.fromPath
  safe : isSafeNotePath S r.toPath = true
  free : pathKey S r.toPath ∉ localPaths S input

structure Sound (S : Strings) (input : InboundInput) (plan : InboundPlan) : Prop where
  trash : ∀ t ∈ plan.trash, Cause input t ∧ isSafeRemoval S t = true
  renames : ∀ r ∈ plan.renames, Asked S input r

variable {docId : DocId}

theorem dead_eq_true : dead input docId = true ↔ ∃ ids, input.tombstones = some ids ∧ docId ∈ ids := by
  unfold dead
  cases input.tombstones with
  | none | some ids => simp

theorem mem_namedFiles {path : Path} (h : (docId, path) ∈ namedFiles input) :
    input.authoritative = true ∧ (∃ named, input.authoritativeRevoked = some named ∧ docId ∈ named) ∧
      ∃ files, input.localFiles = some files ∧ (docId, path) ∈ files := by
  unfold namedFiles at h
  split at h
  next named files hauth hnamed hfiles =>
    obtain ⟨hmem, hid⟩ := mem_filter.mp h
    exact ⟨hauth, ⟨named, hnamed, of_decide_eq_true hid⟩, files, hfiles, hmem⟩
  next => simp at h

/-! ## The pushes -/

variable {t : InboundTrash}

theorem Sound.pushTrash (h : Sound S input plan) (ht : Cause input t) : Sound S input (pushTrash S t plan) := by
  unfold Inbound.pushTrash
  by_cases hsafe : isSafeRemoval S t = false
  · rw [if_pos hsafe]
    exact ⟨h.trash, h.renames⟩
  · rw [if_neg hsafe]
    refine ⟨?_, h.renames⟩
    intro u hu
    rcases mem_snoc.1 hu with hold | hnew
    · exact h.trash u hold
    · rw [hnew]
      exact ⟨ht, Bool.eq_true_of_not_eq_false hsafe⟩

variable {loc : Path}

theorem Sound.pushRename {srv : Path} (h : Sound S input plan) (hserver : input.server.get docId = some srv)
    (hlocal : input.localNotes.get docId = some loc) :
    Sound S input (pushRename S (localPaths S input) docId loc srv plan) := by
  unfold Inbound.pushRename
  by_cases heq : loc = srv
  · rw [if_pos heq]
    exact h
  rw [if_neg heq]
  by_cases hsafe : isSafeNotePath S srv = false
  · rw [if_pos hsafe]
    exact ⟨h.trash, h.renames⟩
  rw [if_neg hsafe]
  by_cases hfree : pathKey S srv ∈ localPaths S input
  · rw [if_pos hfree]
    exact ⟨h.trash, h.renames⟩
  rw [if_neg hfree]
  refine ⟨h.trash, ?_⟩
  intro r hr
  rcases mem_snoc.1 hr with hold | hnew
  · exact h.renames r hold
  · rw [hnew]
    exact ⟨hserver, hlocal, Bool.eq_true_of_not_eq_false hsafe, hfree⟩

theorem Sound.suppressPath {path : Path} (h : Sound S input plan) : Sound S input (suppressPath path plan) :=
  ⟨h.trash, h.renames⟩

/-- what a push leaves as it was, and what it may only add to -/
structure Grows (plan plan' : InboundPlan) : Prop where
  createFolders : plan'.createFolders = plan.createFolders
  removeFolders : plan'.removeFolders = plan.removeFolders
  needsAccessCheck : plan'.needsAccessCheck = plan.needsAccessCheck
  suppress : plan.suppress ⊆ plan'.suppress
  rejected : plan.rejected ⊆ plan'.rejected

namespace Grows

variable {plan₁ plan₂ plan₃ : InboundPlan}

theorem refl (plan : InboundPlan) : Grows plan plan := ⟨rfl, rfl, rfl, List.Subset.refl _, List.Subset.refl _⟩

theorem trans (h : Grows plan₁ plan₂) (h' : Grows plan₂ plan₃) : Grows plan₁ plan₃ :=
  ⟨h'.createFolders.trans h.createFolders, h'.removeFolders.trans h.removeFolders,
    h'.needsAccessCheck.trans h.needsAccessCheck, List.Subset.trans h.suppress h'.suppress,
    List.Subset.trans h.rejected h'.rejected⟩

theorem foldl {α : Type*} {f : InboundPlan → α → InboundPlan} (hf : ∀ plan a, Grows plan (f plan a)) (l : List α)
    (plan : InboundPlan) : Grows plan (l.foldl f plan) := by
  induction l generalizing plan with
  | nil => exact refl plan
  | cons a l ih => exact (hf plan a).trans (ih (f plan a))

end Grows

theorem grows_pushTrash (t : InboundTrash) : Grows plan (pushTrash S t plan) := by
  unfold pushTrash
  split
  · exact ⟨rfl, rfl, rfl, List.Subset.refl _, subset_append_left _ _⟩
  · exact ⟨rfl, rfl, rfl, List.Subset.refl _, List.Subset.refl _⟩

theorem grows_pushRename {paths : List Path} {srv : Path} : Grows plan (pushRename S paths docId loc srv plan) := by
  unfold pushRename
  split_ifs
  · exact Grows.refl plan
  · exact ⟨rfl, rfl, rfl, List.Subset.refl _, subset_append_left _ _⟩
  · exact ⟨rfl, rfl, rfl, List.Subset.refl _, subset_append_left _ _⟩
  · exact ⟨rfl, rfl, rfl, List.Subset.refl _, List.Subset.refl _⟩

theorem grows_suppressPath (path : Path) : Grows plan (suppressPath path plan) :=
  ⟨rfl, rfl, rfl, fun _ h => mem_setAdd.mpr (.inl h), List.Subset.refl _⟩

theorem mem_suppressPath (path : Path) : path ∈ (suppressPath path plan).suppress := mem_setAdd.mpr (.inr rfl)

/-! ## One turn of the loop -/

theorem grows_planNote (plan : InboundPlan) (docId : DocId) : Grows plan (planNote S input plan docId) := by
  unfold planNote
  cases input.server.get docId with
  | some srv =>
    simp only [planListed]
    cases input.localNotes.get docId with
    | none => exact Grows.refl plan
    | some loc =>
      cases input.baseline.get docId with
      | none =>
        dsimp only
        split_ifs <;> exact Grows.refl plan
      | some prev =>
        dsimp only
        split_ifs
        · exact Grows.refl plan
        · exact grows_pushRename
        · exact Grows.refl plan
        · exact grows_pushRename
  | none =>
    cases input.baseline.get docId with
    | none =>
      simp only [planUnclaimed]
      cases input.localNotes.get docId with
      | none => exact Grows.refl plan
      | some loc =>
        split_ifs
        · exact (grows_suppressPath loc).trans (grows_pushTrash _)
        · exact Grows.refl plan
    | some prev =>
      simp only [planDead, planRevoked]
      cases input.localNotes.get docId with
      | none =>
        dsimp only
        split_ifs
        · exact ⟨rfl, rfl, rfl, List.Subset.refl _, List.Subset.refl _⟩
        · exact ⟨rfl, rfl, rfl, (grows_suppressPath prev).suppress, List.Subset.refl _⟩
        · exact Grows.refl plan
        · exact Grows.refl plan
      | some loc =>
        dsimp only
        split_ifs
        · exact (grows_suppressPath loc).trans (grows_pushTrash _)
        · exact (grows_suppressPath loc).trans (grows_pushTrash _)
        · exact grows_suppressPath loc

theorem sound_planNote (h : Sound S input plan) (docId : DocId) : Sound S input (planNote S input plan docId) := by
  unfold planNote
  cases hserver : input.server.get docId with
  | some srv =>
    simp only [planListed]
    cases hlocal : input.localNotes.get docId with
    | none => exact h
    | some loc =>
      cases input.baseline.get docId with
      | none =>
        dsimp only
        split_ifs <;> exact h
      | some prev =>
        dsimp only
        split_ifs
        · exact h
        · exact h.pushRename hserver hlocal
        · exact h
        · exact h.pushRename hserver hlocal
  | none =>
    cases hbaseline : input.baseline.get docId with
    | none =>
      simp only [planUnclaimed]
      cases hlocal : input.localNotes.get docId with
      | none => exact h
      | some loc =>
        split_ifs with hdead
        · exact h.suppressPath.pushTrash (.deleted hdead hserver hlocal)
        · exact h
    | some prev =>
      simp only [planDead, planRevoked]
      cases hlocal : input.localNotes.get docId with
      | none =>
        dsimp only
        split_ifs
        · exact ⟨h.trash, h.renames⟩
        · exact ⟨h.trash, h.renames⟩
        · exact h
        · exact h
      | some loc =>
        dsimp only
        split_ifs with hdead hanswered
        · exact h.suppressPath.pushTrash (.deleted hdead hserver hlocal)
        · exact h.suppressPath.pushTrash
            (.revoked hbaseline hserver hanswered (Bool.eq_false_of_not_eq_true hdead) hlocal)
        · exact h.suppressPath

variable {prev : Path}

/-- a document of the baseline that is gone from the server and still on disk is suppressed in its turn -/
theorem planNote_suppresses (hserver : input.server.get docId = none)
    (hbaseline : input.baseline.get docId = some prev) (hlocal : input.localNotes.get docId = some loc) :
    loc ∈ (planNote S input plan docId).suppress := by
  have hin : loc ∈ (suppressPath loc plan).suppress := mem_suppressPath loc
  simp only [planNote, hserver, hbaseline, planDead, planRevoked, hlocal]
  split_ifs
  · exact (grows_pushTrash _).suppress hin
  · exact (grows_pushTrash _).suppress hin
  · exact hin

/-! ## The loops -/

theorem sound_foldl {α : Type*} {f : InboundPlan → α → InboundPlan} {l : List α}
    (hf : ∀ plan, ∀ a ∈ l, Sound S input plan → Sound S input (f plan a)) (h : Sound S input plan) :
    Sound S input (l.foldl f plan) :=
  List.foldlRecOn l f h fun plan hplan a ha => hf plan a ha hplan

theorem mem_docIds_of_baseline (h : input.baseline.get docId = some prev) : docId ∈ docIds input := by
  unfold docIds
  rw [mem_eraseDups, append_assoc]
  exact mem_append_left _ (PathsByDocId.mem_keys_of_get h)

theorem planNotes_suppresses (hserver : input.server.get docId = none)
    (hbaseline : input.baseline.get docId = some prev) (hlocal : input.localNotes.get docId = some loc) :
    loc ∈ (planNotes S input plan).suppress := by
  -- the loop visits the document once, and what comes after its turn only adds
  obtain ⟨before, after, hsplit⟩ := append_of_mem (mem_docIds_of_baseline hbaseline)
  unfold planNotes
  rw [hsplit, foldl_append, foldl_cons]
  exact (Grows.foldl grows_planNote after _).suppress (planNote_suppresses hserver hbaseline hlocal)

theorem grows_planBinary (plan : InboundPlan) (file : DocId × Path) : Grows plan (planBinary S plan file) :=
  grows_pushTrash _

@[simp] theorem planFolders_trash : (planFolders S input).trash = [] := rfl

@[simp] theorem planFolders_renames : (planFolders S input).renames = [] := rfl

theorem sound_planFolders : Sound S input (planFolders S input) := ⟨by simp, by simp⟩

theorem sound_planned : Sound S input (planned S input) := by
  have hnotes : Sound S input (planNotes S input (planFolders S input)) :=
    sound_foldl (fun plan docId _ hplan => sound_planNote hplan docId) sound_planFolders
  have hbinaries : Sound S input (planBinaries S input (planNotes S input (planFolders S input))) :=
    sound_foldl (fun plan file hfile hplan => hplan.pushTrash (.named hfile)) hnotes
  refine ⟨?_, hbinaries.renames⟩
  intro t ht
  exact hbinaries.trash t ((mem_insertionSort _).mp ht)

theorem grows_planned : Grows (planFolders S input) (planned S input) := by
  have h : Grows (planFolders S input) (planBinaries S input (planNotes S input (planFolders S input))) :=
    (Grows.foldl grows_planNote (docIds input) _).trans (Grows.foldl grows_planBinary (namedFiles input) _)
  exact ⟨h.createFolders, h.removeFolders, h.needsAccessCheck, h.suppress, h.rejected⟩

theorem planned_suppresses (hserver : input.server.get docId = none)
    (hbaseline : input.baseline.get docId = some prev) (hlocal : input.localNotes.get docId = some loc) :
    loc ∈ (planned S input).suppress :=
  (Grows.foldl grows_planBinary (namedFiles input) _).suppress (planNotes_suppresses hserver hbaseline hlocal)

/-! ## The breakers only take away -/

variable {reason : TrashReason}

theorem mem_capGroup {trash : List InboundTrash} :
    t ∈ capGroup input reason trash ↔ t ∈ trash ∧ t.reason = reason ∧ exempt input t = false := by
  simp [capGroup]

structure Trimmed (plan plan' : InboundPlan) : Prop where
  createFolders : plan'.createFolders = plan.createFolders
  removeFolders : plan'.removeFolders = plan.removeFolders
  suppress : plan'.suppress = plan.suppress
  trash : plan'.trash.Sublist plan.trash
  renames : plan'.renames.Sublist plan.renames
  rejected : plan.rejected ⊆ plan'.rejected

theorem Trimmed.trans {plan₁ plan₂ plan₃ : InboundPlan} (h : Trimmed plan₁ plan₂) (h' : Trimmed plan₂ plan₃) :
    Trimmed plan₁ plan₃ :=
  ⟨h'.createFolders.trans h.createFolders, h'.removeFolders.trans h.removeFolders, h'.suppress.trans h.suppress,
    h'.trash.trans h.trash, h'.renames.trans h.renames, List.Subset.trans h.rejected h'.rejected⟩

theorem trimmed_capTrash (reason : TrashReason) (cap : ℕ) (label : String) :
    Trimmed plan (capTrash input reason cap label plan) := by
  unfold capTrash
  dsimp only
  split
  · exact ⟨rfl, rfl, rfl, List.Sublist.refl _, List.Sublist.refl _, List.Subset.refl _⟩
  · exact ⟨rfl, rfl, rfl, filter_sublist, List.Sublist.refl _, subset_append_left _ _⟩

theorem trimmed_secondOpinion (allRevoked mapped : ℕ) : Trimmed plan (secondOpinion allRevoked mapped plan) :=
  ⟨rfl, rfl, rfl, List.Sublist.refl _, List.Sublist.refl _, List.Subset.refl _⟩

theorem trimmed_capRenames (mapped : ℕ) : Trimmed plan (capRenames mapped plan) := by
  unfold capRenames
  split
  · exact ⟨rfl, rfl, rfl, List.Sublist.refl _, List.Sublist.refl _, List.Subset.refl _⟩
  · exact ⟨rfl, rfl, rfl, List.Sublist.refl _, nil_sublist _, subset_append_left _ _⟩

theorem trimmed_applyBreakers : Trimmed plan (applyBreakers input plan) :=
  ((trimmed_capTrash _ _ _).trans (trimmed_capTrash _ _ _)).trans
    ((trimmed_secondOpinion _ _).trans (trimmed_capRenames _))

/-- a cap either held, or the whole group is gone -/
theorem capGroup_capTrash_le (reason : TrashReason) (cap : ℕ) (label : String) :
    (capGroup input reason (capTrash input reason cap label plan).trash).length ≤ cap := by
  unfold capTrash
  dsimp only
  split
  next hle => exact hle
  next =>
    have hnone : capGroup input reason (plan.trash.filter (· ∉ capGroup input reason plan.trash)) = [] := by
      rw [eq_nil_iff_forall_not_mem]
      intro t ht
      obtain ⟨hmem, hgroup⟩ := mem_capGroup.mp ht
      obtain ⟨htrash, hnot⟩ := mem_filter.mp hmem
      exact of_decide_eq_true hnot (mem_capGroup.mpr ⟨htrash, hgroup⟩)
    rw [hnone]
    exact Nat.zero_le cap

/-- a group over its cap is refused whole, with a report for each of its entries -/
theorem capTrash_refuses {cap : ℕ} (label : String) (hover : cap < (capGroup input reason plan.trash).length)
    (ht : t ∈ capGroup input reason plan.trash) :
    t ∉ (capTrash input reason cap label plan).trash ∧
      trashRefusal (trashCapReason (capGroup input reason plan.trash).length label cap) t ∈
        (capTrash input reason cap label plan).rejected := by
  unfold capTrash
  rw [if_neg (Nat.not_le.mpr hover)]
  constructor
  · intro hmem
    exact of_decide_eq_true (mem_filter.mp hmem).2 ht
  · exact mem_append_right _ (mem_map_of_mem ht)

/-- the breaker for one reason leaves the group of the other as it was -/
theorem capGroup_capTrash_of_ne {other : TrashReason} (hne : reason ≠ other) (cap : ℕ) (label : String) :
    capGroup input other (capTrash input reason cap label plan).trash = capGroup input other plan.trash := by
  unfold capTrash
  dsimp only
  split
  · rfl
  · unfold capGroup
    rw [filter_filter]
    refine filter_congr fun t ht => ?_
    by_cases hother : t.reason = other
    · simp [hother, mem_filter, hne.symm]
    · simp [hother]

theorem mem_foldl_setAdd {l : List InboundTrash} {s : List DocId} :
    docId ∈ l.foldl (fun s t => setAdd s t.docId) s ↔ docId ∈ s ∨ ∃ t ∈ l, t.docId = docId := by
  induction l generalizing s with
  | nil => simp
  | cons t l ih =>
    rw [foldl_cons, ih, mem_setAdd]
    simp only [mem_cons, exists_eq_or_imp, or_assoc]
    constructor
    · rintro (h | rfl | h)
      · exact .inl h
      · exact .inr (.inl rfl)
      · exact .inr (.inr h)
    · rintro (h | rfl | h)
      · exact .inl h
      · exact .inr (.inl rfl)
      · exact .inr (.inr h)

theorem mem_secondOpinion {allRevoked mapped : ℕ} (ht : t ∈ plan.trash) (hreason : t.reason = .revoked)
    (howed : t.binary = true ∨ revokeCap mapped < allRevoked) :
    t.docId ∈ (secondOpinion allRevoked mapped plan).needsAccessCheck := by
  unfold secondOpinion
  rw [mem_foldl_setAdd]
  rcases howed with hbinary | hover
  · right
    exact ⟨t, by simp [ht, hbinary, hreason], rfl⟩
  · left
    rw [if_pos hover, mem_eraseDups]
    exact mem_map_of_mem (mem_filter.mpr ⟨ht, decide_eq_true hreason⟩)

theorem capRenames_length (mapped : ℕ) : (capRenames mapped plan).renames.length ≤ renameCap mapped := by
  unfold capRenames
  split
  next hle => exact hle
  next => exact Nat.zero_le _

@[simp] theorem capRenames_trash (mapped : ℕ) : (capRenames mapped plan).trash = plan.trash := by
  unfold capRenames
  split <;> rfl

@[simp] theorem capRenames_needsAccessCheck (mapped : ℕ) :
    (capRenames mapped plan).needsAccessCheck = plan.needsAccessCheck := by
  unfold capRenames
  split <;> rfl

/-! ## The plan -/

/-- the plan once both trash budgets were applied -/
def budgeted (S : Strings) (input : InboundInput) : InboundPlan :=
  capTrash input .revoked (revokeCap input.baseline.length) "access removals"
    (capTrash input .deleted (trashCap input.baseline.length) "deletions" (planned S input))

theorem planInbound_eq : planInbound S input = capRenames input.baseline.length
    (secondOpinion (revokedTrash (planned S input).trash).length input.baseline.length (budgeted S input)) := by
  rw [planInbound, applyBreakers, budgeted]

theorem planInbound_trash : (planInbound S input).trash = (budgeted S input).trash := by
  rw [planInbound_eq, capRenames_trash, secondOpinion]

theorem trimmed_planInbound : Trimmed (planned S input) (planInbound S input) := trimmed_applyBreakers

theorem trimmed_budgeted_planInbound : Trimmed (budgeted S input) (planInbound S input) := by
  rw [planInbound_eq]
  exact (trimmed_secondOpinion _ _).trans (trimmed_capRenames _)

theorem cause_of_mem (ht : t ∈ (planInbound S input).trash) : Cause input t ∧ isSafeRemoval S t = true :=
  sound_planned.trash t (trimmed_planInbound.trash.subset ht)

theorem asked_of_mem {r : InboundRename} (hr : r ∈ (planInbound S input).renames) : Asked S input r :=
  sound_planned.renames r (trimmed_planInbound.renames.subset hr)

theorem planInbound_createFolders :
    (planInbound S input).createFolders = sortParentsFirst ((missingFolders S input).filter isSafeFolderPath) :=
  trimmed_planInbound.createFolders.trans grows_planned.createFolders

theorem planInbound_removeFolders :
    (planInbound S input).removeFolders = sortChildrenFirst (movedFolders S input ++
      (tombstonedFolders S input).filter isSafeFolderPath ++
        if folderCapBlown S input then [] else revokedFolders S input) := by
  rw [trimmed_planInbound.removeFolders, grows_planned.removeFolders]
  simp [planFolders]

/-- the cap of the group a removal belongs to -/
def capOf (input : InboundInput) : TrashReason → ℕ
  | .deleted => trashCap input.baseline.length
  | .revoked => revokeCap input.baseline.length

theorem capGroup_planInbound_le (reason : TrashReason) :
    (capGroup input reason (planInbound S input).trash).length ≤ capOf input reason := by
  rw [planInbound_trash]
  cases reason with
  | deleted =>
    unfold budgeted
    rw [capGroup_capTrash_of_ne (by decide)]
    exact capGroup_capTrash_le _ _ _
  | revoked => exact capGroup_capTrash_le _ _ _

/-- an over-cap group is refused whole, and each of its entries is reported -/
theorem planInbound_refuses (hover : capOf input reason < (capGroup input reason (planned S input).trash).length)
    (ht : t ∈ capGroup input reason (planned S input).trash) :
    t ∉ (planInbound S input).trash ∧
      ∃ r ∈ (planInbound S input).rejected, r.kind = .trash ∧ r.docId = some t.docId ∧ r.path = t.path := by
  rw [planInbound_trash]
  cases reason with
  | deleted =>
    obtain ⟨hgone, hreported⟩ := capTrash_refuses "deletions" hover ht
    have hmore : Trimmed _ (budgeted S input) := trimmed_capTrash _ _ _
    have hkept := trimmed_budgeted_planInbound.rejected (hmore.rejected hreported)
    exact ⟨fun hmem => hgone (hmore.trash.subset hmem), _, hkept, rfl, rfl, rfl⟩
  | revoked =>
    have hsame : capGroup input .revoked (capTrash input .deleted (trashCap input.baseline.length) "deletions"
        (planned S input)).trash = capGroup input .revoked (planned S input).trash :=
      capGroup_capTrash_of_ne (by decide) _ _
    rw [← hsame] at hover ht
    obtain ⟨hgone, hreported⟩ := capTrash_refuses "access removals" hover ht
    have hkept := trimmed_budgeted_planInbound.rejected hreported
    exact ⟨hgone, _, hkept, rfl, rfl, rfl⟩

theorem planInbound_asks (ht : t ∈ (planInbound S input).trash) (hreason : t.reason = .revoked)
    (howed : t.binary = true ∨ revokeCap input.baseline.length < (revokedTrash (planned S input).trash).length) :
    t.docId ∈ (planInbound S input).needsAccessCheck := by
  rw [planInbound_trash] at ht
  have hmem : t.docId ∈ (secondOpinion (revokedTrash (planned S input).trash).length input.baseline.length
      (budgeted S input)).needsAccessCheck := mem_secondOpinion ht hreason howed
  rw [planInbound_eq, capRenames_needsAccessCheck]
  exact hmem

theorem revoked_trash (ht : Cause input t) (hreason : t.reason = .revoked) (hnote : t.binary = false) :
    (∃ prev, input.baseline.get t.docId = some prev) ∧ input.server.get t.docId = none ∧
      ∃ ids, input.tombstones = some ids ∧ t.docId ∉ ids := by
  cases ht with
  | deleted hdead hserver hlocal => simp at hreason
  | named hfile => simp at hnote
  | revoked hbaseline hserver hanswered hdead hlocal =>
    obtain ⟨ids, hids⟩ := Option.isSome_iff_exists.mp hanswered
    refine ⟨⟨_, hbaseline⟩, hserver, ids, hids, ?_⟩
    intro hmem
    have htrue := dead_eq_true.mpr ⟨ids, hids, hmem⟩
    rw [htrue] at hdead
    exact Bool.noConfusion hdead

theorem unlisted_of_note (ht : Cause input t) (hnote : t.binary = false) : input.server.get t.docId = none := by
  cases ht with
  | deleted hdead hserver hlocal | revoked hbaseline hserver hanswered hdead hlocal => exact hserver
  | named hfile => simp at hnote

/-- what an inbound plan may do -/
structure SafePlan (S : Strings) (input : InboundInput) (plan : InboundPlan) : Prop where
  /-- deleted: tombstoned, not listed, and on disk under this id -/
  deleted : ∀ t ∈ plan.trash, t.reason = .deleted →
    (∃ ids, input.tombstones = some ids ∧ t.docId ∈ ids) ∧ input.server.get t.docId = none ∧
      input.localNotes.get t.docId = some t.path
  /-- revoked: in the baseline, absent from the listing and from tombstones that were fetched -/
  revoked : ∀ t ∈ plan.trash, t.reason = .revoked → t.binary = false →
    (∃ prev, input.baseline.get t.docId = some prev) ∧ input.server.get t.docId = none ∧
      ∃ ids, input.tombstones = some ids ∧ t.docId ∉ ids
  /-- a binary: named by the server on an authoritative pass -/
  binary : ∀ t ∈ plan.trash, t.binary = true →
    t.reason = .revoked ∧ input.authoritative = true ∧
      (∃ named, input.authoritativeRevoked = some named ∧ t.docId ∈ named) ∧
      ∃ files, input.localFiles = some files ∧ (t.docId, t.path) ∈ files
  /-- every path a note moves to, a file leaves or a folder is created or removed at is a safe one -/
  safeFolders : ∀ path ∈ plan.createFolders ++ plan.removeFolders, isSafeFolderPath path = true
  safeRenames : ∀ r ∈ plan.renames, isSafeNotePath S r.toPath = true
  safeTrash : ∀ t ∈ plan.trash, isSafeRemoval S t = true
  /-- no group outgrows its cap: removals that are not exempt, folders that left the visible set, moves -/
  capped : ∀ reason, (capGroup input reason plan.trash).length ≤ capOf input reason
  exemption : ∀ t, exempt input t = true → t.reason = .revoked ∧ input.authoritative = true ∧
    ∀ named, input.authoritativeRevoked = some named → t.docId ∈ named
  cappedFolders : ∃ gone ⊆ revokedFolders S input,
    (input.authoritative = true ∨ gone.length ≤ revokeCap (recordedFolders input)) ∧
      plan.removeFolders.Perm
        (movedFolders S input ++ (tombstonedFolders S input).filter isSafeFolderPath ++ gone)
  cappedRenames : plan.renames.length ≤ renameCap input.baseline.length
  /-- a group over its cap is refused whole, and every entry of it is reported -/
  refused : ∀ reason, capOf input reason < (capGroup input reason (planned S input).trash).length →
    ∀ t ∈ capGroup input reason (planned S input).trash, t ∉ plan.trash ∧
      ∃ r ∈ plan.rejected, r.kind = .trash ∧ r.docId = some t.docId ∧ r.path = t.path
  /-- what the lift keeps of a revoked group over its cap, and every binary, owes the access check -/
  checked : ∀ t ∈ plan.trash, t.reason = .revoked →
    t.binary = true ∨ revokeCap input.baseline.length < (revokedTrash (planned S input).trash).length →
    t.docId ∈ plan.needsAccessCheck
  /-- no note is both moved and removed -/
  apart : ∀ r ∈ plan.renames, ∀ t ∈ plan.trash, t.binary = false → r.docId ≠ t.docId
  /-- what is gone from the server and still on disk is not registered again -/
  suppressed : ∀ docId ∈ input.baseline.keys, input.server.get docId = none →
    ∀ path, input.localNotes.get docId = some path → path ∈ plan.suppress

theorem PathsByDocId.get_of_mem_keys {m : PathsByDocId} (h : docId ∈ m.keys) : ∃ path, m.get docId = some path := by
  obtain ⟨e, he, hid⟩ := mem_map.mp h
  have hsome : (m.find? (·.1 = docId)).isSome = true := find?_isSome.mpr ⟨e, he, decide_eq_true hid⟩
  obtain ⟨found, hfound⟩ := Option.isSome_iff_exists.mp hsome
  exact ⟨found.2, by rw [get, hfound]; rfl⟩

theorem safe_createFolders : ∀ path ∈ (planInbound S input).createFolders, isSafeFolderPath path = true := by
  intro path hpath
  rw [planInbound_createFolders, mem_sortParentsFirst] at hpath
  exact (mem_filter.mp hpath).2

theorem safe_movedFolders : ∀ path ∈ movedFolders S input, isSafeFolderPath path = true := by
  intro path hpath
  unfold movedFolders at hpath
  split at hpath
  next =>
    obtain ⟨e, he, rfl⟩ := mem_map.mp hpath
    have hkept := (mem_filter.mp he).2
    dsimp only at hkept
    split at hkept
    · exact absurd hkept Bool.false_ne_true
    · exact (of_decide_eq_true hkept).2.2
  next => simp at hpath

theorem safe_removeFolders : ∀ path ∈ (planInbound S input).removeFolders, isSafeFolderPath path = true := by
  intro path hpath
  rw [planInbound_removeFolders, mem_sortChildrenFirst] at hpath
  rcases mem_append.mp hpath with hfirst | hrevoked
  · rcases mem_append.mp hfirst with hmoved | hdeleted
    · exact safe_movedFolders path hmoved
    · exact (mem_filter.mp hdeleted).2
  · split at hrevoked
    · simp at hrevoked
    · exact (mem_filter.mp hrevoked).2

theorem planInbound_cappedFolders : ∃ gone ⊆ revokedFolders S input,
    (input.authoritative = true ∨ gone.length ≤ revokeCap (recordedFolders input)) ∧
      (planInbound S input).removeFolders.Perm
        (movedFolders S input ++ (tombstonedFolders S input).filter isSafeFolderPath ++ gone) := by
  refine ⟨if folderCapBlown S input then [] else revokedFolders S input, ?_, ?_, ?_⟩
  · split
    · exact nil_subset _
    · exact List.Subset.refl _
  · by_cases hauth : input.authoritative = true
    · exact .inl hauth
    · right
      split
      next => exact Nat.zero_le _
      next hblown => exact Nat.le_of_not_lt fun hlt => hblown ⟨Bool.eq_false_of_not_eq_true hauth, hlt⟩
  · rw [planInbound_removeFolders]
    exact perm_insertionSort _ _

theorem exempt_eq_true (h : exempt input t = true) : t.reason = .revoked ∧
    input.authoritative = true ∧ ∀ named, input.authoritativeRevoked = some named → t.docId ∈ named := by
  obtain ⟨hfirst, hnamed⟩ := Bool.and_eq_true_iff.mp h
  obtain ⟨hauth, hreason⟩ := Bool.and_eq_true_iff.mp hfirst
  refine ⟨of_decide_eq_true hreason, hauth, ?_⟩
  intro named hsome
  rw [hsome] at hnamed
  exact of_decide_eq_true hnamed

/-- paths of ASCII letters -/
def ascii : Strings := { normalize := id, toLowerCase := List.map Char.toLower }

def sixPaths : PathsByDocId :=
  [(0, "a.md".toList), (1, "b.md".toList), (2, "c.md".toList), (3, "d.md".toList), (4, "e.md".toList),
    (5, "f.md".toList)]

/-- six agreed notes, all tombstoned in one pass -/
def sixDeleted : InboundInput :=
  { server := [], tombstones := some [0, 1, 2, 3, 4, 5], baseline := sixPaths, localNotes := sixPaths
    serverFolders := [], localFolders := [], folderTombstones := none, localFolderIds := none, serverFolderIds := none
    authoritative := false, authoritativeRevoked := none, localFiles := none }

/-- a note that lies in a directory the planner would not move one to, and that the server moved out of it -/
def movedOut : InboundInput :=
  { server := [(0, "a.md".toList)], tombstones := none, baseline := [(0, "build/a.md".toList)]
    localNotes := [(0, "build/a.md".toList)], serverFolders := [], localFolders := [], folderTombstones := none
    localFolderIds := none, serverFolderIds := none, authoritative := false, authoritativeRevoked := none
    localFiles := none }

end Baalda.Inbound
