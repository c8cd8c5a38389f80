/-
`resetDocCrdt`: when a discarded history stays discarded.

A reset keeps, as a ghost, the structs the document's history had when its DELETE started (`old`): all that was appended
or seeded before. From the statement that removes a part of the old document on, that part
stays free of them (`Clean`, by how far the reset is).

`ResetsHold` lists what an interleaving must not do:
- commit an append that carries a struct of the discarded history once the DELETE has started, which every append that
  was in flight then does;
- let a compaction that has read a part of the discarded history outlive the snapshot's replacement: its upsert has a
  higher `seq` than the reset's row, which is written with `seq` 0.
The seed comes from a fresh client, so no discarded history holds one of its structs.
-/
import Baalda.Lib.Slots
import Baalda.Server.VectorCache

namespace Baalda.DocStore

open Crdt Crdt.Update List

/-- what the compaction in progress has read, or merged of it -/
def readBy : Option Compaction → Update
  | none | some .locked => ⊥
  | some (.snapshotRead snap) => content snap
  | some (.logRead snap rows) => mergeParts snap rows
  | some (.upserted row _ _ _ _) | some (.deleted row _ _) | some (.invalidated row _ _ _) => row.snapshot

variable {snap : Option SnapshotRow} {rows : List UpdateRow}

theorem mem_mergeParts {i : Id} :
    i ∈ (mergeParts snap rows).structs ↔ i ∈ (content snap).structs ∨ ∃ r ∈ rows, i ∈ r.update.structs := by
  simp [mergeParts, updates, mem_structs_mergeAll]

theorem mergeParts_disjoint {old : Finset Id} (hs : Disjoint old (content snap).structs)
    (hr : ∀ r ∈ rows, Disjoint old r.update.structs) : Disjoint old (mergeParts snap rows).structs := by
  rw [Finset.disjoint_left]
  intro i hi hm
  rcases mem_mergeParts.1 hm with hm | ⟨r, hrm, hm⟩
  · exact Finset.disjoint_left.1 hs hi hm
  · exact Finset.disjoint_left.1 (hr r hrm) hi hm

/-! ## An unkeyed document is not converted -/

/-- the dual content a conversion has still to insert -/
def pendingDual : Option Compaction → Option Update
  | some (.upserted _ _ _ pending _) => pending
  | _ => none

/-- without a key, no reset is refused and no dual row is written; with one, no reset starts -/
structure KeyOk (s : St) : Prop where
  reset : s.keyed = true → s.resets = []
  dual : s.keyed = false → pendingDual s.compaction = none ∧ legacyRow s.compaction = none

theorem keyOk_init (keyed : Bool) : KeyOk (init keyed) := ⟨fun _ => rfl, fun _ => ⟨rfl, rfl⟩⟩

variable {s : St}

theorem keyOk_step {a : Action} (h : KeyOk s) : KeyOk (step s a) := by
  have hset : ∀ {i : ℕ} {r : Reset}, s.resets[i]? = some r → s.keyed = true → False := fun hr hk => by
    rw [h.reset hk] at hr
    simp at hr
  refine step_preserves KeyOk h fun t ht => ?_
  cases ht with
  | compactLock _ | compactReadSnapshot _ | compactReadLog _ | compactEnd | compactCommit _ =>
    exact ⟨h.reset, fun _ => ⟨rfl, rfl⟩⟩
  | compactUpsert hc hok => exact ⟨h.reset, fun hk => ⟨(hok.1 hk).2, rfl⟩⟩
  | compactInsertLegacy hc =>
    refine ⟨h.reset, fun hk => ?_⟩
    have hd := (h.dual hk).1
    rw [hc] at hd
    simp [pendingDual] at hd
  | compactDelete hc | compactInvalidate ok hc =>
    refine ⟨h.reset, fun hk => ⟨rfl, ?_⟩⟩
    have hd := (h.dual hk).2
    rwa [hc] at hd
  | resetBegin seed hk => exact ⟨fun ht => absurd (hk.symm.trans ht) (by simp), h.dual⟩
  | resetDelete hr _ | resetUpsert hr _ _ | resetRemember ok hr _ => exact ⟨fun ht => (hset hr ht).elim, h.dual⟩
  | _ => exact ⟨h.reset, h.dual⟩

theorem keyOk_run (keyed : Bool) (as : List Action) : KeyOk (run (init keyed) as) :=
  Machine.run_inv_all KeyOk (fun _ _ => keyOk_step) (keyOk_init keyed)

/-- **Keyed documents are not reset.** -/
theorem reset_refused_when_keyed (as : List Action) : (run (init true) as).resets = [] := by
  have hk : ∀ as, (run (init true) as).keyed = true := fun as =>
    Machine.run_inv_all (fun s : St => s.keyed = true)
      (fun s a h => step_preserves (fun t => t.keyed = true) h fun t ht => by cases ht <;> exact h) rfl
  exact (keyOk_run true as).reset (hk as)

/-! ## What a reset has cleaned -/

/-- the part of the document a reset has got rid of, by how far it is, is free of the discarded history -/
def Clean (s : St) (r : Reset) : Prop :=
  match r.stage with
  | .deleting => ∀ x ∈ s.db.log, x ∉ r.dels → Disjoint r.old x.update.structs
  | .deleted => ∀ x ∈ s.db.log, Disjoint r.old x.update.structs
  | .upserted | .returned =>
    (∀ x ∈ s.db.log, Disjoint r.old x.update.structs) ∧ Disjoint r.old (content s.db.snapshot).structs ∧
      Disjoint r.old (readBy s.compaction).structs

/-- what an interleaving must not do to the resets in progress and the finished ones -/
def ResetsHold (s : St) : Action → Prop
  | .appendCommit id => ∀ r ∈ s.resets, ∀ x ∈ s.inflight, x.id = id → Disjoint r.old x.update.structs
  | .resetUpsert i => ∀ r ∈ s.resets[i]?,
      Disjoint r.old (readBy s.compaction).structs ∧ ∀ q ∈ s.resets, Disjoint q.old r.seed.structs
  | _ => True

instance (s : St) (a : Action) : Decidable (ResetsHold s a) := by
  apply @Action.casesOn (fun a => Decidable (ResetsHold s a)) a <;> intros <;> dsimp only [ResetsHold] <;> infer_instance

structure ResetInv (s : St) : Prop where
  key : KeyOk s
  clean : ∀ r ∈ s.resets, Clean s r

theorem resetInv_init (keyed : Bool) : ResetInv (init keyed) := ⟨keyOk_init keyed, by simp [init]⟩

/-- a clean part stays clean when the log only loses rows, and the snapshot and what is read of it hold no more -/
theorem Clean.mono {t : St} {r : Reset} (h : Clean s r)
    (hl : ∀ x ∈ t.db.log, x ∈ s.db.log ∨ Disjoint r.old x.update.structs)
    (hs : (∀ x ∈ s.db.log, Disjoint r.old x.update.structs) → Disjoint r.old (content s.db.snapshot).structs →
      Disjoint r.old (readBy s.compaction).structs → Disjoint r.old (content t.db.snapshot).structs ∧
      Disjoint r.old (readBy t.compaction).structs)
    : Clean t r := by
  have hrest : (∀ x ∈ s.db.log, Disjoint r.old x.update.structs) → ∀ x ∈ t.db.log, Disjoint r.old x.update.structs :=
    fun hall x hx => (hl x hx).elim (hall x) id
  unfold Clean at h ⊢
  cases hst : r.stage with
  | deleting =>
    simp only [hst] at h ⊢
    intro x hx hxd
    rcases hl x hx with hx | hx
    · exact h x hx hxd
    · exact hx
  | deleted =>
    simp only [hst] at h ⊢
    exact hrest h
  | upserted | returned =>
    simp only [hst] at h ⊢
    exact ⟨hrest h.1, hs h.1 h.2.1 h.2.2⟩

/-- the same, for a step of the compaction: the committed rows stay -/
theorem Clean.compaction {r : Reset} (h : Clean s r) {c : Option Compaction} {n : ℕ}
    (hc : (∀ x ∈ s.db.log, Disjoint r.old x.update.structs) → Disjoint r.old (content s.db.snapshot).structs →
      Disjoint r.old (readBy s.compaction).structs → Disjoint r.old (readBy c).structs)
    : Clean { s with nextId := n, compaction := c } r :=
  h.mono (fun _ => .inl) fun hl hs hr => ⟨hs, hc hl hs hr⟩

theorem disjoint_bot_structs (old : Finset Id) : Disjoint old (⊥ : Update).structs := Finset.disjoint_empty_right _

/-- **Step.** What a reset has cleaned stays clean. -/
theorem clean_step {a : Action} (h : ResetInv s) (ha : ResetsHold s a) :
    ∀ r ∈ (step s a).resets, Clean (step s a) r := by
  have hcl := h.clean
  refine step_preserves (fun t => ∀ r ∈ t.resets, Clean t r) h.clean fun t ht => ?_
  cases ht with
  | @appendCommit x hm =>
    intro r hr
    refine (hcl r hr).mono (fun y hy => ?_) fun _ hs hc => ⟨hs, hc⟩
    rcases mem_snoc.1 hy with hy | rfl
    · exact .inl hy
    · exact .inr (ha r hr _ hm rfl)
  | compactLock _ | compactEnd => exact fun r hr => (hcl r hr).compaction fun _ _ _ => disjoint_bot_structs _
  | compactReadSnapshot _ => exact fun r hr => (hcl r hr).compaction fun _ hs _ => hs
  | compactReadLog hc =>
    intro r hr
    refine (hcl r hr).compaction fun hl _ hrd => ?_
    rw [hc] at hrd
    exact mergeParts_disjoint hrd hl
  | compactUpsert hc _ | compactInsertLegacy hc | compactDelete hc | compactInvalidate ok hc =>
    intro r hr
    refine (hcl r hr).compaction fun _ _ hrd => ?_
    rwa [hc] at hrd
  | @compactCommit row legacy dels inval hc =>
    intro r hr
    -- a document with a reset has no key, so the commit adds no dual row
    have hkey : s.keyed = false := by
      by_contra hk
      rw [h.key.reset (by simpa using hk)] at hr
      simp at hr
    have hnone : legacy = none := by
      have hd := (h.key.dual hkey).2
      rwa [hc] at hd
    refine (hcl r hr).mono (fun y hy => ?_) fun _ _ hrd => ⟨?_, disjoint_bot_structs _⟩
    · rcases mem_commitDb_log.1 hy with ⟨hy, -⟩ | hy
      · exact .inl hy
      · rw [hnone] at hy
        cases hy
    · rwa [hc] at hrd
  | resetBegin seed _ =>
    intro r hr
    rcases mem_snoc.1 hr with hr | rfl
    · exact hcl r hr
    · exact fun x hx hxd => absurd hx hxd
  | @resetDelete i q hq hst =>
    intro r hr
    rcases mem_or_eq_of_mem_set hr with hr | rfl
    · exact (hcl r hr).mono (fun x hx => .inl (mem_filter.1 hx).1) fun _ hs hc => ⟨hs, hc⟩
    · have hq' := hcl q (mem_of_getElem? hq)
      simp only [Clean, hst] at hq'
      intro x hx
      obtain ⟨hxl, hxd⟩ := mem_filter.1 hx
      exact hq' x hxl (by simpa using hxd)
  | @resetUpsert i q hq hst _ =>
    obtain ⟨hread, hseed⟩ := ha q hq
    intro r hr
    rcases mem_or_eq_of_mem_set hr with hr | rfl
    · exact (hcl r hr).mono (fun x hx => .inl hx) fun _ _ hc => ⟨hseed r hr, hc⟩
    · have hqm := mem_of_getElem? hq
      have hq' := hcl q hqm
      simp only [Clean, hst] at hq'
      exact ⟨hq', hseed q hqm, hread⟩
  | @resetRemember i q ok hq hst =>
    intro r hr
    have hkeep : ∀ q' : Reset, Clean s q' → ∀ v, Clean { s with db := { s.db with vector := v } } q' :=
      fun q' h' v => h'.mono (fun _ => .inl) fun _ hs hc => ⟨hs, hc⟩
    have hq' := hcl q (mem_of_getElem? hq)
    simp only [Clean, hst] at hq'
    rcases mem_or_eq_of_mem_set hr with hm | rfl
    · cases ok with
      | false => exact hcl r hm
      | true => exact hkeep r (hcl r hm) _
    · cases ok <;> exact hq'
  | _ => exact hcl

theorem resetInv_run (keyed : Bool) {as : List Action} (h : Machine.Guarded step ResetsHold (init keyed) as) :
    ResetInv (run (init keyed) as) :=
  Machine.run_inv (fun _ _ hi ha => ⟨keyOk_step hi.key, clean_step hi ha⟩) (resetInv_init keyed) h

/-- nothing a returned reset discarded is stored -/
def ResetFinal (s : St) : Prop := ∀ r ∈ s.resets, r.stage = .returned → Disjoint r.old s.db.stored.structs

instance (s : St) : Decidable (ResetFinal s) := inferInstanceAs (Decidable (∀ r ∈ s.resets, _))

/-- **A reset is final, along every run that holds to it.** Once a reset has returned, no struct of the history it
discarded is in the snapshot or in the log, in any later state. -/
theorem reset_is_final (keyed : Bool) (as : List Action) (h : Machine.Guarded step ResetsHold (init keyed) as) :
    ResetFinal (run (init keyed) as) := by
  intro r hr hst
  have hc := (resetInv_run keyed h).clean r hr
  simp only [Clean, hst] at hc
  exact mergeParts_disjoint hc.2.1 hc.1

/-- the text a repair seeds the document with, from a fresh client -/
def seedText : Update := ⟨{⟨9, 0⟩}, ∅⟩

/-- a reset, an append and a compaction after it -/
def resetRun : List Action :=
  [.appendStart firstEdit, .appendCommit 1, .resetBegin seedText, .resetDelete 0, .resetUpsert 0, .resetRemember 0 true,
    .appendStart otherEdit, .appendCommit 2, .compactLock, .compactReadSnapshot, .compactReadLog, .compactUpsert 0 none,
    .compactDelete, .compactInvalidate true, .compactCommit]

theorem reset_run_is_final : ResetFinal (run (init false) resetRun) := reset_is_final false resetRun (by decide)

/-- the compaction reads before the reset and writes after it -/
def staleMergeRun : List Action :=
  [.appendStart firstEdit, .appendCommit 1, .compactLock, .compactReadSnapshot, .compactReadLog, .resetBegin seedText,
    .resetDelete 0, .resetUpsert 0, .resetRemember 0 true, .compactUpsert 0 none, .compactDelete, .compactInvalidate true,
    .compactCommit]

/-- **A compaction undoes a reset.** The merge it read before the reset carries `seq` 1, the reset's row 0, so the guard
lets the discarded history back in. -/
theorem compaction_undoes_reset : ¬ ResetFinal (run (init false) staleMergeRun) := by decide

end Baalda.DocStore
