/-
When the bridge is quiescent, the file reads what the document reads.

`Explained`: the file holds the document's text, or a refusal of it is in force, or something is due that will settle it: a
read (`ReadDue`) or a write (`WriteDue`). `quiescent_converged`: in every run of `QuietOk` steps, a state in which nothing is
due is one of the first two.

`QuietOk` leaves out the two branches that trust `lastWrittenHash` where it names bytes that are neither in the file nor in
the document any more: a read taken for an echo, and a write skipped because the file is thought to hold the text. A merge
of an external change does not move that hash, so both can be reached. The rest of it is the domain: the file is not
removed, its reads succeed, recovery copies land, the bridge is not destroyed.
-/
import Baalda.Desktop.NoteBridge

namespace Baalda.Bridge

open TextDiff TextCrdt

variable {ι H : Type*}

/-- the file's text, once a pass has read it -/
def IngestPhase.text : IngestPhase H → Option Text
  | .reading => none
  | .hashing t | .keeping t _ | .snapshotting t _ _ => some t

/-- the file has been refused, and is being saved aside -/
def IngestPhase.keeps : IngestPhase H → Bool
  | .keeping _ _ => true
  | .reading | .hashing _ | .snapshotting _ _ _ => false

/-- the pass will write the text `t`, or be told that the file moved on -/
def EgestPass.writes (e : EgestPass ι H) (t : Text) : Bool := match e.phase with
  | .answering _ _ stale => stale
  | _ => e.content = t

namespace NoteBridge

/-! ## What is due -/

def Settled (s : NoteBridge ι H) : Prop := s.file = some (text s.doc)

/-- the file was refused as it is, or the document has no text yet and waits for it from the server -/
def RefusalInForce (io : BridgeIO ι H) (s : NoteBridge ι H) : Prop :=
  (s.refused.isSome = true ∧ s.file = s.refused) ∨
    (io.seedOnOpen = false ∧ text s.doc = [] ∧ s.everHadContent = false)

/-- the file will be read -/
def ReadDue (s : NoteBridge ι H) : Prop :=
  s.event = true ∨ s.prePull.isSome = true ∨
    (s.ingestDirty = true ∧ (s.ingestTimer = true ∨ s.ingestQueue.isEmpty = false))

/-- the ingest passes queued and under way -/
def jobs (s : NoteBridge ι H) : List (IngestJob ι) := (s.ingestPass.map IngestPass.job).toList ++ s.ingestQueue

/-- the document will be written -/
def WriteDue (s : NoteBridge ι H) : Prop :=
  s.egestTimer = true ∨ 0 < s.egestQueue ∨ (s.egestDeferred = true ∧ s.jobs.any (·.reconcile) = true) ∨
    s.egestPass.any (·.writes (text s.doc)) = true

/-- a pass is under way that has not refused the file -/
def settling (s : NoteBridge ι H) : Bool := s.ingestPass.any (!·.phase.keeps)

def Explained (io : BridgeIO ι H) (s : NoteBridge ι H) : Prop :=
  s.Settled ∨ s.RefusalInForce io ∨ s.ReadDue ∨ s.WriteDue

/-- no timer, no queued or running pass, no undelivered event, no pull that is waited for -/
def Quiescent (s : NoteBridge ι H) : Prop :=
  s.event = false ∧ s.prePull.isSome = false ∧ s.ingestTimer = false ∧ s.ingestQueue.isEmpty = true ∧
    s.ingestPass.isSome = false ∧ s.egestTimer = false ∧ s.egestQueue = 0 ∧ s.egestPass.isSome = false

instance (s : NoteBridge ι H) : Decidable s.Settled := inferInstanceAs (Decidable (_ = _))

instance (io : BridgeIO ι H) (s : NoteBridge ι H) : Decidable (s.RefusalInForce io) := inferInstanceAs (Decidable (_ ∨ _))

instance (s : NoteBridge ι H) : Decidable s.ReadDue := inferInstanceAs (Decidable (_ ∨ _))

instance (s : NoteBridge ι H) : Decidable s.WriteDue := inferInstanceAs (Decidable (_ ∨ _))

instance (io : BridgeIO ι H) (s : NoteBridge ι H) : Decidable (s.Explained io) := inferInstanceAs (Decidable (_ ∨ _))

instance (s : NoteBridge ι H) : Decidable s.Quiescent := inferInstanceAs (Decidable (_ ∧ _))

theorem Quiescent.explained {io : BridgeIO ι H} {s : NoteBridge ι H} (hq : s.Quiescent) (h : s.Explained io) :
    s.Settled ∨ s.RefusalInForce io := by
  obtain ⟨hevent, hpull, htimer, hqueue, hpass, het, heq, hep⟩ := hq
  rcases h with hset | href | hread | hwrite
  · exact .inl hset
  · exact .inr href
  · simp [ReadDue, hevent, hpull, htimer, hqueue] at hread
  · have hnopass : s.ingestPass = none := by simpa using hpass
    have hnoegest : s.egestPass = none := by simpa using hep
    have hnoqueue : s.ingestQueue = [] := by simpa using hqueue
    simp [WriteDue, het, heq, hnoegest, jobs, hnopass, hnoqueue] at hwrite

/-! ## The invariant -/

structure Quiet (io : BridgeIO ι H) (s : NoteBridge ι H) : Prop where
  live : s.destroyed = false
  there : s.file.isSome = true
  explained : s.settling = true ∨ s.Explained io
  /-- the file still reads what a pass has read, or it will be read again -/
  read : ∀ p, s.ingestPass = some p → ∀ t, p.phase.text = some t → s.file = some t ∨ s.ReadDue
  /-- the diff a pass waits with leads from the document to what it has read, unless there was a transaction since -/
  diffs : ∀ p, s.ingestPass = some p → p.branch = none → ∀ t h ds, p.phase = .snapshotting t h ds →
    source ds = text s.doc ∧ target ds = t

/-- a step outside the ingest chain: a pass under way goes on, and finds that there was a transaction if there was -/
structure Steady (s s' : NoteBridge ι H) : Prop where
  live : s'.destroyed = s.destroyed
  file : s'.file = s.file ∨ (s'.file.isSome = true ∧ s'.ReadDue)
  due : s.ReadDue → s'.ReadDue
  pass : (s'.ingestPass = s.ingestPass ∧ s'.doc = s.doc) ∨ s'.ingestPass = s.capture.ingestPass

variable {io : BridgeIO ι H} {s s' : NoteBridge ι H}

theorem capture_settling (s : NoteBridge ι H) : s.capture.settling = s.settling := by
  rcases s.capture_eq with heq | ⟨p, hp, -, -, heq⟩
  · rw [heq]
  · rw [heq, settling, settling, hp]; rfl

theorem Steady.settling (hs : Steady s s') : s'.settling = s.settling := by
  rcases hs.pass with ⟨hsame, -⟩ | hcap
  · unfold NoteBridge.settling
    rw [hsame]
  · rw [← capture_settling s]
    unfold NoteBridge.settling
    rw [hcap]

theorem Quiet.steady (h : Quiet io s) (hs : Steady s s') (hex : s.settling = false → s.Explained io → s'.Explained io) :
    Quiet io s' where
  live := hs.live.trans h.live
  there := by
    rcases hs.file with hf | ⟨hf, -⟩
    · rw [hf]; exact h.there
    · exact hf
  explained := by
    rw [hs.settling]
    by_cases hset : s.settling = true
    · exact .inl hset
    · exact .inr (hex (Bool.eq_false_of_not_eq_true hset) (h.explained.resolve_left hset))
  read p hp t ht := by
    have hold : ∃ q, s.ingestPass = some q ∧ q.phase.text = some t := by
      rcases hs.pass with ⟨hsame, -⟩ | hcap
      · exact ⟨p, hsame ▸ hp, ht⟩
      · obtain ⟨q, hq, hphase, -⟩ := capture_some (hcap ▸ hp)
        exact ⟨q, hq, hphase ▸ ht⟩
    obtain ⟨q, hq, hqt⟩ := hold
    rcases hs.file with hf | ⟨-, hdue⟩
    · rw [hf]
      exact (h.read q hq t hqt).imp id hs.due
    · exact .inr hdue
  diffs p hp hbranch t x ds hphase := by
    rcases hs.pass with ⟨hsame, hdoc⟩ | hcap
    · rw [hdoc]
      exact h.diffs p (hsame ▸ hp) hbranch t x ds hphase
    · obtain ⟨-, -, -, hnone⟩ := capture_some (hcap ▸ hp)
      exact absurd hbranch hnone

/-! ## What a run must not do -/

/-- the pass is about to take its read for the bridge's own write, or for one merged already -/
def echoing [DecidableEq H] (io : BridgeIO ι H) (s : NoteBridge ι H) : Bool := match s.ingestPass with
  | some p => match p.phase with
    | .hashing t => !oversize io.cfg t &&
        (s.lastWrittenHash = some (io.sha256 t) || s.pendingMergedFileHash = some (io.sha256 t))
    | _ => false
  | none => false

/-- the egest is about to take the file for one that holds the text -/
def skipping [DecidableEq H] (io : BridgeIO ι H) (s : NoteBridge ι H) : Bool := match s.comparing with
  | some content => s.lastWrittenHash = some (io.sha256 content)
  | none => false

end NoteBridge

def QuietOk [DecidableEq H] (io : BridgeIO ι H) (s : NoteBridge ι H) : Action ι → Prop
  | .external fileText => fileText.isSome = true
  | .ingestReads ok => ok = true
  | .ingestHashed => s.echoing io = true → s.Explained io
  | .egestHashed => s.skipping io = true → s.settling = true ∨ s.endEgest.Explained io
  | .egestSavedAside saved => saved = true
  | .seedInserts i => ∀ fileText ∈ s.seeding i, text s.doc = [] →
      s.settling = true ∨ s.file = some fileText ∨ s.ReadDue ∨ s.endEgest.WriteDue
  | .destroy => False
  | _ => True

instance [DecidableEq H] (io : BridgeIO ι H) (s : NoteBridge ι H) (a : Action ι) : Decidable (QuietOk io s a) := by
  unfold QuietOk
  split <;> infer_instance

namespace NoteBridge

variable {io : BridgeIO ι H} {s s' : NoteBridge ι H} {p : IngestPass ι H} {t : Text}

/-! ## The end of an ingest pass -/

theorem due_scheduleEgest (hlive : s.destroyed = false) : s.scheduleEgest.ReadDue ∨ s.scheduleEgest.WriteDue := by
  unfold scheduleEgest
  rw [if_neg (by simp [hlive])]
  split_ifs with hpull
  · exact .inl (.inr (.inl hpull))
  · exact .inr (.inl rfl)

/-- the pass that ends re-arms the egest that was put off for it -/
theorem explained_endIngest (hlive : s.destroyed = false) (job : IngestJob ι)
    (h : s.Explained io ∨ (s.egestDeferred = true ∧ job.reconcile = true))
    (hjobs : s.jobs.any (·.reconcile) = true → job.reconcile = true ∨ s.ingestQueue.any (·.reconcile) = true) :
    (s.endIngest job).Explained io := by
  unfold endIngest
  split_ifs with hj
  · exact .inr (.inr (due_scheduleEgest hlive))
  · have hnot : job.reconcile = true → s.egestDeferred = true → False := fun hr hd => hj (by simp [hr, hd])
    rcases h with (hset | href | hread | htimer | hqueue | ⟨hdef, hany⟩ | hegest) | ⟨hdef, hrec⟩
    · exact .inl hset
    · exact .inr (.inl href)
    · exact .inr (.inr (.inl hread))
    · exact .inr (.inr (.inr (.inl htimer)))
    · exact .inr (.inr (.inr (.inr (.inl hqueue))))
    · rcases hjobs hany with hrec | hrest
      · exact (hnot hrec hdef).elim
      · exact .inr (.inr (.inr (.inr (.inr (.inl ⟨hdef, hrest⟩)))))
    · exact .inr (.inr (.inr (.inr (.inr (.inr hegest)))))
    · exact (hnot hrec hdef).elim

theorem any_jobs_of_pass (hp : s.ingestPass = some p) (h : s.jobs.any (·.reconcile) = true) :
    p.job.reconcile = true ∨ s.ingestQueue.any (·.reconcile) = true := by
  simpa [jobs, hp] using h

/-- the state after a pass, with the file explained -/
theorem Quiet.of_end (hlive : s.destroyed = false) (there : s.file.isSome = true) (hp : s.ingestPass = some p)
    (h : s.Explained io) : Quiet io (s.endIngest p.job) := by
  have hex := explained_endIngest hlive p.job (.inl h) (any_jobs_of_pass hp)
  obtain ⟨d, tm, heq⟩ := s.endIngest_eq p.job
  rw [heq] at hex ⊢
  exact ⟨hlive, there, .inr hex, fun _ hq => by simp at hq, fun _ hq => by simp at hq⟩

/-- a pass that ends with the document reading what it has read -/
theorem explained_of_read (hread : s.file = some t ∨ s.ReadDue) (hdoc : text s.doc = t) : s.Explained io := by
  rcases hread with hfile | hdue
  · exact .inl (hfile.trans (by rw [hdoc]))
  · exact .inr (.inr (.inl hdue))

theorem Quiet.writeOut (hlive : s.destroyed = false) (there : s.file.isSome = true) (hp : s.ingestPass = some p) (x : H) :
    Quiet io (s.writeOut p x) := by
  have hdue := due_scheduleEgest (s := { s with lastWrittenHash := some x, refused := none }) hlive
  obtain ⟨d, tm, heq⟩ := scheduleEgest_eq { s with lastWrittenHash := some x, refused := none }
  unfold NoteBridge.writeOut
  rw [heq] at hdue ⊢
  exact Quiet.of_end hlive there hp (.inr (.inr hdue))

theorem Quiet.refuse (hlive : s.destroyed = false) (there : s.file.isSome = true) (hp : s.ingestPass = some p)
    (hread : s.file = some t ∨ s.ReadDue) (x : H) : Quiet io (s.refuse p t x) := by
  refine Quiet.of_end (s := { s with refused := some t }.account x .refused) hlive there hp ?_
  rcases hread with hfile | hdue
  · exact .inr (.inl (.inl ⟨rfl, hfile⟩))
  · exact .inr (.inr (.inl hdue))

variable {ds : List (Hunk UInt16)}

/-- the diff goes into the document: it reads what the file reads, or it will be written -/
theorem explained_replayRead (hlive : s.destroyed = false) (hread : s.file = some t ∨ s.ReadDue)
    (hds : p.branch = none → source ds = text s.doc ∧ target ds = t) (x : H) :
    (replayRead io s p t x ds).Explained io := by
  unfold replayRead
  dsimp only
  split
  · next hbranch =>
    obtain ⟨hsource, htarget⟩ := hds hbranch
    have hbase : s.baselineOf p = s.doc := by rw [baselineOf, hbranch]; rfl
    refine explained_of_read (t := t) hread ?_
    change text (replay io.freshId s.clock (s.baselineOf p) ds) = t
    rw [hbase, text_replay io.freshId s.clock hsource, htarget]
  · split_ifs with hsame
    · exact explained_of_read (t := t) hread hsame
    · exact .inr (.inr (due_scheduleEgest hlive))

theorem Quiet.applyRead (hlive : s.destroyed = false) (there : s.file.isSome = true) (hp : s.ingestPass = some p)
    (hread : s.file = some t ∨ s.ReadDue) (hds : p.branch = none → source ds = text s.doc ∧ target ds = t) (x : H) :
    Quiet io (applyRead io s p t x ds) := by
  unfold NoteBridge.applyRead
  rw [if_neg (by simp [hlive])]
  split_ifs with hsame
  · exact Quiet.of_end (s := { s with lastWrittenHash := some x }.account x .held) hlive there hp
      (explained_of_read hread hsame)
  · have hex : (replayRead io s p t x ds).Explained io := explained_replayRead hlive hread hds x
    obtain ⟨d, clock, e, o, pm, v, tm, -, -, heq⟩ := s.replayRead_eq p t x io ds
    rw [heq] at hex ⊢
    exact Quiet.of_end (s := { s with
      doc := d, clock := clock, everHadContent := e, observed := o, pendingMergedFileHash := pm, egestDeferred := v
      egestTimer := tm, unagreedFile := none, diskBase := some x }.account x .merged) hlive there hp hex

/-! ## The verdict on a read -/

/-- a pass judges the live document where there was no transaction -/
theorem diffs_of_merge [DecidableEq H] (hdiff : LawfulDiff io.computeDiff) {large : Bool}
    (hv : s.verdict io p t = .merge ds large) (hbranch : p.branch = none) :
    source ds = text s.doc ∧ target ds = t := by
  obtain ⟨hds, -, -, -⟩ := judge_merge hv
  have hbase : p.job.base = none := by
    exact (Option.or_eq_none_iff.mp hbranch).1
  have hdoc : s.baselineOf p = s.doc := by rw [baselineOf, hbranch]; rfl
  rw [hbase, hdoc] at hds
  rw [hds]
  exact ⟨hdiff.source _ _, hdiff.target _ _⟩

theorem Quiet.judged [DecidableEq H] (hdiff : LawfulDiff io.computeDiff) (h : Quiet io s) (hp : s.ingestPass = some p)
    (hphase : p.phase = .hashing t) (hecho : s.echoing io = true → s.Explained io) : Quiet io (judged io s p t) := by
  have hread : s.file = some t ∨ s.ReadDue := h.read p hp t (by rw [hphase]; rfl)
  obtain ⟨o, -, heq⟩ := s.observe_eq (io.sha256 t)
  unfold NoteBridge.judged
  dsimp only
  rw [heq]
  split_ifs with hover
  · exact Quiet.refuse (s := { s with observed := o }) h.live h.there hp hread _
  · cases hv : s.verdict io p t with
    | echo =>
      have hechoing : s.echoing io = true := by
        unfold echoing
        rw [hp]
        dsimp only
        rw [hphase]
        rcases judge_echo hv with hl | hm
        · simp [Bool.eq_false_of_not_eq_true hover, hl]
        · simp [Bool.eq_false_of_not_eq_true hover, hm]
      exact Quiet.of_end (s := { s with observed := o }) h.live h.there hp (hecho hechoing)
    | converged =>
      have hsame : text s.doc = t := judge_converged hv
      exact Quiet.of_end (s := ({ s with
        lastWrittenHash := some (io.sha256 t), diskBase := some (io.sha256 t), refused := none }.observeState
          (io.sha256 t) (some s.doc)).account (io.sha256 t) .held) h.live h.there hp (explained_of_read hread hsame)
    | behindDiskBase => exact Quiet.writeOut (s := { s with observed := o }) h.live h.there hp _
    | behindBaseline moved =>
      cases moved with
      | true => exact Quiet.writeOut (s := { s with observed := o }.account _ _) h.live h.there hp _
      | false =>
        -- the baseline is the document itself, which does not read what the file reads
        obtain ⟨hcurrent, hmoved, hlive⟩ := judge_behindBaseline hv
        have hbranch : p.branch = none := by simpa using hmoved.symm
        rw [baselineOf, hbranch] at hcurrent
        exact absurd hcurrent hlive
    | blank | readOnlyEmpty | unseeded => exact Quiet.refuse (s := { s with observed := o }) h.live h.there hp hread _
    | readOnly =>
      refine ⟨h.live, h.there, .inr ?_, ?_, ?_⟩
      · rcases hread with hfile | hdue
        · exact .inr (.inl (.inl ⟨rfl, hfile⟩))
        · exact .inr (.inr (.inl hdue))
      · intro q hq t' ht'
        cases hq
        cases ht'
        exact hread
      · intro q hq _ t' x ds hqphase
        cases hq
        cases hqphase
    | nothingOwn => exact Quiet.writeOut (s := { s with observed := o }.account _ _) h.live h.there hp _
    | merge ds large =>
      cases large with
      | false =>
        exact Quiet.applyRead (s := { s with observed := o, refused := none }) h.live h.there hp hread
          (diffs_of_merge hdiff hv) _
      | true =>
        refine ⟨h.live, h.there, .inl rfl, ?_, ?_⟩
        · intro q hq t' ht'
          cases hq
          cases ht'
          exact hread
        · intro q hq hbranch t' x ds' hqphase
          cases hq
          obtain ⟨rfl, -, rfl⟩ := IngestPhase.snapshotting.inj hqphase
          exact diffs_of_merge hdiff hv hbranch

/-! ## The steps of the ingest chain -/

theorem Quiet.ingestStarts (h : Quiet io s) : Quiet io s.ingestStarts := by
  unfold NoteBridge.ingestStarts
  split
  · next job rest hpass hqueue =>
    have hex : s.Explained io := h.explained.resolve_left (by simp [settling, hpass])
    split_ifs with hskip
    · -- a pass before this one has done its work
      have hclean : s.ingestDirty = false := by
        simpa [h.live] using hskip
      have hrest : Explained io { s with ingestQueue := rest } ∨ (s.egestDeferred = true ∧ job.reconcile = true) := by
        rcases hex with hset | href | hread | htimer | hq | ⟨hdef, hany⟩ | hegest
        · exact .inl (.inl hset)
        · exact .inl (.inr (.inl href))
        · refine .inl (.inr (.inr (.inl ?_)))
          exact hread.imp id (Or.imp id fun hd => absurd (hclean.symm.trans hd.1) (by decide))
        · exact .inl (.inr (.inr (.inr (.inl htimer))))
        · exact .inl (.inr (.inr (.inr (.inr (.inl hq)))))
        · have hjobs : job.reconcile = true ∨ rest.any (·.reconcile) = true := by
            simpa [jobs, hpass, hqueue] using hany
          rcases hjobs with hrec | hrec
          · exact .inr ⟨hdef, hrec⟩
          · refine .inl (.inr (.inr (.inr (.inr (.inr (.inl ⟨hdef, ?_⟩))))))
            simpa [jobs, hpass] using hrec
        · exact .inl (.inr (.inr (.inr (.inr (.inr (.inr hegest))))))
      have hend := explained_endIngest (s := { s with ingestQueue := rest }) h.live job hrest
        (fun hany => .inr (by simpa [jobs, hpass] using hany))
      obtain ⟨d, tm, heq⟩ := endIngest_eq { s with ingestQueue := rest } job
      rw [heq] at hend ⊢
      exact ⟨h.live, h.there, .inr hend, fun _ hq => by simp at hq, fun _ hq => by simp at hq⟩
    · refine ⟨h.live, h.there, .inl rfl, ?_, ?_⟩
      · intro q hq t' ht'
        cases hq
        simp [IngestPhase.text] at ht'
      · intro q hq _ t' x ds hphase
        cases hq
        cases hphase
  · exact h

theorem Quiet.ingestReads (h : Quiet io s) : Quiet io (s.ingestReads true) := by
  unfold NoteBridge.ingestReads
  split
  · next q hq =>
    split
    · split
      · next t' hfile =>
        have hsome : s.file = some t' := by simpa [readFile] using hfile
        refine ⟨h.live, h.there, .inl rfl, ?_, ?_⟩
        · intro q' hq' t'' ht''
          cases hq'
          cases ht''
          exact .inl hsome
        · intro q' hq' _ t'' x ds hphase
          cases hq'
          cases hphase
      · next hnone =>
        have hthere := h.there
        have hgone : s.file = none := by simpa [readFile] using hnone
        rw [hgone] at hthere
        exact absurd hthere (by decide)
    · exact h
  · exact h

theorem Quiet.ingestHashed [DecidableEq H] (hdiff : LawfulDiff io.computeDiff) (h : Quiet io s)
    (hecho : s.echoing io = true → s.Explained io) : Quiet io (s.ingestHashed io) := by
  unfold NoteBridge.ingestHashed
  split
  · next q hq =>
    split
    · next t' hphase => exact h.judged hdiff hq hphase hecho
    · exact h
  · exact h

theorem Quiet.ingestKept (h : Quiet io s) (kept : Bool) : Quiet io (s.ingestKept kept) := by
  unfold NoteBridge.ingestKept
  split
  · next q hq =>
    split
    · next t' x hphase =>
      have hex : s.Explained io := h.explained.resolve_left (by simp [settling, hq, hphase, IngestPhase.keeps])
      split_ifs with hlost hd
      · exact Quiet.of_end h.live h.there hq hex
      · exact absurd (h.live.symm.trans hd) (by decide)
      · exact Quiet.writeOut (s := s.account x .savedAside) h.live h.there hq x
    · exact h
  · exact h

theorem Quiet.ingestSnapshotted (h : Quiet io s) : Quiet io (s.ingestSnapshotted io) := by
  unfold NoteBridge.ingestSnapshotted
  split
  · next q hq =>
    split
    · next t' x ds hphase =>
      have hread := h.read q hq t' (by rw [hphase]; rfl)
      exact Quiet.applyRead h.live h.there hq hread (fun hbranch => h.diffs q hq hbranch t' x ds hphase) x
    · exact h
  · exact h

/-! ## The other steps -/

theorem readDue_capture : s.capture.ReadDue ↔ s.ReadDue := by
  rcases s.capture_eq with heq | ⟨p, -, -, -, heq⟩
  · rw [heq]
  · rw [heq]; exact Iff.rfl

theorem file_capture (s : NoteBridge ι H) : s.capture.file = s.file ∧ s.capture.destroyed = s.destroyed := by
  rcases s.capture_eq with heq | ⟨p, -, -, -, heq⟩
  · rw [heq]; exact ⟨rfl, rfl⟩
  · rw [heq]; exact ⟨rfl, rfl⟩

theorem Quiet.edit (h : Quiet io s) (d : Doc ι UInt16) : Quiet io (s.edit d) := by
  have hdue : (s.edit d).ReadDue ∨ (s.edit d).WriteDue := by
    unfold NoteBridge.edit
    rw [if_neg (by simp [h.live])]
    exact due_scheduleEgest (s := s.capture.setDoc d) ((file_capture s).2.trans h.live)
  refine h.steady ?_ fun _ _ => .inr (.inr hdue)
  rcases s.edit_eq d with heq | ⟨e, v, tm, heq⟩
  · rw [heq]
    exact ⟨rfl, .inl rfl, id, .inl ⟨rfl, rfl⟩⟩
  · rw [heq]
    exact ⟨(file_capture s).2, .inl (file_capture s).1, readDue_capture.mpr, .inr rfl⟩

section

variable (h : Quiet io s) (hlive : s'.destroyed = s.destroyed) (hfile : s'.file = s.file) (hpass : s'.ingestPass =
    s.ingestPass) (hdoc : s'.doc = s.doc)

include h hlive hfile hpass hdoc

/-- a step that changes neither the file nor the document, and leaves something due -/
theorem Quiet.due (hdue : s'.ReadDue) : Quiet io s' :=
  h.steady ⟨hlive, .inl hfile, fun _ => hdue, .inl ⟨hpass, hdoc⟩⟩ fun _ _ => .inr (.inr (.inl hdue))

/-- a step that changes neither, nor what is to be read -/
theorem Quiet.write (hread : s.ReadDue → s'.ReadDue)
    (href : s.RefusalInForce io → s'.RefusalInForce io) (hwrite : s.WriteDue → s'.Explained io) : Quiet io s' := by
  refine h.steady ⟨hlive, .inl hfile, hread, .inl ⟨hpass, hdoc⟩⟩ fun _ hex => ?_
  rcases hex with hset | hrefused | hdue | hdue
  · exact .inl (by unfold Settled; rw [hfile, hdoc]; exact hset)
  · exact .inr (.inl (href hrefused))
  · exact .inr (.inr (.inl (hread hdue)))
  · exact hwrite hdue

end

theorem Quiet.watcherEvent (h : Quiet io s) : Quiet io { s with event := false }.ingest := by
  unfold NoteBridge.ingest
  rw [if_neg (by simp [h.live])]
  split_ifs with hpull
  · exact h.due rfl rfl rfl rfl (.inr (.inl hpull))
  · exact h.due rfl rfl rfl rfl (.inr (.inr ⟨rfl, .inl rfl⟩))

theorem readDue_drainIngest (s : NoteBridge ι H) (job : IngestJob ι) : (s.drainIngest job).ReadDue :=
  .inr (.inr ⟨rfl, .inr (by simp [drainIngest])⟩)

section

variable (h : Quiet io s)

include h

theorem Quiet.reconcileAfterPull : Quiet io s.reconcileAfterPull := by
  unfold NoteBridge.reconcileAfterPull
  split
  · exact h
  · rw [if_neg (by simp [h.live])]
    exact h.due rfl rfl rfl rfl (readDue_drainIngest _ _)

theorem Quiet.ingestNow : Quiet io s.ingestNow := by
  unfold NoteBridge.ingestNow
  rw [if_neg (by simp [h.live])]
  split_ifs
  · exact h.reconcileAfterPull
  · exact h.due rfl rfl rfl rfl (readDue_drainIngest _ _)

theorem Quiet.beginPull : Quiet io s.beginPull := by
  unfold NoteBridge.beginPull
  split_ifs
  · exact h
  · exact h.due rfl rfl rfl rfl (.inr (.inl rfl))

theorem Quiet.ingestTimerFires : Quiet io { s with ingestTimer := false, ingestQueue := s.ingestQueue ++ [{}] } := by
  refine h.write rfl rfl rfl rfl ?_ id ?_
  · exact Or.imp id (Or.imp id fun hd => ⟨hd.1, .inr (by simp)⟩)
  · intro hdue
    refine .inr (.inr (.inr (hdue.imp id (Or.imp id (Or.imp ?_ id)))))
    rintro ⟨hdef, hany⟩
    refine ⟨hdef, ?_⟩
    simp only [jobs, List.any_append, Bool.or_eq_true] at hany ⊢
    exact hany.imp id .inl

/-! ### An egest pass -/

theorem Quiet.egestTimerFires : Quiet io { s with egestTimer := false, egestQueue := s.egestQueue + 1 } := by
  refine h.write rfl rfl rfl rfl id id fun _ => .inr (.inr (.inr (.inr (.inl ?_))))
  exact Nat.succ_pos _

theorem Quiet.egestStarts : Quiet io s.egestStarts := by
  unfold NoteBridge.egestStarts
  split
  · exact h
  · next hnone =>
    rw [if_neg (c := s.destroyed = true) (by simp [h.live])]
    split_ifs with hzero
    · exact h
    · refine h.write rfl rfl rfl rfl id id fun _ => .inr (.inr (.inr (.inr (.inr (.inr ?_)))))
      unfold firstPhase
      split_ifs
      · simp [EgestPass.writes]
      · simp [EgestPass.writes]

variable {e : EgestPass ι H}

/-- the egest moves on to a phase in which it writes what it would have written -/
theorem Quiet.setEgest (he : s.egestPass = some e) {phase : EgestPhase ι H}
    (hwrites : ∀ t, e.writes t = true → EgestPass.writes { e with phase := phase } t = true) :
    Quiet io (s.setEgest e phase) := by
  refine h.write rfl rfl rfl rfl id id fun hdue => .inr (.inr (.inr (hdue.imp id (Or.imp id (Or.imp id ?_)))))
  intro hany
  rw [he] at hany
  exact hwrites _ hany

/-- the egest ends; what it would have written is due no more -/
theorem Quiet.endEgest (he : s.egestPass = some e)
    (hwrites : e.writes (text s.doc) = true → s.settling = true ∨ s.endEgest.Explained io) : Quiet io s.endEgest := by
  refine h.steady ⟨rfl, .inl rfl, id, .inl ⟨rfl, rfl⟩⟩ fun hset hex => ?_
  by_cases hw : e.writes (text s.doc) = true
  · exact (hwrites hw).resolve_left (by simp [hset])
  · refine hex.imp id (Or.imp id (Or.imp id (Or.imp id (Or.imp id (Or.imp id ?_)))))
    intro hany
    rw [he] at hany
    exact absurd hany hw

theorem Quiet.egestChecks (ok : Bool) : Quiet io (s.egestChecks ok) := by
  unfold NoteBridge.egestChecks
  split
  · next e he =>
    split
    · next hphase =>
      split
      · next u t hread =>
        -- the file that is not overwritten is refused as it is
        have hfile : s.file = some (u :: t) := by
          unfold readFile at hread
          split_ifs at hread
          exact hread
        exact h.steady ⟨rfl, .inl rfl, id, .inl ⟨rfl, rfl⟩⟩ fun _ _ => .inr (.inl (.inl ⟨rfl, hfile⟩))
      · refine h.setEgest he fun t hw => ?_
        simpa [EgestPass.writes, hphase] using hw
    · exact h
  · exact h

theorem Quiet.takesExpected (he : s.egestPass = some e) (hash : H)
    (hwrites : ∀ t, e.writes t = true → e.content = t) : Quiet io (s.takesExpected e hash) :=
  h.setEgest he fun t hw => by simpa [EgestPass.writes] using hwrites t hw

end

section

variable [DecidableEq H] (h : Quiet io s)

include h

theorem Quiet.comparesHash (he : s.egestPass = some e) {hash : H} (hphase : e.phase = .hashing)
    (hskip : s.lastWrittenHash = some hash → s.settling = true ∨ s.endEgest.Explained io) :
    Quiet io (s.comparesHash e hash) := by
  have hwrites : ∀ t, e.writes t = true → e.content = t := fun t hw => by
    simpa [EgestPass.writes, hphase] using hw
  have hforget : Quiet io { s with unagreedFile := none } := h.write rfl rfl rfl rfl id id fun hdue =>
    .inr (.inr (.inr hdue))
  have haccount : ∀ (x : H) (a : Account), Quiet io ({ s with unagreedFile := none }.account x a) :=
    fun x a => hforget.write rfl rfl rfl rfl id id fun hdue => .inr (.inr (.inr hdue))
  unfold NoteBridge.comparesHash
  split_ifs with hl
  · exact (haccount hash .held).endEgest he fun _ => hskip hl
  · split
    · exact h.takesExpected he hash hwrites
    · next u hu =>
      split_ifs
      · exact (haccount u.2 .held).takesExpected he hash hwrites
      · refine h.setEgest he fun t hw => ?_
        simpa [EgestPass.writes] using hwrites t hw
      · exact hforget.takesExpected he hash hwrites

theorem Quiet.egestHashed
    (hskip : s.skipping io = true → s.settling = true ∨ s.endEgest.Explained io) : Quiet io (s.egestHashed io) := by
  unfold NoteBridge.egestHashed
  split
  · next e he =>
    split
    · next hphase =>
      refine h.comparesHash he hphase fun hl => hskip ?_
      obtain ⟨content, phase⟩ := e
      subst hphase
      simp [skipping, comparing, he, hl]
    · exact h
  · exact h

theorem Quiet.egestSavedAside : Quiet io (s.egestSavedAside true) := by
  unfold NoteBridge.egestSavedAside
  split
  · next e he =>
    split
    · next u hash hphase =>
      have hwrites : ∀ t, e.writes t = true → e.content = t := fun t hw => by
        simpa [EgestPass.writes, hphase] using hw
      have hsaved : ∀ f, Quiet io ({ s with unagreedFile := f }.account u.2 .savedAside) :=
        fun f => h.write rfl rfl rfl rfl id id fun hdue => .inr (.inr (.inr hdue))
      rw [if_pos rfl]
      dsimp only
      generalize (if s.unagreedFile = some u then none else s.unagreedFile) = f
      split_ifs with hstop
      · refine (hsaved f).endEgest he fun hw => ?_
        rcases hstop with hd | hmoved
        · exact absurd (h.live.symm.trans hd) (by decide)
        · exact absurd (hwrites _ hw).symm hmoved
      · exact (hsaved f).takesExpected he hash hwrites
    · exact h
  · exact h

theorem Quiet.egestWrites : Quiet io (s.egestWrites io) := by
  unfold NoteBridge.egestWrites
  split
  · next e he =>
    split
    · next hash expected st hphase =>
      split_ifs
      · -- the watcher will tell of the write
        have hdue : ∀ s' : NoteBridge ι H, s'.event = true → s'.ReadDue := fun _ => .inl
        exact h.steady ⟨rfl, .inr ⟨rfl, hdue _ rfl⟩, fun _ => hdue _ rfl, .inl ⟨rfl, rfl⟩⟩
          fun _ _ => .inr (.inr (.inl (hdue _ rfl)))
      · exact h.setEgest he fun t _ => by simp [EgestPass.writes]
    · exact h
  · exact h

end

theorem Quiet.egestWriteFails (h : Quiet io s) : Quiet io s.egestWriteFails := by
  unfold NoteBridge.egestWriteFails
  split
  · split
    · unfold scheduleEgestRetry
      rw [if_neg (by simp [NoteBridge.endEgest, h.live])]
      exact h.write rfl rfl rfl rfl id id fun _ => .inr (.inr (.inr (.inl rfl)))
    · exact h
  · exact h

theorem Quiet.egestAnswered (h : Quiet io s) : Quiet io s.egestAnswered := by
  unfold NoteBridge.egestAnswered
  split
  · next e he =>
    split
    · next hash st stale hphase =>
      by_cases hstale : stale = true
      · rw [if_pos hstale]
        unfold mergeStaleFile
        rw [if_neg (by simp [NoteBridge.endEgest, h.live])]
        exact h.due rfl rfl rfl rfl (readDue_drainIngest _ _)
      · rw [if_neg hstale]
        have hset : Quiet io ({ s with
            lastWrittenHash := some hash, diskBase := some hash
            pendingMergedFileHash := if text s.doc = e.content then none else s.pendingMergedFileHash }.observeState hash
              st) := h.write rfl rfl rfl rfl id id fun hdue => .inr (.inr (.inr hdue))
        refine hset.endEgest he fun hw => ?_
        simp [EgestPass.writes, hphase, hstale] at hw
    · exact h
  · exact h

/-! ### Seeds -/

theorem Quiet.setSeeds (h : Quiet io s) (seeds : List SeedPhase) : Quiet io { s with seeds := seeds } :=
  h.write rfl rfl rfl rfl id id fun hdue => .inr (.inr (.inr hdue))

theorem Quiet.seedReads (h : Quiet io s) (i : ℕ) (ok : Bool) : Quiet io (s.seedReads i ok) := by
  unfold NoteBridge.seedReads
  split_ifs
  · split
    · exact h.setSeeds _
    · exact h.setSeeds _
  · exact h

theorem Quiet.seedHashed (h : Quiet io s) (i : ℕ) : Quiet io (s.seedHashed io i) := by
  unfold NoteBridge.seedHashed
  split
  · exact h.write rfl rfl rfl rfl id id fun hdue => .inr (.inr (.inr hdue))
  · exact h

theorem jobs_capture (s : NoteBridge ι H) : s.capture.jobs = s.jobs := by
  rcases s.capture_eq with heq | ⟨p, hp, -, -, heq⟩
  · rw [heq]
  · rw [heq, jobs, jobs, hp]; rfl

theorem flags_capture (s : NoteBridge ι H) : s.capture.egestTimer = s.egestTimer ∧ s.capture.egestQueue = s.egestQueue ∧
    s.capture.egestDeferred = s.egestDeferred ∧ s.capture.egestPass = s.egestPass := by
  rcases s.capture_eq with heq | ⟨p, -, -, -, heq⟩
  · rw [heq]; exact ⟨rfl, rfl, rfl, rfl⟩
  · rw [heq]; exact ⟨rfl, rfl, rfl, rfl⟩

theorem Quiet.capture (h : Quiet io s) : Quiet io s.capture := by
  rcases s.capture_eq with heq | ⟨p, hp, -, -, heq⟩
  · rw [heq]; exact h
  · have hjobs := jobs_capture s
    have hpass : s.capture.ingestPass = some { p with baseline := some s.doc } := by rw [heq]
    rw [heq] at hjobs hpass ⊢
    refine h.steady ⟨rfl, .inl rfl, id, .inr (by rw [heq])⟩ fun _ hex => ?_
    refine hex.imp id (Or.imp id (Or.imp id (Or.imp id (Or.imp id (Or.imp ?_ id)))))
    rintro ⟨hdef, hany⟩
    exact ⟨hdef, by rw [hjobs]; exact hany⟩

theorem Quiet.seedInserts (h : Quiet io s) (i : ℕ)
    (hok : ∀ t ∈ s.seeding i, text s.doc = [] →
      s.settling = true ∨ s.file = some t ∨ s.ReadDue ∨ s.endEgest.WriteDue) : Quiet io (s.seedInserts io i) := by
  have hfile := file_capture s
  unfold NoteBridge.seedInserts
  split
  · next t hseed =>
    split_ifs with hempty
    · refine h.steady ⟨hfile.2, .inl hfile.1, readDue_capture.mpr, .inr rfl⟩ fun hset _ => ?_
      rcases hok t (by simp [seeding, hseed]) hempty with hsettling | hsame | hread | hwrite
      · exact absurd (hset.symm.trans hsettling) (by decide)
      · refine .inl ?_
        have htext : text (newCells io.freshId s.clock t ++ s.doc) = t := by
          rw [text_append, text_newCells, hempty, List.append_nil]
        change s.capture.file = some (text (newCells io.freshId s.clock t ++ s.doc))
        rw [hfile.1, hsame, htext]
      · exact .inr (.inr (.inl (readDue_capture.mpr hread)))
      · obtain ⟨htimer, hqueue, hdef, -⟩ := flags_capture s
        have hjobs := jobs_capture s
        refine .inr (.inr (.inr ?_))
        rcases hwrite with ht | hq | ⟨hd, hany⟩ | hegest
        · exact .inl (htimer.trans ht)
        · exact .inr (.inl (lt_of_lt_of_eq hq hqueue.symm))
        · exact .inr (.inr (.inl ⟨hdef.trans hd, (congrArg (·.any (·.reconcile)) hjobs).trans hany⟩))
        · simp [NoteBridge.endEgest] at hegest
    · exact h.capture.setSeeds _
  · exact h

/-! ## Runs -/

theorem Quiet.step [DecidableEq H] (hdiff : LawfulDiff io.computeDiff) (h : Quiet io s) (a : Action ι)
    (hok : QuietOk io s a) : Quiet io (step io s a) := by
  cases a with
  | edit d => exact h.edit d
  | external t =>
    have hdue : ∀ s' : NoteBridge ι H, s'.event = true → s'.ReadDue := fun _ => .inl
    exact h.steady ⟨rfl, .inr ⟨hok, hdue _ rfl⟩, fun _ => hdue _ rfl, .inl ⟨rfl, rfl⟩⟩
      fun _ _ => .inr (.inr (.inl (hdue _ rfl)))
  | watcherEvent => exact h.watcherEvent
  | ingestTimerFires =>
    simp only [Bridge.step]
    split_ifs
    · exact h.ingestTimerFires
    · exact h
  | ingestNow => exact h.ingestNow
  | ingestStarts => exact h.ingestStarts
  | ingestReads ok =>
    obtain rfl : ok = true := hok
    exact h.ingestReads
  | ingestHashed => exact h.ingestHashed hdiff hok
  | ingestKept kept => exact h.ingestKept kept
  | ingestSnapshotted => exact h.ingestSnapshotted
  | egestTimerFires =>
    simp only [Bridge.step]
    split_ifs
    · exact h.egestTimerFires
    · exact h
  | egestStarts => exact h.egestStarts
  | egestChecks ok => exact h.egestChecks ok
  | egestHashed => exact h.egestHashed hok
  | egestSavedAside saved =>
    obtain rfl : saved = true := hok
    exact h.egestSavedAside
  | egestWrites => exact h.egestWrites
  | egestWriteFails => exact h.egestWriteFails
  | egestAnswered => exact h.egestAnswered
  | beginPull => exact h.beginPull
  | reconcileAfterPull => exact h.reconcileAfterPull
  | seedStarts =>
    simp only [Bridge.step, NoteBridge.seedStarts]
    split_ifs
    · exact h
    · exact h.setSeeds _
  | seedReads i ok => exact h.seedReads i ok
  | seedInserts i => exact h.seedInserts i hok
  | seedHashed i => exact h.seedHashed i
  | markReadOnly value => exact h.write rfl rfl rfl rfl id id fun hdue => .inr (.inr (.inr hdue))
  | destroy => exact hok.elim

/-- a bridge just opened -/
theorem Quiet.hydrate [DecidableEq H] (o : Opened ι H) (hfile : o.file.isSome = true) : Quiet io (hydrate io o) := by
  have hopen : ∀ s : NoteBridge ι H, s.destroyed = false → s.file.isSome = true → s.ingestPass = none →
      s.Explained io → Quiet io s := fun s hlive hthere hpass hex =>
    ⟨hlive, hthere, .inr hex, fun p hp => by simp [hpass] at hp, fun p hp => by simp [hpass] at hp⟩
  unfold Bridge.hydrate
  split
  · next d hd =>
    unfold hydrateStored
    split_ifs with hseed hempty
    · refine hopen _ rfl hfile rfl (.inr (.inr (.inl (.inr (.inr ⟨rfl, .inl rfl⟩)))))
    · refine hopen _ rfl hfile rfl (.inr (.inl (.inr ⟨Bool.eq_false_of_not_eq_true hseed, hempty, ?_⟩)))
      simp [loaded, hempty]
    · exact hopen _ rfl hfile rfl (.inr (.inr (.inl (.inr (.inl rfl)))))
  · split_ifs with hseed
    · refine hopen _ rfl hfile rfl (.inl ?_)
      obtain ⟨t, ht⟩ := Option.isSome_iff_exists.mp hfile
      simp [Settled, hydrateSeeded, ht]
    · have hunseeded : ∀ s : NoteBridge ι H, s.doc = [] → s.everHadContent = false → s.Explained io :=
        fun s hdoc hhad => .inr (.inl (.inr ⟨Bool.eq_false_of_not_eq_true hseed, by rw [hdoc]; rfl, hhad⟩))
      unfold hydrateUnseeded
      dsimp only
      split_ifs
      · exact hopen _ rfl hfile rfl (hunseeded _ rfl rfl)
      · exact hopen _ rfl hfile rfl (hunseeded _ rfl rfl)
      · exact hopen _ rfl hfile rfl (hunseeded _ rfl rfl)
      · exact hopen _ rfl hfile rfl (hunseeded _ rfl rfl)

end NoteBridge

/-- **Quiescence.** In every run of allowed steps, whenever nothing is due or under way, the file reads what the document
reads, or a refusal of it is in force. -/
theorem quiescent_converged [DecidableEq H] (io : BridgeIO ι H) (hdiff : LawfulDiff io.computeDiff) (o : Opened ι H)
    (hfile : o.file.isSome = true) (as : List (Action ι))
    (hok : Machine.Guarded (step io) (QuietOk io) (hydrate io o) as) (hq : (run io (hydrate io o) as).Quiescent) :
    (run io (hydrate io o) as).Settled ∨ (run io (hydrate io o) as).RefusalInForce io := by
  have hquiet : NoteBridge.Quiet io (run io (hydrate io o) as) :=
    Machine.run_inv (fun _ a h ha => h.step hdiff a ha) (NoteBridge.Quiet.hydrate o hfile) hok
  refine hq.explained (hquiet.explained.resolve_left ?_)
  have hpass : (run io (hydrate io o) as).ingestPass = none := by simpa using hq.2.2.2.2.1
  simp [NoteBridge.settling, hpass]

/-! ## Concrete runs -/

/-- a note that reads `a` is edited and written, and the watcher tells of the write -/
def writtenRun : List (Action (ℕ × ℕ)) :=
  .edit (typedAfter [98]) :: egestSteps ++ [.egestWrites, .egestAnswered] ++ ingestSteps

theorem written_run_settles :
    (run (plainBridge true) (hydrate (plainBridge true) (fileOnly [97])) writtenRun).Settled ∨
      (run (plainBridge true) (hydrate (plainBridge true) (fileOnly [97])) writtenRun).RefusalInForce (plainBridge true) :=
  quiescent_converged (plainBridge true) prefixDiff_lawful (fileOnly [97]) rfl writtenRun (by decide +kernel)
    (by decide +kernel)

/-- after the write another program adds `c`, the bridge merges it, and the editor deletes it again -/
def undone : NoteBridge (ℕ × ℕ) Text := run (plainBridge true) (hydrate (plainBridge true) (fileOnly [97]))
  (writtenRun ++ .external (some [97, 98, 99]) :: ingestSteps ++
    .edit (typedAfter [98] ++ [⟨branchId 1, 99, true⟩]) :: egestSteps)

/-- an egest writes over the version `xyzxyz` that a pass has read and whose recovery snapshot is being written -/
def overtaken : NoteBridge (ℕ × ℕ) Text := run (plainBridge true) (hydrate (plainBridge true) (fileOnly [97]))
  ([.edit (typedAfter [98]), .external (some [120, 121, 122, 120, 121, 122])] ++ ingestSteps ++ egestSteps ++
    [.egestWrites, .egestAnswered, .ingestSnapshotted] ++ ingestSteps)

/-- **Quiescent and apart.** Undoing an external change leaves it in the file; and an egest that overtakes a waiting read
leaves the document with the read and the file with the older text. -/
theorem quiescent_and_apart :
    undone.Quiescent ∧ ¬undone.RefusalInForce (plainBridge true) ∧ undone.file = some [97, 98, 99] ∧
      text undone.doc = [97, 98] ∧
    overtaken.Quiescent ∧ ¬overtaken.RefusalInForce (plainBridge true) ∧ overtaken.file = some [97, 98] ∧
      text overtaken.doc = [120, 121, 122, 120, 121, 122] := by
  refine ⟨?_, ?_, ?_, ?_, ?_, ?_, ?_, ?_⟩ <;> decide +kernel

end Baalda.Bridge
