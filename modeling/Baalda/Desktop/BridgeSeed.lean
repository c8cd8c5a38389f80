/-
Seeding and pulling do not double a note.

A bridge of a signed-in device opens with a document that reads nothing. `never_doubled`: in every run of `SeedOk`
steps the document is exactly what was pulled into it, or what was pulled reads nothing and the document is that with
the file's text inserted once.

`SeedOk` is the order the callers keep: no update of the pull comes after the seed. Nobody but the bridge writes the
file, and the bridge writes nothing but what was pulled, between two passes. A document stored empty is not known to
agree with its file: once it has held text, a pass starts only if it has nothing to take in.
-/
import Baalda.Desktop.NoteBridge
import Baalda.Lib.Slots

namespace Baalda.Bridge

open TextDiff TextCrdt

variable {ι H : Type*}

/-- the write has taken effect, or was refused, and the bridge has not been told -/
def EgestPhase.answered : EgestPhase ι H → Bool
  | .answering _ _ _ => true
  | .checking | .hashing | .savingAside _ _ | .writing _ _ _ => false

namespace NoteBridge

def answering (s : NoteBridge ι H) : Bool := s.egestPass.any (·.phase.answered)

/-- the document has never held text -/
def Untouched (s : NoteBridge ι H) : Prop := text s.doc = [] ∧ s.everHadContent = false

instance (s : NoteBridge ι H) : Decidable s.Untouched := inferInstanceAs (Decidable (_ ∧ _))

/-- the file reads what the document reads, and the next pass compares the two -/
def InStep (s : NoteBridge ι H) : Prop := s.file = some (text s.doc) ∧ ∀ job ∈ s.ingestQueue.head?, job.base = none

instance [DecidableEq ι] (s : NoteBridge ι H) : Decidable s.InStep := inferInstanceAs (Decidable (_ ∧ _))

end NoteBridge

/-! ## What a run must not do -/

/-- `cleared`: the document was stored, and reads nothing -/
def SeedOk [DecidableEq H] (io : BridgeIO ι H) (cleared : Bool) (s : NoteBridge ι H) : Action ι → Prop
  | .edit _ => s.clock = 0 ∧ s.destroyed = false
  | .external _ => False
  | .ingestStarts => s.answering = false ∧
      (cleared = true → s.Untouched ∨ s.lastWrittenHash = some (s.fileHash io) ∨ s.InStep)
  | .egestWrites => s.ingestPass.isNone = true ∧
      ((s.egestWrites io).file = s.file ∨ s.everHadContent = true ∧ s.clock = 0)
  | .seedInserts i => ∀ t ∈ s.seeding i, s.file = some t
  | _ => True

instance [DecidableEq ι] [DecidableEq H] (io : BridgeIO ι H) (cleared : Bool) (s : NoteBridge ι H) (a : Action ι) :
    Decidable (SeedOk io cleared s a) := by
  apply @Action.casesOn ι (fun a => Decidable (SeedOk io cleared s a)) a <;> intros <;> dsimp only [SeedOk] <;>
    infer_instance

/-- the document after an update of the pull -/
def pulledBy (d : Doc ι UInt16) : Action ι → Doc ι UInt16
  | .edit d' => d'
  | _ => d

namespace NoteBridge

/-! ## The invariant -/

/-- a state that may become the base of a pass reads nothing, as long as the document has never held text -/
def BaseOk (s : NoteBridge ι H) (b : Doc ι UInt16) : Prop := s.everHadContent = false → text b = []

def EgestOk (io : BridgeIO ι H) (cleared : Bool) (s : NoteBridge ι H) (content : Text) : EgestPhase ι H → Prop
  | .checking | .hashing => True
  | .savingAside _ hash => hash = io.sha256 content
  | .writing hash expected state => hash = io.sha256 content ∧ (∀ b, state = some b → s.BaseOk b) ∧
      (cleared = false → ∀ x, expected = some x → x = s.fileHash io)
  | .answering hash state stale => hash = io.sha256 content ∧ (∀ b, state = some b → s.BaseOk b) ∧
      (stale = false → s.file = some content) ∧ (cleared = false → stale = false)

/-- a pass merges nothing: it began before there was text, or its read is the bridge's own, or its baseline's text -/
def PassOk (io : BridgeIO ι H) (s : NoteBridge ι H) (p : IngestPass ι H) : Prop :=
  (p.hadContent = false ∧ text (s.baselineOf p) = []) ∨ s.lastWrittenHash = some (s.fileHash io) ∨
    (p.job.base = none ∧ s.file = some (text (s.baselineOf p)))

def PhaseOk (io : BridgeIO ι H) (s : NoteBridge ι H) : IngestPhase H → Prop
  | .reading => True
  | .hashing t => s.file = some t
  | .keeping t x => s.file = some t ∧ x = io.sha256 t
  | .snapshotting _ _ _ => False

/-- `d`: what was pulled -/
structure SeedInv (io : BridgeIO ι H) (cleared : Bool) (s : NoteBridge ι H) (d : Doc ι UInt16) : Prop where
  doc : (s.clock = 0 ∧ s.doc = d) ∨
    (s.clock ≠ 0 ∧ text d = [] ∧ ∃ t, t ≠ [] ∧ s.file = some t ∧ s.doc = newCells io.freshId 0 t ++ d)
  had : s.everHadContent = false → text s.doc = []
  inserting : ∀ t, SeedPhase.inserting t ∈ s.seeds → t ≠ []
  hashing : ∀ t, SeedPhase.hashing t ∈ s.seeds → s.clock ≠ 0 ∧ s.file = some t
  egest : ∀ e, s.egestPass = some e → EgestOk io cleared s e.content e.phase
  pass : ∀ p, s.ingestPass = some p → PassOk io s p ∧ PhaseOk io s p.phase ∧ s.answering = false
  pull : ∀ b, s.prePull = some b → s.BaseOk b
  queue : ∀ job ∈ s.ingestQueue, ∀ b, job.base = some b → s.BaseOk b
  seen : ∀ x b, s.observed = some (x, some b) → s.BaseOk b
  fresh : cleared = false → s.answering = false →
    s.lastWrittenHash = some (s.fileHash io) ∧ ∀ x st, s.observed = some (x, st) → x = s.fileHash io

variable {io : BridgeIO ι H} {cleared : Bool} {s : NoteBridge ι H} {d : Doc ι UInt16}

variable {p : IngestPass ι H}

theorem PassOk.of_baseline {s' : NoteBridge ι H} {q : IngestPass ι H} (h : PassOk io s p)
    (hlw : s'.lastWrittenHash = s.lastWrittenHash) (hfile : s'.file = s.file) (hhad : q.hadContent = p.hadContent)
    (hjob : q.job = p.job) (hbase : s'.baselineOf q = s.baselineOf p) : PassOk io s' q := by
  unfold PassOk fileHash at h ⊢
  rw [hlw, hfile, hhad, hjob, hbase]
  exact h

/-- a pass on a branch does not see the document change -/
theorem baselineOf_branch (h : p.branch ≠ none) (s' : NoteBridge ι H) : s'.baselineOf p = s.baselineOf p := by
  unfold baselineOf
  obtain ⟨b, hb⟩ := Option.ne_none_iff_exists'.mp h
  rw [hb]
  rfl

/-! ## The document changes -/

theorem SeedInv.capture (h : SeedInv io cleared s d) : SeedInv io cleared s.capture d := by
  rcases s.capture_eq with heq | ⟨p, hp, hbase, hbaseline, heq⟩
  · rw [heq]; exact h
  · rw [heq]
    refine { h with pass := ?_ }
    intro q hq
    cases hq
    obtain ⟨hpass, hphase, hanswer⟩ := h.pass p hp
    refine ⟨hpass.of_baseline rfl rfl rfl rfl ?_, hphase, hanswer⟩
    simp [baselineOf, IngestPass.branch, hbase, hbaseline]

theorem had_of_setDoc {d' : Doc ι UInt16} (h : (s.setDoc d').everHadContent = false) :
    s.everHadContent = false ∧ text d' = [] := by
  simpa [NoteBridge.setDoc] using h

/-- an update of the pull, with every pass under way on a branch -/
theorem SeedInv.setDoc (h : SeedInv io cleared s d) (hclock : s.clock = 0)
    (hbranch : ∀ p, s.ingestPass = some p → p.branch ≠ none) (d' : Doc ι UInt16) :
    SeedInv io cleared (s.setDoc d') d' := by
  have hbase : ∀ {b : Doc ι UInt16}, s.BaseOk b → (s.setDoc d').BaseOk b := fun hb hfalse => hb (had_of_setDoc hfalse).1
  refine { h with
    doc := .inl ⟨hclock, rfl⟩, had := fun hfalse => (had_of_setDoc hfalse).2, egest := ?_, pass := ?_
    pull := fun b hb => hbase (h.pull b hb), queue := fun job hjob b hb => hbase (h.queue job hjob b hb)
    seen := fun x b hx => hbase (h.seen x b hx) }
  · intro e he
    have hold := h.egest e he
    revert hold
    cases e.phase with
    | checking | hashing | savingAside u x => exact id
    | writing x expected st | answering x st stale => exact And.imp id (And.imp (fun hb b hst => hbase (hb b hst)) id)
  · intro p hp
    obtain ⟨hpass, hphase, hanswer⟩ := h.pass p hp
    exact ⟨hpass.of_baseline rfl rfl rfl rfl (baselineOf_branch (hbranch p hp) _), hphase, hanswer⟩

theorem SeedInv.edit (h : SeedInv io cleared s d) (hclock : s.clock = 0) (hlive : s.destroyed = false)
    (d' : Doc ι UInt16) : SeedInv io cleared (s.edit d') d' := by
  have hclock' : s.capture.clock = 0 := by
    rw [s.capture_same]
    exact hclock
  have hset := h.capture.setDoc hclock' (fun p hp => (capture_some hp).choose_spec.2.2) d'
  unfold NoteBridge.edit
  rw [if_neg (by simp [hlive])]
  obtain ⟨v, tm, heq⟩ := scheduleEgest_eq (s.capture.setDoc d')
  rw [heq]
  exact { hset with }

/-! ## The verdict on a read -/

theorem observe_state [DecidableEq H] (s : NoteBridge ι H) (x : H) {y : H} {b : Doc ι UInt16}
    (h : (s.observe x).observed = some (y, some b)) : s.observed = some (y, some b) := by
  unfold NoteBridge.observe at h
  split_ifs at h
  · exact h
  · cases h

/-- a read that agrees with the file's hash, and changes only what the bridge knows of the file -/
theorem SeedInv.reads (h : SeedInv io cleared s d) (hp : s.ingestPass = some p) {t : Text} (ht : s.file = some t)
    {l base : Option H} {o : Option (H × Option (Doc ι UInt16))} {pass : Option (IngestPass ι H)} (r : Option Text)
    (acc : List (H × Account)) (v tm : Bool) (hl : l = s.lastWrittenHash ∨ l = some (io.sha256 t))
    (ho : o.map Prod.fst = some (io.sha256 t)) (hob : ∀ x b, o = some (x, some b) → s.BaseOk b)
    (hpass : ∀ q, pass = some q → q.hadContent = p.hadContent ∧ q.job = p.job ∧ q.branch = p.branch ∧
      PhaseOk io s q.phase) :
    SeedInv io cleared { s with
      lastWrittenHash := l, diskBase := base, observed := o, refused := r, accounts := acc, ingestPass := pass
      egestDeferred := v, egestTimer := tm } d := by
  obtain ⟨hold, -, hanswer⟩ := h.pass p hp
  have hhash : s.fileHash io = io.sha256 t := by rw [fileHash, ht]; rfl
  refine { h with pass := ?_, seen := hob, fresh := ?_ }
  · intro q hq
    obtain ⟨hhad, hjob, hbranch, hphase⟩ := hpass q hq
    refine ⟨?_, hphase, hanswer⟩
    rcases hl with hl | hl
    · exact hold.of_baseline hl rfl hhad hjob (congrArg (Option.getD · s.doc) hbranch)
    · exact .inr (.inl (hl.trans (by rw [← hhash]; rfl)))
  · intro hfresh _
    refine ⟨?_, fun x st hx => ?_⟩
    · rcases hl with hl | hl
      · exact hl.trans (h.fresh hfresh hanswer).1
      · exact hl.trans (by rw [← hhash]; rfl)
    · have hseen : o = some (x, st) := hx
      rw [hseen] at ho
      exact (Option.some.inj ho).trans hhash.symm

/-- a pass ends, or waits for a copy: it never brings the read into the document -/
theorem SeedInv.judged [DecidableEq H] (hsigned : io.seedOnOpen = false) (h : SeedInv io cleared s d)
    (hp : s.ingestPass = some p) {t : Text} (hphase : p.phase = .hashing t) :
    SeedInv io cleared (judged io s p t) d := by
  obtain ⟨hpass, hfile, -⟩ := h.pass p hp
  rw [hphase] at hfile
  have ht : s.file = some t := hfile
  have hnone : ∀ q : IngestPass ι H, (none : Option (IngestPass ι H)) = some q →
      q.hadContent = p.hadContent ∧ q.job = p.job ∧ q.branch = p.branch ∧ PhaseOk io s q.phase :=
    fun q hq => absurd hq (by simp)
  obtain ⟨o, ho, heq⟩ := s.observe_eq (io.sha256 t)
  have hob : ∀ y b, o = some (y, some b) → s.BaseOk b := fun y b hb =>
    h.seen y b (observe_state s (io.sha256 t) (by rw [heq]; exact hb))
  have hrefuse : SeedInv io cleared ({ s with observed := o }.refuse p t (io.sha256 t)) d := by
    obtain ⟨v, tm, hr⟩ := refuse_eq { s with observed := o } p t (io.sha256 t)
    rw [hr]
    exact h.reads hp ht _ _ v tm (.inl rfl) ho hob hnone
  have hwrite : ∀ acc, SeedInv io cleared ({ s with observed := o, accounts := acc }.writeOut p (io.sha256 t)) d := by
    intro acc
    obtain ⟨v, tm, hr⟩ := writeOut_eq { s with observed := o, accounts := acc } p (io.sha256 t)
    rw [hr]
    exact h.reads hp ht _ _ v tm (.inr rfl) ho hob hnone
  have hend : ∀ acc, SeedInv io cleared ({ s with observed := o, accounts := acc }.endIngest p.job) d := by
    intro acc
    obtain ⟨v, tm, hr⟩ := endIngest_eq { s with observed := o, accounts := acc } p.job
    rw [hr]
    exact h.reads hp ht _ _ v tm (.inl rfl) ho hob hnone
  have hno : ∀ ds large, s.verdict io p t ≠ .merge ds large ∧ s.verdict io p t ≠ .nothingOwn := by
    intro ds large
    rcases hpass with ⟨hhad, hempty⟩ | hlw | ⟨hjob, hread⟩
    · exact judge_unseeded hsigned hhad hempty ds large
    · have hknown : s.lastWrittenHash = some (io.sha256 t) := by
        rw [hlw, fileHash, ht]
        rfl
      have hecho : s.verdict io p t = .echo := judge_of_written hknown
      rw [hecho]
      exact ⟨by simp, by simp⟩
    · obtain rfl : t = text (s.baselineOf p) := Option.some.inj (ht.symm.trans hread)
      refine ⟨fun hmerge => (judge_merge hmerge).2.2.1 rfl, fun hown => ?_⟩
      exact absurd (judge_nothingOwn hown).1 (by simp [hjob])
  unfold NoteBridge.judged
  dsimp only
  rw [heq]
  split_ifs with hover
  · exact hrefuse
  · cases hv : s.verdict io p t with
    | echo => exact hend s.accounts
    | converged =>
      obtain ⟨v, tm, hr⟩ := endIngest_eq (({ s with
        lastWrittenHash := some (io.sha256 t), diskBase := some (io.sha256 t), refused := none }.observeState
          (io.sha256 t) (some s.doc)).account (io.sha256 t) .held) p.job
      rw [hr]
      refine h.reads hp ht _ _ v tm (.inr rfl) rfl ?_ hnone
      intro y b hb hhad
      have hpair : (io.sha256 t, some s.doc) = (y, some b) := Option.some.inj hb
      obtain rfl : s.doc = b := Option.some.inj (congrArg Prod.snd hpair)
      exact h.had hhad
    | behindDiskBase => exact hwrite s.accounts
    | behindBaseline moved =>
      cases moved with
      | true => exact hwrite _
      | false => exact hend _
    | blank | readOnlyEmpty | unseeded => exact hrefuse
    | readOnly =>
      refine h.reads hp ht _ _ s.egestDeferred s.egestTimer (.inl rfl) ho hob ?_
      intro q hq
      cases hq
      exact ⟨rfl, rfl, rfl, ht, rfl⟩
    | nothingOwn => exact absurd hv (hno [] true).2
    | merge ds large => exact absurd hv (hno ds large).1

/-! ## The other steps of the ingest chain -/

theorem SeedInv.queued (h : SeedInv io cleared s d) {job : IngestJob ι} (hjob : ∀ b, job.base = some b → s.BaseOk b) :
    ∀ j ∈ s.ingestQueue ++ [job], ∀ b, j.base = some b → s.BaseOk b := by
  intro j hj
  rcases List.mem_snoc.1 hj with hold | rfl
  · exact h.queue j hold
  · exact hjob

theorem SeedInv.ingestStarts [DecidableEq H] (h : SeedInv io cleared s d) (hok : SeedOk io cleared s .ingestStarts) :
    SeedInv io cleared s.ingestStarts d := by
  obtain ⟨hanswer, hclear⟩ := hok
  unfold NoteBridge.ingestStarts
  split
  · next job rest hpass hqueue =>
    have hrest : ∀ j ∈ rest, ∀ b, j.base = some b → s.BaseOk b :=
      fun j hj => h.queue j (by rw [hqueue]; exact .tail _ hj)
    split_ifs
    · obtain ⟨v, tm, heq⟩ := endIngest_eq { s with ingestQueue := rest } job
      rw [heq]
      exact { h with queue := hrest, pass := fun p hp => absurd hp (by simp) }
    · refine { h with queue := hrest, pass := ?_ }
      intro p hp
      cases hp
      refine ⟨?_, trivial, hanswer⟩
      cases hc : cleared with
      | false => exact .inr (.inl (h.fresh hc hanswer).1)
      | true =>
        rcases hclear hc with ⟨hempty, hhad⟩ | hlw | ⟨hsame, hhead⟩
        · -- a fixed base is of a document that has never held text
          refine .inl ⟨hhad, ?_⟩
          cases hbase : job.base with
          | none => simpa [baselineOf, IngestPass.branch, hbase] using hempty
          | some b =>
            have hblank := h.queue job (by rw [hqueue]; exact .head _) b hbase hhad
            simpa [baselineOf, IngestPass.branch, hbase] using hblank
        · exact .inr (.inl hlw)
        · have hbase : job.base = none := hhead job (by rw [hqueue]; rfl)
          refine .inr (.inr ⟨hbase, ?_⟩)
          simpa [baselineOf, IngestPass.branch, hbase] using hsame
  · exact h

theorem SeedInv.ingestReads (h : SeedInv io cleared s d) (ok : Bool) : SeedInv io cleared (s.ingestReads ok) d := by
  unfold NoteBridge.ingestReads
  split
  · next p hp =>
    obtain ⟨hpass, -, hanswer⟩ := h.pass p hp
    split
    · split
      · next t hread =>
        have ht : s.file = some t := by
          unfold readFile at hread
          split_ifs at hread
          exact hread
        refine { h with pass := ?_ }
        intro q hq
        cases hq
        exact ⟨hpass, ht, hanswer⟩
      · obtain ⟨v, tm, heq⟩ := endIngest_eq { s with observed := none } p.job
        rw [heq]
        refine { h with
          pass := fun q hq => by simp at hq, seen := fun _ _ hx => by simp at hx, fresh := ?_ }
        exact fun hc ha => ⟨(h.fresh hc ha).1, fun _ _ hx => by simp at hx⟩
    · exact h
  · exact h

theorem SeedInv.ingestHashed [DecidableEq H] (hsigned : io.seedOnOpen = false) (h : SeedInv io cleared s d) :
    SeedInv io cleared (s.ingestHashed io) d := by
  unfold NoteBridge.ingestHashed
  split
  · next p hp =>
    split
    · next t hphase => exact h.judged hsigned hp hphase
    · exact h
  · exact h

theorem SeedInv.ingestKept (h : SeedInv io cleared s d) (kept : Bool) : SeedInv io cleared (s.ingestKept kept) d := by
  unfold NoteBridge.ingestKept
  split
  · next p hp =>
    split
    · next t x hphase =>
      obtain ⟨-, hkeep, hanswer⟩ := h.pass p hp
      rw [hphase] at hkeep
      obtain ⟨ht, hx⟩ := hkeep
      have hhash : s.fileHash io = x := by rw [fileHash, ht, hx]; rfl
      have hnone : ∀ q : IngestPass ι H, (none : Option (IngestPass ι H)) = some q →
          PassOk io s q ∧ PhaseOk io s q.phase ∧ s.answering = false := fun q hq => absurd hq (by simp)
      split_ifs with hlost hd
      · obtain ⟨v, tm, heq⟩ := s.endIngest_eq p.job
        rw [heq]
        exact { h with pass := hnone }
      · obtain ⟨v, tm, heq⟩ := (s.account x .savedAside).endIngest_eq p.job
        rw [heq]
        exact { h with pass := hnone }
      · obtain ⟨v, tm, heq⟩ := (s.account x .savedAside).writeOut_eq p x
        rw [heq]
        refine { h with pass := fun q hq => by simp at hq, fresh := ?_ }
        exact fun hc ha => ⟨congrArg some hhash.symm, (h.fresh hc ha).2⟩
    · exact h
  · exact h

theorem SeedInv.ingestSnapshotted (h : SeedInv io cleared s d) : SeedInv io cleared (s.ingestSnapshotted io) d := by
  unfold NoteBridge.ingestSnapshotted
  split
  · next p hp =>
    split
    · next t x ds hphase =>
      obtain ⟨-, hnever, -⟩ := h.pass p hp
      rw [hphase] at hnever
      exact hnever.elim
    · exact h
  · exact h

/-! ## The steps of the egest chain -/

/-- the egest moves to another phase, or ends, outside the answer to a write -/
theorem SeedInv.setEgest (h : SeedInv io cleared s d) {e : Option (EgestPass ι H)}
    (he : ∀ x, e = some x → EgestOk io cleared s x.content x.phase ∧ x.phase.answered = false)
    (hnot : s.answering = false) : SeedInv io cleared { s with egestPass := e } d := by
  have hanswer : ({ s with egestPass := e } : NoteBridge ι H).answering = false := by
    cases e with
    | none => rfl
    | some x => exact (he x rfl).2
  refine { h with egest := fun x hx => (he x hx).1, pass := ?_, fresh := fun hc _ => h.fresh hc hnot }
  exact fun p hp => ⟨(h.pass p hp).1, (h.pass p hp).2.1, hanswer⟩

theorem answering_of_phase {e : EgestPass ι H} (he : s.egestPass = some e) (hphase : e.phase.answered = false) :
    s.answering = false := by
  rw [answering, he]
  exact hphase

theorem SeedInv.egestStarts (h : SeedInv io cleared s d) : SeedInv io cleared s.egestStarts d := by
  unfold NoteBridge.egestStarts
  split
  · exact h
  · next hnone =>
    split_ifs
    · exact h
    · exact { h with }
    · have hnot : s.answering = false := by rw [answering, hnone]; rfl
      have hset := h.setEgest (e := some ⟨text s.doc, s.firstPhase⟩) ?_ hnot
      · exact { hset with }
      · intro x hx
        cases hx
        unfold firstPhase
        split_ifs
        · exact ⟨trivial, rfl⟩
        · exact ⟨trivial, rfl⟩

theorem SeedInv.egestChecks (h : SeedInv io cleared s d) (ok : Bool) : SeedInv io cleared (s.egestChecks ok) d := by
  unfold NoteBridge.egestChecks
  split
  · next e he =>
    split
    · next hphase =>
      have hnot : s.answering = false := answering_of_phase he (by rw [hphase]; rfl)
      split
      · have hend := h.setEgest (e := none) (fun x hx => by simp at hx) hnot
        exact { hend with }
      · refine h.setEgest ?_ hnot
        intro x hx
        cases hx
        exact ⟨trivial, rfl⟩
    · exact h
  · exact h

/-- the compare-and-swap is set up with the hash of the file, as far as the bridge knows one -/
theorem SeedInv.takesExpected (h : SeedInv io cleared s d) (hnot : s.answering = false) (e : EgestPass ι H) :
    SeedInv io cleared (s.takesExpected e (io.sha256 e.content)) d := by
  refine h.setEgest ?_ hnot
  intro x hx
  cases hx
  refine ⟨⟨rfl, ?_, ?_⟩, rfl⟩
  · intro b hb hhad
    unfold stateIfText at hb
    split_ifs at hb
    cases hb
    exact h.had hhad
  · intro hc y hy
    obtain ⟨⟨z, st⟩, hobs, rfl⟩ := Option.map_eq_some_iff.mp hy
    exact (h.fresh hc hnot).2 z st hobs

theorem SeedInv.egestHashed [DecidableEq H] (h : SeedInv io cleared s d) : SeedInv io cleared (s.egestHashed io) d := by
  unfold NoteBridge.egestHashed
  split
  · next e he =>
    split
    · next hphase =>
      have hnot : s.answering = false := answering_of_phase he (by rw [hphase]; rfl)
      have hforget : ∀ acc, SeedInv io cleared { s with unagreedFile := none, accounts := acc } d :=
        fun acc => { h with }
      unfold comparesHash
      split_ifs
      · exact (hforget _).setEgest (e := none) (fun x hx => by simp at hx) hnot
      · split
        · exact h.takesExpected hnot e
        · split_ifs
          · exact (hforget _).takesExpected hnot e
          · refine h.setEgest ?_ hnot
            intro x hx
            cases hx
            exact ⟨rfl, rfl⟩
          · exact (hforget s.accounts).takesExpected hnot e
    · exact h
  · exact h

theorem SeedInv.egestSavedAside [DecidableEq H] (h : SeedInv io cleared s d) (saved : Bool) :
    SeedInv io cleared (s.egestSavedAside saved) d := by
  unfold NoteBridge.egestSavedAside
  split
  · next e he =>
    split
    · next u hash hphase =>
      have hnot : s.answering = false := answering_of_phase he (by rw [hphase]; rfl)
      obtain rfl : hash = io.sha256 e.content := by
        have hold := h.egest e he
        rw [hphase] at hold
        exact hold
      have hforget : ∀ f acc, SeedInv io cleared { s with unagreedFile := f, accounts := acc } d :=
        fun f acc => { h with }
      dsimp only
      generalize (if s.unagreedFile = some u then none else s.unagreedFile) = f
      split_ifs
      · exact (hforget f _).setEgest (e := none) (fun x hx => by simp at hx) hnot
      · exact (hforget f _).takesExpected hnot e
      · exact h.setEgest (e := none) (fun x hx => by simp at hx) hnot
    · exact h
  · exact h

/-- **The write.** The file of a seeded document is not changed by it. -/
theorem SeedInv.egestWrites [DecidableEq H] (h : SeedInv io cleared s d) (hidle : s.ingestPass.isNone = true)
    (hkeeps : (s.egestWrites io).file = s.file ∨ s.everHadContent = true ∧ s.clock = 0) :
    SeedInv io cleared (s.egestWrites io) d := by
  have hnopass : ∀ p, s.ingestPass ≠ some p := fun p hp => by rw [hp] at hidle; cases hidle
  have hkept : s.clock ≠ 0 → (s.egestWrites io).file = s.file :=
    fun hclock => hkeeps.resolve_right fun hboth => hclock hboth.2
  revert hkept
  unfold NoteBridge.egestWrites
  split
  · next e he =>
    split
    · next hash expected st hphase =>
      obtain ⟨hhash, hst, hexp⟩ : hash = io.sha256 e.content ∧ (∀ b, st = some b → s.BaseOk b) ∧
          (cleared = false → ∀ x, expected = some x → x = s.fileHash io) := by
        have hold := h.egest e he
        rw [hphase] at hold
        exact hold
      split_ifs with hmatch
      · intro hkept
        refine { h with
          doc := ?_, hashing := ?_, egest := ?_, pass := fun p hp => absurd hp (hnopass p), fresh := ?_ }
        · refine h.doc.imp id ?_
          rintro ⟨hclock, hempty, t, hne, hfile, hdoc⟩
          exact ⟨hclock, hempty, t, hne, (hkept hclock).trans hfile, hdoc⟩
        · intro t ht
          obtain ⟨hclock, hfile⟩ := h.hashing t ht
          exact ⟨hclock, (hkept hclock).trans hfile⟩
        · intro x hx
          cases hx
          exact ⟨hhash, hst, fun _ => rfl, fun _ => rfl⟩
        · exact fun _ hanswer => absurd hanswer (by simp [answering, NoteBridge.setEgest, EgestPhase.answered])
      · intro _
        refine { h with egest := ?_, pass := fun p hp => absurd hp (hnopass p), fresh := ?_ }
        · intro x hx
          cases hx
          refine ⟨hhash, hst, fun hfalse => absurd hfalse (by decide), fun hc => ?_⟩
          -- the bridge has seen every change of the file
          refine absurd ?_ hmatch
          cases expected with
          | none => rfl
          | some y => simpa using hexp hc y rfl
        · exact fun _ hanswer => absurd hanswer (by simp [answering, NoteBridge.setEgest, EgestPhase.answered])
    · exact fun _ => h
  · exact fun _ => h

theorem SeedInv.egestWriteFails (h : SeedInv io cleared s d) : SeedInv io cleared s.egestWriteFails d := by
  unfold NoteBridge.egestWriteFails
  split
  · next e he =>
    split
    · next hash expected st hphase =>
      have hnot : s.answering = false := answering_of_phase he (by rw [hphase]; rfl)
      have hend := h.setEgest (e := none) (fun x hx => by simp at hx) hnot
      unfold scheduleEgestRetry
      split_ifs
      · exact hend
      · exact { hend with }
    · exact h
  · exact h

theorem SeedInv.egestAnswered [DecidableEq H] (h : SeedInv io cleared s d) : SeedInv io cleared s.egestAnswered d := by
  unfold NoteBridge.egestAnswered
  split
  · next e he =>
    split
    · next hash st stale hphase =>
      obtain ⟨hhash, hst, hfile, hfresh⟩ : hash = io.sha256 e.content ∧ (∀ b, st = some b → s.BaseOk b) ∧
          (stale = false → s.file = some e.content) ∧ (cleared = false → stale = false) := by
        have hold := h.egest e he
        rw [hphase] at hold
        exact hold
      have hnopass : ∀ p, s.ingestPass ≠ some p := by
        intro p hp
        have hnot := (h.pass p hp).2.2
        rw [answering, he, Option.any_some, hphase] at hnot
        simp [EgestPhase.answered] at hnot
      have hnone : ∀ x : EgestPass ι H, (none : Option (EgestPass ι H)) = some x →
          EgestOk io cleared s x.content x.phase := fun x hx => absurd hx (by simp)
      split_ifs with hstale hsame
      · unfold mergeStaleFile
        have hnever : cleared ≠ false := fun hc => absurd (hstale.symm.trans (hfresh hc)) (by decide)
        split_ifs
        · exact { h with
            egest := hnone, pass := fun p hp => absurd hp (hnopass p), fresh := fun hc => absurd hc hnever }
        · refine { h with
            egest := hnone, pass := fun p hp => absurd hp (hnopass p), queue := h.queued ?_
            fresh := fun hc => absurd hc hnever }
          intro b hb
          obtain ⟨⟨x, st'⟩, hobs, rfl⟩ := Option.bind_eq_some_iff.mp hb
          exact h.seen x b hobs
      all_goals
        have hsome := hfile (Bool.eq_false_of_not_eq_true hstale)
        have hnow : hash = s.fileHash io := by rw [hhash, fileHash, hsome]; rfl
        refine { h with egest := hnone, pass := fun p hp => absurd hp (hnopass p), seen := ?_, fresh := ?_ }
        · intro x b hx
          have hpair : (hash, st) = (x, some b) := Option.some.inj hx
          exact hst b (congrArg Prod.snd hpair)
        · refine fun _ _ => ⟨congrArg some hnow, fun x st' hx => ?_⟩
          have hpair : (hash, st) = (x, st') := Option.some.inj hx
          exact (congrArg Prod.fst hpair).symm.trans hnow
    · exact h
  · exact h

/-! ## The steps of a seed -/

section

variable (h : SeedInv io cleared s d)

include h

/-- a seed goes on to a phase that knows nothing of a file, or knows it -/
theorem SeedInv.setSeed (i : ℕ) {ph : SeedPhase} (hins : ∀ t, ph = .inserting t → t ≠ [])
    (hhash : ∀ t, ph ≠ .hashing t) : SeedInv io cleared { s with seeds := s.seeds.set i ph } d := by
  refine { h with inserting := ?_, hashing := ?_ }
  · intro t ht
    rcases List.mem_or_eq_of_mem_set ht with hold | hnew
    · exact h.inserting t hold
    · exact hins t hnew.symm
  · intro t ht
    rcases List.mem_or_eq_of_mem_set ht with hold | hnew
    · exact h.hashing t hold
    · exact absurd hnew.symm (hhash t)

theorem SeedInv.seedStarts : SeedInv io cleared s.seedStarts d := by
  unfold NoteBridge.seedStarts
  split_ifs
  · exact h
  · refine { h with inserting := ?_, hashing := ?_ }
    · exact fun t ht => h.inserting t (by simpa using ht)
    · exact fun t ht => h.hashing t (by simpa using ht)

theorem SeedInv.seedReads (i : ℕ) (ok : Bool) : SeedInv io cleared (s.seedReads i ok) d := by
  unfold NoteBridge.seedReads
  split_ifs
  · split
    · refine h.setSeed i ?_ (by simp)
      intro t ht
      obtain rfl := SeedPhase.inserting.inj ht
      simp
    · exact h.setSeed i (by simp) (by simp)
  · exact h

/-- a document that reads nothing takes the file's text, with every pass under way on a branch -/
theorem SeedInv.seeded (hempty : text s.doc = []) {t : Text} (hne : t ≠ [])
    (hfile : s.file = some t) (hbranch : ∀ p, s.ingestPass = some p → p.branch ≠ none) (i : ℕ)
    (acc : List (H × Account)) : SeedInv io cleared ({ s with
      seeds := s.seeds.set i (.hashing t), unagreedFile := none, refused := none, clock := s.clock + t.length
      accounts := acc }.setDoc (newCells io.freshId s.clock t ++ s.doc)) d := by
  obtain ⟨hclock, hdoc⟩ : s.clock = 0 ∧ s.doc = d := by
    refine h.doc.resolve_right ?_
    rintro ⟨-, -, t', hne', -, hdoc⟩
    rw [hdoc, text_append, text_newCells] at hempty
    exact hne' (List.append_eq_nil_iff.mp hempty).1
  have hlen : s.clock + t.length ≠ 0 := by
    have := List.length_pos_iff.mpr hne
    omega
  -- it has held text from now on
  have hever : ∀ {P : Prop} {s' : NoteBridge ι H},
      (s'.setDoc (newCells io.freshId s.clock t ++ s.doc)).everHadContent = false → P := by
    intro P s' hfalse
    have hblank := (had_of_setDoc hfalse).2
    rw [text_append, text_newCells] at hblank
    exact absurd (List.append_eq_nil_iff.mp hblank).1 hne
  refine { h with
    doc := ?_, had := hever, inserting := ?_, hashing := ?_, egest := ?_, pass := ?_, pull := fun _ _ => hever
    queue := fun _ _ _ _ => hever, seen := fun _ _ _ => hever }
  · refine .inr ⟨hlen, hdoc ▸ hempty, t, hne, hfile, ?_⟩
    simp only [NoteBridge.setDoc]
    rw [hclock, hdoc]
  · intro t' ht'
    rcases List.mem_or_eq_of_mem_set ht' with hold | hnew
    · exact h.inserting t' hold
    · cases hnew
  · intro t' ht'
    refine ⟨hlen, ?_⟩
    rcases List.mem_or_eq_of_mem_set ht' with hold | hnew
    · exact (h.hashing t' hold).2
    · rw [SeedPhase.hashing.inj hnew]
      exact hfile
  · intro e he
    have hold := h.egest e he
    revert hold
    cases e.phase with
    | checking | hashing | savingAside u x => exact id
    | writing x expected st | answering x st stale => exact And.imp id (And.imp (fun _ _ _ => hever) id)
  · intro p hp
    obtain ⟨hpass, hphase, hanswer⟩ := h.pass p hp
    exact ⟨hpass.of_baseline rfl rfl rfl rfl (baselineOf_branch (hbranch p hp) _), hphase, hanswer⟩

/-- **The seed.** It inserts into what was pulled, which reads nothing, and nothing else is in the document. -/
theorem SeedInv.seedInserts (i : ℕ) (hok : ∀ t ∈ s.seeding i, s.file = some t) :
    SeedInv io cleared (s.seedInserts io i) d := by
  have hcapture := h.capture
  have hbranch : ∀ p, s.capture.ingestPass = some p → p.branch ≠ none := fun p hp => (capture_some hp).choose_spec.2.2
  rw [s.capture_same] at hcapture
  unfold NoteBridge.seedInserts
  split
  · next t hseed =>
    have hne : t ≠ [] := h.inserting t (List.mem_of_getElem? hseed)
    have hfile : s.file = some t := hok t (by simp [seeding, hseed])
    split_ifs with hempty
    · rw [s.capture_same]
      exact hcapture.seeded hempty hne hfile hbranch i ((io.sha256 t, .merged) :: s.accounts)
    · rw [s.capture_same]
      exact hcapture.setSeed i (by simp) (by simp)
  · exact h

theorem SeedInv.seedHashed (i : ℕ) : SeedInv io cleared (s.seedHashed io i) d := by
  unfold NoteBridge.seedHashed
  split
  · next t hseed =>
    obtain ⟨hclock, hfile⟩ := h.hashing t (List.mem_of_getElem? hseed)
    have hhash : s.fileHash io = io.sha256 t := by rw [fileHash, hfile]; rfl
    have hhad : s.everHadContent ≠ false := by
      intro hfalse
      have hempty := h.had hfalse
      rcases h.doc with ⟨hzero, -⟩ | ⟨-, -, t', hne, -, hdoc⟩
      · exact hclock hzero
      · rw [hdoc, text_append, text_newCells] at hempty
        exact hne (List.append_eq_nil_iff.mp hempty).1
    have hset : SeedInv io cleared { s with seeds := s.seeds.set i .done } d := h.setSeed i (by simp) (by simp)
    refine { hset with pass := ?_, seen := fun _ _ _ hf => absurd hf hhad, fresh := ?_ }
    · exact fun p hp => ⟨.inr (.inl (congrArg some hhash.symm)), (h.pass p hp).2⟩
    · refine fun _ _ => ⟨congrArg some hhash.symm, fun x st hx => ?_⟩
      have hpair : (io.sha256 t, stateIfText t s.doc) = (x, st) := Option.some.inj hx
      exact (congrArg Prod.fst hpair).symm.trans hhash.symm
  · exact h

/-! ## Runs -/

theorem SeedInv.beginPull : SeedInv io cleared s.beginPull d := by
  unfold NoteBridge.beginPull
  split_ifs
  · exact h
  · refine { h with pull := ?_ }
    intro b hb hhad
    cases hb
    exact h.had hhad

theorem SeedInv.reconcileAfterPull : SeedInv io cleared s.reconcileAfterPull d := by
  unfold NoteBridge.reconcileAfterPull
  split
  · exact h
  · next pre hpre =>
    split_ifs
    · exact h
    · refine { h with pull := fun b hb => by simp [drainIngest] at hb, queue := h.queued fun b hb => h.pull b ?_ }
      rw [hpre]
      exact hb

theorem SeedInv.ingestNow : SeedInv io cleared s.ingestNow d := by
  unfold NoteBridge.ingestNow
  split_ifs
  · exact h
  · exact h.reconcileAfterPull
  · exact { h with queue := h.queued fun b hb => absurd hb (by simp) }

end

theorem SeedInv.step [DecidableEq H] (hsigned : io.seedOnOpen = false) (h : SeedInv io cleared s d) (a : Action ι)
    (hok : SeedOk io cleared s a) : SeedInv io cleared (step io s a) (pulledBy d a) := by
  cases a with
  | edit d' => exact h.edit hok.1 hok.2 d'
  | external t => exact hok.elim
  | watcherEvent =>
    obtain ⟨dirty, t, heq⟩ := ingest_eq { s with event := false }
    simp only [Bridge.step, heq]
    exact { h with }
  | ingestTimerFires =>
    simp only [Bridge.step]
    split_ifs
    · exact { h with queue := h.queued fun b hb => absurd hb (by simp) }
    · exact h
  | ingestNow => exact h.ingestNow
  | ingestStarts => exact h.ingestStarts hok
  | ingestReads ok => exact h.ingestReads ok
  | ingestHashed => exact h.ingestHashed hsigned
  | ingestKept kept => exact h.ingestKept kept
  | ingestSnapshotted => exact h.ingestSnapshotted
  | egestTimerFires =>
    simp only [Bridge.step]
    split_ifs
    · exact { h with }
    · exact h
  | egestStarts => exact h.egestStarts
  | egestChecks ok => exact h.egestChecks ok
  | egestHashed => exact h.egestHashed
  | egestSavedAside saved => exact h.egestSavedAside saved
  | egestWrites => exact h.egestWrites hok.1 hok.2
  | egestWriteFails => exact h.egestWriteFails
  | egestAnswered => exact h.egestAnswered
  | beginPull => exact h.beginPull
  | reconcileAfterPull => exact h.reconcileAfterPull
  | seedStarts => exact h.seedStarts
  | seedReads i ok => exact h.seedReads i ok
  | seedInserts i => exact h.seedInserts i hok
  | seedHashed i => exact h.seedHashed i
  | markReadOnly value => exact { h with }
  | destroy =>
    simp only [Bridge.step, NoteBridge.destroy]
    split_ifs
    · exact h
    · exact { h with pull := fun b hb => absurd hb (by simp) }

/-- a bridge at rest with a document that reads nothing and has never been written to -/
theorem SeedInv.opened (hclock : s.clock = 0) (hempty : text s.doc = []) (hseeds : s.seeds = [])
    (hegest : s.egestPass = none) (hpass : s.ingestPass = none) (hpull : s.prePull = none) (hqueue : s.ingestQueue = [])
    (hseen : ∀ x b, s.observed = some (x, some b) → text b = [])
    (hfresh : cleared = false →
      s.lastWrittenHash = some (s.fileHash io) ∧ ∀ x st, s.observed = some (x, st) → x = s.fileHash io) :
    SeedInv io cleared s s.doc where
  doc := .inl ⟨hclock, rfl⟩
  had _ := hempty
  inserting t ht := by rw [hseeds] at ht; cases ht
  hashing t ht := by rw [hseeds] at ht; cases ht
  egest e he := by rw [hegest] at he; cases he
  pass p hp := by rw [hpass] at hp; cases hp
  pull b hb := by rw [hpull] at hb; cases hb
  queue job hjob := by rw [hqueue] at hjob; cases hjob
  seen x b hx _ := hseen x b hx
  fresh hc _ := hfresh hc

/-- a bridge of a signed-in device whose document reads nothing -/
theorem SeedInv.hydrate [DecidableEq H] (hsigned : io.seedOnOpen = false) (o : Opened ι H)
    (hempty : text (hydrate io o).doc = []) :
    SeedInv io o.stored.isSome (hydrate io o) (hydrate io o).doc := by
  unfold Bridge.hydrate at hempty ⊢
  cases hstored : o.stored with
  | some d =>
    simp only [hstored, hydrateStored, hsigned, Bool.false_eq_true, if_false] at hempty ⊢
    split_ifs at hempty ⊢ with hd
    · refine SeedInv.opened rfl hempty rfl rfl rfl rfl rfl ?_ (fun hc => by simp at hc)
      exact fun x b hx => absurd hx (by simp [loaded, Option.map_eq_some_iff])
    · exact absurd hempty (by simpa [NoteBridge.beginPull, loaded] using hd)
  | none =>
    simp only [hstored, hsigned, Bool.false_eq_true, if_false] at hempty ⊢
    have hobs : ∀ x st, (o.file.map fun _ => (o.fileHash io, stateIfText (ι := ι) (o.file.getD []) [])) = some (x, st) →
        x = o.fileHash io ∧ ∀ b, st = some b → b = [] := by
      intro x st hx
      obtain ⟨t, -, hpair⟩ := Option.map_eq_some_iff.mp hx
      refine ⟨(congrArg Prod.fst hpair).symm, fun b hb => ?_⟩
      have hst : stateIfText (ι := ι) (o.file.getD []) [] = st := congrArg Prod.snd hpair
      rw [← hst] at hb
      unfold stateIfText at hb
      split_ifs at hb
      exact (Option.some.inj hb).symm
    have hopened : ∀ s : NoteBridge ι H, s.clock = 0 → s.doc = [] → s.seeds = [] →
        s.egestPass = none → s.ingestPass = none → s.prePull = none → s.ingestQueue = [] → s.file = o.file →
        s.observed = (o.file.map fun _ => (o.fileHash io, stateIfText (o.file.getD []) [])) →
        s.lastWrittenHash = some (o.fileHash io) → SeedInv io false s s.doc := by
      intro s hclock hdoc hseeds hegest hpass hpull hqueue hfile hseen hlw
      have hhash : s.fileHash io = o.fileHash io := by rw [NoteBridge.fileHash, hfile]; rfl
      refine SeedInv.opened hclock (by rw [hdoc]; rfl) hseeds hegest hpass hpull hqueue ?_
        fun _ => ⟨hlw.trans (congrArg some hhash.symm), ?_⟩
      · intro x b hx
        rw [(hobs x _ (hseen.symm.trans hx)).2 b rfl]
        rfl
      · exact fun x st hx => (hobs x st (hseen.symm.trans hx)).1.trans hhash.symm
    unfold hydrateUnseeded
    dsimp only [Option.isSome_none]
    split_ifs
    all_goals exact hopened _ rfl rfl rfl rfl rfl rfl rfl rfl rfl rfl

end NoteBridge

/-- **Seeding and pulling do not double a note.** In every run of allowed steps of a signed-in device's bridge whose
document reads nothing at first, the document is what was pulled; or what was pulled reads nothing, and the document is
that with the file's text inserted once. -/
theorem never_doubled [DecidableEq H] (io : BridgeIO ι H) (hsigned : io.seedOnOpen = false) (o : Opened ι H)
    (hempty : text (hydrate io o).doc = []) (as : List (Action ι))
    (hok : Machine.Guarded (step io) (SeedOk io o.stored.isSome) (hydrate io o) as) :
    (run io (hydrate io o) as).doc = as.foldl pulledBy (hydrate io o).doc ∨
      text (as.foldl pulledBy (hydrate io o).doc) = [] ∧ ∃ t, (run io (hydrate io o) as).file = some t ∧
        (run io (hydrate io o) as).doc = newCells io.freshId 0 t ++ as.foldl pulledBy (hydrate io o).doc := by
  have hinv : NoteBridge.SeedInv io o.stored.isSome (run io (hydrate io o) as) (as.foldl pulledBy (hydrate io o).doc) :=
    Machine.run_inv_acc pulledBy (fun _ _ a h ha => h.step hsigned a ha) (NoteBridge.SeedInv.hydrate hsigned o hempty)
      hok
  refine hinv.doc.imp (fun h => h.2) ?_
  rintro ⟨-, hblank, t, -, hfile, hdoc⟩
  exact ⟨hblank, t, hfile, hdoc⟩

/-! ## Concrete runs -/

/-- the file `ab` of a note of which nothing is stored -/
def unseededNote : NoteBridge (ℕ × ℕ) Text := hydrate (plainBridge false) (fileOnly [97, 98])

/-- the pull brings the file's text while a seed of the document waits for its read, and the file is ingested -/
def pulledDuringSeed : List (Action (ℕ × ℕ)) :=
  [.seedStarts, .seedReads 0 true, .edit (typed 2 [97, 98]), .seedInserts 0, .ingestNow, .ingestStarts,
    .ingestReads true, .ingestHashed]

theorem pulled_during_seed_once :
    (run (plainBridge false) unseededNote pulledDuringSeed).doc = pulledDuringSeed.foldl pulledBy unseededNote.doc ∨
      text (pulledDuringSeed.foldl pulledBy unseededNote.doc) = [] ∧
        ∃ t, (run (plainBridge false) unseededNote pulledDuringSeed).file = some t ∧
          (run (plainBridge false) unseededNote pulledDuringSeed).doc =
            newCells branchId 0 t ++ pulledDuringSeed.foldl pulledBy unseededNote.doc :=
  never_doubled (plainBridge false) rfl (fileOnly [97, 98]) rfl pulledDuringSeed (by decide +kernel)

/-- the seed comes first, and the pull brings the same text from another device -/
def pulledAfterSeed : NoteBridge (ℕ × ℕ) Text :=
  run (plainBridge false) unseededNote
    [.seedStarts, .seedReads 0 true, .seedInserts 0, .seedHashed 0,
      .edit (newCells branchId 0 [97, 98] ++ typed 2 [97, 98])]

/-- a note stored empty: the pull brings `abc`, and the file `ab` is ingested -/
def ingestedAfterPull : NoteBridge (ℕ × ℕ) Text :=
  run (plainBridge false)
    (hydrate (plainBridge false) { stored := some [⟨(1, 0), 97, true⟩], diskBase := none, file := some [97, 98] })
    [.edit ([⟨(1, 0), 97, true⟩] ++ typed 2 [97, 98, 99]), .ingestNow, .ingestStarts, .ingestReads true, .ingestHashed]

/-- **Doubled, and overwritten.** The pull after the seed doubles the text; and the file of a note stored empty enters a
document that holds what was pulled. -/
theorem seeded_text_doubled :
    pulledAfterSeed.file = some [97, 98] ∧ text pulledAfterSeed.doc = [97, 98, 97, 98] ∧
    ingestedAfterPull.file = some [97, 98] ∧ text ingestedAfterPull.doc = [97, 98] := by decide +kernel

end Baalda.Bridge
