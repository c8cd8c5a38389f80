/-
What a bridge records as its note's disk base: `Truthful` says that every hash it has, and every text it is about to
record the hash of, is one the file held and the document saw.

`Truthful.step`: every step of the bridge keeps it so, whatever other programs do to the file between two of them.
`truthful_hydrate`: and so does the open.
-/
import Baalda.Desktop.NoteBridge
import Baalda.Lib.Slots

namespace Baalda.Bridge

open TextDiff TextCrdt

variable {ι H : Type*}

/-- the hash is that of a text the file held and the document saw -/
def Known (sha256 : Text → H) (held seen : List Text) (h : H) : Prop := ∃ t ∈ held, t ∈ seen ∧ sha256 t = h

theorem Known.mono {sha256 : Text → H} {held held' seen seen' : List Text} {h : H} (hk : Known sha256 held seen h)
    (hheld : held ⊆ held') (hseen : seen ⊆ seen') : Known sha256 held' seen' h := by
  obtain ⟨t, ht, hs, hsha⟩ := hk
  exact ⟨t, hheld ht, hseen hs, hsha⟩

/-! ## A bridge -/

/-- the text a pass has read is one the file held -/
def IngestPhase.Held (sha256 : Text → H) (held : List Text) : IngestPhase H → Prop
  | .hashing fileText => fileText ∈ held
  | .snapshotting fileText fileHash _ => fileText ∈ held ∧ fileHash = sha256 fileText
  | .reading | .keeping _ _ => True

/-- an egest carries the hash of its own text, and answers for a text the file held -/
def EgestPhase.Carries (sha256 : Text → H) (held : List Text) (content : Text) : EgestPhase ι H → Prop
  | .savingAside _ hash | .writing hash _ _ => hash = sha256 content
  | .answering hash _ stale => hash = sha256 content ∧ (stale = false → content ∈ held)
  | .checking | .hashing => True

/-- a seed inserts a text the file held, which the document has then seen -/
def SeedPhase.Held (held seen : List Text) : SeedPhase → Prop
  | .inserting fileText => fileText ∈ held
  | .hashing fileText => fileText ∈ held ∧ fileText ∈ seen
  | .reading | .done => True

namespace NoteBridge

/-- the read a step merges into the document -/
def merging [DecidableEq H] (io : BridgeIO ι H) (s : NoteBridge ι H) : Action ι → Option Text
  | .ingestHashed => s.ingestPass.bind fun p => match p.phase with
    | .hashing fileText => match s.verdict io p fileText with
      | .merge _ false => if s.destroyed || oversize io.cfg fileText then none else some fileText
      | _ => none
    | _ => none
  | .ingestSnapshotted => s.ingestPass.bind fun p => match p.phase with
    | .snapshotting fileText _ _ => if s.destroyed then none else some fileText
    | _ => none
  | _ => none

/-- the text `write_note` is about to put into the file -/
def landing [DecidableEq H] (io : BridgeIO ι H) (s : NoteBridge ι H) : Action ι → Option Text
  | .egestWrites => s.egestPass.bind fun e => match e.phase with
    | .writing _ expected _ => if expected.all (· = s.fileHash io) then some e.content else none
    | _ => none
  | _ => none

/-- `recordDiskBase` saves the base it changes; that of a write was saved by `write_note` -/
def recordDiskBase [DecidableEq H] (before after : NoteBridge ι H) : Action ι → List H
  | .egestAnswered => []
  | _ => if after.diskBase = before.diskBase then [] else after.diskBase.toList

/-- Every hash a bridge has, and every text it is about to record one of, is as it should be. -/
structure Truthful (io : BridgeIO ι H) (held seen : List Text) (s : NoteBridge ι H) : Prop where
  base : ∀ h, s.diskBase = some h → Known io.sha256 held seen h
  doc : text s.doc ∈ seen
  read : ∀ p, s.ingestPass = some p → p.phase.Held io.sha256 held
  egest : ∀ e, s.egestPass = some e → e.content ∈ seen ∧ e.phase.Carries io.sha256 held e.content
  seeds : ∀ p ∈ s.seeds, p.Held held seen

variable {io : BridgeIO ι H} {held seen : List Text} {s s' : NoteBridge ι H} {p : IngestPass ι H} {t : Text}

section

variable (h : Truthful io held seen s)

include h

/-- what the bridge knows stays so as the file and the document go on -/
theorem Truthful.mono {held' seen' : List Text} (hheld : held ⊆ held')
    (hseen : seen ⊆ seen') : Truthful io held' seen' s where
  base x hx := (h.base x hx).mono hheld hseen
  doc := hseen h.doc
  read p hp := by
    have hread := h.read p hp
    cases hphase : p.phase with
    | reading | keeping t x => trivial
    | hashing t => rw [hphase] at hread; exact hheld hread
    | snapshotting t x ds => rw [hphase] at hread; exact ⟨hheld hread.1, hread.2⟩
  egest e he := by
    obtain ⟨hcontent, hcarries⟩ := h.egest e he
    refine ⟨hseen hcontent, ?_⟩
    cases hphase : e.phase with
    | checking | hashing => trivial
    | savingAside u x | writing x ex st => rw [hphase] at hcarries; exact hcarries
    | answering x st stale => rw [hphase] at hcarries; exact ⟨hcarries.1, fun hs => hheld (hcarries.2 hs)⟩
  seeds p hp := by
    have hseed := h.seeds p hp
    cases p with
    | reading | done => trivial
    | inserting t => exact hheld hseed
    | hashing t => exact ⟨hheld hseed.1, hseen hseed.2⟩

/-- What a step has to show of the document, and of each base, read, egest and seed it sets. -/
theorem Truthful.change (hdoc : text s'.doc ∈ seen)
    (hbase : ∀ x, s'.diskBase = some x → s.diskBase = some x ∨ Known io.sha256 held seen x)
    (hread : ∀ p, s'.ingestPass = some p →
      (∃ q, s.ingestPass = some q ∧ p.phase = q.phase) ∨ p.phase.Held io.sha256 held)
    (hegest : ∀ e, s'.egestPass = some e →
      s.egestPass = some e ∨ e.content ∈ seen ∧ e.phase.Carries io.sha256 held e.content)
    (hseeds : ∀ p ∈ s'.seeds, p ∈ s.seeds ∨ p.Held held seen) : Truthful io held seen s' where
  base x hx := (hbase x hx).elim (h.base x) id
  doc := hdoc
  read p hp := by
    rcases hread p hp with ⟨q, hq, hphase⟩ | hnew
    · rw [hphase]; exact h.read q hq
    · exact hnew
  egest e he := (hegest e he).elim (h.egest e) id
  seeds p hp := (hseeds p hp).elim (h.seeds p) id

/-- a step that reads, records and writes nothing -/
theorem Truthful.frame (hdoc : text s'.doc ∈ seen) (hbase : s'.diskBase = s.diskBase)
    (hread : s'.ingestPass = s.ingestPass ∨ s'.ingestPass = none) (hegest : s'.egestPass = s.egestPass)
    (hseeds : s'.seeds = s.seeds) : Truthful io held seen s' := by
  refine h.change hdoc (fun x hx => .inl (hbase ▸ hx)) ?_ (fun e he => .inl (hegest ▸ he))
    fun p hp => .inl (hseeds ▸ hp)
  intro p hp
  rcases hread with hsame | hnone
  · exact .inl ⟨p, hsame ▸ hp, rfl⟩
  · rw [hnone] at hp
    cases hp

theorem Truthful.endIngest (job : IngestJob ι) : Truthful io held seen (s.endIngest job) := by
  obtain ⟨d, tm, heq⟩ := s.endIngest_eq job
  rw [heq]
  exact h.frame h.doc rfl (.inr rfl) rfl rfl

theorem Truthful.writeOut (p : IngestPass ι H) (x : H) : Truthful io held seen (s.writeOut p x) := by
  obtain ⟨d, tm, heq⟩ := s.writeOut_eq p x
  rw [heq]
  exact h.frame h.doc rfl (.inr rfl) rfl rfl

theorem Truthful.refuse (p : IngestPass ι H) (x : H) : Truthful io held seen (s.refuse p t x) := by
  obtain ⟨d, tm, heq⟩ := s.refuse_eq p t x
  rw [heq]
  exact h.frame h.doc rfl (.inr rfl) rfl rfl

end

theorem Truthful.observe [DecidableEq H] (h : Truthful io held seen s) (x : H) :
    Truthful io held seen (s.observe x) := by
  obtain ⟨o, -, heq⟩ := s.observe_eq x
  rw [heq]
  exact h.frame h.doc rfl (.inl rfl) rfl rfl

theorem Truthful.account (h : Truthful io held seen s) (x : H) (a : Account) : Truthful io held seen (s.account x a) :=
  h.frame h.doc rfl (.inl rfl) rfl rfl

/-- a transaction moves no pass to another phase -/
theorem Truthful.capture (h : Truthful io held seen s) : Truthful io held seen s.capture := by
  rcases s.capture_eq with heq | ⟨p, hp, -, -, heq⟩
  · rw [heq]
    exact h
  · rw [heq]
    refine h.change h.doc (fun _ => .inl) ?_ (fun _ => .inl) fun _ => .inl
    intro q hq
    cases hq
    exact .inl ⟨p, hp, rfl⟩

/-! ## An ingest pass -/

/-- a text the file held, and the document reads or merges, becomes the base -/
theorem Truthful.applyRead (h : Truthful io held seen s) (ht : t ∈ held) (hseen : s.destroyed = false → t ∈ seen)
    (diffs : List (Hunk UInt16)) (hdoc : text (applyRead io s p t (io.sha256 t) diffs).doc ∈ seen) :
    Truthful io held seen (applyRead io s p t (io.sha256 t) diffs) := by
  revert hdoc
  unfold NoteBridge.applyRead
  split_ifs with hdestroyed hsame
  · intro _
    exact h.endIngest p.job
  · intro _
    apply Truthful.endIngest
    exact h.frame h.doc rfl (.inl rfl) rfl rfl
  · obtain ⟨d, clock, e, o, pm, v, tm, -, -, heq⟩ := s.replayRead_eq p t (io.sha256 t) io diffs
    obtain ⟨d', tm', hend⟩ := endIngest_eq ({ replayRead io s p t (io.sha256 t) diffs with
      unagreedFile := none, diskBase := some (io.sha256 t) }.account (io.sha256 t) .merged) p.job
    rw [hend, heq]
    intro hdoc
    refine h.change hdoc ?_ (fun _ hp => by simp at hp) (fun _ => .inl)
      fun _ => .inl
    intro x hx
    exact .inr ⟨t, ht, hseen (Bool.eq_false_of_not_eq_true hdestroyed), Option.some.inj hx⟩

/-- the verdict on a read of the file -/
theorem Truthful.judged [DecidableEq H] (h : Truthful io held seen s) (hp : s.ingestPass = some p)
    (hphase : p.phase = .hashing t) (hmerging : ∀ u, s.merging io .ingestHashed = some u → u ∈ seen)
    (hdoc : text (judged io s p t).doc ∈ seen) : Truthful io held seen (judged io s p t) := by
  have ht : t ∈ held := by
    have hread := h.read p hp
    rw [hphase] at hread
    exact hread
  revert hdoc
  unfold NoteBridge.judged
  split_ifs with hover
  · intro _
    exact (h.observe _).refuse p _
  · cases hv : s.verdict io p t with
    | echo => exact fun _ => (h.observe _).endIngest p.job
    | converged =>
      intro _
      have hlive : text s.doc = t := judge_converged hv
      apply Truthful.endIngest
      refine h.change h.doc ?_ (fun q hq => .inl ⟨q, hq, rfl⟩) (fun _ => .inl) fun _ => .inl
      intro x hx
      exact .inr ⟨t, ht, hlive ▸ h.doc, Option.some.inj hx⟩
    | behindDiskBase => exact fun _ => (h.observe _).writeOut p _
    | behindBaseline moved =>
      cases moved with
      | true => exact fun _ => ((h.observe _).account _ _).writeOut p _
      | false => exact fun _ => ((h.observe _).account _ _).endIngest p.job
    | blank | readOnlyEmpty | unseeded => exact fun _ => (h.observe _).refuse p _
    | readOnly =>
      intro _
      have hseen := h.observe (io.sha256 t)
      refine hseen.change hseen.doc (fun _ => .inl) ?_ (fun _ => .inl) fun _ => .inl
      intro q hq
      cases hq
      exact .inr trivial
    | nothingOwn => exact fun _ => ((h.observe _).account _ _).writeOut p _
    | merge diffs large =>
      have hseen : Truthful io held seen { s.observe (io.sha256 t) with refused := none } :=
        (h.observe _).frame (h.observe _).doc rfl (.inl rfl) rfl rfl
      cases large with
      | false =>
        apply hseen.applyRead ht
        intro hlive
        have hlive' : s.destroyed = false := by
          obtain ⟨o, -, heq⟩ := s.observe_eq (io.sha256 t)
          rw [heq] at hlive
          exact hlive
        exact hmerging t (by simp [merging, hp, hphase, hv, hlive', hover])
      | true =>
        intro _
        refine hseen.change hseen.doc (fun _ => .inl) ?_ (fun _ => .inl) fun _ => .inl
        intro q hq
        cases hq
        exact .inr ⟨ht, rfl⟩

theorem Truthful.ingestHashed [DecidableEq H] (h : Truthful io held seen s)
    (hmerging : ∀ u, s.merging io .ingestHashed = some u → u ∈ seen) (hdoc : text (s.ingestHashed io).doc ∈ seen) :
    Truthful io held seen (s.ingestHashed io) := by
  revert hdoc
  unfold NoteBridge.ingestHashed
  split
  · next p hp =>
    split
    · next t hphase => exact h.judged hp hphase hmerging
    · exact fun _ => h
  · exact fun _ => h

theorem Truthful.ingestSnapshotted [DecidableEq H] (h : Truthful io held seen s)
    (hmerging : ∀ u, s.merging io .ingestSnapshotted = some u → u ∈ seen)
    (hdoc : text (s.ingestSnapshotted io).doc ∈ seen) : Truthful io held seen (s.ingestSnapshotted io) := by
  revert hdoc
  unfold NoteBridge.ingestSnapshotted
  split
  · next p hp =>
    split
    · next t x diffs hphase =>
      have hread := h.read p hp
      rw [hphase] at hread
      obtain ⟨ht, rfl⟩ := hread
      apply h.applyRead ht
      intro hlive
      exact hmerging t (by simp [merging, hp, hphase, hlive])
    · exact fun _ => h
  · exact fun _ => h

theorem Truthful.ingestStarts (h : Truthful io held seen s) : Truthful io held seen s.ingestStarts := by
  unfold NoteBridge.ingestStarts
  split
  · split_ifs
    · apply Truthful.endIngest
      exact h.frame h.doc rfl (.inl rfl) rfl rfl
    · refine h.change h.doc (fun _ => .inl) ?_ (fun _ => .inl) fun _ => .inl
      intro q hq
      cases hq
      exact .inr trivial
  · exact h

theorem readFile_some {ok : Bool} (h : s.readFile ok = some t) : s.file = some t := by
  unfold readFile at h
  split_ifs at h
  exact h

section

variable (h : Truthful io held seen s)

include h

theorem Truthful.ingestReads (hfile : ∀ t, s.file = some t → t ∈ held) (ok : Bool) :
    Truthful io held seen (s.ingestReads ok) := by
  unfold NoteBridge.ingestReads
  split
  · next p hp =>
    split
    · split
      · next t hread =>
        refine h.change h.doc (fun _ => .inl) ?_ (fun _ => .inl) fun _ => .inl
        intro q hq
        cases hq
        exact .inr (hfile t (readFile_some hread))
      · apply Truthful.endIngest
        exact h.frame h.doc rfl (.inl rfl) rfl rfl
    · exact h
  · exact h

theorem Truthful.ingestKept (kept : Bool) : Truthful io held seen (s.ingestKept kept) := by
  unfold NoteBridge.ingestKept
  split
  · next p hp =>
    split
    · split_ifs
      · exact h.endIngest p.job
      · exact (h.account _ _).endIngest p.job
      · exact (h.account _ _).writeOut p _
    · exact h
  · exact h

/-! ## An egest pass -/

theorem Truthful.endEgest : Truthful io held seen s.endEgest :=
  h.change h.doc (fun _ => .inl) (fun q hq => .inl ⟨q, hq, rfl⟩)
    (fun _ he => by simp [NoteBridge.endEgest] at he) fun _ => .inl

/-- an egest under way goes to its next phase -/
theorem Truthful.setEgest {e : EgestPass ι H} (he : s.egestPass = some e)
    {phase : EgestPhase ι H} (hphase : phase.Carries io.sha256 held e.content) :
    Truthful io held seen (s.setEgest e phase) := by
  refine h.change h.doc (fun _ => .inl) (fun q hq => .inl ⟨q, hq, rfl⟩) ?_ fun _ => .inl
  intro e' he'
  cases he'
  exact .inr ⟨(h.egest e he).1, hphase⟩

theorem Truthful.egestStarts : Truthful io held seen s.egestStarts := by
  unfold NoteBridge.egestStarts
  split
  · exact h
  · split_ifs
    · exact h
    · exact h.frame h.doc rfl (.inl rfl) rfl rfl
    · refine h.change h.doc (fun _ => .inl) (fun q hq => .inl ⟨q, hq, rfl⟩) ?_ fun _ => .inl
      intro e he
      cases he
      refine .inr ⟨h.doc, ?_⟩
      unfold firstPhase
      split_ifs <;> trivial

theorem Truthful.egestChecks (ok : Bool) : Truthful io held seen (s.egestChecks ok) := by
  unfold NoteBridge.egestChecks
  split
  · next e he =>
    split
    · split
      · apply Truthful.endEgest
        exact h.frame h.doc rfl (.inl rfl) rfl rfl
      · exact h.setEgest he trivial
    · exact h
  · exact h

end

theorem Truthful.egestHashed [DecidableEq H] (h : Truthful io held seen s) :
    Truthful io held seen (s.egestHashed io) := by
  unfold NoteBridge.egestHashed
  split
  · next e he =>
    split
    · have hforget : ∀ u a, Truthful io held seen (({ s with unagreedFile := none } : NoteBridge ι H).account u a) :=
        fun u a => h.frame h.doc rfl (.inl rfl) rfl rfl
      unfold comparesHash
      split_ifs
      · exact (hforget _ _).endEgest
      · split
        · exact h.setEgest he rfl
        · split_ifs
          · exact (hforget _ _).setEgest he rfl
          · exact h.setEgest he rfl
          · have hnone : Truthful io held seen { s with unagreedFile := none } := h.frame h.doc rfl (.inl rfl) rfl rfl
            exact hnone.setEgest he rfl
    · exact h
  · exact h

theorem Truthful.egestSavedAside [DecidableEq H] (h : Truthful io held seen s) (saved : Bool) :
    Truthful io held seen (s.egestSavedAside saved) := by
  unfold NoteBridge.egestSavedAside
  split
  · next e he =>
    split
    · next u hash hphase =>
      have hcarries := (h.egest e he).2
      rw [hphase] at hcarries
      split
      · have hsaved : ∀ o, Truthful io held seen
            (({ s with unagreedFile := o } : NoteBridge ι H).account u.2 .savedAside) :=
          fun o => h.frame h.doc rfl (.inl rfl) rfl rfl
        generalize (if s.unagreedFile = some u then none else s.unagreedFile) = o
        dsimp only
        split
        · exact (hsaved o).endEgest
        · exact (hsaved o).setEgest he hcarries
      · exact h.endEgest
    · exact h
  · exact h

theorem Truthful.egestWrites [DecidableEq H] (h : Truthful io held seen s)
    (hlanding : ∀ t, s.landing io .egestWrites = some t → t ∈ held) : Truthful io held seen (s.egestWrites io) := by
  unfold NoteBridge.egestWrites
  split
  · next e he =>
    split
    · next hash expected st hphase =>
      have hcarries := (h.egest e he).2
      rw [hphase] at hcarries
      split_ifs with hexpected
      · have hwritten : Truthful io held seen
            (({ s with file := some e.content, event := true } : NoteBridge ι H).account hash .written) :=
          h.frame h.doc rfl (.inl rfl) rfl rfl
        refine hwritten.setEgest he ⟨hcarries, fun _ => ?_⟩
        exact hlanding e.content (by simp [landing, he, hphase, hexpected])
      · exact h.setEgest he ⟨hcarries, fun hs => absurd hs (by decide)⟩
    · exact h
  · exact h

section

variable (h : Truthful io held seen s)

include h

theorem Truthful.egestWriteFails : Truthful io held seen s.egestWriteFails := by
  unfold NoteBridge.egestWriteFails
  split
  · split
    · unfold scheduleEgestRetry
      split_ifs
      · exact h.endEgest
      · exact h.endEgest.frame h.doc rfl (.inl rfl) rfl rfl
    · exact h
  · exact h

theorem Truthful.egestAnswered : Truthful io held seen s.egestAnswered := by
  unfold NoteBridge.egestAnswered
  split
  · next e he =>
    split
    · next hash st stale hphase =>
      obtain ⟨hcontent, hcarries⟩ := h.egest e he
      rw [hphase] at hcarries
      split
      · obtain ⟨l, dirty, it, q, -, -, heq⟩ := s.endEgest.mergeStaleFile_eq
        rw [heq]
        exact h.endEgest.frame h.doc rfl (.inl rfl) rfl rfl
      · next hstale =>
        apply Truthful.endEgest
        refine h.change h.doc ?_ (fun q hq => .inl ⟨q, hq, rfl⟩) (fun _ => .inl) fun _ => .inl
        intro x hx
        cases hx
        exact .inr ⟨e.content, hcarries.2 (Bool.eq_false_of_not_eq_true hstale), hcontent, hcarries.1.symm⟩
    · exact h
  · exact h

/-! ## Seeding -/

/-- a seed goes to its next phase -/
theorem Truthful.setSeed (i : ℕ) {q : SeedPhase} (hq : q.Held held seen) :
    Truthful io held seen { s with seeds := s.seeds.set i q } := by
  refine h.change h.doc (fun _ => .inl) (fun q hq => .inl ⟨q, hq, rfl⟩) (fun _ => .inl) ?_
  intro p hp
  rcases List.mem_or_eq_of_mem_set hp with hold | rfl
  · exact .inl hold
  · exact .inr hq

theorem Truthful.seedReads (hfile : ∀ t, s.file = some t → t ∈ held) (i : ℕ) (ok : Bool) :
    Truthful io held seen (s.seedReads i ok) := by
  unfold NoteBridge.seedReads
  split_ifs
  · split
    · next u t hread => exact h.setSeed i (hfile _ (readFile_some hread))
    · exact h.setSeed i trivial
  · exact h

theorem Truthful.seedInserts (i : ℕ) (hdoc : text (s.seedInserts io i).doc ∈ seen) :
    Truthful io held seen (s.seedInserts io i) := by
  revert hdoc
  unfold NoteBridge.seedInserts
  split
  · next t hseed =>
    have ht : t ∈ held := h.seeds _ (List.mem_of_getElem? hseed)
    have hseeds : s.capture.seeds = s.seeds := by rw [s.capture_same]
    split
    · next hempty =>
      intro hdoc
      have htext : text (newCells io.freshId s.clock t ++ s.doc) = t := by rw [text_append, hempty]; simp
      refine h.capture.change hdoc (fun _ => .inl) (fun q hq => .inl ⟨q, hq, rfl⟩) (fun _ => .inl) ?_
      intro p hp
      rcases List.mem_or_eq_of_mem_set hp with hold | rfl
      · exact .inl (hseeds ▸ hold)
      · exact .inr ⟨ht, htext ▸ hdoc⟩
    · intro _
      refine h.capture.change h.capture.doc (fun _ => .inl) (fun q hq => .inl ⟨q, hq, rfl⟩)
        (fun _ => .inl) ?_
      intro p hp
      rcases List.mem_or_eq_of_mem_set hp with hold | rfl
      · exact .inl (hseeds ▸ hold)
      · exact .inr trivial
  · exact fun _ => h

theorem Truthful.seedHashed (i : ℕ) : Truthful io held seen (s.seedHashed io i) := by
  unfold NoteBridge.seedHashed
  split
  · next t hseed =>
    obtain ⟨ht, hs⟩ := h.seeds _ (List.mem_of_getElem? hseed)
    refine h.change h.doc ?_ (fun q hq => .inl ⟨q, hq, rfl⟩) (fun _ => .inl) ?_
    · intro x hx
      exact .inr ⟨t, ht, hs, Option.some.inj hx⟩
    · intro p hp
      rcases List.mem_or_eq_of_mem_set hp with hold | rfl
      · exact .inl hold
      · exact .inr trivial
  · exact h

/-! ## Any step of a bridge -/

theorem Truthful.edit (d : Doc ι UInt16) (hdoc : text (s.edit d).doc ∈ seen) : Truthful io held seen (s.edit d) := by
  rcases s.edit_eq d with heq | ⟨e, v, tm, heq⟩
  · rw [heq]
    exact h
  · rw [heq] at hdoc ⊢
    exact h.capture.frame hdoc rfl (.inl rfl) rfl rfl

end

/-- A step of a bridge keeps it truthful: the file it reads has been held, and what it has written, read or merged is
taken down. -/
theorem Truthful.step [DecidableEq H] (h : Truthful io held seen s) (a : Action ι)
    (hfile : ∀ t, s.file = some t → t ∈ held) (hlanding : ∀ t, s.landing io a = some t → t ∈ held)
    (hmerging : ∀ t, s.merging io a = some t → t ∈ seen)
    (hdoc : text (Bridge.step io s a).doc ∈ seen) : Truthful io held seen (Bridge.step io s a) := by
  cases a with
  | edit d => exact h.edit d hdoc
  | external t | markReadOnly value => exact h.frame h.doc rfl (.inl rfl) rfl rfl
  | watcherEvent =>
    obtain ⟨d, tm, heq⟩ := ingest_eq { s with event := false }
    simp only [Bridge.step]
    rw [heq]
    exact h.frame h.doc rfl (.inl rfl) rfl rfl
  | ingestTimerFires | egestTimerFires =>
    simp only [Bridge.step]
    split_ifs
    · exact h.frame h.doc rfl (.inl rfl) rfl rfl
    · exact h
  | ingestNow =>
    obtain ⟨pre, dirty, it, q, heq⟩ := s.ingestNow_eq
    simp only [Bridge.step]
    rw [heq]
    exact h.frame h.doc rfl (.inl rfl) rfl rfl
  | ingestStarts => exact h.ingestStarts
  | ingestReads ok => exact h.ingestReads hfile ok
  | ingestHashed => exact h.ingestHashed hmerging hdoc
  | ingestKept kept => exact h.ingestKept kept
  | ingestSnapshotted => exact h.ingestSnapshotted hmerging hdoc
  | egestStarts => exact h.egestStarts
  | egestChecks ok => exact h.egestChecks ok
  | egestHashed => exact h.egestHashed
  | egestSavedAside saved => exact h.egestSavedAside saved
  | egestWrites => exact h.egestWrites hlanding
  | egestWriteFails => exact h.egestWriteFails
  | egestAnswered => exact h.egestAnswered
  | beginPull =>
    obtain ⟨pre, dirty, it, et, d, heq⟩ := s.beginPull_eq
    simp only [Bridge.step]
    rw [heq]
    exact h.frame h.doc rfl (.inl rfl) rfl rfl
  | reconcileAfterPull =>
    obtain ⟨pre, dirty, it, q, heq⟩ := s.reconcileAfterPull_eq
    simp only [Bridge.step]
    rw [heq]
    exact h.frame h.doc rfl (.inl rfl) rfl rfl
  | seedStarts =>
    simp only [Bridge.step, NoteBridge.seedStarts]
    split_ifs
    · exact h
    · refine h.change h.doc (fun _ => .inl) (fun q hq => .inl ⟨q, hq, rfl⟩) (fun _ => .inl) ?_
      intro p hp
      rcases List.mem_snoc.1 hp with hold | rfl
      · exact .inl hold
      · exact .inr trivial
  | seedReads i ok => exact h.seedReads hfile i ok
  | seedInserts i => exact h.seedInserts i hdoc
  | seedHashed i => exact h.seedHashed i
  | destroy =>
    simp only [Bridge.step, NoteBridge.destroy]
    split_ifs
    · exact h
    · exact h.frame h.doc rfl (.inl rfl) rfl rfl

variable {a : Action ι}

/-- what `write_note` lands is the file -/
theorem file_of_landing [DecidableEq H] (h : s.landing io a = some t) : (Bridge.step io s a).file = some t := by
  cases a with
  | egestWrites =>
    obtain ⟨e, he, hphase⟩ := Option.bind_eq_some_iff.mp h
    cases hwriting : e.phase with
    | writing hash expected st =>
      simp only [hwriting] at hphase
      split_ifs at hphase with hexpected
      cases hphase
      simp only [Bridge.step, NoteBridge.egestWrites, he, hwriting, if_pos hexpected]
      rfl
    | _ => simp [hwriting] at hphase
  | _ => simp [landing] at h

/-- what `write_note` lands is a text of the document -/
theorem Truthful.landing_seen [DecidableEq H] (h : Truthful io held seen s) (ht : s.landing io a = some t) :
    t ∈ seen := by
  cases a with
  | egestWrites =>
    obtain ⟨e, he, hphase⟩ := Option.bind_eq_some_iff.mp ht
    split at hphase
    · split_ifs at hphase
      cases hphase
      exact (h.egest e he).1
    · cases hphase
  | _ => simp [landing] at ht

/-- a base that a bridge saves is the one it has -/
theorem mem_recordDiskBase [DecidableEq H] {x : H} (h : x ∈ recordDiskBase s s' a) : s'.diskBase = some x := by
  unfold recordDiskBase at h
  split at h
  · cases h
  · split_ifs at h
    · cases h
    · exact Option.mem_toList.mp h

end NoteBridge

/-- an open with a base that is known, whose document has been seen -/
theorem truthful_hydrate (io : BridgeIO ι H) [DecidableEq H] {held seen : List Text} (o : Opened ι H)
    (hbase : ∀ h, o.diskBase = some h → Known io.sha256 held seen h) (hfile : ∀ t, o.file = some t → t ∈ held)
    (hdoc : text (hydrate io o).doc ∈ seen) : (hydrate io o).Truthful io held seen := by
  have hopened : ∀ s : NoteBridge ι H, s.diskBase = o.diskBase → text s.doc ∈ seen → s.ingestPass = none →
      s.egestPass = none → s.seeds = [] → s.Truthful io held seen := by
    intro s hb hd hp he hs
    refine ⟨fun x hx => hbase x (hb ▸ hx), hd, ?_, ?_, ?_⟩
    · rw [hp]
      exact fun _ h => absurd h (by simp)
    · rw [he]
      exact fun _ h => absurd h (by simp)
    · rw [hs]
      exact fun _ h => absurd h (by simp)
  revert hdoc
  unfold hydrate
  split
  · next d hd =>
    unfold hydrateStored
    split_ifs
    · exact fun hdoc => hopened _ rfl hdoc rfl rfl rfl
    · exact fun hdoc => hopened _ rfl hdoc rfl rfl rfl
    · exact fun hdoc => hopened _ rfl hdoc rfl rfl rfl
  · split_ifs
    · intro hdoc
      refine ⟨?_, hdoc, fun _ h => by simp [hydrateSeeded] at h, fun _ h => by simp [hydrateSeeded] at h,
        fun _ h => by simp [hydrateSeeded] at h⟩
      intro x hx
      have htext : text (hydrateSeeded io o).doc = o.file.getD [] := text_newCells _ _ _
      simp only [hydrateSeeded] at hx
      split_ifs at hx with hempty
      · exact hbase x hx
      · cases hf : o.file with
        | none => exact absurd (by rw [hf]; rfl) hempty
        | some t =>
          rw [htext, hf] at hdoc
          refine ⟨t, hfile t hf, hdoc, ?_⟩
          rw [← Option.some.inj hx, Opened.fileHash, hf]
          rfl
    · unfold hydrateUnseeded
      dsimp only
      split_ifs <;> exact fun hdoc => hopened _ rfl hdoc rfl rfl rfl

end Baalda.Bridge
