/-
The notes an inbound pass removes from the disk (`VaultRegistry.unseenWorkVerdict`, `applyInbound`).

A note's verdict comes from the vector of its local document where that has ops, and from the file's hash against the
disk base where it has none; never from both. Behind the verdict come the release of the note, a recovery copy if it
holds unseen work, and the removal of the batch it is in. Between any two of these the note may be edited, its file
written by another program or by a bridge, the record of what the server acknowledged may grow, and the pass may stop.

`removals_keep_texts`: a note that is about to be removed holds no text, in its file or in its document, that is neither
acknowledged nor in a copy of this pass, and none that could not be judged is removed, if:
- where the vector decides that nothing is unseen, the file holds nothing that is not acknowledged;
- a file that cannot be read is not there;
- where the file is copied, the document has no other text that is not acknowledged;
- what was read is still so when it decides, and nothing that is not acknowledged comes after the verdict or the copy.
-/
import Baalda.Desktop.AckedSv
import Baalda.Lib.Machine

namespace Baalda.InboundRemovals

open Crdt Crdt.Update Crdt.StateVector AckedSv

/-- files, texts and documents -/
structure Texts (Bytes Text H : Type*) where
  /-- `read_to_string` -/
  decode : Bytes → Option Text
  encode : Text → Bytes
  decode_encode : ∀ t, decode (encode t) = some t
  /-- `text.trim().length === 0` -/
  blank : Text → Bool
  sha256Hex : Text → H
  /-- a document's text -/
  serialize : Update → Text

/-! ## Model -/

inductive Reason where
  | deleted
  | revoked
deriving DecidableEq

inductive Verdict where
  | none
  | unseen
  | unknown
deriving DecidableEq

inductive Stage (B H Text : Type*) where
  | waiting
  /-- the verdict is being taken -/
  | verifying
  | vectorRead (localSv : Option B)
  /-- there is no local document -/
  | bare
  | fileRead (text : Text)
  | baseRead (text : Text) (diskBase : H)
  | judged (verdict : Verdict)
  | released (verdict : Verdict)
  | emptyOnDisk
  | found (crdtText : Option Text)
  | copied
  | ready
  | deleted
  /-- left on disk by this pass -/
  | left
deriving DecidableEq

/-- a note of the plan's `trash` -/
structure Note (B H Bytes Text : Type*) where
  reason : Reason
  file : Option Bytes
  doc : Update
  ackedSv : Option B
  diskBase : Option H
  /-- the copies this pass has made of it -/
  trash : List Bytes := []
  stage : Stage B H Text := .waiting
  /-- `isOwnDelete` -/
  own : Bool := false
  /-- ghost: it could not be judged -/
  unjudged : Bool := false
deriving DecidableEq

inductive Answer where
  | fails
  | absent
  | present
deriving DecidableEq

inductive Action (B H Bytes : Type*) where
  | starts (own : Bool)
  | readsVector (answer : Answer)
  | judgesVector
  | readsFile (fails stale : Bool)
  | readsBase (fails : Bool)
  | judgesFile
  | identifies (indexed : Option Bool)
  | releases (fails : Bool)
  | readsEmpty (fails : Bool)
  | readsText (answer : Answer)
  | copies (fails : Bool)
  | readies (stopped : Bool)
  | deletes (fails : Bool)
  | stops
  /-- another program -/
  | writes (bytes : Bytes)
  | unlinks
  /-- typed, received or ingested -/
  | edits (u : Update)
  /-- a bridge writes the document's text, of its own or because the note is released -/
  | egests
  | acks (sv : B)
  | setsBase (diskBase : Option H)
  | clears

section Model

variable {B H Bytes Text : Type*} [DecidableEq H] (codec : VectorCodec B) (T : Texts Bytes Text H)

namespace Note

variable (n : Note B H Bytes Text)

def next (stage : Stage B H Text) : Note B H Bytes Text := { n with stage := stage }

def copy (bytes : Bytes) : Note B H Bytes Text := { n with stage := .copied, trash := n.trash ++ [bytes] }

def verdict (unseen : Bool) : Verdict := if unseen then .unseen else .none

def unknown : Note B H Bytes Text := { n with stage := .judged .unknown, unjudged := true }

/-- `ipc.readNote` -/
def readNote (fails : Bool) : Option Text := if fails then none else n.file.bind T.decode

def starts (own : Bool) : Note B H Bytes Text :=
  match n.stage with
  | .waiting => if n.reason ≠ .revoked ∧ own then { n with stage := .judged .none, own := true } else n.next .verifying
  | _ => n

def readsVector (answer : Answer) : Note B H Bytes Text :=
  match n.stage with
  | .verifying =>
    match answer with
    | .fails => n.unknown
    | .absent => n.next (.vectorRead none)
    | .present => n.next (.vectorRead (some (codec.encode (stateVector n.doc))))
  | _ => n

def judgesVector : Note B H Bytes Text :=
  match n.stage with
  | .vectorRead localSv =>
    if svIsEmpty codec localSv then n.next .bare
    else n.next (.judged (verdict (unseenWork (H := H) codec localSv n.ackedSv none none)))
  | _ => n

/-- any failed read is taken for a file that is not there, unless the vault was switched -/
def readsFile (fails stale : Bool) : Note B H Bytes Text :=
  match n.stage with
  | .bare =>
    match n.readNote T fails with
    | none => if stale then n.unknown else { n with stage := .judged .none, unjudged := n.file.isSome }
    | some text => if T.blank text then n.next (.judged .none) else n.next (.fileRead text)
  | _ => n

def readsBase (fails : Bool) : Note B H Bytes Text :=
  match n.stage with
  | .fileRead text =>
    match if fails then none else n.diskBase with
    | none => n.unknown
    | some diskBase => n.next (.baseRead text diskBase)
  | _ => n

def judgesFile : Note B H Bytes Text :=
  match n.stage with
  | .baseRead text diskBase =>
    n.next (.judged (verdict (unseenWork codec none n.ackedSv (some (T.sha256Hex text)) (some diskBase))))
  | _ => n

/-- whether the index has the note at its path under its id; `none` where the listing fails -/
def identifies (indexed : Option Bool) : Note B H Bytes Text :=
  match n.stage with
  | .judged .unknown =>
    if n.reason = .deleted ∧ indexed = some true then { n with stage := .judged .unseen, unjudged := false }
    else n.next .left
  | _ => n

def releases (fails : Bool) : Note B H Bytes Text :=
  match n.stage with
  | .judged .none => n.next (if fails then .left else .released .none)
  | .judged .unseen => n.next (if fails then .left else .released .unseen)
  | _ => n

/-- `isEmptyOnDisk`: a failed read is a file with content -/
def readsEmpty (fails : Bool) : Note B H Bytes Text :=
  match n.stage with
  | .released .unseen => n.next (if (n.readNote T fails).any T.blank then .emptyOnDisk else .found none)
  | _ => n

def readsText (answer : Answer) : Note B H Bytes Text :=
  match n.stage with
  | .emptyOnDisk =>
    match answer with
    | .fails => n.next .left
    | .absent => n.next (.found none)
    | .present => n.next (.found (some (T.serialize n.doc)))
  | _ => n

/-- `writeTrashCopy` of the document's text, or `copyToTrash` of the file -/
def copies (fails : Bool) : Note B H Bytes Text :=
  match n.stage with
  | .found crdtText =>
    if fails then n.next .left
    else
      match crdtText.filter fun text => !T.blank text with
      | some text => n.copy (T.encode text)
      | none =>
        match n.file with
        | none => n.next .left
        | some bytes => n.copy bytes
  | _ => n

def readies (stopped : Bool) : Note B H Bytes Text :=
  match n.stage with
  | .released .none => n.next (if stopped then .left else .ready)
  | .copied => n.next (if stopped then .left else .ready)
  | _ => n

def deletes (fails : Bool) : Note B H Bytes Text :=
  match n.stage with
  | .ready => if fails then n.next .left else { n with stage := .deleted, file := none }
  | _ => n

def stops : Note B H Bytes Text :=
  match n.stage with
  | .deleted => n
  | _ => n.next .left

def step : Action B H Bytes → Note B H Bytes Text
  | .starts own => n.starts own
  | .readsVector answer => n.readsVector codec answer
  | .judgesVector => n.judgesVector codec
  | .readsFile fails stale => n.readsFile T fails stale
  | .readsBase fails => n.readsBase fails
  | .judgesFile => n.judgesFile codec T
  | .identifies indexed => n.identifies indexed
  | .releases fails => n.releases fails
  | .readsEmpty fails => n.readsEmpty T fails
  | .readsText answer => n.readsText T answer
  | .copies fails => n.copies T fails
  | .readies stopped => n.readies stopped
  | .deletes fails => n.deletes fails
  | .stops => n.stops
  | .writes bytes => { n with file := some bytes }
  | .unlinks => { n with file := none }
  | .edits u => { n with doc := n.doc ⊔ u }
  | .egests => { n with file := some (T.encode (T.serialize n.doc)) }
  | .acks sv => { n with ackedSv := recordAck codec n.ackedSv sv }
  | .setsBase diskBase => { n with diskBase := diskBase }
  | .clears => { n with doc := ⊥ }

end Note

variable {Key : Type*} [DecidableEq Key]

/-- the notes of the pass, any of which may take the next step -/
def step (s : Key → Note B H Bytes Text) (a : Key × Action B H Bytes) : Key → Note B H Bytes Text :=
  Function.update s a.1 ((s a.1).step codec T a.2)

end Model

variable {B H Bytes Text : Type*} [DecidableEq H] (codec : VectorCodec B) (T : Texts Bytes Text H)
variable (n : Note B H Bytes Text)

/-! ## What is to hold -/

def acked : StateVector := (n.ackedSv.map (clocks codec)).getD ∅

/-- the local document has no ops -/
def NoOps : Prop := svIsEmpty codec (some (codec.encode (stateVector n.doc))) = true

/-- the text of structs that the server acknowledged, or, without a local document, the one last agreed on -/
def Acknowledged (text : Text) : Prop :=
  (∃ u, Covers (acked codec n) (stateVector u) ∧ T.serialize u = text) ∨
    NoOps codec n ∧ n.diskBase = some (T.sha256Hex text)

/-- there is nothing in the text, or it is not lost -/
def TextSaved (text : Text) : Prop :=
  T.blank text = true ∨ Acknowledged codec T n text ∨ ∃ bytes ∈ n.trash, T.decode bytes = some text

def BytesSaved (bytes : Bytes) : Prop :=
  bytes ∈ n.trash ∨ ∃ text, T.decode bytes = some text ∧ TextSaved codec T n text

structure Saved : Prop where
  file : ∀ bytes ∈ n.file, BytesSaved codec T n bytes
  doc : TextSaved codec T n (T.serialize n.doc)

/-- nothing is lost with the note, and it could be judged -/
structure Kept : Prop where
  saved : Saved codec T n
  judged : n.unjudged = false

/-! ## The condition -/

/-- nothing of the note is looked at any more before it is removed -/
def Passed : Stage B H Text → Prop
  | .judged .none | .released .none | .copied | .ready => True
  | _ => False

/-- the read is of what is there -/
def Unmoved (text : Text) (diskBase : H) : Prop :=
  (∀ bytes ∈ n.file, T.decode bytes = some text) ∧ n.diskBase = some diskBase ∧ NoOps codec n

def Cond : Action B H Bytes → Prop
  | .judgesVector => ∀ localSv, n.stage = .vectorRead (some localSv) → svIsEmpty codec (some localSv) = false →
      unseenWork (H := H) codec (some localSv) n.ackedSv none none = false →
      (∀ bytes ∈ n.file, BytesSaved codec T n bytes) ∧
        (codec.encode (stateVector n.doc) = localSv ∨ TextSaved codec T n (T.serialize n.doc))
  | .readsFile fails stale => n.stage = .bare →
      match n.readNote T fails with
      | none => stale = false → n.file = none ∧ TextSaved codec T n (T.serialize n.doc)
      | some text => T.blank text → TextSaved codec T n (T.serialize n.doc)
  | .judgesFile => ∀ text diskBase, n.stage = .baseRead text diskBase → diskBase = T.sha256Hex text →
      Unmoved codec T n text diskBase ∨ Saved codec T n
  | .copies fails => fails = false → ∀ crdtText, n.stage = .found crdtText →
      match crdtText.filter fun text => !T.blank text with
      | some text => (∀ bytes ∈ n.file, T.decode bytes = some text ∨ BytesSaved codec T n bytes) ∧
          (T.serialize n.doc = text ∨ TextSaved codec T n (T.serialize n.doc))
      | none => ∀ bytes ∈ n.file, T.decode bytes = some (T.serialize n.doc) ∨ TextSaved codec T n (T.serialize n.doc)
  | .writes bytes => Passed n.stage → BytesSaved codec T n bytes
  | .edits u => Passed n.stage → Saved codec T { n with doc := n.doc ⊔ u }
  | .setsBase diskBase => Passed n.stage → Saved codec T { n with diskBase := diskBase }
  | _ => True

variable {codec T n}

/-! ## What is saved stays so -/

@[simp] theorem clocks_encode (v : StateVector) : clocks codec (codec.encode v) = v := by
  simp [clocks, codec.decode_encode]

/-- a document without a vector has nothing that is not acknowledged -/
theorem covers_of_noOps (h : NoOps codec n) (w : StateVector) : Covers w (stateVector n.doc) := by
  have hzero : ∀ e ∈ stateVector n.doc, e.2 = 0 := by
    have hdec := of_decide_eq_true h
    rwa [clocks_encode] at hdec
  intro e he
  rw [hzero e he]
  exact Nat.zero_le _

theorem doc_saved_of_covers (h : Covers (acked codec n) (stateVector n.doc)) :
    TextSaved codec T n (T.serialize n.doc) :=
  .inr (.inl (.inl ⟨n.doc, h, rfl⟩))

/-- the record only grows -/
theorem covers_recordAck (prev : Option B) (sv : B) :
    Covers (((recordAck codec prev sv).map (clocks codec)).getD ∅) ((prev.map (clocks codec)).getD ∅) := by
  unfold recordAck
  split
  · exact covers_refl _
  · cases prev with
    | none => exact fun e he => absurd he (Finset.notMem_empty e)
    | some a =>
      have hclocks : clocks codec (mergeSv codec (some a) sv) = join (clocks codec a) (clocks codec sv) := by
        exact clocks_encode _
      have hleft : Covers (join (clocks codec a) (clocks codec sv)) (clocks codec a) :=
        covers_iff_get.2 (le_get_join_left _ _)
      simpa [hclocks] using hleft

variable {n' : Note B H Bytes Text}

theorem TextSaved.mono {text : Text} (h : TextSaved codec T n text) (htrash : n.trash ⊆ n'.trash)
    (hacked : Acknowledged codec T n text → Acknowledged codec T n' text) : TextSaved codec T n' text := by
  rcases h with hblank | hack | ⟨bytes, hmem, hdec⟩
  · exact .inl hblank
  · exact .inr (.inl (hacked hack))
  · exact .inr (.inr ⟨bytes, htrash hmem, hdec⟩)

theorem BytesSaved.mono {bytes : Bytes} (h : BytesSaved codec T n bytes) (htrash : n.trash ⊆ n'.trash)
    (hacked : ∀ text, Acknowledged codec T n text → Acknowledged codec T n' text) : BytesSaved codec T n' bytes := by
  rcases h with hmem | ⟨text, hdec, htext⟩
  · exact .inl (htrash hmem)
  · exact .inr ⟨text, hdec, htext.mono htrash (hacked text)⟩

theorem Saved.mono (h : Saved codec T n) (hfile : n'.file = n.file) (hdoc : n'.doc = n.doc)
    (htrash : n.trash ⊆ n'.trash) (hacked : ∀ text, Acknowledged codec T n text → Acknowledged codec T n' text) :
    Saved codec T n' := by
  refine ⟨fun bytes hbytes => (h.file bytes (hfile ▸ hbytes)).mono htrash hacked, ?_⟩
  rw [hdoc]
  exact h.doc.mono htrash (hacked _)

theorem saved_acks (h : Saved codec T n) (sv : B) :
    Saved codec T { n with ackedSv := recordAck codec n.ackedSv sv } := by
  refine h.mono rfl rfl (List.Subset.refl _) fun text hack => ?_
  rcases hack with ⟨u, hcov, hu⟩ | hbase
  · exact .inl ⟨u, (covers_recordAck n.ackedSv sv).trans hcov, hu⟩
  · exact .inr hbase

/-- a bridge writes nothing that is not saved -/
theorem saved_egests (h : Saved codec T n) : Saved codec T { n with file := some (T.encode (T.serialize n.doc)) } := by
  refine ⟨fun bytes hbytes => ?_, h.doc⟩
  cases hbytes
  exact .inr ⟨_, T.decode_encode _, h.doc⟩

theorem noOps_bot (n : Note B H Bytes Text) : NoOps codec { n with doc := ⊥ } := by
  have hsv : stateVector (⊥ : Update) = ∅ := by
    rfl
  simp [NoOps, svIsEmpty, hsv]

theorem saved_clears (h : Saved codec T n) : Saved codec T { n with doc := ⊥ } := by
  have hbare : NoOps codec { n with doc := ⊥ } := noOps_bot n
  refine ⟨fun bytes hbytes => (h.file bytes hbytes).mono (List.Subset.refl _) fun text hack => ?_, ?_⟩
  · rcases hack with hcov | ⟨_, hbase⟩
    · exact .inl hcov
    · exact .inr ⟨hbare, hbase⟩
  · exact doc_saved_of_covers (covers_of_noOps hbare _)

/-! ## The invariant -/

/-- the verdict is not that the note cannot be judged -/
def Judged : Stage B H Text → Prop
  | .judged .unknown | .deleted | .left => False
  | _ => True

variable (codec T n) in
structure Inv : Prop where
  saved : Passed n.stage → Saved codec T n
  judged : Judged n.stage → n.unjudged = false

theorem inv_next {stage : Stage B H Text} (hsaved : Passed stage → Saved codec T n)
    (hjudged : Judged stage → n.unjudged = false) : Inv codec T (n.next stage) :=
  ⟨fun h => (hsaved h).mono rfl rfl (List.Subset.refl _) fun _ hack => hack, hjudged⟩

theorem inv_left : Inv codec T (n.next .left) := inv_next False.elim False.elim

theorem inv_unknown : Inv codec T n.unknown := ⟨False.elim, False.elim⟩

/-- a note of which a copy is made: the copy is the file's, or the document's -/
theorem inv_copy {bytes : Bytes} (hjudged : n.unjudged = false)
    (hfile : ∀ b ∈ n.file, b = bytes ∨ (∃ text, T.decode b = some text ∧ T.decode bytes = some text) ∨
      BytesSaved codec T n b)
    (hdoc : T.decode bytes = some (T.serialize n.doc) ∨ TextSaved codec T n (T.serialize n.doc)) :
    Inv codec T (n.copy bytes) := by
  have htrash : n.trash ⊆ (n.copy bytes).trash := List.subset_append_left _ _
  have hmem : bytes ∈ (n.copy bytes).trash := List.mem_append_right _ List.mem_cons_self
  refine ⟨fun _ => ⟨fun b hb => ?_, ?_⟩, fun _ => hjudged⟩
  · rcases hfile b hb with rfl | ⟨text, hb, hbytes⟩ | hsaved
    · exact .inl hmem
    · exact .inr ⟨text, hb, .inr (.inr ⟨bytes, hmem, hbytes⟩)⟩
    · exact hsaved.mono htrash fun _ hack => hack
  · rcases hdoc with hdec | hsaved
    · exact .inr (.inr ⟨bytes, hmem, hdec⟩)
    · exact hsaved.mono htrash fun hack => hack

/-- a verdict of nothing unseen has to find the note saved -/
theorem inv_verdict {unseen : Bool} (hjudged : n.unjudged = false) (hsaved : unseen = false → Saved codec T n) :
    Inv codec T (n.next (.judged (Note.verdict unseen))) := by
  cases unseen with
  | false => exact inv_next (fun _ => hsaved rfl) fun _ => hjudged
  | true => exact inv_next False.elim fun _ => hjudged

/-! ## Steps -/

theorem inv_starts (h : Inv codec T n) (own : Bool) (hown : (n.starts own).own = false) :
    Inv codec T (n.starts own) := by
  unfold Note.starts at hown ⊢
  split
  · next hstage =>
    have hjudged : n.unjudged = false := h.judged (by rw [hstage]; trivial)
    split
    · next howned =>
      rw [hstage] at hown
      simp [howned] at hown
    · exact inv_next False.elim fun _ => hjudged
  · exact h

theorem inv_readsVector (h : Inv codec T n) (answer : Answer) : Inv codec T (n.readsVector codec answer) := by
  unfold Note.readsVector
  split
  · next hstage =>
    have hjudged : n.unjudged = false := h.judged (by rw [hstage]; trivial)
    cases answer with
    | fails => exact inv_unknown
    | absent | present => exact inv_next False.elim fun _ => hjudged
  · exact h

theorem inv_judgesVector (h : Inv codec T n) (hcond : Cond codec T n .judgesVector) :
    Inv codec T (n.judgesVector codec) := by
  unfold Note.judgesVector
  split
  · next localSv hstage =>
    have hjudged : n.unjudged = false := h.judged (by rw [hstage]; trivial)
    split
    · exact inv_next False.elim fun _ => hjudged
    · next hempty =>
      refine inv_verdict hjudged fun hnone => ?_
      cases localSv with
      | none => exact absurd rfl hempty
      | some l =>
        have hops : svIsEmpty codec (some l) = false := by simpa using hempty
        obtain ⟨hfile, hdoc⟩ := hcond l hstage hops hnone
        refine ⟨hfile, ?_⟩
        rcases hdoc with hread | hsaved
        · -- the vector that was covered is still the document's
          apply doc_saved_of_covers
          unfold unseenWork at hnone
          rw [hops] at hnone
          cases hacked : n.ackedSv with
          | none => rw [hacked] at hnone; cases hnone
          | some a =>
            rw [hacked] at hnone
            have hcov : svCovers codec a l = true := by simpa using hnone
            have hclocks := of_decide_eq_true hcov
            rw [← hread, clocks_encode] at hclocks
            simpa [acked, hacked] using hclocks
        · exact hsaved
  · exact h

theorem inv_readsFile (h : Inv codec T n) {fails stale : Bool} (hcond : Cond codec T n (.readsFile fails stale)) :
    Inv codec T (n.readsFile T fails stale) := by
  unfold Note.readsFile
  split
  · next hstage =>
    have hjudged : n.unjudged = false := h.judged (by rw [hstage]; trivial)
    have hread := hcond hstage
    split
    · next hnone =>
      rw [hnone] at hread
      split
      · exact inv_unknown
      · next hstale =>
        obtain ⟨hfile, hdoc⟩ := hread (by simpa using hstale)
        refine ⟨fun _ => ⟨fun bytes hbytes => ?_, hdoc⟩, fun _ => ?_⟩
        · rw [show n.file = none from hfile] at hbytes
          cases hbytes
        · rw [hfile]
          rfl
    · next text htext =>
      rw [htext] at hread
      split
      · next hblank =>
        refine inv_next (fun _ => ⟨fun bytes hbytes => .inr ⟨text, ?_, .inl hblank⟩, hread hblank⟩) fun _ => hjudged
        have hsome : n.file.bind T.decode = some text := by
          unfold Note.readNote at htext
          split at htext
          · cases htext
          · exact htext
        rw [Option.mem_def.mp hbytes] at hsome
        exact hsome
      · exact inv_next False.elim fun _ => hjudged
  · exact h

theorem inv_readsBase (h : Inv codec T n) (fails : Bool) : Inv codec T (n.readsBase fails) := by
  unfold Note.readsBase
  split
  · next text hstage =>
    have hjudged : n.unjudged = false := h.judged (by rw [hstage]; trivial)
    split
    · exact inv_unknown
    · exact inv_next False.elim fun _ => hjudged
  · exact h

theorem saved_of_unmoved {text : Text} {diskBase : H} (h : Unmoved codec T n text diskBase)
    (heq : diskBase = T.sha256Hex text) : Saved codec T n := by
  obtain ⟨hfile, hbase, hops⟩ := h
  refine ⟨fun bytes hbytes => .inr ⟨text, hfile bytes hbytes, .inr (.inl (.inr ⟨hops, ?_⟩))⟩, ?_⟩
  · rw [hbase, heq]
  · exact doc_saved_of_covers (covers_of_noOps hops _)

section

variable (h : Inv codec T n)

include h

theorem inv_judgesFile (hcond : Cond codec T n .judgesFile) : Inv codec T (n.judgesFile codec T) := by
  unfold Note.judgesFile
  split
  · next text diskBase hstage =>
    have hjudged : n.unjudged = false := h.judged (by rw [hstage]; trivial)
    refine inv_verdict hjudged fun hnone => ?_
    have heq : diskBase = T.sha256Hex text := by
      simpa [unseenWork] using hnone
    rcases hcond text diskBase hstage heq with hunmoved | hsaved
    · exact saved_of_unmoved hunmoved heq
    · exact hsaved
  · exact h

theorem inv_identifies (indexed : Option Bool) : Inv codec T (n.identifies indexed) := by
  unfold Note.identifies
  split
  · split
    · exact ⟨False.elim, fun _ => rfl⟩
    · exact inv_left
  · exact h

theorem inv_releases (fails : Bool) : Inv codec T (n.releases fails) := by
  unfold Note.releases
  split
  · next hstage =>
    cases fails with
    | true => exact inv_left
    | false => exact inv_next (fun _ => h.saved (by rw [hstage]; trivial)) fun _ => h.judged (by rw [hstage]; trivial)
  · next hstage =>
    cases fails with
    | true => exact inv_left
    | false => exact inv_next False.elim fun _ => h.judged (by rw [hstage]; trivial)
  · exact h

theorem inv_readsEmpty (fails : Bool) : Inv codec T (n.readsEmpty T fails) := by
  unfold Note.readsEmpty
  split
  · next hstage =>
    have hjudged : n.unjudged = false := h.judged (by rw [hstage]; trivial)
    split
    · exact inv_next False.elim fun _ => hjudged
    · exact inv_next False.elim fun _ => hjudged
  · exact h

theorem inv_readsText (answer : Answer) : Inv codec T (n.readsText T answer) := by
  unfold Note.readsText
  split
  · next hstage =>
    have hjudged : n.unjudged = false := h.judged (by rw [hstage]; trivial)
    cases answer with
    | fails => exact inv_left
    | absent | present => exact inv_next False.elim fun _ => hjudged
  · exact h

theorem inv_copies {fails : Bool} (hcond : Cond codec T n (.copies fails)) : Inv codec T (n.copies T fails) := by
  unfold Note.copies
  split
  · next crdtText hstage =>
    have hjudged : n.unjudged = false := h.judged (by rw [hstage]; trivial)
    split
    · exact inv_left
    · next hfails =>
      have hfound := hcond (by simpa using hfails) crdtText hstage
      split
      · next text htext =>
        rw [htext] at hfound
        obtain ⟨hfile, hdoc⟩ := hfound
        refine inv_copy hjudged (fun b hb => .inr ?_) ?_
        · exact (hfile b hb).imp_left fun hdec => ⟨text, hdec, T.decode_encode text⟩
        rcases hdoc with heq | hsaved
        · left
          rw [heq]
          exact T.decode_encode text
        · exact .inr hsaved
      · next htext =>
        rw [htext] at hfound
        split
        · exact inv_left
        · next bytes hbytes =>
          refine inv_copy hjudged (fun b hb => .inl ?_) (hfound bytes hbytes)
          rw [hbytes] at hb
          exact (Option.some.inj hb).symm
  · exact h

theorem inv_readies (stopped : Bool) : Inv codec T (n.readies stopped) := by
  unfold Note.readies
  split
  all_goals try exact h
  all_goals
    next hstage =>
    cases stopped with
    | true => exact inv_left
    | false => exact inv_next (fun _ => h.saved (by rw [hstage]; trivial)) fun _ => h.judged (by rw [hstage]; trivial)

theorem inv_deletes (fails : Bool) : Inv codec T (n.deletes fails) := by
  unfold Note.deletes
  split
  · split
    · exact inv_left
    · exact ⟨False.elim, False.elim⟩
  · exact h

theorem inv_stops : Inv codec T n.stops := by
  unfold Note.stops
  split
  · exact h
  · exact inv_left

/-- **A step keeps the invariant**, if it meets the condition. -/
theorem inv_step {a : Action B H Bytes} (hown : (n.step codec T a).own = false)
    (hcond : Cond codec T n a) : Inv codec T (n.step codec T a) := by
  cases a with
  | starts own => exact inv_starts h own hown
  | readsVector answer => exact inv_readsVector h answer
  | judgesVector => exact inv_judgesVector h hcond
  | readsFile fails stale => exact inv_readsFile h hcond
  | readsBase fails => exact inv_readsBase h fails
  | judgesFile => exact inv_judgesFile h hcond
  | identifies indexed => exact inv_identifies h indexed
  | releases fails => exact inv_releases h fails
  | readsEmpty fails => exact inv_readsEmpty h fails
  | readsText answer => exact inv_readsText h answer
  | copies fails => exact inv_copies h hcond
  | readies stopped => exact inv_readies h stopped
  | deletes fails => exact inv_deletes h fails
  | stops => exact inv_stops h
  | writes bytes =>
    refine ⟨fun hpassed => ⟨fun b hb => ?_, (h.saved hpassed).doc⟩, h.judged⟩
    cases hb
    exact hcond hpassed
  | unlinks => exact ⟨fun hpassed => ⟨fun _ hb => (nomatch hb), (h.saved hpassed).doc⟩, h.judged⟩
  | edits u | setsBase diskBase => exact ⟨hcond, h.judged⟩
  | egests => exact ⟨fun hpassed => saved_egests (h.saved hpassed), h.judged⟩
  | acks sv => exact ⟨fun hpassed => saved_acks (h.saved hpassed) sv, h.judged⟩
  | clears => exact ⟨fun hpassed => saved_clears (h.saved hpassed), h.judged⟩

end

/-- an own delete stays one -/
theorem own_step (h : n.own = true) (a : Action B H Bytes) : (n.step codec T a).own = true := by
  cases a with
  | writes _ | unlinks | edits _ | egests | acks _ | setsBase _ | clears => exact h
  | _ =>
    simp only [Note.step, Note.starts, Note.readsVector, Note.judgesVector, Note.readsFile, Note.readsBase,
      Note.judgesFile, Note.identifies, Note.releases, Note.readsEmpty, Note.readsText, Note.copies, Note.readies,
      Note.deletes, Note.stops]
    repeat' split
    all_goals first | rfl | exact h

/-! ## Runs -/

variable {Key : Type*} [DecidableEq Key]

variable (codec T) in
def Safe (s : Key → Note B H Bytes Text) (a : Key × Action B H Bytes) : Prop :=
  (s a.1).own = false → Cond codec T (s a.1) a.2

/-- before the pass -/
structure Start (n : Note B H Bytes Text) : Prop where
  waiting : n.stage = .waiting
  trash : n.trash = []
  judged : n.unjudged = false

/-- **No removal destroys the only copy.** A note that is about to be removed, and that this user did not delete, has no
text in its file or its document that is neither acknowledged nor in a copy of this pass, and it could be judged. -/
theorem removals_keep_texts {s : Key → Note B H Bytes Text} (hs : ∀ k, Start (s k)) {as : List (Key × Action B H Bytes)}
    (hsafe : Machine.Guarded (step codec T) (Safe codec T) s as) (k : Key)
    (hready : (Machine.run (step codec T) s as k).stage = .ready)
    (hown : (Machine.run (step codec T) s as k).own = false) : Kept codec T (Machine.run (step codec T) s as k) := by
  have hstep : ∀ (s : Key → Note B H Bytes Text) (a : Key × Action B H Bytes),
      (∀ k, (s k).own = false → Inv codec T (s k)) → Safe codec T s a →
      ∀ k, (step codec T s a k).own = false → Inv codec T (step codec T s a k) := by
    intro s a hinv hsafe k hk
    unfold step at hk ⊢
    rcases eq_or_ne k a.1 with rfl | hne
    · rw [Function.update_self] at hk ⊢
      have hbefore : (s a.1).own = false := by
        rw [← Bool.not_eq_true]
        intro htrue
        rw [own_step htrue a.2] at hk
        cases hk
      exact inv_step (hinv a.1 hbefore) hk (hsafe hbefore)
    · rw [Function.update_of_ne hne] at hk ⊢
      exact hinv k hk
  have hstart : ∀ k, (s k).own = false → Inv codec T (s k) := by
    intro k _
    refine ⟨fun hpassed => ?_, fun _ => (hs k).judged⟩
    rw [(hs k).waiting] at hpassed
    exact hpassed.elim
  have hrun := Machine.run_inv hstep hstart hsafe
  have hinv : Inv codec T (Machine.run (step codec T) s as k) := hrun k hown
  refine ⟨hinv.saved ?_, hinv.judged ?_⟩
  · rw [hready]
    trivial
  · rw [hready]
    trivial

/-! ## Runs on fixed inputs -/

/-- a text is the structs that are seen; bytes that are none cannot be read -/
def plainTexts : Texts (Option (Finset Crdt.Id)) (Finset Crdt.Id) (Finset Crdt.Id) where
  decode := id
  encode := some
  decode_encode _ := rfl
  blank text := decide (text = ∅)
  sha256Hex := id
  serialize u := u.structs \ u.deletes

abbrev PlainNote := Note StateVector (Finset Crdt.Id) (Option (Finset Crdt.Id)) (Finset Crdt.Id)

abbrev PlainAction := Action StateVector (Finset Crdt.Id) (Option (Finset Crdt.Id))

def runAll (n : PlainNote) (as : List PlainAction) : PlainNote :=
  Machine.run (step plainCodec plainTexts) (fun _ : Unit => n) (as.map fun a => ((), a)) ()

/-- everything in the document was acknowledged; the file was written by another program since -/
def edited : PlainNote where
  reason := .deleted
  file := some (some {⟨1, 0⟩, ⟨7, 0⟩})
  doc := ⟨{⟨1, 0⟩}, ∅⟩
  ackedSv := some {(1, 1)}
  diskBase := some {⟨1, 0⟩}

def editedReady : PlainNote := { edited with stage := .ready }

/-- **The vector is asked, the file is not.** The note is about to be removed with an edit that nothing else has. -/
theorem removes_external_edit :
    Start edited ∧ runAll edited [.starts false, .readsVector .present, .judgesVector, .releases false,
      .readies false] = editedReady ∧ editedReady.stage = .ready ∧ editedReady.own = false ∧
      ¬ Kept plainCodec plainTexts editedReady := by
  refine ⟨⟨rfl, rfl, rfl⟩, by decide, rfl, rfl, fun hkept => ?_⟩
  rcases hkept.saved.file (some {⟨1, 0⟩, ⟨7, 0⟩}) rfl with hmem | ⟨text, hdec, htext⟩
  · cases hmem
  · cases hdec
    rcases htext with hblank | (⟨u, hcov, hu⟩ | ⟨hops, _⟩) | ⟨bytes, hmem, _⟩
    · revert hblank
      decide
    · -- the new struct is in the state, so the vector has to have its client
      have hmem : (⟨7, 0⟩ : Crdt.Id) ∈ u.structs := by
        have hseen : (⟨7, 0⟩ : Crdt.Id) ∈ u.structs \ u.deletes := by
          rw [show u.structs \ u.deletes = {⟨1, 0⟩, ⟨7, 0⟩} from hu]
          decide
        exact (Finset.mem_sdiff.mp hseen).1
      have hclock : clock u 7 ≠ 0 := by
        intro hzero
        have hnot := clock_notMem u 7
        rw [hzero] at hnot
        exact hnot hmem
      have hle := covers_iff_get.mp hcov 7
      have hget : (acked plainCodec editedReady).get 7 = 0 := by decide
      rw [get_stateVector, hget] at hle
      omega
    · revert hops
      unfold NoOps
      decide
    · cases hmem

/-- a file that cannot be read is removed as one that is not there -/
example :
    (runAll { edited with file := some none, doc := ⊥ } [.starts false, .readsVector .absent, .judgesVector,
      .readsFile false false, .releases false, .readies false, .deletes false]).stage = .deleted := by
  decide

/-- a struct of the document was not sent, nor is it in the file yet -/
def unsent : PlainNote where
  reason := .revoked
  file := some (some {⟨1, 0⟩})
  doc := ⟨{⟨1, 0⟩, ⟨2, 0⟩}, ∅⟩
  ackedSv := some {(1, 1)}
  diskBase := none

def copied : List (Unit × PlainAction) :=
  [.starts false, .readsVector .present, .judgesVector, .egests, .releases false, .readsEmpty false, .copies false,
    .readies false].map fun a => ((), a)

theorem unsent_is_copied :
    Kept plainCodec plainTexts (Machine.run (step plainCodec plainTexts) (fun _ => unsent) copied ()) := by
  refine removals_keep_texts (fun _ => ⟨rfl, rfl, rfl⟩) ?_ () (by decide) (by decide)
  refine ⟨fun _ => trivial, fun _ => trivial, fun _ => ?_, fun _ => trivial, fun _ => trivial, fun _ => trivial,
    fun _ => ?_, fun _ => trivial, trivial⟩
  · intro localSv hstage _ hnone
    have hread : some (stateVector unsent.doc) = some localSv := Stage.vectorRead.inj hstage
    cases hread
    have hunseen : unseenWork (H := Finset Crdt.Id) plainCodec (some (stateVector unsent.doc)) (some {(1, 1)}) none
        none = true := by decide
    exact absurd (hunseen.symm.trans hnone) (by decide)
  · intro _ crdtText hstage
    obtain rfl : none = crdtText := Stage.found.inj hstage
    exact fun bytes hbytes => .inl (by obtain rfl := Option.some.inj hbytes; rfl)

end Baalda.InboundRemovals
