/-
Registrations of notes and of files that interleave, as one registry: the notes of `NoteRaces` and the files of
`FileRaces`, each in a table of its own.

`registration_truthful`: in every run whose statements all meet the condition, every answer of either kind tells of a row that
is there. `file_of_another_vault`: one request, and an answer that is false.
-/
import Baalda.Server.FileRaces
import Baalda.Server.NoteRaces

namespace Baalda.Registration

open VaultTree RegisterNotes List

variable {Id K : Type*}

structure St (Id K : Type*) where
  notes : NoteRaces.St Id K
  files : FileRaces.St Id K

inductive Action (Id K : Type*) where
  | note (a : NoteRaces.Action Id K)
  | file (a : FileRaces.Action Id)

section

variable [DecidableEq Id] [DecidableEq K] (key : Path → K)

def step (s : St Id K) : Action Id K → St Id K
  | .note a => { s with notes := NoteRaces.step key s.notes a }
  | .file a => { s with files := FileRaces.step key s.files a }

def run (s : St Id K) (as : List (Action Id K)) : St Id K := Machine.run (step key) s as

/-- a registry that no request is at work on -/
def start (notes : List (NoteRow Id)) (files : List (FileRow Id)) : St Id K := ⟨{ notes := notes }, { files := files }⟩

structure Indexed (notes : List (NoteRow Id)) (files : List (FileRow Id)) : Prop where
  notes : NoteRaces.Indexed key notes
  files : FileRaces.Indexed key files

def Sound (s : St Id K) : Action Id K → Prop
  | .note a => NoteRaces.Sound key s.notes a
  | .file a => FileRaces.Sound key s.files a

/-- every answer given so far was true when it was given -/
structure AnswersTruthful (s : St Id K) : Prop where
  notes : NoteRaces.AnswersTruthful key s.notes
  files : FileRaces.AnswersTruthful key s.files

structure St.Ok (s : St Id K) : Prop where
  notes : s.notes.Ok key
  files : s.files.Ok key

variable {key}

theorem ok_step (s : St Id K) (a : Action Id K) (h : s.Ok key) (hsound : Sound key s a) : (step key s a).Ok key := by
  cases a with
  | note a => exact ⟨NoteRaces.ok_step s.notes a h.notes hsound, h.files⟩
  | file a => exact ⟨h.notes, FileRaces.ok_step s.files a h.files hsound⟩

/-- **Registration answers are truthful.** From every registry and in every interleaving of any number of registrations
of notes and files whose statements meet the condition, a created or adopted answer names the one row of its vault at the
path it reports, and a conflict or an error has written nothing. -/
theorem registration_truthful {notes : List (NoteRow Id)} {files : List (FileRow Id)} (hindexed : Indexed key notes files)
    {as : List (Action Id K)} (h : Machine.Guarded (step key) (Sound key) (start notes files) as) :
    AnswersTruthful key (run key (start notes files) as) := by
  have hinit : St.Ok key (start notes files : St Id K) :=
    ⟨⟨hindexed.notes, fun c hc => absurd hc not_mem_nil, fun r hr => absurd hr not_mem_nil⟩,
      ⟨hindexed.files, fun c hc => absurd hc not_mem_nil, fun r hr => absurd hr not_mem_nil⟩⟩
  have hok : St.Ok key (run key (start notes files) as) := Machine.run_inv ok_step hinit h
  exact ⟨hok.notes.returns, hok.files.returns⟩

/-- one request registers a note and one a file, a statement of the one after a statement of the other -/
def noteAndFile : List (Action ℕ Path) :=
  [.note (.calls 0 [{ relPath := ['a'], docId := some 2, minted := 7 }]), .file (.calls 0),
    .file (.goesOn 0 (.register { path := ['b'], docId := some 3, minted := 8 })), .note (.goesOn 0 .prefetch),
    .file (.goesOn 0 .lookUp), .note (.goesOn 0 (.plan openVault [] none)), .file (.goesOn 0 (.resolve [])),
    .note (.goesOn 0 .insert), .file (.goesOn 0 .readById), .file (.goesOn 0 (.write true true false)),
    .note (.goesOn 0 .answer), .file (.goesOn 0 (.answer true))]

theorem noteAndFile_guarded :
    Machine.Guarded (step id) (Sound id) (start ([] : List (NoteRow ℕ)) ([] : List (FileRow ℕ))) noteAndFile := by
  refine ⟨trivial, trivial, ?_, ?_, ?_, ?_, ?_, ?_, ?_, ?_, ?_, ?_, trivial⟩ <;>
    (intro c hc; obtain rfl := Option.some.inj hc)
  · trivial
  · trivial
  · -- the file's path is looked up in an empty cache
    intro row hrow
    cases hrow
  · trivial
  · intro folderId storedPath hloc hsame
    cases hloc
    cases hsame
  · -- the only plan of the batch, on which no other item relies
    intro _ plan hplan
    obtain rfl := mem_singleton.1 hplan
    constructor
    · intro q _ _ hanswered
      cases mem_singleton.1 hanswered
    · intro hclaims
      exact absurd hclaims (lt_irrefl 1)
  · trivial
  · intro _ _ hid
    cases hid
  · trivial
  · trivial

theorem note_and_file_are_there : AnswersTruthful id (run id (start [] []) noteAndFile) := by
  apply registration_truthful _ noteAndFile_guarded
  exact ⟨⟨nodup_nil, by simp⟩, ⟨nodup_nil, by simp⟩⟩

/-- a file is registered under the id of a file in vault 5 -/
def idElsewhere : List (Action ℕ Path) :=
  [.file (.calls 0), .file (.goesOn 0 (.register { path := ['b'], docId := some 3, minted := 8 })),
    .file (.goesOn 0 .lookUp), .file (.goesOn 0 (.resolve [])), .file (.goesOn 0 .readById),
    .file (.goesOn 0 (.write true true false)), .file (.goesOn 0 (.answer true))]

/-- it is answered `created`, and nothing of vault 0 is there -/
theorem file_of_another_vault : Indexed id [] [⟨3, 5, none, ['x']⟩] ∧
    ¬ AnswersTruthful id (run id (start [] [⟨3, 5, none, ['x']⟩]) idElsewhere) := by
  refine ⟨⟨⟨nodup_nil, by simp⟩, ⟨nodup_singleton _, by simp⟩⟩, ?_⟩
  intro h
  have hreturns : (run id (start [] [⟨3, 5, none, ['x']⟩]) idElsewhere).files.returns =
      [⟨0, (.created ⟨3, none, none, ['b']⟩, false), [⟨3, 5, none, ['x']⟩]⟩] := rfl
  obtain ⟨f, hf, _⟩ := h.files _ (hreturns ▸ mem_singleton_self _)
  cases hf

end

end Baalda.Registration
