/-
What a read of the note's file means to the bridge (`bridge/noteBridge.ts mergeDiskRead`, `bridge/blankFile.ts`).

`judge` is the decision of one ingest pass once it has the file's text and hash: an echo, a file that is behind the
document, a refusal, or a diff to replay. It is the part between the pass's awaits that reads everything and changes
nothing; the bridge acts on its `Verdict`.

A text is the list of its UTF-16 code units.
-/
import Baalda.Desktop.Diff

namespace Baalda.Bridge

open TextDiff

abbrev Text := List UInt16

/-! ## Blank files -/

def lineFeed : UInt16 := 10
def carriageReturn : UInt16 := 13
def hyphen : UInt16 := 45
def fullStop : UInt16 := 46
def byteOrderMark : UInt16 := 65279

/-- a space or a tab -/
def isBlank (u : UInt16) : Bool := u = 32 || u = 9

/-- what `trim` takes off: white space and line ends -/
def isTrimmed (u : UInt16) : Bool :=
  (9 ≤ u && u ≤ 13) || u = 32 || u = 160 || u = 5760 || (8192 ≤ u && u ≤ 8202) || u = 8232 || u = 8233 || u = 8239 ||
    u = 8287 || u = 12288 || u = byteOrderMark

def trim (t : Text) : Text := ((t.dropWhile isTrimmed).reverse.dropWhile isTrimmed).reverse

/-- `\r?\n` -/
def afterLineEnd : Text → Option Text
  | u :: v :: t => if u = carriageReturn ∧ v = lineFeed then some t else if u = lineFeed then some (v :: t) else none
  | [u] => if u = lineFeed then some [] else none
  | [] => none

def afterThree (u : UInt16) : Text → Option Text
  | a :: b :: c :: t => if a = u ∧ b = u ∧ c = u then some t else none
  | _ => none

/-- the opening fence of a frontmatter block, after an optional byte order mark -/
def afterOpening (t : Text) : Option Text :=
  let t := if t.head? = some byteOrderMark then t.tail else t
  (afterThree hyphen t).bind fun t => afterLineEnd (t.dropWhile isBlank)

/-- a closing fence at the start of a line: `---` or `...`, to the end of its line or of the text -/
def afterClosing (t : Text) : Option Text :=
  ((afterThree hyphen t).or (afterThree fullStop t)).bind fun t =>
    match t.dropWhile isBlank with
    | [] => some []
    | rest => afterLineEnd rest

/-- the first closing fence that starts a later line -/
def findClosing : Text → Option Text
  | [] => none
  | u :: t =>
    match (afterLineEnd (u :: t)).bind afterClosing with
    | some rest => some rest
    | none => findClosing t

/-- the note's body: everything after a leading frontmatter block, if there is one -/
def noteBody (t : Text) : Text := match afterOpening t with
  | none => t
  | some body => match findClosing body with
    | some rest => rest
    | none => (afterClosing body).getD t

def meaningfulLength (t : Text) : ℕ := (trim (noteBody t)).length

def blankIngestMinChars : ℕ := 200

def isBlankTruncation (docText fileText : Text) : Bool :=
  meaningfulLength fileText = 0 && blankIngestMinChars ≤ meaningfulLength docText

/-! ## The verdict on a read -/

structure BridgeConfig where
  largeDiffRatio : ℚ := 3 / 5
  maxIngestBytes : ℕ := 10 * 1024 * 1024
  allowTruncateFromDisk : Bool := false

/-- the hashes a read is compared with -/
structure Hashes (H : Type*) where
  lastWrittenHash : Option H := none
  pendingMergedFileHash : Option H := none
  diskBase : Option H := none

/-- what a pass was started with -/
structure Pass where
  /-- the document had held text when the pass began -/
  hadContent : Bool
  /-- the reconcile after a pull: the base is the state before it -/
  fixedBase : Bool

/-- what becomes of a read -/
inductive Verdict where
  /-- our own write, or a disk input merged already -/
  | echo
  | converged
  /-- the file is what this device last synced: it is behind -/
  | behindDiskBase
  /-- the file is the document's baseline; `moved`: the document has moved on from it -/
  | behindBaseline (moved : Bool)
  | blank
  | readOnlyEmpty
  | readOnly
  | unseeded
  /-- the file brings nothing of its own beside what the pull delivered -/
  | nothingOwn
  | merge (diffs : List (Hunk UInt16)) (large : Bool)

variable {H : Type*} [DecidableEq H]

/-- the size ceiling, before the hash is looked at -/
def oversize (cfg : BridgeConfig) (fileText : Text) : Bool := 0 < cfg.maxIngestBytes && cfg.maxIngestBytes < fileText.length

/-- the diff a pass would replay: pull-aware when its base is fixed -/
def passDiff (computeDiff : Text → Text → List (Hunk UInt16)) (fixedBase : Bool) (current live fileText : Text) :
    List (Hunk UInt16) :=
  if fixedBase then
    withoutPullInsertions (computeDiff current fileText) (computeDiff current live) (computeDiff live fileText)
  else computeDiff current fileText

/-- a file with no body over a document that has one -/
def blankFile (current fileText : Text) : Bool :=
  if fileText = [] then current ≠ [] else isBlankTruncation current fileText

/-- `live` is the document's text, `current` that of the pass's baseline, which is another document if `moved` -/
def judge (cfg : BridgeConfig) (computeDiff : Text → Text → List (Hunk UInt16)) (seedOnOpen readOnlyDoc : Bool)
    (hashes : Hashes H) (pass : Pass) (live current : Text) (moved : Bool) (fileText : Text) (fileHash : H) : Verdict :=
  if some fileHash = hashes.lastWrittenHash ∨ some fileHash = hashes.pendingMergedFileHash then .echo
  else if live = fileText then .converged
  else if hashes.diskBase = some fileHash then .behindDiskBase
  else if current = fileText then .behindBaseline moved
  else if blankFile current fileText && !cfg.allowTruncateFromDisk then .blank
  else if readOnlyDoc then (if current = [] then .readOnlyEmpty else .readOnly)
  else if current = [] ∧ pass.hadContent = false ∧ seedOnOpen = false then .unseeded
  else
    let diffs := passDiff computeDiff pass.fixedBase current live fileText
    if pass.fixedBase && diffs.all (·.1 = .equal) then .nothingOwn
    else .merge diffs (cfg.largeDiffRatio < changeRatio diffs current.length fileText.length)

section inversion

variable {cfg : BridgeConfig} {computeDiff : Text → Text → List (Hunk UInt16)} {seedOnOpen readOnlyDoc : Bool}
  {hashes : Hashes H} {pass : Pass} {live current : Text} {moved : Bool} {fileText : Text} {fileHash : H}

/-- what a verdict on a read rests on, where it takes the read in or leaves it for the document to replace -/
def Rests (computeDiff : Text → Text → List (Hunk UInt16)) (seedOnOpen readOnlyDoc : Bool) (hashes : Hashes H)
    (pass : Pass) (live current : Text) (moved : Bool) (fileText : Text) (fileHash : H) : Verdict → Prop
  | .echo => some fileHash = hashes.lastWrittenHash ∨ some fileHash = hashes.pendingMergedFileHash
  | .converged => live = fileText
  | .behindDiskBase => hashes.diskBase = some fileHash
  | .behindBaseline moved' => current = fileText ∧ moved' = moved ∧ live ≠ fileText
  | .nothingOwn => ¬(current = [] ∧ pass.hadContent = false ∧ seedOnOpen = false) ∧
      (pass.fixedBase && (passDiff computeDiff pass.fixedBase current live fileText).all (·.1 = .equal)) = true
  | .merge diffs _ => ¬(current = [] ∧ pass.hadContent = false ∧ seedOnOpen = false) ∧
      diffs = passDiff computeDiff pass.fixedBase current live fileText ∧ live ≠ fileText ∧ current ≠ fileText ∧
      readOnlyDoc = false
  | .blank | .readOnlyEmpty | .readOnly | .unseeded => True

/-- the conditions of `judge`, in its order -/
theorem judge_rests : Rests computeDiff seedOnOpen readOnlyDoc hashes pass live current moved fileText fileHash
    (judge cfg computeDiff seedOnOpen readOnlyDoc hashes pass live current moved fileText fileHash) := by
  refine iteInduction (fun hecho => hecho) fun _ => ?_
  refine iteInduction (fun hlive => hlive) fun hlive => ?_
  refine iteInduction (fun hbase => hbase) fun _ => ?_
  refine iteInduction (fun hcurrent => ⟨hcurrent, rfl, hlive⟩) fun hcurrent => ?_
  refine iteInduction (fun _ => trivial) fun _ => ?_
  refine iteInduction (fun _ => iteInduction (fun _ => trivial) fun _ => trivial) fun hro => ?_
  refine iteInduction (fun _ => trivial) fun hseeded => ?_
  refine iteInduction (fun hown => ⟨hseeded, hown⟩) fun _ => ?_
  exact ⟨hseeded, rfl, hlive, hcurrent, Bool.eq_false_of_not_eq_true hro⟩

theorem rests_of_judge {v : Verdict}
    (h : judge cfg computeDiff seedOnOpen readOnlyDoc hashes pass live current moved fileText fileHash = v) :
    Rests computeDiff seedOnOpen readOnlyDoc hashes pass live current moved fileText fileHash v :=
  h ▸ judge_rests

theorem judge_echo
    (h : judge cfg computeDiff seedOnOpen readOnlyDoc hashes pass live current moved fileText fileHash = .echo) :
    hashes.lastWrittenHash = some fileHash ∨ hashes.pendingMergedFileHash = some fileHash :=
  (rests_of_judge h).imp Eq.symm Eq.symm

theorem judge_of_written (h : hashes.lastWrittenHash = some fileHash) :
    judge cfg computeDiff seedOnOpen readOnlyDoc hashes pass live current moved fileText fileHash = .echo := by
  unfold judge
  rw [if_pos (.inl h.symm)]

/-- a document that waits for its text from the server takes in none of the file -/
theorem judge_unseeded (hseed : seedOnOpen = false) (hhad : pass.hadContent = false) (hempty : current = [])
    (diffs : List (Hunk UInt16)) (large : Bool) :
    judge cfg computeDiff seedOnOpen readOnlyDoc hashes pass live current moved fileText fileHash ≠ .merge diffs large ∧
      judge cfg computeDiff seedOnOpen readOnlyDoc hashes pass live current moved fileText fileHash ≠ .nothingOwn := by
  have hunseeded : current = [] ∧ pass.hadContent = false ∧ seedOnOpen = false := ⟨hempty, hhad, hseed⟩
  exact ⟨fun h => (rests_of_judge h).1 hunseeded, fun h => (rests_of_judge h).1 hunseeded⟩

theorem judge_behindDiskBase
    (h : judge cfg computeDiff seedOnOpen readOnlyDoc hashes pass live current moved fileText fileHash =
      .behindDiskBase) :
    hashes.diskBase = some fileHash :=
  rests_of_judge h

theorem judge_merge {diffs : List (Hunk UInt16)} {large : Bool}
    (h : judge cfg computeDiff seedOnOpen readOnlyDoc hashes pass live current moved fileText fileHash =
      .merge diffs large) :
    diffs = passDiff computeDiff pass.fixedBase current live fileText ∧ live ≠ fileText ∧ current ≠ fileText ∧
      readOnlyDoc = false :=
  (rests_of_judge h).2

theorem judge_nothingOwn
    (h : judge cfg computeDiff seedOnOpen readOnlyDoc hashes pass live current moved fileText fileHash = .nothingOwn) :
    pass.fixedBase = true ∧ ∀ d ∈ passDiff computeDiff true current live fileText, d.1 = .equal := by
  obtain ⟨hfixed, hall⟩ := Bool.and_eq_true_iff.mp (rests_of_judge h).2
  rw [hfixed] at hall
  exact ⟨hfixed, fun d hd => of_decide_eq_true (List.all_eq_true.mp hall d hd)⟩

theorem judge_converged
    (h : judge cfg computeDiff seedOnOpen readOnlyDoc hashes pass live current moved fileText fileHash = .converged) :
    live = fileText :=
  rests_of_judge h

theorem judge_behindBaseline {moved' : Bool}
    (h : judge cfg computeDiff seedOnOpen readOnlyDoc hashes pass live current moved fileText fileHash =
      .behindBaseline moved') :
    current = fileText ∧ moved' = moved ∧ live ≠ fileText :=
  rests_of_judge h

end inversion

end Baalda.Bridge
