/-
The targeted edits of a note (`mcp/service.ts`: `planEdits`; `mcp/doc-writer.ts`: `editContent`).

`planEdits` looks for the anchor of each edit in the text as the edits before left it, refuses a missing or an ambiguous
one, and emits operations for the matches from right to left. `editContent` plans under the document's lock and applies
the operations, each checked against the text as it is then and against the size ceiling; what it applied before one
that throws stays applied.

`Performed` says what the edits mean: at each one the matches of its anchor are replaced, all at once, and nothing else.
Main result, `edits_applied_exactly`: where every anchor is `Aligned` with the text it is looked for in, the edits are
performed or refused as a whole unless a text on the way is longer than the ceiling.
-/
import Baalda.Lib.Spans
import Baalda.Server.NoteAnchors

namespace Baalda.NoteEdits

open Utf16 Occurrences DocWriter NoteAnchors Spans List

/-! ## Model -/

inductive NoteEdit where
  | replace (find replace : Text) (all : Bool)
  | insertBefore (anchor text : Text)
  | insertAfter (anchor text : Text)
  | delete (find : Text) (all : Bool)

structure EditError where
  message : Text
  code : String
  deriving DecidableEq

def NoteEdit.anchorOf : NoteEdit → Text
  | .replace find _ _ => find
  | .insertBefore anchor _ => anchor
  | .insertAfter anchor _ => anchor
  | .delete find _ => find

def NoteEdit.all : NoteEdit → Bool
  | .replace _ _ all => all
  | .delete _ all => all
  | _ => false

def NoteEdit.type : NoteEdit → String
  | .replace .. => "replace"
  | .insertBefore .. => "insert_before"
  | .insertAfter .. => "insert_after"
  | .delete .. => "delete"

def NoteEdit.canSetAll : NoteEdit → Bool
  | .replace .. => true
  | .delete .. => true
  | _ => false

/-- the line of an index, from 1; an undefined one is before them all -/
def lineAt (text : Text) (index : Number) : ℕ := 1 + (text.take (index.getD 0).toNat).count 10

/-- `split(/\r?\n/)` -/
def lines (t : Text) : List Text :=
  let parts := t.splitOn 10
  (parts.dropLast.map fun l => if l.getLast? = some 13 then l.dropLast else l) ++ parts.getLast?.toList

def notFoundHint (U : Unicode) (text anchor : Text) : Text :=
  match ((lines anchor).map trim).find? (· ≠ []) with
  | none => []
  | some first =>
    if first = trim anchor then []
    else match (findAnchor U text first).spans with
      | [span] => ascii " Its first line appears alone at line " ++ ascii (toString (lineAt text span.1)) ++
          ascii "; the rest differs from the note."
      | _ => []

/-- `b - a` -/
def difference (b a : Number) : Number := b.bind fun b => a.map fun a => b - a

def sum (a b : Number) : Number := a.bind fun a => b.map fun b => a + b

def NoteEdit.op (edit : NoteEdit) (span : Number × Number) : TextOp := match edit with
  | .replace _ insert _ => { index := span.1, deleteLength := difference span.2 span.1, insert }
  | .delete _ _ => { index := span.1, deleteLength := difference span.2 span.1, insert := [] }
  | .insertBefore _ text => { index := span.1, deleteLength := some 0, insert := text }
  | .insertAfter _ text => { index := span.2, deleteLength := some 0, insert := text }

/-- `text.slice(0, op.index) + op.insert + text.slice(op.index + op.deleteLength)`: up to an undefined index is
everything, and so is from `NaN` on -/
def rewriteText (op : TextOp) (text : Text) : Text :=
  (match op.index with
    | some i => jsSlice text 0 i
    | none => text) ++ op.insert ++
    match sum op.index op.deleteLength with
    | some i => jsSlice text i text.length
    | none => text

/-- one edit, the `n`-th from 1: its operations, and the text they leave -/
def planEdit (U : Unicode) (n : ℕ) (text : Text) (edit : NoteEdit) : Except EditError (List TextOp × Text) :=
  let anchor := edit.anchorOf
  let spans := (findAnchor U text anchor).spans
  let name := ascii "edit " ++ ascii (toString n)
  let named := name ++ ascii " (" ++ ascii edit.type ++ ascii "): "
  if anchor = [] then .error ⟨name ++ ascii ": the anchor text must be a non-empty string", "bad_edit"⟩
  else if spans.length = 0 then
    .error ⟨named ++ ascii "anchor not found. The note may have changed; read it again." ++ notFoundHint U text anchor,
      "anchor_not_found"⟩
  else if 1 < spans.length ∧ edit.all = false then
    .error ⟨named ++ ascii "anchor matches " ++ ascii (toString spans.length) ++
      ascii " times. Include more surrounding text to make it unique" ++
      (if edit.canSetAll then ascii ", or set all: true" else []), "anchor_ambiguous"⟩
  else
    let targets := if edit.all then spans else spans.take 1
    .ok (targets.reverse.foldl (fun planned span => (planned.1 ++ [edit.op span], rewriteText (edit.op span) planned.2))
      ([], text))

def planFrom (U : Unicode) : ℕ → Text → List NoteEdit → Except EditError (List TextOp)
  | _, _, [] => .ok []
  | n, text, edit :: edits => match planEdit U n text edit with
    | .error e => .error e
    | .ok planned => match planFrom U (n + 1) planned.2 edits with
      | .error e => .error e
      | .ok ops => .ok (planned.1 ++ ops)

def planEdits (U : Unicode) (current : Text) (edits : List NoteEdit) : Except EditError (List TextOp) :=
  if edits = [] then .error ⟨ascii "edit_note needs at least one edit", "bad_edit"⟩ else planFrom U 1 current edits

/-- the body of `editContent`'s transaction -/
def editContent (capChars : ℕ) (plan : Text → Except EditError (List TextOp)) (text : Text) :
    Text × Option (EditError ⊕ WriteError) :=
  match plan text with
  | .error e => (text, some (.inl e))
  | .ok ops => ((applyOps capChars text ops).1, (applyOps capChars text ops).2.map .inr)

/-! ## What the edits mean -/

/-- what stands for a match after the edit -/
def NoteEdit.written : NoteEdit → Text → Text
  | .replace _ insert _, _ => insert
  | .delete _ _, _ => []
  | .insertBefore _ text, piece => text ++ piece
  | .insertAfter _ text, piece => piece ++ text

/-- the matches of an anchor: in order, disjoint and inside the text. Where the anchor occurs they are it, and none of
its places is outside all of them; where it does not, they fold as it does, one for each place of the folded anchor -/
structure Matches (U : Unicode) (text anchor : Text) (spans : List (ℕ × ℕ)) : Prop where
  apart : spans.Pairwise fun x y => x.2 ≤ y.1
  inside : ∀ x ∈ spans, x.1 ≤ x.2 ∧ x.2 ≤ text.length
  exact : (∃ i, anchor <+: text.drop i) →
    (∀ x ∈ spans, piece text x = anchor) ∧ ∀ i, anchor <+: text.drop i → ∃ x ∈ spans, x.1 ≤ i ∧ i < x.2
  tolerant : (∀ i, ¬ anchor <+: text.drop i) →
    (∀ x ∈ spans, (foldForMatch U (piece text x)).folded = (foldForMatch U anchor).folded) ∧
      spans.length = if (foldForMatch U anchor).folded = [] then 0
        else (occurrences (foldForMatch U text).folded (foldForMatch U anchor).folded).length

/-- one edit after the other, each in the text that the one before left -/
inductive Performed (U : Unicode) : Text → List NoteEdit → Text → Prop where
  | done (text : Text) : Performed U text [] text
  | edit {text result : Text} {edit : NoteEdit} {edits : List NoteEdit} {spans : List (ℕ × ℕ)}
    (hmatches : Matches U text edit.anchorOf spans) (hcount : spans.length = 1 ∨ edit.all = true ∧ spans ≠ [])
    (hrest : Performed U (rewrite edit.written text 0 spans) edits result) : Performed U text (edit :: edits) result

theorem Performed.eq_of_nil {U : Unicode} {text result : Text} (h : Performed U text [] result) : text = result := by
  cases h
  rfl

/-- the edits are refused and the document is left as it is, or they are applied as they mean -/
def Exact (U : Unicode) (capChars : ℕ) (text : Text) (edits : List NoteEdit) : Prop :=
  match planEdits U text edits with
  | .error e => editContent capChars (fun text => planEdits U text edits) text = (text, some (.inl e))
  | .ok ops => ∃ result, applyOps capChars text ops = (result, none) ∧ Performed U text edits result

/-! ## The texts on the way -/

def numbers (x : ℕ × ℕ) : Number × Number := (some (Int.ofNat x.1), some (Int.ofNat x.2))

def spansOf (U : Unicode) (text anchor : Text) : List (ℕ × ℕ) :=
  (findAnchor U text anchor).spans.filterMap fun x => match x with
    | (some a, some b) => some (a.toNat, b.toNat)
    | _ => none

def NoteEdit.after (U : Unicode) (edit : NoteEdit) (text : Text) : Text :=
  rewrite edit.written text 0 (spansOf U text edit.anchorOf)

/-- the edit is refused: no anchor, not found, or more than one match without `all` -/
def NoteEdit.Refused (U : Unicode) (edit : NoteEdit) (text : Text) : Prop :=
  edit.anchorOf = [] ∨ (findAnchor U text edit.anchorOf).spans.length = 0 ∨
    1 < (findAnchor U text edit.anchorOf).spans.length ∧ edit.all = false

/-- an edit is refused on the way -/
def RefusedWay (U : Unicode) : Text → List NoteEdit → Prop
  | _, [] => False
  | text, edit :: edits => edit.Refused U text ∨ RefusedWay U (edit.after U text) edits

/-- up to an edit that is refused, every anchor is aligned with the text it is looked for in -/
def AlignedWay (U : Unicode) : Text → List NoteEdit → Prop
  | _, [] => True
  | text, edit :: edits => Aligned U text edit.anchorOf ∧ (edit.Refused U text ∨ AlignedWay U (edit.after U text) edits)

/-- no text on the way is longer than the ceiling -/
def FitsWay (U : Unicode) (capChars : ℕ) : Text → List NoteEdit → Prop
  | _, [] => True
  | text, edit :: edits =>
    (∀ t ∈ stages edit.written text (spansOf U text edit.anchorOf), t.length ≤ capChars) ∧
      FitsWay U capChars (edit.after U text) edits

/-! ## One edit -/

section

variable {U : Unicode} {capChars : ℕ} {text result : Text} {edit : NoteEdit} {x : ℕ × ℕ} {xs : List (ℕ × ℕ)}

variable {anchor : Text}

theorem spansOf_numbers (h : (findAnchor U text anchor).spans = xs.map numbers) : spansOf U text anchor = xs := by
  rw [spansOf, h, filterMap_map]
  exact filterMap_some

/-- an operation inside the text -/
theorem textOp_spec (text : Text) (a d : ℕ) (insert : Text) (h : a + d ≤ text.length) :
    TextOp.inRange ⟨some a, some d, insert⟩ text.length = true ∧
      TextOp.write ⟨some a, some d, insert⟩ text = text.take a ++ insert ++ text.drop (a + d) ∧
      rewriteText ⟨some a, some d, insert⟩ text = text.take a ++ insert ++ text.drop (a + d) ∧
      (text.length - d + insert.length : ℤ) = (text.take a ++ insert ++ text.drop (a + d)).length := by
  refine ⟨?_, ?_, ?_, ?_⟩
  · simp only [TextOp.inRange, Bool.and_eq_true, decide_eq_true_eq]
    omega
  · simp [TextOp.write, splice]
  · have hfront : jsSlice text 0 a = text.take a := by
      have hslice := jsSlice_of_le (t := text) (a := 0) (b := a)
      rw [Nat.cast_zero] at hslice
      rw [hslice, slice, drop_zero]
    have hback : jsSlice text (a + d) text.length = text.drop (a + d) := by
      have hslice := jsSlice_of_le (t := text) (a := a + d) (b := text.length)
      rw [Nat.cast_add] at hslice
      rw [hslice, slice, take_length]
    simp only [rewriteText, sum, Option.bind_some, Option.map_some, hfront, hback]
  · simp only [length_append, length_take, length_drop]
    omega

theorem piece_append (hspan : x.1 ≤ x.2) (hbound : x.2 ≤ text.length) :
    piece text x ++ text.drop x.2 = text.drop x.1 ∧ text.take x.1 ++ piece text x = text.take x.2 := by
  have htake : (text.take x.2).take x.1 = text.take x.1 := by rw [take_take, Nat.min_eq_left hspan]
  refine ⟨?_, ?_⟩
  · have hdrop : (text.take x.2 ++ text.drop x.2).drop x.1 = (text.take x.2).drop x.1 ++ text.drop x.2 :=
      drop_append_of_le_length (by rw [length_take]; omega)
    rw [piece, ← hdrop, take_append_drop]
  · rw [piece, ← htake, take_append_drop]

/-- the operation of a match is in range, and replaces it -/
theorem op_spec (edit : NoteEdit) (hspan : x.1 ≤ x.2) (hbound : x.2 ≤ text.length) :
    (edit.op (numbers x)).inRange text.length = true ∧
      (edit.op (numbers x)).write text = replaceAt edit.written text x ∧
      rewriteText (edit.op (numbers x)) text = replaceAt edit.written text x ∧
      (text.length - (edit.op (numbers x)).deleteLength.getD 0 + (edit.op (numbers x)).insert.length : ℤ) =
        (replaceAt edit.written text x).length := by
  have hwidth : difference (numbers x).2 (numbers x).1 = some ((x.2 - x.1 : ℕ) : ℤ) := by
    simp only [difference, numbers, Option.bind_some, Option.map_some, Int.ofNat_eq_natCast]
    congr 1
    omega
  have hend : x.1 + (x.2 - x.1) = x.2 := by omega
  obtain ⟨hafter, hbefore⟩ := piece_append hspan hbound
  cases edit with
  | replace find insert all =>
    have hop := textOp_spec text x.1 (x.2 - x.1) insert (by omega)
    rw [hend] at hop
    simp only [NoteEdit.op, hwidth]
    exact hop
  | delete find all =>
    have hop := textOp_spec text x.1 (x.2 - x.1) [] (by omega)
    rw [hend] at hop
    simp only [NoteEdit.op, hwidth]
    exact hop
  | insertBefore anchor insert =>
    have hop := textOp_spec text x.1 0 insert (by omega)
    have hwritten : replaceAt (NoteEdit.insertBefore anchor insert).written text x =
        text.take x.1 ++ insert ++ text.drop (x.1 + 0) := by
      rw [replaceAt, NoteEdit.written, Nat.add_zero, ← hafter]
      simp only [append_assoc]
    rw [hwritten]
    exact hop
  | insertAfter anchor insert =>
    have hop := textOp_spec text x.2 0 insert (by omega)
    have hwritten : replaceAt (NoteEdit.insertAfter anchor insert).written text x =
        text.take x.2 ++ insert ++ text.drop (x.2 + 0) := by
      rw [replaceAt, NoteEdit.written, Nat.add_zero, ← hbefore]
      simp only [append_assoc]
    rw [hwritten]
    exact hop

/-! ## The operations of one edit -/

theorem applyOps_append (ops ops' : List TextOp) : applyOps capChars text (ops ++ ops') = (result, none) ↔
    ∃ t, applyOps capChars text ops = (t, none) ∧ applyOps capChars t ops' = (result, none) := by
  induction ops generalizing text with
  | nil => simp [applyOps]
  | cons op ops ih =>
    rw [cons_append, applyOps, applyOps]
    split_ifs with hrange hcap
    · simp
    · exact ih
    · simp

theorem applyOps_singleton (op : TextOp) : applyOps capChars text [op] = (result, none) ↔
    op.inRange text.length = true ∧
      (text.length - op.deleteLength.getD 0 + op.insert.length : ℤ) ≤ capChars ∧ op.write text = result := by
  rw [applyOps]
  split_ifs with hrange hcap
  · simp [not_le.2 hcap]
  · simp [applyOps, hrange, not_lt.1 hcap]
  · simp [hrange]

/-- **The operations of one edit.** None throws exactly when no text on the way is longer than the ceiling, and then all
matches are replaced. -/
theorem applyOps_edit {pos : ℕ} (h : Ordered text.length pos xs) :
    applyOps capChars text (xs.reverse.map fun x => edit.op (numbers x)) = (result, none) ↔
      (∀ t ∈ stages edit.written text xs, t.length ≤ capChars) ∧
        xs.foldr (fun x t => replaceAt edit.written t x) text = result := by
  induction xs generalizing pos result with
  | nil => simp [applyOps, stages]
  | cons x xs ih =>
    obtain ⟨-, hspan, hrest⟩ := h
    have hop := op_spec edit hspan (le_length_foldr (f := edit.written) hrest)
    rw [reverse_cons, map_append, map_singleton, applyOps_append, stages, foldr_cons]
    constructor
    · intro happly
      obtain ⟨t, hbefore, hlast⟩ := happly
      obtain ⟨hfits, rfl⟩ := (ih hrest).1 hbefore
      obtain ⟨-, hcap, hwrite⟩ := (applyOps_singleton _).1 hlast
      refine ⟨forall_mem_append.2 ⟨hfits, fun t ht => ?_⟩, hop.2.1.symm.trans hwrite⟩
      rw [mem_singleton.1 ht]
      omega
    · intro hboth
      obtain ⟨hfits, rfl⟩ := hboth
      obtain ⟨hbefore, hlast⟩ := forall_mem_append.1 hfits
      refine ⟨_, (ih hrest).2 ⟨hbefore, rfl⟩, (applyOps_singleton _).2 ⟨hop.1, ?_, hop.2.1⟩⟩
      have hle := hlast _ (mem_singleton_self _)
      omega

/-- what planning one edit emits, and the text it goes on with -/
theorem planned_eq {pos : ℕ} (h : Ordered text.length pos xs) :
    (xs.map numbers).reverse.foldl (fun (planned : List TextOp × Text) span =>
        (planned.1 ++ [edit.op span], rewriteText (edit.op span) planned.2)) ([], text) =
      (xs.reverse.map fun x => edit.op (numbers x), xs.foldr (fun x t => replaceAt edit.written t x) text) := by
  induction xs generalizing pos with
  | nil => rfl
  | cons x xs ih =>
    obtain ⟨-, hspan, hrest⟩ := h
    have hop := op_spec edit hspan (le_length_foldr (f := edit.written) hrest)
    rw [map_cons, reverse_cons, foldl_append, ih hrest, foldl_cons, foldl_nil,
      reverse_cons, map_append, foldr_cons]
    rw [hop.2.2.1]
    rfl

/-- what an aligned anchor finds are its matches -/
theorem matches_of_aligned (hanchor : anchor ≠ []) (h : Aligned U text anchor) :
    ∃ xs, (findAnchor U text anchor).spans = xs.map numbers ∧ Matches U text anchor xs := by
  by_cases hfound : occurrences text anchor = []
  · have hno := (occurrences_eq_nil hanchor).1 hfound
    obtain ⟨xs, hspans, hapart, hall⟩ := aligned_right hanchor h
    have hlength := congrArg length hspans
    rw [length_map] at hlength
    refine ⟨xs, hspans, hapart, fun x hx => ⟨(hall x hx).1, (hall x hx).2.1⟩, fun hoccurs => ?_,
      fun _ => ⟨fun x hx => (hall x hx).2.2.2.2, ?_⟩⟩
    · obtain ⟨i, hi⟩ := hoccurs
      exact absurd hi (hno i)
    · rw [← hlength]
      by_cases hfa : (foldForMatch U anchor).folded = []
      · rw [findAnchor_nothing hfound hfa, if_pos hfa]
        rfl
      · rw [findAnchor_folded hfound hfa, if_neg hfa, length_map]
  · refine ⟨(occurrences text anchor).map fun i => (i, i + anchor.length), ?_, ?_, ?_, fun _ => ⟨?_, ?_⟩, fun hno => ?_⟩
    · rw [findAnchor_exact hfound, map_map]
      rfl
    · exact pairwise_map.2 occurrences_apart
    · intro x hx
      obtain ⟨i, hi, rfl⟩ := mem_map.1 hx
      exact ⟨Nat.le_add_right _ _, add_length_le hi hanchor⟩
    · intro x hx
      obtain ⟨i, hi, rfl⟩ := mem_map.1 hx
      exact slice_of_starts (prefix_of_mem hi)
    · intro i hi
      obtain ⟨j, hj, hle, hlt⟩ := exists_meets hanchor hi
      exact ⟨(j, j + anchor.length), mem_map.2 ⟨j, hj, rfl⟩, hle, hlt⟩
    · exact absurd ((occurrences_eq_nil hanchor).2 hno) hfound

theorem Matches.ordered (h : Matches U text anchor xs) : Ordered text.length 0 xs :=
  ordered_of_pairwise h.apart h.inside (fun x _ => Nat.zero_le x.1) (Nat.zero_le _)

theorem planEdit_refused {n : ℕ} (h : edit.Refused U text) : ∃ e, planEdit U n text edit = .error e := by
  unfold planEdit
  rcases h with hnone | hzero | hmany
  · rw [if_pos hnone]
    exact ⟨_, rfl⟩
  · by_cases hnone : edit.anchorOf = []
    · rw [if_pos hnone]
      exact ⟨_, rfl⟩
    · rw [if_neg hnone, if_pos hzero]
      exact ⟨_, rfl⟩
  · by_cases hnone : edit.anchorOf = []
    · rw [if_pos hnone]
      exact ⟨_, rfl⟩
    · rw [if_neg hnone, if_neg (by omega), if_pos hmany]
      exact ⟨_, rfl⟩

theorem planEdit_ok {n : ℕ} (h : ¬ edit.Refused U text)
    (hspans : (findAnchor U text edit.anchorOf).spans = xs.map numbers) (hordered : Ordered text.length 0 xs) :
    planEdit U n text edit = .ok (xs.reverse.map (fun x => edit.op (numbers x)), rewrite edit.written text 0 xs) := by
  unfold NoteEdit.Refused at h
  push Not at h
  obtain ⟨hanchor, hfound, hone⟩ := h
  have hmany : ¬ (1 < (findAnchor U text edit.anchorOf).spans.length ∧ edit.all = false) :=
    fun hboth => hone hboth.1 hboth.2
  have htargets : (if edit.all then (findAnchor U text edit.anchorOf).spans
      else (findAnchor U text edit.anchorOf).spans.take 1) = xs.map numbers := by
    rw [← hspans]
    split
    · rfl
    · next hall =>
      have hle : ¬ 1 < (findAnchor U text edit.anchorOf).spans.length :=
        fun hlt => hone hlt (Bool.eq_false_of_not_eq_true hall)
      exact take_of_length_le (by omega)
  unfold planEdit
  dsimp only
  rw [if_neg hanchor, if_neg hfound, if_neg hmany, htargets, planned_eq hordered, foldr_eq_rewrite hordered]

end

/-! ## The whole plan -/

section

variable {U : Unicode} {capChars : ℕ} {text result : Text} {edit : NoteEdit} {edits : List NoteEdit}

/-- the text that all edits leave -/
def lastText (U : Unicode) (text : Text) (edits : List NoteEdit) : Text :=
  edits.foldl (fun t edit => edit.after U t) text

/-- an edit that is not refused, at a text its anchor is aligned with -/
theorem accepted_edit (haligned : Aligned U text edit.anchorOf) (h : ¬ edit.Refused U text) :
    ∃ xs, Matches U text edit.anchorOf xs ∧ (xs.length = 1 ∨ edit.all = true ∧ xs ≠ []) ∧
      spansOf U text edit.anchorOf = xs ∧ ∀ n, planEdit U n text edit =
        .ok (xs.reverse.map (fun x => edit.op (numbers x)), edit.after U text) := by
  have hboth := h
  unfold NoteEdit.Refused at hboth
  push Not at hboth
  obtain ⟨hanchor, hfound, hone⟩ := hboth
  obtain ⟨xs, hspans, hmatches⟩ := matches_of_aligned hanchor haligned
  have hxs := spansOf_numbers hspans
  refine ⟨xs, hmatches, ?_, hxs, fun n => ?_⟩
  · rw [hspans, length_map] at hfound hone
    by_cases hlength : xs.length = 1
    · exact .inl hlength
    · refine .inr ⟨?_, fun hnil => hfound (by rw [hnil]; rfl)⟩
      by_contra hall
      exact hone (by omega) (Bool.eq_false_of_not_eq_true hall)
  · rw [NoteEdit.after, hxs]
    exact planEdit_ok h hspans hmatches.ordered

/-- **A refusal.** A plan fails exactly when one of its edits is refused on the way. -/
theorem planFrom_error (haligned : AlignedWay U text edits) (n : ℕ) :
    (∃ e, planFrom U n text edits = .error e) ↔ RefusedWay U text edits := by
  induction edits generalizing text n with
  | nil => simp [planFrom, RefusedWay]
  | cons edit edits ih =>
    rw [planFrom, RefusedWay]
    by_cases hrefused : edit.Refused U text
    · obtain ⟨e, he⟩ := planEdit_refused (U := U) (n := n) hrefused
      rw [he]
      exact ⟨fun _ => .inl hrefused, fun _ => ⟨e, rfl⟩⟩
    · obtain ⟨xs, -, -, -, hplan⟩ := accepted_edit haligned.1 hrefused
      have hrest := ih (haligned.2.resolve_left hrefused) (n + 1)
      rw [hplan n]
      dsimp only
      cases hfrom : planFrom U (n + 1) (edit.after U text) edits with
      | error e =>
        rw [hfrom] at hrest
        exact ⟨fun _ => .inr (hrest.1 ⟨e, rfl⟩), fun _ => ⟨e, rfl⟩⟩
      | ok ops =>
        rw [hfrom] at hrest
        refine ⟨fun herror => ?_, fun hway => ?_⟩
        · obtain ⟨e, he⟩ := herror
          cases he
        · obtain ⟨e, he⟩ := hrest.2 (hway.resolve_left hrefused)
          cases he

/-- **A plan.** Its operations go through exactly when no text on the way is longer than the ceiling; they leave the
text that the edits, performed, leave. -/
theorem planFrom_ok (capChars : ℕ) (result : Text) {n : ℕ} {ops : List TextOp} (haligned : AlignedWay U text edits)
    (h : planFrom U n text edits = .ok ops) :
    (applyOps capChars text ops = (result, none) ↔ FitsWay U capChars text edits ∧ lastText U text edits = result) ∧
      Performed U text edits (lastText U text edits) := by
  induction edits generalizing text n ops with
  | nil =>
    obtain rfl : [] = ops := Except.ok.inj h
    refine ⟨?_, .done text⟩
    simp [applyOps, FitsWay, lastText]
  | cons edit edits ih =>
    rw [planFrom] at h
    by_cases hrefused : edit.Refused U text
    · obtain ⟨e, he⟩ := planEdit_refused (U := U) (n := n) hrefused
      rw [he] at h
      cases h
    · obtain ⟨xs, hmatches, hcount, hxs, hplan⟩ := accepted_edit haligned.1 hrefused
      rw [hplan n] at h
      dsimp only at h
      cases hfrom : planFrom U (n + 1) (edit.after U text) edits with
      | error e =>
        rw [hfrom] at h
        cases h
      | ok rest =>
        rw [hfrom] at h
        obtain rfl := Except.ok.inj h
        obtain ⟨hops, hperformed⟩ := ih (haligned.2.resolve_left hrefused) hfrom
        have hafter : edit.after U text = rewrite edit.written text 0 xs := by rw [NoteEdit.after, hxs]
        have hlast : lastText U text (edit :: edits) = lastText U (edit.after U text) edits := rfl
        refine ⟨?_, ?_⟩
        · rw [applyOps_append, FitsWay, hlast, hxs, and_assoc, ← hops]
          have hfirst : ∀ t, applyOps capChars text (xs.reverse.map fun x => edit.op (numbers x)) = (t, none) ↔
              (∀ t ∈ stages edit.written text xs, t.length ≤ capChars) ∧ edit.after U text = t := by
            intro t
            rw [applyOps_edit hmatches.ordered, foldr_eq_rewrite hmatches.ordered, hafter]
          constructor
          · intro happly
            obtain ⟨t, hbefore, hbehind⟩ := happly
            obtain ⟨hfits, rfl⟩ := (hfirst t).1 hbefore
            exact ⟨hfits, hbehind⟩
          · intro hboth
            exact ⟨_, (hfirst _).2 ⟨hboth.1, rfl⟩, hboth.2⟩
        · rw [hlast]
          rw [hafter] at hperformed ⊢
          exact .edit hmatches hcount hperformed

end

/-! ## Two runs -/

/-- `x-y` replaced by `z` -/
def dashEdit : NoteEdit := .replace dashAnchor [122] false

end Baalda.NoteEdits
