/-
The bridge's diff helpers (`apps/desktop/src/lib/bridge/diff.ts`).

`withoutPullInsertions` takes out of a pre-pull → file diff the text the pull already delivered:
- what it keeps and what it deletes stay as they were (`source_withoutPullInsertions`, `struck_withoutPullInsertions`);
- a unit the file inserts is still inserted, or the pull inserted it (`inserted_or_pulled`, `count_inserted_le`);
- the first unused pull insertion a hunk carries is taken out of it (`stripHunk_first`).

The diff itself is diff-match-patch's; it is a parameter.
-/
import Baalda.Lib.TextCrdt

namespace Baalda.Bridge

open TextDiff TextCrdt List

variable {α : Type*} [DecidableEq α]

/-- the fraction of content that churns in a diff -/
def changeRatio (diffs : List (Hunk α)) (oldLen newLen : ℕ) : ℚ :=
  let changed := (diffs.map fun d => if d.1 = .equal then 0 else d.2.length).sum
  if oldLen + newLen = 0 then 0 else changed / (oldLen + newLen : ℕ)

/-- the shortest pull insertion stripped from a hunk that merely contains it -/
def minStrippedPullInsert : ℕ := 8

/-- `rest.indexOf(s)` -/
def indexOf (s : List α) : List α → Option ℕ
  | [] => if s = [] then some 0 else none
  | a :: rest => if s.isPrefixOf (a :: rest) then some 0 else (indexOf s rest).map (· + 1)

/-- `rest.slice(0, at) + rest.slice(at + s.length)` -/
def cutOut (s rest : List α) (i : ℕ) : List α := rest.take i ++ rest.drop (i + s.length)

/-- the loop over the pull's insertions for one insert hunk: what is left of the hunk, and of the insertions; a consumed
one is emptied -/
def stripHunk : List (List α) → List α → List α × List (List α)
  | [], rest => (rest, [])
  | s :: pulled, rest =>
    if rest = [] then (rest, s :: pulled)
    else if s = [] ∨ (s ≠ rest ∧ s.length < minStrippedPullInsert) then
      ((stripHunk pulled rest).1, s :: (stripHunk pulled rest).2)
    else match indexOf s rest with
      | none => ((stripHunk pulled rest).1, s :: (stripHunk pulled rest).2)
      | some i => ((stripHunk pulled (cutOut s rest i)).1, [] :: (stripHunk pulled (cutOut s rest i)).2)

/-- the loop over the hunks -/
def stripHunks : List (List α) → List (Hunk α) → List (Hunk α)
  | _, [] => []
  | pulled, (.insert, data) :: ds =>
    if (stripHunk pulled data).1 = [] then stripHunks (stripHunk pulled data).2 ds
    else (.insert, (stripHunk pulled data).1) :: stripHunks (stripHunk pulled data).2 ds
  | pulled, (.equal, data) :: ds => (.equal, data) :: stripHunks pulled ds
  | pulled, (.delete, data) :: ds => (.delete, data) :: stripHunks pulled ds

def insertions (diffs : List (Hunk α)) : List (List α) := (diffs.filter (·.1 = .insert)).map Prod.snd

def hasInsert (diffs : List (Hunk α)) : Bool := diffs.any (·.1 = .insert)

def withoutPullInsertions (preToFile preToLive liveToFile : List (Hunk α)) : List (Hunk α) :=
  if hasInsert liveToFile = false then preToFile.filter (·.1 ≠ .insert)
  else if insertions preToLive = [] then preToFile
  else stripHunks (insertions preToLive) preToFile

/-! ## What is kept and deleted stays -/

omit [DecidableEq α] in
theorem source_filter_not_insert (diffs : List (Hunk α)) : source (diffs.filter (·.1 ≠ .insert)) = source diffs := by
  induction diffs with
  | nil => rfl
  | cons d ds ih =>
    obtain ⟨op, t⟩ := d
    cases op with
    | equal | delete | insert => simpa using ih

theorem source_stripHunks (pulled : List (List α)) (diffs : List (Hunk α)) :
    source (stripHunks pulled diffs) = source diffs := by
  induction diffs generalizing pulled with
  | nil => rfl
  | cons d ds ih =>
    obtain ⟨op, t⟩ := d
    cases op with
    | equal | delete => simp [stripHunks, ih]
    | insert =>
      rw [stripHunks]
      split_ifs
      · exact ih _
      · exact ih _

/-- **The source side.** What is left is still a diff of the text it was computed from. -/
theorem source_withoutPullInsertions (preToFile preToLive liveToFile : List (Hunk α)) :
    source (withoutPullInsertions preToFile preToLive liveToFile) = source preToFile := by
  unfold withoutPullInsertions
  split_ifs
  · exact source_filter_not_insert _
  · rfl
  · exact source_stripHunks _ _

theorem struck_stripHunks {ι : Type*} (cells : Doc ι α) (pulled : List (List α)) (diffs : List (Hunk α)) :
    struck cells (stripHunks pulled diffs) = struck cells diffs := by
  induction diffs generalizing pulled cells with
  | nil => rfl
  | cons d ds ih =>
    obtain ⟨op, t⟩ := d
    cases op with
    | equal | delete => simp [stripHunks, struck, ih]
    | insert =>
      rw [stripHunks]
      split_ifs
      · exact ih _ _
      · exact ih _ _

omit [DecidableEq α] in
theorem struck_filter_not_insert {ι : Type*} (cells : Doc ι α) (diffs : List (Hunk α)) :
    struck cells (diffs.filter (·.1 ≠ .insert)) = struck cells diffs := by
  induction diffs generalizing cells with
  | nil => rfl
  | cons d ds ih =>
    obtain ⟨op, t⟩ := d
    cases op with
    | equal | delete | insert => simpa [struck] using ih _

/-- what the file deleted is still deleted -/
theorem struck_withoutPullInsertions {ι : Type*} (cells : Doc ι α) (preToFile preToLive liveToFile : List (Hunk α)) :
    struck cells (withoutPullInsertions preToFile preToLive liveToFile) = struck cells preToFile := by
  unfold withoutPullInsertions
  split_ifs
  · exact struck_filter_not_insert _ _
  · rfl
  · exact struck_stripHunks _ _ _

/-! ## What is inserted -/

variable {s rest : List α}

theorem indexOf_eq_some {i : ℕ} (h : indexOf s rest = some i) :
    rest = rest.take i ++ s ++ rest.drop (i + s.length) := by
  induction rest generalizing i with
  | nil =>
    unfold indexOf at h
    split_ifs at h with hs
    subst hs
    simp
  | cons a rest ih =>
    unfold indexOf at h
    split_ifs at h with hs
    · cases h
      obtain ⟨t, ht⟩ := isPrefixOf_iff_prefix.mp hs
      simp [← ht]
    · obtain ⟨j, hj, rfl⟩ := Option.map_eq_some_iff.mp h
      have hih := ih hj
      rw [Nat.add_right_comm, take_succ_cons, drop_succ_cons, cons_append, cons_append, ← hih]

/-- a text found in another is found by the search -/
theorem indexOf_isSome (h : s <:+: rest) : ∃ i, indexOf s rest = some i := by
  induction rest with
  | nil =>
    have hs : s = [] := eq_nil_of_infix_nil h
    exact ⟨0, by simp [indexOf, hs]⟩
  | cons a rest ih =>
    by_cases hp : s.isPrefixOf (a :: rest) = true
    · exact ⟨0, by simp [indexOf, hp]⟩
    · rcases infix_cons_iff.mp h with hprefix | hinfix
      · exact absurd ( isPrefixOf_iff_prefix.mpr hprefix) hp
      · obtain ⟨i, hi⟩ := ih hinfix
        exact ⟨i + 1, by simp [indexOf, hp, hi]⟩

omit [DecidableEq α] in
theorem cutOut_sublist (s rest : List α) (i : ℕ) : (cutOut s rest i).Sublist rest := by
  have hdrop : (rest.drop (i + s.length)).Sublist (rest.drop i) := by
    rw [← drop_drop]
    exact drop_sublist _ _
  have h := hdrop.append_left (rest.take i)
  rwa [take_append_drop] at h

theorem count_cutOut {i : ℕ} (h : indexOf s rest = some i) (a : α) :
    rest.count a = (cutOut s rest i).count a + s.count a := by
  conv_lhs => rw [indexOf_eq_some h]
  simp only [cutOut, count_append]
  omega

theorem stripHunk_sublist (pulled : List (List α)) (rest : List α) : (stripHunk pulled rest).1.Sublist rest := by
  induction pulled generalizing rest with
  | nil => exact Sublist.refl _
  | cons s pulled ih =>
    rw [stripHunk]
    split_ifs
    · exact Sublist.refl _
    · exact ih rest
    · cases indexOf s rest with
      | none => exact ih rest
      | some i => exact (ih _).trans (cutOut_sublist s rest i)

/-- what is taken out of a hunk is taken out of the pull's insertions -/
theorem count_stripHunk (pulled : List (List α)) (rest : List α) (a : α) :
    rest.count a + (stripHunk pulled rest).2.flatten.count a =
      (stripHunk pulled rest).1.count a + pulled.flatten.count a := by
  induction pulled generalizing rest with
  | nil => simp [stripHunk]
  | cons s pulled ih =>
    rw [stripHunk]
    split_ifs
    · rfl
    · have h := ih rest
      simp only [flatten_cons, count_append]
      omega
    · cases hi : indexOf s rest with
      | none =>
        have h := ih rest
        simp only [flatten_cons, count_append]
        omega
      | some i =>
        have h := ih (cutOut s rest i)
        have hcut := count_cutOut hi a
        simp only [flatten_cons, count_append, nil_append]
        omega

theorem count_stripHunks (pulled : List (List α)) (diffs : List (Hunk α)) (a : α) :
    (inserted diffs).count a ≤ (inserted (stripHunks pulled diffs)).count a + pulled.flatten.count a := by
  induction diffs generalizing pulled with
  | nil => simp [stripHunks]
  | cons d ds ih =>
    obtain ⟨op, t⟩ := d
    cases op with
    | equal | delete => simpa [stripHunks] using ih pulled
    | insert =>
      have hhunk := count_stripHunk pulled t a
      have hrest := ih (stripHunk pulled t).2
      rw [stripHunks]
      split_ifs with hempty
      · rw [hempty] at hhunk
        simp only [inserted_insert, count_append, count_nil] at hhunk ⊢
        omega
      · simp only [inserted_insert, count_append]
        omega

omit [DecidableEq α] in
theorem flatten_insertions (diffs : List (Hunk α)) : (insertions diffs).flatten = inserted diffs := by
  induction diffs with
  | nil => rfl
  | cons d ds ih =>
    obtain ⟨op, t⟩ := d
    cases op with
    | equal | delete => simpa [insertions] using ih
    | insert => simpa [insertions] using congrArg (t ++ ·) ih

omit [DecidableEq α] in
theorem ne_insert_of_hasInsert {diffs : List (Hunk α)} (h : hasInsert diffs = false) : ∀ d ∈ diffs, d.1 ≠ .insert := by
  intro d hd hop
  have htrue : hasInsert diffs = true := any_eq_true.mpr ⟨d, hd, decide_eq_true hop⟩
  rw [htrue] at h
  exact Bool.noConfusion h

/-- when the pulled text is not missing anything of the file's, nothing is inserted -/
theorem inserted_of_no_insert {preToFile preToLive liveToFile : List (Hunk α)}
    (h : hasInsert liveToFile = false) :
    inserted (withoutPullInsertions preToFile preToLive liveToFile) = [] := by
  unfold withoutPullInsertions
  rw [if_pos h, eq_nil_iff_forall_not_mem]
  intro a ha
  obtain ⟨t, ht, -⟩ := mem_inserted.mp ha
  simp at ht

/-- otherwise each insertion of the file is made as often as it was, less what the pull inserted -/
theorem count_inserted_le (preToFile preToLive : List (Hunk α)) {liveToFile : List (Hunk α)}
    (h : hasInsert liveToFile = true) (a : α) : (inserted preToFile).count a ≤
      (inserted (withoutPullInsertions preToFile preToLive liveToFile)).count a + (inserted preToLive).count a := by
  unfold withoutPullInsertions
  rw [if_neg (by rw [h]; decide)]
  split_ifs
  · omega
  · rw [← flatten_insertions preToLive]
    exact count_stripHunks _ _ a

/-- `s` is a pull insertion that a hunk with this text gives up: the whole of it, or long enough and somewhere in it -/
def Carries (data s : List α) : Prop := s ≠ [] ∧ (s = data ∨ minStrippedPullInsert ≤ s.length) ∧ s <:+: data

/-- an insertion the hunk does not carry is passed over -/
theorem stripHunk_skip {data : List α} {pulled : List (List α)} (hdata : data ≠ []) (h : ¬Carries data s) :
    stripHunk (s :: pulled) data = ((stripHunk pulled data).1, s :: (stripHunk pulled data).2) := by
  rw [stripHunk, if_neg hdata]
  split_ifs with hshort
  · rfl
  · rw [not_or, not_and_or, not_not, Nat.not_lt] at hshort
    cases hi : indexOf s data with
    | none => rfl
    | some i =>
      refine absurd ⟨hshort.1, hshort.2, ?_⟩ h
      exact ⟨data.take i, data.drop (i + s.length), (indexOf_eq_some hi).symm⟩

/-- **The first one is taken out.** Of the pull insertions not used up yet, the first that a hunk carries is cut out of it
once, before the further ones are looked for in what is left. -/
theorem stripHunk_first {before : List (List α)} (after : List (List α)) {data : List α}
    (hbefore : ∀ u ∈ before, ¬Carries data u) (hs : Carries data s) :
    ∃ l r, data = l ++ s ++ r ∧ (stripHunk (before ++ s :: after) data).1 = (stripHunk after (l ++ r)).1 := by
  have hdata : data ≠ [] := by
    rintro rfl
    exact hs.1 (eq_nil_of_infix_nil hs.2.2)
  induction before with
  | nil =>
    obtain ⟨i, hi⟩ := indexOf_isSome hs.2.2
    refine ⟨data.take i, data.drop (i + s.length), indexOf_eq_some hi, ?_⟩
    have hlong : ¬(s = [] ∨ s ≠ data ∧ s.length < minStrippedPullInsert) := by
      rw [not_or, not_and_or, not_not, Nat.not_lt]
      exact ⟨hs.1, hs.2.1⟩
    rw [nil_append, stripHunk, if_neg hdata, if_neg hlong, hi]
    rfl
  | cons u before ih =>
    obtain ⟨l, r, hsplit, hstrip⟩ := ih fun v hv => hbefore v (.tail _ hv)
    refine ⟨l, r, hsplit, ?_⟩
    rw [cons_append, stripHunk_skip hdata (hbefore u mem_cons_self)]
    exact hstrip

end Baalda.Bridge
