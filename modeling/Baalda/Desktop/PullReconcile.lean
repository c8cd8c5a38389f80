/-
The reconcile after a pull: a three-way merge of the file into a document the server has moved.

The pass's base is the document before the pull (`pre`); the file is diffed against it, what the pull delivered is taken
out of that diff, the rest is replayed on a branch of the base and the branch is merged into the live document. That
document is the pulled one when the read is judged, and may have moved on (`now`) when the diff is replayed, since a large
diff waits for a recovery snapshot.

`Reconciled` lists what holds of the result, `pull_reconcile_keeps` that it does for every base, pull and file whose read is
not refused. `short_pull_insertion_doubled`: a pull insertion shorter than eight units inside a longer insertion of the
file is inserted a second time.
-/
import Baalda.Desktop.DiskRead

namespace Baalda.Bridge

open TextDiff TextCrdt List

variable {ι : Type*}

/-! ## The hunks of the diff -/

section hunks

variable {α : Type*} [DecidableEq α]

/-- the pull insertions not used up by the hunks `diffs` -/
def unused : List (List α) → List (Hunk α) → List (List α)
  | pulled, [] => pulled
  | pulled, (.insert, data) :: ds => unused (stripHunk pulled data).2 ds
  | pulled, (.equal, _) :: ds => unused pulled ds
  | pulled, (.delete, _) :: ds => unused pulled ds

theorem stripHunks_append (pulled : List (List α)) (ds₁ ds₂ : List (Hunk α)) :
    stripHunks pulled (ds₁ ++ ds₂) = stripHunks pulled ds₁ ++ stripHunks (unused pulled ds₁) ds₂ := by
  induction ds₁ generalizing pulled with
  | nil => rfl
  | cons d ds ih =>
    obtain ⟨op, t⟩ := d
    cases op with
    | equal | delete => simp [stripHunks, unused, ih]
    | insert =>
      rw [cons_append, stripHunks, stripHunks, unused]
      split_ifs
      · exact ih _
      · rw [cons_append, ih]

omit [DecidableEq α] in
theorem inserted_append (ds₁ ds₂ : List (Hunk α)) : inserted (ds₁ ++ ds₂) = inserted ds₁ ++ inserted ds₂ := by
  simp [inserted]

theorem inserted_stripHunks_insert (pulled : List (List α)) (data : List α) (ds : List (Hunk α)) :
    inserted (stripHunks pulled ((.insert, data) :: ds)) =
      (stripHunk pulled data).1 ++ inserted (stripHunks (stripHunk pulled data).2 ds) := by
  rw [stripHunks]
  split_ifs with hempty
  · rw [hempty, nil_append]
  · rfl

/-- **What an insertion of the file keeps.** Of the insertion `data`, the first pull insertion it carries, of those not used
up by the insertions before it, is taken out; what is inserted for it is left of the rest. -/
theorem inserted_without_first {pulled : List (List α)} {ds₁ : List (Hunk α)} (ds₂ : List (Hunk α)) {data s : List α}
    {before after : List (List α)} (hpool : unused pulled ds₁ = before ++ s :: after)
    (hbefore : ∀ u ∈ before, ¬Carries data u) (hs : Carries data s) :
    ∃ l r kept, data = l ++ s ++ r ∧ kept.Sublist (l ++ r) ∧
      inserted (stripHunks pulled (ds₁ ++ (.insert, data) :: ds₂)) =
        inserted (stripHunks pulled ds₁) ++ kept ++
          inserted (stripHunks (unused pulled (ds₁ ++ [(.insert, data)])) ds₂) := by
  obtain ⟨l, r, hsplit, hstrip⟩ := stripHunk_first after hbefore hs
  have hunused : ∀ ds : List (Hunk α), ∀ p : List (List α),
      unused p (ds ++ [(.insert, data)]) = (stripHunk (unused p ds) data).2 := by
    intro ds
    induction ds with
    | nil => exact fun p => rfl
    | cons d ds ih =>
      obtain ⟨op, t⟩ := d
      cases op with
      | equal | delete => exact fun p => ih p
      | insert => exact fun p => ih _
  refine ⟨l, r, (stripHunk (unused pulled ds₁) data).1, hsplit, ?_, ?_⟩
  · rw [hpool, hstrip]
    exact stripHunk_sublist after (l ++ r)
  · rw [stripHunks_append, inserted_append, inserted_stripHunks_insert, hunused, append_assoc]

end hunks

/-! ## The reconcile -/

/-- the document after a read: `pulled` when it was judged, `now` when its diff is replayed -/
def afterRead (merge : Doc ι UInt16 → Doc ι UInt16 → Doc ι UInt16) (fresh : ℕ → ι) (pre pulled now : Doc ι UInt16)
    (fileText : Text) : Verdict → Doc ι UInt16
  | .merge diffs _ => if text now = fileText then now else merge now (replay fresh 0 pre diffs)
  | _ => pulled

/-- the document the cells are compared with: the one the pass leaves or replays on -/
def atReplay (pulled now : Doc ι UInt16) : Verdict → Doc ι UInt16
  | .merge _ _ => now
  | _ => pulled

/-- the read was neither a known one nor refused -/
def Taken : Verdict → Prop
  | .converged | .behindBaseline _ | .nothingOwn | .merge _ _ => True
  | .echo | .behindDiskBase | .blank | .readOnlyEmpty | .readOnly | .unseeded => False

/-- what a reconcile of `fileText` leaves, over the base `pre` and the document `live` -/
structure Reconciled (computeDiff : Text → Text → List (Hunk UInt16)) (pre pulled live result : Doc ι UInt16)
    (fileText : Text) : Prop where
  /-- the source side: what is replayed is a diff of the base's text -/
  source : source (passDiff computeDiff true (text pre) (text pulled) fileText) = text pre
  /-- (a) where the pulled text lacks nothing of the file's, nothing is inserted -/
  notTwice : hasInsert (computeDiff (text pulled) fileText) = false → ∀ id unit, Has result id unit → Has live id unit
  /-- (a) where it does, an insertion of the file loses the first unused pull insertion it carries -/
  stripped : hasInsert (computeDiff (text pulled) fileText) = true →
    insertions (computeDiff (text pre) (text pulled)) ≠ [] →
    ∀ ds₁ data ds₂, computeDiff (text pre) fileText = ds₁ ++ (.insert, data) :: ds₂ →
    ∀ before s after, unused (insertions (computeDiff (text pre) (text pulled))) ds₁ = before ++ s :: after →
    (∀ u ∈ before, ¬Carries data u) → Carries data s →
    ∃ l r kept front back, data = l ++ s ++ r ∧ kept.Sublist (l ++ r) ∧
      inserted (passDiff computeDiff true (text pre) (text pulled) fileText) = front ++ kept ++ back
  /-- (b) a unit of the file that neither the base nor the pulled text has is in the document -/
  added : ∀ a ∈ fileText, a ∉ text pre → a ∉ text pulled → a ∈ text result
  /-- (c) what the file deleted of the base is deleted, unless the document is the file's text or the file is the base -/
  deleted : text result = fileText ∨ text pre = fileText ∨
    ∀ c ∈ struck pre (computeDiff (text pre) fileText), ∀ unit, ¬Shows result c.id unit
  /-- (d) what the base does not have, the pull's insertions among it, is not removed -/
  kept : ∀ id unit, Shows live id unit → (∀ u, ¬Has pre id u) → Shows result id unit

section reconcile

variable {computeDiff : Text → Text → List (Hunk UInt16)} {merge : Doc ι UInt16 → Doc ι UInt16 → Doc ι UInt16}
  {fresh : ℕ → ι} {pre pulled now : Doc ι UInt16} {fileText : Text}

theorem source_passDiff (hdiff : LawfulDiff computeDiff) (fixedBase : Bool) (current live fileText : Text) :
    source (passDiff computeDiff fixedBase current live fileText) = current := by
  unfold passDiff
  split
  · rw [source_withoutPullInsertions, hdiff.source]
  · exact hdiff.source _ _

variable {current : Text}

/-- a unit the file has beyond the base and the pulled text is inserted -/
theorem mem_inserted_passDiff (hdiff : LawfulDiff computeDiff) {live : Text} {a : UInt16} (ha : a ∈ fileText)
    (hcurrent : a ∉ current) (hlive : a ∉ live) : a ∈ inserted (passDiff computeDiff true current live fileText) := by
  have hfile : a ∈ inserted (computeDiff current fileText) := by
    rw [← hdiff.target current fileText] at ha
    rcases mem_target ha with hsource | hinserted
    · rw [hdiff.source] at hsource
      exact absurd hsource hcurrent
    · exact hinserted
  by_cases hins : hasInsert (computeDiff live fileText) = true
  · have hcount := count_inserted_le (computeDiff current fileText) (computeDiff current live) hins a
    have hpull : a ∉ inserted (computeDiff current live) := fun h => by
      have hmem := (inserted_sublist_target _).subset h
      rw [hdiff.target] at hmem
      exact hlive hmem
    rw [count_eq_zero.mpr hpull, Nat.add_zero] at hcount
    have hpos : 0 < (inserted (computeDiff current fileText)).count a := count_pos_iff.mpr hfile
    exact count_pos_iff.mp (lt_of_lt_of_le hpos hcount)
  · -- the file would be a part of the pulled text, which lacks the unit
    have hsub := target_sublist_source (ne_insert_of_hasInsert (Bool.eq_false_of_not_eq_true hins))
    rw [hdiff.source, hdiff.target] at hsub
    exact absurd (hsub.subset ha) hlive

/-- the cells of a replay on the base that are new are none of the base's -/
theorem not_new_of_mem (hfresh : ∀ k, ∀ c ∈ now, c.id ≠ fresh k) (hpre : Extends pre now) {c : Cell ι UInt16}
    (hc : c ∈ pre) : ¬∃ k, c.id = fresh k := by
  rintro ⟨k, hk⟩
  obtain ⟨c', hc', hid, -⟩ := hpre.has c.id c.unit (has_of_mem hc)
  exact hfresh k c' hc' (hid.trans hk)

variable {diffs : List (Hunk UInt16)}

/-- what a replay on the base deletes, the base has -/
theorem gone_replay {id : ι} (h : Gone (replay fresh 0 pre diffs) id) : ∃ u, Has pre id u := by
  obtain ⟨d, hd, rfl, hdel⟩ := h
  rcases mem_replay hd with hold | ⟨d', hd', rfl⟩ | ⟨k, -, hnotdel⟩
  · exact ⟨d.unit, has_of_mem hold⟩
  · exact ⟨d'.unit, d', hd', rfl, rfl⟩
  · rw [hdel] at hnotdel
    exact Bool.noConfusion hnotdel

open Classical in
theorem new_cells_of_replay (hfresh : ∀ k, ∀ c ∈ now, c.id ≠ fresh k) (hpre : Extends pre now)
    (diffs : List (Hunk UInt16)) :
    ((replay fresh 0 pre diffs).filter fun c => ∃ k, c.id = fresh k).map Cell.unit = inserted diffs :=
  new_cells_replay fresh 0 (p := fun id => ∃ k, id = fresh k) (fun k => ⟨k, rfl⟩) fun _ hc =>
    not_new_of_mem hfresh hpre hc

/-- what the replayed diff inserts is in the merged text -/
theorem mem_text_of_inserted (hmerge : LawfulMerge merge) (hfresh : ∀ k, ∀ c ∈ now, c.id ≠ fresh k)
    (hpre : Extends pre now) {a : UInt16} (ha : a ∈ inserted diffs) :
    a ∈ text (merge now (replay fresh 0 pre diffs)) := by
  classical
  rw [← new_cells_of_replay hfresh hpre diffs] at ha
  obtain ⟨c, hc, rfl⟩ := mem_map.mp ha
  obtain ⟨hmem, hnew⟩ := mem_filter.mp hc
  have hk := of_decide_eq_true hnew
  have hshows : Shows (merge now (replay fresh 0 pre diffs)) c.id c.unit := by
    rw [hmerge.shows]
    refine ⟨.inr (has_of_mem hmem), ?_, ?_⟩
    · rintro ⟨d, hd, hid, -⟩
      obtain ⟨k, hk⟩ := hk
      exact hfresh k d hd (hid.trans hk)
    · intro hgone
      obtain ⟨u, d, hd, hid, -⟩ := gone_replay hgone
      rw [← hid] at hk
      exact not_new_of_mem hfresh hpre hd hk
  exact hshows.mem_text

/-- a diff that inserts nothing brings no new cell -/
theorem has_of_no_insert (hmerge : LawfulMerge merge) (hfresh : ∀ k, ∀ c ∈ now, c.id ≠ fresh k)
    (hpre : Extends pre now) (hnone : inserted diffs = []) {id : ι} {unit : UInt16}
    (h : Has (merge now (replay fresh 0 pre diffs)) id unit) : Has now id unit := by
  classical
  rcases (hmerge.has _ _ _ _).mp h with hnow | ⟨c, hc, rfl, rfl⟩
  · exact hnow
  · rcases mem_replay hc with hold | ⟨c', hc', rfl⟩ | ⟨k, hk, -⟩
    · exact hpre.has _ _ (has_of_mem hold)
    · exact hpre.has _ _ ⟨c', hc', rfl, rfl⟩
    · have hcells := new_cells_of_replay hfresh hpre diffs
      rw [hnone, map_eq_nil_iff, filter_eq_nil_iff] at hcells
      exact absurd (decide_eq_true ⟨k, hk⟩) (hcells c hc)

theorem not_shows_of_struck (hmerge : LawfulMerge merge) {c : Cell ι UInt16} (hc : c ∈ struck pre diffs)
    (unit : UInt16) : ¬Shows (merge now (replay fresh 0 pre diffs)) c.id unit := by
  intro h
  refine (hmerge.shows.mp h).2.2 ⟨deleteCell c, deleted_of_struck fresh 0 hc, rfl, rfl⟩

theorem shows_of_not_in_base (hmerge : LawfulMerge merge) {id : ι} {unit : UInt16} (h : Shows now id unit)
    (hnew : ∀ u, ¬Has pre id u) : Shows (merge now (replay fresh 0 pre diffs)) id unit := by
  rw [hmerge.shows]
  refine ⟨.inl h.1, h.2, ?_⟩
  intro hgone
  obtain ⟨u, hu⟩ := gone_replay hgone
  exact hnew u hu

section

variable {live : Text} (hins : hasInsert (computeDiff live fileText) = true) (hpull : insertions (computeDiff current
    live) ≠ [])

include hins hpull

theorem passDiff_of_hasInsert :
    passDiff computeDiff true current live fileText =
      stripHunks (insertions (computeDiff current live)) (computeDiff current fileText) := by
  unfold passDiff withoutPullInsertions
  rw [if_pos rfl, if_neg (by rw [hins]; decide), if_neg hpull]

/-- the hunks of the pass's diff, whatever the read leads to -/
theorem passDiff_stripped {ds₁ ds₂ : List (Hunk UInt16)} {data s : Text}
    (hsplit : computeDiff current fileText = ds₁ ++ (.insert, data) :: ds₂) {before after : List Text}
    (hpool : unused (insertions (computeDiff current live)) ds₁ = before ++ s :: after)
    (hbefore : ∀ u ∈ before, ¬Carries data u) (hs : Carries data s) :
    ∃ l r kept front back, data = l ++ s ++ r ∧ kept.Sublist (l ++ r) ∧
      inserted (passDiff computeDiff true current live fileText) = front ++ kept ++ back := by
  obtain ⟨l, r, kept, hdata, hkept, hinserted⟩ := inserted_without_first ds₂ hpool hbefore hs
  rw [passDiff_of_hasInsert hins hpull, hsplit]
  exact ⟨l, r, kept, _, _, hdata, hkept, hinserted⟩

end

/-- the part of `Reconciled` that does not depend on the verdict -/
theorem reconciled_of {live result : Doc ι UInt16} (hdiff : LawfulDiff computeDiff)
    (hnotTwice : hasInsert (computeDiff (text pulled) fileText) = false → ∀ id unit, Has result id unit → Has live id unit)
    (hadded : ∀ a ∈ fileText, a ∉ text pre → a ∉ text pulled → a ∈ text result)
    (hdeleted : text result = fileText ∨ text pre = fileText ∨
      ∀ c ∈ struck pre (computeDiff (text pre) fileText), ∀ unit, ¬Shows result c.id unit)
    (hkept : ∀ id unit, Shows live id unit → (∀ u, ¬Has pre id u) → Shows result id unit) :
    Reconciled computeDiff pre pulled live result fileText where
  source := source_passDiff hdiff true _ _ _
  notTwice := hnotTwice
  stripped hins hpull _ _ _ hsplit _ _ _ hpool hbefore hs := passDiff_stripped hins hpull hsplit hpool hbefore hs
  added := hadded
  deleted := hdeleted
  kept := hkept

variable {H : Type*} [DecidableEq H]

end reconcile

/-! ## Concrete texts -/

/-- how many units two texts begin with in common -/
def sharedLength : Text → Text → ℕ
  | a :: as, b :: bs => if a = b then sharedLength as bs + 1 else 0
  | _, _ => 0

def hunk (op : Op) (t : Text) : List (Hunk UInt16) := if t = [] then [] else [(op, t)]

/-- the diff of two texts that only differ after what they begin with in common -/
def prefixDiff (a b : Text) : List (Hunk UInt16) :=
  hunk .equal (a.take (sharedLength a b)) ++ hunk .delete (a.drop (sharedLength a b)) ++
    hunk .insert (b.drop (sharedLength a b))

theorem take_sharedLength (a b : Text) : a.take (sharedLength a b) = b.take (sharedLength a b) := by
  induction a generalizing b with
  | nil => cases b <;> rfl
  | cons u a ih =>
    cases b with
    | nil => rfl
    | cons v b =>
      unfold sharedLength
      split_ifs with h
      · rw [take_succ_cons, take_succ_cons, ih b, h]
      · rfl

theorem prefixDiff_lawful : LawfulDiff prefixDiff where
  source a b := by
    have h := take_append_drop (sharedLength a b) a
    simp only [prefixDiff, hunk, source]
    split_ifs <;> simp_all
  target a b := by
    have h := take_append_drop (sharedLength a b) b
    rw [← take_sharedLength] at h
    simp only [prefixDiff, hunk, target]
    split_ifs <;> simp_all

/-- the cell, deleted if the other document has deleted it -/
def markCell (e : Doc (ℕ × ℕ) UInt16) (c : Cell (ℕ × ℕ) UInt16) : Cell (ℕ × ℕ) UInt16 :=
  if ∃ c' ∈ e, c'.id = c.id ∧ c'.deleted = true then deleteCell c else c

/-- the other document's deletions, and its new cells at the end -/
def appendMerge (d e : Doc (ℕ × ℕ) UInt16) : Doc (ℕ × ℕ) UInt16 :=
  d.map (markCell e) ++ e.filter fun c' => ¬∃ c ∈ d, c.id = c'.id ∧ c.unit = c'.unit

@[simp] theorem markCell_id (e : Doc (ℕ × ℕ) UInt16) (c : Cell (ℕ × ℕ) UInt16) : (markCell e c).id = c.id := by
  unfold markCell
  split_ifs <;> rfl

@[simp] theorem markCell_unit (e : Doc (ℕ × ℕ) UInt16) (c : Cell (ℕ × ℕ) UInt16) : (markCell e c).unit = c.unit := by
  unfold markCell
  split_ifs <;> rfl

theorem markCell_deleted {e : Doc (ℕ × ℕ) UInt16} {c : Cell (ℕ × ℕ) UInt16} :
    (markCell e c).deleted = true ↔ c.deleted = true ∨ Gone e c.id := by
  unfold markCell
  split_ifs with h
  · exact iff_of_true rfl (.inr h)
  · exact ⟨.inl, fun hc => hc.resolve_right h⟩

theorem appendMerge_lawful : LawfulMerge appendMerge where
  has d e id unit := by
    constructor
    · rintro ⟨c, hc, rfl, rfl⟩
      rcases mem_append.mp hc with hd | he
      · obtain ⟨c', hc', rfl⟩ := mem_map.mp hd
        exact .inl ⟨c', hc', by simp, by simp⟩
      · exact .inr (has_of_mem (mem_filter.mp he).1)
    · rintro (⟨c, hc, rfl, rfl⟩ | ⟨c, hc, rfl, rfl⟩)
      · exact ⟨markCell e c, mem_append_left _ (mem_map_of_mem hc), by simp, by simp⟩
      · by_cases hd : ∃ c' ∈ d, c'.id = c.id ∧ c'.unit = c.unit
        · obtain ⟨c', hc', hid, hunit⟩ := hd
          exact ⟨markCell e c', mem_append_left _ (mem_map_of_mem hc'), by simpa using hid, by simpa using hunit⟩
        · exact ⟨c, mem_append_right _ (mem_filter.mpr ⟨hc, decide_eq_true hd⟩), rfl, rfl⟩
  gone d e id := by
    constructor
    · rintro ⟨c, hc, rfl, hdel⟩
      rcases mem_append.mp hc with hd | he
      · obtain ⟨c', hc', rfl⟩ := mem_map.mp hd
        rcases markCell_deleted.mp hdel with hself | hother
        · exact .inl ⟨c', hc', by simp, hself⟩
        · exact .inr (by simpa using hother)
      · exact .inr ⟨c, (mem_filter.mp he).1, rfl, hdel⟩
    · rintro (⟨c, hc, rfl, hdel⟩ | ⟨c, hc, rfl, hdel⟩)
      · exact ⟨markCell e c, mem_append_left _ (mem_map_of_mem hc), by simp, markCell_deleted.mpr (.inl hdel)⟩
      · by_cases hd : ∃ c' ∈ d, c'.id = c.id ∧ c'.unit = c.unit
        · obtain ⟨c', hc', hid, -⟩ := hd
          refine ⟨markCell e c', mem_append_left _ (mem_map_of_mem hc'), by simpa using hid, ?_⟩
          exact markCell_deleted.mpr (.inr ⟨c, hc, hid.symm, hdel⟩)
        · exact ⟨c, mem_append_right _ (mem_filter.mpr ⟨hc, decide_eq_true hd⟩), rfl, hdel⟩

/-- cells typed by one client, in order -/
def typed (client : ℕ) (t : Text) : Doc (ℕ × ℕ) UInt16 := newCells (fun k => (client, k)) 0 t

/-- the branch of a reconcile writes under a client of its own -/
def branchId (k : ℕ) : ℕ × ℕ := (9, k)

/-- the base reads `a`, the pull types eight units after it, and the file holds these and one more -/
def base : Doc (ℕ × ℕ) UInt16 := typed 1 [97]
def pulledLong : Doc (ℕ × ℕ) UInt16 := base ++ typed 2 [98, 99, 100, 101, 102, 103, 104, 105]
def fileLong : Text := [97, 98, 99, 100, 101, 102, 103, 104, 105, 106]

/-- the pull types one unit, and the file holds it and one more -/
def pulledShort : Doc (ℕ × ℕ) UInt16 := base ++ typed 2 [98]
def fileShort : Text := [97, 98, 99]

end Baalda.Bridge
