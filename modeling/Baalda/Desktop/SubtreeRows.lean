/-
The operations of the local index that take a path for a file or a folder (`src-tauri/src/index.rs`): `remove_notes` and
`remove_files` delete what is at the paths or below them, `rename_note` gives what is at a path or below it its new path.

What is below a path is taken with `LIKE (path || '/') || '%'`, in which `_` and `%` of the path are wildcards and ASCII
letters match in either case, and the rest of a path is cut off by the byte length of the prefix.

`subtree_exact`: the removals delete exactly the subtrees iff `LIKE` takes no other row, and a rename moves exactly the
subtree, without an error or a panic, iff what else `LIKE` takes is cut to its own path and nothing is in the way.
-/
import Baalda.Desktop.IndexTruth

namespace Baalda.NoteIndex

open List Function

variable {D Sha F : Type*} [DecidableEq D]

/-! ## Removals -/

/-- `path = ?1 OR path LIKE ?2 || '%'` -/
def Taken (rel path : Path) : Prop := path = rel ∨ likeBelow rel path = true

instance (rel path : Path) : Decidable (Taken rel path) := inferInstanceAs (Decidable (_ ∨ _))

variable {path : Path}

theorem taken_of_under {rel : Path} (h : Under rel path) : Taken rel path :=
  h.imp_right likeBelow_of_below

/-- a row of `files` and its row of `files_fts` -/
structure FileRow (D : Type*) where
  id : D
  path : Path
  deriving DecidableEq

/-- `remove_files` -/
def removeFiles : List Path → List (FileRow D) → List (FileRow D)
  | [], files => files
  | path :: paths, files =>
    removeFiles paths (files.filter fun r => r.id ∉ (files.filter fun r => Taken path r.path).map FileRow.id)

variable {R : Type*}

/-- rows that are deleted by their ids -/
theorem filter_ids {id : R → D} {rows : List R} (hids : (rows.map id).Nodup) (P : R → Prop) [DecidablePred P] :
    rows.filter (fun r => id r ∉ (rows.filter fun r => P r).map id) = rows.filter fun r => ¬ P r := by
  apply filter_congr
  intro r hr
  rw [decide_eq_decide, not_iff_not, mem_map]
  constructor
  · intro h
    obtain ⟨x, hx, hxid⟩ := h
    obtain ⟨hmem, hP⟩ := mem_filter.mp hx
    rw [← inj_on_of_nodup_map hids hmem hr hxid]
    exact of_decide_eq_true hP
  · intro h
    exact ⟨r, mem_filter.mpr ⟨hr, decide_eq_true h⟩, rfl⟩

/-- rows that each path in turn filters -/
theorem filter_cons (path : R → Path) (rows : List R) (p : Path) (ps : List Path) (T : Path → Path → Prop)
    [∀ p q, Decidable (T p q)] :
    (rows.filter fun r => ¬ T p (path r)).filter (fun r => ∀ p ∈ ps, ¬ T p (path r)) =
      rows.filter fun r => ∀ q ∈ p :: ps, ¬ T q (path r) := by
  rw [filter_filter]
  apply filter_congr
  intro r _
  rw [← Bool.decide_and, decide_eq_decide, forall_mem_cons]
  exact and_comm

theorem removeRows_notes {s : Index D Sha F} (hids : (s.notes.map NoteRow.id).Nodup) (paths : List Path) :
    (Index.removeRows paths s).1.notes = s.notes.filter fun r => ∀ p ∈ paths, ¬ Taken p r.path := by
  induction paths generalizing s with
  | nil => simp [Index.removeRows]
  | cons path paths ih =>
    have hdeleted : (s.deleteNotes (s.victims path)).notes = s.notes.filter fun r => ¬ Taken path r.path :=
      filter_ids hids fun r => Taken path r.path
    have hids' : ((s.deleteNotes (s.victims path)).notes.map NoteRow.id).Nodup := by
      exact hids.sublist (filter_sublist.map _)
    rw [Index.removeRows]
    rw [ih hids', hdeleted]
    exact filter_cons NoteRow.path s.notes path paths Taken

theorem removeFiles_eq {files : List (FileRow D)} (hids : (files.map FileRow.id).Nodup) (paths : List Path) :
    removeFiles paths files = files.filter fun r => ∀ p ∈ paths, ¬ Taken p r.path := by
  induction paths generalizing files with
  | nil => simp [removeFiles]
  | cons path paths ih =>
    have hdeleted := filter_ids hids fun r : FileRow D => Taken path r.path
    rw [removeFiles, hdeleted, ih (hids.sublist (filter_sublist.map _))]
    exact filter_cons FileRow.path files path paths Taken

omit [DecidableEq D] in
/-- the rows that stay are those outside the subtrees iff no other row was taken -/
theorem filter_exact (path : R → Path) (rows : List R) (paths : List Path) :
    (rows.filter (fun r => ∀ p ∈ paths, ¬ Taken p (path r)) = rows.filter fun r => ∀ p ∈ paths, ¬ Under p (path r)) ↔
      ∀ r ∈ rows, ∀ p ∈ paths, likeBelow p (path r) = true → ∃ q ∈ paths, Under q (path r) := by
  constructor
  · intro h r hr p hp hlike
    by_contra hnone
    push Not at hnone
    have hstays : r ∈ rows.filter fun r => ∀ p ∈ paths, ¬ Under p (path r) :=
      mem_filter.mpr ⟨hr, decide_eq_true hnone⟩
    rw [← h] at hstays
    exact of_decide_eq_true (mem_filter.mp hstays).2 p hp (.inr hlike)
  · intro h
    apply filter_congr
    intro r hr
    rw [decide_eq_decide]
    constructor
    · exact fun hnone p hp hunder => hnone p hp (taken_of_under hunder)
    · intro hnone p hp htaken
      rcases htaken with rfl | hlike
      · exact hnone _ hp (.inl rfl)
      · obtain ⟨q, hq, hunder⟩ := h r hr p hp hlike
        exact hnone q hq hunder

/-! ## Renames -/

/-- where `rename_note` takes a row that it took for a descendant; `none` panics -/
def cut (old new path : Path) : Option Path :=
  (Index.sliceFrom (utf8Len (old ++ ['/'])) path).map fun suffix => new ++ '/' :: suffix

theorem cut_of_below {old new : Path} (h : Below old path) : cut old new path = some (move old new path) := by
  rw [cut, sliceFrom_below h, Option.map_some, move_of_below h]

theorem below_of_cut {old new target : Path} (h : cut old new path = some target) : Below new target := by
  obtain ⟨suffix, _, rfl⟩ := Option.map_eq_some_iff.mp h
  exact below_append new suffix

/-- what else `LIKE` takes keeps its path, and each row finds its new path free when it is its turn -/
structure Movable (s : Index D Sha F) (old new : Path) : Prop where
  takes : ∀ r ∈ s.notes, likeBelow old r.path = true → ¬ Under old r.path → cut old new r.path = some r.path
  exact : ∀ r ∈ s.notes, r.path = old → likeBelow old new = false ∧ ∀ x ∈ s.notes, x.path = new → x.path = old
  free : ∀ r ∈ s.notes, Below old r.path → ∀ x ∈ s.notes, ¬ Under old x.path → x.path ≠ move old new r.path
  order : (s.notes.filter fun r => Below old r.path).Pairwise fun r x => x.path ≠ move old new r.path

theorem setPath_eq_some {s t : Index D Sha F} {disk : Disk F} {id : D} (h : s.setPath disk id path = some t) :
    (∀ r ∈ s.notes, r.path = path → r.id = id) ∧ t.links = s.links ∧
      t.notes = s.notes.map fun r => if r.id = id then { r with path := path } else r := by
  unfold Index.setPath at h
  split at h
  · cases h
  next hfree =>
    cases h
    refine ⟨fun r hr hpath => ?_, rfl, rfl⟩
    by_contra hid
    exact hfree (any_eq_true.mpr ⟨r, hr, decide_eq_true ⟨hpath, hid⟩⟩)

theorem renameChild_eq {disk : Disk F} {old new : Path} (s : Index D Sha F) (r : NoteRow D Sha) :
    Index.renameChild disk old new s r = (cut old new r.path).bind fun target => s.setPath disk r.id target := by
  unfold Index.renameChild cut
  cases Index.sliceFrom (utf8Len (old ++ ['/'])) r.path <;> rfl

section Children

variable {disk : Disk F} {old new : Path}

/-- **The loop, when it ends.** Each row it took has been cut to a path of its own, which no row behind it had. -/
theorem children_of_some {rs : List (NoteRow D Sha)} {v t : Index D Sha F}
    (h : rs.foldlM (Index.renameChild disk old new) v = some t) (hnodup : (rs.map NoteRow.id).Nodup)
    (hmem : ∀ r ∈ rs, r ∈ v.notes) (hids : (v.notes.map NoteRow.id).Nodup) (hpaths : (v.notes.map NoteRow.path).Nodup) :
    (t.notes.map NoteRow.path).Nodup ∧ (∀ r ∈ v.notes, r.id ∉ rs.map NoteRow.id → r ∈ t.notes) ∧
      (∀ r ∈ rs, ∃ target, cut old new r.path = some target ∧ { r with path := target } ∈ t.notes) ∧
      rs.Pairwise fun r x => ∀ target, cut old new r.path = some target → x.path ≠ target := by
  induction rs generalizing v with
  | nil =>
    cases h
    exact ⟨hpaths, fun r hr _ => hr, by simp, Pairwise.nil⟩
  | cons r rs ih =>
    obtain ⟨w, hw, hrest⟩ := Option.bind_eq_some_iff.mp h
    rw [renameChild_eq] at hw
    obtain ⟨target, hcut, hset⟩ := Option.bind_eq_some_iff.mp hw
    obtain ⟨hfree, -, hnotes⟩ := setPath_eq_some hset
    obtain ⟨hnot, hnodup'⟩ := nodup_cons.mp hnodup
    have hr := hmem r mem_cons_self
    have hkeep : ∀ x ∈ v.notes, x.id ≠ r.id → x ∈ w.notes := by
      intro x hx hne
      rw [hnotes]
      exact mem_map.mpr ⟨x, hx, if_neg hne⟩
    have hself : { r with path := target } ∈ w.notes := by
      rw [hnotes]
      exact mem_map.mpr ⟨r, hr, if_pos rfl⟩
    have hwids : (w.notes.map NoteRow.id).Nodup := by
      have hsame : w.notes.map NoteRow.id = v.notes.map NoteRow.id := by
        rw [hnotes, map_map]
        apply map_congr_left
        intro x _
        simp only [comp_apply]
        split <;> rfl
      rw [hsame]
      exact hids
    have hwpaths : (w.notes.map NoteRow.path).Nodup := by
      rw [hnotes, map_map]
      refine Nodup.map_on ?_ hids.of_map
      intro x hx y hy hxy
      simp only [comp_apply] at hxy
      by_cases hxr : x.id = r.id
      · by_cases hyr : y.id = r.id
        · exact inj_on_of_nodup_map hids hx hy (hxr.trans hyr.symm)
        · rw [if_pos hxr, if_neg hyr] at hxy
          exact absurd (hfree y hy hxy.symm) hyr
      · by_cases hyr : y.id = r.id
        · rw [if_neg hxr, if_pos hyr] at hxy
          exact absurd (hfree x hx hxy) hxr
        · rw [if_neg hxr, if_neg hyr] at hxy
          exact inj_on_of_nodup_map hpaths hx hy hxy
    have hapart : ∀ x ∈ rs, x.id ≠ r.id := fun x hx hid => hnot (hid ▸ mem_map_of_mem hx)
    have hmem' : ∀ x ∈ rs, x ∈ w.notes := fun x hx => hkeep x (hmem x (mem_cons_of_mem r hx)) (hapart x hx)
    obtain ⟨htpaths, htkeep, htcut, htorder⟩ := ih hrest hnodup' hmem' hwids hwpaths
    refine ⟨htpaths, ?_, ?_, ?_⟩
    · intro x hx hxid
      rw [map_cons, mem_cons, not_or] at hxid
      exact htkeep x (hkeep x hx hxid.1) hxid.2
    · intro x hx
      rcases mem_cons.mp hx with rfl | hx
      · exact ⟨target, hcut, htkeep _ hself hnot⟩
      · exact htcut x hx
    · refine pairwise_cons.mpr ⟨fun x hx target' hcut' hpath => ?_, htorder⟩
      cases hcut.symm.trans hcut'
      exact hapart x hx (hfree x (hmem x (mem_cons_of_mem r hx)) hpath)

/-- **The loop ends** when each row goes where a rename takes it and finds it free: those before it stand at their new
paths, those behind it where they were. -/
theorem children_some {u : Index D Sha F} (hids : (u.notes.map NoteRow.id).Nodup) {rs : List (NoteRow D Sha)}
    {done : List D} {v : Index D Sha F} (hmem : ∀ r ∈ rs, r ∈ u.notes ∧ r.id ∉ done) (hnodup : (rs.map NoteRow.id).Nodup)
    (hcut : ∀ r ∈ rs, cut old new r.path = some (move old new r.path))
    (hdone : ∀ r ∈ rs, ∀ x ∈ u.notes, x.id ∈ done → move old new x.path ≠ move old new r.path)
    (hapart : rs.Pairwise fun r x => move old new r.path ≠ move old new x.path)
    (hahead : rs.Pairwise fun r x => x.path ≠ move old new r.path)
    (hstay : ∀ r ∈ rs, ∀ x ∈ u.notes, x.id ∉ done → x.id ∉ rs.map NoteRow.id → x.path ≠ move old new r.path)
    (hv : v.notes = u.notes.map fun r => if r.id ∈ done then moveRow old new r else r) :
    ∃ t, rs.foldlM (Index.renameChild disk old new) v = some t ∧
      t.notes = u.notes.map fun r => if r.id ∈ done ++ rs.map NoteRow.id then moveRow old new r else r := by
  induction rs generalizing done v with
  | nil => exact ⟨v, rfl, by simpa using hv⟩
  | cons r rs ih =>
    obtain ⟨hr, hrdone⟩ := hmem r mem_cons_self
    obtain ⟨hrnot, hnodup'⟩ := nodup_cons.mp hnodup
    obtain ⟨hrapart, hapart'⟩ := pairwise_cons.mp hapart
    obtain ⟨hrahead, hahead'⟩ := pairwise_cons.mp hahead
    have hno : ∀ x ∈ v.notes, x.path = move old new r.path → x.id = r.id := by
      intro x hx hxpath
      rw [hv] at hx
      obtain ⟨y, hy, rfl⟩ := mem_map.mp hx
      by_cases hydone : y.id ∈ done
      · rw [if_pos hydone] at hxpath
        exact absurd hxpath (hdone r mem_cons_self y hy hydone)
      · rw [if_neg hydone] at hxpath ⊢
        by_contra hne
        by_cases hyrs : y.id ∈ rs.map NoteRow.id
        · obtain ⟨z, hz, hzid⟩ := mem_map.mp hyrs
          obtain rfl := inj_on_of_nodup_map hids (hmem z (mem_cons_of_mem r hz)).1 hy hzid
          exact hrahead z hz hxpath
        · refine hstay r mem_cons_self y hy hydone ?_ hxpath
          rw [map_cons, mem_cons, not_or]
          exact ⟨hne, hyrs⟩
    obtain ⟨w, hw, -, hwnotes⟩ := setPath_notes disk hno
    have hstep : Index.renameChild disk old new v r = some w := by
      rw [renameChild_eq, hcut r mem_cons_self, Option.bind_some]
      exact hw
    have hwnotes' : w.notes = u.notes.map fun x => if x.id ∈ done ++ [r.id] then moveRow old new x else x := by
      rw [hwnotes, hv, map_map]
      apply map_congr_left
      intro x hx
      simp only [comp_apply, mem_append, mem_singleton]
      by_cases hxid : x.id = r.id
      · have hxr : x = r := inj_on_of_nodup_map hids hx hr hxid
        rw [hxr, if_neg hrdone, if_pos rfl, if_pos (.inr rfl)]
        rfl
      · by_cases hxdone : x.id ∈ done
        · have hkeep : (moveRow old new x).id ≠ r.id := hxid
          rw [if_pos hxdone, if_neg hkeep, if_pos (.inl hxdone)]
        · rw [if_neg hxdone, if_neg hxid, if_neg (by simp [hxdone, hxid])]
    have hmem' : ∀ x ∈ rs, x ∈ u.notes ∧ x.id ∉ done ++ [r.id] := by
      intro x hx
      obtain ⟨hxu, hxdone⟩ := hmem x (mem_cons_of_mem r hx)
      refine ⟨hxu, ?_⟩
      rw [mem_append, mem_singleton, not_or]
      exact ⟨hxdone, fun hid => hrnot (hid ▸ mem_map_of_mem hx)⟩
    have hdone' : ∀ x ∈ rs, ∀ y ∈ u.notes, y.id ∈ done ++ [r.id] → move old new y.path ≠ move old new x.path := by
      intro x hx y hy hyid
      rcases mem_append.mp hyid with hydone | hyr
      · exact hdone x (mem_cons_of_mem r hx) y hy hydone
      · rw [inj_on_of_nodup_map hids hy hr (mem_singleton.mp hyr)]
        exact hrapart x hx
    have hstay' : ∀ x ∈ rs, ∀ y ∈ u.notes, y.id ∉ done ++ [r.id] → y.id ∉ rs.map NoteRow.id →
        y.path ≠ move old new x.path := by
      intro x hx y hy hydone hyrs
      rw [mem_append, mem_singleton, not_or] at hydone
      refine hstay x (mem_cons_of_mem r hx) y hy hydone.1 ?_
      rw [map_cons, mem_cons, not_or]
      exact ⟨hydone.2, hyrs⟩
    obtain ⟨t, ht, htnotes⟩ := ih hmem' hnodup' (fun x hx => hcut x (mem_cons_of_mem r hx)) hdone' hapart' hahead'
      hstay' hwnotes'
    refine ⟨t, ?_, by simpa using htnotes⟩
    rw [foldlM_cons, hstep]
    exact ht

end Children

/-- the row at the path itself -/
def exactRow (old new : Path) (r : NoteRow D Sha) : NoteRow D Sha := if r.path = old then { r with path := new } else r

@[simp] theorem exactRow_id (old new : Path) (r : NoteRow D Sha) : (exactRow old new r).id = r.id := by
  unfold exactRow
  split <;> rfl

/-- nothing but the row at the path stands where it goes -/
def ExactFree (s : Index D Sha F) (old new : Path) : Prop :=
  ∀ r ∈ s.notes, r.path = old → ∀ x ∈ s.notes, x.path = new → x.path = old

section Rename

variable {s : Index D Sha F} {disk : Disk F} {old new : Path}

theorem idForPath_mem (hpaths : (s.notes.map NoteRow.path).Nodup) {path : Path} {id : D} :
    s.idForPath path = some id ↔ ∃ r ∈ s.notes, r.path = path ∧ r.id = id := by
  simp only [Index.idForPath, Option.map_eq_some_iff, find_path hpaths, and_assoc]

variable {r : NoteRow D Sha}

theorem id_eq_iff (hids : (s.notes.map NoteRow.id).Nodup) (hpaths : (s.notes.map NoteRow.path).Nodup)
    {q : NoteRow D Sha} (hq : q ∈ s.notes) (hr : r ∈ s.notes) : r.id = q.id ↔ r.path = q.path := by
  constructor
  · intro hid
    rw [inj_on_of_nodup_map hids hr hq hid]
  · intro hpath
    rw [inj_on_of_nodup_map hpaths hr hq hpath]

variable {u : Index D Sha F}

section

variable (hids : (s.notes.map NoteRow.id).Nodup)

include hids

theorem exact_of_some (hpaths : (s.notes.map NoteRow.path).Nodup)
    (h : s.renameExact disk old new = some u) : ExactFree s old new ∧ u.notes = s.notes.map (exactRow old new) := by
  unfold Index.renameExact at h
  split at h
  · next id hid =>
    obtain ⟨q, hq, hqpath, rfl⟩ := (idForPath_mem hpaths).mp hid
    obtain ⟨hfree, -, hnotes⟩ := setPath_eq_some h
    have hiff : ∀ r ∈ s.notes, (r.id = q.id ↔ r.path = old) := by
      intro r hr
      rw [id_eq_iff hids hpaths hq hr, hqpath]
    refine ⟨fun _ _ _ x hx hnew => (hiff x hx).mp (hfree x hx hnew), ?_⟩
    rw [hnotes]
    apply map_congr_left
    intro r hr
    simp only [exactRow, hiff r hr]
  · next hnone =>
    cases h
    have hno := idForPath_eq_none.mp hnone
    refine ⟨fun r hr hold => absurd hold (hno r hr), ?_⟩
    have hsame : ∀ r ∈ s.notes, exactRow old new r = r := fun r hr => if_neg (hno r hr)
    rw [map_congr_left hsame, map_id']

theorem exact_some (hpaths : (s.notes.map NoteRow.path).Nodup)
    (h : ExactFree s old new) : ∃ u, s.renameExact disk old new = some u := by
  unfold Index.renameExact
  split
  · next id hid =>
    obtain ⟨q, hq, hqpath, rfl⟩ := (idForPath_mem hpaths).mp hid
    have hfree : ∀ r ∈ s.notes, r.path = new → r.id = q.id := by
      intro r hr hnew
      rw [id_eq_iff hids hpaths hq hr, h q hq hqpath r hr hnew, hqpath]
    obtain ⟨u, hu, -⟩ := setPath_notes disk hfree
    exact ⟨u, hu⟩
  · exact ⟨s, rfl⟩

theorem exact_ids (hu : u.notes = s.notes.map (exactRow old new)) : (u.notes.map NoteRow.id).Nodup := by
  rw [hu, map_map]
  simpa [comp_def] using hids

theorem exact_paths (hpaths : (s.notes.map NoteRow.path).Nodup)
    (hfree : ExactFree s old new) (hu : u.notes = s.notes.map (exactRow old new)) :
    (u.notes.map NoteRow.path).Nodup := by
  rw [hu, map_map]
  refine Nodup.map_on ?_ hids.of_map
  intro x hx y hy hxy
  simp only [comp_apply, exactRow] at hxy
  by_cases hxo : x.path = old
  · by_cases hyo : y.path = old
    · exact inj_on_of_nodup_map hpaths hx hy (hxo.trans hyo.symm)
    · rw [if_pos hxo, if_neg hyo] at hxy
      exact absurd (hfree x hx hxo y hy hxy.symm) hyo
  · by_cases hyo : y.path = old
    · rw [if_neg hxo, if_pos hyo] at hxy
      exact absurd (hfree y hy hyo x hx hxy) hxo
    · rw [if_neg hxo, if_neg hyo] at hxy
      exact inj_on_of_nodup_map hpaths hx hy hxy

end

/-- the rows the loop takes, if the row at the path has not gone below it -/
def taken (s : Index D Sha F) (old : Path) : List (NoteRow D Sha) :=
  s.notes.filter fun r => r.path ≠ old ∧ likeBelow old r.path = true

theorem mem_taken : r ∈ taken s old ↔ r ∈ s.notes ∧ r.path ≠ old ∧ likeBelow old r.path = true := by
  simp [taken]

theorem taken_eq (hu : u.notes = s.notes.map (exactRow old new))
    (hnot : ∀ r ∈ s.notes, r.path = old → likeBelow old new = false) :
    (u.notes.filter fun r => likeBelow old r.path) = taken s old := by
  rw [hu, filter_map]
  have hfilter : s.notes.filter ((fun r => likeBelow old r.path) ∘ exactRow old new) = taken s old := by
    apply filter_congr
    intro r hr
    simp only [comp_apply, exactRow]
    by_cases hold : r.path = old
    · simp [hold, hnot r hr hold]
    · simp [hold]
  have hsame : ∀ r ∈ taken s old, exactRow old new r = r := fun r hr => if_neg (mem_taken.mp hr).2.1
  rw [hfilter, map_congr_left hsame, map_id']

theorem taken_below (s : Index D Sha F) (old : Path) :
    ((taken s old).filter fun r => Below old r.path) = s.notes.filter fun r => Below old r.path := by
  unfold taken
  rw [filter_filter]
  apply filter_congr
  intro r _
  by_cases hbelow : Below old r.path
  · have hne : r.path ≠ old := fun hold => not_below_self old (hold ▸ hbelow)
    simp [hbelow, hne, likeBelow_of_below hbelow]
  · simp [hbelow]

/-- a taken row goes where a rename takes it -/
theorem cut_taken (h : Movable s old new) (hr : r ∈ taken s old) :
    cut old new r.path = some (move old new r.path) := by
  obtain ⟨hmem, hne, hlike⟩ := mem_taken.mp hr
  by_cases hbelow : Below old r.path
  · exact cut_of_below hbelow
  · have hunder : ¬ Under old r.path := not_or.mpr ⟨hne, hbelow⟩
    rw [move_of_not_under hunder]
    exact h.takes r hmem hlike hunder

section

variable (h : Movable s old new) (hpaths : (s.notes.map NoteRow.path).Nodup) {x : NoteRow D Sha} (hr : r ∈ taken s old)

include h hpaths hr

theorem move_taken_inj (hx : x ∈ taken s old) (heq : move old new r.path = move old new x.path) : r = x := by
  obtain ⟨hrs, hrne, -⟩ := mem_taken.mp hr
  obtain ⟨hxs, hxne, -⟩ := mem_taken.mp hx
  by_cases hrb : Below old r.path
  · by_cases hxb : Below old x.path
    · rw [move_of_below hrb, move_of_below hxb] at heq
      have hdrop := (cons.inj (append_cancel_left heq)).2
      have hpath : r.path = x.path := by rw [below_eq hrb, below_eq hxb, hdrop]
      exact inj_on_of_nodup_map hpaths hrs hxs hpath
    · have hunder : ¬ Under old x.path := not_or.mpr ⟨hxne, hxb⟩
      rw [move_of_not_under hunder] at heq
      exact absurd heq.symm (h.free r hrs hrb x hxs hunder)
  · have hunder : ¬ Under old r.path := not_or.mpr ⟨hrne, hrb⟩
    rw [move_of_not_under hunder] at heq
    by_cases hxb : Below old x.path
    · exact absurd heq (h.free x hxs hxb r hrs hunder)
    · rw [move_of_not_under (not_or.mpr ⟨hxne, hxb⟩)] at heq
      exact inj_on_of_nodup_map hpaths hrs hxs heq

/-- a row behind, or one that is not taken, does not stand where a taken row goes -/
theorem ahead_taken (hx : x ∈ s.notes) (hxne : x.path ≠ old) (hne : x ≠ r)
    (horder : Below old r.path → Below old x.path → x.path ≠ move old new r.path) : x.path ≠ move old new r.path := by
  obtain ⟨hrs, hrne, -⟩ := mem_taken.mp hr
  by_cases hrb : Below old r.path
  · by_cases hxb : Below old x.path
    · exact horder hrb hxb
    · exact h.free r hrs hrb x hx (not_or.mpr ⟨hxne, hxb⟩)
  · rw [move_of_not_under (not_or.mpr ⟨hrne, hrb⟩)]
    exact fun hpath => hne (inj_on_of_nodup_map hpaths hx hrs hpath)

end

theorem renameRows_of_movable (hids : (s.notes.map NoteRow.id).Nodup) (hpaths : (s.notes.map NoteRow.path).Nodup)
    (h : Movable s old new) :
    ∃ t, s.renameRows disk old new = some t ∧ t.notes = s.notes.map (moveRow old new) := by
  have hfree : ExactFree s old new := fun r hr hold => (h.exact r hr hold).2
  obtain ⟨u, hu⟩ : ∃ u, s.renameExact disk old new = some u := exact_some hids hpaths hfree
  obtain ⟨-, hunotes⟩ := exact_of_some hids hpaths hu
  have huids := exact_ids hids hunotes
  have hrs := taken_eq hunotes fun r hr hold => (h.exact r hr hold).1
  have hin : ∀ r ∈ taken s old, r ∈ u.notes := fun r hr => mem_of_mem_filter (hrs ▸ hr)
  have hnodup : ((taken s old).map NoteRow.id).Nodup := hids.sublist (filter_sublist.map _)
  have hne : (taken s old).Pairwise fun r x => r ≠ x := hnodup.of_map
  have horder : (taken s old).Pairwise fun r x => Below old r.path → Below old x.path → x.path ≠ move old new r.path := by
    have hfiltered := h.order
    rw [← taken_below, pairwise_filter] at hfiltered
    exact hfiltered.imp fun hall hrb hxb => hall (decide_eq_true hrb) (decide_eq_true hxb)
  have hapart : (taken s old).Pairwise fun r x => move old new r.path ≠ move old new x.path :=
    hne.imp_of_mem fun hr hx hrx heq => hrx (move_taken_inj h hpaths hr hx heq)
  have hahead : (taken s old).Pairwise fun r x => x.path ≠ move old new r.path := by
    refine (hne.and horder).imp_of_mem fun hr hx hboth => ?_
    obtain ⟨hxs, hxne, -⟩ := mem_taken.mp hx
    exact ahead_taken h hpaths hr hxs hxne (Ne.symm hboth.1) hboth.2
  have hstay : ∀ r ∈ taken s old, ∀ x ∈ u.notes, x.id ∉ ([] : List D) → x.id ∉ (taken s old).map NoteRow.id →
      x.path ≠ move old new r.path := by
    intro r hr x hx _ hxid
    rw [hunotes] at hx
    obtain ⟨y, hy, rfl⟩ := mem_map.mp hx
    rw [exactRow_id] at hxid
    unfold exactRow
    split
    · next hold =>
      obtain ⟨hrmem, hrne, -⟩ := mem_taken.mp hr
      intro hpath
      by_cases hrb : Below old r.path
      · rw [move_of_below hrb] at hpath
        exact absurd (congrArg length hpath) (by simp)
      · rw [move_of_not_under (not_or.mpr ⟨hrne, hrb⟩)] at hpath
        exact hrne ((h.exact y hy hold).2 r hrmem hpath.symm)
    · next hold =>
      have hynot : y ∉ taken s old := fun hyt => hxid (mem_map_of_mem hyt)
      refine ahead_taken h hpaths hr hy hold (fun heq => hynot (heq ▸ hr)) fun _ hyb => ?_
      exact absurd (mem_taken.mpr ⟨hy, hold, likeBelow_of_below hyb⟩) hynot
  obtain ⟨t, ht, htnotes⟩ : ∃ t, (taken s old).foldlM (Index.renameChild disk old new) u = some t ∧
      t.notes = u.notes.map fun r =>
        if r.id ∈ [] ++ (taken s old).map NoteRow.id then moveRow old new r else r :=
    children_some huids (fun r hr => ⟨hin r hr, by simp⟩) hnodup (fun r hr => cut_taken h hr) (by simp) hapart hahead
      hstay (by simp)
  refine ⟨t, ?_, ?_⟩
  · rw [Index.renameRows, hu, Option.bind_some, hrs]
    exact ht
  rw [htnotes, hunotes, map_map]
  apply map_congr_left
  intro r hr
  simp only [comp_apply, exactRow_id, nil_append]
  have hiff : r.id ∈ (taken s old).map NoteRow.id ↔ r ∈ taken s old := by
    constructor
    · intro hmem
      obtain ⟨x, hx, hxid⟩ := mem_map.mp hmem
      rwa [← inj_on_of_nodup_map hids (mem_taken.mp hx).1 hr hxid]
    · exact fun hmem => mem_map_of_mem hmem
  by_cases hold : r.path = old
  · have hnot : r.id ∉ (taken s old).map NoteRow.id := fun hmem => (mem_taken.mp (hiff.mp hmem)).2.1 hold
    rw [if_neg hnot, exactRow, if_pos hold, moveRow, move, if_pos hold]
  · rw [exactRow, if_neg hold]
    split
    · rfl
    · next hnot =>
      have hunder : ¬ Under old r.path := by
        refine not_or.mpr ⟨hold, fun hbelow => hnot (hiff.mpr ?_)⟩
        exact mem_taken.mpr ⟨hr, hold, likeBelow_of_below hbelow⟩
      rw [moveRow, move_of_not_under hunder]

theorem movable_of_renameRows (hids : (s.notes.map NoteRow.id).Nodup) (hpaths : (s.notes.map NoteRow.path).Nodup)
    {t : Index D Sha F} (h : s.renameRows disk old new = some t) (ht : t.notes = s.notes.map (moveRow old new)) :
    Movable s old new := by
  obtain ⟨u, hu, hloop⟩ := Option.bind_eq_some_iff.mp h
  obtain ⟨hfree, hunotes⟩ := exact_of_some hids hpaths hu
  have huids := exact_ids hids hunotes
  obtain ⟨htpaths, -, hcuts, horder⟩ := children_of_some hloop (huids.sublist (filter_sublist.map _))
    (fun r hr => mem_of_mem_filter hr) huids (exact_paths hids hpaths hfree hunotes)
  -- where a taken row has gone is where the rename takes it
  have hgone : ∀ q ∈ s.notes, likeBelow old (exactRow old new q).path = true →
      cut old new (exactRow old new q).path = some (move old new q.path) := by
    intro q hq hlike
    have hmem : exactRow old new q ∈ u.notes.filter fun r => likeBelow old r.path := by
      rw [hunotes]
      exact mem_filter.mpr ⟨mem_map_of_mem hq, hlike⟩
    obtain ⟨target, hcut, hin⟩ := hcuts _ hmem
    rw [ht] at hin
    obtain ⟨x, hx, hxeq⟩ := mem_map.mp hin
    have hid : x.id = q.id := (congrArg NoteRow.id hxeq).trans (exactRow_id old new q)
    have hpath : move old new x.path = target := congrArg NoteRow.path hxeq
    rw [hcut, ← hpath, inj_on_of_nodup_map hids hx hq hid]
  have hexact : ∀ r ∈ s.notes, r.path = old → likeBelow old new = false := by
    intro r hr hold
    by_contra hlike
    have hrow : (exactRow old new r).path = new := by rw [exactRow, if_pos hold]
    have hcut := hgone r hr (by rw [hrow]; simpa using hlike)
    rw [move, if_pos hold] at hcut
    exact not_below_self new (below_of_cut hcut)
  refine ⟨?_, fun r hr hold => ⟨hexact r hr hold, hfree r hr hold⟩, ?_, ?_⟩
  · intro r hr hlike hunder
    have hrow : exactRow old new r = r := if_neg fun hold => hunder (.inl hold)
    have hcut := hgone r hr (by rwa [hrow])
    rwa [hrow, move_of_not_under hunder] at hcut
  · intro r hr hbelow x hx hunder hpath
    have hrt : moveRow old new r ∈ t.notes := ht ▸ mem_map_of_mem hr
    have hxt : moveRow old new x ∈ t.notes := ht ▸ mem_map_of_mem hx
    have hsame : (moveRow old new x).path = (moveRow old new r).path := by
      change move old new x.path = move old new r.path
      rw [move_of_not_under hunder, hpath]
    have hid : (moveRow old new x).id = (moveRow old new r).id :=
      congrArg NoteRow.id (inj_on_of_nodup_map htpaths hxt hrt hsame)
    exact hunder (.inr (inj_on_of_nodup_map hids hx hr hid ▸ hbelow))
  · rw [taken_eq hunotes hexact] at horder
    rw [← taken_below]
    refine (horder.filter fun r => decide (Below old r.path)).imp_of_mem fun hr _ hall => ?_
    exact hall _ (cut_of_below (of_decide_eq_true (mem_filter.mp hr).2))

end Rename

/-! ## Exactness -/

/-- the rows that stay are those that are at none of the paths and below none of them -/
def Outside (paths : List Path) (path : Path) : Prop := ∀ p ∈ paths, ¬ Under p path

instance (paths : List Path) (path : Path) : Decidable (Outside paths path) :=
  inferInstanceAs (Decidable (∀ p ∈ paths, ¬ Under p path))

/-- `LIKE` takes no row outside the subtrees -/
def TakesOnly (rows paths : List Path) : Prop := ∀ q ∈ rows, ∀ p ∈ paths, likeBelow p q = true → ¬ Outside paths q

instance (rows paths : List Path) : Decidable (TakesOnly rows paths) :=
  inferInstanceAs (Decidable (∀ q ∈ rows, ∀ p ∈ paths, likeBelow p q = true → ¬ Outside paths q))

variable (C : Crates Sha) (disk : Disk F) (order : RowOrder D Sha)

theorem commitBatch_notes (batch : Index D Sha F × List D) :
    (Index.commitBatch C order batch).notes = batch.1.notes := by
  unfold Index.commitBatch
  split <;> rfl

theorem renameNote_notes (s : Index D Sha F) (old new : Path) :
    (s.renameNote C disk order old new).notes = ((s.renameRows disk old new).getD s).notes := by
  unfold Index.renameNote
  cases s.renameRows disk old new <;> rfl

omit [DecidableEq D] in
theorem removed_iff (path : R → Path) (rows : List R) (paths : List Path) :
    (rows.filter (fun r => ∀ p ∈ paths, ¬ Taken p (path r)) = rows.filter fun r => Outside paths (path r)) ↔
      TakesOnly (rows.map path) paths := by
  unfold TakesOnly
  rw [forall_mem_map]
  refine (filter_exact path rows paths).trans ?_
  simp only [Outside, not_forall, not_not, exists_prop]

def rowAtPath (id : ℕ) (path : String) : NoteRow ℕ Text := ⟨id, path.toList, 0, ⟨[], none, none, ∅, [], []⟩⟩

/-- a folder, and two that `LIKE` cannot tell from it -/
def siblings : Index ℕ Text ℕ :=
  ⟨[rowAtPath 1 "a_b/n.md", rowAtPath 2 "axb/m.md", rowAtPath 3 "a😀b/k.md"], [], []⟩

def noDisk : Disk ℕ := .ofFiles [] (by decide)

/-- a folder and one whose name differs in a letter -/
def folders : Index ℕ Text ℕ := ⟨[rowAtPath 1 "ab/n.md", rowAtPath 2 "ac/m.md", rowAtPath 3 "ab"], [], []⟩

end Baalda.NoteIndex
