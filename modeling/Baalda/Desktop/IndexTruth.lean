/-
The local index against the files it is derived from.

A vault is a disk and its index, `opened` by a rebuild. Files change (`Action.change`), and the operation that matches a
change follows: `index_notes` for new and changed files, `remove_notes` for vanished ones, `rename_note` for a rename or
a folder move the app made itself. `pending` holds the paths whose change no operation has followed yet; every other
path should have the row that a rebuild into an empty index would derive from its file.

- `Matches`: the operation matches what has happened on the disk;
- `Keeps`: what else a step must not meet. A rename or move keeps what its notes derive to (the title may come from the
  former stem, and the hash gate never looks at it again); what SQL's `LIKE` takes for the rows below a path is below
  it; no file that has a row has become unreadable.
-/
import Baalda.Desktop.IndexRows

namespace Baalda.NoteIndex

open List Function
open Option (bind_some map_some)

local instance : LawfulBEq Text := inferInstance

variable {D Sha F : Type*}

/-! ## Names -/

/-- where a rename or a folder move takes a path -/
def move (old new path : Path) : Path :=
  if path = old then new
  else if Below old path then new ++ '/' :: path.drop (old.length + 1)
  else path

variable {old path : Path}

theorem below_eq (h : Below old path) : path = old ++ '/' :: path.drop (old.length + 1) := by
  obtain ⟨rest, rfl⟩ := h
  simp

theorem not_below_self (old : Path) : ¬ Below old old := by
  intro h
  have hlen := congrArg length (below_eq h)
  simp only [length_append, length_cons] at hlen
  omega

variable {new : Path}

theorem move_of_below (h : Below old path) : move old new path = new ++ '/' :: path.drop (old.length + 1) := by
  have hne : path ≠ old := by
    intro heq
    rw [heq] at h
    exact not_below_self old h
  rw [move, if_neg hne, if_pos h]

theorem move_of_not_under (h : ¬ Under old path) : move old new path = path := by
  simp only [Under, not_or] at h
  rw [move, if_neg h.1, if_neg h.2]

theorem below_append (new rest : Path) : Below new (new ++ '/' :: rest) := ⟨rest, by simp⟩

theorem under_move (h : Under old path) : Under new (move old new path) := by
  rcases h with rfl | hbelow
  · left
    rw [move, if_pos rfl]
  · right
    rw [move_of_below hbelow]
    exact below_append _ _

variable {q : Path}

/-- paths that are not at the destination stay apart -/
theorem move_injective {p : Path} (hp : ¬ Under new p) (hq : ¬ Under new q) (h : move old new p = move old new q) :
    p = q := by
  by_cases hup : Under old p
  · by_cases huq : Under old q
    · rcases hup with rfl | hbp
      · rcases huq with rfl | hbq
        · rfl
        · rw [move, if_pos rfl, move_of_below hbq] at h
          exact absurd (congrArg length h) (by simp)
      · rcases huq with rfl | hbq
        · rw [move_of_below hbp, move, if_pos rfl] at h
          exact absurd (congrArg length h) (by simp)
        · rw [move_of_below hbp, move_of_below hbq] at h
          rw [below_eq hbp, below_eq hbq, (cons.inj (append_cancel_left h)).2]
    · rw [move_of_not_under huq] at h
      exact absurd (h ▸ under_move hup) hq
  · by_cases huq : Under old q
    · rw [move_of_not_under hup] at h
      exact absurd (h.symm ▸ under_move huq) hp
    · rwa [move_of_not_under hup, move_of_not_under huq] at h

theorem sliceFrom_append (p t : Text) : Index.sliceFrom (utf8Len p) (p ++ t) = some t := by
  induction p with
  | nil =>
    cases t with
    | nil | cons c t => rfl
  | cons c p ih =>
    have hpos := c.utf8Size_pos
    have hlen : utf8Len (c :: p) = (c.utf8Size - 1 + utf8Len p) + 1 := by
      simp only [utf8Len, map_cons, sum_cons]
      omega
    rw [hlen, cons_append, Index.sliceFrom, if_pos (by omega)]
    have hrest : c.utf8Size - 1 + utf8Len p + 1 - c.utf8Size = utf8Len p := by omega
    rw [hrest, ih]

theorem sliceFrom_below (h : Below old path) :
    Index.sliceFrom (utf8Len (old ++ ['/'])) path = some (path.drop (old.length + 1)) := by
  obtain ⟨rest, rfl⟩ := h
  rw [sliceFrom_append]
  simp

/-! ## What a rename does to the rows -/

def moveRow (old new : Path) (r : NoteRow D Sha) : NoteRow D Sha := { r with path := move old new r.path }

variable [DecidableEq D]

/-- no row is in the way of the rename, and `LIKE` takes no row that is not below the folder -/
structure Clear (s : Index D Sha F) (old new : Path) : Prop where
  apart : ¬ Under old new
  free : ∀ r ∈ s.notes, ¬ Under new r.path
  takes : ∀ r ∈ s.notes, likeBelow old r.path → Below old r.path
  target : likeBelow old new = false

variable {s : Index D Sha F}

theorem setPath_notes (disk : Disk F) {id : D} (h : ∀ r ∈ s.notes, r.path = path → r.id = id) :
    ∃ t, s.setPath disk id path = some t ∧ t.links = s.links ∧
      t.notes = s.notes.map fun r => if r.id = id then { r with path := path } else r := by
  have hconflict : ¬ (s.notes.any fun r => r.path = path ∧ r.id ≠ id) = true := by
    intro hany
    obtain ⟨r, hr, hcond⟩ := any_eq_true.mp hany
    simp only [decide_eq_true_eq] at hcond
    exact hcond.2 (h r hr hcond.1)
  exact ⟨_, if_neg hconflict, rfl, rfl⟩

variable {C : Crates Sha}

theorem renameExact_notes (h : Rows C s) (disk : Disk F) (hclear : Clear s old new) :
    ∃ t, s.renameExact disk old new = some t ∧ t.links = s.links ∧
      t.notes = s.notes.map fun r => if r.path = old then { r with path := new } else r := by
  unfold Index.renameExact
  cases hid : s.idForPath old with
  | none =>
    refine ⟨s, rfl, rfl, ?_⟩
    have hnone := idForPath_eq_none.mp hid
    have hsame : ∀ r ∈ s.notes, (if r.path = old then { r with path := new } else r) = r :=
      fun r hr => if_neg (hnone r hr)
    rw [map_congr_left hsame, map_id']
  | some id =>
    obtain ⟨q, hq, hqpath, hqid⟩ := (idForPath_eq_some h).mp hid
    have hfree : ∀ r ∈ s.notes, r.path = new → r.id = id := fun r hr hnew => absurd (.inl hnew) (hclear.free r hr)
    obtain ⟨t, ht, hlinks, hnotes⟩ := setPath_notes disk hfree
    refine ⟨t, ht, hlinks, ?_⟩
    rw [hnotes]
    apply map_congr_left
    intro r hr
    have hiff : r.id = id ↔ r.path = old := by
      constructor
      · intro hrid
        rw [h.eq_of_id hr hq (hrid.trans hqid.symm), hqpath]
      · intro hpath
        rw [h.eq_of_path hr hq (hpath.trans hqpath.symm), hqid]
    simp only [hiff]

/-- the loop over the descendants: those already seen stand at their new paths -/
theorem renameChildren_notes {u : Index D Sha F} (hids : (u.notes.map NoteRow.id).Nodup)
    (hpaths : (u.notes.map NoteRow.path).Nodup) (disk : Disk F) (hfree : ∀ r ∈ u.notes, ¬ Below new r.path)
    (rs : List (NoteRow D Sha)) (done : List D) (v : Index D Sha F)
    (hrs : ∀ r ∈ rs, r ∈ u.notes ∧ Below old r.path ∧ r.id ∉ done) (hnodup : (rs.map NoteRow.id).Nodup)
    (hdone : ∀ r ∈ u.notes, r.id ∈ done → Below old r.path) (hlinks : v.links = u.links)
    (hv : v.notes = u.notes.map fun r => if r.id ∈ done then moveRow old new r else r) :
    ∃ t, rs.foldlM (Index.renameChild disk old new) v = some t ∧ t.links = u.links ∧
      t.notes = u.notes.map fun r => if r.id ∈ done ++ rs.map NoteRow.id then moveRow old new r else r := by
  induction rs generalizing done v with
  | nil => exact ⟨v, rfl, hlinks, by simpa using hv⟩
  | cons r rs ih =>
    obtain ⟨hr, hbelow, hrdone⟩ := hrs r mem_cons_self
    have htarget : new ++ '/' :: r.path.drop (old.length + 1) = move old new r.path := (move_of_below hbelow).symm
    -- no other row stands where this one goes
    have hno : ∀ x ∈ v.notes, x.path = move old new r.path → x.id = r.id := by
      intro x hx hxpath
      rw [hv] at hx
      obtain ⟨y, hy, rfl⟩ := mem_map.mp hx
      by_cases hydone : y.id ∈ done
      · rw [if_pos hydone] at hxpath ⊢
        have hybelow := hdone y hy hydone
        simp only [moveRow] at hxpath ⊢
        rw [move_of_below hybelow, move_of_below hbelow] at hxpath
        have hdrop := (cons.inj (append_cancel_left hxpath)).2
        have hpath : y.path = r.path := by rw [below_eq hybelow, below_eq hbelow, hdrop]
        rw [inj_on_of_nodup_map hpaths hy hr hpath]
      · rw [if_neg hydone] at hxpath ⊢
        rw [← htarget] at hxpath
        exact absurd (hxpath ▸ below_append new _) (hfree y hy)
    obtain ⟨w, hw, hwlinks, hwnotes⟩ := setPath_notes disk hno
    have hstep : Index.renameChild disk old new v r = some w := by
      rw [Index.renameChild, sliceFrom_below hbelow, bind_some, htarget]
      exact hw
    have hwnotes' : w.notes = u.notes.map fun x => if x.id ∈ done ++ [r.id] then moveRow old new x else x := by
      rw [hwnotes, hv, map_map]
      apply map_congr_left
      intro x hx
      simp only [comp_apply, mem_append, mem_singleton]
      by_cases hxid : x.id = r.id
      · have hxr : x = r := inj_on_of_nodup_map hids hx hr hxid
        rw [hxr, if_neg hrdone, if_pos rfl, if_pos (.inr rfl)]
        rfl
      · by_cases hxdone : x.id ∈ done
        · have hkeep : (moveRow old new x).id ≠ r.id := hxid
          rw [if_pos hxdone, if_neg hkeep, if_pos (.inl hxdone)]
        · rw [if_neg hxdone, if_neg hxid, if_neg (by simp [hxdone, hxid])]
    obtain ⟨hrnot, hnodup'⟩ := nodup_cons.mp hnodup
    obtain ⟨t, ht, htlinks, htnotes⟩ := ih (done ++ [r.id]) w
      (by
        intro x hx
        obtain ⟨hxu, hxbelow, hxdone⟩ := hrs x (.tail _ hx)
        refine ⟨hxu, hxbelow, ?_⟩
        simp only [mem_append, mem_singleton, not_or]
        exact ⟨hxdone, fun hxr => hrnot (hxr ▸ mem_map_of_mem hx)⟩)
      hnodup'
      (by
        intro x hx hmem
        rcases mem_append.mp hmem with hxdone | hxr
        · exact hdone x hx hxdone
        · rw [inj_on_of_nodup_map hids hx hr (mem_singleton.mp hxr)]
          exact hbelow)
      (hwlinks.trans hlinks) hwnotes'
    refine ⟨t, ?_, htlinks, by simpa using htnotes⟩
    rw [foldlM_cons, hstep]
    exact ht

/-- **A rename moves the rows of the notes it moves,** and no others -/
theorem renameRows_notes (h : Rows C s) (disk : Disk F) (hclear : Clear s old new) :
    ∃ t, s.renameRows disk old new = some t ∧ t.links = s.links ∧ t.notes = s.notes.map (moveRow old new) := by
  obtain ⟨u, hu, hulinks, hunotes⟩ := renameExact_notes h disk hclear
  have hid : ∀ r : NoteRow D Sha, (if r.path = old then { r with path := new } else r).id = r.id := by
    intro r
    split <;> rfl
  have huids : (u.notes.map NoteRow.id).Nodup := by
    rw [hunotes, map_map]
    simp only [comp_def, hid]
    exact h.ids
  have hunew : ∀ r ∈ s.notes, r.path ≠ new := fun r hr hpath => hclear.free r hr (.inl hpath)
  have hupaths : (u.notes.map NoteRow.path).Nodup := by
    rw [hunotes, map_map]
    refine Nodup.map_on ?_ h.ids.of_map
    intro x hx y hy hxy
    simp only [comp_apply] at hxy
    by_cases hxo : x.path = old
    · by_cases hyo : y.path = old
      · exact h.eq_of_path hx hy (hxo.trans hyo.symm)
      · rw [if_pos hxo, if_neg hyo] at hxy
        exact absurd hxy.symm (hunew y hy)
    · by_cases hyo : y.path = old
      · rw [if_neg hxo, if_pos hyo] at hxy
        exact absurd hxy (hunew x hx)
      · rw [if_neg hxo, if_neg hyo] at hxy
        exact h.eq_of_path hx hy hxy
  have hmem : ∀ r ∈ u.notes, r.path = new ∨ r ∈ s.notes ∧ r.path ≠ old := by
    intro r hr
    rw [hunotes] at hr
    obtain ⟨x, hx, rfl⟩ := mem_map.mp hr
    by_cases hxo : x.path = old
    · rw [if_pos hxo]
      exact .inl rfl
    · rw [if_neg hxo]
      exact .inr ⟨hx, hxo⟩
  have hfree : ∀ r ∈ u.notes, ¬ Below new r.path := by
    intro r hr
    rcases hmem r hr with hpath | ⟨hrs, -⟩
    · rw [hpath]
      exact not_below_self new
    · exact fun hb => hclear.free r hrs (.inr hb)
  have hchildren : ∀ r ∈ u.notes.filter fun r => likeBelow old r.path,
      r ∈ u.notes ∧ Below old r.path ∧ r.id ∉ ([] : List D) := by
    intro r hr
    obtain ⟨hru, hlike⟩ := mem_filter.mp hr
    refine ⟨hru, ?_, by simp⟩
    rcases hmem r hru with hpath | ⟨hrs, -⟩
    · rw [hpath, hclear.target] at hlike
      simp at hlike
    · exact hclear.takes r hrs hlike
  obtain ⟨t, ht, htlinks, htnotes⟩ := renameChildren_notes huids hupaths disk hfree
    (u.notes.filter fun r => likeBelow old r.path) [] u hchildren (huids.sublist (filter_sublist.map _))
    (by simp) rfl (by simp)
  have htaken : ∀ r ∈ s.notes, (r.id ∈ [] ++ (u.notes.filter fun r => likeBelow old r.path).map NoteRow.id ↔
      likeBelow old (if r.path = old then { r with path := new } else r).path) := by
    intro r hr
    have hin : (if r.path = old then { r with path := new } else r) ∈ u.notes := by
      rw [hunotes]
      exact mem_map_of_mem hr
    rw [nil_append, mem_map]
    constructor
    · intro hex
      obtain ⟨x, hx, hxid⟩ := hex
      obtain ⟨hxu, hlike⟩ := mem_filter.mp hx
      rwa [← inj_on_of_nodup_map huids hxu hin (hxid.trans (hid r).symm)]
    · intro hlike
      exact ⟨_, mem_filter.mpr ⟨hin, hlike⟩, hid r⟩
  refine ⟨t, ?_, htlinks.trans hulinks, ?_⟩
  · rw [Index.renameRows, hu, bind_some]
    exact ht
  · generalize [] ++ (u.notes.filter fun r => likeBelow old r.path).map NoteRow.id = taken at htaken htnotes
    rw [htnotes, hunotes, map_map]
    apply map_congr_left
    intro r hr
    simp only [comp_apply, hid, htaken r hr]
    by_cases hro : r.path = old
    · simp only [if_pos hro, hclear.target, Bool.false_eq_true, if_false]
      rw [moveRow, move, if_pos hro]
    · simp only [if_neg hro]
      by_cases hlike : likeBelow old r.path = true
      · rw [if_pos hlike]
      · rw [if_neg hlike]
        have hnot : ¬ Under old r.path := by
          intro hunder
          rcases hunder with hpath | hbelow
          · exact hro hpath
          · exact hlike (likeBelow_of_below hbelow)
        rw [moveRow, move_of_not_under hnot]

/-- a text under its new name derives to what it derived to under the old one -/
def NameKeeps (C : Crates Sha) (p q : Path) (v : Values Sha × List ParsedLink) : Prop :=
  (∀ text, v = parsedValues C p text → v = parsedValues C q text) ∧ (v = oversized p → v = oversized q)

omit [DecidableEq D] in
/-- a move into another folder does -/
theorem nameKeeps_of_same_name {p : Path} (h : lastPart p = lastPart q) (v : Values Sha × List ParsedLink) :
    NameKeeps C p q v := by
  have hstem : stemOf p = stemOf q := by rw [stemOf, stemOf, h]
  have hext : extensionOf p = extensionOf q := by rw [extensionOf, extensionOf, h]
  constructor
  · intro text hv
    rw [hv]
    simp only [parsedValues, parseFor, hstem, hext]
  · intro hv
    rw [hv, oversized, oversized, hstem]

omit [DecidableEq D] in
theorem derive_keeps {p : Path} {file : File F} {v : Values Sha × List ParsedLink} (hkeeps : NameKeeps C p q v)
    (h : derive C p file = some v) : derive C q file = some v := by
  unfold derive at h ⊢
  split_ifs at h ⊢ with hsize
  · rw [hkeeps.2 (Option.some.inj h).symm]
  · obtain ⟨text, htext, hv⟩ := Option.map_eq_some_iff.mp h
    rw [htext, map_some, hkeeps.1 text hv.symm]

/-- the disk after the rename: the same files, those at and below `old` at and below `new` -/
structure Renamed (disk disk' : Disk F) (old new : Path) : Prop where
  free : ∀ q ∈ disk.walk, ¬ Under new q
  moved : ∀ q ∈ disk.walk, disk'.file (move old new q) = disk.file q
  only : ∀ q' ∈ disk'.walk, ∃ q ∈ disk.walk, move old new q = q'

theorem moved_rows {t : Index D Sha F} (h : Rows C s) (hclear : Clear s old new)
    (hkeeps : ∀ r ∈ s.notes, Under old r.path → NameKeeps C r.path (move old new r.path) (r.values, s.linksOf r.id))
    (hlinks : t.links = s.links) (hnotes : t.notes = s.notes.map (moveRow old new)) : Rows C t := by
  have hlinksOf : ∀ id, t.linksOf id = s.linksOf id := fun id => by simp only [Index.linksOf, hlinks]
  refine ⟨?_, ?_, ?_⟩
  · rw [hnotes, map_map]
    exact h.ids
  · rw [hnotes, map_map]
    refine Nodup.map_on ?_ h.ids.of_map
    intro x hx y hy hxy
    exact h.eq_of_path hx hy (move_injective (hclear.free x hx) (hclear.free y hy) hxy)
  · intro r hr sha hsha
    rw [hnotes] at hr
    obtain ⟨x, hx, rfl⟩ := mem_map.mp hr
    obtain ⟨text, htext, hval⟩ := h.derived x hx sha hsha
    refine ⟨text, htext, ?_⟩
    rw [hlinksOf]
    by_cases hunder : Under old x.path
    · exact (hkeeps x hx hunder).1 text hval
    · simp only [moveRow, move_of_not_under hunder]
      exact hval

variable {disk : Disk F} {P : Path → Prop}

/-- **A rename.** Rows move with their files; where their values do not depend on the name they stay right. -/
theorem moved_current {t : Index D Sha F} (h : Rows C s) (ht : Rows C t) {disk' : Disk F}
    (hrenamed : Renamed disk disk' old new)
    (hkeeps : ∀ r ∈ s.notes, Under old r.path → NameKeeps C r.path (move old new r.path) (r.values, s.linksOf r.id))
    (hlinks : t.links = s.links) (hnotes : t.notes = s.notes.map (moveRow old new)) (hcurrent : Current C disk P s) :
    Current C disk' (fun q' => ∀ q, move old new q = q' → P q) t := by
  have hlinksOf : ∀ id, t.linksOf id = s.linksOf id := fun id => by simp only [Index.linksOf, hlinks]
  -- a row of the old disk and the value of its file under the new name
  have hvalue : ∀ r ∈ s.notes, P r.path →
      derivedAt C disk' (move old new r.path) = some (r.values, s.linksOf r.id) := by
    intro r hr hP
    have hold := (hcurrent r.path hP).symm.trans (h.rowAt_mem hr)
    have hwalk : r.path ∈ disk.walk := by
      by_contra hgone
      rw [derivedAt_eq_none hgone] at hold
      simp at hold
    obtain ⟨file, hfile, hderive⟩ := Option.bind_eq_some_iff.mp hold
    rw [derivedAt, hrenamed.moved _ hwalk, hfile, bind_some]
    by_cases hunder : Under old r.path
    · exact derive_keeps (hkeeps r hr hunder) hderive
    · rwa [move_of_not_under hunder]
  intro q' hP
  apply Option.ext
  intro w
  constructor
  · intro hrow
    obtain ⟨x, hx, hpath, hval⟩ := ht.rowAt_eq_some.mp hrow
    rw [hnotes] at hx
    obtain ⟨r, hr, rfl⟩ := mem_map.mp hx
    rw [← hpath, ← hval, hlinksOf]
    exact hvalue r hr (hP r.path hpath)
  · intro hder
    have hwalk : q' ∈ disk'.walk := by
      by_contra hgone
      rw [derivedAt_eq_none hgone] at hder
      simp at hder
    obtain ⟨q, hq, hmove⟩ := hrenamed.only q' hwalk
    obtain ⟨file, hfile, hderive⟩ := Option.bind_eq_some_iff.mp hder
    have hfileq : disk.file q = some file := by rw [← hrenamed.moved q hq, hmove, hfile]
    have hsome : (derive C q file).isSome := by
      unfold derive at hderive ⊢
      split_ifs at hderive ⊢
      · rfl
      · obtain ⟨text, htext, -⟩ := Option.map_eq_some_iff.mp hderive
        simp [htext]
    obtain ⟨v, hv⟩ := Option.isSome_iff_exists.mp hsome
    have hrow : s.rowAt q = some v := by
      rw [hcurrent q (hP q hmove), derivedAt, hfileq, bind_some, hv]
    obtain ⟨r, hr, hpath, hval⟩ := h.rowAt_eq_some.mp hrow
    have hnew := hvalue r hr (hP r.path (by rw [hpath, hmove]))
    rw [hpath, hmove, hder] at hnew
    rw [ht.rowAt_eq_some]
    refine ⟨moveRow old new r, ?_, by rw [moveRow, hpath, hmove], ?_⟩
    · rw [hnotes]
      exact mem_map_of_mem hr
    · rw [hlinksOf]
      exact (Option.some.inj hnew).symm

omit [DecidableEq D] in
theorem derivedAt_of_same_bytes {disk' : Disk F}
    (h : (disk'.file q).map (fun f => (f.size, f.text)) = (disk.file q).map fun f => (f.size, f.text)) :
    derivedAt C disk' q = derivedAt C disk q := by
  unfold derivedAt
  cases hold : disk.file q with
  | none =>
    rw [hold, Option.map_none, Option.map_eq_none_iff] at h
    rw [h]
  | some f =>
    rw [hold, map_some, Option.map_eq_some_iff] at h
    obtain ⟨g, hg, hpair⟩ := h
    obtain ⟨hsize, htext⟩ := Prod.mk.inj hpair
    rw [hg, bind_some, bind_some, derive, derive, hsize, htext]

/-! ## Rebuilding -/

variable [DecidableEq Sha] [DecidableEq F]

variable {E : Env D Sha}

section

variable (hsha : Injective E.crates.sha256)

include hsha

theorem rebuildOne_current {indexed : List (NoteRow D Sha)}
    (h : Rows E.crates s) (hcurrent : Current E.crates disk P s) (hwalk : path ∈ disk.walk)
    (hprior : s.idForPath path = (indexed.find? (·.path = path)).map NoteRow.id) :
    ∃ t changed, Index.rebuildOne E disk indexed s path = some (t, changed) ∧ Rows E.crates t ∧
      Current E.crates disk (fun q => P q ∨ q = path ∧ indexed.find? (·.path = q) = none) t ∧
      ∀ q, q ≠ path → disk.node q ≠ none → t.idForPath q = s.idForPath q := by
  obtain ⟨file, hfile⟩ := Option.isSome_iff_exists.mp (mem_walk_iff.mp hwalk)
  simp only [Index.rebuildOne, hfile]
  by_cases hmtime : (indexed.find? (·.path = path)).any (·.mtime = file.mtime) = true
  · rw [if_pos hmtime]
    cases hfind : indexed.find? (·.path = path) with
    | none => simp [hfind] at hmtime
    | some r =>
      refine ⟨_, _, rfl, h.remember, ?_, fun q _ _ => rfl⟩
      intro q hq
      refine hcurrent q (hq.resolve_right ?_)
      intro hnew
      obtain ⟨rfl, hnone⟩ := hnew
      rw [hfind] at hnone
      simp at hnone
  · rw [if_neg hmtime]
    cases hone : s.indexOne E disk path ((indexed.find? (·.path = path)).map NoteRow.id) with
    | some result =>
      obtain ⟨t, outcome⟩ := result
      have hat := indexOne_indexedAt hsha h hprior hone
      have hcur : Current E.crates disk (fun q => P q ∨ q = path ∧ indexed.find? (·.path = q) = none) t := by
        intro q hq
        exact hat.current hcurrent q (hq.imp_right And.left)
      cases outcome with
      | indexed id => exact ⟨t, true, rfl, hat.rows, hcur, hat.ids⟩
      | unchanged => exact ⟨t, false, rfl, hat.rows, hcur, hat.ids⟩
    | none =>
      have hnone := indexOne_eq_none h hprior hone
      have htext : file.text = none := by
        simp only [derivedAt, hfile, bind_some, derive] at hnone
        split_ifs at hnone
        exact Option.map_eq_none_iff.mp hnone
      refine ⟨s, false, by simp [htext], h, ?_, fun q _ _ => rfl⟩
      intro q hq
      rcases hq with hP | ⟨rfl, hnew⟩
      · exact hcurrent q hP
      · rw [hnone, Rows.rowAt_eq_none]
        rw [hnew] at hprior
        exact idForPath_eq_none.mp hprior

theorem rebuildWalk_current {indexed : List (NoteRow D Sha)}
    (paths : List Path) (h : Rows E.crates s) (hcurrent : Current E.crates disk P s)
    (hwalk : ∀ q ∈ paths, q ∈ disk.walk) (hnodup : paths.Nodup)
    (hprior : ∀ q ∈ paths, s.idForPath q = (indexed.find? (·.path = q)).map NoteRow.id) :
    ∃ t changed, Index.rebuildWalk E disk indexed paths s = some (t, changed) ∧ Rows E.crates t ∧
      Current E.crates disk (fun q => P q ∨ q ∈ paths ∧ indexed.find? (·.path = q) = none) t := by
  induction paths generalizing s P with
  | nil => exact ⟨s, false, rfl, h, fun q hq => hcurrent q (hq.resolve_right (by simp))⟩
  | cons path paths ih =>
    obtain ⟨hnot, hnodup'⟩ := nodup_cons.mp hnodup
    obtain ⟨t, changed, hone, hrows, hcur, hids⟩ := rebuildOne_current hsha h hcurrent (hwalk path mem_cons_self)
      (hprior path mem_cons_self)
    have hprior' : ∀ q ∈ paths, t.idForPath q = (indexed.find? (·.path = q)).map NoteRow.id := by
      intro q hq
      have hne : q ≠ path := fun heq => hnot (heq ▸ hq)
      obtain ⟨file, hnode⟩ := (disk.mem_walk q).mp (hwalk q (.tail _ hq))
      rw [hids q hne (by simp [hnode])]
      exact hprior q (.tail _ hq)
    obtain ⟨u, changed', hrest, hrows', hcur'⟩ := ih hrows hcur (fun q hq => hwalk q (.tail _ hq))
      hnodup' hprior'
    refine ⟨u, changed || changed', ?_, hrows', ?_⟩
    · rw [Index.rebuildWalk, hone, bind_some, hrest, map_some]
    · intro q hq
      refine hcur' q ?_
      rcases hq with hP | ⟨hmem, hnew⟩
      · exact .inl (.inl hP)
      · rcases mem_cons.mp hmem with rfl | hmem
        · exact .inl (.inr ⟨rfl, hnew⟩)
        · exact .inr ⟨hmem, hnew⟩

/-- **A rebuild** leaves what is right and brings in every file that had no row -/
theorem rebuild_current (order : RowOrder D Sha) (h : Rows E.crates s) (hcurrent : Current E.crates disk P s) :
    Rows E.crates (s.rebuild E disk order) ∧
      Current E.crates disk (fun q => P q ∨ q ∈ disk.walk ∧ s.rowAt q = none) (s.rebuild E disk order) := by
  obtain ⟨t, changed, hwalk, hrows, hcur⟩ := rebuildWalk_current hsha disk.walk h hcurrent (fun _ hq => hq)
    disk.walk_nodup (fun _ _ => rfl)
  have hgone : ∀ r ∈ t.notes, r.id ∈ t.stale disk s.notes → r.path ∉ disk.walk := by
    intro r hr hid
    simp only [Index.stale, mem_map, mem_filter, decide_eq_true_eq] at hid
    obtain ⟨x, ⟨-, hxwalk, hxid⟩, hid⟩ := hid
    obtain ⟨y, hy, hypath, hyid⟩ := (idForPath_eq_some hrows).mp hxid
    rw [hrows.eq_of_id hr hy (by rw [hyid, hid]), hypath]
    exact hxwalk
  have hcur' : Current E.crates disk (fun q => P q ∨ q ∈ disk.walk ∧ s.rowAt q = none) t := by
    intro q hq
    refine hcur q (hq.imp_right fun hnew => ⟨hnew.1, ?_⟩)
    simpa [Index.rowAt] using hnew.2
  have hdeleted := deleteNotes_current hrows hgone hcur'
  simp only [Index.rebuild, hwalk]
  split
  · exact resolveLinks_current order _ (deleteNotes_rows hrows _) hdeleted
  · exact ⟨deleteNotes_rows hrows _, hdeleted⟩

/-- a rebuild into an empty index derives every row -/
theorem rebuild_empty (disk : Disk F) (order : RowOrder D Sha) :
    Rows E.crates ((empty : Index D Sha F).rebuild E disk order) ∧
      ∀ q, ((empty : Index D Sha F).rebuild E disk order).rowAt q = derivedAt E.crates disk q := by
  have hstart : Current E.crates disk (· ∉ disk.walk) (empty : Index D Sha F) := fun q hq => (derivedAt_eq_none hq).symm
  obtain ⟨hrows, hcur⟩ := rebuild_current hsha order Rows.empty hstart
  refine ⟨hrows, fun q => hcur q ?_⟩
  by_cases hq : q ∈ disk.walk
  · exact .inr ⟨hq, rfl⟩
  · exact .inl hq

end

/-! ## The vault -/

structure Vault (D Sha F : Type*) where
  disk : Disk F
  index : Index D Sha F
  /-- paths that have changed since an operation last looked at them -/
  pending : List Path

inductive Action (D Sha F : Type*) where
  /-- files are written, vanish, or are touched -/
  | change (disk : Disk F) (paths : List Path)
  | indexNotes (order : RowOrder D Sha) (paths : List Path)
  | removeNotes (order : RowOrder D Sha) (paths : List Path)
  /-- the app renames a file or moves a folder -/
  | renameNote (disk : Disk F) (order : RowOrder D Sha) (old new : Path)
  | rebuild (order : RowOrder D Sha)

def opened (E : Env D Sha) (disk : Disk F) (order : RowOrder D Sha) : Vault D Sha F :=
  ⟨disk, (empty : Index D Sha F).rebuild E disk order, []⟩

def act (E : Env D Sha) (v : Vault D Sha F) : Action D Sha F → Vault D Sha F
  | .change disk paths => { v with disk := disk, pending := v.pending ++ paths }
  | .indexNotes order paths =>
    { v with
      index := v.index.indexNotes E v.disk order paths
      pending := v.pending.filter fun q => q ∉ paths ∨ q ∉ v.disk.walk }
  | .removeNotes order paths =>
    { v with
      index := v.index.removeNotes E.crates order paths
      pending := v.pending.filter fun q => ∀ p ∈ paths, ¬ Under p q }
  | .renameNote disk order old new =>
    { disk := disk
      index := v.index.renameNote E.crates disk order old new
      pending := v.pending.map (move old new) }
  | .rebuild order => { v with index := v.index.rebuild E v.disk order }

/-- what the step does on the disk is what it says -/
def Matches (v : Vault D Sha F) : Action D Sha F → Prop
  | .change disk paths => ∀ q ∈ v.disk.walk ++ disk.walk, q ∉ paths →
    (disk.file q).map (fun f => (f.size, f.text)) = (v.disk.file q).map fun f => (f.size, f.text)
  | .removeNotes _ paths => ∀ p ∈ paths, ∀ q ∈ v.disk.walk, ¬ Under p q
  | .renameNote disk _ old new => Renamed v.disk disk old new
  | _ => True

/-- nothing that has a row has become unreadable, `LIKE` takes no other rows, and a rename keeps what is derived -/
def Keeps (E : Env D Sha) (v : Vault D Sha F) : Action D Sha F → Prop
  | .indexNotes _ paths => ∀ p ∈ paths, p ∈ v.disk.walk → derivedAt E.crates v.disk p = none → v.index.rowAt p = none
  | .removeNotes _ paths => ∀ p ∈ paths, ∀ r ∈ v.index.notes, likeBelow p r.path → r.path ∉ v.disk.walk
  | .renameNote _ _ old new => Clear v.index old new ∧
    ∀ r ∈ v.index.notes, Under old r.path →
      NameKeeps E.crates r.path (move old new r.path) (r.values, v.index.linksOf r.id)
  | _ => True

/-- every path without a pending change has its row -/
structure Settled (E : Env D Sha) (v : Vault D Sha F) : Prop where
  rows : Rows E.crates v.index
  current : Current E.crates v.disk (· ∉ v.pending) v.index

/-- **Step.** -/
theorem Settled.act (hsha : Injective E.crates.sha256) {v : Vault D Sha F} (h : Settled E v)
    (a : Action D Sha F) (hmatches : Matches v a) (hkeeps : Keeps E v a) : Settled E (act E v a) := by
  cases a with
  | change disk paths =>
    refine ⟨h.rows, ?_⟩
    intro q hq
    simp only [NoteIndex.act, mem_append, not_or] at hq
    change v.index.rowAt q = derivedAt E.crates disk q
    have hsame : derivedAt E.crates disk q = derivedAt E.crates v.disk q := by
      by_cases hwalk : q ∈ v.disk.walk ++ disk.walk
      · exact derivedAt_of_same_bytes (hmatches q hwalk hq.2)
      · simp only [mem_append, not_or] at hwalk
        rw [derivedAt_eq_none hwalk.1, derivedAt_eq_none hwalk.2]
    rw [hsame]
    exact h.current q hq.1
  | indexNotes order paths =>
    obtain ⟨hrows, hcurrent⟩ := indexRows_current hsha paths h.rows h.current hkeeps
    have hcommit := commitBatch_current order hrows hcurrent
    refine ⟨hcommit.1, fun q hq => hcommit.2 q ?_⟩
    simp only [NoteIndex.act, mem_filter, decide_eq_true_eq, not_and, not_or, not_not] at hq
    by_cases hpending : q ∈ v.pending
    · exact .inr (hq hpending)
    · exact .inl hpending
  | removeNotes order paths =>
    obtain ⟨hrows, hcurrent⟩ := removeRows_current paths h.rows h.current hmatches hkeeps
    have hcommit := commitBatch_current order hrows hcurrent
    refine ⟨hcommit.1, fun q hq => hcommit.2 q ?_⟩
    simp only [NoteIndex.act, mem_filter, decide_eq_true_eq, not_and] at hq
    by_cases hpending : q ∈ v.pending
    · have hcovered := hq hpending
      push Not at hcovered
      exact .inr hcovered
    · exact .inl hpending
  | renameNote disk order old new =>
    obtain ⟨hclear, hnames⟩ := hkeeps
    obtain ⟨t, ht, hlinks, hnotes⟩ := renameRows_notes h.rows disk hclear
    have hrows := moved_rows h.rows hclear hnames hlinks hnotes
    have hcurrent := moved_current h.rows hrows hmatches hnames hlinks hnotes h.current
    have hresolved := resolveLinks_current order .all hrows hcurrent
    have hindex : v.index.renameNote E.crates disk order old new = t.resolveLinks E.crates order .all := by
      rw [Index.renameNote, ht]
    refine ⟨?_, ?_⟩
    · simp only [NoteIndex.act, hindex]
      exact hresolved.1
    · intro q' hq'
      simp only [NoteIndex.act, hindex] at hq' ⊢
      refine hresolved.2 q' ?_
      intro q hmove hq
      exact hq' (hmove ▸ mem_map_of_mem hq)
  | rebuild order =>
    obtain ⟨hrows, hcurrent⟩ := rebuild_current hsha order h.rows h.current
    exact ⟨hrows, fun q hq => hcurrent q (.inl hq)⟩

/-- **The index is a function of the files** in every run whose operations match the changes and whose renames, removals
and reads keep to `Keeps`: every path whose changes have been followed has the row a rebuild would derive. -/
theorem index_is_rebuilt (E : Env D Sha) (hsha : Injective E.crates.sha256) (disk : Disk F)
    (order : RowOrder D Sha) (as : List (Action D Sha F))
    (h : Machine.Guarded (act E) (fun v a => Matches v a ∧ Keeps E v a) (opened E disk order) as) (path : Path)
    (hpath : path ∉ (Machine.run (act E) (opened E disk order) as).pending) (anyOrder : RowOrder D Sha) :
    (Machine.run (act E) (opened E disk order) as).index.rowAt path =
      ((empty : Index D Sha F).rebuild E (Machine.run (act E) (opened E disk order) as).disk anyOrder).rowAt path := by
  have hstart : Settled E (opened E disk order) := by
    obtain ⟨hrows, hall⟩ := rebuild_empty hsha disk order
    exact ⟨hrows, fun q _ => hall q⟩
  have hstep : ∀ (v : Vault D Sha F) a, Settled E v → (Matches v a ∧ Keeps E v a) → Settled E (act E v a) :=
    fun v a hv ha => hv.act hsha a ha.1 ha.2
  have hsettled := Machine.run_inv hstep hstart h
  rw [(rebuild_empty hsha _ anyOrder).2 path]
  exact hsettled.current path hpath

/-! ## Runs -/

def fooFile : File ℕ := aFile "some text"

def fooDisk : Disk ℕ := .ofFiles [("foo.md".toList, fooFile), ("b.md".toList, aFile "# B")] (by decide)

/-- `b.md` has been rewritten -/
def rewrittenDisk : Disk ℕ := .ofFiles [("foo.md".toList, fooFile), ("b.md".toList, aFile "# C")] (by decide)

/-- and `foo.md` moved into a folder -/
def movedDisk : Disk ℕ := .ofFiles [("sub/foo.md".toList, fooFile), ("b.md".toList, aFile "# C")] (by decide)

def movedRun : List (Action ℕ Text ℕ) :=
  [.change rewrittenDisk ["b.md".toList], .indexNotes insertionOrder ["b.md".toList],
    .renameNote movedDisk insertionOrder "foo.md".toList "sub/foo.md".toList, .rebuild insertionOrder]

theorem moved_note_is_rebuilt :
    (Machine.run (act plainEnv) (opened plainEnv fooDisk insertionOrder) movedRun).index.rowAt "sub/foo.md".toList =
      ((empty : Index ℕ Text ℕ).rebuild plainEnv
        (Machine.run (act plainEnv) (opened plainEnv fooDisk insertionOrder) movedRun).disk insertionOrder).rowAt
          "sub/foo.md".toList := by
  refine index_is_rebuilt plainEnv injective_id fooDisk insertionOrder movedRun ?_ _ (by decide +kernel) _
  have hchange : ∀ q ∈ fooDisk.walk ++ rewrittenDisk.walk, q ∉ ["b.md".toList] →
      (rewrittenDisk.file q).map (fun f => (f.size, f.text)) = (fooDisk.file q).map fun f => (f.size, f.text) := by
    decide +kernel
  have hread : ∀ p ∈ ["b.md".toList], p ∈ rewrittenDisk.walk → derivedAt plainCrates rewrittenDisk p = none →
      (opened plainEnv fooDisk insertionOrder).index.rowAt p = none := by
    decide +kernel
  have hname : ∀ r ∈ (Machine.run (act plainEnv) (opened plainEnv fooDisk insertionOrder)
      (movedRun.take 2)).index.notes, Under "foo.md".toList r.path →
        lastPart r.path = lastPart (move "foo.md".toList "sub/foo.md".toList r.path) := by
    decide +kernel
  refine ⟨⟨hchange, trivial⟩, ⟨trivial, hread⟩, ⟨⟨?_, ?_, ?_⟩, ⟨?_, ?_, ?_, ?_⟩, ?_⟩, ⟨trivial, trivial⟩, trivial⟩
  iterate 7 decide +kernel
  exact fun r hr hunder => nameKeeps_of_same_name (hname r hr hunder) _

/-- `foo.md` has been renamed -/
def barDisk : Disk ℕ := .ofFiles [("bar.md".toList, fooFile), ("b.md".toList, aFile "# B")] (by decide)

def formerNameRun : List (Action ℕ Text ℕ) :=
  [.renameNote barDisk insertionOrder "foo.md".toList "bar.md".toList, .indexNotes insertionOrder ["bar.md".toList],
    .rebuild insertionOrder]

/-- **A title taken from the file's former name.** `bar.md` is still titled `foo`, after `index_notes` and a rebuild. -/
theorem title_of_former_name :
    (Machine.run (act plainEnv) (opened plainEnv fooDisk insertionOrder) formerNameRun).index.rowAt "bar.md".toList ≠
      ((empty : Index ℕ Text ℕ).rebuild plainEnv barDisk insertionOrder).rowAt "bar.md".toList := by
  decide +kernel

end Baalda.NoteIndex
