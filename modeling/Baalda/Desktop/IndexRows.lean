/-
The rows of the local index, one operation at a time.

`rowAt` is what the index holds of the note at a path, `derivedAt` what the file there derives to under its name, and
`Current P` that the two agree on the paths of `P`.

- `Rows`: ids and paths are keys, and a row with a hash is derived from a text of that hash under its present name. It
  is what lets the hash gate keep a row;
- `Wrote`: what writing one note does to the rows (`putNote_wrote`); `IndexedAt`: what `index_one` does
  (`indexOne_indexedAt`, through both gates);
- `indexRows_current`, `removeRows_current`: a batch brings its own paths up to date and leaves the others so.
-/
import Baalda.Desktop.LinkScope

namespace Baalda.NoteIndex

open List

variable {D Sha F : Type*}

/-! ## Rows -/

/-- what a file derives to under its name, if it can be read -/
def derive (C : Crates Sha) (path : Path) (file : File F) : Option (Values Sha × List ParsedLink) :=
  if MAX_INDEX_BYTES < file.size then some (oversized path) else file.text.map (parsedValues C path)

def derivedAt (C : Crates Sha) (disk : Disk F) (path : Path) : Option (Values Sha × List ParsedLink) :=
  (disk.file path).bind (derive C path)

variable {disk : Disk F} {path : Path}

theorem mem_walk_iff : path ∈ disk.walk ↔ (disk.file path).isSome := by
  rw [disk.mem_walk]
  unfold Disk.file
  constructor
  · intro h
    obtain ⟨file, hfile⟩ := h
    simp [hfile]
  · intro h
    split at h
    next file hfile => exact ⟨file, hfile⟩
    next => simp at h

variable {C : Crates Sha}

theorem derivedAt_eq_none (h : path ∉ disk.walk) : derivedAt C disk path = none := by
  rw [mem_walk_iff, Bool.not_eq_true, Option.isSome_eq_false_iff, Option.isNone_iff_eq_none] at h
  simp [derivedAt, h]

theorem find_path {rows : List (NoteRow D Sha)} (h : (rows.map NoteRow.path).Nodup) {r : NoteRow D Sha} :
    rows.find? (·.path = path) = some r ↔ r ∈ rows ∧ r.path = path := by
  constructor
  · intro hfind
    exact ⟨mem_of_find?_eq_some hfind, by simpa using find?_some hfind⟩
  · intro hr
    obtain ⟨hmem, hpath⟩ := hr
    cases hfind : rows.find? (·.path = path) with
    | none => exact absurd hpath (by simpa using find?_eq_none.mp hfind r hmem)
    | some q =>
      have hq : q.path = path := by simpa using find?_some hfind
      have hsame := inj_on_of_nodup_map h (mem_of_find?_eq_some hfind) hmem (hq.trans hpath.symm)
      rw [hsame]

variable {s : Index D Sha F}

theorem idForPath_eq_none : s.idForPath path = none ↔ ∀ r ∈ s.notes, r.path ≠ path := by
  simp [Index.idForPath, find?_eq_none]

/-- the path itself or one below it -/
def Under (rel path : Path) : Prop := path = rel ∨ Below rel path

instance (rel path : Path) : Decidable (Under rel path) := inferInstanceAs (Decidable (_ ∨ _))

variable {id : D}

theorem mem_victims : id ∈ s.victims path ↔ ∃ r ∈ s.notes, (r.path = path ∨ likeBelow path r.path) ∧ r.id = id := by
  simp [Index.victims, and_assoc]

variable [DecidableEq D]

namespace Index

variable (s : Index D Sha F)

def linksOf (id : D) : List ParsedLink := (s.links.filter (·.src = id)).map LinkRow.link

/-- what the index holds of the note at a path: its columns, and its links without their answers -/
def rowAt (path : Path) : Option (Values Sha × List ParsedLink) :=
  (s.notes.find? (·.path = path)).map fun r => (r.values, s.linksOf r.id)

end Index

/-- ids and paths are keys, and a row with a hash is derived from a text of that hash -/
structure Rows (C : Crates Sha) (s : Index D Sha F) : Prop where
  ids : (s.notes.map NoteRow.id).Nodup
  paths : (s.notes.map NoteRow.path).Nodup
  derived : ∀ r ∈ s.notes, ∀ sha, r.values.sha256 = some sha →
    ∃ text, C.sha256 text = sha ∧ (r.values, s.linksOf r.id) = parsedValues C r.path text

namespace Rows

variable {C : Crates Sha} {s : Index D Sha F}

theorem rowAt_eq_some (h : Rows C s) {path : Path} {v : Values Sha × List ParsedLink} :
    s.rowAt path = some v ↔ ∃ r ∈ s.notes, r.path = path ∧ (r.values, s.linksOf r.id) = v := by
  simp only [Index.rowAt, Option.map_eq_some_iff, find_path h.paths, and_assoc]

theorem rowAt_eq_none {path : Path} : s.rowAt path = none ↔ ∀ r ∈ s.notes, r.path ≠ path := by
  simp [Index.rowAt, find?_eq_none]

variable {r : NoteRow D Sha}

theorem rowAt_mem (h : Rows C s) (hr : r ∈ s.notes) : s.rowAt r.path = some (r.values, s.linksOf r.id) :=
  h.rowAt_eq_some.mpr ⟨r, hr, rfl, rfl⟩

theorem eq_of_id (h : Rows C s) {q : NoteRow D Sha} (hr : r ∈ s.notes) (hq : q ∈ s.notes) (hid : r.id = q.id) :
    r = q :=
  inj_on_of_nodup_map h.ids hr hq hid

theorem eq_of_path (h : Rows C s) {q : NoteRow D Sha} (hr : r ∈ s.notes) (hq : q ∈ s.notes) (hpath : r.path = q.path) :
    r = q :=
  inj_on_of_nodup_map h.paths hr hq hpath

theorem remember (h : Rows C s) {id : D} {path : Path} {identity : Option F} :
    Rows C (s.rememberFileIdentity id path identity) := ⟨h.ids, h.paths, h.derived⟩

theorem empty : Rows C (empty : Index D Sha F) := ⟨nodup_nil, nodup_nil, by simp [NoteIndex.empty]⟩

end Rows

theorem idForPath_eq_some (h : Rows C s) : s.idForPath path = some id ↔ ∃ r ∈ s.notes, r.path = path ∧ r.id = id := by
  simp only [Index.idForPath, Option.map_eq_some_iff, find_path h.paths, and_assoc]

/-! ## Writing one note -/

variable {t : Index D Sha F} {row : NoteRow D Sha}

theorem mem_upsertNote (h : s.upsertNote row = some t) (r : NoteRow D Sha) :
    r ∈ t.notes ↔ r = row ∨ r ∈ s.notes ∧ r.id ≠ row.id := by
  unfold Index.upsertNote at h
  split_ifs at h with hconflict hid
  · cases h
    obtain ⟨old, hold, hoid⟩ := any_eq_true.mp hid
    simp only [mem_map]
    constructor
    · intro hmem
      obtain ⟨q, hq, rfl⟩ := hmem
      by_cases hqid : q.id = row.id
      · exact .inl (if_pos hqid)
      · rw [if_neg hqid]
        exact .inr ⟨hq, hqid⟩
    · intro hmem
      rcases hmem with rfl | ⟨hq, hqid⟩
      · exact ⟨old, hold, if_pos (by simpa using hoid)⟩
      · exact ⟨r, hq, if_neg hqid⟩
  · cases h
    have hnew : ∀ q ∈ s.notes, q.id ≠ row.id := by simpa using hid
    simp only [mem_append, mem_singleton]
    constructor
    · intro hmem
      rcases hmem with hq | rfl
      · exact .inr ⟨hq, hnew r hq⟩
      · exact .inl rfl
    · intro hmem
      rcases hmem with rfl | ⟨hq, -⟩
      · exact .inr rfl
      · exact .inl hq

theorem upsertNote_conflict (h : s.upsertNote row = some t) : ∀ r ∈ s.notes, r.path = row.path → r.id = row.id := by
  unfold Index.upsertNote at h
  split_ifs at h with hconflict
  all_goals
    intro r hr hpath
    by_contra hid
    exact hconflict (any_eq_true.mpr ⟨r, hr, by simp [hpath, hid]⟩)

theorem upsertNote_nodup (hrows : Rows C s) (h : s.upsertNote row = some t) :
    (t.notes.map NoteRow.id).Nodup ∧ (t.notes.map NoteRow.path).Nodup := by
  have hconflict := upsertNote_conflict h
  have hpath : ∀ r ∈ s.notes, r.id ≠ row.id → r.path ≠ row.path := fun r hr hid hp => hid (hconflict r hr hp)
  unfold Index.upsertNote at h
  split_ifs at h with hany hid
  · cases h
    have hids : ∀ r : NoteRow D Sha, (if r.id = row.id then row else r).id = r.id := by
      intro r
      split_ifs with hr
      · exact hr.symm
      · rfl
    simp only [map_map, Function.comp_def, hids]
    refine ⟨hrows.ids, List.Nodup.map_on ?_ hrows.ids.of_map⟩
    intro x hx y hy hxy
    by_cases hxid : x.id = row.id <;> by_cases hyid : y.id = row.id
    · exact hrows.eq_of_id hx hy (hxid.trans hyid.symm)
    · rw [if_pos hxid, if_neg hyid] at hxy
      exact absurd hxy.symm (hpath y hy hyid)
    · rw [if_neg hxid, if_pos hyid] at hxy
      exact absurd hxy (hpath x hx hxid)
    · rw [if_neg hxid, if_neg hyid] at hxy
      exact hrows.eq_of_path hx hy hxy
  · cases h
    have hnew : ∀ q ∈ s.notes, q.id ≠ row.id := by simpa using hid
    simp only [map_append, map_cons, map_nil]
    constructor
    · refine nodup_append.mpr ⟨hrows.ids, nodup_singleton _, ?_⟩
      intro a ha b hb
      obtain ⟨q, hq, rfl⟩ := mem_map.mp ha
      rw [mem_singleton.mp hb]
      exact hnew q hq
    · refine nodup_append.mpr ⟨hrows.paths, nodup_singleton _, ?_⟩
      intro a ha b hb
      obtain ⟨q, hq, rfl⟩ := mem_map.mp ha
      rw [mem_singleton.mp hb]
      exact hpath q hq (hnew q hq)

theorem upsertNote_links (h : s.upsertNote row = some t) : t.links = s.links := by
  unfold Index.upsertNote at h
  split_ifs at h
  all_goals
    cases h
    rfl

theorem linksOf_putLinks (s : Index D Sha F) (id : D) (links : List ParsedLink) (q : D) :
    (s.putLinks id links).linksOf q = if q = id then links else s.linksOf q := by
  simp only [Index.linksOf, Index.putLinks, filter_append, filter_filter, map_append]
  by_cases hq : q = id
  · subst hq
    have hold : (s.links.filter fun l => decide (l.src = q) && decide (l.src ≠ q)) = [] := by
      simp
    have hnew : ((links.map fun l => LinkRow.mk q none l).filter fun l => decide (l.src = q)).map LinkRow.link =
        links := by
      simp [filter_map, Function.comp_def]
    rw [if_pos rfl, hold, hnew, map_nil, nil_append]
  · have hold : (fun l : LinkRow D => decide (l.src = q) && decide (l.src ≠ id)) = fun l => decide (l.src = q) := by
      funext l
      by_cases hl : l.src = q
      · simp [hl, hq]
      · simp [hl]
    have hnew : ((links.map fun l => LinkRow.mk id none l).filter fun l => decide (l.src = q)) = [] := by
      simp [filter_map, Function.comp_def, Ne.symm hq]
    rw [if_neg hq, hold, hnew, map_nil, append_nil]

/-- the row of one id now stands at `path` with these values; all other rows are as they were -/
structure Wrote (s t : Index D Sha F) (id : D) (path : Path) (v : Values Sha × List ParsedLink) : Prop where
  row : ∃ row ∈ t.notes, row.id = id ∧ row.path = path ∧ (row.values, t.linksOf row.id) = v
  others : ∀ r, r.id ≠ id → (r ∈ t.notes ↔ r ∈ s.notes)
  links : ∀ q, q ≠ id → t.linksOf q = s.linksOf q

variable {file : File F} {v : Values Sha × List ParsedLink}

theorem putNote_wrote (h : s.putNote id path file v = some t) : Wrote s t id path v := by
  obtain ⟨u, hu, rfl⟩ := Option.map_eq_some_iff.mp h
  have hlinks : ∀ q, ((u.putLinks id v.2).rememberFileIdentity id path file.identity).linksOf q =
      if q = id then v.2 else s.linksOf q := by
    intro q
    have hsame : u.linksOf q = s.linksOf q := by simp only [Index.linksOf, upsertNote_links hu]
    rw [← hsame]
    exact linksOf_putLinks u id v.2 q
  refine ⟨?_, ?_, ?_⟩
  · refine ⟨⟨id, path, file.mtime, v.1⟩, (mem_upsertNote hu _).mpr (.inl rfl), rfl, rfl, ?_⟩
    rw [hlinks, if_pos rfl]
  · intro r hr
    change r ∈ u.notes ↔ r ∈ s.notes
    rw [mem_upsertNote hu]
    constructor
    · intro hmem
      rcases hmem with rfl | ⟨hmem, -⟩
      · exact absurd rfl hr
      · exact hmem
    · exact fun hmem => .inr ⟨hmem, hr⟩
  · intro q hq
    rw [hlinks, if_neg hq]

/-- a value that a row may have under this path -/
def Derives (C : Crates Sha) (path : Path) (v : Values Sha × List ParsedLink) : Prop :=
  ∀ sha, v.1.sha256 = some sha → ∃ text, C.sha256 text = sha ∧ v = parsedValues C path text

theorem derive_derives (h : derive C path file = some v) : Derives C path v := by
  intro sha hsha
  unfold derive at h
  split_ifs at h with hsize
  · cases h
    simp [oversized] at hsha
  · obtain ⟨text, -, rfl⟩ := Option.map_eq_some_iff.mp h
    exact ⟨text, Option.some.inj hsha, rfl⟩

theorem putNote_rows (hrows : Rows C s) (hv : Derives C path v) (h : s.putNote id path file v = some t) :
    Rows C t := by
  have hwrote := putNote_wrote h
  obtain ⟨u, hu, rfl⟩ := Option.map_eq_some_iff.mp h
  obtain ⟨hids, hpaths⟩ := upsertNote_nodup hrows hu
  refine ⟨hids, hpaths, ?_⟩
  intro r hr sha hsha
  by_cases hrid : r.id = id
  · obtain ⟨row, hrow, hid, hpath, hval⟩ := hwrote.row
    have hsame : r = row := inj_on_of_nodup_map hids hr hrow (hrid.trans hid.symm)
    rw [hsame] at hsha ⊢
    rw [hval, hpath]
    refine hv sha ?_
    rw [← hval]
    exact hsha
  · have hold := (hwrote.others r hrid).mp hr
    rw [hwrote.links r.id hrid]
    exact hrows.derived r hold sha hsha

namespace Wrote

variable {C : Crates Sha} {s t : Index D Sha F} {id : D} {path : Path} {v : Values Sha × List ParsedLink}

theorem rowAt_self (h : Wrote s t id path v) (ht : Rows C t) : t.rowAt path = some v := by
  obtain ⟨row, hrow, -, hpath, hval⟩ := h.row
  exact ht.rowAt_eq_some.mpr ⟨row, hrow, hpath, hval⟩

/-- at another path stands what stood there, unless it was the row that has moved -/
theorem rowAt_other (h : Wrote s t id path v) (hs : Rows C s) (ht : Rows C t) {q : Path} (hq : q ≠ path)
    (w : Values Sha × List ParsedLink) :
    t.rowAt q = some w ↔ s.rowAt q = some w ∧ ∀ r ∈ s.notes, r.path = q → r.id ≠ id := by
  have hmoved : ∀ r ∈ t.notes, r.path = q → r.id ≠ id := by
    intro r hr hrq hid
    obtain ⟨row, hrow, hrowid, hpath, -⟩ := h.row
    rw [ht.eq_of_id hr hrow (hid.trans hrowid.symm), hpath] at hrq
    exact hq hrq.symm
  rw [ht.rowAt_eq_some, hs.rowAt_eq_some]
  constructor
  · intro hex
    obtain ⟨r, hr, hrq, hval⟩ := hex
    have hid := hmoved r hr hrq
    have hold := (h.others r hid).mp hr
    rw [h.links r.id hid] at hval
    refine ⟨⟨r, hold, hrq, hval⟩, ?_⟩
    intro x hx hxq
    rwa [hs.eq_of_path hx hold (hxq.trans hrq.symm)]
  · intro hex
    obtain ⟨⟨r, hr, hrq, hval⟩, hstay⟩ := hex
    have hid := hstay r hr hrq
    refine ⟨r, (h.others r hid).mpr hr, hrq, ?_⟩
    rw [h.links r.id hid]
    exact hval

theorem idForPath_other (h : Wrote s t id path v) (hs : Rows C s) (ht : Rows C t) {q : Path} (hq : q ≠ path)
    (hstay : ∀ r ∈ s.notes, r.path = q → r.id ≠ id) : t.idForPath q = s.idForPath q := by
  apply Option.ext
  intro x
  rw [idForPath_eq_some ht, idForPath_eq_some hs]
  constructor
  · intro hex
    obtain ⟨r, hr, hrq, hid⟩ := hex
    have hrid : r.id ≠ id := by
      intro hsame
      obtain ⟨row, hrow, hrowid, hpath, -⟩ := h.row
      rw [ht.eq_of_id hr hrow (hsame.trans hrowid.symm), hpath] at hrq
      exact hq hrq.symm
    exact ⟨r, (h.others r hrid).mp hr, hrq, hid⟩
  · intro hex
    obtain ⟨r, hr, hrq, hid⟩ := hex
    exact ⟨r, (h.others r (hstay r hr hrq)).mpr hr, hrq, hid⟩

end Wrote

/-! ## One file -/

theorem refreshed_fields (id : D) (mtime : ℤ) (r : NoteRow D Sha) :
    (if r.id = id then { r with mtime := mtime } else r).path = r.path ∧
      (if r.id = id then { r with mtime := mtime } else r).id = r.id ∧
      (if r.id = id then { r with mtime := mtime } else r).values = r.values := by
  split <;> exact ⟨rfl, rfl, rfl⟩

theorem refreshMtime_rowAt (s : Index D Sha F) (id : D) (mtime : ℤ) (path : Path) :
    (s.refreshMtime id mtime).rowAt path = s.rowAt path := by
  simp only [Index.rowAt, Index.refreshMtime, find?_map, Option.map_map, Function.comp_def,
    (refreshed_fields id mtime _).1, (refreshed_fields id mtime _).2.1, (refreshed_fields id mtime _).2.2]
  rfl

theorem refreshMtime_idForPath (s : Index D Sha F) (id : D) (mtime : ℤ) (path : Path) :
    (s.refreshMtime id mtime).idForPath path = s.idForPath path := by
  simp only [Index.idForPath, Index.refreshMtime, find?_map, Option.map_map, Function.comp_def,
    (refreshed_fields id mtime _).1, (refreshed_fields id mtime _).2.1]

theorem refreshMtime_rows (h : Rows C s) (id : D) (mtime : ℤ) : Rows C (s.refreshMtime id mtime) := by
  refine ⟨?_, ?_, ?_⟩
  · simp only [Index.refreshMtime, map_map, Function.comp_def, (refreshed_fields id mtime _).2.1]
    exact h.ids
  · simp only [Index.refreshMtime, map_map, Function.comp_def, (refreshed_fields id mtime _).1]
    exact h.paths
  · intro r hr sha hsha
    obtain ⟨q, hq, rfl⟩ := mem_map.mp hr
    obtain ⟨hpath, hid, hvalues⟩ := refreshed_fields id mtime q
    rw [hvalues] at hsha ⊢
    rw [hpath, hid]
    exact h.derived q hq sha hsha

variable {E : Env D Sha}

/-- the id the file is written under: rows of that id stand at the path, or at one that is gone from the disk -/
theorem chosen_id [DecidableEq F] (h : Rows E.crates s) (disk : Disk F) (path : Path)
    (hid : ((s.idForPath path).orElse fun _ => s.idForExternalMove disk path).getD (E.newId s.used) = id) :
    (∀ r ∈ s.notes, r.path = path → r.id = id) ∧
      ∀ r ∈ s.notes, r.id = id → r.path = path ∨ disk.node r.path = none := by
  cases hreuse : s.idForPath path with
  | some x =>
    obtain rfl : x = id := by simpa [hreuse] using hid
    obtain ⟨q, hq, hqpath, hqid⟩ := (idForPath_eq_some h).mp hreuse
    constructor
    · intro r hr hpath
      rw [h.eq_of_path hr hq (hpath.trans hqpath.symm), hqid]
    · intro r hr hrid
      rw [h.eq_of_id hr hq (hrid.trans hqid.symm)]
      exact .inl hqpath
  | none =>
    have hnone := idForPath_eq_none.mp hreuse
    refine ⟨fun r hr hpath => absurd hpath (hnone r hr), ?_⟩
    intro r hr hrid
    right
    cases hmove : s.idForExternalMove disk path with
    | none =>
      obtain rfl : E.newId s.used = id := by simpa [hreuse, hmove] using hid
      have hused : r.id ∈ s.used := mem_append_left _ (mem_append_left _ (mem_map_of_mem hr))
      rw [hrid] at hused
      exact absurd hused (E.newId_fresh _)
    | some x =>
      obtain rfl : x = id := by simpa [hreuse, hmove] using hid
      unfold Index.idForExternalMove at hmove
      split at hmove
      next => simp at hmove
      next fileId hfileId =>
        split at hmove
        next i hi =>
          split_ifs at hmove with hgone
          have hdoc : i.docId = x := Option.some.inj hmove
          have hlast : s.lastPath i = r.path := by
            have hfind : s.notes.find? (·.id = i.docId) = some r := by
              cases hf : s.notes.find? (·.id = i.docId) with
              | none => exact absurd (hrid.trans hdoc.symm) (by simpa using find?_eq_none.mp hf r hr)
              | some y =>
                have hy : y.id = i.docId := by simpa using find?_some hf
                rw [h.eq_of_id (mem_of_find?_eq_some hf) hr (hy.trans (hdoc.trans hrid.symm))]
            simp [Index.lastPath, hfind]
          rwa [← hlast]
        next => simp at hmove

/-- what `index_one` does to the rows -/
structure IndexedAt (C : Crates Sha) (disk : Disk F) (path : Path) (s t : Index D Sha F) : Prop where
  rows : Rows C t
  here : t.rowAt path = derivedAt C disk path
  there : ∀ q, q ≠ path → ∀ w, t.rowAt q = some w → s.rowAt q = some w
  kept : ∀ q, q ≠ path → disk.node q ≠ none → t.rowAt q = s.rowAt q
  ids : ∀ q, q ≠ path → disk.node q ≠ none → t.idForPath q = s.idForPath q

theorem Wrote.indexedAt (h : Wrote s t id path v) (hs : Rows C s) (ht : Rows C t)
    (hv : derivedAt C disk path = some v) (hid : ∀ r ∈ s.notes, r.id = id → r.path = path ∨ disk.node r.path = none) :
    IndexedAt C disk path s t := by
  have hstay : ∀ q, q ≠ path → disk.node q ≠ none → ∀ r ∈ s.notes, r.path = q → r.id ≠ id := by
    intro q hq hnode r hr hrq hrid
    rcases hid r hr hrid with hpath | hgone
    · exact hq (hrq.symm.trans hpath)
    · rw [hrq] at hgone
      exact hnode hgone
  refine ⟨ht, (h.rowAt_self ht).trans hv.symm, ?_, ?_, ?_⟩
  · intro q hq w hw
    exact ((h.rowAt_other hs ht hq w).mp hw).1
  · intro q hq hnode
    apply Option.ext
    intro w
    rw [h.rowAt_other hs ht hq w]
    exact and_iff_left (hstay q hq hnode)
  · intro q hq hnode
    exact h.idForPath_other hs ht hq (hstay q hq hnode)

variable {reuse : Option D}

/-- a row that the hash gate keeps is derived from the text on disk -/
theorem hashGate_row [DecidableEq Sha] (hsha : Function.Injective C.sha256) (h : Rows C s) {text : Text}
    {r : NoteRow D Sha} (hgate : s.hashGate reuse path (C.sha256 text) = some r) :
    s.rowAt path = some (parsedValues C path text) := by
  obtain ⟨id, -, hfind⟩ := Option.bind_eq_some_iff.mp hgate
  have hr := mem_of_find?_eq_some hfind
  have hcond : r.id = id ∧ r.path = path ∧ r.values.sha256 = some (C.sha256 text) := by
    simpa using find?_some hfind
  obtain ⟨-, hpath, hhash⟩ := hcond
  obtain ⟨text', htext, hval⟩ := h.derived r hr _ hhash
  have hsame := h.rowAt_mem hr
  rw [hval, hpath, hsha htext] at hsame
  exact hsame

theorem putNote_isSome (hid : ∀ r ∈ s.notes, r.path = path → r.id = id) : s.putNote id path file v ≠ none := by
  have hconflict : ¬ (s.notes.any fun r => r.path = path ∧ r.id ≠ id) = true := by
    intro hany
    obtain ⟨r, hr, hcond⟩ := any_eq_true.mp hany
    simp only [decide_eq_true_eq] at hcond
    exact hcond.2 (hid r hr hcond.1)
  intro hnone
  rw [Index.putNote, Option.map_eq_none_iff, Index.upsertNote, if_neg hconflict] at hnone
  split_ifs at hnone

/-! ## Paths that are up to date -/

/-- the paths of `P` have the rows their files derive to -/
def Current (C : Crates Sha) (disk : Disk F) (P : Path → Prop) (s : Index D Sha F) : Prop :=
  ∀ q, P q → s.rowAt q = derivedAt C disk q

variable {P : Path → Prop}

theorem IndexedAt.current (h : IndexedAt C disk path s t) (hcurrent : Current C disk P s) :
    Current C disk (fun q => P q ∨ q = path) t := by
  intro q hq
  by_cases hpath : q = path
  · rw [hpath]
    exact h.here
  · have hP : P q := hq.resolve_right hpath
    cases hnode : disk.node q with
    | some node => rw [h.kept q hpath (by simp [hnode]), hcurrent q hP]
    | none =>
      have hnone : derivedAt C disk q = none := by simp [derivedAt, Disk.file, hnode]
      have hs : s.rowAt q = none := (hcurrent q hP).trans hnone
      rw [hnone]
      cases ht : t.rowAt q with
      | none => rfl
      | some w => exact absurd (h.there q hpath w ht) (by simp [hs])

theorem resolveLinks_linksOf (C : Crates Sha) (order : RowOrder D Sha) (scope : LinkScope D) (s : Index D Sha F)
    (id : D) : (s.resolveLinks C order scope).linksOf id = s.linksOf id := by
  have hsame : ∀ l : LinkRow D, (if scope.takes l then
      { l with dst := lookup C (order.order s.notes) l.link.target } else l).src = l.src ∧
      (if scope.takes l then { l with dst := lookup C (order.order s.notes) l.link.target } else l).link = l.link := by
    intro l
    split <;> exact ⟨rfl, rfl⟩
  simp only [Index.linksOf, Index.resolveLinks, filter_map, map_map, Function.comp_def, (hsame _).1,
    (hsame _).2]

/-- a link pass changes answers only -/
theorem resolveLinks_current (order : RowOrder D Sha) (scope : LinkScope D) (h : Rows C s)
    (hcurrent : Current C disk P s) :
    Rows C (s.resolveLinks C order scope) ∧ Current C disk P (s.resolveLinks C order scope) := by
  refine ⟨⟨h.ids, h.paths, ?_⟩, ?_⟩
  · intro r hr sha hsha
    rw [resolveLinks_linksOf]
    exact h.derived r hr sha hsha
  · intro q hq
    rw [← hcurrent q hq]
    simp only [Index.rowAt, resolveLinks_linksOf]
    rfl

theorem commitBatch_current (order : RowOrder D Sha) {batch : Index D Sha F × List D} (h : Rows C batch.1)
    (hcurrent : Current C disk P batch.1) :
    Rows C (Index.commitBatch C order batch) ∧ Current C disk P (Index.commitBatch C order batch) := by
  unfold Index.commitBatch
  split
  · exact ⟨h, hcurrent⟩
  · exact resolveLinks_current order _ h hcurrent

/-! ## Removals -/

theorem deleteNotes_linksOf (s : Index D Sha F) {ids : List D} (h : id ∉ ids) :
    (s.deleteNotes ids).linksOf id = s.linksOf id := by
  have hsame : (fun l : LinkRow D => decide (l.src = id) && decide (l.src ∉ ids)) = fun l => decide (l.src = id) := by
    funext l
    by_cases hl : l.src = id
    · simp [hl, h]
    · simp [hl]
  simp only [Index.linksOf, Index.deleteNotes, filter_filter, hsame]

theorem deleteNotes_rows (h : Rows C s) (ids : List D) : Rows C (s.deleteNotes ids) := by
  have hsub : (s.deleteNotes ids).notes.Sublist s.notes := filter_sublist
  refine ⟨h.ids.sublist (hsub.map _), h.paths.sublist (hsub.map _), ?_⟩
  intro r hr sha hsha
  obtain ⟨hmem, hid⟩ := mem_filter.mp hr
  rw [deleteNotes_linksOf s (by simpa using hid)]
  exact h.derived r hmem sha hsha

theorem deleteNotes_rowAt (h : Rows C s) (ids : List D) (q : Path) (w : Values Sha × List ParsedLink) :
    (s.deleteNotes ids).rowAt q = some w ↔ s.rowAt q = some w ∧ ∀ r ∈ s.notes, r.path = q → r.id ∉ ids := by
  rw [(deleteNotes_rows h ids).rowAt_eq_some, h.rowAt_eq_some]
  simp only [Index.deleteNotes, mem_filter, decide_eq_true_eq]
  constructor
  · intro hex
    obtain ⟨r, ⟨hr, hid⟩, hpath, hval⟩ := hex
    refine ⟨⟨r, hr, hpath, ?_⟩, ?_⟩
    · rw [← hval, ← deleteNotes_linksOf s hid]
      rfl
    · intro x hx hxq
      rwa [h.eq_of_path hx hr (hxq.trans hpath.symm)]
  · intro hex
    obtain ⟨⟨r, hr, hpath, hval⟩, hstay⟩ := hex
    refine ⟨r, ⟨hr, hstay r hr hpath⟩, hpath, ?_⟩
    rw [← hval, ← deleteNotes_linksOf s (hstay r hr hpath)]
    rfl

/-- rows of files that are gone may go -/
theorem deleteNotes_current (h : Rows C s) {ids : List D} (hgone : ∀ r ∈ s.notes, r.id ∈ ids → r.path ∉ disk.walk)
    (hcurrent : Current C disk P s) : Current C disk P (s.deleteNotes ids) := by
  intro q hq
  apply Option.ext
  intro w
  rw [deleteNotes_rowAt h ids, hcurrent q hq]
  refine and_iff_left_of_imp ?_
  intro hw r hr hpath hid
  rw [derivedAt_eq_none (hpath ▸ hgone r hr hid)] at hw
  simp at hw

theorem removeRows_current (paths : List Path) (h : Rows C s) (hcurrent : Current C disk P s)
    (hgone : ∀ p ∈ paths, ∀ q ∈ disk.walk, ¬ Under p q)
    (hlike : ∀ p ∈ paths, ∀ r ∈ s.notes, likeBelow p r.path → r.path ∉ disk.walk) :
    Rows C (Index.removeRows paths s).1 ∧
      Current C disk (fun q => P q ∨ ∃ p ∈ paths, Under p q) (Index.removeRows paths s).1 := by
  induction paths generalizing s P with
  | nil => exact ⟨h, fun q hq => hcurrent q (hq.resolve_right (by simp))⟩
  | cons path paths ih =>
    have hvictims : ∀ r ∈ s.notes, r.id ∈ s.victims path → r.path ∉ disk.walk := by
      intro r hr hid
      obtain ⟨x, hx, htaken, hxid⟩ := mem_victims.mp hid
      rw [← h.eq_of_id hx hr hxid]
      rcases htaken with hpath | hbelow
      · intro hwalk
        exact hgone path mem_cons_self _ hwalk (.inl hpath)
      · exact hlike path mem_cons_self x hx hbelow
    have hstill := deleteNotes_current h hvictims hcurrent
    have hcurrent' : Current C disk (fun q => P q ∨ Under path q) (s.deleteNotes (s.victims path)) := by
      intro q hq
      rcases hq with hP | hunder
      · exact hstill q hP
      · rw [derivedAt_eq_none fun hwalk => hgone path mem_cons_self q hwalk hunder]
        cases hrow : (s.deleteNotes (s.victims path)).rowAt q with
        | none => rfl
        | some w =>
          obtain ⟨hold, hstay⟩ := (deleteNotes_rowAt h _ q w).mp hrow
          obtain ⟨r, hr, hpath, -⟩ := h.rowAt_eq_some.mp hold
          refine absurd (mem_victims.mpr ⟨r, hr, ?_, rfl⟩) (hstay r hr hpath)
          rcases hunder with rfl | hbelow
          · exact .inl hpath
          · exact .inr (hpath ▸ likeBelow_of_below hbelow)
    obtain ⟨hrows, hall⟩ := ih (deleteNotes_rows h _) hcurrent' (fun p hp => hgone p (.tail _ hp))
      (fun p hp r hr => hlike p (.tail _ hp) r (mem_of_mem_filter hr))
    refine ⟨hrows, fun q hq => hall q ?_⟩
    rcases hq with hP | ⟨p, hp, hunder⟩
    · exact .inl (.inl hP)
    · rcases mem_cons.mp hp with rfl | hp
      · exact .inl (.inr hunder)
      · exact .inr ⟨p, hp, hunder⟩

/-! ## `index_one` -/

variable [DecidableEq Sha] [DecidableEq F]

/-- **One file.** A file that can be read ends up with the row derived from it, through either gate. -/
theorem indexOne_indexedAt (hsha : Function.Injective E.crates.sha256) (h : Rows E.crates s)
    (hreuse : s.idForPath path = reuse) {outcome : Indexed D}
    (hone : s.indexOne E disk path reuse = some (t, outcome)) : IndexedAt E.crates disk path s t := by
  subst hreuse
  unfold Index.indexOne at hone
  split at hone
  next => simp at hone
  next file hfile =>
    simp only at hone
    have hchosen := chosen_id h disk path rfl
    split_ifs at hone with hsize
    · obtain ⟨u, hu, hpair⟩ := Option.map_eq_some_iff.mp hone
      obtain ⟨rfl, -⟩ := Prod.mk.inj hpair
      have hv : derive E.crates path file = some (oversized path) := by simp [derive, hsize]
      have hrows := putNote_rows h (derive_derives hv) hu
      exact (putNote_wrote hu).indexedAt h hrows (by simp [derivedAt, hfile, hv]) hchosen.2
    · split at hone
      next => simp at hone
      next text htext =>
        have hv : derive E.crates path file = some (parsedValues E.crates path text) := by simp [derive, hsize, htext]
        split at hone
        next r hgate =>
          obtain ⟨rfl, -⟩ := Prod.mk.inj (Option.some.inj hone)
          have hhere : s.rowAt path = derivedAt E.crates disk path := by
            rw [hashGate_row hsha h hgate]
            simp [derivedAt, hfile, hv]
          have hsame := refreshMtime_rowAt s r.id file.mtime
          exact ⟨(refreshMtime_rows h r.id file.mtime).remember, (hsame path).trans hhere,
            fun q _ w hw => (hsame q) ▸ hw, fun q _ _ => hsame q,
            fun q _ _ => refreshMtime_idForPath s r.id file.mtime q⟩
        next hgate =>
          obtain ⟨u, hu, hpair⟩ := Option.map_eq_some_iff.mp hone
          obtain ⟨rfl, -⟩ := Prod.mk.inj hpair
          have hrows := putNote_rows h (derive_derives hv) hu
          exact (putNote_wrote hu).indexedAt h hrows (by simp [derivedAt, hfile, hv]) hchosen.2

/-- a file that fails is one that cannot be read -/
theorem indexOne_eq_none (h : Rows E.crates s) (hreuse : s.idForPath path = reuse)
    (hone : s.indexOne E disk path reuse = none) : derivedAt E.crates disk path = none := by
  subst hreuse
  unfold Index.indexOne at hone
  split at hone
  next hfile => simp [derivedAt, hfile]
  next file hfile =>
    simp only at hone
    have hchosen := chosen_id h disk path rfl
    split_ifs at hone with hsize
    · exact absurd (Option.map_eq_none_iff.mp hone) (putNote_isSome hchosen.1)
    · split at hone
      next htext => simp [derivedAt, hfile, derive, hsize, htext]
      next text htext =>
        split at hone
        next => simp at hone
        next => exact absurd (Option.map_eq_none_iff.mp hone) (putNote_isSome hchosen.1)

theorem indexRows_current (hsha : Function.Injective E.crates.sha256) (paths : List Path) (h : Rows E.crates s)
    (hcurrent : Current E.crates disk P s)
    (hread : ∀ p ∈ paths, p ∈ disk.walk → derivedAt E.crates disk p = none → s.rowAt p = none) :
    Rows E.crates (Index.indexRows E disk paths s).1 ∧
      Current E.crates disk (fun q => P q ∨ q ∈ paths ∧ q ∈ disk.walk) (Index.indexRows E disk paths s).1 := by
  induction paths generalizing s P with
  | nil => exact ⟨h, fun q hq => hcurrent q (hq.resolve_right (by simp))⟩
  | cons path paths ih =>
    -- the paths still to come keep what they had, so an unreadable one still has no row
    have hnext : ∀ t, IndexedAt E.crates disk path s t →
        Rows E.crates (Index.indexRows E disk paths t).1 ∧
          Current E.crates disk (fun q => P q ∨ q ∈ path :: paths ∧ q ∈ disk.walk)
            (Index.indexRows E disk paths t).1 := by
      intro t ht
      have hread' : ∀ p ∈ paths, p ∈ disk.walk → derivedAt E.crates disk p = none → t.rowAt p = none := by
        intro p hp hwalk hnone
        by_cases hpath : p = path
        · rw [hpath] at hnone ⊢
          exact ht.here.trans hnone
        · cases htp : t.rowAt p with
          | none => rfl
          | some w =>
            have hs := hread p (.tail _ hp) hwalk hnone
            exact absurd (ht.there p hpath w htp) (by simp [hs])
      obtain ⟨hrows, hall⟩ := ih ht.rows (ht.current hcurrent) hread'
      refine ⟨hrows, fun q hq => hall q ?_⟩
      rcases hq with hP | ⟨hmem, hwalk⟩
      · exact .inl (.inl hP)
      · rcases mem_cons.mp hmem with rfl | hmem
        · exact .inl (.inr rfl)
        · exact .inr ⟨hmem, hwalk⟩
    simp only [Index.indexRows]
    split
    next t id hone => exact hnext t (indexOne_indexedAt hsha h rfl hone)
    next t hone => exact hnext t (indexOne_indexedAt hsha h rfl hone)
    next hone =>
      have hnone := indexOne_eq_none h rfl hone
      have hread' : ∀ p ∈ paths, p ∈ disk.walk → derivedAt E.crates disk p = none → s.rowAt p = none :=
        fun p hp => hread p (.tail _ hp)
      have hcurrent' : Current E.crates disk (fun q => P q ∨ q = path ∧ q ∈ disk.walk) s := by
        intro q hq
        rcases hq with hP | ⟨rfl, hwalk⟩
        · exact hcurrent q hP
        · rw [hnone]
          exact hread q mem_cons_self hwalk hnone
      obtain ⟨hrows, hall⟩ := ih h hcurrent' hread'
      refine ⟨hrows, fun q hq => hall q ?_⟩
      rcases hq with hP | ⟨hmem, hwalk⟩
      · exact .inl (.inl hP)
      · rcases mem_cons.mp hmem with rfl | hmem
        · exact .inl (.inr ⟨rfl, hwalk⟩)
        · exact .inr ⟨hmem, hwalk⟩

end Baalda.NoteIndex
