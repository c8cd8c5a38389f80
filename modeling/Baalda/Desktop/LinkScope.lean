/-
Which links a batch has to look at again.

`resolve_links` answers a link by the first note of its basename, and by the first note of its title when there is none.
A batch asks it about the dangling links and the links whose source or destination it wrote (`LinkScope.touched`), on
the grounds that no other answer can have changed. One can: a link that was resolved by title, because no note had its
basename, when a note of the batch now has it.

- `Answered`: the stored answer is one that a pass over every link could give, for some order of the rows;
- `Frame`: what the row work of a batch leaves as it is, composed over the rows of the batch;
- `NotOutranked`: no note of the batch takes the basename of a link that it leaves alone and that has only a title to
  go by.
-/
import Baalda.Desktop.NoteIndex
import Baalda.Lib.Machine

namespace Baalda.NoteIndex

open List

variable {D Sha F : Type*}

/-! ## Answers -/

/-- some order of the rows gives the link this answer -/
def Answered (C : Crates Sha) (notes : List (NoteRow D Sha)) (l : LinkRow D) : Prop :=
  ∃ order : RowOrder D Sha, l.dst = lookup C (order.order notes) l.link.target

/-- every link is answered as a pass over all of them could answer it -/
def LinksAnswered (C : Crates Sha) (s : Index D Sha F) : Prop := ∀ l ∈ s.links, Answered C s.notes l

/-- some note has the basename the link names -/
def HasBasename (C : Crates Sha) (notes : List (NoteRow D Sha)) (l : LinkRow D) : Prop :=
  ∃ r ∈ notes, r.basename C = targetBase C l.link.target

def HasTitle (C : Crates Sha) (notes : List (NoteRow D Sha)) (l : LinkRow D) : Prop :=
  ∃ r ∈ notes, r.titleKey C = targetKey C l.link.target

instance (C : Crates Sha) (notes : List (NoteRow D Sha)) (l : LinkRow D) : Decidable (HasBasename C notes l) :=
  inferInstanceAs (Decidable (∃ r ∈ notes, _))

/-- the link goes to a note of its basename -/
def ByBasename (C : Crates Sha) (notes : List (NoteRow D Sha)) (l : LinkRow D) : Prop :=
  ∃ r ∈ notes, l.dst = some r.id ∧ r.basename C = targetBase C l.link.target

instance [DecidableEq D] (C : Crates Sha) (notes : List (NoteRow D Sha)) (l : LinkRow D) :
    Decidable (ByBasename C notes l) :=
  inferInstanceAs (Decidable (∃ r ∈ notes, _))

def ByTitle (C : Crates Sha) (notes : List (NoteRow D Sha)) (l : LinkRow D) : Prop :=
  ∃ r ∈ notes, l.dst = some r.id ∧ r.titleKey C = targetKey C l.link.target

variable {r : NoteRow D Sha}

/-- a list with a chosen element first -/
theorem exists_order_head {notes : List (NoteRow D Sha)} (h : r ∈ notes) :
    ∃ order : RowOrder D Sha, ∃ rest, order.order notes = r :: rest := by
  obtain ⟨before, after, rfl⟩ := append_of_mem h
  classical
  refine ⟨⟨fun rows => if rows = before ++ r :: after then r :: (before ++ after) else rows, ?_⟩, before ++ after, ?_⟩
  · intro rows
    by_cases hrows : rows = before ++ r :: after
    · rw [if_pos hrows, hrows]
      exact perm_middle.symm
    · rw [if_neg hrows]
  · exact if_pos rfl

theorem find_key_eq_none (key : NoteRow D Sha → Text) {rows : List (NoteRow D Sha)} {t : Text} :
    (rows.find? fun r => key r = t) = none ↔ ¬ ∃ r ∈ rows, key r = t := by
  simp [find?_eq_none]

theorem find_key_mem (key : NoteRow D Sha → Text) {rows : List (NoteRow D Sha)} {t : Text}
    (h : (rows.find? fun r => key r = t) = some r) : r ∈ rows ∧ key r = t :=
  ⟨mem_of_find?_eq_some h, by simpa using find?_some h⟩

variable {C : Crates Sha}

theorem lookup_head {rest : List (NoteRow D Sha)} {raw : Text} (h : r.basename C = targetBase C raw) :
    lookup C (r :: rest) raw = some r.id := by
  simp [lookup, h]

theorem lookup_head_title {rest : List (NoteRow D Sha)} {raw : Text}
    (hbase : ¬ ∃ x ∈ r :: rest, x.basename C = targetBase C raw) (h : r.titleKey C = targetKey C raw) :
    lookup C (r :: rest) raw = some r.id := by
  have hnone := (find_key_eq_none (NoteRow.basename C)).mpr hbase
  simp [lookup, hnone, h]

/-- a note of the basename as long as there is one, else a note of the title, else none -/
structure Correct (C : Crates Sha) (notes : List (NoteRow D Sha)) (l : LinkRow D) : Prop where
  basename : HasBasename C notes l → ByBasename C notes l
  title : ¬ HasBasename C notes l → HasTitle C notes l → ByTitle C notes l
  dangling : ¬ HasBasename C notes l → ¬ HasTitle C notes l → l.dst = none

variable {l : LinkRow D}

theorem lookup_correct (C : Crates Sha) (order : RowOrder D Sha) (notes : List (NoteRow D Sha))
    (h : l.dst = lookup C (order.order notes) l.link.target) : Correct C notes l := by
  have hmem : ∀ r, r ∈ order.order notes ↔ r ∈ notes := fun r => (order.perm notes).mem_iff
  unfold lookup at h
  cases hb : (order.order notes).find? fun r => r.basename C = targetBase C l.link.target with
  | some r =>
    obtain ⟨hr, hkey⟩ := find_key_mem (NoteRow.basename C) hb
    have hby : ByBasename C notes l := ⟨r, (hmem r).mp hr, by simpa [hb] using h, hkey⟩
    have hhas : HasBasename C notes l := ⟨r, (hmem r).mp hr, hkey⟩
    exact ⟨fun _ => hby, fun hn => absurd hhas hn, fun hn => absurd hhas hn⟩
  | none =>
    have hnot : ¬ HasBasename C notes l := by
      have hnone := (find_key_eq_none (NoteRow.basename C)).mp hb
      intro hex
      obtain ⟨r, hr, hkey⟩ := hex
      exact hnone ⟨r, (hmem r).mpr hr, hkey⟩
    simp only [hb] at h
    cases ht : (order.order notes).find? fun r => r.titleKey C = targetKey C l.link.target with
    | some r =>
      obtain ⟨hr, hkey⟩ := find_key_mem (NoteRow.titleKey C) ht
      have hhas : HasTitle C notes l := ⟨r, (hmem r).mp hr, hkey⟩
      exact ⟨fun hy => absurd hy hnot, fun _ _ => ⟨r, (hmem r).mp hr, by simpa [ht] using h, hkey⟩,
        fun _ hn => absurd hhas hn⟩
    | none =>
      have hnone := (find_key_eq_none (NoteRow.titleKey C)).mp ht
      refine ⟨fun hy => absurd hy hnot, ?_, fun _ _ => by simpa [ht] using h⟩
      intro _ hex
      obtain ⟨r, hr, hkey⟩ := hex
      exact absurd ⟨r, (hmem r).mpr hr, hkey⟩ hnone

/-- **The answers a full pass can give.** -/
theorem answered_iff {notes : List (NoteRow D Sha)} : Answered C notes l ↔ Correct C notes l := by
  constructor
  · intro h
    obtain ⟨order, horder⟩ := h
    exact lookup_correct C order notes horder
  · intro h
    by_cases hbase : HasBasename C notes l
    · obtain ⟨r, hr, hdst, hkey⟩ := h.basename hbase
      obtain ⟨order, rest, hhead⟩ := exists_order_head hr
      exact ⟨order, by rw [hhead, lookup_head hkey, hdst]⟩
    · by_cases htitle : HasTitle C notes l
      · obtain ⟨r, hr, hdst, hkey⟩ := h.title hbase htitle
        obtain ⟨order, rest, hhead⟩ := exists_order_head hr
        have hnone : ¬ ∃ x ∈ r :: rest, x.basename C = targetBase C l.link.target := by
          intro hex
          obtain ⟨x, hx, hxkey⟩ := hex
          rw [← hhead] at hx
          exact hbase ⟨x, (order.perm notes).mem_iff.mp hx, hxkey⟩
        exact ⟨order, by rw [hhead, lookup_head_title hnone hkey, hdst]⟩
      · refine ⟨insertionOrder, ?_⟩
        have hb := (find_key_eq_none (NoteRow.basename C)).mpr hbase
        have ht := (find_key_eq_none (NoteRow.titleKey C)).mpr htitle
        rw [h.dangling hbase htitle]
        simp [lookup, insertionOrder, hb, ht]

/-! ## What the row work leaves as it is -/

/-- what a row is looked up by -/
def NoteRow.key (r : NoteRow D Sha) : D × Path × Text := (r.id, r.path, r.values.title)

/-- the notes of other ids are as they were, and every link of another source is an old one -/
structure Frame (s t : Index D Sha F) (ids : List D) : Prop where
  notes : ∀ k : D × Path × Text, k.1 ∉ ids → (k ∈ t.notes.map NoteRow.key ↔ k ∈ s.notes.map NoteRow.key)
  links : ∀ l ∈ t.links, l.src ∉ ids → l ∈ s.links

namespace Frame

variable {s t u : Index D Sha F} {ids more : List D}

theorem of_eq (hnotes : t.notes = s.notes) (hlinks : t.links = s.links) : Frame s t ids where
  notes k _ := by rw [hnotes]
  links l hl _ := by rwa [← hlinks]

theorem trans (h : Frame s t ids) (h' : Frame t u more) : Frame s u (ids ++ more) where
  notes k hk := by
    simp only [mem_append, not_or] at hk
    exact (h'.notes k hk.2).trans (h.notes k hk.1)
  links l hl hsrc := by
    simp only [mem_append, not_or] at hsrc
    exact h.links l (h'.links l hl hsrc.2) hsrc.1

theorem mono (h : Frame s t ids) (hsub : ∀ id ∈ ids, id ∈ more) : Frame s t more where
  notes k hk := h.notes k fun hmem => hk (hsub _ hmem)
  links l hl hsrc := h.links l hl fun hmem => hsrc (hsub _ hmem)

/-- a row the frame does not touch has its likeness on the other side -/
theorem row (h : Frame s t ids) {r : NoteRow D Sha} (hr : r ∈ s.notes) (hid : r.id ∉ ids) :
    ∃ r' ∈ t.notes, r'.key = r.key :=
  mem_map.mp ((h.notes r.key hid).mpr (mem_map_of_mem hr))

theorem row_back (h : Frame s t ids) {r : NoteRow D Sha} (hr : r ∈ t.notes) (hid : r.id ∉ ids) :
    ∃ r' ∈ s.notes, r'.key = r.key :=
  mem_map.mp ((h.notes r.key hid).mp (mem_map_of_mem hr))

end Frame

variable {r' : NoteRow D Sha}

theorem basename_of_key (h : r'.key = r.key) : r'.basename C = r.basename C := by
  simp only [NoteRow.key, Prod.mk.injEq] at h
  simp only [NoteRow.basename, h.2.1]

theorem titleKey_of_key (h : r'.key = r.key) : r'.titleKey C = r.titleKey C := by
  simp only [NoteRow.key, Prod.mk.injEq] at h
  simp only [NoteRow.titleKey, h.2.2]

theorem id_of_key (h : r'.key = r.key) : r'.id = r.id := by
  simp only [NoteRow.key, Prod.mk.injEq] at h
  exact h.1

variable {s t : Index D Sha F}

/-- a batch that touched no note has changed no answer -/
theorem untouched_answered (hframe : Frame s t []) (h : LinksAnswered C s) : LinksAnswered C t := by
  intro l hl
  have hold := answered_iff.mp (h l (hframe.links l hl (by simp)))
  have hbase : HasBasename C t.notes l → HasBasename C s.notes l := by
    intro hex
    obtain ⟨r, hr, hkey⟩ := hex
    obtain ⟨r', hr', hsame⟩ := hframe.row_back hr (by simp)
    exact ⟨r', hr', by rw [basename_of_key hsame, hkey]⟩
  have hbase' : HasBasename C s.notes l → ByBasename C t.notes l := by
    intro hex
    obtain ⟨r, hr, hto, hkey⟩ := hold.basename hex
    obtain ⟨r', hr', hsame⟩ := hframe.row hr (by simp)
    exact ⟨r', hr', by rw [id_of_key hsame, hto], by rw [basename_of_key hsame, hkey]⟩
  have hnot : ¬ HasBasename C t.notes l → ¬ HasBasename C s.notes l := by
    intro hn hex
    obtain ⟨r, hr, -, hkey⟩ := hbase' hex
    exact hn ⟨r, hr, hkey⟩
  refine answered_iff.mpr ⟨fun hex => hbase' (hbase hex), ?_, ?_⟩
  · intro hn htitle
    obtain ⟨r, hr, hkey⟩ := htitle
    obtain ⟨r', hr', hsame⟩ := hframe.row_back hr (by simp)
    obtain ⟨q, hq, hto, hqkey⟩ := hold.title (hnot hn) ⟨r', hr', by rw [titleKey_of_key hsame, hkey]⟩
    obtain ⟨q', hq', hqsame⟩ := hframe.row hq (by simp)
    exact ⟨q', hq', by rw [id_of_key hqsame, hto], by rw [titleKey_of_key hqsame, hqkey]⟩
  · intro hn hnt
    apply hold.dangling (hnot hn)
    intro hex
    obtain ⟨r, hr, hkey⟩ := hex
    obtain ⟨r', hr', hsame⟩ := hframe.row hr (by simp)
    exact hnt ⟨r', hr', by rw [titleKey_of_key hsame, hkey]⟩

/-! ## One link pass -/

variable [DecidableEq D]

/-- no note has come to have the basename of a link that is left alone, unless the link goes to one -/
def NotOutranked (C : Crates Sha) (batch : Index D Sha F × List D) : Prop :=
  ∀ l ∈ batch.1.links, (LinkScope.touched batch.2).takes l = false →
    HasBasename C batch.1.notes l → ByBasename C batch.1.notes l

instance (C : Crates Sha) (batch : Index D Sha F × List D) : Decidable (NotOutranked C batch) :=
  inferInstanceAs (Decidable (∀ l ∈ batch.1.links, _))

section

variable {ids : List D} (hframe : Frame s t ids) (h : LinksAnswered C s) (hl : l ∈ t.links) (hskip : (LinkScope.touched
    ids).takes l = false)

include hframe h hl hskip

/-- a link left alone goes where it went, and its note is what it was -/
theorem left_alone : ByBasename C t.notes l ∨ ByTitle C t.notes l := by
  simp only [LinkScope.takes, Bool.or_eq_false_iff, Option.isNone_eq_false_iff, decide_eq_false_iff_not] at hskip
  obtain ⟨⟨hsome, hsrc⟩, hdst⟩ := hskip
  obtain ⟨d, hd⟩ := Option.isSome_iff_exists.mp hsome
  have hd' : d ∉ ids := by simpa [hd] using hdst
  have hold := answered_iff.mp (h l (hframe.links l hl hsrc))
  have htransport : ∀ r ∈ s.notes, l.dst = some r.id → ∃ r' ∈ t.notes, r'.key = r.key := by
    intro r hr hto
    apply hframe.row hr
    have hrd : d = r.id := Option.some.inj (hd.symm.trans hto)
    rwa [← hrd]
  by_cases hbase : HasBasename C s.notes l
  · obtain ⟨r, hr, hto, hkey⟩ := hold.basename hbase
    obtain ⟨r', hr', hsame⟩ := htransport r hr hto
    exact .inl ⟨r', hr', by rw [id_of_key hsame, hto], by rw [basename_of_key hsame, hkey]⟩
  · by_cases htitle : HasTitle C s.notes l
    · obtain ⟨r, hr, hto, hkey⟩ := hold.title hbase htitle
      obtain ⟨r', hr', hsame⟩ := htransport r hr hto
      exact .inr ⟨r', hr', by rw [id_of_key hsame, hto], by rw [titleKey_of_key hsame, hkey]⟩
    · rw [hold.dangling hbase htitle] at hd
      simp at hd

/-- hence it is answered exactly when no basename outranks its title -/
theorem left_alone_answered : Answered C t.notes l ↔ (HasBasename C t.notes l → ByBasename C t.notes l) := by
  rw [answered_iff]
  constructor
  · intro hcorrect
    exact hcorrect.basename
  · intro hbase
    rcases left_alone hframe h hl hskip with hby | hby
    · have hhas : HasBasename C t.notes l := by
        obtain ⟨r, hr, -, hkey⟩ := hby
        exact ⟨r, hr, hkey⟩
      exact ⟨hbase, fun hn => absurd hhas hn, fun hn => absurd hhas hn⟩
    · have hhas : HasTitle C t.notes l := by
        obtain ⟨r, hr, -, hkey⟩ := hby
        exact ⟨r, hr, hkey⟩
      exact ⟨hbase, fun _ _ => hby, fun _ hn => absurd hhas hn⟩

end

variable {order : RowOrder D Sha}

theorem mem_resolveLinks {scope : LinkScope D} :
    l ∈ (s.resolveLinks C order scope).links ↔
      (∃ l' ∈ s.links, scope.takes l' ∧ l = { l' with dst := lookup C (order.order s.notes) l'.link.target }) ∨
        (l ∈ s.links ∧ scope.takes l = false) := by
  simp only [Index.resolveLinks, mem_map]
  constructor
  · intro h
    obtain ⟨l', hl', rfl⟩ := h
    by_cases htakes : scope.takes l'
    · rw [if_pos htakes]
      exact .inl ⟨l', hl', htakes, rfl⟩
    · rw [if_neg htakes]
      exact .inr ⟨hl', by simpa using htakes⟩
  · intro h
    rcases h with ⟨l', hl', htakes, rfl⟩ | ⟨hl, hskip⟩
    · exact ⟨l', hl', if_pos htakes⟩
    · exact ⟨l, hl, by simp [hskip]⟩

/-- a pass answers what it looks at -/
theorem resolveLinks_answered {scope : LinkScope D} :
    LinksAnswered C (s.resolveLinks C order scope) ↔
      ∀ l ∈ s.links, scope.takes l = false → Answered C s.notes l := by
  constructor
  · intro h l hl hskip
    exact h l (mem_resolveLinks.mpr (.inr ⟨hl, hskip⟩))
  · intro h l hl
    rcases mem_resolveLinks.mp hl with ⟨l', -, -, rfl⟩ | ⟨hold, hskip⟩
    · exact ⟨order, rfl⟩
    · exact h l hold hskip

/-- the pass over every link -/
theorem resolveAll_answered : LinksAnswered C (s.resolveLinks C order .all) :=
  resolveLinks_answered.mpr fun l _ hskip => by simp [LinkScope.takes] at hskip

/-- **One batch.** Its link pass leaves every link answered exactly when no link it leaves alone is outranked. -/
theorem commitBatch_answered {batch : Index D Sha F × List D} (hframe : Frame s batch.1 batch.2)
    (h : LinksAnswered C s) : LinksAnswered C (Index.commitBatch C order batch) ↔ NotOutranked C batch := by
  unfold Index.commitBatch
  by_cases hids : batch.2 = []
  · rw [if_pos hids]
    rw [hids] at hframe
    have hall := untouched_answered hframe h
    refine iff_of_true hall ?_
    intro l hl _
    exact (answered_iff.mp (hall l hl)).basename
  · rw [if_neg hids, resolveLinks_answered]
    constructor
    · intro hall l hl hskip
      exact (left_alone_answered hframe h hl hskip).mp (hall l hl hskip)
    · intro hnot l hl hskip
      exact (left_alone_answered hframe h hl hskip).mpr (hnot l hl hskip)

/-! ## The row work of the operations -/

/-- the notes an `index_one` has to report -/
def Indexed.ids : Indexed D → List D
  | .indexed id => [id]
  | .unchanged => []

namespace Index

variable {s t : Index D Sha F}

theorem rememberFileIdentity_frame (s : Index D Sha F) (id : D) (path : Path) (identity : Option F) (ids : List D) :
    Frame s (s.rememberFileIdentity id path identity) ids := .of_eq rfl rfl

theorem refreshMtime_frame (s : Index D Sha F) (id : D) (mtime : ℤ) (ids : List D) :
    Frame s (s.refreshMtime id mtime) ids where
  notes k _ := by
    have hkey : ∀ r : NoteRow D Sha, NoteRow.key (if r.id = id then { r with mtime := mtime } else r) = r.key := by
      intro r
      split <;> rfl
    simp only [refreshMtime, map_map, Function.comp_def, hkey]
  links l hl _ := hl

theorem putLinks_frame (s : Index D Sha F) (id : D) (links : List ParsedLink) : Frame s (s.putLinks id links) [id] where
  notes k _ := Iff.rfl
  links l hl hsrc := by
    simp only [putLinks, mem_append, mem_map] at hl
    rcases hl with hold | ⟨l', -, rfl⟩
    · exact mem_of_mem_filter hold
    · simp at hsrc

theorem upsertNote_frame {row : NoteRow D Sha} (h : s.upsertNote row = some t) : Frame s t [row.id] := by
  unfold upsertNote at h
  split_ifs at h with hconflict hid
  · cases h
    refine ⟨?_, fun l hl _ => hl⟩
    intro k hk
    simp only [mem_singleton] at hk
    simp only [mem_map]
    constructor
    · intro hmem
      obtain ⟨r, ⟨q, hq, rfl⟩, rfl⟩ := hmem
      by_cases hrow : q.id = row.id
      · rw [if_pos hrow] at hk
        exact absurd rfl hk
      · exact ⟨q, hq, by rw [if_neg hrow]⟩
    · intro hmem
      obtain ⟨q, hq, rfl⟩ := hmem
      exact ⟨q, ⟨q, hq, if_neg hk⟩, rfl⟩
  · cases h
    refine ⟨?_, fun l hl _ => hl⟩
    intro k hk
    simp only [map_append, map_cons, map_nil, mem_append, mem_singleton]
    constructor
    · intro hmem
      rcases hmem with hold | rfl
      · exact hold
      · exact absurd (mem_singleton.mpr rfl) hk
    · exact .inl

theorem putNote_frame {id : D} {path : Path} {file : File F} {derived : Values Sha × List ParsedLink}
    (h : s.putNote id path file derived = some t) : Frame s t [id] := by
  obtain ⟨u, hu, rfl⟩ := Option.map_eq_some_iff.mp h
  have hrows := (upsertNote_frame hu).trans (putLinks_frame u id derived.2)
  have hall := hrows.trans (rememberFileIdentity_frame _ id path file.identity [])
  exact hall.mono (by simp)

theorem deleteNotes_frame (s : Index D Sha F) (ids : List D) : Frame s (s.deleteNotes ids) ids where
  notes k hk := by
    simp only [deleteNotes, mem_map, mem_filter, decide_eq_true_eq]
    constructor
    · intro hmem
      obtain ⟨r, ⟨hr, -⟩, rfl⟩ := hmem
      exact ⟨r, hr, rfl⟩
    · intro hmem
      obtain ⟨r, hr, rfl⟩ := hmem
      exact ⟨r, ⟨hr, hk⟩, rfl⟩
  links l hl _ := mem_of_mem_filter hl

theorem removeRows_frame (paths : List Path) (s : Index D Sha F) :
    Frame s (removeRows paths s).1 (removeRows paths s).2 := by
  induction paths generalizing s with
  | nil => exact .of_eq rfl rfl
  | cons path paths ih => exact (deleteNotes_frame s (s.victims path)).trans (ih _)

theorem removeRows_subset (paths : List Path) (s : Index D Sha F) : (removeRows paths s).1.notes ⊆ s.notes := by
  induction paths generalizing s with
  | nil => exact fun _ h => h
  | cons path paths ih => exact fun r hr => mem_of_mem_filter (ih _ hr)

theorem rebindInTx_frame (s : Index D Sha F) (current docId : D) :
    Frame s (s.rebindInTx current docId).1 [current, docId] := by
  unfold rebindInTx
  split_ifs with hsame htaken
  · exact .of_eq rfl rfl
  · exact .of_eq rfl rfl
  · refine ⟨?_, ?_⟩
    · intro k hk
      simp only [mem_cons, not_mem_nil, or_false, not_or] at hk
      simp only [mem_map]
      constructor
      · intro hmem
        obtain ⟨r, ⟨q, hq, rfl⟩, rfl⟩ := hmem
        by_cases hid : q.id = current
        · rw [if_pos hid] at hk
          exact absurd rfl hk.2
        · exact ⟨q, hq, by rw [if_neg hid]⟩
      · intro hmem
        obtain ⟨q, hq, rfl⟩ := hmem
        exact ⟨q, ⟨q, hq, if_neg hk.1⟩, rfl⟩
    · intro l hl hsrc
      obtain ⟨l', hl', rfl⟩ := mem_map.mp hl
      by_cases hid : l'.src = current
      · simp [if_pos hid] at hsrc
      · rwa [if_neg hid]

variable [DecidableEq Sha] [DecidableEq F]

variable {E : Env D Sha} {disk : Disk F}

theorem indexOne_frame {path : Path} {reuse : Option D} {outcome : Indexed D}
    (h : s.indexOne E disk path reuse = some (t, outcome)) : Frame s t outcome.ids := by
  unfold indexOne at h
  split at h
  next => simp at h
  next file hfile =>
    simp only at h
    split_ifs at h with hsize
    · obtain ⟨u, hu, hpair⟩ := Option.map_eq_some_iff.mp h
      obtain ⟨rfl, rfl⟩ := Prod.mk.injEq _ _ _ _ ▸ hpair
      exact putNote_frame hu
    · split at h
      next => simp at h
      next text htext =>
        split at h
        next r hgate =>
          obtain ⟨rfl, rfl⟩ := Prod.mk.injEq _ _ _ _ ▸ Option.some.inj h
          exact (refreshMtime_frame s r.id file.mtime []).trans (rememberFileIdentity_frame _ _ _ _ [])
        next hgate =>
          obtain ⟨u, hu, hpair⟩ := Option.map_eq_some_iff.mp h
          obtain ⟨rfl, rfl⟩ := Prod.mk.injEq _ _ _ _ ▸ hpair
          exact putNote_frame hu

theorem indexRows_frame (E : Env D Sha) (disk : Disk F) (paths : List Path) (s : Index D Sha F) :
    Frame s (indexRows E disk paths s).1 (indexRows E disk paths s).2 := by
  induction paths generalizing s with
  | nil => exact .of_eq rfl rfl
  | cons path paths ih =>
    simp only [indexRows]
    split
    next t id hone => exact (indexOne_frame hone).trans (ih t)
    next t hone => exact (indexOne_frame hone).trans (ih t)
    next hone => exact ih s

theorem commitRow_frame (E : Env D Sha) (disk : Disk F) (path : Path) (docId : Option D) (s : Index D Sha F) :
    Frame s (s.commitRow E disk path docId).1 (s.commitRow E disk path docId).2 := by
  unfold commitRow
  split
  next => exact .of_eq rfl rfl
  next t outcome hone =>
    have hindexed := indexOne_frame hone
    cases outcome with
    | indexed id =>
      cases docId with
      | none => exact hindexed
      | some docId =>
        simp only
        split_ifs
        · exact (hindexed.trans (rebindInTx_frame t id docId)).mono (by simp [Indexed.ids])
        · exact hindexed
    | unchanged =>
      cases hlocal : s.idForPath path with
      | none => exact hindexed
      | some id =>
        cases docId with
        | none => exact hindexed.mono (by simp [Indexed.ids])
        | some docId =>
          simp only
          split_ifs
          · exact (hindexed.trans (rebindInTx_frame t id docId)).mono (by simp [Indexed.ids])
          · exact hindexed.mono (by simp [Indexed.ids])

theorem commitRows_frame (E : Env D Sha) (disk : Disk F) (rows : List (Path × Option D)) (s : Index D Sha F) :
    Frame s (commitRows E disk rows s).1 (commitRows E disk rows s).2 := by
  induction rows generalizing s with
  | nil => exact .of_eq rfl rfl
  | cons row rows ih => exact (commitRow_frame E disk row.1 row.2 s).trans (ih _)

theorem rebuildOne_frame {indexed : List (NoteRow D Sha)} {path : Path}
    (h : rebuildOne E disk indexed s path = some (t, false)) : Frame s t [] := by
  unfold rebuildOne at h
  split at h
  next =>
    obtain rfl := (Prod.mk.inj (Option.some.inj h)).1
    exact .of_eq rfl rfl
  next file hfile =>
    split at h
    next =>
      obtain rfl := (Prod.mk.inj (Option.some.inj h)).1
      cases indexed.find? (·.path = path) with
      | none => exact .of_eq rfl rfl
      | some r => exact rememberFileIdentity_frame _ _ _ _ _
    next =>
      split at h
      next => simp at h
      next u hone =>
        obtain rfl := (Prod.mk.inj (Option.some.inj h)).1
        exact indexOne_frame hone
      next =>
        split at h
        · obtain rfl := (Prod.mk.inj (Option.some.inj h)).1
          exact .of_eq rfl rfl
        · simp at h

/-- a walk that reports no note has changed none -/
theorem rebuildWalk_frame {indexed : List (NoteRow D Sha)} {paths : List Path}
    (h : rebuildWalk E disk indexed paths s = some (t, false)) : Frame s t [] := by
  induction paths generalizing s with
  | nil =>
    obtain rfl := (Prod.mk.inj (Option.some.inj h)).1
    exact .of_eq rfl rfl
  | cons path paths ih =>
    obtain ⟨one, hone, hrest⟩ := Option.bind_eq_some_iff.mp h
    obtain ⟨rest, hwalk, hpair⟩ := Option.map_eq_some_iff.mp hrest
    obtain ⟨rfl, hfalse⟩ := Prod.mk.inj hpair
    obtain ⟨hone', hrest'⟩ := Bool.or_eq_false_iff.mp hfalse
    obtain ⟨u, changed⟩ := one
    obtain ⟨v, changed'⟩ := rest
    subst hone' hrest'
    exact (rebuildOne_frame hone).trans (ih hwalk)

end Index

/-- a removal takes basenames away only -/
theorem removeRows_notOutranked (h : LinksAnswered C s) (paths : List Path) :
    NotOutranked C (Index.removeRows paths s) := by
  intro l hl hskip hhas
  have hframe := Index.removeRows_frame paths s
  have hskip' := hskip
  simp only [LinkScope.takes, Bool.or_eq_false_iff, Option.isNone_eq_false_iff, decide_eq_false_iff_not] at hskip'
  obtain ⟨⟨-, hsrc⟩, hdst⟩ := hskip'
  obtain ⟨q, hq, hqkey⟩ := hhas
  have hold := answered_iff.mp (h l (hframe.links l hl hsrc))
  obtain ⟨r, hr, hto, hkey⟩ := hold.basename ⟨q, Index.removeRows_subset paths s hq, hqkey⟩
  obtain ⟨r', hr', hsame⟩ := hframe.row hr (by simpa [hto] using hdst)
  exact ⟨r', hr', by rw [id_of_key hsame, hto], by rw [basename_of_key hsame, hkey]⟩

/-! ## Operations -/

variable [DecidableEq Sha] [DecidableEq F]

inductive Op (D Sha F : Type*) where
  | indexNotes (disk : Disk F) (order : RowOrder D Sha) (paths : List Path)
  | removeNotes (order : RowOrder D Sha) (paths : List Path)
  | renameNote (disk : Disk F) (order : RowOrder D Sha) (old new : Path)
  | rebindNoteId (order : RowOrder D Sha) (path : Path) (docId : D)
  /-- a bootstrap page or a batch of placeholders -/
  | commitNotes (disk : Disk F) (order : RowOrder D Sha) (rows : List (Path × Option D))
  | rebuild (disk : Disk F) (order : RowOrder D Sha)

def step (E : Env D Sha) (s : Index D Sha F) : Op D Sha F → Index D Sha F
  | .indexNotes disk order paths => s.indexNotes E disk order paths
  | .removeNotes order paths => s.removeNotes E.crates order paths
  | .renameNote disk order old new => s.renameNote E.crates disk order old new
  | .rebindNoteId order path docId => s.rebindNoteId E.crates order path docId
  | .commitNotes disk order rows => s.commitNotes E disk order rows
  | .rebuild disk order => s.rebuild E disk order

def run (E : Env D Sha) (s : Index D Sha F) (ops : List (Op D Sha F)) : Index D Sha F := Machine.run (step E) s ops

/-- the batches whose pass is scoped outrank no link they leave alone -/
def ScopeOk (E : Env D Sha) (s : Index D Sha F) : Op D Sha F → Prop
  | .indexNotes disk _ paths => NotOutranked E.crates (Index.indexRows E disk paths s)
  | .commitNotes disk _ rows => NotOutranked E.crates (Index.commitRows E disk rows s)
  | _ => True

instance (E : Env D Sha) (s : Index D Sha F) (op : Op D Sha F) : Decidable (ScopeOk E s op) := by
  unfold ScopeOk
  split <;> infer_instance

theorem rebuild_answered (E : Env D Sha) (disk : Disk F) (order : RowOrder D Sha) (h : LinksAnswered E.crates s) :
    LinksAnswered E.crates (s.rebuild E disk order) := by
  unfold Index.rebuild
  split
  next => exact h
  next t changed hwalk =>
    split_ifs with hchanged
    · exact resolveAll_answered
    · simp only [not_or, Bool.not_eq_true, ne_eq, not_not] at hchanged
      obtain ⟨rfl, hstale⟩ := hchanged
      rw [hstale]
      have hframe := (Index.rebuildWalk_frame hwalk).trans (Index.deleteNotes_frame t [])
      exact untouched_answered hframe h

/-- **Step.** -/
theorem step_answered (E : Env D Sha) (s : Index D Sha F) (op : Op D Sha F) (h : LinksAnswered E.crates s) :
    LinksAnswered E.crates (step E s op) ↔ ScopeOk E s op := by
  cases op with
  | indexNotes disk order paths => exact commitBatch_answered (Index.indexRows_frame E disk paths s) h
  | commitNotes disk order rows => exact commitBatch_answered (Index.commitRows_frame E disk rows s) h
  | removeNotes order paths =>
    refine iff_of_true ?_ trivial
    exact (commitBatch_answered (Index.removeRows_frame paths s) h).mpr (removeRows_notOutranked h paths)
  | renameNote disk order old new =>
    refine iff_of_true ?_ trivial
    simp only [step, Index.renameNote]
    split
    · exact resolveAll_answered
    · exact h
  | rebindNoteId order path docId =>
    refine iff_of_true ?_ trivial
    simp only [step, Index.rebindNoteId]
    split
    · exact h
    · split_ifs
      · exact h
      · exact resolveAll_answered
      · exact h
  | rebuild disk order => exact iff_of_true (rebuild_answered E disk order h) trivial

/-- **Every link is answered as a full pass could answer it in exactly the runs whose batches outrank no link that they
leave alone.** -/
theorem links_answered_iff (E : Env D Sha) (ops : List (Op D Sha F)) :
    Machine.Guarded (step E) (ScopeOk E) empty ops ↔ ∀ n, LinksAnswered E.crates (run E empty (ops.take n)) := by
  have hexact : ∀ (s : Index D Sha F) op, True → LinksAnswered E.crates s →
      (LinksAnswered E.crates (step E s op) ↔ ScopeOk E s op) :=
    fun s op _ h => step_answered E s op h
  have hstart : LinksAnswered E.crates (empty : Index D Sha F) := by
    intro l hl
    simp [empty] at hl
  exact Machine.guarded_iff (fun _ _ _ => trivial) hexact trivial hstart ops

/-! ## Runs -/

/-- the crates on ASCII text without frontmatter, whose links stand at its beginning -/
def plainCrates : Crates Text where
  nfc := id
  toLowercase := fun t => t.map Char.toLower
  sha256 := id
  yaml := fun _ => none
  h1 := fun body => match body with
    | '#' :: ' ' :: rest => some (rest.takeWhile (· ≠ '\n'))
    | _ => none
  inlineTags := fun _ => []
  wikilinks := fun body => match body with
    | '[' :: '[' :: rest => [⟨0, (rest.takeWhile (· ≠ ']')).length + 4, rest.takeWhile (· ≠ ']')⟩]
    | _ => []
  literalMask := fun body => body.map fun _ => false
  stripHtmlTags := id

/-- ids one above the highest in use -/
def plainEnv : Env ℕ Text where
  crates := plainCrates
  newId := fun used => used.foldr max 0 + 1
  newId_fresh := by
    intro used hmem
    have hle : ∀ l : List ℕ, ∀ n ∈ l, n ≤ l.foldr max 0 := by
      intro l
      induction l with
      | nil => simp
      | cons m l ih =>
        intro n hn
        rcases List.mem_cons.mp hn with rfl | hn
        · exact le_max_left _ _
        · exact (ih n hn).trans (le_max_right _ _)
    exact absurd (hle used _ hmem) (by omega)

def aFile (text : String) : File ℕ := ⟨text.length, some text.toList, 0, none⟩

/-- a note that links to `foo`, and one whose title is `foo` -/
def linkedFiles : List (Path × File ℕ) := [("a.md".toList, aFile "[[foo]]"), ("bar.md".toList, aFile "# foo")]

def linkedDisk : Disk ℕ := .ofFiles linkedFiles (by decide)

/-- `foo.md` has appeared -/
def outrankedDisk : Disk ℕ := .ofFiles (linkedFiles ++ [("foo.md".toList, aFile "")]) (by decide)

def outrankedRun : List (Op ℕ Text ℕ) :=
  [.indexNotes linkedDisk insertionOrder ["a.md".toList, "bar.md".toList],
    .indexNotes outrankedDisk insertionOrder ["foo.md".toList]]

/-- **A title outranked.** The link to `foo` stays on `bar.md`, whose title it is, when `foo.md` is indexed. -/
theorem title_answer_outranked : ¬ LinksAnswered plainEnv.crates (run plainEnv empty outrankedRun) := by
  intro h
  have hlink := h ⟨1, some 2, ⟨"foo".toList, "foo".toList, 0⟩⟩ (by decide +kernel)
  have hhas := (answered_iff.mp hlink).basename (by decide +kernel)
  exact absurd hhas (by decide +kernel)

end Baalda.NoteIndex
