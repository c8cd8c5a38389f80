/-
A clicked wikilink and the link pass of the index (`resolve_wikilink` and `resolve_links` of `src-tauri/src/index.rs`).

A click looks for the note at the full path, then for one with the basename, then for one with the title; the pass knows
only basenames and titles. A click takes `.md` off the text before it folds it, the pass off the basename after it has
folded it, so that they do not look for the same names either.

`click_agrees`: the two agree on a link, whatever the order of the rows, iff where a click finds a note the pass finds
one, and where it finds one alone the pass finds that one alone.
-/
import Baalda.Desktop.SubtreeRows

namespace Baalda.NoteIndex

open List Option

variable {D Sha F : Type*} [DecidableEq D] [DecidableEq Sha] (C : Crates Sha)

/-! ## A click -/

/-- `ResolvedLink`, of a note or of a file of the tree -/
inductive Resolved (D : Type*) where
  | note (id : D) (path : Path)
  | file (id : D) (path : Path)
  deriving DecidableEq

def mdSuffix : Text := ".md".toList

/-- the text that was clicked, without alias, heading and `.md` -/
def clickTarget (name : Text) : Text := trimEndMd (beforeAlias name)

def clickKey (name : Text) : Text := linkKey C (clickTarget name)

def clickBase (name : Text) : Text := lastPart (clickKey C name)

/-- at the full path -/
def AtPath (name : Text) (r : NoteRow D Sha) : Prop := linkKey C r.path = clickKey C name ++ mdSuffix

/-- anywhere in the tree -/
def Named (name : Text) (r : NoteRow D Sha) : Prop :=
  linkKey C r.path = clickBase C name ++ mdSuffix ∨ '/' :: (clickBase C name ++ mdSuffix) <:+ linkKey C r.path

def Titled (name : Text) (r : NoteRow D Sha) : Prop := r.titleKey C = clickKey C name

instance (name : Text) (r : NoteRow D Sha) : Decidable (AtPath C name r) := inferInstanceAs (Decidable (_ = _))

instance (name : Text) (r : NoteRow D Sha) : Decidable (Named C name r) := inferInstanceAs (Decidable (_ ∨ _))

instance (name : Text) (r : NoteRow D Sha) : Decidable (Titled C name r) := inferInstanceAs (Decidable (_ = _))

/-- the row of a note that a click opens -/
def clickedRow (rows : List (NoteRow D Sha)) (name : Text) : Option (NoteRow D Sha) :=
  if clickTarget name = [] then none
  else
    match rows.find? fun r => AtPath C name r with
    | some r => some r
    | none =>
      match rows.find? fun r => Named C name r with
      | some r => some r
      | none => rows.find? fun r => Titled C name r

/-- a file of the tree, by full path or basename, the shortest path first -/
def clickedFile (files : List (FileRow D)) (name : Text) : Option (FileRow D) :=
  (files.insertionSort fun a b => a.path.length ≤ b.path.length).find? fun f =>
    linkKey C f.path = clickKey C name ∨ linkKey C f.path = clickBase C name ∨
      '/' :: clickBase C name <:+ linkKey C f.path

def resolveWikilink (order : RowOrder D Sha) (notes : List (NoteRow D Sha)) (files : List (FileRow D)) (name : Text) :
    Option (Resolved D) :=
  if clickTarget name = [] then none
  else
    match clickedRow C (order.order notes) name with
    | some r => some (.note r.id r.path)
    | none => (clickedFile C files name).map fun f => .file f.id f.path

/-! ## What each looks for -/

/-- the notes among which a click chooses -/
def Sought (notes : List (NoteRow D Sha)) (name : Text) (r : NoteRow D Sha) : Prop :=
  clickTarget name ≠ [] ∧
    (AtPath C name r ∨
      (∀ x ∈ notes, ¬ AtPath C name x) ∧ (Named C name r ∨ (∀ x ∈ notes, ¬ Named C name x) ∧ Titled C name r))

/-- the basename, and the title, that the pass looks for -/
def PassNamed (name : Text) (r : NoteRow D Sha) : Prop := r.basename C = targetBase C name

def PassTitled (name : Text) (r : NoteRow D Sha) : Prop := r.titleKey C = targetKey C name

instance (name : Text) (r : NoteRow D Sha) : Decidable (PassNamed C name r) := inferInstanceAs (Decidable (_ = _))

instance (name : Text) (r : NoteRow D Sha) : Decidable (PassTitled C name r) := inferInstanceAs (Decidable (_ = _))

/-- the pass finds something where a click does, and finds alone what a click finds alone -/
structure SameAnswer (notes : List (NoteRow D Sha)) (name : Text) : Prop where
  found : ∀ r ∈ notes, Sought C notes name r → ∃ x ∈ notes, PassNamed C name x ∨ PassTitled C name x
  alone : ∀ r ∈ notes, Sought C notes name r → (∀ x ∈ notes, Sought C notes name x → x = r) →
    (∀ x ∈ notes, PassNamed C name x ↔ x = r) ∨
      (∀ x ∈ notes, ¬ PassNamed C name x) ∧ ∀ x ∈ notes, PassTitled C name x ↔ x = r

/-- a clicked link and the link's row agree, whatever the order of the rows and whatever other links there are -/
def ClickAgrees (s : Index D Sha F) (files : List (FileRow D)) (name : Text) : Prop :=
  ∀ (order order' : RowOrder D Sha) (links : List (LinkRow D)),
    ∀ l ∈ (Index.resolveLinks { s with links := links } C order .all).links, l.link.target = name →
      (∀ r ∈ s.notes, resolveWikilink C order' s.notes files name = some (.note r.id r.path) →
        (∀ x ∈ s.notes, Sought C s.notes name x → x = r) → l.dst = some r.id) ∧
      (l.dst = none → ∀ id path, resolveWikilink C order' s.notes files name ≠ some (.note id path))

variable {C}

section Find

variable {rows : List (NoteRow D Sha)} {P : NoteRow D Sha → Prop} [DecidablePred P] {r : NoteRow D Sha}

theorem find_holds (h : rows.find? (fun r => P r) = some r) : r ∈ rows ∧ P r :=
  ⟨mem_of_find?_eq_some h, by simpa using find?_some h⟩

theorem find_none (h : rows.find? (fun r => P r) = none) : ∀ x ∈ rows, ¬ P x := by
  simpa using find?_eq_none.mp h

theorem find_eq_none (h : ∀ x ∈ rows, ¬ P x) : rows.find? (fun r => P r) = none := by
  simpa using h

theorem exists_find (hr : r ∈ rows) (hP : P r) : ∃ q, rows.find? (fun r => P r) = some q :=
  isSome_iff_exists.mp (find?_isSome.mpr ⟨r, hr, decide_eq_true hP⟩)

end Find

variable {notes rows : List (NoteRow D Sha)} {name : Text} {r : NoteRow D Sha}

theorem clickedRow_sought (hrows : ∀ r, r ∈ rows ↔ r ∈ notes) (h : clickedRow C rows name = some r) :
    r ∈ notes ∧ Sought C notes name r := by
  unfold clickedRow at h
  split at h
  · cases h
  next htarget =>
  split at h
  · next q hq =>
    obtain rfl := some.inj h
    obtain ⟨hmem, hpath⟩ := find_holds hq
    exact ⟨(hrows q).mp hmem, htarget, .inl hpath⟩
  next hpath =>
  have hnopath : ∀ x ∈ notes, ¬ AtPath C name x := fun x hx => find_none hpath x ((hrows x).mpr hx)
  split at h
  · next q hq =>
    obtain rfl := some.inj h
    obtain ⟨hmem, hnamed⟩ := find_holds hq
    exact ⟨(hrows q).mp hmem, htarget, .inr ⟨hnopath, .inl hnamed⟩⟩
  · next hnamed =>
    have hnoname : ∀ x ∈ notes, ¬ Named C name x := fun x hx => find_none hnamed x ((hrows x).mpr hx)
    obtain ⟨hmem, htitled⟩ := find_holds h
    exact ⟨(hrows r).mp hmem, htarget, .inr ⟨hnopath, .inr ⟨hnoname, htitled⟩⟩⟩

theorem clickedRow_isSome (hrows : ∀ r, r ∈ rows ↔ r ∈ notes) (hr : r ∈ notes) (h : Sought C notes name r) :
    ∃ q, clickedRow C rows name = some q := by
  obtain ⟨htarget, h⟩ := h
  unfold clickedRow
  rw [if_neg htarget]
  split
  · next q _ => exact ⟨q, rfl⟩
  next hpath =>
  split
  · next q _ => exact ⟨q, rfl⟩
  next hnamed =>
  rcases h with hatPath | ⟨-, hname | ⟨-, htitle⟩⟩
  · exact absurd hatPath (find_none hpath r ((hrows r).mpr hr))
  · exact absurd hname (find_none hnamed r ((hrows r).mpr hr))
  · exact exists_find ((hrows r).mpr hr) htitle

theorem mem_order (order : RowOrder D Sha) (notes : List (NoteRow D Sha)) (r : NoteRow D Sha) :
    r ∈ order.order notes ↔ r ∈ notes :=
  (order.perm notes).mem_iff

variable {files : List (FileRow D)}

theorem resolveWikilink_note {order : RowOrder D Sha} {id : D} {path : Path} :
    resolveWikilink C order notes files name = some (.note id path) ↔
      ∃ r, clickedRow C (order.order notes) name = some r ∧ r.id = id ∧ r.path = path := by
  unfold resolveWikilink
  split
  · next htarget => simp [clickedRow, htarget]
  · split
    · next r hr => simp [hr]
    · next hnone => simp [hnone]

/-! ## The pass -/

theorem lookup_named (h : rows.find? (fun r => r.basename C = targetBase C name) = some r) :
    lookup C rows name = some r.id := by
  simp [lookup, h]

theorem lookup_eq_none (h : lookup C rows name = none) :
    ∀ r ∈ rows, ¬ PassNamed C name r ∧ ¬ PassTitled C name r := by
  unfold lookup at h
  split at h
  · cases h
  next hnamed =>
  rw [map_eq_none_iff] at h
  intro r hr
  exact ⟨find_none (P := PassNamed C name) hnamed r hr, find_none (P := PassTitled C name) h r hr⟩

/-- what the pass finds alone -/
theorem lookup_of_alone (hr : r ∈ rows)
    (h : (∀ x ∈ rows, PassNamed C name x ↔ x = r) ∨ (∀ x ∈ rows, ¬ PassNamed C name x) ∧ ∀ x ∈ rows,
      PassTitled C name x ↔ x = r)
    : lookup C rows name = some r.id := by
  rcases h with hnamed | ⟨hnone, htitled⟩
  · obtain ⟨q, hq⟩ := exists_find (P := PassNamed C name) hr ((hnamed r hr).mpr rfl)
    obtain ⟨hmem, hname⟩ := find_holds hq
    have hqr : q = r := (hnamed q hmem).mp hname
    rw [lookup_named hq, hqr]
  · obtain ⟨q, hq⟩ := exists_find (P := PassTitled C name) hr ((htitled r hr).mpr rfl)
    obtain ⟨hmem, htitle⟩ := find_holds hq
    have hqr : q = r := (htitled q hmem).mp htitle
    have hno : rows.find? (fun r => r.basename C = targetBase C name) = none := find_eq_none hnone
    unfold lookup
    rw [hno]
    change (rows.find? fun r => PassTitled C name r).map NoteRow.id = some r.id
    rw [hq, hqr]
    rfl

/-- the order in which one row comes first -/
def firstOrder (r : NoteRow D Sha) : RowOrder D Sha where
  order rows := if r ∈ rows then r :: rows.erase r else rows
  perm rows := by
    split
    · next hr => exact (perm_cons_erase hr).symm
    · exact Perm.refl rows

theorem lookup_first_named (hr : r ∈ notes) (h : PassNamed C name r) :
    lookup C ((firstOrder r).order notes) name = some r.id := by
  apply lookup_named
  change (if r ∈ notes then r :: notes.erase r else notes).find? _ = _
  rw [if_pos hr, find?_cons_of_pos]
  exact decide_eq_true h

theorem lookup_first_titled (hr : r ∈ notes) (hnone : ∀ x ∈ notes, ¬ PassNamed C name x) (h : PassTitled C name r) :
    lookup C ((firstOrder r).order notes) name = some r.id := by
  have hno : ((firstOrder r).order notes).find? (fun r => r.basename C = targetBase C name) = none :=
    find_eq_none fun x hx => hnone x ((mem_order _ notes x).mp hx)
  have hfind : ((firstOrder r).order notes).find? (fun r => r.titleKey C = targetKey C name) = some r := by
    change (if r ∈ notes then r :: notes.erase r else notes).find? _ = _
    rw [if_pos hr, find?_cons_of_pos]
    exact decide_eq_true h
  unfold lookup
  rw [hno]
  rw [hfind]
  rfl

variable {s : Index D Sha F}

/-- a link of that text after the pass -/
theorem link_after {order : RowOrder D Sha} {links : List (LinkRow D)} {l : LinkRow D}
    (h : l ∈ (Index.resolveLinks { s with links := links } C order .all).links) :
    l.dst = lookup C (order.order s.notes) l.link.target := by
  obtain ⟨x, _, rfl⟩ := mem_map.mp h
  rfl

theorem exists_link (s : Index D Sha F) (order : RowOrder D Sha) (src : D) (name : Text) :
    ∃ links, ∃ l ∈ (Index.resolveLinks { s with links := links } C order .all).links, l.link.target = name := by
  refine ⟨[⟨src, none, ⟨name, name, 0⟩⟩], ⟨src, lookup C (order.order s.notes) name, ⟨name, name, 0⟩⟩, ?_, rfl⟩
  exact mem_map.mpr ⟨_, mem_singleton_self _, rfl⟩

/-! ## Agreement -/

theorem agrees_of_same (hids : (s.notes.map NoteRow.id).Nodup) (h : SameAnswer C s.notes name) :
    ClickAgrees C s files name := by
  intro order order' links l hl hname
  have hdst := link_after hl
  rw [hname] at hdst
  constructor
  · intro r hr hclick halone
    obtain ⟨q, hq, hqid, -⟩ := resolveWikilink_note.mp hclick
    obtain ⟨hqmem, hqsought⟩ := clickedRow_sought (mem_order order' s.notes) hq
    obtain rfl := inj_on_of_nodup_map hids hqmem hr hqid
    rw [hdst]
    apply lookup_of_alone ((mem_order order s.notes q).mpr hr)
    have hsame := h.alone q hr hqsought halone
    simpa only [mem_order] using hsame
  · intro hnone id path hclick
    obtain ⟨q, hq, -⟩ := resolveWikilink_note.mp hclick
    obtain ⟨hqmem, hqsought⟩ := clickedRow_sought (mem_order order' s.notes) hq
    obtain ⟨x, hx, hfound⟩ := h.found q hqmem hqsought
    rw [hnone] at hdst
    obtain ⟨hnamed, htitled⟩ := lookup_eq_none hdst.symm x ((mem_order order s.notes x).mpr hx)
    rcases hfound with hname' | htitle
    · exact hnamed hname'
    · exact htitled htitle

theorem same_of_agrees (hids : (s.notes.map NoteRow.id).Nodup) (h : ClickAgrees C s files name) :
    SameAnswer C s.notes name := by
  -- what the pass answers to a link of that text, in any order
  have hpass : ∀ (order : RowOrder D Sha), ∀ r ∈ s.notes, Sought C s.notes name r →
      lookup C (order.order s.notes) name ≠ none ∧
        ((∀ x ∈ s.notes, Sought C s.notes name x → x = r) → lookup C (order.order s.notes) name = some r.id) := by
    intro order r hr hsought
    obtain ⟨links, l, hl, hlname⟩ := exists_link (C := C) s order r.id name
    obtain ⟨hnote, hnone⟩ := h order order links l hl hlname
    have hdst := link_after hl
    rw [hlname] at hdst
    obtain ⟨q, hq⟩ := clickedRow_isSome (mem_order order s.notes) hr hsought
    obtain ⟨hqmem, hqsought⟩ := clickedRow_sought (mem_order order s.notes) hq
    have hclick : resolveWikilink C order s.notes files name = some (.note q.id q.path) :=
      resolveWikilink_note.mpr ⟨q, hq, rfl, rfl⟩
    constructor
    · intro hlookup
      exact hnone (hdst.trans hlookup) q.id q.path hclick
    · intro halone
      obtain rfl := halone q hqmem hqsought
      rw [← hdst]
      exact hnote q hr hclick halone
  refine ⟨fun r hr hsought => ?_, fun r hr hsought halone => ?_⟩
  · by_contra hnothing
    push Not at hnothing
    refine (hpass insertionOrder r hr hsought).1 ?_
    have hnamed : s.notes.find? (fun r => r.basename C = targetBase C name) = none :=
      find_eq_none fun x hx => (hnothing x hx).1
    have htitled : s.notes.find? (fun r => r.titleKey C = targetKey C name) = none :=
      find_eq_none fun x hx => (hnothing x hx).2
    change lookup C s.notes name = none
    unfold lookup
    rw [hnamed, htitled]
    rfl
  · have hnamed : ∀ x ∈ s.notes, PassNamed C name x → x = r := by
      intro x hx hname'
      have hfirst := lookup_first_named hx hname'
      have hanswer := (hpass (firstOrder x) r hr hsought).2 halone
      exact inj_on_of_nodup_map hids hx hr (some.inj (hfirst.symm.trans hanswer))
    by_cases hany : ∃ x ∈ s.notes, PassNamed C name x
    · left
      intro x hx
      refine ⟨hnamed x hx, fun heq => ?_⟩
      obtain ⟨y, hy, hyname⟩ := hany
      rw [heq, ← hnamed y hy hyname]
      exact hyname
    · right
      push Not at hany
      refine ⟨hany, fun x hx => ⟨fun htitle => ?_, fun heq => ?_⟩⟩
      · have hfirst := lookup_first_titled hx hany htitle
        have hanswer := (hpass (firstOrder x) r hr hsought).2 halone
        exact inj_on_of_nodup_map hids hx hr (some.inj (hfirst.symm.trans hanswer))
      · have hanswer := (hpass insertionOrder r hr hsought).2 halone
        unfold lookup at hanswer
        split at hanswer
        · next q hq =>
          obtain ⟨hmem, hname'⟩ := find_holds (P := PassNamed C name) hq
          exact absurd hname' (hany q hmem)
        · obtain ⟨q, hq, hqid⟩ := map_eq_some_iff.mp hanswer
          obtain ⟨hmem, htitle⟩ := find_holds (P := PassTitled C name) hq
          rw [heq, ← inj_on_of_nodup_map hids hmem hr hqid]
          exact htitle

/-- **A click and the pass.** They agree on a link, in every order of the rows, iff the pass looks for a note where a
click does, and for that one alone where a click does. -/
theorem click_agrees (s : Index D Sha F) (hids : (s.notes.map NoteRow.id).Nodup) (files : List (FileRow D))
    (name : Text) : ClickAgrees C s files name ↔ SameAnswer C s.notes name :=
  ⟨same_of_agrees hids, agrees_of_same hids⟩

/-! ## Runs on fixed inputs -/

/-- the title is the stem -/
def titledRow (id : ℕ) (path : String) : NoteRow ℕ Text :=
  ⟨id, path.toList, 0, ⟨stemOf path.toList, none, none, ∅, stemOf path.toList, []⟩⟩

/-- two notes of one basename, and one of the notes links to the other by its full path -/
def twoFolders : Index ℕ Text ℕ :=
  ⟨[titledRow 1 "a/X.md", titledRow 2 "b/X.md"], [⟨1, none, ⟨"b/X".toList, "b/X".toList, 0⟩⟩], []⟩

/-- **A full path is not looked at.** A click on `b/X` opens `b/X.md`, and the link's row is to `a/X.md`. -/
theorem full_path_ignored :
    resolveWikilink plainCrates insertionOrder twoFolders.notes [] "b/X".toList = some (.note 2 "b/X.md".toList) ∧
      (twoFolders.resolveLinks plainCrates insertionOrder .all).links.map LinkRow.dst = [some 1] := by
  decide +kernel

/-- two notes of two names -/
def twoNames : Index ℕ Text ℕ := ⟨[titledRow 1 "a/X.md", titledRow 2 "b/Y.md"], [], []⟩

theorem basename_agrees : ClickAgrees plainCrates twoNames [] "b/Y".toList := by
  have hnamed : ∀ x ∈ twoNames.notes, PassNamed plainCrates "b/Y".toList x ↔ x = titledRow 2 "b/Y.md" := by
    decide +kernel
  have hpath : AtPath plainCrates "b/Y".toList (titledRow 2 "b/Y.md") := by decide +kernel
  have honly : ∀ x ∈ twoNames.notes, AtPath plainCrates "b/Y".toList x → x = titledRow 2 "b/Y.md" := by decide +kernel
  have hmem : titledRow 2 "b/Y.md" ∈ twoNames.notes := by decide
  refine (click_agrees twoNames (by decide) [] "b/Y".toList).mpr ⟨fun r hr hsought => ?_, fun r hr hsought halone => ?_⟩
  · exact ⟨_, hmem, .inl ((hnamed _ hmem).mpr rfl)⟩
  · have hr : r = titledRow 2 "b/Y.md" := by
      rcases hsought.2 with hat | ⟨hnone, -⟩
      · exact honly r hr hat
      · exact absurd hpath (hnone _ hmem)
    left
    rw [hr]
    exact hnamed

end Baalda.NoteIndex
