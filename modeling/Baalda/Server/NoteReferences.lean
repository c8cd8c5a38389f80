/-
Which attachment paths do the readable notes mention? (`filterByNoteReference` in permissions/http-gates.ts, the
reference excerpts of blobs/ref-windows.ts, `sealedReferencedPaths` in permissions/sealed-refs.ts.)

A path is found by its anchor, its text up to the first slash. A row of `note_index` keeps, beside the note's text, an
excerpt of it: for each of the row's heads, what stands at its occurrences, 512 UTF-16 units beyond the head. One query
cuts each readable row's excerpt (or its text, where the heads do not cover the anchors asked about) at each anchor and
tests a window after every occurrence; a path too long for an excerpt is looked for in the text, where the excerpt has
its beginning; a path without a slash is looked for in the text. In a keyed vault, sealed rows are opened in memory.

A row's `ref_text` is the excerpt of its text under its `ref_heads`. Texts are lists of characters, as Postgres has
them; JavaScript counts and cuts UTF-16 units, and half a character is stored as the replacement character.
-/
import Mathlib.Tactic
import Mathlib.Data.List.Infix
import Baalda.Lib.Pieces
import Baalda.Lib.Like

namespace Baalda.NoteReferences

open Pieces List

/-! ## Model -/

abbrev Text := List Char

local instance : LawfulBEq Text := inferInstance

/-- UTF-16 code units -/
def units (c : Char) : ℕ := if c.val < 0x10000 then 1 else 2

/-- `length` in JavaScript -/
def size (t : Text) : ℕ := (t.map units).sum

/-- `slice(0, n)`, as it is stored -/
def slice : ℕ → Text → Text
  | 0, _ => []
  | _ + 1, [] => []
  | n + 1, c :: t =>
    if units c = 1 then c :: slice n t
    else
      match n with
      | 0 => ['\uFFFD']
      | n + 1 => c :: slice n t

def refWindowChars : ℕ := 512

/-- the excerpts of `content` after every occurrence of every head -/
def refText (content : Text) (heads : List Text) : Text :=
  joined ['\n'] ((heads.filter fun head => head ≠ []).flatMap fun head =>
    (content.tails.filter fun rest => head <+: rest).map (slice (size head + refWindowChars))).eraseDups

/-- everything up to and including the first slash -/
def referenceAnchor (path : Text) : Option Text :=
  if '/' ∈ path then some (path.takeWhile (fun c => c ≠ '/') ++ ['/']) else none

/-- does the path fit an excerpt? -/
def fits (path anchor : Text) : Bool := size path - size anchor ≤ refWindowChars

/-- a row of `note_index`; a sealed row's text is what it opens to -/
structure IndexRow (D : Type*) where
  docId : D
  text : Text
  refHeads : Option (List Text)
  sealed : Bool
deriving DecidableEq

structure BlobAclRow (D : Type*) where
  id : ℕ
  relPath : Option Text
  docId : Option D
deriving DecidableEq

/-- the rows of one vault; only a keyed vault has sealed ones -/
structure Vault (D : Type*) where
  rows : List (IndexRow D)
  keyed : Bool
  sealedKeyed : ∀ r ∈ rows, r.sealed = true → keyed = true

/-- `content LIKE '%' || escaped || '%' ESCAPE '\'` -/
def contentLike (content path : Text) : Bool := Like.like ('%' :: Like.likeEscape path ++ ['%']) content

section

variable {D : Type*} [DecidableEq D]

/-- do the row's heads cover the anchors asked about? -/
def IndexRow.covers (needed : List Text) (r : IndexRow D) : Bool :=
  r.refHeads.any fun heads => needed.all fun a => a ∈ heads

def IndexRow.refText (r : IndexRow D) : Text := NoteReferences.refText r.text (r.refHeads.getD [])

/-- the excerpt when it covers the anchors asked about, else the text -/
def IndexRow.source (needed : List Text) (r : IndexRow D) : Text := if r.covers needed then r.refText else r.text

/-! ### The anchored paths -/

/-- `needles`: what each path of an anchor has after it, in length -/
def lens (anchored : List Text) (anchor : Text) : List ℕ :=
  (anchored.filter fun p => referenceAnchor p = some anchor).map fun p => p.length - anchor.length

/-- the longest text a path needs after its anchor -/
def reach (anchored : List Text) (anchor : Text) : ℕ := (lens anchored anchor).foldr max 0

/-- how many consecutive pieces are taken to supply it -/
def pieceCount (anchored : List Text) (anchor : Text) : ℕ := reach anchored anchor / anchor.length + 1

/-- the windows of a text, one for each occurrence of the anchor -/
def windows (anchored : List Text) (anchor t : Text) : List Text :=
  let r := reach anchored anchor
  let lp := (pieces anchor t).map (take r)
  (range (lp.length - 1)).map fun i => (joined anchor ((lp.drop (i + 1)).take (pieceCount anchored anchor))).take r

def anchors (paths : List Text) : List Text := (paths.filterMap referenceAnchor).dedup

/-- the anchored paths that one text gives -/
def foundIn (anchored : List Text) (t : Text) : List Text :=
  (anchors anchored).flatMap fun anchor =>
    if anchor <:+: t then
      ((windows anchored anchor t).flatMap fun win =>
        (lens anchored anchor).map fun len => anchor ++ win.take len).filter fun val => val ∈ anchored
    else []

/-! ### The whole filter -/

structure Split where
  anchored : List Text
  long : List Text
  bare : List Text

def split (paths : List Text) : Split where
  anchored := paths.filter fun p => (referenceAnchor p).any fun a => fits p a
  long := paths.filter fun p => (referenceAnchor p).any fun a => !fits p a
  bare := paths.filter fun p => referenceAnchor p = none

/-- the paths the plain rows give -/
def referencedInSql (plain : List (IndexRow D)) (paths : List Text) : List Text :=
  let s := split paths
  let needed := anchors (s.anchored ++ s.long)
  (plain.flatMap fun r => foundIn s.anchored (r.source needed)) ++
    (s.long.filter fun p => plain.any fun r =>
      if r.covers needed ∧
          ¬ contentLike r.refText (slice (size ((referenceAnchor p).getD []) + refWindowChars) p) then false
      else contentLike r.text p) ++
    s.bare.filter fun p => plain.any fun r => contentLike r.text p

/-- the paths that some sealed row has; without the key, the request is refused -/
def sealedReferencedPaths (rows : List (IndexRow D)) (paths : List Text) (hasKey : Bool) : Option (List Text) :=
  if paths = [] ∨ rows = [] then some []
  else if hasKey then some (paths.filter fun p => rows.any fun r => p <:+: r.text)
  else none

/-- the paths asked about -/
def pathsOf (blobs : List (BlobAclRow D)) : List Text :=
  ((blobs.filterMap BlobAclRow.relPath).filter fun p => p ≠ []).eraseDups

def Vault.plain (v : Vault D) (readable : List D) : List (IndexRow D) :=
  v.rows.filter fun r => r.docId ∈ readable ∧ ¬ (v.keyed = true ∧ r.sealed = true)

def Vault.sealedRows (v : Vault D) (readable : List D) : List (IndexRow D) :=
  v.rows.filter fun r => r.docId ∈ readable ∧ r.sealed = true

def filterByNoteReference (v : Vault D) (blobs : List (BlobAclRow D)) (readable : List D) (hasKey : Bool) :
    Option (List (BlobAclRow D)) :=
  let paths := pathsOf blobs
  if readable = [] ∨ paths = [] then some []
  else
    let referenced := referencedInSql (v.plain readable) paths
    let opened :=
      if v.keyed then
        sealedReferencedPaths (v.sealedRows readable) (paths.filter fun p => p ∉ referenced) hasKey
      else some []
    opened.map fun opened =>
      blobs.filter fun b => b.relPath.any fun p => p ≠ [] && (p ∈ referenced || p ∈ opened)

/-! ## What is asked of the filter -/

/-- some occurrence of the path in the text has fewer than `k` of its anchor starting behind its own -/
def Uncrossed (k : ℕ) (anchor t path : Text) : Prop :=
  ∃ s ∈ t.tails, path <+: s ∧ starts anchor (path.length - anchor.length) (s.drop anchor.length) < k

instance (k : ℕ) (anchor t path : Text) : Decidable (Uncrossed k anchor t path) :=
  inferInstanceAs (Decidable (∃ s ∈ t.tails, _))

/-- a readable note has the path in its text -/
def Mentions (v : Vault D) (readable : List D) (path : Text) : Prop :=
  ∃ r ∈ v.rows, r.docId ∈ readable ∧ path <:+: r.text

instance (v : Vault D) (readable : List D) (path : Text) : Decidable (Mentions v readable path) :=
  inferInstanceAs (Decidable (∃ r ∈ v.rows, _))

/-- what the query reads of some plain row has an uncrossed occurrence of the path -/
def Reached (v : Vault D) (blobs : List (BlobAclRow D)) (readable : List D) (path : Text) : Prop :=
  let s := split (pathsOf blobs)
  ∃ anchor ∈ referenceAnchor path, ∃ r ∈ v.plain readable,
    Uncrossed (pieceCount s.anchored anchor) anchor (r.source (anchors (s.anchored ++ s.long))) path

instance (v : Vault D) (blobs : List (BlobAclRow D)) (readable : List D) (path : Text) :
    Decidable (Reached v blobs readable path) :=
  inferInstanceAs (Decidable (∃ anchor ∈ referenceAnchor path, _))

/-- A path that fits an excerpt, if some readable note has it, has an uncrossed occurrence, or a sealed row has it; and
no excerpt has it that its note lacks. -/
def Readily (v : Vault D) (blobs : List (BlobAclRow D)) (readable : List D) (path : Text) : Prop :=
  path ∈ (split (pathsOf blobs)).anchored →
    (Mentions v readable path → Reached v blobs readable path ∨ ∃ r ∈ v.sealedRows readable, path <:+: r.text) ∧
      (Reached v blobs readable path → Mentions v readable path)

instance (v : Vault D) (blobs : List (BlobAclRow D)) (readable : List D) (path : Text) :
    Decidable (Readily v blobs readable path) :=
  inferInstanceAs (Decidable (_ → _))

/-! ## Anchors -/

/-- one slash, at its end -/
def IsAnchor (a : Text) : Prop := ∃ d, '/' ∉ d ∧ a = d ++ ['/']

theorem takeWhile_slash {d : Text} (hd : '/' ∉ d) (rest : Text) :
    (d ++ '/' :: rest).takeWhile (fun c => c ≠ '/') = d := by
  rw [takeWhile_append_of_pos]
  · simp
  · intro c hc
    exact decide_eq_true fun hce => hd (hce ▸ hc)

theorem referenceAnchor_eq_some {path a : Text} : referenceAnchor path = some a ↔ IsAnchor a ∧ a <+: path := by
  unfold referenceAnchor
  constructor
  · intro h
    split at h
    · next hslash =>
      obtain ⟨d, rest, rfl, hd⟩ := eq_append_cons_of_mem hslash
      rw [takeWhile_slash hd] at h
      cases h
      exact ⟨⟨d, hd, rfl⟩, rest, by simp⟩
    · cases h
  · intro ⟨⟨d, hd, ha⟩, rest, hrest⟩
    subst ha
    subst hrest
    rw [append_assoc, singleton_append, takeWhile_slash hd, if_pos (by simp)]

theorem IsAnchor.apart {a : Text} (h : IsAnchor a) : Apart a := by
  obtain ⟨d, hd, rfl⟩ := h
  refine ⟨by simp, fun n hn hlt hpre => hd ?_⟩
  have hle : n ≤ d.length := by
    simp only [length_append, length_singleton] at hlt
    omega
  rw [drop_append_of_le_length hle, prefix_append_short _ (by simp; omega)] at hpre
  exact hpre.subset (by simp)

/-! ## The windows -/

section

variable {anchored : List Text} {p a t : Text}

theorem length_le_reach (hp : p ∈ anchored) (ha : referenceAnchor p = some a) :
    p.length - a.length ≤ reach anchored a := by
  have hmem : p.length - a.length ∈ lens anchored a :=
    mem_map.2 ⟨p, mem_filter.2 ⟨hp, by simpa using ha⟩, rfl⟩
  unfold reach
  generalize lens anchored a = ns at hmem
  induction ns with
  | nil => exact absurd hmem (not_mem_nil)
  | cons n ns ih =>
    obtain heq | hmem := mem_cons.1 hmem
    · rw [heq]
      exact le_max_left ..
    · exact (ih hmem).trans (le_max_right ..)

theorem mem_windows (ha : IsAnchor a) {win : Text} :
    win ∈ windows anchored a t ↔
      ∃ pre u, t = pre ++ (a ++ u) ∧ win = window a (reach anchored a) (pieceCount anchored a) u := by
  have hwin (i : ℕ) {u : Text} (hdrop : (pieces a t).drop (i + 1) = pieces a u) :
      (joined a ((((pieces a t).map (take (reach anchored a))).drop (i + 1)).take (pieceCount anchored a))).take
        (reach anchored a) = window a (reach anchored a) (pieceCount anchored a) u := by
    rw [← map_drop, ← map_take, hdrop]
    rfl
  simp only [windows, mem_map, mem_range, length_map]
  constructor
  · rintro ⟨i, hi, hw⟩
    obtain ⟨pre, u, ht, hdrop⟩ := drop_pieces ha.apart.1 t (Nat.succ_pos i) (by omega)
    exact ⟨pre, u, ht, hw.symm.trans (hwin i hdrop)⟩
  · rintro ⟨pre, u, ht, hw⟩
    obtain ⟨i, hi, hlt, hdrop⟩ := exists_drop ha.apart ht
    obtain ⟨i, rfl⟩ : ∃ j, i = j + 1 := ⟨i - 1, by omega⟩
    exact ⟨i, by omega, (hwin i hdrop).trans hw.symm⟩

/-- **One text.** A path is found in it exactly when some occurrence is uncrossed. -/
theorem mem_foundIn (hp : p ∈ anchored) (ha : referenceAnchor p = some a) :
    p ∈ foundIn anchored t ↔ Uncrossed (pieceCount anchored a) a t p := by
  obtain ⟨hanchor, q, rfl⟩ := referenceAnchor_eq_some.1 ha
  have hq : (a ++ q).length - a.length = q.length := by simp
  have hreach := length_le_reach hp ha
  rw [hq] at hreach
  unfold foundIn Uncrossed
  rw [mem_flatMap, hq]
  constructor
  · intro ⟨b, hb, hmem⟩
    split at hmem
    · obtain ⟨hval, -⟩ := mem_filter.1 hmem
      obtain ⟨win, hwin, hlen⟩ := mem_flatMap.1 hval
      obtain ⟨len, -, hpath⟩ := mem_map.1 hlen
      -- a path has one anchor
      obtain ⟨p', -, hp'⟩ := mem_filterMap.1 (mem_dedup.1 hb)
      have hbanchor := (referenceAnchor_eq_some.1 hp').1
      obtain rfl : b = a := by
        have hbp : referenceAnchor (a ++ q) = some b :=
          referenceAnchor_eq_some.2 ⟨hbanchor, hpath ▸ prefix_append ..⟩
        exact Option.some.inj (hbp.symm.trans ha)
      have hqwin : q <+: win := by
        rw [← append_cancel_left hpath]
        exact take_prefix ..
      obtain ⟨pre, u, rfl, rfl⟩ := (mem_windows hanchor).1 hwin
      obtain ⟨hqu, hstarts⟩ := (prefix_window hanchor.apart _ u q hreach).1 hqwin
      refine ⟨b ++ u, (mem_tails _ _).2 ⟨pre, rfl⟩, (prefix_append_right_inj b).2 hqu, ?_⟩
      rw [drop_left]
      exact hstarts
    · cases hmem
  · intro ⟨s, hs, hps, hstarts⟩
    obtain ⟨u, rfl⟩ := (prefix_append a q).trans hps
    obtain ⟨pre, rfl⟩ := (mem_tails _ _).1 hs
    rw [drop_left] at hstarts
    have hqwin := (prefix_window hanchor.apart _ u q hreach).2
      ⟨(prefix_append_right_inj a).1 hps, hstarts⟩
    refine ⟨a, mem_dedup.2 (mem_filterMap.2 ⟨_, hp, ha⟩), ?_⟩
    rw [if_pos ⟨pre, u, by simp⟩]
    refine mem_filter.2 ⟨mem_flatMap.2 ⟨_, (mem_windows hanchor).2 ⟨pre, u, rfl, rfl⟩, ?_⟩, by simpa using hp⟩
    refine mem_map.2 ⟨q.length, mem_map.2 ⟨_, mem_filter.2 ⟨hp, by simpa using ha⟩, hq⟩, ?_⟩
    exact congrArg (a ++ ·) (prefix_iff_eq_take.1 hqwin).symm

end

/-! ## Excerpts -/

section

variable {p a s t content : Text} {n : ℕ}

theorem units_cases (c : Char) : units c = 1 ∨ units c = 2 := by unfold units; split <;> simp

@[simp] theorem size_cons (c : Char) (t : Text) : size (c :: t) = units c + size t := by simp [size]

theorem slice_one {c : Char} (h : units c = 1) (n : ℕ) (t : Text) : slice (n + 1) (c :: t) = c :: slice n t := by
  rw [slice.eq_def]
  simp [h]

theorem slice_two {c : Char} (h : units c = 2) (n : ℕ) (t : Text) : slice (n + 2) (c :: t) = c :: slice n t := by
  rw [slice.eq_def]
  simp [h]

theorem slice_half {c : Char} (h : units c = 2) (t : Text) : slice 1 (c :: t) = ['\uFFFD'] := by
  rw [slice.eq_def]
  simp [h]

/-- a beginning that is short enough is cut off whole -/
theorem prefix_slice (hp : p <+: s) (hsize : size p ≤ n) : p <+: slice n s := by
  induction p generalizing n s with
  | nil => exact nil_prefix
  | cons c p ih =>
    obtain ⟨rest, rfl⟩ := hp
    rw [size_cons] at hsize
    rw [cons_append]
    obtain hc | hc := units_cases c
    · obtain ⟨n, rfl⟩ : ∃ m, n = m + 1 := ⟨n - 1, by omega⟩
      rw [slice_one hc, cons_prefix_cons]
      exact ⟨rfl, ih (prefix_append ..) (by omega)⟩
    · obtain ⟨n, rfl⟩ : ∃ m, n = m + 2 := ⟨n - 2, by omega⟩
      rw [slice_two hc, cons_prefix_cons]
      exact ⟨rfl, ih (prefix_append ..) (by omega)⟩

/-- one that is too long is cut where it would be cut by itself -/
theorem slice_long (hp : p <+: s) (hsize : n ≤ size p) : slice n s = slice n p := by
  induction p generalizing n s with
  | nil =>
    obtain rfl : n = 0 := by simpa [size] using hsize
    simp [slice]
  | cons c p ih =>
    obtain ⟨rest, rfl⟩ := hp
    rw [size_cons] at hsize
    rw [cons_append]
    obtain hc | hc := units_cases c
    · cases n with
      | zero => simp [slice]
      | succ n => rw [slice_one hc, slice_one hc, ih (prefix_append ..) (by omega)]
    · match n with
      | 0 => simp [slice]
      | 1 => rw [slice_half hc, slice_half hc]
      | n + 2 => rw [slice_two hc, slice_two hc, ih (prefix_append ..) (by omega)]

theorem mem_infix_joined {sep x : Text} {ps : List Text} (h : x ∈ ps) : x <:+: joined sep ps := by
  induction ps with
  | nil => cases h
  | cons y ps ih =>
    by_cases hps : ps = []
    · subst hps
      obtain rfl := mem_singleton.1 h
      exact infix_rfl
    · rw [joined_cons y hps]
      obtain rfl | h := mem_cons.1 h
      · exact (prefix_append x _).isInfix
      · exact (ih h).trans ((suffix_append sep _).trans (suffix_append y _)).isInfix

/-- the excerpts that make up `refText` -/
theorem mem_excerpts {heads : List Text} {x : Text} :
    x ∈ ((heads.filter fun head => head ≠ []).flatMap fun head =>
        (content.tails.filter fun rest => head <+: rest).map (slice (size head + refWindowChars))).eraseDups ↔
      ∃ head ∈ heads, head ≠ [] ∧ ∃ rest, rest <:+ content ∧ head <+: rest ∧
        x = slice (size head + refWindowChars) rest := by
  simp only [mem_eraseDups, mem_flatMap, mem_filter, mem_map, mem_tails, decide_eq_true_eq,
    eq_comm (a := x), and_assoc]

/-- the excerpt has every occurrence of a path that fits it -/
theorem infix_refText {heads : List Text} (ha : referenceAnchor p = some a) (hheads : a ∈ heads) (hp : p <:+: content) :
    (fits p a = true → p <:+: refText content heads) ∧
      (fits p a = false → slice (size a + refWindowChars) p <:+: refText content heads) := by
  obtain ⟨hanchor, hap⟩ := referenceAnchor_eq_some.1 ha
  obtain ⟨pre, post, rfl⟩ := hp
  have hrest : p ++ post <:+ pre ++ p ++ post := ⟨pre, by simp⟩
  have hx : slice (size a + refWindowChars) (p ++ post) <:+: refText (pre ++ p ++ post) heads :=
    mem_infix_joined (mem_excerpts.2 ⟨a, hheads, hanchor.apart.1, _, hrest, hap.trans (prefix_append ..), rfl⟩)
  constructor
  · intro hfits
    have hsize : size p ≤ size a + refWindowChars := by
      have := of_decide_eq_true hfits
      omega
    exact (prefix_slice (prefix_append ..) hsize).isInfix.trans hx
  · intro hfits
    have hsize : size a + refWindowChars ≤ size p := by
      have := of_decide_eq_false hfits
      omega
    rwa [slice_long (prefix_append p post) hsize] at hx

end

/-! ## The whole filter -/

section

variable {v : Vault D} {blobs : List (BlobAclRow D)} {readable : List D} {hasKey : Bool} {p a : Text}
  {paths : List Text}

theorem contentLike_iff {content path : Text} : contentLike content path = true ↔ path <:+: content :=
  Like.like_contains path content

/-- the three kinds of paths -/
theorem mem_split (hp : p ∈ paths) :
    (p ∈ (split paths).anchored ↔ ∃ a, referenceAnchor p = some a ∧ fits p a = true) ∧
      (p ∈ (split paths).long ↔ ∃ a, referenceAnchor p = some a ∧ fits p a = false) ∧
      (p ∈ (split paths).bare ↔ referenceAnchor p = none) := by
  cases ha : referenceAnchor p <;> simp [split, hp, ha]

theorem mem_needed (hp : p ∈ (split paths).anchored ++ (split paths).long) (ha : referenceAnchor p = some a) :
    a ∈ anchors ((split paths).anchored ++ (split paths).long) :=
  mem_dedup.2 (mem_filterMap.2 ⟨p, hp, ha⟩)

theorem mem_heads {needed : List Text} {r : IndexRow D} (h : r.covers needed = true) (ha : a ∈ needed) :
    a ∈ r.refHeads.getD [] := by
  unfold IndexRow.covers at h
  cases hr : r.refHeads with
  | none => rw [hr] at h; cases h
  | some heads =>
    rw [hr] at h
    simpa using all_eq_true.1 h a ha

/-- a path that fits an excerpt is answered from the windows -/
theorem mem_referenced_anchored (plain : List (IndexRow D)) (hp : p ∈ paths) (ha : referenceAnchor p = some a)
    (hfits : fits p a = true) :
    p ∈ referencedInSql plain paths ↔ ∃ r ∈ plain,
      Uncrossed (pieceCount (split paths).anchored a) a
        (r.source (anchors ((split paths).anchored ++ (split paths).long))) p := by
  obtain ⟨hanchored, hlong, hbare⟩ := mem_split hp
  have hin : p ∈ (split paths).anchored := hanchored.2 ⟨a, ha, hfits⟩
  have hnotlong : p ∉ (split paths).long := by
    intro hmem
    obtain ⟨b, hb, hno⟩ := hlong.1 hmem
    cases ha.symm.trans hb
    exact (nomatch hfits.symm.trans hno)
  have hnotbare : p ∉ (split paths).bare := fun hmem => nomatch ha.symm.trans (hbare.1 hmem)
  simp only [referencedInSql, mem_append, mem_filter, hnotlong, hnotbare, false_and, or_false,
    mem_flatMap, mem_foundIn hin ha]

/-- a longer one from the text, where the excerpt has its beginning -/
theorem mem_referenced_long (plain : List (IndexRow D)) (hp : p ∈ paths) (ha : referenceAnchor p = some a)
    (hfits : fits p a = false) : p ∈ referencedInSql plain paths ↔ ∃ r ∈ plain, p <:+: r.text := by
  obtain ⟨hanchored, hlong, hbare⟩ := mem_split hp
  have hin : p ∈ (split paths).long := hlong.2 ⟨a, ha, hfits⟩
  have hnot : p ∉ (split paths).anchored := by
    intro hmem
    obtain ⟨b, hb, hyes⟩ := hanchored.1 hmem
    cases ha.symm.trans hb
    exact (nomatch hfits.symm.trans hyes)
  have hnotbare : p ∉ (split paths).bare := fun hmem => nomatch ha.symm.trans (hbare.1 hmem)
  have hfound (t : Text) : p ∉ foundIn (split paths).anchored t := by
    intro hmem
    obtain ⟨b, -, hb⟩ := mem_flatMap.1 hmem
    split at hb
    · exact hnot (of_decide_eq_true (mem_filter.1 hb).2)
    · cases hb
  simp only [referencedInSql, mem_append, mem_filter, hin, hnotbare, false_and, or_false, true_and,
    mem_flatMap, hfound, and_false, exists_false, false_or, any_eq_true, ha, Option.getD_some]
  apply exists_congr
  intro r
  apply and_congr_right'
  split
  · next hskip =>
    refine iff_of_false (by simp) fun hpt => hskip.2 ?_
    have hheads := mem_heads hskip.1 (mem_needed (mem_append_right _ hin) ha)
    exact contentLike_iff.2 ((infix_refText ha hheads hpt).2 hfits)
  · exact contentLike_iff

theorem mem_referenced_bare (plain : List (IndexRow D)) (hp : p ∈ paths) (ha : referenceAnchor p = none) :
    p ∈ referencedInSql plain paths ↔ ∃ r ∈ plain, p <:+: r.text := by
  obtain ⟨hanchored, hlong, hbare⟩ := mem_split hp
  have hin : p ∈ (split paths).bare := hbare.2 ha
  have hnot : p ∉ (split paths).anchored := by
    intro hmem
    obtain ⟨b, hb, -⟩ := hanchored.1 hmem
    exact (nomatch ha.symm.trans hb)
  have hnotlong : p ∉ (split paths).long := by
    intro hmem
    obtain ⟨b, hb, -⟩ := hlong.1 hmem
    exact (nomatch ha.symm.trans hb)
  have hfound (t : Text) : p ∉ foundIn (split paths).anchored t := by
    intro hmem
    obtain ⟨b, -, hb⟩ := mem_flatMap.1 hmem
    split at hb
    · exact hnot (of_decide_eq_true (mem_filter.1 hb).2)
    · cases hb
  simp only [referencedInSql, mem_append, mem_filter, hin, hnotlong, false_and, or_false, true_and,
    mem_flatMap, hfound, and_false, exists_false, false_or, any_eq_true, contentLike_iff]

/-- the query, as a whole -/
theorem mem_referencedInSql (hp : p ∈ pathsOf blobs) :
    p ∈ referencedInSql (v.plain readable) (pathsOf blobs) ↔
      if p ∈ (split (pathsOf blobs)).anchored then Reached v blobs readable p
      else ∃ r ∈ v.plain readable, p <:+: r.text := by
  obtain ⟨hanchored, -, -⟩ := mem_split hp
  cases ha : referenceAnchor p with
  | none =>
    have hnot : p ∉ (split (pathsOf blobs)).anchored := by
      intro hmem
      obtain ⟨b, hb, -⟩ := hanchored.1 hmem
      exact (nomatch ha.symm.trans hb)
    rw [if_neg hnot, mem_referenced_bare _ hp ha]
  | some a =>
    cases hfits : fits p a with
    | true =>
      rw [if_pos (hanchored.2 ⟨a, ha, hfits⟩), mem_referenced_anchored _ hp ha hfits]
      simp [Reached, ha]
    | false =>
      have hnot : p ∉ (split (pathsOf blobs)).anchored := by
        intro hmem
        obtain ⟨b, hb, hyes⟩ := hanchored.1 hmem
        cases ha.symm.trans hb
        exact (nomatch hfits.symm.trans hyes)
      rw [if_neg hnot, mem_referenced_long _ hp ha hfits]

/-- a readable note's row is read by the query or opened in memory -/
theorem mentions_iff : Mentions v readable p ↔
    (∃ r ∈ v.plain readable, p <:+: r.text) ∨ v.keyed = true ∧ ∃ r ∈ v.sealedRows readable, p <:+: r.text := by
  simp only [Mentions, Vault.plain, Vault.sealedRows, mem_filter, decide_eq_true_eq]
  constructor
  · intro ⟨r, hr, hread, hpr⟩
    by_cases hsealed : v.keyed = true ∧ r.sealed = true
    · exact .inr ⟨hsealed.1, r, ⟨hr, hread, hsealed.2⟩, hpr⟩
    · exact .inl ⟨r, ⟨hr, hread, hsealed⟩, hpr⟩
  · rintro (⟨r, ⟨hr, hread, -⟩, hpr⟩ | ⟨-, r, ⟨hr, hread, -⟩, hpr⟩)
    · exact ⟨r, hr, hread, hpr⟩
    · exact ⟨r, hr, hread, hpr⟩

theorem sealedRows_keyed {r : IndexRow D} (hr : r ∈ v.sealedRows readable) : v.keyed = true := by
  obtain ⟨hmem, hr⟩ := mem_filter.1 hr
  exact v.sealedKeyed r hmem (of_decide_eq_true hr).2

/-- a path opened in memory is some sealed row's -/
theorem mem_sealedReferencedPaths {rows : List (IndexRow D)} {opened : List Text}
    (h : sealedReferencedPaths rows paths hasKey = some opened) :
    p ∈ opened ↔ p ∈ paths ∧ ∃ r ∈ rows, p <:+: r.text := by
  unfold sealedReferencedPaths at h
  split at h
  · next hempty =>
    cases h
    refine iff_of_false (not_mem_nil) fun ⟨hp, r, hr, _⟩ => ?_
    obtain rfl | rfl := hempty
    · cases hp
    · cases hr
  split at h
  · cases h
    simp [mem_filter, any_eq_true]
  · cases h

section

variable {kept : List (BlobAclRow D)} (h : filterByNoteReference v blobs readable hasKey = some kept) {b : BlobAclRow D}

include h

/-- **What is kept.** Once the request is answered, a blob is kept exactly when the query or a sealed row has its
path. -/
theorem mem_filterByNoteReference (hb : b ∈ blobs) (hp : b.relPath = some p) (hne : p ≠ []) :
    b ∈ kept ↔ p ∈ referencedInSql (v.plain readable) (pathsOf blobs) ∨
      ∃ r ∈ v.sealedRows readable, p <:+: r.text := by
  have hmem : p ∈ pathsOf blobs := by
    rw [pathsOf, mem_eraseDups, mem_filter]
    exact ⟨mem_filterMap.2 ⟨b, hb, hp⟩, by simpa using hne⟩
  have hopened : ∀ (opened : List Text) (keep : List (BlobAclRow D)),
      (∀ x, x ∈ opened ↔ (x ∈ pathsOf blobs ∧ x ∉ referencedInSql (v.plain readable) (pathsOf blobs)) ∧
        ∃ r ∈ v.sealedRows readable, x <:+: r.text) →
      (blobs.filter fun b => b.relPath.any fun p => p ≠ [] &&
        (p ∈ referencedInSql (v.plain readable) (pathsOf blobs) || p ∈ opened)) = keep →
      (b ∈ keep ↔ p ∈ referencedInSql (v.plain readable) (pathsOf blobs) ∨
        ∃ r ∈ v.sealedRows readable, p <:+: r.text) := by
    intro opened keep hall hkeep
    have hx := hall p
    rw [← hkeep, mem_filter, and_iff_right hb, hp]
    simp only [Option.any_some, hne, ne_eq, not_false_eq_true, decide_true, Bool.true_and, Bool.or_eq_true,
      decide_eq_true_eq, hx, hmem, true_and]
    tauto
  unfold filterByNoteReference at h
  simp only at h
  split at h
  · next hempty =>
    cases h
    obtain hnone | hnone := hempty
    · have hplain : v.plain readable = [] := by simp [Vault.plain, hnone]
      have hsealed : v.sealedRows readable = [] := by simp [Vault.sealedRows, hnone]
      refine iff_of_false (not_mem_nil) ?_
      rw [mem_referencedInSql hmem, hplain, hsealed]
      simp [Reached, hplain]
    · rw [hnone] at hmem
      cases hmem
  obtain ⟨opened, hopen, hkeep⟩ := Option.map_eq_some_iff.1 h
  refine hopened opened kept (fun x => ?_) hkeep
  split at hopen
  · rw [mem_sealedReferencedPaths hopen, mem_filter]
    simp
  · next hkeyed =>
    cases hopen
    refine iff_of_false (not_mem_nil) fun ⟨_, r, hr, _⟩ => hkeyed (sealedRows_keyed hr)

/-- what is kept has a path -/
theorem path_of_kept (hb : b ∈ kept) : b ∈ blobs ∧ ∃ p, b.relPath = some p ∧ p ≠ [] := by
  unfold filterByNoteReference at h
  simp only at h
  split at h
  · cases h
    cases hb
  · obtain ⟨opened, -, rfl⟩ := Option.map_eq_some_iff.1 h
    obtain ⟨hmem, hany⟩ := mem_filter.1 hb
    obtain ⟨p, hp, hp'⟩ := (Option.any_eq_true ..).1 hany
    refine ⟨hmem, p, hp, ?_⟩
    simpa using (Bool.and_eq_true_iff.1 hp').1

/-- **References, exactly.** For every vault, list of blobs and set of readable notes, once the request is answered: a
blob with a path is kept exactly when some readable note has the path in its text, if and only if the path, where it
fits an excerpt, is readily found. -/
theorem reference_exact (hb : b ∈ blobs) (hp : b.relPath = some p) (hne : p ≠ []) :
    (b ∈ kept ↔ Mentions v readable p) ↔ Readily v blobs readable p := by
  have hmem : p ∈ pathsOf blobs := by
    rw [pathsOf, mem_eraseDups, mem_filter]
    exact ⟨mem_filterMap.2 ⟨b, hb, hp⟩, by simpa using hne⟩
  rw [mem_filterByNoteReference h hb hp hne, mem_referencedInSql hmem]
  unfold Readily
  have hsealed : (∃ r ∈ v.sealedRows readable, p <:+: r.text) → Mentions v readable p := by
    intro ⟨r, hr, hpr⟩
    exact mentions_iff.2 (.inr ⟨sealedRows_keyed hr, r, hr, hpr⟩)
  by_cases hanchored : p ∈ (split (pathsOf blobs)).anchored
  · simp only [if_pos hanchored, hanchored, true_implies]
    constructor
    · exact fun hiff => ⟨hiff.2, fun hreached => hiff.1 (.inl hreached)⟩
    · exact fun ⟨hto, hfrom⟩ => ⟨fun hor => hor.elim hfrom hsealed, hto⟩
  · simp only [if_neg hanchored, hanchored, false_implies, iff_true]
    constructor
    · rintro (hplain | hopen)
      · exact mentions_iff.2 (.inl hplain)
      · exact hsealed hopen
    · intro hm
      exact (mentions_iff.1 hm).imp_right And.right

end

end

/-! ## Runs on fixed inputs -/

/-- a blob whose name begins as its folder does -/
def shortName : BlobAclRow ℕ := ⟨1, some "attachments/a".toList, none⟩

def noteText (text : String) : Vault ℕ := ⟨[⟨7, text.toList, none, false⟩], false, by simp⟩

def plainText : Vault ℕ := noteText "![](attachments/a)"

theorem plain_kept : filterByNoteReference plainText [shortName] [7] true = some [shortName] := by decide +kernel

/-- a plain reference is found -/
theorem plain_reference_kept :
    ∃ kept, filterByNoteReference plainText [shortName] [7] true = some kept ∧
      (shortName ∈ kept ↔ Mentions plainText [7] "attachments/a".toList) :=
  ⟨_, plain_kept, (reference_exact plain_kept (.head _ ..) rfl (by decide +kernel)).2 (by decide +kernel)⟩

/-- The text has the path at its start only, where another anchor starts inside: the window is one empty piece. -/
theorem repeated_anchor_missed :
    filterByNoteReference (noteText "attachments/attachments/p.png") [shortName] [7] true = some [] ∧
      Mentions (noteText "attachments/attachments/p.png") [7] "attachments/a".toList := by
  decide +kernel

end

end Baalda.NoteReferences
