/-
The documents that hold nothing (`listEmptyDocs` in yjs/persistence.ts).

The ids are asked for chunk by chunk; of each chunk the database gives the lowest `cap + 1` empty documents by their
key, `md5(id || ':' || rotation)`, and then by id. What all chunks gave is ordered again, cut at `cap`, and what is kept
is sorted by id. `md5` is a parameter, and so is the order of the database, whose collation of two ids matters only
where they have one key.

`empty_docs_exact`: however the ids are cut into chunks, what is listed are the `cap` lowest empty documents of all the
ids, in the order of their ids, and `truncated` says whether there are more.
-/
import Baalda.Lib.Lowest
import Mathlib.Data.String.Basic

namespace Baalda.EmptyDocs

open Lowest List

/-! ## Model -/

structure NoteRow (Id : Type*) where
  id : Id
  deleted : Bool

/-- the notes, and the documents that have rows of updates or a snapshot -/
structure Db (Id : Type*) where
  notes : List (NoteRow Id)
  docUpdates : List Id
  docSnapshots : List Id
  notes_id : (notes.map NoteRow.id).Nodup

/-- a row of the query -/
@[ext] structure Row (Id K : Type*) where
  id : Id
  k : K
  deriving DecidableEq

structure Listed (Id : Type*) where
  empty : List Id
  truncated : Bool
  deriving DecidableEq

section

variable {Id K : Type*} [LinearOrder Id] [LinearOrder K]

/-- by key, then by id: the comparison that `ranked` is sorted with -/
instance : LinearOrder (Row Id K) :=
  LinearOrder.lift' (fun r => toLex (r.k, r.id)) fun a b h => by
    have hpair : (a.k, a.id) = (b.k, b.id) := toLex.injective h
    exact Row.ext (congrArg Prod.snd hpair) (congrArg Prod.fst hpair)

variable (md5 : Id → K) (orderBy : Row Id K → Row Id K → Bool) (db : Db Id)

def rowOf (id : Id) : Row Id K := ⟨id, md5 id⟩

/-- what one chunk's query gives; `orderBy` is `ORDER BY k, d.id` -/
def query (chunk : List Id) (limit : ℕ) : List (Row Id K) :=
  let rows := chunk.flatMap fun id =>
    (db.notes.filter fun n => n.id = id ∧ n.deleted = false ∧ id ∉ db.docUpdates ∧ id ∉ db.docSnapshots).map
      fun _ => rowOf md5 id
  (rows.insertionSort fun a b => orderBy a b).take limit

/-- `slice(i, i + CHUNK)` for `i` in steps of `CHUNK`; the first argument is at least the length -/
def chunksOf (size : ℕ) : ℕ → List Id → List (List Id)
  | 0, _ => []
  | n + 1, ids => if ids = [] then [] else ids.take size :: chunksOf size n (ids.drop size)

/-- `new Map`, filled from the rows: one row an id -/
def byId (found : List (Row Id K)) : List (Row Id K) :=
  found.foldl (fun m r => if m.any (·.id = r.id) then m.map fun x => if x.id = r.id then r else x else m ++ [r]) []

def listEmptyDocs (chunk : ℕ) (docIds : List Id) (cap : ℕ) : Listed Id :=
  if docIds = [] then ⟨[], false⟩
  else
    let found := (chunksOf chunk docIds.length docIds).flatMap fun ids => query md5 orderBy db ids (cap + 1)
    let ranked := sorted (byId found)
    ⟨sorted ((ranked.take cap).map Row.id), decide (cap < ranked.length)⟩

/-- a live note with no content -/
def Db.isEmptyDoc (id : Id) : Prop :=
  (∃ n ∈ db.notes, n.id = id ∧ n.deleted = false) ∧ id ∉ db.docUpdates ∧ id ∉ db.docSnapshots

instance (id : Id) : Decidable (db.isEmptyDoc id) := inferInstanceAs (Decidable (_ ∧ _))

/-! ## The query -/

variable {md5 orderBy db} {ids docIds : List Id} {id : Id} {chunk cap limit : ℕ}

theorem insertionSort_congr {α : Type*} {r s : α → α → Prop} [DecidableRel r] [DecidableRel s] {l : List α}
    (h : ∀ a ∈ l, ∀ b ∈ l, r a b ↔ s a b) : l.insertionSort r = l.insertionSort s := by
  induction l with
  | nil => rfl
  | cons a l ih =>
    have hrest : l.insertionSort r = l.insertionSort s :=
      ih fun x hx y hy => h x (mem_cons_of_mem a hx) y (mem_cons_of_mem a hy)
    have hinsert : ∀ m : List α, (∀ b ∈ m, r a b ↔ s a b) → m.orderedInsert r a = m.orderedInsert s a := by
      intro m hm
      induction m with
      | nil => rfl
      | cons b m ihm =>
        have hb := hm b mem_cons_self
        have htail := ihm fun c hc => hm c (mem_cons_of_mem b hc)
        by_cases hab : r a b
        · rw [orderedInsert_cons, orderedInsert_cons, if_pos hab, if_pos (hb.1 hab)]
        · rw [orderedInsert_cons, orderedInsert_cons, if_neg hab, if_neg fun hs => hab (hb.2 hs), htail]
    rw [insertionSort_cons, insertionSort_cons, ← hrest]
    apply hinsert
    intro b hb
    exact h a mem_cons_self b (mem_cons_of_mem a ((mem_insertionSort r).1 hb))

/-- the primary key leaves one row of `notes` to join with -/
theorem filter_keyed {β : Type*} {notes : List (NoteRow Id)} (hkey : (notes.map NoteRow.id).Nodup)
    {p : NoteRow Id → Bool} (hp : ∀ n, p n = true → n.id = id) (y : β) :
    (notes.filter p).map (fun _ => y) = if ∃ n ∈ notes, p n = true then [y] else [] := by
  induction notes with
  | nil => simp
  | cons n notes ih =>
    obtain ⟨hnot, hrest⟩ := nodup_cons.1 hkey
    rw [filter_cons]
    by_cases hn : p n = true
    · have hnone : notes.filter p = [] := by
        rw [filter_eq_nil_iff]
        exact fun x hx hpx => hnot (mem_map.2 ⟨x, hx, (hp x hpx).trans (hp n hn).symm⟩)
      rw [if_pos hn, hnone, if_pos ⟨n, .head _, hn⟩]
      rfl
    · rw [if_neg hn, ih hrest]
      simp [hn]

theorem filter_notes (id : Id) :
    (db.notes.filter fun n => n.id = id ∧ n.deleted = false ∧ id ∉ db.docUpdates ∧ id ∉ db.docSnapshots).map
      (fun _ => rowOf md5 id) = if db.isEmptyDoc id then [rowOf md5 id] else [] := by
  rw [filter_keyed db.notes_id (fun n hn => (of_decide_eq_true hn).1)]
  refine if_congr ?_ rfl rfl
  simp only [decide_eq_true_eq, Db.isEmptyDoc]
  constructor
  · rintro ⟨n, hn, hid, hlive, hnone⟩
    exact ⟨⟨n, hn, hid, hlive⟩, hnone⟩
  · rintro ⟨⟨n, hn, hid, hlive⟩, hnone⟩
    exact ⟨n, hn, hid, hlive, hnone⟩

/-- the rows of a list's empty documents -/
def rowsOf (md5 : Id → K) (db : Db Id) (ids : List Id) : List (Row Id K) :=
  (ids.filter fun id => db.isEmptyDoc id).map (rowOf md5)

theorem mem_rowsOf {r : Row Id K} : r ∈ rowsOf md5 db ids ↔ r.id ∈ ids ∧ db.isEmptyDoc r.id ∧ r.k = md5 r.id := by
  constructor
  · intro h
    obtain ⟨id, hid, rfl⟩ := mem_map.1 h
    obtain ⟨hin, hempty⟩ := mem_filter.1 hid
    exact ⟨hin, of_decide_eq_true hempty, rfl⟩
  · rintro ⟨hin, hempty, hk⟩
    exact mem_map.2 ⟨r.id, mem_filter.2 ⟨hin, decide_eq_true hempty⟩, Row.ext rfl hk.symm⟩

theorem rowOf_injective : Function.Injective (rowOf md5 : Id → Row Id K) := fun _ _ h => congrArg Row.id h

theorem rowsOf_nodup (h : ids.Nodup) : (rowsOf md5 db ids).Nodup := (h.filter _).map rowOf_injective

/-- the database orders the rows of these ids as JavaScript does -/
def Collates (md5 : Id → K) (orderBy : Row Id K → Row Id K → Bool) (docIds : List Id) : Prop :=
  ∀ a ∈ docIds, ∀ b ∈ docIds, orderBy (rowOf md5 a) (rowOf md5 b) = decide (rowOf md5 a ≤ rowOf md5 b)

theorem query_eq (h : Collates md5 orderBy docIds) (hsub : ids ⊆ docIds) :
    query md5 orderBy db ids limit = lowest limit (rowsOf md5 db ids) := by
  have hrows : (ids.flatMap fun id => if db.isEmptyDoc id then [rowOf md5 id] else []) = rowsOf md5 db ids := by
    unfold rowsOf
    induction ids with
    | nil => rfl
    | cons id ids ih =>
      rw [flatMap_cons, ih fun x hx => hsub (mem_cons_of_mem id hx), filter_cons]
      by_cases hempty : db.isEmptyDoc id
      · rw [if_pos hempty, if_pos (decide_eq_true hempty)]
        rfl
      · rw [if_neg hempty, if_neg (by simpa using hempty)]
        rfl
  unfold query lowest sorted
  simp only [filter_notes, hrows]
  refine congrArg (take limit) (insertionSort_congr fun a ha b hb => ?_)
  obtain ⟨hina, _, hka⟩ := mem_rowsOf.1 ha
  obtain ⟨hinb, _, hkb⟩ := mem_rowsOf.1 hb
  have hrowa : a = rowOf md5 a.id := Row.ext rfl hka
  have hrowb : b = rowOf md5 b.id := Row.ext rfl hkb
  rw [hrowa, hrowb, h a.id (hsub hina) b.id (hsub hinb), decide_eq_true_iff]

theorem flatten_chunksOf (hchunk : 0 < chunk) {n : ℕ} (hlen : ids.length ≤ n) :
    (chunksOf chunk n ids).flatten = ids := by
  induction n generalizing ids with
  | zero => exact (eq_nil_of_length_eq_zero (Nat.le_zero.1 hlen)).symm
  | succ n ih =>
    rw [chunksOf]
    split
    next hnil => rw [hnil]; rfl
    next hne =>
      rw [flatten_cons, ih (by rw [length_drop]; omega), take_append_drop]

/-- rows of different ids: the map has them as they were found -/
theorem byId_eq {found : List (Row Id K)} (h : (found.map Row.id).Nodup) : byId found = found := by
  induction found using reverseRecOn with
  | nil => rfl
  | append_singleton found r ih =>
    rw [map_append, nodup_append] at h
    obtain ⟨hfound, _, hdisjoint⟩ := h
    have hnew : found.any (·.id = r.id) = false := by
      rw [any_eq_false]
      intro x hx hid
      exact hdisjoint x.id (mem_map_of_mem hx) r.id (mem_singleton.2 rfl) (of_decide_eq_true hid)
    have hbefore := ih hfound
    unfold byId at hbefore ⊢
    rw [foldl_append, hbefore, foldl_cons, foldl_nil, hnew]
    rfl

/-- what all chunks gave -/
theorem found_eq (h : Collates md5 orderBy docIds) (hchunk : 0 < chunk) :
    ((chunksOf chunk docIds.length docIds).flatMap fun ids => query md5 orderBy db ids (cap + 1)) =
      ofParts (cap + 1) ((chunksOf chunk docIds.length docIds).map (rowsOf md5 db)) := by
  have hall : (chunksOf chunk docIds.length docIds).flatten = docIds := flatten_chunksOf hchunk le_rfl
  rw [ofParts, flatMap_map]
  refine flatMap_congr fun ids hids => query_eq h fun id hid => ?_
  rw [← hall]
  exact mem_flatten.2 ⟨ids, hids, hid⟩

theorem flatten_rowsOf (hchunk : 0 < chunk) :
    ((chunksOf chunk docIds.length docIds).map (rowsOf md5 db)).flatten = rowsOf md5 db docIds := by
  have hall : ∀ parts : List (List Id), (parts.map (rowsOf md5 db)).flatten = rowsOf md5 db parts.flatten := by
    intro parts
    induction parts with
    | nil => rfl
    | cons ids parts ih =>
      rw [map_cons, flatten_cons, ih, flatten_cons]
      unfold rowsOf
      rw [filter_append, map_append]
  rw [hall, flatten_chunksOf hchunk le_rfl]

/-- how many of the ids name an empty document with a lower row -/
theorem rank_rowsOf : rank (rowsOf md5 db docIds) (rowOf md5 id) =
    docIds.countP fun other => db.isEmptyDoc other ∧ rowOf md5 other < rowOf md5 id := by
  unfold rank rowsOf
  rw [countP_map, countP_filter]
  refine countP_congr fun other _ => ?_
  simp [and_comm]

/-- **The empty documents.** For every set of rows, every list of distinct ids and every way of cutting it into chunks,
the ids listed are those of the `cap` lowest empty documents, sorted, and `truncated` says whether there are more. -/
theorem empty_docs_exact (md5 : Id → K) (orderBy : Row Id K → Row Id K → Bool) (db : Db Id) (docIds : List Id)
    (chunk cap : ℕ) (hnodup : docIds.Nodup) (hchunk : 0 < chunk) (hcollates : Collates md5 orderBy docIds) :
    (listEmptyDocs md5 orderBy db chunk docIds cap).empty.Pairwise (· < ·) ∧
      (∀ id, id ∈ (listEmptyDocs md5 orderBy db chunk docIds cap).empty ↔ id ∈ docIds ∧ db.isEmptyDoc id ∧
        (docIds.countP fun other => db.isEmptyDoc other ∧ rowOf md5 other < rowOf md5 id) < cap) ∧
      ((listEmptyDocs md5 orderBy db chunk docIds cap).truncated = true ↔
        cap < docIds.countP fun id => db.isEmptyDoc id) := by
  unfold listEmptyDocs
  split
  next hnil =>
    subst hnil
    simp
  next =>
    have hflatten : ((chunksOf chunk docIds.length docIds).map (rowsOf md5 db)).flatten = rowsOf md5 db docIds :=
      flatten_rowsOf hchunk
    set parts := (chunksOf chunk docIds.length docIds).map (rowsOf md5 db) with hparts
    have hrows : parts.flatten.Nodup := hflatten ▸ rowsOf_nodup hnodup
    have hid : ∀ r ∈ ofParts (cap + 1) parts, r = rowOf md5 r.id := by
      intro r hr
      have hin := ofParts_subset hr
      rw [hflatten] at hin
      exact Row.ext rfl (mem_rowsOf.1 hin).2.2
    have hids : ((ofParts (cap + 1) parts).map Row.id).Nodup := by
      refine (ofParts_nodup hrows).map_on fun a ha b hb hab => ?_
      rw [hid a ha, hid b hb, hab]
    have hfound : byId ((chunksOf chunk docIds.length docIds).flatMap fun ids => query md5 orderBy db ids (cap + 1)) =
        ofParts (cap + 1) parts := by
      rw [found_eq hcollates hchunk]
      exact byId_eq hids
    have htaken : ∀ r, r ∈ lowest cap (ofParts (cap + 1) parts) ↔
        r ∈ rowsOf md5 db docIds ∧ rank (rowsOf md5 db docIds) r < cap := by
      intro r
      rw [mem_lowest_parts hrows (Nat.le_succ cap), hflatten, mem_lowest (rowsOf_nodup hnodup)]
    dsimp only
    rw [hfound]
    refine ⟨?_, fun id => ?_, ?_⟩
    · apply sorted_lt
      have hsorted : ((sorted (ofParts (cap + 1) parts)).map Row.id).Nodup :=
        ((sorted_perm _).map Row.id).nodup_iff.2 hids
      exact hsorted.sublist ((take_sublist cap _).map Row.id)
    · rw [mem_sorted, mem_map, ← rank_rowsOf]
      constructor
      · rintro ⟨r, hr, rfl⟩
        obtain ⟨hin, hrank⟩ := (htaken r).1 hr
        obtain ⟨hid, hempty, hk⟩ := mem_rowsOf.1 hin
        have hrow : r = rowOf md5 r.id := Row.ext rfl hk
        exact ⟨hid, hempty, hrow ▸ hrank⟩
      · rintro ⟨hid, hempty, hrank⟩
        exact ⟨rowOf md5 id, (htaken _).2 ⟨mem_rowsOf.2 ⟨hid, hempty, rfl⟩, hrank⟩, rfl⟩
    · rw [decide_eq_true_iff, (sorted_perm _).length_eq, lt_length_parts hrows, hflatten, rowsOf, length_map,
        countP_eq_length_filter]

end

section Runs

/-- the md5 sums of `a:2026-11-03`, `b:2026-11-03` and `c:2026-11-03` -/
def md5Of (id : String) : ℕ :=
  if id = "a" then 0x5f176b76c39ea5892cdbd716ead6efd3
  else if id = "b" then 0x23a0bc88ac8edc4b9669e331828110f7
  else 0x33da01b0fea673142907ec77c42bba9b

def threeNotes : Db String := ⟨[⟨"a", false⟩, ⟨"b", false⟩, ⟨"c", false⟩], [], [], by decide +kernel⟩

/-- three empty notes in two chunks, two of them listed -/
theorem empty_docs_exact_three :
    (listEmptyDocs md5Of (fun a b => decide (a ≤ b)) threeNotes 2 ["a", "b", "c"] 2).truncated = true ∧
      listEmptyDocs md5Of (fun a b => decide (a ≤ b)) threeNotes 2 ["a", "b", "c"] 2 = ⟨["b", "c"], true⟩ := by
  have hexact := empty_docs_exact md5Of (fun a b => decide (a ≤ b)) threeNotes ["a", "b", "c"] 2 2 (by decide +kernel)
    (by decide +kernel) (fun _ _ _ _ => rfl)
  exact ⟨hexact.2.2.2 (by decide +kernel), by decide +kernel⟩

/-- **The order of the answer** is that of the ids: the key of a is above that of b. -/
theorem listed_by_id :
    (listEmptyDocs md5Of (fun a b => decide (a ≤ b)) threeNotes 2 ["a", "b"] 2).empty = ["a", "b"] ∧
      ¬ (listEmptyDocs md5Of (fun a b => decide (a ≤ b)) threeNotes 2 ["a", "b"] 2).empty.Pairwise
        fun x y => rowOf md5Of x < rowOf md5Of y := by
  decide +kernel

end Runs

end Baalda.EmptyDocs
