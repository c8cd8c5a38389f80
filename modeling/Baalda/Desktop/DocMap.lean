/-
The path ↔ document map (`apps/desktop/src/lib/sync/registry.ts`): `byPath` and `byDocId`, what sets them and what of
them survives a restart.

- `setMapping`: the one writer of both maps. It drops the path that the document had, not the document the path had.
- `resolveNotes`: step 3 of `syncStructure`, the server's rows one by one and then the collapse of case twins.
- `configSnapshot`, `adoptConfigDocs`: the `docs` of `.context/config.json`, written and read back.

A run is any sequence of `setMapping` calls, of snapshots written and of restarts that adopt the last one written.
`oneToOne_setMapping`: a call keeps the maps inverse exactly where its path is free or the document's own.
`same_restored_iff`: what is read back is what was written exactly where the maps are inverse and no id is empty.

Note paths end in a note extension, so none of them is an array index or `__proto__`: the object keeps their order.
-/
import Mathlib.Tactic
import Baalda.Lib.Machine
import Baalda.Desktop.Inbound
import Baalda.Lib.Slots

namespace Baalda.DocMap

open List Inbound

/-! ## A `Map`: its entries in insertion order, each key once -/

structure Dict (K V : Type*) where
  entries : List (K × V)
  nodup : (entries.map Prod.fst).Nodup

namespace Dict

variable {K V : Type*} [DecidableEq K] {m : Dict K V} {k k' : K} {v v' : V}

def empty : Dict K V := ⟨[], nodup_nil⟩

def get (m : Dict K V) (k : K) : Option V := (m.entries.find? fun e => e.1 = k).map Prod.snd

def delete (m : Dict K V) (k : K) : Dict K V :=
  ⟨m.entries.filter fun e => e.1 ≠ k, m.nodup.sublist (filter_sublist.map _)⟩

/-- an entry that is there keeps its place -/
def setEntries (l : List (K × V)) (k : K) (v : V) : List (K × V) :=
  if k ∈ l.map Prod.fst then l.map fun e => if e.1 = k then (k, v) else e else l ++ [(k, v)]

theorem nodup_setEntries {l : List (K × V)} (h : (l.map Prod.fst).Nodup) : ((setEntries l k v).map Prod.fst).Nodup := by
  rw [setEntries]
  split
  next =>
    have hkeys : (l.map fun e => if e.1 = k then (k, v) else e).map Prod.fst = l.map Prod.fst := by
      rw [map_map]
      refine map_congr_left fun e _ => ?_
      by_cases he : e.1 = k <;> simp [he]
    rw [hkeys]
    exact h
  next hk =>
    rw [map_append]
    exact h.append (nodup_singleton k) (by simpa using hk)

def set (m : Dict K V) (k : K) (v : V) : Dict K V := ⟨setEntries m.entries k v, nodup_setEntries m.nodup⟩

theorem get_eq_some : m.get k = some v ↔ (k, v) ∈ m.entries := by
  constructor
  · intro h
    obtain ⟨e, he, rfl⟩ := Option.map_eq_some_iff.1 h
    obtain rfl : e.1 = k := of_decide_eq_true (find?_some he :)
    exact mem_of_find?_eq_some he
  · intro h
    obtain ⟨e, he⟩ : ∃ e, m.entries.find? (fun e => e.1 = k) = some e :=
      Option.isSome_iff_exists.1 (find?_isSome.2 ⟨_, h, by simp⟩)
    have hkey : e.1 = k := of_decide_eq_true (find?_some he :)
    obtain rfl := inj_on_of_nodup_map m.nodup (mem_of_find?_eq_some he) h hkey
    rw [get, he]
    rfl

@[simp] theorem get_empty (k : K) : (empty : Dict K V).get k = none := rfl

theorem get_delete : (m.delete k).get k' = if k' = k then none else m.get k' := by
  refine Option.ext fun v => ?_
  rw [get_eq_some, delete, mem_filter]
  split
  next h => simp [h]
  next h => rw [get_eq_some, and_iff_left (by simpa using h)]

theorem get_set : (m.set k v).get k' = if k' = k then some v else m.get k' := by
  refine Option.ext fun w => ?_
  rw [get_eq_some]
  change (k', w) ∈ setEntries m.entries k v ↔ _
  rw [setEntries]
  split
  next hk =>
    obtain ⟨e, he, rfl⟩ := mem_map.1 hk
    rw [mem_map]
    split
    next h =>
      subst h
      constructor
      · rintro ⟨e', -, h'⟩
        split at h'
        next => exact congrArg some (Prod.mk.inj h').2
        next hne => exact absurd (congrArg Prod.fst h') hne
      · rintro ⟨⟩
        exact ⟨e, he, if_pos rfl⟩
    next h =>
      rw [get_eq_some]
      constructor
      · rintro ⟨e', he', h'⟩
        split at h'
        next => exact absurd (Prod.mk.inj h').1.symm h
        next => exact h' ▸ he'
      · intro h'
        exact ⟨_, h', if_neg h⟩
  next hk =>
    rw [mem_append, mem_singleton, Prod.mk.injEq]
    split
    next h =>
      subst h
      have hno : (k', w) ∉ m.entries := fun he => hk (mem_map_of_mem he)
      simp [hno, eq_comm]
    next h => rw [get_eq_some, or_iff_left fun hw => h hw.1]

end Dict

/-! ## The two maps -/

/-- an id as the list of its characters -/
abbrev DocId := List Char

local instance : LawfulBEq Path := inferInstance

structure DocMapping where
  vaultId : DocId
  docId : DocId

structure Maps where
  byPath : Dict Path DocMapping
  byDocId : Dict DocId Path

namespace Maps

variable (s : Maps)

def empty : Maps := ⟨.empty, .empty⟩

def setMapping (relPath : Path) (docId vaultId : DocId) : Maps :=
  let byPath := match s.byDocId.get docId with
    | some previous => if previous ≠ relPath then s.byPath.delete previous else s.byPath
    | none => s.byPath
  ⟨byPath.set relPath ⟨vaultId, docId⟩, s.byDocId.set docId relPath⟩

/-- the document that `byPath` has at a path -/
def docAt (path : Path) : Option DocId := (s.byPath.get path).map DocMapping.docId

/-- no two documents at one path and no document at two: the maps are inverse of each other -/
def OneToOne : Prop := ∀ path docId, s.docAt path = some docId ↔ s.byDocId.get docId = some path

/-- the same mapping, whichever vault its entries were made for -/
def Same (s t : Maps) : Prop :=
  (∀ path, s.docAt path = t.docAt path) ∧ ∀ docId, s.byDocId.get docId = t.byDocId.get docId

/-! ### The config file -/

/-- the `docs` of the config: path → id -/
def configSnapshot : Dict Path DocId :=
  ⟨s.byPath.entries.map fun e => (e.1, e.2.docId), by rw [map_map]; exact s.byPath.nodup⟩

/-- one path for each id: the last one wins -/
def pathForDoc (docs : List (Path × DocId)) : Dict DocId Path :=
  docs.foldl (fun m e => if e.2 ≠ [] then m.set e.2 e.1 else m) .empty

def adopt (entries : List (DocId × Path)) (vaultId : DocId) : Maps :=
  entries.foldl (fun s e => s.setMapping e.2 e.1 vaultId) s

def adoptConfigDocs (docs : Dict Path DocId) (vaultId : DocId) : Maps :=
  s.adopt (pathForDoc docs.entries).entries vaultId

/-! ### Step 3 of a pass -/

/-- what a row is mapped under: the path on disk that names the same file, else the server's -/
def mappedPath (S : Strings) (notes : List Path) (serverPath : Path) : Path :=
  ((notes.reverse.find? fun p => pathKey S p = pathKey S serverPath)).getD serverPath

/-- the rows of a listing -/
structure Listing where
  rows : List (DocId × Path)
  ids : (rows.map Prod.fst).Nodup
  paths : (rows.map Prod.snd).Nodup

/-- a path that is no row's, though a row is mapped under a case variant of it, goes -/
def collapse (S : Strings) (resolved : List Path) (vaultId : DocId) : Maps :=
  { s with byPath := (s.byPath.entries.filter fun e => e.1 ∉ resolved ∧ pathKey S e.1 ∈ resolved.map (pathKey S) ∧
      e.2.vaultId = vaultId).foldl (fun m e => m.delete e.1) s.byPath }

/-- what each row is mapped under -/
def resolved (S : Strings) (notes : List Path) (rows : List (DocId × Path)) : List (DocId × Path) :=
  rows.map fun r => (r.1, mappedPath S notes r.2)

def resolveNotes (S : Strings) (notes : List Path) (l : Listing) (vaultId : DocId) : Maps :=
  (s.adopt (resolved S notes l.rows) vaultId).collapse S ((resolved S notes l.rows).map Prod.snd) vaultId

/-! ## One call -/

variable {s} {path p : Path} {docId d vaultId : DocId}

theorem byDocId_setMapping :
    (s.setMapping path docId vaultId).byDocId.get d = if d = docId then some path else s.byDocId.get d := Dict.get_set

theorem docAt_setMapping : (s.setMapping path docId vaultId).docAt p =
    if p = path then some docId else if s.byDocId.get docId = some p then none else s.docAt p := by
  rw [docAt, setMapping, Dict.get_set]
  split
  next => rfl
  next hp =>
    cases hprev : s.byDocId.get docId with
    | none => simp [docAt]
    | some previous =>
      by_cases hsame : previous = path
      · subst hsame
        simp [docAt, Ne.symm hp]
      · dsimp only
        rw [if_pos hsame, Dict.get_delete, docAt]
        by_cases hprevious : p = previous
        · rw [if_pos hprevious, if_pos (congrArg some hprevious.symm)]
          rfl
        · rw [if_neg hprevious, if_neg fun h => hprevious (Option.some.inj h).symm]

/-- A call keeps the maps inverse exactly where its path is free or the document's own. -/
theorem oneToOne_setMapping (h : s.OneToOne) : (s.setMapping path docId vaultId).OneToOne ↔
    s.docAt path = none ∨ s.docAt path = some docId := by
  constructor
  · intro hafter
    by_contra hno
    push Not at hno
    obtain ⟨other, hother⟩ := Option.ne_none_iff_exists'.1 hno.1
    have hne : other ≠ docId := by
      rintro rfl
      exact hno.2 hother
    have hkept : (s.setMapping path docId vaultId).byDocId.get other = some path := by
      rw [byDocId_setMapping, if_neg hne]
      exact (h _ _).1 hother
    have htaken := (hafter _ _).2 hkept
    rw [docAt_setMapping, if_pos rfl] at htaken
    exact hne (Option.some.inj htaken).symm
  · intro hfree p d
    rw [docAt_setMapping, byDocId_setMapping]
    split
    next hp =>
      subst hp
      split
      next hd => simp [hd]
      next hd =>
        rw [← h]
        rcases hfree with hfree | hfree <;> simp [hfree, Ne.symm hd]
    next hp =>
      split
      next hprev =>
        split
        next => simpa using Ne.symm hp
        next hd =>
          rw [← h, (h _ _).2 hprev]
          simp [Ne.symm hd]
      next hprev =>
        rw [h]
        split
        next hd =>
          subst hd
          simp [hprev, Ne.symm hp]
        next => rfl

/-! ## Many calls -/

theorem adopt_snoc (l : List (DocId × Path)) (e : DocId × Path) :
    s.adopt (l ++ [e]) vaultId = (s.adopt l vaultId).setMapping e.2 e.1 vaultId := by
  rw [adopt, foldl_append]
  rfl

theorem byDocId_adopt {l : List (DocId × Path)} (hl : (l.map Prod.fst).Nodup) : (s.adopt l vaultId).byDocId.get d =
    ((l.find? fun e => e.1 = d).map Prod.snd).or (s.byDocId.get d) := by
  induction l using reverseRecOn with
  | nil => rfl
  | append_singleton l e ih =>
    rw [map_append, nodup_append] at hl
    rw [adopt_snoc, byDocId_setMapping, find?_append, find?_singleton]
    split
    next hd =>
      have hno : l.find? (fun a => a.1 = d) = none := by
        refine find?_eq_none.2 fun a ha hk => ?_
        exact hl.2.2 a.1 (mem_map_of_mem ha) e.1 (by simp) ((of_decide_eq_true hk).trans hd)
      subst hd
      simp [hno]
    next hd => simp [ih hl.1, Ne.symm hd]

/-- Rows with distinct ids, set in turn: each is at its path exactly where no later row takes the path, or had it. -/
theorem docAt_adopt {l : List (DocId × Path)} (hl : (l.map Prod.fst).Nodup) (vaultId : DocId) :
    (∀ r ∈ l, (s.adopt l vaultId).docAt r.2 = some r.1) ↔
      l.Pairwise fun a b => b.2 ≠ a.2 ∧ s.byDocId.get b.1 ≠ some a.2 := by
  induction l using reverseRecOn with
  | nil => simp
  | append_singleton l e ih =>
    rw [map_append, nodup_append] at hl
    have hnew : ∀ r ∈ l, r.1 ≠ e.1 := fun r hr => hl.2.2 r.1 (mem_map_of_mem hr) e.1 (by simp)
    have hprev : (s.adopt l vaultId).byDocId.get e.1 = s.byDocId.get e.1 := by
      have hno : l.find? (fun a => a.1 = e.1) = none :=
        find?_eq_none.2 fun a ha hk => hnew a ha (of_decide_eq_true hk)
      rw [byDocId_adopt hl.1, hno]
      rfl
    have hrow : ∀ r ∈ l, (s.adopt (l ++ [e]) vaultId).docAt r.2 = some r.1 ↔
        (s.adopt l vaultId).docAt r.2 = some r.1 ∧ e.2 ≠ r.2 ∧ s.byDocId.get e.1 ≠ some r.2 := by
      intro r hr
      rw [adopt_snoc, docAt_setMapping, hprev]
      split
      next h => simp [h, Ne.symm (hnew r hr)]
      next h => split <;> simp_all [Ne.symm h]
    have hlast : (s.adopt (l ++ [e]) vaultId).docAt e.2 = some e.1 := by rw [adopt_snoc, docAt_setMapping, if_pos rfl]
    rw [pairwise_append, ← ih hl.1]
    constructor
    · intro h
      have hall := fun r hr => (hrow r hr).1 (h r (mem_append_left _ hr))
      refine ⟨fun r hr => (hall r hr).1, pairwise_singleton _ _, ?_⟩
      intro r hr b hb
      obtain rfl := mem_singleton.1 hb
      exact (hall r hr).2
    · rintro ⟨hrows, -, hfree⟩ r hr
      rcases mem_snoc.1 hr with hr | rfl
      · exact (hrow r hr).2 ⟨hrows r hr, hfree r hr e (by simp)⟩
      · exact hlast

/-- a collapse leaves what the rows are mapped under -/
theorem docAt_collapse {S : Strings} {paths : List Path} (hp : p ∈ paths) :
    (s.collapse S paths vaultId).docAt p = s.docAt p := by
  suffices h : ∀ (l : List (Path × DocMapping)) (m : Dict Path DocMapping), (∀ e ∈ l, e.1 ∉ paths) →
      (l.foldl (fun m e => m.delete e.1) m).get p = m.get p by
    rw [docAt, collapse, h]
    · rfl
    · intro e he
      exact (of_decide_eq_true (mem_filter.1 he).2).1
  intro l
  induction l with
  | nil => exact fun _ _ => rfl
  | cons e l ih =>
    intro m hl
    have hne : p ≠ e.1 := by
      rintro rfl
      exact hl e mem_cons_self hp
    rw [foldl_cons, ih _ fun a ha => hl a (mem_cons_of_mem _ ha), Dict.get_delete, if_neg hne]

/-! ## Adopting a file -/

theorem pathForDoc_snoc (l : List (Path × DocId)) (e : Path × DocId) :
    pathForDoc (l ++ [e]) = if e.2 ≠ [] then (pathForDoc l).set e.2 e.1 else pathForDoc l := by
  rw [pathForDoc, foldl_append]
  rfl

theorem mem_of_pathForDoc {docs : List (Path × DocId)} (h : (pathForDoc docs).get d = some p) :
    (p, d) ∈ docs ∧ d ≠ [] := by
  induction docs using reverseRecOn with
  | nil => simp [pathForDoc] at h
  | append_singleton l e ih =>
    rw [pathForDoc_snoc] at h
    split at h
    next hne =>
      rw [Dict.get_set] at h
      split at h
      next hd =>
        subst hd
        cases h
        exact ⟨by simp, hne⟩
      next => exact (ih h).imp_left (mem_append_left _)
    next => exact (ih h).imp_left (mem_append_left _)

theorem exists_pathForDoc {docs : List (Path × DocId)} (h : (p, d) ∈ docs) (hd : d ≠ []) :
    ∃ q, (pathForDoc docs).get d = some q := by
  induction docs using reverseRecOn with
  | nil => simp at h
  | append_singleton l e ih =>
    rw [pathForDoc_snoc]
    rcases mem_snoc.1 h with h | rfl
    · obtain ⟨q, hq⟩ := ih h
      split
      next =>
        rw [Dict.get_set]
        split
        next => exact ⟨_, rfl⟩
        next => exact ⟨q, hq⟩
      next => exact ⟨q, hq⟩
    · exact ⟨p, by rw [if_pos hd, Dict.get_set, if_pos rfl]⟩

/-- after a restart: empty maps that adopt the file -/
def restored (docs : Dict Path DocId) (vaultId : DocId) : Maps := empty.adoptConfigDocs docs vaultId

variable {docs : Dict Path DocId}

theorem byDocId_restored : (restored docs vaultId).byDocId.get d = (pathForDoc docs.entries).get d := by
  rw [restored, adoptConfigDocs, byDocId_adopt (Dict.nodup _), empty, Dict.get_empty, Option.or_none]
  rfl

theorem oneToOne_adopt {l : List (DocId × Path)} (hids : (l.map Prod.fst).Nodup) (hpaths : (l.map Prod.snd).Nodup) :
    (empty.adopt l vaultId).OneToOne := by
  induction l using reverseRecOn with
  | nil => exact fun _ _ => by simp [adopt, empty, docAt]
  | append_singleton l e ih =>
    rw [map_append, nodup_append] at hids hpaths
    have hinv := ih hids.1 hpaths.1
    rw [adopt_snoc, oneToOne_setMapping hinv]
    left
    by_contra htaken
    obtain ⟨d, hd⟩ := Option.ne_none_iff_exists'.1 htaken
    have hmapped := (hinv _ _).1 hd
    rw [byDocId_adopt hids.1, empty, Dict.get_empty, Option.or_none] at hmapped
    obtain ⟨a, ha, hpath⟩ := Option.map_eq_some_iff.1 hmapped
    exact hpaths.2.2 a.2 (mem_map_of_mem (mem_of_find?_eq_some ha)) e.2 (by simp) hpath

theorem oneToOne_restored : (restored docs vaultId).OneToOne := by
  apply oneToOne_adopt (Dict.nodup _)
  refine Nodup.map_on ?_ (Dict.nodup _).of_map
  rintro ⟨d, p⟩ ha ⟨d', p'⟩ hb hp
  obtain rfl : p = p' := hp
  have hd := inj_on_of_nodup_map docs.nodup (mem_of_pathForDoc (Dict.get_eq_some.2 ha)).1
    (mem_of_pathForDoc (Dict.get_eq_some.2 hb)).1 rfl
  rw [(Prod.mk.inj hd).2]

theorem ne_nil_of_restored (h : (restored docs vaultId).docAt p = some d) : d ≠ [] := by
  rw [oneToOne_restored, byDocId_restored] at h
  exact (mem_of_pathForDoc h).2

theorem mem_configSnapshot : (p, d) ∈ s.configSnapshot.entries ↔ s.docAt p = some d := by
  rw [docAt, Option.map_eq_some_iff, configSnapshot, mem_map]
  constructor
  · rintro ⟨⟨q, m⟩, he, h⟩
    cases h
    exact ⟨m, Dict.get_eq_some.2 he, rfl⟩
  · rintro ⟨m, hm, rfl⟩
    exact ⟨_, Dict.get_eq_some.1 hm, rfl⟩

/-- **The file.** A restart reads back what was written exactly where the maps are inverse and no id is empty. -/
theorem same_restored_iff : (restored s.configSnapshot vaultId).Same s ↔
    s.OneToOne ∧ ∀ path, s.docAt path ≠ some [] := by
  constructor
  · rintro ⟨hdoc, hpath⟩
    constructor
    · intro p d
      rw [← hdoc, ← hpath]
      exact oneToOne_restored p d
    · intro p hempty
      exact ne_nil_of_restored ((hdoc p).trans hempty) rfl
  · rintro ⟨hinv, hne⟩
    have hids : ∀ d, (restored s.configSnapshot vaultId).byDocId.get d = s.byDocId.get d := by
      intro d
      refine Option.ext fun p => ?_
      have hfrom : ∀ q, (pathForDoc s.configSnapshot.entries).get d = some q → s.byDocId.get d = some q :=
        fun q hq => (hinv q d).1 (mem_configSnapshot.1 (mem_of_pathForDoc hq).1)
      rw [byDocId_restored]
      constructor
      · exact hfrom p
      · intro h
        have hdoc := (hinv p d).2 h
        have hd : d ≠ [] := by
          rintro rfl
          exact hne p hdoc
        obtain ⟨q, hq⟩ := exists_pathForDoc (mem_configSnapshot.2 hdoc) hd
        rw [hq, ← hfrom q hq, h]
    refine ⟨?_, hids⟩
    intro p
    refine Option.ext fun d => ?_
    rw [oneToOne_restored, hids, hinv]

end Maps

/-! ## Runs -/

/-- the maps of the running app, and the file -/
structure St where
  maps : Maps
  file : Dict Path DocId

inductive Event where
  | sets (relPath : Path) (docId vaultId : DocId)
  | writes
  | restarts (vaultId : DocId)

def step (s : St) : Event → St
  | .sets relPath docId vaultId => { s with maps := s.maps.setMapping relPath docId vaultId }
  | .writes => { s with file := s.maps.configSnapshot }
  | .restarts vaultId => { s with maps := .restored s.file vaultId }

def init : St := ⟨.empty, .empty⟩

/-- no call takes the path of another document, and no id is empty -/
def Allowed (s : St) : Event → Prop
  | .sets relPath docId _ => (s.maps.docAt relPath = none ∨ s.maps.docAt relPath = some docId) ∧ docId ≠ []
  | _ => True

/-- The maps are inverse of each other, and written now they come back as they are. -/
def Sound (s : St) : Prop := s.maps.OneToOne ∧ ∀ vaultId, (Maps.restored s.maps.configSnapshot vaultId).Same s.maps

theorem sound_iff {s : St} : Sound s ↔ s.maps.OneToOne ∧ ∀ path, s.maps.docAt path ≠ some [] := by
  constructor
  · rintro ⟨-, hsame⟩
    exact Maps.same_restored_iff.1 (hsame [])
  · rintro ⟨hinv, hne⟩
    exact ⟨hinv, fun _ => Maps.same_restored_iff.2 ⟨hinv, hne⟩⟩

theorem sound_step {s : St} {e : Event} (h : Sound s) : Sound (step s e) ↔ Allowed s e := by
  rw [sound_iff] at h
  cases e with
  | writes => simpa [step, Allowed, sound_iff] using h
  | restarts vaultId =>
    simp only [Allowed, iff_true, sound_iff, step]
    exact ⟨Maps.oneToOne_restored, fun p hp => Maps.ne_nil_of_restored hp rfl⟩
  | sets relPath docId vaultId =>
    simp only [step, Allowed, sound_iff, Maps.oneToOne_setMapping h.1]
    refine and_congr_right fun _ => ?_
    constructor
    · rintro hne rfl
      exact hne relPath (by rw [Maps.docAt_setMapping, if_pos rfl])
    · intro hid p hp
      rw [Maps.docAt_setMapping] at hp
      split at hp
      next => exact hid (Option.some.inj hp)
      next =>
        split at hp
        next => cases hp
        next => exact h.2 p hp

/-- **One path, one document.** In every run the maps are inverse, and come back from the file as they were written,
exactly where no call takes the path of another document and no id is empty. After a listing with distinct ids and
paths, resolved over any maps, every row is mapped both ways exactly where no later row is mapped under the path of an
earlier one or was remembered there. -/
theorem doc_map_one_to_one (es : List Event) :
    (Machine.Guarded step Allowed init es ↔ ∀ n, Sound (Machine.run step init (es.take n))) ∧
    ∀ (s : Maps) (S : Strings) (notes : List Path) (l : Maps.Listing) (vaultId : DocId),
      (∀ r ∈ Maps.resolved S notes l.rows, (s.resolveNotes S notes l vaultId).byDocId.get r.1 = some r.2 ∧
        (s.resolveNotes S notes l vaultId).docAt r.2 = some r.1) ↔
      (Maps.resolved S notes l.rows).Pairwise fun a b => b.2 ≠ a.2 ∧ s.byDocId.get b.1 ≠ some a.2 := by
  constructor
  · refine Machine.guarded_iff (fun _ _ _ => trivial) (fun _ _ (_ : True) h => sound_step h) trivial ?_ es
    rw [sound_iff]
    constructor <;> simp [init, Maps.empty, Maps.OneToOne, Maps.docAt]
  · intro s S notes l vaultId
    have hids : ((Maps.resolved S notes l.rows).map Prod.fst).Nodup := by
      rw [Maps.resolved, map_map]
      exact l.ids
    refine Iff.trans (forall₂_congr fun r hr => ?_) (Maps.docAt_adopt hids vaultId)
    rw [Maps.resolveNotes, Maps.docAt_collapse (mem_map_of_mem hr)]
    refine and_iff_right ((Maps.byDocId_adopt hids).trans ?_)
    exact congrArg (Option.or · _) (Dict.get_eq_some (m := ⟨_, hids⟩).2 hr)

/-- Two notes that swap their paths: the second row deletes what the first one set. -/
theorem swap_loses_path : ¬ ∀ es, (Machine.run step init es).maps.OneToOne := by
  intro h
  have hswapped := (h [.sets ['a'] ['1'] [], .sets ['b'] ['2'] [], .sets ['b'] ['1'] [], .sets ['a'] ['2'] []] ['b']
    ['1']).2 (by decide)
  revert hswapped
  decide

end Baalda.DocMap
