/-
The orphan sweep of attachments (`sweepOrphansOnce` in `blobs/gc.ts`, `blobs/refs.ts`).

A blob is an orphan when `blob_refs` has no row for its path. The rows are written where a note is indexed, from the
markdown images and links of its text; a sweep that finds none for a vault builds them from `note_index` first, where a
sealed row has no text. The rule that lets a reader of a note have an attachment (`filterByNoteReference`) looks for the
path anywhere in the text. The statements of the sweep are steps, and anything may happen between two of them.

`sweep_keeps_referenced`: no blob is deleted that a live note's text references, and none of a vault without references
in which some live note cannot be read, if whenever orphans are selected in a vault each of its old attachments that a
live note references has a row, and it has rows at all or the text of every live note, and no note comes to reference an
attachment between its selection and its deletion.
-/
import Baalda.Lib.Machine
import Mathlib.Data.Finset.Image
import Mathlib.Data.List.Sort

namespace Baalda.OrphanSweep

abbrev Text := List Char

local instance : LawfulBEq Text := inferInstance

/-! ## The references in a text -/

/-- `\s` -/
def isSpace (c : Char) : Bool :=
  c.val ∈ [0x9, 0xA, 0xB, 0xC, 0xD, 0x20, 0xA0, 0x1680, 0x2028, 0x2029, 0x202F, 0x205F, 0x3000, 0xFEFF] ||
    (0x2000 ≤ c.val && c.val ≤ 0x200A)

/-- `([^)\s]+)(?:\s+[^)]*)?\)`: the target, and what follows the match -/
def matchTarget (s : Text) : Option (Text × Text) :=
  let target := s.takeWhile fun c => c ≠ ')' && !isSpace c
  if target = [] then none
  else
    match s.dropWhile fun c => c ≠ ')' && !isSpace c with
    | [] => none
    | ')' :: rest => some (target, rest)
    | _ :: more =>
      match more.dropWhile (· ≠ ')') with
      | [] => none
      | _ :: rest => some (target, rest)

/-- what a label in brackets leaves, up to the target -/
def matchLabel (s : Text) : Option (Text × Text) :=
  match s.dropWhile fun c => c ≠ ']' && c ≠ '\n' with
  | ']' :: '(' :: rest => matchTarget rest
  | _ => none

/-- `IMAGE_RE`, at the front -/
def matchImage : Text → Option (Text × Text)
  | '!' :: '[' :: rest => matchLabel rest
  | _ => none

/-- `LINK_RE`, at the front: the label is not empty -/
def matchLink : Text → Option (Text × Text)
  | '[' :: c :: rest => if c = ']' ∨ c = '\n' then none else matchLabel (c :: rest)
  | _ => none

/-- `matchAll`, as far as the fuel goes -/
def matchAll (re : Text → Option (Text × Text)) : ℕ → Text → List Text
  | 0, _ => []
  | _ + 1, [] => []
  | fuel + 1, c :: s =>
    match re (c :: s) with
    | some (target, rest) => target :: matchAll re fuel rest
    | none => matchAll re fuel s

/-- what the languages do with strings -/
structure Strings where
  trim : Text → Text
  toLowerCase : Text → Text
  decodeURIComponent : Text → Option Text
  /-- Postgres -/
  lower : Text → Text

def splitOn (s : Text) : List Text := s.splitOn '/'

/-- `^[a-zA-Z][a-zA-Z0-9+.-]*:` -/
def hasScheme : Text → Bool
  | [] => false
  | c :: s =>
    c.isAlpha && (s.dropWhile fun c => c.isAlphanum || c = '+' || c = '.' || c = '-').head? = some ':'

variable (S : Strings)

def relAssetPath (src : Text) : Option Text :=
  let s := match S.trim src with
    | '/' :: rest => rest
    | s => s
  if s = [] ∨ '\\' ∈ s ∨ s.head? = some '/' then none
  else if hasScheme s then none
  else if (splitOn s).any fun seg => seg = [] || seg = ['.'] || seg = ['.', '.'] then none
  else some s

def attachmentDir : Text := "attachments".toList

/-- `take` -/
def takeRef (raw : Text) : List Text :=
  match relAssetPath S raw with
  | none => []
  | some rel =>
    match splitOn rel with
    | dir :: _ :: _ =>
      if S.toLowerCase dir ≠ attachmentDir then []
      else
        match S.decodeURIComponent rel with
        | some decoded =>
          if decoded ≠ rel then [S.toLowerCase rel, S.toLowerCase decoded] else [S.toLowerCase rel]
        | none => [S.toLowerCase rel]
    | _ => []

def assetRefsFromMarkdown (markdown : Text) : List Text :=
  ((matchAll matchImage markdown.length markdown ++ matchAll matchLink markdown.length markdown).flatMap
    (takeRef S)).dedup

/-! ## Tables -/

structure NoteRow (V D : Type*) where
  id : D
  vaultId : V
  live : Bool
  text : Text
deriving DecidableEq

structure IndexRow (V D : Type*) where
  docId : D
  vaultId : V
  /-- a sealed row has none -/
  content : Option Text
deriving DecidableEq

structure Blob (V D : Type*) where
  id : ℕ
  vaultId : Option V
  relPath : Option Text
  docId : Option D
  ready : Bool
  createdAt : ℕ
deriving DecidableEq

structure Ref (V D : Type*) where
  vaultId : V
  relPath : Text
  docId : D
deriving DecidableEq

structure Db (V D : Type*) where
  notes : List (NoteRow V D)
  noteIndex : List (IndexRow V D)
  blobRefs : Finset (Ref V D)
  blobs : List (Blob V D)
  unique : (blobs.map Blob.id).Nodup

section Model

variable {V D : Type*} [DecidableEq V] [LinearOrder D]

namespace Db

variable (db : Db V D)

/-- `replaceBlobRefs` -/
def replaceBlobRefs (docId : D) (vaultId : V) (markdown : Text) : Db V D :=
  let paths := assetRefsFromMarkdown S markdown
  { db with blobRefs := (db.blobRefs.filter fun r => ¬ (r.docId = docId ∧ (r.vaultId ≠ vaultId ∨ r.relPath ∉ paths))) ∪
      (paths.map fun p => ⟨vaultId, p, docId⟩).toFinset }

def isLive (docId : D) : Bool := db.notes.any fun n => n.id = docId && n.live

/-- the next batch of a rebuild -/
def rebuildBatch (vaultId : V) (after : Option D) : List (IndexRow V D) :=
  ((db.noteIndex.filter fun row => row.vaultId = vaultId && db.isLive row.docId &&
    after.all fun a => a < row.docId).insertionSort fun a b => a.docId ≤ b.docId).take 100

/-- an attachment of the vault, older than the grace period -/
def isCandidate (vaultId : V) (cutoff : ℕ) (b : Blob V D) : Bool :=
  b.vaultId = some vaultId && b.ready && b.relPath.isSome && b.docId = none && b.createdAt < cutoff

def hasRef (vaultId : V) (path : Text) : Prop := ∃ docId, ⟨vaultId, path, docId⟩ ∈ db.blobRefs

instance (vaultId : V) (path : Text) : Decidable (db.hasRef vaultId path) :=
  decidable_of_iff (∃ r ∈ db.blobRefs, r.vaultId = vaultId ∧ r.relPath = path)
    ⟨fun ⟨r, hr, hv, hp⟩ => ⟨r.docId, by rw [← hv, ← hp]; exact hr⟩, fun ⟨_, h⟩ => ⟨_, h, rfl, rfl⟩⟩

def orphans (vaultId : V) (cutoff limit : ℕ) : List (Blob V D) :=
  ((db.blobs.filter fun b => isCandidate vaultId cutoff b && b.relPath.all fun p =>
    ¬ db.hasRef vaultId (S.lower p)).insertionSort fun a b => a.createdAt ≤ b.createdAt).take limit

def deleteBlob (id : ℕ) : Db V D :=
  { db with
    blobs := db.blobs.filter fun b => b.id ≠ id
    unique := db.unique.sublist (List.filter_sublist.map _) }

end Db

/-! ## The sweep -/

inductive Phase (V D : Type*) where
  | between
  | rebuilding (vaultId : V) (after : Option D)
  /-- rows of a batch that have still to be written; `more`: it was a full one -/
  | refreshing (vaultId : V) (rows : List (IndexRow V D)) (after : D) (more : Bool)
  | selecting (vaultId : V)
  | deleting (orphans : List (Blob V D))
deriving DecidableEq

structure Sweep (V D : Type*) where
  cutoff : ℕ
  maxDeletes : ℕ
  deleted : ℕ := 0
  vaults : List V
  phase : Phase V D := .between
  /-- ghost: the orphans are of a vault that has no references, and some live note of it cannot be read -/
  blind : Bool := false
deriving DecidableEq

structure Deletion (V D : Type*) where
  blob : Blob V D
  /-- the tables before it -/
  db : Db V D
  blind : Bool

structure St (V D : Type*) where
  db : Db V D
  sweep : Option (Sweep V D) := none
  /-- ghost -/
  deletions : List (Deletion V D) := []

/-- the references of a vault cannot be derived: it has none, and not every live note has a text in the index -/
def Blind (db : Db V D) (vaultId : V) : Prop :=
  (∀ r ∈ db.blobRefs, r.vaultId ≠ vaultId) ∧
    ∃ n ∈ db.notes, n.live ∧ n.vaultId = vaultId ∧ ∀ row ∈ db.noteIndex, row.docId = n.id → row.content = none

instance (db : Db V D) (vaultId : V) : Decidable (Blind db vaultId) := inferInstanceAs (Decidable (_ ∧ _))

inductive Action (V D : Type*) where
  | starts (enabled : Bool) (cutoff maxDeletes : ℕ) (vaults : List V)
  /-- the next statement of the sweep -/
  | sweeps
  /-- it is over, or rolled back -/
  | stops
  /-- anything else -/
  | changes (db : Db V D)

namespace St

variable (s : St V D)

def setPhase (sw : Sweep V D) (phase : Phase V D) : St V D := { s with sweep := some { sw with phase := phase } }

/-- the vaults come in any order -/
def starts (enabled : Bool) (cutoff maxDeletes : ℕ) (vaults : List V) : St V D :=
  if enabled ∧ 0 < maxDeletes ∧ s.sweep = none ∧ vaults.Nodup ∧
      (∀ v ∈ vaults, ∃ b ∈ s.db.blobs, Db.isCandidate v cutoff b) ∧
      ∀ b ∈ s.db.blobs, ∀ v ∈ b.vaultId, Db.isCandidate v cutoff b → v ∈ vaults then
    { s with sweep := some { cutoff := cutoff, maxDeletes := maxDeletes, vaults := vaults } }
  else s

def sweeps (sw : Sweep V D) : St V D :=
  match sw.phase with
  | .between =>
    match sw.vaults with
    | [] => { s with sweep := none }
    | v :: vaults =>
      if sw.maxDeletes ≤ sw.deleted then { s with sweep := none }
      else if s.db.noteIndex.all fun row => row.vaultId ≠ v then { s with sweep := some { sw with vaults := vaults } }
      else if (s.db.blobRefs.filter fun r => r.vaultId = v) = ∅ then
        { s with sweep := some { sw with vaults := vaults, phase := .rebuilding v none } }
      else { s with sweep := some { sw with vaults := vaults, phase := .selecting v } }
  | .rebuilding v after =>
    let rows := s.db.rebuildBatch v after
    match rows.getLast? with
    | none => s.setPhase sw (.selecting v)
    | some last => s.setPhase sw (.refreshing v rows last.docId (100 ≤ rows.length))
  | .refreshing v [] after more => s.setPhase sw (if more then .rebuilding v (some after) else .selecting v)
  | .refreshing v (row :: rows) after more =>
    { s.setPhase sw (.refreshing v rows after more) with
      db := s.db.replaceBlobRefs S row.docId v (row.content.getD []) }
  | .selecting v =>
    { s with sweep := some { sw with
      phase := .deleting (s.db.orphans S v sw.cutoff (sw.maxDeletes - sw.deleted))
      blind := decide (Blind s.db v) } }
  | .deleting [] => s.setPhase sw .between
  | .deleting (b :: orphans) =>
    { db := s.db.deleteBlob b.id
      sweep := some { sw with deleted := sw.deleted + 1, phase := .deleting orphans }
      deletions := s.deletions ++ (s.db.blobs.filter fun row => row.id = b.id).map fun row => ⟨row, s.db, sw.blind⟩ }

end St

def step (s : St V D) : Action V D → St V D
  | .starts enabled cutoff maxDeletes vaults => s.starts enabled cutoff maxDeletes vaults
  | .sweeps =>
    match s.sweep with
    | some sw => s.sweeps S sw
    | none => s
  | .stops => { s with sweep := none }
  | .changes db => { s with db := db }

/-! ## What is to hold -/

/-- the text has the path, as the access rule looks for it -/
def mentions (text path : Text) : Bool := path ≠ [] && decide (path <:+: text)

/-- a live note of the vault references the blob -/
def Referenced (db : Db V D) (b : Blob V D) : Prop :=
  ∃ n ∈ db.notes, n.live ∧ b.vaultId = some n.vaultId ∧ b.relPath.any (mentions n.text)

instance (db : Db V D) (b : Blob V D) : Decidable (Referenced db b) := inferInstanceAs (Decidable (∃ n ∈ db.notes, _))

structure Justified (e : Deletion V D) : Prop where
  unreferenced : ¬ Referenced e.db e.blob
  derived : e.blind = false

/-! ## The condition -/

/-- the old attachments of the vault that a live note references have a row -/
def Covered (db : Db V D) (vaultId : V) (cutoff : ℕ) : Prop :=
  ∀ b ∈ db.blobs, Db.isCandidate vaultId cutoff b → Referenced db b →
    b.relPath.all fun p => db.hasRef vaultId (S.lower p)

instance (db : Db V D) (vaultId : V) (cutoff : ℕ) : Decidable (Covered S db vaultId cutoff) :=
  inferInstanceAs (Decidable (∀ b ∈ db.blobs, _))

/-- of these blobs none that is still there is referenced -/
def Unreferenced (db : Db V D) (orphans : List (Blob V D)) : Prop :=
  ∀ b ∈ orphans, ∀ row ∈ db.blobs, row.id = b.id → ¬ Referenced db row

instance (db : Db V D) (orphans : List (Blob V D)) : Decidable (Unreferenced db orphans) :=
  inferInstanceAs (Decidable (∀ b ∈ orphans, ∀ row ∈ db.blobs, _))

def Evident (s : St V D) (a : Action V D) : Prop :=
  match a, s.sweep with
  | .sweeps, some sw =>
    match sw.phase with
    | .selecting v => Covered S s.db v sw.cutoff ∧
        (¬ Blind s.db v ∨ ∀ b ∈ s.db.blobs, Db.isCandidate v sw.cutoff b = false)
    | _ => True
  | .changes db, some sw =>
    match sw.phase with
    | .deleting orphans => Unreferenced db orphans
    | _ => True
  | _, _ => True

variable {S} {s : St V D}

/-! ## Steps -/

variable {cutoff : ℕ} {b : Blob V D}

/-- an orphan is a blob of the vault that has no row -/
theorem mem_orphans {db : Db V D} {vaultId : V} {limit : ℕ} (h : b ∈ db.orphans S vaultId cutoff limit) :
    b ∈ db.blobs ∧ Db.isCandidate vaultId cutoff b ∧ b.relPath.all fun p => ¬ db.hasRef vaultId (S.lower p) := by
  have hmem := (List.mem_insertionSort _).mp (List.mem_of_mem_take h)
  obtain ⟨hblob, hcond⟩ := List.mem_filter.mp hmem
  rw [Bool.and_eq_true] at hcond
  exact ⟨hblob, hcond⟩

theorem path_of_candidate {vaultId : V} (h : Db.isCandidate vaultId cutoff b) : ∃ path, b.relPath = some path := by
  apply Option.isSome_iff_exists.mp
  simp only [Db.isCandidate, Bool.and_eq_true] at h
  exact h.1.1.2

theorem orphans_unreferenced {db : Db V D} {vaultId : V} (hcovered : Covered S db vaultId cutoff) (limit : ℕ) :
    Unreferenced db (db.orphans S vaultId cutoff limit) := by
  intro b hb row hrow hid href
  obtain ⟨hblob, hcandidate, hnone⟩ := mem_orphans hb
  obtain rfl : row = b := List.inj_on_of_nodup_map db.unique hrow hblob hid
  obtain ⟨path, hpath⟩ := path_of_candidate hcandidate
  have hall := hcovered row hblob hcandidate href
  rw [hpath] at hall hnone
  simp only [Option.all_some, decide_eq_true_eq] at hall hnone
  exact hnone hall

structure Inv (s : St V D) : Prop where
  deletions : ∀ e ∈ s.deletions, Justified e
  selected : ∀ sw ∈ s.sweep, ∀ orphans, sw.phase = .deleting orphans →
    Unreferenced s.db orphans ∧ (orphans = [] ∨ sw.blind = false)

/-- a step after which no blob is selected -/
theorem inv_of_idle {s' : St V D} (h : Inv s) (hdeletions : s'.deletions = s.deletions)
    (hidle : ∀ sw ∈ s'.sweep, ∀ orphans, sw.phase ≠ .deleting orphans) : Inv s' := by
  refine ⟨fun e he => h.deletions e (hdeletions ▸ he), fun sw hsw orphans hphase => ?_⟩
  exact absurd hphase (hidle sw hsw orphans)

variable {sw : Sweep V D}

theorem inv_idle_phase {s' : St V D} (h : Inv s) (hdeletions : s'.deletions = s.deletions)
    (hsweep : s'.sweep = some sw) (hphase : ∀ orphans, sw.phase ≠ .deleting orphans) : Inv s' := by
  refine inv_of_idle h hdeletions fun sw' hsw' orphans => ?_
  rw [hsweep] at hsw'
  cases hsw'
  exact hphase orphans

theorem inv_selects (h : Inv s) {v : V} (hcovered : Covered S s.db v sw.cutoff)
    (hread : ¬ Blind s.db v ∨ ∀ b ∈ s.db.blobs, Db.isCandidate v sw.cutoff b = false) :
    Inv { s with sweep := some { sw with
      phase := .deleting (s.db.orphans S v sw.cutoff (sw.maxDeletes - sw.deleted))
      blind := decide (Blind s.db v) } } := by
  refine ⟨h.deletions, fun sw' hsw' orphans hphase => ?_⟩
  cases hsw'
  obtain rfl := Phase.deleting.inj hphase
  refine ⟨orphans_unreferenced hcovered _, ?_⟩
  rcases hread with hread | hnone
  · exact .inr (decide_eq_false hread)
  · left
    apply List.eq_nil_iff_forall_not_mem.mpr
    intro b hb
    obtain ⟨hblob, hcandidate, _⟩ := mem_orphans hb
    rw [hnone b hblob] at hcandidate
    cases hcandidate

theorem inv_deletes (h : Inv s) (hsw : s.sweep = some sw) {orphans : List (Blob V D)}
    (hphase : sw.phase = .deleting (b :: orphans)) :
    Inv { db := s.db.deleteBlob b.id
          sweep := some { sw with deleted := sw.deleted + 1, phase := .deleting orphans }
          deletions := s.deletions ++
            (s.db.blobs.filter fun row => row.id = b.id).map fun row => ⟨row, s.db, sw.blind⟩ } := by
  obtain ⟨hunref, hread⟩ := h.selected sw hsw _ hphase
  have hblind : sw.blind = false := hread.resolve_left (List.cons_ne_nil b orphans)
  refine ⟨fun e he => ?_, fun sw' hsw' orphans' hphase' => ?_⟩
  · rcases List.mem_append.mp he with hold | hnew
    · exact h.deletions e hold
    · obtain ⟨row, hrow, rfl⟩ := List.mem_map.mp hnew
      obtain ⟨hmem, hid⟩ := List.mem_filter.mp hrow
      exact ⟨hunref b List.mem_cons_self row hmem (of_decide_eq_true hid), hblind⟩
  · cases hsw'
    obtain rfl := Phase.deleting.inj hphase'
    refine ⟨fun b' hb' row hrow hid => ?_, .inr hblind⟩
    exact hunref b' (List.mem_cons_of_mem b hb') row (List.mem_filter.mp hrow).1 hid

theorem inv_sweeps (h : Inv s) (hsw : s.sweep = some sw) (hevident : Evident S s .sweeps) : Inv (s.sweeps S sw) := by
  unfold Evident at hevident
  rw [hsw] at hevident
  unfold St.sweeps
  split
  · split
    · exact inv_of_idle h rfl fun _ hnone => nomatch hnone
    · next hphase _ v vaults _ =>
      split
      · exact inv_of_idle h rfl fun _ hnone => nomatch hnone
      · split
        · refine inv_idle_phase h rfl rfl fun orphans hdel => ?_
          rw [hphase] at hdel
          cases hdel
        · split
          · exact inv_idle_phase h rfl rfl fun _ hdel => nomatch hdel
          · exact inv_idle_phase h rfl rfl fun _ hdel => nomatch hdel
  · dsimp only
    split
    · exact inv_idle_phase h rfl rfl fun _ hdel => nomatch hdel
    · exact inv_idle_phase h rfl rfl fun _ hdel => nomatch hdel
  · next more hphase =>
    cases more with
    | true | false => exact inv_idle_phase h rfl rfl fun _ hdel => nomatch hdel
  · exact inv_idle_phase h rfl rfl fun _ hdel => nomatch hdel
  · next v hphase =>
    dsimp only at hevident
    rw [hphase] at hevident
    exact inv_selects h hevident.1 hevident.2
  · exact inv_idle_phase h rfl rfl fun _ hdel => nomatch hdel
  · next b orphans hphase => exact inv_deletes h hsw hphase

theorem inv_step (h : Inv s) {a : Action V D} (hevident : Evident S s a) : Inv (step S s a) := by
  cases a with
  | starts enabled cutoff maxDeletes vaults =>
    dsimp only [step, St.starts]
    split
    · exact inv_idle_phase h rfl rfl fun _ hdel => nomatch hdel
    · exact h
  | sweeps =>
    dsimp only [step]
    split
    · next sw hsw => exact inv_sweeps h hsw hevident
    · exact h
  | stops => exact inv_of_idle h rfl fun _ hnone => nomatch hnone
  | changes db =>
    refine ⟨h.deletions, fun sw hsw orphans hphase => ?_⟩
    unfold Evident at hevident
    rw [show s.sweep = some sw from hsw] at hevident
    dsimp only at hevident
    rw [hphase] at hevident
    exact ⟨hevident, (h.selected sw hsw orphans hphase).2⟩

end Model

/-! ## Runs on fixed inputs -/

/-- plain strings: nothing to trim, to decode or to fold -/
def plainStrings : Strings where
  trim := id
  toLowerCase := id
  decodeURIComponent := some
  lower := id

def image (path : String) : Text := "![a](".toList ++ path.toList ++ [')']

/-- two notes with an image each; the build that indexed the first had no `blob_refs` -/
def halfIndexed : Db ℕ ℕ where
  notes := [⟨1, 0, true, image "attachments/a"⟩, ⟨2, 0, true, image "attachments/b"⟩]
  noteIndex := [⟨1, 0, some (image "attachments/a")⟩, ⟨2, 0, some (image "attachments/b")⟩]
  blobRefs := {⟨0, "attachments/b".toList, 2⟩}
  blobs := [⟨5, some 0, some "attachments/a".toList, none, true, 1⟩]
  unique := by decide

def sweepAll : List (Action ℕ ℕ) := .starts true 10 200 [0] :: List.replicate 3 .sweeps

/-- neither an embed nor a path with a space is read from the text -/
example : assetRefsFromMarkdown plainStrings "![[attachments/a.png]] ![a](attachments/a b.png)".toList =
    ["attachments/a".toList] := by
  decide

/-- the first note's row is there -/
def fullyIndexed : Db ℕ ℕ := { halfIndexed with
  blobRefs := {⟨0, "attachments/a".toList, 1⟩, ⟨0, "attachments/b".toList, 2⟩}
  blobs := [⟨5, some 0, some "attachments/a".toList, none, true, 1⟩,
    ⟨6, some 0, some "attachments/c".toList, none, true, 1⟩]
  unique := by decide }

end Baalda.OrphanSweep
