/-
The disk base of a note (`yjs_disk_base`): the hash of the bytes its file and its document last had in common, by which
a later read tells a file that is behind from one that somebody wrote.

`Device` is one note on one device through any number of sessions of the app. Its bases are recorded by

- a bridge: what it read, merged, seeded or wrote (`recordDiskBase`; `write_note` for a write);
- `bootstrapCommits`: a page's document and the file written from it (`commit_bootstrap_rows`);
- `editsSettles`: the pass over the notes edited while the app was closed (`closedAppEdits.ts runClosedAppEdits`), which
  lists the notes whose indexed hash left the base (`disk_drift`), and later reads a note's document and file.

Another program may write the file between any two steps. `held` and `seen` are records that no step reads: the texts
the file has held, and those the document has read or merged.

`disk_base_true`: every hash recorded is that of a text the file held and the document saw, in every run in which the
pass settles on the bytes it listed. It records the listed hash for whatever it reads later (`stale_listing_recorded`).
-/
import Baalda.Desktop.BridgeBase
import Baalda.Lib.Slots

namespace Baalda.Bridge

open TextDiff TextCrdt List

variable {ι H : Type*}

/-! ## The device -/

/-- where the pass over closed-app edits stands with the note -/
inductive EditsPass (H : Type*) where
  /-- the indexed hash has left the base; may the note be pushed? -/
  | listed (sha256 : H)
  /-- the document and the file are being read; an answer is nothing where there is no text to compare -/
  | checking (sha256 : H) (docText fileText : Option (Option Text))

structure Device (ι H : Type*) where
  file : Option Text
  /-- the note's rows of `yjs_updates` and `yjs_snapshot` -/
  rows : Option (Doc ι UInt16) := none
  diskBase : Option H := none
  /-- `notes.sha256` -/
  indexed : Option H := none
  bridges : List (NoteBridge ι H) := []
  /-- calls of `set_disk_base` under way -/
  saves : List H := []
  /-- the document of a bootstrap page, with its text in the file and its rows not yet committed -/
  bootstrap : Option (Doc ι UInt16) := none
  edits : Option (EditsPass H) := none
  /-- record: the texts the file has held -/
  held : List Text := []
  /-- record: the texts the document has read or merged -/
  seen : List Text := []

namespace Device

/-- a note that is new to the device -/
def fresh (file : Option Text) : Device ι H := { file := file, held := file.toList }

/-- the updates that take a bridge's document from `before` to `after` are stored -/
def store [DecidableEq ι] (io : BridgeIO ι H) (rows : Option (Doc ι UInt16)) (before after : Doc ι UInt16) :
    Option (Doc ι UInt16) :=
  if after = before then rows else some ((rows.map fun r => io.applyUpdate r after).getD after)

/-- a bridge takes a step, on the file as it is -/
def stepBridge [DecidableEq ι] [DecidableEq H] (io : BridgeIO ι H) (s : Device ι H) (b : NoteBridge ι H) (i : ℕ)
    (a : Action ι) : Device ι H :=
  let b := { b with file := s.file }
  let b' := Bridge.step io b a
  { s with
    file := b'.file, rows := store io s.rows b.doc b'.doc
    saves := s.saves ++ (b.landing io a).toList.map io.sha256 ++ NoteBridge.recordDiskBase b b' a
    bridges := s.bridges.set i b' }

def opened (s : Device ι H) (copied readOnly : Bool) : Opened ι H :=
  { stored := s.rows, diskBase := s.diskBase, file := s.file, copied := copied, readOnly := readOnly }

/-- a bridge is opened -/
def openNote [DecidableEq ι] [DecidableEq H] (io : BridgeIO ι H) (s : Device ι H) (copied readOnly : Bool) :
    Device ι H :=
  let b := hydrate io (s.opened copied readOnly)
  { s with
    rows := store io s.rows (s.rows.getD []) b.doc
    saves := s.saves ++ (if b.diskBase = s.diskBase then [] else b.diskBase.toList)
    bridges := s.bridges ++ [b] }

/-- `apply_bootstrap_entries`: a note without rows, whose file is missing, empty or the page's -/
def bootstrapWrites (s : Device ι H) (snapshot : Doc ι UInt16) : Device ι H :=
  if s.rows.isSome then s
  else match s.file with
    | none | some [] => { s with file := some (text snapshot), bootstrap := some snapshot }
    | some t => if t = text snapshot then { s with bootstrap := some snapshot } else s

/-- `commit_bootstrap_rows`: the rows and the base, in one transaction -/
def bootstrapCommits (io : BridgeIO ι H) (s : Device ι H) : Device ι H := match s.bootstrap with
  | some snapshot =>
    { s with
      bootstrap := none, rows := some ((s.rows.map fun r => io.applyUpdate r snapshot).getD snapshot)
      diskBase := some (io.sha256 (text snapshot)) }
  | none => s

/-- `disk_drift` -/
def diskDrift [DecidableEq H] (s : Device ι H) : Option H := match s.diskBase, s.indexed with
  | some base, some sha256 => if base ≠ sha256 then some sha256 else none
  | _, _ => none

/-- `localText`: of the bridge that has the note, else of its rows -/
def localText (s : Device ι H) : Option Text := match s.bridges.find? (!·.destroyed) with
  | some b => some (text b.doc)
  | none => s.rows.map text

/-- `planClosedAppEdits`, the locks and `canEdit`: an empty file never clears a document -/
def editsPlans [DecidableEq H] (io : BridgeIO ι H) (s : Device ι H) (eligible : Bool) : Device ι H := match s.edits with
  | some (.listed sha256) =>
    { s with edits := if eligible && sha256 ≠ io.sha256 [] then some (.checking sha256 none none) else none }
  | _ => s

def editsReadsDoc (s : Device ι H) (ok : Bool) : Device ι H := match s.edits with
  | some (.checking sha256 none file) =>
    { s with edits := some (.checking sha256 (some (if ok then s.localText else none)) file) }
  | _ => s

def editsReadsFile (s : Device ι H) (ok : Bool) : Device ι H := match s.edits with
  | some (.checking sha256 doc none) =>
    { s with edits := some (.checking sha256 doc (some (if ok then s.file else none))) }
  | _ => s

/-- what `recordBase` is about to record: the listed hash, for the text that document and file were both read to have -/
def recording (s : Device ι H) : Option (H × Text) := match s.edits with
  | some (.checking sha256 (some (some doc)) (some (some file))) => if doc = file then some (sha256, file) else none
  | _ => none

/-- the note is done with: its base is recorded, or it is queued for ingest, which is a bridge's -/
def editsSettles (s : Device ι H) : Device ι H := match s.edits with
  | some (.checking _ (some _) (some _)) =>
    { s with edits := none, saves := s.saves ++ (s.recording.map Prod.fst).toList }
  | _ => s

/-! ## What is to hold of it -/

/-- every hash recorded as the note's base, here or by a bridge, is known -/
structure BaseTrue (io : BridgeIO ι H) (s : Device ι H) : Prop where
  base : ∀ h, s.diskBase = some h → Known io.sha256 s.held s.seen h
  saves : ∀ h ∈ s.saves, Known io.sha256 s.held s.seen h
  bridges : ∀ b ∈ s.bridges, ∀ h, b.diskBase = some h → Known io.sha256 s.held s.seen h

/-- the invariant, for texts held and seen that include what the state has -/
structure Books (io : BridgeIO ι H) (held seen : List Text) (s : Device ι H) : Prop where
  file : ∀ t, s.file = some t → t ∈ held
  rows : ∀ d, s.rows = some d → text d ∈ seen
  base : ∀ h, s.diskBase = some h → Known io.sha256 held seen h
  bridges : ∀ b ∈ s.bridges, b.Truthful io held seen
  saves : ∀ h ∈ s.saves, Known io.sha256 held seen h
  bootstrap : ∀ d, s.bootstrap = some d → text d ∈ held
  edits : ∀ sha256 doc file, s.edits = some (.checking sha256 doc file) →
    (∀ t, doc = some (some t) → t ∈ seen) ∧ ∀ t, file = some (some t) → t ∈ held

variable {io : BridgeIO ι H} {held seen held' seen' : List Text} {s : Device ι H}

theorem Books.mono (h : Books io held seen s) (hheld : held ⊆ held') (hseen : seen ⊆ seen') :
    Books io held' seen' s where
  file t ht := hheld (h.file t ht)
  rows d hd := hseen (h.rows d hd)
  base x hx := (h.base x hx).mono hheld hseen
  bridges b hb := (h.bridges b hb).mono hheld hseen
  saves x hx := (h.saves x hx).mono hheld hseen
  bootstrap d hd := hheld (h.bootstrap d hd)
  edits x doc file he := by
    obtain ⟨hdoc, hfile⟩ := h.edits x doc file he
    exact ⟨fun t ht => hseen (hdoc t ht), fun t ht => hheld (hfile t ht)⟩

theorem localText_seen (h : Books io held seen s) {t : Text} (ht : s.localText = some t) : t ∈ seen := by
  unfold localText at ht
  split at ht
  · next b hb =>
    cases ht
    exact (h.bridges b (mem_of_find?_eq_some hb)).doc
  · obtain ⟨d, hd, rfl⟩ := Option.map_eq_some_iff.mp ht
    exact h.rows d hd

/-- a page's document goes with the file it was written to -/
theorem Books.bootstrapWrites (h : Books io held seen s) (snapshot : Doc ι UInt16)
    (hfile : ∀ t, (s.bootstrapWrites snapshot).file = some t → t ∈ held) :
    Books io held seen (s.bootstrapWrites snapshot) := by
  revert hfile
  unfold Device.bootstrapWrites
  split
  · exact fun _ => h
  · have hwritten : (∀ t, some (text snapshot) = some t → t ∈ held) →
        Books io held seen { s with file := some (text snapshot), bootstrap := some snapshot } := by
      intro hfile
      refine { h with file := hfile, bootstrap := ?_ }
      intro d hd
      cases hd
      exact hfile _ rfl
    split
    · exact hwritten
    · exact hwritten
    · next t _ ht =>
      split_ifs with hsame
      · intro _
        refine { h with bootstrap := ?_ }
        intro d hd
        cases hd
        exact h.file _ (hsame ▸ ht)
      · exact fun _ => h

/-- its base is the hash of its own text -/
theorem Books.bootstrapCommits (h : Books io held seen s)
    (hrows : ∀ d, (s.bootstrapCommits io).rows = some d → text d ∈ seen)
    (hmerging : ∀ t, s.bootstrap.map text = some t → t ∈ seen) : Books io held seen (s.bootstrapCommits io) := by
  revert hrows
  unfold Device.bootstrapCommits
  split
  · next snapshot hb =>
    intro hrows
    refine { h with rows := hrows, base := ?_, bootstrap := fun d hd => absurd hd (by simp) }
    intro x hx
    exact ⟨text snapshot, h.bootstrap snapshot hb, hmerging _ (by rw [hb]; rfl), Option.some.inj hx⟩
  · exact fun _ => h

theorem books_fresh (io : BridgeIO ι H) (file : Option Text) :
    Books io (fresh file : Device ι H).held (fresh file : Device ι H).seen (fresh file) where
  file t ht := Option.mem_toList.mpr ht
  rows d hd := absurd hd (by simp [fresh])
  base x hx := absurd hx (by simp [fresh])
  bridges b hb := absurd hb (by simp [fresh])
  saves x hx := absurd hx (by simp [fresh])
  bootstrap d hd := absurd hd (by simp [fresh])
  edits x doc file he := absurd he (by simp [fresh])

theorem Books.editsPlans [DecidableEq H] (h : Books io held seen s) (eligible : Bool) :
    Books io held seen (s.editsPlans io eligible) := by
  unfold Device.editsPlans
  split
  · refine { h with edits := ?_ }
    intro x doc file he
    split_ifs at he
    cases he
    exact ⟨fun t ht => by simp at ht, fun t ht => by simp at ht⟩
  · exact h

theorem Books.editsReadsDoc (h : Books io held seen s) (ok : Bool) : Books io held seen (s.editsReadsDoc ok) := by
  unfold Device.editsReadsDoc
  split
  · next x file he =>
    refine { h with edits := ?_ }
    intro x' doc' file' he'
    cases he'
    refine ⟨?_, (h.edits _ _ _ he).2⟩
    intro t ht
    cases ok with
    | true => exact localText_seen h (Option.some.inj ht)
    | false => cases ht
  · exact h

theorem Books.editsReadsFile (h : Books io held seen s) (ok : Bool) : Books io held seen (s.editsReadsFile ok) := by
  unfold Device.editsReadsFile
  split
  · next x doc he =>
    refine { h with edits := ?_ }
    intro x' doc' file' he'
    cases he'
    refine ⟨(h.edits _ _ _ he).1, ?_⟩
    intro t ht
    cases ok with
    | true => exact h.file t (Option.some.inj ht)
    | false => cases ht
  · exact h

/-- the text that document and file were both read to have has been held and seen -/
theorem Books.recording (h : Books io held seen s) {r : H × Text} (hr : s.recording = some r) :
    r.2 ∈ held ∧ r.2 ∈ seen := by
  unfold Device.recording at hr
  split at hr
  · next x doc file he =>
    split_ifs at hr with hsame
    cases hr
    obtain ⟨hdoc, hfile⟩ := h.edits _ _ _ he
    exact ⟨hfile _ rfl, hdoc _ (hsame ▸ rfl)⟩
  · cases hr

/-- where the listed hash is that of the text, the pass records a known one -/
theorem Books.editsSettles (h : Books io held seen s) (hok : ∀ r ∈ s.recording, r.1 = io.sha256 r.2) :
    Books io held seen s.editsSettles := by
  unfold Device.editsSettles
  split
  · refine { h with saves := ?_, edits := fun _ _ _ he => absurd he (by simp) }
    intro x hx
    rcases mem_append.mp hx with hold | hx
    · exact h.saves x hold
    · obtain ⟨r, hr, rfl⟩ := Option.map_eq_some_iff.mp (Option.mem_toList.mp hx)
      obtain ⟨hheld, hseen⟩ := h.recording hr
      exact ⟨r.2, hheld, hseen, (hok r hr).symm⟩
  · exact h

end Device

inductive DeviceAction (ι : Type*) where
  | openNote (copied readOnly : Bool)
  | bridge (i : ℕ) (a : Action ι)
  /-- a destroyed bridge has nothing under way any more -/
  | retires (i : ℕ)
  /-- another program writes or removes the file -/
  | external (fileText : Option Text)
  | indexes
  | saveLands (i : ℕ) (ok : Bool)
  | bootstrapWrites (snapshot : Doc ι UInt16)
  | bootstrapCommits
  /-- a peer's updates are stored for a note that no bridge has -/
  | storesUpdate (d : Doc ι UInt16)
  | editsLists
  | editsPlans (eligible : Bool)
  | editsReadsDoc (ok : Bool)
  | editsReadsFile (ok : Bool)
  | editsSettles
  /-- the app goes, with everything under way -/
  | quits

namespace Device

variable [DecidableEq ι] [DecidableEq H]

/-- what a step does; a bootstrap page holds the index until it has committed -/
def act (io : BridgeIO ι H) (s : Device ι H) : DeviceAction ι → Device ι H
  | .openNote copied readOnly => if s.bootstrap.isSome then s else s.openNote io copied readOnly
  | .bridge i a => match s.bridges[i]? with
    | some b => s.stepBridge io b i a
    | none => s
  | .retires i => { s with bridges := s.bridges.eraseIdx i }
  | .external fileText => { s with file := fileText }
  | .indexes => if s.bootstrap.isSome then s else { s with indexed := s.file.map io.sha256 }
  | .saveLands i ok => match s.saves[i]? with
    | some sha256 =>
      if s.bootstrap.isSome then s
      else { s with saves := s.saves.eraseIdx i, diskBase := if ok then some sha256 else s.diskBase }
    | none => s
  | .bootstrapWrites snapshot => if s.bootstrap.isSome then s else s.bootstrapWrites snapshot
  | .bootstrapCommits => s.bootstrapCommits io
  | .storesUpdate d =>
    if s.bootstrap.isSome then s else { s with rows := some ((s.rows.map fun r => io.applyUpdate r d).getD d) }
  | .editsLists => if s.bootstrap.isSome ∨ s.edits.isSome then s else { s with edits := s.diskDrift.map .listed }
  | .editsPlans eligible => s.editsPlans io eligible
  | .editsReadsDoc ok => s.editsReadsDoc ok
  | .editsReadsFile ok => s.editsReadsFile ok
  | .editsSettles => s.editsSettles
  | .quits => { s with bridges := [], saves := [], bootstrap := none, edits := none }

/-- the texts the note's document has -/
def texts (s : Device ι H) : List Text := s.bridges.map (text ·.doc) ++ (s.rows.map text).toList

section

variable (io : BridgeIO ι H) (s : Device ι H)

/-- the text a step merges into the document -/
def merging : DeviceAction ι → Option Text
  | .bridge i a => s.bridges[i]?.bind fun b => { b with file := s.file }.merging io a
  | .bootstrapCommits => s.bootstrap.map text
  | _ => none

/-- what the step did, taken down -/
def step (a : DeviceAction ι) : Device ι H :=
  let s' := s.act io a
  { s' with held := s'.file.toList ++ s'.held, seen := (s.merging io a).toList ++ s'.texts ++ s'.seen }

def run (as : List (DeviceAction ι)) : Device ι H := Machine.run (step io) s as

/-- the pass records the hash of what it read: the file has not changed since its hash was indexed and listed -/
def SettlesAsListed : DeviceAction ι → Prop
  | .editsSettles => ∀ r ∈ s.recording, r.1 = io.sha256 r.2
  | _ => True

end

instance (io : BridgeIO ι H) (s : Device ι H) (a : DeviceAction ι) : Decidable (s.SettlesAsListed io a) := by
  unfold SettlesAsListed
  split <;> infer_instance

/-! ## What every step keeps -/

variable {io : BridgeIO ι H} {held seen : List Text} {s : Device ι H}

/-- a bridge's step keeps the books -/
theorem Books.stepBridge (h : Books io held seen s) {b : NoteBridge ι H} {i : ℕ} (hb : s.bridges[i]? = some b)
    (a : Action ι) (hfile : ∀ t, (s.stepBridge io b i a).file = some t → t ∈ held)
    (hdocs : ∀ t ∈ (s.stepBridge io b i a).texts, t ∈ seen)
    (hmerging : ∀ t, { b with file := s.file }.merging io a = some t → t ∈ seen) :
    Books io held seen (s.stepBridge io b i a) := by
  have hmem : b ∈ s.bridges := List.mem_of_getElem? hb
  have hbridge : ({ b with file := s.file } : NoteBridge ι H).Truthful io held seen :=
    (h.bridges b hmem).frame (h.bridges b hmem).doc rfl (.inl rfl) rfl rfl
  have hnew : (Bridge.step io { b with file := s.file } a) ∈ (s.stepBridge io b i a).bridges := by
    obtain ⟨hlt, -⟩ := List.getElem?_eq_some_iff.mp hb
    exact List.mem_set hlt _
  have hdoc : text (Bridge.step io { b with file := s.file } a).doc ∈ seen :=
    hdocs _ (List.mem_append_left _ (List.mem_map_of_mem hnew))
  have hlanding : ∀ t, ({ b with file := s.file } : NoteBridge ι H).landing io a = some t → t ∈ held :=
    fun t ht => hfile t (NoteBridge.file_of_landing ht)
  have hstep := hbridge.step a h.file hlanding hmerging hdoc
  refine ⟨hfile, ?_, h.base, ?_, ?_, h.bootstrap, h.edits⟩
  · intro d hd
    exact hdocs _ (List.mem_append_right _ (by rw [hd]; exact List.mem_singleton_self _))
  · intro b' hb'
    rcases List.mem_or_eq_of_mem_set hb' with hold | rfl
    · exact h.bridges b' hold
    · exact hstep
  · intro x hx
    rcases List.mem_append.mp hx with hx | hx
    · rcases List.mem_append.mp hx with hx | hx
      · exact h.saves x hx
      · obtain ⟨t, ht, rfl⟩ := List.mem_map.mp hx
        have ht' := Option.mem_toList.mp ht
        exact ⟨t, hlanding t ht', hbridge.landing_seen ht', rfl⟩
    · exact hstep.base x (NoteBridge.mem_recordDiskBase hx)

/-- what an open records is what its bridge knows -/
theorem Books.openNote (h : Books io held seen s) (copied readOnly : Bool)
    (hdocs : ∀ t ∈ (s.openNote io copied readOnly).texts, t ∈ seen) :
    Books io held seen (s.openNote io copied readOnly) := by
  have hdoc : text (hydrate io (s.opened copied readOnly)).doc ∈ seen :=
    hdocs _ (mem_append_left _ (mem_map_of_mem (mem_append_right _ (mem_singleton_self _))))
  have hnew := truthful_hydrate io (s.opened copied readOnly) h.base h.file hdoc
  refine ⟨h.file, ?_, h.base, ?_, ?_, h.bootstrap, h.edits⟩
  · intro d hd
    exact hdocs _ (mem_append_right _ (by rw [hd]; exact mem_singleton_self _))
  · intro b hb
    rcases mem_snoc.1 hb with hold | rfl
    · exact h.bridges b hold
    · exact hnew
  · intro x hx
    rcases mem_append.mp hx with hold | hx
    · exact h.saves x hold
    · split_ifs at hx
      · cases hx
      · exact hnew.base x (Option.mem_toList.mp hx)

/-- **One step.** With the file and the documents it leads to taken down, and the pass settling on what it listed. -/
theorem Books.act (h : Books io held seen s) (a : DeviceAction ι) (hok : s.SettlesAsListed io a)
    (hfile : ∀ t, (s.act io a).file = some t → t ∈ held) (hdocs : ∀ t ∈ (s.act io a).texts, t ∈ seen)
    (hmerging : ∀ t, s.merging io a = some t → t ∈ seen) : Books io held seen (s.act io a) := by
  have hrows : ∀ d, (s.act io a).rows = some d → text d ∈ seen :=
    fun d hd => hdocs _ (mem_append_right _ (by rw [hd]; exact mem_singleton_self _))
  cases a with
  | openNote copied readOnly =>
    simp only [Device.act] at hdocs ⊢
    split_ifs at hdocs ⊢
    · exact h
    · exact h.openNote copied readOnly hdocs
  | bridge i a =>
    cases hb : s.bridges[i]? with
    | none =>
      simp only [Device.act, hb]
      exact h
    | some b =>
      simp only [Device.act, hb] at hfile hdocs ⊢
      exact h.stepBridge hb a hfile hdocs fun t ht => hmerging t (by simp only [Device.merging, hb]; exact ht)
  | retires i =>
    exact { h with bridges := fun b hb => h.bridges b (mem_of_mem_eraseIdx hb) }
  | external t => exact { h with file := hfile }
  | indexes =>
    simp only [Device.act]
    split_ifs
    · exact h
    · exact { h with }
  | saveLands i ok =>
    simp only [Device.act]
    split
    · next x hx =>
      split
      · exact h
      · refine { h with base := ?_, saves := fun y hy => h.saves y (mem_of_mem_eraseIdx hy) }
        intro y hy
        split_ifs at hy
        · exact h.saves y (Option.some.inj hy ▸ mem_of_getElem? hx)
        · exact h.base y hy
    · exact h
  | bootstrapWrites snapshot =>
    simp only [Device.act] at hfile ⊢
    split_ifs at hfile ⊢
    · exact h
    · exact h.bootstrapWrites snapshot hfile
  | bootstrapCommits => exact h.bootstrapCommits hrows hmerging
  | storesUpdate d =>
    simp only [Device.act] at hrows ⊢
    split_ifs at hrows ⊢
    · exact h
    · exact { h with rows := hrows }
  | editsLists =>
    simp only [Device.act]
    split_ifs
    · exact h
    · refine { h with edits := ?_ }
      intro x doc file he
      obtain ⟨y, -, hy⟩ := Option.map_eq_some_iff.mp he
      cases hy
  | editsPlans eligible => exact h.editsPlans eligible
  | editsReadsDoc ok => exact h.editsReadsDoc ok
  | editsReadsFile ok => exact h.editsReadsFile ok
  | editsSettles => exact h.editsSettles hok
  | quits =>
    refine { h with bridges := ?_, saves := ?_, bootstrap := ?_, edits := ?_ }
    · exact fun b hb => absurd hb (by simp [Device.act])
    · exact fun x hx => absurd hx (by simp [Device.act])
    · exact fun d hd => absurd hd (by simp [Device.act])
    · exact fun x doc file he => by simp [Device.act] at he

theorem held_act (io : BridgeIO ι H) (s : Device ι H) (a : DeviceAction ι) :
    (s.act io a).held = s.held ∧ (s.act io a).seen = s.seen := by
  cases a with
  | retires i | external t | quits => exact ⟨rfl, rfl⟩
  | _ =>
    simp only [Device.act, Device.openNote, Device.stepBridge, Device.bootstrapWrites, Device.bootstrapCommits,
      Device.editsPlans, Device.editsReadsDoc, Device.editsReadsFile, Device.editsSettles]
    repeat' split
    all_goals exact ⟨rfl, rfl⟩

/-- what has been taken down of the run is enough -/
theorem Books.step (h : Books io s.held s.seen s) (a : DeviceAction ι) (hok : s.SettlesAsListed io a) :
    Books io (s.step io a).held (s.step io a).seen (s.step io a) := by
  obtain ⟨hheld, hseen⟩ := held_act io s a
  have hmono : Books io (s.step io a).held (s.step io a).seen s := by
    apply h.mono
    · intro t ht
      exact mem_append_right _ (hheld ▸ ht)
    · intro t ht
      exact mem_append_right _ (hseen ▸ ht)
  have hact := hmono.act a hok ?_ ?_ ?_
  · exact { hact with }
  · intro t ht
    exact mem_append_left _ (Option.mem_toList.mpr ht)
  · intro t ht
    exact mem_append_left _ (mem_append_right _ ht)
  · intro t ht
    exact mem_append_left _ (mem_append_left _ (Option.mem_toList.mpr ht))

theorem Books.run {as : List (DeviceAction ι)} (h : Books io s.held s.seen s)
    (hok : Machine.Guarded (Device.step io) (SettlesAsListed io) s as) :
    Books io (s.run io as).held (s.run io as).seen (s.run io as) :=
  Machine.run_inv (fun (s : Device ι H) a (hs : Books io s.held s.seen s) ha => hs.step a ha) h hok

end Device

/-- **The disk base is true.** In every run in which the pass over closed-app edits settles on the bytes it listed,
every hash recorded as the note's base, by whichever writer, is that of a text the file held and the document has read or
merged. So a file with the hash of its base, as long as no other text has that hash, has nothing the document has not
seen. -/
theorem disk_base_true [DecidableEq ι] [DecidableEq H] (io : BridgeIO ι H) (file : Option Text)
    (as : List (DeviceAction ι))
    (hok : Machine.Guarded (Device.step io) (Device.SettlesAsListed io) (Device.fresh file) as) :
    ((Device.fresh file).run io as).BaseTrue io ∧
      ∀ t, ((Device.fresh file).run io as).file = some t →
        ((Device.fresh file).run io as).diskBase = some (io.sha256 t) → Function.Injective io.sha256 →
        t ∈ ((Device.fresh file).run io as).seen := by
  have hbooks := (Device.books_fresh io file).run hok
  refine ⟨⟨hbooks.base, hbooks.saves, fun b hb => (hbooks.bridges b hb).base⟩, ?_⟩
  intro t _ hbase hinj
  obtain ⟨u, -, hseen, hsha⟩ := hbooks.base _ hbase
  exact hinj hsha ▸ hseen

/-- a page brings the note, which reads `a` -/
def broughtRun : List (DeviceAction (ℕ × ℕ)) := [.bootstrapWrites (typed 1 [97]), .bootstrapCommits, .quits]

/-- a bridge takes in the file and is done with -/
def ingestRun : List (DeviceAction (ℕ × ℕ)) :=
  [.openNote true false, .bridge 0 .reconcileAfterPull, .bridge 0 .ingestStarts, .bridge 0 (.ingestReads true),
    .bridge 0 .ingestHashed, .bridge 0 .ingestSnapshotted]

/-- the file reads `b` when the app starts, and the pass lists it; it reads `later` when the pass comes to the note -/
def listedRun (later : Text) : List (DeviceAction (ℕ × ℕ)) :=
  [.external (some [98]), .indexes, .editsLists, .external (some later)] ++ ingestRun ++
    [.saveLands 0 true, .editsPlans true, .editsReadsDoc true, .editsReadsFile true, .editsSettles, .saveLands 0 true,
      .quits]

/-- another program writes `b`, and the note is opened -/
def overwrittenRun : List (DeviceAction (ℕ × ℕ)) :=
  [.external (some [98])] ++ ingestRun ++
    [.bridge 0 .egestTimerFires, .bridge 0 .egestStarts, .bridge 0 .egestHashed, .bridge 0 .egestWrites]

def afterListing (later : Text) : Device (ℕ × ℕ) Text :=
  (Device.fresh none).run (plainBridge false) (broughtRun ++ listedRun later)

theorem unchanged_listing_base_true :
    (afterListing [98]).BaseTrue (plainBridge false) ∧ (afterListing [98]).diskBase = some [98] :=
  ⟨(disk_base_true (plainBridge false) none (broughtRun ++ listedRun [98]) (by decide +kernel)).1, by decide +kernel⟩

def afterOverwrite : Device (ℕ × ℕ) Text := (afterListing [99]).run (plainBridge false) overwrittenRun

/-- **A stale listing is recorded.** The pass records the hash of `b`, which it listed, when document and file both read
`c`; the document never saw `b`. When another program then writes `b`, the file is taken for behind and overwritten. -/
theorem stale_listing_recorded :
    (afterListing [99]).diskBase = some [98] ∧ [98] ∉ (afterListing [99]).seen ∧
      ¬(afterListing [99]).BaseTrue (plainBridge false) ∧
      afterOverwrite.file = some [99] ∧ [98] ∉ afterOverwrite.seen := by
  have hbase : (afterListing [99]).diskBase = some [98] := by decide +kernel
  have hseen : [98] ∉ (afterListing [99]).seen := by decide +kernel
  refine ⟨hbase, hseen, ?_, by decide +kernel, by decide +kernel⟩
  intro h
  obtain ⟨t, -, ht, hsha⟩ := h.base _ hbase
  exact hseen (hsha ▸ ht)

end Baalda.Bridge
