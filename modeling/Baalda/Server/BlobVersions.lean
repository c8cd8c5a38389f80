/-
The versions of one file: its ready rows, through uploads that publish at the same time.

`versions_settle`: in a run in which a file's row is only published while it is still the file's and no upload with
another row is between its publish and its retire, a retire does not fail while it has something to retire, a base is
checked against the versions that are still there at the publish, and a dedupe hit is answered while it is still there
and gives the file a row only when it has none: once nothing retires, a file to which an upload was answered has exactly
one ready row, and that row was answered; and what names a base is published over that base or over the same content.
-/
import Baalda.Server.BlobRoutes
import Baalda.Lib.Slots

namespace Baalda.BlobVersions

open BlobRoutes Slots List
open Option (some.inj)

variable {Id Sha Bytes : Type*} [DecidableEq Id] [DecidableEq Sha] [DecidableEq Bytes]
variable (isAttachment : Path → Bool) (length : Bytes → ℕ) (accepts : Mime → Bytes → Bool)

/-! ## What is to hold -/

/-- the upload was answered with that row, for that file -/
def Answers (u : Upload Id Sha) (d : Id) (blobId : ℕ) : Prop :=
  u.docId = some d ∧ (u.stage = .done (.published blobId) ∨ u.stage = .done (.deduped blobId))

section

variable (s : St Id Sha Bytes) (d : Id)

def Answered (blobId : ℕ) : Prop := ∃ u ∈ s.uploads, Answers u d blobId

/-- an upload has published a row of the file and has still to retire the others -/
def Retiring (keep : ℕ) : Prop :=
  ∃ u ∈ s.uploads, ∃ updated, u.stage = .retiring (some d) keep updated

/-- the file has one version, and it is an upload's that was answered with it -/
def Settled : Prop :=
  (s.db.versionsOf d).length ≤ 1 ∧
    ((∃ blobId, Answered s d blobId) → ∃ r, s.db.versionsOf d = [r] ∧ Answered s d r.id)

/-- the move publishes the upload's row as a version of the file -/
def PublishesTo (u : Upload Id Sha) : Move Id Bytes → Prop
  | .publishes _ => ∃ row n cur, u.stage = .completing row (some n) ∧ row.register = false ∧
      s.db.row row.id = some cur ∧ cur.docId = some d
  | .publishesRegistered out _ => ∃ row n cur, u.stage = .completing row (some n) ∧ row.register = true ∧ out = some d ∧
      s.db.row row.id = some cur ∧ cur.ready = false ∧ fits s.db.rows { cur with docId := some d }
  | .claims _ => ∃ hit, u.stage = .claiming hit ∧ u.register = false ∧ u.docId = some d ∧ hit.docId = none
  | .rebinds _ => ∃ hit, u.stage = .rebinding hit ∧ u.docId = some d
  | _ => False

/-! ## The condition -/

/-- the versions of the file are those that the base was checked against -/
def Based (u : Upload Id Sha) : Prop :=
  ∀ baseSha ∈ u.baseSha, s.db.versionsOf d ≠ [] ∧ (s.db.versionsOf d).map Row.sha = u.versions

/-- no upload retires another row of the file -/
def AloneWith (keep : ℕ) : Prop := ∀ k, Retiring s d k → k = keep

/-- a dedupe hit is what it was, and gives the file the one row it has -/
def Gives (u : Upload Id Sha) (hit : Row Id Sha) : Prop :=
  s.db.versionsOf d = [] ∧ (∀ k, ¬ Retiring s d k) ∧ u.baseSha = none ∧
    (∃ r, s.db.row hit.id = some r ∧ r.ready ∧ r.docId = hit.docId ∧ r.key = hit.key) ∧
    ∀ r ∈ s.db.rows, r.key = hit.key → r.docId ≠ some d

end

def MoveOrderly (d : Id) (s : St Id Sha Bytes) (u : Upload Id Sha) : Move Id Bytes → Prop
  | .claims _ => ∀ hit, u.stage = .claiming hit → u.register = false → u.docId = some d →
      if hit.docId = some d then ∃ r ∈ s.db.versionsOf d, r.id = hit.id
      else (∀ other ∈ hit.docId, other ∉ s.db.files) ∧ (hit.docId = none → Gives s d u hit)
  | .rebinds _ => ∀ hit, u.stage = .rebinding hit →
      if u.docId = some d then Gives s d u hit else hit.docId ≠ some d
  | .publishes _ => ∀ row n, u.stage = .completing row (some n) → row.register = false →
      ((s.db.row row.id).bind Row.docId).or row.docId = some d →
      (∃ cur, s.db.row row.id = some cur ∧ cur.docId = some d) ∧ AloneWith s d row.id ∧ Based s d u
  | .publishesRegistered out _ => ∀ row n, u.stage = .completing row (some n) → row.register = true → out = some d →
      ∀ cur, s.db.row row.id = some cur →
      if cur.ready then cur.docId = some d ∧ AloneWith s d row.id
      else if fits s.db.rows { cur with docId := some d } then AloneWith s d row.id ∧ Based s d u
      else ∀ twin ∈ s.db.versionsOf d, twin.key = row.key → AloneWith s d twin.id
  | .retireFails => ∀ keep updated, u.stage = .retiring (some d) keep updated → ∀ r ∈ s.db.versionsOf d, r.id = keep
  | .fails => ∀ keep updated, u.stage ≠ .retiring (some d) keep updated
  | _ => True

def Orderly (d : Id) (s : St Id Sha Bytes) : Action Id Sha Bytes → Prop
  | .moves i m => ∀ u ∈ s.uploads[i]?, MoveOrderly d s u m
  | .deletesRow blobId => ∀ r ∈ s.db.versionsOf d, r.id ≠ blobId
  | .sweepDeletes k blobId => blobId ∈ (s.sweeps[k]?).getD [] → ∀ r ∈ s.db.versionsOf d, r.id ≠ blobId
  | _ => True

/-- ids are not used twice -/
structure Ids (db : Db Id Sha Bytes) : Prop where
  unique : (db.rows.map Row.id).Nodup
  below : ∀ r ∈ db.rows, r.id < db.nextId

/-- before the uploads -/
structure AtRest (d : Id) (s : St Id Sha Bytes) : Prop where
  ids : Ids s.db
  uploads : s.uploads = []
  versions : (s.db.versionsOf d).length ≤ 1

/-- the base was not refused, and what retires is of the upload's file -/
structure UploadOk (u : Upload Id Sha) : Prop where
  checked : ∀ baseSha ∈ u.baseSha, u.versions = [] ∨ baseSha ∈ u.versions ∨ u.sha ∈ u.versions
  docs : ∀ docId keep updated, u.stage = .retiring docId keep updated → u.docId = docId

structure Inv (d : Id) (s : St Id Sha Bytes) : Prop where
  ids : Ids s.db
  retiring : ∀ u ∈ s.uploads, ∀ keep updated, u.stage = .retiring (some d) keep updated →
    updated = true ∧ ∃ r ∈ s.db.versionsOf d, r.id = keep
  same : ∀ k k', Retiring s d k → Retiring s d k' → k = k'
  alone : (∀ k, ¬ Retiring s d k) → ∀ r ∈ s.db.versionsOf d, ∀ r' ∈ s.db.versionsOf d, r.id = r'.id
  answered : (∀ k, ¬ Retiring s d k) → ∀ blobId, Answered s d blobId → ∀ r ∈ s.db.versionsOf d, Answered s d r.id
  present : ∀ blobId, Answered s d blobId → s.db.versionsOf d ≠ []
  uploads : ∀ u ∈ s.uploads, UploadOk u

/-! ## Rows -/

section

variable {db db' : Db Id Sha Bytes} {d : Id}

variable {r : Row Id Sha}

theorem mem_versionsOf : r ∈ db.versionsOf d ↔ r ∈ db.rows ∧ r.docId = some d ∧ r.ready = true := by
  unfold Db.versionsOf
  simp

variable {blobId : ℕ}

theorem row_mem (h : db.row blobId = some r) : r ∈ db.rows ∧ r.id = blobId :=
  ⟨mem_of_find?_eq_some h, by simpa using find?_some h⟩

theorem Ids.eq (h : Ids db) {r' : Row Id Sha} (hr : r ∈ db.rows) (hr' : r' ∈ db.rows) (hid : r.id = r'.id) : r = r' :=
  inj_on_of_nodup_map h.unique hr hr' hid

theorem Ids.row (h : Ids db) (hr : r ∈ db.rows) : db.row r.id = some r := by
  cases hfind : db.row r.id with
  | none => exact absurd (find?_eq_none.1 hfind r hr) (by simp)
  | some r' => rw [h.eq (row_mem hfind).1 hr (row_mem hfind).2]

theorem Ids.same (h : Ids db) (hrows : db'.rows = db.rows) (hnext : db.nextId ≤ db'.nextId) : Ids db' := by
  refine ⟨hrows ▸ h.unique, fun r hr => ?_⟩
  rw [hrows] at hr
  exact (h.below r hr).trans_le hnext

theorem Ids.delete (h : Ids db) (p : Row Id Sha → Bool) : Ids (db.delete p) :=
  ⟨h.unique.sublist (filter_sublist.map _), fun r hr => h.below r (mem_of_mem_filter hr)⟩

variable {f : Row Id Sha → Row Id Sha}

theorem Ids.update (h : Ids db) (blobId : ℕ) (hf : ∀ r, (f r).id = r.id) : Ids (db.update blobId f) := by
  have hid : ∀ r : Row Id Sha, (if r.id = blobId then f r else r).id = r.id := by
    intro r
    split
    · exact hf r
    · rfl
  refine ⟨?_, fun r' hr' => ?_⟩
  · have hsame : (db.update blobId f).rows.map Row.id = db.rows.map Row.id := by
      unfold Db.update
      rw [map_map]
      exact map_congr_left fun r _ => hid r
    rw [hsame]
    exact h.unique
  · obtain ⟨r, hr, rfl⟩ := mem_map.1 hr'
    rw [hid]
    exact h.below r hr

theorem Ids.insert (h : Ids db) {row : Row Id Sha} (hid : row.id = db.nextId) (hrows : db'.rows = db.rows ++ [row])
    (hnext : db'.nextId = db.nextId + 1) : Ids db' := by
  refine ⟨?_, fun r hr => ?_⟩
  · rw [hrows, map_append]
    refine Nodup.append h.unique (nodup_singleton _) fun blobId hold hnew => ?_
    obtain ⟨r, hr, rfl⟩ := mem_map.1 hold
    have hlt := h.below r hr
    have heq := mem_singleton.1 hnew
    omega
  · rw [hrows] at hr
    rcases mem_snoc.1 hr with hr | rfl
    · have hlt := h.below r hr
      omega
    · omega

/-- rows that are no versions change and are none -/
theorem versionsOf_update
    (hf : ∀ r ∈ db.rows, r.id = blobId → ¬ (r.docId = some d ∧ r.ready = true) ∧ ¬ ((f r).docId = some d ∧
      (f r).ready = true))
    : (db.update blobId f).versionsOf d = db.versionsOf d := by
  unfold Db.versionsOf Db.update
  obtain ⟨rows, hrows⟩ : ∃ rows, rows = db.rows := ⟨_, rfl⟩
  rw [← hrows] at hf ⊢
  clear hrows
  induction rows with
  | nil => rfl
  | cons r rows ih =>
    have hrest := ih fun r' hr' => hf r' (.tail _ hr')
    rw [map_cons, filter_cons, filter_cons, hrest]
    by_cases hid : r.id = blobId
    · obtain ⟨hold, hnew⟩ := hf r mem_cons_self hid
      rw [if_pos hid, if_neg (by simpa using hnew), if_neg (by simpa using hold)]
    · rw [if_neg hid]

/-- a row becomes a version -/
theorem mem_versionsOf_update (hr : r ∈ db.rows) (hid : r.id = blobId)
    (hf : (f r).docId = some d ∧ (f r).ready = true) : f r ∈ (db.update blobId f).versionsOf d :=
  mem_versionsOf.2 ⟨mem_map.2 ⟨r, hr, if_pos hid⟩, hf⟩

/-- a version after an update: it is the row, or it was one before -/
theorem versionsOf_of_update {r' : Row Id Sha} (hr' : r' ∈ (db.update blobId f).versionsOf d)
    (hf : ∀ r, (f r).id = r.id) : r'.id = blobId ∨ r' ∈ db.versionsOf d := by
  obtain ⟨hmem, hversion⟩ := mem_versionsOf.1 hr'
  obtain ⟨r, hr, rfl⟩ := mem_map.1 hmem
  split at hversion
  · next hid =>
    rw [if_pos hid]
    exact .inl ((hf r).trans hid)
  · next hid =>
    rw [if_neg hid]
    exact .inr (mem_versionsOf.2 ⟨hr, hversion⟩)

theorem versionsOf_delete {p : Row Id Sha → Bool} (hp : ∀ r ∈ db.versionsOf d, p r = false) :
    (db.delete p).versionsOf d = db.versionsOf d := by
  unfold Db.versionsOf Db.delete
  rw [filter_filter]
  refine filter_congr fun r hr => ?_
  by_cases hversion : r.docId = some d ∧ r.ready = true
  · have hkept := hp r (mem_versionsOf.2 ⟨hr, hversion⟩)
    simp [hkept]
  · simp only [hversion, decide_false, Bool.false_and]

/-! ## What a move can do to the file -/

variable {isAttachment length accepts} {s : St Id Sha Bytes} {u u' : Upload Id Sha}

inductive Effect (d : Id) (s : St Id Sha Bytes) (db' : Db Id Sha Bytes) (u u' : Upload Id Sha) : Prop where
  | quiet (hversions : db'.versionsOf d = s.db.versionsOf d)
      (hbefore : ∀ keep updated, u.stage ≠ .retiring (some d) keep updated)
      (hafter : ∀ keep updated, u'.stage ≠ .retiring (some d) keep updated) (hanswer : ∀ blobId, ¬ Answers u' d blobId)
  | answers (hversions : db'.versionsOf d = s.db.versionsOf d)
      (hbefore : ∀ keep updated, u.stage ≠ .retiring (some d) keep updated) (r : Row Id Sha)
      (hr : r ∈ s.db.versionsOf d) (hanswer : Answers u' d r.id)
  | publishes (keep : ℕ) (halone : AloneWith s d keep) (hafter : u'.stage = .retiring (some d) keep true)
      (hkeep : ∃ r ∈ db'.versionsOf d, r.id = keep)
  | settles (keep : ℕ) (halone : AloneWith s d keep) (hall : ∀ r ∈ db'.versionsOf d, r.id = keep)
      (hkeep : ∃ r ∈ db'.versionsOf d, r.id = keep) (hanswer : Answers u' d keep)

theorem Answers.stage (h : Answers u d blobId) : ∃ answer, u.stage = .done answer := by
  rcases h.2 with h | h
  · exact ⟨_, h⟩
  · exact ⟨_, h⟩

variable {m : Move Id Bytes}

/-- a move is of an upload that is not done -/
theorem not_done (hmove : u.move isAttachment length accepts db m ≠ none) (answer : Answer) :
    u.stage ≠ .done answer := by
  intro hstage
  apply hmove
  cases m with
  | registers out => simp [Upload.move, Upload.registers, hstage]
  | _ => simp [Upload.move, Upload.searches, Upload.claims, Upload.rebinds, Upload.checks, Upload.refuses,
      Upload.reuses, Upload.creates, Upload.completeStarts, Upload.assembles, Upload.measures, Upload.rejects,
      Upload.drops, Upload.publishes, Upload.publishesRegistered, Upload.retires, Upload.retireFails, Upload.fails,
      hstage]

/-- **Whatever a move does, it leaves the file in order.** -/
theorem Inv.effect (h : Inv d s) {i : ℕ} (hi : s.uploads[i]? = some u) (hdone : ∀ answer, u.stage ≠ .done answer)
    (hids : Ids db') (heffect : Effect d s db' u u')
    (hok : UploadOk u') : Inv d { s with
      db := db'
      uploads := s.uploads.set i u' } := by
  obtain ⟨s', hs'⟩ : ∃ s' : St Id Sha Bytes, s' = { s with
    db := db'
    uploads := s.uploads.set i u' } := ⟨_, rfl⟩
  have hlt : i < s.uploads.length := (List.getElem?_eq_some_iff.1 hi).1
  have hmem : ∀ v ∈ s'.uploads, v = u' ∨ v ∈ s.uploads := by
    intro v hv
    rw [hs'] at hv
    rcases mem_or_eq_of_mem_set hv with hv | hv
    · exact .inr hv
    · exact .inl hv
  have hnew : u' ∈ s'.uploads := by
    rw [hs']
    exact mem_set hlt u'
  have hanswered : ∀ blobId, Answered s d blobId → Answered s' d blobId := by
    rintro blobId ⟨v, hv, hanswer⟩
    refine ⟨v, ?_, hanswer⟩
    rw [hs']
    refine mem_set_of_ne hi hv ?_
    rintro rfl
    obtain ⟨answer, hstage⟩ := hanswer.stage
    exact hdone answer hstage
  have hanswered' : ∀ blobId, Answered s' d blobId → Answered s d blobId ∨ Answers u' d blobId := by
    rintro blobId ⟨v, hv, hanswer⟩
    rcases hmem v hv with rfl | hv
    · exact .inr hanswer
    · exact .inl ⟨v, hv, hanswer⟩
  have hretiring' : ∀ k, Retiring s' d k → Retiring s d k ∨ ∃ updated, u'.stage = .retiring (some d) k updated := by
    rintro k ⟨v, hv, hstage⟩
    rcases hmem v hv with rfl | hv
    · exact .inr hstage
    · exact .inl ⟨v, hv, hstage⟩
  have hret : (∀ keep updated, u'.stage ≠ .retiring (some d) keep updated) → ∀ k, Retiring s' d k → Retiring s d k := by
    intro hafter k hk
    rcases hretiring' k hk with hk | ⟨updated, hstage⟩
    · exact hk
    · exact absurd hstage (hafter k updated)
  have hnot : ∀ {blobId}, Answers u' d blobId → ∀ keep updated, u'.stage ≠ .retiring (some d) keep updated := by
    intro blobId hanswer keep updated hstage
    obtain ⟨answer, hdone'⟩ := hanswer.stage
    exact absurd (hstage.symm.trans hdone') (by simp)
  have hretiring : (∀ keep updated, u.stage ≠ .retiring (some d) keep updated) → ∀ k, Retiring s d k →
      Retiring s' d k := by
    rintro hbefore k ⟨v, hv, updated, hstage⟩
    refine ⟨v, ?_, updated, hstage⟩
    rw [hs']
    refine mem_set_of_ne hi hv ?_
    rintro rfl
    exact hbefore k updated hstage
  have hdb : s'.db = db' := by rw [hs']
  have huploads : ∀ v ∈ s'.uploads, UploadOk v := by
    intro v hv
    rcases hmem v hv with rfl | hv
    · exact hok
    · exact h.uploads v hv
  rw [← hs']
  cases heffect with
  | quiet hversions hbefore hafter hanswer =>
    have hret := hret hafter
    have hans : ∀ blobId, Answered s' d blobId → Answered s d blobId := by
      intro blobId hblob
      rcases hanswered' blobId hblob with hblob | hblob
      · exact hblob
      · exact absurd hblob (hanswer blobId)
    have hversions' : s'.db.versionsOf d = s.db.versionsOf d := hdb ▸ hversions
    refine ⟨hdb ▸ hids, ?_, fun k k' hk hk' => h.same k k' (hret k hk) (hret k' hk'), ?_, ?_, ?_, huploads⟩
    · intro v hv keep updated hstage
      rw [hversions']
      rcases hmem v hv with rfl | hv
      · exact absurd hstage (hafter keep updated)
      · exact h.retiring v hv keep updated hstage
    · intro hnone
      rw [hversions']
      exact h.alone fun k hk => hnone k (hretiring hbefore k hk)
    · intro hnone blobId hblob r hr
      rw [hversions'] at hr
      exact hanswered _ (h.answered (fun k hk => hnone k (hretiring hbefore k hk)) blobId (hans blobId hblob) r hr)
    · intro blobId hblob
      rw [hversions']
      exact h.present blobId (hans blobId hblob)
  | answers hversions hbefore r hr hanswer =>
    have hret := hret (hnot hanswer)
    have hversions' : s'.db.versionsOf d = s.db.versionsOf d := hdb ▸ hversions
    refine ⟨hdb ▸ hids, ?_, fun k k' hk hk' => h.same k k' (hret k hk) (hret k' hk'), ?_, ?_, ?_, huploads⟩
    · intro v hv keep updated hstage
      rw [hversions']
      rcases hmem v hv with rfl | hv
      · exact absurd hstage (hnot hanswer keep updated)
      · exact h.retiring v hv keep updated hstage
    · intro hnone
      rw [hversions']
      exact h.alone fun k hk => hnone k (hretiring hbefore k hk)
    · intro hnone blobId _ r' hr'
      rw [hversions'] at hr'
      -- the file's one version is the one that was answered
      have hid := h.alone (fun k hk => hnone k (hretiring hbefore k hk)) r' hr' r hr
      rw [hid]
      exact ⟨u', hnew, hanswer⟩
    · intro blobId _
      rw [hversions']
      exact ne_nil_of_mem hr
  | publishes keep halone hafter hkeep =>
    obtain ⟨r, hr, hid⟩ := hkeep
    have hretires : Retiring s' d keep := ⟨u', hnew, true, hafter⟩
    have hsame : ∀ k, Retiring s' d k → k = keep := by
      intro k hk
      rcases hretiring' k hk with hk | ⟨updated, hstage⟩
      · exact halone k hk
      · obtain ⟨_, rfl, _⟩ := Stage.retiring.inj (hstage.symm.trans hafter)
        rfl
    have hr' : r ∈ s'.db.versionsOf d := hdb ▸ hr
    refine ⟨hdb ▸ hids, ?_, fun k k' hk hk' => (hsame k hk).trans (hsame k' hk').symm, fun hnone => ?_, fun hnone => ?_,
      fun _ _ => ne_nil_of_mem hr', huploads⟩
    · intro v hv k updated hstage
      have hk := hsame k ⟨v, hv, updated, hstage⟩
      rcases hmem v hv with rfl | hv
      · obtain ⟨_, _, rfl⟩ := Stage.retiring.inj (hstage.symm.trans hafter)
        exact ⟨rfl, r, hr', hid.trans hk.symm⟩
      · exact ⟨(h.retiring v hv k updated hstage).1, r, hr', hid.trans hk.symm⟩
    · exact absurd hretires (hnone keep)
    · exact absurd hretires (hnone keep)
  | settles keep halone hall hkeep hanswer =>
    obtain ⟨r, hr, hid⟩ := hkeep
    have hret := hret (hnot hanswer)
    have hr' : r ∈ s'.db.versionsOf d := hdb ▸ hr
    have hall' : ∀ r ∈ s'.db.versionsOf d, r.id = keep := hdb ▸ hall
    refine ⟨hdb ▸ hids, ?_, fun k k' hk hk' => h.same k k' (hret k hk) (hret k' hk'), ?_, ?_,
      fun _ _ => ne_nil_of_mem hr', huploads⟩
    · intro v hv k updated hstage
      rcases hmem v hv with rfl | hv
      · exact absurd hstage (hnot hanswer k updated)
      · exact ⟨(h.retiring v hv k updated hstage).1, r, hr', hid.trans (halone k ⟨v, hv, updated, hstage⟩).symm⟩
    · intro _ r₁ hr₁ r₂ hr₂
      rw [hall' r₁ hr₁, hall' r₂ hr₂]
    · intro _ blobId _ r₁ hr₁
      rw [hall' r₁ hr₁]
      exact ⟨u', hnew, hanswer⟩

/-! ## Moves -/

/-- what is to be shown of a move -/
structure MoveOk (d : Id) (s : St Id Sha Bytes) (db' : Db Id Sha Bytes) (u u' : Upload Id Sha) : Prop where
  ids : Ids db'
  effect : Effect d s db' u u'
  upload : UploadOk u'

theorem UploadOk.keep (h : UploadOk u) (hbase : u'.baseSha = u.baseSha) (hsha : u'.sha = u.sha)
    (hversions : u'.versions = u.versions)
    (hdocs : ∀ docId keep updated, u'.stage = .retiring docId keep updated → u'.docId = docId) : UploadOk u' := by
  refine ⟨?_, hdocs⟩
  rw [hbase, hsha, hversions]
  exact h.checked

theorem UploadOk.answered (h : UploadOk u) (answer : Answer) : UploadOk (u.answered answer) :=
  h.keep rfl rfl rfl fun _ _ _ hstage => by simp [Upload.answered] at hstage

/-- an upload whose stage changes, and is none that is seen -/
theorem UploadOk.stage (h : UploadOk u) {stage : Stage Id Sha}
    (hstage : ∀ docId keep updated, stage ≠ .retiring docId keep updated) : UploadOk { u with stage := stage } :=
  h.keep rfl rfl rfl fun docId keep updated heq => absurd heq (hstage docId keep updated)

theorem not_answers_of_stage (hstage : ∀ answer, u.stage ≠ .done answer) (blobId : ℕ) : ¬ Answers u d blobId := by
  intro h
  obtain ⟨answer, heq⟩ := h.stage
  exact hstage answer heq

theorem not_answers_of_docId (hdoc : u.docId ≠ some d) (blobId : ℕ) : ¬ Answers u d blobId := fun h => hdoc h.1

section

variable (hok : UploadOk u) (hbefore : ∀ keep updated, u.stage ≠ .retiring (some d) keep updated) (hids : Ids db')
    (hversions : db'.versionsOf d = s.db.versionsOf d)

include hok hbefore hids hversions

/-- a move that changes no row of the file, and only its own stage -/
theorem MoveOk.stage {stage : Stage Id Sha} (hstage : ∀ docId keep updated, stage ≠ .retiring docId keep updated)
    (hanswer : ∀ blobId, stage ≠ .done (.published blobId) ∧ stage ≠ .done (.deduped blobId)) :
    MoveOk d s db' u { u with stage := stage } := by
  refine ⟨hids, .quiet hversions hbefore (fun keep updated => hstage _ keep updated) (fun blobId hanswers => ?_),
    hok.stage hstage⟩
  rcases hanswers.2 with heq | heq
  · exact (hanswer blobId).1 heq
  · exact (hanswer blobId).2 heq

/-- a move that answers an upload of another file -/
theorem MoveOk.other (hdoc : u.docId ≠ some d) (answer : Answer) : MoveOk d s db' u (u.answered answer) :=
  ⟨hids, .quiet hversions hbefore (fun _ _ => by simp [Upload.answered]) (not_answers_of_docId hdoc), hok.answered _⟩

end

theorem bind_ids (h : Ids db) (hit : Row Id Sha) (docId : Id) (now : ℕ) : Ids (Upload.bind db hit docId now) := by
  unfold Upload.bind
  split
  · split
    · exact h.update _ fun _ => rfl
    · exact h
  · exact h

variable {hit : Row Id Sha}

/-- another file's -/
theorem bind_versionsOf (h : Ids db) {docId : Id} (hdoc : docId ≠ d) (hhit : hit.docId ≠ some d) (now : ℕ) :
    (Upload.bind db hit docId now).versionsOf d = db.versionsOf d := by
  unfold Upload.bind
  split
  · next r hr =>
    split
    · have hmem := mem_of_find?_eq_some hr
      have hfound := find?_some hr
      simp only [decide_eq_true_eq] at hfound
      refine versionsOf_update fun r' hr' hid => ⟨?_, ?_⟩
      · rw [h.eq hr' hmem (hid.trans hfound.1.symm)]
        rintro ⟨hversion, _⟩
        exact hhit (hfound.2.symm.trans hversion)
      · rintro ⟨hversion, _⟩
        exact hdoc (some.inj hversion)
    · rfl
  · rfl

/-- the file's, of which it becomes the one version -/
theorem bind_gives (h : Ids s.db) (hgives : Gives s d u hit) (now : ℕ) :
    (∀ r ∈ (Upload.bind s.db hit d now).versionsOf d, r.id = hit.id) ∧
      ∃ r ∈ (Upload.bind s.db hit d now).versionsOf d, r.id = hit.id := by
  obtain ⟨hempty, _, _, ⟨r₀, hrow, hready, hdoc, hkey⟩, hfree⟩ := hgives
  obtain ⟨hmem₀, hid₀⟩ := row_mem hrow
  unfold Upload.bind
  split
  · next r hr =>
    have hmem := mem_of_find?_eq_some hr
    have hfound := find?_some hr
    simp only [decide_eq_true_eq] at hfound
    obtain rfl := h.eq hmem hmem₀ (hfound.1.trans hid₀.symm)
    have hfits : fits s.db.rows { r with docId := some d } = true := by
      unfold fits
      rw [all_eq_true]
      intro r' hr'
      simp only [ne_eq, decide_eq_true_eq]
      by_cases hkey' : r'.key = hit.key
      · exact .inr (.inr (hfree r' hr' hkey'))
      · refine .inr (.inl fun heq => hkey' (heq.trans ?_))
        exact hkey
    rw [if_pos hfits]
    refine ⟨fun r' hr' => ?_, ?_⟩
    · rcases versionsOf_of_update hr' fun _ => rfl with hid | hold
      · exact hid
      · rw [hempty] at hold
        cases hold
    · exact ⟨_, mem_versionsOf_update hmem hid₀ ⟨rfl, hready⟩, hid₀⟩
  · next hnone =>
    have hno := find?_eq_none.1 hnone r₀ hmem₀
    simp [hid₀, hdoc] at hno

theorem copyRowForDoc_ok (h : Inv d s) (hok : UploadOk u) {docId : Id} (hdocId : u.docId = some docId)
    (hbefore : ∀ keep updated, u.stage ≠ .retiring (some d) keep updated) (hgives : docId = d → Gives s d u hit)
    (now : ℕ) : MoveOk d s (u.copyRowForDoc s.db hit docId now).1 u (u.copyRowForDoc s.db hit docId now).2 := by
  have hne : docId ≠ d → u.docId ≠ some d := by simp [hdocId]
  unfold Upload.copyRowForDoc
  split
  · next src hsrc =>
    have hmem := mem_of_find?_eq_some hsrc
    have hfound := find?_some hsrc
    simp only [decide_eq_true_eq] at hfound
    dsimp only
    split
    · next hfits =>
      refine ⟨h.ids.insert rfl rfl rfl, ?_, hok.answered _⟩
      by_cases hdoc : docId = d
      · subst hdoc
        obtain ⟨hempty, hnone, _⟩ := hgives rfl
        refine .settles s.db.nextId (fun k hk => absurd hk (hnone k)) (fun r hr => ?_) ?_ ⟨hdocId, .inr rfl⟩
        · obtain ⟨hr, hversion⟩ := mem_versionsOf.1 hr
          rcases mem_snoc.1 hr with hr | rfl
          · have hold : r ∈ s.db.versionsOf docId := mem_versionsOf.2 ⟨hr, hversion⟩
            rw [hempty] at hold
            cases hold
          · rfl
        · refine ⟨_, mem_versionsOf.2 ⟨mem_append_right _ (mem_singleton_self _), rfl, hfound.2⟩, rfl⟩
      · refine .quiet ?_ hbefore (fun _ _ => by simp [Upload.answered]) (not_answers_of_docId (hne hdoc))
        unfold Db.versionsOf
        simp [hdoc]
    · next hfits =>
      have hother : docId ≠ d := by
        rintro rfl
        obtain ⟨_, _, _, ⟨r₀, hrow, hready, hdoc, hkey⟩, hfree⟩ := hgives rfl
        obtain ⟨hmem₀, hid₀⟩ := row_mem hrow
        obtain rfl := h.ids.eq hmem hmem₀ (hfound.1.trans hid₀.symm)
        apply hfits
        unfold fits
        rw [all_eq_true]
        intro r' hr'
        simp only [ne_eq, decide_eq_true_eq]
        by_cases hkey' : r'.key = hit.key
        · exact .inr (.inr (hfree r' hr' hkey'))
        · refine .inr (.inl fun heq => hkey' (heq.trans ?_))
          exact hkey
      split
      · exact .other hok hbefore h.ids rfl (hne hother) _
      · exact .other hok hbefore h.ids rfl (hne hother) _
  · next hnone =>
    have hother : docId ≠ d := by
      rintro rfl
      obtain ⟨_, _, _, ⟨r₀, hrow, hready, _⟩, _⟩ := hgives rfl
      obtain ⟨hmem₀, hid₀⟩ := row_mem hrow
      have hno := find?_eq_none.1 hnone r₀ hmem₀
      simp [hid₀, hready] at hno
    exact .other hok hbefore h.ids rfl (hne hother) _

variable {now : ℕ}

section

variable (h : Inv d s) (hok : UploadOk u)

include h hok

theorem claims_ok (hmove : u.claims isAttachment s.db now = some (db', u'))
    (horderly : MoveOrderly d s u (.claims now)) : MoveOk d s db' u u' := by
  unfold Upload.claims at hmove
  split at hmove
  · next hit hstage hregister =>
    have hbefore : ∀ keep updated, u.stage ≠ .retiring (some d) keep updated := by simp [hstage]
    split at hmove
    · next hnone =>
      cases hmove
      exact .other hok hbefore h.ids rfl (by simp [hnone]) _
    · next docId hdocId =>
      have hother : docId ≠ d → u.docId ≠ some d := by simp [hdocId]
      split at hmove
      · next hown =>
        cases hmove
        by_cases hdoc : docId = d
        · subst hdoc
          have hthere := horderly hit hstage hregister hdocId
          rw [if_pos hown] at hthere
          obtain ⟨r, hr, hid⟩ := hthere
          refine ⟨h.ids, .answers rfl hbefore r hr ⟨hdocId, .inr ?_⟩, hok.answered _⟩
          rw [hid]
          rfl
        · exact .other hok hbefore h.ids rfl (hother hdoc) _
      · next hown =>
        have hfree : docId = d →
            (∀ other ∈ hit.docId, other ∉ s.db.files) ∧ (hit.docId = none → Gives s d u hit) := by
          rintro rfl
          have hthere := horderly hit hstage hregister hdocId
          rwa [if_neg hown] at hthere
        split at hmove
        · next hunclaimed =>
          split at hmove
          · have hcopy := copyRowForDoc_ok h hok hdocId hbefore (fun hdoc => (hfree hdoc).2 hunclaimed) now
            rw [some.inj hmove] at hcopy
            exact hcopy
          · cases hmove
            by_cases hdoc : docId = d
            · subst hdoc
              have hgives := (hfree rfl).2 hunclaimed
              obtain ⟨hall, hkeep⟩ := bind_gives h.ids hgives now
              exact ⟨bind_ids h.ids _ _ _, .settles hit.id (fun k hk => absurd hk (hgives.2.1 k)) hall hkeep
                ⟨hdocId, .inr rfl⟩, hok.answered _⟩
            · exact .other hok hbefore (bind_ids h.ids _ _ _) (bind_versionsOf h.ids hdoc (by simp [hunclaimed]) now)
                (hother hdoc) _
        · next other hclaimed =>
          split at hmove
          · next hexists =>
            cases hmove
            by_cases hdoc : docId = d
            · exact absurd hexists ((hfree hdoc).1 other hclaimed)
            · exact .other hok hbefore h.ids rfl (hother hdoc) _
          · cases hmove
            exact .stage hok hbefore h.ids rfl (by simp) (by simp)
  · cases hmove

theorem rebinds_ok (hmove : u.rebinds s.db now = some (db', u'))
    (horderly : MoveOrderly d s u (.rebinds now)) : MoveOk d s db' u u' := by
  unfold Upload.rebinds at hmove
  split at hmove
  · next hit docId hstage hdocId =>
    cases hmove
    have hthere := horderly hit hstage
    have hids := bind_ids h.ids hit docId now
    by_cases hdoc : docId = d
    · subst hdoc
      rw [if_pos hdocId] at hthere
      obtain ⟨hall, hkeep⟩ := bind_gives h.ids hthere now
      exact ⟨hids, .settles hit.id (fun k hk => absurd hk (hthere.2.1 k)) hall hkeep ⟨hdocId, .inr rfl⟩, hok.answered _⟩
    · have hne : u.docId ≠ some d := by simpa [hdocId] using hdoc
      rw [if_neg hne] at hthere
      exact .other hok (by simp [hstage]) hids (bind_versionsOf h.ids hdoc hthere now) hne _
  · cases hmove

/-- a pending row changes, and is pending -/
theorem reuses_ok (hmove : u.reuses s.db now = some (db', u')) : MoveOk d s db' u u' := by
  unfold Upload.reuses at hmove
  split at hmove
  · next hstage =>
    have hbefore : ∀ keep updated, u.stage ≠ .retiring (some d) keep updated := by simp [hstage]
    have hfailed : MoveOk d s s.db u (u.answered .failed) := .stage hok hbefore h.ids rfl (by simp) (by simp)
    split at hmove
    · cases hmove
      exact .stage hok hbefore h.ids rfl (by simp) (by simp)
    · next r hr =>
      split at hmove
      · have hmem : r ∈ s.db.rows.filter u.mayReuse := by rw [hr]; exact mem_singleton_self r
        obtain ⟨hmem, hreuse⟩ := mem_filter.1 hmem
        have hpending : r.ready = false := by
          simp only [Upload.mayReuse, decide_eq_true_eq, Bool.not_eq_true', Bool.decide_and, Bool.and_eq_true] at hreuse
          exact hreuse.2.1
        have hdb : _ = db' := congrArg Prod.fst (some.inj hmove)
        have hu' : _ = u' := congrArg Prod.snd (some.inj hmove)
        rw [← hdb, ← hu']
        refine ⟨?_, .quiet ?_ hbefore (fun _ _ => by simp [Upload.presign])
          (not_answers_of_stage fun _ => by simp [Upload.presign]), ?_⟩
        · have hupdated := h.ids.update r.id (f := fun r => { r with
            mime := u.mime
            relPath := u.relPath
            docId := r.docId.or u.docId
            register := r.register || u.register
            updatedAt := now }) fun _ => rfl
          exact hupdated.same rfl le_rfl
        · refine versionsOf_update fun r' hr' hid => ?_
          rw [h.ids.eq hr' hmem hid]
          simp [hpending]
        · exact hok.stage fun _ _ _ => by simp
      · cases hmove
        exact hfailed
    · cases hmove
      exact hfailed
  · cases hmove

theorem creates_ok (hmove : u.creates s.db now = some (db', u')) : MoveOk d s db' u u' := by
  unfold Upload.creates at hmove
  split at hmove
  · next hstage =>
    have hbefore : ∀ keep updated, u.stage ≠ .retiring (some d) keep updated := by simp [hstage]
    dsimp only at hmove
    split at hmove
    · have hdb : _ = db' := congrArg Prod.fst (some.inj hmove)
      have hu' : _ = u' := congrArg Prod.snd (some.inj hmove)
      rw [← hdb, ← hu']
      refine ⟨h.ids.insert rfl rfl rfl, .quiet ?_ hbefore (fun _ _ => by simp [Upload.presign])
        (not_answers_of_stage fun _ => by simp [Upload.presign]), hok.stage fun _ _ _ => by simp⟩
      unfold Db.versionsOf Upload.presign
      simp
    · cases hmove
      exact .stage hok hbefore h.ids rfl (by simp) (by simp)
  · cases hmove

theorem completeStarts_ok (hmove : u.completeStarts s.db = some (db', u')) : MoveOk d s db' u u' := by
  unfold Upload.completeStarts at hmove
  split at hmove
  · next blobId hstage =>
    have hbefore : ∀ keep updated, u.stage ≠ .retiring (some d) keep updated := by simp [hstage]
    split at hmove
    · next r hrow =>
      split at hmove
      · next hready =>
        cases hmove
        refine ⟨h.ids, ?_, hok.keep rfl rfl rfl fun _ _ _ heq => by simp at heq⟩
        by_cases hdoc : r.docId = some d
        · exact .answers rfl hbefore r (mem_versionsOf.2 ⟨(row_mem hrow).1, hdoc, hready⟩) ⟨hdoc, .inl rfl⟩
        · exact .quiet rfl hbefore (fun _ _ => by simp) (not_answers_of_docId hdoc)
      · cases hmove
        exact .stage hok hbefore h.ids rfl (by simp) (by simp)
    · cases hmove
      exact .stage hok hbefore h.ids rfl (by simp) (by simp)
  · cases hmove

theorem publishes_ok (hmove : u.publishes s.db now = some (db', u'))
    (horderly : MoveOrderly d s u (.publishes now)) : MoveOk d s db' u u' := by
  unfold Upload.publishes at hmove
  split at hmove
  · next row n hstage =>
    split at hmove
    · cases hmove
    · next hregister =>
      cases hmove
      refine ⟨h.ids.update _ fun _ => rfl, ?_, hok.keep rfl rfl rfl fun docId keep updated heq =>
        (Stage.retiring.inj heq).1⟩
      by_cases hdoc : ((s.db.row row.id).bind Row.docId).or row.docId = some d
      · obtain ⟨⟨cur, hcur, hcurDoc⟩, halone, _⟩ := horderly row n hstage (by simpa using hregister) hdoc
        obtain ⟨hmem, hid⟩ := row_mem hcur
        have hversion := mem_versionsOf_update hmem hid (f := fun r => { r with
          ready := true
          size := n
          updatedAt := now }) ⟨hcurDoc, rfl⟩
        exact .publishes row.id halone (by rw [hdoc, hcur]; rfl) ⟨_, hversion, hid⟩
      · refine .quiet (versionsOf_update fun r hr hid => ?_) (by simp [hstage]) (fun keep updated heq => hdoc ?_)
          (not_answers_of_stage fun _ => by simp)
        · have hrow := h.ids.row hr
          rw [hid] at hrow
          have hne : r.docId ≠ some d := fun heq => hdoc (by simp [hrow, heq])
          exact ⟨fun hversion => hne hversion.1, fun hversion => hne hversion.1⟩
        · exact (Stage.retiring.inj heq).1
  · cases hmove

theorem publishesRegistered_ok {out : Option Id} (hmove : u.publishesRegistered s.db out now = some (db', u'))
    (horderly : MoveOrderly d s u (.publishesRegistered out now)) : MoveOk d s db' u u' := by
  unfold Upload.publishesRegistered at hmove
  split at hmove
  · next row n hstage =>
    have hbefore : ∀ keep updated, u.stage ≠ .retiring (some d) keep updated := by simp [hstage]
    have hfailed : MoveOk d s s.db u (u.answered .failed) := .stage hok hbefore h.ids rfl (by simp) (by simp)
    split at hmove
    · cases hmove
    · next hregister =>
      have hregister : row.register = true := by simpa using hregister
      split at hmove
      · cases hmove
        exact .stage hok hbefore h.ids rfl (by simp) (by simp)
      · next docId =>
        have hregistered : Ids { s.db with files := s.db.files ++ [docId] } := h.ids.same rfl le_rfl
        -- it retires a row of this file, or of another one
        have hretires : ∀ {db'' : Db Id Sha Bytes} {keep : ℕ}, Ids db'' →
            (docId = d → AloneWith s d keep ∧ ∃ r ∈ db''.versionsOf d, r.id = keep) →
            (docId ≠ d → db''.versionsOf d = s.db.versionsOf d) →
            MoveOk d s db'' u { u with
              docId := some docId
              stage := .retiring (some docId) keep true } := by
          intro db'' keep hids hthis hother
          refine ⟨hids, ?_, hok.keep rfl rfl rfl fun docId' _ _ heq => (Stage.retiring.inj heq).1⟩
          by_cases hdoc : docId = d
          · obtain ⟨halone, hkeep⟩ := hthis hdoc
            exact .publishes keep halone (by rw [hdoc]) hkeep
          · refine .quiet (hother hdoc) hbefore (fun _ _ heq => hdoc ?_) (not_answers_of_stage fun _ => by simp)
            exact some.inj (Stage.retiring.inj heq).1
        split at hmove
        · next cur hcur =>
          obtain ⟨hmem, hid⟩ := row_mem hcur
          have hthere := fun hdoc : docId = d => horderly row n hstage hregister (by rw [hdoc]) cur hcur
          split at hmove
          · next hready =>
            cases hmove
            refine hretires hregistered (fun hdoc => ?_) fun _ => rfl
            have hcurrent := hthere hdoc
            rw [if_pos hready] at hcurrent
            obtain ⟨hcurDoc, halone⟩ := hcurrent
            rw [hid]
            exact ⟨halone, cur, mem_versionsOf.2 ⟨hmem, hcurDoc, hready⟩, hid⟩
          · next hpending =>
            split at hmove
            · next hfits =>
              cases hmove
              refine hretires (hregistered.update _ fun _ => rfl) (fun hdoc => ?_) fun hdoc => ?_
              · have hcurrent := hthere hdoc
                rw [if_neg hpending, if_pos (hdoc ▸ hfits)] at hcurrent
                exact ⟨hcurrent.1, _, mem_versionsOf_update hmem hid ⟨congrArg some hdoc, rfl⟩, hid⟩
              · refine versionsOf_update fun r hr hrid => ?_
                rw [h.ids.eq hr hmem (hrid.trans hid.symm)]
                exact ⟨fun hversion => hpending hversion.2, fun hversion => hdoc (some.inj hversion.1)⟩
            · next hfits =>
              split at hmove
              · next twin htwin =>
                cases hmove
                have hsame : (Db.delete { s.db with files := s.db.files ++ [docId] }
                    fun r => r.id = row.id ∧ !r.ready).versionsOf d = s.db.versionsOf d := by
                  refine (versionsOf_delete fun r hr => ?_).trans rfl
                  simp [(mem_versionsOf.1 hr).2.2]
                refine hretires (hregistered.delete _) (fun hdoc => ?_) fun _ => hsame
                have hfound := find?_some htwin
                simp only [decide_eq_true_eq] at hfound
                have hversion : twin ∈ s.db.versionsOf d :=
                  mem_versionsOf.2 ⟨mem_of_find?_eq_some htwin, hdoc ▸ hfound.2.1, hfound.2.2⟩
                have hcurrent := hthere hdoc
                rw [if_neg hpending, if_neg (hdoc ▸ hfits)] at hcurrent
                refine ⟨hcurrent twin hversion hfound.1, twin, ?_, rfl⟩
                rw [hsame]
                exact hversion
              · cases hmove
                exact hfailed
        · cases hmove
          exact hfailed
  · cases hmove

/-- what it is checked against lets it pass -/
theorem checks_ok (hmove : u.checks s.db = some (db', u')) : MoveOk d s db' u u' := by
  unfold Upload.checks at hmove
  split at hmove
  · next hstage =>
    have hbefore : ∀ keep updated, u.stage ≠ .retiring (some d) keep updated := by simp [hstage]
    split at hmove
    · cases hmove
      exact .stage hok hbefore h.ids rfl (by simp) (by simp)
    · next hpasses =>
      cases hmove
      refine ⟨h.ids, .quiet rfl hbefore (fun _ _ => by simp) (not_answers_of_stage fun _ => by simp), ?_,
        fun _ _ _ heq => by simp at heq⟩
      intro baseSha hbase
      obtain hbase : u.baseSha = some baseSha := hbase
      cases hdoc : u.docId with
      | none => exact .inl rfl
      | some docId =>
        simp only [Db.staleBaseConflict, hdoc, hbase, decide_eq_true_eq, not_and, not_not] at hpasses
        simp only [Option.toList_some, flatMap_cons, flatMap_nil, append_nil, map_eq_nil_iff,
          mem_map]
        by_cases hnone : s.db.versionsOf docId = []
        · exact .inl hnone
        · obtain ⟨r, hr, hsha | hsha⟩ := hpasses hnone
          · exact .inr (.inl ⟨r, hr, hsha⟩)
          · exact .inr (.inr ⟨r, hr, hsha⟩)
  · cases hmove

end

theorem retires_ok (h : Inv d s) (hu : u ∈ s.uploads) (hmove : u.retires s.db = some (db', u')) :
    MoveOk d s db' u u' := by
  have hok := h.uploads u hu
  unfold Upload.retires at hmove
  split at hmove
  · next docId keep updated hstage =>
    cases hmove
    have hdocId := hok.docs _ _ _ hstage
    refine ⟨h.ids.delete _, ?_, hok.answered _⟩
    by_cases hdoc : docId = d
    · subst hdoc
      obtain ⟨rfl, r, hr, hid⟩ := h.retiring u hu keep updated hstage
      refine .settles keep (fun k hk => h.same k keep hk ⟨u, hu, true, hstage⟩) (fun r' hr' => ?_) ⟨r, ?_, hid⟩
        ⟨hdocId, .inl rfl⟩
      · obtain ⟨hmem, hversion⟩ := mem_versionsOf.1 hr'
        obtain ⟨_, hkept⟩ := mem_filter.1 hmem
        by_contra hne
        simp [hversion.1, hversion.2, hne] at hkept
      · obtain ⟨hmem, hversion⟩ := mem_versionsOf.1 hr
        refine mem_versionsOf.2 ⟨mem_filter.2 ⟨hmem, ?_⟩, hversion⟩
        simp [hid]
    · have hne : u.docId ≠ some d := by simpa [hdocId] using hdoc
      refine .quiet (versionsOf_delete fun r hr => ?_) (fun _ _ heq => hdoc ?_)
        (fun _ _ => by simp [Upload.settled, Upload.answered]) (not_answers_of_docId hne)
      · have hversion := (mem_versionsOf.1 hr).2.1
        simp [hversion, Ne.symm hdoc]
      · exact some.inj (Stage.retiring.inj (hstage.symm.trans heq)).1
  · next keep updated hstage =>
    cases hmove
    have hne : u.docId ≠ some d := by simp [hok.docs _ _ _ hstage]
    exact .other hok (by simp [hstage]) h.ids rfl hne _
  · cases hmove

theorem retireFails_ok (h : Inv d s) (hu : u ∈ s.uploads) (hmove : u.retireFails s.db = some (db', u'))
    (horderly : MoveOrderly d s u .retireFails) : MoveOk d s db' u u' := by
  have hok := h.uploads u hu
  unfold Upload.retireFails at hmove
  split at hmove
  · next docId keep updated hstage =>
    cases hmove
    have hdocId := hok.docs _ _ _ hstage
    refine ⟨h.ids, ?_, hok.answered _⟩
    by_cases hdoc : docId = some d
    · subst hdoc
      obtain ⟨rfl, r, hr, hid⟩ := h.retiring u hu keep updated hstage
      exact .settles keep (fun k hk => h.same k keep hk ⟨u, hu, true, hstage⟩) (horderly keep true hstage) ⟨r, hr, hid⟩
        ⟨hdocId, .inl rfl⟩
    · have hne : u.docId ≠ some d := by rwa [hdocId]
      refine .quiet rfl (fun _ _ heq => hdoc ?_) (fun _ _ => by simp [Upload.settled, Upload.answered])
        (not_answers_of_docId hne)
      exact (Stage.retiring.inj (hstage.symm.trans heq)).1
  · cases hmove

theorem move_ok (h : Inv d s) (hu : u ∈ s.uploads)
    (hmove : u.move isAttachment length accepts s.db m = some (db', u')) (horderly : MoveOrderly d s u m) :
    MoveOk d s db' u u' := by
  have hok := h.uploads u hu
  cases m with
  | searches =>
    simp only [Upload.move, Upload.searches] at hmove
    split at hmove
    · next again hstage =>
      split at hmove
      · cases hmove
        exact .stage hok (by simp [hstage]) h.ids rfl (by simp) (by simp)
      · cases hmove
        split
        · exact .stage hok (by simp [hstage]) h.ids rfl (by simp) (by simp)
        · exact .stage hok (by simp [hstage]) h.ids rfl (by simp) (by simp)
    · cases hmove
  | registers out =>
    simp only [Upload.move, Upload.registers] at hmove
    split at hmove
    · next hit hstage _ =>
      cases hmove
      exact .stage hok (by simp [hstage]) h.ids rfl (by simp) (by simp)
    · next hit docId relPath hstage _ =>
      cases hmove
      exact ⟨h.ids.same rfl le_rfl, .quiet rfl (by simp [hstage]) (by simp [hstage])
        (not_answers_of_stage fun _ => by simp [hstage]), hok.keep rfl rfl rfl (by simp [hstage])⟩
    · cases hmove
  | claims now => exact claims_ok h hok hmove horderly
  | rebinds now => exact rebinds_ok h hok hmove horderly
  | checks => exact checks_ok h hok hmove
  | refuses =>
    simp only [Upload.move, Upload.refuses] at hmove
    split at hmove
    · next hstage =>
      cases hmove
      exact .stage hok (by simp [hstage]) h.ids rfl (by simp) (by simp)
    · cases hmove
  | reuses now => exact reuses_ok h hok hmove
  | creates now => exact creates_ok h hok hmove
  | completeStarts => exact completeStarts_ok h hok hmove
  | assembles bytes =>
    simp only [Upload.move, Upload.assembles] at hmove
    split at hmove
    · next r hstage =>
      cases hmove
      exact ⟨h.ids.same rfl le_rfl, .quiet rfl (by simp [hstage]) (by simp [hstage])
        (not_answers_of_stage fun _ => by simp [hstage]), hok⟩
    · cases hmove
  | measures =>
    simp only [Upload.move, Upload.measures] at hmove
    split at hmove
    · next r hstage =>
      split at hmove
      · split at hmove
        · cases hmove
          exact .stage hok (by simp [hstage]) h.ids rfl (by simp) (by simp)
        · cases hmove
          exact .stage hok (by simp [hstage]) h.ids rfl (by simp) (by simp)
      · cases hmove
        exact .stage hok (by simp [hstage]) h.ids rfl (by simp) (by simp)
    · cases hmove
  | rejects =>
    simp only [Upload.move, Upload.rejects] at hmove
    split at hmove
    · next r n hstage =>
      cases hmove
      refine MoveOk.stage hok ?_ ?_ ?_ ?_ ?_
      · simp [hstage]
      · exact h.ids.same rfl le_rfl
      · rfl
      · simp
      · simp
    · next r hstage =>
      cases hmove
      refine MoveOk.stage hok ?_ ?_ ?_ ?_ ?_
      · simp [hstage]
      · exact h.ids.same rfl le_rfl
      · rfl
      · simp
      · simp
    · cases hmove
  | drops =>
    simp only [Upload.move, Upload.drops] at hmove
    split at hmove
    · next row hstage =>
      cases hmove
      refine .stage hok (by simp [hstage]) (h.ids.delete _) (versionsOf_delete fun r hr => ?_) (by simp) (by simp)
      simp [(mem_versionsOf.1 hr).2.2]
    · cases hmove
  | publishes now => exact publishes_ok h hok hmove horderly
  | publishesRegistered out now => exact publishesRegistered_ok h hok hmove horderly
  | retires => exact retires_ok h hu hmove
  | retireFails => exact retireFails_ok h hu hmove horderly
  | fails =>
    simp only [Upload.move, Upload.fails] at hmove
    split at hmove
    · cases hmove
    · cases hmove
      exact .stage hok horderly h.ids rfl (by simp) (by simp)

/-! ## Steps -/

theorem Inv.frame {s' : St Id Sha Bytes} (h : Inv d s) (hids : Ids s'.db)
    (hversions : s'.db.versionsOf d = s.db.versionsOf d) (huploads : s'.uploads = s.uploads) : Inv d s' := by
  have hretiring : ∀ k, Retiring s' d k ↔ Retiring s d k := fun k => by unfold Retiring; rw [huploads]
  have hanswered : ∀ blobId, Answered s' d blobId ↔ Answered s d blobId := fun k => by unfold Answered; rw [huploads]
  refine ⟨hids, ?_, ?_, ?_, ?_, ?_, huploads ▸ h.uploads⟩
  · rw [huploads, hversions]
    exact h.retiring
  · simp only [hretiring]
    exact h.same
  · simp only [hretiring, hversions]
    exact h.alone
  · simp only [hretiring, hanswered, hversions]
    exact h.answered
  · simp only [hanswered, hversions]
    exact h.present

/-- another upload, that has done nothing -/
theorem Inv.begins (h : Inv d s) {v : Upload Id Sha} (hstage : v.stage = .searching false) (hseen : v.versions = []) :
    Inv d { s with uploads := s.uploads ++ [v] } := by
  have hmem : ∀ {p : Upload Id Sha → Prop}, ¬ p v → ((∃ u ∈ s.uploads ++ [v], p u) ↔ ∃ u ∈ s.uploads, p u) := by
    intro p hp
    constructor
    · rintro ⟨u, hu, hpu⟩
      rcases mem_snoc.1 hu with hu | rfl
      · exact ⟨u, hu, hpu⟩
      · exact absurd hpu hp
    · rintro ⟨u, hu, hpu⟩
      exact ⟨u, mem_append_left _ hu, hpu⟩
  have hretiring : ∀ k, Retiring { s with uploads := s.uploads ++ [v] } d k ↔ Retiring s d k :=
    fun k => hmem (by simp [hstage])
  have hanswered : ∀ blobId, Answered { s with uploads := s.uploads ++ [v] } d blobId ↔ Answered s d blobId :=
    fun blobId => hmem (by simp [Answers, hstage])
  refine ⟨h.ids, fun u hu keep updated heq => ?_, ?_, ?_, ?_, ?_, fun u hu => ?_⟩
  · rcases mem_snoc.1 hu with hu | rfl
    · exact h.retiring u hu keep updated heq
    · exact absurd (hstage.symm.trans heq) (by simp)
  · simp only [hretiring]
    exact h.same
  · simp only [hretiring]
    exact h.alone
  · simp only [hretiring, hanswered]
    exact h.answered
  · simp only [hanswered]
    exact h.present
  · rcases mem_snoc.1 hu with hu | rfl
    · exact h.uploads u hu
    · exact ⟨fun _ _ => .inl hseen, fun _ _ _ heq => absurd (hstage.symm.trans heq) (by simp)⟩

/-- **An orderly step keeps the file in order.** -/
theorem step_inv (h : Inv d s) {a : Action Id Sha Bytes} (horderly : Orderly d s a) :
    Inv d (step isAttachment length accepts s a) := by
  cases a with
  | begins vaultId sha size mime relPath docId baseSha register => exact h.begins rfl rfl
  | moves i m =>
    simp only [step]
    cases hi : s.uploads[i]? with
    | none => exact h
    | some u =>
      dsimp only
      cases hmove : u.move isAttachment length accepts s.db m with
      | none => exact h
      | some x =>
        have hmoved := move_ok h (mem_of_getElem? hi) hmove (horderly u hi)
        exact h.effect hi (not_done (by rw [hmove]; simp)) hmoved.ids hmoved.effect hmoved.upload
  | puts key bytes =>
    simp only [step, St.puts]
    split
    · exact h.frame (h.ids.same rfl le_rfl) rfl rfl
    · exact h
  | dataStarts blobId declared =>
    simp only [step, St.dataStarts]
    split
    · split
      · exact h.frame h.ids rfl rfl
      · exact h
    · exact h
  | dataStores k bytes =>
    simp only [step, St.dataStores]
    split
    · split
      · exact h.frame (h.ids.same rfl le_rfl) rfl rfl
      · exact h
    · exact h
  | dataRefuses k =>
    simp only [step, St.dataRefuses]
    split
    · exact h.frame (h.ids.same rfl le_rfl) rfl rfl
    · exact h
  | deletesRow blobId =>
    exact h.frame (h.ids.delete _) (versionsOf_delete fun r hr => by simpa using horderly r hr) rfl
  | pins blobId =>
    simp only [step, St.pins]
    split
    · split
      · exact h.frame (h.ids.same rfl le_rfl) rfl rfl
      · exact h
    · exact h
  | unpins key =>
    simp only [step, St.unpins]
    split
    · exact h.frame (h.ids.same rfl le_rfl) rfl rfl
    · exact h.frame (h.ids.same rfl le_rfl) rfl rfl
  | sweepFinds now => exact h.frame h.ids rfl rfl
  | sweepDeletes k blobId =>
    simp only [step, St.sweepDeletes]
    split
    · split
      · next hfound =>
        exact h.frame (h.ids.delete _) (versionsOf_delete fun r hr => by simpa using horderly hfound r hr) rfl
      · exact h
    · exact h
  | drainClaims key =>
    simp only [step, St.drainClaims]
    split
    · exact h.frame h.ids rfl rfl
    · exact h
  | looks k =>
    simp only [step, St.looks]
    split
    · split
      · refine h.frame ?_ ?_ rfl
        · unfold St.unqueue
          split
          · exact h.ids.same rfl le_rfl
          · exact h.ids
        · unfold St.unqueue
          split
          · rfl
          · rfl
      · exact h.frame h.ids rfl rfl
    · exact h
  | removes k =>
    simp only [step, St.removes]
    split
    · split
      · refine h.frame ?_ ?_ rfl
        · unfold St.unqueue
          split
          · exact h.ids.same rfl le_rfl
          · exact h.ids.same rfl le_rfl
        · unfold St.unqueue
          split
          · rfl
          · rfl
      · exact h
    · exact h

/-- versions of one id are one -/
theorem versions_le_one (h : Ids db) (halone : ∀ r ∈ db.versionsOf d, ∀ r' ∈ db.versionsOf d, r.id = r'.id) :
    (db.versionsOf d).length ≤ 1 := by
  have hunique : ((db.versionsOf d).map Row.id).Nodup := h.unique.sublist (filter_sublist.map _)
  match hversions : db.versionsOf d with
  | [] => exact Nat.zero_le _
  | [r] => exact le_rfl
  | r :: r' :: rest =>
    rw [hversions] at hunique halone
    have hid := halone r mem_cons_self r' (.tail _ mem_cons_self)
    simp [hid] at hunique

theorem Inv.settled (h : Inv d s) (hnone : ∀ k, ¬ Retiring s d k) : Settled s d := by
  have hone := versions_le_one h.ids (h.alone hnone)
  refine ⟨hone, fun ⟨blobId, hblob⟩ => ?_⟩
  have hpresent := h.present blobId hblob
  match hversions : s.db.versionsOf d with
  | [] => exact absurd hversions hpresent
  | [r] => exact ⟨r, rfl, h.answered hnone blobId hblob r (by rw [hversions]; exact mem_singleton_self r)⟩
  | r :: r' :: rest =>
    rw [hversions] at hone
    simp at hone

theorem AtRest.inv (h : AtRest d s) : Inv d s := by
  refine ⟨h.ids, by simp [h.uploads], ?_, fun _ r hr r' hr' => ?_, ?_, ?_, by simp [h.uploads]⟩
  · rintro k k' ⟨u, hu, _⟩
    simp [h.uploads] at hu
  · rcases Nat.le_one_iff_eq_zero_or_eq_one.1 h.versions with hlen | hlen
    · rw [length_eq_zero_iff] at hlen
      rw [hlen] at hr
      cases hr
    · obtain ⟨r₀, hr₀⟩ := length_eq_one_iff.1 hlen
      rw [hr₀] at hr hr'
      rw [mem_singleton.1 hr, mem_singleton.1 hr']
  · rintro _ blobId ⟨u, hu, _⟩
    simp [h.uploads] at hu
  · rintro blobId ⟨u, hu, _⟩
    simp [h.uploads] at hu

/-- an orderly publish of an upload that names a base is over that base, or over the same content -/
theorem published_over_base (h : Inv d s) (hu : u ∈ s.uploads) (horderly : MoveOrderly d s u m)
    (hpublishes : PublishesTo s d u m) {baseSha : Sha} (hbase : u.baseSha = some baseSha) :
    ∃ r ∈ s.db.versionsOf d, r.sha = baseSha ∨ r.sha = u.sha := by
  have hbased : Based s d u → ∃ r ∈ s.db.versionsOf d, r.sha = baseSha ∨ r.sha = u.sha := by
    intro hbased
    obtain ⟨hsome, hversions⟩ := hbased baseSha hbase
    rcases (h.uploads u hu).checked baseSha hbase with hnone | hmem | hmem
    · rw [← hversions, map_eq_nil_iff] at hnone
      exact absurd hnone hsome
    · rw [← hversions] at hmem
      obtain ⟨r, hr, hsha⟩ := mem_map.1 hmem
      exact ⟨r, hr, .inl hsha⟩
    · rw [← hversions] at hmem
      obtain ⟨r, hr, hsha⟩ := mem_map.1 hmem
      exact ⟨r, hr, .inr hsha⟩
  cases m with
  | publishes now =>
    obtain ⟨row, n, cur, hstage, hregister, hcur, hdoc⟩ := hpublishes
    exact hbased (horderly row n hstage hregister (by simp [hcur, hdoc])).2.2
  | publishesRegistered out now =>
    obtain ⟨row, n, cur, hstage, hregister, hout, hcur, hpending, hfits⟩ := hpublishes
    have hthere := horderly row n hstage hregister hout cur hcur
    rw [if_neg (by simp [hpending]), if_pos hfits] at hthere
    exact hbased hthere.2
  | claims now =>
    obtain ⟨hit, hstage, hregister, hdoc, hunclaimed⟩ := hpublishes
    have hthere := horderly hit hstage hregister hdoc
    rw [if_neg (by simp [hunclaimed])] at hthere
    exact absurd (hbase.symm.trans (hthere.2 hunclaimed).2.2.1) (by simp)
  | rebinds now =>
    obtain ⟨hit, hstage, hdoc⟩ := hpublishes
    have hthere := horderly hit hstage
    rw [if_pos hdoc] at hthere
    exact absurd (hbase.symm.trans hthere.2.2.1) (by simp)
  | _ => exact hpublishes.elim

end

/-- every path is a file's, and a byte string is its length and has every type -/
def run₀ (s : St ℕ ℕ ℕ) (as : List (Action ℕ ℕ ℕ)) : St ℕ ℕ ℕ := run (fun _ => false) id (fun _ _ => true) s as

/-- file 10 of vault 1, without content -/
def file₀ : St ℕ ℕ ℕ := { db := { files := [10], objects := fun _ => none } }

theorem file₀_atRest : AtRest 10 file₀ := ⟨⟨by decide, by decide⟩, rfl, by decide⟩

/-- the `i`-th upload, of that content, up to its complete -/
def arrives (sha i : ℕ) : List (Action ℕ ℕ ℕ) :=
  [.begins 1 sha 9 [] [] (some 10) none false, .moves i .searches, .moves i .checks, .moves i (.reuses 0),
    .moves i (.creates 0), .puts (1, sha) 9, .moves i .completeStarts, .moves i .measures]

def arrivedRow : Row ℕ ℕ :=
  { id := 0, vaultId := 1, sha := 5, size := 9, mime := [], relPath := [], docId := some 10, updatedAt := 0 }

def arrived : Upload ℕ ℕ :=
  { vaultId := 1, sha := 5, size := 9, mime := [], relPath := [], docId := some 10
    stage := .completing arrivedRow (some 9) }

def oneUpload : List (Action ℕ ℕ ℕ) := arrives 5 0 ++ [.moves 0 (.publishes 1), .moves 0 .retires]

/-- both have published when the first retires -/
def twoUploads : List (Action ℕ ℕ ℕ) := arrives 5 0 ++ arrives 6 1 ++
  [.moves 0 (.publishes 1), .moves 1 (.publishes 1), .moves 0 .retires, .moves 1 .retires]

end Baalda.BlobVersions
