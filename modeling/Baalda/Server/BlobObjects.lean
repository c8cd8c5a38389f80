/-
The objects of ready rows, through uploads that share a key, refusals, sweeps and the deletion queue.

`objects_kept`: in every state of a run each ready row has its object, of the size that it records, each pinned object
is there and no pending sweep has deleted a ready row, exactly if: whenever a refused upload or a sweep deletes an
object no ready row and no pin names it, whenever bytes are written no ready row of another size names their key,
whenever a row is published the object that was measured is there, and no row that a sweep has found is ready when it is
deleted.
-/
import Baalda.Lib.Slots
import Baalda.Server.BlobRoutes

namespace Baalda.BlobObjects

open BlobRoutes List Function Option

variable {Id Sha Bytes : Type*} [DecidableEq Id] [DecidableEq Sha] [DecidableEq Bytes]
variable (isAttachment : Path → Bool) (length : Bytes → ℕ) (accepts : Mime → Bytes → Bool)

/-! ## What is to hold -/

/-- a ready row has its object, and so has a pin -/
structure Backed (db : Db Id Sha Bytes) : Prop where
  ready : ∀ r ∈ db.rows, r.ready → ∃ bytes, db.objects r.key = some bytes ∧ length bytes = r.size
  pins : ∀ key ∈ db.pins, ∃ bytes, db.objects key = some bytes

structure Kept (s : St Id Sha Bytes) : Prop where
  backed : Backed length s.db
  swept : s.sweptReady = []

/-! ## The condition -/

/-- no ready row and no pin names the object -/
def Free (db : Db Id Sha Bytes) (key : Key Id Sha) : Prop := (∀ r ∈ db.rows, r.ready → r.key ≠ key) ∧ key ∉ db.pins

/-- the ready rows of a key record this length -/
def Agrees (db : Db Id Sha Bytes) (key : Key Id Sha) (bytes : Bytes) : Prop :=
  ∀ r ∈ db.rows, r.ready → r.key = key → length bytes = r.size

/-- what was measured is there -/
def Measured (db : Db Id Sha Bytes) (blobId n : ℕ) : Prop :=
  ∀ r ∈ db.rows, r.id = blobId → ∃ bytes, db.objects r.key = some bytes ∧ length bytes = n

def MoveSafe (db : Db Id Sha Bytes) (u : Upload Id Sha) : Move Id Bytes → Prop
  | .assembles bytes => ∀ r, u.stage = .completing r none → Agrees length db r.key bytes
  | .rejects => ∀ r, (u.stage = .rejecting r ∨ ∃ n, u.stage = .completing r n) → Free db r.key
  | .publishes _ => ∀ r n, u.stage = .completing r (some n) → r.register = false → Measured length db r.id n
  | .publishesRegistered out _ => ∀ r n, u.stage = .completing r (some n) → r.register = true → ∀ docId ∈ out,
      ∀ cur ∈ db.row r.id, cur.ready = false → fits db.rows { cur with docId := some docId } →
      Measured length db r.id n
  | _ => True

def Safe (s : St Id Sha Bytes) : Action Id Sha Bytes → Prop
  | .moves i m => ∀ u ∈ s.uploads[i]?, MoveSafe length s.db u m
  | .puts key bytes => (key, length bytes) ∈ s.db.presigned → Agrees length s.db key bytes
  | .dataStores k bytes => ∀ x ∈ s.dataPuts[k]?, length bytes = x.2 → Agrees length s.db x.1 bytes
  | .dataRefuses k => ∀ x ∈ s.dataPuts[k]?, Free s.db x.1
  | .sweepDeletes k blobId => blobId ∈ (s.sweeps[k]?).getD [] → ∀ r ∈ s.db.row blobId, r.ready = false
  | .removes k => ∀ x ∈ s.removals[k]?, x.free → Free s.db x.key
  | _ => True

/-! ## Statements -/

section

variable {length} {db db' : Db Id Sha Bytes}

section

variable (h : Backed length db)

include h

/-- ready rows are ones there were, and objects stay -/
theorem Backed.keep (hrows : ∀ r' ∈ db'.rows, r'.ready → ∃ r ∈ db.rows, r.ready ∧ r.key = r'.key ∧ r.size = r'.size)
    (hobjects : db'.objects = db.objects) (hpins : ∀ key ∈ db'.pins, key ∈ db.pins) : Backed length db' := by
  refine ⟨fun r' hr' hready' => ?_, fun key hkey => ?_⟩
  · obtain ⟨r, hr, hready, hkey, hsize⟩ := hrows r' hr' hready'
    rw [hobjects, ← hkey, ← hsize]
    exact h.ready r hr hready
  · rw [hobjects]
    exact h.pins key (hpins key hkey)

theorem Backed.same (hrows : db'.rows = db.rows) (hobjects : db'.objects = db.objects)
    (hpins : ∀ key ∈ db'.pins, key ∈ db.pins) : Backed length db' :=
  h.keep (fun r' hr' hready => ⟨r', hrows ▸ hr', hready, rfl, rfl⟩) hobjects hpins

theorem Backed.delete (p : Row Id Sha → Bool) : Backed length (db.delete p) :=
  h.keep (fun r' hr' hready => ⟨r', mem_of_mem_filter hr', hready, rfl, rfl⟩) rfl fun _ hkey => hkey

/-- an update that leaves status, key and size -/
theorem Backed.update (blobId : ℕ) {f : Row Id Sha → Row Id Sha}
    (hf : ∀ r, (f r).ready = r.ready ∧ (f r).key = r.key ∧ (f r).size = r.size) :
    Backed length (db.update blobId f) := by
  refine h.keep (fun r' hr' hready => ?_) rfl fun _ hkey => hkey
  obtain ⟨r, hr, rfl⟩ := mem_map.1 hr'
  refine ⟨r, hr, ?_⟩
  split at hready
  · next hid =>
    rw [if_pos hid, ← (hf r).1]
    exact ⟨hready, (hf r).2.1.symm, (hf r).2.2.symm⟩
  · next hid =>
    rw [if_neg hid]
    exact ⟨hready, rfl, rfl⟩

/-- a row more, that is not ready or has what a ready row has -/
theorem Backed.insert {row : Row Id Sha} (hrows : db'.rows = db.rows ++ [row])
    (hrow : row.ready → ∃ r ∈ db.rows, r.ready ∧ r.key = row.key ∧ r.size = row.size)
    (hobjects : db'.objects = db.objects) (hpins : db'.pins = db.pins) : Backed length db' := by
  refine h.keep (fun r' hr' hready => ?_) hobjects fun key hkey => hpins ▸ hkey
  rw [hrows] at hr'
  rcases mem_snoc.1 hr' with hr' | rfl
  · exact ⟨r', hr', hready, rfl, rfl⟩
  · exact hrow hready

/-- bytes are written: ready rows of that key record their length -/
theorem put_backed (key : Key Id Sha) (bytes : Bytes) :
    Backed length (db.put key bytes) ↔ Agrees length db key bytes := by
  constructor
  · intro hafter r hr hready hkey
    obtain ⟨b, hb, hlen⟩ := hafter.ready r hr hready
    simp only [Db.put, hkey, update_self, some.injEq] at hb
    rw [hb]
    exact hlen
  · intro hagrees
    refine ⟨fun r hr hready => ?_, fun key' hkey' => ?_⟩
    · by_cases hkey : r.key = key
      · refine ⟨bytes, ?_, hagrees r hr hready hkey⟩
        simp only [Db.put, hkey, update_self]
      · obtain ⟨b, hb, hlen⟩ := h.ready r hr hready
        refine ⟨b, ?_, hlen⟩
        simp only [Db.put, update_of_ne hkey]
        exact hb
    · by_cases hkey : key' = key
      · exact ⟨bytes, by simp only [Db.put, hkey, update_self]⟩
      · obtain ⟨b, hb⟩ := h.pins key' hkey'
        refine ⟨b, ?_⟩
        simp only [Db.put, update_of_ne hkey]
        exact hb

/-- an object is deleted: none names it -/
theorem remove_backed (key : Key Id Sha) : Backed length (db.remove key) ↔ Free db key := by
  constructor
  · intro hafter
    refine ⟨fun r hr hready hkey => ?_, fun hpin => ?_⟩
    · obtain ⟨b, hb, _⟩ := hafter.ready r hr hready
      simp [Db.remove, hkey] at hb
    · obtain ⟨b, hb⟩ := hafter.pins key hpin
      simp [Db.remove] at hb
  · intro hfree
    refine ⟨fun r hr hready => ?_, fun key' hkey' => ?_⟩
    · obtain ⟨b, hb, hlen⟩ := h.ready r hr hready
      refine ⟨b, ?_, hlen⟩
      simp only [Db.remove, update_of_ne (hfree.1 r hr hready)]
      exact hb
    · obtain ⟨b, hb⟩ := h.pins key' hkey'
      have hne : key' ≠ key := fun heq => hfree.2 (heq ▸ hkey')
      refine ⟨b, ?_⟩
      simp only [Db.remove, update_of_ne hne]
      exact hb

/-- a row is published: the object that was measured is there -/
theorem publish_backed (blobId n : ℕ) {f : Row Id Sha → Row Id Sha}
    (hf : ∀ r, (f r).ready = true ∧ (f r).key = r.key ∧ (f r).size = n) :
    Backed length (db.update blobId f) ↔ Measured length db blobId n := by
  constructor
  · intro hafter r hr hid
    have hmem : f r ∈ (db.update blobId f).rows := mem_map.2 ⟨r, hr, if_pos hid⟩
    obtain ⟨b, hb, hlen⟩ := hafter.ready (f r) hmem (hf r).1
    rw [(hf r).2.1] at hb
    rw [(hf r).2.2] at hlen
    exact ⟨b, hb, hlen⟩
  · intro hmeasured
    refine ⟨fun r' hr' hready => ?_, h.pins⟩
    obtain ⟨r, hr, rfl⟩ := mem_map.1 hr'
    split at hready
    · next hid =>
      rw [if_pos hid, (hf r).2.1, (hf r).2.2]
      exact hmeasured r hr hid
    · next hid =>
      rw [if_neg hid]
      exact h.ready r hr hready

end

theorem row_mem {blobId : ℕ} {r : Row Id Sha} (h : db.row blobId = some r) : r ∈ db.rows ∧ r.id = blobId :=
  ⟨mem_of_find?_eq_some h, by simpa using find?_some h⟩

/-! ## Moves -/

variable {isAttachment accepts} {u u' : Upload Id Sha}

theorem bind_backed (h : Backed length db) (hit : Row Id Sha) (docId : Id) (now : ℕ) :
    Backed length (Upload.bind db hit docId now) := by
  unfold Upload.bind
  split
  · split
    · exact h.update _ fun _ => ⟨rfl, rfl, rfl⟩
    · exact h
  · exact h

theorem copyRowForDoc_backed (h : Backed length db) (hit : Row Id Sha) (docId : Id) (now : ℕ) :
    Backed length (u.copyRowForDoc db hit docId now).1 := by
  unfold Upload.copyRowForDoc
  split
  · next src hsrc =>
    dsimp only
    split
    · refine h.insert rfl (fun _ => ?_) rfl rfl
      have hready := find?_some hsrc
      simp only [decide_eq_true_eq] at hready
      exact ⟨src, mem_of_find?_eq_some hsrc, hready.2, rfl, rfl⟩
    · split
      · exact h
      · exact h
  · exact h

variable {now : ℕ}

section

variable (h : Backed length db)

include h

theorem claims_backed (hmove : u.claims isAttachment db now = some (db', u')) : Backed length db' := by
  unfold Upload.claims at hmove
  split at hmove
  · split at hmove
    · cases hmove
      exact h
    · split at hmove
      · cases hmove
        exact h
      · split at hmove
        · split at hmove
          · have hdb : _ = db' := congrArg Prod.fst (some.inj hmove)
            rw [← hdb]
            exact copyRowForDoc_backed h _ _ _
          · cases hmove
            exact bind_backed h _ _ _
        · split at hmove
          · cases hmove
            exact h
          · cases hmove
            exact h
  · cases hmove

theorem presign_backed (u : Upload Id Sha) (blobId : ℕ) :
    Backed length (Upload.presign db u blobId).1 := h.same rfl rfl fun _ hkey => hkey

theorem reuses_backed (hmove : u.reuses db now = some (db', u')) : Backed length db' := by
  unfold Upload.reuses at hmove
  split at hmove
  · split at hmove
    · cases hmove
      exact h
    · split at hmove
      · have hdb : _ = db' := congrArg Prod.fst (some.inj hmove)
        rw [← hdb]
        apply presign_backed
        exact h.update _ fun _ => ⟨rfl, rfl, rfl⟩
      · cases hmove
        exact h
    · cases hmove
      exact h
  · cases hmove

theorem creates_backed (hmove : u.creates db now = some (db', u')) : Backed length db' := by
  unfold Upload.creates at hmove
  split at hmove
  · dsimp only at hmove
    split at hmove
    · cases hmove
      exact h.insert rfl (fun hready => by simp at hready) rfl rfl
    · cases hmove
      exact h
  · cases hmove

theorem publishes_backed (hmove : u.publishes db now = some (db', u')) :
    Backed length db' ↔ MoveSafe length db u (.publishes now) := by
  unfold Upload.publishes at hmove
  split at hmove
  · next row n hstage =>
    split at hmove
    · cases hmove
    · next hregister =>
      cases hmove
      rw [publish_backed h row.id n]
      · simp [MoveSafe, hstage, hregister]
      · exact fun _ => ⟨rfl, rfl, rfl⟩
  · cases hmove

theorem publishesRegistered_backed {out : Option Id} (hmove : u.publishesRegistered db out now = some (db', u')) :
    Backed length db' ↔ MoveSafe length db u (.publishesRegistered out now) := by
  unfold Upload.publishesRegistered at hmove
  split at hmove
  · next row n hstage =>
    split at hmove
    · cases hmove
    · next hregister =>
      split at hmove
      · cases hmove
        exact iff_of_true h (by simp [MoveSafe])
      · next docId =>
        split at hmove
        · next cur hcur =>
          split at hmove
          · next hready =>
            cases hmove
            refine iff_of_true (h.same rfl rfl fun _ hkey => hkey) ?_
            simp [MoveSafe, hstage, hcur, hready]
          · next hpending =>
            split at hmove
            · next hfits =>
              cases hmove
              have hregistered : Backed length { db with files := db.files ++ [docId] } :=
                h.same rfl rfl fun _ hkey => hkey
              rw [publish_backed hregistered row.id n]
              · simp only [MoveSafe, hstage, Stage.completing.injEq, some.injEq]
                constructor
                · rintro hmeasured r n' ⟨rfl, rfl⟩ _ _ _ _ _ _ _
                  exact hmeasured
                · intro hsafe
                  exact hsafe row n ⟨rfl, rfl⟩ (by simpa using hregister) docId rfl cur hcur (by simpa using hpending)
                    hfits
              · exact fun _ => ⟨rfl, rfl, rfl⟩
            · next hfits =>
              have hsafe : MoveSafe length db u (.publishesRegistered (some docId) now) := by
                simp [MoveSafe, hstage, hcur, hfits]
              split at hmove
              · cases hmove
                refine iff_of_true ?_ hsafe
                have hregistered : Backed length { db with files := db.files ++ [docId] } :=
                  h.same rfl rfl fun _ hkey => hkey
                exact hregistered.delete _
              · cases hmove
                exact iff_of_true h hsafe
        · next hnone =>
          cases hmove
          exact iff_of_true h (by simp [MoveSafe, hstage, hnone])
  · cases hmove

/-- **A move of an upload keeps every ready row's object exactly if it is safe.** -/
theorem move_backed {m : Move Id Bytes} (hmove : u.move isAttachment length accepts db m = some (db', u')) :
    Backed length db' ↔ MoveSafe length db u m := by
  cases m with
  | searches | checks | refuses | completeStarts | measures | retireFails | fails =>
    -- none of these changes a row
    refine iff_of_true ?_ trivial
    simp only [Upload.move, Upload.searches, Upload.checks, Upload.refuses, Upload.completeStarts, Upload.measures,
      Upload.retireFails, Upload.fails] at hmove
    repeat' split at hmove
    all_goals cases hmove
    all_goals exact h
  | registers out =>
    refine iff_of_true ?_ trivial
    simp only [Upload.move, Upload.registers] at hmove
    split at hmove
    · cases hmove
      exact h
    · cases hmove
      exact h.same rfl rfl fun _ hkey => hkey
    · cases hmove
  | claims now => exact iff_of_true (claims_backed h hmove) trivial
  | rebinds now =>
    refine iff_of_true ?_ trivial
    simp only [Upload.move, Upload.rebinds] at hmove
    split at hmove
    · cases hmove
      exact bind_backed h _ _ _
    · cases hmove
  | reuses now => exact iff_of_true (reuses_backed h hmove) trivial
  | creates now => exact iff_of_true (creates_backed h hmove) trivial
  | assembles bytes =>
    simp only [Upload.move, Upload.assembles] at hmove
    split at hmove
    · next r hstage =>
      cases hmove
      rw [put_backed h]
      simp [MoveSafe, hstage]
    · cases hmove
  | rejects =>
    simp only [Upload.move, Upload.rejects] at hmove
    split at hmove
    · next r n hstage =>
      cases hmove
      rw [remove_backed h]
      simp [MoveSafe, hstage]
    · next r hstage =>
      cases hmove
      rw [remove_backed h]
      simp [MoveSafe, hstage]
    · cases hmove
  | drops =>
    refine iff_of_true ?_ trivial
    simp only [Upload.move, Upload.drops] at hmove
    split at hmove
    · cases hmove
      exact h.delete _
    · cases hmove
  | publishes now => exact publishes_backed h hmove
  | publishesRegistered out now => exact publishesRegistered_backed h hmove
  | retires =>
    refine iff_of_true ?_ trivial
    simp only [Upload.move, Upload.retires] at hmove
    split at hmove
    · cases hmove
      exact h.delete _
    · cases hmove
      exact h
    · cases hmove

end

/-- a move that cannot be made is safe -/
theorem moveSafe_of_none {m : Move Id Bytes} (hmove : u.move isAttachment length accepts db m = none) :
    MoveSafe length db u m := by
  cases m with
  | assembles bytes =>
    intro r hstage
    simp [Upload.move, Upload.assembles, hstage] at hmove
  | rejects =>
    rintro r (hstage | ⟨n, hstage⟩)
    · simp [Upload.move, Upload.rejects, hstage] at hmove
    · simp [Upload.move, Upload.rejects, hstage] at hmove
  | publishes now =>
    intro r n hstage hregister
    simp [Upload.move, Upload.publishes, hstage, hregister] at hmove
  | publishesRegistered out now =>
    intro r n hstage hregister docId hout cur hcur hpending hfits
    obtain rfl : out = some docId := hout
    obtain hcur : db.row r.id = some cur := hcur
    simp only [Upload.move, Upload.publishesRegistered, hstage, hregister, hcur] at hmove
    split at hmove
    · next hno => simp at hno
    split at hmove
    · next hready => simp [hpending] at hready
    cases hmove
  | _ => trivial

/-! ## Steps -/

variable {s s' : St Id Sha Bytes}

theorem kept_iff (h : Kept length s) (hswept : s'.sweptReady = s.sweptReady) :
    Kept length s' ↔ Backed length s'.db :=
  ⟨fun h' => h'.backed, fun hbacked => ⟨hbacked, hswept.trans h.swept⟩⟩

theorem unqueue_backed (h : Backed length s.db) (x : Removal Id Sha) : Backed length (s.unqueue x) := by
  unfold St.unqueue
  split
  · exact h.same rfl rfl fun _ hkey => hkey
  · exact h

/-- **A step keeps every ready row's object exactly if it is safe.** -/
theorem step_kept (h : Kept length s) (a : Action Id Sha Bytes) :
    Kept length (step isAttachment length accepts s a) ↔ Safe length s a := by
  cases a with
  | begins vaultId sha size mime relPath docId baseSha register | sweepFinds now =>
    exact iff_of_true ⟨h.backed, h.swept⟩ trivial
  | moves i m =>
    simp only [step, Safe]
    cases hi : s.uploads[i]? with
    | none => exact iff_of_true h (by simp)
    | some u =>
      dsimp only
      cases hmove : u.move isAttachment length accepts s.db m with
      | none =>
        refine iff_of_true h ?_
        intro u' hu'
        cases hu'
        exact moveSafe_of_none hmove
      | some x =>
        refine Iff.trans (kept_iff h ?_) (Iff.trans (move_backed h.backed hmove) ?_)
        · rfl
        simp
  | puts key bytes =>
    simp only [step, St.puts, Safe]
    split
    · next hsigned =>
      refine Iff.trans (kept_iff h ?_) (Iff.trans (put_backed h.backed key bytes) ?_)
      · rfl
      simp [hsigned]
    · next hsigned => exact iff_of_true h fun hmem => absurd hmem hsigned
  | dataStarts blobId declared =>
    refine iff_of_true ?_ trivial
    simp only [step, St.dataStarts]
    split
    · split
      · exact ⟨h.backed, h.swept⟩
      · exact h
    · exact h
  | dataStores k bytes =>
    simp only [step, St.dataStores, Safe]
    split
    · next key declared hk =>
      split
      · next hlen =>
        refine Iff.trans (kept_iff h ?_) (Iff.trans (put_backed h.backed key bytes) ?_)
        · rfl
        simp [hk, hlen]
      · next hlen => exact iff_of_true h (by simp [hk, hlen])
    · next hnone => exact iff_of_true h (by simp [hnone])
  | dataRefuses k =>
    simp only [step, St.dataRefuses, Safe]
    split
    · next key declared hk =>
      refine Iff.trans (kept_iff h ?_) (Iff.trans (remove_backed h.backed key) ?_)
      · rfl
      simp [hk]
    · next hnone => exact iff_of_true h (by simp [hnone])
  | deletesRow blobId => exact iff_of_true ⟨h.backed.delete _, h.swept⟩ trivial
  | pins blobId =>
    refine iff_of_true ?_ trivial
    simp only [step, St.pins]
    split
    · next r hr =>
      split
      · next hready =>
        refine ⟨⟨h.backed.ready, fun key hkey => ?_⟩, h.swept⟩
        rcases mem_snoc.1 hkey with hkey | rfl
        · exact h.backed.pins key hkey
        · obtain ⟨bytes, hbytes, _⟩ := h.backed.ready r (row_mem hr).1 hready
          exact ⟨bytes, hbytes⟩
      · exact h
    · exact h
  | unpins key =>
    refine iff_of_true ?_ trivial
    simp only [step, St.unpins]
    split
    · exact ⟨h.backed.same rfl rfl fun _ hkey => mem_of_mem_erase hkey, h.swept⟩
    · exact ⟨h.backed.same rfl rfl fun _ hkey => mem_of_mem_erase hkey, h.swept⟩
  | sweepDeletes k blobId =>
    simp only [step, St.sweepDeletes, Safe]
    split
    · next r hr =>
      split
      · next hfound =>
        have hdeleted := h.backed.delete fun r => decide (r.id = blobId)
        constructor
        · intro hafter _ r' hr'
          cases hr.symm.trans hr'
          have hswept := hafter.swept
          simp only [h.swept, nil_append] at hswept
          split at hswept
          · cases hswept
          · next hready => simpa using hready
        · intro hsafe
          refine ⟨hdeleted, ?_⟩
          simp [h.swept, hsafe hfound r hr]
      · next hfound => exact iff_of_true h fun hmem => absurd hmem hfound
    · next hnone => exact iff_of_true h (by simp [hnone])
  | drainClaims key =>
    refine iff_of_true ?_ trivial
    simp only [step, St.drainClaims]
    split
    · exact ⟨h.backed, h.swept⟩
    · exact h
  | looks k =>
    refine iff_of_true ?_ trivial
    simp only [step, St.looks]
    split
    · split
      · exact ⟨unqueue_backed h.backed _, h.swept⟩
      · exact ⟨h.backed, h.swept⟩
    · exact h
  | removes k =>
    simp only [step, St.removes, Safe]
    split
    · next x hk =>
      split
      · next hfree =>
        refine Iff.trans (kept_iff h ?_) (Iff.trans (remove_backed (unqueue_backed h.backed x) x.key) ?_)
        · rfl
        have hsame : Free (s.unqueue x) x.key ↔ Free s.db x.key := by
          unfold St.unqueue
          split
          · exact Iff.rfl
          · exact Iff.rfl
        simp [hk, hfree, hsame]
      · next hfree => exact iff_of_true h (by simp [hk, hfree])
    · next hnone => exact iff_of_true h (by simp [hnone])

end

/-- every path is a file's, and a byte string is its length and has every type -/
def run₀ (s : St ℕ ℕ ℕ) (as : List (Action ℕ ℕ ℕ)) : St ℕ ℕ ℕ := run (fun _ => false) id (fun _ _ => true) s as

def empty₀ : St ℕ ℕ ℕ := { db := { files := [10, 11], objects := fun _ => none } }

theorem empty₀_kept : Kept id empty₀ :=
  ⟨⟨fun _ hr _ => by simp [empty₀] at hr, fun _ hkey => by simp [empty₀] at hkey⟩, rfl⟩

/-- an upload of content 5 to a file, up to its complete; it is the `i`-th upload -/
def arrives (docId i : ℕ) : List (Action ℕ ℕ ℕ) :=
  [.begins 1 5 9 [] [] (some docId) none false, .moves i .searches, .moves i .checks, .moves i (.reuses 0),
    .moves i (.creates 0), .puts (1, 5) 9, .moves i .completeStarts, .moves i .measures]

def publishesFirst : List (Action ℕ ℕ ℕ) := arrives 10 0 ++ [.moves 0 (.publishes 1), .moves 0 .retires]

/-- a second file of that content is uploaded, and its complete restates another hash -/
def refusesSecond : List (Action ℕ ℕ ℕ) := publishesFirst ++ arrives 11 1 ++ [.moves 1 .rejects, .moves 1 .drops]

/-- a row that a sweep has found is completed before the `DELETE` comes to it -/
example : ¬ Kept id (run₀ empty₀ (arrives 10 0 ++
    [.sweepFinds 61, .moves 0 (.publishes 61), .sweepDeletes 0 0])) := fun h => absurd h.swept (by decide)

end Baalda.BlobObjects
