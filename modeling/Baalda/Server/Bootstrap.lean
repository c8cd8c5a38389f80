/-
The bootstrap download (`yjs/bootstrap.ts`): a session materialises the documents a client is to fetch once, in a fixed
order, and every page after it reads on from a cursor.

- `createBootstrapSession`: the plan, one row a document with its stored size, numbered densely; `SessionPlan` carries
  that with it;
- `loadBootstrapPage`: one page, packed to a count and a byte budget by the planned sizes. What it delivers is read when
  the page is: a document may have grown, gone or become unreadable since;
- `download`: a client that follows the returned cursors, with the server's state of each request.

`delivered_exactly_once`: the cursor grows with every page, the run ends, and every planned document has been read by
exactly one page, which delivered it exactly if it was readable and stored then.
-/
import Baalda.Lib.Machine
import Baalda.Lib.Slots
import Baalda.Server.BulkProtocol

namespace Baalda.Bootstrap

open BulkProtocol List

/-! ## The session -/

structure PlanRow where
  seq : ℕ
  docId : JsString
  bytes : ℕ
  deriving DecidableEq

/-- the rows of a session in the order of `seq`, which is dense, one row a document -/
structure SessionPlan where
  rows : List PlanRow
  dense : rows.map PlanRow.seq = List.range' 1 rows.length
  nodup : (rows.map PlanRow.docId).Nodup

/-- a live note of the vault and the bytes stored for it -/
structure NoteRow where
  id : JsString
  relPath : JsString
  bytes : ℕ

def emptyDocsCap : ℕ := 5000

structure BootstrapSession where
  plan : SessionPlan
  emptyDocs : List JsString
  emptyTruncated : Bool

/-- `ORDER BY rel_path COLLATE "C", doc_id`: by the bytes of the path -/
def pathOrder (a b : NoteRow) : Bool :=
  Utf8.encode a.relPath < Utf8.encode b.relPath ∨ Utf8.encode a.relPath = Utf8.encode b.relPath ∧ a.id ≤ b.id

/-- `row_number() OVER (ORDER BY …)`, from `k` on -/
def numbered : ℕ → List NoteRow → List PlanRow
  | _, [] => []
  | k, n :: notes => { seq := k, docId := n.id, bytes := n.bytes } :: numbered (k + 1) notes

theorem numbered_docIds (k : ℕ) (notes : List NoteRow) :
    (numbered k notes).map PlanRow.docId = notes.map NoteRow.id := by
  induction notes generalizing k with
  | nil => rfl
  | cons n notes ih => rw [numbered, map_cons, ih, map_cons]

theorem numbered_dense (k : ℕ) (notes : List NoteRow) :
    (numbered k notes).map PlanRow.seq = List.range' k (numbered k notes).length := by
  induction notes generalizing k with
  | nil => rfl
  | cons n notes ih => rw [numbered, map_cons, ih, length_cons, range'_succ]

/-- `only` names the documents wanted, and then `have` is ignored -/
def candidates (readable held : List JsString) (only : Option (List JsString)) : List JsString := match only with
  | some ids => ids.dedup.filter (· ∈ readable)
  | none => readable.filter (· ∉ held)

def sized (notes : List NoteRow) (ids : List JsString) : List NoteRow :=
  (notes.filter (·.id ∈ ids)).mergeSort pathOrder

theorem sized_nodup {notes : List NoteRow} (h : (notes.map NoteRow.id).Nodup) (ids : List JsString) :
    ((sized notes ids).map NoteRow.id).Nodup := by
  have hperm : (sized notes ids).Perm (notes.filter (·.id ∈ ids)) := mergeSort_perm _ _
  refine (hperm.map NoteRow.id).nodup_iff.mpr ?_
  exact h.sublist (filter_sublist.map NoteRow.id)

/-- the download set, and the readable notes the server holds nothing for -/
def createBootstrapSession (notes : List NoteRow) (hnotes : (notes.map NoteRow.id).Nodup)
    (readable held : List JsString) (only : Option (List JsString)) : BootstrapSession where
  plan := {
    rows := numbered 1 ((sized notes (candidates readable held only)).filter (0 < ·.bytes))
    dense := numbered_dense 1 _
    nodup := by
      rw [numbered_docIds]
      exact (sized_nodup hnotes _).sublist (List.filter_sublist.map NoteRow.id) }
  emptyDocs := (((sized notes (candidates readable held only)).filter (·.bytes = 0)).map NoteRow.id).take emptyDocsCap
  emptyTruncated := emptyDocsCap < ((sized notes (candidates readable held only)).filter (·.bytes = 0)).length

/-! ## A page -/

structure Config where
  maxPageBytes : ℕ
  maxPageDocs : ℕ

/-- one request, and what the server's snapshot holds when it is answered -/
structure PageRequest where
  maxBytes : Option ℕ
  expired : Bool := false
  /-- the documents the user may read now -/
  readable : JsString → Bool
  snapshot : JsString → Option (List UInt8)
  updates : JsString → List (List UInt8)
  relPath : JsString → Option JsString

inductive PageError where
  | sessionExpired
  | codec (e : CodecError)

structure BootstrapPageResult where
  body : List UInt8
  nextCursor : Option ℕ
  docs : ℕ
  /-- the size of the page before it is compressed -/
  bytes : ℕ

/-- the rows after the first of a page, until one would exceed the budget -/
def packFrom (budget : ℕ) : ℕ → List PlanRow → List PlanRow
  | _, [] => []
  | planBytes, row :: rows =>
    if budget < planBytes + row.bytes then [] else row :: packFrom budget (planBytes + row.bytes) rows

/-- a document bigger than a whole page ships alone -/
def pack (budget : ℕ) : List PlanRow → List PlanRow
  | [] => []
  | row :: rows => row :: packFrom budget row.bytes rows

namespace PageRequest

variable (cfg : Config) (merge : List (List UInt8) → List UInt8) (q : PageRequest) (plan : SessionPlan) (cursor : ℕ)

def budget : ℕ := max 1 (min (q.maxBytes.getD cfg.maxPageBytes) cfg.maxPageBytes)

/-- `WHERE seq > cursor ORDER BY seq LIMIT maxPageDocs` -/
def planned : List PlanRow := (plan.rows.filter (cursor < ·.seq)).take cfg.maxPageDocs

def take : List PlanRow := pack (q.budget cfg) (planned cfg plan cursor)

/-- what is stored of a document that is still readable -/
def parts (docId : JsString) : List (List UInt8) :=
  if q.readable docId then (q.snapshot docId).toList ++ q.updates docId else []

/-- the document as it is now; none if it is gone or unreadable -/
def docOf (docId : JsString) : Option BootstrapDoc := match q.parts docId with
  | [] => none
  | [update] => some { docId := docId, relPath := (q.relPath docId).getD [], update := update }
  | updates => some { docId := docId, relPath := (q.relPath docId).getD [], update := merge updates }

def docs : List BootstrapDoc := (q.take cfg plan cursor).filterMap fun row => q.docOf merge row.docId

/-- the last row taken, unless this page emptied the plan -/
def nextCursor : Option ℕ :=
  if (planned cfg plan cursor).length < cfg.maxPageDocs ∧
      (q.take cfg plan cursor).length = (planned cfg plan cursor).length then none
  else (q.take cfg plan cursor).getLast?.map PlanRow.seq

def loadBootstrapPage : Except PageError BootstrapPageResult :=
  if q.expired then .error .sessionExpired
  else if q.take cfg plan cursor = [] then
    .ok { body := header 0 (Bytes.le 2 0), nextCursor := none, docs := 0, bytes := 0 }
  else match encodeBootstrapPage (q.docs cfg merge plan cursor) with
    | .error e => .error (.codec e)
    | .ok body => .ok {
      body := body, nextCursor := q.nextCursor cfg plan cursor, docs := (q.docs cfg merge plan cursor).length
      bytes := ((q.docs cfg merge plan cursor).map encodedDocBytes).sum }

end PageRequest

/-! ## A download -/

/-- a page a client has got: its request, the rows it read and the documents it brought -/
structure Page where
  cursor : ℕ
  request : PageRequest
  reads : List PlanRow
  docs : List BootstrapDoc

structure Download where
  /-- none once the session is drained -/
  cursor : Option ℕ := some 0
  pages : List Page := []

section

variable (cfg : Config) (merge : List (List UInt8) → List UInt8) (plan : SessionPlan)

/-- a client asks for the next page, and asks again if that fails -/
def Download.step (s : Download) (q : PageRequest) : Download := match s.cursor with
  | none => s
  | some c => match q.loadBootstrapPage cfg merge plan c with
    | .error _ => s
    | .ok page => {
      cursor := page.nextCursor
      pages := s.pages ++ [{ cursor := c, request := q, reads := q.take cfg plan c, docs := q.docs cfg merge plan c }] }

def download (qs : List PageRequest) : Download := Machine.run (Download.step cfg merge plan) {} qs

end

/-! ## Packing -/

theorem packFrom_isInit (budget planBytes : ℕ) (rows : List PlanRow) : packFrom budget planBytes rows <+: rows := by
  induction rows generalizing planBytes with
  | nil => exact prefix_refl _
  | cons row rows ih =>
    rw [packFrom]
    split_ifs
    · exact nil_prefix
    · exact prefix_cons_inj row |>.mpr (ih _)

theorem pack_isInit (budget : ℕ) (rows : List PlanRow) : pack budget rows <+: rows := by
  cases rows with
  | nil => exact prefix_refl _
  | cons row rows => exact prefix_cons_inj row |>.mpr (packFrom_isInit _ _ rows)

theorem pack_eq_nil {budget : ℕ} {rows : List PlanRow} : pack budget rows = [] ↔ rows = [] := by
  cases rows with
  | nil | cons row rows => simp [pack]

/-! ## One page -/

/-- the rows after a cursor, when the numbers run from `k` on -/
theorem filter_seq {rows : List PlanRow} {k : ℕ} (h : rows.map PlanRow.seq = List.range' k rows.length) (c : ℕ) :
    rows.filter (c < ·.seq) = rows.drop (c + 1 - k) := by
  induction rows generalizing k with
  | nil => simp
  | cons row rows ih =>
    obtain ⟨hseq, htail⟩ := List.cons.inj h
    rw [filter_cons, hseq, ih htail]
    by_cases hc : c < k
    · have h0 : c + 1 - (k + 1) = 0 := by omega
      have h1 : c + 1 - k = 0 := by omega
      simp [hc, h0, h1]
    · have h1 : c + 1 - k = (c + 1 - (k + 1)) + 1 := by omega
      simp [hc, h1]

namespace SessionPlan

variable (plan : SessionPlan)

theorem seq_getElem {i : ℕ} (h : i < plan.rows.length) : plan.rows[i].seq = i + 1 := by
  have hlen : i < (plan.rows.map PlanRow.seq).length := by simpa using h
  have hmap : (plan.rows.map PlanRow.seq)[i] = i + 1 := by simp [plan.dense, Nat.add_comm]
  rwa [getElem_map] at hmap

end SessionPlan

section

variable {cfg : Config} {merge : List (List UInt8) → List UInt8} {q : PageRequest} {plan : SessionPlan} {c : ℕ}

theorem planned_eq : PageRequest.planned cfg plan c = (plan.rows.drop c).take cfg.maxPageDocs := by
  rw [PageRequest.planned, filter_seq plan.dense]
  rfl

/-- a page reads on from the cursor -/
theorem take_isInit : q.take cfg plan c <+: plan.rows.drop c := by
  refine (pack_isInit _ _).trans ?_
  rw [planned_eq]
  exact take_prefix _ _

theorem take_eq : q.take cfg plan c = (plan.rows.drop c).take (q.take cfg plan c).length :=
  prefix_iff_eq_take.mp take_isInit

/-- a page makes progress while rows remain -/
theorem take_eq_nil (hcount : 0 < cfg.maxPageDocs) : q.take cfg plan c = [] ↔ plan.rows.length ≤ c := by
  rw [PageRequest.take, pack_eq_nil, planned_eq, take_eq_nil_iff, drop_eq_nil_iff]
  omega

theorem seq_of_getLast (hne : q.take cfg plan c ≠ []) :
    (q.take cfg plan c).getLast?.map PlanRow.seq = some (c + (q.take cfg plan c).length) := by
  have hpos := length_pos_iff.mpr hne
  have hlen : c + (q.take cfg plan c).length ≤ plan.rows.length := by
    have h : (q.take cfg plan c).length ≤ (plan.rows.drop c).length := take_isInit.length_le
    rw [length_drop] at h
    omega
  generalize hn : (q.take cfg plan c).length = n at *
  have hlast : (q.take cfg plan c)[n - 1]? = plan.rows[c + (n - 1)]? := by
    rw [take_eq, hn, getElem?_take_of_lt (by omega), getElem?_drop]
  rw [getLast?_eq_getElem?, hn, hlast, getElem?_eq_getElem (by omega), Option.map_some, plan.seq_getElem]
  congr 1
  omega

/-- the next cursor is past the rows read, unless these were the last -/
theorem nextCursor_eq (hcount : 0 < cfg.maxPageDocs) (q : PageRequest) (plan : SessionPlan) (c : ℕ) :
    (q.nextCursor cfg plan c = none ∧ plan.rows.length ≤ c + (q.take cfg plan c).length) ∨
      (q.nextCursor cfg plan c = some (c + (q.take cfg plan c).length) ∧ q.take cfg plan c ≠ []) := by
  unfold PageRequest.nextCursor
  split_ifs with hdrained
  · refine .inl ⟨rfl, ?_⟩
    obtain ⟨hfew, hall⟩ := hdrained
    rw [hall]
    rw [planned_eq, length_take, length_drop] at hfew ⊢
    omega
  · have hne : q.take cfg plan c ≠ [] := by
      intro hnil
      refine hdrained ?_
      rw [hnil, planned_eq]
      simp [drop_eq_nil_of_le ((take_eq_nil hcount).mp hnil), hcount]
    exact .inr ⟨seq_of_getLast hne, hne⟩

end

/-! ## What a document is delivered as -/

/-- readable now, and something of it is stored -/
def PageRequest.Deliverable (q : PageRequest) (docId : JsString) : Prop :=
  q.readable docId = true ∧ ((q.snapshot docId).isSome = true ∨ q.updates docId ≠ [])

instance (q : PageRequest) (docId : JsString) : Decidable (q.Deliverable docId) := inferInstanceAs (Decidable (_ ∧ _))

section

variable {merge : List (List UInt8) → List UInt8} {q : PageRequest} {docId : JsString} {d : BootstrapDoc}

theorem docOf_docId (h : q.docOf merge docId = some d) : d.docId = docId := by
  unfold PageRequest.docOf at h
  split at h
  · cases h
  · cases h
    rfl
  · cases h
    rfl

theorem docOf_isSome : (q.docOf merge docId).isSome = true ↔ q.Deliverable docId := by
  have hparts : (q.docOf merge docId).isSome = true ↔ q.parts docId ≠ [] := by
    unfold PageRequest.docOf
    split
    · next h => simp [h]
    · next h => simp [h]
    · next hnil _ => simpa using hnil
  rw [hparts]
  unfold PageRequest.parts PageRequest.Deliverable
  split_ifs with hread
  · cases q.snapshot docId with
    | none | some update => simp [hread]
  · simp [hread]

/-- the fields of what is stored and readable fit a page's record -/
def PageRequest.FieldsFit (q : PageRequest) (docId : JsString) : Prop :=
  q.Deliverable docId → (Utf8.encode docId).length ≤ 255 ∧ (Utf8.encode ((q.relPath docId).getD [])).length ≤ 65535

instance (q : PageRequest) (docId : JsString) : Decidable (q.FieldsFit docId) := inferInstanceAs (Decidable (_ → _))

theorem docOf_relPath (h : q.docOf merge docId = some d) : d.relPath = (q.relPath docId).getD [] := by
  unfold PageRequest.docOf at h
  split at h
  · cases h
  · cases h
    rfl
  · cases h
    rfl

theorem checkFields_of_le {docs : List BootstrapDoc}
    (h : ∀ d ∈ docs, (Utf8.encode d.docId).length ≤ 255 ∧ (Utf8.encode d.relPath).length ≤ 65535) :
    checkFields docs = .ok () := by
  induction docs with
  | nil => rfl
  | cons d docs ih =>
    obtain ⟨hid, hpath⟩ := h d mem_cons_self
    rw [checkFields, if_neg (by omega), if_neg (by omega)]
    exact ih fun e he => h e (mem_cons_of_mem d he)

end

/-! ## Runs -/

/-- a request that can be answered: the session lives, and what it would ship fits the page format -/
def PageRequest.Answerable (plan : SessionPlan) (q : PageRequest) : Prop :=
  q.expired = false ∧ ∀ row ∈ plan.rows, q.FieldsFit row.docId

instance (plan : SessionPlan) (q : PageRequest) : Decidable (q.Answerable plan) := inferInstanceAs (Decidable (_ ∧ _))

section

variable {cfg : Config} {merge : List (List UInt8) → List UInt8} {plan : SessionPlan}

variable {s : Download}

/-- an answered request adds the page it read -/
theorem step_eq (hcount : 0 < cfg.maxPageDocs) {q : PageRequest} {c : ℕ} (hcursor : s.cursor = some c)
    (hq : q.Answerable plan) : Download.step cfg merge plan s q = {
      cursor := q.nextCursor cfg plan c
      pages := s.pages ++
        [{ cursor := c, request := q, reads := q.take cfg plan c, docs := q.docs cfg merge plan c }] } := by
  have hfields : checkFields (q.docs cfg merge plan c) = .ok () := by
    refine checkFields_of_le fun d hd => ?_
    obtain ⟨row, hrow, hdoc⟩ := mem_filterMap.mp hd
    have hmem : row ∈ plan.rows := mem_of_mem_drop (take_isInit.subset hrow)
    rw [docOf_docId hdoc, docOf_relPath hdoc]
    exact hq.2 row hmem (docOf_isSome.mp (by rw [hdoc]; rfl))
  unfold Download.step PageRequest.loadBootstrapPage
  rw [hcursor, hq.1]
  simp only [Bool.false_eq_true, if_false]
  by_cases hnil : q.take cfg plan c = []
  · rw [if_pos hnil]
    have hnone : q.nextCursor cfg plan c = none := (nextCursor_eq hcount _ _ _).elim And.left fun h => absurd hnil h.2
    rw [hnone]
  · rw [if_neg hnil, encodeBootstrapPage, hfields]
    rfl

/-- what a run has read so far, with the state of the server it was read from -/
def Download.readings (s : Download) : List (PageRequest × PlanRow) :=
  s.pages.flatMap fun p => p.reads.map (p.request, ·)

/-- `n`: the requests so far -/
structure Download.Inv (merge : List (List UInt8) → List UInt8) (plan : SessionPlan) (s : Download) (n : ℕ) : Prop where
  open_ : ∀ c, s.cursor = some c → s.pages.flatMap Page.reads = plan.rows.take c ∧ n ≤ c ∧ c ≤ plan.rows.length ∧
    ∀ p ∈ s.pages, p.cursor < c
  drained : s.cursor = none → s.pages.flatMap Page.reads = plan.rows
  increasing : s.pages.Pairwise fun p p' => p.cursor < p'.cursor
  progress : ∀ p ∈ s.pages, (∃ row ∈ plan.rows, p.cursor < row.seq) → p.reads ≠ []
  docs : ∀ p ∈ s.pages, p.docs = p.reads.filterMap fun row => p.request.docOf merge row.docId

theorem Download.Inv.step (hcount : 0 < cfg.maxPageDocs) {n : ℕ} (h : s.Inv merge plan n) {q : PageRequest}
    (hq : q.Answerable plan) : (Download.step cfg merge plan s q).Inv merge plan (n + 1) := by
  cases hcursor : s.cursor with
  | none =>
    have hsame : Download.step cfg merge plan s q = s := by unfold Download.step; rw [hcursor]
    rw [hsame]
    exact { h with open_ := fun c hc => absurd (hcursor.symm.trans hc) (by simp) }
  | some c =>
    rw [step_eq hcount hcursor hq]
    obtain ⟨hreads, hn, hle, hbefore⟩ := h.open_ c hcursor
    generalize hnew : q.take cfg plan c = new
    have hinit : new <+: plan.rows.drop c := by rw [← hnew]; exact take_isInit
    have hlen : c + new.length ≤ plan.rows.length := by
      have hsub := hinit.length_le
      rw [length_drop] at hsub
      omega
    have hall : plan.rows.take c ++ new = plan.rows.take (c + new.length) := by
      rw [take_add, ← prefix_iff_eq_take.mp hinit]
    have hflat : (s.pages ++ [(⟨c, q, new, q.docs cfg merge plan c⟩ : Page)]).flatMap Page.reads =
        plan.rows.take (c + new.length) := by
      rw [flatMap_append, hreads, ← hall, flatMap_singleton]
    refine ⟨?_, ?_, ?_, ?_, ?_⟩
    · intro c' hc'
      rcases nextCursor_eq hcount q plan c with ⟨hnone, -⟩ | ⟨hsome, hne⟩
      · exact absurd (hnone.symm.trans hc') (by simp)
      · obtain rfl : c + new.length = c' := by rw [← hnew]; exact Option.some.inj (hsome.symm.trans hc')
        have hpos : 0 < new.length := by rw [← hnew]; exact length_pos_iff.mpr hne
        refine ⟨hflat, by omega, hlen, ?_⟩
        intro p hp
        rcases mem_snoc.1 hp with hold | hlast
        · have := hbefore p hold
          omega
        · rw [hlast]
          dsimp only
          omega
    · intro hnone
      rcases nextCursor_eq hcount q plan c with ⟨-, hdone⟩ | ⟨hsome, -⟩
      · rw [hnew] at hdone
        rw [hflat, take_of_length_le hdone]
      · exact absurd (hsome.symm.trans hnone) (by simp)
    · refine pairwise_append.mpr ⟨h.increasing, pairwise_singleton _ _, ?_⟩
      intro p hp p' hp'
      rw [mem_singleton.mp hp']
      exact hbefore p hp
    · intro p hp
      rcases mem_snoc.1 hp with hold | hlast
      · exact h.progress p hold
      · rw [hlast]
        rintro ⟨row, hrow, hseq⟩ hnil
        have hdone : plan.rows.length ≤ c := (take_eq_nil hcount).mp (hnew.trans hnil)
        obtain ⟨i, hi, rfl⟩ := getElem_of_mem hrow
        rw [plan.seq_getElem hi] at hseq
        dsimp only at hseq
        omega
    · intro p hp
      rcases mem_snoc.1 hp with hold | hlast
      · exact h.docs p hold
      · rw [hlast, ← hnew]
        rfl

theorem download_inv (hcount : 0 < cfg.maxPageDocs) {qs : List PageRequest} (hqs : ∀ q ∈ qs, q.Answerable plan) :
    (download cfg merge plan qs).Inv merge plan qs.length := by
  have hinit : Download.Inv merge plan {} 0 := by
    refine ⟨?_, fun h => by simp at h, List.Pairwise.nil, fun p hp => by simp at hp,
      fun p hp => by simp at hp⟩
    intro c hc
    cases hc
    exact ⟨rfl, le_rfl, Nat.zero_le _, fun p hp => by simp at hp⟩
  have hguard : ∀ (s : Download) (qs : List PageRequest), (∀ q ∈ qs, q.Answerable plan) →
      Machine.Guarded (Download.step cfg merge plan) (fun _ q => q.Answerable plan) s qs := by
    intro s qs
    induction qs generalizing s with
    | nil => exact fun _ => trivial
    | cons q qs ih => exact fun h => ⟨h q mem_cons_self, ih _ fun x hx => h x (mem_cons_of_mem q hx)⟩
  have hrun := Machine.run_inv_acc (fun n (_ : PageRequest) => n + 1)
    (fun (s : Download) n q (h : s.Inv merge plan n) hq => h.step hcount hq) hinit (hguard {} qs hqs)
  have hlen : ∀ (k : ℕ) (qs : List PageRequest), qs.foldl (fun n _ => n + 1) k = k + qs.length := by
    intro k qs
    induction qs generalizing k with
    | nil => rfl
    | cons q qs ih => rw [foldl_cons, ih, length_cons]; omega
  rw [hlen, Nat.zero_add] at hrun
  exact hrun

/-! ## Exactly once -/

/-- among rows of different documents, a document is delivered as often as its own row delivers it -/
theorem count_filterMap {α β κ : Type*} [BEq κ] [LawfulBEq κ] (f : α → Option β) (key : α → κ) (name : β → κ)
    (hname : ∀ a b, f a = some b → name b = key a) {l : List α} (hnodup : (l.map key).Nodup) {a : α} (ha : a ∈ l) :
    ((l.filterMap f).map name).count (key a) = if (f a).isSome then 1 else 0 := by
  have hzero : ∀ {l' : List α}, key a ∉ l'.map key → ((l'.filterMap f).map name).count (key a) = 0 := by
    intro l' hnot
    refine count_eq_zero.mpr fun hmem => hnot ?_
    obtain ⟨b, hb, hkey⟩ := mem_map.mp hmem
    obtain ⟨x, hx, hfx⟩ := mem_filterMap.mp hb
    exact mem_map.mpr ⟨x, hx, (hname x b hfx).symm.trans hkey⟩
  induction l with
  | nil => cases ha
  | cons x l ih =>
    obtain ⟨hx, hl⟩ := nodup_cons.mp hnodup
    rw [filterMap_cons]
    rcases mem_cons.mp ha with rfl | hmem
    · cases hf : f a with
      | none => simpa using hzero hx
      | some b => simp [hname a b hf, hzero hx]
    · have hne : key x ≠ key a := fun heq => hx (heq ▸ mem_map_of_mem hmem)
      cases hf : f x with
      | none => exact ih hl hmem
      | some b =>
        rw [map_cons, count_cons_of_ne (by rw [hname x b hf]; exact hne)]
        exact ih hl hmem

/-- every row read has been delivered as often as it could be then: once or not at all -/
theorem count_delivered {n : ℕ} (h : s.Inv merge plan n) {p : Page} (hp : p ∈ s.pages) {row : PlanRow}
    (hrow : row ∈ p.reads) :
    ((s.pages.flatMap Page.docs).map BootstrapDoc.docId).count row.docId =
      if p.request.Deliverable row.docId then 1 else 0 := by
  have hdocs : s.pages.flatMap Page.docs = s.readings.filterMap fun r => r.1.docOf merge r.2.docId := by
    rw [Download.readings, filterMap_flatMap]
    refine flatMap_congr fun p hp => ?_
    rw [h.docs p hp, filterMap_map]
    rfl
  have hrows : s.readings.map Prod.snd = s.pages.flatMap Page.reads := by
    rw [Download.readings, map_flatMap]
    refine flatMap_congr fun p _ => ?_
    simp
  have hinit : s.pages.flatMap Page.reads <+: plan.rows := by
    cases hcursor : s.cursor with
    | none => rw [h.drained hcursor]
    | some c => rw [(h.open_ c hcursor).1]; exact take_prefix _ _
  have hnodup : (s.readings.map fun r => r.2.docId).Nodup := by
    have hcomp : s.readings.map (fun r => r.2.docId) = (s.readings.map Prod.snd).map PlanRow.docId := by
      rw [map_map]
      rfl
    rw [hcomp, hrows]
    exact plan.nodup.sublist (hinit.sublist.map _)
  have hmem : (p.request, row) ∈ s.readings := mem_flatMap.mpr ⟨p, hp, mem_map_of_mem hrow⟩
  rw [hdocs]
  refine (count_filterMap (fun r : PageRequest × PlanRow => r.1.docOf merge r.2.docId) (fun r => r.2.docId)
    BootstrapDoc.docId (fun r d hd => docOf_docId hd) hnodup hmem).trans ?_
  exact if_congr docOf_isSome rfl rfl

/-- **Exactly once.** A client that follows the cursors gets pages whose cursors grow and which make progress while rows
remain; after one request more than there are rows the session is drained; then every row has been read; and a row read
was delivered once if it was readable and stored when its page was read, and never otherwise. -/
theorem delivered_exactly_once (cfg : Config) (merge : List (List UInt8) → List UInt8) (plan : SessionPlan)
    (hcount : 0 < cfg.maxPageDocs) (qs : List PageRequest) (hqs : ∀ q ∈ qs, q.Answerable plan) :
    (download cfg merge plan qs).pages.Pairwise (fun p p' => p.cursor < p'.cursor) ∧
    (∀ p ∈ (download cfg merge plan qs).pages, (∃ row ∈ plan.rows, p.cursor < row.seq) → p.reads ≠ []) ∧
    (plan.rows.length < qs.length → (download cfg merge plan qs).cursor = none) ∧
    ((download cfg merge plan qs).cursor = none →
      (download cfg merge plan qs).pages.flatMap Page.reads = plan.rows) ∧
    ∀ p ∈ (download cfg merge plan qs).pages, ∀ row ∈ p.reads,
      (((download cfg merge plan qs).pages.flatMap Page.docs).map BootstrapDoc.docId).count row.docId =
        if p.request.Deliverable row.docId then 1 else 0 := by
  have hinv : (download cfg merge plan qs).Inv merge plan qs.length := download_inv hcount hqs
  refine ⟨hinv.increasing, hinv.progress, ?_, hinv.drained, fun p hp row hrow => count_delivered hinv hp hrow⟩
  intro hlong
  cases hcursor : (download cfg merge plan qs).cursor with
  | none => rfl
  | some c =>
    obtain ⟨-, hn, hle, -⟩ := hinv.open_ c hcursor
    omega

/-- **A drained session.** Each candidate note has been read by one page or is listed as empty, each once, and no other
note is. -/
theorem session_drained (hcount : 0 < cfg.maxPageDocs) {notes : List NoteRow} {hnotes : (notes.map NoteRow.id).Nodup}
    {readable held : List JsString} {only : Option (List JsString)} {session : BootstrapSession}
    (hsession : session = createBootstrapSession notes hnotes readable held only) {qs : List PageRequest}
    (hqs : ∀ q ∈ qs, q.Answerable session.plan) (hdrained : (download cfg merge session.plan qs).cursor = none)
    (hwhole : session.emptyTruncated = false) :
    (((download cfg merge session.plan qs).pages.flatMap Page.reads).map PlanRow.docId ++ session.emptyDocs).Perm
      ((notes.filter (·.id ∈ candidates readable held only)).map NoteRow.id) := by
  rw [(download_inv hcount hqs).drained hdrained]
  subst hsession
  have hfew := of_decide_eq_false hwhole
  dsimp only [createBootstrapSession]
  rw [numbered_docIds, take_of_length_le (by rw [length_map]; omega), ← map_append]
  refine Perm.map _ ?_
  have hzero : (fun n : NoteRow => decide (n.bytes = 0)) = fun n => !decide (0 < n.bytes) := by
    funext n
    simp [Nat.pos_iff_ne_zero]
  rw [hzero]
  exact (filter_append_perm _ _).trans (mergeSort_perm _ _)

end

/-! ## Concrete downloads -/

/-- a plan of one document -/
def planOf (docId : JsString) : SessionPlan where
  rows := [{ seq := 1, docId := docId, bytes := 5 }]
  dense := rfl
  nodup := List.nodup_singleton _

/-- everything is readable, and holds one update -/
def heldRequest : PageRequest where
  maxBytes := none
  readable := fun _ => true
  snapshot := fun _ => none
  updates := fun _ => [[7]]
  relPath := fun _ => some [98]

theorem two_requests_drain :
    (download ⟨4096, 256⟩ List.flatten (planOf [97]) [heldRequest, heldRequest]).cursor = none :=
  (delivered_exactly_once ⟨4096, 256⟩ List.flatten (planOf [97]) (by decide) [heldRequest, heldRequest]
    (by decide +kernel)).2.2.1 (by decide)

theorem one_note_drained :
    let session := createBootstrapSession [⟨[97], [98], 5⟩] (by decide) [[97]] [] none
    (((download ⟨4096, 256⟩ List.flatten session.plan [heldRequest]).pages.flatMap Page.reads).map PlanRow.docId ++
      session.emptyDocs).Perm [[97]] := by
  intro session
  exact session_drained (by decide) rfl (by decide +kernel) (by decide +kernel) (by decide +kernel)

/-- **Not delivered.** With a count budget of nothing a session is drained at once; and a document whose id does not fit
a page's record is asked for again and again. -/
theorem planned_doc_not_delivered :
    (download ⟨4096, 0⟩ List.flatten (planOf [97]) [heldRequest]).cursor = none ∧
      (download ⟨4096, 0⟩ List.flatten (planOf [97]) [heldRequest]).pages.flatMap Page.docs = [] ∧
    (download ⟨4096, 256⟩ List.flatten (planOf (List.replicate 256 97)) [heldRequest, heldRequest]).cursor =
      some 0 := by
  refine ⟨by decide +kernel, by decide +kernel, by decide +kernel⟩

end Baalda.Bootstrap
