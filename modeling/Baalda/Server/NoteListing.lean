/-
The paged note listing of the MCP server (`mcp/service.ts`: `listNotes`, its cursor and `requireVaultInScope`).

A call reads the notes of a vault in the order of `(rel_path, id)` and keeps those the caller may read. With a limit or
a cursor it hands back one page: rows are read in chunks of one more than the page still needs, hidden ones are passed
over, and the cursor is the place of the last note of the page, given only when one more readable note was seen. Texts
are UTF-16 code units (`Text`); a text of the database has no lone surrogate (`DbText`), and one that is sent to it is
repaired. The order of texts is a deterministic collation of the database, given by its sort keys.

`scan_answers`, `fetchLoop_answers`: what one chunk and what the loop does with the readable notes past a place.
Main result, `pages_concatenate`: the pages of a caller who passes on each cursor are the unpaged listing, cut.
-/
import Baalda.Access.Cache
import Baalda.Lib.Base64
import Baalda.Lib.JsonStrings
import Baalda.Lib.Keyset
import Baalda.Lib.Utf16

namespace Baalda.NoteListing

open Access Utf16 Keyset Option

/-! ## Texts of the database -/

structure DbText where
  units : Text
  wellFormed : Utf8.WellFormed units
deriving DecidableEq

/-- a text as the database receives it -/
def DbText.ofText (t : Text) : DbText := ⟨Utf8.repair t, Utf8.wellFormed_repair t⟩

theorem DbText.ofText_units (t : DbText) : DbText.ofText t.units = t := by
  obtain ⟨units, h⟩ := t
  simp only [ofText, Utf8.repair_eq h]

/-- `left(t, length(p)) = p`, both counted in characters -/
def DbText.startsWith (t p : DbText) : Bool :=
  (Utf8.scalars t.units).take (Utf8.scalars p.units).length = Utf8.scalars p.units

/-- texts compare as their sort keys do, and two texts with one key are one text -/
structure Collation (K : Type) [LinearOrder K] where
  key : DbText → K
  injective : Function.Injective key

/-! ## The tables -/

/-- the tables access control reads, and the other columns of vaults and notes by the row's id -/
structure Store where
  db : Db
  wellFormed : WellFormed db
  /-- an id as the text it is -/
  text : Id → DbText
  text_injective : Function.Injective text
  vaultName : Id → DbText
  vaultCreatedAt : Id → ℕ
  title : Id → Option DbText
  relPath : Id → DbText
  updatedAt : Id → ℕ

structure McpAuth where
  userId : Id
  organizationId : Id

structure McpToolError where
  message : Text
  code : String
deriving DecidableEq

/-! ## The vault -/

def outOfScope (kind : String) (id : Text) : Text :=
  ascii "Unknown " ++ ascii kind ++ ascii ", or it is outside the scope of this token: " ++ id

def notFound (kind : String) (id hint : Text) : McpToolError := ⟨outOfScope kind id ++ hint, "not_found"⟩

/-- by id, by the id of an organization with one vault, by a name that only one has; `lower` is `toLowerCase` -/
def requireVaultInScope (s : Store) (lower : Text → Text) (auth : McpAuth) (vaultId : Text) : Except McpToolError Id :=
  let rows := sortBy (fun v => s.vaultCreatedAt v.id)
    (s.db.vaults.filter fun v => v.organizationId = auth.organizationId)
  let byId := rows.find? fun v => (s.text v.id).units = vaultId
  let only := if vaultId = (s.text auth.organizationId).units ∧ rows.length = 1 then rows.head? else none
  let named := rows.filter fun v => lower (trim (s.vaultName v.id).units) = lower (trim vaultId)
  let byName := if named.length = 1 then named.head? else none
  match (byId.or only).or byName with
  | some v => .ok v.id
  | none =>
    let valid := (ascii ", ").intercalate (rows.map fun v =>
      (s.text v.id).units ++ ascii " (" ++ (s.vaultName v.id).units ++ ascii ")")
    .error (notFound "vault" vaultId (if valid = [] then [] else ascii ". Use a vaultId from list_vaults: " ++ valid))

/-! ## The cursor -/

def encodeNotesCursor (relPath id : Text) : Text :=
  Base64.encodeUrl (Utf8.encode (JsonStrings.writePair (relPath, id)))

def invalidCursor : McpToolError :=
  ⟨ascii "Invalid cursor: pass the nextCursor from a previous list_notes call", "invalid_argument"⟩

def decodeNotesCursor (cursor : Text) : Except McpToolError (Text × Text) :=
  match JsonStrings.readPair (Utf8.toText (Base64.decodeUrl cursor)) with
  | some place => .ok place
  | none => .error invalidCursor

theorem decode_encode (relPath id : Text) : decodeNotesCursor (encodeNotesCursor relPath id) = .ok (relPath, id) := by
  rw [decodeNotesCursor, encodeNotesCursor, Base64.decodeUrl_encodeUrl,
    Utf8.toText_encode (JsonStrings.wellFormed_writePair _), JsonStrings.readPair_writePair]

/-! ## The listing -/

def LIST_NOTES_DEFAULT_PAGE : ℕ := 500

def LIST_NOTES_MAX_PAGE : ℕ := 5000

structure ListedNote where
  docId : Text
  folderId : Option Text
  title : Text
  relPath : Text
  permission : Permission
  updatedAt : ℕ
deriving DecidableEq

/-- a number: an integer, or anything else -/
inductive Limit where
  | integer (n : ℤ)
  | other

structure ListOptions where
  limit : Option Limit := none
  cursor : Option Text := none
  pathPrefix : Option Text := none

structure Page where
  results : List ListedNote
  nextCursor : Option Text
deriving DecidableEq

inductive Listing where
  | all (notes : List ListedNote)
  | page (p : Page)
deriving DecidableEq

/-- the name of the file, without its extension -/
def relPathStem (relPath : Text) : Text :=
  let base := relPath.rtakeWhile (· ≠ 47)
  let ext := base.rtakeWhile (· ≠ 46)
  if ext ≠ [] ∧ ext.length < base.length then base.take (base.length - ext.length - 1) else base

def invalidLimit : McpToolError := ⟨ascii "limit must be a positive integer", "invalid_argument"⟩

/-- none when the call is not paged -/
def pageSizeOf (opts : ListOptions) : Except McpToolError (Option ℕ) :=
  if opts.limit.isSome ∨ opts.cursor.isSome then
    match opts.limit.getD (.integer LIST_NOTES_DEFAULT_PAGE) with
    | .integer n => if n < 1 then .error invalidLimit else .ok (some (min n.toNat LIST_NOTES_MAX_PAGE))
    | .other => .error invalidLimit
  else .ok none

/-- the last two are the caller's, as sent: no filter when absent, nor for an empty prefix -/
def Store.selects (s : Store) (vault : Id) (folderId pathPrefix : Option Text) (r : DocRow) : Bool :=
  r.vaultId = vault && !r.deleted && folderId.all (fun f => r.folderId.any fun g => s.text g = .ofText f) &&
    pathPrefix.all fun p => p = [] || (s.relPath r.id).startsWith (.ofText p)

section

variable {K : Type} [LinearOrder K]

/-- where `(rel_path, id)` stands in the order -/
def Collation.place (c : Collation K) (p : DbText × DbText) : K ×ₗ K := toLex (c.key p.1, c.key p.2)

def Store.rowPlace (s : Store) (c : Collation K) (r : DocRow) : K ×ₗ K := c.place (s.relPath r.id, s.text r.id)

/-- a place as it was sent -/
def Collation.sent (c : Collation K) (p : Text × Text) : K ×ₗ K := c.place (.ofText p.1, .ofText p.2)

def Store.select (s : Store) (c : Collation K) (vault : Id) (folderId pathPrefix : Option Text)
    (after : Option (Text × Text)) (limit : Option ℕ) : List DocRow :=
  let rows := sortBy (s.rowPlace c) (s.db.notes.filter fun r =>
    s.selects vault folderId pathPrefix r && after.all fun p => decide (c.sent p < s.rowPlace c r))
  match limit with
  | none => rows
  | some n => rows.take n

def Store.listed (s : Store) (r : DocRow) (permission : Permission) : ListedNote where
  docId := (s.text r.id).units
  folderId := r.folderId.map fun f => (s.text f).units
  title := match s.title r.id with
    | some t => t.units
    | none => relPathStem (s.relPath r.id).units
  relPath := (s.relPath r.id).units
  permission
  updatedAt := s.updatedAt r.id

/-- the rows of one chunk: the page when it is full and a readable note follows, else the notes so far -/
def scan (s : Store) (userId : Id) (pageSize : Option ℕ) :
    List ListedNote → List DocRow → StateM ResolverCache (Page ⊕ List ListedNote)
  | out, [] => pure (.inr out)
  | out, r :: rows => do
    let permission ← effectivePermissionCached s.db userId r.id
    if permission = .none then scan s userId pageSize out rows
    else if pageSize = some out.length then
      pure (.inl ⟨out, out.getLast?.map fun last => encodeNotesCursor last.relPath last.docId⟩)
    else scan s userId pageSize (out ++ [s.listed r permission]) rows

/-- chunk after chunk, at most as many as the fuel -/
def fetchLoop (s : Store) (c : Collation K) (userId vault : Id) (folderId pathPrefix : Option Text)
    (pageSize : Option ℕ) : ℕ → List ListedNote → Option (Text × Text) → StateM ResolverCache (Option Listing)
  | 0, _, _ => pure none
  | fuel + 1, out, after => do
    -- one past what the page still needs
    let want := pageSize.map fun n => n - out.length + 1
    let rows := s.select c vault folderId pathPrefix after want
    ResolverCache.prefetch s.db (rows.map (·.id))
    let scanned ← scan s userId pageSize out rows
    match scanned, want with
    | .inl page, _ => pure (some (.page page))
    | .inr out, none => pure (some (.all out))
    | .inr out, some want =>
      if rows.length < want then pure (some (.page ⟨out, none⟩))
      else
        fetchLoop s c userId vault folderId pathPrefix pageSize fuel out
          (rows.getLast?.map fun tail => ((s.relPath tail.id).units, (s.text tail.id).units))

/-- `none` is a loop that has not ended -/
def listNotes (s : Store) (c : Collation K) (lower : Text → Text) (auth : McpAuth) (vaultId : Text)
    (folderId : Option Text) (opts : ListOptions) : Except McpToolError (Option Listing) :=
  match requireVaultInScope s lower auth vaultId with
  | .error e => .error e
  | .ok vault => match pageSizeOf opts with
    | .error e => .error e
    | .ok pageSize => match opts.cursor.map decodeNotesCursor with
      | some (.error e) => .error e
      | some (.ok place) =>
        .ok ((fetchLoop s c auth.userId vault folderId opts.pathPrefix pageSize (s.db.notes.length + 1) []
          (some place)).run createResolverCache).1
      | none =>
        .ok ((fetchLoop s c auth.userId vault folderId opts.pathPrefix pageSize (s.db.notes.length + 1) []
          none).run createResolverCache).1

/-! ## The rows past a place -/

variable {s : Store} {c : Collation K} {userId vault : Id} {folderId pathPrefix : Option Text}

def ListedNote.place (c : Collation K) (n : ListedNote) : K ×ₗ K := c.sent (n.relPath, n.docId)

theorem sent_units (p : DbText × DbText) : c.sent (p.1.units, p.2.units) = c.place p := by
  rw [Collation.sent, DbText.ofText_units, DbText.ofText_units]

theorem place_listed (r : DocRow) (permission : Permission) : (s.listed r permission).place c = s.rowPlace c r :=
  sent_units (s.relPath r.id, s.text r.id)

/-- the rows the filters keep, in order -/
def Store.inOrder (s : Store) (c : Collation K) (vault : Id) (folderId pathPrefix : Option Text) : List DocRow :=
  sortBy (s.rowPlace c) (s.db.notes.filter (s.selects vault folderId pathPrefix))

theorem rowPlace_nodup {rows : List DocRow} (h : rows.Sublist s.db.notes) : (rows.map (s.rowPlace c)).Nodup := by
  have hids : (s.db.notes.map (·.id)).Nodup := by
    have hkey := s.wellFormed.docKey
    rw [List.map_append] at hkey
    exact (List.nodup_append.1 hkey).1
  have hne : rows.Pairwise fun r r' => r.id ≠ r'.id := (List.pairwise_map.1 hids).sublist h
  refine List.pairwise_map.2 (hne.imp fun hid heq => hid ?_)
  have hkeys := congrArg (fun p => (ofLex p).2) heq
  exact s.text_injective (c.injective hkeys)

theorem ascending_inOrder : Ascending (s.rowPlace c) (s.inOrder c vault folderId pathPrefix) :=
  sortBy_strict (rowPlace_nodup List.filter_sublist)

theorem select_eq (s : Store) (c : Collation K) (vault : Id) (folderId pathPrefix : Option Text)
    (place : Option (Text × Text)) (limit : Option ℕ) :
    s.select c vault folderId pathPrefix place limit =
      match limit with
      | none => after (s.rowPlace c) (place.map c.sent) (s.inOrder c vault folderId pathPrefix)
      | some n => (after (s.rowPlace c) (place.map c.sent) (s.inOrder c vault folderId pathPrefix)).take n := by
  have hrows : sortBy (s.rowPlace c) (s.db.notes.filter fun r =>
      s.selects vault folderId pathPrefix r && place.all fun p => decide (c.sent p < s.rowPlace c r)) =
      after (s.rowPlace c) (place.map c.sent) (s.inOrder c vault folderId pathPrefix) := by
    rw [Store.inOrder, after, ← sortBy_filter (rowPlace_nodup List.filter_sublist), List.filter_filter]
    congr 1
    refine List.filter_congr fun r _ => ?_
    rw [Bool.and_comm]
    cases place <;> rfl
  unfold Store.select
  simp only [hrows]

/-! ## What the user may read -/

/-- the note as it is listed, if the user may read it -/
def Store.visible (s : Store) (userId : Id) (r : DocRow) : Option ListedNote :=
  if effectivePermission s.db userId r.id = .none then none
  else some (s.listed r (effectivePermission s.db userId r.id))

def Store.readable (s : Store) (c : Collation K) (userId vault : Id) (folderId pathPrefix : Option Text) :
    List ListedNote := (s.inOrder c vault folderId pathPrefix).filterMap (s.visible userId)

theorem visible_eq_some {r : DocRow} {note : ListedNote} : s.visible userId r = some note ↔
    effectivePermission s.db userId r.id ≠ .none ∧ s.listed r (effectivePermission s.db userId r.id) = note := by
  unfold Store.visible
  split
  · next h => simp [h]
  · next h => simp [h]

theorem mem_readable {note : ListedNote} : note ∈ s.readable c userId vault folderId pathPrefix ↔
    ∃ r ∈ s.db.notes, s.selects vault folderId pathPrefix r = true ∧ effectivePermission s.db userId r.id ≠ .none ∧
      s.listed r (effectivePermission s.db userId r.id) = note := by
  simp only [Store.readable, List.mem_filterMap, Store.inOrder, (perm_sortBy _).mem_iff, List.mem_filter,
    visible_eq_some, and_assoc]

theorem ascending_readable : Ascending (·.place c) (s.readable c userId vault folderId pathPrefix) := by
  refine List.pairwise_filterMap.2 (ascending_inOrder.imp fun hlt note hnote note' hnote' => ?_)
  obtain ⟨-, rfl⟩ := visible_eq_some.1 hnote
  obtain ⟨-, rfl⟩ := visible_eq_some.1 hnote'
  simp only [place_listed]
  exact hlt

/-- reading on among the rows is reading on among the notes -/
theorem visible_after (k : Option (K ×ₗ K)) (rows : List DocRow) :
    (after (s.rowPlace c) k rows).filterMap (s.visible userId) =
      after (·.place c) k (rows.filterMap (s.visible userId)) := by
  unfold after
  rw [List.filterMap_filter, List.filter_filterMap]
  refine List.filterMap_congr fun r _ => ?_
  cases hr : s.visible userId r with
  | none => simp
  | some note =>
    obtain ⟨-, rfl⟩ := visible_eq_some.1 hr
    simp only [filter_some, place_listed]

/-! ## One call -/

/-- the first `n` notes, with a cursor when there are more -/
def pageOf (n : ℕ) (notes : List ListedNote) : Page :=
  if n < notes.length then
    ⟨notes.take n, (notes.take n).getLast?.map fun last => encodeNotesCursor last.relPath last.docId⟩
  else ⟨notes, none⟩

variable {n : ℕ}

theorem pageOf_append {notes : List ListedNote} (h : n < notes.length) (more : List ListedNote) :
    pageOf n (notes ++ more) = pageOf n notes := by
  have hmore : n < (notes ++ more).length := by
    rw [List.length_append]
    omega
  rw [pageOf, pageOf, if_pos h, if_pos hmore, List.take_append_of_le_length (le_of_lt h)]

/-- what a chunk makes of the notes seen so far -/
def cut (pageSize : Option ℕ) (notes : List ListedNote) : Page ⊕ List ListedNote := match pageSize with
  | none => .inr notes
  | some n => if n < notes.length then .inl (pageOf n notes) else .inr notes

def listing (pageSize : Option ℕ) (notes : List ListedNote) : Listing := match pageSize with
  | none => .all notes
  | some n => .page (pageOf n notes)

theorem scan_answers (pageSize : Option ℕ) (rows : List DocRow) :
    ∀ out : List ListedNote, (∀ n ∈ pageSize, out.length ≤ n) →
      Answers (CacheOk s.db) (scan s userId pageSize out rows)
        (cut pageSize (out ++ rows.filterMap (s.visible userId))) := by
  induction rows with
  | nil =>
    intro out hout
    have hcut : cut pageSize (out ++ [].filterMap (s.visible userId)) = .inr out := by
      rw [List.filterMap_nil, List.append_nil]
      cases pageSize with
      | none => rfl
      | some n => exact if_neg (Nat.not_lt.2 (hout n rfl))
    rw [hcut]
    exact Answers.pure _
  | cons r rows ih =>
    intro out hout
    refine Answers.bind (effectivePermission_answers s.wellFormed userId r.id) ?_
    by_cases hnone : effectivePermission s.db userId r.id = .none
    · have hhidden : s.visible userId r = none := if_pos hnone
      rw [if_pos hnone, List.filterMap_cons_none hhidden]
      exact ih out hout
    · have hshown : s.visible userId r = some (s.listed r (effectivePermission s.db userId r.id)) := if_neg hnone
      rw [if_neg hnone, List.filterMap_cons_some hshown]
      by_cases hfull : pageSize = some out.length
      · -- a readable note exists past the full page
        have hmore : out.length < (out ++ s.listed r (effectivePermission s.db userId r.id) ::
            rows.filterMap (s.visible userId)).length := by simp
        rw [if_pos hfull, hfull, cut, if_pos hmore, pageOf, if_pos hmore, List.take_left]
        exact Answers.pure _
      · rw [if_neg hfull]
        have hroom : ∀ n ∈ pageSize, (out ++ [s.listed r (effectivePermission s.db userId r.id)]).length ≤ n := by
          intro n hn
          have hle := hout n hn
          have hne : n ≠ out.length := fun heq => hfull (by rw [← heq]; exact hn)
          rw [List.length_append, List.length_singleton]
          omega
        have hrest := ih _ hroom
        rw [List.append_assoc, List.singleton_append] at hrest
        exact hrest

/-- **The loop.** From the notes so far it hands back the page that they and the readable notes past the place make. -/
theorem fetchLoop_answers (s : Store) (c : Collation K) (userId : Id) (pageSize : Option ℕ) (fuel : ℕ) :
    ∀ (out : List ListedNote) (place : Option (Text × Text)), (∀ n ∈ pageSize, out.length ≤ n) →
    (after (s.rowPlace c) (place.map c.sent) (s.inOrder c vault folderId pathPrefix)).length < fuel →
      Answers (CacheOk s.db) (fetchLoop s c userId vault folderId pathPrefix pageSize fuel out place)
        (some (listing pageSize (out ++ (after (s.rowPlace c) (place.map c.sent)
          (s.inOrder c vault folderId pathPrefix)).filterMap (s.visible userId)))) := by
  induction fuel with
  | zero =>
    intro out place _ hfuel
    exact absurd hfuel (Nat.not_lt_zero _)
  | succ fuel ih =>
    intro out place hout hfuel
    have hselect := select_eq s c vault folderId pathPrefix place (pageSize.map fun n => n - out.length + 1)
    generalize hrest : after (s.rowPlace c) (place.map c.sent) (s.inOrder c vault folderId pathPrefix) = rest at *
    refine Answers.bind (prefetch_answers s.wellFormed _) ?_
    refine Answers.bind (scan_answers pageSize _ out hout) ?_
    rw [hselect]
    cases pageSize with
    | none => exact Answers.pure _
    | some n =>
      dsimp only [map_some]
      have hvisible : rest.filterMap (s.visible userId) =
          (rest.take (n - out.length + 1)).filterMap (s.visible userId) ++
            (rest.drop (n - out.length + 1)).filterMap (s.visible userId) := by
        rw [← List.filterMap_append, List.take_append_drop]
      rw [hvisible, ← List.append_assoc]
      generalize hseen : out ++ (rest.take (n - out.length + 1)).filterMap (s.visible userId) = seen
      by_cases hfull : n < seen.length
      · rw [cut, if_pos hfull, listing, pageOf_append hfull]
        exact Answers.pure _
      · rw [cut, if_neg hfull]
        dsimp only
        by_cases hshort : (rest.take (n - out.length + 1)).length < n - out.length + 1
        · -- the chunk is the last one
          have hend : rest.drop (n - out.length + 1) = [] := by
            rw [List.length_take] at hshort
            exact List.drop_eq_nil_of_le (by omega)
          rw [if_pos hshort, hend, List.filterMap_nil, List.append_nil, listing, pageOf, if_neg hfull]
          exact Answers.pure _
        · -- hidden notes kept the page short
          rw [if_neg hshort]
          obtain ⟨tail, htail⟩ : ∃ tail, (rest.take (n - out.length + 1)).getLast? = some tail := by
            cases hlast : (rest.take (n - out.length + 1)).getLast? with
            | some tail => exact ⟨tail, rfl⟩
            | none =>
              rw [List.getLast?_eq_none_iff.1 hlast, List.length_nil] at hshort
              omega
          have hnext : after (s.rowPlace c) (some (s.rowPlace c tail)) (s.inOrder c vault folderId pathPrefix) =
              rest.drop (n - out.length + 1) := by
            have hmem : tail ∈ rest := List.mem_of_mem_take (List.mem_of_getLast? htail)
            have hascending : Ascending (s.rowPlace c) rest := hrest ▸ ascending_inOrder.after _
            rw [← hrest] at hmem
            rw [after_after hmem, hrest, after_take hascending htail]
          rw [htail]
          have hstep := ih seen (some ((s.relPath tail.id).units, (s.text tail.id).units))
            (fun m hm => by rw [← some.inj hm]; omega)
          rw [map_some, sent_units (s.relPath tail.id, s.text tail.id)] at hstep
          rw [Store.rowPlace] at hnext
          rw [hnext] at hstep
          rw [List.length_take] at hshort
          exact hstep (by rw [List.length_drop]; omega)

theorem length_inOrder : (s.inOrder c vault folderId pathPrefix).length ≤ s.db.notes.length := by
  rw [Store.inOrder, (perm_sortBy _).length_eq]
  exact List.length_filter_le _ _

theorem length_readable : (s.readable c userId vault folderId pathPrefix).length ≤ s.db.notes.length :=
  (List.length_filterMap_le _ _).trans length_inOrder

/-- the loop ends, and what it hands back -/
theorem fetchLoop_eq (pageSize : Option ℕ) (place : Option (Text × Text)) :
    ((fetchLoop s c userId vault folderId pathPrefix pageSize (s.db.notes.length + 1) [] place).run
      createResolverCache).1 =
      some (listing pageSize
        (after (·.place c) (place.map c.sent) (s.readable c userId vault folderId pathPrefix))) := by
  have hfuel : (after (s.rowPlace c) (place.map c.sent) (s.inOrder c vault folderId pathPrefix)).length <
      s.db.notes.length + 1 := Nat.lt_succ_of_le ((List.length_filter_le _ _).trans length_inOrder)
  have hloop := fetchLoop_answers s c userId pageSize (s.db.notes.length + 1) [] place (fun n _ => Nat.zero_le n) hfuel
  rw [List.nil_append, visible_after] at hloop
  exact (hloop _ cacheOk_create).1

variable {lower : Text → Text} {auth : McpAuth} {vaultId : Text}

theorem listNotes_all (hvault : requireVaultInScope s lower auth vaultId = .ok vault) :
    listNotes s c lower auth vaultId folderId { pathPrefix } =
      .ok (some (.all (s.readable c auth.userId vault folderId pathPrefix))) := by
  have hsize : pageSizeOf { pathPrefix } = .ok none := rfl
  simp only [listNotes, hvault, hsize, map_none, fetchLoop_eq, after_none]
  rfl

theorem pageSizeOf_limit (hn : 0 < n) (cursor pathPrefix : Option Text) :
    pageSizeOf { limit := some (.integer n), cursor, pathPrefix } = .ok (some (min n LIST_NOTES_MAX_PAGE)) := by
  rw [pageSizeOf, if_pos (.inl rfl)]
  exact if_neg (by omega)

theorem listNotes_first (hn : 0 < n) (hvault : requireVaultInScope s lower auth vaultId = .ok vault) :
    listNotes s c lower auth vaultId folderId { limit := some (.integer n), pathPrefix } =
      .ok (some (.page (pageOf (min n LIST_NOTES_MAX_PAGE) (s.readable c auth.userId vault folderId pathPrefix)))) := by
  simp only [listNotes, hvault, pageSizeOf_limit hn, map_none, fetchLoop_eq, after_none]
  rfl

/-- a call with the cursor of a note goes on behind it -/
theorem listNotes_next (hn : 0 < n) (hvault : requireVaultInScope s lower auth vaultId = .ok vault)
    (note : ListedNote) :
    listNotes s c lower auth vaultId folderId
        { limit := some (.integer n), cursor := some (encodeNotesCursor note.relPath note.docId), pathPrefix } =
      .ok (some (.page (pageOf (min n LIST_NOTES_MAX_PAGE)
        (after (·.place c) (some (note.place c)) (s.readable c auth.userId vault folderId pathPrefix))))) := by
  simp only [listNotes, hvault, pageSizeOf_limit hn, map_some, decode_encode, fetchLoop_eq]
  rfl

end

/-! ## Page after page -/

/-- the pages of a caller who passes on each cursor, until it is null; at most as many as the fuel -/
def follow (call : Option Text → Except McpToolError (Option Listing)) : ℕ → Option Text → Option (List Page)
  | 0, _ => none
  | fuel + 1, cursor => match call cursor with
    | .ok (some (.page p)) => match p.nextCursor with
      | none => some [p]
      | some next => (follow call fuel (some next)).map (p :: ·)
    | _ => none

/-- the notes, cut into full pages with a cursor and a last one without -/
inductive Paged (n : ℕ) : List ListedNote → List Page → Prop where
  | last {notes : List ListedNote} (h : notes.length ≤ n) : Paged n notes [⟨notes, none⟩]
  | more {notes : List ListedNote} {pages : List Page} (h : n < notes.length) (cursor : Text)
    (hrest : Paged n (notes.drop n) pages) : Paged n notes (⟨notes.take n, some cursor⟩ :: pages)

section

variable {n : ℕ} {notes : List ListedNote} {pages : List Page}

theorem Paged.flatMap_results (h : Paged n notes pages) : pages.flatMap (·.results) = notes := by
  induction h with
  | last _ => simp
  | @more notes pages _ cursor _ ih => rw [List.flatMap_cons, ih, List.take_append_drop]

theorem Paged.ne_nil (h : Paged n notes pages) : pages ≠ [] := by
  cases h <;> simp

/-- a page ends the run exactly when its cursor is null, every other page is full, and none is empty for nothing -/
theorem Paged.page (hn : 0 < n) (h : Paged n notes pages) : ∀ (i : ℕ) (p : Page), pages[i]? = some p →
    (p.nextCursor = none ↔ i + 1 = pages.length) ∧ (i + 1 < pages.length → p.results.length = n) ∧
      p.results.length ≤ n ∧ (notes ≠ [] → p.results ≠ []) := by
  induction h with
  | @last notes hle =>
    intro i p hp
    obtain ⟨rfl, rfl⟩ : i = 0 ∧ p = ⟨notes, none⟩ := by
      cases i with
      | zero => exact ⟨rfl, (some.inj hp).symm⟩
      | succ i => cases hp
    exact ⟨by simp, by simp, hle, fun hne => hne⟩
  | @more notes pages hlt cursor hrest ih =>
    intro i p hp
    have hpages : 0 < pages.length := List.length_pos_iff.2 hrest.ne_nil
    cases i with
    | zero =>
      obtain rfl := (some.inj hp).symm
      have hfull : (notes.take n).length = n := by
        rw [List.length_take]
        omega
      refine ⟨?_, fun _ => hfull, le_of_eq hfull, fun _ hnil => ?_⟩
      · rw [List.length_cons]
        exact ⟨fun hnone => by simp at hnone, fun hlen => absurd hlen (by omega)⟩
      · dsimp only at hnil
        rw [hnil, List.length_nil] at hfull
        omega
    | succ i =>
      obtain ⟨hlast, hfull, hle, hsome⟩ := ih i p hp
      have hmore : notes.drop n ≠ [] := by
        intro hnil
        have hlen := congrArg List.length hnil
        rw [List.length_drop, List.length_nil] at hlen
        omega
      rw [List.length_cons]
      exact ⟨hlast.trans (by omega), fun hi => hfull (by omega), hle, fun _ => hsome hmore⟩

end

section

variable {K : Type} [LinearOrder K] {s : Store} {c : Collation K} {vault : Id} {folderId pathPrefix : Option Text}
  {lower : Text → Text} {auth : McpAuth} {vaultId : Text}

/-- **The run.** Whoever follows the cursors from a call that hands back the first of the notes past a place gets the
rest of them, page after page. -/
theorem follow_paged (s : Store) (c : Collation K) (folderId pathPrefix : Option Text) {n : ℕ} (hn : 0 < n)
    (hvault : requireVaultInScope s lower auth vaultId = .ok vault) (fuel : ℕ) :
    ∀ (k : Option (K ×ₗ K)) (cursor : Option Text),
      listNotes s c lower auth vaultId folderId { limit := some (.integer n), cursor, pathPrefix } =
        .ok (some (.page (pageOf (min n LIST_NOTES_MAX_PAGE)
          (after (·.place c) k (s.readable c auth.userId vault folderId pathPrefix))))) →
      (after (·.place c) k (s.readable c auth.userId vault folderId pathPrefix)).length < fuel →
      ∃ pages, follow (fun cursor => listNotes s c lower auth vaultId folderId
          { limit := some (.integer n), cursor, pathPrefix }) fuel cursor = some pages ∧
        Paged (min n LIST_NOTES_MAX_PAGE) (after (·.place c) k (s.readable c auth.userId vault folderId pathPrefix))
          pages := by
  have hsize : 0 < min n LIST_NOTES_MAX_PAGE := lt_min hn (by decide)
  induction fuel with
  | zero =>
    intro k cursor _ hfuel
    exact absurd hfuel (Nat.not_lt_zero _)
  | succ fuel ih =>
    intro k cursor hcall hfuel
    generalize hrest : after (·.place c) k (s.readable c auth.userId vault folderId pathPrefix) = rest at *
    by_cases hmore : min n LIST_NOTES_MAX_PAGE < rest.length
    · obtain ⟨last, hlast⟩ : ∃ last, (rest.take (min n LIST_NOTES_MAX_PAGE)).getLast? = some last := by
        cases hlast : (rest.take (min n LIST_NOTES_MAX_PAGE)).getLast? with
        | some last => exact ⟨last, rfl⟩
        | none =>
          have hnil := congrArg List.length (List.getLast?_eq_none_iff.1 hlast)
          rw [List.length_take, List.length_nil] at hnil
          omega
      have hnext : after (·.place c) (some (last.place c)) (s.readable c auth.userId vault folderId pathPrefix) =
          rest.drop (min n LIST_NOTES_MAX_PAGE) := by
        have hmem : last ∈ rest := List.mem_of_mem_take (List.mem_of_getLast? hlast)
        have hascending : Ascending (·.place c) rest := hrest ▸ ascending_readable.after _
        rw [← hrest] at hmem
        rw [after_after hmem, hrest, after_take hascending hlast]
      have hstep := ih (some (last.place c)) (some (encodeNotesCursor last.relPath last.docId))
        (listNotes_next hn hvault last)
      rw [hnext] at hstep
      obtain ⟨pages, hpages, hpaged⟩ := hstep (by rw [List.length_drop]; omega)
      refine ⟨⟨rest.take (min n LIST_NOTES_MAX_PAGE), some (encodeNotesCursor last.relPath last.docId)⟩ :: pages, ?_,
        .more hmore _ hpaged⟩
      rw [pageOf, if_pos hmore, hlast, map_some] at hcall
      simp only [follow, hcall, hpages, map_some]
    · rw [pageOf, if_neg hmore] at hcall
      refine ⟨[⟨rest, none⟩], ?_, .last (Nat.not_lt.1 hmore)⟩
      simp only [follow, hcall]

/-- **The pages are the listing, cut.** The unpaged call lists each note of the vault that passes the filters and that
the user may read, once, in the order of path and id. Whoever takes the pages of `limit` notes from the first one on and
passes on each cursor comes to an end. The pages are that listing, one after the other; all but the last have as many
notes as asked for, 5000 at most; the cursor is null on the last page and on no other; and no page is empty unless the
listing is. -/
theorem pages_concatenate (s : Store) (c : Collation K) (folderId pathPrefix : Option Text) {limit : ℕ}
    (hlimit : 0 < limit) (hvault : requireVaultInScope s lower auth vaultId = .ok vault) :
    ∃ notes pages,
      listNotes s c lower auth vaultId folderId { pathPrefix } = .ok (some (.all notes)) ∧
      (∀ note, note ∈ notes ↔ ∃ r ∈ s.db.notes, s.selects vault folderId pathPrefix r = true ∧
        effectivePermission s.db auth.userId r.id ≠ .none ∧
        s.listed r (effectivePermission s.db auth.userId r.id) = note) ∧
      Ascending (·.place c) notes ∧
      follow (fun cursor => listNotes s c lower auth vaultId folderId
        { limit := some (.integer limit), cursor, pathPrefix }) (s.db.notes.length + 1) none = some pages ∧
      pages.flatMap (·.results) = notes ∧
      ∀ (i : ℕ) (p : Page), pages[i]? = some p →
        (p.nextCursor = none ↔ i + 1 = pages.length) ∧
        (i + 1 < pages.length → p.results.length = min limit LIST_NOTES_MAX_PAGE) ∧
        p.results.length ≤ min limit LIST_NOTES_MAX_PAGE ∧ (notes ≠ [] → p.results ≠ []) := by
  have hrun := follow_paged s c folderId pathPrefix hlimit hvault (s.db.notes.length + 1) none none
  rw [after_none] at hrun
  obtain ⟨pages, hpages, hpaged⟩ := hrun (listNotes_first hlimit hvault) (Nat.lt_succ_of_le length_readable)
  exact ⟨s.readable c auth.userId vault folderId pathPrefix, pages, listNotes_all hvault, fun _ => mem_readable,
    ascending_readable, hpages, hpaged.flatMap_results, hpaged.page (lt_min hlimit (by decide))⟩

end

/-! ## A vault with a hidden note -/

/-- by code units -/
def unitCollation : Collation (List ℕ) where
  key t := t.units.map (·.toNat)
  injective := by
    intro t t' h
    obtain ⟨units, hunits⟩ := t
    obtain ⟨units', hunits'⟩ := t'
    simp only [DbText.mk.injEq]
    exact List.map_injective_iff.2 (fun _ _ => UInt16.toNat_inj.1) h

/-- the vault is open to its members, but the second of its notes is denied to user 2 -/
def threeNotes : Db where
  vaults := [⟨1, 7⟩]
  folders := []
  notes := [⟨2, 1, none, some 1, 4000000, false⟩, ⟨3, 1, none, some 1, 5000000, false⟩,
    ⟨4, 1, none, some 1, 6000000, false⟩]
  files := []
  shares := [⟨.vault, 7, .org 7, .edit, 0⟩, ⟨.file, 3, .user 2, .denied, 0⟩]
  members := [⟨7, 1, .owner⟩, ⟨7, 2, .member⟩]
  snapshots := []
  lapsed := []

/-- ids and names as so many letters -/
def letters (n : ℕ) : DbText := ⟨List.replicate n 97, .of_lt fun u hu => by rw [List.eq_of_mem_replicate hu]; decide⟩

def threeNotesStore : Store where
  db := threeNotes
  wellFormed := {
    folderKey := by decide
    docKey := by decide
    shareKey := by decide
    tree := ⟨id, by decide⟩
    docFolder := by decide
    snapshotMember := by decide
    vaultRow := by simp [threeNotes] }
  text := letters
  text_injective n n' h := by
    have hlength := congrArg (fun t => t.units.length) h
    simpa [letters] using hlength
  vaultName := letters
  vaultCreatedAt := id
  title _ := none
  relPath := letters
  updatedAt := id

/-- user 2 gets the first and the third note, one to a page -/
theorem hidden_note_is_passed_over : ∃ pages,
    follow (fun cursor => listNotes threeNotesStore unitCollation id ⟨2, 7⟩ [97] none
      { limit := some (.integer 1), cursor }) 4 none = some pages ∧
    pages.flatMap (·.results) =
      [⟨[97, 97], none, [97, 97], [97, 97], .edit, 2⟩,
        ⟨[97, 97, 97, 97], none, [97, 97, 97, 97], [97, 97, 97, 97], .edit, 4⟩] := by
  have hvault : requireVaultInScope threeNotesStore id ⟨2, 7⟩ [97] = .ok 1 := by decide +kernel
  have hnotes : threeNotesStore.readable unitCollation 2 1 none none =
      [⟨[97, 97], none, [97, 97], [97, 97], .edit, 2⟩,
        ⟨[97, 97, 97, 97], none, [97, 97, 97, 97], [97, 97, 97, 97], .edit, 4⟩] := by
    decide +kernel
  obtain ⟨notes, pages, hall, -, -, hpages, hflat, -⟩ := pages_concatenate threeNotesStore unitCollation none none
    Nat.one_pos hvault
  rw [listNotes_all hvault, hnotes] at hall
  refine ⟨pages, hpages, hflat.trans ?_⟩
  simpa using hall.symm
end Baalda.NoteListing
