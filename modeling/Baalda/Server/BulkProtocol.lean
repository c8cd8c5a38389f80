/-
The page format of the bootstrap download (`sync/bulk-protocol.ts`), little-endian throughout:

  "BLDB" | version u8 = 1 | flags u8 = 0 | docCount u32 | reserved u16
  docCount × ( docIdLen u8 | pathLen u16 | updateLen u32 | docId utf8 | relPath utf8 | update )

The server and the desktop each have a decoder. They read a page the same way (`readPage`) and differ in what they
refuse at the end of a record and at the end of the page: `Checks`.

- `RawDoc`: a record of the format, its lengths in bounds; `page`: a page of records;
- `readPage_iff`: a decoder accepts exactly a page, followed by anything if it does not look at what is left.
-/
import Baalda.Lib.Bytes
import Baalda.Lib.Utf8

namespace Baalda.BulkProtocol

open Bytes List

/-- the UTF-16 code units of a string -/
abbrev JsString := List UInt16

structure BootstrapDoc where
  docId : JsString
  relPath : JsString
  update : List UInt8
  deriving DecidableEq

/-- what a page or its encoding is refused for, with what the message names -/
inductive CodecError where
  | docIdTooLong
  | relPathTooLong
  | pageTruncated
  | badMagic
  | unsupportedVersion (version : ℕ)
  | unsupportedFlags (flags : ℕ)
  | recordHeaderTruncated (i : ℕ)
  | recordBodyTruncated (i : ℕ)
  | emptyDocId (i : ℕ)
  | emptyRelPath (i : ℕ)
  | trailingBytes (bytes docs : ℕ)
  deriving DecidableEq

def bootstrapMagic : ℕ := 0x42444c42

def bootstrapVersion : ℕ := 1

def bootstrapHeaderBytes : ℕ := 12

def bootstrapRecordBytes : ℕ := 7

/-! ## Encoding -/

/-- the exact size of a record -/
def encodedDocBytes (d : BootstrapDoc) : ℕ :=
  bootstrapRecordBytes + (Utf8.encode d.docId).length + (Utf8.encode d.relPath).length + d.update.length

/-- the first pass: every id and path must fit its length field -/
def checkFields : List BootstrapDoc → Except CodecError Unit
  | [] => .ok ()
  | d :: docs =>
    if 0xff < (Utf8.encode d.docId).length then .error .docIdTooLong
    else if 0xffff < (Utf8.encode d.relPath).length then .error .relPathTooLong
    else checkFields docs

def record (id path update : List UInt8) : List UInt8 :=
  le 1 id.length ++ (le 2 path.length ++ (le 4 update.length ++ (id ++ (path ++ update))))

def encodeRecord (d : BootstrapDoc) : List UInt8 := record (Utf8.encode d.docId) (Utf8.encode d.relPath) d.update

def header (count : ℕ) (reserved : List UInt8) : List UInt8 :=
  le 4 bootstrapMagic ++ (le 1 bootstrapVersion ++ (le 1 0 ++ (le 4 count ++ reserved)))

def encodeBootstrapPage (docs : List BootstrapDoc) : Except CodecError (List UInt8) := do
  checkFields docs
  return header docs.length (le 2 0) ++ docs.flatMap encodeRecord

/-! ## Decoding -/

/-- what a decoder refuses beyond a page that is cut off -/
structure Checks where
  emptyFields : Bool
  trailingBytes : Bool

/-- `count` records, of which the first is the page's `i`-th, and the bytes after them -/
def readDocs (checks : Checks) : ℕ → ℕ → List UInt8 → Except CodecError (List BootstrapDoc × List UInt8)
  | _, 0, b => .ok ([], b)
  | i, count + 1, b => match takeExact bootstrapRecordBytes b with
    | none => .error (.recordHeaderTruncated i)
    | some (head, b) =>
      let idLen := ofLe (head.take 1)
      let pathLen := ofLe ((head.drop 1).take 2)
      let updateLen := ofLe (head.drop 3)
      match takeExact (idLen + pathLen + updateLen) b with
      | none => .error (.recordBodyTruncated i)
      | some (body, b) =>
        let doc : BootstrapDoc := {
          docId := Utf8.decode (body.take idLen), relPath := Utf8.decode ((body.drop idLen).take pathLen)
          update := body.drop (idLen + pathLen) }
        if checks.emptyFields ∧ doc.docId = [] then .error (.emptyDocId i)
        else if checks.emptyFields ∧ doc.relPath = [] then .error (.emptyRelPath i)
        else match readDocs checks (i + 1) count b with
          | .error e => .error e
          | .ok (docs, b) => .ok (doc :: docs, b)

def readPage (checks : Checks) (b : List UInt8) : Except CodecError (List BootstrapDoc) :=
  match takeExact bootstrapHeaderBytes b with
  | none => .error .pageTruncated
  | some (head, b) =>
    if head.take 4 ≠ le 4 bootstrapMagic then .error .badMagic
    else if ofLe ((head.drop 4).take 1) ≠ bootstrapVersion then
      .error (.unsupportedVersion (ofLe ((head.drop 4).take 1)))
    else if ofLe ((head.drop 5).take 1) ≠ 0 then .error (.unsupportedFlags (ofLe ((head.drop 5).take 1)))
    else
      -- the two reserved bytes after the count are not read
      let count := ofLe ((head.drop 6).take 4)
      match readDocs checks 0 count b with
      | .error e => .error e
      | .ok (docs, b) =>
        if checks.trailingBytes ∧ b ≠ [] then .error (.trailingBytes b.length count) else .ok docs

/-- the server's decoder -/
def decodeBootstrapPage (b : List UInt8) : Except CodecError (List BootstrapDoc) :=
  readPage { emptyFields := false, trailingBytes := false } b

/-! ## Records and pages -/

/-- the fields of a record, which fit their lengths -/
structure RawDoc where
  id : List UInt8
  path : List UInt8
  update : List UInt8
  id_lt : id.length < 256
  path_lt : path.length < 65536
  update_lt : update.length < 4294967296

namespace RawDoc

def bytes (r : RawDoc) : List UInt8 := record r.id r.path r.update

def doc (r : RawDoc) : BootstrapDoc := { docId := Utf8.decode r.id, relPath := Utf8.decode r.path, update := r.update }

end RawDoc

def NonEmptyFields (d : BootstrapDoc) : Prop := d.docId ≠ [] ∧ d.relPath ≠ []

/-- a page of records, whatever its reserved bytes are -/
def page (raws : List RawDoc) (reserved : List UInt8) : List UInt8 :=
  header raws.length reserved ++ raws.flatMap RawDoc.bytes

/-- a page with nothing after it -/
def IsPage (b : List UInt8) : Prop :=
  ∃ (raws : List RawDoc) (reserved : List UInt8),
    reserved.length = 2 ∧ raws.length < 4294967296 ∧ b = page raws reserved

section

variable {checks : Checks}

/-- a record, read back -/
theorem readDocs_record (r : RawDoc) (hfields : checks.emptyFields = true → NonEmptyFields r.doc) (i count : ℕ)
    (b : List UInt8) : readDocs checks i (count + 1) (r.bytes ++ b) =
      match readDocs checks (i + 1) count b with
      | .error e => .error e
      | .ok (docs, b) => .ok (r.doc :: docs, b) := by
  have hsplit : r.bytes ++ b =
      (le 1 r.id.length ++ (le 2 r.path.length ++ le 4 r.update.length)) ++ ((r.id ++ (r.path ++ r.update)) ++ b) := by
    simp [RawDoc.bytes, record]
  have hhead : takeExact bootstrapRecordBytes (r.bytes ++ b) =
      some (le 1 r.id.length ++ (le 2 r.path.length ++ le 4 r.update.length), (r.id ++ (r.path ++ r.update)) ++ b) :=
    takeExact_iff.mpr ⟨by simp [bootstrapRecordBytes], hsplit⟩
  have hid : ofLe ((le 1 r.id.length ++ (le 2 r.path.length ++ le 4 r.update.length)).take 1) = r.id.length := by
    rw [take_left' (by simp), ofLe_le (by simpa using r.id_lt)]
  have hpath : ofLe (((le 1 r.id.length ++ (le 2 r.path.length ++ le 4 r.update.length)).drop 1).take 2) =
      r.path.length := by
    rw [drop_left' (by simp), take_left' (by simp), ofLe_le (by simpa using r.path_lt)]
  have hupdate : ofLe ((le 1 r.id.length ++ (le 2 r.path.length ++ le 4 r.update.length)).drop 3) =
      r.update.length := by
    rw [← append_assoc, drop_left' (by simp), ofLe_le (by simpa using r.update_lt)]
  have hbody : takeExact (r.id.length + r.path.length + r.update.length) ((r.id ++ (r.path ++ r.update)) ++ b) =
      some (r.id ++ (r.path ++ r.update), b) :=
    takeExact_iff.mpr ⟨by simp [add_assoc], rfl⟩
  have hfields' : ∀ P : Prop, (NonEmptyFields r.doc → ¬P) → ¬(checks.emptyFields = true ∧ P) :=
    fun P hP hboth => hP (hfields hboth.1) hboth.2
  rw [readDocs, hhead]
  simp only [hid, hpath, hupdate, hbody, take_left, drop_left]
  have hrest : (r.id ++ (r.path ++ r.update)).drop (r.id.length + r.path.length) = r.update := by
    rw [← append_assoc, drop_left' (by simp)]
  rw [hrest]
  rw [if_neg (hfields' (Utf8.decode r.id = []) fun h => h.1), if_neg (hfields' (Utf8.decode r.path = []) fun h => h.2)]
  rfl

theorem readDocs_records (raws : List RawDoc) (hfields : checks.emptyFields = true → ∀ r ∈ raws, NonEmptyFields r.doc)
    (i : ℕ) (b : List UInt8) :
    readDocs checks i raws.length (raws.flatMap RawDoc.bytes ++ b) = .ok (raws.map RawDoc.doc, b) := by
  induction raws generalizing i with
  | nil => rfl
  | cons r raws ih =>
    have hrest := ih (fun hc x hx => hfields hc x (mem_cons_of_mem r hx)) (i + 1)
    rw [flatMap_cons, append_assoc, length_cons,
      readDocs_record r (fun hc => hfields hc r mem_cons_self), hrest]
    rfl

/-- a head and a body of the lengths it names are a record -/
theorem exists_record {head body : List UInt8} (hhead : head.length = bootstrapRecordBytes)
    (hbody : body.length = ofLe (head.take 1) + ofLe ((head.drop 1).take 2) + ofLe (head.drop 3)) :
    ∃ r : RawDoc, head ++ body = r.bytes ∧ r.id = body.take (ofLe (head.take 1)) ∧
      r.path = (body.drop (ofLe (head.take 1))).take (ofLe ((head.drop 1).take 2)) ∧
      r.update = body.drop (ofLe (head.take 1) + ofLe ((head.drop 1).take 2)) := by
  have hid : (head.take 1).length = 1 := by rw [length_take, hhead]; rfl
  have hpath : ((head.drop 1).take 2).length = 2 := by rw [length_take, length_drop, hhead]; rfl
  have hupdate : (head.drop 3).length = 4 := by rw [length_drop, hhead]; rfl
  have hidlt := ofLe_lt (head.take 1)
  have hpathlt := ofLe_lt ((head.drop 1).take 2)
  have hupdatelt := ofLe_lt (head.drop 3)
  rw [hid] at hidlt
  rw [hpath] at hpathlt
  rw [hupdate] at hupdatelt
  have hparts : head = head.take 1 ++ ((head.drop 1).take 2 ++ head.drop 3) := by
    rw [show head.drop 3 = (head.drop 1).drop 2 by rw [drop_drop], take_append_drop, take_append_drop]
  have hle1 := le_ofLe (head.take 1)
  have hle2 := le_ofLe ((head.drop 1).take 2)
  have hle4 := le_ofLe (head.drop 3)
  rw [hid] at hle1
  rw [hpath] at hle2
  rw [hupdate] at hle4
  generalize ofLe (head.take 1) = idLen at *
  generalize ofLe ((head.drop 1).take 2) = pathLen at *
  generalize ofLe (head.drop 3) = updateLen at *
  have hidLen : (body.take idLen).length = idLen := by rw [length_take]; omega
  have hpathLen : ((body.drop idLen).take pathLen).length = pathLen := by rw [length_take, length_drop]; omega
  have hupdateLen : (body.drop (idLen + pathLen)).length = updateLen := by rw [length_drop]; omega
  refine ⟨⟨body.take idLen, (body.drop idLen).take pathLen, body.drop (idLen + pathLen), ?_, ?_, ?_⟩, ?_, rfl, rfl, rfl⟩
  · omega
  · omega
  · omega
  · unfold RawDoc.bytes record
    dsimp only
    rw [hidLen, hpathLen, hupdateLen, hle1, hle2, hle4]
    rw [← drop_drop, take_append_drop, take_append_drop]
    nth_rewrite 1 [hparts]
    simp only [append_assoc]

/-- what is accepted as records is records -/
theorem exists_of_readDocs {i count : ℕ} {b rest : List UInt8} {docs : List BootstrapDoc}
    (h : readDocs checks i count b = .ok (docs, rest)) :
    ∃ raws : List RawDoc, raws.length = count ∧ b = raws.flatMap RawDoc.bytes ++ rest ∧ docs = raws.map RawDoc.doc ∧
      (checks.emptyFields = true → ∀ d ∈ docs, NonEmptyFields d) := by
  induction count generalizing i b docs with
  | zero =>
    cases Except.ok.inj h
    exact ⟨[], rfl, rfl, rfl, fun _ d hd => by simp at hd⟩
  | succ count ih =>
    rw [readDocs] at h
    split at h
    · cases h
    · next head tail hhead =>
      obtain ⟨hheadlen, rfl⟩ := takeExact_iff.mp hhead
      dsimp only at h
      split at h
      · cases h
      · next body tail hbody =>
        obtain ⟨hbodylen, rfl⟩ := takeExact_iff.mp hbody
        obtain ⟨r, hbytes, hid, hpath, hupdate⟩ := exists_record hheadlen hbodylen
        rw [← hid, ← hpath, ← hupdate] at h
        split_ifs at h with hemptyId hemptyPath
        split at h
        · cases h
        · next more b' hmore =>
          cases Except.ok.inj h
          obtain ⟨raws, hlen, rfl, rfl, hfields⟩ := ih hmore
          refine ⟨r :: raws, by rw [length_cons, hlen], ?_, rfl, ?_⟩
          · rw [flatMap_cons, ← hbytes]
            simp only [append_assoc]
          · intro hc d hd
            rcases mem_cons.mp hd with rfl | hmem
            · exact ⟨fun hnil => hemptyId ⟨hc, hnil⟩, fun hnil => hemptyPath ⟨hc, hnil⟩⟩
            · exact hfields hc d hmem

/-! ## Pages -/

/-- the fields of a header, by their places -/
theorem header_fields {count : ℕ} {reserved : List UInt8} (hreserved : reserved.length = 2)
    (hcount : count < 4294967296) :
    (header count reserved).length = bootstrapHeaderBytes ∧ (header count reserved).take 4 = le 4 bootstrapMagic ∧
    ofLe (((header count reserved).drop 4).take 1) = bootstrapVersion ∧
    ofLe (((header count reserved).drop 5).take 1) = 0 ∧ ofLe (((header count reserved).drop 6).take 4) = count := by
  unfold header
  refine ⟨by simp [hreserved, bootstrapHeaderBytes], take_left' (by simp), ?_, ?_, ?_⟩
  · rfl
  · rfl
  · rw [show 6 = 4 + (1 + 1) from rfl, ← drop_drop, drop_left' (by simp), ← drop_drop,
      drop_left' (by simp), drop_left' (by simp), take_left' (by simp), ofLe_le (by simpa using hcount)]

/-- a header with the right fields is one of the format -/
theorem header_of_fields {head : List UInt8} (hlen : head.length = bootstrapHeaderBytes)
    (hmagic : head.take 4 = le 4 bootstrapMagic) (hversion : ofLe ((head.drop 4).take 1) = bootstrapVersion)
    (hflags : ofLe ((head.drop 5).take 1) = 0) : head = header (ofLe ((head.drop 6).take 4)) (head.drop 10) := by
  have hversion' := le_ofLe ((head.drop 4).take 1)
  have hflags' := le_ofLe ((head.drop 5).take 1)
  have hcount' := le_ofLe ((head.drop 6).take 4)
  have h1 : ((head.drop 4).take 1).length = 1 := by rw [length_take, length_drop, hlen]; rfl
  have h2 : ((head.drop 5).take 1).length = 1 := by rw [length_take, length_drop, hlen]; rfl
  have h3 : ((head.drop 6).take 4).length = 4 := by rw [length_take, length_drop, hlen]; rfl
  rw [h1, hversion] at hversion'
  rw [h2, hflags] at hflags'
  rw [h3] at hcount'
  have hcut : ∀ n k, head.drop n = (head.drop n).take k ++ head.drop (n + k) := by
    intro n k
    rw [← drop_drop, take_append_drop]
  unfold header
  rw [← hmagic, hversion', hflags', hcount', ← hcut 6 4, ← hcut 5 1, ← hcut 4 1, take_append_drop]

/-- **What a decoder accepts.** A page of records, and what follows it if the decoder does not look. -/
theorem readPage_iff {b : List UInt8} {docs : List BootstrapDoc} :
    readPage checks b = .ok docs ↔ ∃ (raws : List RawDoc) (reserved rest : List UInt8),
      reserved.length = 2 ∧ raws.length < 4294967296 ∧ b = page raws reserved ++ rest ∧ docs = raws.map RawDoc.doc ∧
      (checks.emptyFields = true → ∀ d ∈ docs, NonEmptyFields d) ∧ (checks.trailingBytes = true → rest = []) := by
  constructor
  · intro h
    unfold readPage at h
    split at h
    · cases h
    · next head tail hhead =>
      obtain ⟨hlen, rfl⟩ := takeExact_iff.mp hhead
      split_ifs at h with hmagic hversion hflags
      dsimp only at h
      split at h
      · cases h
      · next docs' rest hdocs =>
        split_ifs at h with htrailing
        obtain rfl := Except.ok.inj h
        obtain ⟨raws, hcount, rfl, rfl, hfields⟩ := exists_of_readDocs hdocs
        have hlt := ofLe_lt ((head.drop 6).take 4)
        have h4 : ((head.drop 6).take 4).length = 4 := by rw [length_take, length_drop, hlen]; rfl
        rw [h4, ← hcount] at hlt
        refine ⟨raws, head.drop 10, rest, by rw [length_drop, hlen]; rfl, hlt, ?_, rfl, hfields, ?_⟩
        · have hheader := header_of_fields hlen (not_not.mp hmagic) (not_not.mp hversion) (not_not.mp hflags)
          rw [← hcount] at hheader
          rw [page, ← hheader, append_assoc]
        · exact fun hc => not_not.mp fun hne => htrailing ⟨hc, hne⟩
  · rintro ⟨raws, reserved, rest, hreserved, hcount, rfl, rfl, hfields, hrest⟩
    obtain ⟨hlen, hmagic, hversion, hflags, hcount'⟩ := header_fields hreserved hcount
    have hhead : takeExact bootstrapHeaderBytes (page raws reserved ++ rest) =
        some (header raws.length reserved, raws.flatMap RawDoc.bytes ++ rest) :=
      takeExact_iff.mpr ⟨hlen, by rw [page, append_assoc]⟩
    have hdocs := readDocs_records raws (fun hc r hr => hfields hc _ (mem_map_of_mem hr)) 0 rest
    unfold readPage
    rw [hhead]
    dsimp only
    rw [if_neg (not_not.mpr hmagic), if_neg (not_not.mpr hversion), if_neg (not_not.mpr hflags), hcount', hdocs]
    dsimp only
    rw [if_neg fun hboth => hboth.2 (hrest hboth.1)]

end

end Baalda.BulkProtocol
