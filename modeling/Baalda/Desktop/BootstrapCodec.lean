/-
The desktop's half of the bootstrap page format (`sync/bootstrapCodec.ts`), against the server's
(`Server/BulkProtocol`).

- `decode_encode`: a page of readable documents is read back as it was written;
- `decode_iff_server`: the two decoders agree, the server's also taking empty fields and trailing bytes;
- `decode_append`: nothing that is accepted is the beginning of something else that is;
- `page_codec_agrees`: all of these together.
-/
import Baalda.Server.BulkProtocol

namespace Baalda.BootstrapCodec

open BulkProtocol Bytes List

/-- the desktop's decoder -/
def decodeBootstrapPage (b : List UInt8) : Except CodecError (List BootstrapDoc) :=
  readPage { emptyFields := true, trailingBytes := true } b

/-- what a `TextDecoder` reads back as it was: no lone surrogate, and no byte order mark in front -/
structure Readable (t : JsString) : Prop where
  wellFormed : Utf8.WellFormed t
  unmarked : t.head? ≠ some 0xFEFF

/-- within the limits of the encoder's fields -/
structure Fits (d : BootstrapDoc) : Prop where
  docId : (Utf8.encode d.docId).length < 256
  relPath : (Utf8.encode d.relPath).length < 65536
  update : d.update.length < 4294967296

/-! ## Round trip -/

variable {docs : List BootstrapDoc}

theorem checkFields_of_fits (h : ∀ d ∈ docs, Fits d) : checkFields docs = .ok () := by
  induction docs with
  | nil => rfl
  | cons d docs ih =>
    have hd := h d mem_cons_self
    rw [checkFields, if_neg (by have := hd.docId; omega), if_neg (by have := hd.relPath; omega)]
    exact ih fun e he => h e (mem_cons_of_mem d he)

/-- the record of a document that fits -/
def rawOf (d : BootstrapDoc) (h : Fits d) : RawDoc where
  id := Utf8.encode d.docId
  path := Utf8.encode d.relPath
  update := d.update
  id_lt := h.docId
  path_lt := h.relPath
  update_lt := h.update

theorem exists_raws (h : ∀ d ∈ docs, Fits d) (hread : ∀ d ∈ docs, Readable d.docId ∧ Readable d.relPath) :
    ∃ raws : List RawDoc, raws.length = docs.length ∧ raws.flatMap RawDoc.bytes = docs.flatMap encodeRecord ∧
      raws.map RawDoc.doc = docs := by
  induction docs with
  | nil => exact ⟨[], rfl, rfl, rfl⟩
  | cons d docs ih =>
    obtain ⟨raws, hlen, hbytes, hdocs⟩ := ih (fun e he => h e (mem_cons_of_mem d he))
      fun e he => hread e (mem_cons_of_mem d he)
    obtain ⟨hid, hpath⟩ := hread d mem_cons_self
    refine ⟨rawOf d (h d mem_cons_self) :: raws, by simp [hlen], ?_, ?_⟩
    · rw [flatMap_cons, flatMap_cons, hbytes]
      rfl
    · have hdoc : (rawOf d (h d mem_cons_self)).doc = d := by
        simp only [RawDoc.doc, rawOf, Utf8.decode_encode hid.wellFormed hid.unmarked,
          Utf8.decode_encode hpath.wellFormed hpath.unmarked]
      rw [map_cons, hdoc, hdocs]

theorem decode_encode (hfits : ∀ d ∈ docs, Fits d) (hcount : docs.length < 4294967296)
    (hread : ∀ d ∈ docs, Readable d.docId ∧ Readable d.relPath) (hfields : ∀ d ∈ docs, NonEmptyFields d) :
    ∃ b, encodeBootstrapPage docs = .ok b ∧ decodeBootstrapPage b = .ok docs := by
  obtain ⟨raws, hlen, hbytes, hdocs⟩ := exists_raws hfits hread
  refine ⟨page raws (le 2 0), ?_, ?_⟩
  · rw [encodeBootstrapPage, checkFields_of_fits hfits, page, hlen, hbytes]
    rfl
  · exact readPage_iff.mpr ⟨raws, le 2 0, [], rfl, by rw [hlen]; exact hcount, by simp, hdocs.symm,
      fun _ => hfields, fun _ => rfl⟩

/-! ## The two decoders -/

variable {b : List UInt8}

theorem decode_iff :
    decodeBootstrapPage b = .ok docs ↔ ∃ (raws : List RawDoc) (reserved : List UInt8), reserved.length = 2 ∧
      raws.length < 4294967296 ∧ b = page raws reserved ∧ docs = raws.map RawDoc.doc ∧
      ∀ d ∈ docs, NonEmptyFields d := by
  unfold decodeBootstrapPage
  rw [readPage_iff]
  constructor
  · rintro ⟨raws, reserved, rest, hreserved, hcount, hb, hdocs, hfields, hrest⟩
    obtain rfl := hrest rfl
    exact ⟨raws, reserved, hreserved, hcount, by rw [hb, append_nil], hdocs, hfields rfl⟩
  · rintro ⟨raws, reserved, hreserved, hcount, hb, hdocs, hfields⟩
    exact ⟨raws, reserved, [], hreserved, hcount, by rw [hb, append_nil], hdocs, fun _ => hfields, fun _ => rfl⟩

/-- the decoders agree on pages with nothing after them and no empty field -/
theorem decode_iff_server :
    decodeBootstrapPage b = .ok docs ↔
      BulkProtocol.decodeBootstrapPage b = .ok docs ∧ (∀ d ∈ docs, NonEmptyFields d) ∧ IsPage b := by
  have hserver : ∀ (raws : List RawDoc) (reserved : List UInt8), reserved.length = 2 → raws.length < 4294967296 →
      BulkProtocol.decodeBootstrapPage (page raws reserved) = .ok (raws.map RawDoc.doc) := fun raws reserved hr hc =>
    readPage_iff.mpr ⟨raws, reserved, [], hr, hc, by simp, rfl, fun hfalse => absurd hfalse (by decide),
      fun hfalse => absurd hfalse (by decide)⟩
  rw [decode_iff]
  constructor
  · rintro ⟨raws, reserved, hreserved, hcount, rfl, rfl, hfields⟩
    exact ⟨hserver raws reserved hreserved hcount, hfields, raws, reserved, hreserved, hcount, rfl⟩
  · rintro ⟨hdecode, hfields, raws, reserved, hreserved, hcount, rfl⟩
    obtain rfl := Except.ok.inj ((hserver raws reserved hreserved hcount).symm.trans hdecode)
    exact ⟨raws, reserved, hreserved, hcount, rfl, rfl, hfields⟩

/-! ## Malformed pages -/

/-- no page is the beginning of another byte string that is accepted: nothing cut off or extended is -/
theorem decode_append {c : List UInt8} {docs' : List BootstrapDoc} (h : decodeBootstrapPage b = .ok docs)
    (h' : decodeBootstrapPage (b ++ c) = .ok docs') : c = [] := by
  obtain ⟨raws, reserved, hreserved, hcount, rfl, -, -⟩ := decode_iff.mp h
  obtain ⟨raws', reserved', hreserved', hcount', heq, -, -⟩ := decode_iff.mp h'
  obtain ⟨hlen, -, -, -, hfield⟩ := header_fields hreserved hcount
  obtain ⟨hlen', -, -, -, hfield'⟩ := header_fields hreserved' hcount'
  rw [page, page, append_assoc] at heq
  obtain ⟨hheader, htail⟩ := append_inj heq (hlen.trans hlen'.symm)
  have hsame : raws.length = raws'.length := by rw [← hfield, ← hfield', hheader]
  have hread : readDocs ⟨false, false⟩ 0 raws.length (raws.flatMap RawDoc.bytes ++ c) = .ok (raws.map RawDoc.doc, c) :=
    readDocs_records raws (by simp) 0 c
  have hread' : readDocs ⟨false, false⟩ 0 raws'.length (raws'.flatMap RawDoc.bytes ++ []) =
      .ok (raws'.map RawDoc.doc, []) :=
    readDocs_records raws' (by simp) 0 []
  rw [append_nil, ← htail, ← hsame, hread] at hread'
  exact congrArg Prod.snd (Except.ok.inj hread')

/-- **The page codec.** Pages of readable documents are read back as they were written; the two decoders agree; and what
the desktop accepts is a page, whole and with nothing after it. -/
theorem page_codec_agrees :
    (∀ docs : List BootstrapDoc, (∀ d ∈ docs, Fits d) → docs.length < 4294967296 →
      (∀ d ∈ docs, Readable d.docId ∧ Readable d.relPath) → (∀ d ∈ docs, NonEmptyFields d) →
      ∃ b, encodeBootstrapPage docs = .ok b ∧ decodeBootstrapPage b = .ok docs) ∧
    (∀ (b : List UInt8) (docs : List BootstrapDoc), decodeBootstrapPage b = .ok docs ↔
      BulkProtocol.decodeBootstrapPage b = .ok docs ∧ (∀ d ∈ docs, NonEmptyFields d) ∧ IsPage b) ∧
    (∀ (b : List UInt8), ¬IsPage b → ∃ e, decodeBootstrapPage b = .error e) ∧
    (∀ (b c : List UInt8) (docs : List BootstrapDoc), decodeBootstrapPage b = .ok docs → c ≠ [] →
      ∃ e, decodeBootstrapPage (b ++ c) = .error e) ∧
    ∀ (b c : List UInt8) (docs : List BootstrapDoc), decodeBootstrapPage (b ++ c) = .ok docs → c ≠ [] →
      ∃ e, decodeBootstrapPage b = .error e := by
  refine ⟨fun docs hfits hcount hread hfields => decode_encode hfits hcount hread hfields,
    fun b docs => decode_iff_server, ?_, ?_, ?_⟩
  · intro b hb
    cases hdecode : decodeBootstrapPage b with
    | error e => exact ⟨e, rfl⟩
    | ok docs => exact absurd (decode_iff_server.mp hdecode).2.2 hb
  · intro b c docs h hc
    cases hdecode : decodeBootstrapPage (b ++ c) with
    | error e => exact ⟨e, rfl⟩
    | ok docs' => exact absurd (decode_append h hdecode) hc
  · intro b c docs h hc
    cases hdecode : decodeBootstrapPage b with
    | error e => exact ⟨e, rfl⟩
    | ok docs' => exact absurd (decode_append hdecode h) hc

/-- the note `a` at the path `b`, with one byte of update -/
def aNote : BootstrapDoc := { docId := [97], relPath := [98], update := [7] }

theorem fits_aNote : Fits aNote := ⟨by decide +kernel, by decide +kernel, by decide⟩

theorem readable_ascii {u : UInt16} (h : u.toNat < 0x80) : Readable [u] where
  wellFormed := .of_lt fun v hv => by rw [mem_singleton.mp hv]; omega
  unmarked hmark := by
    rw [head?_cons, Option.some.injEq] at hmark
    rw [hmark] at h
    exact absurd h (by decide)

theorem page_of_aNote_read : ∃ b, encodeBootstrapPage [aNote] = .ok b ∧ decodeBootstrapPage b = .ok [aNote] :=
  page_codec_agrees.1 [aNote] (fun _ hd => mem_singleton.mp hd ▸ fits_aNote) (by decide)
    (fun _ hd => mem_singleton.mp hd ▸ ⟨readable_ascii (by decide), readable_ascii (by decide)⟩)
    fun _ hd => mem_singleton.mp hd ▸ ⟨by decide, by decide⟩

/-! ## Where the decoders are more lenient -/

/-- an encoder's output has zeros in its reserved bytes -/
theorem reserved_of_encode (h : encodeBootstrapPage docs = .ok b) : (b.drop 10).take 2 = [0, 0] := by
  unfold encodeBootstrapPage at h
  cases hcheck : checkFields docs with
  | error e =>
    rw [hcheck] at h
    simp [bind, Except.bind] at h
  | ok u =>
    rw [hcheck] at h
    obtain rfl := Except.ok.inj h
    rfl

/-- a page of no documents, with a reserved byte set -/
def reservedPage : List UInt8 := [0x42, 0x4c, 0x44, 0x42, 1, 0, 0, 0, 0, 0, 1, 0]

/-- **More lenient.** A path loses the byte order mark in front of it; the server's decoder takes a page with a byte
after it; and the desktop's takes one that no encoder wrote. -/
theorem page_decoders_lenient :
    (encodeBootstrapPage [{ aNote with relPath := [0xFEFF, 98] }]).bind decodeBootstrapPage = .ok [aNote] ∧
    BulkProtocol.decodeBootstrapPage (header 0 (le 2 0) ++ [0]) = .ok [] ∧
      decodeBootstrapPage (header 0 (le 2 0) ++ [0]) = .error (.trailingBytes 1 0) ∧
    decodeBootstrapPage reservedPage = .ok [] ∧ ¬∃ docs, encodeBootstrapPage docs = .ok reservedPage := by
  refine ⟨by decide +kernel, by decide +kernel, by decide +kernel, by decide +kernel, ?_⟩
  rintro ⟨docs, h⟩
  exact absurd (reserved_of_encode h) (by decide)

end Baalda.BootstrapCodec
