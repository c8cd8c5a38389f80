/-
What the local index derives from a note file (`src-tauri/src/parse.rs`, `parse_for` and `link_key` of `index.rs`).

A note's row is a function of its bytes and of its name: the extension picks the parser, and the title falls back to the
stem. `Crates` has what comes from elsewhere: the regular expressions' matches, the YAML reader, the Unicode tables and
the hash; the two scanners that only look at the text (`literal_mask`, `strip_html_tags`) are fields of it too.
-/
import Mathlib.Tactic

namespace Baalda.NoteIndex

open List

abbrev Text := List Char

local instance : LawfulBEq Text := inferInstance

/-- a vault-relative path, with `/` between its parts -/
abbrev Path := List Char

def utf8Len (t : Text) : ℕ := (t.map fun c => c.utf8Size).sum

/-! ## Names -/

/-- `path.rsplit('/').next()` -/
def lastPart (path : Path) : Text := (path.reverse.takeWhile (· ≠ '/')).reverse

/-- `file_stem` and `extension` -/
def splitName (name : Text) : Text × Option Text :=
  let ext := (name.reverse.takeWhile (· ≠ '.')).reverse
  let stem := name.take (name.length - ext.length - 1)
  if ext.length = name.length ∨ stem = [] then (name, none) else (stem, some ext)

def stemOf (path : Path) : Text := (splitName (lastPart path)).1

/-- `to_ascii_lowercase` of the extension, empty when there is none -/
def extensionOf (path : Path) : Text := ((splitName (lastPart path)).2.getD []).map Char.toLower

/-- `char::is_whitespace` -/
def isWhitespace (c : Char) : Bool :=
  (0x09 ≤ c.toNat && c.toNat ≤ 0x0D) || (0x2000 ≤ c.toNat && c.toNat ≤ 0x200A) ||
    c.toNat ∈ [0x20, 0x85, 0xA0, 0x1680, 0x2028, 0x2029, 0x202F, 0x205F, 0x3000]

def trim (t : Text) : Text := ((t.dropWhile isWhitespace).reverse.dropWhile isWhitespace).reverse

/-- `trim_end_matches(".md")` on the reversed text: every trailing `.md` goes -/
def dropMd : Text → Text
  | 'd' :: 'm' :: '.' :: t => dropMd t
  | t => t

def trimEndMd (t : Text) : Text := (dropMd t.reverse).reverse

/-! ## Parsing -/

/-- a parsed frontmatter block as far as it is read -/
structure Frontmatter where
  json : Text
  /-- `get("title").as_str()` -/
  title : Option Text
  /-- `get("tags")`: the strings of a list, or one string -/
  tags : List Text ⊕ Text
  deriving DecidableEq

/-- one match of `WIKILINK_RE`: its byte range and the text between the brackets -/
structure Capture where
  start : ℕ
  stop : ℕ
  inner : Text
  deriving DecidableEq

structure ParsedLink where
  target : Text
  raw : Text
  position : ℕ
  deriving DecidableEq

structure ParsedNote where
  title : Text
  tags : Finset Text
  links : List ParsedLink
  frontmatterJson : Option Text
  body : Text
  deriving DecidableEq

structure Crates (Sha : Type*) where
  nfc : Text → Text
  toLowercase : Text → Text
  sha256 : Text → Sha
  /-- `serde_yaml`: a value that is not null -/
  yaml : Text → Option Frontmatter
  /-- the capture of `H1_RE` -/
  h1 : Text → Option Text
  /-- the captures of `TAG_RE` -/
  inlineTags : Text → List Text
  wikilinks : Text → List Capture
  literalMask : Text → List Bool
  stripHtmlTags : Text → Text

def MAX_FRONTMATTER_BYTES : ℕ := 64 * 1024

def MAX_FRONTMATTER_SIGILS : ℕ := 32

def MAX_INDEX_BYTES : ℕ := 10 * 1024 * 1024

/-- the loop over the `---` of what follows the opening fence; `before` is what has been passed, reversed -/
def closingFence (before : Text) : Text → Option (Text × Text)
  | '-' :: '-' :: '-' :: after =>
    if (before = [] ∨ before.head? = some '\n') ∧ (after = [] ∨ after.head? = some '\n' ∨ after.head? = some '\r') then
      some (before.reverse, after.dropWhile fun c => c = '\r' || c = '\n')
    else closingFence ('-' :: '-' :: '-' :: before) after
  | c :: rest => closingFence (c :: before) rest
  | [] => none

def splitFrontmatter (content : Text) : Option Text × Text :=
  let closed := match content with
    | '-' :: '-' :: '-' :: '\n' :: rest => closingFence [] rest
    | '-' :: '-' :: '-' :: '\r' :: '\n' :: rest => closingFence [] rest
    | _ => none
  match closed with
  | some (yaml, body) => (some yaml, body)
  | none => (none, content)

section

variable {Sha : Type*} (C : Crates Sha)

def linkKey (t : Text) : Text := C.toLowercase (C.nfc t)

def frontmatterToJson (yaml : Text) : Option Frontmatter :=
  if trim yaml = [] then none
  else if MAX_FRONTMATTER_BYTES < utf8Len yaml then none
  else if MAX_FRONTMATTER_SIGILS < yaml.countP (fun c => c = '&' || c = '*') then none
  else C.yaml yaml

/-- `push_tag` -/
def pushTag (raw : Text) : Option Text :=
  let tag := (trim raw).dropWhile (· = '#')
  if tag = [] then none else some tag

def frontmatterTags (fm : Frontmatter) : List Text := match fm.tags with
  | .inl tags => tags.filterMap pushTag
  | .inr tags => (tags.splitOnP fun c => c = ',' || c = ' ').filterMap pushTag

def deriveTitle (fm : Option Frontmatter) (body stem : Text) : Text :=
  match fm.bind Frontmatter.title with
  | some title => if trim title = [] then heading else trim title
  | none => heading
where
  heading : Text := match C.h1 body with
    | some h => trim h
    | none => stem

/-- the text before any alias and any heading -/
def beforeAlias (raw : Text) : Text := trim ((raw.takeWhile (· ≠ '|')).takeWhile (· ≠ '#'))

def parseLink (offset : ℕ) (literals : List Bool) (cap : Capture) : Option ParsedLink :=
  if ((literals.drop cap.start).take (cap.stop - cap.start)).any id then none
  else if beforeAlias (trim cap.inner) = [] then none
  else some ⟨beforeAlias (trim cap.inner), trim cap.inner, offset + cap.start⟩

def parseNote (content stem : Text) : ParsedNote :=
  let body := (splitFrontmatter content).2
  let fm := (splitFrontmatter content).1.bind (frontmatterToJson C)
  { title := deriveTitle C fm body stem
    tags := ((fm.map frontmatterTags).getD [] ++ C.inlineTags body).toFinset
    links := (C.wikilinks body).filterMap (parseLink (utf8Len content - utf8Len body) (C.literalMask body))
    frontmatterJson := fm.map Frontmatter.json
    body := body }

def parsePlain (content stem : Text) : ParsedNote := ⟨stem, ∅, [], none, content⟩

def parseHtml (content stem : Text) : ParsedNote := ⟨stem, ∅, [], none, C.stripHtmlTags content⟩

def parseFor (path : Path) (content : Text) : ParsedNote :=
  if extensionOf path ∈ ["md".toList, "markdown".toList, "mdx".toList] then parseNote C content (stemOf path)
  else if extensionOf path ∈ ["html".toList, "htm".toList] then parseHtml C content (stemOf path)
  else parsePlain content (stemOf path)

end

/-! ## SQL's `LIKE` -/

/-- `path LIKE pattern`: `%` is any text, `_` any character, and ASCII letters match in either case -/
def like : Text → Text → Bool
  | [], t => t.isEmpty
  | '%' :: p, t => (range (t.length + 1)).any fun n => like p (t.drop n)
  | '_' :: p, _ :: t => like p t
  | c :: p, d :: t => c.toLower == d.toLower && like p t
  | _ :: _, [] => false

/-- `path LIKE (rel || '/') || '%'`, the rows taken for those below a folder -/
def likeBelow (rel path : Path) : Bool := like (rel ++ ['/', '%']) path

/-- the path lies below the folder -/
def Below (rel path : Path) : Prop := rel ++ ['/'] <+: path

instance (rel path : Path) : Decidable (Below rel path) := inferInstanceAs (Decidable (_ <+: _))

/-- a pattern matches its own text, wildcards included, and what follows it -/
theorem like_self (p t : Text) : like (p ++ ['%']) (p ++ t) = true := by
  induction p with
  | nil =>
    simp only [nil_append, like, any_eq_true]
    exact ⟨t.length, mem_range.mpr (Nat.lt_succ_self _), by simp⟩
  | cons c p ih =>
    by_cases hmany : c = '%'
    · subst hmany
      simp only [cons_append, like, any_eq_true]
      exact ⟨1, mem_range.mpr (by simp), by simpa using ih⟩
    · by_cases hone : c = '_'
      · subst hone
        simpa only [cons_append, like] using ih
      · simp [like, ih]

/-- so the rows below a folder are among those taken -/
theorem likeBelow_of_below {rel path : Path} (h : Below rel path) : likeBelow rel path = true := by
  obtain ⟨rest, rfl⟩ := h
  have hsplit : rel ++ ['/', '%'] = (rel ++ ['/']) ++ ['%'] := by simp
  rw [likeBelow, hsplit]
  exact like_self _ _

end Baalda.NoteIndex
