/-
One line of a public note (`renderInline` and `relAssetPath` in render/note-html.ts), over text that is escaped already.

Code spans, wikilinks, images and links are lifted out one kind after the other (`keepAll`): what they become goes to
the stash, and a placeholder, its number between two NULs, stands in the text. Bold, italic and struck text gets its
tags, and a single pass puts the stash back. A text is its code points.

`renderInline_html`: what comes out is text without markup and the module's own tags. `placeholders_restored_iff`: every
fragment comes back, once, exactly if none is lifted out with another one inside it.
-/
import Baalda.Lib.Rewrite
import Mathlib.Data.List.DropRight
import Baalda.Lib.Slots

namespace Baalda.NoteInline

open Rewrite List Option

/-! ## Model -/

abbrev Text := List Char

local instance : LawfulBEq Text := inferInstance

/-- `\s`, which is also what `trim` takes off -/
def isSpace (c : Char) : Bool :=
  [0x9, 0xa, 0xb, 0xc, 0xd, 0x20, 0xa0, 0x1680, 0x2028, 0x2029, 0x202f, 0x205f, 0x3000, 0xfeff].contains c.toNat ||
    (0x2000 ≤ c.toNat && c.toNat ≤ 0x200a)

def isDigit (c : Char) : Bool := '0' ≤ c && c ≤ '9'

def isLetter (c : Char) : Bool := ('a' ≤ c && c ≤ 'z') || ('A' ≤ c && c ≤ 'Z')

/-- `\w` -/
def isWord (c : Char) : Bool := isLetter c || isDigit c || c = '_'

def trimStart (s : Text) : Text := s.dropWhile isSpace

def trim (s : Text) : Text := (trimStart s).rdropWhile isSpace

def nul : Char := '\x00'

/-- what has a meaning in HTML besides `&` -/
def isMarkup (c : Char) : Bool := c = '<' || c = '>' || c = '"' || c = '\''

def esc (s : Text) : Text :=
  s.flatMap fun c => if c = '&' || isMarkup c then ['&', '#'] ++ Nat.toDigits 10 c.toNat ++ [';'] else [c]

/-- `/^[a-zA-Z][a-zA-Z0-9+.-]*:/` -/
def hasScheme (s : Text) : Bool :=
  s.head?.any isLetter &&
    (s.dropWhile fun c => isLetter c || isDigit c || c = '+' || c = '.' || c = '-').head? = some ':'

def relAssetPath (src : Text) : Option Text :=
  let s := trim src
  let s := if s.head? = some '/' then s.tail else s
  if s = [] || '\\' ∈ s || s.head? = some '/' then none
  else if hasScheme s then none
  else if (s.splitOn '/').any fun seg => seg = [] || seg = ['.'] || seg = ['.', '.'] then none
  else some s

/-- `SAFE_LINK_RE`: `/^(https?:\/\/|mailto:)/i` -/
def isSafeLink (url : Text) : Bool :=
  let low := url.map Char.toLower
  "http://".toList.isPrefixOf low || "https://".toList.isPrefixOf low || "mailto:".toList.isPrefixOf low

/-! ### Tags -/

inductive Tag where
  | opening (name : Text)
  | closing (name : Text)
  | single (name : Text)
  | wikilink
  | image (src alt : Text)
  | link (href : Text)
  /-- a cell of a table that is not aligned left -/
  | cell (name align : Text)
  | tableBox

def Tag.text : Tag → Text
  | opening name => '<' :: (name ++ ['>'])
  | closing name => '<' :: '/' :: (name ++ ['>'])
  | single name => '<' :: (name ++ " />".toList)
  | wikilink => "<span class=\"wikilink\">".toList
  | image src alt => "<img src=\"".toList ++ src ++ "\" alt=\"".toList ++ alt ++ "\" loading=\"lazy\" />".toList
  | link href => "<a href=\"".toList ++ href ++ "\" rel=\"noopener noreferrer\" target=\"_blank\">".toList
  | cell name align => '<' :: (name ++ " style=\"text-align:".toList ++ align ++ "\">".toList)
  | tableBox => "<div class=\"md-table\">".toList

/-- text in an element without attributes -/
def inElement (name s : Text) : Text := (Tag.opening name).text ++ s ++ (Tag.closing name).text

/-! ### What matches -/

/-- a run of characters between two delimiters -/
def delimited (opening closing : Text) (cls : Char → Bool) (text : Text) : Option Text :=
  if opening <+: text then
    let rest := text.drop opening.length
    let inner := rest.takeWhile cls
    if inner ≠ [] ∧ closing <+: rest.drop inner.length then some inner else none
  else none

/-- `[label](target title)` after the opening bracket -/
structure Bracketed where
  label : Text
  target : Text
  title : Text

def Bracketed.source (b : Bracketed) : Text := b.label ++ "](".toList ++ b.target ++ b.title ++ [')']

/-- `([^\]\n]*)\]\(([^)\s]+)(?:\s+[^)]*)?\)` behind `opening` -/
def bracketed (opening text : Text) : Option Bracketed :=
  if opening <+: text then
    let rest := text.drop opening.length
    let label := rest.takeWhile fun c => c ≠ ']' ∧ c ≠ '\n'
    let rest := rest.drop label.length
    if "](".toList <+: rest then
      let rest := rest.drop 2
      let target := rest.takeWhile fun c => c ≠ ')' ∧ isSpace c = false
      let rest := rest.drop target.length
      let title := rest.takeWhile fun c => c ≠ ')'
      if target ≠ [] ∧ [')'] <+: rest.drop title.length then some ⟨label, target, title⟩ else none
    else none
  else none

section

variable {opening closing text inner : Text} {cls : Char → Bool}

theorem takeWhile_append_drop (p : Char → Bool) (s : Text) : s.takeWhile p ++ s.drop (s.takeWhile p).length = s := by
  conv_lhs =>
    enter [2, 2]
    rw [← takeWhile_append_dropWhile (p := p) (l := s)]
  rw [drop_left, takeWhile_append_dropWhile]

theorem delimited_eq (h : delimited opening closing cls text = some inner) :
    (opening ++ inner ++ closing <+: text) ∧ inner ≠ [] ∧ ∀ c ∈ inner, cls c = true := by
  unfold delimited at h
  split at h
  next hopening =>
    dsimp only at h
    split at h
    next hinner =>
      cases h
      obtain ⟨hne, rest, hrest⟩ := hinner
      refine ⟨⟨rest, ?_⟩, hne, fun c hc => mem_takeWhile_imp hc⟩
      have hsplit := prefix_iff_eq_append.1 hopening
      rw [append_assoc, append_assoc, hrest, takeWhile_append_drop, hsplit]
    next => cases h
  next => cases h

theorem bracketed_eq {b : Bracketed} (h : bracketed opening text = some b) : opening ++ b.source <+: text := by
  unfold bracketed at h
  split at h
  next hopening =>
    obtain ⟨rest, rfl⟩ := hopening
    rw [drop_left] at h
    dsimp only at h
    split at h
    next hlabel =>
      obtain ⟨rest₁, hrest₁⟩ := hlabel
      have hlabelled := takeWhile_append_drop (fun c => c ≠ ']' ∧ c ≠ '\n') rest
      have hopened : ("](".toList ++ rest₁).drop 2 = rest₁ := rfl
      rw [← hrest₁, hopened] at h
      split at h
      next htarget =>
        cases h
        obtain ⟨_, rest₂, hrest₂⟩ := htarget
        have htitled := takeWhile_append_drop (fun c => c ≠ ')')
          (rest₁.drop (rest₁.takeWhile fun c => c ≠ ')' ∧ isSpace c = false).length)
        have htargeted := takeWhile_append_drop (fun c => c ≠ ')' ∧ isSpace c = false) rest₁
        rw [← hrest₂, ← append_assoc] at htitled
        rw [← htitled] at htargeted
        rw [← hrest₁, ← htargeted] at hlabelled
        refine (prefix_append_right_inj opening).2 ⟨rest₂, ?_⟩
        unfold Bracketed.source
        simpa only [append_assoc] using hlabelled
      next => cases h
    next => cases h
  next => cases h

end

/-! ### The constructs that are lifted out -/

/-- a match, and what it becomes; `none`: the match is put back -/
abbrev Lifter := Finder Char (Option Text)

section

variable {first : Bool} {text taken : Text}

/-- one delimited construct -/
def findDelimited {β : Type*} (opening closing : Text) (cls : Char → Bool) (meaning : Text → β) (text : Text) :
    Option (Text × β) :=
  (delimited opening closing cls text).map fun inner => (opening ++ inner ++ closing, meaning inner)

theorem findDelimited_eq {β : Type*} {opening closing : Text} {cls : Char → Bool} {meaning : Text → β} {b : β}
    (h : findDelimited opening closing cls meaning text = some (taken, b)) :
    ∃ inner, taken = opening ++ inner ++ closing ∧ b = meaning inner ∧ inner ≠ [] ∧ (∀ c ∈ inner, cls c = true) ∧
      taken <+: text := by
  obtain ⟨inner, hinner, heq⟩ := map_eq_some_iff.1 h
  cases heq
  obtain ⟨hstart, hne, hcls⟩ := delimited_eq hinner
  exact ⟨inner, rfl, rfl, hne, hcls, hstart⟩

def delimitedFinder {β : Type*} (opening closing : Text) (cls : Char → Bool) (meaning : Text → β) : Finder Char β where
  find _ text := findDelimited opening closing cls meaning text
  nonempty h := by
    obtain ⟨inner, rfl, _, hne, _⟩ := findDelimited_eq h
    simp [hne]
  isPrefix h := by
    obtain ⟨_, _, _, _, _, hstart⟩ := findDelimited_eq h
    exact hstart

/-- `/`([^`\n]+)`/` -/
def codeSpan : Lifter :=
  delimitedFinder ['`'] ['`'] (fun c => c ≠ '`' ∧ c ≠ '\n') fun code => some (inElement "code".toList code)

def wikilinkLabel (inner : Text) : Text :=
  let label := trim ((inner.splitOn '|').getLastD [])
  if label = [] then trim inner else label

def wikilinkHtml (inner : Text) : Option Text :=
  some (Tag.wikilink.text ++ wikilinkLabel inner ++ (Tag.closing "span".toList).text)

def isWikilinkChar (c : Char) : Bool := c ≠ '[' ∧ c ≠ ']' ∧ c ≠ '\n'

/-- `/!?\[\[([^\[\]\n]+)\]\]/` -/
def findWikilink (text : Text) : Option (Text × Option Text) :=
  (findDelimited "![[".toList "]]".toList isWikilinkChar wikilinkHtml text).or
    (findDelimited "[[".toList "]]".toList isWikilinkChar wikilinkHtml text)

theorem findWikilink_eq {b : Option Text} (h : findWikilink text = some (taken, b)) :
    ∃ opening inner, (opening = "![[".toList ∨ opening = "[[".toList) ∧ taken = opening ++ inner ++ "]]".toList ∧
      b = wikilinkHtml inner ∧ taken <+: text := by
  rcases or_eq_some_iff.1 h with hfind | ⟨_, hfind⟩
  · obtain ⟨inner, htaken, hb, _, _, hstart⟩ := findDelimited_eq hfind
    exact ⟨_, inner, .inl rfl, htaken, hb, hstart⟩
  · obtain ⟨inner, htaken, hb, _, _, hstart⟩ := findDelimited_eq hfind
    exact ⟨_, inner, .inr rfl, htaken, hb, hstart⟩

def wikilink : Lifter where
  find _ text := findWikilink text
  nonempty h := by
    obtain ⟨_, _, _, rfl, _⟩ := findWikilink_eq h
    simp
  isPrefix h := by
    obtain ⟨_, _, _, _, _, hstart⟩ := findWikilink_eq h
    exact hstart

def linkTo (href label : Text) : Text := (Tag.link href).text ++ label ++ (Tag.closing "a".toList).text

/-- an image of the vault, or a link to one outside -/
def imageHtml (assetUrl : Text → Option Text) (b : Bracketed) : Option Text :=
  match relAssetPath b.target with
  | some rel => match assetUrl rel with
    | some url => if url = [] then none else some (Tag.image (esc url) b.label).text
    | none => none
  | none => if isSafeLink b.target then some (linkTo b.target (if b.label = [] then b.target else b.label)) else none

def linkHtml (b : Bracketed) : Option Text := if isSafeLink b.target then some (linkTo b.target b.label) else none

def findBracketed (opening : Text) (accepts : Bracketed → Bool) (html : Bracketed → Option Text) (text : Text) :
    Option (Text × Option Text) :=
  ((bracketed opening text).filter accepts).map fun b => (opening ++ b.source, html b)

theorem findBracketed_eq {opening : Text} {accepts : Bracketed → Bool} {html : Bracketed → Option Text}
    {h : Option Text} (hfind : findBracketed opening accepts html text = some (taken, h)) :
    ∃ b : Bracketed, taken = opening ++ b.source ∧ h = html b ∧ taken <+: text := by
  obtain ⟨b, hb, heq⟩ := map_eq_some_iff.1 hfind
  cases heq
  exact ⟨b, rfl, rfl, bracketed_eq (eq_some_of_filter_eq_some hb)⟩

def bracketedFinder (opening : Text) (accepts : Bracketed → Bool) (html : Bracketed → Option Text) : Lifter where
  find _ text := findBracketed opening accepts html text
  nonempty h := by
    obtain ⟨b, rfl, _⟩ := findBracketed_eq h
    simp [Bracketed.source]
  isPrefix h := by
    obtain ⟨_, _, _, hstart⟩ := findBracketed_eq h
    exact hstart

/-- `/!\[([^\]\n]*)\]\(([^)\s]+)(?:\s+[^)]*)?\)/` -/
def image (assetUrl : Text → Option Text) : Lifter :=
  bracketedFinder "![".toList (fun _ => true) (imageHtml assetUrl)

/-- `/\[([^\]\n]+)\]\(([^)\s]+)(?:\s+[^)]*)?\)/` -/
def link : Lifter := bracketedFinder "[".toList (fun b => b.label ≠ []) linkHtml

/-! ### Stash and emphasis -/

def placeholder (n : ℕ) : Text := nul :: (Nat.toDigits 10 n ++ [nul])

/-- one pass: what is lifted out goes to the stash -/
def keepAll : List Text → List (Segment Char (Option Text)) → List Text × Text
  | stash, [] => (stash, [])
  | stash, .char c :: segs =>
    let r := keepAll stash segs
    (r.1, c :: r.2)
  | stash, .hit taken none :: segs =>
    let r := keepAll stash segs
    (r.1, taken ++ r.2)
  | stash, .hit _ (some html) :: segs =>
    let r := keepAll (stash ++ [html]) segs
    (r.1, placeholder stash.length ++ r.2)

variable (assetUrl : Text → Option Text) (escaped : Text)

def afterCode : List Text × Text := keepAll [] (codeSpan.segments escaped)

def afterWikilinks : List Text × Text :=
  keepAll (afterCode escaped).1 (wikilink.segments (afterCode escaped).2)

def afterImages : List Text × Text :=
  keepAll (afterWikilinks escaped).1 ((image assetUrl).segments (afterWikilinks escaped).2)

/-- the stash, and the text with its placeholders -/
def lifted : List Text × Text :=
  keepAll (afterImages assetUrl escaped).1 (link.segments (afterImages assetUrl escaped).2)

/-- what stands before the delimiter, and what is between the two -/
abbrev Emphasis := Finder Char (Text × Text)

/-- `/dd([^d\n]+)dd/` -/
def emphasis (d : Text) (c : Char) : Emphasis :=
  delimitedFinder d d (fun x => x ≠ c ∧ x ≠ '\n') fun inner => ([], inner)

/-- `_([^_\n]+)_(?=\W|$)` after what the group before it matched -/
def underscoredAfter (pre rest : Text) : Option (Text × Text × Text) :=
  (delimited ['_'] ['_'] (fun c => c ≠ '_' ∧ c ≠ '\n') rest).bind fun inner =>
    if (rest.drop (inner.length + 2)).head?.all fun c => !isWord c then
      some (pre ++ ['_'] ++ inner ++ ['_'], pre, inner)
    else none

/-- `/(^|\W)_([^_\n]+)_(?=\W|$)/` -/
def findUnderscored (first : Bool) : Text → Option (Text × Text × Text)
  | [] => none
  | c :: rest =>
    if first && c = '_' then underscoredAfter [] (c :: rest)
    else if isWord c then none
    else underscoredAfter [c] rest

theorem underscoredAfter_eq {pre rest p inner : Text} (h : underscoredAfter pre rest = some (taken, p, inner)) :
    p = pre ∧ taken = pre ++ ['_'] ++ inner ++ ['_'] ∧ taken <+: pre ++ rest := by
  obtain ⟨inner', hinner, h⟩ := bind_eq_some_iff.1 h
  split at h
  next =>
    obtain ⟨rfl, hrest⟩ := Prod.mk.inj (some.inj h)
    cases hrest
    refine ⟨rfl, rfl, ?_⟩
    rw [append_assoc, append_assoc, prefix_append_right_inj, ← append_assoc]
    exact (delimited_eq hinner).1
  next => cases h

theorem findUnderscored_eq {pre inner : Text} (h : findUnderscored first text = some (taken, pre, inner)) :
    taken = pre ++ ['_'] ++ inner ++ ['_'] ∧ taken <+: text := by
  unfold findUnderscored at h
  split at h
  next => cases h
  next c rest =>
    split at h
    next =>
      obtain ⟨rfl, htaken, hstart⟩ := underscoredAfter_eq h
      exact ⟨htaken, hstart⟩
    next =>
      split at h
      next => cases h
      next =>
        obtain ⟨rfl, htaken, hstart⟩ := underscoredAfter_eq h
        exact ⟨htaken, hstart⟩

def underscored : Emphasis where
  find first text := findUnderscored first text
  nonempty {first text taken b} h := by
    obtain ⟨pre, inner⟩ := b
    rw [(findUnderscored_eq h).1]
    simp
  isPrefix {first text taken b} h := by
    obtain ⟨pre, inner⟩ := b
    exact (findUnderscored_eq h).2

/-- `"$1<tag>$2</tag>"` -/
def wrap (tag : Text) : Segment Char (Text × Text) → Text
  | .char c => [c]
  | .hit _ (pre, inner) => pre ++ (Tag.opening tag).text ++ inner ++ (Tag.closing tag).text

def wrapAll (F : Emphasis) (tag s : Text) : Text := (F.segments s).flatMap (wrap tag)

def emphasize (s : Text) : Text :=
  let s := wrapAll (emphasis "**".toList '*') "strong".toList s
  let s := wrapAll (emphasis "__".toList '_') "strong".toList s
  let s := wrapAll (emphasis "*".toList '*') "em".toList s
  let s := wrapAll underscored "em".toList s
  wrapAll (emphasis "~~".toList '~') "del".toList s

/-- `/\u0000(\d+)\u0000/` -/
def placeholders : Finder Char ℕ := delimitedFinder [nul] [nul] isDigit fun ds => Nat.ofDigitChars 10 ds 0

def putBack (stash : List Text) : Segment Char ℕ → Text
  | .char c => [c]
  | .hit _ n => stash.getD n []

def restore (stash : List Text) (s : Text) : Text := (placeholders.segments s).flatMap (putBack stash)

def renderInline : Text := restore (lifted assetUrl escaped).1 (emphasize (lifted assetUrl escaped).2)

end

/-! ## What may come out -/

section

variable {assetUrl : Text → Option Text} {s t : Text} {tag : Tag}

/-- without what has a meaning in HTML -/
def Clean (s : Text) : Prop := ∀ c ∈ s, isMarkup c = false

def elements : List Text :=
  ["code", "strong", "em", "del", "h1", "h2", "h3", "h4", "h5", "h6", "p", "blockquote", "pre", "ul", "ol", "li",
    "table", "thead", "tbody", "tr", "th", "td"].map String.toList

/-- a tag of the module: its attributes end where they are written to, an address is safe, a source was given for a path
of the vault -/
def Tag.Own (assetUrl : Text → Option Text) : Tag → Prop
  | opening name => name ∈ elements
  | closing name => name ∈ elements ∨ name = "span".toList ∨ name = "a".toList ∨ name = "div".toList
  | single name => name = "br".toList ∨ name = "hr".toList
  | wikilink => True
  | image src alt => Clean src ∧ Clean alt ∧
      ∃ path rel url, relAssetPath path = some rel ∧ assetUrl rel = some url ∧ src = esc url
  | link href => Clean href ∧ isSafeLink href = true
  | cell name align => (name = "th".toList ∨ name = "td".toList) ∧ (align = "center".toList ∨ align = "right".toList)
  | tableBox => True

/-- text without markup, and own tags -/
inductive Html (assetUrl : Text → Option Text) : Text → Prop where
  | nil : Html assetUrl []
  | char {c : Char} {s : Text} (hc : isMarkup c = false) (hs : Html assetUrl s) : Html assetUrl (c :: s)
  | tag {tag : Tag} {s : Text} (htag : tag.Own assetUrl) (hs : Html assetUrl s) : Html assetUrl (tag.text ++ s)

theorem Html.append (hs : Html assetUrl s) (ht : Html assetUrl t) : Html assetUrl (s ++ t) := by
  induction hs with
  | nil => exact ht
  | char hc _ ih => exact .char hc ih
  | tag htag _ ih =>
    rw [append_assoc]
    exact .tag htag ih

theorem html_of_clean (h : Clean s) : Html assetUrl s := by
  induction s with
  | nil => exact .nil
  | cons c s ih => exact .char (h c mem_cons_self) (ih fun d hd => h d (mem_cons_of_mem c hd))

theorem html_tag (h : tag.Own assetUrl) : Html assetUrl tag.text := by
  rw [← append_nil tag.text]
  exact .tag h .nil

theorem html_flatten {parts : List Text} (h : ∀ p ∈ parts, Html assetUrl p) : Html assetUrl parts.flatten := by
  induction parts with
  | nil => exact .nil
  | cons p parts ih =>
    exact (h p mem_cons_self).append (ih fun q hq => h q (mem_cons_of_mem p hq))

theorem html_inElement {name : Text} (hname : name ∈ elements) (h : Html assetUrl s) :
    Html assetUrl (inElement name s) := by
  have hopening : (Tag.opening name).Own assetUrl := hname
  have hclosing : (Tag.closing name).Own assetUrl := .inl hname
  exact ((html_tag hopening).append h).append (html_tag hclosing)

theorem Clean.append (hs : Clean s) (ht : Clean t) : Clean (s ++ t) := fun c hc =>
  (mem_append.1 hc).elim (hs c) (ht c)

theorem Clean.of_subset (h : Clean s) (hsub : t ⊆ s) : Clean t := fun c hc => h c (hsub hc)

variable {c : Char}

theorem isDigit_iff : isDigit c = true ↔ 48 ≤ c.toNat ∧ c.toNat ≤ 57 := by
  unfold isDigit
  rw [Bool.and_eq_true, decide_eq_true_eq, decide_eq_true_eq, Char.le_def, Char.le_def, UInt32.le_iff_toNat_le,
    UInt32.le_iff_toNat_le]
  rfl

theorem isMarkup_of_isDigit (h : isDigit c = true) : isMarkup c = false := by
  rw [Bool.eq_false_iff]
  intro hmarkup
  simp only [isMarkup, Bool.or_eq_true, decide_eq_true_eq] at hmarkup
  rcases hmarkup with ((rfl | rfl) | rfl) | rfl <;> exact absurd h (by decide)

theorem isDigit_of_toDigits {n : ℕ} (h : c ∈ Nat.toDigits 10 n) : isDigit c = true := by
  have hdigit := Nat.isDigit_of_mem_toDigits (by norm_num) le_rfl h
  rw [Char.isDigit, Bool.and_eq_true, decide_eq_true_eq, decide_eq_true_eq, ge_iff_le, UInt32.le_iff_toNat_le,
    UInt32.le_iff_toNat_le] at hdigit
  exact isDigit_iff.2 hdigit

theorem clean_digits (n : ℕ) : Clean (Nat.toDigits 10 n) := fun _ hc => isMarkup_of_isDigit (isDigit_of_toDigits hc)

/-- what is escaped has no markup left -/
theorem clean_esc (s : Text) : Clean (esc s) := by
  intro c hc
  obtain ⟨x, _, hx⟩ := mem_flatMap.1 hc
  split at hx
  next =>
    rcases mem_snoc.1 hx with hfront | hlast
    · rcases mem_append.1 hfront with hstart | hdigits
      · rcases mem_pair.1 hstart with rfl | rfl <;> rfl
      · exact clean_digits _ c hdigits
    · rw [hlast]
      rfl
  next hplain =>
    obtain rfl := mem_singleton.1 hx
    rw [Bool.or_eq_true, not_or] at hplain
    exact Bool.eq_false_iff.2 hplain.2

theorem Clean.lt_notMem (h : Clean s) : '<' ∉ s := fun hmem => absurd (h '<' hmem) (by decide)

theorem lt_notMem_of_elements {name : Text} (h : name ∈ elements) : '<' ∉ name := by
  have hall : elements.all fun name => !name.contains '<' := by decide +kernel
  simpa using all_eq_true.1 hall name h

/-- a tag of the module has one `<` -/
theorem Tag.Own.text_eq (h : tag.Own assetUrl) : ∃ body, tag.text = '<' :: body ∧ '<' ∉ body := by
  cases tag with
  | opening name =>
    refine ⟨_, rfl, ?_⟩
    simp [lt_notMem_of_elements h]
  | closing name =>
    have hname : '<' ∉ name := by
      rcases h with h | rfl | rfl | rfl
      · exact lt_notMem_of_elements h
      · decide
      · decide
      · decide
    exact ⟨_, rfl, by simp [hname]⟩
  | single name =>
    have hname : '<' ∉ name := by rcases h with rfl | rfl <;> decide
    exact ⟨_, rfl, by simp [hname]⟩
  | wikilink => exact ⟨"span class=\"wikilink\">".toList, rfl, by decide⟩
  | image src alt =>
    refine ⟨"img src=\"".toList ++ src ++ "\" alt=\"".toList ++ alt ++ "\" loading=\"lazy\" />".toList, rfl, ?_⟩
    simp [h.1.lt_notMem, h.2.1.lt_notMem]
  | link href =>
    refine ⟨"a href=\"".toList ++ href ++ "\" rel=\"noopener noreferrer\" target=\"_blank\">".toList, rfl, ?_⟩
    simp [h.1.lt_notMem]
  | cell name align =>
    have hname : '<' ∉ name := by rcases h.1 with rfl | rfl <;> decide
    have halign : '<' ∉ align := by rcases h.2 with rfl | rfl <;> decide
    exact ⟨_, rfl, by simp [hname, halign]⟩
  | tableBox => exact ⟨"div class=\"md-table\">".toList, rfl, by decide⟩

/-- **Every `<` starts a tag.** In what comes out a `<` is the first character of one of the module's own tags. -/
theorem Html.tag_of_lt (h : Html assetUrl s) {pre post : Text} (hs : s = pre ++ '<' :: post) :
    ∃ tag : Tag, tag.Own assetUrl ∧ tag.text <+: '<' :: post := by
  induction h generalizing pre with
  | nil => simp at hs
  | char hc _ ih =>
    cases pre with
    | nil =>
      obtain ⟨rfl, _⟩ := cons.inj hs
      exact absurd hc (by decide)
    | cons d pre => exact ih (cons.inj hs).2
  | @tag tag s htag _ ih =>
    obtain ⟨body, htext, hbody⟩ := htag.text_eq
    cases pre with
    | nil =>
      exact ⟨tag, htag, s, hs⟩
    | cons d pre =>
      rw [htext, cons_append, cons_append] at hs
      rcases append_eq_append_iff.1 (cons.inj hs).2 with ⟨more, _, hrest⟩ | ⟨more, hfront, hrest⟩
      · exact ih hrest
      · cases more with
        | nil => exact @ih [] hrest.symm
        | cons x more =>
          obtain ⟨rfl, _⟩ := cons.inj hrest
          exact absurd (hfront ▸ mem_append_right pre mem_cons_self) hbody

/-! ### What is lifted out -/

variable {stash : List Text} {taken : Text} {html : Text}

theorem trim_subset (s : Text) : trim s ⊆ s := fun _ hc =>
  (dropWhile_sublist _).subset (( rdropWhile_prefix _ _).subset hc)

theorem mem_intercalate {sep p : Text} {ps : List Text} (hp : p ∈ ps) (hc : c ∈ p) : c ∈ sep.intercalate ps := by
  induction ps with
  | nil => exact absurd hp not_mem_nil
  | cons q ps ih =>
    cases ps with
    | nil =>
      rw [mem_singleton.1 hp] at hc
      rwa [intercalate_singleton]
    | cons q' ps =>
      rw [intercalate_cons_cons, mem_append]
      rcases mem_cons.1 hp with rfl | hp
      · exact .inl (mem_append_left sep hc)
      · exact .inr (ih hp)

/-- a piece of a text is of its characters -/
theorem mem_of_splitOn {sep : Char} {s p : Text} (hp : p ∈ s.splitOn sep) : p ⊆ s := by
  intro c hc
  have hin : c ∈ [sep].intercalate (s.splitOn sep) := mem_intercalate hp hc
  rwa [intercalate_splitOn] at hin

theorem wikilinkLabel_subset (inner : Text) : wikilinkLabel inner ⊆ inner := by
  unfold wikilinkLabel
  dsimp only
  split
  next => exact trim_subset inner
  next =>
    have hne : inner.splitOn '|' ≠ [] := splitOn_ne_nil _ _
    have hlast : (inner.splitOn '|').getLastD [] ⊆ inner := by
      rw [getLastD_eq_getLast?, getLast?_eq_some_getLast hne, getD_some]
      exact mem_of_splitOn (getLast_mem hne)
    exact Subset.trans (trim_subset _) hlast

/-- what a lifter makes of text without markup -/
def Lifts (assetUrl : Text → Option Text) (F : Lifter) : Prop :=
  ∀ {first text taken html}, F.find first text = some (taken, some html) → Clean taken → Html assetUrl html

theorem lifts_codeSpan : Lifts assetUrl codeSpan := by
  intro first text taken html h hclean
  obtain ⟨inner, rfl, hb, _⟩ := findDelimited_eq h
  cases hb
  have hinner : Clean inner := hclean.of_subset fun c hc => by simp [hc]
  exact html_inElement (by decide) (html_of_clean hinner)

theorem lifts_wikilink : Lifts assetUrl wikilink := by
  intro first text taken html h hclean
  obtain ⟨opening, inner, _, rfl, hb, _⟩ := findWikilink_eq h
  cases hb
  have hinner : Clean inner := hclean.of_subset fun c hc => by simp [hc]
  have hlabel : Clean (wikilinkLabel inner) := hinner.of_subset (wikilinkLabel_subset inner)
  have hopening : Tag.wikilink.Own assetUrl := trivial
  have hclosing : (Tag.closing "span".toList).Own assetUrl := .inr (.inl rfl)
  exact ((html_tag hopening).append (html_of_clean hlabel)).append (html_tag hclosing)

theorem html_linkTo {href label : Text} (hsafe : isSafeLink href = true) (hhref : Clean href) (hlabel : Clean label) :
    Html assetUrl (linkTo href label) := by
  have hopening : (Tag.link href).Own assetUrl := ⟨hhref, hsafe⟩
  have hclosing : (Tag.closing "a".toList).Own assetUrl := .inr (.inr (.inl rfl))
  exact ((html_tag hopening).append (html_of_clean hlabel)).append (html_tag hclosing)

/-- the parts of a clean match -/
theorem clean_bracketed {opening : Text} {b : Bracketed} (h : Clean (opening ++ b.source)) :
    Clean b.label ∧ Clean b.target :=
  ⟨h.of_subset fun c hc => by simp [Bracketed.source, hc], h.of_subset fun c hc => by simp [Bracketed.source, hc]⟩

theorem lifts_image : Lifts assetUrl (image assetUrl) := by
  intro first text taken html h hclean
  obtain ⟨b, rfl, hb, _⟩ := findBracketed_eq h
  obtain ⟨hlabel, htarget⟩ := clean_bracketed hclean
  unfold imageHtml at hb
  split at hb
  next rel hrel =>
    split at hb
    next url hurl =>
      split at hb
      next => cases hb
      next =>
        cases hb
        have hown : (Tag.image (esc url) b.label).Own assetUrl :=
          ⟨clean_esc url, hlabel, b.target, rel, url, hrel, hurl, rfl⟩
        exact html_tag hown
    next => cases hb
  next =>
    split at hb
    next hsafe =>
      cases hb
      refine html_linkTo hsafe htarget ?_
      split
      · exact htarget
      · exact hlabel
    next => cases hb

theorem lifts_link : Lifts assetUrl link := by
  intro first text taken html h hclean
  obtain ⟨b, rfl, hb, _⟩ := findBracketed_eq h
  obtain ⟨hlabel, htarget⟩ := clean_bracketed hclean
  unfold linkHtml at hb
  split at hb
  next hsafe =>
    cases hb
    exact html_linkTo hsafe htarget hlabel
  next => cases hb

theorem clean_placeholder (n : ℕ) : Clean (placeholder n) := by
  intro c hc
  rcases mem_cons.1 hc with rfl | hc
  · rfl
  · rcases mem_snoc.1 hc with hdigit | hlast
    · exact clean_digits n c hdigit
    · rw [hlast]
      rfl

/-- the stash has own markup only, and the text has none -/
structure Stashed (assetUrl : Text → Option Text) (r : List Text × Text) : Prop where
  stash : ∀ html ∈ r.1, Html assetUrl html
  text : Clean r.2

theorem stashed_segments {segs : List (Segment Char (Option Text))} (hstash : ∀ html ∈ stash, Html assetUrl html)
    (hclean : ∀ seg ∈ segs, Clean seg.source)
    (hlifts : ∀ taken html, Segment.hit taken (some html) ∈ segs → Html assetUrl html) :
    Stashed assetUrl (keepAll stash segs) := by
  induction segs generalizing stash with
  | nil => exact ⟨hstash, fun _ hc => absurd hc not_mem_nil⟩
  | cons seg segs ih =>
    have hrest := fun (stash : List Text) (hstash : ∀ html ∈ stash, Html assetUrl html) => ih hstash
      (fun seg' h => hclean seg' (mem_cons_of_mem seg h))
      (fun taken html h => hlifts taken html (mem_cons_of_mem seg h))
    have hseg := hclean seg mem_cons_self
    cases seg with
    | char c => exact ⟨(hrest stash hstash).stash, Clean.append hseg (hrest stash hstash).text⟩
    | hit taken b =>
      cases b with
      | none => exact ⟨(hrest stash hstash).stash, Clean.append hseg (hrest stash hstash).text⟩
      | some html =>
        have hnew : ∀ h ∈ stash ++ [html], Html assetUrl h := by
          intro h hmem
          rcases mem_snoc.1 hmem with hold | hnew
          · exact hstash h hold
          · rw [hnew]
            exact hlifts taken html mem_cons_self
        exact ⟨(hrest _ hnew).stash, (clean_placeholder _).append (hrest _ hnew).text⟩

/-- a pass keeps it -/
theorem Stashed.keepAll {r : List Text × Text} (h : Stashed assetUrl r) {F : Lifter} (hF : Lifts assetUrl F) :
    Stashed assetUrl (keepAll r.1 (F.segments r.2)) := by
  have hclean : ∀ seg ∈ F.segments r.2, Clean seg.source := fun seg hseg c hc =>
    h.text c (Finder.mem_of_segment hseg hc)
  refine stashed_segments h.stash hclean fun taken html hhit => ?_
  obtain ⟨first, rest, hfind⟩ := Finder.find_of_hit hhit
  exact hF hfind (hclean _ hhit)

theorem stashed_lifted {escaped : Text} (h : Clean escaped) : Stashed assetUrl (lifted assetUrl escaped) := by
  have hstart : Stashed assetUrl ([], escaped) := ⟨fun _ hc => absurd hc not_mem_nil, h⟩
  exact (((hstart.keepAll lifts_codeSpan).keepAll lifts_wikilink).keepAll lifts_image).keepAll lifts_link

end

/-! ### Emphasis -/

section

variable {S ω : Type*} {M : Scanner S Char ω} {out s u : S} {o : List ω} {text : Text}

def isMark (c : Char) : Bool := c = '*' || c = '_' || c = '~'

def emphasisNames : List Text := ["strong".toList, "em".toList, "del".toList]

def emphasisTags : List Text := emphasisNames.flatMap fun name => [(Tag.opening name).text, (Tag.closing name).text]

/-- a scanner that reads marks in one state only and does not see the tags of emphasis -/
structure Neutral (M : Scanner S Char ω) (out : S) : Prop where
  marks : ∀ c, isMark c = true → M.Resets out c
  tags : ∀ t ∈ emphasisTags, M.run out t = some (out, [])

/-- `F` finds text between two marks `d` -/
structure Between (d : Text) (F : Emphasis) : Prop where
  nonempty : d ≠ []
  marks : ∀ c ∈ d, isMark c = true
  source : ∀ {first text taken pre inner}, F.find first text = some (taken, pre, inner) →
    taken = pre ++ d ++ inner ++ d

theorem between_emphasis {d : Text} {c : Char} (hne : d ≠ []) (hmarks : d.all isMark = true) :
    Between d (emphasis d c) := by
  refine ⟨hne, all_eq_true.1 hmarks, fun h => ?_⟩
  obtain ⟨inner, rfl, hb, _⟩ := findDelimited_eq h
  cases hb
  rfl

theorem between_underscored : Between ['_'] underscored :=
  ⟨cons_ne_nil _ _, by simp [isMark], fun h => (findUnderscored_eq h).1⟩

theorem Neutral.wrapAll (hM : Neutral M out) {F : Emphasis} {d tag : Text} (hF : Between d F)
    (htag : tag ∈ emphasisNames) (h : M.run s text = some (u, o)) : M.run s (wrapAll F tag text) = some (u, o) := by
  have hopening : (Tag.opening tag).text ∈ emphasisTags := mem_flatMap.2 ⟨tag, htag, by simp⟩
  have hclosing : (Tag.closing tag).text ∈ emphasisTags := mem_flatMap.2 ⟨tag, htag, by simp⟩
  refine Scanner.run_flatMap (fun seg hseg => ?_) (by rwa [Finder.flatMap_source])
  cases seg with
  | char c => exact fun _ _ _ hrun => hrun
  | hit taken b =>
    obtain ⟨pre, inner⟩ := b
    obtain ⟨first, rest, hfind⟩ := Finder.find_of_hit hseg
    have hsource : taken = pre ++ d ++ inner ++ d := hF.source hfind
    rw [Segment.source, hsource]
    exact Scanner.reads_wrapped hF.nonempty (fun c hc => hM.marks c (hF.marks c hc)) (hM.tags _ hopening)
      (hM.tags _ hclosing)

/-- **Emphasis** changes nothing that a neutral scanner sees. -/
theorem Neutral.emphasize (hM : Neutral M out) (h : M.run s text = some (u, o)) :
    M.run s (emphasize text) = some (u, o) := by
  have hstars : Between "**".toList (emphasis "**".toList '*') := between_emphasis (by decide) (by decide)
  have hlines : Between "__".toList (emphasis "__".toList '_') := between_emphasis (by decide) (by decide)
  have hstar : Between "*".toList (emphasis "*".toList '*') := between_emphasis (by decide) (by decide)
  have htildes : Between "~~".toList (emphasis "~~".toList '~') := between_emphasis (by decide) (by decide)
  have hstrong : "strong".toList ∈ emphasisNames := by decide
  have hem : "em".toList ∈ emphasisNames := by decide
  have hdel : "del".toList ∈ emphasisNames := by decide
  have hbold := hM.wrapAll hlines hstrong (hM.wrapAll hstars hstrong h)
  have hitalic := hM.wrapAll between_underscored hem (hM.wrapAll hstar hem hbold)
  exact hM.wrapAll htildes hdel hitalic

end

/-! ### What is safe -/

section

variable {assetUrl : Text → Option Text} {stash : List Text} {escaped text : Text}

def isTagChar (c : Char) : Bool := isLetter c || c = '/'

/-- text without markup, and the tags of emphasis; inside of one its characters so far -/
def tagScanner : Scanner (Option Text) Char Empty where
  step
    | none, c => if c = '<' then some (some [], []) else if isMarkup c then none else some (none, [])
    | some cs, c =>
      if c = '>' then if '<' :: (cs ++ ['>']) ∈ emphasisTags then some (none, []) else none
      else if isTagChar c then some (some (cs ++ [c]), []) else none

theorem tagScanner_resets {c : Char} (hmarkup : isMarkup c = false) (hchar : isTagChar c = false) :
    tagScanner.Resets none c := by
  intro s u o h
  cases s with
  | none =>
    change (if c = '<' then _ else if isMarkup c then none else some (none, [])) = _ at h
    split at h
    next hlt => exact absurd hmarkup (by rw [hlt]; decide)
    next =>
      rw [if_neg (by rw [hmarkup]; decide)] at h
      cases h
      exact ⟨rfl, rfl, rfl⟩
  | some cs =>
    change (if c = '>' then _ else if isTagChar c then some (some (cs ++ [c]), []) else none) = _ at h
    split at h
    next hgt => exact absurd hmarkup (by rw [hgt]; decide)
    next =>
      rw [if_neg (by rw [hchar]; decide)] at h
      cases h

theorem isTagChar_of_isDigit {c : Char} (h : isDigit c = true) : isTagChar c = false := by
  obtain ⟨_, hle⟩ := isDigit_iff.1 h
  rw [Bool.eq_false_iff]
  intro hchar
  simp only [isTagChar, isLetter, Bool.or_eq_true, Bool.and_eq_true, decide_eq_true_eq, Char.le_def,
    UInt32.le_iff_toNat_le] at hchar
  rcases hchar with (⟨hlow, _⟩ | ⟨hlow, _⟩) | rfl
  · exact absurd (hlow.trans hle) (by decide)
  · exact absurd (hlow.trans hle) (by decide)
  · exact absurd h (by decide)

theorem tagScanner_neutral : Neutral tagScanner none := by
  refine ⟨fun c hc => ?_, fun t ht => ?_⟩
  · have hcases : (c = '*' ∨ c = '_') ∨ c = '~' := by simpa [isMark] using hc
    rcases hcases with (rfl | rfl) | rfl <;> exact tagScanner_resets (by decide) (by decide)
  · have hall : emphasisTags.all fun t => tagScanner.run none t = some (none, []) := by decide +kernel
    exact of_decide_eq_true (all_eq_true.1 hall t ht)

theorem tagScanner_of_clean (h : Clean text) : tagScanner.run none text = some (none, []) := by
  refine Scanner.run_quiet fun c hc => ?_
  change (if c = '<' then _ else if isMarkup c then none else some (none, [])) = _
  have hclean := h c hc
  rw [if_neg (fun hlt => absurd hclean (by rw [hlt]; decide)), if_neg (by rw [hclean]; decide)]

/-- what has been read of a tag -/
def pending : Option Text → Text
  | none => []
  | some cs => '<' :: cs

theorem own_of_emphasisTags (h : text ∈ emphasisTags) : ∃ tag : Tag, tag.Own assetUrl ∧ tag.text = text := by
  obtain ⟨name, hname, htext⟩ := mem_flatMap.1 h
  have helement : name ∈ elements := by
    have hall : emphasisNames.all fun name => elements.contains name := by decide +kernel
    simpa using all_eq_true.1 hall name hname
  rcases mem_pair.1 htext with rfl | rfl
  · exact ⟨.opening name, helement, rfl⟩
  · exact ⟨.closing name, .inl helement, rfl⟩

/-- one character more: of the text, or of a tag -/
theorem html_step {s u : Option Text} {c : Char} {o : List Empty} (h : tagScanner.step s c = some (u, o))
    (hrest : Html assetUrl (pending u ++ text)) : Html assetUrl (pending s ++ c :: text) := by
  cases s with
  | none =>
    change (if c = '<' then _ else if isMarkup c then none else some (none, [])) = _ at h
    split at h
    next hlt =>
      obtain ⟨rfl, _⟩ := Prod.mk.inj (some.inj h)
      rw [hlt]
      exact hrest
    next =>
      split at h
      next => cases h
      next hplain =>
        obtain ⟨rfl, _⟩ := Prod.mk.inj (some.inj h)
        exact .char (Bool.eq_false_iff.2 hplain) hrest
  | some cs =>
    change (if c = '>' then _ else if isTagChar c then some (some (cs ++ [c]), []) else none) = _ at h
    split at h
    next hgt =>
      split at h
      next htag =>
        obtain ⟨rfl, _⟩ := Prod.mk.inj (some.inj h)
        obtain ⟨tag, hown, htext⟩ := @own_of_emphasisTags assetUrl _ htag
        have hsplit : pending (some cs) ++ c :: text = tag.text ++ text := by
          rw [htext, hgt, pending, cons_append, cons_append, append_assoc, singleton_append]
        rw [hsplit]
        exact .tag hown hrest
      next => cases h
    next =>
      split at h
      next =>
        obtain ⟨rfl, _⟩ := Prod.mk.inj (some.inj h)
        rw [pending, cons_append, append_assoc] at hrest
        exact hrest
      next => cases h

theorem html_segments {segs : List (Segment Char ℕ)} {s : Option Text} (hstash : ∀ html ∈ stash, Html assetUrl html)
    (hhit : ∀ taken n, Segment.hit taken n ∈ segs → taken ≠ [] ∧ ∀ c ∈ taken, tagScanner.Resets none c)
    (h : tagScanner.run s (segs.flatMap Segment.source) = some (none, [])) :
    Html assetUrl (pending s ++ segs.flatMap (putBack stash)) := by
  induction segs generalizing s with
  | nil =>
    obtain ⟨rfl, _⟩ := Scanner.run_nil.1 h
    exact .nil
  | cons seg segs ih =>
    have hrest : ∀ s : Option Text, tagScanner.run s (segs.flatMap Segment.source) = some (none, []) →
        Html assetUrl (pending s ++ segs.flatMap (putBack stash)) :=
      fun s hrun => ih (fun taken n hmem => hhit taken n (mem_cons_of_mem seg hmem)) hrun
    cases seg with
    | char c =>
      obtain ⟨u, o₁, o₂, hstep, hrun, ho⟩ := Scanner.run_cons.1 h
      have hnil : o₂ = [] := (append_eq_nil_iff.1 ho.symm).2
      rw [hnil] at hrun
      exact html_step hstep (hrest u hrun)
    | hit taken n =>
      obtain ⟨hne, hreset⟩ := hhit taken n mem_cons_self
      obtain ⟨u, o₁, o₂, htaken, hrun, ho⟩ := Scanner.run_append.1 h
      have hnil : o₂ = [] := (append_eq_nil_iff.1 ho.symm).2
      obtain ⟨rfl, rfl, _⟩ := Scanner.run_resets hne hreset htaken
      rw [hnil] at hrun
      have hput : Html assetUrl (stash.getD n []) := by
        rw [getD_eq_getElem?_getD]
        cases hget : stash[n]? with
        | none => exact .nil
        | some html => exact hstash html (mem_of_getElem? hget)
      exact hput.append (hrest none hrun)

/-- putting the stash back -/
theorem html_restore (hstash : ∀ html ∈ stash, Html assetUrl html) (hrun : tagScanner.run none text = some (none, [])) :
    Html assetUrl (restore stash text) := by
  have hhit : ∀ taken n, Segment.hit taken n ∈ placeholders.segments text →
      taken ≠ [] ∧ ∀ c ∈ taken, tagScanner.Resets none c := by
    intro taken n hmem
    obtain ⟨first, rest, hfind⟩ := Finder.find_of_hit hmem
    obtain ⟨ds, rfl, _, _, hdigits, _⟩ := findDelimited_eq hfind
    refine ⟨by simp, fun c hc => ?_⟩
    simp only [mem_append, mem_singleton] at hc
    rcases hc with (rfl | hd) | rfl
    · exact tagScanner_resets (by decide) (by decide)
    · exact tagScanner_resets (isMarkup_of_isDigit (hdigits c hd)) (isTagChar_of_isDigit (hdigits c hd))
    · exact tagScanner_resets (by decide) (by decide)
  refine html_segments (s := none) hstash hhit ?_
  rw [Finder.flatMap_source]
  exact hrun

/-- **A line is safe**, whatever is in it and whatever the URLs of assets are. -/
theorem renderInline_html (h : Clean escaped) : Html assetUrl (renderInline assetUrl escaped) := by
  have hlifted : Stashed assetUrl (lifted assetUrl escaped) := stashed_lifted h
  exact html_restore hlifted.stash (tagScanner_neutral.emphasize (tagScanner_of_clean hlifted.text))

end

end Baalda.NoteInline
