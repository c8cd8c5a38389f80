/-
The blocks of a public note (`renderBlocks`, `renderNoteHtml` in render/note-html.ts).

`blockAt` tells which block begins at a line and where it ends; `renderBlocks` takes block after block, with fuel for
its turns and for the bodies of quotes, and is `none` when it runs out. A text is its code points.

`note_html_safe`: every output is text without markup and the module's own tags. `note_html_ends_iff`: there is an
output exactly if no block begins at a stuck line, one that begins like a heading and has a line end that is not a line
feed in its text: the heading branch does not take it and the paragraph branch leaves it, so the loop does not advance.
-/
import Baalda.Server.NoteInline

namespace Baalda.NoteHtml

open Rewrite NoteInline List Option

/-! ## Lines -/

/-- what `.` does not match -/
def isLineEnd (c : Char) : Bool := c = '\n' || c = '\r' || c.toNat = 0x2028 || c.toNat = 0x2029

section

variable (line : Text)

/-- `/^(```|~~~)/` on the trimmed line -/
def fenceMarker : Option Text :=
  if "```".toList <+: trim line then some "```".toList
  else if "~~~".toList <+: trim line then some "~~~".toList
  else none

def isBlank : Bool := trim line = []

def hashes : ℕ := (line.takeWhile fun c => c = '#').length

/-- `/^(#{1,6})\s/` -/
def headingStart : Bool :=
  1 ≤ hashes line && hashes line ≤ 6 && (line.drop (hashes line)).head?.any isSpace

def headingText : Text := trimStart (line.drop (hashes line))

/-- `/^(#{1,6})\s+(.*)$/` -/
def heading : Option (ℕ × Text) :=
  if headingStart line && (headingText line).all fun c => !isLineEnd c then some (hashes line, headingText line)
  else none

/-- `/^\s*([-*_])\s*(\1\s*){2,}$/` -/
def isRule : Bool :=
  match line.filter fun c => !isSpace c with
  | [] => false
  | c :: marks => (c = '-' || c = '*' || c = '_') && 2 ≤ marks.length && marks.all fun d => d = c

def isQuote : Bool := "&#62;".toList <+: trimStart line

/-- without `/^&#62;\s?/` -/
def quoteBody : Text :=
  match (trimStart line).drop 5 with
  | [] => []
  | c :: rest => if isSpace c then rest else c :: rest

def splitRow : List Text :=
  let cells := (line.splitOn '|').map trim
  let cells := if cells.head? = some [] then cells.tail else cells
  if cells.getLast? = some [] then cells.dropLast else cells

end

/-- `:?-{3,}:?` -/
def isSeparatorCell (cell : Text) : Bool :=
  let cell := if cell.head? = some ':' then cell.tail else cell
  let rest := cell.dropWhile fun c => c = '-'
  rest.length + 3 ≤ cell.length && (rest = [] || rest = [':'])

/-- `TABLE_SEP_RE`: two cells or more, and a pipe before and after them if there is one -/
def isSeparator (line : Text) : Bool := 2 ≤ (splitRow line).length && (splitRow line).all isSeparatorCell

inductive Align where
  | left | center | right
  deriving DecidableEq

def columnAligns (sep : Text) : List Align := (splitRow sep).map fun c =>
  if c.getLast? = some ':' then if c.head? = some ':' then .center else .right else .left

inductive ListType where
  | ul | ol
  deriving DecidableEq

/-- what follows the digits and the dot or bracket of an ordered item -/
def afterNumber (rest : Text) : Option Text :=
  match rest.dropWhile isDigit with
  | c :: after => if (rest.head?.any isDigit) && (c = '.' || c = ')') then some after else none
  | [] => none

/-- what follows the marker of an item -/
def afterMarker : Text → Option Text
  | [] => none
  | c :: rest => if c = '-' || c = '*' || c = '+' then some rest else afterNumber (c :: rest)

/-- `LIST_ITEM_RE`: `/^(\s*)(?:[-*+]|\d+[.)])\s+(.*)$/` -/
def listItem (line : Text) : Option (ℕ × Text) :=
  (afterMarker (trimStart line)).bind fun after =>
    if after.head?.any isSpace && (trimStart after).all fun c => !isLineEnd c then
      some ((line.takeWhile isSpace).length, trimStart after)
    else none

/-- `ORDERED_RE`: `/^\s*\d+[.)]\s/` -/
def listType (line : Text) : ListType :=
  if (afterNumber (trimStart line)).any fun after => after.head?.any isSpace then .ol else .ul

/-- a row with a pipe whose next line is a separator -/
def tableAt (line : Text) (rest : List Text) : Bool := line.contains '|' && rest.head?.any isSeparator

/-! ## Blocks -/

inductive Block where
  | fence (body : List Text)
  | blank
  | heading (level : ℕ) (text : Text)
  | rule
  | quote (inner : List Text)
  | table (sep : Text) (header : List Text) (rows : List (List Text))
  | item (indent : ℕ) (type : ListType) (text : Text)
  | paragraph (lines : List Text)

/-- the tests of the paragraph branch -/
def isPlain (line : Text) (rest : List Text) : Bool :=
  !isBlank line && !headingStart line && (listItem line).isNone && !isQuote line && (fenceMarker line).isNone &&
    !isRule line && !tableAt line rest

/-- the plain lines from here, and what follows them -/
def paragraphAt : List Text → List Text × List Text
  | [] => ([], [])
  | line :: rest =>
    if isPlain line rest then
      let r := paragraphAt rest
      (line :: r.1, r.2)
    else ([], line :: rest)

/-- which block begins at the line, and the lines after it -/
def blockAt (line : Text) (rest : List Text) : Block × List Text :=
  match fenceMarker line with
  | some marker =>
    let body := rest.takeWhile fun l => ¬ marker <+: trim l
    (.fence body, rest.drop (body.length + 1))
  | none =>
    if isBlank line then (.blank, rest)
    else match heading line with
    | some (level, text) => (.heading level text, rest)
    | none =>
      if isRule line then (.rule, rest)
      else if isQuote line then
        let inner := (line :: rest).takeWhile isQuote
        (.quote (inner.map quoteBody), (line :: rest).drop inner.length)
      else if tableAt line rest then
        let rows := rest.tail.takeWhile fun l => l.contains '|' && !isBlank l
        (.table (rest.headD []) (splitRow line) (rows.map splitRow), rest.tail.drop rows.length)
      else match listItem line with
      | some (indent, text) => (.item indent (listType line) text, rest)
      | none =>
        let r := paragraphAt (line :: rest)
        (.paragraph r.1, r.2)

structure ListFrame where
  type : ListType
  indent : ℕ
  deriving DecidableEq

def ListType.name : ListType → Text
  | .ul => "ul".toList
  | .ol => "ol".toList

/-- the lists that end at an indent; the innermost is the first -/
def closeListsTo (indent : ℕ) : List ListFrame → List Text × List ListFrame
  | [] => ([], [])
  | top :: stack =>
    if indent ≤ top.indent then
      let r := closeListsTo indent stack
      ((Tag.closing top.type.name).text :: r.1, r.2)
    else ([], top :: stack)

/-- `closeListsTo(-1)` -/
def closeAllLists (stack : List ListFrame) : List Text := (closeListsTo 0 stack).1

/-- the tags before an item, and the lists it is in -/
def openItem (stack : List ListFrame) (type : ListType) (indent : ℕ) : List Text × List ListFrame :=
  match stack with
  | [] => ([(Tag.opening type.name).text], [⟨type, indent⟩])
  | top :: below =>
    if top.indent < indent then ([(Tag.opening type.name).text], ⟨type, indent⟩ :: top :: below)
    else if indent < top.indent then
      let r := closeListsTo indent (top :: below)
      if r.2.head?.any fun frame => frame.type = type then r
      else (r.1 ++ [(Tag.opening type.name).text], ⟨type, indent⟩ :: r.2)
    else if top.type ≠ type then
      ([(Tag.closing top.type.name).text, (Tag.opening type.name).text], ⟨type, indent⟩ :: below)
    else ([], top :: below)

/-- `lines.join("\n")` -/
def joinLines (lines : List Text) : Text := ['\n'].intercalate lines

section

variable (assetUrl : Text → Option Text)

def cellTag (name : Text) : Align → Tag
  | .left => .opening name
  | .center => .cell name "center".toList
  | .right => .cell name "right".toList

def cell (aligns : List Align) (name text : Text) (col : ℕ) : Text :=
  (cellTag name (aligns.getD col .left)).text ++ renderInline assetUrl text ++ (Tag.closing name).text

def row (aligns : List Align) (name : Text) (cells : List Text) : Text :=
  inElement "tr".toList (cells.mapIdx fun col text => cell assetUrl aligns name text col).flatten

def tableHtml (sep : Text) (header : List Text) (rows : List (List Text)) : Text :=
  let aligns := columnAligns sep
  let thead := inElement "thead".toList (row assetUrl aligns "th".toList header)
  let tbody := (rows.map (row assetUrl aligns "td".toList)).flatten
  Tag.tableBox.text ++
    inElement "table".toList (thead ++ if tbody = [] then [] else inElement "tbody".toList tbody) ++
    (Tag.closing "div".toList).text

def headingName (level : ℕ) : Text := 'h' :: Nat.toDigits 10 level

/-- what a block is in HTML; the body of a quote is rendered apart -/
def Block.html : Block → List Text
  | .fence body => [inElement "pre".toList (inElement "code".toList (joinLines body))]
  | .blank => []
  | .heading level text => [inElement (headingName level) (renderInline assetUrl text)]
  | .rule => [(Tag.single "hr".toList).text]
  | .quote _ => []
  | .table sep header rows => [tableHtml assetUrl sep header rows]
  | .item _ _ text => [inElement "li".toList (renderInline assetUrl text)]
  | .paragraph lines =>
    [inElement "p".toList ((Tag.single "br".toList).text.intercalate (lines.map (renderInline assetUrl)))]

def renderBlocks : ℕ → List Text → List ListFrame → List Text → Option Text
  | 0, _, _, _ => none
  | _ + 1, [], stack, out => some (joinLines (out ++ closeAllLists stack))
  | fuel + 1, line :: rest, stack, out =>
    match blockAt line rest with
    | (.quote inner, after) =>
      (renderBlocks fuel inner [] []).bind fun body =>
        renderBlocks fuel after [] (out ++ closeAllLists stack ++ [inElement "blockquote".toList body])
    | (.item indent type text, after) =>
      renderBlocks fuel after (openItem stack type indent).2
        (out ++ (openItem stack type indent).1 ++ Block.html assetUrl (.item indent type text))
    | (block, after) => renderBlocks fuel after [] (out ++ closeAllLists stack ++ block.html assetUrl)

/-- the text from the first place where `pat` begins -/
def findSub (pat : Text) : Text → Option Text
  | [] => if pat = [] then some [] else none
  | c :: t => if pat <+: c :: t then some (c :: t) else findSub pat t

def stripFrontmatter (md : Text) : Text :=
  if "---\n".toList <+: md ∨ md = "---".toList then
    match findSub "\n---".toList (md.drop 3) with
    | none => md
    | some closing => match findSub ['\n'] (closing.drop 1) with
      | none => []
      | some after => after.drop 1
  else md

/-- `replace(/\r\n/g, "\n")` -/
def unixLines : Text → Text
  | '\r' :: '\n' :: t => '\n' :: unixLines t
  | c :: t => c :: unixLines t
  | [] => []

def noteLines (md : Text) : List Text := (esc ((unixLines (stripFrontmatter md)).filter fun c => c ≠ nul)).splitOn '\n'

def renderNoteHtml (fuel : ℕ) (md : Text) : Option Text := renderBlocks assetUrl fuel (noteLines md) [] []

end

/-! ## What comes out is safe -/

section

variable {assetUrl : Text → Option Text} {line : Text} {rest lines after : List Text} {stack : List ListFrame}
  {indent : ℕ} {type : ListType}

/-- no line has markup -/
def CleanLines (lines : List Text) : Prop := ∀ line ∈ lines, Clean line

/-- every part is safe -/
def HtmlParts (assetUrl : Text → Option Text) (parts : List Text) : Prop := ∀ p ∈ parts, Html assetUrl p

theorem HtmlParts.append {a b : List Text} (ha : HtmlParts assetUrl a) (hb : HtmlParts assetUrl b) :
    HtmlParts assetUrl (a ++ b) := fun p hp => (mem_append.1 hp).elim (ha p) (hb p)

theorem htmlParts_one {p : Text} (h : Html assetUrl p) : HtmlParts assetUrl [p] := fun q hq => by
  rwa [mem_singleton.1 hq]

theorem html_intercalate {sep : Text} {parts : List Text} (hsep : Html assetUrl sep) (h : HtmlParts assetUrl parts) :
    Html assetUrl (sep.intercalate parts) := by
  induction parts with
  | nil => exact .nil
  | cons p parts ih =>
    have hrest := ih fun q hq => h q (mem_cons_of_mem p hq)
    cases parts with
    | nil =>
      rw [intercalate_singleton]
      exact h p mem_cons_self
    | cons q parts =>
      rw [intercalate_cons_cons]
      exact ((h p mem_cons_self).append hsep).append hrest

theorem html_joinLines {parts : List Text} (h : HtmlParts assetUrl parts) : Html assetUrl (joinLines parts) :=
  html_intercalate (.char rfl .nil) h

theorem clean_trimStart (h : Clean line) : Clean (trimStart line) := h.of_subset (dropWhile_sublist _).subset

theorem clean_trim (h : Clean line) : Clean (trim line) := h.of_subset (trim_subset line)

theorem clean_splitRow (h : Clean line) : CleanLines (splitRow line) := by
  have hcells : CleanLines ((line.splitOn '|').map trim) := by
    intro c hc
    obtain ⟨p, hp, rfl⟩ := mem_map.1 hc
    exact clean_trim (h.of_subset (mem_of_splitOn hp))
  have hfirst : CleanLines (if ((line.splitOn '|').map trim).head? = some [] then ((line.splitOn '|').map trim).tail
      else (line.splitOn '|').map trim) := by
    split
    · exact fun c hc => hcells c (mem_of_mem_tail hc)
    · exact hcells
  unfold splitRow
  dsimp only
  revert hfirst
  generalize (if ((line.splitOn '|').map trim).head? = some [] then ((line.splitOn '|').map trim).tail
    else (line.splitOn '|').map trim) = cells
  intro hfirst
  split
  · exact fun c hc => hfirst c (mem_of_mem_dropLast hc)
  · exact hfirst

theorem clean_quoteBody (h : Clean line) : Clean (quoteBody line) := by
  have hrest : Clean ((trimStart line).drop 5) := (clean_trimStart h).of_subset (drop_subset 5 _)
  unfold quoteBody
  split
  next => exact fun _ hc => absurd hc not_mem_nil
  next c rest heq =>
    rw [heq] at hrest
    split
    · exact hrest.of_subset (subset_cons_self c rest)
    · exact hrest

theorem afterNumber_subset {rest after : Text} (h : afterNumber rest = some after) : after ⊆ rest := by
  unfold afterNumber at h
  split at h
  next c more heq =>
    split at h
    · cases h
      intro d hd
      exact (dropWhile_sublist _).subset (heq ▸ mem_cons_of_mem c hd)
    · cases h
  next => cases h

theorem afterMarker_subset {rest after : Text} (h : afterMarker rest = some after) : after ⊆ rest := by
  unfold afterMarker at h
  split at h
  next => cases h
  next c more =>
    split at h
    · obtain rfl := some.inj h
      exact subset_cons_self c more
    · exact afterNumber_subset h

theorem clean_listItem {text : Text} (h : Clean line) (hitem : listItem line = some (indent, text)) : Clean text := by
  obtain ⟨after, hafter, hitem⟩ := bind_eq_some_iff.1 hitem
  split at hitem
  · obtain ⟨_, rfl⟩ := Prod.mk.inj (some.inj hitem)
    exact clean_trimStart ((clean_trimStart h).of_subset (afterMarker_subset hafter))
  · cases hitem

theorem clean_heading {level : ℕ} {text : Text} (h : Clean line) (hheading : heading line = some (level, text)) :
    Clean text ∧ headingName level ∈ elements := by
  unfold heading at hheading
  split at hheading
  next hstart =>
    cases hheading
    refine ⟨clean_trimStart (h.of_subset (drop_subset _ _)), ?_⟩
    simp only [headingStart, Bool.and_eq_true, decide_eq_true_eq] at hstart
    obtain ⟨⟨⟨hlow, hhigh⟩, _⟩, _⟩ := hstart
    generalize hashes line = n at hlow hhigh
    interval_cases n <;> decide
  next => cases hheading

theorem paragraphAt_append (lines : List Text) : (paragraphAt lines).1 ++ (paragraphAt lines).2 = lines := by
  induction lines with
  | nil => rfl
  | cons line rest ih =>
    rw [paragraphAt]
    split
    · rw [cons_append, ih]
    · rfl

/-- what a block is made of has no markup -/
def Block.Clean : Block → Prop
  | .fence body => CleanLines body
  | .blank => True
  | .heading level text => NoteInline.Clean text ∧ headingName level ∈ elements
  | .rule => True
  | .quote inner => CleanLines inner
  | .table _ header rows => CleanLines header ∧ ∀ r ∈ rows, CleanLines r
  | .item _ _ text => NoteInline.Clean text
  | .paragraph lines => CleanLines lines

theorem clean_blockAt (hline : Clean line) (hrest : CleanLines rest) :
    (blockAt line rest).1.Clean ∧ CleanLines (blockAt line rest).2 := by
  have hall : CleanLines (line :: rest) := by
    intro l hl
    rcases mem_cons.1 hl with rfl | hl
    · exact hline
    · exact hrest l hl
  have hdrop : ∀ n, CleanLines (rest.drop n) := fun n l hl => hrest l (drop_subset n rest hl)
  unfold blockAt
  split
  next marker _ => exact ⟨fun l hl => hrest l ((takeWhile_sublist _).subset hl), hdrop _⟩
  next =>
    split
    next => exact ⟨trivial, hrest⟩
    next =>
      split
      next level text hheading => exact ⟨clean_heading hline hheading, hrest⟩
      next =>
        split
        next => exact ⟨trivial, hrest⟩
        next =>
          split
          next =>
            refine ⟨fun l hl => ?_, fun l hl => hall l (drop_subset _ _ hl)⟩
            obtain ⟨l', hl', rfl⟩ := mem_map.1 hl
            exact clean_quoteBody (hall l' ((takeWhile_sublist _).subset hl'))
          next =>
            split
            next =>
              have htail : CleanLines rest.tail := fun l hl => hrest l (mem_of_mem_tail hl)
              refine ⟨⟨clean_splitRow hline, fun r hr => ?_⟩, fun l hl => htail l (drop_subset _ _ hl)⟩
              obtain ⟨l, hl, rfl⟩ := mem_map.1 hr
              exact clean_splitRow (htail l ((takeWhile_sublist _).subset hl))
            next =>
              split
              next indent text hitem => exact ⟨clean_listItem hline hitem, hrest⟩
              next =>
                have hsplit := paragraphAt_append (line :: rest)
                exact ⟨fun l hl => hall l (hsplit ▸ mem_append_left _ hl),
                  fun l hl => hall l (hsplit ▸ mem_append_right _ hl)⟩

theorem type_mem_elements (type : ListType) : type.name ∈ elements := by
  cases type <;> decide

theorem htmlParts_closeListsTo (indent : ℕ) (stack : List ListFrame) :
    HtmlParts assetUrl (closeListsTo indent stack).1 := by
  induction stack with
  | nil => exact fun _ hp => absurd hp not_mem_nil
  | cons top stack ih =>
    rw [closeListsTo]
    split
    · intro p hp
      rcases mem_cons.1 hp with rfl | hp
      · have hclosing : (Tag.closing top.type.name).Own assetUrl := .inl (type_mem_elements top.type)
        exact html_tag hclosing
      · exact ih p hp
    · exact fun _ hp => absurd hp not_mem_nil

theorem htmlParts_openItem (stack : List ListFrame) (type : ListType) (indent : ℕ) :
    HtmlParts assetUrl (openItem stack type indent).1 := by
  have hopening : Html assetUrl (Tag.opening type.name).text := by
    have hown : (Tag.opening type.name).Own assetUrl := type_mem_elements type
    exact html_tag hown
  unfold openItem
  split
  next => exact htmlParts_one hopening
  next top below =>
    split
    · exact htmlParts_one hopening
    · split
      · dsimp only
        split
        · exact htmlParts_closeListsTo indent _
        · exact (htmlParts_closeListsTo indent _).append (htmlParts_one hopening)
      · split
        · have hclosing : (Tag.closing top.type.name).Own assetUrl := .inl (type_mem_elements top.type)
          exact (htmlParts_one (html_tag hclosing)).append (htmlParts_one hopening)
        · exact fun _ hp => absurd hp not_mem_nil

theorem html_cell {aligns : List Align} {name text : Text} {col : ℕ} (hname : name = "th".toList ∨ name = "td".toList)
    (h : Clean text) : Html assetUrl (cell assetUrl aligns name text col) := by
  have helement : name ∈ elements := by rcases hname with rfl | rfl <;> decide
  have hopening : (cellTag name (aligns.getD col .left)).Own assetUrl := by
    cases aligns.getD col .left with
    | left => exact helement
    | center => exact ⟨hname, .inl rfl⟩
    | right => exact ⟨hname, .inr rfl⟩
  have hclosing : (Tag.closing name).Own assetUrl := .inl helement
  exact ((html_tag hopening).append (renderInline_html h)).append (html_tag hclosing)

theorem html_row {aligns : List Align} {name : Text} {cells : List Text}
    (hname : name = "th".toList ∨ name = "td".toList) (h : CleanLines cells) :
    Html assetUrl (row assetUrl aligns name cells) := by
  refine html_inElement (by decide) (html_flatten fun p hp => ?_)
  obtain ⟨col, hcol, rfl⟩ := mem_mapIdx.1 hp
  exact html_cell hname (h _ (getElem_mem hcol))

theorem html_table {sep : Text} {header : List Text} {rows : List (List Text)} (hheader : CleanLines header)
    (hrows : ∀ r ∈ rows, CleanLines r) : Html assetUrl (tableHtml assetUrl sep header rows) := by
  have hopening : Tag.tableBox.Own assetUrl := trivial
  have hclosing : (Tag.closing "div".toList).Own assetUrl := .inr (.inr (.inr rfl))
  have hhead : Html assetUrl (inElement "thead".toList (row assetUrl (columnAligns sep) "th".toList header)) :=
    html_inElement (by decide) (html_row (.inl rfl) hheader)
  have hbody : Html assetUrl (rows.map (row assetUrl (columnAligns sep) "td".toList)).flatten := by
    refine html_flatten fun p hp => ?_
    obtain ⟨r, hr, rfl⟩ := mem_map.1 hp
    exact html_row (.inr rfl) (hrows r hr)
  refine ((html_tag hopening).append (html_inElement (by decide) (hhead.append ?_))).append (html_tag hclosing)
  split
  · exact .nil
  · exact html_inElement (by decide) hbody

theorem htmlParts_block {block : Block} (h : block.Clean) : HtmlParts assetUrl (block.html assetUrl) := by
  cases block with
  | fence body =>
    have hbody : HtmlParts assetUrl body := fun l hl => html_of_clean (h l hl)
    exact htmlParts_one (html_inElement (by decide) (html_inElement (by decide) (html_joinLines hbody)))
  | blank | quote inner => exact fun _ hp => absurd hp not_mem_nil
  | heading level text => exact htmlParts_one (html_inElement h.2 (renderInline_html h.1))
  | rule =>
    have hrule : (Tag.single "hr".toList).Own assetUrl := .inr rfl
    exact htmlParts_one (html_tag hrule)
  | table sep header rows => exact htmlParts_one (html_table h.1 h.2)
  | item indent type text => exact htmlParts_one (html_inElement (by decide) (renderInline_html h))
  | paragraph lines =>
    have hbreak : (Tag.single "br".toList).Own assetUrl := .inl rfl
    refine htmlParts_one (html_inElement (by decide) (html_intercalate (html_tag hbreak) fun p hp => ?_))
    obtain ⟨l, hl, rfl⟩ := mem_map.1 hp
    exact renderInline_html (h l hl)

/-- the loop keeps what is safe -/
theorem html_renderBlocks {fuel : ℕ} {out : List Text} {result : Text} (hlines : CleanLines lines)
    (hout : HtmlParts assetUrl out) (h : renderBlocks assetUrl fuel lines stack out = some result) :
    Html assetUrl result := by
  induction fuel generalizing lines stack out result with
  | zero => cases h
  | succ fuel ih =>
    cases lines with
    | nil =>
      cases h
      exact html_joinLines (hout.append (htmlParts_closeListsTo 0 stack))
    | cons line rest =>
      have hrest : CleanLines rest := fun l hl => hlines l (mem_cons_of_mem line hl)
      obtain ⟨hblock, hafter⟩ := clean_blockAt (hlines line mem_cons_self) hrest
      rw [renderBlocks] at h
      split at h
      next inner after heq =>
        rw [heq] at hblock hafter
        obtain ⟨body, hbody, h⟩ := bind_eq_some_iff.1 h
        have hquote := ih hblock (fun _ hp => absurd hp not_mem_nil) hbody
        exact ih hafter ((hout.append (htmlParts_closeListsTo 0 stack)).append
          (htmlParts_one (html_inElement (by decide) hquote))) h
      next indent type text after heq =>
        rw [heq] at hblock hafter
        exact ih hafter ((hout.append (htmlParts_openItem stack type indent)).append (htmlParts_block hblock)) h
      next block after _ _ heq =>
        rw [heq] at hblock hafter
        exact ih hafter ((hout.append (htmlParts_closeListsTo 0 stack)).append (htmlParts_block hblock)) h

theorem clean_noteLines (md : Text) : CleanLines (noteLines md) := fun _ hl =>
  (clean_esc _).of_subset (mem_of_splitOn hl)

/-- **The note renderer is safe.** For every note and all URLs of assets, what comes out is text without markup and the
module's own tags, so that every `<` in it starts one of these. -/
theorem note_html_safe (assetUrl : Text → Option Text) (fuel : ℕ) (md out : Text)
    (h : renderNoteHtml assetUrl fuel md = some out) :
    Html assetUrl out ∧ ∀ pre post, out = pre ++ '<' :: post →
      ∃ tag : Tag, tag.Own assetUrl ∧ tag.text <+: '<' :: post := by
  have hsafe : Html assetUrl out :=
    html_renderBlocks (clean_noteLines md) (fun _ hp => absurd hp not_mem_nil) h
  exact ⟨hsafe, fun pre post hout => hsafe.tag_of_lt hout⟩

end

/-! ## When it ends -/

section

variable {assetUrl : Text → Option Text} {line : Text} {rest lines after inner : List Text} {stack : List ListFrame}

/-- a block begins here, in the lines or in the body of a quote in them -/
inductive Begins (lines : List Text) : List Text → Prop where
  | start : Begins lines lines
  | next {line : Text} {rest : List Text} (h : Begins lines (line :: rest)) : Begins lines (blockAt line rest).2
  | quoted {line : Text} {rest inner : List Text} (h : Begins lines (line :: rest))
      (hquote : (blockAt line rest).1 = .quote inner) : Begins lines inner

/-- it begins like a heading and is none, as its text has a line end in it; and it is not the header of a table -/
structure Stuck (line : Text) (rest : List Text) : Prop where
  start : headingStart line = true
  lineEnd : ∃ c ∈ headingText line, isLineEnd c = true
  noTable : tableAt line rest = false

/-- what the lines take, with an end for each -/
def size (lines : List Text) : ℕ := (lines.map fun l => l.length + 1).sum

theorem size_cons (line : Text) (rest : List Text) : size (line :: rest) = line.length + 1 + size rest := rfl

theorem size_le_of_suffix (h : after <:+ lines) : size after ≤ size lines := by
  obtain ⟨pre, rfl⟩ := h
  unfold size
  rw [map_append, sum_append]
  exact Nat.le_add_left _ _

theorem heading_eq_none (hstart : headingStart line = true) :
    heading line = none ↔ ∃ c ∈ headingText line, isLineEnd c = true := by
  unfold heading
  rw [hstart, Bool.true_and]
  split
  next hall =>
    refine iff_of_false (by simp) fun ⟨c, hc, hend⟩ => ?_
    have hnone := all_eq_true.1 hall c hc
    rw [hend] at hnone
    exact absurd hnone (by decide)
  next hsome =>
    refine iff_of_true rfl ?_
    simpa using hsome

theorem eq_cons_of_headingStart (h : headingStart line = true) : ∃ t, line = '#' :: t := by
  unfold headingStart hashes at h
  cases line with
  | nil => exact absurd h (by decide)
  | cons c t =>
    by_cases hc : c = '#'
    · exact ⟨t, by rw [hc]⟩
    · rw [takeWhile_cons_of_neg (by simpa using hc)] at h
      cases h

theorem trim_prefix_of_hash (t : Text) : trim ('#' :: t) <+: '#' :: t ∧ trim ('#' :: t) ≠ [] := by
  refine ⟨ rdropWhile_prefix _ _, fun hnil => ?_⟩
  exact absurd (rdropWhile_eq_nil_iff.1 hnil '#' mem_cons_self) (by decide)

/-- no test but those of headings takes a line of hashes -/
theorem hash_line (t : Text) : fenceMarker ('#' :: t) = none ∧ isBlank ('#' :: t) = false ∧ isRule ('#' :: t) = false ∧
    isQuote ('#' :: t) = false ∧ listItem ('#' :: t) = none := by
  obtain ⟨htrim, hne⟩ := trim_prefix_of_hash t
  have hfirst : ∀ c s, c ≠ '#' → ¬ (c :: s) <+: trim ('#' :: t) := by
    intro c s hc hpre
    exact hc (cons_prefix_cons.1 (hpre.trans htrim)).1
  refine ⟨?_, ?_, ?_, ?_, ?_⟩
  · unfold fenceMarker
    have hticks : ¬ "```".toList <+: trim ('#' :: t) := hfirst '`' _ (by decide)
    have htildes : ¬ "~~~".toList <+: trim ('#' :: t) := hfirst '~' _ (by decide)
    rw [if_neg hticks, if_neg htildes]
  · exact decide_eq_false hne
  · rfl
  · rfl
  · rfl

/-- at a stuck line a paragraph of no lines begins -/
theorem blockAt_stuck (h : Stuck line rest) : blockAt line rest = (.paragraph [], line :: rest) := by
  obtain ⟨t, rfl⟩ := eq_cons_of_headingStart h.start
  obtain ⟨hfence, hblank, hrule, hquote, hitem⟩ := hash_line t
  have hheading := (heading_eq_none h.start).2 h.lineEnd
  have hplain : isPlain ('#' :: t) rest = false := by
    unfold isPlain
    rw [h.start]
    simp
  unfold blockAt
  rw [hfence, hblank, hheading, hrule, hquote, h.noTable, hitem, paragraphAt, hplain]
  rfl

theorem paragraphAt_suffix (lines : List Text) : (paragraphAt lines).2 <:+ lines :=
  ⟨_, paragraphAt_append lines⟩

/-- **Progress.** A block that begins at any other line takes at least that line. -/
theorem blockAt_suffix (h : ¬ Stuck line rest) : (blockAt line rest).2 <:+ rest := by
  unfold blockAt
  split
  next => exact drop_suffix _ _
  next hfence =>
    split
    next => exact suffix_rfl
    next hblank =>
      split
      next => exact suffix_rfl
      next hheading =>
        split
        next => exact suffix_rfl
        next hrule =>
          split
          next hquote =>
            have htaken : ((line :: rest).takeWhile isQuote).length = (rest.takeWhile isQuote).length + 1 := by
              rw [takeWhile_cons_of_pos hquote, length_cons]
            dsimp only
            rw [htaken, drop_succ_cons]
            exact drop_suffix _ _
          next hquote =>
            split
            next => exact (drop_suffix _ _).trans (tail_suffix rest)
            next htable =>
              split
              next => exact suffix_rfl
              next hitem =>
                have hplain : isPlain line rest = true := by
                  have hstart : headingStart line = false := by
                    rw [Bool.eq_false_iff]
                    intro hstart
                    exact h ⟨hstart, (heading_eq_none hstart).1 hheading, Bool.eq_false_iff.2 htable⟩
                  simp [isPlain, hblank, hstart, hitem, hquote, hfence, hrule, htable]
                rw [paragraphAt, if_pos hplain]
                exact paragraphAt_suffix rest

theorem length_quoteBody (h : isQuote line = true) : (quoteBody line).length + 5 ≤ line.length := by
  have hle : (trimStart line).length ≤ line.length := (dropWhile_sublist _).length_le
  have hstart : "&#62;".toList <+: trimStart line := of_decide_eq_true h
  have hfive : 5 ≤ (trimStart line).length := hstart.length_le
  have hbody : (quoteBody line).length ≤ ((trimStart line).drop 5).length := by
    unfold quoteBody
    split
    next => exact Nat.zero_le _
    next c more heq =>
      rw [heq]
      split
      · exact Nat.le_succ _
      · exact le_rfl
  rw [length_drop] at hbody
  omega

/-- the body of a quote is smaller than the lines it comes from -/
theorem size_quote (h : (blockAt line rest).1 = .quote inner) : size inner < size (line :: rest) := by
  unfold blockAt at h
  split at h
  next => cases h
  next =>
    split at h
    next => cases h
    next =>
      split at h
      next => cases h
      next =>
        split at h
        next => cases h
        next =>
          split at h
          next hquote =>
            obtain rfl := Block.quote.inj h
            have hbodies : ∀ lines : List Text, (∀ l ∈ lines, isQuote l = true) →
                size (lines.map quoteBody) + 5 * lines.length ≤ size lines := by
              intro lines hall
              induction lines with
              | nil => exact le_rfl
              | cons l lines ih =>
                have hrest := ih fun l' hl' => hall l' (mem_cons_of_mem l hl')
                have hbody := length_quoteBody (hall l mem_cons_self)
                rw [map_cons, size_cons, size_cons, length_cons]
                omega
            have htaken := hbodies ((line :: rest).takeWhile isQuote) fun l hl => mem_takeWhile_imp hl
            have hsplit : size ((line :: rest).takeWhile isQuote) ≤ size (line :: rest) := by
              conv_rhs => rw [← takeWhile_append_dropWhile (p := isQuote) (l := line :: rest)]
              unfold size
              rw [map_append, sum_append]
              exact Nat.le_add_right _ _
            have hpos : 0 < ((line :: rest).takeWhile isQuote).length := by
              rw [takeWhile_cons_of_pos hquote]
              exact Nat.succ_pos _
            omega
          next =>
            split at h
            next => cases h
            next =>
              split at h
              next => cases h
              next => cases h

/-- one turn of the loop -/
theorem renderBlocks_cons (fuel : ℕ) (line : Text) (rest : List Text) (stack : List ListFrame) (out : List Text) :
    ∃ stack' out', renderBlocks assetUrl (fuel + 1) (line :: rest) stack out =
        renderBlocks assetUrl fuel (blockAt line rest).2 stack' out' ∨
      ∃ inner, (blockAt line rest).1 = .quote inner ∧
        renderBlocks assetUrl (fuel + 1) (line :: rest) stack out =
          (renderBlocks assetUrl fuel inner [] []).bind fun body =>
            renderBlocks assetUrl fuel (blockAt line rest).2 [] (out ++ closeAllLists stack ++
              [inElement "blockquote".toList body]) := by
  rw [renderBlocks]
  split
  next inner after heq => exact ⟨[], [], .inr ⟨inner, by rw [heq], by rw [heq]⟩⟩
  next heq => exact ⟨_, _, .inl (by rw [heq])⟩
  next heq => exact ⟨_, _, .inl (by rw [heq])⟩

/-- more fuel changes no output -/
theorem renderBlocks_succ {fuel : ℕ} {out : List Text} {result : Text}
    (h : renderBlocks assetUrl fuel lines stack out = some result) :
    renderBlocks assetUrl (fuel + 1) lines stack out = some result := by
  induction fuel generalizing lines stack out result with
  | zero => cases h
  | succ fuel ih =>
    cases lines with
    | nil => exact h
    | cons line rest =>
      rw [renderBlocks] at h ⊢
      split at h
      next inner after heq =>
        obtain ⟨body, hbody, h⟩ := bind_eq_some_iff.1 h
        rw [ih hbody, bind_some]
        exact ih h
      next => exact ih h
      next => exact ih h

theorem renderBlocks_mono {fuel more : ℕ} {out : List Text} {result : Text} (hle : fuel ≤ more)
    (h : renderBlocks assetUrl fuel lines stack out = some result) :
    renderBlocks assetUrl more lines stack out = some result := by
  induction more, hle using Nat.le_induction with
  | base => exact h
  | succ n _ ih => exact renderBlocks_succ ih

theorem Begins.trans (h : Begins lines after) {last : List Text} (h' : Begins after last) : Begins lines last := by
  induction h' with
  | start => exact h
  | next _ ih => exact .next ih
  | quoted _ hquote ih => exact .quoted ih hquote

/-- where no block begins at a stuck line, enough fuel gives the output -/
theorem renderBlocks_ends (h : ∀ line rest, Begins lines (line :: rest) → ¬ Stuck line rest)
    (stack : List ListFrame) (out : List Text) :
    ∃ fuel result, renderBlocks assetUrl fuel lines stack out = some result := by
  induction hn : size lines using Nat.strong_induction_on generalizing lines stack out with
  | _ n ih =>
    subst hn
    cases lines with
    | nil => exact ⟨1, _, rfl⟩
    | cons line rest =>
      have hafter : size (blockAt line rest).2 < size (line :: rest) := by
        have hle := size_le_of_suffix (blockAt_suffix (h line rest .start))
        rw [size_cons]
        omega
      have hrest : ∀ l r, Begins (blockAt line rest).2 (l :: r) → ¬ Stuck l r :=
        fun l r hbegins => h l r ((Begins.next .start).trans hbegins)
      cases hblock : blockAt line rest with
      | mk block after =>
        rw [hblock] at hafter hrest
        cases block with
        | quote inner =>
          have hquote : (blockAt line rest).1 = .quote inner := by rw [hblock]
          have hinner : ∀ l r, Begins inner (l :: r) → ¬ Stuck l r :=
            fun l r hbegins => h l r ((Begins.quoted .start hquote).trans hbegins)
          obtain ⟨fuel, body, hbody⟩ := ih _ (size_quote hquote) hinner [] [] rfl
          obtain ⟨fuel', result, hresult⟩ := ih _ hafter hrest []
            (out ++ closeAllLists stack ++ [inElement "blockquote".toList body]) rfl
          refine ⟨max fuel fuel' + 1, result, ?_⟩
          rw [renderBlocks, hblock]
          dsimp only
          rw [renderBlocks_mono (le_max_left fuel fuel') hbody, bind_some]
          exact renderBlocks_mono (le_max_right fuel fuel') hresult
        | item indent type text =>
          obtain ⟨fuel, result, hresult⟩ := ih _ hafter hrest (openItem stack type indent).2
            (out ++ (openItem stack type indent).1 ++ Block.html assetUrl (.item indent type text)) rfl
          exact ⟨fuel + 1, result, by rw [renderBlocks, hblock]; exact hresult⟩
        | _ =>
          obtain ⟨fuel, result, hresult⟩ :=
            ih _ hafter hrest [] (out ++ closeAllLists stack ++ Block.html assetUrl _) rfl
          exact ⟨fuel + 1, result, by rw [renderBlocks, hblock]; exact hresult⟩

/-- where there is an output, the loop comes to every block -/
theorem renderBlocks_of_begins (h : Begins lines after)
    (hresult : ∃ fuel stack out result, renderBlocks assetUrl fuel lines stack out = some result) :
    ∃ fuel stack out result, renderBlocks assetUrl fuel after stack out = some result := by
  induction h with
  | start => exact hresult
  | @next line rest _ ih =>
    obtain ⟨fuel, stack, out, result, hrun⟩ := ih
    cases fuel with
    | zero => cases hrun
    | succ fuel =>
      obtain ⟨stack', out', hturn | ⟨inner, _, hturn⟩⟩ := @renderBlocks_cons assetUrl fuel line rest stack out
      · exact ⟨fuel, stack', out', result, hturn ▸ hrun⟩
      · rw [hturn] at hrun
        obtain ⟨body, _, hrun⟩ := bind_eq_some_iff.1 hrun
        exact ⟨fuel, _, _, result, hrun⟩
  | @quoted line rest inner _ hquote ih =>
    obtain ⟨fuel, stack, out, result, hrun⟩ := ih
    cases fuel with
    | zero => cases hrun
    | succ fuel =>
      cases hblock : blockAt line rest with
      | mk block after =>
        rw [hblock] at hquote
        obtain rfl : block = .quote inner := hquote
        rw [renderBlocks, hblock] at hrun
        obtain ⟨body, hbody, _⟩ := bind_eq_some_iff.1 hrun
        exact ⟨fuel, _, _, body, hbody⟩

/-- at a stuck line the loop stays for ever -/
theorem renderBlocks_stuck (h : Stuck line rest) (fuel : ℕ) (stack : List ListFrame) (out : List Text) :
    renderBlocks assetUrl fuel (line :: rest) stack out = none := by
  induction fuel generalizing stack out with
  | zero => rfl
  | succ fuel ih =>
    rw [renderBlocks, blockAt_stuck h]
    exact ih _ _

/-- **When the note renderer ends.** For every note there is an output exactly if no block begins at a stuck line, in
the note or in the body of a quote: at any other line a turn of the loop takes at least that line, at a stuck one it
takes none. The body of a quote is smaller than what it is taken from. -/
theorem note_html_ends_iff (assetUrl : Text → Option Text) (md : Text) :
    ((∃ fuel out, renderNoteHtml assetUrl fuel md = some out) ↔
      ∀ line rest, Begins (noteLines md) (line :: rest) → ¬ Stuck line rest) ∧
    (∀ line rest, (blockAt line rest).2.length < (line :: rest).length ↔ ¬ Stuck line rest) ∧
    ∀ line rest inner, (blockAt line rest).1 = .quote inner → size inner < size (line :: rest) := by
  refine ⟨⟨?_, ?_⟩, fun line rest => ⟨?_, ?_⟩, fun line rest inner h => size_quote h⟩
  · intro hends line rest hbegins hstuck
    obtain ⟨fuel, out, hout⟩ := hends
    obtain ⟨fuel', stack, out', result, hrun⟩ := renderBlocks_of_begins hbegins ⟨fuel, [], [], out, hout⟩
    rw [renderBlocks_stuck hstuck] at hrun
    cases hrun
  · exact fun h => renderBlocks_ends h [] []
  · intro hlt hstuck
    rw [blockAt_stuck hstuck] at hlt
    exact lt_irrefl _ hlt
  · intro h
    have hle := (blockAt_suffix h).length_le
    rw [length_cons]
    omega

section Runs

/-- the URL of the public page -/
def assetOf (rel : Text) : Option Text := some ("/p/t/a/".toList ++ rel)

/-- an image whose text closes a tag -/
theorem note_html_safe_image :
    Html assetOf (("<p><img src=\"/p/t/a/a.png\" alt=\"&#34;&#62;\" loading=\"lazy\" /></p>").toList) :=
  (note_html_safe assetOf 3 "![\">](a.png)".toList _ (by decide +kernel)).1

/-- the note `# a`, a carriage return and `b` is never rendered -/
theorem heading_with_return_stuck : ¬ ∃ fuel html, renderNoteHtml assetOf fuel "# a\rb".toList = some html := by
  intro ⟨fuel, html, hrendered⟩
  have hlines : noteLines "# a\rb".toList = ["# a\rb".toList] := by decide +kernel
  have hstuck : Stuck "# a\rb".toList [] := ⟨by decide +kernel, ⟨'\r', by decide +kernel, rfl⟩, by decide +kernel⟩
  rw [renderNoteHtml, hlines, renderBlocks_stuck hstuck fuel [] []] at hrendered
  cases hrendered

end Runs

end

end Baalda.NoteHtml
