/-
The bytes of a search page (`encodePage`, `decodePage`, `pageRowTokens` in index/search-pages.ts), little-endian:

  format u32 = 1 | rows u32 | vocab bytes u32 | id width u32 | digest 32
  rows × 256 doubles | vocab utf8 | (rows + 1) × start u32 | ids of the tokens, 2 or 4 bytes each

The vocabulary holds each word once, the rows have its numbers. The digest is of the rows' ids and stamps, joined by
line feeds, with a NUL between the two. A double is its 64 bits.

`page_round_trip`: what `encodePage` makes of rows with token sets is decoded to the same rows, whatever the size of the
vocabulary, and not at all when bytes are cut off or appended. `page_bound_iff`: it is rejected with other ids or stamps
exactly where these do not join to the same text.
-/
import Baalda.Lib.Bytes
import Baalda.Lib.Utf8
import Baalda.Server.SearchTokens

namespace Baalda.PageCodec

open Bytes SearchTokens List

/-! ## Model -/

def embedDim : ℕ := 256

def pageRows : ℕ := 500

def pageFormat : ℕ := 1

def headerBytes : ℕ := 48

/-- 256 numbers, by their bits; none of them is infinite or not a number -/
structure Embedding where
  entries : List UInt64
  length : entries.length = embedDim
  finite : ∀ x ∈ entries, x.toNat / 2 ^ 52 % 2048 ≠ 2047

structure PageRowSource where
  id : Text
  stamp : Text
  vector : Embedding
  tokens : Text

structure SearchPage where
  ids : List Text
  stamps : List Text
  vectors : List UInt64
  vocab : List Text
  tokStart : List ℕ
  tokIds : List ℕ
  deriving DecidableEq

/-- `Buffer.from(text, "utf8")` -/
def utf8 (text : Text) : List UInt8 := (text.map fun c => c.toNat).flatMap Utf8.bytes

/-- `toString("utf8")` -/
def ofUtf8 (b : List UInt8) : Text := (Utf8.decodeFrom none b).map Char.ofNat

/-- `texts.join("\n")` -/
def lines (texts : List Text) : Text := ['\n'].intercalate texts

/-- what the digest is of -/
def rowsText (ids stamps : List Text) : Text := lines ids ++ '\x00' :: lines stamps

abbrev Digest := { d : List UInt8 // d.length = 32 }

/-- the number of a word, and the vocabulary with it -/
def internToken (vocabIndex : List Text) (t : Text) : List Text × ℕ :=
  match vocabIndex.idxOf? t with
  | some id => (vocabIndex, id)
  | none => (vocabIndex ++ [t], vocabIndex.length)

def internTokens : List Text → List Text → List Text × List ℕ
  | vocabIndex, [] => (vocabIndex, [])
  | vocabIndex, t :: ts =>
    let (vocabIndex, id) := internToken vocabIndex t
    let (vocabIndex, ids) := internTokens vocabIndex ts
    (vocabIndex, id :: ids)

/-- the words of a token string, in a page -/
def wordsOf (tokens : Text) : List Text := if tokens = [] then [] else tokens.splitOn ' '

def internRows : List Text → List Text → List Text × List (List ℕ)
  | vocabIndex, [] => (vocabIndex, [])
  | vocabIndex, tokens :: rows =>
    let (vocabIndex, ids) := internTokens vocabIndex (wordsOf tokens)
    let (vocabIndex, rowTokens) := internRows vocabIndex rows
    (vocabIndex, ids :: rowTokens)

/-- where each row's ids start, and where the last one's end -/
def starts : ℕ → List (List ℕ) → List ℕ
  | start, [] => [start]
  | start, ids :: rowTokens => start :: starts (start + ids.length) rowTokens

section

variable (sha256 : List UInt8 → Digest)

def rowsDigest (ids stamps : List Text) : List UInt8 := (sha256 (utf8 (rowsText ids stamps))).1

/-- `none`: a number does not fit its field -/
def encodePage (rows : List PageRowSource) : Option (List UInt8) :=
  let (vocabIndex, rowTokens) := internRows [] (rows.map PageRowSource.tokens)
  let vocab := utf8 (lines vocabIndex)
  let idWidth := if 0xffff < vocabIndex.length then 4 else 2
  let tokStart := starts 0 rowTokens
  if rows.length < 256 ^ 4 ∧ vocab.length < 256 ^ 4 ∧ (∀ n ∈ tokStart, n < 256 ^ 4) ∧
      ∀ id ∈ rowTokens.flatten, id < 256 ^ idWidth then
    some (le 4 pageFormat ++ le 4 rows.length ++ le 4 vocab.length ++ le 4 idWidth ++
      rowsDigest sha256 (rows.map PageRowSource.id) (rows.map PageRowSource.stamp) ++
      numbers 8 (rows.flatMap fun r => r.vector.entries.map UInt64.toNat) ++ vocab ++ numbers 4 tokStart ++
      numbers idWidth rowTokens.flatten)
  else none

/-- the doubles of a page; what the bytes do not reach is zero -/
def readDoubles : ℕ → List UInt8 → List UInt64
  | 0, _ => []
  | n + 1, b => UInt64.ofNat (ofLe (b.take 8)) :: readDoubles n (b.drop 8)

/-- `plain.readUInt32LE(i)` in the header -/
def headerField (plain : List UInt8) (i : ℕ) : ℕ := ofLe ((plain.drop i).take 4)

/-- `none` throws -/
def decodePage (plain : List UInt8) (ids stamps : List Text) : Option SearchPage :=
  if plain.length < headerBytes ∨ headerField plain 0 ≠ pageFormat then none
  else
    let n := headerField plain 4
    let vocabBytes := headerField plain 8
    let idWidth := headerField plain 12
    if n ≠ ids.length ∨ n ≠ stamps.length ∨ (idWidth ≠ 2 ∧ idWidth ≠ 4) then none
    else if (plain.drop 16).take 32 ≠ rowsDigest sha256 ids stamps then none
    else
      let afterVectors := plain.drop (headerBytes + n * embedDim * 8)
      let vocab := if vocabBytes = 0 then [] else (ofUtf8 (afterVectors.take vocabBytes)).splitOn '\n'
      let afterVocab := afterVectors.drop vocabBytes
      (readNumbers 4 (n + 1) afterVocab).bind fun tokStart =>
        let total := tokStart.getD n 0
        let afterStarts := afterVocab.drop ((n + 1) * 4)
        if afterStarts.length ≠ total * idWidth then none
        else
          (readNumbers idWidth total afterStarts).bind fun tokIds =>
            if tokIds.any fun id => vocab.length ≤ id then none
            else
              some {
                ids := ids
                stamps := stamps
                vectors := readDoubles (n * embedDim) (plain.drop headerBytes)
                vocab := vocab
                tokStart := tokStart
                tokIds := tokIds }

end

namespace SearchPage

variable (p : SearchPage)

/-- `tokIds[tokStart[r] .. tokStart[r + 1])` -/
def rowIds (r : ℕ) : List ℕ :=
  (p.tokIds.drop (p.tokStart.getD r 0)).take (p.tokStart.getD (r + 1) 0 - p.tokStart.getD r 0)

def pageRowTokens (r : ℕ) : Text := join ((p.rowIds r).map fun id => p.vocab.getD id [])

/-- row `r`'s vector -/
def rowVector (r : ℕ) : List UInt64 := (p.vectors.drop (r * embedDim)).take embedDim

end SearchPage

/-! ## The vocabulary -/

section

variable {vocab vocab' ws ts : List Text} {t : Text} {id : ℕ} {ids : List ℕ} {rowTokens : List (List ℕ)}

/-- what the words take, with a separator after each -/
def weight (ws : List Text) : ℕ := (ws.map fun w => w.length + 1).sum

/-- what a list of words becomes in a vocabulary that grows for it -/
structure Interned (vocab ts vocab' : List Text) (ids : List ℕ) : Prop where
  grows : vocab <+: vocab'
  words : ∀ w ∈ vocab', w ∈ vocab ∨ w ∈ ts
  weight : weight vocab' ≤ weight vocab + PageCodec.weight ts
  found : ids.map (fun id => vocab'[id]?) = ts.map some

theorem weight_append (ws ts : List Text) : weight (ws ++ ts) = weight ws + weight ts := by
  rw [weight, map_append, sum_append]
  rfl

theorem getElem?_of_grows (h : vocab <+: vocab') {w : Text} (hid : vocab[id]? = some w) : vocab'[id]? = some w := by
  obtain ⟨more, rfl⟩ := h
  rw [List.getElem?_append_left (List.getElem?_eq_some_iff.1 hid).1, hid]

theorem internToken_spec (h : internToken vocab t = (vocab', id)) : Interned vocab [t] vocab' [id] := by
  unfold internToken at h
  split at h
  next i hfound =>
    cases h
    refine ⟨prefix_rfl, fun w hw => .inl hw, Nat.le_add_right _ _, ?_⟩
    obtain ⟨hlt, heq, _⟩ := idxOf?_eq_some_iff.1 hfound
    simp [getElem?_eq_getElem hlt, heq]
  next =>
    cases h
    refine ⟨prefix_append _ _, fun w hw => mem_append.1 hw, (weight_append _ _).le, ?_⟩
    simp

theorem Interned.append (h : Interned vocab ws vocab' ids) {vocab'' : List Text} {ids' : List ℕ}
    (h' : Interned vocab' ts vocab'' ids') : Interned vocab (ws ++ ts) vocab'' (ids ++ ids') := by
  refine ⟨h.grows.trans h'.grows, fun w hw => ?_, ?_, ?_⟩
  · rcases h'.words w hw with hold | hnew
    · exact (h.words w hold).imp_right (mem_append_left ts)
    · exact .inr (mem_append_right ws hnew)
  · rw [weight_append]
    have hfirst := h.weight
    have hsecond := h'.weight
    omega
  · rw [map_append, map_append, h'.found]
    refine congrArg (· ++ _) ?_
    rw [← h.found]
    have hall : ∀ id ∈ ids, ∃ w, vocab'[id]? = some w := by
      intro id hid
      have hin : vocab'[id]? ∈ ws.map some := h.found ▸ mem_map_of_mem hid
      obtain ⟨w, _, hw⟩ := mem_map.1 hin
      exact ⟨w, hw.symm⟩
    refine map_congr_left fun id hid => ?_
    obtain ⟨w, hw⟩ := hall id hid
    rw [hw, getElem?_of_grows h'.grows hw]

theorem interned_nil : Interned vocab [] vocab [] := ⟨prefix_rfl, fun _ => .inl, Nat.le_add_right _ _, rfl⟩

theorem internTokens_spec (h : internTokens vocab ts = (vocab', ids)) : Interned vocab ts vocab' ids := by
  induction ts generalizing vocab ids with
  | nil =>
    cases h
    exact interned_nil
  | cons t ts ih =>
    rw [internTokens] at h
    cases hfirst : internToken vocab t with
    | mk vocab₁ id =>
      cases hrest : internTokens vocab₁ ts with
      | mk vocab₂ ids' =>
        rw [hfirst] at h
        dsimp only at h
        rw [hrest] at h
        cases h
        exact (internToken_spec hfirst).append (ih hrest)

/-- each row has the numbers of its words, and all rows together those of all words -/
theorem internRows_spec {rows : List Text} (h : internRows vocab rows = (vocab', rowTokens)) :
    Interned vocab (rows.flatMap wordsOf) vocab' rowTokens.flatten ∧
      rowTokens.map (fun ids => ids.map fun id => vocab'[id]?) = rows.map fun tokens => (wordsOf tokens).map some := by
  induction rows generalizing vocab rowTokens with
  | nil =>
    cases h
    exact ⟨interned_nil, rfl⟩
  | cons tokens rows ih =>
    rw [internRows] at h
    cases hfirst : internTokens vocab (wordsOf tokens) with
    | mk vocab₁ ids =>
      cases hrest : internRows vocab₁ rows with
      | mk vocab₂ rowTokens' =>
        rw [hfirst] at h
        dsimp only at h
        rw [hrest] at h
        cases h
        obtain ⟨hinterned, hrows⟩ := ih hrest
        have hrow := internTokens_spec hfirst
        refine ⟨hrow.append hinterned, ?_⟩
        rw [map_cons, map_cons, hrows]
        refine congrArg (· :: _) ?_
        rw [← hrow.found]
        refine map_congr_left fun id hid => ?_
        have hin : vocab₁[id]? ∈ (wordsOf tokens).map some := hrow.found ▸ mem_map_of_mem hid
        obtain ⟨w, _, hw⟩ := mem_map.1 hin
        rw [← hw, getElem?_of_grows hinterned.grows hw.symm]

theorem length_intercalate {x : Char} {ws : List Text} (hne : ws ≠ []) :
    ([x].intercalate ws).length + 1 = weight ws := by
  induction ws with
  | nil => exact absurd rfl hne
  | cons w ws ih =>
    cases ws with
    | nil => simp [weight]
    | cons w' ws =>
      rw [intercalate_cons_cons, length_append, length_append, length_singleton]
      have hrest := ih (cons_ne_nil _ _)
      have hsum : weight (w :: w' :: ws) = w.length + 1 + weight (w' :: ws) := rfl
      omega

theorem weight_wordsOf (tokens : Text) : weight (wordsOf tokens) ≤ tokens.length + 1 := by
  unfold wordsOf
  split
  next => exact Nat.zero_le _
  next =>
    have hne : tokens.splitOn ' ' ≠ [] := splitOn_ne_nil _ _
    have hlen := length_intercalate (x := ' ') hne
    rw [intercalate_splitOn] at hlen
    exact hlen.ge

theorem wordsOf_join {parts : List Text} (h : ∀ t ∈ parts, IsWord t) : wordsOf (join parts) = parts := by
  cases parts with
  | nil => rfl
  | cons p parts =>
    have hne : join (p :: parts) ≠ [] := by
      have hlen := length_intercalate (x := ' ') (cons_ne_nil p parts)
      have hpos : 0 < p.length := length_pos_iff.2 (h p mem_cons_self).nonempty
      have hsum : weight (p :: parts) = p.length + 1 + weight parts := rfl
      intro hnil
      unfold join at hnil
      rw [hnil, length_nil] at hlen
      omega
    have hspaces : ∀ t ∈ p :: parts, ' ' ∉ t := fun t ht => (h t ht).space_notMem
    rw [wordsOf, if_neg hne, join, splitOn_intercalate ' ' hspaces (cons_ne_nil _ _)]

/-- where the ids of row `r` start -/
theorem starts_getD {r start : ℕ} (hr : r < rowTokens.length) (before : List ℕ) (hbefore : before.length = start) :
    ((before ++ rowTokens.flatten).drop ((starts start rowTokens).getD r 0)).take
      ((starts start rowTokens).getD (r + 1) 0 - (starts start rowTokens).getD r 0) = rowTokens[r] := by
  induction rowTokens generalizing r start before with
  | nil => exact absurd hr (Nat.not_lt_zero r)
  | cons ids rest ih =>
    cases r with
    | zero =>
      have hnext : (starts start (ids :: rest)).getD 1 0 = start + ids.length := by
        cases rest <;> rfl
      rw [hnext]
      change ((before ++ (ids ++ rest.flatten)).drop start).take (start + ids.length - start) = ids
      rw [drop_left' hbefore, Nat.add_sub_cancel_left, take_left' rfl]
    | succ r =>
      have hrest := ih (Nat.lt_of_succ_lt_succ hr) (before ++ ids) (by rw [length_append, hbefore])
      rw [append_assoc] at hrest
      exact hrest

@[simp] theorem length_starts (start : ℕ) (rowTokens : List (List ℕ)) :
    (starts start rowTokens).length = rowTokens.length + 1 := by
  induction rowTokens generalizing start with
  | nil => rfl
  | cons ids rest ih => rw [starts, length_cons, ih, length_cons]

theorem starts_last (start : ℕ) (rowTokens : List (List ℕ)) :
    (starts start rowTokens).getD rowTokens.length 0 = start + rowTokens.flatten.length := by
  induction rowTokens generalizing start with
  | nil => rfl
  | cons ids rest ih =>
    rw [starts, length_cons, getD_cons_succ, ih, flatten_cons, length_append]
    omega

theorem starts_le {start n : ℕ} (h : n ∈ starts start rowTokens) : n ≤ start + rowTokens.flatten.length := by
  induction rowTokens generalizing start with
  | nil =>
    rw [mem_singleton.1 h]
    exact Nat.le_add_right _ _
  | cons ids rest ih =>
    rw [flatten_cons, length_append]
    rcases mem_cons.1 h with rfl | h
    · omega
    · have hrest := ih h
      omega

end

/-! ## The bytes -/

section

variable {text : Text} {plain rest : List UInt8}

theorem isScalar_toNat (c : Char) : Utf8.IsScalar c.toNat := by
  rcases c.valid with h | h
  · exact .inl h
  · exact .inr ⟨h.1, h.2⟩

theorem ofUtf8_utf8 (text : Text) : ofUtf8 (utf8 text) = text := by
  rw [ofUtf8, utf8, Utf8.decodeFrom_flatMap, map_map]
  · conv_rhs => rw [← map_id text]
    exact map_congr_left fun c _ => Char.ofNat_toNat c
  · intro n hn
    obtain ⟨c, _, rfl⟩ := mem_map.1 hn
    exact isScalar_toNat c

theorem utf8_injective : Function.Injective utf8 := fun a b h => by
  rw [← ofUtf8_utf8 a, h, ofUtf8_utf8]

theorem length_utf8 (text : Text) : (utf8 text).length ≤ 4 * text.length := by
  induction text with
  | nil => rfl
  | cons c text ih =>
    have hhead : utf8 (c :: text) = Utf8.bytes c.toNat ++ utf8 text := rfl
    have hbytes : (Utf8.bytes c.toNat).length ≤ 4 := by
      unfold Utf8.bytes
      split_ifs <;> simp
    rw [hhead, length_append, length_cons]
    omega

theorem readDoubles_numbers (xs : List UInt64) (rest : List UInt8) :
    readDoubles xs.length (numbers 8 (xs.map UInt64.toNat) ++ rest) = xs := by
  induction xs with
  | nil => rfl
  | cons x xs ih =>
    have hhead : numbers 8 ((x :: xs).map UInt64.toNat) ++ rest =
        le 8 x.toNat ++ (numbers 8 (xs.map UInt64.toNat) ++ rest) := by
      rfl
    rw [hhead, length_cons, readDoubles, drop_left' (length_le 8 _), take_left' (length_le 8 _),
      ofLe_le x.toNat_lt, ih, UInt64.ofNat_toNat]

/-- the bytes of a page, by their parts -/
structure Layout where
  n : ℕ
  idWidth : ℕ
  digest : List UInt8
  vectors : List UInt64
  vocab : List UInt8
  tokStart : List ℕ
  tokIds : List ℕ

def Layout.bytes (l : Layout) : List UInt8 :=
  le 4 pageFormat ++ le 4 l.n ++ le 4 l.vocab.length ++ le 4 l.idWidth ++ l.digest ++
    numbers 8 (l.vectors.map UInt64.toNat) ++ l.vocab ++ numbers 4 l.tokStart ++ numbers l.idWidth l.tokIds

def Layout.words (l : Layout) : List Text := if l.vocab.length = 0 then [] else (ofUtf8 l.vocab).splitOn '\n'

/-- the parts fit their fields and one another -/
structure Layout.Fits (l : Layout) : Prop where
  n : l.n < 256 ^ 4
  vocab : l.vocab.length < 256 ^ 4
  idWidth : l.idWidth = 2 ∨ l.idWidth = 4
  digest : l.digest.length = 32
  vectors : l.vectors.length = l.n * embedDim
  tokStart : l.tokStart.length = l.n + 1
  starts : ∀ n ∈ l.tokStart, n < 256 ^ 4
  last : l.tokStart.getD l.n 0 = l.tokIds.length
  ids : ∀ id ∈ l.tokIds, id < 256 ^ l.idWidth
  inVocab : ∀ id ∈ l.tokIds, id < l.words.length

def Layout.page (l : Layout) (ids stamps : List Text) : SearchPage where
  ids := ids
  stamps := stamps
  vectors := l.vectors
  vocab := l.words
  tokStart := l.tokStart
  tokIds := l.tokIds

variable {sha256 : List UInt8 → Digest} {ids stamps : List Text} {l : Layout}

theorem Layout.header (h : l.Fits) : headerBytes ≤ l.bytes.length ∧ headerField l.bytes 0 = pageFormat ∧
    headerField l.bytes 4 = l.n ∧ headerField l.bytes 8 = l.vocab.length ∧ headerField l.bytes 12 = l.idWidth ∧
    (l.bytes.drop 16).take 32 = l.digest ∧
    l.bytes.drop headerBytes = numbers 8 (l.vectors.map UInt64.toNat) ++
      (l.vocab ++ (numbers 4 l.tokStart ++ numbers l.idWidth l.tokIds)) := by
  have hdigest := h.digest
  have hwidth : l.idWidth < 256 ^ 4 := by
    rcases h.idWidth with hw | hw <;> rw [hw] <;> norm_num
  have hformat : ofLe (le 4 pageFormat) = pageFormat := ofLe_le (by norm_num [pageFormat])
  have hn : ofLe (le 4 l.n) = l.n := ofLe_le h.n
  have hvocab : ofLe (le 4 l.vocab.length) = l.vocab.length := ofLe_le h.vocab
  have hids : ofLe (le 4 l.idWidth) = l.idWidth := ofLe_le hwidth
  unfold Layout.bytes headerField headerBytes
  simp only [append_assoc]
  refine ⟨?_, ?_, ?_, ?_, ?_, ?_, ?_⟩
  · simp only [length_append, length_le, hdigest]
    omega
  · rw [drop_zero, take_left' (length_le 4 _), hformat]
  · rw [drop_left' (length_le 4 _), take_left' (length_le 4 _), hn]
  · rw [← append_assoc (le 4 pageFormat), drop_left' (by simp), take_left' (length_le 4 _), hvocab]
  · rw [← append_assoc (le 4 pageFormat), ← append_assoc (le 4 pageFormat ++ _), drop_left' (by simp),
      take_left' (length_le 4 _), hids]
  · rw [← append_assoc (le 4 pageFormat), ← append_assoc (le 4 pageFormat ++ _),
      ← append_assoc (le 4 pageFormat ++ _ ++ _), drop_left' (by simp), take_left' hdigest]
  · rw [← append_assoc (le 4 pageFormat), ← append_assoc (le 4 pageFormat ++ _),
      ← append_assoc (le 4 pageFormat ++ _ ++ _), ← append_assoc (le 4 pageFormat ++ _ ++ _ ++ _),
      drop_left' (by simp [hdigest])]

/-- **A page of a layout** is decoded with the ids and stamps that its digest is of, and with no others. -/
theorem decodePage_bytes (h : l.Fits) : decodePage sha256 l.bytes ids stamps =
    if l.n = ids.length ∧ l.n = stamps.length ∧ l.digest = rowsDigest sha256 ids stamps then some (l.page ids stamps)
    else none := by
  obtain ⟨hlen, hformat, hn, hvocab, hwidth, hdigest, hrest⟩ := Layout.header h
  have hok : ¬ (l.bytes.length < headerBytes ∨ headerField l.bytes 0 ≠ pageFormat) := by
    intro hbad
    rcases hbad with hshort | hno
    · omega
    · exact hno hformat
  unfold decodePage
  rw [if_neg hok]
  dsimp only
  rw [hn, hvocab, hwidth, hdigest, ← drop_drop, hrest]
  by_cases hall : l.n = ids.length ∧ l.n = stamps.length ∧ l.digest = rowsDigest sha256 ids stamps
  · rw [if_pos hall]
    have hheader : ¬ (l.n ≠ ids.length ∨ l.n ≠ stamps.length ∨ (l.idWidth ≠ 2 ∧ l.idWidth ≠ 4)) := by
      intro hbad
      rcases hbad with hids | hstamps | hwidths
      · exact hids hall.1
      · exact hstamps hall.2.1
      · exact h.idWidth.elim hwidths.1 hwidths.2
    have hsame : ¬ l.digest ≠ rowsDigest sha256 ids stamps := not_not.2 hall.2.2
    have hvectors : (numbers 8 (l.vectors.map UInt64.toNat)).length = l.n * embedDim * 8 := by
      rw [length_numbers, length_map, h.vectors]
    have hstarts :
        readNumbers 4 (l.n + 1) (numbers 4 l.tokStart ++ numbers l.idWidth l.tokIds) = some l.tokStart := by
      rw [← h.tokStart]
      exact readNumbers_numbers h.starts _
    have hstartsLen : (numbers 4 l.tokStart).length = (l.n + 1) * 4 := by rw [length_numbers, h.tokStart]
    have hidsLen : ¬ (numbers l.idWidth l.tokIds).length ≠ l.tokIds.length * l.idWidth :=
      not_not.2 (length_numbers _ _)
    have htokens : readNumbers l.idWidth l.tokIds.length (numbers l.idWidth l.tokIds) = some l.tokIds := by
      have hread := readNumbers_numbers h.ids []
      rwa [append_nil] at hread
    have hdoubles := readDoubles_numbers l.vectors (l.vocab ++ (numbers 4 l.tokStart ++ numbers l.idWidth l.tokIds))
    rw [h.vectors] at hdoubles
    have hin : ¬ (l.tokIds.any fun id => decide (l.words.length ≤ id)) = true := by
      intro hany
      obtain ⟨id, hid, hle⟩ := any_eq_true.1 hany
      exact absurd (h.inVocab id hid) (not_lt.2 (of_decide_eq_true hle))
    rw [if_neg hheader, if_neg hsame, drop_left' hvectors, drop_left' rfl, take_left' rfl, hstarts,
      Option.bind_some, drop_left' hstartsLen, h.last, if_neg hidsLen, htokens, Option.bind_some, hdoubles]
    exact if_neg hin
  · split
    next => rfl
    next hheader =>
      push Not at hheader
      have hsame : l.digest ≠ rowsDigest sha256 ids stamps := fun hsame => hall ⟨hheader.1, hheader.2.1, hsame⟩
      exact if_pos hsame

theorem headerField_append {i : ℕ} (h : i + 4 ≤ plain.length) (more : List UInt8) :
    headerField (plain ++ more) i = headerField plain i := by
  unfold headerField
  rw [drop_append_of_le_length (by omega), take_append_of_le_length (by rw [length_drop]; omega)]

/-- where the starts of a page are, by its header -/
def startsAt (plain : List UInt8) : ℕ := headerBytes + headerField plain 4 * embedDim * 8 + headerField plain 8

/-- what is decoded has the length that its header and its starts say -/
theorem length_of_decodePage {p : SearchPage} (h : decodePage sha256 plain ids stamps = some p) :
    headerBytes ≤ plain.length ∧
      ∃ tokStart, readNumbers 4 (headerField plain 4 + 1) (plain.drop (startsAt plain)) = some tokStart ∧
        startsAt plain ≤ plain.length ∧
        plain.length = startsAt plain + (headerField plain 4 + 1) * 4 +
          tokStart.getD (headerField plain 4) 0 * headerField plain 12 := by
  unfold decodePage at h
  split at h
  next => cases h
  next hformat =>
    dsimp only at h
    split at h
    next => cases h
    next =>
      split at h
      next => cases h
      next =>
        obtain ⟨tokStart, hstarts, h⟩ := Option.bind_eq_some_iff.1 h
        rw [drop_drop] at hstarts
        obtain ⟨_, hbytes⟩ := length_of_readNumbers hstarts
        rw [length_drop] at hbytes
        split at h
        next => cases h
        next hlength =>
          rw [not_not, length_drop, length_drop, length_drop] at hlength
          have hstart : startsAt plain = headerBytes + headerField plain 4 * embedDim * 8 + headerField plain 8 := rfl
          refine ⟨by omega, tokStart, hstarts, by omega, by omega⟩

/-- of byte strings that begin alike, one is decoded at most -/
theorem decodePage_prefix {p p' : SearchPage} {ids' stamps' : List Text} {more : List UInt8}
    (h : decodePage sha256 plain ids stamps = some p)
    (h' : decodePage sha256 (plain ++ more) ids' stamps' = some p') : more = [] := by
  obtain ⟨hheader, tokStart, hstarts, hle, hlen⟩ := length_of_decodePage h
  obtain ⟨_, tokStart', hstarts', _, hlen'⟩ := length_of_decodePage h'
  unfold headerBytes at hheader
  have hn : headerField (plain ++ more) 4 = headerField plain 4 := headerField_append (by omega) more
  have hvocab : headerField (plain ++ more) 8 = headerField plain 8 := headerField_append (by omega) more
  have hwidth : headerField (plain ++ more) 12 = headerField plain 12 := headerField_append (by omega) more
  have hat : startsAt (plain ++ more) = startsAt plain := by rw [startsAt, hn, hvocab, startsAt]
  rw [hat, hn, drop_append_of_le_length hle, readNumbers_prefix hstarts] at hstarts'
  cases hstarts'
  rw [hat, hn, hwidth, length_append, hlen] at hlen'
  have hzero : more.length = 0 := by omega
  exact length_eq_zero_iff.1 hzero

end

/-! ## The rows of a page -/

section

variable {sha256 : List UInt8 → Digest} {S : LowerCase} {rows : List PageRowSource}

/-- the tokens are a stored set, of a bound that the code has -/
def Stored (S : LowerCase) (tokens : Text) : Prop :=
  ∃ max ≤ sealedTokensMax, ∃ text, searchTokenSet S max text = some tokens

theorem Stored.words {tokens : Text} (h : Stored S tokens) :
    tokens.length ≤ sealedTokensMax ∧ tokens = join (wordsOf tokens) ∧ ∀ t ∈ wordsOf tokens, IsWord t := by
  obtain ⟨max, hmax, text, hset⟩ := h
  obtain ⟨hlen, parts, rfl, hparts⟩ := words_of_searchTokenSet hset
  rw [wordsOf_join hparts]
  exact ⟨hlen.trans hmax, rfl, hparts⟩

theorem weight_rows {texts : List Text} {bound : ℕ} (h : ∀ tokens ∈ texts, tokens.length ≤ bound) :
    weight (texts.flatMap wordsOf) ≤ texts.length * (bound + 1) := by
  induction texts with
  | nil => exact Nat.zero_le _
  | cons tokens texts ih =>
    have hhead : weight (wordsOf tokens) ≤ bound + 1 :=
      (weight_wordsOf tokens).trans (Nat.succ_le_succ (h tokens mem_cons_self))
    have htail := ih fun t ht => h t (mem_cons_of_mem tokens ht)
    rw [flatMap_cons, weight_append, length_cons, Nat.succ_mul]
    omega

theorem length_le_weight (ws : List Text) : ws.length ≤ weight ws := by
  induction ws with
  | nil => exact Nat.zero_le _
  | cons w ws ih =>
    have hsum : weight (w :: ws) = w.length + 1 + weight ws := rfl
    rw [length_cons]
    omega

theorem length_lines_le (ws : List Text) : (lines ws).length ≤ weight ws := by
  cases ws with
  | nil => exact Nat.zero_le _
  | cons w ws =>
    have hlen := length_intercalate (x := '\n') (cons_ne_nil w ws)
    exact (Nat.le_succ _).trans hlen.le

theorem Interned.lt {vocab ts vocab' : List Text} {ids : List ℕ} (h : Interned vocab ts vocab' ids) {id : ℕ}
    (hid : id ∈ ids) : id < vocab'.length := by
  have hin : vocab'[id]? ∈ ts.map some := h.found ▸ List.mem_map_of_mem hid
  obtain ⟨w, _, hw⟩ := List.mem_map.1 hin
  exact (List.getElem?_eq_some_iff.1 hw.symm).1

theorem Interned.length {vocab ts vocab' : List Text} {ids : List ℕ} (h : Interned vocab ts vocab' ids) :
    ids.length = ts.length := by
  have hlen := congrArg List.length h.found
  rwa [length_map, length_map] at hlen

def vocabOf (rows : List PageRowSource) : List Text := (internRows [] (rows.map PageRowSource.tokens)).1

def rowTokensOf (rows : List PageRowSource) : List (List ℕ) := (internRows [] (rows.map PageRowSource.tokens)).2

/-- the parts of the page of some rows -/
def layoutOf (sha256 : List UInt8 → Digest) (rows : List PageRowSource) : Layout where
  n := rows.length
  idWidth := if 0xffff < (vocabOf rows).length then 4 else 2
  digest := rowsDigest sha256 (rows.map PageRowSource.id) (rows.map PageRowSource.stamp)
  vectors := rows.flatMap fun r => r.vector.entries
  vocab := utf8 (lines (vocabOf rows))
  tokStart := starts 0 (rowTokensOf rows)
  tokIds := (rowTokensOf rows).flatten

theorem internRows_of (rows : List PageRowSource) :
    Interned [] ((rows.map PageRowSource.tokens).flatMap wordsOf) (vocabOf rows) (rowTokensOf rows).flatten ∧
      (rowTokensOf rows).map (fun ids => ids.map fun id => (vocabOf rows)[id]?) =
        (rows.map PageRowSource.tokens).map fun tokens => (wordsOf tokens).map some :=
  internRows_spec rfl

theorem length_rowTokensOf (rows : List PageRowSource) : (rowTokensOf rows).length = rows.length := by
  have hlen := congrArg List.length (internRows_of rows).2
  simpa only [length_map] using hlen

/-- the words of the vocabulary are words of the rows -/
theorem isWord_of_vocab (hstored : ∀ r ∈ rows, Stored S r.tokens) {w : Text} (hw : w ∈ vocabOf rows) : IsWord w := by
  rcases (internRows_of rows).1.words w hw with hnone | hrow
  · exact absurd hnone not_mem_nil
  · obtain ⟨tokens, htokens, hin⟩ := mem_flatMap.1 hrow
    obtain ⟨r, hr, rfl⟩ := mem_map.1 htokens
    exact (hstored r hr).words.2.2 w hin

theorem weight_page (hcount : rows.length ≤ pageRows) (hstored : ∀ r ∈ rows, Stored S r.tokens) :
    weight ((rows.map PageRowSource.tokens).flatMap wordsOf) ≤ pageRows * (sealedTokensMax + 1) := by
  have hbound : ∀ tokens ∈ rows.map PageRowSource.tokens, tokens.length ≤ sealedTokensMax := by
    intro tokens htokens
    obtain ⟨r, hr, rfl⟩ := mem_map.1 htokens
    exact (hstored r hr).words.1
  have hrows := weight_rows hbound
  rw [length_map] at hrows
  exact hrows.trans (Nat.mul_le_mul_right _ hcount)

theorem words_layoutOf (hstored : ∀ r ∈ rows, Stored S r.tokens) : (layoutOf sha256 rows).words = vocabOf rows := by
  unfold Layout.words layoutOf
  cases hvocab : vocabOf rows with
  | nil => rfl
  | cons w ws =>
    have hword : ∀ t ∈ w :: ws, IsWord t := fun t ht => isWord_of_vocab hstored (hvocab ▸ ht)
    have hlf : ∀ t ∈ w :: ws, '\n' ∉ t := fun t ht hmem => absurd ((hword t ht).chars _ hmem) (by decide)
    have hsplit : (ofUtf8 (utf8 (lines (w :: ws)))).splitOn '\n' = w :: ws := by
      rw [ofUtf8_utf8, lines, splitOn_intercalate '\n' hlf (cons_ne_nil w ws)]
    have hne : (utf8 (lines (w :: ws))).length ≠ 0 := by
      intro hzero
      have hempty : utf8 (lines (w :: ws)) = utf8 [] := length_eq_zero_iff.1 hzero
      have hlen := length_intercalate (x := '\n') (cons_ne_nil w ws)
      have hpos : 0 < w.length := length_pos_iff.2 (hword w mem_cons_self).nonempty
      have hsum : weight (w :: ws) = w.length + 1 + weight ws := rfl
      have hnil : (['\n'].intercalate (w :: ws)).length = 0 := congrArg List.length (utf8_injective hempty)
      omega
    rw [if_neg hne, hsplit]

theorem length_vectors (rows : List PageRowSource) :
    (rows.flatMap fun r => r.vector.entries).length = rows.length * embedDim := by
  induction rows with
  | nil => rfl
  | cons r rows ih =>
    rw [flatMap_cons, length_append, r.vector.length, ih, length_cons, Nat.succ_mul]
    omega

theorem drop_vectors (r : ℕ) (hr : r < rows.length) :
    ((rows.flatMap fun r => r.vector.entries).drop (r * embedDim)).take embedDim = rows[r].vector.entries := by
  induction rows generalizing r with
  | nil => exact absurd hr (Nat.not_lt_zero r)
  | cons row rows ih =>
    rw [flatMap_cons]
    cases r with
    | zero =>
      rw [Nat.zero_mul, drop_zero, take_left' row.vector.length]
      rfl
    | succ r =>
      have hsplit : (r + 1) * embedDim = embedDim + r * embedDim := by rw [Nat.succ_mul, Nat.add_comm]
      rw [hsplit, ← drop_drop, drop_left' row.vector.length, ih r (Nat.lt_of_succ_lt_succ hr)]
      rfl

theorem layoutOf_fits (hcount : rows.length ≤ pageRows) (hstored : ∀ r ∈ rows, Stored S r.tokens) :
    (layoutOf sha256 rows).Fits := by
  obtain ⟨hinterned, hrows⟩ := internRows_of rows
  have hweight := weight_page hcount hstored
  have hvocabWeight : weight (vocabOf rows) ≤ pageRows * (sealedTokensMax + 1) := by
    have hgrown := hinterned.weight
    have hzero : weight [] = 0 := rfl
    omega
  have hvocabLen : (vocabOf rows).length ≤ pageRows * (sealedTokensMax + 1) :=
    (length_le_weight _).trans hvocabWeight
  have htotal : (rowTokensOf rows).flatten.length ≤ pageRows * (sealedTokensMax + 1) := by
    rw [hinterned.length]
    exact (length_le_weight _).trans hweight
  unfold pageRows sealedTokensMax at hvocabWeight hvocabLen htotal
  unfold pageRows at hcount
  exact {
    n := by
      change rows.length < _
      omega
    vocab := by
      have hbytes := length_utf8 (lines (vocabOf rows))
      have hlines := length_lines_le (vocabOf rows)
      change (utf8 (lines (vocabOf rows))).length < _
      omega
    idWidth := by
      unfold layoutOf
      split
      next => exact .inr rfl
      next => exact .inl rfl
    digest := (sha256 _).2
    vectors := length_vectors rows
    tokStart := by
      change (starts 0 (rowTokensOf rows)).length = rows.length + 1
      rw [length_starts, length_rowTokensOf]
    starts := by
      intro n hn
      have hle := starts_le hn
      omega
    last := by
      change (starts 0 (rowTokensOf rows)).getD rows.length 0 = (rowTokensOf rows).flatten.length
      rw [← length_rowTokensOf, starts_last, Nat.zero_add]
    ids := by
      intro id hid
      have hlt : id < (vocabOf rows).length := hinterned.lt hid
      change id < 256 ^ (if 0xffff < (vocabOf rows).length then 4 else 2)
      split <;> omega
    inVocab := by
      intro id hid
      rw [words_layoutOf hstored]
      exact hinterned.lt hid }

theorem encodePage_eq (hfits : (layoutOf sha256 rows).Fits) :
    encodePage sha256 rows = some (layoutOf sha256 rows).bytes := by
  have hconds : rows.length < 256 ^ 4 ∧ (utf8 (lines (vocabOf rows))).length < 256 ^ 4 ∧
      (∀ n ∈ starts 0 (rowTokensOf rows), n < 256 ^ 4) ∧
      ∀ id ∈ (rowTokensOf rows).flatten, id < 256 ^ (if 0xffff < (vocabOf rows).length then 4 else 2) :=
    ⟨hfits.n, hfits.vocab, hfits.starts, hfits.ids⟩
  refine (if_pos hconds).trans ?_
  unfold Layout.bytes layoutOf
  rw [map_flatMap]
  rfl

/-- a row's tokens come back from the numbers of its words -/
theorem pageRowTokens_layoutOf (hstored : ∀ r ∈ rows, Stored S r.tokens) (ids stamps : List Text) {r : ℕ}
    (hr : r < rows.length) : ((layoutOf sha256 rows).page ids stamps).pageRowTokens r = rows[r].tokens := by
  have hrow : r < (rowTokensOf rows).length := by rwa [length_rowTokensOf]
  have hids : ((layoutOf sha256 rows).page ids stamps).rowIds r = (rowTokensOf rows)[r] :=
    starts_getD hrow [] rfl
  have hfound : (rowTokensOf rows)[r].map (fun id => (vocabOf rows)[id]?) = (wordsOf rows[r].tokens).map some := by
    have hall := congrArg (fun texts => texts[r]?) (internRows_of rows).2
    simpa [hrow, hr] using hall
  have hwords : (rowTokensOf rows)[r].map (fun id => (vocabOf rows).getD id []) = wordsOf rows[r].tokens := by
    have hget := congrArg (List.map fun w : Option Text => w.getD []) hfound
    simpa [Function.comp_def, getD_eq_getElem?_getD] using hget
  unfold SearchPage.pageRowTokens
  rw [hids]
  change join ((rowTokensOf rows)[r].map fun id => (layoutOf sha256 rows).words.getD id []) = _
  rw [words_layoutOf hstored, hwords]
  exact (hstored _ (getElem_mem hr)).words.2.1.symm

end

/-! ## What the digest binds -/

section

variable {ids stamps ids' stamps' xs ys : List Text}

/-- neither a line feed nor a NUL -/
def Plain (text : Text) : Prop := '\n' ∉ text ∧ '\x00' ∉ text

theorem mem_lines {c : Char} (hc : c ≠ '\n') : c ∈ lines xs ↔ ∃ x ∈ xs, c ∈ x := by
  unfold lines
  induction xs with
  | nil => simp
  | cons x xs ih =>
    cases xs with
    | nil => simp
    | cons x' xs => simp [intercalate_cons_cons, hc, ih]

theorem count_lines (hne : xs ≠ []) :
    (lines xs).count '\n' + 1 = xs.length + (xs.map fun x => x.count '\n').sum := by
  unfold lines
  induction xs with
  | nil => exact absurd rfl hne
  | cons x xs ih =>
    cases xs with
    | nil =>
      simp only [intercalate_singleton, length_singleton, map_cons, map_nil, sum_cons,
        sum_nil]
      omega
    | cons x' xs =>
      have hrest := ih (cons_ne_nil _ _)
      rw [intercalate_cons_cons, count_append, count_append, count_singleton_self, length_cons,
        map_cons, sum_cons]
      omega

/-- as many lines, and no line feed in those of one side -/
theorem lines_injective (hlen : xs.length = ys.length) (hxs : ∀ x ∈ xs, '\n' ∉ x) (h : lines xs = lines ys) :
    xs = ys := by
  by_cases hnil : xs = []
  · rw [hnil, length_nil] at hlen
    rw [hnil, length_eq_zero_iff.1 hlen.symm]
  · have hnil' : ys ≠ [] := fun hempty => hnil (length_eq_zero_iff.1 (by rw [hlen, hempty, length_nil]))
    have hnone : (xs.map fun x => x.count '\n').sum = 0 := by
      rw [sum_eq_zero_iff]
      intro n hn
      obtain ⟨x, hx, rfl⟩ := mem_map.1 hn
      exact count_eq_zero.2 (hxs x hx)
    have hcount := count_lines hnil
    have hcount' := count_lines hnil'
    have hnone' : (ys.map fun x => x.count '\n').sum = 0 := by
      rw [h] at hcount
      omega
    have hys : ∀ y ∈ ys, '\n' ∉ y := by
      intro y hy
      exact count_eq_zero.1 (sum_eq_zero_iff.1 hnone' _ (mem_map_of_mem hy))
    calc
      xs = (lines xs).splitOn '\n' := (splitOn_intercalate '\n' hxs hnil).symm
      _ = (lines ys).splitOn '\n' := by rw [h]
      _ = ys := splitOn_intercalate '\n' hys hnil'

/-- as many ids and as many stamps, that join to the same text -/
structure JoinSame (ids stamps ids' stamps' : List Text) : Prop where
  idCount : ids.length = ids'.length
  stampCount : stamps.length = stamps'.length
  text : rowsText ids stamps = rowsText ids' stamps'

theorem JoinSame.eq (h : JoinSame ids stamps ids' stamps') (hids : ∀ x ∈ ids, Plain x)
    (hstamps : ∀ x ∈ stamps, Plain x) : ids' = ids ∧ stamps' = stamps := by
  have hnul : ∀ {xs : List Text}, (∀ x ∈ xs, Plain x) → '\x00' ∉ lines xs := by
    intro xs hxs hmem
    obtain ⟨x, hx, hin⟩ := (mem_lines (by decide)).1 hmem
    exact (hxs x hx).2 hin
  have htext : lines ids ++ '\x00' :: lines stamps = lines ids' ++ '\x00' :: lines stamps' := h.text
  obtain ⟨hfirst, _, hsecond⟩ := (append_cons_inj_of_notMem (hnul hids) (hnul hstamps)).1 htext
  exact ⟨(lines_injective h.idCount (fun x hx => (hids x hx).1) hfirst).symm,
    (lines_injective h.stampCount (fun x hx => (hstamps x hx).1) hsecond).symm⟩

/-- no two of these texts have one digest -/
def NoCollision (sha256 : List UInt8 → Digest) (a b : Text) : Prop := sha256 (utf8 a) = sha256 (utf8 b) → a = b

end

/-- **The search page codec.** A page of at most 500 rows with stored token sets is written, and read back with its own
ids and stamps it has every id, stamp, vector and token set; what is left of it when bytes are cut off its end, and what
it becomes when some are appended, is not read. With other ids or stamps it is rejected, where the digest does not
collide, exactly when these join to another text: so with all others if its own hold neither a line feed nor a NUL. -/
theorem page_round_trip (S : LowerCase) (sha256 : List UInt8 → Digest) (rows : List PageRowSource)
    (hcount : rows.length ≤ pageRows) (hstored : ∀ r ∈ rows, Stored S r.tokens) :
    ∃ plain, encodePage sha256 rows = some plain ∧
      (∃ page, decodePage sha256 plain (rows.map PageRowSource.id) (rows.map PageRowSource.stamp) = some page ∧
        page.ids = rows.map PageRowSource.id ∧ page.stamps = rows.map PageRowSource.stamp ∧
        page.vectors.length = rows.length * embedDim ∧
        ∀ r (hr : r < rows.length), page.rowVector r = rows[r].vector.entries ∧
          page.pageRowTokens r = rows[r].tokens) ∧
      (∀ other, other ≠ plain → (other <+: plain ∨ plain <+: other) →
        ∀ ids stamps, decodePage sha256 other ids stamps = none) ∧
      (∀ ids stamps,
        NoCollision sha256 (rowsText (rows.map PageRowSource.id) (rows.map PageRowSource.stamp)) (rowsText ids stamps) →
        ((¬ (ids = rows.map PageRowSource.id ∧ stamps = rows.map PageRowSource.stamp) →
            decodePage sha256 plain ids stamps = none) ↔
          (JoinSame (rows.map PageRowSource.id) (rows.map PageRowSource.stamp) ids stamps →
            ids = rows.map PageRowSource.id ∧ stamps = rows.map PageRowSource.stamp))) ∧
      ((∀ r ∈ rows, Plain r.id ∧ Plain r.stamp) → ∀ ids stamps,
        JoinSame (rows.map PageRowSource.id) (rows.map PageRowSource.stamp) ids stamps →
        ids = rows.map PageRowSource.id ∧ stamps = rows.map PageRowSource.stamp) := by
  have hfits : (layoutOf sha256 rows).Fits := layoutOf_fits hcount hstored
  have hown : decodePage sha256 (layoutOf sha256 rows).bytes (rows.map PageRowSource.id)
      (rows.map PageRowSource.stamp) =
        some ((layoutOf sha256 rows).page (rows.map PageRowSource.id) (rows.map PageRowSource.stamp)) := by
    rw [decodePage_bytes hfits]
    exact if_pos ⟨(length_map _).symm, (length_map _).symm, rfl⟩
  refine ⟨_, encodePage_eq hfits, ⟨_, hown, rfl, rfl, length_vectors rows, fun r hr => ⟨drop_vectors r hr, ?_⟩⟩, ?_,
    ?_, ?_⟩
  · exact pageRowTokens_layoutOf hstored _ _ hr
  · intro other hne hprefix ids stamps
    cases hdecode : decodePage sha256 other ids stamps with
    | none => rfl
    | some p =>
      rcases hprefix with hcut | happended
      · obtain ⟨more, hmore⟩ := hcut
        rw [← hmore] at hown hne
        have hnil : more = [] := decodePage_prefix hdecode hown
        rw [hnil, append_nil] at hne
        exact absurd rfl hne
      · obtain ⟨more, rfl⟩ := happended
        have hnil : more = [] := decodePage_prefix hown hdecode
        rw [hnil, append_nil] at hne
        exact absurd rfl hne
  · intro ids stamps hsha
    have hread : decodePage sha256 (layoutOf sha256 rows).bytes ids stamps = none ↔
        ¬ JoinSame (rows.map PageRowSource.id) (rows.map PageRowSource.stamp) ids stamps := by
      rw [decodePage_bytes hfits]
      split
      next hsame =>
        have htext := hsha (Subtype.ext hsame.2.2)
        have hlen : (rows.map PageRowSource.id).length = ids.length := by rw [length_map]; exact hsame.1
        have hlen' : (rows.map PageRowSource.stamp).length = stamps.length := by rw [length_map]; exact hsame.2.1
        exact iff_of_false (Option.some_ne_none _) (not_not.2 ⟨hlen, hlen', htext⟩)
      next hother =>
        refine iff_of_true rfl fun hsame => hother ⟨?_, ?_, ?_⟩
        · exact (length_map _).symm.trans hsame.idCount
        · exact (length_map _).symm.trans hsame.stampCount
        · exact congrArg (fun text => (sha256 (utf8 text)).1) hsame.text
    rw [hread]
    exact not_imp_not
  · intro hplain ids stamps hsame
    refine hsame.eq (fun x hx => ?_) fun x hx => ?_
    · obtain ⟨r, hr, rfl⟩ := mem_map.1 hx
      exact (hplain r hr).1
    · obtain ⟨r, hr, rfl⟩ := mem_map.1 hx
      exact (hplain r hr).2

section Runs

def zeros : Embedding where
  entries := List.replicate embedDim 0
  length := List.length_replicate
  finite := by
    intro x hx
    rw [List.eq_of_mem_replicate hx]
    decide

/-- the SHA-256 of `"a\nb\nc\0s\nt"` -/
def digestOfLines : Digest :=
  ⟨[0x46, 0xe5, 0x92, 0xd4, 0x0f, 0x7c, 0x1d, 0x42, 0x01, 0x05, 0x6e, 0x95, 0xc3, 0xfc, 0x84, 0xcb,
    0xcf, 0x48, 0xcd, 0xda, 0xcd, 0x3e, 0x8f, 0xc5, 0xbc, 0x43, 0xf6, 0x31, 0x9b, 0x9c, 0x86, 0x34], rfl⟩

/-- the SHA-256 of `"n1\nn2\0s\nt"` -/
def digestOfPlain : Digest :=
  ⟨[0x0b, 0x49, 0x57, 0x37, 0x03, 0xae, 0xeb, 0xb2, 0x7d, 0xd3, 0x17, 0xae, 0x6e, 0x70, 0xda, 0xc5,
    0xf6, 0x68, 0xdc, 0x50, 0x86, 0x4b, 0x3c, 0x35, 0x02, 0x12, 0xaf, 0xca, 0x7b, 0x5c, 0x73, 0xd8], rfl⟩

def knownSha256 (b : List UInt8) : Digest :=
  if b = utf8 "a\nb\nc\x00s\nt".toList then digestOfLines else digestOfPlain

def row (id stamp tokens : String) : PageRowSource := ⟨id.toList, stamp.toList, zeros, tokens.toList⟩

theorem stored_row {text : String} (id stamp : String)
    (h : searchTokenSet ascii searchTokensMax text.toList = some text.toList) :
    Stored ascii (row id stamp text).tokens :=
  ⟨searchTokensMax, by decide, text.toList, h⟩

/-- two notes that share a word -/
theorem page_round_trip_two :
    (∃ plain page, encodePage knownSha256 [row "n1" "s" "plan the", row "n2" "t" "the q3"] = some plain ∧
      decodePage knownSha256 plain ["n1".toList, "n2".toList] ["s".toList, "t".toList] = some page ∧
      page.pageRowTokens 1 = "the q3".toList) := by
  have hstored : ∀ r ∈ [row "n1" "s" "plan the", row "n2" "t" "the q3"], Stored ascii r.tokens := by
    intro r hr
    rcases mem_pair.1 hr with rfl | rfl
    · exact stored_row _ _ (by decide +kernel)
    · exact stored_row _ _ (by decide +kernel)
  obtain ⟨plain, hplain, ⟨page, hpage, _, _, _, hrows⟩, _⟩ :=
    page_round_trip ascii knownSha256 [row "n1" "s" "plan the", row "n2" "t" "the q3"] (by decide) hstored
  exact ⟨plain, page, hplain, hpage, (hrows 1 (by decide)).2⟩

/-- a page of the notes `"a\nb"` and `"c"` is read with the ids `"a"` and `"b\nc"` -/
theorem page_of_other_ids :
    ["a".toList, "b\nc".toList] ≠ ["a\nb".toList, "c".toList] ∧
      ∃ plain page, encodePage knownSha256 [row "a\nb" "s" "", row "c" "t" ""] = some plain ∧
        decodePage knownSha256 plain ["a".toList, "b\nc".toList] ["s".toList, "t".toList] = some page := by
  have hstored : ∀ r ∈ [row "a\nb" "s" "", row "c" "t" ""], Stored ascii r.tokens := by
    intro r hr
    rcases mem_pair.1 hr with rfl | rfl
    · exact stored_row _ _ (by decide +kernel)
    · exact stored_row _ _ (by decide +kernel)
  have hfits : (layoutOf knownSha256 [row "a\nb" "s" "", row "c" "t" ""]).Fits := layoutOf_fits (by decide) hstored
  refine ⟨by decide, _, _, encodePage_eq hfits, (decodePage_bytes hfits).trans (if_pos ⟨rfl, rfl, ?_⟩)⟩
  have htext : rowsText ["a\nb".toList, "c".toList] ["s".toList, "t".toList] =
      rowsText ["a".toList, "b\nc".toList] ["s".toList, "t".toList] := by decide +kernel
  exact congrArg (fun text => (knownSha256 (utf8 text)).1) htext

end Runs

end Baalda.PageCodec
