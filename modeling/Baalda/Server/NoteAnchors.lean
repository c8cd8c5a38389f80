/-
The tolerant anchors of `edit_note` (`mcp/service.ts`: `foldForMatch`, `findAnchor`).

An anchor is looked for as it is; where it does not occur, its folded form is looked for in the folded note, and what
is found is mapped back to the note. `turn` is one turn of the folding loop: it reads a character with its combining
marks, a line break or a run of spaces, and pushes what that folds to, code point by code point, each with the index
where it began. `\p{M}` and NFC are the two functions of `Unicode`.

The map has one entry for a code point, but indices of the folded string count units: the map is exact when no character
folds to a code point outside the BMP, and only then (`map_exact_iff`). `Aligned` is when what `findAnchor` returns is
right. The key lemma is `blocks_alone`: a piece of the note that the loop reads in whole turns is folded alone as it is
in the note, but for a run of spaces at its end.
-/
import Baalda.Lib.Occurrences
import Baalda.Lib.Utf16
import Baalda.Server.DocWriter

namespace Baalda.NoteAnchors

open Utf16 Occurrences DocWriter List
open Option (some.inj)

/-! ## Model -/

structure Unicode where
  /-- the code point is in the category M -/
  mark : Text → Bool
  /-- `normalize("NFC")` -/
  nfc : Text → Text

/-- what `for (const c of s)` goes through -/
def codePoints : Text → List Text
  | [] => []
  | [u] => [[u]]
  | u :: v :: t =>
    if isHighSurrogate u && isLowSurrogate v then [u, v] :: codePoints t else [u] :: codePoints (v :: t)

/-- a lone surrogate is no mark -/
def Unicode.isMark (U : Unicode) : Text → Bool
  | [u] => !isHighSurrogate u && !isLowSurrogate u && U.mark [u]
  | c => U.mark c

/-- `COMBINING.test(s)` -/
def Unicode.combining (U : Unicode) (s : Text) : Bool := (codePoints s).any U.isMark

def UNICODE_SPACES : List UInt16 :=
  [0x00a0, 0x1680, 0x2000, 0x2001, 0x2002, 0x2003, 0x2004, 0x2005, 0x2006, 0x2007, 0x2008, 0x2009, 0x200a, 0x202f,
    0x205f, 0x3000]

def ZERO_WIDTH : List UInt16 := [0x200b, 0x200c, 0x200d, 0x2060, 0xfeff, 0x00ad]

def FOLD_CHAR : List (UInt16 × UInt16) :=
  [(0x2018, 39), (0x2019, 39), (0x201a, 39), (0x201b, 39), (0x2032, 39),
    (0x201c, 34), (0x201d, 34), (0x201e, 34), (0x201f, 34), (0x2033, 34),
    (0x2010, 45), (0x2011, 45), (0x2012, 45), (0x2013, 45), (0x2014, 45), (0x2015, 45), (0x2212, 45)]

def foldChar (ch : UInt16) : Text :=
  if ch = 9 ∨ ch ∈ UNICODE_SPACES then [32]
  else if ch ∈ ZERO_WIDTH then []
  else [(FOLD_CHAR.lookup ch).getD ch]

/-- `group.length === 1 ? foldChar(group) : group` -/
def foldGroup : Text → Text
  | [ch] => foldChar ch
  | group => group

/-- the units a run of spaces swallows -/
def inRun (u : UInt16) : Bool := u = 32 || u = 9 || u ∈ UNICODE_SPACES

/-- the character that begins with `u`, and how many units behind `u` it has -/
def takeGroup (U : Unicode) (hasMarks : Bool) (u : UInt16) (t : Text) : Text × ℕ :=
  let base := if isHighSurrogate u ∧ t ≠ [] then u :: t.take 1 else [u]
  if hasMarks then
    let marks := (t.drop (base.length - 1)).takeWhile fun v => U.combining [v]
    (U.nfc (base ++ marks), base.length - 1 + marks.length)
  else (base, base.length - 1)

/-- one turn of the loop at `u`: what it pushes, and how many units behind `u` it reads -/
def turn (U : Unicode) (hasMarks : Bool) (u : UInt16) (t : Text) : List Text × ℕ :=
  let (group, k) := takeGroup U hasMarks u t
  let rest := t.drop k
  if group = [13] then ([[10]], if rest.head? = some 10 then k + 1 else k)
  else if foldGroup group = [32] then
    let run := rest.takeWhile inRun
    let atBreak := (rest.drop run.length).head?.all fun v => v = 10 || v = 13
    (if atBreak then [] else [[32]], k + run.length)
  else (codePoints (foldGroup group), k)

/-- what a turn read and what it pushed -/
structure Block where
  source : Text
  pushed : List Text
  deriving DecidableEq

/-- the turns of the loop; `skip` units belong to the turn before -/
def blocksFrom (U : Unicode) (hasMarks : Bool) : ℕ → Text → List Block
  | _, [] => []
  | skip + 1, _ :: t => blocksFrom U hasMarks skip t
  | 0, u :: t =>
    ⟨u :: t.take (turn U hasMarks u t).2, (turn U hasMarks u t).1⟩ :: blocksFrom U hasMarks (turn U hasMarks u t).2 t

def blocks (U : Unicode) (s : Text) : List Block := blocksFrom U (U.combining s) 0 s

/-- what is pushed onto `out` and `map`, when the first turn begins at `start` -/
def entries : ℕ → List Block → List (Text × ℕ)
  | _, [] => []
  | start, b :: bs => (b.pushed.map fun c => (c, start)) ++ entries (start + b.source.length) bs

structure Folded where
  folded : Text
  map : List ℕ

def foldForMatch (U : Unicode) (s : Text) : Folded where
  folded := ((entries 0 (blocks U s)).map (·.1)).flatten
  map := (entries 0 (blocks U s)).map (·.2) ++ [s.length]

/-- what is found, and whether it is the folded anchor that was found -/
structure Found where
  spans : List (Number × Number)
  folded : Bool
  deriving DecidableEq

/-- an entry of the map; there is none past its end -/
def Folded.at (f : Folded) (i : ℕ) : Number := f.map[i]?.map Int.ofNat

def findAnchor (U : Unicode) (text anchor : Text) : Found :=
  let exact := occurrences text anchor
  if exact ≠ [] then ⟨exact.map fun i => (some (Int.ofNat i), some (Int.ofNat (i + anchor.length))), false⟩
  else
    let fa := (foldForMatch U anchor).folded
    if fa = [] then ⟨[], true⟩
    else
      let ft := foldForMatch U text
      ⟨(occurrences ft.folded fa).map fun i => (ft.at i, ft.at (i + fa.length)), true⟩

/-! ## The turns of the loop -/

section

variable {U : Unicode} {m : Bool} {u : UInt16} {t p q : Text}

theorem takeWhile_append_of_le {r : UInt16 → Bool} (h : ((p ++ q).takeWhile r).length ≤ p.length) :
    (p ++ q).takeWhile r = p.takeWhile r := by
  rw [takeWhile_append] at h ⊢
  split
  · next hall =>
    rw [if_pos hall, length_append] at h
    have hnone : q.takeWhile r = [] := length_eq_zero_iff.1 (by omega)
    rw [hnone, append_nil]
    exact (( takeWhile_prefix r).eq_of_length hall).symm
  · rfl

theorem length_takeWhile_le (r : UInt16 → Bool) (l : Text) : (l.takeWhile r).length ≤ l.length :=
  ( takeWhile_prefix r).length_le

theorem takeGroup_le : (takeGroup U m u t).2 ≤ t.length := by
  have hbase : (if isHighSurrogate u ∧ t ≠ [] then u :: t.take 1 else [u]).length - 1 ≤ t.length := by
    split
    · rw [length_cons, length_take]
      omega
    · exact Nat.zero_le _
  unfold takeGroup
  cases m with
  | false => exact hbase
  | true =>
    have hmarks := length_takeWhile_le (fun v => U.combining [v])
      (t.drop ((if isHighSurrogate u ∧ t ≠ [] then u :: t.take 1 else [u]).length - 1))
    rw [length_drop] at hmarks
    simp only [if_true]
    omega

theorem takeGroup_le_turn : (takeGroup U m u t).2 ≤ (turn U m u t).2 := by
  unfold turn
  dsimp only
  split_ifs <;> simp

theorem turn_le : (turn U m u t).2 ≤ t.length := by
  have hle := takeGroup_le (U := U) (m := m) (u := u) (t := t)
  unfold turn
  dsimp only
  split_ifs with hreturn hfeed hspace hbreak
  · have hrest : t.drop (takeGroup U m u t).2 ≠ [] := by
      intro hnil
      rw [hnil] at hfeed
      cases hfeed
    have hlt := length_pos_iff.2 hrest
    rw [length_drop] at hlt
    omega
  · exact hle
  all_goals
    first
    | exact hle
    | (have hrun := length_takeWhile_le inRun (t.drop (takeGroup U m u t).2)
       rw [length_drop] at hrun
       omega)

theorem takeGroup_append (h : (takeGroup U m u (p ++ q)).2 ≤ p.length) :
    takeGroup U m u (p ++ q) = takeGroup U m u p := by
  have hbase : (if isHighSurrogate u ∧ p ++ q ≠ [] then u :: (p ++ q).take 1 else [u]) =
      if isHighSurrogate u ∧ p ≠ [] then u :: p.take 1 else [u] := by
    cases p with
    | cons v p => simp
    | nil =>
      by_cases hpair : isHighSurrogate u ∧ q ≠ []
      · have hlength : (if isHighSurrogate u ∧ [] ++ q ≠ [] then u :: ([] ++ q).take 1 else [u]).length = 2 := by
          have hpos := length_pos_iff.2 hpair.2
          rw [nil_append, if_pos hpair, length_cons, length_take]
          omega
        unfold takeGroup at h
        cases m <;> simp only [hlength, if_true, Bool.false_eq_true, if_false, length_nil] at h <;> omega
      · rw [nil_append, if_neg hpair, if_neg (by simp)]
  unfold takeGroup at h ⊢
  rw [hbase] at h ⊢
  generalize (if isHighSurrogate u ∧ p ≠ [] then u :: p.take 1 else [u]) = base at h ⊢
  cases m with
  | false => rfl
  | true =>
    simp only [if_true] at h ⊢
    have hmarks : ((p ++ q).drop (base.length - 1)).takeWhile (fun v => U.combining [v]) =
        (p.drop (base.length - 1)).takeWhile fun v => U.combining [v] := by
      rw [drop_append_of_le_length (by omega)] at h ⊢
      refine takeWhile_append_of_le ?_
      rw [length_drop]
      omega
    rw [hmarks]

theorem flatten_codePoints (t : Text) : (codePoints t).flatten = t := by
  induction t using codePoints.induct with
  | case1 | case2 u => rfl
  | case3 u v t h ih => rw [codePoints, if_pos h, flatten_cons, ih]; rfl
  | case4 u v t h ih => rw [codePoints, if_neg h, flatten_cons, ih]; rfl

theorem ne_nil_of_mem_codePoints {c : Text} (h : c ∈ codePoints t) : c ≠ [] := by
  induction t using codePoints.induct with
  | case1 => simp [codePoints] at h
  | case2 u =>
    rw [mem_singleton.1 h]
    simp
  | case3 u v t hpair ih =>
    rw [codePoints, if_pos hpair] at h
    rcases mem_cons.1 h with rfl | h
    · simp
    · exact ih h
  | case4 u v t hpair ih =>
    rw [codePoints, if_neg hpair] at h
    rcases mem_cons.1 h with rfl | h
    · simp
    · exact ih h

/-- **One turn, alone.** A turn that stays inside the piece `p` is the same without what follows the piece, but for a
run of spaces that ends with it. -/
theorem turn_append (h : (turn U m u (p ++ q)).2 ≤ p.length) : turn U m u p =
    (if (turn U m u (p ++ q)).2 = p.length ∧ (turn U m u (p ++ q)).1 = [[32]] then []
      else (turn U m u (p ++ q)).1, (turn U m u (p ++ q)).2) := by
  have hgroup := takeGroup_append (takeGroup_le_turn.trans h)
  have hk : (takeGroup U m u p).2 ≤ p.length := takeGroup_le
  unfold turn at h ⊢
  rw [hgroup] at h ⊢
  generalize takeGroup U m u p = g at h hk ⊢
  obtain ⟨group, k⟩ := g
  simp only [drop_append_of_le_length hk] at h ⊢
  by_cases hreturn : group = [13]
  · simp only [if_pos hreturn] at h ⊢
    have hhead : ((p.drop k ++ q).head? = some 10) ↔ (p.drop k).head? = some 10 := by
      cases hdrop : p.drop k with
      | cons v rest => simp
      | nil =>
        have hend : p.length ≤ k := drop_eq_nil_iff.1 hdrop
        rw [hdrop, nil_append] at h
        refine ⟨fun hfeed => ?_, fun hfeed => by simp at hfeed⟩
        rw [nil_append] at hfeed
        rw [if_pos hfeed] at h
        omega
    have hne : ([[10]] : List Text) ≠ [[32]] := by decide
    simp only [hhead, hne, and_false, if_false]
  · simp only [if_neg hreturn] at h ⊢
    by_cases hspace : foldGroup group = [32]
    · simp only [if_pos hspace] at h ⊢
      have hrun : (p.drop k ++ q).takeWhile inRun = (p.drop k).takeWhile inRun := by
        refine takeWhile_append_of_le ?_
        rw [length_drop]
        omega
      rw [hrun] at h ⊢
      generalize hn : ((p.drop k).takeWhile inRun).length = n at h ⊢
      have hle : n ≤ (p.drop k).length := by
        rw [length_drop]
        omega
      rw [drop_append_of_le_length hle]
      by_cases hend : k + n = p.length
      · have hnil : (p.drop k).drop n = [] := by
          rw [drop_drop]
          exact drop_eq_nil_of_le (by omega)
        rw [hnil, nil_append]
        cases q.head?.all fun v => v = 10 || v = 13 with
        | true => simp
        | false => simp [hend]
      · obtain ⟨v, rest, hrest⟩ : ∃ v rest, (p.drop k).drop n = v :: rest := by
          cases hdrop : (p.drop k).drop n with
          | cons v rest => exact ⟨v, rest, rfl⟩
          | nil =>
            have hlength := congrArg length hdrop
            simp only [length_drop, length_nil] at hlength
            omega
        simp [hrest, hend]
    · simp only [if_neg hspace] at h ⊢
      have hne : codePoints (foldGroup group) ≠ [[32]] := by
        intro heq
        have hflat := flatten_codePoints (foldGroup group)
        rw [heq] at hflat
        exact hspace hflat.symm
      rw [if_neg (fun hboth => hne hboth.2)]

/-- nothing empty is pushed -/
theorem ne_nil_of_pushed {c : Text} (h : c ∈ (turn U m u t).1) : c ≠ [] := by
  unfold turn at h
  dsimp only at h
  split_ifs at h with hreturn hfeed hspace hbreak
  · rw [mem_singleton.1 h]
    simp
  · rw [mem_singleton.1 h]
    simp
  · exact absurd h not_mem_nil
  · rw [mem_singleton.1 h]
    simp
  · exact ne_nil_of_mem_codePoints h

end

/-! ## The turns, one after the other -/

def sources (bs : List Block) : Text := bs.flatMap (·.source)

def units (bs : List Block) : Text := (bs.flatMap (·.pushed)).flatten

section

variable {U : Unicode} {m : Bool} {u : UInt16} {s t p q : Text} {bs bs' : List Block} {i : ℕ}

theorem sources_append : sources (bs ++ bs') = sources bs ++ sources bs' := flatMap_append

theorem sources_cons (b : Block) (bs : List Block) : sources (b :: bs) = b.source ++ sources bs := flatMap_cons

theorem units_append : units (bs ++ bs') = units bs ++ units bs' := by
  rw [units, flatMap_append, flatten_append]
  rfl

theorem blocksFrom_skip (k : ℕ) (t : Text) : blocksFrom U m k t = blocksFrom U m 0 (t.drop k) := by
  induction t generalizing k with
  | nil => simp [blocksFrom]
  | cons v t ih =>
    cases k with
    | zero => rfl
    | succ k => exact ih k

theorem blocksFrom_cons (u : UInt16) (t : Text) : blocksFrom U m 0 (u :: t) =
    ⟨u :: t.take (turn U m u t).2, (turn U m u t).1⟩ ::
      blocksFrom U m 0 (t.drop (turn U m u t).2) := by
  rw [blocksFrom, blocksFrom_skip]

/-- induction on the turns that are left -/
theorem turns_induct (U : Unicode) (m : Bool) {motive : Text → Prop} (nil : motive [])
    (turn : ∀ u t, motive (t.drop (turn U m u t).2) → motive (u :: t)) (t : Text) : motive t := by
  induction hn : t.length using Nat.strong_induction_on generalizing t with
  | _ n ih =>
    cases t with
    | nil => exact nil
    | cons u t =>
      refine turn u t (ih _ ?_ _ rfl)
      rw [← hn, length_drop, length_cons]
      omega

theorem sources_blocksFrom (t : Text) : sources (blocksFrom U m 0 t) = t := by
  induction t using turns_induct U m with
  | nil => rfl
  | turn u t ih =>
    rw [blocksFrom_cons, sources_cons, ih, cons_append, take_append_drop]

theorem source_ne_nil {b : Block} (h : b ∈ blocksFrom U m 0 t) : b.source ≠ [] := by
  induction t using turns_induct U m with
  | nil => exact absurd h not_mem_nil
  | turn u t ih =>
    rw [blocksFrom_cons] at h
    rcases mem_cons.1 h with rfl | h
    · simp
    · exact ih h

theorem pushed_ne_nil {b : Block} {c : Text} (h : b ∈ blocksFrom U m 0 t) (hc : c ∈ b.pushed) : c ≠ [] := by
  induction t using turns_induct U m with
  | nil => exact absurd h not_mem_nil
  | turn u t ih =>
    rw [blocksFrom_cons] at h
    rcases mem_cons.1 h with rfl | h
    · exact ne_nil_of_pushed hc
    · exact ih h

/-! ## A piece, alone -/

/-- the last turn of a piece: a run of spaces is at the end there -/
def alone : List Block → List Block
  | [] => []
  | [b] => [if b.pushed = [[32]] then ⟨b.source, []⟩ else b]
  | b :: b' :: bs => b :: alone (b' :: bs)

variable {mid : List Block}

/-- **A piece alone.** What the loop reads in whole turns is read in the same turns without what follows it, but for a
run of spaces at the end, which is then dropped. -/
theorem blocks_alone {rest : List Block} (h : blocksFrom U m 0 (sources mid ++ q) = mid ++ rest) :
    blocksFrom U m 0 (sources mid) = alone mid := by
  induction mid with
  | nil => rfl
  | cons b mid ih =>
    have hmem : b ∈ blocksFrom U m 0 (sources (b :: mid) ++ q) := by
      rw [h]
      exact mem_append_left rest mem_cons_self
    have hsource : b.source ≠ [] := source_ne_nil hmem
    obtain ⟨u, p, hup⟩ : ∃ u p, sources (b :: mid) = u :: p := by
      cases hb : b.source with
      | nil => exact absurd hb hsource
      | cons u r => exact ⟨u, r ++ sources mid, by rw [sources_cons, hb]; rfl⟩
    rw [hup, cons_append, blocksFrom_cons, cons_append] at h
    obtain ⟨hhead, htail⟩ := cons.inj h
    have hle : (turn U m u (p ++ q)).2 ≤ (p ++ q).length := turn_le
    generalize hk : (turn U m u (p ++ q)).2 = k at *
    have hparts : u :: p = (u :: (p ++ q).take k) ++ sources mid := by
      rw [← hup, sources_cons, ← hhead]
    have hp : p = (p ++ q).take k ++ sources mid := (cons.inj hparts).2
    have hlength : p.length = k + (sources mid).length := by
      have hlen := congrArg length hp
      rwa [length_append, length_take, Nat.min_eq_left hle] at hlen
    have htake : (p ++ q).take k = p.take k := take_append_of_le_length (by omega)
    have hdrop : p.drop k = sources mid := by
      rw [htake] at hp
      have hcancel : p.take k ++ p.drop k = p.take k ++ sources mid := by rw [take_append_drop, ← hp]
      exact append_cancel_left hcancel
    have hturn : turn U m u p = (if k = p.length ∧ (turn U m u (p ++ q)).1 = [[32]] then []
        else (turn U m u (p ++ q)).1, k) := by
      rw [turn_append (q := q) (by omega), hk]
    rw [drop_append_of_le_length (by omega), hdrop] at htail
    rw [hup, blocksFrom_cons, hturn]
    rw [hdrop, ih htail, ← htake]
    cases mid with
    | nil =>
      rw [sources, flatMap_nil, length_nil] at hlength
      rw [alone, alone, ← hhead]
      by_cases hspace : (turn U m u (p ++ q)).1 = [[32]]
      · simp [hspace, hlength]
      · simp [hspace]
    | cons b' mid =>
      have hmem' : b' ∈ blocksFrom U m 0 (sources (b' :: mid) ++ q) := by
        rw [htail]
        exact mem_append_left rest mem_cons_self
      have hsource' : b'.source ≠ [] := source_ne_nil hmem'
      have hpos : 0 < (sources (b' :: mid)).length := by
        rw [sources_cons, length_append]
        have hb' := length_pos_iff.2 hsource'
        omega
      rw [if_neg (fun hboth => by omega), ← hhead]
      rfl

theorem alone_eq (h : ∀ b ∈ mid.getLast?, b.pushed ≠ [[32]]) : alone mid = mid := by
  induction mid using alone.induct with
  | case1 => rfl
  | case2 b => rw [alone, if_neg (h b rfl)]
  | case3 b b' bs ih => rw [alone, ih (by rwa [getLast?_cons_cons] at h)]

/-- a run of spaces at the end of a piece does not count -/
theorem length_units_alone {b : Block} (hb : mid.getLast? = some b) (hspace : b.pushed = [[32]]) :
    (units (alone mid)).length + 1 = (units mid).length := by
  induction mid using alone.induct with
  | case1 => cases hb
  | case2 b' =>
    obtain rfl : b' = b := some.inj hb
    simp [alone, units, hspace]
  | case3 b' b'' bs ih =>
    have htail := ih hb
    rw [alone, ← singleton_append, ← singleton_append (l := b'' :: bs), units_append, units_append,
      length_append, length_append]
    omega

/-! ## The map -/

theorem entries_append (start : ℕ) (bs bs' : List Block) :
    entries start (bs ++ bs') = entries start bs ++ entries (start + (sources bs).length) bs' := by
  induction bs generalizing start with
  | nil => rfl
  | cons b bs ih =>
    rw [cons_append, entries, entries, ih, append_assoc, sources_cons, length_append, Nat.add_assoc]

theorem entries_pushed (start : ℕ) (bs : List Block) : (entries start bs).map (·.1) = bs.flatMap (·.pushed) := by
  induction bs generalizing start with
  | nil => rfl
  | cons b bs ih =>
    rw [entries, map_append, ih, map_map, flatMap_cons]
    congr 1
    exact map_id _

theorem folded_eq (s : Text) : (foldForMatch U s).folded = units (blocks U s) := by
  rw [foldForMatch, entries_pushed]
  rfl

theorem length_entries (start : ℕ) (bs : List Block) : (entries start bs).length = (bs.flatMap (·.pushed)).length := by
  rw [← entries_pushed start, length_map]

/-- an entry is where its turn began -/
theorem entries_between {start : ℕ} {e : Text × ℕ} (h : e ∈ entries start bs) :
    start ≤ e.2 ∧ e.2 ≤ start + (sources bs).length := by
  induction bs generalizing start with
  | nil => exact absurd h not_mem_nil
  | cons b bs ih =>
    rw [sources_cons, length_append]
    rcases mem_append.1 h with h | h
    · obtain ⟨c, -, rfl⟩ := mem_map.1 h
      exact ⟨le_rfl, Nat.le_add_right _ _⟩
    · obtain ⟨hle, hbound⟩ := ih h
      omega

theorem entries_sorted (start : ℕ) (bs : List Block) : (entries start bs).Pairwise fun e e' => e.2 ≤ e'.2 := by
  induction bs generalizing start with
  | nil => exact Pairwise.nil
  | cons b bs ih =>
    refine pairwise_append.2 ⟨?_, ih _, ?_⟩
    · exact pairwise_map.2 (pairwise_of_forall fun _ _ => le_rfl)
    · intro e he e' he'
      obtain ⟨c, -, rfl⟩ := mem_map.1 he
      exact (Nat.le_add_right start _).trans (entries_between he').1

theorem map_sorted (s : Text) : (foldForMatch U s).map.Pairwise (· ≤ ·) := by
  refine pairwise_append.2 ⟨pairwise_map.2 (entries_sorted 0 _), pairwise_singleton _ _, ?_⟩
  intro i hi n hn
  obtain ⟨e, he, rfl⟩ := mem_map.1 hi
  obtain rfl := mem_singleton.1 hn
  have hbound := (entries_between he).2
  rwa [Nat.zero_add, blocks, sources_blocksFrom] at hbound

/-- as many nonempty pieces as units -/
theorem length_flatten_eq_iff (cs : List Text) (h : ∀ c ∈ cs, c ≠ []) :
    cs.length ≤ cs.flatten.length ∧ (cs.length = cs.flatten.length ↔ ∀ c ∈ cs, c.length = 1) := by
  induction cs with
  | nil => simp
  | cons c cs ih =>
    obtain ⟨hle, hiff⟩ := ih fun d hd => h d (mem_cons_of_mem c hd)
    have hpos := length_pos_iff.2 (h c mem_cons_self)
    rw [flatten_cons, length_append, length_cons, forall_mem_cons, ← hiff]
    omega

/-- one entry for each unit of the folded string and one for the end, in ascending order -/
def MapExact (U : Unicode) (s : Text) : Prop :=
  (foldForMatch U s).map.length = (foldForMatch U s).folded.length + 1 ∧ (foldForMatch U s).map.Pairwise (· ≤ ·)

/-- no character folds to a code point of two units -/
def Narrow (U : Unicode) (s : Text) : Prop := ∀ b ∈ blocks U s, ∀ c ∈ b.pushed, c.length = 1

instance : Decidable (Narrow U s) := inferInstanceAs (Decidable (∀ b ∈ blocks U s, _))

/-- **The map.** It has an entry for each unit exactly when no character folds to a code point of two units. -/
theorem map_exact_iff (s : Text) : MapExact U s ↔ Narrow U s := by
  have hne : ∀ c ∈ (blocks U s).flatMap (·.pushed), c ≠ [] := by
    intro c hc
    obtain ⟨b, hb, hcb⟩ := mem_flatMap.1 hc
    exact pushed_ne_nil hb hcb
  have hlength : (foldForMatch U s).map.length = ((blocks U s).flatMap (·.pushed)).length + 1 := by
    rw [foldForMatch, length_append, length_map, length_entries]
    rfl
  have hnarrow : Narrow U s ↔ ∀ c ∈ (blocks U s).flatMap (·.pushed), c.length = 1 := by
    refine ⟨fun h c hc => ?_, fun h b hb c hc => h c (mem_flatMap.2 ⟨b, hb, hc⟩)⟩
    obtain ⟨b, hb, hcb⟩ := mem_flatMap.1 hc
    exact h b hb c hcb
  rw [MapExact, and_iff_left (map_sorted s), hlength, folded_eq, hnarrow, ← (length_flatten_eq_iff _ hne).2, units]
  omega

/-! ## No turn ends inside a surrogate pair -/

theorem combining_singleton (v : UInt16) :
    U.combining [v] = (!isHighSurrogate v && !isLowSurrogate v && U.mark [v]) := by
  simp [Unicode.combining, codePoints, Unicode.isMark]

theorem inRun_not_high {v : UInt16} (h : inRun v = true) : isHighSurrogate v = false := by
  have hspaces : UNICODE_SPACES.all fun v => isHighSurrogate v = false := by decide
  simp only [inRun, Bool.or_eq_true, decide_eq_true_eq] at h
  rcases h with (rfl | rfl) | h
  · decide
  · decide
  · exact of_decide_eq_true (all_eq_true.1 hspaces v h)

/-- a run of units that are no high surrogates -/
theorem not_splits_run {r : UInt16 → Bool} (hr : ∀ v, r v = true → isHighSurrogate v = false) {k : ℕ}
    (hk : ¬ Splits (u :: t) (k + 1)) : ¬ Splits (u :: t) (k + ((t.drop k).takeWhile r).length + 1) := by
  cases hn : ((t.drop k).takeWhile r).length with
  | zero => exact hk
  | succ n =>
    refine not_splits_of_not_high ?_
    obtain ⟨rest, hrest⟩ := takeWhile_prefix (l := t.drop k) r
    have hunit : (u :: t)[k + (n + 1)]? = ((t.drop k).takeWhile r)[n]? := by
      have hdrop : (t.drop k)[n]? = t[k + n]? := getElem?_drop
      rw [← Nat.add_assoc, getElem?_cons_succ, ← hdrop, ← hrest, getElem?_append_left (by omega), hrest]
    rw [hunit]
    cases hv : ((t.drop k).takeWhile r)[n]? with
    | none => rfl
    | some v => exact hr v (mem_takeWhile_imp (mem_of_getElem? hv))

theorem takeGroup_cut (h : WellFormed (u :: t)) : ¬ Splits (u :: t) ((takeGroup U m u t).2 + 1) := by
  have hbase : ¬ Splits (u :: t)
      ((if isHighSurrogate u ∧ t ≠ [] then u :: t.take 1 else [u]).length - 1 + 1) := by
    split
    · next hpair =>
      obtain ⟨v, t, rfl⟩ := exists_cons_of_ne_nil hpair.2
      have hlow := h.1 0 (by simpa using hpair.1)
      exact not_splits_of_not_high (i := 1) (any_not_high_of_low hlow)
    · next hno =>
      by_cases ht : t = []
      · exact not_splits_of_length_le (by simp [ht])
      · refine not_splits_of_not_high (i := 0) ?_
        simpa using fun hhigh => hno ⟨hhigh, ht⟩
  cases m with
  | false => exact hbase
  | true =>
    refine not_splits_run (fun v hv => ?_) hbase
    rw [combining_singleton] at hv
    simpa using (Bool.and_eq_true_iff.1 (Bool.and_eq_true_iff.1 hv).1).1

theorem turn_cut (h : WellFormed (u :: t)) : ¬ Splits (u :: t) ((turn U m u t).2 + 1) := by
  have hgroup := takeGroup_cut (U := U) (m := m) h
  unfold turn
  dsimp only
  generalize (takeGroup U m u t).1 = group
  generalize (takeGroup U m u t).2 = k at hgroup ⊢
  by_cases hreturn : group = [13]
  · rw [if_pos hreturn]
    split
    · next hfeed =>
      refine not_splits_of_not_high (i := k + 1) ?_
      rw [head?_drop] at hfeed
      rw [getElem?_cons_succ, hfeed]
      decide
    · exact hgroup
  · rw [if_neg hreturn]
    by_cases hspace : foldGroup group = [32]
    · rw [if_pos hspace]
      exact not_splits_run (fun v => inRun_not_high) hgroup
    · rw [if_neg hspace]
      exact hgroup

theorem wellFormed_rest (h : WellFormed (u :: t)) : WellFormed (t.drop (turn U m u t).2) := by
  have hdrop := h.drop (turn_cut (U := U) (m := m) h)
  rwa [drop_succ_cons] at hdrop

variable {pre post : List Block}

theorem wellFormed_sources (hs : WellFormed s) (h : blocksFrom U m 0 s = pre ++ post) :
    WellFormed (sources post) := by
  induction s using turns_induct U m generalizing pre with
  | nil =>
    rw [blocksFrom, nil_eq, append_eq_nil_iff] at h
    rw [h.2]
    exact hs
  | turn u t ih =>
    cases pre with
    | nil =>
      have hall := sources_blocksFrom (U := U) (m := m) (u :: t)
      rw [h, nil_append] at hall
      rwa [hall]
    | cons b pre =>
      rw [blocksFrom_cons, cons_append] at h
      exact ih (wellFormed_rest hs) (cons.inj h).2

theorem blocksFrom_sources (h : blocksFrom U m 0 s = pre ++ post) : blocksFrom U m 0 (sources post) = post := by
  induction s using turns_induct U m generalizing pre with
  | nil =>
    rw [blocksFrom, nil_eq, append_eq_nil_iff] at h
    rw [h.2]
    rfl
  | turn u t ih =>
    cases pre with
    | nil =>
      have hall := sources_blocksFrom (U := U) (m := m) (u :: t)
      rw [nil_append] at h
      rw [h] at hall
      rwa [hall]
    | cons b pre =>
      rw [blocksFrom_cons, cons_append] at h
      exact ih (cons.inj h).2

/-- no turn ends inside a pair -/
theorem not_splits_sources (hs : WellFormed s) (h : blocksFrom U m 0 s = pre ++ post) :
    ¬ Splits s (sources pre).length := by
  refine not_splits_of_drop ?_
  have hall := sources_blocksFrom (U := U) (m := m) s
  rw [h, sources_append] at hall
  rw [← hall, drop_left]
  exact wellFormed_sources hs h

/-! ## Marks elsewhere in the note -/

theorem codePoints_append {x y : Text} (h : ¬ Splits (x ++ y) x.length) :
    codePoints (x ++ y) = codePoints x ++ codePoints y := by
  induction x using codePoints.induct with
  | case1 => rfl
  | case2 u =>
    cases y with
    | nil => rfl
    | cons v y =>
      have hno : ¬ (isHighSurrogate u && isLowSurrogate v) = true := by
        intro hpair
        rw [Bool.and_eq_true] at hpair
        exact h ⟨0, rfl, hpair.1, hpair.2⟩
      simp [codePoints, hno]
  | case3 u v x hpair ih =>
    rw [cons_append, cons_append, codePoints, codePoints, if_pos hpair, if_pos hpair,
      ih (fun hs => h ((hs.cons v).cons u)), cons_append]
  | case4 u v x hpair ih =>
    have htail := ih fun hs => h (hs.cons u)
    rw [cons_append] at htail
    rw [cons_append, cons_append, codePoints, codePoints, if_neg hpair, if_neg hpair, htail,
      cons_append]

theorem combining_append {x y : Text} (h : ¬ Splits (x ++ y) x.length) :
    U.combining (x ++ y) = (U.combining x || U.combining y) := by
  rw [Unicode.combining, codePoints_append h, any_append]
  rfl

/-- each of its characters folds to the same whether it is composed or not -/
def Settled (U : Unicode) (p : Text) : Prop := ∀ c ∈ codePoints p, foldGroup (U.nfc c) = foldGroup c

theorem foldGroup_return {g : Text} : foldGroup g = [13] ↔ g = [13] := by
  match g with
  | [] | _ :: _ :: _ => simp [foldGroup]
  | [ch] =>
    have hvalues : FOLD_CHAR.all fun e => e.2 ≠ 13 := by decide
    rw [foldGroup, foldChar]
    split_ifs with hspace hzero
    · refine ⟨fun h => absurd h (by decide), fun h => ?_⟩
      rw [singleton_inj] at h
      rw [h] at hspace
      exact absurd hspace (by decide)
    · refine ⟨fun h => absurd h (by decide), fun h => ?_⟩
      rw [singleton_inj] at h
      rw [h] at hzero
      exact absurd hzero (by decide)
    · rw [singleton_inj, singleton_inj]
      cases hlookup : FOLD_CHAR.lookup ch with
      | none => rfl
      | some v =>
        obtain ⟨l, l', hsplit, -⟩ := lookup_eq_some_iff.1 hlookup
        have hmem : (ch, v) ∈ FOLD_CHAR := by
          rw [hsplit]
          exact mem_append_right l mem_cons_self
        refine ⟨fun h => absurd h (of_decide_eq_true (all_eq_true.1 hvalues _ hmem)), fun h => ?_⟩
        have hnone : FOLD_CHAR.lookup 13 = none := by decide
        rw [h, hnone] at hlookup
        cases hlookup

theorem codePoints_cons (h : WellFormed (u :: t)) : codePoints (u :: t) =
    (if isHighSurrogate u ∧ t ≠ [] then u :: t.take 1 else [u]) ::
      codePoints (t.drop ((if isHighSurrogate u ∧ t ≠ [] then u :: t.take 1 else [u]).length - 1)) := by
  cases t with
  | nil => simp [codePoints]
  | cons v t =>
    by_cases hu : isHighSurrogate u = true
    · have hlow : isLowSurrogate v = true := h.1 0 hu
      simp [codePoints, hu, hlow]
    · simp [codePoints, hu]

theorem takeWhile_combining (h : U.combining t = false) : t.takeWhile (fun v => U.combining [v]) = [] := by
  cases t with
  | nil => rfl
  | cons v t =>
    refine takeWhile_cons_of_neg (a := v) ?_
    rw [Bool.not_eq_true]
    by_cases hv : isHighSurrogate v = true
    · simp [combining_singleton, hv]
    · have hhead : ¬ Splits ([v] ++ t) [v].length := not_splits_of_not_high (i := 0) (by simpa using hv)
      have hboth := combining_append (U := U) hhead
      rw [singleton_append, h] at hboth
      exact (Bool.or_eq_false_iff.1 hboth.symm).1

/-- without marks, composing changes no turn -/
theorem turn_settled (h : WellFormed (u :: t)) (hmarks : U.combining (u :: t) = false) (hs : Settled U (u :: t)) :
    turn U true u t = turn U false u t := by
  have hpoints := codePoints_cons h
  unfold turn takeGroup
  simp only [if_true, Bool.false_eq_true, if_false]
  generalize (if isHighSurrogate u ∧ t ≠ [] then u :: t.take 1 else [u]) = base at hpoints ⊢
  have hnone : (t.drop (base.length - 1)).takeWhile (fun v => U.combining [v]) = [] := by
    refine takeWhile_combining ?_
    rw [Unicode.combining, hpoints, any_cons] at hmarks
    exact (Bool.or_eq_false_iff.1 hmarks).2
  have hfold : foldGroup (U.nfc base) = foldGroup base := by
    refine hs base ?_
    rw [hpoints]
    exact .head _
  have hreturn : U.nfc base = [13] ↔ base = [13] := by rw [← foldGroup_return, hfold, foldGroup_return]
  simp only [hnone, append_nil, length_nil, Nat.add_zero, hfold, hreturn]

/-- without marks, composing changes nothing in a piece whose characters fold alike -/
theorem blocks_settled (h : WellFormed p) (hmarks : U.combining p = false) (hs : Settled U p) :
    blocksFrom U true 0 p = blocksFrom U false 0 p := by
  induction p using turns_induct U false with
  | nil => rfl
  | turn u t ih =>
    have hturn := turn_settled h hmarks hs
    have hcut := turn_cut (U := U) (m := false) h
    have hparts : u :: t = (u :: t.take (turn U false u t).2) ++ t.drop (turn U false u t).2 := by
      rw [cons_append, take_append_drop]
    have hsplit : ¬ Splits ((u :: t.take (turn U false u t).2) ++ t.drop (turn U false u t).2)
        (u :: t.take (turn U false u t).2).length := by
      rw [← hparts, length_cons, length_take, Nat.min_eq_left turn_le]
      exact hcut
    rw [blocksFrom_cons, blocksFrom_cons, hturn, ih (wellFormed_rest h)]
    · rw [hparts, combining_append hsplit] at hmarks
      exact (Bool.or_eq_false_iff.1 hmarks).2
    · intro c hc
      refine hs c ?_
      rw [hparts, codePoints_append hsplit]
      exact mem_append_right _ hc

/-! ## What is found -/

/-- the first turn, if any, pushes something -/
def Fresh (bs : List Block) : Prop := ∀ b ∈ bs.head?, b.pushed ≠ []

theorem length_pushed (bs : List Block) (h : ∀ b ∈ bs, ∀ c ∈ b.pushed, c.length = 1) :
    (bs.flatMap (·.pushed)).length = (units bs).length := by
  have hall : ∀ c ∈ bs.flatMap (·.pushed), c.length = 1 := by
    intro c hc
    obtain ⟨b, hb, hcb⟩ := mem_flatMap.1 hc
    exact h b hb c hcb
  have hne : ∀ c ∈ bs.flatMap (·.pushed), c ≠ [] := by
    intro c hc hnil
    have hlength := hall c hc
    rw [hnil] at hlength
    cases hlength
  exact (length_flatten_eq_iff _ hne).2.2 hall

/-- the entry at the end of the turns before one that pushes something is where that one began -/
theorem map_at (hnarrow : Narrow U s) (h : blocks U s = pre ++ post) (hfresh : Fresh post) :
    (foldForMatch U s).map[(units pre).length]? = some (sources pre).length := by
  have hpre : (entries 0 pre).length = (units pre).length := by
    rw [length_entries]
    exact length_pushed pre fun b hb => hnarrow b (h ▸ mem_append_left post hb)
  have hall : sources (pre ++ post) = s := by
    rw [← h]
    exact sources_blocksFrom s
  have hmap : (foldForMatch U s).map = (entries 0 (blocks U s)).map (·.2) ++ [s.length] := rfl
  rw [hmap, h, entries_append, map_append, append_assoc, getElem?_append_right (by simp [hpre]),
    length_map, hpre, Nat.sub_self, Nat.zero_add]
  cases post with
  | nil => simp [entries, ← hall]
  | cons b post =>
    obtain ⟨c, cs, hpushed⟩ := exists_cons_of_ne_nil (hfresh b rfl)
    simp [entries, hpushed]

/-- a match of the folded anchor that begins and ends with whole characters, does not end in a run of spaces, and folds
alone as it does in the note: it has marks where the note has, or composing changes none of its characters -/
def Whole (U : Unicode) (s fa : Text) (i : ℕ) : Prop :=
  ∃ pre mid post, blocks U s = pre ++ mid ++ post ∧ (units pre).length = i ∧ units mid = fa ∧ Fresh (mid ++ post) ∧
    Fresh post ∧ (∀ b ∈ mid.getLast?, b.pushed ≠ [[32]]) ∧
    (U.combining s = true → U.combining (sources mid) = true ∨ Settled U (sources mid))

/-- the turns of a piece between two turns of the note, when composing makes no difference -/
theorem blocks_piece (hs : WellFormed s) (h : blocks U s = pre ++ mid ++ post)
    (hmarks : U.combining s = true → U.combining (sources mid) = true ∨ Settled U (sources mid)) :
    blocks U (sources mid) = alone mid := by
  have hleft : blocksFrom U (U.combining s) 0 s = pre ++ (mid ++ post) := by rw [← append_assoc, ← h]; rfl
  have hall : sources pre ++ (sources mid ++ sources post) = s := by
    rw [← sources_append, ← sources_append, ← hleft]
    exact sources_blocksFrom s
  have htail : WellFormed (sources mid ++ sources post) := sources_append ▸ wellFormed_sources hs hleft
  have hcut : ¬ Splits (sources pre ++ (sources mid ++ sources post)) (sources pre).length := by
    rw [hall]
    exact not_splits_sources hs hleft
  have hcut' : ¬ Splits (sources mid ++ sources post) (sources mid).length := by
    refine not_splits_of_drop ?_
    rw [drop_left]
    exact wellFormed_sources hs h
  have hpiece : blocksFrom U (U.combining s) 0 (sources mid) = alone mid := by
    have hread : blocksFrom U (U.combining s) 0 (sources mid ++ sources post) = mid ++ post := by
      rw [← sources_append]
      exact blocksFrom_sources hleft
    exact blocks_alone hread
  have hwhole : U.combining s =
      (U.combining (sources pre) || (U.combining (sources mid) || U.combining (sources post))) := by
    rw [← combining_append hcut', ← combining_append hcut, hall]
  unfold blocks
  cases hmid : U.combining (sources mid) with
  | true =>
    have hsame : U.combining s = true := by simp [hwhole, hmid]
    rw [← hpiece, hsame]
  | false =>
    cases hnote : U.combining s with
    | false => rw [← hpiece, hnote]
    | true =>
      rcases hmarks hnote with htrue | hsettled
      · rw [hmid] at htrue
        exact absurd htrue (by decide)
      · have hwf : WellFormed (sources mid) := by
          have htake := htail.take hcut'
          rwa [take_left] at htake
        rw [← blocks_settled hwf hmid hsettled, ← hpiece, hnote]

/-- where the turns between two others are in the note -/
theorem span_of_blocks (hs : WellFormed s) (hnarrow : Narrow U s) (h : blocks U s = pre ++ mid ++ post)
    (hmid : Fresh (mid ++ post)) (hpost : Fresh post) :
    (foldForMatch U s).map[(units pre).length]? = some (sources pre).length ∧
      (foldForMatch U s).map[(units pre).length + (units mid).length]? = some (sources (pre ++ mid)).length ∧
      (sources pre).length ≤ (sources (pre ++ mid)).length ∧ (sources (pre ++ mid)).length ≤ s.length ∧
      ¬ Splits s (sources pre).length ∧ ¬ Splits s (sources (pre ++ mid)).length ∧
      slice s (sources pre).length (sources (pre ++ mid)).length = sources mid := by
  have hleft : blocks U s = pre ++ (mid ++ post) := by rw [h, append_assoc]
  have hall : sources pre ++ sources mid ++ sources post = s := by
    rw [← sources_append, ← sources_append, ← h]
    exact sources_blocksFrom s
  refine ⟨map_at hnarrow hleft hmid, ?_, ?_, ?_, not_splits_sources hs hleft, not_splits_sources hs h, ?_⟩
  · rw [← length_append, ← units_append]
    exact map_at hnarrow h hpost
  · rw [sources_append, length_append]
    omega
  · rw [sources_append, length_append, ← hall]
    simp
  · rw [slice, sources_append, ← hall, take_left, drop_left]

/-- where it is in the note, and what it folds to -/
theorem Whole.span {fa : Text} {i : ℕ} (hs : WellFormed s) (hnarrow : Narrow U s) (h : Whole U s fa i) :
    ∃ a b, (foldForMatch U s).map[i]? = some a ∧ (foldForMatch U s).map[i + fa.length]? = some b ∧ a ≤ b ∧
      b ≤ s.length ∧ ¬ Splits s a ∧ ¬ Splits s b ∧ (foldForMatch U (slice s a b)).folded = fa := by
  obtain ⟨pre, mid, post, hblocks, rfl, rfl, hmid, hpost, hspace, hmarks⟩ := h
  obtain ⟨hat, hat', hle, hbound, hcut, hcut', hslice⟩ := span_of_blocks hs hnarrow hblocks hmid hpost
  refine ⟨_, _, hat, hat', hle, hbound, hcut, hcut', ?_⟩
  rw [hslice, folded_eq, blocks_piece hs hblocks hmarks, alone_eq hspace]

/-- the spans are numbers, in order, disjoint and inside the note, split no surrogate pair, and each piece of the note
folds as the anchor does -/
def SpansRight (U : Unicode) (text anchor : Text) : Prop :=
  ∃ spans : List (ℕ × ℕ),
    (findAnchor U text anchor).spans = spans.map (fun x => (some (Int.ofNat x.1), some (Int.ofNat x.2))) ∧
      spans.Pairwise (fun x y => x.2 ≤ y.1) ∧
      ∀ x ∈ spans, x.1 ≤ x.2 ∧ x.2 ≤ text.length ∧ ¬ Splits text x.1 ∧ ¬ Splits text x.2 ∧
        (foldForMatch U (slice text x.1 x.2)).folded = (foldForMatch U anchor).folded

/-- no half of a pair is matched alone, no character folds to a code point of two units, and what only the folded anchor
finds are whole characters -/
structure Aligned (U : Unicode) (text anchor : Text) : Prop where
  wellFormed : WellFormed text
  narrow : Narrow U text
  exact : (∃ i, anchor <+: text.drop i) →
    anchor.head?.any isLowSurrogate = false ∧ anchor.getLast?.any isHighSurrogate = false
  tolerant : (∀ i, ¬ anchor <+: text.drop i) → (foldForMatch U anchor).folded ≠ [] →
    ∀ i ∈ occurrences (foldForMatch U text).folded (foldForMatch U anchor).folded,
      Whole U text (foldForMatch U anchor).folded i

variable {text anchor : Text}

theorem head_of_prefix (h : anchor <+: text.drop i) (hanchor : anchor ≠ []) : text[i]? = anchor.head? := by
  obtain ⟨rest, hrest⟩ := h
  have hunit : (text.drop i)[0]? = text[i]? := by rw [getElem?_drop, Nat.add_zero]
  rw [← hunit, ← hrest, getElem?_append_left (length_pos_iff.2 hanchor), head?_eq_getElem?]

theorem last_of_prefix (h : anchor <+: text.drop i) (hanchor : anchor ≠ []) :
    text[i + anchor.length - 1]? = anchor.getLast? := by
  have hpos := length_pos_iff.2 hanchor
  obtain ⟨rest, hrest⟩ := h
  have hunit : (text.drop i)[anchor.length - 1]? = text[i + anchor.length - 1]? := by
    rw [getElem?_drop]
    congr 1
    omega
  rw [← hunit, ← hrest, getElem?_append_left (by omega), getLast?_eq_getElem?]

theorem slice_of_starts (h : anchor <+: text.drop i) : slice text i (i + anchor.length) = anchor := by
  rw [slice, drop_take, Nat.add_sub_cancel_left]
  exact (prefix_iff_eq_take.1 h).symm

theorem findAnchor_exact (h : occurrences text anchor ≠ []) : (findAnchor U text anchor).spans =
    (occurrences text anchor).map fun i => (some (Int.ofNat i), some (Int.ofNat (i + anchor.length))) := by
  unfold findAnchor
  rw [if_pos h]

theorem findAnchor_folded (h : occurrences text anchor = []) (hfa : (foldForMatch U anchor).folded ≠ []) :
    (findAnchor U text anchor).spans =
      (occurrences (foldForMatch U text).folded (foldForMatch U anchor).folded).map fun i =>
        ((foldForMatch U text).at i, (foldForMatch U text).at (i + (foldForMatch U anchor).folded.length)) := by
  unfold findAnchor
  rw [if_neg (fun hne => hne h), if_neg hfa]

theorem findAnchor_nothing (h : occurrences text anchor = []) (hfa : (foldForMatch U anchor).folded = []) :
    (findAnchor U text anchor).spans = [] := by
  unfold findAnchor
  rw [if_neg (fun hne => hne h), if_pos hfa]

theorem le_of_sorted {l : List ℕ} (h : l.Pairwise (· ≤ ·)) {i j x y : ℕ} (hx : l[i]? = some x) (hy : l[j]? = some y)
    (hij : i ≤ j) : x ≤ y := by
  obtain ⟨hi, rfl⟩ := List.getElem?_eq_some_iff.1 hx
  obtain ⟨hj, rfl⟩ := List.getElem?_eq_some_iff.1 hy
  rcases Nat.lt_or_eq_of_le hij with hlt | rfl
  · exact pairwise_iff_getElem.1 h i j hi hj hlt
  · exact le_rfl

theorem exact_right (hs : WellFormed text) (hanchor : anchor ≠ []) (hfound : occurrences text anchor ≠ []) :
    SpansRight U text anchor ↔
      anchor.head?.any isLowSurrogate = false ∧ anchor.getLast?.any isHighSurrogate = false := by
  have hpos := length_pos_iff.2 hanchor
  obtain ⟨i₀, hi₀⟩ := exists_mem_of_ne_nil _ hfound
  have hends : ∀ i ∈ occurrences text anchor, (¬ Splits text i ↔ anchor.head?.any isLowSurrogate = false) ∧
      (¬ Splits text (i + anchor.length) ↔ anchor.getLast?.any isHighSurrogate = false) := by
    intro i hi
    rw [← head_of_prefix (prefix_of_mem hi) hanchor, ← last_of_prefix (prefix_of_mem hi) hanchor]
    refine ⟨⟨fun hno => ?_, not_splits_of_not_low⟩, ⟨fun hno => ?_, fun hhigh => ?_⟩⟩
    · rw [← Bool.not_eq_true]
      intro hlow
      obtain ⟨j, hj, hhigh⟩ := hs.2 i hlow
      exact hno ⟨j, hj, hhigh, hlow⟩
    · rw [← Bool.not_eq_true]
      intro hhigh
      have hlow := hs.1 _ hhigh
      have hnext : i + anchor.length - 1 + 1 = i + anchor.length := by omega
      rw [hnext] at hlow
      exact hno ⟨i + anchor.length - 1, hnext.symm, hhigh, hlow⟩
    · have hcut := not_splits_of_not_high hhigh
      rwa [Nat.sub_add_cancel (by omega)] at hcut
  constructor
  · intro hright
    obtain ⟨spans, hspans, -, hall⟩ := hright
    rw [findAnchor_exact hfound] at hspans
    have hmem : (some (Int.ofNat i₀), some (Int.ofNat (i₀ + anchor.length))) ∈
        spans.map (fun x => (some (Int.ofNat x.1), some (Int.ofNat x.2))) := by
      rw [← hspans]
      exact mem_map.2 ⟨i₀, hi₀, rfl⟩
    obtain ⟨x, hx, heq⟩ := mem_map.1 hmem
    obtain ⟨hleft, hright⟩ := Prod.mk.inj heq
    have h₁ : x.1 = i₀ := Int.ofNat.inj (some.inj hleft)
    have h₂ : x.2 = i₀ + anchor.length := Int.ofNat.inj (some.inj hright)
    obtain ⟨-, -, hcut, hcut', -⟩ := hall x hx
    rw [h₁] at hcut
    rw [h₂] at hcut'
    exact ⟨(hends i₀ hi₀).1.1 hcut, (hends i₀ hi₀).2.1 hcut'⟩
  · intro hboth
    refine ⟨(occurrences text anchor).map fun i => (i, i + anchor.length), ?_, ?_, ?_⟩
    · rw [findAnchor_exact hfound, map_map]
      rfl
    · exact pairwise_map.2 occurrences_apart
    · intro x hx
      obtain ⟨i, hi, rfl⟩ := mem_map.1 hx
      refine ⟨Nat.le_add_right _ _, add_length_le hi hanchor, (hends i hi).1.2 hboth.1, (hends i hi).2.2 hboth.2, ?_⟩
      rw [slice_of_starts (prefix_of_mem hi)]

theorem tolerant_right (hs : WellFormed text) (hnarrow : Narrow U text) (hnone : occurrences text anchor = [])
    (hfa : (foldForMatch U anchor).folded ≠ [])
    (hwhole : ∀ i ∈ occurrences (foldForMatch U text).folded (foldForMatch U anchor).folded,
      Whole U text (foldForMatch U anchor).folded i) : SpansRight U text anchor := by
  generalize hft : foldForMatch U text = ft at hwhole
  generalize hfold : (foldForMatch U anchor).folded = fa at hfa hwhole
  have hspan : ∀ i ∈ occurrences ft.folded fa, ∃ a b, ft.map[i]? = some a ∧ ft.map[i + fa.length]? = some b ∧ a ≤ b ∧
      b ≤ text.length ∧ ¬ Splits text a ∧ ¬ Splits text b ∧ (foldForMatch U (slice text a b)).folded = fa :=
    fun i hi => hft ▸ (hwhole i hi).span hs hnarrow
  refine ⟨(occurrences ft.folded fa).map fun i => (ft.map[i]?.getD 0, ft.map[i + fa.length]?.getD 0), ?_, ?_, ?_⟩
  · rw [findAnchor_folded hnone (by rwa [hfold]), hft, hfold, map_map]
    refine map_congr_left fun i hi => ?_
    obtain ⟨a, b, ha, hb, -⟩ := hspan i hi
    simp [Folded.at, ha, hb]
  · refine pairwise_map.2 (occurrences_apart.imp_of_mem fun {i j} hi hj hij => ?_)
    obtain ⟨a, b, ha, hb, -⟩ := hspan i hi
    obtain ⟨a', b', ha', hb', -⟩ := hspan j hj
    rw [hb, ha']
    exact le_of_sorted (hft ▸ map_sorted text) hb ha' hij
  · intro x hx
    obtain ⟨i, hi, rfl⟩ := mem_map.1 hx
    obtain ⟨a, b, ha, hb, hle, hbound, hcut, hcut', hpiece⟩ := hspan i hi
    simp only [ha, hb, Option.getD_some]
    exact ⟨hle, hbound, hcut, hcut', hpiece.trans hfold.symm⟩

/-! ## A note without combining marks -/

theorem length_codePoints_le (t : Text) : (codePoints t).length ≤ t.length := by
  have hle := (length_flatten_eq_iff (codePoints t) fun _ => ne_nil_of_mem_codePoints).1
  rwa [flatten_codePoints] at hle

theorem length_foldChar_le (ch : UInt16) : (foldChar ch).length ≤ 1 := by
  unfold foldChar
  split_ifs <;> simp

theorem length_turn_le (h : WellFormed (u :: t)) : (turn U false u t).1.length ≤ 1 := by
  have hgroup : (codePoints (foldGroup (if isHighSurrogate u ∧ t ≠ [] then u :: t.take 1 else [u]))).length ≤ 1 := by
    split
    · next hpair =>
      obtain ⟨v, t, rfl⟩ := exists_cons_of_ne_nil hpair.2
      have hlow : isLowSurrogate v = true := h.1 0 hpair.1
      simp [foldGroup, codePoints, hpair.1, hlow]
    · exact (length_codePoints_le _).trans (length_foldChar_le u)
  unfold turn takeGroup
  simp only [Bool.false_eq_true, if_false]
  generalize (if isHighSurrogate u ∧ t ≠ [] then u :: t.take 1 else [u]) = base at hgroup ⊢
  split_ifs <;> first | exact hgroup | simp

theorem length_pushed_le (h : WellFormed s) : ∀ b ∈ blocksFrom U false 0 s, b.pushed.length ≤ 1 := by
  induction s using turns_induct U false with
  | nil => exact fun b hb => absurd hb not_mem_nil
  | turn u t ih =>
    rw [blocksFrom_cons]
    exact forall_mem_cons.2 ⟨length_turn_le h, ih (wellFormed_rest h)⟩

/-- when each turn pushes one unit at most, every index of the folded string is between turns -/
theorem exists_split (bs : List Block) (hone : ∀ b ∈ bs, (units [b]).length ≤ 1) {n : ℕ} (hn : n ≤ (units bs).length) :
    ∃ pre post, bs = pre ++ post ∧ (units pre).length = n ∧ Fresh post := by
  induction bs generalizing n with
  | nil => exact ⟨[], [], rfl, (Nat.le_zero.1 hn).symm, fun b hb => by simp at hb⟩
  | cons b bs ih =>
    have hunits : (units (b :: bs)).length = (units [b]).length + (units bs).length := by
      rw [← singleton_append, units_append, length_append]
    have hb := hone b mem_cons_self
    have htail : ∀ b ∈ bs, (units [b]).length ≤ 1 := fun b' hb' => hone b' (mem_cons_of_mem b hb')
    by_cases hzero : n = 0 ∧ b.pushed ≠ []
    · refine ⟨[], b :: bs, rfl, hzero.1.symm, fun b' hb' => ?_⟩
      rw [← some.inj hb']
      exact hzero.2
    · have hle : (units [b]).length ≤ n := by
        by_cases hn₀ : n = 0
        · have hnil : b.pushed = [] := by
            by_contra hne
            exact hzero ⟨hn₀, hne⟩
          simp [units, hnil]
        · omega
      obtain ⟨pre, post, rfl, hpre, hpost⟩ := ih htail (n := n - (units [b]).length) (by omega)
      refine ⟨b :: pre, post, rfl, ?_, hpost⟩
      rw [← singleton_append, units_append, length_append, hpre]
      omega

theorem whole_of_right (hs : WellFormed text) (hmarks : U.combining text = false) (hnarrow : Narrow U text)
    (hnone : occurrences text anchor = []) (hfa : (foldForMatch U anchor).folded ≠ [])
    (hright : SpansRight U text anchor) :
    ∀ i ∈ occurrences (foldForMatch U text).folded (foldForMatch U anchor).folded,
      Whole U text (foldForMatch U anchor).folded i := by
  intro i hi
  obtain ⟨spans, hspans, -, hall⟩ := hright
  rw [findAnchor_folded hnone hfa] at hspans
  generalize hfold : (foldForMatch U anchor).folded = fa at *
  have hone : ∀ b ∈ blocks U text, (units [b]).length ≤ 1 := by
    intro b hb
    have hunits : (units [b]).length = b.pushed.length := by
      have hlength := length_pushed [b] fun b' hb' => hnarrow b' (by rwa [mem_singleton.1 hb'])
      rw [← hlength, flatMap_singleton]
    rw [hunits]
    rw [blocks, hmarks] at hb
    exact length_pushed_le hs b hb
  have hbound := add_length_le hi hfa
  have hprefix := prefix_of_mem hi
  rw [folded_eq] at hbound hprefix
  obtain ⟨pre, rest, hblocks, hpre, hrest⟩ := exists_split _ hone (n := i) (by omega)
  have hdrop : (units (blocks U text)).drop i = units rest := by
    rw [hblocks, units_append, ← hpre, drop_left]
  rw [hdrop] at hprefix
  obtain ⟨mid, post, rfl, hmid, hpost⟩ := exists_split rest
    (fun b hb => hone b (hblocks ▸ mem_append_right pre hb)) hprefix.length_le
  have hmidUnits : units mid = fa := by
    rw [prefix_iff_eq_take.1 hprefix, units_append, ← hmid, take_left]
  have hblocks' : blocks U text = pre ++ mid ++ post := by rw [hblocks, append_assoc]
  have hno : U.combining text = true → U.combining (sources mid) = true ∨ Settled U (sources mid) := by
    rw [hmarks]
    exact fun htrue => absurd htrue (by decide)
  refine ⟨pre, mid, post, hblocks', hpre, hmidUnits, hrest, hpost, fun b hb hspace => ?_, hno⟩
  obtain ⟨hat, hat', -, -, -, -, hslice⟩ := span_of_blocks hs hnarrow hblocks' hrest hpost
  rw [hpre] at hat
  rw [hpre, hmidUnits] at hat'
  have hmem : ((foldForMatch U text).at i, (foldForMatch U text).at (i + fa.length)) ∈
      spans.map (fun x => (some (Int.ofNat x.1), some (Int.ofNat x.2))) := by
    rw [← hspans]
    exact mem_map.2 ⟨i, hi, rfl⟩
  obtain ⟨x, hx, heq⟩ := mem_map.1 hmem
  rw [Folded.at, Folded.at, hat, hat'] at heq
  obtain ⟨hleft, hright⟩ := Prod.mk.inj heq
  have h₁ : x.1 = (sources pre).length := Int.ofNat.inj (some.inj hleft)
  have h₂ : x.2 = (sources (pre ++ mid)).length := Int.ofNat.inj (some.inj hright)
  obtain ⟨-, -, -, -, hpiece⟩ := hall x hx
  rw [h₁, h₂, hslice, folded_eq, blocks_piece hs hblocks' hno, ← hmidUnits] at hpiece
  have hlength := length_units_alone hb hspace
  rw [hpiece] at hlength
  omega

/-- where the note and the anchor are aligned, what is found is right -/
theorem aligned_right (hanchor : anchor ≠ []) (h : Aligned U text anchor) : SpansRight U text anchor := by
  by_cases hfound : occurrences text anchor = []
  · have hno := (occurrences_eq_nil hanchor).1 hfound
    by_cases hfa : (foldForMatch U anchor).folded = []
    · refine ⟨[], ?_, Pairwise.nil, fun x hx => absurd hx not_mem_nil⟩
      rw [findAnchor_nothing hfound hfa, map_nil]
    · exact tolerant_right h.wellFormed h.narrow hfound hfa (h.tolerant hno hfa)
  · obtain ⟨i, hi⟩ := exists_mem_of_ne_nil _ hfound
    exact (exact_right h.wellFormed hanchor hfound).2 (h.exact ⟨i, prefix_of_mem hi⟩)

/-- **What an anchor finds.** The map of the folded note is exact if and only if no character of the note folds to a
code point of two units. Where the note and the anchor are `Aligned`, the spans are right too; and when the anchor
occurs as it is, or the note has no combining mark, the spans are right with an exact map only there. -/
theorem anchors_map_back (U : Unicode) (text anchor : Text) (hanchor : anchor ≠ []) :
    (MapExact U text ↔ Narrow U text) ∧
      (Aligned U text anchor → MapExact U text ∧ SpansRight U text anchor) ∧
      (WellFormed text → ((∃ i, anchor <+: text.drop i) ∨ U.combining text = false) →
        MapExact U text ∧ SpansRight U text anchor → Aligned U text anchor) := by
  refine ⟨map_exact_iff text, fun h => ⟨(map_exact_iff text).2 h.narrow, aligned_right hanchor h⟩,
    fun hs hcase hright => ?_⟩
  have hnarrow := (map_exact_iff text).1 hright.1
  refine ⟨hs, hnarrow, fun hoccurs => ?_, fun hno hfa => ?_⟩
  · obtain ⟨i, hi⟩ := hoccurs
    have hfound : occurrences text anchor ≠ [] := fun hnil => (occurrences_eq_nil hanchor).1 hnil i hi
    exact (exact_right hs hanchor hfound).1 hright.2
  · rcases hcase with hoccurs | hmarks
    · obtain ⟨i, hi⟩ := hoccurs
      exact absurd hi (hno i)
    · exact whole_of_right hs hmarks hnarrow ((occurrences_eq_nil hanchor).2 hno) hfa hright.2

end

/-! ## Two notes -/

/-- no combining marks, nothing to compose -/
def plain : Unicode := ⟨fun _ => false, id⟩

/-- `a x—y!` -/
def dashedNote : Text := [97, 32, 120, 0x2014, 121, 33]

/-- `x-y` -/
def dashAnchor : Text := [120, 45, 121]

theorem aligned_dash : Aligned plain dashedNote dashAnchor := by
  have hnone : ∀ i, ¬ dashAnchor <+: dashedNote.drop i := (occurrences_eq_nil (by decide)).1 (by decide)
  refine ⟨by decide, by decide, fun hoccurs => ?_, fun _ _ i hi => ?_⟩
  · obtain ⟨i, hi⟩ := hoccurs
    exact absurd hi (hnone i)
  · rw [mem_singleton.1 hi]
    exact ⟨[⟨[97], [[97]]⟩, ⟨[32], [[32]]⟩], [⟨[120], [[120]]⟩, ⟨[0x2014], [[45]]⟩, ⟨[121], [[121]]⟩],
      [⟨[33], [[33]]⟩], by decide, by decide, by decide, by simp [Fresh], by simp [Fresh], by simp,
      fun hmarks => absurd hmarks (by decide)⟩

/-- the hyphens of the anchor find the dashes of the note -/
theorem dash_is_found : MapExact plain dashedNote ∧ SpansRight plain dashedNote dashAnchor :=
  (anchors_map_back plain dashedNote dashAnchor (by decide)).2.1 aligned_dash

/-- a face, then ` x—y!` -/
def facedNote : Text := [0xd83d, 0xde00, 32, 120, 0x2014, 121, 33]

/-- the face has two units and one entry of the map: what is found is `—y!` -/
theorem face_shifts_the_span : (findAnchor plain facedNote dashAnchor).spans = [(some 4, some 7)] ∧
    (foldForMatch plain (slice facedNote 4 7)).folded = [45, 121, 33] ∧
    ¬ MapExact plain facedNote ∧ ¬ SpansRight plain facedNote dashAnchor := by
  have hspans : (findAnchor plain facedNote dashAnchor).spans = [(some 4, some 7)] := by decide
  have hpiece : (foldForMatch plain (slice facedNote 4 7)).folded = [45, 121, 33] := by decide
  refine ⟨hspans, hpiece, ?_, ?_⟩
  · intro h
    exact absurd h.1 (by decide)
  · intro h
    obtain ⟨spans, heq, -, hall⟩ := h
    have hmem : (some (4 : ℤ), some (7 : ℤ)) ∈ spans.map (fun x => (some (Int.ofNat x.1), some (Int.ofNat x.2))) := by
      rw [← heq, hspans]
      exact mem_singleton_self _
    obtain ⟨x, hx, hpair⟩ := mem_map.1 hmem
    obtain ⟨hleft, hright⟩ := Prod.mk.inj hpair
    have h₁ : x.1 = 4 := Int.ofNat.inj (some.inj hleft)
    have h₂ : x.2 = 7 := Int.ofNat.inj (some.inj hright)
    have hfold := (hall x hx).2.2.2.2
    rw [h₁, h₂, hpiece] at hfold
    exact absurd hfold (by decide)
end Baalda.NoteAnchors
