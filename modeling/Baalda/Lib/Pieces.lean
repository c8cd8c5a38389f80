/-
A text cut at a separator, and what a bounded number of its pieces still say of it.

`pieces` is the cut from left to right, `joined` puts pieces together again. A separator that cannot overlap itself
(`Apart`) is cut out wherever it occurs (`exists_drop`, `drop_pieces`). A `window` joins the first `k` pieces, each cut
to `r` characters, and is cut to `r` itself: it begins with `q` exactly when the text does and fewer than `k` separators
start inside `q` (`prefix_window`), however often the separator occurs.
-/
import Mathlib.Tactic
import Mathlib.Data.List.Infix

namespace Pieces

open List

variable {α : Type*} [DecidableEq α]

/-- the pieces after the next `skip` characters -/
def piecesFrom (sep : List α) : ℕ → List α → List (List α)
  | _, [] => [[]]
  | skip + 1, _ :: t => piecesFrom sep skip t
  | 0, c :: t =>
    if sep <+: c :: t then [] :: piecesFrom sep (sep.length - 1) t
    else
      match piecesFrom sep 0 t with
      | [] => [[c]]
      | p :: ps => (c :: p) :: ps

def pieces (sep t : List α) : List (List α) := piecesFrom sep 0 t

def joined (sep : List α) : List (List α) → List α
  | [] => []
  | [p] => p
  | p :: q :: ps => p ++ (sep ++ joined sep (q :: ps))

/-- how many separators start in the first `n` characters -/
def starts (sep : List α) : ℕ → List α → ℕ
  | 0, _ => 0
  | n + 1, t => (if sep <+: t then 1 else 0) + starts sep n t.tail

def window (sep : List α) (r k : ℕ) (t : List α) : List α :=
  (joined sep (((pieces sep t).take k).map (take r))).take r

/-- no separator starts inside a separator -/
def Apart (sep : List α) : Prop := sep ≠ [] ∧ ∀ n, 0 < n → n < sep.length → ¬ sep.drop n <+: sep

section

variable {sep : List α}

theorem piecesFrom_skip (n : ℕ) (t : List α) : piecesFrom sep n t = pieces sep (t.drop n) := by
  induction t generalizing n with
  | nil => cases n <;> rfl
  | cons c t ih =>
    cases n with
    | zero => rfl
    | succ n => exact ih n

theorem pieces_sep (h : sep ≠ []) (t : List α) : pieces sep (sep ++ t) = [] :: pieces sep t := by
  cases sep with
  | nil => exact absurd rfl h
  | cons c s =>
    have hpre : c :: s <+: c :: (s ++ t) := prefix_append (c :: s) t
    rw [pieces, cons_append, piecesFrom, if_pos hpre, piecesFrom_skip]
    simp

theorem pieces_ne_nil (sep t : List α) : pieces sep t ≠ [] := by
  cases t with
  | nil => simp [pieces, piecesFrom]
  | cons c t =>
    rw [pieces, piecesFrom]
    split
    · simp
    · split <;> simp

variable {t p : List α}

theorem pieces_cons {c : α} {ps : List (List α)} (h : ¬ sep <+: c :: t) (ht : pieces sep t = p :: ps) :
    pieces sep (c :: t) = (c :: p) :: ps := by
  rw [pieces, piecesFrom, if_neg h]
  rw [pieces] at ht
  rw [ht]

/-- The first piece is all of the text, or ends where the first separator starts. -/
theorem pieces_cases (h : sep ≠ []) (t : List α) :
    ∃ p, (∀ j < p.length, ¬ sep <+: t.drop j) ∧
      (pieces sep t = [p] ∧ t = p ∨ ∃ u, pieces sep t = p :: pieces sep u ∧ t = p ++ (sep ++ u)) := by
  induction t with
  | nil => exact ⟨[], fun j hj => (nomatch hj), .inl ⟨rfl, rfl⟩⟩
  | cons c t ih =>
    by_cases hpre : sep <+: c :: t
    · obtain ⟨u, hu⟩ := hpre
      refine ⟨[], fun j hj => (nomatch hj), .inr ⟨u, ?_, ?_⟩⟩
      · rw [← hu]
        exact pieces_sep h u
      · simpa using hu.symm
    obtain ⟨p, hnone, hp⟩ := ih
    have hnone' : ∀ j < (c :: p).length, ¬ sep <+: (c :: t).drop j := by
      intro j hj
      cases j with
      | zero => exact hpre
      | succ j => exact hnone j (Nat.lt_of_succ_lt_succ hj)
    refine ⟨c :: p, hnone', ?_⟩
    obtain ⟨hps, rfl⟩ | ⟨u, hps, rfl⟩ := hp
    · exact .inl ⟨pieces_cons hpre hps, rfl⟩
    · exact .inr ⟨u, pieces_cons hpre hps, rfl⟩

/-! ## Where separators start -/

/-- a separator that begins a text leaves no room for another one until it ends -/
theorem Apart.not_start (h : Apart sep) {j : ℕ} (hj : 0 < j) (hlt : j < sep.length) :
    ¬ sep <+: (sep ++ t).drop j := by
  intro hpre
  rw [drop_append_of_le_length hlt.le] at hpre
  have hlen : (sep.drop j).length ≤ sep.length := by simp
  exact h.2 j hj hlt (prefix_of_prefix_length_le (prefix_append ..) hpre hlen)

/-- an occurrence that follows another one starts after it -/
theorem Apart.after (h : Apart sep) {pre u : List α} (heq : sep ++ t = pre ++ (sep ++ u)) (hne : pre ≠ []) :
    ∃ pre', pre = sep ++ pre' ∧ t = pre' ++ (sep ++ u) := by
  have hle : sep.length ≤ pre.length := by
    by_contra hlt
    apply h.not_start (t := t) (length_pos_of_ne_nil hne) (not_le.1 hlt)
    rw [heq, drop_left]
    exact prefix_append ..
  have hpre : sep <+: pre := by
    apply prefix_of_prefix_length_le (prefix_append sep t) _ hle
    rw [heq]
    exact prefix_append ..
  obtain ⟨pre', rfl⟩ := hpre
  refine ⟨pre', rfl, ?_⟩
  rw [append_assoc] at heq
  exact append_cancel_left heq

/-- **Every occurrence is cut out.** What stands after an occurrence of the separator is what the cut leaves after one
or more of its pieces. -/
theorem exists_drop (h : Apart sep) {pre u : List α} (ht : t = pre ++ (sep ++ u)) :
    ∃ i, 0 < i ∧ i < (pieces sep t).length ∧ (pieces sep t).drop i = pieces sep u := by
  have hsep := length_pos_of_ne_nil h.1
  have hstart : sep <+: t.drop pre.length := by
    rw [ht, drop_left]
    exact prefix_append ..
  induction hn : t.length using Nat.strong_induction_on generalizing t pre with
  | _ n ih =>
    obtain ⟨p, hnone, ⟨hps, rfl⟩ | ⟨v, hps, rfl⟩⟩ := pieces_cases h.1 t
    · refine absurd hstart (hnone _ ?_)
      have hlen := congrArg length ht
      simp only [length_append] at hlen
      omega
    -- the occurrence is the first one, or comes after it
    have hle : p.length ≤ pre.length := not_lt.1 fun hlt => hnone _ hlt hstart
    have hppre : p <+: pre := by
      apply prefix_of_prefix_length_le (prefix_append p (sep ++ v)) _ hle
      rw [ht]
      exact prefix_append ..
    obtain ⟨pre', rfl⟩ := hppre
    rw [append_assoc] at ht
    have hrest : sep ++ v = pre' ++ (sep ++ u) := append_cancel_left ht
    have hlen : (pieces sep (p ++ (sep ++ v))).length = (pieces sep v).length + 1 := by rw [hps]; rfl
    have hpos := length_pos_of_ne_nil (pieces_ne_nil sep v)
    by_cases hne : pre' = []
    · subst hne
      have hvu : v = u := (append_right_inj sep).1 hrest
      exact ⟨1, one_pos, by omega, by rw [hps, hvu]; rfl⟩
    · obtain ⟨pre'', -, hv⟩ := h.after hrest hne
      have hlt : v.length < n := by
        simp only [length_append] at hn
        omega
      have hstart' : sep <+: v.drop pre''.length := by
        rw [hv, drop_left]
        exact prefix_append ..
      obtain ⟨i, hi, hilt, hdrop⟩ := ih v.length hlt hv hstart' rfl
      exact ⟨i + 1, Nat.succ_pos i, by omega, by rw [hps]; exact hdrop⟩

/-- and the cut leaves nothing else -/
theorem drop_pieces (h : sep ≠ []) (t : List α) {i : ℕ} (hi : 0 < i) (hlt : i < (pieces sep t).length) :
    ∃ pre u, t = pre ++ (sep ++ u) ∧ (pieces sep t).drop i = pieces sep u := by
  induction i generalizing t with
  | zero => exact absurd hi (lt_irrefl _)
  | succ i ih =>
    obtain ⟨p, -, ⟨hps, -⟩ | ⟨v, hps, rfl⟩⟩ := pieces_cases h t
    · rw [hps] at hlt
      simp at hlt
    · rw [hps, drop_succ_cons]
      cases i with
      | zero => exact ⟨p, v, rfl, rfl⟩
      | succ i =>
        rw [hps] at hlt
        obtain ⟨pre, u, rfl, hdrop⟩ := ih v (Nat.succ_pos i) (Nat.lt_of_succ_lt_succ hlt)
        exact ⟨p ++ (sep ++ pre), u, by simp, hdrop⟩

/-! ## Counting starts -/

theorem starts_append (n : ℕ) (h : ∀ j < p.length, ¬ sep <+: (p ++ t).drop j) :
    starts sep n (p ++ t) = starts sep (n - p.length) t := by
  induction p generalizing n with
  | nil => rfl
  | cons c p ih =>
    cases n with
    | zero => simp [starts]
    | succ n =>
      have hfirst : ¬ sep <+: c :: (p ++ t) := h 0 (Nat.succ_pos _)
      have hrest := ih n fun j hj => h (j + 1) (Nat.succ_lt_succ hj)
      simp only [cons_append, starts, if_neg hfirst, Nat.zero_add, tail_cons, hrest, length_cons]
      congr 1
      omega

theorem starts_sep (h : Apart sep) (n : ℕ) (t : List α) :
    starts sep (n + 1) (sep ++ t) = 1 + starts sep (n + 1 - sep.length) t := by
  cases sep with
  | nil => exact absurd rfl h.1
  | cons c s =>
    have hnone : ∀ j < s.length, ¬ c :: s <+: (s ++ t).drop j := by
      intro j hj
      exact h.not_start (t := t) (j := j + 1) (Nat.succ_pos j) (Nat.succ_lt_succ hj)
    rw [starts, if_pos (prefix_append ..), cons_append, tail_cons, starts_append n hnone]
    congr 2
    simp

theorem starts_none (n : ℕ) (h : ∀ j < t.length, ¬ sep <+: t.drop j) (hne : sep ≠ []) : starts sep n t = 0 := by
  have hnil (m : ℕ) : starts sep m [] = 0 := by
    induction m with
    | zero => rfl
    | succ m ih => simp [starts, hne, ih]
  have happ := starts_append (t := []) n (by simpa using h)
  rw [append_nil] at happ
  rw [happ, hnil]

/-! ## Windows -/

theorem joined_cons (p : List α) {ps : List (List α)} (h : ps ≠ []) :
    joined sep (p :: ps) = p ++ (sep ++ joined sep ps) := by
  cases ps with
  | nil => exact absurd rfl h
  | cons q ps => rfl

theorem prefix_append_short {q : List α} (x : List α) (h : q.length ≤ p.length) : q <+: p ++ x ↔ q <+: p := by
  constructor
  · exact fun hq => prefix_of_prefix_length_le hq (prefix_append p x) h
  · exact fun hq => hq.trans (prefix_append p x)

theorem prefix_append_long {q : List α} (x : List α) (h : p.length ≤ q.length) :
    q <+: p ++ x ↔ ∃ q', q = p ++ q' ∧ q' <+: x := by
  constructor
  · intro hq
    obtain ⟨q', rfl⟩ := prefix_of_prefix_length_le (prefix_append p x) hq h
    exact ⟨q', rfl, (prefix_append_right_inj p).1 hq⟩
  · intro ⟨q', hq, hpre⟩
    rw [hq]
    exact (prefix_append_right_inj p).2 hpre

theorem prefix_take_iff {q : List α} {r : ℕ} (h : q.length ≤ r) : q <+: p.take r ↔ q <+: p := by
  rw [List.prefix_take_iff, and_iff_left h]

/-- the first `k + 1` pieces, each cut to `r` characters, begin with a text of at most `r` characters exactly when the
text they are pieces of does, with at most `k` separators starting inside -/
theorem prefix_joined (h : Apart sep) {r : ℕ} (k : ℕ) (t q : List α) (hq : q.length ≤ r) :
    q <+: joined sep (((pieces sep t).take (k + 1)).map (take r)) ↔
      q <+: t ∧ starts sep q.length t < k + 1 := by
  induction k generalizing t q with
  | zero =>
    obtain ⟨p, hnone, ⟨hps, rfl⟩ | ⟨u, hps, rfl⟩⟩ := pieces_cases h.1 t
    · simp [hps, joined, prefix_take_iff hq, starts_none _ hnone h.1]
    have hj : joined sep (((pieces sep (p ++ (sep ++ u))).take 1).map (take r)) = p.take r := by
      rw [hps]; rfl
    rw [hj, prefix_take_iff hq, starts_append _ hnone]
    by_cases hle : q.length ≤ p.length
    · rw [prefix_append_short _ hle, Nat.sub_eq_zero_of_le hle]
      simp [starts]
    · obtain ⟨m, hm⟩ : ∃ m, q.length - p.length = m + 1 := ⟨q.length - p.length - 1, by omega⟩
      rw [hm, starts_sep h]
      constructor
      · exact fun hqp => absurd hqp.length_le hle
      · intro hlt
        omega
  | succ k ih =>
    obtain ⟨p, hnone, ⟨hps, rfl⟩ | ⟨u, hps, rfl⟩⟩ := pieces_cases h.1 t
    · simp [hps, joined, prefix_take_iff hq, starts_none _ hnone h.1]
    have hne : ((pieces sep u).take (k + 1)).map (take r) ≠ [] := by
      simpa using pieces_ne_nil sep u
    have hj : joined sep (((pieces sep (p ++ (sep ++ u))).take (k + 1 + 1)).map (take r)) =
        p.take r ++ (sep ++ joined sep (((pieces sep u).take (k + 1)).map (take r))) := by
      rw [hps, take_succ_cons, map_cons, joined_cons _ hne]
    rw [hj, starts_append _ hnone]
    by_cases hle : q.length ≤ p.length
    · rw [prefix_append_short _ hle, Nat.sub_eq_zero_of_le hle, prefix_append_short _ (by simp; omega),
        prefix_take_iff hq]
      simp [starts]
    -- the text goes on behind the first separator
    have hp : p.take r = p := take_of_length_le (by omega)
    rw [hp, prefix_append_long _ (by omega), prefix_append_long _ (by omega)]
    have hmiddle {q' : List α} (hqq : q = p ++ q') :
        q' <+: sep ++ joined sep (((pieces sep u).take (k + 1)).map (take r)) ↔
          q' <+: sep ++ u ∧ starts sep (q.length - p.length) (sep ++ u) < k + 1 + 1 := by
      have hlen : q.length - p.length = q'.length := by simp [hqq]
      obtain ⟨m, hm⟩ : ∃ m, q'.length = m + 1 := ⟨q'.length - 1, by omega⟩
      rw [hlen, hm, starts_sep h]
      by_cases hle' : q'.length ≤ sep.length
      · have hzero : m + 1 - sep.length = 0 := by omega
        rw [prefix_append_short _ hle', prefix_append_short _ hle', hzero]
        simp [starts]
      · rw [prefix_append_long _ (by omega), prefix_append_long _ (by omega)]
        have hrest {x : List α} (hx : q' = sep ++ x) :
            x <+: joined sep (((pieces sep u).take (k + 1)).map (take r)) ↔
              x <+: u ∧ 1 + starts sep (m + 1 - sep.length) u < k + 1 + 1 := by
          have hxlen : m + 1 - sep.length = x.length := by
            rw [← hm, hx]
            simp
          have hxr : x.length ≤ r := by omega
          rw [hxlen]
          refine (ih u x hxr).trans (and_congr_right' ?_)
          omega
        constructor
        · intro ⟨x, hx, hpre⟩
          exact ⟨⟨x, hx, ((hrest hx).1 hpre).1⟩, ((hrest hx).1 hpre).2⟩
        · intro ⟨⟨x, hx, hpre⟩, hlt⟩
          exact ⟨x, hx, (hrest hx).2 ⟨hpre, hlt⟩⟩
    constructor
    · intro ⟨q', hqq, hpre⟩
      exact ⟨⟨q', hqq, ((hmiddle hqq).1 hpre).1⟩, ((hmiddle hqq).1 hpre).2⟩
    · intro ⟨⟨q', hqq, hpre⟩, hlt⟩
      exact ⟨q', hqq, (hmiddle hqq).2 ⟨hpre, hlt⟩⟩

/-- **What a window says.** It begins with a text of at most `r` characters exactly when the text it is cut from does
and fewer separators start inside than the window has pieces. -/
theorem prefix_window (h : Apart sep) {r : ℕ} (k : ℕ) (t q : List α) (hq : q.length ≤ r) :
    q <+: window sep r (k + 1) t ↔ q <+: t ∧ starts sep q.length t < k + 1 := by
  rw [window, prefix_take_iff hq, prefix_joined h k t q hq]

end

end Pieces
