/-
Forests given by parent pointers: a list of nodes, and a partial parent function. Rows of a table with a parent column
are one; what is stored at a node may be asked for along the way up, or folded down from the roots.

- `ancestors x`: the node and its ancestors, nearest first (a walk of at most as many steps as there are nodes);
- `descendants seeds`: all nodes at or below a seed, by rounds of children;
- `topDown own`: each node with the nearest value along its ancestors, level by level from the roots;
- `ancestry starts`: the ancestors of many nodes, level by level, no node twice;
- `walk leave x`: the way up with a memory of where it has been; none if it comes back;
- `cascade nodes gone`: what is left when some nodes go, and with them whatever hangs from a node that went.

When parents are nodes and descend in some numbering (`Rooted`), the walk is never cut short (`ancestors_eq`), a node is
a descendant of the seeds exactly when an ancestor is a seed (`mem_descendants`), and the value folded down is the first
one found on the way up (`mem_topDown`), the levels find all ancestors (`mem_ancestry`) and the walk never comes back
(`walk_eq`). A node may be hung from another exactly if that one is not at or below it (`rooted_reparent_iff`).
-/
import Mathlib.Tactic
import Mathlib.Data.List.Perm.Subperm

namespace Forest

open List Function

variable {α β : Type*}

/-- every parent is a node, and parents descend in some numbering: no node is its own ancestor -/
def Rooted (nodes : List α) (parent : α → Option α) : Prop :=
  ∃ depth : α → ℕ, ∀ x ∈ nodes, ∀ p ∈ parent x, p ∈ nodes ∧ depth p < depth x

/-- induction from the roots down -/
theorem Rooted.ind {nodes : List α} {parent : α → Option α} (h : Rooted nodes parent) {P : α → Prop} (hroot : ∀ x ∈ nodes, parent x = none → P x)
    (hchild : ∀ x ∈ nodes, ∀ p ∈ nodes, parent x = some p → P p → P x) : ∀ x ∈ nodes, P x := by
  obtain ⟨depth, hdepth⟩ := h
  intro x
  induction hn : depth x using Nat.strong_induction_on generalizing x with
  | _ n ih =>
    intro hx
    cases hp : parent x with
    | none => exact hroot x hx hp
    | some p =>
      obtain ⟨hpn, hlt⟩ := hdepth x hx p hp
      exact hchild x hx p hpn hp (ih (depth p) (hn ▸ hlt) p rfl hpn)

variable [DecidableEq α]

/-- the walk up from `x`, at most `n` steps -/
def up (nodes : List α) (parent : α → Option α) : ℕ → α → List α
  | 0, _ => []
  | n + 1, x =>
    if x ∈ nodes then
      x :: match parent x with
        | some p => up nodes parent n p
        | none => []
    else []

def ancestors (nodes : List α) (parent : α → Option α) (x : α) : List α := up nodes parent nodes.length x

def children (nodes : List α) (parent : α → Option α) (xs : List α) : List α :=
  nodes.filter fun x => ∃ p ∈ parent x, p ∈ xs

/-- what `n` rounds of children reach from `xs` -/
def below (nodes : List α) (parent : α → Option α) (xs : List α) : ℕ → List α
  | 0 => xs
  | n + 1 => below nodes parent xs n ++ children nodes parent (below nodes parent xs n)

section

variable (nodes : List α) (parent : α → Option α)

def descendants (seeds : List α) : List α :=
  below nodes parent (nodes.filter fun x => x ∈ seeds) nodes.length

/-- the roots, each with its own value -/
def roots (own : α → Option β) : List (α × Option β) :=
  (nodes.filter fun x => (parent x).isNone).map fun x => (x, own x)

/-- the children of a level, each with its own value or else its parent's -/
def nextLevel (own : α → Option β) (level : List (α × Option β)) : List (α × Option β) :=
  nodes.flatMap fun x => (level.filter fun d => parent x = some d.1).map fun d => (x, (own x).or d.2)

end

def level (nodes : List α) (parent : α → Option α) (own : α → Option β) : ℕ → List (α × Option β)
  | 0 => roots nodes parent own
  | n + 1 => nextLevel nodes parent own (level nodes parent own n)

def topDown (nodes : List α) (parent : α → Option α) (own : α → Option β) : List (α × Option β) :=
  (range nodes.length).flatMap (level nodes parent own)

/-! ## The way up -/

section up

variable {nodes : List α} {parent : α → Option α}

variable {x : α}

theorem up_succ (n : ℕ) (hx : x ∈ nodes) :
    up nodes parent (n + 1) x = x :: ((parent x).map (up nodes parent n)).getD [] := by
  refine (if_pos hx).trans ?_
  cases parent x <;> rfl

theorem up_of_notMem (n : ℕ) (hx : x ∉ nodes) : up nodes parent n x = [] := by
  cases n with
  | zero => rfl
  | succ n => exact if_neg hx

theorem mem_nodes_of_mem_up {n : ℕ} {y : α} (h : y ∈ up nodes parent n x) : y ∈ nodes := by
  induction n generalizing x with
  | zero => cases h
  | succ n ih =>
    by_cases hx : x ∈ nodes
    · rw [up_succ n hx] at h
      rcases mem_cons.1 h with rfl | h
      · exact hx
      · cases hp : parent x with
        | none => simp [hp] at h
        | some p => exact ih (by simpa [hp] using h)
    · simp [up_of_notMem _ hx] at h

section

variable {depth : α → ℕ} (hdepth : ∀ x ∈ nodes, ∀ p ∈ parent x, p ∈ nodes ∧ depth p < depth x)

include hdepth

/-- going up, the numbering goes down -/
theorem depth_le_of_mem_up {n : ℕ} {y : α} (h : y ∈ up nodes parent n x) : depth y ≤ depth x := by
  induction n generalizing x with
  | zero => cases h
  | succ n ih =>
    have hx : x ∈ nodes := by
      by_contra hx
      simp [up_of_notMem _ hx] at h
    rw [up_succ n hx] at h
    rcases mem_cons.1 h with rfl | h
    · exact le_rfl
    · cases hp : parent x with
      | none => simp [hp] at h
      | some p =>
        have hle : depth y ≤ depth p := ih (by simpa [hp] using h)
        exact hle.trans (hdepth x hx p hp).2.le

theorem nodup_up (n : ℕ) (x : α) : (up nodes parent n x).Nodup := by
  induction n generalizing x with
  | zero => exact nodup_nil
  | succ n ih =>
    by_cases hx : x ∈ nodes
    · rw [up_succ n hx]
      cases hp : parent x with
      | none => simp
      | some p =>
        refine nodup_cons.2 ⟨fun hmem => ?_, ih p⟩
        have hle : depth x ≤ depth p := depth_le_of_mem_up hdepth (by simpa using hmem)
        exact absurd (hdepth x hx p hp).2 (not_lt.2 hle)
    · simp [up_of_notMem _ hx]

end

theorem length_up_le (h : Rooted nodes parent) (n : ℕ) (x : α) : (up nodes parent n x).length ≤ nodes.length := by
  obtain ⟨depth, hdepth⟩ := h
  have hsub : up nodes parent n x ⊆ nodes := fun _ => mem_nodes_of_mem_up
  exact (subperm_of_subset (nodup_up hdepth n x) hsub).length_le

/-- a walk of more steps goes on where a shorter one was cut -/
theorem take_up (n : ℕ) (x : α) : (up nodes parent (n + 1) x).take n = up nodes parent n x := by
  induction n generalizing x with
  | zero => rfl
  | succ n ih =>
    by_cases hx : x ∈ nodes
    · rw [up_succ (n + 1) hx, up_succ n hx, take_succ_cons]
      cases hp : parent x with
      | none => simp
      | some p => simp [ih p]
    · simp [up_of_notMem _ hx]

/-- the walk is never cut short -/
theorem up_length (h : Rooted nodes parent) (x : α) : up nodes parent (nodes.length + 1) x = ancestors nodes parent x := by
  rw [ancestors, ← take_up nodes.length x]
  exact (take_of_length_le (length_up_le h _ x)).symm

theorem ancestors_eq (h : Rooted nodes parent) (hx : x ∈ nodes) :
    ancestors nodes parent x = x :: ((parent x).map (ancestors nodes parent)).getD [] := by
  rw [← up_length h, up_succ nodes.length hx]
  rfl

theorem ancestors_of_notMem (hx : x ∉ nodes) : ancestors nodes parent x = [] := up_of_notMem _ hx

theorem ancestors_root (h : Rooted nodes parent) (hx : x ∈ nodes) (hp : parent x = none) :
    ancestors nodes parent x = [x] := by rw [ancestors_eq h hx, hp]; rfl

theorem ancestors_child (h : Rooted nodes parent) {p : α} (hx : x ∈ nodes) (hp : parent x = some p) :
    ancestors nodes parent x = x :: ancestors nodes parent p := by rw [ancestors_eq h hx, hp]; rfl

/-- a part of the forest that holds the parents of its nodes has the same ancestors -/
theorem ancestors_of_subset {part : List α} (h : Rooted nodes parent) (hsub : part ⊆ nodes)
    (hclosed : ∀ x ∈ part, ∀ p ∈ parent x, p ∈ part) : ∀ x ∈ part, ancestors part parent x = ancestors nodes parent x := by
  have hpart : Rooted part parent := by
    obtain ⟨depth, hdepth⟩ := h
    exact ⟨depth, fun x hx p hp => ⟨hclosed x hx p hp, (hdepth x (hsub hx) p hp).2⟩⟩
  refine hpart.ind (fun x hx hp => ?_) fun x hx p _ hp ih => ?_
  · rw [ancestors_root hpart hx hp, ancestors_root h (hsub hx) hp]
  · rw [ancestors_child hpart hx hp, ancestors_child h (hsub hx) hp, ih]

end up

/-! ## The way down -/

section down

variable {nodes : List α} {parent : α → Option α}

variable {xs : List α} {x : α}

theorem mem_children : x ∈ children nodes parent xs ↔ x ∈ nodes ∧ ∃ p, parent x = some p ∧ p ∈ xs := by
  simp [children]

theorem up_subset_succ (n : ℕ) (x : α) : up nodes parent n x ⊆ up nodes parent (n + 1) x := by
  rw [← take_up n x]
  exact take_subset _ _

theorem mem_nodes_of_mem_below (hxs : xs ⊆ nodes) (n : ℕ) (h : x ∈ below nodes parent xs n) : x ∈ nodes := by
  cases n with
  | zero => exact hxs h
  | succ n =>
    rcases mem_append.1 h with h | h
    · exact mem_nodes_of_mem_below hxs n h
    · exact (mem_children.1 h).1

/-- `n` rounds reach what a walk of `n + 1` steps up from there meets -/
theorem mem_below (hxs : xs ⊆ nodes) (n : ℕ) (hx : x ∈ nodes) :
    x ∈ below nodes parent xs n ↔ ∃ a ∈ up nodes parent (n + 1) x, a ∈ xs := by
  induction n generalizing x with
  | zero =>
    have hup : up nodes parent 1 x = [x] := by
      rw [up_succ 0 hx]
      cases parent x <;> rfl
    simp [below, hup]
  | succ n ih =>
    rw [below, mem_append, ih hx, mem_children, up_succ (n + 1) hx]
    cases hp : parent x with
    | none =>
      rw [up_succ n hx, hp]
      simp
    | some p =>
      have hround : p ∈ below nodes parent xs n ↔ ∃ a ∈ up nodes parent (n + 1) p, a ∈ xs := by
        by_cases hpn : p ∈ nodes
        · exact ih hpn
        · have hnil : up nodes parent (n + 1) p = [] := up_of_notMem _ hpn
          simp only [hnil, not_mem_nil, false_and, exists_false, iff_false]
          exact fun hmem => hpn (mem_nodes_of_mem_below hxs n hmem)
      rw [up_succ n hx, hp]
      constructor
      · rintro (⟨a, ha, hax⟩ | ⟨-, q, hq, hqb⟩)
        · refine ⟨a, ?_, hax⟩
          rcases mem_cons.1 ha with rfl | ha
          · exact .head _
          · exact .tail _ (up_subset_succ n p ha)
        · cases hq
          obtain ⟨a, ha, hax⟩ := hround.1 hqb
          exact ⟨a, .tail _ ha, hax⟩
      · rintro ⟨a, ha, hax⟩
        rcases mem_cons.1 ha with rfl | ha
        · exact .inl ⟨a, .head _, hax⟩
        · exact .inr ⟨hx, p, rfl, hround.2 ⟨a, ha, hax⟩⟩

/-- **Descendants.** A node is at or below a seed exactly when a seed is among its ancestors. -/
theorem mem_descendants (h : Rooted nodes parent) (seeds : List α) (x : α) :
    x ∈ descendants nodes parent seeds ↔ ∃ a ∈ ancestors nodes parent x, a ∈ seeds := by
  have hseeds : (nodes.filter fun y => y ∈ seeds) ⊆ nodes := fun y hy => (mem_filter.1 hy).1
  by_cases hx : x ∈ nodes
  · rw [descendants, mem_below hseeds _ hx, up_length h]
    constructor
    · rintro ⟨a, ha, has⟩
      exact ⟨a, ha, by simpa using (mem_filter.1 has).2⟩
    · rintro ⟨a, ha, has⟩
      exact ⟨a, ha, mem_filter.2 ⟨mem_nodes_of_mem_up ha, by simpa using has⟩⟩
  · rw [ancestors_of_notMem hx]
    simp only [not_mem_nil, false_and, exists_false, iff_false]
    exact fun hmem => hx (mem_nodes_of_mem_below hseeds _ hmem)

variable {b : Option β}

theorem mem_nextLevel {own : α → Option β} {lvl : List (α × Option β)} :
    (x, b) ∈ nextLevel nodes parent own lvl ↔
      x ∈ nodes ∧ ∃ p c, parent x = some p ∧ (p, c) ∈ lvl ∧ b = (own x).or c := by
  simp only [nextLevel, mem_flatMap, mem_map, mem_filter, decide_eq_true_eq, Prod.mk.injEq]
  constructor
  · rintro ⟨y, hy, ⟨p, c⟩, ⟨hmem, hp⟩, rfl, rfl⟩
    exact ⟨hy, p, c, hp, hmem, rfl⟩
  · rintro ⟨hx, p, c, hp, hmem, rfl⟩
    exact ⟨x, hx, (p, c), ⟨hmem, hp⟩, rfl, rfl⟩

theorem mem_level (h : Rooted nodes parent) (own : α → Option β) (n : ℕ) :
    (x, b) ∈ level nodes parent own n ↔
      x ∈ nodes ∧ (ancestors nodes parent x).length = n + 1 ∧ b = (ancestors nodes parent x).findSome? own := by
  induction n generalizing x b with
  | zero =>
    simp only [level, roots, mem_map, mem_filter, Prod.mk.injEq, Option.isNone_iff_eq_none]
    constructor
    · rintro ⟨y, ⟨hy, hp⟩, rfl, rfl⟩
      rw [ancestors_root h hy hp]
      refine ⟨hy, rfl, ?_⟩
      cases hown : own y <;> simp [hown]
    · rintro ⟨hx, hlen, rfl⟩
      cases hp : parent x with
      | none =>
        refine ⟨x, ⟨hx, hp⟩, rfl, ?_⟩
        rw [ancestors_root h hx hp]
        cases hown : own x <;> simp [hown]
      | some p =>
        obtain ⟨depth, hdepth⟩ := id h
        have hpn : p ∈ nodes := (hdepth x hx p hp).1
        rw [ancestors_child h hx hp, ancestors_eq h hpn] at hlen
        simp at hlen
  | succ n ih =>
    rw [level, mem_nextLevel]
    constructor
    · rintro ⟨hx, p, c, hp, hmem, rfl⟩
      obtain ⟨-, hlen, rfl⟩ := ih.1 hmem
      rw [ancestors_child h hx hp]
      refine ⟨hx, by simp [hlen], ?_⟩
      cases hown : own x <;> simp [hown]
    · rintro ⟨hx, hlen, rfl⟩
      cases hp : parent x with
      | none =>
        rw [ancestors_root h hx hp] at hlen
        simp at hlen
      | some p =>
        obtain ⟨depth, hdepth⟩ := id h
        have hpn : p ∈ nodes := (hdepth x hx p hp).1
        rw [ancestors_child h hx hp] at hlen ⊢
        refine ⟨hx, p, _, rfl, ih.2 ⟨hpn, by simpa using hlen, rfl⟩, ?_⟩
        cases hown : own x <;> simp [hown]

/-- **Values folded down.** Each node has one, the first on its way up. -/
theorem mem_topDown (h : Rooted nodes parent) (own : α → Option β) :
    (x, b) ∈ topDown nodes parent own ↔ x ∈ nodes ∧ b = (ancestors nodes parent x).findSome? own := by
  simp only [topDown, mem_flatMap, mem_range, mem_level h]
  constructor
  · rintro ⟨n, -, hx, -, hb⟩
    exact ⟨hx, hb⟩
  · rintro ⟨hx, hb⟩
    have hlen : (ancestors nodes parent x).length ≤ nodes.length := length_up_le h _ x
    have hpos : (ancestors nodes parent x).length ≠ 0 := by
      rw [ancestors_eq h hx]
      simp
    exact ⟨(ancestors nodes parent x).length - 1, by omega, hx, by omega, hb⟩

end down

/-! ## Many ways up at once -/

/-- the parents of some rows that were not asked for before, each once, and all that was asked for -/
def askParents (parent : α → Option α) : List α → List α → List α × List α
  | [], asked => ([], asked)
  | x :: rows, asked =>
    match parent x with
    | none => askParents parent rows asked
    | some p =>
      if p ∈ asked then askParents parent rows asked
      else
        let (next, asked') := askParents parent rows (p :: asked)
        (p :: next, asked')

/-- read the rows of the frontier, then those of their parents -/
def ancestryLoop (nodes : List α) (parent : α → Option α) : ℕ → List α → List α → List α
  | 0, _, _ => []
  | n + 1, asked, frontier =>
    let rows := nodes.filter fun x => x ∈ frontier
    let (next, asked') := askParents parent rows asked
    rows ++ ancestryLoop nodes parent n asked' next

def ancestry (nodes : List α) (parent : α → Option α) (starts : List α) : List α :=
  ancestryLoop nodes parent (nodes.length + 1) starts starts

/-- the way up from `x`; `leave` is the answer where it steps off the nodes -/
def walk (nodes : List α) (parent : α → Option α) (leave : Option (List α)) : ℕ → List α → α → Option (List α)
  | 0, _, _ => none
  | n + 1, visited, x =>
    if x ∈ nodes then
      if x ∈ visited then none
      else
        match parent x with
        | none => some [x]
        | some p => (walk nodes parent leave n (x :: visited) p).map (x :: ·)
    else leave

section many

variable {nodes : List α} {parent : α → Option α}

/-- what was asked for grows by what is asked next, which is new and consists of parents -/
theorem askParents_spec (parent : α → Option α) (rows asked : List α) :
    (∀ p, p ∈ (askParents parent rows asked).2 ↔ p ∈ asked ∨ p ∈ (askParents parent rows asked).1) ∧
      (∀ p ∈ (askParents parent rows asked).1, p ∉ asked ∧ ∃ x ∈ rows, parent x = some p) ∧
      ∀ x ∈ rows, ∀ p ∈ parent x, p ∈ (askParents parent rows asked).2 := by
  induction rows generalizing asked with
  | nil => simp [askParents]
  | cons x rows ih =>
    rw [askParents]
    cases hp : parent x with
    | none =>
      obtain ⟨h1, h2, h3⟩ := ih asked
      refine ⟨h1, fun p hmem => ?_, fun y hy p hyp => ?_⟩
      · obtain ⟨hnew, y, hy, hyp⟩ := h2 p hmem
        exact ⟨hnew, y, .tail _ hy, hyp⟩
      · rcases mem_cons.1 hy with rfl | hy
        · simp [hp] at hyp
        · exact h3 y hy p hyp
    | some q =>
      by_cases hq : q ∈ asked
      · obtain ⟨h1, h2, h3⟩ := ih asked
        simp only [hq, if_true]
        refine ⟨h1, fun p hmem => ?_, fun y hy p hyp => ?_⟩
        · obtain ⟨hnew, y, hy, hyp⟩ := h2 p hmem
          exact ⟨hnew, y, .tail _ hy, hyp⟩
        · rcases mem_cons.1 hy with rfl | hy
          · obtain rfl : q = p := Option.some.inj (hp.symm.trans hyp)
            exact (h1 q).2 (.inl hq)
          · exact h3 y hy p hyp
      · obtain ⟨h1, h2, h3⟩ := ih (q :: asked)
        simp only [hq, if_false]
        refine ⟨fun p => ?_, fun p hmem => ?_, fun y hy p hyp => ?_⟩
        · rw [h1 p, mem_cons, mem_cons]
          tauto
        · rcases mem_cons.1 hmem with rfl | hmem
          · exact ⟨hq, x, .head _, hp⟩
          · obtain ⟨hnew, y, hy, hyp⟩ := h2 p hmem
            exact ⟨fun ha => hnew (.tail _ ha), y, .tail _ hy, hyp⟩
        · rcases mem_cons.1 hy with rfl | hy
          · obtain rfl : q = p := Option.some.inj (hp.symm.trans hyp)
            exact (h1 q).2 (.inl mem_cons_self)
          · exact h3 y hy p hyp

variable {x : α}

section

variable (h : Rooted nodes parent)

include h

theorem self_mem_ancestors (hx : x ∈ nodes) : x ∈ ancestors nodes parent x := by
  rw [ancestors_eq h hx]
  exact .head _

theorem mem_ancestors_of_parent {p y : α} (hx : x ∈ nodes) (hp : parent x = some p)
    (hy : y ∈ ancestors nodes parent p) : y ∈ ancestors nodes parent x := by
  rw [ancestors_child h hx hp]
  exact .tail _ hy

/-- the loop finds ancestors of its frontier only -/
theorem ancestor_of_mem_loop (n : ℕ) (asked frontier : List α)
    (hx : x ∈ ancestryLoop nodes parent n asked frontier) : ∃ s ∈ frontier, x ∈ ancestors nodes parent s := by
  induction n generalizing asked frontier with
  | zero => simp [ancestryLoop] at hx
  | succ n ih =>
    rcases mem_append.1 hx with hx | hx
    · obtain ⟨hnode, hfront⟩ := mem_filter.1 hx
      exact ⟨x, by simpa using hfront, self_mem_ancestors h hnode⟩
    · obtain ⟨p, hp, hxp⟩ := ih _ _ hx
      obtain ⟨-, y, hy, hyp⟩ := (askParents_spec parent (nodes.filter fun x => x ∈ frontier) asked).2.1 p hp
      obtain ⟨hnode, hfront⟩ := mem_filter.1 hy
      exact ⟨y, by simpa using hfront, mem_ancestors_of_parent h hnode hyp hxp⟩

/-- a set of nodes that holds the parents of its nodes holds their ancestors -/
theorem mem_of_closed {asked : List α}
    (hclosed : ∀ x ∈ asked, x ∈ nodes → ∀ p ∈ parent x, p ∈ asked) {s : α} (hs : s ∈ asked)
    (hx : x ∈ ancestors nodes parent s) : x ∈ asked := by
  by_cases hnode : s ∈ nodes
  · refine h.ind (P := fun s => s ∈ asked → x ∈ ancestors nodes parent s → x ∈ asked) (fun s hn hp hs hx => ?_)
      (fun s hn p _ hp ih hs hx => ?_) s hnode hs hx
    · rw [ancestors_root h hn hp] at hx
      rwa [mem_singleton.1 hx]
    · rw [ancestors_child h hn hp] at hx
      rcases mem_cons.1 hx with rfl | hx
      · exact hs
      · exact ih (hclosed s hs hn p hp) hx
  · rw [ancestors_of_notMem hnode] at hx
    cases hx

/-- the loop finds every ancestor that was not asked for before: what is asked for only grows -/
theorem mem_loop_of_ancestor (n : ℕ) (asked frontier : List α) (hsub : frontier ⊆ asked)
    (hdone : ∀ x ∈ asked, x ∉ frontier → x ∈ nodes → ∀ p ∈ parent x, p ∈ asked)
    (hfuel : (∀ x ∈ frontier, x ∉ nodes) ∨ (nodes.filter fun x => x ∉ asked).length < n) {s : α} (hs : s ∈ asked)
    (hx : x ∈ ancestors nodes parent s) :
    x ∈ ancestryLoop nodes parent n asked frontier ∨ (x ∈ asked ∧ x ∉ frontier) := by
  have hnode : x ∈ nodes := mem_nodes_of_mem_up hx
  induction n generalizing asked frontier with
  | zero =>
    have hout : ∀ x ∈ frontier, x ∉ nodes := hfuel.resolve_right (Nat.not_lt_zero _)
    have hclosed : ∀ x ∈ asked, x ∈ nodes → ∀ p ∈ parent x, p ∈ asked := fun x hx hn =>
      hdone x hx (fun hf => hout x hf hn) hn
    exact .inr ⟨mem_of_closed h hclosed hs hx, fun hf => hout x hf hnode⟩
  | succ n ih =>
    obtain ⟨hasked, hnext, hparents⟩ := askParents_spec parent (nodes.filter fun x => x ∈ frontier) asked
    have hloop : ancestryLoop nodes parent (n + 1) asked frontier = (nodes.filter fun x => x ∈ frontier) ++
        ancestryLoop nodes parent n (askParents parent (nodes.filter fun x => x ∈ frontier) asked).2
          (askParents parent (nodes.filter fun x => x ∈ frontier) asked).1 := rfl
    have hgrow : ∀ p ∈ asked, p ∈ (askParents parent (nodes.filter fun x => x ∈ frontier) asked).2 := fun p hp =>
      (hasked p).2 (.inl hp)
    have hparentNode : ∀ p ∈ (askParents parent (nodes.filter fun x => x ∈ frontier) asked).1, p ∈ nodes := by
      obtain ⟨depth, hdepth⟩ := id h
      intro p hp
      obtain ⟨-, y, hy, hyp⟩ := hnext p hp
      exact (hdepth y (mem_filter.1 hy).1 p hyp).1
    have hstep := ih _ (askParents parent (nodes.filter fun x => x ∈ frontier) asked).1 (fun p hp => (hasked p).2 (.inr hp))
      (fun y hy hyn hynode p hp => ?_) ?_ (hgrow s hs)
    · rw [hloop, mem_append]
      rcases hstep with hmem | ⟨hmem, hno⟩
      · exact .inl (.inr hmem)
      · have hold : x ∈ asked := ((hasked x).1 hmem).resolve_right hno
        by_cases hf : x ∈ frontier
        · exact .inl (.inl (mem_filter.2 ⟨hnode, by simpa using hf⟩))
        · exact .inr ⟨hold, hf⟩
    · have hold : y ∈ asked := ((hasked y).1 hy).resolve_right hyn
      by_cases hf : y ∈ frontier
      · exact hparents y (mem_filter.2 ⟨hynode, by simpa using hf⟩) p hp
      · exact hgrow p (hdone y hold hf hynode p hp)
    · -- a parent asked for next is a node not asked for before
      cases hlist : (askParents parent (nodes.filter fun x => x ∈ frontier) asked).1 with
      | nil => exact .inl (by simp)
      | cons p ps =>
        right
        have hp : p ∈ (askParents parent (nodes.filter fun x => x ∈ frontier) asked).1 := by simp [hlist]
        obtain ⟨hnew, y, hy, -⟩ := hnext p hp
        have hy' := mem_filter.1 hy
        have hlt : (nodes.filter fun x => x ∉ asked).length < n + 1 :=
          hfuel.resolve_left fun hout => hout y (by simpa using hy'.2) hy'.1
        have hless : (nodes.filter fun x => x ∉ (askParents parent (nodes.filter fun x => x ∈ frontier) asked).2).length <
            (nodes.filter fun x => x ∉ asked).length := by
          have hfilter : (nodes.filter fun x => x ∉ (askParents parent (nodes.filter fun x => x ∈ frontier) asked).2) =
              (nodes.filter fun x => x ∉ asked).filter fun x =>
                x ∉ (askParents parent (nodes.filter fun x => x ∈ frontier) asked).2 := by
            rw [filter_filter]
            refine filter_congr fun y _ => ?_
            by_cases hy : y ∈ asked
            · simp [hy, hgrow y hy]
            · simp [hy]
          rw [hfilter, length_filter_lt_length_iff_exists]
          exact ⟨p, mem_filter.2 ⟨hparentNode p hp, by simpa using hnew⟩, by simpa using (hasked p).2 (.inr hp)⟩
        omega

theorem mem_ancestry (starts : List α) (x : α) :
    x ∈ ancestry nodes parent starts ↔ ∃ s ∈ starts, x ∈ ancestors nodes parent s := by
  constructor
  · exact ancestor_of_mem_loop h _ _ _
  · rintro ⟨s, hs, hx⟩
    have hfuel : (nodes.filter fun x => x ∉ starts).length < nodes.length + 1 :=
      Nat.lt_succ_of_le (length_filter_le _ _)
    have hmem := mem_loop_of_ancestor h (nodes.length + 1) starts starts (Subset.refl _)
      (fun y hy hn => absurd hy hn) (.inr hfuel) hs hx
    exact hmem.resolve_right fun hc => hc.2 hc.1

/-- on nodes that hang from their roots the walk is the way up -/
theorem walk_eq (leave : Option (List α)) (hx : x ∈ nodes) :
    walk nodes parent leave (nodes.length + 1) [] x = some (ancestors nodes parent x) := by
  obtain ⟨depth, hdepth⟩ := id h
  have hwalk : ∀ (n : ℕ) (visited : List α) (x : α), x ∈ nodes → (∀ v ∈ visited, depth x < depth v) →
      (up nodes parent n x).length < n → walk nodes parent leave n visited x = some (up nodes parent n x) := by
    intro n
    induction n with
    | zero => intro _ x _ _ hlen; exact absurd hlen (Nat.not_lt_zero _)
    | succ n ih =>
      intro visited x hx hvisited hlen
      have hnew : x ∉ visited := fun hv => lt_irrefl _ (hvisited x hv)
      rw [walk, if_pos hx, if_neg hnew]
      rw [up_succ n hx] at hlen ⊢
      cases hp : parent x with
      | none => simp
      | some p =>
        obtain ⟨hpn, hlt⟩ := hdepth x hx p hp
        have hseen : ∀ v ∈ x :: visited, depth p < depth v := by
          intro v hv
          rcases mem_cons.1 hv with rfl | hv
          · exact hlt
          · exact hlt.trans (hvisited v hv)
        have hshort : (up nodes parent n p).length < n := by
          simp only [hp, Option.map_some, Option.getD_some, length_cons] at hlen
          omega
        have hrest := ih (x :: visited) p hpn hseen hshort
        simp [hrest]
  have hlen : (up nodes parent (nodes.length + 1) x).length < nodes.length + 1 := Nat.lt_succ_of_le (length_up_le h _ x)
  rw [hwalk _ [] x hx (by simp) hlen, up_length h]

end

/-- parents that agree on a closed set of nodes give one walk on it -/
theorem walk_congr {parent parent' : α → Option α} {leave : Option (List α)}
    (hparent : ∀ x ∈ nodes, parent' x = parent x) (hclosed : ∀ x ∈ nodes, ∀ p ∈ parent x, p ∈ nodes) {n : ℕ}
    {visited : List α} (hx : x ∈ nodes) :
    walk nodes parent' leave n visited x = walk nodes parent leave n visited x := by
  induction n generalizing visited x with
  | zero => rfl
  | succ n ih =>
    rw [walk, walk, hparent x hx]
    cases hp : parent x with
    | none => rfl
    | some p => simp only [ih (hclosed x hx p hp)]

/-- the way up goes on at the parent of each of its nodes -/
theorem parent_mem_ancestors (h : Rooted nodes parent) {s : α} (hs : s ∈ nodes) {p : α}
    (hx : x ∈ ancestors nodes parent s) (hp : parent x = some p) : p ∈ ancestors nodes parent s := by
  refine h.ind (P := fun s => x ∈ ancestors nodes parent s → p ∈ ancestors nodes parent s) (fun s hn hroot hx => ?_)
    (fun s hn q hqn hq ih hx => ?_) s hs hx
  · rw [ancestors_root h hn hroot] at hx
    obtain rfl := mem_singleton.1 hx
    exact absurd (hroot.symm.trans hp) (by simp)
  · rw [ancestors_child h hn hq] at hx ⊢
    rcases mem_cons.1 hx with rfl | hx
    · obtain rfl : q = p := Option.some.inj (hq.symm.trans hp)
      exact .tail _ (self_mem_ancestors h hqn)
    · exact .tail _ (ih hx)

/-- what is above a node is the node, or the parent of one on the way up -/
theorem mem_ancestors_iff (h : Rooted nodes parent) {s : α} (hs : s ∈ nodes) :
    x ∈ ancestors nodes parent s ↔ x = s ∨ ∃ a ∈ ancestors nodes parent s, parent a = some x := by
  constructor
  · refine h.ind (P := fun s => x ∈ ancestors nodes parent s → x = s ∨ ∃ a ∈ ancestors nodes parent s, parent a = some x)
      (fun s hn hroot hx => ?_) (fun s hn q hqn hq ih hx => ?_) s hs
    · rw [ancestors_root h hn hroot] at hx
      exact .inl (mem_singleton.1 hx)
    · rw [ancestors_child h hn hq] at hx ⊢
      rcases mem_cons.1 hx with heq | hx
      · exact .inl heq
      · rcases ih hx with rfl | ⟨a, ha, hax⟩
        · exact .inr ⟨s, .head _, hq⟩
        · exact .inr ⟨a, .tail _ ha, hax⟩
  · rintro (rfl | ⟨a, ha, hax⟩)
    · exact self_mem_ancestors h hs
    · exact parent_mem_ancestors h hs ha hax

end many

/-! ## One parent changes -/

section reparent

variable {nodes : List α} {parent : α → Option α} {f p : α}

theorem Rooted.uproot (h : Rooted nodes parent) (f : α) : Rooted nodes (update parent f none) := by
  obtain ⟨depth, hdepth⟩ := h
  refine ⟨depth, fun x hx q hq => hdepth x hx q ?_⟩
  by_cases hxf : x = f
  · subst hxf
    rw [update_self] at hq
    cases hq
  · rwa [update_of_ne hxf] at hq

/-- below `f` every node but `f` keeps its parent, so `f` is no deeper than they are -/
theorem depth_le_of_reparent (h : Rooted nodes parent) {depth : α → ℕ}
    (hdepth : ∀ x ∈ nodes, ∀ q ∈ update parent f (some p) x, q ∈ nodes ∧ depth q < depth x) :
    ∀ x ∈ nodes, f ∈ ancestors nodes parent x → depth f ≤ depth x := by
  refine h.ind (fun x hx hroot hf => ?_) (fun x hx q hqn hq ih hf => ?_)
  · rw [ancestors_root h hx hroot] at hf
    rw [mem_singleton.1 hf]
  · by_cases hxf : x = f
    · rw [hxf]
    · rw [ancestors_child h hx hq] at hf
      have hfq : f ∈ ancestors nodes parent q := (mem_cons.1 hf).resolve_left fun heq => hxf heq.symm
      have hlt : depth q < depth x := (hdepth x hx q (by rw [update_of_ne hxf]; exact hq)).2
      exact (ih hfq).trans hlt.le

/-- **Re-parenting.** A node may hang from another exactly if that one is not at or below it. -/
theorem rooted_reparent_iff (h : Rooted nodes parent) (hf : f ∈ nodes) (hp : p ∈ nodes) :
    Rooted nodes (update parent f (some p)) ↔ f ∉ ancestors nodes parent p := by
  constructor
  · rintro ⟨depth, hdepth⟩ hbelow
    have hle : depth f ≤ depth p := depth_le_of_reparent h hdepth p hp hbelow
    have hlt : depth p < depth f := (hdepth f hf p (by rw [update_self]; rfl)).2
    omega
  · intro hnot
    have hroot := h
    obtain ⟨depth, hdepth⟩ := hroot
    -- what is below `f` is put deeper than `p`
    refine ⟨fun x => if f ∈ ancestors nodes parent x then depth x + (depth p + 1) else depth x, ?_⟩
    intro x hx q hq
    by_cases hxf : x = f
    · subst hxf
      rw [update_self] at hq
      cases hq
      refine ⟨hp, ?_⟩
      dsimp only
      rw [if_neg hnot, if_pos (self_mem_ancestors h hf)]
      omega
    · rw [update_of_ne hxf] at hq
      obtain ⟨hqn, hlt⟩ := hdepth x hx q hq
      refine ⟨hqn, ?_⟩
      have hsame : f ∈ ancestors nodes parent x ↔ f ∈ ancestors nodes parent q := by
        rw [ancestors_child h hx hq, mem_cons]
        exact or_iff_right fun heq => hxf heq.symm
      dsimp only
      by_cases hbelow : f ∈ ancestors nodes parent q
      · rw [if_pos hbelow, if_pos (hsame.2 hbelow)]
        omega
      · rw [if_neg hbelow, if_neg fun hx' => hbelow (hsame.1 hx')]
        exact hlt

end reparent

/-! ## Everything that hangs from a node -/

section reach

/-- `x` is at or below `s` -/
def Reaches (nodes : List α) (parent : α → Option α) (s x : α) : Prop :=
  Relation.ReflTransGen (fun p y => y ∈ nodes ∧ parent y = some p) s x

/-- what is left when `gone` goes, and with it whatever hangs from what went (`ON DELETE CASCADE`) -/
def cascade (parent : α → Option α) (nodes gone : List α) : List α :=
  let left := nodes.removeAll gone
  let orphans := children left parent gone
  if orphans = [] then left else cascade parent left orphans
termination_by (nodes.removeAll gone).length
decreasing_by
  rename_i h
  obtain ⟨x, hx⟩ := exists_mem_of_ne_nil _ h
  have hleft : x ∈ nodes.removeAll gone := (mem_filter.1 hx).1
  apply length_filter_lt_length_iff_exists.2
  exact ⟨x, hleft, by simpa using hx⟩

variable {nodes : List α} {parent : α → Option α}

variable {xs : List α} {x : α}

theorem mem_removeAll {ys : List α} : x ∈ xs.removeAll ys ↔ x ∈ xs ∧ x ∉ ys := by
  simp [removeAll]

theorem Reaches.mem_of_closed (hclosed : children nodes parent xs ⊆ xs) {s : α} (h : Reaches nodes parent s x)
    (hs : s ∈ xs) : x ∈ xs := by
  induction h with
  | refl => exact hs
  | tail _ hstep ih => exact hclosed (mem_children.2 ⟨hstep.1, _, hstep.2, ih⟩)

/-! ### By rounds -/

theorem reaches_of_mem_below (n : ℕ) (h : x ∈ below nodes parent xs n) : ∃ s ∈ xs, Reaches nodes parent s x := by
  induction n generalizing x with
  | zero => exact ⟨x, h, .refl⟩
  | succ n ih =>
    rcases mem_append.1 h with h | h
    · exact ih h
    · obtain ⟨hx, p, hp, hmem⟩ := mem_children.1 h
      obtain ⟨s, hs, hreach⟩ := ih hmem
      exact ⟨s, hs, hreach.tail ⟨hx, hp⟩⟩

theorem below_subset_succ (xs : List α) (n : ℕ) : below nodes parent xs n ⊆ below nodes parent xs (n + 1) :=
  subset_append_left _ _

/-- a round that brings nothing is followed by no other -/
theorem below_closed_succ {n : ℕ} (h : children nodes parent (below nodes parent xs n) ⊆ below nodes parent xs n) :
    children nodes parent (below nodes parent xs (n + 1)) ⊆ below nodes parent xs (n + 1) := by
  intro x hx
  obtain ⟨hmem, p, hp, hbelow⟩ := mem_children.1 hx
  rcases mem_append.1 hbelow with hbelow | hround
  · exact below_subset_succ xs n (h (mem_children.2 ⟨hmem, p, hp, hbelow⟩))
  · exact below_subset_succ xs n (h (mem_children.2 ⟨hmem, p, hp, h hround⟩))

/-- each round brings a node, until one brings none -/
theorem below_closed_or_grows (xs : List α) (hxs : xs ⊆ nodes) (n : ℕ) :
    children nodes parent (below nodes parent xs n) ⊆ below nodes parent xs n ∨
      n + xs.toFinset.card ≤ (below nodes parent xs n).toFinset.card := by
  induction n with
  | zero => exact .inr (by simp [below])
  | succ n ih =>
    by_cases hclosed : children nodes parent (below nodes parent xs n) ⊆ below nodes parent xs n
    · exact .inl (below_closed_succ hclosed)
    · right
      have hgrown := ih.resolve_left hclosed
      obtain ⟨x, hx, hnew⟩ : ∃ x ∈ children nodes parent (below nodes parent xs n), x ∉ below nodes parent xs n := by
        simpa [subset_def] using hclosed
      have hlt : (below nodes parent xs n).toFinset.card < (below nodes parent xs (n + 1)).toFinset.card := by
        apply Finset.card_lt_card
        refine ⟨fun y hy => ?_, fun hsub => hnew ?_⟩
        · exact mem_toFinset.2 (below_subset_succ xs n (mem_toFinset.1 hy))
        · exact mem_toFinset.1 (hsub (mem_toFinset.2 (mem_append_right _ hx)))
      omega

/-- as many rounds as there are nodes reach everything -/
theorem descendants_closed (seeds : List α) :
    children nodes parent (descendants nodes parent seeds) ⊆ descendants nodes parent seeds := by
  obtain ⟨xs, hxs⟩ : ∃ xs, xs = nodes.filter fun x => x ∈ seeds := ⟨_, rfl⟩
  have hsub : xs ⊆ nodes := by
    rw [hxs]
    exact filter_subset_self _
  have hdesc : descendants nodes parent seeds = below nodes parent xs nodes.length := by rw [hxs]; rfl
  rw [hdesc]
  have hgrowth : children nodes parent (below nodes parent xs nodes.length) ⊆ below nodes parent xs nodes.length ∨
      nodes.length + xs.toFinset.card ≤ (below nodes parent xs nodes.length).toFinset.card :=
    below_closed_or_grows xs hsub nodes.length
  rcases hgrowth with hclosed | hgrown
  · exact hclosed
  · -- they are all the nodes there are
    have hall : (below nodes parent xs nodes.length).toFinset = nodes.toFinset := by
      apply Finset.eq_of_subset_of_card_le
      · intro x hx
        exact mem_toFinset.2 (mem_nodes_of_mem_below hsub _ (mem_toFinset.1 hx))
      · have hle := toFinset_card_le nodes
        omega
    intro x hx
    have hmem : x ∈ nodes.toFinset := mem_toFinset.2 (mem_children.1 hx).1
    exact mem_toFinset.1 (hall ▸ hmem)

/-- **Descendants** of any parent function, also one with cycles. -/
theorem mem_descendants_iff_reaches (seeds : List α) (x : α) :
    x ∈ descendants nodes parent seeds ↔ ∃ s ∈ seeds, s ∈ nodes ∧ Reaches nodes parent s x := by
  constructor
  · intro h
    obtain ⟨s, hs, hreach⟩ := reaches_of_mem_below _ h
    obtain ⟨hnode, hseed⟩ := mem_filter.1 hs
    exact ⟨s, by simpa using hseed, hnode, hreach⟩
  · rintro ⟨s, hs, hnode, hreach⟩
    apply hreach.mem_of_closed (descendants_closed seeds)
    have hstart : ∀ n, s ∈ below nodes parent (nodes.filter fun x => x ∈ seeds) n := by
      intro n
      induction n with
      | zero => exact mem_filter.2 ⟨hnode, by simpa using hs⟩
      | succ n ih => exact below_subset_succ _ n ih
    exact hstart _

/-! ### By deleting -/

theorem Reaches.mono {part : List α} (hsub : part ⊆ nodes) {s : α} (h : Reaches part parent s x) :
    Reaches nodes parent s x := by
  induction h with
  | refl => exact .refl
  | tail _ hstep ih => exact ih.tail ⟨hsub hstep.1, hstep.2⟩

/-- what hangs from `gone` is in it, or hangs from an orphan -/
theorem Reaches.gone_or_orphan {gone : List α} {s : α} (h : Reaches nodes parent s x) (hs : s ∈ gone) :
    x ∈ gone ∨ ∃ o ∈ children (nodes.removeAll gone) parent gone, Reaches (nodes.removeAll gone) parent o x := by
  induction h with
  | refl => exact .inl hs
  | @tail p y _ hstep ih =>
    by_cases hy : y ∈ gone
    · exact .inl hy
    · have hleft : y ∈ nodes.removeAll gone := mem_removeAll.2 ⟨hstep.1, hy⟩
      right
      rcases ih with hp | ⟨o, ho, hreach⟩
      · exact ⟨y, mem_children.2 ⟨hleft, p, hstep.2, hp⟩, .refl⟩
      · exact ⟨o, ho, hreach.tail ⟨hleft, hstep.2⟩⟩

/-- **Cascades.** What is left is what hangs from nothing that went. -/
theorem mem_cascade (nodes gone : List α) (x : α) :
    x ∈ cascade parent nodes gone ↔ x ∈ nodes ∧ ∀ s ∈ gone, ¬ Reaches nodes parent s x := by
  induction nodes, gone using cascade.induct parent with
  | case1 nodes gone left orphans hnone =>
    rw [cascade, if_pos hnone, mem_removeAll]
    refine and_congr_right fun hx => ⟨fun hnot s hs hreach => ?_, fun h hgone => h x hgone .refl⟩
    rcases hreach.gone_or_orphan hs with hgone | ⟨o, ho, _⟩
    · exact hnot hgone
    · have hnil : o ∈ orphans := ho
      rw [hnone] at hnil
      exact absurd hnil not_mem_nil
  | case2 nodes gone left orphans hsome ih =>
    rw [cascade, if_neg hsome, ih, mem_removeAll]
    have hsub : left ⊆ nodes := fun y hy => (mem_removeAll.1 hy).1
    constructor
    · rintro ⟨⟨hx, hnot⟩, hfree⟩
      refine ⟨hx, fun s hs hreach => ?_⟩
      rcases hreach.gone_or_orphan hs with hgone | ⟨o, ho, horphan⟩
      · exact hnot hgone
      · exact hfree o ho horphan
    · rintro ⟨hx, hfree⟩
      refine ⟨⟨hx, fun hgone => hfree x hgone .refl⟩, fun o ho hreach => ?_⟩
      obtain ⟨hleft, p, hp, hgone⟩ := mem_children.1 ho
      exact hfree p hgone ((hreach.mono hsub).head ⟨hsub hleft, hp⟩)

end reach

end Forest
