import Mathlib.Data.List.Infix
/-!
# Trees addressed by paths of keys

A tree is a leaf with a value or a node with a list of children under
keys. Absence is the node with no children: reading below a leaf or under
an unknown key gives it, and writing it removes the key. `get` and `set`
follow a path; the laws at the end say what a read sees of a write at the
same path, above it, below it and apart from it. A tree is `Pruned` when
no absent child is stored, which is what makes a tree with no child under
any key the absent one.
-/

universe u v

/-- A tree with values at its leaves and keys on its edges. -/
inductive KeyedTree (K : Type u) (V : Type v) where
  | leaf (v : V)
  | node (children : List (K × KeyedTree K V))

namespace KeyedTree

variable {K : Type u} {V : Type v}

/-- The absent tree. -/
def empty : KeyedTree K V := node []

def isEmpty : KeyedTree K V → Bool
  | leaf _ => false
  | node cs => cs.isEmpty

def isLeaf : KeyedTree K V → Bool
  | leaf _ => true
  | node _ => false

@[simp] theorem isEmpty_empty : (empty : KeyedTree K V).isEmpty = true := rfl

@[simp] theorem isLeaf_empty : (empty : KeyedTree K V).isLeaf = false := rfl

theorem eq_empty_of_isEmpty {t : KeyedTree K V} (h : t.isEmpty = true) : t = empty := by
  cases t with
  | leaf v => cases h
  | node cs => rw [List.isEmpty_iff.1 h, empty]

/-! ## Paths apart -/

/-- Two paths are apart when neither leads through the other. -/
def Apart (p q : List K) : Prop := ¬ p <+: q ∧ ¬ q <+: p

theorem Apart.symm {p q : List K} (h : Apart p q) : Apart q p := ⟨h.2, h.1⟩

theorem apart_cons_of_ne {k k' : K} (h : k ≠ k') (p q : List K) : Apart (k :: p) (k' :: q) :=
  ⟨fun hp => h (List.cons_prefix_cons.1 hp).1, fun hp => h (List.cons_prefix_cons.1 hp).1.symm⟩

theorem apart_append_left {p q : List K} (r : List K) : Apart (r ++ p) (r ++ q) ↔ Apart p q := by
  simp only [Apart, List.prefix_append_right_inj]

/-- Paths below two paths that are apart are apart. -/
theorem Apart.append {p q : List K} (h : Apart p q) (p' q' : List K) :
    Apart (p ++ p') (q ++ q') := by
  constructor
  · intro hp
    rcases List.prefix_or_prefix_of_prefix ((List.prefix_append p p').trans hp)
      (List.prefix_append q q') with h' | h'
    exacts [h.1 h', h.2 h']
  · intro hp
    rcases List.prefix_or_prefix_of_prefix ((List.prefix_append q q').trans hp)
      (List.prefix_append p p') with h' | h'
    exacts [h.2 h', h.1 h']

/-! ## Reading and writing -/

section Edit

variable [DecidableEq K]

/-- The child under a key, absent where there is none. -/
def child (k : K) : KeyedTree K V → KeyedTree K V
  | leaf _ => empty
  | node cs => (cs.lookup k).getD empty

/-- The tree with another child under one key. An absent child removes
the key; a child given to a leaf turns it into a node. -/
def setChild (k : K) (new : KeyedTree K V) : KeyedTree K V → KeyedTree K V
  | leaf v => if new.isEmpty then leaf v else node [(k, new)]
  | node cs =>
    let rest := cs.filter fun c => c.1 ≠ k
    if new.isEmpty then node rest else node ((k, new) :: rest)

/-- The subtree at a path. -/
def get : List K → KeyedTree K V → KeyedTree K V
  | [], t => t
  | k :: p, t => get p (child k t)

/-- The tree with another subtree at a path. -/
def set : List K → KeyedTree K V → KeyedTree K V → KeyedTree K V
  | [], new, _ => new
  | k :: p, new, t => setChild k (set p new (child k t)) t

/-! ## One key -/

@[simp] theorem child_empty (k : K) : child k (empty : KeyedTree K V) = empty := rfl

@[simp] theorem child_leaf (k : K) (v : V) : child k (leaf v : KeyedTree K V) = empty := rfl

theorem child_node_nil (k : K) : child k (node [] : KeyedTree K V) = empty := rfl

theorem child_node_cons (k k' : K) (t : KeyedTree K V) (cs : List (K × KeyedTree K V)) :
    child k (node ((k', t) :: cs)) = if k = k' then t else child k (node cs) := by
  by_cases h : k = k'
  · simp [child, h]
  · simp [child, List.lookup_cons, h, beq_eq_false_iff_ne.2 h]

/-- Dropping one key's entries leaves the others' children. -/
theorem child_node_filter_ne {k k' : K} (h : k' ≠ k) (cs : List (K × KeyedTree K V)) :
    child k' (node (cs.filter fun c => c.1 ≠ k)) = child k' (node cs) := by
  induction cs with
  | nil => rfl
  | cons c cs ih =>
    obtain ⟨k₀, t⟩ := c
    by_cases hk : k₀ = k
    · have hne : k' ≠ k₀ := by rw [hk]; exact h
      rw [List.filter_cons_of_neg (by simp [hk]), ih, child_node_cons, if_neg hne]
    · rw [List.filter_cons_of_pos (by simp [hk]), child_node_cons, child_node_cons, ih]

theorem child_node_filter_self (k : K) (cs : List (K × KeyedTree K V)) :
    child k (node (cs.filter fun c => c.1 ≠ k)) = empty := by
  induction cs with
  | nil => rfl
  | cons c cs ih =>
    obtain ⟨k₀, t⟩ := c
    by_cases hk : k₀ = k
    · rw [List.filter_cons_of_neg (by simp [hk]), ih]
    · rw [List.filter_cons_of_pos (by simp [hk]), child_node_cons, if_neg (Ne.symm hk), ih]

@[simp] theorem child_setChild_self (k : K) (new t : KeyedTree K V) :
    child k (setChild k new t) = new := by
  cases t with
  | leaf v =>
    by_cases h : new.isEmpty = true
    · rw [setChild, if_pos h, child_leaf, eq_empty_of_isEmpty h]
    · rw [setChild, if_neg h, child_node_cons, if_pos rfl]
  | node cs =>
    by_cases h : new.isEmpty = true
    · rw [eq_empty_of_isEmpty h]
      exact child_node_filter_self k cs
    · simp only [setChild, if_neg h, child_node_cons, if_true]

theorem child_setChild_of_ne {k k' : K} (h : k' ≠ k) (new t : KeyedTree K V) :
    child k' (setChild k new t) = child k' t := by
  cases t with
  | leaf v =>
    by_cases hn : new.isEmpty = true
    · rw [setChild, if_pos hn]
    · rw [setChild, if_neg hn, child_node_cons, if_neg h, child_node_nil, child_leaf]
  | node cs =>
    by_cases hn : new.isEmpty = true
    · simp only [setChild, if_pos hn, child_node_filter_ne h]
    · simp only [setChild, if_neg hn, child_node_cons, if_neg h, child_node_filter_ne h]

/-! ## Paths -/

@[simp] theorem get_nil (t : KeyedTree K V) : get [] t = t := rfl

@[simp] theorem get_cons (k : K) (p : List K) (t : KeyedTree K V) :
    get (k :: p) t = get p (child k t) := rfl

theorem get_append (p q : List K) (t : KeyedTree K V) : get (p ++ q) t = get q (get p t) := by
  induction p generalizing t with
  | nil => rfl
  | cons k p ih => exact ih (child k t)

@[simp] theorem get_empty (p : List K) : get p (empty : KeyedTree K V) = empty := by
  induction p with
  | nil => rfl
  | cons k p ih => rw [get_cons, child_empty, ih]

/-- A read at the path of a write sees what was written. -/
@[simp] theorem get_set_self (p : List K) (new t : KeyedTree K V) : get p (set p new t) = new := by
  induction p generalizing t with
  | nil => rfl
  | cons k p ih => rw [set, get_cons, child_setChild_self, ih]

/-- A read above a write sees the write below what was there. -/
theorem get_set_append (p q : List K) (new t : KeyedTree K V) :
    get p (set (p ++ q) new t) = set q new (get p t) := by
  induction p generalizing t with
  | nil => rfl
  | cons k p ih => rw [List.cons_append, set, get_cons, child_setChild_self, ih, get_cons]

/-- **A read apart from a write does not see it.** -/
theorem get_set_of_apart {p q : List K} (h : Apart p q) (new t : KeyedTree K V) :
    get q (set p new t) = get q t := by
  induction p generalizing q t with
  | nil => exact absurd List.nil_prefix h.1
  | cons k p ih =>
    cases q with
    | nil => exact absurd List.nil_prefix h.2
    | cons k' q =>
      rw [set, get_cons, get_cons]
      by_cases hk : k' = k
      · -- one first key: what follows it is apart
        rw [hk, child_setChild_self]
        refine ih ?_ _
        rw [hk] at h
        exact ⟨fun hp => h.1 (List.cons_prefix_cons.2 ⟨rfl, hp⟩),
          fun hp => h.2 (List.cons_prefix_cons.2 ⟨rfl, hp⟩)⟩
      · rw [child_setChild_of_ne hk]

/-- A write below a node leaves a node. -/
theorem isLeaf_set_cons (k : K) (p : List K) (new : KeyedTree K V) {t : KeyedTree K V}
    (h : t.isLeaf = false) : (set (k :: p) new t).isLeaf = false := by
  cases t with
  | leaf v => cases h
  | node cs =>
    simp only [set, setChild]
    split <;> rfl

end Edit

/-! ## Pruned trees -/

/-- **No absent child is stored**, at any depth. -/
inductive Pruned : KeyedTree K V → Prop
  | leaf (v : V) : Pruned (leaf v)
  | node {cs : List (K × KeyedTree K V)} (hne : ∀ c ∈ cs, c.2.isEmpty = false)
      (hcs : ∀ c ∈ cs, Pruned c.2) : Pruned (node cs)

theorem pruned_empty : Pruned (empty : KeyedTree K V) :=
  .node (fun _ h => absurd h List.not_mem_nil) (fun _ h => absurd h List.not_mem_nil)

section Edit

variable [DecidableEq K]

theorem Pruned.child {t : KeyedTree K V} (h : Pruned t) (k : K) : Pruned (child k t) := by
  cases h with
  | leaf v => exact pruned_empty
  | @node cs hne hcs =>
    induction cs with
    | nil => exact pruned_empty
    | cons c cs ih =>
      obtain ⟨k', t⟩ := c
      rw [child_node_cons]
      split
      · exact hcs (k', t) List.mem_cons_self
      · exact ih (fun c hc => hne c (List.mem_cons_of_mem _ hc))
          fun c hc => hcs c (List.mem_cons_of_mem _ hc)

theorem Pruned.setChild {t new : KeyedTree K V} (h : Pruned t) (hnew : Pruned new) (k : K) :
    Pruned (setChild k new t) := by
  cases h with
  | leaf v =>
    by_cases hn : new.isEmpty = true
    · rw [KeyedTree.setChild, if_pos hn]; exact .leaf v
    · rw [KeyedTree.setChild, if_neg hn]
      refine .node (fun c hc => ?_) fun c hc => ?_ <;> rw [List.mem_singleton.1 hc]
      exacts [Bool.eq_false_iff.2 hn, hnew]
  | @node cs hne hcs =>
    by_cases hn : new.isEmpty = true
    · simp only [KeyedTree.setChild, if_pos hn]
      exact .node (fun c hc => hne c (List.mem_filter.1 hc).1)
        fun c hc => hcs c (List.mem_filter.1 hc).1
    · simp only [KeyedTree.setChild, if_neg hn]
      refine .node (fun c hc => ?_) fun c hc => ?_ <;> rcases List.mem_cons.1 hc with rfl | hc
      exacts [Bool.eq_false_iff.2 hn, hne c (List.mem_filter.1 hc).1, hnew,
        hcs c (List.mem_filter.1 hc).1]

theorem Pruned.get {t : KeyedTree K V} (h : Pruned t) (p : List K) : Pruned (get p t) := by
  induction p generalizing t with
  | nil => exact h
  | cons k p ih => exact ih (h.child k)

theorem Pruned.set {t new : KeyedTree K V} (h : Pruned t) (hnew : Pruned new) (p : List K) :
    Pruned (set p new t) := by
  induction p generalizing t with
  | nil => exact hnew
  | cons k p ih => exact h.setChild (ih (h.child k)) k

/-- **A pruned node is absent exactly when each of its children is.** -/
theorem Pruned.isEmpty_iff {t : KeyedTree K V} (h : Pruned t) (hl : t.isLeaf = false) :
    t.isEmpty = true ↔ ∀ k, (KeyedTree.child k t).isEmpty = true := by
  constructor
  · intro he k
    rw [eq_empty_of_isEmpty he, child_empty, isEmpty_empty]
  · intro hall
    cases h with
    | leaf v => cases hl
    | @node cs hne hcs =>
      cases cs with
      | nil => rfl
      | cons c cs =>
        -- the first child is stored, so it is not absent
        obtain ⟨k, t⟩ := c
        have hk := hall k
        rw [child_node_cons, if_pos rfl, hne (k, t) List.mem_cons_self] at hk
        cases hk

end Edit

end KeyedTree
