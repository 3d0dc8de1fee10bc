import Mathlib.Data.Rat.Defs
import DevicesTracker.Common.Leaves
/-!
# Firebase — the data tree

The client library keeps the database as a tree of `FNode`: a leaf node
holds a string or a number, a children node a dictionary of children, and
the empty node is the children node with an empty dictionary. No function
of the library stores an empty child, so a node here is a pruned tree.
The order of the children, priorities and server values play no part in
the app and are left out. `nodeFrom` makes a node of a value handed to
the library: a null is the empty node and disappears from a dictionary.
-/

namespace DevicesTracker

/-- A value handed to Firebase: `Any` on the Swift side. A latitude or a
longitude is a finite double, which is a rational. -/
inductive Value where
  | null
  | string (s : String)
  | number (q : ℚ)
  | dictionary (entries : List (String × Value))

/-- The value of a leaf node. -/
inductive LeafValue where
  | string (s : String)
  | number (q : ℚ)
  deriving DecidableEq

/-- **A node of the database**: a tree in which no empty node is stored. -/
@[ext]
structure FNode where
  tree : KeyedTree String LeafValue
  pruned : tree.Pruned

namespace FNode

/-- `[FEmptyNode emptyNode]`. -/
def emptyNode : FNode := ⟨KeyedTree.empty, KeyedTree.pruned_empty⟩

def isEmpty (n : FNode) : Bool := n.tree.isEmpty

def isLeafNode (n : FNode) : Bool := n.tree.isLeaf

/-- `getImmediateChild:`. -/
def getImmediateChild (n : FNode) (childName : String) : FNode :=
  ⟨n.tree.child childName, n.pruned.child childName⟩

/-- `getChild:`. -/
def getChild (n : FNode) (path : List String) : FNode := ⟨n.tree.get path, n.pruned.get path⟩

/-- `updateChild:withNewChild:`. An empty new child removes the old one. -/
def updateChild (n : FNode) (path : List String) (newChildNode : FNode) : FNode :=
  ⟨KeyedTree.set path newChildNode.tree n.tree, n.pruned.set newChildNode.pruned path⟩

@[simp] theorem isEmpty_emptyNode : emptyNode.isEmpty = true := rfl

theorem isEmpty_iff {n : FNode} : n.isEmpty = true ↔ n = emptyNode := by
  constructor
  · exact fun h => FNode.ext (KeyedTree.eq_empty_of_isEmpty h)
  · rintro rfl
    rfl

@[simp] theorem getImmediateChild_emptyNode (k : String) :
    emptyNode.getImmediateChild k = emptyNode := rfl

@[simp] theorem getChild_emptyNode (p : List String) : emptyNode.getChild p = emptyNode :=
  FNode.ext (KeyedTree.get_empty p)

@[simp] theorem getChild_nil (n : FNode) : n.getChild [] = n := rfl

theorem getChild_singleton (n : FNode) (k : String) : n.getChild [k] = n.getImmediateChild k := rfl

theorem getChild_append (n : FNode) (p q : List String) :
    n.getChild (p ++ q) = (n.getChild p).getChild q :=
  FNode.ext (KeyedTree.get_append p q n.tree)

@[simp] theorem getChild_updateChild_self (n : FNode) (p : List String) (new : FNode) :
    (n.updateChild p new).getChild p = new :=
  FNode.ext (KeyedTree.get_set_self p new.tree n.tree)

/-- Reading above a write sees the write below what was there. -/
theorem getChild_updateChild_append (n : FNode) (p q : List String) (new : FNode) :
    (n.updateChild (p ++ q) new).getChild p = (n.getChild p).updateChild q new :=
  FNode.ext (KeyedTree.get_set_append p q new.tree n.tree)

/-- Reading apart from a write does not see it. -/
theorem getChild_updateChild_of_apart (n : FNode) {p q : List String} (h : KeyedTree.Apart p q)
    (new : FNode) : (n.updateChild p new).getChild q = n.getChild q :=
  FNode.ext (KeyedTree.get_set_of_apart h new.tree n.tree)

/-- A write under one key gives that child the rest of the write. -/
theorem getImmediateChild_updateChild_self (n : FNode) (k : String) (p : List String)
    (new : FNode) :
    (n.updateChild (k :: p) new).getImmediateChild k = (n.getImmediateChild k).updateChild p new :=
  getChild_updateChild_append n [k] p new

/-- And leaves the children under the other keys. -/
theorem getImmediateChild_updateChild_of_ne (n : FNode) {k k' : String} (h : k' ≠ k)
    (p : List String) (new : FNode) :
    (n.updateChild (k :: p) new).getImmediateChild k' = n.getImmediateChild k' :=
  getChild_updateChild_of_apart n (KeyedTree.apart_cons_of_ne h.symm p []) new

/-- A node with something below it is not empty. -/
theorem isEmpty_eq_false_of_getChild {n : FNode} {p : List String}
    (h : (n.getChild p).isEmpty = false) : n.isEmpty = false := by
  by_contra hn
  have hempty : n = emptyNode := isEmpty_iff.1 (by simpa using hn)
  rw [hempty, getChild_emptyNode] at h
  cases h

theorem isLeafNode_updateChild_cons {n : FNode} (h : n.isLeafNode = false) (k : String)
    (p : List String) (new : FNode) : (n.updateChild (k :: p) new).isLeafNode = false :=
  KeyedTree.isLeaf_set_cons k p new.tree h

/-- **A children node is empty exactly when each of its children is.** -/
theorem isEmpty_iff_children {n : FNode} (h : n.isLeafNode = false) :
    n.isEmpty = true ↔ ∀ k, (n.getImmediateChild k).isEmpty = true :=
  n.pruned.isEmpty_iff h

/-! ## Leaves -/

/-- The value of the leaf node at a path, if there is one. -/
def leafAt (n : FNode) (path : List String) : Option LeafValue := n.tree.leafAt path

/-- `isEqual:`. The children are compared by key, so two nodes are equal
when they have the same leaves. -/
def IsEqual (n n' : FNode) : Prop := n.leafAt = n'.leafAt

/-- What `updateChild:withNewChild:` does to the leaves. -/
def setPatch (path : List String) (newChildNode : FNode) :
    Patch (List String) (Option LeafValue) :=
  KeyedTree.setPatch path newChildNode.tree

@[simp] theorem leafAt_emptyNode (p : List String) : emptyNode.leafAt p = none :=
  KeyedTree.leafAt_empty p

theorem leafAt_getChild (n : FNode) (p q : List String) :
    (n.getChild p).leafAt q = n.leafAt (p ++ q) := KeyedTree.leafAt_get n.tree p q

theorem leafAt_updateChild (n : FNode) (p : List String) (new : FNode) :
    (n.updateChild p new).leafAt = (setPatch p new).apply n.leafAt :=
  KeyedTree.leafAt_set p new.tree n.tree

theorem setPatch_below (p q : List String) (new : FNode) :
    setPatch p new (p ++ q) = some (new.leafAt q) := KeyedTree.setPatch_below p q new.tree

theorem setPatch_of_apart {p q : List String} (h : KeyedTree.Apart p q) (new : FNode) :
    setPatch p new q = none := KeyedTree.setPatch_of_apart h new.tree

theorem setPatch_above {p q : List String} (hpq : ¬ p <+: q) (hqp : q <+: p) (new : FNode) :
    setPatch p new q = if new.isEmpty = false then some none else none :=
  KeyedTree.setPatch_above hpq hqp new.tree

@[simp] theorem setPatch_nil (new : FNode) (q : List String) :
    setPatch [] new q = some (new.leafAt q) := setPatch_below [] q new

@[simp] theorem setPatch_cons_nil (k : String) (p : List String) (new : FNode) :
    setPatch (k :: p) new [] = if new.isEmpty = false then some none else none :=
  setPatch_above (fun h => by cases List.prefix_nil.1 h) List.nil_prefix new

@[simp] theorem setPatch_cons_cons (k k' : String) (p q : List String) (new : FNode) :
    setPatch (k :: p) new (k' :: q) = if k' = k then setPatch p new q else none := by
  by_cases h : k' = k
  · subst h
    rw [if_pos rfl]
    simp only [setPatch, KeyedTree.setPatch, List.cons_prefix_cons, true_and, List.length_cons,
      List.drop_succ_cons]
  · rw [if_neg h, setPatch_of_apart (KeyedTree.apart_cons_of_ne (Ne.symm h) p q)]

/-! ## Nodes from values -/

mutual

/-- The tree of a value. -/
def treeFrom : Value → KeyedTree String LeafValue
  | .null => KeyedTree.empty
  | .string s => .leaf (.string s)
  | .number q => .leaf (.number q)
  | .dictionary entries => .node (childrenFrom entries)

/-- The children of a dictionary: the entries whose node is not empty. -/
def childrenFrom : List (String × Value) → List (String × KeyedTree String LeafValue)
  | [] => []
  | (key, value) :: entries =>
    let childNode := treeFrom value
    if childNode.isEmpty then childrenFrom entries else (key, childNode) :: childrenFrom entries

end

mutual

theorem pruned_treeFrom : ∀ v : Value, (treeFrom v).Pruned
  | .null => KeyedTree.pruned_empty
  | .string _ => .leaf _
  | .number _ => .leaf _
  | .dictionary entries =>
    .node (fun c hc => (pruned_childrenFrom entries c hc).1)
      fun c hc => (pruned_childrenFrom entries c hc).2

theorem pruned_childrenFrom : ∀ (entries : List (String × Value)),
    ∀ c ∈ childrenFrom entries, c.2.isEmpty = false ∧ c.2.Pruned
  | [], c, hc => absurd hc List.not_mem_nil
  | (key, value) :: entries, c, hc => by
    rw [childrenFrom] at hc
    by_cases he : (treeFrom value).isEmpty = true
    · rw [if_pos he] at hc
      exact pruned_childrenFrom entries c hc
    · rw [if_neg he] at hc
      rcases List.mem_cons.1 hc with rfl | hc
      · exact ⟨Bool.eq_false_iff.2 he, pruned_treeFrom value⟩
      · exact pruned_childrenFrom entries c hc

end

/-- `[FSnapshotUtilities nodeFrom:]`. -/
def nodeFrom (value : Value) : FNode := ⟨treeFrom value, pruned_treeFrom value⟩

@[simp] theorem nodeFrom_null : nodeFrom .null = emptyNode := rfl

@[simp] theorem isEmpty_nodeFrom_string (s : String) : (nodeFrom (.string s)).isEmpty = false := rfl

@[simp] theorem isEmpty_nodeFrom_number (q : ℚ) : (nodeFrom (.number q)).isEmpty = false := rfl

theorem childrenFrom_cons_of_isEmpty {key : String} {value : Value}
    (entries : List (String × Value))
    (h : (nodeFrom value).isEmpty = true) :
    childrenFrom ((key, value) :: entries) = childrenFrom entries := by
  rw [childrenFrom]
  exact if_pos h

theorem childrenFrom_cons_of_not_isEmpty {key : String} {value : Value}
    (entries : List (String × Value)) (h : (nodeFrom value).isEmpty = false) :
    childrenFrom ((key, value) :: entries) = (key, treeFrom value) :: childrenFrom entries := by
  rw [childrenFrom]
  exact if_neg (by rw [show (treeFrom value).isEmpty = false from h]; exact Bool.false_ne_true)

/-- A child of a dictionary's node is the node of its first entry under
the key that is not empty. -/
theorem getImmediateChild_nodeFrom_cons (key k : String) (value : Value)
    (entries : List (String × Value)) :
    (nodeFrom (.dictionary ((key, value) :: entries))).getImmediateChild k =
      if k = key ∧ (nodeFrom value).isEmpty = false then nodeFrom value
      else (nodeFrom (.dictionary entries)).getImmediateChild k := by
  apply FNode.ext
  change KeyedTree.child k (.node (childrenFrom ((key, value) :: entries))) = _
  cases he : (nodeFrom value).isEmpty with
  | true =>
    rw [childrenFrom_cons_of_isEmpty entries he, if_neg (by simp)]
    rfl
  | false =>
    rw [childrenFrom_cons_of_not_isEmpty entries he, KeyedTree.child_node_cons]
    by_cases hk : k = key
    · rw [if_pos hk, if_pos ⟨hk, rfl⟩]
      rfl
    · rw [if_neg hk, if_neg fun h => hk h.1]
      rfl

@[simp] theorem getImmediateChild_nodeFrom_nil (k : String) :
    (nodeFrom (.dictionary [])).getImmediateChild k = emptyNode := rfl

/-- A dictionary that starts with an entry that is not empty makes a node
that is not. -/
theorem isEmpty_nodeFrom_cons {key : String} {value : Value} (entries : List (String × Value))
    (h : (nodeFrom value).isEmpty = false) :
    (nodeFrom (.dictionary ((key, value) :: entries))).isEmpty = false := by
  change (KeyedTree.node (childrenFrom ((key, value) :: entries))).isEmpty = false
  rw [childrenFrom_cons_of_not_isEmpty entries h]
  rfl

/-! ## The leaves of a value -/

theorem leafAt_cons (n : FNode) (k : String) (p : List String) :
    n.leafAt (k :: p) = (n.getImmediateChild k).leafAt p := (leafAt_getChild n [k] p).symm

theorem leafAt_nodeFrom_string (s : String) (p : List String) :
    (nodeFrom (.string s)).leafAt p = if p = [] then some (.string s) else none := by
  cases p with
  | nil => rfl
  | cons k p =>
    rw [leafAt_cons, if_neg (List.cons_ne_nil k p)]
    exact leafAt_emptyNode p

theorem leafAt_nodeFrom_number (q : ℚ) (p : List String) :
    (nodeFrom (.number q)).leafAt p = if p = [] then some (.number q) else none := by
  cases p with
  | nil => rfl
  | cons k p =>
    rw [leafAt_cons, if_neg (List.cons_ne_nil k p)]
    exact leafAt_emptyNode p

/-- A dictionary is no leaf. -/
@[simp] theorem leafAt_nodeFrom_dictionary_nil (entries : List (String × Value)) :
    (nodeFrom (.dictionary entries)).leafAt [] = none := rfl

/-- **A dictionary of texts** has them at their keys, the first where a key
comes twice, and nothing else. -/
theorem leafAt_nodeFrom_texts (texts : List (String × String)) (k : String) (p : List String) :
    (nodeFrom (.dictionary (texts.map fun e => (e.1, .string e.2)))).leafAt (k :: p) =
      if p = [] then (texts.lookup k).map .string else none := by
  rw [leafAt_cons]
  induction texts with
  | nil =>
    rw [List.map_nil, getImmediateChild_nodeFrom_nil, leafAt_emptyNode]
    split <;> rfl
  | cons e texts ih =>
    rw [List.map_cons, getImmediateChild_nodeFrom_cons, List.lookup_cons]
    by_cases hk : k = e.1
    · rw [if_pos ⟨hk, rfl⟩, leafAt_nodeFrom_string, beq_iff_eq.2 hk]
      rfl
    · rw [if_neg fun h => hk h.1, ih, beq_eq_false_iff_ne.2 hk]

end FNode

end DevicesTracker
