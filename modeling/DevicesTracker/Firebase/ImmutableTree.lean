import Mathlib.Data.List.Infix
import DevicesTracker.Common.Dictionary
/-!
# Firebase — the immutable tree

`FImmutableTree` hangs optional values on the paths of a tree whose
children are kept in an `FImmutableSortedDictionary`. A path is the list
of its pieces. The order in which the dictionary enumerates its keys is
left out: nothing below depends on it. A tree is `WellFormed` when its
keys are distinct, no empty child is kept and nothing hangs below a
value, as the trees of a compound write are.
-/

universe u

namespace DevicesTracker

/-! ## The dictionary of children -/

namespace FImmutableSortedDictionary

variable {β : Type u}

def get (dict : List (String × β)) (key : String) : Option β := dict.lookup key

def insertKey (dict : List (String × β)) (key : String) (value : β) : List (String × β) :=
  (key, value) :: dict.filter fun c => c.1 ≠ key

def removeKey (dict : List (String × β)) (key : String) : List (String × β) :=
  dict.filter fun c => c.1 ≠ key

@[simp] theorem get_nil (k : String) : get ([] : List (String × β)) k = none := rfl

theorem get_cons (k k' : String) (v : β) (cs : List (String × β)) :
    get ((k', v) :: cs) k = if k = k' then some v else get cs k :=
  Dictionary.lookup_cons k k' v cs

theorem get_of_mem {cs : List (String × β)} (hnodup : (cs.map Prod.fst).Nodup) {k : String}
    {v : β} (h : (k, v) ∈ cs) : get cs k = some v :=
  Dictionary.lookup_of_mem hnodup h

theorem get_removeKey (cs : List (String × β)) (k k' : String) :
    get (removeKey cs k) k' = if k' = k then none else get cs k' :=
  Dictionary.lookup_removed k k' cs

theorem get_insertKey (cs : List (String × β)) (k k' : String) (v : β) :
    get (insertKey cs k v) k' = if k' = k then some v else get cs k' := by
  have hrest := get_removeKey cs k k'
  rw [insertKey, get_cons]
  by_cases h : k' = k
  · rw [if_pos h, if_pos h]
  · rw [if_neg h, if_neg h]
    rw [if_neg h] at hrest
    exact hrest

theorem mem_insertKey {cs : List (String × β)} {k : String} {v : β} {c : String × β} :
    c ∈ insertKey cs k v ↔ c = (k, v) ∨ c ∈ cs ∧ c.1 ≠ k := by
  rw [insertKey, List.mem_cons, Dictionary.mem_removed]

theorem nodup_insertKey {cs : List (String × β)} (h : (cs.map Prod.fst).Nodup) (k : String)
    (v : β) : ((insertKey cs k v).map Prod.fst).Nodup := by
  rw [insertKey, List.map_cons, List.nodup_cons]
  refine ⟨fun hk => ?_, Dictionary.nodup_removed h k⟩
  obtain ⟨c, hc, rfl⟩ := List.mem_map.1 hk
  exact (Dictionary.mem_removed.1 hc).2 rfl

end FImmutableSortedDictionary

open FImmutableSortedDictionary

/-! ## The tree -/

/-- A tree with optional values of some type on its paths. -/
inductive FImmutableTree (α : Type u) where
  | mk (value : Option α) (children : List (String × FImmutableTree α))

namespace FImmutableTree

variable {α : Type u}

def value : FImmutableTree α → Option α
  | mk value _ => value

def children : FImmutableTree α → List (String × FImmutableTree α)
  | mk _ children => children

/-- `initWithValue:`. -/
def ofValue (value : α) : FImmutableTree α := mk (some value) []

def empty : FImmutableTree α := mk none []

def isEmpty (t : FImmutableTree α) : Bool := t.value.isNone && t.children.isEmpty

/-- `findRootMostMatchingPath:predicate:`: the first value on the way
along a path that the predicate takes, with its own path. -/
def findRootMostMatchingPath (predicate : α → Bool) :
    List String → FImmutableTree α → Option (List String × α)
  | [], mk value _ => (value.filter predicate).map fun v => ([], v)
  | front :: rest, mk value children =>
    match value.filter predicate with
    | some v => some ([], v)
    | none =>
      match get children front with
      | some child =>
        (findRootMostMatchingPath predicate rest child).map fun e => (front :: e.1, e.2)
      | none => none

/-- `findRootMostValueAndPath:`. -/
def findRootMostValueAndPath (path : List String) (t : FImmutableTree α) :
    Option (List String × α) :=
  findRootMostMatchingPath (fun _ => true) path t

/-- `subtreeAtPath:`. -/
def subtreeAtPath : List String → FImmutableTree α → FImmutableTree α
  | [], t => t
  | front :: rest, mk _ children =>
    match get children front with
    | some childTree => subtreeAtPath rest childTree
    | none => empty

/-- `setValue:atPath:`. -/
def setValue (newValue : α) : List String → FImmutableTree α → FImmutableTree α
  | [], mk _ children => mk (some newValue) children
  | front :: rest, mk value children =>
    let child := (get children front).getD empty
    mk value (insertKey children front (setValue newValue rest child))

/-- `setTree:atPath:`. A new child that is empty is not kept. -/
def setTree (newTree : FImmutableTree α) : List String → FImmutableTree α → FImmutableTree α
  | [], _ => newTree
  | front :: rest, mk value children =>
    let child := (get children front).getD empty
    let newChild := setTree newTree rest child
    if newChild.isEmpty then mk value (removeKey children front)
    else mk value (insertKey children front newChild)

mutual

/-- `containsValueMatching:`. -/
def containsValueMatching (predicate : α → Bool) : FImmutableTree α → Bool
  | mk value children => value.any predicate || childrenContainValueMatching predicate children

def childrenContainValueMatching (predicate : α → Bool) : List (String × FImmutableTree α) → Bool
  | [] => false
  | (_, subtree) :: rest =>
    containsValueMatching predicate subtree || childrenContainValueMatching predicate rest

end

mutual

/-- The calls `forEach:` makes, in order: those of the children before
the one for the tree's own value. -/
def forEach : FImmutableTree α → List (List String × α)
  | mk value children => childrenForEach children ++ value.toList.map fun v => ([], v)

def childrenForEach : List (String × FImmutableTree α) → List (List String × α)
  | [] => []
  | (childKey, childTree) :: rest =>
    ((forEach childTree).map fun e => (childKey :: e.1, e.2)) ++ childrenForEach rest

end

@[simp] theorem isEmpty_empty : (empty : FImmutableTree α).isEmpty = true := rfl

@[simp] theorem isEmpty_mk_some (v : α) (cs : List (String × FImmutableTree α)) :
    (mk (some v) cs).isEmpty = false := rfl

@[simp] theorem isEmpty_mk_none (cs : List (String × FImmutableTree α)) :
    (mk none cs).isEmpty = cs.isEmpty := rfl

theorem eq_empty_of_isEmpty {t : FImmutableTree α} (h : t.isEmpty = true) : t = empty := by
  obtain ⟨value, children⟩ := t
  cases value with
  | some v => cases h
  | none =>
    have hnil : children = [] := List.isEmpty_iff.1 h
    rw [hnil, empty]

theorem setTree_cons (new : FImmutableTree α) (k : String) (p : List String) (value : Option α)
    (cs : List (String × FImmutableTree α)) :
    setTree new (k :: p) (mk value cs) =
      if (setTree new p ((get cs k).getD empty)).isEmpty then mk value (removeKey cs k)
      else mk value (insertKey cs k (setTree new p ((get cs k).getD empty))) := rfl

/-- Nothing put below nothing is nothing. -/
@[simp] theorem setTree_empty_empty (p : List String) :
    setTree (empty : FImmutableTree α) p empty = empty := by
  induction p with
  | nil => rfl
  | cons k p ih =>
    have hchild : (get ([] : List (String × FImmutableTree α)) k).getD empty = empty := rfl
    rw [show (empty : FImmutableTree α) = mk none [] from rfl] at ih ⊢
    rw [setTree_cons, hchild]
    unfold empty
    rw [ih]
    rfl

/-- Something put somewhere is there. -/
theorem isEmpty_setTree {new : FImmutableTree α} (h : new.isEmpty = false) (p : List String)
    (t : FImmutableTree α) : (setTree new p t).isEmpty = false := by
  induction p generalizing t with
  | nil => exact h
  | cons k p ih =>
    obtain ⟨value, children⟩ := t
    rw [setTree_cons, if_neg (by rw [ih]; exact Bool.false_ne_true)]
    cases value <;> rfl

/-! ## Well-formed trees -/

/-- **The trees of a compound write.** Keys are distinct, no empty child
is kept, and a value has nothing below it. -/
inductive WellFormed : FImmutableTree α → Prop
  | written (v : α) : WellFormed (mk (some v) [])
  | node {cs : List (String × FImmutableTree α)} (hnodup : (cs.map Prod.fst).Nodup)
      (hne : ∀ c ∈ cs, c.2.isEmpty = false) (hcs : ∀ c ∈ cs, WellFormed c.2) :
      WellFormed (mk none cs)

theorem wellFormed_empty : WellFormed (empty : FImmutableTree α) :=
  .node List.nodup_nil (fun _ h => absurd h List.not_mem_nil) fun _ h => absurd h List.not_mem_nil

theorem WellFormed.get {cs : List (String × FImmutableTree α)} (h : WellFormed (mk none cs))
    {k : String} {child : FImmutableTree α} (hget : get cs k = some child) :
    WellFormed child := by
  cases h with
  | node hnodup hne hcs => exact hcs (k, child) (Dictionary.mem_of_lookup hget)

theorem WellFormed.getD {cs : List (String × FImmutableTree α)} (h : WellFormed (mk none cs))
    (k : String) : WellFormed ((FImmutableSortedDictionary.get cs k).getD empty) := by
  cases hget : FImmutableSortedDictionary.get cs k with
  | none => exact wellFormed_empty
  | some child => exact h.get hget

theorem WellFormed.removeKey {cs : List (String × FImmutableTree α)}
    (h : WellFormed (mk none cs)) (k : String) :
    WellFormed (mk none (FImmutableSortedDictionary.removeKey cs k)) := by
  cases h with
  | node hnodup hne hcs =>
    exact .node (Dictionary.nodup_removed hnodup k)
      (fun c hc => hne c (Dictionary.mem_removed.1 hc).1)
      fun c hc => hcs c (Dictionary.mem_removed.1 hc).1

theorem WellFormed.insertKey {cs : List (String × FImmutableTree α)}
    (h : WellFormed (mk none cs)) (k : String) {child : FImmutableTree α}
    (hchild : WellFormed child) (hne : child.isEmpty = false) :
    WellFormed (mk none (FImmutableSortedDictionary.insertKey cs k child)) := by
  cases h with
  | node hnodup hne' hcs =>
    refine .node (nodup_insertKey hnodup k child) (fun c hc => ?_) fun c hc => ?_
    · rcases mem_insertKey.1 hc with rfl | hc
      · exact hne
      · exact hne' c hc.1
    · rcases mem_insertKey.1 hc with rfl | hc
      · exact hchild
      · exact hcs c hc.1

/-- A new subtree below a node that carries no value on the way. -/
theorem WellFormed.setTree_cons {cs : List (String × FImmutableTree α)}
    (h : WellFormed (mk none cs)) (k : String) {p : List String} {new : FImmutableTree α}
    (hnew : WellFormed (setTree new p ((FImmutableSortedDictionary.get cs k).getD empty))) :
    WellFormed (setTree new (k :: p) (mk none cs)) := by
  rw [FImmutableTree.setTree_cons]
  split
  · exact h.removeKey k
  · rename_i hne
    exact h.insertKey k hnew (Bool.eq_false_iff.2 hne)

/-- Taking a subtree away leaves a well-formed tree. -/
theorem WellFormed.setTree_empty {t : FImmutableTree α} (h : WellFormed t) (p : List String) :
    WellFormed (setTree empty p t) := by
  induction p generalizing t with
  | nil => exact wellFormed_empty
  | cons k p ih =>
    cases h with
    | written v =>
      -- there is nothing below a value, so nothing is taken away
      have hchild : (FImmutableSortedDictionary.get
          ([] : List (String × FImmutableTree α)) k).getD empty = empty := rfl
      rw [FImmutableTree.setTree_cons, hchild, setTree_empty_empty, if_pos isEmpty_empty]
      exact .written v
    | node hnodup hne hcs =>
      have hnode := WellFormed.node hnodup hne hcs
      exact hnode.setTree_cons k (ih (hnode.getD k))

end FImmutableTree

end DevicesTracker
