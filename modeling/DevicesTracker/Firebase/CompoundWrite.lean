import DevicesTracker.Firebase.Node
import DevicesTracker.Firebase.ImmutableTree
/-!
# Firebase — compound writes

An `FCompoundWrite` gathers writes at several paths in one tree, so that
the client can lay them over what the server sent. A write below one that
is there goes into its node; a write above others replaces them. A path
is complete when what is written decides all of it:
`completeNodeIn_addToTree` and `completeNodeIn_removeTree` say what is
complete after one more write and after writes are taken away. Priorities
are left out.
-/

namespace DevicesTracker

open FImmutableSortedDictionary FImmutableTree

/-- `relativePathFrom:to:`, of a path within the outer one. -/
def FPath.relativePathFrom : List String → List String → List String
  | [], inner => inner
  | _ :: outer, inner => relativePathFrom outer inner.tail

@[simp] theorem FPath.relativePathFrom_append (p q : List String) :
    FPath.relativePathFrom p (p ++ q) = q := by
  induction p with
  | nil => rfl
  | cons k p ih => exact ih

namespace FCompoundWrite

/-! ## Trees of writes -/

/-- The body of `addWrite:atPath:`, on the tree of writes. -/
def addToTree (node : FNode) (path : List String) (writeTree : FImmutableTree FNode) :
    FImmutableTree FNode :=
  if path.isEmpty then ofValue node
  else
    match writeTree.findRootMostValueAndPath path with
    | some (rootPath, rootValue) =>
      let relativePath := FPath.relativePathFrom rootPath path
      writeTree.setValue (rootValue.updateChild relativePath node) rootPath
    | none => setTree (ofValue node) path writeTree

/-- The body of `completeNodeAtPath:`. -/
def completeNodeIn (writeTree : FImmutableTree FNode) (path : List String) : Option FNode :=
  (writeTree.findRootMostValueAndPath path).map fun rootMost =>
    rootMost.2.getChild (FPath.relativePathFrom rootMost.1 path)

mutual

/-- `applySubtreeWrite:atPath:toNode:`. -/
def applySubtreeWrite : FImmutableTree FNode → List String → FNode → FNode
  | mk (some value) _, relativePath, node => node.updateChild relativePath value
  | mk none children, relativePath, node => applyChildWrites children relativePath node

def applyChildWrites : List (String × FImmutableTree FNode) → List String → FNode → FNode
  | [], _, blockNode => blockNode
  | (childKey, childTree) :: rest, relativePath, blockNode =>
    applyChildWrites rest relativePath
      (applySubtreeWrite childTree (relativePath ++ [childKey]) blockNode)

end

section Tree

variable {cs : List (String × FImmutableTree FNode)} {t : FImmutableTree FNode}

theorem findRootMost_some (v : FNode) (cs : List (String × FImmutableTree FNode))
    (p : List String) : (mk (some v) cs).findRootMostValueAndPath p = some ([], v) := by
  cases p <;> rfl

theorem findRootMost_none_cons (k : String) (p : List String) :
    (mk none cs).findRootMostValueAndPath (k :: p) =
      (get cs k).bind fun child =>
        (child.findRootMostValueAndPath p).map fun e => (k :: e.1, e.2) := by
  simp only [findRootMostValueAndPath, findRootMostMatchingPath, Option.filter_none]
  cases get cs k <;> rfl

@[simp] theorem findRootMost_empty (p : List String) :
    (empty : FImmutableTree FNode).findRootMostValueAndPath p = none := by
  cases p <;> rfl

@[simp] theorem completeNodeIn_some (v : FNode) (cs : List (String × FImmutableTree FNode))
    (p : List String) : completeNodeIn (mk (some v) cs) p = some (v.getChild p) := by
  rw [completeNodeIn, findRootMost_some]
  rfl

@[simp] theorem completeNodeIn_none_nil : completeNodeIn (mk none cs) [] = none := rfl

@[simp] theorem completeNodeIn_none_cons (k : String) (p : List String) :
    completeNodeIn (mk none cs) (k :: p) = (get cs k).bind fun child => completeNodeIn child p := by
  rw [completeNodeIn, findRootMost_none_cons]
  cases get cs k with
  | none => rfl
  | some child =>
    rw [Option.bind_some, Option.bind_some, Option.map_map]
    rfl

/-- A write below a written node goes into the node. -/
theorem addToTree_some (n v : FNode) (p : List String) :
    addToTree n p (mk (some v) []) = ofValue (v.updateChild p n) := by
  cases p with
  | nil => rfl
  | cons k p =>
    simp only [addToTree, findRootMost_some]
    rfl

/-- In a well-formed tree the empty path is no exception. -/
theorem addToTree_eq (h : WellFormed t) (n : FNode) (p : List String) :
    addToTree n p t =
      match t.findRootMostValueAndPath p with
      | some (rootPath, rootValue) =>
        t.setValue (rootValue.updateChild (FPath.relativePathFrom rootPath p) n) rootPath
      | none => setTree (ofValue n) p t := by
  cases p with
  | cons k p => rfl
  | nil => cases h <;> rfl

/-- Under a node that is not written the child under the first key gets
the rest of the write. -/
theorem addToTree_none_cons (h : WellFormed (mk none cs)) (n : FNode) (k : String)
    (p : List String) :
    addToTree n (k :: p) (mk none cs) =
      mk none (insertKey cs k (addToTree n p ((get cs k).getD empty))) := by
  rw [addToTree_eq h, addToTree_eq (h.getD k), findRootMost_none_cons]
  cases hget : get cs k with
  | none =>
    rw [Option.bind_none, Option.getD_none, findRootMost_empty, setTree_cons, hget]
    exact if_neg (by rw [Option.getD_none, isEmpty_setTree rfl]; exact Bool.false_ne_true)
  | some child =>
    rw [Option.bind_some, Option.getD_some]
    cases hfind : child.findRootMostValueAndPath p with
    | none =>
      rw [Option.map_none, setTree_cons, hget]
      exact if_neg (by rw [Option.getD_some, isEmpty_setTree rfl]; exact Bool.false_ne_true)
    | some e =>
      rw [Option.map_some]
      simp only [setValue, hget]
      rfl

theorem isEmpty_addToTree (h : WellFormed t) (n : FNode) (p : List String) :
    (addToTree n p t).isEmpty = false := by
  cases p with
  | nil => rfl
  | cons k p =>
    cases h with
    | written v =>
      rw [addToTree_some]
      rfl
    | node hnodup hne hcs =>
      rw [addToTree_none_cons (.node hnodup hne hcs)]
      rfl

theorem wellFormed_addToTree (h : WellFormed t) (n : FNode) (p : List String) :
    WellFormed (addToTree n p t) := by
  induction p generalizing t with
  | nil => exact .written n
  | cons k p ih =>
    cases h with
    | written v =>
      rw [addToTree_some]
      exact .written _
    | node hnodup hne hcs =>
      have hnode := WellFormed.node hnodup hne hcs
      rw [addToTree_none_cons hnode]
      exact hnode.insertKey k (ih (hnode.getD k)) (isEmpty_addToTree (hnode.getD k) n p)

/-- **What is complete after one more write**: all below its path, and
above and beside it what was complete before, with the write in it. -/
theorem completeNodeIn_addToTree (h : WellFormed t) (n : FNode) (p q : List String) :
    completeNodeIn (addToTree n p t) q =
      if p <+: q then some (n.getChild (q.drop p.length))
      else (completeNodeIn t q).map fun m =>
        if q <+: p then m.updateChild (p.drop q.length) n else m := by
  induction p generalizing t q with
  | nil =>
    have hval : addToTree n [] t = ofValue n := rfl
    rw [hval, ofValue, completeNodeIn_some, if_pos List.nil_prefix]
    rfl
  | cons k p ih =>
    cases h with
    | written v =>
      rw [addToTree_some, ofValue, completeNodeIn_some, completeNodeIn_some, Option.map_some]
      by_cases hpq : k :: p <+: q
      · obtain ⟨r, rfl⟩ := hpq
        rw [if_pos (List.prefix_append _ r), List.drop_left, FNode.getChild_append,
          FNode.getChild_updateChild_self]
      · rw [if_neg hpq]
        by_cases hqp : q <+: k :: p
        · obtain ⟨r, hr⟩ := hqp
          rw [if_pos ⟨r, hr⟩, ← hr, FNode.getChild_updateChild_append, List.drop_left]
        · rw [if_neg hqp, FNode.getChild_updateChild_of_apart v ⟨hpq, hqp⟩]
    | @node cs hnodup hne hcs =>
      have hnode := WellFormed.node hnodup hne hcs
      rw [addToTree_none_cons hnode]
      cases q with
      | nil => rw [completeNodeIn_none_nil, if_neg (by simp)]; rfl
      | cons k' q =>
        rw [completeNodeIn_none_cons, completeNodeIn_none_cons, get_insertKey]
        by_cases hk : k' = k
        · subst hk
          have hchild : ((get cs k').bind fun child => completeNodeIn child q) =
              completeNodeIn ((get cs k').getD empty) q := by
            cases get cs k' with
            | some child => rfl
            | none =>
              rw [Option.bind_none, Option.getD_none, completeNodeIn, findRootMost_empty]
              rfl
          rw [if_pos rfl, Option.bind_some, ih (hnode.getD k'), hchild]
          simp only [List.cons_prefix_cons, true_and, List.length_cons, List.drop_succ_cons]
        · rw [if_neg hk, if_neg fun hp => hk (List.cons_prefix_cons.1 hp).1.symm]
          have hq : ¬ k' :: q <+: k :: p := fun hp => hk (List.cons_prefix_cons.1 hp).1
          simp only [if_neg hq, Option.map_id_fun', id]

/-! ## What is complete -/

theorem completeNodeIn_getD_empty (k : String) (q : List String) :
    completeNodeIn ((get cs k).getD empty) q = completeNodeIn (mk none cs) (k :: q) := by
  rw [completeNodeIn_none_cons]
  cases get cs k with
  | some child => rfl
  | none =>
    rw [Option.getD_none, completeNodeIn, findRootMost_empty]
    rfl

/-- Below what is complete all is. -/
theorem completeNodeIn_append {p : List String} {m : FNode} (h : completeNodeIn t p = some m)
    (q : List String) : completeNodeIn t (p ++ q) = some (m.getChild q) := by
  induction p generalizing t with
  | nil =>
    obtain ⟨value, cs⟩ := t
    cases value with
    | none => cases h
    | some v =>
      rw [completeNodeIn_some] at h
      rw [← Option.some.inj h, completeNodeIn_some]
      rfl
  | cons k p ih =>
    obtain ⟨value, cs⟩ := t
    cases value with
    | some v =>
      rw [completeNodeIn_some] at h
      rw [completeNodeIn_some, FNode.getChild_append, Option.some.inj h]
    | none =>
      rw [← completeNodeIn_getD_empty] at h
      rw [List.cons_append, ← completeNodeIn_getD_empty, ih h]

/-- The children after a subtree was taken away under one key. -/
theorem setTree_empty_cons (cs : List (String × FImmutableTree FNode)) (k : String)
    (p : List String) :
    ∃ cs', setTree empty (k :: p) (mk none cs) = mk none cs' ∧
      ∀ k', (get cs' k').getD (empty : FImmutableTree FNode) =
        if k' = k then setTree empty p ((get cs k).getD empty) else (get cs k').getD empty := by
  rw [setTree_cons]
  by_cases he : (setTree empty p ((get cs k).getD empty)).isEmpty = true
  · refine ⟨_, if_pos he, fun k' => ?_⟩
    rw [get_removeKey, eq_empty_of_isEmpty he]
    split <;> rfl
  · refine ⟨_, if_neg he, fun k' => ?_⟩
    rw [get_insertKey]
    split <;> rfl

/-- **Taking away the writes at a path and below**, where none above it is
complete, leaves nothing complete there and the rest as it was. -/
theorem completeNodeIn_removeTree {p : List String}
    (h : ∀ p', p' <+: p → p' ≠ p → completeNodeIn t p' = none) (q : List String) :
    completeNodeIn (setTree empty p t) q =
      if p <+: q then none else completeNodeIn t q := by
  induction p generalizing t q with
  | nil =>
    rw [if_pos List.nil_prefix, setTree, completeNodeIn, findRootMost_empty]
    rfl
  | cons k p ih =>
    obtain ⟨value, cs⟩ := t
    cases value with
    | some v =>
      have hroot := h [] List.nil_prefix (by simp)
      rw [completeNodeIn_some] at hroot
      cases hroot
    | none =>
      obtain ⟨cs', hset, hget⟩ := setTree_empty_cons cs k p
      rw [hset]
      cases q with
      | nil => rw [completeNodeIn_none_nil, completeNodeIn_none_nil, if_neg (by simp)]
      | cons k' q =>
        rw [← completeNodeIn_getD_empty, ← completeNodeIn_getD_empty, hget k']
        by_cases hk : k' = k
        · subst hk
          have hsub : ∀ p', p' <+: p → p' ≠ p →
              completeNodeIn ((get cs k').getD empty) p' = none := by
            intro p' hp' hne
            rw [completeNodeIn_getD_empty]
            exact h (k' :: p') (List.cons_prefix_cons.2 ⟨rfl, hp'⟩)
              fun heq => hne (List.cons.inj heq).2
          rw [if_pos rfl, ih hsub]
          simp only [List.cons_prefix_cons, true_and]
        · rw [if_neg hk, if_neg fun hp => hk (List.cons_prefix_cons.1 hp).1.symm]

theorem wellFormed_subtreeAtPath (h : WellFormed t) (p : List String) :
    WellFormed (subtreeAtPath p t) := by
  induction p generalizing t with
  | nil => exact h
  | cons k p ih =>
    obtain ⟨value, cs⟩ := t
    rw [subtreeAtPath]
    cases hget : get cs k with
    | none => exact wellFormed_empty
    | some child =>
      cases h with
      | written v => cases hget
      | node hnodup hne hcs => exact ih ((WellFormed.node hnodup hne hcs).get hget)

end Tree

end FCompoundWrite

/-! ## Compound writes -/

/-- **A compound write**: a well-formed tree of nodes to be written. -/
structure FCompoundWrite where
  writeTree : FImmutableTree FNode
  wellFormed : writeTree.WellFormed

namespace FCompoundWrite

def emptyWrite : FCompoundWrite := ⟨empty, wellFormed_empty⟩

/-- `addWrite:atPath:`. -/
def addWrite (cw : FCompoundWrite) (node : FNode) (path : List String) : FCompoundWrite :=
  ⟨addToTree node path cw.writeTree, wellFormed_addToTree cw.wellFormed node path⟩

/-- The calls `enumerateWrites:` makes, in order. -/
def enumerateWrites (cw : FCompoundWrite) : List (List String × FNode) := cw.writeTree.forEach

/-- `addCompoundWrite:atPath:`. -/
def addCompoundWrite (cw compoundWrite : FCompoundWrite) (path : List String) : FCompoundWrite :=
  compoundWrite.enumerateWrites.foldl (fun newWrite e => newWrite.addWrite e.2 (path ++ e.1)) cw

/-- `removeWriteAtPath:`. -/
def removeWriteAtPath (cw : FCompoundWrite) (path : List String) : FCompoundWrite :=
  if path.isEmpty then emptyWrite
  else ⟨setTree empty path cw.writeTree, cw.wellFormed.setTree_empty path⟩

/-- `completeNodeAtPath:`. -/
def completeNodeAtPath (cw : FCompoundWrite) (path : List String) : Option FNode :=
  completeNodeIn cw.writeTree path

/-- `hasCompleteWriteAtPath:`. -/
def hasCompleteWriteAtPath (cw : FCompoundWrite) (path : List String) : Bool :=
  (cw.completeNodeAtPath path).isSome

/-- `childCompoundWriteAtPath:`. -/
def childCompoundWriteAtPath (cw : FCompoundWrite) (path : List String) : FCompoundWrite :=
  if path.isEmpty then cw
  else
    match cw.completeNodeAtPath path with
    | some shadowingNode => ⟨ofValue shadowingNode, .written shadowingNode⟩
    | none => ⟨subtreeAtPath path cw.writeTree, wellFormed_subtreeAtPath cw.wellFormed path⟩

def isEmpty (cw : FCompoundWrite) : Bool := cw.writeTree.isEmpty

/-- `applyToNode:`. -/
def applyToNode (cw : FCompoundWrite) (node : FNode) : FNode :=
  applySubtreeWrite cw.writeTree [] node

end FCompoundWrite

end DevicesTracker
