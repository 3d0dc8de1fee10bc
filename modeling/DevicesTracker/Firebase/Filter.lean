import DevicesTracker.Common.Children
import DevicesTracker.Firebase.Node
/-!
# Firebase — changes of a view's node

`FIndexedFilter` replaces the node of a view, or a child of it, and tells
an `FChildChangeAccumulator` which children were added, removed or changed.
An operation may replace a child several times; the accumulator keeps one
change for each key, from what was there before the operation to what is
there after it (`Tracks`). A change that cannot follow the one before it is
an exception in the source, and `none` here, as is a failed assertion.
Neither comes about (`Tracks.trackChildChange`, `updateChildIn_spec`).
-/

namespace DevicesTracker

namespace FNode

instance decidableIsEqual (n n' : FNode) : Decidable (n.IsEqual n') :=
  decidable_of_iff (n.tree.isEqual n'.tree = true) (KeyedTree.isEqual_iff n.pruned n'.pruned)

/-- `hasChild:`. -/
def hasChild (n : FNode) (childName : String) : Bool := !(n.getImmediateChild childName).isEmpty

theorem hasChild_eq_true {n : FNode} {k : String} :
    n.hasChild k = true ↔ (n.getImmediateChild k).isEmpty = false := by
  unfold hasChild
  rw [Bool.not_eq_true']

theorem hasChild_eq_false {n : FNode} {k : String} :
    n.hasChild k = false ↔ (n.getImmediateChild k).isEmpty = true := by
  unfold hasChild
  rw [Bool.not_eq_false']

/-- The keys `enumerateChildrenUsingBlock:` goes through. -/
def childKeys (n : FNode) : List String := n.tree.keys

theorem mem_childKeys {n : FNode} {k : String} : k ∈ n.childKeys ↔ n.hasChild k = true :=
  (KeyedTree.mem_keys_iff n.pruned).trans hasChild_eq_true.symm

theorem nodup_childKeys (n : FNode) : n.childKeys.Nodup := KeyedTree.nodup_keys n.tree

theorem IsEqual.refl (n : FNode) : n.IsEqual n := rfl

theorem IsEqual.symm {n n' : FNode} (h : n.IsEqual n') : n'.IsEqual n := Eq.symm h

theorem IsEqual.trans {n n' n'' : FNode} (h : n.IsEqual n') (h' : n'.IsEqual n'') :
    n.IsEqual n'' := Eq.trans h h'

theorem IsEqual.getChild {n n' : FNode} (h : n.IsEqual n') (p : List String) :
    (n.getChild p).IsEqual (n'.getChild p) := KeyedTree.Alike.get h p

theorem IsEqual.isEmpty_eq {n n' : FNode} (h : n.IsEqual n') : n.isEmpty = n'.isEmpty :=
  KeyedTree.Alike.isEmpty_eq h n.pruned n'.pruned

theorem IsEqual.updateChild {n n' new new' : FNode} (h : n.IsEqual n') (hnew : new.IsEqual new')
    (p : List String) : (n.updateChild p new).IsEqual (n'.updateChild p new') := by
  have hpatch : setPatch p new = setPatch p new' := by
    ext q : 1
    by_cases hpq : p <+: q
    · obtain ⟨r, rfl⟩ := hpq
      rw [setPatch_below, setPatch_below]
      exact congrArg some (congrFun hnew r)
    · by_cases hqp : q <+: p
      · rw [setPatch_above hpq hqp, setPatch_above hpq hqp, hnew.isEmpty_eq]
      · rw [setPatch_of_apart ⟨hpq, hqp⟩, setPatch_of_apart ⟨hpq, hqp⟩]
  unfold IsEqual
  rw [leafAt_updateChild, leafAt_updateChild, hpatch, show n.leafAt = n'.leafAt from h]

/-- Above a node that is not empty there is no leaf. -/
theorem leafAt_eq_none_above {n : FNode} {p q : List String} (hqp : q <+: p) (hne : q ≠ p)
    (h : (n.getChild p).isEmpty = false) : n.leafAt q = none := by
  obtain ⟨r, rfl⟩ := hqp
  cases r with
  | nil => exact absurd (List.append_nil q).symm hne
  | cons k r =>
    rw [getChild_append] at h
    change (n.getChild q).tree.value = none
    cases htree : (n.getChild q).tree with
    | node cs => rfl
    | leaf v =>
      -- there is nothing below a leaf
      have hbelow : ((n.getChild q).getChild (k :: r)).tree = KeyedTree.empty := by
        change KeyedTree.get (k :: r) (n.getChild q).tree = _
        rw [htree, KeyedTree.get_cons, KeyedTree.child_leaf, KeyedTree.get_empty]
      unfold FNode.isEmpty at h
      rw [hbelow] at h
      cases h

/-- To write what is there changes nothing. -/
theorem isEqual_updateChild {n new : FNode} {p : List String} (h : (n.getChild p).IsEqual new) :
    (n.updateChild p new).IsEqual n := by
  unfold IsEqual
  rw [leafAt_updateChild]
  funext q
  rw [Patch.apply]
  by_cases hpq : p <+: q
  · obtain ⟨r, rfl⟩ := hpq
    rw [setPatch_below, ← leafAt_getChild]
    exact (congrFun h r).symm
  · by_cases hqp : q <+: p
    · rw [setPatch_above hpq hqp, ← h.isEmpty_eq]
      cases hempty : (n.getChild p).isEmpty with
      | true => rfl
      | false =>
        have hne : q ≠ p := fun heq => hpq (heq ▸ List.prefix_rfl)
        rw [leafAt_eq_none_above hqp hne hempty]
        rfl
    · rw [setPatch_of_apart ⟨hpq, hqp⟩]
      rfl

/-- To write below a child is to write the child changed. -/
theorem updateChild_child (n : FNode) (k : String) (p : List String) (new : FNode) :
    n.updateChild [k] ((n.getImmediateChild k).updateChild p new) = n.updateChild (k :: p) new :=
  rfl

/-- Two empty nodes are equal. -/
theorem isEqual_of_isEmpty {n n' : FNode} (h : n.isEmpty = true) (h' : n'.isEmpty = true) :
    n.IsEqual n' := by
  rw [isEmpty_iff] at h h'
  rw [h, h']
  exact IsEqual.refl _

theorem IsEqual.getImmediateChild {n n' : FNode} (h : n.IsEqual n') (k : String) :
    (n.getImmediateChild k).IsEqual (n'.getImmediateChild k) := h.getChild [k]

end FNode

/-! ## Changes -/

/-- What happened to the child under a key. -/
inductive FChildChange where
  | added (node : FNode)
  | removed (node : FNode)
  | changed (node oldNode : FNode)

/-- `FChange`: a child event, or the value event. -/
inductive FChange where
  | child (childKey : String) (change : FChildChange)
  | value (node : FNode)

structure FChildChangeAccumulator where
  changeMap : List (String × FChildChange) := []

namespace FChildChangeAccumulator

/-- The map with a change under a key. -/
def setObject (acc : FChildChangeAccumulator) (childKey : String) (change : FChildChange) :
    FChildChangeAccumulator :=
  ⟨(childKey, change) :: acc.changeMap.filter fun e => e.1 ≠ childKey⟩

/-- `trackChildChange:`. -/
def trackChildChange (acc : FChildChangeAccumulator) (childKey : String)
    (change : FChildChange) : Option FChildChangeAccumulator :=
  match acc.changeMap.lookup childKey with
  | none => some (acc.setObject childKey change)
  | some oldChange =>
    match change, oldChange with
    | .added node, .removed oldNode => some (acc.setObject childKey (.changed node oldNode))
    | .removed _, .added _ => some ⟨acc.changeMap.filter fun e => e.1 ≠ childKey⟩
    | .removed _, .changed _ oldNode => some (acc.setObject childKey (.removed oldNode))
    | .changed node _, .added _ => some (acc.setObject childKey (.added node))
    | .changed node _, .changed _ oldNode =>
      some (acc.setObject childKey (.changed node oldNode))
    | _, _ => none

def changes (acc : FChildChangeAccumulator) : List FChange :=
  acc.changeMap.map fun e => .child e.1 e.2

end FChildChangeAccumulator

/-- **A change tells what became of a child**, and no change that the child
is the same. -/
def Tells (old new : FNode) : Option FChildChange → Prop
  | none => old.IsEqual new
  | some (.added node) => old.isEmpty = true ∧ new.isEmpty = false ∧ node.IsEqual new
  | some (.removed node) => old.isEmpty = false ∧ new.isEmpty = true ∧ node.IsEqual old
  | some (.changed node oldNode) =>
    old.isEmpty = false ∧ new.isEmpty = false ∧ node.IsEqual new ∧ oldNode.IsEqual old

/-- **The accumulator tells what became of every child.** -/
structure Tracks (old : String → FNode) (acc : FChildChangeAccumulator) (new : String → FNode) :
    Prop where
  nodup : (acc.changeMap.map Prod.fst).Nodup
  tells : ∀ k, Tells (old k) (new k) (acc.changeMap.lookup k)

namespace Tells

variable {old mid new : FNode} {change : FChildChange}

/-- No change and then one. -/
theorem trans_none (h : old.IsEqual mid) (h' : Tells mid new (some change)) :
    Tells old new (some change) := by
  have hempty := h.isEmpty_eq
  cases change with
  | added node => exact ⟨hempty.trans h'.1, h'.2.1, h'.2.2⟩
  | removed node => exact ⟨hempty.trans h'.1, h'.2.1, h'.2.2.trans h.symm⟩
  | changed node oldNode =>
    exact ⟨hempty.trans h'.1, h'.2.1, h'.2.2.1, h'.2.2.2.trans h.symm⟩

/-- What is there after an operation stays the same for an equal node. -/
theorem congr {new' : FNode} {change : Option FChildChange} (h : Tells old new change)
    (hnew : new.IsEqual new') : Tells old new' change := by
  have hempty := hnew.isEmpty_eq
  match change with
  | none => exact h.trans hnew
  | some (.added node) => exact ⟨h.1, hempty ▸ h.2.1, h.2.2.trans hnew⟩
  | some (.removed node) => exact ⟨h.1, hempty ▸ h.2.1, h.2.2⟩
  | some (.changed node oldNode) =>
    exact ⟨h.1, hempty ▸ h.2.1, h.2.2.1.trans hnew, h.2.2.2⟩

end Tells

namespace Tracks

variable {old mid new : String → FNode} {acc : FChildChangeAccumulator}

theorem init (old : String → FNode) : Tracks old {} old :=
  ⟨List.nodup_nil, fun k => FNode.IsEqual.refl (old k)⟩

theorem congr (h : Tracks old acc mid) (hnew : ∀ k, (mid k).IsEqual (new k)) :
    Tracks old acc new :=
  ⟨h.nodup, fun k => (h.tells k).congr (hnew k)⟩

/-- Another change under one key. -/
theorem setObject (h : Tracks old acc mid) {k : String} {change : FChildChange}
    (hk : Tells (old k) (new k) (some change)) (hrest : ∀ k', k' ≠ k → (mid k').IsEqual (new k')) :
    Tracks old (acc.setObject k change) new := by
  refine ⟨?_, fun k' => ?_⟩
  · unfold FChildChangeAccumulator.setObject
    rw [List.map_cons, List.nodup_cons]
    refine ⟨fun hmem => ?_, Dictionary.nodup_removed h.nodup k⟩
    obtain ⟨e, he, heq⟩ := List.mem_map.1 hmem
    exact (Dictionary.mem_removed.1 he).2 heq
  · unfold FChildChangeAccumulator.setObject
    rw [Dictionary.lookup_cons, Dictionary.lookup_removed]
    by_cases hkk : k' = k
    · subst hkk
      rw [if_pos rfl]
      exact hk
    · rw [if_neg hkk, if_neg hkk]
      exact (h.tells k').congr (hrest k' hkk)

/-- **A change can always be tracked.** -/
theorem trackChildChange (h : Tracks old acc mid) {k : String} {change : FChildChange}
    (hk : Tells (mid k) (new k) (some change)) (hrest : ∀ k', k' ≠ k → (mid k').IsEqual (new k')) :
    ∃ acc', acc.trackChildChange k change = some acc' ∧ Tracks old acc' new := by
  have htells := h.tells k
  unfold FChildChangeAccumulator.trackChildChange
  cases hlookup : acc.changeMap.lookup k with
  | none =>
    rw [hlookup] at htells
    exact ⟨_, rfl, h.setObject (Tells.trans_none htells hk) hrest⟩
  | some oldChange =>
    rw [hlookup] at htells
    cases change with
    | added node =>
      cases oldChange with
      | removed oldNode =>
        exact ⟨_, rfl, h.setObject ⟨htells.1, hk.2.1, hk.2.2, htells.2.2⟩ hrest⟩
      | added oldNode => exact absurd (hk.1.symm.trans htells.2.1) (by decide)
      | changed node' oldNode => exact absurd (hk.1.symm.trans htells.2.1) (by decide)
    | removed node =>
      cases oldChange with
      | removed oldNode => exact absurd (hk.1.symm.trans htells.2.1) (by decide)
      | added oldNode =>
        -- added and removed again
        refine ⟨_, rfl, Dictionary.nodup_removed h.nodup k, fun k' => ?_⟩
        dsimp only
        rw [Dictionary.lookup_removed]
        by_cases hkk : k' = k
        · subst hkk
          rw [if_pos rfl]
          exact FNode.isEqual_of_isEmpty htells.1 hk.2.1
        · rw [if_neg hkk]
          exact (h.tells k').congr (hrest k' hkk)
      | changed node' oldNode =>
        exact ⟨_, rfl, h.setObject ⟨htells.1, hk.2.1, htells.2.2.2⟩ hrest⟩
    | changed node node' =>
      cases oldChange with
      | removed oldNode => exact absurd (hk.1.symm.trans htells.2.1) (by decide)
      | added oldNode => exact ⟨_, rfl, h.setObject ⟨htells.1, hk.2.1, hk.2.2.1⟩ hrest⟩
      | changed node'' oldNode =>
        exact ⟨_, rfl, h.setObject ⟨htells.1, hk.2.1, hk.2.2.1, htells.2.2.2⟩ hrest⟩

/-- **Without changes every child is what it was.** -/
theorem isEqual_of_changes_eq_nil (h : Tracks old acc new) (hnil : acc.changes = []) (k : String) :
    (old k).IsEqual (new k) := by
  have htells := h.tells k
  rw [List.map_eq_nil_iff.1 hnil] at htells
  exact htells

end Tracks

/-! ## The filter -/

namespace FIndexedFilter

/-- What `updateChildIn:forChildKey:newChild:…` tells of the child. -/
def trackChild (node : FNode) (childKey : String) (newChildSnap : FNode)
    (acc : FChildChangeAccumulator) : Option FChildChangeAccumulator :=
  let oldChildSnap := node.getImmediateChild childKey
  if newChildSnap.isEmpty then
    if node.hasChild childKey then acc.trackChildChange childKey (.removed oldChildSnap)
    else if node.isLeafNode then some acc
    else none
  else if oldChildSnap.isEmpty then acc.trackChildChange childKey (.added newChildSnap)
  else acc.trackChildChange childKey (.changed newChildSnap oldChildSnap)

/-- `updateChildIn:forChildKey:newChild:affectedPath:fromSource:accumulator:`. -/
def updateChildIn (node : FNode) (childKey : String) (newChildSnap : FNode)
    (affectedPath : List String) (optChangeAccumulator : Option FChildChangeAccumulator) :
    Option (FNode × Option FChildChangeAccumulator) :=
  let oldChildSnap := node.getImmediateChild childKey
  if (oldChildSnap.getChild affectedPath).IsEqual (newChildSnap.getChild affectedPath) ∧
      oldChildSnap.isEmpty = newChildSnap.isEmpty then
    -- nothing changed, as a debug build makes sure
    if oldChildSnap.IsEqual newChildSnap then some (node, optChangeAccumulator) else none
  else
    let newNode :=
      if node.isLeafNode && newChildSnap.isEmpty then node
      else node.updateChild [childKey] newChildSnap
    match optChangeAccumulator with
    | none => some (newNode, none)
    | some acc => (trackChild node childKey newChildSnap acc).map fun acc => (newNode, some acc)

/-- The children of the old node that the new one does not have. -/
def trackRemoved (oldSnap newSnap : FNode) (acc : FChildChangeAccumulator) :
    Option FChildChangeAccumulator :=
  oldSnap.childKeys.foldlM (fun acc childKey =>
    if newSnap.hasChild childKey then some acc
    else acc.trackChildChange childKey (.removed (oldSnap.getImmediateChild childKey))) acc

/-- The children of the new node that the old one does not have, or not so. -/
def trackPresent (oldSnap newSnap : FNode) (acc : FChildChangeAccumulator) :
    Option FChildChangeAccumulator :=
  newSnap.childKeys.foldlM (fun acc childKey =>
    let childNode := newSnap.getImmediateChild childKey
    if oldSnap.hasChild childKey then
      let oldChildSnap := oldSnap.getImmediateChild childKey
      if oldChildSnap.IsEqual childNode then some acc
      else acc.trackChildChange childKey (.changed childNode oldChildSnap)
    else acc.trackChildChange childKey (.added childNode)) acc

/-- `updateFullNode:withNewNode:accumulator:`. -/
def updateFullNode (oldSnap newSnap : FNode)
    (optChangeAccumulator : Option FChildChangeAccumulator) :
    Option (FNode × Option FChildChangeAccumulator) :=
  match optChangeAccumulator with
  | none => some (newSnap, none)
  | some acc =>
    ((trackRemoved oldSnap newSnap acc).bind (trackPresent oldSnap newSnap)).map fun acc =>
      (newSnap, some acc)

variable {old : String → FNode} {acc : FChildChangeAccumulator} {node newSnap newChildSnap : FNode}
  {k : String} {p : List String}

/-- The child of a node is told of. -/
theorem trackChild_spec (h : Tracks old acc node.getImmediateChild)
    (hchanged : ¬ (node.getImmediateChild k).IsEqual newChildSnap) :
    ∃ acc', trackChild node k newChildSnap acc = some acc' ∧
      Tracks old acc' (node.updateChild [k] newChildSnap).getImmediateChild := by
  have hself : (node.updateChild [k] newChildSnap).getImmediateChild k = newChildSnap :=
    FNode.getImmediateChild_updateChild_self node k [] newChildSnap
  have hrest : ∀ k', k' ≠ k → (node.getImmediateChild k').IsEqual
      ((node.updateChild [k] newChildSnap).getImmediateChild k') := by
    intro k' hk
    rw [FNode.getImmediateChild_updateChild_of_ne node hk]
    exact FNode.IsEqual.refl _
  unfold trackChild
  dsimp only
  cases hnew : newChildSnap.isEmpty with
  | true =>
    have hold : (node.getImmediateChild k).isEmpty = false := by
      rw [Bool.eq_false_iff]
      intro hold
      exact hchanged (FNode.isEqual_of_isEmpty hold hnew)
    have hhas : node.hasChild k = true := by
      unfold FNode.hasChild
      rw [hold]
      rfl
    rw [if_pos rfl, if_pos hhas]
    refine h.trackChildChange ?_ hrest
    rw [hself]
    exact ⟨hold, hnew, FNode.IsEqual.refl _⟩
  | false =>
    rw [if_neg Bool.false_ne_true]
    cases hold : (node.getImmediateChild k).isEmpty with
    | true =>
      rw [if_pos rfl]
      refine h.trackChildChange ?_ hrest
      rw [hself]
      exact ⟨hold, hnew, FNode.IsEqual.refl _⟩
    | false =>
      rw [if_neg Bool.false_ne_true]
      refine h.trackChildChange ?_ hrest
      rw [hself]
      exact ⟨hold, hnew, FNode.IsEqual.refl _, FNode.IsEqual.refl _⟩

/-- A removal under a key leaves a leaf node alone. -/
theorem isEqual_updateChild_of_leaf (hleaf : node.isLeafNode = true)
    (hnew : newChildSnap.isEmpty = true) : node.IsEqual (node.updateChild [k] newChildSnap) := by
  refine (FNode.isEqual_updateChild ?_).symm
  have hchild : (node.getChild [k]).isEmpty = true := by
    obtain ⟨tree, hpruned⟩ := node
    cases tree with
    | leaf v => rfl
    | node cs => cases hleaf
  exact FNode.isEqual_of_isEmpty hchild hnew

/-- **A child of the node is replaced**, if all that changes of it is at
the affected path, and the accumulator tells so. -/
theorem updateChildIn_spec (h : Tracks old acc node.getImmediateChild)
    (hsame : ((node.getImmediateChild k).getChild p).IsEqual (newChildSnap.getChild p) →
      (node.getImmediateChild k).isEmpty = newChildSnap.isEmpty →
      (node.getImmediateChild k).IsEqual newChildSnap) :
    ∃ node' acc', updateChildIn node k newChildSnap p (some acc) = some (node', some acc') ∧
      node'.IsEqual (node.updateChild [k] newChildSnap) ∧
      Tracks old acc' node'.getImmediateChild := by
  unfold updateChildIn
  dsimp only
  split
  · -- nothing changed
    rename_i hno
    have hequal := hsame hno.1 hno.2
    have hnode := FNode.isEqual_updateChild (p := [k]) hequal
    exact ⟨node, acc, if_pos hequal, hnode.symm, h⟩
  · rename_i hno
    have hchanged : ¬ (node.getImmediateChild k).IsEqual newChildSnap :=
      fun hequal => hno ⟨hequal.getChild p, hequal.isEmpty_eq⟩
    obtain ⟨acc', htrack, htracks⟩ := trackChild_spec h hchanged
    rw [htrack]
    split
    · rename_i hleaf
      rw [Bool.and_eq_true] at hleaf
      have hequal := isEqual_updateChild_of_leaf (k := k) hleaf.1 hleaf.2
      exact ⟨_, acc', rfl, hequal, htracks.congr fun k' => (hequal.getImmediateChild k').symm⟩
    · exact ⟨_, acc', rfl, FNode.IsEqual.refl _, htracks⟩

/-- The same without an accumulator. -/
theorem updateChildIn_none
    (hsame : ((node.getImmediateChild k).getChild p).IsEqual (newChildSnap.getChild p) →
      (node.getImmediateChild k).isEmpty = newChildSnap.isEmpty →
      (node.getImmediateChild k).IsEqual newChildSnap) :
    ∃ node', updateChildIn node k newChildSnap p none = some (node', none) ∧
      node'.IsEqual (node.updateChild [k] newChildSnap) := by
  unfold updateChildIn
  dsimp only
  split
  · rename_i hno
    have hequal := hsame hno.1 hno.2
    have hnode := FNode.isEqual_updateChild (p := [k]) hequal
    exact ⟨node, if_pos hequal, hnode.symm⟩
  · split
    · rename_i hleaf
      rw [Bool.and_eq_true] at hleaf
      exact ⟨_, rfl, isEqual_updateChild_of_leaf hleaf.1 hleaf.2⟩
    · exact ⟨_, rfl, FNode.IsEqual.refl _⟩

/-- Changes under distinct keys, one after another. -/
theorem tracks_foldlM {f : FChildChangeAccumulator → String → Option FChildChangeAccumulator}
    {ks : List String} (hnodup : ks.Nodup) {cur new : String → FNode}
    (hstep : ∀ k ∈ ks, ∀ acc mid mid', Tracks old acc mid → mid k = cur k → mid' k = new k →
      (∀ k', k' ≠ k → mid' k' = mid k') → ∃ acc', f acc k = some acc' ∧ Tracks old acc' mid')
    (hrest : ∀ k, k ∉ ks → cur k = new k) (h : Tracks old acc cur) :
    ∃ acc', ks.foldlM f acc = some acc' ∧ Tracks old acc' new := by
  induction ks generalizing acc cur with
  | nil =>
    have hsame : cur = new := funext fun k => hrest k List.not_mem_nil
    exact ⟨acc, rfl, hsame ▸ h⟩
  | cons k ks ih =>
    rw [List.nodup_cons] at hnodup
    let cur₁ : String → FNode := fun k' => if k' = k then new k else cur k'
    have hself : cur₁ k = new k := if_pos rfl
    have hother : ∀ k', k' ≠ k → cur₁ k' = cur k' := fun k' hkk => if_neg hkk
    obtain ⟨acc₁, hf, h₁⟩ := hstep k List.mem_cons_self acc cur cur₁ h rfl hself hother
    have hlater : ∀ k' ∈ ks, cur₁ k' = cur k' := by
      intro k' hk'
      refine hother k' ?_
      rintro rfl
      exact hnodup.1 hk'
    obtain ⟨acc₂, hfold, h₂⟩ := ih hnodup.2
      (fun k' hk' acc mid mid' hmid heq hnew hrest' =>
        hstep k' (List.mem_cons_of_mem k hk') acc mid mid' hmid (heq.trans (hlater k' hk')) hnew
          hrest')
      (fun k' hk' => by
        by_cases hkk : k' = k
        · rw [hkk, hself]
        · rw [hother k' hkk]
          exact hrest k' (List.not_mem_cons_of_ne_of_not_mem hkk hk')) h₁
    refine ⟨acc₂, ?_, h₂⟩
    rw [List.foldlM_cons, hf]
    exact hfold

/-- The children that are gone are told of. -/
theorem trackRemoved_spec (h : Tracks old acc node.getImmediateChild) (newSnap : FNode) :
    ∃ acc', trackRemoved node newSnap acc = some acc' ∧
      Tracks old acc' fun k =>
        if newSnap.hasChild k then node.getImmediateChild k else newSnap.getImmediateChild k := by
  refine tracks_foldlM node.nodup_childKeys ?_ ?_ h
  · intro k hk acc mid mid' hmid hold hnew hrest
    cases hhas : newSnap.hasChild k with
    | true =>
      rw [hhas, if_pos rfl, ← hold] at hnew
      have hsame : mid' = mid := by
        funext k'
        by_cases hkk : k' = k
        · rw [hkk, hnew]
        · exact hrest k' hkk
      exact ⟨acc, if_pos rfl, hsame ▸ hmid⟩
    | false =>
      have hempty := FNode.hasChild_eq_false.1 hhas
      have hchild := FNode.hasChild_eq_true.1 (FNode.mem_childKeys.1 hk)
      rw [hhas, if_neg Bool.false_ne_true] at hnew
      rw [if_neg Bool.false_ne_true]
      refine hmid.trackChildChange ?_ fun k' hkk => ?_
      · rw [hold, hnew]
        exact ⟨hchild, hempty, FNode.IsEqual.refl _⟩
      · rw [hrest k' hkk]
        exact FNode.IsEqual.refl _
  · -- a key the old node does not have
    intro k hk
    have hold := FNode.hasChild_eq_false.1
      (Bool.eq_false_iff.2 fun h => hk (FNode.mem_childKeys.2 h))
    cases hhas : newSnap.hasChild k with
    | true => exact (if_pos rfl).symm
    | false =>
      have hempty := FNode.hasChild_eq_false.1 hhas
      rw [if_neg Bool.false_ne_true, FNode.isEmpty_iff.1 hold, FNode.isEmpty_iff.1 hempty]

/-- The children that are there are told of. -/
theorem trackPresent_spec
    (h : Tracks old acc fun k =>
      if newSnap.hasChild k then node.getImmediateChild k else newSnap.getImmediateChild k) :
    ∃ acc', trackPresent node newSnap acc = some acc' ∧
      Tracks old acc' newSnap.getImmediateChild := by
  refine tracks_foldlM newSnap.nodup_childKeys ?_ ?_ h
  · intro k hk acc mid mid' hmid hold hnew hrest
    have hhas := FNode.mem_childKeys.1 hk
    have hchild := FNode.hasChild_eq_true.1 hhas
    rw [hhas, if_pos rfl] at hold
    have hsame : ∀ k', k' ≠ k → (mid k').IsEqual (mid' k') := by
      intro k' hkk
      rw [hrest k' hkk]
      exact FNode.IsEqual.refl _
    dsimp only
    cases hhad : node.hasChild k with
    | false =>
      rw [if_neg Bool.false_ne_true]
      have hnone := FNode.hasChild_eq_false.1 hhad
      refine hmid.trackChildChange ?_ hsame
      rw [hold, hnew]
      exact ⟨hnone, hchild, FNode.IsEqual.refl _⟩
    | true =>
      rw [if_pos rfl]
      split
      · rename_i hequal
        rw [← hold, ← hnew] at hequal
        refine ⟨acc, rfl, hmid.congr fun k' => ?_⟩
        by_cases hkk : k' = k
        · rw [hkk]
          exact hequal
        · exact hsame k' hkk
      · refine hmid.trackChildChange ?_ hsame
        rw [hold, hnew]
        exact ⟨FNode.hasChild_eq_true.1 hhad, hchild, FNode.IsEqual.refl _, FNode.IsEqual.refl _⟩
  · intro k hk
    have hhas : newSnap.hasChild k = false :=
      Bool.eq_false_iff.2 fun h => hk (FNode.mem_childKeys.2 h)
    rw [hhas]
    exact if_neg Bool.false_ne_true

/-- **The whole node is replaced**, and the accumulator tells so. -/
theorem updateFullNode_spec (h : Tracks old acc node.getImmediateChild) (newSnap : FNode) :
    ∃ acc', updateFullNode node newSnap (some acc) = some (newSnap, some acc') ∧
      Tracks old acc' newSnap.getImmediateChild := by
  obtain ⟨acc₁, hremoved, h₁⟩ := trackRemoved_spec h newSnap
  obtain ⟨acc₂, hpresent, h₂⟩ := trackPresent_spec h₁
  refine ⟨acc₂, ?_, h₂⟩
  unfold updateFullNode
  dsimp only
  rw [hremoved, Option.bind_some, hpresent]
  rfl

end FIndexedFilter

end DevicesTracker
