import DevicesTracker.Firebase.ViewAnswers
/-!
# Firebase — what a view tells the app

An operation on a view gives a new view and a list of changes, from which
the app's events are made. The changes tell the app of each child what
became of it, once, and a value change comes after them; when there is none
and the view is complete, the app had seen all of it before (`Reported`).
So the app, told only of changes, is never behind the view.
-/

namespace DevicesTracker

namespace FChange

/-- The key of the child a change is about. -/
def childKey? : FChange → Option String
  | child childKey _ => some childKey
  | value _ => none

/-- What a change tells of the child under a key. -/
def about (k : String) : FChange → Option FChildChange
  | child childKey change => if childKey = k then some change else none
  | value _ => none

end FChange

/-- **The changes report what an operation did to a view.** -/
structure Reported (v v' : FViewCache) (changes : List FChange) : Prop where
  once : (changes.filterMap FChange.childKey?).Nodup
  tells : ∀ k, Tells (v.cachedEventSnap.node.getImmediateChild k)
    (v'.cachedEventSnap.node.getImmediateChild k) (changes.findSome? (FChange.about k))
  value : ∀ n, FChange.value n ∈ changes →
    v'.cachedEventSnap = ⟨n, true⟩ ∧ changes.getLast? = some (.value n)
  silent : v'.cachedEventSnap.isFullyInitialized = true → (∀ n, FChange.value n ∉ changes) →
    v.cachedEventSnap.isFullyInitialized = true ∧
      v.cachedEventSnap.node.IsEqual v'.cachedEventSnap.node

namespace FChildChangeAccumulator

theorem childKeys_changes (acc : FChildChangeAccumulator) :
    acc.changes.filterMap FChange.childKey? = acc.changeMap.map Prod.fst := by
  unfold changes
  rw [List.filterMap_map]
  exact congrFun List.filterMap_eq_map acc.changeMap

theorem findSome?_changes (acc : FChildChangeAccumulator) (k : String) :
    acc.changes.findSome? (FChange.about k) = acc.changeMap.lookup k := by
  unfold changes
  induction acc.changeMap with
  | nil => rfl
  | cons e l ih =>
    have hone : FChange.about k (.child e.1 e.2) = if e.1 = k then some e.2 else none := rfl
    rw [List.map_cons, List.findSome?_cons, ih, Dictionary.lookup_cons, hone]
    by_cases hk : e.1 = k
    · rw [if_pos hk, if_pos hk.symm]
    · rw [if_neg hk, if_neg fun heq => hk heq.symm]

theorem value_notMem_changes (acc : FChildChangeAccumulator) (n : FNode) :
    FChange.value n ∉ acc.changes := by
  intro h
  obtain ⟨e, -, he⟩ := List.mem_map.1 h
  cases he

end FChildChangeAccumulator

namespace FNode

variable {n n' : FNode}

theorem leafAt_nil_of_isLeafNode_eq_false (h : n.isLeafNode = false) : n.leafAt [] = none := by
  obtain ⟨t, ht⟩ := n
  cases t with
  | leaf v => cases h
  | node cs => rfl

theorem isEmpty_getImmediateChild_of_leafAt_nil (h : n.leafAt [] ≠ none) (k : String) :
    (n.getImmediateChild k).isEmpty = true := by
  obtain ⟨t, ht⟩ := n
  cases t with
  | leaf v => rfl
  | node cs => exact absurd rfl h

/-- **A node with children is its children.** -/
theorem isEqual_of_children (hleaf : n'.isLeafNode = false) (hempty : n'.isEmpty = false)
    (h : ∀ k, (n.getImmediateChild k).IsEqual (n'.getImmediateChild k)) : n.IsEqual n' := by
  have hnone : n.leafAt [] = none := by
    by_contra hne
    have hall : n'.isEmpty = true := (isEmpty_iff_children hleaf).2 fun k =>
      (h k).isEmpty_eq.symm.trans (isEmpty_getImmediateChild_of_leafAt_nil hne k)
    exact absurd (hempty.symm.trans hall) (by decide)
  funext r
  cases r with
  | nil => exact hnone.trans (leafAt_nil_of_isLeafNode_eq_false hleaf).symm
  | cons k r =>
    have hchild := congrFun (h k) r
    rw [← getChild_singleton, ← getChild_singleton, leafAt_getChild, leafAt_getChild] at hchild
    exact hchild

end FNode

section Reports

open FViewProcessor

variable {v v' : FViewCache} {acc : FChildChangeAccumulator}

/-- The child changes of an operation, without a value change. -/
theorem Tracks.reported
    (h : Tracks v.cachedEventSnap.node.getImmediateChild acc
      v'.cachedEventSnap.node.getImmediateChild)
    (hsilent : v'.cachedEventSnap.isFullyInitialized = true →
      v.cachedEventSnap.isFullyInitialized = true ∧
        v.cachedEventSnap.node.IsEqual v'.cachedEventSnap.node) :
    Reported v v' acc.changes := by
  refine ⟨?_, fun k => ?_, fun n hn => ?_, fun hfull _ => hsilent hfull⟩
  · rw [acc.childKeys_changes]
    exact h.nodup
  · rw [acc.findSome?_changes]
    exact h.tells k
  · exact absurd hn (acc.value_notMem_changes n)

/-- The child changes of an operation, and a value change after them. -/
theorem Tracks.reported_value
    (h : Tracks v.cachedEventSnap.node.getImmediateChild acc
      v'.cachedEventSnap.node.getImmediateChild)
    (hfull : v'.cachedEventSnap.isFullyInitialized = true) :
    Reported v v' (acc.changes ++ [.value v'.cachedEventSnap.node]) := by
  refine ⟨?_, fun k => ?_, fun n hn => ?_, fun _ hno => ?_⟩
  · rw [List.filterMap_append, acc.childKeys_changes]
    exact (List.append_nil _).symm ▸ h.nodup
  · rw [List.findSome?_append, acc.findSome?_changes]
    have hone : [FChange.value v'.cachedEventSnap.node].findSome? (FChange.about k) = none := rfl
    rw [hone, Option.or_none]
    exact h.tells k
  · rcases List.mem_append.1 hn with hn | hn
    · exact absurd hn (acc.value_notMem_changes n)
    · obtain rfl := FChange.value.inj (List.mem_singleton.1 hn)
      exact ⟨congrArg (FCacheNode.mk v'.cachedEventSnap.node) hfull, List.getLast?_concat⟩
  · exact absurd (List.mem_append_right _ (List.mem_singleton.2 rfl)) (hno _)

/-- **`maybeAddValue` adds a value change when one is due.** -/
theorem reported_maybeAddValue
    (h : Tracks v.cachedEventSnap.node.getImmediateChild acc
      v'.cachedEventSnap.node.getImmediateChild) :
    Reported v v' (maybeAddValue v v' acc.changes) := by
  unfold maybeAddValue
  dsimp only
  by_cases hfull : v'.cachedEventSnap.isFullyInitialized = true
  · rw [if_pos hfull]
    split
    · exact h.reported_value hfull
    · rename_i hquiet
      rw [Bool.or_eq_true, Bool.or_eq_true, not_or, not_or] at hquiet
      obtain ⟨⟨hnil, hold⟩, hsame⟩ := hquiet
      refine h.reported fun _ => ⟨by simpa using hold, ?_⟩
      have hchanges : acc.changes = [] := by simpa using hnil
      cases hleaf : v'.cachedEventSnap.node.isLeafNode || v'.cachedEventSnap.node.isEmpty with
      | false =>
        rw [Bool.or_eq_false_iff] at hleaf
        exact FNode.isEqual_of_children hleaf.1 hleaf.2 fun k =>
          h.isEqual_of_changes_eq_nil hchanges k
      | true =>
        rw [hleaf] at hsame
        have hequal : v'.cachedEventSnap.node.IsEqual v.cachedEventSnap.node := by
          simpa using hsame
        exact hequal.symm
  · rw [if_neg hfull]
    exact h.reported fun hcomplete => absurd hcomplete hfull

/-- **An operation the processor does is done on the view**, and the
changes report it. -/
theorem Gives.applyOperationOn {writes : FWriteTreeRef} {optCompleteCache : Option FNode}
    {operation : FOperation} {P : FViewCache → Prop}
    (h : Gives v.cachedEventSnap.node.getImmediateChild
      (process writes optCompleteCache v (some {}) operation) P) :
    ∃ v' changes, FViewProcessor.applyOperationOn writes optCompleteCache v operation =
      some (v', changes) ∧ Reported v v' changes ∧ P v' := by
  obtain ⟨v', acc, hprocess, htracks, hP⟩ := h
  refine ⟨v', _, ?_, reported_maybeAddValue htracks, hP⟩
  unfold FViewProcessor.applyOperationOn
  rw [hprocess]
  rfl

end Reports

end DevicesTracker
