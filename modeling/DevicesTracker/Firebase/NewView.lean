import DevicesTracker.Firebase.ViewMerges
/-!
# Firebase — new views

A view starts from what other views of the tree know: all of the server's
data at its path, or some children of it. What it shows at first is
computed at once, and it is coherent from the start. The computation of
the children alone serves a view that is not complete whenever all of it
has to be done again.
-/

namespace DevicesTracker

open FImmutableTree FImmutableSortedDictionary

/-- `addEventRegistration:forNonExistingViewForQuery:writesCache:serverCache:`,
the view it makes. -/
def FSyncPoint.initialViewCache (writesCache : FWriteTreeRef) (serverCache : FCacheNode) :
    FViewCache :=
  let completeServerCache :=
    if serverCache.isFullyInitialized then some serverCache.node else none
  match writesCache.calculateCompleteEventCache completeServerCache with
  | some eventCache => ⟨⟨eventCache, true⟩, serverCache⟩
  | none =>
    ⟨⟨writesCache.calculateCompleteEventChildren serverCache.node, false⟩, serverCache⟩

namespace FNode

/-- Children put under distinct keys, one after another. -/
theorem getImmediateChild_foldl {l : List (String × FNode)} (hnodup : (l.map Prod.fst).Nodup)
    (n : FNode) (k : String) :
    (l.foldl (fun (n : FNode) c => n.updateChild [c.1] c.2) n).getImmediateChild k =
      (l.lookup k).getD (n.getImmediateChild k) := by
  induction l generalizing n with
  | nil => rfl
  | cons c l ih =>
    rw [List.map_cons, List.nodup_cons] at hnodup
    rw [List.foldl_cons, ih hnodup.2, Dictionary.lookup_cons]
    by_cases hk : k = c.1
    · subst hk
      rw [if_pos rfl, Dictionary.lookup_eq_none_of_notMem hnodup.1]
      exact getImmediateChild_updateChild_self n c.1 [] c.2
    · rw [if_neg hk, getImmediateChild_updateChild_of_ne n hk]

end FNode

namespace FCompoundWrite

/-- What is complete in the writes below a path. -/
theorem completeNodeIn_subtreeAtPath {t : FImmutableTree FNode} {p : List String}
    (h : completeNodeIn t p = none) (r : List String) :
    completeNodeIn (subtreeAtPath p t) r = completeNodeIn t (p ++ r) := by
  induction p generalizing t with
  | nil => rfl
  | cons k p ih =>
    obtain ⟨value, cs⟩ := t
    cases value with
    | some v =>
      rw [completeNodeIn_some] at h
      cases h
    | none =>
      rw [← completeNodeIn_getD_empty] at h
      rw [List.cons_append, ← completeNodeIn_getD_empty, ← ih h, subtreeAtPath]
      cases get cs k with
      | some child => rfl
      | none =>
        have hempty : subtreeAtPath p (empty : FImmutableTree FNode) = empty := by
          cases p <;> rfl
        rw [Option.getD_none, hempty]

theorem completeNodeAtPath_child (cw : FCompoundWrite) (p r : List String) :
    (cw.childCompoundWriteAtPath p).completeNodeAtPath r = cw.completeNodeAtPath (p ++ r) := by
  unfold childCompoundWriteAtPath
  cases p with
  | nil => rfl
  | cons k p =>
    rw [List.isEmpty_cons, if_neg Bool.false_ne_true]
    cases hcomplete : cw.completeNodeAtPath (k :: p) with
    | some m => exact (completeNodeIn_some m [] r).trans (completeNodeIn_append hcomplete r).symm
    | none => exact completeNodeIn_subtreeAtPath hcomplete r

/-- The children with a value keep distinct keys. -/
theorem nodup_childValues {cs : List (String × FImmutableTree FNode)}
    (hnodup : (cs.map Prod.fst).Nodup) :
    ((cs.filterMap fun c => c.2.value.map fun node => (c.1, node)).map Prod.fst).Nodup := by
  induction cs with
  | nil => exact List.nodup_nil
  | cons c cs ih =>
    rw [List.map_cons, List.nodup_cons] at hnodup
    rw [List.filterMap_cons]
    cases hc : c.2.value with
    | none => exact ih hnodup.2
    | some v =>
      refine List.nodup_cons.2 ⟨fun hmem => hnodup.1 ?_, ih hnodup.2⟩
      obtain ⟨e, he, hkey⟩ := List.mem_map.1 hmem
      obtain ⟨c', hc', hvalue⟩ := List.mem_filterMap.1 he
      obtain ⟨v', -, rfl⟩ := Option.map_eq_some_iff.1 hvalue
      exact List.mem_map.2 ⟨c', hc', hkey⟩

theorem lookup_childValues {cs : List (String × FImmutableTree FNode)}
    (hnodup : (cs.map Prod.fst).Nodup) (k : String) :
    (cs.filterMap fun c => c.2.value.map fun node => (c.1, node)).lookup k =
      (get cs k).bind FImmutableTree.value := by
  induction cs with
  | nil => rfl
  | cons c cs ih =>
    obtain ⟨k', child⟩ := c
    rw [List.map_cons, List.nodup_cons] at hnodup
    rw [List.filterMap_cons, get_cons]
    by_cases hk : k = k'
    · subst hk
      rw [if_pos rfl, Option.bind_some]
      dsimp only
      cases child.value with
      | some v => exact (Dictionary.lookup_cons k k v _).trans (if_pos rfl)
      | none =>
        have hrest := Dictionary.lookup_eq_none_of_notMem hnodup.1
        refine (ih hnodup.2).trans ?_
        change Option.bind (cs.lookup k) _ = none
        rw [hrest]
        rfl
    · rw [if_neg hk]
      dsimp only
      cases child.value with
      | some v => exact (Dictionary.lookup_cons k k' v _).trans ((if_neg hk).trans (ih hnodup.2))
      | none => exact ih hnodup.2

/-- The complete children of a compound write that is not complete. -/
theorem completeChildren_spec {cw : FCompoundWrite} (hroot : cw.completeNodeAtPath [] = none) :
    (cw.completeChildren.map Prod.fst).Nodup ∧
      ∀ k, cw.completeChildren.lookup k = cw.completeNodeAtPath [k] := by
  have hvalue : ∀ child : FImmutableTree FNode, completeNodeIn child [] = child.value := by
    rintro ⟨value, children⟩
    cases value <;> rfl
  obtain ⟨t, ht⟩ := cw
  cases ht with
  | written v => cases hroot
  | @node cs hnodup hne hcs =>
    refine ⟨nodup_childValues hnodup, fun k => (lookup_childValues hnodup k).trans ?_⟩
    change _ = completeNodeIn (FImmutableTree.mk none cs) [k]
    rw [completeNodeIn_none_cons]
    exact congrArg _ (funext fun child => (hvalue child).symm)

end FCompoundWrite

section NewView

variable {s : FWriteTree} {q : List String} {m : FNode}

/-- **The children a view shows before it is complete**: each is right that
the server's data has, or that a write decides. -/
theorem isEqual_completeEventChild (h : Gathers s.visibleWrites s.pending)
    (hclear : Clear s.pending q m) (hshadow : ¬ Shadowed s.pending q) {k : String}
    (hk : m.hasChild k = true ∨ Shadowed s.pending (q ++ [k])) :
    (((FWriteTreeRef.mk q s).calculateCompleteEventChildren m).getImmediateChild k).IsEqual
      ((expected s.pending q m).getImmediateChild k) := by
  have hnone : s.visibleWrites.completeNodeAtPath q = none :=
    h.completeNodeAtPath_eq_none fun w hw hp => hshadow ⟨w, hw, hp⟩
  have hroot : (s.visibleWrites.childCompoundWriteAtPath q).completeNodeAtPath [] = none := by
    rw [FCompoundWrite.completeNodeAtPath_child, List.append_nil]
    exact hnone
  obtain ⟨hnodup, hlookup⟩ := FCompoundWrite.completeChildren_spec hroot
  unfold FWriteTreeRef.calculateCompleteEventChildren
    FWriteTree.calculateCompleteEventChildrenAtPath
  dsimp only
  rw [hnone]
  dsimp only
  rw [FNode.getImmediateChild_foldl hnodup, hlookup, FCompoundWrite.completeNodeAtPath_child]
  cases hcomplete : s.visibleWrites.completeNodeAtPath (q ++ [k]) with
  | some u =>
    have hequal := h.isEqual_completeNode hcomplete (FNode.emptyNode.updateChild q m)
    rw [FNode.getChild_append] at hequal
    exact hequal
  | none =>
    have hhas : m.hasChild k = true := by
      refine hk.resolve_right fun hs => ?_
      have hsome := (h.complete_iff (q ++ [k])).2 hs
      rw [hcomplete] at hsome
      cases hsome
    have hkeys : ((m.childKeys.map fun key =>
        (key, ((s.visibleWrites.childCompoundWriteAtPath q).childCompoundWriteAtPath
          [key]).applyToNode (m.getImmediateChild key))).map Prod.fst).Nodup := by
      rw [List.map_map]
      exact (List.map_id _).symm ▸ m.nodup_childKeys
    rw [Option.getD_none, FNode.getImmediateChild_foldl hkeys,
      Dictionary.lookup_of_mem hkeys (List.mem_map_of_mem (FNode.mem_childKeys.2 hhas)),
      Option.getD_some]
    funext r
    rw [FCompoundWrite.leafAt_applyToNode, Patch.apply,
      FCompoundWrite.patch_childCompoundWriteAtPath, FCompoundWrite.patch_childCompoundWriteAtPath,
      ← FNode.getChild_singleton, ← FNode.getChild_singleton, FNode.leafAt_getChild,
      FNode.leafAt_getChild, leafAt_expected]
    exact h.getD_patch (hclear ([k] ++ r))

/-- A node that has the leaves a view should show wherever the view knows
them. -/
def Shows (ws : List (List String × FNode)) (q : List String) (c : FCacheNode) (n : FNode) : Prop :=
  ∀ r, Known ws q c r → n.leafAt r = (expected ws q c.node).leafAt r

theorem shows_completeEventChildren (h : Gathers s.visibleWrites s.pending) {c : FCacheNode}
    (hclear : Clear s.pending q c.node) (hfull : ¬ c.isFullyInitialized = true)
    (hshadow : ¬ Shadowed s.pending q) :
    Shows s.pending q c ((FWriteTreeRef.mk q s).calculateCompleteEventChildren c.node) := by
  intro r hknown
  cases r with
  | nil => exact absurd (known_nil.1 hknown) (not_or.2 ⟨hfull, hshadow⟩)
  | cons k r =>
    have hk : c.node.hasChild k = true ∨ Shadowed s.pending (q ++ [k]) := by
      refine (known_cons.1 hknown).imp_left fun hc => ?_
      unfold FCacheNode.isCompleteForChild at hc
      rw [Bool.eq_false_iff.2 hfull, Bool.false_or] at hc
      exact hc
    have hleaf := congrFun (isEqual_completeEventChild h hclear hshadow hk) r
    rw [← FNode.getChild_singleton, ← FNode.getChild_singleton, FNode.leafAt_getChild,
      FNode.leafAt_getChild] at hleaf
    exact hleaf

/-- Without data of the server only a write that decides all gives a cache. -/
theorem calculateCompleteEventCache_none (s : FWriteTree) (q : List String) :
    (FWriteTreeRef.mk q s).calculateCompleteEventCache none =
      s.visibleWrites.completeNodeAtPath q := by
  unfold FWriteTreeRef.calculateCompleteEventCache FWriteTree.calculateCompleteEventCacheAtPath
  simp only [Option.isNone_none, Bool.not_false, Bool.and_self, if_true]
  cases hcomplete : s.visibleWrites.completeNodeAtPath q with
  | some u => rfl
  | none =>
    have hchild : (s.visibleWrites.childCompoundWriteAtPath q).hasCompleteWriteAtPath [] =
        false := by
      unfold FCompoundWrite.hasCompleteWriteAtPath
      rw [FCompoundWrite.completeNodeAtPath_child, List.append_nil, hcomplete]
      rfl
    simp only [hchild, Bool.not_false, Bool.and_self, if_true, ite_self]

/-- **A new view is coherent.** -/
theorem coherent_initialViewCache (h : Gathers s.visibleWrites s.pending) {c : FCacheNode}
    (hclear : Clear s.pending q c.node) :
    Coherent s.pending q (FSyncPoint.initialViewCache ⟨q, s⟩ c) := by
  unfold FSyncPoint.initialViewCache
  dsimp only
  by_cases hfull : c.isFullyInitialized = true
  · obtain ⟨n, hn, hequal⟩ := completeEventCache_spec h hclear
    rw [if_pos hfull, hn]
    exact ⟨fun _ => rfl, fun r _ => congrFun hequal r, hclear⟩
  rw [if_neg hfull, calculateCompleteEventCache_none]
  cases hcomplete : s.visibleWrites.completeNodeAtPath q with
  | some u =>
    have hequal := h.isEqual_completeNode hcomplete (FNode.emptyNode.updateChild q c.node)
    exact ⟨fun _ => rfl, fun r _ => congrFun hequal r, hclear⟩
  | none =>
    have hshadow : ¬ Shadowed s.pending q := by
      intro hs
      have hsome := (h.complete_iff q).2 hs
      rw [hcomplete] at hsome
      cases hsome
    exact ⟨fun hknown => absurd hknown (not_or.2 ⟨hfull, hshadow⟩),
      shows_completeEventChildren h hclear hfull hshadow, hclear⟩

end NewView

end DevicesTracker
