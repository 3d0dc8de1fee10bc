import DevicesTracker.Firebase.ViewWrites
/-!
# Firebase — views and merges of the server

A merge of the server is taken in child by child: under each key it has
writes for, the server's child with these writes done is an overwrite. An
acknowledged write is done in the same way, with a merge that repeats
what the server's data has; so the data stays, and only the places below
the merge are run over again.
-/

namespace DevicesTracker

open FImmutableTree FImmutableSortedDictionary

/-! ## The writes of a compound write -/

namespace FImmutableTree

/-- Writes moved below a path. -/
def shift (p : List String) (l : List (List String × FNode)) : List (List String × FNode) :=
  l.map fun e => (p ++ e.1, e.2)

theorem shift_nil (l : List (List String × FNode)) : shift [] l = l := List.map_id l

theorem setPatch_append (p p' r : List String) (x : FNode) :
    FNode.setPatch (p ++ p') x (p ++ r) = FNode.setPatch p' x r := by
  induction p with
  | nil => rfl
  | cons k p ih => rw [List.cons_append, List.cons_append, FNode.setPatch_cons_cons, if_pos rfl, ih]

theorem writesPatch_shift (p r : List String) (l : List (List String × FNode)) :
    writesPatch (shift p l) (p ++ r) = writesPatch l r := by
  induction l with
  | nil => rfl
  | cons w l ih =>
    have hrest : writesPatch (l.map fun e => (p ++ e.1, e.2)) (p ++ r) = writesPatch l r := ih
    rw [shift, List.map_cons, writesPatch_cons, writesPatch_cons, hrest, setPatch_append]

theorem shadowed_shift {p r : List String} {l : List (List String × FNode)} :
    Shadowed (shift p l) (p ++ r) ↔ Shadowed l r := by
  constructor
  · rintro ⟨w, hw, hp⟩
    obtain ⟨e, he, rfl⟩ := List.mem_map.1 hw
    exact ⟨e, he, (List.prefix_append_right_inj p).1 hp⟩
  · rintro ⟨e, he, hp⟩
    exact ⟨_, List.mem_map.2 ⟨e, he, rfl⟩, (List.prefix_append_right_inj p).2 hp⟩

theorem mem_forEach_node {α : Type} {cs : List (String × FImmutableTree α)} {e : List String × α} :
    e ∈ (mk none cs).forEach ↔ ∃ c ∈ cs, ∃ e' ∈ c.2.forEach, e = (c.1 :: e'.1, e'.2) := by
  rw [forEach, Option.toList_none, List.map_nil, List.append_nil]
  refine ⟨mem_childrenForEach, ?_⟩
  rintro ⟨c, hc, e', he', rfl⟩
  induction cs with
  | nil => exact absurd hc List.not_mem_nil
  | cons c' cs ih =>
    rw [childrenForEach, List.mem_append]
    rcases List.mem_cons.1 hc with rfl | hc
    · exact Or.inl (List.mem_map.2 ⟨e', he', rfl⟩)
    · exact Or.inr (ih hc)

/-- The writes under one key are those of its child. -/
theorem writesPatch_childrenForEach {cs : List (String × FImmutableTree FNode)}
    (hnodup : (cs.map Prod.fst).Nodup) (k : String) (r : List String) :
    writesPatch (childrenForEach cs) (k :: r) =
      (get cs k).bind fun child => writesPatch child.forEach r := by
  induction cs with
  | nil => rfl
  | cons c cs ih =>
    obtain ⟨k', child⟩ := c
    rw [List.map_cons, List.nodup_cons] at hnodup
    have hfirst : writesPatch (child.forEach.map fun e => (k' :: e.1, e.2)) (k :: r) =
        if k = k' then writesPatch child.forEach r else none := by
      by_cases hk : k = k'
      · subst hk
        rw [if_pos rfl]
        exact writesPatch_shift [k] r child.forEach
      · rw [if_neg hk]
        refine writesPatch_eq_none fun w hw => ?_
        obtain ⟨e, -, rfl⟩ := List.mem_map.1 hw
        exact FNode.setPatch_of_apart (KeyedTree.apart_cons_of_ne (Ne.symm hk) _ _) _
    rw [childrenForEach, writesPatch_append, hfirst, ih hnodup.2, get_cons]
    by_cases hk : k = k'
    · subst hk
      have hrest : get cs k = none := by
        by_contra hne
        obtain ⟨child', hget⟩ := Option.ne_none_iff_exists'.1 hne
        exact hnodup.1 (List.mem_map.2 ⟨(k, child'), Dictionary.mem_of_lookup hget, rfl⟩)
      rw [if_pos rfl, if_pos rfl, hrest]
      rfl
    · rw [if_neg hk, if_neg hk, Option.or_none]

theorem getD_writesPatch_forEach {t : FImmutableTree FNode} (h : t.WellFormed)
    (r : List String) : (treePatch t r).getD none = (writesPatch t.forEach r).getD none := by
  induction h generalizing r with
  | written v =>
    have hone : writesPatch (mk (some v) []).forEach r = some (v.leafAt r) :=
      FNode.setPatch_nil v r
    rw [hone, treePatch_some]
  | @node cs hnodup hne hcs ih =>
    cases r with
    | nil =>
      rw [getD_treePatch_none_nil]
      refine (getD_writesPatch_none fun w hw hp => ?_).symm
      obtain ⟨c, -, e, -, rfl⟩ := mem_forEach_node.1 hw
      exact absurd (List.prefix_nil.1 hp) (List.cons_ne_nil _ _)
    | cons k r =>
      rw [treePatch_none_cons, forEach, Option.toList_none, List.map_nil, List.append_nil,
        writesPatch_childrenForEach hnodup]
      cases hget : get cs k with
      | none => rfl
      | some child => exact ih (k, child) (Dictionary.mem_of_lookup hget) r

theorem isSome_completeNodeIn_iff {t : FImmutableTree FNode} (h : t.WellFormed)
    (r : List String) :
    (FCompoundWrite.completeNodeIn t r).isSome = true ↔ Shadowed t.forEach r := by
  induction h generalizing r with
  | written v =>
    rw [FCompoundWrite.completeNodeIn_some]
    exact ⟨fun _ => ⟨([], v), List.mem_cons_self, List.nil_prefix⟩, fun _ => rfl⟩
  | @node cs hnodup hne hcs ih =>
    cases r with
    | nil =>
      rw [FCompoundWrite.completeNodeIn_none_nil]
      constructor
      · exact fun hsome => absurd hsome Bool.false_ne_true
      · rintro ⟨w, hw, hp⟩
        obtain ⟨c, -, e, -, rfl⟩ := mem_forEach_node.1 hw
        exact absurd (List.prefix_nil.1 hp) (List.cons_ne_nil _ _)
    | cons k r =>
      rw [FCompoundWrite.completeNodeIn_none_cons]
      constructor
      · intro hsome
        cases hget : get cs k with
        | none =>
          rw [hget] at hsome
          cases hsome
        | some child =>
          rw [hget] at hsome
          have hmem := Dictionary.mem_of_lookup hget
          obtain ⟨e, he, hp⟩ := (ih (k, child) hmem r).1 hsome
          exact ⟨_, mem_forEach_node.2 ⟨(k, child), hmem, e, he, rfl⟩,
            List.cons_prefix_cons.2 ⟨rfl, hp⟩⟩
      · rintro ⟨w, hw, hp⟩
        obtain ⟨c, hc, e, he, rfl⟩ := mem_forEach_node.1 hw
        obtain ⟨rfl, hrest⟩ := List.cons_prefix_cons.1 hp
        rw [get_of_mem hnodup hc]
        exact (ih c hc r).2 ⟨e, he, hrest⟩

/-- The paths written after one more write. -/
theorem path_of_mem_addToTree {t : FImmutableTree FNode} (h : t.WellFormed) (n : FNode)
    {p : List String} {e : List String × FNode}
    (he : e ∈ (FCompoundWrite.addToTree n p t).forEach) :
    e.1 = p ∨ ∃ e' ∈ t.forEach, e'.1 = e.1 := by
  induction p generalizing t e with
  | nil =>
    left
    rw [List.mem_singleton.1 he]
  | cons k p ih =>
    cases h with
    | written v =>
      rw [FCompoundWrite.addToTree_some] at he
      right
      exact ⟨([], v), List.mem_cons_self, by rw [List.mem_singleton.1 he]⟩
    | @node cs hnodup hne hcs =>
      have hnode := WellFormed.node hnodup hne hcs
      rw [FCompoundWrite.addToTree_none_cons hnode, mem_forEach_node] at he
      obtain ⟨c, hc, e₁, he₁, rfl⟩ := he
      rcases mem_insertKey.1 hc with rfl | ⟨hc, -⟩
      · rcases ih (hnode.getD k) he₁ with hpath | ⟨e₂, he₂, hpath⟩
        · exact Or.inl (congrArg (List.cons k) hpath)
        · right
          cases hget : get cs k with
          | none =>
            rw [hget] at he₂
            exact absurd he₂ List.not_mem_nil
          | some child =>
            rw [hget] at he₂
            exact ⟨_, mem_forEach_node.2 ⟨(k, child), Dictionary.mem_of_lookup hget, e₂, he₂, rfl⟩,
              congrArg (List.cons k) hpath⟩
      · exact Or.inr ⟨_, mem_forEach_node.2 ⟨c, hc, e₁, he₁, rfl⟩, rfl⟩

end FImmutableTree

namespace FCompoundWrite

/-- **A compound write gathers its own writes.** -/
theorem gathers_enumerateWrites (cw : FCompoundWrite) : Gathers cw cw.enumerateWrites where
  complete_iff := isSome_completeNodeIn_iff cw.wellFormed
  leaves := getD_writesPatch_forEach cw.wellFormed

/-- **A compound write is its writes one by one**, on a node without a leaf
above one of them. -/
theorem isEqual_applyToNode_doWrites (cw : FCompoundWrite) {n : FNode}
    (h : NoLeafAbove cw.enumerateWrites n) :
    (cw.applyToNode n).IsEqual (doWrites cw.enumerateWrites n) :=
  cw.gathers_enumerateWrites.isEqual_applyToNode h []

theorem isEqual_applyToNode_doWrites_name :
    ((emptyWrite.addWrite (FNode.nodeFrom (.string "phone")) ["name"]).applyToNode
        FNode.emptyNode).IsEqual
      (doWrites (emptyWrite.addWrite (FNode.nodeFrom (.string "phone")) ["name"]).enumerateWrites
        FNode.emptyNode) :=
  isEqual_applyToNode_doWrites _ fun q => Or.inl (FNode.leafAt_emptyNode q)

/-- The merge as it is done at the path of the view. -/
theorem gathers_mergeAt (cw : FCompoundWrite) (p : List String) :
    Gathers (if p.isEmpty then cw else emptyWrite.addCompoundWrite cw p)
      (shift p cw.enumerateWrites) := by
  cases p with
  | nil =>
    rw [List.isEmpty_nil, if_pos rfl, shift_nil]
    exact cw.gathers_enumerateWrites
  | cons k p =>
    rw [List.isEmpty_cons, if_neg Bool.false_ne_true]
    exact gathers_emptyWrite.addCompoundWrite cw (k :: p)

theorem mem_childCompoundWrites {cw : FCompoundWrite} {c : String × FCompoundWrite} :
    c ∈ cw.childCompoundWrites ↔ (c.1, c.2.writeTree) ∈ cw.writeTree.children := by
  unfold childCompoundWrites
  rw [List.mem_map]
  constructor
  · rintro ⟨c', -, rfl⟩
    exact c'.2
  · exact fun h => ⟨⟨_, h⟩, List.mem_attach _ _, rfl⟩

/-- **The writes under one key of a merge**, done on the child, are the
child of the merge done. -/
theorem isEqual_applyToNode_child {cw : FCompoundWrite} {c : String × FCompoundWrite}
    (h : c ∈ cw.childCompoundWrites) (m : FNode) :
    (c.2.applyToNode (m.getImmediateChild c.1)).IsEqual
      ((cw.applyToNode m).getImmediateChild c.1) := by
  obtain ⟨t, ht⟩ := cw
  rw [mem_childCompoundWrites] at h
  cases ht with
  | written v => exact absurd h List.not_mem_nil
  | node hnodup hne hcs =>
    funext r
    rw [← FNode.getChild_singleton, ← FNode.getChild_singleton, FNode.leafAt_getChild,
      leafAt_applyToNode, leafAt_applyToNode, Patch.apply, Patch.apply, FNode.leafAt_getChild]
    have hpatch : FCompoundWrite.patch ⟨_, WellFormed.node hnodup hne hcs⟩ (c.1 :: r) =
        c.2.patch r := by
      change treePatch _ _ = _
      rw [treePatch_none_cons, get_of_mem hnodup h]
      rfl
    rw [List.singleton_append, hpatch]

/-- A path that is written, below the root, is below the key of a child. -/
theorem exists_childCompoundWrite {cw : FCompoundWrite} {k : String} {p : List String}
    (hroot : cw.completeNodeAtPath [] = none)
    (hpath : (cw.completeNodeAtPath (k :: p)).isSome = true) :
    ∃ c ∈ cw.childCompoundWrites, c.1 = k := by
  obtain ⟨t, ht⟩ := cw
  cases ht with
  | written v => cases hroot
  | @node cs hnodup hne hcs =>
    change (completeNodeIn _ _).isSome = true at hpath
    rw [completeNodeIn_none_cons] at hpath
    cases hget : get cs k with
    | none =>
      rw [hget] at hpath
      cases hpath
    | some child =>
      have hmem := Dictionary.mem_of_lookup hget
      exact ⟨(k, ⟨child, hcs _ hmem⟩), mem_childCompoundWrites.2 hmem, rfl⟩

end FCompoundWrite

/-- A merge without a leaf above a pending write, done on data without
one. -/
theorem Clear.applyToNode {ws l : List (List String × FNode)} {q : List String} {m : FNode}
    {cw : FCompoundWrite} (h : Clear ws q m) (hcw : Gathers cw l)
    (hl : ∀ w ∈ l, Clear ws (q ++ w.1) w.2) : Clear ws q (cw.applyToNode m) := by
  intro r
  rw [FCompoundWrite.leafAt_applyToNode, Patch.apply]
  cases hpatch : cw.patch r with
  | none => exact h r
  | some y =>
    cases y with
    | none => exact Or.inl rfl
    | some y =>
      -- the leaf is that of a node written
      have hleaf := hcw.leaves r
      rw [hpatch] at hleaf
      cases hwrites : writesPatch l r with
      | none =>
        rw [hwrites] at hleaf
        cases hleaf
      | some y' =>
        rw [hwrites] at hleaf
        obtain ⟨w, hw, hy⟩ := exists_of_writesPatch hwrites
        have hy' : y' = some y := hleaf.symm
        by_cases hwr : w.1 <+: r
        · obtain ⟨t, rfl⟩ := hwr
          have hclear := hl w hw t
          rw [FNode.setPatch_below] at hy
          rw [Option.some.inj hy, hy', List.append_assoc] at hclear
          exact hclear
        · by_cases hrw : r <+: w.1
          · rw [FNode.setPatch_above hwr hrw] at hy
            split at hy
            · rw [← Option.some.inj hy] at hy'
              cases hy'
            · cases hy
          · rw [FNode.setPatch_of_apart ⟨hwr, hrw⟩] at hy
            cases hy

section Server

open FViewProcessor

variable {s : FWriteTree} {q p : List String} {v : FViewCache} {old : String → FNode}
  {acc : FChildChangeAccumulator} {cw : FCompoundWrite}

/-- The children a merge is taken in for, the ones the server's data has
first. -/
def mergedChildren (v : FViewCache) (p : List String) (cw : FCompoundWrite) :
    List (String × FCompoundWrite) :=
  let am := if p.isEmpty then cw else FCompoundWrite.emptyWrite.addCompoundWrite cw p
  (am.childCompoundWrites.filter fun c => v.cachedServerSnap.node.hasChild c.1) ++
    am.childCompoundWrites.filter fun c =>
      !v.cachedServerSnap.node.hasChild c.1 &&
        !(!v.cachedServerSnap.isCompleteForChild c.1 && c.2.rootWrite.isNone)

/-- **A merge of the server is one overwrite for each child**, if the view
has data of the server. -/
theorem applyServerMergeTo_eq (writes : FWriteTreeRef) (v : FViewCache) (p : List String)
    (cw : FCompoundWrite) (acc : Option FChildChangeAccumulator) :
    applyServerMergeTo writes v p cw acc =
      if (v.cachedServerSnap.node.isEmpty && !v.cachedServerSnap.isFullyInitialized) = true then
        some (v, acc)
      else
        (mergedChildren v p cw).foldlM (fun (cur : Progress) (c : String × FCompoundWrite) =>
          applyServerOverwriteTo writes cur.1 [c.1]
            (c.2.applyToNode (v.cachedServerSnap.node.getImmediateChild c.1)) cur.2) (v, acc) := by
  unfold applyServerMergeTo mergedChildren
  dsimp only
  rw [List.foldlM_append]

/-- The new child is that of the merge done on the server's data. -/
theorem isEqual_mergedChild {c : String × FCompoundWrite} (hc : c ∈ mergedChildren v p cw) :
    (c.2.applyToNode (v.cachedServerSnap.node.getImmediateChild c.1)).IsEqual
      (((if p.isEmpty then cw else FCompoundWrite.emptyWrite.addCompoundWrite cw p).applyToNode
        v.cachedServerSnap.node).getImmediateChild c.1) := by
  refine FCompoundWrite.isEqual_applyToNode_child ?_ _
  rcases List.mem_append.1 hc with hc | hc
  exacts [(List.mem_filter.1 hc).1, (List.mem_filter.1 hc).1]

/-- **A merge of the server leaves a coherent view coherent.** -/
theorem Coherent.applyServerMergeTo (hv : Coherent s.pending q v)
    (h : Gathers s.visibleWrites s.pending)
    (hmerge : ∀ w ∈ shift p cw.enumerateWrites, Clear s.pending (q ++ w.1) w.2)
    (ht : Tracks old acc v.cachedEventSnap.node.getImmediateChild) :
    Gives old (applyServerMergeTo ⟨q, s⟩ v p cw (some acc)) (Coherent s.pending q) := by
  rw [applyServerMergeTo_eq]
  split
  · exact ⟨v, acc, rfl, ht, hv⟩
  have hclear := hv.clear.applyToNode (cw.gathers_mergeAt p) hmerge
  refine gives_foldlM (P := fun _ v' => Coherent s.pending q v') (fun c hc _ v' acc' ht' hv' => ?_)
    ht hv
  exact hv'.applyServerOverwriteTo h
    ((hclear.getChild [c.1]).congr (isEqual_mergedChild hc).symm) ht'

end Server

/-! ## Merges that repeat the server's data -/

/-- **A compound write repeats data at some paths** below another. -/
structure Repeats (m : FNode) (p : List String) (ts : List (List String)) (cw : FCompoundWrite) :
    Prop where
  gathers : Gathers cw (ts.map fun t => (t, m.getChild (p ++ t)))
  paths : ∀ e ∈ cw.enumerateWrites, e.1 ∈ ts

section Repeats

variable {m : FNode} {p : List String} {ts : List (List String)} {cw : FCompoundWrite}

theorem repeats_emptyWrite (m : FNode) (p : List String) :
    Repeats m p [] FCompoundWrite.emptyWrite :=
  ⟨gathers_emptyWrite, fun _ he => absurd he List.not_mem_nil⟩

theorem Repeats.addWrite (h : Repeats m p ts cw) (t : List String) :
    Repeats m p (ts ++ [t]) (cw.addWrite (m.getChild (p ++ t)) t) := by
  constructor
  · rw [List.map_append]
    exact h.gathers.addWrite _ t
  · intro e he
    rcases path_of_mem_addToTree cw.wellFormed _ he with hpath | ⟨e', he', hpath⟩
    · exact List.mem_append_right ts (List.mem_singleton.2 hpath)
    · exact List.mem_append_left _ (hpath ▸ h.paths e' he')

/-- Made path by path. -/
theorem repeats_foldl (m : FNode) (p : List String) (ts : List (List String)) :
    Repeats m p ts (ts.foldl (fun (cw : FCompoundWrite) t => cw.addWrite (m.getChild (p ++ t)) t)
      FCompoundWrite.emptyWrite) := by
  have hfold : ∀ (us : List (List String)) (cw : FCompoundWrite), Repeats m p us cw →
      Repeats m p (us ++ ts)
        (ts.foldl (fun (cw : FCompoundWrite) t => cw.addWrite (m.getChild (p ++ t)) t) cw) := by
    induction ts with
    | nil =>
      intro us cw h
      rw [List.append_nil]
      exact h
    | cons t ts ih =>
      intro us cw h
      have hrest := ih _ _ (h.addWrite t)
      rw [List.append_assoc] at hrest
      exact hrest
  exact hfold [] _ (repeats_emptyWrite m p)

/-- The data has no leaf above the paths. -/
def NoLeafOver (m : FNode) (p : List String) (ts : List (List String)) : Prop :=
  ∀ t ∈ ts, ∀ r, r <+: p ++ t → r ≠ p ++ t → m.leafAt r = none

/-- **Such a merge changes nothing.** -/
theorem Repeats.isEqual (h : Repeats m p ts cw) (hover : NoLeafOver m p ts) :
    ((if p.isEmpty then cw else FCompoundWrite.emptyWrite.addCompoundWrite cw p).applyToNode
      m).IsEqual m := by
  have hg := cw.gathers_mergeAt p
  funext r
  rw [FCompoundWrite.leafAt_applyToNode, Patch.apply]
  -- above a path there is no leaf to begin with
  have hplace : m.leafAt r = none ∨ ∀ t ∈ ts, ¬ (r <+: p ++ t ∧ r ≠ p ++ t) := by
    by_cases hnone : m.leafAt r = none
    · exact Or.inl hnone
    · exact Or.inr fun t ht hr => hnone (hover t ht r hr.1 hr.2)
  rw [hg.getD_patch (hplace.imp_right fun hno w hw => ?_)]
  · by_cases hpr : p <+: r
    · obtain ⟨r, rfl⟩ := hpr
      have hbelow : m.leafAt (p ++ r) = none ∨ ∀ t ∈ ts, ¬ (r <+: t ∧ r ≠ t) := by
        refine hplace.imp_right fun hno t ht hr => hno t ht ⟨?_, ?_⟩
        · exact (List.prefix_append_right_inj p).2 hr.1
        · exact fun heq => hr.2 (List.append_cancel_left heq)
      rw [writesPatch_shift, ← cw.gathers_enumerateWrites.getD_patch
        (hbelow.imp_right fun hno e he => hno e.1 (h.paths e he)),
        h.gathers.getD_patch (hbelow.imp_right fun hno w hw => ?_)]
      · -- each write gives what is there
        cases hwrites : writesPatch (ts.map fun t => (t, m.getChild (p ++ t))) r with
        | none => rfl
        | some y =>
          obtain ⟨w, hw, hy⟩ := exists_of_writesPatch hwrites
          obtain ⟨t, ht, rfl⟩ := List.mem_map.1 hw
          by_cases htr : t <+: r
          · obtain ⟨u, rfl⟩ := htr
            rw [FNode.setPatch_below, FNode.leafAt_getChild, List.append_assoc] at hy
            exact (Option.some.inj hy).symm
          · by_cases hrt : r <+: t
            · have hne : r ≠ t := fun heq => htr (heq ▸ List.prefix_rfl)
              rw [FNode.setPatch_above htr hrt] at hy
              split at hy
              · rw [hbelow.resolve_right fun hno => hno t ht ⟨hrt, hne⟩]
                exact (Option.some.inj hy).symm
              · cases hy
            · rw [FNode.setPatch_of_apart ⟨htr, hrt⟩] at hy
              cases hy
      · obtain ⟨t, ht, rfl⟩ := List.mem_map.1 hw
        exact hno t ht
    · -- no write leads here
      have hlead : ∀ w ∈ shift p cw.enumerateWrites, ¬ w.1 <+: r := by
        intro w hw hp
        obtain ⟨e, -, rfl⟩ := List.mem_map.1 hw
        exact hpr ((List.prefix_append p e.1).trans hp)
      rcases hplace with hnone | hno
      · rw [hnone]
        exact getD_writesPatch_none hlead
      · rw [writesPatch_eq_none fun w hw => ?_]
        · rfl
        · refine FNode.setPatch_of_apart ⟨hlead w hw, fun hr => ?_⟩ _
          obtain ⟨e, he, rfl⟩ := List.mem_map.1 hw
          refine hno e.1 (h.paths e he) ⟨hr, fun heq => ?_⟩
          exact hlead _ hw (heq ▸ List.prefix_rfl)
  · obtain ⟨e, he, rfl⟩ := List.mem_map.1 hw
    exact hno e.1 (h.paths e he)

/-- And it is taken in for the child that holds each path. -/
theorem Repeats.exists_child (h : Repeats m p ts cw) (hroot : ∀ t ∈ ts, p ++ t ≠ [])
    {t : List String} (ht : t ∈ ts) :
    ∃ c ∈ (if p.isEmpty then cw
      else FCompoundWrite.emptyWrite.addCompoundWrite cw p).childCompoundWrites,
      [c.1] <+: p ++ t := by
  have hg := cw.gathers_mergeAt p
  have hcomplete := (h.gathers.complete_iff t).2
    ⟨_, List.mem_map.2 ⟨t, ht, rfl⟩, List.prefix_rfl⟩
  obtain ⟨e, he, hp⟩ := (cw.gathers_enumerateWrites.complete_iff t).1 hcomplete
  have hpath := (hg.complete_iff (p ++ t)).2
    ⟨_, List.mem_map.2 ⟨e, he, rfl⟩, (List.prefix_append_right_inj p).2 hp⟩
  have hnone := hg.completeNodeAtPath_eq_none (q := []) fun w hw hnil => by
    obtain ⟨e', he', rfl⟩ := List.mem_map.1 hw
    exact hroot e'.1 (h.paths e' he') (List.prefix_nil.1 hnil)
  cases hpt : p ++ t with
  | nil => exact absurd hpt (hroot t ht)
  | cons k r =>
    rw [hpt] at hpath
    obtain ⟨c, hc, rfl⟩ := FCompoundWrite.exists_childCompoundWrite hnone hpath
    exact ⟨c, hc, List.cons_prefix_cons.2 ⟨rfl, List.nil_prefix⟩⟩

end Repeats

end DevicesTracker
