import DevicesTracker.Firebase.NewView
/-!
# Firebase — views and answered writes

When a write is answered it is taken out of the pending writes, and what a
view shows in its place is stale: below the paths it wrote, unless a later
write decides there. An acknowledged write has the server's data run over
once more at these paths; a write taken back has the child that holds it
replaced. Either way the view is coherent again, with the writes that are
left (`Coherent.ackUserWriteOn`, `Coherent.revertUserWriteOn`).
-/

namespace DevicesTracker

open FImmutableTree

section Answers

open FViewProcessor FIndexedFilter

variable {s : FWriteTree} {ws rs : List (List String × FNode)} {q p r : List String} {k : String}
  {ks : List String} {v : FViewCache} {c c' : FCacheNode} {old : String → FNode}
  {acc : FChildChangeAccumulator}

/-- What a view knows depends on the leaves of the server's data alone. -/
theorem known_congr (hfull : c.isFullyInitialized = c'.isFullyInitialized)
    (hnode : c.node.IsEqual c'.node) : Known ws q c r ↔ Known ws q c' r := by
  have hcomplete : c.isCompleteForPath r = c'.isCompleteForPath r := by
    cases r with
    | nil => exact hfull
    | cons k r =>
      change (c.isFullyInitialized || !(c.node.getImmediateChild k).isEmpty) = _
      rw [hfull, (hnode.getImmediateChild k).isEmpty_eq]
      rfl
  unfold Known
  rw [hcomplete]

/-- A place known in a child that no write decides is one of a complete
child. -/
theorem complete_of_known (h : Known ws q c (k :: r)) (hno : ¬ Shadowed ws (q ++ [k])) :
    c.isCompleteForChild k = true := (known_cons.1 h).resolve_right hno

/-- **A view that may be stale below some children.** -/
structure Stale (ws : List (List String × FNode)) (q : List String) (c : FCacheNode)
    (ks : List String) (v : FViewCache) : Prop where
  serverFull : v.cachedServerSnap.isFullyInitialized = c.isFullyInitialized
  server : v.cachedServerSnap.node.IsEqual c.node
  full : c.isFullyInitialized = true ∨ Shadowed ws q →
    v.cachedEventSnap.isFullyInitialized = true
  leaves : ∀ r, Known ws q c r →
    v.cachedEventSnap.node.leafAt r = (expected ws q c.node).leafAt r ∨
      ∃ k ∈ ks, [k] <+: r ∧ ¬ Shadowed ws (q ++ [k])

theorem Stale.coherent (h : Stale ws q c [] v) (hclear : Clear ws q c.node) :
    Coherent ws q v := by
  refine ⟨?_, fun r hknown => ?_, hclear.congr h.server.symm⟩
  · rw [h.serverFull]
    exact h.full
  · rw [known_congr h.serverFull h.server] at hknown
    rw [congrFun (h.server.expected ws q) r]
    refine (h.leaves r hknown).resolve_right ?_
    rintro ⟨k, hk, -⟩
    exact absurd hk List.not_mem_nil

/-- **A child run over once more is stale no longer.** -/
theorem Stale.applyServerOverwriteTo (hv : Stale s.pending q c (k :: ks) v)
    (h : Gathers s.visibleWrites s.pending) (hclear : Clear s.pending q c.node) {x : FNode}
    (hx : x.IsEqual (c.node.getImmediateChild k))
    (ht : Tracks old acc v.cachedEventSnap.node.getImmediateChild) :
    Gives old (applyServerOverwriteTo ⟨q, s⟩ v [k] x (some acc)) (Stale s.pending q c ks) := by
  have hxclear : Clear s.pending (q ++ [k]) x := (hclear.getChild [k]).congr hx.symm
  have hspec := applyServerOverwriteTo_spec (p := [k]) h (hclear.congr hv.server.symm) hxclear ht
    (fun hserver => hv.full (Or.inl (hv.serverFull ▸ hserver))) (Or.inr (Nat.le_refl 1))
  refine hspec.mono fun v' hv' => ?_
  obtain ⟨m, hm, hregen⟩ := hv'
  have hsame : m.IsEqual c.node := by
    have hupdate := hv.server.updateChild hx [k]
    exact hm.trans (hupdate.trans (FNode.isEqual_updateChild (FNode.IsEqual.refl _)))
  have hfull : (v.cachedServerSnap.isFullyInitialized || [k].isEmpty) = c.isFullyInitialized := by
    rw [hv.serverFull, List.isEmpty_cons, Bool.or_false]
  refine ⟨?_, ?_, fun hknown => ?_, fun r hknown => ?_⟩
  · rw [hregen.server]
    exact hfull
  · rw [hregen.server]
    exact hsame
  · exact hregen.full.2 (Or.inl (hv.full hknown))
  · by_cases hlater : ∃ k' ∈ ks, [k'] <+: r ∧ ¬ Shadowed s.pending (q ++ [k'])
    · exact Or.inr hlater
    left
    have hplace : v.cachedEventSnap.node.leafAt r = (expected s.pending q c.node).leafAt r ∨
        [k] <+: r ∧ ¬ Shadowed s.pending (q ++ [k]) := by
      refine (hv.leaves r hknown).imp_right ?_
      rintro ⟨k', hk', hr⟩
      rcases List.mem_cons.1 hk' with rfl | hk'
      exacts [hr, absurd ⟨k', hk', hr⟩ hlater]
    have hequal := congrFun (hsame.expected s.pending q) r
    by_cases hshadow : Shadowed s.pending (q ++ [k])
    · rw [hregen.shadowed hshadow]
      exact hplace.resolve_right fun hr => hr.2 hshadow
    · rw [← hequal]
      refine hregen.leaves hshadow r ((known_congr hfull hsame).2 hknown) ?_
      refine hplace.imp (fun heq => heq.trans hequal.symm) fun hr => Or.inl hr.1

/-- **A merge that repeats the server's data** makes a stale view coherent,
if each stale place is below one of its paths. -/
theorem Stale.repeatMerge {ts : List (List String)} {cw : FCompoundWrite}
    (h : Gathers s.visibleWrites s.pending)
    (hclear : Clear s.pending q v.cachedServerSnap.node)
    (hfull : v.cachedServerSnap.isFullyInitialized = true ∨ Shadowed s.pending q →
      v.cachedEventSnap.isFullyInitialized = true)
    (hrepeats : Repeats v.cachedServerSnap.node p ts cw)
    (hover : NoLeafOver v.cachedServerSnap.node p ts) (hroot : ∀ t ∈ ts, p ++ t ≠ [])
    (hleaves : ∀ r, Known s.pending q v.cachedServerSnap r →
      v.cachedEventSnap.node.leafAt r =
          (expected s.pending q v.cachedServerSnap.node).leafAt r ∨
        ¬ Shadowed s.pending (q ++ r) ∧ ∃ t ∈ ts, p ++ t <+: r)
    (ht : Tracks old acc v.cachedEventSnap.node.getImmediateChild) :
    Gives old (applyServerMergeTo ⟨q, s⟩ v p cw (some acc)) (Coherent s.pending q) := by
  have hstale : Stale s.pending q v.cachedServerSnap ((mergedChildren v p cw).map Prod.fst) v := by
    refine ⟨rfl, FNode.IsEqual.refl _, hfull, fun r hknown => (hleaves r hknown).imp_right ?_⟩
    rintro ⟨hshadow, t, ht, hp⟩
    obtain ⟨a, ha, hap⟩ := hrepeats.exists_child hroot ht
    have har := hap.trans hp
    have hno : ¬ Shadowed s.pending (q ++ [a.1]) :=
      fun hs => hshadow (hs.of_prefix ((List.prefix_append_right_inj q).2 har))
    refine ⟨a.1, List.mem_map.2 ⟨a, ?_, rfl⟩, har, hno⟩
    obtain ⟨r, rfl⟩ := har
    have hcomplete := complete_of_known hknown hno
    unfold mergedChildren
    rw [List.mem_append, List.mem_filter, List.mem_filter]
    cases hhas : v.cachedServerSnap.node.hasChild a.1 with
    | true => exact Or.inl ⟨ha, rfl⟩
    | false => exact Or.inr ⟨ha, by rw [hcomplete]; rfl⟩
  rw [applyServerMergeTo_eq]
  split
  · -- the view has no data of the server, and so knows nothing that is stale
    rename_i hnothing
    rw [Bool.and_eq_true, Bool.not_eq_true'] at hnothing
    refine ⟨v, acc, rfl, ht, Stale.coherent (c := v.cachedServerSnap) ?_ hclear⟩
    refine ⟨rfl, FNode.IsEqual.refl _, hfull, fun r hknown => ?_⟩
    left
    refine (hstale.leaves r hknown).resolve_right ?_
    rintro ⟨k, -, ⟨r, rfl⟩, hno⟩
    have hcomplete := complete_of_known hknown hno
    unfold FCacheNode.isCompleteForChild at hcomplete
    rw [hnothing.2, Bool.false_or, FNode.hasChild_eq_true, FNode.isEmpty_iff.1 hnothing.1]
      at hcomplete
    cases hcomplete
  have hequal := hrepeats.isEqual hover
  refine (gives_foldlM
    (P := fun l v' => Stale s.pending q v.cachedServerSnap (l.map Prod.fst) v')
    (fun a ha l v' acc' ht' hv' => ?_) ht hstale).mono fun v' hv' => hv'.coherent hclear
  exact hv'.applyServerOverwriteTo h hclear
    ((isEqual_mergedChild ha).trans (hequal.getImmediateChild a.1)) ht'

/-! ## After an answer -/

theorem Known.append (h : Known ws q c r) (rs : List (List String × FNode)) :
    Known (rs ++ ws) q c r := by
  refine h.imp_right ?_
  rintro ⟨w, hw, hp⟩
  exact ⟨w, List.mem_append_right rs hw, hp⟩

theorem Coherent.full_after (hv : Coherent (rs ++ ws) q v)
    (h : v.cachedServerSnap.isFullyInitialized = true ∨ Shadowed ws q) :
    v.cachedEventSnap.isFullyInitialized = true := by
  refine hv.full (h.imp_right ?_)
  rintro ⟨w, hw, hp⟩
  exact ⟨w, List.mem_append_right rs hw, hp⟩

theorem Coherent.clear_after (hv : Coherent (rs ++ ws) q v) :
    Clear ws q v.cachedServerSnap.node := hv.clear.of_subset (List.subset_append_right rs ws)

/-- **What is stale after an answer**: the places a write taken out
decided, where no other write decides. -/
theorem Coherent.leaves_after (hv : Coherent (rs ++ ws) q v)
    (hknown : Known ws q v.cachedServerSnap r) :
    v.cachedEventSnap.node.leafAt r = (expected ws q v.cachedServerSnap.node).leafAt r ∨
      ¬ Shadowed ws (q ++ r) ∧ Shadowed rs (q ++ r) := by
  rw [hv.leaves r (hknown.append rs)]
  exact (leafAt_expected_removed hv.clear r).imp_right fun hr => ⟨hr.2, hr.1⟩

/-- A view in which nothing is stale after an answer. -/
theorem Coherent.unaffected (hv : Coherent (rs ++ ws) q v)
    (hno : ∀ r, Known ws q v.cachedServerSnap r → Shadowed rs (q ++ r) → Shadowed ws (q ++ r)) :
    Coherent ws q v := by
  refine ⟨hv.full_after, fun r hknown => ?_, hv.clear_after⟩
  refine (hv.leaves_after hknown).resolve_right ?_
  rintro ⟨hshadow, hremoved⟩
  exact hshadow (hno r hknown hremoved)

/-- **The writes answered, as the operation tells a view of them**: each
place one of them decided is below an affected path, and each affected path
is the path of one. -/
structure Affects (q p : List String) (rs : List (List String × FNode))
    (affectedTree : FImmutableTree Unit) : Prop where
  covers : ∀ r, Shadowed rs (q ++ r) → ∃ e ∈ affectedTree.forEach, p ++ e.1 <+: r
  paths : ∀ e ∈ affectedTree.forEach, p ++ e.1 = [] ∨ ∃ w ∈ rs, w.1 = q ++ (p ++ e.1)

/-- An acknowledged overwrite: its path is run over once more. -/
theorem Coherent.ackOverwrite (hv : Coherent (rs ++ s.pending) q v)
    (h : Gathers s.visibleWrites s.pending)
    (hpath : ∀ r, Shadowed rs (q ++ r) → p <+: r)
    (hcomplete : v.cachedServerSnap.isCompleteForPath p = true)
    (ht : Tracks old acc v.cachedEventSnap.node.getImmediateChild) :
    Gives old
      (FViewProcessor.applyServerOverwriteTo ⟨q, s⟩ v p (v.cachedServerSnap.node.getChild p)
        (some acc)) (Coherent s.pending q) := by
  have hspec := applyServerOverwriteTo_spec h hv.clear_after (hv.clear_after.getChild p) ht
    (fun hserver => hv.full_after (Or.inl hserver)) (Or.inl hcomplete)
  refine hspec.mono fun v' hv' => ?_
  obtain ⟨m, hm, hregen⟩ := hv'
  have hsame := hm.trans (FNode.isEqual_updateChild (FNode.IsEqual.refl _))
  have hfull : (v.cachedServerSnap.isFullyInitialized || p.isEmpty) =
      v.cachedServerSnap.isFullyInitialized := by
    cases p with
    | nil =>
      change v.cachedServerSnap.isFullyInitialized = true at hcomplete
      rw [hcomplete]
      rfl
    | cons k p => rw [List.isEmpty_cons, Bool.or_false]
  rw [hfull] at hregen
  refine hregen.coherent (hv.clear_after.congr hsame.symm)
    (fun hknown => Or.inl (hv.full_after hknown)) fun r hknown => ?_
  have hiff : Known s.pending q ⟨m, v.cachedServerSnap.isFullyInitialized⟩ r ↔
      Known s.pending q v.cachedServerSnap r := known_congr rfl hsame
  have hequal := congrFun (hsame.expected s.pending q) r
  refine (hv.leaves_after (hiff.1 hknown)).imp (fun heq => heq.trans hequal.symm) ?_
  rintro ⟨hshadow, hremoved⟩
  have hpr := hpath r hremoved
  refine ⟨fun hs => hshadow (hs.of_prefix ?_), Or.inr (Or.inl hpr)⟩
  exact (List.prefix_append_right_inj q).2 hpr

/-- Data with a child is no leaf. -/
theorem noLeafOver_childKeys (m : FNode) :
    NoLeafOver m [] (m.childKeys.map fun k => [k]) := by
  intro t ht r hr hne
  obtain ⟨k, hk, rfl⟩ := List.mem_map.1 ht
  have hhas := FNode.hasChild_eq_true.1 (FNode.mem_childKeys.1 hk)
  exact FNode.leafAt_eq_none_above hr hne hhas

/-- An acknowledged overwrite of all the data of an incomplete view: the
children it knows are run over. -/
theorem Coherent.ackChildren {cw : FCompoundWrite} (hv : Coherent (rs ++ s.pending) q v)
    (h : Gathers s.visibleWrites s.pending) (hshadow : ¬ Shadowed s.pending q)
    (hcomplete : v.cachedServerSnap.isFullyInitialized = false)
    (hrepeats : Repeats v.cachedServerSnap.node []
      (v.cachedServerSnap.node.childKeys.map fun k => [k]) cw)
    (ht : Tracks old acc v.cachedEventSnap.node.getImmediateChild) :
    Gives old (FViewProcessor.applyServerMergeTo ⟨q, s⟩ v [] cw (some acc))
      (Coherent s.pending q) := by
  refine Stale.repeatMerge h hv.clear_after hv.full_after hrepeats
    (noLeafOver_childKeys v.cachedServerSnap.node) (fun t ht => ?_) (fun r hknown => ?_) ht
  · obtain ⟨k, -, rfl⟩ := List.mem_map.1 ht
    exact List.cons_ne_nil k []
  · refine (hv.leaves_after hknown).imp_right fun hr => ⟨hr.1, ?_⟩
    cases r with
    | nil =>
      exact absurd (known_nil.1 hknown) (not_or.2 ⟨Bool.eq_false_iff.1 hcomplete, hshadow⟩)
    | cons k r =>
      have hno : ¬ Shadowed s.pending (q ++ [k]) := fun hs =>
        hr.1 (hs.of_prefix ((List.prefix_append_right_inj q).2
          (List.cons_prefix_cons.2 ⟨rfl, List.nil_prefix⟩)))
      have hhas := complete_of_known hknown hno
      unfold FCacheNode.isCompleteForChild at hhas
      rw [hcomplete, Bool.false_or] at hhas
      exact ⟨[k], List.mem_map.2 ⟨k, FNode.mem_childKeys.2 hhas, rfl⟩,
        List.cons_prefix_cons.2 ⟨rfl, List.nil_prefix⟩⟩

/-- An acknowledged merge: those of its paths are run over at which the view
has the server's data. -/
theorem Coherent.ackMerge {affectedTree : FImmutableTree Unit} {cw : FCompoundWrite}
    (hv : Coherent (rs ++ s.pending) q v) (h : Gathers s.visibleWrites s.pending)
    (haffects : Affects q p rs affectedTree) (hroot : ∀ e ∈ affectedTree.forEach, p ++ e.1 ≠ [])
    (hrepeats : Repeats v.cachedServerSnap.node p
      ((affectedTree.forEach.filter fun e =>
        v.cachedServerSnap.isCompleteForPath (p ++ e.1)).map Prod.fst) cw)
    (ht : Tracks old acc v.cachedEventSnap.node.getImmediateChild) :
    Gives old (FViewProcessor.applyServerMergeTo ⟨q, s⟩ v p cw (some acc))
      (Coherent s.pending q) := by
  refine Stale.repeatMerge h hv.clear_after hv.full_after hrepeats (fun t ht r hr hne => ?_)
    (fun t ht => ?_) (fun r hknown => ?_) ht
  · obtain ⟨e, he, rfl⟩ := List.mem_map.1 ht
    have hmem := (List.mem_filter.1 he).1
    obtain ⟨w, hw, hwe⟩ := (haffects.paths e hmem).resolve_left (hroot e hmem)
    refine (hv.clear r).resolve_right fun hno => hno w (List.mem_append_left _ hw) ?_
    rw [hwe]
    exact ⟨(List.prefix_append_right_inj q).2 hr, fun heq => hne (List.append_cancel_left heq)⟩
  · obtain ⟨e, he, rfl⟩ := List.mem_map.1 ht
    exact hroot e (List.mem_filter.1 he).1
  · refine (hv.leaves_after hknown).imp_right fun hr => ⟨hr.1, ?_⟩
    obtain ⟨e, he, hp⟩ := haffects.covers r hr.2
    refine ⟨e.1, List.mem_map.2 ⟨e, List.mem_filter.2 ⟨he, ?_⟩, rfl⟩, hp⟩
    -- the child that holds the path holds the place
    obtain ⟨t, rfl⟩ := hp
    cases hpe : p ++ e.1 with
    | nil => exact absurd hpe (hroot e he)
    | cons k u =>
      rw [hpe] at hknown hr
      refine complete_of_known hknown fun hs => hr.1 (hs.of_prefix ?_)
      exact (List.prefix_append_right_inj q).2
        (List.cons_prefix_cons.2 ⟨rfl, List.nil_prefix⟩)

/-- **An acknowledged write leaves a coherent view coherent**, with the
writes that are left. -/
theorem Coherent.ackUserWriteOn {affectedTree : FImmutableTree Unit}
    (hv : Coherent (rs ++ s.pending) q v) (h : Gathers s.visibleWrites s.pending)
    (haffects : Affects q p rs affectedTree)
    (ht : Tracks old acc v.cachedEventSnap.node.getImmediateChild) :
    Gives old (ackUserWriteOn ⟨q, s⟩ v p affectedTree (some acc)) (Coherent s.pending q) := by
  have hpath : ∀ r, Shadowed rs (q ++ r) → p <+: r := by
    intro r hr
    obtain ⟨e, -, hp⟩ := haffects.covers r hr
    exact (List.prefix_append p e.1).trans hp
  unfold FViewProcessor.ackUserWriteOn
  dsimp only
  by_cases hshadow : Shadowed s.pending (q ++ p)
  · rw [if_pos ((isSome_shadowingWrite_iff h).2 hshadow)]
    refine ⟨v, acc, rfl, ht, hv.unaffected fun r _ hr => hshadow.of_prefix ?_⟩
    exact (List.prefix_append_right_inj q).2 (hpath r hr)
  rw [if_neg ((isSome_shadowingWrite_iff h).not.2 hshadow)]
  by_cases hvalue : affectedTree.value.isSome = true
  · rw [if_pos hvalue]
    by_cases hcomplete : v.cachedServerSnap.isCompleteForPath p = true
    · rw [if_pos hcomplete]
      exact hv.ackOverwrite h hpath hcomplete ht
    rw [if_neg hcomplete]
    cases p with
    | cons k p =>
      -- the view knows no more of the child than that
      rw [List.isEmpty_cons, if_neg Bool.false_ne_true]
      refine ⟨v, acc, rfl, ht, hv.unaffected fun r hknown hr => ?_⟩
      obtain ⟨t, rfl⟩ := hpath r hr
      have hchild := hknown.resolve_left hcomplete
      exact hchild.of_prefix ((List.prefix_append_right_inj q).2 (List.take_prefix 1 _))
    | nil =>
      rw [List.isEmpty_nil, if_pos rfl]
      rw [List.append_nil] at hshadow
      have hrepeats := repeats_foldl v.cachedServerSnap.node []
        (v.cachedServerSnap.node.childKeys.map fun k => [k])
      rw [List.foldl_map] at hrepeats
      exact hv.ackChildren h hshadow (Bool.eq_false_iff.2 hcomplete) hrepeats ht
  · rw [if_neg hvalue]
    have hnil : ∀ e ∈ affectedTree.forEach, e.1 ≠ [] := by
      intro e he
      obtain ⟨value, cs⟩ := affectedTree
      obtain rfl : value = none := Option.not_isSome_iff_eq_none.1 hvalue
      obtain ⟨c, -, e', -, rfl⟩ := mem_forEach_node.1 he
      exact List.cons_ne_nil c.1 e'.1
    have hrepeats := repeats_foldl v.cachedServerSnap.node p
      ((affectedTree.forEach.filter fun e =>
        v.cachedServerSnap.isCompleteForPath (p ++ e.1)).map Prod.fst)
    rw [List.foldl_map, List.foldl_filter] at hrepeats
    exact hv.ackMerge h haffects (fun e he heq => hnil e he (List.append_eq_nil_iff.1 heq).2)
      hrepeats ht

/-! ## After a write is taken back -/

/-- The child that held the write is replaced. -/
theorem Coherent.revertChild (hv : Coherent (rs ++ s.pending) q v)
    (h : Gathers s.visibleWrites s.pending) {t : List String}
    (hpath : ∀ r, Shadowed rs (q ++ r) → k :: t <+: r)
    (ht : Tracks old acc v.cachedEventSnap.node.getImmediateChild) :
    ∃ n acc', FViewProcessor.revertChild ⟨q, s⟩ v k t (some acc) = some (n, some acc') ∧
      Tracks old acc' n.getImmediateChild ∧ Shows s.pending q v.cachedServerSnap n := by
  have hleaves : ∀ r, Known s.pending q v.cachedServerSnap r → ¬ k :: t <+: r →
      v.cachedEventSnap.node.leafAt r =
        (expected s.pending q v.cachedServerSnap.node).leafAt r :=
    fun r hknown hr => (hv.leaves_after hknown).resolve_right fun hs => hr (hpath r hs.2)
  have hother : ∀ {j : String} {r : List String}, j ≠ k → ¬ k :: t <+: j :: r :=
    fun hj hp => hj (List.cons_prefix_cons.1 hp).1.symm
  have hspec := completeChild_spec h hv.clear_after k
  unfold FViewProcessor.revertChild childAfterRevert
  dsimp only
  cases hchild : (FWriteTreeRef.mk q s).calculateCompleteChild k v.cachedServerSnap with
  | some u =>
    rw [hchild] at hspec
    have hsame : ((v.cachedEventSnap.node.getImmediateChild k).getChild t).IsEqual
        (u.getChild t) → (v.cachedEventSnap.node.getImmediateChild k).IsEqual u := by
      intro hsame
      funext r
      by_cases htr : t <+: r
      · obtain ⟨r, rfl⟩ := htr
        have hleaf := congrFun hsame r
        rw [FNode.leafAt_getChild, FNode.leafAt_getChild] at hleaf
        exact hleaf
      · have hleaf := hleaves (k :: r) hspec.1 fun hp => htr (List.cons_prefix_cons.1 hp).2
        rw [congrFun hspec.2 r, ← FNode.getChild_singleton, ← FNode.getChild_singleton,
          FNode.leafAt_getChild, FNode.leafAt_getChild]
        exact hleaf
    obtain ⟨n, acc', hupdate, hn, ht'⟩ := updateChildIn_spec ht fun hs _ => hsame hs
    refine ⟨n, acc', hupdate, ht', fun r hknown => (congrFun hn r).trans ?_⟩
    refine Mended.leafAt ?_ hspec.2
    by_cases hkr : [k] <+: r
    · exact Or.inr (Or.inl hkr)
    · refine Or.inl (hleaves r hknown fun hp => hkr ?_)
      exact (List.cons_prefix_cons.2 ⟨rfl, List.nil_prefix⟩ : [k] <+: k :: t).trans hp
  | none =>
    rw [hchild] at hspec
    have hcomplete : v.cachedServerSnap.isCompleteForChild k = false :=
      Bool.eq_false_iff.2 fun hc => hspec (Or.inl hc)
    -- the child is not known, so nothing is said of it
    have hunknown : ∀ {n : FNode}, (∀ j r, j ≠ k →
        n.leafAt (j :: r) = v.cachedEventSnap.node.leafAt (j :: r)) →
        Shows s.pending q v.cachedServerSnap n := by
      intro n hn r hknown
      cases r with
      | nil =>
        refine absurd ?_ hspec
        refine (known_nil.1 hknown).imp (fun hf => ?_) fun hs => hs.append [k]
        change (v.cachedServerSnap.isFullyInitialized || _) = true
        rw [hf, Bool.true_or]
      | cons j r =>
        have hj : j ≠ k := by
          rintro rfl
          exact hspec hknown
        exact (hn j r hj).trans (hleaves _ hknown (hother hj))
    dsimp only
    rw [hcomplete, if_neg Bool.false_ne_true]
    cases hhas : v.cachedEventSnap.node.hasChild k with
    | false =>
      rw [if_neg Bool.false_ne_true]
      exact ⟨_, acc, rfl, ht, hunknown fun _ _ _ => rfl⟩
    | true =>
      rw [if_pos rfl]
      have hgone : (v.cachedEventSnap.node.getImmediateChild k).isEmpty ≠
          FNode.emptyNode.isEmpty := by
        rw [FNode.hasChild_eq_true.1 hhas]
        exact Bool.false_ne_true
      obtain ⟨n, acc', hupdate, hn, ht'⟩ := updateChildIn_spec (p := t) ht
        fun _ hsame => absurd hsame hgone
      refine ⟨n, acc', hupdate, ht', hunknown fun j r hj => ?_⟩
      rw [congrFun hn, FNode.leafAt_updateChild, Patch.apply, FNode.setPatch_cons_cons, if_neg hj]
      rfl

/-- **A write taken back leaves a coherent view coherent**, with the writes
that are left. -/
theorem Coherent.revertUserWriteOn (hv : Coherent (rs ++ s.pending) q v)
    (h : Gathers s.visibleWrites s.pending) (hpath : ∀ r, Shadowed rs (q ++ r) → p <+: r)
    (ht : Tracks old acc v.cachedEventSnap.node.getImmediateChild) :
    Gives old (revertUserWriteOn ⟨q, s⟩ v p (some acc)) (Coherent s.pending q) := by
  have hcomplete : v.cachedServerSnap.isFullyInitialized = true ∨ Shadowed s.pending q →
      (v.cachedServerSnap.isFullyInitialized ||
        ((FWriteTreeRef.mk q s).shadowingWriteAtPath []).isSome) = true := by
    intro hknown
    rw [Bool.or_eq_true, isSome_shadowingWrite_iff h, List.append_nil]
    exact hknown
  have hdone : ∀ {n : FNode} {acc' : FChildChangeAccumulator},
      Tracks old acc' n.getImmediateChild → Shows s.pending q v.cachedServerSnap n →
      Gives old (some (v.updateEventSnap n (v.cachedServerSnap.isFullyInitialized ||
        ((FWriteTreeRef.mk q s).shadowingWriteAtPath []).isSome), some acc'))
        (Coherent s.pending q) :=
    fun ht' hshows => ⟨_, _, rfl, ht', hcomplete, hshows, hv.clear_after⟩
  unfold FViewProcessor.revertUserWriteOn
  dsimp only
  by_cases hshadow : Shadowed s.pending (q ++ p)
  · rw [if_pos ((isSome_shadowingWrite_iff h).2 hshadow)]
    refine ⟨v, acc, rfl, ht, hv.unaffected fun r _ hr => hshadow.of_prefix ?_⟩
    exact (List.prefix_append_right_inj q).2 (hpath r hr)
  rw [if_neg ((isSome_shadowingWrite_iff h).not.2 hshadow)]
  cases p with
  | nil =>
    rw [List.append_nil] at hshadow
    obtain ⟨n, hn, hshows⟩ : ∃ n, nodeAfterRevert ⟨q, s⟩ v = some n ∧
        Shows s.pending q v.cachedServerSnap n := by
      unfold nodeAfterRevert
      dsimp only
      by_cases hfull : v.cachedServerSnap.isFullyInitialized = true
      · obtain ⟨n, hn, hequal⟩ := completeEventCache_spec h hv.clear_after
        unfold FViewCache.completeServerSnap
        rw [if_pos hfull, if_pos hfull]
        exact ⟨n, hn, fun r _ => congrFun hequal r⟩
      · rw [if_neg hfull]
        exact ⟨_, rfl, shows_completeEventChildren h hv.clear_after hfull hshadow⟩
    obtain ⟨acc', hupdate, ht'⟩ := updateFullNode_spec ht n
    dsimp only
    rw [hn]
    dsimp only [Option.bind_eq_bind, Option.bind_some]
    rw [hupdate]
    exact hdone ht' hshows
  | cons k t =>
    obtain ⟨n, acc', hchild, ht', hshows⟩ := hv.revertChild h hpath ht
    dsimp only
    rw [hchild]
    dsimp only [Option.bind_eq_bind, Option.bind_some]
    split
    · rename_i hempty
      rw [Bool.and_eq_true] at hempty
      obtain ⟨n', hn', hequal⟩ := completeEventCache_spec h hv.clear_after
      unfold FViewCache.completeServerSnap
      rw [if_pos hempty.2, hn']
      dsimp only [Option.bind_some]
      split
      · obtain ⟨acc'', hupdate, ht''⟩ := updateFullNode_spec ht' n'
        rw [hupdate]
        exact hdone ht'' fun r _ => congrFun hequal r
      · exact hdone ht' hshows
    · exact hdone ht' hshows

end Answers

end DevicesTracker
