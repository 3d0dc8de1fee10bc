import DevicesTracker.Firebase.CompoundWrite
/-!
# Firebase — what a compound write does

`patch` is what a compound write does to the leaves of a node: applying it
does that (`leafAt_applyToNode`), and gathering one more write is doing
that write last (`getD_patch_addWrite`). The one place where this fails is
a leaf above a write that was taken back: a tree of writes cannot say that
the leaf was there to be removed, so each law that needs it asks that none
be.
-/

namespace DevicesTracker

open FImmutableSortedDictionary

namespace FImmutableTree

open FCompoundWrite

variable {cs : List (String × FImmutableTree FNode)} {t : FImmutableTree FNode}

/-! ## What a tree of writes does to the leaves -/

/-- Whether some node written in the tree is not empty. -/
def writesNode (writeTree : FImmutableTree FNode) : Bool :=
  writeTree.containsValueMatching fun n => !n.isEmpty

/-- **What a tree of writes does to the leaves**: at and below a written
node they are the node's; above the nodes written there is none, unless
all of them are empty. -/
def treePatch (writeTree : FImmutableTree FNode) : Patch (List String) (Option LeafValue)
  | [] =>
    match writeTree.value with
    | some v => some (v.leafAt [])
    | none => if writesNode writeTree then some none else none
  | k :: q =>
    match writeTree.value with
    | some v => some (v.leafAt (k :: q))
    | none => (get writeTree.children k).bind fun child => treePatch child q

@[simp] theorem treePatch_some (v : FNode) (cs : List (String × FImmutableTree FNode))
    (q : List String) : treePatch (mk (some v) cs) q = some (v.leafAt q) := by
  cases q <;> rfl

@[simp] theorem treePatch_none_nil :
    treePatch (mk none cs) [] = if writesNode (mk none cs) then some none else none := rfl

@[simp] theorem treePatch_none_cons (k : String) (q : List String) :
    treePatch (mk none cs) (k :: q) = (get cs k).bind fun child => treePatch child q := rfl

@[simp] theorem treePatch_empty (q : List String) : treePatch empty q = none := by
  cases q <;> rfl

/-- Above the nodes written no leaf is given. -/
theorem getD_treePatch_none_nil : (treePatch (mk none cs) []).getD none = none := by
  rw [treePatch_none_nil]
  split <;> rfl

theorem treePatch_getD_empty (k : String) (q : List String) :
    treePatch ((get cs k).getD empty) q = treePatch (mk none cs) (k :: q) := by
  rw [treePatch_none_cons]
  cases get cs k with
  | some child => rfl
  | none => exact treePatch_empty q

/-- Where the tree is complete it gives the leaf of the complete node. -/
theorem treePatch_of_complete {q : List String} {m : FNode}
    (h : completeNodeIn t q = some m) : treePatch t q = some (m.leafAt []) := by
  induction q generalizing t with
  | nil =>
    obtain ⟨value, cs⟩ := t
    cases value with
    | none => cases h
    | some v =>
      rw [completeNodeIn_some] at h
      rw [treePatch_some, ← Option.some.inj h]
      rfl
  | cons k q ih =>
    obtain ⟨value, cs⟩ := t
    cases value with
    | some v =>
      rw [completeNodeIn_some] at h
      rw [treePatch_some, ← Option.some.inj h, FNode.leafAt_getChild, List.append_nil]
    | none =>
      rw [completeNodeIn_none_cons, Option.bind_eq_some_iff] at h
      obtain ⟨child, hget, hchild⟩ := h
      rw [treePatch_none_cons, hget, Option.bind_some, ih hchild]

/-- **One more write is that write done last**, at a place where there was
no leaf or that is not above the write. -/
theorem getD_treePatch_addToTree (h : WellFormed t) (n : FNode) (p q : List String)
    {x : Option LeafValue} (hx : x = none ∨ ¬ (q <+: p ∧ q ≠ p)) :
    (treePatch (addToTree n p t) q).getD x =
      (FNode.setPatch p n q).getD ((treePatch t q).getD x) := by
  induction p generalizing t q with
  | nil =>
    have hval : addToTree n [] t = ofValue n := rfl
    rw [hval, ofValue, treePatch_some, FNode.setPatch_nil]
    rfl
  | cons k p ih =>
    cases h with
    | written v =>
      rw [addToTree_some, ofValue, treePatch_some, treePatch_some, FNode.leafAt_updateChild]
      rfl
    | @node cs hnodup hne hcs =>
      have hnode := WellFormed.node hnodup hne hcs
      rw [addToTree_none_cons hnode]
      cases q with
      | nil =>
        -- the place is above the write, so there was no leaf
        have hnone : x = none := hx.resolve_right fun hn => hn ⟨List.nil_prefix, by simp⟩
        rw [hnone, getD_treePatch_none_nil, getD_treePatch_none_nil, FNode.setPatch_cons_nil]
        split <;> rfl
      | cons k' q =>
        rw [treePatch_none_cons, get_insertKey, FNode.setPatch_cons_cons]
        by_cases hk : k' = k
        · subst hk
          have hx' : x = none ∨ ¬ (q <+: p ∧ q ≠ p) := by
            refine hx.imp_right fun hn hq => hn ⟨List.cons_prefix_cons.2 ⟨rfl, hq.1⟩, ?_⟩
            exact fun heq => hq.2 (List.cons.inj heq).2
          rw [if_pos rfl, if_pos rfl, Option.bind_some, ih (hnode.getD k') q hx',
            treePatch_getD_empty]
        · rw [if_neg hk, if_neg hk, treePatch_none_cons]
          rfl

/-! ## Applying a tree of writes -/

section Apply

variable {rel q : List String}

/-- What a tree of writes does to the leaves when applied at a path. -/
def subtreePatch (path : List String) (writeTree : FImmutableTree FNode) :
    Patch (List String) (Option LeafValue) := fun q =>
  if path <+: q then treePatch writeTree (q.drop path.length)
  else if q <+: path ∧ writesNode writeTree = true then some none
  else none

theorem writesNode_mk_none : writesNode (mk none cs) = cs.any fun c => writesNode c.2 := by
  have hchildren : ∀ f : FNode → Bool,
      childrenContainValueMatching f cs = cs.any fun c => containsValueMatching f c.2 := by
    intro f
    induction cs with
    | nil => rfl
    | cons c cs ih => rw [childrenContainValueMatching, ih, List.any_cons]
  rw [writesNode, containsValueMatching, hchildren]
  rfl

theorem subtreePatch_of_apart (h : KeyedTree.Apart rel q) (t : FImmutableTree FNode) :
    subtreePatch rel t q = none := by
  rw [subtreePatch, if_neg h.1, if_neg fun hq => h.2 hq.1]

/-- Strictly above the path only that something is written shows. -/
theorem subtreePatch_above (hpq : ¬ rel <+: q) (hqp : q <+: rel) (t : FImmutableTree FNode) :
    subtreePatch rel t q = if writesNode t = true then some none else none := by
  rw [subtreePatch, if_neg hpq]
  exact if_congr (and_iff_right hqp) rfl rfl

theorem subtreePatch_below (rel q : List String) (t : FImmutableTree FNode) :
    subtreePatch rel t (rel ++ q) = treePatch t q := by
  rw [subtreePatch, if_pos (List.prefix_append rel q), List.drop_left]

theorem subtreePatch_written (rel : List String) (v : FNode) :
    subtreePatch rel (mk (some v) []) = FNode.setPatch rel v := by
  have hwrites : writesNode (mk (some v) []) = !v.isEmpty := by
    simp [writesNode, containsValueMatching, childrenContainValueMatching]
  ext q : 1
  unfold subtreePatch FNode.setPatch KeyedTree.setPatch
  rw [treePatch_some, hwrites]
  simp only [Bool.not_eq_true']
  rfl

/-- The child under the first key alone decides below the path. -/
theorem all_subtreePatch_below (hnodup : (cs.map Prod.fst).Nodup) (rel : List String) (k : String)
    (q : List String) :
    Patch.all (cs.map fun c => subtreePatch (rel ++ [c.1]) c.2) (rel ++ k :: q) =
      (get cs k).bind fun child => treePatch child q := by
  induction cs with
  | nil => rfl
  | cons c cs ih =>
    obtain ⟨k', child⟩ := c
    rw [List.map_cons, List.nodup_cons] at hnodup
    rw [List.map_cons, Patch.all_cons, Patch.andThen_apply, ih hnodup.2, get_cons]
    by_cases hk : k = k'
    · subst hk
      have hrest : get cs k = none := by
        by_contra hne
        obtain ⟨child', hget⟩ := Option.ne_none_iff_exists'.1 hne
        exact hnodup.1 (List.mem_map.2 ⟨(k, child'), Dictionary.mem_of_lookup hget, rfl⟩)
      have hsplit : rel ++ k :: q = (rel ++ [k]) ++ q := by simp
      rw [hrest, if_pos rfl, Option.bind_none, Option.none_or, Option.bind_some, hsplit,
        subtreePatch_below]
    · have hapart : KeyedTree.Apart (rel ++ [k']) (rel ++ k :: q) :=
        (KeyedTree.apart_append_left rel).2 (KeyedTree.apart_cons_of_ne (Ne.symm hk) [] q)
      rw [if_neg hk, subtreePatch_of_apart hapart, Option.or_none]

/-- At the path and above it any child that writes decides. -/
theorem all_subtreePatch_above (hqp : q <+: rel) :
    Patch.all (cs.map fun c => subtreePatch (rel ++ [c.1]) c.2) q =
      if (cs.any fun c => writesNode c.2) = true then some none else none := by
  induction cs with
  | nil => rfl
  | cons c cs ih =>
    have hpq : ¬ rel ++ [c.1] <+: q := by
      intro h
      have hlen := h.length_le
      have hlen' := hqp.length_le
      rw [List.length_append, List.length_singleton] at hlen
      omega
    rw [List.map_cons, Patch.all_cons, Patch.andThen_apply, ih,
      subtreePatch_above hpq (hqp.trans (List.prefix_append rel _)), List.any_cons]
    cases writesNode c.2 <;> cases (cs.any fun c => writesNode c.2) <;> rfl

theorem all_subtreePatch_of_apart (h : KeyedTree.Apart rel q) :
    Patch.all (cs.map fun c => subtreePatch (rel ++ [c.1]) c.2) q = none := by
  refine Patch.all_eq_none fun a ha => ?_
  obtain ⟨c, -, rfl⟩ := List.mem_map.1 ha
  have hapart : KeyedTree.Apart (rel ++ [c.1]) (q ++ []) := h.append [c.1] []
  rw [List.append_nil] at hapart
  exact subtreePatch_of_apart hapart c.2

/-- A node's writes are its children's. -/
theorem subtreePatch_mk_none (hnodup : (cs.map Prod.fst).Nodup) (rel : List String) :
    subtreePatch rel (mk none cs) =
      Patch.all (cs.map fun c => subtreePatch (rel ++ [c.1]) c.2) := by
  ext q : 1
  by_cases hpq : rel <+: q
  · obtain ⟨r, rfl⟩ := hpq
    rw [subtreePatch_below]
    cases r with
    | nil =>
      rw [treePatch_none_nil, writesNode_mk_none,
        all_subtreePatch_above (by rw [List.append_nil])]
    | cons k r => rw [treePatch_none_cons, all_subtreePatch_below hnodup]
  · by_cases hqp : q <+: rel
    · rw [subtreePatch_above hpq hqp, writesNode_mk_none, all_subtreePatch_above hqp]
    · rw [subtreePatch_of_apart ⟨hpq, hqp⟩, all_subtreePatch_of_apart ⟨hpq, hqp⟩]

/-- Applying the children one after another does what each does. -/
theorem leafAt_applyChildWrites
    (hcs : ∀ c ∈ cs, ∀ (rel : List String) (node : FNode),
      (applySubtreeWrite c.2 rel node).leafAt = (subtreePatch rel c.2).apply node.leafAt)
    (rel : List String) (node : FNode) :
    (applyChildWrites cs rel node).leafAt =
      (Patch.all (cs.map fun c => subtreePatch (rel ++ [c.1]) c.2)).apply node.leafAt := by
  induction cs generalizing node with
  | nil => rfl
  | cons c cs ih =>
    obtain ⟨k, child⟩ := c
    rw [applyChildWrites, ih fun c hc => hcs c (List.mem_cons_of_mem _ hc),
      hcs (k, child) List.mem_cons_self, List.map_cons, Patch.all_cons, Patch.apply_andThen]

/-- **Applying a tree of writes at a path does its patch there.** -/
theorem leafAt_applySubtreeWrite (h : WellFormed t) (rel : List String) (node : FNode) :
    (applySubtreeWrite t rel node).leafAt = (subtreePatch rel t).apply node.leafAt := by
  induction h generalizing rel node with
  | written v => rw [applySubtreeWrite, subtreePatch_written, FNode.leafAt_updateChild]
  | node hnodup hne hcs ih =>
    rw [applySubtreeWrite, subtreePatch_mk_none hnodup, leafAt_applyChildWrites ih]

end Apply

/-- A tree that writes something has a complete path. -/
theorem exists_complete_of_writesNode (h : WellFormed t) (hw : writesNode t = true) :
    ∃ r, (completeNodeIn t r).isSome = true := by
  induction h with
  | written v => exact ⟨[], by rw [completeNodeIn_some]; rfl⟩
  | node hnodup hne hcs ih =>
    rw [writesNode_mk_none, List.any_eq_true] at hw
    obtain ⟨c, hc, hwc⟩ := hw
    obtain ⟨r, hr⟩ := ih c hc hwc
    refine ⟨c.1 :: r, ?_⟩
    rw [completeNodeIn_none_cons, get_of_mem hnodup hc]
    exact hr

/-- A tree with no complete path at a place or below leaves it alone. -/
theorem treePatch_eq_none (h : WellFormed t) {q : List String}
    (hq : ∀ r, completeNodeIn t (q ++ r) = none) : treePatch t q = none := by
  induction q generalizing t with
  | nil =>
    cases h with
    | written v =>
      have hroot := hq []
      rw [List.append_nil, completeNodeIn_some] at hroot
      cases hroot
    | @node cs hnodup hne hcs =>
      have hw : writesNode (mk none cs) = false := by
        by_contra hw
        obtain ⟨r, hr⟩ := exists_complete_of_writesNode (.node hnodup hne hcs)
          (Bool.not_eq_false _ ▸ hw)
        rw [show completeNodeIn (mk none cs) r = none from hq r] at hr
        cases hr
      rw [treePatch_none_nil, hw]
      rfl
  | cons k q ih =>
    cases h with
    | written v =>
      have hroot := hq []
      rw [completeNodeIn_some] at hroot
      cases hroot
    | node hnodup hne hcs =>
      rw [← treePatch_getD_empty]
      refine ih ((WellFormed.node hnodup hne hcs).getD k) fun r => ?_
      rw [completeNodeIn_getD_empty]
      exact hq r

/-! ## Taking writes away, and the writes below a path -/

/-- **Taking away the writes at a path and below**, where none above it is
complete, laid over an empty node. -/
theorem getD_treePatch_removeTree {p : List String}
    (h : ∀ p', p' <+: p → p' ≠ p → completeNodeIn t p' = none) (q : List String) :
    (treePatch (setTree empty p t) q).getD none =
      if p <+: q then none else (treePatch t q).getD none := by
  induction p generalizing t q with
  | nil =>
    rw [if_pos List.nil_prefix, setTree, treePatch_empty]
    rfl
  | cons k p ih =>
    obtain ⟨value, cs⟩ := t
    cases value with
    | some v =>
      have hroot := h [] List.nil_prefix (by simp)
      rw [completeNodeIn_some] at hroot
      cases hroot
    | none =>
      obtain ⟨cs', hset, hget⟩ := setTree_empty_cons cs k p
      rw [hset]
      cases q with
      | nil => rw [getD_treePatch_none_nil, getD_treePatch_none_nil, if_neg (by simp)]
      | cons k' q =>
        rw [← treePatch_getD_empty, ← treePatch_getD_empty, hget k']
        by_cases hk : k' = k
        · subst hk
          have hsub : ∀ p', p' <+: p → p' ≠ p →
              completeNodeIn ((get cs k').getD empty) p' = none := by
            intro p' hp' hne
            rw [completeNodeIn_getD_empty]
            exact h (k' :: p') (List.cons_prefix_cons.2 ⟨rfl, hp'⟩)
              fun heq => hne (List.cons.inj heq).2
          rw [if_pos rfl, ih hsub]
          simp only [List.cons_prefix_cons, true_and]
        · rw [if_neg hk, if_neg fun hp => hk (List.cons_prefix_cons.1 hp).1.symm]

/-- Where nothing is complete the writes below a path are the subtree's. -/
theorem treePatch_subtreeAtPath {p : List String} (h : completeNodeIn t p = none)
    (q : List String) : treePatch (subtreeAtPath p t) q = treePatch t (p ++ q) := by
  induction p generalizing t with
  | nil => rfl
  | cons k p ih =>
    obtain ⟨value, cs⟩ := t
    cases value with
    | some v =>
      rw [completeNodeIn_some] at h
      cases h
    | none =>
      rw [← completeNodeIn_getD_empty] at h
      rw [List.cons_append, ← treePatch_getD_empty, ← ih h, subtreeAtPath]
      cases get cs k with
      | some child => rfl
      | none =>
        have hempty : subtreeAtPath p (empty : FImmutableTree FNode) = empty := by
          cases p <;> rfl
        rw [Option.getD_none, hempty]

end FImmutableTree

/-! ## Compound writes -/

namespace FCompoundWrite

open FImmutableTree

/-- What a compound write does to the leaves. -/
def patch (cw : FCompoundWrite) : Patch (List String) (Option LeafValue) := treePatch cw.writeTree

@[simp] theorem patch_emptyWrite : emptyWrite.patch = Patch.skip := by
  ext q : 1
  exact treePatch_empty q

theorem patch_of_isEmpty {cw : FCompoundWrite} (h : cw.isEmpty = true) (q : List String) :
    cw.patch q = none := by
  rw [patch, eq_empty_of_isEmpty h, treePatch_empty]

/-- **Applying a compound write does its patch.** -/
theorem leafAt_applyToNode (cw : FCompoundWrite) (node : FNode) :
    (cw.applyToNode node).leafAt = cw.patch.apply node.leafAt := by
  have hpatch : subtreePatch [] cw.writeTree = cw.patch := by
    ext q : 1
    exact subtreePatch_below [] q cw.writeTree
  rw [applyToNode, leafAt_applySubtreeWrite cw.wellFormed, hpatch]

/-- **Gathering one more write is doing that write last**, at a place
where there was no leaf or that is not above the write. -/
theorem getD_patch_addWrite (cw : FCompoundWrite) (n : FNode) (p q : List String)
    {x : Option LeafValue} (hx : x = none ∨ ¬ (q <+: p ∧ q ≠ p)) :
    ((cw.addWrite n p).patch q).getD x = (FNode.setPatch p n q).getD ((cw.patch q).getD x) :=
  getD_treePatch_addToTree cw.wellFormed n p q hx

/-- **The writes below a path do there what the whole does.** -/
theorem patch_childCompoundWriteAtPath (cw : FCompoundWrite) (p q : List String) :
    (cw.childCompoundWriteAtPath p).patch q = cw.patch (p ++ q) := by
  unfold childCompoundWriteAtPath
  cases p with
  | nil => rfl
  | cons k p =>
    rw [if_neg (by simp)]
    cases hcomplete : cw.completeNodeAtPath (k :: p) with
    | some m =>
      have hbelow := treePatch_of_complete (completeNodeIn_append hcomplete q)
      rw [FNode.leafAt_getChild, List.append_nil] at hbelow
      change treePatch (FImmutableTree.mk (some m) []) q = _
      rw [treePatch_some, patch, hbelow]
    | none => exact treePatch_subtreeAtPath hcomplete q

end FCompoundWrite

end DevicesTracker
