import Mathlib.Data.List.Pairwise
import DevicesTracker.Firebase.Coherence
/-!
# Firebase — views and writes of the user

A write of the user goes into the event cache of each view at once, and
into the server's data of none. A merge is several writes, done one by one
while all of them are pending already; a place is right when it was right
or one of the writes still to be done gives it its leaf.
-/

namespace DevicesTracker

/-! ## Writes apart from each other -/

section Apart

variable {l : List (List String × FNode)} {r : List String} {y y' : Option LeafValue}

/-- Two writes apart from each other agree where both give something. -/
theorem setPatch_agree {p p' : List String} {x x' : FNode} (hapart : KeyedTree.Apart p p')
    (h : FNode.setPatch p x r = some y) (h' : FNode.setPatch p' x' r = some y') : y = y' := by
  have habove : ∀ {p p' : List String} {x x' : FNode} {y y' : Option LeafValue},
      KeyedTree.Apart p p' → FNode.setPatch p x r = some y → FNode.setPatch p' x' r = some y' →
        y = none := by
    intro p p' x x' y y' hapart h h'
    have hcomparable : ∀ {p : List String} {x : FNode} {y : Option LeafValue},
        FNode.setPatch p x r = some y → p <+: r ∨ r <+: p := by
      intro p x y h
      by_contra hno
      rw [not_or] at hno
      rw [FNode.setPatch_of_apart hno] at h
      cases h
    have hpr : ¬ p <+: r := by
      intro hp
      rcases hcomparable h' with hp' | hp'
      · rcases List.prefix_or_prefix_of_prefix hp hp' with hpp | hpp
        exacts [hapart.1 hpp, hapart.2 hpp]
      · exact hapart.1 (hp.trans hp')
    rw [FNode.setPatch_above hpr ((hcomparable h).resolve_left hpr)] at h
    split at h
    · exact (Option.some.inj h).symm
    · cases h
  rw [habove hapart h h', habove hapart.symm h' h]

/-- What a list of writes gives a place, one of them gives. -/
theorem exists_of_writesPatch (h : writesPatch l r = some y) :
    ∃ w ∈ l, FNode.setPatch w.1 w.2 r = some y := by
  induction l with
  | nil => cases h
  | cons w l ih =>
    rw [writesPatch_cons] at h
    cases hl : writesPatch l r with
    | some y₁ =>
      rw [hl] at h
      obtain ⟨w', hw', hy⟩ := ih (hl.trans h)
      exact ⟨w', List.mem_cons_of_mem w hw', hy⟩
    | none =>
      rw [hl, Option.none_or] at h
      exact ⟨w, List.mem_cons_self, h⟩

/-- Of writes apart from each other, all give what one of them gives. -/
theorem writesPatch_of_mem (hapart : l.Pairwise fun w w' => KeyedTree.Apart w.1 w'.1)
    {w : List String × FNode} (hw : w ∈ l) (h : FNode.setPatch w.1 w.2 r = some y) :
    writesPatch l r = some y := by
  induction l with
  | nil => exact absurd hw List.not_mem_nil
  | cons w' l ih =>
    rw [List.pairwise_cons] at hapart
    rw [writesPatch_cons]
    rcases List.mem_cons.1 hw with rfl | hw
    · cases hl : writesPatch l r with
      | none => rw [Option.none_or, h]
      | some y' =>
        obtain ⟨w', hw', hy'⟩ := exists_of_writesPatch hl
        rw [setPatch_agree (hapart.1 w' hw') h hy']
        rfl
    · rw [ih hapart.2 hw]
      rfl

end Apart

/-- **Writes as they are seen from a path.** -/
structure SeenFrom (q : List String) (us l : List (List String × FNode)) : Prop where
  patch : ∀ r, writesPatch us (q ++ r) = writesPatch l r
  shadow : ∀ r, Shadowed us (q ++ r) ↔ Shadowed l r
  apart : l.Pairwise fun w w' => KeyedTree.Apart w.1 w'.1

section User

open FViewProcessor FIndexedFilter

variable {s : FWriteTree} {q p t : List String} {k : String} {v : FViewCache} {x : FNode}
  {old : String → FNode} {acc : FChildChangeAccumulator} {optCompleteCache : Option FNode}

/-- A place in a view is right after the write, if it was or if the write
gives it its leaf. -/
def SetsRight (q p : List String) (x e : FNode) (ws : List (List String × FNode)) (v : FViewCache)
    (n : FNode) : Prop :=
  ∀ r, Known ws q v.cachedServerSnap r →
    v.cachedEventSnap.node.leafAt r = e.leafAt r ∨ (FNode.setPatch p x r).isSome = true →
    n.leafAt r = e.leafAt r

/-- The write done on the event cache. -/
theorem setsRight_updateChild {ws : List (List String × FNode)} {n e : FNode}
    (hn : n.IsEqual (v.cachedEventSnap.node.updateChild p x))
    (hx : ∀ r y, FNode.setPatch p x r = some y → e.leafAt r = y) : SetsRight q p x e ws v n := by
  intro r _ hr
  rw [congrFun hn r, FNode.leafAt_updateChild, Patch.apply]
  cases hpatch : FNode.setPatch p x r with
  | some y => exact (hx r y hpatch).symm
  | none =>
    rw [hpatch] at hr
    exact hr.resolve_right Bool.false_ne_true

/-- A child of a view that is not complete is replaced. -/
theorem setsRight_child {ws : List (List String × FNode)} {n e newChild : FNode}
    (hn : n.IsEqual (v.cachedEventSnap.node.updateChild [k] newChild))
    (hroot : ¬ (v.cachedServerSnap.isFullyInitialized = true ∨ Shadowed ws q))
    (hchild : ∀ r, Known ws q v.cachedServerSnap [k] → newChild.leafAt r = e.leafAt (k :: r)) :
    SetsRight q (k :: t) x e ws v n := by
  intro r hknown hr
  cases r with
  | nil => exact absurd (known_nil.1 hknown) hroot
  | cons j r =>
    rw [congrFun hn, FNode.leafAt_updateChild, Patch.apply, FNode.setPatch_cons_cons]
    by_cases hjk : j = k
    · subst hjk
      rw [if_pos rfl, FNode.setPatch_nil]
      exact hchild r hknown
    · rw [FNode.setPatch_cons_cons, if_neg hjk] at hr
      rw [if_neg hjk]
      exact hr.resolve_right Bool.false_ne_true

/-- **The new child after a write of the user**: nothing of it changed but
at the path of the write, and with it the view is right. -/
theorem childAfterUserOverwrite_spec (h : Gathers s.visibleWrites s.pending)
    (hclear : Clear s.pending q v.cachedServerSnap.node)
    (hfull : v.cachedServerSnap.isFullyInitialized = true ∨ Shadowed s.pending q →
      v.cachedEventSnap.isFullyInitialized = true)
    (hopt : optCompleteCache.isSome = true → v.cachedServerSnap.isFullyInitialized = true)
    (hx : ∀ r y, FNode.setPatch (k :: t) x r = some y →
      (expected s.pending q v.cachedServerSnap.node).leafAt r = y) :
    ∃ newChild, childAfterUserOverwrite ⟨q, s⟩ optCompleteCache v k t x = newChild ∧
      (((v.cachedEventSnap.node.getImmediateChild k).getChild t).IsEqual (newChild.getChild t) →
        (v.cachedEventSnap.node.getImmediateChild k).isEmpty = newChild.isEmpty →
        (v.cachedEventSnap.node.getImmediateChild k).IsEqual newChild) ∧
      ∀ n : FNode, n.IsEqual (v.cachedEventSnap.node.updateChild [k] newChild) →
        SetsRight q (k :: t) x (expected s.pending q v.cachedServerSnap.node) s.pending v n := by
  unfold childAfterUserOverwrite
  cases t with
  | nil => exact ⟨x, if_pos rfl, fun hsame _ => hsame, fun n hn => setsRight_updateChild hn hx⟩
  | cons j t =>
    rw [List.isEmpty_cons, if_neg Bool.false_ne_true]
    unfold completeChild
    dsimp only
    cases hcomplete : v.cachedEventSnap.isCompleteForChild k with
    | true =>
      rw [if_pos rfl]
      refine ⟨_, rfl, fun hsame _ => sameChild_of_updateChild _ x (j :: t) hsame, fun n hn => ?_⟩
      rw [FNode.updateChild_child] at hn
      exact setsRight_updateChild hn hx
    | false =>
      -- the child was not known, so the view was not complete
      have hparts := Bool.or_eq_false_iff.1 hcomplete
      have hempty := FNode.hasChild_eq_false.1 hparts.2
      have hroot : ¬ (v.cachedServerSnap.isFullyInitialized = true ∨ Shadowed s.pending q) :=
        fun hknown => absurd (hparts.1.symm.trans (hfull hknown)) (by decide)
      have hcache : optCompleteCache = none := by
        rw [← Option.not_isSome_iff_eq_none]
        exact fun hsome => hroot (Or.inl (hopt hsome))
      have hspec := completeChild_spec h hclear k
      rw [hcache, if_neg Bool.false_ne_true]
      dsimp only
      cases hchild : (FWriteTreeRef.mk q s).calculateCompleteChild k v.cachedServerSnap with
      | none =>
        rw [hchild] at hspec
        exact ⟨_, rfl, fun _ _ => FNode.isEqual_of_isEmpty hempty FNode.isEmpty_emptyNode,
          fun n hn => setsRight_child hn hroot fun r hk => absurd hk hspec⟩
      | some u =>
        rw [hchild] at hspec
        refine ⟨_, rfl, fun _ hsame => FNode.isEqual_of_isEmpty hempty (hsame.symm.trans hempty),
          fun n hn => setsRight_child hn hroot fun r _ => ?_⟩
        have hu : u.leafAt r =
            (expected s.pending q v.cachedServerSnap.node).leafAt (k :: r) := by
          rw [congrFun hspec.2 r, ← FNode.getChild_singleton, FNode.leafAt_getChild]
          rfl
        rw [FNode.leafAt_updateChild, Patch.apply]
        cases hpatch : FNode.setPatch (j :: t) x r with
        | none => exact hu
        | some y =>
          refine (hx (k :: r) y ?_).symm
          rw [FNode.setPatch_cons_cons, if_pos rfl, hpatch]

/-- What a write of the user leaves of a view: the server's data stays. -/
structure TookWrite (q p : List String) (x e : FNode) (ws : List (List String × FNode))
    (v v' : FViewCache) : Prop where
  server : v'.cachedServerSnap = v.cachedServerSnap
  full : v'.cachedEventSnap.isFullyInitialized = true ↔
    v.cachedEventSnap.isFullyInitialized = true ∨ p = []
  leaves : SetsRight q p x e ws v v'.cachedEventSnap.node

/-- **A write of the user goes into a view** without a failed assertion. -/
theorem applyUserOverwriteTo_spec (h : Gathers s.visibleWrites s.pending)
    (hclear : Clear s.pending q v.cachedServerSnap.node)
    (ht : Tracks old acc v.cachedEventSnap.node.getImmediateChild)
    (hfull : v.cachedServerSnap.isFullyInitialized = true ∨ Shadowed s.pending q →
      v.cachedEventSnap.isFullyInitialized = true ∨ p = [])
    (hopt : optCompleteCache.isSome = true → v.cachedServerSnap.isFullyInitialized = true)
    (hx : ∀ r y, FNode.setPatch p x r = some y →
      (expected s.pending q v.cachedServerSnap.node).leafAt r = y) :
    Gives old (applyUserOverwriteTo ⟨q, s⟩ optCompleteCache v p x (some acc))
      (TookWrite q p x (expected s.pending q v.cachedServerSnap.node) s.pending v) := by
  unfold applyUserOverwriteTo
  cases p with
  | nil =>
    obtain ⟨acc', hupdate, ht'⟩ := updateFullNode_spec ht x
    dsimp only
    rw [hupdate]
    refine ⟨_, acc', rfl, ht', rfl, ?_, fun r _ _ => ?_⟩
    · exact ⟨fun _ => Or.inr rfl, fun _ => rfl⟩
    · exact (hx r _ (FNode.setPatch_nil x r)).symm
  | cons k t =>
    have hevent : v.cachedEventSnap.isFullyInitialized = true ↔
        v.cachedEventSnap.isFullyInitialized = true ∨ k :: t = [] :=
      ⟨Or.inl, fun hor => hor.resolve_right (List.cons_ne_nil k t)⟩
    obtain ⟨newChild, hnew, hsame, hrights⟩ := childAfterUserOverwrite_spec h hclear
      (fun hknown => hevent.2 (hfull hknown)) hopt hx
    dsimp only
    rw [hnew]
    split
    · rename_i hequal
      have hnode := FNode.isEqual_updateChild (p := [k]) hequal
      exact ⟨v, acc, rfl, ht, rfl, hevent, hrights _ hnode.symm⟩
    · obtain ⟨n, acc', hupdate, hn, ht'⟩ := updateChildIn_spec ht hsame
      rw [hupdate]
      exact ⟨_, acc', rfl, ht', rfl, hevent, hrights n hn⟩

/-- Operations on a view, one after another. -/
theorem gives_foldlM {α : Type} {P : List α → FViewCache → Prop}
    {f : Progress → α → Option Progress} {l : List α}
    (hstep : ∀ a ∈ l, ∀ l v acc, Tracks old acc v.cachedEventSnap.node.getImmediateChild →
      P (a :: l) v → Gives old (f (v, some acc) a) (P l))
    (ht : Tracks old acc v.cachedEventSnap.node.getImmediateChild) (h : P l v) :
    Gives old (l.foldlM f (v, some acc)) (P []) := by
  induction l generalizing v acc with
  | nil => exact ⟨v, acc, rfl, ht, h⟩
  | cons a l ih =>
    obtain ⟨v', acc', hf, ht', h'⟩ := hstep a List.mem_cons_self l v acc ht h
    rw [List.foldlM_cons, hf]
    exact ih (fun b hb => hstep b (List.mem_cons_of_mem a hb)) ht' h'

/-- **A view with some writes still to be done on it**: what is not right
one of them gives its leaf. -/
structure ToDo (ws : List (List String × FNode)) (q : List String) (c : FCacheNode)
    (l : List (List String × FNode)) (v : FViewCache) : Prop where
  server : v.cachedServerSnap = c
  full : c.isFullyInitialized = true ∨ Shadowed ws q →
    v.cachedEventSnap.isFullyInitialized = true ∨ l ≠ [] ∧ ∀ w ∈ l, w.1 = []
  gives : ∀ w ∈ l, ∀ r y, FNode.setPatch w.1 w.2 r = some y → (expected ws q c.node).leafAt r = y
  leaves : ∀ r, Known ws q c r →
    v.cachedEventSnap.node.leafAt r = (expected ws q c.node).leafAt r ∨
      ∃ w ∈ l, (FNode.setPatch w.1 w.2 r).isSome = true

/-- The writes of a user are done, one after another. -/
theorem ToDo.foldlM {c : FCacheNode} {l : List (List String × FNode)}
    (h : Gathers s.visibleWrites s.pending) (hclear : Clear s.pending q c.node)
    (hopt : optCompleteCache.isSome = true → c.isFullyInitialized = true)
    (ht : Tracks old acc v.cachedEventSnap.node.getImmediateChild)
    (htodo : ToDo s.pending q c l v) :
    Gives old
      (l.foldlM (fun (cur : Progress) (write : List String × FNode) =>
        applyUserOverwriteTo ⟨q, s⟩ optCompleteCache cur.1 write.1 write.2 cur.2)
        (v, some acc)) (ToDo s.pending q c []) := by
  refine gives_foldlM (P := ToDo s.pending q c) (fun w _ l v acc ht hv => ?_) ht htodo
  obtain ⟨rfl, hfull, hgives, hleaves⟩ := hv
  have hspec := applyUserOverwriteTo_spec (p := w.1) h hclear ht
    (fun hknown => (hfull hknown).imp_right fun hall => hall.2 w List.mem_cons_self) hopt
    (hgives w List.mem_cons_self)
  refine hspec.mono fun v' hv' => ⟨hv'.server, fun hknown => ?_, ?_, fun r hknown => ?_⟩
  · refine Or.inl (hv'.full.2 ((hfull hknown).imp_right fun hall => ?_))
    exact hall.2 w List.mem_cons_self
  · exact fun w' hw' => hgives w' (List.mem_cons_of_mem w hw')
  · by_cases hlater : ∃ w' ∈ l, (FNode.setPatch w'.1 w'.2 r).isSome = true
    · exact Or.inr hlater
    · refine Or.inl (hv'.leaves r hknown ((hleaves r hknown).imp_right ?_))
      rintro ⟨w', hw', hsome⟩
      rcases List.mem_cons.1 hw' with rfl | hw'
      exacts [hsome, absurd ⟨w', hw', hsome⟩ hlater]

/-- Before any of them is done. -/
theorem ToDo.init {ws us l l' : List (List String × FNode)} (hv : Coherent ws q v)
    (hseen : SeenFrom q us l) (hmem : ∀ w, w ∈ l' ↔ w ∈ l) :
    ToDo (ws ++ us) q v.cachedServerSnap l' v := by
  have hshadow : ∀ p, Shadowed (ws ++ us) p → Shadowed ws p ∨ Shadowed us p := by
    rintro p ⟨w, hw, hp⟩
    exact (List.mem_append.1 hw).imp (fun hw => ⟨w, hw, hp⟩) fun hw => ⟨w, hw, hp⟩
  refine ⟨rfl, fun hknown => ?_, fun w hw r y hy => ?_, fun r hknown => ?_⟩
  · by_cases hold : v.cachedServerSnap.isFullyInitialized = true ∨ Shadowed ws q
    · exact Or.inl (hv.full hold)
    · -- one of the new writes decides all of the view, and there is no other
      rw [not_or] at hold
      have hus := (hshadow q (hknown.resolve_left hold.1)).resolve_left hold.2
      rw [← List.append_nil q, hseen.shadow] at hus
      obtain ⟨w, hw, hnil⟩ := hus
      have hroot : w.1 = [] := List.prefix_nil.1 hnil
      refine Or.inr ⟨List.ne_nil_of_mem ((hmem w).2 hw), fun w' hw' => ?_⟩
      by_contra hne
      have hww : w' ≠ w := fun heq => hne (heq ▸ hroot)
      have hsymm : Std.Symm fun w w' : List String × FNode => KeyedTree.Apart w.1 w'.1 :=
        ⟨fun _ _ h => h.symm⟩
      have happart := hseen.apart.forall ((hmem w').1 hw') hw hww
      exact happart.2 (hroot ▸ List.nil_prefix)
  · rw [leafAt_expected_append, hseen.patch,
      writesPatch_of_mem hseen.apart ((hmem w).1 hw) hy]
    rfl
  · rw [leafAt_expected_append, hseen.patch]
    cases hpatch : writesPatch l r with
    | some y =>
      obtain ⟨w, hw, hy⟩ := exists_of_writesPatch hpatch
      exact Or.inr ⟨w, (hmem w).2 hw, by rw [hy]; rfl⟩
    | none =>
      refine Or.inl (hv.leaves r ?_)
      refine hknown.imp_right fun hs => (hshadow _ hs).resolve_right fun hus => ?_
      obtain ⟨w, hw, hp⟩ := (hseen.shadow _).1 hus
      have hsome := isSome_writesPatch hw (hp.trans (List.take_prefix 1 r))
      rw [hpatch] at hsome
      cases hsome

theorem ToDo.coherent {ws : List (List String × FNode)} {c : FCacheNode} (h : ToDo ws q c [] v)
    (hclear : Clear ws q c.node) : Coherent ws q v := by
  obtain ⟨rfl, hfull, -, hleaves⟩ := h
  refine ⟨fun hknown => ?_, fun r hknown => ?_, hclear⟩
  · exact (hfull hknown).resolve_right fun hall => hall.1 rfl
  · refine (hleaves r hknown).resolve_right ?_
    rintro ⟨w, hw, -⟩
    exact absurd hw List.not_mem_nil

variable {ws us : List (List String × FNode)}

/-- Writes that do not show in a view leave it coherent. -/
theorem Coherent.unseen (hv : Coherent ws q v) (hseen : SeenFrom q us [])
    (hclear : Clear (ws ++ us) q v.cachedServerSnap.node) : Coherent (ws ++ us) q v :=
  (ToDo.init hv hseen fun _ => Iff.rfl).coherent hclear

/-- **An overwrite of the user leaves a coherent view coherent.** -/
theorem Coherent.applyUserOverwriteTo (hv : Coherent ws q v) (hs : s.pending = ws ++ us)
    (hseen : SeenFrom q us [(p, x)]) (h : Gathers s.visibleWrites s.pending)
    (hclear : Clear s.pending q v.cachedServerSnap.node)
    (hopt : optCompleteCache.isSome = true → v.cachedServerSnap.isFullyInitialized = true)
    (ht : Tracks old acc v.cachedEventSnap.node.getImmediateChild) :
    Gives old (applyUserOverwriteTo ⟨q, s⟩ optCompleteCache v p x (some acc))
      (Coherent s.pending q) := by
  have htodo := ToDo.init hv hseen fun _ => Iff.rfl
  rw [← hs] at htodo
  obtain ⟨v', acc', hfold, ht', hv'⟩ := htodo.foldlM h hclear hopt ht
  refine ⟨v', acc', ?_, ht', hv'.coherent hclear⟩
  rw [List.foldlM_cons] at hfold
  change (FViewProcessor.applyUserOverwriteTo _ _ _ _ _ _).bind some = _ at hfold
  rw [Option.bind_fun_some] at hfold
  exact hfold

/-- **A merge of the user leaves a coherent view coherent.** -/
theorem Coherent.applyUserMergeTo {changedChildren : FCompoundWrite} (hv : Coherent ws q v)
    (hs : s.pending = ws ++ us)
    (hseen : SeenFrom q us (changedChildren.enumerateWrites.map fun e => (p ++ e.1, e.2)))
    (h : Gathers s.visibleWrites s.pending)
    (hclear : Clear s.pending q v.cachedServerSnap.node)
    (hopt : optCompleteCache.isSome = true → v.cachedServerSnap.isFullyInitialized = true)
    (ht : Tracks old acc v.cachedEventSnap.node.getImmediateChild) :
    Gives old (applyUserMergeTo ⟨q, s⟩ optCompleteCache v p changedChildren (some acc))
      (Coherent s.pending q) := by
  unfold FViewProcessor.applyUserMergeTo
  dsimp only
  generalize changedChildren.enumerateWrites.map (fun e => (p ++ e.1, e.2)) = l at hseen
  have hmem : ∀ w, w ∈ l.filter (fun w => cacheHasChild v w.1) ++
      l.filter (fun w => !cacheHasChild v w.1) ↔ w ∈ l := by
    intro w
    rw [List.mem_append, List.mem_filter, List.mem_filter]
    cases cacheHasChild v w.1 <;> simp
  have htodo := ToDo.init hv hseen hmem
  rw [← hs] at htodo
  obtain ⟨v', acc', hfold, ht', hv'⟩ := htodo.foldlM h hclear hopt ht
  rw [List.foldlM_append] at hfold
  exact ⟨v', acc', hfold, ht', hv'.coherent hclear⟩

end User

end DevicesTracker
