import DevicesTracker.Firebase.LocalView
import DevicesTracker.Firebase.View
/-!
# Firebase — what a view should show

A view never computes its event cache again from the start: an operation
changes the places it touches and leaves the rest. What the cache should
be is `expected`, the pending writes done one after another on what the
server sent. A view is `Coherent` when its event cache has the leaves of
that at every place it knows of. Here are the ways in which the expected
leaves move: when the server's data changes at a path, when writes are
added, and when the oldest are taken out; and what one more run of the
processor over a path does for the places below it.
-/

namespace DevicesTracker

/-- **What a view should show**: the server's data at a path with the
pending writes done one after another. -/
def expected (ws : List (List String × FNode)) (q : List String) (m : FNode) : FNode :=
  (doWrites ws (FNode.emptyNode.updateChild q m)).getChild q

/-- A pending write decides all there is at a path. -/
def Shadowed (ws : List (List String × FNode)) (p : List String) : Prop := ∃ w ∈ ws, w.1 <+: p

/-- The server's data at a path has no leaf above a pending write. -/
def Clear (ws : List (List String × FNode)) (q : List String) (m : FNode) : Prop :=
  ∀ r, m.leafAt r = none ∨ ∀ w ∈ ws, ¬ (q ++ r <+: w.1 ∧ q ++ r ≠ w.1)

section Expected

variable {ws us rs : List (List String × FNode)} {p q r : List String} {m m' x : FNode}

theorem leafAt_expected (ws : List (List String × FNode)) (q : List String) (m : FNode)
    (r : List String) :
    (expected ws q m).leafAt r = (writesPatch ws (q ++ r)).getD (m.leafAt r) := by
  unfold expected
  rw [FNode.leafAt_getChild, leafAt_doWrites, Patch.apply, FNode.leafAt_updateChild, Patch.apply,
    FNode.setPatch_below]
  rfl

theorem Shadowed.append (h : Shadowed ws p) (r : List String) : Shadowed ws (p ++ r) := by
  obtain ⟨w, hw, hp⟩ := h
  exact ⟨w, hw, hp.trans (List.prefix_append p r)⟩

theorem Shadowed.of_prefix (h : Shadowed ws p) (hp : p <+: q) : Shadowed ws q := by
  obtain ⟨r, rfl⟩ := hp
  exact h.append r

/-- Where a write decides, what the server sent does not matter. -/
theorem leafAt_expected_of_shadowed (h : Shadowed ws (q ++ r)) (m m' : FNode) :
    (expected ws q m).leafAt r = (expected ws q m').leafAt r := by
  obtain ⟨w, hw, hp⟩ := h
  obtain ⟨y, hy⟩ := Option.isSome_iff_exists.1 (isSome_writesPatch hw hp)
  rw [leafAt_expected, leafAt_expected, hy]
  rfl

/-- Where none decides, there is a leaf only if the server sent one. -/
theorem leafAt_expected_eq_none (h : ¬ Shadowed ws (q ++ r)) (hm : m.leafAt r = none) :
    (expected ws q m).leafAt r = none := by
  rw [leafAt_expected, hm]
  exact getD_writesPatch_none fun w hw hp => h ⟨w, hw, hp⟩

/-- Where no write leads to or from, it is what the server sent. -/
theorem leafAt_expected_of_apart (h : ∀ w ∈ ws, KeyedTree.Apart w.1 (q ++ r)) (m : FNode) :
    (expected ws q m).leafAt r = m.leafAt r := by
  rw [leafAt_expected, writesPatch_eq_none fun w hw => FNode.setPatch_of_apart (h w hw) w.2]
  rfl

theorem FNode.IsEqual.expected (h : m.IsEqual m') (ws : List (List String × FNode))
    (q : List String) :
    (expected ws q m).IsEqual (expected ws q m') := by
  funext r
  rw [leafAt_expected, leafAt_expected, congrFun h r]

theorem Clear.congr (h : Clear ws q m) (hm : m.IsEqual m') : Clear ws q m' := by
  intro r
  rw [← congrFun hm r]
  exact h r

theorem Clear.of_subset (h : Clear ws q m) (hsub : us ⊆ ws) : Clear us q m := by
  intro r
  exact (h r).imp_right fun hw w hus => hw w (hsub hus)

theorem Clear.getChild (h : Clear ws q m) (p : List String) :
    Clear ws (q ++ p) (m.getChild p) := by
  intro r
  rw [FNode.leafAt_getChild, List.append_assoc]
  exact h (p ++ r)

/-- New data without a leaf above a pending write. -/
theorem Clear.updateChild (h : Clear ws q m) (hx : Clear ws (q ++ p) x) :
    Clear ws q (m.updateChild p x) := by
  intro r
  rw [FNode.leafAt_updateChild, Patch.apply]
  by_cases hpr : p <+: r
  · obtain ⟨t, rfl⟩ := hpr
    rw [FNode.setPatch_below, ← List.append_assoc]
    exact hx t
  · by_cases hrp : r <+: p
    · rw [FNode.setPatch_above hpr hrp]
      split
      · exact Or.inl rfl
      · exact h r
    · rw [FNode.setPatch_of_apart ⟨hpr, hrp⟩]
      exact h r

/-- The root that stands for the data at one path. -/
theorem Clear.noLeafAbove (h : Clear ws q m) :
    NoLeafAbove ws (FNode.emptyNode.updateChild q m) := by
  intro r
  rw [FNode.leafAt_updateChild, Patch.apply, FNode.leafAt_emptyNode]
  by_cases hqr : q <+: r
  · obtain ⟨t, rfl⟩ := hqr
    rw [FNode.setPatch_below]
    exact h t
  · refine Or.inl ?_
    by_cases hrq : r <+: q
    · rw [FNode.setPatch_above hqr hrq]
      split <;> rfl
    · rw [FNode.setPatch_of_apart ⟨hqr, hrq⟩]
      rfl

/-- No write leads to or from a place that none decides and that has none
below. -/
theorem apart_of_not_shadowed (h : ¬ Shadowed ws p) (hbelow : ∀ w ∈ ws, ¬ p <+: w.1)
    (r : List String) : ∀ w ∈ ws, KeyedTree.Apart w.1 (p ++ r) := by
  intro w hw
  refine ⟨fun hwp => ?_, fun hpw => hbelow w hw ((List.prefix_append p r).trans hpw)⟩
  rcases List.prefix_or_prefix_of_prefix hwp (List.prefix_append p r) with hp | hp
  exacts [h ⟨w, hw, hp⟩, hbelow w hw hp]

/-- **After the server's data changed at a path**, what a view should show
is the same but below the path, and but for a leaf above it that is gone.
-/
theorem leafAt_expected_changed (hm : Clear ws q m) (hchange : m'.IsEqual (m.updateChild p x))
    (r : List String) :
    (expected ws q m').leafAt r = (expected ws q m).leafAt r ∨
      ¬ Shadowed ws (q ++ p) ∧
        (p <+: r ∨ r <+: p ∧ ((expected ws q m').getChild p).isEmpty = false) := by
  have hleaf : m'.leafAt r = (FNode.setPatch p x r).getD (m.leafAt r) := by
    rw [congrFun hchange r, FNode.leafAt_updateChild]
    rfl
  by_cases hshadow : Shadowed ws (q ++ r)
  · exact Or.inl (leafAt_expected_of_shadowed hshadow m' m)
  by_cases hpr : p <+: r
  · refine Or.inr ⟨fun h => hshadow (h.of_prefix ?_), Or.inl hpr⟩
    exact (List.prefix_append_right_inj q).2 hpr
  by_cases hrp : r <+: p
  · rw [FNode.setPatch_above hpr hrp] at hleaf
    by_cases hx : x.isEmpty = false
    · rw [if_pos hx] at hleaf
      by_cases hbelow : ∃ w ∈ ws, q ++ r <+: w.1
      · -- the place is above a write, so there was no leaf
        obtain ⟨w, hw, hrw⟩ := hbelow
        have hne : q ++ r ≠ w.1 := fun heq => hshadow ⟨w, hw, heq ▸ List.prefix_rfl⟩
        have hnone : m.leafAt r = none := (hm r).resolve_right fun h => h w hw ⟨hrw, hne⟩
        left
        rw [leafAt_expected_eq_none hshadow hnone, leafAt_expected_eq_none hshadow hleaf]
      · -- no write is near, so the view shows what the server sent
        have happart := apart_of_not_shadowed hshadow fun w hw hrw => hbelow ⟨w, hw, hrw⟩
        obtain ⟨t, rfl⟩ := hrp
        have hshow : ((expected ws q m').getChild (r ++ t)).IsEqual x := by
          funext s
          have hfar : ∀ w ∈ ws, KeyedTree.Apart w.1 (q ++ (r ++ t ++ s)) := by
            intro w hw
            have hw' := happart (t ++ s) w hw
            rw [List.append_assoc] at hw' ⊢
            exact hw'
          rw [FNode.leafAt_getChild, leafAt_expected_of_apart hfar, congrFun hchange,
            FNode.leafAt_updateChild, Patch.apply, FNode.setPatch_below]
          rfl
        refine Or.inr ⟨fun h => ?_, Or.inr ⟨List.prefix_append r t, hshow.isEmpty_eq.trans hx⟩⟩
        obtain ⟨w, hw, hp⟩ := h
        have hw' := happart t w hw
        rw [← List.append_assoc] at hp
        exact hw'.1 hp
    · rw [if_neg hx] at hleaf
      left
      rw [leafAt_expected, leafAt_expected, hleaf]
      rfl
  · rw [FNode.setPatch_of_apart ⟨hpr, hrp⟩] at hleaf
    left
    rw [leafAt_expected, leafAt_expected, hleaf]
    rfl

/-- **After more writes**, they are done on what the view should have
shown. -/
theorem leafAt_expected_append (ws us : List (List String × FNode)) (q : List String) (m : FNode)
    (r : List String) :
    (expected (ws ++ us) q m).leafAt r =
      (writesPatch us (q ++ r)).getD ((expected ws q m).leafAt r) := by
  rw [leafAt_expected, leafAt_expected, writesPatch_append]
  cases writesPatch us (q ++ r) <;> rfl

/-- **After the oldest writes are taken out**, what a view should show is
the same, but below one of them where no other decides. -/
theorem leafAt_expected_removed (hm : Clear (rs ++ ws) q m) (r : List String) :
    (expected (rs ++ ws) q m).leafAt r = (expected ws q m).leafAt r ∨
      (∃ w ∈ rs, w.1 <+: q ++ r) ∧ ¬ Shadowed ws (q ++ r) := by
  by_cases hshadow : Shadowed ws (q ++ r)
  · obtain ⟨w, hw, hp⟩ := hshadow
    obtain ⟨y, hy⟩ := Option.isSome_iff_exists.1 (isSome_writesPatch hw hp)
    left
    rw [leafAt_expected, leafAt_expected, writesPatch_append, hy]
    rfl
  by_cases hremoved : ∃ w ∈ rs, w.1 <+: q ++ r
  · exact Or.inr ⟨hremoved, hshadow⟩
  have hboth : ¬ Shadowed (rs ++ ws) (q ++ r) := by
    rintro ⟨w, hw, hp⟩
    rcases List.mem_append.1 hw with hw | hw
    exacts [hremoved ⟨w, hw, hp⟩, hshadow ⟨w, hw, hp⟩]
  left
  rcases hm r with hnone | hbelow
  · rw [leafAt_expected_eq_none hboth hnone, leafAt_expected_eq_none hshadow hnone]
  · have happart : ∀ w ∈ rs ++ ws, KeyedTree.Apart w.1 (q ++ r) := by
      intro w hw
      refine ⟨fun hp => hboth ⟨w, hw, hp⟩, fun hp => hbelow w hw ⟨hp, fun heq => ?_⟩⟩
      exact hboth ⟨w, hw, heq ▸ List.prefix_rfl⟩
    rw [leafAt_expected_of_apart happart,
      leafAt_expected_of_apart fun w hw => happart w (List.mem_append_right rs hw)]

end Expected

/-! ## Coherent views -/

/-- A view knows what to show at a place: the server's data is complete
for the child that holds it, or a write decides that child. -/
def Known (ws : List (List String × FNode)) (q : List String) (c : FCacheNode)
    (r : List String) : Prop :=
  c.isCompleteForPath r = true ∨ Shadowed ws (q ++ r.take 1)

/-- **A view at a path is coherent** with the pending writes. -/
structure Coherent (ws : List (List String × FNode)) (q : List String) (v : FViewCache) :
    Prop where
  full : v.cachedServerSnap.isFullyInitialized = true ∨ Shadowed ws q →
    v.cachedEventSnap.isFullyInitialized = true
  leaves : ∀ r, Known ws q v.cachedServerSnap r →
    v.cachedEventSnap.node.leafAt r = (expected ws q v.cachedServerSnap.node).leafAt r
  clear : Clear ws q v.cachedServerSnap.node

/-- The processor gives a view with some property, and its accumulator has
told of every child. -/
def Gives (old : String → FNode) (progress : Option FViewProcessor.Progress)
    (P : FViewCache → Prop) : Prop :=
  ∃ v acc, progress = some (v, some acc) ∧
    Tracks old acc v.cachedEventSnap.node.getImmediateChild ∧ P v

section View

variable {ws : List (List String × FNode)} {q p r : List String} {k : String} {v v' : FViewCache}
  {c : FCacheNode}

/-- **A coherent view that is complete shows what it should.** -/
theorem Coherent.isEqual (h : Coherent ws q v)
    (hfull : v.cachedServerSnap.isFullyInitialized = true ∨ Shadowed ws q) :
    v.cachedEventSnap.node.IsEqual (expected ws q v.cachedServerSnap.node) := by
  funext r
  refine h.leaves r ?_
  rcases hfull with hfull | hshadow
  · left
    cases r with
    | nil => exact hfull
    | cons k r =>
      change (_ || _) = true
      rw [hfull, Bool.true_or]
  · exact Or.inr (hshadow.append _)

theorem known_nil : Known ws q c [] ↔ c.isFullyInitialized = true ∨ Shadowed ws q := by
  unfold Known
  rw [List.take_nil, List.append_nil]
  exact Iff.rfl

theorem known_cons : Known ws q c (k :: r) ↔ c.isCompleteForChild k = true ∨
    Shadowed ws (q ++ [k]) := Iff.rfl

end View

/-! ## A path once more -/

/-- Writing what should be at a path makes a place right: it was right, or
it is at the path or below, or it is above and has no leaf. -/
def Mended (n e : FNode) (p r : List String) : Prop :=
  n.leafAt r = e.leafAt r ∨ p <+: r ∨ r <+: p ∧ (e.getChild p).isEmpty = false

theorem Mended.leafAt {n e u : FNode} {p r : List String} (h : Mended n e p r)
    (hu : u.IsEqual (e.getChild p)) : (n.updateChild p u).leafAt r = e.leafAt r := by
  rw [FNode.leafAt_updateChild, Patch.apply]
  by_cases hpr : p <+: r
  · obtain ⟨t, rfl⟩ := hpr
    rw [FNode.setPatch_below, congrFun hu t, FNode.leafAt_getChild]
    rfl
  by_cases hrp : r <+: p
  · rw [FNode.setPatch_above hpr hrp, hu.isEmpty_eq]
    by_cases hempty : (e.getChild p).isEmpty = false
    · have hne : r ≠ p := fun heq => hpr (heq ▸ List.prefix_rfl)
      rw [if_pos hempty, FNode.leafAt_eq_none_above hrp hne hempty]
      rfl
    · rw [if_neg hempty]
      rcases h with h | h | h
      exacts [h, absurd h hpr, absurd h.2 hempty]
  · rw [FNode.setPatch_of_apart ⟨hpr, hrp⟩]
    rcases h with h | h | h
    exacts [h, absurd h hpr, absurd h.1 hrp]

namespace FWriteTree

/-- The pending writes, one by one. -/
abbrev pending (s : FWriteTree) : List (List String × FNode) := writesOf s.allWrites

end FWriteTree

section Recompute

variable {s : FWriteTree} {q p : List String} {k : String} {m : FNode}

theorem isSome_shadowingWrite_iff (h : Gathers s.visibleWrites s.pending) :
    ((FWriteTreeRef.mk q s).shadowingWriteAtPath p).isSome = true ↔
      Shadowed s.pending (q ++ p) := h.complete_iff (q ++ p)

theorem completeEventCache_spec (h : Gathers s.visibleWrites s.pending)
    (hm : Clear s.pending q m) :
    ∃ n, (FWriteTreeRef.mk q s).calculateCompleteEventCache (some m) = some n ∧
      n.IsEqual (expected s.pending q m) := by
  obtain ⟨n, hn, hequal⟩ := FWriteTree.isEqual_completeEventCache h hm.noLeafAbove q
  rw [FNode.getChild_updateChild_self] at hn
  exact ⟨n, hn, hequal⟩

theorem afterServerOverwrite_spec (h : Gathers s.visibleWrites s.pending)
    (hm : Clear s.pending q m) (hshadow : ¬ Shadowed s.pending (q ++ p)) :
    ∃ n, (FWriteTreeRef.mk q s).calculateEventCacheAfterServerOverwrite p m = some n ∧
      n.IsEqual ((expected s.pending q m).getChild p) := by
  have hspec := FWriteTree.isEqual_afterServerOverwrite h hm.noLeafAbove q p
  rw [FNode.getChild_updateChild_self] at hspec
  unfold FWriteTreeRef.calculateEventCacheAfterServerOverwrite
  dsimp only
  cases hn : s.calculateEventCacheAfterServerOverwriteAtPath q p m with
  | none =>
    rw [hn] at hspec
    exact absurd hspec hshadow
  | some n =>
    rw [hn] at hspec
    refine ⟨n, rfl, ?_⟩
    unfold expected
    rw [← FNode.getChild_append]
    exact hspec.2

/-- **The complete child under a key** is the child a view should show,
and there is one when the view knows it. -/
theorem completeChild_spec (h : Gathers s.visibleWrites s.pending) {c : FCacheNode}
    (hm : Clear s.pending q c.node) (k : String) :
    match (FWriteTreeRef.mk q s).calculateCompleteChild k c with
    | none => ¬ Known s.pending q c [k]
    | some n => Known s.pending q c [k] ∧
      n.IsEqual ((expected s.pending q c.node).getImmediateChild k) := by
  have hroot := hm.noLeafAbove
  have hchild := FWriteTree.isEqual_completeChild h hroot q k
  have hshadow := h.complete_iff (q ++ [k])
  rw [FNode.getChild_updateChild_self, FNode.getChild_append] at hchild
  unfold FWriteTreeRef.calculateCompleteChild FWriteTree.calculateCompleteChildAtPath at *
  dsimp only at *
  cases hcomplete : s.visibleWrites.completeNodeAtPath (q ++ [k]) with
  | some n =>
    rw [hcomplete] at hchild hshadow
    obtain ⟨n', hn', hequal⟩ := hchild
    obtain rfl := Option.some.inj hn'
    exact ⟨Or.inr (hshadow.1 rfl), hequal⟩
  | none =>
    rw [hcomplete] at hchild hshadow
    obtain ⟨n', hn', hequal⟩ := hchild
    cases hc : c.isCompleteForChild k with
    | true =>
      obtain rfl := Option.some.inj hn'
      exact ⟨Or.inl hc, hequal⟩
    | false =>
      rintro (hknown | hknown)
      · exact absurd (hc.symm.trans hknown) (by decide)
      · exact absurd (hshadow.2 hknown) (by decide)

end Recompute

/-- **What a run of the processor over a path does**: the server's data
stays; the view is complete if it was, or was run over as a whole; and
each place known is right if it was or is mended. Where a write decides
the path nothing is done. -/
structure Regenerated (ws : List (List String × FNode)) (q p : List String)
    (v v' : FViewCache) : Prop where
  server : v'.cachedServerSnap = v.cachedServerSnap
  full : v'.cachedEventSnap.isFullyInitialized = true ↔
    v.cachedEventSnap.isFullyInitialized = true ∨ p = [] ∧ ¬ Shadowed ws q
  shadowed : Shadowed ws (q ++ p) → v' = v
  leaves : ¬ Shadowed ws (q ++ p) → ∀ r, Known ws q v.cachedServerSnap r →
    Mended v.cachedEventSnap.node (expected ws q v.cachedServerSnap.node) p r →
    v'.cachedEventSnap.node.leafAt r = (expected ws q v.cachedServerSnap.node).leafAt r

section Generate

open FViewProcessor FIndexedFilter

variable {s : FWriteTree} {q p t : List String} {k : String} {v : FViewCache}
  {old : String → FNode} {acc : FChildChangeAccumulator}

/-- A child of the event cache changes below a path in it, and nothing
else of it. -/
theorem sameChild_of_updateChild (n u : FNode) (t : List String)
    (h : (n.getChild t).IsEqual ((n.updateChild t u).getChild t)) :
    n.IsEqual (n.updateChild t u) := by
  rw [FNode.getChild_updateChild_self] at h
  exact (FNode.isEqual_updateChild h).symm

/-- The run over a path below a child. -/
theorem generate_child_spec (h : Gathers s.visibleWrites s.pending)
    (hclear : Clear s.pending q v.cachedServerSnap.node)
    (ht : Tracks old acc v.cachedEventSnap.node.getImmediateChild)
    (hfull : v.cachedServerSnap.isFullyInitialized = true →
      v.cachedEventSnap.isFullyInitialized = true)
    (hshadow : ¬ Shadowed s.pending (q ++ k :: t)) :
    Gives old (generateEventCacheAfterServerEvent v (k :: t) ⟨q, s⟩ (some acc))
      (Regenerated s.pending q (k :: t) v) := by
  unfold generateEventCacheAfterServerEvent
  rw [if_neg ((isSome_shadowingWrite_iff h).not.2 hshadow)]
  dsimp only
  unfold eventChildAfterServerEvent
  dsimp only
  cases hcomplete : v.cachedEventSnap.isCompleteForChild k with
  | true =>
    obtain ⟨u, hu, hequal⟩ := afterServerOverwrite_spec h hclear hshadow
    rw [if_pos rfl, hu]
    dsimp only
    obtain ⟨n, acc', hupdate, hn, ht'⟩ := updateChildIn_spec (p := t) ht
      fun hsame _ => sameChild_of_updateChild _ u t hsame
    rw [hupdate]
    refine ⟨_, acc', rfl, ht', rfl, ?_, fun hs => absurd hs hshadow, fun _ r _ hr => ?_⟩
    · exact ⟨Or.inl, fun hor => hor.resolve_right fun hnil => by cases hnil.1⟩
    · rw [FNode.updateChild_child] at hn
      exact (congrFun hn r).trans (hr.leafAt hequal)
  | false =>
    -- the child was not known, so the view was not complete
    have hevent : v.cachedEventSnap.isFullyInitialized = false := by
      unfold FCacheNode.isCompleteForChild at hcomplete
      exact (Bool.or_eq_false_iff.1 hcomplete).1
    have hempty : (v.cachedEventSnap.node.getImmediateChild k).isEmpty = true := by
      unfold FCacheNode.isCompleteForChild at hcomplete
      exact FNode.hasChild_eq_false.1 (Bool.or_eq_false_iff.1 hcomplete).2
    have hroot : ¬ Known s.pending q v.cachedServerSnap [] := by
      rw [known_nil]
      rintro (hserver | ⟨w, hw, hp⟩)
      · exact absurd (hevent.symm.trans (hfull hserver)) (by decide)
      · exact hshadow ⟨w, hw, hp.trans (List.prefix_append q _)⟩
    have hother : ∀ {n : FNode} {j : String} {r : List String}, j ≠ k →
        Mended v.cachedEventSnap.node n (k :: t) (j :: r) →
        v.cachedEventSnap.node.leafAt (j :: r) = n.leafAt (j :: r) := by
      rintro n j r hjk (hr | hr | hr)
      exacts [hr, absurd (List.cons_prefix_cons.1 hr).1.symm hjk,
        absurd (List.cons_prefix_cons.1 hr.1).1 hjk]
    have hspec := completeChild_spec h hclear k
    rw [if_neg Bool.false_ne_true]
    cases hchild : (FWriteTreeRef.mk q s).calculateCompleteChild k v.cachedServerSnap with
    | none =>
      rw [hchild] at hspec
      refine ⟨_, acc, rfl, ht, rfl, ?_, fun hs => absurd hs hshadow, fun _ r hknown hr => ?_⟩
      · exact ⟨Or.inl, fun hor => hor.resolve_right fun hnil => by cases hnil.1⟩
      · cases r with
        | nil => exact absurd hknown hroot
        | cons j r =>
          refine hother ?_ hr
          rintro rfl
          exact hspec hknown
    | some u =>
      rw [hchild] at hspec
      dsimp only
      obtain ⟨n, acc', hupdate, hn, ht'⟩ := updateChildIn_spec (p := t) ht
        fun _ hsame => FNode.isEqual_of_isEmpty hempty (hsame.symm.trans hempty)
      rw [hupdate]
      refine ⟨_, acc', rfl, ht', rfl, ?_, fun hs => absurd hs hshadow, fun _ r hknown hr => ?_⟩
      · exact ⟨Or.inl, fun hor => hor.resolve_right fun hnil => by cases hnil.1⟩
      · cases r with
        | nil => exact absurd hknown hroot
        | cons j r =>
          refine (congrFun hn _).trans (Mended.leafAt ?_ hspec.2)
          by_cases hjk : j = k
          · subst hjk
            exact Or.inr (Or.inl (List.cons_prefix_cons.2 ⟨rfl, List.nil_prefix⟩))
          · exact Or.inl (hother hjk hr)

/-- **The processor runs over a path** without a failed assertion, if the
server's data is complete where all of it is needed. -/
theorem generateEventCacheAfterServerEvent_spec (h : Gathers s.visibleWrites s.pending)
    (hclear : Clear s.pending q v.cachedServerSnap.node)
    (ht : Tracks old acc v.cachedEventSnap.node.getImmediateChild)
    (hfull : v.cachedServerSnap.isFullyInitialized = true →
      p = [] ∨ v.cachedEventSnap.isFullyInitialized = true)
    (hroot : p = [] → ¬ Shadowed s.pending q →
      v.cachedServerSnap.isFullyInitialized = true) :
    Gives old (generateEventCacheAfterServerEvent v p ⟨q, s⟩ (some acc))
      (Regenerated s.pending q p v) := by
  by_cases hshadow : Shadowed s.pending (q ++ p)
  · refine ⟨v, acc, ?_, ht, rfl, ⟨Or.inl, ?_⟩, fun _ => rfl, fun hno => absurd hshadow hno⟩
    · unfold generateEventCacheAfterServerEvent
      rw [if_pos ((isSome_shadowingWrite_iff h).2 hshadow)]
    · rintro (hevent | ⟨rfl, hno⟩)
      · exact hevent
      · rw [List.append_nil] at hshadow
        exact absurd hshadow hno
  cases p with
  | cons k t =>
    exact generate_child_spec h hclear ht
      (fun hserver => (hfull hserver).resolve_left (List.cons_ne_nil k t)) hshadow
  | nil =>
    have hshadow' := hshadow
    rw [List.append_nil] at hshadow'
    have hserver := hroot rfl hshadow'
    obtain ⟨n, hn, hequal⟩ := completeEventCache_spec h hclear
    obtain ⟨acc', hupdate, ht'⟩ := updateFullNode_spec ht n
    unfold generateEventCacheAfterServerEvent
    rw [if_neg ((isSome_shadowingWrite_iff h).not.2 hshadow)]
    dsimp only
    rw [if_pos hserver]
    unfold FViewCache.completeServerSnap
    rw [if_pos hserver, hn]
    dsimp only [Option.bind_eq_bind, Option.bind_some]
    rw [hupdate]
    refine ⟨_, acc', rfl, ht', rfl, ?_, fun hs => absurd hs hshadow, fun _ r _ _ => ?_⟩
    · exact ⟨fun _ => Or.inr ⟨rfl, hshadow'⟩, fun _ => rfl⟩
    · exact congrFun hequal r

/-- A run over the only path where the view is not right makes it
coherent. -/
theorem Regenerated.coherent {ws : List (List String × FNode)} {v' : FViewCache}
    (h : Regenerated ws q p v v') (hclear : Clear ws q v.cachedServerSnap.node)
    (hfull : v.cachedServerSnap.isFullyInitialized = true ∨ Shadowed ws q →
      v.cachedEventSnap.isFullyInitialized = true ∨ p = [] ∧ ¬ Shadowed ws q)
    (hleaves : ∀ r, Known ws q v.cachedServerSnap r →
      v.cachedEventSnap.node.leafAt r = (expected ws q v.cachedServerSnap.node).leafAt r ∨
        ¬ Shadowed ws (q ++ p) ∧
          Mended v.cachedEventSnap.node (expected ws q v.cachedServerSnap.node) p r) :
    Coherent ws q v' := by
  refine ⟨?_, ?_, ?_⟩
  · rw [h.server, h.full]
    exact hfull
  · intro r hknown
    rw [h.server] at hknown ⊢
    by_cases hshadow : Shadowed ws (q ++ p)
    · rw [h.shadowed hshadow]
      exact (hleaves r hknown).resolve_right fun hno => hno.1 hshadow
    · exact h.leaves hshadow r hknown ((hleaves r hknown).elim Or.inl fun hr => hr.2)
  · rw [h.server]
    exact hclear

/-! ## New data of the server -/

theorem Gives.mono {progress : Option Progress} {P Q : FViewCache → Prop}
    (h : Gives old progress P) (hPQ : ∀ v, P v → Q v) : Gives old progress Q := by
  obtain ⟨v, acc, hv, ht, hP⟩ := h
  exact ⟨v, acc, hv, ht, hPQ v hP⟩

/-- A view takes new data in where it knows the child, or gets all of it. -/
def Taken (c : FCacheNode) (p : List String) : Prop :=
  c.isCompleteForPath p = true ∨ p.length ≤ 1

/-- New data is put into the server's, and its path is run over. -/
theorem applyServerOverwriteTo_spec (h : Gathers s.visibleWrites s.pending)
    (hclear : Clear s.pending q v.cachedServerSnap.node) {x : FNode}
    (hx : Clear s.pending (q ++ p) x)
    (ht : Tracks old acc v.cachedEventSnap.node.getImmediateChild)
    (hfull : v.cachedServerSnap.isFullyInitialized = true →
      v.cachedEventSnap.isFullyInitialized = true)
    (htaken : Taken v.cachedServerSnap p) :
    Gives old (applyServerOverwriteTo ⟨q, s⟩ v p x (some acc)) fun v' =>
      ∃ m, m.IsEqual (v.cachedServerSnap.node.updateChild p x) ∧
        Regenerated s.pending q p
          (v.updateServerSnap m (v.cachedServerSnap.isFullyInitialized || p.isEmpty)) v' := by
  unfold applyServerOverwriteTo
  cases p with
  | nil =>
    have hspec := generateEventCacheAfterServerEvent_spec (v := v.updateServerSnap x true)
      (p := []) h (by rw [List.append_nil] at hx; exact hx) ht (fun _ => Or.inl rfl)
      fun _ _ => rfl
    refine hspec.mono fun v' hv' => ⟨x, FNode.IsEqual.refl x, ?_⟩
    rw [List.isEmpty_nil, Bool.or_true]
    exact hv'
  | cons k t =>
    dsimp only
    have hpass : (!v.cachedServerSnap.isCompleteForPath (k :: t) && !t.isEmpty) = false := by
      rcases htaken with hcomplete | hlength
      · rw [hcomplete]
        rfl
      · rw [List.eq_nil_of_length_eq_zero (Nat.le_zero.1 (Nat.le_of_succ_le_succ hlength)),
          List.isEmpty_nil, Bool.not_true, Bool.and_false]
    have hsame := sameChild_of_updateChild (v.cachedServerSnap.node.getImmediateChild k) x t
    obtain ⟨m, hupdate, hm⟩ := updateChildIn_none fun hequal _ => hsame hequal
    rw [FNode.updateChild_child] at hm
    rw [hpass, if_neg Bool.false_ne_true, hupdate]
    have hspec := generateEventCacheAfterServerEvent_spec
      (v := v.updateServerSnap m v.cachedServerSnap.isFullyInitialized) (p := k :: t) h
      ((hclear.updateChild hx).congr hm.symm) ht (fun hserver => Or.inr (hfull hserver))
      fun hnil => by cases hnil
    refine hspec.mono fun v' hv' => ⟨m, hm, ?_⟩
    rw [List.isEmpty_cons, Bool.or_false]
    exact hv'

/-- What a view knows after it took new data in, and did not before, is at
the path of the data. -/
theorem known_of_updateServerSnap {ws : List (List String × FNode)} {c : FCacheNode} {m x : FNode}
    {r : List String} (htaken : Taken c p) (hm : m.IsEqual (c.node.updateChild p x))
    (h : Known ws q ⟨m, c.isFullyInitialized || p.isEmpty⟩ r) :
    Known ws q c r ∨ ¬ Shadowed ws (q ++ p) ∧ p <+: r := by
  by_cases hknown : Known ws q c r
  · exact Or.inl hknown
  have hshadow : ¬ Shadowed ws (q ++ r.take 1) := fun hs => hknown (Or.inr hs)
  have hcomplete := h.resolve_right hshadow
  refine Or.inr ?_
  cases p with
  | nil =>
    refine ⟨fun hs => hshadow (hs.of_prefix ?_), List.nil_prefix⟩
    rw [List.append_nil]
    exact List.prefix_append q _
  | cons k t =>
    rw [List.isEmpty_cons, Bool.or_false] at hcomplete
    cases r with
    | nil => exact absurd (Or.inl hcomplete) hknown
    | cons j r =>
      have hj : c.isCompleteForChild j = false := Bool.eq_false_iff.2 fun hc => hknown (Or.inl hc)
      change (c.isFullyInitialized || m.hasChild j) = true at hcomplete
      have hparts := Bool.or_eq_false_iff.1 hj
      rw [hparts.1, Bool.false_or] at hcomplete
      by_cases hjk : j = k
      · subst hjk
        have hnil : t = [] := by
          rcases htaken with hc | hlength
          · exact absurd (hj.symm.trans hc) (by decide)
          · exact List.eq_nil_of_length_eq_zero (Nat.le_zero.1 (Nat.le_of_succ_le_succ hlength))
        subst hnil
        exact ⟨hshadow, List.cons_prefix_cons.2 ⟨rfl, List.nil_prefix⟩⟩
      · have hchild := hm.getImmediateChild j
        rw [FNode.getImmediateChild_updateChild_of_ne _ hjk] at hchild
        have hhas := FNode.hasChild_eq_true.1 hcomplete
        rw [hchild.isEmpty_eq, FNode.hasChild_eq_false.1 hparts.2] at hhas
        cases hhas

/-- A coherent view that is complete after its data was run over at a path
was complete, or is now run over as a whole. -/
theorem Coherent.full_or {ws : List (List String × FNode)} (hv : Coherent ws q v)
    (h : (v.cachedServerSnap.isFullyInitialized || p.isEmpty) = true ∨ Shadowed ws q) :
    v.cachedEventSnap.isFullyInitialized = true ∨ p = [] ∧ ¬ Shadowed ws q := by
  by_cases hshadow : Shadowed ws q
  · exact Or.inl (hv.full (Or.inr hshadow))
  · rcases Bool.or_eq_true_iff.1 (h.resolve_right hshadow) with hserver | hnil
    · exact Or.inl (hv.full (Or.inl hserver))
    · exact Or.inr ⟨List.isEmpty_iff.1 hnil, hshadow⟩

/-- **New data of the server leaves a coherent view coherent.** -/
theorem Coherent.applyServerOverwriteTo (hv : Coherent s.pending q v)
    (h : Gathers s.visibleWrites s.pending) {x : FNode} (hx : Clear s.pending (q ++ p) x)
    (ht : Tracks old acc v.cachedEventSnap.node.getImmediateChild) :
    Gives old (applyServerOverwriteTo ⟨q, s⟩ v p x (some acc)) (Coherent s.pending q) := by
  by_cases htaken : Taken v.cachedServerSnap p
  · have hspec := applyServerOverwriteTo_spec h hv.clear hx ht (fun hf => hv.full (Or.inl hf))
      htaken
    refine hspec.mono fun v' hv' => ?_
    obtain ⟨m, hm, hregen⟩ := hv'
    refine hregen.coherent ((hv.clear.updateChild hx).congr hm.symm) hv.full_or
      fun r hknown => ?_
    rcases leafAt_expected_changed hv.clear hm r with hsame | ⟨hno, hr⟩
    · rcases known_of_updateServerSnap htaken hm hknown with hknown | ⟨hno, hr⟩
      · exact Or.inl ((hv.leaves r hknown).trans hsame.symm)
      · exact Or.inr ⟨hno, Or.inr (Or.inl hr)⟩
    · exact Or.inr ⟨hno, Or.inr hr⟩
  · -- the data is for another listener
    have hskip : FViewProcessor.applyServerOverwriteTo ⟨q, s⟩ v p x (some acc) =
        some (v, some acc) := by
      unfold FViewProcessor.applyServerOverwriteTo
      cases p with
      | nil => exact absurd (Or.inr (Nat.zero_le 1)) htaken
      | cons k t =>
        refine if_pos ?_
        have hcomplete : v.cachedServerSnap.isCompleteForPath (k :: t) = false :=
          Bool.eq_false_iff.2 fun hc => htaken (Or.inl hc)
        cases t with
        | nil => exact absurd (Or.inr (Nat.le_refl 1)) htaken
        | cons j t =>
          rw [hcomplete]
          rfl
    exact ⟨v, acc, hskip, ht, hv⟩

/-- **The end of a listen leaves a coherent view coherent.** -/
theorem Coherent.listenComplete (hv : Coherent s.pending q v)
    (h : Gathers s.visibleWrites s.pending)
    (ht : Tracks old acc v.cachedEventSnap.node.getImmediateChild) :
    Gives old (listenComplete ⟨q, s⟩ v p (some acc)) (Coherent s.pending q) := by
  unfold FViewProcessor.listenComplete
  have hspec := generateEventCacheAfterServerEvent_spec (p := p)
    (v := v.updateServerSnap v.cachedServerSnap.node
      (v.cachedServerSnap.isFullyInitialized || p.isEmpty)) h hv.clear ht
    (fun hserver => (Bool.or_eq_true_iff.1 hserver).symm.imp List.isEmpty_iff.1
      fun hf => hv.full (Or.inl hf))
    fun hnil _ => by
      subst hnil
      exact Bool.or_true _
  refine hspec.mono fun v' hregen => hregen.coherent hv.clear hv.full_or fun r hknown => ?_
  cases p with
  | nil =>
    have htaken : Taken v.cachedServerSnap [] := Or.inr (Nat.zero_le 1)
    rcases known_of_updateServerSnap htaken (FNode.IsEqual.refl _) hknown with
      hknown | ⟨hno, hr⟩
    · exact Or.inl (hv.leaves r hknown)
    · exact Or.inr ⟨hno, Or.inr (Or.inl hr)⟩
  | cons k t =>
    change Known s.pending q ⟨_, v.cachedServerSnap.isFullyInitialized || false⟩ r at hknown
    rw [Bool.or_false] at hknown
    exact Or.inl (hv.leaves r hknown)

end Generate

end DevicesTracker
