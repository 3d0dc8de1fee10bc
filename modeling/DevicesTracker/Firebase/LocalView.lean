import DevicesTracker.Firebase.PendingWrites
/-!
# Firebase — the data as a client believes it to be

The server's data with the pending writes done one after another is what
a client should see, and `calculateCompleteEventCacheAtPath:` is how it is
computed: from the compound write, for one path only. Here the two are
the same, at every path, in every run of the tree of pending writes that
answers its writes in order, each with the later ones aside of it
(`sound_run`, `isEqual_completeEventCache`).
Server data with a leaf above a pending write is left out: a write there
takes the leaf away, and another that takes the first one back does not
restore it, which the compound write cannot tell from no write at all.
-/

namespace DevicesTracker

/-- A node with writes done one after another. -/
def doWrites (ws : List (List String × FNode)) (n : FNode) : FNode :=
  ws.foldl (fun n w => n.updateChild w.1 w.2) n

theorem leafAt_doWrites (ws : List (List String × FNode)) (n : FNode) :
    (doWrites ws n).leafAt = (writesPatch ws).apply n.leafAt := by
  induction ws generalizing n with
  | nil => rfl
  | cons w ws ih =>
    have hrest := ih (n.updateChild w.1 w.2)
    rw [FNode.leafAt_updateChild, ← Patch.apply_andThen] at hrest
    exact hrest

/-- A node has no leaf above the paths of some writes. -/
def NoLeafAbove (ws : List (List String × FNode)) (n : FNode) : Prop :=
  ∀ q, n.leafAt q = none ∨ ∀ w ∈ ws, ¬ (q <+: w.1 ∧ q ≠ w.1)

/-- **A compound write does what the writes it gathers do**, at a place
where the node has no leaf or that is not above a write. -/
theorem Gathers.leafAt_applyToNode {cw : FCompoundWrite} {ws : List (List String × FNode)}
    (h : Gathers cw ws) {p r : List String} {node : FNode}
    (hnode : node.leafAt r = none ∨ ∀ w ∈ ws, ¬ (p ++ r <+: w.1 ∧ p ++ r ≠ w.1)) :
    ((cw.childCompoundWriteAtPath p).applyToNode node).leafAt r =
      (writesPatch ws (p ++ r)).getD (node.leafAt r) := by
  rw [FCompoundWrite.leafAt_applyToNode, Patch.apply, FCompoundWrite.patch_childCompoundWriteAtPath]
  exact h.getD_patch hnode

/-- A complete node has the leaves the writes leave, whatever was there. -/
theorem Gathers.leafAt_completeNode {cw : FCompoundWrite} {ws : List (List String × FNode)}
    (h : Gathers cw ws) {p : List String} {m : FNode} (hm : cw.completeNodeAtPath p = some m)
    (r : List String) (x : Option LeafValue) :
    m.leafAt r = (writesPatch ws (p ++ r)).getD x := by
  have hcomplete : cw.completeNodeAtPath (p ++ r) = some (m.getChild r) :=
    FCompoundWrite.completeNodeIn_append hm r
  have hpatch : cw.patch (p ++ r) = some ((m.getChild r).leafAt []) :=
    FImmutableTree.treePatch_of_complete hcomplete
  rw [FNode.leafAt_getChild, List.append_nil] at hpatch
  obtain ⟨w, hw, hwp⟩ := (h.complete_iff (p ++ r)).1 (by rw [hcomplete]; rfl)
  obtain ⟨y, hy⟩ := Option.isSome_iff_exists.1 (isSome_writesPatch hw hwp)
  have hleaves := h.leaves (p ++ r)
  rw [hpatch, hy] at hleaves
  rw [hy]
  exact hleaves

theorem Gathers.isEqual_applyToNode {cw : FCompoundWrite} {ws : List (List String × FNode)}
    (h : Gathers cw ws) {root : FNode} (hroot : NoLeafAbove ws root) (p : List String) :
    ((cw.childCompoundWriteAtPath p).applyToNode (root.getChild p)).IsEqual
      ((doWrites ws root).getChild p) := by
  funext r
  have hnode := hroot (p ++ r)
  rw [← FNode.leafAt_getChild] at hnode
  rw [h.leafAt_applyToNode hnode, FNode.leafAt_getChild, FNode.leafAt_getChild, leafAt_doWrites]
  rfl

theorem Gathers.isEqual_completeNode {cw : FCompoundWrite} {ws : List (List String × FNode)}
    (h : Gathers cw ws) {p : List String} {m : FNode} (hm : cw.completeNodeAtPath p = some m)
    (root : FNode) : m.IsEqual ((doWrites ws root).getChild p) := by
  funext r
  rw [h.leafAt_completeNode hm r (root.leafAt (p ++ r)), FNode.leafAt_getChild, leafAt_doWrites]
  rfl

namespace FWriteTree

variable {s : FWriteTree} {root : FNode}

/-- **The event cache has at each place what the pending writes leave of
the server's cache.** -/
theorem leafAt_completeEventCache (h : Gathers s.visibleWrites (writesOf s.allWrites))
    (p : List String) (cache : FNode) :
    ∃ n, s.calculateCompleteEventCacheAtPath p (some cache) none false = some n ∧
      ∀ r, (cache.leafAt r = none ∨
          ∀ w ∈ writesOf s.allWrites, ¬ (p ++ r <+: w.1 ∧ p ++ r ≠ w.1)) →
        n.leafAt r = (writesPatch (writesOf s.allWrites) (p ++ r)).getD (cache.leafAt r) := by
  unfold calculateCompleteEventCacheAtPath
  simp only [Option.isNone_none, Bool.not_false, Bool.and_self, if_true, Option.isNone_some,
    Bool.false_and, Bool.false_eq_true, if_false, Option.getD_some]
  cases hm : s.visibleWrites.completeNodeAtPath p with
  | some m => exact ⟨m, rfl, fun r _ => h.leafAt_completeNode hm r _⟩
  | none =>
    by_cases he : (s.visibleWrites.childCompoundWriteAtPath p).isEmpty = true
    · refine ⟨cache, if_pos he, fun r hr => ?_⟩
      rw [← h.leafAt_applyToNode hr, FCompoundWrite.leafAt_applyToNode, Patch.apply,
        FCompoundWrite.patch_of_isEmpty he]
      rfl
    · exact ⟨_, if_neg he, fun r hr => h.leafAt_applyToNode hr⟩

/-- **The event cache at a path is the server's data there with the
pending writes done.** -/
theorem isEqual_completeEventCache (h : Gathers s.visibleWrites (writesOf s.allWrites))
    (hroot : NoLeafAbove (writesOf s.allWrites) root) (p : List String) :
    ∃ n, s.calculateCompleteEventCacheAtPath p (some (root.getChild p)) none false = some n ∧
      n.IsEqual ((doWrites (writesOf s.allWrites) root).getChild p) := by
  obtain ⟨n, hn, hleaves⟩ := leafAt_completeEventCache h p (root.getChild p)
  refine ⟨n, hn, ?_⟩
  funext r
  have hr := hroot (p ++ r)
  rw [← FNode.leafAt_getChild] at hr
  rw [hleaves r hr, FNode.leafAt_getChild, FNode.leafAt_getChild, leafAt_doWrites]
  rfl

/-- **The child of the cache under a key**, when the server's is complete,
is the server's child with the pending writes done. -/
theorem isEqual_completeChild (h : Gathers s.visibleWrites (writesOf s.allWrites))
    (hroot : NoLeafAbove (writesOf s.allWrites) root) (p : List String) (k : String) :
    ∃ n, s.calculateCompleteChildAtPath p k (root.getChild p) true = some n ∧
      n.IsEqual ((doWrites (writesOf s.allWrites) root).getChild (p ++ [k])) := by
  unfold calculateCompleteChildAtPath
  dsimp only
  cases hm : s.visibleWrites.completeNodeAtPath (p ++ [k]) with
  | some m => exact ⟨m, rfl, h.isEqual_completeNode hm root⟩
  | none =>
    have happly := h.isEqual_applyToNode hroot (p ++ [k])
    rw [FNode.getChild_append, FNode.getChild_singleton] at happly
    exact ⟨_, if_pos rfl, happly⟩

/-- **After the server overwrote a path**: there is nothing to compute
exactly when a pending write decides the path, and otherwise the cache is
the server's data with the pending writes done. -/
theorem isEqual_afterServerOverwrite (h : Gathers s.visibleWrites (writesOf s.allWrites))
    (hroot : NoLeafAbove (writesOf s.allWrites) root) (p q : List String) :
    match s.calculateEventCacheAfterServerOverwriteAtPath p q (root.getChild p) with
    | none => ∃ w ∈ writesOf s.allWrites, w.1 <+: p ++ q
    | some n =>
      (∀ w ∈ writesOf s.allWrites, ¬ w.1 <+: p ++ q) ∧
        n.IsEqual ((doWrites (writesOf s.allWrites) root).getChild (p ++ q)) := by
  unfold calculateEventCacheAfterServerOverwriteAtPath
  have hcomplete := h.complete_iff (p ++ q)
  dsimp only
  cases hm : s.visibleWrites.hasCompleteWriteAtPath (p ++ q) with
  | true =>
    rw [if_pos rfl]
    exact hcomplete.1 hm
  | false =>
    have hno : ∀ w ∈ writesOf s.allWrites, ¬ w.1 <+: p ++ q := by
      intro w hw hp
      have htrue := hcomplete.2 ⟨w, hw, hp⟩
      unfold FCompoundWrite.hasCompleteWriteAtPath at hm
      rw [hm] at htrue
      cases htrue
    have happly := h.isEqual_applyToNode hroot (p ++ q)
    rw [FNode.getChild_append] at happly
    rw [if_neg Bool.false_ne_true]
    by_cases he : (s.visibleWrites.childCompoundWriteAtPath (p ++ q)).isEmpty = true
    · rw [if_pos he]
      refine ⟨hno, ?_⟩
      unfold FNode.IsEqual at happly ⊢
      rw [← happly, FCompoundWrite.leafAt_applyToNode]
      funext r
      rw [Patch.apply, FCompoundWrite.patch_of_isEmpty he]
      rfl
    · rw [if_neg he]
      exact ⟨hno, happly⟩

/-! ## Runs of the tree of pending writes -/

/-- What is done to the tree of pending writes. -/
inductive Action where
  | addOverwrite (path : List String) (newData : FNode) (writeId : ℤ) (visible : Bool)
  | addMerge (path : List String) (changedChildren : FCompoundWrite) (writeId : ℤ)
  | removeWrite (writeId : ℤ)

def step (s : FWriteTree) : Action → Option FWriteTree
  | .addOverwrite path newData writeId visible =>
    s.addOverwriteAtPath path newData writeId visible
  | .addMerge path changedChildren writeId => s.addMergeAtPath path changedChildren writeId
  | .removeWrite writeId => (s.removeWriteId writeId).map Prod.fst

def machine : Machine FWriteTree Action := ⟨init, step⟩

/-- **The way the app uses it**: every write is visible, and the write
removed is the oldest, with each later one aside of it. -/
def Orderly (_ : List Action) (s : FWriteTree) : Action → Prop
  | .addOverwrite _ _ _ visible => visible = true
  | .addMerge _ _ _ => True
  | .removeWrite writeId =>
    ∃ r rest, s.allWrites = r :: rest ∧ r.writeId = writeId ∧ ∀ c ∈ rest, Aside r c

/-- The compound write gathers the pending writes, all of them visible. -/
structure Sound (s : FWriteTree) : Prop where
  gathers : Gathers s.visibleWrites (writesOf s.allWrites)
  visible : ∀ c ∈ s.allWrites, c.visible = true

theorem sound_init : Sound init := ⟨gathers_emptyWrite, fun _ h => absurd h List.not_mem_nil⟩

/-- A visible write more. -/
theorem Sound.append {r : FWriteRecord} (h : Sound s) (hr : r.visible = true)
    {cw : FCompoundWrite} (hcw : Gathers cw (writesOf s.allWrites ++ r.writes)) (writeId : ℤ) :
    Sound ⟨cw, s.allWrites ++ [r], writeId⟩ := by
  constructor
  · have hone : writesOf (s.allWrites ++ [r]) = writesOf s.allWrites ++ r.writes := by
      simp [writesOf]
    dsimp only
    rw [hone]
    exact hcw
  · intro c hc
    rcases List.mem_append.1 hc with hc | hc
    · exact h.visible c hc
    · rw [List.mem_singleton.1 hc]
      exact hr

theorem Sound.addOverwriteAtPath {s' : FWriteTree} {path : List String} {newData : FNode}
    {writeId : ℤ} (h : Sound s)
    (hstep : s.addOverwriteAtPath path newData writeId true = some s') : Sound s' := by
  unfold FWriteTree.addOverwriteAtPath at hstep
  split at hstep
  · rw [← Option.some.inj hstep, if_pos rfl]
    exact h.append (r := .ofOverwrite path newData writeId true) rfl
      (h.gathers.addWrite newData path) writeId
  · cases hstep

theorem Sound.addMergeAtPath {s' : FWriteTree} {path : List String}
    {changedChildren : FCompoundWrite} {writeId : ℤ} (h : Sound s)
    (hstep : s.addMergeAtPath path changedChildren writeId = some s') : Sound s' := by
  unfold FWriteTree.addMergeAtPath at hstep
  split at hstep
  · rw [← Option.some.inj hstep]
    exact h.append (r := .ofMerge path changedChildren writeId) rfl
      (h.gathers.addCompoundWrite changedChildren path) writeId
  · cases hstep

theorem Sound.removeWriteId {r : FWriteRecord} {rest : List FWriteRecord} (h : Sound s)
    (hall : s.allWrites = r :: rest) (haside : ∀ c ∈ rest, Aside r c) :
    ∃ s' b, s.removeWriteId r.writeId = some (s', b) ∧ s'.allWrites = rest ∧ Sound s' := by
  obtain ⟨s', b, hremove, hrest, hgathers⟩ := gathers_removeWriteId h.gathers hall h.visible haside
  refine ⟨s', b, hremove, hrest, ?_, ?_⟩
  · rw [hrest]
    exact hgathers
  · intro c hc
    rw [hrest] at hc
    exact h.visible c (hall ▸ List.mem_cons_of_mem r hc)

/-- **In an orderly run the compound write always gathers the pending
writes.** -/
theorem sound_run {tr : List Action} (h : machine.run tr = some s)
    (hQ : machine.EveryStep Orderly tr) : Sound s := by
  refine Machine.run_induction_from (M := machine) (P := fun _ s => Sound s)
    ?_ ?_ (List.nil_suffix (l := tr)) hQ h
  · intro s hs
    obtain rfl := Option.some.inj hs
    exact sound_init
  · intro tr s a s' _ horderly hsound hstep
    cases a with
    | addOverwrite path newData writeId visible =>
      obtain rfl : visible = true := horderly
      exact hsound.addOverwriteAtPath hstep
    | addMerge path changedChildren writeId => exact hsound.addMergeAtPath hstep
    | removeWrite writeId =>
      obtain ⟨r, rest, hall, rfl, haside⟩ := horderly
      obtain ⟨s₁, b, hremove, -, hs₁⟩ := hsound.removeWriteId hall haside
      change (s.removeWriteId r.writeId).map Prod.fst = some s' at hstep
      rw [hremove] at hstep
      exact Option.some.inj hstep ▸ hs₁

/-- **In an orderly run the compound write kept from write to write is the
one made of the pending writes anew**: it decides the same paths, and has
the same leaves. -/
theorem visibleWrites_run {tr : List Action} (h : machine.run tr = some s)
    (hQ : machine.EveryStep Orderly tr) (p : List String) :
    s.visibleWrites.hasCompleteWriteAtPath p =
        (layerTreeFromWrites s.allWrites defaultFilter []).hasCompleteWriteAtPath p ∧
      (s.visibleWrites.patch p).getD none =
        ((layerTreeFromWrites s.allWrites defaultFilter []).patch p).getD none := by
  have hkept := (sound_run h hQ).gathers
  have hanew := gathers_layerTreeFromWrites s.allWrites
  refine ⟨?_, (hkept.leaves p).trans (hanew.leaves p).symm⟩
  rw [Bool.eq_iff_iff]
  exact (hkept.complete_iff p).trans (hanew.complete_iff p).symm

/-- **In an orderly run the app sees the server's data with the pending
writes done**: at each path, and for each child of a path. -/
theorem completeEventCache_run {tr : List Action} (h : machine.run tr = some s)
    (hQ : machine.EveryStep Orderly tr) (hroot : NoLeafAbove (writesOf s.allWrites) root)
    (p : List String) :
    (∃ n, s.calculateCompleteEventCacheAtPath p (some (root.getChild p)) none false = some n ∧
        n.IsEqual ((doWrites (writesOf s.allWrites) root).getChild p)) ∧
      ∀ k, ∃ n, s.calculateCompleteChildAtPath p k (root.getChild p) true = some n ∧
        n.IsEqual ((doWrites (writesOf s.allWrites) root).getChild (p ++ [k])) := by
  have hsound := sound_run h hQ
  exact ⟨isEqual_completeEventCache hsound.gathers hroot p,
    isEqual_completeChild hsound.gathers hroot p⟩

/-- A name is written twice, and the first write is answered. -/
def nameRun : List Action :=
  [.removeWrite 0, .addOverwrite ["phone", "name"] (FNode.nodeFrom (.string "new")) 1 true,
    .addOverwrite ["phone", "name"] (FNode.nodeFrom (.string "old")) 0 true]

theorem exists_nameRun :
    ∃ s, machine.run nameRun = some s ∧ machine.EveryStep Orderly nameRun := by
  refine ⟨_, rfl, ⟨⟨⟨trivial, fun _ _ => rfl⟩, fun _ _ => rfl⟩, fun s hs => ?_⟩⟩
  obtain rfl := Option.some.inj hs
  refine ⟨_, _, rfl, rfl, fun c hc habove => ?_⟩
  obtain rfl := List.mem_singleton.1 hc
  exact absurd rfl habove.2

theorem visibleWrites_run_name :
    ∃ s, machine.run nameRun = some s ∧ ∀ p,
      s.visibleWrites.hasCompleteWriteAtPath p =
          (layerTreeFromWrites s.allWrites defaultFilter []).hasCompleteWriteAtPath p ∧
        (s.visibleWrites.patch p).getD none =
          ((layerTreeFromWrites s.allWrites defaultFilter []).patch p).getD none := by
  obtain ⟨s, hs, horderly⟩ := exists_nameRun
  exact ⟨s, hs, visibleWrites_run hs horderly⟩

theorem completeEventCache_run_name :
    ∃ s, machine.run nameRun = some s ∧
      ∃ n, s.calculateCompleteEventCacheAtPath ["phone"] (some FNode.emptyNode) none false =
          some n ∧
        n.IsEqual ((doWrites (writesOf s.allWrites) FNode.emptyNode).getChild ["phone"]) := by
  obtain ⟨s, hs, horderly⟩ := exists_nameRun
  have hroot : NoLeafAbove (writesOf s.allWrites) FNode.emptyNode :=
    fun q => Or.inl (FNode.leafAt_emptyNode q)
  exact ⟨s, hs, (completeEventCache_run hs horderly hroot ["phone"]).1⟩

end FWriteTree

end DevicesTracker
