import DevicesTracker.Firebase.SyncRuns
/-!
# Firebase — what the listeners know

A listener is told the value of its path when it is registered, if the view
is complete, and then whenever a value change comes. In an orderly run the
last value told at a path is always the server's data there with the writes
now pending done one after another (`value_run`), though no one ever
computes it from the start.
-/

namespace DevicesTracker

open FImmutableTree

/-- The node of a value change. -/
def FChange.value? : FChange → Option FNode
  | child _ _ => none
  | value node => some node

theorem FSyncTree.value_initialChanges (v : FViewCache) :
    (initialChanges v).findSome? FChange.value? = v.completeEventSnap := by
  have hnone : (v.cachedEventSnap.node.childKeys.map fun key =>
      FChange.child key (.added (v.cachedEventSnap.node.getImmediateChild key))).findSome?
        FChange.value? = none := by
    rw [List.findSome?_eq_none_iff]
    intro change hchange
    obtain ⟨key, -, rfl⟩ := List.mem_map.1 hchange
    rfl
  unfold initialChanges FViewCache.completeEventSnap
  dsimp only
  split
  · rw [List.findSome?_append, hnone]
    rfl
  · exact hnone

/-- **The sync tree and its listeners**, with the last value they were told
at each path. -/
structure Listeners where
  tree : FSyncTree := {}
  value : List String → Option FNode := fun _ => none

namespace Listeners

/-- The value an action has the listeners at a path told. -/
def valueTold (tree : FSyncTree) (a : FSyncTree.Action) (told : FSyncTree.Told)
    (path : List String) : Option FNode :=
  let toldThere := ((told.lookup path).getD []).findSome? FChange.value?
  match a with
  | .addEventRegistration registered =>
    if registered = path then
      (tree.views.lookup path).bind fun viewCache =>
        (FSyncTree.initialChanges viewCache).findSome? FChange.value?
    else toldThere
  | _ => toldThere

def step (s : Listeners) (a : FSyncTree.Action) : Option Listeners :=
  (s.tree.act a).map fun r =>
    { tree := r.1, value := fun path => (valueTold r.1 a r.2 path).or (s.value path) }

def machine : Machine Listeners FSyncTree.Action := ⟨{}, step⟩

/-- **The listeners are up to date** with every complete view. -/
def UpToDate (s : Listeners) : Prop :=
  ∀ q v, (q, v) ∈ s.tree.views → v.cachedEventSnap.isFullyInitialized = true →
    ∃ n, s.value q = some n ∧ n.IsEqual v.cachedEventSnap.node

section Told

variable {tree : FSyncTree} {a : FSyncTree.Action} {told : FSyncTree.Told} {q : List String}

theorem valueTold_registered :
    valueTold tree (.addEventRegistration q) told q =
      (tree.views.lookup q).bind FViewCache.completeEventSnap := by
  unfold valueTold
  dsimp only
  rw [if_pos rfl]
  cases tree.views.lookup q with
  | none => rfl
  | some v => exact FSyncTree.value_initialChanges v

theorem valueTold_of_ne (h : a ≠ .addEventRegistration q) :
    valueTold tree a told q = ((told.lookup q).getD []).findSome? FChange.value? := by
  unfold valueTold
  split
  · rename_i registered
    exact if_neg fun heq => h (congrArg _ heq)
  · rfl

/-- A value told of a view that was there is the view's. -/
theorem isEqual_of_reported {v v' : FViewCache} {changes : List FChange} {value : Option FNode}
    (h : Reported v v' changes) (hfull : v'.cachedEventSnap.isFullyInitialized = true)
    (hvalue : v.cachedEventSnap.isFullyInitialized = true →
      ∃ n, value = some n ∧ n.IsEqual v.cachedEventSnap.node) :
    ∃ n, (changes.findSome? FChange.value?).or value = some n ∧
      n.IsEqual v'.cachedEventSnap.node := by
  cases hchanges : changes.findSome? FChange.value? with
  | some n =>
    obtain ⟨change, hmem, hn⟩ := List.exists_of_findSome?_eq_some hchanges
    cases change with
    | child key change => cases hn
    | value node =>
      obtain rfl := Option.some.inj hn
      refine ⟨node, rfl, ?_⟩
      rw [(h.value node hmem).1]
      exact FNode.IsEqual.refl _
  | none =>
    -- the app was told nothing, and has seen all there is
    obtain ⟨hfull', hequal⟩ := h.silent hfull fun n hn => by
      have hno := List.findSome?_eq_none_iff.1 hchanges _ hn
      cases hno
    obtain ⟨n, hn, hn'⟩ := hvalue hfull'
    exact ⟨n, hn, hn'.trans hequal⟩

end Told

/-- **An orderly action keeps the listeners up to date.** -/
theorem UpToDate.step {s s' : Listeners} {tr : List FSyncTree.Action} {a : FSyncTree.Action}
    (h : s.UpToDate) (hsound : s.tree.Sound) (ha : FSyncTree.Orderly tr s.tree a)
    (hstep : s.step a = some s') : s'.tree.Sound ∧ s'.UpToDate := by
  obtain ⟨tree, told, hact, htree, hreports⟩ := hsound.act ha
  unfold Listeners.step at hstep
  rw [hact] at hstep
  obtain rfl := Option.some.inj hstep
  refine ⟨htree, fun q v' hv' hfull => ?_⟩
  dsimp only at hv' ⊢
  by_cases hnew : a = .addEventRegistration q
  · subst hnew
    rw [valueTold_registered, Dictionary.lookup_of_mem htree.nodup hv', Option.bind_some]
    unfold FViewCache.completeEventSnap
    rw [if_pos hfull]
    exact ⟨_, rfl, FNode.IsEqual.refl _⟩
  · rw [valueTold_of_ne hnew]
    obtain ⟨v, hv, hreported⟩ := (hreports q v' hv').resolve_left hnew
    exact isEqual_of_reported hreported hfull (h q v hv)

/-- In an orderly run the listeners are up to date. -/
theorem upToDate_run {s : Listeners} {tr : List FSyncTree.Action} (h : machine.run tr = some s)
    (hQ : machine.EveryStep (fun tr s a => FSyncTree.Orderly tr s.tree a) tr) :
    s.tree.Sound ∧ s.UpToDate := by
  refine Machine.run_induction_from (M := machine) (P := fun _ s => s.tree.Sound ∧ s.UpToDate)
    ?_ ?_ (List.nil_suffix (l := tr)) hQ h
  · intro s hs
    obtain rfl := Option.some.inj hs
    exact ⟨FSyncTree.sound_init, fun _ _ hv => absurd hv List.not_mem_nil⟩
  · intro tr s a s' _ horderly hkept hstep
    exact hkept.2.step hkept.1 horderly hstep

/-- **What the listeners know is what they should see**: in an orderly run
the last value told at a path whose data the server has sent, or a pending
write decides, is the server's data with the pending writes done. -/
theorem value_run {s : Listeners} {tr : List FSyncTree.Action} (h : machine.run tr = some s)
    (hQ : machine.EveryStep (fun tr s a => FSyncTree.Orderly tr s.tree a) tr)
    {q : List String} {v : FViewCache} (hv : (q, v) ∈ s.tree.views)
    (hfull : v.cachedServerSnap.isFullyInitialized = true ∨ Shadowed s.tree.pending q) :
    ∃ n, s.value q = some n ∧
      n.IsEqual (expected s.tree.pending q v.cachedServerSnap.node) := by
  obtain ⟨hsound, hupToDate⟩ := upToDate_run h hQ
  have hcoherent := hsound.coherent _ hv
  obtain ⟨n, hn, hequal⟩ := hupToDate q v hv (hcoherent.full hfull)
  exact ⟨n, hn, hequal.trans (hcoherent.isEqual hfull)⟩

theorem orderly_nameRun :
    machine.EveryStep (fun tr s a => FSyncTree.Orderly tr s.tree a) FSyncTree.nameRun := by
  have horderly := FSyncTree.orderly_nameRun
  refine ⟨⟨⟨trivial, fun _ _ => trivial⟩, fun s hs => ?_⟩, fun s hs => ?_⟩
  · obtain rfl := Option.some.inj hs
    exact horderly.1.2 _ rfl
  · obtain rfl := Option.some.inj hs
    exact horderly.2 _ rfl

theorem value_run_name :
    ∃ s v n, machine.run FSyncTree.nameRun = some s ∧ (["name"], v) ∈ s.tree.views ∧
      s.value ["name"] = some n ∧
      n.IsEqual (expected s.tree.pending ["name"] v.cachedServerSnap.node) := by
  have hsome : ((machine.run FSyncTree.nameRun).bind fun s =>
      (s.tree.views.lookup ["name"]).bind FViewCache.completeServerSnap).isSome = true := by
    decide +kernel
  obtain ⟨m, hm⟩ := Option.isSome_iff_exists.1 hsome
  obtain ⟨s, hs, hlookup⟩ := Option.bind_eq_some_iff.1 hm
  obtain ⟨v, hv, hcomplete⟩ := Option.bind_eq_some_iff.1 hlookup
  have hmem := Dictionary.mem_of_lookup hv
  unfold FViewCache.completeServerSnap at hcomplete
  split at hcomplete
  · rename_i hfull
    obtain ⟨n, hn⟩ := value_run hs orderly_nameRun hmem (Or.inl hfull)
    exact ⟨s, v, n, hs, hmem, hn⟩
  · cases hcomplete

end Listeners

end DevicesTracker
