import DevicesTracker.Firebase.Operations
/-!
# Firebase — the sync tree

The sync tree keeps the pending writes of a client and the views of the
queries it listens to, here the default queries, one at most at a path and
without data on disk. An operation is handed to each view. A view below
another takes over what the other has of the server when it is made, and
from then on gets the same from each operation.
-/

namespace DevicesTracker

open FImmutableSortedDictionary FImmutableTree

/-- `writeForId:`. -/
def FWriteTree.writeForId (s : FWriteTree) (writeId : ℤ) : Option FWriteRecord :=
  s.allWrites.find? fun write => write.writeId = writeId

/-- The affected tree of `ackUserWriteWithWriteId:revert:persist:clock:`. -/
def FWriteRecord.affectedTree (write : FWriteRecord) : FImmutableTree Unit :=
  match write.change with
  | .overwrite _ => setValue () [] empty
  | .merge changedChildren =>
    (changedChildren.enumerateWrites.map Prod.fst).foldl (fun affectedTree path =>
      setValue () path affectedTree) empty

structure FSyncTree where
  pendingWriteTree : FWriteTree := .init
  /-- The views of the default queries, with their paths. -/
  views : List (List String × FViewCache) := []

namespace FSyncTree

/-- What an operation tells the app, for each path listened to. -/
abbrev Told := List (List String × List FChange)

/-- The server cache an operation takes down to a path, and the first part
of `serverCacheForQuery:`: that of the first complete view on the way. -/
def completeServerCacheAtPath (s : FSyncTree) (path : List String) : Option FNode :=
  path.inits.findSome? fun pathToSyncPoint =>
    ((s.views.lookup pathToSyncPoint).bind FViewCache.completeServerSnap).map fun serverCache =>
      serverCache.getChild (FPath.relativePathFrom pathToSyncPoint path)

/-- `serverCacheForQuery:`. Below a view that is not complete, the complete
children are put together. -/
def serverCacheForQuery (s : FSyncTree) (path : List String) : FCacheNode :=
  match s.completeServerCacheAtPath path with
  | some serverCacheNode => ⟨serverCacheNode, true⟩
  | none =>
    ⟨s.views.foldl (fun (serverCacheNode : FNode) e =>
      match FPath.relativePathFrom path e.1, e.2.completeServerSnap with
      | [childKey], some completeCache =>
        if e.1 = path ++ [childKey] then serverCacheNode.updateChild [childKey] completeCache
        else serverCacheNode
      | _, _ => serverCacheNode) FNode.emptyNode, false⟩

/-- What the view at a path makes of an operation. -/
def applyToView (s : FSyncTree) (operation : FOperation) (path : List String)
    (viewCache : FViewCache) : Option (FViewCache × List FChange) :=
  match operation.operationAt path with
  | none => none
  | some none => some (viewCache, [])
  | some (some childOperation) =>
    FViewProcessor.applyOperationOn ⟨path, s.pendingWriteTree⟩ (s.completeServerCacheAtPath path)
      viewCache childOperation

/-- `applyOperationToSyncPoints:`. -/
def applyOperationToSyncPoints (s : FSyncTree) (operation : FOperation) :
    Option (FSyncTree × Told) :=
  (s.views.mapM fun e => (s.applyToView operation e.1 e.2).map fun r => (e.1, r)).map fun results =>
    ({ s with views := results.map fun e => (e.1, e.2.1) }, results.map fun e => (e.1, e.2.2))

/-- `applyUserOverwriteAtPath:newData:writeId:isVisible:`. -/
def applyUserOverwriteAtPath (s : FSyncTree) (path : List String) (newData : FNode) (writeId : ℤ)
    (visible : Bool) : Option (FSyncTree × Told) :=
  (s.pendingWriteTree.addOverwriteAtPath path newData writeId visible).bind fun writes =>
    let s := { s with pendingWriteTree := writes }
    if visible then s.applyOperationToSyncPoints (.overwrite true path newData) else some (s, [])

/-- `applyUserMergeAtPath:changedChildren:writeId:`. -/
def applyUserMergeAtPath (s : FSyncTree) (path : List String) (changedChildren : FCompoundWrite)
    (writeId : ℤ) : Option (FSyncTree × Told) :=
  (s.pendingWriteTree.addMergeAtPath path changedChildren writeId).bind fun writes =>
    ({ s with pendingWriteTree := writes } : FSyncTree).applyOperationToSyncPoints
      (.merge true path changedChildren)

/-- `ackUserWriteWithWriteId:revert:persist:clock:`. -/
def ackUserWriteWithWriteId (s : FSyncTree) (writeId : ℤ) (revert : Bool) :
    Option (FSyncTree × Told) :=
  match s.pendingWriteTree.writeForId writeId, s.pendingWriteTree.removeWriteId writeId with
  | some write, some (writes, needToReevaluate) =>
    let s := { s with pendingWriteTree := writes }
    if needToReevaluate then
      s.applyOperationToSyncPoints (.ackUserWrite write.path write.affectedTree revert)
    else some (s, [])
  | _, _ => none

/-- `removeAllWrites`. -/
def removeAllWrites (s : FSyncTree) : Option (FSyncTree × Told) :=
  let (writes, removedWrites) := s.pendingWriteTree.removeAllWrites
  let s := { s with pendingWriteTree := writes }
  if removedWrites.isEmpty then some (s, [])
  else
    s.applyOperationToSyncPoints
      (.ackUserWrite [] (FImmutableTree.setValue () [] FImmutableTree.empty) true)

/-- `addEventRegistration:forQuery:`, as far as the view goes. -/
def addEventRegistration (s : FSyncTree) (path : List String) : FSyncTree :=
  if (s.views.lookup path).isSome then s
  else
    { s with
      views := (path, FSyncPoint.initialViewCache ⟨path, s.pendingWriteTree⟩
        (s.serverCacheForQuery path)) :: s.views }

/-- The changes of `initialEvents:`, told to a new registration. -/
def initialChanges (viewCache : FViewCache) : List FChange :=
  let eventSnap := viewCache.cachedEventSnap
  let initialChanges := eventSnap.node.childKeys.map fun key =>
    FChange.child key (.added (eventSnap.node.getImmediateChild key))
  if eventSnap.isFullyInitialized then initialChanges ++ [.value eventSnap.node]
  else initialChanges

/-- What is done to the sync tree. -/
inductive Action where
  | applyUserOverwrite (path : List String) (newData : FNode) (writeId : ℤ) (visible : Bool)
  | applyUserMerge (path : List String) (changedChildren : FCompoundWrite) (writeId : ℤ)
  | ackUserWrite (writeId : ℤ) (revert : Bool)
  | removeAllWrites
  | applyServerOverwrite (path : List String) (newData : FNode)
  | applyServerMerge (path : List String) (changedChildren : FCompoundWrite)
  | applyListenComplete (path : List String)
  | addEventRegistration (path : List String)
  /-- The last registration of a query goes, and its view with it. -/
  | removeEventRegistration (path : List String)

/-- What an action makes of the sync tree, and what it tells the listeners
there are. -/
def act (s : FSyncTree) : Action → Option (FSyncTree × Told)
  | .applyUserOverwrite path newData writeId visible =>
    s.applyUserOverwriteAtPath path newData writeId visible
  | .applyUserMerge path changedChildren writeId =>
    s.applyUserMergeAtPath path changedChildren writeId
  | .ackUserWrite writeId revert => s.ackUserWriteWithWriteId writeId revert
  | .removeAllWrites => s.removeAllWrites
  | .applyServerOverwrite path newData =>
    s.applyOperationToSyncPoints (.overwrite false path newData)
  | .applyServerMerge path changedChildren =>
    s.applyOperationToSyncPoints (.merge false path changedChildren)
  | .applyListenComplete path => s.applyOperationToSyncPoints (.listenComplete path)
  | .addEventRegistration path => some (s.addEventRegistration path, [])
  | .removeEventRegistration path =>
    some ({ s with views := s.views.filter fun e => e.1 ≠ path }, [])

def machine : Machine FSyncTree Action := ⟨{}, fun s a => (s.act a).map Prod.fst⟩

end FSyncTree

/-! ## What the server sent, after an operation -/

/-- An operation after which the server's data is complete for a view. -/
def FOperation.completes : FOperation → Bool
  | .overwrite false path _ => path.isEmpty
  | .listenComplete path => path.isEmpty
  | _ => false

namespace FViewProcessor

variable {writes : FWriteTreeRef} {opt : Option FNode} {v : FViewCache} {p : List String}
  {x : FNode} {cw : FCompoundWrite} {acc : Option FChildChangeAccumulator} {cur : Progress}

theorem server_generate (h : generateEventCacheAfterServerEvent v p writes acc = some cur) :
    cur.1.cachedServerSnap = v.cachedServerSnap := by
  unfold generateEventCacheAfterServerEvent at h
  dsimp only at h
  split at h
  · rw [← Option.some.inj h]
  · split at h
    · split at h
      · simp only [Option.bind_eq_bind, Option.bind_eq_some_iff] at h
        obtain ⟨n, -, e, -, h⟩ := h
        rw [← Option.some.inj h]
        rfl
      · cases h
    · split at h
      · simp only [Option.bind_eq_bind, Option.bind_eq_some_iff] at h
        obtain ⟨e, -, h⟩ := h
        rw [← Option.some.inj h]
        rfl
      · rw [← Option.some.inj h]
        rfl

theorem full_applyServerOverwriteTo
    (h : applyServerOverwriteTo writes v p x acc = some cur) :
    cur.1.cachedServerSnap.isFullyInitialized =
      (v.cachedServerSnap.isFullyInitialized || p.isEmpty) := by
  unfold applyServerOverwriteTo at h
  dsimp only at h
  split at h
  · simp only [Option.bind_eq_bind, Option.bind_eq_some_iff] at h
    obtain ⟨e, -, h⟩ := h
    rw [server_generate h]
    exact (Bool.or_true _).symm
  · split at h
    · rw [← Option.some.inj h]
      exact (Bool.or_false _).symm
    · simp only [Option.bind_eq_bind, Option.bind_eq_some_iff] at h
      obtain ⟨e, -, h⟩ := h
      rw [server_generate h]
      exact (Bool.or_false _).symm

theorem server_applyUserOverwriteTo
    (h : applyUserOverwriteTo writes opt v p x acc = some cur) :
    cur.1.cachedServerSnap = v.cachedServerSnap := by
  unfold applyUserOverwriteTo at h
  dsimp only at h
  split at h
  · simp only [Option.bind_eq_bind, Option.bind_eq_some_iff] at h
    obtain ⟨e, -, h⟩ := h
    rw [← Option.some.inj h]
    rfl
  · split at h
    · rw [← Option.some.inj h]
    · simp only [Option.bind_eq_bind, Option.bind_eq_some_iff] at h
      obtain ⟨e, -, h⟩ := h
      rw [← Option.some.inj h]
      rfl

/-- What each step of a loop over a view keeps, the loop keeps. -/
theorem foldlM_keeps {α : Type} {f : Progress → α → Option Progress} {l : List α} {cur' : Progress}
    {P : FViewCache → Prop} (hstep : ∀ a ∈ l, ∀ cur cur', f cur a = some cur' → P cur.1 → P cur'.1)
    (h : l.foldlM f cur = some cur') (hP : P cur.1) : P cur'.1 := by
  induction l generalizing cur with
  | nil => exact Option.some.inj h ▸ hP
  | cons a l ih =>
    rw [List.foldlM_cons] at h
    obtain ⟨mid, hmid, hrest⟩ := Option.bind_eq_some_iff.1 h
    exact ih (fun b hb => hstep b (List.mem_cons_of_mem a hb)) hrest
      (hstep a List.mem_cons_self _ _ hmid hP)

theorem server_applyUserMergeTo (h : applyUserMergeTo writes opt v p cw acc = some cur) :
    cur.1.cachedServerSnap = v.cachedServerSnap := by
  unfold applyUserMergeTo at h
  obtain ⟨mid, hmid, hrest⟩ := Option.bind_eq_some_iff.1 h
  have hkeeps : ∀ (w : List String × FNode) (cur cur' : Progress),
      applyUserOverwriteTo writes opt cur.1 w.1 w.2 cur.2 = some cur' →
      cur.1.cachedServerSnap = v.cachedServerSnap → cur'.1.cachedServerSnap = v.cachedServerSnap :=
    fun w cur cur' hstep hcur => (server_applyUserOverwriteTo hstep).trans hcur
  refine foldlM_keeps (P := fun v' => v'.cachedServerSnap = v.cachedServerSnap)
    (fun w _ => hkeeps w) hrest ?_
  exact foldlM_keeps (P := fun v' => v'.cachedServerSnap = v.cachedServerSnap)
    (fun w _ => hkeeps w) hmid rfl

theorem full_applyServerMergeTo (h : applyServerMergeTo writes v p cw acc = some cur) :
    cur.1.cachedServerSnap.isFullyInitialized = v.cachedServerSnap.isFullyInitialized := by
  rw [applyServerMergeTo_eq] at h
  split at h
  · rw [← Option.some.inj h]
  · refine foldlM_keeps (P := fun v' => v'.cachedServerSnap.isFullyInitialized =
      v.cachedServerSnap.isFullyInitialized) (fun c _ cur cur' hstep hcur => ?_) h rfl
    rw [full_applyServerOverwriteTo hstep, hcur]
    exact Bool.or_false _

theorem full_ackUserWriteOn {t : FImmutableTree Unit}
    (h : ackUserWriteOn writes v p t acc = some cur) :
    cur.1.cachedServerSnap.isFullyInitialized = v.cachedServerSnap.isFullyInitialized := by
  unfold ackUserWriteOn at h
  dsimp only at h
  split at h
  · rw [← Option.some.inj h]
  split at h
  · split at h
    · rename_i hcomplete
      rw [full_applyServerOverwriteTo h]
      cases p with
      | nil =>
        have hfull : v.cachedServerSnap.isFullyInitialized = true := hcomplete
        rw [hfull]
        rfl
      | cons k p => exact Bool.or_false _
    · split at h
      · exact full_applyServerMergeTo h
      · rw [← Option.some.inj h]
  · exact full_applyServerMergeTo h

theorem server_revertUserWriteOn (h : revertUserWriteOn writes v p acc = some cur) :
    cur.1.cachedServerSnap = v.cachedServerSnap := by
  unfold revertUserWriteOn at h
  dsimp only at h
  split at h
  · rw [← Option.some.inj h]
  split at h
  · simp only [Option.bind_eq_bind, Option.bind_eq_some_iff] at h
    obtain ⟨n, -, e, -, h⟩ := h
    rw [← Option.some.inj h]
    rfl
  · simp only [Option.bind_eq_bind, Option.bind_eq_some_iff] at h
    obtain ⟨e, -, h⟩ := h
    split at h
    · obtain ⟨n, -, h⟩ := Option.bind_eq_some_iff.1 h
      split at h
      · obtain ⟨e, -, h⟩ := Option.bind_eq_some_iff.1 h
        rw [← Option.some.inj h]
        rfl
      · rw [← Option.some.inj h]
        rfl
    · rw [← Option.some.inj h]
      rfl

/-- **Whether the server's data is complete** after an operation. -/
theorem full_process {operation : FOperation} (h : process writes opt v acc operation = some cur) :
    cur.1.cachedServerSnap.isFullyInitialized =
      (v.cachedServerSnap.isFullyInitialized || operation.completes) := by
  have hsame : ∀ {c : FCacheNode}, c = v.cachedServerSnap → c.isFullyInitialized =
      (v.cachedServerSnap.isFullyInitialized || false) := fun hc => by rw [hc, Bool.or_false]
  cases operation with
  | overwrite fromUser path snap =>
    cases fromUser with
    | true => exact hsame (server_applyUserOverwriteTo h)
    | false => exact full_applyServerOverwriteTo h
  | merge fromUser path children =>
    cases fromUser with
    | true => exact hsame (server_applyUserMergeTo h)
    | false => exact (full_applyServerMergeTo h).trans (Bool.or_false _).symm
  | ackUserWrite path affectedTree revert =>
    cases revert with
    | true => exact hsame (server_revertUserWriteOn h)
    | false => exact (full_ackUserWriteOn h).trans (Bool.or_false _).symm
  | listenComplete path =>
    have hserver := server_generate h
    rw [hserver]
    rfl

end FViewProcessor

end DevicesTracker
