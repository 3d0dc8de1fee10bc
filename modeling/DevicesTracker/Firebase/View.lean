import DevicesTracker.Firebase.Filter
import DevicesTracker.Firebase.WriteTree
/-!
# Firebase — views

A view keeps, for the path of a query, what the server sent and what the
app is to see: the server's data with the pending writes laid over it.
`FViewProcessor` takes one operation after another, a write of the user, an
acknowledgement or new data of the server, and changes only what the
operation touches, telling an accumulator which children it changed. The
queries here are unfiltered, as the app's are; nodes have no priorities.
An operation gives `none` where an assertion of the source fails.
-/

namespace DevicesTracker

open FImmutableTree

/-! ## What a view asks of the pending writes -/

namespace FCompoundWrite

def rootWrite (cw : FCompoundWrite) : Option FNode := cw.writeTree.value

/-- `completeChildren`. -/
def completeChildren (cw : FCompoundWrite) : List (String × FNode) :=
  match cw.writeTree.value with
  | some node => node.childKeys.map fun key => (key, node.getImmediateChild key)
  | none => cw.writeTree.children.filterMap fun c => c.2.value.map fun node => (c.1, node)

theorem wellFormed_of_mem_children {t : FImmutableTree FNode} (h : t.WellFormed)
    {c : String × FImmutableTree FNode} (hc : c ∈ t.children) : c.2.WellFormed := by
  cases h with
  | written v => exact absurd hc List.not_mem_nil
  | node hnodup hne hcs => exact hcs c hc

/-- `childCompoundWrites`. -/
def childCompoundWrites (cw : FCompoundWrite) : List (String × FCompoundWrite) :=
  cw.writeTree.children.attach.map fun c =>
    (c.1.1, ⟨c.1.2, wellFormed_of_mem_children cw.wellFormed c.2⟩)

end FCompoundWrite

/-- `calculateCompleteEventChildrenAtPath:completeServerChildren:`. -/
def FWriteTree.calculateCompleteEventChildrenAtPath (s : FWriteTree) (treePath : List String)
    (completeServerChildren : FNode) : FNode :=
  let addChild := fun (completeChildren : FNode) (c : String × FNode) =>
    completeChildren.updateChild [c.1] c.2
  match s.visibleWrites.completeNodeAtPath treePath with
  | some topLevelSet =>
    (topLevelSet.childKeys.map fun key => (key, topLevelSet.getImmediateChild key)).foldl
      addChild FNode.emptyNode
  | none =>
    let merge := s.visibleWrites.childCompoundWriteAtPath treePath
    let completeChildren :=
      (completeServerChildren.childKeys.map fun key =>
        (key, (merge.childCompoundWriteAtPath [key]).applyToNode
          (completeServerChildren.getImmediateChild key))).foldl addChild FNode.emptyNode
    merge.completeChildren.foldl addChild completeChildren

/-- `FCacheNode`, of an unfiltered query. -/
structure FCacheNode where
  node : FNode
  isFullyInitialized : Bool

namespace FCacheNode

def isCompleteForChild (c : FCacheNode) (childKey : String) : Bool :=
  c.isFullyInitialized || c.node.hasChild childKey

def isCompleteForPath (c : FCacheNode) : List String → Bool
  | [] => c.isFullyInitialized
  | childKey :: _ => c.isCompleteForChild childKey

end FCacheNode

/-- The pending writes as seen from a path. -/
structure FWriteTreeRef where
  path : List String
  writeTree : FWriteTree

namespace FWriteTreeRef

variable (writes : FWriteTreeRef)

/-- `shadowingWriteAtPath:`. -/
def shadowingWriteAtPath (path : List String) : Option FNode :=
  writes.writeTree.visibleWrites.completeNodeAtPath (writes.path ++ path)

/-- `calculateCompleteEventCacheWithCompleteServerCache:`. -/
def calculateCompleteEventCache (completeServerCache : Option FNode) : Option FNode :=
  writes.writeTree.calculateCompleteEventCacheAtPath writes.path completeServerCache none false

/-- `calculateCompleteEventChildrenWithCompleteServerChildren:`. -/
def calculateCompleteEventChildren (completeServerChildren : FNode) : FNode :=
  writes.writeTree.calculateCompleteEventChildrenAtPath writes.path completeServerChildren

/-- `calculateEventCacheAfterServerOverwriteWithChildPath:existingEventSnap:existingServerSnap:`. -/
def calculateEventCacheAfterServerOverwrite (childPath : List String)
    (existingServerSnap : FNode) : Option FNode :=
  writes.writeTree.calculateEventCacheAfterServerOverwriteAtPath writes.path childPath
    existingServerSnap

/-- `calculateCompleteChild:cache:`. -/
def calculateCompleteChild (childKey : String) (existingServerCache : FCacheNode) :
    Option FNode :=
  writes.writeTree.calculateCompleteChildAtPath writes.path childKey existingServerCache.node
    (existingServerCache.isCompleteForChild childKey)

end FWriteTreeRef

/-! ## Operations -/

/-- **An operation**, relative to a path: an overwrite or a merge of the
user or of the server, an acknowledgement of a write of the user with the
paths it affected, or the end of a listen's first data. -/
inductive FOperation where
  | overwrite (fromUser : Bool) (path : List String) (snap : FNode)
  | merge (fromUser : Bool) (path : List String) (children : FCompoundWrite)
  | ackUserWrite (path : List String) (affectedTree : FImmutableTree Unit) (revert : Bool)
  | listenComplete (path : List String)

namespace FOperation

def path : FOperation → List String
  | overwrite _ path _ => path
  | merge _ path _ => path
  | ackUserWrite path _ _ => path
  | listenComplete path => path

/-- `operationForChild:`, for a child on the way to the path or below it.
A merge may have nothing for the child. -/
def operationForChild (childKey : String) : FOperation → Option (Option FOperation)
  | overwrite fromUser [] snap =>
    some (some (overwrite fromUser [] (snap.getImmediateChild childKey)))
  | overwrite fromUser (_ :: path) snap => some (some (overwrite fromUser path snap))
  | merge fromUser [] children =>
    let childTree := children.childCompoundWriteAtPath [childKey]
    if childTree.isEmpty then some none
    else
      match childTree.rootWrite with
      | some rootWrite => some (some (overwrite fromUser [] rootWrite))
      | none => some (some (merge fromUser [] childTree))
  | merge fromUser (_ :: path) children => some (some (merge fromUser path children))
  | ackUserWrite [] affectedTree revert =>
    if affectedTree.value.isSome then
      if affectedTree.children.isEmpty then some (some (ackUserWrite [] affectedTree revert))
      else none
    else some (some (ackUserWrite [] (subtreeAtPath [childKey] affectedTree) revert))
  | ackUserWrite (_ :: path) affectedTree revert =>
    some (some (ackUserWrite path affectedTree revert))
  | listenComplete [] => some (some (listenComplete []))
  | listenComplete (_ :: path) => some (some (listenComplete path))

/-- The operation as `applyOperationHelper:…` hands it to the sync point at
a path: it goes along its own path, and then to everything below. -/
def operationAt : List String → FOperation → Option (Option FOperation)
  | [], operation => some (some operation)
  | childKey :: rest, operation =>
    if operation.path.head?.all fun front => front = childKey then
      match operation.operationForChild childKey with
      | none => none
      | some none => some none
      | some (some childOperation) => operationAt rest childOperation
    else some none

end FOperation

/-! ## The processor -/

/-- **What a view keeps**: what the app sees, and what the server sent. -/
structure FViewCache where
  cachedEventSnap : FCacheNode
  cachedServerSnap : FCacheNode

namespace FViewCache

/-- `updateEventSnap:isComplete:isFiltered:`. -/
def updateEventSnap (v : FViewCache) (eventSnap : FNode) (complete : Bool) : FViewCache :=
  { v with cachedEventSnap := ⟨eventSnap, complete⟩ }

/-- `updateServerSnap:isComplete:isFiltered:`. -/
def updateServerSnap (v : FViewCache) (serverSnap : FNode) (complete : Bool) : FViewCache :=
  { v with cachedServerSnap := ⟨serverSnap, complete⟩ }

def completeEventSnap (v : FViewCache) : Option FNode :=
  if v.cachedEventSnap.isFullyInitialized then some v.cachedEventSnap.node else none

def completeServerSnap (v : FViewCache) : Option FNode :=
  if v.cachedServerSnap.isFullyInitialized then some v.cachedServerSnap.node else none

end FViewCache

namespace FViewProcessor

open FIndexedFilter

/-- A view and the changes tracked so far. -/
abbrev Progress := FViewCache × Option FChildChangeAccumulator

/-- `completeChild:` of `FWriteTreeCompleteChildSource`. -/
def completeChild (writes : FWriteTreeRef) (viewCache : FViewCache)
    (optCompleteServerCache : Option FNode) (childKey : String) : Option FNode :=
  let node := viewCache.cachedEventSnap
  if node.isCompleteForChild childKey then some (node.node.getImmediateChild childKey)
  else
    let serverNode : FCacheNode :=
      match optCompleteServerCache with
      | some completeServerCache => ⟨completeServerCache, true⟩
      | none => viewCache.cachedServerSnap
    writes.calculateCompleteChild childKey serverNode

/-- The new child of the event cache under a key, after the server's data
changed at a path in it. -/
def eventChildAfterServerEvent (viewCache : FViewCache) (childKey : String)
    (childChangePath : List String) (writesCache : FWriteTreeRef) : Option FNode :=
  let oldEventSnap := viewCache.cachedEventSnap
  if oldEventSnap.isCompleteForChild childKey then
    match writesCache.calculateEventCacheAfterServerOverwrite (childKey :: childChangePath)
        viewCache.cachedServerSnap.node with
    | some eventChildUpdate =>
      some ((oldEventSnap.node.getImmediateChild childKey).updateChild childChangePath
        eventChildUpdate)
    | none => some (oldEventSnap.node.getImmediateChild childKey)
  else writesCache.calculateCompleteChild childKey viewCache.cachedServerSnap

/-- `generateEventCacheAfterServerEvent:path:writesCache:source:accumulator:`. -/
def generateEventCacheAfterServerEvent (viewCache : FViewCache) (changePath : List String)
    (writesCache : FWriteTreeRef) (accumulator : Option FChildChangeAccumulator) :
    Option Progress :=
  let oldEventSnap := viewCache.cachedEventSnap
  if (writesCache.shadowingWriteAtPath changePath).isSome then some (viewCache, accumulator)
  else
    match changePath with
    | [] =>
      if viewCache.cachedServerSnap.isFullyInitialized then do
        let nodeWithLocalWrites ←
          writesCache.calculateCompleteEventCache viewCache.completeServerSnap
        let (newEventCache, accumulator) ←
          updateFullNode oldEventSnap.node nodeWithLocalWrites accumulator
        return (viewCache.updateEventSnap newEventCache true, accumulator)
      else none
    | childKey :: childChangePath =>
      match eventChildAfterServerEvent viewCache childKey childChangePath writesCache with
      | some newEventChild => do
        let (newEventCache, accumulator) ←
          updateChildIn oldEventSnap.node childKey newEventChild childChangePath accumulator
        return (viewCache.updateEventSnap newEventCache oldEventSnap.isFullyInitialized,
          accumulator)
      | none =>
        -- no complete child, or no change
        some (viewCache.updateEventSnap oldEventSnap.node oldEventSnap.isFullyInitialized,
          accumulator)

/-- `applyServerOverwriteTo:changePath:snap:…`. -/
def applyServerOverwriteTo (writesCache : FWriteTreeRef) (oldViewCache : FViewCache)
    (changePath : List String) (changedSnap : FNode)
    (accumulator : Option FChildChangeAccumulator) : Option Progress :=
  let oldServerSnap := oldViewCache.cachedServerSnap
  match changePath with
  | [] => do
    let (newServerCache, _) ← updateFullNode oldServerSnap.node changedSnap none
    generateEventCacheAfterServerEvent (oldViewCache.updateServerSnap newServerCache true) []
      writesCache accumulator
  | childKey :: childChangePath =>
    if !oldServerSnap.isCompleteForPath (childKey :: childChangePath) &&
        !childChangePath.isEmpty then
      -- an update for another listener
      some (oldViewCache, accumulator)
    else do
      let childNode := oldServerSnap.node.getImmediateChild childKey
      let newChildNode := childNode.updateChild childChangePath changedSnap
      let (newServerCache, _) ←
        updateChildIn oldServerSnap.node childKey newChildNode childChangePath none
      generateEventCacheAfterServerEvent
        (oldViewCache.updateServerSnap newServerCache oldServerSnap.isFullyInitialized)
        (childKey :: childChangePath) writesCache accumulator

/-- The new child of the event cache under a key, after a write of the user
in it. -/
def childAfterUserOverwrite (writesCache : FWriteTreeRef) (optCompleteCache : Option FNode)
    (oldViewCache : FViewCache) (childKey : String) (childChangePath : List String)
    (changedSnap : FNode) : FNode :=
  if childChangePath.isEmpty then changedSnap
  else
    match completeChild writesCache oldViewCache optCompleteCache childKey with
    | some childNode => childNode.updateChild childChangePath changedSnap
    | none => FNode.emptyNode

/-- `applyUserOverwriteTo:changePath:changedSnap:…`. -/
def applyUserOverwriteTo (writesCache : FWriteTreeRef) (optCompleteCache : Option FNode)
    (oldViewCache : FViewCache) (changePath : List String) (changedSnap : FNode)
    (accumulator : Option FChildChangeAccumulator) : Option Progress :=
  let oldEventSnap := oldViewCache.cachedEventSnap
  match changePath with
  | [] => do
    let (newEventCache, accumulator) ←
      updateFullNode oldEventSnap.node changedSnap accumulator
    return (oldViewCache.updateEventSnap newEventCache true, accumulator)
  | childKey :: childChangePath =>
    let oldChild := oldEventSnap.node.getImmediateChild childKey
    let newChild :=
      childAfterUserOverwrite writesCache optCompleteCache oldViewCache childKey childChangePath
        changedSnap
    if oldChild.IsEqual newChild then some (oldViewCache, accumulator)
    else do
      let (newEventSnap, accumulator) ←
        updateChildIn oldEventSnap.node childKey newChild childChangePath accumulator
      return (oldViewCache.updateEventSnap newEventSnap oldEventSnap.isFullyInitialized,
        accumulator)

/-- `cache:hasChild:`, for the first piece of a path. -/
def cacheHasChild (viewCache : FViewCache) (writePath : List String) : Bool :=
  viewCache.cachedEventSnap.isFullyInitialized ||
    writePath.head?.any viewCache.cachedEventSnap.node.hasChild

/-- `applyUserMergeTo:path:changedChildren:…`: first the writes to children
in view, then the others. -/
def applyUserMergeTo (writesCache : FWriteTreeRef) (serverCache : Option FNode)
    (viewCache : FViewCache) (path : List String) (changedChildren : FCompoundWrite)
    (accumulator : Option FChildChangeAccumulator) : Option Progress :=
  let writes := changedChildren.enumerateWrites.map fun e => (path ++ e.1, e.2)
  let apply := fun (cur : Progress) (write : List String × FNode) =>
    applyUserOverwriteTo writesCache serverCache cur.1 write.1 write.2 cur.2
  do
    let cur ← (writes.filter fun w => cacheHasChild viewCache w.1).foldlM apply
      (viewCache, accumulator)
    (writes.filter fun w => !cacheHasChild viewCache w.1).foldlM apply cur

/-- `applyServerMergeTo:path:changedChildren:…`: first the children the
server's data has, then the others. -/
def applyServerMergeTo (writesCache : FWriteTreeRef) (viewCache : FViewCache)
    (path : List String) (changedChildren : FCompoundWrite)
    (accumulator : Option FChildChangeAccumulator) : Option Progress :=
  let server := viewCache.cachedServerSnap
  if server.node.isEmpty && !server.isFullyInitialized then some (viewCache, accumulator)
  else
    let actualMerge :=
      if path.isEmpty then changedChildren
      else FCompoundWrite.emptyWrite.addCompoundWrite changedChildren path
    let apply := fun (cur : Progress) (c : String × FCompoundWrite) =>
      applyServerOverwriteTo writesCache cur.1 [c.1]
        (c.2.applyToNode (server.node.getImmediateChild c.1)) cur.2
    let isUnknownDeepMerge := fun c : String × FCompoundWrite =>
      !server.isCompleteForChild c.1 && c.2.rootWrite.isNone
    do
      let cur ← (actualMerge.childCompoundWrites.filter fun c =>
        server.node.hasChild c.1).foldlM apply (viewCache, accumulator)
      (actualMerge.childCompoundWrites.filter fun c =>
        !server.node.hasChild c.1 && !isUnknownDeepMerge c).foldlM apply cur

/-- `ackUserWriteOn:ackPath:affectedTree:…`: the server's data at the paths
affected is done again, now that the write is not over it. -/
def ackUserWriteOn (writesCache : FWriteTreeRef) (viewCache : FViewCache)
    (ackPath : List String) (affectedTree : FImmutableTree Unit)
    (accumulator : Option FChildChangeAccumulator) : Option Progress :=
  let serverCache := viewCache.cachedServerSnap
  if (writesCache.shadowingWriteAtPath ackPath).isSome then some (viewCache, accumulator)
  else if affectedTree.value.isSome then
    if serverCache.isCompleteForPath ackPath then
      applyServerOverwriteTo writesCache viewCache ackPath (serverCache.node.getChild ackPath)
        accumulator
    else if ackPath.isEmpty then
      let changedChildren :=
        serverCache.node.childKeys.foldl (fun (changedChildren : FCompoundWrite) key =>
          changedChildren.addWrite (serverCache.node.getImmediateChild key) [key])
          FCompoundWrite.emptyWrite
      applyServerMergeTo writesCache viewCache ackPath changedChildren accumulator
    else some (viewCache, accumulator)
  else
    let changedChildren :=
      affectedTree.forEach.foldl (fun (changedChildren : FCompoundWrite) e =>
        let serverCachePath := ackPath ++ e.1
        if serverCache.isCompleteForPath serverCachePath then
          changedChildren.addWrite (serverCache.node.getChild serverCachePath) e.1
        else changedChildren) FCompoundWrite.emptyWrite
    applyServerMergeTo writesCache viewCache ackPath changedChildren accumulator

/-- The new child of the event cache under a key, after a write in it was
taken back. -/
def childAfterRevert (writesCache : FWriteTreeRef) (viewCache : FViewCache) (childKey : String) :
    Option FNode :=
  let oldEventCache := viewCache.cachedEventSnap.node
  match writesCache.calculateCompleteChild childKey viewCache.cachedServerSnap with
  | some newChild => some newChild
  | none =>
    if viewCache.cachedServerSnap.isCompleteForChild childKey then
      some (oldEventCache.getImmediateChild childKey)
    else if oldEventCache.hasChild childKey then some FNode.emptyNode
    else none

/-- The event cache after a write in the child under a key was taken back. -/
def revertChild (writesCache : FWriteTreeRef) (viewCache : FViewCache) (childKey : String)
    (affectedPath : List String) (accumulator : Option FChildChangeAccumulator) :
    Option (FNode × Option FChildChangeAccumulator) :=
  let oldEventCache := viewCache.cachedEventSnap.node
  match childAfterRevert writesCache viewCache childKey with
  | some newChild => updateChildIn oldEventCache childKey newChild affectedPath accumulator
  | none => some (oldEventCache, accumulator)

/-- The event cache after a write at the path of the view was taken back. -/
def nodeAfterRevert (writesCache : FWriteTreeRef) (viewCache : FViewCache) : Option FNode :=
  let server := viewCache.cachedServerSnap
  if server.isFullyInitialized then
    writesCache.calculateCompleteEventCache viewCache.completeServerSnap
  else some (writesCache.calculateCompleteEventChildren server.node)

/-- `revertUserWriteOn:path:…`. -/
def revertUserWriteOn (writesCache : FWriteTreeRef) (viewCache : FViewCache)
    (path : List String) (accumulator : Option FChildChangeAccumulator) : Option Progress :=
  let oldEventCache := viewCache.cachedEventSnap.node
  let server := viewCache.cachedServerSnap
  let complete := server.isFullyInitialized || (writesCache.shadowingWriteAtPath []).isSome
  if (writesCache.shadowingWriteAtPath path).isSome then some (viewCache, accumulator)
  else
    match path with
    | [] => do
      let newNode ← nodeAfterRevert writesCache viewCache
      let (newEventCache, accumulator) ← updateFullNode oldEventCache newNode accumulator
      return (viewCache.updateEventSnap newEventCache complete, accumulator)
    | childKey :: affectedPath => do
      let (newEventCache, accumulator) ←
        revertChild writesCache viewCache childKey affectedPath accumulator
      if newEventCache.isEmpty && server.isFullyInitialized then
        -- all writes to children may be gone, and the node be a leaf node again
        let node ← writesCache.calculateCompleteEventCache viewCache.completeServerSnap
        if node.isLeafNode then
          let (newEventCache, accumulator) ← updateFullNode newEventCache node accumulator
          return (viewCache.updateEventSnap newEventCache complete, accumulator)
        else return (viewCache.updateEventSnap newEventCache complete, accumulator)
      else return (viewCache.updateEventSnap newEventCache complete, accumulator)

/-- `listenCompleteOldCache:path:…`. -/
def listenComplete (writesCache : FWriteTreeRef) (viewCache : FViewCache) (path : List String)
    (accumulator : Option FChildChangeAccumulator) : Option Progress :=
  let oldServerNode := viewCache.cachedServerSnap
  generateEventCacheAfterServerEvent
    (viewCache.updateServerSnap oldServerNode.node
      (oldServerNode.isFullyInitialized || path.isEmpty))
    path writesCache accumulator

/-- `maybeAddValueFromOldViewCache:newViewCache:changes:`. -/
def maybeAddValue (oldViewCache newViewCache : FViewCache) (changes : List FChange) :
    List FChange :=
  let eventSnap := newViewCache.cachedEventSnap
  if eventSnap.isFullyInitialized then
    let isLeafOrEmpty := eventSnap.node.isLeafNode || eventSnap.node.isEmpty
    if !changes.isEmpty || !oldViewCache.cachedEventSnap.isFullyInitialized ||
        (isLeafOrEmpty && !decide (eventSnap.node.IsEqual oldViewCache.cachedEventSnap.node)) then
      changes ++ [.value eventSnap.node]
    else changes
  else changes

/-- The new view cache of `applyOperationOn:operation:…`. -/
def process (writesCache : FWriteTreeRef) (optCompleteCache : Option FNode)
    (oldViewCache : FViewCache) (accumulator : Option FChildChangeAccumulator) :
    FOperation → Option Progress
  | .overwrite true path snap =>
    applyUserOverwriteTo writesCache optCompleteCache oldViewCache path snap accumulator
  | .overwrite false path snap =>
    applyServerOverwriteTo writesCache oldViewCache path snap accumulator
  | .merge true path children =>
    applyUserMergeTo writesCache optCompleteCache oldViewCache path children accumulator
  | .merge false path children =>
    applyServerMergeTo writesCache oldViewCache path children accumulator
  | .ackUserWrite path affectedTree false =>
    ackUserWriteOn writesCache oldViewCache path affectedTree accumulator
  | .ackUserWrite path _ true => revertUserWriteOn writesCache oldViewCache path accumulator
  | .listenComplete path => listenComplete writesCache oldViewCache path accumulator

/-- `applyOperationOn:operation:writesCache:completeCache:`. -/
def applyOperationOn (writesCache : FWriteTreeRef) (optCompleteCache : Option FNode)
    (oldViewCache : FViewCache) (operation : FOperation) :
    Option (FViewCache × List FChange) :=
  (process writesCache optCompleteCache oldViewCache (some {}) operation).map fun cur =>
    (cur.1, maybeAddValue oldViewCache cur.1 ((cur.2.map FChildChangeAccumulator.changes).getD []))

end FViewProcessor

end DevicesTracker
