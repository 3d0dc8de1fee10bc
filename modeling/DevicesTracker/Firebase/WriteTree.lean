import Mathlib.Data.Int.Notation
import DevicesTracker.Firebase.CompoundWrite
/-!
# Firebase — the tree of pending writes

`FWriteTree` keeps the writes of this client that the server has not
answered yet: each as an `FWriteRecord`, in the order they were made, and
all of them together as one compound write, `visibleWrites`. An answered
write is removed. Where no other write overlaps it, it is taken out of
`visibleWrites`; where one does, `visibleWrites` is built again from the
records. What the client believes the data to be is what the server sent
with `visibleWrites` laid over it. An operation gives `none` where an
assertion of the source fails.
-/

namespace DevicesTracker

/-- `contains:`. -/
def FPath.contains (path other : List String) : Bool := decide (path <+: other)

/-- What a record writes: one node, or several below its path. -/
inductive FWriteRecord.Change where
  | overwrite (node : FNode)
  | merge (changedChildren : FCompoundWrite)

/-- **A pending write.** A merge is always visible. -/
structure FWriteRecord where
  writeId : ℤ
  path : List String
  change : FWriteRecord.Change
  visible : Bool

namespace FWriteRecord

/-- `initWithPath:overwrite:writeId:visible:`. -/
def ofOverwrite (path : List String) (node : FNode) (writeId : ℤ) (visible : Bool) :
    FWriteRecord := ⟨writeId, path, .overwrite node, visible⟩

/-- `initWithPath:merge:writeId:`. -/
def ofMerge (path : List String) (changedChildren : FCompoundWrite) (writeId : ℤ) :
    FWriteRecord := ⟨writeId, path, .merge changedChildren, true⟩

/-- `record:containsPath:`. -/
def containsPath (record : FWriteRecord) (path : List String) : Bool :=
  match record.change with
  | .overwrite _ => FPath.contains record.path path
  | .merge changedChildren =>
    changedChildren.enumerateWrites.any fun e => FPath.contains (record.path ++ e.1) path

end FWriteRecord

/-- **The tree of pending writes.** -/
structure FWriteTree where
  visibleWrites : FCompoundWrite
  allWrites : List FWriteRecord
  lastWriteId : ℤ

namespace FWriteTree

def init : FWriteTree := ⟨FCompoundWrite.emptyWrite, [], -1⟩

/-- `addOverwriteAtPath:newData:writeId:isVisible:`. -/
def addOverwriteAtPath (s : FWriteTree) (path : List String) (newData : FNode) (writeId : ℤ)
    (visible : Bool) : Option FWriteTree :=
  if s.lastWriteId < writeId then
    some
      { visibleWrites :=
          if visible then s.visibleWrites.addWrite newData path else s.visibleWrites
        allWrites := s.allWrites ++ [.ofOverwrite path newData writeId visible]
        lastWriteId := writeId }
  else none

/-- `addMergeAtPath:changedChildren:writeId:`. -/
def addMergeAtPath (s : FWriteTree) (path : List String) (changedChildren : FCompoundWrite)
    (writeId : ℤ) : Option FWriteTree :=
  if s.lastWriteId < writeId then
    some
      { visibleWrites := s.visibleWrites.addCompoundWrite changedChildren path
        allWrites := s.allWrites ++ [.ofMerge path changedChildren writeId]
        lastWriteId := writeId }
  else none

/-- `layerTreeFromWrites:filter:treeRoot:`: one record laid over those
before it, as seen from the root of the tree. -/
def layerRecord (treeRoot : List String) (compoundWrite : FCompoundWrite)
    (record : FWriteRecord) : FCompoundWrite :=
  let writePath := record.path
  match record.change with
  | .overwrite node =>
    if FPath.contains treeRoot writePath then
      compoundWrite.addWrite node (FPath.relativePathFrom treeRoot writePath)
    else if FPath.contains writePath treeRoot then
      compoundWrite.addWrite (node.getChild (FPath.relativePathFrom writePath treeRoot)) []
    else compoundWrite
  | .merge changedChildren =>
    if FPath.contains treeRoot writePath then
      compoundWrite.addCompoundWrite changedChildren (FPath.relativePathFrom treeRoot writePath)
    else if FPath.contains writePath treeRoot then
      let relativePath := FPath.relativePathFrom writePath treeRoot
      if relativePath.isEmpty then compoundWrite.addCompoundWrite changedChildren []
      else
        match changedChildren.completeNodeAtPath relativePath with
        | some child =>
          -- the node at the root, and what is in it below all but the first piece again
          compoundWrite.addWrite (child.getChild relativePath.tail) []
        | none => compoundWrite
    else compoundWrite

/-- `layerTreeFromWrites:filter:treeRoot:`. -/
def layerTreeFromWrites (writes : List FWriteRecord) (filter : FWriteRecord → Bool)
    (treeRoot : List String) : FCompoundWrite :=
  (writes.filter filter).foldl (layerRecord treeRoot) FCompoundWrite.emptyWrite

/-- `defaultFilter`, which keeps every record. -/
def defaultFilter : FWriteRecord → Bool := fun _ => true

/-- `resetTree`. -/
def resetTree (s : FWriteTree) : FWriteTree :=
  { s with
    visibleWrites := layerTreeFromWrites s.allWrites defaultFilter []
    lastWriteId := (s.allWrites.getLast?.map FWriteRecord.writeId).getD (-1) }

/-- The loop of `removeWriteId:` over the records that are left, the last
one first: whether the removed write was visible, and whether it overlaps
with others. A record with at least `index` records before it was made
after the removed one. -/
def overlapsFrom (writeToRemove : FWriteRecord) (index : ℕ) :
    List FWriteRecord → Bool × Bool → Bool × Bool
  | [], found => found
  | currentWrite :: before, (removedWriteWasVisible, overlaps) =>
    if !removedWriteWasVisible then (removedWriteWasVisible, overlaps)
    else if !currentWrite.visible then
      overlapsFrom writeToRemove index before (removedWriteWasVisible, overlaps)
    else if index ≤ before.length && currentWrite.containsPath writeToRemove.path then
      overlapsFrom writeToRemove index before (false, overlaps)
    else if FPath.contains writeToRemove.path currentWrite.path then
      overlapsFrom writeToRemove index before (removedWriteWasVisible, true)
    else overlapsFrom writeToRemove index before (removedWriteWasVisible, overlaps)

/-- The paths `removeWriteId:` takes out of `visibleWrites` for a write
that no other overlaps. -/
def pathsToRemove (writeToRemove : FWriteRecord) : List (List String) :=
  match writeToRemove.change with
  | .overwrite _ => [writeToRemove.path]
  | .merge changedChildren =>
    changedChildren.enumerateWrites.map fun e => writeToRemove.path ++ e.1

/-- `removeWriteId:`, with whether the write may have been visible. -/
def removeWriteId (s : FWriteTree) (writeId : ℤ) : Option (FWriteTree × Bool) :=
  match s.allWrites.findIdx? fun record => record.writeId = writeId with
  | none => none
  | some index =>
    match s.allWrites[index]? with
    | none => none
    | some writeToRemove =>
      let left := { s with allWrites := s.allWrites.eraseIdx index }
      match overlapsFrom writeToRemove index left.allWrites.reverse
          (writeToRemove.visible, false) with
      | (false, _) => some (left, false)
      | (true, true) => some (left.resetTree, true)
      | (true, false) =>
        some ({ left with
          visibleWrites :=
            (pathsToRemove writeToRemove).foldl FCompoundWrite.removeWriteAtPath
              s.visibleWrites }, true)

/-- `removeAllWrites`. -/
def removeAllWrites (s : FWriteTree) : FWriteTree × List FWriteRecord :=
  ({ s with visibleWrites := FCompoundWrite.emptyWrite, allWrites := [] }, s.allWrites)

/-! ## The data as the client believes it to be -/

/-- `calculateCompleteEventCacheAtPath:completeServerCache:excludeWriteIds:includeHiddenWrites:`. -/
def calculateCompleteEventCacheAtPath (s : FWriteTree) (treePath : List String)
    (completeServerCache : Option FNode) (writeIdsToExclude : Option (List ℤ))
    (includeHiddenWrites : Bool) : Option FNode :=
  if writeIdsToExclude.isNone && !includeHiddenWrites then
    match s.visibleWrites.completeNodeAtPath treePath with
    | some shadowingNode => some shadowingNode
    | none =>
      let subMerge := s.visibleWrites.childCompoundWriteAtPath treePath
      if subMerge.isEmpty then completeServerCache
      else if completeServerCache.isNone && !subMerge.hasCompleteWriteAtPath [] then none
      else some (subMerge.applyToNode (completeServerCache.getD FNode.emptyNode))
  else
    let merge := s.visibleWrites.childCompoundWriteAtPath treePath
    if !includeHiddenWrites && merge.isEmpty then completeServerCache
    else if !includeHiddenWrites && completeServerCache.isNone &&
        !merge.hasCompleteWriteAtPath [] then none
    else
      let filter := fun record : FWriteRecord =>
        (record.visible || includeHiddenWrites) &&
          !(writeIdsToExclude.getD []).contains record.writeId &&
          (FPath.contains record.path treePath || FPath.contains treePath record.path)
      let mergeAtPath := layerTreeFromWrites s.allWrites filter treePath
      some (mergeAtPath.applyToNode (completeServerCache.getD FNode.emptyNode))

/-- `calculateEventCacheAfterServerOverwriteAtPath:childPath:existingEventSnap:existingServerSnap:`.
The event snapshot is looked at by an assertion only. -/
def calculateEventCacheAfterServerOverwriteAtPath (s : FWriteTree)
    (treePath childPath : List String) (existingServerSnap : FNode) : Option FNode :=
  let path := treePath ++ childPath
  if s.visibleWrites.hasCompleteWriteAtPath path then none
  else
    let childMerge := s.visibleWrites.childCompoundWriteAtPath path
    if childMerge.isEmpty then some (existingServerSnap.getChild childPath)
    else some (childMerge.applyToNode (existingServerSnap.getChild childPath))

/-- `calculateCompleteChildAtPath:childKey:cache:`, for a server cache and
whether it is complete for the child. -/
def calculateCompleteChildAtPath (s : FWriteTree) (treePath : List String) (childKey : String)
    (existingServerCache : FNode) (isCompleteForChild : Bool) : Option FNode :=
  let path := treePath ++ [childKey]
  match s.visibleWrites.completeNodeAtPath path with
  | some shadowingNode => some shadowingNode
  | none =>
    if isCompleteForChild then
      let childMerge := s.visibleWrites.childCompoundWriteAtPath path
      some (childMerge.applyToNode (existingServerCache.getImmediateChild childKey))
    else none

end FWriteTree

end DevicesTracker
