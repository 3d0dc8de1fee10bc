import DevicesTracker.Common.Runs
import DevicesTracker.Firebase.Connection
/-!
# Firebase — the repo

`FRepo` numbers the writes of a client, keeps them in the tree of pending
writes and hands them to the connection. When the completion block of a put is
called it takes the write out of the tree, and calls that of the app. A client
is a repo with all that can happen to it, in any order: what the app, the sync
tree and the network ask of it, and what the token provider and the server
send, whatever that is. It stops at an assertion that fails.
-/

namespace DevicesTracker

/-- **The repo**: the connection and the pending writes. -/
structure FRepo where
  connection : FPersistentConnection := {}
  pendingWriteTree : FWriteTree := FWriteTree.init
  writeIdCounter : ℤ := 0
  /-- The completion blocks of writes called, and their statuses. -/
  completions : List (ℤ × String) := []

namespace FRepo

def withConnection (repo : FRepo) (connection : Option FPersistentConnection) : Option FRepo :=
  connection.map fun connection => { repo with connection := connection }

/-- `set:withNode:withCallback:`. -/
def set (repo : FRepo) (path : FPath) (node : FNode) : Option FRepo :=
  let writeId := repo.writeIdCounter
  (repo.pendingWriteTree.addOverwriteAtPath path node writeId true).bind fun pendingWriteTree =>
    (repo.connection.putInternal (.write path (.overwrite node)) writeId).map fun connection =>
      { repo with
        writeIdCounter := writeId + 1
        pendingWriteTree := pendingWriteTree
        connection := connection }

/-- `update:withNodes:withCallback:`. An update of nothing does nothing. -/
def update (repo : FRepo) (path : FPath) (nodes : FCompoundWrite) : Option FRepo :=
  if nodes.isEmpty then some repo
  else
    let writeId := repo.writeIdCounter
    (repo.pendingWriteTree.addMergeAtPath path nodes writeId).bind fun pendingWriteTree =>
      (repo.connection.putInternal (.write path (.merge nodes)) writeId).map fun connection =>
        { repo with
          writeIdCounter := writeId + 1
          pendingWriteTree := pendingWriteTree
          connection := connection }

/-- `ackWrite:rerunTransactionsAtPath:status:` and `callOnComplete:`, the
completion block of a put. -/
def ackWrite (repo : FRepo) (ack : ℤ × String) : Option FRepo :=
  let called := { repo with completions := repo.completions ++ [ack] }
  if ack.2 = writeCanceled then some called
  else
    (repo.pendingWriteTree.removeWriteId ack.1).map fun removed =>
      { called with pendingWriteTree := removed.1 }

/-- A response of the server, with the completion blocks called. -/
def onDataMessage (repo : FRepo) (requestNumber : ℕ) (status : String)
    (calls : List ListenCall) : Option FRepo :=
  (repo.connection.onDataMessage requestNumber status calls).bind fun answered =>
    answered.2.foldlM ackWrite { repo with connection := answered.1 }

/-- `purgeOutstandingWrites`. The tree is emptied first. -/
def purgeOutstandingWrites (repo : FRepo) : Option FRepo :=
  let (connection, acks) := repo.connection.purgeOutstandingWrites
  acks.foldlM ackWrite
    { repo with
      pendingWriteTree := repo.pendingWriteTree.removeAllWrites.1
      connection := connection }

/-- What can happen to a client. -/
inductive Event where
  | set (path : FPath) (node : FNode)
  | update (path : FPath) (nodes : FCompoundWrite)
  | purgeOutstandingWrites
  | listen (query : FPath)
  | unlisten (query : FPath)
  | interrupt (reason : String)
  | resume (reason : String)
  | refreshAuthToken (token : Option String)
  /-- The app comes to the foreground, or the network is reachable. -/
  | wake
  /-- The scheduled retry runs. -/
  | retry
  /-- The token provider calls back. -/
  | token (attempt : ℕ) (result : Except String (Option String))
  | handshake
  /-- The connection is lost or reset. -/
  | disconnect
  | kill
  | response (requestNumber : ℕ) (status : String) (calls : List ListenCall)
  | authRevoked
  | listenRevoked (path : FPath) (calls : List ListenCall)

/-- What a client makes of an event. -/
def act (repo : FRepo) : Event → Option FRepo
  | .set path node => repo.set path node
  | .update path nodes => repo.update path nodes
  | .purgeOutstandingWrites => repo.purgeOutstandingWrites
  | .listen query => repo.withConnection (repo.connection.listen query)
  | .unlisten query => repo.withConnection (repo.connection.unlisten query)
  | .interrupt reason => repo.withConnection (repo.connection.interruptForReason reason)
  | .resume reason => repo.withConnection (repo.connection.resumeForReason reason)
  | .refreshAuthToken token => repo.withConnection (repo.connection.refreshAuthToken token)
  | .wake => repo.withConnection repo.connection.wake
  | .retry =>
    repo.withConnection (repo.connection.retry (repo.connection.scheduledRetry.getD false))
  | .token attempt result => repo.withConnection (repo.connection.onToken attempt result)
  | .handshake => repo.withConnection repo.connection.onHandshake
  | .disconnect => repo.withConnection repo.connection.close
  | .kill => repo.withConnection (repo.connection.interruptForReason "server_kill")
  | .response requestNumber status calls => repo.onDataMessage requestNumber status calls
  | .authRevoked => repo.withConnection repo.connection.onAuthRevoked
  | .listenRevoked path calls => repo.withConnection (repo.connection.onListenRevoked path calls)

/-- A retry runs if it is scheduled, and a fetch is called back once. -/
def Possible (repo : FRepo) : Event → Prop
  | .retry => repo.connection.scheduledRetry.isSome
  | .token attempt _ => attempt ∈ repo.connection.fetches.map Prod.fst
  | _ => True

instance (repo : FRepo) (e : Event) : Decidable (repo.Possible e) := by
  cases e <;> unfold Possible <;> infer_instance

end FRepo

/-- **A client**, and whether an assertion of it has failed. -/
structure Client where
  repo : FRepo := {}
  failed : Bool := false

namespace Client

def step (s : Client) (e : FRepo.Event) : Option Client :=
  if s.failed = false ∧ s.repo.Possible e then
    match s.repo.act e with
    | some repo => some { repo := repo }
    | none => some { s with failed := true }
  else none

def machine : Machine Client FRepo.Event := ⟨{}, step⟩

end Client

end DevicesTracker
