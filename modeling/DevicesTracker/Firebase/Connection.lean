import Mathlib.Data.Finset.Basic
import DevicesTracker.Firebase.Reference
import DevicesTracker.Firebase.WriteTree
/-!
# Firebase — the persistent connection

`FPersistentConnection` hands the writes of a client to the server over one
`FConnection` after another. A put stays outstanding until the server has
answered it, and is sent again on each new connection. While a listen is not
answered the data may be old, so the answers to puts wait in `putsToAck` until
none is. A connection is opened for a token the provider is asked for, by a
retry that `FIRRetryHelper` has scheduled, and never while there is a reason
to interrupt.

What the outside does is an argument of an operation: the answers of the
token provider and of the server, and the listens that the completion block of
a listen starts and stops. The app makes default queries only, so a query is
its path and has no tag; it runs no transaction, so that no put has a hash and
`cancelSentTransactions` finds none; and it sets up nothing to be done on
disconnection. Delays are left out. An operation gives `none` where an
assertion of the source fails or an exception is thrown.
-/

namespace DevicesTracker

inductive ConnectionState where
  | disconnected
  | gettingToken
  | connecting
  | authenticating
  | connected
  deriving DecidableEq

/-- A request to the server. -/
inductive Request where
  /-- A put or a merge of data. -/
  | write (path : FPath) (change : FWriteRecord.Change)
  | listen (query : FPath)
  | unlisten (query : FPath)
  | auth (credential : String)
  | unauth
  | stats

/-- **A write waiting for its answer.** Its completion block acknowledges the
write with the id. -/
structure FOutstandingPut where
  request : Request
  writeId : ℤ

/-- A query listened to, an object of its own for each call of `listen`. -/
structure FOutstandingQuery where
  query : FPath
  object : ℕ
  deriving DecidableEq

/-- What is done with the response to a request. -/
inductive RequestCallback where
  | put (index : ℕ)
  | listen (listenSpec : FOutstandingQuery)
  | auth (restoreStateAfterComplete : Bool)
  | stats
  deriving DecidableEq

/-- What the completion block of a listen asks of the connection. -/
inductive ListenCall where
  | listen (query : FPath)
  | unlisten (query : FPath)

/-- `kFWPResponseForActionStatusOk`. -/
def statusOk : String := "ok"

/-- `kFErrorWriteCanceled`. -/
def writeCanceled : String := "write_canceled"

/-- A request as it was sent: its number, and what is done with the response. -/
structure SentRequest where
  requestNumber : ℕ
  request : Request
  callback : Option RequestCallback

/-- **One `FConnection`**: whether it has shaken hands, and what was sent over
it. -/
structure FConnection where
  connected : Bool := false
  sent : List SentRequest := []

/-- **The connection.** -/
structure FPersistentConnection where
  connectionState : ConnectionState := .disconnected
  firstConnection : Bool := true
  realtime : Option FConnection := none
  listens : List FOutstandingQuery := []
  listenObjects : ℕ := 0
  outstandingPuts : List (ℕ × FOutstandingPut) := []
  putCounter : ℕ := 1
  requestNumber : ℕ := 1
  requestCBHash : List (ℕ × RequestCallback) := []
  unackedListensCount : ℕ := 0
  /-- Completion blocks to be called, by their write ids, and the statuses. -/
  putsToAck : List (ℤ × String) := []
  interruptReasons : Finset String := {"waiting_for_open"}
  /-- The retry that is scheduled: whether it forces a new token. -/
  scheduledRetry : Option Bool := none
  authToken : Option String := none
  forceAuthTokenRefresh : Bool := false
  currentFetchTokenAttempt : ℕ := 0
  /-- The fetches that the token provider has not called back. -/
  fetches : List (ℕ × Bool) := []

namespace FPersistentConnection

def isConnected (c : FPersistentConnection) : Bool :=
  c.connectionState = .authenticating || c.connectionState = .connected

def canSendWrites (c : FPersistentConnection) : Bool := c.connectionState = .connected

def shouldReconnect (c : FPersistentConnection) : Bool := c.interruptReasons = ∅

/-! ## Requests -/

/-- `sendAction:body:sensitive:callback:`. An `FConnection` that has not shaken
hands throws. -/
def sendAction (c : FPersistentConnection) (request : Request)
    (callback : Option RequestCallback) : Option FPersistentConnection :=
  let c' :=
    { c with
      requestNumber := c.requestNumber + 1
      requestCBHash := c.requestCBHash ++ (callback.map fun cb => (c.requestNumber, cb)).toList }
  match c.realtime with
  | none => some c'
  | some realtime =>
    if realtime.connected then
      some { c' with
        realtime := some { realtime with
          sent := realtime.sent ++ [⟨c.requestNumber, request, callback⟩] } }
    else none

/-- `sendPut:`. -/
def sendPut (c : FPersistentConnection) (index : ℕ) : Option FPersistentConnection :=
  if c.canSendWrites then
    (c.outstandingPuts.lookup index).bind fun put => c.sendAction put.request (some (.put index))
  else none

/-- `putInternal:forAction:forPath:withHash:withCallback:`. -/
def putInternal (c : FPersistentConnection) (request : Request) (writeId : ℤ) :
    Option FPersistentConnection :=
  let index := c.putCounter
  let c :=
    { c with
      putCounter := index + 1
      outstandingPuts := c.outstandingPuts ++ [(index, FOutstandingPut.mk request writeId)] }
  if c.canSendWrites then c.sendPut index else some c

/-- `sendListen:`. -/
def sendListen (c : FPersistentConnection) (listenSpec : FOutstandingQuery) :
    Option FPersistentConnection :=
  (c.sendAction (.listen listenSpec.query) (some (.listen listenSpec))).map fun c =>
    { c with unackedListensCount := c.unackedListensCount + 1 }

/-- `listen:tagId:hash:onComplete:`. -/
def listen (c : FPersistentConnection) (query : FPath) : Option FPersistentConnection :=
  if c.listens.any fun spec => spec.query = query then none
  else
    let outstanding : FOutstandingQuery := ⟨query, c.listenObjects⟩
    let c :=
      { c with
        listens := c.listens ++ [outstanding]
        listenObjects := c.listenObjects + 1 }
    if c.isConnected then c.sendListen outstanding else some c

/-- `removeListen:`. -/
def removeListen (c : FPersistentConnection) (query : FPath) : FPersistentConnection :=
  { c with listens := c.listens.filter fun spec => spec.query ≠ query }

/-- `unlisten:tagId:`. -/
def unlisten (c : FPersistentConnection) (query : FPath) : Option FPersistentConnection :=
  let outstanding := c.listens.any fun spec => spec.query = query
  let c := c.removeListen query
  if outstanding && c.isConnected then c.sendAction (.unlisten query) none else some c

/-- The calls of a completion block, one after another. -/
def perform (c : FPersistentConnection) (call : ListenCall) : Option FPersistentConnection :=
  match call with
  | .listen query => c.listen query
  | .unlisten query => c.unlisten query

/-- `sendAuthAndRestoreStateAfterComplete:`. -/
def sendAuth (c : FPersistentConnection) (restoreStateAfterComplete : Bool) :
    Option FPersistentConnection :=
  if c.isConnected then
    c.authToken.bind fun credential =>
      c.sendAction (.auth credential) (some (.auth restoreStateAfterComplete))
  else none

/-- `restoreState`. A dictionary is enumerated in an order of its own. -/
def restoreState (c : FPersistentConnection) : Option FPersistentConnection :=
  if c.connectionState = .connected then do
    let c ← c.listens.foldlM sendListen c
    (c.outstandingPuts.map Prod.fst).mergeSort.foldlM
      (fun c key => if (c.outstandingPuts.lookup key).isSome then c.sendPut key else some c) c
  else none

/-- `restoreAuth`. -/
def restoreAuth (c : FPersistentConnection) : Option FPersistentConnection :=
  if c.connectionState = .connecting then
    if c.authToken.isNone then restoreState { c with connectionState := .connected }
    else sendAuth { c with connectionState := .authenticating } true
  else none

/-! ## The connection's life -/

/-- `tryScheduleReconnect`. -/
def tryScheduleReconnect (c : FPersistentConnection) : Option FPersistentConnection :=
  if c.shouldReconnect then
    if c.connectionState = .disconnected then
      some { c with
        forceAuthTokenRefresh := false
        scheduledRetry := some c.forceAuthTokenRefresh }
    else none
  else some c

/-- The scheduled block of `tryScheduleReconnect` runs. -/
def retry (c : FPersistentConnection) (forceRefresh : Bool) : Option FPersistentConnection :=
  if c.connectionState = .disconnected then
    some { c with
      scheduledRetry := none
      connectionState := .gettingToken
      currentFetchTokenAttempt := c.currentFetchTokenAttempt + 1
      fetches := c.fetches ++ [(c.currentFetchTokenAttempt + 1, forceRefresh)] }
  else none

/-- `openNetworkConnectionWithToken:`. -/
def openNetworkConnectionWithToken (c : FPersistentConnection) (token : Option String) :
    Option FPersistentConnection :=
  if c.connectionState = .gettingToken then
    some { c with authToken := token, connectionState := .connecting, realtime := some {} }
  else none

/-- The token provider calls back, with an error or a token. -/
def onToken (c : FPersistentConnection) (thisFetchTokenAttempt : ℕ)
    (result : Except String (Option String)) : Option FPersistentConnection :=
  let c := { c with fetches := c.fetches.filter fun e => e.1 ≠ thisFetchTokenAttempt }
  if thisFetchTokenAttempt = c.currentFetchTokenAttempt then
    match result with
    | .error _ => tryScheduleReconnect { c with connectionState := .disconnected }
    | .ok token =>
      if c.connectionState = .gettingToken then c.openNetworkConnectionWithToken token
      else if c.connectionState = .disconnected then some c
      else none
  else some c

/-- `onDisconnect:withReason:`. -/
def onDisconnect (c : FPersistentConnection) : Option FPersistentConnection :=
  tryScheduleReconnect
    { c with
      connectionState := .disconnected
      realtime := none
      requestCBHash := []
      unackedListensCount := 0 }

/-- `close` of the `FConnection`, if there is one. -/
def close (c : FPersistentConnection) : Option FPersistentConnection :=
  if c.realtime.isSome then c.onDisconnect else some c

/-- `interruptForReason:`. -/
def interruptForReason (c : FPersistentConnection) (reason : String) :
    Option FPersistentConnection :=
  let c := { c with interruptReasons := insert reason c.interruptReasons }
  if c.realtime.isSome then c.onDisconnect
  else some { c with scheduledRetry := none, connectionState := .disconnected }

/-- `enteringForeground`, and the network being reachable again. -/
def wake (c : FPersistentConnection) : Option FPersistentConnection :=
  if c.connectionState = .disconnected then c.tryScheduleReconnect else some c

/-- `resumeForReason:`. -/
def resumeForReason (c : FPersistentConnection) (reason : String) :
    Option FPersistentConnection :=
  wake { c with interruptReasons := c.interruptReasons.erase reason }

/-- `onReady:atTime:sessionID:`. -/
def onReady (c : FPersistentConnection) : Option FPersistentConnection :=
  (if c.firstConnection then c.sendAction .stats (some .stats) else some c).bind fun c =>
    c.restoreAuth.map fun c => { c with firstConnection := false }

/-- The `FConnection` receives the handshake. -/
def onHandshake (c : FPersistentConnection) : Option FPersistentConnection :=
  match c.realtime with
  | some realtime =>
    if realtime.connected then some c
    else onReady { c with realtime := some { realtime with connected := true } }
  | none => some c

/-- `refreshAuthToken:`. -/
def refreshAuthToken (c : FPersistentConnection) (token : Option String) :
    Option FPersistentConnection :=
  let c := { c with authToken := token }
  if c.isConnected then
    if token.isSome then c.sendAuth false else c.sendAction .unauth none
  else some c

/-! ## What the server sends -/

/-- The response to a put, in the callback of `sendPut:`. -/
def onPutResponse (c : FPersistentConnection) (index : ℕ) (status : String) :
    FPersistentConnection × List (ℤ × String) :=
  match c.outstandingPuts.lookup index with
  | none => (c, [])
  | some put =>
    let c := { c with outstandingPuts := c.outstandingPuts.filter fun e => e.1 ≠ index }
    if c.unackedListensCount = 0 then (c, [(put.writeId, status)])
    else ({ c with putsToAck := c.putsToAck ++ [(put.writeId, status)] }, [])

/-- `ackPuts`. -/
def ackPuts (c : FPersistentConnection) : FPersistentConnection × List (ℤ × String) :=
  ({ c with putsToAck := [] }, c.putsToAck)

/-- The response to a listen, in the callback of `sendListen:`, whose
completion block makes the calls. The count is unsigned in the source, where
one below zero is a large number; here it is a failure. -/
def onListenResponse (c : FPersistentConnection) (listenSpec : FOutstandingQuery)
    (status : String) (calls : List ListenCall) :
    Option (FPersistentConnection × List (ℤ × String)) :=
  (if listenSpec ∈ c.listens then
    calls.foldlM perform (if status = statusOk then c else c.removeListen listenSpec.query)
  else some c).bind fun c =>
    match c.unackedListensCount with
    | 0 => none
    | count + 1 =>
      let c := { c with unackedListensCount := count }
      some (if count = 0 then c.ackPuts else (c, []))

/-- The response to an authentication, in the callback of
`sendAuthAndRestoreStateAfterComplete:`. -/
def onAuthResponse (c : FPersistentConnection) (restoreStateAfterComplete : Bool)
    (status : String) : Option FPersistentConnection :=
  let c := { c with connectionState := .connected }
  if status = statusOk then
    if restoreStateAfterComplete then c.restoreState else some c
  else close { c with authToken := none, forceAuthTokenRefresh := true }

/-- `onDataMessage:withMessage:` for a response, with the completion blocks
of puts it calls. -/
def onDataMessage (c : FPersistentConnection) (requestNumber : ℕ) (status : String)
    (calls : List ListenCall) : Option (FPersistentConnection × List (ℤ × String)) :=
  match c.requestCBHash.lookup requestNumber with
  | none => some (c, [])
  | some callback =>
    let c := { c with requestCBHash := c.requestCBHash.filter fun e => e.1 ≠ requestNumber }
    match callback with
    | .put index => some (c.onPutResponse index status)
    | .listen listenSpec => c.onListenResponse listenSpec status calls
    | .auth restoreStateAfterComplete =>
      (c.onAuthResponse restoreStateAfterComplete status).map fun c => (c, [])
    | .stats => some (c, [])

/-- `onAuthRevokedWithStatus:andReason:`. -/
def onAuthRevoked (c : FPersistentConnection) : Option FPersistentConnection :=
  close { c with authToken := none, forceAuthTokenRefresh := true }

/-- `onListenRevoked:`, with the calls of the completion block. -/
def onListenRevoked (c : FPersistentConnection) (path : FPath) (calls : List ListenCall) :
    Option FPersistentConnection :=
  if c.listens.any fun spec => spec.query = path then calls.foldlM perform (c.removeListen path)
  else some c

/-- `purgeOutstandingWrites`, with the completion blocks it calls. -/
def purgeOutstandingWrites (c : FPersistentConnection) :
    FPersistentConnection × List (ℤ × String) :=
  let puts := c.outstandingPuts.mergeSort fun e e' => e.1 ≤ e'.1
  ({ c with outstandingPuts := [], putsToAck := [] },
    c.putsToAck ++ puts.map fun e => (e.2.writeId, writeCanceled))

end FPersistentConnection

end DevicesTracker
