import DevicesTracker.Common.Dictionary
import DevicesTracker.Firebase.Connection
/-!
# Firebase — what the connection keeps

`Sound` is what holds of a connection between any two operations: which
objects it has in each of its states, that the count of unanswered listens
counts them, that what waits for a response was sent over the connection there
is, that a fetch of a token still to be called back is not the one the
connection was opened for, and that a connection that has restored its state
carries every outstanding put and every listen. Each operation is shown once to
succeed and to keep it; the only one that may fail is `listen:`, for a query
that is listened to.
-/

namespace DevicesTracker

/-- The response to a listen is waited for. -/
def RequestCallback.isListen : RequestCallback → Bool
  | .listen _ => true
  | _ => false

namespace FPersistentConnection

variable {c c' c'' : FPersistentConnection} {owed : ℕ}

/-- Over an `FConnection` that has shaken hands. -/
def IsOpen (c : FPersistentConnection) : Prop :=
  ∃ realtime, c.realtime = some realtime ∧ realtime.connected = true

/-- The objects a connection has in each of its states. -/
def Phase (c : FPersistentConnection) : Prop :=
  match c.connectionState with
  | .disconnected => c.realtime = none ∧ c.requestCBHash = []
  | .gettingToken => c.realtime = none ∧ c.requestCBHash = [] ∧ c.scheduledRetry = none
  | .connecting =>
    (∃ realtime, c.realtime = some realtime ∧ realtime.connected = false) ∧
      c.requestCBHash = [] ∧ c.scheduledRetry = none
  | .authenticating =>
    (c.IsOpen ∧ c.scheduledRetry = none) ∧
      ∃ requestNumber, (requestNumber, .auth true) ∈ c.requestCBHash
  | .connected => c.IsOpen ∧ c.scheduledRetry = none

/-- What was sent over the connection there is. -/
def sent (c : FPersistentConnection) : List SentRequest :=
  (c.realtime.map FConnection.sent).getD []

/-- **What the requests and their responses keep.** While the response to a
listen is looked at, its listen is counted and no longer waited for: it is
owed. -/
structure Kept (owed : ℕ) (c : FPersistentConnection) : Prop where
  count : c.unackedListensCount = (c.requestCBHash.countP fun e => e.2.isListen) + owed
  requestNumbers : ∀ e ∈ c.requestCBHash, e.1 < c.requestNumber
  nodup_requestCBHash : (c.requestCBHash.map Prod.fst).Nodup
  indices : ∀ e ∈ c.outstandingPuts, e.1 < c.putCounter
  nodup_outstandingPuts : (c.outstandingPuts.map Prod.fst).Nodup
  /-- What waits for a response was sent. -/
  waiting : ∀ e ∈ c.requestCBHash, ∃ q ∈ c.sent, q.requestNumber = e.1 ∧ q.callback = some e.2
  /-- A put is sent as it is. -/
  puts : ∀ q ∈ c.sent, ∀ index, q.callback = some (.put index) → index < c.putCounter ∧
    ∀ put, c.outstandingPuts.lookup index = some put → q.request = put.request
  attempts : ∀ e ∈ c.fetches, e.1 ≤ c.currentFetchTokenAttempt
  /-- The fetch a connection was opened for has been called back. -/
  calledBack : c.connectionState ≠ .disconnected → c.connectionState ≠ .gettingToken →
    ∀ e ∈ c.fetches, e.1 ≠ c.currentFetchTokenAttempt

/-- The put is under way: a response to a request that carries it is waited
for. -/
def Carried (c : FPersistentConnection) (index : ℕ) : Prop :=
  ∃ requestNumber, (requestNumber, .put index) ∈ c.requestCBHash

/-- The listen was sent over the connection there is. -/
def ListenSent (c : FPersistentConnection) (listenSpec : FOutstandingQuery) : Prop :=
  ∃ q ∈ c.sent, q.callback = some (.listen listenSpec)

/-- **A connected connection that is not signing in carries all.** -/
def Restored (c : FPersistentConnection) : Prop :=
  c.connectionState = .connected → (∀ e ∈ c.requestCBHash, e.2 ≠ .auth true) →
    (∀ e ∈ c.outstandingPuts, c.Carried e.1) ∧ ∀ listenSpec ∈ c.listens, c.ListenSent listenSpec

/-- **What holds between two operations.** -/
structure Sound (owed : ℕ) (c : FPersistentConnection) : Prop extends Kept owed c where
  phase : c.Phase
  restored : c.Restored

/-- Nothing becomes of the writes. -/
structure SamePuts (c c' : FPersistentConnection) : Prop where
  outstandingPuts : c'.outstandingPuts = c.outstandingPuts
  putCounter : c'.putCounter = c.putCounter
  putsToAck : c'.putsToAck = c.putsToAck

theorem SamePuts.refl (c : FPersistentConnection) : c.SamePuts c := ⟨rfl, rfl, rfl⟩

theorem SamePuts.trans (h : c.SamePuts c') (h' : c'.SamePuts c'') : c.SamePuts c'' :=
  ⟨h'.outstandingPuts.trans h.outstandingPuts, h'.putCounter.trans h.putCounter,
    h'.putsToAck.trans h.putsToAck⟩

/-! ## Requests -/

/-- **Requests were sent**, over the same connection and in the same state. -/
structure Grows (c c' : FPersistentConnection) : Prop where
  samePuts : c.SamePuts c'
  connectionState : c'.connectionState = c.connectionState
  scheduledRetry : c'.scheduledRetry = c.scheduledRetry
  listens : c'.listens = c.listens
  isOpen : c'.IsOpen
  requestCBHash : ∀ e ∈ c.requestCBHash, e ∈ c'.requestCBHash
  sent : ∀ q ∈ c.sent, q ∈ c'.sent

theorem Grows.refl (h : c.IsOpen) : c.Grows c :=
  ⟨.refl c, rfl, rfl, rfl, h, fun _ he => he, fun _ hq => hq⟩

theorem Grows.trans (h : c.Grows c') (h' : c'.Grows c'') : c.Grows c'' where
  samePuts := h.samePuts.trans h'.samePuts
  connectionState := h'.connectionState.trans h.connectionState
  scheduledRetry := h'.scheduledRetry.trans h.scheduledRetry
  listens := h'.listens.trans h.listens
  isOpen := h'.isOpen
  requestCBHash e he := h'.requestCBHash e (h.requestCBHash e he)
  sent q hq := h'.sent q (h.sent q hq)

theorem Carried.grows {index : ℕ} (h : c.Carried index) (hg : c.Grows c') : c'.Carried index := by
  obtain ⟨requestNumber, hmem⟩ := h
  exact ⟨requestNumber, hg.requestCBHash _ hmem⟩

theorem ListenSent.grows {listenSpec : FOutstandingQuery} (h : c.ListenSent listenSpec)
    (hg : c.Grows c') : c'.ListenSent listenSpec := by
  obtain ⟨q, hq, hcallback⟩ := h
  exact ⟨q, hg.sent q hq, hcallback⟩

theorem isConnected_iff : c.isConnected = true ↔
    c.connectionState = .authenticating ∨ c.connectionState = .connected := by
  rw [isConnected, Bool.or_eq_true, decide_eq_true_iff, decide_eq_true_iff]

/-- More requests leave a phase that has an open connection. -/
theorem Grows.phase (h : c.Grows c') (hphase : c.Phase) (hconnected : c.isConnected = true) :
    c'.Phase := by
  unfold Phase at hphase ⊢
  rw [h.connectionState, h.scheduledRetry]
  rcases isConnected_iff.1 hconnected with heq | heq <;> rw [heq] at hphase ⊢
  · obtain ⟨⟨-, hretry⟩, requestNumber, hmem⟩ := hphase
    exact ⟨⟨h.isOpen, hretry⟩, requestNumber, h.requestCBHash _ hmem⟩
  · exact ⟨h.isOpen, hphase.2⟩

theorem Grows.restored (h : c.Grows c') (hr : c.Restored) : c'.Restored := by
  intro hstate hauth
  obtain ⟨hputs, hlistens⟩ := hr (h.connectionState ▸ hstate)
    fun e he => hauth e (h.requestCBHash e he)
  rw [h.samePuts.outstandingPuts, h.listens]
  exact ⟨fun e he => (hputs e he).grows h, fun spec hspec => (hlistens spec hspec).grows h⟩

/-- The connection after a request over the given `FConnection`, a listen
being counted. -/
def afterSend (c : FPersistentConnection) (realtime : FConnection) (request : Request)
    (callback : Option RequestCallback) : FPersistentConnection :=
  { c with
    requestNumber := c.requestNumber + 1
    requestCBHash := c.requestCBHash ++ (callback.map fun cb => (c.requestNumber, cb)).toList
    realtime := some { realtime with
      sent := realtime.sent ++ [⟨c.requestNumber, request, callback⟩] }
    unackedListensCount := c.unackedListensCount + callback.toList.countP (·.isListen) }

section Send

variable {realtime : FConnection} {request : Request} {callback : Option RequestCallback}

theorem sent_eq (hrealtime : c.realtime = some realtime) : c.sent = realtime.sent := by
  rw [sent, hrealtime]
  rfl

theorem sent_afterSend (hrealtime : c.realtime = some realtime) :
    (c.afterSend realtime request callback).sent =
      c.sent ++ [⟨c.requestNumber, request, callback⟩] := by
  rw [sent_eq hrealtime]
  rfl

theorem mem_requestCBHash_afterSend {e : ℕ × RequestCallback} :
    e ∈ (c.afterSend realtime request callback).requestCBHash ↔
      e ∈ c.requestCBHash ∨ e.1 = c.requestNumber ∧ callback = some e.2 := by
  rw [afterSend, List.mem_append, Option.mem_toList, Option.map_eq_some_iff]
  refine or_congr_right ?_
  constructor
  · rintro ⟨cb, hcb, rfl⟩
    exact ⟨rfl, hcb⟩
  · rintro ⟨hnumber, hcb⟩
    exact ⟨e.2, hcb, Prod.ext hnumber.symm rfl⟩

theorem grows_afterSend (hrealtime : c.realtime = some realtime)
    (hconnected : realtime.connected = true) : c.Grows (c.afterSend realtime request callback) where
  samePuts := ⟨rfl, rfl, rfl⟩
  connectionState := rfl
  scheduledRetry := rfl
  listens := rfl
  isOpen := ⟨_, rfl, hconnected⟩
  requestCBHash e he := mem_requestCBHash_afterSend.2 (.inl he)
  sent q hq := by
    rw [sent_afterSend hrealtime]
    exact List.mem_append_left _ hq

/-- **A request keeps the books**, if a put is sent as it is. -/
theorem Kept.afterSend (h : c.Kept owed) (hrealtime : c.realtime = some realtime)
    (hput : ∀ index, callback = some (.put index) → index < c.putCounter ∧
      ∀ put, c.outstandingPuts.lookup index = some put → request = put.request) :
    (c.afterSend realtime request callback).Kept owed where
  count := by
    have hcount : (c.afterSend realtime request callback).requestCBHash.countP
        (fun e => e.2.isListen) =
          (c.requestCBHash.countP fun e => e.2.isListen) +
            callback.toList.countP (·.isListen) := by
      rw [FPersistentConnection.afterSend, List.countP_append]
      cases callback <;> rfl
    have hbefore := h.count
    rw [hcount, FPersistentConnection.afterSend]
    dsimp only
    omega
  requestNumbers e he := by
    rcases mem_requestCBHash_afterSend.1 he with he | ⟨hnumber, -⟩
    · exact Nat.lt_succ_of_lt (h.requestNumbers e he)
    · exact hnumber ▸ Nat.lt_succ_self _
  nodup_requestCBHash := by
    have hnotMem : c.requestNumber ∉ c.requestCBHash.map Prod.fst := by
      intro hmem
      obtain ⟨e, he, heq⟩ := List.mem_map.1 hmem
      exact absurd (h.requestNumbers e he) (heq ▸ Nat.lt_irrefl _)
    rw [FPersistentConnection.afterSend]
    cases callback with
    | none => exact (List.append_nil c.requestCBHash).symm ▸ h.nodup_requestCBHash
    | some cb =>
      rw [List.map_append]
      refine List.nodup_append'.2 ⟨h.nodup_requestCBHash, List.nodup_singleton _, ?_⟩
      exact List.disjoint_singleton.2 hnotMem
  indices := h.indices
  nodup_outstandingPuts := h.nodup_outstandingPuts
  waiting e he := by
    rw [sent_afterSend hrealtime]
    rcases mem_requestCBHash_afterSend.1 he with he | ⟨hnumber, hcallback⟩
    · obtain ⟨q, hq, hspec⟩ := h.waiting e he
      exact ⟨q, List.mem_append_left _ hq, hspec⟩
    · exact ⟨_, List.mem_append_right _ (List.mem_singleton_self _), hnumber.symm, hcallback⟩
  puts q hq index hcallback := by
    rw [sent_afterSend hrealtime, List.mem_append, List.mem_singleton] at hq
    rcases hq with hq | rfl
    exacts [h.puts q hq index hcallback, hput index hcallback]
  attempts := h.attempts
  calledBack := h.calledBack

theorem sendAction_eq (hrealtime : c.realtime = some realtime)
    (hconnected : realtime.connected = true)
    (hlisten : ∀ cb, callback = some cb → cb.isListen = false) :
    c.sendAction request callback = some (c.afterSend realtime request callback) := by
  have hcount : callback.toList.countP (·.isListen) = 0 := by
    refine List.countP_eq_zero.2 fun cb hcb => ?_
    rw [hlisten cb (Option.mem_toList.1 hcb)]
    exact Bool.false_ne_true
  rw [sendAction, hrealtime, afterSend, hcount]
  exact if_pos hconnected

/-- **A request is sent**, other than a listen. -/
theorem sendAction_spec (h : c.Kept owed) (hopen : c.IsOpen) (request : Request)
    (callback : Option RequestCallback)
    (hlisten : ∀ cb, callback = some cb → cb.isListen = false)
    (hput : ∀ index, callback = some (.put index) → index < c.putCounter ∧
      ∀ put, c.outstandingPuts.lookup index = some put → request = put.request) :
    ∃ c', c.sendAction request callback = some c' ∧ c'.Kept owed ∧ c.Grows c' ∧
      ∀ cb, callback = some cb → (c.requestNumber, cb) ∈ c'.requestCBHash := by
  obtain ⟨realtime, hrealtime, hconnected⟩ := hopen
  exact ⟨_, sendAction_eq hrealtime hconnected hlisten, h.afterSend hrealtime hput,
    grows_afterSend hrealtime hconnected,
    fun cb hcb => mem_requestCBHash_afterSend.2 (.inr ⟨rfl, hcb⟩)⟩

end Send

/-- **A listen is sent.** -/
theorem sendListen_spec (h : c.Kept owed) (hopen : c.IsOpen) (listenSpec : FOutstandingQuery) :
    ∃ c', c.sendListen listenSpec = some c' ∧ c'.Kept owed ∧ c.Grows c' ∧
      c'.ListenSent listenSpec := by
  obtain ⟨realtime, hrealtime, hconnected⟩ := hopen
  have hsend : c.sendListen listenSpec =
      some (c.afterSend realtime (.listen listenSpec.query) (some (.listen listenSpec))) := by
    rw [sendListen, sendAction, hrealtime]
    exact congrArg (Option.map _) (if_pos hconnected)
  have hkept : (c.afterSend realtime (.listen listenSpec.query)
      (some (.listen listenSpec))).Kept owed := h.afterSend hrealtime fun index hput => nomatch hput
  refine ⟨_, hsend, hkept, grows_afterSend hrealtime hconnected, ?_⟩
  rw [ListenSent, sent_afterSend hrealtime]
  exact ⟨_, List.mem_append_right _ (List.mem_singleton_self _), rfl⟩

/-- **A put is sent**, when writes can be. -/
theorem sendPut_spec (h : c.Kept owed) (hopen : c.IsOpen) (hsend : c.canSendWrites = true)
    {index : ℕ} {put : FOutstandingPut} (hput : c.outstandingPuts.lookup index = some put) :
    ∃ c', c.sendPut index = some c' ∧ c'.Kept owed ∧ c.Grows c' ∧ c'.Carried index := by
  have hindex : index < c.putCounter := h.indices _ (Dictionary.mem_of_lookup hput)
  have hsame : ∀ index', some (RequestCallback.put index) = some (.put index') →
      index' < c.putCounter ∧ ∀ put', c.outstandingPuts.lookup index' = some put' →
        put.request = put'.request := by
    intro index' hindex'
    obtain rfl : index = index' := RequestCallback.put.inj (Option.some.inj hindex')
    refine ⟨hindex, fun put' hput' => ?_⟩
    rw [Option.some.inj (hput.symm.trans hput')]
  obtain ⟨c', hc', hkept, hgrows, hwaits⟩ := sendAction_spec h hopen put.request
    (some (.put index)) (fun cb hcb => Option.some.inj hcb ▸ rfl) hsame
  refine ⟨c', ?_, hkept, hgrows, c.requestNumber, hwaits _ rfl⟩
  rw [sendPut, if_pos hsend, hput]
  exact hc'

/-! ## Restoring the state -/

/-- Several requests one after another. -/
theorem foldlM_spec {α : Type} {f : FPersistentConnection → α → Option FPersistentConnection}
    {P : FPersistentConnection → α → Prop}
    (hmono : ∀ {c c' x}, P c x → c.Grows c' → P c' x) {l : List α} (hkept : c.Kept owed)
    (hopen : c.IsOpen)
    (hf : ∀ c', c'.Kept owed → c.Grows c' → ∀ x ∈ l,
      ∃ c'', f c' x = some c'' ∧ c''.Kept owed ∧ c'.Grows c'' ∧ P c'' x) :
    ∃ c', l.foldlM f c = some c' ∧ c'.Kept owed ∧ c.Grows c' ∧ ∀ x ∈ l, P c' x := by
  induction l generalizing c with
  | nil => exact ⟨c, rfl, hkept, .refl hopen, fun x hx => absurd hx List.not_mem_nil⟩
  | cons x l ih =>
    obtain ⟨c₁, hc₁, hkept₁, hgrows₁, hx⟩ := hf c hkept (.refl hopen) x List.mem_cons_self
    obtain ⟨c₂, hc₂, hkept₂, hgrows₂, hl⟩ := ih hkept₁ hgrows₁.isOpen fun c' hkept' hgrows' y hy =>
      hf c' hkept' (hgrows₁.trans hgrows') y (List.mem_cons_of_mem x hy)
    refine ⟨c₂, ?_, hkept₂, hgrows₁.trans hgrows₂, fun y hy => ?_⟩
    · rw [List.foldlM_cons, hc₁]
      exact hc₂
    · rcases List.mem_cons.1 hy with rfl | hy
      exacts [hmono hx hgrows₂, hl y hy]

/-- **Restoring sends every listen and every outstanding put.** -/
theorem restoreState_spec (h : c.Kept owed) (hopen : c.IsOpen)
    (hstate : c.connectionState = .connected) :
    ∃ c', c.restoreState = some c' ∧ c'.Kept owed ∧ c.Grows c' ∧
      (∀ e ∈ c'.outstandingPuts, c'.Carried e.1) ∧
      ∀ listenSpec ∈ c'.listens, c'.ListenSent listenSpec := by
  obtain ⟨c₁, hc₁, hkept₁, hgrows₁, hlistens⟩ :=
    foldlM_spec (P := ListenSent) ListenSent.grows h hopen
      fun c' hkept' hgrows' listenSpec _ => sendListen_spec hkept' hgrows'.isOpen listenSpec
  obtain ⟨c₂, hc₂, hkept₂, hgrows₂, hputs⟩ :=
    foldlM_spec (P := Carried) (l := (c₁.outstandingPuts.map Prod.fst).mergeSort) Carried.grows
      hkept₁ hgrows₁.isOpen (f := fun c key =>
        if (c.outstandingPuts.lookup key).isSome then c.sendPut key else some c)
      fun c' hkept' hgrows' index hindex => by
        obtain ⟨put, hput⟩ := Dictionary.exists_lookup (List.mem_mergeSort.1 hindex)
        rw [← hgrows'.samePuts.outstandingPuts] at hput
        have hsend : c'.canSendWrites = true := decide_eq_true
          (hgrows'.connectionState.trans (hgrows₁.connectionState.trans hstate))
        rw [hput]
        exact sendPut_spec hkept' hgrows'.isOpen hsend hput
  refine ⟨c₂, ?_, hkept₂, hgrows₁.trans hgrows₂, fun e he => ?_, fun listenSpec hspec => ?_⟩
  · rw [restoreState, if_pos hstate, hc₁]
    exact hc₂
  · rw [hgrows₂.samePuts.outstandingPuts] at he
    exact hputs e.1 (List.mem_mergeSort.2 (List.mem_map_of_mem he))
  · rw [hgrows₂.listens, hgrows₁.listens] at hspec
    exact (hlistens listenSpec hspec).grows hgrows₂

/-! ## Listening -/

/-- A connection that can be written to is open, and no retry is scheduled. -/
theorem Sound.of_isConnected (h : c.Sound owed) (hconnected : c.isConnected = true) :
    c.IsOpen ∧ c.scheduledRetry = none := by
  have hphase := h.phase
  unfold Phase at hphase
  rcases isConnected_iff.1 hconnected with heq | heq <;> rw [heq] at hphase
  exacts [hphase.1, hphase]

/-- What is sent over a connection that can be written to. -/
theorem Sound.grows (h : c.Sound owed) (hconnected : c.isConnected = true) (hkept : c'.Kept owed)
    (hgrows : c.Grows c') : c'.Sound owed :=
  ⟨hkept, hgrows.phase h.phase hconnected, hgrows.restored h.restored⟩

/-- The requests do not look at the list of the listens. -/
theorem Kept.withListens (h : c.Kept owed) (listens : List FOutstandingQuery) (objects : ℕ) :
    ({ c with listens := listens, listenObjects := objects } : FPersistentConnection).Kept owed :=
  ⟨h.count, h.requestNumbers, h.nodup_requestCBHash, h.indices, h.nodup_outstandingPuts, h.waiting,
    h.puts, h.attempts, h.calledBack⟩

theorem Sound.removeListen (h : c.Sound owed) (query : FPath) :
    (c.removeListen query).Sound owed where
  toKept := h.toKept.withListens _ _
  phase := h.phase
  restored hstate hauth := by
    obtain ⟨hputs, hlistens⟩ := h.restored hstate hauth
    exact ⟨hputs, fun listenSpec hspec => hlistens listenSpec (List.mem_filter.1 hspec).1⟩

/-- The queries listened to. -/
def queries (c : FPersistentConnection) : List FPath := c.listens.map FOutstandingQuery.query

theorem any_query_eq {query : FPath} :
    (c.listens.any fun spec => spec.query = query) = decide (query ∈ c.queries) := by
  rw [Bool.eq_iff_iff, List.any_eq_true, decide_eq_true_iff, queries, List.mem_map]
  simp only [decide_eq_true_eq]

theorem queries_removeListen (query : FPath) :
    (c.removeListen query).queries = c.queries.filter fun q => q ≠ query := by
  rw [queries, queries, removeListen, List.filter_map]
  rfl

/-- **A listen for a query that is not listened to succeeds.** -/
theorem listen_spec (h : c.Sound owed) {query : FPath} (hquery : query ∉ c.queries) :
    ∃ c', c.listen query = some c' ∧ c'.Sound owed ∧ c.SamePuts c' ∧
      c'.queries = c.queries ++ [query] := by
  rw [FPersistentConnection.listen, any_query_eq, decide_eq_false hquery,
    if_neg Bool.false_ne_true]
  have hqueries : (c.listens ++ [FOutstandingQuery.mk query c.listenObjects]).map
      FOutstandingQuery.query = c.queries ++ [query] := List.map_append
  have hkept := h.toKept.withListens (c.listens ++ [⟨query, c.listenObjects⟩])
    (c.listenObjects + 1)
  cases hconnected : c.isConnected with
  | false =>
    refine ⟨_, if_neg (Bool.eq_false_iff.1 hconnected), ⟨hkept, h.phase, fun hstate => ?_⟩,
      ⟨rfl, rfl, rfl⟩, hqueries⟩
    rw [isConnected, Bool.or_eq_false_iff, decide_eq_false_iff_not, decide_eq_false_iff_not]
      at hconnected
    exact absurd hstate hconnected.2
  | true =>
    obtain ⟨hopen, -⟩ := h.of_isConnected hconnected
    obtain ⟨c', hc', hkept', hgrows, hsent⟩ := sendListen_spec hkept hopen ⟨query, c.listenObjects⟩
    refine ⟨c', (if_pos hconnected).trans hc', ⟨hkept', hgrows.phase h.phase hconnected, ?_⟩,
      ⟨hgrows.samePuts.outstandingPuts, hgrows.samePuts.putCounter, hgrows.samePuts.putsToAck⟩, ?_⟩
    · intro hstate' hauth
      obtain ⟨hputs, hlistens⟩ := h.restored (hgrows.connectionState ▸ hstate')
        fun e he => hauth e (hgrows.requestCBHash e he)
      rw [hgrows.samePuts.outstandingPuts, hgrows.listens]
      refine ⟨fun e he => ?_, fun listenSpec hspec => ?_⟩
      · obtain ⟨requestNumber, hmem⟩ := hputs e he
        exact ⟨requestNumber, hgrows.requestCBHash _ hmem⟩
      · rcases List.mem_append.1 hspec with hspec | hspec
        · obtain ⟨q, hq, hcallback⟩ := hlistens listenSpec hspec
          exact ⟨q, hgrows.sent q hq, hcallback⟩
        · exact List.mem_singleton.1 hspec ▸ hsent
    · rw [queries, hgrows.listens]
      exact hqueries

/-- **The end of a listen succeeds**, also of none. -/
theorem unlisten_spec (h : c.Sound owed) (query : FPath) :
    ∃ c', c.unlisten query = some c' ∧ c'.Sound owed ∧ c.SamePuts c' ∧
      c'.queries = c.queries.filter fun q => q ≠ query := by
  have hremoved := h.removeListen query
  rw [FPersistentConnection.unlisten]
  cases hsend : (c.listens.any fun spec => spec.query = query) &&
      (c.removeListen query).isConnected with
  | false =>
    exact ⟨_, if_neg Bool.false_ne_true, hremoved, ⟨rfl, rfl, rfl⟩, queries_removeListen query⟩
  | true =>
    have hconnected := (Bool.and_eq_true_iff.1 hsend).2
    obtain ⟨hopen, -⟩ := hremoved.of_isConnected hconnected
    obtain ⟨c', hc', hkept', hgrows, -⟩ := sendAction_spec hremoved.toKept hopen (.unlisten query)
      none (fun cb hcb => nomatch hcb) fun index hindex => nomatch hindex
    refine ⟨c', (if_pos rfl).trans hc', hremoved.grows hconnected hkept' hgrows,
      ⟨hgrows.samePuts.outstandingPuts, hgrows.samePuts.putCounter, hgrows.samePuts.putsToAck⟩, ?_⟩
    rw [← queries_removeListen, queries, hgrows.listens]
    rfl

/-- **The calls of a completion block never listen twice**, where these
queries are listened to before. -/
def CallsAllowed : List FPath → List ListenCall → Prop
  | _, [] => True
  | queries, .listen query :: calls =>
    query ∉ queries ∧ CallsAllowed (queries ++ [query]) calls
  | queries, .unlisten query :: calls => CallsAllowed (queries.filter fun q => q ≠ query) calls

/-- **The calls of a completion block succeed** if they never listen twice. -/
theorem foldlM_perform_spec {calls : List ListenCall} (h : c.Sound owed)
    (hcalls : CallsAllowed c.queries calls) :
    ∃ c', calls.foldlM perform c = some c' ∧ c'.Sound owed ∧ c.SamePuts c' := by
  induction calls generalizing c with
  | nil => exact ⟨c, rfl, h, .refl c⟩
  | cons call calls ih =>
    have hone : ∃ c₁, c.perform call = some c₁ ∧ c₁.Sound owed ∧ c.SamePuts c₁ ∧
        CallsAllowed c₁.queries calls := by
      cases call with
      | listen query =>
        obtain ⟨c₁, hc₁, hsound₁, hsame₁, hqueries₁⟩ := listen_spec h hcalls.1
        exact ⟨c₁, hc₁, hsound₁, hsame₁, hqueries₁ ▸ hcalls.2⟩
      | unlisten query =>
        obtain ⟨c₁, hc₁, hsound₁, hsame₁, hqueries₁⟩ := unlisten_spec h query
        exact ⟨c₁, hc₁, hsound₁, hsame₁, hqueries₁ ▸ hcalls⟩
    obtain ⟨c₁, hc₁, hsound₁, hsame₁, hrest⟩ := hone
    obtain ⟨c₂, hc₂, hsound₂, hsame₂⟩ := ih hsound₁ hrest
    refine ⟨c₂, ?_, hsound₂, hsame₁.trans hsame₂⟩
    rw [List.foldlM_cons, hc₁]
    exact hc₂

/-- **And fail if they do.** -/
theorem foldlM_perform_eq_none {calls : List ListenCall} (h : c.Sound owed)
    (hcalls : ¬ CallsAllowed c.queries calls) : calls.foldlM perform c = none := by
  induction calls generalizing c with
  | nil => exact absurd trivial hcalls
  | cons call calls ih =>
    rw [List.foldlM_cons]
    cases call with
    | listen query =>
      by_cases hquery : query ∈ c.queries
      · have hfails : c.listen query = none := by
          rw [FPersistentConnection.listen, any_query_eq, decide_eq_true hquery]
          exact if_pos rfl
        rw [perform, hfails]
        rfl
      · obtain ⟨c₁, hc₁, hsound₁, -, hqueries₁⟩ := listen_spec h hquery
        rw [perform, hc₁]
        exact ih hsound₁ fun hrest => hcalls ⟨hquery, hqueries₁ ▸ hrest⟩
    | unlisten query =>
      obtain ⟨c₁, hc₁, hsound₁, -, hqueries₁⟩ := unlisten_spec h query
      rw [perform, hc₁]
      exact ih hsound₁ fun hrest => hcalls (show CallsAllowed _ calls from hqueries₁ ▸ hrest)

/-! ## The connection's life -/

/-- The requests do not look at the tokens nor at the reasons to interrupt. -/
theorem Kept.settings (h : c.Kept owed) (firstConnection : Bool) (reasons : Finset String)
    (retry : Option Bool) (token : Option String) (force : Bool) :
    ({ c with
      firstConnection := firstConnection
      interruptReasons := reasons
      scheduledRetry := retry
      authToken := token
      forceAuthTokenRefresh := force } : FPersistentConnection).Kept owed :=
  ⟨h.count, h.requestNumbers, h.nodup_requestCBHash, h.indices, h.nodup_outstandingPuts, h.waiting,
    h.puts, h.attempts, h.calledBack⟩

/-- A connection that is not connected has nothing to carry. -/
theorem restored_of_ne (h : c.connectionState ≠ .connected) : c.Restored :=
  fun hstate => absurd hstate h

/-- **A retry may be scheduled where the connection is down.** -/
theorem tryScheduleReconnect_spec (h : c.Sound 0) (hstate : c.connectionState = .disconnected) :
    ∃ c', c.tryScheduleReconnect = some c' ∧ c'.Sound 0 ∧ c.SamePuts c' := by
  have hphase := h.phase
  rw [Phase, hstate] at hphase
  rw [tryScheduleReconnect, if_pos hstate]
  split
  · refine ⟨_, rfl, ⟨h.toKept.settings _ _ _ _ _, ?_, restored_of_ne (hstate ▸ nofun)⟩,
      ⟨rfl, rfl, rfl⟩⟩
    rw [Phase]
    dsimp only
    rw [hstate]
    exact hphase
  · exact ⟨c, rfl, h, .refl c⟩

/-- **Hanging up** loses what was waited for. -/
theorem onDisconnect_spec (h : c.Kept owed) :
    ∃ c', c.onDisconnect = some c' ∧ c'.Sound 0 ∧ c.SamePuts c' := by
  have hdown : ({ c with
      connectionState := .disconnected, realtime := none, requestCBHash := []
      unackedListensCount := 0 } : FPersistentConnection).Sound 0 :=
    ⟨⟨rfl, nofun, List.nodup_nil, h.indices, h.nodup_outstandingPuts, nofun, nofun, h.attempts,
      fun hne => absurd rfl hne⟩, ⟨rfl, rfl⟩, restored_of_ne nofun⟩
  obtain ⟨c', hc', hsound, hsame⟩ := tryScheduleReconnect_spec hdown rfl
  exact ⟨c', hc', hsound, hsame.outstandingPuts, hsame.putCounter, hsame.putsToAck⟩

theorem wake_spec (h : c.Sound 0) :
    ∃ c', c.wake = some c' ∧ c'.Sound 0 ∧ c.SamePuts c' := by
  rw [wake]
  split
  · next hstate => exact tryScheduleReconnect_spec h hstate
  · exact ⟨c, rfl, h, .refl c⟩

theorem resumeForReason_spec (h : c.Sound 0) (reason : String) :
    ∃ c', c.resumeForReason reason = some c' ∧ c'.Sound 0 ∧ c.SamePuts c' := by
  obtain ⟨c', hc', hsound, hsame⟩ := wake_spec (c :=
    { c with interruptReasons := c.interruptReasons.erase reason })
    ⟨h.toKept.settings _ _ _ _ _, h.phase, h.restored⟩
  exact ⟨c', hc', hsound, hsame.outstandingPuts, hsame.putCounter, hsame.putsToAck⟩

theorem interruptForReason_spec (h : c.Sound 0) (reason : String) :
    ∃ c', c.interruptForReason reason = some c' ∧ c'.Sound 0 ∧ c.SamePuts c' := by
  have hkept := h.toKept.settings c.firstConnection (insert reason c.interruptReasons)
    c.scheduledRetry c.authToken c.forceAuthTokenRefresh
  rw [interruptForReason]
  dsimp only
  split
  · obtain ⟨c', hc', hsound, hsame⟩ := onDisconnect_spec hkept
    exact ⟨c', hc', hsound, hsame.outstandingPuts, hsame.putCounter, hsame.putsToAck⟩
  · next hrealtime =>
    -- without a connection nothing is waited for, whatever the state was
    have hnone : c.realtime = none := Option.not_isSome_iff_eq_none.1 hrealtime
    have hhash : c.requestCBHash = [] := by
      refine List.eq_nil_iff_forall_not_mem.2 fun e he => ?_
      obtain ⟨q, hq, -⟩ := h.waiting e he
      rw [sent, hnone] at hq
      exact absurd hq List.not_mem_nil
    exact ⟨_, rfl, ⟨⟨h.count, h.requestNumbers, h.nodup_requestCBHash, h.indices,
      h.nodup_outstandingPuts, h.waiting, h.puts, h.attempts, fun hne => absurd rfl hne⟩,
      ⟨hnone, hhash⟩, restored_of_ne nofun⟩, ⟨rfl, rfl, rfl⟩⟩

theorem close_spec (h : c.Sound 0) : ∃ c', c.close = some c' ∧ c'.Sound 0 ∧ c.SamePuts c' := by
  rw [close]
  split
  · exact onDisconnect_spec h.toKept
  · exact ⟨c, rfl, h, .refl c⟩

theorem onAuthRevoked_spec (h : c.Sound 0) :
    ∃ c', c.onAuthRevoked = some c' ∧ c'.Sound 0 ∧ c.SamePuts c' := by
  obtain ⟨c', hc', hsound, hsame⟩ := close_spec (c :=
    { c with authToken := none, forceAuthTokenRefresh := true })
    ⟨h.toKept.settings _ _ _ _ _, h.phase, h.restored⟩
  exact ⟨c', hc', hsound, hsame.outstandingPuts, hsame.putCounter, hsame.putsToAck⟩

/-- **A scheduled retry finds the connection down.** -/
theorem retry_spec (h : c.Sound 0) {forceRefresh : Bool}
    (hscheduled : c.scheduledRetry = some forceRefresh) :
    ∃ c', c.retry forceRefresh = some c' ∧ c'.Sound 0 ∧ c.SamePuts c' := by
  have hphase := h.phase
  have hstate : c.connectionState = .disconnected := by
    unfold Phase at hphase
    split at hphase
    · assumption
    · exact nomatch hscheduled.symm.trans hphase.2.2
    · exact nomatch hscheduled.symm.trans hphase.2.2
    · exact nomatch hscheduled.symm.trans hphase.1.2
    · exact nomatch hscheduled.symm.trans hphase.2
  rw [Phase, hstate] at hphase
  rw [retry, if_pos hstate]
  refine ⟨_, rfl, ⟨⟨h.count, h.requestNumbers, h.nodup_requestCBHash, h.indices,
    h.nodup_outstandingPuts, h.waiting, h.puts, fun e he => ?_, fun _ hne => absurd rfl hne⟩,
    ⟨hphase.1, hphase.2, rfl⟩, restored_of_ne nofun⟩, ⟨rfl, rfl, rfl⟩⟩
  rcases List.mem_append.1 he with he | he
  · exact Nat.le_succ_of_le (h.attempts e he)
  · rw [List.mem_singleton.1 he]

/-- **The answer to the latest fetch finds no connection.** -/
theorem onToken_spec (h : c.Sound 0) {attempt : ℕ} (hfetch : attempt ∈ c.fetches.map Prod.fst)
    (result : Except String (Option String)) :
    ∃ c', c.onToken attempt result = some c' ∧ c'.Sound 0 ∧ c.SamePuts c' := by
  have hphase := h.phase
  have hattempts : ∀ e ∈ c.fetches.filter (fun e => e.1 ≠ attempt),
      e.1 ≤ c.currentFetchTokenAttempt := fun e he => h.attempts e (List.mem_filter.1 he).1
  have hkept : ({ c with fetches := c.fetches.filter fun e => e.1 ≠ attempt } :
      FPersistentConnection).Kept 0 :=
    ⟨h.count, h.requestNumbers, h.nodup_requestCBHash, h.indices, h.nodup_outstandingPuts, h.waiting,
      h.puts, hattempts, fun hne hne' e he => h.calledBack hne hne' e (List.mem_filter.1 he).1⟩
  unfold onToken
  dsimp only
  split
  · next hlatest =>
    have hstate : c.connectionState = .disconnected ∨ c.connectionState = .gettingToken := by
      obtain ⟨e, he, heq⟩ := List.mem_map.1 hfetch
      by_contra hno
      rw [not_or] at hno
      exact h.calledBack hno.1 hno.2 e he (heq.trans hlatest)
    have hdown : c.realtime = none ∧ c.requestCBHash = [] := by
      rcases hstate with heq | heq <;> rw [Phase, heq] at hphase
      exacts [hphase, ⟨hphase.1, hphase.2.1⟩]
    cases result with
    | error e =>
      obtain ⟨c', hc', hsound, hsame⟩ := tryScheduleReconnect_spec (c :=
        { c with
          connectionState := .disconnected
          fetches := c.fetches.filter fun e => e.1 ≠ attempt })
        ⟨⟨hkept.count, hkept.requestNumbers, hkept.nodup_requestCBHash, hkept.indices,
          hkept.nodup_outstandingPuts, hkept.waiting, hkept.puts, hattempts,
          fun hne => absurd rfl hne⟩, hdown, restored_of_ne nofun⟩ rfl
      exact ⟨c', hc', hsound, hsame.outstandingPuts, hsame.putCounter, hsame.putsToAck⟩
    | ok token =>
      rcases hstate with heq | heq
      · have hne : c.connectionState ≠ .gettingToken := heq ▸ nofun
        exact ⟨_, (if_neg hne).trans (if_pos heq), ⟨hkept, hphase, h.restored⟩, ⟨rfl, rfl, rfl⟩⟩
      · rw [Phase, heq] at hphase
        dsimp only
        rw [if_pos heq, openNetworkConnectionWithToken, if_pos heq]
        refine ⟨_, rfl, ⟨⟨h.count, h.requestNumbers, h.nodup_requestCBHash, h.indices,
          h.nodup_outstandingPuts, fun e he => ?_, nofun, hattempts, fun _ _ e he => ?_⟩,
          ⟨⟨_, rfl, rfl⟩, hphase.2⟩, restored_of_ne nofun⟩, ⟨rfl, rfl, rfl⟩⟩
        · exact absurd (hphase.2.1 ▸ he) List.not_mem_nil
        · exact hlatest ▸ of_decide_eq_true (List.mem_filter.1 he).2
  · exact ⟨_, rfl, ⟨hkept, hphase, h.restored⟩, ⟨rfl, rfl, rfl⟩⟩

/-- The requests look at the state only where a token is fetched. -/
theorem Kept.withState (h : c.Kept owed) (hne : c.connectionState ≠ .disconnected)
    (hne' : c.connectionState ≠ .gettingToken) (state : ConnectionState) :
    ({ c with connectionState := state } : FPersistentConnection).Kept owed :=
  ⟨h.count, h.requestNumbers, h.nodup_requestCBHash, h.indices, h.nodup_outstandingPuts, h.waiting,
    h.puts, h.attempts, fun _ _ => h.calledBack hne hne'⟩

/-- **A connection that has restored its state is sound.** -/
theorem sound_of_restoreState (h : c.Kept owed) (hopen : c.IsOpen)
    (hretry : c.scheduledRetry = none) (hstate : c.connectionState = .connected) :
    ∃ c', c.restoreState = some c' ∧ c'.Sound owed ∧ c.SamePuts c' := by
  obtain ⟨c', hc', hkept, hgrows, hputs, hlistens⟩ := restoreState_spec h hopen hstate
  have hphase : c.Phase := by
    unfold Phase
    rw [hstate]
    exact ⟨hopen, hretry⟩
  exact ⟨c', hc', ⟨hkept, hgrows.phase hphase (isConnected_iff.2 (.inr hstate)),
    fun _ _ => ⟨hputs, hlistens⟩⟩, hgrows.samePuts⟩

/-- **Signing in**, or restoring the state at once without a token. -/
theorem restoreAuth_spec (h : c.Kept 0) (hopen : c.IsOpen) (hretry : c.scheduledRetry = none)
    (hstate : c.connectionState = .connecting) :
    ∃ c', c.restoreAuth = some c' ∧ c'.Sound 0 ∧ c.SamePuts c' := by
  have hkept := h.withState (hstate ▸ nofun) (hstate ▸ nofun)
  rw [restoreAuth, if_pos hstate]
  by_cases htoken : c.authToken.isNone = true
  · obtain ⟨c', hc', hsound, hsame⟩ := sound_of_restoreState (hkept .connected) hopen hretry rfl
    exact ⟨c', (if_pos htoken).trans hc', hsound, hsame.outstandingPuts, hsame.putCounter,
      hsame.putsToAck⟩
  · obtain ⟨credential, hcredential⟩ := Option.ne_none_iff_exists'.1
      fun hnone => htoken (Option.isNone_iff_eq_none.2 hnone)
    obtain ⟨c', hc', hkept', hgrows, hwaits⟩ := sendAction_spec (hkept .authenticating) hopen
      (.auth credential) (some (.auth true)) (fun cb hcb => Option.some.inj hcb ▸ rfl)
      fun index hindex => nomatch hindex
    refine ⟨c', (if_neg htoken).trans ?_, ⟨hkept', ?_, restored_of_ne ?_⟩,
      hgrows.samePuts.outstandingPuts, hgrows.samePuts.putCounter, hgrows.samePuts.putsToAck⟩
    · rw [sendAuth]
      exact (if_pos rfl).trans (Option.bind_eq_some_iff.2 ⟨credential, hcredential, hc'⟩)
    · unfold Phase
      rw [hgrows.connectionState, hgrows.scheduledRetry]
      exact ⟨⟨hgrows.isOpen, hretry⟩, _, hwaits _ rfl⟩
    · rw [hgrows.connectionState]
      nofun

theorem onHandshake_spec (h : c.Sound 0) :
    ∃ c', c.onHandshake = some c' ∧ c'.Sound 0 ∧ c.SamePuts c' := by
  unfold onHandshake
  cases hrealtime : c.realtime with
  | none => exact ⟨c, rfl, h, .refl c⟩
  | some realtime =>
    dsimp only
    split
    · exact ⟨c, rfl, h, .refl c⟩
    · next hconnected =>
      have hphase := h.phase
      have hclosed : ¬ c.IsOpen := by
        rintro ⟨realtime', heq, hopen⟩
        obtain rfl := Option.some.inj (hrealtime.symm.trans heq)
        exact hconnected hopen
      have hstate : c.connectionState = .connecting ∧ c.scheduledRetry = none := by
        unfold Phase at hphase
        split at hphase
        · exact nomatch hrealtime.symm.trans hphase.1
        · exact nomatch hrealtime.symm.trans hphase.1
        · next heq => exact ⟨heq, hphase.2.2⟩
        · exact absurd hphase.1.1 hclosed
        · exact absurd hphase.1 hclosed
      have hsent := sent_eq hrealtime
      have hkept : ({ c with realtime := some { realtime with connected := true } } :
          FPersistentConnection).Kept 0 :=
        ⟨h.count, h.requestNumbers, h.nodup_requestCBHash, h.indices, h.nodup_outstandingPuts,
          fun e he => hsent ▸ h.waiting e he, fun q hq => h.puts q (hsent ▸ hq), h.attempts,
          h.calledBack⟩
      -- the statistics of the first connection, and then the state
      have hstats : ∃ c₁, (if c.firstConnection then
          sendAction { c with realtime := some { realtime with connected := true } } .stats
            (some .stats)
          else some { c with realtime := some { realtime with connected := true } }) = some c₁ ∧
          c₁.Kept 0 ∧
          Grows { c with realtime := some { realtime with connected := true } } c₁ := by
        split
        · obtain ⟨c₁, hc₁, hkept₁, hgrows, -⟩ := sendAction_spec hkept ⟨_, rfl, rfl⟩ .stats
            (some .stats) (fun cb hcb => Option.some.inj hcb ▸ rfl) fun index hindex => nomatch hindex
          exact ⟨c₁, hc₁, hkept₁, hgrows⟩
        · exact ⟨_, rfl, hkept, .refl ⟨_, rfl, rfl⟩⟩
      obtain ⟨c₁, hc₁, hkept₁, hgrows⟩ := hstats
      obtain ⟨c₂, hc₂, hsound, hsame⟩ := restoreAuth_spec hkept₁ hgrows.isOpen
        (hgrows.scheduledRetry.trans hstate.2) (hgrows.connectionState.trans hstate.1)
      have hputs := hgrows.samePuts.trans hsame
      refine ⟨{ c₂ with firstConnection := false }, ?_,
        ⟨hsound.toKept.settings _ _ _ _ _, hsound.phase, hsound.restored⟩,
        ⟨hputs.outstandingPuts, hputs.putCounter, hputs.putsToAck⟩⟩
      rw [onReady]
      exact Option.bind_eq_some_iff.2 ⟨c₁, hc₁, Option.map_eq_some_iff.2 ⟨c₂, hc₂, rfl⟩⟩

theorem refreshAuthToken_spec (h : c.Sound 0) (token : Option String) :
    ∃ c', c.refreshAuthToken token = some c' ∧ c'.Sound 0 ∧ c.SamePuts c' := by
  have hsound : ({ c with authToken := token } : FPersistentConnection).Sound 0 :=
    ⟨h.toKept.settings _ _ _ _ _, h.phase, h.restored⟩
  rw [refreshAuthToken]
  split
  · next hconnected =>
    obtain ⟨hopen, -⟩ := hsound.of_isConnected hconnected
    cases token with
    | none =>
      obtain ⟨c', hc', hkept, hgrows, -⟩ := sendAction_spec hsound.toKept hopen .unauth none
        (fun cb hcb => nomatch hcb) fun index hindex => nomatch hindex
      exact ⟨c', hc', hsound.grows hconnected hkept hgrows, hgrows.samePuts.outstandingPuts,
        hgrows.samePuts.putCounter, hgrows.samePuts.putsToAck⟩
    | some credential =>
      obtain ⟨c', hc', hkept, hgrows, -⟩ := sendAction_spec hsound.toKept hopen (.auth credential)
        (some (.auth false)) (fun cb hcb => Option.some.inj hcb ▸ rfl)
        fun index hindex => nomatch hindex
      exact ⟨c', (if_pos hconnected).trans hc', hsound.grows hconnected hkept hgrows,
        hgrows.samePuts.outstandingPuts, hgrows.samePuts.putCounter, hgrows.samePuts.putsToAck⟩
  · exact ⟨_, rfl, hsound, ⟨rfl, rfl, rfl⟩⟩

end FPersistentConnection

end DevicesTracker
