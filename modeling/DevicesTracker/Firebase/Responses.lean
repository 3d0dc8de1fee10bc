import DevicesTracker.Firebase.Carried
/-!
# Firebase — what becomes of the writes

A write is outstanding, then its answer waits or is given, once. The
operations that make a write, answer it or cancel it, with what they make of
the outstanding puts, of the answers that wait, and of the completion blocks
they call. A response fails only where the completion block of its listen
listens twice.
-/

namespace DevicesTracker

namespace FPersistentConnection

variable {c c' : FPersistentConnection} {owed : ℕ}

/-- **A write is outstanding**, and under way where writes can be sent. -/
theorem putInternal_spec (h : c.Sound 0) (request : Request) (writeId : ℤ) :
    ∃ c', c.putInternal request writeId = some c' ∧ c'.Sound 0 ∧
      c'.outstandingPuts = c.outstandingPuts ++ [(c.putCounter, FOutstandingPut.mk request writeId)] ∧
      c'.putsToAck = c.putsToAck := by
  have hfresh : c.putCounter ∉ c.outstandingPuts.map Prod.fst := by
    intro hmem
    obtain ⟨e, he, heq⟩ := List.mem_map.1 hmem
    exact absurd (h.indices e he) (heq ▸ Nat.lt_irrefl _)
  have hkept : ({ c with
      putCounter := c.putCounter + 1
      outstandingPuts := c.outstandingPuts ++ [(c.putCounter, FOutstandingPut.mk request writeId)] } :
      FPersistentConnection).Kept 0 := by
    refine ⟨h.count, h.requestNumbers, h.nodup_requestCBHash, fun e he => ?_, ?_, h.waiting,
      fun q hq index hcallback => ?_, h.attempts, h.calledBack⟩
    · rcases List.mem_append.1 he with he | he
      · exact Nat.lt_succ_of_lt (h.indices e he)
      · rw [List.mem_singleton.1 he]
        exact Nat.lt_succ_self _
    · dsimp only
      rw [List.map_append]
      exact List.nodup_append'.2 ⟨h.nodup_outstandingPuts, List.nodup_singleton _,
        List.disjoint_singleton.2 hfresh⟩
    · obtain ⟨hlt, hsame⟩ := h.puts q hq index hcallback
      refine ⟨Nat.lt_succ_of_lt hlt, fun put hput => hsame put ?_⟩
      rwa [Dictionary.lookup_concat_of_ne (Nat.ne_of_lt hlt)] at hput
  rw [putInternal]
  cases hsend : c.canSendWrites with
  | false =>
    refine ⟨_, if_neg (Bool.eq_false_iff.1 hsend), ⟨hkept, h.phase, restored_of_ne ?_⟩, rfl, rfl⟩
    exact of_decide_eq_false hsend
  | true =>
    have hstate : c.connectionState = .connected := of_decide_eq_true hsend
    have hconnected : c.isConnected = true := isConnected_iff.2 (.inr hstate)
    obtain ⟨hopen, -⟩ := h.of_isConnected hconnected
    obtain ⟨c', hc', hkept', hgrows, hcarried⟩ := sendPut_spec hkept hopen hsend
      (Dictionary.lookup_concat_self hfresh _)
    refine ⟨c', (if_pos hsend).trans hc', ⟨hkept', hgrows.phase h.phase hconnected, ?_⟩,
      hgrows.samePuts.outstandingPuts, hgrows.samePuts.putsToAck⟩
    intro hstate' hauth
    obtain ⟨hputs, hlistens⟩ := h.restored hstate
      fun e he => hauth e (hgrows.requestCBHash e he)
    rw [hgrows.samePuts.outstandingPuts, hgrows.listens]
    refine ⟨fun e he => ?_, fun listenSpec hspec => ?_⟩
    · rcases List.mem_append.1 he with he | he
      · obtain ⟨requestNumber, hmem⟩ := hputs e he
        exact ⟨requestNumber, hgrows.requestCBHash _ hmem⟩
      · exact List.mem_singleton.1 he ▸ hcarried
    · obtain ⟨q, hq, hcallback⟩ := hlistens listenSpec hspec
      exact ⟨q, hgrows.sent q hq, hcallback⟩

/-! ## A response -/

section Answered

variable {requestNumber : ℕ} {callback : RequestCallback}

/-- The connection once a response to a request is looked at. -/
def answered (c : FPersistentConnection) (requestNumber : ℕ) : FPersistentConnection :=
  { c with requestCBHash := c.requestCBHash.filter fun e => e.1 ≠ requestNumber }

/-- **A response takes one off what is waited for.** -/
theorem Kept.answered (h : c.Kept 0) (hlookup : c.requestCBHash.lookup requestNumber = some callback) :
    (c.answered requestNumber).Kept (if callback.isListen then 1 else 0) := by
  refine ⟨?_, fun e he => h.requestNumbers e (List.mem_filter.1 he).1,
    Dictionary.nodup_removed h.nodup_requestCBHash _, h.indices, h.nodup_outstandingPuts,
    fun e he => h.waiting e (List.mem_filter.1 he).1, h.puts, h.attempts, h.calledBack⟩
  have hcount := h.count
  rw [(Dictionary.perm_cons_removed h.nodup_requestCBHash hlookup).countP_eq, List.countP_cons]
    at hcount
  exact hcount

/-- A connection that waits for a response is connected. -/
theorem Sound.of_lookup (h : c.Sound 0)
    (hlookup : c.requestCBHash.lookup requestNumber = some callback) : c.isConnected = true := by
  have hphase := h.phase
  have hne : c.requestCBHash ≠ [] := by
    rintro heq
    rw [heq] at hlookup
    exact nomatch hlookup
  unfold Phase at hphase
  unfold isConnected
  split at hphase
  · exact absurd hphase.2 hne
  · exact absurd hphase.2.1 hne
  · exact absurd hphase.2.1 hne
  · next heq => rw [heq]; rfl
  · next heq => rw [heq]; rfl

/-- What is waited for besides. -/
theorem mem_answered_of_mem (h : c.Sound 0)
    (hlookup : c.requestCBHash.lookup requestNumber = some callback) {e : ℕ × RequestCallback}
    (he : e ∈ c.requestCBHash) (hne : callback ≠ e.2) :
    e ∈ (c.answered requestNumber).requestCBHash := by
  obtain ⟨number, cb⟩ := e
  refine List.mem_filter.2 ⟨he, decide_eq_true fun hnumber => ?_⟩
  have hsame := Dictionary.lookup_of_mem h.nodup_requestCBHash he
  rw [show number = requestNumber from hnumber] at hsame
  exact hne (Option.some.inj (hlookup.symm.trans hsame))

/-- Another response than that to the sign-in leaves the phase. -/
theorem phase_answered (h : c.Sound 0)
    (hlookup : c.requestCBHash.lookup requestNumber = some callback)
    (hauth : callback ≠ .auth true) : (c.answered requestNumber).Phase := by
  have hphase := h.phase
  unfold Phase at hphase ⊢
  rcases isConnected_iff.1 (h.of_lookup hlookup) with heq | heq <;> rw [heq] at hphase <;>
    rw [answered] <;> dsimp only <;> rw [heq]
  · obtain ⟨hopen, number, hmem⟩ := hphase
    exact ⟨hopen, number, mem_answered_of_mem h hlookup hmem hauth⟩
  · exact hphase

/-- What a restored connection carries besides what is answered. -/
theorem restored_answered (h : c.Sound 0)
    (hlookup : c.requestCBHash.lookup requestNumber = some callback)
    (hauth : callback ≠ .auth true) (hstate : c.connectionState = .connected)
    (hnoAuth : ∀ e ∈ (c.answered requestNumber).requestCBHash, e.2 ≠ .auth true) :
    (∀ e ∈ c.outstandingPuts, callback ≠ .put e.1 → (c.answered requestNumber).Carried e.1) ∧
      ∀ listenSpec ∈ c.listens, c.ListenSent listenSpec := by
  obtain ⟨hputs, hlistens⟩ := h.restored hstate fun e he heq =>
    hnoAuth e (mem_answered_of_mem h hlookup he (heq ▸ hauth)) heq
  refine ⟨fun e he hne => ?_, hlistens⟩
  obtain ⟨number, hmem⟩ := hputs e he
  exact ⟨number, mem_answered_of_mem h hlookup hmem hne⟩

/-- **The response to anything but a put or the sign-in** leaves the
connection sound. -/
theorem Sound.answered (h : c.Sound 0)
    (hlookup : c.requestCBHash.lookup requestNumber = some callback)
    (hput : ∀ index, callback ≠ .put index) (hauth : callback ≠ .auth true) :
    (c.answered requestNumber).Sound (if callback.isListen then 1 else 0) := by
  refine ⟨h.toKept.answered hlookup, phase_answered h hlookup hauth, fun hstate hnoAuth => ?_⟩
  obtain ⟨hputs, hlistens⟩ := restored_answered h hlookup hauth hstate hnoAuth
  exact ⟨fun e he => hputs e he (hput e.1), hlistens⟩

end Answered

/-! ## The response to a put -/

/-- The answers that wait are of no concern to the requests. -/
theorem Sound.withPutsToAck (h : c.Sound owed) (acks : List (ℤ × String)) :
    ({ c with putsToAck := acks } : FPersistentConnection).Sound owed :=
  ⟨⟨h.count, h.requestNumbers, h.nodup_requestCBHash, h.indices, h.nodup_outstandingPuts, h.waiting,
    h.puts, h.attempts, h.calledBack⟩, h.phase, h.restored⟩

/-- Answers that waited are given, and no put is answered. -/
structure Acked (c c' : FPersistentConnection) (acks : List (ℤ × String)) : Prop where
  outstandingPuts : c'.outstandingPuts = c.outstandingPuts
  putsToAck : acks ++ c'.putsToAck = c.putsToAck

/-- A put is answered, and its answer given or put to those that wait. -/
structure PutAnswered (c c' : FPersistentConnection) (acks : List (ℤ × String)) (index : ℕ)
    (put : FOutstandingPut) (status : String) : Prop where
  lookup : c.outstandingPuts.lookup index = some put
  outstandingPuts : c'.outstandingPuts = c.outstandingPuts.filter fun e => e.1 ≠ index
  putsToAck : (acks ++ c'.putsToAck).Perm ((put.writeId, status) :: c.putsToAck)

theorem SamePuts.acked (h : c.SamePuts c') : c.Acked c' [] := ⟨h.outstandingPuts, h.putsToAck⟩

section Responses

variable {requestNumber : ℕ}

/-- The answered put is outstanding no more. -/
theorem Sound.putAnswered (h : c.Sound 0) {index : ℕ}
    (hlookup : c.requestCBHash.lookup requestNumber = some (.put index)) :
    ({ c.answered requestNumber with
      outstandingPuts := c.outstandingPuts.filter fun e => e.1 ≠ index } :
        FPersistentConnection).Sound 0 := by
  have hkept : (c.answered requestNumber).Kept 0 := h.toKept.answered hlookup
  refine ⟨⟨hkept.count, hkept.requestNumbers, hkept.nodup_requestCBHash,
    fun e he => h.indices e (List.mem_filter.1 he).1,
    Dictionary.nodup_removed h.nodup_outstandingPuts _, hkept.waiting, fun q hq index' hcallback => ?_,
    h.attempts, h.calledBack⟩, phase_answered h hlookup nofun, fun hstate hnoAuth => ?_⟩
  · obtain ⟨hlt, hsame⟩ := h.puts q hq index' hcallback
    exact ⟨hlt, fun put hput => hsame put (Dictionary.lookup_removed_eq_some.1 hput).2⟩
  · obtain ⟨hputs, hlistens⟩ := restored_answered h hlookup nofun hstate hnoAuth
    refine ⟨fun e he => ?_, hlistens⟩
    obtain ⟨hmem, hne⟩ := Dictionary.mem_removed.1 he
    exact hputs e hmem fun heq => hne (RequestCallback.put.inj heq).symm

/-- **The response to a put** answers it, if it is outstanding still. -/
theorem onPutResponse_spec (h : c.Sound 0) {index : ℕ}
    (hlookup : c.requestCBHash.lookup requestNumber = some (.put index)) (status : String) :
    ∃ c' acks, (c.answered requestNumber).onPutResponse index status = (c', acks) ∧ c'.Sound 0 ∧
      (c.Acked c' acks ∨ ∃ put, c.PutAnswered c' acks index put status) := by
  have hsound := h.putAnswered hlookup
  unfold onPutResponse
  cases hput : (c.answered requestNumber).outstandingPuts.lookup index with
  | none =>
    have hremoved : (c.outstandingPuts.filter fun e => e.1 ≠ index) = c.outstandingPuts := by
      refine Dictionary.removed_eq_self fun hmem => ?_
      obtain ⟨put, hsome⟩ := Dictionary.exists_lookup hmem
      exact nomatch hput.symm.trans hsome
    rw [hremoved] at hsound
    exact ⟨_, _, rfl, hsound, .inl ⟨rfl, rfl⟩⟩
  | some put =>
    dsimp only
    split
    · exact ⟨_, _, rfl, hsound, .inr ⟨put, hput, rfl, List.Perm.refl _⟩⟩
    · exact ⟨_, _, rfl, hsound.withPutsToAck _, .inr ⟨put, hput, rfl,
        List.perm_append_singleton _ _⟩⟩

/-! ## The other responses -/

/-- The queries listened to once a listen has its response. -/
def queriesAfter (c : FPersistentConnection) (query : FPath) (status : String) : List FPath :=
  if status = statusOk then c.queries else c.queries.filter fun q => q ≠ query

/-- A listen that is refused is removed. -/
theorem removed_spec (h : c.Sound owed) (query : FPath) (status : String) :
    (if status = statusOk then c else c.removeListen query).Sound owed ∧
      c.SamePuts (if status = statusOk then c else c.removeListen query) ∧
      (if status = statusOk then c else c.removeListen query).queries =
        c.queriesAfter query status := by
  rw [queriesAfter]
  split
  · exact ⟨h, .refl c, rfl⟩
  · exact ⟨h.removeListen query, ⟨rfl, rfl, rfl⟩, queries_removeListen query⟩

/-- **The response to a listen**, whose completion block never listens
twice: with the last one the answers that wait are given. -/
theorem onListenResponse_spec (h : c.Sound 1) {listenSpec : FOutstandingQuery} {status : String}
    {calls : List ListenCall}
    (hcalls : listenSpec ∈ c.listens → CallsAllowed (c.queriesAfter listenSpec.query status) calls) :
    ∃ c' acks, c.onListenResponse listenSpec status calls = some (c', acks) ∧ c'.Sound 0 ∧
      c.Acked c' acks := by
  have hblock : ∃ c₁, (if listenSpec ∈ c.listens then
      calls.foldlM perform (if status = statusOk then c else c.removeListen listenSpec.query)
      else some c) = some c₁ ∧ c₁.Sound 1 ∧ c.SamePuts c₁ := by
    by_cases hmem : listenSpec ∈ c.listens
    · rw [if_pos hmem]
      obtain ⟨hsoundAfter, hsameAfter, hqueries⟩ := removed_spec h listenSpec.query status
      obtain ⟨c₁, hc₁, hsound, hsame⟩ := foldlM_perform_spec hsoundAfter (hqueries ▸ hcalls hmem)
      exact ⟨c₁, hc₁, hsound, hsameAfter.trans hsame⟩
    · exact ⟨c, if_neg hmem, h, .refl c⟩
  obtain ⟨c₁, hc₁, hsound, hsame⟩ := hblock
  rw [onListenResponse, hc₁, Option.bind_some]
  -- the listen that is owed is the one counted and answered
  have hcount := hsound.count
  have hafter : ({ c₁ with
      unackedListensCount := c₁.requestCBHash.countP fun e => e.2.isListen } :
        FPersistentConnection).Sound 0 :=
    ⟨⟨rfl, hsound.requestNumbers, hsound.nodup_requestCBHash, hsound.indices,
      hsound.nodup_outstandingPuts, hsound.waiting, hsound.puts, hsound.attempts,
      hsound.calledBack⟩, hsound.phase, hsound.restored⟩
  rw [hcount]
  dsimp only
  split
  · exact ⟨_, _, rfl, hafter.withPutsToAck [], hsame.outstandingPuts,
      (List.append_nil _).trans hsame.putsToAck⟩
  · exact ⟨_, _, rfl, hafter, hsame.outstandingPuts, hsame.putsToAck⟩

/-- **The response to an authentication** that is the sign-in restores the
state; another finds the state restored, or the sign-in still under way. -/
theorem onAuthResponse_spec (h : c.Sound 0) {restore : Bool}
    (hlookup : c.requestCBHash.lookup requestNumber = some (.auth restore)) (status : String) :
    ∃ c', (c.answered requestNumber).onAuthResponse restore status = some c' ∧ c'.Sound 0 ∧
      c.SamePuts c' := by
  have hconnected := h.of_lookup hlookup
  obtain ⟨hopen, hretry⟩ := h.of_isConnected hconnected
  have hstate := isConnected_iff.1 hconnected
  have hanswered : (c.answered requestNumber).Kept 0 := h.toKept.answered hlookup
  have hkept : ({ c.answered requestNumber with connectionState := .connected } :
      FPersistentConnection).Kept 0 :=
    hanswered.withState (by rcases hstate with heq | heq <;> exact heq ▸ nofun)
      (by rcases hstate with heq | heq <;> exact heq ▸ nofun) .connected
  unfold onAuthResponse
  dsimp only
  by_cases hok : status = statusOk
  · rw [if_pos hok]
    cases restore with
    | true =>
      obtain ⟨c', hc', hsound, hsame⟩ := sound_of_restoreState hkept hopen hretry rfl
      exact ⟨c', hc', hsound, hsame.outstandingPuts, hsame.putCounter, hsame.putsToAck⟩
    | false =>
      refine ⟨_, rfl, ⟨hkept, ⟨hopen, hretry⟩, fun _ hnoAuth => ?_⟩, rfl, rfl, rfl⟩
      -- with no sign-in under way the connection was connected before
      have hbefore : c.connectionState = .connected := by
        refine hstate.resolve_left fun heq => ?_
        have hphase := phase_answered h hlookup nofun
        unfold Phase at hphase
        rw [show (c.answered requestNumber).connectionState = .authenticating from heq] at hphase
        obtain ⟨-, number, hmem⟩ := hphase
        exact hnoAuth _ hmem rfl
      obtain ⟨hputs, hlistens⟩ := restored_answered h hlookup nofun hbefore hnoAuth
      exact ⟨fun e he => hputs e he nofun, hlistens⟩
  · obtain ⟨realtime, hrealtime, -⟩ := hopen
    obtain ⟨c', hc', hsound, hsame⟩ := onDisconnect_spec
      (hkept.settings c.firstConnection c.interruptReasons c.scheduledRetry none true)
    refine ⟨c', ?_, hsound, hsame.outstandingPuts, hsame.putCounter, hsame.putsToAck⟩
    rw [if_neg hok, close]
    refine (if_pos ?_).trans hc'
    rw [answered, hrealtime]
    rfl

/-- The completion block of the listen that a response is to never listens
twice. -/
def ResponseAllowed (c : FPersistentConnection) (requestNumber : ℕ) (status : String)
    (calls : List ListenCall) : Prop :=
  ∀ listenSpec, c.requestCBHash.lookup requestNumber = some (.listen listenSpec) →
    listenSpec ∈ c.listens → CallsAllowed (c.queriesAfter listenSpec.query status) calls

/-- **A response** answers at most the put it is to. -/
theorem onDataMessage_spec (h : c.Sound 0) {status : String} {calls : List ListenCall}
    (hcalls : c.ResponseAllowed requestNumber status calls) :
    ∃ c' acks, c.onDataMessage requestNumber status calls = some (c', acks) ∧ c'.Sound 0 ∧
      (c.Acked c' acks ∨ ∃ index put, c.requestCBHash.lookup requestNumber = some (.put index) ∧
        c.PutAnswered c' acks index put status) := by
  unfold onDataMessage
  cases hlookup : c.requestCBHash.lookup requestNumber with
  | none => exact ⟨c, [], rfl, h, .inl ⟨rfl, rfl⟩⟩
  | some callback =>
    cases callback with
    | put index =>
      obtain ⟨c', acks, heq, hsound, hputs⟩ := onPutResponse_spec h hlookup status
      exact ⟨c', acks, congrArg some heq, hsound,
        hputs.imp_right fun ⟨put, hanswered⟩ => ⟨index, put, rfl, hanswered⟩⟩
    | listen listenSpec =>
      obtain ⟨c', acks, hc', hsound, hacked⟩ := onListenResponse_spec
        (h.answered hlookup nofun nofun) (hcalls listenSpec hlookup)
      exact ⟨c', acks, hc', hsound, .inl ⟨hacked.outstandingPuts, hacked.putsToAck⟩⟩
    | auth restore =>
      obtain ⟨c', hc', hsound, hsame⟩ := onAuthResponse_spec h hlookup status
      exact ⟨c', [], congrArg (Option.map fun c => (c, [])) hc', hsound, .inl hsame.acked⟩
    | stats =>
      exact ⟨_, [], rfl, h.answered hlookup nofun nofun, .inl ⟨rfl, rfl⟩⟩

theorem onListenResponse_eq_none (h : c.Sound 1) {listenSpec : FOutstandingQuery}
    {status : String} {calls : List ListenCall} (hmem : listenSpec ∈ c.listens)
    (hcalls : ¬ CallsAllowed (c.queriesAfter listenSpec.query status) calls) :
    c.onListenResponse listenSpec status calls = none := by
  obtain ⟨hsoundAfter, -, hqueries⟩ := removed_spec h listenSpec.query status
  rw [← hqueries] at hcalls
  rw [onListenResponse, if_pos hmem, foldlM_perform_eq_none hsoundAfter hcalls]
  rfl

/-- **A response fails where a listen is made twice.** -/
theorem onDataMessage_eq_none (h : c.Sound 0) {status : String} {calls : List ListenCall}
    (hcalls : ¬ c.ResponseAllowed requestNumber status calls) :
    c.onDataMessage requestNumber status calls = none := by
  simp only [ResponseAllowed, not_forall] at hcalls
  obtain ⟨listenSpec, hlookup, hmem, hcalls⟩ := hcalls
  unfold onDataMessage
  rw [hlookup]
  exact onListenResponse_eq_none (h.answered hlookup nofun nofun) hmem hcalls

end Responses

/-! ## The end of listens and of writes -/

/-- **A listen that is revoked** is removed, and its completion block called. -/
theorem onListenRevoked_spec (h : c.Sound 0) {path : FPath} {calls : List ListenCall}
    (hcalls : path ∈ c.queries → CallsAllowed (c.queries.filter fun q => q ≠ path) calls) :
    ∃ c', c.onListenRevoked path calls = some c' ∧ c'.Sound 0 ∧ c.SamePuts c' := by
  rw [onListenRevoked, any_query_eq]
  by_cases hmem : path ∈ c.queries
  · obtain ⟨c', hc', hsound, hsame⟩ := foldlM_perform_spec (h.removeListen path)
      (queries_removeListen path ▸ hcalls hmem)
    exact ⟨c', (if_pos (decide_eq_true hmem)).trans hc', hsound, hsame.outstandingPuts,
      hsame.putCounter, hsame.putsToAck⟩
  · exact ⟨c, if_neg (ne_true_of_eq_false (decide_eq_false hmem)), h, .refl c⟩

theorem onListenRevoked_eq_none (h : c.Sound 0) {path : FPath} {calls : List ListenCall}
    (hcalls : ¬ (path ∈ c.queries → CallsAllowed (c.queries.filter fun q => q ≠ path) calls)) :
    c.onListenRevoked path calls = none := by
  rw [Classical.not_imp] at hcalls
  rw [onListenRevoked, any_query_eq, decide_eq_true hcalls.1]
  refine (if_pos rfl).trans (foldlM_perform_eq_none (h.removeListen path) ?_)
  rw [queries_removeListen]
  exact hcalls.2

/-- **The purge** gives the answers that wait and cancels every outstanding
write. -/
theorem purgeOutstandingWrites_spec (h : c.Sound 0) :
    ∃ c' acks, c.purgeOutstandingWrites = (c', acks) ∧ c'.Sound 0 ∧ c'.outstandingPuts = [] ∧
      c'.putsToAck = [] ∧ ∃ canceled, acks = c.putsToAck ++ canceled ∧
        canceled.Perm (c.outstandingPuts.map fun e => (e.2.writeId, writeCanceled)) := by
  refine ⟨_, _, rfl, ⟨⟨h.count, h.requestNumbers, h.nodup_requestCBHash, nofun, List.nodup_nil,
    h.waiting, fun q hq index hcallback => ?_, h.attempts, h.calledBack⟩, h.phase,
    fun hstate hnoAuth => ⟨nofun, (h.restored hstate hnoAuth).2⟩⟩, rfl, rfl, _, rfl,
    (List.mergeSort_perm _ _).map _⟩
  exact ⟨(h.puts q hq index hcallback).1, nofun⟩

end FPersistentConnection

end DevicesTracker
