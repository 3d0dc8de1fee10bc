import Mathlib.Data.Finset.Card
import Mathlib.Data.Finset.Range
import DevicesTracker.Services.LocationService
/-!
# The account of completions

Every completion handed to the service should be called once, or be in
the slot and be called later. None is ever called twice, nor called while
it is in the slot (`Sound`); what can happen is that one is lost, by a
request that waits and takes its place, or because the slot is cleared
after the completion in it has run and not before. `accounted_iff_keeps`
says that a run loses none exactly if neither happens.
-/

namespace DevicesTracker

namespace LocationService

/-- How often a completion has been called. -/
def timesCalled (self : LocationService) (n : ℕ) : ℕ :=
  self.calls.countP fun call => call.ticket = n

/-- A completion is in the slot. -/
def IsHeld (self : LocationService) (n : ℕ) : Prop :=
  ∃ held, self.requestAccessCompletion = some held ∧ held.ticket = n

/-- **Every completion is accounted for**: it has been called once, or it
is in the slot, and not both. -/
def Accounted (self : LocationService) : Prop :=
  ∀ n < self.handed, self.timesCalled n = 1 ∧ ¬ self.IsHeld n ∨
    self.timesCalled n = 0 ∧ self.IsHeld n

/-- Whether there is a completion in the slot. -/
def holds (self : LocationService) : Bool := self.requestAccessCompletion.isSome

/-! ## The requests of a script that wait -/

/-- The requests a script makes that are not granted at once, in order;
each by whether it hands over a completion. -/
def waiting (status : CLAuthorizationStatus) : Script → List Bool
  | .done => []
  | .requestAccessToLocation accessType completion next =>
    if some status = accessType.requestLocationType then
      waiting status (completion true) ++ waiting status next
    else true :: waiting status next
  | .requestAccessToLocationNil accessType next =>
    if some status = accessType.requestLocationType then waiting status next
    else false :: waiting status next
  | .startLocationTracking next => waiting status next
  | .print _ next => waiting status next

/-- Whether one of the requests is made while a completion is in the
slot. -/
def displaces : Bool → List Bool → Bool
  | _, [] => false
  | held, b :: l => held || displaces b l

section Waiting

variable {self : LocationService} {accessType : LocationAccessType}

theorem waiting_request_of_granted (h : self.Granted accessType) (completion : Bool → Script)
    (next : Script) :
    waiting self.authorizationStatus (.requestAccessToLocation accessType completion next) =
      waiting self.authorizationStatus (completion true) ++ waiting self.authorizationStatus next :=
  if_pos h

theorem waiting_request_of_not_granted (h : ¬ self.Granted accessType) (completion : Bool → Script)
    (next : Script) :
    waiting self.authorizationStatus (.requestAccessToLocation accessType completion next) =
      true :: waiting self.authorizationStatus next := if_neg h

theorem waiting_requestNil_of_granted (h : self.Granted accessType) (next : Script) :
    waiting self.authorizationStatus (.requestAccessToLocationNil accessType next) =
      waiting self.authorizationStatus next := if_pos h

theorem waiting_requestNil_of_not_granted (h : ¬ self.Granted accessType) (next : Script) :
    waiting self.authorizationStatus (.requestAccessToLocationNil accessType next) =
      false :: waiting self.authorizationStatus next := if_neg h

end Waiting

/-- What is in the slot after a script is what was handed over last. -/
theorem holds_perform (script : Script) (self : LocationService) :
    (perform script self).holds =
      (waiting self.authorizationStatus script).getLast?.getD self.holds := by
  induction script generalizing self with
  | done => rfl
  | requestAccessToLocation accessType completion next ihCompletion ihNext =>
    by_cases hg : self.Granted accessType
    · rw [perform_request_of_granted hg, waiting_request_of_granted hg, ihNext, ihCompletion,
        List.getLast?_append, authorizationStatus_perform, authorizationStatus_grantCall]
      cases (waiting self.authorizationStatus next).getLast? <;> rfl
    · rw [perform_request_of_not_granted hg, waiting_request_of_not_granted hg, ihNext,
        List.getLast?_cons, authorizationStatus_waitFor]
      rfl
  | requestAccessToLocationNil accessType next ihNext =>
    by_cases hg : self.Granted accessType
    · rw [perform_requestNil_of_granted hg, waiting_requestNil_of_granted hg, ihNext]
      rfl
    · rw [perform_requestNil_of_not_granted hg, waiting_requestNil_of_not_granted hg, ihNext,
        List.getLast?_cons, authorizationStatus_waitFor]
      rfl
  | startLocationTracking next ihNext => exact ihNext _
  | print message next ihNext => exact ihNext _

/-- A completion handed over is called at once, or its request waits. -/
theorem handed_perform (script : Script) (self : LocationService) :
    (perform script self).handed + self.calls.length =
      self.handed + (perform script self).calls.length +
        (waiting self.authorizationStatus script).count true := by
  induction script generalizing self with
  | done => rfl
  | requestAccessToLocation accessType completion next ihCompletion ihNext =>
    by_cases hg : self.Granted accessType
    · -- one handed over and one called, and the rest is what its code does
      rw [perform_request_of_granted hg, waiting_request_of_granted hg, List.count_append]
      have hcompletion := ihCompletion true (self.grantCall accessType)
      have hnext := ihNext (perform (completion true) (self.grantCall accessType))
      simp only [authorizationStatus_perform, authorizationStatus_grantCall, calls_grantCall,
        handed_grantCall, List.length_cons] at hcompletion hnext
      omega
    · rw [perform_request_of_not_granted hg, waiting_request_of_not_granted hg,
        List.count_cons_self]
      have hnext := ihNext (self.waitFor accessType (some completion))
      simp only [authorizationStatus_waitFor, calls_waitFor, handed_waitFor_some] at hnext
      omega
  | requestAccessToLocationNil accessType next ihNext =>
    by_cases hg : self.Granted accessType
    · rw [perform_requestNil_of_granted hg, waiting_requestNil_of_granted hg]
      exact ihNext (self.grantNil accessType)
    · rw [perform_requestNil_of_not_granted hg, waiting_requestNil_of_not_granted hg,
        List.count_cons_of_ne Bool.false_ne_true]
      exact ihNext (self.waitFor accessType none)
  | startLocationTracking next ihNext => exact ihNext _
  | print message next ihNext => exact ihNext _

/-! ## No completion is called twice -/

/-- **No completion is called twice, or called and in the slot**, `running`
apart: while a completion runs it may still be in the slot. -/
structure Sound (running : Option ℕ) (service : LocationService) : Prop where
  nodup : (service.calls.map (·.ticket)).Nodup
  called_lt : ∀ n ∈ service.calls.map (·.ticket), n < service.handed
  held_lt : ∀ held, service.requestAccessCompletion = some held → held.ticket < service.handed
  held_notMem : ∀ held, service.requestAccessCompletion = some held → some held.ticket ≠ running →
    held.ticket ∉ service.calls.map (·.ticket)

/-- A completion that is called and has not been called before. -/
theorem Sound.called {running : Option ℕ} {self : LocationService} (h : Sound running self) {n : ℕ}
    (hlt : n < self.handed) (hnew : n ∉ self.calls.map (·.ticket)) (accessType : LocationAccessType)
    (granted : Bool) (hheld : ∀ held, self.requestAccessCompletion = some held →
      some held.ticket ≠ running → held.ticket ≠ n) :
    Sound running (self.called n accessType granted) where
  nodup := by
    rw [calls_called, List.map_cons]
    exact List.nodup_cons.2 ⟨hnew, h.nodup⟩
  called_lt := by
    rw [calls_called, List.map_cons, List.forall_mem_cons]
    exact ⟨hlt, h.called_lt⟩
  held_lt := h.held_lt
  held_notMem held hslot hne := by
    rw [calls_called, List.map_cons, List.mem_cons]
    rintro (heq | hmem)
    exacts [hheld held hslot hne heq, h.held_notMem held hslot hne hmem]

theorem Sound.perform {running : Option ℕ} {self : LocationService} (h : Sound running self)
    (script : Script) : Sound running (perform script self) := by
  refine perform_induction (P := Sound running) ?_ ?_ ?_ (fun s hs => ?_) (fun s _ hs => ?_)
    script h
  · intro s accessType hs _
    -- the number of the completion called is new
    have hmore : Sound running { s with accessType := accessType, handed := s.handed + 1 } :=
      ⟨hs.nodup, fun n hn => (hs.called_lt n hn).trans (Nat.lt_succ_self _),
        fun held hslot => (hs.held_lt held hslot).trans (Nat.lt_succ_self _), hs.held_notMem⟩
    refine hmore.called (Nat.lt_succ_self _) (fun hmem => ?_) accessType true fun held hslot _ => ?_
    · exact Nat.lt_irrefl _ (hs.called_lt _ hmem)
    · exact (hs.held_lt held hslot).ne
  · exact fun s accessType hs _ => ⟨hs.nodup, hs.called_lt, hs.held_lt, hs.held_notMem⟩
  · intro s accessType completion hs _
    have hslot : ∀ held, (s.waitFor accessType completion).requestAccessCompletion = some held →
        held.ticket = s.handed ∧ (s.waitFor accessType completion).handed = s.handed + 1 := by
      intro held hslot
      cases completion with
      | none => cases hslot
      | some c => obtain rfl := Option.some.inj hslot; exact ⟨rfl, rfl⟩
    have hgrow : s.handed ≤ (s.waitFor accessType completion).handed := by
      cases completion with
      | none => exact le_rfl
      | some c => exact Nat.le_succ _
    refine ⟨hs.nodup, fun n hn => (hs.called_lt n hn).trans_le hgrow, fun held hheld => ?_,
      fun held hheld _ hmem => ?_⟩
    · have := hslot held hheld
      omega
    · have hlt := hs.called_lt _ hmem
      have := hslot held hheld
      omega
  · exact ⟨hs.nodup, hs.called_lt, hs.held_lt, hs.held_notMem⟩
  · exact ⟨hs.nodup, hs.called_lt, hs.held_lt, hs.held_notMem⟩

/-- With the slot cleared no completion is running any more. -/
theorem Sound.clear {running : Option ℕ} {self : LocationService} (h : Sound running self) :
    Sound none { self with requestAccessCompletion := none } where
  nodup := h.nodup
  called_lt := h.called_lt
  held_lt held hslot := absurd hslot (Option.some_ne_none held).symm
  held_notMem held hslot := absurd hslot (Option.some_ne_none held).symm

/-- An event keeps the service sound. -/
theorem Sound.handle {self : LocationService} (h : Sound none self) (event : LocationEvent) :
    Sound none (self.handle event) := by
  cases event with
  | requestAccessToLocation accessType completion => exact h.perform _
  | didChangeAuthorization status =>
    rw [LocationService.handle]
    rcases self.quiet_or_held status with hquiet | ⟨hstatus, held, hslot⟩
    · rw [didChangeAuthorization_of_quiet hquiet]
      exact ⟨h.nodup, h.called_lt, h.held_lt, h.held_notMem⟩
    · -- the completion in the slot runs, and the slot is cleared after it
      have hrunning : Sound (some held.ticket) { self with authorizationStatus := status } :=
        ⟨h.nodup, h.called_lt, h.held_lt, fun held' hslot' _ =>
          h.held_notMem held' hslot' (Option.some_ne_none _)⟩
      have hcalled : Sound (some held.ticket) (self.calledHeld status held) :=
        hrunning.called (h.held_lt held hslot) (h.held_notMem held hslot (Option.some_ne_none _))
          held.accessType (self.answer status) fun held' _ hne heq => hne (congrArg some heq)
      have hran := hcalled.perform (held.completion (self.answer status))
      rw [didChangeAuthorization_of_held hstatus hslot]
      exact hran.clear

/-- **No completion is ever called twice**, in any run. -/
theorem sound_run {authorizationStatus : CLAuthorizationStatus} {tr : List LocationEvent}
    {self : LocationService} (hrun : (machine authorizationStatus).run tr = some self) :
    Sound none self := by
  refine Machine.run_induction (P := fun _ s => Sound none s) ?_ ?_ hrun
  · exact ⟨List.nodup_nil, fun _ hf => absurd hf List.not_mem_nil,
      fun held hslot => absurd hslot (Option.some_ne_none held).symm,
      fun held hslot => absurd hslot (Option.some_ne_none held).symm⟩
  · intro tr s event s' _ hs hstep
    obtain rfl := machine_step_eq_some.1 hstep
    exact hs.handle event

/-! ## The account as a sum -/

/-- Distinct numbers below a bound are all of them if there are as many. -/
theorem forall_lt_mem_iff_length {l : List ℕ} {m : ℕ} (hnodup : l.Nodup) (hlt : ∀ n ∈ l, n < m) :
    (∀ n < m, n ∈ l) ↔ l.length = m := by
  have hcard : l.toFinset.card = l.length := List.toFinset_card_of_nodup hnodup
  have hsub : l.toFinset ⊆ Finset.range m := fun n hn =>
    Finset.mem_range.2 (hlt n (List.mem_toFinset.1 hn))
  constructor
  · intro hall
    have heq : l.toFinset = Finset.range m :=
      hsub.antisymm fun n hn => List.mem_toFinset.2 (hall n (Finset.mem_range.1 hn))
    rw [← hcard, heq, Finset.card_range]
  · intro hlen n hn
    have heq : l.toFinset = Finset.range m :=
      Finset.eq_of_subset_of_card_le hsub (by rw [Finset.card_range, hcard, hlen])
    exact List.mem_toFinset.1 (heq ▸ Finset.mem_range.2 hn)

/-- The completions called or in the slot. -/
def tickets (self : LocationService) : List ℕ :=
  (self.requestAccessCompletion.map (·.ticket)).toList ++ self.calls.map (·.ticket)

theorem length_tickets (self : LocationService) :
    self.tickets.length = self.holds.toNat + self.calls.length := by
  rw [tickets, List.length_append, List.length_map, holds]
  cases self.requestAccessCompletion <;> rfl

theorem timesCalled_eq_count (self : LocationService) (n : ℕ) :
    self.timesCalled n = (self.calls.map (·.ticket)).count n := by
  rw [timesCalled, List.count, List.countP_map]
  congr 1

/-- **A sound service accounts for every completion exactly when it has
called or holds as many as it was handed.** -/
theorem Sound.accounted_iff {self : LocationService} (h : Sound none self) :
    self.Accounted ↔ self.holds.toNat + self.calls.length = self.handed := by
  have hheld : ∀ n, n ∈ (self.requestAccessCompletion.map (·.ticket)).toList ↔ self.IsHeld n := by
    intro n
    cases hslot : self.requestAccessCompletion with
    | none => simp [IsHeld, hslot]
    | some held => simp [IsHeld, hslot, eq_comm]
  have hnodup : self.tickets.Nodup := by
    refine List.nodup_append'.2 ⟨?_, h.nodup, fun n hn hn' => ?_⟩
    · cases self.requestAccessCompletion <;> simp
    · obtain ⟨held, hslot, rfl⟩ := (hheld n).1 hn
      exact h.held_notMem held hslot (Option.some_ne_none _) hn'
  have hlt : ∀ n ∈ self.tickets, n < self.handed := by
    intro n hn
    rcases List.mem_append.1 hn with hn | hn
    · obtain ⟨held, hslot, rfl⟩ := (hheld n).1 hn
      exact h.held_lt held hslot
    · exact h.called_lt n hn
  rw [← length_tickets, ← forall_lt_mem_iff_length hnodup hlt]
  refine forall₂_congr fun n _ => ?_
  rw [timesCalled_eq_count, tickets, List.mem_append, hheld]
  have honce : (self.calls.map (·.ticket)).count n = 1 ↔ n ∈ self.calls.map (·.ticket) := by
    refine ⟨fun h1 => List.count_pos_iff.1 (by omega), fun hmem => ?_⟩
    exact List.count_eq_one_of_mem h.nodup hmem
  have hnone : (self.calls.map (·.ticket)).count n = 0 ↔ n ∉ self.calls.map (·.ticket) :=
    List.count_eq_zero
  have hnotboth : self.IsHeld n → n ∉ self.calls.map (·.ticket) := by
    rintro ⟨held, hslot, rfl⟩
    exact h.held_notMem held hslot (Option.some_ne_none _)
  rw [honce, hnone]
  constructor
  · rintro (⟨hmem, -⟩ | ⟨-, hslot⟩)
    exacts [.inr hmem, .inl hslot]
  · rintro (hslot | hmem)
    · exact .inr ⟨hnotboth hslot, hslot⟩
    · exact .inl ⟨hmem, fun hslot => hnotboth hslot hmem⟩

/-! ## What an event loses -/

theorem count_true_cons (b : Bool) (l : List Bool) :
    (b :: l).count true = b.toNat + l.count true := by
  cases b with
  | false => rw [List.count_cons_of_ne Bool.false_ne_true]; exact (Nat.zero_add _).symm
  | true => rw [List.count_cons_self]; exact Nat.add_comm ..

theorem toNat_getLast_le (held : Bool) (l : List Bool) :
    (l.getLast?.getD held).toNat ≤ held.toNat + l.count true := by
  induction l generalizing held with
  | nil => exact le_rfl
  | cons b l ih =>
    have hb := ih b
    rw [List.getLast?_cons, Option.getD_some, count_true_cons]
    omega

/-- Of the completions in the slot before and handed over by requests that
wait, the last is kept; it is the only one if none is displaced. -/
theorem toNat_getLast_eq_iff (held : Bool) (l : List Bool) :
    (l.getLast?.getD held).toNat = held.toNat + l.count true ↔ displaces held l = false := by
  induction l generalizing held with
  | nil => exact iff_of_true rfl rfl
  | cons b l ih =>
    have hle := toNat_getLast_le b l
    rw [List.getLast?_cons, Option.getD_some, count_true_cons, displaces, Bool.or_eq_false_iff,
      ← ih b]
    cases held with
    | false => simp
    | true =>
      -- two completions for one slot
      simp only [Bool.toNat_true, Bool.true_eq_false, false_and, iff_false]
      omega

/-- **What keeps the account**: a request from outside makes no request
wait while a completion is in the slot, and a completion run by a report
hands over none in a request that waits. -/
def Keeps (self : LocationService) : LocationEvent → Prop
  | .requestAccessToLocation accessType completion =>
    displaces self.holds (waiting self.authorizationStatus (scriptOf accessType completion)) = false
  | .didChangeAuthorization status =>
    status ≠ .notDetermined → ∀ held, self.requestAccessCompletion = some held →
      true ∉ waiting status (held.completion (self.answer status))

/-- **One event** keeps the account exactly if it loses nothing. -/
theorem accounted_handle_iff {self : LocationService} (h : Sound none self) (ha : self.Accounted)
    (event : LocationEvent) : (self.handle event).Accounted ↔ self.Keeps event := by
  rw [h.accounted_iff] at ha
  rw [(h.handle event).accounted_iff]
  cases event with
  | requestAccessToLocation accessType completion =>
    have hhanded := handed_perform (scriptOf accessType completion) self
    rw [handle, Keeps, ← toNat_getLast_eq_iff, ← holds_perform]
    omega
  | didChangeAuthorization status =>
    rw [handle, Keeps]
    rcases self.quiet_or_held status with hquiet | ⟨hstatus, held, hslot⟩
    · rw [didChangeAuthorization_of_quiet hquiet]
      refine iff_of_true ha fun hstatus held hslot => ?_
      rw [hquiet.resolve_left hstatus] at hslot
      cases hslot
    · have hhanded := handed_perform (held.completion (self.answer status))
        (self.calledHeld status held)
      have hholds : self.holds.toNat = 1 := by rw [holds, hslot]; rfl
      rw [authorizationStatus_calledHeld, handed_calledHeld, calls_calledHeld,
        List.length_cons] at hhanded
      rw [didChangeAuthorization_of_held hstatus hslot]
      -- the slot is empty after the report, so every completion has been called
      change 0 + (perform _ _).calls.length = (perform _ _).handed ↔ _
      constructor
      · intro hsum _ held' hslot'
        obtain rfl : held = held' := Option.some.inj (hslot.symm.trans hslot')
        rw [← List.count_eq_zero]
        omega
      · intro hkeeps
        have hzero := List.count_eq_zero.2 (hkeeps hstatus held hslot)
        omega

/-- **A run accounts for every completion in every state exactly if each of
its events keeps the account.** -/
theorem accounted_iff_keeps (authorizationStatus : CLAuthorizationStatus)
    (tr : List LocationEvent) :
    (machine authorizationStatus).Throughout (fun _ self => self.Accounted) tr ↔
      (machine authorizationStatus).EveryStep (fun _ self event => self.Keeps event) tr := by
  obtain ⟨self, hrun⟩ := exists_run authorizationStatus tr
  refine Machine.throughout_iff_everyStep (fun _ hn => absurd hn (Nat.not_lt_zero _)) ?_ hrun
  intro tr s event s' hrun hthrough hstep
  obtain rfl := machine_step_eq_some.1 hstep
  exact accounted_handle_iff (sound_run hrun) (hthrough.last hrun) event

/-- **A completion that asks again when it is refused is lost**: the
request it makes takes the slot, which is then cleared. -/
theorem not_accounted_askAgain :
    let askAgain : Bool → Script := fun _ =>
      .requestAccessToLocation .always (fun _ => .done) .done
    let tr : List LocationEvent :=
      [.didChangeAuthorization .denied, .requestAccessToLocation .always (some askAgain)]
    ∃ self, (machine .notDetermined).run tr = some self ∧ self.handed = 2 ∧
      self.timesCalled 1 = 0 ∧ self.requestAccessCompletion = none ∧ ¬ self.Accounted := by
  refine ⟨_, rfl, rfl, rfl, rfl, fun ha => ?_⟩
  rcases ha 1 (by decide) with ⟨hcalled, -⟩ | ⟨-, held, hslot, -⟩
  exacts [absurd hcalled (by decide), nomatch hslot]

end LocationService

end DevicesTracker
