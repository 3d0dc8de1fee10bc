import DevicesTracker.Services.LocationService
/-!
# The answers of the service

A completion should be told whether the status is the one of the access
type passed with it. At a granted request it is. At a report it is told
whether the status is the one of the access type in the field
`accessType`, which every request overwrites, also one that is granted at
once and leaves the slot alone.
-/

namespace DevicesTracker

namespace LocationService

/-- The answer is that of the call's own access type. -/
def Truthful (call : CompletionCall) : Prop :=
  call.granted = true ↔ some call.authorizationStatus = call.accessType.requestLocationType

/-- Every completion called was told the truth. -/
def AllTruthful (self : LocationService) : Prop := ∀ call ∈ self.calls, Truthful call

/-- Code of the app adds true answers only. -/
theorem allTruthful_perform_iff (script : Script) (self : LocationService) :
    (perform script self).AllTruthful ↔ self.AllTruthful := by
  refine perform_induction (P := fun s => s.AllTruthful ↔ self.AllTruthful) ?_ ?_ ?_ ?_ ?_
    script Iff.rfl
  · -- a granted request says so, and that is the truth
    intro s accessType hs hg
    have htrue : Truthful ⟨s.handed, accessType, s.authorizationStatus, true⟩ :=
      iff_of_true rfl hg
    rw [← hs, AllTruthful, calls_grantCall, List.forall_mem_cons]
    exact and_iff_right htrue
  · exact fun _ _ hs _ => hs
  · exact fun _ _ _ hs _ => hs
  · exact fun _ hs => hs
  · exact fun _ _ hs => hs

/-- The access type of the last request made where code runs under a status,
the requests of completions granted at once among them. -/
def lastRequest (authorizationStatus : CLAuthorizationStatus) :
    Script → Option LocationAccessType
  | .done => none
  | .requestAccessToLocation accessType completion next =>
    (lastRequest authorizationStatus next).or
      (((if some authorizationStatus = accessType.requestLocationType then
        lastRequest authorizationStatus (completion true) else none)).or (some accessType))
  | .requestAccessToLocationNil accessType next =>
    (lastRequest authorizationStatus next).or (some accessType)
  | .startLocationTracking next => lastRequest authorizationStatus next
  | .print _ next => lastRequest authorizationStatus next

/-- **The field `accessType` is the type of the last request**, granted or
not. -/
theorem accessType_perform (script : Script) (self : LocationService) :
    (perform script self).accessType =
      (lastRequest self.authorizationStatus script).getD self.accessType := by
  induction script generalizing self with
  | done => rfl
  | requestAccessToLocation accessType completion next ihCompletion ihNext =>
    rw [lastRequest]
    by_cases hg : self.Granted accessType
    · have hstatus : (self.grantCall accessType).authorizationStatus = self.authorizationStatus :=
        rfl
      rw [perform_request_of_granted hg, ihNext, authorizationStatus_perform, hstatus,
        ihCompletion, hstatus, if_pos (show some self.authorizationStatus = _ from hg)]
      cases lastRequest self.authorizationStatus next <;>
        cases lastRequest self.authorizationStatus (completion true) <;> rfl
    · rw [perform_request_of_not_granted hg, ihNext, authorizationStatus_waitFor,
        if_neg (show ¬ some self.authorizationStatus = _ from hg), Option.none_or]
      cases lastRequest self.authorizationStatus next <;> rfl
  | requestAccessToLocationNil accessType next ihNext =>
    rw [lastRequest]
    by_cases hg : self.Granted accessType
    · have hstatus : (self.grantNil accessType).authorizationStatus = self.authorizationStatus :=
        rfl
      rw [perform_requestNil_of_granted hg, ihNext, hstatus]
      cases lastRequest self.authorizationStatus next <;> rfl
    · rw [perform_requestNil_of_not_granted hg, ihNext, authorizationStatus_waitFor]
      cases lastRequest self.authorizationStatus next <;> rfl
  | startLocationTracking next ihNext => exact ihNext _
  | print message next ihNext => exact ihNext _

/-- So what a report judges by is the last request made before it. -/
theorem accessType_handle (self : LocationService) (event : LocationEvent) :
    (self.handle event).accessType =
      match event with
      | .requestAccessToLocation accessType completion =>
        (lastRequest self.authorizationStatus (scriptOf accessType completion)).getD
          self.accessType
      | .didChangeAuthorization status =>
        if status = .notDetermined then self.accessType
        else (self.requestAccessCompletion.bind fun held =>
          lastRequest status (held.completion (self.answer status))).getD self.accessType := by
  cases event with
  | requestAccessToLocation accessType completion => exact accessType_perform _ self
  | didChangeAuthorization status =>
    rw [handle]
    dsimp only
    by_cases hstatus : status = .notDetermined
    · rw [didChangeAuthorization_of_quiet (.inl hstatus), if_pos hstatus]
    · rw [if_neg hstatus]
      cases hslot : self.requestAccessCompletion with
      | none =>
        rw [didChangeAuthorization_of_quiet (.inr hslot)]
        rfl
      | some held =>
        rw [didChangeAuthorization_of_held hstatus hslot]
        exact accessType_perform _ (self.calledHeld status held)

/-- Statuses are told apart by the access types only. -/
theorem truthful_answer_iff (asked passed : LocationAccessType) (status : CLAuthorizationStatus) :
    (some status = asked.requestLocationType ↔ some status = passed.requestLocationType) ↔
      asked = passed ∨ status ≠ .authorizedAlways ∧ status ≠ .authorizedWhenInUse := by
  cases asked <;> cases passed <;> cases status <;>
    simp [LocationAccessType.requestLocationType]

/-- **What keeps the answers true**: a determined status is reported to a
completion while the field `accessType` is still the access type passed
with it, or the status is of no access type. -/
def Judges (self : LocationService) : LocationEvent → Prop
  | .requestAccessToLocation _ _ => True
  | .didChangeAuthorization status =>
    status ≠ .notDetermined → ∀ held, self.requestAccessCompletion = some held →
      self.accessType = held.accessType ∨
        status ≠ .authorizedAlways ∧ status ≠ .authorizedWhenInUse

/-- **One event** keeps the answers true exactly if it judges by the right
access type. -/
theorem allTruthful_handle_iff {self : LocationService} (h : self.AllTruthful)
    (event : LocationEvent) : (self.handle event).AllTruthful ↔ self.Judges event := by
  cases event with
  | requestAccessToLocation accessType completion =>
    exact iff_of_true ((allTruthful_perform_iff _ self).2 h) trivial
  | didChangeAuthorization status =>
    rw [handle, Judges]
    rcases self.quiet_or_held status with hquiet | ⟨hstatus, held, hslot⟩
    · rw [didChangeAuthorization_of_quiet hquiet]
      refine iff_of_true h fun hstatus held hslot => ?_
      rw [hquiet.resolve_left hstatus] at hslot
      cases hslot
    · have hcall : Truthful ⟨held.ticket, held.accessType, status, self.answer status⟩ ↔
          self.accessType = held.accessType ∨
            status ≠ .authorizedAlways ∧ status ≠ .authorizedWhenInUse := by
        rw [← truthful_answer_iff, Truthful, answer, decide_eq_true_iff]
      have hran := allTruthful_perform_iff (held.completion (self.answer status))
        (self.calledHeld status held)
      rw [didChangeAuthorization_of_held hstatus hslot]
      refine (hran.trans ?_ : (perform _ _).AllTruthful ↔ _)
      rw [AllTruthful, calls_calledHeld, List.forall_mem_cons, hcall]
      constructor
      · rintro ⟨hjudge, -⟩ _ held' hslot'
        obtain rfl : held = held' := Option.some.inj (hslot.symm.trans hslot')
        exact hjudge
      · exact fun hjudge => ⟨hjudge hstatus held hslot, h⟩

/-- **A run tells every completion the truth exactly if each of its reports
judges by the access type passed with the completion it calls.** -/
theorem allTruthful_iff_judges (authorizationStatus : CLAuthorizationStatus)
    (tr : List LocationEvent) :
    (machine authorizationStatus).Throughout (fun _ self => self.AllTruthful) tr ↔
      (machine authorizationStatus).EveryStep (fun _ self event => self.Judges event) tr := by
  obtain ⟨self, hrun⟩ := exists_run authorizationStatus tr
  refine Machine.throughout_iff_everyStep (fun _ hf => absurd hf List.not_mem_nil) ?_ hrun
  intro tr s event s' hrun hthrough hstep
  obtain rfl := machine_step_eq_some.1 hstep
  exact allTruthful_handle_iff (hthrough.last hrun) event

/-- **A granted request in between turns the answer of the one before it.**
The status becomes the one the first completion was to wait for, and it is
told that it has not. -/
theorem not_allTruthful_grantedBetween :
    let tr : List LocationEvent :=
      [.didChangeAuthorization .authorizedAlways,
        .requestAccessToLocation .whenInUse (some fun _ => .done),
        .requestAccessToLocation .always (some fun _ => .done)]
    ∃ self, (machine .authorizedWhenInUse).run tr = some self ∧
      self.calls.head? = some ⟨0, .always, .authorizedAlways, false⟩ ∧ ¬ self.AllTruthful := by
  refine ⟨_, rfl, rfl, fun htrue => ?_⟩
  have hcall := (htrue _ List.mem_cons_self).2 rfl
  cases hcall

end LocationService

end DevicesTracker
