import Mathlib.Data.Int.Notation
import DevicesTracker.Common.Runs
/-!
# `LocationService`

The service that asks the user for access to the location and starts the
tracking. A request that is not granted at once leaves its completion in
the one slot `requestAccessCompletion`, and the next determined status the
location manager reports runs it. A completion is code of the app, which
may call the service again while it runs: a `Script` is what such code
does, call by call. The completions handed to the service are numbered,
and each call of one is recorded; nothing in the service looks at either.
-/

namespace DevicesTracker

inductive CLAuthorizationStatus where
  | notDetermined | restricted | denied | authorizedAlways | authorizedWhenInUse
  deriving DecidableEq

inductive LocationAccessType where
  | always | whenInUse
  deriving DecidableEq

def LocationAccessType.requestLocationType : LocationAccessType → Option CLAuthorizationStatus
  | always => some .authorizedAlways
  | whenInUse => some .authorizedWhenInUse

/-- Code that uses the service: its calls, in their order. A completion is
given by the code it runs for each answer. -/
inductive Script where
  | done
  | requestAccessToLocation (accessType : LocationAccessType) (completion : Bool → Script)
      (next : Script)
  /-- A request with a nil completion. -/
  | requestAccessToLocationNil (accessType : LocationAccessType) (next : Script)
  | startLocationTracking (next : Script)
  | print (message : String) (next : Script)

/-- `CLLocationManager`: its delegate, its settings with their defaults,
whether it updates the location, and the prompts asked for. -/
structure CLLocationManager where
  hasDelegate : Bool := false
  desiredAccuracy : ℤ := -1
  distanceFilter : ℤ := -1
  allowsBackgroundLocationUpdates : Bool := false
  showsBackgroundLocationIndicator : Bool := false
  pausesLocationUpdatesAutomatically : Bool := true
  updatesLocation : Bool := false
  prompts : List LocationAccessType := []

/-- A completion in the slot, with its number and the access type passed
with it. -/
structure HeldCompletion where
  ticket : ℕ
  accessType : LocationAccessType
  completion : Bool → Script

/-- One call of a completion: which, passed with which access type, under
which authorization status, and with what answer. -/
structure CompletionCall where
  ticket : ℕ
  accessType : LocationAccessType
  authorizationStatus : CLAuthorizationStatus
  granted : Bool

structure LocationService where
  /-- `CLLocationManager.authorizationStatus()`. -/
  authorizationStatus : CLAuthorizationStatus
  locationManager : CLLocationManager
  requestAccessCompletion : Option HeldCompletion := none
  accessType : LocationAccessType := .always
  /-- How many completions have been handed to the service. -/
  handed : ℕ := 0
  /-- The calls of completions, newest first. -/
  calls : List CompletionCall := []
  /-- What has been printed, and the messages of failed assertions, newest
  first. -/
  printed : List String := []
  failures : List String := []

namespace LocationService

/-- `LocationService()`: the service is the manager's delegate. -/
def init (authorizationStatus : CLAuthorizationStatus) : LocationService :=
  { authorizationStatus := authorizationStatus
    locationManager := { hasDelegate := true } }

/-- A completion is called; what it then does is run after this. -/
def called (self : LocationService) (ticket : ℕ) (accessType : LocationAccessType)
    (granted : Bool) : LocationService :=
  { self with calls := ⟨ticket, accessType, self.authorizationStatus, granted⟩ :: self.calls }

/-- A request whose access is granted already. `runCompletion` runs what
the completion does. -/
def grant (self : LocationService) (accessType : LocationAccessType)
    (completion : Option (Bool → Script)) (runCompletion : LocationService → LocationService) :
    LocationService :=
  match completion with
  | some _ =>
    runCompletion ({ self with handed := self.handed + 1 }.called self.handed accessType true)
  | none => self

/-- A request that has to wait: its completion takes the slot and the user
is asked. -/
def wait (self : LocationService) (accessType : LocationAccessType)
    (completion : Option (Bool → Script)) : LocationService :=
  { self with
    requestAccessCompletion := completion.map fun c => ⟨self.handed, accessType, c⟩
    handed := if completion.isSome then self.handed + 1 else self.handed
    failures :=
      if self.locationManager.hasDelegate then self.failures
      else "invalid process" :: self.failures
    locationManager :=
      { self.locationManager with prompts := accessType :: self.locationManager.prompts } }

def requestAccessToLocation (accessType : LocationAccessType) (completion : Option (Bool → Script))
    (runCompletion : LocationService → LocationService) (self : LocationService) :
    LocationService :=
  let self := { self with accessType := accessType }
  if some self.authorizationStatus = accessType.requestLocationType then
    self.grant accessType completion runCompletion
  else self.wait accessType completion

def startLocationTracking (self : LocationService) : LocationService :=
  { self with
    locationManager :=
      { self.locationManager with
        desiredAccuracy := 10
        distanceFilter := 500
        allowsBackgroundLocationUpdates := true
        showsBackgroundLocationIndicator := false
        pausesLocationUpdatesAutomatically := false
        updatesLocation := true } }

/-- Code of the app runs. -/
def perform : Script → LocationService → LocationService
  | .done, self => self
  | .requestAccessToLocation accessType completion next, self =>
    perform next
      (self.requestAccessToLocation accessType (some completion) (perform (completion true)))
  | .requestAccessToLocationNil accessType next, self =>
    perform next (self.requestAccessToLocation accessType none id)
  | .startLocationTracking next, self => perform next self.startLocationTracking
  | .print message next, self => perform next { self with printed := message :: self.printed }

/-- `locationManager(_:didChangeAuthorization:)`, which reports the status
there is. -/
def didChangeAuthorization (status : CLAuthorizationStatus) (self : LocationService) :
    LocationService :=
  let self := { self with authorizationStatus := status }
  if status = .notDetermined then self
  else
    let granted : Bool := some status = self.accessType.requestLocationType
    let self :=
      match self.requestAccessCompletion with
      | some held =>
        perform (held.completion granted) (self.called held.ticket held.accessType granted)
      | none => self
    -- what the completion has put into the slot is cleared with it
    { self with requestAccessCompletion := none }

end LocationService

/-- What can happen to the service from outside. -/
inductive LocationEvent where
  | requestAccessToLocation (accessType : LocationAccessType) (completion : Option (Bool → Script))
  | didChangeAuthorization (status : CLAuthorizationStatus)

namespace LocationService

/-- A request as code that makes it. -/
def scriptOf (accessType : LocationAccessType) : Option (Bool → Script) → Script
  | some completion => .requestAccessToLocation accessType completion .done
  | none => .requestAccessToLocationNil accessType .done

def handle (self : LocationService) : LocationEvent → LocationService
  | .requestAccessToLocation accessType completion => perform (scriptOf accessType completion) self
  | .didChangeAuthorization status => self.didChangeAuthorization status

/-- The service from its creation, under a status. -/
def machine (authorizationStatus : CLAuthorizationStatus) :
    Machine LocationService LocationEvent where
  init := init authorizationStatus
  step self event := some (self.handle event)

theorem machine_step_eq_some {authorizationStatus : CLAuthorizationStatus}
    {self self' : LocationService} {event : LocationEvent} :
    (machine authorizationStatus).step self event = some self' ↔ self.handle event = self' :=
  Option.some_inj

/-- Every sequence of events is possible. -/
theorem exists_run (authorizationStatus : CLAuthorizationStatus) (tr : List LocationEvent) :
    ∃ self, (machine authorizationStatus).run tr = some self := by
  induction tr with
  | nil => exact ⟨_, rfl⟩
  | cons event tr ih =>
    obtain ⟨self, hrun⟩ := ih
    exact ⟨self.handle event, Machine.run_cons_eq_some.2 ⟨self, hrun, rfl⟩⟩

/-! ## What a script can do -/

/-- Whether a request is granted at once. -/
def Granted (self : LocationService) (accessType : LocationAccessType) : Prop :=
  some self.authorizationStatus = accessType.requestLocationType

instance (self : LocationService) (accessType : LocationAccessType) :
    Decidable (self.Granted accessType) :=
  inferInstanceAs (Decidable (_ = _))

/-- A granted request up to what its completion does. -/
def grantCall (self : LocationService) (accessType : LocationAccessType) : LocationService :=
  { self with accessType := accessType, handed := self.handed + 1 }.called self.handed accessType
    true

/-- A granted request without a completion. -/
def grantNil (self : LocationService) (accessType : LocationAccessType) : LocationService :=
  { self with accessType := accessType }

/-- A request that has to wait. -/
def waitFor (self : LocationService) (accessType : LocationAccessType)
    (completion : Option (Bool → Script)) : LocationService :=
  { self with accessType := accessType }.wait accessType completion

section Primitives

variable (self : LocationService) (accessType : LocationAccessType)
  (completion : Option (Bool → Script)) (n : ℕ) (granted : Bool)

@[simp] theorem calls_called : (self.called n accessType granted).calls =
    ⟨n, accessType, self.authorizationStatus, granted⟩ :: self.calls := rfl

@[simp] theorem authorizationStatus_grantCall :
    (self.grantCall accessType).authorizationStatus = self.authorizationStatus := rfl

@[simp] theorem calls_grantCall : (self.grantCall accessType).calls =
    ⟨self.handed, accessType, self.authorizationStatus, true⟩ :: self.calls := rfl

@[simp] theorem handed_grantCall : (self.grantCall accessType).handed = self.handed + 1 := rfl

@[simp] theorem authorizationStatus_waitFor :
    (self.waitFor accessType completion).authorizationStatus = self.authorizationStatus := rfl

@[simp] theorem calls_waitFor : (self.waitFor accessType completion).calls = self.calls := rfl

@[simp] theorem handed_waitFor_some (completion : Bool → Script) :
    (self.waitFor accessType (some completion)).handed = self.handed + 1 := rfl

end Primitives

variable {self : LocationService} {accessType : LocationAccessType}

theorem perform_request_of_granted (h : self.Granted accessType) (completion : Bool → Script)
    (next : Script) :
    perform (.requestAccessToLocation accessType completion next) self =
      perform next (perform (completion true) (self.grantCall accessType)) := by
  rw [perform, requestAccessToLocation, if_pos (show some self.authorizationStatus = _ from h)]
  rfl

theorem perform_request_of_not_granted (h : ¬ self.Granted accessType) (completion : Bool → Script)
    (next : Script) :
    perform (.requestAccessToLocation accessType completion next) self =
      perform next (self.waitFor accessType (some completion)) := by
  rw [perform, requestAccessToLocation, if_neg (show ¬ some self.authorizationStatus = _ from h)]
  rfl

theorem perform_requestNil_of_granted (h : self.Granted accessType) (next : Script) :
    perform (.requestAccessToLocationNil accessType next) self =
      perform next (self.grantNil accessType) := by
  rw [perform, requestAccessToLocation, if_pos (show some self.authorizationStatus = _ from h)]
  rfl

theorem perform_requestNil_of_not_granted (h : ¬ self.Granted accessType) (next : Script) :
    perform (.requestAccessToLocationNil accessType next) self =
      perform next (self.waitFor accessType none) := by
  rw [perform, requestAccessToLocation, if_neg (show ¬ some self.authorizationStatus = _ from h)]
  rfl

/-- **The rule for scripts**: what each primitive step keeps, a script
keeps. -/
theorem perform_induction {P : LocationService → Prop}
    (hgrant : ∀ self accessType, P self → self.Granted accessType → P (self.grantCall accessType))
    (hgrantNil : ∀ self accessType, P self → self.Granted accessType → P (self.grantNil accessType))
    (hwait : ∀ self accessType completion, P self → ¬ self.Granted accessType →
      P (self.waitFor accessType completion))
    (hstart : ∀ self, P self → P self.startLocationTracking)
    (hprint : ∀ self message, P self → P { self with printed := message :: self.printed })
    (script : Script) {self : LocationService} (h : P self) : P (perform script self) := by
  induction script generalizing self with
  | done => exact h
  | requestAccessToLocation accessType completion next ihCompletion ihNext =>
    by_cases hg : self.Granted accessType
    · -- the completion runs before the code after the request
      rw [perform_request_of_granted hg]
      exact ihNext (ihCompletion true (hgrant self accessType h hg))
    · rw [perform_request_of_not_granted hg]
      exact ihNext (hwait self accessType _ h hg)
  | requestAccessToLocationNil accessType next ihNext =>
    by_cases hg : self.Granted accessType
    · rw [perform_requestNil_of_granted hg]
      exact ihNext (hgrantNil self accessType h hg)
    · rw [perform_requestNil_of_not_granted hg]
      exact ihNext (hwait self accessType none h hg)
  | startLocationTracking next ihNext => exact ihNext (hstart self h)
  | print message next ihNext => exact ihNext (hprint self message h)

/-- The status does not change while code of the app runs. -/
@[simp] theorem authorizationStatus_perform (script : Script) (self : LocationService) :
    (perform script self).authorizationStatus = self.authorizationStatus := by
  refine perform_induction (P := fun s => s.authorizationStatus = self.authorizationStatus)
    ?_ ?_ ?_ ?_ ?_ script rfl
  · exact fun _ _ h _ => h
  · exact fun _ _ h _ => h
  · exact fun _ _ _ h _ => h
  · exact fun _ h => h
  · exact fun _ _ h => h

/-! ## What a report does -/

/-- The answer a report gives the completion in the slot. -/
def answer (self : LocationService) (status : CLAuthorizationStatus) : Bool :=
  some status = self.accessType.requestLocationType

/-- The service where a report has found a completion: it is called. -/
def calledHeld (self : LocationService) (status : CLAuthorizationStatus) (held : HeldCompletion) :
    LocationService :=
  { self with authorizationStatus := status }.called held.ticket held.accessType
    (self.answer status)

@[simp] theorem authorizationStatus_calledHeld (self : LocationService)
    (status : CLAuthorizationStatus) (held : HeldCompletion) :
    (self.calledHeld status held).authorizationStatus = status := rfl

@[simp] theorem calls_calledHeld (self : LocationService) (status : CLAuthorizationStatus)
    (held : HeldCompletion) :
    (self.calledHeld status held).calls =
      ⟨held.ticket, held.accessType, status, self.answer status⟩ :: self.calls := rfl

@[simp] theorem handed_calledHeld (self : LocationService) (status : CLAuthorizationStatus)
    (held : HeldCompletion) : (self.calledHeld status held).handed = self.handed := rfl

/-- A report runs no completion if it is of no decision, or the slot is
empty. -/
theorem didChangeAuthorization_of_quiet {self : LocationService} {status : CLAuthorizationStatus}
    (h : status = .notDetermined ∨ self.requestAccessCompletion = none) :
    self.didChangeAuthorization status = { self with authorizationStatus := status } := by
  rw [didChangeAuthorization]
  split
  · rfl
  next hstatus =>
    have hslot := h.resolve_left hstatus
    simp only [hslot]

/-- Otherwise it runs the one in the slot, and clears the slot. -/
theorem didChangeAuthorization_of_held {self : LocationService} {status : CLAuthorizationStatus}
    (hstatus : status ≠ .notDetermined) {held : HeldCompletion}
    (hslot : self.requestAccessCompletion = some held) :
    self.didChangeAuthorization status =
      { perform (held.completion (self.answer status)) (self.calledHeld status held) with
        requestAccessCompletion := none } := by
  rw [didChangeAuthorization, if_neg hstatus]
  obtain ⟨_, _, slot, _, _, _, _, _⟩ := self
  obtain rfl : slot = some held := hslot
  rfl

/-- A report is one of the two. -/
theorem quiet_or_held (self : LocationService) (status : CLAuthorizationStatus) :
    (status = .notDetermined ∨ self.requestAccessCompletion = none) ∨
      status ≠ .notDetermined ∧ ∃ held, self.requestAccessCompletion = some held := by
  by_cases hstatus : status = .notDetermined
  · exact .inl (.inl hstatus)
  · cases hslot : self.requestAccessCompletion with
    | none => exact .inl (.inr rfl)
    | some held => exact .inr ⟨hstatus, held, rfl⟩

end LocationService

end DevicesTracker
