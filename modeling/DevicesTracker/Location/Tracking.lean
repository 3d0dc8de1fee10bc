import DevicesTracker.Controllers.MobileInfoViewController
/-!
# Tracking

The controller hands the service one completion, and the service runs it
once: at the request if access is granted already, else at the first
report of a decision. So tracking follows the first decision and no later
one.
-/

namespace DevicesTracker

open LocationService

namespace MobileInfoViewController

/-- The first report of a decision. -/
def firstDecision (statuses : List CLAuthorizationStatus) : Option CLAuthorizationStatus :=
  statuses.find? fun status => status ≠ .notDetermined

/-- Whether tracking has been started. -/
def tracks (locationService : LocationService) : Bool :=
  locationService.locationManager.updatesLocation

/-- With an empty slot no report starts anything. -/
theorem tracks_reports_of_empty (statuses : List CLAuthorizationStatus)
    {locationService : LocationService} (h : locationService.requestAccessCompletion = none) :
    tracks (reports statuses locationService) = tracks locationService := by
  induction statuses generalizing locationService with
  | nil => rfl
  | cons status statuses ih =>
    have hquiet : locationService.didChangeAuthorization status =
        { locationService with authorizationStatus := status } :=
      didChangeAuthorization_of_quiet (.inr h)
    rw [reports, List.foldl_cons, hquiet, ← reports]
    exact ih h

/-- A service that waits with the controller's completion for access at all
times, and does not track yet. -/
structure Waits (locationService : LocationService) : Prop where
  held : ∃ held, locationService.requestAccessCompletion = some held ∧
    held.completion = accessCompletion
  accessType : locationService.accessType = .always
  tracks : tracks locationService = false

/-- **While it waits**, the service starts the tracking if the first decision
reported is for access at all times. -/
theorem Waits.tracks_reports_iff {locationService : LocationService} (h : Waits locationService)
    (statuses : List CLAuthorizationStatus) :
    MobileInfoViewController.tracks (reports statuses locationService) = true ↔
      firstDecision statuses = some .authorizedAlways := by
  induction statuses generalizing locationService with
  | nil => rw [reports, List.foldl_nil, h.tracks]; exact iff_of_false Bool.false_ne_true nofun
  | cons status statuses ih =>
    rw [reports, List.foldl_cons, ← reports]
    by_cases hstatus : status = .notDetermined
    · have hquiet : locationService.didChangeAuthorization status =
          { locationService with authorizationStatus := status } :=
        didChangeAuthorization_of_quiet (.inl hstatus)
      have hwaits : Waits { locationService with authorizationStatus := status } :=
        ⟨h.held, h.accessType, h.tracks⟩
      rw [hquiet, ih hwaits, firstDecision, firstDecision,
        List.find?_cons_of_neg (by simpa using hstatus)]
    · -- the decision: the completion runs, and the slot is empty from here on
      obtain ⟨held, hslot, hcompletion⟩ := h.held
      have hanswer : locationService.answer status = decide (status = .authorizedAlways) := by
        rw [answer, h.accessType, LocationAccessType.requestLocationType]
        exact decide_eq_decide.2 Option.some_inj
      rw [didChangeAuthorization_of_held hstatus hslot, tracks_reports_of_empty statuses rfl,
        firstDecision, List.find?_cons_of_pos (by simpa using hstatus), Option.some_inj,
        hcompletion, hanswer]
      by_cases halways : status = .authorizedAlways
      · rw [decide_eq_true halways]
        exact iff_of_true rfl halways
      · -- refused: the completion prints, and tracking is as before
        rw [decide_eq_false halways]
        exact iff_of_false (fun htrue => Bool.false_ne_true (h.tracks.symm.trans htrue)) halways

/-- Without access at the request, the service waits. -/
theorem waits_viewDidLoad {authorizationStatus : CLAuthorizationStatus}
    (h : authorizationStatus ≠ .authorizedAlways) :
    Waits (viewDidLoad (LocationService.init authorizationStatus)) := by
  have hg : ¬ (LocationService.init authorizationStatus).Granted .always := fun hg =>
    h (Option.some.inj hg)
  rw [viewDidLoad, perform_request_of_not_granted hg]
  exact ⟨⟨_, rfl, rfl⟩, rfl, rfl⟩

/-- **Tracking follows the first decision.** After `viewDidLoad` and any
reports, tracking has been started if and only if access at all times was
the status at the request, or is the first decision reported since. -/
theorem tracks_viewDidLoad_iff (authorizationStatus : CLAuthorizationStatus)
    (statuses : List CLAuthorizationStatus) :
    tracks (reports statuses (viewDidLoad (LocationService.init authorizationStatus))) = true ↔
      authorizationStatus = .authorizedAlways ∨
        firstDecision statuses = some .authorizedAlways := by
  by_cases halways : authorizationStatus = .authorizedAlways
  · subst halways
    rw [tracks_reports_of_empty statuses rfl]
    exact iff_of_true rfl (.inl rfl)
  · rw [(waits_viewDidLoad halways).tracks_reports_iff]
    exact (or_iff_right halways).symm

/-- **A later change of mind starts nothing**: refused in the prompt, and
allowed in the settings after that. -/
theorem not_tracks_deniedThenAlways :
    ¬ (tracks (reports [.denied, .authorizedAlways]
        (viewDidLoad (LocationService.init .notDetermined))) = true ↔
      CLAuthorizationStatus.notDetermined = .authorizedAlways ∨
        CLAuthorizationStatus.authorizedAlways ∈
          [CLAuthorizationStatus.denied, .authorizedAlways]) := by
  intro h
  have htracks := h.2 (.inr (by decide))
  cases htracks

end MobileInfoViewController

end DevicesTracker
