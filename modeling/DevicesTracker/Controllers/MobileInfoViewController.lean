import DevicesTracker.Services.LocationService
import DevicesTracker.Services.FirebaseService
/-!
# `MobileInfoViewController`

The app's one screen. When it has loaded it asks for access to the
location at all times, and starts the tracking if it is granted; a
location that is then tracked is recorded with the text of its moment.
-/

namespace DevicesTracker

namespace MobileInfoViewController

/-- The completion of the request for access. -/
def accessCompletion : Bool → Script
  | true => .startLocationTracking .done
  | false => .print "error" .done

/-- `viewDidLoad`, as far as the location goes. -/
def viewDidLoad (locationService : LocationService) : LocationService :=
  LocationService.perform (.requestAccessToLocation .always accessCompletion .done) locationService

/-- Reports that come after one another. -/
def reports (statuses : List CLAuthorizationStatus) (locationService : LocationService) :
    LocationService :=
  statuses.foldl (fun locationService status => locationService.didChangeAuthorization status)
    locationService

/-- `updateDeviceLocationWith(coordinates:)`, at a moment: the location is
recorded with its text, and filed under the day of the clock. -/
def updateDeviceLocationWith (coordinates : Coordinates) (formatter : DateFormatter) (now : ℤ)
    (handle : ℕ) (service : FirebaseService) : Except Failure FirebaseService :=
  let newLocation := DeviceLocations.ofLocation coordinates formatter now
  service.updateLocations handle ⟨now, formatter.calendar⟩ newLocation

/-- `didGetUserLocationUpdate(_:)`, but for what it prints. -/
def didGetUserLocationUpdate (userLocation : Coordinates) (formatter : DateFormatter) (now : ℤ)
    (handle : ℕ) (service : FirebaseService) : Except Failure FirebaseService :=
  updateDeviceLocationWith userLocation formatter now handle service

/-- `locationManager(_:didUpdateLocations:)` of the location service, whose
delegate the screen is: of the places delivered the last is passed on. -/
def didUpdateLocations (locations : List Coordinates) (formatter : DateFormatter) (now : ℤ)
    (handle : ℕ) (service : FirebaseService) : Except Failure FirebaseService :=
  match locations.getLast? with
  | some mostRecentLocation =>
    didGetUserLocationUpdate mostRecentLocation formatter now handle service
  | none => .ok service

end MobileInfoViewController

end DevicesTracker
