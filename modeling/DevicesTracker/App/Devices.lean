import DevicesTracker.Controllers.MobileInfoViewController
import DevicesTracker.Store.World
/-!
# The app on all devices

The two services of a process under one roof: the database side of the
world and the location service of each process. A launch loads the record
and shows the screen, a report of the authorization goes to the location
service, and a delivery of places, which comes only while the location is
being updated, goes through it to the screen and to the database. A run of
the app is a run of the world under the calls its events make
(`run_world`), so whatever is proved of the world holds here.
-/

universe u

namespace DevicesTracker

open MobileInfoViewController (didUpdateLocations viewDidLoad)

/-- What happens on a device. -/
inductive DeviceEvent where
  /-- The app is launched, under an authorization status. -/
  | didFinishLaunching (reading : DeviceReading) (authorizationStatus : CLAuthorizationStatus)
  | didChangeAuthorization (status : CLAuthorizationStatus)
  /-- Places are delivered, read by the device's formatter and clock. -/
  | didUpdateLocations (locations : List Coordinates) (formatter : DateFormatter) (now : ℤ)
  | savePressed (proj resp : Option String)
  | answer (handle serverTime : ℕ) (random : List (Fin 64))
  | kill

/-- The call an event comes to on the database side, if it comes to one. -/
def DeviceEvent.call : DeviceEvent → Option Event
  | .didFinishLaunching reading _ => some (.launch reading)
  | .didChangeAuthorization _ => none
  | .didUpdateLocations locations formatter now =>
    locations.getLast?.map fun mostRecentLocation =>
      .updateLocations ⟨now, formatter.calendar⟩
        (DeviceLocations.ofLocation mostRecentLocation formatter now)
  | .savePressed proj resp => some (.saveUserData proj resp)
  | .answer handle serverTime random => some (.answer handle serverTime random)
  | .kill => some .kill

/-- The world, and the location services of the processes. -/
structure Devices (ι : Type u) where
  world : World ι
  locationService : ι → Option LocationService

namespace Devices

variable {ι : Type u} [DecidableEq ι]

/-- When an event can come: a launch where no process is, the rest to a
process, and a delivery to one that updates the location. -/
def possible (locationService : Option LocationService) : DeviceEvent → Bool
  | .didFinishLaunching _ _ => locationService.isNone
  | .didUpdateLocations _ _ _ =>
    locationService.any fun service => service.locationManager.updatesLocation
  | _ => locationService.isSome

/-- What an event makes of the location service. -/
def serviceAfter (locationService : Option LocationService) : DeviceEvent → Option LocationService
  | .didFinishLaunching _ authorizationStatus =>
    some (viewDidLoad (LocationService.init authorizationStatus))
  | .didChangeAuthorization status =>
    locationService.map fun service => service.didChangeAuthorization status
  | .didUpdateLocations _ _ _ => locationService
  | .savePressed _ _ => locationService
  | .answer _ _ _ => locationService
  | .kill => none

/-- The world after an event. Places delivered go through the screen; the
other events make their call, if they make one. -/
def worldAfter (uuid : ι → String) (world : World ι) (d : ι) : DeviceEvent → Option (World ι)
  | .didUpdateLocations locations formatter now =>
    if locations.isEmpty then some world
    else (world.app d).map fun service => world.next d world.database
      (World.afterCall (didUpdateLocations locations formatter now (world.events d) service))
  | e =>
    match e.call with
    | some call => World.step uuid world (d, call)
    | none => some world

/-- **One event of one device.** A process that a call has ended takes its
location service with it. -/
def step (uuid : ι → String) (s : Devices ι) : ι × DeviceEvent → Option (Devices ι)
  | (d, e) =>
    if possible (s.locationService d) e then
      (worldAfter uuid s.world d e).map fun world =>
        { world := world
          locationService := Function.update s.locationService d
            ((world.app d).bind fun _ => serviceAfter (s.locationService d) e) }
    else none

/-- The devices before the first launch. -/
def machine (uuid : ι → String) : Machine (Devices ι) (ι × DeviceEvent) where
  init := { world := (World.machine uuid).init, locationService := fun _ => none }
  step := step uuid

variable {uuid : ι → String}

end Devices

end DevicesTracker
