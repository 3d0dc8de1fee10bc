import Mathlib.Logic.Function.Basic
import DevicesTracker.Common.Runs
import DevicesTracker.Services.FirebaseService
/-!
# The devices and their database

All devices run the app on one database. A device launches, saves user
data, reports a location, gets the answer to one of its pending reads, or
has its process killed, and these events come in any order. A write is
applied when it is issued, and an answer shows the record as it is when it
comes, so the pending reads of a process are its only link to the past. A
read is known by its handle, the index of the call that started it among
the events of its device.
-/

universe u

namespace DevicesTracker

/-- What can happen on one device. -/
inductive Event where
  /-- The process starts and `loadDataFromDb` is called. -/
  | launch (reading : DeviceReading)
  | saveUserData (proj resp : Option String)
  | updateLocations (clock : Clock) (newLocation : DeviceLocations)
  /-- The read with the handle is answered and its callback runs. -/
  | answer (handle : ℕ) (serverTime : ℕ) (random : List (Fin 64))
  /-- The process is killed. -/
  | kill

/-- The database, the processes that run, and how many events each device
has had. -/
structure World (ι : Type u) where
  database : FNode
  app : ι → Option FirebaseService
  events : ι → ℕ

namespace World

variable {ι : Type u} [DecidableEq ι]

/-- The world after an event of one device. -/
def next (w : World ι) (d : ι) (database : FNode) (app : Option FirebaseService) : World ι :=
  { database := database
    app := Function.update w.app d app
    events := Function.update w.events d (w.events d + 1) }

/-- A process after a call, or none if the call did not end. -/
def afterCall : Except Failure FirebaseService → Option FirebaseService
  | .ok service => some service
  | .error _ => none

/-- **One event of one device.** A launch reads the device's own UUID;
the other events need a process, and an answer a read that is pending. -/
def step (uuid : ι → String) (w : World ι) : ι × Event → Option (World ι)
  | (d, .launch reading) =>
    -- a process that is there goes on; after a kill it starts with nothing
    if MobileDeviceInfo.uniqueId reading = uuid d then
      some (w.next d w.database
        (afterCall (((w.app d).getD {}).loadDataFromDb (w.events d) reading)))
    else none
  | (d, .saveUserData proj resp) =>
    (w.app d).map fun service =>
      w.next d (service.saveUserData proj resp w.database) (some service)
  | (d, .updateLocations clock newLocation) =>
    (w.app d).map fun service =>
      w.next d w.database (afterCall (service.updateLocations (w.events d) clock newLocation))
  | (d, .answer handle serverTime random) =>
    (w.app d).bind fun service =>
      (service.observers.lookup handle).map fun event =>
        match FirebaseService.callback event service.pushId serverTime random w.database with
        | .ok (database, pushId) =>
          w.next d database (some
            { service with
              observers := service.observers.filter fun o => o.1 ≠ handle
              pushId := pushId })
        | .error _ => w.next d w.database none
  | (d, .kill) => (w.app d).map fun _ => w.next d w.database none

/-- The devices from the day the database was empty. -/
def machine (uuid : ι → String) : Machine (World ι) (ι × Event) where
  init := { database := FNode.emptyNode, app := fun _ => none, events := fun _ => 0 }
  step := step uuid

section Next

variable (w : World ι) (d : ι) (database : FNode) (app : Option FirebaseService)

@[simp] theorem database_next : (w.next d database app).database = database := rfl

@[simp] theorem app_next_self : (w.next d database app).app d = app := Function.update_self ..

@[simp] theorem events_next_self : (w.next d database app).events d = w.events d + 1 :=
  Function.update_self ..

variable {d} {d' : ι}

theorem app_next_of_ne (h : d' ≠ d) : (w.next d database app).app d' = w.app d' :=
  Function.update_of_ne h ..

theorem events_next_of_ne (h : d' ≠ d) : (w.next d database app).events d' = w.events d' :=
  Function.update_of_ne h ..

end Next

/-- The record of a device: where `loadDataFromDb` finds it. -/
def recordRef (uuid : ι → String) (d : ι) : FPath :=
  FirebaseService.devicesRef ++ pathWithString (uuid d)

/-- The record of a device in a world. -/
def record (uuid : ι → String) (w : World ι) (d : ι) : FNode :=
  w.database.getChild (recordRef uuid d)

theorem record_init (uuid : ι → String) (d : ι) :
    (machine uuid).init.record uuid d = FNode.emptyNode := FNode.getChild_emptyNode _

end World

end DevicesTracker
