import DevicesTracker.Models.Device
import DevicesTracker.Models.CapturedDate
import DevicesTracker.Models.DeviceLocations
/-!
# `FirebaseService`

One running process of the app, seen from the database: the service's
reference to its own record and the reads it has started. A read is a
single-event observer; its callback runs when the answer comes, on the
database as it then is. `loadDataFromDb` sets the reference and starts the
registration read; `updateLocations` starts a read of the day's bucket
and writes the location in its callback; `saveUserData` writes at once.
-/

namespace DevicesTracker

/-- The callback of a read that has been started, with what it captured. -/
inductive SingleEvent where
  /-- Started by `loadDataFromDb` at the device's record. -/
  | registration (ref : FPath) (device : Device)
  /-- Started by `updateLocations` at a day's bucket. -/
  | location (currentDateRef : FPath) (newLocation : DeviceLocations)

/-- **A process of the app**: `FirebaseService.shared.ref`, the observers
whose answer has not come, each under the handle it was registered with,
and the static variables of the push ids. -/
structure FirebaseService where
  ref : Option FPath := none
  observers : List (ℕ × SingleEvent) := []
  pushId : FNextPushId.State := {}

namespace FirebaseService

/-- `Database.database().reference(withPath: "Devices")`. -/
def devicesRef : FPath := ["Devices"]

/-- `observeSingleEvent(of: .value)`. -/
def observeSingleEvent (self : FirebaseService) (handle : ℕ) (event : SingleEvent) :
    FirebaseService :=
  { self with observers := self.observers ++ [(handle, event)] }

def loadDataFromDb (self : FirebaseService) (handle : ℕ) (reading : DeviceReading) :
    Except Failure FirebaseService := do
  let info ← MobileDeviceInfo.getMobileDeviceInfo reading
  match Device.ofInfo info with
  -- the `guard` of the source: the launch goes on with no reference
  | none => return self
  | some device =>
    let ref ← DatabaseReference.child devicesRef device.uuid
    return { self with ref := some ref }.observeSingleEvent handle (.registration ref device)

def updateLocations (self : FirebaseService) (handle : ℕ) (clock : Clock)
    (newLocation : DeviceLocations) : Except Failure FirebaseService := do
  let currentDate := CapturedDate.ofClock clock
  let dateString ← currentDate.dateString
  match self.ref with
  | none => return self
  | some ref =>
    let currentDateRef ← DatabaseReference.child ref dateString
    return self.observeSingleEvent handle (.location currentDateRef newLocation)

/-- A string argument, nil as a null. -/
def optionalString : Option String → Value
  | some s => .string s
  | none => .null

def saveUserData (self : FirebaseService) (proj resp : Option String) (database : FNode) : FNode :=
  match self.ref with
  | none => database
  | some ref =>
    DatabaseReference.updateChildValues ref
      [("ManualInfo", .dictionary [("project", optionalString proj),
        ("responsiblePerson", optionalString resp)])] database

/-- The callback of a read, run on the database its answer shows. The time
and the random characters are for the auto id. -/
def callback (event : SingleEvent) (pushId : FNextPushId.State) (serverTime : ℕ)
    (random : List (Fin 64)) (database : FNode) : Except Failure (FNode × FNextPushId.State) :=
  match event with
  | .registration ref device =>
    if DatabaseReference.snapshotExists ref database then .ok (database, pushId)
    else .ok (DatabaseReference.updateChildValues ref [("SystemInfo", device.toAnyObject)] database,
      pushId)
  | .location currentDateRef newLocation => do
    let (ref, pushId) ← DatabaseReference.childByAutoId currentDateRef pushId serverTime random
    return (DatabaseReference.setValue ref newLocation.toAnyObject database, pushId)

/-! ## What each call does -/

/-- The device a launch registers. -/
def launchedDevice (reading : DeviceReading) : Option Device :=
  match MobileDeviceInfo.getMobileDeviceInfo reading with
  | .ok info => Device.ofInfo info
  | .error _ => none

/-- Whether a launch gets past the reading and the path of the record. -/
def launches (reading : DeviceReading) : Bool :=
  (launchedDevice reading).isSome &&
    FValidation.isValidPathString (MobileDeviceInfo.uniqueId reading)

/-- **A launch**: it fails, or it sets the reference to the record of the
device's UUID and starts the registration read there. -/
theorem loadDataFromDb_cases (self : FirebaseService) (handle : ℕ) (reading : DeviceReading) :
    (launches reading = false ∧ ∃ failure, self.loadDataFromDb handle reading = .error failure) ∨
    ∃ device, launchedDevice reading = some device ∧
      FValidation.isValidPathString (MobileDeviceInfo.uniqueId reading) = true ∧
      device.uuid = MobileDeviceInfo.uniqueId reading ∧
      self.loadDataFromDb handle reading = .ok
        ({ self with ref := some (devicesRef ++ pathWithString device.uuid) }.observeSingleEvent
          handle (.registration (devicesRef ++ pathWithString device.uuid) device)) := by
  cases hinfo : MobileDeviceInfo.getMobileDeviceInfo reading with
  | error failure =>
    left
    have hnone : launchedDevice reading = none := by rw [launchedDevice, hinfo]
    refine ⟨by rw [launches, hnone]; rfl, failure, ?_⟩
    rw [loadDataFromDb, hinfo]
    rfl
  | ok info =>
    obtain ⟨modelName, screenRatio, rfl⟩ := MobileDeviceInfo.exists_dictInfo_of_eq_ok hinfo
    obtain ⟨device, hdevice, huuid⟩ :=
      Device.exists_device_of_dictInfo reading modelName screenRatio
    cases hvalid : FValidation.isValidPathString (MobileDeviceInfo.uniqueId reading) with
    | false =>
      left
      have hchild := DatabaseReference.child_eq_error_of_invalid hvalid devicesRef
      refine ⟨by rw [launches, hvalid, Bool.and_false],
        .invalidPath (FValidation.invalidPathReason "child:"), ?_⟩
      simp only [loadDataFromDb, hinfo, hdevice, huuid, hchild, bind, Except.bind]
    | true =>
      right
      have hchild := DatabaseReference.child_eq_ok_of_valid hvalid devicesRef
      refine ⟨device, ?_, rfl, huuid, ?_⟩
      · rw [launchedDevice, hinfo]
        exact hdevice
      · simp only [loadDataFromDb, hinfo, hdevice, huuid, hchild, bind, Except.bind]
        rfl

/-- **A location update** starts a read of the day's bucket, once there is
a reference. -/
theorem updateLocations_eq_ok {self : FirebaseService} {ref : FPath} (href : self.ref = some ref)
    (handle : ℕ) (clock : Clock) (newLocation : DeviceLocations) :
    self.updateLocations handle clock newLocation =
      .ok (self.observeSingleEvent handle (.location (ref ++ [clock.dayKey]) newLocation)) := by
  have hchild := DatabaseReference.child_eq_ok_of_valid clock.isValidPathString_dayKey ref
  rw [clock.pathWithString_dayKey] at hchild
  simp only [updateLocations, CapturedDate.dateString_ofClock, href, hchild, bind, Except.bind]
  rfl

/-- The node `saveUserData` writes. -/
def manualInfoNode (proj resp : Option String) : FNode :=
  FNode.nodeFrom (.dictionary [("project", optionalString proj),
    ("responsiblePerson", optionalString resp)])

theorem saveUserData_eq {self : FirebaseService} {ref : FPath} (href : self.ref = some ref)
    (proj resp : Option String) (database : FNode) :
    self.saveUserData proj resp database =
      database.updateChild (ref ++ ["ManualInfo"]) (manualInfoNode proj resp) := by
  have hkey : pathWithString "ManualInfo" = ["ManualInfo"] :=
    pathWithString_of_notMem (by decide) (by decide)
  simp only [saveUserData, href, DatabaseReference.updateChildValues_singleton ref hkey,
    manualInfoNode]

/-- The registration callback: nothing where the record exists, else the
device under `SystemInfo`. -/
theorem callback_registration (ref : FPath) (device : Device) (pushId : FNextPushId.State)
    (serverTime : ℕ) (random : List (Fin 64)) (database : FNode) :
    callback (.registration ref device) pushId serverTime random database =
      .ok (if (database.getChild ref).isEmpty = true then
          database.updateChild (ref ++ ["SystemInfo"]) (FNode.nodeFrom device.toAnyObject)
        else database, pushId) := by
  have hkey : pathWithString "SystemInfo" = ["SystemInfo"] :=
    pathWithString_of_notMem (by decide) (by decide)
  simp only [callback, DatabaseReference.snapshotExists,
    DatabaseReference.updateChildValues_singleton ref hkey]
  cases (database.getChild ref).isEmpty <;> rfl

/-- The location callback: the location under the next auto id. -/
theorem callback_location (currentDateRef : FPath) (newLocation : DeviceLocations)
    (pushId : FNextPushId.State) (serverTime : ℕ) (random : List (Fin 64)) (database : FNode) :
    callback (.location currentDateRef newLocation) pushId serverTime random database =
      .ok (database.updateChild
          (currentDateRef ++ [(FNextPushId.get pushId serverTime random).1])
          (FNode.nodeFrom newLocation.toAnyObject),
        (FNextPushId.get pushId serverTime random).2) := by
  simp only [callback, DatabaseReference.childByAutoId_eq_ok, DatabaseReference.setValue, bind,
    Except.bind]
  rfl

end FirebaseService

end DevicesTracker
