import DevicesTracker.Services.FirebaseService
/-!
# A launch and a location update

What can stop a launched app before its first location read is started.
The byte loop, the 17 strings of the device's dictionary, the unwraps of
the date and the day key never do; the one branch that does is a device
without a vendor identifier, whose UUID is then the empty string, which
`child` refuses.
-/

namespace DevicesTracker

namespace FirebaseService

/-- `loadDataFromDb` on launch, and `updateLocations` at a later moment. -/
def launchAndUpdate (reading : DeviceReading) (clock : Clock) (newLocation : DeviceLocations) :
    Except Failure FirebaseService := do
  let service ← loadDataFromDb {} 0 reading
  service.updateLocations 1 clock newLocation

/-- **Both calls end and neither is dropped**: the process has a reference
and its location read is under way. -/
def Completes (result : Except Failure FirebaseService) (newLocation : DeviceLocations) : Prop :=
  ∃ service ref currentDateRef, result = .ok service ∧ service.ref = some ref ∧
    (1, .location currentDateRef newLocation) ∈ service.observers

/-- How a vendor identifier prints: hex digits and hyphens. -/
def vendorCharacters : List Char := "0123456789ABCDEFabcdef-".toList

def IsVendorIdentifier (uuid : String) : Prop :=
  uuid ≠ "" ∧ uuid.toList.all (· ∈ vendorCharacters)

theorem isValidPathString_of_isVendorIdentifier {uuid : String} (h : IsVendorIdentifier uuid) :
    FValidation.isValidPathString uuid = true := by
  have hall : vendorCharacters.all fun c => c ∉ FValidation.invalidPathCharacters := by decide
  refine FValidation.isValidPathString_iff.2 ⟨h.1, fun c hc => ?_⟩
  have hvendor : c ∈ vendorCharacters := of_decide_eq_true (List.all_eq_true.1 h.2 c hc)
  exact of_decide_eq_true (List.all_eq_true.1 hall c hvendor)

/-- The dictionary a device of 7-bit bytes makes is one a `Device` can be
made of. -/
theorem exists_getMobileDeviceInfo_eq_ok {reading : DeviceReading}
    (hmachine : ∀ value ∈ reading.machine, 0 ≤ value) :
    ∃ info device, MobileDeviceInfo.getMobileDeviceInfo reading = .ok info ∧
      Device.ofInfo info = some device ∧ device.uuid = MobileDeviceInfo.uniqueId reading := by
  obtain ⟨machineString, hstring⟩ := MobileDeviceInfo.exists_machineString_eq_ok hmachine
  have hinfo := MobileDeviceInfo.getMobileDeviceInfo_eq_ok hstring
  obtain ⟨device, hdevice, huuid⟩ := Device.exists_device_of_dictInfo reading
    (MobileDeviceInfo.nameOfMachine machineString)
    (MobileDeviceInfo.ratioOfName (MobileDeviceInfo.nameOfMachine machineString))
  exact ⟨_, device, hinfo, hdevice, huuid⟩

/-- With an identifier, the launch sets the reference. -/
theorem loadDataFromDb_of_identifier {reading : DeviceReading}
    (hmachine : ∀ value ∈ reading.machine, 0 ≤ value)
    (hvalid : FValidation.isValidPathString (MobileDeviceInfo.uniqueId reading) = true)
    (self : FirebaseService) (handle : ℕ) :
    ∃ service, self.loadDataFromDb handle reading = .ok service ∧
      service.ref = some (devicesRef ++ pathWithString (MobileDeviceInfo.uniqueId reading)) := by
  obtain ⟨info, device, hinfo, hdevice, huuid⟩ := exists_getMobileDeviceInfo_eq_ok hmachine
  have hchild := DatabaseReference.child_eq_ok_of_valid hvalid devicesRef
  let ref := devicesRef ++ pathWithString (MobileDeviceInfo.uniqueId reading)
  refine ⟨{ self with ref := some ref }.observeSingleEvent handle (.registration ref device), ?_,
    rfl⟩
  simp only [loadDataFromDb, hinfo, hdevice, huuid, hchild, bind, Except.bind]
  rfl

/-- Without one, it raises the exception of an invalid path. -/
theorem loadDataFromDb_of_no_identifier {reading : DeviceReading}
    (hmachine : ∀ value ∈ reading.machine, 0 ≤ value)
    (hnil : reading.identifierForVendor = none) (self : FirebaseService) (handle : ℕ) :
    self.loadDataFromDb handle reading =
      .error (.invalidPath (FValidation.invalidPathReason "child:")) := by
  obtain ⟨info, device, hinfo, hdevice, huuid⟩ := exists_getMobileDeviceInfo_eq_ok hmachine
  have hempty : MobileDeviceInfo.uniqueId reading = "" := by rw [MobileDeviceInfo.uniqueId, hnil]
  have hchild := DatabaseReference.child_eq_error_of_invalid
    (show FValidation.isValidPathString "" = false from by decide) devicesRef
  simp only [loadDataFromDb, hinfo, hdevice, huuid, hempty, hchild, bind, Except.bind]

/-- **A launch and a location update complete exactly on a device with a
vendor identifier.** -/
theorem completes_launchAndUpdate_iff {reading : DeviceReading}
    (hmachine : ∀ value ∈ reading.machine, 0 ≤ value)
    (hvendor : ∀ uuid, reading.identifierForVendor = some uuid → IsVendorIdentifier uuid)
    (clock : Clock) (newLocation : DeviceLocations) :
    Completes (launchAndUpdate reading clock newLocation) newLocation ↔
      reading.identifierForVendor ≠ none := by
  constructor
  · rintro ⟨service, ref, currentDateRef, hok, -, -⟩ hnil
    rw [launchAndUpdate, loadDataFromDb_of_no_identifier hmachine hnil] at hok
    cases hok
  · intro hsome
    obtain ⟨uuid, huuid⟩ := Option.ne_none_iff_exists'.1 hsome
    have hid : MobileDeviceInfo.uniqueId reading = uuid := by rw [MobileDeviceInfo.uniqueId, huuid]
    have hvalid : FValidation.isValidPathString (MobileDeviceInfo.uniqueId reading) = true :=
      hid ▸ isValidPathString_of_isVendorIdentifier (hvendor uuid huuid)
    obtain ⟨service, hload, href⟩ := loadDataFromDb_of_identifier hmachine hvalid {} 0
    have hupdate := updateLocations_eq_ok href 1 clock newLocation
    have hboth : launchAndUpdate reading clock newLocation =
        service.updateLocations 1 clock newLocation := by
      rw [launchAndUpdate, hload]
      rfl
    exact ⟨_, _, _, hboth.trans hupdate, href,
      List.mem_append_right service.observers List.mem_cons_self⟩

/-! A simulator with an identifier, and one without. -/

def simulatorReading (identifierForVendor : Option String) : DeviceReading :=
  { machine := [120, 56, 54, 95, 54, 52, 0], model := "iPhone", name := "iPhone Simulator"
    systemName := "iOS", nativeHeight := 2436, nativeWidth := 1125
    identifierForVendor := identifierForVendor }

theorem completes_launchAndUpdate_simulator :
    Completes (launchAndUpdate (simulatorReading (some "E621E1F8-C36C-495A-93FC-0C247A3E6E5F"))
      ⟨1540000000, .gregorian⟩ ⟨⟨50, 30⟩, "20/October/2018 01:46"⟩)
      ⟨⟨50, 30⟩, "20/October/2018 01:46"⟩ := by
  refine (completes_launchAndUpdate_iff (fun value hvalue => ?_) (fun uuid huuid => ?_) _ _).2
    (by decide)
  · have hall : (simulatorReading none).machine.all (0 ≤ ·) := by decide
    exact of_decide_eq_true (List.all_eq_true.1 hall value hvalue)
  · obtain rfl := Option.some.inj huuid
    exact ⟨by decide, by decide⟩

/-- **Without an identifier the launch raises an exception.** -/
theorem not_completes_launchAndUpdate_simulator_nil :
    let fix : DeviceLocations := ⟨⟨50, 30⟩, "20/October/2018 01:46"⟩
    let result := launchAndUpdate (simulatorReading none) ⟨1540000000, .gregorian⟩ fix
    result = .error (.invalidPath
      "(child:) Must be a non-empty string and not contain '.' '#' '$' '[' or ']'") ∧
    ¬ Completes result fix := by
  refine ⟨rfl, ?_⟩
  rintro ⟨service, ref, currentDateRef, hok, -, -⟩
  cases hok

end FirebaseService

end DevicesTracker
