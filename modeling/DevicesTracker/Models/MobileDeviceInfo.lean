import DevicesTracker.Firebase.Reference
/-!
# `MobileDeviceInfo`

What the app reads off the device it runs on, and the dictionary it makes
of it. The model name is found from the machine name, a buffer of signed
bytes that the source turns into a string byte by byte; `UInt8(_:)` traps
on a negative one. `exists_machineString_eq_ok` says that a buffer of
7-bit bytes has none, and `getMobileDeviceInfo_eq_ok` that the dictionary
is then made, whatever else the device answers.
-/

namespace DevicesTracker

/-- The device types the app knows by name. -/
inductive DeviceTypeModel where
  | unknown | iPod5 | iPod6 | iPhone4 | iPhone4S | iPhone5 | iPhone5C | iPhone5S
  | iPhoneSE | iPhone6 | iPhone6Plus | iPhone6S | iPhone6SPlus | iPhone7 | iPhone7Plus
  | iPhone8 | iPhone8Plus | iPhoneX | iPhoneXS | iPhoneXSMax | iPhoneXR | iPad2 | iPad3
  | iPad4 | iPad5 | iPadAir | iPadAir2 | iPadMini | iPadMini2 | iPadMini3 | iPadMini4
  | iPadPro | iPadPro9Inch | iPadPro10Inch | iPadPro12Inch | iPadPro12Inch2 | appleTV
  | appleTV4k | homePad | simulator
  deriving DecidableEq

namespace DeviceTypeModel

def rawValue : DeviceTypeModel → String
  | unknown => "unknown"
  | iPod5 => "iPod Touch 5"
  | iPod6 => "iPod Touch 6"
  | iPhone4 => "iPhone 4"
  | iPhone4S => "iPhone 4S"
  | iPhone5 => "iPhone 5"
  | iPhone5C => "iPhone 5C"
  | iPhone5S => "iPhone 5S"
  | iPhoneSE => "iPhone SE"
  | iPhone6 => "iPhone 6"
  | iPhone6Plus => "iPhone 6 Plus"
  | iPhone6S => "iPhone 6S"
  | iPhone6SPlus => "iPhone 6S Plus"
  | iPhone7 => "iPhone 7"
  | iPhone7Plus => "iPhone 7 Plus"
  | iPhone8 => "iPhone 8"
  | iPhone8Plus => "iPhone 8 Plus"
  | iPhoneX => "iPhone X"
  | iPhoneXS => "iPhone XS"
  | iPhoneXSMax => "iPhone XS Max"
  | iPhoneXR => "iPhone XR"
  | iPad2 => "iPad 2"
  | iPad3 => "iPad 3"
  | iPad4 => "iPad 4"
  | iPad5 => "iPad 5"
  | iPadAir => "iPad Air"
  | iPadAir2 => "iPad Air 2"
  | iPadMini => "iPad Mini"
  | iPadMini2 => "iPad Mini 2"
  | iPadMini3 => "iPad Mini 3"
  | iPadMini4 => "iPad Mini 4"
  | iPadPro => "iPad Pro"
  | iPadPro9Inch => "iPad Pro 9.7 Inch"
  | iPadPro10Inch => "iPad Pro 10.5 Inch"
  | iPadPro12Inch => "iPad Pro 12.9 Inch"
  | iPadPro12Inch2 => "iPad Pro 12.9 Inch 2. Generation"
  | appleTV => "Apple TV"
  | appleTV4k => "Apple TV 4K"
  | homePad => "HomePod"
  | simulator => "Simulator"

def allCases : List DeviceTypeModel :=
  [.unknown, .iPod5, .iPod6, .iPhone4, .iPhone4S, .iPhone5, .iPhone5C, .iPhone5S, .iPhoneSE,
   .iPhone6, .iPhone6Plus, .iPhone6S, .iPhone6SPlus, .iPhone7, .iPhone7Plus, .iPhone8,
   .iPhone8Plus, .iPhoneX, .iPhoneXS, .iPhoneXSMax, .iPhoneXR, .iPad2, .iPad3, .iPad4, .iPad5,
   .iPadAir, .iPadAir2, .iPadMini, .iPadMini2, .iPadMini3, .iPadMini4, .iPadPro, .iPadPro9Inch,
   .iPadPro10Inch, .iPadPro12Inch, .iPadPro12Inch2, .appleTV, .appleTV4k, .homePad, .simulator]

/-- `DeviceTypeModel(rawValue:)`. -/
def ofRawValue (rawValue : String) : Option DeviceTypeModel :=
  allCases.find? fun model => model.rawValue = rawValue

end DeviceTypeModel

/-- What the device answers when it is asked: the machine name of `uname`,
the strings of `UIDevice.current`, the screen's native bounds in pixels
and the vendor identifier's string, if there is one. -/
structure DeviceReading where
  machine : List Int8
  model : String
  name : String
  systemName : String
  nativeHeight : ℕ
  nativeWidth : ℕ
  identifierForVendor : Option String

namespace MobileDeviceInfo

/-- One byte of the machine name. A zero byte is passed over. -/
def appendByte (identifier : String) (value : Int8) : Except Failure String :=
  if value = 0 then .ok identifier
  else if value < 0 then .error .notRepresentable
  else .ok (identifier ++ String.singleton (Char.ofNat value.toInt.toNat))

/-- The machine name as a string. -/
def machineString (machine : List Int8) : Except Failure String := machine.foldlM appendByte ""

/-- The name of a machine, or the machine name itself. -/
def nameOfMachine (machineString : String) : String :=
  match machineString with
  | "iPod5,1" => "iPod Touch 5"
  | "iPod7,1" => "iPod Touch 6"
  | "iPhone3,1" | "iPhone3,2" | "iPhone3,3" => "iPhone 4"
  | "iPhone4,1" => "iPhone 4s"
  | "iPhone5,1" | "iPhone5,2" => "iPhone 5"
  | "iPhone5,3" | "iPhone5,4" => "iPhone 5c"
  | "iPhone6,1" | "iPhone6,2" => "iPhone 5s"
  | "iPhone7,2" => "iPhone 6"
  | "iPhone7,1" => "iPhone 6 Plus"
  | "iPhone8,1" => "iPhone 6s"
  | "iPhone8,2" => "iPhone 6s Plus"
  | "iPhone8,4" => "iPhone 5se"
  | "iPhone9,1" => "iPhone 7"
  | "iPhone9,2" | "iPhone9,4" => "iPhone 7 Plus"
  | "iPhone10,1" | "iPhone10,4" => "iPhone 8"
  | "iPhone10,2" | "iPhone10,5" => "iPhone 8 Plus"
  | "iPhone10,3" | "iPhone10,6" => "iPhone X"
  | "iPad2,1" | "iPad2,2" | "iPad2,3" | "iPad2,4" => "iPad 2"
  | "iPad3,1" | "iPad3,2" | "iPad3,3" => "iPad 3"
  | "iPad3,4" | "iPad3,5" | "iPad3,6" => "iPad 4"
  | "iPad4,1" | "iPad4,2" | "iPad4,3" => "iPad Air"
  | "iPad5,3" | "iPad5,4" => "iPad Air 2"
  | "iPad6,11" | "iPad6,12" => "iPad 5"
  | "iPad2,5" | "iPad2,6" | "iPad2,7" => "iPad Mini"
  | "iPad4,4" | "iPad4,5" | "iPad4,6" => "iPad Mini 2"
  | "iPad4,7" | "iPad4,8" | "iPad4,9" => "iPad Mini 3"
  | "iPad5,1" | "iPad5,2" => "iPad Mini 4"
  | "iPad6,3" | "iPad6,4" => "iPad Pro 9.7 Inch"
  | "iPad6,7" | "iPad6,8" => "iPad Pro 12.9 Inch"
  | "iPad7,1" | "iPad7,2" => "iPad Pro 12.9 Inch 2. Generation"
  | "iPad7,3" | "iPad7,4" => "iPad Pro 10.5 Inch"
  | "AppleTV5,3" => "Apple TV"
  | "AppleTV6,2" => "Apple TV 4K"
  | "AudioAccessory1,1" => "HomePod"
  | "i386" | "x86_64" => "Simulator"
  | _ => machineString

def modelName (reading : DeviceReading) : Except Failure String :=
  (machineString reading.machine).map nameOfMachine

def oldIphones : List DeviceTypeModel := [.iPhone4, .iPhone4S]

def newerIphones : List DeviceTypeModel :=
  [.iPhone5, .iPhone5C, .iPhone5S, .iPhoneSE, .iPhone6, .iPhone6Plus, .iPhone6S, .iPhone6SPlus,
   .iPhone7, .iPhone7Plus, .iPhone8, .iPhone8Plus, .iPhoneX, .iPhoneXS, .iPhoneXSMax, .iPhoneXR]

def ipads : List DeviceTypeModel :=
  [.iPad2, .iPad3, .iPad4, .iPad5, .iPadAir, .iPadAir2, .iPadMini, .iPadMini2, .iPadMini3,
   .iPadMini4, .iPadPro, .iPadPro9Inch, .iPadPro10Inch, .iPadPro12Inch, .iPadPro12Inch2]

/-- The ratio of the screens of a named model. -/
def ratioOfName (modelName : String) : String :=
  match DeviceTypeModel.ofRawValue modelName with
  | some model =>
    if model ∈ oldIphones then "3:2"
    else if model ∈ ipads then "4:3"
    else if model ∈ newerIphones then "16:9"
    else "unknown"
  | none => "unknown"

def screenRatio (reading : DeviceReading) : Except Failure String :=
  (modelName reading).map ratioOfName

def screenResolution (reading : DeviceReading) : String :=
  s!"{reading.nativeHeight} x {reading.nativeWidth}"

def uniqueId (reading : DeviceReading) : String :=
  match reading.identifierForVendor with
  | some uuid => uuid
  | none => ""

/-- The dictionary a `Device` is made of. -/
def dictInfo (reading : DeviceReading) (modelName screenRatio : String) : List (String × Value) :=
  [("manufactoring", .string reading.model),
    ("model", .string modelName),
    ("OS", .string reading.systemName),
    ("name", .string reading.name),
    ("Screen resolution", .string (screenResolution reading)),
    ("Screen ratio", .string screenRatio),
    ("UUID", .string (uniqueId reading)),
    ("Serial number", .string ""),
    ("MAC address", .string ""),
    ("IMEI", .string ""),
    ("Device type", .string ""),
    ("Workplace", .string ""),
    ("Inventory number", .string ""),
    ("Project", .string ""),
    ("Sticker", .string ""),
    ("Department or Project device", .string ""),
    ("Responsible person", .string "")]

def getMobileDeviceInfo (reading : DeviceReading) : Except Failure (List (String × Value)) := do
  let modelName ← modelName reading
  let screenRatio ← screenRatio reading
  return dictInfo reading modelName screenRatio

/-! ## The byte loop -/

/-- A byte that is not negative is appended or passed over. -/
theorem exists_appendByte_eq_ok (identifier : String) {value : Int8} (h : 0 ≤ value) :
    ∃ s, appendByte identifier value = .ok s := by
  have hneg : ¬ value < 0 := Int8.not_lt.2 h
  by_cases hzero : value = 0
  · exact ⟨identifier, if_pos hzero⟩
  · refine ⟨identifier ++ String.singleton (Char.ofNat value.toInt.toNat), ?_⟩
    rw [appendByte, if_neg hzero, if_neg hneg]

/-- **The loop over 7-bit bytes ends.** -/
theorem exists_machineString_eq_ok {machine : List Int8} (h : ∀ value ∈ machine, 0 ≤ value) :
    ∃ s, machineString machine = .ok s := by
  -- the loop may be anywhere in the string it builds
  suffices loop : ∀ identifier, ∃ s, machine.foldlM appendByte identifier = .ok s from loop ""
  induction machine with
  | nil => exact fun identifier => ⟨identifier, rfl⟩
  | cons value machine ih =>
    intro identifier
    obtain ⟨identifier', hbyte⟩ := exists_appendByte_eq_ok identifier (h value List.mem_cons_self)
    obtain ⟨s, hs⟩ := ih (fun v hv => h v (List.mem_cons_of_mem _ hv)) identifier'
    refine ⟨s, ?_⟩
    rw [List.foldlM_cons, hbyte]
    exact hs

/-- The dictionary is made once the machine name is read. -/
theorem getMobileDeviceInfo_eq_ok {reading : DeviceReading} {s : String}
    (h : machineString reading.machine = .ok s) :
    getMobileDeviceInfo reading =
      .ok (dictInfo reading (nameOfMachine s) (ratioOfName (nameOfMachine s))) := by
  simp only [getMobileDeviceInfo, screenRatio, modelName, h]
  rfl

theorem getMobileDeviceInfo_eq_error {reading : DeviceReading} {failure : Failure}
    (h : machineString reading.machine = .error failure) :
    getMobileDeviceInfo reading = .error failure := by
  simp only [getMobileDeviceInfo, modelName, h]
  rfl

/-- So a dictionary that is made has the device's own strings in it. -/
theorem exists_dictInfo_of_eq_ok {reading : DeviceReading} {info : List (String × Value)}
    (h : getMobileDeviceInfo reading = .ok info) :
    ∃ modelName screenRatio, info = dictInfo reading modelName screenRatio := by
  cases hs : machineString reading.machine with
  | error failure =>
    rw [getMobileDeviceInfo_eq_error hs] at h
    cases h
  | ok s =>
    rw [getMobileDeviceInfo_eq_ok hs] at h
    exact ⟨_, _, (Except.ok.inj h).symm⟩

end MobileDeviceInfo

end DevicesTracker
