import DevicesTracker.Models.MobileDeviceInfo
/-!
# `Device`

The record the app registers. `Device.ofInfo` is the failable initialiser:
it asks the dictionary for 17 strings and fails if one is missing, and
`exists_device_of_dictInfo` says that the dictionary the device makes has
them all. `toAnyObject` is what is written under `SystemInfo`.
-/

namespace DevicesTracker

structure Device where
  manufactoring : String
  model : String
  os : String
  name : String
  screenResolution : String
  screenRatio : String
  uuid : String
  serialNumber : String
  macAddress : String
  imei : String
  deviceType : String
  workplace : String
  inventoryNumber : String
  project : String
  sticker : String
  department : String
  responsiblePerson : String

namespace Device

/-- `value[key] as? String`. -/
def string (value : List (String × Value)) (key : String) : Option String :=
  match value.lookup key with
  | some (.string s) => some s
  | _ => none

/-- `Device(with:)`. -/
def ofInfo (value : List (String × Value)) : Option Device := do
  let manufactoring ← string value "manufactoring"
  let model ← string value "model"
  let os ← string value "OS"
  let name ← string value "name"
  let screenResolution ← string value "Screen resolution"
  let screenRatio ← string value "Screen ratio"
  let uuid ← string value "UUID"
  let serialNumber ← string value "Serial number"
  let macAddress ← string value "MAC address"
  let imei ← string value "IMEI"
  let deviceType ← string value "Device type"
  let workplace ← string value "Workplace"
  let inventoryNumber ← string value "Inventory number"
  let project ← string value "Project"
  let sticker ← string value "Sticker"
  let department ← string value "Department or Project device"
  let responsiblePerson ← string value "Responsible person"
  return {
    manufactoring := manufactoring
    model := model
    os := os
    name := name
    screenResolution := screenResolution
    screenRatio := screenRatio
    uuid := uuid
    serialNumber := serialNumber
    macAddress := macAddress
    imei := imei
    deviceType := deviceType
    workplace := workplace
    inventoryNumber := inventoryNumber
    project := project
    sticker := sticker
    department := department
    responsiblePerson := responsiblePerson }

def toAnyObject (device : Device) : Value :=
  .dictionary [("manufactoring", .string device.manufactoring),
    ("model", .string device.model),
    ("os", .string device.os),
    ("name", .string device.name),
    ("screenResolution", .string device.screenResolution),
    ("screenRatio", .string device.screenRatio),
    ("uuid", .string device.uuid)]

/-- **The device's dictionary has every string `Device(with:)` asks for**,
and its UUID is the device's. -/
theorem exists_device_of_dictInfo (reading : DeviceReading) (modelName screenRatio : String) :
    ∃ device, ofInfo (MobileDeviceInfo.dictInfo reading modelName screenRatio) = some device ∧
      device.uuid = MobileDeviceInfo.uniqueId reading :=
  ⟨_, rfl, rfl⟩

/-- A registered device is not the empty node. -/
theorem isEmpty_nodeFrom_toAnyObject (device : Device) :
    (FNode.nodeFrom device.toAnyObject).isEmpty = false :=
  FNode.isEmpty_nodeFrom_cons _ (FNode.isEmpty_nodeFrom_string _)

/-- The texts registered of a device, by the keys of `SystemInfo`. -/
def texts (device : Device) : List (String × String) :=
  [("manufactoring", device.manufactoring), ("model", device.model), ("os", device.os),
    ("name", device.name), ("screenResolution", device.screenResolution),
    ("screenRatio", device.screenRatio), ("uuid", device.uuid)]

/-- **`SystemInfo` holds these texts** and nothing else. -/
theorem leafAt_nodeFrom_toAnyObject (device : Device) (k : String) (p : List String) :
    (FNode.nodeFrom device.toAnyObject).leafAt (k :: p) =
      if p = [] then (device.texts.lookup k).map .string else none :=
  FNode.leafAt_nodeFrom_texts device.texts k p

end Device

end DevicesTracker
