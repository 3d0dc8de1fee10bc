import DevicesTracker.Common.Runs
import DevicesTracker.Common.Dictionary
import DevicesTracker.Common.KeyedTree
import DevicesTracker.Common.Patch
import DevicesTracker.Common.Leaves
import DevicesTracker.Common.Children
import DevicesTracker.Common.Civil
import DevicesTracker.Common.Numeral
import DevicesTracker.Foundation.Calendar
import DevicesTracker.Foundation.Formatter
import DevicesTracker.Firebase.Node
import DevicesTracker.Firebase.Filter
import DevicesTracker.Firebase.ImmutableTree
import DevicesTracker.Firebase.CompoundWrite
import DevicesTracker.Firebase.WritePatch
import DevicesTracker.Firebase.WriteTree
import DevicesTracker.Firebase.PendingWrites
import DevicesTracker.Firebase.LocalView
import DevicesTracker.Firebase.View
import DevicesTracker.Firebase.Coherence
import DevicesTracker.Firebase.ViewWrites
import DevicesTracker.Firebase.ViewMerges
import DevicesTracker.Firebase.NewView
import DevicesTracker.Firebase.ViewAnswers
import DevicesTracker.Firebase.ViewReports
import DevicesTracker.Firebase.Operations
import DevicesTracker.Firebase.SyncTree
import DevicesTracker.Firebase.SyncRuns
import DevicesTracker.Firebase.Listeners
import DevicesTracker.Firebase.PushId
import DevicesTracker.Firebase.Reference
import DevicesTracker.Firebase.Connection
import DevicesTracker.Models.MobileDeviceInfo
import DevicesTracker.Models.Device
import DevicesTracker.Models.CapturedDate
import DevicesTracker.Models.DeviceLocations
import DevicesTracker.Services.FirebaseService
import DevicesTracker.Services.LocationService
import DevicesTracker.Controllers.MobileInfoViewController
import DevicesTracker.Dates.ReadBack
import DevicesTracker.Dates.Bucket
import DevicesTracker.Launch.Safety
import DevicesTracker.Location.Accounting
import DevicesTracker.Location.Truth
import DevicesTracker.Location.Tracking
import DevicesTracker.Store.World
import DevicesTracker.Store.History
import DevicesTracker.Store.Names
import DevicesTracker.Store.Effect
import DevicesTracker.Store.Refinement
import DevicesTracker.Store.Record
import DevicesTracker.Store.Registration
import DevicesTracker.Store.AutoIds
import DevicesTracker.Store.Locations
import DevicesTracker.App.Devices
import DevicesTracker.App.Consent
import DevicesTracker.Firebase.Carried
import DevicesTracker.Firebase.Responses
import DevicesTracker.Firebase.Repo
import DevicesTracker.Firebase.Books
