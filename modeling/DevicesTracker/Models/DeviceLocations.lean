import DevicesTracker.Firebase.Node
import DevicesTracker.Foundation.Formatter
/-!
# `DeviceLocations`

A place and the time text of the moment the record was made. The text is
local: the formatter has the device's zone, locale and calendar. `day`,
`month` and `year` read the text back to an instant, render that instant
in one field and convert the field to an integer; they differ in the field
and in their assertion messages.
-/

namespace DevicesTracker

/-- A place in degrees. -/
structure Coordinates where
  latitude : ℚ
  longitude : ℚ

structure DeviceLocations where
  location : Coordinates
  date : String

/-- What a getter with assertions answers, and the messages of those that
fail on the way: a debug build stops at the first, a release build does
not look at them. -/
structure Checked (α : Type) where
  value : α
  failures : List String

namespace DeviceLocations

/-- The pattern of the time text. -/
def timeFormat : String := "dd/MMMM/yyyy HH:mm"

/-- `DeviceLocations(location:)`, made at `now`. -/
def ofLocation (location : Coordinates) (formatter : DateFormatter) (now : ℤ) : DeviceLocations :=
  { location := location
    date := formatter.string timeFormat now }

/-- A field of the time text: the pattern it is rendered with and the two
messages of its assertions. -/
def getter (self : DeviceLocations) (formatter : DateFormatter)
    (dateFormat conversionMessage readingMessage : String) : Checked (Option ℤ) :=
  match formatter.date timeFormat self.date with
  | some receivedDate =>
    let dateString := formatter.string dateFormat receivedDate
    let value := intOfString dateString
    { value := value
      failures := if value ≠ none then [] else [conversionMessage] }
  | none => { value := none, failures := [readingMessage] }

def day (self : DeviceLocations) (formatter : DateFormatter) : Checked (Option ℤ) :=
  self.getter formatter "dd" "invalid day conversion" "invalid day convertion"

def month (self : DeviceLocations) (formatter : DateFormatter) : Checked (Option ℤ) :=
  self.getter formatter "MM" "invalid month conversion" "invalid month convertion"

def year (self : DeviceLocations) (formatter : DateFormatter) : Checked (Option ℤ) :=
  self.getter formatter "yyyy" "invalid year conversion" "invalid year convertion"

def toAnyObject (self : DeviceLocations) : Value :=
  .dictionary [("latitude", .number self.location.latitude),
    ("longitude", .number self.location.longitude),
    ("time", .string self.date)]

/-- A getter answers a number exactly when none of its assertions fails. -/
theorem failures_getter_eq_nil_iff (self : DeviceLocations) (formatter : DateFormatter)
    (dateFormat conversionMessage readingMessage : String) :
    (self.getter formatter dateFormat conversionMessage readingMessage).failures = [] ↔
      (self.getter formatter dateFormat conversionMessage readingMessage).value ≠ none := by
  unfold getter
  cases formatter.date timeFormat self.date with
  | none => simp
  | some receivedDate =>
    by_cases h : intOfString (formatter.string dateFormat receivedDate) = none <;> simp [h]

/-- A location written to the database is not the empty node. -/
theorem isEmpty_nodeFrom_toAnyObject (self : DeviceLocations) :
    (FNode.nodeFrom self.toAnyObject).isEmpty = false :=
  FNode.isEmpty_nodeFrom_cons _ (FNode.isEmpty_nodeFrom_number _)

/-- **What a node has to hold to be the record of a location**: its latitude,
its longitude and its time, and nothing else. -/
structure HeldBy (self : DeviceLocations) (node : FNode) : Prop where
  latitude : node.leafAt ["latitude"] = some (.number self.location.latitude)
  longitude : node.leafAt ["longitude"] = some (.number self.location.longitude)
  time : node.leafAt ["time"] = some (.string self.date)
  others : ∀ p, p ≠ ["latitude"] → p ≠ ["longitude"] → p ≠ ["time"] → node.leafAt p = none

theorem heldBy_nodeFrom_toAnyObject (self : DeviceLocations) :
    self.HeldBy (FNode.nodeFrom self.toAnyObject) where
  latitude := rfl
  longitude := rfl
  time := rfl
  others p hlatitude hlongitude htime := by
    cases p with
    | nil => rfl
    | cons k p =>
      rw [toAnyObject, FNode.leafAt_cons, FNode.getImmediateChild_nodeFrom_cons,
        FNode.getImmediateChild_nodeFrom_cons, FNode.getImmediateChild_nodeFrom_cons,
        FNode.getImmediateChild_nodeFrom_nil]
      split
      next h =>
        rw [FNode.leafAt_nodeFrom_number, if_neg fun hp => hlatitude (by rw [h.1, hp])]
      next =>
        split
        next h =>
          rw [FNode.leafAt_nodeFrom_number, if_neg fun hp => hlongitude (by rw [h.1, hp])]
        next =>
          split
          next h =>
            rw [FNode.leafAt_nodeFrom_string, if_neg fun hp => htime (by rw [h.1, hp])]
          next => exact FNode.leafAt_emptyNode p

end DeviceLocations

end DevicesTracker
