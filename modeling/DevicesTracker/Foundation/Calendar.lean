import DevicesTracker.Common.Civil
/-!
# Foundation — instants, zones and calendars

What the app asks of Foundation about dates, as Foundation documents it.
A `Date` is a whole number of seconds from the start of 1970 in UTC; a zone
gives an offset for each instant, so that it may keep any daylight-saving
rules; a calendar names the year of a day. The three calendars a device
can be set to share the months and days of the Gregorian one and differ
in the year.
-/

namespace DevicesTracker

/-- `TimeZone`: the offset in force at each instant. -/
structure TimeZone where
  secondsFromGMT : ℤ → ℤ

namespace TimeZone

def utc : TimeZone := ⟨fun _ => 0⟩

/-- `TimeZone(abbreviation:)`. The app asks for one zone. -/
def ofAbbreviation (abbreviation : String) : Option TimeZone :=
  if abbreviation = "UTC" then some utc else none

/-- The number of the civil day of an instant in the zone. -/
def localDay (zone : TimeZone) (t : ℤ) : ℤ := (t + zone.secondsFromGMT t) / 86400

/-- How far into that day the instant is. -/
def localSecond (zone : TimeZone) (t : ℤ) : ℤ := (t + zone.secondsFromGMT t) % 86400

@[simp] theorem ofAbbreviation_utc : ofAbbreviation "UTC" = some utc := rfl

@[simp] theorem localDay_utc (t : ℤ) : utc.localDay t = t / 86400 := by
  simp [localDay, utc]

/-- **The zone's day is the UTC day exactly when the offset does not carry
the instant past midnight.** -/
theorem localDay_eq_iff (zone : TimeZone) (t : ℤ) :
    zone.localDay t = t / 86400 ↔
      0 ≤ t % 86400 + zone.secondsFromGMT t ∧ t % 86400 + zone.secondsFromGMT t < 86400 := by
  unfold localDay
  omega

/-- An offset of less than a day carries an instant to a neighbouring day at
most. -/
theorem localDay_near {zone : TimeZone} {t : ℤ}
    (hoffset : -86400 < zone.secondsFromGMT t ∧ zone.secondsFromGMT t < 86400) :
    t / 86400 - 1 ≤ zone.localDay t ∧ zone.localDay t ≤ t / 86400 + 1 := by
  unfold localDay
  omega

end TimeZone

/-- `Calendar`: the settings `Calendar.current` can have. The Japanese
calendar is given by the days its eras began, latest first. -/
inductive Calendar where
  | gregorian
  | buddhist
  | japanese (eraStarts : List ℤ)

namespace Calendar

/-- What a calendar adds to the Gregorian year of a day: the Buddhist one
counts from 543 years earlier, the Japanese one from the year before the
era's first. -/
def yearShift : Calendar → ℤ → ℤ
  | gregorian, _ => 0
  | buddhist, _ => 543
  | japanese eraStarts, n =>
    match eraStarts.find? fun start => start ≤ n with
    | some start => 1 - (CivilDate.ofDay start).year
    | none => 0

/-- The year a calendar gives a day. -/
def year (calendar : Calendar) (n : ℤ) : ℤ := (CivilDate.ofDay n).year + calendar.yearShift n

end Calendar

/-- `DateComponents`, as far as the app reads them. -/
structure DateComponents where
  day : Option ℤ
  month : Option ℤ
  year : Option ℤ

/-- `Calendar.dateComponents(in:from:)`. -/
def Calendar.dateComponents (calendar : Calendar) (zone : TimeZone) (t : ℤ) : DateComponents :=
  let n := zone.localDay t
  { day := some (CivilDate.ofDay n).day
    month := some (CivilDate.ofDay n).month
    year := some (calendar.year n) }

end DevicesTracker
