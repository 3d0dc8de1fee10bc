import DevicesTracker.Common.Numeral
import DevicesTracker.Foundation.Calendar
import DevicesTracker.Firebase.Reference
/-!
# `CapturedDate`

The date the app files a location under: the year, month and day of the
moment, in UTC and in the calendar the device is set to. `dateString`
joins them to the key of the day's bucket.
-/

namespace DevicesTracker

/-- What a device's clock and calendar setting are at a moment:
`Date()` and `Calendar.current`. -/
structure Clock where
  now : ℤ
  calendar : Calendar

structure CapturedDate where
  day : Option ℤ
  month : Option ℤ
  year : Option ℤ

namespace CapturedDate

/-- `CapturedDate()`. -/
def ofClock (clock : Clock) : CapturedDate :=
  match TimeZone.ofAbbreviation "UTC" with
  | some timezone =>
    let components := clock.calendar.dateComponents timezone clock.now
    -- the fallback year is a Gregorian one
    { day := some (components.day.getD 1)
      month := some (components.month.getD 1)
      year := some (components.year.getD 2018) }
  | none => { day := none, month := none, year := none }

/-- A forced unwrap. -/
def unwrap : Option ℤ → Except Failure ℤ
  | some n => .ok n
  | none => .error .unexpectedNil

/-- The key `updateLocations` files a location under. -/
def dateString (currentDate : CapturedDate) : Except Failure String := do
  let year ← unwrap currentDate.year
  let month ← unwrap currentDate.month
  let day ← unwrap currentDate.day
  return s!"{year}:{month}:{day}"

end CapturedDate

/-- The number of the UTC day a clock shows. -/
def Clock.utcDay (clock : Clock) : ℤ := clock.now / 86400

/-- The key of the bucket of a moment: its year in the calendar and its
month and day, in UTC. -/
def Clock.dayKey (clock : Clock) : String :=
  Numeral.joined (clock.calendar.year clock.utcDay) (CivilDate.ofDay clock.utcDay).month
    (CivilDate.ofDay clock.utcDay).day

namespace CapturedDate

theorem ofClock_eq (clock : Clock) :
    ofClock clock =
      { day := some (CivilDate.ofDay clock.utcDay).day
        month := some (CivilDate.ofDay clock.utcDay).month
        year := some (clock.calendar.year clock.utcDay) } := by
  simp [ofClock, Calendar.dateComponents, Clock.utcDay]

/-- **No unwrap fails**: the zone exists and every component is there. -/
theorem dateString_ofClock (clock : Clock) :
    (ofClock clock).dateString = .ok clock.dayKey := by
  rw [ofClock_eq]
  rfl

end CapturedDate

/-! ## What a day key looks like -/

namespace Clock

theorem mem_dayKey {clock : Clock} {c : Char} (h : c ∈ clock.dayKey.toList) :
    c.isDigit = true ∨ c = '-' ∨ c = ':' :=
  Numeral.mem_joined h

theorem dayKey_ne_of_notMem {clock : Clock} {s : String} (h : ':' ∉ s.toList) :
    clock.dayKey ≠ s := by
  intro heq
  exact h (heq ▸ Numeral.colon_mem_joined _ _ _)

theorem dayKey_ne_empty (clock : Clock) : clock.dayKey ≠ "" := dayKey_ne_of_notMem (by decide)

theorem slash_notMem_dayKey (clock : Clock) : '/' ∉ clock.dayKey.toList := by
  intro h
  rcases mem_dayKey h with h | h | h <;> cases h

/-- A day key is one piece of a path. -/
theorem pathWithString_dayKey (clock : Clock) : pathWithString clock.dayKey = [clock.dayKey] :=
  pathWithString_of_notMem clock.dayKey_ne_empty clock.slash_notMem_dayKey

/-- And one that `child` accepts. -/
theorem isValidPathString_dayKey (clock : Clock) :
    FValidation.isValidPathString clock.dayKey = true := by
  refine FValidation.isValidPathString_iff.2 ⟨clock.dayKey_ne_empty, fun c hc hbad => ?_⟩
  have hall : FValidation.invalidPathCharacters.all
      fun c => ¬ (c.isDigit = true ∨ c = '-' ∨ c = ':') := by decide
  exact of_decide_eq_true (List.all_eq_true.1 hall c hbad) (mem_dayKey hc)

end Clock

end DevicesTracker
