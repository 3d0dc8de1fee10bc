import DevicesTracker.Common.Numeral
import DevicesTracker.Foundation.Calendar
/-!
# Foundation — `DateFormatter`

A formatter renders an instant in a zone, a locale and a calendar. The
pattern is cut into runs of one letter, and each run is a field or stands
for itself. Reading a text back is Foundation's own: it is a parameter of
the formatter, and what the app relies on is `ReadsBack`.
-/

namespace DevicesTracker

open Numeral

/-- What a locale gives the app's patterns: ten digit glyphs and twelve
distinct month names. -/
structure Locale where
  digits : Glyphs
  monthName : Fin 12 → String
  monthName_injective : Function.Injective monthName
  monthName_ne_empty : ∀ m, monthName m ≠ ""

/-- `DateFormatter`, in the device's zone, locale and calendar. -/
structure DateFormatter where
  zone : TimeZone
  locale : Locale
  calendar : Calendar
  /-- `date(from:)` under a pattern. -/
  date : String → String → Option ℤ

/-- A date's month, as an index into the month names. -/
def monthIndex (c : CivilDate) : Fin 12 :=
  ⟨c.month - 1, by have := c.month_pos; have := c.month_le; omega⟩

namespace DateFormatter

variable (f : DateFormatter)

/-- A number of at least `w` digits, in the locale's digits. -/
def number (w : ℕ) (n : ℤ) : List Char := (signed w n).map f.locale.digits.write

/-- What a run of the pattern becomes. The runs are those of the app's
patterns; a separator stands for itself. -/
def field (t : ℤ) (run : List Char) : List Char :=
  let date := CivilDate.ofDay (f.zone.localDay t)
  match String.ofList run with
  | "dd" => f.number 2 date.day
  | "MM" => f.number 2 date.month
  | "MMMM" => (f.locale.monthName (monthIndex date)).toList
  | "yyyy" => f.number 4 (f.calendar.year (f.zone.localDay t))
  | "HH" => f.number 2 (f.zone.localSecond t / 3600)
  | "mm" => f.number 2 (f.zone.localSecond t % 3600 / 60)
  | _ => run

/-- `string(from:)` under a pattern. -/
def string (dateFormat : String) (t : ℤ) : String :=
  String.ofList ((dateFormat.toList.splitBy (· == ·)).flatMap (f.field t))

/-- **What is asked of `date(from:)`**: on the text the formatter gives an
instant it answers some instant with that text, though not always the
same one, since a text has no seconds and can fall twice at a clock
change. -/
def ReadsBack (dateFormat : String) (t : ℤ) : Prop :=
  ∃ t', f.date dateFormat (f.string dateFormat t) = some t' ∧
    f.string dateFormat t' = f.string dateFormat t

variable {f}

/-- A text is the fields of the pattern's runs. -/
theorem toList_string {dateFormat : String} (runs : List (List Char))
    (h : dateFormat.toList.splitBy (· == ·) = runs) (t : ℤ) :
    (f.string dateFormat t).toList = runs.flatMap (f.field t) := by
  rw [string, h, String.toList_ofList]

theorem field_dd (t : ℤ) :
    f.field t ['d', 'd'] = f.number 2 (CivilDate.ofDay (f.zone.localDay t)).day := rfl

theorem field_MM (t : ℤ) :
    f.field t ['M', 'M'] = f.number 2 (CivilDate.ofDay (f.zone.localDay t)).month := rfl

theorem field_yyyy (t : ℤ) :
    f.field t ['y', 'y', 'y', 'y'] = f.number 4 (f.calendar.year (f.zone.localDay t)) := rfl

theorem toList_string_dd (t : ℤ) : (f.string "dd" t).toList = f.field t ['d', 'd'] := by
  rw [toList_string [['d', 'd']] (by decide), List.flatMap_singleton]

theorem toList_string_MM (t : ℤ) : (f.string "MM" t).toList = f.field t ['M', 'M'] := by
  rw [toList_string [['M', 'M']] (by decide), List.flatMap_singleton]

theorem toList_string_yyyy (t : ℤ) :
    (f.string "yyyy" t).toList = f.field t ['y', 'y', 'y', 'y'] := by
  rw [toList_string [['y', 'y', 'y', 'y']] (by decide), List.flatMap_singleton]

end DateFormatter

/-- `Int(_:)` on a string: ASCII digits with an optional sign. -/
def intOfString (s : String) : Option ℤ := readInt s.toList

end DevicesTracker
