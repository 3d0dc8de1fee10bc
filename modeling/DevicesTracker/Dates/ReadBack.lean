import DevicesTracker.Models.DeviceLocations
/-!
# Reading a time text back

The text of an instant fixes the day, the month and the year it was
rendered from, whatever words the month names are: the day has two
characters, the time of day six, and no digit glyph is a slash. So the
instant `date(from:)` answers renders each field as the instant of the
record did, and a getter answers the local date exactly when the digits
of its field are ASCII.
-/

namespace DevicesTracker

open Numeral

namespace DateFormatter

variable {f : DateFormatter}

/-- The time text, field by field. -/
theorem toList_string_timeFormat (t : ℤ) :
    (f.string DeviceLocations.timeFormat t).toList =
      f.field t ['d', 'd'] ++ '/' :: ((f.field t ['M', 'M', 'M', 'M'] ++ '/' ::
        f.field t ['y', 'y', 'y', 'y']) ++
          (' ' :: f.field t ['H', 'H'] ++ ':' :: f.field t ['m', 'm'])) := by
  rw [toList_string [['d', 'd'], ['/'], ['M', 'M', 'M', 'M'], ['/'], ['y', 'y', 'y', 'y'], [' '],
    ['H', 'H'], [':'], ['m', 'm']] (by decide)]
  have hslash : f.field t ['/'] = ['/'] := rfl
  have hspace : f.field t [' '] = [' '] := rfl
  have hcolon : f.field t [':'] = [':'] := rfl
  simp only [List.flatMap_cons, List.flatMap_nil, hslash, hspace, hcolon, List.append_assoc,
    List.cons_append, List.nil_append, List.append_nil]

/-- A number of at most two digits takes two characters. -/
theorem length_number_two {n : ℕ} (h : n < 100) : (f.number 2 n).length = 2 := by
  have hsigned : signed 2 n = padded 2 n := if_neg (by omega)
  rw [number, List.length_map, hsigned, length_padded_two h]

theorem length_field_dd (t : ℤ) : (f.field t ['d', 'd']).length = 2 := by
  have hle := (CivilDate.ofDay (f.zone.localDay t)).day_le
  exact length_number_two (by omega)

/-- So does a number that is not negative. -/
theorem length_number_two_of_int {n : ℤ} (h₀ : 0 ≤ n) (h : n < 100) :
    (f.number 2 n).length = 2 := by
  obtain ⟨m, rfl⟩ := Int.eq_ofNat_of_zero_le h₀
  exact length_number_two (by omega)

theorem length_timeOfDay (t : ℤ) :
    (' ' :: f.field t ['H', 'H'] ++ ':' :: f.field t ['m', 'm']).length = 6 := by
  have hsecond : 0 ≤ f.zone.localSecond t ∧ f.zone.localSecond t < 86400 := by
    unfold TimeZone.localSecond
    omega
  have hHH : (f.field t ['H', 'H']).length = 2 :=
    length_number_two_of_int (by omega) (by omega)
  have hmm : (f.field t ['m', 'm']).length = 2 :=
    length_number_two_of_int (by omega) (by omega)
  simp only [List.cons_append, List.length_cons, List.length_append, hHH, hmm]

/-- No number has a slash in it. -/
theorem slash_notMem_number (w : ℕ) (n : ℤ) : '/' ∉ f.number w n := by
  intro h
  obtain ⟨c, hc, hw⟩ := List.mem_map.1 h
  rcases isDigit_or_minus_of_mem_signed hc with hd | rfl
  · exact Glyphs.write_ne_of_isDigit hd (by decide) rfl hw
  · rw [Glyphs.write_of_not_isDigit rfl] at hw
    cases hw

/-- **The text fixes its date**: instants with one time text have one day,
one month and one year, each as it is rendered. -/
theorem fields_eq_of_timeFormat_eq {t t' : ℤ}
    (h : f.string DeviceLocations.timeFormat t' = f.string DeviceLocations.timeFormat t) :
    f.field t' ['d', 'd'] = f.field t ['d', 'd'] ∧
      f.field t' ['M', 'M', 'M', 'M'] = f.field t ['M', 'M', 'M', 'M'] ∧
      f.field t' ['y', 'y', 'y', 'y'] = f.field t ['y', 'y', 'y', 'y'] := by
  have hl := congrArg String.toList h
  rw [toList_string_timeFormat, toList_string_timeFormat] at hl
  obtain ⟨hday, hl⟩ := List.append_inj hl (by rw [length_field_dd, length_field_dd])
  obtain ⟨hdate, -⟩ := List.append_inj' (List.cons.inj hl).2
    (by rw [length_timeOfDay, length_timeOfDay])
  refine ⟨hday, ?_⟩
  -- the last slash is the one between the month and the year
  have hrev := congrArg List.reverse hdate
  simp only [List.reverse_append, List.reverse_cons, List.append_assoc,
    List.singleton_append] at hrev
  have hyear : ∀ t, '/' ∉ (f.field t ['y', 'y', 'y', 'y']).reverse := fun t hmem =>
    slash_notMem_number 4 _ (List.mem_reverse.1 hmem)
  obtain ⟨hy, hm⟩ := append_cons_inj (hyear t') (hyear t) hrev
  exact ⟨List.reverse_injective hm, List.reverse_injective hy⟩

/-- The months are one, since the month names are distinct. -/
theorem month_eq_of_field_MMMM_eq {t t' : ℤ}
    (h : f.field t' ['M', 'M', 'M', 'M'] = f.field t ['M', 'M', 'M', 'M']) :
    (CivilDate.ofDay (f.zone.localDay t')).month = (CivilDate.ofDay (f.zone.localDay t)).month := by
  have hname : f.locale.monthName (monthIndex (CivilDate.ofDay (f.zone.localDay t'))) =
      f.locale.monthName (monthIndex (CivilDate.ofDay (f.zone.localDay t))) :=
    String.toList_injective h
  have hindex := congrArg Fin.val (f.locale.monthName_injective hname)
  have hpos := (CivilDate.ofDay (f.zone.localDay t)).month_pos
  have hpos' := (CivilDate.ofDay (f.zone.localDay t')).month_pos
  simp only [monthIndex] at hindex
  omega

/-- So each field the getters render is that of the record's instant. -/
theorem string_eq_of_timeFormat_eq {t t' : ℤ}
    (h : f.string DeviceLocations.timeFormat t' = f.string DeviceLocations.timeFormat t) :
    f.string "dd" t' = f.string "dd" t ∧ f.string "MM" t' = f.string "MM" t ∧
      f.string "yyyy" t' = f.string "yyyy" t := by
  obtain ⟨hday, hmonth, hyear⟩ := fields_eq_of_timeFormat_eq h
  have hMM : f.field t' ['M', 'M'] = f.field t ['M', 'M'] := by
    rw [field_MM, field_MM, month_eq_of_field_MMMM_eq hmonth]
  refine ⟨String.toList_injective ?_, String.toList_injective ?_, String.toList_injective ?_⟩
  · rw [toList_string_dd, toList_string_dd, hday]
  · rw [toList_string_MM, toList_string_MM, hMM]
  · rw [toList_string_yyyy, toList_string_yyyy, hyear]

/-- The local civil day, month and year of an instant, in the calendar of
the formatter. -/
def localDate (f : DateFormatter) (t : ℤ) : ℤ × ℤ × ℤ :=
  ((CivilDate.ofDay (f.zone.localDay t)).day, (CivilDate.ofDay (f.zone.localDay t)).month,
    f.calendar.year (f.zone.localDay t))

theorem intOfString_dd_eq_some_iff (t : ℤ) :
    intOfString (f.string "dd" t) = some (f.localDate t).1 ↔
      ∀ c ∈ signed 2 (f.localDate t).1, f.locale.digits.write c = c := by
  rw [intOfString, toList_string_dd, field_dd]
  exact readInt_write_eq_some_iff 2 _

theorem intOfString_MM_eq_some_iff (t : ℤ) :
    intOfString (f.string "MM" t) = some (f.localDate t).2.1 ↔
      ∀ c ∈ signed 2 (f.localDate t).2.1, f.locale.digits.write c = c := by
  rw [intOfString, toList_string_MM, field_MM]
  exact readInt_write_eq_some_iff 2 _

theorem intOfString_yyyy_eq_some_iff (t : ℤ) :
    intOfString (f.string "yyyy" t) = some (f.localDate t).2.2 ↔
      ∀ c ∈ signed 4 (f.localDate t).2.2, f.locale.digits.write c = c := by
  rw [intOfString, toList_string_yyyy, field_yyyy]
  exact readInt_write_eq_some_iff 4 _

end DateFormatter

namespace DeviceLocations

variable {f : DateFormatter} {t : ℤ}

/-- A getter answers what its field of the record's own instant converts
to. -/
theorem value_getter (location : Coordinates) (hread : f.ReadsBack timeFormat t)
    {dateFormat : String}
    (hfield : ∀ t', f.string timeFormat t' = f.string timeFormat t →
      f.string dateFormat t' = f.string dateFormat t) (conversionMessage readingMessage : String) :
    ((ofLocation location f t).getter f dateFormat conversionMessage readingMessage).value =
      intOfString (f.string dateFormat t) := by
  obtain ⟨t', hdate, htext⟩ := hread
  have hrecord : f.date timeFormat (ofLocation location f t).date = some t' := hdate
  simp only [getter, hrecord, hfield t' htext]

theorem value_day (location : Coordinates) (hread : f.ReadsBack timeFormat t) :
    ((ofLocation location f t).day f).value = intOfString (f.string "dd" t) :=
  value_getter location hread (fun _ h => (DateFormatter.string_eq_of_timeFormat_eq h).1) _ _

theorem value_month (location : Coordinates) (hread : f.ReadsBack timeFormat t) :
    ((ofLocation location f t).month f).value = intOfString (f.string "MM" t) :=
  value_getter location hread (fun _ h => (DateFormatter.string_eq_of_timeFormat_eq h).2.1) _ _

theorem value_year (location : Coordinates) (hread : f.ReadsBack timeFormat t) :
    ((ofLocation location f t).year f).value = intOfString (f.string "yyyy" t) :=
  value_getter location hread (fun _ h => (DateFormatter.string_eq_of_timeFormat_eq h).2.2) _ _

/-- A getter that answers `n` and has no assertion fail. -/
def Answers (answer : Checked (Option ℤ)) (n : ℤ) : Prop :=
  answer.value = some n ∧ answer.failures = []

/-- What a getter answers, it answers without a failed assertion. -/
theorem answers_getter_iff (self : DeviceLocations)
    (dateFormat conversionMessage readingMessage : String) (n : ℤ) :
    Answers (self.getter f dateFormat conversionMessage readingMessage) n ↔
      (self.getter f dateFormat conversionMessage readingMessage).value = some n := by
  refine and_iff_left_of_imp fun hvalue => ?_
  rw [failures_getter_eq_nil_iff, hvalue]
  exact Option.some_ne_none n

/-- **The time text reads back as its date exactly in ASCII digits.** Where
`date(from:)` answers an instant with the record's text, the getters
answer the local day, month and year, with no assertion failing, if and
only if each digit of the three is written by its own ASCII glyph. -/
theorem answers_localDate_iff (hread : f.ReadsBack timeFormat t) (location : Coordinates) :
    (Answers ((ofLocation location f t).day f) (f.localDate t).1 ∧
      Answers ((ofLocation location f t).month f) (f.localDate t).2.1 ∧
      Answers ((ofLocation location f t).year f) (f.localDate t).2.2) ↔
    ∀ c ∈ signed 2 (f.localDate t).1 ++ signed 2 (f.localDate t).2.1 ++
        signed 4 (f.localDate t).2.2,
      f.locale.digits.write c = c := by
  have hday : Answers ((ofLocation location f t).day f) (f.localDate t).1 ↔
      ∀ c ∈ signed 2 (f.localDate t).1, f.locale.digits.write c = c := by
    rw [day, answers_getter_iff, ← day, value_day location hread,
      DateFormatter.intOfString_dd_eq_some_iff]
  have hmonth : Answers ((ofLocation location f t).month f) (f.localDate t).2.1 ↔
      ∀ c ∈ signed 2 (f.localDate t).2.1, f.locale.digits.write c = c := by
    rw [month, answers_getter_iff, ← month, value_month location hread,
      DateFormatter.intOfString_MM_eq_some_iff]
  have hyear : Answers ((ofLocation location f t).year f) (f.localDate t).2.2 ↔
      ∀ c ∈ signed 4 (f.localDate t).2.2, f.locale.digits.write c = c := by
    rw [year, answers_getter_iff, ← year, value_year location hread,
      DateFormatter.intOfString_yyyy_eq_some_iff]
  rw [hday, hmonth, hyear, List.forall_mem_append, List.forall_mem_append, and_assoc]

/-! One moment, in a locale with ASCII digits and in one with Arabic-Indic
digits. -/

def english : Locale where
  digits := Glyphs.digits
  monthName m := ["January", "February", "March", "April", "May", "June", "July", "August",
    "September", "October", "November", "December"].get m
  monthName_injective m m' h := by revert m m'; decide +kernel
  monthName_ne_empty := by decide +kernel

def arabic : Locale where
  digits :=
    { glyph := fun d => Char.ofNat (0x660 + d)
      injective := fun d d' h => by revert d d'; decide
      ascii := by decide }
  monthName m := ["يناير", "فبراير", "مارس", "أبريل", "مايو", "يونيو", "يوليو", "أغسطس", "سبتمبر",
    "أكتوبر", "نوفمبر", "ديسمبر"].get m
  monthName_injective m m' h := by revert m m'; decide +kernel
  monthName_ne_empty := by decide +kernel

/-- A formatter that reads the two texts of 20 October 2018, 01:46 UTC. -/
def formatter (locale : Locale) : DateFormatter where
  zone := TimeZone.utc
  locale := locale
  calendar := .gregorian
  date dateFormat text :=
    if dateFormat = timeFormat ∧
      (text = "20/October/2018 01:46" ∨ text = "٢٠/أكتوبر/٢٠١٨ ٠١:٤٦") then some 1539999960
    else none

theorem answers_localDate_english :
    let f := formatter english
    let record := ofLocation ⟨50, 30⟩ f 1540000000
    Answers (record.day f) 20 ∧ Answers (record.month f) 10 ∧ Answers (record.year f) 2018 := by
  have hread : (formatter english).ReadsBack timeFormat 1540000000 :=
    ⟨1539999960, by decide +kernel, by decide +kernel⟩
  exact (answers_localDate_iff hread ⟨50, 30⟩).2 fun c _ => Glyphs.write_digits c

/-- **In Arabic-Indic digits no getter answers**, though the text is read
back. -/
theorem not_answers_arabic :
    let f := formatter arabic
    let record := ofLocation ⟨50, 30⟩ f 1540000000
    f.ReadsBack timeFormat 1540000000 ∧
      record.date = "٢٠/أكتوبر/٢٠١٨ ٠١:٤٦" ∧
      ((record.day f).value = none ∧ (record.day f).failures = ["invalid day conversion"]) ∧
      ¬ (Answers (record.day f) 20 ∧ Answers (record.month f) 10 ∧
        Answers (record.year f) 2018) := by
  refine ⟨⟨1539999960, by decide +kernel, by decide +kernel⟩, by decide +kernel,
    ⟨by decide +kernel, by decide +kernel⟩, fun h => ?_⟩
  have hday := h.1.1
  revert hday
  decide +kernel

end DeviceLocations

end DevicesTracker
