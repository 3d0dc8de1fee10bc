import DevicesTracker.Dates.ReadBack
import DevicesTracker.Models.CapturedDate
/-!
# Day buckets

A location is filed under the UTC day of its moment, in the calendar of
the device, while the text stored with it has the day of the device's
zone. The first section says when the two are one date, the second when
two keys are one day: the key counts years as the device's calendar does.
-/

namespace DevicesTracker

open DeviceLocations

/-! ## The bucket and the text -/

section Text

variable {f : DateFormatter} {t : ℤ}

/-- In ASCII digits the getters answer the local date. -/
theorem values_of_digits (location : Coordinates)
    (hdigits : f.locale.digits = Numeral.Glyphs.digits)
    (hread : f.ReadsBack timeFormat t) :
    ((ofLocation location f t).day f).value = some (f.localDate t).1 ∧
      ((ofLocation location f t).month f).value = some (f.localDate t).2.1 ∧
      ((ofLocation location f t).year f).value = some (f.localDate t).2.2 := by
  have hself : ∀ c, f.locale.digits.write c = c := by
    rw [hdigits]
    exact Numeral.Glyphs.write_digits
  obtain ⟨hday, hmonth, hyear⟩ := (answers_localDate_iff hread location).2 fun c _ => hself c
  exact ⟨hday.1, hmonth.1, hyear.1⟩

/-- **A location lies in the bucket of its own date exactly where its zone
is in the UTC day**: the date captured for the key is the date read back
from the record's text if and only if the offset does not carry the moment
past a UTC midnight. -/
theorem capturedDate_eq_text_iff (hcalendar : f.calendar = .gregorian)
    (hdigits : f.locale.digits = Numeral.Glyphs.digits) (hread : f.ReadsBack timeFormat t)
    (location : Coordinates) :
    ((CapturedDate.ofClock ⟨t, f.calendar⟩).year = ((ofLocation location f t).year f).value ∧
      (CapturedDate.ofClock ⟨t, f.calendar⟩).month = ((ofLocation location f t).month f).value ∧
      (CapturedDate.ofClock ⟨t, f.calendar⟩).day = ((ofLocation location f t).day f).value) ↔
    0 ≤ t % 86400 + f.zone.secondsFromGMT t ∧ t % 86400 + f.zone.secondsFromGMT t < 86400 := by
  obtain ⟨hday, hmonth, hyear⟩ := values_of_digits location hdigits hread
  rw [hday, hmonth, hyear, CapturedDate.ofClock_eq, ← TimeZone.localDay_eq_iff]
  have hutc : (Clock.mk t f.calendar).utcDay = t / 86400 := rfl
  have hy : ∀ n, f.calendar.year n = (CivilDate.ofDay n).year := by
    intro n
    rw [hcalendar, Calendar.year, Calendar.yearShift, add_zero]
  simp only [hutc, DateFormatter.localDate, hy, Option.some.injEq, Nat.cast_inj]
  constructor
  · rintro ⟨hyear, hmonth, hday⟩
    exact (CivilDate.ofDay_injective (CivilDate.ext hyear hmonth hday)).symm
  · intro hlocal
    rw [hlocal]
    exact ⟨rfl, rfl, rfl⟩

/-- A device three hours ahead of UTC, with its text read back. -/
def kyiv (text : String) (t : ℤ) : DateFormatter where
  zone := ⟨fun _ => 10800⟩
  locale := english
  calendar := .gregorian
  date dateFormat s := if dateFormat = timeFormat ∧ s = text then some t else none

theorem capturedDate_eq_text_kyiv :
    let f := kyiv "20/October/2018 04:46" 1539999960
    let record := ofLocation ⟨50, 30⟩ f 1540000000
    (CapturedDate.ofClock ⟨1540000000, .gregorian⟩).year = (record.year f).value ∧
      (CapturedDate.ofClock ⟨1540000000, .gregorian⟩).month = (record.month f).value ∧
      (CapturedDate.ofClock ⟨1540000000, .gregorian⟩).day = (record.day f).value := by
  have hread : (kyiv "20/October/2018 04:46" 1539999960).ReadsBack timeFormat 1540000000 :=
    ⟨1539999960, by decide +kernel, by decide +kernel⟩
  exact (capturedDate_eq_text_iff rfl rfl hread ⟨50, 30⟩).2 (by decide)

/-- **Half past eleven in the evening UTC is the next day there.** -/
theorem capturedDate_ne_text_kyiv :
    let f := kyiv "21/October/2018 02:30" 1540078200
    let record := ofLocation ⟨50, 30⟩ f 1540078200
    f.ReadsBack timeFormat 1540078200 ∧
      (CapturedDate.ofClock ⟨1540078200, .gregorian⟩).dateString = .ok "2018:10:20" ∧
      record.date = "21/October/2018 02:30" ∧ (record.day f).value = some 21 ∧
      (CapturedDate.ofClock ⟨1540078200, .gregorian⟩).day ≠ (record.day f).value := by
  refine ⟨⟨1540078200, ?_, ?_⟩, ?_, ?_, ?_, ?_⟩ <;> decide +kernel

end Text

/-! ## The bucket and the UTC day -/

/-- The days of two clocks are one month and day, and the Gregorian years
differ by just what the calendars' counts do. -/
def Clock.Collide (c₁ c₂ : Clock) : Prop :=
  (CivilDate.ofDay c₁.utcDay).month = (CivilDate.ofDay c₂.utcDay).month ∧
    (CivilDate.ofDay c₁.utcDay).day = (CivilDate.ofDay c₂.utcDay).day ∧
    (CivilDate.ofDay c₁.utcDay).year - (CivilDate.ofDay c₂.utcDay).year =
      c₂.calendar.yearShift c₂.utcDay - c₁.calendar.yearShift c₁.utcDay

theorem Clock.dayKey_eq_iff_collide {c₁ c₂ : Clock} : c₁.dayKey = c₂.dayKey ↔ c₁.Collide c₂ := by
  rw [Clock.dayKey, Clock.dayKey, Numeral.joined_inj, Clock.Collide, Calendar.year, Calendar.year]
  omega

/-- Calendars that count alike give one key to one day only. -/
theorem Clock.collide_iff_of_yearShift_eq {c₁ c₂ : Clock}
    (h : c₁.calendar.yearShift c₁.utcDay = c₂.calendar.yearShift c₂.utcDay) :
    c₁.Collide c₂ ↔ c₁.utcDay = c₂.utcDay := by
  rw [Clock.Collide, h, sub_self, sub_eq_zero]
  constructor
  · rintro ⟨hmonth, hday, hyear⟩
    exact CivilDate.ofDay_injective (CivilDate.ext hyear hmonth hday)
  · intro hutc
    rw [hutc]
    exact ⟨rfl, rfl, rfl⟩

/-- **Texts three days apart lie in different buckets**, whatever zones the
device was in: an offset moves a text by one day at most. -/
theorem dayKey_ne_of_far {f f' : DateFormatter} {t t' : ℤ} (hcalendar : f.calendar = .gregorian)
    (hcalendar' : f'.calendar = .gregorian)
    (hoffset : -86400 < f.zone.secondsFromGMT t ∧ f.zone.secondsFromGMT t < 86400)
    (hoffset' : -86400 < f'.zone.secondsFromGMT t' ∧ f'.zone.secondsFromGMT t' < 86400)
    (hfar : f.zone.localDay t + 2 < f'.zone.localDay t') :
    (Clock.mk t f.calendar).dayKey ≠ (Clock.mk t' f'.calendar).dayKey := by
  intro hkey
  rw [hcalendar, hcalendar', Clock.dayKey_eq_iff_collide] at hkey
  have halike : Calendar.gregorian.yearShift (Clock.mk t .gregorian).utcDay =
      Calendar.gregorian.yearShift (Clock.mk t' .gregorian).utcDay := rfl
  have hutc : t / 86400 = t' / 86400 := (Clock.collide_iff_of_yearShift_eq halike).1 hkey
  have hnear := TimeZone.localDay_near hoffset
  have hnear' := TimeZone.localDay_near hoffset'
  omega

theorem dayKey_ne_of_far_kyiv :
    (Clock.mk 1540000000 .gregorian).dayKey ≠ (Clock.mk 1540300000 .gregorian).dayKey :=
  @dayKey_ne_of_far (kyiv "" 0) (kyiv "" 0) 1540000000 1540300000 rfl rfl (by decide) (by decide)
    (by decide)

/-- **A bucket is one UTC day exactly where the years are counted alike**:
two keys are equal just when the days are, if and only if the calendars
count the two years from one start, or the days are different and no
difference of the counts makes up for that of the years. -/
theorem dayKey_eq_iff_utcDay_eq_iff (c₁ c₂ : Clock) :
    (c₁.dayKey = c₂.dayKey ↔ c₁.utcDay = c₂.utcDay) ↔
      c₁.calendar.yearShift c₁.utcDay = c₂.calendar.yearShift c₂.utcDay ∨
        c₁.utcDay ≠ c₂.utcDay ∧ ¬ c₁.Collide c₂ := by
  rw [Clock.dayKey_eq_iff_collide]
  by_cases hshift : c₁.calendar.yearShift c₁.utcDay = c₂.calendar.yearShift c₂.utcDay
  · exact iff_of_true (Clock.collide_iff_of_yearShift_eq hshift) (.inl hshift)
  · have hsame : c₁.utcDay = c₂.utcDay → ¬ c₁.Collide c₂ := by
      rintro hutc ⟨-, -, hyear⟩
      rw [hutc] at hyear hshift
      omega
    -- one day would have two keys, so the days differ
    constructor
    · intro hiff
      have hne : c₁.utcDay ≠ c₂.utcDay := fun hutc => hsame hutc (hiff.2 hutc)
      exact .inr ⟨hne, fun hcollide => hne (hiff.1 hcollide)⟩
    · rintro (h | ⟨hne, hcollide⟩)
      · exact absurd h hshift
      · exact iff_of_false hcollide hne

/-- **One moment, two keys**, before and after the user changes the
calendar. -/
theorem dayKey_ne_buddhist :
    (Clock.mk 1540000000 .gregorian).utcDay = (Clock.mk 1540000000 .buddhist).utcDay ∧
      (Clock.mk 1540000000 .gregorian).dayKey = "2018:10:20" ∧
      (Clock.mk 1540000000 .buddhist).dayKey = "2561:10:20" ∧
      ¬ ((Clock.mk 1540000000 .gregorian).dayKey = (Clock.mk 1540000000 .buddhist).dayKey ↔
        (Clock.mk 1540000000 .gregorian).utcDay = (Clock.mk 1540000000 .buddhist).utcDay) := by
  refine ⟨rfl, by decide +kernel, by decide +kernel, fun h => ?_⟩
  have hkey := h.2 rfl
  revert hkey
  decide +kernel

end DevicesTracker
