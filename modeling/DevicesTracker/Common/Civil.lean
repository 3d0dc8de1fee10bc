import Mathlib.Tactic.Ring
/-!
# Civil dates of the Gregorian calendar

Days are numbered from 1 January 1970. `CivilDate.ofDay` is the civil date
of a day: the day falls in a 400-year cycle, a century, a 4-year group and
a year of it, and then along the months of that year. `CivilDate.toDay`
counts back, and `toDay_ofDay` says nothing is lost, so that two days with
one civil date are one day. The calendar is the proleptic one: the leap
rule runs over all years, before 1582 and before year 1 too.
-/

namespace Civil

/-! ## Along a list of lengths -/

/-- Where a number falls along a list of lengths: in which of them,
counting from 1, and how far into it, counting from 1. -/
def place : List ℕ → ℕ → ℕ × ℕ
  | [], n => (1, n + 1)
  | l :: ls, n => if n < l then (1, n + 1) else ((place ls (n - l)).1 + 1, (place ls (n - l)).2)

/-- What lies before a place. -/
def before : List ℕ → ℕ → ℕ → ℕ
  | [], _, k => k - 1
  | l :: ls, i, k => if i = 1 then k - 1 else l + before ls (i - 1) k

theorem place_fst_pos (ls : List ℕ) (n : ℕ) : 1 ≤ (place ls n).1 := by
  cases ls with
  | nil => exact le_rfl
  | cons l ls => unfold place; split <;> simp

theorem place_snd_pos (ls : List ℕ) (n : ℕ) : 1 ≤ (place ls n).2 := by
  induction ls generalizing n with
  | nil => exact Nat.le_add_left 1 n
  | cons l ls ih =>
    unfold place
    split
    · exact Nat.le_add_left 1 n
    · exact ih (n - l)

/-- A number below the sum of the lengths falls in one of them. -/
theorem place_fst_le {ls : List ℕ} {n : ℕ} (h : n < ls.sum) : (place ls n).1 ≤ ls.length := by
  induction ls generalizing n with
  | nil => simp at h
  | cons l ls ih =>
    unfold place
    split
    · simp
    · have := ih (n := n - l) (by rw [List.sum_cons] at h; omega)
      simpa using this

/-- And no further into it than it is long. -/
theorem place_snd_le {ls : List ℕ} {n b : ℕ} (h : n < ls.sum) (hb : ∀ l ∈ ls, l ≤ b) :
    (place ls n).2 ≤ b := by
  induction ls generalizing n with
  | nil => simp at h
  | cons l ls ih =>
    unfold place
    split
    · have := hb l List.mem_cons_self
      simp only
      omega
    · exact ih (by rw [List.sum_cons] at h; omega) fun l hl => hb l (List.mem_cons_of_mem _ hl)

/-- **The place determines the number.** -/
theorem before_place (ls : List ℕ) (n : ℕ) : before ls (place ls n).1 (place ls n).2 = n := by
  induction ls generalizing n with
  | nil => rfl
  | cons l ls ih =>
    by_cases h : n < l
    · simp only [place, if_pos h, before, if_true]
      omega
    · have hpos := place_fst_pos ls (n - l)
      simp only [place, if_neg h, before, Nat.add_sub_cancel, ih]
      rw [if_neg (by omega)]
      omega

/-! ## Years -/

/-- The leap years: every fourth, but of the centuries only every fourth. -/
def isLeap (y : ℤ) : Bool := y % 4 = 0 && (y % 100 ≠ 0 || y % 400 = 0)

def monthLengths (leap : Bool) : List ℕ :=
  [31, if leap then 29 else 28, 31, 30, 31, 30, 31, 31, 30, 31, 30, 31]

theorem length_monthLengths (leap : Bool) : (monthLengths leap).length = 12 := by
  cases leap <;> rfl

theorem sum_monthLengths (leap : Bool) :
    (monthLengths leap).sum = if leap then 366 else 365 := by
  cases leap <;> rfl

theorem le_of_mem_monthLengths {leap : Bool} {l : ℕ} (h : l ∈ monthLengths leap) : l ≤ 31 := by
  cases leap <;> revert l <;> decide

/-- The number of the first day of a year. -/
def yearStart (y : ℤ) : ℤ := 365 * (y - 1970) + (y - 1) / 4 - (y - 1) / 100 + (y - 1) / 400 - 477

/-- The year a day lies in. -/
def yearOf (n : ℤ) : ℤ :=
  -- days from the start of year 1
  let z := n + 719162
  let inCycle := z % 146097
  -- the last century of a cycle is a day longer, the last year of a group too
  let century := min (inCycle / 36524) 3
  let inCentury := inCycle - 36524 * century
  let inGroup := inCentury % 1461
  400 * (z / 146097) + 100 * century + 4 * (inCentury / 1461) + min (inGroup / 365) 3 + 1

/-- **The parts of a day number**: the 400-year cycle, the century, the
4-year group, the year of the group and the day of the year, each with its
range. The last day of a 366-day year comes only at the end of a group,
and at the end of a century only when it ends the cycle. -/
theorem yearOf_parts (n : ℤ) : ∃ q c g m k : ℤ,
    yearOf n = 400 * q + 100 * c + 4 * g + m + 1 ∧
    n = 146097 * q + 36524 * c + 1461 * g + 365 * m + k - 719162 ∧
    (0 ≤ c ∧ c ≤ 3) ∧ (0 ≤ g ∧ g ≤ 24) ∧ (0 ≤ m ∧ m ≤ 3) ∧ (0 ≤ k ∧ k ≤ 365) ∧
    (k = 365 → m = 3 ∧ (g = 24 → c = 3)) := by
  obtain ⟨q, r, hq, hr, hz⟩ : ∃ q r, q = (n + 719162) / 146097 ∧ r = (n + 719162) % 146097 ∧
      n + 719162 = 146097 * q + r ∧ 0 ≤ r ∧ r < 146097 := ⟨_, _, rfl, rfl, by omega, by omega⟩
  obtain ⟨c, hc⟩ : ∃ c, c = min (r / 36524) 3 := ⟨_, rfl⟩
  have hd : 0 ≤ r - 36524 * c ∧ r - 36524 * c ≤ 36524 ∧ (c < 3 → r - 36524 * c < 36524) ∧
      0 ≤ c ∧ c ≤ 3 := by omega
  obtain ⟨d, hdd⟩ : ∃ d, d = r - 36524 * c := ⟨_, rfl⟩
  obtain ⟨g, e, hg, he, hge⟩ : ∃ g e, g = d / 1461 ∧ e = d % 1461 ∧
      d = 1461 * g + e ∧ 0 ≤ e ∧ e < 1461 := ⟨_, _, rfl, rfl, by omega, by omega⟩
  obtain ⟨m, hm⟩ : ∃ m, m = min (e / 365) 3 := ⟨_, rfl⟩
  refine ⟨q, c, g, m, e - 365 * m, ?_, by omega, by omega, by omega, by omega, by omega, ?_⟩
  · simp only [yearOf, ← hq, ← hr, ← hc, ← hdd, ← hg, ← he, ← hm]
  · intro h365
    exact ⟨by omega, by omega⟩

/-- The start of a year, by its parts. -/
theorem yearStart_parts {q c g m : ℤ} (hc : 0 ≤ c ∧ c ≤ 3) (hg : 0 ≤ g ∧ g ≤ 24)
    (hm : 0 ≤ m ∧ m ≤ 3) :
    yearStart (400 * q + 100 * c + 4 * g + m + 1) =
      146097 * q + 36524 * c + 1461 * g + 365 * m - 719162 := by
  have h4 : (400 * q + 100 * c + 4 * g + m + 1 - 1) / 4 = 100 * q + 25 * c + g := by omega
  have h100 : (400 * q + 100 * c + 4 * g + m + 1 - 1) / 100 = 4 * q + c := by omega
  have h400 : (400 * q + 100 * c + 4 * g + m + 1 - 1) / 400 = q := by omega
  rw [yearStart, h4, h100, h400]
  ring

/-- The last year of a group is a leap year, unless it ends a century
inside the cycle. -/
theorem isLeap_parts {q c g : ℤ} (hg : 0 ≤ g ∧ g ≤ 24)
    (h : g = 24 → c = 3) : isLeap (400 * q + 100 * c + 4 * g + 3 + 1) = true := by
  have h4 : (400 * q + 100 * c + 4 * g + 3 + 1) % 4 = 0 := by omega
  simp only [isLeap, h4, decide_true, Bool.true_and, Bool.or_eq_true, decide_eq_true_eq]
  by_cases hg24 : g = 24
  · have hc3 := h hg24
    right
    omega
  · left
    omega

/-- **A day lies between the start of its year and the start of the
next.** -/
theorem yearStart_yearOf (n : ℤ) :
    yearStart (yearOf n) ≤ n ∧
      n < yearStart (yearOf n) + (if isLeap (yearOf n) then 366 else 365) := by
  obtain ⟨q, c, g, m, k, hy, hn, hc, hg, hm, hk, h365⟩ := yearOf_parts n
  have hs := yearStart_parts (q := q) hc hg hm
  rw [hy, hs]
  refine ⟨by omega, ?_⟩
  by_cases hlast : k = 365
  · -- a 366th day: the year is a leap year
    obtain ⟨rfl, hcentury⟩ := h365 hlast
    rw [isLeap_parts hg hcentury, if_pos rfl]
    omega
  · split <;> omega

end Civil

/-! ## Dates -/

/-- **A civil date**, of a month of the year and a day no month exceeds. -/
@[ext]
structure CivilDate where
  year : ℤ
  month : ℕ
  day : ℕ
  month_pos : 1 ≤ month
  month_le : month ≤ 12
  day_pos : 1 ≤ day
  day_le : day ≤ 31

namespace CivilDate

open Civil

theorem dayOfYear_lt (n : ℤ) :
    (n - yearStart (yearOf n)).toNat < (monthLengths (isLeap (yearOf n))).sum := by
  have h := yearStart_yearOf n
  rw [sum_monthLengths]
  split <;> rename_i hl <;> simp only [hl] at h <;> simp at h <;> omega

/-- The civil date of a day. -/
def ofDay (n : ℤ) : CivilDate :=
  let lengths := monthLengths (isLeap (yearOf n))
  let dayOfYear := (n - yearStart (yearOf n)).toNat
  { year := yearOf n
    month := (place lengths dayOfYear).1
    day := (place lengths dayOfYear).2
    month_pos := place_fst_pos _ _
    month_le := length_monthLengths (isLeap (yearOf n)) ▸ place_fst_le (dayOfYear_lt n)
    day_pos := place_snd_pos _ _
    day_le := place_snd_le (dayOfYear_lt n) fun _ h => le_of_mem_monthLengths h }

/-- The number of the day of a civil date. -/
def toDay (c : CivilDate) : ℤ :=
  yearStart c.year + before (monthLengths (isLeap c.year)) c.month c.day

/-- **The civil date of a day determines the day.** -/
theorem toDay_ofDay (n : ℤ) : (ofDay n).toDay = n := by
  have h := (yearStart_yearOf n).1
  simp only [toDay, ofDay, before_place]
  omega

theorem ofDay_injective : Function.Injective ofDay := by
  intro n n' h
  rw [← toDay_ofDay n, h, toDay_ofDay]

/-- The year 2000 is a leap year and 2100 is none. -/
example : (toDay (ofDay 11016), (ofDay 11016).month, (ofDay 11016).day) = (11016, 2, 29) := by
  decide

end CivilDate
