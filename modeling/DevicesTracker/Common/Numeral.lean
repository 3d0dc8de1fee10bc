import Mathlib.Data.List.Basic
import Mathlib.Data.Int.Basic
/-!
# Decimal numerals

A numeral is a list of characters: an optional minus sign and decimal
digits, padded with zeros to a width. `readInt` reads it back. A set of
ten glyphs writes the digits of a numeral with other characters; what
comes of it reads back exactly when no digit was changed
(`readInt_write_eq_some_iff`). `joined` is three integers between colons,
which can be taken apart again.
-/

namespace Numeral

/-! ## Writing and reading -/

/-- The numeral of a natural number, of at least `w` digits. -/
def padded (w n : ℕ) : List Char := (Nat.toDigits 10 n).leftpad w '0'

/-- The numeral of an integer, of at least `w` digits after the sign. -/
def signed (w : ℕ) (n : ℤ) : List Char :=
  if n < 0 then '-' :: padded w n.natAbs else padded w n.natAbs

/-- The number a list of digits stands for. -/
def readNat (cs : List Char) : Option ℕ :=
  if cs ≠ [] ∧ cs.all Char.isDigit then some (Nat.ofDigitChars 10 cs 0) else none

/-- The number a numeral stands for; a plus sign is read too. -/
def readInt : List Char → Option ℤ
  | '-' :: cs => (readNat cs).map fun n : ℕ => -(n : ℤ)
  | '+' :: cs => (readNat cs).map fun n : ℕ => (n : ℤ)
  | cs => (readNat cs).map fun n : ℕ => (n : ℤ)

theorem padded_eq_append (w n : ℕ) :
    padded w n = List.replicate (w - (Nat.toDigits 10 n).length) '0' ++ Nat.toDigits 10 n := rfl

theorem padded_ne_nil (w n : ℕ) : padded w n ≠ [] := by
  rw [padded_eq_append]
  exact List.append_ne_nil_of_right_ne_nil _ Nat.toDigits_ne_nil

theorem length_padded {w n : ℕ} (h : (Nat.toDigits 10 n).length ≤ w) : (padded w n).length = w := by
  rw [padded, List.length_leftpad]
  exact Nat.max_eq_left h

theorem isDigit_of_mem_padded {w n : ℕ} {c : Char} (h : c ∈ padded w n) : c.isDigit = true := by
  rw [padded_eq_append, List.mem_append] at h
  rcases h with h | h
  · rw [(List.mem_replicate.1 h).2]
    rfl
  · exact Nat.isDigit_of_mem_toDigits (by decide) (by decide) h

theorem readNat_padded (w n : ℕ) : readNat (padded w n) = some n := by
  rw [readNat, if_pos ⟨padded_ne_nil w n, List.all_eq_true.2 fun c h => isDigit_of_mem_padded h⟩,
    padded_eq_append,
    Nat.ofDigitChars_append, Nat.ofDigitChars_replicate_zero, Nat.mul_zero,
    Nat.ofDigitChars_ten_toDigits]

/-- Without a sign in front a numeral is read as its digits. -/
theorem readInt_of_unsigned {cs : List Char} (hm : ∀ ds, cs ≠ '-' :: ds)
    (hp : ∀ ds, cs ≠ '+' :: ds) :
    readInt cs = (readNat cs).map fun n : ℕ => (n : ℤ) := by
  unfold readInt
  split
  · exact absurd rfl (hm _)
  · exact absurd rfl (hp _)
  · rfl

/-- A digit is no sign. -/
theorem ne_cons_of_isDigit {cs ds : List Char} {c : Char} (hcs : ∀ c ∈ cs, c.isDigit = true)
    (hc : c.isDigit = false) : cs ≠ c :: ds := by
  intro h
  have := hcs c (h ▸ List.mem_cons_self)
  rw [hc] at this
  cases this

theorem readInt_of_digits {cs : List Char} (h : ∀ c ∈ cs, c.isDigit = true) :
    readInt cs = (readNat cs).map fun n : ℕ => (n : ℤ) :=
  readInt_of_unsigned (fun _ => ne_cons_of_isDigit h rfl) fun _ => ne_cons_of_isDigit h rfl

/-- **A numeral reads back as its number.** -/
theorem readInt_signed (w : ℕ) (n : ℤ) : readInt (signed w n) = some n := by
  unfold signed
  split
  · simp only [readInt, readNat_padded, Option.map_some]
    congr 1
    omega
  · rw [readInt_of_digits fun c h => isDigit_of_mem_padded h, readNat_padded, Option.map_some]
    congr 1
    omega

theorem signed_injective (w : ℕ) : Function.Injective (signed w) := by
  intro n n' h
  have := readInt_signed w n
  rw [h, readInt_signed] at this
  exact (Option.some.inj this).symm

theorem isDigit_or_minus_of_mem_signed {w : ℕ} {n : ℤ} {c : Char} (h : c ∈ signed w n) :
    c.isDigit = true ∨ c = '-' := by
  unfold signed at h
  split at h
  · rcases List.mem_cons.1 h with h | h
    exacts [.inr h, .inl (isDigit_of_mem_padded h)]
  · exact .inl (isDigit_of_mem_padded h)

/-- Numbers of two digits are written with two characters. -/
theorem length_padded_two {n : ℕ} (h : n < 100) : (padded 2 n).length = 2 :=
  length_padded ((Nat.length_toDigits_le_iff (by decide) (by decide)).2 h)

/-! ## Other glyphs for the digits -/

/-- **Ten distinct characters for the ten digits**, none of which is an
ASCII character other than the digit itself. -/
structure Glyphs where
  glyph : Fin 10 → Char
  injective : Function.Injective glyph
  ascii : ∀ d, (glyph d).toNat < 128 → glyph d = Nat.digitChar d

namespace Glyphs

/-- The ASCII digits. -/
def digits : Glyphs where
  glyph d := Nat.digitChar d
  injective d d' h := by revert d d'; decide
  ascii _ _ := rfl

variable (g : Glyphs)

/-- A character written with the glyphs: a digit by its glyph, any other
by itself. -/
def write (c : Char) : Char :=
  if c.isDigit then g.glyph ⟨(c.toNat - 48) % 10, Nat.mod_lt _ (by decide)⟩ else c

variable {g}

theorem toNat_of_isDigit {c : Char} (h : c.isDigit = true) : 48 ≤ c.toNat ∧ c.toNat ≤ 57 := by
  simp only [Char.isDigit, Bool.and_eq_true, decide_eq_true_eq] at h
  exact ⟨h.1, h.2⟩

theorem digitChar_toNat_sub {c : Char} (h : c.isDigit = true) :
    Nat.digitChar ((c.toNat - 48) % 10) = c := by
  have hc := toNat_of_isDigit h
  apply Char.toNat_inj.1
  rw [Nat.toNat_digitChar_of_lt_ten (by omega)]
  omega

/-- What is not a digit is not changed. -/
theorem write_of_not_isDigit {c : Char} (h : c.isDigit = false) : g.write c = c := by
  rw [write, h]
  rfl

/-- **Only a digit itself is written as an ASCII character.** -/
theorem eq_of_write_ascii {c : Char} (h : c.isDigit = true) (ha : (g.write c).toNat < 128) :
    g.write c = c := by
  rw [write, if_pos h] at ha ⊢
  rw [g.ascii _ ha]
  exact digitChar_toNat_sub h

theorem write_isDigit_iff {c : Char} (h : c.isDigit = true) :
    (g.write c).isDigit = true ↔ g.write c = c := by
  constructor
  · intro hw
    have := toNat_of_isDigit hw
    exact eq_of_write_ascii h (by omega)
  · intro hw
    rw [hw, h]

/-- No digit is written as an ASCII character that is none. -/
theorem write_ne_of_isDigit {c c' : Char} (h : c.isDigit = true) (ha : c'.toNat < 128)
    (hc : c'.isDigit = false) : g.write c ≠ c' := by
  intro hw
  have hself := eq_of_write_ascii (g := g) h (by rw [hw]; exact ha)
  rw [← hw, hself, h] at hc
  cases hc

@[simp] theorem write_digits (c : Char) : digits.write c = c := by
  cases h : c.isDigit with
  | false => exact write_of_not_isDigit h
  | true =>
    rw [write, if_pos h]
    exact digitChar_toNat_sub h

end Glyphs

variable {g : Glyphs}

/-- Digits read back after writing exactly when each is its own glyph. -/
theorem readNat_write_isSome_iff {cs : List Char} (h : ∀ c ∈ cs, c.isDigit = true) (hne : cs ≠ []) :
    (readNat (cs.map g.write)).isSome = true ↔ ∀ c ∈ cs, g.write c = c := by
  have hall : (∀ c ∈ cs.map g.write, c.isDigit = true) ↔ ∀ c ∈ cs, g.write c = c := by
    rw [List.forall_mem_map]
    exact forall₂_congr fun c hc => Glyphs.write_isDigit_iff (h c hc)
  rw [← hall, readNat]
  split <;> rename_i hr
  · exact iff_of_true rfl (List.all_eq_true.1 hr.2)
  · exact iff_of_false (by simp) fun hd => hr ⟨by simpa using hne, List.all_eq_true.2 hd⟩

/-- **A numeral written with other glyphs reads back as its number exactly
when each of its digits is written by itself.** -/
theorem readInt_write_eq_some_iff (w : ℕ) (n : ℤ) :
    readInt ((signed w n).map g.write) = some n ↔ ∀ c ∈ signed w n, g.write c = c := by
  constructor
  · intro hread
    have hdigits : ∀ c ∈ padded w n.natAbs, c.isDigit = true := fun c h => isDigit_of_mem_padded h
    have hsome := readNat_write_isSome_iff (g := g) hdigits (padded_ne_nil w n.natAbs)
    have hminus : g.write '-' = '-' := Glyphs.write_of_not_isDigit rfl
    by_cases hn : n < 0
    · -- the minus sign is written by itself
      rw [signed, if_pos hn, List.map_cons, hminus] at hread
      obtain ⟨m, hm, -⟩ := Option.map_eq_some_iff.1 hread
      rw [signed, if_pos hn, List.forall_mem_cons]
      exact ⟨hminus, hsome.1 (Option.isSome_of_eq_some hm)⟩
    · -- the first glyph is no sign, so all of them are read as digits
      have hsign : ∀ c' : Char, c'.toNat < 128 → c'.isDigit = false →
          ∀ ds, (padded w n.natAbs).map g.write ≠ c' :: ds := by
        intro c' ha hc ds heq
        have hmem : c' ∈ (padded w n.natAbs).map g.write := heq ▸ List.mem_cons_self
        obtain ⟨c, hcm, hw⟩ := List.mem_map.1 hmem
        exact Glyphs.write_ne_of_isDigit (hdigits c hcm) ha hc hw
      rw [signed, if_neg hn,
        readInt_of_unsigned (hsign '-' (by decide) rfl) (hsign '+' (by decide) rfl)] at hread
      obtain ⟨m, hm, -⟩ := Option.map_eq_some_iff.1 hread
      rw [signed, if_neg hn]
      exact hsome.1 (Option.isSome_of_eq_some hm)
  · intro hself
    have hmap : (signed w n).map g.write = signed w n := by
      conv_rhs => rw [← List.map_id (signed w n)]
      exact List.map_congr_left hself
    rw [hmap, readInt_signed]

/-! ## Numbers between colons -/

/-- Three integers in plain decimal, joined by colons. -/
def joined (a b c : ℤ) : String := s!"{a}:{b}:{c}"

theorem toList_toString (n : ℤ) : (toString n).toList = signed 0 n := by
  rw [Int.toString_eq_repr, Int.repr_eq_if, signed]
  by_cases h : 0 ≤ n
  · rw [if_pos h, if_neg (by omega), Nat.toList_repr, padded_eq_append]
    have : n.toNat = n.natAbs := by omega
    simp [this]
  · rw [if_neg h, if_pos (by omega), String.toList_append, Nat.toList_repr, padded_eq_append]
    have : (-n).toNat = n.natAbs := by omega
    simp [this]

theorem toList_joined (a b c : ℤ) :
    (joined a b c).toList = signed 0 a ++ ':' :: (signed 0 b ++ ':' :: signed 0 c) := by
  have hcolon : (toString ":").toList = [':'] := rfl
  rw [← toList_toString, ← toList_toString, ← toList_toString]
  simp [joined, hcolon]

/-- Texts with one first occurrence of a character agree before it and
after it. -/
theorem append_cons_inj {α : Type*} {a : α} {x y z w : List α} (hx : a ∉ x) (hy : a ∉ y)
    (h : x ++ a :: z = y ++ a :: w) : x = y ∧ z = w := by
  induction x generalizing y with
  | nil =>
    cases y with
    | nil => exact ⟨rfl, (List.cons.inj h).2⟩
    | cons b y => exact absurd ((List.cons.inj h).1 ▸ List.mem_cons_self) hy
  | cons b x ih =>
    cases y with
    | nil => exact absurd ((List.cons.inj h).1 ▸ List.mem_cons_self) hx
    | cons c y =>
      obtain ⟨hbc, h⟩ := List.cons.inj h
      obtain ⟨hxy, hzw⟩ := ih (fun hm => hx (List.mem_cons_of_mem _ hm))
        (fun hm => hy (List.mem_cons_of_mem _ hm)) h
      exact ⟨by rw [hbc, hxy], hzw⟩

theorem colon_notMem_signed (w : ℕ) (n : ℤ) : ':' ∉ signed w n := by
  intro h
  rcases isDigit_or_minus_of_mem_signed h with h | h <;> cases h

/-- **The joined numbers can be taken apart again.** -/
theorem joined_inj {a b c a' b' c' : ℤ} :
    joined a b c = joined a' b' c' ↔ a = a' ∧ b = b' ∧ c = c' := by
  constructor
  · intro h
    have hl := congrArg String.toList h
    rw [toList_joined, toList_joined] at hl
    obtain ⟨ha, hl⟩ := append_cons_inj (colon_notMem_signed 0 a) (colon_notMem_signed 0 a') hl
    obtain ⟨hb, hc⟩ := append_cons_inj (colon_notMem_signed 0 b) (colon_notMem_signed 0 b') hl
    exact ⟨signed_injective 0 ha, signed_injective 0 hb, signed_injective 0 hc⟩
  · rintro ⟨rfl, rfl, rfl⟩
    rfl

/-- What the joined numbers are written with. -/
theorem mem_joined {a b c : ℤ} {ch : Char} (h : ch ∈ (joined a b c).toList) :
    ch.isDigit = true ∨ ch = '-' ∨ ch = ':' := by
  rw [toList_joined, List.mem_append, List.mem_cons, List.mem_append, List.mem_cons] at h
  rcases h with h | rfl | h | rfl | h
  · exact (isDigit_or_minus_of_mem_signed h).imp_right .inl
  · exact .inr (.inr rfl)
  · exact (isDigit_or_minus_of_mem_signed h).imp_right .inl
  · exact .inr (.inr rfl)
  · exact (isDigit_or_minus_of_mem_signed h).imp_right .inl

theorem colon_mem_joined (a b c : ℤ) : ':' ∈ (joined a b c).toList := by
  rw [toList_joined]
  exact List.mem_append_right _ List.mem_cons_self

example : joined 2018 10 9 = "2018:10:9" := by decide

end Numeral
