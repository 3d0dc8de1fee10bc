import Mathlib.Data.List.Nodup
import Mathlib.Data.Nat.Digits.Lemmas
import Mathlib.Tactic.NormNum
/-!
# Firebase — push ids

`childByAutoId` names a child by a push id: eight characters of the server
time in milliseconds and twelve random ones, in an alphabet of 64. Ids of
different milliseconds differ in the first eight characters
(`timeStampChars_injective`), and the ids a process gives in one millisecond
in the random part, which is counted up (`ofDigits_increment`). So the ids of
one process differ (`nodup_gets`).
-/

namespace DevicesTracker

namespace FNextPushId

/-- The characters of a push id, in their order. -/
def pushChars : List Char :=
  "-0123456789ABCDEFGHIJKLMNOPQRSTUVWXYZ_abcdefghijklmnopqrstuvwxyz".toList

def pushChar (i : Fin 64) : Char := pushChars.get ⟨i, i.isLt.trans_le (by decide)⟩

/-- The last `n` base-64 characters of a time. -/
def timeStampChars : ℕ → ℕ → List Char
  | 0, _ => []
  | n + 1, now =>
    timeStampChars n (now / 64) ++ [pushChar ⟨now % 64, Nat.mod_lt _ (by decide)⟩]

/-- The next random part, least digit first. Past the last one the source
writes in front of its array; here the digits start again. -/
def increment : List (Fin 64) → List (Fin 64)
  | [] => []
  | i :: is => if i = 63 then 0 :: increment is else (i + 1) :: is

/-- A random part of zeros. -/
def zeroRandChars : List (Fin 64) := List.replicate 12 0

/-- The static variables of `[FNextPushId get:]`, one set a process. -/
structure State where
  lastPushTime : ℕ := 0
  lastRandChars : List (Fin 64) := zeroRandChars

/-- `[FNextPushId get:]`, at a time in milliseconds; `random` is what
`arc4random` gives if it is asked. -/
def get (self : State) (now : ℕ) (random : List (Fin 64)) : String × State :=
  let randChars :=
    if now = self.lastPushTime then (increment self.lastRandChars.reverse).reverse else random
  (String.ofList (timeStampChars 8 now ++ randChars.map pushChar), ⟨now, randChars⟩)

theorem pushChar_mem (i : Fin 64) : pushChar i ∈ pushChars := List.get_mem _ _

theorem mem_pushChars_of_mem_timeStampChars {n now : ℕ} {c : Char}
    (h : c ∈ timeStampChars n now) : c ∈ pushChars := by
  induction n generalizing now with
  | zero => exact absurd h List.not_mem_nil
  | succ n ih =>
    rw [timeStampChars, List.mem_append, List.mem_singleton] at h
    rcases h with h | rfl
    exacts [ih h, pushChar_mem _]

/-- A push id is made of push characters. -/
theorem mem_pushChars_of_mem_get {self : State} {now : ℕ} {random : List (Fin 64)} {c : Char}
    (h : c ∈ (get self now random).1.toList) : c ∈ pushChars := by
  rw [get, String.toList_ofList, List.mem_append, List.mem_map] at h
  rcases h with h | ⟨i, -, rfl⟩
  exacts [mem_pushChars_of_mem_timeStampChars h, pushChar_mem i]

theorem get_ne_empty (self : State) (now : ℕ) (random : List (Fin 64)) :
    (get self now random).1 ≠ "" := by
  intro h
  have hnil := String.toList_eq_nil_iff.2 h
  simp [get, timeStampChars] at hnil

/-! ## The time in an id -/

theorem pushChar_injective : Function.Injective pushChar := by
  have hnodup : pushChars.Nodup := by decide
  intro i j h
  have hij := hnodup.injective_get h
  exact Fin.ext (Fin.mk.inj hij)

@[simp] theorem length_timeStampChars (n now : ℕ) : (timeStampChars n now).length = n := by
  induction n generalizing now with
  | zero => rfl
  | succ n ih => rw [timeStampChars, List.length_append, ih, List.length_singleton]

/-- **Different times have different characters**, below the time that needs
more of them. -/
theorem timeStampChars_injective {n a b : ℕ} (ha : a < 64 ^ n) (hb : b < 64 ^ n)
    (h : timeStampChars n a = timeStampChars n b) : a = b := by
  induction n generalizing a b with
  | zero =>
    rw [pow_zero] at ha hb
    omega
  | succ n ih =>
    rw [pow_succ] at ha hb
    obtain ⟨hhigh, hlow⟩ := List.append_inj h (by simp)
    have hquot : a / 64 = b / 64 := ih (by omega) (by omega) hhigh
    have hrem : a % 64 = b % 64 := congrArg Fin.val (pushChar_injective (List.cons.inj hlow).1)
    omega

/-- The first eight characters of an id are those of its time. -/
theorem take_get (self : State) (now : ℕ) (random : List (Fin 64)) :
    (get self now random).1.toList.take 8 = timeStampChars 8 now := by
  rw [get, String.toList_ofList, List.take_left' (length_timeStampChars 8 now)]

/-! ## The ids one process gives -/

/-- The number a random part counts, its last character the lowest digit. -/
def randValue (randChars : List (Fin 64)) : ℕ :=
  Nat.ofDigits 64 (randChars.reverse.map Fin.val)

@[simp] theorem length_increment (is : List (Fin 64)) : (increment is).length = is.length := by
  induction is with
  | nil => rfl
  | cons i is ih =>
    rw [increment]
    split
    · rw [List.length_cons, ih, List.length_cons]
    · rfl

/-- **The next random part counts one more**, short of the last. -/
theorem ofDigits_increment {is : List (Fin 64)} (h : ∃ i ∈ is, i ≠ 63) :
    Nat.ofDigits 64 ((increment is).map Fin.val) = Nat.ofDigits 64 (is.map Fin.val) + 1 := by
  induction is with
  | nil =>
    obtain ⟨i, hi, -⟩ := h
    exact absurd hi List.not_mem_nil
  | cons i is ih =>
    rw [increment]
    split
    next hlast =>
      -- a carry: the digit starts again and the next one counts
      have hrest : ∃ j ∈ is, j ≠ 63 := by
        obtain ⟨j, hj, hne⟩ := h
        rcases List.mem_cons.1 hj with rfl | hj
        exacts [absurd hlast hne, ⟨j, hj, hne⟩]
      rw [List.map_cons, List.map_cons, Nat.ofDigits_cons, Nat.ofDigits_cons, ih hrest, hlast]
      have hzero : ((0 : Fin 64) : ℕ) = 0 := rfl
      have htop : ((63 : Fin 64) : ℕ) = 63 := rfl
      rw [hzero, htop]
      omega
    next hlast =>
      have hone : ((i + 1 : Fin 64) : ℕ) = i + 1 := by
        rw [Fin.val_add_one_of_lt']
        have hne : (i : ℕ) ≠ 63 := fun heq => hlast (Fin.ext heq)
        omega
      rw [List.map_cons, List.map_cons, Nat.ofDigits_cons, Nat.ofDigits_cons, hone]
      omega

theorem randValue_injective {a b : List (Fin 64)} (hlen : a.length = b.length)
    (h : randValue a = randValue b) : a = b := by
  have hdigits : ∀ is : List (Fin 64), ∀ d ∈ is.map Fin.val, d < 64 := by
    intro is d hd
    obtain ⟨i, -, rfl⟩ := List.mem_map.1 hd
    exact i.isLt
  have hmap := Nat.ofDigits_inj_of_len_eq (by decide) (by simpa using hlen) (hdigits a.reverse)
    (hdigits b.reverse) h
  exact List.reverse_injective (List.map_injective_iff.2 Fin.val_injective hmap)

/-- The next id comes after those before: the time has eight characters and
has not gone back, and where it stands still the count is not at its end. -/
def State.Advances (self : State) (now : ℕ) : Prop :=
  now < 64 ^ 8 ∧ (self.lastPushTime < now ∨
    self.lastPushTime = now ∧ ∃ i ∈ self.lastRandChars, i ≠ 63)

instance (self : State) (now : ℕ) : Decidable (self.Advances now) :=
  inferInstanceAs (Decidable (now < 64 ^ 8 ∧ (self.lastPushTime < now ∨
    self.lastPushTime = now ∧ ∃ i ∈ self.lastRandChars, i ≠ 63)))

/-- **An id the process has come past**: of an earlier time, or of the time
it is at and no later in the count. -/
def State.Passed (self : State) (name : String) : Prop :=
  ∃ now randChars, name = String.ofList (timeStampChars 8 now ++ randChars.map pushChar) ∧
    (now < self.lastPushTime ∨ now = self.lastPushTime ∧
      randChars.length = self.lastRandChars.length ∧
      randValue randChars ≤ randValue self.lastRandChars)

/-- The id given is one the process has come past then. -/
theorem passed_get (self : State) (now : ℕ) (random : List (Fin 64)) :
    (get self now random).2.Passed (get self now random).1 :=
  ⟨now, _, rfl, .inr ⟨rfl, rfl, Nat.le_refl _⟩⟩

/-- **The next id is none of those before**, and those stay behind. -/
theorem State.Passed.get {self : State} {name : String} (h : self.Passed name) {now : ℕ}
    (hnow : self.Advances now) (random : List (Fin 64)) :
    name ≠ (FNextPushId.get self now random).1 ∧
      (FNextPushId.get self now random).2.Passed name := by
  obtain ⟨earlier, randChars, rfl, hbefore⟩ := h
  obtain ⟨hlt, hlater⟩ := hnow
  have hother : earlier < now →
      String.ofList (timeStampChars 8 earlier ++ randChars.map pushChar) ≠
        (FNextPushId.get self now random).1 := by
    intro hearlier heq
    have htake := congrArg (fun name : String => name.toList.take 8) heq
    simp only [take_get, String.toList_ofList, List.take_left' (length_timeStampChars 8 earlier)]
      at htake
    exact absurd (timeStampChars_injective (hearlier.trans hlt) hlt htake) hearlier.ne
  rcases hlater with hlater | ⟨rfl, hroom⟩
  · have hearlier : earlier < now := by
      rcases hbefore with hearlier | ⟨rfl, -, -⟩ <;> omega
    exact ⟨hother hearlier, earlier, randChars, rfl, .inl hearlier⟩
  · rcases hbefore with hearlier | ⟨rfl, hlen, hvalue⟩
    · exact ⟨hother hearlier, earlier, randChars, rfl, .inl hearlier⟩
    · -- the same millisecond: the count goes on
      have hnext : randValue (increment self.lastRandChars.reverse).reverse =
          randValue self.lastRandChars + 1 := by
        rw [randValue, List.reverse_reverse, randValue]
        refine ofDigits_increment ?_
        obtain ⟨i, hi, hne⟩ := hroom
        exact ⟨i, List.mem_reverse.2 hi, hne⟩
      have hget : FNextPushId.get self self.lastPushTime random =
          (String.ofList (timeStampChars 8 self.lastPushTime ++
            ((increment self.lastRandChars.reverse).reverse).map pushChar),
            ⟨self.lastPushTime, (increment self.lastRandChars.reverse).reverse⟩) := by
        rw [FNextPushId.get, if_pos rfl]
      rw [hget]
      refine ⟨fun heq => ?_, self.lastPushTime, randChars, rfl, .inr ⟨rfl, by simp [hlen], ?_⟩⟩
      · have hrand := List.append_cancel_left (String.ofList_injective heq)
        rw [List.map_injective_iff.2 pushChar_injective hrand] at hvalue
        omega
      · exact hvalue.trans ((Nat.le_succ _).trans_eq hnext.symm)

/-- The ids given one after another. -/
def gets : State → List (ℕ × List (Fin 64)) → List String
  | _, [] => []
  | self, (now, random) :: calls =>
    (get self now random).1 :: gets (get self now random).2 calls

/-- Each call comes after those before. -/
def AllAdvance : State → List (ℕ × List (Fin 64)) → Prop
  | _, [] => True
  | self, (now, random) :: calls =>
    self.Advances now ∧ AllAdvance (get self now random).2 calls

/-- **The ids of one process differ**, those of one millisecond included,
where its time does not go back and no count runs over. -/
theorem nodup_gets {self : State} {calls : List (ℕ × List (Fin 64))}
    (h : AllAdvance self calls) : (gets self calls).Nodup := by
  have hnew : ∀ {self : State} {calls : List (ℕ × List (Fin 64))} {name : String},
      AllAdvance self calls → self.Passed name → name ∉ gets self calls := by
    intro self calls name h hpassed
    induction calls generalizing self with
    | nil => exact List.not_mem_nil
    | cons call calls ih =>
      obtain ⟨hne, hpassed⟩ := hpassed.get h.1 call.2
      intro hmem
      rcases List.mem_cons.1 hmem with heq | hmem
      exacts [hne heq, ih h.2 hpassed hmem]
  induction calls generalizing self with
  | nil => exact List.nodup_nil
  | cons call calls ih =>
    exact List.nodup_cons.2 ⟨hnew h.2 (passed_get self call.1 call.2), ih h.2⟩

end FNextPushId

end DevicesTracker
