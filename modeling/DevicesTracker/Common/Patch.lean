import Mathlib.Data.List.Infix
import Mathlib.Data.Nat.Notation
/-!
# Patches

A store is a function from places to values. A write, and a sequence of
writes, gives each place a value or leaves it alone, and does so whatever
the store was: it is a `Patch`. Doing one patch after another keeps, at
each place, the last value given. So a patch done twice is done once, and
patches that touch no common place may be done in either order.
`CaughtUp` is what a sender that starts again may rely on: to do once
more every patch from some point on leaves what the sequence leaves.
-/

universe u v

/-- **A patch**: at each place the value given there, or `none` where the
place is left alone. -/
def Patch (ι : Type u) (α : Type v) : Type max u v := ι → Option α

namespace Patch

variable {ι : Type u} {α : Type v}

@[ext] theorem ext {a b : Patch ι α} (h : ∀ i, a i = b i) : a = b := funext h

/-- The patch that leaves every place alone. -/
def skip : Patch ι α := fun _ => none

/-- One patch and then another. -/
def andThen (a b : Patch ι α) : Patch ι α := fun i => (b i).or (a i)

/-- The patch of a sequence, first one first. -/
def all : List (Patch ι α) → Patch ι α
  | [] => skip
  | a :: as => andThen a (all as)

/-- The store after a patch. -/
def apply (a : Patch ι α) (f : ι → α) : ι → α := fun i => (a i).getD (f i)

@[simp] theorem skip_apply (i : ι) : (skip : Patch ι α) i = none := rfl

@[simp] theorem andThen_apply (a b : Patch ι α) (i : ι) : a.andThen b i = (b i).or (a i) := rfl

@[simp] theorem skip_andThen (a : Patch ι α) : skip.andThen a = a := by
  ext i : 1
  simp

@[simp] theorem andThen_skip (a : Patch ι α) : a.andThen skip = a := by
  ext i : 1
  simp

theorem andThen_assoc (a b c : Patch ι α) :
    (a.andThen b).andThen c = a.andThen (b.andThen c) := by
  ext i : 1
  simp [Option.or_assoc]

@[simp] theorem all_nil : all ([] : List (Patch ι α)) = skip := rfl

@[simp] theorem all_cons (a : Patch ι α) (as : List (Patch ι α)) :
    all (a :: as) = a.andThen (all as) := rfl

theorem all_append (as bs : List (Patch ι α)) : all (as ++ bs) = (all as).andThen (all bs) := by
  induction as with
  | nil => simp
  | cons a as ih => rw [List.cons_append, all_cons, all_cons, ih, andThen_assoc]

theorem all_concat (as : List (Patch ι α)) (a : Patch ι α) :
    all (as ++ [a]) = (all as).andThen a := by
  rw [all_append, all_cons, all_nil, andThen_skip]

/-- A sequence leaves alone what each of its patches does. -/
theorem all_eq_none {as : List (Patch ι α)} {i : ι} (h : ∀ a ∈ as, a i = none) :
    all as i = none := by
  induction as with
  | nil => rfl
  | cons a as ih =>
    have hrest := ih fun b hb => h b (List.mem_cons_of_mem a hb)
    rw [all_cons, andThen_apply, hrest, h a List.mem_cons_self]
    rfl

theorem eq_none_of_all_eq_none {as : List (Patch ι α)} {i : ι} (h : all as i = none)
    {a : Patch ι α} (ha : a ∈ as) : a i = none := by
  induction as with
  | nil => exact absurd ha List.not_mem_nil
  | cons b as ih =>
    rw [all_cons, andThen_apply, Option.or_eq_none_iff] at h
    rcases List.mem_cons.1 ha with rfl | ha
    · exact h.2
    · exact ih h.1 ha

@[simp] theorem apply_skip (f : ι → α) : skip.apply f = f := rfl

theorem apply_andThen (a b : Patch ι α) (f : ι → α) :
    (a.andThen b).apply f = b.apply (a.apply f) := by
  funext i
  simp only [apply, andThen_apply]
  cases b i <;> rfl

/-! ## Doing the end of a sequence again -/

/-- A place that the end of a sequence gives a value has that value. -/
theorem all_of_suffix {us ws : List (Patch ι α)} (h : us <:+ ws) {i : ι} {x : α}
    (hx : all us i = some x) : all ws i = some x := by
  obtain ⟨vs, rfl⟩ := h
  rw [all_append, andThen_apply, hx, Option.some_or]

/-- **Caught up to `n`**: a place with the value `y`, on which the patches
of a sequence from the `n`-th on are done, is left as the whole sequence
leaves it when it starts with `x`. -/
def CaughtUp (ws : List (Patch ι α)) (n : ℕ) (i : ι) (x y : α) : Prop :=
  (all (ws.drop n) i).getD y = (all ws i).getD x

theorem caughtUp_zero (ws : List (Patch ι α)) (i : ι) (x : α) : CaughtUp ws 0 i x x := rfl

theorem caughtUp_length {ws : List (Patch ι α)} {n : ℕ} (hn : ws.length ≤ n) {i : ι} {x y : α} :
    CaughtUp ws n i x y ↔ y = (all ws i).getD x := by
  rw [CaughtUp, List.drop_of_length_le hn]
  rfl

/-- **It may be done again from any point before**: what the longer end
gives a value, the whole sequence does too, and what it leaves alone, the
shorter end does. -/
theorem CaughtUp.mono {ws : List (Patch ι α)} {m n : ℕ} {i : ι} {x y : α}
    (h : CaughtUp ws n i x y) (hmn : m ≤ n) : CaughtUp ws m i x y := by
  have hlong : ws.drop m <:+ ws := List.drop_suffix m ws
  have hshort : ws.drop n <:+ ws.drop m := by
    have hsplit : ws.drop n = (ws.drop m).drop (n - m) := by
      rw [List.drop_drop]
      congr 1
      omega
    rw [hsplit]
    exact List.drop_suffix _ _
  unfold CaughtUp at h ⊢
  cases hm : all (ws.drop m) i with
  | some z => rw [all_of_suffix hlong hm]; rfl
  | none =>
    have hn : all (ws.drop n) i = none := by
      cases hn : all (ws.drop n) i with
      | none => rfl
      | some z => exact absurd (all_of_suffix hshort hn) (by simp [hm])
    rw [hn] at h
    exact h

/-- One patch more at the end of the sequence. -/
theorem CaughtUp.concat {ws : List (Patch ι α)} {n : ℕ} {i : ι} {x y : α}
    (h : CaughtUp ws n i x y) (hn : n ≤ ws.length) (w : Patch ι α) :
    CaughtUp (ws ++ [w]) n i x y := by
  unfold CaughtUp at h ⊢
  rw [List.drop_append_of_le_length hn, all_concat, all_concat, andThen_apply, andThen_apply]
  cases w i with
  | some z => rfl
  | none => exact h

/-- The next patch is done. -/
theorem CaughtUp.step {ws : List (Patch ι α)} {n : ℕ} {i : ι} {x y : α} {w : Patch ι α}
    (h : CaughtUp ws n i x y) (hw : ws[n]? = some w) :
    CaughtUp ws (n + 1) i x ((w i).getD y) := by
  obtain ⟨hn, hget⟩ := List.getElem?_eq_some_iff.1 hw
  have hsplit : ws.drop n = w :: ws.drop (n + 1) := by rw [← hget, List.cons_getElem_drop_succ]
  unfold CaughtUp at h ⊢
  rw [hsplit, all_cons, andThen_apply] at h
  rw [← h]
  cases all (ws.drop (n + 1)) i <;> rfl

/-- **Other patches in place of the ones left**: if they leave alone no more
places, a place that was caught up is left as by the patches done and them. -/
theorem CaughtUp.overlay {ws : List (Patch ι α)} {n : ℕ} {i : ι} {x y : α}
    (h : CaughtUp ws n i x y) (ps : List (Patch ι α))
    (hps : all ps i = none → all (ws.drop n) i = none) :
    (all ps i).getD y = (all (ws.take n ++ ps) i).getD x := by
  rw [all_append, andThen_apply]
  cases hp : all ps i with
  | some z => rfl
  | none =>
    have hdrop := hps hp
    have hall : all ws i = all (ws.take n) i := by
      rw [← List.take_append_drop n ws, all_append, andThen_apply, hdrop, Option.none_or,
        List.take_append_drop]
    unfold CaughtUp at h
    rw [hdrop, hall] at h
    exact h

end Patch
