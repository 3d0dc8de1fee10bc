import Mathlib.Data.List.Infix
/-!
# Machines and their runs

A machine is an initial state and a partial step function. A run is given
by its trace, written newest action first, so that a property of a run is
a recursion on the trace and one more step is one more `cons`. The rules
below are the ones the developments over a machine use: the inductions
over a run, the runs inside a run, and `throughout_iff_everyStep`, which
turns "the property holds in every state passed" into a condition on the
steps taken.
-/

universe u v w u' v'

/-- **A machine**: where it starts, and what an action makes of a state,
`none` where the action is not possible. -/
structure Machine (σ : Type u) (α : Type v) where
  /-- The state before any action. -/
  init : σ
  step : σ → α → Option σ

namespace Machine

variable {σ : Type u} {α : Type v} (M : Machine σ α)

/-- The state a trace leads to, if each of its actions was possible. -/
def run : List α → Option σ
  | [] => some M.init
  | a :: tr => (run tr).bind fun s => M.step s a

variable {M}

/-- A run of one action more is a run and a step. -/
theorem run_cons_eq_some {a : α} {tr : List α} {s' : σ} :
    M.run (a :: tr) = some s' ↔ ∃ s, M.run tr = some s ∧ M.step s a = some s' := by
  simp only [run, Option.bind_eq_some_iff]

/-- **Induction over a run**: what holds at the start and is kept by each
step holds at the end. -/
theorem run_induction {P : List α → σ → Prop} (hinit : P [] M.init)
    (hstep : ∀ {tr s a s'}, M.run tr = some s → P tr s → M.step s a = some s' → P (a :: tr) s')
    {tr : List α} {s : σ} (h : M.run tr = some s) : P tr s := by
  induction tr generalizing s with
  | nil => exact (Option.some.inj h) ▸ hinit
  | cons a tr ih =>
    obtain ⟨s₀, h₀, ha⟩ := run_cons_eq_some.1 h
    exact hstep h₀ (ih h₀) ha

/-! ## Properties of every state passed, and of every step taken -/

variable (M)

/-- `P` holds in every state the run passes, the first and the last
included. -/
def Throughout (P : List α → σ → Prop) (tr : List α) : Prop :=
  ∀ tr' s, tr' <:+ tr → M.run tr' = some s → P tr' s

/-- `Q` holds of every step of the run: of the trace and the state before
it and of its action. -/
def EveryStep (Q : List α → σ → α → Prop) : List α → Prop
  | [] => True
  | a :: tr => EveryStep Q tr ∧ ∀ s, M.run tr = some s → Q tr s a

variable {M}

theorem Throughout.last {P : List α → σ → Prop} {tr : List α} {s : σ}
    (h : M.Throughout P tr) (hs : M.run tr = some s) : P tr s :=
  h tr s (List.suffix_refl tr) hs

theorem throughout_nil {P : List α → σ → Prop} : M.Throughout P [] ↔ P [] M.init := by
  constructor
  · exact fun h => h.last rfl
  · intro h tr s hsuf hs
    obtain rfl := List.suffix_nil.1 hsuf
    exact (Option.some.inj hs) ▸ h

theorem throughout_cons {P : List α → σ → Prop} {a : α} {tr : List α} :
    M.Throughout P (a :: tr) ↔
      M.Throughout P tr ∧ ∀ s, M.run (a :: tr) = some s → P (a :: tr) s := by
  constructor
  · exact fun h => ⟨fun tr' s hsuf => h tr' s (hsuf.trans (List.suffix_cons a tr)),
      fun s hs => h.last hs⟩
  · rintro ⟨h, hlast⟩ tr' s hsuf hs
    rcases List.suffix_cons_iff.1 hsuf with rfl | hsuf
    · exact hlast s hs
    · exact h tr' s hsuf hs

/-- A promise about the steps of a run gives what it gives step by step. -/
theorem EveryStep.imp {Q Q' : List α → σ → α → Prop} {tr : List α} (h : M.EveryStep Q tr)
    (hstep : ∀ {tr s a}, M.run tr = some s → M.EveryStep Q tr → Q tr s a → Q' tr s a) :
    M.EveryStep Q' tr := by
  induction tr with
  | nil => trivial
  | cons a tr ih =>
    obtain ⟨hbefore, hlast⟩ := h
    exact ⟨ih hbefore, fun s hs => hstep hs hbefore (hlast s hs)⟩

/-- A promise about the steps of a run is one about those of its beginning. -/
theorem EveryStep.of_suffix {Q : List α → σ → α → Prop} {tr₀ tr : List α} (h : M.EveryStep Q tr)
    (hsuf : tr₀ <:+ tr) : M.EveryStep Q tr₀ := by
  induction tr with
  | nil => exact List.suffix_nil.1 hsuf ▸ h
  | cons a tr ih =>
    rcases List.suffix_cons_iff.1 hsuf with rfl | hshort
    exacts [h, ih h.1 hshort]

/-- A promise kept by the actions a run goes on with. -/
theorem EveryStep.append {Q : List α → σ → α → Prop} {tr more : List α} (h : M.EveryStep Q tr)
    (hmore : ∀ a ∈ more, ∀ tr s, Q tr s a) : M.EveryStep Q (more ++ tr) := by
  induction more with
  | nil => exact h
  | cons a more ih =>
    exact ⟨ih fun b hb => hmore b (List.mem_cons_of_mem a hb),
      fun s _ => hmore a List.mem_cons_self (more ++ tr) s⟩

/-- **From the states passed to the steps taken.** Where a step from a run
that has kept `P` keeps it exactly when `Q` holds of the step, a run keeps
`P` throughout exactly when `Q` holds of each of its steps. -/
theorem throughout_iff_everyStep {P : List α → σ → Prop} {Q : List α → σ → α → Prop}
    (hinit : P [] M.init)
    (hstep : ∀ {tr s a s'}, M.run tr = some s → M.Throughout P tr → M.step s a = some s' →
      (P (a :: tr) s' ↔ Q tr s a))
    {tr : List α} {s : σ} (h : M.run tr = some s) :
    M.Throughout P tr ↔ M.EveryStep Q tr := by
  induction tr generalizing s with
  | nil => exact ⟨fun _ => trivial, fun _ => throughout_nil.2 hinit⟩
  | cons a tr ih =>
    obtain ⟨s₀, h₀, ha⟩ := run_cons_eq_some.1 h
    rw [throughout_cons, EveryStep, ← ih h₀]
    refine and_congr_right fun hP => ?_
    -- both sides speak of the one state before the step and the one after it
    constructor
    · intro hlast s₁ h₁
      obtain rfl : s₀ = s₁ := Option.some.inj (h₀.symm.trans h₁)
      exact (hstep h₀ hP ha).1 (hlast s h)
    · intro hQ s₁ h₁
      obtain rfl : s = s₁ := Option.some.inj (h.symm.trans h₁)
      exact (hstep h₀ hP ha).2 (hQ s₀ h₀)

/-- **Induction over a run with a promise about its steps**, from any run
inside it: what holds there and is kept by each step of which `Q` holds
holds at the end. -/
theorem run_induction_from {P : List α → σ → Prop} {Q : List α → σ → α → Prop} {tr₀ : List α}
    (hbase : ∀ s, M.run tr₀ = some s → P tr₀ s)
    (hstep : ∀ {tr s a s'}, M.run tr = some s → Q tr s a → P tr s → M.step s a = some s' →
      P (a :: tr) s')
    {tr : List α} {s : σ} (hsuf : tr₀ <:+ tr) (hQ : M.EveryStep Q tr) (h : M.run tr = some s) :
    P tr s := by
  induction tr generalizing s with
  | nil =>
    obtain rfl := List.suffix_nil.1 hsuf
    exact hbase s h
  | cons a tr ih =>
    rcases List.suffix_cons_iff.1 hsuf with rfl | hshort
    · exact hbase s h
    · obtain ⟨s₀, h₀, ha⟩ := run_cons_eq_some.1 h
      exact hstep h₀ (hQ.2 s₀ h₀) (ih hshort hQ.1 h₀) ha

section GoOn

variable (M)

/-- **A run can go on** by some actions, keeping a promise about its steps,
to a state with a property. -/
def CanGoOn (Q : List α → σ → α → Prop) (R : α → Prop) (P : σ → Prop) (tr : List α) : Prop :=
  ∃ more s, (∀ a ∈ more, R a) ∧ M.run (more ++ tr) = some s ∧ M.EveryStep Q (more ++ tr) ∧ P s

variable {M} {Q : List α → σ → α → Prop} {R : α → Prop} {P P' : σ → Prop} {tr : List α} {s s' : σ}

theorem canGoOn_of_now (h : M.run tr = some s) (hQ : M.EveryStep Q tr) (hP : P s) :
    M.CanGoOn Q R P tr :=
  ⟨[], s, fun _ ha => absurd ha List.not_mem_nil, h, hQ, hP⟩

/-- One step, and then on. -/
theorem CanGoOn.step {a : α} (h : M.run tr = some s) (hQ : M.EveryStep Q tr)
    (hstep : M.step s a = some s') (hR : R a) (ha : Q tr s a)
    (hrest : M.run (a :: tr) = some s' → M.EveryStep Q (a :: tr) → M.CanGoOn Q R P (a :: tr)) :
    M.CanGoOn Q R P tr := by
  have hrun : M.run (a :: tr) = some s' := run_cons_eq_some.2 ⟨s, h, hstep⟩
  have hevery : M.EveryStep Q (a :: tr) := by
    refine ⟨hQ, fun s₀ h₀ => ?_⟩
    obtain rfl : s = s₀ := Option.some.inj (h.symm.trans h₀)
    exact ha
  obtain ⟨more, t, hmore, ht, hevery', hP⟩ := hrest hrun hevery
  have hsplit : more ++ a :: tr = (more ++ [a]) ++ tr := List.append_cons more a tr
  refine ⟨more ++ [a], t, fun b hb => ?_, hsplit ▸ ht, hsplit ▸ hevery', hP⟩
  rcases List.mem_append.1 hb with hb | hb
  · exact hmore b hb
  · rw [List.mem_singleton.1 hb]
    exact hR

/-- On to one state, and from there on to another. -/
theorem CanGoOn.trans (h : M.CanGoOn Q R P tr)
    (hrest : ∀ {tr s}, M.run tr = some s → M.EveryStep Q tr → P s → M.CanGoOn Q R P' tr) :
    M.CanGoOn Q R P' tr := by
  obtain ⟨more, s, hmore, hs, hevery, hP⟩ := h
  obtain ⟨more', t, hmore', ht, hevery', hP'⟩ := hrest hs hevery hP
  rw [← List.append_assoc] at ht hevery'
  refine ⟨more' ++ more, t, fun a ha => ?_, ht, hevery', hP'⟩
  rcases List.mem_append.1 ha with ha | ha
  exacts [hmore' a ha, hmore a ha]

end GoOn

/-! ## Machines of several parties -/

/-- What one party did of a trace of several parties' actions. -/
def own {ι : Type w} [DecidableEq ι] (i : ι) : List (ι × α) → List α
  | [] => []
  | (j, a) :: tr => if j = i then a :: own i tr else own i tr

@[simp] theorem own_nil {ι : Type w} [DecidableEq ι] (i : ι) : own i ([] : List (ι × α)) = [] := rfl

@[simp] theorem own_cons_self {ι : Type w} [DecidableEq ι] (i : ι) (a : α) (tr : List (ι × α)) :
    own i ((i, a) :: tr) = a :: own i tr := if_pos rfl

theorem own_cons_of_ne {ι : Type w} [DecidableEq ι] {i j : ι} (h : j ≠ i) (a : α)
    (tr : List (ι × α)) : own i ((j, a) :: tr) = own i tr := if_neg h

end Machine
