import Mathlib.Data.List.Nodup
/-!
# Dictionaries as lists of entries

A dictionary is a list of keys with values, read by `List.lookup`; an
entry is removed by filtering its key out and replaced by a new one at
the front or the end. These are the laws of reading after each.
-/

universe u v

namespace Dictionary

variable {K : Type u} {V : Type v} [BEq K] [LawfulBEq K] [DecidableEq K]

theorem lookup_cons (k k' : K) (v : V) (dict : List (K × V)) :
    ((k', v) :: dict).lookup k = if k = k' then some v else dict.lookup k := by
  by_cases h : k = k'
  · simp [h]
  · simp [List.lookup_cons, h, beq_eq_false_iff_ne.2 h]

theorem lookup_removed (k k' : K) (dict : List (K × V)) :
    (dict.filter fun e => e.1 ≠ k).lookup k' = if k' = k then none else dict.lookup k' := by
  induction dict with
  | nil => split <;> rfl
  | cons e dict ih =>
    obtain ⟨k₀, v⟩ := e
    by_cases hk : k₀ = k
    · rw [List.filter_cons_of_neg (by simp [hk]), ih, lookup_cons, hk]
      split <;> rfl
    · rw [List.filter_cons_of_pos (by simp [hk]), lookup_cons, lookup_cons, ih]
      by_cases hk' : k' = k₀
      · have hne : ¬ k' = k := by rw [hk']; exact hk
        rw [if_pos hk', if_neg hne, if_pos hk']
      · rw [if_neg hk', if_neg hk']

theorem lookup_removed_of_ne {k k' : K} (h : k' ≠ k) (dict : List (K × V)) :
    (dict.filter fun e => e.1 ≠ k).lookup k' = dict.lookup k' := by
  rw [lookup_removed, if_neg h]

theorem lookup_removed_eq_some {k k' : K} {dict : List (K × V)} {v : V} :
    (dict.filter fun e => e.1 ≠ k).lookup k' = some v ↔ k' ≠ k ∧ dict.lookup k' = some v := by
  rw [lookup_removed]
  by_cases hk : k' = k <;> simp [hk]

theorem lookup_eq_none_of_notMem {k : K} {dict : List (K × V)} (h : k ∉ dict.map Prod.fst) :
    dict.lookup k = none := by
  induction dict with
  | nil => rfl
  | cons e dict ih =>
    rw [List.map_cons, List.mem_cons, not_or] at h
    rw [lookup_cons, if_neg h.1, ih h.2]

omit [DecidableEq K] in
theorem exists_lookup {k : K} {dict : List (K × V)} (h : k ∈ dict.map Prod.fst) :
    ∃ v, dict.lookup k = some v := by
  refine Option.ne_none_iff_exists'.1 fun hnone => ?_
  obtain ⟨e, he, rfl⟩ := List.mem_map.1 h
  exact bne_iff_ne.1 (List.lookup_eq_none_iff.1 hnone e he) rfl

theorem mem_of_lookup {k : K} {v : V} {dict : List (K × V)} (h : dict.lookup k = some v) :
    (k, v) ∈ dict := by
  induction dict with
  | nil => cases h
  | cons e dict ih =>
    obtain ⟨k', v'⟩ := e
    rw [lookup_cons] at h
    by_cases hk : k = k'
    · rw [if_pos hk] at h
      obtain rfl := Option.some.inj h
      rw [hk]
      exact List.mem_cons_self
    · rw [if_neg hk] at h
      exact List.mem_cons_of_mem _ (ih h)

/-- Of distinct keys each has the value it is stored with. -/
theorem lookup_of_mem {dict : List (K × V)} (hnodup : (dict.map Prod.fst).Nodup) {k : K} {v : V}
    (h : (k, v) ∈ dict) : dict.lookup k = some v := by
  induction dict with
  | nil => exact absurd h List.not_mem_nil
  | cons e dict ih =>
    obtain ⟨k', v'⟩ := e
    rw [List.map_cons, List.nodup_cons] at hnodup
    rw [lookup_cons]
    rcases List.mem_cons.1 h with heq | h
    · obtain ⟨rfl, rfl⟩ := Prod.mk.inj heq
      exact if_pos rfl
    · have hmem : k ∈ dict.map Prod.fst := List.mem_map.2 ⟨(k, v), h, rfl⟩
      have hne : k ≠ k' := fun hk => hnodup.1 (hk ▸ hmem)
      rw [if_neg hne, ih hnodup.2 h]

omit [BEq K] [LawfulBEq K] in
theorem mem_removed {k : K} {e : K × V} {dict : List (K × V)} :
    e ∈ (dict.filter fun e => e.1 ≠ k) ↔ e ∈ dict ∧ e.1 ≠ k := by
  rw [List.mem_filter, decide_eq_true_iff]

omit [BEq K] [LawfulBEq K] in
theorem nodup_removed {dict : List (K × V)} (h : (dict.map Prod.fst).Nodup) (k : K) :
    ((dict.filter fun e => e.1 ≠ k).map Prod.fst).Nodup :=
  h.sublist (List.filter_sublist.map _)

omit [BEq K] [LawfulBEq K] in
/-- What is not a key need not be removed. -/
theorem removed_eq_self {k : K} {dict : List (K × V)} (h : k ∉ dict.map Prod.fst) :
    (dict.filter fun e => e.1 ≠ k) = dict := by
  refine List.filter_eq_self.2 fun e he => decide_eq_true ?_
  rintro rfl
  exact h (List.mem_map_of_mem he)

/-- A dictionary is any of its entries and the others. -/
theorem perm_cons_removed {dict : List (K × V)} (hnodup : (dict.map Prod.fst).Nodup) {k : K}
    {v : V} (h : dict.lookup k = some v) :
    dict.Perm ((k, v) :: dict.filter fun e => e.1 ≠ k) := by
  induction dict with
  | nil => cases h
  | cons e dict ih =>
    obtain ⟨k', v'⟩ := e
    rw [List.map_cons, List.nodup_cons] at hnodup
    rw [lookup_cons] at h
    by_cases hk : k = k'
    · subst hk
      rw [if_pos rfl] at h
      obtain rfl := Option.some.inj h
      rw [List.filter_cons_of_neg (by simp), removed_eq_self hnodup.1]
    · rw [if_neg hk] at h
      rw [List.filter_cons_of_pos (by simp [Ne.symm hk])]
      exact ((ih hnodup.2 h).cons _).trans (List.Perm.swap _ _ _)

omit [BEq K] [LawfulBEq K] in
/-- To erase one of several entries with distinct keys is to filter its key out. -/
theorem eraseIdx_eq_removed {α : Type u} {f : α → K} {l : List α} (hnodup : (l.map f).Nodup)
    {i : Nat} (hi : i < l.length) : l.eraseIdx i = l.filter fun x => f x ≠ f l[i] := by
  induction l generalizing i with
  | nil => exact absurd hi (Nat.not_lt_zero i)
  | cons x l ih =>
    rw [List.map_cons, List.nodup_cons] at hnodup
    cases i with
    | zero =>
      have hothers : (l.filter fun y => f y ≠ f x) = l := by
        refine List.filter_eq_self.2 fun y hy => decide_eq_true ?_
        intro heq
        exact hnodup.1 (heq ▸ List.mem_map_of_mem hy)
      rw [List.eraseIdx_cons_zero, List.getElem_cons_zero, List.filter_cons_of_neg (by simp),
        hothers]
    | succ i =>
      have hi' : i < l.length := Nat.lt_of_succ_lt_succ hi
      have hne : f x ≠ f l[i] := by
        intro heq
        exact hnodup.1 (heq ▸ List.mem_map_of_mem (List.getElem_mem hi'))
      rw [List.eraseIdx_cons_succ, List.getElem_cons_succ, List.filter_cons_of_pos (by simp [hne]),
        ih hnodup.2 hi']

/-- An entry at the end under a new key. -/
theorem lookup_concat_of_ne {k k' : K} (h : k' ≠ k) (v : V) (dict : List (K × V)) :
    (dict ++ [(k, v)]).lookup k' = dict.lookup k' := by
  rw [List.lookup_append, lookup_cons, if_neg h]
  exact Option.or_none

theorem lookup_concat_self {k : K} {dict : List (K × V)} (h : k ∉ dict.map Prod.fst) (v : V) :
    (dict ++ [(k, v)]).lookup k = some v := by
  rw [List.lookup_append, lookup_eq_none_of_notMem h, lookup_cons, if_pos rfl, Option.none_or]

end Dictionary
