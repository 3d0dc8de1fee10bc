import Mathlib.Data.List.Dedup
import Mathlib.Data.List.Perm.Subperm
import DevicesTracker.Common.Dictionary
import DevicesTracker.Common.Leaves
/-!
# The children of a keyed tree

`keys` lists the keys a tree has a child under, each once, and `isEqual`
compares two trees child by child: as many children, and an equal one
under each key. For pruned trees that is to have the same leaves
(`isEqual_iff`), so what `Alike` says can be decided.
-/

universe u v

namespace KeyedTree

variable {K : Type u} {V : Type v} [DecidableEq K]

/-- The keys of the children, each once. -/
def keys : KeyedTree K V → List K
  | leaf _ => []
  | node cs => (cs.map Prod.fst).dedup

theorem nodup_keys (t : KeyedTree K V) : t.keys.Nodup := by
  cases t with
  | leaf v => exact List.nodup_nil
  | node cs => exact List.nodup_dedup _

/-- **A pruned tree has a child under a key exactly when it lists the key.** -/
theorem mem_keys_iff {t : KeyedTree K V} (h : Pruned t) {k : K} :
    k ∈ t.keys ↔ (child k t).isEmpty = false := by
  cases h with
  | leaf v => exact iff_of_false List.not_mem_nil (by simp)
  | @node cs hne hcs =>
    rw [keys, List.mem_dedup, child]
    by_cases hk : k ∈ cs.map Prod.fst
    · obtain ⟨t, ht⟩ := Dictionary.exists_lookup hk
      refine iff_of_true hk ?_
      rw [ht]
      exact hne (k, t) (Dictionary.mem_of_lookup ht)
    · refine iff_of_false hk ?_
      rw [Dictionary.lookup_eq_none_of_notMem hk]
      exact fun h => Bool.noConfusion h

/-! ## Comparing -/

/-- Nodes are alike when their children are. -/
theorem alike_node_iff {cs ds : List (K × KeyedTree K V)} :
    Alike (node cs) (node ds) ↔ ∀ k, Alike (child k (node cs)) (child k (node ds)) := by
  constructor
  · intro h k
    exact h.get [k]
  · intro h
    funext p
    cases p with
    | nil => rfl
    | cons k p => exact congrFun (h k) p

/-- The child under a key, where it is stored. -/
theorem child_of_lookup {cs : List (K × KeyedTree K V)} {k : K} {t : KeyedTree K V}
    (h : cs.lookup k = some t) : child k (node cs) = t := by
  rw [child, h, Option.getD_some]

section Compare

variable [DecidableEq V]

mutual

/-- Two trees are equal when they have as many children and an equal one
under each key. -/
def isEqual : KeyedTree K V → KeyedTree K V → Bool
  | leaf v, leaf w => v = w
  | leaf _, node _ => false
  | node _, leaf _ => false
  | node cs, node ds =>
    (keys (node cs)).length = (keys (node ds)).length && childrenEqual [] cs (node ds)

/-- The children, but for those under keys seen before. -/
def childrenEqual : List K → List (K × KeyedTree K V) → KeyedTree K V → Bool
  | _, [], _ => true
  | seen, (k, t) :: rest, other =>
    (k ∈ seen || isEqual t (child k other)) && childrenEqual (k :: seen) rest other

end

theorem childrenEqual_iff {cs : List (K × KeyedTree K V)} {seen : List K}
    {other : KeyedTree K V} :
    childrenEqual seen cs other = true ↔
      ∀ k t, k ∉ seen → cs.lookup k = some t → isEqual t (child k other) = true := by
  induction cs generalizing seen with
  | nil => exact iff_of_true rfl fun k t _ h => by cases h
  | cons c cs ih =>
    obtain ⟨k', t'⟩ := c
    simp only [childrenEqual, Bool.and_eq_true, Bool.or_eq_true, decide_eq_true_iff, ih,
      List.lookup_cons]
    constructor
    · rintro ⟨hfirst, hrest⟩ k t hk hlookup
      by_cases hkk : k = k'
      · subst hkk
        rw [beq_self_eq_true] at hlookup
        rw [← Option.some.inj hlookup]
        exact hfirst.resolve_left hk
      · rw [beq_false_of_ne hkk] at hlookup
        exact hrest k t (List.not_mem_cons_of_ne_of_not_mem hkk hk) hlookup
    · intro hall
      refine ⟨?_, fun k t hk hlookup => ?_⟩
      · by_cases hseen : k' ∈ seen
        · exact Or.inl hseen
        · exact Or.inr (hall k' t' hseen (by rw [beq_self_eq_true]))
      · rw [List.mem_cons, not_or] at hk
        refine hall k t hk.2 ?_
        rw [beq_false_of_ne hk.1]
        exact hlookup

/-- **Pruned trees are equal exactly when they have the same leaves.** -/
theorem isEqual_iff {s t : KeyedTree K V} (hs : Pruned s) (ht : Pruned t) :
    isEqual s t = true ↔ Alike s t := by
  induction hs generalizing t with
  | leaf v =>
    cases t with
    | leaf w =>
      rw [isEqual, decide_eq_true_iff]
      constructor
      · rintro rfl
        rfl
      · intro h
        exact Option.some.inj (congrFun h [])
    | node ds =>
      refine iff_of_false Bool.false_ne_true fun h => ?_
      exact absurd (congrFun h []) (Option.some_ne_none v)
  | @node cs hne hcs ih =>
    have hnode := Pruned.node hne hcs
    cases t with
    | leaf w =>
      refine iff_of_false Bool.false_ne_true fun h => ?_
      exact absurd (congrFun h []).symm (Option.some_ne_none w)
    | node ds =>
      rw [isEqual, Bool.and_eq_true, decide_eq_true_iff, childrenEqual_iff, alike_node_iff]
      constructor
      · rintro ⟨hlength, hequal⟩
        -- as many keys, and all of the one's are the other's
        have hchild : ∀ k ∈ keys (node cs), Alike (child k (node cs)) (child k (node ds)) := by
          intro k hk
          obtain ⟨u, hu⟩ := Dictionary.exists_lookup (List.mem_dedup.1 hk)
          rw [child_of_lookup hu]
          exact (ih (k, u) (Dictionary.mem_of_lookup hu) (ht.child k)).1
            (hequal k u List.not_mem_nil hu)
        have hsubset : keys (node cs) ⊆ keys (node ds) := by
          intro k hk
          rw [mem_keys_iff ht, ← (hchild k hk).isEmpty_eq (hnode.child k) (ht.child k)]
          exact (mem_keys_iff hnode).1 hk
        have hperm : (keys (node cs)).Perm (keys (node ds)) :=
          ((nodup_keys _).subperm hsubset).perm_of_length_le (le_of_eq hlength.symm)
        intro k
        by_cases hk : k ∈ keys (node cs)
        · exact hchild k hk
        · have hk' : k ∉ keys (node ds) := fun h => hk (hperm.mem_iff.2 h)
          rw [mem_keys_iff hnode, Bool.not_eq_false] at hk
          rw [mem_keys_iff ht, Bool.not_eq_false] at hk'
          rw [eq_empty_of_isEmpty hk, eq_empty_of_isEmpty hk']
          exact Alike.refl _
      · intro h
        have hmem : ∀ k, k ∈ keys (node cs) ↔ k ∈ keys (node ds) := by
          intro k
          rw [mem_keys_iff hnode, mem_keys_iff ht, (h k).isEmpty_eq (hnode.child k) (ht.child k)]
        refine ⟨((List.perm_ext_iff_of_nodup (nodup_keys _) (nodup_keys _)).2 hmem).length_eq,
          fun k u _ hu => ?_⟩
        have hk := h k
        rw [child_of_lookup hu] at hk
        exact (ih (k, u) (Dictionary.mem_of_lookup hu) (ht.child k)).2 hk

end Compare

end KeyedTree
