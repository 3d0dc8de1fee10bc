import DevicesTracker.Common.KeyedTree
import DevicesTracker.Common.Patch
/-!
# The leaves of a keyed tree

What a tree holds is the values at its leaves, each at its path; the
order in which a node lists its children is not part of it. `leafAt`
reads a tree so, `Alike` is to have the same leaves, and `setPatch` is
what a write at a path does to the leaves: a patch, whatever the tree was
(`leafAt_set`). The laws of patches are then laws of writes.
-/

universe u v

namespace KeyedTree

variable {K : Type u} {V : Type v}

/-- The value of a leaf. -/
def value : KeyedTree K V → Option V
  | leaf v => some v
  | node _ => none

@[simp] theorem value_leaf (v : V) : (leaf v : KeyedTree K V).value = some v := rfl

@[simp] theorem value_node (cs : List (K × KeyedTree K V)) : (node cs).value = none := rfl

@[simp] theorem value_empty : (empty : KeyedTree K V).value = none := rfl

section Edit

variable [DecidableEq K]

/-- The value of the leaf at a path, if there is one. -/
def leafAt (t : KeyedTree K V) (p : List K) : Option V := (get p t).value

@[simp] theorem leafAt_nil (t : KeyedTree K V) : t.leafAt [] = t.value := rfl

@[simp] theorem leafAt_empty (p : List K) : (empty : KeyedTree K V).leafAt p = none := by
  rw [leafAt, get_empty, value_empty]

theorem leafAt_get (t : KeyedTree K V) (p q : List K) : (get p t).leafAt q = t.leafAt (p ++ q) := by
  rw [leafAt, leafAt, get_append]

/-- **A pruned tree is absent exactly when it has no leaf.** -/
theorem Pruned.isEmpty_iff_leafAt {t : KeyedTree K V} (h : t.Pruned) :
    t.isEmpty = true ↔ ∀ p, t.leafAt p = none := by
  constructor
  · intro he p
    rw [eq_empty_of_isEmpty he, leafAt_empty]
  · intro hnone
    induction h with
    | leaf v => cases hnone []
    | @node cs hne hcs ih =>
      cases cs with
      | nil => rfl
      | cons c cs =>
        -- the first child would have no leaf either
        obtain ⟨k, t⟩ := c
        have hchild : KeyedTree.child k (.node ((k, t) :: cs)) = t := by
          rw [child_node_cons, if_pos rfl]
        have hsub : ∀ p, t.leafAt p = none := by
          intro p
          have hp := hnone (k :: p)
          rwa [leafAt, get_cons, hchild] at hp
        have hempty := ih (k, t) List.mem_cons_self hsub
        rw [hne (k, t) List.mem_cons_self] at hempty
        cases hempty

/-! ## A write, leaf by leaf -/

/-- Nothing written to nothing leaves nothing. -/
theorem isEmpty_set_empty (p : List K) : (set p (empty : KeyedTree K V) empty).isEmpty = true := by
  induction p with
  | nil => rfl
  | cons k p ih =>
    have hnew : set p (empty : KeyedTree K V) empty = empty := eq_empty_of_isEmpty ih
    rw [set, child_empty, hnew]
    rfl

/-- What is written stays, so a tree written to is not absent. -/
theorem isEmpty_set {new : KeyedTree K V} (h : new.isEmpty = false) (p : List K)
    (t : KeyedTree K V) : (set p new t).isEmpty = false := by
  by_contra hne
  have hempty : set p new t = empty := eq_empty_of_isEmpty (by simpa using hne)
  have hread := get_set_self p new t
  rw [hempty, get_empty] at hread
  rw [← hread] at h
  cases h

/-- A leaf above a write is gone, unless nothing was written. -/
theorem value_set_cons (k : K) (p : List K) (new t : KeyedTree K V) :
    (set (k :: p) new t).value = if new.isEmpty then t.value else none := by
  rw [set]
  cases t with
  | leaf v =>
    rw [child_leaf, setChild]
    cases hnew : new.isEmpty with
    | true =>
      rw [eq_empty_of_isEmpty hnew, if_pos (isEmpty_set_empty p)]
      rfl
    | false =>
      rw [if_neg (by rw [isEmpty_set hnew]; exact Bool.false_ne_true)]
      rfl
  | node cs =>
    have hnode : (setChild k (set p new (child k (node cs))) (node cs)).value = none := by
      simp only [setChild]
      split <;> rfl
    rw [hnode]
    split <;> rfl

/-- **What a write at a path does to the leaves**: it gives the written
tree's leaves below the path and, unless nothing was written, takes away
a leaf above it. -/
def setPatch (p : List K) (new : KeyedTree K V) : Patch (List K) (Option V) := fun q =>
  if p <+: q then some (new.leafAt (q.drop p.length))
  else if q <+: p ∧ new.isEmpty = false then some none
  else none

theorem setPatch_below (p q : List K) (new : KeyedTree K V) :
    setPatch p new (p ++ q) = some (new.leafAt q) := by
  rw [setPatch, if_pos (List.prefix_append p q), List.drop_left]

theorem setPatch_of_apart {p q : List K} (h : Apart p q) (new : KeyedTree K V) :
    setPatch p new q = none := by
  rw [setPatch, if_neg h.1, if_neg fun hq => h.2 hq.1]

theorem setPatch_above {p q : List K} (hpq : ¬ p <+: q) (hqp : q <+: p) (new : KeyedTree K V) :
    setPatch p new q = if new.isEmpty = false then some none else none := by
  rw [setPatch, if_neg hpq]
  exact if_congr (and_iff_right hqp) rfl rfl

/-- **A write is its patch.** -/
theorem leafAt_set (p : List K) (new t : KeyedTree K V) :
    (set p new t).leafAt = (setPatch p new).apply t.leafAt := by
  funext q
  by_cases hpq : p <+: q
  · -- below the write
    obtain ⟨r, rfl⟩ := hpq
    rw [Patch.apply, setPatch_below, ← leafAt_get, get_set_self]
    rfl
  · by_cases hqp : q <+: p
    · -- above the write, and not at it
      obtain ⟨r, rfl⟩ := hqp
      cases r with
      | nil => exact absurd (by rw [List.append_nil]) hpq
      | cons k r =>
        rw [Patch.apply, setPatch_above hpq (List.prefix_append q _), leafAt, get_set_append,
          value_set_cons]
        cases new.isEmpty <;> rfl
    · rw [Patch.apply, setPatch_of_apart ⟨hpq, hqp⟩, leafAt, get_set_of_apart ⟨hpq, hqp⟩]
      rfl

/-! ## Trees with the same leaves -/

/-- Two trees are alike when they have the same leaves. -/
def Alike (s t : KeyedTree K V) : Prop := s.leafAt = t.leafAt

theorem Alike.refl (t : KeyedTree K V) : Alike t t := rfl

theorem Alike.symm {s t : KeyedTree K V} (h : Alike s t) : Alike t s := Eq.symm h

theorem Alike.trans {s t u : KeyedTree K V} (h : Alike s t) (h' : Alike t u) : Alike s u :=
  Eq.trans h h'

theorem Alike.get {s t : KeyedTree K V} (h : Alike s t) (p : List K) :
    Alike (get p s) (get p t) := by
  funext q
  rw [leafAt_get, leafAt_get]
  exact congrFun h (p ++ q)

theorem Alike.isEmpty_eq {s t : KeyedTree K V} (h : Alike s t) (hs : s.Pruned) (ht : t.Pruned) :
    s.isEmpty = t.isEmpty := by
  rw [Bool.eq_iff_iff, hs.isEmpty_iff_leafAt, ht.isEmpty_iff_leafAt]
  exact forall_congr' fun p => by rw [congrFun h p]

end Edit

end KeyedTree
