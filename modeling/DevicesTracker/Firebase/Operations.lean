import DevicesTracker.Firebase.ViewReports
/-!
# Firebase — operations on their way to a view

`applyOperationToSyncPoints:` hands an operation down the tree of sync
points, one key after another. What a view at a path is handed has the
same writes as the operation, as they are seen from the path
(`seen_operationAt`), and an acknowledgement the same affected paths
(`affects_operationAt`). Nothing comes to a view only when nothing of the
operation is seen from its path.
-/

namespace DevicesTracker

open FImmutableSortedDictionary FImmutableTree

namespace FImmutableTree

/-- The values under one key of a tree are those of the child. -/
theorem mem_forEach_getD {α : Type} {cs : List (String × FImmutableTree α)}
    (hnodup : (cs.map Prod.fst).Nodup) (k : String) (e : List String × α) :
    e ∈ ((get cs k).getD empty).forEach ↔ (k :: e.1, e.2) ∈ (mk none cs).forEach := by
  rw [mem_forEach_node]
  constructor
  · intro he
    cases hget : get cs k with
    | none =>
      rw [hget] at he
      exact absurd he List.not_mem_nil
    | some c =>
      rw [hget] at he
      exact ⟨_, Dictionary.mem_of_lookup hget, e, he, rfl⟩
  · rintro ⟨c, hc, e', he', heq⟩
    obtain ⟨hpath, hvalue⟩ := Prod.mk.inj heq
    obtain ⟨rfl, hrest⟩ := List.cons.inj hpath
    rw [get_of_mem hnodup hc]
    exact (Prod.ext hrest hvalue : e = e') ▸ he'

end FImmutableTree

/-- **Writes as an operation hands them on to a path**: the same effect
there, each of them a write at or below the path or what one above it says
of it. -/
structure Handed (q : List String) (us l : List (List String × FNode)) : Prop where
  patch : ∀ r, writesPatch us (q ++ r) = writesPatch l r
  shadow : ∀ r, Shadowed us (q ++ r) ↔ Shadowed l r
  origin : ∀ w ∈ l, (q ++ w.1, w.2) ∈ us ∨
    w.1 = [] ∧ ∃ p t x, (p, x) ∈ us ∧ q = p ++ t ∧ w.2 = x.getChild t

namespace Handed

variable {q q' : List String} {k : String} {us l l' : List (List String × FNode)}
  {cs : List (String × FImmutableTree FNode)}

theorem refl (l : List (List String × FNode)) : Handed [] l l :=
  ⟨fun _ => rfl, fun _ => Iff.rfl, fun _ hw => Or.inl hw⟩

theorem trans (h : Handed q us l) (h' : Handed q' l l') : Handed (q ++ q') us l' := by
  refine ⟨fun r => ?_, fun r => ?_, fun w hw => ?_⟩
  · rw [List.append_assoc, h.patch, h'.patch]
  · rw [List.append_assoc, h.shadow, h'.shadow]
  rcases h'.origin w hw with hw' | ⟨hnil, p, t, x, hx, rfl, hchild⟩
  · rcases h.origin _ hw' with hus | ⟨hnil, p, t, x, hx, rfl, hchild⟩
    · rw [← List.append_assoc] at hus
      exact Or.inl hus
    · obtain ⟨rfl, hw₁⟩ := List.append_eq_nil_iff.1 hnil
      exact Or.inr ⟨hw₁, p, t, x, hx, List.append_nil _, hchild⟩
  · rcases h.origin _ hx with hus | ⟨hnil', p', t', x', hx', rfl, hchild'⟩
    · refine Or.inr ⟨hnil, q ++ p, t, x, hus, (List.append_assoc q p t).symm, hchild⟩
    · obtain rfl : p = [] := hnil'
      refine Or.inr ⟨hnil, p', t' ++ t, x', hx', by rw [List.nil_append, List.append_assoc], ?_⟩
      obtain rfl : x = x'.getChild t' := hchild'
      rw [hchild, FNode.getChild_append]

/-- Writes below a path, seen from it. -/
theorem shift (p : List String) (l : List (List String × FNode)) :
    Handed p (FImmutableTree.shift p l) l :=
  ⟨fun r => writesPatch_shift p r l, fun _ => shadowed_shift,
    fun _ hw => Or.inl (List.mem_map.2 ⟨_, hw, rfl⟩)⟩

/-- A write at a path, seen from below it. -/
theorem above (k : String) (x : FNode) :
    Handed [k] [([], x)] [([], x.getImmediateChild k)] := by
  refine ⟨fun r => ?_, fun r => ?_, fun w hw => ?_⟩
  · have hleaf : x.leafAt (k :: r) = (x.getImmediateChild k).leafAt r := by
      rw [← FNode.getChild_singleton, FNode.leafAt_getChild]
      rfl
    rw [writesPatch_cons, writesPatch_cons, FNode.setPatch_nil, FNode.setPatch_nil]
    exact congrArg some hleaf
  · exact ⟨fun _ => ⟨_, List.mem_singleton.2 rfl, List.nil_prefix⟩,
      fun _ => ⟨_, List.mem_singleton.2 rfl, List.nil_prefix⟩⟩
  · obtain rfl := List.mem_singleton.1 hw
    exact Or.inr ⟨rfl, [], [k], x, List.mem_singleton.2 rfl, rfl, rfl⟩

/-- Writes none of which leads to or from a path. -/
theorem of_apart (h : ∀ w ∈ us, KeyedTree.Apart w.1 q) : Handed q us [] := by
  refine ⟨fun r => ?_, fun r => ⟨?_, ?_⟩, fun _ hw => absurd hw List.not_mem_nil⟩
  · refine writesPatch_eq_none fun w hw => FNode.setPatch_of_apart ⟨fun hp => ?_, fun hp => ?_⟩ w.2
    · rcases List.prefix_or_prefix_of_prefix hp (List.prefix_append q r) with hp | hp
      exacts [(h w hw).1 hp, (h w hw).2 hp]
    · exact (h w hw).2 ((List.prefix_append q r).trans hp)
  · rintro ⟨w, hw, hp⟩
    rcases List.prefix_or_prefix_of_prefix hp (List.prefix_append q r) with hp | hp
    exacts [absurd hp (h w hw).1, absurd hp (h w hw).2]
  · rintro ⟨w, hw, -⟩
    exact absurd hw List.not_mem_nil

/-- The writes of a tree, seen from one of its children. -/
theorem child (hnodup : (cs.map Prod.fst).Nodup) (k : String) :
    Handed [k] (FImmutableTree.mk none cs).forEach (((get cs k).map forEach).getD []) := by
  cases hget : get cs k with
  | none =>
    refine of_apart fun w hw => ?_
    obtain ⟨c, hc, e, -, rfl⟩ := mem_forEach_node.1 hw
    refine KeyedTree.apart_cons_of_ne (fun hk => ?_) _ _
    rw [← hk, get_of_mem hnodup hc] at hget
    cases hget
  | some t =>
    have hmem := Dictionary.mem_of_lookup hget
    refine ⟨fun r => ?_, fun r => ⟨?_, ?_⟩, fun w hw => ?_⟩
    · rw [forEach, Option.toList_none, List.map_nil, List.append_nil]
      exact (writesPatch_childrenForEach hnodup k r).trans (by rw [hget]; rfl)
    · rintro ⟨w, hw, hp⟩
      obtain ⟨c, hc, e, he, rfl⟩ := mem_forEach_node.1 hw
      obtain ⟨rfl, hrest⟩ := List.cons_prefix_cons.1 hp
      rw [get_of_mem hnodup hc] at hget
      obtain rfl := Option.some.inj hget
      exact ⟨e, he, hrest⟩
    · rintro ⟨w, hw, hp⟩
      exact ⟨_, mem_forEach_node.2 ⟨(k, t), hmem, w, hw, rfl⟩, List.cons_prefix_cons.2 ⟨rfl, hp⟩⟩
    · exact Or.inl (mem_forEach_node.2 ⟨(k, t), hmem, w, hw, rfl⟩)

/-- The writes handed on have no leaf above a pending write, when the ones
of the operation have none. -/
theorem clear {ws : List (List String × FNode)} (h : Handed q us l)
    (hus : ∀ w ∈ us, Clear ws w.1 w.2) : ∀ w ∈ l, Clear ws (q ++ w.1) w.2 := by
  intro w hw
  rcases h.origin w hw with hmem | ⟨hnil, p, t, x, hx, rfl, hchild⟩
  · exact hus _ hmem
  · rw [hnil, hchild, List.append_nil]
    exact (hus _ hx).getChild t

end Handed

namespace FOperation

variable {u : Bool} {k : String} {q : List String} {operation : FOperation}

/-- The writes of an operation. -/
def writes : FOperation → List (List String × FNode)
  | overwrite _ path snap => [(path, snap)]
  | merge _ path children => shift path children.enumerateWrites
  | ackUserWrite _ _ _ => []
  | listenComplete _ => []

/-- An operation with data, of the user or of the server. -/
def IsData (fromUser : Bool) : FOperation → Prop
  | overwrite u _ _ => u = fromUser
  | merge u _ _ => u = fromUser
  | ackUserWrite _ _ _ => False
  | listenComplete _ => False

theorem path_prefix_of_mem_writes {w : List String × FNode} (hw : w ∈ operation.writes) :
    operation.path <+: w.1 := by
  cases operation with
  | overwrite fromUser path snap =>
    obtain rfl := List.mem_singleton.1 hw
    exact List.prefix_rfl
  | merge fromUser path children =>
    obtain ⟨e, -, rfl⟩ := List.mem_map.1 hw
    exact List.prefix_append path e.1
  | ackUserWrite path affectedTree revert => exact absurd hw List.not_mem_nil
  | listenComplete path => exact absurd hw List.not_mem_nil

theorem pairwise_apart_writes (operation : FOperation) :
    operation.writes.Pairwise fun w w' => KeyedTree.Apart w.1 w'.1 := by
  cases operation with
  | overwrite fromUser path snap => exact List.pairwise_singleton _ _
  | merge fromUser path children =>
    refine List.pairwise_map.2 ((pairwise_apart_forEach children.wellFormed).imp fun hap => ?_)
    exact (KeyedTree.apart_append_left path).2 hap
  | ackUserWrite path affectedTree revert => exact List.Pairwise.nil
  | listenComplete path => exact List.Pairwise.nil

/-- **One key down**: a merge into a node goes on as an overwrite of the
child, as a merge into it, or not at all. -/
theorem handed_merge_child (u : Bool) (children : FCompoundWrite) (k : String) :
    ∃ next, (merge u [] children).operationForChild k = some next ∧
      (∀ o ∈ next, o.IsData u) ∧
      Handed [k] children.enumerateWrites ((next.map writes).getD []) := by
  obtain ⟨t, ht⟩ := children
  cases ht with
  | written v => exact ⟨_, rfl, fun o ho => Option.some.inj ho ▸ rfl, Handed.above k v⟩
  | @node cs hnodup hne hcs =>
    have hchild := Handed.child hnodup k
    cases hget : get cs k with
    | none =>
      rw [hget] at hchild
      refine ⟨none, ?_, fun o ho => absurd ho (by simp), hchild⟩
      simp [operationForChild, FCompoundWrite.childCompoundWriteAtPath,
        FCompoundWrite.completeNodeAtPath, subtreeAtPath, hget, FCompoundWrite.isEmpty]
    | some c =>
      rw [hget] at hchild
      have hmem := Dictionary.mem_of_lookup hget
      have hempty : c.isEmpty = false := hne (k, c) hmem
      have hc : c.WellFormed := hcs (k, c) hmem
      cases hc with
      | written v =>
        refine ⟨some (overwrite u [] v), ?_, fun o ho => Option.some.inj ho ▸ rfl, hchild⟩
        simp [operationForChild, FCompoundWrite.childCompoundWriteAtPath,
          FCompoundWrite.completeNodeAtPath, hget, FCompoundWrite.isEmpty,
          FCompoundWrite.rootWrite, ofValue, FImmutableTree.isEmpty, FImmutableTree.value]
      | @node cs' hnodup' hne' hcs' =>
        have hwf : (FImmutableTree.mk none cs').WellFormed := .node hnodup' hne' hcs'
        refine ⟨some (merge u [] ⟨FImmutableTree.mk none cs', hwf⟩), ?_,
          fun o ho => Option.some.inj ho ▸ rfl, ?_⟩
        · simp [operationForChild, FCompoundWrite.childCompoundWriteAtPath,
            FCompoundWrite.completeNodeAtPath, subtreeAtPath, hget, FCompoundWrite.isEmpty,
            FCompoundWrite.rootWrite, hempty, FImmutableTree.value]
        · change Handed [k] (FImmutableTree.mk none cs).forEach (shift [] _)
          rw [shift_nil]
          exact hchild

/-- **One key down**, for an operation with data. -/
theorem handed_operationForChild (hdata : operation.IsData u)
    (hfront : (operation.path.head?.all fun front => front = k) = true) :
    ∃ next, operation.operationForChild k = some next ∧ (∀ o ∈ next, o.IsData u) ∧
      Handed [k] operation.writes ((next.map writes).getD []) := by
  cases operation with
  | overwrite fromUser path snap =>
    obtain rfl : fromUser = u := hdata
    cases path with
    | nil => exact ⟨_, rfl, fun o ho => Option.some.inj ho ▸ rfl, Handed.above k snap⟩
    | cons front path =>
      obtain rfl : front = k := of_decide_eq_true hfront
      exact ⟨_, rfl, fun o ho => Option.some.inj ho ▸ rfl, Handed.shift [front] [(path, snap)]⟩
  | merge fromUser path children =>
    obtain rfl : fromUser = u := hdata
    cases path with
    | nil =>
      rw [writes, shift_nil]
      exact handed_merge_child fromUser children k
    | cons front path =>
      obtain rfl : front = k := of_decide_eq_true hfront
      refine ⟨_, rfl, fun o ho => Option.some.inj ho ▸ rfl, ?_⟩
      have hshift : shift (front :: path) children.enumerateWrites =
          shift [front] (shift path children.enumerateWrites) := by
        unfold shift
        rw [List.map_map]
        rfl
      rw [writes, hshift]
      exact Handed.shift [front] _
  | ackUserWrite path affectedTree revert => exact absurd hdata id
  | listenComplete path => exact absurd hdata id

/-- **What a view is handed** has the writes of the operation as they are
seen from its path. -/
theorem handed_operationAt (hdata : operation.IsData u) (q : List String) :
    ∃ next, operation.operationAt q = some next ∧ (∀ o ∈ next, o.IsData u) ∧
      Handed q operation.writes ((next.map writes).getD []) := by
  induction q generalizing operation with
  | nil => exact ⟨_, rfl, fun o ho => Option.some.inj ho ▸ hdata, Handed.refl _⟩
  | cons k q ih =>
    by_cases hfront : (operation.path.head?.all fun front => front = k) = true
    · obtain ⟨next, hnext, hdata', hhanded⟩ := handed_operationForChild hdata hfront
      rw [operationAt, if_pos hfront, hnext]
      cases next with
      | none =>
        refine ⟨none, rfl, fun o ho => absurd ho (by simp), ?_⟩
        exact hhanded.trans (Handed.of_apart fun w hw => absurd hw List.not_mem_nil)
      | some o =>
        obtain ⟨next, hnext, hdata'', hrest⟩ := ih (hdata' o rfl)
        exact ⟨next, hnext, hdata'', hhanded.trans hrest⟩
    · rw [operationAt, if_neg hfront]
      refine ⟨none, rfl, fun o ho => absurd ho (by simp), Handed.of_apart fun w hw => ?_⟩
      have hprefix := path_prefix_of_mem_writes hw
      cases hpath : operation.path with
      | nil =>
        rw [hpath] at hfront
        exact absurd rfl hfront
      | cons front path =>
        rw [hpath] at hfront hprefix
        obtain ⟨t, ht⟩ := hprefix
        rw [← ht]
        refine KeyedTree.apart_cons_of_ne (fun heq => hfront ?_) _ _
        exact decide_eq_true heq

/-! ## Acknowledgements -/

section Acknowledgement

variable {rs : List (List String × FNode)} {q₀ p : List String} {t : FImmutableTree Unit}

/-- **One key down**: the affected paths below the key are those of the
child, or all that is below it is affected. -/
theorem affects_child (hwf : t.WellFormed) (revert : Bool) (h : Affects q₀ [] rs t) (k : String) :
    ∃ t', (ackUserWrite [] t revert).operationForChild k = some (some (ackUserWrite [] t' revert)) ∧
      t'.WellFormed ∧ Affects (q₀ ++ [k]) [] rs t' := by
  cases hwf with
  | written v =>
    refine ⟨_, rfl, .written v, fun r _ => ⟨([], v), List.mem_singleton.2 rfl, List.nil_prefix⟩,
      fun e he => ?_⟩
    obtain rfl := List.mem_singleton.1 he
    exact Or.inl rfl
  | @node cs hnodup hne hcs =>
    have hsub : subtreeAtPath [k] (FImmutableTree.mk none cs) = (get cs k).getD empty := by
      rw [subtreeAtPath]
      cases get cs k <;> rfl
    have hwf : (FImmutableTree.mk none cs).WellFormed := .node hnodup hne hcs
    have hmem := mem_forEach_getD hnodup k
    refine ⟨(get cs k).getD empty, ?_, hwf.getD k, fun r hr => ?_, fun e he => ?_⟩
    · rw [← hsub]
      rfl
    · rw [List.append_assoc] at hr
      obtain ⟨e, he, hp⟩ := h.covers ([k] ++ r) hr
      obtain ⟨c, hc, e', he', rfl⟩ := mem_forEach_node.1 he
      obtain ⟨rfl, hrest⟩ := List.cons_prefix_cons.1 hp
      exact ⟨e', (hmem e').2 he, hrest⟩
    · rcases h.paths _ ((hmem e).1 he) with hnil | ⟨w, hw, heq⟩
      · exact absurd hnil (List.cons_ne_nil _ _)
      · exact Or.inr ⟨w, hw, by rw [heq, List.append_assoc]; rfl⟩

/-- **What a view is handed of an acknowledgement** affects, as seen from
its path, what the operation affects; and when it is handed nothing, no
write answered decides anything at the path or below. -/
theorem affects_operationAt (hwf : t.WellFormed) (revert : Bool) (h : Affects q₀ p rs t)
    (q : List String) :
    (ackUserWrite p t revert).operationAt q = some none ∧
        (∀ r, ¬ Shadowed rs (q₀ ++ q ++ r)) ∨
      ∃ p' t', (ackUserWrite p t revert).operationAt q =
        some (some (ackUserWrite p' t' revert)) ∧ Affects (q₀ ++ q) p' rs t' := by
  induction q generalizing q₀ p t with
  | nil => exact Or.inr ⟨p, t, rfl, by rw [List.append_nil]; exact h⟩
  | cons k q ih =>
    have hassoc : q₀ ++ k :: q = q₀ ++ [k] ++ q := by rw [List.append_assoc]; rfl
    rw [hassoc]
    cases p with
    | nil =>
      obtain ⟨t', hnext, hwf', h'⟩ := affects_child hwf revert h k
      have hat : (ackUserWrite [] t revert).operationAt (k :: q) =
          (ackUserWrite [] t' revert).operationAt q := by
        have hfront : ((ackUserWrite [] t revert).path.head?.all fun front => front = k) = true :=
          rfl
        rw [operationAt, if_pos hfront, hnext]
      rw [hat]
      exact ih hwf' h'
    | cons front p =>
      by_cases hfront : front = k
      · subst hfront
        have hat : (ackUserWrite (front :: p) t revert).operationAt (front :: q) =
            (ackUserWrite p t revert).operationAt q :=
          if_pos (decide_eq_true rfl)
        rw [hat]
        refine ih hwf ⟨fun r hr => ?_, fun e he => Or.inr ?_⟩
        · rw [List.append_assoc] at hr
          obtain ⟨e, he, hp⟩ := h.covers ([front] ++ r) hr
          exact ⟨e, he, (List.cons_prefix_cons.1 hp).2⟩
        · rcases h.paths e he with hnil | ⟨w, hw, heq⟩
          · exact absurd hnil (List.cons_ne_nil _ _)
          · exact ⟨w, hw, by rw [heq, List.append_assoc]; rfl⟩
      · have hdecide : decide (front = k) ≠ true := fun heq => hfront (of_decide_eq_true heq)
        refine Or.inl ⟨if_neg hdecide, fun r hr => ?_⟩
        rw [List.append_assoc, List.append_assoc] at hr
        obtain ⟨e, he, hp⟩ := h.covers ([k] ++ (q ++ r)) hr
        exact hfront (List.cons_prefix_cons.1 hp).1

end Acknowledgement

/-- The end of a listen's first data is handed on as that. -/
theorem operationAt_listenComplete (p q : List String) :
    (listenComplete p).operationAt q = some none ∨
      ∃ p', (listenComplete p).operationAt q = some (some (listenComplete p')) := by
  induction q generalizing p with
  | nil => exact Or.inr ⟨p, rfl⟩
  | cons k q ih =>
    cases p with
    | nil => exact ih []
    | cons front p =>
      by_cases hfront : decide (front = k) = true
      · have hat : (listenComplete (front :: p)).operationAt (k :: q) =
            (listenComplete p).operationAt q := if_pos hfront
        rw [hat]
        exact ih p
      · exact Or.inl (if_neg hfront)

end FOperation

/-! ## The affected paths of a write -/

namespace FImmutableTree

variable {α : Type} {t : FImmutableTree α}

theorem isEmpty_setValue (v : α) (p : List String) (t : FImmutableTree α) :
    (setValue v p t).isEmpty = false := by
  obtain ⟨value, cs⟩ := t
  cases p with
  | nil => rfl
  | cons k p =>
    have hcons : (insertKey cs k (setValue v p ((get cs k).getD empty))).isEmpty = false := rfl
    change (value.isNone && _) = false
    rw [Bool.and_eq_false_iff]
    exact Or.inr hcons

/-- A tree without values is empty. -/
theorem WellFormed.eq_empty (h : t.WellFormed) (hnone : t.forEach = []) : t = empty := by
  induction h with
  | written v => cases hnone
  | @node cs hnodup hne hcs ih =>
    cases cs with
    | nil => rfl
    | cons c cs =>
      have hc : c.2.forEach = [] := by
        refine List.eq_nil_iff_forall_not_mem.2 fun e he => ?_
        have hmem : (c.1 :: e.1, e.2) ∈ (FImmutableTree.mk none (c :: cs)).forEach :=
          mem_forEach_node.2 ⟨c, List.mem_cons_self, e, he, rfl⟩
        rw [hnone] at hmem
        exact absurd hmem List.not_mem_nil
      have hempty := ih c List.mem_cons_self hc
      have hne' := hne c List.mem_cons_self
      rw [hempty] at hne'
      cases hne'

/-- **A value put apart from the values of a tree** is one more. -/
theorem WellFormed.setValue (h : t.WellFormed) (v : α) {p : List String}
    (hapart : ∀ e ∈ t.forEach, KeyedTree.Apart e.1 p) :
    (setValue v p t).WellFormed ∧
      ∀ e, e ∈ (FImmutableTree.setValue v p t).forEach ↔ e = (p, v) ∨ e ∈ t.forEach := by
  induction p generalizing t with
  | nil =>
    have hnone : t.forEach = [] :=
      List.eq_nil_iff_forall_not_mem.2 fun e he => (hapart e he).2 List.nil_prefix
    obtain rfl := h.eq_empty hnone
    refine ⟨.written v, fun e => ?_⟩
    rw [hnone]
    exact ⟨fun he => Or.inl (List.mem_singleton.1 he),
      fun he => List.mem_singleton.2 (he.resolve_right List.not_mem_nil)⟩
  | cons k p ih =>
    cases h with
    | written u => exact absurd List.nil_prefix (hapart ([], u) (List.mem_singleton.2 rfl)).1
    | @node cs hnodup hne hcs =>
      have hwf : (FImmutableTree.mk none cs).WellFormed := .node hnodup hne hcs
      have hchild := mem_forEach_getD hnodup k
      obtain ⟨hwf', hmem⟩ := ih (hwf.getD k) fun e he => by
        have hap := hapart _ ((hchild e).1 he)
        exact (KeyedTree.apart_append_left [k]).1 hap
      refine ⟨hwf.insertKey k hwf' (isEmpty_setValue v p _), fun e => ?_⟩
      change e ∈ (FImmutableTree.mk none (FImmutableSortedDictionary.insertKey cs k _)).forEach ↔ _
      rw [mem_forEach_node]
      constructor
      · rintro ⟨c, hc, e', he', rfl⟩
        rcases mem_insertKey.1 hc with rfl | hc
        · rcases (hmem e').1 he' with rfl | he'
          · exact Or.inl rfl
          · exact Or.inr ((hchild e').1 he')
        · exact Or.inr (mem_forEach_node.2 ⟨c, hc.1, e', he', rfl⟩)
      · rintro (rfl | he)
        · exact ⟨_, mem_insertKey.2 (Or.inl rfl), _, (hmem _).2 (Or.inl rfl), rfl⟩
        · obtain ⟨c, hc, e', he', rfl⟩ := mem_forEach_node.1 he
          by_cases hk : c.1 = k
          · subst hk
            refine ⟨_, mem_insertKey.2 (Or.inl rfl), e', (hmem e').2 (Or.inr ?_), rfl⟩
            rw [get_of_mem hnodup hc]
            exact he'
          · exact ⟨c, mem_insertKey.2 (Or.inr ⟨hc, hk⟩), e', he', rfl⟩

/-- Values put at paths apart from each other and from those there. -/
theorem WellFormed.foldl_setValue (h : t.WellFormed) (v : α) {ps : List (List String)}
    (hps : ps.Pairwise KeyedTree.Apart)
    (hapart : ∀ e ∈ t.forEach, ∀ p ∈ ps, KeyedTree.Apart e.1 p) :
    (ps.foldl (fun t p => FImmutableTree.setValue v p t) t).WellFormed ∧
      ∀ e, e ∈ (ps.foldl (fun t p => FImmutableTree.setValue v p t) t).forEach ↔
        (∃ p ∈ ps, e = (p, v)) ∨ e ∈ t.forEach := by
  induction ps generalizing t with
  | nil => exact ⟨h, fun e => by simp⟩
  | cons p ps ih =>
    rw [List.pairwise_cons] at hps
    obtain ⟨hwf, hmem⟩ := h.setValue v fun e he => hapart e he p List.mem_cons_self
    obtain ⟨hwf', hmem'⟩ := ih hwf hps.2 fun e he p' hp' => by
      rcases (hmem e).1 he with rfl | he
      exacts [hps.1 p' hp', hapart e he p' (List.mem_cons_of_mem p hp')]
    refine ⟨hwf', fun e => ?_⟩
    rw [List.foldl_cons, hmem' e, hmem e]
    constructor
    · rintro (⟨p', hp', rfl⟩ | rfl | he)
      exacts [Or.inl ⟨p', List.mem_cons_of_mem p hp', rfl⟩, Or.inl ⟨p, List.mem_cons_self, rfl⟩,
        Or.inr he]
    · rintro (⟨p', hp', rfl⟩ | he)
      · rcases List.mem_cons.1 hp' with rfl | hp'
        exacts [Or.inr (Or.inl rfl), Or.inl ⟨p', hp', rfl⟩]
      · exact Or.inr (Or.inr he)

end FImmutableTree

end DevicesTracker
