import DevicesTracker.Common.Runs
import DevicesTracker.Firebase.WritePatch
import DevicesTracker.Firebase.WriteTree
/-!
# Firebase — pending writes, gathered and one by one

What a client believes the data to be should be what the server sent with
the pending writes done one after another. The tree of pending writes
keeps a compound write instead, adds to it, and takes answered writes out
of it without going through the rest. `Gathers` is the relation between
the compound write and the list of writes it stands for: the same paths
are complete and the same leaves are left, on an empty node and so on any
node without a leaf above a pending write (`Gathers.getD_patch`). Each
operation keeps it. For a removal this needs the write to be the oldest,
as the server's answers come in order, and each later one above it either
to cover it or to be `Aside`.
-/

namespace DevicesTracker

open FImmutableTree

/-- The patch of a list of writes, first one first. -/
def writesPatch (ws : List (List String × FNode)) : Patch (List String) (Option LeafValue) :=
  Patch.all (ws.map fun w => FNode.setPatch w.1 w.2)

@[simp] theorem writesPatch_nil (q : List String) : writesPatch [] q = none := rfl

theorem writesPatch_cons (w : List String × FNode) (ws : List (List String × FNode))
    (q : List String) :
    writesPatch (w :: ws) q = (writesPatch ws q).or (FNode.setPatch w.1 w.2 q) := rfl

theorem writesPatch_append (us ws : List (List String × FNode)) (q : List String) :
    writesPatch (us ++ ws) q = (writesPatch ws q).or (writesPatch us q) := by
  rw [writesPatch, List.map_append, Patch.all_append]
  rfl

/-- Writes apart from a place leave it alone. -/
theorem writesPatch_eq_none {ws : List (List String × FNode)} {q : List String}
    (h : ∀ w ∈ ws, FNode.setPatch w.1 w.2 q = none) : writesPatch ws q = none := by
  refine Patch.all_eq_none fun a ha => ?_
  obtain ⟨w, hw, rfl⟩ := List.mem_map.1 ha
  exact h w hw

/-- At and below a written path the place is given a value. -/
theorem isSome_writesPatch {ws : List (List String × FNode)} {w : List String × FNode}
    (hw : w ∈ ws) {q : List String} (hq : w.1 <+: q) : (writesPatch ws q).isSome = true := by
  induction ws with
  | nil => exact absurd hw List.not_mem_nil
  | cons w' ws ih =>
    rw [writesPatch_cons, Option.isSome_or]
    rcases List.mem_cons.1 hw with rfl | hw
    · obtain ⟨r, rfl⟩ := hq
      rw [FNode.setPatch_below, Option.isSome_some, Bool.or_true]
    · rw [ih hw, Bool.true_or]

/-- Where no written path leads, no leaf is given. -/
theorem getD_writesPatch_none {ws : List (List String × FNode)} {q : List String}
    (h : ∀ w ∈ ws, ¬ w.1 <+: q) : (writesPatch ws q).getD none = none := by
  induction ws with
  | nil => rfl
  | cons w ws ih =>
    have hrest := ih fun w' hw' => h w' (List.mem_cons_of_mem w hw')
    have hw : ¬ w.1 <+: q := h w List.mem_cons_self
    rw [writesPatch_cons]
    cases hws : writesPatch ws q with
    | some x =>
      rw [hws] at hrest
      exact hrest
    | none =>
      rw [Option.none_or]
      by_cases hq : q <+: w.1
      · rw [FNode.setPatch_above hw hq]
        split <;> rfl
      · rw [FNode.setPatch_of_apart ⟨hw, hq⟩]
        rfl

/-- Writes that leave a place alone need not be done. -/
theorem writesPatch_filter {ws : List (List String × FNode)} {q : List String}
    {keep : List String × FNode → Bool}
    (h : ∀ w ∈ ws, keep w = false → FNode.setPatch w.1 w.2 q = none) :
    writesPatch (ws.filter keep) q = writesPatch ws q := by
  induction ws with
  | nil => rfl
  | cons w ws ih =>
    have hrest := ih fun w' hw' => h w' (List.mem_cons_of_mem w hw')
    cases hk : keep w with
    | true => rw [List.filter_cons_of_pos hk, writesPatch_cons, writesPatch_cons, hrest]
    | false =>
      have hw := h w List.mem_cons_self hk
      rw [List.filter_cons_of_neg (by simp [hk]), writesPatch_cons, hrest, hw, Option.or_none]

/-! ## A compound write and the writes it gathers -/

/-- **A compound write gathers a list of writes**: it is complete where
one of them leads, and leaves on an empty node what they leave. -/
structure Gathers (cw : FCompoundWrite) (ws : List (List String × FNode)) : Prop where
  complete_iff : ∀ q, (cw.completeNodeAtPath q).isSome = true ↔ ∃ w ∈ ws, w.1 <+: q
  leaves : ∀ q, (cw.patch q).getD none = (writesPatch ws q).getD none

theorem gathers_emptyWrite : Gathers FCompoundWrite.emptyWrite [] where
  complete_iff := fun q => by
    have hnone : FCompoundWrite.emptyWrite.completeNodeAtPath q = none := by
      change FCompoundWrite.completeNodeIn empty q = none
      rw [FCompoundWrite.completeNodeIn, FCompoundWrite.findRootMost_empty]
      rfl
    rw [hnone]
    simp
  leaves := fun q => by rw [FCompoundWrite.patch_emptyWrite]; rfl

namespace Gathers

variable {cw : FCompoundWrite} {ws : List (List String × FNode)}

theorem completeNodeAtPath_eq_none (h : Gathers cw ws) {q : List String}
    (hq : ∀ w ∈ ws, ¬ w.1 <+: q) : cw.completeNodeAtPath q = none := by
  by_contra hne
  obtain ⟨w, hw, hwq⟩ := (h.complete_iff q).1 (Option.isSome_iff_ne_none.2 hne)
  exact hq w hw hwq

/-- Where no write leads to or from, the compound write leaves the place
alone. -/
theorem patch_eq_none (h : Gathers cw ws) {q : List String}
    (hq : ∀ w ∈ ws, KeyedTree.Apart w.1 q) : cw.patch q = none := by
  refine treePatch_eq_none cw.wellFormed fun r => ?_
  refine h.completeNodeAtPath_eq_none fun w hw hwq => ?_
  rcases List.prefix_or_prefix_of_prefix hwq (List.prefix_append q r) with hp | hp
  exacts [(hq w hw).1 hp, (hq w hw).2 hp]

/-- **Laid over a node, the compound write leaves what the writes leave**,
at each place where the node had no leaf or that is not above a write. -/
theorem getD_patch (h : Gathers cw ws) {q : List String} {x : Option LeafValue}
    (hx : x = none ∨ ∀ w ∈ ws, ¬ (q <+: w.1 ∧ q ≠ w.1)) :
    (cw.patch q).getD x = (writesPatch ws q).getD x := by
  rcases hx with rfl | hx
  · exact h.leaves q
  · by_cases hlead : ∃ w ∈ ws, w.1 <+: q
    · -- both give the place a value, and the same one
      obtain ⟨m, hm⟩ := Option.isSome_iff_exists.1 ((h.complete_iff q).2 hlead)
      obtain ⟨w, hw, hwq⟩ := hlead
      obtain ⟨y, hy⟩ := Option.isSome_iff_exists.1 (isSome_writesPatch hw hwq)
      have hleaves := h.leaves q
      have hpatch : cw.patch q = some (m.leafAt []) := treePatch_of_complete hm
      rw [hpatch, hy] at hleaves ⊢
      exact hleaves
    · -- no write leads to the place or from it
      have hapart : ∀ w ∈ ws, KeyedTree.Apart w.1 q := by
        intro w hw
        have hwq : ¬ w.1 <+: q := fun hp => hlead ⟨w, hw, hp⟩
        refine ⟨hwq, fun hp => hx w hw ⟨hp, ?_⟩⟩
        rintro rfl
        exact hwq (List.prefix_refl _)
      rw [h.patch_eq_none hapart,
        writesPatch_eq_none fun w hw => FNode.setPatch_of_apart (hapart w hw) w.2]

/-- One more write. -/
theorem addWrite (h : Gathers cw ws) (n : FNode) (p : List String) :
    Gathers (cw.addWrite n p) (ws ++ [(p, n)]) where
  complete_iff := fun q => by
    have hspec := FCompoundWrite.completeNodeIn_addToTree cw.wellFormed n p q
    have hold := h.complete_iff q
    change (FCompoundWrite.completeNodeIn (FCompoundWrite.addToTree n p cw.writeTree) q).isSome =
      true ↔ _
    rw [hspec]
    by_cases hp : p <+: q
    · rw [if_pos hp]
      exact ⟨fun _ => ⟨(p, n), List.mem_append_right _ List.mem_cons_self, hp⟩, fun _ => rfl⟩
    · rw [if_neg hp, Option.isSome_map]
      refine hold.trans ⟨?_, ?_⟩
      · rintro ⟨w, hw, hwq⟩
        exact ⟨w, List.mem_append_left _ hw, hwq⟩
      · rintro ⟨w, hw, hwq⟩
        rcases List.mem_append.1 hw with hw | hw
        · exact ⟨w, hw, hwq⟩
        · rw [List.mem_singleton.1 hw] at hwq
          exact absurd hwq hp
  leaves := fun q => by
    rw [cw.getD_patch_addWrite n p q (Or.inl rfl), h.leaves q, writesPatch_append, writesPatch_cons,
      writesPatch_nil, Option.none_or]
    cases FNode.setPatch p n q <;> rfl

/-- A compound write more is its writes, one after another. -/
theorem addCompoundWrite (h : Gathers cw ws) (compoundWrite : FCompoundWrite)
    (p : List String) :
    Gathers (cw.addCompoundWrite compoundWrite p)
      (ws ++ compoundWrite.enumerateWrites.map fun e => (p ++ e.1, e.2)) := by
  unfold FCompoundWrite.addCompoundWrite
  generalize compoundWrite.enumerateWrites = es
  induction es generalizing cw ws with
  | nil =>
    rw [List.map_nil, List.append_nil]
    exact h
  | cons e es ih =>
    have hrest := ih (h.addWrite e.2 (p ++ e.1))
    rw [List.append_assoc] at hrest
    exact hrest

/-- Writes that a later one covers may be left out, if they come first. -/
theorem of_covered {rs bs : List (List String × FNode)} (h : Gathers cw (rs ++ bs))
    (hcovered : ∀ r ∈ rs, ∃ b ∈ bs, b.1 <+: r.1) : Gathers cw bs where
  complete_iff := fun q => by
    refine (h.complete_iff q).trans ⟨?_, ?_⟩
    · rintro ⟨w, hw, hwq⟩
      rcases List.mem_append.1 hw with hw | hw
      · obtain ⟨b, hb, hbw⟩ := hcovered w hw
        exact ⟨b, hb, hbw.trans hwq⟩
      · exact ⟨w, hw, hwq⟩
    · rintro ⟨w, hw, hwq⟩
      exact ⟨w, List.mem_append_right _ hw, hwq⟩
  leaves := fun q => by
    rw [h.leaves q, writesPatch_append]
    cases hbs : writesPatch bs q with
    | some x => rfl
    | none =>
      -- no later write leads to the place, so no covered one does
      have hrs : (writesPatch rs q).getD none = none := by
        refine getD_writesPatch_none fun r hr hrq => ?_
        obtain ⟨b, hb, hbr⟩ := hcovered r hr
        have hsome := isSome_writesPatch hb (hbr.trans hrq)
        rw [hbs] at hsome
        cases hsome
      rw [Option.none_or, hrs]
      rfl

/-- Taking away the writes at a path that the others are apart from. -/
theorem removeWriteAtPath (h : Gathers cw ws) {p : List String}
    (hp : ∀ w ∈ ws, w.1 = p ∨ KeyedTree.Apart p w.1) :
    Gathers (cw.removeWriteAtPath p) (ws.filter fun w => w.1 ≠ p) := by
  have htree : (cw.removeWriteAtPath p).writeTree =
      FImmutableTree.setTree FImmutableTree.empty p cw.writeTree := by
    cases p <;> rfl
  -- none of the writes is above the path
  have habove : ∀ p', p' <+: p → p' ≠ p →
      FCompoundWrite.completeNodeIn cw.writeTree p' = none := by
    intro p' hp' hne
    refine h.completeNodeAtPath_eq_none fun w hw hwp => ?_
    rcases hp w hw with rfl | hapart
    · exact hne (hp'.eq_of_length_le hwp.length_le)
    · exact hapart.2 (hwp.trans hp')
  have hmem : ∀ w, w ∈ ws.filter (fun w => w.1 ≠ p) ↔ w ∈ ws ∧ w.1 ≠ p := by
    intro w
    rw [List.mem_filter, decide_eq_true_iff]
  constructor
  · intro q
    change (FCompoundWrite.completeNodeIn (cw.removeWriteAtPath p).writeTree q).isSome = true ↔ _
    rw [htree, FCompoundWrite.completeNodeIn_removeTree habove]
    have hold := h.complete_iff q
    by_cases hq : p <+: q
    · rw [if_pos hq]
      refine ⟨fun hf => (Bool.false_ne_true hf).elim, ?_⟩
      rintro ⟨w, hw, hwq⟩
      obtain ⟨hw, hne⟩ := (hmem w).1 hw
      have hapart := (hp w hw).resolve_left hne
      rcases List.prefix_or_prefix_of_prefix hwq hq with hp' | hp'
      exacts [(hapart.2 hp').elim, (hapart.1 hp').elim]
    · rw [if_neg hq]
      refine hold.trans ⟨?_, ?_⟩
      · rintro ⟨w, hw, hwq⟩
        refine ⟨w, (hmem w).2 ⟨hw, ?_⟩, hwq⟩
        rintro rfl
        exact hq hwq
      · rintro ⟨w, hw, hwq⟩
        exact ⟨w, ((hmem w).1 hw).1, hwq⟩
  · intro q
    change (treePatch (cw.removeWriteAtPath p).writeTree q).getD none = _
    rw [htree, getD_treePatch_removeTree habove]
    have hold := h.leaves q
    by_cases hq : p <+: q
    · -- below the path no write is left
      rw [if_pos hq]
      refine (getD_writesPatch_none fun w hw hwq => ?_).symm
      obtain ⟨hw, hne⟩ := (hmem w).1 hw
      have hapart := (hp w hw).resolve_left hne
      rcases List.prefix_or_prefix_of_prefix hwq hq with hp' | hp'
      exacts [hapart.2 hp', hapart.1 hp']
    · rw [if_neg hq]
      refine hold.trans ?_
      by_cases hqp : q <+: p
      · -- above the path no write leads to the place, then or now
        have hno : ∀ w ∈ ws, ¬ w.1 <+: q := by
          intro w hw hwq
          rcases hp w hw with rfl | hapart
          · exact hq hwq
          · exact hapart.2 (hwq.trans hqp)
        rw [getD_writesPatch_none hno, getD_writesPatch_none fun w hw => hno w ((hmem w).1 hw).1]
      · refine congrArg (fun x => Option.getD x none) (writesPatch_filter fun w hw hkeep => ?_).symm
        have hwp : w.1 = p := by simpa using hkeep
        rw [hwp]
        exact FNode.setPatch_of_apart ⟨hq, hqp⟩ w.2

/-- Taking away writes apart from each other and from the rest. -/
theorem removeWrites {rs bs : List (List String × FNode)} (h : Gathers cw (rs ++ bs))
    (hrs : rs.Pairwise fun r r' => KeyedTree.Apart r.1 r'.1)
    (hbs : ∀ r ∈ rs, ∀ b ∈ bs, KeyedTree.Apart r.1 b.1) :
    Gathers ((rs.map Prod.fst).foldl FCompoundWrite.removeWriteAtPath cw) bs := by
  induction rs generalizing cw with
  | nil => exact h
  | cons r rs ih =>
    rw [List.pairwise_cons] at hrs
    have hothers : ∀ w ∈ rs ++ bs, KeyedTree.Apart r.1 w.1 := by
      intro w hw
      rcases List.mem_append.1 hw with hw | hw
      exacts [hrs.1 w hw, hbs r List.mem_cons_self w hw]
    have hremoved := h.removeWriteAtPath (p := r.1) fun w hw => by
      rcases List.mem_cons.1 hw with rfl | hw
      exacts [Or.inl rfl, Or.inr (hothers w hw)]
    have hfilter : ((r :: rs) ++ bs).filter (fun w => w.1 ≠ r.1) = rs ++ bs := by
      rw [List.cons_append, List.filter_cons_of_neg (by simp), List.filter_eq_self]
      intro w hw
      rw [decide_eq_true_iff]
      intro heq
      have hapart := hothers w hw
      rw [heq] at hapart
      exact hapart.1 (List.prefix_refl _)
    rw [hfilter] at hremoved
    exact ih hremoved hrs.2 fun r' hr' => hbs r' (List.mem_cons_of_mem r hr')

end Gathers

/-! ## The writes of a record -/

namespace FImmutableTree

variable {α : Type}

theorem mem_childrenForEach {cs : List (String × FImmutableTree α)}
    {e : List String × α} (h : e ∈ childrenForEach cs) :
    ∃ c ∈ cs, ∃ e' ∈ c.2.forEach, e = (c.1 :: e'.1, e'.2) := by
  induction cs with
  | nil => exact absurd h List.not_mem_nil
  | cons c cs ih =>
    obtain ⟨k, child⟩ := c
    rw [childrenForEach, List.mem_append] at h
    rcases h with h | h
    · obtain ⟨e', he', rfl⟩ := List.mem_map.1 h
      exact ⟨(k, child), List.mem_cons_self, e', he', rfl⟩
    · obtain ⟨c, hc, hrest⟩ := ih h
      exact ⟨c, List.mem_cons_of_mem _ hc, hrest⟩

/-- The paths written in a tree are apart from each other. -/
theorem pairwise_apart_forEach {t : FImmutableTree α} (h : t.WellFormed) :
    t.forEach.Pairwise fun e e' => KeyedTree.Apart e.1 e'.1 := by
  induction h with
  | written v => exact List.pairwise_singleton _ _
  | @node cs hnodup hne hcs ih =>
    rw [forEach, Option.toList_none, List.map_nil, List.append_nil]
    clear hne hcs
    induction cs with
    | nil => exact List.Pairwise.nil
    | cons c cs ihcs =>
      obtain ⟨k, child⟩ := c
      rw [List.map_cons, List.nodup_cons] at hnodup
      rw [childrenForEach, List.pairwise_append]
      refine ⟨?_, ihcs hnodup.2 fun c hc => ih c (List.mem_cons_of_mem _ hc), ?_⟩
      · have hchild := ih (k, child) List.mem_cons_self
        rw [List.pairwise_map]
        exact hchild.imp fun hapart => (KeyedTree.apart_append_left [k]).2 hapart
      · -- paths of two children start with two keys
        intro e he e' he'
        obtain ⟨e₀, -, rfl⟩ := List.mem_map.1 he
        obtain ⟨c, hc, e₁, -, rfl⟩ := mem_childrenForEach he'
        refine KeyedTree.apart_cons_of_ne ?_ _ _
        rintro rfl
        exact hnodup.1 (List.mem_map.2 ⟨c, hc, rfl⟩)

end FImmutableTree

namespace FWriteRecord

/-- The writes of a record, one by one. -/
def writes (record : FWriteRecord) : List (List String × FNode) :=
  match record.change with
  | .overwrite node => [(record.path, node)]
  | .merge changedChildren =>
    changedChildren.enumerateWrites.map fun e => (record.path ++ e.1, e.2)

/-- A record's writes are at its path or below it. -/
theorem prefix_of_mem_writes {r : FWriteRecord} {w : List String × FNode} (hw : w ∈ r.writes) :
    r.path <+: w.1 := by
  unfold writes at hw
  cases hc : r.change with
  | overwrite node =>
    rw [hc] at hw
    rw [List.mem_singleton.1 hw]
  | merge changedChildren =>
    rw [hc] at hw
    obtain ⟨e, -, rfl⟩ := List.mem_map.1 hw
    exact List.prefix_append _ _

theorem pairwise_apart_writes (r : FWriteRecord) :
    r.writes.Pairwise fun w w' => KeyedTree.Apart w.1 w'.1 := by
  unfold writes
  cases r.change with
  | overwrite node => exact List.pairwise_singleton _ _
  | merge changedChildren =>
    rw [List.pairwise_map]
    refine (pairwise_apart_forEach changedChildren.wellFormed).imp fun hapart => ?_
    exact (KeyedTree.apart_append_left r.path).2 hapart

/-- A record contains a path when one of its writes leads to it. -/
theorem containsPath_iff {r : FWriteRecord} {p : List String} :
    r.containsPath p = true ↔ ∃ w ∈ r.writes, w.1 <+: p := by
  unfold containsPath writes
  cases r.change with
  | overwrite node => simp [FPath.contains]
  | merge changedChildren =>
    simp only [FPath.contains, List.any_eq_true, decide_eq_true_iff, List.mem_map]
    constructor
    · rintro ⟨e, he, hp⟩
      exact ⟨_, ⟨e, he, rfl⟩, hp⟩
    · rintro ⟨_, ⟨e, he, rfl⟩, hp⟩
      exact ⟨e, he, hp⟩

end FWriteRecord

namespace FWriteTree

/-- The writes of some records, one by one. -/
def writesOf (records : List FWriteRecord) : List (List String × FNode) :=
  records.flatMap FWriteRecord.writes

theorem pathsToRemove_eq (r : FWriteRecord) : pathsToRemove r = r.writes.map Prod.fst := by
  unfold pathsToRemove FWriteRecord.writes
  cases r.change with
  | overwrite node => rfl
  | merge changedChildren => rw [List.map_map]; rfl

/-- One record laid over the records before it. -/
theorem gathers_layerRecord {cw : FCompoundWrite} {ws : List (List String × FNode)}
    (h : Gathers cw ws) (r : FWriteRecord) : Gathers (layerRecord [] cw r) (ws ++ r.writes) := by
  have hcontains : FPath.contains [] r.path = true := decide_eq_true List.nil_prefix
  unfold layerRecord FWriteRecord.writes
  cases r.change with
  | overwrite node =>
    simp only [hcontains, if_true]
    exact h.addWrite node r.path
  | merge changedChildren =>
    simp only [hcontains, if_true]
    exact h.addCompoundWrite changedChildren r.path

/-- **Built again from the records, the tree gathers their writes.** -/
theorem gathers_layerTreeFromWrites (records : List FWriteRecord) :
    Gathers (layerTreeFromWrites records defaultFilter []) (writesOf records) := by
  have hfold : ∀ (cw : FCompoundWrite) (ws : List (List String × FNode)), Gathers cw ws →
      Gathers (records.foldl (layerRecord []) cw) (ws ++ writesOf records) := by
    induction records with
    | nil =>
      intro cw ws h
      rw [writesOf, List.flatMap_nil, List.append_nil]
      exact h
    | cons r records ih =>
      intro cw ws h
      have hrest := ih _ _ (gathers_layerRecord h r)
      rw [List.append_assoc] at hrest
      exact hrest
  have hkeep : records.filter defaultFilter = records := List.filter_eq_self.2 fun _ _ => rfl
  rw [layerTreeFromWrites, hkeep]
  exact hfold _ [] gathers_emptyWrite

/-! ## Removing a write -/

/-- **Whatever the loop finds, the record is gone and the others stay.** -/
theorem removeWriteId_allWrites {s : FWriteTree} {writeId bound : ℤ}
    (hnodup : (s.allWrites.map FWriteRecord.writeId).Nodup)
    (hmem : writeId ∈ s.allWrites.map FWriteRecord.writeId) (hbound : 0 ≤ bound)
    (hlt : ∀ r ∈ s.allWrites, r.writeId < bound) (hlast : s.lastWriteId < bound) :
    ∃ s' b, s.removeWriteId writeId = some (s', b) ∧
      s'.allWrites = (s.allWrites.filter fun r => r.writeId ≠ writeId) ∧
      s'.lastWriteId < bound := by
  cases hindex : s.allWrites.findIdx? fun record => record.writeId = writeId with
  | none =>
    obtain ⟨r, hr, heq⟩ := List.mem_map.1 hmem
    have hno := List.findIdx?_eq_none_iff.1 hindex r hr
    rw [decide_eq_false_iff_not] at hno
    exact absurd heq hno
  | some index =>
    obtain ⟨hi, hid, -⟩ := List.findIdx?_eq_some_iff_getElem.1 hindex
    rw [decide_eq_true_iff] at hid
    have hget : s.allWrites[index]? = some s.allWrites[index] := List.getElem?_eq_getElem hi
    have herase := Dictionary.eraseIdx_eq_removed hnodup hi
    rw [hid] at herase
    have hreset : ∀ left : FWriteTree, left.allWrites = s.allWrites.eraseIdx index →
        left.resetTree.lastWriteId < bound := by
      intro left hleft
      unfold resetTree
      dsimp only
      cases hl : left.allWrites.getLast? with
      | none =>
        simp only [Option.map_none, Option.getD_none]
        omega
      | some r =>
        have hr : r ∈ s.allWrites :=
          List.mem_of_mem_eraseIdx (hleft ▸ List.mem_of_getLast? hl)
        exact hlt r hr
    unfold removeWriteId
    simp only [hindex, hget]
    split
    · exact ⟨_, _, rfl, herase, hlast⟩
    · exact ⟨_, _, rfl, herase, hreset _ rfl⟩
    · exact ⟨_, _, rfl, herase, hlast⟩

/-! ## Removing the oldest write -/

/-- A later record leaves a write's own paths alone, or covers them all:
it is not above the write, or covers it, or writes beside it. -/
def Aside (r c : FWriteRecord) : Prop :=
  c.path <+: r.path ∧ c.path ≠ r.path →
    c.containsPath r.path = true ∨ ∀ w ∈ r.writes, ∀ w' ∈ c.writes, KeyedTree.Apart w.1 w'.1

/-- **A merge of plain keys is aside of every write.** -/
theorem aside_of_singleKeys {r c : FWriteRecord}
    (h : ∀ w ∈ c.writes, w.1 = c.path ∨ ∃ k, w.1 = c.path ++ [k]) : Aside r c := by
  rintro ⟨⟨rest, hrest⟩, hne⟩
  by_cases hcovers : c.containsPath r.path = true
  · exact Or.inl hcovers
  · refine Or.inr fun w hw w' hw' => ?_
    have hno : ¬ w'.1 <+: r.path := fun hp =>
      hcovers (FWriteRecord.containsPath_iff.2 ⟨w', hw', hp⟩)
    have hrw : r.path <+: w.1 := FWriteRecord.prefix_of_mem_writes hw
    rcases h w' hw' with heq | ⟨k, heq⟩
    · rw [heq] at hno
      exact absurd ⟨rest, hrest⟩ hno
    · cases rest with
      | nil => exact absurd (by rw [← hrest, List.append_nil]) hne
      | cons k' rest =>
        -- the first pieces below the common path are two
        have hk : k' ≠ k := by
          rintro rfl
          refine hno ⟨rest, ?_⟩
          rw [heq, ← hrest, List.append_assoc, List.singleton_append]
        obtain ⟨more, hmore⟩ := hrw
        have hw₀ : w.1 = c.path ++ k' :: (rest ++ more) := by
          rw [← hmore, ← hrest, List.append_assoc, List.cons_append]
        rw [hw₀, heq, KeyedTree.apart_append_left]
        exact KeyedTree.apart_cons_of_ne hk _ _

theorem overlapsFrom_covered {r : FWriteRecord} {rs : List FWriteRecord} (overlaps : Bool)
    (h : ∃ c ∈ rs, c.visible = true ∧ c.containsPath r.path = true) :
    (overlapsFrom r 0 rs (true, overlaps)).1 = false := by
  induction rs generalizing overlaps with
  | nil =>
    obtain ⟨c, hc, -⟩ := h
    exact absurd hc List.not_mem_nil
  | cons c rs ih =>
    have hstop : ∀ rs ov, overlapsFrom r 0 rs (false, ov) = (false, ov) := by
      intro rs ov
      cases rs <;> rfl
    by_cases hc : c.visible = true ∧ c.containsPath r.path = true
    · simp [overlapsFrom, hc.1, hc.2, hstop]
    · have hrest : ∃ c ∈ rs, c.visible = true ∧ c.containsPath r.path = true := by
        obtain ⟨c', hc', hcovers⟩ := h
        rcases List.mem_cons.1 hc' with rfl | hc'
        exacts [absurd hcovers hc, ⟨c', hc', hcovers⟩]
      unfold overlapsFrom
      by_cases hv : c.visible = true
      · have hno : c.containsPath r.path = false := by
          rw [Bool.eq_false_iff]
          exact fun hp => hc ⟨hv, hp⟩
        simp only [hv, hno, Bool.and_false, Bool.not_true, Bool.false_eq_true, if_false]
        split <;> exact ih _ hrest
      · simp only [Bool.eq_false_iff.2 hv, Bool.not_true, Bool.not_false, Bool.false_eq_true,
          if_false, if_true]
        exact ih _ hrest

theorem overlapsFrom_not_covered {r : FWriteRecord} (rs : List FWriteRecord) (overlaps : Bool)
    (h : ∀ c ∈ rs, c.visible = true ∧ c.containsPath r.path = false) :
    overlapsFrom r 0 rs (true, overlaps) =
      (true, overlaps || rs.any fun c => FPath.contains r.path c.path) := by
  induction rs generalizing overlaps with
  | nil => rw [List.any_nil, Bool.or_false]; rfl
  | cons c rs ih =>
    have hrest := ih (h := fun c' hc' => h c' (List.mem_cons_of_mem c hc'))
    obtain ⟨hv, hno⟩ := h c List.mem_cons_self
    unfold overlapsFrom
    simp only [hv, hno, Bool.and_false, Bool.not_true, Bool.false_eq_true, if_false, List.any_cons]
    cases FPath.contains r.path c.path with
    | true => rw [if_pos rfl, hrest, Bool.true_or, Bool.or_true]
    | false => rw [if_neg Bool.false_ne_true, hrest, Bool.false_or]

/-- What removing the oldest write makes of the tree, when it is visible. -/
theorem removeWriteId_head {s : FWriteTree} {r : FWriteRecord} {rest : List FWriteRecord}
    (hall : s.allWrites = r :: rest) (hr : r.visible = true) {removed overlaps : Bool}
    (hscan : overlapsFrom r 0 rest.reverse (true, false) = (removed, overlaps)) :
    s.removeWriteId r.writeId = some
      (if removed then
        if overlaps then ({ s with allWrites := rest } : FWriteTree).resetTree
        else { s with
          allWrites := rest
          visibleWrites :=
            (pathsToRemove r).foldl FCompoundWrite.removeWriteAtPath s.visibleWrites }
      else { s with allWrites := rest }, removed) := by
  have hindex : s.allWrites.findIdx? (fun record => record.writeId = r.writeId) = some 0 := by
    rw [hall, List.findIdx?_cons, if_pos (decide_eq_true rfl)]
  have hget : s.allWrites[0]? = some r := by rw [hall, List.getElem?_cons_zero]
  have herase : s.allWrites.eraseIdx 0 = rest := by rw [hall, List.eraseIdx_cons_zero]
  unfold removeWriteId
  rw [hindex]
  dsimp only
  rw [hget]
  dsimp only
  rw [herase, hr, hscan]
  cases removed with
  | false => rfl
  | true => cases overlaps <;> rfl

/-- **Removing the oldest write** leaves the tree gathering the writes of
the others, when all are visible and the others aside of it. -/
theorem gathers_removeWriteId {s : FWriteTree} {r : FWriteRecord} {rest : List FWriteRecord}
    (h : Gathers s.visibleWrites (writesOf s.allWrites)) (hall : s.allWrites = r :: rest)
    (hvisible : ∀ c ∈ s.allWrites, c.visible = true) (haside : ∀ c ∈ rest, Aside r c) :
    ∃ s' b, s.removeWriteId r.writeId = some (s', b) ∧ s'.allWrites = rest ∧
      Gathers s'.visibleWrites (writesOf rest) := by
  rw [hall] at h hvisible
  have hsplit : writesOf (r :: rest) = r.writes ++ writesOf rest := List.flatMap_cons
  rw [hsplit] at h
  have hmem : ∀ {c : FWriteRecord}, c ∈ rest.reverse ↔ c ∈ rest := List.mem_reverse
  have hr : r.visible = true := hvisible r List.mem_cons_self
  by_cases hcovered : ∃ c ∈ rest, c.containsPath r.path = true
  · -- a later write covers the removed one
    obtain ⟨c, hc, hcovers⟩ := hcovered
    have hfirst := overlapsFrom_covered false
      ⟨c, hmem.2 hc, hvisible c (List.mem_cons_of_mem r hc), hcovers⟩
    obtain ⟨b, hb⟩ : ∃ b, overlapsFrom r 0 rest.reverse (true, false) = (false, b) :=
      ⟨_, Prod.ext hfirst rfl⟩
    rw [removeWriteId_head hall hr hb]
    refine ⟨_, _, rfl, rfl, h.of_covered fun w hw => ?_⟩
    obtain ⟨w', hw', hp⟩ := FWriteRecord.containsPath_iff.1 hcovers
    exact ⟨w', List.mem_flatMap.2 ⟨c, hc, hw'⟩, hp.trans (FWriteRecord.prefix_of_mem_writes hw)⟩
  · have hno : ∀ c ∈ rest, c.containsPath r.path = false := fun c hc =>
      Bool.eq_false_iff.2 fun hp => hcovered ⟨c, hc, hp⟩
    have hscan := overlapsFrom_not_covered rest.reverse false (r := r) fun c hc =>
      ⟨hvisible c (List.mem_cons_of_mem r (hmem.1 hc)), hno c (hmem.1 hc)⟩
    rw [Bool.false_or, List.any_reverse] at hscan
    rw [removeWriteId_head hall hr hscan]
    cases hover : rest.any fun c => FPath.contains r.path c.path with
    | true =>
      -- some are below it: the tree is built again
      exact ⟨_, _, rfl, rfl, gathers_layerTreeFromWrites rest⟩
    | false =>
      -- the others are apart from it: its paths are taken away
      refine ⟨_, _, rfl, rfl, ?_⟩
      rw [pathsToRemove_eq]
      refine h.removeWrites (FWriteRecord.pairwise_apart_writes r) fun w hw w' hw' => ?_
      obtain ⟨c, hc, hwc⟩ := List.mem_flatMap.1 hw'
      have hbelow : ¬ r.path <+: c.path := by
        intro hp
        have hany := List.any_eq_false.1 hover c hc
        exact hany (decide_eq_true hp)
      by_cases habove : c.path <+: r.path
      · have hne : c.path ≠ r.path := fun heq => hbelow (heq ▸ List.prefix_refl _)
        have hcase := haside c hc ⟨habove, hne⟩
        rw [hno c hc] at hcase
        exact hcase.resolve_left Bool.false_ne_true w hw w' hwc
      · obtain ⟨more, hmore⟩ := FWriteRecord.prefix_of_mem_writes hw
        obtain ⟨more', hmore'⟩ := FWriteRecord.prefix_of_mem_writes hwc
        rw [← hmore, ← hmore']
        exact KeyedTree.Apart.append ⟨hbelow, habove⟩ more more'

end FWriteTree

end DevicesTracker
