import DevicesTracker.Store.Record
/-!
# The locations in the database

What the buckets of a device hold and what becomes of it. Where the names
are new, a child of a bucket is the record of a location call of the
device (`exists_call_of_child`), and no event of any device changes it
(`location_kept`): the buckets only grow.
-/

universe u

namespace DevicesTracker

variable {ι : Type u} [DecidableEq ι] {uuid : ι → String}

/-! ## What is stored stays -/

/-- An effect that gives a new name leaves the children of the buckets
alone. -/
theorem Effect.getImmediateChild_eq {h : History} {r r' : FNode} {e : Event}
    (he : Effect h r e r') (hname : h.NewName e) {k c : String} (hks : k ≠ "SystemInfo")
    (hkm : k ≠ "ManualInfo") (hgiven : c ∈ h.names k) :
    (r'.getImmediateChild k).getImmediateChild c = (r.getImmediateChild k).getImmediateChild c := by
  cases he with
  | quiet hcall hsystem hmanual hlocations => rfl
  | saved proj resp => rw [FNode.getImmediateChild_updateChild_of_ne r hkm]
  | registered hcall hdevice hempty => rw [FNode.getImmediateChild_updateChild_of_ne r hks]
  | found hcall hfound => rfl
  | @located handle serverTime random clock newLocation hcall hnew =>
    by_cases hk : k = clock.dayKey
    · subst hk
      rw [FNode.getImmediateChild_updateChild_self]
      -- the name written to is new, so it is another one
      have hne : c ≠ (FNextPushId.get h.pushId serverTime random).1 := fun heq =>
        hname.notMem_names hcall (heq ▸ hgiven)
      rw [FNode.getImmediateChild_updateChild_of_ne _ hne]
    · rw [FNode.getImmediateChild_updateChild_of_ne r hk]

section Run

variable (hapart : ∀ d d', d ≠ d' →
  KeyedTree.Apart (World.recordRef uuid d) (World.recordRef uuid d'))

include hapart

/-- **A stored location is never changed**: a child a bucket has at some
point of a run is the same at its end, whatever all the devices do. -/
theorem location_kept {tr₀ tr : List (ι × Event)} {w₀ w : World ι} (hsuf : tr₀ <:+ tr)
    (hrun₀ : (World.machine uuid).run tr₀ = some w₀) (hrun : (World.machine uuid).run tr = some w)
    (hnew : (World.machine uuid).EveryStep
      (fun tr _ a => History.NewName (Machine.own a.1 tr) a.2) tr) (d : ι)
    {k c : String} (hks : k ≠ "SystemInfo") (hkm : k ≠ "ManualInfo")
    (hthere : (((w₀.record uuid d).getImmediateChild k).getImmediateChild c).isEmpty = false) :
    ((w.record uuid d).getImmediateChild k).getImmediateChild c =
      ((w₀.record uuid d).getImmediateChild k).getImmediateChild c := by
  refine (record_induction hapart (P := fun h r =>
    (∃ autoId, Bucketed h k (r.getImmediateChild k) autoId) ∧
      (r.getImmediateChild k).getImmediateChild c =
        ((w₀.record uuid d).getImmediateChild k).getImmediateChild c)
    (fun w hw => ?_) (fun _ hname hkept he => ?_) hsuf hnew hrun).2
  · obtain rfl := Option.some.inj (hrun₀.symm.trans hw)
    exact ⟨bucketed_run hapart hrun₀ (hnew.of_suffix hsuf) d hks hkm, rfl⟩
  · obtain ⟨⟨autoId, hb⟩, hsame⟩ := hkept
    refine ⟨Bucketed.effect hks hkm ⟨autoId, hb⟩ he hname, ?_⟩
    rw [← hsame] at hthere ⊢
    exact he.getImmediateChild_eq hname hks hkm (hb.names c hthere)

end Run

theorem location_kept_pair :
    ∃ w₀ w, (World.machine pairUuid).run (pairRun 1540000000000).tail = some w₀ ∧
      (World.machine pairUuid).run (pairRun 1540000000000) = some w ∧
      (((w₀.record pairUuid true).getImmediateChild "2018:10:20").getImmediateChild
        "-LPE8mV-------------").isEmpty = false ∧
      ((w.record pairUuid true).getImmediateChild "2018:10:20").getImmediateChild
          "-LPE8mV-------------" =
        ((w₀.record pairUuid true).getImmediateChild "2018:10:20").getImmediateChild
          "-LPE8mV-------------" := by
  have hthere : ((World.machine pairUuid).run (pairRun 1540000000000).tail).any (fun w₀ =>
      !(((w₀.record pairUuid true).getImmediateChild "2018:10:20").getImmediateChild
        "-LPE8mV-------------").isEmpty) = true := by
    decide +kernel
  obtain ⟨w₀, hw₀, hchild⟩ := (Option.any_eq_true _ _).1 hthere
  have hchild₀ : (((w₀.record pairUuid true).getImmediateChild "2018:10:20").getImmediateChild
      "-LPE8mV-------------").isEmpty = false := by simpa using hchild
  refine ⟨w₀, _, hw₀, rfl, hchild₀, ?_⟩
  exact location_kept (fun d d' hd => apart_recordRef injective_pairUuid (by decide) (by decide) hd)
    (List.tail_suffix _) hw₀ rfl newNames_pairRun true (by decide) (by decide) hchild₀

end DevicesTracker
