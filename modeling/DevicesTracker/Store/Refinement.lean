import Mathlib.Data.Set.Function
import DevicesTracker.Store.Effect
/-!
# The database refines the histories

`Holds` relates a record to a history up to the names of the locations,
and `Bucketed` names them: the children of a day's bucket are the
locations answered with that day's key, one child each. An effect on the
record keeps both, whatever device it is of; `follows_run` and
`bucketed_run` carry them through every run of all the devices, and
`record_refines_history` reads them off.
-/

universe u

namespace DevicesTracker

open FirebaseService (manualInfoNode)

/-! ## Records and histories -/

/-- The node of a registered device. -/
def systemInfoNode : Option Device → FNode
  | some device => FNode.nodeFrom device.toAnyObject
  | none => FNode.emptyNode

/-- **A record that holds what its history says**, but for the locations'
names. -/
structure Holds (h : History) (r : FNode) : Prop where
  isLeafNode : r.isLeafNode = false
  systemInfo : r.getImmediateChild "SystemInfo" = systemInfoNode h.systemInfo
  manualInfo : r.getImmediateChild "ManualInfo" = manualInfoNode h.manualInfo.1 h.manualInfo.2
  bucket : ∀ k, k ≠ "SystemInfo" → k ≠ "ManualInfo" →
    ((r.getImmediateChild k).isEmpty = true ↔ ∀ c ∈ h.locations, c.2.1.dayKey ≠ k)

theorem isEmpty_systemInfoNode_iff {device : Option Device} :
    (systemInfoNode device).isEmpty = true ↔ device = none := by
  cases device with
  | none => simp [systemInfoNode]
  | some device => simp [systemInfoNode, Device.isEmpty_nodeFrom_toAnyObject]

theorem isEmpty_manualInfoNode_iff {proj resp : Option String} :
    (manualInfoNode proj resp).isEmpty = true ↔ proj = none ∧ resp = none := by
  cases proj <;> cases resp <;> simp <;> rfl

theorem manualInfoNode_none : manualInfoNode none none = FNode.emptyNode :=
  FNode.isEmpty_iff.1 (isEmpty_manualInfoNode_iff.2 ⟨rfl, rfl⟩)

theorem dayKey_ne_systemInfo (clock : Clock) : clock.dayKey ≠ "SystemInfo" :=
  Clock.dayKey_ne_of_notMem (by decide)

theorem dayKey_ne_manualInfo (clock : Clock) : clock.dayKey ≠ "ManualInfo" :=
  Clock.dayKey_ne_of_notMem (by decide)

theorem holds_nil : Holds [] FNode.emptyNode where
  isLeafNode := rfl
  systemInfo := rfl
  manualInfo := manualInfoNode_none.symm
  bucket _ _ _ := ⟨fun _ _ hc => absurd hc List.not_mem_nil, fun _ => rfl⟩

/-- **The test of the registration callback is `Untouched`.** -/
theorem Holds.isEmpty_iff {h : History} {r : FNode} (hr : Holds h r) :
    r.isEmpty = true ↔ h.Untouched := by
  rw [FNode.isEmpty_iff_children hr.isLeafNode]
  constructor
  · intro hall
    have hsystem := hall "SystemInfo"
    have hmanual := hall "ManualInfo"
    rw [hr.systemInfo, isEmpty_systemInfoNode_iff] at hsystem
    rw [hr.manualInfo, isEmpty_manualInfoNode_iff] at hmanual
    refine ⟨hsystem, Prod.ext hmanual.1 hmanual.2, ?_⟩
    -- a location would be in the bucket of its day
    rw [List.eq_nil_iff_forall_not_mem]
    intro c hc
    have hbucket := hr.bucket c.2.1.dayKey (dayKey_ne_systemInfo _) (dayKey_ne_manualInfo _)
    exact hbucket.1 (hall _) c hc rfl
  · rintro ⟨hsystem, hmanual, hlocations⟩ k
    by_cases hks : k = "SystemInfo"
    · rw [hks, hr.systemInfo, hsystem]
      rfl
    by_cases hkm : k = "ManualInfo"
    · rw [hkm, hr.manualInfo, hmanual, manualInfoNode_none]
      rfl
    · rw [hr.bucket k hks hkm, hlocations]
      exact fun c hc => absurd hc List.not_mem_nil

/-- **An effect keeps a record to its history.** -/
theorem Holds.effect {h : History} {r r' : FNode} {e : Event} (hr : Holds h r)
    (he : Effect h r e r') : Holds (e :: h) r' := by
  cases he with
  | quiet hcall hsystem hmanual hlocations =>
    exact ⟨hr.isLeafNode, hsystem ▸ hr.systemInfo, hmanual ▸ hr.manualInfo, hlocations ▸ hr.bucket⟩
  | saved proj resp =>
    have hne : "SystemInfo" ≠ "ManualInfo" := by decide
    refine ⟨FNode.isLeafNode_updateChild_cons hr.isLeafNode _ _ _, ?_, ?_, fun k hks hkm => ?_⟩
    · rw [FNode.getImmediateChild_updateChild_of_ne r hne]
      exact hr.systemInfo
    · rw [FNode.getImmediateChild_updateChild_self]
      rfl
    · rw [FNode.getImmediateChild_updateChild_of_ne r hkm]
      exact hr.bucket k hks hkm
  | registered hcall hdevice hempty =>
    have hu := hr.isEmpty_iff.1 hempty
    have hne : "ManualInfo" ≠ "SystemInfo" := by decide
    refine ⟨FNode.isLeafNode_updateChild_cons hr.isLeafNode _ _ _, ?_, ?_, fun k hks hkm => ?_⟩
    · rw [FNode.getImmediateChild_updateChild_self,
        History.systemInfo_answer_launch_of_untouched hcall hu, hdevice]
      rfl
    · rw [FNode.getImmediateChild_updateChild_of_ne r hne]
      exact hr.manualInfo
    · rw [FNode.getImmediateChild_updateChild_of_ne r hks, History.locations_answer_launch hcall]
      exact hr.bucket k hks hkm
  | found hcall hfound =>
    -- the record is there, so the answer registers nothing in the history either
    have hu : ¬ h.Untouched := fun hu => by simp [hr.isEmpty_iff.2 hu] at hfound
    refine ⟨hr.isLeafNode, ?_, hr.manualInfo, ?_⟩
    · rw [History.systemInfo_answer_launch_of_not_untouched hcall hu]
      exact hr.systemInfo
    · rw [History.locations_answer_launch hcall]
      exact hr.bucket
  | @located handle serverTime random clock newLocation hcall hnew =>
    let autoId := (FNextPushId.get h.pushId serverTime random).1
    refine ⟨FNode.isLeafNode_updateChild_cons hr.isLeafNode _ _ _, ?_, ?_, fun k hks hkm => ?_⟩
    · rw [FNode.getImmediateChild_updateChild_of_ne r (dayKey_ne_systemInfo clock).symm,
        History.systemInfo_answer_location hcall]
      exact hr.systemInfo
    · rw [FNode.getImmediateChild_updateChild_of_ne r (dayKey_ne_manualInfo clock).symm]
      exact hr.manualInfo
    · rw [History.locations_answer_location hcall, List.forall_mem_cons]
      by_cases hk : k = clock.dayKey
      · -- the bucket written to has a child now, and the answered call its key
        have hchild : ((r.getImmediateChild clock.dayKey).updateChild [autoId]
            (FNode.nodeFrom newLocation.toAnyObject)).isEmpty = false := by
          refine FNode.isEmpty_eq_false_of_getChild ?_ (p := [autoId])
          rw [FNode.getChild_updateChild_self]
          exact newLocation.isEmpty_nodeFrom_toAnyObject
        rw [hk, FNode.getImmediateChild_updateChild_self, hchild]
        simp
      · rw [FNode.getImmediateChild_updateChild_of_ne r hk, hr.bucket k hks hkm]
        exact (and_iff_right (Ne.symm hk)).symm

/-! ## The children of a day's bucket -/

/-- The answered calls of a day key. -/
def History.locatedOn (h : History) (k : String) : Set ℕ :=
  { n | ∃ clock newLocation, (n, clock, newLocation) ∈ h.locations ∧ clock.dayKey = k }

/-- The names of a node's children. -/
def FNode.childNames (n : FNode) : Set String := { c | (n.getImmediateChild c).isEmpty = false }

theorem FNode.childNames_emptyNode : FNode.childNames FNode.emptyNode = ∅ := by
  refine Set.eq_empty_of_forall_notMem fun c hc => ?_
  rw [FNode.childNames, Set.mem_ofPred_eq, FNode.getImmediateChild_emptyNode] at hc
  cases hc

/-- **A bucket that holds the locations of its day**, one child each, under
the names `autoId` gives. -/
structure Bucketed (h : History) (k : String) (bucket : FNode) (autoId : ℕ → String) : Prop where
  bijOn : Set.BijOn autoId (h.locatedOn k) bucket.childNames
  location : ∀ n clock newLocation, (n, clock, newLocation) ∈ h.locations → clock.dayKey = k →
    bucket.getImmediateChild (autoId n) = FNode.nodeFrom newLocation.toAnyObject
  names : ∀ c ∈ bucket.childNames, c ∈ h.names k

theorem bucketed_nil (k : String) (autoId : ℕ → String) : Bucketed [] k FNode.emptyNode autoId where
  bijOn := by
    have hcalls : History.locatedOn [] k = ∅ :=
      Set.eq_empty_of_forall_notMem fun n ⟨_, _, hmem, _⟩ => List.not_mem_nil hmem
    rw [hcalls, FNode.childNames_emptyNode]
    exact Set.bijOn_empty autoId
  location _ _ _ hmem := absurd hmem List.not_mem_nil
  names c hc := absurd (FNode.childNames_emptyNode ▸ hc) (Set.notMem_empty c)

/-- A bucket depends on the answered locations and the names given only. -/
theorem Bucketed.congr {h h' : History} {k : String} {bucket : FNode} {autoId : ℕ → String}
    (hb : Bucketed h k bucket autoId) (hlocations : h.locations = h'.locations)
    (hnames : h'.names k = h.names k) : Bucketed h' k bucket autoId where
  bijOn := by
    have hcalls : h.locatedOn k = h'.locatedOn k := by rw [History.locatedOn, hlocations]; rfl
    exact hcalls ▸ hb.bijOn
  location := hlocations ▸ hb.location
  names := hnames ▸ hb.names

/-- **One location more**, under a name the bucket does not have. -/
theorem Bucketed.insert {h : History} {bucket : FNode} {autoId : ℕ → String} {e : Event} {n : ℕ}
    {clock : Clock} {newLocation : DeviceLocations} {name : String}
    (hb : Bucketed h clock.dayKey bucket autoId)
    (hlocations : History.locations (e :: h) = (n, clock, newLocation) :: h.locations)
    (hnew : ∀ c ∈ h.locations, c.1 ≠ n)
    (hgiven : History.names clock.dayKey (e :: h) = name :: h.names clock.dayKey)
    (hunused : name ∉ h.names clock.dayKey) :
    Bucketed (e :: h) clock.dayKey
      (bucket.updateChild [name] (FNode.nodeFrom newLocation.toAnyObject))
      (Function.update autoId n name) := by
  have hname : (bucket.getImmediateChild name).isEmpty = true := by
    by_contra hthere
    exact hunused (hb.names name (Bool.eq_false_iff.2 hthere))
  have hnotin : n ∉ h.locatedOn clock.dayKey := fun ⟨_, _, hmem, _⟩ => hnew _ hmem rfl
  have hcalls : History.locatedOn (e :: h) clock.dayKey =
      Insert.insert n (h.locatedOn clock.dayKey) := by
    ext m
    simp only [History.locatedOn, hlocations, List.mem_cons, Set.mem_ofPred_eq, Set.mem_insert_iff,
      Prod.mk.injEq]
    constructor
    · rintro ⟨clock', newLocation', ⟨rfl, -, -⟩ | hmem, hkey⟩
      exacts [.inl rfl, .inr ⟨clock', newLocation', hmem, hkey⟩]
    · rintro (rfl | ⟨clock', newLocation', hmem, hkey⟩)
      exacts [⟨clock, newLocation, .inl ⟨rfl, rfl, rfl⟩, rfl⟩,
        ⟨clock', newLocation', .inr hmem, hkey⟩]
  have hnames : (bucket.updateChild [name] (FNode.nodeFrom newLocation.toAnyObject)).childNames =
      Insert.insert name bucket.childNames := by
    ext c
    simp only [FNode.childNames, Set.mem_ofPred_eq, Set.mem_insert_iff]
    by_cases hc : c = name
    · have hchild := FNode.getChild_updateChild_self bucket [name]
        (FNode.nodeFrom newLocation.toAnyObject)
      rw [FNode.getChild_singleton] at hchild
      simp [hc, hchild, newLocation.isEmpty_nodeFrom_toAnyObject]
    · rw [FNode.getImmediateChild_updateChild_of_ne bucket hc]
      simp [hc]
  refine ⟨?_, fun m clock' newLocation' hmem hkey => ?_, fun c hc => ?_⟩
  · have hold : Set.BijOn (Function.update autoId n name) (h.locatedOn clock.dayKey)
        bucket.childNames := by
      refine hb.bijOn.congr fun m hm => ?_
      have hne : m ≠ n := fun heq => hnotin (heq ▸ hm)
      exact (Function.update_of_ne hne _ _).symm
    have hfresh : Function.update autoId n name n ∉ bucket.childNames := by
      rw [Function.update_self]
      intro hmem
      rw [FNode.childNames, Set.mem_ofPred_eq, hname] at hmem
      cases hmem
    have hins := hold.insert hfresh
    rw [Function.update_self] at hins
    rw [hcalls, hnames]
    exact hins
  · rw [hlocations, List.mem_cons] at hmem
    rcases hmem with heq | hmem
    · obtain ⟨rfl, rfl, rfl⟩ : m = n ∧ clock' = clock ∧ newLocation' = newLocation := by
        simpa using heq
      rw [Function.update_self]
      exact FNode.getChild_updateChild_self bucket [name] _
    · -- the older children stand under other names, since theirs are taken
      have hchild := hb.location m clock' newLocation' hmem hkey
      have hne : autoId m ≠ name := by
        intro heq
        rw [heq] at hchild
        rw [hchild, newLocation'.isEmpty_nodeFrom_toAnyObject] at hname
        cases hname
      rw [Function.update_of_ne (hnew _ hmem), FNode.getImmediateChild_updateChild_of_ne bucket hne]
      exact hchild
  · rw [hgiven]
    rw [hnames] at hc
    exact hc.elim (fun heq => heq ▸ List.mem_cons_self)
      fun hold => List.mem_cons_of_mem name (hb.names c hold)

/-- **An effect keeps the buckets**, if the name it gives is new. -/
theorem Bucketed.effect {h : History} {r r' : FNode} {e : Event} {k : String}
    (hks : k ≠ "SystemInfo") (hkm : k ≠ "ManualInfo")
    (hb : ∃ autoId, Bucketed h k (r.getImmediateChild k) autoId) (he : Effect h r e r')
    (hname : h.NewName e) : ∃ autoId, Bucketed (e :: h) k (r'.getImmediateChild k) autoId := by
  obtain ⟨autoId, hb⟩ := hb
  cases he with
  | quiet hcall hsystem hmanual hlocations =>
    exact ⟨autoId, hb.congr hlocations (History.names_cons hcall k)⟩
  | saved proj resp =>
    rw [FNode.getImmediateChild_updateChild_of_ne r hkm]
    exact ⟨autoId, hb.congr rfl rfl⟩
  | registered hcall hdevice hempty =>
    rw [FNode.getImmediateChild_updateChild_of_ne r hks]
    exact ⟨autoId, hb.congr (History.locations_answer_launch hcall).symm
      (History.names_answer_launch hcall k)⟩
  | found hcall hfound =>
    exact ⟨autoId, hb.congr (History.locations_answer_launch hcall).symm
      (History.names_answer_launch hcall k)⟩
  | @located handle serverTime random clock newLocation hcall hnew =>
    have hlocations : History.locations (.answer handle serverTime random :: h) =
        (handle, clock, newLocation) :: h.locations := History.locations_answer_location hcall
    have hgiven : History.names k (.answer handle serverTime random :: h) = _ :=
      History.names_answer_location hcall k
    by_cases hk : k = clock.dayKey
    · subst hk
      rw [if_pos rfl] at hgiven
      rw [FNode.getImmediateChild_updateChild_self]
      exact ⟨_, hb.insert hlocations hnew hgiven (hname.notMem_names hcall)⟩
    · -- a bucket of another day: neither the calls of the day nor the node change
      rw [if_neg (Ne.symm hk)] at hgiven
      rw [FNode.getImmediateChild_updateChild_of_ne r hk]
      refine ⟨autoId, ?_, fun m clock' newLocation' hmem hkey => ?_, hgiven ▸ hb.names⟩
      · have hcalls : History.locatedOn (.answer handle serverTime random :: h) k =
            h.locatedOn k := by
          ext m
          simp only [History.locatedOn, hlocations, List.mem_cons, Set.mem_ofPred_eq, Prod.mk.injEq]
          constructor
          · rintro ⟨clock', newLocation', ⟨-, rfl, -⟩ | hmem, hkey⟩
            exacts [absurd hkey.symm hk, ⟨clock', newLocation', hmem, hkey⟩]
          · rintro ⟨clock', newLocation', hmem, hkey⟩
            exact ⟨clock', newLocation', .inr hmem, hkey⟩
        rw [hcalls]
        exact hb.bijOn
      · rw [hlocations, List.mem_cons] at hmem
        rcases hmem with heq | hmem
        · obtain ⟨-, rfl, -⟩ : m = handle ∧ clock' = clock ∧ newLocation' = newLocation := by
            simpa using heq
          exact absurd hkey.symm hk
        · exact hb.location m clock' newLocation' hmem hkey

/-! ## Runs -/

variable {ι : Type u} [DecidableEq ι] {uuid : ι → String}

/-- **A device that follows its history**: its process and its record. -/
structure Follows (uuid : ι → String) (d : ι) (h : History) (w : World ι) : Prop where
  events : w.events d = h.length
  described : ∀ service, w.app d = some service → Described (World.recordRef uuid d) h service
  ended : w.app d = none → h.pushId = {}
  holds : Holds h (w.record uuid d)

/-- The event of a run, as its device's history sees it. -/
theorem Follows.stepped {d : ι} {h : History} {w w' : World ι} {e : Event}
    (hf : Follows uuid d h w) (hstep : (World.machine uuid).step w (d, e) = some w') :
    Stepped uuid d h w e w' :=
  stepped_of_step hf.events hf.described hf.ended hstep

section Run

variable (hapart : ∀ d d', d ≠ d' →
  KeyedTree.Apart (World.recordRef uuid d) (World.recordRef uuid d'))

include hapart

/-- **Every device follows its history**, in any run of all of them. -/
theorem follows_run {tr : List (ι × Event)} {w : World ι}
    (hrun : (World.machine uuid).run tr = some w) (d : ι) :
    Follows uuid d (Machine.own d tr) w := by
  refine Machine.run_induction (P := fun tr w => ∀ d, Follows uuid d (Machine.own d tr) w)
    (fun d => ?_) (fun {tr w a w'} _ ih hstep d => ?_) hrun d
  · refine ⟨rfl, fun _ hs => (nomatch hs), fun _ => rfl, ?_⟩
    rw [World.record_init]
    exact holds_nil
  · obtain ⟨d', e⟩ := a
    have hs := (ih d').stepped hstep
    by_cases hd : d = d'
    · subst hd
      rw [Machine.own_cons_self]
      refine ⟨?_, hs.described, hs.ended, (ih d).holds.effect hs.effect⟩
      rw [hs.events, (ih d).events, List.length_cons]
    · -- another device's event: nothing of this one has changed
      rw [Machine.own_cons_of_ne (Ne.symm hd)]
      obtain ⟨happ, hevents⟩ := hs.others d hd
      have hrecord : w'.record uuid d = w.record uuid d :=
        hs.apart _ (hapart d' d (Ne.symm hd))
      exact ⟨hevents ▸ (ih d).events, happ ▸ (ih d).described, happ ▸ (ih d).ended,
        hrecord ▸ (ih d).holds⟩

/-- **The rule for records**: what holds of a device's history and record at
some point of a run, and is kept by each effect on them of which the steps
promise `Q`, holds at its end. The other devices' events need no look. -/
theorem record_induction {P : History → FNode → Prop}
    {Q : List (ι × Event) → World ι → ι × Event → Prop} {d : ι} {tr₀ : List (ι × Event)}
    (hbase : ∀ w, (World.machine uuid).run tr₀ = some w →
      P (Machine.own d tr₀) (w.record uuid d))
    (hstep : ∀ {tr w e r'}, (World.machine uuid).run tr = some w → Q tr w (d, e) →
      P (Machine.own d tr) (w.record uuid d) →
      Effect (Machine.own d tr) (w.record uuid d) e r' →
      P (e :: Machine.own d tr) r')
    {tr : List (ι × Event)} {w : World ι} (hsuf : tr₀ <:+ tr)
    (hQ : (World.machine uuid).EveryStep Q tr) (hrun : (World.machine uuid).run tr = some w) :
    P (Machine.own d tr) (w.record uuid d) := by
  refine Machine.run_induction_from (M := World.machine uuid)
    (P := fun tr w => P (Machine.own d tr) (w.record uuid d))
    hbase (fun {tr w a w'} hrun hQ ih hw' => ?_) hsuf hQ hrun
  obtain ⟨d', e⟩ := a
  have hs := (follows_run hapart hrun d').stepped hw'
  by_cases hd : d = d'
  · subst hd
    rw [Machine.own_cons_self]
    exact hstep hrun hQ ih hs.effect
  · rw [Machine.own_cons_of_ne (Ne.symm hd)]
    have hrecord : w'.record uuid d = w.record uuid d :=
      hs.apart _ (hapart d' d (Ne.symm hd))
    exact hrecord ▸ ih

/-- **And its buckets hold its locations**, where the names are new. -/
theorem bucketed_run {tr : List (ι × Event)} {w : World ι}
    (hrun : (World.machine uuid).run tr = some w)
    (hnew : (World.machine uuid).EveryStep
      (fun tr _ a => History.NewName (Machine.own a.1 tr) a.2) tr) (d : ι) {k : String}
    (hks : k ≠ "SystemInfo") (hkm : k ≠ "ManualInfo") :
    ∃ autoId, Bucketed (Machine.own d tr) k ((w.record uuid d).getImmediateChild k) autoId := by
  refine record_induction hapart
    (P := fun h r => ∃ autoId, Bucketed h k (r.getImmediateChild k) autoId)
    (fun w hw => ?_) (fun _ hname hb he => Bucketed.effect hks hkm hb he hname)
    List.nil_suffix hnew hrun
  obtain rfl := Option.some.inj hw
  rw [World.record_init, FNode.getImmediateChild_emptyNode]
  exact ⟨fun _ => "", bucketed_nil k _⟩

end Run

end DevicesTracker
