import DevicesTracker.Store.Refinement
/-!
# The records of several devices

`RecordOf` says child by child what a history makes of a record. With
distinct UUIDs of one path piece each, the records lie apart, and in every
run of the devices each record is the one its own device's history makes.
-/

universe u

namespace DevicesTracker

open FirebaseService (optionalString manualInfoNode)

/-- **The record a history makes**, and nothing beside it. -/
structure RecordOf (h : History) (r : FNode) : Prop where
  /-- A launch's read finds the record empty when the history says so. -/
  isEmpty_iff : r.isEmpty = true ↔ h.Untouched
  systemInfo : r.getImmediateChild "SystemInfo" = systemInfoNode h.systemInfo
  /-- The texts of the device registered, and nothing else. -/
  systemInfo_leafAt : ∀ k p, r.leafAt ("SystemInfo" :: k :: p) =
    if p = [] then h.systemInfo.bind fun device => (device.texts.lookup k).map .string else none
  project : r.leafAt ["ManualInfo", "project"] = h.manualInfo.1.map .string
  responsiblePerson : r.leafAt ["ManualInfo", "responsiblePerson"] = h.manualInfo.2.map .string
  manualInfo_others : ∀ p, p ≠ ["project"] → p ≠ ["responsiblePerson"] →
    r.leafAt ("ManualInfo" :: p) = none
  manualInfo_isEmpty_iff : (r.getImmediateChild "ManualInfo").isEmpty = true ↔
    h.manualInfo = (none, none)
  /-- Every other child is a day's bucket, with one child for each answered
  call of that day, and in it the place and the time of the call. -/
  day : ∀ k, k ≠ "SystemInfo" → k ≠ "ManualInfo" →
    ∃ autoId, Bucketed h k (r.getImmediateChild k) autoId ∧
      ∀ n clock newLocation, (n, clock, newLocation) ∈ h.locations → clock.dayKey = k →
        newLocation.HeldBy ((r.getImmediateChild k).getImmediateChild (autoId n))
  day_isEmpty_iff : ∀ k, k ≠ "SystemInfo" → k ≠ "ManualInfo" →
    ((r.getImmediateChild k).isEmpty = true ↔ h.locatedOn k = ∅)

theorem leafAt_optionalString (s : Option String) (p : List String) :
    (FNode.nodeFrom (optionalString s)).leafAt p = if p = [] then s.map .string else none := by
  cases s with
  | none =>
    rw [optionalString, FNode.nodeFrom_null, FNode.leafAt_emptyNode]
    split <;> rfl
  | some s => exact FNode.leafAt_nodeFrom_string s p

/-- **What `saveUserData` writes**: the two texts, each if it is there. -/
theorem leafAt_manualInfoNode (proj resp : Option String) (p : List String) :
    (manualInfoNode proj resp).leafAt p =
      if p = ["project"] then proj.map .string
      else if p = ["responsiblePerson"] then resp.map .string else none := by
  cases p with
  | nil => rfl
  | cons k p =>
    rw [FNode.leafAt_cons]
    by_cases hp : k = "project"
    · have hchild : (manualInfoNode proj resp).getImmediateChild "project" =
          FNode.nodeFrom (optionalString proj) := by
        cases proj <;> simp [manualInfoNode, optionalString, FNode.getImmediateChild_nodeFrom_cons]
      rw [hp, hchild, leafAt_optionalString]
      simp
    by_cases hr : k = "responsiblePerson"
    · have hchild : (manualInfoNode proj resp).getImmediateChild "responsiblePerson" =
          FNode.nodeFrom (optionalString resp) := by
        cases resp <;> simp [manualInfoNode, optionalString, FNode.getImmediateChild_nodeFrom_cons]
      rw [hr, hchild, leafAt_optionalString]
      simp
    · have hchild : (manualInfoNode proj resp).getImmediateChild k = FNode.emptyNode := by
        simp [manualInfoNode, FNode.getImmediateChild_nodeFrom_cons, hp, hr]
      rw [hchild, FNode.leafAt_emptyNode]
      simp [hp, hr]

/-- The node of a registered device has its texts. -/
theorem leafAt_systemInfoNode (device : Option Device) (k : String) (p : List String) :
    (systemInfoNode device).leafAt (k :: p) =
      if p = [] then device.bind fun device => (device.texts.lookup k).map .string else none := by
  cases device with
  | none =>
    rw [systemInfoNode, FNode.leafAt_emptyNode]
    split <;> rfl
  | some device => exact device.leafAt_nodeFrom_toAnyObject k p

/-- A record kept to its history, with its buckets, is the record of the
history. -/
theorem Holds.recordOf {h : History} {r : FNode} (hr : Holds h r)
    (hday : ∀ k, k ≠ "SystemInfo" → k ≠ "ManualInfo" →
      ∃ autoId, Bucketed h k (r.getImmediateChild k) autoId) : RecordOf h r where
  isEmpty_iff := hr.isEmpty_iff
  systemInfo := hr.systemInfo
  systemInfo_leafAt k p := by rw [FNode.leafAt_cons, hr.systemInfo, leafAt_systemInfoNode]
  project := by
    rw [FNode.leafAt_cons, hr.manualInfo, leafAt_manualInfoNode, if_pos rfl]
  responsiblePerson := by
    rw [FNode.leafAt_cons, hr.manualInfo, leafAt_manualInfoNode, if_neg (by decide), if_pos rfl]
  manualInfo_others p hproject hresponsible := by
    rw [FNode.leafAt_cons, hr.manualInfo, leafAt_manualInfoNode, if_neg hproject,
      if_neg hresponsible]
  manualInfo_isEmpty_iff := by
    rw [hr.manualInfo, isEmpty_manualInfoNode_iff, Prod.ext_iff]
  day k hks hkm := by
    obtain ⟨autoId, hb⟩ := hday k hks hkm
    refine ⟨autoId, hb, fun n clock newLocation hmem hkey => ?_⟩
    rw [hb.location n clock newLocation hmem hkey]
    exact newLocation.heldBy_nodeFrom_toAnyObject
  day_isEmpty_iff k hks hkm := by
    rw [hr.bucket k hks hkm, Set.eq_empty_iff_forall_notMem]
    constructor
    · rintro hall n ⟨clock, newLocation, hmem, hkey⟩
      exact hall _ hmem hkey
    · intro hall c hc hkey
      exact hall c.1 ⟨c.2.1, c.2.2, hc, hkey⟩

/-! ## Records apart -/

variable {ι : Type u} {uuid : ι → String}

/-- The record of a UUID that is one piece of a path. -/
theorem recordRef_eq (hne : ∀ d, uuid d ≠ "") (hslash : ∀ d, '/' ∉ (uuid d).toList) (d : ι) :
    World.recordRef uuid d = ["Devices", uuid d] := by
  rw [World.recordRef, pathWithString_of_notMem (hne d) (hslash d)]
  rfl

theorem apart_recordRef (hinj : Function.Injective uuid) (hne : ∀ d, uuid d ≠ "")
    (hslash : ∀ d, '/' ∉ (uuid d).toList) {d d' : ι} (hd : d ≠ d') :
    KeyedTree.Apart (World.recordRef uuid d) (World.recordRef uuid d') := by
  rw [recordRef_eq hne hslash, recordRef_eq hne hslash]
  exact (KeyedTree.apart_append_left ["Devices"]).2
    (KeyedTree.apart_cons_of_ne (fun heq => hd (hinj heq)) [] [])

variable [DecidableEq ι]

/-- A device registered at some point of a run is the device registered at
its end. -/
theorem systemInfo_own_of_suffix {tr₀ tr : List (ι × Event)} (hsuf : tr₀ <:+ tr) {d : ι}
    {device : Device} (hsystem : History.systemInfo (Machine.own d tr₀) = some device) :
    History.systemInfo (Machine.own d tr) = some device := by
  induction tr with
  | nil => rwa [List.suffix_nil.1 hsuf] at hsystem
  | cons a tr ih =>
    obtain ⟨d', e⟩ := a
    rcases List.suffix_cons_iff.1 hsuf with rfl | hshort
    · exact hsystem
    · have hold := ih hshort
      by_cases hd : d = d'
      · subst hd
        rw [Machine.own_cons_self]
        exact History.systemInfo_cons_of_eq_some hold e
      · rw [Machine.own_cons_of_ne (Ne.symm hd)]
        exact hold

/-- **The database refines the histories.** In every run of devices with
distinct UUIDs, each of one path piece, in which no random part drawn makes
a name that another process of the device has given, the record of each
device is the one its own history makes; and its `SystemInfo`, once there,
is never changed. -/
theorem record_refines_history (hinj : Function.Injective uuid) (hne : ∀ d, uuid d ≠ "")
    (hslash : ∀ d, '/' ∉ (uuid d).toList) {tr : List (ι × Event)} {w : World ι}
    (hrun : (World.machine uuid).run tr = some w)
    (hnew : (World.machine uuid).EveryStep
      (fun tr _ a => History.NewName (Machine.own a.1 tr) a.2) tr) (d : ι) :
    RecordOf (Machine.own d tr) (w.database.getChild ["Devices", uuid d]) ∧
    ∀ tr₀ w₀, tr₀ <:+ tr → (World.machine uuid).run tr₀ = some w₀ →
      (w₀.database.getChild ["Devices", uuid d, "SystemInfo"]).isEmpty = false →
      w.database.getChild ["Devices", uuid d, "SystemInfo"] =
        w₀.database.getChild ["Devices", uuid d, "SystemInfo"] := by
  have hapart : ∀ d d', d ≠ d' →
      KeyedTree.Apart (World.recordRef uuid d) (World.recordRef uuid d') :=
    fun _ _ hd => apart_recordRef hinj hne hslash hd
  have hsystem : ∀ {tr w}, (World.machine uuid).run tr = some w →
      w.database.getChild ["Devices", uuid d, "SystemInfo"] =
        systemInfoNode (History.systemInfo (Machine.own d tr)) := by
    intro tr w hrun
    have hholds := (follows_run hapart hrun d).holds.systemInfo
    rw [World.record, recordRef_eq hne hslash, ← FNode.getChild_singleton,
      ← FNode.getChild_append] at hholds
    exact hholds
  constructor
  · rw [← recordRef_eq hne hslash]
    exact (follows_run hapart hrun d).holds.recordOf fun k hks hkm =>
      bucketed_run hapart hrun hnew d hks hkm
  · -- both ends of the run hold the device their histories registered
    intro tr₀ w₀ hsuf hrun₀ hthere
    rw [hsystem hrun₀] at hthere ⊢
    rw [hsystem hrun]
    cases hreg : History.systemInfo (Machine.own d tr₀) with
    | none => rw [hreg] at hthere; cases hthere
    | some device => rw [systemInfo_own_of_suffix hsuf hreg]

/-! A run of two devices: one registers late and saves, the other stores two
locations of one day, answered in one millisecond. -/

def pairUuid : Bool → String
  | true => "E621E1F8"
  | false => "A0B1C2D3"

def pairReading (d : Bool) : DeviceReading :=
  { machine := [], model := "iPhone", name := "phone", systemName := "iOS", nativeHeight := 1136
    nativeWidth := 640, identifierForVendor := some (pairUuid d) }

def pairRun (serverTime : ℕ) : List (Bool × Event) :=
  [(true, .answer 2 serverTime FNextPushId.zeroRandChars),
    (false, .saveUserData (some "tracker") none),
    (true, .answer 1 1540000000000 FNextPushId.zeroRandChars),
    (false, .launch (pairReading false)),
    (true, .updateLocations ⟨1540000060, .gregorian⟩ ⟨⟨51, 31⟩, "20/October/2018 01:47"⟩),
    (true, .updateLocations ⟨1540000000, .gregorian⟩ ⟨⟨50, 30⟩, "20/October/2018 01:46"⟩),
    (true, .launch (pairReading true))]

/-- The second name counts on from the first, and no other process comes in. -/
theorem newNames_pairRun : (World.machine pairUuid).EveryStep
    (fun tr _ a => History.NewName (Machine.own a.1 tr) a.2) (pairRun 1540000000000) := by
  refine ⟨⟨⟨⟨⟨⟨⟨trivial, ?_⟩, ?_⟩, ?_⟩, ?_⟩, ?_⟩, ?_⟩, ?_⟩
  on_goal 7 =>
    intro w _ clock newLocation hcall
    obtain ⟨rfl, rfl⟩ := Event.updateLocations.inj (Option.some.inj hcall)
    decide +kernel
  on_goal 5 =>
    intro w _ clock newLocation hcall
    obtain ⟨rfl, rfl⟩ := Event.updateLocations.inj (Option.some.inj hcall)
    decide +kernel
  all_goals exact fun _ _ => trivial

theorem injective_pairUuid : Function.Injective pairUuid := by
  intro d d' h
  cases d <;> cases d' <;> first | rfl | exact absurd h (by decide)

theorem record_refines_history_pair :
    ∃ w, (World.machine pairUuid).run (pairRun 1540000000000) = some w ∧
      ∀ d, RecordOf (Machine.own d (pairRun 1540000000000))
        (w.database.getChild ["Devices", pairUuid d]) :=
  ⟨_, rfl, fun d => (record_refines_history injective_pairUuid (by decide) (by decide) rfl
    newNames_pairRun d).1⟩

end DevicesTracker
