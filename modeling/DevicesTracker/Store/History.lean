import DevicesTracker.Store.World
/-!
# What a record is for

The record of a device as a function of the events of that device alone,
with no tree, no pending reads and no other device in it. A history is
the list of a device's events, newest first, and an event is known by its
index from the first. `systemInfo` is the device registered, `manualInfo`
the arguments saved last, `locations` the location calls answered.
-/

namespace DevicesTracker

/-- The events of one device, newest first. -/
abbrev History := List Event

namespace History

/-- The event with an index. -/
def callAt : History → ℕ → Option Event
  | [], _ => none
  | e :: h, n => if n = h.length then some e else callAt h n

/-- **The location calls answered**, each with its index, the clock it read
and the location it reported. -/
def locations : History → List (ℕ × Clock × DeviceLocations)
  | .answer handle _ _ :: h =>
    match callAt h handle with
    | some (.updateLocations clock newLocation) => (handle, clock, newLocation) :: locations h
    | _ => locations h
  | _ :: h => locations h
  | [] => []

/-- The arguments of the last `saveUserData`, nil before the first. -/
def manualInfo : History → Option String × Option String
  | .saveUserData proj resp :: _ => (proj, resp)
  | _ :: h => manualInfo h
  | [] => (none, none)

/-- **The device registered**: that of the first launch whose read was
answered while nothing had been registered, saved or located. -/
def systemInfo : History → Option Device
  | .answer handle _ _ :: h =>
    match callAt h handle with
    | some (.launch reading) =>
      if (systemInfo h).isNone ∧ manualInfo h = (none, none) ∧ (locations h).isEmpty then
        FirebaseService.launchedDevice reading
      else systemInfo h
    | _ => systemInfo h
  | _ :: h => systemInfo h
  | [] => none

/-- Nothing has been registered, saved or located. -/
def Untouched (h : History) : Prop :=
  systemInfo h = none ∧ manualInfo h = (none, none) ∧ locations h = []

/-! ## One event more -/

theorem lt_length_of_callAt {h : History} {n : ℕ} {e : Event} (hn : callAt h n = some e) :
    n < h.length := by
  induction h with
  | nil => exact absurd hn (by simp [callAt])
  | cons e' h ih =>
    rw [callAt] at hn
    rw [List.length_cons]
    split at hn
    · omega
    · have := ih hn
      omega

theorem callAt_cons_length (e : Event) (h : History) : callAt (e :: h) h.length = some e :=
  if_pos rfl

/-- A call keeps its index. -/
theorem callAt_cons {h : History} {n : ℕ} {e : Event} (hn : callAt h n = some e) (e' : Event) :
    callAt (e' :: h) n = some e := by
  have hlt := lt_length_of_callAt hn
  rw [callAt, if_neg (by omega)]
  exact hn

/-- A location answered is one of the location calls. -/
theorem callAt_of_mem_locations {h : History} {n : ℕ} {clock : Clock}
    {newLocation : DeviceLocations} (hmem : (n, clock, newLocation) ∈ locations h) :
    callAt h n = some (.updateLocations clock newLocation) := by
  induction h with
  | nil => exact absurd hmem List.not_mem_nil
  | cons e h ih =>
    have hold : (n, clock, newLocation) ∈ locations h →
        callAt (e :: h) n = some (.updateLocations clock newLocation) :=
      fun hmem => callAt_cons (ih hmem) e
    cases e with
    | answer handle serverTime random =>
      rw [locations] at hmem
      split at hmem
      next clock' newLocation' hcall =>
        rcases List.mem_cons.1 hmem with heq | hmem
        · obtain ⟨rfl, rfl, rfl⟩ : n = handle ∧ clock = clock' ∧ newLocation = newLocation' := by
            simpa using heq
          exact callAt_cons hcall _
        · exact hold hmem
      next => exact hold hmem
    | launch reading => exact hold hmem
    | saveUserData proj resp => exact hold hmem
    | updateLocations clock' newLocation' => exact hold hmem
    | kill => exact hold hmem

/-! ## What an answer adds, by the call it answers -/

section Answer

variable {h : History} {handle serverTime : ℕ} {random : List (Fin 64)} {clock : Clock}
  {newLocation : DeviceLocations} {reading : DeviceReading}

theorem locations_answer_location
    (hcall : callAt h handle = some (.updateLocations clock newLocation)) :
    locations (.answer handle serverTime random :: h) =
      (handle, clock, newLocation) :: locations h := by
  rw [locations, hcall]

theorem systemInfo_answer_location
    (hcall : callAt h handle = some (.updateLocations clock newLocation)) :
    systemInfo (.answer handle serverTime random :: h) = systemInfo h := by
  rw [systemInfo, hcall]

theorem locations_answer_launch (hcall : callAt h handle = some (.launch reading)) :
    locations (.answer handle serverTime random :: h) = locations h := by
  rw [locations, hcall]

theorem systemInfo_answer_launch_of_untouched (hcall : callAt h handle = some (.launch reading))
    (hu : Untouched h) :
    systemInfo (.answer handle serverTime random :: h) =
      FirebaseService.launchedDevice reading := by
  obtain ⟨hsystem, hmanual, hlocations⟩ := hu
  rw [systemInfo, hcall]
  simp [hsystem, hmanual, hlocations]

theorem systemInfo_answer_launch_of_not_untouched (hcall : callAt h handle = some (.launch reading))
    (hu : ¬ Untouched h) :
    systemInfo (.answer handle serverTime random :: h) = systemInfo h := by
  rw [systemInfo, hcall]
  refine if_neg fun hcond => hu ?_
  obtain ⟨hsystem, hmanual, hlocations⟩ := hcond
  exact ⟨Option.isNone_iff_eq_none.1 hsystem, hmanual, List.isEmpty_iff.1 hlocations⟩

/-- **Once a device is registered it stays so.** -/
theorem systemInfo_cons_of_eq_some {device : Device} (hsystem : systemInfo h = some device)
    (e : Event) : systemInfo (e :: h) = some device := by
  have hu : ¬ Untouched h := fun hu => by simp [hu.1] at hsystem
  cases e with
  | answer handle serverTime random =>
    -- only the answer to a launch could register, and it finds the device registered
    cases hcall : callAt h handle with
    | none => rw [systemInfo, hcall, hsystem]
    | some call =>
      cases call with
      | launch reading => rw [systemInfo_answer_launch_of_not_untouched hcall hu, hsystem]
      | _ => rw [systemInfo, hcall, hsystem]
  | _ => exact hsystem

end Answer

end History

end DevicesTracker
