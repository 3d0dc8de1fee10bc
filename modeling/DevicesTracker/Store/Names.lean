import DevicesTracker.Store.History
/-!
# The names of the locations

The auto ids of a device's locations as a function of its events: what the
running process remembers of the last one (`pushId`), and the names in each
day's bucket (`names`). A process gives no name twice while its time does not
go back, so all that has to be asked of a name is that no other process of the
device, and not this one before its time went back, has given the same
(`NewName`): those draw the random characters for themselves.
-/

namespace DevicesTracker

open FirebaseService (launches)

namespace History

/-- **The static variables of the push ids** in the process that runs. A
process that starts has them zeroed. -/
def pushId : History → FNextPushId.State
  | .launch reading :: h => if launches reading then pushId h else {}
  | .answer handle serverTime random :: h =>
    match callAt h handle with
    | some (.updateLocations _ _) => (FNextPushId.get (pushId h) serverTime random).2
    | _ => pushId h
  | .kill :: _ => {}
  | .saveUserData _ _ :: h => pushId h
  | .updateLocations _ _ :: h => pushId h
  | [] => {}

/-- The names given to the locations of a day key. -/
def names (k : String) : History → List String
  | .answer handle serverTime random :: h =>
    match callAt h handle with
    | some (.updateLocations clock _) =>
      if clock.dayKey = k then (FNextPushId.get (pushId h) serverTime random).1 :: names k h
      else names k h
    | _ => names k h
  | _ :: h => names k h
  | [] => []

/-- The names of a day key that were given by other processes, or by the
running one before its time last went back or a count ran over. -/
def others (k : String) : History → List String
  | .launch reading :: h => if launches reading then others k h else names k h
  | .answer handle serverTime _ :: h =>
    match callAt h handle with
    | some (.updateLocations _ _) =>
      if (pushId h).Advances serverTime then others k h else names k h
    | _ => others k h
  | .kill :: h => names k h
  | .saveUserData _ _ :: h => others k h
  | .updateLocations _ _ :: h => others k h
  | [] => []

/-- **What is asked of `childByAutoId`**: the random characters drawn do not
make a name of the day that another process of the device has given, or this
one before its time went back. -/
def NewName (h : History) : Event → Prop
  | .answer handle serverTime random =>
    ∀ clock newLocation, callAt h handle = some (.updateLocations clock newLocation) →
      (FNextPushId.get (pushId h) serverTime random).1 ∉
        others clock.dayKey (.answer handle serverTime random :: h)
  | _ => True

section Answer

variable {h : History} {handle serverTime : ℕ} {random : List (Fin 64)} {clock : Clock}
  {newLocation : DeviceLocations} {reading : DeviceReading} {k : String}

theorem pushId_answer_location
    (hcall : callAt h handle = some (.updateLocations clock newLocation)) :
    pushId (.answer handle serverTime random :: h) =
      (FNextPushId.get (pushId h) serverTime random).2 := by
  rw [pushId, hcall]

theorem pushId_answer_launch (hcall : callAt h handle = some (.launch reading)) :
    pushId (.answer handle serverTime random :: h) = pushId h := by
  rw [pushId, hcall]

theorem names_answer_location
    (hcall : callAt h handle = some (.updateLocations clock newLocation)) (k : String) :
    names k (.answer handle serverTime random :: h) =
      if clock.dayKey = k then (FNextPushId.get (pushId h) serverTime random).1 :: names k h
      else names k h := by
  rw [names, hcall]

theorem names_answer_launch (hcall : callAt h handle = some (.launch reading)) (k : String) :
    names k (.answer handle serverTime random :: h) = names k h := by
  rw [names, hcall]

/-- Other events give no name. -/
theorem names_cons {e : Event}
    (he : ∀ handle serverTime random, e ≠ .answer handle serverTime random) (k : String) :
    names k (e :: h) = names k h := by
  cases e with
  | answer handle serverTime random => exact absurd rfl (he handle serverTime random)
  | launch reading => rfl
  | saveUserData proj resp => rfl
  | updateLocations clock newLocation => rfl
  | kill => rfl

end Answer

/-- What is another's was given. -/
theorem mem_names_of_mem_others {h : History} {k name : String} (hmem : name ∈ others k h) :
    name ∈ names k h := by
  induction h with
  | nil => exact absurd hmem List.not_mem_nil
  | cons e h ih =>
    cases e with
    | launch reading =>
      rw [others] at hmem
      split at hmem
      exacts [ih hmem, hmem]
    | saveUserData proj resp => exact ih hmem
    | updateLocations clock newLocation => exact ih hmem
    | kill => exact hmem
    | answer handle serverTime random =>
      rw [others] at hmem
      rw [names]
      split at hmem
      next clock newLocation hcall =>
        have hold : name ∈ names k h := by
          split at hmem
          exacts [ih hmem, hmem]
        split
        exacts [List.mem_cons_of_mem _ hold, hold]
      next => exact ih hmem

/-- **A name of the day is one the process has come past, or another's.** -/
theorem passed_or_mem_others {h : History} {k name : String} (hmem : name ∈ names k h) :
    (pushId h).Passed name ∨ name ∈ others k h := by
  induction h with
  | nil => exact absurd hmem List.not_mem_nil
  | cons e h ih =>
    cases e with
    | launch reading =>
      rw [pushId, others]
      split
      exacts [ih hmem, .inr hmem]
    | saveUserData proj resp => exact ih hmem
    | updateLocations clock newLocation => exact ih hmem
    | kill => exact .inr hmem
    | answer handle serverTime random =>
      rw [names] at hmem
      rw [pushId, others]
      split at hmem
      next clock newLocation hcall =>
        have hold : name ∈ names k h →
            (FNextPushId.get (pushId h) serverTime random).2.Passed name ∨
              name ∈ if (pushId h).Advances serverTime then others k h else names k h := by
          intro hold
          split
          next hadvances => exact (ih hold).imp_left fun hpassed => (hpassed.get hadvances random).2
          next => exact .inr hold
        split at hmem
        · rcases List.mem_cons.1 hmem with rfl | hmem
          · exact .inl (FNextPushId.passed_get _ _ _)
          · exact hold hmem
        · exact hold hmem
      next hother =>
        cases hcall : callAt h handle with
        | none => exact ih hmem
        | some call =>
          cases call with
          | updateLocations clock newLocation => exact absurd hcall (hother clock newLocation)
          | _ => exact ih hmem

/-- **So a name that is no other's is new.** -/
theorem NewName.notMem_names {h : History} {handle serverTime : ℕ} {random : List (Fin 64)}
    {clock : Clock} {newLocation : DeviceLocations}
    (hnew : h.NewName (.answer handle serverTime random))
    (hcall : callAt h handle = some (.updateLocations clock newLocation)) :
    (FNextPushId.get (pushId h) serverTime random).1 ∉ names clock.dayKey h := by
  have hother := hnew clock newLocation hcall
  rw [others, hcall] at hother
  dsimp only at hother
  intro hmem
  split at hother
  next hadvances =>
    rcases passed_or_mem_others hmem with hpassed | hmem
    exacts [(hpassed.get hadvances random).1 rfl, hother hmem]
  next => exact hother hmem

end History

end DevicesTracker
