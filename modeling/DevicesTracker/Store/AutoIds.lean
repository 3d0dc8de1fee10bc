import DevicesTracker.Store.Record
/-!
# Auto ids that are new

What the refinement asks of the random characters is nothing where the
locations of a device's day are answered at different milliseconds: a push
id starts with its time, so the names of a day start with the times of the
answers before (`exists_time_of_mem_names`).
-/

universe u

namespace DevicesTracker

namespace History

/-- The server times at which the locations of a day key were answered. -/
def answerTimes (k : String) : History → List ℕ
  | .answer handle serverTime _ :: h =>
    match callAt h handle with
    | some (.updateLocations clock _) =>
      if clock.dayKey = k then serverTime :: answerTimes k h else answerTimes k h
    | _ => answerTimes k h
  | _ :: h => answerTimes k h
  | [] => []

/-- An answer to a location comes at a time no other of its day came at, and
one of eight characters. -/
def NewTime (h : History) : Event → Prop
  | .answer handle serverTime _ =>
    ∀ clock newLocation, callAt h handle = some (.updateLocations clock newLocation) →
      serverTime < 64 ^ 8 ∧ serverTime ∉ answerTimes clock.dayKey h
  | _ => True

theorem answerTimes_answer_location {h : History} {handle serverTime : ℕ} {random : List (Fin 64)}
    {clock : Clock} {newLocation : DeviceLocations}
    (hcall : callAt h handle = some (.updateLocations clock newLocation)) (k : String) :
    answerTimes k (.answer handle serverTime random :: h) =
      if clock.dayKey = k then serverTime :: answerTimes k h else answerTimes k h := by
  rw [answerTimes, hcall]

/-- Every answer so far came at a new time. -/
def NewTimes : History → Prop
  | [] => True
  | e :: h => NewTimes h ∧ NewTime h e

/-- **The names of a day start with times of its answers.** -/
theorem exists_time_of_mem_names {h : History} (hnew : NewTimes h) {k name : String}
    (hmem : name ∈ names k h) :
    ∃ t ∈ answerTimes k h, t < 64 ^ 8 ∧ name.toList.take 8 = FNextPushId.timeStampChars 8 t := by
  induction h with
  | nil => exact absurd hmem List.not_mem_nil
  | cons e h ih =>
    cases e with
    | answer handle serverTime random =>
      rw [names] at hmem
      split at hmem
      next clock newLocation hcall =>
        rw [answerTimes_answer_location hcall]
        split at hmem
        next hk =>
          rw [if_pos hk]
          rcases List.mem_cons.1 hmem with rfl | hmem
          · exact ⟨serverTime, List.mem_cons_self, (hnew.2 clock newLocation hcall).1,
              FNextPushId.take_get _ _ _⟩
          · obtain ⟨t, ht, hdated⟩ := ih hnew.1 hmem
            exact ⟨t, List.mem_cons_of_mem _ ht, hdated⟩
        next hk =>
          rw [if_neg hk]
          exact ih hnew.1 hmem
      next hother =>
        rw [answerTimes]
        split
        next clock newLocation hcall => exact absurd hcall (hother clock newLocation)
        next => exact ih hnew.1 hmem
    | launch reading => exact ih hnew.1 hmem
    | saveUserData proj resp => exact ih hnew.1 hmem
    | updateLocations clock newLocation => exact ih hnew.1 hmem
    | kill => exact ih hnew.1 hmem

/-- **At a new time the name is new**, whatever is drawn. -/
theorem newName_of_newTime {h : History} (hbefore : NewTimes h) {e : Event} (hnew : NewTime h e) :
    NewName h e := by
  cases e with
  | answer handle serverTime random =>
    intro clock newLocation hcall hother
    obtain ⟨hlt, hnotin⟩ := hnew clock newLocation hcall
    have hgiven : (FNextPushId.get (pushId h) serverTime random).1 ∈ names clock.dayKey h := by
      rw [others, hcall] at hother
      dsimp only at hother
      split at hother
      exacts [mem_names_of_mem_others hother, hother]
    -- a name given before would have its time
    obtain ⟨t, ht, hlt', htake⟩ := exists_time_of_mem_names hbefore hgiven
    rw [FNextPushId.take_get] at htake
    exact hnotin (FNextPushId.timeStampChars_injective hlt hlt' htake ▸ ht)
  | launch reading => trivial
  | saveUserData proj resp => trivial
  | updateLocations clock newLocation => trivial
  | kill => trivial

end History

variable {ι : Type u} {uuid : ι → String} [DecidableEq ι]

/-- Where answers come at new times, they do in each device's history. -/
theorem newTimes_run {tr : List (ι × Event)} {w : World ι}
    (hrun : (World.machine uuid).run tr = some w)
    (hnew : (World.machine uuid).EveryStep
      (fun tr _ a => History.NewTime (Machine.own a.1 tr) a.2) tr) (d : ι) :
    History.NewTimes (Machine.own d tr) := by
  induction tr generalizing w with
  | nil => trivial
  | cons a tr ih =>
    obtain ⟨d', e⟩ := a
    obtain ⟨w₀, hrun₀, -⟩ := Machine.run_cons_eq_some.1 hrun
    by_cases hd : d = d'
    · subst hd
      rw [Machine.own_cons_self]
      exact ⟨ih hrun₀ hnew.1, hnew.2 w₀ hrun₀⟩
    · rw [Machine.own_cons_of_ne (Ne.symm hd)]
      exact ih hrun₀ hnew.1

/-- **Answers at different times give new names**: a run in which each
location of a device's day is answered at a millisecond of its own asks
nothing of the random characters. -/
theorem newNames_of_newTimes {tr : List (ι × Event)}
    (hnew : (World.machine uuid).EveryStep
      (fun tr _ a => History.NewTime (Machine.own a.1 tr) a.2) tr) :
    (World.machine uuid).EveryStep
      (fun tr _ a => History.NewName (Machine.own a.1 tr) a.2) tr :=
  hnew.imp fun {_ _ a} hrun hbefore htime =>
    History.newName_of_newTime (newTimes_run hrun hbefore a.1) htime

/-- **So each record is the one its device's history makes**, with nothing
asked of the names. -/
theorem recordOf_of_newTimes
    (hapart : ∀ d d', d ≠ d' →
      KeyedTree.Apart (World.recordRef uuid d) (World.recordRef uuid d'))
    {tr : List (ι × Event)} {w : World ι} (hrun : (World.machine uuid).run tr = some w)
    (hnew : (World.machine uuid).EveryStep
      (fun tr _ a => History.NewTime (Machine.own a.1 tr) a.2) tr) (d : ι) :
    RecordOf (Machine.own d tr) (w.record uuid d) :=
  (follows_run hapart hrun d).holds.recordOf fun _ hks hkm =>
    bucketed_run hapart hrun (newNames_of_newTimes hnew) d hks hkm

theorem recordOf_of_newTimes_pair :
    ∃ w, (World.machine pairUuid).run (pairRun 1540000000001) = some w ∧
      ∀ d, RecordOf (Machine.own d (pairRun 1540000000001)) (w.record pairUuid d) := by
  have hnew : (World.machine pairUuid).EveryStep
      (fun tr _ a => History.NewTime (Machine.own a.1 tr) a.2) (pairRun 1540000000001) := by
    refine ⟨⟨⟨⟨⟨⟨⟨trivial, ?_⟩, ?_⟩, ?_⟩, ?_⟩, ?_⟩, ?_⟩, ?_⟩
    -- two answers, and the second a millisecond after the first
    on_goal 7 =>
      intro w _ clock newLocation hcall
      obtain ⟨rfl, rfl⟩ := Event.updateLocations.inj (Option.some.inj hcall)
      decide +kernel
    on_goal 5 =>
      intro w _ clock newLocation hcall
      obtain ⟨rfl, rfl⟩ := Event.updateLocations.inj (Option.some.inj hcall)
      decide +kernel
    all_goals exact fun _ _ => trivial
  refine ⟨_, rfl, fun d => ?_⟩
  exact recordOf_of_newTimes (fun d d' hd => apart_recordRef injective_pairUuid (by decide) (by decide) hd) rfl
    hnew d

end DevicesTracker
