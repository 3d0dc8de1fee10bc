import DevicesTracker.Store.Refinement
/-!
# Registration

A launch reads the record and registers the device if there is none. The
test is of the whole record and not of `SystemInfo`, so a save or a
location that is written while the read is pending ends registration:
this launch finds a record, and so does every later one.
`registration_kept_iff` says that nothing else does.
-/

namespace DevicesTracker

namespace History

/-- Whether an event answers the read of a launch. -/
def answersLaunch (h : History) : Event → Bool
  | .answer handle _ _ =>
    match callAt h handle with
    | some (.launch _) => true
    | _ => false
  | _ => false

/-- Whether the read of some launch has been answered. -/
def registrationAnswered : History → Bool
  | e :: h => answersLaunch h e || registrationAnswered h
  | [] => false

/-- No location call has been answered, and what was saved last, if
anything was, is nil. -/
def Unwritten (h : History) : Prop := h.locations = [] ∧ h.manualInfo = (none, none)

theorem answersLaunch_answer_iff {h : History} {handle serverTime : ℕ} {random : List (Fin 64)} :
    answersLaunch h (.answer handle serverTime random) = true ↔
      ∃ reading, callAt h handle = some (.launch reading) := by
  rw [answersLaunch]
  split
  next reading hcall => simp [hcall]
  next hother =>
    refine ⟨fun hf => absurd hf Bool.false_ne_true, fun ⟨reading, hcall⟩ => ?_⟩
    exact absurd hcall (hother reading)

/-- Where no launch's read has been answered, nothing is registered. -/
theorem systemInfo_eq_none {h : History} (hr : registrationAnswered h = false) :
    systemInfo h = none := by
  induction h with
  | nil => rfl
  | cons e h ih =>
    obtain ⟨hanswer, hr⟩ := Bool.or_eq_false_iff.1 hr
    have hold := ih hr
    cases e with
    | answer handle serverTime random =>
      rw [systemInfo]
      split
      next reading hcall =>
        have hyes : answersLaunch h (.answer handle serverTime random) = true :=
          answersLaunch_answer_iff.2 ⟨reading, hcall⟩
        rw [hyes] at hanswer
        cases hanswer
      next => exact hold
    | launch reading => exact hold
    | saveUserData proj resp => exact hold
    | updateLocations clock newLocation => exact hold
    | kill => exact hold

/-- Before the first answer, the record is untouched if it is unwritten. -/
theorem untouched_iff_unwritten {h : History} (hr : registrationAnswered h = false) :
    Untouched h ↔ Unwritten h := by
  rw [Untouched, Unwritten, systemInfo_eq_none hr]
  exact ⟨fun hu => ⟨hu.2.2, hu.2.1⟩, fun hu => ⟨rfl, hu.2, hu.1⟩⟩

end History

/-- The device is in the record once a launch's read has been answered. -/
def Registered (h : History) (r : FNode) : Prop :=
  h.registrationAnswered = true → (r.getImmediateChild "SystemInfo").isEmpty = false

/-- The event is not the first answer to a launch, or comes before anything
was written. -/
def InTime (h : History) (e : Event) : Prop :=
  h.registrationAnswered = false → h.answersLaunch e = true → h.Unwritten

/-- **One event**: what was registered stays, and the first answer registers
exactly where nothing was written. -/
theorem registered_effect_iff {h : History} {r r' : FNode} {e : Event}
    (hr : Holds h r) (hreg : Registered h r) (he : Effect h r e r') :
    Registered (e :: h) r' ↔ InTime h e := by
  have hsystem : ∀ {h r}, Holds h r →
      ((r.getImmediateChild "SystemInfo").isEmpty = false ↔ h.systemInfo ≠ none) := by
    intro h r hr
    rw [hr.systemInfo, ← Bool.not_eq_true, isEmpty_systemInfoNode_iff]
  rw [Registered, hsystem (hr.effect he), InTime]
  rw [Registered, hsystem hr] at hreg
  -- an event that answers no launch changes neither side
  have hother : h.answersLaunch e = false → h.systemInfo = History.systemInfo (e :: h) →
      ((History.registrationAnswered (e :: h) = true → History.systemInfo (e :: h) ≠ none) ↔
        (h.registrationAnswered = false → h.answersLaunch e = true → h.Unwritten)) := by
    intro hanswer hsame
    rw [History.registrationAnswered, hanswer, Bool.false_or, ← hsame]
    exact iff_of_true hreg fun _ hf => absurd hf Bool.false_ne_true
  cases he with
  | quiet hcall hsystem' hmanual hlocations =>
    refine hother ?_ hsystem'
    cases e with
    | answer handle serverTime random => exact absurd rfl (hcall handle serverTime random)
    | _ => rfl
  | saved proj resp => exact hother rfl rfl
  | registered hcall hdevice hempty =>
    have hu := hr.isEmpty_iff.1 hempty
    refine iff_of_true (fun _ => ?_) fun _ _ => ⟨hu.2.2, hu.2.1⟩
    rw [History.systemInfo_answer_launch_of_untouched hcall hu, hdevice]
    exact Option.some_ne_none _
  | @found handle serverTime random reading hcall hfound =>
    have hu : ¬ h.Untouched := fun hu => by simp [hr.isEmpty_iff.2 hu] at hfound
    have hanswer : h.answersLaunch (.answer handle serverTime random) = true :=
      History.answersLaunch_answer_iff.2 ⟨reading, hcall⟩
    rw [History.systemInfo_answer_launch_of_not_untouched hcall hu, History.registrationAnswered,
      hanswer, Bool.true_or]
    cases hbefore : h.registrationAnswered with
    | true => exact iff_of_true (fun _ => hreg hbefore) fun hf => nomatch hf
    | false =>
      -- the first answer, and it finds a record
      rw [History.untouched_iff_unwritten hbefore] at hu
      refine iff_of_false (fun hall => ?_) fun hall => hu (hall rfl rfl)
      exact hall rfl (History.systemInfo_eq_none hbefore)
  | located hcall hnew =>
    refine hother ?_ (History.systemInfo_answer_location hcall).symm
    rw [History.answersLaunch, hcall]

/-- **Registration is kept exactly when the first answer comes in time.** In
a run of one device, `SystemInfo` is there in every state in which a
launch's read has been answered, if and only if at the first such answer
no location call has been answered and nothing but nil was saved last. -/
theorem registration_kept_iff {uuid : String} {tr : List (Unit × Event)} {w : World Unit}
    (hrun : (World.machine fun _ => uuid).run tr = some w) :
    (World.machine fun _ => uuid).Throughout
        (fun tr w => Registered (Machine.own () tr) (w.record (fun _ => uuid) ())) tr ↔
      (World.machine fun _ => uuid).EveryStep
        (fun tr _ a => InTime (Machine.own () tr) a.2) tr := by
  have hapart : ∀ d d' : Unit, d ≠ d' → KeyedTree.Apart (World.recordRef (fun _ => uuid) d)
      (World.recordRef (fun _ => uuid) d') := fun d d' hd => absurd rfl hd
  refine Machine.throughout_iff_everyStep (fun hf => nomatch hf) ?_ hrun
  intro tr w a w' hrun hthrough hstep
  have hf := follows_run hapart hrun ()
  have hs := hf.stepped hstep
  rw [show a = ((), a.2) from rfl, Machine.own_cons_self]
  exact registered_effect_iff hf.holds (hthrough.last hrun) hs.effect

/-! A device saves its project after its read is answered, and before. -/

def phoneUuid : String := "E621E1F8"

def phoneReading : DeviceReading :=
  { machine := [], model := "iPhone", name := "phone", systemName := "iOS", nativeHeight := 1136
    nativeWidth := 640, identifierForVendor := some phoneUuid }

def earlyRun : List (Unit × Event) :=
  [((), .saveUserData (some "tracker") none),
    ((), .answer 0 1540000000000 FNextPushId.zeroRandChars),
    ((), .launch phoneReading)]

def lateRun : List (Unit × Event) :=
  [((), .answer 0 1540000000000 FNextPushId.zeroRandChars),
    ((), .saveUserData (some "tracker") none),
    ((), .launch phoneReading)]

theorem registration_kept_earlyRun :
    ∃ w, (World.machine fun _ => phoneUuid).run earlyRun = some w ∧
      (World.machine fun _ => phoneUuid).Throughout
        (fun tr w => Registered (Machine.own () tr) (w.record (fun _ => phoneUuid) ()))
        earlyRun := by
  refine ⟨_, rfl, (registration_kept_iff rfl).2 ⟨⟨⟨trivial, ?_⟩, ?_⟩, ?_⟩⟩
  all_goals exact fun _ _ _ _ => ⟨rfl, rfl⟩

/-- **The answer has come, and nothing is registered.** -/
theorem registration_lost_lateRun :
    ∃ w, (World.machine fun _ => phoneUuid).run lateRun = some w ∧
      ¬ Registered (Machine.own () lateRun) (w.record (fun _ => phoneUuid) ()) := by
  refine ⟨_, rfl, fun hreg => ?_⟩
  have hthere := hreg (by decide)
  revert hthere
  decide +kernel

end DevicesTracker
