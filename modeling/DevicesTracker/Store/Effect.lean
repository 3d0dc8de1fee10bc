import DevicesTracker.Store.Names
/-!
# What an event does

The inversion of `World.step`. A process is described by its device's
history: its reference is the record's, each of its pending reads is that
of a call not answered yet, and it goes on from the last auto id. From there an event of the device does
one of five things to the device's record (`Effect`) and nothing to what
lies apart from it, and the process it leaves is again described by the
history. The invariants of runs are proved from this and never look into
the step.
-/

universe u

namespace DevicesTracker

open FirebaseService (devicesRef launchedDevice launches manualInfoNode)

variable {ι : Type u} [DecidableEq ι] {uuid : ι → String} {d : ι} {h : History}

/-- A read found by its handle is pending. -/
theorem FirebaseService.mem_observers_of_lookup {service : FirebaseService} {handle : ℕ}
    {event : SingleEvent} (hlookup : service.observers.lookup handle = some event) :
    (handle, event) ∈ service.observers := by
  obtain ⟨before, after, hsplit, -⟩ := List.lookup_eq_some_iff.1 hlookup
  rw [hsplit]
  exact List.mem_append_right before List.mem_cons_self

/-- What a pending read captured, by the call that started it. -/
def Captured (recordRef : FPath) (h : History) (n : ℕ) : SingleEvent → Prop
  | .registration ref device =>
    ref = recordRef ∧
      ∃ reading, h.callAt n = some (.launch reading) ∧ launchedDevice reading = some device
  | .location currentDateRef newLocation =>
    ∃ clock, currentDateRef = recordRef ++ [clock.dayKey] ∧
      h.callAt n = some (.updateLocations clock newLocation)

/-- **A process its device's history describes.** -/
structure Described (recordRef : FPath) (h : History) (service : FirebaseService) : Prop where
  ref : service.ref = some recordRef
  captured : ∀ n event, (n, event) ∈ service.observers → Captured recordRef h n event
  unanswered : ∀ n event, (n, event) ∈ service.observers → ∀ c ∈ h.locations, c.1 ≠ n
  pushId : service.pushId = h.pushId

/-- **What an event may do to the record** `r` of its device. -/
inductive Effect (h : History) (r : FNode) : Event → FNode → Prop
  /-- The event starts a read, ends the process or begins it. -/
  | quiet {e : Event} (hcall : ∀ handle serverTime random, e ≠ .answer handle serverTime random)
      (hsystem : h.systemInfo = History.systemInfo (e :: h))
      (hmanual : h.manualInfo = History.manualInfo (e :: h))
      (hlocations : h.locations = History.locations (e :: h)) : Effect h r e r
  | saved (proj resp : Option String) :
      Effect h r (.saveUserData proj resp)
        (r.updateChild ["ManualInfo"] (manualInfoNode proj resp))
  | registered {handle serverTime : ℕ} {random : List (Fin 64)} {reading : DeviceReading}
      {device : Device} (hcall : h.callAt handle = some (.launch reading))
      (hdevice : launchedDevice reading = some device) (hr : r.isEmpty = true) :
      Effect h r (.answer handle serverTime random)
        (r.updateChild ["SystemInfo"] (FNode.nodeFrom device.toAnyObject))
  | found {handle serverTime : ℕ} {random : List (Fin 64)} {reading : DeviceReading}
      (hcall : h.callAt handle = some (.launch reading)) (hr : r.isEmpty = false) :
      Effect h r (.answer handle serverTime random) r
  | located {handle serverTime : ℕ} {random : List (Fin 64)} {clock : Clock}
      {newLocation : DeviceLocations}
      (hcall : h.callAt handle = some (.updateLocations clock newLocation))
      (hnew : ∀ c ∈ h.locations, c.1 ≠ handle) :
      Effect h r (.answer handle serverTime random)
        (r.updateChild [clock.dayKey, (FNextPushId.get h.pushId serverTime random).1]
          (FNode.nodeFrom newLocation.toAnyObject))

/-! ## Processes under one event more -/

theorem Captured.cons {recordRef : FPath} {n : ℕ} {event : SingleEvent}
    (hc : Captured recordRef h n event) (e : Event) : Captured recordRef (e :: h) n event := by
  cases event with
  | registration ref device =>
    obtain ⟨href, reading, hcall, hdevice⟩ := hc
    exact ⟨href, reading, History.callAt_cons hcall e, hdevice⟩
  | location currentDateRef newLocation =>
    obtain ⟨clock, href, hcall⟩ := hc
    exact ⟨clock, href, History.callAt_cons hcall e⟩

/-- A process that goes on is described by the longer history, if the event
answers no location. -/
theorem Described.cons {recordRef : FPath} {service : FirebaseService}
    (hs : Described recordRef h service) {e : Event}
    (hlocations : History.locations (e :: h) = h.locations)
    (hpushId : History.pushId (e :: h) = h.pushId) :
    Described recordRef (e :: h) service where
  ref := hs.ref
  captured n event hmem := (hs.captured n event hmem).cons e
  unanswered n event hmem := hlocations ▸ hs.unanswered n event hmem
  pushId := hs.pushId.trans hpushId.symm

/-- A process that starts a read by an event is described by the history
with the event. -/
theorem Described.observeSingleEvent {recordRef : FPath} {service : FirebaseService}
    (hs : Described recordRef h service) {e : Event} {event : SingleEvent}
    (hlocations : History.locations (e :: h) = h.locations)
    (hpushId : History.pushId (e :: h) = h.pushId)
    (hc : Captured recordRef (e :: h) h.length event) :
    Described recordRef (e :: h) (service.observeSingleEvent h.length event) := by
  have hcons := hs.cons hlocations hpushId
  have hmem : ∀ n event', (n, event') ∈ (service.observeSingleEvent h.length event).observers →
      (n, event') ∈ service.observers ∨ n = h.length ∧ event' = event := by
    intro n event' hmem
    rcases List.mem_append.1 hmem with hmem | hmem
    · exact .inl hmem
    · exact .inr (by simpa using hmem)
  refine ⟨hs.ref, fun n event' hn => ?_, fun n event' hn => ?_, hcons.pushId⟩
  · rcases hmem n event' hn with hn | ⟨rfl, rfl⟩
    exacts [hcons.captured n event' hn, hc]
  · rcases hmem n event' hn with hn | ⟨rfl, rfl⟩
    · exact hcons.unanswered n event' hn
    · -- the handle is newer than every call answered
      intro c hmem'
      have hlt := History.lt_length_of_callAt
        (History.callAt_of_mem_locations (hlocations ▸ hmem' : (c.1, c.2.1, c.2.2) ∈ h.locations))
      omega

/-- A process whose read has been answered is described by the history with
the answer. -/
theorem Described.answer {recordRef : FPath} {service : FirebaseService}
    (hs : Described recordRef h service) {handle serverTime : ℕ} {random : List (Fin 64)}
    {pushId : FNextPushId.State}
    (hpushId : History.pushId (.answer handle serverTime random :: h) = pushId) :
    Described recordRef (.answer handle serverTime random :: h)
      { service with
        observers := service.observers.filter fun o => o.1 ≠ handle
        pushId := pushId } := by
  refine ⟨hs.ref, fun n event hmem => ?_, fun n event hmem c hc => ?_, hpushId.symm⟩
  · exact (hs.captured n event (List.mem_filter.1 hmem).1).cons _
  · obtain ⟨hmem, hne⟩ := List.mem_filter.1 hmem
    have hold := hs.unanswered n event hmem
    have hne : n ≠ handle := by simpa using hne
    rw [History.locations] at hc
    split at hc
    next clock newLocation hcall =>
      rcases List.mem_cons.1 hc with rfl | hc
      exacts [hne.symm, hold c hc]
    next => exact hold c hc

/-! ## The inversion -/

/-- The world after an event of one device, as its history sees it. -/
structure Stepped (uuid : ι → String) (d : ι) (h : History) (w : World ι) (e : Event)
    (w' : World ι) : Prop where
  events : w'.events d = w.events d + 1
  described : ∀ service, w'.app d = some service →
    Described (World.recordRef uuid d) (e :: h) service
  /-- A process that is gone leaves no variables to the next. -/
  ended : w'.app d = none → History.pushId (e :: h) = {}
  effect : Effect h (w.record uuid d) e (w'.record uuid d)
  /-- The other devices' processes are as before. -/
  others : ∀ d' ≠ d, w'.app d' = w.app d' ∧ w'.events d' = w.events d'
  /-- And so is the database apart from the record. -/
  apart : ∀ p, KeyedTree.Apart (World.recordRef uuid d) p →
    w'.database.getChild p = w.database.getChild p

/-- An event that leaves the database alone. -/
theorem Stepped.of_database_eq {w : World ι} {e : Event} {app : Option FirebaseService}
    (heffect : Effect h (w.record uuid d) e (w.record uuid d))
    (happ : ∀ service, app = some service →
      Described (World.recordRef uuid d) (e :: h) service)
    (hended : app = none → History.pushId (e :: h) = {}) :
    Stepped uuid d h w e (w.next d w.database app) where
  events := World.events_next_self ..
  described service hs := happ service ((World.app_next_self w d w.database app).symm.trans hs)
  ended hs := hended ((World.app_next_self w d w.database app).symm.trans hs)
  effect := heffect
  others _ hne := ⟨World.app_next_of_ne w _ _ hne, World.events_next_of_ne w _ _ hne⟩
  apart _ _ := rfl

/-- An event that writes below the record. -/
theorem Stepped.of_updateChild {w : World ι} {e : Event} {service : FirebaseService}
    {p : FPath} {new : FNode}
    (heffect : Effect h (w.record uuid d) e ((w.record uuid d).updateChild p new))
    (hs : Described (World.recordRef uuid d) (e :: h) service) :
    Stepped uuid d h w e
      (w.next d (w.database.updateChild (World.recordRef uuid d ++ p) new) (some service)) where
  events := World.events_next_self ..
  described service' hs' := by
    obtain rfl := Option.some.inj ((World.app_next_self w d _ (some service)).symm.trans hs')
    exact hs
  ended hs' := nomatch (World.app_next_self w d _ (some service)).symm.trans hs'
  effect := by
    have hrecord : ((w.next d (w.database.updateChild (World.recordRef uuid d ++ p) new)
        (some service)).record uuid d) = (w.record uuid d).updateChild p new :=
      FNode.getChild_updateChild_append w.database _ p new
    rw [hrecord]
    exact heffect
  others _ hne := ⟨World.app_next_of_ne w _ _ hne, World.events_next_of_ne w _ _ hne⟩
  apart q hq := by
    have hbelow : KeyedTree.Apart (World.recordRef uuid d ++ p) q := by
      simpa using hq.append p []
    rw [World.database_next, FNode.getChild_updateChild_of_apart _ hbelow]

section Cases

variable {w w' : World ι}

theorem stepped_launch (hevents : w.events d = h.length)
    (happ : ∀ service, w.app d = some service → Described (World.recordRef uuid d) h service)
    (hended : w.app d = none → h.pushId = {}) {reading : DeviceReading}
    (hstep : World.step uuid w (d, .launch reading) = some w') :
    Stepped uuid d h w (.launch reading) w' := by
  simp only [World.step] at hstep
  split at hstep
  next huuid =>
    obtain rfl := Option.some.inj hstep
    rw [hevents]
    rcases FirebaseService.loadDataFromDb_cases ((w.app d).getD {}) h.length reading with
      ⟨hno, failure, hfail⟩ | ⟨device, hdevice, hvalid, hdeviceId, hload⟩
    · rw [hfail]
      refine Stepped.of_database_eq (.quiet (fun _ _ _ => Event.noConfusion) rfl rfl rfl)
        (fun _ hs' => absurd hs'.symm (Option.some_ne_none _)) fun _ => ?_
      rw [History.pushId, hno, if_neg Bool.false_ne_true]
    · have hyes : launches reading = true := by
        rw [launches, hdevice, hvalid]
        rfl
      have hpushId : History.pushId (.launch reading :: h) = h.pushId := if_pos hyes
      rw [hload, hdeviceId, huuid]
      refine Stepped.of_database_eq (.quiet (fun _ _ _ => Event.noConfusion) rfl rfl rfl)
        (fun service' hs' => ?_) fun hs' => absurd hs' (Option.some_ne_none _)
      obtain rfl := Option.some.inj hs'
      -- the reads of a process that ran before, if one did, stay pending
      have hold : Described (World.recordRef uuid d) h
          { (w.app d).getD {} with ref := some (World.recordRef uuid d) } := by
        cases hrun : w.app d with
        | none => exact ⟨rfl, fun _ _ hmem => absurd hmem List.not_mem_nil,
            fun _ _ hmem => absurd hmem List.not_mem_nil, (hended hrun).symm⟩
        | some service =>
          have hs := happ service hrun
          exact ⟨rfl, hs.captured, hs.unanswered, hs.pushId⟩
      exact hold.observeSingleEvent rfl hpushId
        ⟨rfl, reading, History.callAt_cons_length _ h, hdevice⟩
  next => cases hstep

theorem stepped_saveUserData
    (happ : ∀ service, w.app d = some service → Described (World.recordRef uuid d) h service)
    {proj resp : Option String}
    (hstep : World.step uuid w (d, .saveUserData proj resp) = some w') :
    Stepped uuid d h w (.saveUserData proj resp) w' := by
  obtain ⟨service, hrun, rfl⟩ := Option.map_eq_some_iff.1 hstep
  have hs := happ service hrun
  rw [FirebaseService.saveUserData_eq hs.ref]
  exact Stepped.of_updateChild (.saved proj resp) (hs.cons rfl rfl)

theorem stepped_updateLocations (hevents : w.events d = h.length)
    (happ : ∀ service, w.app d = some service → Described (World.recordRef uuid d) h service)
    {clock : Clock} {newLocation : DeviceLocations}
    (hstep : World.step uuid w (d, .updateLocations clock newLocation) = some w') :
    Stepped uuid d h w (.updateLocations clock newLocation) w' := by
  obtain ⟨service, hrun, rfl⟩ := Option.map_eq_some_iff.1 hstep
  have hs := happ service hrun
  rw [FirebaseService.updateLocations_eq_ok hs.ref, hevents]
  refine Stepped.of_database_eq (.quiet (fun _ _ _ => Event.noConfusion) rfl rfl rfl)
    (fun service' hs' => ?_) fun hs' => absurd hs' (Option.some_ne_none _)
  obtain rfl := Option.some.inj hs'
  exact hs.observeSingleEvent rfl rfl ⟨clock, rfl, History.callAt_cons_length _ h⟩

theorem stepped_answer
    (happ : ∀ service, w.app d = some service → Described (World.recordRef uuid d) h service)
    {handle serverTime : ℕ} {random : List (Fin 64)}
    (hstep : World.step uuid w (d, .answer handle serverTime random) = some w') :
    Stepped uuid d h w (.answer handle serverTime random) w' := by
  obtain ⟨service, hrun, hstep⟩ := Option.bind_eq_some_iff.1 hstep
  obtain ⟨event, hlookup, rfl⟩ := Option.map_eq_some_iff.1 hstep
  have hs := happ service hrun
  have hmem := FirebaseService.mem_observers_of_lookup hlookup
  cases event with
  | registration ref device =>
    obtain ⟨rfl, reading, hcall, hdevice⟩ := hs.captured handle _ hmem
    have hpushId : History.pushId (.answer handle serverTime random :: h) = service.pushId :=
      (History.pushId_answer_launch hcall).trans hs.pushId.symm
    have hgone := hs.answer hpushId
    rw [FirebaseService.callback_registration]
    by_cases hr : (w.record uuid d).isEmpty = true
    · rw [if_pos (show (w.database.getChild (World.recordRef uuid d)).isEmpty = true from hr)]
      exact Stepped.of_updateChild (.registered hcall hdevice hr) hgone
    · rw [if_neg (show ¬ (w.database.getChild (World.recordRef uuid d)).isEmpty = true from hr)]
      refine Stepped.of_database_eq (.found hcall (Bool.eq_false_iff.2 hr)) (fun service' hs' => ?_)
        fun hs' => absurd hs' (Option.some_ne_none _)
      obtain rfl := Option.some.inj hs'
      exact hgone
  | location currentDateRef newLocation =>
    obtain ⟨clock, rfl, hcall⟩ := hs.captured handle _ hmem
    rw [FirebaseService.callback_location, hs.pushId]
    exact List.append_assoc (World.recordRef uuid d) _ _ ▸
      Stepped.of_updateChild (.located hcall (hs.unanswered handle _ hmem))
        (hs.answer (History.pushId_answer_location hcall))

/-- **What an event does**, whichever it is. -/
theorem stepped_of_step (hevents : w.events d = h.length)
    (happ : ∀ service, w.app d = some service → Described (World.recordRef uuid d) h service)
    (hended : w.app d = none → h.pushId = {}) {e : Event}
    (hstep : World.step uuid w (d, e) = some w') : Stepped uuid d h w e w' := by
  cases e with
  | launch reading => exact stepped_launch hevents happ hended hstep
  | saveUserData proj resp => exact stepped_saveUserData happ hstep
  | updateLocations clock newLocation => exact stepped_updateLocations hevents happ hstep
  | answer handle serverTime random => exact stepped_answer happ hstep
  | kill =>
    obtain ⟨service, -, rfl⟩ := Option.map_eq_some_iff.1 hstep
    exact Stepped.of_database_eq (.quiet (fun _ _ _ => Event.noConfusion) rfl rfl rfl)
      (fun service' hs' => nomatch hs') fun _ => rfl

end Cases

end DevicesTracker
