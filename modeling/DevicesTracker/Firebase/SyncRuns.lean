import DevicesTracker.Firebase.SyncTree
/-!
# Firebase — runs of the sync tree

Views are made and dropped, the user writes, writes are answered or all
given up, and the server sends data, in any order. In an orderly run no
assertion fails, each view stays coherent with the writes then pending, a
view below a complete one is complete (`sound_run`), and what the app is told
of an operation is all that it did (`act_run`). So what the app sees, though
only ever changed in places, is the server's data with the pending writes
done.
-/

namespace DevicesTracker

open FImmutableSortedDictionary FImmutableTree

/-- A map that may fail, over a list on which it does not. -/
theorem exists_mapM {α β γ : Type} {f : α → Option β} {P : α → β → Prop} {g : α → γ} {k : β → γ}
    {l : List α} (h : ∀ a ∈ l, ∃ b, f a = some b ∧ k b = g a ∧ P a b) :
    ∃ bs, l.mapM f = some bs ∧ bs.map k = l.map g ∧ ∀ b ∈ bs, ∃ a ∈ l, P a b := by
  induction l with
  | nil => exact ⟨[], rfl, rfl, fun b hb => absurd hb List.not_mem_nil⟩
  | cons a l ih =>
    obtain ⟨b, hb, hg, hP⟩ := h a List.mem_cons_self
    obtain ⟨bs, hbs, hmap, hall⟩ := ih fun a' ha' => h a' (List.mem_cons_of_mem a ha')
    refine ⟨b :: bs, ?_, ?_, fun b' hb' => ?_⟩
    · rw [List.mapM_cons, hb, hbs]
      rfl
    · rw [List.map_cons, List.map_cons, hg, hmap]
    · rcases List.mem_cons.1 hb' with rfl | hb'
      · exact ⟨a, List.mem_cons_self, hP⟩
      · obtain ⟨a', ha', hP'⟩ := hall b' hb'
        exact ⟨a', List.mem_cons_of_mem a ha', hP'⟩

theorem Reported.refl (v : FViewCache) : Reported v v [] :=
  ⟨List.nodup_nil, fun _ => FNode.IsEqual.refl _, fun _ h => absurd h List.not_mem_nil,
    fun hfull _ => ⟨hfull, FNode.IsEqual.refl _⟩⟩

theorem Clear.append {ws us : List (List String × FNode)} {q : List String} {m : FNode}
    (h : Clear ws q m) (h' : Clear us q m) : Clear (ws ++ us) q m := by
  intro r
  rcases h r with hnone | hws
  · exact Or.inl hnone
  · refine (h' r).imp_right fun hus w hw => ?_
    exact (List.mem_append.1 hw).elim (hws w) (hus w)

namespace FWriteRecord

/-- **The affected tree of a write** has its paths. -/
theorem affects_affectedTree (r : FWriteRecord) :
    r.affectedTree.WellFormed ∧ Affects [] r.path r.writes r.affectedTree := by
  have hpaths : r.affectedTree.WellFormed ∧ ∀ e : List String × Unit,
      e ∈ r.affectedTree.forEach ↔ ∃ w ∈ r.writes, w.1 = r.path ++ e.1 := by
    obtain ⟨writeId, path, change, visible⟩ := r
    cases change with
    | overwrite node =>
      refine ⟨.written (), fun e => ⟨fun he => ?_, ?_⟩⟩
      · obtain rfl := List.mem_singleton.1 he
        exact ⟨_, List.mem_singleton.2 rfl, (List.append_nil path).symm⟩
      · rintro ⟨w, hw, heq⟩
        obtain rfl := List.mem_singleton.1 hw
        exact List.mem_singleton.2 (Prod.ext (List.self_eq_append_right.1 heq) rfl)
    | merge children =>
      have hapart := List.pairwise_map.2 (pairwise_apart_forEach children.wellFormed)
      obtain ⟨hwf, hmem⟩ := wellFormed_empty.foldl_setValue () hapart
        fun e he => absurd he List.not_mem_nil
      refine ⟨hwf, fun e => (hmem e).trans ⟨?_, ?_⟩⟩
      · rintro (⟨p, hp, rfl⟩ | he)
        · obtain ⟨c, hc, rfl⟩ := List.mem_map.1 hp
          exact ⟨_, List.mem_map.2 ⟨c, hc, rfl⟩, rfl⟩
        · exact absurd he List.not_mem_nil
      · rintro ⟨w, hw, heq⟩
        obtain ⟨c, hc, rfl⟩ := List.mem_map.1 hw
        exact Or.inl ⟨_, List.mem_map.2 ⟨c, hc, rfl⟩,
          Prod.ext (List.append_cancel_left heq).symm rfl⟩
  refine ⟨hpaths.1, fun q hq => ?_, fun e he => ?_⟩
  · obtain ⟨w, hw, hp⟩ := hq
    obtain ⟨rest, hrest⟩ := prefix_of_mem_writes hw
    exact ⟨(rest, ()), (hpaths.2 _).2 ⟨w, hw, hrest.symm⟩, hrest ▸ hp⟩
  · exact Or.inr ((hpaths.2 e).1 he)

end FWriteRecord

/-- A write that need not be evaluated again is covered by a later one. -/
theorem FWriteTree.covered_of_removeWriteId {s s' : FWriteTree} {r : FWriteRecord}
    {rest : List FWriteRecord} (hall : s.allWrites = r :: rest)
    (hvisible : ∀ c ∈ s.allWrites, c.visible = true)
    (h : s.removeWriteId r.writeId = some (s', false)) :
    ∃ c ∈ rest, c.containsPath r.path = true := by
  by_contra hcovered
  rw [hall] at hvisible
  have hscan := overlapsFrom_not_covered rest.reverse false (r := r) fun c hc =>
    have hc' := List.mem_reverse.1 hc
    ⟨hvisible c (List.mem_cons_of_mem r hc'), Bool.eq_false_iff.2 fun hp => hcovered ⟨c, hc', hp⟩⟩
  rw [removeWriteId_head hall (hvisible r List.mem_cons_self) hscan] at h
  exact nomatch congrArg Prod.snd (Option.some.inj h)

namespace FOperation

variable {operation : FOperation} {q t : List String}

theorem operationAt_append (operation : FOperation) (q t : List String) :
    operation.operationAt (q ++ t) =
      (operation.operationAt q).bind fun next => next.elim (some none) (operationAt t) := by
  induction q generalizing operation with
  | nil => rfl
  | cons k q ih =>
    rw [List.cons_append, operationAt, operationAt]
    split
    · cases operation.operationForChild k with
      | none => rfl
      | some next =>
        cases next with
        | none => rfl
        | some o => exact ih o
    · rfl

/-- The operation completes the server's data for a view at a path. -/
def CompletesAt (operation : FOperation) (q : List String) : Prop :=
  ∃ o, operation.operationAt q = some (some o) ∧ o.completes = true

/-- **What completes a view completes those below it.** -/
theorem CompletesAt.below (h : operation.CompletesAt q) (t : List String) :
    operation.CompletesAt (q ++ t) := by
  obtain ⟨o, ho, hcompletes⟩ := h
  have hbelow : ∀ {o : FOperation}, o.completes = true →
      ∃ o', o.operationAt t = some (some o') ∧ o'.completes = true := by
    induction t with
    | nil => exact fun {o} ho => ⟨o, rfl, ho⟩
    | cons k t ih =>
      intro o ho
      cases o with
      | overwrite fromUser path snap =>
        cases fromUser with
        | true => cases ho
        | false =>
          obtain rfl := List.isEmpty_iff.1 ho
          exact ih (o := overwrite false [] (snap.getImmediateChild k)) rfl
      | listenComplete path =>
        obtain rfl := List.isEmpty_iff.1 ho
        exact ih (o := listenComplete []) rfl
      | merge fromUser path children => cases ho
      | ackUserWrite path affectedTree revert => cases ho
  obtain ⟨o', ho', hcompletes'⟩ := hbelow hcompletes
  refine ⟨o', ?_, hcompletes'⟩
  rw [operationAt_append, ho]
  exact ho'

end FOperation

namespace FSyncTree

variable {s : FSyncTree} {operation : FOperation} {q : List String} {v v' : FViewCache}
  {ws us rs : List (List String × FNode)}

/-- The pending writes, one by one. -/
abbrev pending (s : FSyncTree) : List (List String × FNode) := s.pendingWriteTree.pending

/-- A view below a complete one is complete. -/
def Covered (s : FSyncTree) : Prop :=
  ∀ e ∈ s.views, ∀ e' ∈ s.views, e.1 <+: e'.1 →
    e.2.cachedServerSnap.isFullyInitialized = true →
      e'.2.cachedServerSnap.isFullyInitialized = true

/-- **A sound sync tree.** -/
structure Sound (s : FSyncTree) : Prop where
  writes : s.pendingWriteTree.Sound
  nodup : (s.views.map Prod.fst).Nodup
  coherent : ∀ e ∈ s.views, Coherent s.pending e.1 e.2
  covered : s.Covered

/-- **What the app is told of an action is what it did** to each view but
one it made. -/
def Reports (a : Action) (s s' : FSyncTree) (told : Told) : Prop :=
  ∀ q v', (q, v') ∈ s'.views → a = .addEventRegistration q ∨
    ∃ v, (q, v) ∈ s.views ∧ Reported v v' ((told.lookup q).getD [])

/-- The server cache taken down to a path is that of a complete view. -/
theorem exists_of_completeServerCacheAtPath {n : FNode}
    (h : s.completeServerCacheAtPath q = some n) :
    ∃ p t v, q = p ++ t ∧ (p, v) ∈ s.views ∧ v.cachedServerSnap.isFullyInitialized = true ∧
      n = v.cachedServerSnap.node.getChild t := by
  obtain ⟨p, hp, hn⟩ := List.exists_of_findSome?_eq_some h
  obtain ⟨t, rfl⟩ := (List.mem_inits p q).1 hp
  obtain ⟨m, hm, rfl⟩ := Option.map_eq_some_iff.1 hn
  obtain ⟨v, hv, hcomplete⟩ := Option.bind_eq_some_iff.1 hm
  unfold FViewCache.completeServerSnap at hcomplete
  split at hcomplete
  · rename_i hfull
    obtain rfl := Option.some.inj hcomplete
    exact ⟨p, t, v, rfl, Dictionary.mem_of_lookup hv, hfull,
      by rw [FPath.relativePathFrom_append]⟩
  · cases hcomplete

/-- A view is complete where there is a server cache for it. -/
theorem Covered.full (h : s.Covered) (hv : (q, v) ∈ s.views)
    (hopt : (s.completeServerCacheAtPath q).isSome = true) :
    v.cachedServerSnap.isFullyInitialized = true := by
  obtain ⟨n, hn⟩ := Option.isSome_iff_exists.1 hopt
  obtain ⟨p, t, v₀, rfl, hmem, hfull, -⟩ := exists_of_completeServerCacheAtPath hn
  exact h _ hmem _ hv (List.prefix_append p t) hfull

/-! ## One view -/

/-- An operation that comes to a view. -/
theorem applyToView_some {o : FOperation} {P : FViewCache → Prop}
    (hat : operation.operationAt q = some (some o))
    (h : Gives v.cachedEventSnap.node.getImmediateChild
      (FViewProcessor.process ⟨q, s.pendingWriteTree⟩ (s.completeServerCacheAtPath q) v (some {}) o)
      P) :
    ∃ v' changes, s.applyToView operation q v = some (v', changes) ∧ Reported v v' changes ∧
      P v' := by
  obtain ⟨v', changes, happly, hreported, hP⟩ := h.applyOperationOn
  refine ⟨v', changes, ?_, hreported, hP⟩
  unfold applyToView
  rw [hat]
  exact happly

/-- An operation that does not. -/
theorem applyToView_none {P : FViewCache → Prop} (hat : operation.operationAt q = some none)
    (hP : P v) :
    ∃ v' changes, s.applyToView operation q v = some (v', changes) ∧ Reported v v' changes ∧
      P v' := by
  refine ⟨v, [], ?_, Reported.refl v, hP⟩
  unfold applyToView
  rw [hat]

/-- **New writes of the user** come to a view. -/
theorem applyToView_user (hv : Coherent ws q v) (hs : s.pending = ws ++ operation.writes)
    (hsound : s.pendingWriteTree.Sound) (hclear : Clear s.pending q v.cachedServerSnap.node)
    (hopt : (s.completeServerCacheAtPath q).isSome = true →
      v.cachedServerSnap.isFullyInitialized = true)
    (hdata : operation.IsData true) :
    ∃ v' changes, s.applyToView operation q v = some (v', changes) ∧ Reported v v' changes ∧
      Coherent s.pending q v' := by
  obtain ⟨next, hat, hnext, hhanded⟩ := FOperation.handed_operationAt hdata q
  cases next with
  | none =>
    refine applyToView_none hat ?_
    rw [hs] at hclear ⊢
    exact hv.unseen ⟨hhanded.patch, hhanded.shadow, List.Pairwise.nil⟩ hclear
  | some o =>
    refine applyToView_some hat ?_
    have hseen : SeenFrom q operation.writes o.writes :=
      ⟨hhanded.patch, hhanded.shadow, o.pairwise_apart_writes⟩
    have ho := hnext o rfl
    cases o with
    | overwrite fromUser path snap =>
      obtain rfl : fromUser = true := ho
      exact hv.applyUserOverwriteTo hs hseen hsound.gathers hclear hopt (Tracks.init _)
    | merge fromUser path children =>
      obtain rfl : fromUser = true := ho
      exact hv.applyUserMergeTo hs hseen hsound.gathers hclear hopt (Tracks.init _)
    | ackUserWrite path affectedTree revert => exact absurd ho id
    | listenComplete path => exact absurd ho id

/-- **New data of the server** comes to a view. -/
theorem applyToView_server (hv : Coherent s.pending q v) (hsound : s.pendingWriteTree.Sound)
    (hclear : ∀ w ∈ operation.writes, Clear s.pending w.1 w.2) (hdata : operation.IsData false) :
    ∃ v' changes, s.applyToView operation q v = some (v', changes) ∧ Reported v v' changes ∧
      Coherent s.pending q v' := by
  obtain ⟨next, hat, hnext, hhanded⟩ := FOperation.handed_operationAt hdata q
  cases next with
  | none => exact applyToView_none hat hv
  | some o =>
    refine applyToView_some hat ?_
    have hhere : ∀ w ∈ o.writes, Clear s.pending (q ++ w.1) w.2 := hhanded.clear hclear
    have ho := hnext o rfl
    cases o with
    | overwrite fromUser path snap =>
      obtain rfl : fromUser = false := ho
      exact hv.applyServerOverwriteTo hsound.gathers (hhere _ (List.mem_singleton.2 rfl))
        (Tracks.init _)
    | merge fromUser path children =>
      obtain rfl : fromUser = false := ho
      exact hv.applyServerMergeTo hsound.gathers hhere (Tracks.init _)
    | ackUserWrite path affectedTree revert => exact absurd ho id
    | listenComplete path => exact absurd ho id

/-- **The answer to writes** comes to a view. -/
theorem applyToView_ack {p : List String} {rs : List (List String × FNode)}
    {t : FImmutableTree Unit} (hwf : t.WellFormed) (haffects : Affects [] p rs t) (revert : Bool)
    (hv : Coherent (rs ++ s.pending) q v) (hsound : s.pendingWriteTree.Sound) :
    ∃ v' changes, s.applyToView (.ackUserWrite p t revert) q v = some (v', changes) ∧
      Reported v v' changes ∧ Coherent s.pending q v' := by
  rcases FOperation.affects_operationAt hwf revert haffects q with
    ⟨hat, hno⟩ | ⟨p', t', hat, haffects'⟩
  · exact applyToView_none hat (hv.unaffected fun r' _ hr => absurd hr (hno r'))
  · refine applyToView_some hat ?_
    cases revert with
    | false => exact hv.ackUserWriteOn hsound.gathers haffects' (Tracks.init _)
    | true =>
      refine hv.revertUserWriteOn hsound.gathers (fun r' hr => ?_) (Tracks.init _)
      obtain ⟨e, -, hp⟩ := haffects'.covers r' hr
      exact (List.prefix_append p' e.1).trans hp

/-- The end of a listen's first data comes to a view. -/
theorem applyToView_listenComplete (p : List String) (hv : Coherent s.pending q v)
    (hsound : s.pendingWriteTree.Sound) :
    ∃ v' changes, s.applyToView (.listenComplete p) q v = some (v', changes) ∧
      Reported v v' changes ∧ Coherent s.pending q v' := by
  rcases FOperation.operationAt_listenComplete p q with hat | ⟨p', hat⟩
  · exact applyToView_none hat hv
  · exact applyToView_some hat (hv.listenComplete hsound.gathers (Tracks.init _))

/-- Whether a view is complete after an operation. -/
theorem full_applyToView {changes : List FChange}
    (h : s.applyToView operation q v = some (v', changes)) :
    v'.cachedServerSnap.isFullyInitialized = true ↔
      v.cachedServerSnap.isFullyInitialized = true ∨ operation.CompletesAt q := by
  unfold applyToView at h
  cases hat : operation.operationAt q with
  | none =>
    rw [hat] at h
    cases h
  | some next =>
    rw [hat] at h
    cases next with
    | none =>
      obtain ⟨rfl, -⟩ := Prod.mk.inj (Option.some.inj h)
      refine ⟨Or.inl, fun hfull => hfull.resolve_right ?_⟩
      rintro ⟨o, ho, -⟩
      rw [hat] at ho
      cases ho
    | some o =>
      obtain ⟨cur, hcur, heq⟩ := Option.map_eq_some_iff.1 h
      obtain ⟨rfl, -⟩ := Prod.mk.inj heq
      rw [FViewProcessor.full_process hcur, Bool.or_eq_true]
      refine or_congr Iff.rfl ⟨fun ho => ⟨o, hat, ho⟩, ?_⟩
      rintro ⟨o', ho', hcompletes⟩
      obtain rfl := Option.some.inj (Option.some.inj (hat.symm.trans ho'))
      exact hcompletes

/-! ## All views -/

/-- **An operation on all views**, when each takes it. -/
theorem applyOperationToSyncPoints_spec (a : Action) (hwrites : s.pendingWriteTree.Sound)
    (hnodup : (s.views.map Prod.fst).Nodup) (hcovered : s.Covered)
    (hviews : ∀ e ∈ s.views, ∃ v' changes, s.applyToView operation e.1 e.2 = some (v', changes) ∧
      Reported e.2 v' changes ∧ Coherent s.pending e.1 v') :
    ∃ s' told, s.applyOperationToSyncPoints operation = some (s', told) ∧ s'.Sound ∧
      Reports a s s' told := by
  obtain ⟨results, hresults, hpaths, hall⟩ := exists_mapM (l := s.views) (g := Prod.fst)
    (k := Prod.fst)
    (f := fun e => (s.applyToView operation e.1 e.2).map fun r => (e.1, r))
    (P := fun e b => b.1 = e.1 ∧ s.applyToView operation e.1 e.2 = some b.2 ∧
      Reported e.2 b.2.1 b.2.2 ∧ Coherent s.pending e.1 b.2.1) fun e he => by
        obtain ⟨v', changes, happly, hrest⟩ := hviews e he
        exact ⟨(e.1, v', changes), by rw [happly]; rfl, rfl, rfl, happly, hrest⟩
  have hview : ∀ e' ∈ results.map fun b => (b.1, b.2.1), ∃ e ∈ s.views, ∃ b ∈ results,
      e' = (b.1, b.2.1) ∧ b.1 = e.1 ∧ s.applyToView operation e.1 e.2 = some b.2 ∧
        Reported e.2 b.2.1 b.2.2 ∧ Coherent s.pending e.1 b.2.1 := by
    intro e' he'
    obtain ⟨b, hb, rfl⟩ := List.mem_map.1 he'
    obtain ⟨e, he, hrest⟩ := hall b hb
    exact ⟨e, he, b, hb, rfl, hrest⟩
  refine ⟨_, _, by unfold applyOperationToSyncPoints; rw [hresults]; rfl, ?_, ?_⟩
  · refine ⟨hwrites, ?_, fun e' he' => ?_, fun e₁ he₁ e₂ he₂ hprefix hfull => ?_⟩
    · rw [List.map_map]
      exact hpaths.symm ▸ hnodup
    · obtain ⟨e, -, b, -, rfl, hpath, -, -, hcoherent⟩ := hview e' he'
      rw [← hpath] at hcoherent
      exact hcoherent
    · obtain ⟨e, he, b, -, rfl, hpath, happly, -⟩ := hview e₁ he₁
      obtain ⟨e', he', b', -, rfl, hpath', happly', -⟩ := hview e₂ he₂
      dsimp only at hprefix hfull ⊢
      rw [hpath, hpath'] at hprefix
      rw [full_applyToView happly] at hfull
      rw [full_applyToView happly']
      refine hfull.imp (hcovered e he e' he' hprefix) fun hcompletes => ?_
      obtain ⟨t, ht⟩ := hprefix
      exact ht ▸ hcompletes.below t
  · intro q v' hv'
    obtain ⟨e, he, b, hb, heq, hpath, -, hreported, -⟩ := hview _ hv'
    obtain ⟨rfl, rfl⟩ := Prod.mk.inj heq
    have htold : (results.map fun b => (b.1, b.2.2)).lookup b.1 = some b.2.2 := by
      refine Dictionary.lookup_of_mem ?_ (List.mem_map.2 ⟨b, hb, rfl⟩)
      rw [List.map_map]
      exact hpaths.symm ▸ hnodup
    rw [htold]
    exact Or.inr ⟨e.2, hpath.symm ▸ he, hreported⟩

/-- Of views that stay as they are nothing is told. -/
theorem reports_nil {a : Action} {s' : FSyncTree}
    (hsub : ∀ q v', (q, v') ∈ s'.views → a = .addEventRegistration q ∨ (q, v') ∈ s.views) :
    Reports a s s' [] := fun q v' hv' =>
  (hsub q v' hv').imp_right fun hv => ⟨v', hv, Reported.refl v'⟩

/-- **The server's data a new view starts with** has no leaf above a
pending write. -/
theorem Sound.clear_serverCacheForQuery (h : s.Sound) (q : List String) :
    Clear s.pending q (s.serverCacheForQuery q).node := by
  unfold serverCacheForQuery
  cases hcache : s.completeServerCacheAtPath q with
  | some n =>
    obtain ⟨p, t, v, rfl, hv, -, rfl⟩ := exists_of_completeServerCacheAtPath hcache
    exact (h.coherent _ hv).clear.getChild t
  | none =>
    -- Each child's complete snap is put in by itself, and is clear below its own path.
    refine List.foldlRecOn s.views _ (fun r => Or.inl (FNode.leafAt_emptyNode r)) ?_
    intro n hn e he
    split
    · rename_i k m _ hsnap
      split
      · rename_i hpath
        unfold FViewCache.completeServerSnap at hsnap
        split at hsnap
        · obtain rfl := Option.some.inj hsnap
          have hclear := (h.coherent e he).clear
          rw [hpath] at hclear
          exact hn.updateChild hclear
        · cases hsnap
      · exact hn
    · exact hn

theorem server_initialViewCache (writes : FWriteTreeRef) (c : FCacheNode) :
    (FSyncPoint.initialViewCache writes c).cachedServerSnap = c := by
  unfold FSyncPoint.initialViewCache
  dsimp only
  split <;> rfl

/-- A new view below a complete one is complete, and no other. -/
theorem full_serverCacheForQuery :
    (s.serverCacheForQuery q).isFullyInitialized = (s.completeServerCacheAtPath q).isSome := by
  unfold serverCacheForQuery
  cases s.completeServerCacheAtPath q <;> rfl

theorem isSome_completeServerCacheAtPath {p : List String} (hnodup : (s.views.map Prod.fst).Nodup)
    (hv : (p, v) ∈ s.views) (hp : p <+: q)
    (hfull : v.cachedServerSnap.isFullyInitialized = true) :
    (s.completeServerCacheAtPath q).isSome = true := by
  unfold completeServerCacheAtPath
  rw [List.findSome?_isSome_iff]
  refine ⟨p, (List.mem_inits p q).2 hp, ?_⟩
  rw [Dictionary.lookup_of_mem hnodup hv, Option.bind_some, Option.isSome_map]
  unfold FViewCache.completeServerSnap
  rw [if_pos hfull]
  rfl

/-- **A new view is coherent**, and complete if one above it is. -/
theorem Sound.addEventRegistration (h : s.Sound) (q : List String) :
    (s.addEventRegistration q).Sound ∧
      Reports (.addEventRegistration q) s (s.addEventRegistration q) [] := by
  unfold FSyncTree.addEventRegistration
  split
  · exact ⟨h, reports_nil fun _ _ hv' => Or.inr hv'⟩
  · rename_i hnone
    have hnew : q ∉ s.views.map Prod.fst := by
      intro hmem
      obtain ⟨v, hv⟩ := Dictionary.exists_lookup hmem
      exact hnone (by rw [hv]; rfl)
    refine ⟨⟨h.writes, List.nodup_cons.2 ⟨hnew, h.nodup⟩, fun e he => ?_,
      fun e he e' he' hprefix hfull => ?_⟩, reports_nil fun p v' hv' => ?_⟩
    · rcases List.mem_cons.1 he with rfl | he
      · exact coherent_initialViewCache h.writes.gathers (h.clear_serverCacheForQuery q)
      · exact h.coherent e he
    · rcases List.mem_cons.1 he' with rfl | hold'
      · dsimp only
        rw [server_initialViewCache, full_serverCacheForQuery]
        rcases List.mem_cons.1 he with rfl | hold
        · dsimp only at hfull
          rw [server_initialViewCache, full_serverCacheForQuery] at hfull
          exact hfull
        · exact isSome_completeServerCacheAtPath h.nodup hold hprefix hfull
      · rcases List.mem_cons.1 he with rfl | hold
        · dsimp only at hfull hprefix
          rw [server_initialViewCache, full_serverCacheForQuery] at hfull
          obtain ⟨n, hn⟩ := Option.isSome_iff_exists.1 hfull
          obtain ⟨p, t, v, rfl, hv, hfull', -⟩ := exists_of_completeServerCacheAtPath hn
          exact h.covered _ hv e' hold' ((List.prefix_append p t).trans hprefix) hfull'
        · exact h.covered e hold e' hold' hprefix hfull
    · rcases List.mem_cons.1 hv' with heq | hv'
      · exact Or.inl (congrArg Action.addEventRegistration (Prod.mk.inj heq).1.symm)
      · exact Or.inr hv'

/-- A view is dropped. -/
theorem Sound.removeEventRegistration (h : s.Sound) (q : List String) :
    Sound { s with views := s.views.filter fun e => e.1 ≠ q } ∧
      Reports (.removeEventRegistration q) s
        { s with views := s.views.filter fun e => e.1 ≠ q } [] := by
  have hsub : ∀ {e}, e ∈ s.views.filter (fun e => e.1 ≠ q) → e ∈ s.views := fun he =>
    (List.mem_filter.1 he).1
  refine ⟨⟨h.writes, Dictionary.nodup_removed h.nodup q, fun e he => h.coherent e (hsub he),
    fun e he e' he' => h.covered e (hsub he) e' (hsub he')⟩,
    reports_nil fun _ _ hv' => Or.inr (hsub hv')⟩

/-! ## Runs -/

/-- **An orderly action**: writes are visible and numbered upwards, the
oldest is answered first, with each later one aside of it, and the server's
data has no leaf above a pending write. -/
def Orderly (_ : List Action) (s : FSyncTree) : Action → Prop
  | .applyUserOverwrite path newData writeId visible =>
    visible = true ∧ s.pendingWriteTree.lastWriteId < writeId ∧
      ∀ e ∈ s.views, Clear [(path, newData)] e.1 e.2.cachedServerSnap.node
  | .applyUserMerge path changedChildren writeId =>
    s.pendingWriteTree.lastWriteId < writeId ∧
      ∀ e ∈ s.views, Clear (shift path changedChildren.enumerateWrites) e.1
        e.2.cachedServerSnap.node
  | .ackUserWrite writeId _ =>
    ∃ r rest, s.pendingWriteTree.allWrites = r :: rest ∧ r.writeId = writeId ∧
      ∀ c ∈ rest, FWriteTree.Aside r c
  | .removeAllWrites => True
  | .applyServerOverwrite path newData => Clear s.pending path newData
  | .applyServerMerge path changedChildren =>
    ∀ w ∈ shift path changedChildren.enumerateWrites, Clear s.pending w.1 w.2
  | .applyListenComplete _ => True
  | .addEventRegistration _ => True
  | .removeEventRegistration _ => True

/-- New writes of the user, recorded and then handed to the views. -/
theorem Sound.user (h : s.Sound) (a : Action) (operation : FOperation) {writes : FWriteTree}
    (hwrites : writes.Sound) (hpending : writes.pending = s.pending ++ operation.writes)
    (hdata : operation.IsData true)
    (hclear : ∀ e ∈ s.views, Clear operation.writes e.1 e.2.cachedServerSnap.node) :
    ∃ s' told, ({ s with pendingWriteTree := writes } : FSyncTree).applyOperationToSyncPoints
      operation = some (s', told) ∧ s'.Sound ∧ Reports a s s' told := by
  refine applyOperationToSyncPoints_spec (s := { s with pendingWriteTree := writes }) a hwrites
    h.nodup h.covered fun e he => ?_
  refine applyToView_user (h.coherent e he) hpending hwrites ?_ (fun hopt => ?_) hdata
  · change Clear writes.pending e.1 e.2.cachedServerSnap.node
    rw [hpending]
    exact (h.coherent e he).clear.append (hclear e he)
  · exact Covered.full (s := { s with pendingWriteTree := writes }) h.covered he hopt

/-- **The oldest write is answered.** -/
theorem Sound.ack (h : s.Sound) (a : Action) {r : FWriteRecord} {rest : List FWriteRecord}
    (hall : s.pendingWriteTree.allWrites = r :: rest)
    (haside : ∀ c ∈ rest, FWriteTree.Aside r c) (revert : Bool) :
    ∃ s' told, s.ackUserWriteWithWriteId r.writeId revert = some (s', told) ∧ s'.Sound ∧
      Reports a s s' told := by
  obtain ⟨writes, needToReevaluate, hremove, hrest, hwrites⟩ := h.writes.removeWriteId hall haside
  have hfind : s.pendingWriteTree.writeForId r.writeId = some r := by
    unfold FWriteTree.writeForId
    rw [hall]
    exact List.find?_cons_of_pos (decide_eq_true rfl)
  have hpending : s.pending = r.writes ++ writes.pending := by
    have hsplit : FWriteTree.writesOf (r :: rest) = r.writes ++ FWriteTree.writesOf rest :=
      List.flatMap_cons
    unfold pending FWriteTree.pending
    rw [hall, hrest, hsplit]
  have hcoherent : ∀ e ∈ s.views, Coherent (r.writes ++ writes.pending) e.1 e.2 := fun e he =>
    hpending ▸ h.coherent e he
  unfold ackUserWriteWithWriteId
  rw [hfind, hremove]
  cases needToReevaluate with
  | false =>
    -- a later write covers the answered one
    obtain ⟨c, hc, hcovers⟩ :=
      FWriteTree.covered_of_removeWriteId hall h.writes.visible hremove
    obtain ⟨w', hw', hp⟩ := FWriteRecord.containsPath_iff.1 hcovers
    have hmem : w' ∈ writes.pending := by
      unfold FWriteTree.pending
      rw [hrest]
      exact List.mem_flatMap.2 ⟨c, hc, hw'⟩
    refine ⟨_, _, rfl, ⟨hwrites, h.nodup, fun e he => ?_, h.covered⟩,
      reports_nil fun _ _ hv' => Or.inr hv'⟩
    refine (hcoherent e he).unaffected fun q _ hq => ?_
    obtain ⟨w, hw, hwq⟩ := hq
    exact ⟨w', hmem, (hp.trans (FWriteRecord.prefix_of_mem_writes hw)).trans hwq⟩
  | true =>
    exact applyOperationToSyncPoints_spec (s := { s with pendingWriteTree := writes }) a hwrites
      h.nodup h.covered fun e he => applyToView_ack r.affects_affectedTree.1
        r.affects_affectedTree.2 revert (hcoherent e he) hwrites

/-- **All writes are given up.** -/
theorem Sound.removeAllWrites (h : s.Sound) (a : Action) :
    ∃ s' told, s.removeAllWrites = some (s', told) ∧ s'.Sound ∧ Reports a s s' told := by
  have hwrites : s.pendingWriteTree.removeAllWrites.1.Sound :=
    ⟨gathers_emptyWrite, fun _ hc => absurd hc List.not_mem_nil⟩
  have hcoherent : ∀ e ∈ s.views,
      Coherent (s.pending ++ s.pendingWriteTree.removeAllWrites.1.pending) e.1 e.2 := fun e he =>
    (List.append_nil s.pending).symm ▸ h.coherent e he
  unfold FSyncTree.removeAllWrites
  dsimp only
  split
  · rename_i hnone
    -- no write was pending
    have hall : s.pendingWriteTree.allWrites = [] := List.isEmpty_iff.1 hnone
    have hpending : s.pending = [] := by
      unfold pending FWriteTree.pending
      rw [hall]
      rfl
    refine ⟨_, _, rfl, ⟨hwrites, h.nodup, fun e he => ?_, h.covered⟩,
      reports_nil fun _ _ hv' => Or.inr hv'⟩
    have hv := hcoherent e he
    rw [hpending, List.nil_append] at hv
    exact hv
  · -- the root is affected, and all below it
    refine applyOperationToSyncPoints_spec
      (s := { s with pendingWriteTree := s.pendingWriteTree.removeAllWrites.1 }) a hwrites
      h.nodup h.covered fun e he => applyToView_ack (.written ()) ⟨fun r _ => ?_, fun e he => ?_⟩
        true (hcoherent e he) hwrites
    · exact ⟨_, List.mem_singleton.2 rfl, List.nil_prefix⟩
    · obtain rfl := List.mem_singleton.1 he
      exact Or.inl rfl

/-- **An orderly action is done**, keeps the sync tree sound, and the app
is told what it did. -/
theorem Sound.act (h : s.Sound) {tr : List Action} {a : Action} (ha : Orderly tr s a) :
    ∃ s' told, s.act a = some (s', told) ∧ s'.Sound ∧ Reports a s s' told := by
  cases a with
  | applyUserOverwrite path newData writeId visible =>
    obtain ⟨rfl, hid, hclear⟩ := ha
    have hadd : s.pendingWriteTree.addOverwriteAtPath path newData writeId true = some _ :=
      if_pos hid
    obtain ⟨s', told, happly, hs'⟩ := h.user _ (.overwrite true path newData)
      (h.writes.addOverwriteAtPath hadd) (by simp [FWriteTree.pending, FWriteTree.writesOf,
        FOperation.writes, FWriteRecord.writes, FWriteRecord.ofOverwrite]) rfl hclear
    refine ⟨s', told, ?_, hs'⟩
    unfold FSyncTree.act applyUserOverwriteAtPath
    dsimp only
    rw [hadd, Option.bind_some]
    exact happly
  | applyUserMerge path changedChildren writeId =>
    obtain ⟨hid, hclear⟩ := ha
    have hadd : s.pendingWriteTree.addMergeAtPath path changedChildren writeId = some _ :=
      if_pos hid
    obtain ⟨s', told, happly, hs'⟩ := h.user _ (.merge true path changedChildren)
      (h.writes.addMergeAtPath hadd) (by simp [FWriteTree.pending, FWriteTree.writesOf,
        FOperation.writes, FWriteRecord.writes, FWriteRecord.ofMerge, shift]) rfl hclear
    refine ⟨s', told, ?_, hs'⟩
    unfold FSyncTree.act applyUserMergeAtPath
    dsimp only
    rw [hadd, Option.bind_some]
    exact happly
  | ackUserWrite writeId revert =>
    obtain ⟨r, rest, hall, rfl, haside⟩ := ha
    exact h.ack _ hall haside revert
  | removeAllWrites => exact h.removeAllWrites _
  | applyServerOverwrite path newData =>
    refine applyOperationToSyncPoints_spec _ h.writes h.nodup h.covered fun e he => ?_
    refine applyToView_server (h.coherent e he) h.writes (fun w hw => ?_) rfl
    obtain rfl := List.mem_singleton.1 hw
    exact ha
  | applyServerMerge path changedChildren =>
    exact applyOperationToSyncPoints_spec _ h.writes h.nodup h.covered fun e he =>
      applyToView_server (h.coherent e he) h.writes ha rfl
  | applyListenComplete path =>
    exact applyOperationToSyncPoints_spec _ h.writes h.nodup h.covered fun e he =>
      applyToView_listenComplete path (h.coherent e he) h.writes
  | addEventRegistration path => exact ⟨_, _, rfl, h.addEventRegistration path⟩
  | removeEventRegistration path => exact ⟨_, _, rfl, h.removeEventRegistration path⟩

theorem sound_init : Sound {} :=
  ⟨FWriteTree.sound_init, List.nodup_nil, fun _ he => absurd he List.not_mem_nil,
    fun _ he => absurd he List.not_mem_nil⟩

/-- **In an orderly run the sync tree is sound.** -/
theorem sound_run {tr : List Action} (h : machine.run tr = some s)
    (hQ : machine.EveryStep Orderly tr) : s.Sound := by
  refine Machine.run_induction_from (M := machine) (P := fun _ s => Sound s)
    ?_ ?_ (List.nil_suffix (l := tr)) hQ h
  · intro s hs
    obtain rfl := Option.some.inj hs
    exact sound_init
  · intro tr s a s' _ horderly hsound hstep
    obtain ⟨s₁, told, hact, hs₁, -⟩ := hsound.act horderly
    change (s.act a).map Prod.fst = some s' at hstep
    rw [hact] at hstep
    exact Option.some.inj hstep ▸ hs₁

/-- **No assertion fails**: after an orderly run an orderly action is done,
and the app is told what it did. -/
theorem act_run {tr : List Action} (h : machine.run tr = some s)
    (hQ : machine.EveryStep Orderly tr) {a : Action} (ha : Orderly tr s a) :
    ∃ s' told, s.act a = some (s', told) ∧ machine.run (a :: tr) = some s' ∧
      Reports a s s' told := by
  obtain ⟨s', told, hact, -, hreports⟩ := (sound_run h hQ).act ha
  refine ⟨s', told, hact, Machine.run_cons_eq_some.2 ⟨s, h, ?_⟩, hreports⟩
  change (s.act a).map Prod.fst = some s'
  rw [hact]
  rfl

/-! A name is listened to and written, and then the server sends another. -/

def nameRun : List Action :=
  [.applyServerOverwrite ["name"] (FNode.nodeFrom (.string "old")),
    .applyUserOverwrite ["name"] (FNode.nodeFrom (.string "new")) 0 true,
    .addEventRegistration ["name"]]

theorem exists_nameRun : ∃ s, machine.run nameRun = some s :=
  Option.isSome_iff_exists.1 (by decide +kernel)

theorem orderly_nameRun : machine.EveryStep Orderly nameRun := by
  refine ⟨⟨⟨trivial, fun _ _ => trivial⟩, fun s hs => ?_⟩, fun s hs => ?_⟩
  · obtain rfl := Option.some.inj hs
    refine ⟨rfl, by decide, fun e he r => Or.inl ?_⟩
    obtain rfl := List.mem_singleton.1 he
    exact FNode.leafAt_emptyNode r
  · obtain rfl := Option.some.inj hs
    refine fun r => Or.inr fun w hw => ?_
    obtain rfl := List.mem_singleton.1 hw
    rintro ⟨hp, hne⟩
    exact hne (hp.eq_of_length_le (by rw [List.length_append]; exact Nat.le_add_right _ _))

theorem act_run_name :
    ∃ s, machine.run nameRun.tail = some s ∧ ∃ s' told,
      s.act (.applyServerOverwrite ["name"] (FNode.nodeFrom (.string "old"))) = some (s', told) ∧
        machine.run nameRun = some s' ∧
        Reports (.applyServerOverwrite ["name"] (FNode.nodeFrom (.string "old"))) s s' told := by
  obtain ⟨s', hs'⟩ := exists_nameRun
  obtain ⟨s, hs, -⟩ := Machine.run_cons_eq_some.1 hs'
  exact ⟨s, hs, act_run hs orderly_nameRun.1 (orderly_nameRun.2 s hs)⟩

end FSyncTree

end DevicesTracker
