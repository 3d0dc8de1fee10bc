import DevicesTracker.Firebase.PendingWrites
import DevicesTracker.Firebase.Repo
import DevicesTracker.Firebase.Responses
/-!
# Firebase — the books of a repo

Every write a repo has numbered is in one of three places: its completion
block was called, or its answer waits, or its put is outstanding; and those
not called yet are in the tree of pending writes. `Books` says so, with a list
of completion blocks that are just being called. Each event keeps the books of
a sound connection, or a listen is made twice, or writes are purged while an
answer waits.
-/

namespace DevicesTracker

namespace FRepo

variable {repo repo' : FRepo} {acks : List (ℤ × String)} {issued : List Request}

/-- The answers that were not given, those being given included. -/
def waiting (repo : FRepo) (acks : List (ℤ × String)) : List (ℤ × String) :=
  acks ++ repo.connection.putsToAck

/-- The ids of the outstanding puts. -/
def outstanding (repo : FRepo) : List ℤ :=
  repo.connection.outstandingPuts.map fun e => e.2.writeId

/-- The ids of the pending writes. -/
def pending (repo : FRepo) : List ℤ := repo.pendingWriteTree.allWrites.map FWriteRecord.writeId

/-- The ids of so many writes. -/
def ids (n : ℕ) : List ℤ := (List.range n).map Nat.cast

/-- **The books**: `issued` are the requests of the writes by their ids, and
`acks` the completion blocks being called. -/
structure Books (repo : FRepo) (acks : List (ℤ × String)) (issued : List Request) : Prop where
  sound : repo.connection.Sound 0
  counter : repo.writeIdCounter = issued.length
  /-- Every write is called, or waits, or is outstanding, and only once. -/
  accounted : ((repo.completions ++ repo.waiting acks).map Prod.fst ++ repo.outstanding).Perm
    (ids issued.length)
  requests : ∀ e ∈ repo.connection.outstandingPuts,
    issued[e.2.writeId.toNat]? = some e.2.request
  nodup_pending : repo.pending.Nodup
  lt_counter : ∀ r ∈ repo.pendingWriteTree.allWrites, r.writeId < repo.writeIdCounter
  lastWriteId_lt : repo.pendingWriteTree.lastWriteId < repo.writeIdCounter
  /-- What is to be taken out of the tree is there. -/
  outstanding_pending : ∀ id ∈ repo.outstanding, id ∈ repo.pending
  waiting_pending : ∀ a ∈ repo.waiting acks, a.2 ≠ writeCanceled → a.1 ∈ repo.pending
  /-- And what is there is to be taken out, or its answer was a cancellation. -/
  pending_only : ∀ id ∈ repo.pending, id ∈ repo.outstanding ∨
    id ∈ (repo.waiting acks).map Prod.fst ∨ (id, writeCanceled) ∈ repo.completions

theorem mem_ids {n : ℕ} {id : ℤ} : id ∈ ids n ↔ 0 ≤ id ∧ id < n := by
  rw [ids, List.mem_map]
  constructor
  · rintro ⟨k, hk, rfl⟩
    rw [List.mem_range] at hk
    exact ⟨Int.natCast_nonneg k, Int.ofNat_lt.2 hk⟩
  · rintro ⟨hpos, hlt⟩
    obtain ⟨k, rfl⟩ := Int.eq_ofNat_of_zero_le hpos
    exact ⟨k, List.mem_range.2 (Int.ofNat_lt.1 hlt), rfl⟩

theorem nodup_ids (n : ℕ) : (ids n).Nodup :=
  List.nodup_range.map Nat.cast_injective

theorem ids_succ (n : ℕ) : ids (n + 1) = ids n ++ [(n : ℤ)] := by
  rw [ids, List.range_succ, List.map_append]
  rfl

/-! ## Calling completion blocks -/

/-- **A completion block finds its write in the tree.** -/
theorem Books.ackWrite {a : ℤ × String} (h : repo.Books (a :: acks) issued) :
    ∃ repo', repo.ackWrite a = some repo' ∧ repo'.Books acks issued ∧
      repo'.connection = repo.connection ∧ repo'.completions = repo.completions ++ [a] := by
  have haccounted : ((repo.completions ++ [a] ++ repo.waiting acks).map Prod.fst ++
      repo.outstanding).Perm (ids issued.length) := by
    rw [← List.append_cons]
    exact h.accounted
  have hnodup := h.accounted.nodup_iff.2 (nodup_ids _)
  have honly : ∀ id ∈ repo.pending, id ∈ repo.outstanding ∨ id = a.1 ∨
      id ∈ (repo.waiting acks).map Prod.fst ∨ (id, writeCanceled) ∈ repo.completions := by
    intro id hid
    rcases h.pending_only id hid with hout | hwait | hcanceled
    · exact .inl hout
    · exact .inr ((List.mem_cons.1 hwait).imp_right .inl)
    · exact .inr (.inr (.inr hcanceled))
  rw [FRepo.ackWrite]
  by_cases hcanceled : a.2 = writeCanceled
  · rw [if_pos hcanceled]
    refine ⟨_, rfl, ⟨h.sound, h.counter, haccounted, h.requests, h.nodup_pending, h.lt_counter,
      h.lastWriteId_lt, h.outstanding_pending,
      fun b hb => h.waiting_pending b (List.mem_cons_of_mem a hb), fun id hid => ?_⟩, rfl, rfl⟩
    rcases honly id hid with hout | rfl | hwait | hdone
    · exact .inl hout
    · exact .inr (.inr (List.mem_append_right _ (List.mem_singleton.2 (hcanceled ▸ rfl))))
    · exact .inr (.inl hwait)
    · exact .inr (.inr (List.mem_append_left _ hdone))
  · rw [if_neg hcanceled]
    have hmem : a.1 ∈ repo.pending := h.waiting_pending a List.mem_cons_self hcanceled
    have hbound : 0 ≤ repo.writeIdCounter := h.counter ▸ Int.natCast_nonneg _
    obtain ⟨tree, removed, htree, hall, hlast⟩ := FWriteTree.removeWriteId_allWrites
      h.nodup_pending hmem hbound h.lt_counter h.lastWriteId_lt
    have hpending : tree.allWrites.map FWriteRecord.writeId =
        repo.pending.filter fun id => id ≠ a.1 := by
      rw [hall, pending, List.filter_map]
      rfl
    -- no other write has the id
    have hne : a.1 ∉ (repo.waiting acks).map Prod.fst ∧ a.1 ∉ repo.outstanding := by
      rw [List.map_append, List.append_assoc, List.nodup_append'] at hnodup
      have hrest : a.1 ∉ (repo.waiting acks).map Prod.fst ++ repo.outstanding :=
        (List.nodup_cons.1 hnodup.2.1).1
      rwa [List.mem_append, not_or] at hrest
    refine ⟨_, Option.map_eq_some_iff.2 ⟨(tree, removed), htree, rfl⟩, ⟨h.sound, h.counter, haccounted, h.requests, ?_,
      fun r hr => ?_, hlast, fun id hid => ?_, fun b hb hb' => ?_, fun id hid => ?_⟩, rfl, rfl⟩
    · rw [pending, hpending]
      exact h.nodup_pending.filter _
    · dsimp only at hr
      rw [hall] at hr
      exact h.lt_counter r (List.mem_filter.1 hr).1
    · rw [pending, hpending]
      refine List.mem_filter.2 ⟨h.outstanding_pending id hid, decide_eq_true ?_⟩
      rintro rfl
      exact hne.2 hid
    · rw [pending, hpending]
      refine List.mem_filter.2 ⟨h.waiting_pending b (List.mem_cons_of_mem a hb) hb',
        decide_eq_true ?_⟩
      intro heq
      exact hne.1 (heq ▸ List.mem_map_of_mem hb)
    · rw [pending, hpending, List.mem_filter, decide_eq_true_iff] at hid
      rcases honly id hid.1 with hout | heq | hwait | hdone
      · exact .inl hout
      · exact absurd heq hid.2
      · exact .inr (.inl hwait)
      · exact .inr (.inr (List.mem_append_left _ hdone))

/-- **And one after another.** -/
theorem Books.foldlM_ackWrite (h : repo.Books acks issued) :
    ∃ repo', acks.foldlM FRepo.ackWrite repo = some repo' ∧ repo'.Books [] issued ∧
      repo'.connection = repo.connection ∧ repo'.completions = repo.completions ++ acks := by
  induction acks generalizing repo with
  | nil => exact ⟨repo, rfl, h, rfl, (List.append_nil _).symm⟩
  | cons a acks ih =>
    obtain ⟨repo₁, hrepo₁, hbooks₁, hconnection₁, hcompletions₁⟩ := h.ackWrite
    obtain ⟨repo₂, hrepo₂, hbooks₂, hconnection₂, hcompletions₂⟩ := ih hbooks₁
    refine ⟨repo₂, ?_, hbooks₂, hconnection₂.trans hconnection₁, ?_⟩
    · rw [List.foldlM_cons, hrepo₁]
      exact hrepo₂
    · rw [hcompletions₂, hcompletions₁, ← List.append_cons]

/-- **A completion block of a write that is not pending fails.** -/
theorem foldlM_ackWrite_eq_none (hpending : repo.pendingWriteTree.allWrites = [])
    (hacks : ∃ a ∈ acks, a.2 ≠ writeCanceled) : acks.foldlM FRepo.ackWrite repo = none := by
  induction acks generalizing repo with
  | nil =>
    obtain ⟨a, ha, -⟩ := hacks
    exact absurd ha List.not_mem_nil
  | cons a acks ih =>
    rw [List.foldlM_cons, FRepo.ackWrite]
    by_cases hcanceled : a.2 = writeCanceled
    · rw [if_pos hcanceled]
      refine ih hpending ?_
      obtain ⟨b, hb, hne⟩ := hacks
      rcases List.mem_cons.1 hb with rfl | hb
      exacts [absurd hcanceled hne, ⟨b, hb, hne⟩]
    · have hnone : repo.pendingWriteTree.removeWriteId a.1 = none := by
        rw [FWriteTree.removeWriteId, hpending]
        rfl
      rw [if_neg hcanceled, hnone]
      rfl

end FRepo

end DevicesTracker
