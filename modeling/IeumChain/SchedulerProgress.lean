import IeumChain.SnapshotScheduler

/-!
# Progress of a snapshot download

An assignment stops at the first chunk of the queue that finds no peer. The chunk moves to the
back, but what waits behind it gets nothing in this call.
-/
namespace IeumChain

open MachineWords FiniteMap

namespace SnapshotScheduler

variable {s : SnapshotScheduler} {chunk now : ℕ}

/-- Some peer may still try the chunk. -/
def Available (s : SnapshotScheduler) (chunk : ℕ) : Prop :=
  ∃ peer ∈ s.peers, s.failuresOf peer chunk < s.maxPeerRetries

/-- A peer whose turn comes within one round of the cursor may still try the chunk. -/
def Served (s : SnapshotScheduler) (chunk : ℕ) : Prop :=
  ∃ i < s.peers.length,
    s.failuresOf (s.peerAt ((s.cursor + i) % (u64Max + 1))) chunk < s.maxPeerRetries

theorem nextPeer_ne_none_iff : (s.nextPeer chunk).2 ≠ none ↔ s.Served chunk := by
  obtain ⟨-, -, hnone⟩ := nextPeerLoop_spec chunk s.peers.length s
  rw [Ne, nextPeer, hnone, Served]
  push Not
  rfl

/-- The positions of one round are all positions. -/
theorem exists_turn {n j : ℕ} (hj : j < n) (cursor : ℕ) : ∃ i < n, (cursor + i) % n = j := by
  have hr : cursor % n < n := Nat.mod_lt _ (by omega)
  refine ⟨(j + n - cursor % n) % n, Nat.mod_lt _ (by omega), ?_⟩
  rw [Nat.add_mod_mod]
  have hsplit : cursor + (j + n - cursor % n) = j + n * (cursor / n + 1) := by
    have hdiv := Nat.div_add_mod cursor n
    rw [Nat.mul_succ]
    omega
  rw [hsplit, Nat.add_mul_mod_self_left, Nat.mod_eq_of_lt hj]

/-- As long as the cursor does not wrap within the round, every peer has its turn. -/
theorem served_iff (h : s.cursor + s.peers.length ≤ u64Max + 1) :
    s.Served chunk ↔ s.Available chunk := by
  constructor
  · rintro ⟨i, -, htry⟩
    exact ⟨_, s.peerAt_mem _, htry⟩
  · rintro ⟨peer, hpeer, htry⟩
    obtain ⟨j, hj, rfl⟩ := List.getElem_of_mem hpeer
    obtain ⟨i, hi, hturn⟩ := exists_turn hj s.cursor
    refine ⟨i, hi, ?_⟩
    have hpeer : s.peerAt ((s.cursor + i) % (u64Max + 1)) = s.peers[j] := by
      rw [Nat.mod_eq_of_lt (by omega), peerAt]
      simp only [hturn, List.get_eq_getElem]
    rwa [hpeer]

/-- The loop hands something out exactly if there is room and the first chunk of the queue is
served. -/
theorem assignLoop_ne_nil_iff {pending : List ℕ} :
    (assignLoop now pending s).2 ≠ [] ↔
      s.inFlight.keys.length < s.maxInFlight ∧ ∃ c, pending.head? = some c ∧ s.Served c := by
  cases pending with
  | nil => simp [assignLoop]
  | cons chunk rest =>
      have hserved : (s.nextPeer chunk).2 ≠ none ↔ _ := nextPeer_ne_none_iff
      rw [assignLoop]
      split_ifs with hroom
      · rcases hnext : s.nextPeer chunk with ⟨s', found⟩
        rw [hnext] at hserved
        cases found with
        | none =>
            have hnot : ¬s.Served chunk := fun h => hserved.2 h rfl
            simp [hnot]
        | some peer =>
            have hyes : s.Served chunk := hserved.1 (Option.some_ne_none _)
            simp [hroom, hyes]
      · simp [hroom]

/-- With the late chunks back in the queue: something can be handed out, and the first chunk of
the queue is not served. -/
def Blocked (s : SnapshotScheduler) : Prop :=
  s.inFlight.keys.length < s.maxInFlight ∧ (∃ c ∈ s.pending, s.Available c) ∧
    ∀ c, s.pending.head? = some c → ¬s.Served c

/-- Where something can be handed out an assignment does it, unless the first chunk of the queue
blocks the others. -/
theorem assign_progress_iff (s : SnapshotScheduler) (now : ℕ) :
    ((s.requeueTimedOut now).inFlight.keys.length < (s.requeueTimedOut now).maxInFlight →
      (∃ c ∈ (s.requeueTimedOut now).pending, (s.requeueTimedOut now).Available c) →
        (s.assign now).2 ≠ []) ↔ ¬(s.requeueTimedOut now).Blocked := by
  rw [assign, assignLoop_ne_nil_iff, Blocked]
  constructor
  · rintro h ⟨hroom, havailable, hhead⟩
    obtain ⟨-, c, hc, hserved⟩ := h hroom havailable
    exact hhead c hc hserved
  · intro h hroom havailable
    by_contra hnone
    exact h ⟨hroom, havailable, fun c hc hserved => hnone ⟨hroom, c, hc, hserved⟩⟩

end SnapshotScheduler

/-! Chunk 0 has been failed by both peers, and chunk 1 waits behind it. -/

namespace TwoPeers

open Download

def exhausted : Download :=
  ((((Download.assign ⟨scheduler, ∅, [], 0⟩ 0).fail "peer-a" 0).assign 1).fail "peer-b" 0).fail
    "peer-b" 1

theorem reached_exhausted : Reached [0, 1] exhausted :=
  .fail (.fail (.assign (.fail (.assign (.start new_scheduler 0) (by decide)) _ _) (by decide))
    _ _) _ _

/-- Nothing is in flight, the second chunk has a peer left, and nothing is handed out. -/
theorem second_chunk_waits : Reached [0, 1] exhausted ∧
    (exhausted.scheduler.requeueTimedOut 2).inFlight.keys = [] ∧
    1 ∈ (exhausted.scheduler.requeueTimedOut 2).pending ∧
    (exhausted.scheduler.requeueTimedOut 2).Available 1 ∧
    (exhausted.scheduler.assign 2).2 = [] := by
  refine ⟨reached_exhausted, ?_, ?_, ⟨"peer-a", ?_, ?_⟩, ?_⟩
  all_goals decide

end TwoPeers

end IeumChain
