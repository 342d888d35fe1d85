import IeumChain.Library.FiniteMap
import IeumChain.Library.MachineWords

/-!
# The scheduler of a snapshot download

Missing chunks wait in a queue, are handed to peers in turn, and come back when a peer fails or
takes too long. Each peer may fail a chunk a limited number of times.
-/
namespace IeumChain

open MachineWords FiniteMap

structure ChunkAssignment where
  peerId : String
  chunkIndex : ℕ
  deriving Repr, DecidableEq

structure InFlight where
  peerId : String
  started : ℕ
  deriving Repr, DecidableEq

/-- Times and the timeout count in one unit. The last fields are what `new` has checked, and the
bound of the cursor, which wraps. -/
structure SnapshotScheduler where
  pending : List ℕ
  peers : List String
  inFlight : HashMap ℕ InFlight
  failures : HashMap (String × ℕ) ℕ
  cursor : ℕ
  timeout : ℕ
  maxInFlight : ℕ
  maxPeerRetries : ℕ
  two_peers : 2 ≤ peers.length
  inFlight_pos : 0 < maxInFlight
  retries_pos : 0 < maxPeerRetries
  cursor_le : cursor ≤ u64Max

namespace SnapshotScheduler

def new (missing : List ℕ) (peers : List String) (timeout maxInFlight maxPeerRetries : ℕ) :
    Except String SnapshotScheduler :=
  if h : peers.length < 2 ∨ maxInFlight = 0 ∨ maxPeerRetries = 0 then
    .error "snapshot 병렬 다운로드는 피어 2개 이상과 양수 제한값이 필요합니다."
  else
    .ok { pending := missing, peers, inFlight := ∅, failures := ∅, cursor := 0, timeout
          maxInFlight, maxPeerRetries, two_peers := by omega, inFlight_pos := by omega
          retries_pos := by omega, cursor_le := Nat.zero_le _ }

/-- The peer at a position of the cursor. -/
def peerAt (s : SnapshotScheduler) (cursor : ℕ) : String :=
  s.peers.get ⟨cursor % s.peers.length, Nat.mod_lt _ (by have := s.two_peers; omega)⟩

/-- How often a peer has failed a chunk. -/
def failuresOf (s : SnapshotScheduler) (peer : String) (chunk : ℕ) : ℕ :=
  getD s.failures (peer, chunk) 0

def advanceCursor (s : SnapshotScheduler) : SnapshotScheduler :=
  { s with
    cursor := wrappingAdd u64Max s.cursor 1
    cursor_le := Nat.le_of_lt_succ (Nat.mod_lt _ (Nat.succ_pos _)) }

/-- The next peer, in at most so many turns of the cursor. -/
def nextPeerLoop (chunk : ℕ) : ℕ → SnapshotScheduler → SnapshotScheduler × Option String
  | 0, s => (s, none)
  | turns + 1, s =>
      let peer := s.peerAt s.cursor
      if s.failuresOf peer chunk < s.maxPeerRetries then (s.advanceCursor, some peer)
      else nextPeerLoop chunk turns s.advanceCursor

def nextPeer (s : SnapshotScheduler) (chunk : ℕ) : SnapshotScheduler × Option String :=
  nextPeerLoop chunk s.peers.length s

/-- Hands out the chunks of the queue, from the front. A chunk without a peer goes to the back and
ends the loop. -/
def assignLoop (now : ℕ) : List ℕ → SnapshotScheduler → SnapshotScheduler × List ChunkAssignment
  | [], s => ({ s with pending := [] }, [])
  | chunk :: rest, s =>
      if s.inFlight.keys.length < s.maxInFlight then
        match s.nextPeer chunk with
        | (s, none) => ({ s with pending := rest ++ [chunk] }, [])
        | (s, some peer) =>
            let (s, assigned) := assignLoop now rest
              { s with inFlight := s.inFlight.insert chunk { peerId := peer, started := now } }
            (s, { peerId := peer, chunkIndex := chunk } :: assigned)
      else ({ s with pending := chunk :: rest }, [])

/-- A failure of the peer that has the chunk; of any other one nothing is known. -/
def fail (s : SnapshotScheduler) (peer : String) (chunk : ℕ) : SnapshotScheduler :=
  match s.inFlight.lookup chunk with
  | some flight =>
      if flight.peerId = peer then
        { s with
          inFlight := s.inFlight.erase chunk
          failures := s.failures.insert (peer, chunk) (s.failuresOf peer chunk + 1)
          pending := s.pending ++ [chunk] }
      else s
  | none => s

def complete (s : SnapshotScheduler) (peer : String) (chunk : ℕ) :
    SnapshotScheduler × Except String Unit :=
  match s.inFlight.lookup chunk with
  | some flight =>
      if flight.peerId = peer then ({ s with inFlight := s.inFlight.erase chunk }, .ok ())
      else (s, .error "현재 할당과 다른 snapshot chunk 응답입니다.")
  | none => (s, .error "현재 할당과 다른 snapshot chunk 응답입니다.")

def isDone (s : SnapshotScheduler) : Bool := s.pending.isEmpty && s.inFlight.entries.isEmpty

/-- The chunks that have been in flight for too long, with their peers. -/
def timedOut (s : SnapshotScheduler) (now : ℕ) : List (String × ℕ) :=
  (s.inFlight.entries.filter fun e => s.timeout ≤ now - e.2.started).map
    fun e => (e.2.peerId, e.1)

def requeueTimedOut (s : SnapshotScheduler) (now : ℕ) : SnapshotScheduler :=
  (s.timedOut now).foldl (fun s e => s.fail e.1 e.2) s

def assign (s : SnapshotScheduler) (now : ℕ) : SnapshotScheduler × List ChunkAssignment :=
  let s := s.requeueTimedOut now
  assignLoop now s.pending s

/-- Whether a peer has a chunk at present. -/
def Has (s : SnapshotScheduler) (peer : String) (chunk : ℕ) : Prop :=
  ∃ flight, s.inFlight.lookup chunk = some flight ∧ flight.peerId = peer

instance (s : SnapshotScheduler) (peer : String) (chunk : ℕ) : Decidable (s.Has peer chunk) :=
  inferInstanceAs (Decidable (∃ flight, s.inFlight.lookup chunk = some flight ∧ _))

variable {s : SnapshotScheduler} {peer : String} {chunk : ℕ}

theorem fail_of_has (h : s.Has peer chunk) : s.fail peer chunk =
    { s with
      inFlight := s.inFlight.erase chunk
      failures := s.failures.insert (peer, chunk) (s.failuresOf peer chunk + 1)
      pending := s.pending ++ [chunk] } := by
  obtain ⟨flight, hflight, hpeer⟩ := h
  simp only [fail, hflight, if_pos hpeer]

theorem fail_of_not_has (h : ¬s.Has peer chunk) : s.fail peer chunk = s := by
  unfold fail
  split
  case h_1 flight hflight => exact if_neg fun hpeer => h ⟨flight, hflight, hpeer⟩
  case h_2 => rfl

theorem complete_of_has (h : s.Has peer chunk) : s.complete peer chunk =
    ({ s with inFlight := s.inFlight.erase chunk }, .ok ()) := by
  obtain ⟨flight, hflight, hpeer⟩ := h
  simp only [complete, hflight, if_pos hpeer]

theorem complete_of_not_has (h : ¬s.Has peer chunk) : s.complete peer chunk =
    (s, .error "현재 할당과 다른 snapshot chunk 응답입니다.") := by
  unfold complete
  split
  case h_1 flight hflight => exact if_neg fun hpeer => h ⟨flight, hflight, hpeer⟩
  case h_2 => rfl

theorem peerAt_mem (s : SnapshotScheduler) (cursor : ℕ) : s.peerAt cursor ∈ s.peers :=
  List.get_mem _ _

/-- The turns of the cursor change nothing else. A peer that is found has a try left, and where
none is found all those in turn have none. -/
theorem nextPeerLoop_spec (chunk turns : ℕ) (s : SnapshotScheduler) :
    (∃ cursor h, (nextPeerLoop chunk turns s).1 = { s with cursor := cursor, cursor_le := h }) ∧
    (∀ peer, (nextPeerLoop chunk turns s).2 = some peer →
      peer ∈ s.peers ∧ s.failuresOf peer chunk < s.maxPeerRetries) ∧
    ((nextPeerLoop chunk turns s).2 = none ↔ ∀ i < turns, s.maxPeerRetries ≤
      s.failuresOf (s.peerAt ((s.cursor + i) % (u64Max + 1))) chunk) := by
  induction turns generalizing s with
  | zero =>
      refine ⟨⟨s.cursor, s.cursor_le, rfl⟩, nofun, fun _ i hi => ?_, fun _ => rfl⟩
      exact absurd hi (Nat.not_lt_zero i)
  | succ turns ih =>
      have hcursor : s.cursor % (u64Max + 1) = s.cursor :=
        Nat.mod_eq_of_lt (Nat.lt_succ_of_le s.cursor_le)
      rw [nextPeerLoop]
      split_ifs with htry
      · refine ⟨⟨_, s.advanceCursor.cursor_le, rfl⟩, ?_, ?_⟩
        · intro peer hpeer
          cases hpeer
          exact ⟨s.peerAt_mem _, htry⟩
        · refine ⟨nofun, fun hall => ?_⟩
          have hfirst := hall 0 (Nat.succ_pos _)
          rw [Nat.add_zero, hcursor] at hfirst
          omega
      · obtain ⟨⟨cursor, hle, heq⟩, hfound, hnone⟩ := ih s.advanceCursor
        refine ⟨⟨cursor, hle, heq⟩, hfound, hnone.trans ?_⟩
        have hstep : ∀ i, (s.advanceCursor.cursor + i) % (u64Max + 1) =
            (s.cursor + (i + 1)) % (u64Max + 1) := by
          intro i
          change ((s.cursor + 1) % (u64Max + 1) + i) % (u64Max + 1) = _
          rw [Nat.mod_add_mod, Nat.add_right_comm, Nat.add_assoc]
        constructor
        · intro hall i hi
          cases i with
          | zero =>
              rw [Nat.add_zero, hcursor]
              exact Nat.le_of_not_lt htry
          | succ i =>
              rw [← hstep]
              exact hall i (Nat.lt_of_succ_lt_succ hi)
        · intro hall i hi
          rw [hstep]
          exact hall (i + 1) (Nat.succ_lt_succ hi)

end SnapshotScheduler

/-! ## Downloads -/

/-- A scheduler with what has happened so far: the completed chunks, the failures that were
charged to a peer, and the time of the last assignment. -/
structure Download where
  scheduler : SnapshotScheduler
  completed : Finset ℕ
  failed : List (String × ℕ)
  clock : ℕ

namespace Download

open SnapshotScheduler

def fail (d : Download) (peer : String) (chunk : ℕ) : Download :=
  { d with
    scheduler := d.scheduler.fail peer chunk
    failed := if d.scheduler.Has peer chunk then (peer, chunk) :: d.failed else d.failed }

def complete (d : Download) (peer : String) (chunk : ℕ) : Download :=
  { d with
    scheduler := (d.scheduler.complete peer chunk).1
    completed := if (d.scheduler.complete peer chunk).2 = .ok () then insert chunk d.completed
      else d.completed }

/-- Takes back the chunks that have been in flight for too long. -/
def requeue (d : Download) (now : ℕ) : Download :=
  (d.scheduler.timedOut now).foldl (fun d e => d.fail e.1 e.2) d

def assign (d : Download) (now : ℕ) : Download :=
  { d.requeue now with scheduler := (d.scheduler.assign now).1, clock := now }

/-- The states of a download. The map of the chunks in flight may be listed in another order at
any time. -/
inductive Reached (missing : List ℕ) : Download → Prop
  | start {peers : List String} {timeout maxInFlight maxPeerRetries : ℕ} {s : SnapshotScheduler}
      (hnew : SnapshotScheduler.new missing peers timeout maxInFlight maxPeerRetries = .ok s)
      (clock : ℕ) : Reached missing ⟨s, ∅, [], clock⟩
  | assign {d : Download} (h : Reached missing d) {now : ℕ} (hnow : d.clock ≤ now) :
      Reached missing (d.assign now)
  | complete {d : Download} (h : Reached missing d) (peer : String) (chunk : ℕ) :
      Reached missing (d.complete peer chunk)
  | fail {d : Download} (h : Reached missing d) (peer : String) (chunk : ℕ) :
      Reached missing (d.fail peer chunk)
  | rehash {d : Download} (h : Reached missing d) {inFlight : HashMap ℕ InFlight}
      (hperm : inFlight.entries.Perm d.scheduler.inFlight.entries) :
      Reached missing { d with scheduler := { d.scheduler with inFlight := inFlight } }

/-- The missing chunks are those that wait, those in flight and the completed ones, without
overlap, and failures are counted as they were charged. -/
structure Parts (missing pending : List ℕ) (d : Download) : Prop where
  nodup : pending.Nodup
  waiting : ∀ c ∈ pending, c ∉ d.scheduler.inFlight ∧ c ∉ d.completed
  flying : ∀ c ∈ d.scheduler.inFlight, c ∉ d.completed
  all : ∀ c, c ∈ missing ↔ c ∈ pending ∨ c ∈ d.scheduler.inFlight ∨ c ∈ d.completed
  bounded : d.scheduler.inFlight.keys.length ≤ d.scheduler.maxInFlight
  counted : ∀ peer chunk, d.scheduler.failuresOf peer chunk = d.failed.count (peer, chunk)
  limited : ∀ peer chunk, d.scheduler.failuresOf peer chunk ≤ d.scheduler.maxPeerRetries
  tried : ∀ peer chunk, d.scheduler.Has peer chunk →
    d.scheduler.failuresOf peer chunk < d.scheduler.maxPeerRetries

abbrev Sound (missing : List ℕ) (d : Download) : Prop := Parts missing d.scheduler.pending d

variable {missing pending : List ℕ} {d : Download} {peer : String} {chunk now : ℕ}

theorem mem_of_has {s : SnapshotScheduler} (h : s.Has peer chunk) : chunk ∈ s.inFlight := by
  obtain ⟨flight, hflight, -⟩ := h
  exact AList.lookup_isSome.1 (by rw [hflight]; rfl)

theorem has_erase {s : SnapshotScheduler} {p : String} {c : ℕ}
    (h : ({ s with inFlight := s.inFlight.erase chunk } : SnapshotScheduler).Has p c) :
    c ≠ chunk ∧ s.Has p c := by
  have hmem := AList.mem_erase.1 (mem_of_has h)
  obtain ⟨flight, hflight, hp⟩ := h
  rw [AList.lookup_erase_ne hmem.1] at hflight
  exact ⟨hmem.1, flight, hflight, hp⟩

theorem Sound.fail (h : Sound missing d) (peer : String) (chunk : ℕ) :
    Sound missing (d.fail peer chunk) := by
  by_cases hhas : d.scheduler.Has peer chunk
  · have hmem := mem_of_has hhas
    have hpeer := h.tried peer chunk hhas
    have hcount : ∀ p c, getD (d.scheduler.failures.insert (peer, chunk)
        (d.scheduler.failuresOf peer chunk + 1)) (p, c) 0 =
          d.scheduler.failuresOf p c + if (peer, chunk) = (p, c) then 1 else 0 := by
      intro p c
      split_ifs with heq
      · cases heq
        exact getD_insert_self _ _ _ _
      · exact getD_insert_ne _ (Ne.symm heq) _ _
    simp only [Sound, Download.fail, if_pos hhas, fail_of_has hhas]
    refine ⟨?_, ?_, ?_, ?_, ?_, ?_, ?_, ?_⟩
    · rw [List.nodup_append_comm, List.singleton_append, List.nodup_cons]
      exact ⟨fun hwaits => (h.waiting chunk hwaits).1 hmem, h.nodup⟩
    · intro c hc
      rcases List.mem_append.1 hc with hold | hnew
      · exact ⟨fun hflies => (h.waiting c hold).1 (AList.mem_erase.1 hflies).2, (h.waiting c hold).2⟩
      · rw [List.mem_singleton.1 hnew]
        exact ⟨fun hflies => (AList.mem_erase.1 hflies).1 rfl, h.flying chunk hmem⟩
    · exact fun c hc => h.flying c (AList.mem_erase.1 hc).2
    · intro c
      rw [h.all c, List.mem_append, List.mem_singleton, AList.mem_erase]
      by_cases hc : c = chunk
      · simp [hc, hmem]
      · simp [hc]
    · exact (length_keys_erase hmem).le.trans ((Nat.sub_le _ _).trans h.bounded)
    · intro p c
      rw [failuresOf, hcount, h.counted, List.count_cons]
      simp
    · intro p c
      rw [failuresOf, hcount]
      split_ifs with heq
      · cases heq
        exact hpeer
      · exact h.limited p c
    · intro p c hp
      obtain ⟨hne, hold⟩ := has_erase hp
      rw [failuresOf, hcount, if_neg fun heq => hne (Prod.mk.inj heq).2.symm]
      exact h.tried p c hold
  · simp only [Sound, Download.fail, if_neg hhas, fail_of_not_has hhas]
    exact h

theorem Sound.complete (h : Sound missing d) (peer : String) (chunk : ℕ) :
    Sound missing (d.complete peer chunk) := by
  by_cases hhas : d.scheduler.Has peer chunk
  · have hmem := mem_of_has hhas
    simp only [Sound, Download.complete, complete_of_has hhas, if_true]
    refine ⟨h.nodup, ?_, ?_, ?_, ?_, h.counted, h.limited, ?_⟩
    · intro c hc
      have hne : c ≠ chunk := by
        rintro rfl
        exact (h.waiting c hc).1 hmem
      exact ⟨fun hflies => (h.waiting c hc).1 (AList.mem_erase.1 hflies).2,
        fun hdone => (h.waiting c hc).2 ((Finset.mem_insert.1 hdone).resolve_left hne)⟩
    · intro c hc
      obtain ⟨hne, hflies⟩ := AList.mem_erase.1 hc
      exact fun hdone => h.flying c hflies ((Finset.mem_insert.1 hdone).resolve_left hne)
    · intro c
      rw [h.all c, AList.mem_erase, Finset.mem_insert]
      by_cases hc : c = chunk
      · simp [hc, hmem]
      · simp [hc]
    · exact (length_keys_erase hmem).le.trans ((Nat.sub_le _ _).trans h.bounded)
    · intro p c hp
      exact h.tried p c (has_erase hp).2
  · have hrefused : (d.scheduler.complete peer chunk).2 ≠ .ok () := by
      rw [complete_of_not_has hhas]
      exact nofun
    simp only [Sound, Download.complete, if_neg hrefused]
    rw [complete_of_not_has hhas]
    exact h

theorem Sound.requeue (h : Sound missing d) (now : ℕ) : Sound missing (d.requeue now) := by
  rw [Download.requeue]
  generalize d.scheduler.timedOut now = late
  induction late generalizing d with
  | nil => exact h
  | cons e rest ih => exact ih (h.fail e.1 e.2)

theorem scheduler_requeue (d : Download) (now : ℕ) :
    (d.requeue now).scheduler = d.scheduler.requeueTimedOut now :=
  (List.foldl_hom Download.scheduler fun _ _ => rfl).symm

/-- The queue and the cursor have no part in the other fields. -/
theorem Parts.turned (h : Parts missing pending d) {cursor : ℕ} (hle : cursor ≤ u64Max) :
    Parts missing pending
      { d with scheduler := { d.scheduler with cursor := cursor, cursor_le := hle } } :=
  ⟨h.nodup, h.waiting, h.flying, h.all, h.bounded, h.counted, h.limited, h.tried⟩

theorem Parts.queued (h : Parts missing pending d) :
    Sound missing { d with scheduler := { d.scheduler with pending := pending } } :=
  ⟨h.nodup, h.waiting, h.flying, h.all, h.bounded, h.counted, h.limited, h.tried⟩

theorem Parts.perm (h : Parts missing pending d) {pending' : List ℕ} (hperm : pending'.Perm pending) :
    Parts missing pending' d :=
  ⟨hperm.nodup_iff.2 h.nodup, fun c hc => h.waiting c (hperm.mem_iff.1 hc), h.flying,
    fun c => by rw [hperm.mem_iff, h.all c], h.bounded, h.counted, h.limited, h.tried⟩

/-- A chunk at the head of the queue goes to a peer that may still try it. -/
theorem Parts.take (now : ℕ) {rest : List ℕ} (h : Parts missing (chunk :: rest) d)
    (hroom : d.scheduler.inFlight.keys.length < d.scheduler.maxInFlight)
    (hpeer : d.scheduler.failuresOf peer chunk < d.scheduler.maxPeerRetries) :
    Parts missing rest { d with scheduler := { d.scheduler with
      inFlight := d.scheduler.inFlight.insert chunk { peerId := peer, started := now } } } := by
  have hhead := h.waiting chunk List.mem_cons_self
  have hnodup := List.nodup_cons.1 h.nodup
  refine ⟨hnodup.2, ?_, ?_, ?_, ?_, h.counted, h.limited, ?_⟩
  · intro c hc
    have hold := h.waiting c (List.mem_cons_of_mem _ hc)
    refine ⟨fun hflies => ?_, hold.2⟩
    rcases (AList.mem_insert _).1 hflies with rfl | hflies
    · exact hnodup.1 hc
    · exact hold.1 hflies
  · intro c hc
    rcases (AList.mem_insert _).1 hc with rfl | hflies
    · exact hhead.2
    · exact h.flying c hflies
  · intro c
    rw [h.all c, List.mem_cons, AList.mem_insert]
    tauto
  · rw [length_keys_insert, if_neg hhead.1]
    exact hroom
  · rintro p c ⟨flight, hflight, rfl⟩
    by_cases hc : c = chunk
    · subst hc
      rw [AList.lookup_insert] at hflight
      cases hflight
      exact hpeer
    · rw [AList.lookup_insert_ne hc] at hflight
      exact h.tried _ c ⟨flight, hflight, rfl⟩

/-- The loop keeps the chunks together, and what it hands out goes to peers that may try it. -/
theorem Parts.assignLoop (h : Parts missing pending d) (now : ℕ) :
    Sound missing { d with scheduler := (SnapshotScheduler.assignLoop now pending d.scheduler).1 } ∧
      ∀ a ∈ (SnapshotScheduler.assignLoop now pending d.scheduler).2,
        a.chunkIndex ∈ missing ∧ a.peerId ∈ d.scheduler.peers ∧
          d.failed.count (a.peerId, a.chunkIndex) < d.scheduler.maxPeerRetries := by
  induction pending generalizing d with
  | nil => exact ⟨h.queued, fun a ha => absurd ha List.not_mem_nil⟩
  | cons chunk rest ih =>
      rw [SnapshotScheduler.assignLoop]
      split_ifs with hroom
      · obtain ⟨⟨cursor, hle, hsame⟩, hfound, -⟩ :=
          nextPeerLoop_spec chunk d.scheduler.peers.length d.scheduler
        rw [← nextPeer] at hsame hfound
        generalize d.scheduler.nextPeer chunk = next at hsame hfound
        obtain ⟨s, found⟩ := next
        cases hsame
        have hturned := h.turned hle
        cases found with
        | none =>
            have hback := (hturned.perm (List.perm_append_singleton chunk rest)).queued
            exact ⟨hback, fun a ha => absurd ha List.not_mem_nil⟩
        | some peer =>
            obtain ⟨hpeer, htry⟩ := hfound peer rfl
            obtain ⟨hsound, hassigned⟩ := ih (hturned.take now hroom htry)
            refine ⟨hsound, ?_⟩
            intro a ha
            rcases List.mem_cons.1 ha with rfl | hlater
            · refine ⟨(h.all chunk).2 (.inl List.mem_cons_self), hpeer, ?_⟩
              rw [← h.counted]
              exact htry
            · exact hassigned a hlater
      · exact ⟨h.queued, fun a ha => absurd ha List.not_mem_nil⟩

/-- A failure changes neither the peers nor the limits. -/
theorem limits_requeue (d : Download) (now : ℕ) :
    (d.requeue now).scheduler.peers = d.scheduler.peers ∧
      (d.requeue now).scheduler.maxPeerRetries = d.scheduler.maxPeerRetries := by
  rw [requeue]
  generalize d.scheduler.timedOut now = late
  induction late generalizing d with
  | nil => exact ⟨rfl, rfl⟩
  | cons e rest ih =>
      obtain ⟨hpeers, hretries⟩ := ih (d.fail e.1 e.2)
      rw [List.foldl_cons, hpeers, hretries, fail]
      by_cases hhas : d.scheduler.Has e.1 e.2
      · rw [fail_of_has hhas]
        exact ⟨rfl, rfl⟩
      · rw [fail_of_not_has hhas]
        exact ⟨rfl, rfl⟩

theorem Sound.assign (h : Sound missing d) (now : ℕ) : Sound missing (d.assign now) ∧
    ∀ a ∈ (d.scheduler.assign now).2, a.chunkIndex ∈ missing ∧ a.peerId ∈ d.scheduler.peers ∧
      (d.assign now).failed.count (a.peerId, a.chunkIndex) < d.scheduler.maxPeerRetries := by
  obtain ⟨hsound, hassigned⟩ := (h.requeue now).assignLoop now
  obtain ⟨hpeers, hretries⟩ := limits_requeue d now
  rw [hpeers, hretries] at hassigned
  rw [scheduler_requeue] at hsound hassigned
  exact ⟨⟨hsound.nodup, hsound.waiting, hsound.flying, hsound.all, hsound.bounded, hsound.counted,
    hsound.limited, hsound.tried⟩, hassigned⟩

/-- Another listing of the map is the same map. -/
theorem Sound.rehash (h : Sound missing d) {inFlight : HashMap ℕ InFlight}
    (hperm : inFlight.entries.Perm d.scheduler.inFlight.entries) :
    Sound missing { d with scheduler := { d.scheduler with inFlight := inFlight } } := by
  have hmem : ∀ c, c ∈ inFlight ↔ c ∈ d.scheduler.inFlight := fun c => AList.mem_of_perm hperm
  have hlookup : ∀ c, inFlight.lookup c = d.scheduler.inFlight.lookup c := fun c =>
    AList.perm_lookup hperm
  refine ⟨h.nodup, fun c hc => ?_, fun c hc => h.flying c ((hmem c).1 hc), fun c => ?_, ?_,
    h.counted, h.limited, fun peer chunk hhas => ?_⟩
  · exact ⟨fun hflies => (h.waiting c hc).1 ((hmem c).1 hflies), (h.waiting c hc).2⟩
  · rw [h.all c, hmem]
  · exact (hperm.map Sigma.fst).length_eq.le.trans h.bounded
  · obtain ⟨flight, hflight, hpeer⟩ := hhas
    rw [hlookup] at hflight
    exact h.tried peer chunk ⟨flight, hflight, hpeer⟩

theorem Sound.start {peers : List String} {timeout maxInFlight maxPeerRetries : ℕ}
    {s : SnapshotScheduler} (hmissing : missing.Nodup) (clock : ℕ)
    (hnew : SnapshotScheduler.new missing peers timeout maxInFlight maxPeerRetries = .ok s) :
    Sound missing ⟨s, ∅, [], clock⟩ := by
  rw [SnapshotScheduler.new] at hnew
  split_ifs at hnew
  cases hnew
  refine ⟨hmissing, fun c _ => ⟨AList.notMem_empty c, Finset.notMem_empty c⟩, fun c hc => ?_,
    fun c => ?_, Nat.zero_le _, fun _ _ => rfl, fun _ _ => Nat.zero_le _, fun peer chunk hhas => ?_⟩
  · exact absurd hc (AList.notMem_empty c)
  · simp [AList.notMem_empty]
  · exact absurd (mem_of_has hhas) (AList.notMem_empty chunk)

theorem Reached.sound (hmissing : missing.Nodup) (h : Reached missing d) : Sound missing d := by
  induction h with
  | start hnew clock => exact Sound.start hmissing clock hnew
  | assign _ _ ih => exact (ih.assign _).1
  | complete _ peer chunk ih => exact ih.complete peer chunk
  | fail _ peer chunk ih => exact ih.fail peer chunk
  | rehash _ hperm ih => exact ih.rehash hperm

/-- Where the chunks of a download are, and who may get them. -/
structure Accounted (missing : List ℕ) (d : Download) : Prop where
  place : ∀ c ∈ missing,
    (d.scheduler.pending.count c = 1 ∧ c ∉ d.scheduler.inFlight ∧ c ∉ d.completed) ∨
    (c ∉ d.scheduler.pending ∧ c ∈ d.scheduler.inFlight ∧ c ∉ d.completed) ∨
    (c ∉ d.scheduler.pending ∧ c ∉ d.scheduler.inFlight ∧ c ∈ d.completed)
  nowhere : ∀ c ∉ missing,
    c ∉ d.scheduler.pending ∧ c ∉ d.scheduler.inFlight ∧ c ∉ d.completed
  bounded : d.scheduler.inFlight.keys.length ≤ d.scheduler.maxInFlight
  done : d.scheduler.isDone = true ↔ ∀ c ∈ missing, c ∈ d.completed
  assigned : ∀ now, d.clock ≤ now → ∀ a ∈ (d.scheduler.assign now).2,
    a.chunkIndex ∈ missing ∧ a.peerId ∈ d.scheduler.peers ∧
      (d.assign now).failed.count (a.peerId, a.chunkIndex) < d.scheduler.maxPeerRetries

theorem Sound.isDone_iff (h : Sound missing d) :
    d.scheduler.isDone = true ↔ ∀ c ∈ missing, c ∈ d.completed := by
  rw [isDone, Bool.and_eq_true, List.isEmpty_iff, List.isEmpty_iff]
  constructor
  · rintro ⟨hpending, hflight⟩ c hc
    rcases (h.all c).1 hc with hwaits | hflies | hdone
    · rw [hpending] at hwaits
      cases hwaits
    · rw [AList.mem_keys, AList.keys, hflight] at hflies
      cases hflies
    · exact hdone
  · intro hall
    constructor
    · refine List.eq_nil_iff_forall_not_mem.2 fun c hc => ?_
      exact (h.waiting c hc).2 (hall c ((h.all c).2 (.inl hc)))
    · refine List.eq_nil_iff_forall_not_mem.2 fun e he => ?_
      have hflies : e.1 ∈ d.scheduler.inFlight := AList.mem_keys.2 (List.mem_map_of_mem he)
      exact h.flying e.1 hflies (hall e.1 ((h.all e.1).2 (.inr (.inl hflies))))

/-- No order of calls loses or duplicates a chunk. -/
theorem chunks_accounted (hmissing : missing.Nodup) (h : Reached missing d) :
    Accounted missing d := by
  have hsound := h.sound hmissing
  refine ⟨fun c hc => ?_, fun c hc => ?_, hsound.bounded, hsound.isDone_iff,
    fun now _ => (hsound.assign now).2⟩
  · rcases (hsound.all c).1 hc with hwaits | hflies | hdone
    · exact .inl ⟨List.count_eq_one_of_mem hsound.nodup hwaits, hsound.waiting c hwaits⟩
    · exact .inr (.inl ⟨fun hwaits => (hsound.waiting c hwaits).1 hflies, hflies,
        hsound.flying c hflies⟩)
    · exact .inr (.inr ⟨fun hwaits => (hsound.waiting c hwaits).2 hdone,
        fun hflies => hsound.flying c hflies hdone, hdone⟩)
  · rw [hsound.all, not_or, not_or] at hc
    exact hc

end Download

/-! Two peers and two chunks, of which one was assigned. -/

namespace TwoPeers

open Download

def scheduler : SnapshotScheduler :=
  { pending := [0, 1], peers := ["peer-a", "peer-b"], inFlight := ∅, failures := ∅, cursor := 0
    timeout := 10, maxInFlight := 2, maxPeerRetries := 1, two_peers := by decide
    inFlight_pos := by decide, retries_pos := by decide, cursor_le := by decide }

theorem new_scheduler :
    SnapshotScheduler.new [0, 1] ["peer-a", "peer-b"] 10 2 1 = .ok scheduler := rfl

theorem chunks_accounted_two :
    Accounted [0, 1] ((Download.assign ⟨scheduler, ∅, [], 0⟩ 3).fail "peer-a" 0) :=
  chunks_accounted (by decide) (.fail (.assign (.start new_scheduler 0) (by decide)) _ _)

end TwoPeers

end IeumChain
