import IeumChain.TornRecords

/-!
# One hash for each slot of the vote log

A validator records each vote before it is sent, and opens the log again after each restart.
The file holds the votes that were written, in order, and reading it gives back the map that
was in memory.
-/
namespace IeumChain

open ByteCodec Text Outcome FiniteMap JsonText Journal

namespace ConsensusWal

section
variable [Crypto] {read : String → Except String ConsensusMessage}
  {votes written : List ConsensusMessage} {wal wal' : ConsensusWal} {m : ConsensusMessage}

/-- A log through any calls and reopenings, with the votes that were let through. -/
inductive Kept (read : String → Except String ConsensusMessage) :
    ConsensusWal → List ConsensusMessage → Prop
  | opened {wal : ConsensusWal} (h : openFile read [] = .ok wal) : Kept read wal []
  | recorded {wal wal' : ConsensusWal} {votes : List ConsensusMessage} {m : ConsensusMessage}
      (earlier : Kept read wal votes) (h : wal.recordBeforeBroadcast m = .ok wal') :
      Kept read wal' (votes ++ [m])
  | refused {wal : ConsensusWal} {votes : List ConsensusMessage} {m : ConsensusMessage}
      {message : String} (earlier : Kept read wal votes)
      (h : wal.recordBeforeBroadcast m = .error message) : Kept read wal votes
  | reopened {wal wal' : ConsensusWal} {votes : List ConsensusMessage}
      (earlier : Kept read wal votes) (h : openFile read wal.file = .ok wal') : Kept read wal' votes

theorem openFile_nil (h : openFile read [] = .ok wal) : wal = empty := by
  cases h
  rfl

/-- The file is read as the votes written to it. -/
theorem Sound.reload (hreads : ∀ m ∈ votes, ReadsBack walVoteJson read m)
    (h : Sound votes written wal) : reload read wal.file = .ok wal.signed := by
  rw [h.file]
  exact (loadText_contents isObject_walVoteJson fun m hm => hreads m (h.subset m hm)).2 h.signed

theorem Sound.openFile (hreads : ∀ m ∈ votes, ReadsBack walVoteJson read m)
    (h : Sound votes written wal) : openFile read wal.file = .ok wal :=
  openFile_eq_ok.2 ⟨h.reload hreads, rfl⟩

theorem Kept.sound (hreads : ∀ m ∈ votes, ReadsBack walVoteJson read m) (h : Kept read wal votes) :
    ∃ written, Sound votes written wal := by
  induction h with
  | opened h =>
      rw [openFile_nil h]
      exact Recorded.nil.sound
  | recorded _ h ih =>
      obtain ⟨written, hsound⟩ := ih fun m hm => hreads m (List.mem_append_left _ hm)
      exact hsound.record h
  | refused _ _ ih => exact ih hreads
  | reopened _ h ih =>
      obtain ⟨written, hsound⟩ := ih hreads
      cases (hsound.openFile hreads).symm.trans h
      exact ⟨written, hsound⟩

/-- Of one slot the log lets one block hash through for ever. It can always be opened again, and
then knows the slots of the votes it let through and no others. -/
theorem one_hash_for_each_slot (hreads : ∀ m ∈ votes, ReadsBack walVoteJson read m)
    (h : Kept read wal votes) :
    (∀ m ∈ votes, ∀ m' ∈ votes, voteKey m = voteKey m' → m.blockHash = m'.blockHash) ∧
      ∃ wal', openFile read wal.file = .ok wal' ∧
        (∀ m ∈ votes, wal'.signed.lookup (voteKey m) = some m.blockHash) ∧
        ∀ slot, slot ∈ wal'.signed ↔ ∃ m ∈ votes, voteKey m = slot := by
  obtain ⟨written, hsound⟩ := h.sound hreads
  refine ⟨fun m hm m' hm' hslot => ?_, wal, hsound.openFile hreads, hsound.knows, fun slot => ?_⟩
  · have hknown := hsound.knows m hm
    rw [hslot, hsound.knows m' hm'] at hknown
    exact (Option.some.inj hknown).symm
  · refine ⟨hsound.known slot, ?_⟩
    rintro ⟨m, hm, rfl⟩
    exact AList.lookup_isSome.1 (Option.isSome_iff_exists.2 ⟨_, hsound.knows m hm⟩)

end

end ConsensusWal

/-! A vote, a restart, and the vote once more. -/

namespace Lone

attribute [local instance] tornCrypto

theorem one_hash_for_each_slot_ballot : ∃ wal,
    ConsensusWal.Kept (readOnly walVoteJson (ballot "a")) wal [ballot "a", ballot "a"] ∧
      ∃ wal', ConsensusWal.openFile (readOnly walVoteJson (ballot "a")) wal.file = .ok wal' ∧
        ConsensusWal.voteKey (ballot "a") ∈ wal'.signed := by
  have hreads : ∀ votes : List ConsensusMessage, (∀ m ∈ votes, m = ballot "a") → ∀ m ∈ votes,
      ReadsBack walVoteJson (readOnly walVoteJson (ballot "a")) m := by
    intro votes hvotes m hm
    rw [hvotes m hm]
    exact readsBack_readOnly _
  have hfirst := ConsensusWal.recordBeforeBroadcast_first (verify_ballot "a")
  have hempty : ConsensusWal.openFile (readOnly walVoteJson (ballot "a")) [] =
      .ok ConsensusWal.empty := rfl
  have hone := (ConsensusWal.Kept.opened hempty).recorded hfirst
  obtain ⟨written, hsound⟩ := hone.sound (hreads _ (by simp))
  have hreopened := hone.reopened (hsound.openFile (hreads _ (by simp)))
  have hagain := hreopened.recorded (ConsensusWal.recordBeforeBroadcast_eq_ok.2
    ⟨verify_ballot "a", .inl ⟨hsound.knows _ (by simp), rfl⟩⟩)
  obtain ⟨-, wal', hopen, -, hslots⟩ :=
    ConsensusWal.one_hash_for_each_slot (hreads _ (by simp)) hagain
  exact ⟨_, hagain, wal', hopen, (hslots _).2 ⟨_, by simp, rfl⟩⟩

end Lone

end IeumChain
