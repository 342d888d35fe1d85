import Mathlib.Data.Prod.Lex
import Mathlib.Data.String.Basic
import IeumChain.Library.LatestReports
import IeumChain.WireMessages

/-!
# The tip that peers agree on

A node that syncs waits until two or three peers report the same tip. Each peer has one
voice, the last one it raised, and of several tips with enough voices the highest counts.
-/
namespace IeumChain

open Outcome FiniteMap LatestReports

namespace SyncTip

def key (tip : SyncTip) : ℕ ×ₗ String ×ₗ String :=
  toLex (tip.height, toLex (tip.blockHash, tip.stateRoot))

theorem key_injective : Function.Injective key := by
  rintro ⟨height, blockHash, stateRoot⟩ ⟨height', blockHash', stateRoot'⟩ h
  simp only [key, EmbeddingLike.apply_eq_iff_eq, Prod.mk.injEq] at h
  obtain ⟨rfl, rfl, rfl⟩ := h
  rfl

end SyncTip

structure TipQuorum where
  minimumPeers : ℕ
  votes : HashMap String SyncTip

namespace TipQuorum

def new (minimumPeers : ℕ) : Except String TipQuorum := do
  reject (¬(2 ≤ minimumPeers ∧ minimumPeers ≤ 3))
    "동기화 교차검증 피어 수는 2 또는 3이어야 합니다."
  pure { minimumPeers, votes := ∅ }

/-- The counts are kept in the order of the tips, and of those with the same height the last one
wins. -/
def observe (q : TipQuorum) (peerId : String) (tip : SyncTip) : TipQuorum × Option SyncTip :=
  let votes := q.votes.insert peerId tip
  ({ q with votes }, agreed q.minimumPeers SyncTip.key votes)

def observeAll (q : TipQuorum) (reports : List (String × SyncTip)) : TipQuorum :=
  reports.foldl (fun q r => (q.observe r.1 r.2).1) q

theorem observeAll_eq (q : TipQuorum) (reports : List (String × SyncTip)) :
    q.observeAll reports =
      { q with votes := reports.foldl (fun m r => m.insert r.1 r.2) q.votes } := by
  induction reports generalizing q with
  | nil => rfl
  | cons r rest ih => exact ih (q.observe r.1 r.2).1

theorem observe_eq_agreed {minimumPeers : ℕ} {q : TipQuorum} (hnew : new minimumPeers = .ok q)
    (reports : List (String × SyncTip)) (peerId : String) (tip : SyncTip) :
    2 ≤ minimumPeers ∧ ((q.observeAll reports).observe peerId tip).2 =
      agreed minimumPeers SyncTip.key (collect (reports ++ [(peerId, tip)])) := by
  simp only [new, bind_eq_ok, reject_eq_ok, exists_const, not_not, pure_eq_ok] at hnew
  obtain ⟨⟨htwo, -⟩, rfl⟩ := hnew
  have hvotes : (collect reports).insert peerId tip = collect (reports ++ [(peerId, tip)]) := by
    rw [collect, collect, List.foldl_concat]
  have hall : observeAll { minimumPeers, votes := ∅ } reports =
      { minimumPeers, votes := collect reports } := observeAll_eq _ reports
  rw [hall, observe, hvotes]
  exact ⟨htwo, rfl⟩

/-- Whatever has been reported before, a report leads to a tip exactly when enough peers have
reported this tip last, and no tip above it has as many. -/
theorem observe_eq_some_iff {minimumPeers : ℕ} {q : TipQuorum} (hnew : new minimumPeers = .ok q)
    (reports : List (String × SyncTip)) (peerId : String) (tip agreed : SyncTip) :
    ((q.observeAll reports).observe peerId tip).2 = some agreed ↔
      Supported minimumPeers (reports ++ [(peerId, tip)]) agreed ∧
        ∀ other, Supported minimumPeers (reports ++ [(peerId, tip)]) other →
          other.key ≤ agreed.key := by
  obtain ⟨htwo, hagreed⟩ := observe_eq_agreed hnew reports peerId tip
  rw [hagreed]
  have hquota : 0 < minimumPeers := by omega
  exact agreed_eq_some_iff hquota SyncTip.key_injective

end TipQuorum

/-! Two of three peers agree, and the third is ahead of them. -/

namespace Sample

def tipAt (height : ℕ) : SyncTip := { height, blockHash := "b", stateRoot := "s" }

theorem tip_of_two_peers : ∃ q, TipQuorum.new 2 = .ok q ∧
    ((q.observeAll [("p", tipAt 5), ("q", tipAt 7)]).observe "r" (tipAt 5)).2 = some (tipAt 5) ∧
    Supported 2 [("p", tipAt 5), ("q", tipAt 7), ("r", tipAt 5)] (tipAt 5) := by
  have hnew : TipQuorum.new 2 = .ok ⟨2, ∅⟩ := rfl
  have hagreed : ((TipQuorum.observeAll ⟨2, ∅⟩ [("p", tipAt 5), ("q", tipAt 7)]).observe "r"
      (tipAt 5)).2 = some (tipAt 5) := by
    decide +kernel
  exact ⟨_, hnew, hagreed, ((TipQuorum.observe_eq_some_iff hnew _ "r" _ _).1 hagreed).1⟩

end Sample

end IeumChain
