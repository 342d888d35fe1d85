import IeumChain.Library.ClampedSums
import IeumChain.Library.FiniteMap
import IeumChain.Library.MachineWords

/-!
# Peers that misbehave

Every peer has a score that goes up with its faults and down with its good messages. At a
hundred points the peer is blocked for a while. The score starts again from zero at the first
check after that.
-/
namespace IeumChain

open FiniteMap MachineWords

def banScore : ℤ := 100

inductive PeerDecision
  | allow
  | temporarilyBlocked
  deriving Repr, DecidableEq

structure PeerRecord where
  score : ℤ
  blockedUntil : Option ℕ
  deriving Repr, DecidableEq

/-- What a peer starts with, and starts again with after a ban. -/
def PeerRecord.clean : PeerRecord := { score := 0, blockedUntil := none }

structure PeerGuard where
  peers : HashMap String PeerRecord
  banDuration : ℕ

namespace PeerGuard

def new (banDuration : ℕ) : PeerGuard := { peers := ∅, banDuration }

def check (g : PeerGuard) (now : ℕ) (peer : String) : PeerGuard × PeerDecision :=
  match g.peers.lookup peer with
  | none => (g, .allow)
  | some record =>
      match record.blockedUntil with
      | none => (g, .allow)
      | some deadline =>
          if now < deadline then (g, .temporarilyBlocked)
          else ({ g with peers := g.peers.insert peer .clean }, .allow)

/-- The points are not negative, so that the sum can only saturate upwards. -/
def penalize (g : PeerGuard) (now : ℕ) (peer : String) (points : ℤ) : PeerGuard × PeerDecision :=
  let record := getD g.peers peer .clean
  let score := min (i32Max : ℤ) (record.score + max points 0)
  if banScore ≤ score then
    ({ g with
        peers := g.peers.insert peer { score, blockedUntil := some (now + g.banDuration) } },
      .temporarilyBlocked)
  else ({ g with peers := g.peers.insert peer { record with score } }, .allow)

def reward (g : PeerGuard) (peer : String) : PeerGuard :=
  match g.peers.lookup peer with
  | none => g
  | some record =>
      { g with peers := g.peers.insert peer { record with score := max (record.score - 1) 0 } }

end PeerGuard

/-! ## The record of one peer -/

namespace PeerRecord

def Blocked (r : PeerRecord) (now : ℕ) : Prop := ∃ deadline ∈ r.blockedUntil, now < deadline

instance (r : PeerRecord) (now : ℕ) : Decidable (r.Blocked now) :=
  inferInstanceAs (Decidable (∃ deadline ∈ r.blockedUntil, now < deadline))

def checked (r : PeerRecord) (now : ℕ) : PeerRecord :=
  match r.blockedUntil with
  | none => r
  | some deadline => if now < deadline then r else clean

def penalized (r : PeerRecord) (deadline : ℕ) (points : ℤ) : PeerRecord :=
  let score := min (i32Max : ℤ) (r.score + max points 0)
  { score, blockedUntil := if banScore ≤ score then some deadline else r.blockedUntil }

def rewarded (r : PeerRecord) : PeerRecord := { r with score := max (r.score - 1) 0 }

@[simp] theorem rewarded_blockedUntil (r : PeerRecord) :
    r.rewarded.blockedUntil = r.blockedUntil := rfl

theorem checked_cases (r : PeerRecord) (now : ℕ) :
    r.checked now = r ∨ r.checked now = clean ∧ r.blockedUntil ≠ none ∧ ¬r.Blocked now := by
  rw [checked]
  cases hdeadline : r.blockedUntil with
  | none => exact .inl rfl
  | some deadline =>
      dsimp only
      split_ifs with hlt
      · exact .inl rfl
      · refine .inr ⟨rfl, nofun, ?_⟩
        rintro ⟨d, hd, hbefore⟩
        rw [hdeadline, Option.mem_some_iff] at hd
        omega

end PeerRecord

namespace PeerGuard

open PeerRecord

def record (g : PeerGuard) (peer : String) : PeerRecord := getD g.peers peer clean

variable (g : PeerGuard) (now : ℕ) (p q : String)

@[simp] theorem new_record (banDuration : ℕ) : (new banDuration).record p = clean := rfl

theorem record_insert (peers : HashMap String PeerRecord) (r : PeerRecord) (banDuration : ℕ) :
    record { peers := peers.insert q r, banDuration } p =
      if p = q then r else getD peers p clean := by
  split_ifs with h
  · rw [h]
    exact getD_insert_self _ _ _ _
  · exact getD_insert_ne _ h _ _

theorem check_record :
    (g.check now q).1.record p = if p = q then (g.record p).checked now else g.record p := by
  have hkept : g.record p = if p = q then g.record p else g.record p := (ite_self _).symm
  cases hlookup : g.peers.lookup q with
  | none =>
      have hclean : g.record q = clean := by rw [record, getD, hlookup, Option.getD_none]
      have hcheck : g.check now q = (g, .allow) := by simp only [check, hlookup]
      rw [hcheck]
      split_ifs with h
      · rw [h, hclean]
        rfl
      · rfl
  | some r =>
      have hrecord : g.record q = r := by rw [record, getD, hlookup, Option.getD_some]
      cases hdeadline : r.blockedUntil with
      | none =>
          have hcheck : g.check now q = (g, .allow) := by simp only [check, hlookup, hdeadline]
          rw [hcheck]
          split_ifs with h
          · rw [h, hrecord, checked, hdeadline]
          · rfl
      | some deadline =>
          by_cases hlt : now < deadline
          · have hcheck : g.check now q = (g, .temporarilyBlocked) := by
              simp only [check, hlookup, hdeadline, if_pos hlt]
            rw [hcheck]
            split_ifs with h
            · rw [h, hrecord, checked, hdeadline]
              exact (if_pos hlt).symm
            · rfl
          · have hcheck : (g.check now q).1 = { g with peers := g.peers.insert q clean } := by
              simp only [check, hlookup, hdeadline, if_neg hlt]
            rw [hcheck, record_insert]
            split_ifs with h
            · rw [h, hrecord, checked, hdeadline]
              exact (if_neg hlt).symm
            · rfl

theorem check_blocked_iff :
    (g.check now p).2 = .temporarilyBlocked ↔ (g.record p).Blocked now := by
  rw [check, record, getD, Blocked]
  cases g.peers.lookup p with
  | none => simp [clean]
  | some r =>
      dsimp only [Option.getD_some]
      cases r.blockedUntil with
      | none => simp
      | some deadline =>
          dsimp only
          split_ifs with hlt
          · simp [hlt]
          · simp [hlt]

@[simp] theorem check_banDuration : (g.check now p).1.banDuration = g.banDuration := by
  rw [check]
  split
  · rfl
  · split
    · rfl
    · split_ifs <;> rfl

theorem penalize_eq (points : ℤ) : (g.penalize now p points).1 =
    { g with
      peers := g.peers.insert p ((g.record p).penalized (now + g.banDuration) points) } := by
  rw [penalize, ← record]
  split_ifs with hban
  · rw [penalized, if_pos hban]
  · rw [penalized, if_neg hban]

theorem penalize_record (points : ℤ) : (g.penalize now q points).1.record p =
    if p = q then (g.record p).penalized (now + g.banDuration) points else g.record p := by
  rw [penalize_eq, record_insert]
  split_ifs with h
  · rw [h]
  · rfl

@[simp] theorem penalize_banDuration (points : ℤ) :
    (g.penalize now p points).1.banDuration = g.banDuration := by
  rw [penalize_eq]

theorem reward_record :
    (g.reward q).record p = if p = q then (g.record p).rewarded else g.record p := by
  rw [reward]
  cases hlookup : g.peers.lookup q with
  | none =>
      have hclean : g.record q = clean := by rw [record, getD, hlookup, Option.getD_none]
      dsimp only
      split_ifs with h
      · rw [h, hclean]
        rfl
      · rfl
  | some r =>
      have hrecord : g.record q = r := by rw [record, getD, hlookup, Option.getD_some]
      dsimp only
      rw [record_insert]
      split_ifs with h
      · rw [h, hrecord]
        rfl
      · rfl

@[simp] theorem reward_banDuration : (g.reward p).banDuration = g.banDuration := by
  rw [reward]
  split <;> rfl

end PeerGuard

end IeumChain
