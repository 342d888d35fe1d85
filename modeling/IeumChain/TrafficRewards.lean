import IeumChain.Library.KeyedLists
import IeumChain.RawTransaction
import IeumChain.StandIn
import Mathlib.Data.List.Perm.Subperm
import Mathlib.Data.Nat.Sqrt
import Mathlib.Data.String.Basic

/-!
# The lottery among relaying nodes

Winners are drawn without replacement. In each round a node weighs the square root of its
points, and a hash modulo the total weight is walked down the list of weights.
-/
namespace IeumChain.TrafficRewards

open ByteCodec MachineWords KeyedLists

def bpsDenominator : ℕ := 10000

structure EligibleNode where
  peerId : String
  rewardAddress : Address
  points : ℕ
  distinctVerifiers : ℕ
  deriving Repr, DecidableEq

structure LotteryPayment where
  peerId : String
  rewardAddress : Address
  amount : ℕ
  deriving Repr, DecidableEq

/-- Binary search for the last number whose square is at most the value; `none` where a word of
64 bits overflows or a division by zero stops the program. -/
def sqrtLoop (value left right : ℕ) : Option ℕ :=
  if left ≤ right then
    let middle := left + (right - left) / 2
    if u64Max < middle ∨ middle = 0 then none
    else if middle ≤ value / middle then
      if u64Max < middle + 1 then none else sqrtLoop value (middle + 1) right
    else sqrtLoop value left (middle - 1)
  else some right
termination_by right + 1 - left
decreasing_by all_goals omega

def integerSqrt (value : ℕ) : Option ℕ :=
  if value < 2 then some value else sqrtLoop value 1 (min value u32Max)

/-- The index of the weight in which the cursor lands. It is the first one if the cursor
lies behind all weights. -/
def selectLoop : ℕ → List ℕ → ℕ → ℕ
  | _, [], _ => 0
  | index, weight :: rest, cursor =>
      if cursor < weight then index else selectLoop (index + 1) rest (cursor - weight)

section
variable [Crypto]

/-- The remaining rounds. -/
def drawLoop (seed : Bytes) (amount : ℕ) :
    ℕ → ℕ → List EligibleNode → Option (List LotteryPayment)
  | 0, _, _ => some []
  | rounds + 1, round, remaining => do
      let weights ← remaining.mapM fun node => integerSqrt (max node.points 1)
      let total ← checkedSum u64Max weights
      let digest := Crypto.sha256 (seed ++ beBytes 8 round)
      let cursor ← checkedRem (RawTransaction.beValue (digest.take 8)) total
      let selected := selectLoop 0 weights cursor
      let node ← remaining[selected]?
      let winners ← drawLoop seed amount rounds (round + 1) (remaining.eraseIdx selected)
      pure ({ peerId := node.peerId, rewardAddress := node.rewardAddress, amount } :: winners)

/-- `none` where the source stops with a panic. -/
def drawLottery (seed : Bytes) (pool winnerCount : ℕ) (nodes : List EligibleNode) :
    Option (List LotteryPayment) :=
  if pool = 0 ∨ winnerCount = 0 ∨ nodes = [] then some []
  else do
    let remaining := nodes.insertionSort (·.peerId ≤ ·.peerId)
    let draws := min winnerCount remaining.length
    let amount ← checkedDiv pool draws
    if amount = 0 then some [] else drawLoop seed amount draws 0 remaining

end

/-! ## The square root -/

/-- The square root lies between the bounds, so that both squares decide. -/
theorem sqrtLoop_eq {value left right : ℕ} (hleft : 0 < left) (hright : right ≤ u32Max)
    (hle : left ≤ right + 1) (hlow : (left - 1) * (left - 1) ≤ value)
    (hhigh : value < (right + 1) * (right + 1)) :
    sqrtLoop value left right = some (Nat.sqrt value) := by
  have hwords : u32Max + 1 ≤ u64Max := by decide
  induction left, right using sqrtLoop.induct value with
  | case1 left right h middle hstop =>
      exact absurd hstop (by omega)
  | case2 left right h middle hstop hsquare hover =>
      exact absurd hover (by omega)
  | case3 left right h middle hstop hsquare hover ih =>
      have hpos : 0 < middle := by omega
      rw [sqrtLoop, if_pos h, if_neg hstop, if_pos hsquare, if_neg hover]
      refine ih (by omega) hright (by omega) ?_ hhigh
      rw [Nat.add_sub_cancel]
      exact (Nat.le_div_iff_mul_le hpos).1 hsquare
  | case4 left right h middle hstop hsquare ih =>
      have hpos : 0 < middle := by omega
      rw [sqrtLoop, if_pos h, if_neg hstop, if_neg hsquare]
      refine ih hleft (by omega) (by omega) hlow ?_
      rw [Nat.sub_add_cancel hpos]
      exact Nat.lt_of_not_le fun hmul => hsquare ((Nat.le_div_iff_mul_le hpos).2 hmul)
  | case5 left right h =>
      have heq : left = right + 1 := by omega
      rw [heq, Nat.add_sub_cancel] at hlow
      rw [sqrtLoop, if_neg h, Nat.eq_sqrt.2 ⟨hlow, hhigh⟩]

theorem integerSqrt_eq {value : ℕ} (h : value ≤ u64Max) :
    integerSqrt value = some (Nat.sqrt value) := by
  unfold integerSqrt
  split_ifs with hsmall
  · interval_cases value <;> rfl
  · refine sqrtLoop_eq Nat.one_pos (min_le_right _ _) (by omega) (Nat.zero_le _) ?_
    rcases le_total value u32Max with hle | hle
    · rw [min_eq_left hle]
      nlinarith
    · rw [min_eq_right hle]
      exact h.trans_lt (by decide)

/-- The search ends, without overflow and division by zero, at the largest number whose square
is at most the value. -/
theorem integerSqrt_floor {value : ℕ} (h : value ≤ u64Max) :
    ∃ root, integerSqrt value = some root ∧ root * root ≤ value ∧
      value < (root + 1) * (root + 1) := by
  refine ⟨Nat.sqrt value, integerSqrt_eq h, Nat.sqrt_le value, ?_⟩
  exact Nat.lt_succ_sqrt value

theorem integerSqrt_floor_top : ∃ root, integerSqrt u64Max = some root ∧
    root * root ≤ u64Max ∧ u64Max < (root + 1) * (root + 1) :=
  integerSqrt_floor le_rfl

/-! ## One round -/

/-- What a node weighs in a round. -/
def weight (node : EligibleNode) : ℕ := Nat.sqrt (max node.points 1)

theorem weight_pos (node : EligibleNode) : 0 < weight node :=
  Nat.sqrt_pos.2 (Nat.lt_of_lt_of_le Nat.one_pos (le_max_right _ _))

theorem weight_le {node : EligibleNode} (h : node.points ≤ u64Max) : weight node ≤ u32Max := by
  have hone : 1 ≤ u64Max := by decide
  have hle : weight node ≤ Nat.sqrt u64Max := Nat.sqrt_le_sqrt (max_le h hone)
  have htop : Nat.sqrt u64Max = u32Max := (Nat.eq_sqrt.2 (by decide)).symm
  rwa [htop] at hle

theorem mapM_integerSqrt {nodes : List EligibleNode} (h : ∀ n ∈ nodes, n.points ≤ u64Max) :
    (nodes.mapM fun node => integerSqrt (max node.points 1)) = some (nodes.map weight) := by
  induction nodes with
  | nil => rfl
  | cons n nodes ih =>
      rw [List.forall_mem_cons] at h
      have hone : 1 ≤ u64Max := by decide
      rw [List.mapM_cons, integerSqrt_eq (max_le h.1 hone), ih h.2]
      rfl

theorem sum_weight_le {nodes : List EligibleNode} (h : ∀ n ∈ nodes, n.points ≤ u64Max) :
    (nodes.map weight).sum ≤ nodes.length * u32Max := by
  have hsum := List.sum_le_card_nsmul (nodes.map weight) u32Max (by
    intro w hw
    obtain ⟨n, hn, rfl⟩ := List.mem_map.1 hw
    exact weight_le (h n hn))
  simpa using hsum

/-- The cursor lands on a weight of the list. -/
theorem selectLoop_spec {weights : List ℕ} {cursor : ℕ} (index : ℕ) (h : cursor < weights.sum) :
    ∃ k < weights.length, selectLoop index weights cursor = index + k ∧
      (weights.take k).sum ≤ cursor ∧ cursor < (weights.take (k + 1)).sum := by
  induction weights generalizing index cursor with
  | nil => exact absurd h (Nat.not_lt_zero _)
  | cons w weights ih =>
      by_cases hcursor : cursor < w
      · exact ⟨0, by simp, if_pos hcursor, by simp, by simpa using hcursor⟩
      · rw [List.sum_cons] at h
        have hrest : cursor - w < weights.sum := by omega
        obtain ⟨k, hk, hselect, hbefore, hbehind⟩ := ih (index + 1) hrest
        refine ⟨k + 1, by simpa using hk, ?_, ?_, ?_⟩
        · rw [selectLoop, if_neg hcursor, hselect]
          omega
        · rw [List.take_succ_cons, List.sum_cons]
          omega
        · rw [List.take_succ_cons, List.sum_cons]
          omega

section
variable [Crypto]

/-! ## All rounds -/

def EligibleNode.payment (amount : ℕ) (node : EligibleNode) : LotteryPayment :=
  { peerId := node.peerId, rewardAddress := node.rewardAddress, amount }

/-- As many rounds as there are nodes at most draw that many of them, each once. -/
theorem drawLoop_eq (seed : Bytes) (amount : ℕ) {rounds : ℕ} (round : ℕ)
    {remaining : List EligibleNode} (hrounds : rounds ≤ remaining.length)
    (hlength : remaining.length < 2 ^ 31) (hpoints : ∀ n ∈ remaining, n.points ≤ u64Max) :
    ∃ winners : List EligibleNode, winners.Subperm remaining ∧ winners.length = rounds ∧
      drawLoop seed amount rounds round remaining =
        some (winners.map (EligibleNode.payment amount)) := by
  induction rounds generalizing round remaining with
  | zero => exact ⟨[], List.nil_subperm, rfl, rfl⟩
  | succ rounds ih =>
      have hwords : 2 ^ 31 * u32Max ≤ u64Max := by decide
      have hsum := sum_weight_le hpoints
      have hfits : (remaining.map weight).sum ≤ u64Max :=
        (hsum.trans (Nat.mul_le_mul_right _ hlength.le)).trans hwords
      have hpos : 0 < (remaining.map weight).sum := by
        cases remaining with
        | nil => exact absurd hrounds (Nat.not_succ_le_zero _)
        | cons n rest =>
            have hweight := weight_pos n
            rw [List.map_cons, List.sum_cons]
            omega
      obtain ⟨k, hk, hselect, -⟩ := selectLoop_spec 0 (Nat.mod_lt (RawTransaction.beValue
        ((Crypto.sha256 (seed ++ beBytes 8 round)).take 8)) hpos)
      rw [List.length_map] at hk
      rw [Nat.zero_add] at hselect
      have hperm : (remaining[k] :: remaining.eraseIdx k).Perm remaining :=
        List.getElem_cons_eraseIdx_perm hk
      have hlengths := hperm.length_eq
      rw [List.length_cons] at hlengths
      have hrounds' : rounds ≤ (remaining.eraseIdx k).length := by omega
      obtain ⟨winners, hsub, hwinners, hdraw⟩ := ih (round + 1) hrounds' (by omega)
        fun n hn => hpoints n (List.eraseIdx_subset hn)
      refine ⟨remaining[k] :: winners, ?_, by rw [List.length_cons, hwinners], ?_⟩
      · exact (List.subperm_cons _).2 hsub |>.trans hperm.subperm
      · have htotal : checkedSum u64Max (remaining.map weight) =
            some (remaining.map weight).sum := checkedSum_eq_some.2 ⟨rfl, hfits⟩
        simp only [drawLoop, mapM_integerSqrt hpoints, htotal, checkedRem_of_pos hpos,
          Option.bind_eq_bind, Option.bind_some, hselect,
          List.getElem?_eq_getElem hk, hdraw, Option.pure_def, List.map_cons,
          EligibleNode.payment]

/-- With nothing to pay there are no payments; else the winners share equally. -/
theorem drawLottery_eq (seed : Bytes) (pool winnerCount : ℕ) {nodes : List EligibleNode}
    (hlength : nodes.length < 2 ^ 31) (hpoints : ∀ n ∈ nodes, n.points ≤ u64Max) :
    drawLottery seed pool winnerCount nodes = some [] ∨
      0 < pool / min winnerCount nodes.length ∧
        ∃ winners : List EligibleNode, winners.Subperm nodes ∧
          winners.length = min winnerCount nodes.length ∧
          drawLottery seed pool winnerCount nodes =
            some (winners.map (EligibleNode.payment (pool / min winnerCount nodes.length))) := by
  by_cases hempty : pool = 0 ∨ winnerCount = 0 ∨ nodes = []
  · exact .inl (if_pos hempty)
  have hsort := List.perm_insertionSort (·.peerId ≤ ·.peerId) nodes
  have hnodes : 0 < nodes.length := List.length_pos_of_ne_nil fun hnil => hempty (.inr (.inr hnil))
  have hdraws : 0 < min winnerCount nodes.length :=
    lt_min (Nat.pos_of_ne_zero fun hzero => hempty (.inr (.inl hzero))) hnodes
  have hdraw : drawLottery seed pool winnerCount nodes =
      if pool / min winnerCount nodes.length = 0 then some []
      else drawLoop seed (pool / min winnerCount nodes.length) (min winnerCount nodes.length) 0
        (nodes.insertionSort (·.peerId ≤ ·.peerId)) := by
    simp only [drawLottery, if_neg hempty, hsort.length_eq, checkedDiv_of_pos hdraws,
      Option.bind_eq_bind, Option.bind_some]
  rw [hdraw]
  by_cases hamount : pool / min winnerCount nodes.length = 0
  · exact .inl (if_pos hamount)
  · have hrounds : min winnerCount nodes.length ≤
        (nodes.insertionSort (·.peerId ≤ ·.peerId)).length :=
      (min_le_right _ _).trans hsort.length_eq.ge
    obtain ⟨winners, hsub, hwinners, hloop⟩ := drawLoop_eq seed
      (pool / min winnerCount nodes.length) 0 hrounds (hsort.length_eq.trans_lt hlength)
      fun n hn => hpoints n (hsort.mem_iff.1 hn)
    refine .inr ⟨Nat.pos_of_ne_zero hamount, winners, hsub.trans hsort.subperm, hwinners, ?_⟩
    rw [if_neg hamount, hloop]

/-- Nodes with distinct identifiers come into one order before the first draw. -/
theorem drawLottery_perm (seed : Bytes) (pool winnerCount : ℕ) {nodes nodes' : List EligibleNode}
    (hids : (nodes.map (·.peerId)).Nodup) (hperm : nodes'.Perm nodes) :
    drawLottery seed pool winnerCount nodes' = drawLottery seed pool winnerCount nodes := by
  have hnil : nodes' = [] ↔ nodes = [] := by
    rw [← List.length_eq_zero_iff, ← List.length_eq_zero_iff, hperm.length_eq]
  have hsort : nodes'.insertionSort (·.peerId ≤ ·.peerId) =
      nodes.insertionSort (·.peerId ≤ ·.peerId) :=
    insertionSort_eq_of_perm EligibleNode.peerId (fun _ _ => Iff.rfl) hperm hids
  simp only [drawLottery, hnil, hsort]

/-- The lottery always finishes. It pays nothing, or equal positive amounts to as many distinct
nodes as there are winners, spending the pool up to less than one unit a winner; and the order
of the list does not matter. -/
theorem lottery_is_fair (seed : Bytes) (pool winnerCount : ℕ) {nodes : List EligibleNode}
    (hids : (nodes.map (·.peerId)).Nodup) (hlength : nodes.length < 2 ^ 31)
    (hpoints : ∀ n ∈ nodes, n.points ≤ u64Max) :
    ∃ payments, drawLottery seed pool winnerCount nodes = some payments ∧
      (payments = [] ∨
        payments.length = min winnerCount nodes.length ∧
        (payments.map (·.peerId)).Nodup ∧
        (∀ p ∈ payments, ∃ n ∈ nodes, n.peerId = p.peerId ∧ n.rewardAddress = p.rewardAddress) ∧
        (∃ amount, 0 < amount ∧ ∀ p ∈ payments, p.amount = amount) ∧
        (payments.map (·.amount)).sum ≤ pool ∧
        pool < (payments.map (·.amount)).sum + payments.length) ∧
      ∀ nodes' : List EligibleNode, nodes'.Perm nodes →
        drawLottery seed pool winnerCount nodes' = some payments := by
  have horder : ∀ nodes' : List EligibleNode, nodes'.Perm nodes →
      drawLottery seed pool winnerCount nodes' = drawLottery seed pool winnerCount nodes :=
    fun nodes' hperm => drawLottery_perm seed pool winnerCount hids hperm
  obtain hnothing | ⟨hamount, winners, hsub, hwinners, hdraw⟩ :=
    drawLottery_eq seed pool winnerCount hlength hpoints
  · exact ⟨[], hnothing, .inl rfl, fun nodes' hperm => (horder nodes' hperm).trans hnothing⟩
  set draws := min winnerCount nodes.length
  have hdraws : 0 < draws := Nat.pos_of_ne_zero fun hzero => by
    rw [hzero, Nat.div_zero] at hamount
    exact absurd hamount (Nat.lt_irrefl 0)
  have hsum : ((winners.map (EligibleNode.payment (pool / draws))).map (·.amount)).sum =
      draws * (pool / draws) := by
    have hconst : (fun p : LotteryPayment => p.amount) ∘ EligibleNode.payment (pool / draws) =
        Function.const _ (pool / draws) := rfl
    rw [List.map_map, hconst, List.map_const, List.sum_replicate, hwinners]
    rfl
  refine ⟨_, hdraw, .inr ⟨?_, ?_, ?_, ⟨_, hamount, ?_⟩, ?_, ?_⟩,
    fun nodes' hperm => (horder nodes' hperm).trans hdraw⟩
  · rw [List.length_map, hwinners]
  · obtain ⟨chosen, hchosen, hsublist⟩ := hsub
    rw [List.map_map]
    have hnodup := (hsublist.map EligibleNode.peerId).nodup hids
    exact (hchosen.map EligibleNode.peerId).nodup_iff.1 hnodup
  · intro p hp
    obtain ⟨n, hn, rfl⟩ := List.mem_map.1 hp
    exact ⟨n, hsub.subset hn, rfl, rfl⟩
  · intro p hp
    obtain ⟨n, -, rfl⟩ := List.mem_map.1 hp
    rfl
  · rw [hsum]
    exact Nat.mul_div_le _ _
  · rw [hsum, List.length_map, hwinners]
    have hdiv := Nat.div_add_mod pool draws
    have hmod := Nat.mod_lt pool hdraws
    omega

end

/-! One winner among two nodes. -/

namespace Pair

local instance pairCrypto : Crypto := StandIn.crypto fun _ => List.replicate 32 0

def nodes : List EligibleNode := [⟨"b", "22", 4, 3⟩, ⟨"a", "11", 1, 3⟩]

theorem lottery_is_fair_two :
    ∃ payments, drawLottery [] 10 1 nodes = some payments ∧
      (payments = [] ∨
        payments.length = min 1 nodes.length ∧
        (payments.map (·.peerId)).Nodup ∧
        (∀ p ∈ payments, ∃ n ∈ nodes, n.peerId = p.peerId ∧ n.rewardAddress = p.rewardAddress) ∧
        (∃ amount, 0 < amount ∧ ∀ p ∈ payments, p.amount = amount) ∧
        (payments.map (·.amount)).sum ≤ 10 ∧
        10 < (payments.map (·.amount)).sum + payments.length) ∧
      ∀ nodes' : List EligibleNode, nodes'.Perm nodes →
        drawLottery [] 10 1 nodes' = some payments :=
  lottery_is_fair [] 10 1 (by decide) (by decide) (by decide)

end Pair

end IeumChain.TrafficRewards
