import IeumChain.DailyEvents
import IeumChain.Library.KeyedLists
import IeumChain.Library.Selection
import Mathlib.Data.Prod.Lex
import Mathlib.Data.Set.Card
import Mathlib.Order.OrderDual

/-!
# Which public nodes are paid

A node is paid for an address if enough validators attested it and the address holds a mature
bond, if no earlier node of the address qualifies, and if fewer than two earlier nodes share its
network group. The order of the attestations does not enter.
-/
namespace IeumChain

namespace NodeEmission

open Outcome KeyedLists Selection

/-! ## The network group of a node -/

/-- The group is named most often, and is the smallest name among those. -/
def Leads (proofs : List NodeServiceAttestation) (group : String) : Prop :=
  group ∈ proofs.map (·.networkGroup) ∧ ∀ name ∈ proofs.map (·.networkGroup),
    (proofs.map (·.networkGroup)).count name < (proofs.map (·.networkGroup)).count group ∨
      (proofs.map (·.networkGroup)).count name = (proofs.map (·.networkGroup)).count group ∧
        group ≤ name

theorem Leads.unique {proofs : List NodeServiceAttestation} {group group' : String}
    (h : Leads proofs group) (h' : Leads proofs group') : group = group' := by
  have hle := h.2 group' h'.1
  have hle' := h'.2 group h.1
  exact le_antisymm (hle.resolve_left (by omega)).2 (hle'.resolve_left (by omega)).2

theorem Leads.perm {proofs proofs' : List NodeServiceAttestation} {group : String}
    (h : Leads proofs group) (hperm : proofs.Perm proofs') : Leads proofs' group := by
  have hnames := hperm.map (·.networkGroup)
  unfold Leads at h ⊢
  simpa only [← hnames.mem_iff, ← hnames.count_eq] using h

/-- How `betterGroup` compares. -/
def groupRank (e : String × ℕ) : ℕ ×ₗ Stringᵒᵈ := toLex (e.2, OrderDual.toDual e.1)

theorem betterGroup_eq (best next : String × ℕ) :
    betterGroup best next = better groupRank best next := by
  simp only [betterGroup, better, groupRank, Prod.Lex.toLex_lt_toLex, OrderDual.toDual_lt_toDual]

theorem leads_of_mainGroup {proofs : List NodeServiceAttestation} {e : String × ℕ}
    (h : mainGroup proofs = some e) :
    Leads proofs e.1 ∧ e.2 = (proofs.map (·.networkGroup)).count e.1 := by
  have hbetter : betterGroup = better groupRank := funext₂ betterGroup_eq
  simp only [mainGroup] at h
  split at h
  · cases h
  · next first rest hlist =>
    rw [Option.some.injEq, hbetter] at h
    obtain ⟨hmem, hmax⟩ := foldl_better groupRank first rest
    rw [h, ← hlist] at hmem hmax
    obtain ⟨name, hname, rfl⟩ := List.mem_map.1 hmem
    refine ⟨⟨List.mem_dedup.1 hname, fun other hother => ?_⟩, rfl⟩
    have hle := hmax _ (List.mem_map_of_mem (List.mem_dedup.2 hother))
    rw [groupRank, groupRank, Prod.Lex.toLex_le_toLex] at hle
    exact hle

theorem mainGroup_eq_some {proofs : List NodeServiceAttestation} {group : String} {count : ℕ} :
    mainGroup proofs = some (group, count) ↔
      Leads proofs group ∧ count = (proofs.map (·.networkGroup)).count group := by
  constructor
  · exact leads_of_mainGroup
  · rintro ⟨hleads, rfl⟩
    cases hmain : mainGroup proofs with
    | none =>
        have hmem := List.mem_dedup.2 hleads.1
        simp only [mainGroup] at hmain
        split at hmain
        · next hlist => 
          rw [List.map_eq_nil_iff] at hlist
          rw [hlist] at hmem
          cases hmem
        · cases hmain
    | some e =>
        obtain ⟨hbest, hcount⟩ := leads_of_mainGroup hmain
        obtain rfl := hleads.unique hbest
        exact congrArg some (Prod.ext rfl hcount)

/-! ## The loop over nodes and addresses -/

/-- The accepted attestations of a node for an address. -/
def proofsFor (counted : List NodeServiceAttestation) (peerId : String) (rewardAddress : Address) :
    List NodeServiceAttestation :=
  counted.filter fun a => a.peerId = peerId ∧ a.rewardAddress = rewardAddress

section
variable (timestamp : ℕ) (staking : StakingState) (counted : List NodeServiceAttestation)

/-- Enough validators and a mature bond. -/
def Qualified (peerId : String) (rewardAddress : Address) : Prop :=
  serviceMinimumValidators ≤
      ((proofsFor counted peerId rewardAddress).map (·.validatorId)).dedup.length ∧
    serviceBond ≤ staking.matureDelegatedBy rewardAddress timestamp serviceBondMaturitySeconds

instance (peerId : String) (rewardAddress : Address) :
    Decidable (Qualified timestamp staking counted peerId rewardAddress) :=
  inferInstanceAs (Decidable (_ ∧ _))

/-- The node carries its leading group, and that was named often enough. -/
def Grouped (n : EligibleNode) : Prop :=
  Leads (proofsFor counted n.peerId n.rewardAddress) n.networkGroup ∧
    serviceMinimumValidators ≤
      ((proofsFor counted n.peerId n.rewardAddress).map (·.networkGroup)).count n.networkGroup

/-- The node to which a peer and an address lead, if its group was named often enough. -/
def groupedNode (peerId : String) (rewardAddress : Address) : Option EligibleNode :=
  match mainGroup (proofsFor counted peerId rewardAddress) with
  | none => none
  | some (networkGroup, count) =>
      if count < serviceMinimumValidators then none
      else some { peerId, rewardAddress, networkGroup }

variable {timestamp staking counted}

theorem groupedNode_eq_some {peerId : String} {rewardAddress : Address} {n : EligibleNode} :
    groupedNode counted peerId rewardAddress = some n ↔
      n.peerId = peerId ∧ n.rewardAddress = rewardAddress ∧ Grouped counted n := by
  unfold groupedNode Grouped
  constructor
  · intro h
    split at h
    · cases h
    · next networkGroup count hmain =>
      obtain ⟨hleads, rfl⟩ := mainGroup_eq_some.1 hmain
      split_ifs at h with hfew
      obtain rfl := Option.some.inj h
      exact ⟨rfl, rfl, hleads, not_lt.1 hfew⟩
  · rintro ⟨rfl, rfl, hleads, henough⟩
    rw [mainGroup_eq_some.2 ⟨hleads, rfl⟩]
    exact if_neg (not_lt.2 henough)

theorem eligibleLoop_cons (used : List Address) (peerId : String) (rewardAddress : Address)
    (rest : List (String × Address)) :
    eligibleLoop timestamp staking counted used ((peerId, rewardAddress) :: rest) =
      if Qualified timestamp staking counted peerId rewardAddress ∧ rewardAddress ∉ used then
        (groupedNode counted peerId rewardAddress).toList ++
          eligibleLoop timestamp staking counted (rewardAddress :: used) rest
      else eligibleLoop timestamp staking counted used rest := by
  rw [eligibleLoop, ← proofsFor]
  by_cases hqualified : Qualified timestamp staking counted peerId rewardAddress ∧
      rewardAddress ∉ used
  · have hgo : ¬(((proofsFor counted peerId rewardAddress).map (·.validatorId)).dedup.length <
          serviceMinimumValidators ∨
        staking.matureDelegatedBy rewardAddress timestamp serviceBondMaturitySeconds <
          serviceBond ∨ rewardAddress ∈ used) := by
      rw [not_or, not_or, not_lt, not_lt]
      exact ⟨hqualified.1.1, hqualified.1.2, hqualified.2⟩
    rw [if_pos hqualified, if_neg hgo, groupedNode]
    cases mainGroup (proofsFor counted peerId rewardAddress) with
    | none => rfl
    | some e =>
        simp only
        split_ifs
        · rfl
        · rfl
  · have hskip : ((proofsFor counted peerId rewardAddress).map (·.validatorId)).dedup.length <
          serviceMinimumValidators ∨
        staking.matureDelegatedBy rewardAddress timestamp serviceBondMaturitySeconds <
          serviceBond ∨ rewardAddress ∈ used := by
      by_contra hgo
      rw [not_or, not_or, not_lt, not_lt] at hgo
      exact hqualified ⟨⟨hgo.1, hgo.2.1⟩, hgo.2.2⟩
    rw [if_neg hqualified, if_pos hskip]

/-- The keys come in strict order, so an address goes to its first qualified node. -/
theorem mem_eligibleLoop_iff {used : List Address} {keys : List (String × Address)}
    (hkeys : keys.Pairwise fun a b => toLex a < toLex b) {n : EligibleNode} :
    n ∈ eligibleLoop timestamp staking counted used keys ↔
      (n.peerId, n.rewardAddress) ∈ keys ∧ n.rewardAddress ∉ used ∧
        Qualified timestamp staking counted n.peerId n.rewardAddress ∧
        (∀ peerId, (peerId, n.rewardAddress) ∈ keys → peerId < n.peerId →
          ¬Qualified timestamp staking counted peerId n.rewardAddress) ∧
        Grouped counted n := by
  induction keys generalizing used with
  | nil => simp [eligibleLoop]
  | cons key rest ih =>
      obtain ⟨peerId, rewardAddress⟩ := key
      rw [List.pairwise_cons] at hkeys
      obtain ⟨hhead, hrest⟩ := hkeys
      rw [eligibleLoop_cons]
      split_ifs with hgo
      · rw [List.mem_append, ih hrest, Option.mem_toList, groupedNode_eq_some]
        constructor
        · rintro (⟨rfl, rfl, hgrouped⟩ | ⟨hmem, hunused, hqualified, hfirst, hgrouped⟩)
          · refine ⟨List.mem_cons_self .., hgo.2, hgo.1, fun peerId hmem hlt => ?_, hgrouped⟩
            rcases List.mem_cons.1 hmem with heq | hmem
            · exact absurd (congrArg Prod.fst heq) hlt.ne
            · have hkey := Prod.Lex.toLex_lt_toLex.1 (hhead _ hmem)
              exact absurd hlt (not_lt.2 (hkey.elim le_of_lt fun h => h.1.le))
          · rw [List.mem_cons, not_or] at hunused
            refine ⟨List.mem_cons_of_mem _ hmem, hunused.2, hqualified, fun peerId' hkey hlt => ?_,
              hgrouped⟩
            rcases List.mem_cons.1 hkey with heq | hkey
            · exact absurd (congrArg Prod.snd heq) hunused.1
            · exact hfirst peerId' hkey hlt
        · rintro ⟨hmem, hunused, hqualified, hfirst, hgrouped⟩
          rcases List.mem_cons.1 hmem with heq | hmem
          · exact .inl ⟨congrArg Prod.fst heq, congrArg Prod.snd heq, hgrouped⟩
          · refine .inr ⟨hmem, ?_, hqualified,
              fun peerId' hkey => hfirst peerId' (List.mem_cons_of_mem _ hkey), hgrouped⟩
            rw [List.mem_cons, not_or]
            refine ⟨fun heq => ?_, hunused⟩
            -- a second node of the address: the first one qualifies
            have hkey := Prod.Lex.toLex_lt_toLex.1 (hhead _ hmem)
            have hlt : peerId < n.peerId :=
              hkey.resolve_right fun h => absurd heq.symm h.2.ne
            exact hfirst peerId (heq ▸ List.mem_cons_self ..) hlt (heq ▸ hgo.1)
      · rw [ih hrest]
        constructor
        · rintro ⟨hmem, hunused, hqualified, hfirst, hgrouped⟩
          refine ⟨List.mem_cons_of_mem _ hmem, hunused, hqualified, fun peerId' hkey hlt => ?_,
            hgrouped⟩
          rcases List.mem_cons.1 hkey with heq | hkey
          · obtain ⟨rfl, rfl⟩ := Prod.mk.inj heq
            exact fun h => hgo ⟨h, hunused⟩
          · exact hfirst peerId' hkey hlt
        · rintro ⟨hmem, hunused, hqualified, hfirst, hgrouped⟩
          rcases List.mem_cons.1 hmem with heq | hmem
          · obtain ⟨rfl, rfl⟩ := Prod.mk.inj heq
            exact absurd ⟨hqualified, hunused⟩ hgo
          · exact ⟨hmem, hunused, hqualified,
              fun peerId' hkey => hfirst peerId' (List.mem_cons_of_mem _ hkey), hgrouped⟩

theorem nodup_eligibleLoop {used : List Address} {keys : List (String × Address)}
    (hkeys : keys.Pairwise fun a b => toLex a < toLex b) :
    ((eligibleLoop timestamp staking counted used keys).map (·.rewardAddress)).Nodup := by
  induction keys generalizing used with
  | nil => exact List.nodup_nil
  | cons key rest ih =>
      obtain ⟨peerId, rewardAddress⟩ := key
      have hrest := hkeys.of_cons
      rw [eligibleLoop_cons]
      split_ifs with hgo
      · cases hnode : groupedNode counted peerId rewardAddress with
        | none => exact ih hrest
        | some n =>
            obtain ⟨-, rfl, -⟩ := groupedNode_eq_some.1 hnode
            rw [Option.toList_some, List.cons_append, List.nil_append, List.map_cons,
              List.nodup_cons]
            refine ⟨fun hmem => ?_, ih hrest⟩
            obtain ⟨m, hm, heq⟩ := List.mem_map.1 hmem
            have hunused := ((mem_eligibleLoop_iff hrest).1 hm).2.1
            exact hunused (heq ▸ List.mem_cons_self ..)
      · exact ih hrest

end

/-! ## The candidates -/

/-- The nodes and addresses that were attested, in order. -/
def serviceKeys (counted : List NodeServiceAttestation) : List (String × Address) :=
  ((counted.map fun a => (a.peerId, a.rewardAddress)).dedup).insertionSort pairLe

theorem serviceKeys_strict (counted : List NodeServiceAttestation) :
    (serviceKeys counted).Pairwise fun a b => toLex a < toLex b := by
  refine insertionSort_strict toLex (fun a b => Prod.Lex.toLex_le_toLex.symm) ?_
  exact (List.nodup_dedup _).map toLex.injective

theorem mem_serviceKeys {counted : List NodeServiceAttestation} {peerId : String}
    {rewardAddress : Address} :
    (peerId, rewardAddress) ∈ serviceKeys counted ↔
      proofsFor counted peerId rewardAddress ≠ [] := by
  rw [serviceKeys, List.mem_insertionSort, List.mem_dedup, List.mem_map, proofsFor, Ne,
    List.filter_eq_nil_iff]
  simp only [Prod.mk.injEq, decide_eq_true_eq, not_forall, not_not, exists_prop]

section
variable (timestamp : ℕ) (staking : StakingState) (counted : List NodeServiceAttestation)

/-- A node that would be paid if its network group had room. -/
structure Candidate (n : EligibleNode) : Prop where
  qualified : Qualified timestamp staking counted n.peerId n.rewardAddress
  first : ∀ peerId < n.peerId, ¬Qualified timestamp staking counted peerId n.rewardAddress
  grouped : Grouped counted n

/-- Where a node stands in the order of payment. -/
def EligibleNode.key (n : EligibleNode) : String ×ₗ Address := toLex (n.peerId, n.rewardAddress)

/-- Fewer candidates of its network group than are paid come before the node. -/
structure InTurn (n : EligibleNode) : Prop extends Candidate timestamp staking counted n where
  room : {m | Candidate timestamp staking counted m ∧ m.networkGroup = n.networkGroup ∧
    m.key < n.key}.ncard < serviceMaxRewardedPerNetworkGroup

variable {timestamp staking counted}

theorem Qualified.proofs_ne_nil {peerId : String} {rewardAddress : Address}
    (h : Qualified timestamp staking counted peerId rewardAddress) :
    proofsFor counted peerId rewardAddress ≠ [] := by
  intro hnil
  have henough := h.1
  rw [hnil] at henough
  exact absurd henough (by decide)

theorem mem_eligibleLoop_candidate {n : EligibleNode} :
    n ∈ eligibleLoop timestamp staking counted [] (serviceKeys counted) ↔
      Candidate timestamp staking counted n := by
  rw [mem_eligibleLoop_iff (serviceKeys_strict counted)]
  constructor
  · rintro ⟨-, -, hqualified, hfirst, hgrouped⟩
    refine ⟨hqualified, fun peerId hlt h => ?_, hgrouped⟩
    exact hfirst peerId (mem_serviceKeys.2 h.proofs_ne_nil) hlt h
  · intro h
    exact ⟨mem_serviceKeys.2 h.qualified.proofs_ne_nil, List.not_mem_nil, h.qualified,
      fun peerId _ => h.first peerId, h.grouped⟩

/-! ## The quota of a network group -/

def nodeKey (n : EligibleNode) : String ×ₗ Address ×ₗ String :=
  toLex (n.peerId, toLex (n.rewardAddress, n.networkGroup))

theorem nodeLe_iff (a b : EligibleNode) : nodeLe a b ↔ nodeKey a ≤ nodeKey b := by
  rw [nodeKey, nodeKey, Prod.Lex.toLex_le_toLex, Prod.Lex.toLex_le_toLex]
  exact Iff.rfl

/-- With other addresses the network groups do not decide the order. -/
theorem key_lt_of_nodeKey_lt {a b : EligibleNode} (h : nodeKey a < nodeKey b)
    (hne : a.rewardAddress ≠ b.rewardAddress) : a.key < b.key := by
  rw [nodeKey, nodeKey, Prod.Lex.toLex_lt_toLex, Prod.Lex.toLex_lt_toLex] at h
  rw [EligibleNode.key, EligibleNode.key, Prod.Lex.toLex_lt_toLex]
  exact h.imp_right fun hpeer => ⟨hpeer.1, hpeer.2.resolve_right fun haddress => hne haddress.1⟩

/-- The candidates in the order of payment. -/
def candidates (timestamp : ℕ) (staking : StakingState) (counted : List NodeServiceAttestation) :
    List EligibleNode :=
  (eligibleLoop timestamp staking counted [] (serviceKeys counted)).insertionSort nodeLe

theorem mem_candidates {n : EligibleNode} :
    n ∈ candidates timestamp staking counted ↔ Candidate timestamp staking counted n := by
  rw [candidates, List.mem_insertionSort, mem_eligibleLoop_candidate]

theorem nodup_candidates :
    ((candidates timestamp staking counted).map (·.rewardAddress)).Nodup :=
  ((List.perm_insertionSort nodeLe _).map _).nodup_iff.2
    (nodup_eligibleLoop (serviceKeys_strict counted))

theorem candidates_strict :
    (candidates timestamp staking counted).Pairwise fun a b => a.key < b.key := by
  have haddresses : ((eligibleLoop timestamp staking counted [] (serviceKeys counted)).map
      (·.rewardAddress)).Nodup := nodup_eligibleLoop (serviceKeys_strict counted)
  have hkeys : ((eligibleLoop timestamp staking counted [] (serviceKeys counted)).map
      nodeKey).Nodup := by
    refine List.Nodup.of_map (fun k => (ofLex (ofLex k).2).1) ?_
    rwa [List.map_map]
  have hdistinct : (candidates timestamp staking counted).Pairwise
      fun a b => a.rewardAddress ≠ b.rewardAddress := List.pairwise_map.1 nodup_candidates
  exact ((insertionSort_strict nodeKey nodeLe_iff hkeys).and hdistinct).imp
    fun h => key_lt_of_nodeKey_lt h.1 h.2

theorem capGroups_eq (seen : List String) (nodes : List EligibleNode) :
    capGroups seen nodes =
      firstOfGroups serviceMaxRewardedPerNetworkGroup EligibleNode.networkGroup seen nodes := by
  induction nodes generalizing seen with
  | nil => rfl
  | cons n rest ih => simp only [capGroups, firstOfGroups, ih]

/-- The paid nodes are those whose turn it is. -/
theorem mem_capGroups_candidates {n : EligibleNode} :
    n ∈ capGroups [] (candidates timestamp staking counted) ↔
      InTurn timestamp staking counted n := by
  have hstrict : (candidates timestamp staking counted).Pairwise fun a b => a.key < b.key :=
    candidates_strict
  have hnodup : (candidates timestamp staking counted).Nodup :=
    List.Nodup.of_map _ nodup_candidates
  have hset : {m | Candidate timestamp staking counted m ∧ m.networkGroup = n.networkGroup ∧
      m.key < n.key} = ((candidates timestamp staking counted).filter
        fun m => m.networkGroup = n.networkGroup ∧ m.key < n.key).toFinset := by
    ext m
    simp only [Set.mem_ofPred_eq, List.coe_toFinset, List.mem_filter, mem_candidates,
      decide_eq_true_eq]
  have hcount : {m | Candidate timestamp staking counted m ∧ m.networkGroup = n.networkGroup ∧
      m.key < n.key}.ncard = (candidates timestamp staking counted).countP
        fun m => m.networkGroup = n.networkGroup ∧ m.key < n.key := by
    rw [hset, Set.ncard_coe_finset, List.toFinset_card_of_nodup (hnodup.filter _),
      List.countP_eq_length_filter]
  rw [capGroups_eq, mem_firstOfGroups (fun _ _ => lt_asymm) hstrict, mem_candidates,
    List.count_nil, Nat.zero_add]
  constructor
  · rintro ⟨hcandidate, hroom⟩
    exact ⟨hcandidate, hcount ▸ hroom⟩
  · intro h
    exact ⟨h.toCandidate, hcount ▸ h.room⟩

end

end NodeEmission

end IeumChain
