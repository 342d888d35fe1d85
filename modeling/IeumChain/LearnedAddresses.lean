import Mathlib.Data.List.Basic

/-!
# Learned addresses

An address that another node reports is brought into the form in which the routing table keeps
it: without the destination at its end, and with at most one relay. Of two destinations at the
end only the last one is taken away, and the address is then not in that form yet.
-/
namespace IeumChain.LearnedAddresses

/-- A component of an address. Only relays and peers matter here. -/
inductive Protocol (PeerId Other : Type)
  | p2pCircuit
  | p2p (peer : PeerId)
  | other (protocol : Other)
  deriving Repr, DecidableEq

abbrev Multiaddr (PeerId Other : Type) := List (Protocol PeerId Other)

section
variable {PeerId Other : Type}

def Protocol.isCircuit : Protocol PeerId Other → Bool
  | .p2pCircuit => true
  | _ => false

def circuits (address : Multiaddr PeerId Other) : ℕ := (address.filter (·.isCircuit)).length

variable [DecidableEq PeerId]

/-- The components that are left, with what has been kept of the earlier ones. The last component
is the one behind which nothing is left. -/
def normalizeLoop (peerId : PeerId) :
    Bool → Multiaddr PeerId Other → Multiaddr PeerId Other → Option (Multiaddr PeerId Other)
  | _, normalized, [] => some normalized
  | _, normalized, .p2pCircuit :: rest =>
      normalizeLoop peerId true (normalized ++ [.p2pCircuit]) rest
  | afterCircuit, normalized, .p2p found :: rest =>
      if found = peerId ∧ rest = [] then normalizeLoop peerId afterCircuit normalized rest
      else if afterCircuit then none
      else normalizeLoop peerId afterCircuit (normalized ++ [.p2p found]) rest
  | afterCircuit, normalized, .other protocol :: rest =>
      normalizeLoop peerId afterCircuit (normalized ++ [.other protocol]) rest

def normalizeLearnedAddress (address : Multiaddr PeerId Other) (peerId : PeerId) :
    Option (Multiaddr PeerId Other) :=
  if 1 < circuits address then none
  else do
    let normalized ← normalizeLoop peerId false [] address
    if normalized = [] then none else some normalized

/-! ## What the loop keeps -/

/-- No peer comes behind a relay. -/
def Ordered (address : Multiaddr PeerId Other) : Prop :=
  ∀ before after peer, address = before ++ .p2pCircuit :: after → .p2p peer ∉ after

/-- Without the destination at the end. -/
def withoutDestination (peerId : PeerId) : Multiaddr PeerId Other → Multiaddr PeerId Other
  | [] => []
  | .p2p found :: rest =>
      if found = peerId ∧ rest = [] then [] else .p2p found :: withoutDestination peerId rest
  | protocol :: rest => protocol :: withoutDestination peerId rest

variable {peerId : PeerId} {address : Multiaddr PeerId Other}

omit [DecidableEq PeerId] in
theorem ordered_nil : Ordered ([] : Multiaddr PeerId Other) := by
  intro before after peer h
  cases before <;> cases h

omit [DecidableEq PeerId] in
/-- The first component matters if it is a relay. -/
theorem ordered_cons {protocol : Protocol PeerId Other} :
    Ordered (protocol :: address) ↔
      (protocol = .p2pCircuit → ∀ peer, .p2p peer ∉ address) ∧ Ordered address := by
  constructor
  · intro h
    refine ⟨fun hcircuit peer => h [] address peer (by rw [hcircuit]; rfl), ?_⟩
    intro before after peer haddress
    exact h (protocol :: before) after peer (by rw [haddress]; rfl)
  · rintro ⟨hfirst, hrest⟩ before after peer haddress
    cases before with
    | nil =>
        obtain ⟨hcircuit, hafter⟩ := List.cons.inj haddress
        exact hafter ▸ hfirst hcircuit peer
    | cons first before =>
        obtain ⟨-, hbefore⟩ := List.cons.inj haddress
        exact hrest before after peer hbefore

theorem withoutDestination_concat (address : Multiaddr PeerId Other) :
    withoutDestination peerId (address ++ [.p2p peerId]) = address := by
  induction address with
  | nil => simp [withoutDestination]
  | cons protocol address ih =>
      cases protocol <;> simp [withoutDestination, ih]

theorem withoutDestination_of_not_suffix (h : ¬[.p2p peerId] <:+ address) :
    withoutDestination peerId address = address := by
  induction address with
  | nil => rfl
  | cons protocol address ih =>
      have hrest : ¬[.p2p peerId] <:+ address :=
        fun hsuffix => h (hsuffix.trans (List.suffix_cons protocol address))
      cases protocol with
      | p2pCircuit => exact congrArg (List.cons .p2pCircuit) (ih hrest)
      | p2p found =>
          have hfound : ¬(found = peerId ∧ address = []) := by
            rintro ⟨rfl, rfl⟩
            exact h (List.suffix_refl _)
          rw [withoutDestination, if_neg hfound, ih hrest]
      | other protocol => exact congrArg (List.cons (.other protocol)) (ih hrest)

/-- The loop stops where a peer comes behind a relay, and otherwise keeps all but the destination
at the end. -/
theorem normalizeLoop_eq_some {afterCircuit : Bool} {kept result : Multiaddr PeerId Other} :
    normalizeLoop peerId afterCircuit kept address = some result ↔
      (afterCircuit = true → ∀ peer, .p2p peer ∉ withoutDestination peerId address) ∧
        Ordered (withoutDestination peerId address) ∧
        kept ++ withoutDestination peerId address = result := by
  induction address generalizing afterCircuit kept with
  | nil => simp [normalizeLoop, withoutDestination, ordered_nil]
  | cons protocol address ih =>
      cases protocol with
      | p2pCircuit =>
          have hkept : withoutDestination peerId (.p2pCircuit :: address) =
              .p2pCircuit :: withoutDestination peerId address := rfl
          rw [normalizeLoop, ih, hkept, ordered_cons, List.append_assoc]
          constructor
          · rintro ⟨hnone, hordered, hresult⟩
            refine ⟨fun _ peer => ?_, ⟨fun _ => hnone rfl, hordered⟩, hresult⟩
            simpa using hnone rfl peer
          · rintro ⟨-, ⟨hnone, hordered⟩, hresult⟩
            exact ⟨fun _ => hnone rfl, hordered, hresult⟩
      | p2p found =>
          rw [normalizeLoop, withoutDestination]
          split_ifs with hlast hafter
          · simp [hlast.2, normalizeLoop, ordered_nil]
          · refine iff_of_false nofun fun h => ?_
            exact h.1 hafter found (List.mem_cons_self ..)
          · simp [ih, hafter, ordered_cons]
      | other protocol => simp [normalizeLoop, withoutDestination, ordered_cons, ih]

/-! ## Normal addresses -/

theorem normalizeLearnedAddress_eq_some {result : Multiaddr PeerId Other} :
    normalizeLearnedAddress address peerId = some result ↔
      circuits address ≤ 1 ∧ Ordered (withoutDestination peerId address) ∧ result ≠ [] ∧
        withoutDestination peerId address = result := by
  unfold normalizeLearnedAddress
  split_ifs with hcircuits
  · exact iff_of_false nofun fun h => absurd h.1 (by omega)
  · rw [Option.bind_eq_bind, Option.bind_eq_some_iff]
    constructor
    · rintro ⟨normalized, hloop, hresult⟩
      obtain ⟨-, hordered, hnormalized⟩ := normalizeLoop_eq_some.1 hloop
      split_ifs at hresult with hempty
      cases hresult
      exact ⟨by omega, hordered, hempty, hnormalized⟩
    · rintro ⟨-, hordered, hempty, hresult⟩
      refine ⟨result, normalizeLoop_eq_some.2 ⟨nofun, hordered, hresult⟩, ?_⟩
      rw [if_neg hempty]

/-- What the routing table may expect of an address. -/
structure Normal (peerId : PeerId) (address : Multiaddr PeerId Other) : Prop where
  oneRelay : circuits address ≤ 1
  noDestination : ¬[.p2p peerId] <:+ address
  ordered : Ordered address
  stable : normalizeLearnedAddress address peerId = some address

/-- The address names no relay, and the destination twice at its end. -/
def Doubled (peerId : PeerId) (address : Multiaddr PeerId Other) : Prop :=
  .p2pCircuit ∉ address ∧ [.p2p peerId, .p2p peerId] <:+ address

theorem circuits_withoutDestination_le (peerId : PeerId) (address : Multiaddr PeerId Other) :
    circuits (withoutDestination peerId address) ≤ circuits address := by
  by_cases hsuffix : [.p2p peerId] <:+ address
  · obtain ⟨before, rfl⟩ := hsuffix
    rw [withoutDestination_concat]
    exact ((List.sublist_append_left ..).filter _).length_le
  · exact Nat.le_of_eq (congrArg circuits (withoutDestination_of_not_suffix hsuffix))

omit [DecidableEq PeerId] in
theorem ordered_of_no_relay (h : .p2pCircuit ∉ address) : Ordered address := by
  rintro before after peer rfl
  exact absurd (List.mem_append_right before (List.mem_cons_self ..)) h

omit [DecidableEq PeerId] in
/-- A peer at the end of an ordered address is not behind a relay. -/
theorem Ordered.no_relay {peer : PeerId} (h : Ordered (address ++ [.p2p peer])) :
    .p2pCircuit ∉ address ++ [.p2p peer] := by
  intro hmem
  obtain hmem | hmem := List.mem_append.1 hmem
  · obtain ⟨before, after, rfl⟩ := List.append_of_mem hmem
    refine h before (after ++ [.p2p peer]) peer (by simp) ?_
    exact List.mem_append_right after (List.mem_cons_self ..)
  · simp at hmem

/-- Only in an address that is doubled does a destination stay at the end. -/
theorem doubled_of_suffix (hordered : Ordered (withoutDestination peerId address))
    (h : [.p2p peerId] <:+ withoutDestination peerId address) : Doubled peerId address := by
  by_cases hsuffix : [.p2p peerId] <:+ address
  · obtain ⟨kept, rfl⟩ := hsuffix
    rw [withoutDestination_concat] at h hordered
    obtain ⟨before, rfl⟩ := h
    constructor
    · simpa using hordered.no_relay
    · exact ⟨before, by simp⟩
  · rw [withoutDestination_of_not_suffix hsuffix] at h
    exact absurd h hsuffix

theorem normal_of_not_doubled {result : Multiaddr PeerId Other} (h : ¬Doubled peerId address)
    (hresult : normalizeLearnedAddress address peerId = some result) : Normal peerId result := by
  obtain ⟨hcircuits, hordered, hempty, rfl⟩ := normalizeLearnedAddress_eq_some.1 hresult
  have hrelay := Nat.le_trans (circuits_withoutDestination_le peerId address) hcircuits
  have hend := mt (doubled_of_suffix hordered) h
  refine ⟨hrelay, hend, hordered, normalizeLearnedAddress_eq_some.2 ?_⟩
  rw [withoutDestination_of_not_suffix hend]
  exact ⟨hrelay, hordered, hempty, rfl⟩

omit [DecidableEq PeerId] in
theorem circuits_eq_zero (h : .p2pCircuit ∉ address) : circuits address = 0 := by
  rw [circuits, List.length_eq_zero_iff, List.filter_eq_nil_iff]
  rintro (_ | _ | _) hmem
  · exact absurd hmem h
  · exact Bool.false_ne_true
  · exact Bool.false_ne_true

/-- A doubled address keeps one of its two destinations. -/
theorem exists_abnormal (h : Doubled peerId address) :
    ∃ result, normalizeLearnedAddress address peerId = some result ∧
      [.p2p peerId] <:+ result := by
  obtain ⟨hrelay, before, rfl⟩ := h
  have hsplit : before ++ [.p2p peerId, .p2p peerId] =
      (before ++ [.p2p peerId]) ++ [.p2p peerId] := by simp
  have hkept : .p2pCircuit ∉ before ++ [.p2p peerId] := by
    intro hmem
    exact hrelay (by rw [hsplit]; exact List.mem_append_left _ hmem)
  refine ⟨before ++ [.p2p peerId], normalizeLearnedAddress_eq_some.2 ⟨?_, ?_, ?_, ?_⟩,
    List.suffix_append ..⟩
  · rw [circuits_eq_zero hrelay]
    exact Nat.zero_le 1
  · rw [hsplit, withoutDestination_concat]
    exact ordered_of_no_relay hkept
  · exact List.append_ne_nil_of_right_ne_nil before (List.cons_ne_nil _ _)
  · rw [hsplit, withoutDestination_concat]

/-- Whatever an address is normalized to is normal, except where the address is doubled. -/
theorem normalized_iff_not_doubled (address : Multiaddr PeerId Other) (peerId : PeerId) :
    (∀ result, normalizeLearnedAddress address peerId = some result → Normal peerId result) ↔
      ¬Doubled peerId address := by
  constructor
  · intro hnormal hdoubled
    obtain ⟨result, hresult, hend⟩ := exists_abnormal hdoubled
    exact (hnormal result hresult).noDestination hend
  · intro h result hresult
    exact normal_of_not_doubled h hresult

/-- The second destination falls away only when the address is normalized again. -/
theorem doubled_not_normal :
    normalizeLearnedAddress [.other "ip4/1.2.3.4", .p2p 7, .p2p 7] 7 =
        some [.other "ip4/1.2.3.4", .p2p 7] ∧
      normalizeLearnedAddress [.other "ip4/1.2.3.4", .p2p 7] 7 = some [.other "ip4/1.2.3.4"] ∧
      ¬∀ result, normalizeLearnedAddress [.other "ip4/1.2.3.4", .p2p 7, .p2p 7] 7 = some result →
        Normal 7 result := by
  refine ⟨rfl, rfl, fun h => ?_⟩
  exact (h [.other "ip4/1.2.3.4", .p2p 7] rfl).noDestination ⟨[.other "ip4/1.2.3.4"], rfl⟩

end

end IeumChain.LearnedAddresses
