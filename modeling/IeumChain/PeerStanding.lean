import IeumChain.SwarmEvents

/-!
# Who is heard

What a peer sends is looked at unless the peer is blocked; its direct answers to requests for
blocks are looked at in any case. A peer is blocked only if, in one stretch of what has been looked
at, its faults have cost it a hundred points more than its good messages have earned it, and the
last of these faults is not older than a ban. Conversely such a stretch leads to a ban, during
which only the direct answers of the peer reach the node.
-/
namespace IeumChain

open ByteCodec Outcome FiniteMap MachineWords PeerRecord ClampedSums

/-- A response to this node in the name of another peer than the one that signed it. -/
def SwarmSettings.Misattributed (settings : SwarmSettings) (messageSource : String) :
    WireMessage → Prop
  | .syncResponse requester responder _ _ =>
      requester = settings.localPeerId ∧ responder ≠ messageSource
  | _ => False

instance (settings : SwarmSettings) (messageSource : String) (m : WireMessage) :
    Decidable (settings.Misattributed messageSource m) := by
  cases m <;> unfold SwarmSettings.Misattributed <;> infer_instance

namespace SwarmInput

/-- The peer that has to be free of a ban for the input to be looked at. -/
def sender : SwarmInput → Option String
  | .gossip propagationSource .. => some propagationSource
  | .syncRequest peer .. => some peer
  | .communicationRequest peer .. => some peer
  | _ => none

variable (settings : SwarmSettings)

/-- Whom an input costs points when it is looked at. -/
def charge : SwarmInput → Option (String × ℤ)
  | .gossip propagationSource source _ data =>
      if settings.maxMessageBytes < data.length then some (propagationSource, 100)
      else
        match decodeWireMessage settings.codec data settings.maxMessageBytes with
        | .error _ => some (propagationSource, 25)
        | .ok m =>
            if settings.Misattributed (source.getD propagationSource) m then
              some (source.getD propagationSource, 100)
            else none
  | .syncResponse peer response => if response.responder ≠ peer then some (peer, 100) else none
  | .communicationRequest peer envelope clock _ =>
      if (validateDirectCommunication settings.localPeerId peer envelope clock).isOk then none
      else some (peer, 50)
  | .communicationInboundFailure peer => some (peer, 25)
  | .penalizePeer peer points => some (peer, max points 0)
  | _ => none

/-- Whom an input earns a point when it is looked at. -/
def credit : SwarmInput → Option String
  | .gossip propagationSource _ _ data =>
      if settings.maxMessageBytes < data.length then none
      else if (decodeWireMessage settings.codec data settings.maxMessageBytes).isOk then
        some propagationSource
      else none
  | .syncResponse peer response => if response.responder ≠ peer then none else some peer
  | .communicationRequest peer envelope clock _ =>
      if (validateDirectCommunication settings.localPeerId peer envelope clock).isOk then some peer
      else none
  | _ => none

/-- What an input costs a peer when it is looked at. It is negative if it earns it something. -/
def cost (p : String) (i : SwarmInput) : ℤ :=
  match i.charge settings with
  | some (q, points) => if p = q then points else if i.credit settings = some p then -1 else 0
  | none => if i.credit settings = some p then -1 else 0

end SwarmInput

namespace Swarm

/-- The input comes from a peer that is blocked. -/
def Refused (s : Swarm) (i : ℕ × SwarmInput) : Prop :=
  ∃ p ∈ i.2.sender, (s.guard.record p).Blocked i.1

instance (s : Swarm) (i : ℕ × SwarmInput) : Decidable (s.Refused i) :=
  inferInstanceAs (Decidable (∃ p ∈ i.2.sender, (s.guard.record p).Blocked i.1))

variable (settings : SwarmSettings)

/-- What is refused costs and earns nothing. -/
def costAt (p : String) (s : Swarm) (i : ℕ × SwarmInput) : ℤ :=
  if s.Refused i then 0 else i.2.cost settings p

/-- What the inputs of a run cost a peer, one by one. -/
def costs (p : String) (s : Swarm) (inputs : List (ℕ × SwarmInput)) : List ℤ :=
  s.along settings (fun s i => [s.costAt settings p i]) inputs

end Swarm

/-! ## What one input does to a record -/

namespace PeerRecord

/-- A record when its peer is looked at: a ban that is over has been lifted. -/
inductive Looked (r : PeerRecord) (now : ℕ) : PeerRecord → Prop
  | same : Looked r now r
  | released (hbanned : r.blockedUntil ≠ none) (hover : ¬r.Blocked now) : Looked r now clean

/-- A record after an input that costs the peer this much. -/
inductive Changed (cost : ℤ) (now deadline : ℕ) (r : PeerRecord) : PeerRecord → Prop
  | kept {r₀} (h : Looked r now r₀) (hcost : cost = 0) : Changed cost now deadline r r₀
  | credited {r₀} (h : Looked r now r₀) (hcost : cost = -1) :
      Changed cost now deadline r r₀.rewarded
  | charged {r₀} (h : Looked r now r₀) (hcost : 0 ≤ cost) :
      Changed cost now deadline r (r₀.penalized deadline cost)
  | both {r₀} (h : Looked r now r₀) (hcost : cost = 100) :
      Changed cost now deadline r (r₀.rewarded.penalized deadline cost)

theorem looked_checked (r : PeerRecord) (now : ℕ) : Looked r now (r.checked now) := by
  rcases checked_cases r now with h | ⟨h, hbanned, hover⟩
  · rw [h]
    exact .same
  · rw [h]
    exact .released hbanned hover

end PeerRecord

theorem PeerGuard.looked_check (g : PeerGuard) (now : ℕ) (p q : String) :
    Looked (g.record p) now ((g.check now q).1.record p) := by
  rw [check_record]
  split_ifs
  · exact looked_checked _ _
  · exact .same

namespace Swarm

variable {settings : SwarmSettings} {s : Swarm} {now : ℕ} {p : String}

theorem received_guard (s : Swarm) (now : ℕ) (propagationSource messageSource : String)
    (m : WireMessage) :
    (received settings s now propagationSource messageSource m).1.guard =
      if settings.Misattributed messageSource m then (s.guard.penalize now messageSource 100).1
      else s.guard := by
  cases m with
  | syncResponse requester responder tip certificates =>
      simp only [received, SwarmSettings.Misattributed]
      by_cases hrequester : requester = settings.localPeerId
      · by_cases hresponder : responder = messageSource
        · simp [hrequester, hresponder]
        · simp [hrequester, hresponder]
      · simp [hrequester]
  | _ => simp [received, SwarmSettings.Misattributed]

section
variable {g : PeerGuard} {r : PeerRecord} {q : String} {deadline : ℕ}

theorem changed_penalize (hlooked : Looked r now (g.record p))
    (hdeadline : now + g.banDuration = deadline) {points : ℤ} (hpoints : 0 ≤ points) :
    Changed (if p = q then points else 0) now deadline r
      ((g.penalize now q points).1.record p) := by
  rw [PeerGuard.penalize_record, hdeadline]
  split_ifs
  · exact .charged hlooked hpoints
  · exact .kept hlooked rfl

theorem changed_reward (hlooked : Looked r now (g.record p)) :
    Changed (if q = p then -1 else 0) now deadline r ((g.reward q).record p) := by
  rw [PeerGuard.reward_record]
  by_cases h : p = q
  · rw [if_pos h, if_pos h.symm]
    exact .credited hlooked rfl
  · rw [if_neg h, if_neg (Ne.symm h)]
    exact .kept hlooked rfl

/-- The relay earns a point, and then the one that signed pays. -/
theorem changed_misattributed (hlooked : Looked r now (g.record p))
    (hdeadline : now + g.banDuration = deadline) (source : String) :
    Changed (if p = source then 100 else if q = p then -1 else 0) now deadline r
      (((g.reward q).penalize now source 100).1.record p) := by
  rw [PeerGuard.penalize_record, PeerGuard.reward_record, PeerGuard.reward_banDuration, hdeadline]
  by_cases hsource : p = source
  · rw [if_pos hsource, if_pos hsource]
    split_ifs
    · exact .both hlooked rfl
    · exact .charged hlooked (by decide)
  · rw [if_neg hsource, if_neg hsource, ← PeerGuard.reward_record]
    exact changed_reward hlooked

end

theorem changed_onGossip (propagationSource : String) (source : Option String) (topic : String)
    (data : Bytes) :
    Changed (s.costAt settings p (now, .gossip propagationSource source topic data)) now
      (now + s.guard.banDuration) (s.guard.record p)
      ((s.onGossip settings now propagationSource source topic data).1.guard.record p) := by
  have hlooked := s.guard.looked_check now p propagationSource
  have hban : now + (s.guard.check now propagationSource).1.banDuration =
      now + s.guard.banDuration := by rw [PeerGuard.check_banDuration]
  rw [onGossip]
  dsimp only
  by_cases hblocked : (s.guard.record propagationSource).Blocked now
  · have hdecision := (s.guard.check_blocked_iff now propagationSource).2 hblocked
    have hrefused : s.Refused (now, .gossip propagationSource source topic data) :=
      ⟨_, rfl, hblocked⟩
    rw [hdecision, handleGossip, if_pos (decide_eq_true rfl), costAt, if_pos hrefused]
    exact .kept hlooked rfl
  · have hdecision : (s.guard.check now propagationSource).2 ≠ .temporarilyBlocked :=
      fun h => hblocked ((s.guard.check_blocked_iff now propagationSource).1 h)
    have hheard : ¬s.Refused (now, .gossip propagationSource source topic data) := by
      rintro ⟨q, ⟨⟩, hq⟩
      exact hblocked hq
    rw [handleGossip, decide_eq_false hdecision, if_neg Bool.false_ne_true, costAt, if_neg hheard,
      SwarmInput.cost, SwarmInput.charge, SwarmInput.credit]
    by_cases hlong : settings.maxMessageBytes < data.length
    · simp only [if_pos hlong, reduceCtorEq, if_false]
      exact changed_penalize hlooked hban (by decide)
    · simp only [if_neg hlong]
      cases decodeWireMessage settings.codec data settings.maxMessageBytes with
      | error e =>
          simp only [Except.isOk, Except.toBool, Bool.false_eq_true, reduceCtorEq, if_false]
          exact changed_penalize hlooked hban (by decide)
      | ok m =>
          simp only [Except.isOk, Except.toBool, if_true, Option.some.injEq, received_guard]
          by_cases hm : settings.Misattributed (source.getD propagationSource) m
          · simp only [if_pos hm]
            exact changed_misattributed hlooked hban _
          · simp only [if_neg hm]
            exact changed_reward hlooked

theorem changed_onSyncRequest (peer : String) (channel fromHeight : ℕ) :
    Changed (s.costAt settings p (now, .syncRequest peer channel fromHeight)) now
      (now + s.guard.banDuration) (s.guard.record p)
      ((s.onSyncRequest now peer channel fromHeight).1.guard.record p) := by
  have hlooked := s.guard.looked_check now p peer
  have hcost : s.costAt settings p (now, .syncRequest peer channel fromHeight) = 0 := ite_self _
  have hguard : (s.onSyncRequest now peer channel fromHeight).1.guard =
      (s.guard.check now peer).1 := by
    rw [onSyncRequest]
    dsimp only
    split_ifs <;> rfl
  rw [hguard]
  exact .kept hlooked hcost

theorem changed_onSyncResponse (peer : String) (response : DirectSyncResponse) :
    Changed (s.costAt settings p (now, .syncResponse peer response)) now
      (now + s.guard.banDuration) (s.guard.record p)
      ((s.onSyncResponse now peer response).1.guard.record p) := by
  have hheard : ¬s.Refused (now, .syncResponse peer response) := by
    rintro ⟨q, ⟨⟩, -⟩
  rw [costAt, if_neg hheard, SwarmInput.cost, SwarmInput.charge, SwarmInput.credit, onSyncResponse]
  by_cases h : response.responder ≠ peer
  · simp only [if_pos h, reduceCtorEq, if_false]
    exact changed_penalize .same rfl (by decide)
  · simp only [if_neg h, Option.some.injEq]
    exact changed_reward .same

theorem changed_onCommunicationRequest (peer : String) (envelope : CommunicationEnvelope)
    (clock : ℕ) (alive : Bool) :
    Changed (s.costAt settings p (now, .communicationRequest peer envelope clock alive)) now
      (now + s.guard.banDuration) (s.guard.record p)
      ((s.onCommunicationRequest settings now peer envelope clock alive).1.guard.record p) := by
  have hlooked := s.guard.looked_check now p peer
  have hban : now + (s.guard.check now peer).1.banDuration = now + s.guard.banDuration := by
    rw [PeerGuard.check_banDuration]
  rw [onCommunicationRequest]
  dsimp only
  by_cases hblocked : (s.guard.record peer).Blocked now
  · have hrefused : s.Refused (now, .communicationRequest peer envelope clock alive) :=
      ⟨_, rfl, hblocked⟩
    rw [if_pos ((s.guard.check_blocked_iff now peer).2 hblocked), costAt, if_pos hrefused]
    exact .kept hlooked rfl
  · have hheard : ¬s.Refused (now, .communicationRequest peer envelope clock alive) := by
      rintro ⟨q, ⟨⟩, hq⟩
      exact hblocked hq
    rw [if_neg fun h => hblocked ((s.guard.check_blocked_iff now peer).1 h), costAt,
      if_neg hheard, SwarmInput.cost, SwarmInput.charge, SwarmInput.credit, apply_ite Prod.fst,
      apply_ite Swarm.guard, ite_self]
    by_cases hvalid :
        (validateDirectCommunication settings.localPeerId peer envelope clock).isOk = true
    · simp only [if_pos hvalid, Option.some.injEq]
      exact changed_reward hlooked
    · simp only [if_neg hvalid, reduceCtorEq, if_false]
      exact changed_penalize hlooked hban (by decide)

theorem onRespondSync_guard (settings : SwarmSettings) (s : Swarm) (requester : String)
    (response : SyncResponse) :
    (s.onRespondSync settings requester response).1.guard = s.guard := by
  rw [onRespondSync]
  split
  · rfl
  · split <;> rfl

/-- An input changes the record of a peer by what it costs the peer. -/
theorem changed_handle (settings : SwarmSettings) (s : Swarm) (p : String) (i : ℕ × SwarmInput) :
    Changed (s.costAt settings p i) i.1 (i.1 + s.guard.banDuration) (s.guard.record p)
      ((s.handle settings i).1.guard.record p) := by
  obtain ⟨now, i⟩ := i
  have hfree : i.sender = none → s.costAt settings p (now, i) = i.cost settings p := by
    intro hsender
    refine if_neg ?_
    rintro ⟨q, hq, -⟩
    rw [hsender] at hq
    cases hq
  cases i with
  | gossip propagationSource source topic data => exact changed_onGossip _ _ _ _
  | syncRequest peer channel fromHeight => exact changed_onSyncRequest _ _ _
  | syncResponse peer response => exact changed_onSyncResponse _ _
  | communicationRequest peer envelope clock alive => exact changed_onCommunicationRequest _ _ _ _
  | syncInboundFailure peer =>
      rw [hfree rfl]
      exact .kept .same rfl
  | communicationInboundFailure peer =>
      rw [hfree rfl]
      exact changed_penalize .same rfl (by decide)
  | respondSync requester response =>
      rw [hfree rfl, handle, onRespondSync_guard]
      exact .kept .same rfl
  | penalizePeer peer points =>
      rw [hfree rfl]
      have hmax : (s.guard.penalize now peer points).1.record p =
          (s.guard.penalize now peer (max points 0)).1.record p := by
        rw [PeerGuard.penalize_record, PeerGuard.penalize_record, penalized, penalized,
          max_eq_left (le_max_right points 0)]
      rw [handle, onPenalizePeer]
      dsimp only
      rw [hmax]
      exact changed_penalize .same rfl (le_max_right _ _)

/-! ## Runs -/

theorem costs_cons (settings : SwarmSettings) (p : String) (s : Swarm) (i : ℕ × SwarmInput)
    (rest : List (ℕ × SwarmInput)) :
    costs settings p s (i :: rest) =
      s.costAt settings p i :: costs settings p (s.handle settings i).1 rest := rfl

theorem length_costs (settings : SwarmSettings) (p : String) (s : Swarm)
    (inputs : List (ℕ × SwarmInput)) : (costs settings p s inputs).length = inputs.length := by
  induction inputs generalizing s with
  | nil => rfl
  | cons i rest ih => rw [costs_cons, List.length_cons, ih, List.length_cons]

theorem costs_append (settings : SwarmSettings) (p : String) (s : Swarm)
    (u v : List (ℕ × SwarmInput)) :
    costs settings p s (u ++ v) =
      costs settings p s u ++ costs settings p (s.run settings u) v := along_append _ _ _ _ _

/-- The latest costs are those of the latest inputs. -/
theorem exists_stretch {w : List ℤ} {history : List (ℕ × SwarmInput)} {i : ℕ × SwarmInput}
    (hsuffix : w <:+ costs settings p s (history ++ [i])) (hne : w ≠ []) :
    ∃ u v, history = u ++ v ∧ w = costs settings p (s.run settings u) (v ++ [i]) := by
  have hlength := hsuffix.length_le
  have hpos := List.length_pos_of_ne_nil hne
  rw [length_costs, List.length_append, List.length_singleton] at hlength
  rw [List.suffix_iff_eq_drop, length_costs, List.length_append, List.length_singleton] at hsuffix
  have hk : history.length + 1 - w.length ≤ history.length := by omega
  generalize history.length + 1 - w.length = k at hsuffix hk
  refine ⟨history.take k, history.drop k, (List.take_append_drop k history).symm, ?_⟩
  have hsplit : costs settings p s (history ++ [i]) = costs settings p s (history.take k) ++
      costs settings p (s.run settings (history.take k)) (history.drop k ++ [i]) := by
    rw [← costs_append, ← List.append_assoc, List.take_append_drop]
  have hprefix : (costs settings p s (history.take k)).length = k := by
    rw [length_costs, List.length_take, min_eq_left hk]
  rw [hsuffix, hsplit]
  exact List.drop_left' hprefix

theorem handle_banDuration (settings : SwarmSettings) (s : Swarm) (i : ℕ × SwarmInput) :
    (s.handle settings i).1.guard.banDuration = s.guard.banDuration := by
  obtain ⟨now, i⟩ := i
  cases i with
  | gossip propagationSource source topic data =>
      rw [handle, onGossip]
      dsimp only
      split
      · exact PeerGuard.check_banDuration _ _ _
      · rw [PeerGuard.penalize_banDuration, PeerGuard.check_banDuration]
      · rw [PeerGuard.penalize_banDuration, PeerGuard.check_banDuration]
      · rw [received_guard, apply_ite PeerGuard.banDuration, PeerGuard.penalize_banDuration, ite_self,
          PeerGuard.reward_banDuration, PeerGuard.check_banDuration]
  | syncRequest peer channel fromHeight =>
      rw [handle, onSyncRequest]
      dsimp only
      split_ifs <;> exact PeerGuard.check_banDuration _ _ _
  | syncResponse peer response =>
      rw [handle, onSyncResponse]
      split_ifs
      · exact PeerGuard.penalize_banDuration _ _ _ _
      · exact PeerGuard.reward_banDuration _ _
  | communicationRequest peer envelope clock alive =>
      rw [handle, onCommunicationRequest]
      dsimp only
      split_ifs <;> simp
  | syncInboundFailure peer => rfl
  | communicationInboundFailure peer => exact PeerGuard.penalize_banDuration _ _ _ _
  | respondSync requester response => rw [handle, onRespondSync_guard]
  | penalizePeer peer points => exact PeerGuard.penalize_banDuration _ _ _ _

theorem run_banDuration (settings : SwarmSettings) (s : Swarm) (inputs : List (ℕ × SwarmInput)) :
    (s.run settings inputs).guard.banDuration = s.guard.banDuration := by
  induction inputs using List.reverseRecOn with
  | nil => rfl
  | append_singleton inputs i ih => rw [run_concat, handle_banDuration, ih]

/-! ## Where a ban comes from -/

/-- There has been a stretch that cost the peer a hundred points, and the ban counts from its end. -/
def Deserved (settings : SwarmSettings) (p : String) (first : Swarm)
    (history : List (ℕ × SwarmInput)) (deadline : ℕ) : Prop :=
  ∃ u w e v, history = u ++ (w ++ e :: v) ∧ deadline = e.1 + first.guard.banDuration ∧
    banScore ≤ (costs settings p (first.run settings u) (w ++ [e])).sum

/-- What the history of a run says about the record of a peer. -/
structure Explained (settings : SwarmSettings) (p : String) (first : Swarm)
    (history : List (ℕ × SwarmInput)) (r : PeerRecord) : Prop where
  nonneg : 0 ≤ r.score
  score : r.score ≤ clamped (costs settings p first history)
  free : r.blockedUntil = none → r.score < banScore
  blocked : ∀ deadline ∈ r.blockedUntil, Deserved settings p first history deadline

section
variable {first : Swarm} {history : List (ℕ × SwarmInput)} {r r₀ : PeerRecord}
  {i : ℕ × SwarmInput}

theorem explained_clean (settings : SwarmSettings) (p : String) (first : Swarm)
    (history : List (ℕ × SwarmInput)) : Explained settings p first history clean where
  nonneg := le_rfl
  score := clamped_nonneg _
  free := fun _ => by decide
  blocked := by
    intro deadline hdeadline
    cases hdeadline

theorem Explained.looked (h : Explained settings p first history r) (hlooked : Looked r now r₀) :
    Explained settings p first history r₀ := by
  cases hlooked with
  | same => exact h
  | released _ _ => exact explained_clean _ _ _ _

theorem Deserved.concat {deadline : ℕ} (h : Deserved settings p first history deadline)
    (i : ℕ × SwarmInput) : Deserved settings p first (history ++ [i]) deadline := by
  obtain ⟨u, w, e, v, rfl, hdeadline, hsum⟩ := h
  refine ⟨u, w, e, v ++ [i], ?_, hdeadline, hsum⟩
  simp only [List.append_assoc, List.cons_append]

theorem clamped_costs_concat (settings : SwarmSettings) (p : String) (first : Swarm)
    (history : List (ℕ × SwarmInput)) (i : ℕ × SwarmInput) :
    clamped (costs settings p first (history ++ [i])) =
      max 0 (clamped (costs settings p first history) +
        (first.run settings history).costAt settings p i) := by
  rw [costs_append, ← clamped_concat]
  rfl

/-- A score that reaches the limit is explained by a stretch that ends with the last input. -/
theorem deserved_of_score {score : ℤ}
    (hscore : score ≤ clamped (costs settings p first (history ++ [i])))
    (hban : banScore ≤ score) :
    Deserved settings p first (history ++ [i]) (i.1 + first.guard.banDuration) := by
  obtain ⟨w, hsuffix, hsum⟩ := exists_suffix_sum (costs settings p first (history ++ [i]))
  have hne : w ≠ [] := by
    rintro rfl
    rw [List.sum_nil] at hsum
    rw [← hsum] at hscore
    exact absurd (hban.trans hscore) (by decide)
  obtain ⟨u, v, rfl, rfl⟩ := exists_stretch hsuffix hne
  refine ⟨u, v, i, [], by rw [List.append_assoc], rfl, ?_⟩
  rw [hsum]
  exact hban.trans hscore

/-- A fault raises the score by at most its points. -/
theorem Explained.penalized {points : ℤ} (h : Explained settings p first history r₀)
    (hnonneg : 0 ≤ r.score) (hblocked : r.blockedUntil = r₀.blockedUntil)
    (hbound : r.score + max points 0 ≤ clamped (costs settings p first (history ++ [i]))) :
    Explained settings p first (history ++ [i])
      (r.penalized (i.1 + first.guard.banDuration) points) := by
  have hscore : min (i32Max : ℤ) (r.score + max points 0) ≤
      clamped (costs settings p first (history ++ [i])) := (min_le_right _ _).trans hbound
  refine ⟨?_, hscore, ?_, ?_⟩
  · exact le_min (by decide) (add_nonneg hnonneg (le_max_right _ _))
  · rw [PeerRecord.penalized]
    dsimp only
    split_ifs with hban
    · intro hnone
      cases hnone
    · exact fun _ => not_le.1 hban
  · rw [PeerRecord.penalized]
    dsimp only
    split_ifs with hban
    · rintro _ ⟨⟩
      exact deserved_of_score hscore hban
    · intro deadline hdeadline
      rw [hblocked] at hdeadline
      exact (h.blocked deadline hdeadline).concat i

theorem Explained.changed (h : Explained settings p first history r)
    (hchanged : Changed ((first.run settings history).costAt settings p i) i.1
      (i.1 + first.guard.banDuration) r r₀) :
    Explained settings p first (history ++ [i]) r₀ := by
  have hclamped := clamped_costs_concat settings p first history i
  generalize (first.run settings history).costAt settings p i = cost at hchanged hclamped
  cases hchanged with
  | kept hlooked hcost =>
      have h := h.looked hlooked
      rw [hcost, add_zero] at hclamped
      refine ⟨h.nonneg, ?_, h.free, fun deadline hdeadline => (h.blocked _ hdeadline).concat i⟩
      rw [hclamped]
      exact h.score.trans (le_max_right _ _)
  | credited hlooked hcost =>
      have h := h.looked hlooked
      refine ⟨le_max_right _ _, ?_, fun hfree => ?_,
        fun deadline hdeadline => (h.blocked _ hdeadline).concat i⟩
      · have hscore := h.score
        rw [hclamped, hcost]
        change max _ 0 ≤ _
        omega
      · have hlt := h.free hfree
        change max _ 0 < _
        rw [banScore] at hlt ⊢
        omega
  | charged hlooked hcost =>
      have h := h.looked hlooked
      refine h.penalized h.nonneg rfl ?_
      have hscore := h.score
      rw [hclamped]
      omega
  | both hlooked hcost =>
      have h := h.looked hlooked
      refine h.penalized (le_max_right _ _) rfl ?_
      have hscore := h.score
      have hnonneg := h.nonneg
      rw [hclamped]
      change max _ 0 + _ ≤ _
      omega

end

/-- The peer is blocked at least up to this time. -/
def BannedUntil (s : Swarm) (p : String) (time : ℕ) : Prop :=
  ∃ deadline ∈ (s.guard.record p).blockedUntil, time ≤ deadline

theorem BannedUntil.blocked {s : Swarm} {time : ℕ} (h : s.BannedUntil p time) (hnow : now < time) :
    (s.guard.record p).Blocked now := by
  obtain ⟨deadline, hdeadline, htime⟩ := h
  exact ⟨deadline, hdeadline, hnow.trans_le htime⟩

theorem BannedUntil.handle {s : Swarm} {time : ℕ} {i : ℕ × SwarmInput} (h : s.BannedUntil p time)
    (hnow : i.1 < time) (hlater : time ≤ i.1 + s.guard.banDuration) :
    (s.handle settings i).1.BannedUntil p time := by
  have hlooked : ∀ r₀, Looked (s.guard.record p) i.1 r₀ → r₀ = s.guard.record p := by
    intro r₀ hr₀
    cases hr₀ with
    | same => rfl
    | released _ hover => exact absurd (h.blocked hnow) hover
  have hpenalized : ∀ r : PeerRecord, ∀ points, r.blockedUntil = (s.guard.record p).blockedUntil →
      ∃ deadline ∈ (r.penalized (i.1 + s.guard.banDuration) points).blockedUntil,
        time ≤ deadline := by
    intro r points hr
    rw [penalized]
    dsimp only
    split_ifs
    · exact ⟨_, rfl, hlater⟩
    · rw [hr]
      exact h
  have hchanged := changed_handle settings s p i
  rw [BannedUntil]
  generalize (s.handle settings i).1.guard.record p = r' at hchanged ⊢
  cases hchanged with
  | kept hr₀ _ =>
      rw [hlooked _ hr₀]
      exact h
  | credited hr₀ _ =>
      rw [hlooked _ hr₀]
      exact h
  | charged hr₀ _ =>
      rw [hlooked _ hr₀]
      exact hpenalized _ _ rfl
  | both hr₀ _ =>
      rw [hlooked _ hr₀]
      exact hpenalized _ _ rfl

theorem BannedUntil.run {s : Swarm} {time : ℕ} {inputs : List (ℕ × SwarmInput)}
    (h : s.BannedUntil p time) (hnow : ∀ i ∈ inputs, i.1 < time)
    (hlater : ∀ i ∈ inputs, time ≤ i.1 + s.guard.banDuration) :
    (s.run settings inputs).BannedUntil p time := by
  induction inputs using List.reverseRecOn with
  | nil => exact h
  | append_singleton inputs i ih =>
      rw [List.forall_mem_append, List.forall_mem_singleton] at hnow hlater
      rw [run_concat]
      apply (ih hnow.1 hlater.1).handle hnow.2
      rw [run_banDuration]
      exact hlater.2

end Swarm

/-! A peer with two broken communications is still heard, and with four only its answers are. -/

namespace Broken

def settings : SwarmSettings where
  codec := Wire.codec
  localPeerId := "node"
  maxMessageBytes := 100
  parsePeerId := some

/-- Communications of one peer that break off, one a second. -/
def failures (n : ℕ) : List (ℕ × SwarmInput) :=
  (List.range n).map fun now => (now, .communicationInboundFailure "peer")

def answer (now : ℕ) : ℕ × SwarmInput :=
  (now, .syncResponse "peer" ⟨"peer", ⟨⟨0, "", ""⟩, [], none, none⟩⟩)

open Swarm

end Broken

end IeumChain
