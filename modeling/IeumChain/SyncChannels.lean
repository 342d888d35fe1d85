import IeumChain.PeerStanding

/-!
# Questions and answers of sync

Reports about tips count for the peer that made them and not for the one that passed them on.
A peer that asks directly for blocks waits on a channel, and the channels of a peer are answered
in turn.
-/
namespace IeumChain

open ByteCodec Outcome FiniteMap LatestReports

namespace Swarm

/-! ## Reports -/

/-- What an event counts for in the agreement on a tip. -/
def tipReport : SwarmOutput → Option (String × SyncTip)
  | .event (.syncReceived source response) =>
      if response.snapshot.isSome ∧ response.snapshotAttestation.isSome then none
      else some (source, response.tip)
  | _ => none

def tipReports (outputs : List SwarmOutput) : List (String × SyncTip) :=
  outputs.filterMap tipReport

/-- The peer has sent a response with this tip in its own name: over its own connection, or in a
message that it has signed. -/
def Sent (settings : SwarmSettings) (p : String) (tip : SyncTip) : SwarmInput → Prop
  | .gossip propagationSource source _ data =>
      source.getD propagationSource = p ∧ ∃ certificates,
        decodeWireMessage settings.codec data settings.maxMessageBytes =
          .ok (.syncResponse settings.localPeerId p tip certificates)
  | .syncResponse peer response =>
      peer = p ∧ response.responder = p ∧ response.response.tip = tip
  | _ => False

variable {settings : SwarmSettings} {s : Swarm}

theorem mem_tipReports_received {now : ℕ} {propagationSource messageSource : String}
    {m : WireMessage} {p : String} {tip : SyncTip}
    (h : (p, tip) ∈ tipReports (received settings s now propagationSource messageSource m).2) :
    messageSource = p ∧ ∃ certificates,
      m = .syncResponse settings.localPeerId p tip certificates := by
  cases m with
  | syncResponse requester responder reported certificates =>
      rw [received] at h
      split_ifs at h with hrequester hresponder
      · cases h
      · cases h
      · rw [not_not] at hrequester hresponder
        simp only [tipReports, tipReport, List.filterMap_cons, List.filterMap_nil, Option.isSome_none,
          Bool.false_eq_true, and_self, if_false, List.mem_singleton, Prod.mk.injEq] at h
        obtain ⟨rfl, rfl⟩ := h
        exact ⟨rfl, certificates, by rw [hrequester, hresponder]⟩
  | _ => cases h

theorem sent_of_mem_tipReports {i : ℕ × SwarmInput} {p : String} {tip : SyncTip}
    (h : (p, tip) ∈ tipReports (s.handle settings i).2) : Sent settings p tip i.2 := by
  obtain ⟨now, i⟩ := i
  cases i with
  | gossip propagationSource source topic data =>
      rw [handle, onGossip] at h
      dsimp only at h
      split at h
      · cases h
      · cases h
      · cases h
      · next message hmessage =>
          obtain ⟨hsource, certificates, rfl⟩ := mem_tipReports_received h
          refine ⟨hsource, certificates, ?_⟩
          rw [handleGossip] at hmessage
          split_ifs at hmessage
          split at hmessage
          · next hdecode =>
              cases hmessage
              exact hdecode
          · cases hmessage
  | syncRequest peer channel fromHeight =>
      rw [handle, onSyncRequest] at h
      dsimp only at h
      split_ifs at h <;> cases h
  | syncResponse peer response =>
      rw [handle, onSyncResponse] at h
      split_ifs at h with hresponder
      · cases h
      · rw [not_not] at hresponder
        have hreport : tipReport (.event (.syncReceived peer response.response)) = some (p, tip) := by
          obtain ⟨output, houtput, hreport⟩ := List.mem_filterMap.1 h
          rw [List.mem_singleton] at houtput
          rw [houtput] at hreport
          exact hreport
        simp only [tipReport, Option.ite_none_left_eq_some, Option.some.injEq, Prod.mk.injEq]
          at hreport
        obtain ⟨-, hpeer, htip⟩ := hreport
        exact ⟨hpeer, hresponder.trans hpeer, htip⟩
  | communicationRequest peer envelope clock alive =>
      rw [handle, onCommunicationRequest] at h
      dsimp only at h
      split_ifs at h <;> cases h
  | syncInboundFailure peer => cases h
  | communicationInboundFailure peer => cases h
  | respondSync requester response =>
      rw [handle, onRespondSync] at h
      split at h
      · cases h
      · split at h <;> cases h
  | penalizePeer peer points =>
      rw [handle, onPenalizePeer] at h
      dsimp only at h
      split_ifs at h <;> cases h

/-- A tip that the node takes from its peers has been reported to it by enough peers, each in its
own name. -/
theorem quorum_of_senders (settings : SwarmSettings) (banDuration : ℕ)
    (inputs : List (ℕ × SwarmInput)) {minimumPeers : ℕ} {q : TipQuorum}
    (hnew : TipQuorum.new minimumPeers = .ok q) {reports : List (String × SyncTip)}
    {peerId : String} {tip agreed : SyncTip}
    (hreports : tipReports ((start banDuration).outputs settings inputs) =
      reports ++ [(peerId, tip)])
    (hagreed : ((q.observeAll reports).observe peerId tip).2 = some agreed) :
    ∃ peers : Finset String, 2 ≤ peers.card ∧ minimumPeers ≤ peers.card ∧
      ∀ p ∈ peers, ∃ i ∈ inputs, Sent settings p agreed i.2 := by
  obtain ⟨htwo, hobserve⟩ := TipQuorum.observe_eq_agreed hnew reports peerId tip
  have hquota : 0 < minimumPeers := by omega
  rw [hobserve, agreed_eq_some_iff hquota SyncTip.key_injective, ← hreports] at hagreed
  obtain ⟨⟨peers, hcard, hlatest⟩, -⟩ := hagreed
  refine ⟨peers, htwo.trans hcard, hcard, fun p hp => ?_⟩
  have hreport := mem_of_latest_eq_some (hlatest p hp)
  rw [tipReports, List.mem_filterMap] at hreport
  obtain ⟨output, houtput, htip⟩ := hreport
  obtain ⟨s, i, hi, hoccurs⟩ := mem_along houtput
  exact ⟨i, hi, sent_of_mem_tipReports (List.mem_filterMap.2 ⟨output, hoccurs, htip⟩)⟩

/-! ## Channels -/

/-- The channel on which an input opens a direct request of the peer. -/
def askedAt (p : String) (s : Swarm) : ℕ × SwarmInput → List ℕ
  | (now, .syncRequest peer channel _) =>
      if peer = p ∧ ¬(s.guard.record p).Blocked now then [channel] else []
  | _ => []

def answerChannel : SwarmOutput → Option ℕ
  | .answer channel _ => some channel
  | _ => none

/-- The channels that an input answers because of a request of the peer. -/
def answeredAt (settings : SwarmSettings) (p : String) (s : Swarm) (i : ℕ × SwarmInput) : List ℕ :=
  match i.2 with
  | .respondSync requester _ =>
      if settings.parsePeerId requester = some p then
        (s.handle settings i).2.filterMap answerChannel
      else []
  | _ => []

def asked (settings : SwarmSettings) (p : String) (s : Swarm) (inputs : List (ℕ × SwarmInput)) :
    List ℕ := s.along settings (askedAt p) inputs

def answered (settings : SwarmSettings) (p : String) (s : Swarm)
    (inputs : List (ℕ × SwarmInput)) : List ℕ := s.along settings (answeredAt settings p) inputs

def waiting (s : Swarm) (p : String) : List ℕ := getD s.pendingSyncResponses p []

section
variable {p : String} {now : ℕ}

theorem received_pending (s : Swarm) (now : ℕ) (propagationSource messageSource : String)
    (m : WireMessage) :
    (received settings s now propagationSource messageSource m).1.pendingSyncResponses =
      s.pendingSyncResponses := by
  cases m with
  | syncResponse requester responder tip certificates =>
      rw [received]
      split_ifs <;> rfl
  | _ => rfl

theorem waiting_onSyncRequest (peer : String) (channel fromHeight : ℕ) :
    (s.onSyncRequest now peer channel fromHeight).1.waiting p =
      s.waiting p ++ askedAt p s (now, .syncRequest peer channel fromHeight) := by
  rw [onSyncRequest, askedAt]
  dsimp only
  by_cases hblocked : (s.guard.record peer).Blocked now
  · rw [if_pos ((s.guard.check_blocked_iff now peer).2 hblocked), if_neg, List.append_nil]
    · rfl
    · rintro ⟨rfl, hfree⟩
      exact hfree hblocked
  · rw [if_neg fun h => hblocked ((s.guard.check_blocked_iff now peer).1 h), waiting]
    by_cases hpeer : peer = p
    · subst hpeer
      rw [if_pos ⟨rfl, hblocked⟩]
      exact getD_insert_self _ _ _ _
    · rw [if_neg fun h => hpeer h.1, List.append_nil]
      exact getD_insert_ne _ (Ne.symm hpeer) _ _

/-- The first of the channels of the peer that is named is answered. -/
theorem waiting_onRespondSync (requester : String) (response : SyncResponse) :
    answeredAt settings p s (now, .respondSync requester response) ++
        (s.onRespondSync settings requester response).1.waiting p = s.waiting p := by
  simp only [answeredAt, handle, onRespondSync]
  cases settings.parsePeerId requester with
  | none => rfl
  | some peer =>
      simp only [Option.some.injEq]
      cases hwaiting : getD s.pendingSyncResponses peer [] with
      | nil =>
          by_cases hpeer : peer = p
          · subst hpeer
            rw [if_pos rfl, waiting, waiting, hwaiting]
            exact getD_erase_self _ _ _
          · rw [if_neg hpeer]
            exact getD_erase_ne _ (Ne.symm hpeer) _
      | cons channel rest =>
          dsimp only
          by_cases hpeer : peer = p
          · subst hpeer
            rw [if_pos rfl, waiting, waiting, hwaiting]
            by_cases hrest : rest = []
            · rw [if_pos hrest, getD_erase_self, hrest]
              rfl
            · rw [if_neg hrest, getD_insert_self]
              rfl
          · rw [if_neg hpeer, waiting, List.nil_append]
            split_ifs
            · exact getD_erase_ne _ (Ne.symm hpeer) _
            · exact getD_insert_ne _ (Ne.symm hpeer) _ _

/-- What an input does to the channels of a peer. -/
theorem waiting_handle (settings : SwarmSettings) (s : Swarm) (p : String) (i : ℕ × SwarmInput) :
    i.2 = .syncInboundFailure p ∧ answeredAt settings p s i ++ (s.handle settings i).1.waiting p = []
        ∧ askedAt p s i = [] ∨
      answeredAt settings p s i ++ (s.handle settings i).1.waiting p =
        s.waiting p ++ askedAt p s i := by
  have hkept : ∀ i : ℕ × SwarmInput, answeredAt settings p s i = [] → askedAt p s i = [] →
      (s.handle settings i).1.pendingSyncResponses = s.pendingSyncResponses →
      answeredAt settings p s i ++ (s.handle settings i).1.waiting p =
        s.waiting p ++ askedAt p s i := by
    intro i hanswered hasked hpending
    rw [hanswered, hasked, waiting, hpending, List.nil_append, List.append_nil, waiting]
  obtain ⟨now, i⟩ := i
  cases i with
  | gossip propagationSource source topic data =>
      refine .inr (hkept _ rfl rfl ?_)
      rw [handle, onGossip]
      dsimp only
      split
      · rfl
      · rfl
      · rfl
      · exact received_pending _ _ _ _ _
  | syncRequest peer channel fromHeight => exact .inr (waiting_onSyncRequest _ _ _)
  | syncResponse peer response =>
      refine .inr (hkept _ rfl rfl ?_)
      rw [handle, onSyncResponse]
      split_ifs <;> rfl
  | communicationRequest peer envelope clock alive =>
      refine .inr (hkept _ rfl rfl ?_)
      simp only [handle, onCommunicationRequest]
      split_ifs <;> rfl
  | syncInboundFailure peer =>
      by_cases hpeer : peer = p
      · subst hpeer
        exact .inl ⟨rfl, getD_erase_self _ _ _, rfl⟩
      · refine .inr ?_
        have hasked : askedAt p s (now, .syncInboundFailure peer) = [] := rfl
        rw [hasked, List.append_nil]
        exact getD_erase_ne _ (Ne.symm hpeer) _
  | communicationInboundFailure peer => exact .inr (hkept _ rfl rfl rfl)
  | respondSync requester response =>
      refine .inr ?_
      have hasked : askedAt p s (now, .respondSync requester response) = [] := rfl
      rw [hasked, List.append_nil]
      exact waiting_onRespondSync _ _
  | penalizePeer peer points => exact .inr (hkept _ rfl rfl rfl)

/-- Only a command that names a peer answers a channel. -/
theorem answered_of_mem_outputs {i : ℕ × SwarmInput} {channel : ℕ}
    (h : channel ∈ (s.handle settings i).2.filterMap answerChannel) :
    ∃ p, channel ∈ answeredAt settings p s i := by
  obtain ⟨now, i⟩ := i
  cases i with
  | gossip propagationSource source topic data =>
      simp only [handle, onGossip] at h
      split at h
      · cases h
      · cases h
      · cases h
      · next message _ =>
          cases message with
          | syncResponse requester responder tip certificates =>
              simp only [received] at h
              split_ifs at h <;> cases h
          | _ => cases h
  | syncRequest peer channel fromHeight =>
      simp only [handle, onSyncRequest] at h
      split_ifs at h <;> cases h
  | syncResponse peer response =>
      simp only [handle, onSyncResponse] at h
      split_ifs at h <;> cases h
  | communicationRequest peer envelope clock alive =>
      simp only [handle, onCommunicationRequest] at h
      split_ifs at h <;> cases h
  | syncInboundFailure peer => cases h
  | communicationInboundFailure peer => cases h
  | respondSync requester response =>
      cases hparse : settings.parsePeerId requester with
      | none =>
          simp only [handle, onRespondSync, hparse] at h
          cases h
      | some p =>
          have hanswered : answeredAt settings p s (now, .respondSync requester response) =
              (s.handle settings (now, .respondSync requester response)).2.filterMap
                answerChannel := if_pos hparse
          exact ⟨p, by rwa [hanswered]⟩
  | penalizePeer peer points =>
      simp only [handle, onPenalizePeer] at h
      split_ifs at h <;> cases h

end

theorem answered_or_waiting (settings : SwarmSettings) (banDuration : ℕ) (p : String)
    (inputs : List (ℕ × SwarmInput)) :
    (answered settings p (start banDuration) inputs ++
        ((start banDuration).run settings inputs).waiting p).Sublist
      (asked settings p (start banDuration) inputs) ∧
    ((∀ i ∈ inputs, i.2 ≠ .syncInboundFailure p) →
      answered settings p (start banDuration) inputs ++
          ((start banDuration).run settings inputs).waiting p =
        asked settings p (start banDuration) inputs) := by
  induction inputs using List.reverseRecOn with
  | nil => exact ⟨List.Sublist.refl _, fun _ => rfl⟩
  | append_singleton inputs i ih =>
      obtain ⟨hlost, hkept⟩ := ih
      have hstep := waiting_handle settings ((start banDuration).run settings inputs) p i
      rw [answered, asked, along_concat, along_concat, run_concat, ← answered, ← asked,
        List.append_assoc]
      rcases hstep with ⟨hfailure, hnothing, hasked⟩ | hstep
      · rw [hnothing, hasked, List.append_nil, List.append_nil]
        refine ⟨(List.sublist_append_left _ _).trans hlost, fun hno => ?_⟩
        exact absurd hfailure (hno i (List.mem_append_right _ List.mem_cons_self))
      · rw [hstep, ← List.append_assoc]
        refine ⟨hlost.append_right _, fun hno => ?_⟩
        rw [hkept fun j hj => hno j (List.mem_append_left _ hj)]

/-- What has been answered of the direct requests of a peer, followed by what still waits, is what
was asked, without what was lost when a request of the peer failed. No channel is answered but for
the peer that opened it. -/
theorem answered_in_turn (settings : SwarmSettings) (banDuration : ℕ)
    (inputs : List (ℕ × SwarmInput)) :
    (∀ p,
      (answered settings p (start banDuration) inputs ++
          ((start banDuration).run settings inputs).waiting p).Sublist
        (asked settings p (start banDuration) inputs) ∧
      ((∀ i ∈ inputs, i.2 ≠ .syncInboundFailure p) →
        answered settings p (start banDuration) inputs ++
            ((start banDuration).run settings inputs).waiting p =
          asked settings p (start banDuration) inputs)) ∧
      ∀ channel ∈ ((start banDuration).outputs settings inputs).filterMap answerChannel,
        ∃ p, channel ∈ asked settings p (start banDuration) inputs := by
  refine ⟨fun p => answered_or_waiting settings banDuration p inputs, fun channel hchannel => ?_⟩
  obtain ⟨p, hp⟩ : ∃ p, channel ∈ answered settings p (start banDuration) inputs := by
    induction inputs using List.reverseRecOn with
    | nil => cases hchannel
    | append_singleton inputs i ih =>
        rw [outputs, along_concat, ← outputs, List.filterMap_append, List.mem_append] at hchannel
        rcases hchannel with hchannel | hchannel
        · obtain ⟨p, hp⟩ := ih hchannel
          refine ⟨p, ?_⟩
          rw [answered, along_concat]
          exact List.mem_append_left _ hp
        · obtain ⟨p, hp⟩ := answered_of_mem_outputs hchannel
          refine ⟨p, ?_⟩
          rw [answered, along_concat]
          exact List.mem_append_right _ hp
  refine ⟨p, (answered_or_waiting settings banDuration p inputs).1.subset ?_⟩
  exact List.mem_append_left _ hp

end Swarm

/-! Two peers answer directly and agree. -/

namespace Sample

open Swarm

def settings : SwarmSettings where
  codec := Wire.codec
  localPeerId := "node"
  maxMessageBytes := 100
  parsePeerId := some

def responseOf (peer : String) : ℕ × SwarmInput :=
  (0, .syncResponse peer
    { responder := peer
      response :=
        { tip := tipAt 5, certificates := [], snapshot := none, snapshotAttestation := none } })

theorem quorum_of_senders_two : ∃ peers : Finset String, 2 ≤ peers.card ∧ 2 ≤ peers.card ∧
    ∀ p ∈ peers, ∃ i ∈ [responseOf "p", responseOf "r"], Sent settings p (tipAt 5) i.2 := by
  have hnew : TipQuorum.new 2 = .ok ⟨2, ∅⟩ := rfl
  have hreports : tipReports ((start 60).outputs settings [responseOf "p", responseOf "r"]) =
      [("p", tipAt 5)] ++ [("r", tipAt 5)] := by decide
  have hagreed : ((TipQuorum.observeAll ⟨2, ∅⟩ [("p", tipAt 5)]).observe "r" (tipAt 5)).2 =
      some (tipAt 5) := by decide +kernel
  exact quorum_of_senders settings 60 [responseOf "p", responseOf "r"] hnew hreports hagreed

/-- A peer asks twice and is answered once; a request of another one fails. -/
def questions : List (ℕ × SwarmInput) :=
  [(0, .syncRequest "p" 1 0), (0, .syncRequest "p" 2 4), (1, .syncRequest "r" 3 0),
    (2, .respondSync "p"
      { tip := tipAt 5, certificates := [], snapshot := none, snapshotAttestation := none }),
    (3, .syncInboundFailure "r")]

theorem answered_questions : answered settings "p" (start 60) questions = [1] ∧
    ((start 60).run settings questions).waiting "p" = [2] := by
  decide +kernel

theorem answered_in_turn_questions : asked settings "p" (start 60) questions = [1] ++ [2] := by
  have hno : ∀ i ∈ questions, i.2 ≠ .syncInboundFailure "p" := by simp [questions]
  have h := ((answered_in_turn settings 60 questions).1 "p").2 hno
  rw [answered_questions.1, answered_questions.2] at h
  exact h.symm

end Sample

end IeumChain
