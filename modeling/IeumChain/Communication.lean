import IeumChain.Library.ByteCodec
import IeumChain.Library.Outcome
import IeumChain.Library.PaddedNames
import IeumChain.Library.RecentKeys
import IeumChain.Library.Text
import Mathlib.Data.Finset.Basic
import Mathlib.Data.Finset.Lattice.Lemmas

/-!
# The inbox of encrypted signals

Wallets negotiate calls through short-lived messages that a node only passes on. A message is
taken once as long as its id is remembered, and the ids of the last messages are.
-/
namespace IeumChain

open ByteCodec Text Outcome RecentKeys

def maxEncryptedSignalBytes : ℕ := 64 * 1024
def maxSignalTtlSeconds : ℕ := 120
def maxPendingSignals : ℕ := 256
def maxSeenSignalIds : ℕ := 1024

inductive CommunicationKind
  | callInvite
  | callAccept
  | callReject
  | webRtcOffer
  | webRtcAnswer
  | iceCandidate
  | hangup
  | encryptedChat
  deriving Repr, DecidableEq

structure CommunicationEnvelope where
  id : String
  senderPeerId : String
  targetPeerId : String
  kind : CommunicationKind
  createdAt : ℕ
  expiresAt : ℕ
  encryptedPayloadHex : String
  deriving Repr, DecidableEq

def isSafeId (value : String) : Bool :=
  allChars (fun c => isAlphanumeric c ∨ c = '-' ∨ c = '_') value

def CommunicationEnvelope.validate (e : CommunicationEnvelope) (now : ℕ) : Except String Unit := do
  reject (e.id.utf8ByteSize < 16 ∨ 128 < e.id.utf8ByteSize ∨ ¬isSafeId e.id)
    "통신 메시지 id 형식이 올바르지 않습니다."
  reject (e.targetPeerId = "" ∨ 128 < e.targetPeerId.utf8ByteSize)
    "대상 PeerId가 올바르지 않습니다."
  reject (e.expiresAt ≤ e.createdAt ∨ maxSignalTtlSeconds < e.expiresAt - e.createdAt ∨
    e.expiresAt < now) "통신 메시지가 만료되었거나 허용 수명을 초과했습니다."
  reject (e.encryptedPayloadHex.utf8ByteSize % 2 ≠ 0 ∨
    maxEncryptedSignalBytes < e.encryptedPayloadHex.utf8ByteSize / 2 ∨
    hexDecode e.encryptedPayloadHex = none) "암호화 payload 형식 또는 크기가 올바르지 않습니다."

structure CommunicationInbox where
  items : List CommunicationEnvelope
  seen : Finset String
  seenOrder : List String

namespace CommunicationInbox

def empty : CommunicationInbox := { items := [], seen := ∅, seenOrder := [] }

/-- Forgets ids from the front while there are too many. -/
def forgetLoop (seen : Finset String) : List String → Finset String × List String
  | [] => (seen, [])
  | oldId :: rest =>
      if maxSeenSignalIds < (oldId :: rest).length then forgetLoop (seen.erase oldId) rest
      else (seen, oldId :: rest)

/-- Drops waiting messages from the front until there is room for one more. -/
def makeRoom : List CommunicationEnvelope → List CommunicationEnvelope
  | [] => []
  | item :: rest =>
      if maxPendingSignals ≤ (item :: rest).length then makeRoom rest else item :: rest

def push (inbox : CommunicationInbox) (envelope : CommunicationEnvelope) (now : ℕ) :
    CommunicationInbox × Except String Unit :=
  match envelope.validate now with
  | .error e => (inbox, .error e)
  | .ok () =>
      if envelope.id ∈ inbox.seen then (inbox, .error "이미 처리한 통신 메시지입니다.")
      else
        let (seen, seenOrder) :=
          forgetLoop (insert envelope.id inbox.seen) (inbox.seenOrder ++ [envelope.id])
        ({ items := makeRoom inbox.items ++ [envelope], seen, seenOrder }, .ok ())

def drain (inbox : CommunicationInbox) : CommunicationInbox × List CommunicationEnvelope :=
  ({ inbox with items := [] }, inbox.items)

/-- The calls of a node. -/
inductive Call
  | push (envelope : CommunicationEnvelope) (now : ℕ)
  | drain

def step (inbox : CommunicationInbox) : Call → CommunicationInbox
  | .push envelope now => (inbox.push envelope now).1
  | .drain => inbox.drain.1

def run (inbox : CommunicationInbox) (calls : List Call) : CommunicationInbox :=
  calls.foldl step inbox

/-- The id that a call accepts. -/
def taken (inbox : CommunicationInbox) : Call → List String
  | .push envelope now =>
      match (inbox.push envelope now).2 with
      | .ok () => [envelope.id]
      | .error _ => []
  | .drain => []

/-- The ids that are accepted along a run. -/
def accepted : CommunicationInbox → List Call → List String
  | _, [] => []
  | inbox, c :: rest => inbox.taken c ++ accepted (inbox.step c) rest

/-! ## What an inbox remembers -/

/-- The inbox remembers the last ids of its history, each once. -/
structure Remembers (inbox : CommunicationInbox) (history : List String) : Prop where
  order : inbox.seenOrder = recent maxSeenSignalIds history
  seen : inbox.seen = inbox.seenOrder.toFinset
  nodup : inbox.seenOrder.Nodup

theorem remembers_empty : Remembers empty [] := ⟨rfl, rfl, List.nodup_nil⟩

theorem forgetLoop_eq {ids : List String} (h : ids.Nodup) :
    forgetLoop ids.toFinset ids =
      ((recent maxSeenSignalIds ids).toFinset, recent maxSeenSignalIds ids) := by
  induction ids with
  | nil => rfl
  | cons id rest ih =>
      rw [List.nodup_cons] at h
      rw [forgetLoop]
      split_ifs with hlong
      · have hshort : recent maxSeenSignalIds (id :: rest) = recent maxSeenSignalIds rest :=
          recent_append_of_le [id] (Nat.le_of_lt_succ hlong)
        have herase : (id :: rest).toFinset.erase id = rest.toFinset := by
          rw [List.toFinset_cons, Finset.erase_insert (by simpa using h.1)]
        rw [herase, ih h.2, hshort]
      · rw [recent_of_length_le (Nat.le_of_not_lt hlong)]

variable {inbox : CommunicationInbox} {history : List String} {envelope : CommunicationEnvelope}
  {now : ℕ}

/-- A message is taken exactly if it is valid and its id is not among the last ones. -/
theorem push_ok_iff (h : inbox.Remembers history) : (inbox.push envelope now).2 = .ok () ↔
    envelope.validate now = .ok () ∧ envelope.id ∉ recent maxSeenSignalIds history := by
  have hseen : envelope.id ∈ inbox.seen ↔ envelope.id ∈ recent maxSeenSignalIds history := by
    rw [h.seen, List.mem_toFinset, h.order]
  rw [← hseen, push]
  cases hvalid : envelope.validate now with
  | error e => simp
  | ok u => by_cases hknown : envelope.id ∈ inbox.seen <;> simp [hknown]

/-- The id of a message that is taken comes last in the window. -/
theorem push_accepted (h : inbox.Remembers history) (hvalid : envelope.validate now = .ok ())
    (hnew : envelope.id ∉ inbox.seen) : inbox.push envelope now =
      ({ items := makeRoom inbox.items ++ [envelope]
         seen := (recent maxSeenSignalIds (inbox.seenOrder ++ [envelope.id])).toFinset
         seenOrder := recent maxSeenSignalIds (inbox.seenOrder ++ [envelope.id]) }, .ok ()) ∧
      (inbox.seenOrder ++ [envelope.id]).Nodup := by
  have hnodup : (inbox.seenOrder ++ [envelope.id]).Nodup := by
    rw [h.seen, List.mem_toFinset] at hnew
    rw [List.nodup_append_comm, List.singleton_append, List.nodup_cons]
    exact ⟨hnew, h.nodup⟩
  have hinsert : insert envelope.id inbox.seen = (inbox.seenOrder ++ [envelope.id]).toFinset := by
    rw [h.seen, List.toFinset_append, List.toFinset_cons, List.toFinset_nil, insert_empty_eq,
      Finset.union_comm, ← Finset.insert_eq]
  refine ⟨?_, hnodup⟩
  simp only [push, hvalid, if_neg hnew, hinsert, forgetLoop_eq hnodup]

theorem Remembers.step (h : inbox.Remembers history) (c : Call) :
    (inbox.step c).Remembers (history ++ inbox.taken c) := by
  cases c with
  | drain =>
      rw [taken, List.append_nil]
      exact ⟨h.order, h.seen, h.nodup⟩
  | push envelope now =>
      rw [CommunicationInbox.step, taken]
      cases hvalid : envelope.validate now with
      | error e => simpa only [push, hvalid, List.append_nil] using h
      | ok u =>
          by_cases hknown : envelope.id ∈ inbox.seen
          · simpa only [push, hvalid, if_pos hknown, List.append_nil] using h
          · obtain ⟨hpush, hnodup⟩ := push_accepted h hvalid hknown
            have hwindow := nodup_recent (n := maxSeenSignalIds) hnodup
            rw [hpush]
            constructor
            · simp only [h.order, recent_recent_append]
            · simp only
            · simpa only using hwindow

theorem Remembers.run (h : inbox.Remembers history) (calls : List Call) :
    (inbox.run calls).Remembers (history ++ inbox.accepted calls) := by
  induction calls generalizing inbox history with
  | nil => simpa [accepted, CommunicationInbox.run] using h
  | cons c rest ih =>
      have hrest := ih (h.step c)
      rw [List.append_assoc] at hrest
      exact hrest

/-- An id that was accepted is not accepted again before 1024 other messages were. -/
theorem accepted_once {before after : List Call} {again : CommunicationEnvelope} {later : ℕ}
    (haccepted : ((empty.run before).push envelope now).2 = .ok ())
    (hsame : again.id = envelope.id)
    (hfew : (((empty.run before).push envelope now).1.accepted after).length < maxSeenSignalIds) :
    ((((empty.run before).push envelope now).1.run after).push again later).2 ≠ .ok () := by
  have hstep := (remembers_empty.run before).step (.push envelope now)
  have htaken : (empty.run before).taken (.push envelope now) = [envelope.id] := by
    rw [taken, haccepted]
  rw [htaken] at hstep
  have hrun := hstep.run after
  rw [List.append_assoc, List.singleton_append] at hrun
  intro hagain
  obtain ⟨-, hforgotten⟩ := (push_ok_iff hrun).1 hagain
  rw [hsame] at hforgotten
  exact hforgotten (mem_recent_of_few _ hfew)

/-- New valid messages are all accepted. -/
theorem accepted_of_fresh (h : inbox.Remembers history) {envelopes : List CommunicationEnvelope}
    (hvalid : ∀ e ∈ envelopes, e.validate now = .ok ())
    (hfresh : (history ++ envelopes.map (·.id)).Nodup) :
    inbox.accepted (envelopes.map (.push · now)) = envelopes.map (·.id) := by
  induction envelopes generalizing inbox history with
  | nil => rfl
  | cons e rest ih =>
      rw [List.forall_mem_cons] at hvalid
      have hnew : e.id ∉ recent maxSeenSignalIds history := fun hmem =>
        (List.nodup_append.1 hfresh).2.2 e.id (List.mem_of_mem_drop hmem) e.id
          List.mem_cons_self rfl
      have hpush := (push_ok_iff h).2 ⟨hvalid.1, hnew⟩
      have htaken : inbox.taken (.push e now) = [e.id] := by
        rw [taken, hpush]
      have hstep := h.step (.push e now)
      rw [htaken] at hstep
      rw [List.map_cons, List.map_cons, accepted, htaken, List.singleton_append,
        ih hstep hvalid.2 (by simpa using hfresh)]

end CommunicationInbox

/-! Signals of one moment, more than are remembered. -/

namespace Flood

open CommunicationInbox

def signal (n : ℕ) : CommunicationEnvelope :=
  { id := hexEncode (beBytes 8 n), senderPeerId := "", targetPeerId := "target"
    kind := .callInvite, createdAt := 100, expiresAt := 160, encryptedPayloadHex := "aabbcc" }

theorem id_injOn {m n : ℕ} (hm : m < 256 ^ 8) (hn : n < 256 ^ 8)
    (h : (signal m).id = (signal n).id) : m = n :=
  beBytes_inj hm hn (hexEncode_injective h)

theorem validate_signal (n : ℕ) : (signal n).validate 110 = .ok () := by
  have hsize : (signal n).id.utf8ByteSize = 16 := by
    rw [signal, utf8ByteSize_hexEncode, length_beBytes]
  have hsafe : isSafeId (signal n).id = true := allChars_hexEncode (by decide) _
  have hpayload : hexDecode "aabbcc" ≠ none := by decide
  have hbytes : "aabbcc".utf8ByteSize = 6 := by decide
  have htarget : "target".utf8ByteSize = 6 := by decide
  simp only [CommunicationEnvelope.validate, check_bind_eq_ok, reject_eq_ok, hsize, hsafe]
  simp [signal, hpayload, hbytes, htarget, maxSignalTtlSeconds, maxEncryptedSignalBytes]

theorem push_first : (empty.push (signal 0) 110).2 = .ok () :=
  (push_ok_iff remembers_empty).2 ⟨validate_signal 0, List.not_mem_nil⟩

/-- Behind one other message the signal is still known. -/
theorem accepted_once_two :
    (((empty.push (signal 0) 110).1.run [.push (signal 1) 110]).push (signal 0) 111).2 ≠
      .ok () := by
  have hfirst : ((empty.run []).push (signal 0) 110).2 = .ok () := push_first
  refine accepted_once hfirst rfl ?_
  rw [accepted, accepted, taken, List.append_nil]
  split <;> simp [maxSeenSignalIds]

/-- Other messages push the id out of the window long before it expires. -/
theorem accepted_again :
    (empty.push (signal 0) 110).2 = .ok () ∧ 110 ≤ (signal 0).expiresAt ∧
      ∃ envelopes : List CommunicationEnvelope,
        (((empty.push (signal 0) 110).1.run (envelopes.map (.push · 110))).push (signal 0) 110).2 =
          .ok () := by
  refine ⟨push_first, by decide, (List.range' 1 maxSeenSignalIds).map signal, ?_⟩
  have hstep := remembers_empty.step (.push (signal 0) 110)
  have htaken : empty.taken (.push (signal 0) 110) = [(signal 0).id] := by
    rw [taken, push_first]
  rw [htaken, List.nil_append] at hstep
  have hids : ∀ n ∈ List.range' 0 1025, n < 256 ^ 8 := by
    intro n hn
    have := (List.mem_range'_1.1 hn).2
    omega
  have hnodup : ((List.range' 0 1025).map fun n => (signal n).id).Nodup :=
    List.Nodup.map_on (fun m hm n hn h => id_injOn (hids m hm) (hids n hn) h) List.nodup_range'
  have hsplit : (List.range' 0 1025).map (fun n => (signal n).id) =
      [(signal 0).id] ++ ((List.range' 1 maxSeenSignalIds).map signal).map (·.id) := by
    rw [List.map_map]
    rfl
  rw [hsplit] at hnodup
  have hvalid : ∀ e ∈ (List.range' 1 maxSeenSignalIds).map signal, e.validate 110 = .ok () := by
    intro e he
    obtain ⟨n, -, rfl⟩ := List.mem_map.1 he
    exact validate_signal n
  have haccepted := accepted_of_fresh hstep hvalid hnodup
  have hrun := hstep.run (((List.range' 1 maxSeenSignalIds).map signal).map (.push · 110))
  rw [haccepted] at hrun
  refine (push_ok_iff hrun).2 ⟨validate_signal 0, notMem_recent_of_many ?_ ?_⟩
  · exact (List.nodup_append.1 hnodup).2.2 _ List.mem_cons_self _ |> fun h hmem => h hmem rfl
  · rw [List.length_map, List.length_map, List.length_range']

end Flood

end IeumChain
