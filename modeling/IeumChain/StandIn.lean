import IeumChain.Chain

/-!
# An executable stand-in for the cryptographic packages

The packages are a parameter of the development. To evaluate the model on concrete
inputs this module gives one choice of that parameter in which a signature is the
signer's key followed by a digest of the message: what a key holder signs verifies,
and a signature for one message or key is no signature for another digest or key.
-/
namespace IeumChain.StandIn

open ByteCodec

/-- Evaluates a number before it is used, so that the digest runs in linear time. -/
def force {α : Type} (n : ℕ) (f : ℕ → α) : α :=
  match n with
  | 0 => f 0
  | k + 1 => f (k + 1)

def checksum : Bytes → ℕ → ℕ
  | [], acc => acc
  | b :: rest, acc => force ((acc * 257 + b.toNat + 1) % 2 ^ 32) (checksum rest)

/-- A polynomial checksum, padded to 32 bytes. -/
def digest (bytes : Bytes) : Bytes :=
  List.replicate 28 0 ++ force (checksum bytes 0) (beBytes 4)

theorem length_digest (bytes : Bytes) : (digest bytes).length = 32 := by
  have hforce : ∀ n, (force n (beBytes 4)).length = 4 := by
    intro n
    cases n <;> exact length_beBytes ..
  simp [digest, hforce]

/-- The hash is left open: `digest` has the right length, the identity has no collisions. -/
abbrev crypto (hash : Bytes → Bytes) : Crypto where
  sha256 := hash
  keccak256 := digest
  ed25519KeyValid := fun _ => true
  ed25519Verify := fun key message sig => sig = key ++ digest message
  secp256k1Key := fun bytes => some bytes
  secp256k1SignatureValid := fun _ => true
  secp256k1Verify := fun key message sig => sig = (key.take 32) ++ digest message
  secp256k1Recover := fun message _ _ => some message
  peerIdOfPublicKey := fun bytes => some (hexEncode bytes)
  peerKeyVerify := fun key message sig => sig = key ++ digest message

/-- The key of a numbered validator. -/
def key (n : ℕ) : Bytes := List.replicate 32 (UInt8.ofNat n)

def address (n : ℕ) : Address := hexEncode (key n)

theorem address_ne {n m : ℕ} (h : UInt8.ofNat n ≠ UInt8.ofNat m) : address n ≠ address m := by
  intro heq
  have hkey : key n = key m := hexEncode_injective heq
  exact h (List.replicate_right_inj (by decide : 32 ≠ 0)|>.1 hkey)

def sign (n : ℕ) (message : Bytes) : String := hexEncode (key n ++ digest message)

/-- What a key holder signs verifies. -/
theorem verifySignature_sign (hash : Bytes → Bytes) (n : ℕ) (message : Bytes) :
    @verifySignature (crypto hash) (address n) message (sign n message) = .ok () := by
  refine (@verifySignature_eq_ok (crypto hash) _ _ _).2 ⟨key n, key n ++ digest message, hexDecode_hexEncode _, ?_, hexDecode_hexEncode _, ?_,
    rfl, ?_⟩
  · simp [key]
  · simp [key, length_digest]
  · exact decide_eq_true rfl

/-- Everything encoded from a key has a hexadecimal digit in its second place. -/
theorem toList_hexEncode_key (n : ℕ) (rest : Bytes) :
    ∃ a b tail, (hexEncode (key n ++ rest)).toList = a :: b :: tail ∧ b ≠ 't' ∧ b ≠ 'x' := by
  refine ⟨hexDigit ((UInt8.ofNat n).toNat / 16), _,
    hexChars (List.replicate 31 (UInt8.ofNat n) ++ rest), ?_,
    Text.hexDigit_ne (Nat.mod_lt (UInt8.ofNat n).toNat (by decide : 0 < 16))⟩
  simp [hexEncode, hexChars, key, List.replicate_succ]

theorem startsWith_sign (n : ℕ) (message : Bytes) :
    Text.startsWith (sign n message) ethrawMarker = false := by
  obtain ⟨a, b, tail, htail, hb, -⟩ := toList_hexEncode_key n (digest message)
  have hmarker : ethrawMarker.toList = ['e', 't', 'h', 'r', 'a', 'w', ':'] := by decide
  simp [Text.startsWith, sign, htail, hmarker, List.isPrefixOf, hb.symm]

theorem startsWith_address (n : ℕ) : Text.startsWith (address n) "0x" = false := by
  obtain ⟨a, b, tail, htail, -, hb⟩ := toList_hexEncode_key n []
  rw [List.append_nil] at htail
  simp [Text.startsWith, address, htail, List.isPrefixOf, hb.symm]

/-- A transaction with the signature of a numbered key. -/
def signed (n : ℕ) (tx : Transaction) : Transaction :=
  { tx with signature := sign n tx.signingBytes }

theorem checkTransactionSignature_signed (hash : Bytes → Bytes) (chainId n : ℕ) (tx : Transaction)
    (h : tx.sender = address n) :
    @checkTransactionSignature (crypto hash) chainId (signed n tx) = .ok () := by
  have hbytes : (signed n tx).signingBytes = tx.signingBytes := rfl
  have hsender : (signed n tx).sender = address n := h
  have hsignature : (signed n tx).signature = sign n tx.signingBytes := rfl
  simp only [checkTransactionSignature, verifyTransaction, hsender, hsignature, hbytes,
    startsWith_sign, startsWith_address, Bool.false_eq_true, if_false]
  exact verifySignature_sign hash n tx.signingBytes

end IeumChain.StandIn
