import IeumChain.Keystore
import IeumChain.StandIn

/-!
# Changed documents of the keystore

The hash over key, nonce and ciphertext is the only check of a document, and the key depends on
password, salt and rounds through the whole chain. Who keeps the hash cannot change anything
else without a collision; who knows the password can make a new one.
-/
namespace IeumChain

open ByteCodec Text Outcome HashChain XorStream Chunks

/-- What the hexadecimal fields of a document decode to. -/
structure Contents where
  salt : Bytes32
  nonce : Bytes32
  ciphertext : Bytes
  mac : Bytes32

namespace KeystoreFile

def contents (document : KeystoreFile) : Option Contents := do
  let salt ← (hexDecode document.salt).bind toBytes32
  let nonce ← (hexDecode document.nonce).bind toBytes32
  let ciphertext ← hexDecode document.ciphertext
  let mac ← (hexDecode document.mac).bind toBytes32
  pure { salt, nonce, ciphertext, mac }

/-- The same salt, nonce, ciphertext, hash, rounds and address. -/
structure Agrees (document other : KeystoreFile) : Prop where
  contents : other.contents = document.contents
  kdfRounds : other.kdfRounds = document.kdfRounds
  address : other.address = document.address

variable [Crypto]

/-- The hash of the document is the one that its other fields have under the password. -/
def Authentic (document : KeystoreFile) (password : String) : Prop :=
  ∃ c, document.contents = some c ∧
    calculateMac (deriveKey (utf8 password) c.salt document.kdfRounds) c.nonce c.ciphertext =
      c.mac.1

/-- The hash is another one, made for the changed fields under the password. -/
def Resealed (document other : KeystoreFile) (password : String) : Prop :=
  other.contents.map Contents.mac ≠ document.contents.map Contents.mac ∧ other.Authentic password

/-- What is hashed up to the check of the hash. -/
def hashedInputs (document : KeystoreFile) (password : String) : Set Bytes :=
  {x | ∃ c, document.contents = some c ∧
    (x ∈ HashChain.inputs Crypto.sha256 (kdfStart (utf8 password) c.salt) (kdfLink c.salt)
        (document.kdfRounds.toNat - 1) ∨
      x = macInput (deriveKey (utf8 password) c.salt document.kdfRounds) c.nonce c.ciphertext)}

/-- What is hashed behind it. -/
def streamInputs (document : KeystoreFile) (password : String) : Set Bytes :=
  {x | ∃ c, document.contents = some c ∧ ∃ counter < (chunks 32 c.ciphertext).length,
    x = streamInput (deriveKey (utf8 password) c.salt document.kdfRounds) c.nonce counter}

end KeystoreFile

/-! ## Unlocking -/

theorem toBytes32_val (bytes : Bytes32) : toBytes32 bytes.1 = some bytes := dif_pos bytes.2

theorem decode32_eq_ok {value : String} {bytes : Bytes32} :
    decode32 value = .ok bytes ↔ (hexDecode value).bind toBytes32 = some bytes := by
  simp only [decode32, bind_eq_ok, okOr_eq_ok, Option.bind_eq_some_iff]

section
variable [Crypto] [WalletKeys]

theorem KeystoreFile.unlock_eq_ok {document : KeystoreFile} {password : String}
    {wallet : AccountWallet} : document.unlock password = .ok wallet ↔
      (document.version = 1 ∧ IeumChain.kdfRounds ≤ document.kdfRounds) ∧
      ∃ c, document.contents = some c ∧
        calculateMac (deriveKey (utf8 password) c.salt document.kdfRounds) c.nonce c.ciphertext =
          c.mac.1 ∧
        ∃ privateKey, toBytes32 (crypt c.ciphertext
            (deriveKey (utf8 password) c.salt document.kdfRounds) c.nonce) = some privateKey ∧
          AccountWallet.fromPrivateKey privateKey = .ok wallet ∧
          wallet.address = document.address := by
  simp only [unlock, check_bind_eq_ok, reject_eq_ok, not_or, not_not, UInt32.not_lt]
  simp only [bind_eq_ok, reject_eq_ok, okOr_eq_ok, decode32_eq_ok, pure_eq_ok, not_not, contents,
    Option.bind_eq_bind, Option.bind_eq_some_iff, Option.pure_def, Option.some.injEq]
  constructor
  · rintro ⟨hversion, salt, hsalt, nonce, hnonce, ciphertext, hciphertext, mac, hmac, -, hcheck,
      privateKey, hkey, _, hwallet, -, haddress, rfl⟩
    exact ⟨hversion, ⟨salt, nonce, ciphertext, mac⟩,
      ⟨salt, hsalt, nonce, hnonce, ciphertext, hciphertext, mac, hmac, rfl⟩, hcheck, privateKey,
      hkey, hwallet, haddress⟩
  · rintro ⟨hversion, _, ⟨salt, hsalt, nonce, hnonce, ciphertext, hciphertext, mac, hmac, rfl⟩,
      hcheck, privateKey, hkey, hwallet, haddress⟩
    exact ⟨hversion, salt, hsalt, nonce, hnonce, ciphertext, hciphertext, mac, hmac, (), hcheck,
      privateKey, hkey, wallet, hwallet, (), haddress, rfl⟩

/-- The hash that a document is written with. -/
def AccountWallet.mac (wallet : AccountWallet) (password : String) (salt nonce : Bytes32) : Bytes :=
  let key := deriveKey (utf8 password) salt kdfRounds
  calculateMac key nonce (crypt wallet.signingKey.1 key nonce)

theorem contents_keystoreFile (wallet : AccountWallet) (password : String) (salt nonce : Bytes32)
    (hmac : (wallet.mac password salt nonce).length = 32) :
    (wallet.keystoreFile password salt nonce).contents = some
      { salt, nonce, mac := ⟨wallet.mac password salt nonce, hmac⟩
        ciphertext :=
          crypt wallet.signingKey.1 (deriveKey (utf8 password) salt kdfRounds) nonce } := by
  have hdecoded := toBytes32_val ⟨wallet.mac password salt nonce, hmac⟩
  simp only [AccountWallet.mac] at hdecoded
  simp only [KeystoreFile.contents, AccountWallet.keystoreFile, hexDecode_hexEncode,
    Option.bind_some, toBytes32_val, hdecoded, Option.bind_eq_bind, Option.pure_def,
    AccountWallet.mac]

variable (hdigest : ∀ bytes, (Crypto.sha256 bytes).length = 32)

include hdigest

theorem unlock_keystoreFile (wallet : AccountWallet) (password : String) (salt nonce : Bytes32) :
    (wallet.keystoreFile password salt nonce).unlock password = .ok wallet := by
  have hcontents := contents_keystoreFile wallet password salt nonce (hdigest _)
  refine KeystoreFile.unlock_eq_ok.2 ⟨⟨rfl, UInt32.le_refl _⟩, _, hcontents, rfl,
    wallet.signingKey, ?_, wallet.fromPrivateKey_signingKey, rfl⟩
  have hplain := crypt_crypt hdigest wallet.signingKey.1
    (deriveKey (utf8 password) salt kdfRounds) nonce
  exact (congrArg toBytes32 hplain).trans (toBytes32_val _)

omit [WalletKeys] in
theorem length_deriveKey (password : Bytes) (salt : Bytes32) (rounds : UInt32) :
    (deriveKey password salt rounds).length = 32 := by
  rw [deriveKey_eq]
  exact hdigest _

omit [WalletKeys] in
/-- Equal keys come from equal passwords, salts and rounds. -/
theorem deriveKey_inj {password password' : String} {salt salt' : Bytes32}
    {rounds rounds' : UInt32} (hrounds : kdfRounds ≤ rounds) (hrounds' : kdfRounds ≤ rounds')
    (hinj : Set.InjOn Crypto.sha256
      (HashChain.inputs Crypto.sha256 (kdfStart (utf8 password) salt) (kdfLink salt)
          (rounds.toNat - 1) ∪
        HashChain.inputs Crypto.sha256 (kdfStart (utf8 password') salt') (kdfLink salt')
          (rounds'.toNat - 1)))
    (h : deriveKey (utf8 password) salt rounds = deriveKey (utf8 password') salt' rounds') :
    password = password' ∧ salt = salt' ∧ rounds = rounds' := by
  have hlow : 200000 ≤ rounds.toNat := UInt32.le_iff_toNat_le.1 hrounds
  have hlow' : 200000 ≤ rounds'.toNat := UInt32.le_iff_toNat_le.1 hrounds'
  have htop := rounds.toNat_lt
  have htop' := rounds'.toNat_lt
  rw [deriveKey_eq, deriveKey_eq] at h
  have hlink : ∀ x y, ∀ i ≤ rounds.toNat - 1, ∀ j ≤ rounds'.toNat - 1,
      kdfLink salt (Crypto.sha256 x) i = kdfLink salt' (Crypto.sha256 y) j →
        Crypto.sha256 x = Crypto.sha256 y ∧ i = j := by
    intro x y i hi j hj heq
    have hlength : (Crypto.sha256 x ++ salt.1).length = (Crypto.sha256 y ++ salt'.1).length := by
      rw [List.length_append, List.length_append, hdigest, hdigest, salt.2, salt'.2]
    obtain ⟨hfront, hround⟩ := List.append_inj heq hlength
    have hkeys := (List.append_inj hfront ((hdigest x).trans (hdigest y).symm)).1
    exact ⟨hkeys, beBytes_inj (by omega) (by omega) hround⟩
  obtain ⟨hsteps, hstart⟩ := chain_inj (by omega) (by omega) hinj hlink h
  have hsalts := (List.append_inj hstart (by
    rw [List.length_append, List.length_append, salt.2, salt'.2])).1
  have hpasswords := (List.append_inj hstart (by
    rw [List.length_append, List.length_append, salt.2, salt'.2])).2
  exact ⟨utf8_inj hpasswords, Subtype.ext (List.append_cancel_left hsalts),
    UInt32.toNat_inj.1 (by omega)⟩

omit [WalletKeys] in
/-- Two documents with one hash that is right for both have all of their fields in common. -/
theorem agree_of_mac_eq {document other : KeystoreFile} {password password' : String}
    {c c' : Contents} (hinj : Set.InjOn Crypto.sha256
      (document.hashedInputs password ∪ other.hashedInputs password'))
    (hc : document.contents = some c) (hc' : other.contents = some c')
    (hrounds : kdfRounds ≤ document.kdfRounds) (hrounds' : kdfRounds ≤ other.kdfRounds)
    (hcheck : calculateMac (deriveKey (utf8 password) c.salt document.kdfRounds) c.nonce
      c.ciphertext = c.mac.1)
    (hcheck' : calculateMac (deriveKey (utf8 password') c'.salt other.kdfRounds) c'.nonce
      c'.ciphertext = c'.mac.1)
    (hmac : c.mac = c'.mac) : password = password' ∧ c = c' ∧
      document.kdfRounds = other.kdfRounds := by
  have hinputs := hinj (.inl ⟨c, hc, .inr rfl⟩) (.inr ⟨c', hc', .inr rfl⟩)
    (hcheck.trans ((congrArg Subtype.val hmac).trans hcheck'.symm))
  rw [macInput, macInput, List.append_assoc, List.append_assoc, List.append_assoc,
    List.append_assoc, List.append_cancel_left_eq] at hinputs
  obtain ⟨hkeys, hrest⟩ := List.append_inj hinputs
    ((length_deriveKey hdigest ..).trans (length_deriveKey hdigest ..).symm)
  obtain ⟨hnonce, hciphertext⟩ := List.append_inj hrest (c.nonce.2.trans c'.nonce.2.symm)
  have hsubset : HashChain.inputs Crypto.sha256 (kdfStart (utf8 password) c.salt) (kdfLink c.salt)
        (document.kdfRounds.toNat - 1) ∪
      HashChain.inputs Crypto.sha256 (kdfStart (utf8 password') c'.salt) (kdfLink c'.salt)
        (other.kdfRounds.toNat - 1) ⊆
      document.hashedInputs password ∪ other.hashedInputs password' :=
    Set.union_subset_union (fun x hx => ⟨c, hc, .inl hx⟩) fun x hx => ⟨c', hc', .inl hx⟩
  obtain ⟨hpassword, hsalt, hsame⟩ :=
    deriveKey_inj hdigest hrounds hrounds' (hinj.mono hsubset) hkeys
  obtain ⟨salt, nonce, ciphertext, mac⟩ := c
  obtain ⟨salt', nonce', ciphertext', mac'⟩ := c'
  simp only at hsalt hnonce hciphertext hmac
  exact ⟨hpassword, by rw [hsalt, Subtype.ext hnonce, hciphertext, hmac], hsame⟩

/-- A changed document or another password opens nothing, unless the hash was made anew. -/
theorem agrees_of_unlock {wallet opened : AccountWallet} {password password' : String}
    {salt nonce : Bytes32} {document : KeystoreFile}
    (hinj : Set.InjOn Crypto.sha256
      ((wallet.keystoreFile password salt nonce).hashedInputs password ∪
        document.hashedInputs password'))
    (hopened : document.unlock password' = .ok opened)
    (hsealed : ¬(wallet.keystoreFile password salt nonce).Resealed document password') :
    password' = password ∧ (wallet.keystoreFile password salt nonce).Agrees document := by
  have hcontents := contents_keystoreFile wallet password salt nonce (hdigest _)
  obtain ⟨⟨-, hrounds⟩, c, hc, hcheck, privateKey, hkey, hwallet, haddress⟩ :=
    KeystoreFile.unlock_eq_ok.1 hopened
  have hmac : c.mac = ⟨wallet.mac password salt nonce, hdigest _⟩ := by
    by_contra hother
    refine hsealed ⟨?_, c, hc, hcheck⟩
    rw [hc, hcontents]
    exact fun heq => hother (Option.some.inj heq)
  obtain ⟨hpassword, hsame, hrounds⟩ := agree_of_mac_eq hdigest hinj hcontents hc
    (UInt32.le_refl _) hrounds rfl hcheck hmac.symm
  have hopens := unlock_keystoreFile hdigest wallet password salt nonce
  obtain ⟨-, c', hc', -, privateKey', hkey', hwallet', haddress'⟩ :=
    KeystoreFile.unlock_eq_ok.1 hopens
  have hcc : c' = c := by rw [← hsame, ← Option.some.injEq, ← hc', hcontents]
  subst hcc hpassword
  rw [← hrounds, hkey'] at hkey
  obtain rfl := Option.some.inj hkey
  rw [hwallet'] at hwallet
  obtain rfl := Except.ok.inj hwallet
  exact ⟨rfl, hc.trans hc'.symm, hrounds.symm, haddress.symm.trans haddress'⟩

end

/-! ## Loading -/

namespace Keystore

theorem write_write (keystore : Keystore) (path : String) (entry other : Entry) :
    ((keystore.write path entry).write path other).entries =
      (keystore.write path other).entries := by
  simp [write]

variable [Crypto] [WalletKeys]

/-- What was stored is loaded again. With another password or after a change of salt, nonce,
ciphertext, hash, rounds or address nothing is loaded, unless the hash was made anew for the
changed fields under the password that is used. -/
theorem load_after_store (hdigest : ∀ bytes, (Crypto.sha256 bytes).length = 32)
    {keystore stored : Keystore} {wallet : AccountWallet} {password : String}
    {salt nonce : Bytes32} {millis : ℕ} {address : Address}
    (hstore : keystore.store wallet password salt nonce (some millis) = .ok (address, stored)) :
    (∀ directory : Keystore, directory.entries.Perm stored.entries →
      directory.load address password = .ok wallet) ∧
    ∀ (directory : Keystore) (document : KeystoreFile) (password' : String),
      directory.entries.Perm
        (stored.write (newPath address millis) (.file (some document))).entries →
      Set.InjOn Crypto.sha256
        ((wallet.keystoreFile password salt nonce).hashedInputs password ∪
          document.hashedInputs password') →
      (password' ≠ password ∨ ¬(wallet.keystoreFile password salt nonce).Agrees document) →
      ¬(wallet.keystoreFile password salt nonce).Resealed document password' →
      ∃ e, directory.load address password' = .error e := by
  obtain ⟨-, hunknown, _, hclock, -, -, hstored⟩ := store_eq_ok.1 hstore
  obtain rfl := Option.some.inj hclock
  obtain ⟨rfl, rfl⟩ := Prod.mk.inj hstored
  constructor
  · intro directory horder
    have hload := load_write hunknown (newPath_ne_legacyPath _ _ _) horder password
    have hnamed : (wallet.keystoreFile password salt nonce).address = wallet.address := rfl
    rw [hload, hnamed, if_pos rfl]
    exact unlock_keystoreFile hdigest wallet password salt nonce
  · intro directory document password' horder hinj hchanged hsealed
    rw [write_write] at horder
    rw [load_write hunknown (newPath_ne_legacyPath _ _ _) horder]
    split_ifs
    · cases hopened : document.unlock password' with
      | error e => exact ⟨e, rfl⟩
      | ok opened =>
          obtain ⟨hpassword, hagrees⟩ := agrees_of_unlock hdigest hinj hopened hsealed
          rcases hchanged with hother | hother
          · exact absurd hpassword hother
          · exact absurd hagrees hother
    · exact ⟨_, rfl⟩

end Keystore

/-! ## A stored key with a second nonce -/

namespace TwoNonces

/-- Tells inputs apart by their length, one byte in the middle and the last four. -/
def sealHash (x : Bytes) : Bytes :=
  (UInt8.ofNat x.length :: x.getD 60 0 :: (x.drop (x.length - 4) ++ List.replicate 32 0)).take 32

local instance sealCrypto : Crypto := StandIn.crypto sealHash

local instance sealKeys : WalletKeys where
  publicKeyOf := fun key => some key.1

theorem length_sealHash (x : Bytes) : (sealHash x).length = 32 := by
  rw [sealHash, List.length_take, List.length_cons, List.length_cons, List.length_append,
    List.length_replicate]
  omega

theorem sealHash_eq {x y : Bytes} (hx : 4 ≤ x.length) (hy : 4 ≤ y.length)
    (h : sealHash x = sealHash y) : UInt8.ofNat x.length = UInt8.ofNat y.length ∧
      x.getD 60 0 = y.getD 60 0 ∧ x.drop (x.length - 4) = y.drop (y.length - 4) := by
  simp only [sealHash, List.take_succ_cons, List.cons.injEq] at h
  obtain ⟨hlength, hmiddle, hlast⟩ := h
  have hdrop : ∀ z : Bytes, 4 ≤ z.length → (z.drop (z.length - 4)).length = 4 := by
    intro z hz
    rw [List.length_drop]
    omega
  have htake := congrArg (List.take 4) hlast
  rw [List.take_take, List.take_take, List.take_left' (by simpa using hdrop x hx),
    List.take_left' (by simpa using hdrop y hy)] at htake
  exact ⟨hlength, hmiddle, htake⟩

def constant (byte : UInt8) : Bytes32 := ⟨List.replicate 32 byte, List.length_replicate⟩

def wallet : AccountWallet := ⟨constant 7, (constant 7).1, rfl⟩

def password : String := "passwords!"

def empty : Keystore := ⟨[], List.nodup_nil⟩

/-- The document with the nonce of a byte. -/
def document (byte : UInt8) : KeystoreFile :=
  wallet.keystoreFile password (constant 0) (constant byte)

def stored : Keystore :=
  empty.write (Keystore.newPath wallet.address 0) (.file (some (document 1)))

def key : Bytes := deriveKey (utf8 password) (constant 0) kdfRounds

theorem store_empty : empty.store wallet password (constant 0) (constant 1) (some 0) =
    .ok (wallet.address, stored) := by
  refine Keystore.store_eq_ok.2 ⟨by decide, ⟨List.not_mem_nil, fun e he => ?_⟩, 0, rfl,
    List.not_mem_nil, ?_, rfl⟩
  · cases he
  · exact fun h => Option.some_ne_none _ h.symm

theorem length_key : key.length = 32 := length_deriveKey length_sealHash ..

theorem contents_document (byte : UInt8) : (document byte).contents = some
    { salt := constant 0, nonce := constant byte
      ciphertext := crypt wallet.signingKey.1 key (constant byte)
      mac := ⟨wallet.mac password (constant 0) (constant byte), length_sealHash _⟩ } :=
  contents_keystoreFile wallet password (constant 0) (constant byte) (length_sealHash _)

/-- Behind a front of 52 bytes or a few more the middle byte lies in the nonce. -/
theorem middle_nonce {front rest : Bytes} (byte : UInt8) (hlow : 28 < front.length)
    (hhigh : front.length ≤ 60) : (front ++ ((constant byte).1 ++ rest)).getD 60 0 = byte := by
  rw [List.getD_eq_getElem?_getD, List.getElem?_append_right hhigh,
    List.getElem?_append_left (by rw [(constant byte).2]; omega), constant,
    List.getElem?_replicate_of_lt (by omega), Option.getD_some]

theorem length_ciphertext (byte : UInt8) :
    (crypt wallet.signingKey.1 key (constant byte)).length = 32 :=
  (length_crypt length_sealHash ..).trans (constant 7).2

/-- What is hashed for a document, by the length of the input. -/
theorem inputs_cases {byte : UInt8} {x : Bytes}
    (hx : x ∈ (document byte).hashedInputs password ∪ (document byte).streamInputs password) :
    (x.length = 62 ∧ x = kdfInput (utf8 password) (constant 0) 0) ∨
    (x.length = 68 ∧ ∃ i < 200000, x = kdfInput (utf8 password) (constant 0) i ∧
      x.drop (x.length - 4) = beBytes 4 i) ∨
    (x.length = 116 ∧ x.getD 60 0 = byte ∧
      x = macInput key (constant byte) (crypt wallet.signingKey.1 key (constant byte))) ∨
    (x.length = 95 ∧ x.getD 60 0 = byte ∧ x = streamInput key (constant byte) 0) := by
  have hcontents := contents_document byte
  have htagKdf : "IEUM-KEYSTORE-KDF-V1".utf8ByteSize = 20 := by decide
  have htagMac : "IEUM-KEYSTORE-MAC-V1".utf8ByteSize = 20 := by decide
  have htagStream : "IEUM-KEYSTORE-STREAM-V1".utf8ByteSize = 23 := by decide
  have hpassword : password.utf8ByteSize = 10 := by decide
  have hconstant : ∀ b, (constant b).1.length = 32 := fun b => (constant b).2
  rcases hx with ⟨c, hc, ⟨i, hi, rfl⟩ | rfl⟩ | ⟨c, hc, counter, hcounter, rfl⟩
  · obtain rfl := Option.some.inj (hc.symm.trans hcontents)
    cases i with
    | zero =>
        refine .inl ⟨?_, rfl⟩
        simp [HashChain.input, kdfStart, htagKdf, hpassword, hconstant]
    | succ i =>
        have hround : i + 1 ≤ 199999 := hi
        have hfront : (sealHash (kdfInput (utf8 password) (constant 0) i) ++
            (constant 0).1).length = 64 := by
          rw [List.length_append, length_sealHash, hconstant]
        have hlength : (HashChain.input Crypto.sha256 (kdfStart (utf8 password) (constant 0))
            (kdfLink (constant 0)) (i + 1)).length = 68 := by
          rw [HashChain.input, kdfLink, List.length_append, length_beBytes]
          exact congrArg (· + 4) hfront
        refine .inr (.inl ⟨hlength, i + 1, by omega, rfl, ?_⟩)
        rw [hlength]
        exact List.drop_left' hfront
  · obtain rfl := Option.some.inj (hc.symm.trans hcontents)
    refine .inr (.inr (.inl ⟨?_, ?_, rfl⟩))
    · change (macInput key _ _).length = 116
      simp [macInput, htagMac, length_key, hconstant, length_ciphertext]
    · change (macInput key _ _).getD 60 0 = byte
      rw [macInput, List.append_assoc]
      exact middle_nonce byte (by simp [htagMac, length_key]) (by simp [htagMac, length_key])
  · obtain rfl := Option.some.inj (hc.symm.trans hcontents)
    have hone : counter = 0 := by
      rw [chunks_of_length_le (List.ne_nil_of_length_pos (by rw [length_ciphertext]; decide))
        (length_ciphertext byte).le] at hcounter
      exact Nat.lt_one_iff.1 hcounter
    subst hone
    refine .inr (.inr (.inr ⟨?_, ?_, rfl⟩))
    · change (streamInput key _ 0).length = 95
      simp [streamInput, htagStream, length_key, hconstant]
    · change (streamInput key _ 0).getD 60 0 = byte
      rw [streamInput, List.append_assoc]
      exact middle_nonce byte (by simp [htagStream, length_key]) (by simp [htagStream, length_key])

theorem eq_of_sealHash {byte byte' : UInt8} {x y : Bytes}
    (hx : x ∈ (document byte).hashedInputs password ∪ (document byte).streamInputs password)
    (hy : y ∈ (document byte').hashedInputs password ∪ (document byte').streamInputs password)
    (h : sealHash x = sealHash y) : x = y := by
  have hxcases := inputs_cases hx
  have hycases := inputs_cases hy
  obtain ⟨hbyte, hmiddle, hlast⟩ := sealHash_eq (by omega) (by omega) h
  have hmod := congrArg UInt8.toNat hbyte
  rw [UInt8.toNat_ofNat', UInt8.toNat_ofNat'] at hmod
  have hlength : x.length = y.length := by omega
  rcases hxcases with ⟨hx, hstart⟩ | ⟨hx, i, hi, hround, hend⟩ | ⟨hx, hnonce, hmac⟩ |
    ⟨hx, hnonce, hstream⟩
  · rcases hycases with ⟨-, hstart'⟩ | ⟨hy, -⟩ | ⟨hy, -⟩ | ⟨hy, -⟩
    · rw [hstart, hstart']
    all_goals omega
  · rcases hycases with ⟨hy, -⟩ | ⟨-, j, hj, hround', hend'⟩ | ⟨hy, -⟩ | ⟨hy, -⟩
    · omega
    · rw [hend, hend'] at hlast
      rw [hround, hround', beBytes_inj (by omega) (by omega) hlast]
    all_goals omega
  · rcases hycases with ⟨hy, -⟩ | ⟨hy, -⟩ | ⟨-, hnonce', hmac'⟩ | ⟨hy, -⟩
    · omega
    · omega
    · rw [hmac, hmac', ← hnonce, ← hnonce', hmiddle]
    · omega
  · rcases hycases with ⟨hy, -⟩ | ⟨hy, -⟩ | ⟨hy, -⟩ | ⟨-, hnonce', hstream'⟩
    · omega
    · omega
    · omega
    · rw [hstream, hstream', ← hnonce, ← hnonce', hmiddle]

/-- The nonce, the ciphertext and the hash are others, and the key is loaded. -/
theorem resealed_opens : empty.store wallet password (constant 0) (constant 1) (some 0) =
      .ok (wallet.address, stored) ∧
    Set.InjOn Crypto.sha256
      (((document 1).hashedInputs password ∪ (document 1).streamInputs password) ∪
        ((document 2).hashedInputs password ∪ (document 2).streamInputs password)) ∧
    ¬(document 1).Agrees (document 2) ∧
    (stored.write (Keystore.newPath wallet.address 0) (.file (some (document 2)))).load
      wallet.address password = .ok wallet := by
  refine ⟨store_empty, ?_, ?_, ?_⟩
  · have hdocument : ∀ x ∈ ((document 1).hashedInputs password ∪
          (document 1).streamInputs password) ∪
        ((document 2).hashedInputs password ∪ (document 2).streamInputs password),
        ∃ byte, x ∈ (document byte).hashedInputs password ∪
          (document byte).streamInputs password := by
      intro x hx
      rcases hx with hfirst | hsecond
      · exact ⟨1, hfirst⟩
      · exact ⟨2, hsecond⟩
    intro x hx y hy h
    obtain ⟨byte, hx⟩ := hdocument x hx
    obtain ⟨byte', hy⟩ := hdocument y hy
    exact eq_of_sealHash hx hy h
  · intro hagrees
    have hcontents := hagrees.contents
    rw [contents_document, contents_document] at hcontents
    have hnonce : constant 2 = constant 1 := congrArg Contents.nonce (Option.some.inj hcontents)
    exact absurd (congrArg Subtype.val hnonce) (by decide)
  · have hunknown := (Keystore.store_eq_ok.1 store_empty).2.1
    have horder : (stored.write (Keystore.newPath wallet.address 0)
        (.file (some (document 2)))).entries.Perm
        (empty.write (Keystore.newPath wallet.address 0) (.file (some (document 2)))).entries := by
      rw [stored, Keystore.write_write]
    have hnamed : (document 2).address = wallet.address := rfl
    rw [Keystore.load_write hunknown (Keystore.newPath_ne_legacyPath _ _ _) horder, hnamed,
      if_pos rfl]
    exact unlock_keystoreFile length_sealHash ..

/-- The stored document with another hash. -/
def tampered : KeystoreFile := { document 1 with mac := hexEncode (constant 0).1 }

theorem contents_tampered : tampered.contents = some
    { salt := constant 0, nonce := constant 1, mac := constant 0
      ciphertext := crypt wallet.signingKey.1 key (constant 1) } := by
  simp only [KeystoreFile.contents, tampered, document, AccountWallet.keystoreFile,
    hexDecode_hexEncode, Option.bind_some, toBytes32_val, Option.bind_eq_bind, Option.pure_def, key]

/-- The hash begins with the length of what is hashed. -/
theorem mac_ne_constant : wallet.mac password (constant 0) (constant 1) ≠ (constant 0).1 := by
  have hlength : (macInput key (constant 1) (crypt wallet.signingKey.1 key (constant 1))).length =
      116 := by
    have htag : "IEUM-KEYSTORE-MAC-V1".utf8ByteSize = 20 := by decide
    simp [macInput, htag, length_key, length_ciphertext, (constant 1).2]
  intro heq
  have hhead : some (UInt8.ofNat (macInput key (constant 1)
      (crypt wallet.signingKey.1 key (constant 1))).length) = some 0 := congrArg List.head? heq
  rw [hlength] at hhead
  exact absurd hhead (by decide)

theorem load_after_store_tampered :
    (∀ directory : Keystore, directory.entries.Perm stored.entries →
      directory.load wallet.address password = .ok wallet) ∧
    ∃ e, (stored.write (Keystore.newPath wallet.address 0) (.file (some tampered))).load
      wallet.address password = .error e := by
  have htheorem := Keystore.load_after_store length_sealHash store_empty
  refine ⟨htheorem.1, htheorem.2 _ tampered password (List.Perm.refl _) ?_ (.inr ?_) ?_⟩
  · have hsame : tampered.hashedInputs password ⊆ (document 1).hashedInputs password := by
      rintro x ⟨c, hc, hx⟩
      obtain rfl := Option.some.inj (hc.symm.trans contents_tampered)
      exact ⟨_, contents_document 1, hx⟩
    have hsubset : (document 1).hashedInputs password ∪ tampered.hashedInputs password ⊆
        (document 1).hashedInputs password := Set.union_subset subset_rfl hsame
    have hinj : Set.InjOn Crypto.sha256 ((document 1).hashedInputs password) :=
      fun x hx y hy h => eq_of_sealHash (.inl hx) (.inl hy) h
    exact hinj.mono hsubset
  · intro hagrees
    have hcontents : tampered.contents = (document 1).contents := hagrees.contents
    rw [contents_tampered, contents_document] at hcontents
    have hmac := congrArg Contents.mac (Option.some.inj hcontents)
    exact mac_ne_constant (congrArg Subtype.val hmac).symm
  · rintro ⟨-, c, hc, hcheck⟩
    obtain rfl := Option.some.inj (hc.symm.trans contents_tampered)
    exact mac_ne_constant hcheck

end TwoNonces

end IeumChain
