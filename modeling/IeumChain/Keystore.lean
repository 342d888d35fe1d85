import IeumChain.Library.HashChain
import IeumChain.Library.XorStream
import IeumChain.Wallet

/-!
# The keystore

A private key is kept in a document that is sealed with a password: a key out of a long chain of
hashes, a stream cipher under that key, and a hash over key, nonce and ciphertext. The documents
lie in a directory and are found by the address they name.
-/
namespace IeumChain

open ByteCodec Text Outcome HashChain XorStream Chunks

abbrev Bytes32 := {bytes : Bytes // bytes.length = 32}

def toBytes32 (bytes : Bytes) : Option Bytes32 :=
  if h : bytes.length = 32 then some ⟨bytes, h⟩ else none

/-- The function that the curve package computes; not every key has a public one. -/
class WalletKeys where
  publicKeyOf : Bytes32 → Option Bytes

structure AccountWallet [WalletKeys] where
  signingKey : Bytes32
  publicKey : Bytes
  derived : WalletKeys.publicKeyOf signingKey = some publicKey

namespace AccountWallet

variable [WalletKeys]

def fromPrivateKey (bytes : Bytes32) : Except String AccountWallet :=
  match h : WalletKeys.publicKeyOf bytes with
  | some publicKey => .ok ⟨bytes, publicKey, h⟩
  | none => .error "유효하지 않은 secp256k1 개인키입니다."

def address [Crypto] (wallet : AccountWallet) : Address := ethereumAddress wallet.publicKey

theorem fromPrivateKey_signingKey (wallet : AccountWallet) :
    fromPrivateKey wallet.signingKey = .ok wallet := by
  obtain ⟨signingKey, publicKey, derived⟩ := wallet
  unfold fromPrivateKey
  split
  next key h =>
    have hkey : key = publicKey := Option.some.inj (h.symm.trans derived)
    subst hkey
    rfl
  next h => exact absurd (h.symm.trans derived) (Option.some_ne_none publicKey).symm

end AccountWallet

structure KeystoreFile where
  version : UInt32
  address : String
  salt : String
  nonce : String
  ciphertext : String
  mac : String
  kdfRounds : UInt32
  deriving Repr, DecidableEq

def kdfRounds : UInt32 := 200000

def validatePassword (password : String) : Except String Unit :=
  reject (password.utf8ByteSize < 10) "keystore 비밀번호는 10자 이상이어야 합니다."

def decode32 (value : String) : Except String Bytes32 := do
  let bytes ← okOr (hexDecode value) "keystore hex 필드가 잘못되었습니다."
  okOr (toBytes32 bytes) "keystore 필드는 32바이트여야 합니다."

/-! ## The cipher -/

section
variable [Crypto]

def kdfStart (password : Bytes) (salt : Bytes32) : Bytes :=
  utf8 "IEUM-KEYSTORE-KDF-V1" ++ salt.1 ++ password

def kdfLink (salt : Bytes32) (key : Bytes) (round : ℕ) : Bytes := key ++ salt.1 ++ beBytes 4 round

def deriveKey (password : Bytes) (salt : Bytes32) (rounds : UInt32) : Bytes :=
  (List.range' 1 (rounds.toNat - 1)).foldl
    (fun key round => Crypto.sha256 (kdfLink salt key round))
    (Crypto.sha256 (kdfStart password salt))

def streamInput (key : Bytes) (nonce : Bytes32) (counter : ℕ) : Bytes :=
  utf8 "IEUM-KEYSTORE-STREAM-V1" ++ key ++ nonce.1 ++ beBytes 8 counter

def crypt (input key : Bytes) (nonce : Bytes32) : Bytes :=
  xorFrom (fun counter => Crypto.sha256 (streamInput key nonce counter)) 0 (chunks 32 input)

def macInput (key : Bytes) (nonce : Bytes32) (ciphertext : Bytes) : Bytes :=
  utf8 "IEUM-KEYSTORE-MAC-V1" ++ key ++ nonce.1 ++ ciphertext

def calculateMac (key : Bytes) (nonce : Bytes32) (ciphertext : Bytes) : Bytes :=
  Crypto.sha256 (macInput key nonce ciphertext)

/-- The hashed inputs of a key derivation. -/
def kdfInput (password : Bytes) (salt : Bytes32) : ℕ → Bytes :=
  HashChain.input Crypto.sha256 (kdfStart password salt) (kdfLink salt)

theorem deriveKey_eq (password : Bytes) (salt : Bytes32) (rounds : UInt32) :
    deriveKey password salt rounds = Crypto.sha256 (kdfInput password salt (rounds.toNat - 1)) :=
  foldl_links ..

theorem crypt_crypt (hdigest : ∀ bytes, (Crypto.sha256 bytes).length = 32)
    (input key : Bytes) (nonce : Bytes32) : crypt (crypt input key nonce) key nonce = input :=
  xorFrom_xorFrom (by decide) (fun _ => (hdigest _).ge) 0 input

theorem length_crypt (hdigest : ∀ bytes, (Crypto.sha256 bytes).length = 32)
    (input key : Bytes) (nonce : Bytes32) : (crypt input key nonce).length = input.length := by
  rw [crypt, length_xorFrom, flatten_chunks (by decide)]
  intro piece hpiece counter
  obtain ⟨i, -, rfl⟩ := List.mem_map.1 hpiece
  exact (List.length_take_le _ _).trans (hdigest _).ge

end

/-! ## Documents -/

section
variable [Crypto] [WalletKeys]

def AccountWallet.keystoreFile (wallet : AccountWallet) (password : String) (salt nonce : Bytes32) :
    KeystoreFile :=
  let key := deriveKey (utf8 password) salt kdfRounds
  let ciphertext := crypt wallet.signingKey.1 key nonce
  { version := 1, address := wallet.address, salt := hexEncode salt.1, nonce := hexEncode nonce.1
    ciphertext := hexEncode ciphertext, mac := hexEncode (calculateMac key nonce ciphertext)
    kdfRounds := kdfRounds }

/-- What loading does with the document it has read. -/
def KeystoreFile.unlock (document : KeystoreFile) (password : String) :
    Except String AccountWallet := do
  reject (document.version ≠ 1 ∨ document.kdfRounds < IeumChain.kdfRounds)
    "지원하지 않거나 너무 약한 keystore 버전입니다."
  let salt ← decode32 document.salt
  let nonce ← decode32 document.nonce
  let ciphertext ← okOr (hexDecode document.ciphertext) "keystore 암호문이 올바르지 않습니다."
  let expectedMac ← decode32 document.mac
  let key := deriveKey (utf8 password) salt document.kdfRounds
  reject (calculateMac key nonce ciphertext ≠ expectedMac.1)
    "keystore 비밀번호가 틀렸거나 파일이 변조되었습니다."
  let privateKey ← okOr (toBytes32 (crypt ciphertext key nonce))
    "keystore 개인키 길이가 잘못되었습니다."
  let wallet ← AccountWallet.fromPrivateKey privateKey
  reject (wallet.address ≠ document.address) "keystore 주소 검증에 실패했습니다."
  pure wallet

end

/-! ## The directory -/

/-- An entry of the directory. A file holds a document or anything else. -/
inductive Entry
  | directory
  | file (content : Option KeystoreFile)
  deriving Repr, DecidableEq

/-- The entries in the order in which the directory is read. -/
structure Keystore where
  entries : List (String × Entry)
  nodup : (entries.map Prod.fst).Nodup

def legacyPath (address : Address) : String :=
  String.ofList ((normalizeAddress address).toList.drop 2) ++ ".json"

/-- A document that names the address, in whatever case. -/
def Entry.belongsTo (normalized : Address) : Entry → Bool
  | .file (some document) => normalizeAddress document.address = normalized
  | _ => false

@[simp] theorem Entry.belongsTo_document {normalized : Address} {document : KeystoreFile} :
    (Entry.file (some document)).belongsTo normalized = true ↔
      normalizeAddress document.address = normalized := decide_eq_true_iff

namespace Keystore

def names (store : Keystore) : List String := store.entries.map Prod.fst

def read (store : Keystore) (path : String) : Option Entry :=
  (store.entries.find? fun e => e.1 = path).map Prod.snd

def write (store : Keystore) (path : String) (entry : Entry) : Keystore where
  entries := (path, entry) :: store.entries.filter fun e => e.1 ≠ path
  nodup := by
    rw [List.map_cons, List.nodup_cons]
    constructor
    · intro hmem
      obtain ⟨e, he, hname⟩ := List.mem_map.1 hmem
      exact of_decide_eq_true (List.mem_filter.1 he).2 hname
    · exact store.nodup.sublist (List.filter_sublist.map Prod.fst)

def findPath (store : Keystore) (address : Address) : Except String String :=
  if legacyPath address ∈ store.names then .ok (legacyPath address)
  else okOr ((store.entries.find? fun e => e.2.belongsTo (normalizeAddress address)).map Prod.fst)
    "keystore 파일이 없습니다."

/-- The name of a new document. -/
def newPath (address : Address) (millis : ℕ) : String :=
  "UTC--" ++ decimal millis ++ "--" ++ lowercase (trimHexMarkers address)

/-- `clock` is the time in milliseconds, none before the epoch. -/
def newPathFor (store : Keystore) (address : Address) (clock : Option ℕ) : Except String String :=
  match store.findPath address with
  | .ok _ => .error "같은 주소의 keystore가 이미 존재합니다."
  | .error _ => do
      let millis ← okOr clock "시스템 시간이 UNIX epoch 이전입니다."
      pure (newPath address millis)

/-- The document is written under another name and renamed. -/
def atomicWrite (store : Keystore) (path : String) (document : KeystoreFile) :
    Except String Keystore := do
  reject (path ++ ".tmp" ∈ store.names) "File exists (os error 17)"
  reject (store.read path = some .directory) "Is a directory (os error 21)"
  pure (store.write path (.file (some document)))

variable [Crypto] [WalletKeys]

/-- `salt` and `nonce` are what the random generator has filled in. -/
def store (keystore : Keystore) (wallet : AccountWallet) (password : String)
    (salt nonce : Bytes32) (clock : Option ℕ) : Except String (Address × Keystore) := do
  validatePassword password
  let path ← keystore.newPathFor wallet.address clock
  let keystore ← keystore.atomicWrite path (wallet.keystoreFile password salt nonce)
  pure (wallet.address, keystore)

def load (keystore : Keystore) (address : Address) (password : String) :
    Except String AccountWallet := do
  let path ← keystore.findPath address
  match keystore.read path with
  | some (.file (some document)) => document.unlock password
  | some (.file none) => .error "keystore 파일이 손상되었습니다."
  | _ => .error "keystore 파일이 없습니다."

end Keystore

/-! ## Finding a document -/

namespace Keystore

variable {keystore directory : Keystore} {address : Address}

theorem read_eq_some {path : String} {entry : Entry} :
    keystore.read path = some entry ↔ (path, entry) ∈ keystore.entries := by
  rw [read, Option.map_eq_some_iff]
  constructor
  · rintro ⟨e, hfind, rfl⟩
    have hname : e.1 = path := by simpa using List.find?_some hfind
    exact hname ▸ List.mem_of_find?_eq_some hfind
  · intro hmem
    cases hfind : keystore.entries.find? fun e => e.1 = path with
    | none =>
        have hnone := List.find?_eq_none.1 hfind _ hmem
        exact absurd (decide_eq_true rfl) hnone
    | some e =>
        have hname : e.1 = path := by simpa using List.find?_some hfind
        have hsame := List.inj_on_of_nodup_map keystore.nodup (List.mem_of_find?_eq_some hfind) hmem
          hname
        exact ⟨e, rfl, congrArg Prod.snd hsame⟩

/-- No document of the directory can be found under the address. -/
structure Unknown (keystore : Keystore) (address : Address) : Prop where
  legacy : legacyPath address ∉ keystore.names
  other : ∀ e ∈ keystore.entries, e.2.belongsTo (normalizeAddress address) = false

theorem findPath_eq_error : (∃ e, keystore.findPath address = .error e) ↔
    keystore.Unknown address := by
  rw [findPath]
  constructor
  · rintro ⟨e, h⟩
    split_ifs at h with hlegacy
    rw [okOr_eq_error, Option.map_eq_none_iff, List.find?_eq_none] at h
    exact ⟨hlegacy, fun e he => Bool.eq_false_iff.2 (h.1 e he)⟩
  · intro h
    rw [if_neg h.legacy]
    refine ⟨_, okOr_eq_error.2 ⟨?_, rfl⟩⟩
    rw [Option.map_eq_none_iff, List.find?_eq_none]
    exact fun e he => Bool.eq_false_iff.1 (h.other e he)

/-- New names begin with a capital letter, those of the old scheme do not. -/
theorem newPath_ne_legacyPath (address other : Address) (millis : ℕ) :
    newPath address millis ≠ legacyPath other := by
  have hlower : ∀ c : Char, lowerChar c ≠ 'U' := by
    have hascii : ∀ n < 91, lowerChar (Char.ofNat n) ≠ 'U' := by decide
    intro c
    rcases Nat.lt_or_ge c.toNat 91 with hlt | hge
    · have hc := hascii c.toNat hlt
      rwa [Char.ofNat_toNat] at hc
    · have hnot : ¬('A' ≤ c ∧ c ≤ 'Z') := fun h => absurd (show c.toNat ≤ 90 from h.2) (by omega)
      rw [lowerChar, if_neg hnot]
      rintro rfl
      exact absurd hge (by decide)
  intro heq
  have hlists := congrArg String.toList heq
  have hnew : (newPath address millis).toList = 'U' :: ("TC--" ++ decimal millis ++ "--" ++
      lowercase (trimHexMarkers address)).toList := by
    simp [newPath, String.toList_append]
  have hlegacy : (legacyPath other).toList =
      (trimHexMarkers other).toList.map lowerChar ++ ".json".toList := by
    simp [legacyPath, normalizeAddress, lowercase, String.toList_append]
  rw [hnew, hlegacy] at hlists
  cases hchars : (trimHexMarkers other).toList with
  | nil =>
      rw [hchars] at hlists
      exact absurd (List.cons.inj hlists).1 (by decide)
  | cons c rest =>
      rw [hchars, List.map_cons, List.cons_append] at hlists
      exact hlower c (List.cons.inj hlists).1.symm

variable [Crypto] [WalletKeys]

theorem store_eq_ok {wallet : AccountWallet} {password : String} {salt nonce : Bytes32}
    {clock : Option ℕ} {stored : Address × Keystore} :
    keystore.store wallet password salt nonce clock = .ok stored ↔
      10 ≤ password.utf8ByteSize ∧ keystore.Unknown wallet.address ∧
      ∃ millis, clock = some millis ∧
        newPath wallet.address millis ++ ".tmp" ∉ keystore.names ∧
        keystore.read (newPath wallet.address millis) ≠ some .directory ∧
        stored = (wallet.address, keystore.write (newPath wallet.address millis)
          (.file (some (wallet.keystoreFile password salt nonce)))) := by
  have hpath : ∀ path, keystore.newPathFor wallet.address clock = .ok path ↔
      keystore.Unknown wallet.address ∧
        ∃ millis, clock = some millis ∧ newPath wallet.address millis = path := by
    intro path
    rw [newPathFor, ← findPath_eq_error]
    cases keystore.findPath wallet.address with
    | ok found => simp
    | error e =>
        simp only [bind_eq_ok, okOr_eq_ok, pure_eq_ok, Except.error.injEq, exists_eq', true_and]
  simp only [store, validatePassword, check_bind_eq_ok, reject_eq_ok, not_lt]
  simp only [bind_eq_ok, hpath, atomicWrite, reject_eq_ok, pure_eq_ok]
  constructor
  · rintro ⟨hlength, path, ⟨hunknown, millis, hclock, rfl⟩, _, ⟨_, htemporary, _, hdirectory, rfl⟩,
      rfl⟩
    exact ⟨hlength, hunknown, millis, hclock, htemporary, hdirectory, rfl⟩
  · rintro ⟨hlength, hunknown, millis, hclock, htemporary, hdirectory, rfl⟩
    exact ⟨hlength, _, ⟨hunknown, millis, hclock, rfl⟩, _,
      ⟨(), htemporary, (), hdirectory, rfl⟩, rfl⟩

/-- A document that was put into a directory without the address is the one that is found, if it
names the address, in whatever order the directory is read. -/
theorem load_write (hunknown : keystore.Unknown address) {path : String}
    (hpath : path ≠ legacyPath address) {document : KeystoreFile}
    (horder : directory.entries.Perm (keystore.write path (.file (some document))).entries)
    (password : String) : directory.load address password =
      if normalizeAddress document.address = normalizeAddress address then
        document.unlock password
      else .error "keystore 파일이 없습니다." := by
  have hlegacy : legacyPath address ∉ directory.names := by
    rw [names, (horder.map Prod.fst).mem_iff]
    intro hmem
    rcases List.mem_cons.1 hmem with heq | hmem
    · exact hpath heq.symm
    · exact hunknown.legacy ((List.filter_sublist.map Prod.fst).subset hmem)
  have hwritten : (path, .file (some document)) ∈ directory.entries :=
    horder.mem_iff.2 (List.mem_cons_self ..)
  have hothers : ∀ e ∈ directory.entries, e.2.belongsTo (normalizeAddress address) = true →
      e = (path, .file (some document)) := by
    intro e he hbelongs
    rcases List.mem_cons.1 (horder.mem_iff.1 he) with heq | hmem
    · exact heq
    · rw [hunknown.other e (List.mem_filter.1 hmem).1] at hbelongs
      cases hbelongs
  split_ifs with hnamed
  · have hbelongs := Entry.belongsTo_document.2 hnamed
    have hfound : directory.findPath address = .ok path := by
      rw [findPath, if_neg hlegacy, okOr_eq_ok]
      cases hfind : directory.entries.find? fun e => e.2.belongsTo (normalizeAddress address) with
      | none =>
          have hnone := List.find?_eq_none.1 hfind _ hwritten
          exact absurd hbelongs hnone
      | some e =>
          have hmatches : e.2.belongsTo (normalizeAddress address) = true := by
            simpa using List.find?_some hfind
          rw [hothers e (List.mem_of_find?_eq_some hfind) hmatches]
          rfl
    have hread := read_eq_some.2 hwritten
    simp only [load, hfound, bind, Except.bind, hread]
  · have hmissing : directory.findPath address = .error "keystore 파일이 없습니다." := by
      rw [findPath, if_neg hlegacy, okOr_eq_error, Option.map_eq_none_iff, List.find?_eq_none]
      refine ⟨fun e he hbelongs => ?_, rfl⟩
      rw [hothers e he hbelongs] at hbelongs
      exact hnamed (Entry.belongsTo_document.1 hbelongs)
    rw [load, hmissing]
    rfl

end Keystore

end IeumChain
