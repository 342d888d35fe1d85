import IeumChain.Library.PaddedOrder
import IeumChain.StandIn
import Mathlib.Data.List.DropRight

/-!
# Updates of the executable

A node replaces its own executable by a newer one that a signed manifest lists, in a few file
operations. The manifests and the files come over the network, and an update can end after each of
the operations. What is there to start remains genuine, and versions only go up.
-/
namespace IeumChain

open ByteCodec Text Outcome MachineWords PaddedOrder

/-! ## Versions -/

/-- A sign in front is allowed. -/
def parseU64 (part : List Char) : Option ℕ :=
  let digits := if part.head? = some '+' then part.tail else part
  if digits ≠ [] ∧ digits.all Char.isDigit = true ∧ Nat.ofDigitChars 10 digits 0 ≤ u64Max then
    some (Nat.ofDigitChars 10 digits 0)
  else none

def versionParts (value : String) : Except String (List ℕ) :=
  let normalized := (value.toList.dropWhile (· = 'v')).map fun c => if c = '-' then '.' else c
  (normalized.splitOn '.').mapM fun part => okOr (parseU64 part) ("잘못된 버전: " ++ value)

def isNewer (current candidate : String) : Except String Bool := do
  let current ← versionParts current
  let candidate ← versionParts candidate
  pure (decide (paddedLt 0 current candidate))

theorem isNewer_eq_true {current candidate : String} :
    isNewer current candidate = .ok true ↔ ∃ a b, versionParts current = .ok a ∧
      versionParts candidate = .ok b ∧ paddedLt 0 a b := by
  simp [isNewer]

/-- Versions are compared by a strict order. -/
theorem isNewer_trans {a b c : String} (hab : isNewer a b = .ok true)
    (hbc : isNewer b c = .ok true) : isNewer a c = .ok true := by
  obtain ⟨x, y, hx, hy, hxy⟩ := isNewer_eq_true.1 hab
  obtain ⟨y', z, hy', hz, hyz⟩ := isNewer_eq_true.1 hbc
  cases hy.symm.trans hy'
  exact isNewer_eq_true.2 ⟨x, z, hx, hz, paddedLt_trans 0 hxy hyz⟩

/-! ## Manifests -/

structure UpdateArtifact where
  url : String
  sha256 : String

/-- The artifacts are the entries of a sorted map, in its order. -/
structure UpdateManifest where
  version : String
  protocolVersion : ℕ
  mandatory : Bool
  publishedAt : ℕ
  notes : String
  artifacts : List (String × UpdateArtifact)
  signature : String

inductive UpdateResult
  | current
  | installed
  deriving DecidableEq

def UpdateArtifact.json (a : UpdateArtifact) : Json :=
  jsonObject [("url", jsonString a.url), ("sha256", jsonString a.sha256)]

/-- What is signed. -/
def UpdateManifest.unsigned (m : UpdateManifest) : Json :=
  jsonObject [("version", jsonString m.version), ("protocol_version", jsonNumber m.protocolVersion),
    ("mandatory", jsonBool m.mandatory), ("published_at", jsonNumber m.publishedAt),
    ("notes", jsonString m.notes),
    ("artifacts", jsonObject (m.artifacts.map fun e => (e.1, e.2.json)))]

theorem UpdateManifest.unsigned_signed (m : UpdateManifest) (signature : String) :
    ({ m with signature } : UpdateManifest).unsigned = m.unsigned := rfl

def UpdateManifest.artifact (m : UpdateManifest) (platform : String) : Option UpdateArtifact :=
  (m.artifacts.find? (·.1 = platform)).map (·.2)

def decodeFixed (n : ℕ) (value name : String) : Except String Bytes := do
  let bytes ← okOr (hexDecode (trimHexMarkers (trim value))) (name ++ "은 hex여야 합니다.")
  reject (bytes.length ≠ n) (name ++ "은 " ++ decimal n ++ "바이트여야 합니다.")
  pure bytes

theorem decodeFixed_hexEncode {n : ℕ} {bytes : Bytes} (h : bytes.length = n) (name : String) :
    decodeFixed n (hexEncode bytes) name = .ok bytes := by
  rw [decodeFixed, trim_hexEncode, trimHexMarkers_hexEncode, hexDecode_hexEncode]
  simp [okOr, reject, h]

/-- The platform that the executable is built for. -/
structure Platform where
  os : String
  arch : String

def Platform.name (p : Platform) : String := p.os ++ "-" ++ p.arch

def Platform.validateExecutableBytes (p : Platform) (bytes : Bytes) : Except String Unit := do
  reject (p.os = "linux" ∧ ¬[0x7f, 0x45, 0x4c, 0x46] <+: bytes)
    "Linux 업데이트 파일이 ELF 실행파일이 아닙니다. tar.xz URL이 아닌 무압축 바이너리 raw URL을 사용하세요."
  reject (p.os = "windows" ∧ ¬[0x4d, 0x5a] <+: bytes)
    "Windows 업데이트 파일이 PE 실행파일이 아닙니다."

def cacheBustedUrl (url : String) (nonce : ℕ) : String :=
  url ++ (if '?' ∈ url.toList then "&" else "?") ++ "ieum_update_check=" ++ decimal nonce

/-- The address stays what it is up to its end. -/
theorem startsWith_cacheBustedUrl {url start : String} (h : startsWith url start = true)
    (nonce : ℕ) : startsWith (cacheBustedUrl url nonce) start = true := by
  rw [startsWith, List.isPrefixOf_iff_prefix] at h ⊢
  rw [cacheBustedUrl, String.toList_append, String.toList_append, String.toList_append,
    List.append_assoc, List.append_assoc]
  exact h.trans (List.prefix_append _ _)

def downloadHttps (net : String → Except String Bytes) (url : String) : Except String Bytes := do
  reject (startsWith url "https://" = false) "업데이트 주소는 HTTPS만 허용합니다."
  net url

/-- The configured address and key, the platform and how a manifest is read. -/
structure UpdateSource where
  manifestUrl : String
  releasePublicKey : String
  platform : Platform
  decode : Bytes → Except String UpdateManifest

def UpdateSource.fetchManifest (source : UpdateSource) (net : String → Except String Bytes)
    (nonce : ℕ) : Except String UpdateManifest := do
  let bytes ← downloadHttps net (cacheBustedUrl source.manifestUrl nonce)
  source.decode bytes

section
variable [Crypto]

def UpdateManifest.verify (m : UpdateManifest) (releasePublicKey : String) :
    Except String Unit := do
  let key ← decodeFixed 32 releasePublicKey "릴리스 공개키"
  let signature ← decodeFixed 64 m.signature "manifest 서명"
  reject (¬Crypto.ed25519KeyValid key) "릴리스 공개키가 올바른 Ed25519 키가 아닙니다."
  reject (¬Crypto.ed25519Verify key (utf8 (String.ofList m.unsigned)) signature)
    "업데이트 manifest 서명이 일치하지 않습니다."

theorem UpdateManifest.verify_eq_ok {m : UpdateManifest} {releasePublicKey : String} :
    m.verify releasePublicKey = .ok () ↔ ∃ key signature,
      decodeFixed 32 releasePublicKey "릴리스 공개키" = .ok key ∧
        decodeFixed 64 m.signature "manifest 서명" = .ok signature ∧
          Crypto.ed25519KeyValid key = true ∧
            Crypto.ed25519Verify key (utf8 (String.ofList m.unsigned)) signature = true := by
  simp [UpdateManifest.verify]

/-- `install_current_platform` up to the first change of a file. -/
def UpdateSource.downloadArtifact (source : UpdateSource) (net : String → Except String Bytes)
    (manifest : UpdateManifest) : Except String Bytes := do
  let artifact ← okOr (manifest.artifact source.platform.name)
    (source.platform.name ++ "용 업데이트 파일이 없습니다.")
  let bytes ← downloadHttps net artifact.url
  reject (lowercase (sha256Hex bytes) ≠ lowercase (trimHexMarkers artifact.sha256))
    "업데이트 파일 SHA-256이 manifest와 다릅니다."
  source.platform.validateExecutableBytes bytes
  pure bytes

/-- What a process of some version is ready to install. -/
def UpdateSource.approve (source : UpdateSource) (net : String → Except String Bytes) (nonce : ℕ)
    (running : String) : Except String (Option (UpdateManifest × Bytes)) := do
  let manifest ← source.fetchManifest net nonce
  manifest.verify source.releasePublicKey
  let newer ← isNewer running manifest.version
  match newer with
  | false => pure none
  | true => do
      let bytes ← source.downloadArtifact net manifest
      pure (some (manifest, bytes))

end

/-! ## Files -/

/-- The executable, the file with `new` at its end and the one with `previous`. -/
structure Executables where
  current : Option Bytes
  next : Option Bytes
  previous : Option Bytes

/-- The operation that an update ends with. After a failed replacement the old file is put back;
this can fail, too, or the process can end before. -/
inductive StageFault
  | write (written : ℕ)
  | permissions
  | remove
  | backup
  | replace
  | restore
  | killed
  deriving DecidableEq

namespace Executables

/-- From the backup on. -/
def replaceCurrent (fault : Option (StageFault × String)) (s : Executables) (bytes : Bytes) :
    Executables × Except String Unit :=
  let moved : Executables := { current := none, next := some bytes, previous := s.current }
  match s.current, fault with
  | none, _ => (s, .error "기존 실행 파일 백업 실패: No such file or directory (os error 2)")
  | some _, some (.backup, e) => (s, .error ("기존 실행 파일 백업 실패: " ++ e))
  | some old, some (.replace, e) =>
      ({ current := some old, next := some bytes, previous := none },
        .error ("새 실행 파일 교체 실패(기존 파일 복구): " ++ e))
  | some _, some (.restore, e) => (moved, .error ("새 실행 파일 교체 실패(기존 파일 복구): " ++ e))
  | some _, some (.killed, e) => (moved, .error e)
  | some old, _ => ({ current := some bytes, next := none, previous := some old }, .ok ())

def stageOrReplace (fault : Option (StageFault × String)) (s : Executables) (bytes : Bytes) :
    Executables × Except String Unit :=
  let written : Executables := { s with next := some bytes }
  match fault, s.previous with
  | some (.write n, e), _ => ({ s with next := some (bytes.take n) }, .error e)
  | some (.permissions, e), _ => (written, .error e)
  | some (.remove, e), some _ => (written, .error e)
  | fault, _ => replaceCurrent fault { written with previous := none } bytes

end Executables

/-! ## A machine -/

/-- The files and the version of the process that runs. The executable keeps the path at which the
process was started. On Linux the path that a process reads for itself follows the renaming, so
that a second update within one process would replace the file with `previous`; here it starts
from the executable again. -/
structure Machine where
  files : Executables
  running : Option String

/-- A check happens at intervals, at a hint of a peer or as a command; at the start of a client a
person can be asked. -/
inductive UpdateEvent
  | start
  | stop
  | check (net : String → Except String Bytes) (nonce : ℕ) (fault : Option (StageFault × String))
  | prompt (net : String → Except String Bytes) (nonce : ℕ) (confirmed : Bool)
      (fault : Option (StageFault × String))

namespace Machine

section
variable [Crypto] (source : UpdateSource) (build : Bytes → String)

/-- `install_non_interactive`. -/
def install (fault : Option (StageFault × String)) (files : Executables)
    (approved : Except String (Option (UpdateManifest × Bytes))) :
    Executables × Except String UpdateResult :=
  match approved with
  | .error e => (files, .error e)
  | .ok none => (files, .ok .current)
  | .ok (some (_, bytes)) =>
      let (files, result) := files.stageOrReplace fault bytes
      (files, result.map fun _ => .installed)

/-- A node ends with its update, to be started again; a client goes on. -/
def step (m : Machine) : UpdateEvent → Machine
  | .start => { m with running := m.files.current.map build }
  | .stop => { m with running := none }
  | .check net nonce fault =>
      match m.running with
      | none => m
      | some version =>
          match install fault m.files (source.approve net nonce version) with
          | (files, .ok .installed) => { files, running := none }
          | (files, _) =>
              { files, running := if fault.map (·.1) = some .killed then none else some version }
  | .prompt net nonce confirmed fault =>
      match m.running, confirmed with
      | none, _ => m
      | _, false => m
      | some version, true =>
          { files := (install fault m.files (source.approve net nonce version)).1
            running := if fault.map (·.1) = some .killed then none else some version }

def run (m : Machine) (events : List UpdateEvent) : Machine := events.foldl (step source build) m

/-- With one executable and no traces of an update. -/
def fresh (first : Bytes) : Machine :=
  { files := { current := some first, next := none, previous := none }, running := none }

end

/-! ## What stays true -/

section
variable [Crypto] {source : UpdateSource} {build : Bytes → String} {first : Bytes} {m : Machine}

/-- The first executable, or one that a signed manifest lists. -/
def Genuine (source : UpdateSource) (first bytes : Bytes) : Prop :=
  bytes = first ∨ ∃ net manifest, manifest.verify source.releasePublicKey = .ok () ∧
    source.downloadArtifact net manifest = .ok bytes

/-- What is approved is listed by a signed manifest of a higher version. -/
theorem approve_eq_some {net : String → Except String Bytes} {nonce : ℕ} {running : String}
    {manifest : UpdateManifest} {bytes : Bytes}
    (h : source.approve net nonce running = .ok (some (manifest, bytes))) :
    source.fetchManifest net nonce = .ok manifest ∧
      manifest.verify source.releasePublicKey = .ok () ∧
        isNewer running manifest.version = .ok true ∧
          source.downloadArtifact net manifest = .ok bytes := by
  rw [UpdateSource.approve, bind_eq_ok] at h
  obtain ⟨m, hfetch, h⟩ := h
  rw [check_bind_eq_ok, bind_eq_ok] at h
  obtain ⟨hverify, newer, hnewer, h⟩ := h
  cases newer with
  | false => cases h
  | true =>
      simp only [bind_eq_ok, pure_eq_ok, Option.some.injEq, Prod.mk.injEq] at h
      obtain ⟨_, hbytes, rfl, rfl⟩ := h
      exact ⟨hfetch, hverify, hnewer, hbytes⟩

/-- What an update can do to the files. -/
inductive Updated (fault : Option StageFault) (s : Executables) (bytes : Bytes) :
    Executables → Except String Unit → Prop
  | failed (next previous : Option Bytes) (e : String)
      (hprevious : previous = s.previous ∨ previous = none) :
      Updated fault s bytes { current := s.current, next, previous } (.error e)
  | moved (next : Option Bytes) (e : String)
      (hfault : fault = some .restore ∨ fault = some .killed) :
      Updated fault s bytes { current := none, next, previous := s.current } (.error e)
  | installed (hcurrent : s.current.isSome = true) :
      Updated fault s bytes { current := some bytes, next := none, previous := s.current } (.ok ())

omit [Crypto] in
theorem updated_replaceCurrent (fault : Option (StageFault × String)) (s : Executables)
    (next : Option Bytes) (bytes : Bytes) {result : Executables × Except String Unit}
    (h : Executables.replaceCurrent fault { current := s.current, next, previous := none } bytes =
      result) : Updated (fault.map (·.1)) s bytes result.1 result.2 := by
  subst h
  obtain ⟨current, oldNext, previous⟩ := s
  cases current with
  | none => exact .failed _ _ _ (.inr rfl)
  | some old =>
      rcases fault with _ | ⟨kind, e⟩
      · exact .installed rfl
      · cases kind with
        | backup => exact .failed _ _ _ (.inr rfl)
        | replace => exact .failed _ _ _ (.inr rfl)
        | restore => exact .moved _ _ (.inl rfl)
        | killed => exact .moved _ _ (.inr rfl)
        | _ => exact .installed rfl

omit [Crypto] in
theorem updated_stageOrReplace (fault : Option (StageFault × String)) (s : Executables)
    (bytes : Bytes) : Updated (fault.map (·.1)) s bytes (s.stageOrReplace fault bytes).1
      (s.stageOrReplace fault bytes).2 := by
  unfold Executables.stageOrReplace
  split
  · exact .failed _ _ _ (.inl rfl)
  · exact .failed _ _ _ (.inl rfl)
  · exact .failed _ _ _ (.inl rfl)
  · exact updated_replaceCurrent _ _ _ _ rfl

/-- What an event approves for a running version. -/
def Approves (source : UpdateSource) (version : String) (approved : UpdateManifest × Bytes) :
    UpdateEvent → Prop
  | .check net nonce _ => source.approve net nonce version = .ok (some approved)
  | .prompt net nonce _ _ => source.approve net nonce version = .ok (some approved)
  | _ => False

def faultOf : UpdateEvent → Option StageFault
  | .check _ _ fault => fault.map (·.1)
  | .prompt _ _ _ fault => fault.map (·.1)
  | _ => none

def Prompts : UpdateEvent → Prop
  | .prompt _ _ _ _ => True
  | _ => False

/-- What a step can do. -/
inductive Stepped (source : UpdateSource) (build : Bytes → String) (m : Machine) (e : UpdateEvent) :
    Machine → Prop
  | idle (running : Option String)
      (h : running = none ∨ running = m.running ∨ running = m.files.current.map build) :
      Stepped source build m e { m with running }
  | updated {version : String} {approved : UpdateManifest × Bytes} {files : Executables}
      {result : Except String Unit} (running : Option String) (hrunning : m.running = some version)
      (happroved : Approves source version approved e)
      (hfiles : Updated (faultOf e) m.files approved.2 files result)
      (hgoes : running = none ∨ running = some version ∧ faultOf e ≠ some .killed ∧
        (Prompts e ∨ result ≠ .ok ())) :
      Stepped source build m e { files, running }

/-- After an update the process has ended, or goes on if it has not been killed. -/
theorem stepped_install {version : String} {fault : Option (StageFault × String)}
    {approved : Except String (Option (UpdateManifest × Bytes))} (e : UpdateEvent)
    (hrunning : m.running = some version)
    (happroves : ∀ a, approved = .ok (some a) → Approves source version a e)
    (hfault : fault.map (·.1) = faultOf e) {running : Option String}
    (hgoes : running = none ∨ running = some version ∧ faultOf e ≠ some .killed ∧
      (Prompts e ∨ (install fault m.files approved).2 ≠ .ok .installed)) :
    Stepped source build m e { files := (install fault m.files approved).1, running } := by
  have hkept : running = none ∨ running = m.running ∨ running = m.files.current.map build := by
    rw [hrunning]
    exact hgoes.imp_right fun h => .inl h.1
  cases approved with
  | error message => exact .idle running hkept
  | ok approved =>
      cases approved with
      | none => exact .idle running hkept
      | some approved =>
          have hfiles := updated_stageOrReplace fault m.files approved.2
          rw [hfault] at hfiles
          refine .updated running hrunning (happroves approved rfl) hfiles ?_
          refine hgoes.imp_right fun h => ⟨h.1, h.2.1, h.2.2.imp_right fun hne hok => hne ?_⟩
          simp [install, hok, Except.map]

theorem stepped_step (source : UpdateSource) (build : Bytes → String) (m : Machine)
    (e : UpdateEvent) : Stepped source build m e (m.step source build e) := by
  cases e with
  | start => exact .idle _ (.inr (.inr rfl))
  | stop => exact .idle _ (.inl rfl)
  | check net nonce fault =>
      unfold step
      cases hrunning : m.running with
      | none => exact .idle m.running (.inr (.inl rfl))
      | some version =>
          have hinstall : ∀ running, _ → Stepped source build m (.check net nonce fault)
              { files := (install fault m.files (source.approve net nonce version)).1, running } :=
            fun _ => stepped_install (.check net nonce fault) hrunning (fun _ h => h) rfl
          dsimp only
          generalize install fault m.files (source.approve net nonce version) = result at hinstall
          obtain ⟨files, answer⟩ := result
          split
          · next heq =>
              cases heq
              exact hinstall none (.inl rfl)
          · next hnot heq =>
              cases heq
              refine hinstall _ ?_
              by_cases hkilled : fault.map (·.1) = some .killed
              · exact .inl (if_pos hkilled)
              · exact .inr ⟨if_neg hkilled, hkilled, .inr fun hok => hnot hok⟩
  | prompt net nonce confirmed fault =>
      unfold step
      cases hrunning : m.running with
      | none => exact .idle m.running (.inr (.inl rfl))
      | some version =>
          cases confirmed with
          | false => exact .idle m.running (.inr (.inl rfl))
          | true =>
              refine stepped_install (.prompt net nonce true fault) hrunning (fun _ h => h) rfl ?_
              by_cases hkilled : fault.map (·.1) = some .killed
              · exact .inl (if_pos hkilled)
              · exact .inr ⟨if_neg hkilled, hkilled, .inl trivial⟩

/-- An approved update that nothing ends puts its file in the place of the executable. -/
theorem current_check {net : String → Except String Bytes} {nonce : ℕ} {version : String}
    {approved : UpdateManifest × Bytes} (hrunning : m.running = some version)
    (happroved : source.approve net nonce version = .ok (some approved))
    (hcurrent : m.files.current.isSome = true) :
    (m.step source build (.check net nonce none)).files.current = some approved.2 := by
  obtain ⟨old, hold⟩ := Option.isSome_iff_exists.1 hcurrent
  simp [step, hrunning, happroved, install, Executables.stageOrReplace, Executables.replaceCurrent,
    hold, Except.map]

/-- When the process ends in the middle, there is no file in that place. -/
theorem current_check_killed {net : String → Except String Bytes} {nonce : ℕ} {version e : String}
    {approved : UpdateManifest × Bytes} (hrunning : m.running = some version)
    (happroved : source.approve net nonce version = .ok (some approved))
    (hcurrent : m.files.current.isSome = true) :
    (m.step source build (.check net nonce (some (.killed, e)))).files.current = none := by
  obtain ⟨old, hold⟩ := Option.isSome_iff_exists.1 hcurrent
  simp [step, hrunning, happroved, install, Executables.stageOrReplace, Executables.replaceCurrent,
    hold, Except.map]

/-! ## Executables that can be started -/

/-- Everything that has been the executable is genuine. -/
structure Sound (source : UpdateSource) (first : Bytes) (m : Machine) : Prop where
  current : ∀ b, m.files.current = some b → Genuine source first b
  previous : ∀ b, m.files.previous = some b → Genuine source first b

/-- There is an executable, or a process that has been killed left it behind. -/
def Restorable (m : Machine) : Prop :=
  m.files.current.isSome = true ∨ m.files.previous.isSome = true ∧ m.running = none

theorem genuine_of_approves {version : String} {approved : UpdateManifest × Bytes} {e : UpdateEvent}
    (h : Approves source version approved e) : Genuine source first approved.2 := by
  cases e with
  | check net nonce fault =>
      obtain ⟨-, hverify, -, hbytes⟩ := approve_eq_some h
      exact .inr ⟨net, approved.1, hverify, hbytes⟩
  | prompt net nonce confirmed fault =>
      obtain ⟨-, hverify, -, hbytes⟩ := approve_eq_some h
      exact .inr ⟨net, approved.1, hverify, hbytes⟩
  | start => cases h
  | stop => cases h

theorem Sound.step (h : m.Sound source first) (e : UpdateEvent) :
    (m.step source build e).Sound source first := by
  have hstepped := stepped_step source build m e
  generalize m.step source build e = m' at hstepped ⊢
  cases hstepped with
  | idle running => exact ⟨h.current, h.previous⟩
  | updated running hrunning happroved hfiles hgoes =>
      cases hfiles with
      | failed next previous message hprevious =>
          refine ⟨h.current, fun b hb => ?_⟩
          rcases hprevious with rfl | rfl
          · exact h.previous b hb
          · cases hb
      | moved next message => exact ⟨nofun, h.current⟩
      | installed =>
          refine ⟨?_, h.current⟩
          rintro _ ⟨⟩
          exact genuine_of_approves happroved

theorem Restorable.step (h : m.Restorable) {e : UpdateEvent} (hfault : faultOf e ≠ some .restore) :
    (m.step source build e).Restorable := by
  have hstepped := stepped_step source build m e
  generalize m.step source build e = m' at hstepped ⊢
  cases hstepped with
  | idle running hrunning =>
      rcases h with hcurrent | ⟨hprevious, hnone⟩
      · exact .inl hcurrent
      · cases hcurrent : m.files.current with
        | some b => exact .inl (by rw [hcurrent]; rfl)
        | none =>
            refine .inr ⟨hprevious, ?_⟩
            rw [hcurrent, hnone] at hrunning
            rcases hrunning with h | h | h <;> exact h
  | @updated version approved files result running hrunning happroved hfiles hgoes =>
      have hcurrent : m.files.current.isSome = true := by
        rcases h with hcurrent | ⟨-, hnone⟩
        · exact hcurrent
        · cases hnone.symm.trans hrunning
      cases hfiles with
      | failed next previous message hprevious => exact .inl hcurrent
      | moved next message hkind =>
          have hkilled : faultOf e = some .killed := hkind.resolve_left hfault
          exact .inr ⟨hcurrent, hgoes.resolve_right fun h => h.2.1 hkilled⟩
      | installed => exact .inl rfl

theorem run_nil (source : UpdateSource) (build : Bytes → String) (m : Machine) :
    m.run source build [] = m := rfl

theorem run_cons (source : UpdateSource) (build : Bytes → String) (m : Machine) (e : UpdateEvent)
    (rest : List UpdateEvent) :
    m.run source build (e :: rest) = (m.step source build e).run source build rest := rfl

theorem Sound.run (h : m.Sound source first) (events : List UpdateEvent) :
    (m.run source build events).Sound source first := by
  induction events generalizing m with
  | nil => exact h
  | cons e rest ih => exact ih (h.step e)

theorem Restorable.run (h : m.Restorable) {events : List UpdateEvent}
    (hfaults : ∀ e ∈ events, faultOf e ≠ some .restore) :
    (m.run source build events).Restorable := by
  induction events generalizing m with
  | nil => exact h
  | cons e rest ih =>
      rw [List.forall_mem_cons] at hfaults
      exact ih (h.step hfaults.1) hfaults.2

theorem sound_fresh (source : UpdateSource) (first : Bytes) : (fresh first).Sound source first := by
  refine ⟨?_, nofun⟩
  rintro _ ⟨⟩
  exact .inl rfl

/-- Whatever is served and wherever updates end, an executable that has not come with the machine is
listed by a signed manifest. Unless putting back the old file fails, too, there is always one to
start, at its place or beside it. -/
theorem executable_kept (source : UpdateSource) (build : Bytes → String) (first : Bytes)
    (events : List UpdateEvent) :
    (∀ b, ((fresh first).run source build events).files.current = some b →
      Genuine source first b) ∧
    ((∀ e ∈ events, faultOf e ≠ some .restore) → ∃ b, Genuine source first b ∧
      (((fresh first).run source build events).files.current = some b ∨
        ((fresh first).run source build events).files.current = none ∧
          ((fresh first).run source build events).files.previous = some b)) := by
  have hsound : ((fresh first).run source build events).Sound source first :=
    (sound_fresh source first).run events
  refine ⟨hsound.current, fun hfaults => ?_⟩
  have hrestorable : ((fresh first).run source build events).Restorable :=
    Restorable.run (.inl rfl) hfaults
  generalize (fresh first).run source build events = m at hsound hrestorable ⊢
  cases hcurrent : m.files.current with
  | some b => exact ⟨b, hsound.current b hcurrent, .inl rfl⟩
  | none =>
      rcases hrestorable with hsome | ⟨hsome, -⟩
      · rw [hcurrent] at hsome
        cases hsome
      · obtain ⟨b, hb⟩ := Option.isSome_iff_exists.1 hsome
        exact ⟨b, hsound.previous b hb, .inr ⟨rfl, hb⟩⟩

/-! ## Versions go up -/

/-- The process runs the executable that is there. -/
def Reports (build : Bytes → String) (m : Machine) : Prop :=
  ∀ version b, m.running = some version → m.files.current = some b → build b = version

/-- A step without a person, in which a file has the version that the manifest gives it. -/
structure Labelled (source : UpdateSource) (build : Bytes → String) (e : UpdateEvent) : Prop where
  unattended : ¬Prompts e
  version : ∀ running approved, Approves source running approved e →
    build approved.2 = approved.1.version

/-- The same executable, or one of a higher version. -/
def Above (build : Bytes → String) (b b' : Bytes) : Prop :=
  b = b' ∨ isNewer (build b) (build b') = .ok true

theorem newer_of_approves {version : String} {approved : UpdateManifest × Bytes} {e : UpdateEvent}
    (h : Approves source version approved e) : isNewer version approved.1.version = .ok true := by
  cases e with
  | check net nonce fault => exact (approve_eq_some h).2.2.1
  | prompt net nonce confirmed fault => exact (approve_eq_some h).2.2.1
  | start => cases h
  | stop => cases h

omit [Crypto] in
theorem Above.trans {a b c : Bytes} (hab : Above build a b) (hbc : Above build b c) :
    Above build a c := by
  rcases hab with rfl | hab
  · exact hbc
  · rcases hbc with rfl | hbc
    · exact .inr hab
    · exact .inr (isNewer_trans hab hbc)

/-- A step leaves the executable, takes it away or replaces it by a newer one. -/
theorem Reports.step (h : m.Reports build) {e : UpdateEvent} (he : Labelled source build e) :
    (m.step source build e).Reports build ∧ ∀ b', (m.step source build e).files.current = some b' →
      ∃ b, m.files.current = some b ∧ Above build b b' := by
  have hstepped := stepped_step source build m e
  generalize m.step source build e = m' at hstepped ⊢
  cases hstepped with
  | idle running hrunning =>
      refine ⟨fun version b hv hb => ?_, fun b' hb' => ⟨b', hb', .inl rfl⟩⟩
      rcases hrunning with h' | h' | h'
      · cases h'.symm.trans hv
      · exact h version b (h'.symm.trans hv) hb
      · rw [h', hb] at hv
        exact Option.some.inj hv
  | @updated version approved files result running hrunning happroved hfiles hgoes =>
      cases hfiles with
      | failed next previous message hprevious =>
          refine ⟨fun v b hv hb => ?_, fun b' hb' => ⟨b', hb', .inl rfl⟩⟩
          rcases hgoes with hnone | ⟨hsome, -⟩
          · cases hnone.symm.trans hv
          · exact h v b (hrunning.trans (hsome.symm.trans hv)) hb
      | moved next message hkind =>
          refine ⟨fun _ _ _ hb => ?_, nofun⟩
          cases hb
      | installed hcurrent =>
          obtain ⟨b, hb⟩ := Option.isSome_iff_exists.1 hcurrent
          have hnone : running = none := hgoes.resolve_right fun hsome =>
            hsome.2.2.elim he.unattended fun hne => hne rfl
          refine ⟨fun v b' hv => absurd (hnone.symm.trans hv) nofun, ?_⟩
          rintro _ ⟨⟩
          refine ⟨b, hb, .inr ?_⟩
          rw [h version b hrunning hb, he.version version approved happroved]
          exact newer_of_approves happroved

theorem Reports.run (h : m.Reports build) {events : List UpdateEvent}
    (hevents : ∀ e ∈ events, Labelled source build e) :
    (m.run source build events).Reports build ∧
      ∀ b', (m.run source build events).files.current = some b' →
        ∃ b, m.files.current = some b ∧ Above build b b' := by
  induction events generalizing m with
  | nil => exact ⟨h, fun b hb => ⟨b, hb, .inl rfl⟩⟩
  | cons e rest ih =>
      rw [List.forall_mem_cons] at hevents
      obtain ⟨hnext, hstep⟩ := h.step hevents.1
      obtain ⟨hlast, hrest⟩ := ih hnext hevents.2
      refine ⟨hlast, fun b' hb' => ?_⟩
      obtain ⟨b₁, hb₁, habove₁⟩ := hrest b' hb'
      obtain ⟨b, hb, habove⟩ := hstep b₁ hb₁
      exact ⟨b, hb, habove.trans habove₁⟩

/-- A node that updates itself never goes back: at a later time there is the same executable, one of
a higher version or, if an update was cut off, none. -/
theorem versions_go_up (first : Bytes) {before after : List UpdateEvent}
    (hbefore : ∀ e ∈ before, Labelled source build e)
    (hafter : ∀ e ∈ after, Labelled source build e) {b' : Bytes}
    (hlater : ((fresh first).run source build (before ++ after)).files.current = some b') :
    ∃ b, ((fresh first).run source build before).files.current = some b ∧ Above build b b' := by
  have hreports : ((fresh first).run source build before).Reports build :=
    (Reports.run (fun _ _ hv => by cases hv) hbefore).1
  rw [run, List.foldl_append] at hlater
  exact (hreports.run hafter).2 b' hlater

end

end Machine

/-! A release that a node installs. -/

namespace Release

open Machine

local instance releaseCrypto : Crypto := StandIn.crypto StandIn.digest

def first : Bytes := [0x7f, 0x45, 0x4c, 0x46]

def file : Bytes := [0x7f, 0x45, 0x4c, 0x46, 1]

def draft : UpdateManifest :=
  { version := "1.0.7-2", protocolVersion := 1, mandatory := false, publishedAt := 0, notes := ""
    artifacts := [("linux-x86_64", { url := "https://ieum/node", sha256 := sha256Hex file })]
    signature := "" }

def manifest : UpdateManifest :=
  { draft with signature := StandIn.sign 1 (utf8 (String.ofList draft.unsigned)) }

def source : UpdateSource :=
  { manifestUrl := "https://ieum/update.json", releasePublicKey := StandIn.address 1
    platform := { os := "linux", arch := "x86_64" }, decode := fun _ => .ok manifest }

def build (bytes : Bytes) : String := if bytes = file then "1.0.7-2" else "1.0.7-1"

def served (_ : String) : Except String Bytes := .ok file

theorem verify_manifest : manifest.verify source.releasePublicKey = .ok () := by
  have hkey : ∀ name, decodeFixed 32 source.releasePublicKey name = .ok (StandIn.key 1) :=
    fun _ => decodeFixed_hexEncode rfl _
  have hsign : ∀ message name, decodeFixed 64 (StandIn.sign 1 message) name =
      .ok (StandIn.key 1 ++ StandIn.digest message) :=
    fun _ _ => decodeFixed_hexEncode (by simp [StandIn.key, StandIn.length_digest]) _
  have hsignature : manifest.signature =
      StandIn.sign 1 (utf8 (String.ofList draft.unsigned)) := rfl
  have hunsigned : manifest.unsigned = draft.unsigned := draft.unsigned_signed _
  have hverify : ∀ message, Crypto.ed25519Verify (StandIn.key 1) message
      (StandIn.key 1 ++ StandIn.digest message) = true := fun _ => decide_eq_true rfl
  refine UpdateManifest.verify_eq_ok.2 ⟨_, _, hkey _, ?_, rfl, hverify _⟩
  rw [hsignature, hunsigned]
  exact hsign _ _

theorem fetch_manifest : source.fetchManifest served 0 = .ok manifest := by
  have hstart : startsWith source.manifestUrl "https://" = true := by decide
  have hurl : startsWith (cacheBustedUrl source.manifestUrl 0) "https://" ≠ false := by
    rw [startsWith_cacheBustedUrl hstart 0]
    exact nofun
  rw [UpdateSource.fetchManifest, bind_eq_ok]
  exact ⟨file, check_bind_eq_ok.2 ⟨reject_eq_ok.2 hurl, rfl⟩, rfl⟩

theorem download_file : source.downloadArtifact served manifest = .ok file := by
  have hartifact : manifest.artifact source.platform.name =
      some { url := "https://ieum/node", sha256 := sha256Hex file } := by
    simp [UpdateManifest.artifact, manifest, draft, source, Platform.name]
  have hurl : startsWith "https://ieum/node" "https://" ≠ false := by decide
  have hsum : trimHexMarkers (sha256Hex file) = sha256Hex file := trimHexMarkers_hexEncode _
  have hplatform : source.platform.validateExecutableBytes file = .ok () := by decide
  simp [UpdateSource.downloadArtifact, hartifact, downloadHttps, hurl, served, hsum, hplatform, okOr]

theorem approve_file : source.approve served 0 "1.0.7-1" = .ok (some (manifest, file)) := by
  have hnewer : isNewer "1.0.7-1" manifest.version = .ok true := by
    have hparts : versionParts "1.0.7-1" = .ok [1, 0, 7, 1] := by
      have hchars : "1.0.7-1".toList = ['1', '.', '0', '.', '7', '-', '1'] := by decide
      rw [versionParts, hchars]
      decide
    have hparts' : versionParts manifest.version = .ok [1, 0, 7, 2] := by
      have hchars : manifest.version.toList = ['1', '.', '0', '.', '7', '-', '2'] := by decide
      rw [versionParts, hchars]
      decide
    exact isNewer_eq_true.2 ⟨_, _, hparts, hparts', by decide⟩
  rw [UpdateSource.approve, bind_eq_ok]
  refine ⟨manifest, fetch_manifest, check_bind_eq_ok.2 ⟨verify_manifest, ?_⟩⟩
  exact bind_eq_ok.2 ⟨true, hnewer, bind_eq_ok.2 ⟨file, download_file, rfl⟩⟩

/-- The process ends between the two renamings; the old executable is there under its other name. -/
theorem executable_kept_killed :
    ((fresh first).run source build
        [.start, .check served 0 (some (.killed, "signal: 9"))]).files.current = none ∧
      ∃ b, Machine.Genuine source first b ∧ ((fresh first).run source build
        [.start, .check served 0 (some (.killed, "signal: 9"))]).files.previous = some b := by
  have hrunning : ((fresh first).step source build .start).running = some "1.0.7-1" := rfl
  have hcurrent : ((fresh first).step source build .start).files.current = some first := rfl
  have hnone : (((fresh first).step source build .start).step source build
      (.check served 0 (some (.killed, "signal: 9")))).files.current = none :=
    current_check_killed hrunning approve_file (Option.isSome_iff_exists.2 ⟨_, hcurrent⟩)
  have hnone' : ((fresh first).run source build
      [.start, .check served 0 (some (.killed, "signal: 9"))]).files.current = none := by
    rw [run_cons, run_cons, run_nil, hnone]
  refine ⟨hnone', ?_⟩
  obtain ⟨b, hb, hcurrent | ⟨-, hprevious⟩⟩ := (executable_kept source build first
    [.start, .check served 0 (some (.killed, "signal: 9"))]).2 (by decide)
  · rw [hnone'] at hcurrent
    cases hcurrent
  · exact ⟨b, hb, hprevious⟩

theorem labelled_check : Labelled source build (.check served 0 none) := by
  refine ⟨fun h => h, fun running approved happroves => ?_⟩
  obtain ⟨hfetch, -, -, hfile⟩ := approve_eq_some happroves
  have hmanifest : manifest = approved.1 := Except.ok.inj (fetch_manifest.symm.trans hfetch)
  rw [← hmanifest] at hfile
  have hbytes : file = approved.2 := Except.ok.inj (download_file.symm.trans hfile)
  rw [← hmanifest, ← hbytes]
  rfl

/-- After the update there is the new executable, and it is of a higher version. -/
theorem versions_go_up_release :
    ((fresh first).run source build ([.start] ++ [.check served 0 none])).files.current = some file ∧
      ∃ b, ((fresh first).run source build [.start]).files.current = some b ∧
        Above build b file := by
  have hstart : Labelled source build .start := ⟨fun h => h, nofun⟩
  have hlater : ((fresh first).run source build
      ([.start] ++ [.check served 0 none])).files.current = some file := by
    have hrunning : ((fresh first).step source build .start).running = some "1.0.7-1" := rfl
    have hcurrent : ((fresh first).step source build .start).files.current.isSome = true := rfl
    have hinstalled : (((fresh first).step source build .start).step source build
        (.check served 0 none)).files.current = some file :=
      current_check hrunning approve_file hcurrent
    rw [List.singleton_append, run_cons, run_cons, run_nil, hinstalled]
  exact ⟨hlater, versions_go_up first (List.forall_mem_singleton.2 hstart)
    (List.forall_mem_singleton.2 labelled_check) hlater⟩

end Release

end IeumChain
