import Mathlib.Data.Finset.Powerset
import IeumChain.SnapshotDownload
import IeumChain.StandIn

/-!
# What a chunked transfer delivers

The chunks of a build may arrive in any order and more than once, among chunks that are refused,
and the receiver may stop, even between two writes, and open the download again. The download
finishes exactly when each index was accepted, and then with the snapshot that was sent.
-/
namespace IeumChain

open ByteCodec Text Outcome MachineWords FiniteMap PaddedNames Chunks

/-- The packages write the snapshot and read it back; a zstd frame is never empty. -/
def SnapshotCodec.Keeps (codec : SnapshotCodec) (s : StateSnapshot) : Prop :=
  ∃ plain compressed, codec.snapshotToVec s = .ok plain ∧ codec.encodeAll plain = .ok compressed ∧
    compressed ≠ [] ∧ codec.decodeAll compressed = .ok plain ∧ codec.snapshotFromSlice plain = .ok s

def SnapshotCodec.KeepsProgress (codec : SnapshotCodec) (m : SnapshotManifest) : Prop :=
  ∀ received ⊆ Finset.range m.chunkCount, ∃ bytes,
    codec.progressToVec ⟨m, received⟩ = .ok bytes ∧
      codec.progressFromSlice bytes = .ok ⟨m, received⟩

/-- A download, its files, and the indices for which `accept` returned. -/
structure Transfer where
  directory : SyncDirectory
  download : SnapshotDownload
  accepted : List ℕ

namespace SnapshotDownload

theorem chunkPath_injective : Function.Injective chunkPath := by
  intro i j h
  have hpadded : padded 8 i = padded 8 j := by
    have hlists := congrArg String.toList h
    rw [chunkPath, chunkPath, String.toList_append, String.toList_append] at hlists
    exact String.toList_inj.1 (List.append_cancel_right hlists)
  exact padded_inj hpadded

/-- The file of a chunk does not touch those of the other chunks. -/
theorem lookup_writeChunk (directory : SyncDirectory) (chunk : SnapshotChunk) (i : ℕ) :
    (writeChunk directory chunk).chunks.lookup (chunkPath i) =
      if i = chunk.index then some chunk.bytes else directory.chunks.lookup (chunkPath i) := by
  rw [writeChunk]
  split_ifs with hindex
  · rw [hindex]
    exact AList.lookup_insert _
  · exact AList.lookup_insert_ne fun hpath => hindex (chunkPath_injective hpath)

end SnapshotDownload

section
variable [Crypto]

/-- A manifest of the parts of a compressed snapshot. -/
structure SnapshotManifest.Describes (m : SnapshotManifest) (s : StateSnapshot)
    (compressed : Bytes) (parts : List Bytes) : Prop where
  snapshotId : m.snapshotId = sha256Hex compressed
  tip : m.tip = ⟨s.height, s.blockHash, s.stateHash⟩
  chunkCount : m.chunkCount = parts.length
  compressedBytes : m.compressedBytes = compressed.length % 2 ^ 64
  chunkHashes : m.chunkHashes = parts.map sha256Hex
  flatten : parts.flatten = compressed

namespace SnapshotManifest

variable {m : SnapshotManifest} {s : StateSnapshot} {compressed : Bytes} {parts : List Bytes}

theorem utf8ByteSize_sha256Hex (hdigest : ∀ bytes, (Crypto.sha256 bytes).length = 32)
    (bytes : Bytes) : (sha256Hex bytes).utf8ByteSize = 64 := by
  rw [sha256Hex, utf8ByteSize_hexEncode, hdigest]

theorem Describes.verify (h : m.Describes s compressed parts) (hparts : parts ≠ [])
    (hdigest : ∀ bytes, (Crypto.sha256 bytes).length = 32) : m.verify = .ok () := by
  have hcount : m.chunkCount ≠ 0 := by
    rw [h.chunkCount]
    exact fun hzero => hparts (List.length_eq_zero_iff.1 hzero)
  rw [SnapshotManifest.verify, check_bind_eq_ok, reject_eq_ok, reject_eq_ok, not_or, not_or,
    not_not, not_not]
  refine ⟨⟨hcount, ?_⟩, ?_, ?_⟩
  · rw [h.chunkCount, h.chunkHashes, List.length_map]
  · rw [h.snapshotId, utf8ByteSize_sha256Hex hdigest]
  · rintro ⟨value, hvalue, hsize⟩
    rw [h.chunkHashes, List.mem_map] at hvalue
    obtain ⟨part, -, rfl⟩ := hvalue
    exact hsize (utf8ByteSize_sha256Hex hdigest part)

/-- What a build makes of a snapshot. -/
theorem exists_build {codec : SnapshotCodec} {chunkBytes : ℕ} {plain : Bytes}
    (hpos : 0 < chunkBytes) (hplain : codec.snapshotToVec s = .ok plain)
    (hcompressed : codec.encodeAll plain = .ok compressed) :
    ∃ m chunks, build codec s chunkBytes = .ok (m, chunks) ∧
      (chunks.length < 2 ^ 32 →
        m.Describes s compressed (Chunks.chunks chunkBytes compressed) ∧
        chunks.map (·.bytes) = Chunks.chunks chunkBytes compressed ∧
        ∀ i (chunk : SnapshotChunk), chunks[i]? = some chunk →
          chunk.snapshotId = m.snapshotId ∧ chunk.index = i) := by
  set parts := Chunks.chunks chunkBytes compressed with hparts
  set sent : List SnapshotChunk := parts.mapIdx fun index bytes =>
    { snapshotId := sha256Hex compressed, index := index % 2 ^ 32, bytes } with hsent
  have hlength : sent.length = parts.length := by rw [hsent, List.length_mapIdx]
  have hbytes : sent.map (·.bytes) = parts := by
    refine List.ext_getElem (by rw [List.length_map, hlength]) fun i hi hi' => ?_
    rw [List.getElem_map]
    simp only [hsent, List.getElem_mapIdx]
  have hbuild : build codec s chunkBytes = .ok (⟨sha256Hex compressed,
      ⟨s.height, s.blockHash, s.stateHash⟩, sent.length % 2 ^ 32, compressed.length % 2 ^ 64,
      sent.map fun chunk => sha256Hex chunk.bytes⟩, sent) := by
    rw [build, check_bind_eq_ok, reject_eq_ok, bind_eq_ok]
    refine ⟨hpos.ne', plain, hplain, ?_⟩
    rw [bind_eq_ok]
    exact ⟨compressed, hcompressed, rfl⟩
  refine ⟨_, _, hbuild, fun hcount => ⟨⟨rfl, rfl, ?_, rfl, ?_, flatten_chunks hpos compressed⟩,
    hbytes, fun i chunk hchunk => ?_⟩⟩
  · rw [Nat.mod_eq_of_lt hcount, hlength]
  · rw [← hbytes, List.map_map]
    rfl
  · obtain ⟨hi, rfl⟩ := List.getElem?_eq_some_iff.1 hchunk
    simp only [hsent, List.getElem_mapIdx]
    exact ⟨trivial, Nat.mod_eq_of_lt (hi.trans hcount)⟩

end SnapshotManifest

namespace SnapshotDownload

variable {m : SnapshotManifest} {s : StateSnapshot} {compressed : Bytes} {parts : List Bytes}
  {codec : SnapshotCodec} {d : SnapshotDownload} {directory : SyncDirectory}
  {chunk : SnapshotChunk}

theorem checkChunk_eq_ok_iff (hm : d.progress.manifest.Describes s compressed parts) :
    d.checkChunk chunk = .ok () ↔ chunk.snapshotId = d.progress.manifest.snapshotId ∧
      ∃ part, parts[chunk.index]? = some part ∧ sha256Hex chunk.bytes = sha256Hex part := by
  rw [checkChunk, check_bind_eq_ok, reject_eq_ok, not_not, bind_eq_ok, hm.chunkHashes]
  simp only [okOr_eq_ok, reject_eq_ok, not_not, List.getElem?_map, Option.map_eq_some_iff]
  constructor
  · rintro ⟨hid, expected, ⟨part, hpart, rfl⟩, hhash⟩
    exact ⟨hid, part, hpart, hhash⟩
  · rintro ⟨hid, part, hpart, hhash⟩
    exact ⟨hid, _, ⟨part, hpart, rfl⟩, hhash⟩

/-- A chunk that passes has an index below the count. -/
theorem index_lt_of_checkChunk (hm : d.progress.manifest.Describes s compressed parts)
    (h : d.checkChunk chunk = .ok ()) : chunk.index < d.progress.manifest.chunkCount := by
  obtain ⟨-, part, hpart, -⟩ := (checkChunk_eq_ok_iff hm).1 h
  rw [hm.chunkCount]
  exact (List.getElem?_eq_some_iff.1 hpart).1

/-- The files are those of the download: the progress reads back, and each index it has is the
index of a file with that part. -/
structure Stored (codec : SnapshotCodec) (parts : List Bytes) (directory : SyncDirectory)
    (d : SnapshotDownload) : Prop where
  resume : ∃ bytes, directory.resume = some bytes ∧ codec.progressFromSlice bytes = .ok d.progress
  bound : d.progress.received ⊆ Finset.range d.progress.manifest.chunkCount
  files : ∀ i ∈ d.progress.received, ∀ part, parts[i]? = some part →
    readChunk directory i = .ok part

omit [Crypto] in
/-- A file with its own part changes nothing that the download has. -/
theorem Stored.writeChunk (h : d.Stored codec parts directory)
    (hpart : parts[chunk.index]? = some chunk.bytes) :
    d.Stored codec parts (SnapshotDownload.writeChunk directory chunk) := by
  refine ⟨h.resume, h.bound, fun i hi part hparts => ?_⟩
  have hfile := h.files i hi part hparts
  rw [readChunk, okOr_eq_ok] at hfile ⊢
  rw [lookup_writeChunk]
  split_ifs with hindex
  · rw [hindex, hpart] at hparts
    exact hparts
  · exact hfile

omit [Crypto] in
/-- Opening finds the download as it was. -/
theorem Stored.openIn (h : d.Stored codec parts directory)
    (hverify : d.progress.manifest.verify = .ok ())
    (hcodec : codec.KeepsProgress d.progress.manifest) :
    ∃ directory', SnapshotDownload.openIn codec directory d.progress.manifest =
      .ok (directory', d) ∧ d.Stored codec parts directory' := by
  obtain ⟨bytes, hresume, hread⟩ := h.resume
  obtain ⟨written, hwritten, hback⟩ := hcodec _ h.bound
  refine ⟨{ directory with resume := some written }, ?_, ⟨written, rfl, hback⟩, h.bound, h.files⟩
  have hprogress : openProgress codec directory d.progress.manifest = .ok d.progress := by
    rw [openProgress, hresume]
    simp only [hread, Except.mapError]
    rw [bind_eq_ok]
    refine ⟨d.progress, rfl, ?_⟩
    rw [check_bind_eq_ok, reject_eq_ok, not_not]
    exact ⟨rfl, rfl⟩
  rw [SnapshotDownload.openIn, check_bind_eq_ok, bind_eq_ok]
  refine ⟨hverify, d.progress, hprogress, ?_⟩
  rw [bind_eq_ok]
  refine ⟨_, ?_, rfl⟩
  rw [persistProgress, bind_eq_ok]
  exact ⟨written, hwritten, rfl⟩

omit [Crypto] in
/-- Opening an empty directory starts with nothing. -/
theorem exists_openIn_empty (hverify : m.verify = .ok ()) (hcodec : codec.KeepsProgress m)
    (parts : List Bytes) :
    ∃ directory, SnapshotDownload.openIn codec .empty m = .ok (directory, ⟨⟨m, ∅⟩⟩) ∧
      Stored codec parts directory ⟨⟨m, ∅⟩⟩ := by
  obtain ⟨written, hwritten, hback⟩ := hcodec ∅ (Finset.empty_subset _)
  refine ⟨{ SyncDirectory.empty with resume := some written }, ?_, ⟨written, rfl, hback⟩,
    Finset.empty_subset _, fun i hi => absurd hi (Finset.notMem_empty i)⟩
  rw [SnapshotDownload.openIn, check_bind_eq_ok, bind_eq_ok]
  refine ⟨hverify, ⟨m, ∅⟩, rfl, ?_⟩
  rw [bind_eq_ok]
  refine ⟨_, ?_, rfl⟩
  rw [persistProgress, bind_eq_ok]
  exact ⟨written, hwritten, rfl⟩

/-- A chunk that passes is stored and counted; any other changes nothing. -/
theorem accept_cases (h : d.Stored codec parts directory)
    (hm : d.progress.manifest.Describes s compressed parts)
    (hcodec : codec.KeepsProgress d.progress.manifest) (chunk : SnapshotChunk) :
    (∃ e, d.checkChunk chunk = .error e ∧
      d.accept codec directory chunk = (directory, d, .error e)) ∨
    d.checkChunk chunk = .ok () ∧ ∃ written,
      codec.progressFromSlice written = .ok (d.insert chunk.index).progress ∧
      d.accept codec directory chunk =
        ({ SnapshotDownload.writeChunk directory chunk with resume := some written },
          d.insert chunk.index, .ok (d.insert chunk.index).isComplete) := by
  cases hcheck : d.checkChunk chunk with
  | error e => exact .inl ⟨e, rfl, by rw [accept, hcheck]⟩
  | ok u =>
      have hbound : Insert.insert chunk.index d.progress.received ⊆
          Finset.range d.progress.manifest.chunkCount :=
        Finset.insert_subset (Finset.mem_range.2 (index_lt_of_checkChunk hm hcheck)) h.bound
      obtain ⟨written, hwritten, hback⟩ := hcodec _ hbound
      refine .inr ⟨rfl, written, hback, ?_⟩
      have hpersist : (d.insert chunk.index).persistProgress codec
          (SnapshotDownload.writeChunk directory chunk) =
          .ok { SnapshotDownload.writeChunk directory chunk with resume := some written } := by
        rw [persistProgress, bind_eq_ok]
        exact ⟨written, hwritten, rfl⟩
      simp only [accept, hcheck, hpersist]

/-- The part of a chunk that was accepted joins those the files hold. -/
theorem Stored.insert (h : d.Stored codec parts directory)
    (hm : d.progress.manifest.Describes s compressed parts)
    (hcheck : d.checkChunk chunk = .ok ())
    (hpart : parts[chunk.index]? = some chunk.bytes) {written : Bytes}
    (hback : codec.progressFromSlice written = .ok (d.insert chunk.index).progress) :
    (d.insert chunk.index).Stored codec parts
      { SnapshotDownload.writeChunk directory chunk with resume := some written } := by
  refine ⟨⟨written, rfl, hback⟩, ?_, fun i hi part hparts => ?_⟩
  · exact Finset.insert_subset (Finset.mem_range.2 (index_lt_of_checkChunk hm hcheck)) h.bound
  · rcases Finset.mem_insert.1 hi with hindex | hold
    · rw [readChunk, okOr_eq_ok, lookup_writeChunk, if_pos hindex]
      rw [hindex, hpart] at hparts
      exact hparts
    · exact (h.writeChunk hpart).files i hold part hparts

/-- A complete download ends with the snapshot, any other with an error. -/
theorem Stored.finish (h : d.Stored codec parts directory)
    (hm : d.progress.manifest.Describes s compressed parts) {plain : Bytes}
    (hdecode : codec.decodeAll compressed = .ok plain)
    (hsnapshot : codec.snapshotFromSlice plain = .ok s) {r : StateSnapshot} :
    d.finish codec directory = .ok r ↔
      (∀ i < d.progress.manifest.chunkCount, i ∈ d.progress.received) ∧ r = s := by
  rw [SnapshotDownload.finish, check_bind_eq_ok, reject_eq_ok, not_not, isComplete,
    decide_eq_true_iff, card_eq_iff h.bound]
  refine and_congr_right fun hall => ?_
  have hconcat : concat (readChunk directory) (List.range d.progress.manifest.chunkCount) =
      .ok compressed := by
    rw [hm.chunkCount, ← hm.flatten]
    refine concat_range fun i part hpart => h.files i (hall i ?_) part hpart
    rw [hm.chunkCount]
    exact (List.getElem?_eq_some_iff.1 hpart).1
  simp only [hconcat, hm.compressedBytes, hm.snapshotId, hm.tip, hdecode, hsnapshot, bind_eq_ok,
    reject_eq_ok, Except.ok.injEq, exists_eq_left', ne_eq, not_true_eq_false, or_self,
    not_false_eq_true, pure_eq_ok, exists_const, true_and]
  exact eq_comm

end SnapshotDownload

namespace Transfer

/-- A chunk arrives; one that arrives as the process stops between its file and the progress,
after which the download is opened again; the download is dropped and opened again. -/
inductive Event
  | accept (chunk : SnapshotChunk)
  | acceptCut (chunk : SnapshotChunk)
  | reopen

def Event.chunk? : Event → Option SnapshotChunk
  | .accept chunk => some chunk
  | .acceptCut chunk => some chunk
  | .reopen => none

variable (codec : SnapshotCodec) (m : SnapshotManifest)

def openFrom (directory : SyncDirectory) (accepted : List ℕ) : Except String Transfer := do
  let (directory, download) ← SnapshotDownload.openIn codec directory m
  pure ⟨directory, download, accepted⟩

def start : Except String Transfer := openFrom codec m .empty []

def step (t : Transfer) : Event → Except String Transfer
  | .accept chunk =>
      match t.download.accept codec t.directory chunk with
      | (directory, download, .ok _) => .ok ⟨directory, download, t.accepted ++ [chunk.index]⟩
      | (directory, download, .error _) => .ok ⟨directory, download, t.accepted⟩
  | .acceptCut chunk => openFrom codec m (t.download.acceptCut t.directory chunk) t.accepted
  | .reopen => openFrom codec m t.directory t.accepted

def run (t : Transfer) (events : List Event) : Except String Transfer :=
  events.foldlM (step codec m) t

/-- No chunk that arrives collides with a chunk that was sent. -/
def CollisionFree (events : List Event) (sent : List SnapshotChunk) : Prop :=
  ∀ e ∈ events, ∀ chunk, e.chunk? = some chunk → ∀ part ∈ sent,
    Crypto.sha256 chunk.bytes = Crypto.sha256 part.bytes → chunk.bytes = part.bytes

variable {codec m} {s : StateSnapshot} {compressed : Bytes} {parts : List Bytes} {t : Transfer}

/-- The files hold the download, which has the indices that were accepted. -/
structure Sound (codec : SnapshotCodec) (m : SnapshotManifest) (parts : List Bytes)
    (t : Transfer) : Prop where
  manifest : t.download.progress.manifest = m
  stored : t.download.Stored codec parts t.directory
  accepted : ∀ i, i ∈ t.download.progress.received ↔ i ∈ t.accepted

omit [Crypto] in
theorem Sound.openFrom (h : t.Sound codec m parts) (hverify : m.verify = .ok ())
    (hcodec : codec.KeepsProgress m) {directory : SyncDirectory}
    (hstored : t.download.Stored codec parts directory) :
    ∃ t', Transfer.openFrom codec m directory t.accepted = .ok t' ∧ t'.Sound codec m parts := by
  obtain ⟨rfl, -, haccepted⟩ := h
  obtain ⟨directory', hopen, hstored'⟩ := hstored.openIn hverify hcodec
  refine ⟨⟨directory', t.download, t.accepted⟩, ?_, rfl, hstored', haccepted⟩
  rw [Transfer.openFrom, hopen]
  rfl

/-- No event fails, and each leaves the files in agreement with the download. -/
theorem Sound.step (h : t.Sound codec m parts) (hm : m.Describes s compressed parts)
    (hverify : m.verify = .ok ()) (hcodec : codec.KeepsProgress m) (e : Event)
    (hfree : ∀ chunk, e.chunk? = some chunk → ∀ part ∈ parts,
      Crypto.sha256 chunk.bytes = Crypto.sha256 part → chunk.bytes = part) :
    ∃ t', t.step codec m e = .ok t' ∧ t'.Sound codec m parts := by
  have hm' : t.download.progress.manifest.Describes s compressed parts := h.manifest ▸ hm
  have hcodec' : codec.KeepsProgress t.download.progress.manifest := h.manifest ▸ hcodec
  -- what passes the checks has the bytes that were sent under its index
  have hsent : ∀ chunk, e.chunk? = some chunk → t.download.checkChunk chunk = .ok () →
      parts[chunk.index]? = some chunk.bytes := by
    intro chunk hchunk hcheck
    obtain ⟨-, part, hpart, hhash⟩ := (SnapshotDownload.checkChunk_eq_ok_iff hm').1 hcheck
    rw [hfree chunk hchunk part (List.mem_of_getElem? hpart) (hexEncode_injective hhash)]
    exact hpart
  cases e with
  | accept chunk =>
      rcases SnapshotDownload.accept_cases h.stored hm' hcodec' chunk with
        ⟨e, -, haccept⟩ | ⟨hcheck, written, hback, haccept⟩
      · exact ⟨t, by simp only [Transfer.step, haccept], h⟩
      · have hstored := h.stored.insert hm' hcheck (hsent chunk rfl hcheck) hback
        refine ⟨⟨_, t.download.insert chunk.index, t.accepted ++ [chunk.index]⟩,
          by simp only [Transfer.step, haccept], h.manifest, hstored, fun i => ?_⟩
        change i ∈ Insert.insert chunk.index t.download.progress.received ↔
          i ∈ t.accepted ++ [chunk.index]
        rw [Finset.mem_insert, h.accepted, List.mem_append, List.mem_singleton, or_comm]
  | acceptCut chunk =>
      refine h.openFrom hverify hcodec ?_
      unfold SnapshotDownload.acceptCut
      cases hcheck : t.download.checkChunk chunk with
      | error e => exact h.stored
      | ok u => exact h.stored.writeChunk (hsent chunk rfl hcheck)
  | reopen => exact h.openFrom hverify hcodec h.stored

theorem Sound.run (hm : m.Describes s compressed parts) (hverify : m.verify = .ok ())
    (hcodec : codec.KeepsProgress m) (events : List Event)
    (hfree : ∀ e ∈ events, ∀ chunk, e.chunk? = some chunk → ∀ part ∈ parts,
      Crypto.sha256 chunk.bytes = Crypto.sha256 part → chunk.bytes = part)
    (h : t.Sound codec m parts) :
    ∃ t', t.run codec m events = .ok t' ∧ t'.Sound codec m parts := by
  induction events generalizing t with
  | nil => exact ⟨t, rfl, h⟩
  | cons e rest ih =>
      obtain ⟨t₁, hstep, h₁⟩ := h.step hm hverify hcodec e (hfree e List.mem_cons_self)
      obtain ⟨t₂, hrest, h₂⟩ := ih (fun e he => hfree e (List.mem_cons_of_mem _ he)) h₁
      refine ⟨t₂, ?_, h₂⟩
      rw [Transfer.run, List.foldlM_cons, bind_eq_ok]
      exact ⟨t₁, hstep, hrest⟩

/-- After any sequence of arrivals, stops and openings the chunks of the build are accepted, a
chunk that is not leaves the files and the download as they are, and the download finishes
exactly when every index was accepted, with the snapshot of the build. -/
theorem transfer_lossless {chunkBytes : ℕ} (hpos : 0 < chunkBytes)
    (hdigest : ∀ bytes, (Crypto.sha256 bytes).length = 32) (hs : codec.Keeps s) :
    ∃ m chunks, SnapshotManifest.build codec s chunkBytes = .ok (m, chunks) ∧
      (chunks.length < 2 ^ 32 → codec.KeepsProgress m → ∃ t₀, start codec m = .ok t₀ ∧
        ∀ events, CollisionFree events chunks → ∃ t, t₀.run codec m events = .ok t ∧
          (∀ chunk ∈ chunks, ∃ directory download complete,
            t.download.accept codec t.directory chunk = (directory, download, .ok complete)) ∧
          (∀ chunk directory download e,
            t.download.accept codec t.directory chunk = (directory, download, .error e) →
              directory = t.directory ∧ download = t.download) ∧
          ((∃ r, t.download.finish codec t.directory = .ok r) ↔
            ∀ i < chunks.length, i ∈ t.accepted) ∧
          ∀ r, t.download.finish codec t.directory = .ok r → r = s) := by
  obtain ⟨plain, compressed, hplain, hcompressed, hframe, hdecode, hsnapshot⟩ := hs
  obtain ⟨m, chunks, hbuild, hdescribes⟩ :=
    SnapshotManifest.exists_build hpos hplain hcompressed
  refine ⟨m, chunks, hbuild, fun hcount hcodec => ?_⟩
  obtain ⟨hm, hparts, hindices⟩ := hdescribes hcount
  generalize Chunks.chunks chunkBytes compressed = parts at *
  have hne : parts ≠ [] := by
    rintro rfl
    exact hframe hm.flatten.symm
  have hverify := hm.verify hne hdigest
  obtain ⟨directory, hopen, hstored⟩ :=
    SnapshotDownload.exists_openIn_empty hverify hcodec parts
  refine ⟨⟨directory, ⟨⟨m, ∅⟩⟩, []⟩, by rw [start, openFrom, hopen]; rfl, fun events hfree => ?_⟩
  have hstart : Sound codec m parts ⟨directory, ⟨⟨m, ∅⟩⟩, []⟩ :=
    ⟨rfl, hstored, fun i => ⟨fun hi => absurd hi (Finset.notMem_empty i), nofun⟩⟩
  have hfree' : ∀ e ∈ events, ∀ chunk, e.chunk? = some chunk → ∀ part ∈ parts,
      Crypto.sha256 chunk.bytes = Crypto.sha256 part → chunk.bytes = part := by
    intro e he chunk hchunk part hpart
    rw [← hparts, List.mem_map] at hpart
    obtain ⟨sent, hsent, rfl⟩ := hpart
    exact hfree e he chunk hchunk sent hsent
  obtain ⟨t, hrun, h⟩ := Sound.run hm hverify hcodec events hfree' hstart
  obtain ⟨rfl, hstored', haccepted⟩ := h
  have hcases := SnapshotDownload.accept_cases hstored' hm hcodec
  have hlength : chunks.length = t.download.progress.manifest.chunkCount := by
    rw [hm.chunkCount, ← hparts, List.length_map]
  have hfinish : ∀ r, t.download.finish codec t.directory = .ok r ↔
      (∀ i < chunks.length, i ∈ t.accepted) ∧ r = s := by
    intro r
    rw [hstored'.finish hm hdecode hsnapshot, hlength]
    simp only [haccepted]
  refine ⟨t, hrun, fun chunk hchunk => ?_, fun chunk directory download e haccept => ?_, ?_,
    fun r hr => ((hfinish r).1 hr).2⟩
  · obtain ⟨i, hi⟩ := List.getElem?_of_mem hchunk
    obtain ⟨hid, hindex⟩ := hindices i chunk hi
    have hpart : parts[chunk.index]? = some chunk.bytes := by
      rw [hindex, ← hparts, List.getElem?_map, hi]
      rfl
    have hcheck := (SnapshotDownload.checkChunk_eq_ok_iff hm).2 ⟨hid, _, hpart, rfl⟩
    rcases hcases chunk with ⟨e, herror, -⟩ | ⟨-, written, -, haccept⟩
    · cases hcheck.symm.trans herror
    · exact ⟨_, _, _, haccept⟩
  · rcases hcases chunk with ⟨e', -, hsame⟩ | ⟨-, written, -, hok⟩
    · obtain ⟨hdirectory, hrest⟩ := Prod.mk.inj (hsame.symm.trans haccept)
      exact ⟨hdirectory.symm, (Prod.mk.inj hrest).1.symm⟩
    · obtain ⟨-, hrest⟩ := Prod.mk.inj (hok.symm.trans haccept)
      cases (Prod.mk.inj hrest).2
  · constructor
    · rintro ⟨r, hr⟩
      exact ((hfinish r).1 hr).1
    · intro hall
      exact ⟨s, (hfinish s).2 ⟨hall, rfl⟩⟩

end Transfer

end

/-! ## A snapshot of two chunks -/

namespace Resumed

local instance resumedCrypto : Crypto := StandIn.crypto StandIn.digest

def sample : StateSnapshot where
  chainId := 21004
  genesisCommitment := "genesis-test-commitment"
  height := 7
  blockHash := "block"
  stateHash := "state"
  balances := collect [("alice", 10)]
  nextNonces := ∅
  executedEvents := ∅
  staking := ⟨[], [], []⟩

def plain : Bytes := utf8 (String.ofList (jsonObject
  [("chain_id", jsonNumber 21004), ("genesis_commitment", jsonString "genesis-test-commitment"),
    ("height", jsonNumber 7), ("block_hash", jsonString "block"),
    ("state_hash", jsonString "state"), ("balances", jsonObject [("alice", jsonNumber 10)]),
    ("next_nonces", jsonObject []), ("executed_events", jsonArray []),
    ("staking", jsonObject [("delegations", jsonArray []), ("unbonding", jsonArray []),
      ("applied_slashes", jsonArray [])])]))

/-- The frame that the compressor makes of the text. -/
def compressed : Bytes :=
  [40, 181, 47, 253, 0, 88, 29, 5, 0, 114, 203, 33, 28, 128, 181, 205, 1, 12, 109, 68, 136, 32, 146,
    142, 71, 109, 114, 9, 89, 6, 50, 113, 224, 23, 61, 96, 45, 176, 48, 51, 70, 203, 98, 20, 103,
    189, 82, 100, 122, 210, 23, 43, 20, 208, 198, 40, 82, 182, 35, 13, 217, 214, 34, 114, 246, 100,
    229, 140, 228, 34, 24, 197, 89, 55, 63, 240, 147, 190, 6, 244, 195, 109, 150, 150, 103, 15, 79,
    155, 133, 24, 156, 143, 22, 67, 43, 103, 61, 74, 100, 120, 216, 248, 139, 171, 54, 62, 43, 69,
    117, 8, 168, 177, 195, 70, 224, 188, 10, 89, 87, 54, 130, 213, 175, 224, 188, 249, 100, 87, 146,
    52, 116, 116, 233, 243, 136, 77, 0, 65, 12, 0, 206, 105, 157, 92, 168, 144, 149, 9, 0, 65, 137,
    226, 39, 3, 11, 55, 33, 159, 142, 128, 176, 56, 9, 15, 230, 24, 61, 13, 60, 18, 147, 12]

def parts : List Bytes := [compressed.take 100, compressed.drop 100]

def manifest : SnapshotManifest where
  snapshotId := sha256Hex compressed
  tip := ⟨7, "block", "state"⟩
  chunkCount := 2
  compressedBytes := compressed.length % 2 ^ 64
  chunkHashes := parts.map sha256Hex

def sent : List SnapshotChunk :=
  [⟨sha256Hex compressed, 0, compressed.take 100⟩, ⟨sha256Hex compressed, 1, compressed.drop 100⟩]

def manifestJson (m : SnapshotManifest) : Json := jsonObject
  [("snapshot_id", jsonString m.snapshotId),
    ("tip", jsonObject [("height", jsonNumber m.tip.height),
      ("block_hash", jsonString m.tip.blockHash), ("state_root", jsonString m.tip.stateRoot)]),
    ("chunk_count", jsonNumber m.chunkCount), ("compressed_bytes", jsonNumber m.compressedBytes),
    ("chunk_hashes", jsonArray (m.chunkHashes.map jsonString))]

def receivedJson (received : Finset ℕ) : Json :=
  jsonArray (((List.range 2).filter (· ∈ received)).map jsonNumber)

def progressJson (p : ResumeProgress) : Bytes :=
  utf8 (String.ofList (jsonObject
    [("manifest", manifestJson p.manifest), ("received", receivedJson p.received)]))

/-- The states of the download of the sample. -/
def states : List ResumeProgress := [∅, {0}, {1}, {0, 1}].map fun received => ⟨manifest, received⟩

/-- The serializer and the compressor, as they are on the sample and on the states of its
download. -/
def codec : SnapshotCodec where
  snapshotToVec _ := .ok plain
  snapshotFromSlice bytes := if bytes = plain then .ok sample else .error "expected value"
  progressToVec p := .ok (progressJson p)
  progressFromSlice bytes := okOr (states.find? (progressJson · = bytes)) "expected value"
  encodeAll _ := .ok compressed
  decodeAll bytes := if bytes = compressed then .ok plain else .error "Unknown frame descriptor"

attribute [irreducible] plain compressed progressJson

theorem compressed_ne_nil : compressed ≠ [] := by
  decide +kernel

theorem chunks_compressed : Chunks.chunks 100 compressed = parts := by
  decide +kernel

theorem keeps : codec.Keeps sample :=
  ⟨plain, compressed, rfl, rfl, compressed_ne_nil, if_pos rfl, if_pos rfl⟩

theorem jsonObject_received_inj {x a b : Json}
    (h : jsonObject [("manifest", x), ("received", a)] =
      jsonObject [("manifest", x), ("received", b)]) : a = b := by
  rw [jsonObject, jsonObject] at h
  simpa only [List.map_cons, List.map_nil, joinChars, List.cons.injEq, true_and,
    List.append_cancel_right_eq, List.append_cancel_left_eq, List.append_assoc,
    List.cons_append] using h

theorem receivedJson_inj : ∀ r ∈ (Finset.range 2).powerset, ∀ r' ∈ (Finset.range 2).powerset,
    receivedJson r = receivedJson r' → r = r' := by
  decide +kernel

theorem progressJson_inj {r r' : Finset ℕ} (hr : r ∈ (Finset.range 2).powerset)
    (hr' : r' ∈ (Finset.range 2).powerset)
    (h : progressJson ⟨manifest, r⟩ = progressJson ⟨manifest, r'⟩) : r = r' := by
  rw [progressJson, progressJson] at h
  exact receivedJson_inj r hr r' hr'
    (jsonObject_received_inj (String.ofList_injective (utf8_inj h)))

theorem keepsProgress : codec.KeepsProgress manifest := by
  have hlisted : ∀ r ∈ (Finset.range 2).powerset, r ∈ [∅, {0}, {1}, {0, 1}] := by decide
  have hsubsets : ∀ r ∈ [∅, {0}, {1}, {0, 1}], r ∈ (Finset.range 2).powerset := by decide
  intro received hreceived
  have hmem : received ∈ (Finset.range 2).powerset := Finset.mem_powerset.2 hreceived
  refine ⟨progressJson ⟨manifest, received⟩, rfl, okOr_eq_ok.2 ?_⟩
  -- Something is found, and what is written determines it.
  cases hfound : states.find? (progressJson · = progressJson ⟨manifest, received⟩) with
  | none =>
      have hnone := List.find?_eq_none.1 hfound ⟨manifest, received⟩
        (List.mem_map_of_mem (hlisted received hmem))
      exact absurd (decide_eq_true rfl) hnone
  | some p =>
      obtain ⟨r, hr, rfl⟩ := List.mem_map.1 (List.mem_of_find?_eq_some hfound)
      have hsame : progressJson ⟨manifest, r⟩ = progressJson ⟨manifest, received⟩ := by
        have hsome := List.find?_some hfound
        exact of_decide_eq_true hsome
      rw [progressJson_inj (hsubsets r hr) hmem hsame]

theorem build_sample : SnapshotManifest.build codec sample 100 = .ok (manifest, sent) := by
  rw [SnapshotManifest.build, check_bind_eq_ok, reject_eq_ok, bind_eq_ok]
  refine ⟨by decide, plain, rfl, ?_⟩
  rw [bind_eq_ok]
  refine ⟨compressed, rfl, ?_⟩
  simp only [chunks_compressed]
  rfl

/-- The sample travels in two chunks, and the download finishes once both have been accepted. -/
theorem transfer_lossless_sample : ∃ t₀, Transfer.start codec manifest = .ok t₀ ∧
    ∀ events, Transfer.CollisionFree events sent →
      ∃ t, t₀.run codec manifest events = .ok t ∧
        ((∃ r, t.download.finish codec t.directory = .ok r) ↔ 0 ∈ t.accepted ∧ 1 ∈ t.accepted) ∧
        ∀ r, t.download.finish codec t.directory = .ok r → r = sample := by
  obtain ⟨m, chunks, hbuild, hall⟩ :=
    Transfer.transfer_lossless (by decide : 0 < 100) StandIn.length_digest keeps
  cases build_sample.symm.trans hbuild
  have hcount : sent.length < 2 ^ 32 := by decide
  obtain ⟨t₀, hstart, hruns⟩ := hall hcount keepsProgress
  refine ⟨t₀, hstart, fun events hfree => ?_⟩
  obtain ⟨t, hrun, -, -, hfinish, hsame⟩ := hruns events hfree
  refine ⟨t, hrun, hfinish.trans ⟨fun h => ⟨h 0 Nat.two_pos, h 1 Nat.one_lt_two⟩, ?_⟩, hsame⟩
  intro ⟨hzero, hone⟩ i hi
  obtain rfl | rfl : i = 0 ∨ i = 1 := Nat.le_one_iff_eq_zero_or_eq_one.1 (Nat.lt_succ_iff.1 hi)
  · exact hzero
  · exact hone

end Resumed

end IeumChain
