import IeumChain.Library.Chunks
import IeumChain.Library.PaddedNames
import IeumChain.WireMessages

/-!
# Downloads of a snapshot in chunks

A snapshot travels as the chunks of its compressed JSON, under a manifest with the hash of each
chunk and of the whole. A download keeps every chunk in a file and the indices it has in
`resume.json`, and goes on from there when it is opened again.
-/
namespace IeumChain

open ByteCodec Text Outcome MachineWords FiniteMap PaddedNames Chunks

structure SnapshotManifest where
  snapshotId : String
  tip : SyncTip
  chunkCount : ℕ
  compressedBytes : ℕ
  chunkHashes : List String
  deriving Repr, DecidableEq

structure SnapshotChunk where
  snapshotId : String
  index : ℕ
  bytes : Bytes
  deriving Repr, DecidableEq

structure ResumeProgress where
  manifest : SnapshotManifest
  received : Finset ℕ
  deriving DecidableEq

/-- The serializer and the compressor, which are packages. -/
structure SnapshotCodec where
  snapshotToVec : StateSnapshot → Except String Bytes
  snapshotFromSlice : Bytes → Except String StateSnapshot
  progressToVec : ResumeProgress → Except String Bytes
  progressFromSlice : Bytes → Except String ResumeProgress
  encodeAll : Bytes → Except String Bytes
  decodeAll : Bytes → Except String Bytes

/-- The files of one download: `resume.json` and what is under `chunks`. -/
structure SyncDirectory where
  resume : Option Bytes
  chunks : HashMap String Bytes

/-- The directory of a download is passed separately. -/
structure SnapshotDownload where
  progress : ResumeProgress

def SyncDirectory.empty : SyncDirectory := ⟨none, ∅⟩

namespace SnapshotManifest

def verify (m : SnapshotManifest) : Except String Unit := do
  reject (m.chunkCount = 0 ∨ m.chunkCount ≠ m.chunkHashes.length)
    "snapshot manifest chunk 수가 올바르지 않습니다."
  reject (m.snapshotId.utf8ByteSize ≠ 64 ∨ ∃ value ∈ m.chunkHashes, value.utf8ByteSize ≠ 64)
    "snapshot manifest 해시 길이가 올바르지 않습니다."

/-- Indices and the count are written in 32 bits, the length in 64. -/
def build [Crypto] (codec : SnapshotCodec) (s : StateSnapshot) (chunkBytes : ℕ) :
    Except String (SnapshotManifest × List SnapshotChunk) := do
  reject (chunkBytes = 0) "snapshot chunk 크기는 0보다 커야 합니다."
  let plain ← codec.snapshotToVec s
  let compressed ← codec.encodeAll plain
  let snapshotId := sha256Hex compressed
  let chunks := (chunks chunkBytes compressed).mapIdx fun index bytes =>
    { snapshotId, index := index % 2 ^ 32, bytes : SnapshotChunk }
  pure
    ({ snapshotId, tip := ⟨s.height, s.blockHash, s.stateHash⟩
       chunkCount := chunks.length % 2 ^ 32, compressedBytes := compressed.length % 2 ^ 64
       chunkHashes := chunks.map fun chunk => sha256Hex chunk.bytes }, chunks)

end SnapshotManifest

namespace SnapshotDownload

/-- `{index:08}.chunk` -/
def chunkPath (index : ℕ) : String := padded 8 index ++ ".chunk"

def persistProgress (codec : SnapshotCodec) (d : SnapshotDownload) (directory : SyncDirectory) :
    Except String SyncDirectory := do
  let bytes ← codec.progressToVec d.progress
  pure { directory with resume := some bytes }

def openProgress (codec : SnapshotCodec) (directory : SyncDirectory)
    (manifest : SnapshotManifest) : Except String ResumeProgress :=
  match directory.resume with
  | some bytes => do
      let progress ← (codec.progressFromSlice bytes).mapError fun _ =>
        "snapshot 재개 파일이 손상되었습니다."
      reject (progress.manifest ≠ manifest)
        "재개 중인 snapshot manifest가 피어 응답과 다릅니다."
      pure progress
  | none => .ok ⟨manifest, ∅⟩

def openIn (codec : SnapshotCodec) (directory : SyncDirectory) (manifest : SnapshotManifest) :
    Except String (SyncDirectory × SnapshotDownload) := do
  manifest.verify
  let progress ← openProgress codec directory manifest
  let download : SnapshotDownload := ⟨progress⟩
  let directory ← download.persistProgress codec directory
  pure (directory, download)

def missing (d : SnapshotDownload) : List ℕ :=
  (List.range d.progress.manifest.chunkCount).filter fun index => index ∉ d.progress.received

def isComplete (d : SnapshotDownload) : Bool :=
  d.progress.received.card = d.progress.manifest.chunkCount

def writeChunk (directory : SyncDirectory) (chunk : SnapshotChunk) : SyncDirectory :=
  { directory with chunks := directory.chunks.insert (chunkPath chunk.index) chunk.bytes }

def insert (d : SnapshotDownload) (index : ℕ) : SnapshotDownload :=
  ⟨{ d.progress with received := Insert.insert index d.progress.received }⟩

section
variable [Crypto]

def checkChunk (d : SnapshotDownload) (chunk : SnapshotChunk) : Except String Unit := do
  reject (chunk.snapshotId ≠ d.progress.manifest.snapshotId) "다른 snapshot의 chunk입니다."
  let expected ← okOr d.progress.manifest.chunkHashes[chunk.index]?
    "snapshot chunk index가 범위를 벗어났습니다."
  reject (sha256Hex chunk.bytes ≠ expected) "snapshot chunk 해시가 일치하지 않습니다."

/-- The file of the chunk is written first, the progress last. An error there leaves the first
changes. -/
def accept (codec : SnapshotCodec) (directory : SyncDirectory) (d : SnapshotDownload)
    (chunk : SnapshotChunk) : SyncDirectory × SnapshotDownload × Except String Bool :=
  match d.checkChunk chunk with
  | .error e => (directory, d, .error e)
  | .ok () =>
      let directory := writeChunk directory chunk
      let d := d.insert chunk.index
      match d.persistProgress codec directory with
      | .error e => (directory, d, .error e)
      | .ok directory => (directory, d, .ok d.isComplete)

/-- The files after a crash between the file of the chunk and the progress. -/
def acceptCut (directory : SyncDirectory) (d : SnapshotDownload) (chunk : SnapshotChunk) :
    SyncDirectory :=
  match d.checkChunk chunk with
  | .error _ => directory
  | .ok () => writeChunk directory chunk

def readChunk (directory : SyncDirectory) (index : ℕ) : Except String Bytes :=
  okOr (directory.chunks.lookup (chunkPath index)) "No such file or directory (os error 2)"

def finish (codec : SnapshotCodec) (directory : SyncDirectory) (d : SnapshotDownload) :
    Except String StateSnapshot := do
  reject (¬d.isComplete) "snapshot chunk가 아직 모두 도착하지 않았습니다."
  let compressed ← concat (readChunk directory) (List.range d.progress.manifest.chunkCount)
  reject (compressed.length % 2 ^ 64 ≠ d.progress.manifest.compressedBytes)
    "snapshot 압축 크기가 manifest와 다릅니다."
  reject (sha256Hex compressed ≠ d.progress.manifest.snapshotId)
    "완성된 snapshot ID가 manifest와 다릅니다."
  let bytes ← codec.decodeAll compressed
  let snapshot ← codec.snapshotFromSlice bytes
  reject (snapshot.height ≠ d.progress.manifest.tip.height ∨
      snapshot.blockHash ≠ d.progress.manifest.tip.blockHash ∨
      snapshot.stateHash ≠ d.progress.manifest.tip.stateRoot)
    "완성된 snapshot 상태가 교차검증 tip과 다릅니다."
  pure snapshot

end

end SnapshotDownload

end IeumChain
