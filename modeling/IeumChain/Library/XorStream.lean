import IeumChain.Library.Chunks
import Mathlib.Data.UInt

/-!
# Stream ciphers over chunks

Each chunk is combined with a block of its own number. Doing it twice gives the text back.
-/
namespace XorStream

open Chunks

def xorBytes (left right : List UInt8) : List UInt8 := List.zipWith (· ^^^ ·) left right

theorem length_xorBytes {left right : List UInt8} (h : left.length ≤ right.length) :
    (xorBytes left right).length = left.length := by
  rw [xorBytes, List.length_zipWith, Nat.min_eq_left h]

theorem xorBytes_xorBytes {left right : List UInt8} (h : left.length ≤ right.length) :
    xorBytes (xorBytes left right) right = left := by
  induction left generalizing right with
  | nil => rfl
  | cons a left ih =>
      cases right with
      | nil => exact absurd h (Nat.not_succ_le_zero _)
      | cons b right =>
          have hbyte : a ^^^ b ^^^ b = a := by rw [UInt8.xor_assoc, UInt8.xor_self, UInt8.xor_zero]
          have hrest := ih (Nat.le_of_succ_le_succ h)
          rw [xorBytes] at hrest ⊢
          rw [xorBytes, List.zipWith_cons_cons, List.zipWith_cons_cons, hbyte]
          exact congrArg (a :: ·) hrest

/-- The chunks in order, with blocks numbered from a counter on. -/
def xorFrom (block : ℕ → List UInt8) : ℕ → List (List UInt8) → List UInt8
  | _, [] => []
  | counter, chunk :: rest => xorBytes chunk (block counter) ++ xorFrom block (counter + 1) rest

theorem length_xorFrom {block : ℕ → List UInt8} {pieces : List (List UInt8)}
    (h : ∀ piece ∈ pieces, ∀ counter, piece.length ≤ (block counter).length) (counter : ℕ) :
    (xorFrom block counter pieces).length = pieces.flatten.length := by
  induction pieces generalizing counter with
  | nil => rfl
  | cons piece rest ih =>
      rw [List.forall_mem_cons] at h
      rw [xorFrom, List.length_append, length_xorBytes (h.1 counter), ih h.2, List.flatten_cons,
        List.length_append]

/-- Twice the same stream is none. -/
theorem xorFrom_xorFrom {size : ℕ} (hsize : 0 < size) {block : ℕ → List UInt8}
    (hblock : ∀ counter, size ≤ (block counter).length) (counter : ℕ) (l : List UInt8) :
    xorFrom block counter (chunks size (xorFrom block counter (chunks size l))) = l := by
  induction hn : l.length using Nat.strong_induction_on generalizing l counter with
  | _ n ih =>
      by_cases hl : l = []
      · subst hl
        rw [chunks_nil hsize, xorFrom, chunks_nil hsize, xorFrom]
      · have hpos := List.length_pos_iff.2 hl
        have htake : (l.take size).length ≤ (block counter).length :=
          (List.length_take_le size l).trans (hblock counter)
        have hchunk := length_xorBytes htake
        rw [chunks_cons hsize hl, xorFrom]
        rcases le_or_gt l.length size with hshort | hlong
        · -- the last chunk
          rw [List.take_of_length_le hshort] at htake hchunk ⊢
          rw [List.drop_of_length_le hshort, chunks_nil hsize, xorFrom, List.append_nil,
            chunks_of_length_le (List.ne_nil_of_length_pos (by omega)) (by omega), xorFrom, xorFrom,
            List.append_nil, xorBytes_xorBytes htake]
        · rw [List.length_take, Nat.min_eq_left hlong.le] at hchunk
          rw [chunks_append hsize hchunk, xorFrom, xorBytes_xorBytes htake,
            ih _ (by rw [← hn, List.length_drop]; omega) (counter + 1) (l.drop size) rfl,
            List.take_append_drop]

end XorStream
