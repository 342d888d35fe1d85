import Mathlib.Data.Finset.Card
import Mathlib.Data.Finset.Range
import Mathlib.Data.List.GetD

/-!
# Chunks of a list

A list cut into chunks of one length, of which the last may be shorter, and the loop that puts
the chunks together again, each found under its index.
-/
namespace Chunks

section
variable {α ε : Type}

def chunks (size : ℕ) (l : List α) : List (List α) :=
  (List.range ((l.length + size - 1) / size)).map fun i => (l.drop (size * i)).take size

theorem flatten_range_map (size count : ℕ) (l : List α) :
    ((List.range count).map fun i => (l.drop (size * i)).take size).flatten =
      l.take (size * count) := by
  induction count with
  | zero => rw [List.range_zero, List.map_nil, List.flatten_nil, Nat.mul_zero, List.take_zero]
  | succ count ih =>
      rw [List.range_succ, List.map_append, List.flatten_append, ih, List.map_singleton,
        List.flatten_singleton, Nat.mul_succ, List.take_add]

theorem flatten_chunks {size : ℕ} (hsize : 0 < size) (l : List α) :
    (chunks size l).flatten = l := by
  have hcover : l.length ≤ size * ((l.length + size - 1) / size) := by
    have hdiv := Nat.div_add_mod (l.length + size - 1) size
    have hmod := Nat.mod_lt (l.length + size - 1) hsize
    omega
  rw [chunks, flatten_range_map, List.take_of_length_le hcover]

theorem chunks_of_length_le {size : ℕ} {l : List α} (hl : l ≠ []) (hle : l.length ≤ size) :
    chunks size l = [l] := by
  have hpos := List.length_pos_iff.2 hl
  have hcount : (l.length + size - 1) / size = 1 := by
    rw [Nat.div_eq_iff (by omega)]
    omega
  rw [chunks, hcount]
  simp only [List.range_one, List.map_singleton, Nat.mul_zero, List.drop_zero,
    List.take_of_length_le hle]

theorem chunks_nil {size : ℕ} (hsize : 0 < size) : chunks size ([] : List α) = [] := by
  have hlast : size - 1 < size := Nat.sub_lt hsize Nat.one_pos
  rw [chunks, List.length_nil, Nat.zero_add, Nat.div_eq_of_lt hlast]
  rfl

theorem chunks_cons {size : ℕ} (hsize : 0 < size) {l : List α} (hl : l ≠ []) :
    chunks size l = l.take size :: chunks size (l.drop size) := by
  have hpos := List.length_pos_iff.2 hl
  have hcount : (l.length + size - 1) / size = ((l.drop size).length + size - 1) / size + 1 := by
    rw [List.length_drop, ← Nat.add_div_right _ hsize]
    rcases le_or_gt size l.length with hle | hlt
    · rw [show l.length - size + size - 1 + size = l.length + size - 1 by omega]
    · rw [Nat.sub_eq_zero_of_le hlt.le, Nat.zero_add,
        Nat.div_eq_of_lt_le (k := 1) (by omega) (by omega),
        Nat.div_eq_of_lt_le (k := 1) (by omega) (by omega)]
  rw [chunks, hcount, List.range_succ_eq_map, List.map_cons, Nat.mul_zero, List.drop_zero,
    List.map_map, chunks]
  congr 1
  refine List.map_congr_left fun i _ => ?_
  rw [Function.comp_apply, List.drop_drop, Nat.mul_succ, Nat.add_comm]

theorem chunks_append {size : ℕ} (hsize : 0 < size) {first : List α}
    (hfirst : first.length = size) (l : List α) :
    chunks size (first ++ l) = first :: chunks size l := by
  have hne : first ++ l ≠ [] := by
    refine List.append_ne_nil_of_left_ne_nil (List.ne_nil_of_length_pos ?_) l
    omega
  rw [chunks_cons hsize hne, List.take_left' hfirst, List.drop_left' hfirst]

/-- Reads the parts in order, each after the ones before it. -/
def concat (read : ℕ → Except ε (List α)) (indices : List ℕ) : Except ε (List α) :=
  indices.foldlM (fun l index => do
    let part ← read index
    pure (l ++ part)) []

theorem foldlM_concat {read : ℕ → Except ε (List α)} {part : ℕ → List α} {indices : List ℕ}
    (hread : ∀ i ∈ indices, read i = .ok (part i)) (l : List α) :
    indices.foldlM (fun l index => do
      let part ← read index
      pure (l ++ part)) l = .ok (l ++ (indices.map part).flatten) := by
  induction indices generalizing l with
  | nil => rw [List.foldlM_nil, List.map_nil, List.flatten_nil, List.append_nil]; rfl
  | cons i rest ih =>
      have hrest := ih (fun j hj => hread j (List.mem_cons_of_mem _ hj)) (l ++ part i)
      rw [List.foldlM_cons, hread i List.mem_cons_self, List.map_cons, List.flatten_cons,
        ← List.append_assoc]
      exact hrest

theorem concat_range {read : ℕ → Except ε (List α)} {parts : List (List α)}
    (hread : ∀ i part, parts[i]? = some part → read i = .ok part) :
    concat read (List.range parts.length) = .ok parts.flatten := by
  have hpart : ∀ i ∈ List.range parts.length, read i = .ok (parts.getD i []) := by
    intro i hi
    have hlt := List.mem_range.1 hi
    rw [List.getD_eq_getElem _ _ hlt]
    exact hread i _ (List.getElem?_eq_getElem hlt)
  have hparts : (List.range parts.length).map (fun i => parts.getD i []) = parts := by
    refine List.ext_getElem (by simp) fun i hi hlt => ?_
    rw [List.getElem_map, List.getElem_range, List.getD_eq_getElem _ _ hlt]
  rw [concat, foldlM_concat hpart, hparts, List.nil_append]

end

/-- Of a set of indices below a bound the size tells whether it has all of them. -/
theorem card_eq_iff {received : Finset ℕ} {count : ℕ} (h : received ⊆ Finset.range count) :
    received.card = count ↔ ∀ i < count, i ∈ received := by
  constructor
  · intro hcard i hi
    have hall := Finset.eq_of_subset_of_card_le h (by rw [Finset.card_range, hcard])
    exact hall ▸ Finset.mem_range.2 hi
  · intro hall
    have hrange : received = Finset.range count :=
      h.antisymm fun i hi => hall i (Finset.mem_range.1 hi)
    rw [hrange, Finset.card_range]

end Chunks
