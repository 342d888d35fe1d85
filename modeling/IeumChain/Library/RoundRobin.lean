import Mathlib.Data.List.GetD
import Mathlib.Data.List.Rotate

/-!
# Taking turns

A list is served in a circle: the place is a counter modulo the length. Any window of
as many consecutive turns as there are entries serves each entry once, wherever it begins.
-/
namespace RoundRobin

variable {α : Type}

/-- Whose turn it is at a count. -/
def turn (l : List α) (d : α) (count : ℕ) : α := l.getD (count % l.length) d

/-- The turns of a window read the list from the place at which the window begins. -/
theorem map_turn (l : List α) (d : α) (start : ℕ) :
    ((List.range l.length).map fun i => turn l d (start + i)) = l.rotate start := by
  apply List.ext_getElem
  · simp
  · intro i hi _
    rw [List.length_map, List.length_range] at hi
    have hlt : (i + start) % l.length < l.length := Nat.mod_lt _ (Nat.zero_lt_of_lt hi)
    rw [List.getElem_map, List.getElem_range, List.getElem_rotate, turn, Nat.add_comm start i,
      List.getD_eq_getElem l d hlt]

theorem map_turn_perm (l : List α) (d : α) (start : ℕ) :
    ((List.range l.length).map fun i => turn l d (start + i)).Perm l := by
  rw [map_turn]
  exact l.rotate_perm start

end RoundRobin
