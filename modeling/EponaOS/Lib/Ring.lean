import Mathlib.Data.List.Basic
import Mathlib.Tactic.Ring

/-!
# Ring buffers

A queue in an array of `n` slots, from `head` up to `tail`, which is a free slot. The
contents are read off the array; to put and to take an element is to append and to drop
one. A queue that counts its elements may fill all slots: its `head` is the slot behind the
last element.
-/

namespace EponaOS.Ring

variable {α : Type} {n head tail : Nat} {buf : Nat → α}

def count (n head tail : Nat) : Nat := (tail + n - head) % n

def contents (n : Nat) (buf : Nat → α) (head tail : Nat) : List α :=
  (List.range (count n head tail)).map fun i => buf ((head + i) % n)

theorem count_self : count n head head = 0 := by
  rw [count, Nat.add_sub_cancel_left, Nat.mod_self]

theorem count_eq (hh : head < n) (ht : tail < n) :
    count n head tail = if head ≤ tail then tail - head else tail + n - head := by
  rw [count]
  split
  · have h : tail + n - head = tail - head + n := by omega
    rw [h, Nat.add_mod_right, Nat.mod_eq_of_lt (by omega)]
  · exact Nat.mod_eq_of_lt (by omega)

theorem succ_mod_eq (hi : i < n) : (i + 1) % n = if i + 1 = n then 0 else i + 1 := by
  split
  · rename_i h
    rw [h, Nat.mod_self]
  · exact Nat.mod_eq_of_lt (by omega)

theorem contents_self : contents n buf head head = [] := by
  rw [contents, count_self, List.range_zero, List.map_nil]

theorem contents_put (hh : head < n) (ht : tail < n) (hfree : (tail + 1) % n ≠ head) (x : α) :
    contents n (fun k => if k = tail then x else buf k) head ((tail + 1) % n) =
      contents n buf head tail ++ [x] := by
  have hnext : (tail + 1) % n < n := Nat.mod_lt _ (by omega)
  have hcount : count n head ((tail + 1) % n) = count n head tail + 1 := by
    rw [count_eq hh hnext, count_eq hh ht]
    rw [succ_mod_eq ht] at hfree ⊢
    split at hfree <;> rename_i hlast
    · rw [if_pos hlast]
      split <;> split <;> omega
    · rw [if_neg hlast]
      split <;> split <;> omega
  have hslot : (head + count n head tail) % n = tail := by
    rw [count_eq hh ht]
    split
    · rw [Nat.add_sub_cancel' (by assumption), Nat.mod_eq_of_lt ht]
    · have h : head + (tail + n - head) = tail + n := by omega
      rw [h, Nat.add_mod_right, Nat.mod_eq_of_lt ht]
  have hother : ∀ i < count n head tail, (head + i) % n ≠ tail := by
    intro i hi hit
    rw [count_eq hh ht] at hi
    by_cases hwrap : head + i < n
    · rw [Nat.mod_eq_of_lt hwrap] at hit
      split at hi <;> omega
    · have h : head + i = head + i - n + n := by omega
      rw [h, Nat.add_mod_right, Nat.mod_eq_of_lt (by split at hi <;> omega)] at hit
      split at hi <;> omega
  rw [contents, hcount, List.range_succ, List.map_append, List.map_singleton, hslot, if_pos rfl]
  congr 1
  refine List.map_congr_left fun i hi => ?_
  rw [if_neg (hother i (List.mem_range.mp hi))]

theorem contents_take (hh : head < n) (ht : tail < n) (hne : head ≠ tail) :
    contents n buf head tail = buf head :: contents n buf ((head + 1) % n) tail := by
  have hnext : (head + 1) % n < n := Nat.mod_lt _ (by omega)
  have hcount : count n head tail = count n ((head + 1) % n) tail + 1 := by
    rw [count_eq hh ht, count_eq hnext ht, succ_mod_eq hh]
    by_cases hlast : head + 1 = n
    · simp only [if_pos hlast]
      split <;> split <;> omega
    · simp only [if_neg hlast]
      split <;> split <;> omega
  rw [contents, hcount, List.range_succ_eq_map, List.map_cons, List.map_map, Nat.add_zero,
    Nat.mod_eq_of_lt hh, contents]
  congr 1
  refine List.map_congr_left fun i _ => ?_
  rw [Function.comp, Nat.mod_add_mod, Nat.succ_eq_add_one, Nat.add_right_comm, Nat.add_assoc]

end EponaOS.Ring

namespace EponaOS.Fifo

variable {α : Type} {n head count : Nat} {buf : Nat → α}

def tail (n head count : Nat) : Nat := (head + n - count) % n

def contents (n : Nat) (buf : Nat → α) (head count : Nat) : List α :=
  (List.range count).map fun i => buf ((head + n - count + i) % n)

@[simp] theorem contents_length : (contents n buf head count).length = count := by
  simp [contents]

@[simp] theorem contents_zero : contents n buf head 0 = [] := rfl

theorem contents_put (hh : head < n) (hc : count < n) (x : α) :
    contents n (fun k => if k = head then x else buf k) ((head + 1) % n) (count + 1) =
      contents n buf head count ++ [x] := by
  have hslot : ∀ i, i ≤ count →
      ((head + 1) % n + n - (count + 1) + i) % n = (head + n - count + i) % n := by
    intro i hi
    by_cases hlast : head + 1 = n
    · have h : head + n - count + i = n - (count + 1) + i + n := by omega
      rw [hlast, Nat.mod_self, Nat.zero_add, h, Nat.add_mod_right]
    · have h : head + 1 + n - (count + 1) + i = head + n - count + i := by omega
      rw [Nat.mod_eq_of_lt (show head + 1 < n by omega), h]
  have hnew : (head + n - count + count) % n = head := by
    rw [Nat.sub_add_cancel (by omega), Nat.add_mod_right, Nat.mod_eq_of_lt hh]
  -- no element before the new one is in its slot
  have hother : ∀ i, i < count → (head + n - count + i) % n ≠ head := by
    intro i hi h
    by_cases hwrap : head + n - count + i < n
    · rw [Nat.mod_eq_of_lt hwrap] at h
      omega
    · rw [Nat.mod_eq_sub_mod (by omega), Nat.mod_eq_of_lt (by omega)] at h
      omega
  rw [contents, List.range_succ, List.map_append, List.map_singleton, hslot count (Nat.le_refl _),
    hnew, if_pos rfl, contents]
  congr 1
  refine List.map_congr_left fun i hi => ?_
  have hi := List.mem_range.mp hi
  rw [hslot i (Nat.le_of_lt hi), if_neg (hother i hi)]

theorem contents_take (hc : count < n) :
    contents n buf head (count + 1) =
      buf (tail n head (count + 1)) :: contents n buf head count := by
  rw [contents, List.range_succ_eq_map, List.map_cons, List.map_map, tail, Nat.add_zero, contents]
  congr 1
  refine List.map_congr_left fun i _ => ?_
  have h : head + n - (count + 1) + (i + 1) = head + n - count + i := by omega
  rw [Function.comp, Nat.succ_eq_add_one, h]

end EponaOS.Fifo
