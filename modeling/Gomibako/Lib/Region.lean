import Mathlib.Data.List.TakeDrop

/-!
# Regions of a storage

A storage is a list, a region of it what lies between two positions. Regions that meet are one
(`region_append`). Overwriting a part of the storage changes that part (`region_overwrite_self`) and
no region before or behind it. A move copies a region to another position, which may overlap it.
-/

variable {α : Type _} {s xs : List α} {i j k : Nat}

/-- What lies between two positions of a storage, the first one included and the second one not. -/
def region (s : List α) (i j : Nat) : List α := (s.drop i).take (j - i)

/-- A storage with other contents from a position on; what is before it and behind the new contents
stays. -/
def overwrite (s : List α) (i : Nat) (xs : List α) : List α :=
  s.take i ++ xs ++ s.drop (i + xs.length)

/-- A storage with a copy of `n` of its elements, from the position `i`, at the position `j`. -/
def moveRegion (s : List α) (j i n : Nat) : List α := overwrite s j (region s i (i + n))

/-- A region inside of the storage has as many elements as its two positions are apart. -/
theorem length_region (h : j ≤ s.length) : (region s i j).length = j - i := by
  rw [region, List.length_take, List.length_drop]
  omega

/-- A region between a position and itself is empty. -/
@[simp]
theorem region_self (s : List α) (i : Nat) : region s i i = [] := by
  rw [region, Nat.sub_self, List.take_zero]

/-- Two regions that meet are the region from the start of the first to the end of the second
one. -/
theorem region_append (s : List α) (hij : i ≤ j) (hjk : j ≤ k) :
    region s i j ++ region s j k = region s i k := by
  have hk : k - i = (j - i) + (k - j) := by omega
  have hj : j = i + (j - i) := by omega
  rw [region, region, region, hk, List.take_add, List.drop_drop, ← hj]

/-- Dropping elements of a region moves its start, and its end stays. -/
theorem drop_region (s : List α) (n : Nat) : (region s i j).drop n = region s (i + n) j := by
  rw [region, region, List.drop_take, List.drop_drop, Nat.sub_sub]

/-- Overwriting inside of the storage keeps its length. -/
theorem length_overwrite (h : i + xs.length ≤ s.length) : (overwrite s i xs).length = s.length := by
  rw [overwrite, List.length_append, List.length_append, List.length_take, List.length_drop]
  omega

/-- What is written is found where it was written. -/
theorem region_overwrite_self (h : i ≤ s.length) :
    region (overwrite s i xs) i (i + xs.length) = xs := by
  have hi : (s.take i).length = i := List.length_take_of_le h
  rw [region, overwrite, List.append_assoc, Nat.add_sub_cancel_left, List.drop_left' hi,
    List.take_left]

/-- A region that ends before what is written is kept. -/
theorem region_overwrite_before (h : i ≤ s.length) (hk : k ≤ i) :
    region (overwrite s i xs) j k = region s j k := by
  have htake : (overwrite s i xs).take k = s.take k := by
    rw [overwrite, List.append_assoc,
      List.take_append_of_le_length (by rw [List.length_take_of_le h]; exact hk), List.take_take,
      Nat.min_eq_left hk]
  rw [region, region, ← List.drop_take, ← List.drop_take, htake]

/-- A region that starts behind what is written is kept. -/
theorem region_overwrite_behind (h : i + xs.length ≤ s.length) (hj : i + xs.length ≤ j) :
    region (overwrite s i xs) j k = region s j k := by
  have hdrop : (overwrite s i xs).drop (i + xs.length) = s.drop (i + xs.length) := by
    rw [overwrite]
    refine List.drop_left' ?_
    rw [List.length_append, List.length_take_of_le (by omega)]
  have hj' : j = (i + xs.length) + (j - (i + xs.length)) := by omega
  rw [region, region, hj', ← List.drop_drop, hdrop, List.drop_drop]
