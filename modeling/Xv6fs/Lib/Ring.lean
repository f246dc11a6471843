import Mathlib

/-! Ring buffers with two 32-bit counters that wrap: how many entries there are between the counters,
and what they are, oldest first. -/

namespace Ring

open Function (update update_self update_of_ne)

variable {α : Type*} {data : Nat → α} {size : Nat} {r w : UInt32}

/-- The number of entries between the counters. -/
def count (r w : UInt32) : Nat := (w - r).toNat

/-- The entries between the counters. -/
def contents (data : Nat → α) (size : Nat) (r w : UInt32) : List α :=
  (List.range (count r w)).map fun j => data ((r.toNat + j) % size)

@[simp] theorem length_contents : (contents data size r w).length = count r w := by
  simp [contents]

theorem count_eq (r w : UInt32) : count r w = (2 ^ 32 - r.toNat + w.toNat) % 2 ^ 32 :=
  UInt32.toNat_sub w r

theorem toNat_succ (w : UInt32) : (w + 1).toNat = (w.toNat + 1) % 2 ^ 32 := UInt32.toNat_add w 1

theorem count_eq_zero : count r w = 0 ↔ r = w := by
  have hr := r.toNat_lt
  have hw := w.toNat_lt
  rw [count_eq, ← UInt32.toNat_inj]
  omega

/-- Where the counters stand to each other. -/
theorem toNat_add_count (r w : UInt32) : (r.toNat + count r w) % 2 ^ 32 = w.toNat := by
  have hr := r.toNat_lt
  have hw := w.toNat_lt
  rw [count_eq]
  omega

/-- A counter is ahead by `k` when it is the other one and `k`. -/
theorem count_eq_iff {k : Nat} (hk : k < 2 ^ 32) : count r w = k ↔ w = r + UInt32.ofNat k := by
  have hr := r.toNat_lt
  have hw := w.toNat_lt
  rw [count_eq, ← UInt32.toNat_inj, UInt32.toNat_add, UInt32.toNat_ofNat', Nat.mod_eq_of_lt hk]
  omega

theorem count_push (h : count r w + 1 < 2 ^ 32) : count r (w + 1) = count r w + 1 := by
  have hr := r.toNat_lt
  have hw := w.toNat_lt
  rw [count_eq] at h
  rw [count_eq, count_eq, toNat_succ]
  omega

theorem count_pop (h : 0 < count r w) : count (r + 1) w = count r w - 1 := by
  have hr := r.toNat_lt
  have hw := w.toNat_lt
  rw [count_eq] at h
  rw [count_eq, count_eq, toNat_succ]
  omega

/-- The place of the next entry, when the size of the ring divides the range of the counters. -/
theorem index_eq (hsize : size ∣ 2 ^ 32) : w.toNat % size = (r.toNat + count r w) % size := by
  rw [← toNat_add_count r w, Nat.mod_mod_of_dvd _ hsize]

/-- An entry that is added is the last. -/
theorem contents_push (hsize : size ∣ 2 ^ 32) (hroom : count r w < size) (x : α)
    (hmax : size < 2 ^ 32) :
    contents (update data (w.toNat % size) x) size r (w + 1) = contents data size r w ++ [x] := by
  rw [contents, count_push (by omega), List.range_succ, List.map_append, contents]
  congr 1
  · apply List.map_congr_left
    intro j hj
    rw [List.mem_range] at hj
    rw [update_of_ne]
    rw [index_eq (r := r) hsize]
    intro heq
    have hmod : j % size = count r w % size := Nat.ModEq.add_left_cancel' r.toNat heq
    rw [Nat.mod_eq_of_lt (by omega), Nat.mod_eq_of_lt hroom] at hmod
    omega
  · rw [List.map_singleton, ← index_eq hsize, update_self]

/-- The entry that is taken is the first. -/
theorem contents_pop (hsize : size ∣ 2 ^ 32) (h : 0 < count r w) :
    contents data size r w = data (r.toNat % size) :: contents data size (r + 1) w := by
  obtain ⟨k, hk⟩ := Nat.exists_eq_succ_of_ne_zero (Nat.ne_of_gt h)
  rw [contents, contents, count_pop h, hk, Nat.succ_sub_one, List.range_succ_eq_map, List.map_cons,
    Nat.add_zero, List.map_map]
  congr 1
  apply List.map_congr_left
  intro j _
  have hindex : (r + 1).toNat % size = (r.toNat + 1) % size := by
    rw [toNat_succ]
    exact Nat.mod_mod_of_dvd _ hsize
  show data ((r.toNat + (j + 1)) % size) = data (((r + 1).toNat + j) % size)
  rw [Nat.add_mod, Nat.add_mod (r + 1).toNat, hindex]
  congr 1
  rw [← Nat.add_mod, ← Nat.add_mod]
  congr 1
  omega

end Ring
