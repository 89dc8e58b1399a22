import Mathlib.Data.List.Basic
import Mathlib.Order.Lattice

/-!
# Vectors on a Borrowed Slice

`StackVec` of `lib/stack-vec` keeps a vector in a slice that its user lends: the first
`len` cells are the elements, the others are free. The length never exceeds that of the
slice, so a full vector refuses a further element.

Conventions: an operation returns the vector after it. `push` returns `none` for `Err`,
and the vector is then as before. Cloning an element gives the element itself.

## Main results

* `push_eq_none_iff`, `asSlice_push`: a push fails exactly on a full vector, and appends.
* `asSlice_pop`: a pop takes the last element.
* `asSlice_write`: a write through `deref_mut` changes one element.
* `asSlice_truncate`: truncating takes a prefix.
-/

namespace OsLabs

/-- `StackVec`. -/
structure StackVec (α : Type) where
  storage : List α
  len : ℕ
  len_le : len ≤ storage.length

namespace StackVec

variable {α : Type}

/-- `StackVec::new`. -/
def new (storage : List α) : StackVec α := ⟨storage, 0, Nat.zero_le _⟩

/-- `StackVec::with_len`; `none` is the panic. -/
def withLen (storage : List α) (len : ℕ) : Option (StackVec α) :=
  if h : len > storage.length then none else some ⟨storage, len, by omega⟩

/-- `StackVec::capacity`. -/
def capacity (v : StackVec α) : ℕ := v.storage.length

/-- `StackVec::as_slice`. -/
def asSlice (v : StackVec α) : List α := v.storage.take v.len

/-- `StackVec::is_empty`. -/
def isEmpty (v : StackVec α) : Bool := v.len == 0

/-- `StackVec::is_full`. -/
def isFull (v : StackVec α) : Bool := v.len == v.capacity

/-- `StackVec::truncate`. -/
def truncate (v : StackVec α) (len : ℕ) : StackVec α :=
  if h : len < v.len then ⟨v.storage, len, h.le.trans v.len_le⟩ else v

/-- `StackVec::push`. -/
def push (v : StackVec α) (value : α) : Option (StackVec α) :=
  if h : v.isFull then none
  else some ⟨v.storage.set v.len value, v.len + 1, by
    have hne : v.len ≠ v.storage.length := fun heq => h (beq_iff_eq.mpr heq)
    have hle := v.len_le
    rw [List.length_set]
    omega⟩

/-- `StackVec::pop`: the last element, if any, and the vector without it. -/
def pop (v : StackVec α) : Option (α × StackVec α) :=
  if h : v.len = 0 then none
  else
    have hlt : v.len - 1 < v.storage.length := by
      have := v.len_le
      omega
    some (v.storage[v.len - 1], ⟨v.storage, v.len - 1, hlt.le⟩)

/-- `v[i]`, an access to the slice that `deref` returns; `none` is the panic. -/
def index (v : StackVec α) (i : ℕ) : Option α := v.asSlice[i]?

/-- `v[i] = value`, an access to the slice of the first `len` cells that `deref_mut`
returns; `none` is the panic. -/
def write (v : StackVec α) (i : ℕ) (value : α) : Option (StackVec α) :=
  if i < v.len then
    some ⟨v.storage.set i value, v.len, by rw [List.length_set]; exact v.len_le⟩
  else none

/-- `into_iter`: the items of the iterator over the first `len` cells. -/
def intoIter (v : StackVec α) : List α := v.storage.take v.len

/-- The slice has the length of the vector. -/
@[simp] theorem length_asSlice (v : StackVec α) : v.asSlice.length = v.len := by
  rw [asSlice, List.length_take, Nat.min_eq_left v.len_le]

/-- An empty vector is one with an empty slice. -/
theorem isEmpty_iff {v : StackVec α} : v.isEmpty = true ↔ v.asSlice = [] := by
  rw [isEmpty, beq_iff_eq, ← length_asSlice, List.length_eq_zero_iff]

/-- A push fails exactly on a full vector. -/
theorem push_eq_none_iff {v : StackVec α} {value : α} :
    v.push value = none ↔ v.asSlice.length = v.capacity := by
  rw [push, length_asSlice]
  by_cases h : v.isFull = true
  · rw [dif_pos h]
    exact iff_of_true rfl (beq_iff_eq.mp h)
  · rw [dif_neg h]
    exact iff_of_false (by simp) fun heq => h (beq_iff_eq.mpr heq)

/-- **A push appends** its element to the slice and keeps the capacity. -/
theorem asSlice_push {v v' : StackVec α} {value : α} (h : v.push value = some v') :
    v'.asSlice = v.asSlice ++ [value] ∧ v'.capacity = v.capacity := by
  rw [push] at h
  split at h
  · simp at h
  · rename_i hfull
    have hne : v.len ≠ v.storage.length := fun heq => hfull (beq_iff_eq.mpr heq)
    have hlt : v.len < v.storage.length := Nat.lt_of_le_of_ne v.len_le hne
    obtain rfl := Option.some.inj h
    constructor
    · simp only [asSlice]
      rw [List.take_succ_eq_append_getElem (by rwa [List.length_set]), List.getElem_set_self,
        List.take_set_of_le (le_refl v.len)]
    · simp [capacity]

/-- **A pop takes the last element** of the slice and keeps the capacity. -/
theorem asSlice_pop {v : StackVec α} (h : v.asSlice ≠ []) :
    ∃ a v', v.pop = some (a, v') ∧ v.asSlice = v'.asSlice ++ [a] ∧
      v'.capacity = v.capacity := by
  have hpos : v.len ≠ 0 := by
    rw [← length_asSlice]
    exact fun h0 => h (List.length_eq_zero_iff.mp h0)
  have hle := v.len_le
  have hlt : v.len - 1 < v.storage.length := by omega
  refine ⟨v.storage[v.len - 1], ⟨v.storage, v.len - 1, hlt.le⟩, ?_, ?_, rfl⟩
  · rw [pop, dif_neg hpos]
  · simp only [asSlice]
    rw [← List.take_succ_eq_append_getElem hlt, Nat.sub_add_cancel (by omega)]

/-- A write through `deref_mut` is one to the element, within the length. -/
theorem write_eq_none_iff {v : StackVec α} {i : ℕ} {value : α} :
    v.write i value = none ↔ v.asSlice.length ≤ i := by
  rw [write, length_asSlice]
  split <;> simp <;> omega

/-- A write into the slice replaces one element. -/
theorem asSlice_write {v v' : StackVec α} {i : ℕ} {value : α} (h : v.write i value = some v') :
    v'.asSlice = v.asSlice.set i value ∧ v'.capacity = v.capacity := by
  rw [write] at h
  split at h
  · obtain rfl := Option.some.inj h
    refine ⟨?_, by simp [capacity]⟩
    simp only [asSlice]
    rw [List.take_set]
  · simp at h

/-- Truncating leaves a prefix of the slice, which is all of it if it was short enough. -/
theorem asSlice_truncate (v : StackVec α) (len : ℕ) :
    (v.truncate len).asSlice = v.asSlice.take len ∧
      (v.truncate len).capacity = v.capacity := by
  rw [truncate]
  split
  · rename_i h
    refine ⟨?_, rfl⟩
    simp only [asSlice]
    rw [List.take_take, Nat.min_eq_left h.le]
  · rename_i h
    exact ⟨(List.take_of_length_le (by rw [length_asSlice]; omega)).symm, rfl⟩

end StackVec

end OsLabs
