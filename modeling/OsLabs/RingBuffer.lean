import Mathlib.Data.List.Basic
import Mathlib.Data.Nat.ModEq
import Mathlib.Logic.Function.Basic

/-!
# Ring Buffers with Wrapping Counters

A small library for the ring buffers of drivers and pipes: an array of `m` cells and
counters of `w` bits that count up for ever, modulo `2 ^ w`. The cell of a counter is its
value modulo `m`. That the counters wrap does no harm if `m` divides `2 ^ w`.

## Main results

* `ringContents_push`, `ringContents_pop`: counting up the write counter appends an element,
  counting up the read counter takes the oldest one.
* `ringContents_unpush`: counting down the write counter takes the newest one.
* `ringContents_append`: a counter between the two cuts the contents in two.
-/

namespace OsLabs

variable {α : Type} {w m : ℕ} {data : ℕ → α} {r e : BitVec w}

/-- A counter goes on by one, or wraps to 0. -/
theorem toNat_succ (e : BitVec w) : (e + 1).toNat = (e.toNat + 1) % 2 ^ w := by
  rw [show (1 : BitVec w) = BitVec.ofNat w 1 from rfl, BitVec.toNat_add, BitVec.toNat_ofNat,
    Nat.add_mod_mod]

/-- The number of elements between two counters. -/
def ringLength (r e : BitVec w) : ℕ := (e - r).toNat

/-- The elements from counter `r` to counter `e`, the oldest first. -/
def ringContents (m : ℕ) (data : ℕ → α) (r e : BitVec w) : List α :=
  (List.range (ringLength r e)).map fun i => data ((r.toNat + i) % m)

/-! ### The number of elements -/

/-- A distance is below the range of the counters. -/
theorem ringLength_lt (r e : BitVec w) : ringLength r e < 2 ^ w := (e - r).isLt

/-- The write counter, counted from the read counter. -/
theorem toNat_add_ringLength (r e : BitVec w) :
    (r.toNat + ringLength r e) % 2 ^ w = e.toNat := by
  rw [ringLength, ← BitVec.toNat_add, BitVec.add_comm, BitVec.sub_add_cancel]

/-- That number is the only one that leads from the read counter to the write counter. -/
theorem ringLength_eq {k : ℕ} (h : (r.toNat + k) % 2 ^ w = e.toNat) (hk : k < 2 ^ w) :
    ringLength r e = k := by
  have hmod : r.toNat + ringLength r e ≡ r.toNat + k [MOD 2 ^ w] :=
    (toNat_add_ringLength r e).trans h.symm
  have hcancel := Nat.ModEq.add_left_cancel' _ hmod
  rwa [Nat.ModEq, Nat.mod_eq_of_lt (ringLength_lt r e), Nat.mod_eq_of_lt hk] at hcancel

/-- A counter has no distance from itself. -/
@[simp] theorem ringLength_self (r : BitVec w) : ringLength r r = 0 := by simp [ringLength]

/-- Only a counter has no distance from itself. -/
theorem ringLength_eq_zero : ringLength r e = 0 ↔ r = e := by
  refine ⟨fun h => ?_, fun h => by rw [h, ringLength_self]⟩
  have hadd := toNat_add_ringLength r e
  rw [h, Nat.add_zero, Nat.mod_eq_of_lt r.isLt] at hadd
  exact BitVec.eq_of_toNat_eq hadd

/-- Counters that differ have a positive distance. -/
theorem ringLength_pos (h : r ≠ e) : 0 < ringLength r e :=
  Nat.pos_of_ne_zero fun h0 => h (ringLength_eq_zero.1 h0)

/-- One more element, as long as the counters do not lap each other. -/
theorem ringLength_succ (h : ringLength r e + 1 < 2 ^ w) :
    ringLength r (e + 1) = ringLength r e + 1 := by
  refine ringLength_eq ?_ h
  rw [toNat_succ, ← toNat_add_ringLength r e, Nat.mod_add_mod, Nat.add_assoc]

/-- When the read counter goes on, the distance becomes smaller by one. -/
theorem ringLength_succ_left (h : r ≠ e) : ringLength (r + 1) e + 1 = ringLength r e := by
  have hpos := ringLength_pos h
  have hlt := ringLength_lt r e
  have heq : ringLength (r + 1) e = ringLength r e - 1 := by
    refine ringLength_eq ?_ (by omega)
    rw [toNat_succ, Nat.mod_add_mod, Nat.add_assoc, Nat.add_sub_cancel' hpos]
    exact toNat_add_ringLength r e
  omega

/-- When the write counter goes back, the distance becomes smaller by one. -/
theorem ringLength_pred (h : r ≠ e) : ringLength r (e - 1) + 1 = ringLength r e := by
  have hpos := ringLength_pos h
  have hlt := ringLength_lt r e
  have heq : ringLength r (e - 1) = ringLength r e - 1 := by
    refine ringLength_eq ?_ (by omega)
    have hsucc : (e - 1).toNat + 1 ≡ r.toNat + (ringLength r e - 1) + 1 [MOD 2 ^ w] := by
      rw [Nat.ModEq, ← toNat_succ, BitVec.sub_add_cancel, Nat.add_assoc,
        Nat.sub_add_cancel hpos, toNat_add_ringLength]
    have hcancel := Nat.ModEq.add_right_cancel' 1 hsucc
    rw [Nat.ModEq, Nat.mod_eq_of_lt (e - 1).isLt] at hcancel
    exact hcancel.symm
  omega

/-- A counter between the two cuts the length in two. -/
theorem ringLength_add {c : BitVec w} (h : ringLength r c + ringLength c e < 2 ^ w) :
    ringLength r e = ringLength r c + ringLength c e := by
  refine ringLength_eq ?_ h
  rw [← Nat.add_assoc, ← Nat.mod_add_mod, toNat_add_ringLength, toNat_add_ringLength]

/-! ### The elements -/

/-- The buffer holds as many elements as the counters are apart. -/
@[simp] theorem length_ringContents : (ringContents m data r e).length = ringLength r e := by
  simp [ringContents]

/-- With equal counters the buffer is empty. -/
@[simp] theorem ringContents_self : ringContents m data r r = [] := by simp [ringContents]

/-- Only with equal counters is the buffer empty. -/
theorem ringContents_eq_nil : ringContents m data r e = [] ↔ r = e := by
  rw [← List.length_eq_zero_iff, length_ringContents, ringLength_eq_zero]

/-- The cell of a counter, found from another one. -/
theorem add_mod_cell (hdvd : m ∣ 2 ^ w) (c : BitVec w) {j k : ℕ}
    (h : (r.toNat + k) % 2 ^ w = c.toNat) : (c.toNat + j) % m = (r.toNat + (k + j)) % m := by
  rw [← h, ← Nat.add_assoc, Nat.add_mod, Nat.mod_mod_of_dvd _ hdvd, ← Nat.add_mod]

/-- The cell of the write counter, counted from the one of the read counter around the end of the
buffer. -/
theorem toNat_mod_eq (hdvd : m ∣ 2 ^ w) (r e : BitVec w) :
    e.toNat % m = (r.toNat + ringLength r e) % m :=
  add_mod_cell hdvd e (j := 0) (toNat_add_ringLength r e)

/-- A write to the cell of the write counter leaves the elements as they are. -/
theorem ringContents_update (hdvd : m ∣ 2 ^ w) (hlt : ringLength r e < m) (b : α) :
    ringContents m (Function.update data (e.toNat % m) b) r e = ringContents m data r e := by
  refine List.map_congr_left fun i hi => Function.update_of_ne (fun heq => ?_) _ _
  rw [List.mem_range] at hi
  rw [toNat_mod_eq hdvd r e] at heq
  have hcancel := Nat.ModEq.add_left_cancel' _ (heq : r.toNat + i ≡ _ [MOD m])
  rw [Nat.ModEq, Nat.mod_eq_of_lt (by omega), Nat.mod_eq_of_lt hlt] at hcancel
  omega

/-- Counting up the write counter appends the element in its cell. -/
theorem ringContents_succ (hdvd : m ∣ 2 ^ w) (hlt : ringLength r e + 1 < 2 ^ w) :
    ringContents m data r (e + 1) = ringContents m data r e ++ [data (e.toNat % m)] := by
  rw [ringContents, ringLength_succ hlt, List.range_succ, List.map_append,
    toNat_mod_eq hdvd r e]
  rfl

/-- **Storing an element and counting up appends it.** -/
theorem ringContents_push (hdvd : m ∣ 2 ^ w) (hm : m < 2 ^ w) (hlt : ringLength r e < m)
    (b : α) : ringContents m (Function.update data (e.toNat % m) b) r (e + 1) =
      ringContents m data r e ++ [b] := by
  rw [ringContents_succ hdvd (by omega), ringContents_update hdvd hlt, Function.update_self]

/-- **Counting up the read counter takes the oldest element.** -/
theorem ringContents_pop (hdvd : m ∣ 2 ^ w) (h : r ≠ e) :
    ringContents m data r e = data (r.toNat % m) :: ringContents m data (r + 1) e := by
  rw [ringContents, ← ringLength_succ_left h, List.range_succ_eq_map, List.map_cons,
    List.map_map, Nat.add_zero, ringContents]
  congr 1
  refine List.map_congr_left fun i _ => ?_
  rw [Function.comp_apply, add_mod_cell hdvd (r + 1) (k := 1) (toNat_succ r).symm,
    Nat.add_comm 1]

/-- **Counting down the write counter takes the newest element.** -/
theorem ringContents_unpush (hdvd : m ∣ 2 ^ w) (h : r ≠ e) :
    ringContents m data r e = ringContents m data r (e - 1) ++ [data ((e - 1).toNat % m)] := by
  have hlen := ringLength_pred h
  have hlt := ringLength_lt r e
  rw [← ringContents_succ hdvd (by omega), BitVec.sub_add_cancel]

/-- **A counter between the two cuts the contents in two.** -/
theorem ringContents_append (hdvd : m ∣ 2 ^ w) {c : BitVec w}
    (h : ringLength r c + ringLength c e < 2 ^ w) :
    ringContents m data r e = ringContents m data r c ++ ringContents m data c e := by
  rw [ringContents, ringLength_add h, List.range_add, List.map_append, List.map_map, ringContents,
    ringContents]
  congr 1
  refine List.map_congr_left fun i _ => ?_
  rw [Function.comp_apply, add_mod_cell hdvd c (toNat_add_ringLength r c)]

end OsLabs
