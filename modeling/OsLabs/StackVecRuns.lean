import OsLabs.StackVec

/-!
# Runs of a StackVec

`pop` and `truncate` of `StackVec` only lower the length: the values stay in the slice
behind the elements. A run of operations is nevertheless one on a plain list of bounded
length, which knows nothing of these cells: results and contents agree, whatever the run,
and so no operation can bring a dropped value back.

Conventions: a write out of bounds panics; the vector is then as before, and the run may
go on. `VecResult.ok` is `Ok(())` of `push` or the unit of `truncate` and of a write.

## Main results

* `StackVec.step_toBounded`: one operation on the vector is one on the list.
* `StackVec.run_toBounded`: so is a run.
* `StackVec.written_lt_peak`, `StackVec.storage_run`: the cells a run writes.
* `StackVec.refines_bounded_list`: the refinement, from both constructors.
-/

namespace OsLabs

variable {α : Type}

/-! ### Operations -/

/-- The operations that change a vector. -/
inductive VecOp (α : Type) where
  | push (value : α)
  | pop
  | truncate (len : ℕ)
  | write (i : ℕ) (value : α)

/-- What they return. -/
inductive VecResult (α : Type) where
  | ok
  | full
  | popped (value : Option α)
  | outOfBounds

/-- A run of operations: the results and the last state. -/
def runOps {σ : Type} (step : σ → VecOp α → VecResult α × σ) :
    σ → List (VecOp α) → List (VecResult α) × σ
  | s, [] => ([], s)
  | s, op :: ops =>
    ((step s op).1 :: (runOps step (step s op).2 ops).1, (runOps step (step s op).2 ops).2)

/-- A plain list of bounded length. -/
@[ext] structure BoundedList (α : Type) where
  cap : ℕ
  toList : List α
  length_le : toList.length ≤ cap

namespace BoundedList

/-- One operation on the list. -/
def step (x : BoundedList α) : VecOp α → VecResult α × BoundedList α
  | .push value =>
    if h : x.toList.length < x.cap then
      (.ok, ⟨x.cap, x.toList ++ [value], by simpa using Nat.succ_le_of_lt h⟩)
    else (.full, x)
  | .pop =>
    (.popped x.toList.getLast?,
      ⟨x.cap, x.toList.dropLast, by have := x.length_le; rw [List.length_dropLast]; omega⟩)
  | .truncate len =>
    (.ok, ⟨x.cap, x.toList.take len, by have := x.length_le; rw [List.length_take]; omega⟩)
  | .write i value =>
    if i < x.toList.length then
      (.ok, ⟨x.cap, x.toList.set i value, by rw [List.length_set]; exact x.length_le⟩)
    else (.outOfBounds, x)

end BoundedList

namespace StackVec

/-- One operation on the vector. -/
def step (v : StackVec α) : VecOp α → VecResult α × StackVec α
  | .push value =>
    match v.push value with
    | some v' => (.ok, v')
    | none => (.full, v)
  | .pop =>
    match v.pop with
    | some (value, v') => (.popped (some value), v')
    | none => (.popped none, v)
  | .truncate len => (.ok, v.truncate len)
  | .write i value =>
    match v.write i value with
    | some v' => (.ok, v')
    | none => (.outOfBounds, v)

/-- A run on the vector. -/
def run (v : StackVec α) (ops : List (VecOp α)) : List (VecResult α) × StackVec α :=
  runOps step v ops

/-- The list that a vector stands for: its elements, bounded by its capacity. -/
def toBounded (v : StackVec α) : BoundedList α :=
  ⟨v.capacity, v.asSlice, by rw [length_asSlice]; exact v.len_le⟩

/-- The greatest length reached in a run. -/
def peak (v : StackVec α) : List (VecOp α) → ℕ
  | [] => v.len
  | op :: ops => max v.len (peak (v.step op).2 ops)

/-- The cell that an operation assigns to, if any. -/
def cell (v : StackVec α) : VecOp α → Option ℕ
  | .push _ => if v.isFull then none else some v.len
  | .write i _ => if i < v.len then some i else none
  | .pop | .truncate _ => none

/-- The cells that a run assigns to. -/
def written (v : StackVec α) : List (VecOp α) → List ℕ
  | [] => []
  | op :: ops => (v.cell op).toList ++ written (v.step op).2 ops

/-! ### The elements -/

/-- A bounded list is determined by its elements and its capacity. -/
theorem toBounded_eq {v v' : StackVec α} {x : BoundedList α}
    (hslice : v'.asSlice = x.toList) (hcap : v'.capacity = v.capacity) (hx : x.cap = v.capacity) :
    x = v'.toBounded :=
  BoundedList.ext (hx.trans hcap.symm) hslice.symm

/-- **One operation** on the vector is the operation on the list. -/
theorem step_toBounded (v : StackVec α) (op : VecOp α) :
    v.toBounded.step op = ((v.step op).1, (v.step op).2.toBounded) := by
  have hle : v.asSlice.length ≤ v.capacity := v.toBounded.length_le
  cases op with
  | push value =>
      rw [step]
      cases hpush : v.push value with
      | none =>
          have hfull := push_eq_none_iff.mp hpush
          rw [BoundedList.step, dif_neg]
          simp only [toBounded]
          omega
      | some v' =>
          obtain ⟨hslice, hcap⟩ := asSlice_push hpush
          have hne : v.asSlice.length ≠ v.capacity := by
            intro heq
            rw [push_eq_none_iff.mpr heq] at hpush
            cases hpush
          rw [BoundedList.step, dif_pos (by simp only [toBounded]; omega)]
          exact Prod.ext rfl (toBounded_eq hslice hcap rfl)
  | pop =>
      rw [step]
      by_cases hnil : v.asSlice = []
      · have hlen : v.len = 0 := by rw [← length_asSlice, hnil, List.length_nil]
        rw [pop, dif_pos hlen]
        refine Prod.ext ?_ (toBounded_eq ?_ rfl rfl)
        · simp [BoundedList.step, toBounded, hnil]
        · simp [BoundedList.step, toBounded, hnil]
      · obtain ⟨a, v', hpop, hslice, hcap⟩ := asSlice_pop hnil
        rw [hpop]
        refine Prod.ext ?_ (toBounded_eq ?_ hcap rfl)
        · simp [BoundedList.step, toBounded, hslice]
        · simp [BoundedList.step, toBounded, hslice]
  | truncate len =>
      obtain ⟨hslice, hcap⟩ := asSlice_truncate v len
      exact Prod.ext rfl (toBounded_eq hslice hcap rfl)
  | write i value =>
      rw [step]
      cases hwrite : v.write i value with
      | none =>
          have hout := write_eq_none_iff.mp hwrite
          rw [BoundedList.step, if_neg]
          simp only [toBounded]
          omega
      | some v' =>
          obtain ⟨hslice, hcap⟩ := asSlice_write hwrite
          have hin : ¬ v.asSlice.length ≤ i := by
            intro hle
            rw [write_eq_none_iff.mpr hle] at hwrite
            cases hwrite
          rw [BoundedList.step, if_pos (by simp only [toBounded]; omega)]
          exact Prod.ext rfl (toBounded_eq hslice hcap rfl)

/-- **A run** on the vector is the run on the list: the same results, and the list that
the last vector stands for. -/
theorem run_toBounded (v : StackVec α) (ops : List (VecOp α)) :
    runOps BoundedList.step v.toBounded ops = ((v.run ops).1, (v.run ops).2.toBounded) := by
  induction ops generalizing v with
  | nil => rfl
  | cons op ops ih =>
      rw [runOps, step_toBounded, ih]
      rfl

/-- No single operation changes the capacity. -/
theorem capacity_step (v : StackVec α) (op : VecOp α) : (v.step op).2.capacity = v.capacity := by
  have h := congrArg (fun r => r.2.cap) (step_toBounded v op)
  refine h.symm.trans ?_
  cases op <;> simp only [BoundedList.step] <;> (try split) <;> rfl

/-- No sequence of operations changes the capacity. -/
theorem capacity_run (v : StackVec α) (ops : List (VecOp α)) :
    (v.run ops).2.capacity = v.capacity := by
  induction ops generalizing v with
  | nil => rfl
  | cons op ops ih => exact (ih (v.step op).2).trans (capacity_step v op)

/-! ### The cells -/

/-- An operation writes its cell only, below the greatest length so far. -/
theorem step_cell (v : StackVec α) (op : VecOp α) :
    (∀ c, v.cell op = some c → c < max v.len (v.step op).2.len) ∧
      ∀ i, v.cell op ≠ some i → (v.step op).2.storage[i]? = v.storage[i]? := by
  cases op with
  | push value =>
      rw [step, cell, push]
      by_cases hfull : v.isFull = true
      · rw [if_pos hfull, dif_pos hfull]
        simp
      · rw [if_neg hfull, dif_neg hfull]
        refine ⟨by simp, fun i hi => List.getElem?_set_ne fun heq => hi (by rw [heq])⟩
  | pop =>
      rw [step, cell, pop]
      by_cases hlen : v.len = 0
      · rw [dif_pos hlen]
        simp
      · rw [dif_neg hlen]
        simp
  | truncate len =>
      rw [step, cell, truncate]
      split <;> simp
  | write i value =>
      rw [step, cell, write]
      by_cases hi : i < v.len
      · rw [if_pos hi, if_pos hi]
        refine ⟨by simp [hi], fun j hj => List.getElem?_set_ne fun heq => hj (by rw [heq])⟩
      · rw [if_neg hi, if_neg hi]
        simp

/-- The vector is never longer than at its peak. -/
theorem len_le_peak (v : StackVec α) (ops : List (VecOp α)) : v.len ≤ v.peak ops := by
  cases ops with
  | nil => exact le_rfl
  | cons op ops => exact le_max_left _ _

/-- **No cell at or beyond the greatest length is written.** -/
theorem written_lt_peak (v : StackVec α) (ops : List (VecOp α)) :
    ∀ c ∈ v.written ops, c < v.peak ops := by
  induction ops generalizing v with
  | nil => simp [written]
  | cons op ops ih =>
      intro c hc
      have hlen := len_le_peak (v.step op).2 ops
      rw [peak]
      rcases List.mem_append.mp hc with hc | hc
      · have hlt := (step_cell v op).1 c (by simpa using hc)
        omega
      · have hlt := ih (v.step op).2 c hc
        omega

/-- **The other cells are as before**: a run changes only the cells to which one of its operations
writes. -/
theorem storage_run (v : StackVec α) (ops : List (VecOp α)) {i : ℕ} (hi : i ∉ v.written ops) :
    (v.run ops).2.storage[i]? = v.storage[i]? := by
  induction ops generalizing v with
  | nil => rfl
  | cons op ops ih =>
      rw [written, List.mem_append, not_or] at hi
      refine (ih (v.step op).2 hi.2).trans ((step_cell v op).2 i fun heq => hi.1 ?_)
      simp [heq]

/-! ### The refinement -/

/-- The two ways to make a vector of the first `n` cells. -/
def Starts (storage : List α) (n : ℕ) (v : StackVec α) : Prop :=
  (n = 0 ∧ new storage = v) ∨ withLen storage n = some v

/-- What a new vector stands for: the first elements of its storage. -/
theorem Starts.toBounded_eq {storage : List α} {n : ℕ} {v : StackVec α}
    (h : Starts storage n v) :
    v.storage = storage ∧ ∃ hn, v.toBounded = ⟨storage.length, storage.take n, hn⟩ := by
  rcases h with ⟨rfl, rfl⟩ | h
  · exact ⟨rfl, by simp, rfl⟩
  · rw [withLen] at h
    split at h
    · cases h
    · obtain rfl := Option.some.inj h
      exact ⟨rfl, by simp, rfl⟩

/-- **A vector refines a list of bounded length.** From either constructor and after every
sequence of operations: the length is within the capacity, which is that of the slice; the
results, the slice, the iteration and the indexing are those of the list; a push fails
exactly on a full vector and then changes nothing; another vector with the same elements
and capacity, whatever is in its other cells, gives the same results and contents for ever
after; and only cells below the greatest length reached have been written. -/
theorem refines_bounded_list {storage : List α} {n : ℕ} {v : StackVec α}
    (h : Starts storage n v) (ops : List (VecOp α)) :
    let r := v.run ops
    ∃ hn, let m := runOps BoundedList.step ⟨storage.length, storage.take n, hn⟩ ops
    r.2.len ≤ r.2.capacity ∧ r.2.capacity = storage.length ∧
    r.1 = m.1 ∧ r.2.asSlice = m.2.toList ∧ r.2.intoIter = m.2.toList ∧
    (∀ i, r.2.index i = m.2.toList[i]?) ∧
    (∀ value, (r.2.push value = none ↔ m.2.toList.length = storage.length) ∧
      (r.2.push value = none → r.2.step (.push value) = (.full, r.2))) ∧
    (∀ (w : StackVec α) (more : List (VecOp α)), w.asSlice = r.2.asSlice →
      w.capacity = r.2.capacity → (w.run more).1 = (r.2.run more).1 ∧
        (w.run more).2.asSlice = (r.2.run more).2.asSlice) ∧
    (∀ c ∈ v.written ops, c < v.peak ops) ∧
    ∀ i, i ∉ v.written ops → r.2.storage[i]? = storage[i]? := by
  obtain ⟨hstorage, hn, hstart⟩ := h.toBounded_eq
  have hrun := run_toBounded v ops
  rw [hstart] at hrun
  have hcap : (v.run ops).2.capacity = storage.length := by
    rw [capacity_run, capacity, hstorage]
  refine ⟨hn, ?_⟩
  rw [hrun]
  refine ⟨(v.run ops).2.len_le, hcap, rfl, rfl, rfl, fun i => rfl, fun value => ⟨?_, ?_⟩,
    ?_, written_lt_peak v ops, fun i hi => ?_⟩
  · rw [push_eq_none_iff, hcap]
    rfl
  · intro hpush
    rw [step, hpush]
  · -- the list that the two vectors stand for is the same
    intro w more hslice hcap
    have hw : w.toBounded = (v.run ops).2.toBounded := BoundedList.ext hcap hslice
    have hsame := (run_toBounded w more).symm.trans
      ((congrArg (runOps BoundedList.step · more) hw).trans (run_toBounded _ more))
    obtain ⟨hresults, hlast⟩ := Prod.ext_iff.mp hsame
    exact ⟨hresults, congrArg BoundedList.toList hlast⟩
  · rw [storage_run v ops hi, hstorage]

/-- A vector over four cells with two elements, and a run that drops both of them, pushes
until the vector is full and writes out of bounds. -/
theorem refines_bounded_list_four :
    Starts [1, 2, 3, 4] 2 ⟨[1, 2, 3, 4], 2, by decide⟩ ∧
      let r := run ⟨[1, 2, 3, 4], 2, by decide⟩ [.pop, .truncate 0, .push 5, .push 6, .push 7,
        .push 8, .push 9, .write 4 0, .write 0 1]
      r.1 = [.popped (some 2), .ok, .ok, .ok, .ok, .ok, .full, .outOfBounds, .ok] ∧
        r.2.asSlice = [1, 6, 7, 8] ∧ r.2.capacity = 4 := by
  have hstart : Starts [1, 2, 3, 4] 2 ⟨[1, 2, 3, 4], 2, by decide⟩ := Or.inr rfl
  obtain ⟨hn, -, hcap, hresults, hslice, -⟩ := refines_bounded_list hstart [.pop, .truncate 0,
    .push 5, .push 6, .push 7, .push 8, .push 9, .write 4 0, .write 0 1]
  refine ⟨hstart, hresults.trans ?_, hslice.trans ?_, hcap⟩
  · simp [runOps, BoundedList.step]
  · simp [runOps, BoundedList.step]

end StackVec

end OsLabs
