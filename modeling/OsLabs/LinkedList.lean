import Mathlib.Data.List.Basic
import Mathlib.Data.List.Nodup
import Mathlib.Logic.Function.Basic

/-!
# The Intrusive Linked List

`kern/src/allocator/linked_list.rs` keeps a list of addresses by storing each link in
the first word of the memory the address refers to. Memory is modelled as 8-byte words
(`Memory`), a list as its head pointer (`LinkedList`, null is `0`), and every operation
threads the memory it reads and writes.

The iterator of `iter_mut` carries a raw pointer to the link that leads to the current
node: the head field for the first node, the first word of the previous node after it.
`Link` is that pointer, and `Node.pop` writes through it.

The bridge to lists of addresses is `Chain m h l`: following links through `m` from `h`
visits exactly `l` and ends in null.

## Main results

* `Chain.write`: a write outside the nodes of a list leaves the list as it is.
* `Chain.push`, `Chain.pop`, `Chain.peek`: the operations act as on lists.
* `Chain.unlinkLoop_spec`: the search loop over `iter_mut` removes the first node with
  the wanted address, or reports that there is none, and touches only nodes of the list.
-/

namespace OsLabs

/-- Memory as 8-byte words: the word stored at each (word-aligned) address. -/
abbrev Memory := ℕ → ℕ

/-- Store the word `v` at address `a`. -/
def Memory.write (m : Memory) (a v : ℕ) : Memory := Function.update m a v

/-- A write is seen at its address. -/
@[simp] theorem Memory.write_same (m : Memory) (a v : ℕ) : m.write a v a = v := by
  simp [Memory.write]

/-- All other words are as they were. -/
theorem Memory.write_of_ne {m : Memory} {a b : ℕ} (v : ℕ) (h : b ≠ a) :
    m.write a v b = m b := by
  simp [Memory.write, h]

/-- `LinkedList`: the head pointer, null when the list is empty. -/
structure LinkedList where
  head : ℕ
deriving DecidableEq, Repr

namespace LinkedList

/-- `LinkedList::new`. -/
def new : LinkedList := ⟨0⟩

/-- `LinkedList::is_empty`. -/
def isEmpty (l : LinkedList) : Bool := l.head == 0

/-- `LinkedList::push`: the old head is stored in the first word of `item`. -/
def push (l : LinkedList) (item : ℕ) (m : Memory) : LinkedList × Memory :=
  (⟨item⟩, m.write item l.head)

/-- `LinkedList::peek`. -/
def peek (l : LinkedList) : Option ℕ :=
  if l.isEmpty then none else some l.head

/-- `LinkedList::pop`: the new head is read from the first word of the old one. -/
def pop (l : LinkedList) (m : Memory) : Option (ℕ × LinkedList) := do
  let value ← l.peek
  some (value, ⟨m value⟩)

/-- The addresses `LinkedList::iter` yields, for at most `fuel` of them: each turn pops
the front of the rest of the list. -/
def iter (m : Memory) : ℕ → LinkedList → List ℕ
  | 0, _ => []
  | fuel + 1, l =>
    match l.pop m with
    | none => []
    | some (value, rest) => value :: iter m fuel rest

end LinkedList

/-- A `*mut usize` that points at a link: the head field of the list being iterated, or
the first word of a node. -/
inductive Link where
  | head
  | word (a : ℕ)
deriving DecidableEq, Repr

/-- `Node`: an item handed out by `iter_mut`, with the link that leads to it. -/
structure Node where
  prev : Link
  value : ℕ
deriving DecidableEq, Repr

/-- `Node::pop`: `*prev = *value`. -/
def Node.pop (n : Node) (l : LinkedList) (m : Memory) : LinkedList × Memory :=
  match n.prev with
  | .head => (⟨m n.value⟩, m)
  | .word a => (l, m.write a (m n.value))

/-- `IterMut`: the link to follow next and the node it leads to. -/
structure IterMut where
  prev : Link
  current : ℕ
deriving DecidableEq, Repr

/-- `LinkedList::iter_mut`. -/
def LinkedList.iterMut (l : LinkedList) : IterMut := ⟨.head, l.head⟩

/-- `IterMut::next`. -/
def IterMut.next (it : IterMut) (m : Memory) : Option (Node × IterMut) := do
  let (value, list) ← LinkedList.pop ⟨it.current⟩ m
  some (⟨it.prev, value⟩, ⟨.word it.current, list.head⟩)

/-- The search loop of `dealloc` over `iter_mut`: the first node whose address is
`target` is popped and the loop is left. `none` is a loop that runs out of `fuel`. -/
def unlinkLoop (target : ℕ) (l : LinkedList) (m : Memory) :
    ℕ → IterMut → Option (Bool × LinkedList × Memory)
  | 0, _ => none
  | fuel + 1, it =>
    match it.next m with
    | none => some (false, l, m)
    | some (node, it') =>
      if node.value = target then
        some (true, node.pop l m)
      else
        unlinkLoop target l m fuel it'

/-! ### Chains -/

/-- **Chains through memory**: following links through `m` from `h` visits exactly the
addresses of `l`, in order, and ends in null. -/
inductive Chain (m : Memory) : ℕ → List ℕ → Prop
  | nil : Chain m 0 []
  | cons {a : ℕ} {l : List ℕ} : a ≠ 0 → Chain m (m a) l → Chain m a (a :: l)

/-- The empty list is the one whose head is null. -/
theorem Chain.nil_iff {m : Memory} {h : ℕ} : Chain m h [] ↔ h = 0 := by
  constructor
  · rintro ⟨⟩
    rfl
  · rintro rfl
    exact Chain.nil

/-- Inversion of a chain that is not empty: its head is the first address, and the word there
leads to the rest. -/
theorem Chain.cons_iff {m : Memory} {h a : ℕ} {l : List ℕ} :
    Chain m h (a :: l) ↔ h = a ∧ a ≠ 0 ∧ Chain m (m a) l := by
  constructor
  · rintro (_ | ⟨ha, hl⟩)
    exact ⟨rfl, ha, hl⟩
  · rintro ⟨rfl, ha, hl⟩
    exact Chain.cons ha hl

/-- A chain reads only the words of its nodes. -/
theorem chain_congr {m m' : Memory} {h : ℕ} {l : List ℕ} (hl : Chain m h l)
    (heq : ∀ a ∈ l, m' a = m a) : Chain m' h l := by
  induction hl with
  | nil => exact Chain.nil
  | @cons a l ha _ ih =>
      refine Chain.cons ha ?_
      rw [heq a List.mem_cons_self]
      exact ih fun b hb => heq b (List.mem_cons_of_mem _ hb)

/-- **Frame**: a write outside the nodes of a list leaves the list as it is. -/
theorem Chain.write {m : Memory} {h a : ℕ} {l : List ℕ} (hl : Chain m h l) (ha : a ∉ l)
    (v : ℕ) : Chain (m.write a v) h l := by
  refine chain_congr hl fun b hb => Memory.write_of_ne v ?_
  rintro rfl
  exact ha hb

/-- `push` puts the address in front and writes the old head into its word. -/
theorem Chain.push {m : Memory} {L : LinkedList} {l : List ℕ} {a : ℕ}
    (hl : Chain m L.head l) (h0 : a ≠ 0) (ha : a ∉ l) :
    Chain (L.push a m).2 (L.push a m).1.head (a :: l) := by
  refine Chain.cons h0 ?_
  simp only [LinkedList.push, Memory.write_same]
  exact hl.write ha _

/-- `peek` reads the first address of the chain. -/
theorem Chain.peek {m : Memory} {L : LinkedList} {l : List ℕ} (hl : Chain m L.head l) :
    L.peek = l.head? := by
  cases l with
  | nil =>
      have h0 := Chain.nil_iff.mp hl
      simp [LinkedList.peek, LinkedList.isEmpty, h0]
  | cons a l =>
      obtain ⟨rfl, h0, -⟩ := Chain.cons_iff.mp hl
      simp [LinkedList.peek, LinkedList.isEmpty, h0]

/-- `pop` finds nothing in an empty list. -/
theorem Chain.pop_nil {m : Memory} {L : LinkedList} (hl : Chain m L.head []) :
    L.pop m = none := by
  simp [LinkedList.pop, hl.peek]

/-- `pop` takes the first address and leaves the chain of the others. -/
theorem Chain.pop_cons {m : Memory} {L : LinkedList} {a : ℕ} {l : List ℕ}
    (hl : Chain m L.head (a :: l)) : L.pop m = some (a, ⟨m a⟩) := by
  simp [LinkedList.pop, hl.peek]

/-- `iter` yields the addresses of the chain in order, given fuel for each of them. -/
theorem Chain.iter {m : Memory} {L : LinkedList} {l : List ℕ} (hl : Chain m L.head l)
    {fuel : ℕ} (hfuel : l.length < fuel) : L.iter m fuel = l := by
  induction l generalizing L fuel with
  | nil =>
      obtain ⟨fuel, rfl⟩ : ∃ f, fuel = f + 1 := ⟨fuel - 1, by omega⟩
      rw [LinkedList.iter, hl.pop_nil]
  | cons a l ih =>
      obtain ⟨fuel, rfl⟩ : ∃ f, fuel = f + 1 := ⟨fuel - 1, by omega⟩
      rw [LinkedList.iter, hl.pop_cons]
      simp only [List.cons.injEq, true_and]
      exact ih (L := ⟨m a⟩) (Chain.cons_iff.mp hl).2.2 (by simpa using hfuel)

/-- Skipping over the node after `p` takes that node out of the chain. -/
theorem Chain.skip {m : Memory} {h p a : ℕ} {pre rest : List ℕ}
    (hl : Chain m h (pre ++ p :: a :: rest)) (hn : (pre ++ p :: a :: rest).Nodup) :
    Chain (m.write p (m a)) h (pre ++ p :: rest) := by
  induction pre generalizing h with
  | nil =>
      obtain ⟨rfl, hp, ha⟩ := Chain.cons_iff.mp hl
      obtain ⟨-, -, hrest⟩ := Chain.cons_iff.mp ha
      refine Chain.cons hp ?_
      rw [Memory.write_same]
      refine hrest.write ?_ _
      rw [List.nil_append, List.nodup_cons] at hn
      exact fun hmem => hn.1 (List.mem_cons_of_mem _ hmem)
  | cons b pre ih =>
      obtain ⟨rfl, hb, htail⟩ := Chain.cons_iff.mp hl
      rw [List.cons_append, List.nodup_cons] at hn
      refine Chain.cons hb ?_
      have hbp : h ≠ p := by
        rintro rfl
        exact hn.1 (by simp)
      rw [Memory.write_of_ne _ hbp]
      exact ih htail hn.2

/-! ### The search loop -/

/-- What the search loop over a list with contents `l` and nodes in `l` may do: report
whether `target` is there and leave a list without its first occurrence, changing
memory only at nodes of the list. -/
structure Unlinked (target : ℕ) (m : Memory) (l : List ℕ) (L' : LinkedList)
    (m' : Memory) : Prop where
  chain : Chain m' L'.head (l.erase target)
  frame : ∀ a, a ∉ l → m' a = m a

/-- The iterator's position while it walks a list: the nodes of `pre` are behind it and
`prev` is the link out of the last of them. -/
def Link.After (prev : Link) (pre : List ℕ) : Prop :=
  match pre.getLast? with
  | none => prev = .head
  | some p => prev = .word p

/-- **Unlinking the node the iterator has just passed**, through the link behind it. -/
theorem Link.After.pop {m : Memory} {L : LinkedList} {prev : Link} {a : ℕ} {pre suf : List ℕ}
    (hprev : prev.After pre) (hl : Chain m L.head (pre ++ a :: suf))
    (hn : (pre ++ a :: suf).Nodup) :
    Unlinked a m (pre ++ a :: suf) (Node.pop ⟨prev, a⟩ L m).1 (Node.pop ⟨prev, a⟩ L m).2 := by
  have hpre : a ∉ pre := fun ha => List.disjoint_of_nodup_append hn ha List.mem_cons_self
  have herase : (pre ++ a :: suf).erase a = pre ++ suf := by
    rw [List.erase_append_right _ hpre, List.erase_cons_head]
  rcases List.eq_nil_or_concat pre with rfl | ⟨pre', p, rfl⟩
  · obtain rfl : prev = .head := hprev
    refine ⟨?_, fun _ _ => rfl⟩
    rw [herase]
    exact (Chain.cons_iff.mp hl).2.2
  · obtain rfl : prev = .word p := by simpa [Link.After] using hprev
    refine ⟨?_, fun b hb => Memory.write_of_ne _ ?_⟩
    · rw [herase]
      simp only [List.append_assoc, List.cons_append, List.nil_append,
        List.concat_eq_append] at hl hn ⊢
      exact hl.skip hn
    · rintro rfl
      exact hb (by simp)

/-- The loop from the middle of the list: `pre` has been passed without a match and
`suf` is still ahead. Induction on `suf`. -/
theorem unlinkLoop_from {m : Memory} {L : LinkedList} {target : ℕ} :
    ∀ (suf pre : List ℕ) (it : IterMut) (fuel : ℕ),
      Chain m L.head (pre ++ suf) → (pre ++ suf).Nodup → Chain m it.current suf →
      it.prev.After pre → target ∉ pre → suf.length < fuel →
      ∃ L' m', unlinkLoop target L m fuel it = some (decide (target ∈ pre ++ suf), L', m') ∧
        Unlinked target m (pre ++ suf) L' m' := by
  intro suf
  induction suf with
  | nil =>
      intro pre it fuel hl hn hcur hprev hpre hfuel
      obtain ⟨fuel, rfl⟩ : ∃ f, fuel = f + 1 := ⟨fuel - 1, by omega⟩
      have hnext : it.next m = none := by
        rw [IterMut.next, Chain.pop_nil (L := ⟨it.current⟩) hcur]
        rfl
      refine ⟨L, m, ?_, ?_, fun _ _ => rfl⟩
      · rw [unlinkLoop, hnext]
        simp [hpre]
      · rwa [List.append_nil, List.erase_of_not_mem hpre, ← List.append_nil pre]
  | cons a suf ih =>
      intro pre it fuel hl hn hcur hprev hpre hfuel
      obtain ⟨fuel, rfl⟩ : ∃ f, fuel = f + 1 := ⟨fuel - 1, by omega⟩
      obtain ⟨hit, ha0, hsuf⟩ := Chain.cons_iff.mp hcur
      have hnext : it.next m = some (⟨it.prev, a⟩, ⟨.word a, m a⟩) := by
        rw [IterMut.next, Chain.pop_cons (L := ⟨it.current⟩) hcur, hit]
        rfl
      rw [unlinkLoop, hnext]
      by_cases hat : a = target
      · subst hat
        exact ⟨_, _, by simp, hprev.pop hl hn⟩
      · have hassoc : pre ++ a :: suf = (pre ++ [a]) ++ suf := by simp
        have hpre' : target ∉ pre ++ [a] := by
          simp [hpre, Ne.symm hat]
        rw [hassoc] at hl hn
        obtain ⟨L', m', heq, hres⟩ := ih (pre ++ [a]) ⟨.word a, m a⟩ fuel hl hn hsuf
          (by simp [Link.After]) hpre' (by simpa using hfuel)
        refine ⟨L', m', ?_, ?_⟩
        · simp only [hat, if_false]
          rw [heq, hassoc]
        · rwa [hassoc]

/-- **The search loop removes the first node with the wanted address**, or reports that
there is none. -/
theorem Chain.unlinkLoop_spec {m : Memory} {L : LinkedList} {l : List ℕ} {fuel : ℕ}
    (hl : Chain m L.head l) (hn : l.Nodup) (hfuel : l.length < fuel) (target : ℕ) :
    ∃ L' m', unlinkLoop target L m fuel L.iterMut = some (decide (target ∈ l), L', m') ∧
      Unlinked target m l L' m' :=
  unlinkLoop_from l [] L.iterMut fuel hl hn hl rfl (by simp) hfuel

end OsLabs
