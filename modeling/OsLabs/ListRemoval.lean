import OsLabs.LinkedList
import Mathlib.Data.List.Chain

/-!
# Removing Nodes While Iterating

The items of `iter_mut` can be taken out of the list while the loop over them goes on:
`for node in list.iter_mut() { if P(node.value()) { node.pop(); } }`. Each item carries
the link that led to it when the iterator passed the node *before* it. If that node was
taken out as well, the link belongs to no list any more, and writing through it does not
take the item out: of two neighbours that both satisfy `P` the second one stays.

## Main results

* `removeLoop_from`: the loop from the middle of a list, with the links it leaves behind.
* `Chain.removeLoop_spec`: the loop visits every element and leaves the `survivors`.
* `survivors_eq_filter_iff`: these are the right ones exactly when no two neighbours
  satisfy the predicate.
* `removed_iff`: the loop removes what it should exactly then.
* `neighbour_stays`: a list of two elements that is not emptied.
-/

namespace OsLabs

/-- The body `if P(node.value()) { node.pop(); }`. -/
def removeStep (P : ℕ → Bool) (node : Node) (l : LinkedList) (m : Memory) :
    LinkedList × Memory :=
  if P node.value then node.pop l m else (l, m)

/-- The loop `for node in list.iter_mut() { if P(node.value()) { node.pop(); } }`: the
addresses it visits, and the list and the memory after it. `none` is a loop that runs
out of `fuel`. -/
def removeLoop (P : ℕ → Bool) :
    ℕ → IterMut → LinkedList → Memory → Option (List ℕ × LinkedList × Memory)
  | 0, _, _, _ => none
  | fuel + 1, it, l, m =>
    match it.next m with
    | none => some ([], l, m)
    | some (node, it) => do
      let (l, m) := removeStep P node l m
      let (visited, l, m) ← removeLoop P fuel it l m
      some (node.value :: visited, l, m)

/-- **The property**, of what the loop over a list with contents `l` returns: every
element is visited once and in order, and exactly the elements that satisfy `P` are gone. -/
structure Removed (P : ℕ → Bool) (l : List ℕ) (r : List ℕ × LinkedList × Memory) :
    Prop where
  visited : r.1 = l
  chain : Chain r.2.2 r.2.1.head (l.filter fun a => !P a)

/-- What the loop leaves of a list: an element whose predecessor was taken out stays. -/
def survivors (P : ℕ → Bool) : List ℕ → List ℕ
  | [] => []
  | [a] => if P a then [] else [a]
  | a :: b :: l => if P a then b :: survivors P l else a :: survivors P (b :: l)

/-- Where a link leads. -/
def Link.target (k : Link) (l : LinkedList) (m : Memory) : ℕ :=
  match k with
  | .head => l.head
  | .word a => m a

/-! ### The loop -/

/-- A chain determines its list: from one head the memory leads along one path. -/
theorem Chain.unique {m : Memory} {h : ℕ} {l l' : List ℕ} (hl : Chain m h l)
    (hl' : Chain m h l') : l = l' := by
  induction hl generalizing l' with
  | nil =>
      cases hl' with
      | nil => rfl
      | cons h0 _ => exact absurd rfl h0
  | @cons a l h0 _ ih =>
      cases hl' with
      | nil => exact absurd rfl h0
      | cons _ hrest => rw [ih hrest]

/-- Popping a node redirects the link that leads to it. -/
theorem Node.pop_target (n : Node) (l : LinkedList) (m : Memory) :
    n.prev.target (n.pop l m).1 (n.pop l m).2 = m n.value := by
  obtain ⟨prev, value⟩ := n
  cases prev with
  | head => rfl
  | word a => exact Memory.write_same m a (m value)

/-- Popping a node changes no other link. -/
theorem Node.pop_frame (n : Node) (l : LinkedList) (m : Memory) {k : Link}
    (hk : k ≠ n.prev) : k.target (n.pop l m).1 (n.pop l m).2 = k.target l m := by
  obtain ⟨prev, value⟩ := n
  cases k with
  | head =>
      cases prev with
      | head => exact absurd rfl hk
      | word a => rfl
  | word b =>
      cases prev with
      | head => rfl
      | word a =>
          refine Memory.write_of_ne _ ?_
          rintro rfl
          exact hk rfl

/-- The loop body changes no link but the one that leads to the node. -/
theorem removeStep_frame (P : ℕ → Bool) (n : Node) (l : LinkedList) (m : Memory) {k : Link}
    (hk : k ≠ n.prev) : k.target (removeStep P n l m).1 (removeStep P n l m).2 =
      k.target l m := by
  rw [removeStep]
  split
  · exact n.pop_frame l m hk
  · rfl

/-- One turn of the loop at a node `a`. -/
theorem removeLoop_succ {P : ℕ → Bool} {it : IterMut} {L : LinkedList} {m : Memory} {a : ℕ}
    {rest : List ℕ} (hcur : Chain m it.current (a :: rest)) (fuel : ℕ) :
    removeLoop P (fuel + 1) it L m =
      (removeLoop P fuel ⟨.word a, m a⟩ (removeStep P ⟨it.prev, a⟩ L m).1
        (removeStep P ⟨it.prev, a⟩ L m).2).map fun r => (a :: r.1, r.2) := by
  have hnext : it.next m = some (⟨it.prev, a⟩, ⟨.word a, m a⟩) := by
    rw [IterMut.next, Chain.pop_cons (L := ⟨it.current⟩) hcur, (Chain.cons_iff.mp hcur).1]
    rfl
  rw [removeLoop, hnext]
  simp only
  cases removeLoop P fuel ⟨.word a, m a⟩ (removeStep P ⟨it.prev, a⟩ L m).1
    (removeStep P ⟨it.prev, a⟩ L m).2 with
  | none => rfl
  | some r => rfl

/-- After a node that is removed the next one survives, whatever the predicate says of it. -/
theorem survivors_cons_of_pos {P : ℕ → Bool} {a b : ℕ} (l : List ℕ) (h : P a = true) :
    survivors P (a :: b :: l) = b :: survivors P l := by
  rw [survivors, if_pos h]

/-- A node that is not removed survives. -/
theorem survivors_cons_of_neg {P : ℕ → Bool} {a : ℕ} (l : List ℕ) (h : P a = false) :
    survivors P (a :: l) = a :: survivors P l := by
  cases l with
  | nil => simp [survivors, h]
  | cons b l => simp [survivors, h]

/-- Where the link behind a node leads after the body: past the node if it was taken out. -/
theorem removeStep_target (P : ℕ → Bool) (n : Node) (l : LinkedList) (m : Memory)
    (h : n.prev.target l m = n.value) :
    n.prev.target (removeStep P n l m).1 (removeStep P n l m).2 =
      if P n.value then m n.value else n.value := by
  rw [removeStep]
  split
  · exact n.pop_target l m
  · exact h

/-- The survivors from a node `a` on, where `m` is the memory before the loop and `m'` that
after it: if `a` was taken out, its successor stays and is followed by the survivors of the
nodes after it. -/
theorem Chain.survivors_cons {P : ℕ → Bool} {m m' : Memory} {a : ℕ} {rest : List ℕ}
    (ha0 : a ≠ 0) (hrest : Chain m (m a) rest) (hchain : Chain m' (m' a) (survivors P rest))
    (hnext : ∀ b l, rest = b :: l → Chain m' (m' b) (survivors P l)) :
    Chain m' (if P a then m a else a) (survivors P (a :: rest)) := by
  cases hPa : P a with
  | false =>
      rw [survivors_cons_of_neg rest hPa]
      exact Chain.cons ha0 hchain
  | true =>
      cases rest with
      | nil =>
          simp only [survivors, hPa, if_true, Chain.nil_iff.mp hrest]
          exact Chain.nil
      | cons b rest =>
          obtain ⟨hb, hb0, -⟩ := Chain.cons_iff.mp hrest
          rw [survivors_cons_of_pos rest hPa, if_pos rfl, hb]
          exact Chain.cons hb0 (hnext b rest rfl)

/-- **The loop from the middle of the list**, with `suf` still ahead: it visits `suf`, the
link it came by leads to the survivors of `suf`, the first word of the first node ahead
to the survivors of the nodes after it, and no link outside has changed. Induction on
`suf`; the second fact is what a removed node's successor, which stays, is followed by. -/
theorem removeLoop_from (P : ℕ → Bool) :
    ∀ (suf : List ℕ) (it : IterMut) (L : LinkedList) (m : Memory),
      Chain m it.current suf → suf.Nodup → (∀ a ∈ suf, it.prev ≠ .word a) →
      it.prev.target L m = it.current →
      ∃ L' m', (∀ fuel > suf.length, removeLoop P fuel it L m = some (suf, L', m')) ∧
        Chain m' (it.prev.target L' m') (survivors P suf) ∧
        (∀ a rest, suf = a :: rest → Chain m' (m' a) (survivors P rest)) ∧
        ∀ k : Link, k ≠ it.prev → (∀ a ∈ suf, k ≠ .word a) →
          k.target L' m' = k.target L m := by
  intro suf
  induction suf with
  | nil =>
      intro it L m hcur _ _ htarget
      refine ⟨L, m, fun fuel hfuel => ?_, ?_, by simp, fun _ _ _ => rfl⟩
      · obtain ⟨fuel, rfl⟩ : ∃ f, fuel = f + 1 := ⟨fuel - 1, by omega⟩
        have hnext : it.next m = none := by
          rw [IterMut.next, Chain.pop_nil (L := ⟨it.current⟩) hcur]
          rfl
        rw [removeLoop, hnext]
      · rw [htarget]
        exact hcur
  | cons a rest ih =>
      intro it L m hcur hn hprev htarget
      obtain ⟨hit, ha0, hrest⟩ := Chain.cons_iff.mp hcur
      obtain ⟨hna, hnrest⟩ := List.nodup_cons.mp hn
      -- the body writes at most to the link behind the node
      have hstep : ∀ k : Link, k ≠ it.prev →
          k.target (removeStep P ⟨it.prev, a⟩ L m).1 (removeStep P ⟨it.prev, a⟩ L m).2 =
            k.target L m := fun k hk => removeStep_frame P ⟨it.prev, a⟩ L m hk
      have hback : it.prev.target (removeStep P ⟨it.prev, a⟩ L m).1
          (removeStep P ⟨it.prev, a⟩ L m).2 = if P a then m a else a :=
        removeStep_target P ⟨it.prev, a⟩ L m (htarget.trans hit)
      generalize hr : removeStep P ⟨it.prev, a⟩ L m = r at hstep hback
      obtain ⟨L₁, m₁⟩ := r
      have hword : ∀ b ∈ a :: rest, m₁ b = m b := fun b hb =>
        hstep (.word b) fun heq => hprev b hb heq.symm
      obtain ⟨L', m', hloop, hchain, hnextchain, hframe⟩ := ih ⟨.word a, m a⟩ L₁ m₁
        (chain_congr hrest fun b hb => hword b (List.mem_cons_of_mem a hb)) hnrest
        (fun b hb heq => hna (Link.word.inj heq ▸ hb)) (hword a List.mem_cons_self)
      have hprev' : it.prev.target L' m' = if P a then m a else a :=
        (hframe it.prev (hprev a List.mem_cons_self)
          fun b hb => hprev b (List.mem_cons_of_mem a hb)).trans hback
      refine ⟨L', m', fun fuel hfuel => ?_, ?_, ?_, fun k hk hout => ?_⟩
      · obtain ⟨fuel, rfl⟩ : ∃ f, fuel = f + 1 := ⟨fuel - 1, by omega⟩
        rw [removeLoop_succ hcur, hr, hloop fuel (by simpa using hfuel)]
        rfl
      · rw [hprev']
        exact Chain.survivors_cons ha0 hrest hchain hnextchain
      · intro a' rest' heq
        obtain ⟨rfl, rfl⟩ := List.cons.inj heq
        exact hchain
      · rw [hframe k (hout a List.mem_cons_self)
          fun b hb => hout b (List.mem_cons_of_mem a hb)]
        exact hstep k hk

/-- **The whole loop** visits every element in order and leaves the survivors. -/
theorem Chain.removeLoop_spec {m : Memory} {L : LinkedList} {l : List ℕ}
    (hl : Chain m L.head l) (hn : l.Nodup) (P : ℕ → Bool) :
    ∃ L' m', (∀ fuel > l.length, removeLoop P fuel L.iterMut L m = some (l, L', m')) ∧
      Chain m' L'.head (survivors P l) := by
  obtain ⟨L', m', hloop, hchain, -, -⟩ :=
    removeLoop_from P l L.iterMut L m hl hn (by simp [LinkedList.iterMut]) rfl
  exact ⟨L', m', hloop, hchain⟩

/-! ### The survivors -/

/-- **The survivors are the right ones** exactly when no two neighbours satisfy the
predicate. -/
theorem survivors_eq_filter_iff (P : ℕ → Bool) (l : List ℕ) :
    survivors P l = l.filter (fun a => !P a) ↔
      l.IsChain fun a b => ¬ (P a = true ∧ P b = true) := by
  fun_induction survivors P l with
  | case1 => simp
  | case2 a h => simp [h]
  | case3 a h => simp [h]
  | case4 a b l ha ih =>
      rw [List.isChain_cons_cons]
      cases hb : P b with
      | true =>
          -- `b` is left and should not be
          refine iff_of_false (fun heq => ?_) (fun hno => hno.1 ⟨ha, rfl⟩)
          have hmem : b ∈ (a :: b :: l).filter fun a => !P a := heq ▸ List.mem_cons_self
          rw [List.mem_filter, hb] at hmem
          exact absurd hmem.2 (by simp)
      | false =>
          have htail : (b :: l).IsChain (fun a b => ¬ (P a = true ∧ P b = true)) ↔
              l.IsChain fun a b => ¬ (P a = true ∧ P b = true) := by
            rw [List.isChain_cons]
            simp [hb]
          rw [htail, ← ih]
          simp [ha, hb]
  | case5 a b l ha ih =>
      rw [List.isChain_cons_cons, ← ih]
      simp [ha]

/-- **When the loop removes what it should.** For every list of distinct addresses in
memory and every predicate the loop ends, and it visits every element once in order and
leaves exactly those that do not satisfy the predicate if and only if no two neighbours
in the list both satisfy it. -/
theorem removed_iff {m : Memory} {L : LinkedList} {l : List ℕ} (hl : Chain m L.head l)
    (hn : l.Nodup) (P : ℕ → Bool) :
    ∃ r, (∀ fuel > l.length, removeLoop P fuel L.iterMut L m = some r) ∧ r.1 = l ∧
      (Removed P l r ↔ l.IsChain fun a b => ¬ (P a = true ∧ P b = true)) := by
  obtain ⟨L', m', hloop, hchain⟩ := hl.removeLoop_spec hn P
  refine ⟨(l, L', m'), hloop, rfl, ?_⟩
  rw [← survivors_eq_filter_iff]
  constructor
  · intro h
    exact hchain.unique h.chain
  · intro h
    exact ⟨rfl, h ▸ hchain⟩

/-- A list of the addresses 24, 16 and 8. -/
def threeWords : Memory := ((Memory.write (fun _ => 0) 8 0).write 16 8).write 24 16

/-- The list of three nodes in its memory. -/
theorem chain_threeWords : Chain threeWords 24 [24, 16, 8] :=
  Chain.cons (by decide) (Chain.cons (by decide) (Chain.cons (by decide) Chain.nil))

/-- Of three nodes the middle one is removed. -/
theorem removed_middle :
    Chain threeWords 24 [24, 16, 8] ∧
      ∃ r, (∀ fuel > 3, removeLoop (· == 16) fuel ⟨.head, 24⟩ ⟨24⟩ threeWords = some r) ∧
        Removed (· == 16) [24, 16, 8] r := by
  refine ⟨chain_threeWords, ?_⟩
  obtain ⟨r, hloop, -, hiff⟩ :=
    removed_iff (L := ⟨24⟩) chain_threeWords (by simp) (· == 16)
  exact ⟨r, hloop, hiff.mpr (by simp)⟩

/-- **The defect**: from a list of two elements, 16 and 8, the loop should remove both.
It visits both, and 8 is still on the list. -/
theorem neighbour_stays :
    Chain threeWords 16 [16, 8] ∧
      ∃ r, (∀ fuel > 2, removeLoop (fun _ => true) fuel ⟨.head, 16⟩ ⟨16⟩ threeWords =
          some r) ∧
        Chain r.2.2 r.2.1.head [8] ∧ ¬ Removed (fun _ => true) [16, 8] r := by
  have hl : Chain threeWords 16 [16, 8] :=
    Chain.cons (by decide) (Chain.cons (by decide) Chain.nil)
  obtain ⟨L', m', hloop, hchain⟩ :=
    Chain.removeLoop_spec (L := ⟨16⟩) hl (by simp) fun _ => true
  refine ⟨hl, (_, L', m'), hloop, hchain, fun h => ?_⟩
  exact absurd (hchain.unique h.chain) (by decide)

end OsLabs
