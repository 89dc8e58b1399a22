import Mathlib.Data.List.Nodup
import Mathlib.Logic.Function.Basic

/-!
# Circular Doubly Linked Lists

A small library for lists that are linked in both directions through a head node which holds
no element, the way C code writes them: a node is an element or, as `none`, the head, and
`next` and `prev` are the pointers of the nodes. `Links.Rings order` says that they link the
elements of `order`.

## Main results

* `Links.Rings.insertFront`, `Links.Rings.unlink`: the four assignments that insert a node
  after the head, and the two that take one out, do that.
* `Links.Rings.scan_next`, `Links.Rings.scan_prev`: a loop along `next` or `prev` finds the
  first element of its kind from the front or from the back.
-/

namespace OsLabs

variable {α : Type} {f : Option α → Option α} {a : Option α} {l r : List α} {x : α}

/-! ### Paths -/

/-- From the node `a`, the pointers `f` lead through `l` and then to the head. -/
def Leads (f : Option α → Option α) : Option α → List α → Prop
  | a, [] => f a = none
  | a, x :: l => f a = some x ∧ Leads f (some x) l

/-- The first node of a walk is the successor of where it starts. -/
theorem Leads.head? (h : Leads f a l) : f a = l.head? := by
  cases l with
  | nil => exact h
  | cons x l => exact h.1

/-- A walk depends only on the links of the nodes that it visits. -/
theorem Leads.congr {f' : Option α → Option α} {a' : Option α} (h : Leads f a l)
    (ha : f' a' = f a) (hf : ∀ y ∈ l, f' (some y) = f (some y)) : Leads f' a' l := by
  induction l generalizing a a' with
  | nil => exact ha.trans h
  | cons x l ih =>
    exact ⟨ha.trans h.1, ih h.2 (hf x List.mem_cons_self)
      fun y hy => hf y (List.mem_cons_of_mem x hy)⟩

/-- What follows a node of a path is the path from that node. -/
theorem Leads.suffix (h : Leads f a (l ++ x :: r)) : Leads f (some x) r := by
  induction l generalizing a with
  | nil => exact h.2
  | cons y l ih => exact ih h.2

/-- The last node before the rest of a path. -/
def lastNode (a : Option α) (l : List α) : Option α := l.getLast?.or a

/-- A walk without nodes ends where it starts. -/
@[simp] theorem lastNode_nil : lastNode a ([] : List α) = a := rfl

/-- The first node of a walk is where the rest of it starts. -/
theorem lastNode_cons (y : α) : lastNode a (y :: l) = lastNode (some y) l := by
  cases hl : l.getLast? with
  | none => simp [lastNode, List.getLast?_eq_none_iff.1 hl]
  | some z => simp [lastNode, List.getLast?_cons, hl]

/-- A walk ends at one of its nodes, or where it started. -/
theorem lastNode_mem (a : Option α) (l : List α) : lastNode a l ∈ a :: l.map some := by
  induction l generalizing a with
  | nil => simp
  | cons y l ih =>
    rw [lastNode_cons]
    exact List.mem_cons_of_mem a (ih (some y))

/-- The other way round a walk ends at its first node. -/
theorem lastNode_reverse (l : List α) : lastNode none l.reverse = l.head? := by
  simp [lastNode]

/-- The last node of a walk is the first one of the walk back. -/
theorem lastNode_eq_head? (l : List α) : lastNode none l = l.reverse.head? := by
  rw [← lastNode_reverse, List.reverse_reverse]

/-- Nodes of which no two are the same, the head among them. -/
theorem nodup_nodes (h : l.Nodup) : (none :: l.map some).Nodup :=
  List.nodup_cons.2 ⟨by simp, h.map fun _ _ => Option.some.inj⟩

section

variable [DecidableEq α]

/-- A node is taken out of a path. -/
theorem Leads.cut (h : Leads f a (l ++ x :: r)) (hnodup : (a :: (l ++ x :: r).map some).Nodup) :
    Leads (Function.update f (lastNode a l) (f (some x))) a (l ++ r) := by
  induction l generalizing a with
  | nil =>
    refine h.2.congr (Function.update_self ..) fun y hy => Function.update_of_ne ?_ _ _
    rintro rfl
    simp [hy] at hnodup
  | cons y l ih =>
    obtain ⟨hya, hnodup'⟩ := List.nodup_cons.1 hnodup
    have hne : a ≠ lastNode (some y) l := by
      intro heq
      have hmem := lastNode_mem (some y) l
      rw [← heq] at hmem
      refine hya ?_
      simp only [List.map_append, List.map_cons, List.cons_append, List.mem_cons,
        List.mem_append] at hmem ⊢
      tauto
    rw [lastNode_cons]
    exact ⟨by rw [Function.update_of_ne hne]; exact h.1, ih h.2 hnodup'⟩

/-- A node is added at the end of a path. -/
theorem Leads.snoc (h : Leads f a l) (hnodup : (a :: l.map some).Nodup)
    (hx : some x ∉ a :: l.map some) :
    Leads (Function.update (Function.update f (some x) none) (lastNode a l) (some x)) a
      (l ++ [x]) := by
  induction l generalizing a with
  | nil =>
    have hne : some x ≠ a := by simpa using hx
    exact ⟨Function.update_self .., by
      rw [lastNode_nil, Leads, Function.update_of_ne hne, Function.update_self]⟩
  | cons y l ih =>
    obtain ⟨hya, hnodup'⟩ := List.nodup_cons.1 hnodup
    have hne : a ≠ lastNode (some y) l := fun heq => hya (heq ▸ lastNode_mem (some y) l)
    have hax : a ≠ some x := fun heq => hx (heq ▸ List.mem_cons_self)
    rw [lastNode_cons]
    refine ⟨?_, ih h.2 hnodup' fun hmem => hx (List.mem_cons_of_mem a hmem)⟩
    rw [Function.update_of_ne hne, Function.update_of_ne hax]
    exact h.1

end

/-- The loop `for (b = a; b != &head; b = f b)` that looks for an element with `p`. -/
def scan (f : Option α → Option α) (p : α → Bool) : ℕ → Option α → Option α
  | 0, _ => none
  | _ + 1, none => none
  | fuel + 1, some b => if p b then some b else scan f p fuel (f (some b))

/-- **The loop finds the first element of its kind on the path.** -/
theorem Leads.scan (h : Leads f a l) (p : α → Bool) {fuel : ℕ} (hfuel : l.length < fuel) :
    scan f p fuel (f a) = l.find? p := by
  induction l generalizing a fuel with
  | nil =>
    obtain ⟨fuel, rfl⟩ : ∃ k, fuel = k + 1 := ⟨fuel - 1, by omega⟩
    rw [show f a = none from h]
    rfl
  | cons x l ih =>
    obtain ⟨fuel, rfl⟩ : ∃ k, fuel = k + 1 := ⟨fuel - 1, by omega⟩
    rw [h.1, OsLabs.scan, List.find?_cons]
    cases hp : p x with
    | true => rfl
    | false => exact ih h.2 (by simpa using hfuel)

/-! ### What a loop finds after a change -/

/-- Elements that are no longer of the kind do not hide the first one. -/
theorem find?_mono {p q : α → Bool} (h : l.find? p = some x) (hqp : ∀ y, q y = true → p y = true)
    (hq : q x = true) : l.find? q = some x := by
  obtain ⟨-, l₁, l₂, rfl, hl₁⟩ := List.find?_eq_some_iff_append.1 h
  refine List.find?_eq_some_iff_append.2 ⟨hq, l₁, l₂, rfl, fun y hy => ?_⟩
  have hpy := hl₁ y hy
  cases hqy : q y with
  | false => rfl
  | true => rw [hqp y hqy] at hpy; exact hpy

/-- A search for the only element of its kind finds it wherever it is. -/
theorem find?_eq_of_only {p : α → Bool} (hx : x ∈ l) (hp : ∀ y, p y = true ↔ y = x) :
    l.find? p = some x := by
  cases hfind : l.find? p with
  | none => exact absurd ((hp x).2 rfl) (List.find?_eq_none.1 hfind x hx)
  | some y => rw [(hp y).1 (List.find?_some hfind)]

/-- A node that is not looked for is not missed. -/
theorem find?_erase_of_neg [DecidableEq α] {p : α → Bool} (hx : p x = false) :
    (l.erase x).find? p = l.find? p := by
  induction l with
  | nil => rfl
  | cons y l ih =>
    by_cases hy : y = x
    · rw [hy, List.erase_cons_head, List.find?_cons_of_neg (by simp [hx])]
    · rw [List.erase_cons_tail (by simpa using hy), List.find?_cons, List.find?_cons, ih]

/-! ### Both directions -/

/-- The pointers of the nodes and of the head, for which `none` stands. -/
structure Links (α : Type) where
  next : Option α → Option α
  prev : Option α → Option α

namespace Links

/-- **The elements are linked in this order**, from the head forwards along `next` and backwards
along `prev`. -/
structure Rings (L : Links α) (order : List α) : Prop where
  nodup : order.Nodup
  next : Leads L.next none order
  prev : Leads L.prev none order.reverse

variable {L : Links α} {order : List α}

/-- A head without nodes is the ring of the empty list. -/
theorem rings_nil : Rings (⟨fun _ => none, fun _ => none⟩ : Links α) [] :=
  ⟨List.nodup_nil, rfl, rfl⟩

/-- The successor of a node in the ring is the next one in the order. -/
theorem Rings.next_some (h : L.Rings (l ++ x :: r)) : L.next (some x) = r.head? :=
  h.next.suffix.head?

/-- Its predecessor is the one before it. -/
theorem Rings.prev_some (h : L.Rings (l ++ x :: r)) : L.prev (some x) = l.reverse.head? := by
  have hprev := h.prev
  rw [List.reverse_append, List.reverse_cons, List.append_assoc] at hprev
  exact hprev.suffix.head?

/-- The loop from the head over `next` finds the first node in the order. -/
theorem Rings.scan_next (h : L.Rings order) (p : α → Bool) {fuel : ℕ}
    (hfuel : order.length < fuel) : scan L.next p fuel (L.next none) = order.find? p :=
  h.next.scan p hfuel

/-- The loop from the head over `prev` finds the last one. -/
theorem Rings.scan_prev (h : L.Rings order) (p : α → Bool) {fuel : ℕ}
    (hfuel : order.length < fuel) :
    scan L.prev p fuel (L.prev none) = order.reverse.find? p :=
  h.prev.scan p (by simpa using hfuel)

variable [DecidableEq α]

/-- `b->next->prev = b->prev; b->prev->next = b->next`. -/
def unlink (L : Links α) (b : α) : Links α :=
  let L := { L with prev := Function.update L.prev (L.next (some b)) (L.prev (some b)) }
  { L with next := Function.update L.next (L.prev (some b)) (L.next (some b)) }

/-- `b->next = head.next; b->prev = &head; head.next->prev = b; head.next = b`. -/
def insertFront (L : Links α) (b : α) : Links α :=
  let L := { L with next := Function.update L.next (some b) (L.next none) }
  let L := { L with prev := Function.update L.prev (some b) none }
  let L := { L with prev := Function.update L.prev (L.next none) (some b) }
  { L with next := Function.update L.next none (some b) }

/-- **Unlinking takes the element out** and joins its neighbours, so that the rest of the ring
keeps its order. -/
theorem Rings.unlink (h : L.Rings (l ++ x :: r)) : (L.unlink x).Rings (l ++ r) := by
  have hnext := h.next_some
  have hprev := h.prev_some
  have hself : L.next (some x) ≠ some x := by
    rw [hnext]
    intro heq
    have hnodup := (List.nodup_append.1 h.nodup).2.1
    exact (List.nodup_cons.1 hnodup).1 (List.mem_of_mem_head? heq)
  refine ⟨h.nodup.sublist ((List.sublist_cons_self x r).append_left l), ?_, ?_⟩
  · have hcut := h.next.cut (nodup_nodes h.nodup)
    rw [lastNode_eq_head?, ← hprev] at hcut
    change Leads (Function.update L.next (Function.update L.prev _ _ (some x)) _) _ _
    rwa [Function.update_of_ne hself.symm]
  · have hrev := h.prev
    have hnodup := nodup_nodes (List.nodup_reverse.2 h.nodup)
    rw [List.reverse_append, List.reverse_cons, List.append_assoc, List.singleton_append]
      at hrev hnodup
    have hcut := hrev.cut hnodup
    rw [lastNode_reverse, ← hnext] at hcut
    rw [List.reverse_append]
    exact hcut

/-- **Inserting puts the element at the front.** -/
theorem Rings.insertFront (h : L.Rings order) (hx : x ∉ order) :
    (L.insertFront x).Rings (x :: order) := by
  have hnone : (none : Option α) ≠ some x := by simp
  refine ⟨List.nodup_cons.2 ⟨hx, h.nodup⟩, ?_, ?_⟩
  · have hnext : (L.insertFront x).next =
        Function.update (Function.update L.next (some x) (L.next none)) none (some x) := rfl
    refine ⟨?_, h.next.congr ?_ fun y hy => ?_⟩
    · rw [hnext, Function.update_self]
    · rw [hnext, Function.update_of_ne hnone.symm, Function.update_self]
    · have hyx : some y ≠ some x := fun heq => hx (Option.some.inj heq ▸ hy)
      rw [hnext, Function.update_of_ne (by simp), Function.update_of_ne hyx]
  · have hsnoc := h.prev.snoc (x := x) (nodup_nodes (List.nodup_reverse.2 h.nodup))
      (by simpa using hx)
    rw [lastNode_reverse, ← h.next.head?] at hsnoc
    rw [List.reverse_cons]
    change Leads (Function.update (Function.update L.prev (some x) none)
      (Function.update L.next (some x) (L.next none) none) (some x)) _ _
    rwa [Function.update_of_ne hnone]

/-- The elements that are inserted one after the other. -/
theorem Rings.foldl_insertFront (h : L.Rings order) (hl : l.Nodup) (hd : ∀ y ∈ l, y ∉ order) :
    (l.foldl Links.insertFront L).Rings (l.reverse ++ order) := by
  induction l generalizing L order with
  | nil => exact h
  | cons x l ih =>
    obtain ⟨hx, hl⟩ := List.nodup_cons.1 hl
    rw [List.foldl_cons, List.reverse_cons, List.append_assoc, List.singleton_append]
    refine ih (h.insertFront (hd x List.mem_cons_self)) hl fun y hy => ?_
    rw [List.mem_cons, not_or]
    exact ⟨fun hyx => hx (hyx ▸ hy), hd y (List.mem_cons_of_mem x hy)⟩

/-- **Moving an element to the front** takes it out and inserts it there. -/
theorem Rings.moveFront (h : L.Rings order) (hx : x ∈ order) :
    ((L.unlink x).insertFront x).Rings (x :: order.erase x) := by
  obtain ⟨l, r, rfl⟩ := List.append_of_mem hx
  have hnodup := h.nodup
  have hl : x ∉ l := fun hmem =>
    (List.nodup_append.1 hnodup).2.2 x hmem x List.mem_cons_self rfl
  have hr : x ∉ r := (List.nodup_cons.1 (List.nodup_append.1 hnodup).2.1).1
  rw [List.erase_append_right _ hl, List.erase_cons_head]
  exact h.unlink.insertFront (by simp [hl, hr])

end Links

end OsLabs
