import Mathlib.Data.List.Basic
import Mathlib.Logic.Function.Basic

/-!
# Radix Trees in Memory

A small library for trees of tables, such as page tables: a table `P` has an entry `W` for
each index `ι`, and an entry of an inner table points to the table `child w`, if it points to
one. All paths from a root to an entry of a lowest table have one length. `m` is the memory
that holds the tables, of any number of trees.

`Forest level m` says that the tables with a `level` form trees: an entry of level `l + 1`
points to a table of level `l`, to which no other entry points.

## Main results

* `Forest.descend_inj`: different paths lead to different tables.
* `Forest.lookup_set`: a change of an entry of a lowest table is seen on its path only.
* `Forest.graft`, `Forest.lookup_graft`: an empty table can be added, which is not seen.
-/

namespace OsLabs

variable {P ι W : Type}

/-- The table to which the path `is` leads from the table `r`. -/
def descend (child : W → Option P) (m : P → ι → W) : P → List ι → Option P
  | r, [] => some r
  | r, i :: is => (child (m r i)).bind fun c => descend child m c is

/-- The entry `i` of the table to which the path `is` leads, or `zero` if there is none. -/
def lookup (child : W → Option P) (zero : W) (m : P → ι → W) (r : P) (is : List ι) (i : ι) : W :=
  ((descend child m r is).map fun t => m t i).getD zero

/-- A descent along two lists of indices is one descent after the other. -/
theorem descend_append (child : W → Option P) (m : P → ι → W) (r : P) (is js : List ι) :
    descend child m r (is ++ js) = (descend child m r is).bind fun t => descend child m t js := by
  induction is generalizing r with
  | nil => rfl
  | cons i is ih =>
    rw [List.cons_append, descend, descend, Option.bind_assoc]
    exact congrArg _ (funext ih)

section

variable [DecidableEq P] [DecidableEq ι] {m : P → ι → W} {t p q : P} {i j : ι} {w : W}

/-- The memory with another entry `i` of table `t`. -/
def setEntry (m : P → ι → W) (t : P) (i : ι) (w : W) : P → ι → W :=
  Function.update m t (Function.update (m t) i w)

/-- The entry that is written has the new value. -/
@[simp] theorem setEntry_same : setEntry m t i w t i = w := by
  rw [setEntry, Function.update_self, Function.update_self]

/-- The other entries of the table are as they were. -/
theorem setEntry_of_index (h : j ≠ i) : setEntry m t i w t j = m t j := by
  rw [setEntry, Function.update_self, Function.update_of_ne h]

/-- The other tables are as they were. -/
theorem setEntry_of_ne (h : p ≠ t) : setEntry m t i w p = m p :=
  Function.update_of_ne h ..

/-- An empty table `q` is put under the entry `i` of table `t`. -/
def graftTable (m : P → ι → W) (zero : W) (t : P) (i : ι) (w : W) (q : P) : P → ι → W :=
  setEntry (Function.update m q fun _ => zero) t i w

/-- The entry at which the new table is attached points to it. -/
@[simp] theorem graftTable_same {zero : W} : graftTable m zero t i w q t i = w :=
  setEntry_same

/-- The new table is empty, whatever was on its page before. -/
theorem graftTable_new {zero : W} (h : q ≠ t) : graftTable m zero t i w q q = fun _ => zero := by
  rw [graftTable, setEntry_of_ne h, Function.update_self]

/-- Every other entry of every other table is as it was. -/
theorem graftTable_of_ne {zero : W} (hpq : p ≠ q) (h : p ≠ t ∨ j ≠ i) :
    graftTable m zero t i w q p j = m p j := by
  rw [graftTable]
  by_cases hp : p = t
  · subst hp
    rw [setEntry_of_index (h.resolve_left fun hne => hne rfl), Function.update_of_ne hpq]
  · rw [setEntry_of_ne hp, Function.update_of_ne hpq]

end

/-- The tables form trees. -/
structure Forest (child : W → Option P) (level : P → Option ℕ) (m : P → ι → W) : Prop where
  down : ∀ t l i q, level t = some (l + 1) → child (m t i) = some q → level q = some l
  inj : ∀ t l i t' l' i' q, level t = some (l + 1) → level t' = some (l' + 1) →
    child (m t i) = some q → child (m t' i') = some q → t = t' ∧ i = i'

namespace Forest

variable {child : W → Option P} {zero : W} {level : P → Option ℕ} {m m' : P → ι → W}
  {r r' t t' q : P} {is is' : List ι} {i i' : ι} {l : ℕ} {w : W}

/-- Each step of a descent goes down one level. -/
theorem descend_level (h : Forest child level m) (hr : level r = some (l + is.length))
    (hd : descend child m r is = some t) : level t = some l := by
  induction is generalizing r with
  | nil =>
    obtain rfl := Option.some.inj hd
    exact hr
  | cons i is ih =>
    obtain ⟨c, hc, hd⟩ := Option.bind_eq_some_iff.1 hd
    exact ih (h.down r (l + is.length) i c hr hc) hd

/-- **Different paths lead to different tables**: a forest shares no table between two places. -/
theorem descend_inj (h : Forest child level m) (hr : level r = some (l + is.length))
    (hr' : level r' = some (l + is'.length)) (hd : descend child m r is = some t)
    (hd' : descend child m r' is' = some t) (hlen : is.length = is'.length) :
    r = r' ∧ is = is' := by
  induction is generalizing r r' is' with
  | nil =>
    obtain rfl := List.length_eq_zero_iff.1 hlen.symm
    exact ⟨Option.some.inj (hd.trans hd'.symm), rfl⟩
  | cons i is ih =>
    rcases is' with _ | ⟨i', is'⟩
    · exact nomatch hlen
    obtain ⟨c, hc, hd⟩ := Option.bind_eq_some_iff.1 hd
    obtain ⟨c', hc', hd'⟩ := Option.bind_eq_some_iff.1 hd'
    obtain ⟨rfl, rfl⟩ := ih (h.down r _ i c hr hc) (h.down r' _ i' c' hr' hc') hd hd'
      (Nat.succ.inj hlen)
    obtain ⟨rfl, rfl⟩ := h.inj r _ i r' _ i' c hr hr' hc hc'
    exact ⟨rfl, rfl⟩

/-- Only the pointers of the inner tables matter to `descend`. -/
theorem descend_congr (h : Forest child level m)
    (hm : ∀ t l i, level t = some (l + 1) → child (m' t i) = child (m t i))
    (hr : level r = some (l + is.length)) : descend child m' r is = descend child m r is := by
  induction is generalizing r with
  | nil => rfl
  | cons i is ih =>
    rw [descend, descend, hm r (l + is.length) i hr]
    cases hc : child (m r i) with
    | none => rfl
    | some c => exact ih (h.down r (l + is.length) i c hr hc)

/-- Whether the tables are a forest depends on the entries of the inner tables only. -/
theorem congr (h : Forest child level m)
    (hm : ∀ t l i, level t = some (l + 1) → child (m' t i) = child (m t i)) :
    Forest child level m' where
  down t l i q ht hq := h.down t l i q ht ((hm t l i ht).symm.trans hq)
  inj t l i t' l' i' q ht ht' hq hq' := h.inj t l i t' l' i' q ht ht'
    ((hm t l i ht).symm.trans hq) ((hm t' l' i' ht').symm.trans hq')

/-- A change outside of the tables is not seen by any lookup. -/
theorem lookup_congr (h : Forest child level m) (hm : ∀ t l, level t = some l → m' t = m t)
    (hr : level r = some is.length) : lookup child zero m' r is i = lookup child zero m r is i := by
  rw [← Nat.zero_add is.length] at hr
  rw [lookup, lookup, h.descend_congr (fun t l i ht => by rw [hm t _ ht]) hr]
  cases hd : descend child m r is with
  | none => rfl
  | some t => rw [Option.map_some, Option.map_some, hm t 0 (h.descend_level hr hd)]

variable [DecidableEq P] [DecidableEq ι]

/-- An entry of a lowest table points to no table, so that it can be changed freely. -/
theorem set (h : Forest child level m) (ht : level t = some 0) :
    Forest child level (setEntry m t i w) :=
  h.congr fun t' l j ht' => by
    have hne : t' ≠ t := fun heq => by
      rw [heq, ht] at ht'
      exact nomatch ht'
    rw [setEntry_of_ne hne]

/-- **A change of an entry of a lowest table is seen on its path only.** -/
theorem lookup_set (h : Forest child level m) (hr : level r = some is.length)
    (hr' : level r' = some is'.length) (hlen : is.length = is'.length)
    (hd : descend child m r is = some t) :
    lookup child zero (setEntry m t i w) r' is' i' =
      if r' = r ∧ is' = is ∧ i' = i then w else lookup child zero m r' is' i' := by
  rw [← Nat.zero_add is.length] at hr
  rw [← Nat.zero_add is'.length] at hr'
  have ht := h.descend_level hr hd
  have hsame : descend child (setEntry m t i w) r' is' = descend child m r' is' :=
    h.descend_congr (fun t' l j ht' => by
      have hne : t' ≠ t := fun heq => by
        rw [heq, ht] at ht'
        exact nomatch ht'
      rw [setEntry_of_ne hne]) hr'
  rw [lookup, lookup, hsame]
  by_cases hpath : r' = r ∧ is' = is
  · obtain ⟨rfl, rfl⟩ := hpath
    rw [hd, Option.map_some, Option.map_some]
    by_cases hi : i' = i
    · rw [if_pos ⟨rfl, rfl, hi⟩, hi, setEntry_same]
      rfl
    · rw [if_neg fun heq => hi heq.2.2, setEntry_of_index hi]
  · rw [if_neg fun heq => hpath ⟨heq.1, heq.2.1⟩]
    cases hd' : descend child m r' is' with
    | none => rfl
    | some t' =>
      have hne : t' ≠ t := fun heq => by
        obtain ⟨rfl, rfl⟩ := h.descend_inj hr hr' hd (heq ▸ hd') hlen
        exact hpath ⟨rfl, rfl⟩
      rw [Option.map_some, Option.map_some, setEntry_of_ne hne]

/-- A forest with an empty table attached to one of its entries is a forest, if the page of the
new table was no table before. -/
theorem graft (h : Forest child level m) (ht : level t = some (l + 1)) (hq : level q = none)
    (hw : child w = some q) (hzero : child zero = none) :
    Forest child (Function.update level q (some l)) (graftTable m zero t i w q) := by
  have htq : t ≠ q := fun heq => by
    rw [heq, hq] at ht
    exact nomatch ht
  -- What an inner entry points to: the new table, or what it did before.
  have hchild : ∀ t' l' j c, Function.update level q (some l) t' = some (l' + 1) →
      child (graftTable m zero t i w q t' j) = some c →
      (t' = t ∧ j = i ∧ c = q ∧ l' = l) ∨
        (level t' = some (l' + 1) ∧ child (m t' j) = some c ∧ c ≠ q ∧ level c = some l') := by
    intro t' l' j c ht' hc
    by_cases hnew : t' = t ∧ j = i
    · obtain ⟨rfl, rfl⟩ := hnew
      rw [Function.update_of_ne htq, ht] at ht'
      rw [graftTable_same, hw] at hc
      exact .inl ⟨rfl, rfl, (Option.some.inj hc).symm, (Nat.succ.inj (Option.some.inj ht')).symm⟩
    · have htq' : t' ≠ q := fun heq => by
        rw [heq, graftTable_new htq.symm, hzero] at hc
        exact nomatch hc
      rw [Function.update_of_ne htq'] at ht'
      rw [graftTable_of_ne htq' (not_and_or.1 hnew)] at hc
      have hlc := h.down t' l' j c ht' hc
      refine .inr ⟨ht', hc, fun heq => ?_, hlc⟩
      rw [heq, hq] at hlc
      exact nomatch hlc
  refine ⟨fun t' l' j c ht' hc => ?_, fun t₁ l₁ i₁ t₂ l₂ i₂ c ht₁ ht₂ hc₁ hc₂ => ?_⟩
  · rcases hchild t' l' j c ht' hc with ⟨-, -, rfl, rfl⟩ | ⟨-, -, hne, hlc⟩
    · rw [Function.update_self]
    · rwa [Function.update_of_ne hne]
  · rcases hchild t₁ l₁ i₁ c ht₁ hc₁ with ⟨rfl, rfl, rfl, -⟩ | ⟨hlt₁, hct₁, hne₁, -⟩
    · rcases hchild t₂ l₂ i₂ _ ht₂ hc₂ with ⟨rfl, rfl, -, -⟩ | ⟨-, -, hne₂, -⟩
      · exact ⟨rfl, rfl⟩
      · exact absurd rfl hne₂
    · rcases hchild t₂ l₂ i₂ c ht₂ hc₂ with ⟨-, -, rfl, -⟩ | ⟨hlt₂, hct₂, -, -⟩
      · exact absurd rfl hne₁
      · exact h.inj t₁ l₁ i₁ t₂ l₂ i₂ c hlt₁ hlt₂ hct₁ hct₂

/-- No table is lost by a graft: every descent leads to the table it led to before. -/
theorem descend_graft (h : Forest child level m) (hq : level q = none)
    (hfree : child (m t i) = none) (hr : level r = some (l + is.length))
    (hd : descend child m r is = some t') :
    descend child (graftTable m zero t i w q) r is = some t' := by
  induction is generalizing r with
  | nil => exact hd
  | cons j is ih =>
    obtain ⟨c, hc, hd⟩ := Option.bind_eq_some_iff.1 hd
    have hrq : r ≠ q := fun heq => by
      rw [heq, hq] at hr
      exact nomatch hr
    have hrj : ¬(r = t ∧ j = i) := by
      rintro ⟨rfl, rfl⟩
      exact nomatch hfree.symm.trans hc
    have hsame : graftTable m zero t i w q r j = m r j :=
      graftTable_of_ne hrq (not_and_or.1 hrj)
    rw [descend, hsame, hc]
    exact ih (h.down r (l + is.length) j c hr hc) hd

/-- **The empty table is not seen**: a lookup through it finds what the missing table gave, which
is nothing. -/
theorem lookup_graft (h : Forest child level m) (ht : level t = some (l + 1))
    (hq : level q = none) (hfree : child (m t i) = none) (hw : child w = some q)
    (hzero : child zero = none) (hr : level r = some is.length) :
    lookup child zero (graftTable m zero t i w q) r is i' = lookup child zero m r is i' := by
  have hne : ∀ {p k}, level p = some k → p ≠ q := fun hp heq => by
    rw [heq, hq] at hp
    exact nomatch hp
  induction is generalizing r with
  | nil =>
    have hrt : r ≠ t := fun heq => by
      rw [heq, ht] at hr
      exact nomatch hr
    change graftTable m zero t i w q r i' = m r i'
    rw [graftTable_of_ne (hne hr) (.inl hrt)]
  | cons j is ih =>
    have hlook : ∀ m : P → ι → W, lookup child zero m r (j :: is) i' =
        ((child (m r j)).map fun c => lookup child zero m c is i').getD zero := by
      intro m
      rw [lookup, descend]
      cases child (m r j) with
      | none => rfl
      | some c => rfl
    rw [hlook, hlook]
    by_cases hrj : r = t ∧ j = i
    · obtain ⟨rfl, rfl⟩ := hrj
      rw [hfree, graftTable_same, hw, Option.map_none, Option.map_some]
      have hnew : graftTable m zero r j w q q = fun _ => zero := graftTable_new (hne ht).symm
      cases is with
      | nil =>
        change graftTable m zero r j w q q i' = zero
        rw [hnew]
      | cons k is =>
        rw [lookup, descend, hnew, hzero]
        rfl
    · have hsame : graftTable m zero t i w q r j = m r j :=
        graftTable_of_ne (hne hr) (not_and_or.1 hrj)
      rw [hsame]
      cases hc : child (m r j) with
      | none => rfl
      | some c =>
        rw [Option.map_some, Option.map_some, ih (h.down r is.length j c hr hc)]

end Forest

end OsLabs
