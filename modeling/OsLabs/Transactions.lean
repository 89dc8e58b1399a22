import Mathlib.Data.List.Nodup
import Mathlib.Logic.Function.Basic

/-!
# Transactions and Redo Logs

A small library for stores that group their writes into transactions and survive crashes.

* `Ledger` says what such a store promises: the `history` of the events that the running
  system has performed, and the part of it that is `durable`. A commit makes the history
  durable, a crash throws away what is not. `replay` is the contents that a history
  leaves.
* `redo` is what a redo log does to a store: it writes a list of addresses and contents.

## Main results

* `Ledger.act_prefix`: the durable part is a part of the history, whatever happens.
* `redo_update_of_mem`: installing one entry of a log does not change what the whole log
  leaves, so that a log can be installed any number of times.
-/

namespace OsLabs

/-! ### Histories -/

/-- What a thread does to the store. -/
inductive Event (Tid Addr Val : Type) where
  | begin (t : Tid)
  | store (t : Tid) (a : Addr) (v : Val)
  | finish (t : Tid)
deriving DecidableEq

variable {Tid Addr Val : Type}

section

variable [DecidableEq Tid]

/-- Whether `t` is in a transaction after an event, if it was in one before or not. -/
def Event.opens (t : Tid) (before : Bool) : Event Tid Addr Val → Bool
  | begin u => if u = t then true else before
  | store _ _ _ => before
  | finish u => if u = t then false else before

/-- Whether `t` is in a transaction at the end of the history. -/
def isOpen (t : Tid) (h : List (Event Tid Addr Val)) : Bool :=
  h.foldl (fun o e => e.opens t o) false

/-- No thread is in a transaction before the first event. -/
@[simp] theorem isOpen_nil (t : Tid) : isOpen t ([] : List (Event Tid Addr Val)) = false :=
  rfl

/-- The last event decides, unless it is of another thread. -/
@[simp] theorem isOpen_append_singleton (t : Tid) (h : List (Event Tid Addr Val))
    (e : Event Tid Addr Val) : isOpen t (h ++ [e]) = e.opens t (isOpen t h) := by
  simp [isOpen]

/-- No transaction is open at the end of the history. -/
def Closed (h : List (Event Tid Addr Val)) : Prop := ∀ t, isOpen t h = false

/-- The empty history has no open transaction. -/
theorem closed_nil : Closed ([] : List (Event Tid Addr Val)) := fun _ => rfl

end

section

variable [DecidableEq Addr]

/-- The store after an event. -/
def Event.apply (d : Addr → Val) : Event Tid Addr Val → Addr → Val
  | store _ a v => Function.update d a v
  | _ => d

/-- The store after a history. -/
def replay (d : Addr → Val) (h : List (Event Tid Addr Val)) : Addr → Val :=
  h.foldl Event.apply d

/-- The empty history leaves the store as it was. -/
@[simp] theorem replay_nil (d : Addr → Val) :
    replay d ([] : List (Event Tid Addr Val)) = d :=
  rfl

/-- The last event acts on the store that those before it have left. -/
@[simp] theorem replay_append_singleton (d : Addr → Val) (h : List (Event Tid Addr Val))
    (e : Event Tid Addr Val) : replay d (h ++ [e]) = e.apply (replay d h) := by
  simp [replay]

end

/-! ### The ledger -/

/-- The history since the start and the part of it that a crash leaves. -/
structure Ledger (Tid Addr Val : Type) where
  history : List (Event Tid Addr Val)
  durable : List (Event Tid Addr Val)

/-- What a crash-safe store can be seen to do. -/
inductive Action (Tid Addr Val : Type) where
  | event (e : Event Tid Addr Val)
  | commit
  | crash
  | silent
deriving DecidableEq

namespace Ledger

/-- The effect of an action. -/
def act (l : Ledger Tid Addr Val) : Action Tid Addr Val → Ledger Tid Addr Val
  | .event e => { l with history := l.history ++ [e] }
  | .commit => { l with durable := l.history }
  | .crash => { l with history := l.durable }
  | .silent => l

/-- The ledger after a sequence of actions. -/
def ofActions (as : List (Action Tid Addr Val)) : Ledger Tid Addr Val :=
  as.foldl act ⟨[], []⟩

/-- The ledger is empty at the start. -/
@[simp] theorem ofActions_nil : ofActions ([] : List (Action Tid Addr Val)) = ⟨[], []⟩ := rfl

/-- The last action acts on the ledger of those before it. -/
@[simp] theorem ofActions_append_singleton (as : List (Action Tid Addr Val))
    (a : Action Tid Addr Val) : ofActions (as ++ [a]) = (ofActions as).act a := by
  simp [ofActions]

/-- **The durable part is a part of the history.** -/
theorem act_prefix {l : Ledger Tid Addr Val} (a : Action Tid Addr Val)
    (h : l.durable <+: l.history) : (l.act a).durable <+: (l.act a).history := by
  cases a with
  | event e => exact h.trans (List.prefix_append _ _)
  | commit => exact List.prefix_rfl
  | crash => exact List.prefix_rfl
  | silent => exact h

end Ledger

/-! ### Redo logs -/

section

variable [DecidableEq Addr]

/-- The store after the entries are written, first to last. -/
def redo (es : List (Addr × Val)) (d : Addr → Val) : Addr → Val :=
  es.foldl (fun d e => Function.update d e.1 e.2) d

/-- A log without entries writes nothing. -/
@[simp] theorem redo_nil (d : Addr → Val) : redo [] d = d := rfl

/-- The entries are written in the order of the log, the first one first. -/
@[simp] theorem redo_cons (e : Addr × Val) (es : List (Addr × Val)) (d : Addr → Val) :
    redo (e :: es) d = redo es (Function.update d e.1 e.2) :=
  rfl

/-- An address that the log does not name keeps its contents. -/
theorem redo_of_notMem {es : List (Addr × Val)} {a : Addr} (d : Addr → Val)
    (h : a ∉ es.map Prod.fst) : redo es d a = d a := by
  induction es generalizing d with
  | nil => rfl
  | cons e es ih =>
    simp only [List.map_cons, List.mem_cons, not_or] at h
    rw [redo_cons, ih _ h.2, Function.update_of_ne h.1]

/-- An address that the log names once gets that entry's contents. -/
theorem redo_of_mem {es : List (Addr × Val)} {e : Addr × Val} (d : Addr → Val)
    (hnodup : (es.map Prod.fst).Nodup) (h : e ∈ es) : redo es d e.1 = e.2 := by
  induction es generalizing d with
  | nil => cases h
  | cons e' es ih =>
    simp only [List.map_cons, List.nodup_cons] at hnodup
    rw [redo_cons]
    rcases List.mem_cons.1 h with rfl | hmem
    · rw [redo_of_notMem _ hnodup.1, Function.update_self]
    · exact ih _ hnodup.2 hmem

/-- **Installing one entry does not change what the log leaves.** -/
theorem redo_update_of_mem {es : List (Addr × Val)} {e : Addr × Val} (d : Addr → Val)
    (hnodup : (es.map Prod.fst).Nodup) (h : e ∈ es) :
    redo es (Function.update d e.1 e.2) = redo es d := by
  funext a
  by_cases ha : a ∈ es.map Prod.fst
  · obtain ⟨e', he', rfl⟩ := List.mem_map.1 ha
    rw [redo_of_mem _ hnodup he', redo_of_mem _ hnodup he']
  · have hne : a ≠ e.1 := fun heq => ha (heq ▸ List.mem_map_of_mem h)
    rw [redo_of_notMem _ ha, redo_of_notMem _ ha, Function.update_of_ne hne]

/-- A log that is installed leaves the store as it is. -/
theorem redo_of_installed {es : List (Addr × Val)} {d : Addr → Val}
    (h : ∀ e ∈ es, d e.1 = e.2) : redo es d = d := by
  induction es with
  | nil => rfl
  | cons e es ih =>
    have hself : Function.update d e.1 e.2 = d := by
      rw [← h e (by simp), Function.update_eq_self]
    rw [redo_cons, hself]
    exact ih fun e' he' => h e' (by simp [he'])

end

end OsLabs
