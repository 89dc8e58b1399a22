import OsLabs.MemoryMap

/-!
# Where the Walk over the ATAGS Ends

Each ATAG stores its own length in words, `raw::Atag::next` adds it to the address of the
tag, and nothing checks it. As long as no stored length is 0 the walk moves forward, so
within a finite image of memory it comes to an end. A tag that stores length 0 is its own
successor: from it on `Atags::next` returns the same tag for ever, and the loop of
`memory_map`, which should answer `None` when there is no `MEM` tag, does not return.

Conventions: an image is the memory below `limit`. The image is arbitrary; a statement
about the walk assumes only that the bytes read so far lie in it (`Inside`).

## Main results

* `Inside.next`: a call of `Atags::next` whose reads stay inside.
* `findMem_ends`: the loop of `memory_map` ends if the tags it visits have a length.
* `findMem_stuck`: it does not return once it visits a tag of length 0.
* `moves_forward_iff`: the walk moves forward exactly if no tag on it has length 0.
-/

namespace OsLabs.MemoryMap

section

variable (mem : ℕ → UInt8) (limit : ℕ)

/-- The bytes that `Atags::next` reads for the tag at `atag` are in the image: its header,
its payload as far as it is copied, and the text of a command line with its final zero. -/
structure Inside (atag : ℕ) : Prop where
  header : atag + 8 ≤ limit
  coreTag : tag mem atag = rawCore → atag + 20 ≤ limit
  memTag : tag mem atag = rawMem → atag + 16 ≤ limit
  cmdTag : tag mem atag = rawCmdline → ∃ len, atag + 8 + len < limit ∧ mem (atag + 8 + len) = 0

/-- The states of the iterator as long as reads stay inside the image and the items taken
from it meet `goesOn`. -/
inductive Walk (goesOn : Atag → Prop) : Atags → Prop
  | get : Walk goesOn Atags.get
  | next {atag fuel : ℕ} {t : Atag} {atags : Atags} :
      Walk goesOn ⟨some atag⟩ → Inside mem limit atag →
      Atags.next mem fuel ⟨some atag⟩ = some (some t, atags) → goesOn t → Walk goesOn atags

/-- What is expected of the walk. -/
structure MovesForward : Prop where
  /-- The tag visited next is further up in memory. -/
  forward : ∀ atag next fuel t, Walk mem limit (fun _ => True) ⟨some atag⟩ →
    Inside mem limit atag → Atags.next mem fuel ⟨some atag⟩ = some (t, ⟨some next⟩) →
    atag < next
  /-- The loop of `memory_map`, which goes on until it is given a `MEM` tag, ends if its
  reads stay inside. -/
  ends : (∀ atag, Walk mem limit (fun t => t.asMem = none) ⟨some atag⟩ →
      Inside mem limit atag) →
    ∃ n, ∀ fuel ≥ n, ∀ turns ≥ n, (findMem mem fuel turns Atags.get).isSome

/-- The addresses that the stored lengths lead to, from `ATAG_BASE` on, through tags that
are inside the image and are not `NONE`. -/
inductive Linked : ℕ → Prop
  | base : Linked atagBase
  | next {atag : ℕ} : Linked atag → Inside mem limit atag → tag mem atag ≠ rawNone →
      Linked (atag + 4 * dwords mem atag)

/-- **The condition**: no tag on the way, other than `NONE`, stores length 0. -/
def NoZeroLength : Prop :=
  ∀ atag, Linked mem limit atag → Inside mem limit atag → tag mem atag ≠ rawNone →
    dwords mem atag ≠ 0

end

variable {mem : ℕ → UInt8} {limit atag : ℕ}

/-! ### One call -/

/-- A tag whose bytes are inside the image can be read. -/
theorem Inside.encodes (h : Inside mem limit atag) (hne : tag mem atag ≠ rawNone) :
    ∃ t, Encodes mem atag t := by
  by_cases hcore : tag mem atag = rawCore
  · exact ⟨_, Encodes.core hcore⟩
  by_cases hmem : tag mem atag = rawMem
  · exact ⟨_, Encodes.mem hmem⟩
  by_cases hcmd : tag mem atag = rawCmdline
  · -- the text ends at the first of its zeros
    have hz : ∃ len, mem (atag + 8 + len) = 0 := (h.cmdTag hcmd).imp fun _ hlen => hlen.2
    exact ⟨_, Encodes.cmd (Nat.find hz) hcmd (fun i hi => Nat.find_min hz hi)
      (Nat.find_spec hz)⟩
  · exact ⟨_, Encodes.unknown (by simp [hne, hcore, hmem, hcmd])⟩

/-- Whatever `next` returns for the tag at `atag`, it moves on by the stored length. -/
theorem next_ptr {fuel : ℕ} {t : Option Atag} {atags : Atags}
    (h : Atags.next mem fuel ⟨some atag⟩ = some (t, atags)) : atags.ptr = rawNext mem atag := by
  simp only [Atags.next, Option.bind_eq_bind, Option.bind_eq_some_iff, Option.some.injEq,
    Prod.mk.injEq] at h
  obtain ⟨item, -, -, rfl⟩ := h
  rw [rawNext]
  split <;> rfl

/-- There is a next tag unless this one is `NONE`, and it lies `dwords` words further on. -/
theorem rawNext_eq_some {next : ℕ} :
    rawNext mem atag = some next ↔
      tag mem atag ≠ rawNone ∧ atag + 4 * dwords mem atag = next := by
  rw [rawNext]
  split <;> simp_all

/-- **A call whose reads stay inside** returns, with enough fuel for the scan of the text:
at the end of the sequence the iterator is exhausted, before it goes on by the length. -/
theorem Inside.next (h : Inside mem limit atag) :
    (tag mem atag = rawNone ∧ ∀ fuel,
      Atags.next mem fuel ⟨some atag⟩ = some (some .none, ⟨none⟩)) ∨
    (tag mem atag ≠ rawNone ∧ ∃ t, ∃ n, ∀ fuel ≥ n,
      Atags.next mem fuel ⟨some atag⟩ =
        some (some t, ⟨some (atag + 4 * dwords mem atag)⟩)) := by
  by_cases hnone : tag mem atag = rawNone
  · refine Or.inl ⟨hnone, fun fuel => ?_⟩
    have hraw : Atag.ofRaw mem fuel atag = some .none := by
      rw [Atag.ofRaw, hnone]
      rfl
    simp [Atags.next, hraw, hnone]
  · obtain ⟨t, ht⟩ := h.encodes hnone
    obtain ⟨-, n, hraw⟩ := ht.ofRaw
    refine Or.inr ⟨hnone, t, n, fun fuel hfuel => ?_⟩
    simp [Atags.next, hraw fuel hfuel, rawNext, hnone]

/-- A walk visits only tags that are linked to one another, so that what holds of the linked tags
holds of each tag it meets. -/
theorem Walk.linked {goesOn : Atag → Prop} {atags : Atags} (h : Walk mem limit goesOn atags) :
    ∀ atag, atags.ptr = some atag → Linked mem limit atag := by
  induction h with
  | get =>
      intro atag hptr
      exact Option.some.inj hptr ▸ Linked.base
  | next _ hin hnext _ ih =>
      intro next hptr
      obtain ⟨hne, rfl⟩ := rawNext_eq_some.mp ((next_ptr hnext).symm.trans hptr)
      exact (ih _ rfl).next hin hne

/-- The whole walk visits all of them. -/
theorem Linked.walk (h : Linked mem limit atag) :
    Walk mem limit (fun _ => True) ⟨some atag⟩ := by
  induction h with
  | base => exact Walk.get
  | next _ hin hne ih =>
      rcases hin.next with ⟨hnone, -⟩ | ⟨-, t, n, hnext⟩
      · exact absurd hnone hne
      · exact ih.next hin (hnext n le_rfl) trivial

/-! ### The loop -/

/-- A turn of the loop: it goes on unless it has been given a `MEM` tag. -/
theorem findMem_succ {fuel turns : ℕ} {atags atags' : Atags} {t : Atag}
    (h : Atags.next mem fuel atags = some (some t, atags')) :
    findMem mem fuel (turns + 1) atags =
      match t.asMem with
      | some m => some (some m)
      | none => findMem mem fuel turns atags' := by
  rw [findMem, h]
  cases t <;> rfl

/-- **The loop ends** if its reads stay inside and the tags it visits have a length. The
induction is on the room left above the tag. -/
theorem findMem_ends
    (hin : ∀ atag, Walk mem limit (fun t => t.asMem = none) ⟨some atag⟩ →
      Inside mem limit atag)
    (hlen : ∀ atag, Walk mem limit (fun t => t.asMem = none) ⟨some atag⟩ →
      tag mem atag ≠ rawNone → dwords mem atag ≠ 0)
    (hwalk : Walk mem limit (fun t => t.asMem = none) ⟨some atag⟩) :
    ∃ n, ∀ fuel ≥ n, ∀ turns ≥ n, (findMem mem fuel turns ⟨some atag⟩).isSome := by
  induction hroom : limit - atag using Nat.strong_induction_on generalizing atag with
  | _ room ih =>
      rcases (hin atag hwalk).next with ⟨-, hnext⟩ | ⟨hne, t, n, hnext⟩
      · refine ⟨2, fun fuel _ turns hturns => ?_⟩
        obtain ⟨turns, rfl⟩ : ∃ k, turns = k + 2 := ⟨turns - 2, by omega⟩
        rw [findMem_succ (hnext fuel)]
        rfl
      · cases hmem : t.asMem with
        | some m =>
            refine ⟨n + 1, fun fuel hfuel turns hturns => ?_⟩
            obtain ⟨turns, rfl⟩ : ∃ k, turns = k + 1 := ⟨turns - 1, by omega⟩
            rw [findMem_succ (hnext fuel (by omega)), hmem]
            rfl
        | none =>
            have hheader := (hin atag hwalk).header
            have hdwords := hlen atag hwalk hne
            obtain ⟨k, hrest⟩ := ih (limit - (atag + 4 * dwords mem atag)) (by omega)
              (hwalk.next (hin atag hwalk) (hnext n le_rfl) hmem) rfl
            refine ⟨max n k + 1, fun fuel hfuel turns hturns => ?_⟩
            obtain ⟨turns, rfl⟩ : ∃ k, turns = k + 1 := ⟨turns - 1, by omega⟩
            have hrest' := hrest fuel (by omega) turns (by omega)
            rw [findMem_succ (hnext fuel (by omega)), hmem]
            exact hrest'

/-- Only a `MEM` tag is read as one. -/
theorem asMem_ofRaw {fuel : ℕ} {t : Atag} (hmem : tag mem atag ≠ rawMem)
    (h : Atag.ofRaw mem fuel atag = some t) : t.asMem = none := by
  rw [Atag.ofRaw, if_neg hmem] at h
  split_ifs at h
  · exact Option.some.inj h ▸ rfl
  · obtain ⟨len, -, hcmd⟩ := Option.bind_eq_some_iff.mp h
    exact Option.some.inj hcmd ▸ rfl
  · exact Option.some.inj h ▸ rfl
  · exact Option.some.inj h ▸ rfl

/-- **The loop is stuck** at a tag of length 0, whatever fuel it is given. -/
theorem findMem_stuck (hmem : tag mem atag ≠ rawMem) (hnone : tag mem atag ≠ rawNone)
    (hzero : dwords mem atag = 0) (fuel turns : ℕ) :
    findMem mem fuel turns ⟨some atag⟩ = none := by
  induction turns with
  | zero => rfl
  | succ turns ih =>
      cases hraw : Atag.ofRaw mem fuel atag with
      | none => simp [findMem, Atags.next, hraw]
      | some t =>
          have hnext : Atags.next mem fuel ⟨some atag⟩ = some (some t, ⟨some atag⟩) := by
            simp [Atags.next, hraw, rawNext, hnone, hzero]
          rw [findMem_succ hnext, asMem_ofRaw hmem hraw]
          exact ih

/-- A tag of length 0 on the way is its own successor. -/
theorem MovesForward.noZeroLength (h : MovesForward mem limit) : NoZeroLength mem limit := by
  intro atag hlinked hin hne hzero
  rcases hin.next with ⟨hnone, -⟩ | ⟨-, t, n, hnext⟩
  · exact hne hnone
  · have hlt := h.forward _ _ n _ hlinked.walk hin (hnext n le_rfl)
    omega

/-- **When the walk moves forward.** For every image of memory: successive tags have
increasing addresses and the loop of `memory_map` ends, as long as reads stay inside, if
and only if no tag that the stored lengths lead to, other than a final `NONE`, stores
length 0. -/
theorem moves_forward_iff (mem : ℕ → UInt8) (limit : ℕ) :
    MovesForward mem limit ↔ NoZeroLength mem limit := by
  constructor
  · exact MovesForward.noZeroLength
  · intro h
    constructor
    · intro atag next fuel t hwalk hin hnext
      obtain ⟨hne, rfl⟩ := rawNext_eq_some.mp (next_ptr hnext).symm
      have hdwords := h atag (hwalk.linked atag rfl) hin hne
      omega
    · intro hin
      exact findMem_ends hin (fun atag hwalk => h atag (hwalk.linked atag rfl) (hin atag hwalk))
        Walk.get

/-- Five words that begin like the tags of the board, but the `CORE` tag stores length 0. -/
def stuckWords : List ℕ := [0, rawCore, 1, 2, 3]

/-- **The defect**: the walk over them does not move forward, and the loop of `memory_map`
does not return, whatever its fuel. -/
theorem atag_walk_stuck :
    ¬ MovesForward (bootMemory stuckWords) 0x200 ∧
      ∀ fuel turns, findMem (bootMemory stuckWords) fuel turns Atags.get = none := by
  have htag : tag (bootMemory stuckWords) atagBase = rawCore := rfl
  have hzero : dwords (bootMemory stuckWords) atagBase = 0 := rfl
  constructor
  · intro h
    refine h.noZeroLength atagBase Linked.base ?_ (by rw [htag]; decide) hzero
    constructor
    · decide
    · intro _
      decide
    · intro hmem
      rw [htag] at hmem
      exact absurd hmem (by decide)
    · intro hcmd
      rw [htag] at hcmd
      exact absurd hcmd (by decide)
  · exact findMem_stuck (by rw [htag]; decide) (by rw [htag]; decide) hzero

end OsLabs.MemoryMap
