import OsLabs.MemoryMap

/-!
# The ATAGS Read Back

The walk of `lib/pi/src/atags` is a decoder: each raw tag gives its length in words and
its identifier, the union behind these two words is read by the identifier, and the text
of a command line is scanned byte by byte up to its terminating zero. This module has
the encoder it inverts: a tag as a list of little-endian words, a sequence of tags one
after the other, and a `NONE` tag at the end.

A `Tag` carries that it can be encoded: the text of a command line has no zero byte, an
identifier that is not one of the three known ones is not one of them, and the number of
words fits in the field `dwords`.

Conventions: as in `OsLabs.MemoryMap`, a string is the list of its bytes, and `none` in
front of a result is a scan that has not ended within its fuel.

## Main results

* `packWords_bytes`: a text packed into words is the text and up to three zero bytes.
* `Tag.encodes`: a tag in memory stands for its value.
* `tagsAt_encode`: an encoded sequence is a well-formed one.
* `TagsAt.calls`: the calls of `next` give the tags of a well-formed sequence, and
  nothing from then on.
* `atags_decode_encode`: iterating over an encoded sequence gives its tags back.
-/

namespace OsLabs.MemoryMap

/-! ### Words and bytes -/

/-- The bytes of a little-endian word. -/
def leBytes (w : UInt32) : List UInt8 :=
  [UInt8.ofNat w.toNat, UInt8.ofNat (w.toNat / 2 ^ 8), UInt8.ofNat (w.toNat / 2 ^ 16),
    UInt8.ofNat (w.toNat / 2 ^ 24)]

/-- The little-endian word of four bytes. -/
def leWord (b₀ b₁ b₂ b₃ : UInt8) : UInt32 :=
  UInt32.ofNat (b₀.toNat + 2 ^ 8 * b₁.toNat + 2 ^ 16 * b₂.toNat + 2 ^ 24 * b₃.toNat)

/-- Bytes packed into words, the last of them filled up with zeros. -/
def packWords : List UInt8 → List UInt32
  | [] => []
  | [b₀] => [leWord b₀ 0 0 0]
  | [b₀, b₁] => [leWord b₀ b₁ 0 0]
  | [b₀, b₁, b₂] => [leWord b₀ b₁ b₂ 0]
  | b₀ :: b₁ :: b₂ :: b₃ :: bytes => leWord b₀ b₁ b₂ b₃ :: packWords bytes

/-- The memory from `a` on starts with the given bytes. -/
def Holds (mem : ℕ → UInt8) : ℕ → List UInt8 → Prop
  | _, [] => True
  | a, b :: bytes => mem a = b ∧ Holds mem (a + 1) bytes

/-! ### Tags -/

/-- What a tag holds, other than a `NONE` tag. -/
inductive Body where
  | core (flags pageSize rootDev : UInt32)
  | mem (size start : UInt32)
  | cmdline (text : List UInt8)
  | other (id : UInt32) (payload : List UInt32)
deriving DecidableEq

/-- The field `tag`. -/
def Body.id : Body → UInt32
  | .core .. => UInt32.ofNat rawCore
  | .mem .. => UInt32.ofNat rawMem
  | .cmdline _ => UInt32.ofNat rawCmdline
  | .other id _ => id

/-- The words behind the fields `dwords` and `tag`. -/
def Body.payload : Body → List UInt32
  | .core flags pageSize rootDev => [flags, pageSize, rootDev]
  | .mem size start => [size, start]
  | .cmdline text => packWords (text ++ [0])
  | .other _ payload => payload

/-- The text has no zero byte, and other tags are neither known nor final. -/
def Body.Valid : Body → Prop
  | .cmdline text => 0 ∉ text
  | .other id _ => id.toNat ∉ [rawNone, rawCore, rawMem, rawCmdline]
  | _ => True

instance : DecidablePred Body.Valid
  | .core .. => isTrue trivial
  | .mem .. => isTrue trivial
  | .cmdline text => inferInstanceAs (Decidable (0 ∉ text))
  | .other id _ =>
      inferInstanceAs (Decidable (id.toNat ∉ [rawNone, rawCore, rawMem, rawCmdline]))

/-- A tag that can be laid out in memory. -/
structure Tag where
  body : Body
  valid : body.Valid
  fits : body.payload.length + 2 < 2 ^ 32

/-- The words of a tag. -/
def Tag.words (t : Tag) : List UInt32 :=
  UInt32.ofNat (t.body.payload.length + 2) :: t.body.id :: t.body.payload

/-- The value of the code's type `Atag` that a tag stands for. -/
def Tag.value (t : Tag) : Atag :=
  match t.body with
  | .core flags pageSize rootDev => .core ⟨flags.toNat, pageSize.toNat, rootDev.toNat⟩
  | .mem size start => .mem ⟨size.toNat, start.toNat⟩
  | .cmdline text => .cmd text
  | .other id _ => .unknown id.toNat

/-- **The encoding** of a sequence of tags: its words, and a `NONE` tag with any count. -/
def encodeWords (tags : List Tag) (dwords : UInt32) : List UInt32 :=
  tags.flatMap Tag.words ++ [dwords, UInt32.ofNat rawNone]

/-- The encoding, byte after byte. -/
def encode (tags : List Tag) (dwords : UInt32) : List UInt8 :=
  (encodeWords tags dwords).flatMap leBytes

/-- The items of `k` calls of `Atags::next`, in order. -/
def Atags.calls (mem : ℕ → UInt8) (fuel : ℕ) : ℕ → Atags → Option (List (Option Atag))
  | 0, _ => some []
  | k + 1, atags => do
    let (item, atags) ← atags.next mem fuel
    let items ← Atags.calls mem fuel k atags
    some (item :: items)

section

variable {mem : ℕ → UInt8}

/-! ### Words in memory -/

/-- Two lists of bytes lie one behind the other exactly if their concatenation lies there. -/
theorem holds_append {a : ℕ} {bs cs : List UInt8} :
    Holds mem a (bs ++ cs) ↔ Holds mem a bs ∧ Holds mem (a + bs.length) cs := by
  induction bs generalizing a with
  | nil => simp [Holds]
  | cons b bs ih =>
      rw [List.cons_append, Holds, Holds, ih, List.length_cons, and_assoc,
        show a + 1 + bs.length = a + (bs.length + 1) by omega]

/-- The byte at offset `i` of what the memory holds. -/
theorem Holds.get {a : ℕ} {bs : List UInt8} (h : Holds mem a bs) {i : ℕ}
    (hi : i < bs.length) : mem (a + i) = bs[i] := by
  induction bs generalizing a i with
  | nil => simp at hi
  | cons b bs ih =>
      cases i with
      | zero => exact h.1
      | succ i =>
          rw [show a + (i + 1) = a + 1 + i by omega]
          exact ih h.2 (by simpa using hi)

/-- A word takes four bytes in memory, the lowest byte first. -/
@[simp] theorem length_leBytes (w : UInt32) : (leBytes w).length = 4 := rfl

/-- A list of words takes four bytes for each of them. -/
@[simp] theorem length_flatMap_leBytes (ws : List UInt32) :
    (ws.flatMap leBytes).length = 4 * ws.length := by
  induction ws with
  | nil => rfl
  | cons w ws ih => rw [List.flatMap_cons, List.length_append, ih, length_leBytes,
      List.length_cons]; omega

/-- A word in memory is read back. -/
theorem Holds.readU32 {a : ℕ} {w : UInt32} (h : Holds mem a (leBytes w)) :
    readU32 mem a = w.toNat := by
  obtain ⟨h0, h1, h2, h3, -⟩ := h
  have hw := w.toNat_lt
  rw [MemoryMap.readU32, show a + 2 = a + 1 + 1 by omega, show a + 3 = a + 1 + 1 + 1 by omega,
    h0, h1, h2, h3]
  simp only [UInt8.toNat_ofNat']
  omega

/-- Bytes put into a word come out of it. -/
theorem leBytes_leWord (b₀ b₁ b₂ b₃ : UInt8) :
    leBytes (leWord b₀ b₁ b₂ b₃) = [b₀, b₁, b₂, b₃] := by
  have h0 := b₀.toNat_lt
  have h1 := b₁.toNat_lt
  have h2 := b₂.toNat_lt
  have h3 := b₃.toNat_lt
  have hw : (leWord b₀ b₁ b₂ b₃).toNat =
      b₀.toNat + 2 ^ 8 * b₁.toNat + 2 ^ 16 * b₂.toNat + 2 ^ 24 * b₃.toNat := by
    rw [leWord, UInt32.toNat_ofNat_of_lt']
    simp only [UInt32.size]
    omega
  rw [leBytes, hw]
  simp only [List.cons.injEq, and_true, ← UInt8.toNat_inj, UInt8.toNat_ofNat']
  omega

/-- **Packed text**: the words of a text hold the text, and then up to three zeros. -/
theorem packWords_bytes (bytes : List UInt8) :
    ∃ pad, (packWords bytes).flatMap leBytes = bytes ++ List.replicate pad 0 := by
  fun_induction packWords bytes with
  | case1 => exact ⟨0, rfl⟩
  | case2 b₀ => exact ⟨3, by simp [leBytes_leWord, List.replicate]⟩
  | case3 b₀ b₁ => exact ⟨2, by simp [leBytes_leWord, List.replicate]⟩
  | case4 b₀ b₁ b₂ => exact ⟨1, by simp [leBytes_leWord, List.replicate]⟩
  | case5 b₀ b₁ b₂ b₃ bytes ih =>
      obtain ⟨pad, hpad⟩ := ih
      refine ⟨pad, ?_⟩
      rw [List.flatMap_cons, hpad, leBytes_leWord]
      rfl

/-! ### Tags in memory -/

/-- The words of a tag where it stands: its length, its identifier and the rest. -/
theorem Tag.holds_words {a : ℕ} {t : Tag} (h : Holds mem a (t.words.flatMap leBytes)) :
    dwords mem a = t.body.payload.length + 2 ∧ tag mem a = t.body.id.toNat ∧
      Holds mem (a + 8) (t.body.payload.flatMap leBytes) := by
  rw [Tag.words, List.flatMap_cons, List.flatMap_cons, holds_append, holds_append] at h
  obtain ⟨hlen, hid, hrest⟩ := h
  refine ⟨?_, hid.readU32, hrest⟩
  rw [dwords, hlen.readU32, UInt32.toNat_ofNat_of_lt' t.fits]

/-- **A tag in memory stands for its value.** -/
theorem Tag.encodes {a : ℕ} {t : Tag} (h : Holds mem a (t.words.flatMap leBytes)) :
    Encodes mem a t.value := by
  obtain ⟨-, htag, hrest⟩ := t.holds_words h
  obtain ⟨body, valid, fits⟩ := t
  cases body with
  | core flags pageSize rootDev =>
      simp only [Body.payload, List.flatMap_cons, holds_append, length_leBytes] at hrest
      obtain ⟨h0, h1, h2, -⟩ := hrest
      have hcore : Encodes mem a (.core (kindCore mem a)) := Encodes.core htag
      rw [kindCore, h0.readU32, h1.readU32, h2.readU32] at hcore
      exact hcore
  | mem size start =>
      simp only [Body.payload, List.flatMap_cons, holds_append, length_leBytes] at hrest
      obtain ⟨h0, h1, -⟩ := hrest
      have hmem : Encodes mem a (.mem (kindMem mem a)) := Encodes.mem htag
      rw [kindMem, h0.readU32, h1.readU32] at hmem
      exact hmem
  | cmdline text =>
      obtain ⟨pad, hpad⟩ := packWords_bytes (text ++ [0])
      rw [Body.payload, hpad, holds_append, holds_append] at hrest
      obtain ⟨⟨htext, hzero, -⟩, -⟩ := hrest
      have hslice : slice mem (a + 8) text.length = text := by
        refine List.ext_getElem (by simp [slice]) fun i hi hi' => ?_
        simp only [slice, List.getElem_map, List.getElem_range]
        exact htext.get hi'
      have hne : ∀ i < text.length, mem (a + 8 + i) ≠ 0 := by
        intro i hi hz
        rw [htext.get hi] at hz
        exact valid (hz ▸ List.getElem_mem hi)
      have hcmd : Encodes mem a (.cmd (slice mem (a + 8) text.length)) :=
        Encodes.cmd text.length htag hne hzero
      rw [hslice] at hcmd
      exact hcmd
  | other id payload =>
      have hid : tag mem a = id.toNat := htag
      have hother : Encodes mem a (.unknown (tag mem a)) := Encodes.unknown (hid ▸ valid)
      rw [hid] at hother
      exact hother

/-- **An encoded sequence is well-formed**: each length leads to the next tag. -/
theorem tagsAt_encode {a : ℕ} {tags : List Tag} {count : UInt32}
    (h : Holds mem a (encode tags count)) :
    TagsAt mem a (tags.map Tag.value ++ [.none]) := by
  induction tags generalizing a with
  | nil =>
      simp only [encode, encodeWords, List.flatMap_nil, List.nil_append, List.flatMap_cons,
        holds_append] at h
      obtain ⟨-, hnone, -⟩ := h
      exact TagsAt.last hnone.readU32
  | cons t tags ih =>
      have hsplit : encode (t :: tags) count = t.words.flatMap leBytes ++ encode tags count := by
        simp only [encode, encodeWords, List.flatMap_cons, List.flatMap_append,
          List.append_assoc]
      rw [hsplit, holds_append] at h
      obtain ⟨ht, hrest⟩ := h
      have hnext : a + (t.words.flatMap leBytes).length = a + 4 * dwords mem a := by
        rw [length_flatMap_leBytes, (t.holds_words ht).1]
        rfl
      exact TagsAt.cons (t.encodes ht) (ih (hnext ▸ hrest))

/-! ### The iteration -/

/-- An iterator at its end stays there. -/
theorem Atags.calls_end (fuel k : ℕ) :
    Atags.calls mem fuel k ⟨none⟩ = some (List.replicate k none) := by
  induction k with
  | zero => rfl
  | succ k ih => simp [Atags.calls, Atags.next, ih, List.replicate_succ]

/-- **The calls of `next`** on a well-formed sequence: the tags in order, each once, and
the end of the iteration ever after. Induction on the sequence. -/
theorem TagsAt.calls {a : ℕ} {tags : List Atag} (h : TagsAt mem a tags) :
    ∃ n, ∀ fuel ≥ n, ∀ k, Atags.calls mem fuel (tags.length + k) ⟨some a⟩ =
      some (tags.map some ++ List.replicate k none) := by
  induction h with
  | @last a htag =>
      refine ⟨0, fun fuel _ k => ?_⟩
      have hraw : Atag.ofRaw mem fuel a = some .none := by
        rw [Atag.ofRaw, htag]
        rfl
      have hnext : Atags.next mem fuel ⟨some a⟩ = some (some .none, ⟨none⟩) := by
        simp [Atags.next, hraw, htag]
      rw [show [Atag.none].length + k = k + 1 from Nat.add_comm 1 k, Atags.calls, hnext]
      simp [Atags.calls_end]
  | @cons a t tags ht _ ih =>
      obtain ⟨hne, m, hraw⟩ := ht.ofRaw
      obtain ⟨n, hrest⟩ := ih
      refine ⟨max m n, fun fuel hfuel k => ?_⟩
      have hnext : Atags.next mem fuel ⟨some a⟩ =
          some (some t, ⟨some (a + 4 * dwords mem a)⟩) := by
        simp [Atags.next, hraw fuel (by omega), rawNext, hne]
      rw [List.length_cons, show tags.length + 1 + k = tags.length + k + 1 by omega,
        Atags.calls, hnext]
      simp [hrest fuel (by omega) k]

/-- **Decoding inverts encoding.** Wherever the memory holds an encoded sequence of tags,
whatever comes after it, the calls of `next` from its first word on give exactly the
values of the tags in order, then `Atag::None` once, then nothing. -/
theorem atags_decode_encode (base : ℕ) (tags : List Tag) (count : UInt32)
    (h : Holds mem base (encode tags count)) :
    ∃ n, ∀ fuel ≥ n, ∀ k, Atags.calls mem fuel (tags.length + 1 + k) ⟨some base⟩ =
      some (tags.map (fun t => some t.value) ++ some .none :: List.replicate k none) := by
  obtain ⟨n, hcalls⟩ := (tagsAt_encode h).calls
  refine ⟨n, fun fuel hfuel k => ?_⟩
  have hk := hcalls fuel hfuel k
  rw [List.length_append, List.length_map] at hk
  rw [show tags.length + 1 + k = tags.length + [Atag.none].length + k from rfl, hk]
  simp [Function.comp_def]

end

/-- Memory with the given bytes from `base` on and zeros elsewhere. -/
def memoryWith (base : ℕ) (bytes : List UInt8) (a : ℕ) : UInt8 :=
  if a < base then 0 else bytes.getD (a - base) 0

/-- The memory made for some bytes holds them. -/
theorem holds_memoryWith (base : ℕ) (bytes : List UInt8) :
    Holds (memoryWith base bytes) base bytes := by
  -- the bytes before the current position are irrelevant
  suffices ∀ pre rest : List UInt8, pre ++ rest = bytes →
      Holds (memoryWith base bytes) (base + pre.length) rest from this [] bytes rfl
  intro pre rest h
  induction rest generalizing pre with
  | nil => trivial
  | cons b rest ih =>
      constructor
      · rw [memoryWith, if_neg (by omega), Nat.add_sub_cancel_left, ← h]
        simp
      · have hrest := ih (pre ++ [b]) (by rw [← h, List.append_assoc]; rfl)
        rwa [List.length_append] at hrest

/-- The tags of the test `test_atags`. -/
def testTags : List Tag :=
  [⟨.core 1 2 3, trivial, by decide⟩, ⟨.mem 1234 5678, trivial, by decide⟩,
    ⟨.other 0x54410004 [1010], by decide, by decide⟩,
    ⟨.cmdline [0x68, 0x65, 0x6c, 0x6c, 0x6f], by decide, by decide⟩,
    ⟨.other 0x54410007 [123, 456, 789], by decide, by decide⟩]

-- the words of the test's array `MEM`
example : encodeWords testTags 2 =
    [5, 0x54410001, 1, 2, 3, 4, 0x54410002, 1234, 5678, 3, 0x54410004, 1010,
      4, 0x54410009, 1819043176, 111, 5, 0x54410007, 123, 456, 789, 2, 0] := by
  decide

/-- The list of tags of the tests is read back, however often the iterator is asked afterwards. -/
theorem atags_decode_test :
    Holds (memoryWith 0x100 (encode testTags 2)) 0x100 (encode testTags 2) ∧
      ∃ n, ∀ fuel ≥ n, ∀ k, Atags.calls (memoryWith 0x100 (encode testTags 2)) fuel
          (testTags.length + 1 + k) ⟨some 0x100⟩ =
        some (testTags.map (fun t => some t.value) ++ some .none ::
          List.replicate k none) :=
  ⟨holds_memoryWith 0x100 _, atags_decode_encode 0x100 testTags 2 (holds_memoryWith 0x100 _)⟩

end OsLabs.MemoryMap
