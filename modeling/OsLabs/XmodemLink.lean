import OsLabs.Network
import OsLabs.XmodemTransmitter

/-!
# Links between the Two Sides of XMODEM

`Xmodem::transmit` and `Xmodem::receive` as the two parties of a network, with a link
that carries the bytes of the transmitter: `lossless` as they are, and `Noise.send` with
at most one damaged byte in each transmission of a packet. The bytes of the receiver
arrive as they are sent.

## Main results

* `getChecksum_alter`: the checksum detects every change of one byte.
* `carries_lossless`, `Noise.carries`: what either link makes of a frame.
-/

namespace OsLabs.Xmodem

open Session

/-- The two sides of a transfer, over the link `send`. -/
def network {τ : Type} (send : τ → UInt8 → UInt8 × τ) :
    Net IoError UInt8 Event Transmit (Except IoError ℕ) Receive (Except IoError ℕ) τ :=
  ⟨transmitTurn, receiveTurn, send⟩

/-- Both sides are called, and nothing is in flight. -/
def start {τ : Type} (data : Reader) (link : τ) :
    Config IoError UInt8 Event Transmit (Except IoError ℕ) Receive (Except IoError ℕ) τ :=
  ⟨transmit data, receive, [], [], link, [], []⟩

/-- The link that changes nothing. -/
def lossless (link : Unit) (b : UInt8) : UInt8 × Unit := (b, link)

/-! ### Noise -/

/-- A change of one of the 128 bytes of a payload or of the checksum after them. -/
structure Fault where
  position : Fin 129
  delta : UInt8
  delta_ne : delta ≠ 0

/-- What a noisy link knows of the bytes it has carried: where in a frame the next byte
is, the number of the last frame, how many packets there have been, and how often the
last one has been sent again. -/
structure Noise where
  offset : ℕ
  number : UInt8
  packet : ℕ
  attempt : ℕ

/-- A byte of the payload or the checksum, on the link. -/
def alter (fault : Option Fault) (position : ℕ) (b : UInt8) : UInt8 :=
  match fault with
  | none => b
  | some f => if position = f.position then b + f.delta else b

namespace Noise

/-- Before the first packet. -/
def initial : Noise := ⟨0, 0, 0, 0⟩

/-- A frame is a new attempt at the last packet if it has its number, and otherwise the
next packet. -/
def observe (link : Noise) (number : UInt8) : Noise :=
  if number = link.number then
    { link with attempt := link.attempt + 1 }
  else
    ⟨link.offset, number, link.packet + 1, 0⟩

/-- A noisy link: attempt `a` at packet `i` suffers `faults i a`. -/
def send (faults : ℕ → ℕ → Option Fault) (link : Noise) (b : UInt8) : UInt8 × Noise :=
  match link.offset with
  | 0 => (b, if b = soh then { link with offset := 1 } else link)
  | 1 => (b, { link.observe b with offset := 2 })
  | 2 => (b, { link with offset := 3 })
  | position + 3 =>
    (alter (faults link.packet link.attempt) position b,
      { link with offset := if position = 128 then 0 else position + 4 })

end Noise

/-! ### Damaged frames -/

/-- The bytes from `position` on, as they arrive. -/
def damage (fault : Option Fault) (position : ℕ) : List UInt8 → List UInt8
  | [] => []
  | b :: w => alter fault position b :: damage fault (position + 1) w

/-- Without a fault the bytes arrive as they were sent. -/
theorem damage_none (position : ℕ) (w : List UInt8) : damage none position w = w := by
  induction w generalizing position with
  | nil => rfl
  | cons b w ih => rw [damage, ih, alter]

/-- Behind its position a fault changes nothing. -/
theorem damage_behind {f : Fault} {position : ℕ} (h : f.position < position) (w : List UInt8) :
    damage (some f) position w = w := by
  induction w generalizing position with
  | nil => rfl
  | cons b w ih =>
      rw [damage, ih (Nat.lt_succ_of_lt h), alter, if_neg (Nat.ne_of_gt h)]

/-- A fault changes one byte of what is sent, and leaves the others as they are. -/
theorem damage_some {f : Fault} {position : ℕ} {w : List UInt8} (hfrom : position ≤ f.position)
    (hto : f.position < position + w.length) :
    ∃ w₁ b w₂, w = w₁ ++ b :: w₂ ∧ damage (some f) position w = w₁ ++ (b + f.delta) :: w₂ := by
  induction w generalizing position with
  | nil =>
      rw [List.length_nil] at hto
      omega
  | cons b w ih =>
      rw [List.length_cons] at hto
      rcases Nat.eq_or_lt_of_le hfrom with heq | hlt
      · refine ⟨[], b, w, rfl, ?_⟩
        rw [damage, damage_behind (by omega), alter, if_pos heq]
        rfl
      · obtain ⟨w₁, c, w₂, rfl, hdamage⟩ := ih hlt (by omega)
        refine ⟨b :: w₁, c, w₂, rfl, ?_⟩
        rw [damage, hdamage, alter, if_neg (Nat.ne_of_lt hlt)]
        rfl

/-- A checksum is the sum of those of the parts. -/
theorem getChecksum_append (w w' : List UInt8) :
    getChecksum (w ++ w') = getChecksum w + getChecksum w' := by
  have hfold : ∀ (w : List UInt8) (a : UInt8),
      w.foldl (fun a b => a + b) a = a + getChecksum w := by
    intro w
    induction w with
    | nil =>
        intro a
        exact (UInt8.add_zero a).symm
    | cons b w ih =>
        intro a
        rw [getChecksum, List.foldl_cons, List.foldl_cons, ih, ih, UInt8.zero_add,
          UInt8.add_assoc]
  rw [getChecksum, List.foldl_append, hfold]
  rfl

/-- One more byte is added to the checksum of the others. -/
theorem getChecksum_cons (b : UInt8) (w : List UInt8) :
    getChecksum (b :: w) = b + getChecksum w := by
  have hone : getChecksum [b] = b := UInt8.zero_add b
  rw [← List.singleton_append, getChecksum_append, hone]

/-- **The checksum detects every change of one byte.** -/
theorem getChecksum_alter (w₁ w₂ : List UInt8) (b : UInt8) {delta : UInt8} (h : delta ≠ 0) :
    getChecksum (w₁ ++ (b + delta) :: w₂) ≠ getChecksum (w₁ ++ b :: w₂) := by
  rw [getChecksum_append, getChecksum_append, getChecksum_cons, getChecksum_cons]
  grind

/-- A damaged frame has a wrong checksum. -/
theorem exists_damaged (f : Fault) {payload : List UInt8} (hp : payload.length = 128) :
    ∃ payload' c, payload'.length = 128 ∧ c ≠ getChecksum payload' ∧
      damage (some f) 0 (payload ++ [getChecksum payload]) = payload' ++ [c] := by
  have hlength : (payload ++ [getChecksum payload]).length = 129 := by
    rw [List.length_append, hp, List.length_singleton]
  have hposition : (f.position : ℕ) < 0 + (payload ++ [getChecksum payload]).length := by
    rw [hlength, Nat.zero_add]
    exact f.position.isLt
  obtain ⟨w₁, b, w₂, hsplit, hdamage⟩ := damage_some (Nat.zero_le _) hposition
  rcases List.eq_nil_or_concat w₂ with rfl | ⟨w₂, c, rfl⟩
  · -- the fault hits the checksum
    obtain ⟨rfl, hb⟩ := List.append_inj' hsplit rfl
    rw [List.cons.injEq] at hb
    obtain ⟨rfl, -⟩ := hb
    refine ⟨payload, getChecksum payload + f.delta, hp, ?_, hdamage⟩
    have := f.delta_ne
    grind
  · -- the fault hits the payload
    rw [List.concat_eq_append, ← List.cons_append, ← List.append_assoc] at hsplit hdamage
    obtain ⟨rfl, hc⟩ := List.append_inj' hsplit rfl
    rw [List.cons.injEq] at hc
    refine ⟨w₁ ++ (b + f.delta) :: w₂, c, ?_, ?_, hdamage⟩
    · rw [← hp, List.length_append, List.length_append, List.length_cons, List.length_cons]
    · rw [← hc.1]
      exact (getChecksum_alter w₁ w₂ b f.delta_ne).symm

/-! ### What the links carry -/

/-- What the two sides rely on: the link carries an `EOT` and the frames of the packets,
and it damages attempt `a` at packet `i` if `faulty i a`, so that its checksum is wrong.
`ready n i a link` when the next frame has the number `n` and is attempt `a` at packet
`i`. -/
structure Carries {τ : Type} (send : τ → UInt8 → UInt8 × τ) (faulty : ℕ → ℕ → Prop)
    (ready : UInt8 → ℕ → ℕ → τ → Prop) : Prop where
  eot {n : UInt8} {i a : ℕ} {link : τ} (hready : ready n i a link) : send link eot = (eot, link)
  intact {n : UInt8} {i a : ℕ} {link : τ} {payload : List UInt8} (hready : ready n i a link)
    (hfaulty : ¬ faulty i a) (hp : payload.length = 128) :
    ∃ link', (network send).carry link (frame n payload) = (frame n payload, link') ∧
      ready (n + 1) (i + 1) 0 link'
  damaged {n : UInt8} {i a : ℕ} {link : τ} {payload : List UInt8} (hready : ready n i a link)
    (hfaulty : faulty i a) (hp : payload.length = 128) :
    ∃ payload' c link', (network send).carry link (frame n payload) =
        (rawFrame n payload' c, link') ∧
      payload'.length = 128 ∧ c ≠ getChecksum payload' ∧ ready n i (a + 1) link'

/-- **The lossless link** carries every frame and every reply as it was sent. -/
theorem carries_lossless : Carries lossless (fun _ _ => False) fun _ _ _ _ => True where
  eot _ := rfl
  intact _ _ _ := ⟨(), Net.carry_unchanged (fun _ => rfl) _, trivial⟩
  damaged _ h _ := h.elim

namespace Noise

variable {faults : ℕ → ℕ → Option Fault}

/-- A byte of the payload or the checksum, which a fault may alter. -/
theorem send_body (position : ℕ) (n : UInt8) (i a : ℕ) (b : UInt8) :
    send faults ⟨position + 3, n, i, a⟩ b =
      (alter (faults i a) position b, ⟨if position = 128 then 0 else position + 4, n, i, a⟩) := rfl

/-- The payload and the checksum of a frame. -/
theorem carry_body {w : List UInt8} {position : ℕ} (hne : w ≠ [])
    (hw : position + w.length = 129) (n : UInt8) (i a : ℕ) :
    (network (send faults)).carry ⟨position + 3, n, i, a⟩ w =
      (damage (faults i a) position w, ⟨0, n, i, a⟩) := by
  induction w generalizing position with
  | nil => exact absurd rfl hne
  | cons b w ih =>
      rw [List.length_cons] at hw
      rw [Net.carry, damage]
      simp only [network, send_body]
      rcases w with - | ⟨c, w⟩
      · have hlast : position = 128 := by
          rw [List.length_nil] at hw
          omega
        rw [if_pos hlast]
        rfl
      · have hmore : position ≠ 128 := by
          rw [List.length_cons] at hw
          omega
        have hlength : position + 1 + (c :: w).length = 129 := by omega
        have hrest := ih (List.cons_ne_nil c w) hlength
        rw [network] at hrest
        rw [if_neg hmore, hrest]

/-- The next frame has the number `n` and is attempt `a` at packet `i`. -/
def Ready (n : UInt8) (i a : ℕ) (link : Noise) : Prop := link.observe n = ⟨0, n, i, a⟩

/-- Between packets the link stands at the beginning of a frame. -/
theorem Ready.offset {n : UInt8} {i a : ℕ} {link : Noise} (h : Ready n i a link) :
    link.offset = 0 := by
  have hkeep : (link.observe n).offset = link.offset := by
    rw [observe]
    split <;> rfl
  rw [← hkeep, h]

/-- What the link learns from the receiver does not depend on where it stands in a frame. -/
theorem observe_offset (link : Noise) (offset : ℕ) (n : UInt8) :
    observe { link with offset := offset } n = { observe link n with offset := offset } := by
  rw [observe, observe]
  split <;> rfl

/-- A whole frame is carried at once, with the fault of the attempt in it, if there is one. -/
theorem Ready.carry_frame {n : UInt8} {i a : ℕ} {link : Noise} (h : Ready n i a link)
    (faults : ℕ → ℕ → Option Fault) {payload : List UInt8} (hp : payload.length = 128) :
    (network (send faults)).carry link (frame n payload) =
      (soh :: n :: (255 - n) :: damage (faults i a) 0 (payload ++ [getChecksum payload]),
        ⟨0, n, i, a⟩) := by
  have hlength : 0 + (payload ++ [getChecksum payload]).length = 129 := by
    rw [List.length_append, hp, List.length_singleton]
  have hbody : (network (send faults)).carry ⟨3, n, i, a⟩ _ = _ :=
    carry_body (List.ne_nil_of_length_pos (by omega)) hlength n i a
  have hsoh : send faults link soh = (soh, { link with offset := 1 }) := by
    rw [send, h.offset]
    rfl
  have hnumber : send faults { link with offset := 1 } n = (n, ⟨2, n, i, a⟩) := by
    rw [send]
    simp only [observe_offset]
    rw [h]
  have hcomplement : send faults ⟨2, n, i, a⟩ (255 - n) = (255 - n, ⟨3, n, i, a⟩) := rfl
  rw [network] at hbody ⊢
  rw [frame, rawFrame, Net.carry, Net.carry, Net.carry]
  simp only [hsoh, hnumber, hcomplement, hbody]

/-- **The noisy link** carries a frame intact if the attempt has no fault, and otherwise with a
wrong checksum. -/
theorem carries : Carries (send faults) (fun i a => faults i a ≠ none) Ready where
  eot := by
    intro n i a link h
    rw [send, h.offset]
    rfl
  intact := by
    intro n i a link payload h hfault hp
    have hframe := h.carry_frame faults hp
    rw [not_not.mp hfault, damage_none] at hframe
    refine ⟨⟨0, n, i, a⟩, hframe, ?_⟩
    rw [Ready, observe, if_neg (by grind)]
  damaged := by
    intro n i a link payload h hfault hp
    obtain ⟨f, hf⟩ := Option.ne_none_iff_exists'.mp hfault
    have hframe := h.carry_frame faults hp
    obtain ⟨payload', c, hp', hc, hdamage⟩ := exists_damaged f hp
    rw [hf, hdamage] at hframe
    refine ⟨payload', c, ⟨0, n, i, a⟩, hframe, hp', hc, ?_⟩
    rw [Ready, observe, if_pos rfl]

/-- At the start the link is ready for packet 1. -/
theorem ready_initial : Ready 1 1 0 initial := rfl

end Noise

end OsLabs.Xmodem
