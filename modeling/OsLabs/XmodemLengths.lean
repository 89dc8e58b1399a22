import OsLabs.XmodemLink

/-!
# Buffers Longer than a Packet

`write_packet` and `read_packet` refuse a buffer of less than 128 bytes and accept every
longer one. But they send and receive the whole buffer, not its first 128 bytes, while the
number they return is 128 all the same: a frame has the length of the buffer plus 4. So
both do what they promise for a buffer of exactly 128 bytes only.

Conventions: a call may be the first of a transfer or a later one, so the answer of the
receiver begins with its `NAK` if the transfer has not been started (`greeting`). A single
call of `write_packet` against one of `read_packet` is a network of two programs that each
end with the result of the call.

## Main results

* `writePacket_sends`, `readPacket_takes`: what the calls do with a buffer of any length.
* `writesFrame_iff`, `readsFrame_iff`: when that is a frame of 132 bytes.
* `transfers_packet`: one call against the other, for buffers of 128 bytes.
* `packet_contract_iff`: all of it together.
-/

namespace OsLabs.Xmodem

open Session

/-! ### What is promised -/

/-- `write_packet(buf)` emits the frame of the first 128 bytes, and nothing else, before it
waits for the answer and after an `ACK`; and then it returns `Ok(128)`. -/
structure WritesFrame (buf : List UInt8) (x : Xmodem) : Prop where
  sent : ∃ e x', Stalls (writePacket buf) x (greeting x) (frame x.packet (buf.take 128)) e x'
  acked : ∃ e x', Does (writePacket buf) x (greeting x ++ [ack])
    (frame x.packet (buf.take 128)) e (.ok 128) x'

/-- `read_packet(buf)` consumes a frame of 128 bytes, whatever they are, and nothing else; it
returns `Ok(128)` with these bytes at the beginning of the buffer and the rest of it as
before. -/
def ReadsFrame (buf : List UInt8) (x : Xmodem) : Prop :=
  ∀ payload : List UInt8, payload.length = 128 →
    ∃ e x', Does (readPacket buf) x (frame x.packet payload) (greeting x ++ [ack]) e
      (.ok (128, payload ++ buf.drop 128)) x'

/-- The two sides of a single packet. -/
def packetNetwork : Net IoError UInt8 Event Empty (Except IoError ℕ × Xmodem)
    Empty (Except IoError (ℕ × List UInt8) × Xmodem) Unit :=
  ⟨Empty.elim, Empty.elim, lossless⟩

/-- The end of a call. -/
def finish {α : Type} (a : α) : Talk (Empty ⊕ α) := .ret (.inr a)

/-- A program that is called once. -/
def once {α : Type} (p : Talk α) : Talk (Empty ⊕ α) := p.bind finish

/-- `write_packet(buf₁)` on one side, `read_packet(buf₂)` on the other. -/
def packetStart (buf₁ buf₂ : List UInt8) (x : Xmodem) :
    Config IoError UInt8 Event Empty (Except IoError ℕ × Xmodem)
      Empty (Except IoError (ℕ × List UInt8) × Xmodem) Unit :=
  ⟨once (writePacket buf₁ x), once (readPacket buf₂ x), [], [], (), [], []⟩

/-- Every interleaving ends, with `Ok(128)` on both sides and the first 128 bytes of `buf₁`
in place of those of `buf₂`. -/
def TransfersPacket (buf₁ buf₂ : List UInt8) (x : Xmodem) : Prop :=
  ∃ bound, ∀ m c, Path packetNetwork.stepLeft packetNetwork.stepRight m
      (packetStart buf₁ buf₂ x) c →
    m ≤ bound ∧ (Stuck packetNetwork.stepLeft packetNetwork.stepRight c →
      ∃ x₁ x₂ buf, c.left = .ret (.inr (.ok 128, x₁)) ∧
        c.right = .ret (.inr (.ok (128, buf), x₂)) ∧ buf.take 128 = buf₁.take 128)

/-- **The contract** of the packet functions, for two buffers: what they return, and what they
read and write. -/
structure PacketContract (buf₁ buf₂ : List UInt8) (x : Xmodem) : Prop where
  writes : WritesFrame buf₁ x
  reads : ReadsFrame buf₂ x
  transfers : TransfersPacket buf₁ buf₂ x

/-- A frame has four bytes besides its payload. -/
theorem length_frame (n : UInt8) (payload : List UInt8) :
    (frame n payload).length = payload.length + 4 := by
  simp [frame, rawFrame]

/-! ### What the code does -/

section

variable {buf payload : List UInt8}

/-- **`write_packet` sends the whole buffer**, of whatever length, in one frame. -/
theorem writePacket_sends (hbuf : 128 ≤ buf.length) (x : Xmodem) :
    (∃ e, Stalls (writePacket buf) x (greeting x) (frame x.packet buf) e ⟨x.packet, true⟩) ∧
      ∃ e, Does (writePacket buf) x (greeting x ++ [ack]) (frame x.packet buf) e (.ok 128)
        ⟨x.packet + 1, true⟩ := by
  obtain ⟨n, started⟩ := x
  cases started with
  | false =>
      have hstart := writePacket_start (Or.inl hbuf) n
      obtain ⟨k, hk, heof⟩ := writePacket_stalls hbuf n
      exact ⟨⟨_, k, hstart.trans hk, heof⟩, ⟨_, hstart.trans (writePacket_ack hbuf n)⟩⟩
  | true => exact ⟨⟨_, writePacket_stalls hbuf n⟩, ⟨_, writePacket_ack hbuf n⟩⟩

/-- **`read_packet` takes a frame of the length of the buffer.** -/
theorem readPacket_takes (hbuf : 128 ≤ buf.length) (hp : payload.length = buf.length)
    (x : Xmodem) :
    ∃ e, Does (readPacket buf) x (frame x.packet payload) (greeting x ++ [ack]) e
      (.ok (128, payload)) ⟨x.packet + 1, true⟩ :=
  readPacket_greeting hbuf (readPacket_good hbuf hp x.packet)

/-- After a shorter frame it waits for more. -/
theorem readPacket_waits (hbuf : 128 ≤ buf.length) (hp : payload.length < buf.length)
    (x : Xmodem) :
    ∃ w e k, Prog.Steps (readPacket buf x) (frame x.packet payload) w e (.read k) := by
  have hpart : (payload ++ [getChecksum payload]).length ≤ buf.length := by
    rw [List.length_append, List.length_singleton]
    omega
  obtain ⟨k, hk, heof⟩ := receivePayload_stalls hpart x.packet
  have hframe : Stalls (receiveFrame buf.length) ⟨x.packet, true⟩ _ [] [] ⟨x.packet, true⟩ :=
    ⟨k, receiveFrame_header hk, heof⟩
  obtain ⟨k', hk', -⟩ := hframe.first (f := fun buf => pure (128, buf))
  obtain ⟨e, hsteps⟩ := readPacket_greeting hbuf (readPacket_soh hbuf hk')
  exact ⟨_, e, k', hsteps⟩

/-! ### When that is what is promised -/

/-- **The frame that is sent** has 132 bytes only for a buffer of 128. -/
theorem writesFrame_iff (hbuf : 128 ≤ buf.length) (x : Xmodem) :
    WritesFrame buf x ↔ buf.length = 128 := by
  obtain ⟨⟨e, hwaits⟩, ⟨e', hacked⟩⟩ := writePacket_sends hbuf x
  constructor
  · rintro ⟨-, e'', x', hpromised⟩
    obtain ⟨hframe, -⟩ := Prog.Steps.ret_unique hacked hpromised
    have hlength := congrArg List.length hframe
    rw [length_frame, length_frame, List.length_take] at hlength
    omega
  · intro h
    have hall : buf.take 128 = buf := List.take_of_length_le (Nat.le_of_eq h)
    refine ⟨⟨e, ⟨x.packet, true⟩, ?_⟩, ⟨e', ⟨x.packet + 1, true⟩, ?_⟩⟩
    · rw [hall]
      exact hwaits
    · rw [hall]
      exact hacked

/-- **The frame that is consumed** has 132 bytes only for a buffer of 128. -/
theorem readsFrame_iff (hbuf : 128 ≤ buf.length) (x : Xmodem) :
    ReadsFrame buf x ↔ buf.length = 128 := by
  constructor
  · intro h
    by_contra hne
    have hzeros : (List.replicate 128 (0 : UInt8)).length = 128 := List.length_replicate
    have hshort : (List.replicate 128 (0 : UInt8)).length < buf.length := by omega
    obtain ⟨e, x', hpromised⟩ := h _ hzeros
    obtain ⟨w, e', k, hwaits⟩ := readPacket_waits hbuf hshort x
    exact Prog.Steps.not_ret hwaits hpromised
  · intro h payload hp
    obtain ⟨e, htakes⟩ := readPacket_takes hbuf (hp.trans h.symm) x
    have hnone : buf.drop 128 = [] := List.drop_of_length_le (Nat.le_of_eq h)
    refine ⟨e, ⟨x.packet + 1, true⟩, ?_⟩
    rw [hnone, List.append_nil]
    exact htakes

end

/-- **A packet of 128 bytes** is transferred, in every interleaving. -/
theorem transfers_packet {buf₁ buf₂ : List UInt8} (h₁ : buf₁.length = 128)
    (h₂ : buf₂.length = 128) (x : Xmodem) : TransfersPacket buf₁ buf₂ x := by
  have hle₁ : 128 ≤ buf₁.length := Nat.le_of_eq h₁.symm
  have hle₂ : 128 ≤ buf₂.length := Nat.le_of_eq h₂.symm
  obtain ⟨n, started⟩ := x
  -- from the moment when both sides know that the transfer has begun
  have hround : ∀ lo ro, ∃ lo' ro', packetNetwork.Reach
      ⟨once (writePacket buf₁ ⟨n, true⟩), once (readPacket buf₂ ⟨n, true⟩), [], [], (), lo, ro⟩
      ⟨.ret (.inr (.ok 128, ⟨n + 1, true⟩)), .ret (.inr (.ok (128, buf₁), ⟨n + 1, true⟩)), [],
        [], (), lo', ro'⟩ := by
    intro lo ro
    obtain ⟨k, hwait⟩ := (writePacket_stalls hle₁ n).waits finish
    exact ⟨_, _, Net.round hwait (Prog.Steps.bind (writePacket_ack hle₁ n) finish)
      (Net.carry_unchanged (fun _ => rfl) _)
      (Prog.Steps.bind (readPacket_good hle₂ (h₁.trans h₂.symm) n) finish) lo ro⟩
  have hreach : ∃ lo ro, packetNetwork.Reach (packetStart buf₁ buf₂ ⟨n, started⟩)
      ⟨.ret (.inr (.ok 128, ⟨n + 1, true⟩)), .ret (.inr (.ok (128, buf₁), ⟨n + 1, true⟩)), [],
        [], (), lo, ro⟩ := by
    cases started with
    | false =>
        have hasked : packetNetwork.Reach (packetStart buf₁ buf₂ ⟨n, false⟩) _ :=
          Net.exchange (Prog.Steps.refl _) rfl
            (Prog.Steps.bind (readPacket_start hle₂ n) finish) [] []
        have hstarted := hasked.trans (Net.exchange
          (Prog.Steps.bind (writePacket_start (Or.inl hle₁) n) finish) rfl (Prog.Steps.refl _) _ _)
        obtain ⟨lo, ro, hrest⟩ := hround _ _
        exact ⟨lo, ro, hstarted.trans hrest⟩
    | true => exact hround [] []
  obtain ⟨lo, ro, hreach⟩ := hreach
  obtain ⟨bound, hbound⟩ := Net.settles hreach ⟨rfl, rfl⟩
  refine ⟨bound, fun m c hc => ?_⟩
  obtain ⟨hm, -, hend⟩ := hbound m c hc
  refine ⟨hm, fun hstuck => ?_⟩
  obtain rfl := hend hstuck
  exact ⟨_, _, buf₁, rfl, rfl, rfl⟩

/-- **When the packet functions keep their contract.** For all buffers they accept and all
states of the two sides: if and only if both buffers have exactly 128 bytes. -/
theorem packet_contract_iff {buf₁ buf₂ : List UInt8} (h₁ : 128 ≤ buf₁.length)
    (h₂ : 128 ≤ buf₂.length) (x : Xmodem) :
    PacketContract buf₁ buf₂ x ↔ buf₁.length = 128 ∧ buf₂.length = 128 := by
  constructor
  · intro h
    exact ⟨(writesFrame_iff h₁ x).mp h.writes, (readsFrame_iff h₂ x).mp h.reads⟩
  · rintro ⟨hlen₁, hlen₂⟩
    exact ⟨(writesFrame_iff h₁ x).mpr hlen₁, (readsFrame_iff h₂ x).mpr hlen₂,
      transfers_packet hlen₁ hlen₂ x⟩

/-- Two buffers of 128 zeroes, at the first packet. -/
theorem packet_contract_zeroes :
    PacketContract (List.replicate 128 0) (List.replicate 128 0) new :=
  (packet_contract_iff (by simp) (by simp) new).mpr ⟨by simp, by simp⟩

/-- **The defect**: for a buffer of 129 bytes `write_packet` sends a frame of 133 bytes and
`read_packet` waits for one. -/
theorem packet_contract_broken :
    ¬ WritesFrame (List.replicate 129 0) new ∧ ¬ ReadsFrame (List.replicate 129 0) new ∧
      ¬ ∀ (buf₁ buf₂ : List UInt8) (x : Xmodem), 128 ≤ buf₁.length → 128 ≤ buf₂.length →
        PacketContract buf₁ buf₂ x := by
  have hle : 128 ≤ (List.replicate 129 (0 : UInt8)).length := by simp
  have hwrites : ¬ WritesFrame (List.replicate 129 0) new := by
    rw [writesFrame_iff hle]
    simp
  refine ⟨hwrites, ?_, fun h => hwrites (h _ _ new hle hle).writes⟩
  rw [readsFrame_iff hle]
  simp

end OsLabs.Xmodem
