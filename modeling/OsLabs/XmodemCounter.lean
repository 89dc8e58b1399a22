import OsLabs.FailingStream
import OsLabs.XmodemPackets

/-!
# The Packet Number after a Failed Call

`read_packet` and `write_packet` can fail at every access to the inner stream, and a caller
that tries again goes on with the packet number they leave behind. `write_packet` increases
it when the packet has been acknowledged, as its last action. `read_packet` increases it
before it sends the acknowledgement: when the stream takes a whole good packet from the
transmitter and then fails to take the `ACK`, the call fails and the number has moved on.

Conventions: the inner stream is any `Channel`, so it may fail at any byte of any read or
write and go on in any way afterwards.

## Main results

* `Ends.bind_inv`: how a session ends that continues another one.
* `Keeps`: sessions that leave the packet number as it is, by the way they are composed.
* `writePacket_counts`: `write_packet` counts the packets it returns `Ok(128)` for.
* `readPacket_ends`: the ends of `read_packet`.
* `packet_counter`: when `read_packet` counts the packets it returns `Ok(128)` for.
-/

namespace OsLabs.Xmodem

open Session

variable {σ α γ : Type} {S : Channel IoError UInt8 σ} {x x' : Xmodem} {s s' : σ}

/-- A call of the session `m` in state `x`, on the stream `S` in state `s`, returns `r`. -/
def Session.Ends (S : Channel IoError UInt8 σ) (m : Session α) (x : Xmodem) (s : σ)
    (r : Except IoError α) (x' : Xmodem) (s' : σ) : Prop :=
  (m x).runOn S s = ((r, x'), s')

/-- **The property** of a call that returns `r`, as to the count. -/
structure CountsSuccess (x x' : Xmodem) (r : Except IoError ℕ) : Prop where
  error : ∀ e, r = .error e → x'.packet = x.packet
  eot : r = .ok 0 → x'.packet = x.packet
  packet : r = .ok 128 → x'.packet = x.packet + 1

/-- **The failing streams**: after the greeting the stream gives a whole good packet with the
number that is expected, and then does not take the `ACK`. -/
def AckLost (S : Channel IoError UInt8 σ) (buf : List UInt8) (x : Xmodem) (s : σ) : Prop :=
  128 ≤ buf.length ∧ ∃ s₁ s₂ payload e, payload.length = buf.length ∧
    S.Takes s (greeting x) s₁ ∧ S.Gives s₁ (frame x.packet payload) s₂ ∧
    (S.write ack s₂).1 = .error e

/-! ### Ends of sessions -/

/-- **How a composed session ends**: with an error of its first part, or as its second part
ends after the first has succeeded. -/
theorem Session.Ends.bind_inv {m : Session α} {f : α → Session γ} {r : Except IoError γ}
    (h : Ends S (m >>= f) x s r x' s') :
    (∃ e, r = .error e ∧ Ends S m x s (.error e) x' s') ∨
      ∃ a x₁ s₁, Ends S m x s (.ok a) x₁ s₁ ∧ Ends S (f a) x₁ s₁ r x' s' := by
  have hrun := (Prog.runOn_bind (S := S) (m x) _ s).symm.trans h
  rcases hm : (m x).runOn S s with ⟨⟨r₁, x₁⟩, s₁⟩
  rw [hm] at hrun
  cases r₁ with
  | error e =>
      simp only [Prog.runOn, Prod.mk.injEq] at hrun
      obtain ⟨⟨rfl, rfl⟩, rfl⟩ := hrun
      exact Or.inl ⟨e, rfl, hm⟩
  | ok a => exact Or.inr ⟨a, x₁, s₁, hm, hrun⟩

/-- A composed session that succeeds: both of its parts do. -/
theorem Session.Ends.bind_ok {m : Session α} {f : α → Session γ} {c : γ}
    (h : Ends S (m >>= f) x s (.ok c) x' s') :
    ∃ a x₁ s₁, Ends S m x s (.ok a) x₁ s₁ ∧ Ends S (f a) x₁ s₁ (.ok c) x' s' := by
  rcases h.bind_inv with ⟨e, he, -⟩ | hparts
  · cases he
  · exact hparts

/-- A session that does nothing ends as it began. -/
theorem ends_pure {a : α} {r : Except IoError α} (h : Ends S (pure a) x s r x' s') :
    r = .ok a ∧ x' = x ∧ s' = s := by
  obtain ⟨hr, rfl⟩ := Prod.mk.inj h
  obtain ⟨rfl, rfl⟩ := Prod.mk.inj hr
  exact ⟨rfl, rfl, rfl⟩

/-- A session that fails leaves the packet number alone. -/
theorem ends_fail {kind : ErrorKind} {message : String} {r : Except IoError α}
    (h : Ends S (fail kind message) x s r x' s') : ∃ e, r = .error e ∧ x' = x := by
  obtain ⟨hr, -⟩ := Prod.mk.inj h
  obtain ⟨rfl, rfl⟩ := Prod.mk.inj hr
  exact ⟨_, rfl, rfl⟩

/-- A session that fails does not succeed. -/
theorem not_ends_fail {kind : ErrorKind} {message : String} {a : α} :
    ¬ Ends S (fail kind message) x s (.ok a) x' s' := by
  intro h
  obtain ⟨e, he, -⟩ := ends_fail h
  cases he

/-- One access to the stream, whose result is the result of the session. -/
theorem ends_readOne {r : Except IoError UInt8} (h : Ends S readOne x s r x' s') :
    S.read s = (r, s') ∧ x' = x := by
  obtain ⟨hr, rfl⟩ := Prod.mk.inj h
  obtain ⟨rfl, rfl⟩ := Prod.mk.inj hr
  exact ⟨rfl, rfl⟩

/-- The same for the write of one byte. -/
theorem ends_writeOne {b : UInt8} {r : Except IoError Unit}
    (h : Ends S (writeOne b) x s r x' s') : S.write b s = (r, s') ∧ x' = x := by
  obtain ⟨hr, rfl⟩ := Prod.mk.inj h
  obtain ⟨rfl, rfl⟩ := Prod.mk.inj hr
  exact ⟨rfl, rfl⟩

/-! ### Sessions that keep the number -/

/-- However the session ends, the packet number is as before. -/
def Keeps (m : Session α) : Prop :=
  ∀ {σ : Type} (S : Channel IoError UInt8 σ) (x : Xmodem) (s : σ) (r : Except IoError α)
    (x' : Xmodem) (s' : σ), Ends S m x s r x' s' → x'.packet = x.packet

/-- Two sessions in a row keep the packet number if both do. -/
theorem keeps_bind {m : Session α} {f : α → Session γ} (hm : Keeps m)
    (hf : ∀ a, Keeps (f a)) : Keeps (m >>= f) := by
  intro σ S x s r x' s' h
  rcases h.bind_inv with ⟨e, -, h⟩ | ⟨a, x₁, s₁, h, hrest⟩
  · exact hm S x s _ x' s' h
  · exact (hf a S x₁ s₁ r x' s' hrest).trans (hm S x s _ x₁ s₁ h)

/-- No access to the stream, no change of the number. -/
theorem keeps_pure (a : α) : Keeps (pure a) := by
  intro σ S x s r x' s' h
  rw [(ends_pure h).2.1]

/-- The number is kept where a call is given up. -/
theorem keeps_fail (kind : ErrorKind) (message : String) :
    Keeps (fail kind message : Session α) := by
  intro σ S x s r x' s' h
  obtain ⟨e, -, rfl⟩ := ends_fail h
  rfl

/-- To read the state does not change it. -/
theorem keeps_get : Keeps get := by
  intro σ S x s r x' s' h
  cases h
  rfl

/-- To begin the transmission does not count a packet. -/
theorem keeps_setStarted : Keeps setStarted := by
  intro σ S x s r x' s' h
  cases h
  rfl

/-- The callback does not change the number. -/
theorem keeps_report (p : Progress) : Keeps (report p) := by
  intro σ S x s r x' s' h
  cases h
  rfl

/-- Reading a byte keeps the packet number. -/
theorem keeps_readOne : Keeps readOne := by
  intro σ S x s r x' s' h
  rw [(ends_readOne h).2]

/-- Writing a byte keeps the packet number. -/
theorem keeps_writeByte (b : UInt8) : Keeps (writeByte b) := by
  intro σ S x s r x' s' h
  rw [(ends_writeOne h).2]

/-- A byte that may be a `CAN` is read without counting a packet. -/
theorem keeps_readByte (abortOnCan : Bool) : Keeps (readByte abortOnCan) := by
  refine keeps_bind keeps_readOne fun b => ?_
  split
  · exact keeps_fail _ _
  · exact keeps_pure b

/-- So is one that has to be a certain byte. -/
theorem keeps_expectByte (byte : UInt8) (expected : String) :
    Keeps (expectByte byte expected) := by
  refine keeps_bind (keeps_readByte false) fun b => ?_
  split
  · exact keeps_pure b
  · split
    · exact keeps_fail _ _
    · exact keeps_fail _ _

/-- Cancelling after a wrong byte counts no packet either. -/
theorem keeps_expectByteOrCancel (byte : UInt8) (expected : String) :
    Keeps (expectByteOrCancel byte expected) := by
  refine keeps_bind (keeps_readByte false) fun b => ?_
  split
  · exact keeps_pure b
  · refine keeps_bind (keeps_writeByte can) fun _ => ?_
    split
    · exact keeps_fail _ _
    · exact keeps_fail _ _

/-- A buffer is read byte by byte, and each of them keeps the number. -/
theorem keeps_readExact (n : ℕ) : Keeps (readExact n) := by
  induction n with
  | zero => exact keeps_pure []
  | succ n ih => exact keeps_bind keeps_readOne fun b => keeps_bind ih fun buf => keeps_pure _

/-- The same for a buffer that is written. -/
theorem keeps_writeAll (buf : List UInt8) : Keeps (writeAll buf) := by
  induction buf with
  | nil => exact keeps_pure ()
  | cons b buf ih => exact keeps_bind (keeps_writeByte b) fun _ => ih

/-- The greeting of the receiver counts no packet. -/
theorem keeps_startReceive : Keeps startReceive := by
  refine keeps_bind keeps_get fun x => ?_
  split
  · exact keeps_pure ()
  · exact keeps_bind (keeps_writeByte nak) fun _ =>
      keeps_bind keeps_setStarted fun _ => keeps_report _

/-- The end of a transmission is no packet for the receiver. -/
theorem keeps_finishReceive : Keeps finishReceive :=
  keeps_bind (keeps_writeByte nak) fun _ =>
    keeps_bind (keeps_expectByte _ _) fun _ => keeps_writeByte ack

/-- The greeting of the transmitter counts none either. -/
theorem keeps_startTransmit : Keeps startTransmit := by
  refine keeps_bind keeps_get fun x => ?_
  split
  · exact keeps_pure ()
  · exact keeps_bind (keeps_report _) fun _ => keeps_bind (keeps_expectByte _ _) fun _ =>
      keeps_bind keeps_setStarted fun _ => keeps_report _

/-- It is no packet for the transmitter either. -/
theorem keeps_finishTransmit : Keeps finishTransmit :=
  keeps_bind (keeps_writeByte eot) fun _ => keeps_bind (keeps_expectByte _ _) fun _ =>
    keeps_bind (keeps_writeByte eot) fun _ => keeps_bind (keeps_expectByte _ _) fun _ =>
      keeps_pure ()

/-- The number is kept while a packet is sent; `write_packet` counts it after the `ACK`. -/
theorem keeps_sendFrame (buf : List UInt8) : Keeps (sendFrame buf) :=
  keeps_bind keeps_get fun x => keeps_bind (keeps_writeByte soh) fun _ =>
    keeps_bind (keeps_writeByte x.packet) fun _ =>
      keeps_bind (keeps_writeByte (255 - x.packet)) fun _ =>
        keeps_bind (keeps_writeAll buf) fun _ => keeps_writeByte _

/-! ### Sending -/

/-- The answer to a packet: the number changes exactly if it is an `ACK`. -/
theorem ends_awaitReply {r : Except IoError Unit} (h : Ends S awaitReply x s r x' s') :
    (∃ e, r = .error e ∧ x'.packet = x.packet) ∨ (r = .ok () ∧ x'.packet = x.packet + 1) := by
  rcases h.bind_inv with ⟨e, hr, hfailed⟩ | ⟨b, x₁, s₁, hb, hreply⟩
  · exact Or.inl ⟨e, hr, keeps_readByte true S x s _ x' s' hfailed⟩
  have hkept := keeps_readByte true S x s _ x₁ s₁ hb
  split at hreply
  · cases hreply
    exact Or.inr ⟨rfl, by rw [← hkept]⟩
  split at hreply
  · obtain ⟨e, hr, rfl⟩ := ends_fail hreply
    exact Or.inl ⟨e, hr, hkept⟩
  · rcases hreply.bind_inv with ⟨e, hr, hfailed⟩ | ⟨⟨⟩, x₂, s₂, hcan, hend⟩
    · exact Or.inl ⟨e, hr, (keeps_writeByte can S x₁ s₁ _ x' s' hfailed).trans hkept⟩
    · obtain ⟨e, hr, rfl⟩ := ends_fail hend
      exact Or.inl ⟨e, hr, (keeps_writeByte can S x₁ s₁ _ x' s₂ hcan).trans hkept⟩

/-- An error, or `Ok(0)`, with the number as before. -/
theorem CountsSuccess.of_kept {r : Except IoError ℕ} (hkept : x'.packet = x.packet)
    (hr : (∃ e, r = .error e) ∨ r = .ok 0) : CountsSuccess x x' r := by
  refine ⟨fun _ _ => hkept, fun _ => hkept, fun h => ?_⟩
  subst h
  rcases hr with ⟨e, he⟩ | h0
  · cases he
  · cases h0

/-- **`write_packet` counts its successes**, on every stream. -/
theorem writePacket_counts {buf : List UInt8} {r : Except IoError ℕ}
    (h : Ends S (writePacket buf) x s r x' s') : CountsSuccess x x' r := by
  rw [writePacket] at h
  split at h
  · obtain ⟨e, hr, rfl⟩ := ends_fail h
    exact CountsSuccess.of_kept rfl (Or.inl ⟨e, hr⟩)
  rcases h.bind_inv with ⟨e, hr, hfailed⟩ | ⟨⟨⟩, x₁, s₁, hstart, hrest⟩
  · exact CountsSuccess.of_kept (keeps_startTransmit S x s _ x' s' hfailed) (Or.inl ⟨e, hr⟩)
  have hkept₁ := keeps_startTransmit S x s _ x₁ s₁ hstart
  split at hrest
  · rcases hrest.bind_inv with ⟨e, hr, hfailed⟩ | ⟨⟨⟩, x₂, s₂, hfinish, hend⟩
    · exact CountsSuccess.of_kept ((keeps_finishTransmit S x₁ s₁ _ x' s' hfailed).trans hkept₁)
        (Or.inl ⟨e, hr⟩)
    · obtain ⟨hr, rfl, -⟩ := ends_pure hend
      exact CountsSuccess.of_kept ((keeps_finishTransmit S x₁ s₁ _ x' s₂ hfinish).trans hkept₁)
        (Or.inr hr)
  · rcases hrest.bind_inv with ⟨e, hr, hfailed⟩ | ⟨⟨⟩, x₂, s₂, hsent, hanswer⟩
    · exact CountsSuccess.of_kept ((keeps_sendFrame buf S x₁ s₁ _ x' s' hfailed).trans hkept₁)
        (Or.inl ⟨e, hr⟩)
    have hkept₂ := (keeps_sendFrame buf S x₁ s₁ _ x₂ s₂ hsent).trans hkept₁
    rcases hanswer.bind_inv with ⟨e, hr, hfailed⟩ | ⟨⟨⟩, x₃, s₃, hreply, hend⟩
    · rcases ends_awaitReply hfailed with ⟨-, -, hsame⟩ | ⟨hok, -⟩
      · exact CountsSuccess.of_kept (hsame.trans hkept₂) (Or.inl ⟨e, hr⟩)
      · cases hok
    · obtain ⟨rfl, rfl, -⟩ := ends_pure hend
      rcases ends_awaitReply hreply with ⟨e, he, -⟩ | ⟨-, hnext⟩
      · cases he
      · rw [hkept₂] at hnext
        exact ⟨fun _ he => (by cases he), fun h0 => (by cases h0), fun _ => hnext⟩

/-! ### Receiving -/

/-- A byte that has been read is what the stream has given, and nothing else has happened. -/
theorem ends_readByte {b : UInt8} {abortOnCan : Bool}
    (h : Ends S (readByte abortOnCan) x s (.ok b) x' s') :
    x' = x ∧ (S.read s).1 = .ok b ∧ (S.read s).2 = s' := by
  obtain ⟨b', x₁, s₁, hb, hend⟩ := h.bind_ok
  obtain ⟨hread, hx₁⟩ := ends_readOne hb
  rw [hread]
  split at hend
  · exact absurd hend not_ends_fail
  · obtain ⟨hok, hx', hs'⟩ := ends_pure hend
    exact ⟨hx'.trans hx₁, hok.symm, hs'.symm⟩

/-- If the byte is the expected one, nothing else has happened. -/
theorem ends_expectByteOrCancel {b byte : UInt8} {expected : String}
    (h : Ends S (expectByteOrCancel byte expected) x s (.ok b) x' s') :
    x' = x ∧ (S.read s).1 = .ok byte ∧ (S.read s).2 = s' := by
  obtain ⟨b', x₁, s₁, hb, hend⟩ := h.bind_ok
  obtain ⟨hx₁, hread, hs₁⟩ := ends_readByte hb
  split at hend
  · rename_i hbyte
    obtain ⟨-, hx', hs'⟩ := ends_pure hend
    exact ⟨hx'.trans hx₁, hbyte ▸ hread, hs₁.trans hs'.symm⟩
  · obtain ⟨⟨⟩, x₂, s₂, -, hfail⟩ := hend.bind_ok
    split at hfail
    · exact absurd hfail not_ends_fail
    · exact absurd hfail not_ends_fail

/-- If enough bytes have been read, nothing else has happened. -/
theorem ends_readExact {n : ℕ} {buf : List UInt8}
    (h : Ends S (readExact n) x s (.ok buf) x' s') :
    x' = x ∧ buf.length = n ∧ S.Gives s buf s' := by
  induction n generalizing x x' s s' buf with
  | zero =>
      obtain ⟨hok, rfl, rfl⟩ := ends_pure h
      obtain rfl := Except.ok.inj hok
      exact ⟨rfl, rfl, Channel.Gives.nil s'⟩
  | succ n ih =>
      obtain ⟨b, x₁, s₁, hb, htail⟩ := h.bind_ok
      obtain ⟨hread, hx₁⟩ := ends_readOne hb
      obtain ⟨rest, x₂, s₂, hrest, hend⟩ := htail.bind_ok
      obtain ⟨hx₂, hlen, hgives⟩ := ih hrest
      obtain ⟨hok, hx', rfl⟩ := ends_pure hend
      obtain rfl := Except.ok.inj hok
      refine ⟨hx'.trans (hx₂.trans hx₁), by rw [List.length_cons, hlen],
        Channel.Gives.cons ?_ ?_⟩
      · rw [hread]
      · rw [hread]
        exact hgives

/-- If the stream has taken the greeting, nothing else has happened. -/
theorem ends_startReceive (h : Ends S startReceive x s (.ok ()) x' s') :
    S.Takes s (greeting x) s' ∧ x'.packet = x.packet := by
  refine ⟨?_, keeps_startReceive S x s _ x' s' h⟩
  obtain ⟨x₀, x₁, s₁, hget, hrest⟩ := h.bind_ok
  cases hget
  rw [greeting]
  split at hrest
  · rename_i hstarted
    obtain ⟨-, -, rfl⟩ := ends_pure hrest
    rw [if_pos hstarted]
    exact Channel.Takes.nil s'
  · rename_i hstarted
    obtain ⟨⟨⟩, x₂, s₂, hnak, hend⟩ := hrest.bind_ok
    obtain ⟨hwrite, -⟩ := ends_writeOne hnak
    cases hend
    rw [if_neg hstarted]
    refine Channel.Takes.cons ?_ ?_
    · rw [hwrite]
    · rw [hwrite]
      exact Channel.Takes.nil _

/-- The ends of a session that reads a packet: an error with the number as before, or, with
the next number, a good packet that the stream has given as the symbols `code payload`, and
then the answer of the stream to the `ACK`. -/
def ReadsPacket (S : Channel IoError UInt8 σ) (len : ℕ) (code : List UInt8 → List UInt8)
    (x : Xmodem) (s : σ) (r : Except IoError (List UInt8)) (x' : Xmodem) : Prop :=
  (x'.packet = x.packet ∧ ∃ e, r = .error e) ∨
    (x'.packet = x.packet + 1 ∧ ∃ payload s₁, payload.length = len ∧
      S.Gives s (code payload) s₁ ∧
      (r = .ok payload ∨ ∃ e, (S.write ack s₁).1 = .error e ∧ r = .error e))

/-- The end of a packet: its payload and its checksum, in all the ways in which the stream can
fail. -/
theorem receivePayload_ends {len : ℕ} {r : Except IoError (List UInt8)}
    (h : Ends S (receivePayload len) x s r x' s') :
    ReadsPacket S len (fun payload => payload ++ [getChecksum payload]) x s r x' := by
  rcases h.bind_inv with ⟨e, hr, hfailed⟩ | ⟨payload, x₁, s₁, hread, hrest⟩
  · exact Or.inl ⟨keeps_readExact len S x s _ x' s' hfailed, e, hr⟩
  obtain ⟨rfl, hlen, hgives⟩ := ends_readExact hread
  rcases hrest.bind_inv with ⟨e, hr, hfailed⟩ | ⟨checksum, x₂, s₂, hbyte, hanswer⟩
  · exact Or.inl ⟨keeps_readByte false S x₁ s₁ _ x' s' hfailed, e, hr⟩
  obtain ⟨rfl, hchecksum, rfl⟩ := ends_readByte hbyte
  split at hanswer
  · rcases hanswer.bind_inv with ⟨e, hr, hfailed⟩ | ⟨⟨⟩, x₃, s₃, hnak, hend⟩
    · exact Or.inl ⟨keeps_writeByte nak S x₂ _ _ x' s' hfailed, e, hr⟩
    · obtain ⟨e, hr, rfl⟩ := ends_fail hend
      exact Or.inl ⟨keeps_writeByte nak S x₂ _ _ x' s₃ hnak, e, hr⟩
  · rename_i hgood
    rw [not_not] at hgood
    subst hgood
    have hall : S.Gives s (payload ++ [getChecksum payload]) (S.read s₁).2 :=
      hgives.append (Channel.Gives.cons hchecksum (Channel.Gives.nil _))
    -- the number is increased first, and then the `ACK` is written
    have hack : Ends S (writeByte ack >>= fun _ => pure payload)
        { x₂ with packet := x₂.packet + 1 } (S.read s₁).2 r x' s' := hanswer
    rcases hack.bind_inv with ⟨e, hr, hlost⟩ | ⟨⟨⟩, x₃, s₃, htaken, hend⟩
    · obtain ⟨hwrite, rfl⟩ := ends_writeOne hlost
      exact Or.inr ⟨rfl, payload, _, hlen, hall, Or.inr ⟨e, by rw [hwrite], hr⟩⟩
    · obtain ⟨-, rfl⟩ := ends_writeOne htaken
      obtain ⟨hr, rfl, -⟩ := ends_pure hend
      exact Or.inr ⟨rfl, payload, _, hlen, hall, Or.inl hr⟩

/-- The header before the payload: if one of its bytes is wrong or the stream fails, the packet
number is as it was. -/
theorem receiveFrame_ends {len : ℕ} {r : Except IoError (List UInt8)}
    (h : Ends S (receiveFrame len) x s r x' s') :
    ReadsPacket S len
      (fun payload => x.packet :: (255 - x.packet) :: (payload ++ [getChecksum payload])) x s r
      x' := by
  rcases h.bind_inv with ⟨e, -, hfailed⟩ | ⟨x₀, x₁, s₁, hget, hnumber⟩
  · cases hfailed
  cases hget
  rcases hnumber.bind_inv with ⟨e, hr, hfailed⟩ | ⟨b, x₂, s₂, hread, hcomplement⟩
  · exact Or.inl ⟨keeps_expectByteOrCancel _ _ S x s _ x' s' hfailed, e, hr⟩
  obtain ⟨rfl, hb, rfl⟩ := ends_expectByteOrCancel hread
  rcases hcomplement.bind_inv with ⟨e, hr, hfailed⟩ | ⟨b', x₃, s₃, hread', hpayload⟩
  · exact Or.inl ⟨keeps_expectByteOrCancel _ _ S x₂ _ _ x' s' hfailed, e, hr⟩
  obtain ⟨rfl, hb', rfl⟩ := ends_expectByteOrCancel hread'
  rcases receivePayload_ends hpayload with hkept | ⟨hnext, payload, s₄, hlen, hgives, hr⟩
  · exact Or.inl hkept
  · exact Or.inr ⟨hnext, payload, s₄, hlen,
      Channel.Gives.cons hb (Channel.Gives.cons hb' hgives), hr⟩

/-- **The ends of `read_packet`**: the number is as before, and the call fails or is the end of
the transmission; or the number is the next one, and the call returns `Ok(128)` or has lost
the `ACK`. -/
theorem readPacket_ends {buf : List UInt8} {r : Except IoError (ℕ × List UInt8)}
    (h : Ends S (readPacket buf) x s r x' s') :
    (x'.packet = x.packet ∧ ((∃ e, r = .error e) ∨ r = .ok (0, buf))) ∨
      (x'.packet = x.packet + 1 ∧ ((∃ payload, r = .ok (128, payload)) ∨
        (∃ e, r = .error e) ∧ AckLost S buf x s)) := by
  rw [readPacket] at h
  split at h
  · obtain ⟨e, hr, rfl⟩ := ends_fail h
    exact Or.inl ⟨rfl, Or.inl ⟨e, hr⟩⟩
  rename_i hbuf
  rcases h.bind_inv with ⟨e, hr, hfailed⟩ | ⟨⟨⟩, x₁, s₁, hstart, hrest⟩
  · exact Or.inl ⟨keeps_startReceive S x s _ x' s' hfailed, Or.inl ⟨e, hr⟩⟩
  obtain ⟨htakes, hkept⟩ := ends_startReceive hstart
  rcases hrest.bind_inv with ⟨e, hr, hfailed⟩ | ⟨b, x₂, s₂, hread, hbranch⟩
  · exact Or.inl ⟨(keeps_readByte true S x₁ s₁ _ x' s' hfailed).trans hkept, Or.inl ⟨e, hr⟩⟩
  obtain ⟨rfl, hb, rfl⟩ := ends_readByte hread
  split at hbranch
  · -- the end of the transmission
    rcases hbranch.bind_inv with ⟨e, hr, hfailed⟩ | ⟨⟨⟩, x₃, s₃, hfinish, hend⟩
    · exact Or.inl ⟨(keeps_finishReceive S x₂ _ _ x' s' hfailed).trans hkept, Or.inl ⟨e, hr⟩⟩
    · obtain ⟨hr, rfl, -⟩ := ends_pure hend
      exact Or.inl ⟨(keeps_finishReceive S x₂ _ _ x' s₃ hfinish).trans hkept, Or.inr hr⟩
  split at hbranch
  · -- neither `EOT` nor `SOH`
    rcases hbranch.bind_inv with ⟨e, hr, hfailed⟩ | ⟨⟨⟩, x₃, s₃, hcan, hend⟩
    · exact Or.inl ⟨(keeps_writeByte can S x₂ _ _ x' s' hfailed).trans hkept, Or.inl ⟨e, hr⟩⟩
    · obtain ⟨e, hr, rfl⟩ := ends_fail hend
      exact Or.inl ⟨(keeps_writeByte can S x₂ _ _ x' s₃ hcan).trans hkept, Or.inl ⟨e, hr⟩⟩
  · rename_i hsoh
    rw [not_not] at hsoh
    subst hsoh
    rcases hbranch.bind_inv with ⟨e, hr, hfailed⟩ | ⟨payload, x₃, s₃, hframe, hend⟩
    · rcases receiveFrame_ends hfailed with ⟨hsame, -⟩ | ⟨hnext, payload, s₄, hlen, hgives, hr'⟩
      · exact Or.inl ⟨hsame.trans hkept, Or.inl ⟨e, hr⟩⟩
      · rcases hr' with hok | ⟨e', hlost, -⟩
        · cases hok
        · refine Or.inr ⟨by rw [hnext, hkept], Or.inr ⟨⟨e, hr⟩, Nat.le_of_not_lt hbuf, s₁, s₄,
            payload, e', hlen, htakes, ?_, hlost⟩⟩
          rw [← hkept]
          exact Channel.Gives.cons hb hgives
    · rcases receiveFrame_ends hframe with ⟨-, e, he⟩ | ⟨hnext, -⟩
      · cases he
      · obtain ⟨hr, rfl, -⟩ := ends_pure hend
        exact Or.inr ⟨by rw [hnext, hkept], Or.inl ⟨payload, hr⟩⟩

/-- **A lost `ACK`**: the call fails, and the number has moved on. -/
theorem AckLost.ends {buf : List UInt8} (h : AckLost S buf x s) :
    ∃ e s', Ends S (readPacket buf) x s (.error e) ⟨x.packet + 1, true⟩ s' := by
  obtain ⟨hbuf, s₁, s₂, payload, e, hlen, htakes, hgives, hlost⟩ := h
  obtain ⟨n, started⟩ := x
  have hgreeting : (readPacket buf ⟨n, started⟩).runOn S s =
      (readPacket buf ⟨n, true⟩).runOn S s₁ := by
    cases started with
    | false => exact (readPacket_start hbuf n).runOn_writes htakes
    | true =>
        cases htakes
        rfl
  -- from there up to the `ACK` the call only reads
  have hframe := receiveFrame_header (receivePayload_reported n payload)
  rw [hlen] at hframe
  have hreads := (readPacket_soh hbuf (Prog.Steps.bind hframe _)).runOn_reads hgives
  refine ⟨e, (S.write ack s₂).2, ?_⟩
  rw [Ends, hgreeting, hreads]
  change Prog.runOn S (.write ack _) s₂ = _
  rw [Prog.runOn, hlost]
  rfl

/-- **When the packet number changes only on success.** For every inner stream, every state of
the two and every buffer: `write_packet` leaves the packet number as it is unless it returns
`Ok(128)`, and then it has increased it by one; and so does `read_packet` if and only if the
stream does not give it a whole good packet and then fail to take the `ACK`. -/
theorem packet_counter (S : Channel IoError UInt8 σ) (x : Xmodem) (s : σ) (buf : List UInt8) :
    (∀ r x' s', Ends S (writePacket buf) x s r x' s' → CountsSuccess x x' r) ∧
      ((∀ r x' s', Ends S (readPacket buf) x s r x' s' →
          CountsSuccess x x' (r.map Prod.fst)) ↔
        ¬ AckLost S buf x s) := by
  refine ⟨fun r x' s' h => writePacket_counts h, ?_, ?_⟩
  · intro h hlost
    obtain ⟨e, s', hends⟩ := hlost.ends
    have hkept : x.packet + 1 = x.packet := (h _ _ s' hends).error e rfl
    simp at hkept
  · intro hno r x' s' h
    rcases readPacket_ends h with ⟨hkept, ⟨e, rfl⟩ | rfl⟩ | ⟨hnext, ⟨payload, rfl⟩ | ⟨-, hlost⟩⟩
    · exact CountsSuccess.of_kept hkept (Or.inl ⟨e, rfl⟩)
    · exact CountsSuccess.of_kept hkept (Or.inr rfl)
    · exact ⟨fun _ he => (by cases he), fun h0 => (by cases h0), fun _ => hnext⟩
    · exact absurd hlost hno

/-! ### A stream that loses the `ACK` -/

/-- A stream with the bytes it still has to give and the number of bytes it still takes. -/
def limited : Channel IoError UInt8 (List UInt8 × ℕ) where
  read
    | ([], room) => (.error eofError, ([], room))
    | (b :: bytes, room) => (.ok b, (bytes, room))
  write _
    | (bytes, 0) => (.error ⟨.brokenPipe, "closed"⟩, (bytes, 0))
    | (bytes, room + 1) => (.ok (), (bytes, room))

/-- The stream of the example gives what it has, whatever room is left for what it takes. -/
theorem limited_gives (i rest : List UInt8) (room : ℕ) :
    limited.Gives (i ++ rest, room) i (rest, room) := by
  induction i with
  | nil => exact Channel.Gives.nil _
  | cons b i ih => exact Channel.Gives.cons rfl ih

/-- **The defect**: the stream takes the `NAK` and gives a packet of 128 zeroes, but does not
take the `ACK`. -/
theorem packet_counter_lost_ack :
    ¬ ∀ r x' s', Ends limited (readPacket (List.replicate 128 0)) new
      (frame 1 (List.replicate 128 0), 1) r x' s' → CountsSuccess new x' (r.map Prod.fst) := by
  intro h
  have hlost : AckLost limited (List.replicate 128 0) new (frame 1 (List.replicate 128 0), 1) := by
    have hgives := limited_gives (frame 1 (List.replicate 128 0)) [] 0
    rw [List.append_nil] at hgives
    exact ⟨by simp, _, _, List.replicate 128 0, _, rfl,
      Channel.Takes.cons rfl (Channel.Takes.nil _), hgives, rfl⟩
  obtain ⟨e, s', hends⟩ := hlost.ends
  have hkept := (h _ _ s' hends).error e rfl
  simp [new] at hkept

end OsLabs.Xmodem
