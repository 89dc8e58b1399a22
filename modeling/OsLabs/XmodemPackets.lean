import OsLabs.Xmodem

/-!
# What a Packet Exchange Does

The steps of `read_packet` and `write_packet` on every kind of packet, without failures
of the link: a good packet, a packet whose checksum is wrong, the end of a transmission,
and every byte that is not the expected one.

## Main results

* `readPacket_good`, `readPacket_bad`, `readPacket_end`: the receiver's side.
* `writePacket_ack`, `writePacket_nak`, `writePacket_end`: the transmitter's side.
* `readPacket_stalls`, `writePacket_stalls`: where either side waits.
* `retry_ok`, `retry_interrupted`: one attempt of the loops around a packet.
-/

namespace OsLabs.Xmodem

open Session

variable {α γ : Type}

namespace Session

/-- `Does m x i w e r x'`: the session `m` started in `x` reads `i`, writes `w`, emits
`e`, and returns `r` in state `x'`. -/
def Does (m : Session α) (x : Xmodem) (i w : List UInt8) (e : List Event)
    (r : Except IoError α) (x' : Xmodem) : Prop :=
  Prog.Steps (m x) i w e (.ret (r, x'))

/-- A session that only returns does so at once, with no access to the stream. -/
theorem does_pure (a : α) (x : Xmodem) : Does (pure a) x [] [] [] (.ok a) x :=
  Prog.Steps.refl _

/-- A session that only fails does so at once, with no access to the stream. -/
theorem does_fail (kind : ErrorKind) (message : String) (x : Xmodem) :
    Does (fail kind message : Session α) x [] [] [] (.error ⟨kind, message⟩) x :=
  Prog.Steps.refl _

/-- A session can look at its own state without any access to the stream. -/
theorem does_get (x : Xmodem) : Does get x [] [] [] (.ok x) x := Prog.Steps.refl _

/-- A call of the progress callback is an event and nothing else. -/
theorem does_report (p : Progress) (x : Xmodem) :
    Does (report p) x [] [] [.progress p] (.ok ()) x := Prog.Steps.emit (Prog.Steps.refl _)

/-- A session that reads one byte returns it. -/
theorem does_readOne (b : UInt8) (x : Xmodem) : Does readOne x [b] [] [] (.ok b) x :=
  Prog.Steps.read (Prog.Steps.refl _)

/-- A session that writes one byte has written it. -/
theorem does_writeByte (b : UInt8) (x : Xmodem) : Does (writeByte b) x [] [b] [] (.ok ()) x :=
  Prog.Steps.write (Prog.Steps.refl _)

/-- A session that goes on after its first part has succeeded. -/
theorem Does.then {m : Session α} {f : α → Session γ} {x x' : Xmodem} {a : α}
    {i i' w w' : List UInt8} {e e' : List Event} {q : Talk (Except IoError γ × Xmodem)}
    (h : Does m x i w e (.ok a) x') (h' : Prog.Steps (f a x') i' w' e' q) :
    Prog.Steps ((m >>= f) x) (i ++ i') (w ++ w') (e ++ e') q :=
  (Prog.Steps.bind h _).trans h'

/-- `Stalls m x i w e x'`: the session `m` started in `x` reads `i`, writes `w`, emits
`e`, and then waits for a byte; at the end of the stream it fails in state `x'`. -/
def Stalls (m : Session α) (x : Xmodem) (i w : List UInt8) (e : List Event) (x' : Xmodem) :
    Prop :=
  ∃ k, Prog.Steps (m x) i w e (.read k) ∧ k (.error eofError) = .ret (.error eofError, x')

/-- A session that reads one byte waits if there is none. -/
theorem stalls_readOne (x : Xmodem) : Stalls readOne x [] [] [] x :=
  ⟨_, Prog.Steps.refl _, rfl⟩

/-- A session that waits in its first part. -/
theorem Stalls.first {m : Session α} {f : α → Session γ} {x x' : Xmodem}
    {i w : List UInt8} {e : List Event} (h : Stalls m x i w e x') :
    Stalls (m >>= f) x i w e x' := by
  obtain ⟨k, hk, heof⟩ := h
  refine ⟨_, Prog.Steps.bind hk _, ?_⟩
  simp only [heof, Prog.bind]

/-- A session that waits after its first part. -/
theorem Does.stalls {m : Session α} {f : α → Session γ} {x x₁ x' : Xmodem} {a : α}
    {i i' w w' : List UInt8} {e e' : List Event} (h : Does m x i w e (.ok a) x₁)
    (h' : Stalls (f a) x₁ i' w' e' x') :
    Stalls (m >>= f) x (i ++ i') (w ++ w') (e ++ e') x' := by
  obtain ⟨k, hk, heof⟩ := h'
  exact ⟨k, h.then hk, heof⟩

/-- A program that goes on after a session that waits. -/
theorem Stalls.waits {β : Type} {m : Session α} {x x' : Xmodem} {i w : List UInt8}
    {e : List Event} (h : Stalls m x i w e x') (f : Except IoError α × Xmodem → Talk β) :
    ∃ k, Prog.Steps ((m x).bind f) i w e (.read k) := by
  obtain ⟨k, hk, -⟩ := h
  exact ⟨_, hk.bind f⟩

/-- A session that ends with the error of its first part. -/
theorem Does.error {m : Session α} {f : α → Session γ} {x x' : Xmodem} {err : IoError}
    {i w : List UInt8} {e : List Event} (h : Does m x i w e (.error err) x') :
    Does (m >>= f) x i w e (.error err) x' :=
  Prog.Steps.bind h _

end Session

/-! ### Single bytes -/

/-- The error for a byte that is not the expected one. -/
def wrongByte (b : UInt8) (expected : String) : IoError :=
  if b = can then ⟨.connectionAborted, "received CAN"⟩ else ⟨.invalidData, expected⟩

/-- It ends the attempts at a packet. -/
theorem wrongByte_kind_ne (b : UInt8) (expected : String) :
    (wrongByte b expected).kind ≠ .interrupted := by
  rw [wrongByte]
  split <;> simp

/-- A byte that does not abort the transmission is returned. -/
theorem readByte_ok {abortOnCan : Bool} {b : UInt8} (h : ¬ (abortOnCan = true ∧ b = can))
    (x : Xmodem) : Does (readByte abortOnCan) x [b] [] [] (.ok b) x := by
  refine (does_readOne b x).then ?_
  rw [if_neg h]
  exact does_pure b x

/-- A `CAN` aborts the transmission where the caller has asked for that. -/
theorem readByte_can (x : Xmodem) :
    Does (readByte true) x [can] [] [] (.error ⟨.connectionAborted, "received CAN"⟩) x :=
  (does_readOne can x).then (does_fail _ _ x)

/-- A byte for which the code sends `CAN` and fails, unless it was `CAN` itself. -/
theorem readByte_wrong {f : UInt8 → Session γ} {b : UInt8} {expected : String} {x : Xmodem}
    (h : f b = writeByte can >>= fun _ => fail .invalidData expected) :
    Does (readByte true >>= f) x [b] (if b = can then [] else [can]) []
      (.error (wrongByte b expected)) x := by
  rw [wrongByte]
  by_cases hb : b = can
  · subst hb
    rw [if_pos rfl, if_pos rfl]
    exact (readByte_can x).error
  · rw [if_neg hb, if_neg hb]
    refine (readByte_ok (fun h => hb h.2) x).then ?_
    rw [h]
    exact (does_writeByte can x).then (does_fail _ _ x)

/-- The expected byte is returned. -/
theorem expectByte_ok (byte : UInt8) (expected : String) (x : Xmodem) :
    Does (expectByte byte expected) x [byte] [] [] (.ok byte) x := by
  refine (readByte_ok (by simp) x).then ?_
  rw [if_pos rfl]
  exact does_pure byte x

/-- Another byte than the expected one is an error, of the kind that depends on the byte. -/
theorem expectByte_wrong {byte b : UInt8} (h : b ≠ byte) (expected : String) (x : Xmodem) :
    Does (expectByte byte expected) x [b] [] [] (.error (wrongByte b expected)) x := by
  refine (readByte_ok (by simp) x).then ?_
  rw [if_neg h, wrongByte]
  split
  · exact does_fail _ _ x
  · exact does_fail _ _ x

/-- The expected byte is not answered. -/
theorem expectByteOrCancel_ok (byte : UInt8) (expected : String) (x : Xmodem) :
    Does (expectByteOrCancel byte expected) x [byte] [] [] (.ok byte) x := by
  refine (readByte_ok (by simp) x).then ?_
  rw [if_pos rfl]
  exact does_pure byte x

/-- Another byte than the expected one is answered by a `CAN` before the call fails. -/
theorem expectByteOrCancel_wrong {byte b : UInt8} (h : b ≠ byte) (expected : String)
    (x : Xmodem) :
    Does (expectByteOrCancel byte expected) x [b] [can] [] (.error (wrongByte b expected)) x := by
  refine (readByte_ok (by simp) x).then ?_
  rw [if_neg h, wrongByte]
  refine (does_writeByte can x).then ?_
  split
  · exact does_fail _ _ x
  · exact does_fail _ _ x

/-- As many bytes as are asked for. -/
theorem readExact_ok (buf : List UInt8) (x : Xmodem) :
    Does (readExact buf.length) x buf [] [] (.ok buf) x := by
  induction buf with
  | nil => exact does_pure [] x
  | cons b buf ih =>
      have hrest := Does.then (f := fun buf => pure (b :: buf)) ih (does_pure (b :: buf) x)
      rw [List.append_nil] at hrest
      exact (does_readOne b x).then hrest

/-- All bytes of the buffer are written. -/
theorem writeAll_ok (buf : List UInt8) (x : Xmodem) :
    Does (writeAll buf) x [] buf [] (.ok ()) x := by
  induction buf with
  | nil => exact does_pure () x
  | cons b buf ih => exact (does_writeByte b x).then ih

/-! ### Frames -/

/-- A frame with an arbitrary checksum byte. -/
def rawFrame (n : UInt8) (payload : List UInt8) (checksum : UInt8) : List UInt8 :=
  soh :: n :: (255 - n) :: (payload ++ [checksum])

/-- The frame of a packet. -/
def frame (n : UInt8) (payload : List UInt8) : List UInt8 :=
  rawFrame n payload (getChecksum payload)

/-! ### Waiting for a byte -/

/-- Reading a byte waits for it. -/
theorem readByte_stalls (abortOnCan : Bool) (x : Xmodem) :
    Stalls (readByte abortOnCan) x [] [] [] x := (stalls_readOne x).first

/-- Reading a byte that has to be a certain one waits for it. -/
theorem expectByte_stalls (byte : UInt8) (expected : String) (x : Xmodem) :
    Stalls (expectByte byte expected) x [] [] [] x := (readByte_stalls false x).first

/-- The same where a wrong byte would be answered by a `CAN`. -/
theorem expectByteOrCancel_stalls (byte : UInt8) (expected : String) (x : Xmodem) :
    Stalls (expectByteOrCancel byte expected) x [] [] [] x := (readByte_stalls false x).first

/-- With too few bytes the session waits for the rest. -/
theorem readExact_stalls {buf : List UInt8} {n : ℕ} (h : buf.length < n) (x : Xmodem) :
    Stalls (readExact n) x buf [] [] x := by
  induction buf generalizing n with
  | nil =>
      obtain ⟨n, rfl⟩ := Nat.exists_eq_succ_of_ne_zero (Nat.ne_zero_of_lt h)
      exact (stalls_readOne x).first
  | cons b buf ih =>
      obtain ⟨n, rfl⟩ := Nat.exists_eq_succ_of_ne_zero (Nat.ne_zero_of_lt h)
      exact (does_readOne b x).stalls (ih (Nat.lt_of_succ_lt_succ h)).first

/-! ### Receiving -/

section

variable {buf payload : List UInt8} {n : UInt8}

/-- The first call of `read_packet` asks for the transmission. -/
theorem readPacket_start (hbuf : 128 ≤ buf.length) (n : UInt8) :
    Prog.Steps (readPacket buf ⟨n, false⟩) [] [nak] [.progress .started]
      (readPacket buf ⟨n, true⟩) := by
  rw [readPacket, if_neg (by omega)]
  exact Prog.Steps.write (Prog.Steps.emit (Prog.Steps.refl _))

/-- What the receiver sends before the first packet. -/
def greeting (x : Xmodem) : List UInt8 := if x.started then [] else [nak]

/-- The steps of a call of `read_packet`, from those after the greeting. -/
theorem readPacket_greeting (hbuf : 128 ≤ buf.length) {x : Xmodem} {i w : List UInt8}
    {e : List Event} {q : Talk (Except IoError (ℕ × List UInt8) × Xmodem)}
    (h : Prog.Steps (readPacket buf ⟨x.packet, true⟩) i w e q) :
    ∃ e, Prog.Steps (readPacket buf x) i (greeting x ++ w) e q := by
  obtain ⟨n, started⟩ := x
  cases started with
  | false => exact ⟨_, (readPacket_start hbuf n).trans h⟩
  | true => exact ⟨e, h⟩

/-- A good payload is reported before it is acknowledged. -/
theorem receivePayload_reported (n : UInt8) (payload : List UInt8) :
    Prog.Steps (receivePayload payload.length ⟨n, true⟩) (payload ++ [getChecksum payload]) []
      [.progress (.packet (n + 1))] ((do
        writeByte ack
        pure payload : Session (List UInt8)) ⟨n + 1, true⟩) := by
  refine (readExact_ok payload _).then ((readByte_ok (by simp) _).then ?_)
  rw [if_neg (by simp)]
  exact Prog.Steps.emit (Prog.Steps.refl _)

/-- A good checksum is acknowledged, and the packet is counted before that. -/
theorem receivePayload_good (n : UInt8) (payload : List UInt8) :
    Does (receivePayload payload.length) ⟨n, true⟩ (payload ++ [getChecksum payload]) [ack]
      [.progress (.packet (n + 1))] (.ok payload) ⟨n + 1, true⟩ := by
  have hreported := (receivePayload_reported n payload).trans
    (Prog.Steps.write (Prog.Steps.refl _))
  rw [List.append_nil] at hreported
  exact hreported

/-- A bad checksum is answered by a `NAK`, and the packet is not counted. -/
theorem receivePayload_bad {c : UInt8} (hc : c ≠ getChecksum payload) (n : UInt8) :
    Does (receivePayload payload.length) ⟨n, true⟩ (payload ++ [c]) [nak] []
      (.error ⟨.interrupted, "checksum failed"⟩) ⟨n, true⟩ := by
  refine (readExact_ok payload _).then ((readByte_ok (by simp) _).then ?_)
  rw [if_pos hc]
  exact Prog.Steps.write (Prog.Steps.refl _)

/-- Within the payload and before the checksum the receiver waits. -/
theorem receivePayload_stalls {len : ℕ} (h : payload.length ≤ len) (n : UInt8) :
    Stalls (receivePayload len) ⟨n, true⟩ payload [] [] ⟨n, true⟩ := by
  rcases Nat.lt_or_eq_of_le h with hlt | rfl
  · exact (readExact_stalls hlt _).first
  · have hend : Stalls (receivePayload payload.length) ⟨n, true⟩ (payload ++ []) [] []
        ⟨n, true⟩ := (readExact_ok payload _).stalls (readByte_stalls false _).first
    rwa [List.append_nil] at hend

/-- After a good header the call goes on with the payload. -/
theorem receiveFrame_header {len : ℕ} {i w : List UInt8} {e : List Event}
    {q : Talk (Except IoError (List UInt8) × Xmodem)}
    (h : Prog.Steps (receivePayload len ⟨n, true⟩) i w e q) :
    Prog.Steps (receiveFrame len ⟨n, true⟩) (n :: (255 - n) :: i) w e q :=
  (does_get ⟨n, true⟩).then ((expectByteOrCancel_ok n _ _).then
    ((expectByteOrCancel_ok (255 - n) _ _).then h))

/-- A wrong packet number is answered by a `CAN` and ends the call. -/
theorem receiveFrame_wrong_number {b : UInt8} (hb : b ≠ n) (len : ℕ) :
    Does (receiveFrame len) ⟨n, true⟩ [b] [can] []
      (.error (wrongByte b "expected packet number")) ⟨n, true⟩ :=
  (does_get ⟨n, true⟩).then (expectByteOrCancel_wrong hb _ _).error

/-- A wrong complement of the packet number is answered by a `CAN` and ends the call. -/
theorem receiveFrame_wrong_complement {b : UInt8} (hb : b ≠ 255 - n) (len : ℕ) :
    Does (receiveFrame len) ⟨n, true⟩ [n, b] [can] []
      (.error (wrongByte b "expected packet number complement")) ⟨n, true⟩ :=
  (does_get ⟨n, true⟩).then ((expectByteOrCancel_ok n _ _).then
    (expectByteOrCancel_wrong hb _ _).error)

/-- A call of `read_packet` after the first one. -/
theorem readPacket_started (hbuf : 128 ≤ buf.length) (n : UInt8) :
    readPacket buf ⟨n, true⟩ = (do
      let firstByte ← readByte true
      if firstByte = eot then do
        finishReceive
        pure (0, buf)
      else if firstByte ≠ soh then do
        writeByte can
        fail .invalidData "expected SOH"
      else do
        let buf ← receiveFrame buf.length
        pure (128, buf) : Session (ℕ × List UInt8)) ⟨n, true⟩ := by
  rw [readPacket, if_neg (by omega)]
  rfl

/-- After `SOH` the call goes on with the frame. -/
theorem readPacket_soh (hbuf : 128 ≤ buf.length) {i w : List UInt8} {e : List Event}
    {q : Talk (Except IoError (ℕ × List UInt8) × Xmodem)}
    (h : Prog.Steps ((do
      let buf ← receiveFrame buf.length
      pure (128, buf) : Session (ℕ × List UInt8)) ⟨n, true⟩) i w e q) :
    Prog.Steps (readPacket buf ⟨n, true⟩) (soh :: i) w e q := by
  rw [readPacket_started hbuf]
  refine (readByte_ok (by decide) _).then ?_
  rw [if_neg (by decide), if_neg (by decide)]
  exact h

/-- **A good packet** is acknowledged and delivered. -/
theorem readPacket_good (hbuf : 128 ≤ buf.length) (hp : payload.length = buf.length)
    (n : UInt8) :
    Does (readPacket buf) ⟨n, true⟩ (frame n payload) [ack] [.progress (.packet (n + 1))]
      (.ok (128, payload)) ⟨n + 1, true⟩ := by
  have hframe := receiveFrame_header (receivePayload_good n payload)
  rw [hp] at hframe
  have hrest := Does.then (f := fun buf => pure (128, buf)) hframe (does_pure (128, payload) _)
  rw [List.append_nil] at hrest
  exact readPacket_soh hbuf hrest

/-- **A packet with a wrong checksum** is asked for again. -/
theorem readPacket_bad (hbuf : 128 ≤ buf.length) (hp : payload.length = buf.length) {c : UInt8}
    (hc : c ≠ getChecksum payload) (n : UInt8) :
    Does (readPacket buf) ⟨n, true⟩ (rawFrame n payload c) [nak] []
      (.error ⟨.interrupted, "checksum failed"⟩) ⟨n, true⟩ := by
  have hframe := receiveFrame_header (receivePayload_bad hc n)
  rw [hp] at hframe
  exact readPacket_soh hbuf (Does.error hframe)

/-- A packet whose header is not the expected one is cancelled. -/
theorem readPacket_wrong_number (hbuf : 128 ≤ buf.length) {b : UInt8} (hb : b ≠ n) :
    Does (readPacket buf) ⟨n, true⟩ [soh, b] [can] []
      (.error (wrongByte b "expected packet number")) ⟨n, true⟩ :=
  readPacket_soh hbuf (receiveFrame_wrong_number hb _).error

/-- The wrong complement ends the whole of `read_packet`. -/
theorem readPacket_wrong_complement (hbuf : 128 ≤ buf.length) {b : UInt8} (hb : b ≠ 255 - n) :
    Does (readPacket buf) ⟨n, true⟩ [soh, n, b] [can] []
      (.error (wrongByte b "expected packet number complement")) ⟨n, true⟩ :=
  readPacket_soh hbuf (receiveFrame_wrong_complement hb _).error

/-- A first byte that is neither `SOH` nor `EOT` ends the transfer. -/
theorem readPacket_wrong_first (hbuf : 128 ≤ buf.length) {b : UInt8} (hs : b ≠ soh)
    (he : b ≠ eot) (n : UInt8) :
    Does (readPacket buf) ⟨n, true⟩ [b] (if b = can then [] else [can]) []
      (.error (wrongByte b "expected SOH")) ⟨n, true⟩ := by
  rw [Does, readPacket_started hbuf]
  refine readByte_wrong ?_
  rw [if_neg he, if_pos hs]

/-- The end of a transmission, from its first `EOT` on. -/
theorem readPacket_eot (hbuf : 128 ≤ buf.length) {i w : List UInt8} {e : List Event}
    {q : Talk (Except IoError (ℕ × List UInt8) × Xmodem)}
    (h : Prog.Steps ((do
      finishReceive
      pure (0, buf) : Session (ℕ × List UInt8)) ⟨n, true⟩) i w e q) :
    Prog.Steps (readPacket buf ⟨n, true⟩) (eot :: i) w e q := by
  rw [readPacket_started hbuf]
  refine (readByte_ok (by decide) _).then ?_
  rw [if_pos rfl]
  exact h

/-- **The end of a transmission** is confirmed. -/
theorem readPacket_end (hbuf : 128 ≤ buf.length) (n : UInt8) :
    Does (readPacket buf) ⟨n, true⟩ [eot, eot] [nak, ack] [] (.ok (0, buf)) ⟨n, true⟩ := by
  have hend : Does finishReceive ⟨n, true⟩ [eot] [nak, ack] [] (.ok ()) ⟨n, true⟩ :=
    (does_writeByte nak _).then ((expectByte_ok eot _ _).then (does_writeByte ack _))
  exact readPacket_eot hbuf (hend.then (does_pure (0, buf) _))

/-- The first `EOT` is answered by a `NAK`, and then a second one is expected. -/
theorem readPacket_wrong_end (hbuf : 128 ≤ buf.length) {b : UInt8} (hb : b ≠ eot) (n : UInt8) :
    Does (readPacket buf) ⟨n, true⟩ [eot, b] [nak] [] (.error (wrongByte b "expected EOT"))
      ⟨n, true⟩ := by
  have hend : Does finishReceive ⟨n, true⟩ [b] [nak] [] (.error (wrongByte b "expected EOT"))
      ⟨n, true⟩ := (does_writeByte nak _).then (expectByte_wrong hb _ _).error
  exact readPacket_eot hbuf hend.error

/-- The receiver waits for the second `EOT`. -/
theorem readPacket_end_stalls (hbuf : 128 ≤ buf.length) (n : UInt8) :
    Stalls (readPacket buf) ⟨n, true⟩ [eot] [nak] [] ⟨n, true⟩ := by
  have hend : Stalls finishReceive ⟨n, true⟩ [] [nak] [] ⟨n, true⟩ :=
    (does_writeByte nak _).stalls (expectByte_stalls eot _ _).first
  obtain ⟨k, hk, heof⟩ := hend.first (f := fun _ => pure (0, buf))
  exact ⟨k, readPacket_eot hbuf hk, heof⟩

/-- The streams at whose end `read_packet` waits for more of a packet: the beginnings of
a frame and of the end of a transmission. -/
inductive Partial (n : UInt8) : List UInt8 → Prop
  | start : Partial n []
  | soh : Partial n [soh]
  | number : Partial n [Xmodem.soh, n]
  | payload {part : List UInt8} (hpart : part.length ≤ 128) :
      Partial n (Xmodem.soh :: n :: (255 - n) :: part)
  | eot : Partial n [eot]

/-- **A truncated packet**: `read_packet` waits for the rest. -/
theorem readPacket_stalls (hbuf : 128 ≤ buf.length) {i : List UInt8} (h : Partial n i) :
    ∃ w, Stalls (readPacket buf) ⟨n, true⟩ i w [] ⟨n, true⟩ := by
  -- after the first byte the session goes on with the frame or the end of the transmission
  have hframe : ∀ {i w}, Stalls (receiveFrame buf.length) ⟨n, true⟩ i w [] ⟨n, true⟩ →
      Stalls (readPacket buf) ⟨n, true⟩ (soh :: i) w [] ⟨n, true⟩ := by
    intro i w hf
    obtain ⟨k, hk, heof⟩ := hf.first (f := fun buf => pure (128, buf))
    exact ⟨k, readPacket_soh hbuf hk, heof⟩
  cases h with
  | start =>
      refine ⟨[], ?_⟩
      rw [Stalls, readPacket_started hbuf]
      exact (readByte_stalls true _).first
  | soh => exact ⟨[], hframe ((does_get _).stalls (expectByteOrCancel_stalls n _ _).first)⟩
  | number =>
      exact ⟨[], hframe ((does_get _).stalls ((expectByteOrCancel_ok n _ _).stalls
        (expectByteOrCancel_stalls (255 - n) _ _).first))⟩
  | payload hpart =>
      obtain ⟨k, hk, heof⟩ := receivePayload_stalls (Nat.le_trans hpart hbuf) n
      exact ⟨[], hframe ⟨k, receiveFrame_header hk, heof⟩⟩
  | eot => exact ⟨[nak], readPacket_end_stalls hbuf n⟩

end

/-! ### Transmitting -/

section

variable {buf : List UInt8} {n : UInt8}

/-- The `NAK` of the receiver starts the transmission. -/
theorem startTransmit_ok (n : UInt8) :
    Does startTransmit ⟨n, false⟩ [nak] [] [.progress .waiting, .progress .started] (.ok ())
      ⟨n, true⟩ :=
  (does_get ⟨n, false⟩).then ((does_report _ _).then ((expectByte_ok nak _ _).then
    (Prog.Steps.emit (Prog.Steps.refl _))))

/-- Any other byte than `NAK` ends the call before the transmission has started. -/
theorem startTransmit_wrong {b : UInt8} (hb : b ≠ nak) (n : UInt8) :
    Does startTransmit ⟨n, false⟩ [b] [] [.progress .waiting]
      (.error (wrongByte b "expected NAK")) ⟨n, false⟩ :=
  (does_get ⟨n, false⟩).then ((does_report _ _).then (expectByte_wrong hb _ _).error)

/-- The transmitter waits for the `NAK` of the receiver, and has reported that. -/
theorem startTransmit_stalls (n : UInt8) :
    Stalls startTransmit ⟨n, false⟩ [] [] [.progress .waiting] ⟨n, false⟩ :=
  (does_get ⟨n, false⟩).stalls ((does_report _ _).stalls (expectByte_stalls nak _ _).first)

/-- A call of `write_packet` with a buffer it accepts. -/
theorem writePacket_eq (hbuf : 128 ≤ buf.length ∨ buf.length = 0) :
    writePacket buf = (do
      startTransmit
      if buf.length = 0 then do
        finishTransmit
        pure 0
      else do
        sendFrame buf
        awaitReply
        pure 128 : Session ℕ) := by
  rw [writePacket, if_neg (by omega)]

/-- The first call of `write_packet` waits for the receiver. -/
theorem writePacket_start (hbuf : 128 ≤ buf.length ∨ buf.length = 0) (n : UInt8) :
    Prog.Steps (writePacket buf ⟨n, false⟩) [nak] []
      [.progress .waiting, .progress .started] (writePacket buf ⟨n, true⟩) := by
  rw [writePacket_eq hbuf]
  exact (startTransmit_ok n).then (Prog.Steps.refl _)

/-- A first packet that the receiver has not asked for is not sent. -/
theorem writePacket_start_wrong (hbuf : 128 ≤ buf.length ∨ buf.length = 0) {b : UInt8}
    (hb : b ≠ nak) (n : UInt8) :
    Does (writePacket buf) ⟨n, false⟩ [b] [] [.progress .waiting]
      (.error (wrongByte b "expected NAK")) ⟨n, false⟩ := by
  rw [writePacket_eq hbuf]
  exact (startTransmit_wrong hb n).error

/-- Before the first packet the transmitter waits. -/
theorem writePacket_start_stalls (hbuf : 128 ≤ buf.length ∨ buf.length = 0) (n : UInt8) :
    Stalls (writePacket buf) ⟨n, false⟩ [] [] [.progress .waiting] ⟨n, false⟩ := by
  rw [writePacket_eq hbuf]
  exact (startTransmit_stalls n).first

/-- A frame is sent: the header, the payload and the checksum. -/
theorem sendFrame_ok (n : UInt8) (buf : List UInt8) :
    Does (sendFrame buf) ⟨n, true⟩ [] (frame n buf) [] (.ok ()) ⟨n, true⟩ :=
  (does_get ⟨n, true⟩).then ((does_writeByte soh _).then ((does_writeByte n _).then
    ((does_writeByte (255 - n) _).then ((writeAll_ok buf _).then
      (does_writeByte (getChecksum buf) _)))))

/-- A packet is sent as one frame, whatever the answer is. -/
theorem writePacket_frame (hbuf : 128 ≤ buf.length) {i w : List UInt8} {e : List Event}
    {q : Talk (Except IoError ℕ × Xmodem)}
    (h : Prog.Steps ((do
      awaitReply
      pure 128 : Session ℕ) ⟨n, true⟩) i w e q) :
    Prog.Steps (writePacket buf ⟨n, true⟩) i (frame n buf ++ w) e q := by
  have hstarted : Does startTransmit ⟨n, true⟩ [] [] [] (.ok ()) ⟨n, true⟩ :=
    Prog.Steps.refl _
  rw [writePacket_eq (Or.inl hbuf), if_neg (by omega)]
  exact hstarted.then ((sendFrame_ok n buf).then h)

/-- **An acknowledged packet** is counted, and its number is reported. -/
theorem writePacket_ack (hbuf : 128 ≤ buf.length) (n : UInt8) :
    Does (writePacket buf) ⟨n, true⟩ [ack] (frame n buf) [.progress (.packet n)] (.ok 128)
      ⟨n + 1, true⟩ := by
  have hreply : Does awaitReply ⟨n, true⟩ [ack] [] [.progress (.packet n)] (.ok ())
      ⟨n + 1, true⟩ := by
    refine (readByte_ok (by decide) _).then ?_
    rw [if_pos rfl]
    exact Prog.Steps.emit (Prog.Steps.refl _)
  have hsent := writePacket_frame hbuf (hreply.then (does_pure 128 _))
  simp only [List.append_nil] at hsent
  exact hsent

/-- **A packet that is asked for again.** -/
theorem writePacket_nak (hbuf : 128 ≤ buf.length) (n : UInt8) :
    Does (writePacket buf) ⟨n, true⟩ [nak] (frame n buf) []
      (.error ⟨.interrupted, "NAK received"⟩) ⟨n, true⟩ := by
  have hreply : Does awaitReply ⟨n, true⟩ [nak] [] [] (.error ⟨.interrupted, "NAK received"⟩)
      ⟨n, true⟩ := by
    refine (readByte_ok (by decide) _).then ?_
    rw [if_neg (by decide), if_pos rfl]
    exact does_fail _ _ _
  have hsent := writePacket_frame hbuf hreply.error
  rwa [List.append_nil] at hsent

/-- **A packet answered by anything else**: the transfer is cancelled, unless the answer
was `CAN` itself. -/
theorem writePacket_wrong (hbuf : 128 ≤ buf.length) {b : UInt8} (ha : b ≠ ack) (hn : b ≠ nak)
    (n : UInt8) :
    Does (writePacket buf) ⟨n, true⟩ [b] (frame n buf ++ if b = can then [] else [can]) []
      (.error (wrongByte b "expected ACK or NAK")) ⟨n, true⟩ := by
  have hreply : Does awaitReply ⟨n, true⟩ [b] (if b = can then [] else [can]) []
      (.error (wrongByte b "expected ACK or NAK")) ⟨n, true⟩ := by
    refine readByte_wrong ?_
    rw [if_neg ha, if_neg hn]
  exact writePacket_frame hbuf hreply.error

/-- **A packet without an answer** has been sent, and the call waits. -/
theorem writePacket_stalls (hbuf : 128 ≤ buf.length) (n : UInt8) :
    Stalls (writePacket buf) ⟨n, true⟩ [] (frame n buf) [] ⟨n, true⟩ := by
  have hreply : Stalls awaitReply ⟨n, true⟩ [] [] [] ⟨n, true⟩ := (readByte_stalls true _).first
  obtain ⟨k, hk, heof⟩ := hreply.first (f := fun _ => pure 128)
  have hsent := writePacket_frame hbuf hk
  rw [List.append_nil] at hsent
  exact ⟨k, hsent, heof⟩

/-- An empty buffer ends the transmission, and the call goes on with that. -/
theorem writePacket_finish {i w : List UInt8} {e : List Event}
    {q : Talk (Except IoError ℕ × Xmodem)}
    (h : Prog.Steps ((do
      finishTransmit
      pure 0 : Session ℕ) ⟨n, true⟩) i w e q) :
    Prog.Steps (writePacket [] ⟨n, true⟩) i w e q := by
  rw [writePacket_eq (Or.inr rfl)]
  exact h

/-- **A confirmed end of the transmission**: two `EOT`s, the first answered by a `NAK` and the
second by an `ACK`. -/
theorem writePacket_end (n : UInt8) :
    Does (writePacket []) ⟨n, true⟩ [nak, ack] [eot, eot] [] (.ok 0) ⟨n, true⟩ := by
  have hend : Does finishTransmit ⟨n, true⟩ [nak, ack] [eot, eot] [] (.ok ()) ⟨n, true⟩ :=
    (does_writeByte eot _).then ((expectByte_ok nak _ _).then ((does_writeByte eot _).then
      ((expectByte_ok ack _ _).then (does_pure () _))))
  exact writePacket_finish (hend.then (does_pure 0 _))

/-- The first `EOT` has to be answered by a `NAK`; any other byte is an error. -/
theorem writePacket_end_wrong_nak {b : UInt8} (hb : b ≠ nak) (n : UInt8) :
    Does (writePacket []) ⟨n, true⟩ [b] [eot] [] (.error (wrongByte b "expected NAK"))
      ⟨n, true⟩ := by
  have hend : Does finishTransmit ⟨n, true⟩ [b] [eot] []
      (.error (wrongByte b "expected NAK")) ⟨n, true⟩ :=
    (does_writeByte eot _).then (expectByte_wrong hb _ _).error
  exact writePacket_finish hend.error

/-- The second `EOT` has to be answered by an `ACK`; any other byte is an error. -/
theorem writePacket_end_wrong_ack {b : UInt8} (hb : b ≠ ack) (n : UInt8) :
    Does (writePacket []) ⟨n, true⟩ [nak, b] [eot, eot] []
      (.error (wrongByte b "expected ACK")) ⟨n, true⟩ := by
  have hend : Does finishTransmit ⟨n, true⟩ [nak, b] [eot, eot] []
      (.error (wrongByte b "expected ACK")) ⟨n, true⟩ :=
    (does_writeByte eot _).then ((expectByte_ok nak _ _).then ((does_writeByte eot _).then
      (expectByte_wrong hb _ _).error))
  exact writePacket_finish hend.error

/-- The transmitter waits after each of the two `EOT`s. -/
theorem writePacket_end_stalls (n : UInt8) :
    Stalls (writePacket []) ⟨n, true⟩ [] [eot] [] ⟨n, true⟩ ∧
      Stalls (writePacket []) ⟨n, true⟩ [nak] [eot, eot] [] ⟨n, true⟩ := by
  have hfirst : Stalls finishTransmit ⟨n, true⟩ [] [eot] [] ⟨n, true⟩ :=
    (does_writeByte eot _).stalls (expectByte_stalls nak _ _).first
  have hsecond : Stalls finishTransmit ⟨n, true⟩ [nak] [eot, eot] [] ⟨n, true⟩ :=
    (does_writeByte eot _).stalls ((expectByte_ok nak _ _).stalls ((does_writeByte eot _).stalls
      (expectByte_stalls ack _ _).first))
  constructor
  · obtain ⟨k, hk, heof⟩ := hfirst.first (f := fun _ => pure 0)
    exact ⟨k, writePacket_finish hk, heof⟩
  · obtain ⟨k, hk, heof⟩ := hsecond.first (f := fun _ => pure 0)
    exact ⟨k, writePacket_finish hk, heof⟩

end

/-! ### Attempts -/

section

variable {message : String} {m : Session α} {used : ℕ} {x x' : Xmodem} {i w : List UInt8}
  {e : List Event}

/-- The attempts that are left when `used` of the ten are used up. -/
theorem retry_left (hused : used ≤ 9) :
    retry message m (10 - used) =
      fun x => (m x).bind (onInterrupted (retry message m (10 - (used + 1)))) := by
  have hleft : 10 - used = 10 - (used + 1) + 1 := by omega
  rw [hleft, retry]

/-- A success ends the attempts, however many have been made. -/
theorem retry_ok (hused : used ≤ 9) {a : α} (h : Does m x i w e (.ok a) x') :
    Does (retry message m (10 - used)) x i w e (.ok a) x' := by
  rw [Does, retry_left hused]
  exact Prog.Steps.bind h _

/-- An error that is not a damaged packet ends the attempts as well. -/
theorem retry_error (hused : used ≤ 9) {err : IoError} (hkind : err.kind ≠ .interrupted)
    (h : Does m x i w e (.error err) x') :
    Does (retry message m (10 - used)) x i w e (.error err) x' := by
  have hlast := Prog.Steps.bind h (onInterrupted (retry message m (10 - (used + 1))))
  rw [Prog.bind, onInterrupted, if_neg hkind] at hlast
  rw [Does, retry_left hused]
  exact hlast

/-- An interrupted attempt is followed by the attempts that are left. -/
theorem retry_interrupted (hused : used ≤ 9) {err : IoError} (hkind : err.kind = .interrupted)
    (h : Does m x i w e (.error err) x') :
    Prog.Steps (retry message m (10 - used) x) i w e (retry message m (10 - (used + 1)) x') := by
  have hnext := Prog.Steps.bind h (onInterrupted (retry message m (10 - (used + 1))))
  rw [Prog.bind, onInterrupted, if_pos hkind] at hnext
  rw [retry_left hused]
  exact hnext

/-- An attempt that waits makes the whole loop wait. -/
theorem retry_stalls (hused : used ≤ 9) (h : Stalls m x i w e x') :
    Stalls (retry message m (10 - used)) x i w e x' := by
  obtain ⟨k, hk, heof⟩ := h
  rw [Stalls, retry_left hused]
  refine ⟨_, Prog.Steps.bind hk _, ?_⟩
  simp only [heof, Prog.bind, onInterrupted]
  rfl

/-- Steps that only start the transfer are made before the attempts are counted. -/
theorem retry_start {k : ℕ} (h : Prog.Steps (m x) i w e (m x')) :
    Prog.Steps (retry message m (k + 1) x) i w e (retry message m (k + 1) x') :=
  Prog.Steps.bind h _

end

/-! ### Sessions in a loop -/

section

variable {σ ρ : Type} {body : σ → Talk (σ ⊕ ρ)} {fuel : ℕ} {m : Session α} {x x' : Xmodem}
  {i w : List UInt8} {e : List Event}

/-- A session that waits at the end of the stream, inside a loop. -/
theorem execLoop_stalls (h : Stalls m x i w e x')
    (f : Except IoError α × Xmodem → Talk (σ ⊕ ρ)) :
    execLoop eofError body fuel ((m x).bind f) i =
      (execLoop eofError body fuel (f (.error eofError, x')) []).map (Outcome.after w e) := by
  obtain ⟨k, hk, heof⟩ := h
  have hsteps : execLoop eofError body fuel ((m x).bind f) (i ++ []) = _ :=
    execLoop_steps (Prog.Steps.bind hk f) []
  rw [List.append_nil] at hsteps
  rw [hsteps, Prog.bind, execLoop_eof, heof, Prog.bind]

end

end OsLabs.Xmodem
