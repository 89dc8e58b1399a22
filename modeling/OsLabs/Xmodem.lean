import OsLabs.Resumption

/-!
# XMODEM

`lib/xmodem` sends and receives data in packets of 128 bytes. The methods of
`Xmodem<R>` change the packet number and the flag `started`, talk to the inner stream
and return an `io::Result`; here they are sessions, programs of `OsLabs.Resumption` with
that state and that result. A call of the progress callback and a write into the sink
are outputs of the program.

`transmit` and `receive` are loops over sessions. The data that `transmit` sends comes
from a reader that may return less than it is asked for and may fail; its script says
when.

Conventions: a read of the inner stream is the `read_exact` of one byte, a write the
`write_all` of one byte, so either fails with an error other than `Interrupted` or not
at all. Byte counts of type `usize` do not overflow.
-/

namespace OsLabs

/-- The kinds of errors that the code distinguishes. -/
inductive ErrorKind where
  | unexpectedEof
  | invalidData
  | connectionAborted
  | interrupted
  | brokenPipe
  | other (code : ℕ)
deriving DecidableEq

/-- `io::Error`. -/
structure IoError where
  kind : ErrorKind
  message : String
deriving DecidableEq

/-- The fields of `Xmodem<R>` besides the inner stream and the callback. -/
structure Xmodem where
  packet : UInt8
  started : Bool

namespace Xmodem

/-- `SOH`. -/
def soh : UInt8 := 0x01

/-- `EOT`. -/
def eot : UInt8 := 0x04

/-- `ACK`. -/
def ack : UInt8 := 0x06

/-- `NAK`. -/
def nak : UInt8 := 0x15

/-- `CAN`. -/
def can : UInt8 := 0x18

/-- The values of `Progress` that the code reports. -/
inductive Progress where
  | waiting
  | started
  | packet (n : UInt8)
deriving DecidableEq

/-- The outputs besides the inner stream: progress, and buffers written to the sink. -/
inductive Event where
  | progress (p : Progress)
  | sink (buf : List UInt8)
deriving DecidableEq

/-- `Xmodem::new`. -/
def new : Xmodem := ⟨1, false⟩

/-- The error of `read_exact` at the end of the stream. -/
def eofError : IoError := ⟨.unexpectedEof, "failed to fill whole buffer"⟩

/-! ### Sessions -/

/-- A program over the inner stream. -/
abbrev Talk (α : Type) : Type := Prog IoError UInt8 Event α

/-- A method of `Xmodem<R>` that returns `io::Result<α>`. -/
def Session (α : Type) : Type := Xmodem → Talk (Except IoError α × Xmodem)

instance : Monad Session where
  pure a := fun x => .ret (.ok a, x)
  bind m f := fun x => (m x).bind fun
    | (.ok a, x) => f a x
    | (.error e, x) => .ret (.error e, x)

namespace Session

variable {α : Type}

/-- `ioerr!`. -/
def fail (kind : ErrorKind) (message : String) : Session α := fun x =>
  .ret (.error ⟨kind, message⟩, x)

/-- The current fields. -/
def get : Session Xmodem := fun x => .ret (.ok x, x)

/-- `self.started = true`. -/
def setStarted : Session Unit := fun x => .ret (.ok (), { x with started := true })

/-- `self.packet = self.packet.wrapping_add(1)`. -/
def nextPacket : Session Unit := fun x => .ret (.ok (), { x with packet := x.packet + 1 })

/-- A call of the progress callback. -/
def report (p : Progress) : Session Unit := fun x =>
  .emit (.progress p) fun _ => .ret (.ok (), x)

/-- One byte from the inner stream. -/
def readOne : Session UInt8 := fun x => .read fun r => .ret (r, x)

/-- One byte to the inner stream. -/
def writeOne (b : UInt8) : Session Unit := fun x => .write b fun r => .ret (r, x)

/-- `inner.read_exact(buf)` for a buffer of length `n`. -/
def readExact : ℕ → Session (List UInt8)
  | 0 => pure []
  | n + 1 => do
    let b ← readOne
    let buf ← readExact n
    pure (b :: buf)

/-- `inner.write_all(buf)`. -/
def writeAll : List UInt8 → Session Unit
  | [] => pure ()
  | b :: buf => do
    writeOne b
    writeAll buf

/-- `Err(ref e) if e.kind() == Interrupted => continue`, with `next` the attempts that are
left. -/
def onInterrupted (next : Session α) : Except IoError α × Xmodem → Talk (Except IoError α × Xmodem)
  | (.ok a, x) => .ret (.ok a, x)
  | (.error e, x) => if e.kind = .interrupted then next x else .ret (.error e, x)

/-- The `for _ in 0..n` loops around a packet: an `Interrupted` packet is tried again, and
after `n` attempts the transfer fails. -/
def retry (message : String) (m : Session α) : ℕ → Session α
  | 0 => fail .brokenPipe message
  | n + 1 => fun x => (m x).bind (onInterrupted (retry message m n))

end Session

open Session

/-! ### Single bytes -/

/-- `read_byte`. -/
def readByte (abortOnCan : Bool) : Session UInt8 := do
  let byte ← readOne
  if abortOnCan = true ∧ byte = can then
    fail .connectionAborted "received CAN"
  else
    pure byte

/-- `write_byte`. -/
def writeByte (byte : UInt8) : Session Unit := writeOne byte

/-- `expect_byte_or_cancel`. -/
def expectByteOrCancel (byte : UInt8) (expected : String) : Session UInt8 := do
  let b ← readByte false
  if b = byte then
    pure b
  else do
    writeByte can
    if b = can then
      fail .connectionAborted "received CAN"
    else
      fail .invalidData expected

/-- `expect_byte`. -/
def expectByte (byte : UInt8) (expected : String) : Session UInt8 := do
  let b ← readByte false
  if b = byte then
    pure b
  else if b = can then
    fail .connectionAborted "received CAN"
  else
    fail .invalidData expected

/-- `get_checksum`. -/
def getChecksum (buf : List UInt8) : UInt8 := buf.foldl (fun a b => a + b) 0

/-! ### Receiving a packet -/

/-- The start of a reception. -/
def startReceive : Session Unit := do
  let x ← get
  if x.started then
    pure ()
  else do
    writeByte nak
    setStarted
    report .started

/-- The end of a transmission, after its first `EOT`. -/
def finishReceive : Session Unit := do
  writeByte nak
  let _ ← expectByte eot "expected EOT"
  writeByte ack

/-- The payload of a packet, read into a buffer of length `len`, and its checksum. -/
def receivePayload (len : ℕ) : Session (List UInt8) := do
  let buf ← readExact len
  let checksum ← readByte false
  if checksum ≠ getChecksum buf then do
    writeByte nak
    fail .interrupted "checksum failed"
  else do
    nextPacket
    let x ← get
    report (.packet x.packet)
    writeByte ack
    pure buf

/-- The packet after its `SOH`. -/
def receiveFrame (len : ℕ) : Session (List UInt8) := do
  let x ← get
  let _ ← expectByteOrCancel x.packet "expected packet number"
  let _ ← expectByteOrCancel (255 - x.packet) "expected packet number complement"
  receivePayload len

/-- `read_packet`: the returned count and the contents of the buffer. -/
def readPacket (buf : List UInt8) : Session (ℕ × List UInt8) :=
  if buf.length < 128 then
    fail .unexpectedEof "buffer too small"
  else do
    startReceive
    let firstByte ← readByte true
    if firstByte = eot then do
      finishReceive
      pure (0, buf)
    else if firstByte ≠ soh then do
      writeByte can
      fail .invalidData "expected SOH"
    else do
      let buf ← receiveFrame buf.length
      pure (128, buf)

/-! ### Sending a packet -/

/-- The start of a transmission. -/
def startTransmit : Session Unit := do
  let x ← get
  if x.started then
    pure ()
  else do
    report .waiting
    let _ ← expectByte nak "expected NAK"
    setStarted
    report .started

/-- The end of a transmission. -/
def finishTransmit : Session Unit := do
  writeByte eot
  let _ ← expectByte nak "expected NAK"
  writeByte eot
  let _ ← expectByte ack "expected ACK"
  pure ()

/-- The frame of a packet. -/
def sendFrame (buf : List UInt8) : Session Unit := do
  let x ← get
  writeByte soh
  writeByte x.packet
  writeByte (255 - x.packet)
  writeAll buf
  writeByte (getChecksum buf)

/-- The answer to a packet. -/
def awaitReply : Session Unit := do
  let receiveByte ← readByte true
  if receiveByte = ack then do
    let x ← get
    report (.packet x.packet)
    nextPacket
  else if receiveByte = nak then
    fail .interrupted "NAK received"
  else do
    writeByte can
    fail .invalidData "expected ACK or NAK"

/-- `write_packet`. -/
def writePacket (buf : List UInt8) : Session ℕ :=
  if buf.length < 128 ∧ buf.length ≠ 0 then
    fail .unexpectedEof "buffer too small"
  else do
    startTransmit
    if buf.length = 0 then do
      finishTransmit
      pure 0
    else do
      sendFrame buf
      awaitReply
      pure 128

/-! ### The source of the data -/

/-- What the source does at one call of `read`: return at most `n + 1` bytes, or fail. -/
inductive ReadEvent where
  | short (n : ℕ)
  | error (e : IoError)

/-- A source: the data it still has to return, and what its next calls of `read` do.
Beyond the script it returns all it is asked for. -/
structure Reader where
  pending : List UInt8
  script : List ReadEvent

namespace Reader

/-- `read` into a buffer of length `len`. -/
def read (len : ℕ) (r : Reader) : Except IoError (List UInt8) × Reader :=
  match r.script with
  | [] => (.ok (r.pending.take len), { r with pending := r.pending.drop len })
  | .short n :: script =>
    (.ok (r.pending.take (min len (n + 1))), ⟨r.pending.drop (min len (n + 1)), script⟩)
  | .error e :: script => (.error e, ⟨r.pending, script⟩)

/-- A read uses up no more than is there. -/
theorem script_read_le (len : ℕ) (r : Reader) :
    (r.read len).2.script.length ≤ r.script.length := by
  rw [read]
  split <;> simp_all

/-- A read that fails uses up its error. -/
theorem script_read_lt {len : ℕ} {r : Reader} {e : IoError} (h : (r.read len).1 = .error e) :
    (r.read len).2.script.length < r.script.length := by
  rw [read] at h ⊢
  split at h <;> simp_all

/-- `read_max` into a buffer of length `len`: the bytes read. -/
def readMax (len : ℕ) (r : Reader) : Except IoError (List UInt8) × Reader :=
  if len = 0 then
    (.ok [], r)
  else
    match _hread : (r.read len).1 with
    | .ok [] => (.ok [], (r.read len).2)
    | .ok (b :: bytes) =>
      match readMax (len - (bytes.length + 1)) (r.read len).2 with
      | (.ok more, r) => (.ok (b :: bytes ++ more), r)
      | (.error e, r) => (.error e, r)
    | .error e =>
      if e.kind = .interrupted then readMax len (r.read len).2 else (.error e, (r.read len).2)
termination_by len + r.script.length
decreasing_by
  · have := script_read_le len r
    omega
  · have := script_read_lt _hread
    omega

end Reader

/-! ### Transfers -/

/-- The variables of `transmit` between packets. -/
structure Transmit where
  transmitter : Xmodem
  data : Reader
  written : ℕ

/-- The end of `transmit`, after `write_packet(&[])`. -/
def afterEnd (written : ℕ) :
    Except IoError ℕ × Xmodem → Talk (Transmit ⊕ Except IoError ℕ)
  | (.ok _, _) => .ret (.inr (.ok written))
  | (.error e, _) => .ret (.inr (.error e))

/-- The end of a turn of `transmit`, after the attempts to send a packet. -/
def afterSend (data : Reader) (written : ℕ) :
    Except IoError ℕ × Xmodem → Talk (Transmit ⊕ Except IoError ℕ)
  | (.ok _, transmitter) => .ret (.inl ⟨transmitter, data, written⟩)
  | (.error e, _) => .ret (.inr (.error e))

/-- One turn of the loop `'next_packet` of `transmit_with_progress`. -/
def transmitTurn (s : Transmit) : Talk (Transmit ⊕ Except IoError ℕ) :=
  match s.data.readMax 128 with
  | (.error e, _) => .ret (.inr (.error e))
  | (.ok bytes, data) =>
    let n := bytes.length
    let packet := bytes ++ List.replicate (128 - n) 0
    if n = 0 then
      (writePacket [] s.transmitter).bind (afterEnd s.written)
    else
      (retry "bad transmit" (writePacket packet) 10 s.transmitter).bind
        (afterSend data (s.written + n))

/-- `transmit_with_progress`, up to the first turn of its loop. -/
def transmit (data : Reader) : Talk (Transmit ⊕ Except IoError ℕ) :=
  transmitTurn ⟨new, data, 0⟩

/-- The variables of `receive` between packets. -/
structure Receive where
  receiver : Xmodem
  packet : List UInt8
  received : ℕ

/-- The end of a turn of `receive`, after the attempts to read a packet. -/
def afterReceive (received : ℕ) :
    Except IoError (ℕ × List UInt8) × Xmodem → Talk (Receive ⊕ Except IoError ℕ)
  | (.ok (0, _), _) => .ret (.inr (.ok received))
  | (.ok (n, packet), receiver) =>
    .emit (.sink packet) fun
      | .ok () => .ret (.inl ⟨receiver, packet, received + n⟩)
      | .error e => .ret (.inr (.error e))
  | (.error e, _) => .ret (.inr (.error e))

/-- One turn of the loop `'next_packet` of `receive_with_progress`. -/
def receiveTurn (s : Receive) : Talk (Receive ⊕ Except IoError ℕ) :=
  (retry "bad receive" (readPacket s.packet) 10 s.receiver).bind (afterReceive s.received)

/-- `receive_with_progress`, up to the first turn of its loop. -/
def receive : Talk (Receive ⊕ Except IoError ℕ) :=
  receiveTurn ⟨new, List.replicate 128 0, 0⟩

end Xmodem

end OsLabs
