import OsLabs.XmodemPackets

/-!
# What the XMODEM Transmitter Sends

The transmitter against an arbitrary receiver. The data is cut into `packets`, whatever
the source's reads return; what the transmitter sends and whether it succeeds is then a
function of the packets and of the bytes it is answered with: `transcript` and `Answers`.

## Main results

* `Reader.readMax_spec`: a source that is only interrupted delivers its data in order.
* `packets_flatten`: the packets are the data, padded with zeroes.
* `transmit_transcript`: `transmit` succeeds exactly on the answers of `Answers`, and in
  every run it has sent exactly the bytes of `transcript`.
-/

namespace OsLabs.Xmodem

open Session

/-! ### Reading the data -/

namespace Reader

/-- A source whose only errors are interruptions. -/
def OnlyInterrupted (r : Reader) : Prop :=
  ∀ e, .error e ∈ r.script → e.kind = .interrupted

/-- One `read` of such a source: some more of the data, or an interruption. -/
theorem read_cases {r : Reader} (h : r.OnlyInterrupted) {len : ℕ} (hlen : 0 < len) :
    (∃ n, 1 ≤ n ∧ n ≤ len ∧ (r.read len).1 = .ok (r.pending.take n) ∧
      (r.read len).2.pending = r.pending.drop n ∧ (r.read len).2.OnlyInterrupted) ∨
    (∃ e : IoError, e.kind = .interrupted ∧ (r.read len).1 = .error e ∧
      (r.read len).2.pending = r.pending ∧ (r.read len).2.OnlyInterrupted) := by
  obtain ⟨pending, script⟩ := r
  rcases script with - | ⟨n | e, script⟩
  · exact Or.inl ⟨len, hlen, Nat.le_refl len, rfl, rfl, h⟩
  · refine Or.inl ⟨min len (n + 1), by omega, by omega, rfl, rfl, fun e he => ?_⟩
    exact h e (List.mem_cons_of_mem _ he)
  · refine Or.inr ⟨e, h e List.mem_cons_self, rfl, rfl, fun e' he => ?_⟩
    exact h e' (List.mem_cons_of_mem _ he)

/-- The bytes of a short read, followed by those of the reads after it. -/
theorem take_drop_split {α : Type} {l : List α} {n len : ℕ} (hn : n ≤ len) :
    l.take len = l.take n ++ (l.drop n).take (len - min n l.length) ∧
      l.drop len = (l.drop n).drop (len - min n l.length) := by
  have hsum : n + (len - n) = len := by omega
  by_cases hl : n ≤ l.length
  · rw [Nat.min_eq_left hl]
    constructor
    · rw [← List.take_add, hsum]
    · rw [List.drop_drop, hsum]
  · -- the data ends within the short read
    have hnil : l.drop n = [] := List.drop_eq_nil_of_le (by omega)
    constructor
    · rw [hnil, List.take_nil, List.append_nil, List.take_of_length_le (by omega),
        List.take_of_length_le (by omega)]
    · rw [hnil, List.drop_nil, List.drop_eq_nil_of_le (by omega)]

/-- A `read` that returns nothing ends `read_max`. -/
theorem readMax_end {r : Reader} {len : ℕ} (hlen : len ≠ 0)
    (hread : (r.read len).1 = .ok []) : r.readMax len = (.ok [], (r.read len).2) := by
  rw [readMax, if_neg hlen]
  split <;> simp_all

/-- A `read` that returns data is followed by more. -/
theorem readMax_more {r : Reader} {len : ℕ} (hlen : len ≠ 0) {b : UInt8} {bytes : List UInt8}
    (hread : (r.read len).1 = .ok (b :: bytes)) {more : List UInt8} {r' : Reader}
    (hmore : (r.read len).2.readMax (len - (bytes.length + 1)) = (.ok more, r')) :
    r.readMax len = (.ok (b :: bytes ++ more), r') := by
  rw [readMax, if_neg hlen]
  split
  · simp_all
  · next hcons =>
      rw [hread, Except.ok.injEq, List.cons.injEq] at hcons
      obtain ⟨rfl, rfl⟩ := hcons
      rw [hmore]
  · simp_all

/-- A `read` that is interrupted is made again, with the same buffer. -/
theorem readMax_again {r : Reader} {len : ℕ} (hlen : len ≠ 0) {e : IoError}
    (hkind : e.kind = .interrupted) (hread : (r.read len).1 = .error e) :
    r.readMax len = (r.read len).2.readMax len := by
  rw [readMax, if_neg hlen]
  split <;> simp_all

/-- **`read_max` returns the next bytes of the data**, as many as the buffer holds. -/
theorem readMax_spec {r : Reader} (h : r.OnlyInterrupted) (len : ℕ) :
    ∃ r', r.readMax len = (.ok (r.pending.take len), r') ∧
      r'.pending = r.pending.drop len ∧ r'.OnlyInterrupted := by
  induction hm : len + r.script.length using Nat.strongRecOn generalizing r len with
  | ind m ih =>
  subst hm
  by_cases hlen : len = 0
  · subst hlen
    exact ⟨r, by rw [readMax, if_pos rfl, List.take_zero], rfl, h⟩
  rcases read_cases h (Nat.pos_of_ne_zero hlen) with
    ⟨n, hn, hnlen, hread, hpending, hr⟩ | ⟨e, hkind, hread, hpending, hr⟩
  · rcases hbytes : r.pending.take n with - | ⟨b, bytes⟩
    · -- nothing is returned: the data is at its end
      obtain hpend : r.pending = [] := (List.take_eq_nil_iff.mp hbytes).resolve_left (by omega)
      rw [hbytes] at hread
      refine ⟨_, ?_, ?_, hr⟩
      · rw [readMax_end hlen hread, hpend, List.take_nil]
      · rw [hpending, hpend, List.drop_nil, List.drop_nil]
    · have hlength : bytes.length + 1 = min n r.pending.length := by
        rw [← List.length_take, hbytes, List.length_cons]
      have hscript := script_read_le len r
      obtain ⟨r', hrest, hpending', hr'⟩ := ih _ (by omega) hr (len - (bytes.length + 1)) rfl
      obtain ⟨htake, hdrop⟩ := take_drop_split (l := r.pending) hnlen
      rw [← hlength] at htake hdrop
      rw [hpending] at hrest hpending'
      rw [hbytes] at hread
      refine ⟨r', ?_, hpending'.trans hdrop.symm, hr'⟩
      rw [readMax_more hlen hread hrest, htake, hbytes]
  · have hscript := script_read_lt hread
    obtain ⟨r', hrest, hpending', hr'⟩ := ih _ (by omega) hr len rfl
    rw [hpending] at hrest hpending'
    exact ⟨r', by rw [readMax_again hlen hkind hread, hrest], hpending', hr'⟩

end Reader

/-! ### Packets -/

/-- A packet from what is left of the data, padded with zeroes. -/
def pad (bytes : List UInt8) : List UInt8 := bytes ++ List.replicate (128 - bytes.length) 0

/-- The packets of the data. -/
def packets (data : List UInt8) : List (List UInt8) :=
  (List.range ((data.length + 127) / 128)).map fun i => pad ((data.drop (128 * i)).take 128)

/-- The data are cut into packets of 128 bytes, the last one padded. -/
theorem length_packets (data : List UInt8) :
    (packets data).length = (data.length + 127) / 128 := by
  rw [packets, List.length_map, List.length_range]

/-- The packets of data that is not at its end. -/
theorem packets_of_ne_nil {data : List UInt8} (h : data ≠ []) :
    packets data = pad (data.take 128) :: packets (data.drop 128) := by
  have hpos := List.length_pos_of_ne_nil h
  have hcount : (data.length + 127) / 128 = ((data.drop 128).length + 127) / 128 + 1 := by
    rw [List.length_drop]
    omega
  rw [packets, packets, hcount, List.range_succ_eq_map, List.map_cons, List.map_map,
    Nat.mul_zero, List.drop_zero]
  refine congrArg _ (List.map_congr_left fun i _ => ?_)
  rw [Function.comp_apply, List.drop_drop, Nat.mul_succ, Nat.add_comm]

/-- A packet of at most 128 bytes is padded to 128 bytes. -/
theorem length_pad {bytes : List UInt8} (h : bytes.length ≤ 128) : (pad bytes).length = 128 := by
  rw [pad, List.length_append, List.length_replicate]
  omega

/-- The first packet of any data has 128 bytes. -/
theorem length_pad_take (data : List UInt8) : (pad (data.take 128)).length = 128 :=
  length_pad (by rw [List.length_take]; omega)

/-- The first packet of any data is long enough for `write_packet`. -/
theorem le_length_pad_take (data : List UInt8) : 128 ≤ (pad (data.take 128)).length :=
  Nat.le_of_eq (length_pad_take data).symm

/-- Data that is consumed packet by packet. -/
theorem packets_induction {P : List UInt8 → Prop} (nil : P [])
    (step : ∀ data, data ≠ [] → P (data.drop 128) → P data) (data : List UInt8) : P data := by
  induction hlen : data.length using Nat.strongRecOn generalizing data with
  | ind len ih =>
  subst hlen
  by_cases h : data = []
  · rw [h]
    exact nil
  · have hpos := List.length_pos_of_ne_nil h
    exact step data h (ih _ (by rw [List.length_drop]; omega) _ rfl)

/-- **The packets are the data**, padded with zeroes to the next multiple of 128. -/
theorem packets_flatten (data : List UInt8) :
    (packets data).flatten =
      data ++ List.replicate (128 * ((data.length + 127) / 128) - data.length) 0 := by
  induction data using packets_induction with
  | nil => rfl
  | step data h ih =>
      have hpos := List.length_pos_of_ne_nil h
      rw [packets_of_ne_nil h, List.flatten_cons, ih, pad, List.length_take, List.length_drop]
      by_cases hlong : 128 ≤ data.length
      · have hpadding : 128 - min 128 data.length = 0 := by omega
        have hrest : 128 * ((data.length - 128 + 127) / 128) - (data.length - 128) =
            128 * ((data.length + 127) / 128) - data.length := by omega
        rw [hpadding, hrest, List.replicate_zero, List.append_nil, ← List.append_assoc,
          List.take_append_drop]
      · have hone : 128 * ((data.length + 127) / 128) - data.length = 128 - data.length := by
          omega
        have hrest : 128 * ((data.length - 128 + 127) / 128) - (data.length - 128) = 0 := by omega
        rw [hone, hrest, List.replicate_zero, List.append_nil,
          List.drop_eq_nil_of_le (by omega), List.append_nil, List.take_of_length_le (by omega),
          Nat.min_eq_right (by omega)]

/-! ### The expected answers and the bytes sent -/

/-- The answers to the remaining packets that end a transfer well, when the current packet
has been asked for again `naks` times: each packet is acknowledged after at most nine
`NAK`, and the end of the transmission is answered by `NAK` and `ACK`. -/
inductive Replies : ℕ → ℕ → List UInt8 → Prop
  | done (naks : ℕ) (rest : List UInt8) : Replies 0 naks (nak :: ack :: rest)
  | acked {m naks : ℕ} {rest : List UInt8} : Replies m 0 rest → Replies (m + 1) naks (ack :: rest)
  | again {m naks : ℕ} {rest : List UInt8} :
      naks < 9 → Replies (m + 1) (naks + 1) rest → Replies (m + 1) naks (nak :: rest)

/-- The answers that end a transfer of `m` packets well. -/
def Answers (m : ℕ) (stream : List UInt8) : Prop :=
  ∃ rest, stream = nak :: rest ∧ Replies m 0 rest

/-- The bytes sent once the transfer has started, as a function of the answers: a frame
for each attempt at a packet, with the next number after an `ACK` and the same frame after
a `NAK`; nothing after the tenth `NAK` or after a `CAN`; a `CAN` after any other answer;
after the last packet an `EOT`, and a second one after a `NAK`. -/
def transcript (n : UInt8) (naks : ℕ) : List (List UInt8) → List UInt8 → List UInt8
  | [], [] => [eot]
  | [], b :: _ => if b = nak then [eot, eot] else [eot]
  | packet :: _, [] => frame n packet
  | packet :: ps, b :: stream =>
    frame n packet ++
      if b = ack then transcript (n + 1) 0 ps stream
      else if b = nak then
        if naks < 9 then transcript n (naks + 1) (packet :: ps) stream else []
      else if b = can then [] else [can]

/-- The bytes sent: nothing before the receiver's first `NAK`. -/
def sent (ps : List (List UInt8)) : List UInt8 → List UInt8
  | [] => []
  | b :: stream => if b = nak then transcript 1 0 ps stream else []

/-! ### Runs of the transmitter -/

section

variable {r : Reader}

/-- A turn at the end of the data. -/
theorem transmitTurn_nil (hr : r.OnlyInterrupted) (hdata : r.pending = []) (x : Xmodem)
    (written : ℕ) :
    transmitTurn ⟨x, r, written⟩ = (writePacket [] x).bind (afterEnd written) := by
  obtain ⟨r', hread, -, -⟩ := Reader.readMax_spec hr 128
  rw [hdata, List.take_nil] at hread
  rw [transmitTurn]
  simp only [hread, List.length_nil, if_true]

/-- A turn with data left sends the next packet, and the rest of the data is left. -/
theorem transmitTurn_cons (hr : r.OnlyInterrupted) (hdata : r.pending ≠ []) :
    ∃ r', r'.pending = r.pending.drop 128 ∧ r'.OnlyInterrupted ∧ ∀ x written,
      transmitTurn ⟨x, r, written⟩ =
        (retry "bad transmit" (writePacket (pad (r.pending.take 128))) 10 x).bind
          (afterSend r' (written + (r.pending.take 128).length)) := by
  obtain ⟨r', hread, hpending, hr'⟩ := Reader.readMax_spec hr 128
  have hne : (r.pending.take 128).length ≠ 0 := by
    have := List.length_pos_of_ne_nil hdata
    rw [List.length_take]
    omega
  refine ⟨r', hpending, hr', fun x written => ?_⟩
  rw [transmitTurn]
  simp only [hread, if_neg hne]
  rfl

end

/-- What a run of the transmitter must end with, when `total` bytes of data count as
written on success. -/
structure Sent (ps : List (List UInt8)) (n : UInt8) (naks : ℕ) (stream : List UInt8)
    (total : ℕ) (out : Outcome UInt8 Event (Except IoError ℕ)) : Prop where
  written : out.written = transcript n naks ps stream
  result : ∀ m, out.result = .ok m ↔ m = total ∧ Replies ps.length naks stream

/-- The transmitter inside a turn, with `naks` attempts used up. -/
def sending (n : UInt8) (naks : ℕ) (packet : List UInt8) (data : Reader) (written : ℕ) :
    Talk (Transmit ⊕ Except IoError ℕ) :=
  (retry "bad transmit" (writePacket packet) (10 - naks) ⟨n, true⟩).bind (afterSend data written)

section

variable {n : UInt8} {naks fuel : ℕ} {written : ℕ}

/-- A run that ends with an error is right when the answers do not end the transfer
well. -/
theorem Sent.of_error {ps : List (List UInt8)} {stream : List UInt8} {total : ℕ}
    {err : IoError} {rest w : List UInt8} {e : List Event}
    (hw : w = transcript n naks ps stream) (hno : ¬ Replies ps.length naks stream) :
    Sent ps n naks stream total ⟨.error err, rest, w, e⟩ :=
  ⟨hw, fun m => ⟨fun h => by simp at h, fun h => absurd h.2 hno⟩⟩

/-- **The end of the transmission**, whatever the answers. -/
theorem exec_end (n : UInt8) (naks written : ℕ) (stream : List UInt8) (fuel : ℕ) :
    ∃ out, execLoop eofError transmitTurn (fuel + 1)
        ((writePacket [] ⟨n, true⟩).bind (afterEnd written)) stream = some out ∧
      Sent [] n naks stream written out := by
  obtain ⟨hfirst, hsecond⟩ := writePacket_end_stalls n
  rcases stream with - | ⟨b, stream⟩
  · rw [execLoop_stalls hfirst]
    exact ⟨_, rfl, Sent.of_error rfl fun h => by cases h⟩
  by_cases hb : b = nak
  swap
  · refine ⟨_, execLoop_result (Prog.Steps.bind (writePacket_end_wrong_nak hb n)
      (afterEnd written)) stream, Sent.of_error ?_ fun h => ?_⟩
    · rw [transcript, if_neg hb]
    · cases h
      exact hb rfl
  subst hb
  rcases stream with - | ⟨b, stream⟩
  · rw [execLoop_stalls hsecond]
    exact ⟨_, rfl, Sent.of_error rfl fun h => by cases h⟩
  by_cases hb : b = ack
  swap
  · refine ⟨_, execLoop_result (Prog.Steps.bind (writePacket_end_wrong_ack hb n)
      (afterEnd written)) stream, Sent.of_error rfl fun h => ?_⟩
    cases h
    exact hb rfl
  subst hb
  refine ⟨_, execLoop_result (Prog.Steps.bind (writePacket_end n) (afterEnd written)) stream,
    rfl, fun m => ⟨fun h => ⟨?_, Replies.done naks stream⟩, ?_⟩⟩
  · exact (Except.ok.inj h).symm
  · rintro ⟨rfl, -⟩
    rfl

end

section

variable {n : UInt8} {naks written fuel : ℕ} {packet : List UInt8} {r : Reader}

/-- A packet that is sent and waits for its answer. -/
theorem sending_stalls (hpacket : packet.length = 128) (hnaks : naks ≤ 9) (n : UInt8) :
    Stalls (retry "bad transmit" (writePacket packet) (10 - naks)) ⟨n, true⟩ [] (frame n packet)
      [] ⟨n, true⟩ :=
  retry_stalls hnaks (writePacket_stalls (Nat.le_of_eq hpacket.symm) n)

/-- A turn that ends with an error. -/
theorem sending_error (hnaks : naks ≤ 9) {err : IoError} (hkind : err.kind ≠ .interrupted)
    {i w : List UInt8} {e : List Event}
    (h : Does (writePacket packet) ⟨n, true⟩ i w e (.error err) ⟨n, true⟩) :
    Prog.Steps (sending n naks packet r written) i w e (.ret (.inr (.error err))) :=
  Prog.Steps.bind (retry_error hnaks hkind h) (afterSend r written)

/-- A turn whose packet is acknowledged ends, and the next packet gets the next number. -/
theorem sending_ack (hpacket : packet.length = 128) (hnaks : naks ≤ 9) (n : UInt8) (r : Reader)
    (written : ℕ) :
    Prog.Steps (sending n naks packet r written) [ack] (frame n packet) [.progress (.packet n)]
      (.ret (.inl ⟨⟨n + 1, true⟩, r, written⟩)) :=
  Prog.Steps.bind (retry_ok hnaks (writePacket_ack (Nat.le_of_eq hpacket.symm) n))
    (afterSend r written)

/-- A `NAK` that leaves attempts makes the turn send its packet again. -/
theorem sending_nak (hpacket : packet.length = 128) (hnaks : naks < 9) (n : UInt8) (r : Reader)
    (written : ℕ) :
    Prog.Steps (sending n naks packet r written) [nak] (frame n packet) []
      (sending n (naks + 1) packet r written) :=
  (retry_interrupted (Nat.le_of_lt hnaks) rfl (writePacket_nak (Nat.le_of_eq hpacket.symm) n)).bind
    (afterSend r written)

/-- The tenth `NAK` for one packet ends the transfer with an error. -/
theorem sending_tenth (hpacket : packet.length = 128) (n : UInt8) (r : Reader) (written : ℕ) :
    Prog.Steps (sending n 9 packet r written) [nak] (frame n packet) []
      (.ret (.inr (.error ⟨.brokenPipe, "bad transmit"⟩))) :=
  (retry_interrupted (Nat.le_refl 9) rfl (writePacket_nak (Nat.le_of_eq hpacket.symm) n)).bind
    (afterSend r written)

end

section

variable {n : UInt8} {naks total : ℕ} {packet stream : List UInt8} {ps : List (List UInt8)}
  {out : Outcome UInt8 Event (Except IoError ℕ)} {e : List Event}

/-- The packet is acknowledged, and the next one follows. -/
theorem Sent.acked (h : Sent ps (n + 1) 0 stream total out) :
    Sent (packet :: ps) n naks (ack :: stream) total (out.after (frame n packet) e) := by
  refine ⟨?_, fun m => (h.result m).trans (and_congr_right fun _ => ⟨Replies.acked, fun h => ?_⟩)⟩
  · rw [transcript, if_pos rfl, ← h.written]
    rfl
  · cases h with
    | acked h => exact h

/-- The packet is refused, and sent again if it has been refused less than ten times. -/
theorem Sent.again (hnaks : naks < 9) (h : Sent (packet :: ps) n (naks + 1) stream total out) :
    Sent (packet :: ps) n naks (nak :: stream) total (out.after (frame n packet) e) := by
  refine ⟨?_, fun m => (h.result m).trans
    (and_congr_right fun _ => ⟨Replies.again hnaks, fun h => ?_⟩)⟩
  · rw [transcript, if_neg (by decide), if_pos rfl, if_pos hnaks, ← h.written]
    rfl
  · cases h with
    | again _ h => exact h

end

/-- What the transmitter has still to send: `Sends n naks ps total p` when `p` is about to
send the packets `ps`, the first of which has the number `n` and has been asked for again
`naks` times, and when `total` bytes of data are written in the end. -/
inductive Sends (n : UInt8) (naks : ℕ) :
    List (List UInt8) → ℕ → Talk (Transmit ⊕ Except IoError ℕ) → Prop
  | finish (total : ℕ) : Sends n naks [] total ((writePacket [] ⟨n, true⟩).bind (afterEnd total))
  | packet {packet : List UInt8} {r : Reader} (written : ℕ) :
      packet.length = 128 → r.OnlyInterrupted →
      Sends n naks (packet :: packets r.pending) (written + r.pending.length)
        (sending n naks packet r written)

/-- A turn of the loop sends what is left of the data. -/
theorem sends_turn {r : Reader} (hr : r.OnlyInterrupted) (n : UInt8) (written : ℕ) :
    Sends n 0 (packets r.pending) (written + r.pending.length)
      (transmitTurn ⟨⟨n, true⟩, r, written⟩) := by
  by_cases hdata : r.pending = []
  · rw [transmitTurn_nil hr hdata, hdata]
    exact Sends.finish written
  · obtain ⟨r', hpending, hr', hturn⟩ := transmitTurn_cons hr hdata
    have hcount : written + (r.pending.take 128).length + r'.pending.length =
        written + r.pending.length := by
      rw [hpending, Nat.add_assoc, ← List.length_append, List.take_append_drop]
    rw [hturn, packets_of_ne_nil hdata, ← hpending, ← hcount]
    exact Sends.packet _ (length_pad_take r.pending) hr'

/-- **The transmitter after its start**, whatever the answers. -/
theorem Sends.exec {n : UInt8} {naks : ℕ} {ps : List (List UInt8)} {total : ℕ}
    {p : Talk (Transmit ⊕ Except IoError ℕ)} (h : Sends n naks ps total p) (hnaks : naks ≤ 9)
    {stream : List UInt8} {fuel : ℕ} (hfuel : stream.length ≤ fuel) :
    ∃ out, execLoop eofError transmitTurn (fuel + 1) p stream = some out ∧
      Sent ps n naks stream total out := by
  induction stream generalizing n naks ps p fuel with
  | nil =>
      cases h with
      | finish => exact exec_end n naks total [] fuel
      | packet written hpacket hr =>
          rw [sending, execLoop_stalls (sending_stalls hpacket hnaks n)]
          exact ⟨_, rfl, Sent.of_error (List.append_nil _) fun h => by cases h⟩
  | cons b stream ih =>
      rw [List.length_cons] at hfuel
      cases h with
      | finish => exact exec_end n naks total (b :: stream) fuel
      | @packet packet r written hpacket hr =>
          by_cases hack : b = ack
          · subst hack
            obtain ⟨fuel, rfl⟩ : ∃ fuel', fuel = fuel' + 1 := ⟨fuel - 1, by omega⟩
            obtain ⟨out, hrun, hsent⟩ := ih (sends_turn hr (n + 1) written) (Nat.zero_le 9)
              (Nat.le_of_succ_le_succ hfuel)
            have hacked : execLoop eofError transmitTurn (fuel + 1 + 1) _ ([ack] ++ stream) = _ :=
              execLoop_steps (sending_ack hpacket hnaks n r written) stream
            rw [execLoop_again, hrun, Option.map_some] at hacked
            exact ⟨_, hacked, hsent.acked⟩
          by_cases hnak : b = nak
          · subst hnak
            rcases Nat.lt_or_eq_of_le hnaks with hlt | rfl
            · obtain ⟨out, hrun, hsent⟩ := ih (Sends.packet written hpacket hr) hlt
                (Nat.le_of_succ_le hfuel)
              have hagain : execLoop eofError transmitTurn (fuel + 1) _ ([nak] ++ stream) = _ :=
                execLoop_steps (sending_nak hpacket hlt n r written) stream
              rw [hrun, Option.map_some] at hagain
              exact ⟨_, hagain, hsent.again hlt⟩
            · refine ⟨_, execLoop_result (sending_tenth hpacket n r written) stream,
                Sent.of_error ?_ fun h => ?_⟩
              · rw [transcript, if_neg (by decide), if_pos rfl, if_neg (by decide),
                  List.append_nil]
              · cases h with
                | again hlt _ => exact absurd hlt (by decide)
          · have hwrong := writePacket_wrong (Nat.le_of_eq hpacket.symm) hack hnak n
            refine ⟨_, execLoop_result (sending_error hnaks (wrongByte_kind_ne _ _) hwrong) stream,
              Sent.of_error ?_ fun h => ?_⟩
            · rw [transcript, if_neg hack, if_neg hnak]
            · cases h with
              | acked _ => exact hack rfl
              | again _ _ => exact hnak rfl

/-! ### The start of the transmission -/

section

variable {r : Reader}

/-- The first turn waits for the receiver's `NAK`. -/
theorem transmitTurn_start (hr : r.OnlyInterrupted) (n : UInt8) (written : ℕ) :
    Prog.Steps (transmitTurn ⟨⟨n, false⟩, r, written⟩) [nak] []
      [.progress .waiting, .progress .started] (transmitTurn ⟨⟨n, true⟩, r, written⟩) := by
  by_cases hdata : r.pending = []
  · rw [transmitTurn_nil hr hdata, transmitTurn_nil hr hdata]
    exact (writePacket_start (Or.inr rfl) n).bind _
  · obtain ⟨r', -, -, hturn⟩ := transmitTurn_cons hr hdata
    rw [hturn, hturn]
    exact (retry_start (writePacket_start (Or.inl (le_length_pad_take _)) n)).bind _

/-- The first turn, answered by another byte. -/
theorem transmitTurn_start_wrong (hr : r.OnlyInterrupted) {b : UInt8} (hb : b ≠ nak) (n : UInt8)
    (written : ℕ) :
    Prog.Steps (transmitTurn ⟨⟨n, false⟩, r, written⟩) [b] [] [.progress .waiting]
      (.ret (.inr (.error (wrongByte b "expected NAK")))) := by
  by_cases hdata : r.pending = []
  · rw [transmitTurn_nil hr hdata]
    exact Prog.Steps.bind (writePacket_start_wrong (Or.inr rfl) hb n) _
  · obtain ⟨r', -, -, hturn⟩ := transmitTurn_cons hr hdata
    rw [hturn]
    exact Prog.Steps.bind (retry_error (Nat.zero_le 9) (wrongByte_kind_ne _ _)
      (writePacket_start_wrong (Or.inl (le_length_pad_take _)) hb n)) _

/-- The first turn waits for the receiver if there is no answer. -/
theorem transmitTurn_start_stalls (hr : r.OnlyInterrupted) (n : UInt8) (written fuel : ℕ) :
    execLoop eofError transmitTurn (fuel + 1) (transmitTurn ⟨⟨n, false⟩, r, written⟩) [] =
      some ⟨.error eofError, [], [], [.progress .waiting]⟩ := by
  by_cases hdata : r.pending = []
  · rw [transmitTurn_nil hr hdata, execLoop_stalls (writePacket_start_stalls (Or.inr rfl) n)]
    rfl
  · obtain ⟨r', -, -, hturn⟩ := transmitTurn_cons hr hdata
    have hstalls : Stalls (retry "bad transmit" (writePacket (pad (r.pending.take 128))) 10)
        ⟨n, false⟩ [] [] [.progress .waiting] ⟨n, false⟩ :=
      retry_stalls (Nat.zero_le 9) (writePacket_start_stalls (Or.inl (le_length_pad_take _)) n)
    rw [hturn, execLoop_stalls hstalls]
    rfl

end

/-- **The transmitter against an arbitrary receiver.** Whatever its answers are,
`transmit` returns. It returns `Ok`, with the length of the data, if and only if it is
answered by a `NAK`, then for each packet by at most nine `NAK` and an `ACK`, then by
`NAK` and `ACK`; and whether it succeeds or not, it has sent exactly the bytes that
`sent` derives from the answers. -/
theorem transmit_transcript (data : List UInt8) {script : List ReadEvent}
    (hscript : Reader.OnlyInterrupted ⟨data, script⟩) (stream : List UInt8) (k : ℕ) :
    ∃ out, execLoop eofError transmitTurn (stream.length + 1 + k) (transmit ⟨data, script⟩) stream =
        some out ∧
      (∀ m, out.result = .ok m ↔
        m = data.length ∧ Answers ((data.length + 127) / 128) stream) ∧
      out.written = sent (packets data) stream := by
  rw [Nat.add_right_comm]
  rcases stream with - | ⟨b, stream⟩
  · refine ⟨_, transmitTurn_start_stalls hscript 1 0 _, fun m => ⟨fun h => ?_, ?_⟩, rfl⟩
    · simp at h
    · rintro ⟨-, rest, hrest, -⟩
      simp at hrest
  by_cases hb : b = nak
  · subst hb
    have hfuel : stream.length ≤ (nak :: stream).length + k := by
      rw [List.length_cons]
      omega
    obtain ⟨out, hrun, hsent⟩ := (sends_turn hscript 1 0).exec (Nat.zero_le 9) hfuel
    have hstart : execLoop eofError transmitTurn ((nak :: stream).length + k + 1)
        (transmit ⟨data, script⟩) ([nak] ++ stream) = _ :=
      execLoop_steps (transmitTurn_start hscript 1 0) stream
    rw [hrun, Option.map_some] at hstart
    refine ⟨_, hstart, fun m => (hsent.result m).trans ?_, ?_⟩
    · rw [length_packets, Nat.zero_add]
      refine and_congr_right fun _ => ⟨fun h => ⟨stream, rfl, h⟩, ?_⟩
      rintro ⟨rest, hrest, h⟩
      cases hrest
      exact h
    · rw [sent, if_pos rfl, ← hsent.written]
      rfl
  · have hstart : execLoop eofError transmitTurn ((b :: stream).length + k + 1)
        (transmit ⟨data, script⟩) ([b] ++ stream) = _ :=
      execLoop_steps (transmitTurn_start_wrong hscript hb 1 0) stream
    refine ⟨_, hstart.trans rfl, fun m => ⟨fun h => ?_, ?_⟩, ?_⟩
    · simp [Outcome.after] at h
    · rintro ⟨-, rest, hrest, -⟩
      cases hrest
      exact absurd rfl hb
    · rw [sent, if_neg hb]
      rfl

/-- A source that returns one byte, is interrupted, and then returns the others. -/
theorem onlyInterrupted_once (data : List UInt8) :
    Reader.OnlyInterrupted ⟨data, [.short 0, .error ⟨.interrupted, "interrupted"⟩]⟩ := by
  intro e he
  simp only [List.mem_cons, reduceCtorEq, ReadEvent.error.injEq, List.not_mem_nil, or_false,
    false_or] at he
  rw [he]

/-- Three bytes, read in two parts and asked for twice. -/
theorem transmit_transcript_three_bytes :
    ∃ out, execLoop eofError transmitTurn 6
        (transmit ⟨[1, 2, 3], [.short 0, .error ⟨.interrupted, "interrupted"⟩]⟩)
        [nak, nak, ack, nak, ack] = some out ∧
      out.result = .ok 3 ∧ out.written = sent (packets [1, 2, 3]) [nak, nak, ack, nak, ack] := by
  obtain ⟨out, hrun, hresult, hwritten⟩ := transmit_transcript [1, 2, 3]
    (onlyInterrupted_once [1, 2, 3]) [nak, nak, ack, nak, ack] 0
  refine ⟨out, hrun, (hresult 3).mpr ⟨rfl, _, rfl, ?_⟩, hwritten⟩
  exact Replies.again (by decide) (Replies.acked (Replies.done 0 []))

end OsLabs.Xmodem
