import Mathlib
import OsLabs.XmodemPackets

/-!
# What the XMODEM Receiver Accepts

The receiver against an arbitrary, possibly malicious sender. `Accepts` is the grammar of
the streams that end a transfer well: good frames in the order of their numbers, each
after at most nine frames with a wrong checksum, and two `EOT`. `Rejects` classifies the
other streams by the kind of error they lead to.

## Main results

* `accepts_or_rejects`: every stream is accepted or rejected.
* `Accepts.exec`, `Rejects.exec`: the run of `receive` on either kind of stream.
* `receive_accepts_grammar`: `receive` succeeds exactly on the accepted streams, with the
  payloads in the sink, and fails on the others with the error of their class.
-/

namespace OsLabs.Xmodem

open Session

/-- The kind of error for a byte that is not the expected one. -/
def wrongKind (b : UInt8) : ErrorKind := if b = can then .connectionAborted else .invalidData

/-- The checksum is the sum of the bytes modulo 256. -/
theorem toNat_getChecksum (buf : List UInt8) :
    (getChecksum buf).toNat = (buf.map UInt8.toNat).sum % 256 := by
  have hfold : ∀ (buf : List UInt8) (a : UInt8),
      (buf.foldl (fun a b => a + b) a).toNat = (a.toNat + (buf.map UInt8.toNat).sum) % 256 := by
    intro buf
    induction buf with
    | nil =>
        intro a
        have := a.toNat_lt
        rw [List.foldl_nil, List.map_nil, List.sum_nil, Nat.add_zero, Nat.mod_eq_of_lt this]
    | cons b buf ih =>
        intro a
        rw [List.foldl_cons, ih, List.map_cons, List.sum_cons, UInt8.toNat_add, Nat.mod_add_mod,
          Nat.add_assoc]
  rw [getChecksum, hfold, UInt8.toNat_zero, Nat.zero_add]

/-- **The accepted streams**: `Accepts n bad stream ps` when `n` is the number of the next
packet, `bad` frames with a wrong checksum have just been received in a row, and the
payloads still to come are `ps`. -/
inductive Accepts : UInt8 → ℕ → List UInt8 → List (List UInt8) → Prop
  | done (n : UInt8) (bad : ℕ) (rest : List UInt8) : Accepts n bad (eot :: eot :: rest) []
  | good {n : UInt8} {bad : ℕ} {payload rest : List UInt8} {ps : List (List UInt8)} :
      payload.length = 128 → Accepts (n + 1) 0 rest ps →
      Accepts n bad (frame n payload ++ rest) (payload :: ps)
  | bad {n c : UInt8} {bad : ℕ} {payload rest : List UInt8} {ps : List (List UInt8)} :
      payload.length = 128 → c ≠ getChecksum payload → bad < 9 → Accepts n (bad + 1) rest ps →
      Accepts n bad (rawFrame n payload c ++ rest) ps

/-- **The rejected streams**, with the kind of the error. -/
inductive Rejects : UInt8 → ℕ → List UInt8 → ErrorKind → Prop
  | first {n b : UInt8} {bad : ℕ} {rest : List UInt8} :
      b ≠ soh → b ≠ eot → Rejects n bad (b :: rest) (wrongKind b)
  | number {n b : UInt8} {bad : ℕ} {rest : List UInt8} :
      b ≠ n → Rejects n bad (soh :: b :: rest) (wrongKind b)
  | complement {n b : UInt8} {bad : ℕ} {rest : List UInt8} :
      b ≠ 255 - n → Rejects n bad (soh :: n :: b :: rest) (wrongKind b)
  | secondEot {n b : UInt8} {bad : ℕ} {rest : List UInt8} :
      b ≠ eot → Rejects n bad (eot :: b :: rest) (wrongKind b)
  | tenth {n c : UInt8} {payload rest : List UInt8} :
      payload.length = 128 → c ≠ getChecksum payload →
      Rejects n 9 (rawFrame n payload c ++ rest) .brokenPipe
  | truncated {n : UInt8} {bad : ℕ} {stream : List UInt8} :
      Partial n stream → Rejects n bad stream .unexpectedEof
  | good {n : UInt8} {bad : ℕ} {payload rest : List UInt8} {kind : ErrorKind} :
      payload.length = 128 → Rejects (n + 1) 0 rest kind →
      Rejects n bad (frame n payload ++ rest) kind
  | bad {n c : UInt8} {bad : ℕ} {payload rest : List UInt8} {kind : ErrorKind} :
      payload.length = 128 → c ≠ getChecksum payload → bad < 9 → Rejects n (bad + 1) rest kind →
      Rejects n bad (rawFrame n payload c ++ rest) kind

/-- A stream that goes on for a whole frame after its header. -/
theorem exists_frame {t : List UInt8} (ht : 128 < t.length) (n : UInt8) :
    ∃ payload c rest, payload.length = 128 ∧ rest.length < t.length ∧
      soh :: n :: (255 - n) :: t = rawFrame n payload c ++ rest := by
  refine ⟨t.take 128, t.get ⟨128, ht⟩, t.drop 129, ?_, ?_, ?_⟩
  · rw [List.length_take]
    omega
  · rw [List.length_drop]
    omega
  · rw [rawFrame, List.cons_append, List.cons_append, List.cons_append, List.append_assoc,
      List.singleton_append]
    have hsplit := List.take_append_drop 128 t
    rw [List.drop_eq_getElem_cons ht] at hsplit
    conv_lhs => rw [← hsplit]
    rfl

/-- **Every stream is accepted or rejected**, whatever its bytes and wherever it ends. -/
theorem accepts_or_rejects (stream : List UInt8) (n : UInt8) {bad : ℕ} (hbad : bad ≤ 9) :
    (∃ ps, Accepts n bad stream ps) ∨ ∃ kind, Rejects n bad stream kind := by
  induction hlen : stream.length using Nat.strongRecOn generalizing stream n bad with
  | ind len ih =>
  subst hlen
  rcases stream with - | ⟨b, t⟩
  · exact Or.inr ⟨_, Rejects.truncated Partial.start⟩
  by_cases heot : b = eot
  · subst heot
    rcases t with - | ⟨b, t⟩
    · exact Or.inr ⟨_, Rejects.truncated Partial.eot⟩
    by_cases hb : b = eot
    · subst hb
      exact Or.inl ⟨[], Accepts.done n bad t⟩
    · exact Or.inr ⟨_, Rejects.secondEot hb⟩
  by_cases hsoh : b = soh
  swap
  · exact Or.inr ⟨_, Rejects.first hsoh heot⟩
  subst hsoh
  rcases t with - | ⟨b, t⟩
  · exact Or.inr ⟨_, Rejects.truncated Partial.soh⟩
  by_cases hb : b = n
  swap
  · exact Or.inr ⟨_, Rejects.number hb⟩
  subst hb
  rcases t with - | ⟨m, t⟩
  · exact Or.inr ⟨_, Rejects.truncated Partial.number⟩
  by_cases hm : m = 255 - b
  swap
  · exact Or.inr ⟨_, Rejects.complement hm⟩
  subst hm
  by_cases ht : t.length ≤ 128
  · exact Or.inr ⟨_, Rejects.truncated (Partial.payload ht)⟩
  obtain ⟨payload, c, rest, hp, hrest, heq⟩ := exists_frame (Nat.lt_of_not_le ht) b
  have hlt : rest.length < (soh :: b :: (255 - b) :: t).length := by
    simp only [List.length_cons]
    omega
  rw [heq]
  by_cases hc : c = getChecksum payload
  · subst hc
    rcases ih rest.length hlt rest (b + 1) (Nat.zero_le 9) rfl with ⟨ps, hps⟩ | ⟨kind, hkind⟩
    · exact Or.inl ⟨_, Accepts.good hp hps⟩
    · exact Or.inr ⟨_, Rejects.good hp hkind⟩
  · rcases Nat.lt_or_eq_of_le hbad with hlt9 | rfl
    · rcases ih rest.length hlt rest b hlt9 rfl with ⟨ps, hps⟩ | ⟨kind, hkind⟩
      · exact Or.inl ⟨_, Accepts.bad hp hc hlt9 hps⟩
      · exact Or.inr ⟨_, Rejects.bad hp hc hlt9 hkind⟩
    · exact Or.inr ⟨_, Rejects.tenth hp hc⟩

/-! ### Runs of the receiver -/

/-- The buffers written to the sink. -/
def sinks (events : List Event) : List (List UInt8) :=
  events.filterMap fun
    | .sink buf => some buf
    | .progress _ => none

/-- The receiver inside a turn, with `bad` attempts used up. -/
def receiving (n : UInt8) (bad : ℕ) (packet : List UInt8) (received : ℕ) :
    Talk (Receive ⊕ Except IoError ℕ) :=
  (retry "bad receive" (readPacket packet) (10 - bad) ⟨n, true⟩).bind (afterReceive received)

section

variable {n c : UInt8} {bad received fuel : ℕ} {packet payload i w : List UInt8}
  {e : List Event}

/-- A turn that ends with an error. -/
theorem receiving_error (hbad : bad ≤ 9) {err : IoError} (hkind : err.kind ≠ .interrupted)
    (h : Does (readPacket packet) ⟨n, true⟩ i w e (.error err) ⟨n, true⟩) :
    Prog.Steps (receiving n bad packet received) i w e (.ret (.inr (.error err))) :=
  Prog.Steps.bind (retry_error hbad hkind h) (afterReceive received)

/-- A turn that the end of the stream ends. -/
theorem receiving_stalls (hbad : bad ≤ 9)
    (h : Stalls (readPacket packet) ⟨n, true⟩ i w e ⟨n, true⟩) :
    execLoop eofError receiveTurn (fuel + 1) (receiving n bad packet received) i =
      some ⟨.error eofError, [], w, e⟩ := by
  rw [receiving, execLoop_stalls (retry_stalls hbad h), afterReceive, execLoop_done,
    Option.map_some, Outcome.after_mk, List.append_nil, List.append_nil]

/-- A turn that meets the two `EOT`s ends the transfer with the number of bytes received. -/
theorem receiving_end (hpacket : packet.length = 128) (hbad : bad ≤ 9) (n : UInt8)
    (received : ℕ) :
    Prog.Steps (receiving n bad packet received) [eot, eot] [nak, ack] []
      (.ret (.inr (.ok received))) :=
  Prog.Steps.bind (retry_ok hbad (readPacket_end hpacket.ge n)) (afterReceive received)

/-- A turn that waits for the second `EOT`. -/
theorem receiving_end_stalls (hpacket : packet.length = 128) (hbad : bad ≤ 9) (n : UInt8) :
    Stalls (retry "bad receive" (readPacket packet) (10 - bad)) ⟨n, true⟩ [eot] [nak] []
      ⟨n, true⟩ :=
  retry_stalls hbad (readPacket_end_stalls hpacket.ge n)

/-- A turn that reads a good packet delivers it to the sink and counts its bytes. -/
theorem receiving_good (hpacket : packet.length = 128) (hp : payload.length = 128)
    (hbad : bad ≤ 9) (n : UInt8) (received : ℕ) :
    Prog.Steps (receiving n bad packet received) (frame n payload) [ack]
      [.progress (.packet (n + 1)), .sink payload]
      (.ret (.inl ⟨⟨n + 1, true⟩, payload, received + 128⟩)) := by
  have hsink : Prog.Steps (afterReceive received (.ok (128, payload), ⟨n + 1, true⟩)) [] []
      [.sink payload] (.ret (.inl ⟨⟨n + 1, true⟩, payload, received + 128⟩)) :=
    Prog.Steps.emit (Prog.Steps.refl _)
  have hgood : Prog.Steps (receiving n bad packet received) _ _ _ _ :=
    Prog.Steps.bind (retry_ok hbad (readPacket_good hpacket.ge (hp.trans hpacket.symm) n))
      (afterReceive received)
  have hsteps := hgood.trans hsink
  rw [List.append_nil] at hsteps
  exact hsteps

/-- An attempt that fails and leaves others. -/
theorem receiving_bad (hpacket : packet.length = 128) (hp : payload.length = 128)
    (hc : c ≠ getChecksum payload) (hbad : bad < 9) (n : UInt8) (received : ℕ) :
    Prog.Steps (receiving n bad packet received) (rawFrame n payload c) [nak] []
      (receiving n (bad + 1) packet received) :=
  (retry_interrupted (Nat.le_of_lt hbad) rfl
    (readPacket_bad hpacket.ge (hp.trans hpacket.symm) hc n)).bind (afterReceive received)

/-- The tenth failed attempt at a packet ends the transfer with an error. -/
theorem receiving_tenth (hpacket : packet.length = 128) (hp : payload.length = 128)
    (hc : c ≠ getChecksum payload) (n : UInt8) (received : ℕ) :
    Prog.Steps (receiving n 9 packet received) (rawFrame n payload c) [nak] []
      (.ret (.inr (.error ⟨.brokenPipe, "bad receive"⟩))) :=
  (retry_interrupted (Nat.le_refl 9) rfl
    (readPacket_bad hpacket.ge (hp.trans hpacket.symm) hc n)).bind (afterReceive received)

end

/-- A `CAN` in the place of another byte is an abort, any other byte invalid data. -/
theorem wrongByte_kind (b : UInt8) (expected : String) :
    (wrongByte b expected).kind = wrongKind b := by
  rw [wrongByte, wrongKind]
  split <;> rfl

/-- **The receiver on an accepted stream** succeeds, with the payloads in the sink. -/
theorem Accepts.exec {n : UInt8} {bad : ℕ} {stream : List UInt8} {ps : List (List UInt8)}
    (h : Accepts n bad stream ps) (hbad : bad ≤ 9) {packet : List UInt8}
    (hpacket : packet.length = 128) (received : ℕ) {fuel : ℕ} (hfuel : stream.length ≤ fuel) :
    ∃ out, execLoop eofError receiveTurn (fuel + 1) (receiving n bad packet received) stream =
      some out ∧ out.result = .ok (received + 128 * ps.length) ∧ sinks out.emitted = ps := by
  induction h generalizing packet received fuel with
  | done n bad rest =>
      exact ⟨_, execLoop_result (receiving_end hpacket hbad n received) rest, rfl, rfl⟩
  | @good n bad payload rest ps hp _ ih =>
      simp only [frame, rawFrame, List.length_append, List.length_cons] at hfuel
      obtain ⟨fuel, rfl⟩ : ∃ fuel', fuel = fuel' + 1 := ⟨fuel - 1, by omega⟩
      have hlen : rest.length ≤ fuel := by omega
      obtain ⟨out, hrun, hresult, hsinks⟩ := ih (Nat.zero_le 9) hp (received + 128) hlen
      refine ⟨out.after [ack] [.progress (.packet (n + 1)), .sink payload], ?_, ?_, ?_⟩
      · rw [execLoop_steps (receiving_good hpacket hp hbad n received), execLoop_again]
        exact congrArg _ hrun
      · rw [List.length_cons, Nat.mul_succ, Nat.add_comm _ 128, ← Nat.add_assoc]
        exact hresult
      · rw [← hsinks]
        rfl
  | @bad n c bad payload rest ps hp hc hlt _ ih =>
      simp only [rawFrame, List.length_append, List.length_cons] at hfuel
      have hlen : rest.length ≤ fuel := by omega
      obtain ⟨out, hrun, hresult, hsinks⟩ := ih hlt hpacket received hlen
      refine ⟨out.after [nak] [], ?_, hresult, hsinks⟩
      rw [execLoop_steps (receiving_bad hpacket hp hc hlt n received), hrun, Option.map_some]

/-- **The receiver on a rejected stream** fails, with an error of the stream's kind. -/
theorem Rejects.exec {n : UInt8} {bad : ℕ} {stream : List UInt8} {kind : ErrorKind}
    (h : Rejects n bad stream kind) (hbad : bad ≤ 9) {packet : List UInt8}
    (hpacket : packet.length = 128) (received : ℕ) {fuel : ℕ} (hfuel : stream.length ≤ fuel) :
    ∃ out err, execLoop eofError receiveTurn (fuel + 1) (receiving n bad packet received) stream =
      some out ∧ out.result = .error err ∧ err.kind = kind := by
  induction h generalizing packet received fuel with
  | first hs he =>
      exact ⟨_, _, execLoop_result (receiving_error hbad (wrongByte_kind_ne _ _)
        (readPacket_wrong_first hpacket.ge hs he _)) _, rfl, wrongByte_kind _ _⟩
  | number hb =>
      exact ⟨_, _, execLoop_result (receiving_error hbad (wrongByte_kind_ne _ _)
        (readPacket_wrong_number hpacket.ge hb)) _, rfl, wrongByte_kind _ _⟩
  | complement hb =>
      exact ⟨_, _, execLoop_result (receiving_error hbad (wrongByte_kind_ne _ _)
        (readPacket_wrong_complement hpacket.ge hb)) _, rfl, wrongByte_kind _ _⟩
  | secondEot hb =>
      exact ⟨_, _, execLoop_result (receiving_error hbad (wrongByte_kind_ne _ _)
        (readPacket_wrong_end hpacket.ge hb _)) _, rfl, wrongByte_kind _ _⟩
  | tenth hp hc =>
      exact ⟨_, _, execLoop_result (receiving_tenth hpacket hp hc _ received) _, rfl, rfl⟩
  | truncated hpartial =>
      obtain ⟨w, hstalls⟩ := readPacket_stalls hpacket.ge hpartial
      exact ⟨_, _, receiving_stalls hbad hstalls, rfl, rfl⟩
  | @good n bad payload rest kind hp _ ih =>
      simp only [frame, rawFrame, List.length_append, List.length_cons] at hfuel
      obtain ⟨fuel, rfl⟩ : ∃ fuel', fuel = fuel' + 1 := ⟨fuel - 1, by omega⟩
      have hlen : rest.length ≤ fuel := by omega
      obtain ⟨out, err, hrun, hresult, hkind⟩ := ih (Nat.zero_le 9) hp (received + 128) hlen
      refine ⟨out.after [ack] [.progress (.packet (n + 1)), .sink payload], err, ?_, hresult,
        hkind⟩
      rw [execLoop_steps (receiving_good hpacket hp hbad n received), execLoop_again]
      exact congrArg _ hrun
  | @bad n c bad payload rest kind hp hc hlt _ ih =>
      simp only [rawFrame, List.length_append, List.length_cons] at hfuel
      have hlen : rest.length ≤ fuel := by omega
      obtain ⟨out, err, hrun, hresult, hkind⟩ := ih hlt hpacket received hlen
      refine ⟨out.after [nak] [], err, ?_, hresult, hkind⟩
      rw [execLoop_steps (receiving_bad hpacket hp hc hlt n received), hrun, Option.map_some]

/-- The first turn asks for the transmission. -/
theorem receiveTurn_start {packet : List UInt8} (hpacket : packet.length = 128) (n : UInt8)
    (received : ℕ) :
    Prog.Steps (receiveTurn ⟨⟨n, false⟩, packet, received⟩) [] [nak] [.progress .started]
      (receiving n 0 packet received) :=
  Prog.Steps.bind (retry_start (readPacket_start hpacket.ge n)) (afterReceive received)

/-- **The receiver accepts exactly its grammar.** On every stream `receive` returns. It
returns `Ok(r)` if and only if the stream is accepted and `r` is 128 times the number of
good frames; then the sink holds exactly their payloads, in order. Every other stream is
rejected, and the error is of the kind that `Rejects` gives it. -/
theorem receive_accepts_grammar (stream : List UInt8) (k : ℕ) :
    ∃ out, execLoop eofError receiveTurn (stream.length + 1 + k) receive stream = some out ∧
      (∀ r, out.result = .ok r ↔ ∃ ps, Accepts 1 0 stream ps ∧ r = 128 * ps.length) ∧
      (∀ ps, Accepts 1 0 stream ps → sinks out.emitted = ps) ∧
      ((¬ ∃ ps, Accepts 1 0 stream ps) →
        ∃ err, out.result = .error err ∧ Rejects 1 0 stream err.kind) := by
  have hpacket : (List.replicate 128 (0 : UInt8)).length = 128 := List.length_replicate
  have hfuel : stream.length ≤ stream.length + k := Nat.le_add_right _ k
  have hstart : execLoop eofError receiveTurn (stream.length + k + 1) receive ([] ++ stream) = _ :=
    execLoop_steps (receiveTurn_start hpacket 1 0) stream
  rw [Nat.add_right_comm]
  rcases accepts_or_rejects stream 1 (Nat.zero_le 9) with ⟨ps, hps⟩ | ⟨kind, hkind⟩
  · obtain ⟨out, hrun, hresult, hsinks⟩ := hps.exec (Nat.zero_le 9) hpacket 0 hfuel
    rw [hrun, Option.map_some] at hstart
    rw [Nat.zero_add] at hresult
    -- the run determines the payloads, so there is one way to accept the stream
    have hunique : ∀ ps', Accepts 1 0 stream ps' → ps' = ps := by
      intro ps' hps'
      obtain ⟨out', hrun', -, hsinks'⟩ := hps'.exec (Nat.zero_le 9) hpacket 0 hfuel
      rw [hrun, Option.some.injEq] at hrun'
      rw [← hsinks', ← hrun', hsinks]
    refine ⟨_, hstart, fun r => ⟨fun hr => ⟨ps, hps, ?_⟩, ?_⟩, ?_, fun hno => ?_⟩
    · exact (Except.ok.inj (hresult.symm.trans hr)).symm
    · rintro ⟨ps', hps', rfl⟩
      rw [hunique ps' hps']
      exact hresult
    · intro ps' hps'
      rw [hunique ps' hps', ← hsinks]
      rfl
    · exact absurd ⟨ps, hps⟩ hno
  · obtain ⟨out, err, hrun, hresult, rfl⟩ := hkind.exec (Nat.zero_le 9) hpacket 0 hfuel
    rw [hrun, Option.map_some] at hstart
    have hno : ∀ ps, ¬ Accepts 1 0 stream ps := by
      intro ps hps
      obtain ⟨out', hrun', hok, -⟩ := hps.exec (Nat.zero_le 9) hpacket 0 hfuel
      rw [hrun, Option.some.injEq] at hrun'
      rw [← hrun', hresult] at hok
      simp at hok
    refine ⟨_, hstart, fun r => ⟨fun hr => ?_, ?_⟩, fun ps hps => absurd hps (hno ps),
      fun _ => ⟨err, hresult, hkind⟩⟩
    · have hbad := hresult.symm.trans hr
      simp at hbad
    · rintro ⟨ps, hps, -⟩
      exact absurd hps (hno ps)

end OsLabs.Xmodem
