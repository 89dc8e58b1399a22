import OsLabs.CommandParsing

/-!
# The Line Editor of the Shell

`read_command` keeps the bytes of a line and echoes them, by separate writes on each branch.
The terminal of `OsLabs.Shell` is proved to show, after every byte, what the buffer holds,
and the command that the line is can be run.

## Main results

* `Console.key_spec`: what one byte does to the buffer and what it sends.
* `Shows.feed`: the terminal follows.
* `keys_spec`: whole lines, byte after byte.
* `fromUtf8_eq_some`: printable bytes are UTF-8.
* `executeCommand_cases`: a command panics only if the line is not UTF-8, leaves the buffer
  empty, and ends the shell exactly if it is `exit`.
* `line_editor`: screen and buffer agree.
* `shell_ne_panic`: no input makes the shell panic.
-/

namespace OsLabs.Shell

/-! ### One byte -/

namespace Console

/-- The line buffer has room for 512 bytes. -/
theorem initial_capacity (reads : ℕ) : (initial reads).buf.capacity = 512 :=
  List.length_replicate

/-- Printing an empty text does nothing. -/
@[simp] theorem kprint_nil (s : Console) : s.kprint [] = s := rfl

/-- Printing changes nothing but the output, to which it appends. -/
theorem kprint_eq (s : Console) (text : Str) :
    ∃ sent, s.kprint text = { s with output := s.output ++ sent } := by
  induction text generalizing s with
  | nil => exact ⟨[], by simp⟩
  | cons byte text ih =>
      obtain ⟨sent, hsent⟩ :=
        ih ((if byte = 10 then s.writeByte 13 else s).writeByte byte)
      refine ⟨(if byte = 10 then [13, byte] else [byte]) ++ sent, ?_⟩
      refine Eq.trans hsent ?_
      split <;> simp [writeByte]

/-- Printing leaves the line buffer alone. -/
@[simp] theorem kprint_buf (s : Console) (text : Str) : (s.kprint text).buf = s.buf := by
  obtain ⟨sent, hsent⟩ := s.kprint_eq text
  rw [hsent]

/-- Printing one text after the other leaves the buffer. -/
theorem foldl_kprint_buf {α : Type} (text : α → Str) (l : List α) (s : Console) :
    (l.foldl (fun s a => s.kprint (text a)) s).buf = s.buf := by
  induction l generalizing s with
  | nil => rfl
  | cons a l ih => rw [List.foldl_cons, ih, kprint_buf]

/-- Text without a line feed is sent as it is. -/
theorem kprint_of_notMem (s : Console) {text : Str} (h : 10 ∉ text) :
    s.kprint text = { s with output := s.output ++ text } := by
  induction text generalizing s with
  | nil => simp
  | cons byte text ih =>
      rw [List.mem_cons, not_or] at h
      have hbyte : byte ≠ 10 := Ne.symm h.1
      have hstep : s.kprint (byte :: text) = (s.writeByte byte).kprint text := by
        simp only [kprint, List.foldl_cons, if_neg hbyte]
      rw [hstep, ih _ h.2]
      simp [writeByte]

/-- The bell is one byte of output. -/
theorem ringBellSound_eq (s : Console) :
    s.ringBellSound = { s with output := s.output ++ [7] } :=
  s.kprint_of_notMem (by simp)

/-- What `backspace` does: the last byte leaves the line, if there is one, and the cursor blanks
its cell; otherwise the bell rings. -/
theorem backspace_spec (s : Console) :
    s.backspace.buf.asSlice = s.buf.asSlice.dropLast ∧
      s.backspace.buf.capacity = s.buf.capacity ∧
      s.backspace.output = s.output ++ if s.buf.asSlice = [] then [7] else [8, 32, 8] := by
  rw [backspace]
  by_cases hnil : s.buf.asSlice = []
  · rw [if_pos (StackVec.isEmpty_iff.mpr hnil), ringBellSound_eq, if_pos hnil, hnil]
    exact ⟨rfl, rfl, rfl⟩
  · have hsend : s.kprint [8, 32, 8] = { s with output := s.output ++ [8, 32, 8] } :=
      s.kprint_of_notMem (by simp)
    obtain ⟨a, buf, hpop, hslice, hcap⟩ := StackVec.asSlice_pop hnil
    rw [if_neg fun h => hnil (StackVec.isEmpty_iff.mp h), hsend, if_neg hnil]
    simp only [hpop]
    exact ⟨by rw [hslice, List.dropLast_concat], hcap, trivial⟩

/-- What `store_command` does: the byte is stored and echoed while there is room; otherwise the
bell rings. -/
theorem storeCommand_spec (s : Console) (input : UInt8) :
    (s.storeCommand input).buf.capacity = s.buf.capacity ∧
      if s.buf.asSlice.length < s.buf.capacity then
        (s.storeCommand input).buf.asSlice = s.buf.asSlice ++ [input] ∧
          (s.storeCommand input).output = s.output ++ [input]
      else
        (s.storeCommand input).buf.asSlice = s.buf.asSlice ∧
          (s.storeCommand input).output = s.output ++ [7] := by
  have hle : s.buf.asSlice.length ≤ s.buf.capacity := by
    rw [StackVec.length_asSlice]
    exact s.buf.len_le
  rw [storeCommand]
  cases hpush : s.buf.push input with
  | none =>
      have hfull := StackVec.push_eq_none_iff.mp hpush
      rw [if_neg (by omega)]
      simp only [ringBellSound_eq, and_self]
  | some buf =>
      have hroom : s.buf.asSlice.length ≠ s.buf.capacity := fun hfull => by
        rw [StackVec.push_eq_none_iff.mpr hfull] at hpush
        simp at hpush
      obtain ⟨hslice, hcap⟩ := StackVec.asSlice_push hpush
      rw [if_pos (by omega)]
      exact ⟨hcap, hslice, rfl⟩

/-- **One byte** other than the end of the line: the buffer follows the edit rules, and
the echo is sent. -/
theorem key_spec {s : Console} (hcap : s.buf.capacity = 512) {byte : UInt8}
    (hline : byte ≠ 13 ∧ byte ≠ 10) :
    ∃ s', s.key byte = some s' ∧ s'.buf.capacity = 512 ∧
      s'.buf.asSlice = edit s.buf.asSlice byte ∧
      s'.output = s.output ++ echo s.buf.asSlice byte := by
  have hend : ¬ (byte = 13 ∨ byte = 10) := by simpa [not_or] using hline
  rw [key, if_neg hend]
  by_cases hback : byte = 8 ∨ byte = 127
  · have hprint : ¬ (32 ≤ byte ∧ byte ≤ 126) := by
      rcases hback with rfl | rfl <;> decide
    obtain ⟨hslice, hcap', hout⟩ := s.backspace_spec
    rw [if_pos hback, edit, echo, if_neg hprint, if_pos hback, if_neg hprint, if_pos hback]
    exact ⟨_, rfl, hcap'.trans hcap, hslice, hout⟩
  · rw [if_neg hback]
    by_cases hprint : 32 ≤ byte ∧ byte ≤ 126
    · obtain ⟨hcap', hstore⟩ := s.storeCommand_spec byte
      rw [hcap] at hstore
      rw [if_pos hprint, edit, echo, if_pos hprint, if_pos hprint]
      refine ⟨_, rfl, hcap'.trans hcap, ?_⟩
      split at hstore
      · rename_i hroom
        rwa [if_pos hroom, if_pos hroom]
      · rename_i hroom
        rwa [if_neg hroom, if_neg hroom]
    · rw [if_neg hprint, edit, echo, if_neg hprint, if_neg hback, if_neg hprint, if_neg hback,
        ringBellSound_eq]
      exact ⟨_, rfl, hcap, rfl, rfl⟩

end Console

/-! ### The terminal follows -/

section

variable {t : Terminal} {col : ℕ} {line : List UInt8}

/-- A printable byte is shown behind the line. -/
theorem Shows.put {byte : UInt8} (h : Shows t col line) (hbyte : 32 ≤ byte ∧ byte ≤ 126) :
    Shows (t.put byte) col (line ++ [byte]) ∧ ∀ j < col, (t.put byte).row j = t.row j := by
  have h8 : byte ≠ 8 := by
    rintro rfl
    exact absurd hbyte.1 (by decide)
  have h7 : byte ≠ 7 := by
    rintro rfl
    exact absurd hbyte.1 (by decide)
  have hput : t.put byte = ⟨Function.update t.row t.cursor byte, t.cursor + 1⟩ := by
    rw [Terminal.put, if_neg h8, if_neg h7, if_pos hbyte]
  rw [hput]
  refine ⟨⟨?_, fun j => ?_⟩, fun j hj => ?_⟩
  · simp only [h.cursor, List.length_append, List.length_singleton, Nat.add_assoc]
  · simp only [h.cursor]
    rcases lt_trichotomy j line.length with hlt | rfl | hgt
    · rw [Function.update_of_ne (by omega), h.row, List.getD_append _ _ _ _ hlt]
    · rw [Function.update_self]
      simp
    · rw [Function.update_of_ne (by omega), h.row, List.getD_eq_default _ _ hgt.le,
        List.getD_eq_default _ _ (by simpa using hgt)]
  · have hcur := h.cursor
    exact Function.update_of_ne (by omega) _ _

/-- Backspace, space, backspace takes the last byte off the screen. -/
theorem Shows.rubOut (h : Shows t col line) (hne : line ≠ []) :
    Shows (t.feed [8, 32, 8]) col line.dropLast ∧
      ∀ j < col, (t.feed [8, 32, 8]).row j = t.row j := by
  have hpos : 0 < line.length := List.length_pos_iff.mpr hne
  have hcur := h.cursor
  have hfeed : t.feed [8, 32, 8] =
      ⟨Function.update t.row (t.cursor - 1) 32, t.cursor - 1⟩ := by
    simp [Terminal.feed, Terminal.put]
  rw [hfeed]
  refine ⟨⟨?_, fun j => ?_⟩, fun j hj => ?_⟩
  · simp only [List.length_dropLast]
    omega
  · simp only
    by_cases hlt : j < line.length - 1
    · rw [Function.update_of_ne (by omega), h.row, List.getD_eq_getElem?_getD,
        List.getD_eq_getElem?_getD, List.getElem?_dropLast, if_pos hlt]
    · rw [List.getD_eq_default _ _ (by rw [List.length_dropLast]; omega)]
      by_cases heq : j = line.length - 1
      · rw [heq, show col + (line.length - 1) = t.cursor - 1 by omega, Function.update_self]
      · rw [Function.update_of_ne (by omega), h.row, List.getD_eq_default _ _ (by omega)]
  · exact Function.update_of_ne (by omega) _ _

/-- **The terminal follows the edit rules** when it is sent the echo. -/
theorem Shows.feed (h : Shows t col line) (byte : UInt8) :
    Shows (t.feed (echo line byte)) col (edit line byte) ∧
      ∀ j < col, (t.feed (echo line byte)).row j = t.row j := by
  have hbell : t.feed [7] = t := by simp [Terminal.feed, Terminal.put]
  rw [echo, edit]
  split
  · rename_i hprint
    split
    · exact h.put hprint
    · rw [hbell]
      exact ⟨h, fun _ _ => rfl⟩
  · split
    · by_cases hnil : line = []
      · subst hnil
        rw [if_pos rfl, hbell]
        exact ⟨h, fun _ _ => rfl⟩
      · rw [if_neg hnil]
        exact h.rubOut hnil
    · rw [hbell]
      exact ⟨h, fun _ _ => rfl⟩

end

/-- The edit rules keep a line printable. -/
theorem edit_printable {line : List UInt8} (h : ∀ b ∈ line, 32 ≤ b ∧ b ≤ 126)
    (byte : UInt8) : ∀ b ∈ edit line byte, 32 ≤ b ∧ b ≤ 126 := by
  intro b hb
  rw [edit] at hb
  split at hb
  · rename_i hprint
    split at hb
    · rcases List.mem_append.mp hb with hb | hb
      · exact h b hb
      · rw [List.mem_singleton.mp hb]
        exact hprint
    · exact h b hb
  · split at hb
    · exact h b (List.mem_of_mem_dropLast hb)
    · exact h b hb

/-- Whatever is typed, the line consists of printable bytes. -/
theorem foldl_edit_printable (typed : List UInt8) {line : List UInt8}
    (h : ∀ b ∈ line, 32 ≤ b ∧ b ≤ 126) : ∀ b ∈ typed.foldl edit line, 32 ≤ b ∧ b ≤ 126 := by
  induction typed generalizing line with
  | nil => exact h
  | cons byte typed ih => exact ih (edit_printable h byte)

/-- The terminal knows what to do with every byte of an echo. -/
theorem echo_known {line : List UInt8} {byte b : UInt8} (h : b ∈ echo line byte) :
    b = 7 ∨ b = 8 ∨ 32 ≤ b ∧ b ≤ 126 := by
  rw [echo] at h
  split at h
  · rename_i hprint
    split at h
    · rw [List.mem_singleton.mp h]
      exact Or.inr (Or.inr hprint)
    · exact Or.inl (List.mem_singleton.mp h)
  · split at h
    · split at h
      · exact Or.inl (List.mem_singleton.mp h)
      · simp only [List.mem_cons, List.not_mem_nil, or_false] at h
        rcases h with rfl | rfl | rfl
        · exact Or.inr (Or.inl rfl)
        · exact Or.inr (Or.inr (by decide))
        · exact Or.inr (Or.inl rfl)
    · exact Or.inl (List.mem_singleton.mp h)

/-! ### Whole lines -/

/-- The console after the bytes of a line have been read. -/
def Console.keys (s : Console) (typed : List UInt8) : Option Console := typed.foldlM Console.key s

/-- **Whole lines**, byte after byte: the buffer follows the edit rules, and what is sent
makes the terminal show it. Induction on the bytes. -/
theorem keys_spec (typed : List UInt8) :
    ∀ s : Console, s.buf.capacity = 512 → (∀ b ∈ typed, b ≠ 13 ∧ b ≠ 10) →
      ∃ s' sent, s.keys typed = some s' ∧ s'.buf.capacity = 512 ∧
        s'.buf.asSlice = typed.foldl edit s.buf.asSlice ∧ s'.output = s.output ++ sent ∧
        (∀ b ∈ sent, b = 7 ∨ b = 8 ∨ 32 ≤ b ∧ b ≤ 126) ∧
        ∀ t col, Shows t col s.buf.asSlice →
          Shows (t.feed sent) col s'.buf.asSlice ∧ ∀ j < col, (t.feed sent).row j = t.row j := by
  induction typed with
  | nil =>
      intro s hcap _
      exact ⟨s, [], rfl, hcap, rfl, by simp, by simp, fun t col h => ⟨h, fun _ _ => rfl⟩⟩
  | cons byte typed ih =>
      intro s hcap hline
      obtain ⟨s₁, hkey, hcap₁, hslice₁, hout₁⟩ :=
        Console.key_spec hcap (hline byte List.mem_cons_self)
      obtain ⟨s', sent, hkeys, hcap', hslice, hout, hknown, hterm⟩ :=
        ih s₁ hcap₁ fun b hb => hline b (List.mem_cons_of_mem byte hb)
      refine ⟨s', echo s.buf.asSlice byte ++ sent, ?_, hcap', ?_, ?_, fun b hb => ?_,
        fun t col h => ?_⟩
      · rw [Console.keys, List.foldlM_cons, hkey]
        exact hkeys
      · rw [hslice, hslice₁, List.foldl_cons]
      · rw [hout, hout₁, List.append_assoc]
      · rcases List.mem_append.mp hb with hb | hb
        · exact echo_known hb
        · exact hknown b hb
      · obtain ⟨hshows, hrow⟩ := h.feed byte
        rw [← hslice₁] at hshows
        obtain ⟨hshows', hrow'⟩ := hterm _ col hshows
        rw [Terminal.feed, List.foldl_append]
        exact ⟨hshows', fun j hj => (hrow' j hj).trans (hrow j hj)⟩

/-- `read_command` reads the bytes of a line one after the other. -/
theorem readCommand_append {typed : List UInt8} (rest : List UInt8) {s s' : Console}
    (h : s.keys typed = some s') :
    readCommand (typed ++ rest) s = readCommand rest s' := by
  induction typed generalizing s with
  | nil =>
      obtain rfl := Option.some.inj h
      rfl
  | cons byte typed ih =>
      rw [Console.keys, List.foldlM_cons, Option.bind_eq_bind, Option.bind_eq_some_iff] at h
      obtain ⟨s₁, hkey, hkeys⟩ := h
      rw [List.cons_append, readCommand, hkey]
      exact ih hkeys

/-- `read_command` ends with a carriage return or a line feed. -/
theorem readCommand_end {byte : UInt8} (h : byte = 13 ∨ byte = 10) (rest : List UInt8)
    (s : Console) : readCommand (byte :: rest) s = some (s, rest) := by
  have hkey : s.key byte = none := by
    rw [Console.key, if_neg (by rcases h with rfl | rfl <;> decide), if_pos h]
  rw [readCommand, hkey]

/-! ### Commands -/

/-- **Printable bytes are UTF-8**, each of them a character of its own. -/
theorem fromUtf8_eq_some {bytes : List UInt8} (h : ∀ b ∈ bytes, 32 ≤ b ∧ b ≤ 126) :
    fromUtf8 bytes = some bytes := by
  have hvalid : bytes.toByteArray.IsValidUTF8 := by
    refine ⟨bytes.map fun b => Char.ofNat b.toNat, ?_⟩
    rw [List.utf8Encode]
    congr 1
    induction bytes with
    | nil => rfl
    | cons b bytes ih =>
        have hb : b.toNat ≤ 126 := (h b List.mem_cons_self).2
        have hval : (Char.ofNat b.toNat).val.toNat = b.toNat := by
          have hvalid : b.toNat.isValidChar := Or.inl (by omega)
          rw [Char.ofNat, dif_pos hvalid]
          rfl
        have hchar : String.utf8EncodeChar (Char.ofNat b.toNat) = [b] := by
          simp only [String.utf8EncodeChar, hval]
          rw [if_pos (by omega), UInt8.ofNat_toNat]
        rw [List.map_cons, List.flatMap_cons, hchar,
          ← ih fun b' hb' => h b' (List.mem_cons_of_mem b hb')]
        rfl
  rw [fromUtf8, if_pos (ByteArray.validateUTF8_eq_true_iff.mpr hvalid)]

/-- The text that `str::from_utf8` returns is the bytes that it got. -/
theorem fromUtf8_eq {bytes text : List UInt8} (h : fromUtf8 bytes = some text) :
    text = bytes := by
  rw [fromUtf8] at h
  split at h
  · exact (Option.some.inj h).symm
  · cases h

section

variable {c : Counter}

/-- `spin_sleep` polls and does not panic, however long it is. -/
theorem sleepLoop_ne_panic (stop : Duration) (fuel n : ℕ) :
    sleepLoop c stop fuel n ≠ .error .panic := by
  induction fuel generalizing n with
  | zero => simp [sleepLoop]
  | succ fuel ih =>
      rw [sleepLoop]
      simp only
      split
      · exact ih _
      · simp

/-- Sleeping does not panic: the end of the sleep is not beyond the end of time. -/
theorem sysCallSleep_ne_panic {ms : ℕ} (hms : ms < 2 ^ 32) (fuel n : ℕ) :
    sysCallSleep c ms fuel n ≠ .error .panic := by
  have hadd : (c.currentTime n).1.checkedAdd (Duration.fromMillis ms) ≠ none := by
    refine Duration.checkedAdd_ne_none ?_
    have hlt := c.lt n
    have hmicros : c.micros n < 2 ^ 65 := by
      rw [c.micros_eq]
      omega
    have hw : wordSize = 2 ^ 64 := rfl
    simp only [Counter.currentTime, Counter.read, Duration.fromMicros, Duration.fromMillis]
    omega
  rw [sysCallSleep]
  simp only
  split
  · exact sleepLoop_ne_panic _ _ _
  · rename_i hnone
    exact absurd hnone hadd

/-- A number that is parsed fits in 32 bits. -/
theorem parseU32_lt {s : Str} {ms : ℕ} (h : parseU32 s = some ms) : ms < 2 ^ 32 := by
  simp only [parseU32] at h
  generalize (if s.head? = some 43 then s.tail else s) = digits at h
  split at h
  · simp at h
  · split at h
    · rename_i hlt
      exact Option.some.inj h ▸ hlt
    · simp at h

/-- `echo` prints its arguments and leaves the line buffer alone. -/
theorem sEcho_buf (args : List Str) (s : Console) : (sEcho args s).buf = s.buf := by
  rw [sEcho, Console.kprint_buf, Console.foldl_kprint_buf]

/-- What `s_sleep` can do: wait for longer than the fuel lasts, or return with the line buffer as
it was. It does not panic. -/
theorem sSleep_cases (fuel : ℕ) (arg : Str) (s : Console) :
    sSleep c fuel arg s = .error .spinning ∨
      ∃ s', sSleep c fuel arg s = .ok s' ∧ s'.buf = s.buf := by
  rw [sSleep]
  cases hms : parseU32 arg with
  | none => exact Or.inr ⟨_, rfl, by simp⟩
  | some ms =>
      have hpanic := sysCallSleep_ne_panic (c := c) (parseU32_lt hms) fuel s.reads
      cases hsleep : sysCallSleep c ms fuel s.reads with
      | ok reads => exact Or.inr ⟨_, by simp only [hsleep]; rfl, by simp⟩
      | error e =>
          cases e with
          | panic => exact absurd hsleep hpanic
          | spinning => exact Or.inl (by simp only [hsleep]; rfl)

/-- **What a command can do**: sleep on, or print and leave the buffer. -/
theorem runCommand_cases (fuel : ℕ) (path : Str) (args : List Str) (s : Console) :
    runCommand c fuel path args s = .error .spinning ∨
      ∃ s', runCommand c fuel path args s = .ok s' ∧ s'.buf = s.buf := by
  rw [runCommand]
  split
  · exact Or.inr ⟨_, rfl, sEcho_buf _ s⟩
  · split
    · exact Or.inr ⟨_, rfl, Console.kprint_buf _ _⟩
    · split
      · split
        · rename_i hlen
          rw [List.getElem?_eq_getElem (show 1 < args.length by omega)]
          exact sSleep_cases fuel _ s
        · split
          · exact Or.inr ⟨_, rfl, s.kprint_buf _⟩
          · exact Or.inr ⟨_, rfl, s.kprint_buf _⟩
      · exact Or.inr ⟨_, rfl, s.kprint_buf _⟩

/-- The line is the command `exit`, with arguments or not. -/
def Exits (line : Str) : Prop :=
  (pieces line).head? = some (utf8 "exit") ∧ (pieces line).length ≤ 64

/-- **What `execute_command` can do**: panic on a line that is not UTF-8, sleep on, or
return: true exactly on `exit`, and with an empty buffer on every other line. -/
theorem executeCommand_cases (fuel : ℕ) (s : Console) :
    (executeCommand c fuel s = .error .panic ∧ fromUtf8 s.buf.asSlice = none) ∨
      executeCommand c fuel s = .error .spinning ∨
      ∃ exit s', executeCommand c fuel s = .ok (exit, s') ∧
        (s'.buf = if exit then s.buf else s.buf.truncate 0) ∧
        (exit = true ↔ Exits s.buf.asSlice) := by
  rw [executeCommand]
  simp only [Console.kprint_buf]
  cases htext : fromUtf8 s.buf.asSlice with
  | none => exact Or.inl ⟨rfl, rfl⟩
  | some text =>
      obtain rfl := fromUtf8_eq htext
      refine Or.inr ?_
      rcases Command.parse_spec (s := s.buf.asSlice) rfl (List.replicate 64 []) with
        ⟨hmany, hparse⟩ | ⟨hnil, hparse⟩ | ⟨hne, hfit, cmd, hparse, hslice⟩
      · simp only [hparse]
        refine Or.inr ⟨false, _, rfl, rfl, iff_of_false (by simp) fun hexit => ?_⟩
        rw [List.length_replicate] at hmany
        exact absurd hexit.2 (by omega)
      · simp only [hparse]
        refine Or.inr ⟨false, _, rfl, rfl, iff_of_false (by simp) fun hexit => ?_⟩
        simp [Exits, hnil] at hexit
      · rw [List.length_replicate] at hfit
        have hhead : cmd.path = (pieces s.buf.asSlice).head? := by
          rw [Command.path, hslice, List.head?_eq_getElem?]
        simp only [hparse]
        cases hpath : cmd.path with
        | none => exact absurd hpath (Command.path_ne_none hparse)
        | some path =>
            simp only
            by_cases hexit : path = utf8 "exit"
            · rw [if_pos hexit]
              exact Or.inr ⟨true, _, rfl, s.kprint_buf _,
                iff_of_true rfl ⟨by rw [← hhead, hpath, hexit], hfit⟩⟩
            · rw [if_neg hexit]
              rcases runCommand_cases fuel path cmd.args.asSlice (s.kprint (utf8 "\r\n"))
                with hrun | ⟨s', hrun, hbuf⟩
              · exact Or.inl (by rw [hrun]; rfl)
              · refine Or.inr ⟨false, _, by rw [hrun]; rfl, ?_,
                  iff_of_false (by simp) fun hexits => hexit ?_⟩
                · simp only [hbuf, Console.kprint_buf]
                  rfl
                · exact Option.some.inj (hpath.symm.trans (hhead.trans hexits.1))

/-- **A printable line does not make the shell panic.** -/
theorem execute_ne_panic {s : Console} (h : ∀ b ∈ s.buf.asSlice, 32 ≤ b ∧ b ≤ 126)
    (fuel : ℕ) : executeCommand c fuel s ≠ .error .panic := by
  intro hpanic
  rcases executeCommand_cases fuel s with ⟨-, hnone⟩ | hspin | ⟨exit, s', hok, -, -⟩
  · rw [fromUtf8_eq_some h] at hnone
    simp at hnone
  · rw [hspin] at hpanic
    simp at hpanic
  · rw [hok] at hpanic
    simp at hpanic

/-- **A command leaves the buffer empty**, unless it is `exit`. -/
theorem execute_empties {s s' : Console} {fuel : ℕ}
    (h : executeCommand c fuel s = .ok (false, s')) :
    s'.buf.asSlice = [] ∧ s'.buf.capacity = s.buf.capacity := by
  rcases executeCommand_cases fuel s with ⟨hpanic, -⟩ | hspin | ⟨exit, s₁, hok, hbuf, -⟩
  · rw [hpanic] at h
    simp at h
  · rw [hspin] at h
    simp at h
  · rw [hok, Except.ok.injEq, Prod.mk.injEq] at h
    obtain ⟨rfl, rfl⟩ := h
    obtain ⟨hslice, hcap⟩ := s.buf.asSlice_truncate 0
    rw [hbuf]
    exact ⟨by simpa using hslice, hcap⟩

/-- **The shell goes on after every line but `exit`.** -/
theorem execute_exits_iff {s s' : Console} {fuel : ℕ} {exit : Bool}
    (h : executeCommand c fuel s = .ok (exit, s')) : exit = true ↔ Exits s.buf.asSlice := by
  rcases executeCommand_cases fuel s with ⟨hpanic, -⟩ | hspin | ⟨exit', s₁, hok, -, hexit⟩
  · rw [hpanic] at h
    simp at h
  · rw [hspin] at h
    simp at h
  · rw [hok, Except.ok.injEq, Prod.mk.injEq] at h
    rwa [← h.1]

end

/-! ### The line editor -/

/-- **Screen and buffer agree** after the bytes `typed`, where `s` and `t` are the console
and the terminal before them, with the prompt ending at column `col`, and `s'` is the
console after them. -/
structure Agree (c : Counter) (s : Console) (t : Terminal) (col : ℕ) (typed : List UInt8)
    (s' : Console) : Prop where
  /-- `read_command` gets to `s'`, and ends there with the end of the line. -/
  reads : ∀ rest, readCommand (typed ++ rest) s = readCommand rest s'
  ends : ∀ byte rest, byte = 13 ∨ byte = 10 →
    readCommand (typed ++ byte :: rest) s = some (s', rest)
  /-- The buffer is what the edit rules make of the bytes. -/
  buffer : s'.buf.asSlice = typed.foldl edit []
  /-- What has been sent is known to the terminal and makes it show the buffer, behind the
  same prompt. -/
  screen : ∃ sent, s'.output = s.output ++ sent ∧
    (∀ b ∈ sent, b = 7 ∨ b = 8 ∨ 32 ≤ b ∧ b ≤ 126) ∧
    Shows (t.feed sent) col s'.buf.asSlice ∧ ∀ j < col, (t.feed sent).row j = t.row j
  printable : ∀ b ∈ s'.buf.asSlice, 32 ≤ b ∧ b ≤ 126
  /-- The command can be run. -/
  unwraps : fromUtf8 s'.buf.asSlice = some s'.buf.asSlice ∧
    ∀ fuel, executeCommand c fuel s' ≠ .error .panic
  /-- The shell exits on `exit`, and goes on with an empty buffer after every other line. -/
  exits : ∀ fuel exit s'', executeCommand c fuel s' = .ok (exit, s'') →
    (exit = true ↔ Exits s'.buf.asSlice)
  empties : ∀ fuel s'', executeCommand c fuel s' = .ok (false, s'') → s''.buf.asSlice = []

/-- **The line editor.** From an empty buffer of 512 bytes and a terminal that is blank
behind the prompt, and for every sequence of bytes typed before the end of the line: the
buffer is the result of the edit rules, the terminal shows it behind the prompt with the
cursor at its end, all of it is printable, and the command that it is runs without a
panic and leaves the buffer empty unless it is `exit`. -/
theorem line_editor (c : Counter) {s : Console} {t : Terminal} {col : ℕ}
    (hcap : s.buf.capacity = 512) (hempty : s.buf.asSlice = []) (ht : Shows t col [])
    (typed : List UInt8) (hline : ∀ b ∈ typed, b ≠ 13 ∧ b ≠ 10) :
    ∃ s', s.keys typed = some s' ∧ Agree c s t col typed s' := by
  obtain ⟨s', sent, hkeys, -, hslice, hout, hknown, hterm⟩ := keys_spec typed s hcap hline
  rw [hempty] at hslice hterm
  have hprint : ∀ b ∈ s'.buf.asSlice, 32 ≤ b ∧ b ≤ 126 := by
    rw [hslice]
    exact foldl_edit_printable typed (by simp)
  refine ⟨s', hkeys, ?_⟩
  constructor
  · exact fun rest => readCommand_append rest hkeys
  · intro byte rest hbyte
    rw [readCommand_append _ hkeys, readCommand_end hbyte]
  · exact hslice
  · exact ⟨sent, hout, hknown, hterm t col ht⟩
  · exact hprint
  · exact ⟨fromUtf8_eq_some hprint, execute_ne_panic hprint⟩
  · exact fun fuel exit s'' h => execute_exits_iff h
  · exact fun fuel s'' h => (execute_empties h).1

/-- "hi" is typed as "ho", backspace, "i". -/
theorem line_editor_typed :
    Shows ⟨fun _ => 32, 2⟩ 2 [] ∧
      ∃ s', (Console.initial 0).keys [104, 111, 8, 105] = some s' ∧ s'.buf.asSlice = [104, 105] ∧
        Agree wrapping (Console.initial 0) ⟨fun _ => 32, 2⟩ 2 [104, 111, 8, 105] s' := by
  have hblank : Shows ⟨fun _ => 32, 2⟩ 2 [] := ⟨rfl, fun _ => rfl⟩
  obtain ⟨s', hkeys, hagree⟩ := line_editor wrapping (Console.initial_capacity 0) rfl hblank
    [104, 111, 8, 105] (by simp)
  exact ⟨hblank, s', hkeys, hagree.buffer, hagree⟩

/-! ### Whole sessions -/

/-- `read_command` leaves a line of printable bytes, whatever the input is. -/
theorem readCommand_printable {input rest : List UInt8} {s s' : Console}
    (hcap : s.buf.capacity = 512) (hprint : ∀ b ∈ s.buf.asSlice, 32 ≤ b ∧ b ≤ 126)
    (h : readCommand input s = some (s', rest)) :
    s'.buf.capacity = 512 ∧ ∀ b ∈ s'.buf.asSlice, 32 ≤ b ∧ b ≤ 126 := by
  induction input generalizing s with
  | nil => simp [readCommand] at h
  | cons byte input ih =>
      by_cases hend : byte = 13 ∨ byte = 10
      · rw [readCommand_end hend, Option.some.injEq, Prod.mk.injEq] at h
        obtain ⟨rfl, -⟩ := h
        exact ⟨hcap, hprint⟩
      · obtain ⟨s₁, hkey, hcap₁, hslice₁, -⟩ := Console.key_spec hcap (not_or.mp hend)
        rw [readCommand, hkey] at h
        exact ih hcap₁ (hslice₁ ▸ edit_printable hprint byte) h

/-- No input makes the loop of the shell panic, if it starts with an empty buffer of full size. -/
theorem shellLoop_ne_panic (c : Counter) (prompt : Str) (fuel : ℕ) :
    ∀ (input : List UInt8) (s : Console), s.buf.capacity = 512 → s.buf.asSlice = [] →
      shellLoop c prompt fuel input s ≠ .error .panic := by
  induction fuel with
  | zero =>
      intro input s _ _
      simp [shellLoop]
  | succ fuel ih =>
      intro input s hcap hempty
      rw [shellLoop]
      split
      · simp
      · rename_i s₁ rest hread
        obtain ⟨hcap₁, hprint₁⟩ := readCommand_printable (by rw [s.kprint_buf, hcap])
          (by simp [hempty]) hread
        have hpanic := execute_ne_panic (c := c) hprint₁ fuel
        cases hexec : executeCommand c fuel s₁ with
        | error e =>
            rw [hexec] at hpanic
            simpa [bind, Except.bind] using hpanic
        | ok r =>
            obtain ⟨exit, s₂⟩ := r
            cases exit with
            | true => simp [bind, Except.bind]
            | false =>
                obtain ⟨hempty₂, hcap₂⟩ := execute_empties hexec
                exact ih rest s₂ (hcap₂.trans hcap₁) hempty₂

/-- **No input makes the shell panic**, whatever the prompt and the clock. -/
theorem shell_ne_panic (c : Counter) (prompt : Str) (fuel : ℕ) (input : List UInt8)
    (reads : ℕ) : shell c prompt fuel input reads ≠ .error .panic := by
  refine shellLoop_ne_panic c prompt fuel input _ ?_ ?_
  · rw [Console.foldl_kprint_buf]
    exact Console.initial_capacity reads
  · rw [Console.foldl_kprint_buf]
    rfl

end OsLabs.Shell
