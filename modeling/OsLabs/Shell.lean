import OsLabs.StackVec
import OsLabs.Timer

/-!
# The Kernel Shell

`kern/src/shell.rs` reads a line from the console, splits it into arguments and runs the
command they name. The line is edited while it is typed: `read_command` keeps the bytes
in a `StackVec` and echoes them, and each branch of it updates the two by separate writes.
This module has the shell, a terminal that shows what the shell sends, and the rules by which
a line is edited.

Conventions: a `str` is the list of its bytes. `Console` is the buffer together with the
bytes sent to the UART, oldest first, and the number of timer registers read. What is
typed is a list of bytes, and `none` is a `read_command` that still waits for a byte. The
lock of the console is not modelled: it is held for single reads and writes only.
-/

namespace OsLabs.Shell

/-- A `str`. -/
abbrev Str := List UInt8

/-- The bytes of a string literal. -/
def utf8 (s : String) : Str := s.toList.flatMap String.utf8EncodeChar

/-- `str::from_utf8`. -/
def fromUtf8 (bytes : List UInt8) : Option Str :=
  if bytes.toByteArray.validateUTF8 then some bytes else none

/-! ### Commands -/

/-- `Error`. -/
inductive Error where
  | empty
  | tooManyArgs

/-- `Command`. -/
structure Command where
  args : StackVec Str

namespace Command

/-- The loop of `Command::parse` over the arguments. -/
def pushArgs : List Str → StackVec Str → Except Error (StackVec Str)
  | [], args => .ok args
  | arg :: rest, args =>
    match args.push arg with
    | some args => pushArgs rest args
    | none => .error .tooManyArgs

/-- `Command::parse`. -/
def parse (s : Str) (buf : List Str) : Except Error Command := do
  let args ← pushArgs ((s.splitOn 32).filter fun a => !a.isEmpty) (StackVec.new buf)
  if args.isEmpty then .error .empty else .ok ⟨args⟩

/-- `Command::path`; `none` is an index out of bounds. -/
def path (cmd : Command) : Option Str := cmd.args.asSlice[0]?

end Command

/-! ### The console -/

/-- The buffer of the shell, what the console has sent, and the reads of the timer. -/
structure Console where
  buf : StackVec UInt8
  output : List UInt8
  reads : ℕ

namespace Console

/-- The console at the start of `shell`, with a buffer of 512 bytes. -/
def initial (reads : ℕ) : Console := ⟨StackVec.new (List.replicate 512 0), [], reads⟩

/-- `Console::write_byte`. -/
def writeByte (s : Console) (byte : UInt8) : Console := { s with output := s.output ++ [byte] }

/-- `kprint!`, that is `MiniUart::write_str`: a carriage return before each line feed. -/
def kprint (s : Console) (text : Str) : Console :=
  text.foldl (fun s byte =>
    (if byte = 10 then s.writeByte 13 else s).writeByte byte) s

/-- `ring_bell_sound`. -/
def ringBellSound (s : Console) : Console := s.kprint [7]

/-- `backspace`. -/
def backspace (s : Console) : Console :=
  if s.buf.isEmpty then s.ringBellSound
  else
    let s := s.kprint [8, 32, 8]
    match s.buf.pop with
    | some (_, buf) => { s with buf }
    | none => s

/-- `store_command`. -/
def storeCommand (s : Console) (input : UInt8) : Console :=
  match s.buf.push input with
  | some buf => { s with buf }.writeByte input
  | none => s.ringBellSound

/-- The body of the loop of `read_command`; `none` leaves the loop. -/
def key (s : Console) (input : UInt8) : Option Console :=
  if input = 8 ∨ input = 127 then some s.backspace
  else if input = 13 ∨ input = 10 then none
  else if 32 ≤ input ∧ input ≤ 126 then some (s.storeCommand input)
  else some s.ringBellSound

end Console

/-- `read_command`: the console after it, and what is left of the input. -/
def readCommand : List UInt8 → Console → Option (Console × List UInt8)
  | [], _ => none
  | input :: rest, s =>
    match s.key input with
    | some s => readCommand rest s
    | none => some (s, rest)

/-! ### Running a command -/

/-- `str::parse::<u32>`. -/
def parseU32 (s : Str) : Option ℕ :=
  let digits := if s.head? = some 43 then s.tail else s
  if digits.isEmpty ∨ ∃ b ∈ digits, b < 48 ∨ 57 < b then none
  else
    let value := digits.foldl (fun value b => 10 * value + (b.toNat - 48)) 0
    if value < 2 ^ 32 then some value else none

/-- The fraction of a duration: its digits without trailing zeros, after a point. -/
def fraction (width frac : ℕ) : String :=
  let digits := (List.range width).map fun i => Nat.digitChar (frac / 10 ^ (width - 1 - i) % 10)
  let digits := (digits.reverse.dropWhile (· = '0')).reverse
  if digits.isEmpty then "" else String.ofList ('.' :: digits)

/-- The `Debug` text of a duration. -/
def debug (d : Duration) : Str :=
  if 0 < d.secs then utf8 (toString d.secs ++ fraction 9 d.nanos ++ "s")
  else if 10 ^ 6 ≤ d.nanos then
    utf8 (toString (d.nanos / 10 ^ 6) ++ fraction 6 (d.nanos % 10 ^ 6) ++ "ms")
  else if 1000 ≤ d.nanos then
    utf8 (toString (d.nanos / 1000) ++ fraction 3 (d.nanos % 1000) ++ "µs")
  else utf8 (toString d.nanos ++ "ns")

section

variable (c : Counter)

/-- The loop of `sys_call_sleep`: the reads of the timer after it. -/
def sleepLoop (stop : Duration) : ℕ → ℕ → Except Halt ℕ
  | 0, _ => .error .spinning
  | fuel + 1, n =>
    let (now, n) := c.currentTime n
    if now < stop then sleepLoop stop fuel n else .ok n

/-- `sys_call_sleep`, which always returns `Ok`. -/
def sysCallSleep (ms fuel n : ℕ) : Except Halt ℕ :=
  let (start, n) := c.currentTime n
  match start.checkedAdd (Duration.fromMillis ms) with
  | some stop => sleepLoop c stop fuel n
  | none => .error .panic

/-- `s_echo`. -/
def sEcho (args : List Str) (s : Console) : Console :=
  (args.foldl (fun s arg => s.kprint (arg ++ utf8 " ")) s).kprint (utf8 "\r\n")

/-- `s_sleep`. -/
def sSleep (fuel : ℕ) (arg : Str) (s : Console) : Except Halt Console :=
  match parseU32 arg with
  | some ms => do
    let reads ← sysCallSleep c ms fuel s.reads
    .ok ({ s with reads }.kprint (utf8 "sleep: done\r\n"))
  | none =>
    .ok ((s.kprint (utf8 "sleep: Invalid Argument\r\n")).kprint (utf8 "usage: sleep <ms>\r\n"))

/-- `s_time`. -/
def sTime (s : Console) : Console :=
  let (now, reads) := c.currentTime s.reads
  { s with reads }.kprint
    (utf8 "System has been running for " ++ debug now ++ utf8 ".\r\n")

/-- The `match` of `execute_command` on a command other than `exit`. -/
def runCommand (fuel : ℕ) (path : Str) (args : List Str) (s : Console) :
    Except Halt Console :=
  if path = utf8 "echo" then .ok (sEcho (args.drop 1) s)
  else if path = utf8 "time" then .ok (sTime c s)
  else if path = utf8 "sleep" then
    if args.length = 2 then
      match args[1]? with
      | some arg => sSleep c fuel arg s
      | none => .error .panic
    else if args.length = 1 then
      .ok (s.kprint (utf8 "sleep: Argument Required!\r\nUsage: sleep <ms>\r\n"))
    else .ok (s.kprint (utf8 "sleep: Too many arguments!\r\nUsage: sleep <ms>\r\n"))
  else .ok (s.kprint (path ++ utf8 ": command not found\r\n"))

/-- `execute_command`: whether the shell exits, and the console after it. -/
def executeCommand (fuel : ℕ) (s : Console) : Except Halt (Bool × Console) :=
  let s := s.kprint (utf8 "\r\n")
  match fromUtf8 s.buf.asSlice with
  | none => .error .panic
  | some text =>
    match Command.parse text (List.replicate 64 []) with
    | .ok cmd =>
      match cmd.path with
      | none => .error .panic
      | some path =>
        if path = utf8 "exit" then .ok (true, s)
        else do
          let s ← runCommand c fuel path cmd.args.asSlice s
          .ok (false, { s with buf := s.buf.truncate 0 })
    | .error .tooManyArgs =>
      let s := s.kprint (utf8 "too many arguments\r\n")
      .ok (false, { s with buf := s.buf.truncate 0 })
    | .error .empty => .ok (false, { s with buf := s.buf.truncate 0 })

/-- The loop of `shell` on the given input; `fuel` bounds the commands and the turns of
each `sleep`. -/
def shellLoop (prompt : Str) : ℕ → List UInt8 → Console → Except Halt Console
  | 0, _, _ => .error .spinning
  | fuel + 1, input, s =>
    match readCommand input (s.kprint prompt) with
    | none => .error .spinning
    | some (s, input) => do
      let (exit, s) ← executeCommand c fuel s
      if exit then .ok s else shellLoop prompt fuel input s

/-- The lines `shell` begins with. -/
def banner : List String :=
  ["Team Let's Get Rusty Welcomes you to...",
    " ██████   ██████   ██████",
    " ██      ██    ██  ██    ",
    " ██████  ██    ██  ██████",
    "     ██  ██    ██      ██",
    " ██████   ██████   ██████"]

/-- `shell`. -/
def shell (prompt : Str) (fuel : ℕ) (input : List UInt8) (reads : ℕ) :
    Except Halt Console :=
  let s := banner.foldl (fun s line => s.kprint (utf8 (line ++ "\n"))) (Console.initial reads)
  shellLoop c prompt fuel input s

end

/-! ### The terminal -/

/-- A terminal: the cells of the line the cursor is in, and the cursor's column. -/
structure Terminal where
  row : ℕ → UInt8
  cursor : ℕ

/-- **What a terminal does** with a byte: a backspace moves the cursor left, a bell shows
nothing, a printable byte overwrites the cell at the cursor and moves on. No other byte
is sent while a line is typed. -/
def Terminal.put (t : Terminal) (byte : UInt8) : Terminal :=
  if byte = 8 then { t with cursor := t.cursor - 1 }
  else if byte = 7 then t
  else if 32 ≤ byte ∧ byte ≤ 126 then ⟨Function.update t.row t.cursor byte, t.cursor + 1⟩
  else t

/-- What a terminal does with what is sent to it. -/
def Terminal.feed (t : Terminal) (bytes : List UInt8) : Terminal := bytes.foldl Terminal.put t

/-- The terminal shows `text` and nothing else from column `col` on, and the cursor is at
its end. A blank cell is a space. -/
structure Shows (t : Terminal) (col : ℕ) (text : List UInt8) : Prop where
  cursor : t.cursor = col + text.length
  row : ∀ j, t.row (col + j) = text.getD j 32

/-- **The edit rules**: what a typed byte does to a line of at most 512 bytes. -/
def edit (line : List UInt8) (byte : UInt8) : List UInt8 :=
  if 32 ≤ byte ∧ byte ≤ 126 then
    if line.length < 512 then line ++ [byte] else line
  else if byte = 8 ∨ byte = 127 then line.dropLast
  else line

/-- What the shell sends back for a typed byte. -/
def echo (line : List UInt8) (byte : UInt8) : List UInt8 :=
  if 32 ≤ byte ∧ byte ≤ 126 then
    if line.length < 512 then [byte] else [7]
  else if byte = 8 ∨ byte = 127 then
    if line = [] then [7] else [8, 32, 8]
  else [7]

end OsLabs.Shell
