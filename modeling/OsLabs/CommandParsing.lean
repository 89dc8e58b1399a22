import Mathlib.Data.List.TakeWhile
import OsLabs.Shell

/-!
# Parsing a Command

`Command::parse` of `kern/src/shell.rs` splits the line at its spaces, drops the empty
pieces and pushes the others onto a vector over a slice that the caller lends. What it
keeps are the maximal runs of bytes other than a space, however many spaces stand before,
between and after them.

Conventions: a `str` is the list of its bytes. A space is one byte in UTF-8 and part of no
other character, so splitting at the character is splitting at the byte.

## Main results

* `Runs.eq`, `exists_runs`: a string has exactly one sequence of runs, and it is what the
  iterator of `parse` yields.
* `Command.parse_spec`: the outcome of `parse` by the number of runs.
* `command_parsing`: the errors, the arguments, and parsing them again.
-/

namespace OsLabs.Shell

/-- **The maximal runs** of bytes other than a space, in order: a run is not empty and is
followed by a space or by the end of the string. -/
inductive Runs : Str → List Str → Prop
  | nil : Runs [] []
  | space {s : Str} {ws : List Str} : Runs s ws → Runs (32 :: s) ws
  | run {w s : Str} {ws : List Str} : w ≠ [] → 32 ∉ w → s = [] ∨ s.head? = some 32 →
      Runs s ws → Runs (w ++ s) (w :: ws)

/-- `s.split(' ').filter(|a| !a.is_empty())`. -/
def pieces (s : Str) : List Str := (s.splitOn 32).filter fun a => !a.isEmpty

/-- `&cmd.args[1..]`; `none` is an index out of bounds. -/
def Command.rest (cmd : Command) : Option (List Str) :=
  if 1 ≤ cmd.args.asSlice.length then some (cmd.args.asSlice.drop 1) else none

/-! ### The pieces -/

/-- A leading space does not begin a piece. -/
theorem pieces_space (s : Str) : pieces (32 :: s) = pieces s := by
  have h : (32 :: s).splitOn 32 = [] :: s.splitOn 32 := List.splitOn_append_cons_self [] s
  rw [pieces, h]
  rfl

/-- Only spaces are split off before the end. -/
theorem pieces_run {w s : Str} (hne : w ≠ []) (hw : 32 ∉ w) (hs : s = [] ∨ s.head? = some 32) :
    pieces (w ++ s) = w :: pieces s := by
  have hkeep : ∀ ws : List Str, (w :: ws).filter (fun a => !a.isEmpty) =
      w :: ws.filter fun a => !a.isEmpty := fun ws =>
    List.filter_cons_of_pos (by simpa using hne)
  rcases hs with rfl | hs
  · rw [List.append_nil, pieces, List.splitOn_eq_singleton hw, hkeep]
    rfl
  · obtain ⟨t, rfl⟩ : ∃ t, s = 32 :: t := ⟨s.tail, List.eq_cons_of_mem_head? hs⟩
    rw [pieces_space, pieces, List.splitOn_append_cons_self_of_not_mem hw, hkeep]
    rfl

/-- **The pieces are the runs**, so a string has at most one sequence of them. -/
theorem Runs.eq {s : Str} {ws : List Str} (h : Runs s ws) : pieces s = ws := by
  induction h with
  | nil => rfl
  | space _ ih => rw [pieces_space, ih]
  | run hne hw hs _ ih => rw [pieces_run hne hw hs, ih]

/-- **Every string has one.** The induction is on the length: a run is taken off whole. -/
theorem exists_runs (s : Str) : ∃ ws, Runs s ws := by
  induction hlen : s.length using Nat.strong_induction_on generalizing s with
  | _ n ih =>
      rcases s with _ | ⟨b, t⟩
      · exact ⟨[], Runs.nil⟩
      · rw [List.length_cons] at hlen
        by_cases hb : b = 32
        · obtain ⟨ws, h⟩ := ih t.length (by omega) t rfl
          exact ⟨ws, hb ▸ h.space⟩
        · have hsplit : (b :: t.takeWhile (· ≠ 32)) ++ t.dropWhile (· ≠ 32) = b :: t := by
            rw [List.cons_append, List.takeWhile_append_dropWhile]
          have hshort : (t.dropWhile (· ≠ 32)).length ≤ t.length :=
            (List.dropWhile_suffix _).length_le
          obtain ⟨ws, h⟩ := ih _ (by omega) (t.dropWhile (· ≠ 32)) rfl
          refine ⟨(b :: t.takeWhile (· ≠ 32)) :: ws, hsplit ▸ h.run (by simp) ?_ ?_⟩
          · rw [List.mem_cons, not_or]
            refine ⟨fun heq => hb heq.symm, fun hmem => ?_⟩
            simpa using List.mem_takeWhile_imp hmem
          · cases hrest : t.dropWhile (· ≠ 32) with
            | nil => exact Or.inl rfl
            | cons c rest =>
                have hc := List.head?_dropWhile_not (fun b : UInt8 => b ≠ 32) t
                rw [hrest] at hc
                exact Or.inr (by simpa using hc)

/-- Runs have bytes, and no spaces among them. -/
theorem Runs.mem {s : Str} {ws : List Str} (h : Runs s ws) : ∀ w ∈ ws, w ≠ [] ∧ 32 ∉ w := by
  induction h with
  | nil => simp
  | space _ ih => exact ih
  | run hne hw _ _ ih =>
      intro w' hw'
      rcases List.mem_cons.mp hw' with rfl | hw'
      · exact ⟨hne, hw⟩
      · exact ih w' hw'

/-- A string without runs has spaces only. -/
theorem Runs.eq_nil_iff {s : Str} {ws : List Str} (h : Runs s ws) :
    ws = [] ↔ ∀ b ∈ s, b = 32 := by
  induction h with
  | nil => simp
  | space _ ih => rw [ih, List.forall_mem_cons]; simp
  | @run w s ws hne hw _ _ _ =>
      refine iff_of_false (by simp) fun hall => hw ?_
      obtain ⟨b, w, rfl⟩ := List.exists_cons_of_ne_nil hne
      have hb : b = 32 := hall b (by simp)
      rw [hb]
      exact List.mem_cons_self

/-- Joined with single spaces, the runs are split as before. -/
theorem pieces_intercalate {ws : List Str} (h : ∀ w ∈ ws, w ≠ [] ∧ 32 ∉ w) :
    pieces ([32].intercalate ws) = ws := by
  by_cases hnil : ws = []
  · subst hnil
    rfl
  · rw [pieces, List.splitOn_intercalate 32 (fun w hw => (h w hw).2) hnil,
      List.filter_eq_self]
    intro w hw
    simpa using (h w hw).1

/-! ### Parsing -/

/-- A parsed command has a first argument. -/
theorem Command.path_ne_none {s : Str} {buf : List Str} {cmd : Command}
    (h : Command.parse s buf = .ok cmd) : cmd.path ≠ none := by
  rw [Command.parse] at h
  cases hpush : pushArgs ((s.splitOn 32).filter fun a => !a.isEmpty) (StackVec.new buf) with
  | error e => simp [hpush, bind, Except.bind] at h
  | ok args =>
      simp only [hpush, bind, Except.bind] at h
      split at h
      · simp at h
      · rename_i hne
        obtain rfl := Except.ok.inj h
        rw [Command.path, Ne, List.getElem?_eq_none_iff, not_le, List.length_pos_iff]
        exact fun hnil => hne (StackVec.isEmpty_iff.mpr hnil)

/-- **The loop of `parse`**: it stops with an error exactly when the arguments do not fit,
and appends them otherwise. -/
theorem Command.pushArgs_spec (ws : List Str) (args : StackVec Str) :
    if args.asSlice.length + ws.length ≤ args.capacity then
      ∃ args', pushArgs ws args = .ok args' ∧ args'.asSlice = args.asSlice ++ ws
    else pushArgs ws args = .error .tooManyArgs := by
  induction ws generalizing args with
  | nil =>
      have hle : args.asSlice.length ≤ args.capacity := by
        rw [StackVec.length_asSlice]
        exact args.len_le
      rw [if_pos (by simpa using hle)]
      exact ⟨args, rfl, (List.append_nil _).symm⟩
  | cons w ws ih =>
      rw [List.length_cons]
      cases hpush : args.push w with
      | none =>
          have hfull := StackVec.push_eq_none_iff.mp hpush
          rw [if_neg (by omega), pushArgs, hpush]
      | some args' =>
          obtain ⟨hslice, hcap⟩ := StackVec.asSlice_push hpush
          have hrest := ih args'
          rw [hslice, hcap, List.length_append, List.length_singleton, Nat.add_assoc,
            Nat.add_comm 1] at hrest
          rw [pushArgs, hpush]
          split
          · rename_i hfit
            rw [if_pos hfit] at hrest
            simpa using hrest
          · rename_i hfit
            rwa [if_neg hfit] at hrest

/-- **The outcome of `parse`**, for a string with the pieces `ws`. -/
theorem Command.parse_spec {s : Str} {ws : List Str} (h : pieces s = ws) (buf : List Str) :
    (buf.length < ws.length ∧ parse s buf = .error .tooManyArgs) ∨
    (ws = [] ∧ parse s buf = .error .empty) ∨
    (ws ≠ [] ∧ ws.length ≤ buf.length ∧
      ∃ cmd, parse s buf = .ok cmd ∧ cmd.args.asSlice = ws) := by
  have hpush := pushArgs_spec ws (StackVec.new buf)
  have hnew : (StackVec.new buf).asSlice = [] := rfl
  have hcap : (StackVec.new buf).capacity = buf.length := rfl
  rw [hnew, hcap, List.length_nil, Nat.zero_add, List.nil_append] at hpush
  have hparse : parse s buf = (pushArgs ws (StackVec.new buf) >>= fun args =>
      if args.isEmpty then .error .empty else .ok ⟨args⟩) := by
    rw [parse, ← h]
    rfl
  rw [hparse]
  split at hpush
  · rename_i hfit
    obtain ⟨args, hargs, hslice⟩ := hpush
    rw [hargs]
    by_cases hnil : ws = []
    · refine Or.inr (Or.inl ⟨hnil, ?_⟩)
      exact if_pos (StackVec.isEmpty_iff.mpr (hslice.trans hnil))
    · refine Or.inr (Or.inr ⟨hnil, hfit, ⟨args⟩, ?_, hslice⟩)
      exact if_neg fun hempty => hnil (hslice.symm.trans (StackVec.isEmpty_iff.mp hempty))
  · rename_i hfit
    rw [hpush]
    exact Or.inl ⟨by omega, rfl⟩

/-- **Command parsing.** For every string and every buffer: the string has exactly one
sequence of runs; `parse` returns `Empty` if and only if there are only spaces, and
`TooManyArgs` if and only if the runs outnumber the buffer; otherwise it returns a command
whose arguments are the runs, whose path and further arguments can be taken, and whose
arguments, joined with single spaces, are parsed to the same arguments again. -/
theorem command_parsing (s : Str) (buf : List Str) :
    ∃ ws, (∀ ws', Runs s ws' ↔ ws' = ws) ∧
      (Command.parse s buf = .error .empty ↔ ∀ b ∈ s, b = 32) ∧
      (Command.parse s buf = .error .tooManyArgs ↔ buf.length < ws.length) ∧
      ((∃ b ∈ s, b ≠ 32) → ws.length ≤ buf.length → ∃ cmd, Command.parse s buf = .ok cmd) ∧
      ∀ cmd, Command.parse s buf = .ok cmd → cmd.args.asSlice = ws ∧
        cmd.path = ws.head? ∧ cmd.path ≠ none ∧ cmd.rest = some ws.tail ∧
        ∀ buf' : List Str, buf'.length = buf.length →
          ∃ cmd', Command.parse ([32].intercalate cmd.args.asSlice) buf' = .ok cmd' ∧
            cmd'.args.asSlice = cmd.args.asSlice := by
  obtain ⟨ws, hruns⟩ := exists_runs s
  have hunique : ∀ ws', Runs s ws' ↔ ws' = ws := fun ws' =>
    ⟨fun h => h.eq.symm.trans hruns.eq, fun h => h ▸ hruns⟩
  have hblank : (∃ b ∈ s, b ≠ 32) ↔ ws ≠ [] := by
    rw [Ne, hruns.eq_nil_iff]
    push Not
    rfl
  refine ⟨ws, hunique, ?_⟩
  rw [hblank, ← hruns.eq_nil_iff]
  obtain ⟨hmany, hparse⟩ | ⟨hnil, hparse⟩ | ⟨hne, hfit, cmd, hparse, hslice⟩ :=
    Command.parse_spec hruns.eq buf
  · have hne : ws ≠ [] := List.ne_nil_of_length_pos (by omega)
    rw [hparse]
    exact ⟨by simp [hne], by simp [hmany], fun _ hfit => by omega, fun cmd h => by cases h⟩
  · rw [hparse]
    exact ⟨by simp [hnil], by simp [hnil], fun hne => absurd hnil hne, fun cmd h => by cases h⟩
  · rw [hparse]
    refine ⟨by simp [hne], by simp [hfit], fun _ _ => ⟨cmd, rfl⟩, fun cmd' heq => ?_⟩
    obtain rfl := Except.ok.inj heq
    obtain ⟨w, ws', rfl⟩ := List.exists_cons_of_ne_nil hne
    refine ⟨hslice, ?_, Command.path_ne_none hparse, ?_, fun buf' hbuf => ?_⟩
    · rw [Command.path, hslice]
      rfl
    · rw [Command.rest, hslice]
      exact if_pos (by simp)
    · rw [hslice]
      obtain ⟨hmany, -⟩ | ⟨hnil, -⟩ | ⟨-, -, cmd', hparse', hslice'⟩ :=
        Command.parse_spec (pieces_intercalate hruns.mem) buf'
      · omega
      · cases hnil
      · exact ⟨cmd', hparse', hslice'⟩

end OsLabs.Shell
