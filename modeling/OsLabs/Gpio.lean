import Mathlib.Data.Fintype.Basic
import Mathlib.Logic.Function.Basic

/-!
# The Function Select of the GPIO Pins

`lib/pi/src/gpio.rs` selects the function of a pin through the registers `FSEL`: six
32-bit registers with a field of three bits for each of ten pins. `into_alt` is meant to
clear the field and then to set the code of the function, but the mask it clears with is
made from the code: only the bits that it is about to set are cleared. A bit of the old
code that the new one does not have stays, and the pin gets a function that is neither.

Conventions: a register is a `BitVec 32`. The registers behind `FSEL` are not touched by
the functions here. `none` is a panic.

## Main results

* `fsel_intoAlt`: the register of the pin gets the bits of the code, and keeps its own.
* `field_written_iff`: the field of the pin is the code of the function, and nothing else
  changes, if and only if every bit of the old field is one of the code's.
* `alt5_to_output`: a pin that is switched from `Alt5` to `Output` and ends up in `Alt4`.
-/

namespace OsLabs.Gpio

/-- `Function`. -/
inductive Function where
  | input
  | output
  | alt0
  | alt1
  | alt2
  | alt3
  | alt4
  | alt5
deriving DecidableEq

/-- The discriminants of `Function`. -/
def Function.code : Function → BitVec 3
  | .input => 0b000
  | .output => 0b001
  | .alt0 => 0b100
  | .alt1 => 0b101
  | .alt2 => 0b110
  | .alt3 => 0b111
  | .alt4 => 0b011
  | .alt5 => 0b010

/-- The states of a pin, which mark its type. -/
inductive State where
  | uninitialized
  | input
  | output
  | alt

/-- `Gpio<State>`: a pin of the 54. -/
structure Pin (S : State) where
  pin : ℕ
  le : pin ≤ 53

/-- The registers `FSEL`. -/
abbrev Registers := Fin 6 → BitVec 32

variable {S : State}

/-- `Gpio::new`. -/
def new (pin : ℕ) : Option (Pin .uninitialized) :=
  if h : 53 < pin then none else some ⟨pin, not_lt.mp h⟩

namespace Pin

/-- `Gpio::transition`. -/
def transition (g : Pin S) (T : State) : Pin T := ⟨g.pin, g.le⟩

/-- The register with the field of the pin. -/
def reg (g : Pin S) : Fin 6 := ⟨g.pin / 10, by have := g.le; omega⟩

/-- The position of the field among the ten of its register. -/
def offset (g : Pin S) : ℕ := g.pin % 10

end Pin

/-- `and_mask` on one of the registers. -/
def andMask (regs : Registers) (reg : Fin 6) (mask : BitVec 32) : Registers :=
  Function.update regs reg (regs reg &&& mask)

/-- `or_mask` on one of the registers. -/
def orMask (regs : Registers) (reg : Fin 6) (mask : BitVec 32) : Registers :=
  Function.update regs reg (regs reg ||| mask)

/-- `Gpio::into_alt`. -/
def Pin.intoAlt (g : Pin .uninitialized) (function : Function) (regs : Registers) :
    Pin .alt × Registers :=
  let shifted := function.code.setWidth 32 <<< (g.offset * 3)
  let regs := andMask regs g.reg (~~~shifted)
  let regs := orMask regs g.reg shifted
  (g.transition .alt, regs)

/-- `Gpio::into_output`. -/
def Pin.intoOutput (g : Pin .uninitialized) (regs : Registers) : Pin .output × Registers :=
  let (g, regs) := g.intoAlt .output regs
  (g.transition .output, regs)

/-- `Gpio::into_input`. -/
def Pin.intoInput (g : Pin .uninitialized) (regs : Registers) : Pin .input × Registers :=
  let (g, regs) := g.intoAlt .input regs
  (g.transition .input, regs)

/-! ### Fields -/

/-- The field of a pin. -/
def Pin.field (g : Pin S) (regs : Registers) : BitVec 3 :=
  (regs g.reg).extractLsb' (g.offset * 3) 3

/-- Bit `i` of register `r` is in the field of the pin. -/
def Pin.InField (g : Pin S) (r : Fin 6) (i : ℕ) : Prop :=
  r = g.reg ∧ g.offset * 3 ≤ i ∧ i < g.offset * 3 + 3

/-- **The property**: the field of the pin holds the code of the function, and every other
bit of all six registers is as before. -/
structure FieldWritten (g : Pin .uninitialized) (function : Function)
    (regs regs' : Registers) : Prop where
  field : g.field regs' = function.code
  frame : ∀ r i, i < 32 → ¬ g.InField r i → (regs' r).getLsbD i = (regs r).getLsbD i

/-! ### What is written -/

/-- The code of a function at the position of the pin's field. -/
def Pin.shifted (g : Pin S) (function : Function) : BitVec 32 :=
  function.code.setWidth 32 <<< (g.offset * 3)

/-- The bits of the function code, moved to the field of the pin. -/
theorem Pin.getLsbD_shifted (g : Pin S) (function : Function) {i : ℕ} (hi : i < 32) :
    (g.shifted function).getLsbD i =
      (decide (g.offset * 3 ≤ i) && function.code.getLsbD (i - g.offset * 3)) := by
  rw [shifted, BitVec.getLsbD_shiftLeft, BitVec.getLsbD_setWidth]
  have hlt : i - g.offset * 3 < 32 := by omega
  by_cases hle : g.offset * 3 ≤ i
  · simp [hi, hlt, hle, not_lt.mpr hle]
  · simp [hle, not_le.mp hle]

/-- **What `into_alt` does**: the register of the pin gets the bits of the code, and keeps
all that it has. Clearing the bits of the code before setting them has no effect. -/
theorem fsel_intoAlt (g : Pin .uninitialized) (function : Function) (regs : Registers) :
    (g.intoAlt function regs).2 =
      Function.update regs g.reg (regs g.reg ||| g.shifted function) := by
  have hmask : ∀ x y : BitVec 32, x &&& ~~~y ||| y = x ||| y := by
    intro x y
    refine BitVec.eq_of_getLsbD_eq fun i hi => ?_
    simp only [BitVec.getLsbD_or, BitVec.getLsbD_and, BitVec.getLsbD_not, hi, decide_true,
      Bool.true_and]
    cases x.getLsbD i <;> cases y.getLsbD i <;> rfl
  simp only [Pin.intoAlt, andMask, orMask, Function.update_self, Function.update_idem, hmask]
  rfl

/-- The field after `into_alt`: the bits of the code are added to it. -/
theorem field_intoAlt (g : Pin .uninitialized) (function : Function) (regs : Registers) :
    g.field (g.intoAlt function regs).2 = g.field regs ||| function.code := by
  rw [fsel_intoAlt, Pin.field, Pin.field, Function.update_self]
  have hoff : g.offset < 10 := Nat.mod_lt _ (by omega)
  refine BitVec.eq_of_getLsbD_eq fun i hi => ?_
  simp only [BitVec.getLsbD_extractLsb', hi, decide_true, Bool.true_and, BitVec.getLsbD_or,
    g.getLsbD_shifted function (show g.offset * 3 + i < 32 by omega), Nat.le_add_right,
    Nat.add_sub_cancel_left]

/-- Nothing outside the field of the pin changes, in any of the six registers. -/
theorem frame_intoAlt (g : Pin .uninitialized) (function : Function) (regs : Registers)
    {r : Fin 6} {i : ℕ} (hi : i < 32) (hout : ¬ g.InField r i) :
    ((g.intoAlt function regs).2 r).getLsbD i = (regs r).getLsbD i := by
  rw [fsel_intoAlt]
  by_cases hr : r = g.reg
  · subst hr
    rw [Function.update_self, BitVec.getLsbD_or, g.getLsbD_shifted function hi]
    by_cases hle : g.offset * 3 ≤ i
    · -- the bits above the field are above the code
      have hge : g.offset * 3 + 3 ≤ i := by
        by_contra hlt
        exact hout ⟨rfl, hle, by omega⟩
      have hcode : function.code.getLsbD (i - g.offset * 3) = false :=
        BitVec.getLsbD_of_ge _ _ (by omega)
      rw [hcode, Bool.and_false, Bool.or_false]
    · simp [hle]
  · rw [Function.update_of_ne hr]

/-- Adding the bits of the code gives the code exactly when there are no others. -/
theorem or_eq_right_iff (x y : BitVec 3) : x ||| y = y ↔ x &&& ~~~y = 0 := by
  revert x y
  decide

/-- **The field is written exactly when** the old field has no bit that the code of the
new function does not have. -/
theorem fieldWritten_intoAlt (g : Pin .uninitialized) (function : Function)
    (regs : Registers) :
    FieldWritten g function regs (g.intoAlt function regs).2 ↔
      g.field regs &&& ~~~function.code = 0 := by
  rw [← or_eq_right_iff, ← field_intoAlt]
  constructor
  · exact fun h => h.field
  · exact fun h => ⟨h, fun r i hi hout => frame_intoAlt g function regs hi hout⟩

/-- **When the function select writes the field and nothing else.** For all contents of
the registers, every pin and every function: `Gpio::new` succeeds; `into_alt` writes
exactly the code of the function into exactly the field of the pin if and only if every
bit set in the old field is set in the code; the same for `into_output`; and `into_input`
does so if and only if the field is that of an input already. -/
theorem field_written_iff (pin : ℕ) (hpin : pin ≤ 53) (regs : Registers) :
    ∃ g, new pin = some g ∧ g.pin = pin ∧
      (∀ function, FieldWritten g function regs (g.intoAlt function regs).2 ↔
        g.field regs &&& ~~~function.code = 0) ∧
      (FieldWritten g .output regs (g.intoOutput regs).2 ↔
        g.field regs &&& ~~~Function.output.code = 0) ∧
      (FieldWritten g .input regs (g.intoInput regs).2 ↔
        g.field regs = Function.input.code) := by
  have hinput : ∀ x : BitVec 3, x &&& ~~~Function.input.code = 0 ↔
      x = Function.input.code := by decide
  refine ⟨⟨pin, hpin⟩, dif_neg (not_lt.mpr hpin), rfl, ?_, ?_, ?_⟩
  · exact fun function => fieldWritten_intoAlt _ function regs
  · exact fieldWritten_intoAlt _ .output regs
  · rw [← hinput]
    exact fieldWritten_intoAlt _ .input regs

/-- The registers after `MiniUart::new` on a board after reset: pins 14 and 15 are in
`Alt5`, all others are inputs. -/
def uartPins : Registers := Function.update (fun _ => 0) 1 0x12000

/-- Pin 14 is an input, so its field is empty and the code goes in as it is. -/
theorem field_written_input_pin :
    14 ≤ 53 ∧ ∃ g, new 14 = some g ∧
      FieldWritten g .alt5 (fun _ => 0) (g.intoAlt .alt5 fun _ => 0).2 := by
  obtain ⟨g, hg, -, halt, -, -⟩ := field_written_iff 14 (by omega) fun _ => 0
  refine ⟨by omega, g, hg, (halt .alt5).mpr ?_⟩
  simp [Pin.field]

/-- **The defect**: pin 14 serves the mini UART and is made an output. Its field is then
`0b011`, the code of `Alt4`, not `0b001`. -/
theorem alt5_to_output :
    ∃ g, new 14 = some g ∧ g.field uartPins = Function.alt5.code ∧
      g.field (g.intoAlt .output uartPins).2 = Function.alt4.code ∧
      ¬ FieldWritten g .output uartPins (g.intoAlt .output uartPins).2 := by
  refine ⟨⟨14, by omega⟩, rfl, by decide, by decide, fun h => ?_⟩
  exact absurd h.field (by decide)

end OsLabs.Gpio
