import Mathlib.Data.List.Basic

/-!
# The 8259A interrupt controller

One chip with eight lines. It is initialized by a command and two or three bytes of
data; after that, data is the mask. A line that has been acknowledged is in service
until the processor says that it is done, and meanwhile it keeps back all lines of the
same or a lower priority.

- `InterruptController`: what the chip remembers, among it the vector of its first line, the
  mask, the lines behind which there is another chip, and the lines in service. `Expected` is
  what it takes the next byte of data for.
- `command` and `data`: a byte for one of its two ports.
- `Passes`: a request on a line is passed on to the processor. The chip has to be initialized,
  the line not masked, and no line of the same or a higher priority in service.
- `acknowledge`: the processor takes the request. `command_acknowledge`: the end of the interrupt
  takes the line out of service again.

Of the other commands only the plain end of interrupt is here. Spurious interrupts, which the
chip makes up when a request goes away before it is acknowledged, are not.
-/

namespace Lib

/-- What the next byte of data is. -/
inductive Expected where
  | vectors | cascade | mode | mask
  deriving DecidableEq, Repr

/-- The chip. -/
structure InterruptController where
  expected : Expected
  /-- Whether the initialization has no byte for the cascade. -/
  single : Bool
  /-- Whether the initialization has a byte for the mode. -/
  hasMode : Bool
  /-- The vector of line 0. -/
  base : Nat
  /-- The lines that another chip is behind, bit by bit. -/
  cascade : UInt8
  /-- The lines that are switched off, bit by bit. -/
  mask : UInt8
  /-- The lines that are in service, the highest priority first. -/
  inService : List Nat
  deriving DecidableEq, Repr

namespace InterruptController

/-- A byte for the command port. -/
def command (c : InterruptController) (v : UInt8) : InterruptController :=
  if v &&& 0x10 ≠ 0 then
    { c with
      expected := .vectors
      single := v &&& 0x02 ≠ 0
      hasMode := v &&& 0x01 ≠ 0
      cascade := 0
      mask := 0
      inService := [] }
  else if v = 0x20 then { c with inService := c.inService.tail }
  else c

/-- A byte for the data port. -/
def data (c : InterruptController) (v : UInt8) : InterruptController :=
  match c.expected with
  | .vectors =>
    { c with
      base := (v &&& 0xF8).toNat
      expected := if c.single then if c.hasMode then .mode else .mask else .cascade }
  | .cascade => { c with cascade := v, expected := if c.hasMode then .mode else .mask }
  | .mode => { c with expected := .mask }
  | .mask => { c with mask := v }

/-- A request on the line is passed on. The lowest line has the highest priority. -/
def Passes (c : InterruptController) (line : Nat) : Prop :=
  line < 8 ∧ c.expected = .mask ∧ ¬ c.mask.toNat.testBit line ∧ ∀ l ∈ c.inService, line < l

/-- The processor takes the request. -/
def acknowledge (c : InterruptController) (line : Nat) : InterruptController :=
  { c with inService := line :: c.inService }

/-- The end of the interrupt takes the line out of service again. -/
theorem command_acknowledge (c : InterruptController) (line : Nat) :
    (c.acknowledge line).command 0x20 = c := rfl

end InterruptController

end Lib
