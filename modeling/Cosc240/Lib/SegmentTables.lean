import Cosc240.Lib.LittleEndian

/-!
# Descriptor tables of a 32-bit x86 processor

How the processor in protected mode reads its two tables from memory: the segment
descriptors in the global descriptor table, and the gates in the interrupt descriptor
table. `enter` says where it goes on when an interrupt comes.

- `TablePointer`, `Segment`, `Gate`: what the processor makes of the six bytes that `lgdt` and
  `lidt` read, and of the eight bytes of a descriptor. `tablePointerAt`, `segmentAt`, `gateAt` read
  them from memory, with the pieces of base, limit and offset put together.
- `Segment.last`: the last offset in the segment, with the granularity taken into account.
  `Segment.IsCode` and `Gate.IsInterrupt` are the checks of the access bytes.
- `enter memory gdtr idtr vector`: the linear address of the handler, if the gate is in the table
  and is an interrupt gate, its selector leads to a code segment in the other table, and the offset
  is in that segment. There is no result for a fault. `enter_eq` is its rule.

Privilege levels, the switch of stacks and what is pushed are left out: everything runs at the
privilege of the kernel.
-/

namespace Lib

namespace SegmentTables

open LittleEndian

/-- The operand of `lgdt` and `lidt`. -/
structure TablePointer where
  limit : Nat
  base : Nat
  deriving DecidableEq, Repr

/-- A segment descriptor. -/
structure Segment where
  base : Nat
  /-- Twenty bits. -/
  limit : Nat
  access : UInt8
  /-- Four bits, of which the highest one makes the unit of `limit` a page. -/
  flags : Nat
  deriving DecidableEq, Repr

/-- A gate. -/
structure Gate where
  offset : Nat
  selector : Nat
  typeAttr : UInt8
  deriving DecidableEq, Repr

/-- Six bytes. -/
def tablePointerAt (mem : Nat → UInt8) (a : Nat) : TablePointer where
  limit := read mem 2 a
  base := read mem 4 (a + 2)

/-- Eight bytes. -/
def segmentAt (mem : Nat → UInt8) (a : Nat) : Segment where
  base := read mem 2 (a + 2) + 2 ^ 16 * (mem (a + 4)).toNat + 2 ^ 24 * (mem (a + 7)).toNat
  limit := read mem 2 a + 2 ^ 16 * ((mem (a + 6)).toNat % 16)
  access := mem (a + 5)
  flags := (mem (a + 6)).toNat / 16

/-- Eight bytes. -/
def gateAt (mem : Nat → UInt8) (a : Nat) : Gate where
  offset := read mem 2 a + 2 ^ 16 * read mem 2 (a + 6)
  selector := read mem 2 (a + 2)
  typeAttr := mem (a + 5)

/-- The last offset in the segment. -/
def Segment.last (s : Segment) : Nat :=
  if 8 ≤ s.flags then s.limit * 4096 + 4095 else s.limit

/-- A present segment with code in it. -/
def Segment.IsCode (s : Segment) : Prop := s.access &&& 0x98 = 0x98

/-- A present 32-bit interrupt gate, which turns further interrupts off. -/
def Gate.IsInterrupt (g : Gate) : Prop := g.typeAttr &&& 0x9F = 0x8E

instance (s : Segment) : Decidable s.IsCode := inferInstanceAs (Decidable (_ = _))

instance (g : Gate) : Decidable g.IsInterrupt := inferInstanceAs (Decidable (_ = _))

/-- Where the processor goes on after an interrupt, if there is no fault. The selector is eight
times the index of the segment; the other two bits of it are the privilege. -/
def enter (mem : Nat → UInt8) (gdtr idtr : TablePointer) (vector : Nat) : Option Nat :=
  let gate := gateAt mem (idtr.base + 8 * vector)
  let segment := segmentAt mem (gdtr.base + 8 * (gate.selector / 8))
  if 8 * vector + 7 ≤ idtr.limit ∧ gate.IsInterrupt ∧
      8 ≤ gate.selector ∧ gate.selector % 8 < 4 ∧ 8 * (gate.selector / 8) + 7 ≤ gdtr.limit ∧
      segment.IsCode ∧ gate.offset ≤ segment.last then
    some ((segment.base + gate.offset) % 2 ^ 32)
  else none

theorem enter_eq {mem : Nat → UInt8} {gdtr idtr : TablePointer} {vector : Nat} {gate : Gate}
    {segment : Segment} (hgate : gateAt mem (idtr.base + 8 * vector) = gate)
    (hsegment : segmentAt mem (gdtr.base + 8 * (gate.selector / 8)) = segment)
    (hvector : 8 * vector + 7 ≤ idtr.limit) (hinterrupt : gate.IsInterrupt)
    (hselector : 8 ≤ gate.selector ∧ gate.selector % 8 < 4 ∧
      8 * (gate.selector / 8) + 7 ≤ gdtr.limit)
    (hcode : segment.IsCode) (hlast : gate.offset ≤ segment.last) :
    enter mem gdtr idtr vector = some ((segment.base + gate.offset) % 2 ^ 32) := by
  subst hgate hsegment
  obtain ⟨hnull, htable, hlimit⟩ := hselector
  exact if_pos ⟨hvector, hinterrupt, hnull, htable, hlimit, hcode, hlast⟩

end SegmentTables

end Lib
