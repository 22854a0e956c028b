import Cosc240.Lib.SegmentTables

/-!
# Descriptors of the tutorial 8 kernel

The entries of the two tables as packed structures (tutorial8/kernel.c:26–41, 50–56), what `gdt_set`
and `load_keyboard` put into them, and that the processor reads back what was meant. An `unsigned
long` has 32 bits.

- `GdtEntry`, `IdtEntry`: the structures, with their bytes in memory in the order of the fields.
- `gdtSet` (kernel.c:67–82): what it makes of an entry. The limit has 20 bits in an entry, and what
  is above them is lost.
- `keyboardGate`: what `load_keyboard` (kernel.c:154–161) makes of an entry.
- `gp` and `idtPtr`: the operands of `lgdt` and `lidt`, as `load_gdt` (kernel.c:90–91) and
  `idt_init` (kernel.c:146–148) set them.
- `GdtEntry.segment` and `IdtEntry.gate`: the descriptors that the entries stand for.

Main results:

- `segmentAt_of_stored` and `gateAt_of_stored`: what the processor reads where an entry is in
  memory.
- `segment_gdtSet`: an entry has the base, what fits of the limit, and the access byte that were
  given.
- `gate_keyboardGate`: the gate is an interrupt gate to the handler.
- `tablePointer_gp` and `tablePointer_idtPtr`: the two operands, where the second limit is one more
  than the last offset in the table.
-/

namespace Cosc240

open Lib LittleEndian SegmentTables

namespace Kernel

/-- `struct gdt_entry`. -/
structure GdtEntry where
  limitLow : UInt16
  baseLow : UInt16
  baseMiddle : UInt8
  access : UInt8
  granularity : UInt8
  baseHigh : UInt8

/-- The entry in memory. -/
def GdtEntry.bytes (e : GdtEntry) : List UInt8 :=
  LittleEndian.bytes 2 e.limitLow.toNat ++ LittleEndian.bytes 2 e.baseLow.toNat ++
    [e.baseMiddle, e.access, e.granularity, e.baseHigh]

/-- `struct idt_entry`. -/
structure IdtEntry where
  offsetLowerbits : UInt16
  selector : UInt16
  zero : UInt8
  typeAttr : UInt8
  offsetHigherbits : UInt16

/-- The entry in memory. -/
def IdtEntry.bytes (e : IdtEntry) : List UInt8 :=
  LittleEndian.bytes 2 e.offsetLowerbits.toNat ++ LittleEndian.bytes 2 e.selector.toNat ++
    [e.zero, e.typeAttr] ++ LittleEndian.bytes 2 e.offsetHigherbits.toNat

/-- What `gdt_set` makes of an entry. -/
def gdtSet (base limit : Nat) (access gran : UInt8) : GdtEntry where
  baseLow := UInt16.ofNat (base &&& 0xFFFF)
  baseMiddle := UInt8.ofNat ((base >>> 16) &&& 0xFF)
  baseHigh := UInt8.ofNat ((base >>> 24) &&& 0xFF)
  limitLow := UInt16.ofNat (limit &&& 0xFFFF)
  granularity := UInt8.ofNat ((limit >>> 16) &&& 0x0F) ||| (gran &&& 0xF0)
  access := access

/-! ## What the processor reads -/

section Bits

variable (n : Nat)

theorem and_0xFFFF : n &&& 0xFFFF = n % 2 ^ 16 := Nat.and_two_pow_sub_one_eq_mod n 16

theorem and_0xFF : n &&& 0xFF = n % 2 ^ 8 := Nat.and_two_pow_sub_one_eq_mod n 8

theorem and_0x0F : n &&& 0x0F = n % 2 ^ 4 := Nat.and_two_pow_sub_one_eq_mod n 4

end Bits

/-- The two halves of a byte do not get in each other's way. -/
theorem toNat_halves (low gran : UInt8) (hlow : low.toNat < 16) :
    (low ||| (gran &&& 0xF0)).toNat = 16 * (gran.toNat / 16) + low.toNat := by
  have hhigh : ∀ g < 256, g &&& 0xF0 = 2 ^ 4 * (g / 16) := by decide +kernel
  rw [UInt8.toNat_or, UInt8.toNat_and, show (0xF0 : UInt8).toNat = 0xF0 from rfl,
    hhigh _ gran.toNat_lt, Nat.or_comm, ← Nat.two_pow_add_eq_or_of_lt (i := 4) hlow]

variable {mem : Nat → UInt8} {a : Nat}

/-- The segment that an entry describes. -/
def GdtEntry.segment (e : GdtEntry) : Segment where
  base := e.baseLow.toNat + 2 ^ 16 * e.baseMiddle.toNat + 2 ^ 24 * e.baseHigh.toNat
  limit := e.limitLow.toNat + 2 ^ 16 * (e.granularity.toNat % 16)
  access := e.access
  flags := e.granularity.toNat / 16

/-- The gate that an entry describes. -/
def IdtEntry.gate (e : IdtEntry) : Gate where
  offset := e.offsetLowerbits.toNat + 2 ^ 16 * e.offsetHigherbits.toNat
  selector := e.selector.toNat
  typeAttr := e.typeAttr

/-- What is read back of an `unsigned short`. -/
theorem read_uint16 {v : UInt16} (h : Stored mem a (LittleEndian.bytes 2 v.toNat)) :
    LittleEndian.read mem 2 a = v.toNat :=
  (read_eq h).trans (Nat.mod_eq_of_lt v.toNat_lt)

/-- The processor decodes the eight bytes of an entry of the GDT. -/
theorem segmentAt_of_stored {e : GdtEntry} (h : Stored mem a e.bytes) :
    segmentAt mem a = e.segment := by
  rw [GdtEntry.bytes, stored_append, stored_append] at h
  obtain ⟨⟨hlimit, hlow⟩, hmiddle, haccess, hgranularity, hhigh, -⟩ := h
  rw [length_bytes] at hlow
  rw [List.length_append, length_bytes, length_bytes] at hmiddle haccess hgranularity hhigh
  rw [segmentAt, read_uint16 hlimit, read_uint16 hlow,
    show mem (a + 4) = _ from hmiddle, show mem (a + 7) = _ from hhigh,
    show mem (a + 6) = _ from hgranularity, show mem (a + 5) = _ from haccess]
  rfl

/-- It decodes the eight bytes of a gate. -/
theorem gateAt_of_stored {e : IdtEntry} (h : Stored mem a e.bytes) : gateAt mem a = e.gate := by
  rw [IdtEntry.bytes, stored_append, stored_append, stored_append] at h
  obtain ⟨⟨⟨hlower, hselector⟩, -, htype, -⟩, hhigher⟩ := h
  rw [length_bytes] at hselector
  rw [List.length_append, length_bytes, length_bytes] at htype
  rw [List.length_append, List.length_append, length_bytes, length_bytes] at hhigher
  rw [gateAt, read_uint16 hlower, read_uint16 hselector,
    show LittleEndian.read mem 2 (a + 6) = _ from read_uint16 hhigher,
    show mem (a + 5) = _ from htype]
  rfl

/-- **The entry that `gdt_set` makes** has the base, and what fits of the limit. -/
theorem segment_gdtSet {base : Nat} (hbase : base < 2 ^ 32) (limit : Nat) (access gran : UInt8) :
    (gdtSet base limit access gran).segment =
      ⟨base, limit % 2 ^ 20, access, gran.toNat / 16⟩ := by
  have hhalves := toNat_halves (UInt8.ofNat ((limit >>> 16) &&& 0x0F)) gran
  unfold GdtEntry.segment gdtSet
  simp only [and_0xFFFF, and_0xFF, and_0x0F, Nat.shiftRight_eq_div_pow, UInt16.toNat_ofNat',
    UInt8.toNat_ofNat', Segment.mk.injEq] at hhalves ⊢
  rw [hhalves (by omega)]
  refine ⟨?_, ?_, trivial, ?_⟩
  · omega
  · omega
  · omega

/-- What `load_keyboard` makes of an entry. -/
def keyboardGate (keyboardAddress : Nat) : IdtEntry where
  offsetLowerbits := UInt16.ofNat (keyboardAddress &&& 0xffff)
  selector := 0x08
  zero := 0
  typeAttr := 0x8e
  offsetHigherbits := UInt16.ofNat ((keyboardAddress &&& 0xffff0000) >>> 16)

/-- **The entry that `load_keyboard` makes** is an interrupt gate to the handler. -/
theorem gate_keyboardGate {keyboardAddress : Nat} (haddress : keyboardAddress < 2 ^ 32) :
    (keyboardGate keyboardAddress).gate = ⟨keyboardAddress, 0x08, 0x8e⟩ := by
  have hshift : (keyboardAddress &&& 0xffff0000) >>> 16 = keyboardAddress / 2 ^ 16 % 2 ^ 16 := by
    rw [Nat.shiftRight_and_distrib, show 0xffff0000 >>> 16 = 0xFFFF from rfl, and_0xFFFF,
      Nat.shiftRight_eq_div_pow]
  unfold IdtEntry.gate keyboardGate
  simp only [and_0xFFFF, hshift, UInt16.toNat_ofNat', Gate.mk.injEq]
  exact ⟨by omega, rfl, trivial⟩

/-! ## The operands of `lgdt` and `lidt` -/

/-- `gp`, as `load_gdt` sets it. -/
def gp (gdt : Nat) : List UInt8 :=
  LittleEndian.bytes 2 (8 * 5 - 1) ++ LittleEndian.bytes 4 gdt

/-- `idt_ptr`, as `idt_init` sets it. -/
def idtPtr (idtAddress : Nat) : List UInt8 :=
  LittleEndian.bytes 4 (8 * 256 + ((idtAddress &&& 0xffff) <<< 16)) ++
    LittleEndian.bytes 4 (idtAddress >>> 16)

/-- The pointer that these bytes are. -/
def tablePointer (bytes : List UInt8) : TablePointer := tablePointerAt (bytes.getD · 0) 0

/-- `load_gdt` gives the processor the size of five entries and the address. -/
theorem tablePointer_gp {gdt : Nat} (hgdt : gdt < 2 ^ 32) : tablePointer (gp gdt) = ⟨39, gdt⟩ := by
  unfold tablePointer tablePointerAt gp
  simp [LittleEndian.bytes, LittleEndian.read]
  omega

/-- The limit is one more than the last offset in the table. -/
theorem tablePointer_idtPtr {idtAddress : Nat} (hidt : idtAddress < 2 ^ 32) :
    tablePointer (idtPtr idtAddress) = ⟨2048, idtAddress⟩ := by
  unfold tablePointer tablePointerAt idtPtr
  rw [and_0xFFFF, Nat.shiftLeft_eq, Nat.shiftRight_eq_div_pow]
  simp [LittleEndian.bytes, LittleEndian.read]
  omega

end Kernel

end Cosc240
