import Mathlib.Algebra.GroupWithZero.Nat

/-!
# Numbers in memory, lowest byte first

A number of `n` bytes in a byte-addressed memory, in the order of the x86: the byte at the lowest
address is the least significant one. Packed records of such numbers are lists of bytes that are
appended, and each field is read at the address where its bytes begin.

- `bytes n value`: the lowest `n` bytes of a number, and what does not fit in them is lost.
- `read mem n a`: the number in the `n` bytes from address `a` on.
- `Stored mem a l`: the bytes `l` are in memory from `a` on. `stored_append` splits this at the
  fields of a record, and `stored_of_forall` is how it is shown byte by byte.
- `read_eq`: the round trip. What is read where a number is stored is the number, modulo what its
  bytes can hold.
-/

namespace Lib

namespace LittleEndian

/-- The lowest `n` bytes of a number. -/
def bytes : Nat → Nat → List UInt8
  | 0, _ => []
  | n + 1, v => UInt8.ofNat v :: bytes n (v / 256)

/-- The number in the `n` bytes from address `a` on. -/
def read (mem : Nat → UInt8) : Nat → Nat → Nat
  | 0, _ => 0
  | n + 1, a => (mem a).toNat + 256 * read mem n (a + 1)

/-- These bytes are in memory from address `a` on. -/
def Stored (mem : Nat → UInt8) : Nat → List UInt8 → Prop
  | _, [] => True
  | a, b :: l => mem a = b ∧ Stored mem (a + 1) l

variable {mem : Nat → UInt8} {a : Nat}

@[simp] theorem length_bytes (n v : Nat) : (bytes n v).length = n := by
  induction n generalizing v with
  | zero => rfl
  | succ n ih => rw [bytes, List.length_cons, ih]

theorem stored_append (l l' : List UInt8) :
    Stored mem a (l ++ l') ↔ Stored mem a l ∧ Stored mem (a + l.length) l' := by
  induction l generalizing a with
  | nil => simp [Stored]
  | cons b l ih =>
    rw [List.cons_append, Stored, Stored, ih, List.length_cons, Nat.add_assoc,
      Nat.add_comm 1, and_assoc]

/-- **Round trip.** What is read is what was stored, as far as the bytes hold it. -/
theorem read_eq {n v : Nat} (h : Stored mem a (bytes n v)) : read mem n a = v % 256 ^ n := by
  induction n generalizing a v with
  | zero => rw [read, pow_zero, Nat.mod_one]
  | succ n ih =>
    obtain ⟨hbyte, hrest⟩ := h
    rw [read, hbyte, ih hrest, pow_succ, Nat.mul_comm (256 ^ n) 256, Nat.mod_mul,
      UInt8.toNat_ofNat']

theorem stored_of_forall {l : List UInt8} (h : ∀ i < l.length, mem (a + i) = l.getD i 0) :
    Stored mem a l := by
  induction l generalizing a with
  | nil => trivial
  | cons b l ih =>
    constructor
    · exact h 0 (Nat.succ_pos _)
    · refine ih fun i hi => ?_
      rw [Nat.add_assoc, Nat.add_comm 1]
      exact h (i + 1) (Nat.succ_lt_succ hi)

end LittleEndian

end Lib
