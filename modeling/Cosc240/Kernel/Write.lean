import Cosc240.Simulator.Basic
import Mathlib.Logic.Function.Basic

/-!
# Screen output of the tutorial 8 kernel

`write` in tutorial8/kernel.c:190–227 puts a message on a text screen of 25 rows of 80 cells,
two bytes each, in the memory at `0xb8000`. The model keeps that memory as bytes
at offsets from `vidptr`, without an end, so that an access past the screen is
seen. Addresses are `unsigned int`s.

- `Machine`: the video memory, the offsets that have been touched, what has been sent to the ports,
  and `cursor_position`.
- `setCursor` (kernel.c:169–177) and `writeChar` (kernel.c:180–187). The comparison of the latter
  lets address `80 * 25` through, one past the last cell of the screen.
- `newLine`, `blanks`, `putChar`: what is done with a newline, with a tab, and with any character.
- `moveRowsUp`, `blankLastRow`, `scroll`: the loops that scroll the screen while the address is past
  its end.
- `writeStep`, `write`, `writeString`: the body of the loop of `write`, the function, and the one
  that is called with a string (kernel.c:230–236).

The claims about these functions are in `Kernel.Terminal` (what is on the screen) and
`Kernel.Bounds` (which memory is touched).
-/

namespace Cosc240

namespace Kernel

/-- The machine, as far as `write` uses it. -/
structure Machine where
  /-- The bytes from `0xb8000` on. -/
  vidptr : Nat → UInt8
  cursorPosition : Nat
  /-- What was sent to which port, in order. -/
  ports : List (Nat × UInt8)
  /-- The offsets that were read or written, in order. No code reads this. -/
  touched : List Nat

/-- `vidptr[offset] = value`. -/
def Machine.store (m : Machine) (offset : Nat) (value : UInt8) : Machine :=
  { m with
    vidptr := Function.update m.vidptr offset value
    touched := m.touched ++ [offset] }

/-- `vidptr[offset] = vidptr[source]`. -/
def Machine.copy (m : Machine) (offset source : Nat) : Machine :=
  { m with
    vidptr := Function.update m.vidptr offset (m.vidptr source)
    touched := m.touched ++ [source, offset] }

/-- `out_port`. -/
def outPort (m : Machine) (port : Nat) (value : UInt8) : Machine :=
  { m with ports := m.ports ++ [(port, value)] }

/-- The code of a character. -/
def ascii (c : Char) : UInt8 := UInt8.ofNat c.toNat

/-- `set_cursor`. -/
def setCursor (m : Machine) (address : Nat) : Machine :=
  let high := UInt8.ofNat ((address >>> 8) &&& 0xFF)
  let low := UInt8.ofNat (address &&& 0xFF)
  let m := outPort m 0x3D4 14
  let m := outPort m 0x3D5 high
  let m := outPort m 0x3D4 15
  let m := outPort m 0x3D5 low
  { m with cursorPosition := address }

/-- `write_char`. The comparison lets address `80 * 25` through, one past the
last cell of the screen. -/
def writeChar (m : Machine) (address : Nat) (c foreground background : UInt8) : Machine :=
  let colour := ((background &&& 0x0F) <<< 4) ||| (foreground &&& 0x0F)
  if address ≤ 80 * 25 then
    (m.store (address * 2) c).store (address * 2 + 1) colour
  else
    m

/-- The loop for a newline character: it stops at the start of a row. -/
def newLine (m : Machine) (address : Nat) : Machine × Nat :=
  let m := writeChar m address (ascii ' ') 7 0
  if incr address % 80 ≠ 0 then newLine m (incr address) else (m, incr address)
termination_by (if address ≤ uintMax then 0 else 80) + (79 - address % 80)
decreasing_by
  have hle : incr address ≤ uintMax := Nat.le_of_lt_succ (Nat.mod_lt _ (Nat.succ_pos _))
  rw [if_pos hle]
  by_cases hlt : address < uintMax
  · rw [incr_of_lt hlt (Nat.le_refl _)] at *
    rw [if_pos (Nat.le_of_lt hlt)]
    omega
  · rcases Nat.eq_or_lt_of_le (Nat.le_of_not_lt hlt) with heq | hgt
    · -- the address that wraps around is at the start of a row
      subst heq
      contradiction
    · rw [if_neg (Nat.not_le.mpr hgt)]
      omega

/-- The loop for a tab character, `n` blanks. -/
def blanks : (n : Nat) → Machine → Nat → Machine × Nat
  | 0, m, address => (m, address)
  | n + 1, m, address => blanks n (writeChar m address (ascii ' ') 7 0) (incr address)

/-- One character of the message, before the screen is scrolled. -/
def putChar (m : Machine) (address : Nat) (c : UInt8) : Machine × Nat :=
  if c = ascii '\n' then newLine m address
  else if c = ascii '\t' then blanks 8 m address
  else (writeChar m address c 7 0, incr address)

/-- The first loop of scrolling: each byte comes from one row further down. -/
def moveRowsUp (m : Machine) : Machine :=
  (List.range (80 * 24 * 2)).foldl (fun m j => m.copy j (j + 80 * 2)) m

/-- The second one: blanks in the last row, for `j = 0, 2, …`. -/
def blankLastRow (m : Machine) : Machine :=
  (List.range 80).foldl (fun m i =>
    let j := 2 * i
    (m.store (80 * 24 * 2 + j) (ascii ' ')).store (80 * 24 * 2 + j + 1) 0x7) m

/-- The loop that scrolls the screen while the address is past it. -/
def scroll (m : Machine) (address : Nat) : Machine × Nat :=
  if 80 * 25 ≤ address then scroll (blankLastRow (moveRowsUp m)) (address - 80)
  else (m, address)
termination_by address

/-- The body of the loop of `write`. -/
def writeStep (state : Machine × Nat) (c : UInt8) : Machine × Nat :=
  let (m, address) := putChar state.1 state.2 c
  scroll m address

/-- `write`, for the `msg_len` bytes at `msg`. -/
def write (m : Machine) (msg : List UInt8) : Machine :=
  let (m, address) := msg.foldl writeStep (m, m.cursorPosition)
  setCursor m address

/-- `write_string`, for the bytes up to the terminating zero. -/
def writeString (m : Machine) (msg : List UInt8) : Machine :=
  write m (msg.takeWhile (· ≠ 0))

end Kernel

end Cosc240
