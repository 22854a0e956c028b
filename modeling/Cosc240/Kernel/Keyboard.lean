import Cosc240.Kernel.Terminal

/-!
# Starting the kernel, and typing

After `kmain` (tutorial8/kernel.c:267–290) has put its greeting on the screen, only the keyboard
makes the kernel do anything. Each keyboard interrupt runs `keyboard_handler_main`
(kernel.c:248–264) from start to end: the gate is an interrupt gate, so no other interrupt comes in
between. Whatever was in video memory before, the screen then shows what has been typed since.

- `clearScreen` (kernel.c:239–245) and `greet`: what `kmain` does with the screen.
- `keyboardMap` (keyboard_map.h:6–44): the characters of the keys. What has no initializer is 0.
- `Interrupt`: a keyboard interrupt, with what the two ports read when it is handled.
  `handleKeyboard` fails where it would read behind `keyboard_map`.
- `Interrupt.typed` and `typedTape`: what an interrupt types, and the tape with the greeting and
  what has been typed behind it.
- `Displays`: the screen is a window of the tape, and the cursor that the display controller draws
  (`CursorRegisters.location`) is where the next character goes.

Main results:

- `displays_greet`: the greeting is all there is on the screen.
- `handleKeyboard_cases`: what one interrupt does.
- `typing_displays`: the kernel is a typewriter, for any sequence of interrupts.
-/

namespace Cosc240

open Lib

namespace Kernel

/-! ## The functions -/

/-- `clear_screen`. -/
def clearScreen (m : Machine) : Machine :=
  setCursor ((List.range 25).foldl (fun m _ => writeString m [ascii '\n', 0]) (setCursor m 0)) 0

/-- `"Hello World!"`, with the zero that ends it. -/
def greeting : List UInt8 := "Hello World!".toList.map ascii ++ [0]

/-- What `kmain` does with the screen. -/
def greet (m : Machine) : Machine :=
  writeString (setCursor (clearScreen m) (80 * 12 + 33)) greeting

/-- The initializers of `keyboard_map`. -/
def listedKeys : List UInt8 :=
  [0, 27, ascii '1', ascii '2', ascii '3', ascii '4', ascii '5', ascii '6', ascii '7', ascii '8',
    ascii '9', ascii '0', ascii '-', ascii '=', 8,
    ascii '\t',
    ascii 'q', ascii 'w', ascii 'e', ascii 'r',
    ascii 't', ascii 'y', ascii 'u', ascii 'i', ascii 'o', ascii 'p', ascii '[', ascii ']',
    ascii '\n',
    0, -- Control
    ascii 'a', ascii 's', ascii 'd', ascii 'f', ascii 'g', ascii 'h', ascii 'j', ascii 'k',
    ascii 'l', ascii ';',
    39, 96, 0, -- the quotes, and left shift
    92, ascii 'z', ascii 'x', ascii 'c', ascii 'v', ascii 'b', ascii 'n',
    ascii 'm', ascii ',', ascii '.', ascii '/', 0, -- right shift
    ascii '*',
    0, -- Alt
    ascii ' ',
    0, -- Caps lock
    0, 0, 0, 0, 0, 0, 0, 0, 0, 0, -- F1 to F10
    0, 0, 0, 0, 0, -- Num lock, Scroll lock, Home, Up, Page Up
    ascii '-',
    0, 0, 0,
    ascii '+',
    0, 0, 0, 0, 0, 0, 0, 0, 0, 0, 0]

/-- `keyboard_map`. What has no initializer is 0. -/
def keyboardMap : List UInt8 := listedKeys ++ List.replicate (128 - listedKeys.length) 0

/-- A keyboard interrupt, and what the two ports read when it is handled. -/
structure Interrupt where
  /-- Port `0x64`. -/
  status : UInt8
  /-- Port `0x60`. -/
  keycode : UInt8

/-- `keyboard_handler_main`, for a `write`. It fails where it would read behind
`keyboard_map`. -/
def handleKeyboard (write : Machine → List UInt8 → Machine) (m : Machine) (i : Interrupt) :
    Option Machine :=
  let m := outPort m 0x20 0x20
  if i.status &&& 0x01 ≠ 0 then
    -- a `char` is signed
    let keycode := i.keycode.toInt8
    if keycode < 0 then some m
    else (keyboardMap[keycode.toInt.toNat]?).map fun c => write m [c]
  else some m

/-- `keyboard_handler_main`. -/
def keyboardHandlerMain (m : Machine) (i : Interrupt) : Option Machine := handleKeyboard write m i

/-- The keyboard interrupts after `kmain` has started everything. -/
def typing (m : Machine) (is : List Interrupt) : Option Machine := is.foldlM keyboardHandlerMain m

/-! ## What they are for -/

/-- What an interrupt types. A key that is released sends its code plus 128, and types
nothing. -/
def Interrupt.typed (i : Interrupt) : List UInt8 :=
  if i.status.toNat % 2 = 1 ∧ i.keycode.toNat < 128 then
    [keyboardMap.getD i.keycode.toNat 0]
  else []

/-- The greeting, and what has been typed behind it. -/
def typedTape (is : List Interrupt) : Tape Cell :=
  (greeting.dropLast ++ is.flatMap Interrupt.typed).foldl layoutChar
    ⟨fun _ => blankCell, 80 * 12 + 33⟩

/-- The display controller, as far as it draws the cursor. -/
structure CursorRegisters where
  index : UInt8
  high : UInt8
  low : UInt8

/-- Port `0x3D4` chooses a register, and port `0x3D5` writes it. -/
def CursorRegisters.out (r : CursorRegisters) (write : Nat × UInt8) : CursorRegisters :=
  if write.1 = 0x3D4 then { r with index := write.2 }
  else if write.1 = 0x3D5 then
    if r.index = 14 then { r with high := write.2 }
    else if r.index = 15 then { r with low := write.2 }
    else r
  else r

/-- The cell at which the cursor is drawn. -/
def CursorRegisters.location (r : CursorRegisters) : Nat := r.high.toNat * 256 + r.low.toNat

/-! ## What stays true -/

variable {r : CursorRegisters} {m : Machine} {T : Tape Cell}

/-- The screen is a window of the tape, and the cursor is where the next character goes. -/
structure Displays (r : CursorRegisters) (m : Machine) (T : Tape Cell) : Prop where
  shows : ∃ s, Shows s m m.cursorPosition T
  onScreen : m.cursorPosition < 80 * 25
  cursor : (m.ports.foldl CursorRegisters.out r).location = m.cursorPosition

theorem location_setCursor (r : CursorRegisters) (m : Machine) {address : Nat}
    (haddress : address < 65536) :
    ((setCursor m address).ports.foldl CursorRegisters.out r).location = address := by
  have hports : (setCursor m address).ports = m.ports ++
      [(0x3D4, 14), (0x3D5, UInt8.ofNat ((address >>> 8) &&& 0xFF)),
        (0x3D4, 15), (0x3D5, UInt8.ofNat (address &&& 0xFF))] := by
    simp [setCursor, outPort]
  have hlow : address &&& 0xFF = address % 256 := Nat.and_two_pow_sub_one_eq_mod address 8
  have hhigh : (address >>> 8) &&& 0xFF = address / 256 % 256 := by
    rw [Nat.shiftRight_eq_div_pow]
    exact Nat.and_two_pow_sub_one_eq_mod _ 8
  rw [hports, List.foldl_append, hlow, hhigh]
  simp only [List.foldl_cons, List.foldl_nil, CursorRegisters.out, CursorRegisters.location]
  simp
  omega

/-- Other ports do not move the cursor. -/
theorem Displays.outPort (h : Displays r m T) (value : UInt8) :
    Displays r (outPort m 0x20 value) T where
  shows := h.shows
  onScreen := h.onScreen
  cursor := by
    rw [← show _ = (Kernel.outPort m 0x20 value).cursorPosition from h.cursor, Kernel.outPort,
      List.foldl_append]
    rfl

/-- **`write`** adds the message to the tape. -/
theorem Displays.write (h : Displays r m T) (msg : List UInt8) :
    Displays r (write m msg) (msg.foldl layoutChar T) := by
  obtain ⟨s, hshows⟩ := h.shows
  obtain ⟨s', m', address, hfold, h', hlt⟩ := hshows.foldl_writeStep msg h.onScreen
  have hwrite : Kernel.write m msg = setCursor m' address := by
    rw [Kernel.write, hfold]
  rw [hwrite]
  constructor
  · exact ⟨s', h'⟩
  · exact hlt
  · exact location_setCursor r m' (by omega)

/-- The cursor is put on a blank screen. -/
theorem displays_setCursor (r : CursorRegisters) (hblank : ∀ k < 80 * 25, m.screen k = blankCell)
    {address : Nat} (haddress : address < 80 * 25) :
    Displays r (setCursor m address) ⟨fun _ => blankCell, address⟩ := by
  constructor
  · refine ⟨0, rfl, fun k hk => hblank k hk, fun _ _ => rfl, Or.inl rfl⟩
  · exact haddress
  · exact location_setCursor r m (by omega)

/-! ## The start -/

/-- `n` newlines from the top blank the first `n` rows. -/
theorem newlines_cells (T : Tape Cell) (hposition : T.position = 0) (n : Nat) :
    let T' := (List.replicate n (ascii '\n')).foldl layoutChar T
    T'.position = 80 * n ∧ ∀ k, T'.cells k = if k < 80 * n then blankCell else T.cells k := by
  induction n with
  | zero =>
    refine ⟨hposition, fun k => ?_⟩
    rw [if_neg (by omega)]
    rfl
  | succ n ih =>
    obtain ⟨hpos, hcells⟩ := ih
    dsimp only
    rw [List.replicate_succ', List.foldl_append, List.foldl_cons, List.foldl_nil, layoutChar,
      if_pos rfl, Tape.fill_position, hpos]
    refine ⟨by omega, fun k => ?_⟩
    rw [Tape.fill_cells, hpos, hcells]
    by_cases hk : k < 80 * n
    · rw [if_neg (by omega), if_pos hk, if_pos (by omega)]
    · by_cases hrow : k < 80 * (n + 1)
      · rw [if_pos (by omega), if_pos hrow]
      · rw [if_neg (by omega), if_neg hk, if_neg hrow]

theorem screen_setCursor (m : Machine) (address k : Nat) :
    (setCursor m address).screen k = m.screen k := rfl

/-- The loop of `clear_screen` lays out `n` newlines. -/
theorem Displays.newlines (h : Displays r m T) (n : Nat) :
    Displays r ((List.range n).foldl (fun m _ => writeString m [ascii '\n', 0]) m)
      ((List.replicate n (ascii '\n')).foldl layoutChar T) := by
  induction n with
  | zero => exact h
  | succ n ih =>
    rw [List.range_succ, List.foldl_append, List.replicate_succ', List.foldl_append]
    exact ih.write [ascii '\n']

/-- `clear_screen` blanks every cell, whatever was there. -/
theorem screen_clearScreen (m : Machine) {k : Nat} (hk : k < 80 * 25) :
    (clearScreen m).screen k = blankCell := by
  have hstart : Displays ⟨0, 0, 0⟩ (setCursor m 0) (setCursor m 0).tape :=
    ⟨⟨0, shows_tape _⟩, show 0 < 80 * 25 by decide, location_setCursor _ m (by decide)⟩
  obtain ⟨⟨s, hshows⟩, -, -⟩ := hstart.newlines 25
  obtain ⟨-, hcells⟩ := newlines_cells (setCursor m 0).tape rfl 25
  rw [clearScreen, screen_setCursor, hshows.visible k hk, hcells]
  by_cases hlt : 80 * s + k < 80 * 25
  · exact if_pos hlt
  · rw [if_neg hlt]
    exact if_neg hlt

theorem displays_clearScreen (r : CursorRegisters) (m : Machine) :
    Displays r (clearScreen m) ⟨fun _ => blankCell, 0⟩ := by
  rw [clearScreen]
  refine displays_setCursor r (fun k hk => ?_) (by decide)
  have hblank := screen_clearScreen m hk
  rw [clearScreen, screen_setCursor] at hblank
  exact hblank

/-- **The greeting** is all there is on the screen. -/
theorem displays_greet (r : CursorRegisters) (m : Machine) :
    Displays r (greet m) (typedTape []) := by
  have h := displays_setCursor r (m := clearScreen m) (fun k hk => screen_clearScreen m hk)
    (show 80 * 12 + 33 < 80 * 25 by decide)
  have hstring : greeting.takeWhile (· ≠ 0) = greeting.dropLast := by decide
  rw [greet, writeString, hstring, typedTape, List.flatMap_nil, List.append_nil]
  exact h.write greeting.dropLast

/-! ## Typing -/

theorem length_keyboardMap : keyboardMap.length = 128 := by
  rw [keyboardMap, List.length_append, List.length_replicate]
  rfl

/-- What the handler looks at. -/
theorem toInt8_lt_zero_iff (keycode : UInt8) :
    (keycode.toInt8 < 0 ↔ 128 ≤ keycode.toNat) ∧
      (keycode.toNat < 128 → keycode.toInt8.toInt.toNat = keycode.toNat) := by
  have hlt : keycode.toNat < 256 := keycode.toNat_lt
  have hint : keycode.toInt8.toInt =
      if 2 * keycode.toNat < 256 then (keycode.toNat : Int) else keycode.toNat - 256 :=
    BitVec.toInt_eq_toNat_cond keycode.toBitVec
  rw [Int8.lt_iff_toInt_lt, hint]
  constructor
  · show _ < (0 : Int) ↔ _
    split <;> omega
  · intro h
    rw [if_pos (by omega), Int.toNat_natCast]

/-- **One interrupt**: the controller is told that it is being handled, and then what
has been typed is written. -/
theorem handleKeyboard_cases (write : Machine → List UInt8 → Machine) (m : Machine)
    (i : Interrupt) :
    (i.typed = [] ∧ handleKeyboard write m i = some (outPort m 0x20 0x20)) ∨
      ∃ c, i.typed = [c] ∧ handleKeyboard write m i = some (write (outPort m 0x20 0x20) [c]) := by
  obtain ⟨hsign, hindex⟩ := toInt8_lt_zero_iff i.keycode
  have hstatus : i.status &&& 0x01 ≠ 0 ↔ i.status.toNat % 2 = 1 := by
    rw [Ne, ← UInt8.toNat_inj, UInt8.toNat_and, show (0x01 : UInt8).toNat = 2 ^ 1 - 1 from rfl,
      Nat.and_two_pow_sub_one_eq_mod]
    show ¬ i.status.toNat % 2 = 0 ↔ _
    omega
  unfold handleKeyboard Interrupt.typed
  dsimp only
  by_cases hfull : i.status.toNat % 2 = 1
  · rw [if_pos (hstatus.mpr hfull)]
    by_cases hpressed : i.keycode.toNat < 128
    · have hmem : i.keycode.toNat < keyboardMap.length := by
        rw [length_keyboardMap]
        exact hpressed
      right
      refine ⟨keyboardMap.getD i.keycode.toNat 0, if_pos ⟨hfull, hpressed⟩, ?_⟩
      rw [if_neg (fun h => absurd (hsign.mp h) (by omega)), hindex hpressed,
        List.getD_eq_getElem?_getD, List.getElem?_eq_getElem hmem]
      rfl
    · left
      exact ⟨if_neg fun h => hpressed h.2, if_pos (hsign.mpr (by omega))⟩
  · left
    exact ⟨if_neg fun h => hfull h.1, if_neg (fun h => hfull (hstatus.mp h))⟩

theorem Displays.keyboardHandlerMain (h : Displays r m T) (i : Interrupt) :
    ∃ m', keyboardHandlerMain m i = some m' ∧ Displays r m' (i.typed.foldl layoutChar T) := by
  rcases handleKeyboard_cases Kernel.write m i with ⟨htyped, hrun⟩ | ⟨c, htyped, hrun⟩
  · rw [htyped]
    exact ⟨_, hrun, h.outPort 0x20⟩
  · rw [htyped]
    exact ⟨_, hrun, (h.outPort 0x20).write [c]⟩

theorem Displays.typing (h : Displays r m T) (is : List Interrupt) :
    ∃ m', typing m is = some m' ∧
      Displays r m' ((is.flatMap Interrupt.typed).foldl layoutChar T) := by
  induction is generalizing m T with
  | nil => exact ⟨m, rfl, h⟩
  | cons i is ih =>
    obtain ⟨m₁, hrun, h₁⟩ := h.keyboardHandlerMain i
    obtain ⟨m', hrun', h'⟩ := ih h₁
    refine ⟨m', ?_, ?_⟩
    · rw [Kernel.typing, List.foldlM_cons, hrun]
      exact hrun'
    · rw [List.flatMap_cons, List.foldl_append]
      exact h'

/-- **The kernel is a typewriter.** Whatever was in video memory when it was started and
whatever the keyboard does, no interrupt reads behind `keyboard_map`, and the screen shows the
greeting and what was typed behind it, scrolled by no more rows than it takes. The cursor is
drawn where the next character goes. -/
theorem typing_displays (m : Machine) (r : CursorRegisters) (is : List Interrupt) :
    ∃ m' s, typing (greet m) is = some m' ∧
      IsLeast {s : Nat | ((typedTape is).position : Int) - 80 * s < 80 * 25} s ∧
      (∀ k < 80 * 25, m'.screen k = (typedTape is).cells (80 * s + k)) ∧
      ((typedTape is).position : Int) - 80 * s = m'.cursorPosition ∧
      (m'.ports.foldl CursorRegisters.out r).location = m'.cursorPosition := by
  obtain ⟨m', hrun, h⟩ := (displays_greet r m).typing is
  have htape : (is.flatMap Interrupt.typed).foldl layoutChar (typedTape []) = typedTape is := by
    rw [typedTape, typedTape, List.flatMap_nil, List.append_nil, List.foldl_append]
  rw [htape] at h
  obtain ⟨s, hshows⟩ := h.shows
  refine ⟨m', s, hrun, by simpa using hshows.isLeast h.onScreen, hshows.visible, ?_, h.cursor⟩
  rw [hshows.position]
  omega

end Kernel

end Cosc240
