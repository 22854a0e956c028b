import Cosc240.Kernel.Terminal

/-!
# Video memory that `write` touches

`write_char` lets the address `80 * 25` through, one past the last cell
(tutorial8/kernel.c:180–187). An ordinary character is written before the address is advanced, a
newline stops at the end of the row, but the eight blanks of a tab are written without scrolling in
between (kernel.c:199–204): from one of the last seven columns of the last row they reach that
address.

- `StaysOnScreen`: `write` reads and writes video memory on the screen only.
- `cellOffsets`: the offsets at which `write_char` writes. They are on the screen unless they belong
  to the address past its end (`cellOffsets_lt_iff`).
- `advance`: the address behind a character, once the screen has been scrolled.
- `TabsFit`: no tab of the message finds the cursor in the last seven columns of the last row. It is
  a recursion over the message, and looks at neither memory nor `write`.

Main results:

- `scroll_spec`: scrolling stays on the screen, and ends after one round.
- `writeStep_spec` and `foldl_writeStep_touched`: one character, and the loop.
- `staysOnScreen_iff`: the output stays on the screen exactly if the tabs fit.
- `not_staysOnScreen_tab`: a tab in the last column of the last row is written past the end.
-/

namespace Cosc240

namespace Kernel

/-- How many bytes the screen has. -/
def screenBytes : Nat := 80 * 25 * 2

/-- `write` reads and writes video memory on the screen only. -/
def StaysOnScreen (m : Machine) (msg : List UInt8) : Prop :=
  ∃ new, (write m msg).touched = m.touched ++ new ∧ ∀ offset ∈ new, offset < screenBytes

/-- The address behind a character, once the screen has been scrolled. -/
def advance (address : Nat) (c : UInt8) : Nat :=
  let next :=
    if c = ascii '\n' then address + (80 - address % 80)
    else if c = ascii '\t' then address + 8
    else address + 1
  if 80 * 25 ≤ next then next - 80 else next

/-- No tab of the message finds the cursor in the last seven columns of the last row. -/
def TabsFit (address : Nat) : List UInt8 → Prop
  | [] => True
  | c :: msg => (c = ascii '\t' → address + 7 < 80 * 25) ∧ TabsFit (advance address c) msg

/-! ## What each operation touches -/

/-- The offsets at which `write_char` writes. -/
def cellOffsets (address : Nat) : List Nat :=
  if address ≤ 80 * 25 then [address * 2, address * 2 + 1] else []

theorem touched_writeChar (m : Machine) (address : Nat) (c foreground background : UInt8) :
    (writeChar m address c foreground background).touched = m.touched ++ cellOffsets address := by
  unfold writeChar cellOffsets
  dsimp only
  split
  · simp [Machine.store]
  · simp

theorem touched_blanks (n : Nat) (m : Machine) (address : Nat) (hle : address + n ≤ uintMax) :
    (blanks n m address).1.touched =
      m.touched ++ (List.range' address n).flatMap cellOffsets ∧
      (blanks n m address).2 = address + n := by
  induction n generalizing m address with
  | zero => simp [blanks]
  | succ n ih =>
    have hincr : incr address = address + 1 :=
      incr_of_lt (m := uintMax) (by omega) (Nat.le_refl _)
    obtain ⟨htouched, haddress⟩ :=
      ih (writeChar m address (ascii ' ') 7 0) (address + 1) (by omega)
    rw [blanks, hincr]
    constructor
    · rw [htouched, touched_writeChar, List.range'_succ, List.flatMap_cons, List.append_assoc]
    · rw [haddress]
      omega

/-- A loop touches what its bodies touch. -/
theorem touched_foldl {f : Machine → Nat → Machine} {g : Nat → List Nat}
    (h : ∀ m i, (f m i).touched = m.touched ++ g i) (l : List Nat) (m : Machine) :
    (l.foldl f m).touched = m.touched ++ l.flatMap g := by
  induction l generalizing m with
  | nil => simp
  | cons i l ih => rw [List.foldl_cons, ih, h, List.flatMap_cons, List.append_assoc]

/-- Scrolling by a row stays on the screen. -/
theorem scroll_row (m : Machine) :
    ∃ new, (blankLastRow (moveRowsUp m)).touched = m.touched ++ new ∧
      ∀ offset ∈ new, offset < screenBytes := by
  have hmove := touched_foldl (f := fun m j => m.copy j (j + 80 * 2))
    (g := fun j => [j + 80 * 2, j]) (fun _ _ => rfl) (List.range (80 * 24 * 2)) m
  have hblank := touched_foldl
    (f := fun m i =>
      (m.store (80 * 24 * 2 + 2 * i) (ascii ' ')).store (80 * 24 * 2 + 2 * i + 1) 0x7)
    (g := fun i => [80 * 24 * 2 + 2 * i, 80 * 24 * 2 + 2 * i + 1])
    (fun m i => by simp [Machine.store]) (List.range 80) (moveRowsUp m)
  rw [show (moveRowsUp m).touched = _ from hmove, List.append_assoc] at hblank
  refine ⟨_, hblank, ?_⟩
  unfold screenBytes
  intro offset hmem
  rcases List.mem_append.mp hmem with hmem | hmem
  · obtain ⟨j, hj, hmem⟩ := List.mem_flatMap.mp hmem
    have hlt := List.mem_range.mp hj
    simp only [List.mem_cons, List.not_mem_nil, or_false] at hmem
    omega
  · obtain ⟨i, hi, hmem⟩ := List.mem_flatMap.mp hmem
    have hlt := List.mem_range.mp hi
    simp only [List.mem_cons, List.not_mem_nil, or_false] at hmem
    omega

/-- Less than a row past the end, the screen is scrolled once. -/
theorem scroll_spec (m : Machine) {address : Nat} (hlt : address < 80 * 25 + 80) :
    ∃ new, (scroll m address).1.touched = m.touched ++ new ∧
      (∀ offset ∈ new, offset < screenBytes) ∧
      (scroll m address).2 = if 80 * 25 ≤ address then address - 80 else address := by
  rw [scroll]
  by_cases hle : 80 * 25 ≤ address
  · obtain ⟨new, htouched, hnew⟩ := scroll_row m
    rw [if_pos hle, if_pos hle, scroll, if_neg (by omega)]
    exact ⟨new, htouched, hnew, rfl⟩
  · rw [if_neg hle, if_neg hle]
    refine ⟨[], (List.append_nil _).symm, ?_, rfl⟩
    rintro offset ⟨⟩

/-- A row of cells is on the screen unless it reaches the address past the last one. -/
theorem cellOffsets_lt_iff {address n : Nat} (hlt : address < 80 * 25) :
    (∀ offset ∈ (List.range' address n).flatMap cellOffsets, offset < screenBytes) ↔
      address + n ≤ 80 * 25 := by
  unfold screenBytes cellOffsets
  constructor
  · intro h
    by_contra hgt
    have hmem : 80 * 25 ∈ List.range' address n := List.mem_range'_1.mpr (by omega)
    exact absurd (h (80 * 25 * 2) (List.mem_flatMap.mpr ⟨80 * 25, hmem, by simp⟩)) (by omega)
  · intro hle offset hmem
    obtain ⟨a, ha, hmem⟩ := List.mem_flatMap.mp hmem
    have hrange := List.mem_range'_1.mp ha
    rw [if_pos (by omega)] at hmem
    simp only [List.mem_cons, List.not_mem_nil, or_false] at hmem
    omega

/-- One character, before the screen is scrolled: it takes up `n` cells. -/
theorem putChar_spec (m : Machine) {address : Nat} (hlt : address < 80 * 25) (c : UInt8) :
    ∃ n, (putChar m address c).1.touched =
        m.touched ++ (List.range' address n).flatMap cellOffsets ∧
      (putChar m address c).2 = address + n ∧
      advance address c = (if 80 * 25 ≤ address + n then address + n - 80 else address + n) ∧
      n ≤ 80 ∧ (address + n ≤ 80 * 25 ↔ (c = ascii '\t' → address + 7 < 80 * 25)) := by
  have hmax : 80 * 25 + 80 ≤ uintMax := by decide
  have hdiffer : ascii '\n' ≠ ascii '\t' := by decide
  unfold putChar advance
  by_cases hnewline : c = ascii '\n'
  · -- to the end of the row, which is on the screen
    obtain ⟨htouched, haddress⟩ := touched_blanks (80 - address % 80) m address (by omega)
    rw [if_pos hnewline, newLine_eq_blanks m address (by omega)]
    refine ⟨80 - address % 80, htouched, haddress, ?_, by omega, ?_⟩
    · rw [if_pos hnewline]
    · rw [hnewline]
      exact ⟨fun _ h => absurd h hdiffer, fun _ => by omega⟩
  · rw [if_neg hnewline, if_neg hnewline]
    by_cases htab : c = ascii '\t'
    · obtain ⟨htouched, haddress⟩ := touched_blanks 8 m address (by omega)
      rw [if_pos htab]
      refine ⟨8, htouched, haddress, ?_, by omega, ?_⟩
      · rw [if_pos htab]
      · exact ⟨fun _ _ => by omega, fun h => by have := h htab; omega⟩
    · rw [if_neg htab]
      refine ⟨1, ?_, ?_, ?_, by omega, ?_⟩
      · simp [touched_writeChar]
      · exact incr_of_lt (m := uintMax) (by omega) (Nat.le_refl _)
      · rw [if_neg htab]
      · exact ⟨fun _ h => absurd h htab, fun _ => hlt⟩

/-- **One character.** What it touches is on the screen if it is no tab too far right,
and then the address is on the screen again. -/
theorem writeStep_spec (m : Machine) {address : Nat} (hlt : address < 80 * 25) (c : UInt8) :
    ∃ m' new, writeStep (m, address) c = (m', advance address c) ∧
      m'.touched = m.touched ++ new ∧ advance address c < 80 * 25 ∧
      ((∀ offset ∈ new, offset < screenBytes) ↔ (c = ascii '\t' → address + 7 < 80 * 25)) := by
  obtain ⟨n, htouched, haddress, hadvance, hn, hiff⟩ := putChar_spec m hlt c
  have hrow : (putChar m address c).2 < 80 * 25 + 80 := by omega
  obtain ⟨new, hscroll, hnew, hnext⟩ := scroll_spec (putChar m address c).1 hrow
  rw [htouched, List.append_assoc] at hscroll
  refine ⟨(writeStep (m, address) c).1, _, Prod.ext rfl ?_, hscroll, ?_, ?_⟩
  · rw [hadvance, ← haddress]
    exact hnext
  · rw [hadvance]
    split <;> omega
  · rw [← hiff, ← cellOffsets_lt_iff hlt]
    constructor
    · intro h offset hmem
      exact h offset (List.mem_append_left _ hmem)
    · intro h offset hmem
      rcases List.mem_append.mp hmem with hmem | hmem
      · exact h offset hmem
      · exact hnew offset hmem

/-- **The loop of `write`.** -/
theorem foldl_writeStep_touched (msg : List UInt8) (m : Machine) {address : Nat}
    (hlt : address < 80 * 25) :
    ∃ new, (msg.foldl writeStep (m, address)).1.touched = m.touched ++ new ∧
      ((∀ offset ∈ new, offset < screenBytes) ↔ TabsFit address msg) := by
  induction msg generalizing m address with
  | nil => exact ⟨[], (List.append_nil _).symm, by simp [TabsFit]⟩
  | cons c msg ih =>
    obtain ⟨m', new, hstep, htouched, hlt', hiff⟩ := writeStep_spec m hlt c
    obtain ⟨new', htouched', hiff'⟩ := ih m' hlt'
    refine ⟨new ++ new', ?_, ?_⟩
    · rw [List.foldl_cons, hstep, htouched', htouched, List.append_assoc]
    · rw [TabsFit, ← hiff, ← hiff', List.forall_mem_append]

/-- **The output stays on the screen** exactly if no tab comes too late in the last
row. -/
theorem staysOnScreen_iff (m : Machine) (hcursor : m.cursorPosition < 80 * 25)
    (msg : List UInt8) : StaysOnScreen m msg ↔ TabsFit m.cursorPosition msg := by
  obtain ⟨new, htouched, hiff⟩ := foldl_writeStep_touched msg m hcursor
  have hwrite : (write m msg).touched = m.touched ++ new := htouched
  rw [← hiff]
  constructor
  · rintro ⟨new', hwrite', hnew⟩
    obtain rfl := List.append_cancel_left (hwrite.symm.trans hwrite')
    exact hnew
  · intro hnew
    exact ⟨new, hwrite, hnew⟩

/-- A line on an empty screen, with a tab in it. -/
theorem staysOnScreen_iff_hello :
    StaysOnScreen (blankMachine 0) ("a\tb\n".toList.map ascii) :=
  (staysOnScreen_iff (blankMachine 0) (by decide) ("a\tb\n".toList.map ascii)).mpr
    ⟨by decide, by decide, by decide, by decide, trivial⟩

/-- A tab in the last column of the last row is written past the end of the screen. -/
theorem not_staysOnScreen_tab :
    (blankMachine 1999).cursorPosition < 80 * 25 ∧
      ¬ StaysOnScreen (blankMachine 1999) [ascii '\t'] := by
  have hcursor : (blankMachine 1999).cursorPosition < 80 * 25 := by decide
  refine ⟨hcursor, ?_⟩
  rintro ⟨new, hwrite, hnew⟩
  obtain ⟨new', htouched, hiff⟩ :=
    foldl_writeStep_touched [ascii '\t'] (blankMachine 1999) hcursor
  obtain rfl := List.append_cancel_left (hwrite.symm.trans htouched)
  exact absurd ((hiff.mp hnew).1 rfl) (by decide)

end Kernel

end Cosc240
