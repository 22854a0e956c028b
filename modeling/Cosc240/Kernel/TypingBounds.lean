import Cosc240.Kernel.Bounds
import Cosc240.Kernel.Keyboard

/-!
# Video memory that typing touches

Starting the kernel stays on the screen. After that the tabulator is the only key that
can leave it, and only by the one cell that `write_char` (tutorial8/kernel.c:180–187) lets through.

- `Touches m m' fits`: between the two states the screen was touched and at most one cell behind it,
  and only the screen exactly if `fits`. It is put together from parts with `Touches.trans`.
- `Moves`: the cursor is on the screen, and this is what it took to get there. It is the invariant
  of the functions that call `write`.
- `cellOffsets_lt`: `write_char` reaches no more than one cell past the screen.

Main results:

- `writeStep_touches` and `foldl_writeStep_touches`: one character, and the loop of `write`.
- `moves_greet`: `clear_screen` and the greeting have newlines but no tab in them, and stay on the
  screen (kernel.c:239–245, 267–290).
- `Moves.keyboardHandlerMain`: one interrupt (kernel.c:248–264).
- `typing_touches`: from any state of the machine, starting the kernel and typing touch the screen
  and at most the one cell behind it. That cell is safe exactly if no tab is typed in the last seven
  columns of the last row.
-/

namespace Cosc240

namespace Kernel

/-- Between the two states the screen was touched and at most one cell behind it, and only
the screen exactly if `fits`. -/
def Touches (m m' : Machine) (fits : Prop) : Prop :=
  ∃ new, m'.touched = m.touched ++ new ∧ (∀ offset ∈ new, offset < screenBytes + 2) ∧
    ((∀ offset ∈ new, offset < screenBytes) ↔ fits)

variable {m m₁ m' : Machine} {p q : Prop}

theorem Touches.rfl : Touches m m True := ⟨[], (List.append_nil _).symm, by simp, by simp⟩

theorem Touches.trans (h : Touches m m₁ p) (h' : Touches m₁ m' q) : Touches m m' (p ∧ q) := by
  obtain ⟨new, htouched, hbound, hiff⟩ := h
  obtain ⟨new', htouched', hbound', hiff'⟩ := h'
  refine ⟨new ++ new', ?_, ?_, ?_⟩
  · rw [htouched', htouched, List.append_assoc]
  · exact List.forall_mem_append.mpr ⟨hbound, hbound'⟩
  · rw [List.forall_mem_append, hiff, hiff']

theorem Touches.congr (h : Touches m m' p) (hpq : p ↔ q) : Touches m m' q := by
  obtain ⟨new, htouched, hbound, hiff⟩ := h
  exact ⟨new, htouched, hbound, hiff.trans hpq⟩

/-! ## Writing -/

/-- The tabs of two messages, one after the other. -/
theorem tabsFit_append (a b : List UInt8) (address : Nat) :
    TabsFit address (a ++ b) ↔ TabsFit address a ∧ TabsFit (a.foldl advance address) b := by
  induction a generalizing address with
  | nil => simp [TabsFit]
  | cons c a ih => rw [List.cons_append, TabsFit, TabsFit, ih, List.foldl_cons, and_assoc]

/-- A message without tabs always fits. -/
theorem tabsFit_of_not_mem {msg : List UInt8} (h : ascii '\t' ∉ msg) (address : Nat) :
    TabsFit address msg := by
  induction msg generalizing address with
  | nil => trivial
  | cons c msg ih =>
    refine ⟨?_, ih (fun hmem => h (List.mem_cons_of_mem _ hmem)) _⟩
    rintro rfl
    exact absurd List.mem_cons_self h

/-- `write_char` reaches one cell past the screen. -/
theorem cellOffsets_lt (address n : Nat) :
    ∀ offset ∈ (List.range' address n).flatMap cellOffsets, offset < screenBytes + 2 := by
  intro offset hmem
  obtain ⟨a, -, hmem⟩ := List.mem_flatMap.mp hmem
  unfold screenBytes
  rw [cellOffsets] at hmem
  by_cases ha : a ≤ 80 * 25
  · rw [if_pos ha] at hmem
    simp only [List.mem_cons, List.not_mem_nil, or_false] at hmem
    omega
  · rw [if_neg ha] at hmem
    cases hmem

/-- **One character.** -/
theorem writeStep_touches (m : Machine) {address : Nat} (hlt : address < 80 * 25) (c : UInt8) :
    ∃ m', writeStep (m, address) c = (m', advance address c) ∧ advance address c < 80 * 25 ∧
      Touches m m' (c = ascii '\t' → address + 7 < 80 * 25) := by
  obtain ⟨m', new, hstep, htouched, hlt', hiff⟩ := writeStep_spec m hlt c
  refine ⟨m', hstep, hlt', new, htouched, ?_, hiff⟩
  -- the same offsets, by what they come from
  obtain ⟨n, hput, haddress, -, hn, -⟩ := putChar_spec m hlt c
  have hrow : (putChar m address c).2 < 80 * 25 + 80 := by omega
  obtain ⟨scrolled, hscroll, hscrolled, -⟩ := scroll_spec (putChar m address c).1 hrow
  have hnew : new = (List.range' address n).flatMap cellOffsets ++ scrolled := by
    have hsame : m'.touched = (scroll (putChar m address c).1 (putChar m address c).2).1.touched :=
      (congrArg (fun s => s.1.touched) hstep).symm
    rw [htouched, hscroll, hput, List.append_assoc] at hsame
    exact List.append_cancel_left hsame
  rw [hnew]
  refine List.forall_mem_append.mpr ⟨cellOffsets_lt address n, fun offset hmem => ?_⟩
  have := hscrolled offset hmem
  omega

/-- **The loop of `write`.** -/
theorem foldl_writeStep_touches (msg : List UInt8) (m : Machine) {address : Nat}
    (hlt : address < 80 * 25) :
    ∃ m', msg.foldl writeStep (m, address) = (m', msg.foldl advance address) ∧
      msg.foldl advance address < 80 * 25 ∧ Touches m m' (TabsFit address msg) := by
  induction msg generalizing m address with
  | nil => exact ⟨m, rfl, hlt, .rfl⟩
  | cons c msg ih =>
    obtain ⟨m₁, hstep, hlt₁, h₁⟩ := writeStep_touches m hlt c
    obtain ⟨m', hfold, hlt', h'⟩ := ih m₁ hlt₁
    refine ⟨m', ?_, hlt', h₁.trans h'⟩
    rw [List.foldl_cons, hstep, hfold]
    rfl

/-- The cursor is on the screen at `address`, and this is what it took to get there. -/
structure Moves (m m' : Machine) (address : Nat) (fits : Prop) : Prop where
  cursor : m'.cursorPosition = address
  onScreen : address < 80 * 25
  touches : Touches m m' fits

/-- `write` moves the cursor behind the message, and stays on the screen if its tabs fit. -/
theorem Moves.write {address : Nat} (h : Moves m m₁ address p) (msg : List UInt8) :
    Moves m (write m₁ msg) (msg.foldl advance address) (p ∧ TabsFit address msg) := by
  obtain ⟨m', hfold, hlt, h'⟩ := foldl_writeStep_touches msg m₁ h.onScreen
  have hwrite : Kernel.write m₁ msg = setCursor m' (msg.foldl advance address) := by
    rw [Kernel.write, h.cursor, hfold]
  rw [hwrite]
  constructor
  · rfl
  · exact hlt
  · exact h.touches.trans h'

/-- The cursor is put somewhere else. -/
theorem Moves.setCursor {address address' : Nat} (h : Moves m m₁ address p)
    (hlt : address' < 80 * 25) : Moves m (setCursor m₁ address') address' p := by
  constructor
  · rfl
  · exact hlt
  · exact h.touches

theorem Moves.congr {address : Nat} (h : Moves m m' address p) (hpq : p ↔ q) :
    Moves m m' address q :=
  ⟨h.cursor, h.onScreen, h.touches.congr hpq⟩

/-! ## The start, and typing -/

/-- Newlines stay on the screen, whatever row they are in. -/
theorem Moves.newlines {address : Nat} (h : Moves m m₁ address True) (n : Nat) :
    ∃ address', Moves m
      ((List.range n).foldl (fun m _ => writeString m [ascii '\n', 0]) m₁) address' True := by
  induction n with
  | zero => exact ⟨address, h⟩
  | succ n ih =>
    obtain ⟨address', h'⟩ := ih
    rw [List.range_succ, List.foldl_append]
    have hfits : TabsFit address' [ascii '\n'] := tabsFit_of_not_mem (by decide) _
    exact ⟨_, (h'.write [ascii '\n']).congr ⟨fun _ => trivial, fun _ => ⟨trivial, hfits⟩⟩⟩

/-- The greeting has no tab in it. -/
theorem moves_greet (m : Machine) : Moves m (greet m) (80 * 12 + 45) True := by
  have hstart : Moves m (setCursor m 0) 0 True := ⟨rfl, by decide, .rfl⟩
  obtain ⟨address, hloop⟩ := hstart.newlines 25
  have hclear : Moves m (clearScreen m) 0 True := hloop.setCursor (by decide)
  have hcursor : Moves m (setCursor (clearScreen m) (80 * 12 + 33)) (80 * 12 + 33) True :=
    hclear.setCursor (by decide)
  have hstring : greeting.takeWhile (· ≠ 0) = greeting.dropLast := by decide
  have hfits : TabsFit (80 * 12 + 33) greeting.dropLast := tabsFit_of_not_mem (by decide) _
  have hadvance : greeting.dropLast.foldl advance (80 * 12 + 33) = 80 * 12 + 45 := by decide
  rw [greet, writeString, hstring, ← hadvance]
  exact (hcursor.write greeting.dropLast).congr ⟨fun _ => trivial, fun _ => ⟨trivial, hfits⟩⟩

/-- An interrupt writes the character it types, or nothing. -/
theorem Moves.keyboardHandlerMain {address : Nat} (h : Moves m m₁ address p) (i : Interrupt) :
    ∃ m', keyboardHandlerMain m₁ i = some m' ∧
      Moves m m' (i.typed.foldl advance address) (p ∧ TabsFit address i.typed) := by
  have hout : Moves m (outPort m₁ 0x20 0x20) address p := ⟨h.cursor, h.onScreen, h.touches⟩
  rcases handleKeyboard_cases Kernel.write m₁ i with ⟨htyped, hrun⟩ | ⟨c, htyped, hrun⟩
  · rw [htyped]
    exact ⟨_, hrun, hout.congr ⟨fun hp => ⟨hp, trivial⟩, And.left⟩⟩
  · rw [htyped]
    exact ⟨_, hrun, hout.write [c]⟩

/-- Any number of interrupts. -/
theorem Moves.typing {address : Nat} (h : Moves m m₁ address p) (is : List Interrupt) :
    ∃ m', typing m₁ is = some m' ∧
      Moves m m' ((is.flatMap Interrupt.typed).foldl advance address)
        (p ∧ TabsFit address (is.flatMap Interrupt.typed)) := by
  induction is generalizing m₁ address p with
  | nil => exact ⟨m₁, rfl, h.congr ⟨fun hp => ⟨hp, trivial⟩, And.left⟩⟩
  | cons i is ih =>
    obtain ⟨m₂, hrun, h₂⟩ := h.keyboardHandlerMain i
    obtain ⟨m', hrun', h'⟩ := ih h₂
    refine ⟨m', ?_, ?_⟩
    · rw [Kernel.typing, List.foldlM_cons, hrun]
      exact hrun'
    · rw [List.flatMap_cons, List.foldl_append]
      refine h'.congr ?_
      rw [tabsFit_append, and_assoc]

/-- **What typing can overwrite.** From any state of the machine, starting the kernel and
typing touch the screen and at most the one cell behind it. The cell behind it is safe
exactly if no tab is typed in the last seven columns of the last row. -/
theorem typing_touches (m : Machine) (is : List Interrupt) :
    ∃ m', typing (greet m) is = some m' ∧
      Touches m m' (TabsFit (80 * 12 + 45) (is.flatMap Interrupt.typed)) := by
  obtain ⟨m', hrun, h⟩ := (moves_greet m).typing is
  exact ⟨m', hrun, h.touches.congr ⟨And.right, fun hfits => ⟨trivial, hfits⟩⟩⟩

end Kernel

end Cosc240
