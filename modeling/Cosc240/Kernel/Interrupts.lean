import Cosc240.Kernel.Descriptors
import Cosc240.Kernel.TypingBounds
import Cosc240.Lib.InterruptController

/-!
# Interrupts while the kernel starts

`kmain` (tutorial8/kernel.c:267–290) fills the descriptor tables, sets up the interrupt controllers
and turns interrupts on, and from then on one can come between any two of its steps. Here the steps
are those that the processor and the controllers see: entries of the tables, their registers, ports,
and the interrupt flag.

- `Layout`: where the linker has put the tables and the handler (link.ld), above video memory.
- `loadGdt`, `loadKeyboard`, `idtInit`, `enableKeyboard`, `draw`, `kmain` (kernel.c:87–166): the
  steps of `kmain`, up to the call of the module.
- `Board`: the tables in memory, the registers that lead to them, the interrupt flag and the two
  controllers, with what one step does (`Board.run`) and where the processor goes on when it takes
  an interrupt (`Board.enter`).
- `Reachable`: any number of steps with any number of interrupts between them.
- `Wired`: the tables lead to the handler, and only the lines that are not masked are passed on.
  `Stage` says how far `kmain` is, and what holds then.

Main results:

- `drawing_not_inTable`: neither the greeting nor the keys are drawn over the tables.
- `gdt_set_readBack`: what `gdt_set` changes, as the processor reads the tables.
- `wired_sti`: `sti` comes when everything is in place.
- `keyboardHandlerMain_ports`: the handler sends the end of the interrupt, and then only to the
  display.
- `Reachable.stage`: every step and every interrupt keeps the stages in order.
- `interrupts_enter_handler`: an interrupt that the processor takes is the keyboard's and leads to
  `keyboard_handler`; when `kmain` has done everything, the next key press is passed on.
-/

namespace Cosc240

open Lib SegmentTables

namespace Kernel

/-! ## What the functions do -/

/-- Where the linker has put the tables and the handler. link.ld puts everything from one
megabyte on, above video memory, so that nothing `kmain` or the handler draws is in a table. -/
structure Layout where
  gdt : Nat
  idt : Nat
  keyboardHandler : Nat
  gdt_above : 0x100000 ≤ gdt
  idt_above : 0x100000 ≤ idt
  gdt_fits : gdt + 8 * 5 ≤ 2 ^ 32
  idt_fits : idt + 8 * 256 ≤ 2 ^ 32
  apart : gdt + 8 * 5 ≤ idt ∨ idt + 8 * 256 ≤ gdt
  keyboardHandler_lt : keyboardHandler < 2 ^ 32

/-- The address is in one of the tables. -/
def Layout.InTable (L : Layout) (a : Nat) : Prop :=
  (L.gdt ≤ a ∧ a < L.gdt + 8 * 5) ∨ (L.idt ≤ a ∧ a < L.idt + 8 * 256)

/-- One step of the kernel. -/
inductive Action where
  | gdtSet (num : Fin 5) (base limit : Nat) (access gran : UInt8)
  | idtStore (num : Fin 256) (store : IdtEntry → IdtEntry)
  | lgdt (operand : List UInt8)
  | lidt (operand : List UInt8)
  | outPort (port : Nat) (value : UInt8)
  | sti

/-- `load_gdt`. -/
def loadGdt (L : Layout) : List Action :=
  [.gdtSet 0 0 0 0 0,
    .gdtSet 1 0 0xFFFFFFFF 0x9A 0xCF,
    .gdtSet 2 0 0xFFFFFFFF 0x92 0xCF,
    .gdtSet 3 0 0xFFFFFFFF 0xFA 0xCF,
    .gdtSet 4 0 0xFFFFFFFF 0xF2 0xCF,
    .lgdt (gp L.gdt)]

/-- `load_keyboard`. -/
def loadKeyboard (L : Layout) : List Action :=
  let keyboardAddress := L.keyboardHandler
  [.idtStore 0x21 fun e => { e with offsetLowerbits := UInt16.ofNat (keyboardAddress &&& 0xffff) },
    .idtStore 0x21 fun e => { e with selector := 0x08 },
    .idtStore 0x21 fun e => { e with zero := 0 },
    .idtStore 0x21 fun e => { e with typeAttr := 0x8e },
    .idtStore 0x21 fun e =>
      { e with offsetHigherbits := UInt16.ofNat ((keyboardAddress &&& 0xffff0000) >>> 16) }]

/-- `idt_init`, up to the call of `load_idt`. -/
def initialiseControllers : List Action :=
  [.outPort 0x20 0x11, .outPort 0xA0 0x11,
    .outPort 0x21 0x20, .outPort 0xA1 0x28,
    .outPort 0x21 0x00, .outPort 0xA1 0x00,
    .outPort 0x21 0x01, .outPort 0xA1 0x01,
    .outPort 0x21 0xFF, .outPort 0xA1 0xFF]

/-- `load_idt`. -/
def loadIdt (operand : List UInt8) : List Action := [.lidt operand, .sti]

/-- `idt_init`. -/
def idtInit (L : Layout) : List Action := initialiseControllers ++ loadIdt (idtPtr L.idt)

/-- `enable_keyboard`. -/
def enableKeyboard : List Action := [.outPort 0x21 0xFD]

/-- What `greet` sends to the display controller. -/
def draw (m : Machine) : List Action :=
  ((greet m).ports.drop m.ports.length).map fun write => .outPort write.1 write.2

/-- `kmain`, up to the call of the module. -/
def kmain (L : Layout) (m : Machine) : List Action :=
  loadGdt L ++ loadKeyboard L ++ idtInit L ++ enableKeyboard ++ draw m

/-! ## What the processor and the controllers do -/

/-- The tables in memory, the registers that lead to them, the flag, and the two controllers. -/
structure Board where
  gdt : Fin 5 → GdtEntry
  idt : Fin 256 → IdtEntry
  gdtr : TablePointer
  idtr : TablePointer
  interruptFlag : Bool
  master : InterruptController
  slave : InterruptController

namespace Board

/-- The memory, as far as the tables are in it. -/
def memory (L : Layout) (b : Board) (a : Nat) : UInt8 :=
  if h : L.gdt ≤ a ∧ a < L.gdt + 8 * 5 then
    (b.gdt ⟨(a - L.gdt) / 8, by omega⟩).bytes.getD ((a - L.gdt) % 8) 0
  else if h : L.idt ≤ a ∧ a < L.idt + 8 * 256 then
    (b.idt ⟨(a - L.idt) / 8, by omega⟩).bytes.getD ((a - L.idt) % 8) 0
  else 0

/-- A byte for a port. -/
def outPort (b : Board) (port : Nat) (value : UInt8) : Board :=
  if port = 0x20 then { b with master := b.master.command value }
  else if port = 0x21 then { b with master := b.master.data value }
  else if port = 0xA0 then { b with slave := b.slave.command value }
  else if port = 0xA1 then { b with slave := b.slave.data value }
  else b

/-- One step of the kernel. -/
def run (b : Board) : Action → Board
  | .gdtSet num base limit access gran =>
    { b with gdt := Function.update b.gdt num (gdtSet base limit access gran) }
  | .idtStore num store => { b with idt := Function.update b.idt num (store (b.idt num)) }
  | .lgdt operand => { b with gdtr := tablePointer operand }
  | .lidt operand => { b with idtr := tablePointer operand }
  | .outPort port value => b.outPort port value
  | .sti => { b with interruptFlag := true }

/-- A line of the first controller, or a line of the second one behind a line of the first. -/
inductive Request where
  | master (line : Nat)
  | slave (up line : Nat)

/-- The processor is asked to take the request. -/
def Passes (b : Board) : Request → Prop
  | .master line => b.master.Passes line ∧ ¬ b.master.cascade.toNat.testBit line
  | .slave up line => b.master.Passes up ∧ b.master.cascade.toNat.testBit up ∧ b.slave.Passes line

/-- The vector of a request. -/
def vector (b : Board) : Request → Nat
  | .master line => b.master.base + line
  | .slave _ line => b.slave.base + line

/-- Where the processor goes on when it takes the request. -/
def enter (L : Layout) (b : Board) (request : Request) : Option Nat :=
  SegmentTables.enter (b.memory L) b.gdtr b.idtr (b.vector request)

/-- The processor takes the request. -/
def acknowledge (b : Board) : Request → Board
  | .master line => { b with master := b.master.acknowledge line, interruptFlag := false }
  | .slave up line =>
    { b with
      master := b.master.acknowledge up
      slave := b.slave.acknowledge line
      interruptFlag := false }

/-- The handler has sent this to the ports, and has returned. -/
def handled (b : Board) (outs : List (Nat × UInt8)) : Board :=
  { outs.foldl (fun b write => b.outPort write.1 write.2) b with interruptFlag := true }

end Board

/-- What is left to do for `kmain` and the state of the board, after any number of steps and
of interrupts between them. `start` has turned interrupts off before. What the handler finds
on the screen and in its ports is left open. An interrupt is taken to leave the registers of
`kmain` alone: `keyboard_handler` (kernel.asm:53–55) does not see to that, as it saves none of
them. The spurious requests of a controller, on its line 7, are left out. -/
inductive Reachable (L : Layout) (m : Machine) (b₀ : Board) : List Action → Board → Prop
  | start : Reachable L m b₀ (kmain L m) { b₀ with interruptFlag := false }
  | run {action : Action} {todo : List Action} {b : Board}
      (h : Reachable L m b₀ (action :: todo) b) : Reachable L m b₀ todo (b.run action)
  | interrupt {todo : List Action} {b : Board} {request : Board.Request} {screen screen' : Machine}
      {i : Interrupt} {outs : List (Nat × UInt8)} (h : Reachable L m b₀ todo b)
      (hflag : b.interruptFlag = true) (hpasses : b.Passes request)
      (henter : b.enter L request = some L.keyboardHandler)
      (hhandler : keyboardHandlerMain screen i = some screen')
      (houts : screen'.ports = screen.ports ++ outs) :
      Reachable L m b₀ todo ((b.acknowledge request).handled outs)

/-! ## The tables as the processor reads them -/

/-- What the kernel draws, from `greet` on, is in neither of the tables: it is on the screen
or in the cell behind it. -/
theorem drawing_not_inTable (L : Layout) (m : Machine) (is : List Interrupt) :
    ∃ m' new, typing (greet m) is = some m' ∧ m'.touched = m.touched ++ new ∧
      ∀ offset ∈ new, ¬ L.InTable (0xb8000 + offset) := by
  obtain ⟨m', hrun, h⟩ := (moves_greet m).typing is
  obtain ⟨new, htouched, hbound, -⟩ := h.touches
  refine ⟨m', new, hrun, htouched, fun offset hmem => ?_⟩
  have hoffset := hbound offset hmem
  have hgdt := L.gdt_above
  have hidt := L.idt_above
  unfold screenBytes at hoffset
  unfold Layout.InTable
  omega

/-- A linker script that puts everything at one megabyte, as the multiboot loader does. -/
def oneMegabyte : Layout where
  gdt := 0x100000
  idt := 0x100100
  keyboardHandler := 0x101000
  gdt_above := by decide
  idt_above := by decide
  gdt_fits := by decide
  idt_fits := by decide
  apart := by decide
  keyboardHandler_lt := by decide

/-- A board that has not been set up at all. -/
def blankBoard : Board where
  gdt _ := ⟨0, 0, 0, 0, 0, 0⟩
  idt _ := ⟨0, 0, 0, 0, 0⟩
  gdtr := ⟨0, 0⟩
  idtr := ⟨0, 0⟩
  interruptFlag := false
  master := ⟨.vectors, false, false, 0, 0, 0, []⟩
  slave := ⟨.vectors, false, false, 0, 0, 0, []⟩

variable {L : Layout} {b : Board}

open LittleEndian

theorem length_gdtBytes (e : GdtEntry) : e.bytes.length = 8 := rfl

theorem length_idtBytes (e : IdtEntry) : e.bytes.length = 8 := rfl

/-- The bytes of an entry of the GDT are where the processor looks for it. -/
theorem stored_gdt (L : Layout) (b : Board) (num : Fin 5) :
    Stored (b.memory L) (L.gdt + 8 * num) (b.gdt num).bytes := by
  refine stored_of_forall fun i hi => ?_
  rw [length_gdtBytes] at hi
  have hnum := num.isLt
  rw [Board.memory, dif_pos (by omega)]
  congr 2
  · congr 1
    apply Fin.ext
    show (L.gdt + 8 * num + i - L.gdt) / 8 = num
    omega
  · omega

/-- The bytes of a gate are where the processor looks for it. -/
theorem stored_idt (L : Layout) (b : Board) (num : Fin 256) :
    Stored (b.memory L) (L.idt + 8 * num) (b.idt num).bytes := by
  refine stored_of_forall fun i hi => ?_
  rw [length_idtBytes] at hi
  have hnum := num.isLt
  have hapart := L.apart
  rw [Board.memory, dif_neg (by omega), dif_pos (by omega)]
  congr 2
  · congr 1
    apply Fin.ext
    show (L.idt + 8 * num + i - L.idt) / 8 = num
    omega
  · omega

/-- **What `gdt_set` changes.** Whatever it is given, the processor reads the entry back as the
base, the lowest 20 bits of the limit, the access byte and the upper half of the granularity, and
every other entry of both tables as before. -/
theorem gdt_set_readBack (L : Layout) (b : Board) (num : Fin 5) {base : Nat}
    (hbase : base < 2 ^ 32) (limit : Nat) (access gran : UInt8) :
    let after := (b.run (.gdtSet num base limit access gran)).memory L
    segmentAt after (L.gdt + 8 * num) = ⟨base, limit % 2 ^ 20, access, gran.toNat / 16⟩ ∧
      (∀ other : Fin 5, other ≠ num →
        segmentAt after (L.gdt + 8 * other) = segmentAt (b.memory L) (L.gdt + 8 * other)) ∧
      ∀ vector : Fin 256,
        gateAt after (L.idt + 8 * vector) = gateAt (b.memory L) (L.idt + 8 * vector) := by
  intro after
  have hafter := stored_gdt L (b.run (.gdtSet num base limit access gran))
  simp only [Board.run] at hafter
  refine ⟨?_, fun other hother => ?_, fun vector => ?_⟩
  · have hnum := hafter num
    rw [Function.update_self] at hnum
    exact (segmentAt_of_stored hnum).trans (segment_gdtSet hbase limit access gran)
  · have hkept := hafter other
    rw [Function.update_of_ne hother] at hkept
    exact (segmentAt_of_stored hkept).trans (segmentAt_of_stored (stored_gdt L b other)).symm
  · exact (gateAt_of_stored (stored_idt L _ vector)).trans
      (gateAt_of_stored (stored_idt L b vector)).symm

/-- The data segment of `load_gdt`. -/
theorem gdt_set_readBack_data :
    segmentAt ((blankBoard.run (.gdtSet 2 0 0xFFFFFFFF 0x92 0xCF)).memory oneMegabyte)
      (0x100000 + 8 * 2) = ⟨0, 0xFFFFF, 0x92, 12⟩ :=
  (gdt_set_readBack oneMegabyte blankBoard 2 (Nat.two_pow_pos 32) 0xFFFFFFFF 0x92 0xCF).1

/-- From `sti` on: the tables lead to the handler, and only the lines that are not in `mask`
are passed on. -/
structure Wired (L : Layout) (mask : UInt8) (b : Board) : Prop where
  segment : b.gdt 1 = gdtSet 0 0xFFFFFFFF 0x9A 0xCF
  gate : b.idt 0x21 = keyboardGate L.keyboardHandler
  gdtr : b.gdtr = ⟨39, L.gdt⟩
  idtr : b.idtr = ⟨2048, L.idt⟩
  flag : b.interruptFlag = true
  master : b.master = ⟨.mask, false, true, 0x20, 0, mask, []⟩

/-- The handler is found. -/
theorem Wired.enter {mask : UInt8} (h : Wired L mask b) :
    b.enter L (.master 1) = some L.keyboardHandler := by
  have hhandler := L.keyboardHandler_lt
  have hgate := stored_idt L b 0x21
  rw [h.gate] at hgate
  have hsegment : Stored (b.memory L) (L.gdt + 8 * (0x08 / 8)) (b.gdt 1).bytes := stored_gdt L b 1
  rw [h.segment] at hsegment
  have hvector : b.vector (.master 1) = 0x21 := by
    rw [Board.vector, h.master]
  rw [Board.enter, hvector, h.gdtr, h.idtr]
  have hgate' := (gateAt_of_stored hgate).trans (gate_keyboardGate hhandler)
  have hsegment' := (segmentAt_of_stored hsegment).trans
    (segment_gdtSet (Nat.two_pow_pos 32) 0xFFFFFFFF 0x9A 0xCF)
  refine (SegmentTables.enter_eq hgate' hsegment' ?_ ?_ ?_ ?_ ?_).trans ?_
  · show 8 * 33 + 7 ≤ 2048
    decide
  · show (0x8e : UInt8) &&& 0x9F = 0x8E
    rfl
  · show 8 ≤ 8 ∧ 8 % 8 < 4 ∧ 8 * (8 / 8) + 7 ≤ 39
    decide
  · show (0x9A : UInt8) &&& 0x98 = 0x98
    rfl
  · -- four gigabytes
    show L.keyboardHandler ≤ 4294967295
    omega
  · rw [Nat.zero_add, Nat.mod_eq_of_lt hhandler]

/-- Nothing but the keyboard is passed on. -/
theorem Wired.eq_of_passes {mask : UInt8} (h : Wired L mask b) (hmask : mask = 0xFF ∨ mask = 0xFD)
    {request : Board.Request} (hpasses : b.Passes request) :
    request = .master 1 ∧ mask = 0xFD := by
  cases request with
  | slave up line =>
    -- the initialization leaves out that there is a second controller
    obtain ⟨-, hcascade, -⟩ := hpasses
    rw [h.master] at hcascade
    simp at hcascade
  | master line =>
    obtain ⟨⟨hline, -, hopen, -⟩, -⟩ := hpasses
    rw [h.master] at hopen
    have hall : ∀ line < 8, (0xFF : UInt8).toNat.testBit line = true := by decide
    have hkeyboard : ∀ line < 8, ¬ (0xFD : UInt8).toNat.testBit line → line = 1 := by decide
    rcases hmask with rfl | rfl
    · exact absurd (hall line hline) hopen
    · rw [hkeyboard line hline hopen]
      exact ⟨rfl, rfl⟩

/-- The keyboard, on line 1, is passed on once its bit in the mask is clear. -/
theorem Wired.passes (h : Wired L 0xFD b) : b.Passes (.master 1) := by
  unfold Board.Passes InterruptController.Passes
  rw [h.master]
  refine ⟨⟨by decide, rfl, by decide, ?_⟩, by decide⟩
  rintro l ⟨⟩

/-! ## The steps keep the tables and the controllers -/

/-- The ports of the display controller. -/
def IsCursorPort (write : Nat × UInt8) : Prop := write.1 = 0x3D4 ∨ write.1 = 0x3D5

theorem outPort_of_isCursorPort {write : Nat × UInt8} (h : IsCursorPort write) (b : Board) :
    b.outPort write.1 write.2 = b := by
  unfold Board.outPort
  rcases h with h | h
  · rw [h]
    rfl
  · rw [h]
    rfl

/-- What goes to the display leaves the board alone. -/
theorem foldl_outPort {outs : List (Nat × UInt8)} (h : ∀ write ∈ outs, IsCursorPort write)
    (b : Board) : outs.foldl (fun b write => b.outPort write.1 write.2) b = b := by
  induction outs with
  | nil => rfl
  | cons write outs ih =>
    rw [List.foldl_cons, outPort_of_isCursorPort (h write List.mem_cons_self)]
    exact ih fun w hw => h w (List.mem_cons_of_mem _ hw)

/-- `enable_keyboard` changes the mask, and nothing else. -/
theorem Wired.enableKeyboard {mask : UInt8} (h : Wired L mask b) :
    Wired L 0xFD (b.outPort 0x21 0xFD) := by
  constructor
  · exact h.segment
  · exact h.gate
  · exact h.gdtr
  · exact h.idtr
  · exact h.flag
  · show b.master.data 0xFD = _
    rw [h.master]
    rfl

/-- **An interrupt** leaves everything as it was: the line is out of service again. -/
theorem Wired.handled {mask : UInt8} {outs : List (Nat × UInt8)} (h : Wired L mask b)
    (houts : ∀ write ∈ outs, IsCursorPort write) :
    Wired L mask ((b.acknowledge (.master 1)).handled ((0x20, 0x20) :: outs)) := by
  have hboard : (b.acknowledge (.master 1)).handled ((0x20, 0x20) :: outs) =
      { b with interruptFlag := true } := by
    rw [Board.handled, List.foldl_cons, foldl_outPort houts]
    show ({ b with
      master := (b.master.acknowledge 1).command 0x20
      interruptFlag := true } : Board) = _
    rw [InterruptController.command_acknowledge]
  rw [hboard]
  exact ⟨h.segment, h.gate, h.gdtr, h.idtr, rfl, h.master⟩

/-! ## The ports that the screen functions use -/

/-- Between the two states only the display controller was told something. -/
def Draws (m m' : Machine) : Prop :=
  ∃ outs, m'.ports = m.ports ++ outs ∧ ∀ write ∈ outs, IsCursorPort write

theorem Draws.rfl {m : Machine} : Draws m m := ⟨[], (List.append_nil _).symm, by simp⟩

theorem Draws.trans {m m₁ m' : Machine} (h : Draws m m₁) (h' : Draws m₁ m') : Draws m m' := by
  obtain ⟨outs, hports, houts⟩ := h
  obtain ⟨outs', hports', houts'⟩ := h'
  refine ⟨outs ++ outs', ?_, List.forall_mem_append.mpr ⟨houts, houts'⟩⟩
  rw [hports', hports, List.append_assoc]

theorem ports_writeChar (m : Machine) (address : Nat) (c foreground background : UInt8) :
    (writeChar m address c foreground background).ports = m.ports := by
  unfold writeChar
  dsimp only
  split <;> rfl

theorem ports_newLine (m : Machine) (address : Nat) : (newLine m address).1.ports = m.ports := by
  induction m, address using newLine.induct with
  | case1 m address m' hne ih => rw [newLine, if_pos hne, ih, ports_writeChar]
  | case2 m address heq => rw [newLine, if_neg heq, ports_writeChar]

theorem ports_blanks (n : Nat) (m : Machine) (address : Nat) :
    (blanks n m address).1.ports = m.ports := by
  induction n generalizing m address with
  | zero => rfl
  | succ n ih => rw [blanks, ih, ports_writeChar]

theorem ports_putChar (m : Machine) (address : Nat) (c : UInt8) :
    (putChar m address c).1.ports = m.ports := by
  unfold putChar
  split
  · exact ports_newLine m address
  · split
    · exact ports_blanks 8 m address
    · exact ports_writeChar ..

/-- A loop over memory. -/
theorem ports_foldl {f : Machine → Nat → Machine} (h : ∀ m i, (f m i).ports = m.ports)
    (l : List Nat) (m : Machine) : (l.foldl f m).ports = m.ports := by
  induction l generalizing m with
  | nil => rfl
  | cons i l ih => rw [List.foldl_cons, ih, h]

theorem ports_scrollRow (m : Machine) : (blankLastRow (moveRowsUp m)).ports = m.ports := by
  have hmove : (moveRowsUp m).ports = m.ports :=
    ports_foldl (f := fun m j => m.copy j (j + 80 * 2)) (fun _ _ => rfl)
      (List.range (80 * 24 * 2)) m
  rw [← hmove]
  exact ports_foldl
    (f := fun m i =>
      (m.store (80 * 24 * 2 + 2 * i) (ascii ' ')).store (80 * 24 * 2 + 2 * i + 1) 0x7)
    (fun _ _ => rfl) (List.range 80) (moveRowsUp m)

theorem ports_scroll (m : Machine) (address : Nat) : (scroll m address).1.ports = m.ports := by
  induction m, address using scroll.induct with
  | case1 m address hle ih =>
    rw [scroll, if_pos hle, ih, ports_scrollRow]
  | case2 m address hlt => rw [scroll, if_neg hlt]

theorem ports_foldl_writeStep (msg : List UInt8) (state : Machine × Nat) :
    (msg.foldl writeStep state).1.ports = state.1.ports := by
  induction msg generalizing state with
  | nil => rfl
  | cons c msg ih =>
    rw [List.foldl_cons, ih]
    exact (ports_scroll _ _).trans (ports_putChar _ _ _)

theorem draws_setCursor (m : Machine) (address : Nat) : Draws m (setCursor m address) := by
  refine ⟨[(0x3D4, 14), (0x3D5, UInt8.ofNat ((address >>> 8) &&& 0xFF)),
    (0x3D4, 15), (0x3D5, UInt8.ofNat (address &&& 0xFF))], ?_, ?_⟩
  · simp [setCursor, outPort]
  · simp [IsCursorPort]

/-- `write` sends nothing but the cursor. -/
theorem draws_write (m : Machine) (msg : List UInt8) : Draws m (write m msg) := by
  obtain ⟨outs, hports, houts⟩ :=
    draws_setCursor (msg.foldl writeStep (m, m.cursorPosition)).1
      (msg.foldl writeStep (m, m.cursorPosition)).2
  rw [ports_foldl_writeStep] at hports
  exact ⟨outs, hports, houts⟩

/-- So does the greeting. -/
theorem draws_greet (m : Machine) : Draws m (greet m) := by
  have hloop : ∀ (n : Nat) (m : Machine),
      Draws m ((List.range n).foldl (fun m _ => writeString m [ascii '\n', 0]) m) := by
    intro n m
    induction n with
    | zero => exact .rfl
    | succ n ih =>
      rw [List.range_succ, List.foldl_append]
      exact ih.trans (draws_write _ _)
  have hclear : Draws m (clearScreen m) :=
    ((draws_setCursor m 0).trans (hloop 25 _)).trans (draws_setCursor _ 0)
  exact (hclear.trans (draws_setCursor _ _)).trans (draws_write _ _)

/-- **What the handler sends**: the end of the interrupt, and then only to the display. -/
theorem keyboardHandlerMain_ports {m m' : Machine} {i : Interrupt}
    (hrun : keyboardHandlerMain m i = some m') :
    ∃ outs, m'.ports = m.ports ++ (0x20, 0x20) :: outs ∧ ∀ write ∈ outs, IsCursorPort write := by
  rcases handleKeyboard_cases write m i with ⟨-, hrun'⟩ | ⟨c, -, hrun'⟩
  · obtain rfl := Option.some.inj (hrun.symm.trans hrun')
    exact ⟨[], rfl, by simp⟩
  · obtain rfl := Option.some.inj (hrun.symm.trans hrun')
    obtain ⟨outs, hports, houts⟩ := draws_write (outPort m 0x20 0x20) [c]
    refine ⟨outs, ?_, houts⟩
    rw [hports, outPort, List.append_assoc]
    rfl

/-! ## The run of `kmain` -/

/-- The steps before interrupts are turned on. -/
def early (L : Layout) : List Action :=
  loadGdt L ++ loadKeyboard L ++ initialiseControllers ++ [.lidt (idtPtr L.idt)]

/-- `sti` is the one step that turns interrupts on; everything before it is `early`. -/
theorem kmain_eq (L : Layout) (m : Machine) :
    kmain L m = early L ++ .sti :: (enableKeyboard ++ draw m) := by
  simp [kmain, early, idtInit, loadIdt, List.append_assoc]

/-- Whether the step leaves interrupts as they are. -/
def Action.KeepsFlag : Action → Prop
  | .sti => False
  | _ => True

theorem keepsFlag_of_mem_early {action : Action} (h : action ∈ early L) : action.KeepsFlag := by
  simp only [early, loadGdt, loadKeyboard, initialiseControllers, List.cons_append,
    List.nil_append, List.mem_cons, List.not_mem_nil, or_false] at h
  rcases h with rfl | rfl | rfl | rfl | rfl | rfl | rfl | rfl | rfl | rfl | rfl | rfl | rfl |
    rfl | rfl | rfl | rfl | rfl | rfl | rfl | rfl | rfl <;> trivial

/-- No other step changes the flag. -/
theorem run_interruptFlag {action : Action} (h : action.KeepsFlag) (b : Board) :
    (b.run action).interruptFlag = b.interruptFlag := by
  cases action with
  | sti => exact h.elim
  | outPort port value =>
    show (b.outPort port value).interruptFlag = _
    unfold Board.outPort
    split
    · rfl
    · split
      · rfl
      · split
        · rfl
        · split <;> rfl
  | _ => rfl

/-- **`sti` comes when everything is in place**, whatever the state of the board was. -/
theorem wired_sti (L : Layout) (b : Board) :
    Wired L 0xFF (((early L).foldl Board.run b).run .sti) := by
  have hgdt := L.gdt_fits
  have hidt := L.idt_fits
  constructor
  · rfl
  · rfl
  · exact tablePointer_gp (by omega)
  · exact tablePointer_idtPtr (by omega)
  · rfl
  · rfl

theorem isCursorPort_of_mem_draw {m : Machine} {action : Action} (h : action ∈ draw m) :
    ∃ write, IsCursorPort write ∧ action = .outPort write.1 write.2 := by
  obtain ⟨outs, hports, houts⟩ := draws_greet m
  rw [draw, hports, List.drop_left] at h
  obtain ⟨write, hmem, rfl⟩ := List.mem_map.mp h
  exact ⟨write, houts write hmem, rfl⟩

/-- How far `kmain` is. -/
inductive Stage (L : Layout) (m : Machine) : List Action → Board → Prop
  /-- Interrupts are off. -/
  | off {todo : List Action} {b : Board} (done : List Action) (hdone : done ++ todo = early L)
      (hboard : ∃ b₀ : Board, b₀.interruptFlag = false ∧ b = done.foldl Board.run b₀) :
      Stage L m (todo ++ .sti :: (enableKeyboard ++ draw m)) b
  /-- Interrupts are on, but no line is passed on. -/
  | masked {b : Board} (h : Wired L 0xFF b) : Stage L m (enableKeyboard ++ draw m) b
  /-- The keyboard is passed on. -/
  | enabled {todo : List Action} {b : Board} (hdraw : todo ⊆ draw m) (h : Wired L 0xFD b) :
      Stage L m todo b

theorem Stage.flag_off {done todo : List Action} (hdone : done ++ todo = early L) {b₀ : Board}
    (hflag : b₀.interruptFlag = false) : (done.foldl Board.run b₀).interruptFlag = false := by
  have hkeeps : ∀ action ∈ done, action.KeepsFlag := fun action hmem =>
    keepsFlag_of_mem_early (hdone ▸ List.mem_append_left _ hmem)
  clear hdone
  induction done generalizing b₀ with
  | nil => exact hflag
  | cons action done ih =>
    refine ih ?_ fun a ha => hkeeps a (List.mem_cons_of_mem _ ha)
    rw [run_interruptFlag (hkeeps action List.mem_cons_self), hflag]

/-- **One step of `kmain`.** -/
theorem Stage.run {m : Machine} {action : Action} {todo : List Action}
    (h : Stage L m (action :: todo) b) : Stage L m todo (b.run action) := by
  generalize htodo : action :: todo = all at h
  cases h with
  | @off rest b done hdone hboard =>
    obtain ⟨b₀, hflag, rfl⟩ := hboard
    cases rest with
    | nil =>
      obtain ⟨rfl, rfl⟩ := List.cons.inj htodo
      rw [List.append_nil] at hdone
      rw [hdone]
      exact .masked (wired_sti L b₀)
    | cons next rest =>
      obtain ⟨rfl, rfl⟩ := List.cons.inj htodo
      refine .off (done ++ [action]) ?_ ⟨b₀, hflag, ?_⟩
      · rw [List.append_assoc]
        exact hdone
      · rw [List.foldl_append]
        rfl
  | masked h =>
    obtain ⟨rfl, rfl⟩ := List.cons.inj htodo
    exact .enabled (List.Subset.refl _) h.enableKeyboard
  | enabled hdraw h =>
    subst htodo
    obtain ⟨write, hport, rfl⟩ := isCursorPort_of_mem_draw (hdraw List.mem_cons_self)
    refine .enabled (fun a ha => hdraw (List.mem_cons_of_mem _ ha)) ?_
    show Wired L 0xFD (b.outPort write.1 write.2)
    rw [outPort_of_isCursorPort hport]
    exact h

/-- What can be passed on at each stage. -/
theorem Stage.passes {m : Machine} {todo : List Action} (h : Stage L m todo b)
    (hflag : b.interruptFlag = true) {request : Board.Request} (hpasses : b.Passes request) :
    request = .master 1 ∧ Wired L 0xFD b ∧ todo ⊆ draw m := by
  cases h with
  | off done hdone hboard =>
    obtain ⟨b₀, hoff, rfl⟩ := hboard
    rw [Stage.flag_off hdone hoff] at hflag
    exact absurd hflag (by decide)
  | masked h => exact absurd (h.eq_of_passes (Or.inl rfl) hpasses).2 (by decide)
  | enabled hdraw h => exact ⟨(h.eq_of_passes (Or.inr rfl) hpasses).1, h, hdraw⟩

/-- Steps and interrupts keep the stages in order. An interrupt ends where it began, as the
handler only acknowledges it and draws. -/
theorem Reachable.stage {m : Machine} {b₀ : Board} {todo : List Action}
    (h : Reachable L m b₀ todo b) : Stage L m todo b := by
  induction h with
  | start =>
    rw [kmain_eq]
    exact .off [] rfl ⟨_, rfl, rfl⟩
  | run _ ih => exact ih.run
  | interrupt _ hflag hpasses _ hhandler houts ih =>
    obtain ⟨rfl, hwired, hdraw⟩ := ih.passes hflag hpasses
    obtain ⟨outs', hports, hcursor⟩ := keyboardHandlerMain_ports hhandler
    obtain rfl := List.append_cancel_left (houts.symm.trans hports)
    exact .enabled hdraw (hwired.handled hcursor)

/-- **No interrupt goes astray.** At every moment of `kmain`, and however many interrupts have
come before, an interrupt that the processor takes is the keyboard's, and leads through the
descriptor tables to `keyboard_handler`. When `kmain` has done everything, the next key press
is passed on. -/
theorem interrupts_enter_handler {m : Machine} {b₀ : Board} {todo : List Action}
    (h : Reachable L m b₀ todo b) :
    (b.interruptFlag = true → ∀ request, b.Passes request →
      request = .master 1 ∧ b.vector request = 0x21 ∧
        b.enter L request = some L.keyboardHandler) ∧
    (todo = [] → b.interruptFlag = true ∧ b.Passes (.master 1)) := by
  constructor
  · intro hflag request hpasses
    obtain ⟨rfl, hwired, -⟩ := h.stage.passes hflag hpasses
    refine ⟨rfl, ?_, hwired.enter⟩
    rw [Board.vector, hwired.master]
  · rintro rfl
    have hstage := h.stage
    generalize htodo : ([] : List Action) = todo at hstage
    cases hstage with
    | off done hdone hboard => simp at htodo
    | masked h => simp [enableKeyboard] at htodo
    | enabled hdraw h => exact ⟨h.flag, h.passes⟩

/-- Without interrupts, `kmain` gets to its end. -/
theorem reachable_end (L : Layout) (m : Machine) (b₀ : Board) :
    Reachable L m b₀ [] ((kmain L m).foldl Board.run { b₀ with interruptFlag := false }) := by
  have hrest : ∀ (todo : List Action) (b : Board), Reachable L m b₀ todo b →
      Reachable L m b₀ [] (todo.foldl Board.run b) := by
    intro todo
    induction todo with
    | nil => exact fun b h => h
    | cons action todo ih => exact fun b h => ih _ h.run
  exact hrest _ _ .start

/-- The kernel has started, and a key is pressed. -/
theorem interrupts_enter_handler_oneMegabyte :
    ∃ b, Reachable oneMegabyte (blankMachine 0) blankBoard [] b ∧ b.interruptFlag = true ∧
      b.enter oneMegabyte (.master 1) = some 0x101000 := by
  have h := reachable_end oneMegabyte (blankMachine 0) blankBoard
  obtain ⟨hsafe, hend⟩ := interrupts_enter_handler h
  obtain ⟨hflag, hpasses⟩ := hend rfl
  exact ⟨_, h, hflag, (hsafe hflag _ hpasses).2.2⟩

end Kernel

end Cosc240
