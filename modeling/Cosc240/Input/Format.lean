import Cosc240.Input.Read

/-!
# The lines that `main` accepts

`ProcessLine` is a line that `read_process_initial` (simulator.c:89–131) takes, as a grammar: three
fields with commas between them and a newline at the end, where each field is a numeral as `strtoul`
reads it, and the second one may be left out.

- `ProcessLine.text`, `ProcessLine.initial`, `ProcessLine.stats`: the characters of such a line, the
  process that it describes, and the row that `main` makes of it. A field that is left out counts as
  0.
- `ProcessLine.Fits`: no number of the line sets `errno`.
- `Takes`: where a line comes from. It is in the file, or in memory when the file is at its end.

Main results:

- `strtoui_inv`: what a call of `strtoui` did when `errno` is still 0 behind it.
- `parseLine_text`: the numbers of such a line are read, whatever is behind the line in memory.
- `exists_text_of_parseLine`: nothing else is read without an error.
- `readProcessInitial_of_takes` and `exists_takes`: the same for `read_process_initial`, with the
  call of `fgets`.
-/

namespace Cosc240

open Lib

/-! ## `strtoui` -/

/-- A numeral is read as its value, with `errno` for one that does not fit an `int`. -/
theorem strtoui_text (a : Numeral) {rest : List Char} (h : Stops Char.isDigit rest) (errno : Nat) :
    strtoui (a.text ++ rest) errno =
      (toUInt a.value, rest, if a.value > intMax then ERANGE else errno) := by
  rw [strtoui, strtoul_text a h]
  by_cases hlt : ulongMax < decimal a.digits
  · -- a number that does not fit gives the largest value
    have hval : a.value = ulongMax := by rw [Numeral.value, ulong, if_pos hlt]
    simp [hval, ulongMax, intMax]
  · simp [hlt]

/-- Where there is no numeral, `strtoui` gives 0 and does not move. -/
theorem strtoui_of_strtoul {s : List Char} (h : strtoul s = ⟨0, s, false⟩) (errno : Nat) :
    strtoui s errno = (0, s, errno) := by
  rw [strtoui, h]
  rfl

/-- **What a call of `strtoui` did** when `errno` is still 0 behind it. -/
theorem strtoui_inv {s endptr : List Char} {value errno : Nat}
    (h : strtoui s errno = (value, endptr, 0)) :
    errno = 0 ∧ ((value = 0 ∧ endptr = s) ∨
      ∃ a : Numeral, s = a.text ++ endptr ∧ Stops Char.isDigit endptr ∧ a.value ≤ intMax ∧
        value = a.value) := by
  rcases strtoul_cases s with hnone | ⟨a, rest, rfl, hstops⟩
  · rw [strtoui_of_strtoul hnone, Prod.mk.injEq, Prod.mk.injEq] at h
    obtain ⟨rfl, rfl, rfl⟩ := h
    exact ⟨rfl, .inl ⟨rfl, rfl⟩⟩
  · rw [strtoui_text a hstops, Prod.mk.injEq, Prod.mk.injEq] at h
    obtain ⟨rfl, rfl, herrno⟩ := h
    split at herrno
    · cases herrno
    · rename_i hle
      have hfit : a.value ≤ uintMax := Nat.le_trans (Nat.le_of_not_lt hle) (by decide)
      exact ⟨herrno, .inr ⟨a, rfl, hstops, Nat.le_of_not_lt hle, toUInt_of_le hfit⟩⟩

theorem eq_cons_of_deref {s : List Char} {c : Char} (hc : c ≠ '\x00') (h : deref s = c) :
    s = c :: s.tail := by
  cases s with
  | nil => exact absurd h.symm hc
  | cons c' s =>
    rw [deref, List.headD_cons] at h
    rw [h, List.tail_cons]

/-! ## Process lines -/

/-- A field that may be left out. -/
def fieldText : Option Numeral → List Char
  | some a => a.text
  | none => []

/-- A field that is left out counts as 0. -/
def fieldValue : Option Numeral → Nat
  | some a => a.value
  | none => 0

/-- A line that `read_process_initial` takes. -/
structure ProcessLine where
  pid : Numeral
  arrivalTime : Option Numeral
  processingTime : Numeral

namespace ProcessLine

/-- The line without its newline. -/
def body (r : ProcessLine) : List Char :=
  r.pid.text ++ ',' :: (fieldText r.arrivalTime ++ ',' :: r.processingTime.text)

def text (r : ProcessLine) : List Char := r.body ++ ['\n']

/-- The process that the line describes. -/
def initial (r : ProcessLine) : ProcessInitial :=
  ⟨r.pid.value, r.processingTime.value, fieldValue r.arrivalTime⟩

/-- The row that `main` makes of it. -/
def stats (r : ProcessLine) : ProcessStats := ⟨r.initial, 0, 0⟩

/-- No number of the line sets `errno`. -/
structure Fits (r : ProcessLine) : Prop where
  pid : r.pid.value ≤ intMax
  arrivalTime : fieldValue r.arrivalTime ≤ intMax
  processingTime : r.processingTime.value ≤ intMax

variable {r : ProcessLine} {tail : List Char}

theorem text_append (r : ProcessLine) (tail : List Char) :
    r.text ++ tail = r.pid.text ++ ',' :: (fieldText r.arrivalTime ++ ',' ::
      (r.processingTime.text ++ '\n' :: tail)) := by
  simp [text, body]

theorem text_length (r : ProcessLine) : r.text.length = r.body.length + 1 := by
  simp [text]

theorem mem_fieldText {f : Option Numeral} {c : Char} (h : c ∈ fieldText f) :
    isspace c ∨ (c = '+' ∨ c = '-') ∨ c.isDigit := by
  cases f with
  | none => cases h
  | some a => exact a.mem_text h

/-- No line of a process has a NUL in it, so that it is one string. -/
theorem nul_not_mem_text (r : ProcessLine) : '\x00' ∉ r.text := by
  intro hmem
  have hnul : ¬ (isspace '\x00' ∨ ('\x00' = '+' ∨ '\x00' = '-') ∨ '\x00'.isDigit) := by decide
  have hmem' : '\x00' ∈ r.text ++ [] := by rwa [List.append_nil]
  rw [text_append] at hmem'
  simp only [List.mem_append, List.mem_cons] at hmem'
  rcases hmem' with h | h | h | h | h | h | h
  · exact hnul (r.pid.mem_text h)
  · exact absurd h (by decide)
  · exact hnul (mem_fieldText h)
  · exact absurd h (by decide)
  · exact hnul (r.processingTime.mem_text h)
  · exact absurd h (by decide)
  · cases h

end ProcessLine

/-! ## `read_process_initial` -/

/-- A field may be empty, and counts as 0 then. -/
theorem strtoui_field (f : Option Numeral) (rest : List Char) (errno : Nat) :
    strtoui (fieldText f ++ ',' :: rest) errno =
      (toUInt (fieldValue f), ',' :: rest, if fieldValue f > intMax then ERANGE else errno) := by
  cases f with
  | none => exact strtoui_of_strtoul rfl errno
  | some a => exact strtoui_text a (stops_cons (by decide)) errno

/-- The numbers of a line are read. -/
theorem parseLine_text {r : ProcessLine} (hfits : r.Fits) (tail : List Char) :
    parseLine (r.text ++ tail) = r.initial := by
  have hle : ∀ {n : Nat}, n ≤ intMax → toUInt n = n := fun h =>
    toUInt_of_le (Nat.le_trans h (by decide))
  rw [r.text_append]
  simp only [parseLine, strtoui_text r.pid (stops_cons (show ','.isDigit = false by decide)),
    List.tail_cons, strtoui_field,
    strtoui_text r.processingTime (stops_cons (show '\n'.isDigit = false by decide)),
    hle hfits.pid, hle hfits.arrivalTime, hle hfits.processingTime,
    if_neg (Nat.not_lt.mpr hfits.pid), if_neg (Nat.not_lt.mpr hfits.arrivalTime),
    if_neg (Nat.not_lt.mpr hfits.processingTime)]
  simp [deref, ProcessLine.initial]

/-- Nothing else is read without an error. -/
theorem exists_text_of_parseLine {s : List Char} (hpid : (parseLine s).pid ≠ 0)
    (hwork : (parseLine s).processingTime ≠ 0) :
    ∃ r : ProcessLine, r.Fits ∧ ∃ tail, s = r.text ++ tail := by
  rcases h₁ : strtoui s 0 with ⟨pid, end₁, errno₁⟩
  rcases h₂ : strtoui end₁.tail errno₁ with ⟨arrivalTime, end₂, errno₂⟩
  rcases h₃ : strtoui end₂.tail errno₂ with ⟨processingTime, end₃, errno₃⟩
  simp only [parseLine, h₁, h₂, h₃] at hpid hwork
  split at hpid
  · exact absurd rfl hpid
  rename_i hok₃
  split at hpid
  · exact absurd rfl hpid
  rename_i hok₂
  split at hpid
  · exact absurd rfl hpid
  rename_i hok₁
  simp only [not_or, not_not] at hok₁ hok₂ hok₃
  obtain ⟨rfl, hc₁⟩ := hok₁
  obtain ⟨rfl, hc₂⟩ := hok₂
  obtain ⟨rfl, hc₃⟩ := hok₃
  have he₁ := eq_cons_of_deref (by decide) hc₁
  have he₂ := eq_cons_of_deref (by decide) hc₂
  have he₃ := eq_cons_of_deref (by decide) hc₃
  -- the pid and the processing time are not 0, so they are there
  obtain ⟨-, ⟨rfl, -⟩ | ⟨a, hs, -, hle₁, -⟩⟩ := strtoui_inv h₁
  · exact absurd rfl hpid
  obtain ⟨-, ⟨rfl, -⟩ | ⟨c, hs₃, -, hle₃, -⟩⟩ := strtoui_inv h₃
  · exact absurd rfl hwork
  -- the arrival time may be missing
  have hfield : ∃ f : Option Numeral, end₁.tail = fieldText f ++ end₂ ∧ fieldValue f ≤ intMax := by
    obtain ⟨-, ⟨-, heq⟩ | ⟨b, hs₂, -, hle₂, -⟩⟩ := strtoui_inv h₂
    · exact ⟨none, heq.symm, Nat.zero_le _⟩
    · exact ⟨some b, hs₂, hle₂⟩
  obtain ⟨f, hs₂, hle₂⟩ := hfield
  refine ⟨⟨a, f, c⟩, ⟨hle₁, hle₂, hle₃⟩, end₃.tail, ?_⟩
  rw [ProcessLine.text_append, ← he₃, ← hs₃, ← he₂, ← hs₂, ← he₁]
  exact hs

/-- Where a line comes from: from the file, or from memory when the file is at its
end. -/
inductive Takes (line : List Char) : List Char → ProcessLine → List Char → Prop
  | file (r : ProcessLine) (rest : List Char) (hline : '\n' ∉ r.body)
      (hlength : r.text.length < maxLineLength) : Takes line (r.text ++ rest) r rest
  | memory (r : ProcessLine) (tail : List Char) (hline : line = r.text ++ tail) :
      Takes line [] r []

/-- A line in the format is read as its process. -/
theorem readProcessInitial_of_takes {line file rest : List Char} {r : ProcessLine}
    (h : Takes line file r rest) (hfits : r.Fits) :
    readProcessInitial line file = (r.initial, rest) := by
  cases h with
  | file r rest hline hlength =>
    have hread : readLine (maxLineLength - 1) (r.text ++ rest) = (r.text, rest) := by
      rw [ProcessLine.text_length] at hlength
      rw [ProcessLine.text, List.append_assoc]
      exact readLine_line hline (Nat.lt_sub_of_add_lt hlength)
    have hne : r.text ++ rest ≠ [] := by simp [ProcessLine.text]
    have htext := parseLine_text hfits ('\x00' :: line.drop (r.text.length + 1))
    simp only [readProcessInitial, fgets_of_readLine hne hread, htext]
  | memory r tail hline =>
    simp only [readProcessInitial, fgets_nil, hline, parseLine_text hfits]

/-- Conversely, a process with a pid and some work has been read from a line in the format. -/
theorem exists_takes {line file rest : List Char} {p : ProcessInitial}
    (h : readProcessInitial line file = (p, rest)) (hpid : p.pid ≠ 0)
    (hwork : p.processingTime ≠ 0) :
    ∃ r : ProcessLine, Takes line file r rest ∧ r.Fits ∧ p = r.initial := by
  by_cases hnil : file = []
  · subst hnil
    simp only [readProcessInitial, fgets_nil, Prod.mk.injEq] at h
    obtain ⟨rfl, rfl⟩ := h
    obtain ⟨r, hfits, tail, htext⟩ := exists_text_of_parseLine hpid hwork
    refine ⟨r, .memory r tail htext, hfits, ?_⟩
    rw [htext, parseLine_text hfits]
  · rcases hread : readLine (maxLineLength - 1) file with ⟨l, rest'⟩
    simp only [readProcessInitial, fgets_of_readLine hnil hread, Prod.mk.injEq] at h
    obtain ⟨rfl, rfl⟩ := h
    obtain ⟨r, hfits, tail, htext⟩ := exists_text_of_parseLine hpid hwork
    -- the line is the text of `r`: it goes on to the newline, and no further
    obtain ⟨s', hs'⟩ := prefix_of_append_nul r.nul_not_mem_text htext
    have hnewline : (readLine (maxLineLength - 1) file).1 = r.body ++ '\n' :: s' := by
      rw [hread, hs', ProcessLine.text, List.append_assoc]
      rfl
    obtain ⟨hbody, rfl⟩ := readLine_newline hnewline
    rw [List.append_nil] at hs'
    have hfile := readLine_append (maxLineLength - 1) file
    have hlength := readLine_length_le (maxLineLength - 1) file
    rw [hread] at hfile hlength
    refine ⟨r, ?_, hfits, ?_⟩
    · rw [← hfile, hs']
      exact .file r rest' hbody (hs' ▸ Nat.lt_succ_of_le hlength)
    · rw [htext, parseLine_text hfits]

end Cosc240
