import Cosc240.Input.Complete

/-!
# Lines are decoded as they were encoded

`writeLine` followed by `read_process_initial` (simulator.c:89–131), for numbers of any size. The
three calls of `strtoui` share one `errno`, so a number that does not fit an `int` spoils
the line wherever it stands. `strtoul` is not exact either for numbers of 64 bits and more, but it
returns its largest value for these, which does not fit an `int`.

- `decimalField` and `decimalLine`: a number as a field, and the fields of the line for a process,
  in the grammar of lines. `decimalField_value` is what `strtoul` makes of a number, and
  `intMax_lt_decimalField_iff` says when it sets `errno`.
- `decimalLine_fits_iff`: no number sets `errno` exactly if all three fit an `int`.

Main results:

- `readProcessInitial_writeLine`: the line is consumed, nothing else is, and its numbers are read if
  all three fit an `int`; if one of them does not, the pid is 0.
- `readProcessInitial_writeLine_overflow`: a number beyond `unsigned long` in the middle of a line.
-/

namespace Cosc240

open Lib

/-- A number as the field of a line. -/
def decimalField (n : Nat) : Numeral :=
  .ofDigits (Nat.toDigits 10 n) (digits_toDigits n).2 (digits_toDigits n).1

/-- `strtoul` stops at the largest `unsigned long`. -/
theorem decimalField_value (n : Nat) : (decimalField n).value = min ulongMax n := by
  show ulong none (Nat.toDigits 10 n) = _
  rw [ulong, decimal_toDigits]
  split
  · omega
  · rw [if_neg (by simp)]
    omega

/-- What does not fit an `int` does not, cut off or not. -/
theorem intMax_lt_decimalField_iff (n : Nat) : intMax < (decimalField n).value ↔ intMax < n := by
  have hlt : intMax < ulongMax := by decide
  rw [decimalField_value]
  omega

theorem decimalField_value_of_le {n : Nat} (h : n ≤ intMax) : (decimalField n).value = n := by
  rw [decimalField_value]
  exact Nat.min_eq_right (Nat.le_trans h (by decide))

/-- The fields of the line for a process. -/
def decimalLine (p : ProcessInitial) : ProcessLine :=
  ⟨decimalField p.pid, some (decimalField p.arrivalTime), decimalField p.processingTime⟩

theorem decimalField_text (n : Nat) : (decimalField n).text = Nat.toDigits 10 n := rfl

theorem decimalLine_text (p : ProcessInitial) : (decimalLine p).text = writeLine p := by
  simp [ProcessLine.text, ProcessLine.body, decimalLine, fieldText, decimalField_text, writeLine]

/-- The line fits exactly if the three numbers fit an `int`. -/
theorem decimalLine_fits_iff (p : ProcessInitial) :
    (decimalLine p).Fits ↔ p.pid ≤ intMax ∧ p.arrivalTime ≤ intMax ∧ p.processingTime ≤ intMax := by
  have hiff : ∀ n, (decimalField n).value ≤ intMax ↔ n ≤ intMax := fun n => by
    rw [← Nat.not_lt, intMax_lt_decimalField_iff, Nat.not_lt]
  rw [← hiff p.pid, ← hiff p.arrivalTime, ← hiff p.processingTime]
  exact ⟨fun h => ⟨h.pid, h.arrivalTime, h.processingTime⟩, fun h => ⟨h.1, h.2.1, h.2.2⟩⟩

theorem decimalLine_initial {p : ProcessInitial} (hpid : p.pid ≤ intMax)
    (harrival : p.arrivalTime ≤ intMax) (hprocessing : p.processingTime ≤ intMax) :
    (decimalLine p).initial = p := by
  simp only [ProcessLine.initial, decimalLine, fieldValue, decimalField_value_of_le hpid,
    decimalField_value_of_le harrival, decimalField_value_of_le hprocessing]

/-- `errno` stays set: one number that does not fit is enough. -/
theorem parseLine_pid_of_not_fits {r : ProcessLine} (h : ¬ r.Fits) (tail : List Char) :
    (parseLine (r.text ++ tail)).pid = 0 := by
  have hlarge : r.pid.value > intMax ∨ fieldValue r.arrivalTime > intMax ∨
      r.processingTime.value > intMax := by
    by_contra hle
    simp only [not_or, gt_iff_lt, Nat.not_lt] at hle
    exact h ⟨hle.1, hle.2.1, hle.2.2⟩
  have herange : ERANGE ≠ 0 := by decide
  rw [r.text_append]
  simp only [parseLine, strtoui_text r.pid (stops_cons (show ','.isDigit = false by decide)),
    List.tail_cons, strtoui_field,
    strtoui_text r.processingTime (stops_cons (show '\n'.isDigit = false by decide))]
  -- the last test sees the `errno` of all three calls
  rw [if_pos]
  left
  rcases hlarge with hpid | harrival | hprocessing
  · rw [if_pos hpid, ite_self]
    split <;> exact herange
  · rw [if_pos harrival]
    split <;> exact herange
  · rw [if_pos hprocessing]
    exact herange

/-- **Decoding undoes encoding.** The line is consumed, nothing else is, and its
numbers are read if all three fit an `int`; if one of them does not, the pid is 0. -/
theorem readProcessInitial_writeLine (a b c : Nat) (line rest : List Char)
    (h : (writeLine ⟨a, c, b⟩).length ≤ 1023) :
    (readProcessInitial line (writeLine ⟨a, c, b⟩ ++ rest)).2 = rest ∧
      (a ≤ intMax ∧ b ≤ intMax ∧ c ≤ intMax →
        (readProcessInitial line (writeLine ⟨a, c, b⟩ ++ rest)).1 = ⟨a, c, b⟩) ∧
      (intMax < a ∨ intMax < b ∨ intMax < c →
        (readProcessInitial line (writeLine ⟨a, c, b⟩ ++ rest)).1.pid = 0) := by
  obtain ⟨body, hbody, hline⟩ := (writtenLine_writeLine ⟨a, c, b⟩).exists_body
  have hread : readLine (maxLineLength - 1) (writeLine ⟨a, c, b⟩ ++ rest) =
      (writeLine ⟨a, c, b⟩, rest) := by
    rw [hline, List.length_append, List.length_singleton] at h
    rw [hline, List.append_assoc]
    exact readLine_line hbody (Nat.lt_of_succ_le h)
  have hne : writeLine ⟨a, c, b⟩ ++ rest ≠ [] := by simp [writeLine]
  rw [readProcessInitial, fgets_of_readLine hne hread, ← decimalLine_text]
  refine ⟨rfl, ?_, ?_⟩
  · rintro ⟨ha, hb, hc⟩
    exact (parseLine_text ((decimalLine_fits_iff _).mpr ⟨ha, hb, hc⟩) _).trans
      (decimalLine_initial ha hb hc)
  · intro hlarge
    refine parseLine_pid_of_not_fits (fun hfits => ?_) _
    obtain ⟨ha, hb, hc⟩ := (decimalLine_fits_iff _).mp hfits
    rcases hlarge with hlt | hlt | hlt
    · exact Nat.not_lt.mpr ha hlt
    · exact Nat.not_lt.mpr hb hlt
    · exact Nat.not_lt.mpr hc hlt

/-- A number beyond `unsigned long` in the middle of the line. -/
theorem readProcessInitial_writeLine_overflow :
    (writeLine ⟨7, 3, 99999999999999999999⟩).length ≤ 1023 ∧
      (readProcessInitial [] (writeLine ⟨7, 3, 99999999999999999999⟩ ++ ['x'])).2 = ['x'] ∧
      (readProcessInitial [] (writeLine ⟨7, 3, 99999999999999999999⟩ ++ ['x'])).1.pid = 0 := by
  have hlength : (writeLine ⟨7, 3, 99999999999999999999⟩).length ≤ 1023 := by decide
  obtain ⟨hrest, -, hpid⟩ := readProcessInitial_writeLine 7 99999999999999999999 3 [] ['x'] hlength
  exact ⟨hlength, hrest, hpid (.inr (.inl (by decide)))⟩

end Cosc240
