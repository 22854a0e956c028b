import Cosc240.Competition.Scoring
import Cosc240.Lib.TextTools

/-!
# The file of the competition

`output_averages` (cosc240_a4.sh:241–258) writes a line with `echo` for each submission and
schedule, and `score_competition.py` reads the lines with `csv.DictReader` (lines 31–32). The reader
is that of fields without quotes, since a portable file name has none.

- `FileName`: a name of portable characters, to which neither the shell nor the reader gives a
  meaning of its own. It is not empty, and no glob, quote or comma is in it.
- `headerLine` and `averageLine`: the lines that the script writes (cosc240_a4.sh:256, 350).
- `csvRows`, `csvRow`, `dictReader`: the rows that the reader finds, passing over empty ones, and
  each of them as a dictionary. A value that is missing is `None`, for which `float` raises an
  exception that is not caught.

Main result:

- `dictReader_written`: the round trip of the rows, if no value has a comma or a newline in it.
-/

namespace Cosc240

open Lib

namespace Competition

/-- The portable characters of a file name: letters, digits, `.`, `_` and `-`. -/
def isPortable (c : Char) : Bool := c.isAlphanum || c == '.' || c == '_' || c == '-'

/-- A name to which neither the shell nor the reader gives a meaning of its own. -/
structure FileName where
  text : String
  portable : text.toList.all isPortable = true
  deriving DecidableEq

/-- A name is its text. -/
theorem FileName.text_inj {a b : FileName} (h : a.text = b.text) : a = b := by
  cases a
  cases h
  rfl

theorem FileName.not_mem {a : FileName} {c : Char} (hc : isPortable c = false) :
    c ∉ a.text.toList := by
  intro hmem
  rw [List.all_eq_true.mp a.portable c hmem] at hc
  cases hc

/-! ## Writing -/

/-- The first line. -/
def headerLine : List Char := "Submission,Schedule,Average".toList

/-- A line of `output_averages`. -/
def averageLine (submission schedule : FileName) (val : List Char) : List Char :=
  submission.text.toList ++ ',' :: (schedule.text.toList ++ ',' :: val)

/-! ## Reading -/

/-- The rows that the reader finds; it passes over empty ones. -/
def csvRows (file : List Char) : List (List String) :=
  ((textLines file).filter (· ≠ [])).map fun line => (line.splitOn ',').map String.ofList

/-- A row as a dictionary. A value that is missing is `None`, which `float` does not take. -/
def csvRow (fieldnames row : List String) : Option CsvRow := do
  let submission ← (fieldnames.zip row).lookup "Submission"
  let schedule ← (fieldnames.zip row).lookup "Schedule"
  let average ← (fieldnames.zip row).lookup "Average"
  return ⟨submission, schedule, average⟩

/-- `csv.DictReader`, for all the rows of the file. -/
def dictReader (file : List Char) : Option (List CsvRow) :=
  match csvRows file with
  | [] => some []
  | fieldnames :: rows => rows.mapM (csvRow fieldnames)

/-! ## What is written is read back -/

variable {submission schedule : FileName} {val : List Char}

/-- `DictReader` gets the three cells of a line back. -/
theorem splitOn_averageLine (hval : ',' ∉ val) :
    (averageLine submission schedule val).splitOn ',' =
      [submission.text.toList, schedule.text.toList, val] := by
  rw [averageLine,
    List.splitOn_append_cons_self_of_not_mem (FileName.not_mem rfl),
    List.splitOn_append_cons_self_of_not_mem (FileName.not_mem rfl),
    List.splitOn_eq_singleton hval]

theorem averageLine_ne_nil : averageLine submission schedule val ≠ [] :=
  List.append_ne_nil_of_right_ne_nil _ (List.cons_ne_nil _ _)

/-- A line of the file is one line, whatever the average is as long as it has no newline. -/
theorem newline_not_mem_averageLine (hval : '\n' ∉ val) :
    '\n' ∉ averageLine submission schedule val := by
  simp only [averageLine, List.mem_append, List.mem_cons, not_or]
  exact ⟨FileName.not_mem rfl, by decide, FileName.not_mem rfl,
    by decide, hval⟩

/-- The header names the columns in the order in which `output_averages` writes them. -/
theorem csvRow_three (submission schedule average : String) :
    csvRow ["Submission", "Schedule", "Average"] [submission, schedule, average] =
      some ⟨submission, schedule, average⟩ := rfl

theorem mapM_map_eq_some {α β γ : Type} {f : β → Option γ} {g : α → β} {h : α → γ}
    (hf : ∀ a, f (g a) = some (h a)) (l : List α) : (l.map g).mapM f = some (l.map h) := by
  induction l with
  | nil => rfl
  | cons a l ih =>
    rw [List.map_cons, List.mapM_cons, hf, ih]
    rfl

/-- **Round trip** of the rows, if no value has a comma or a newline. -/
theorem dictReader_written {cells : List (FileName × FileName × List Char)}
    (h : ∀ cell ∈ cells, ',' ∉ cell.2.2 ∧ '\n' ∉ cell.2.2) :
    dictReader (headerLine ++ '\n' ::
        cells.flatMap fun cell => averageLine cell.1 cell.2.1 cell.2.2 ++ ['\n']) =
      some (cells.map fun cell => ⟨cell.1.text, cell.2.1.text, String.ofList cell.2.2⟩) := by
  have hlines : textLines (cells.flatMap fun cell =>
      averageLine cell.1 cell.2.1 cell.2.2 ++ ['\n']) =
      (cells.map fun cell => averageLine cell.1 cell.2.1 cell.2.2) ++ [[]] := by
    rw [← textLines_flatMap, List.flatMap_map]
    intro line hline
    obtain ⟨cell, hcell, rfl⟩ := List.mem_map.mp hline
    exact newline_not_mem_averageLine (h cell hcell).2
  have hrows : ((cells.map fun cell => averageLine cell.1 cell.2.1 cell.2.2).map fun line =>
      (line.splitOn ',').map String.ofList) =
      cells.map fun cell => [cell.1.text, cell.2.1.text, String.ofList cell.2.2] := by
    rw [List.map_map]
    refine List.map_congr_left ?_
    intro cell hcell
    show ((averageLine cell.1 cell.2.1 cell.2.2).splitOn ',').map String.ofList = _
    rw [splitOn_averageLine (h cell hcell).1]
    simp
  have hfilter : (cells.map fun cell => averageLine cell.1 cell.2.1 cell.2.2).filter (· ≠ []) =
      cells.map fun cell => averageLine cell.1 cell.2.1 cell.2.2 := by
    refine List.filter_eq_self.mpr ?_
    intro line hline
    obtain ⟨cell, -, rfl⟩ := List.mem_map.mp hline
    exact decide_eq_true averageLine_ne_nil
  have hfile : csvRows (headerLine ++ '\n' ::
      cells.flatMap fun cell => averageLine cell.1 cell.2.1 cell.2.2 ++ ['\n']) =
      ["Submission", "Schedule", "Average"] ::
        cells.map fun cell => [cell.1.text, cell.2.1.text, String.ofList cell.2.2] := by
    rw [csvRows, textLines, List.splitOn_append_cons_self_of_not_mem (by decide), ← textLines,
      hlines, List.filter_cons_of_pos (by decide), List.filter_append, hfilter,
      List.filter_cons_of_neg (by decide), List.filter_nil, List.append_nil, List.map_cons, hrows]
    rfl
  rw [dictReader, hfile]
  exact mapM_map_eq_some (fun cell => csvRow_three cell.1.text cell.2.1.text _) cells

end Competition

end Cosc240
