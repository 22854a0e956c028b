import Cosc240.Lib.DecimalText
import Mathlib.Algebra.BigOperators.Group.List.Basic
import Mathlib.Data.List.Dedup
import Mathlib.Data.Rat.Floor

/-!
# `score_competition.py`

`main` (score_competition.py:15–62) reads one row for each submission and schedule, with the
average turnaround time, and works on it in a database in memory. The tables are lists of records
and each SQL statement is a function between them, in the order of the source. Numbers are exact
rationals, with the values of a `float` that are not finite next to them.

- `Conversions`: the two readers of the text of an average. Python tests it with `float`, and keeps
  it as it is; the database converts it when it goes into a column of the type `real`. A text that
  passes the test and is not converted stays a text in the column (`averageValue`).
- `insertResults`, `maxVal`, `updateResults`: the table `results`, lines 26–47.
- `insertRanks`, `insertMaxRanks`, `updateRanks`: the ranks, lines 49–54. In the order of the
  database a text is behind every number.
- `insertScores`, `updateScores`: the scores, lines 56–58; `finalScores` is all of it.
- `main`: the marks that are printed, lines 60–62.
-/

namespace Cosc240

open Lib

namespace Competition

/-- How texts are read as numbers. What the database converts, Python reads as the same number,
and neither of them reads the text `NULL`. -/
structure Conversions where
  /-- `float`, with `none` for a `ValueError`. -/
  float : String → Option ExactDouble
  /-- What a column of the type `real` stores instead of the text, if it is converted. -/
  real : String → Option ℚ
  float_of_real : ∀ {s : String} {q : ℚ}, real s = some q → float s = some (.finite q)
  float_null : float "NULL" = none

/-- What both make of texts in ASCII. -/
def asciiConversions : Conversions where
  float := DecimalText.pythonFloat
  real := DecimalText.sqliteReal
  float_of_real := DecimalText.pythonFloat_of_sqliteReal
  float_null := by decide +kernel

theorem asciiConversions_real (text : String) :
    asciiConversions.real text = DecimalText.sqliteReal text := rfl

/-- A row of the CSV file. -/
structure CsvRow where
  submission : String
  schedule : String
  average : String
  deriving DecidableEq, Repr

/-- What a column of the database can hold here. -/
inductive Value where
  | null
  | real (x : ExactDouble)
  | text (s : String)
  deriving DecidableEq, Repr

/-- The order of values in the database: `NULL`, then numbers, then texts. -/
def Value.lt : Value → Value → Bool
  | .null, .null => false
  | .null, _ => true
  | .real a, .real b => b.gt a
  | .real _, .text _ => true
  | .text a, .text b => a < b
  | _, _ => false

/-- A row of `results`. -/
structure Result where
  submission : String
  schedule : String
  average : Value
  deriving DecidableEq, Repr

/-- A row of `ranks`. -/
structure Rank where
  submission : String
  schedule : String
  rank : Nat
  maxRank : Nat
  deriving DecidableEq, Repr

/-- A row of `scores`. -/
structure Score where
  submission : String
  schedule : String
  score : ℚ
  deriving DecidableEq, Repr

/-- What a text becomes in a column of the type `real`. -/
def store (C : Conversions) (text : String) : Value :=
  match C.real text with
  | some q => .real (.finite q)
  | none => .text text

/-- The value for an average: any invalid float becomes the text `NULL`. -/
def averageValue (C : Conversions) (average : String) : Value :=
  match C.float average with
  | some _ => store C average
  | none => store C "NULL"

/-- `INSERT INTO results`, for each row of the file. -/
def insertResults (C : Conversions) (rows : List CsvRow) : List Result :=
  rows.map fun row => ⟨row.submission, row.schedule, averageValue C row.average⟩

/-- `float(row[0])` of what the database gives back. -/
def Value.toFloat (C : Conversions) : Value → Option ExactDouble
  | .null => none
  | .real x => some x
  | .text s => C.float s

/-- The loop for `max_val`. -/
def maxVal (C : Conversions) (results : List Result) : ExactDouble :=
  results.foldl (fun maxVal row =>
    if row.average = .text "NULL" then maxVal
    else match row.average.toFloat C with
      | some x => if x.gt maxVal then x else maxVal
      -- every other text has passed `float` before
      | none => maxVal) (.finite 0)

/-- `UPDATE results`: invalid averages become the worst one. -/
def updateResults (maxVal : ExactDouble) (results : List Result) : List Result :=
  results.map fun row =>
    if row.average = .null ∨ row.average = .text "NULL" then
      { row with average := .real (maxVal + .finite 1) }
    else row

/-- `RANK() OVER (PARTITION BY schedule ORDER BY average)` for one row. -/
def rankOf (results : List Result) (row : Result) : Nat :=
  1 + results.countP fun other =>
    other.schedule = row.schedule ∧ other.average.lt row.average

/-- `INSERT INTO ranks`. -/
def insertRanks (results : List Result) : List Rank :=
  results.map fun row => ⟨row.submission, row.schedule, rankOf results row, 0⟩

/-- `INSERT INTO max_ranks`: one row for each schedule. -/
def insertMaxRanks (ranks : List Rank) : List (String × Nat) :=
  (ranks.map Rank.schedule).dedup.map fun schedule =>
    (schedule, ((ranks.filter fun row => row.schedule = schedule).map Rank.rank).foldl max 0)

/-- `UPDATE ranks`. -/
def updateRanks (maxRanks : List (String × Nat)) (ranks : List Rank) : List Rank :=
  ranks.map fun row =>
    { row with
      maxRank := ((maxRanks.find? fun entry => entry.1 = row.schedule).map Prod.snd).getD 0 }

/-- `INSERT INTO scores`. -/
def insertScores (ranks : List Rank) : List Score :=
  ranks.map fun row =>
    ⟨row.submission, row.schedule, 1 - ((row.rank : ℚ) - 1) / ((row.maxRank : ℚ) * 1)⟩

/-- `UPDATE scores`: no score for a row whose average is the worst one. -/
def updateScores (maxVal : ExactDouble) (results : List Result) (scores : List Score) :
    List Score :=
  let worst := (results.filter fun row => row.average = .real (maxVal + .finite 1)).map fun row =>
    (row.submission, row.schedule)
  scores.map fun row =>
    if (row.submission, row.schedule) ∈ worst then { row with score := 0 } else row

/-- The table `scores` as it is in the end. -/
def finalScores (C : Conversions) (rows : List CsvRow) : List Score :=
  let results := insertResults C rows
  let maxVal := maxVal C results
  let results := updateResults maxVal results
  let ranks := insertRanks results
  let maxRanks := insertMaxRanks ranks
  let ranks := updateRanks maxRanks ranks
  let scores := insertScores ranks
  updateScores maxVal results scores

/-- `avg`. -/
def avg (l : List ℚ) : ℚ := l.sum / l.length

/-- `round` to one digit, away from zero if it is halfway. -/
def round1 (x : ℚ) : ℚ :=
  if 0 ≤ x then (⌊x * 10 + 1 / 2⌋ : ℚ) / 10 else -((⌊-x * 10 + 1 / 2⌋ : ℚ) / 10)

/-- `round(avg(score) * {score}, 1)` for one group of the last query. -/
def mark (scores : List Score) (score : Nat) (submission : String) : ℚ :=
  round1 (avg ((scores.filter fun row => row.submission = submission).map Score.score) * score)

/-- `main`: what is printed, one line for each submission. `cosc240_a4.sh` has
made sure that the maximum score is a natural number. -/
def main (C : Conversions) (rows : List CsvRow) (score : Nat) : List (String × ℚ) :=
  let scores := finalScores C rows
  (scores.map Score.submission).dedup.map fun submission =>
    (submission, mark scores score submission)

end Competition

end Cosc240
