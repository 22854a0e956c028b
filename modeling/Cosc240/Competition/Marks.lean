import Cosc240.Competition.Scoring
import Cosc240.Lib.Rank
import Mathlib.Algebra.Order.BigOperators.Group.List
import Mathlib.Data.String.Basic
import Mathlib.Data.Sum.Order

/-!
# Scores and marks, row by row

The table that `score_competition.py` ends up with has one row for each row of the file, with the
normalised competition rank of the row on its schedule, or 0 for a row that `float` has refused.

- `Reading`: the three ways in which an average is read. It is refused by `float`, or converted by
  the database, or it passes `float` and stays a text in the table (`KeptAsText`).
- `place`: where that puts the row on its schedule. The converted averages come first, then the
  refused ones with the average `max_val + 1` (`exists_maxVal`, `lt_standing`), and last of all the
  texts.
- `finalScores_eq`: the table `scores`, from the places. `scoreOf_lt_iff` is the order of it.
- `mem_main`: the marks, which are means over the schedules of a submission, so that a submission
  with at least the scores of another one has at least its mark (`mark_le_mark`).
-/

namespace Cosc240

open Lib

namespace Competition

/-- One row for each submission and schedule. -/
structure Grid (rows : List CsvRow) : Prop where
  nodup : (rows.map fun row => (row.submission, row.schedule)).Nodup
  complete : ∀ row ∈ rows, ∀ row' ∈ rows,
    ∃ r ∈ rows, r.submission = row.submission ∧ r.schedule = row'.schedule

/-- At most one row for each submission and schedule. -/
def Keyed (rows : List CsvRow) : Prop :=
  (rows.map fun row => (row.submission, row.schedule)).Nodup

/-! ## How an average is read -/

section Reading

variable (C : Conversions) (row : CsvRow)

/-- The number that the average is. `NULL`, `nan` and the infinities are none. -/
def number : Option ℚ :=
  match C.float row.average with
  | some (.finite q) => some q
  | _ => none

/-- The average passes the test with `float`, and stays a text in the table. -/
def KeptAsText : Prop := C.float row.average ≠ none ∧ C.real row.average = none

/-- Where the row stands on its schedule: numbers in their order, then the refused ones, and then
texts in their order. -/
def place : WithTop ℚ ⊕ₗ String :=
  match C.float row.average, C.real row.average with
  | none, _ => Sum.inlₗ ⊤
  | some _, some q => Sum.inlₗ q
  | some _, none => Sum.inrₗ row.average

/-- The three ways in which an average is read. -/
inductive Reading : Prop
  | refused (hfloat : C.float row.average = none)
  | converted (q : ℚ) (hfloat : C.float row.average = some (.finite q))
      (hreal : C.real row.average = some q)
  | kept (hkept : KeptAsText C row)

theorem reading : Reading C row := by
  cases hfloat : C.float row.average with
  | none => exact .refused hfloat
  | some x =>
    cases hreal : C.real row.average with
    | none => exact .kept ⟨hfloat ▸ Option.some_ne_none x, hreal⟩
    | some q => exact .converted q (C.float_of_real hreal) hreal

end Reading

section Cases

variable {C : Conversions} {row : CsvRow}

theorem number_of_refused (hfloat : C.float row.average = none) : number C row = none := by
  rw [number, hfloat]

theorem number_of_converted {q : ℚ} (hreal : C.real row.average = some q) :
    number C row = some q := by
  rw [number, C.float_of_real hreal]

/-- What `float` refuses is placed behind all numbers. -/
theorem place_of_refused (hfloat : C.float row.average = none) : place C row = Sum.inlₗ ⊤ := by
  rw [place, hfloat]

theorem place_of_converted {q : ℚ} (hreal : C.real row.average = some q) :
    place C row = Sum.inlₗ (q : WithTop ℚ) := by
  rw [place, C.float_of_real hreal, hreal]

/-- What the database keeps as text is placed behind the rows without an average. -/
theorem place_of_kept (hkept : KeptAsText C row) : place C row = Sum.inrₗ row.average := by
  obtain ⟨x, hfloat⟩ := Option.ne_none_iff_exists'.mp hkept.1
  rw [place, hfloat, hkept.2]

/-- The text `NULL` is not converted. -/
theorem store_null (C : Conversions) : store C "NULL" = .text "NULL" := by
  rw [store]
  cases hreal : C.real "NULL" with
  | none => rfl
  | some q => cases C.float_null.symm.trans (C.float_of_real hreal)

/-- The text that is stored is not `NULL`. -/
theorem KeptAsText.ne_null (hkept : KeptAsText C row) : row.average ≠ "NULL" :=
  fun heq => hkept.1 (heq ▸ C.float_null)

theorem averageValue_of_refused (hfloat : C.float row.average = none) :
    averageValue C row.average = .text "NULL" := by
  rw [averageValue, hfloat]
  exact store_null C

theorem averageValue_of_converted {q : ℚ} (hreal : C.real row.average = some q) :
    averageValue C row.average = .real (.finite q) := by
  rw [averageValue, C.float_of_real hreal]
  dsimp only
  rw [store, hreal]

/-- A text that `float` takes and the column does not convert is stored as it is. -/
theorem averageValue_of_kept (hkept : KeptAsText C row) :
    averageValue C row.average = .text row.average := by
  obtain ⟨x, hfloat⟩ := Option.ne_none_iff_exists'.mp hkept.1
  rw [averageValue, hfloat]
  dsimp only
  rw [store, hkept.2]

end Cases

/-! ## The largest average -/

section MaxVal

variable (C : Conversions)

/-- One row of the loop for `max_val`. -/
def maxStep (maxVal : ExactDouble) (row : Result) : ExactDouble :=
  if row.average = .text "NULL" then maxVal
  else match row.average.toFloat C with
    | some x => if x.gt maxVal then x else maxVal
    | none => maxVal

/-- One row of the maximum: it is never less than before, nor than the row itself. -/
theorem maxStep_ofTop (w : WithTop ℚ) (row : Result) :
    ∃ w' : WithTop ℚ, maxStep C (.ofTop w) row = .ofTop w' ∧ w ≤ w' ∧
      ∀ q : ℚ, row.average = .real (.finite q) → (q : WithTop ℚ) ≤ w' := by
  unfold maxStep
  by_cases hnull : row.average = .text "NULL"
  · rw [if_pos hnull]
    exact ⟨w, rfl, le_rfl, fun q hq => by cases hnull.symm.trans hq⟩
  · rw [if_neg hnull]
    cases hfloat : row.average.toFloat C with
    | none =>
      refine ⟨w, rfl, le_rfl, fun q hq => ?_⟩
      rw [hq] at hfloat
      cases hfloat
    | some x =>
      dsimp only
      by_cases hgt : x.gt (.ofTop w) = true
      · obtain ⟨w', rfl, hlt⟩ := ExactDouble.exists_ofTop_of_gt hgt
        rw [if_pos hgt]
        refine ⟨w', rfl, hlt.le, fun q hq => ?_⟩
        rw [hq] at hfloat
        have heq : ExactDouble.ofTop q = .ofTop w' := Option.some.inj hfloat
        exact (ExactDouble.ofTop_inj heq).le
      · rw [if_neg hgt]
        refine ⟨w, rfl, le_rfl, fun q hq => ?_⟩
        rw [hq] at hfloat
        cases hfloat
        exact not_lt.mp fun hlt => hgt ((ExactDouble.gt_ofTop q w).mpr hlt)

/-- `max_val` is a number or infinity, and no average that has been converted is larger. -/
theorem exists_maxVal (rows : List CsvRow) :
    ∃ w : WithTop ℚ, maxVal C (insertResults C rows) = .ofTop w ∧
      ∀ row ∈ rows, ∀ q : ℚ, C.real row.average = some q → (q : WithTop ℚ) ≤ w := by
  have hfold : ∀ (results : List Result) (w : WithTop ℚ), ∃ w' : WithTop ℚ,
      results.foldl (maxStep C) (.ofTop w) = .ofTop w' ∧ w ≤ w' ∧
        ∀ row ∈ results, ∀ q : ℚ, row.average = .real (.finite q) → (q : WithTop ℚ) ≤ w' := by
    intro results
    induction results with
    | nil => exact fun w => ⟨w, rfl, le_rfl, nofun⟩
    | cons row results ih =>
      intro w
      obtain ⟨w₁, hstep, hle₁, hrow⟩ := maxStep_ofTop C w row
      obtain ⟨w', hrun, hle', hrest⟩ := ih w₁
      rw [List.foldl_cons, hstep]
      exact ⟨w', hrun, hle₁.trans hle',
        List.forall_mem_cons.mpr ⟨fun q hq => (hrow q hq).trans hle', hrest⟩⟩
  obtain ⟨w, hrun, -, hle⟩ := hfold (insertResults C rows) 0
  refine ⟨w, hrun, fun row hrow q hreal => hle _ (List.mem_map_of_mem hrow) q ?_⟩
  exact averageValue_of_converted hreal

end MaxVal

/-! ## The tables, row by row -/

section Tables

/-- The value that is in the table `results` in the end, if `max_val` is `w`. -/
def standing (w : WithTop ℚ) (k : WithTop ℚ ⊕ₗ String) : Value :=
  match ofLex k with
  | .inl a => .real (.ofTop (min a (w + 1)))
  | .inr s => .text s

/-- The places of rows whose averages are at most `w`, as far as they have been converted. -/
def upTo (w : WithTop ℚ) : Set (WithTop ℚ ⊕ₗ String) :=
  {k | ∀ q : ℚ, k = Sum.inlₗ (q : WithTop ℚ) → (q : WithTop ℚ) ≤ w}

theorem coe_lt_add_one {w : WithTop ℚ} {q : ℚ} (h : (q : WithTop ℚ) ≤ w) :
    (q : WithTop ℚ) < w + 1 := by
  cases w with
  | top => exact WithTop.coe_lt_top q
  | coe v =>
    have hle : q ≤ v := WithTop.coe_le_coe.mp h
    exact WithTop.coe_lt_coe.mpr (hle.trans_lt (lt_add_one v))

theorem standing_coe {w : WithTop ℚ} {q : ℚ} (h : (q : WithTop ℚ) ≤ w) :
    standing w (Sum.inlₗ (q : WithTop ℚ)) = .real (.finite q) := by
  show Value.real (.ofTop (min (q : WithTop ℚ) (w + 1))) = _
  rw [min_eq_left (coe_lt_add_one h).le]
  rfl

theorem standing_top (w : WithTop ℚ) :
    standing w (Sum.inlₗ ⊤) = .real (.ofTop (w + 1)) := by
  show Value.real (.ofTop (min ⊤ (w + 1))) = _
  rw [min_eq_right le_top]

/-- **The order of the database** is the order of the places. -/
theorem lt_standing {w : WithTop ℚ} {k k' : WithTop ℚ ⊕ₗ String} (hk : k ∈ upTo w)
    (hk' : k' ∈ upTo w) : (standing w k).lt (standing w k') = true ↔ k < k' := by
  induction k using Lex.rec with | _ k => ?_
  induction k' using Lex.rec with | _ k' => ?_
  cases k with
  | inr s =>
    cases k' with
    | inl b => exact iff_of_false (by simp [standing, Value.lt]) Sum.Lex.not_inr_lt_inl
    | inr s' =>
      rw [Sum.Lex.inr_lt_inr_iff]
      exact decide_eq_true_iff
  | inl a =>
    cases k' with
    | inr s' => exact iff_of_true rfl (Sum.Lex.inl_lt_inr a s')
    | inl b =>
      rw [Sum.Lex.inl_lt_inl_iff]
      refine (ExactDouble.gt_ofTop _ _).trans ?_
      cases a with
      | top =>
        rw [min_eq_right le_top]
        exact iff_of_false (fun h => absurd (h.trans_le (min_le_right _ _)) (lt_irrefl _))
          not_top_lt
      | coe q =>
        have hq := coe_lt_add_one (hk q rfl)
        rw [min_eq_left hq.le]
        cases b with
        | top =>
          rw [min_eq_right le_top]
          exact iff_of_true hq (WithTop.coe_lt_top q)
        | coe q' => rw [min_eq_left (coe_lt_add_one (hk' q' rfl)).le]

/-- Exactly the refused rows have the worst average. -/
theorem standing_eq_worst_iff {w : WithTop ℚ} {k : WithTop ℚ ⊕ₗ String} (hk : k ∈ upTo w) :
    standing w k = .real (.ofTop (w + 1)) ↔ k = Sum.inlₗ ⊤ := by
  constructor
  · intro heq
    induction k using Lex.rec with | _ k => ?_
    cases k with
    | inr s => cases heq
    | inl a =>
      cases a with
      | top => rfl
      | coe q =>
        have hreal : Value.real (.ofTop q) = .real (.ofTop (w + 1)) :=
          (standing_coe (hk q rfl)).symm.trans heq
        exact absurd (ExactDouble.ofTop_inj (Value.real.inj hreal)) (coe_lt_add_one (hk q rfl)).ne
  · rintro rfl
    exact standing_top w

variable (C : Conversions) (rows : List CsvRow)

/-- The places on a schedule. -/
def places (schedule : String) : List (WithTop ℚ ⊕ₗ String) :=
  (rows.filter fun row => row.schedule = schedule).map (place C)

/-- The score of a row. -/
def scoreOf (row : CsvRow) : ℚ :=
  if C.float row.average = none then 0
  else rankScore (places C rows row.schedule) (place C row)

/-- The row of `results` for a row of the file, if `max_val` is `w`. -/
def stored (w : WithTop ℚ) (row : CsvRow) : Result :=
  ⟨row.submission, row.schedule, standing w (place C row)⟩

/-- The row of `ranks` for a row of the file. -/
def rankRow (row : CsvRow) : Rank where
  submission := row.submission
  schedule := row.schedule
  rank := rank (places C rows row.schedule) (place C row)
  maxRank := maxRank (places C rows row.schedule)

variable {C rows}

theorem place_mem_places {row : CsvRow} (hrow : row ∈ rows) :
    place C row ∈ places C rows row.schedule :=
  List.mem_map_of_mem (List.mem_filter.mpr ⟨hrow, decide_eq_true rfl⟩)

/-- A bound for all numbers is one for the places of all rows. -/
theorem place_mem_upTo {w : WithTop ℚ}
    (hw : ∀ row ∈ rows, ∀ q : ℚ, C.real row.average = some q → (q : WithTop ℚ) ≤ w)
    {row : CsvRow} (hrow : row ∈ rows) : place C row ∈ upTo w := by
  intro q hq
  cases reading C row with
  | refused hfloat =>
    rw [place_of_refused hfloat] at hq
    cases hq
  | converted p hfloat hreal =>
    rw [place_of_converted hreal] at hq
    cases hq
    exact hw row hrow _ hreal
  | kept hkept =>
    rw [place_of_kept hkept] at hq
    cases hq

/-- The table `results` after its update. -/
theorem updateResults_eq {w : WithTop ℚ}
    (hw : ∀ row ∈ rows, ∀ q : ℚ, C.real row.average = some q → (q : WithTop ℚ) ≤ w) :
    updateResults (.ofTop w) (insertResults C rows) = rows.map (stored C w) := by
  rw [updateResults, insertResults, List.map_map]
  refine List.map_congr_left fun row hrow => ?_
  show (if averageValue C row.average = .null ∨ averageValue C row.average = .text "NULL"
    then _ else _ : Result) = _
  unfold stored
  cases reading C row with
  | refused hfloat =>
    rw [averageValue_of_refused hfloat, if_pos (Or.inr rfl), place_of_refused hfloat, standing_top,
      ExactDouble.ofTop_add_one]
  | converted q hfloat hreal =>
    rw [averageValue_of_converted hreal, if_neg (by simp), place_of_converted hreal,
      standing_coe (hw row hrow q hreal)]
  | kept hkept =>
    rw [averageValue_of_kept hkept, if_neg (by simpa using hkept.ne_null), place_of_kept hkept]
    rfl

/-- The rank of a row, from the places on its schedule. -/
theorem rankOf_eq {w : WithTop ℚ}
    (hw : ∀ row ∈ rows, ∀ q : ℚ, C.real row.average = some q → (q : WithTop ℚ) ≤ w)
    {row : CsvRow} (hrow : row ∈ rows) :
    rankOf (rows.map (stored C w)) (stored C w row) =
      rank (places C rows row.schedule) (place C row) := by
  unfold rankOf rank places
  rw [List.countP_map, List.countP_map, List.countP_filter]
  refine congrArg (1 + ·) (List.countP_congr fun other hother => ?_)
  have hlt := lt_standing (place_mem_upTo hw hother) (place_mem_upTo hw hrow)
  simp [stored, hlt, and_comm]

/-- The third query gives each row its rank among the rows of its schedule. -/
theorem insertRanks_eq {w : WithTop ℚ}
    (hw : ∀ row ∈ rows, ∀ q : ℚ, C.real row.average = some q → (q : WithTop ℚ) ≤ w) :
    insertRanks (rows.map (stored C w)) =
      rows.map fun row => { rankRow C rows row with maxRank := 0 } := by
  rw [insertRanks, List.map_map]
  refine List.map_congr_left fun row hrow => ?_
  exact congrArg (Rank.mk row.submission row.schedule · 0) (rankOf_eq hw hrow)

theorem find?_map_pair {β : Type} (f : String → β) {l : List String} {a : String} (ha : a ∈ l) :
    (l.map fun a => (a, f a)).find? (fun entry => entry.1 = a) = some (a, f a) := by
  induction l with
  | nil => cases ha
  | cons b l ih =>
    rw [List.map_cons, List.find?_cons]
    by_cases hb : b = a
    · simp [hb]
    · have ha' : a ∈ l := (List.mem_cons.mp ha).resolve_left (Ne.symm hb)
      simp [hb, ih ha']

/-- The largest rank of a schedule that is looked up. -/
theorem maxRank_lookup {ranks : List Rank} {row : Rank} (hrow : row ∈ ranks) :
    (((insertMaxRanks ranks).find? fun entry => entry.1 = row.schedule).map Prod.snd).getD 0 =
      ((ranks.filter fun other => other.schedule = row.schedule).map Rank.rank).foldl max 0 := by
  have hmem : row.schedule ∈ (ranks.map Rank.schedule).dedup :=
    List.mem_dedup.mpr (List.mem_map_of_mem hrow)
  rw [insertMaxRanks, find?_map_pair _ hmem]
  rfl

/-- The table `ranks` after its update. -/
theorem updateRanks_eq :
    updateRanks (insertMaxRanks (rows.map fun row => { rankRow C rows row with maxRank := 0 }))
        (rows.map fun row => { rankRow C rows row with maxRank := 0 }) =
      rows.map (rankRow C rows) := by
  rw [updateRanks, List.map_map]
  refine List.map_congr_left ?_
  intro row hrow
  have hlookup := maxRank_lookup (List.mem_map_of_mem
    (f := fun row => { rankRow C rows row with maxRank := 0 }) hrow)
  refine (congrArg (fun m => { rankRow C rows row with maxRank := m }) hlookup).trans ?_
  refine congrArg (fun m => { rankRow C rows row with maxRank := m }) ?_
  -- the ranks of the schedule are those of its places
  show _ = ((places C rows row.schedule).map
    (rank (places C rows row.schedule))).foldl max 0
  rw [List.filter_map, List.map_map, places, List.map_map]
  refine congrArg (List.foldl max 0) (List.map_congr_left ?_)
  intro other hother
  have hschedule : other.schedule = row.schedule :=
    of_decide_eq_true (List.mem_filter.mp hother).2
  show rank (places C rows other.schedule) _ = _
  rw [hschedule]
  rfl

/-- A row is among the worst ones if it has been refused: its key is its own. -/
theorem mem_worst_iff {w : WithTop ℚ}
    (hw : ∀ row ∈ rows, ∀ q : ℚ, C.real row.average = some q → (q : WithTop ℚ) ≤ w)
    (hkeys : Keyed rows) {row : CsvRow} (hrow : row ∈ rows) :
    (row.submission, row.schedule) ∈ ((rows.map (stored C w)).filter
        fun row => row.average = .real (.ofTop (w + 1))).map
        (fun row => (row.submission, row.schedule)) ↔ place C row = Sum.inlₗ ⊤ := by
  rw [← standing_eq_worst_iff (place_mem_upTo hw hrow)]
  constructor
  · intro hmem
    obtain ⟨result, hresult, hkey⟩ := List.mem_map.mp hmem
    obtain ⟨hresult, hvalue⟩ := List.mem_filter.mp hresult
    obtain ⟨other, hother, rfl⟩ := List.mem_map.mp hresult
    obtain rfl : other = row := List.inj_on_of_nodup_map hkeys hother hrow hkey
    exact of_decide_eq_true hvalue
  · intro hvalue
    refine List.mem_map.mpr ⟨_, List.mem_filter.mpr ⟨List.mem_map_of_mem hrow, ?_⟩, rfl⟩
    exact decide_eq_true hvalue

theorem place_eq_top_iff {row : CsvRow} :
    place C row = Sum.inlₗ ⊤ ↔ C.float row.average = none := by
  cases reading C row with
  | refused hfloat => exact iff_of_true (place_of_refused hfloat) hfloat
  | converted q hfloat hreal =>
    rw [place_of_converted hreal, hfloat]
    exact iff_of_false nofun nofun
  | kept hkept =>
    rw [place_of_kept hkept]
    exact iff_of_false nofun hkept.1

/-- **The table `scores`** has one row for each row of the file. -/
theorem finalScores_eq (hkeys : Keyed rows) :
    finalScores C rows =
      rows.map fun row => ⟨row.submission, row.schedule, scoreOf C rows row⟩ := by
  obtain ⟨w, hmax, hw⟩ := exists_maxVal C rows
  unfold finalScores
  dsimp only
  rw [hmax, updateResults_eq hw, insertRanks_eq hw, updateRanks_eq, insertScores, updateScores,
    List.map_map, List.map_map, ExactDouble.ofTop_add_one]
  refine List.map_congr_left fun row hrow => ?_
  have hscore : (1 : ℚ) - ((rankRow C rows row).rank - 1) / ((rankRow C rows row).maxRank * 1) =
      rankScore (places C rows row.schedule) (place C row) := by
    rw [mul_one]
    rfl
  have hworst := (mem_worst_iff hw hkeys hrow).trans place_eq_top_iff
  by_cases hnone : C.float row.average = none
  · refine (if_pos (hworst.mpr hnone)).trans ?_
    rw [scoreOf, if_pos hnone]
    rfl
  · refine (if_neg fun h => hnone (hworst.mp h)).trans ?_
    rw [scoreOf, if_neg hnone, ← hscore]
    rfl

/-! ## Scores -/

/-- A run without an average scores nothing. -/
theorem scoreOf_of_refused {row : CsvRow} (hfloat : C.float row.average = none) :
    scoreOf C rows row = 0 := if_pos hfloat

theorem scoreOf_of_float {row : CsvRow} (hfloat : C.float row.average ≠ none) :
    scoreOf C rows row = rankScore (places C rows row.schedule) (place C row) := if_neg hfloat

/-- A run with an average always scores something, even as the last one. -/
theorem scoreOf_pos {row : CsvRow} (hrow : row ∈ rows) (hfloat : C.float row.average ≠ none) :
    0 < scoreOf C rows row := by
  rw [scoreOf_of_float hfloat]
  exact rankScore_pos (place_mem_places hrow)

theorem scoreOf_nonneg {row : CsvRow} (hrow : row ∈ rows) : 0 ≤ scoreOf C rows row := by
  by_cases hfloat : C.float row.average = none
  · exact (scoreOf_of_refused hfloat).ge
  · exact (scoreOf_pos hrow hfloat).le

/-- Nobody scores more than one on a schedule. -/
theorem scoreOf_le_one {row : CsvRow} : scoreOf C rows row ≤ 1 := by
  unfold scoreOf
  split
  · norm_num
  · exact rankScore_le_one

/-- A row in front of another one has the larger score. -/
theorem scoreOf_lt {row row' : CsvRow} (hrow : row ∈ rows) (hsame : row.schedule = row'.schedule)
    (hfloat : C.float row.average ≠ none) (hfloat' : C.float row'.average ≠ none)
    (hlt : place C row < place C row') : scoreOf C rows row' < scoreOf C rows row := by
  rw [scoreOf_of_float hfloat, scoreOf_of_float hfloat', ← hsame]
  exact rankScore_lt_rankScore (place_mem_places hrow) hlt

/-- Rows in the same place have the same score. -/
theorem scoreOf_eq {row row' : CsvRow} (hsame : row.schedule = row'.schedule)
    (hfloat : C.float row.average ≠ none) (hfloat' : C.float row'.average ≠ none)
    (heq : place C row = place C row') : scoreOf C rows row = scoreOf C rows row' := by
  rw [scoreOf_of_float hfloat, scoreOf_of_float hfloat', hsame, heq]

/-- The scores have the order of the places. -/
theorem scoreOf_lt_iff {row row' : CsvRow} (hrow : row ∈ rows) (hrow' : row' ∈ rows)
    (hsame : row.schedule = row'.schedule) (hfloat : C.float row.average ≠ none)
    (hfloat' : C.float row'.average ≠ none) :
    scoreOf C rows row' < scoreOf C rows row ↔ place C row < place C row' := by
  refine ⟨fun hlt => ?_, scoreOf_lt hrow hsame hfloat hfloat'⟩
  rcases lt_trichotomy (place C row) (place C row') with h | h | h
  · exact h
  · exact absurd (scoreOf_eq hsame hfloat hfloat' h) hlt.ne'
  · exact absurd (scoreOf_lt hrow' hsame.symm hfloat' hfloat h) hlt.asymm

/-- A row that has no other in front of it has the score 1. -/
theorem scoreOf_eq_one {row : CsvRow} (hfloat : C.float row.average ≠ none)
    (hfirst : ∀ row' ∈ rows, row'.schedule = row.schedule → place C row ≤ place C row') :
    scoreOf C rows row = 1 := by
  rw [scoreOf_of_float hfloat]
  refine rankScore_eq_one fun k hk => ?_
  obtain ⟨row', hmem, rfl⟩ := List.mem_map.mp hk
  obtain ⟨hrow', hschedule⟩ := List.mem_filter.mp hmem
  exact hfirst row' hrow' (of_decide_eq_true hschedule)

/-- A row that has another in front of it does not have the score 1, even if that one has been
refused. -/
theorem scoreOf_lt_one {row row' : CsvRow} (hrow' : row' ∈ rows)
    (hsame : row'.schedule = row.schedule) (hlt : place C row' < place C row) :
    scoreOf C rows row < 1 := by
  unfold scoreOf
  split
  · norm_num
  · have hmem : place C row' ∈ places C rows row.schedule := hsame ▸ place_mem_places hrow'
    exact (rankScore_lt_rankScore hmem hlt).trans_le rankScore_le_one

/-! ## Marks -/

variable (C rows) in
/-- The score of a submission on a schedule. -/
def cell (submission schedule : String) : ℚ :=
  ((rows.find? fun row => row.submission = submission ∧ row.schedule = schedule).map
    (scoreOf C rows)).getD 0

/-- With one row for each submission and schedule, the score that is looked up is that of the
row. -/
theorem cell_eq (hkeys : Keyed rows) {row : CsvRow} (hrow : row ∈ rows) :
    cell C rows row.submission row.schedule = scoreOf C rows row := by
  unfold cell
  cases hfind : rows.find? fun other =>
      other.submission = row.submission ∧ other.schedule = row.schedule with
  | none => exact absurd (List.find?_eq_none.mp hfind row hrow) (by simp)
  | some other =>
    have hkey : other.submission = row.submission ∧ other.schedule = row.schedule := by
      simpa using List.find?_some hfind
    have hsame : other = row := List.inj_on_of_nodup_map hkeys
      (List.mem_of_find?_eq_some hfind) hrow (Prod.ext hkey.1 hkey.2)
    rw [hsame]
    rfl

variable (rows) in
/-- The schedules of a submission. -/
def schedulesOf (submission : String) : List String :=
  (rows.filter fun row => row.submission = submission).map CsvRow.schedule

theorem schedulesOf_nodup (hkeys : Keyed rows) (submission : String) :
    (schedulesOf rows submission).Nodup := by
  have hsub := List.filter_sublist (p := fun row : CsvRow => row.submission = submission)
    (l := rows)
  have hkeys' : ((rows.filter fun row => row.submission = submission).map
      fun row => (row.submission, row.schedule)).Nodup := hkeys.sublist (hsub.map _)
  refine (List.nodup_map_iff_inj_on ((List.Nodup.of_map _ hkeys).sublist hsub)).mpr ?_
  intro row hrow row' hrow' hschedule
  have hsubmission : row.submission = row'.submission :=
    (of_decide_eq_true (List.mem_filter.mp hrow).2).trans
      (of_decide_eq_true (List.mem_filter.mp hrow').2).symm
  exact List.inj_on_of_nodup_map hkeys' hrow hrow' (Prod.ext hsubmission hschedule)

theorem mem_schedulesOf {submission schedule : String} :
    schedule ∈ schedulesOf rows submission ↔
      ∃ row ∈ rows, row.submission = submission ∧ row.schedule = schedule := by
  unfold schedulesOf
  simp only [List.mem_map, List.mem_filter, decide_eq_true_eq, and_assoc]

/-- All submissions have the same schedules. -/
theorem schedulesOf_perm (hgrid : Grid rows) {row row' : CsvRow} (hrow : row ∈ rows)
    (hrow' : row' ∈ rows) :
    (schedulesOf rows row.submission).Perm (schedulesOf rows row'.submission) := by
  refine (List.perm_ext_iff_of_nodup (schedulesOf_nodup hgrid.nodup _)
    (schedulesOf_nodup hgrid.nodup _)).mpr ?_
  intro schedule
  rw [mem_schedulesOf, mem_schedulesOf]
  constructor
  · rintro ⟨r, hr, -, rfl⟩
    exact hgrid.complete row' hrow' r hr
  · rintro ⟨r, hr, -, rfl⟩
    exact hgrid.complete row hrow r hr

/-- The scores of a submission, schedule by schedule. -/
theorem scores_of_submission (hkeys : Keyed rows) (submission : String) :
    ((finalScores C rows).filter fun row => row.submission = submission).map Score.score =
      (schedulesOf rows submission).map (cell C rows submission) := by
  rw [finalScores_eq hkeys, List.filter_map, List.map_map, schedulesOf, List.map_map]
  refine List.map_congr_left ?_
  intro row hrow
  obtain ⟨hmem, hsubmission⟩ := List.mem_filter.mp hrow
  obtain rfl : row.submission = submission := of_decide_eq_true hsubmission
  exact (cell_eq hkeys hmem).symm

/-- Rounding to one digit keeps the order of marks. -/
theorem round1_le_round1 {x y : ℚ} (hx : 0 ≤ x) (h : x ≤ y) : round1 x ≤ round1 y := by
  rw [round1, round1, if_pos hx, if_pos (hx.trans h)]
  have hfloor : (⌊x * 10 + 1 / 2⌋ : ℚ) ≤ ⌊y * 10 + 1 / 2⌋ :=
    Int.cast_le.mpr (Int.floor_mono (by linarith))
  exact div_le_div_of_nonneg_right hfloor (by norm_num)

/-- An average grows with its summands. -/
theorem avg_le_avg {α : Type} {l : List α} {f g : α → ℚ} (h : ∀ a ∈ l, f a ≤ g a) :
    avg (l.map f) ≤ avg (l.map g) := by
  rw [avg, avg, List.length_map, List.length_map]
  exact div_le_div_of_nonneg_right (List.sum_le_sum h) (Nat.cast_nonneg _)

theorem avg_nonneg {l : List ℚ} (h : ∀ q ∈ l, 0 ≤ q) : 0 ≤ avg l :=
  div_nonneg (List.sum_nonneg h) (Nat.cast_nonneg _)

theorem avg_perm {l l' : List ℚ} (h : l.Perm l') : avg l = avg l' := by
  rw [avg, avg, h.sum_eq, h.length_eq]

/-- What is printed is the mark of a submission of the file. -/
theorem mem_main (hkeys : Keyed rows) {maximum : Nat} {submission : String} {m : ℚ}
    (h : (submission, m) ∈ main C rows maximum) :
    (∃ row ∈ rows, row.submission = submission) ∧
      m = round1 (avg ((schedulesOf rows submission).map (cell C rows submission)) *
        maximum) := by
  obtain ⟨s, hs, hpair⟩ := List.mem_map.mp h
  obtain ⟨rfl, rfl⟩ := Prod.mk.inj hpair
  obtain ⟨score, hscore, rfl⟩ := List.mem_map.mp (List.mem_dedup.mp hs)
  rw [mark, scores_of_submission hkeys]
  rw [finalScores_eq hkeys] at hscore
  obtain ⟨row, hrow, rfl⟩ := List.mem_map.mp hscore
  exact ⟨⟨row, hrow, rfl⟩, rfl⟩

variable (C) in
/-- Each submission of the file is printed. -/
theorem mem_main_of_mem (hkeys : Keyed rows) (maximum : Nat) {row : CsvRow} (hrow : row ∈ rows) :
    (row.submission, mark (finalScores C rows) maximum row.submission) ∈
      main C rows maximum := by
  refine List.mem_map.mpr ⟨row.submission, List.mem_dedup.mpr ?_, rfl⟩
  rw [finalScores_eq hkeys, List.map_map]
  exact List.mem_map_of_mem (f := fun row => row.submission) hrow

/-- A submission whose scores are at least those of another one has at least its mark. -/
theorem mark_le_mark (hgrid : Grid rows) {maximum : Nat} {a b : String}
    (hscores : ∀ row ∈ rows, ∀ row' ∈ rows, row.submission = a → row'.submission = b →
      row.schedule = row'.schedule → scoreOf C rows row' ≤ scoreOf C rows row) {markA markB : ℚ}
    (hA : (a, markA) ∈ main C rows maximum) (hB : (b, markB) ∈ main C rows maximum) :
    markB ≤ markA := by
  obtain ⟨⟨rowA, hrowA, rfl⟩, rfl⟩ := mem_main hgrid.nodup hA
  obtain ⟨⟨rowB, hrowB, rfl⟩, rfl⟩ := mem_main hgrid.nodup hB
  -- both means are taken over the schedules of the second submission
  rw [avg_perm ((schedulesOf_perm hgrid hrowA hrowB).map (cell C rows rowA.submission))]
  have hcell : ∀ schedule ∈ schedulesOf rows rowB.submission,
      0 ≤ cell C rows rowB.submission schedule ∧
        cell C rows rowB.submission schedule ≤ cell C rows rowA.submission schedule := by
    intro schedule hschedule
    obtain ⟨r', hr', hb, rfl⟩ := mem_schedulesOf.mp hschedule
    obtain ⟨r, hr, ha, hsame⟩ := hgrid.complete rowA hrowA r' hr'
    rw [← hb, cell_eq hgrid.nodup hr', ← ha, ← hsame, cell_eq hgrid.nodup hr]
    exact ⟨scoreOf_nonneg hr', hscores r hr r' hr' ha hb hsame⟩
  have hnonneg : 0 ≤ avg ((schedulesOf rows rowB.submission).map
      (cell C rows rowB.submission)) := by
    refine avg_nonneg ?_
    intro q hq
    obtain ⟨schedule, hschedule, rfl⟩ := List.mem_map.mp hq
    exact (hcell schedule hschedule).1
  have hle := avg_le_avg fun schedule hschedule => (hcell schedule hschedule).2
  have hmaximum : (0 : ℚ) ≤ maximum := Nat.cast_nonneg maximum
  exact round1_le_round1 (mul_nonneg hnonneg hmaximum) (mul_le_mul_of_nonneg_right hle hmaximum)

end Tables

end Competition

end Cosc240
