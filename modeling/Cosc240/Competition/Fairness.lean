import Cosc240.Competition.Marks
import Mathlib.Data.Finset.Max

/-!
# When the competition is fair

The scores of `score_competition.py` are meant to order the submissions of a schedule by their
averages, with nothing for those that failed. Whether they do hangs on the averages that pass the
test with `float` and are not converted by the database.

- `Fair`: what the scores and the marks are for. An average counts as a number if `float` reads a
  finite one.
- `Harmless`: what has to be true of the averages that are left in the table as texts. It is, if
  there are none (`Harmless.of_not_kept`), as in every file that the script writes.
- `fair_iff`: the scores and the marks are fair if and only if the texts are harmless.
- `not_fair_nan`: with `nan` in the file they are not, although invalid floats should become `NULL`
  (score_competition.py:33).
-/

namespace Cosc240

open Lib

namespace Competition

/-! ## What the scores are for -/

section Fairness

variable (C : Conversions) (rows : List CsvRow)

/-- At least as good on one schedule: no larger an average, where an invalid one
is worse than any valid one. -/
def AtLeastAsGood (row row' : CsvRow) : Prop :=
  match number C row, number C row' with
  | some q, some q' => q ≤ q'
  | none, some _ => False
  | _, none => True

/-- Exactly the invalid rows score 0. A valid one scores more, and at most 1; on one schedule a
smaller average has the larger score, equal averages have equal scores, and the smallest one
scores 1. -/
structure ScoresRight (score : CsvRow → ℚ) : Prop where
  zero_iff : ∀ row ∈ rows, score row = 0 ↔ number C row = none
  valid : ∀ row ∈ rows, number C row ≠ none → 0 < score row ∧ score row ≤ 1
  smaller : ∀ row ∈ rows, ∀ row' ∈ rows, row.schedule = row'.schedule → ∀ q q',
    number C row = some q → number C row' = some q' → q < q' → score row' < score row
  equal : ∀ row ∈ rows, ∀ row' ∈ rows, row.schedule = row'.schedule → ∀ q,
    number C row = some q → number C row' = some q → score row = score row'
  smallest : ∀ row ∈ rows, ∀ q, number C row = some q →
    (∀ row' ∈ rows, row'.schedule = row.schedule → ∀ q', number C row' = some q' → q ≤ q') →
    score row = 1

/-- The scores are right, and a submission that is at least as good as another on every schedule
gets at least its mark, whatever the maximum is. -/
structure Fair : Prop where
  scores : ∃ score : CsvRow → ℚ,
    finalScores C rows = rows.map (fun row => ⟨row.submission, row.schedule, score row⟩) ∧
      ScoresRight C rows score
  marks : ∀ (maximum : Nat) (a b : String),
    (∀ row ∈ rows, ∀ row' ∈ rows, row.submission = a → row'.submission = b →
      row.schedule = row'.schedule → AtLeastAsGood C row row') →
    ∀ markA markB, (a, markA) ∈ main C rows maximum → (b, markB) ∈ main C rows maximum →
      markB ≤ markA

/-- The averages that are left in the table as texts do no harm. They are numbers, and on their
schedule they are larger than those that have been converted; as texts they have the order that
they have as numbers; and if some average of the schedule has been refused, then some other has
been converted, so that the first one is among these. -/
structure Harmless : Prop where
  number : ∀ row ∈ rows, KeptAsText C row → number C row ≠ none
  behind : ∀ row ∈ rows, ∀ other ∈ rows, other.schedule = row.schedule → KeptAsText C row →
    ∀ q q', Competition.number C row = some q → C.real other.average = some q' → q' < q
  order : ∀ row ∈ rows, ∀ other ∈ rows, other.schedule = row.schedule → KeptAsText C row →
    KeptAsText C other → ∀ q q', Competition.number C row = some q →
    Competition.number C other = some q' → (q < q' ↔ row.average < other.average)
  first : ∀ row ∈ rows, ∀ other ∈ rows, other.schedule = row.schedule → KeptAsText C row →
    C.float other.average = none →
    ∃ r ∈ rows, r.schedule = row.schedule ∧ C.real r.average ≠ none

variable {C rows}

/-- There are no such texts: each average has been refused or converted. -/
theorem Harmless.of_not_kept (h : ∀ row ∈ rows, ¬ KeptAsText C row) : Harmless C rows where
  number row hrow hkept := absurd hkept (h row hrow)
  behind row hrow _ _ _ hkept := absurd hkept (h row hrow)
  order row hrow _ _ _ hkept := absurd hkept (h row hrow)
  first row hrow _ _ _ hkept := absurd hkept (h row hrow)

theorem float_ne_none_of_number {row : CsvRow} {q : ℚ} (hq : number C row = some q) :
    C.float row.average ≠ none := by
  intro hfloat
  cases (number_of_refused hfloat).symm.trans hq

/-! ### Harmless texts -/

/-- A row without a number has been refused. -/
theorem Harmless.number_eq_none_iff (h : Harmless C rows) {row : CsvRow} (hrow : row ∈ rows) :
    Competition.number C row = none ↔ C.float row.average = none := by
  cases reading C row with
  | refused hfloat => exact iff_of_true (number_of_refused hfloat) hfloat
  | converted q hfloat hreal =>
    rw [number_of_converted hreal, hfloat]
    exact iff_of_false nofun nofun
  | kept hkept => exact iff_of_false (h.number row hrow hkept) hkept.1

/-- On one schedule the places have the order of the numbers. -/
theorem Harmless.place_lt (h : Harmless C rows) {row row' : CsvRow} (hrow : row ∈ rows)
    (hrow' : row' ∈ rows) (hsame : row.schedule = row'.schedule) {q q' : ℚ}
    (hq : Competition.number C row = some q) (hq' : Competition.number C row' = some q')
    (hlt : q < q') : place C row < place C row' := by
  cases reading C row with
  | refused hfloat => exact absurd hfloat (float_ne_none_of_number hq)
  | converted p hfloat hreal =>
    obtain rfl := Option.some.inj ((number_of_converted hreal).symm.trans hq)
    rw [place_of_converted hreal]
    cases reading C row' with
    | refused hfloat' => exact absurd hfloat' (float_ne_none_of_number hq')
    | converted p' hfloat' hreal' =>
      obtain rfl := Option.some.inj ((number_of_converted hreal').symm.trans hq')
      rw [place_of_converted hreal']
      exact Sum.Lex.inl_lt_inl_iff.mpr (WithTop.coe_lt_coe.mpr hlt)
    | kept hkept' =>
      rw [place_of_kept hkept']
      exact Sum.Lex.inl_lt_inr _ _
  | kept hkept =>
    cases reading C row' with
    | refused hfloat' => exact absurd hfloat' (float_ne_none_of_number hq')
    | converted p' hfloat' hreal' =>
      obtain rfl := Option.some.inj ((number_of_converted hreal').symm.trans hq')
      have hbehind := h.behind row hrow row' hrow' hsame.symm hkept q p' hq hreal'
      exact absurd hbehind hlt.asymm
    | kept hkept' =>
      rw [place_of_kept hkept, place_of_kept hkept']
      exact Sum.Lex.inr_lt_inr_iff.mpr
        ((h.order row hrow row' hrow' hsame.symm hkept hkept' q q' hq hq').mp hlt)

/-- On one schedule equal numbers are in the same place. -/
theorem Harmless.place_eq (h : Harmless C rows) {row row' : CsvRow} (hrow : row ∈ rows)
    (hrow' : row' ∈ rows) (hsame : row.schedule = row'.schedule) {q : ℚ}
    (hq : Competition.number C row = some q) (hq' : Competition.number C row' = some q) :
    place C row = place C row' := by
  cases reading C row with
  | refused hfloat => exact absurd hfloat (float_ne_none_of_number hq)
  | converted p hfloat hreal =>
    obtain rfl := Option.some.inj ((number_of_converted hreal).symm.trans hq)
    cases reading C row' with
    | refused hfloat' => exact absurd hfloat' (float_ne_none_of_number hq')
    | converted p' hfloat' hreal' =>
      obtain rfl := Option.some.inj ((number_of_converted hreal').symm.trans hq')
      rw [place_of_converted hreal, place_of_converted hreal']
    | kept hkept' =>
      exact absurd (h.behind row' hrow' row hrow hsame hkept' p p hq' hreal) (lt_irrefl p)
  | kept hkept =>
    cases reading C row' with
    | refused hfloat' => exact absurd hfloat' (float_ne_none_of_number hq')
    | converted p' hfloat' hreal' =>
      obtain rfl := Option.some.inj ((number_of_converted hreal').symm.trans hq')
      exact absurd (h.behind row hrow row' hrow' hsame.symm hkept p' p' hq hreal') (lt_irrefl p')
    | kept hkept' =>
      -- neither text is in front of the other
      have hle := (h.order row hrow row' hrow' hsame.symm hkept hkept' q q hq hq').not.mp
        (lt_irrefl q)
      have hle' := (h.order row' hrow' row hrow hsame hkept' hkept q q hq' hq).not.mp
        (lt_irrefl q)
      rw [place_of_kept hkept, place_of_kept hkept',
        le_antisymm (not_lt.mp hle') (not_lt.mp hle)]

/-- The smallest number of a schedule is in front of everything. -/
theorem Harmless.place_le (h : Harmless C rows) {row row' : CsvRow} (hrow : row ∈ rows)
    (hrow' : row' ∈ rows) (hsame : row'.schedule = row.schedule) {q : ℚ}
    (hq : Competition.number C row = some q)
    (hleast : ∀ r ∈ rows, r.schedule = row.schedule → ∀ q', Competition.number C r = some q' →
      q ≤ q') : place C row ≤ place C row' := by
  cases hq' : Competition.number C row' with
  | some q' =>
    rcases (hleast row' hrow' hsame q' hq').lt_or_eq with hlt | rfl
    · exact (h.place_lt hrow hrow' hsame.symm hq hq' hlt).le
    · exact (h.place_eq hrow hrow' hsame.symm hq hq').le
  | none =>
    have hfloat' := (h.number_eq_none_iff hrow').mp hq'
    rw [place_of_refused hfloat']
    cases reading C row with
    | refused hfloat => exact absurd hfloat (float_ne_none_of_number hq)
    | converted p hfloat hreal =>
      rw [place_of_converted hreal]
      exact Sum.Lex.inl_le_inl_iff.mpr le_top
    | kept hkept =>
      -- a smaller number has been converted
      obtain ⟨r, hr, hschedule, hsome⟩ := h.first row hrow row' hrow' hsame hkept hfloat'
      obtain ⟨p, hreal⟩ := Option.ne_none_iff_exists'.mp hsome
      have hlt := h.behind row hrow r hr hschedule hkept q p hq hreal
      exact absurd (hleast r hr hschedule p (number_of_converted hreal)) (not_le.mpr hlt)

theorem Harmless.scoresRight (h : Harmless C rows) : ScoresRight C rows (scoreOf C rows) where
  zero_iff row hrow := by
    rw [h.number_eq_none_iff hrow]
    refine ⟨fun hzero => ?_, scoreOf_of_refused⟩
    by_contra hfloat
    exact (scoreOf_pos hrow hfloat).ne' hzero
  valid row hrow hnumber :=
    ⟨scoreOf_pos hrow fun hfloat => hnumber (number_of_refused hfloat), scoreOf_le_one⟩
  smaller row hrow row' hrow' hsame q q' hq hq' hlt :=
    scoreOf_lt hrow hsame (float_ne_none_of_number hq) (float_ne_none_of_number hq')
      (h.place_lt hrow hrow' hsame hq hq' hlt)
  equal row hrow row' hrow' hsame q hq hq' :=
    scoreOf_eq hsame (float_ne_none_of_number hq) (float_ne_none_of_number hq')
      (h.place_eq hrow hrow' hsame hq hq')
  smallest row hrow q hq hleast :=
    scoreOf_eq_one (float_ne_none_of_number hq) fun row' hrow' hsame =>
      h.place_le hrow hrow' hsame hq hleast

/-- A row that is at least as good has at least the score. -/
theorem ScoresRight.le {score : CsvRow → ℚ} (h : ScoresRight C rows score) {row row' : CsvRow}
    (hrow : row ∈ rows) (hrow' : row' ∈ rows) (hsame : row.schedule = row'.schedule)
    (hgood : AtLeastAsGood C row row') : score row' ≤ score row := by
  have hnonneg : 0 ≤ score row := by
    by_cases hnumber : number C row = none
    · exact ((h.zero_iff row hrow).mpr hnumber).ge
    · exact (h.valid row hrow hnumber).1.le
  unfold AtLeastAsGood at hgood
  cases hq' : number C row' with
  | none =>
    rw [(h.zero_iff row' hrow').mpr hq']
    exact hnonneg
  | some q' =>
    cases hq : number C row with
    | none =>
      rw [hq, hq'] at hgood
      exact hgood.elim
    | some q =>
      rw [hq, hq'] at hgood
      rcases lt_or_eq_of_le hgood with hlt | rfl
      · exact (h.smaller row hrow row' hrow' hsame q q' hq hq' hlt).le
      · exact (h.equal row hrow row' hrow' hsame q hq hq').ge

/-- **Harmless texts** leave the competition fair. -/
theorem Harmless.fair (h : Harmless C rows) (hgrid : Grid rows) : Fair C rows where
  scores := ⟨scoreOf C rows, finalScores_eq hgrid.nodup, h.scoresRight⟩
  marks _ _ _ hgood _ _ hA hB :=
    mark_le_mark hgrid (fun row hrow row' hrow' ha hb hsame =>
      h.scoresRight.le hrow hrow' hsame (hgood row hrow row' hrow' ha hb hsame)) hA hB

/-! ### Texts that do harm -/

/-- The scores that the program computes are the ones that are right, if there are any. -/
theorem Fair.scoresRight (h : Fair C rows) (hkeys : Keyed rows) :
    ScoresRight C rows (scoreOf C rows) := by
  obtain ⟨score, htable, hright⟩ := h.scores
  have hscore : ∀ row ∈ rows, score row = scoreOf C rows row := by
    intro row hrow
    have heq := List.map_inj_left.mp (htable.symm.trans (finalScores_eq hkeys)) row hrow
    exact (Score.mk.inj heq).2.2
  constructor
  · intro row hrow
    rw [← hscore row hrow]
    exact hright.zero_iff row hrow
  · intro row hrow
    rw [← hscore row hrow]
    exact hright.valid row hrow
  · intro row hrow row' hrow'
    rw [← hscore row hrow, ← hscore row' hrow']
    exact hright.smaller row hrow row' hrow'
  · intro row hrow row' hrow'
    rw [← hscore row hrow, ← hscore row' hrow']
    exact hright.equal row hrow row' hrow'
  · intro row hrow
    rw [← hscore row hrow]
    exact hright.smallest row hrow

/-- If the scores are right, then on one schedule the numbers have the order of the places. -/
theorem ScoresRight.lt_of_place_lt (h : ScoresRight C rows (scoreOf C rows)) {row row' : CsvRow}
    (hrow : row ∈ rows) (hrow' : row' ∈ rows) (hsame : row.schedule = row'.schedule) {q q' : ℚ}
    (hq : number C row = some q) (hq' : number C row' = some q')
    (hlt : place C row < place C row') : q < q' := by
  have hscore :=
    scoreOf_lt hrow hsame (float_ne_none_of_number hq) (float_ne_none_of_number hq') hlt
  rcases lt_trichotomy q q' with h' | rfl | h'
  · exact h'
  · exact absurd (h.equal row hrow row' hrow' hsame q hq hq') hscore.ne'
  · exact absurd (h.smaller row' hrow' row hrow hsame.symm q' q hq' hq h') hscore.asymm

/-- The smallest of some numbers. -/
theorem exists_least {l : List CsvRow} {p : CsvRow → Prop} (h : ∃ row ∈ l, p row)
    (hnumber : ∀ row ∈ l, p row → number C row ≠ none) :
    ∃ row ∈ l, p row ∧ ∃ q, number C row = some q ∧
      ∀ r ∈ l, p r → ∀ q', number C r = some q' → q ≤ q' := by
  classical
  obtain ⟨row, hrow, hp⟩ := h
  obtain ⟨least, hleast, hmin⟩ := (l.filter p).toFinset.exists_min_image
    (fun r => (number C r).getD 0)
    ⟨row, List.mem_toFinset.mpr (List.mem_filter.mpr ⟨hrow, decide_eq_true hp⟩)⟩
  obtain ⟨hmem, hp'⟩ := List.mem_filter.mp (List.mem_toFinset.mp hleast)
  obtain ⟨q, hq⟩ := Option.ne_none_iff_exists'.mp (hnumber least hmem (of_decide_eq_true hp'))
  refine ⟨least, hmem, of_decide_eq_true hp', q, hq, fun r hr hpr q' hq' => ?_⟩
  have hle := hmin r (List.mem_toFinset.mpr (List.mem_filter.mpr ⟨hr, decide_eq_true hpr⟩))
  rw [hq, hq'] at hle
  exact hle

/-- **Only harmless texts** leave the scores right. -/
theorem ScoresRight.harmless (h : ScoresRight C rows (scoreOf C rows)) : Harmless C rows := by
  have hnumber : ∀ row ∈ rows, KeptAsText C row → number C row ≠ none := by
    intro row hrow hkept hnone
    exact (scoreOf_pos hrow hkept.1).ne' ((h.zero_iff row hrow).mpr hnone)
  refine ⟨hnumber, ?_, ?_, ?_⟩
  · intro row hrow other hother hsame hkept q q' hq hreal
    refine h.lt_of_place_lt hother hrow hsame (number_of_converted hreal) hq ?_
    rw [place_of_converted hreal, place_of_kept hkept]
    exact Sum.Lex.inl_lt_inr _ _
  · intro row hrow other hother hsame hkept hkept' q q' hq hq'
    have hplace : place C row < place C other ↔ row.average < other.average := by
      rw [place_of_kept hkept, place_of_kept hkept', Sum.Lex.inr_lt_inr_iff]
    rw [← hplace]
    refine ⟨fun hlt => ?_, h.lt_of_place_lt hrow hother hsame.symm hq hq'⟩
    exact (scoreOf_lt_iff hrow hother hsame.symm hkept.1 hkept'.1).mp
      (h.smaller row hrow other hother hsame.symm q q' hq hq' hlt)
  · intro row hrow other hother hsame hkept hfloat
    by_contra hnot
    -- then every valid row of the schedule is a text, and the smallest one is behind `other`
    obtain ⟨least, hmem, ⟨hschedule, hkept'⟩, q, hq, hleast⟩ :=
      exists_least (C := C) (p := fun r => r.schedule = row.schedule ∧ KeptAsText C r)
        ⟨row, hrow, rfl, hkept⟩ fun r hr hp => hnumber r hr hp.2
    have hone : scoreOf C rows least = 1 := by
      refine h.smallest least hmem q hq fun r hr hsame' q' hq' => ?_
      cases reading C r with
      | refused hfloat' => exact absurd hfloat' (float_ne_none_of_number hq')
      | converted p hfloat' hreal =>
        exact absurd ⟨r, hr, hsame'.trans hschedule, hreal ▸ Option.some_ne_none p⟩ hnot
      | kept hkept'' => exact hleast r hr ⟨hsame'.trans hschedule, hkept''⟩ q' hq'
    refine absurd hone (scoreOf_lt_one hother (hsame.trans hschedule.symm) ?_).ne
    rw [place_of_refused hfloat, place_of_kept hkept']
    exact Sum.Lex.inl_lt_inr _ _

end Fairness

/-- **When the competition is fair.** For a file with one row for each submission and schedule, the
scores and marks are what they should be if and only if the averages that are left in the table as
texts are harmless. -/
theorem fair_iff (C : Conversions) (rows : List CsvRow) (hgrid : Grid rows) :
    Fair C rows ↔ Harmless C rows :=
  ⟨fun h => (h.scoresRight hgrid.nodup).harmless, fun h => h.fair hgrid⟩

/-- Three submissions on one schedule, the last of which failed. -/
def threeRows : List CsvRow :=
  [⟨"a", "s", "2.5"⟩, ⟨"b", "s", "4"⟩, ⟨"c", "s", "NULL"⟩]

theorem threeRows_grid : Grid threeRows := ⟨by decide, by decide⟩

/-- The average of the last one is refused, and the others are converted. -/
theorem not_keptAsText_threeRows : ∀ row ∈ threeRows, ¬ KeptAsText asciiConversions row := by
  simp only [threeRows, List.forall_mem_cons, KeptAsText]
  refine ⟨?_, ?_, ?_, nofun⟩
  · rintro ⟨-, hreal⟩
    exact absurd hreal (by decide +kernel)
  · rintro ⟨-, hreal⟩
    exact absurd hreal (by decide +kernel)
  · rintro ⟨hfloat, -⟩
    exact hfloat (by decide +kernel)

theorem fair_iff_threeRows : Fair asciiConversions threeRows :=
  (fair_iff asciiConversions threeRows threeRows_grid).mpr
    (.of_not_kept not_keptAsText_threeRows)

/-- The same three, but the last average is `nan`. -/
def nanRows : List CsvRow :=
  [⟨"a", "s", "2.5"⟩, ⟨"b", "s", "4"⟩, ⟨"c", "s", "nan"⟩]

/-- The last submission has no average, and scores a third. -/
theorem not_fair_nan :
    Grid nanRows ∧ number asciiConversions ⟨"c", "s", "nan"⟩ = none ∧
      finalScores asciiConversions nanRows = [⟨"a", "s", 1⟩, ⟨"b", "s", 2 / 3⟩, ⟨"c", "s", 1 / 3⟩] ∧
      ¬ Fair asciiConversions nanRows := by
  have hgrid : Grid nanRows := ⟨by decide, by decide⟩
  have hnumber : number asciiConversions ⟨"c", "s", "nan"⟩ = none := by decide +kernel
  have hscores : finalScores asciiConversions nanRows =
      [⟨"a", "s", 1⟩, ⟨"b", "s", 2 / 3⟩, ⟨"c", "s", 1 / 3⟩] := by decide +kernel
  refine ⟨hgrid, hnumber, hscores, fun hfair => ?_⟩
  obtain ⟨score, htable, hright⟩ := hfair.scores
  rw [hscores] at htable
  have hzero := (hright.zero_iff ⟨"c", "s", "nan"⟩ (by decide)).mpr hnumber
  have hlast : (1 / 3 : ℚ) = score ⟨"c", "s", "nan"⟩ :=
    congrArg (fun l : List Score => (l.getD 2 ⟨"", "", 0⟩).score) htable
  rw [hzero] at hlast
  norm_num at hlast

end Competition

end Cosc240
