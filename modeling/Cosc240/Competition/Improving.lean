import Cosc240.Competition.Fairness

/-!
# Improving never costs marks

A better average moves more than the rank of its own row: it can change the largest
rank of the schedule, and the average that stands for a refused row everywhere. The
second does not matter, since the scores see the places only (`scoreOf`). The first is a matter of
ranks (`rankScore_cons_le`). But the place of a row is not always that of its number.

- `Improves`: a row with a smaller number, or with one at all.
- `Improves.scoreOf_le`: a row that moves to the front, or had been refused, does not lose.
- `not_neverCosts`: one that moves to the back loses half of its score to a row in its old place.
- `neverCosts_iff`: so the mark never decreases, whatever the other rows are, if and only if the
  improved average is converted, or the old one was refused, or both are texts and have their order.
- `neverCosts_underscore`: written as `1_000`, an average of 1000 is behind one of 2000.
-/

namespace Cosc240

open Lib

namespace Competition

/-- `row'` is a better row in the place of `row`: valid, and with a smaller average if
`row` is valid too. -/
structure Improves (C : Conversions) (row row' : CsvRow) : Prop where
  submission : row'.submission = row.submission
  schedule : row'.schedule = row.schedule
  average : ∃ q', number C row' = some q' ∧ ∀ q, number C row = some q → q' < q

/-- **Improving never costs marks**: if `row` is replaced by `row'` and every other row stays, the
mark that is printed for the submission does not decrease, whatever the other rows and the
maximum are. -/
def NeverCosts (C : Conversions) (row row' : CsvRow) : Prop :=
  ∀ (l₁ l₂ : List CsvRow) (maximum : Nat) (before after : ℚ), Keyed (l₁ ++ row :: l₂) →
    (row.submission, before) ∈ main C (l₁ ++ row :: l₂) maximum →
    (row.submission, after) ∈ main C (l₁ ++ row' :: l₂) maximum → before ≤ after

section Replace

variable {C : Conversions} {l₁ l₂ : List CsvRow} {row row' : CsvRow}

/-! ## A row that does not move to the back -/

/-- The row has been refused, or the new one is in front of it. -/
def Forward (C : Conversions) (row row' : CsvRow) : Prop :=
  C.float row.average = none ∨ place C row' < place C row

theorem Improves.keyed (h : Improves C row row') (hkeys : Keyed (l₁ ++ row :: l₂)) :
    Keyed (l₁ ++ row' :: l₂) := by
  unfold Keyed at hkeys ⊢
  rw [List.map_append, List.map_cons] at hkeys ⊢
  rw [h.submission, h.schedule]
  exact hkeys

theorem Improves.schedulesOf_eq (h : Improves C row row') (submission : String) :
    schedulesOf (l₁ ++ row' :: l₂) submission = schedulesOf (l₁ ++ row :: l₂) submission := by
  unfold schedulesOf
  rw [List.filter_append, List.filter_append, List.filter_cons, List.filter_cons, h.submission]
  split
  · rw [List.map_append, List.map_append, List.map_cons, List.map_cons, h.schedule]
  · rfl

theorem Improves.float_ne_none (h : Improves C row row') : C.float row'.average ≠ none := by
  obtain ⟨q', hq', -⟩ := h.average
  exact float_ne_none_of_number hq'

/-- The places on the schedule of a row, one of which is its own. -/
theorem places_append_cons (C : Conversions) (l₁ l₂ : List CsvRow) (row : CsvRow) :
    (places C (l₁ ++ row :: l₂) row.schedule).Perm
      (place C row :: places C (l₁ ++ l₂) row.schedule) := by
  unfold places
  rw [List.filter_append, List.filter_cons, if_pos (decide_eq_true rfl), List.filter_append,
    List.map_append, List.map_cons, List.map_append]
  exact List.perm_middle

/-- The row itself does not lose. -/
theorem Improves.scoreOf_le (h : Improves C row row') (hforward : Forward C row row') :
    scoreOf C (l₁ ++ row :: l₂) row ≤ scoreOf C (l₁ ++ row' :: l₂) row' := by
  have hmem : row' ∈ l₁ ++ row' :: l₂ := List.mem_append_right _ List.mem_cons_self
  by_cases hfloat : C.float row.average = none
  · rw [scoreOf_of_refused hfloat]
    exact scoreOf_nonneg hmem
  · rw [scoreOf_of_float hfloat, scoreOf_of_float h.float_ne_none]
    -- the other places of the schedule are the same
    have hperm' := places_append_cons C l₁ l₂ row'
    rw [h.schedule] at hperm' ⊢
    rw [rankScore_perm (places_append_cons C l₁ l₂ row), rankScore_perm hperm']
    exact rankScore_cons_le _ (hforward.resolve_left hfloat)

/-- Rows of other schedules have the scores they had. -/
theorem Improves.scoreOf_eq (h : Improves C row row') {r : CsvRow}
    (hschedule : r.schedule ≠ row.schedule) :
    scoreOf C (l₁ ++ row' :: l₂) r = scoreOf C (l₁ ++ row :: l₂) r := by
  have hplaces : ∀ x : CsvRow, x.schedule = row.schedule →
      places C (l₁ ++ x :: l₂) r.schedule = places C (l₁ ++ l₂) r.schedule := by
    intro x hx
    unfold places
    rw [List.filter_append, List.filter_cons, List.filter_append,
      if_neg (by simpa [hx] using hschedule.symm)]
  rw [scoreOf, scoreOf, hplaces row rfl, hplaces row' h.schedule]

/-- Schedule by schedule, the submission does not lose. -/
theorem Improves.cell_le (h : Improves C row row') (hforward : Forward C row row')
    (hkeys : Keyed (l₁ ++ row :: l₂))
    {schedule : String} (hschedule : schedule ∈ schedulesOf (l₁ ++ row :: l₂) row.submission) :
    cell C (l₁ ++ row :: l₂) row.submission schedule ≤
      cell C (l₁ ++ row' :: l₂) row.submission schedule := by
  have hkeys' := h.keyed hkeys
  have hrow : ∀ r : CsvRow, r ∈ l₁ ++ r :: l₂ := fun _ =>
    List.mem_append_right _ List.mem_cons_self
  obtain ⟨r, hr, hsubmission, rfl⟩ := mem_schedulesOf.mp hschedule
  by_cases hsame : r.schedule = row.schedule
  · have hcell : cell C (l₁ ++ row :: l₂) row.submission row.schedule = _ :=
      cell_eq hkeys (hrow row)
    have hcell' : cell C (l₁ ++ row' :: l₂) row'.submission row'.schedule = _ :=
      cell_eq hkeys' (hrow row')
    rw [h.submission, h.schedule] at hcell'
    rw [hsame, hcell, hcell']
    exact h.scoreOf_le hforward
  · have hmem : r ∈ l₁ ++ l₂ := by
      rcases List.mem_append.mp hr with hr | hr
      · exact List.mem_append_left _ hr
      · rcases List.mem_cons.mp hr with rfl | hr
        · exact absurd rfl hsame
        · exact List.mem_append_right _ hr
    have hmem' : r ∈ l₁ ++ row' :: l₂ :=
      (List.Sublist.append_left (List.sublist_cons_self row' l₂) l₁).subset hmem
    rw [← hsubmission, cell_eq hkeys hr, cell_eq hkeys' hmem', h.scoreOf_eq hsame]

/-- A row that does not move to the back does not cost marks. -/
theorem Improves.neverCosts (h : Improves C row row') (hforward : Forward C row row') :
    NeverCosts C row row' := by
  intro l₁ l₂ maximum before after hkeys hbefore hafter
  obtain ⟨-, rfl⟩ := mem_main hkeys hbefore
  obtain ⟨-, rfl⟩ := mem_main (h.keyed hkeys) hafter
  rw [h.schedulesOf_eq]
  have hle := avg_le_avg fun schedule hschedule => h.cell_le hforward hkeys hschedule
  have hnonneg : 0 ≤ avg ((schedulesOf (l₁ ++ row :: l₂) row.submission).map
      (cell C (l₁ ++ row :: l₂) row.submission)) := by
    refine avg_nonneg ?_
    intro q hq
    obtain ⟨schedule, hschedule, rfl⟩ := List.mem_map.mp hq
    obtain ⟨r, hr, hsubmission, rfl⟩ := mem_schedulesOf.mp hschedule
    rw [← hsubmission, cell_eq hkeys hr]
    exact scoreOf_nonneg hr
  have hmaximum : (0 : ℚ) ≤ maximum := Nat.cast_nonneg maximum
  exact round1_le_round1 (mul_nonneg hnonneg hmaximum) (mul_le_mul_of_nonneg_right hle hmaximum)

/-! ## A row that moves to the back -/

/-- A row of another submission in the same place. -/
def rival (row : CsvRow) : CsvRow := { row with submission := row.submission.push 'x' }

theorem rival_schedule (row : CsvRow) : (rival row).schedule = row.schedule := rfl

theorem place_rival (C : Conversions) (row : CsvRow) : place C (rival row) = place C row := rfl

theorem rival_submission_ne (row : CsvRow) : (rival row).submission ≠ row.submission := by
  intro heq
  have hlength := congrArg (fun s : String => s.toList.length) heq
  simp [rival] at hlength

/-- The score of a row with one other row on its schedule. -/
theorem scoreOf_pair {other : CsvRow} (hfloat : C.float row.average ≠ none)
    (hsame : other.schedule = row.schedule) :
    scoreOf C [row, other] row = rankScore [place C row, place C other] (place C row) := by
  rw [scoreOf_of_float hfloat, places, List.filter_cons_of_pos (by simp),
    List.filter_cons_of_pos (by simpa using hsame)]
  rfl

/-- The mark of a submission with one row, which is on the same schedule as that of another. -/
theorem mark_pair {other : CsvRow} (hkeys : Keyed [row, other])
    (hne : other.submission ≠ row.submission) {maximum : Nat} {m : ℚ}
    (hm : (row.submission, m) ∈ main C [row, other] maximum) :
    m = round1 (scoreOf C [row, other] row * maximum) := by
  obtain ⟨-, rfl⟩ := mem_main hkeys hm
  have hschedules : schedulesOf [row, other] row.submission = [row.schedule] := by
    rw [schedulesOf, List.filter_cons_of_pos (by simp),
      List.filter_cons_of_neg (by simpa using hne)]
    rfl
  have hcell : cell C [row, other] row.submission row.schedule = _ :=
    cell_eq hkeys List.mem_cons_self
  rw [hschedules, List.map_singleton, hcell, avg, List.sum_singleton, List.length_singleton,
    Nat.cast_one, div_one]

/-- The second of two in a row has half of the score. -/
theorem rankScore_second {α : Type*} [LinearOrder α] {a b : α} (h : b < a) :
    rankScore [a, b] a = 1 / 2 := by
  have hrank : rank [a, b] a = 2 := by simp [rank, h]
  have hmax : maxRank [a, b] = 2 := by
    rw [maxRank_eq_rank List.mem_cons_self, hrank]
    simpa using h.le
  rw [rankScore, hrank, hmax]
  norm_num

/-- **A row that moves to the back** has cost half of the marks, if there is a rival. -/
theorem not_neverCosts (h : Improves C row row') (hfloat : C.float row.average ≠ none)
    (hback : place C row < place C row') : ¬ NeverCosts C row row' := by
  intro hnever
  have hkeys : Keyed ([] ++ row :: [rival row]) := by
    unfold Keyed
    simpa using fun heq => absurd heq.symm (rival_submission_ne row)
  have hkeys' := h.keyed hkeys
  have hbefore := mem_main_of_mem C hkeys 1 (List.mem_cons_self : row ∈ row :: _)
  have hafter := mem_main_of_mem C hkeys' 1 (List.mem_cons_self : row' ∈ row' :: _)
  have hne : (rival row).submission ≠ row'.submission := h.submission ▸ rival_submission_ne row
  rw [h.submission] at hafter
  have hle := hnever [] [rival row] 1 _ _ hkeys hbefore hafter
  rw [← h.submission] at hafter
  have hone : scoreOf C [row, rival row] row = 1 := by
    rw [scoreOf_pair hfloat (rival_schedule row), place_rival]
    exact rankScore_eq_one (by simp)
  have hhalf : scoreOf C [row', rival row] row' = 1 / 2 := by
    rw [scoreOf_pair h.float_ne_none ((rival_schedule row).trans h.schedule.symm), place_rival]
    exact rankScore_second hback
  have hround : round1 (1 / 2) = 1 / 2 := by decide +kernel
  have hround' : round1 1 = 1 := by decide +kernel
  rw [mark_pair hkeys (rival_submission_ne row) hbefore, ← h.submission,
    mark_pair hkeys' hne hafter, hone, hhalf, Nat.cast_one, mul_one, mul_one, hround,
    hround'] at hle
  norm_num at hle

/-! ## The texts -/

/-- Where an improved row moves to, from the texts of the two averages. -/
theorem Improves.forward_iff (h : Improves C row row') :
    Forward C row row' ↔ C.real row'.average ≠ none ∨ C.float row.average = none ∨
      (KeptAsText C row ∧ row'.average < row.average) := by
  obtain ⟨q', hq', hlt⟩ := h.average
  unfold Forward
  cases reading C row' with
  | refused hfloat' => exact absurd hfloat' h.float_ne_none
  | converted p' hfloat' hreal' =>
    obtain rfl := Option.some.inj ((number_of_converted hreal').symm.trans hq')
    refine iff_of_true ?_ (Or.inl (hreal' ▸ Option.some_ne_none p'))
    rw [place_of_converted hreal']
    cases reading C row with
    | refused hfloat => exact Or.inl hfloat
    | converted p hfloat hreal =>
      rw [place_of_converted hreal]
      have hp := hlt p (number_of_converted hreal)
      exact Or.inr (Sum.Lex.inl_lt_inl_iff.mpr (WithTop.coe_lt_coe.mpr hp))
    | kept hkept =>
      rw [place_of_kept hkept]
      exact Or.inr (Sum.Lex.inl_lt_inr _ _)
  | kept hkept' =>
    rw [place_of_kept hkept', or_iff_right (not_not_intro hkept'.2)]
    cases reading C row with
    | refused hfloat => exact iff_of_true (Or.inl hfloat) (Or.inl hfloat)
    | converted p hfloat hreal =>
      rw [place_of_converted hreal, hfloat]
      have hconverted : ¬ KeptAsText C row := fun hkept => by cases hkept.2.symm.trans hreal
      exact iff_of_false (by simp) (by simp [hconverted])
    | kept hkept =>
      rw [place_of_kept hkept, Sum.Lex.inr_lt_inr_iff, and_iff_right hkept]

/-- A row that does not move to the front moves to the back. -/
theorem Improves.lt_of_not_forward (h : Improves C row row') (hforward : ¬ Forward C row row') :
    C.float row.average ≠ none ∧ place C row < place C row' := by
  obtain ⟨hfloat, hle⟩ := not_or.mp hforward
  refine ⟨hfloat, lt_of_le_of_ne (not_lt.mp hle) fun heq => ?_⟩
  obtain ⟨q', hq', hlt⟩ := h.average
  -- rows in one place have one number
  have hnumber : number C row = number C row' := by
    cases reading C row with
    | refused hfloat' => exact absurd hfloat' hfloat
    | converted p hfloat' hreal =>
      rw [place_of_converted hreal] at heq
      cases reading C row' with
      | refused hfloat' => exact absurd hfloat' h.float_ne_none
      | converted p' _ hreal' =>
        rw [place_of_converted hreal'] at heq
        cases heq
        rw [number_of_converted hreal, number_of_converted hreal']
      | kept hkept' =>
        rw [place_of_kept hkept'] at heq
        cases heq
    | kept hkept =>
      rw [place_of_kept hkept] at heq
      cases reading C row' with
      | refused hfloat' => exact absurd hfloat' h.float_ne_none
      | converted p' _ hreal' =>
        rw [place_of_converted hreal'] at heq
        cases heq
      | kept hkept' =>
        rw [place_of_kept hkept'] at heq
        have htext : row.average = row'.average := Sum.inr.inj heq
        rw [number, number, htext]
  exact lt_irrefl q' (hlt q' (hnumber.trans hq'))

end Replace

/-- **When improving never costs marks.** Replacing a row by a better one never costs the submission
marks, whatever the other rows and the maximum are, if and only if the database converts the new
average, or `float` has refused the old one, or both are left as texts and the new one comes first
as a text, too. -/
theorem neverCosts_iff (C : Conversions) (row row' : CsvRow) (h : Improves C row row') :
    NeverCosts C row row' ↔ C.real row'.average ≠ none ∨ C.float row.average = none ∨
      (KeptAsText C row ∧ row'.average < row.average) := by
  rw [← h.forward_iff]
  refine ⟨fun hnever => ?_, h.neverCosts⟩
  by_contra hforward
  obtain ⟨hfloat, hback⟩ := h.lt_of_not_forward hforward
  exact not_neverCosts h hfloat hback hnever

/-- A submission that has failed gets an average. -/
theorem neverCosts_iff_four : NeverCosts asciiConversions ⟨"c", "s", "NULL"⟩ ⟨"c", "s", "4"⟩ := by
  refine (neverCosts_iff asciiConversions ⟨"c", "s", "NULL"⟩ ⟨"c", "s", "4"⟩ ?_).mpr ?_
  · exact ⟨rfl, rfl, 4, by decide +kernel,
      fun q hq => by cases hq.symm.trans (show number asciiConversions _ = none by decide +kernel)⟩
  · exact Or.inl (by decide +kernel)

/-- An average of 2000 becomes one of 1000, with an underscore, and costs half of the marks. -/
theorem neverCosts_underscore :
    Improves asciiConversions ⟨"a", "s", "2000"⟩ ⟨"a", "s", "1_000"⟩ ∧
      main asciiConversions [⟨"a", "s", "2000"⟩, ⟨"b", "s", "3000"⟩] 100 =
        [("a", 100), ("b", 50)] ∧
      main asciiConversions [⟨"a", "s", "1_000"⟩, ⟨"b", "s", "3000"⟩] 100 =
        [("a", 50), ("b", 100)] ∧
      ¬ NeverCosts asciiConversions ⟨"a", "s", "2000"⟩ ⟨"a", "s", "1_000"⟩ := by
  have himproves : Improves asciiConversions ⟨"a", "s", "2000"⟩ ⟨"a", "s", "1_000"⟩ := by
    refine ⟨rfl, rfl, 1000, by decide +kernel, fun q hq => ?_⟩
    have hold : number asciiConversions ⟨"a", "s", "2000"⟩ = some 2000 := by decide +kernel
    rw [Option.some.inj (hq.symm.trans hold)]
    norm_num
  have hbefore : main asciiConversions [⟨"a", "s", "2000"⟩, ⟨"b", "s", "3000"⟩] 100 =
      [("a", 100), ("b", 50)] := by decide +kernel
  have hafter : main asciiConversions [⟨"a", "s", "1_000"⟩, ⟨"b", "s", "3000"⟩] 100 =
      [("a", 50), ("b", 100)] := by decide +kernel
  refine ⟨himproves, hbefore, hafter, fun hnever => ?_⟩
  have hle := hnever [] [⟨"b", "s", "3000"⟩] 100 100 50 (by unfold Keyed; decide)
    (by rw [List.nil_append, hbefore]; exact List.mem_cons_self)
    (by rw [List.nil_append, hafter]; exact List.mem_cons_self)
  norm_num at hle

end Competition

end Cosc240
