import Cosc240.Input.Read

/-!
# What `read_process_initial` looks at

The characters of `line` that the three calls of `strtoui` and the three tests of
`*end` examine (simulator.c:108–126), by their index in the array. Each call starts behind the
character at which the one before has stopped, and no test asks whether that was the NUL at
the end of the line.

- `examined`: the indices, in the order in which they are looked at. It is put together from
  `fieldExamines`, one call and the test behind it, and `testExamines`, a test that does not look at
  `*end` if `errno` is set.
- `ReadsOnlyLine`: only what `fgets` has stored is examined, nothing outside of the array is, and
  the pid does not depend on what was in the array before.
- `TwoDelimited`: in the text of the line a character follows the first field, and behind that
  character a second field, which some character follows as well.

Main results:

- `parseLine_eq_drop`: the pointers of `parseLine` as indices.
- `examined_append_nul` and `parseLine_append_nul`: if neither `end` is the NUL, the indices are
  those in the text alone, and so is what is read.
- `readsOnlyLine_iff`: nothing but the line is examined exactly if it is `TwoDelimited`.
- `readsOnlyLine_false`: the line `5` is not, and at the end of the file the pid is the old one.
-/

namespace Cosc240

open Lib

/-- The test `errno != 0 || *end != ..`, where `end` is `line + i`. -/
def testExamines (errno i : Nat) : List Nat := if errno ≠ 0 then [] else [i]

/-- The index of `end` behind the call `strtoui(line + start, &end, 10)`. -/
def fieldEnd (line : List Char) (start : Nat) : Nat := start + converted (line.drop start)

/-- The indices that this call and the test of `end` behind it examine. -/
def fieldExamines (line : List Char) (start errno : Nat) : List Nat :=
  let (_, _, errno) := strtoui (line.drop start) errno
  List.range' start (examines (line.drop start)) ++ testExamines errno (fieldEnd line start)

/-- The indices into `line` that are examined, in this order. -/
def examined (line : List Char) : List Nat :=
  -- pid
  let (_, _, errno₁) := strtoui line 0
  let end₁ := fieldEnd line 0
  -- arrival time
  let (_, _, errno₂) := strtoui (line.drop (end₁ + 1)) errno₁
  let end₂ := fieldEnd line (end₁ + 1)
  fieldExamines line 0 0 ++ fieldExamines line (end₁ + 1) errno₁ ++
    fieldExamines line (end₂ + 1) errno₂

/-- The array `line` behind the call of `fgets`, where `line` is what there was
before. -/
def lineAfter (line file : List Char) : List Char :=
  match fgets maxLineLength line file with
  | some (line, _) => line
  | none => line

/-- How many characters the call of `fgets` stores, the NUL included. -/
def stored (file : List Char) : Nat :=
  if file = [] then 0 else (readLine (maxLineLength - 1) file).1.length + 1

/-- Only what `fgets` has stored is examined, nothing outside of the array is, and
the pid does not depend on what was in the array before. -/
structure ReadsOnlyLine (file : List Char) : Prop where
  lt_stored : ∀ line, ∀ i ∈ examined (lineAfter line file), i < stored file
  lt_maxLineLength : ∀ line, ∀ i ∈ examined (lineAfter line file), i < maxLineLength
  pid_eq : ∀ line line',
    (readProcessInitial line file).1.pid = (readProcessInitial line' file).1.pid

/-- The field at the start of `f ++ rest`: the number there with all its digits, or
nothing where there is no number. -/
inductive Field : List Char → List Char → Prop
  | number (a : Numeral) {rest : List Char} (h : Stops Char.isDigit rest) : Field a.text rest
  | nothing {rest : List Char} (h : ∀ (a : Numeral) tail, rest ≠ a.text ++ tail) : Field [] rest

/-- In the text of the line a character follows the first field, and behind that
character a second field, which some character follows as well. -/
def TwoDelimited (file : List Char) : Prop :=
  ∃ f₁ c₁ f₂ c₂ rest, (readLine (maxLineLength - 1) file).1 = f₁ ++ c₁ :: (f₂ ++ c₂ :: rest) ∧
    Field f₁ (c₁ :: (f₂ ++ c₂ :: rest)) ∧ Field f₂ (c₂ :: rest)

/-! ## The indices are those of the pointers -/

/-- `endptr` is behind what has been converted. -/
theorem strtoui_endptr (s : List Char) (errno : Nat) :
    (strtoui s errno).2.1 = s.drop (converted s) := (drop_converted s).symm

/-- `parseLine` with its pointers as indices. -/
theorem parseLine_eq_drop (line : List Char) :
    let end₁ := fieldEnd line 0
    let end₂ := fieldEnd line (end₁ + 1)
    parseLine line =
      let (pid, endptr, errno) := strtoui line 0
      let pid := if errno ≠ 0 ∨ deref endptr ≠ ',' then 0 else pid
      let (arrivalTime, endptr, errno) := strtoui (line.drop (end₁ + 1)) errno
      let pid := if errno ≠ 0 ∨ deref endptr ≠ ',' then 0 else pid
      let (processingTime, endptr, errno) := strtoui (line.drop (end₂ + 1)) errno
      let pid := if errno ≠ 0 ∨ deref endptr ≠ '\n' then 0 else pid
      ⟨pid, processingTime, arrivalTime⟩ := by
  have htail : ∀ (start errno : Nat),
      (strtoui (line.drop start) errno).2.1.tail = line.drop (fieldEnd line start + 1) := by
    intro start errno
    rw [strtoui_endptr, List.drop_drop, List.tail_drop]
    rfl
  intro end₁ end₂
  have htail₁ := htail 0
  rw [List.drop_zero] at htail₁
  simp only [parseLine, htail₁, htail]
  rfl

/-! ## Fields -/

theorem Field.converted_eq {f rest : List Char} (h : Field f rest) :
    converted (f ++ rest) = f.length := by
  cases h with
  | number a h => exact converted_text a h
  | nothing h =>
    rw [List.nil_append, List.length_nil, converted]
    rcases strtoul_cases rest with hnone | ⟨a, tail, heq, -⟩
    · rw [hnone, Nat.sub_self]
    · exact absurd heq (h a tail)

/-- What `strtoul` converts is a field. -/
theorem field_converted (s : List Char) : Field (s.take (converted s)) (s.drop (converted s)) := by
  by_cases h : ∃ (a : Numeral) (rest : List Char), s = a.text ++ rest ∧ Stops Char.isDigit rest
  · obtain ⟨a, rest, rfl, hstops⟩ := h
    rw [converted_text a hstops, List.take_left, List.drop_left]
    exact .number a hstops
  · rcases strtoul_cases s with hnone | hnumber
    · rw [converted, hnone, Nat.sub_self, List.take_zero, List.drop_zero]
      refine .nothing ?_
      rintro a tail rfl
      exact h (exists_numeral_stops a tail)
    · exact absurd hnumber h

theorem twoDelimited_iff (file : List Char) :
    TwoDelimited file ↔
      let l := (readLine (maxLineLength - 1) file).1
      fieldEnd l 0 < l.length ∧ fieldEnd l (fieldEnd l 0 + 1) < l.length := by
  unfold TwoDelimited
  generalize (readLine (maxLineLength - 1) file).1 = l
  dsimp only
  constructor
  · rintro ⟨f₁, c₁, f₂, c₂, rest, rfl, hf₁, hf₂⟩
    have hfirst : fieldEnd (f₁ ++ c₁ :: (f₂ ++ c₂ :: rest)) 0 = f₁.length := by
      rw [fieldEnd, List.drop_zero, Nat.zero_add]
      exact hf₁.converted_eq
    have hdrop : (f₁ ++ c₁ :: (f₂ ++ c₂ :: rest)).drop (f₁.length + 1) = f₂ ++ c₂ :: rest := by
      rw [← List.drop_drop, List.drop_left]
      rfl
    rw [hfirst, fieldEnd, hdrop, hf₂.converted_eq]
    simp only [List.length_append, List.length_cons]
    omega
  · rintro ⟨hfirst, hsecond⟩
    have hcons : ∀ {start : Nat}, fieldEnd l start < l.length →
        ∃ f c, l.drop start = f ++ c :: l.drop (fieldEnd l start + 1) ∧
          Field f (c :: l.drop (fieldEnd l start + 1)) := by
      intro start hlt
      have hfield := field_converted (l.drop start)
      rw [List.drop_drop, show start + converted (l.drop start) = fieldEnd l start from rfl,
        List.drop_eq_getElem_cons hlt] at hfield
      refine ⟨_, _, ?_, hfield⟩
      have hsplit := List.take_append_drop (converted (l.drop start)) (l.drop start)
      rw [List.drop_drop, show start + converted (l.drop start) = fieldEnd l start from rfl,
        List.drop_eq_getElem_cons hlt] at hsplit
      exact hsplit.symm
    obtain ⟨f₁, c₁, hl, hf₁⟩ := hcons hfirst
    obtain ⟨f₂, c₂, hrest, hf₂⟩ := hcons hsecond
    rw [hrest] at hl hf₁
    exact ⟨f₁, c₁, f₂, c₂, _, hl, hf₁, hf₂⟩

/-! ## Behind the call of `fgets` -/

/-- Nothing behind the end of the string matters to `strtoul`. -/
theorem strtoui_append_nul (s tail : List Char) (errno : Nat) :
    strtoui (s ++ '\x00' :: tail) errno =
      ((strtoui s errno).1, (strtoui s errno).2.1 ++ '\x00' :: tail, (strtoui s errno).2.2) := by
  simp only [strtoui, strtoul_append_nul]

theorem deref_append_nul (s tail : List Char) : deref (s ++ '\x00' :: tail) = deref s := by
  cases s <;> rfl

section Line

variable {l : List Char}

theorem fieldEnd_append_nul {start : Nat} (h : start ≤ l.length) (tail : List Char) :
    fieldEnd (l ++ '\x00' :: tail) start = fieldEnd l start := by
  rw [fieldEnd, List.drop_append_of_le_length h, converted_append_nul]
  rfl

/-- Nor is it examined. -/
theorem fieldExamines_append_nul {start : Nat} (h : start ≤ l.length) (tail : List Char)
    (errno : Nat) :
    fieldExamines (l ++ '\x00' :: tail) start errno = fieldExamines l start errno := by
  simp only [fieldExamines, List.drop_append_of_le_length h, strtoui_append_nul,
    examines_append_nul, fieldEnd_append_nul h]

/-- If neither `end` is the NUL, the indices are those in the text alone, -/
theorem examined_append_nul (hfirst : fieldEnd l 0 < l.length)
    (hsecond : fieldEnd l (fieldEnd l 0 + 1) < l.length) (tail : List Char) :
    examined (l ++ '\x00' :: tail) = examined l := by
  simp only [examined, fieldEnd_append_nul (Nat.zero_le _), fieldEnd_append_nul hfirst,
    fieldExamines_append_nul (Nat.zero_le _), fieldExamines_append_nul hfirst,
    fieldExamines_append_nul hsecond, strtoui_append_nul, List.drop_append_of_le_length hfirst]

/-- and so is what is read. -/
theorem parseLine_append_nul (hfirst : fieldEnd l 0 < l.length)
    (hsecond : fieldEnd l (fieldEnd l 0 + 1) < l.length) (tail : List Char) :
    parseLine (l ++ '\x00' :: tail) = parseLine l := by
  rw [parseLine_eq_drop, parseLine_eq_drop]
  simp only [fieldEnd_append_nul (Nat.zero_le _), fieldEnd_append_nul hfirst, strtoui_append_nul,
    deref_append_nul, List.drop_append_of_le_length hfirst, List.drop_append_of_le_length hsecond]

theorem eq_of_mem_testExamines {errno i j : Nat} (h : j ∈ testExamines errno i) : j = i := by
  unfold testExamines at h
  split at h
  · cases h
  · exact List.mem_singleton.mp h

theorem start_mem_fieldExamines (line : List Char) (start errno : Nat) :
    start ∈ fieldExamines line start errno :=
  List.mem_append_left _ (List.mem_range'_1.mpr ⟨Nat.le_refl _, Nat.lt_add_of_pos_right
    (examines_pos _)⟩)

/-- No index is beyond the NUL, if the field starts in front of it or at it. -/
theorem lt_of_mem_fieldExamines {start errno i : Nat} (h : i ∈ fieldExamines l start errno)
    (hstart : start ≤ l.length) : i < l.length + 1 := by
  have hlength : (l.drop start).length = l.length - start := List.length_drop
  rcases List.mem_append.mp h with hmem | hmem
  · obtain ⟨-, hlt⟩ := List.mem_range'_1.mp hmem
    have hle := examines_le (l.drop start)
    omega
  · have hle := converted_le (l.drop start)
    rw [eq_of_mem_testExamines hmem, fieldEnd]
    omega

/-- If the first two fields end before the line does, nothing behind its NUL is examined. -/
theorem lt_of_mem_examined (hfirst : fieldEnd l 0 < l.length)
    (hsecond : fieldEnd l (fieldEnd l 0 + 1) < l.length) {i : Nat} (h : i ∈ examined l) :
    i < l.length + 1 := by
  rcases List.mem_append.mp h with h | h
  · rcases List.mem_append.mp h with h | h
    · exact lt_of_mem_fieldExamines h (Nat.zero_le _)
    · exact lt_of_mem_fieldExamines h hfirst
  · exact lt_of_mem_fieldExamines h hsecond

/-- The second and the third field start behind the `end` of the one before. -/
theorem fieldEnd_lt_of_examined {tail : List Char}
    (h : ∀ i ∈ examined (l ++ '\x00' :: tail), i < l.length + 1) :
    fieldEnd l 0 < l.length ∧ fieldEnd l (fieldEnd l 0 + 1) < l.length := by
  have hfirst : fieldEnd l 0 < l.length := by
    have hlt := h _ (List.mem_append_left _ (List.mem_append_right _
      (start_mem_fieldExamines _ _ _)))
    rw [fieldEnd_append_nul (Nat.zero_le _)] at hlt
    exact Nat.lt_of_succ_lt_succ hlt
  refine ⟨hfirst, ?_⟩
  have hlt := h _ (List.mem_append_right _ (start_mem_fieldExamines _ _ _))
  rw [fieldEnd_append_nul (Nat.zero_le _), fieldEnd_append_nul hfirst] at hlt
  exact Nat.lt_of_succ_lt_succ hlt

end Line

/-- What `fgets` leaves in the array, where it stores something. -/
theorem lineAfter_eq {file : List Char} (h : file ≠ []) (line : List Char) :
    ∃ tail, lineAfter line file = (readLine (maxLineLength - 1) file).1 ++ '\x00' :: tail := by
  rcases hread : readLine (maxLineLength - 1) file with ⟨l, rest⟩
  exact ⟨_, by rw [lineAfter, fgets_of_readLine h hread]⟩

/-- The process is parsed from the line buffer, whether `fgets` has filled it or not. -/
theorem readProcessInitial_fst (line file : List Char) :
    (readProcessInitial line file).1 = parseLine (lineAfter line file) := by
  unfold readProcessInitial lineAfter
  cases fgets maxLineLength line file <;> rfl

/-- **Nothing but the line is examined** exactly when neither of the first two fields
ends at the NUL. -/
theorem readsOnlyLine_iff (file : List Char) : ReadsOnlyLine file ↔ TwoDelimited file := by
  rw [twoDelimited_iff]
  by_cases hnil : file = []
  · subst hnil
    constructor
    · intro h
      have hlt := h.lt_stored [] 0
        (List.mem_append_left _ (List.mem_append_left _ (start_mem_fieldExamines _ _ _)))
      exact absurd hlt (Nat.not_lt_zero 0)
    · rintro ⟨hfirst, -⟩
      exact absurd hfirst (Nat.not_lt_zero _)
  have hstored : stored file = (readLine (maxLineLength - 1) file).1.length + 1 := if_neg hnil
  have hle := readLine_length_le (maxLineLength - 1) file
  constructor
  · intro h
    obtain ⟨tail, htail⟩ := lineAfter_eq hnil []
    have hlt := h.lt_stored []
    rw [htail, hstored] at hlt
    exact fieldEnd_lt_of_examined hlt
  · rintro ⟨hfirst, hsecond⟩
    have hlt : ∀ line, ∀ i ∈ examined (lineAfter line file), i < stored file := by
      intro line i hi
      obtain ⟨tail, htail⟩ := lineAfter_eq hnil line
      rw [htail, examined_append_nul hfirst hsecond] at hi
      rw [hstored]
      exact lt_of_mem_examined hfirst hsecond hi
    refine ⟨hlt, fun line i hi => ?_, fun line line' => ?_⟩
    · have hlt' := hlt line i hi
      rw [hstored] at hlt'
      exact Nat.lt_of_lt_of_le hlt' (Nat.succ_le_succ hle)
    · obtain ⟨tail, htail⟩ := lineAfter_eq hnil line
      obtain ⟨tail', htail'⟩ := lineAfter_eq hnil line'
      rw [readProcessInitial_fst, readProcessInitial_fst, htail, htail',
        parseLine_append_nul hfirst hsecond, parseLine_append_nul hfirst hsecond]

/-- The line `5`: the third call of `strtoui` starts behind the NUL. At the end of
the file the pid is that of whatever the array held. -/
theorem readsOnlyLine_false :
    3 ∈ examined (lineAfter [] ['5', '\n']) ∧ stored ['5', '\n'] = 3 ∧
      (readProcessInitial "7,0,1\n".toList []).1.pid = 7 ∧
      (readProcessInitial [] []).1.pid = 0 ∧ ¬ ∀ file, ReadsOnlyLine file := by
  have hmem : 3 ∈ examined (lineAfter [] ['5', '\n']) := by decide
  have hstored : stored ['5', '\n'] = 3 := by decide
  refine ⟨hmem, hstored, by decide, by decide, fun h => ?_⟩
  exact absurd ((h ['5', '\n']).lt_stored [] 3 hmem) (by rw [hstored]; decide)

end Cosc240
