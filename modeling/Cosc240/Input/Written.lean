import Cosc240.Input.Accept
import Mathlib.Data.List.Forall2

/-!
# The documented format

`Written` is the format of the schedule file as readme.md:29–50 describes it: the
number of processes on a line, then as many lines of three numbers. It is a statement about
characters, without a word about how they are read.

- `Digits`: a run of decimal digits that is not empty. `WrittenLine`: three of them with single
  commas between them and a newline at the end.
- `ProcessLine.Plain`: a line, as `main` reads it, that consists of digits only.
- `Strict`: a reading that stands in the file as it is: digits, a newline, and plain lines, all of
  them from the file.

The module relates the format to what `main` (simulator.c:337–391) reads:

- `main_ok_iff_of_written`: a file in the format whose lines fit the buffer is
  accepted exactly if every pid is below `MAX_PID`;
- `Reading.strict_of_written`: a file in the format is read as it stands;
- `Reading.written_of_strict`: a file that is read as it stands is in the format.

Each of them goes from the front of the file to its end, and rests on what delimits a run of digits:
`Digits.unique` and `line_unique`.
-/

namespace Cosc240

open Lib

/-- A non-empty run of decimal digits. -/
structure Digits (l : List Char) : Prop where
  ne_nil : l ≠ []
  isDigit : ∀ c ∈ l, c.isDigit

/-- A process line: three runs of digits, single commas, a newline. -/
inductive WrittenLine : List Char → ProcessInitial → Prop
  | mk {pid arrivalTime processingTime : List Char} (hpid : Digits pid)
      (harrival : Digits arrivalTime) (hprocessing : Digits processingTime) :
      WrittenLine (pid ++ ',' :: (arrivalTime ++ ',' :: (processingTime ++ ['\n'])))
        ⟨decimal pid, decimal processingTime, decimal arrivalTime⟩

/-- A file that starts with the number of processes and their lines. -/
structure Written (file : List Char) (lines : List (List Char)) (ps : List ProcessInitial) :
    Prop where
  file_eq : ∃ number rest, Digits number ∧ decimal number = lines.length ∧
    file = number ++ '\n' :: (lines.flatten ++ rest)
  length_pos : 1 ≤ lines.length
  length_le : lines.length ≤ 999999
  lines : List.Forall₂ WrittenLine lines ps
  pids_nodup : (ps.map ProcessInitial.pid).Nodup
  pid_pos : ∀ p ∈ ps, 1 ≤ p.pid
  arrivalTime_lt : ∀ p ∈ ps, p.arrivalTime < 1000000
  processingTime_pos : ∀ p ∈ ps, 1 ≤ p.processingTime
  processingTime_le : ∀ p ∈ ps, p.processingTime ≤ 999999

/-- The rows of a table in which nothing has been processed. -/
def startRows (ps : List ProcessInitial) : List ProcessStats := ps.map fun p => ⟨p, 0, 0⟩

/-! ## Runs of digits -/

namespace Digits

variable {l s t : List Char}

/-- A run of digits as a numeral. -/
def numeral (h : Digits l) : Numeral := .ofDigits l h.isDigit h.ne_nil

theorem numeral_value (h : Digits l) (hle : decimal l ≤ ulongMax) :
    h.numeral.value = decimal l := by
  show ulong none l = decimal l
  rw [ulong, if_neg (Nat.not_lt.mpr hle), if_neg (by simp)]

/-- The run in front of something else is all there is of it. -/
theorem unique (hl : Digits l) {a : Numeral} (hs : Stops Char.isDigit s)
    (ht : Stops Char.isDigit t) (h : a.text ++ s = l ++ t) : a.text = l ∧ s = t :=
  text_unique (b := hl.numeral) hs ht h

theorem head (h : Digits l) (s : List Char) : ∃ c ∈ (l ++ s).head?, c.isDigit := by
  obtain ⟨c, l', rfl⟩ := List.exists_cons_of_ne_nil h.ne_nil
  exact ⟨c, rfl, h.isDigit c List.mem_cons_self⟩

theorem stops_isspace (h : Digits l) (s : List Char) : Stops isspace (l ++ s) := by
  obtain ⟨c, l', rfl⟩ := List.exists_cons_of_ne_nil h.ne_nil
  exact stops_cons (isspace_of_isDigit (h.isDigit c List.mem_cons_self))

theorem of_plain {a : Numeral} (h : a.Plain) : Digits a.text := by
  rw [h.text_eq]
  exact ⟨a.digits_ne_nil, a.digits_isDigit⟩

theorem newline_not_mem (h : Digits l) : '\n' ∉ l := by
  intro hmem
  have hdigit := h.isDigit _ hmem
  cases hdigit

end Digits

theorem stops_comma (s : List Char) : Stops Char.isDigit (',' :: s) := stops_cons (by decide)

theorem stops_newline (s : List Char) : Stops Char.isDigit ('\n' :: s) := stops_cons (by decide)

/-! ## Lines -/

/-- Nothing but three runs of digits. -/
structure ProcessLine.Plain (r : ProcessLine) : Prop where
  pid : r.pid.Plain
  arrivalTime : ∃ a, r.arrivalTime = some a ∧ a.Plain
  processingTime : r.processingTime.Plain

theorem Admitted.value_lt {r : ProcessLine} (h : Admitted r.initial) :
    r.pid.value < ulongMax ∧ fieldValue r.arrivalTime < ulongMax ∧
      r.processingTime.value < ulongMax := by
  have hfits := h.fits
  have hlt : intMax < ulongMax := by decide
  exact ⟨hfits.pid.trans_lt hlt, hfits.arrivalTime.trans_lt hlt, hfits.processingTime.trans_lt hlt⟩

/-- A plain line is in the format. -/
theorem ProcessLine.Plain.written {r : ProcessLine} (h : r.Plain) (hr : Admitted r.initial) :
    WrittenLine r.text r.initial := by
  obtain ⟨hpid, harrival, hprocessing⟩ := hr.value_lt
  obtain ⟨a, ha, hplain⟩ := h.arrivalTime
  rw [ha] at harrival
  have hline := WrittenLine.mk (Digits.of_plain h.pid) (Digits.of_plain hplain)
    (Digits.of_plain h.processingTime)
  have hinitial : r.initial =
      ⟨decimal r.pid.text, decimal r.processingTime.text, decimal a.text⟩ := by
    rw [ProcessLine.initial, ha, h.pid.text_eq, hplain.text_eq, h.processingTime.text_eq,
      ← h.pid.value_eq hpid, ← hplain.value_eq harrival, ← h.processingTime.value_eq hprocessing]
    rfl
  have htext := r.text_append []
  rw [List.append_nil, ha] at htext
  rw [hinitial, htext]
  exact hline

/-- The text before the newline of a line in the format. -/
theorem WrittenLine.exists_body {l : List Char} {p : ProcessInitial} (h : WrittenLine l p) :
    ∃ body, '\n' ∉ body ∧ l = body ++ ['\n'] := by
  cases h with
  | @mk pid arrivalTime processingTime hpid harrival hprocessing =>
    refine ⟨pid ++ ',' :: (arrivalTime ++ ',' :: processingTime), ?_, by simp⟩
    simp [hpid.newline_not_mem, harrival.newline_not_mem, hprocessing.newline_not_mem]

theorem WrittenLine.head {l : List Char} {p : ProcessInitial} (h : WrittenLine l p)
    (s : List Char) : Stops isspace (l ++ s) := by
  cases h with
  | mk hpid _ _ =>
    rw [List.append_assoc]
    exact hpid.stops_isspace _

/-- A line in the format is taken, if it fits the buffer. -/
theorem WrittenLine.exists_processLine {l : List Char} {p : ProcessInitial} (h : WrittenLine l p)
    (hp : Admitted p) (hlength : l.length < maxLineLength) :
    ∃ r : ProcessLine, r.initial = p ∧
      ∀ line rest, Takes line (l ++ rest) r rest := by
  obtain ⟨body, hbody, hl⟩ := h.exists_body
  cases h with
  | @mk pid arrivalTime processingTime hpid harrival hprocessing =>
    let r : ProcessLine := ⟨hpid.numeral, some harrival.numeral, hprocessing.numeral⟩
    have hle : ∀ {n}, n < timeout → n ≤ ulongMax := fun h => h.le.trans (by decide)
    have hpid' : decimal pid ≤ ulongMax := hp.pid_lt.le.trans (by decide)
    have hinitial : r.initial =
        ⟨decimal pid, decimal processingTime, decimal arrivalTime⟩ := by
      show (⟨hpid.numeral.value, hprocessing.numeral.value, harrival.numeral.value⟩ :
        ProcessInitial) = _
      rw [hpid.numeral_value hpid', harrival.numeral_value (hle hp.arrivalTime_lt),
        hprocessing.numeral_value (hle hp.processingTime_lt)]
    have htext : r.text = pid ++ ',' :: (arrivalTime ++ ',' :: (processingTime ++ ['\n'])) := by
      have h := r.text_append []
      rwa [List.append_nil] at h
    refine ⟨r, hinitial, fun line rest => ?_⟩
    rw [← htext] at hl hlength ⊢
    refine .file r rest ?_ hlength
    rw [ProcessLine.text] at hl
    rwa [List.append_cancel_right hl]

/-- The first newline ends the line. -/
theorem line_unique {l l' s t : List Char} (hl : '\n' ∉ l) (hl' : '\n' ∉ l')
    (h : l ++ '\n' :: s = l' ++ '\n' :: t) : l = l' ∧ s = t := by
  have hmem : ∀ {l : List Char}, '\n' ∉ l → ∀ c ∈ l, (c != '\n') = true := by
    intro l hl c hc
    rw [bne_iff_ne]
    rintro rfl
    exact hl hc
  have hstops : ∀ s : List Char, Stops (· != '\n') ('\n' :: s) := fun s => stops_cons (by decide)
  have heq := congrArg (List.takeWhile (· != '\n')) h
  rw [takeWhile_of_stops (hmem hl) (hstops s), takeWhile_of_stops (hmem hl') (hstops t)] at heq
  subst heq
  exact ⟨rfl, (List.cons.inj (List.append_cancel_left h)).2⟩

/-- A line in the format is taken as it stands. -/
theorem WrittenLine.plain_of_takes {l line rest rest' : List Char} {p : ProcessInitial}
    {r : ProcessLine} (h : WrittenLine l p) (htakes : Takes line (l ++ rest) r rest') :
    r.Plain ∧ r.text = l ∧ rest' = rest := by
  obtain ⟨body, hbody, hl⟩ := h.exists_body
  generalize hfile : l ++ rest = file at htakes
  cases htakes with
  | memory r tail _ => simp [hl] at hfile
  | file r rest' hline _ =>
    rw [hl, ProcessLine.text, List.append_assoc, List.append_assoc] at hfile
    obtain ⟨rfl, rfl⟩ := line_unique hbody hline hfile
    have htext : r.text = l := hl.symm
    refine ⟨?_, htext, rfl⟩
    cases h with
    | @mk pid arrivalTime processingTime hpid harrival hprocessing =>
      -- field by field: a run of digits up to the next comma
      have hfields := r.text_append []
      rw [List.append_nil, htext] at hfields
      obtain ⟨hpid', hfields⟩ := hpid.unique (stops_comma _) (stops_comma _) hfields.symm
      have harrival' : ∃ a, r.arrivalTime = some a := by
        cases hfield : r.arrivalTime with
        | some a => exact ⟨a, rfl⟩
        | none =>
          rw [hfield, List.cons.injEq] at hfields
          obtain ⟨c, hc, hdigit⟩ := harrival.head (',' :: (processingTime ++ ['\n']))
          rw [← hfields.2] at hc
          cases hc
          cases hdigit
      obtain ⟨a, ha⟩ := harrival'
      rw [ha, List.cons.injEq] at hfields
      obtain ⟨ha', hfields⟩ := harrival.unique (stops_comma _) (stops_comma _) hfields.2
      rw [List.cons.injEq] at hfields
      obtain ⟨hprocessing', -⟩ :=
        hprocessing.unique (stops_newline _) (stops_newline _) hfields.2
      refine ⟨?_, ⟨a, ha, ?_⟩, ?_⟩
      · exact Numeral.plain_of_text (hpid' ▸ hpid.isDigit)
      · exact Numeral.plain_of_text (ha' ▸ harrival.isDigit)
      · exact Numeral.plain_of_text (hprocessing' ▸ hprocessing.isDigit)

/-! ## Files -/

/-- A file that is read as it stands: digits, a newline, and plain lines, all of
them from the file. -/
structure Strict (file body : List Char) (lines : List ProcessLine) : Prop where
  header : ∃ number, Digits number ∧ decimal number = lines.length ∧
    file = number ++ '\n' :: body
  plain : ∀ r ∈ lines, r.Plain
  in_file : ∃ rest, body = (lines.map ProcessLine.text).flatten ++ rest

theorem Digits.leading {number s : List Char} (h : Digits number) (hle : decimal number ≤ ulongMax)
    (hs : Stops isspace s) : Leading (number ++ '\n' :: s) (some (decimal number)) s := by
  have hgap : ∀ c ∈ ['\n'], isspace c := List.forall_mem_singleton.mpr rfl
  have hleading := Leading.number h.numeral ['\n'] hgap (stops_newline s) hs
  rwa [h.numeral_value hle] at hleading

theorem Written.pos {file : List Char} {lines : List (List Char)} {ps : List ProcessInitial}
    (h : Written file lines ps) : lines ≠ [] := List.ne_nil_of_length_pos h.length_pos

/-- Behind the number and its newline comes a digit. -/
theorem Written.stops_isspace {file : List Char} {lines : List (List Char)}
    {ps : List ProcessInitial} (h : Written file lines ps) (rest : List Char) :
    Stops isspace (lines.flatten ++ rest) := by
  have hlines := h.lines
  have hne := h.pos
  cases hlines with
  | nil => exact absurd rfl hne
  | cons hl _ =>
    rw [List.flatten_cons, List.append_assoc]
    exact hl.head _

section Lines

variable {memory : Memory} {line : Nat → List Char} {ls : List (List Char)}
  {ps : List ProcessInitial}

/-- Lines in the format are taken, if they fit the buffer. -/
theorem exists_takesAll_of_written (h : List.Forall₂ WrittenLine ls ps)
    (hadmitted : ∀ p ∈ ps, Admitted p) (hlength : ∀ l ∈ ls, l.length < maxLineLength) (i : Nat)
    (rest : List Char) :
    ∃ rs, rs.map ProcessLine.initial = ps ∧ TakesAll line i (ls.flatten ++ rest) rs := by
  induction h generalizing i with
  | nil => exact ⟨[], rfl, .nil i _⟩
  | @cons l p ls ps hl _ ih =>
    obtain ⟨r, hr, htakes⟩ :=
      hl.exists_processLine (hadmitted p List.mem_cons_self) (hlength l List.mem_cons_self)
    obtain ⟨rs, hrs, hall⟩ := ih (fun p hp => hadmitted p (List.mem_cons_of_mem _ hp))
      (fun l hl => hlength l (List.mem_cons_of_mem _ hl)) (i + 1)
    refine ⟨r :: rs, by rw [List.map_cons, hr, hrs], ?_⟩
    rw [List.flatten_cons, List.append_assoc]
    exact .cons (htakes _ _) hall

/-- Lines in the format are taken as they stand. -/
theorem plain_of_takesAll {rs : List ProcessLine} {i : Nat} {rest : List Char}
    (h : List.Forall₂ WrittenLine ls ps) (hlength : rs.length = ls.length)
    (htakes : TakesAll line i (ls.flatten ++ rest) rs) :
    (∀ r ∈ rs, r.Plain) ∧ rs.map ProcessLine.text = ls := by
  induction h generalizing i rs with
  | nil =>
    rw [List.length_eq_zero_iff.mp hlength]
    exact ⟨(fun r hr => by cases hr), rfl⟩
  | @cons l p ls ps hl _ ih =>
    rw [List.flatten_cons, List.append_assoc] at htakes
    cases htakes with
    | nil => cases hlength
    | cons hr hrest =>
      obtain ⟨hplain, htext, rfl⟩ := hl.plain_of_takes hr
      obtain ⟨hplains, htexts⟩ := ih (Nat.succ.inj hlength) hrest
      exact ⟨List.forall_mem_cons.mpr ⟨hplain, hplains⟩, by rw [List.map_cons, htext, htexts]⟩

/-- **A file in the format** whose lines fit the buffer is accepted with exactly the
processes that are written there, if and only if every pid is below `MAX_PID`. -/
theorem main_ok_iff_of_written {file : List Char} (h : Written file ls ps)
    (hlength : ∀ l ∈ ls, l.length < maxLineLength) :
    main memory file = .ok (startRows ps) ↔ ∀ p ∈ ps, p.pid < maxPid := by
  constructor
  · intro hmain p hp
    obtain ⟨body, lines, hreading, htable⟩ := main_ok_iff.mp hmain
    have hrow : (⟨p, 0, 0⟩ : ProcessStats) ∈ lines.map ProcessLine.stats :=
      htable ▸ List.mem_map_of_mem hp
    obtain ⟨r, hr, hstats⟩ := List.mem_map.mp hrow
    have hinitial : r.initial = p := congrArg ProcessStats.initial hstats
    exact hinitial ▸ (hreading.admitted r hr).pid_lt
  · intro hpid
    obtain ⟨number, rest, hnumber, hn, rfl⟩ := h.file_eq
    have hle := h.length_le
    have hadmitted : ∀ p ∈ ps, Admitted p := fun p hp =>
      ⟨h.pid_pos p hp, hpid p hp, h.arrivalTime_lt p hp, h.processingTime_pos p hp,
        Nat.lt_succ_of_le (h.processingTime_le p hp)⟩
    obtain ⟨rs, rfl, htakes⟩ : ∃ rs, rs.map ProcessLine.initial = ps ∧
        TakesAll memory.line 0 (ls.flatten ++ rest) rs :=
      exists_takesAll_of_written h.lines hadmitted hlength 0 rest
    have hrs : rs.length = ls.length := by rw [h.lines.length_eq, List.length_map]
    have hlt : decimal number ≤ ulongMax := by
      rw [hn]
      exact hle.trans (by decide)
    have hlen : rs.length = toUInt (decimal number) := by
      rw [hrs, hn, toUInt_of_le (hle.trans (by decide))]
    refine main_ok_iff.mpr ⟨ls.flatten ++ rest, rs, ?_, by rw [startRows, List.map_map]; rfl⟩
    exact {
      header := ⟨_, hnumber.leading hlt (h.stops_isspace rest), hlen⟩
      nonempty := List.ne_nil_of_length_pos (hrs ▸ h.length_pos)
      length_lt := hrs ▸ Nat.lt_succ_of_le hle
      takes := htakes
      admitted := List.forall_mem_map.mp hadmitted
      pids_nodup := by simpa [Function.comp_def] using h.pids_nodup }

end Lines

namespace Reading

variable {memory : Memory} {file body : List Char} {lines : List ProcessLine}

/-- A file in the format is read as it stands. -/
theorem strict_of_written {ls : List (List Char)} {ps : List ProcessInitial}
    (h : Reading memory file body lines) (hw : Written file ls ps) : Strict file body lines := by
  obtain ⟨number, rest, hnumber, hn, hfile⟩ := hw.file_eq
  have hle := hw.length_le
  have hlt : decimal number ≤ ulongMax := by
    rw [hn]
    exact hle.trans (by decide)
  obtain ⟨stored, hleading, hlength⟩ := h.header
  rw [hfile] at hleading
  obtain ⟨rfl, rfl⟩ := hleading.unique (hnumber.leading hlt (hw.stops_isspace rest))
  have hlines : lines.length = ls.length := by
    rw [hlength, Option.map_some, Option.getD_some, hn, toUInt_of_le (hle.trans (by decide))]
  obtain ⟨hplain, htext⟩ := plain_of_takesAll hw.lines hlines h.takes
  exact ⟨⟨number, hnumber, hn.trans hlines.symm, hfile⟩, hplain, rest, by rw [htext]⟩

/-- A file that is read as it stands is in the format. -/
theorem written_of_strict (h : Reading memory file body lines) (hs : Strict file body lines) :
    Written file (lines.map ProcessLine.text) (lines.map ProcessLine.initial) := by
  obtain ⟨number, hnumber, hn, rfl⟩ := hs.header
  obtain ⟨rest, rfl⟩ := hs.in_file
  have hadmitted : ∀ p ∈ lines.map ProcessLine.initial, Admitted p :=
    List.forall_mem_map.mpr h.admitted
  have hlines : List.Forall₂ WrittenLine (lines.map ProcessLine.text)
      (lines.map ProcessLine.initial) := by
    rw [List.forall₂_map_left_iff, List.forall₂_map_right_iff, List.forall₂_same]
    exact fun r hr => (hs.plain r hr).written (h.admitted r hr)
  exact {
    file_eq := ⟨number, rest, hnumber, by rw [hn, List.length_map], rfl⟩
    length_pos := by
      rw [List.length_map]
      exact List.length_pos_of_ne_nil h.nonempty
    length_le := by
      rw [List.length_map]
      exact Nat.le_of_lt_succ h.length_lt
    lines := hlines
    pids_nodup := by simpa [Function.comp_def] using h.pids_nodup
    pid_pos := fun p hp => (hadmitted p hp).pid_pos
    arrivalTime_lt := fun p hp => (hadmitted p hp).arrivalTime_lt
    processingTime_pos := fun p hp => (hadmitted p hp).processingTime_pos
    processingTime_le := fun p hp => Nat.le_of_lt_succ (hadmitted p hp).processingTime_lt }

end Reading

end Cosc240
