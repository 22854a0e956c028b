import Cosc240.Input.Written

/-!
# What gets through besides the format

`strtoul` and `fscanf` read more than digits, the result of `fscanf` is tested for
`EOF` only (simulator.c:339–340), and `read_process_initial` goes on after a `fgets` that has read
nothing (simulator.c:97–108). So `main` accepts files that are not in the format, although
readme.md:52 promises an error message for them.

- `Liberty`: what such a file has. It starts with no digit, the number of processes is too large,
  there is more than a newline behind it, a number of a process line has a blank or a sign in front
  or the arrival time is missing, or a line is taken from memory.
- `Sound`: what readme.md promises. The file is handed on as it is written, or is refused with a
  message.

Main results:

- `main_error`: every refusal says which line of the file was being read.
- `Reading.strict_or_liberty` and `Strict.not_liberty`: a reading takes a liberty exactly if it does
  not stand in the file as it is.
- `main_sound_iff`: a file is handled as promised if and only if it cannot be read, with all the
  checks passed, by taking a liberty.
- `main_accepts_missingLine`: a file without an arrival time is accepted.
-/

namespace Cosc240

open Lib

/-- The liberties that a reading can take with the format. -/
inductive Liberty (file body : List Char) (lines : List ProcessLine) : Prop
  /-- The file starts with a blank, with a sign, or with no number at all. -/
  | start (h : Stops Char.isDigit file)
  /-- The number of processes does not fit an `unsigned int`. -/
  | wrap (number rest : List Char) (hfile : file = number ++ rest) (hnumber : Digits number)
      (hstops : Stops Char.isDigit rest) (h : uintMax < decimal number)
  /-- Between the number and the first process line there is anything but a newline. -/
  | gap (number rest : List Char) (hfile : file = number ++ rest) (hnumber : Digits number)
      (hstops : Stops Char.isDigit rest) (h : rest ≠ '\n' :: body)
  /-- In a process line a number has blanks or a sign in front. -/
  | number (r : ProcessLine) (hr : r ∈ lines)
      (h : ¬ r.pid.Plain ∨ (∃ a ∈ r.arrivalTime, ¬ a.Plain) ∨ ¬ r.processingTime.Plain)
  /-- In a process line there is nothing between the commas. -/
  | missing (r : ProcessLine) (hr : r ∈ lines) (h : r.arrivalTime = none)
  /-- The file is at its end before the last process line, and a line is taken from
  memory. -/
  | memory (h : ¬ ∃ rest, body = (lines.map ProcessLine.text).flatten ++ rest)

/-- The file is handed on as it is written, or is refused with a message. -/
def Sound (memory : Memory) (file : List Char) : Prop :=
  (∀ table, main memory file = .ok table →
    ∃ lines ps, Written file lines ps ∧ table = startRows ps) ∧
  ((¬ ∃ lines ps, Written file lines ps) →
    ∃ message explanation, main memory file = .error (message :: explanation))

/-! ## Messages -/

theorem readProcesses_error {memory : Memory} {k i : Nat} {processes : List ProcessStats}
    {file : List Char} {messages : List String}
    (h : readProcesses memory k i processes file = .error messages) :
    ∃ j explanation, messages = lineError j explanation := by
  induction k generalizing i processes file with
  | zero => cases h
  | succ k ih =>
    simp only [readProcesses] at h
    split at h
    · cases h
      exact ⟨i, _, rfl⟩
    split at h
    · cases h
      exact ⟨i, _, rfl⟩
    split at h
    · cases h
      exact ⟨i, _, rfl⟩
    split at h
    · cases h
      exact ⟨i, _, rfl⟩
    split at h
    · cases h
      exact ⟨i, _, rfl⟩
    exact ih h

/-- Every refusal says which line of the file was being read. -/
theorem main_error {memory : Memory} {file : List Char} {messages : List String}
    (h : main memory file = .error messages) :
    (∃ explanation, messages = "Error reading number of processes.\n" :: explanation) ∨
      ∃ i explanation, messages = lineError i explanation := by
  simp only [main] at h
  split at h
  · cases h
    exact .inl ⟨_, rfl⟩
  split at h
  · cases h
    exact .inl ⟨_, rfl⟩
  exact .inr (readProcesses_error h)

/-! ## Liberties -/

section Liberty

variable {memory : Memory} {file body : List Char} {lines : List ProcessLine}

/-- A numeral in front of which there is nothing. -/
theorem plain_of_not_stops {a : Numeral} {s : List Char} (h : ¬ Stops Char.isDigit (a.text ++ s)) :
    a.Plain := by
  cases hblanks : a.blanks with
  | cons c blanks =>
    refine absurd (stops_append (by simp [Numeral.text, hblanks]) ?_) h
    rw [Numeral.text, hblanks]
    exact stops_cons (isDigit_of_isspace (a.blanks_isspace c (by simp [hblanks])))
  | nil =>
    cases hsign : a.sign with
    | none => exact ⟨hblanks, hsign⟩
    | some c =>
      refine absurd (stops_append (by simp [Numeral.text, hsign]) ?_) h
      rw [Numeral.text, hblanks, hsign]
      exact stops_cons (isDigit_of_sign (a.sign_eq c hsign))

/-- A reading that does not stand in the file as it is takes a liberty. -/
theorem Reading.strict_or_liberty (h : Reading memory file body lines) :
    Strict file body lines ∨ Liberty file body lines := by
  by_contra hcon
  rw [not_or] at hcon
  obtain ⟨hstrict, hnone⟩ := hcon
  refine hstrict ⟨?_, ?_, ?_⟩
  · -- the number
    have hstart : ¬ Stops Char.isDigit file := fun hs => hnone (.start hs)
    obtain ⟨stored, hleading, hlength⟩ := h.header
    cases hleading with
    | mismatch blanks sign hblanks hsign hspace hunsigned hne hdigit =>
      refine absurd ?_ hstart
      cases blanks with
      | cons c blanks => exact stops_cons (isDigit_of_isspace (hblanks c (by simp)))
      | nil =>
        cases sign with
        | some c => exact stops_cons (isDigit_of_sign (hsign c rfl))
        | none => exact hdigit
    | number a gap hgap hdigit hspace =>
      have hplain := plain_of_not_stops hstart
      have hnumber := Digits.of_plain hplain
      have hle : decimal a.text ≤ uintMax := by
        by_contra hlt
        exact hnone (.wrap _ _ rfl hnumber hdigit (Nat.lt_of_not_le hlt))
      have hrest : gap ++ body = '\n' :: body := by
        by_contra hne
        exact hnone (.gap _ _ rfl hnumber hdigit hne)
      have hvalue : a.value = decimal a.text := by
        rw [hplain.text_eq] at hle ⊢
        rw [Numeral.value, ulong, if_neg (Nat.not_lt.mpr (hle.trans (by decide))), hplain.2,
          if_neg (by simp)]
      refine ⟨a.text, hnumber, ?_, by rw [hrest]⟩
      rw [hlength, hvalue, Option.map_some, Option.getD_some, toUInt_of_le hle]
  · -- the lines
    intro r hr
    have hnumber : r.pid.Plain ∧ (∀ a ∈ r.arrivalTime, a.Plain) ∧ r.processingTime.Plain := by
      by_contra hne
      refine hnone (.number r hr ?_)
      by_contra hall
      simp only [not_or, not_exists, not_and, not_not] at hall
      exact hne hall
    have harrival : ∃ a, r.arrivalTime = some a := by
      cases hfield : r.arrivalTime with
      | none => exact absurd (.missing r hr hfield) hnone
      | some a => exact ⟨a, rfl⟩
    obtain ⟨a, ha⟩ := harrival
    exact ⟨hnumber.1, ⟨a, ha, hnumber.2.1 a ha⟩, hnumber.2.2⟩
  · -- the file goes on to the last line
    by_contra hmemory
    exact hnone (.memory hmemory)

/-- There is one run of digits at the start. -/
theorem Digits.start_unique {number number' rest rest' : List Char} (h : Digits number)
    (h' : Digits number') (hs : Stops Char.isDigit rest) (hs' : Stops Char.isDigit rest')
    (heq : number ++ rest = number' ++ rest') : number = number' ∧ rest = rest' :=
  h'.unique (a := h.numeral) hs hs' heq

/-- A reading that stands in the file as it is takes none. -/
theorem Strict.not_liberty (h : Strict file body lines) (hlt : lines.length < timeout) :
    ¬ Liberty file body lines := by
  obtain ⟨number, hnumber, hn, hfile⟩ := h.header
  rintro (hstart | ⟨number', rest, hfile', hnumber', hstops, hwrap⟩ |
    ⟨number', rest, hfile', hnumber', hstops, hgap⟩ | ⟨r, hr, hfield⟩ | ⟨r, hr, hmissing⟩ | hmemory)
  · obtain ⟨c, hc, hdigit⟩ := hnumber.head ('\n' :: body)
    rw [← hfile] at hc
    rw [hstart c hc] at hdigit
    cases hdigit
  · obtain ⟨rfl, -⟩ := hnumber.start_unique hnumber' (stops_newline body) hstops
      (hfile.symm.trans hfile')
    rw [hn] at hwrap
    unfold timeout at hlt
    unfold uintMax at hwrap
    omega
  · obtain ⟨-, rfl⟩ := hnumber.start_unique hnumber' (stops_newline body) hstops
      (hfile.symm.trans hfile')
    exact hgap rfl
  · have hplain := h.plain r hr
    obtain ⟨a, ha, haplain⟩ := hplain.arrivalTime
    rcases hfield with hpid | ⟨b, hb, hbplain⟩ | hprocessing
    · exact hpid hplain.pid
    · cases ha.symm.trans hb
      exact hbplain haplain
    · exact hprocessing hplain.processingTime
  · obtain ⟨a, ha, -⟩ := (h.plain r hr).arrivalTime
    cases hmissing.symm.trans ha
  · exact hmemory h.in_file

/-- A file that is accepted with a liberty is not in the format. -/
theorem Reading.not_sound (h : Reading memory file body lines)
    (hliberty : Liberty file body lines) : ¬ Sound memory file := by
  rintro ⟨hsound, -⟩
  obtain ⟨ls, ps, hwritten, -⟩ := hsound _ (main_ok_iff.mpr ⟨body, lines, h, rfl⟩)
  exact (h.strict_of_written hwritten).not_liberty h.length_lt hliberty

end Liberty

/-- **Soundness of the input format.** A file is handled as `readme.md` promises if
and only if it cannot be read, with all the checks passed, by taking a liberty. -/
theorem main_sound_iff (memory : Memory) (file : List Char) :
    Sound memory file ↔
      ¬ ∃ body lines, Reading memory file body lines ∧ Liberty file body lines := by
  constructor
  · rintro hsound ⟨body, lines, hreading, hliberty⟩
    exact hreading.not_sound hliberty hsound
  · intro hnone
    have hok : ∀ table, main memory file = .ok table →
        ∃ lines ps, Written file lines ps ∧ table = startRows ps := by
      intro table hmain
      obtain ⟨body, lines, hreading, rfl⟩ := main_ok_iff.mp hmain
      rcases hreading.strict_or_liberty with hstrict | hliberty
      · refine ⟨_, _, hreading.written_of_strict hstrict, ?_⟩
        rw [startRows, List.map_map]
        rfl
      · exact absurd ⟨body, lines, hreading, hliberty⟩ hnone
    refine ⟨hok, fun hnot => ?_⟩
    cases hmain : main memory file with
    | ok table =>
      obtain ⟨lines, ps, hwritten, -⟩ := hok table hmain
      exact absurd ⟨lines, ps, hwritten⟩ hnot
    | error messages =>
      rcases main_error hmain with ⟨explanation, rfl⟩ | ⟨i, explanation, rfl⟩
      · exact ⟨_, _, rfl⟩
      · exact ⟨_, _, rfl⟩

/-- The process line `1,,5`. -/
def missingLine : ProcessLine where
  pid := .ofDigits ['1'] (List.forall_mem_singleton.mpr rfl) (List.cons_ne_nil _ _)
  arrivalTime := none
  processingTime := .ofDigits ['5'] (List.forall_mem_singleton.mpr rfl) (List.cons_ne_nil _ _)

/-- A file without an arrival time: the process is taken to arrive at time 0. -/
theorem main_accepts_missingLine :
    main ⟨0, fun _ => []⟩ "1\n1,,5\n".toList = .ok [⟨⟨1, 5, 0⟩, 0, 0⟩] ∧
      ¬ Sound ⟨0, fun _ => []⟩ "1\n1,,5\n".toList := by
  have hone : Digits ['1'] := ⟨List.cons_ne_nil _ _, List.forall_mem_singleton.mpr rfl⟩
  have hleading : Leading "1\n1,,5\n".toList (some 1) "1,,5\n".toList :=
    hone.leading (by decide) (stops_cons (by decide))
  have htakes : Takes [] (missingLine.text ++ []) missingLine [] :=
    .file missingLine [] (by decide) (by decide)
  have hreading : Reading ⟨0, fun _ => []⟩ "1\n1,,5\n".toList "1,,5\n".toList [missingLine] :=
    { header := ⟨some 1, hleading, rfl⟩
      nonempty := List.cons_ne_nil _ _
      length_lt := by decide
      takes := .cons htakes (.nil 1 [])
      admitted := List.forall_mem_singleton.mpr
        ⟨by decide, by decide, by decide, by decide, by decide⟩
      pids_nodup := List.nodup_singleton _ }
  exact ⟨rfl, hreading.not_sound (.missing missingLine List.mem_cons_self rfl)⟩

end Cosc240
