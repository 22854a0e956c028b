import Cosc240.Lib.CString

/-!
# Lines and numbers from a C stream

`fgets`, and `fscanf` with the format `"%u\n"`. A stream is the list of the
characters that have not been read yet. Errors of the device are left out: a read fails only at
the end of the stream.

## Lines

- `readLine` takes at most `k` characters, up to a newline; `fgets` stores them with a NUL behind
  them, in front of what was in the memory.
- `readLine_line`: a line that fits is read as a whole. `readLine_cut`: one that does not fit is
  cut, and the next call goes on behind the cut.
- `pieces` is what a long line is read as over several calls, with `pieces_spec` for its pieces.
- `length_lt_of_fgets`: each successful call shortens the stream, so that loops over it end.

## Numbers

- `fscanf`, before the conversion to `unsigned int`: its `Scan` is what it returns, what it has
  stored, and what is left.
- `Leading` describes how a stream can start, and `fscanf_count_ne_EOF_iff` says which starts lead
  to which result; `Leading.unique` says that there is only one way to read it.
-/

namespace Lib

/-! ## `fgets` -/

/-- At most `k` characters, up to a newline, and what is left of the stream. -/
def readLine : Nat → List Char → List Char × List Char
  | 0, file => ([], file)
  | _ + 1, [] => ([], [])
  | k + 1, c :: file =>
    if c = '\n' then ([c], file)
    else (c :: (readLine k file).1, (readLine k file).2)

/-- `fgets(s, size, fp)`, where `memory` is what there is from `s` on. The line is
stored with a NUL behind it; at the end of the stream, where `fgets` returns
`NULL`, there is no result and nothing is stored. -/
def fgets (size : Nat) (memory file : List Char) : Option (List Char × List Char) :=
  if file = [] then none
  else
    let (line, file) := readLine (size - 1) file
    some (line ++ '\x00' :: memory.drop (line.length + 1), file)

theorem readLine_append (k : Nat) (file : List Char) :
    (readLine k file).1 ++ (readLine k file).2 = file := by
  fun_induction readLine k file with
  | case1 file => rfl
  | case2 k => rfl
  | case3 k file => rfl
  | case4 k c file hc ih => rw [List.cons_append, ih]

theorem readLine_length_le (k : Nat) (file : List Char) : (readLine k file).1.length ≤ k := by
  fun_induction readLine k file with
  | case1 file => simp
  | case2 k => simp
  | case3 k file => simp
  | case4 k c file hc ih => simpa using ih

/-- A newline ends the line. -/
theorem readLine_newline {k : Nat} {file l₁ l₂ : List Char}
    (h : (readLine k file).1 = l₁ ++ '\n' :: l₂) : '\n' ∉ l₁ ∧ l₂ = [] := by
  fun_induction readLine k file generalizing l₁ with
  | case1 file => simp at h
  | case2 k => simp at h
  | case3 k file =>
    cases l₁ with
    | nil => simpa using h
    | cons c l₁ => simp at h
  | case4 k c file hc ih =>
    cases l₁ with
    | nil =>
      rw [List.nil_append, List.cons.injEq] at h
      exact absurd h.1 hc
    | cons c' l₁ =>
      rw [List.cons_append, List.cons.injEq] at h
      obtain ⟨hmem, hnil⟩ := ih h.2
      refine ⟨?_, hnil⟩
      rw [List.mem_cons, not_or]
      exact ⟨fun heq => hc (h.1.trans heq.symm), hmem⟩

/-- A line that fits is read as a whole. -/
theorem readLine_line {k : Nat} {l file : List Char} (hl : '\n' ∉ l) (hk : l.length < k) :
    readLine k (l ++ '\n' :: file) = (l ++ ['\n'], file) := by
  induction l generalizing k with
  | nil =>
    obtain ⟨k, rfl⟩ := Nat.exists_eq_succ_of_ne_zero (Nat.ne_of_gt hk)
    simp [readLine]
  | cons c l ih =>
    obtain ⟨k, rfl⟩ := Nat.exists_eq_succ_of_ne_zero (Nat.ne_of_gt (Nat.zero_lt_of_lt hk))
    rw [List.mem_cons, not_or] at hl
    have hrest := ih hl.2 (Nat.lt_of_succ_lt_succ hk)
    rw [List.cons_append, readLine, if_neg (Ne.symm hl.1), hrest]
    rfl

/-- A line that does not fit is cut. -/
theorem readLine_cut {k : Nat} {l file : List Char} (hl : '\n' ∉ l) (hk : k ≤ l.length) :
    readLine k (l ++ file) = (l.take k, l.drop k ++ file) := by
  induction l generalizing k with
  | nil =>
    obtain rfl := Nat.le_zero.mp hk
    rfl
  | cons c l ih =>
    cases k with
    | zero => rfl
    | succ k =>
      rw [List.mem_cons, not_or] at hl
      rw [List.cons_append, readLine, if_neg (Ne.symm hl.1), ih hl.2 (Nat.le_of_succ_le_succ hk)]
      rfl

/-- What a line is read as: pieces of `k` characters, and a last one that is shorter. -/
def pieces (k : Nat) (l : List Char) : List (List Char) :=
  if _h : 0 < k ∧ k ≤ l.length then l.take k :: pieces k (l.drop k) else [l]
termination_by l.length
decreasing_by
  rw [List.length_drop]
  omega

theorem pieces_of_lt {k : Nat} {l : List Char} (h : l.length < k) : pieces k l = [l] := by
  rw [pieces, dif_neg (by omega)]

theorem pieces_of_le {k : Nat} {l : List Char} (hk : 0 < k) (h : k ≤ l.length) :
    pieces k l = l.take k :: pieces k (l.drop k) := by
  rw [pieces, dif_pos ⟨hk, h⟩]

/-- The pieces are pieces of the line, and none is too long. -/
theorem pieces_spec {k : Nat} {l piece : List Char} (hk : 0 < k) (h : piece ∈ pieces k l) :
    piece <:+: l ∧ piece.length ≤ k := by
  fun_induction pieces k l with
  | case1 l hle ih =>
    rcases List.mem_cons.mp h with rfl | h
    · exact ⟨(List.take_prefix k l).isInfix, List.length_take_le k l⟩
    · exact ⟨(ih h).1.trans (List.drop_suffix k l).isInfix, (ih h).2⟩
  | case2 l hlt =>
    obtain rfl := List.mem_singleton.mp h
    exact ⟨List.infix_refl piece, by omega⟩

theorem fgets_nil (size : Nat) (memory : List Char) : fgets size memory [] = none := rfl

theorem fgets_of_readLine {size : Nat} {memory file line rest : List Char} (h : file ≠ [])
    (hread : readLine (size - 1) file = (line, rest)) :
    fgets size memory file = some (line ++ '\x00' :: memory.drop (line.length + 1), rest) := by
  rw [fgets, if_neg h, hread]

/-- Each call reads something. -/
theorem length_lt_of_fgets {size : Nat} {memory file s rest : List Char} (hsize : 1 < size)
    (h : fgets size memory file = some (s, rest)) : rest.length < file.length := by
  unfold fgets at h
  split at h
  · cases h
  · next hfile =>
    cases h
    obtain ⟨c, file, rfl⟩ := List.exists_cons_of_ne_nil hfile
    obtain ⟨k, hk⟩ := Nat.exists_eq_add_of_lt hsize
    have happend := congrArg List.length (readLine_append (size - 1) (c :: file))
    have hpos : 0 < (readLine (size - 1) (c :: file)).1.length := by
      rw [show size - 1 = k + 1 by omega, readLine]
      split <;> simp
    rw [List.length_append] at happend
    omega

/-- What is found in front of a NUL, with no NUL in it. -/
theorem prefix_of_append_nul {l s tail rest : List Char} (hl : '\x00' ∉ l)
    (h : s ++ '\x00' :: rest = l ++ tail) : ∃ s', s = l ++ s' := by
  rcases List.append_eq_append_iff.mp h with ⟨l', hl', hrest⟩ | ⟨s', hs', -⟩
  · cases l' with
    | nil => exact ⟨[], by rw [hl', List.append_nil, List.append_nil]⟩
    | cons c l' =>
      rw [List.cons_append, List.cons.injEq] at hrest
      rw [hl', ← hrest.1] at hl
      exact absurd (by simp) hl
  · exact ⟨s', hs'⟩

/-! ## `fscanf` -/

/-- The end of the stream. -/
def EOF : Int := -1

/-- What `fscanf` returns, the number that it has stored, if any, and what is left
of the stream. -/
structure Scan where
  count : Int
  stored : Option Nat
  rest : List Char

/-- `fscanf(fp, "%u\n", &n)` before the conversion to `unsigned int`. Blanks are
skipped, also those that follow the number. Without a digit nothing is stored, but
a sign has been read. -/
def fscanf (file : List Char) : Scan :=
  let input := file.dropWhile isspace
  if input = [] then ⟨EOF, none, []⟩
  else
    let (sign, rest) := splitSign input
    let digits := rest.takeWhile Char.isDigit
    if digits = [] then ⟨0, none, rest⟩
    else ⟨1, some (ulong sign digits), (rest.dropWhile Char.isDigit).dropWhile isspace⟩

/-- How a stream starts for `fscanf`. -/
inductive Leading : List Char → Option Nat → List Char → Prop
  /-- A numeral, then blanks. -/
  | number (a : Numeral) (gap : List Char) {rest : List Char} (hgap : ∀ c ∈ gap, isspace c)
      (hdigit : Stops Char.isDigit (gap ++ rest)) (hspace : Stops isspace rest) :
      Leading (a.text ++ (gap ++ rest)) (some a.value) rest
  /-- Blanks and perhaps a sign, but no digit. -/
  | mismatch (blanks : List Char) (sign : Option Char) {rest : List Char}
      (hblanks : ∀ c ∈ blanks, isspace c) (hsign : ∀ c ∈ sign, c = '+' ∨ c = '-')
      (hspace : Stops isspace (sign.toList ++ rest)) (hunsigned : sign = none → Unsigned rest)
      (hne : sign.toList ++ rest ≠ []) (hdigit : Stops Char.isDigit rest) :
      Leading (blanks ++ (sign.toList ++ rest)) none rest

theorem fscanf_number (a : Numeral) {gap rest : List Char} (hgap : ∀ c ∈ gap, isspace c)
    (hdigit : Stops Char.isDigit (gap ++ rest)) (hspace : Stops isspace rest) :
    fscanf (a.text ++ (gap ++ rest)) = ⟨1, some a.value, rest⟩ := by
  have hinput : (a.text ++ (gap ++ rest)).dropWhile isspace ≠ [] := by
    rw [a.dropWhile_text]
    simp [a.digits_ne_nil]
  rw [fscanf, if_neg hinput, a.splitSign_text]
  show ite _ _ _ = _
  rw [takeWhile_of_stops a.digits_isDigit hdigit, dropWhile_of_stops a.digits_isDigit hdigit,
    if_neg a.digits_ne_nil, dropWhile_of_stops hgap hspace]
  rfl

theorem fscanf_mismatch {blanks : List Char} {sign : Option Char} {rest : List Char}
    (hblanks : ∀ c ∈ blanks, isspace c) (hsign : ∀ c ∈ sign, c = '+' ∨ c = '-')
    (hspace : Stops isspace (sign.toList ++ rest)) (hunsigned : sign = none → Unsigned rest)
    (hne : sign.toList ++ rest ≠ []) (hdigit : Stops Char.isDigit rest) :
    fscanf (blanks ++ (sign.toList ++ rest)) = ⟨0, none, rest⟩ := by
  have hinput := dropWhile_of_stops hblanks hspace
  rw [fscanf, hinput, if_neg hne, splitSign_append hsign hunsigned]
  exact if_pos (takeWhile_eq_nil_iff_stops.mpr hdigit)

/-- What the stream was like, if it was not at its end. -/
theorem leading_of_fscanf {file : List Char} (hcount : (fscanf file).count ≠ EOF) :
    Leading file (fscanf file).stored (fscanf file).rest := by
  by_cases hnil : file.dropWhile isspace = []
  · rw [fscanf, if_pos hnil] at hcount
    exact absurd rfl hcount
  rcases hsplit : splitSign (file.dropWhile isspace) with ⟨sign, rest⟩
  by_cases hdigits : rest.takeWhile Char.isDigit = []
  · -- no digit
    obtain ⟨heq, hsign, hunsigned⟩ := splitSign_spec hsplit
    have hscan : fscanf file = ⟨0, none, rest⟩ := by
      rw [fscanf, if_neg hnil, hsplit]
      exact if_pos hdigits
    have hfile : file = file.takeWhile isspace ++ (sign.toList ++ rest) := by
      rw [← heq, List.takeWhile_append_dropWhile]
    rw [hscan, hfile]
    exact .mismatch _ sign (fun c hc => List.mem_takeWhile_imp hc) hsign (heq ▸ stops_dropWhile)
      hunsigned (heq ▸ hnil) (takeWhile_eq_nil_iff_stops.mp hdigits)
  · -- a numeral, and the blanks that follow it
    obtain ⟨a, hvalue, hfile⟩ := exists_numeral hsplit hdigits
    generalize htail : rest.dropWhile Char.isDigit = tail at hfile
    have hscan : fscanf file = ⟨1, some a.value, tail.dropWhile isspace⟩ := by
      rw [fscanf, if_neg hnil, hsplit, hvalue, ← htail]
      exact if_neg hdigits
    have hgap : tail.takeWhile isspace ++ tail.dropWhile isspace = tail :=
      List.takeWhile_append_dropWhile
    have hdigit : Stops Char.isDigit (tail.takeWhile isspace ++ tail.dropWhile isspace) := by
      rw [hgap, ← htail]
      exact stops_dropWhile
    rw [hscan]
    nth_rewrite 1 [hfile, ← hgap]
    exact .number a _ (fun c hc => List.mem_takeWhile_imp hc) hdigit stops_dropWhile

/-- **`fscanf`.** It is at the end of the stream, or the stream starts with a
numeral or with none. -/
theorem fscanf_count_ne_EOF_iff {file : List Char} {stored : Option Nat} {rest : List Char} :
    (fscanf file).count ≠ EOF ∧ (fscanf file).stored = stored ∧ (fscanf file).rest = rest ↔
      Leading file stored rest := by
  constructor
  · rintro ⟨hcount, rfl, rfl⟩
    exact leading_of_fscanf hcount
  · intro h
    cases h with
    | number a gap hgap hdigit hspace =>
      rw [fscanf_number a hgap hdigit hspace]
      exact ⟨(by decide : (1 : Int) ≠ EOF), rfl, rfl⟩
    | mismatch blanks sign hblanks hsign hspace hunsigned hne hdigit =>
      rw [fscanf_mismatch hblanks hsign hspace hunsigned hne hdigit]
      exact ⟨(by decide : (0 : Int) ≠ EOF), rfl, rfl⟩

theorem Leading.unique {file body body' : List Char} {stored stored' : Option Nat}
    (h : Leading file stored body) (h' : Leading file stored' body') :
    stored = stored' ∧ body = body' := by
  obtain ⟨-, hstored, hbody⟩ := fscanf_count_ne_EOF_iff.mpr h
  obtain ⟨-, hstored', hbody'⟩ := fscanf_count_ne_EOF_iff.mpr h'
  exact ⟨hstored.symm.trans hstored', hbody.symm.trans hbody'⟩

end Lib
