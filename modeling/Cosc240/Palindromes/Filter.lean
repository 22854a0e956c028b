import Cosc240.Lib.CStdio
import Cosc240.Palindromes.Word
import Mathlib.Algebra.Order.BigOperators.Group.List
import Mathlib.Algebra.Order.Group.Nat

/-!
# The palindromes of a dictionary

`main` of `palindrome.c` (tutorial5/palindrome.c:19–46) reads the dictionary with `fgets` into an
array of 256 elements, and takes for a word what one call has read. A line of 255 characters or more
comes in pieces, each of which is looked at on its own.

- `body`, `loop`, `main`: the body of the loop, the loop until `fgets` returns `NULL`, and the
  program, with the two ways in which it ends early. `Outcome` is what it returns and prints, and
  what is in `palindromes.txt`.
- `Plain` and `unlines`: a line of ASCII characters without NUL, and a text of lines.
- `WritesPalindromes`: `palindromes.txt` consists of the lines of the dictionary that are
  palindromes.
- `LongLinesDropped`: no line of 255 characters or more is a palindrome, and none of its pieces is.

Main results:

- `loop_line` and `loop_unlines`: one line is read piece by piece, and so is the dictionary.
- `main_eq`: what `main` writes are the palindromes among the pieces.
- `filter_pieces_iff`: pieces instead of lines make no difference exactly if no long line
  contributes. The other direction counts: from a long line that contributes comes a palindrome too
  many.
- `writesPalindromes_iff`: the filter is right exactly if `LongLinesDropped`.
- `not_writesPalindromes_long`: a line of 256 times the same letter is written as two lines.
-/

namespace Cosc240

open Lib CArray

namespace Palindromes

/-- How `main` ends: what it returns, what is on `stdout`, and what is in
`palindromes.txt`, if it has been opened. -/
structure Outcome where
  returned : Int
  output : String
  palindromes : Option (List Char)
deriving DecidableEq, Repr

/-- The body of the loop: `word` and `palindromes.txt` after it. -/
def body (fresh : Nat → Nat → Char) (word pals : List Char) :
    Option (List Char × List Char) := do
  let word ← store word (← strcspn word ['\n']) '\x00'
  if ← isPalindrome fresh word.length word then
    return (word, pals ++ (← string word) ++ ['\n'])
  else
    return (word, pals)

/-- The loop, until `fgets` returns `NULL`. -/
def loop (fresh : Nat → Nat → Char) (word pals file : List Char) : Option (List Char) :=
  match _h : fgets 256 word file with
  | none => some pals
  | some (word, rest) =>
    match body fresh word pals with
    | none => none
    | some (word, pals) => loop fresh word pals rest
termination_by file.length
decreasing_by exact length_lt_of_fgets (by decide) _h

/-- `main`, where `dict` is what is in the dictionary, if it can be opened, and
`creates` says whether `palindromes.txt` can be created. -/
def main (fresh : Nat → Nat → Char) (dict : Option (List Char)) (creates : Bool) :
    Option Outcome :=
  match dict with
  | none => some ⟨1, "Could not open dictionary!\n", none⟩
  | some file =>
    if creates then do
      let pals ← loop fresh (newArray fresh 256) [] file
      return ⟨0, "", some pals⟩
    else some ⟨1, "Could not create palindromes.txt!\n", none⟩

/-- A text of lines. -/
def unlines (lines : List (List Char)) : List Char :=
  lines.flatMap fun line => line ++ ['\n']

/-- A line of ASCII characters without NUL. -/
def Plain (line : List Char) : Prop := Ascii line ∧ '\n' ∉ line

theorem Plain.of_subset {line piece : List Char} (h : Plain line) (hsub : piece ⊆ line) :
    Plain piece :=
  ⟨fun c hc => h.1 c (hsub hc), fun hc => h.2 (hsub hc)⟩

/-! ## One line -/

section Line

variable {fresh : Nat → Nat → Char} {word pals file line : List Char}

theorem unlines_cons (lines : List (List Char)) :
    unlines (line :: lines) = line ++ '\n' :: unlines lines := by
  rw [unlines, List.flatMap_cons, List.append_assoc]
  rfl

theorem unlines_append (lines lines' : List (List Char)) :
    unlines (lines ++ lines') = unlines lines ++ unlines lines' :=
  List.flatMap_append

/-- What the body does with a piece that ends with a newline or with the NUL. -/
theorem body_eq {c : Char} {tail : List Char} (hline : Plain line)
    (hle : line.length ≤ 255) (hc : c = '\x00' ∨ c ∈ ['\n']) :
    ∃ word, body fresh (line ++ c :: tail) pals =
      some (word, pals ++ unlines ([line].filter fun piece => IsPalindrome piece)) := by
  obtain ⟨hascii, hnewline⟩ := hline
  have hnul := hascii.nul_not_mem
  have hdecides : isPalindrome fresh (line ++ '\x00' :: tail).length (line ++ '\x00' :: tail) =
      some (decide (IsPalindrome line)) := by
    refine isPalindrome_eq hascii ?_ ?_
    · unfold CInt.intMax
      omega
    · rw [List.length_append, List.length_cons]
      omega
  have hcspn : strcspn (line ++ c :: tail) ['\n'] = some line.length :=
    strcspn_append hnul (by simpa using hnewline) hc
  refine ⟨line ++ '\x00' :: tail, ?_⟩
  rw [body, hcspn, Option.bind_eq_bind, Option.bind_some, store_append, Option.bind_eq_bind,
    Option.bind_some, hdecides, Option.bind_eq_bind, Option.bind_some, string_append hnul]
  by_cases hpal : IsPalindrome line
  · rw [if_pos (decide_eq_true hpal)]
    simp [unlines, hpal]
  · rw [if_neg (by simpa using hpal)]
    simp [unlines, hpal]

theorem loop_nil : loop fresh word pals [] = some pals := by
  rw [loop]
  rfl

theorem loop_of_body {word' word₂ pals' rest : List Char}
    (hfgets : fgets 256 word file = some (word', rest))
    (hbody : body fresh word' pals = some (word₂, pals')) :
    loop fresh word pals file = loop fresh word₂ pals' rest := by
  rw [loop]
  split
  · next hnone =>
    rw [hfgets] at hnone
    cases hnone
  · next hsome =>
    rw [hfgets] at hsome
    cases hsome
    rw [hbody]

/-- **One line** of the dictionary is read piece by piece. -/
theorem loop_line (fresh : Nat → Nat → Char) (hline : Plain line) (word pals file : List Char) :
    ∃ word', loop fresh word pals (line ++ '\n' :: file) =
      loop fresh word'
        (pals ++ unlines ((pieces 255 line).filter fun piece => IsPalindrome piece)) file := by
  induction hn : line.length using Nat.strong_induction_on generalizing line word pals with
  | _ n ih =>
    by_cases hlt : line.length < 255
    · -- the newline is read with the line
      have hfgets : fgets 256 word (line ++ '\n' :: file) = some (line ++ ['\n'] ++ '\x00' ::
          word.drop ((line ++ ['\n']).length + 1), file) :=
        fgets_of_readLine (by simp) (readLine_line hline.2 hlt)
      rw [List.append_assoc, List.singleton_append] at hfgets
      obtain ⟨word', hbody⟩ := body_eq hline hlt.le (.inr List.mem_cons_self)
      rw [pieces_of_lt hlt]
      exact ⟨word', loop_of_body hfgets hbody⟩
    · have hle : 255 ≤ line.length := not_lt.mp hlt
      have hfgets : fgets 256 word (line ++ '\n' :: file) = some (line.take 255 ++ '\x00' ::
          word.drop ((line.take 255).length + 1), line.drop 255 ++ '\n' :: file) :=
        fgets_of_readLine (by simp) (readLine_cut hline.2 hle)
      obtain ⟨word₁, hbody⟩ := body_eq (hline.of_subset (List.take_subset 255 line))
        (List.length_take_le 255 line) (.inl rfl)
      obtain ⟨word₂, hrest⟩ := ih (line.drop 255).length (by rw [List.length_drop]; omega)
        (hline.of_subset (List.drop_subset 255 line)) word₁ _ rfl
      refine ⟨word₂, (loop_of_body hfgets hbody).trans (hrest.trans ?_)⟩
      rw [pieces_of_le (by decide) hle, List.append_assoc, ← unlines_append, ← List.filter_append,
        List.singleton_append]

/-- **The dictionary**, line by line. -/
theorem loop_unlines (lines : List (List Char)) (hlines : ∀ line ∈ lines, Plain line)
    (word pals : List Char) :
    loop fresh word pals (unlines lines) = some
      (pals ++ unlines ((lines.flatMap (pieces 255)).filter fun piece => IsPalindrome piece)) := by
  induction lines generalizing word pals with
  | nil =>
    rw [List.flatMap_nil, List.filter_nil, show unlines [] = [] from rfl, loop_nil, List.append_nil]
  | cons line lines ih =>
    obtain ⟨hline, hrest⟩ := List.forall_mem_cons.mp hlines
    obtain ⟨word', hloop⟩ := loop_line fresh hline word pals (unlines lines)
    rw [unlines_cons, hloop, ih hrest, List.flatMap_cons, List.filter_append, unlines_append,
      List.append_assoc]

/-- **What `main` writes**: the palindromes among the pieces. -/
theorem main_eq (fresh : Nat → Nat → Char) (lines : List (List Char))
    (hlines : ∀ line ∈ lines, Plain line) :
    main fresh (some (unlines lines)) true = some ⟨0, "", some
      (unlines ((lines.flatMap (pieces 255)).filter fun piece => IsPalindrome piece))⟩ := by
  show ((loop fresh (newArray fresh 256) [] (unlines lines)).bind fun pals =>
    some (Outcome.mk 0 "" (some pals))) = _
  rw [loop_unlines lines hlines, List.nil_append]
  rfl

end Line

/-! ## Pieces and lines -/

/-- A text has its lines from nowhere else. -/
theorem unlines_injective {lines lines' : List (List Char)} (hlines : ∀ line ∈ lines, '\n' ∉ line)
    (hlines' : ∀ line ∈ lines', '\n' ∉ line) (h : unlines lines = unlines lines') :
    lines = lines' := by
  induction lines generalizing lines' with
  | nil =>
    cases lines' with
    | nil => rfl
    | cons line lines' =>
      rw [unlines_cons] at h
      exact absurd h (by simp [unlines])
  | cons line lines ih =>
    cases lines' with
    | nil =>
      rw [unlines_cons] at h
      exact absurd h (by simp [unlines])
    | cons line' lines' =>
      obtain ⟨hline, hrest⟩ := List.forall_mem_cons.mp hlines
      obtain ⟨hline', hrest'⟩ := List.forall_mem_cons.mp hlines'
      have hread := congrArg (readLine (line.length + line'.length + 1)) h
      rw [unlines_cons, unlines_cons, readLine_line hline (by omega),
        readLine_line hline' (by omega), Prod.mk.injEq] at hread
      rw [List.append_cancel_right hread.1, ih hrest hrest' hread.2]

/-- No line of 255 characters or more is a palindrome, and none of its pieces is. -/
def LongLinesDropped (lines : List (List Char)) : Prop :=
  ∀ line ∈ lines, 255 ≤ line.length →
    ¬ IsPalindrome line ∧ ∀ piece ∈ pieces 255 line, ¬ IsPalindrome piece

/-- From a long line comes a palindrome too many. -/
theorem countP_lt_of_long {line : List Char} (hlong : 255 ≤ line.length)
    (hline : 256 ≤ line.length → ¬ IsPalindrome line)
    (hnot : ¬ (¬ IsPalindrome line ∧ ∀ piece ∈ pieces 255 line, ¬ IsPalindrome piece)) :
    [line].countP (fun piece => IsPalindrome piece) <
      (pieces 255 line).countP fun piece => IsPalindrome piece := by
  rcases Nat.eq_or_lt_of_le hlong with heq | hlt
  · -- the last piece is empty
    have hpieces : pieces 255 line = [line, []] := by
      rw [pieces_of_le (by decide) hlong, heq, List.take_length, List.drop_length,
        pieces_of_lt (by simp only [List.length_nil]; omega)]
    rw [hpieces, List.countP_cons, List.countP_cons, List.countP_cons, List.countP_nil,
      if_pos (decide_eq_true isPalindrome_nil)]
    omega
  · have hpal := hline hlt
    have hpiece : ∃ piece ∈ pieces 255 line, IsPalindrome piece := by
      by_contra hnone
      exact hnot ⟨hpal, fun piece hmem hp => hnone ⟨piece, hmem, hp⟩⟩
    obtain ⟨piece, hmem, hp⟩ := hpiece
    rw [List.countP_singleton, if_neg (by simpa using hpal)]
    exact List.countP_pos_iff.mpr ⟨piece, hmem, decide_eq_true hp⟩

/-- No piece is as long as a line that is cut. -/
theorem not_isPalindrome_of_filter_eq {lines : List (List Char)}
    (h : ((lines.flatMap (pieces 255)).filter fun piece => IsPalindrome piece) =
      (lines.filter fun line => IsPalindrome line)) {line : List Char} (hmem : line ∈ lines)
    (hlt : 256 ≤ line.length) : ¬ IsPalindrome line := by
  intro hpal
  have hkept : line ∈ lines.filter fun line => IsPalindrome line :=
    List.mem_filter.mpr ⟨hmem, decide_eq_true hpal⟩
  rw [← h] at hkept
  obtain ⟨whole, -, hpiece⟩ := List.mem_flatMap.mp (List.mem_filter.mp hkept).1
  have hle := (pieces_spec (by decide) hpiece).2
  omega

/-- A line that is not dropped would leave more palindromes among the pieces than there are
among the lines. -/
theorem longLinesDropped_of_filter_eq {lines : List (List Char)}
    (h : ((lines.flatMap (pieces 255)).filter fun piece => IsPalindrome piece) =
      (lines.filter fun line => IsPalindrome line)) : LongLinesDropped lines := by
  intro line hmem hlong
  have hline : ∀ line ∈ lines, 256 ≤ line.length → ¬ IsPalindrome line :=
    fun _ hmem hlt => not_isPalindrome_of_filter_eq h hmem hlt
  by_contra hnot
  have hle : ∀ other ∈ lines, [other].countP (fun l => IsPalindrome l) ≤
      (pieces 255 other).countP fun l => IsPalindrome l := by
    intro other hother
    by_cases hshort : other.length < 255
    · rw [pieces_of_lt hshort]
    · by_cases hdropped : ¬ IsPalindrome other ∧ ∀ piece ∈ pieces 255 other, ¬ IsPalindrome piece
      · rw [List.countP_singleton, if_neg (by simpa using hdropped.1)]
        exact Nat.zero_le _
      · exact (countP_lt_of_long (not_lt.mp hshort) (hline other hother) hdropped).le
  have hlt := List.sum_lt_sum _ _ hle
    ⟨line, hmem, countP_lt_of_long hlong (hline line hmem) hnot⟩
  have hcount := congrArg List.length h
  rw [← List.countP_eq_length_filter, ← List.countP_eq_length_filter, List.countP_flatMap,
    ← List.flatMap_singleton' lines, List.countP_flatMap, List.flatMap_singleton'] at hcount
  exact absurd hcount hlt.ne'

theorem LongLinesDropped.filter_eq {lines : List (List Char)} (h : LongLinesDropped lines) :
    ((lines.flatMap (pieces 255)).filter fun piece => IsPalindrome piece) =
      (lines.filter fun line => IsPalindrome line) := by
  induction lines with
  | nil => rfl
  | cons line lines ih =>
    obtain ⟨hline, hrest⟩ := List.forall_mem_cons.mp h
    rw [List.flatMap_cons, List.filter_append, ih hrest, List.filter_cons]
    by_cases hlong : 255 ≤ line.length
    · obtain ⟨hpal, hpieces⟩ := hline hlong
      have hnone : (pieces 255 line).filter (fun piece => IsPalindrome piece) = [] :=
        List.filter_eq_nil_iff.mpr fun piece hmem => by simpa using hpieces piece hmem
      rw [hnone, if_neg (by simpa using hpal), List.nil_append]
    · rw [pieces_of_lt (not_le.mp hlong), List.filter_cons, List.filter_nil]
      split <;> rfl

/-- **Pieces instead of lines** make no difference exactly if no long line contributes. -/
theorem filter_pieces_iff (lines : List (List Char)) :
    ((lines.flatMap (pieces 255)).filter fun piece => IsPalindrome piece) =
      (lines.filter fun line => IsPalindrome line) ↔ LongLinesDropped lines :=
  ⟨longLinesDropped_of_filter_eq, LongLinesDropped.filter_eq⟩

/-! ## The output -/

/-- `palindromes.txt` consists of the lines of the dictionary that are palindromes. -/
def WritesPalindromes (fresh : Nat → Nat → Char) (lines : List (List Char)) : Prop :=
  main fresh (some (unlines lines)) true =
    some ⟨0, "", some (unlines (lines.filter fun line => IsPalindrome line))⟩

theorem writesPalindromes_iff_filter (fresh : Nat → Nat → Char) {lines : List (List Char)}
    (hlines : ∀ line ∈ lines, Plain line) :
    WritesPalindromes fresh lines ↔
      ((lines.flatMap (pieces 255)).filter fun piece => IsPalindrome piece) =
        (lines.filter fun line => IsPalindrome line) := by
  have hpieces : ∀ piece ∈ (lines.flatMap (pieces 255)).filter (fun piece => IsPalindrome piece),
      '\n' ∉ piece := by
    intro piece hpiece
    obtain ⟨line, hline, hmem⟩ := List.mem_flatMap.mp (List.mem_filter.mp hpiece).1
    exact ((hlines line hline).of_subset (pieces_spec (by decide) hmem).1.subset).2
  have hkept : ∀ line ∈ lines.filter (fun line => IsPalindrome line), '\n' ∉ line :=
    fun line hline => (hlines line (List.mem_filter.mp hline).1).2
  rw [WritesPalindromes, main_eq fresh lines hlines, Option.some.injEq, Outcome.mk.injEq,
    Option.some.injEq]
  constructor
  · rintro ⟨-, -, h⟩
    exact unlines_injective hpieces hkept h
  · intro h
    exact ⟨rfl, rfl, congrArg unlines h⟩

/-- **The filter** writes the palindromes of the dictionary exactly if lines that do not
fit into the array are dropped as a whole. -/
theorem writesPalindromes_iff (fresh : Nat → Nat → Char) (lines : List (List Char))
    (hlines : ∀ line ∈ lines, Plain line) :
    WritesPalindromes fresh lines ↔ LongLinesDropped lines :=
  (writesPalindromes_iff_filter fresh hlines).trans (filter_pieces_iff lines)

/-- Two words, one of which is a palindrome. -/
theorem writesPalindromes_iff_level :
    WritesPalindromes (fun _ _ => 'x') ["Level".toList, "cat".toList] ↔
      LongLinesDropped ["Level".toList, "cat".toList] :=
  writesPalindromes_iff (fun _ _ => 'x') ["Level".toList, "cat".toList]
    (by simp [Plain, Ascii])

/-- A line of 256 times the same letter is written as two lines. -/
theorem not_writesPalindromes_long :
    ¬ ∀ (fresh : Nat → Nat → Char) (lines : List (List Char)),
      (∀ line ∈ lines, Plain line) → WritesPalindromes fresh lines := by
  intro h
  have hplain : ∀ line ∈ [List.replicate 256 'a'], Plain line := by
    intro line hline
    obtain rfl := List.mem_singleton.mp hline
    refine ⟨?_, ?_⟩
    · intro c hc
      obtain rfl := List.eq_of_mem_replicate hc
      decide
    · exact fun hc => absurd (List.eq_of_mem_replicate hc) (by decide)
  have hpal : IsPalindrome (List.replicate 256 'a') := by
    unfold IsPalindrome
    rw [List.map_replicate]
    exact .of_reverse_eq List.reverse_replicate
  have hfilter := (writesPalindromes_iff_filter (fun _ _ => 'x') hplain).mp
    (h (fun _ _ => 'x') _ hplain)
  have hdropped := (filter_pieces_iff _).mp hfilter _ List.mem_cons_self
    (by rw [List.length_replicate]; decide)
  exact hdropped.1 hpal

end Palindromes

end Cosc240
