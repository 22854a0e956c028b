import Mathlib.Data.List.DropRight
import Mathlib.Data.List.Infix

/-!
# Shell tools on lines of text

`grep`, `cut` and command substitution, over lists of characters. A text is split at each
newline, so that behind the last one there is an empty line that no pattern is in. Patterns are
plain characters, without the operators of a regular expression.

- `textLines`: the lines of a text. `textLines_flatMap_append` reads back lines that were printed
  with a newline each, and leaves the rest of the text to be read.
- `grep`: the lines in which the pattern is. `grep_append` splits a search at a newline, `grep_line`
  is one line with the pattern, and `grep_eq_nil` is a search that a character of the pattern rules
  out.
- `cutSecond`: `cut -f2` on one line. `cut_two` is the case of two fields; a line without a tab is
  printed as it is.
- `substituted`: what `$(…)` makes of printed lines, with the newlines at the end left out and those
  between the lines kept.
-/

namespace Lib

/-- The lines of a text. -/
def textLines (text : List Char) : List (List Char) := text.splitOn '\n'

/-- `grep pattern`: the lines in which the pattern is. -/
def grep (pattern text : List Char) : List (List Char) :=
  (textLines text).filter fun line => pattern <:+: line

/-- `cut -f2` on one line: the second of its fields. A line without a tab is printed as it
is. -/
def cutSecond (line : List Char) : List Char :=
  match line.splitOn '\t' with
  | _ :: field :: _ => field
  | _ => line

/-- What `$(...)` makes of lines that are printed: newlines at the end are left out. -/
def substituted (printed : List (List Char)) : List Char :=
  (['\n'].intercalate printed).rdropWhile (· = '\n')

variable {pattern text rest line : List Char} {c : Char}

/-- The pieces of a list are pieces of it. -/
theorem mem_of_mem_splitOn {α : Type} [DecidableEq α] {a b : α} {l piece : List α}
    (hpiece : piece ∈ l.splitOn a) (hb : b ∈ piece) : b ∈ l := by
  induction l generalizing piece with
  | nil =>
    rw [List.splitOn_nil, List.mem_singleton] at hpiece
    rw [hpiece] at hb
    cases hb
  | cons x l ih =>
    rw [List.splitOn_cons_eq_if_modifyHead] at hpiece
    split at hpiece
    · rcases List.mem_cons.mp hpiece with rfl | hpiece
      · cases hb
      · exact List.mem_cons_of_mem _ (ih hpiece hb)
    · obtain ⟨head, pieces, hsplit⟩ := List.exists_cons_of_ne_nil (List.splitOn_ne_nil a l)
      rw [hsplit] at ih hpiece
      rcases List.mem_cons.mp hpiece with rfl | hpiece
      · rcases List.mem_cons.mp hb with rfl | hb
        · exact List.mem_cons_self
        · exact List.mem_cons_of_mem _ (ih List.mem_cons_self hb)
      · exact List.mem_cons_of_mem _ (ih (List.mem_cons_of_mem _ hpiece) hb)

/-- Lines that are printed one after the other are read back. -/
theorem textLines_flatMap_append {lines : List (List Char)} (h : ∀ line ∈ lines, '\n' ∉ line)
    (rest : List Char) :
    textLines ((lines.flatMap fun line => line ++ ['\n']) ++ rest) =
      lines ++ textLines rest := by
  induction lines with
  | nil => rfl
  | cons line lines ih =>
    obtain ⟨hline, hlines⟩ := List.forall_mem_cons.mp h
    rw [List.flatMap_cons, List.append_assoc, List.append_assoc, List.singleton_append, textLines,
      List.splitOn_append_cons_self_of_not_mem hline, ← textLines, ih hlines]
    rfl

theorem textLines_flatMap {lines : List (List Char)} (h : ∀ line ∈ lines, '\n' ∉ line) :
    textLines (lines.flatMap fun line => line ++ ['\n']) = lines ++ [[]] := by
  have hlines := textLines_flatMap_append h []
  rwa [List.append_nil] at hlines

theorem grep_append (pattern text rest : List Char) :
    grep pattern (text ++ '\n' :: rest) = grep pattern text ++ grep pattern rest := by
  rw [grep, textLines, List.splitOn_append_cons_self, List.filter_append]
  rfl

/-- A text without a character of the pattern has no line with the pattern. -/
theorem grep_eq_nil (hc : c ∈ pattern) (h : c ∉ text) : grep pattern text = [] := by
  refine List.filter_eq_nil_iff.mpr ?_
  intro line hline hfound
  exact h (mem_of_mem_splitOn hline ((of_decide_eq_true hfound).subset hc))

/-- One line with the pattern. -/
theorem grep_line (hline : '\n' ∉ line) (hfound : pattern <:+: line) :
    grep pattern line = [line] := by
  rw [grep, textLines, List.splitOn_eq_singleton hline]
  exact List.filter_cons_of_pos (decide_eq_true hfound)

theorem cut_two {first second : List Char} (hfirst : '\t' ∉ first) (hsecond : '\t' ∉ second) :
    cutSecond (first ++ '\t' :: second) = second := by
  rw [cutSecond, List.splitOn_append_cons_self_of_not_mem hfirst,
    List.splitOn_eq_singleton hsecond]

theorem substituted_singleton (h : '\n' ∉ line) : substituted [line] = line := by
  rw [substituted, List.intercalate_singleton]
  refine List.rdropWhile_eq_self_iff.mpr ?_
  intro hne hlast
  exact h (of_decide_eq_true hlast ▸ List.getLast_mem hne)

end Lib
