import Cosc240.Lib.CArray
import Mathlib.Data.List.Palindrome

/-!
# `is_palindrome`

The function of `palindrome.c` (tutorial5/palindrome.c:48–71) compares the ends of a word, and calls
itself for a copy of what is between them. The copy is in an array of its own with one element more
than the characters it holds, so each call is for a shorter array than the one before.

- `newArray`: an array before anything is stored in it. What is there is a parameter.
- `isPalindrome`: the function, if no more than so many calls are nested. Accesses outside of an
  array have no result.
- `IsPalindrome`: what it is to decide. A word is its own reversal, up to letter case.
- `Ascii`: ASCII characters, and no NUL.

Main results:

- `isPalindrome_cons_concat`: on the side of lists, a word is a palindrome if its ends are equal and
  what is between them is one.
- `copy_middle`: the characters between the ends are copied, and the array is terminated.
- `isPalindrome_step` and `isPalindrome_eq`: one call for a longer word, and by induction all of
  them.
- `isPalindrome_decides`: on a string in memory, whatever is behind its NUL and in the new arrays,
  as many calls as half of the characters are nested at most, each access is inside of the array it
  is made in, and the answer is right.
-/

namespace Cosc240

open Lib CArray

namespace Palindromes

/-- `char a[n]`, before anything is stored: `fresh n` is what is there. -/
def newArray (fresh : Nat → Nat → Char) (n : Int) : List Char :=
  (List.range n.toNat).map (fresh n.toNat)

/-- `is_palindrome(word)`, if no more than so many calls are nested. -/
def isPalindrome (fresh : Nat → Nat → Char) : Nat → List Char → Option Bool
  | 0, _ => none
  | calls + 1, word => do
    let len := CInt.ofSize (← strlen word)
    if len ≤ 1 then return true
    let first ← tolower (← load word 0)
    let last ← tolower (← load word (len - 1))
    if first ≠ last then return false
    if len = 2 then return true
    let substring := newArray fresh (len - 1)
    let substring ← strncpy substring (word.drop 1) (len - 2).toNat
    let substring ← store substring (len - 2) '\x00'
    isPalindrome fresh calls substring

/-- A word that is its own reversal, up to letter case. -/
def IsPalindrome (word : List Char) : Prop := (word.map Char.toLower).Palindrome

instance (word : List Char) : Decidable (IsPalindrome word) :=
  inferInstanceAs (Decidable (word.map Char.toLower).Palindrome)

/-- ASCII characters, and no NUL. -/
def Ascii (word : List Char) : Prop := ∀ c ∈ word, c.toNat < 128 ∧ c ≠ '\x00'

theorem Ascii.nul_not_mem {word : List Char} (h : Ascii word) : '\x00' ∉ word :=
  fun hmem => (h _ hmem).2 rfl

theorem length_newArray (fresh : Nat → Nat → Char) (n : Nat) :
    (newArray fresh n).length = n := by
  rw [newArray, List.length_map, List.length_range, Int.toNat_natCast]

/-! ## The three cases -/

theorem isPalindrome_nil : IsPalindrome [] := .nil

theorem isPalindrome_singleton (c : Char) : IsPalindrome [c] := .singleton _

/-- The ends, and what is between them. -/
theorem isPalindrome_cons_concat {a b : Char} {l : List Char} :
    IsPalindrome (a :: (l ++ [b])) ↔ a.toLower = b.toLower ∧ IsPalindrome l := by
  unfold IsPalindrome
  rw [List.Palindrome.iff_reverse_eq, List.Palindrome.iff_reverse_eq, List.map_cons,
    List.map_append, List.map_singleton, List.reverse_cons, List.reverse_append,
    List.reverse_singleton, List.singleton_append, List.cons_append, List.cons.injEq]
  constructor
  · rintro ⟨hends, htail⟩
    exact ⟨hends.symm, (List.append_inj' htail rfl).1⟩
  · rintro ⟨hends, hinner⟩
    exact ⟨hends.symm, by rw [hinner, hends]⟩

section

variable {fresh : Nat → Nat → Char} {calls : Nat} {rest : List Char}

/-- A word of at most one character. -/
theorem isPalindrome_of_length_le_one {word : List Char} (hword : Ascii word)
    (hle : word.length ≤ 1) :
    isPalindrome fresh (calls + 1) (word ++ '\x00' :: rest) = some true := by
  have hlen : CInt.ofSize word.length = word.length :=
    CInt.ofSize_of_le (by unfold CInt.intMax; omega)
  rw [isPalindrome, strlen_append hword.nul_not_mem, Option.bind_eq_bind, Option.bind_some, hlen]
  exact if_pos (by omega)

theorem load_last {a b : Char} {l : List Char} :
    load (a :: (l ++ [b]) ++ '\x00' :: rest) (l.length + 2 - 1) = some b := by
  have hindex : (l.length : Int) + 2 - 1 = (a :: l).length := by
    rw [List.length_cons, Int.natCast_add]
    omega
  rw [hindex, ← List.cons_append, List.append_assoc]
  exact load_append

/-- The characters between the first and the last one are copied, and the array is
terminated. -/
theorem copy_middle {a b : Char} {l : List Char} (hnul : '\x00' ∉ l) :
    ((strncpy (newArray fresh (l.length + 2 - 1)) ((a :: (l ++ [b]) ++ '\x00' :: rest).drop 1)
        ((l.length : Int) + 2 - 2).toNat).bind
      fun substring => store substring (l.length + 2 - 2) '\x00') = some (l ++ ['\x00']) := by
  have hcopy : (l.length : Int) + 2 - 2 = l.length := by omega
  have harray : (l.length : Int) + 2 - 1 = ((l.length + 1 : Nat) : Int) := by omega
  have hdrop : (a :: (l ++ [b]) ++ '\x00' :: rest).drop 1 = l ++ b :: '\x00' :: rest := by simp
  have hcopied : ∃ c, strncpy (newArray fresh (l.length + 1 : Nat)) (l ++ b :: '\x00' :: rest)
      l.length = some (l ++ [c]) := strncpy_append hnul (length_newArray fresh (l.length + 1))
  obtain ⟨c, hc⟩ := hcopied
  rw [hcopy, harray, Int.toNat_natCast, hdrop, hc, Option.bind_some, store_append]

/-- One call for a longer word. -/
theorem isPalindrome_step {a b : Char} {l : List Char} (hword : Ascii (a :: (l ++ [b])))
    (hfits : ((a :: (l ++ [b])).length : Int) ≤ CInt.intMax) :
    isPalindrome fresh (calls + 1) (a :: (l ++ [b]) ++ '\x00' :: rest) =
      if a.toLower ≠ b.toLower then some false
      else if l = [] then some true
      else isPalindrome fresh calls (l ++ ['\x00']) := by
  have hlength : (a :: (l ++ [b])).length = l.length + 2 := by simp
  have hlen : CInt.ofSize (a :: (l ++ [b])).length = l.length + 2 := by
    rw [CInt.ofSize_of_le hfits, hlength, Int.natCast_add]
    rfl
  have hmem : ∀ c ∈ a :: (l ++ [b]), c.toNat < 128 := fun c hc => (hword c hc).1
  have hfirst : tolower a = some a.toLower := tolower_of_lt (hmem a List.mem_cons_self)
  have hlast : tolower b = some b.toLower := tolower_of_lt (hmem b (by simp))
  have hload : load (a :: (l ++ [b]) ++ '\x00' :: rest) 0 = some a := rfl
  rw [isPalindrome, strlen_append hword.nul_not_mem, Option.bind_eq_bind, Option.bind_some, hlen]
  show (if (l.length : Int) + 2 ≤ 1 then some true else _) = _
  rw [if_neg (by omega), hload, load_last]
  show ((tolower a).bind fun first => (tolower b).bind fun last => _) = _
  rw [hfirst, hlast, Option.bind_some, Option.bind_some]
  by_cases hends : a.toLower ≠ b.toLower
  · rw [if_pos hends, if_pos hends]
    rfl
  · rw [if_neg hends, if_neg hends]
    by_cases hl : l = []
    · rw [if_pos hl, if_pos (by rw [hl]; rfl)]
      rfl
    · have hpos : 0 < l.length := List.length_pos_iff.mpr hl
      have hnul : '\x00' ∉ l := fun hc => hword.nul_not_mem (by simp [hc])
      rw [if_neg hl, if_neg (by omega)]
      refine (Option.bind_assoc _ _ _).symm.trans ?_
      exact congrArg (Option.bind · (isPalindrome fresh calls)) (copy_middle hnul)

/-- **What it decides.** Half as many calls as there are characters are enough, no access
is outside of an array, and the answer is right. -/
theorem isPalindrome_eq {word : List Char} (hword : Ascii word)
    (hfits : (word.length : Int) ≤ CInt.intMax) (hcalls : word.length < 2 * calls) :
    isPalindrome fresh calls (word ++ '\x00' :: rest) = some (decide (IsPalindrome word)) := by
  induction word using List.bidirectionalRec generalizing calls rest with
  | nil =>
    obtain ⟨calls, rfl⟩ := Nat.exists_eq_succ_of_ne_zero (by omega : calls ≠ 0)
    rw [isPalindrome_of_length_le_one hword (Nat.zero_le 1), decide_eq_true isPalindrome_nil]
  | singleton c =>
    obtain ⟨calls, rfl⟩ := Nat.exists_eq_succ_of_ne_zero (by omega : calls ≠ 0)
    rw [isPalindrome_of_length_le_one hword (le_refl 1),
      decide_eq_true (isPalindrome_singleton c)]
  | cons_append a l b ih =>
    obtain ⟨calls, rfl⟩ := Nat.exists_eq_succ_of_ne_zero (by omega : calls ≠ 0)
    have hlength : (a :: (l ++ [b])).length = l.length + 2 := by simp
    have hl : Ascii l := fun c hc => hword c (by simp [hc])
    rw [isPalindrome_step hword hfits]
    by_cases hends : a.toLower = b.toLower
    · rw [if_neg (not_not.mpr hends), decide_eq_decide.mpr
        (isPalindrome_cons_concat.trans (and_iff_right hends))]
      split
      · next hnil => exact congrArg some (decide_eq_true (hnil ▸ isPalindrome_nil)).symm
      · exact ih hl (by omega) (by omega)
    · rw [if_pos hends, decide_eq_false fun h => hends (isPalindrome_cons_concat.mp h).1]

end

/-- **The recursive test** on a string in memory, whatever is behind its NUL and in the new
arrays: as many calls as half of the characters are nested at most, each access is inside of
the array it is made in, and the answer is right. -/
theorem isPalindrome_decides (fresh : Nat → Nat → Char) (word rest : List Char)
    (hword : Ascii word) (hfits : (word.length : Int) ≤ CInt.intMax) (calls : Nat)
    (hcalls : word.length < 2 * calls) :
    ∃ result, isPalindrome fresh calls (word ++ '\x00' :: rest) = some result ∧
      (result = true ↔ (word.map Char.toLower).reverse = word.map Char.toLower) := by
  refine ⟨_, isPalindrome_eq hword hfits hcalls, ?_⟩
  rw [decide_eq_true_iff, IsPalindrome, List.Palindrome.iff_reverse_eq]

/-- The test of `Lol`, in an array that holds more than the word. -/
theorem isPalindrome_decides_lol :
    ∃ result, isPalindrome (fun _ _ => '?') 2 (['L', 'o', 'l'] ++ '\x00' :: ['x', 'y']) =
        some result ∧
      (result = true ↔ (['L', 'o', 'l'].map Char.toLower).reverse =
        ['L', 'o', 'l'].map Char.toLower) :=
  isPalindrome_decides (fun _ _ => '?') ['L', 'o', 'l'] ['x', 'y'] (by simp [Ascii])
    (by decide) 2 (by decide)

end Palindromes

end Cosc240
