import Cosc240.Lib.CInt
import Mathlib.Data.List.TakeWhile

/-!
# Strings in `char` arrays

An array, or what there is from a pointer on, is the list of its elements; an access
outside of it has no result. A string is what stands in front of the first NUL. The
`"C"` locale is assumed, and `char` is signed, so that `tolower` is not defined above
ASCII.

The functions of the standard library, each as it works on the elements:

- `load` and `store`: an element is read or replaced.
- `strlen` and `strcspn`: the length of the string at a pointer, and of its longest start without
  the rejected characters. Without a NUL in the array there is no result.
- `strncpy`: at most `n` characters, and NULs for what is left of the `n`. It does not write the
  NUL that ends the string if the string is too long.
- `tolower`: one character, in ASCII.

Below each of them is what it does to a string with a NUL behind it, which is how the lemmas are
used: `strlen_append`, `string_append`, `strcspn_append`, `load_append`, `store_append`,
`strncpy_append`, `tolower_of_lt`.
-/

namespace Lib

namespace CArray

/-- `a[i]`. -/
def load (a : List Char) (i : Int) : Option Char :=
  if 0 ≤ i then a[i.toNat]? else none

/-- `a[i] = c`. -/
def store (a : List Char) (i : Int) (c : Char) : Option (List Char) :=
  if 0 ≤ i ∧ i < a.length then some (a.set i.toNat c) else none

/-- `strlen(s)`. -/
def strlen (s : List Char) : Option Nat :=
  s.findIdx? fun c => c = '\x00'

/-- `strcspn(s, reject)`. -/
def strcspn (s reject : List Char) : Option Nat :=
  s.findIdx? fun c => c = '\x00' ∨ c ∈ reject

/-- `strncpy(dest, src, n)`: at most `n` characters of the string at `src`, and NULs for
what is left of the `n`. -/
def strncpy (dest src : List Char) (n : Nat) : Option (List Char) :=
  let copied := (src.take n).takeWhile fun c => c ≠ '\x00'
  if n ≤ dest.length ∧ (n ≤ src.length ∨ '\x00' ∈ src) then
    some (copied ++ List.replicate (n - copied.length) '\x00' ++ dest.drop n)
  else none

/-- `tolower(c)`. -/
def tolower (c : Char) : Option Char :=
  if c.toNat < 128 then some c.toLower else none

/-- The string at `s`. -/
def string (s : List Char) : Option (List Char) := do
  let n ← strlen s
  return s.take n

section

variable {s rest : List Char}

theorem findIdx?_append_cons {p : Char → Bool} {c : Char} (hs : ∀ d ∈ s, p d = false)
    (hc : p c = true) : (s ++ c :: rest).findIdx? p = some s.length := by
  have hnone : s.findIdx? p = none := List.findIdx?_eq_none_iff.mpr hs
  rw [List.findIdx?_append, hnone, List.findIdx?_cons, if_pos hc]
  simp

theorem strlen_append (hs : '\x00' ∉ s) : strlen (s ++ '\x00' :: rest) = some s.length :=
  findIdx?_append_cons (fun _ hd => decide_eq_false fun heq => hs (heq ▸ hd)) (decide_eq_true rfl)

theorem string_append (hs : '\x00' ∉ s) : string (s ++ '\x00' :: rest) = some s := by
  rw [string, strlen_append hs]
  exact congrArg some (List.take_left ..)

/-- The first character of `reject`, or else the NUL. -/
theorem strcspn_append {reject : List Char} {c : Char} (hs : '\x00' ∉ s)
    (hreject : ∀ d ∈ reject, d ∉ s) (hc : c = '\x00' ∨ c ∈ reject) :
    strcspn (s ++ c :: rest) reject = some s.length := by
  refine findIdx?_append_cons (fun d hd => decide_eq_false ?_) (decide_eq_true hc)
  rintro (rfl | hd')
  · exact hs hd
  · exact hreject d hd' hd

theorem load_append {c : Char} : load (s ++ c :: rest) s.length = some c := by
  rw [load, if_pos (Int.natCast_nonneg _), Int.toNat_natCast,
    List.getElem?_append_right (le_refl _), Nat.sub_self]
  rfl

theorem store_append {c d : Char} :
    store (s ++ c :: rest) s.length d = some (s ++ d :: rest) := by
  have hlt : (s.length : Int) < (s ++ c :: rest).length := by
    rw [List.length_append, List.length_cons]
    omega
  rw [store, if_pos ⟨Int.natCast_nonneg _, hlt⟩, Int.toNat_natCast,
    List.set_append_right _ _ (le_refl _), Nat.sub_self]
  rfl

/-- A copy that fills the array up to its last element, without the NUL. -/
theorem strncpy_append {dest : List Char} (hs : '\x00' ∉ s) (hdest : dest.length = s.length + 1) :
    ∃ c, strncpy dest (s ++ rest) s.length = some (s ++ [c]) := by
  have hcopied : ((s ++ rest).take s.length).takeWhile (fun c => c ≠ '\x00') = s := by
    rw [List.take_left, List.takeWhile_eq_self_iff]
    exact fun c hc => decide_eq_true fun heq => hs (heq ▸ hc)
  have hdrop : (dest.drop s.length).length = 1 := by
    rw [List.length_drop, hdest]
    omega
  obtain ⟨c, hc⟩ := List.length_eq_one_iff.mp hdrop
  refine ⟨c, ?_⟩
  rw [strncpy, hcopied, if_pos ⟨by omega, .inl (by simp)⟩, hc, Nat.sub_self]
  simp

theorem tolower_of_lt {c : Char} (h : c.toNat < 128) : tolower c = some c.toLower :=
  if_pos h

end

end CArray

end Lib
