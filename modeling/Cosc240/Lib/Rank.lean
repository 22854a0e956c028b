import Mathlib.Algebra.Order.Field.Rat
import Mathlib.Data.Finset.Max
import Mathlib.Data.List.Count
import Mathlib.Tactic.Positivity
import Mathlib.Tactic.Linarith

/-!
# Competition ranks

The rank of a value in a list is one more than the number of smaller values:
equal values share a rank, and there is a gap after them. Divided by the largest
rank that occurs, ranks turn into scores between 0 and 1. The values are from any linear order, and
the scores are rationals.

- `rank`, `maxRank`, `rankScore`: the rank, the largest rank of a value in the list, and
  `1 - (rank - 1) / maxRank`.
- `rankScore_pos`, `rankScore_le_one`: the bounds. The score of a smallest value is 1
  (`rankScore_eq_one`), and no score is 0.
- `rankScore_lt_rankScore`: of two values of the list the smaller one has the larger score.
- `rank_perm`, `rankScore_perm`: ranks do not see the order of the list.
- `maxRank_eq_rank`: the largest value has the largest rank.
- `rankScore_cons_le`: if one value of a list is made smaller, its score does not get smaller,
  although the largest rank may change with it. This takes the inequality `rank_mul_maxRank_le`
  between the ranks before and after, multiplied out.
-/

namespace Lib

variable {α : Type*} [LinearOrder α]

/-- One more than the number of smaller values. -/
def rank (l : List α) (a : α) : Nat := 1 + l.countP fun b => b < a

/-- The largest rank of a value in the list. -/
def maxRank (l : List α) : Nat := (l.map (rank l)).foldl max 0

/-- From 1 for the first rank down to what the largest rank leaves. -/
def rankScore (l : List α) (a : α) : ℚ := 1 - ((rank l a : ℚ) - 1) / maxRank l

theorem le_foldl_max (l : List Nat) (a : Nat) :
    a ≤ l.foldl max a ∧ ∀ b ∈ l, b ≤ l.foldl max a := by
  induction l generalizing a with
  | nil => exact ⟨Nat.le_refl a, (fun _ h => nomatch h)⟩
  | cons c l ih =>
    obtain ⟨hle, hmem⟩ := ih (max a c)
    rw [List.foldl_cons]
    refine ⟨(Nat.le_max_left a c).trans hle, ?_⟩
    intro b hb
    rcases List.mem_cons.mp hb with rfl | hb
    · exact (Nat.le_max_right a b).trans hle
    · exact hmem b hb

variable {l : List α} {a b : α}

theorem one_le_rank : 1 ≤ rank l a := Nat.le_add_right 1 _

theorem rank_le_rank (h : a ≤ b) : rank l a ≤ rank l b := by
  refine Nat.add_le_add_left (List.countP_mono_left ?_) 1
  intro c _ hc
  exact decide_eq_true ((of_decide_eq_true hc).trans_le h)

/-- A smaller value of the list makes the difference. -/
theorem rank_lt_rank (ha : a ∈ l) (h : a < b) : rank l a < rank l b := by
  obtain ⟨l₁, l₂, rfl⟩ := List.append_of_mem ha
  have h₁ : rank l₁ a ≤ rank l₁ b := rank_le_rank h.le
  have h₂ : rank l₂ a ≤ rank l₂ b := rank_le_rank h.le
  unfold rank at *
  rw [List.countP_append, List.countP_append, List.countP_cons_of_neg (by simp),
    List.countP_cons_of_pos (by simpa using h)]
  omega

theorem rank_eq_one (h : ∀ b ∈ l, a ≤ b) : rank l a = 1 := by
  have hzero : (l.countP fun b => b < a) = 0 := by
    rw [List.countP_eq_zero]
    intro b hb hlt
    exact absurd (of_decide_eq_true hlt) (not_lt.mpr (h b hb))
  rw [rank, hzero]

theorem rank_le_maxRank (ha : a ∈ l) : rank l a ≤ maxRank l :=
  (le_foldl_max _ 0).2 _ (List.mem_map_of_mem ha)

theorem maxRank_pos (ha : a ∈ l) : 0 < maxRank l :=
  Nat.lt_of_lt_of_le one_le_rank (rank_le_maxRank ha)

theorem rankScore_pos (ha : a ∈ l) : 0 < rankScore l a := by
  have hpos : (0 : ℚ) < maxRank l := Nat.cast_pos.mpr (maxRank_pos ha)
  have hle : (rank l a : ℚ) ≤ maxRank l := Nat.cast_le.mpr (rank_le_maxRank ha)
  have hlt : ((rank l a : ℚ) - 1) / maxRank l < 1 := by
    rw [div_lt_one hpos]
    linarith
  unfold rankScore
  linarith

theorem rankScore_le_one : rankScore l a ≤ 1 := by
  have hone : (1 : ℚ) ≤ rank l a := by exact_mod_cast one_le_rank
  have hnonneg : (0 : ℚ) ≤ ((rank l a : ℚ) - 1) / maxRank l :=
    div_nonneg (by linarith) (Nat.cast_nonneg _)
  unfold rankScore
  linarith

/-- A smaller value has the larger score. -/
theorem rankScore_lt_rankScore (ha : a ∈ l) (h : a < b) : rankScore l b < rankScore l a := by
  have hpos : (0 : ℚ) < maxRank l := Nat.cast_pos.mpr (maxRank_pos ha)
  have hrank : (rank l a : ℚ) < rank l b := Nat.cast_lt.mpr (rank_lt_rank ha h)
  have hlt : ((rank l a : ℚ) - 1) / maxRank l < ((rank l b : ℚ) - 1) / maxRank l := by
    rw [div_lt_div_iff_of_pos_right hpos]
    linarith
  unfold rankScore
  linarith

theorem rankScore_eq_one (h : ∀ b ∈ l, a ≤ b) : rankScore l a = 1 := by
  rw [rankScore, rank_eq_one h]
  simp

/-! ## The order of the list, and the names of the values -/

theorem rank_perm {l' : List α} (h : l.Perm l') (a : α) : rank l a = rank l' a :=
  congrArg (1 + ·) (h.countP_eq _)

theorem rank_cons (x : α) (l : List α) (a : α) :
    rank (x :: l) a = rank l a + if x < a then 1 else 0 := by
  simp [rank, List.countP_cons, Nat.add_assoc]

theorem rank_le_length (ha : a ∈ l) : rank l a ≤ l.length := by
  have hlt : (l.countP fun b => b < a) < l.length := by
    refine Nat.lt_of_le_of_ne List.countP_le_length fun heq => ?_
    exact lt_irrefl a (of_decide_eq_true (List.countP_eq_length.mp heq a ha))
  unfold rank
  omega

theorem rank_eq_length_succ (h : ∀ b ∈ l, b < a) : rank l a = l.length + 1 := by
  have heq : (l.countP fun b => b < a) = l.length :=
    List.countP_eq_length.mpr fun b hb => decide_eq_true (h b hb)
  rw [rank, heq, Nat.add_comm]

theorem maxRank_le {n : Nat} (h : ∀ a ∈ l, rank l a ≤ n) : maxRank l ≤ n := by
  have hfold : ∀ (ranks : List Nat) (start : Nat), start ≤ n → (∀ r ∈ ranks, r ≤ n) →
      ranks.foldl max start ≤ n := by
    intro ranks
    induction ranks with
    | nil => exact fun start hstart _ => hstart
    | cons r ranks ih =>
      intro start hstart hranks
      rw [List.foldl_cons]
      exact ih _ (max_le hstart (hranks r List.mem_cons_self))
        fun r' hr' => hranks r' (List.mem_cons_of_mem _ hr')
  exact hfold _ 0 (Nat.zero_le n) (List.forall_mem_map.mpr h)

/-- The largest value has the largest rank. -/
theorem maxRank_eq_rank (ha : a ∈ l) (h : ∀ b ∈ l, b ≤ a) : maxRank l = rank l a :=
  Nat.le_antisymm (maxRank_le fun b hb => rank_le_rank (h b hb)) (rank_le_maxRank ha)

theorem maxRank_perm {l' : List α} (h : l.Perm l') : maxRank l = maxRank l' := by
  refine Nat.le_antisymm (maxRank_le fun a ha => ?_) (maxRank_le fun a ha => ?_)
  · rw [rank_perm h]
    exact rank_le_maxRank (h.mem_iff.mp ha)
  · rw [← rank_perm h]
    exact rank_le_maxRank (h.mem_iff.mpr ha)

theorem rankScore_perm {l' : List α} (h : l.Perm l') (a : α) : rankScore l a = rankScore l' a := by
  rw [rankScore, rankScore, rank_perm h, maxRank_perm h]

/-! ## A smaller value in place of another -/

theorem rank_cons_self (l : List α) (a : α) : rank (a :: l) a = rank l a := by
  rw [rank_cons, if_neg (lt_irrefl a), Nat.add_zero]

/-- Some value is larger than `a`: then the largest rank stays. -/
theorem maxRank_cons_eq (h : b < a) {x : α} (hx : x ∈ l) (hlt : a < x) :
    maxRank (a :: l) = maxRank (b :: l) := by
  obtain ⟨M, hM, hmax⟩ := l.toFinset.exists_max_image id ⟨x, List.mem_toFinset.mpr hx⟩
  rw [List.mem_toFinset] at hM
  have hle : ∀ y ∈ l, y ≤ M := fun y hy => hmax y (List.mem_toFinset.mpr hy)
  have haM : a < M := hlt.trans_le (hle x hx)
  have hlargest : ∀ c, c < M → maxRank (c :: l) = rank l M + 1 := by
    intro c hc
    have htop : ∀ y ∈ c :: l, y ≤ M := List.forall_mem_cons.mpr ⟨hc.le, hle⟩
    rw [maxRank_eq_rank (List.mem_cons_of_mem c hM) htop, rank_cons, if_pos hc]
  rw [hlargest a haM, hlargest b (h.trans haM)]

/-- The ranks and the largest ranks before and after, multiplied out. -/
theorem rank_mul_maxRank_le (l : List α) (h : b < a) :
    rank l b * maxRank (a :: l) + maxRank (b :: l) ≤
      rank l a * maxRank (b :: l) + maxRank (a :: l) := by
  have hle : rank l b ≤ rank l a := rank_le_rank h.le
  by_cases hlarger : ∃ x ∈ l, a < x
  · obtain ⟨x, hx, hlt⟩ := hlarger
    rw [maxRank_cons_eq h hx hlt]
    exact Nat.add_le_add_right (Nat.mul_le_mul_right _ hle) _
  · have htop : ∀ x ∈ l, x ≤ a := fun x hx => not_lt.mp fun hlt => hlarger ⟨x, hx, hlt⟩
    -- `a` was the largest value, perhaps with others
    have hmax : maxRank (a :: l) = rank l a := by
      rw [maxRank_eq_rank List.mem_cons_self (List.forall_mem_cons.mpr ⟨le_refl a, htop⟩),
        rank_cons_self]
    rw [hmax]
    by_cases ha : a ∈ l
    · -- the others stay behind, by one more
      have hmax' : maxRank (b :: l) = rank l a + 1 := by
        rw [maxRank_eq_rank (List.mem_cons_of_mem b ha)
          (List.forall_mem_cons.mpr ⟨h.le, htop⟩), rank_cons, if_pos h]
      have hone : 1 ≤ rank l a := one_le_rank
      rw [hmax']
      nlinarith
    · -- it was alone
      have hrank : rank l a = l.length + 1 :=
        rank_eq_length_succ fun x hx => lt_of_le_of_ne (htop x hx) fun heq => ha (heq ▸ hx)
      have hmax' : maxRank (b :: l) ≤ rank l a := by
        rw [hrank]
        exact maxRank_le fun x hx => rank_le_length hx
      have hrank' : rank l b ≤ maxRank (b :: l) := by
        rw [← rank_cons_self l b]
        exact rank_le_maxRank List.mem_cons_self
      nlinarith

/-- **A smaller value never has a smaller score**, although the largest rank may
change with it. -/
theorem rankScore_cons_le (l : List α) (h : b < a) :
    rankScore (a :: l) a ≤ rankScore (b :: l) b := by
  have hpos : (0 : ℚ) < maxRank (a :: l) := Nat.cast_pos.mpr (maxRank_pos List.mem_cons_self)
  have hpos' : (0 : ℚ) < maxRank (b :: l) := Nat.cast_pos.mpr (maxRank_pos List.mem_cons_self)
  have hmul : (rank l b * maxRank (a :: l) + maxRank (b :: l) : ℚ) ≤
      rank l a * maxRank (b :: l) + maxRank (a :: l) := by
    exact_mod_cast rank_mul_maxRank_le l h
  have hdiv : ((rank l b : ℚ) - 1) / maxRank (b :: l) ≤
      ((rank l a : ℚ) - 1) / maxRank (a :: l) := by
    rw [div_le_div_iff₀ hpos' hpos]
    linarith
  rw [rankScore, rankScore, rank_cons_self, rank_cons_self]
  linarith

end Lib
