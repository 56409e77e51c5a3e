import Mathlib.Tactic

/-!
# Even splits

`n` items are cut into `m` consecutive parts whose sizes differ by at most one; the first `n % m`
parts are the longer ones.

* `border n m i`: where the part `i` begins.  `border_zero` and `border_last`: the parts begin at
  `0` and end at `n`; `border_le_border_succ` and `border_succ_le`: a part has `n / m` or
  `n / m + 1` items; `border_lt_succ`: none is empty when there are at least as many items as parts.
* `part m i l`: the part `i` of a list.  `flatMap_part`: the first parts, one after another, are the
  beginning of the list.
* `EvenlyCut`: what the parts of a list are all together.
-/

namespace EvenSplit

def border (n m i : ℕ) : ℕ := i * (n / m) + min i (n % m)

variable {n m i j : ℕ}

@[simp] theorem border_zero (n m : ℕ) : border n m 0 = 0 := by simp [border]

theorem border_succ (n m i : ℕ) :
    border n m (i + 1) = border n m i + n / m + if i < n % m then 1 else 0 := by
  unfold border
  rw [Nat.succ_mul]
  split_ifs <;> omega

theorem border_le_border_succ (n m i : ℕ) : border n m i + n / m ≤ border n m (i + 1) := by
  rw [border_succ]
  exact Nat.le_add_right _ _

theorem border_succ_le (n m i : ℕ) : border n m (i + 1) ≤ border n m i + (n / m + 1) := by
  rw [border_succ, add_assoc]
  gcongr
  split_ifs <;> omega

theorem border_mono (n m : ℕ) : Monotone (border n m) :=
  monotone_nat_of_le_succ fun i => (Nat.le_add_right _ _).trans (border_le_border_succ n m i)

/-- The last part ends with the last item. -/
theorem border_last (hm : 0 < m) : border n m m = n := by
  unfold border
  rw [min_eq_right (Nat.mod_lt n hm).le]
  exact Nat.div_add_mod n m

theorem border_le (hm : 0 < m) (hi : i ≤ m) : border n m i ≤ n :=
  (border_mono n m hi).trans_eq (border_last hm)

/-- No part is empty. -/
theorem border_lt_succ (hm : 0 < m) (hn : m ≤ n) (i : ℕ) : border n m i < border n m (i + 1) := by
  have hpos : 0 < n / m := Nat.div_pos hn hm
  have hle := border_le_border_succ n m i
  omega

theorem border_lt (hn : m ≤ n) (hi : i < m) : border n m i < n :=
  (border_lt_succ (Nat.zero_lt_of_lt hi) hn i).trans_le (border_le (Nat.zero_lt_of_lt hi) hi)

section part

variable {α : Type*} {l : List α}

/-- The part `i` of a list that is cut into `m` parts. -/
def part (m i : ℕ) (l : List α) : List α :=
  (l.drop (border l.length m i)).take (border l.length m (i + 1) - border l.length m i)

theorem length_part (hi : i < m) :
    (part m i l).length = border l.length m (i + 1) - border l.length m i := by
  have hle : border l.length m (i + 1) ≤ l.length := border_le (Nat.zero_lt_of_lt hi) hi
  unfold part
  rw [List.length_take, List.length_drop]
  omega

/-- A part and what lies behind it. -/
theorem part_append (m i : ℕ) (l : List α) :
    part m i l ++ l.drop (border l.length m (i + 1)) = l.drop (border l.length m i) := by
  have hle : border l.length m i ≤ border l.length m (i + 1) := border_mono _ _ i.le_succ
  have hsplit : l.drop (border l.length m (i + 1)) =
      (l.drop (border l.length m i)).drop (border l.length m (i + 1) - border l.length m i) := by
    rw [List.drop_drop, Nat.add_sub_cancel' hle]
  rw [hsplit]
  exact List.take_append_drop _ _

theorem take_append_part (m i : ℕ) (l : List α) :
    l.take (border l.length m i) ++ part m i l = l.take (border l.length m (i + 1)) := by
  have hle : border l.length m i ≤ border l.length m (i + 1) := border_mono _ _ i.le_succ
  have hsplit := List.take_add (l := l) (i := border l.length m i)
    (j := border l.length m (i + 1) - border l.length m i)
  rw [Nat.add_sub_cancel' hle] at hsplit
  exact hsplit.symm

/-- The first parts, one after another. -/
theorem flatMap_part (m k : ℕ) (l : List α) :
    (List.range k).flatMap (fun i => part m i l) = l.take (border l.length m k) := by
  induction k with
  | zero => simp
  | succ k ih =>
    rw [List.range_succ, List.flatMap_append, ih, List.flatMap_singleton, take_append_part]

theorem part_ne_nil (hn : m ≤ l.length) (hi : i < m) : part m i l ≠ [] := by
  have hlt := border_lt_succ (Nat.zero_lt_of_lt hi) hn i
  refine List.ne_nil_of_length_pos ?_
  rw [length_part hi]
  omega

/-- Consecutive pieces of a list, none empty, whose lengths differ by at most one. -/
structure EvenlyCut (pieces : List (List α)) (l : List α) : Prop where
  flatten : pieces.flatten = l
  ne_nil : ∀ p ∈ pieces, p ≠ []
  even : ∀ p ∈ pieces, ∀ q ∈ pieces, p.length ≤ q.length + 1

theorem evenlyCut_parts (hm : 0 < m) (hn : m ≤ l.length) :
    EvenlyCut ((List.range m).map fun i => part m i l) l where
  flatten := by
    rw [← List.flatMap_def, flatMap_part, border_last hm, List.take_length]
  ne_nil := by
    intro p hp
    obtain ⟨i, hi, rfl⟩ := List.mem_map.1 hp
    exact part_ne_nil hn (List.mem_range.1 hi)
  even := by
    intro p hp q hq
    obtain ⟨i, hi, rfl⟩ := List.mem_map.1 hp
    obtain ⟨j, hj, rfl⟩ := List.mem_map.1 hq
    rw [length_part (List.mem_range.1 hi), length_part (List.mem_range.1 hj)]
    have hle := border_succ_le l.length m i
    have hge := border_le_border_succ l.length m j
    omega

end part

end EvenSplit
