import Mathlib.Tactic

/-!
# Chains of pointers

A memory in which each cell holds a pointer to a next one is a function `next : A → Option A`, with
`none` for the null pointer.  `Chain next p l` says that the pointers from `p` on visit exactly the
cells `l`, in this order.

* `Chain.congr`: a chain depends on its own cells only;
* `Chain.push`: a cell whose pointer has been set to a chain begins a longer one;
* `Chain.exists_tail`: the chain behind the first cell;
* `Chain.append_singleton`: a cell behind the last one, whose pointer has been set to it;
* `Chain.nodup`: a chain visits no cell twice;
* `Reaches next p b`: the pointers from `p` on come to `b`; along a chain these are its cells
  (`Chain.reaches_iff`).
-/

namespace LinkedChain

variable {A : Type*} {next next' : A → Option A} {p : Option A} {a : A} {l : List A}

/-- From `p` on, the pointers visit the cells `l` and end with null. -/
def Chain (next : A → Option A) : Option A → List A → Prop
  | p, [] => p = none
  | p, a :: l => p = some a ∧ Chain next (next a) l

theorem Chain.eq_nil (h : Chain next none l) : l = [] := by
  cases l with
  | nil => rfl
  | cons => cases h.1

theorem Chain.exists_tail (h : Chain next (some a) l) :
    ∃ m, l = a :: m ∧ Chain next (next a) m := by
  cases l with
  | nil => cases h
  | cons _ l =>
    obtain ⟨hb, h⟩ := h
    cases hb
    exact ⟨l, rfl, h⟩

/-- Writes to other cells do not change a chain. -/
theorem Chain.congr (h : Chain next p l) (heq : ∀ b ∈ l, next' b = next b) : Chain next' p l := by
  induction l generalizing p with
  | nil => exact h
  | cons b _ ih =>
    refine ⟨h.1, ?_⟩
    rw [heq b List.mem_cons_self]
    exact ih h.2 fun c hc => heq c (List.mem_cons_of_mem b hc)

/-- A cell in front of a chain. -/
theorem Chain.push (h : Chain next p l) (heq : ∀ b ∈ l, next' b = next b) (ha : next' a = p) :
    Chain next' (some a) (a :: l) :=
  ⟨rfl, ha ▸ h.congr heq⟩

/-- The cells of a chain are determined by its first pointer. -/
theorem Chain.unique {m : List A} (h : Chain next p l) (h' : Chain next p m) : l = m := by
  induction l generalizing p m with
  | nil =>
    cases h
    exact h'.eq_nil.symm
  | cons _ _ ih =>
    obtain ⟨rfl, h⟩ := h
    obtain ⟨m, rfl, hm⟩ := h'.exists_tail
    rw [ih h hm]

theorem Chain.of_append {l₁ l₂ : List A} (h : Chain next p (l₁ ++ a :: l₂)) :
    Chain next (next a) l₂ := by
  induction l₁ generalizing p with
  | nil => exact h.2
  | cons _ _ ih => exact ih h.2

/-- A chain that came back to a cell would never reach the null pointer. -/
theorem Chain.nodup (h : Chain next p l) : l.Nodup := by
  induction l generalizing p with
  | nil => exact List.nodup_nil
  | cons a _ ih =>
    refine List.nodup_cons.2 ⟨fun ha => ?_, ih h.2⟩
    obtain ⟨l₁, l₂, rfl⟩ := List.append_of_mem ha
    have heq : l₁ ++ a :: l₂ = l₂ := h.2.unique h.2.of_append
    have hlen := congrArg List.length heq
    rw [List.length_append, List.length_cons] at hlen
    omega

/-- A cell behind the last one. -/
theorem Chain.append_singleton [DecidableEq A] {b : A} (h : Chain next p l)
    (hl : l.getLast? = some a) (hb : next b = none) (hbl : b ∉ l) :
    Chain (Function.update next a (some b)) p (l ++ [b]) := by
  induction l generalizing p with
  | nil => cases hl
  | cons c l ih =>
    have hnd := List.nodup_cons.1 h.nodup
    refine ⟨h.1, ?_⟩
    cases l with
    | nil =>
      obtain rfl : c = a := Option.some.inj hl
      have hba : b ≠ c := fun hbc => hbl (hbc ▸ List.mem_cons_self)
      rw [Function.update_self]
      exact ⟨rfl, (Function.update_of_ne hba _ _).trans hb⟩
    | cons =>
      have hca : c ≠ a := fun hca => hnd.1 (hca ▸ List.mem_of_getLast? hl)
      rw [Function.update_of_ne hca]
      exact ih h.2 hl fun hm => hbl (List.mem_cons_of_mem c hm)

/-- Following the pointers from `p` on comes to `b`. -/
inductive Reaches (next : A → Option A) : Option A → A → Prop
  | here (b : A) : Reaches next (some b) b
  | there {a b : A} : Reaches next (next a) b → Reaches next (some a) b

/-- From the first pointer of a chain one comes to its cells and to no others. -/
theorem Chain.reaches_iff {b : A} (h : Chain next p l) : Reaches next p b ↔ b ∈ l := by
  induction l generalizing p with
  | nil =>
    obtain rfl : p = none := h
    constructor
    · intro hr
      cases hr
    · intro hb
      cases hb
  | cons _ _ ih =>
    obtain ⟨rfl, h⟩ := h
    rw [List.mem_cons]
    constructor
    · intro hr
      cases hr with
      | here => exact .inl rfl
      | there hr => exact .inr ((ih h).1 hr)
    · rintro (rfl | hb)
      · exact .here b
      · exact .there ((ih h).2 hb)

end LinkedChain
