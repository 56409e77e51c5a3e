import Concurrencpp.LinkedChain

/-!
# The intrusive singly linked list

`details::slist`: a head and a tail pointer.  The links lie in the nodes, so several lists share one
memory `next`, and a node that leaves a list keeps its link.

* `Slist.pushBack`, `Slist.popFront`: the source's two operations; the move constructor leaves
  `Slist.empty` behind.
* `Spells next l xs`: the list reads `xs` in this memory, from its head to its tail.
* `Spells.pushBack`, `Spells.popFront`: the operations are those of a queue, as long as a pushed
  node has a null link and is not in the list.
-/

namespace Concurrencpp

open LinkedChain

/-- `details::slist`. -/
structure Slist (ν : Type) where
  head : Option ν
  tail : Option ν
  deriving DecidableEq, Repr

namespace Slist

variable {ν : Type} {next next' : ν → Option ν} {l : Slist ν} {n : ν} {xs : List ν}

/-- A default-constructed list, and what the move constructor leaves. -/
def empty : Slist ν := ⟨none, none⟩

/-- `push_back`: the list and the memory behind it. -/
def pushBack [DecidableEq ν] (next : ν → Option ν) (l : Slist ν) (n : ν) :
    Slist ν × (ν → Option ν) :=
  match l.head with
  | none => (⟨some n, some n⟩, next)
  | some h =>
      match l.tail with
      | some t => (⟨some h, some n⟩, Function.update next t (some n))
      | none => (⟨some h, some n⟩, next)

/-- `pop_front`: the node and the list behind it. -/
def popFront (next : ν → Option ν) (l : Slist ν) : Option ν × Slist ν :=
  match l.head with
  | none => (none, l)
  | some h =>
      match next h with
      | none => (some h, ⟨none, none⟩)
      | some h' => (some h, ⟨some h', l.tail⟩)

/-- From its head to its tail, the list reads `xs`. -/
structure Spells (next : ν → Option ν) (l : Slist ν) (xs : List ν) : Prop where
  chain : Chain next l.head xs
  tail : l.tail = xs.getLast?

theorem spells_empty : Spells next (empty : Slist ν) [] := ⟨rfl, rfl⟩

theorem Spells.congr (h : Spells next l xs) (heq : ∀ b ∈ xs, next' b = next b) :
    Spells next' l xs :=
  ⟨h.chain.congr heq, h.tail⟩

theorem Spells.nodup (h : Spells next l xs) : xs.Nodup := h.chain.nodup

/-- What `push_back` writes in the memory lies in the list. -/
theorem pushBack_next [DecidableEq ν] (h : Spells next l xs) {b : ν} (hb : b ∉ xs) :
    (pushBack next l n).2 b = next b := by
  unfold pushBack
  split
  · rfl
  · split
    next t ht =>
      refine Function.update_of_ne (fun hbt => hb ?_) _ _
      rw [hbt]
      exact List.mem_of_getLast? (h.tail.symm.trans ht)
    next => rfl

/-- **`push_back` appends.** -/
theorem Spells.pushBack [DecidableEq ν] (h : Spells next l xs) (hn : next n = none) (hx : n ∉ xs) :
    Spells (pushBack next l n).2 (pushBack next l n).1 (xs ++ [n]) := by
  obtain ⟨head, tail⟩ := l
  obtain ⟨hc, ht⟩ := h
  cases xs with
  | nil =>
    cases hc
    exact ⟨⟨rfl, hn⟩, rfl⟩
  | cons a xs =>
    obtain ⟨rfl, hc⟩ := hc
    obtain ⟨t, ht'⟩ : ∃ t, (a :: xs).getLast? = some t :=
      ⟨_, List.getLast?_eq_some_getLast (List.cons_ne_nil a xs)⟩
    cases ht.trans ht'
    exact ⟨Chain.append_singleton ⟨rfl, hc⟩ ht' hn hx, (List.getLast?_concat ..).symm⟩

/-- **`pop_front` takes the first node.** -/
theorem Spells.popFront (h : Spells next l xs) :
    (popFront next l).1 = xs.head? ∧ Spells next (popFront next l).2 xs.tail := by
  obtain ⟨head, tail⟩ := l
  obtain ⟨hc, ht⟩ := h
  cases xs with
  | nil =>
    cases hc
    exact ⟨rfl, rfl, ht⟩
  | cons a xs =>
    obtain ⟨rfl, hc⟩ := hc
    cases xs with
    | nil =>
      have hc : next a = none := hc
      simp only [Slist.popFront, hc]
      exact ⟨rfl, rfl, rfl⟩
    | cons b =>
      have hb : next a = some b := hc.1
      simp only [Slist.popFront, hb]
      refine ⟨rfl, ⟨rfl, hc.2⟩, ht.trans ?_⟩
      exact List.getLast?_cons_cons

end Slist
end Concurrencpp
