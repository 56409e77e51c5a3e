import Concurrencpp.Interleaving
import Concurrencpp.Slist

/-!
# Any number of slist objects over one memory

The nodes of `details::slist` carry the links, `push_back` does not reset the link of the node it
takes and `pop_front` leaves the link of the node it gives back.  Every `slist` object of the
program therefore reads and writes the same memory, and a node outside all lists may still point
into one.  Here the objects, indexed by `ι`, are used in any order; beside them the run records for
each object the nodes pushed and not yet popped, in push order.

* `Slists`, `SlistMove`, `Slists.step`: the objects, the memory, and the source's operations on
  them; whoever owns a node that is in no list may write its link.
* `Slists.Admissible`: a node is pushed when it is in no list and its link is null.
* `Slists.Ok`: each object spells its record, and no node is in two records.
* `Slists.slists_are_fifo`: each object is a FIFO queue, separate from the others, after every run.
-/

namespace Concurrencpp

open Interleaving
open LinkedChain
open Function (update update_self update_of_ne)

namespace Slist

variable {ν : Type} {next : ν → Option ν} {l : Slist ν} {xs : List ν}

/-- `assert_state`: whether its assertions pass. -/
def assertState (l : Slist ν) : Bool :=
  match l.head with
  | none => l.tail.isNone
  | some _ => l.tail.isSome

/-- `empty`. -/
def isEmpty (l : Slist ν) : Bool := l.head.isNone

theorem Spells.head_eq (h : Spells next l xs) : l.head = xs.head? := by
  cases xs with
  | nil => exact h.chain
  | cons => exact h.chain.1

theorem Spells.head_eq_none (h : Spells next l xs) : l.head = none ↔ xs = [] := by
  rw [h.head_eq, List.head?_eq_none_iff]

theorem Spells.tail_eq_none (h : Spells next l xs) : l.tail = none ↔ xs = [] := by
  rw [h.tail, List.getLast?_eq_none_iff]

theorem Spells.isEmpty (h : Spells next l xs) : l.isEmpty = xs.isEmpty := by
  unfold Slist.isEmpty
  rw [h.head_eq]
  cases xs with
  | nil => rfl
  | cons => rfl

theorem Spells.assertState (h : Spells next l xs) : l.assertState = true := by
  unfold Slist.assertState
  split
  next hhead =>
    have htail : l.tail = none := h.tail_eq_none.2 (h.head_eq_none.1 hhead)
    rw [htail]
    rfl
  next a hhead =>
    have hxs : xs ≠ [] := by
      intro hxs
      cases hhead.symm.trans (h.head_eq_none.2 hxs)
    exact Option.isSome_iff_ne_none.2 fun htail => hxs (h.tail_eq_none.1 htail)

end Slist

/-- The `slist` objects of a program, over one memory of links.  `queues` is a record of the run:
the nodes pushed to each object and not yet popped, in push order. -/
structure Slists (ι ν : Type) where
  next : ν → Option ν
  lists : ι → Option (Slist ν)
  queues : ι → List ν
  assertFailed : Bool

/-- The operations; `write` is what the owner of a node does with it outside the lists. -/
inductive SlistMove (ι ν : Type)
  | construct (i : ι)
  | moveConstruct (i rhs : ι)
  | empty (i : ι)
  | pushBack (i : ι) (n : ν)
  | popFront (i : ι)
  | write (n : ν) (p : Option ν)

namespace Slists

variable {ι ν : Type} [DecidableEq ι] [DecidableEq ν]

/-- No object, and any links in the memory. -/
def IsInitial (s : Slists ι ν) : Prop :=
  s.lists = (fun _ => none) ∧ s.queues = (fun _ => []) ∧ s.assertFailed = false

/-- `assert_state` of the object `l`. -/
def check (s : Slists ι ν) (l : Slist ν) : Slists ι ν :=
  { s with assertFailed := s.assertFailed || !l.assertState }

/-- An object constructed in the place `i`. -/
def place (s : Slists ι ν) (i : ι) (l : Slist ν) (q : List ν) : Slists ι ν :=
  { s with
    lists := update s.lists i (some l)
    queues := update s.queues i q }

def construct (s : Slists ι ν) (i : ι) : Option (Slists ι ν) :=
  if s.lists i = none then some (s.place i .empty []) else none

/-- The move constructor: the new object has the old one's pointers, which become null there. -/
def moveConstruct (s : Slists ι ν) (i rhs : ι) : Option (Slists ι ν) :=
  if s.lists i = none then
    (s.lists rhs).map fun l => (s.place i l (s.queues rhs)).place rhs .empty []
  else none

def pushBack (s : Slists ι ν) (i : ι) (n : ν) : Option (Slists ι ν) :=
  (s.lists i).map fun l =>
    let r := l.pushBack s.next n
    { (s.check l).place i r.1 (s.queues i ++ [n]) with next := r.2 }

def popFront (s : Slists ι ν) (i : ι) : Option (Slists ι ν) :=
  (s.lists i).map fun l => (s.check l).place i (l.popFront s.next).2 (s.queues i).tail

def step (s : Slists ι ν) : SlistMove ι ν → Option (Slists ι ν)
  | .construct i => s.construct i
  | .moveConstruct i rhs => s.moveConstruct i rhs
  | .empty i => (s.lists i).map s.check
  | .pushBack i n => s.pushBack i n
  | .popFront i => s.popFront i
  | .write n p => some { s with next := update s.next n p }

/-- The node is in no list. -/
def Free (s : Slists ι ν) (n : ν) : Prop := ∀ i, n ∉ s.queues i

instance [Fintype ι] (s : Slists ι ν) (n : ν) : Decidable (s.Free n) :=
  inferInstanceAs (Decidable (∀ i, n ∉ s.queues i))

/-- A pushed node is in no list and has a null link; only links of nodes outside the lists are
written from outside. -/
def Admissible (s : Slists ι ν) : SlistMove ι ν → Prop
  | .pushBack _ n => s.Free n ∧ s.next n = none
  | .write n _ => s.Free n
  | _ => True

instance [Fintype ι] (s : Slists ι ν) (m : SlistMove ι ν) : Decidable (s.Admissible m) := by
  cases m <;> unfold Admissible <;> infer_instance

/-! ### The invariant -/

/-- Each object spells its record, and the records are separate. -/
structure Ok (s : Slists ι ν) : Prop where
  spells : ∀ i l, s.lists i = some l → l.Spells s.next (s.queues i)
  vacant : ∀ i, s.lists i = none → s.queues i = []
  apart : ∀ i j n, i ≠ j → n ∈ s.queues i → n ∉ s.queues j
  asserts : s.assertFailed = false

variable {s t : Slists ι ν} {i rhs : ι} {n : ν}

omit [DecidableEq ι] [DecidableEq ν] in
theorem Ok.of_isInitial (h : s.IsInitial) : s.Ok := by
  obtain ⟨hl, hq, ha⟩ := h
  have hq' : ∀ i, s.queues i = [] := fun i => congrFun hq i
  refine ⟨fun i l hi => ?_, fun i _ => hq' i, fun i j n _ hn => ?_, ha⟩
  · rw [hl] at hi
    cases hi
  · rw [hq' i] at hn
    cases hn

omit [DecidableEq ι] [DecidableEq ν] in
theorem Ok.check (h : s.Ok) {l : Slist ν} (hl : s.lists i = some l) : s.check l = s := by
  have ha : (s.assertFailed || !l.assertState) = s.assertFailed := by
    rw [(h.spells i l hl).assertState]
    exact Bool.or_false _
  unfold Slists.check
  rw [ha]

omit [DecidableEq ν] in
/-- One object and the memory change.  The object spells its new record, whose nodes the other
records do not have, and the links of those other nodes are as they were. -/
theorem Ok.place (h : s.Ok) {next : ν → Option ν} {l : Slist ν} {q : List ν} (hl : l.Spells next q)
    (hframe : ∀ j, j ≠ i → ∀ n ∈ s.queues j, next n = s.next n)
    (hq : ∀ j, j ≠ i → ∀ n ∈ q, n ∉ s.queues j) : Ok { s.place i l q with next := next } := by
  have hlself : (s.place i l q).lists i = some l := update_self ..
  have hqself : (s.place i l q).queues i = q := update_self ..
  have hlne : ∀ j, j ≠ i → (s.place i l q).lists j = s.lists j := fun j hj =>
    update_of_ne hj _ _
  have hqne : ∀ j, j ≠ i → (s.place i l q).queues j = s.queues j := fun j hj =>
    update_of_ne hj _ _
  refine ⟨fun j l' hj => ?_, fun j hj => ?_, fun j k n hjk hn hk => ?_, h.asserts⟩
  · by_cases hji : j = i
    · subst hji
      cases hlself.symm.trans hj
      exact hqself.symm ▸ hl
    · have hj' : s.lists j = some l' := (hlne j hji).symm.trans hj
      exact (hqne j hji).symm ▸ (h.spells j l' hj').congr (hframe j hji)
  · by_cases hji : j = i
    · subst hji
      cases hlself.symm.trans hj
    · exact (hqne j hji).trans (h.vacant j ((hlne j hji).symm.trans hj))
  · -- the changed record may be the one on either side
    change n ∈ (s.place i l q).queues j at hn
    change n ∈ (s.place i l q).queues k at hk
    by_cases hji : j = i
    · subst hji
      rw [hqself] at hn
      rw [hqne k (Ne.symm hjk)] at hk
      exact hq k (Ne.symm hjk) n hn hk
    · rw [hqne j hji] at hn
      by_cases hki : k = i
      · subst hki
        rw [hqself] at hk
        exact hq j hji n hk hn
      · rw [hqne k hki] at hk
        exact h.apart j k n hjk hn hk

omit [DecidableEq ν] in
theorem Ok.construct (h : s.Ok) (hs : s.construct i = some t) : t.Ok := by
  unfold Slists.construct at hs
  split_ifs at hs
  cases hs
  exact h.place Slist.spells_empty (fun _ _ _ _ => rfl) fun _ _ n hn => absurd hn List.not_mem_nil

omit [DecidableEq ν] in
/-- The move constructor, with the old object `l`. -/
theorem moveConstruct_eq_some (hs : s.moveConstruct i rhs = some t) :
    s.lists i = none ∧ i ≠ rhs ∧ ∃ l, s.lists rhs = some l ∧
      t = (s.place i l (s.queues rhs)).place rhs .empty [] := by
  unfold Slists.moveConstruct at hs
  split_ifs at hs with hi
  obtain ⟨l, hl, rfl⟩ := Option.map_eq_some_iff.1 hs
  refine ⟨hi, ?_, l, hl, rfl⟩
  rintro rfl
  cases hi.symm.trans hl

omit [DecidableEq ν] in
/-- The two objects of a move are written in either order. -/
theorem place_comm {l l' : Slist ν} {q q' : List ν} (hne : i ≠ rhs) :
    (s.place i l q).place rhs l' q' = (s.place rhs l' q').place i l q := by
  unfold Slists.place
  simp only [Function.update_comm hne]

omit [DecidableEq ν] in
theorem Ok.moveConstruct (h : s.Ok) (hs : s.moveConstruct i rhs = some t) : t.Ok := by
  obtain ⟨hi, hne, l, hl, rfl⟩ := moveConstruct_eq_some hs
  -- first the old object is emptied, so that the new one takes nodes that are in no record
  have hempty : Ok (s.place rhs .empty []) :=
    h.place Slist.spells_empty (fun _ _ _ _ => rfl) fun _ _ n hn => absurd hn List.not_mem_nil
  rw [place_comm hne]
  refine hempty.place (h.spells rhs l hl) (fun _ _ _ _ => rfl) fun j hji n hn => ?_
  by_cases hjr : j = rhs
  · subst hjr
    have hself : (s.place j .empty []).queues j = [] := update_self ..
    rw [hself]
    exact List.not_mem_nil
  · have hother : (s.place rhs .empty []).queues j = s.queues j := update_of_ne hjr _ _
    rw [hother]
    exact h.apart rhs j n (Ne.symm hjr) hn

theorem Ok.pushBack (h : s.Ok) (hfree : s.Free n) (hn : s.next n = none)
    (hs : s.pushBack i n = some t) : t.Ok := by
  obtain ⟨l, hl, rfl⟩ := Option.map_eq_some_iff.1 hs
  have hsp := h.spells i l hl
  simp only [h.check hl]
  refine h.place (hsp.pushBack hn (hfree i)) (fun j hj b hb => ?_) fun j hj b hb => ?_
  · exact Slist.pushBack_next hsp (h.apart j i b hj hb)
  · rcases List.mem_append.1 hb with hb | hb
    · exact h.apart i j b (Ne.symm hj) hb
    · rw [List.mem_singleton.1 hb]
      exact hfree j

omit [DecidableEq ν] in
theorem Ok.popFront (h : s.Ok) (hs : s.popFront i = some t) : t.Ok := by
  obtain ⟨l, hl, rfl⟩ := Option.map_eq_some_iff.1 hs
  rw [h.check hl]
  refine h.place (h.spells i l hl).popFront.2 (fun _ _ _ _ => rfl) fun j hj b hb => ?_
  exact h.apart i j b (Ne.symm hj) (List.mem_of_mem_tail hb)

omit [DecidableEq ι] in
theorem Ok.write (h : s.Ok) (hfree : s.Free n) (p : Option ν) :
    Ok { s with next := update s.next n p } := by
  refine ⟨fun i l hi => (h.spells i l hi).congr fun b hb => ?_, h.vacant, h.apart, h.asserts⟩
  refine update_of_ne ?_ _ _
  rintro rfl
  exact hfree i hb

theorem Ok.step (h : s.Ok) {m : SlistMove ι ν} (hm : s.Admissible m) (hs : s.step m = some t) :
    t.Ok := by
  cases m with
  | construct => exact h.construct hs
  | moveConstruct => exact h.moveConstruct hs
  | empty =>
    obtain ⟨l, hl, rfl⟩ := Option.map_eq_some_iff.1 hs
    exact (h.check hl).symm ▸ h
  | pushBack => exact h.pushBack hm.1 hm.2 hs
  | popFront => exact h.popFront hs
  | write _ p =>
    cases hs
    exact h.write hm p

theorem ok_of_reach (h : Reach step IsInitial Admissible s) : s.Ok :=
  h.invariant (fun _ => Ok.of_isInitial) fun _ _ _ hok hm hs => hok.step hm hs

/-! ### The queues -/

/-- What the object `l` in the place `i` is: a queue of the nodes pushed to it and not yet
popped. -/
structure IsFifo (s : Slists ι ν) (i : ι) (l : Slist ν) : Prop where
  /-- Head and tail are both null or both not. -/
  ends : l.head = none ↔ l.tail = none
  /-- The links from the head on visit the recorded nodes and end with null. -/
  chain : Chain s.next l.head (s.queues i)
  /-- The chain is acyclic. -/
  acyclic : (s.queues i).Nodup
  tail : l.tail = (s.queues i).getLast?
  /-- What `empty` answers. -/
  isEmpty : l.isEmpty = (s.queues i).isEmpty
  /-- `pop_front` gives the oldest node, or null. -/
  popFront : (l.popFront s.next).1 = (s.queues i).head?
  /-- No node of another object is reached from the head. -/
  separate : ∀ j, j ≠ i → ∀ n ∈ s.queues j, ¬ Reaches s.next l.head n

omit [DecidableEq ι] [DecidableEq ν] in
theorem Ok.isFifo (h : s.Ok) {l : Slist ν} (hl : s.lists i = some l) : s.IsFifo i l := by
  have hsp := h.spells i l hl
  refine ⟨?_, hsp.chain, hsp.nodup, hsp.tail, hsp.isEmpty, hsp.popFront.1, fun j hj n hn hr => ?_⟩
  · rw [hsp.head_eq_none, hsp.tail_eq_none]
  · exact h.apart j i n hj hn (hsp.chain.reaches_iff.1 hr)

/-- **Every `slist` is a FIFO queue.**  After every run in which nodes are pushed outside all lists
and with a null link, each object is a queue of the nodes pushed to it and not yet popped, separate
from the others, and no assertion of `assert_state` has failed; the move constructor gives the whole
chain to the new object and leaves the old one empty. -/
theorem slists_are_fifo (h : Reach step IsInitial Admissible s) :
    (∀ i l, s.lists i = some l → s.IsFifo i l) ∧
      (∀ i rhs t, s.step (.moveConstruct i rhs) = some t →
        t.next = s.next ∧ t.lists i = s.lists rhs ∧ t.queues i = s.queues rhs ∧
          t.lists rhs = some .empty ∧ t.queues rhs = [] ∧ ∃ l, t.lists i = some l ∧ t.IsFifo i l) ∧
      s.assertFailed = false := by
  have hok := ok_of_reach h
  refine ⟨fun i l hl => hok.isFifo hl, fun i rhs t hs => ?_, hok.asserts⟩
  have htok : t.Ok := hok.moveConstruct hs
  obtain ⟨_, hne, l, hl, rfl⟩ := moveConstruct_eq_some hs
  have hlists : ((s.place i l (s.queues rhs)).place rhs .empty []).lists i = some l :=
    (update_of_ne hne _ _).trans (update_self ..)
  have hqueues : ((s.place i l (s.queues rhs)).place rhs .empty []).queues i = s.queues rhs :=
    (update_of_ne hne _ _).trans (update_self ..)
  exact ⟨rfl, hlists.trans hl.symm, hqueues, update_self .., update_self .., l, hlists,
    htok.isFifo hlists⟩

/-- Two objects over nodes `ℕ`, whose links all point to node `9` before their owners reset them. -/
def twoLists : Slists Bool ℕ where
  next := fun _ => some 9
  lists := fun _ => none
  queues := fun _ => []
  assertFailed := false

/-- Nodes `1`, `2`, `3` are pushed to one object, `1` is popped, the object is moved from, and `1`,
whose link still points to `2`, is reset and pushed to the object left empty. -/
theorem slists_are_fifo_of_move : ∃ s : Slists Bool ℕ,
    Reach step IsInitial Admissible s ∧ s.lists true = some ⟨some 2, some 3⟩ ∧
      s.lists false = some ⟨some 1, some 1⟩ ∧ s.queues true = [2, 3] ∧ s.queues false = [1] ∧
      s.IsFifo true ⟨some 2, some 3⟩ := by
  let schedule : List (SlistMove Bool ℕ) :=
    [.construct false, .write 1 none, .pushBack false 1, .write 2 none, .pushBack false 2,
      .write 3 none, .pushBack false 3, .popFront false, .moveConstruct true false, .empty false,
      .write 1 none, .pushBack false 1]
  have h : Reach step IsInitial Admissible _ := .lastState (s := twoLists) ⟨rfl, rfl, rfl⟩ schedule
  have htrue : (lastState (restrict step Admissible) twoLists schedule).lists true =
      some ⟨some 2, some 3⟩ := by
    decide +kernel
  exact ⟨_, h, htrue, by decide +kernel, by decide +kernel, by decide +kernel,
    (slists_are_fifo h).1 true _ htrue⟩

end Slists
end Concurrencpp
