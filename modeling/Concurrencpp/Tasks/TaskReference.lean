import Concurrencpp.Placement
import Concurrencpp.Tasks.Task

/-!
# A task is an optional callable

* `TaskReference`: what a task is for.  An object holds a callable or none; a move takes it along, a
  call invokes and destroys it, and it is destroyed with its object or when another is assigned over
  it.
* `TaskReference.Ok`: in this model a callable is in one object, or it is gone; its events are then
  its destruction, or its invocation and its destruction, and before there are none.
* `Simulates`: the objects of `task` follow the reference, whatever the storage: an object with a
  callable has the `vtable` of its type, and the callable lies where this type has it.  A step of
  the reference is matched by a step of the objects with the same events, except that a trivial
  destructor cannot be seen.
-/

namespace Concurrencpp

open Placement
open Function (update update_of_ne update_eq_self update_idem)

/-! ### The reference -/

/-- The objects that live, each with its callable; the types of all callables so far; the events. -/
structure TaskReference where
  tasks : ℕ → Option (Option ℕ)
  types : List CallableType
  trace : List TaskEvent

namespace TaskReference

def initial : TaskReference where
  tasks := fun _ => none
  types := []
  trace := []

def set (r : TaskReference) (o : ℕ) (t : Option (Option ℕ)) : TaskReference :=
  { r with tasks := Function.update r.tasks o t }

def emit (r : TaskReference) (events : List TaskEvent) : TaskReference :=
  { r with trace := r.trace ++ events }

/-- The end of a callable that has not been invoked. -/
def dropped (t : Option ℕ) : List TaskEvent := t.toList.map .destroy

/-- An invocation ends with the end of the callable. -/
def invoked (t : Option ℕ) : List TaskEvent := t.toList.flatMap fun c => [.invoke c, .destroy c]

def step (r : TaskReference) : TaskOp → Option TaskReference
  | .default o => if (r.tasks o).isNone then some (r.set o (some none)) else none
  | .make o ty =>
      if (r.tasks o).isNone then
        some { r.set o (some (some r.types.length)) with types := r.types ++ [ty] }
      else none
  | .moveConstruct o rhs =>
      if (r.tasks o).isNone then
        (r.tasks rhs).map fun t => (r.set o (some t)).set rhs (some none)
      else none
  | .moveAssign o rhs =>
      (r.tasks o).bind fun t => (r.tasks rhs).map fun t' =>
        if o = rhs then r else (((r.emit (dropped t)).set o (some t')).set rhs (some none))
  | .clear o => (r.tasks o).map fun t => (r.emit (dropped t)).set o (some none)
  | .call o _ => (r.tasks o).map fun t => (r.emit (invoked t)).set o (some none)
  | .destroy o => (r.tasks o).map fun t => (r.emit (dropped t)).set o none

/-- The object has a callable. -/
def test (r : TaskReference) (o : ℕ) : Option Bool := (r.tasks o).map Option.isSome

end TaskReference

/-- The callable of an event. -/
def TaskEvent.callable : TaskEvent → ℕ
  | .invoke c | .destroy c => c

/-- A trivial destructor cannot be seen. -/
def TaskEvent.visible (types : List CallableType) : TaskEvent → Bool
  | .invoke _ => true
  | .destroy c => !(types[c]?.any fun ty => ty.traits.triviallyDestructible)

namespace TaskReference

variable {r r' : TaskReference} {o : ℕ} {c : ℕ}

/-! ### The life of a callable -/

/-- The events of a callable. -/
def history (trace : List TaskEvent) (c : ℕ) : List TaskEvent :=
  trace.filter fun e => e.callable = c

/-- The callable of an object. -/
def contents (tasks : ℕ → Option (Option ℕ)) (o : ℕ) : List ℕ := (tasks o).join.toList

/-- A callable has no events before its end, and none after it. -/
structure Ok (tasks : ℕ → Option (Option ℕ)) (made : ℕ) (trace : List TaskEvent) : Prop where
  placed : Placed (contents tasks)
  bound : ∀ c, Held (contents tasks) c → c < made
  alive : ∀ c, Held (contents tasks) c ∨ made ≤ c → history trace c = []
  gone : ∀ c < made, ¬ Held (contents tasks) c →
    history trace c = [.destroy c] ∨ history trace c = [.invoke c, .destroy c]

section Ok

variable {tasks tasks' : ℕ → Option (Option ℕ)} {made : ℕ} {trace events : List TaskEvent}

theorem mem_contents : c ∈ contents tasks o ↔ tasks o = some (some c) := by
  unfold contents
  cases tasks o with
  | none => simp
  | some t => cases t <;> simp [eq_comm]

theorem contents_update {t : Option (Option ℕ)} :
    contents (update tasks o t) = update (contents tasks) o t.join.toList := by
  funext q
  by_cases hq : q = o
  · subst hq
    simp [contents]
  · simp [contents, update_of_ne hq]

/-- An object loses its callable, and the callable comes to its end. -/
theorem Ok.drop {t : Option (Option ℕ)} (h : Ok tasks made trace) (ht : t.join = none)
    (hevents : ∀ c, tasks o = some (some c) →
      events = [.destroy c] ∨ events = [.invoke c, .destroy c])
    (hnone : (∀ c, tasks o ≠ some (some c)) → events = []) :
    Ok (update tasks o t) made (trace ++ events) := by
  obtain ⟨hplaced, hsub⟩ := h.placed.clear o
  have hcontents : contents (update tasks o t) = update (contents tasks) o [] := by
    rw [contents_update, ht]
    rfl
  rw [← hcontents] at hplaced hsub
  -- the new events are those of the callable that the object had
  have hhistory : ∀ c, (c ∈ contents tasks o → history events c = [.destroy c] ∨
      history events c = [.invoke c, .destroy c]) ∧
    (c ∉ contents tasks o → history events c = []) := by
    intro c
    by_cases hc : ∃ d, tasks o = some (some d)
    · obtain ⟨d, hd⟩ := hc
      constructor
      · intro hco
        cases hd.symm.trans (mem_contents.1 hco)
        rcases hevents c hd with he | he <;> rw [he] <;> simp [history, TaskEvent.callable]
      · intro hco
        have hdc : d ≠ c := fun hdc => hco (mem_contents.2 (hdc ▸ hd))
        rcases hevents d hd with he | he <;> rw [he] <;> simp [history, TaskEvent.callable, hdc]
    · rw [not_exists] at hc
      rw [hnone hc]
      exact ⟨fun hco => absurd (mem_contents.1 hco) (hc c), fun _ => rfl⟩
  have happend : ∀ c, history (trace ++ events) c = history trace c ++ history events c :=
    fun c => List.filter_append ..
  constructor
  case placed => exact hplaced
  case bound => exact fun c hc => h.bound c ((hsub c).1 hc).1
  case alive =>
    intro c hc
    have hout : (Held (contents tasks) c ∨ made ≤ c) ∧ c ∉ contents tasks o := by
      rcases hc with hc | hc
      · exact ⟨.inl ((hsub c).1 hc).1, ((hsub c).1 hc).2⟩
      · exact ⟨.inr hc, fun ho => absurd (h.bound c ⟨o, ho⟩) (not_lt.2 hc)⟩
    rw [happend, h.alive c hout.1, (hhistory c).2 hout.2]
    rfl
  case gone =>
    intro c hc hheld
    rw [happend]
    by_cases hold : Held (contents tasks) c
    · have hco : c ∈ contents tasks o := by
        by_contra hco
        exact hheld ((hsub c).2 ⟨hold, hco⟩)
      rw [h.alive c (.inl hold)]
      exact (hhistory c).1 hco
    · rw [(hhistory c).2 fun hco => hold ⟨o, hco⟩, List.append_nil]
      exact h.gone c hc hold

/-- A callable that has not been invoked comes to its end. -/
theorem Ok.dropped {t : Option ℕ} {t' : Option (Option ℕ)} (h : Ok tasks made trace)
    (ht : tasks o = some t) (ht' : t'.join = none) :
    Ok (update tasks o t') made (trace ++ TaskReference.dropped t) := by
  refine h.drop ht' (fun c hc => .inl ?_) fun hc => ?_
  · cases ht.symm.trans hc
    rfl
  · rw [Option.eq_none_iff_forall_ne_some.2 fun c hct => hc c (hct ▸ ht)]
    rfl

/-- A callable goes from one object to an empty one. -/
theorem Ok.move {q : ℕ} {t : Option ℕ} (h : Ok tasks made trace) (hqo : q ≠ o)
    (ho : (tasks o).join = none) (hq : tasks q = some t) :
    Ok (update (update tasks o (some t)) q (some none)) made trace := by
  have hcontents : contents (update (update tasks o (some t)) q (some none)) =
      update (update (contents tasks) o (contents tasks q)) q [] := by
    rw [contents_update, contents_update]
    simp [contents, hq]
  have hempty : contents tasks o = [] := by simp [contents, ho]
  obtain ⟨hplaced, hheld⟩ := h.placed.transfer hqo.symm hempty
  rw [← hcontents] at hplaced hheld
  constructor
  case placed => exact hplaced
  case bound => exact fun c hc => h.bound c ((hheld c).1 hc)
  case alive => exact fun c hc => h.alive c (hc.imp_left (hheld c).1)
  case gone => exact fun c hc hnot => h.gone c hc fun hold => hnot ((hheld c).2 hold)

/-- An empty object comes into being. -/
theorem Ok.create (h : Ok tasks made trace) (ho : tasks o = none) :
    Ok (update tasks o (some none)) made trace := by
  have hsame : contents (update tasks o (some none)) = contents tasks := by
    have hnil : (some (none : Option ℕ)).join.toList = contents tasks o := by simp [contents, ho]
    rw [contents_update, hnil, update_eq_self]
  exact ⟨hsame ▸ h.placed, hsame ▸ h.bound, hsame ▸ h.alive, hsame ▸ h.gone⟩

/-- A new callable. -/
theorem Ok.make (h : Ok tasks made trace) (ho : tasks o = none) :
    Ok (update tasks o (some (some made))) (made + 1) trace := by
  have hnew : ¬ Held (contents tasks) made := fun hheld => lt_irrefl _ (h.bound _ hheld)
  have hperm : (contents (update tasks o (some (some made))) o).Perm
      ([made] ++ contents tasks o) := by
    simp [contents, ho]
  have hother : ∀ q, q ≠ o →
      contents (update tasks o (some (some made))) q = contents tasks q :=
    fun q hq => by rw [contents_update, update_of_ne hq]
  have hheld : ∀ c, Held (contents (update tasks o (some (some made)))) c ↔
      Held (contents tasks) c ∨ c ∈ [made] :=
    fun c => held_append hperm hother
  constructor
  case placed => exact h.placed.insert hnew hperm hother
  case bound =>
    intro c hc
    rcases (hheld c).1 hc with hc | hc
    · exact Nat.lt_succ_of_lt (h.bound c hc)
    · rw [List.mem_singleton.1 hc]
      exact Nat.lt_succ_self made
  case alive =>
    intro c hc
    rcases hc with hc | hc
    · rcases (hheld c).1 hc with hc | hc
      · exact h.alive c (.inl hc)
      · exact h.alive c (.inr (List.mem_singleton.1 hc).ge)
    · exact h.alive c (.inr (Nat.le_of_succ_le hc))
  case gone =>
    intro c hc hnot
    have hcm : c ≠ made := fun hcm => hnot ((hheld c).2 (.inr (List.mem_singleton.2 hcm)))
    exact h.gone c (lt_of_le_of_ne (Nat.le_of_lt_succ hc) hcm) fun hold => hnot
      ((hheld c).2 (.inl hold))

end Ok

/-- Every event is one of a callable that has been made. -/
theorem Ok.callable_lt {tasks : ℕ → Option (Option ℕ)} {made : ℕ} {trace : List TaskEvent}
    (h : Ok tasks made trace) {e : TaskEvent} (he : e ∈ trace) : e.callable < made := by
  by_contra hlt
  have hmem : e ∈ history trace e.callable := List.mem_filter.2 ⟨he, by simp⟩
  rw [h.alive e.callable (.inr (not_lt.1 hlt))] at hmem
  cases hmem

theorem Ok.step {op : TaskOp} (h : Ok r.tasks r.types.length r.trace)
    (hstep : r.step op = some r') : Ok r'.tasks r'.types.length r'.trace := by
  cases op with
  | default =>
    simp only [TaskReference.step] at hstep
    split_ifs at hstep with ho
    cases hstep
    exact h.create (Option.isNone_iff_eq_none.1 ho)
  | make _ ty =>
    simp only [TaskReference.step] at hstep
    split_ifs at hstep with ho
    cases hstep
    have hlength : (r.types ++ [ty]).length = r.types.length + 1 := List.length_append
    change Ok _ (r.types ++ [ty]).length _
    rw [hlength]
    exact h.make (Option.isNone_iff_eq_none.1 ho)
  | moveConstruct o rhs =>
    simp only [TaskReference.step] at hstep
    split_ifs at hstep with ho
    obtain ⟨t, ht, rfl⟩ := Option.map_eq_some_iff.1 hstep
    have ho := Option.isNone_iff_eq_none.1 ho
    have hne : rhs ≠ o := by
      rintro rfl
      cases ho.symm.trans ht
    exact h.move hne (by rw [ho]; rfl) ht
  | moveAssign o =>
    obtain ⟨t, ht, hstep⟩ := Option.bind_eq_some_iff.1 hstep
    obtain ⟨t', ht', rfl⟩ := Option.map_eq_some_iff.1 hstep
    split_ifs with hne
    · exact h
    · have hdrop : Ok (update r.tasks o (some none)) _ _ := h.dropped ht rfl
      have hmove :=
        hdrop.move (Ne.symm hne) (by simp) (by rw [update_of_ne (Ne.symm hne)]; exact ht')
      rw [update_idem] at hmove
      exact hmove
  | clear | destroy =>
    obtain ⟨t, ht, rfl⟩ := Option.map_eq_some_iff.1 hstep
    exact h.dropped ht rfl
  | call =>
    obtain ⟨t, ht, rfl⟩ := Option.map_eq_some_iff.1 hstep
    refine h.drop rfl (fun c hc => ?_) fun hc => ?_
    · cases ht.symm.trans hc
      exact .inr rfl
    · rw [Option.eq_none_iff_forall_ne_some.2 fun c hct => hc c (hct ▸ ht)]
      rfl

theorem ok_initial : Ok initial.tasks initial.types.length initial.trace where
  placed := .of_eq_nil fun _ => rfl
  bound := by
    rintro c ⟨o, ho⟩
    cases ho
  alive := fun c _ => rfl
  gone := fun c hc => absurd hc (Nat.not_lt_zero c)

end TaskReference
end Concurrencpp
