import Concurrencpp.Tasks.TaskRefinement

/-!
# Invoking a task

`operator()` forgets the `vtable` before it invokes the callable, and nothing on the way catches an
exception.  What `execute_destroy` does behind the call is skipped when the callable throws, and no
destructor makes up for it, since the task is empty by then.

* `TaskObjects.invoke`: `operator()` with the exception that leaves it.
* `TaskObjects.Ended`: the callable has been destroyed once and its block has been freed.
* `invoke_ends_callable` says when this holds behind the call; `throwing_call_leaks` is a run in
  which it does not, and in which the objects are gone in the end.
-/

namespace Concurrencpp

open Placement TaskReference

/-- `operator()` of the object `o`, with what its callable throws and what the caller catches. -/
def TaskObjects.invoke {ε : Type} (s : TaskObjects) (o : ℕ) (exception : Option ε) :
    Option (Option ε × TaskObjects) :=
  (s.step (.call o exception.isSome)).map fun s' =>
    (if s.test o = some true then exception else none, s')

/-- The callable `c`, of the type `ty`, has been destroyed once, and no block holds it.  A trivial
destructor cannot be seen. -/
def TaskObjects.Ended (s : TaskObjects) (ty : CallableType) (c : ℕ) : Prop :=
  s.memory.trace.count (.destroy c) = (if ty.traits.triviallyDestructible then 0 else 1) ∧
    ∀ a, s.memory.heap a ≠ some (.live c)

section

variable {r : TaskReference} {s : TaskObjects} {o c : ℕ} {ty : CallableType}

/-- A callable that throws leaves an empty object, its storage as it was, and its invocation as the
only event. -/
theorem TaskObject.call_throws {m : TaskMemory} {types : List CallableType} {x : TaskObject}
    (h : Represents m.heap types (some (some c)) (some x)) :
    ∃ b, x.call true m = some (⟨b, none⟩, { m with trace := m.trace ++ [.invoke c] }) := by
  cases h with
  | inlined _ hin =>
    refine ⟨.inlined (.live c), ?_⟩
    simp only [TaskObject.call, CallableVtable.executeDestroy, hin, if_true, TaskMemory.invoke,
      Option.map_some]
  | @allocated _ a _ _ hin ha =>
    refine ⟨.pointer (some a), ?_⟩
    simp only [TaskObject.call, CallableVtable.executeDestroy, hin, Bool.false_eq_true, if_false,
      ha, Option.bind_some, TaskMemory.invoke, Option.map_some, if_true]

/-- A block holds only the callable of the object that it belongs to. -/
theorem Simulates.held_of_heap (h : Simulates r s) {a : ℕ} (ha : s.memory.heap a = some (.live c)) :
    ∃ q x, s.tasks q = some x ∧ x.block = some a ∧ r.tasks q = some (some c) := by
  obtain ⟨q, x, hx, hxa⟩ := h.owned a (by rw [ha]; exact Option.some_ne_none _)
  obtain ⟨d, hd, hheap⟩ := (hx ▸ h.tasks q).block hxa
  cases ha.symm.trans hheap
  exact ⟨q, x, hx, hxa, hd⟩

/-- There has been no destruction of a callable that an object holds. -/
theorem Simulates.count_destroy (h : Simulates r s) (ho : r.tasks o = some (some c)) :
    s.memory.trace.count (.destroy c) = 0 := by
  have hnone : history r.trace c = [] := h.ok.alive c (.inl ⟨o, mem_contents.2 ho⟩)
  rw [h.trace, List.count_eq_zero]
  intro hmem
  have hhistory : .destroy c ∈ history r.trace c :=
    List.mem_filter.2 ⟨(List.mem_filter.1 hmem).1, decide_eq_true rfl⟩
  rw [hnone] at hhistory
  cases hhistory

/-- The callable returns: it is destroyed behind the call. -/
theorem Simulates.ended_of_return (h : Simulates r s) (ho : r.tasks o = some (some c))
    (hty : r.types[c]? = some ty) : ∃ s', s.step (.call o false) = some s' ∧ s'.Ended ty c := by
  have hstep : r.step (.call o false) = some ((r.emit (invoked (some c))).set o (some none)) := by
    simp only [TaskReference.step, ho, Option.map_some]
  obtain ⟨s', hs', hsim⟩ := h.step rfl hstep
  refine ⟨s', hs', ?_, fun a ha => ?_⟩
  · -- the two events of the call are the only ones of this callable
    have hzero := h.count_destroy ho
    rw [h.trace] at hzero
    have htrace : s'.memory.trace =
        (r.trace ++ invoked (some c)).filter (TaskEvent.visible r.types) :=
      hsim.trace
    rw [htrace, List.filter_append, List.count_append, hzero, Nat.zero_add]
    have hinvoked : invoked (some c) = [.invoke c, .destroy c] := rfl
    rw [hinvoked]
    cases htriv : ty.traits.triviallyDestructible with
    | true | false => simp [List.filter_cons, TaskEvent.visible, hty, htriv]
  · obtain ⟨q, -, -, -, hq⟩ := hsim.held_of_heap ha
    have hq : Function.update r.tasks o (some none) q = some (some c) := hq
    by_cases hqo : q = o
    · rw [hqo, Function.update_self] at hq
      cases hq
    · rw [Function.update_of_ne hqo] at hq
      exact hqo (h.ok.placed.unique (i := c) (mem_contents.2 hq) (mem_contents.2 ho))

/-- The callable throws: it is destroyed behind the call only if this needs no `destroy_fn`. -/
theorem Simulates.ended_of_throw (h : Simulates r s) (ho : r.tasks o = some (some c))
    (hty : r.types[c]? = some ty) :
    ∃ s', s.step (.call o true) = some s' ∧ (s'.Ended ty c ↔ ty.hasDestroyFn = false) := by
  obtain ⟨x, hx, hrep⟩ := h.task ho
  obtain ⟨b, hcall⟩ := TaskObject.call_throws hrep
  refine ⟨_, by simp only [TaskObjects.step, hx, Option.bind_some, hcall, Option.map_some]; rfl, ?_⟩
  have hcount : (s.memory.trace ++ [TaskEvent.invoke c]).count (TaskEvent.destroy c) = 0 := by
    rw [List.count_append, h.count_destroy ho]
    rfl
  unfold TaskObjects.Ended CallableType.hasDestroyFn
  rw [hcount, Bool.not_eq_false', Bool.and_eq_true]
  refine and_congr ?_ ?_
  · cases ty.traits.triviallyDestructible with
    | true => simp
    | false => simp
  · cases hrep with
    | inlined hty' hin =>
      cases hty.symm.trans hty'
      refine iff_of_true (fun a ha => ?_) hin
      -- the block would belong to this object
      obtain ⟨q, y, hy, hya, hq⟩ := h.held_of_heap ha
      obtain rfl := h.ok.placed.unique (i := c) (mem_contents.2 hq) (mem_contents.2 ho)
      cases hx.symm.trans hy
      cases hya
    | allocated hty' hin ha =>
      cases hty.symm.trans hty'
      refine iff_of_false (fun hfree => hfree _ ha) ?_
      rw [hin]
      exact Bool.false_ne_true

/-- **`operator()` destroys its callable exactly when that returns or needs no `destroy_fn`.**  In
any case the task is empty behind the call, and the exception reaches the caller. -/
theorem invoke_ends_callable {ε : Type} {ops : List TaskOp} (hops : ∀ op ∈ ops, op.returns = true)
    (hr : Interleaving.run TaskReference.step .initial ops = some r)
    (ho : r.tasks o = some (some c)) (hty : r.types[c]? = some ty) (exception : Option ε) :
    ∃ s s', Interleaving.run TaskObjects.step .initial ops = some s ∧
      s.invoke o exception = some (exception, s') ∧ s'.test o = some false ∧
      (s'.Ended ty c ↔ exception = none ∨ ty.hasDestroyFn = false) := by
  obtain ⟨s, hs, hsim⟩ := Interleaving.run_simulation Simulates
    (fun r s op r' hop hsim hstep => hsim.step (hops op hop) hstep) simulates_initial hr
  have hempties : ∀ throws, (TaskOp.call o throws).empties o := fun _ => rfl
  have htest : s.test o = some true := by
    rw [hsim.test, TaskReference.test, ho]
    rfl
  cases exception with
  | none =>
    obtain ⟨s', hs', hended⟩ := hsim.ended_of_return ho hty
    refine ⟨s, s', hs, ?_, test_of_empties (hempties _) hs', iff_of_true hended (.inl rfl)⟩
    simp only [TaskObjects.invoke, Option.isSome_none, hs', Option.map_some, htest, if_true]
  | some e =>
    obtain ⟨s', hs', hended⟩ := hsim.ended_of_throw ho hty
    refine ⟨s, s', hs, ?_, test_of_empties (hempties _) hs', hended.trans ?_⟩
    · simp only [TaskObjects.invoke, Option.isSome_some, hs', Option.map_some, htest, if_true]
    · simp only [reduceCtorEq, false_or]

end

/-- A callable with a trivial destructor, in the buffer, is moved once and throws. -/
theorem invoke_ends_callable_of_trivial :
    ∃ s s' : TaskObjects, s.invoke 1 (some "error") = some (some "error", s') ∧
      s'.test 1 = some false ∧ s'.Ended (.user ⟨8, true, true, true⟩) 0 := by
  have hr : Interleaving.run TaskReference.step .initial
      [.make 0 (.user ⟨8, true, true, true⟩), .moveConstruct 1 0] = some _ := rfl
  have hty : [CallableType.user ⟨8, true, true, true⟩][0]? = some (.user ⟨8, true, true, true⟩) :=
    rfl
  obtain ⟨s, s', -, hinvoke, htest, hended⟩ :=
    invoke_ends_callable (o := 1) (c := 0) (by decide) hr rfl hty (some "error")
  exact ⟨s, s', hinvoke, htest, hended.2 (.inr rfl)⟩

/-- A callable in the buffer and one on the heap throw.  No destructor has run when the objects are
gone, and the block is still there. -/
theorem throwing_call_leaks :
    ∃ s, Interleaving.run TaskObjects.step .initial
        [.make 0 (.user ⟨8, true, true, false⟩), .make 1 (.user ⟨100, true, true, false⟩),
          .call 0 true, .call 1 true, .destroy 0, .destroy 1] = some s ∧
      s.memory.trace = [.invoke 0, .invoke 1] ∧ s.memory.heap 0 = some (.live 1) ∧
      s.tasks 0 = none ∧ s.tasks 1 = none :=
  ⟨_, rfl, rfl, rfl, rfl, rfl⟩

end Concurrencpp
