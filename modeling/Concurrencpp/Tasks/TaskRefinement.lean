import Concurrencpp.Tasks.TaskReference

/-!
# The objects of `task` follow the reference

* `Represents`: how an object of `task` stores what it is in the reference.
* `Released`: what the end of a callable does to the memory.  `TaskObject.clear_spec`, `call_spec`
  and `build_spec` say what the three functions do to an object that represents something, for all
  storage classes at once.
* `Simulates`: the whole state; the heap has exactly the blocks of the callables that live there.
-/

namespace Concurrencpp

open Placement TaskReference
open Function (update update_eq_self update_idem update_self update_of_ne)

/-- An object stores its callable in the buffer or on the heap, as its type has it. -/
inductive Represents (heap : ℕ → Option CallableObject) (types : List CallableType) :
    Option (Option ℕ) → Option TaskObject → Prop
  | absent : Represents heap types none none
  | empty {buffer : TaskBuffer} : Represents heap types (some none) (some ⟨buffer, none⟩)
  | inlined {c : ℕ} {ty : CallableType} (hty : types[c]? = some ty) (hin : ty.isInlinable = true) :
      Represents heap types (some (some c)) (some ⟨.inlined (.live c), some ty⟩)
  | allocated {c a : ℕ} {ty : CallableType} (hty : types[c]? = some ty)
      (hin : ty.isInlinable = false) (ha : heap a = some (.live c)) :
      Represents heap types (some (some c)) (some ⟨.pointer (some a), some ty⟩)

/-- The heap block of an object. -/
def TaskObject.block (x : TaskObject) : Option ℕ :=
  match x.vtable, x.buffer with
  | some _, .pointer a => a
  | _, _ => none

/-- The block of `x` is freed, and `events` are seen. -/
structure Released (m m' : TaskMemory) (x : TaskObject) (events : List TaskEvent) : Prop where
  blocks : m'.blocks = m.blocks
  trace : m'.trace = m.trace ++ events
  heap : ∀ a, m'.heap a = if x.block = some a then none else m.heap a

section functions

variable {m : TaskMemory} {types : List CallableType} {t : Option ℕ} {x : TaskObject}
  {ty : CallableType} {c : ℕ}

/-- The destructor is seen when it is not trivial. -/
theorem destruct_live (hty : types[c]? = some ty) :
    m.destruct ty (.live c) =
      { m with trace := m.trace ++
        (TaskReference.dropped (some c)).filter (TaskEvent.visible types) } := by
  have hdropped : TaskReference.dropped (some c) = [.destroy c] := rfl
  rw [hdropped]
  cases htriv : ty.traits.triviallyDestructible with
  | true | false => simp [TaskMemory.destruct, TaskEvent.visible, hty, htriv]

theorem released_of_inlined {m' : TaskMemory} {events : List TaskEvent} {b : TaskBuffer}
    (hb : ∀ a, b ≠ .pointer (some a)) (hm : m' = { m with trace := m.trace ++ events }) :
    Released m m' ⟨b, some ty⟩ events := by
  subst hm
  refine ⟨rfl, rfl, fun a => ?_⟩
  rw [if_neg]
  cases b with
  | bytes | inlined => simp [TaskObject.block]
  | pointer p =>
    intro hp
    exact hb a (by rw [show p = some a from hp])

theorem released_of_allocated {m' : TaskMemory} {events : List TaskEvent} {a : ℕ}
    (hm : m' = { m with trace := m.trace ++ events }) :
    Released m (m'.free a) ⟨.pointer (some a), some ty⟩ events := by
  subst hm
  refine ⟨rfl, rfl, fun b => ?_⟩
  have hblock : (⟨.pointer (some a), some ty⟩ : TaskObject).block = some a := rfl
  rw [hblock]
  by_cases hab : a = b
  · subst hab
    rw [if_pos rfl]
    exact update_self ..
  · rw [if_neg fun h => hab (Option.some.inj h)]
    exact update_of_ne (Ne.symm hab) ..

/-- `clear` and the end of the callable. -/
theorem TaskObject.clear_spec (h : Represents m.heap types (some t) (some x)) :
    ∃ b m', x.clear m = some (⟨b, none⟩, m') ∧
      Released m m' x ((TaskReference.dropped t).filter (TaskEvent.visible types)) := by
  cases h with
  | @empty buffer =>
    refine ⟨buffer, m, rfl, rfl, by simp [TaskReference.dropped], fun a => ?_⟩
    rw [if_neg (by simp [TaskObject.block])]
  | @inlined c ty hty hin =>
    have hdestroy : CallableVtable.destroy ty (.inlined (.live c)) m =
        some (.bytes, m.destruct ty (.live c)) := by
      simp only [CallableVtable.destroy, hin, if_true]
    have hreleased : Released m (m.destruct ty (.live c)) ⟨.inlined (.live c), some ty⟩
        ((TaskReference.dropped (some c)).filter (TaskEvent.visible types)) :=
      released_of_inlined (fun _ => TaskBuffer.noConfusion) (destruct_live hty)
    cases ty with
    | coroutineHandleFunctor | awaitViaFunctor =>
      exact ⟨.bytes, _, by simp only [TaskObject.clear, hdestroy, Option.map_some], hreleased⟩
    | user traits =>
      cases hfn : (CallableType.user traits).hasDestroyFn with
      | true =>
        refine ⟨.bytes, _, ?_, hreleased⟩
        simp only [TaskObject.clear, hdestroy, hfn, Option.map_some, if_true]
      | false =>
        -- no `destroy_fn`: the destructor is trivial
        have htriv : traits.triviallyDestructible = true := by
          simp only [CallableType.hasDestroyFn, CallableType.traits, Bool.not_eq_false',
            Bool.and_eq_true] at hfn
          exact hfn.1
        have hsame : m.destruct (.user traits) (.live c) = m := by
          simp only [TaskMemory.destruct, CallableType.traits, htriv, if_true]
        rw [hsame] at hreleased
        refine ⟨.inlined (.live c), m, ?_, hreleased⟩
        simp only [TaskObject.clear, hfn, Bool.false_eq_true, if_false]
  | @allocated c a ty hty hin ha =>
    have hdestroy : CallableVtable.destroy ty (.pointer (some a)) m =
        some (.pointer (some a), (m.destruct ty (.live c)).free a) := by
      simp only [CallableVtable.destroy, hin, Bool.false_eq_true, if_false, ha, Option.map_some]
    have hfn : ty.hasDestroyFn = true := by
      simp only [CallableType.hasDestroyFn, hin, Bool.and_false, Bool.not_false]
    refine ⟨.pointer (some a), (m.destruct ty (.live c)).free a, ?_,
      released_of_allocated (destruct_live hty)⟩
    cases ty with
    | coroutineHandleFunctor | awaitViaFunctor =>
      simp only [TaskObject.clear, hdestroy, Option.map_some]
    | user => simp only [TaskObject.clear, hdestroy, hfn, Option.map_some, if_true]

/-- An invocation, and the end of the callable behind it. -/
theorem invoke_destruct (hty : types[c]? = some ty) :
    TaskMemory.destruct { m with trace := m.trace ++ [.invoke c] } ty (.live c) =
      { m with trace := m.trace ++
        (TaskReference.invoked (some c)).filter (TaskEvent.visible types) } := by
  rw [destruct_live hty]
  simp [TaskReference.invoked, TaskReference.dropped, TaskEvent.visible, List.filter_cons]

/-- `operator()` of a callable that returns. -/
theorem TaskObject.call_spec (h : Represents m.heap types (some t) (some x)) :
    ∃ b m', x.call false m = some (⟨b, none⟩, m') ∧
      Released m m' x ((TaskReference.invoked t).filter (TaskEvent.visible types)) := by
  cases h with
  | @empty buffer =>
    refine ⟨buffer, m, rfl, rfl, by simp [TaskReference.invoked], fun a => ?_⟩
    rw [if_neg (by simp [TaskObject.block])]
  | @inlined c ty hty hin =>
    refine ⟨.bytes, TaskMemory.destruct { m with trace := m.trace ++ [.invoke c] } ty (.live c), ?_,
      released_of_inlined (fun _ => TaskBuffer.noConfusion) (invoke_destruct hty)⟩
    simp only [TaskObject.call, CallableVtable.executeDestroy, hin, if_true, TaskMemory.invoke,
      Option.map_some, Bool.false_eq_true, if_false]
  | @allocated c a ty hty hin ha =>
    refine ⟨.pointer (some a),
      (TaskMemory.destruct { m with trace := m.trace ++ [.invoke c] } ty (.live c)).free a, ?_,
      released_of_allocated (invoke_destruct hty)⟩
    simp only [TaskObject.call, CallableVtable.executeDestroy, hin, Bool.false_eq_true, if_false,
      ha, Option.bind_some, TaskMemory.invoke, Option.map_some]

/-- `build(task&&)` takes over what the other object represents. -/
theorem TaskObject.build_spec (buffer : TaskBuffer)
    (h : Represents m.heap types (some t) (some x)) :
    ∃ x' b, x.build buffer m = some (x', ⟨b, none⟩, m) ∧
      Represents m.heap types (some t) (some x') ∧ x'.block = x.block := by
  cases h with
  | @empty b => exact ⟨⟨buffer, none⟩, b, rfl, .empty, rfl⟩
  | @inlined c ty hty hin =>
    have hmove : CallableVtable.moveDestroy ty (.inlined (.live c)) m =
        some (.inlined (.live c), .bytes, m) := by
      simp only [CallableVtable.moveDestroy, hin, if_true, TaskMemory.destruct]
    cases ty with
    | coroutineHandleFunctor | awaitViaFunctor =>
      refine ⟨_, .bytes, ?_, .inlined hty hin, rfl⟩
      simp only [TaskObject.build, hmove, Option.map_some]
    | user traits =>
      cases hfn : (CallableType.user traits).hasMoveDestroyFn with
      | true =>
        refine ⟨_, .bytes, ?_, .inlined hty hin, rfl⟩
        simp only [TaskObject.build, hmove, hfn, Option.map_some, if_true]
      | false =>
        -- the bytes are copied, and those of `rhs` are no object any more
        refine ⟨_, .inlined (.live c), ?_, .inlined hty hin, rfl⟩
        simp only [TaskObject.build, hfn, Bool.false_eq_true, if_false]
  | @allocated _ a ty hty hin ha =>
    have hmove : CallableVtable.moveDestroy ty (.pointer (some a)) m =
        some (.pointer (some a), .pointer none, m) := by
      simp only [CallableVtable.moveDestroy, hin, Bool.false_eq_true, if_false]
    have hfn : ty.hasMoveDestroyFn = true := by
      simp only [CallableType.hasMoveDestroyFn, hin, Bool.and_false, Bool.not_false]
    refine ⟨_, .pointer none, ?_, .allocated hty hin ha, rfl⟩
    cases ty with
    | coroutineHandleFunctor | awaitViaFunctor =>
      simp only [TaskObject.build, hmove, Option.map_some]
    | user => simp only [TaskObject.build, hmove, hfn, Option.map_some, if_true]

end functions

section Represents

variable {heap heap' : ℕ → Option CallableObject} {types : List CallableType}
  {t : Option (Option ℕ)} {x : TaskObject} {a : ℕ}

/-- The block of an object has its callable. -/
theorem Represents.block (h : Represents heap types t (some x)) (ha : x.block = some a) :
    ∃ c, t = some (some c) ∧ heap a = some (.live c) := by
  cases h with
  | empty => cases ha
  | inlined => cases ha
  | @allocated c _ _ _ _ hb =>
    cases ha
    exact ⟨c, rfl, hb⟩

/-- Other blocks do not matter. -/
theorem Represents.congr {x : Option TaskObject} (h : Represents heap types t x)
    (hheap : ∀ y, x = some y → ∀ a, y.block = some a → heap' a = heap a) :
    Represents heap' types t x := by
  cases h with
  | absent => exact .absent
  | empty => exact .empty
  | inlined hty hin => exact .inlined hty hin
  | @allocated _ a _ hty hin ha => exact .allocated hty hin ((hheap _ rfl a rfl).trans ha)

theorem Represents.append {x : Option TaskObject} {new : List CallableType}
    (h : Represents heap types t x) : Represents heap (types ++ new) t x := by
  have hmono : ∀ {c : ℕ} {ty : CallableType}, types[c]? = some ty →
      (types ++ new)[c]? = some ty := by
    intro c ty hty
    rw [List.getElem?_append_left (List.getElem?_eq_some_iff.1 hty).1]
    exact hty
  cases h with
  | absent => exact .absent
  | empty => exact .empty
  | inlined hty hin => exact .inlined (hmono hty) hin
  | allocated hty hin ha => exact .allocated (hmono hty) hin ha

end Represents

/-! ### The whole state -/

structure Simulates (r : TaskReference) (s : TaskObjects) : Prop where
  ok : Ok r.tasks r.types.length r.trace
  callables : s.callables = r.types.length
  tasks : ∀ o, Represents s.memory.heap r.types (r.tasks o) (s.tasks o)
  fresh : ∀ a, s.memory.blocks ≤ a → s.memory.heap a = none
  owned : ∀ a, s.memory.heap a ≠ none → ∃ o x, s.tasks o = some x ∧ x.block = some a
  trace : s.memory.trace = r.trace.filter (TaskEvent.visible r.types)

section Simulates

variable {r r' : TaskReference} {s s' : TaskObjects} {o q a : ℕ} {x y : TaskObject}

/-- One object changes, in the reference and in the memory. -/
theorem represents_update {heap : ℕ → Option CallableObject} {types : List CallableType}
    {tasks : ℕ → Option (Option ℕ)} {objects : ℕ → Option TaskObject} {t : Option (Option ℕ)}
    {x : Option TaskObject} (ho : Represents heap types t x)
    (hother : ∀ q, q ≠ o → Represents heap types (tasks q) (objects q)) (q : ℕ) :
    Represents heap types (update tasks o t q) (update objects o x q) := by
  by_cases hq : q = o
  · subst hq
    rw [update_self, update_self]
    exact ho
  · rw [update_of_ne hq, update_of_ne hq]
    exact hother q hq

section

variable (h : Simulates r s)
include h

/-- Two objects never share a block. -/
theorem Simulates.block_unique (hx : s.tasks o = some x) (ha : x.block = some a)
    (hy : s.tasks q = some y) (hb : y.block = some a) : o = q := by
  obtain ⟨c, hc, hheap⟩ := (hx ▸ h.tasks o).block ha
  obtain ⟨d, hd, hheap'⟩ := (hy ▸ h.tasks q).block hb
  cases hheap.symm.trans hheap'
  exact h.ok.placed.unique (i := c) (by simp [contents, hc]) (by simp [contents, hd])

/-- The callable of an object comes to its end; the object is empty or gone then. -/
theorem Simulates.release {m' : TaskMemory} {events : List TaskEvent} {t' : Option (Option ℕ)}
    {x' : Option TaskObject} (hx : s.tasks o = some x)
    (hm : Released s.memory m' x (events.filter (TaskEvent.visible r.types)))
    (hx' : Represents m'.heap r.types t' x')
    (hok : Ok (update r.tasks o t') r.types.length (r.trace ++ events)) :
    Simulates ((r.emit events).set o t') { s.set o x' with memory := m' } where
  ok := hok
  callables := h.callables
  tasks := by
    refine represents_update hx' fun q hq => (h.tasks q).congr fun y hy a ha => ?_
    rw [hm.heap a, if_neg]
    exact fun hxa => hq (h.block_unique hy ha hx hxa)
  fresh := by
    intro a ha
    have hold := h.fresh a (hm.blocks ▸ ha)
    rw [hm.heap a, hold, ite_self]
  owned := by
    intro a ha
    rw [hm.heap a] at ha
    split_ifs at ha with hxa
    · exact absurd rfl ha
    obtain ⟨q, y, hy, hya⟩ := h.owned a ha
    have hq : q ≠ o := by
      rintro rfl
      cases hx.symm.trans hy
      exact hxa hya
    exact ⟨q, y, (update_of_ne hq ..).trans hy, hya⟩
  trace := by
    rw [hm.trace, h.trace]
    exact (List.filter_append ..).symm

/-- A callable is moved to an object that has none. -/
theorem Simulates.move {t : Option ℕ} {b : TaskBuffer} (hqo : q ≠ o) (ho : (r.tasks o).join = none)
    (hq : r.tasks q = some t) (hx : s.tasks q = some x)
    (hy : Represents s.memory.heap r.types (some t) (some y)) (hblock : y.block = x.block) :
    Simulates ((r.set o (some t)).set q (some none))
      ((s.set o (some y)).set q (some ⟨b, none⟩)) where
  ok := h.ok.move hqo ho hq
  callables := h.callables
  tasks := represents_update .empty fun p _ => represents_update hy (fun p _ => h.tasks p) p
  fresh := h.fresh
  owned := by
    intro a ha
    obtain ⟨p, z, hz, hza⟩ := h.owned a ha
    by_cases hpq : p = q
    · -- the block goes with the callable
      subst hpq
      cases hx.symm.trans hz
      refine ⟨o, y, ?_, hblock.trans hza⟩
      exact (update_of_ne hqo.symm ..).trans (update_self ..)
    · have hpo : p ≠ o := by
        rintro rfl
        obtain ⟨c, hc, -⟩ := (hz ▸ h.tasks p).block hza
        rw [hc] at ho
        cases ho
      exact ⟨p, z, (update_of_ne hpq ..).trans ((update_of_ne hpo ..).trans hz), hza⟩
  trace := h.trace

/-- The object is there in both or in neither. -/
theorem Simulates.task {t : Option ℕ} (ht : r.tasks o = some t) :
    ∃ x, s.tasks o = some x ∧ Represents s.memory.heap r.types (some t) (some x) := by
  have hrep := h.tasks o
  rw [ht] at hrep
  cases hx : s.tasks o with
  | none =>
    rw [hx] at hrep
    cases hrep
  | some x =>
    rw [hx] at hrep
    exact ⟨x, rfl, hrep⟩

theorem Simulates.isNone (ho : r.tasks o = none) : s.tasks o = none := by
  have hrep := h.tasks o
  rw [ho] at hrep
  cases hx : s.tasks o with
  | none => rfl
  | some =>
    rw [hx] at hrep
    cases hrep

/-- A new object takes no block from its owner. -/
theorem Simulates.owned_set {x' : Option TaskObject} (ho : r.tasks o = none)
    (ha : s.memory.heap a ≠ none) : ∃ q y, (s.set o x').tasks q = some y ∧ y.block = some a := by
  obtain ⟨q, y, hy, hya⟩ := h.owned a ha
  have hq : q ≠ o := by
    rintro rfl
    cases (h.isNone ho).symm.trans hy
  exact ⟨q, y, (update_of_ne hq ..).trans hy, hya⟩

theorem Simulates.default (ho : r.tasks o = none) :
    Simulates (r.set o (some none)) (s.set o (some .empty)) where
  ok := h.ok.create ho
  callables := h.callables
  tasks := represents_update .empty fun q _ => h.tasks q
  fresh := h.fresh
  owned _ ha := h.owned_set ho ha
  trace := h.trace

/-- A callable of a new type does not change what has been seen. -/
theorem Simulates.visible_append (ty : CallableType) :
    r.trace.filter (TaskEvent.visible (r.types ++ [ty])) =
      r.trace.filter (TaskEvent.visible r.types) := by
  refine List.filter_congr fun e he => ?_
  have hlt := h.ok.callable_lt he
  cases e with
  | invoke => rfl
  | destroy c =>
    have hget : (r.types ++ [ty])[c]? = r.types[c]? := List.getElem?_append_left hlt
    simp only [TaskEvent.visible, hget]

theorem Simulates.make {ty : CallableType} (ho : r.tasks o = none) :
    Simulates { r.set o (some (some r.types.length)) with types := r.types ++ [ty] }
      { s.set o (some (TaskObject.make ty s.callables s.memory).1) with
        memory := (TaskObject.make ty s.callables s.memory).2
        callables := s.callables + 1 } := by
  have hlength : (r.types ++ [ty]).length = r.types.length + 1 := List.length_append
  have hnew : (r.types ++ [ty])[r.types.length]? = some ty := by simp
  have hok : Ok (update r.tasks o (some (some r.types.length))) (r.types ++ [ty]).length
      r.trace := by
    rw [hlength]
    exact h.ok.make ho
  rw [h.callables]
  cases hin : ty.isInlinable with
  | true =>
    have hmake : TaskObject.make ty r.types.length s.memory =
        (⟨.inlined (.live r.types.length), some ty⟩, s.memory) := by
      simp only [TaskObject.make, CallableVtable.build, hin, if_true]
    rw [hmake]
    exact ⟨hok, hlength.symm,
      represents_update (.inlined hnew hin) fun q _ => (h.tasks q).append, h.fresh,
      fun a ha => h.owned_set ho ha, h.trace.trans (h.visible_append ty).symm⟩
  | false =>
    have hmake : TaskObject.make ty r.types.length s.memory =
        (⟨.pointer (some s.memory.blocks), some ty⟩, s.memory.allocate (.live r.types.length)) := by
      simp only [TaskObject.make, CallableVtable.build, hin, Bool.false_eq_true, if_false]
    rw [hmake]
    -- the new block is none of the old ones
    have hold : ∀ a, a ≠ s.memory.blocks →
        (s.memory.allocate (.live r.types.length)).heap a = s.memory.heap a :=
      fun a ha => update_of_ne ha ..
    refine ⟨hok, hlength.symm,
      represents_update (.allocated hnew hin (update_self ..)) fun q _ => ?_,
      fun a ha => ?_, fun a ha => ?_, h.trace.trans (h.visible_append ty).symm⟩
    · refine ((h.tasks q).congr fun y hy a ha => hold a ?_).append
      rintro rfl
      obtain ⟨c, -, hc⟩ := (hy ▸ h.tasks q).block ha
      cases (h.fresh _ (le_refl _)).symm.trans hc
    · exact (hold a (Nat.ne_of_gt ha)).trans (h.fresh a (Nat.le_of_succ_le ha))
    · by_cases hab : a = s.memory.blocks
      · exact ⟨o, _, update_self .., by rw [hab]; rfl⟩
      · exact h.owned_set ho fun hnone => ha ((hold a hab).trans hnone)

end

end Simulates

/-! ### Runs -/

/-- No exception leaves the callable that the operation invokes. -/
def TaskOp.returns : TaskOp → Bool
  | .call _ throws => !throws
  | _ => true

/-- The operation moves from the object, invokes it or clears it. -/
def TaskOp.empties (op : TaskOp) (o : ℕ) : Prop :=
  match op with
  | .moveConstruct _ rhs => rhs = o
  | .moveAssign p rhs => rhs = o ∧ p ≠ rhs
  | .clear p | .call p _ => p = o
  | .default _ | .make _ _ | .destroy _ => False

section runs

variable {r r' : TaskReference} {s s' : TaskObjects} {o : ℕ} {op : TaskOp}

/-- An operation of the reference is matched by the objects. -/
theorem Simulates.step (h : Simulates r s) (hop : op.returns = true) (hstep : r.step op = some r') :
    ∃ s', s.step op = some s' ∧ Simulates r' s' := by
  have hok := h.ok.step hstep
  cases op with
  | default =>
    simp only [TaskReference.step] at hstep
    split_ifs at hstep with ho
    cases hstep
    have ho := Option.isNone_iff_eq_none.1 ho
    refine ⟨_, ?_, h.default ho⟩
    simp only [TaskObjects.step, h.isNone ho, Option.isNone_none, if_true]
  | make =>
    simp only [TaskReference.step] at hstep
    split_ifs at hstep with ho
    cases hstep
    have ho := Option.isNone_iff_eq_none.1 ho
    refine ⟨_, ?_, h.make ho⟩
    simp only [TaskObjects.step, h.isNone ho, Option.isNone_none, if_true]
  | moveConstruct o rhs =>
    simp only [TaskReference.step] at hstep
    split_ifs at hstep with ho
    obtain ⟨t, ht, rfl⟩ := Option.map_eq_some_iff.1 hstep
    have ho := Option.isNone_iff_eq_none.1 ho
    have hne : rhs ≠ o := by
      rintro rfl
      cases ho.symm.trans ht
    obtain ⟨x, hx, hrep⟩ := h.task ht
    obtain ⟨y, b, hbuild, hy, hblock⟩ := TaskObject.build_spec .bytes hrep
    refine ⟨_, ?_, h.move (b := b) hne (by rw [ho]; rfl) ht hx hy hblock⟩
    simp only [TaskObjects.step, h.isNone ho, Option.isNone_none, if_true, hx, Option.bind_some,
      hbuild, Option.map_some]
    rfl
  | moveAssign o rhs =>
    obtain ⟨t, ht, hstep⟩ := Option.bind_eq_some_iff.1 hstep
    obtain ⟨t', ht', rfl⟩ := Option.map_eq_some_iff.1 hstep
    obtain ⟨x, hx, hrep⟩ := h.task ht
    obtain ⟨x', hx', hrep'⟩ := h.task ht'
    by_cases hne : o = rhs
    · refine ⟨s, ?_, ?_⟩
      · simp only [TaskObjects.step, hx, hx', Option.bind_some, if_pos hne]
      · rw [if_pos hne]
        exact h
    · -- first the object is cleared, then it takes over the callable
      have hclear : r.step (.clear o) = some ((r.emit (dropped t)).set o (some none)) := by
        simp only [TaskReference.step, ht, Option.map_some]
      obtain ⟨b, m, hcleared, hreleased⟩ := TaskObject.clear_spec hrep
      have hnone : Represents m.heap r.types (some none) (some ⟨b, none⟩) := .empty
      have hmid := h.release hx hreleased hnone (h.ok.step hclear)
      have ht₂ : ((r.emit (dropped t)).set o (some none)).tasks rhs = some t' :=
        (update_of_ne (Ne.symm hne) ..).trans ht'
      have hx₂ : (s.set o (some ⟨b, none⟩)).tasks rhs = some x' :=
        (update_of_ne (Ne.symm hne) ..).trans hx'
      obtain ⟨z, hz, hrep₂⟩ := hmid.task ht₂
      cases hz.symm.trans hx₂
      obtain ⟨y, d, hbuild, hy, hblock⟩ := TaskObject.build_spec b hrep₂
      have hempty : (((r.emit (dropped t)).set o (some none)).tasks o).join = none := by
        simp [TaskReference.set]
      have hmoved := hmid.move (b := d) (Ne.symm hne) hempty ht₂ hz hy hblock
      rw [if_neg hne]
      refine ⟨{ (s.set o (some y)).set rhs (some ⟨d, none⟩) with memory := m }, ?_, ?_⟩
      · simp only [TaskObjects.step, hx, hx', Option.bind_some, if_neg hne, hcleared, hbuild,
          Option.map_some]
      · simpa only [TaskReference.set, TaskObjects.set, update_idem] using hmoved
  | clear =>
    obtain ⟨t, ht, rfl⟩ := Option.map_eq_some_iff.1 hstep
    obtain ⟨x, hx, hrep⟩ := h.task ht
    obtain ⟨b, m, hclear, hreleased⟩ := TaskObject.clear_spec hrep
    have hnone : Represents m.heap r.types (some none) (some ⟨b, none⟩) := .empty
    refine ⟨_, ?_, h.release hx hreleased hnone hok⟩
    simp only [TaskObjects.step, hx, Option.bind_some, hclear, Option.map_some]
  | call _ throws =>
    cases throws with
    | true => cases hop
    | false =>
      obtain ⟨t, ht, rfl⟩ := Option.map_eq_some_iff.1 hstep
      obtain ⟨x, hx, hrep⟩ := h.task ht
      obtain ⟨b, m, hcall, hreleased⟩ := TaskObject.call_spec hrep
      have hnone : Represents m.heap r.types (some none) (some ⟨b, none⟩) := .empty
      refine ⟨_, ?_, h.release hx hreleased hnone hok⟩
      simp only [TaskObjects.step, hx, Option.bind_some, hcall, Option.map_some]
  | destroy =>
    obtain ⟨t, ht, rfl⟩ := Option.map_eq_some_iff.1 hstep
    obtain ⟨x, hx, hrep⟩ := h.task ht
    obtain ⟨b, m, hclear, hreleased⟩ := TaskObject.clear_spec hrep
    refine ⟨_, ?_, h.release hx hreleased .absent hok⟩
    simp only [TaskObjects.step, hx, Option.bind_some, hclear, Option.map_some]

theorem simulates_initial : Simulates .initial .initial where
  ok := TaskReference.ok_initial
  callables := rfl
  tasks := fun _ => .absent
  fresh := fun _ _ => rfl
  owned := fun _ ha => absurd rfl ha
  trace := rfl

theorem Simulates.test (h : Simulates r s) (o : ℕ) : s.test o = r.test o := by
  unfold TaskObjects.test TaskReference.test
  cases ht : r.tasks o with
  | none => rw [h.isNone ht]; rfl
  | some =>
    obtain ⟨x, hx, hrep⟩ := h.task ht
    rw [hx]
    cases hrep <;> rfl

/-- `clear` and `operator()` leave an empty object, and so does a move behind it. -/
theorem TaskObject.vtable_clear {x y : TaskObject} {m m' : TaskMemory}
    (h : x.clear m = some (y, m')) : y.vtable = none := by
  grind [TaskObject.clear, Option.map_eq_some_iff]

theorem TaskObject.vtable_call {x y : TaskObject} {throws : Bool} {m m' : TaskMemory}
    (h : x.call throws m = some (y, m')) : y.vtable = none := by
  grind [TaskObject.call, Option.map_eq_some_iff]

theorem TaskObject.vtable_build {x y z : TaskObject} {b : TaskBuffer} {m m' : TaskMemory}
    (h : x.build b m = some (y, z, m')) : z.vtable = none := by
  grind [TaskObject.build, Option.map_eq_some_iff]

theorem test_of_set {x : TaskObject} (hx : x.vtable = none) :
    (s.set o (some x)).test o = some false := by
  simp [TaskObjects.test, TaskObjects.set, TaskObject.test, hx]

theorem test_of_empties (hop : op.empties o) (hstep : s.step op = some s') :
    s'.test o = some false := by
  cases op with
  | moveConstruct p =>
    cases hop
    simp only [TaskObjects.step] at hstep
    split_ifs at hstep
    obtain ⟨x, -, hstep⟩ := Option.bind_eq_some_iff.1 hstep
    obtain ⟨⟨y, z, m⟩, hb, rfl⟩ := Option.map_eq_some_iff.1 hstep
    exact test_of_set (s := s.set p (some y)) (TaskObject.vtable_build hb)
  | moveAssign p =>
    obtain ⟨rfl, hne⟩ := hop
    obtain ⟨t, -, hstep⟩ := Option.bind_eq_some_iff.1 hstep
    obtain ⟨t', -, hstep⟩ := Option.bind_eq_some_iff.1 hstep
    rw [if_neg hne] at hstep
    obtain ⟨c, -, hstep⟩ := Option.bind_eq_some_iff.1 hstep
    obtain ⟨⟨y, z, m⟩, hb, rfl⟩ := Option.map_eq_some_iff.1 hstep
    exact test_of_set (s := s.set p (some y)) (TaskObject.vtable_build hb)
  | clear =>
    cases hop
    obtain ⟨x, -, hstep⟩ := Option.bind_eq_some_iff.1 hstep
    obtain ⟨⟨y, m⟩, hc, rfl⟩ := Option.map_eq_some_iff.1 hstep
    exact test_of_set (s := s) (TaskObject.vtable_clear hc)
  | call =>
    cases hop
    obtain ⟨x, -, hstep⟩ := Option.bind_eq_some_iff.1 hstep
    obtain ⟨⟨y, m⟩, hc, rfl⟩ := Option.map_eq_some_iff.1 hstep
    exact test_of_set (s := s) (TaskObject.vtable_call hc)
  | _ => cases hop

/-- An empty object does nothing. -/
theorem step_of_empty (ho : s.test o = some false) (throws : Bool) :
    s.step (.clear o) = some s ∧ s.step (.call o throws) = some s := by
  obtain ⟨x, hx, htest⟩ := Option.map_eq_some_iff.1 ho
  have hv : x.vtable = none := by
    cases hxv : x.vtable with
    | none => rfl
    | some =>
      rw [TaskObject.test, hxv] at htest
      cases htest
  have hset : s.set o (some x) = s := by
    unfold TaskObjects.set
    rw [← hx, update_eq_self]
  have hclear : x.clear s.memory = some (x, s.memory) := by
    simp only [TaskObject.clear, hv]
  have hcall : x.call throws s.memory = some (x, s.memory) := by
    simp only [TaskObject.call, hv]
  constructor
  · simp only [TaskObjects.step, hx, Option.bind_some, hclear, Option.map_some, hset]
  · simp only [TaskObjects.step, hx, Option.bind_some, hcall, Option.map_some, hset]

/-- **A task is one callable, whatever its storage.**  For every sequence of operations in which no
callable throws, the objects of `task` show what the reference shows: the same invocations and
destructions in the same order (a trivial destructor apart, which shows nothing), and every object
tests as in the reference.  In the reference a callable has no events while an object holds it, and
when none does its events are its destruction, or its invocation and then its destruction.  Every
block on the heap belongs to one living object.  An object that has been moved from, invoked or
cleared is empty, and an empty object does nothing. -/
theorem task_refines_optional_callable {ops : List TaskOp} (hops : ∀ op ∈ ops, op.returns = true)
    (hr : Interleaving.run TaskReference.step .initial ops = some r) :
    ∃ s, Interleaving.run TaskObjects.step .initial ops = some s ∧
      s.memory.trace = r.trace.filter (TaskEvent.visible r.types) ∧
      (∀ o, s.test o = r.test o) ∧
      (∀ c < r.types.length,
        (∃ o, r.tasks o = some (some c)) ∧ TaskReference.history r.trace c = [] ∨
        (∀ o, r.tasks o ≠ some (some c)) ∧ (TaskReference.history r.trace c = [.destroy c] ∨
          TaskReference.history r.trace c = [.invoke c, .destroy c])) ∧
      (∀ a, s.memory.heap a ≠ none → ∃! o, ∃ x, s.tasks o = some x ∧ x.block = some a) ∧
      (∀ op o s', op.empties o → s.step op = some s' → s'.test o = some false) ∧
      (∀ o throws, s.test o = some false →
        s.step (.clear o) = some s ∧ s.step (.call o throws) = some s) := by
  obtain ⟨s, hs, hsim⟩ := Interleaving.run_simulation Simulates
    (fun r s op r' hop hsim hstep => hsim.step (hops op hop) hstep) simulates_initial hr
  refine ⟨s, hs, hsim.trace, hsim.test, fun c hc => ?_, fun a ha => ?_,
    fun op o s' => test_of_empties, fun o throws ho => step_of_empty ho throws⟩
  · by_cases hheld : Held (contents r.tasks) c
    · obtain ⟨o, ho⟩ := hheld
      exact Or.inl ⟨⟨o, mem_contents.1 ho⟩, hsim.ok.alive c (Or.inl ⟨o, ho⟩)⟩
    · exact Or.inr ⟨fun o ho => hheld ⟨o, mem_contents.2 ho⟩, hsim.ok.gone c hc hheld⟩
  · obtain ⟨o, x, hx, hxa⟩ := hsim.owned a ha
    refine ⟨o, ⟨x, hx, hxa⟩, ?_⟩
    rintro q ⟨y, hy, hya⟩
    exact hsim.block_unique hy hya hx hxa

/-- Three callables in the buffer, on the heap and trivially copied, with moves, an assignment over
a task that is not empty, a self-assignment, a call and a destruction. -/
theorem task_refines_optional_callable_of_moves :
    ∃ (r : TaskReference) (s : TaskObjects), Interleaving.run TaskObjects.step .initial
        [.make 0 .awaitViaFunctor, .make 1 (.user ⟨100, true, true, false⟩), .moveConstruct 2 1,
          .make 3 (.user ⟨8, true, true, true⟩), .moveAssign 2 2, .moveAssign 0 2, .call 0 false,
          .clear 0, .moveAssign 1 3, .call 1 false, .destroy 1] = some s ∧
      s.memory.trace = r.trace.filter (TaskEvent.visible r.types) ∧
      s.memory.trace = [.destroy 0, .invoke 1, .destroy 1, .invoke 2] := by
  have hrun : (Interleaving.run TaskReference.step .initial
      [.make 0 .awaitViaFunctor, .make 1 (.user ⟨100, true, true, false⟩), .moveConstruct 2 1,
        .make 3 (.user ⟨8, true, true, true⟩), .moveAssign 2 2, .moveAssign 0 2, .call 0 false,
        .clear 0, .moveAssign 1 3, .call 1 false, .destroy 1]).any (fun r => decide
      (r.trace.filter (TaskEvent.visible r.types) =
        [.destroy 0, .invoke 1, .destroy 1, .invoke 2])) := by
    decide +kernel
  obtain ⟨r, hr, hp⟩ := (Option.any_eq_true _ _).1 hrun
  obtain ⟨s, hs, htrace, -⟩ := task_refines_optional_callable (by decide) hr
  exact ⟨r, s, hs, htrace, htrace.trans (of_decide_eq_true hp)⟩

end runs
end Concurrencpp
