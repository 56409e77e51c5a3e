import Mathlib.Tactic

/-!
# `generator`

`generator<type>` with its promise `generator_state` and its iterator, and the range-based `for`
over it (`results/generator.h`, `results/impl/generator_state.h`).

* The body of the coroutine is a parameter: one resumption takes its locals and the objects of the
  program to the next suspension.  What it yields is the address of an object, which the loop may
  read and write through `*it`.
* A coroutine that is resumed behind its end and a null `m_value` that is read are what the asserts
  of the source exclude; here both give `none`.  Only the assert on the alignment of `m_value` is
  left out: what a body yields is an object, and so is aligned for its type.
-/

namespace Concurrencpp

/-- How a resumed body gives control back: at a `co_yield`, at its end, or by an exception. -/
inductive Suspension (ε : Type)
  | yield (address : ℕ)
  | finish
  | throw (error : ε)

/-- The coroutine frame: the locals of the body, `done()`, and the promise with `m_value` and
`m_exception`. -/
structure GeneratorState (β ε : Type) where
  locals : β
  done : Bool
  value : Option ℕ
  exception : Option ε
  /-- `unhandled_exception` is called at the end of the body. -/
  quiet : done = false → exception = none

/-- What leaves `begin` or `operator++`. -/
inductive GeneratorError (ε : Type)
  | emptyGenerator
  | exception (error : ε)

namespace Generator

variable {α β ε : Type} (body : β → (ℕ → α) → β × (ℕ → α) × Suspension ε)

/-- The exception that leaves a call, if any, with the frame of the generator and the objects behind
it. -/
abbrev Outcome (α β ε : Type) := Option (GeneratorError ε) × Option (GeneratorState β ε) × (ℕ → α)

/-- `resume`: the body runs to `yield_value`, to `return_void` or to `unhandled_exception`. -/
def resume (f : GeneratorState β ε) (memory : ℕ → α) : Option (GeneratorState β ε × (ℕ → α)) :=
  if f.done then none
  else match body f.locals memory with
    | (locals, memory, .yield address) =>
        some ({ f with locals := locals, value := some address }, memory)
    | (locals, memory, .finish) =>
        some ({ f with locals := locals, done := true, quiet := by simp }, memory)
    | (locals, memory, .throw error) =>
        some ({ f with locals := locals, done := true, exception := some error, quiet := by simp },
          memory)

/-- `operator++`: `resume`, and `throw_if_exception` at the end of the body. -/
def increment (f : GeneratorState β ε) (memory : ℕ → α) : Option (Outcome α β ε) :=
  (resume body f memory).map fun r =>
    (if r.1.done then r.1.exception.map .exception else none, some r.1, r.2)

/-- `begin`, on a generator that has its frame or has been moved from. -/
def begin (g : Option (GeneratorState β ε)) (memory : ℕ → α) : Option (Outcome α β ε) :=
  g.elim (some (some .emptyGenerator, none, memory)) (increment body · memory)

/-! ### The range-based `for` -/

/-- How a loop ends, or that it goes on.  An exception of its own body is a `break` for the
generator. -/
inductive LoopEnd (ε : Type)
  | finished
  | broke
  | threw (error : GeneratorError ε)
  | going

/-- The end of a loop, the frame or what is seen of it, and the objects. -/
abbrev LoopResult (φ α ε : Type) := LoopEnd ε × Option φ × (ℕ → α)

variable (visit : ℕ → (ℕ → α) → Bool × (ℕ → α))

/-- What a loop does behind `begin` or `operator++`, up to the next `operator++`.  The body of the
loop, `visit`, gets the address of `*it` and all objects, and says whether it goes on. -/
def iteration (next : GeneratorState β ε → (ℕ → α) → Option (LoopResult (GeneratorState β ε) α ε)) :
    Outcome α β ε → Option (LoopResult (GeneratorState β ε) α ε)
  | (some error, g, memory) => some (.threw error, g, memory)
  | (none, g, memory) =>
      g.bind fun f =>
        -- `it != end()`
        if f.done then some (.finished, g, memory)
        else f.value.bind fun address =>
          let (goes, memory) := visit address memory
          if goes then next f memory else some (.broke, g, memory)

/-- The loop, up to the call of `operator++` behind `n` others. -/
def loop : ℕ → Outcome α β ε → Option (LoopResult (GeneratorState β ε) α ε)
  | 0 => iteration visit fun f memory => some (.going, some f, memory)
  | n + 1 => iteration visit fun f memory => (increment body f memory).bind (loop n)

/-- `for (auto& x : g)`. -/
def rangeFor (n : ℕ) (g : Option (GeneratorState β ε)) (memory : ℕ → α) :
    Option (LoopResult (GeneratorState β ε) α ε) :=
  (begin body g memory).bind (loop body visit n)

/-- The body of the generator up to its next `co_yield`, with the body of the loop in the place of
it. -/
def inlinedStep (next : β → (ℕ → α) → LoopResult (β × Bool) α ε) (locals : β) (memory : ℕ → α) :
    LoopResult (β × Bool) α ε :=
  match body locals memory with
  | (locals, memory, .finish) => (.finished, some (locals, true), memory)
  | (locals, memory, .throw error) => (.threw (.exception error), some (locals, true), memory)
  | (locals, memory, .yield address) =>
      let (goes, memory) := visit address memory
      if goes then next locals memory else (.broke, some (locals, false), memory)

/-- The loop without a generator. -/
def inlined : ℕ → β → (ℕ → α) → LoopResult (β × Bool) α ε
  | 0 => inlinedStep body visit fun locals memory => (.going, some (locals, false), memory)
  | n + 1 => inlinedStep body visit (inlined n)

/-- What the rest of the program depends on. -/
def observe (r : LoopResult (GeneratorState β ε) α ε) : LoopResult (β × Bool) α ε :=
  (r.1, r.2.1.map fun f => (f.locals, f.done), r.2.2)

variable {body visit} {f : GeneratorState β ε} {memory : ℕ → α}

theorem iteration_increment
    {next : GeneratorState β ε → (ℕ → α) → Option (LoopResult (GeneratorState β ε) α ε)}
    {next' : β → (ℕ → α) → LoopResult (β × Bool) α ε}
    (hnext : ∀ f memory, f.done = false →
      (next f memory).map observe = some (next' f.locals memory))
    (hdone : f.done = false) :
    ((increment body f memory).bind (iteration visit next)).map observe =
      some (inlinedStep body visit next' f.locals memory) := by
  have hexception := f.quiet hdone
  unfold inlinedStep
  simp only [increment, resume, hdone, Bool.false_eq_true, if_false]
  rcases body f.locals memory with ⟨locals, m, address | _ | error⟩
  · simp only [iteration, Option.map_some, Option.bind_some, Bool.false_eq_true, if_false]
    split_ifs
    · exact hnext ⟨locals, false, some address, f.exception, fun _ => hexception⟩ _ rfl
    · rfl
  all_goals simp [iteration, hexception, observe]

/-- **A loop over a generator is the body of the generator, with the loop's body in the place of
each `co_yield`.**  The generator may be new or have been left by a `break`, and the loop need not
end.  No assert of the generator or its iterator fails, that on the
alignment of `m_value` apart, which the model leaves out. -/
theorem rangeFor_eq_inlined (n : ℕ) (hdone : f.done = false) :
    (rangeFor body visit n (some f) memory).map observe =
      some (inlined body visit n f.locals memory) := by
  induction n generalizing f memory with
  | zero => exact iteration_increment (fun _ _ h => by simp [observe, h]) hdone
  | succ n ih => exact iteration_increment (fun _ _ => ih) hdone

/-- A body that sets the object 0 to 10, yields it, adds one to what it finds there and yields it
again. -/
def yieldTwice : ℕ → (ℕ → ℕ) → ℕ × (ℕ → ℕ) × Suspension ℕ
  | 0, memory => (1, Function.update memory 0 10, .yield 0)
  | 1, memory => (2, Function.update memory 0 (memory 0 + 1), .yield 0)
  | locals, memory => (locals, memory, .finish)

/-- One loop writes 41 to the object that it is shown and breaks; the next one goes on behind it. -/
theorem rangeFor_eq_inlined_of_break :
    ∃ f memory, rangeFor yieldTwice (fun a memory => (false, Function.update memory a 41)) 5
        (some ⟨0, false, none, none, fun _ => rfl⟩) (fun _ => 0) = some (.broke, some f, memory) ∧
      ((rangeFor yieldTwice (fun a memory => (true, Function.update memory 1 (memory a))) 5 (some f)
        memory).map observe).map (fun r => (r.1, r.2.2 1)) = some (.finished, 42) := by
  refine ⟨_, _, rfl, ?_⟩
  rw [rangeFor_eq_inlined 5 rfl]
  rfl

end Generator
end Concurrencpp
