import Concurrencpp.Results.HandOffOnce
import Concurrencpp.Timers.DelayFunctions
import Concurrencpp.Timers.TimerUserCode

/-!
# A coroutine that is handed off is resumed once

* `HandedOff` is about a functor that is moved through tasks, closures and queues.
* `Delayed` is about the functor of a delay object, which stays in its `timer_state`.
-/

namespace Concurrencpp

open Interleaving
namespace TimerSystem

/-- Nothing has happened to the functor of the delay object and its `timer_state` lives, or its
coroutine has been resumed exactly once. -/
def Delayed (s : TimerSystem) (x : ℕ) (f : AwaitViaFunctor) : Prop :=
  (s.coroutines.Pending x ∧ f.interrupted = some x ∧ s.owners x ≠ []) ∨
  (ResumedOnce s.coroutines x ∧ f.interrupted = none)

theorem DelayInv.delayed {s : TimerSystem} {x : ℕ} {f : AwaitViaFunctor} (h : s.DelayInv)
    (hf : (s.timers x).callable = .functor f) : s.Delayed x f := by
  rcases h.ok.functor x f hf with ⟨harmed, hpend, hne⟩ | ⟨hdis, hset⟩
  · exact .inl ⟨hpend, harmed, hne⟩
  · exact .inr ⟨hset.resumedOnce, hdis⟩

end TimerSystem

end Concurrencpp
