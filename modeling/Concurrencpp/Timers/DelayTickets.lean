import Concurrencpp.Placement
import Concurrencpp.Timers.TimerQueue

/-!
# Where a delay object is

The functor of a delay object is invoked when a posted task of its timer is executed, and destroyed
with its `timer_state`.  Both happen once because the timer passes through the queue once.  A
`Ticket` is what is left to happen to a timer, together with the name of the `shared_ptr` that it
comes with:

* without a task, the timer may be fired.  This ticket begins in `make_timer_impl` and goes through
  a request, the requests that the worker has taken, and the multiset, until the timer has been
  fired;
* with a task, the task has been posted and not been destroyed.

`DelayOk` says that no ticket is in two places, that a ticket for a delay object owns it, and that
its functor is armed as long as the timer may still be fired or executed.
-/

namespace Concurrencpp

open Placement
open Function (update update_self update_of_ne forall_update_iff)

def TimerState.isDelay (x : TimerState) : Bool :=
  match x.callable with
  | .bound => false
  | .functor _ => true

/-- `task` is `none` for the timer itself, and `some k` for its `k`th posted task; `pending` says
that the timer has not been fired yet, or that the task has not been executed yet. -/
structure Ticket where
  timer : ℕ
  task : Option ℕ
  name : Owner
  pending : Bool

def Ticket.key (n : Ticket) : ℕ × Option ℕ := (n.timer, n.task)

/-! ### Tickets and removals of a stack -/

/-- The timers that are to be added. -/
def addTickets (name : Owner) : List (ℕ × TimerRequest) → List Ticket
  | [] => []
  | (x, .add) :: rs => ⟨x, none, name, true⟩ :: addTickets name rs
  | (_, .remove) :: rs => addTickets name rs

/-- The timers that are to be removed. -/
def removeMentions : List (ℕ × TimerRequest) → List (ℕ × Bool)
  | [] => []
  | (_, .add) :: rs => removeMentions rs
  | (x, .remove) :: rs => (x, true) :: removeMentions rs

def storedTickets (stored : List (ℕ × ℕ)) : List Ticket :=
  stored.map fun p => ⟨p.1, some p.2, .task p.2, true⟩

/-- The timer has not been given to the queue yet. -/
def MakePc.pending : MakePc → Bool
  | .lock | .addTimer | .addInternalTimer _ => true
  | _ => false

def WorkLoopPc.tickets (t : TimerThread) : WorkLoopPc → List Ticket
  | .process rs | .erase _ rs | .unmap _ rs | .removed _ rs => addTickets (.taken t .add) rs
  | .extracted _ _ x => [⟨x, none, .element t, true⟩]
  | .post _ _ x k => [⟨x, some k, .posting t, true⟩, ⟨x, none, .element t, false⟩]
  | .fired _ _ x _ | .unmapped _ x | .dying _ x => [⟨x, none, .element t, false⟩]
  | _ => []

def WorkLoopPc.mentions : WorkLoopPc → List (ℕ × Bool)
  | .process rs => removeMentions rs
  | .erase x rs | .unmap x rs | .removed x rs => (x, true) :: removeMentions rs
  | _ => []

def TimerQueueInternal.elements (t : TimerThread) (q : TimerQueueInternal) : List Ticket :=
  q.timers.map fun e => ⟨e.2, none, .element t, true⟩

def Frame.tickets (t : TimerThread) (depth : ℕ) : Frame → List Ticket
  | .makeTimer x pc => if pc.pending then [⟨x, none, .timerState t depth, true⟩] else []
  | .workLoop pc q _ => pc.tickets t ++ q.elements t
  | .task x k pc => [⟨x, some k, .running t depth, pc = .execute⟩]
  | _ => []

/-- The timers that are being made, and, with `true`, those that are being cancelled or removed. -/
def Frame.mentions : Frame → List (ℕ × Bool)
  | .makeTimer x _ => [(x, false)]
  | .cancel x _ => [(x, true)]
  | .workLoop pc _ _ => pc.mentions
  | _ => []

namespace TimerSystem

def stackTickets (t : TimerThread) : List Frame → List Ticket
  | [] => []
  | f :: rest => f.tickets t rest.length ++ stackTickets t rest

def stackMentions : List Frame → List (ℕ × Bool)
  | [] => []
  | f :: rest => f.mentions ++ stackMentions rest

/-- The tickets of the request queue and of the executors, and those of a thread. -/
def ticketsAt (frames : TimerThread → List Frame) (queue : List (ℕ × TimerRequest))
    (stored : List (ℕ × ℕ)) : Option TimerThread → List Ticket
  | none => addTickets (.request .add) queue ++ storedTickets stored
  | some t => stackTickets t (frames t)

def mentionsAt (frames : TimerThread → List Frame) (queue : List (ℕ × TimerRequest)) :
    Option TimerThread → List (ℕ × Bool)
  | none => removeMentions queue
  | some t => stackMentions (frames t)

/-! ### The invariant -/

/-- A timer that is mentioned has been made, and one that is cancelled or removed is no delay
object. -/
def MentionOk (created : ℕ) (timers : ℕ → TimerState) (m : ℕ × Bool) : Prop :=
  m.1 < created ∧ (m.2 = true → (timers m.1).isDelay = false)

structure DelayOk (tickets : Option TimerThread → List Ticket)
    (mentions : Option TimerThread → List (ℕ × Bool)) (created : ℕ) (timers : ℕ → TimerState)
    (owners : ℕ → List Owner) (posts : ℕ → ℕ) (w : Suspensions) : Prop where
  unique : Placed fun p => (tickets p).map Ticket.key
  old : ∀ p, ∀ n ∈ tickets p, n.timer < created
  posted : ∀ p, ∀ n ∈ tickets p, ∀ k ∈ n.task, k < posts n.timer
  mentioned : ∀ p, ∀ m ∈ mentions p, MentionOk created timers m
  first : ∀ p, ∀ n ∈ tickets p, n.task = none → n.pending = true →
    (timers n.timer).isOneshot = true → posts n.timer = 0
  once : ∀ x, (timers x).isOneshot = true → posts x ≤ 1
  postsNew : ∀ x, created ≤ x → posts x = 0
  ownersNew : ∀ x, created ≤ x → owners x = []
  timersNew : ∀ x, created ≤ x → (timers x).isDelay = false
  oneshot : ∀ x, (timers x).isDelay = true → (timers x).isOneshot = true
  noHandle : ∀ x, (timers x).isDelay = true → .handle ∉ owners x
  owned : ∀ p, ∀ n ∈ tickets p, (timers n.timer).isDelay = true → n.name ∈ owners n.timer
  armed : ∀ p, ∀ n ∈ tickets p, n.pending = true → ∀ f, (timers n.timer).callable = .functor f →
    f.interrupted = some n.timer
  functor : ∀ x f, (timers x).callable = .functor f →
    (f.interrupted = some x ∧ w.Pending x ∧ owners x ≠ []) ∨ (f.interrupted = none ∧ w.Settled x)
  bound : ∀ x, (timers x).isDelay = false → w.Pending x

variable {f : AwaitViaFunctor}

theorem isDelay_of_functor {x : TimerState} (h : x.callable = .functor f) : x.isDelay = true := by
  unfold TimerState.isDelay
  rw [h]

theorem functor_of_isDelay {x : TimerState} (h : x.isDelay = true) :
    ∃ f, x.callable = .functor f := by
  unfold TimerState.isDelay at h
  split at h
  · cases h
  next f hf => exact ⟨f, hf⟩

/-- The tickets behind a step come from those before it, and own their delay objects. -/
structure Relocated (tickets tickets' : Option TimerThread → List Ticket)
    (mentions' : Option TimerThread → List (ℕ × Bool)) (created : ℕ) (timers : ℕ → TimerState)
    (owners' : ℕ → List Owner) : Prop where
  unique : Placed fun p => (tickets' p).map Ticket.key
  origin : ∀ p, ∀ n' ∈ tickets' p, ∃ q, ∃ n ∈ tickets q, n.key = n'.key ∧
    (n'.pending = true → (timers n'.timer).isOneshot = true → n.pending = true)
  owned : ∀ p, ∀ n' ∈ tickets' p, (timers n'.timer).isDelay = true → n'.name ∈ owners' n'.timer
  mentioned : ∀ p, ∀ m ∈ mentions' p, MentionOk created timers m

/-- What a step may do to the timers: the kind of a timer stays, and the functor of a delay object
that may still be fired or executed is not touched. -/
structure Functors (tickets' : Option TimerThread → List Ticket) (timers timers' : ℕ → TimerState)
    (owners' : ℕ → List Owner) (w' : Suspensions) : Prop where
  isOneshot : ∀ x, (timers' x).isOneshot = (timers x).isOneshot
  isDelay : ∀ x, (timers' x).isDelay = (timers x).isDelay
  pending : ∀ p, ∀ n ∈ tickets' p, n.pending = true →
    (timers' n.timer).callable = (timers n.timer).callable
  functor : ∀ x f, (timers' x).callable = .functor f →
    (f.interrupted = some x ∧ w'.Pending x ∧ owners' x ≠ []) ∨ (f.interrupted = none ∧ w'.Settled x)
  bound : ∀ x, (timers x).isDelay = false → w'.Pending x

section DelayOk

variable {tickets tickets' : Option TimerThread → List Ticket}
  {mentions mentions' : Option TimerThread → List (ℕ × Bool)} {created : ℕ}
  {timers timers' : ℕ → TimerState} {owners owners' : ℕ → List Owner} {posts : ℕ → ℕ}
  {w w' : Suspensions} {x y : ℕ} {o : Owner}

section

variable (h : DelayOk tickets mentions created timers owners posts w)
include h

theorem DelayOk.change (hr : Relocated tickets tickets' mentions' created timers owners')
    (hf : Functors tickets' timers timers' owners' w')
    (hhandle : ∀ x, (timers x).isDelay = true → .handle ∈ owners' x → .handle ∈ owners x)
    (hnew : ∀ x, created ≤ x → owners' x = []) :
    DelayOk tickets' mentions' created timers' owners' posts w' := by
  -- the timer and the task of a ticket are those of its origin
  have horigin : ∀ p, ∀ n' ∈ tickets' p, ∃ q, ∃ n ∈ tickets q, n.timer = n'.timer ∧
      n.task = n'.task ∧
      (n'.pending = true → (timers n'.timer).isOneshot = true → n.pending = true) := by
    intro p n' hn'
    obtain ⟨q, n, hn, hkey, hp⟩ := hr.origin p n' hn'
    obtain ⟨hx, hk⟩ := Prod.mk.inj hkey
    exact ⟨q, n, hn, hx, hk, hp⟩
  constructor
  case unique => exact hr.unique
  case old =>
    intro p n' hn'
    obtain ⟨q, n, hn, hx, -⟩ := horigin p n' hn'
    exact hx ▸ h.old q n hn
  case posted =>
    intro p n' hn' k hk
    obtain ⟨q, n, hn, hx, htask, -⟩ := horigin p n' hn'
    rw [← htask] at hk
    exact hx ▸ h.posted q n hn k hk
  case mentioned =>
    intro p m hm
    unfold MentionOk
    rw [hf.isDelay]
    exact hr.mentioned p m hm
  case first =>
    intro p n' hn' htask hpend hone
    obtain ⟨q, n, hn, hx, hk, hp⟩ := horigin p n' hn'
    rw [hf.isOneshot] at hone
    rw [← hx]
    exact h.first q n hn (hk.trans htask) (hp hpend hone) (hx ▸ hone)
  case once =>
    intro x hone
    exact h.once x ((hf.isOneshot x).symm.trans hone)
  case postsNew => exact h.postsNew
  case ownersNew => exact hnew
  case timersNew => exact fun x hx => (hf.isDelay x).trans (h.timersNew x hx)
  case oneshot =>
    intro x hx
    rw [hf.isOneshot]
    exact h.oneshot x ((hf.isDelay x).symm.trans hx)
  case noHandle =>
    intro x hx hmem
    rw [hf.isDelay] at hx
    exact h.noHandle x hx (hhandle x hx hmem)
  case owned =>
    intro p n' hn' hdelay
    exact hr.owned p n' hn' ((hf.isDelay _).symm.trans hdelay)
  case armed =>
    intro p n' hn' hpend f hcall
    obtain ⟨q, n, hn, hx, -, hp⟩ := horigin p n' hn'
    rw [hf.pending p n' hn' hpend] at hcall
    have hone := h.oneshot n'.timer (isDelay_of_functor hcall)
    rw [← hx] at hcall ⊢
    exact h.armed q n hn (hp hpend hone) f hcall
  case functor => exact hf.functor
  case bound => exact fun x hx => hf.bound x ((hf.isDelay x).symm.trans hx)

/-- Only what is mentioned changes. -/
theorem DelayOk.remention (hm : ∀ p, ∀ m ∈ mentions' p, MentionOk created timers m) :
    DelayOk tickets mentions' created timers owners posts w :=
  { h with mentioned := hm }

/-- No delay object loses its last reference, and no functor is touched. -/
theorem DelayOk.functors
    (hsame : ∀ x, (timers' x).isOneshot = (timers x).isOneshot ∧
      (timers' x).callable = (timers x).callable)
    (hlast : ∀ x, (timers x).isDelay = true → owners x ≠ [] → owners' x ≠ []) :
    Functors tickets' timers timers' owners' w where
  isOneshot x := (hsame x).1
  isDelay x := by
    unfold TimerState.isDelay
    rw [(hsame x).2]
  pending _ n _ _ := (hsame n.timer).2
  functor x f hf := by
    rw [(hsame x).2] at hf
    rcases h.functor x f hf with ⟨harmed, hpend, hne⟩ | hset
    · exact .inl ⟨harmed, hpend, hlast x (isDelay_of_functor hf) hne⟩
    · exact .inr hset
  bound := h.bound

/-- Nothing happens to a delay object. -/
theorem DelayOk.calm
    (hr : Relocated tickets tickets' mentions' created timers owners')
    (hsame : ∀ x, (timers' x).isOneshot = (timers x).isOneshot ∧
      (timers' x).callable = (timers x).callable)
    (howners : ∀ x, (timers x).isDelay = true → owners' x = owners x)
    (hnew : ∀ x, created ≤ x → owners' x = []) :
    DelayOk tickets' mentions' created timers' owners' posts w := by
  refine h.change hr (h.functors hsame fun x hx hne => ?_) (fun x hx hmem => ?_) hnew
  · rwa [howners x hx]
  · rwa [howners x hx] at hmem

/-- A functor that no task will invoke any more is settled. -/
theorem DelayOk.settle (hf : (timers x).callable = .functor f) (hw : w'.Settled x)
    (hsame : w.SameBut w' x) (hlast : ∀ y, y ≠ x → owners' y = owners y)
    (hpending : ∀ p, ∀ n ∈ tickets' p, n.pending = true → n.timer ≠ x) :
    Functors tickets' timers
      (update timers x { timers x with callable := .functor f.disarm }) owners' w' := by
  constructor
  case isOneshot =>
    exact (forall_update_iff timers fun y z => z.isOneshot = (timers y).isOneshot).2
      ⟨rfl, fun _ _ => rfl⟩
  case isDelay =>
    exact (forall_update_iff timers fun y z => z.isDelay = (timers y).isDelay).2
      ⟨(isDelay_of_functor hf).symm, fun _ _ => rfl⟩
  case pending =>
    intro p n hn hpend
    rw [update_of_ne (hpending p n hn hpend)]
  case functor =>
    intro y g hg
    by_cases hyx : y = x
    · subst hyx
      rw [update_self] at hg
      cases hg
      exact .inr ⟨rfl, hw⟩
    · rw [update_of_ne hyx] at hg
      rw [hlast y hyx]
      rcases h.functor y g hg with ⟨harmed, hpend, hne⟩ | ⟨hdis, hset⟩
      · exact .inl ⟨harmed, hpend.congr hsame hyx, hne⟩
      · exact .inr ⟨hdis, hset.congr hsame hyx⟩
  case bound =>
    intro y hy
    refine (h.bound y hy).congr hsame ?_
    rintro rfl
    rw [isDelay_of_functor hf] at hy
    cases hy

/-- At most one task of a delay object is posted. -/
theorem DelayOk.task_eq {p q : Option TimerThread} {n n' : Ticket} (hn : n ∈ tickets p)
    (hn' : n' ∈ tickets q) (hx : n.timer = n'.timer) (hdelay : (timers n.timer).isDelay = true)
    (htask : n.task ≠ none) (htask' : n'.task ≠ none) : n.key = n'.key := by
  obtain ⟨k, hk⟩ := Option.ne_none_iff_exists'.1 htask
  obtain ⟨k', hk'⟩ := Option.ne_none_iff_exists'.1 htask'
  have honce := h.once n.timer (h.oneshot _ hdelay)
  have hlt := h.posted p n hn k hk
  have hlt' := h.posted q n' hn' k' hk'
  rw [← hx] at hlt'
  unfold Ticket.key
  rw [hx, hk, hk', show k = k' by omega]

end

/-! ### References -/

/-- The references to a timer change, and some are left. -/
theorem DelayOk.reown {os : List Owner} (h : DelayOk tickets mentions created timers owners posts w)
    (hx : x < created) (hne : os ≠ []) (hhandle : .handle ∈ os → .handle ∈ owners x)
    (hr : Relocated tickets tickets' mentions' created timers (update owners x os))
    (hsame : ∀ x, (timers' x).isOneshot = (timers x).isOneshot ∧
      (timers' x).callable = (timers x).callable) :
    DelayOk tickets' mentions' created timers' (update owners x os) posts w := by
  refine h.change hr (h.functors hsame fun y _ hown => ?_) (fun y _ hmem => ?_) fun y hy => ?_
  · exact (forall_update_iff owners fun y os => owners y ≠ [] → os ≠ []).2
      ⟨fun _ => hne, fun _ _ => id⟩ y hown
  · exact (forall_update_iff owners fun y os => .handle ∈ os → .handle ∈ owners y).2
      ⟨hhandle, fun _ _ => id⟩ y hmem
  · rw [update_of_ne (by omega)]
    exact h.ownersNew y hy

theorem mem_of_mem_update_erase {o' : Owner} (h : o' ∈ update owners x ((owners x).erase o) y) :
    o' ∈ owners y :=
  (forall_update_iff owners fun y os => o' ∈ os → o' ∈ owners y).2
    ⟨List.mem_of_mem_erase, fun _ _ => id⟩ y h

theorem mem_update_cons {o' : Owner} (h : o' ∈ owners y) : o' ∈ update owners x (o :: owners x) y :=
  (forall_update_iff owners fun y os => o' ∈ owners y → o' ∈ os).2
    ⟨List.mem_cons_of_mem _, fun _ _ => id⟩ y h

theorem DelayOk.erase_new (h : DelayOk tickets mentions created timers owners posts w)
    (hy : created ≤ y) : update owners x ((owners x).erase o) y = [] := by
  refine List.eq_nil_iff_forall_not_mem.2 fun o' ho' => ?_
  have hmem := mem_of_mem_update_erase ho'
  rw [h.ownersNew y hy] at hmem
  exact List.not_mem_nil hmem

/-- A reference dies that is not the last one to a delay object. -/
theorem DelayOk.erase (h : DelayOk tickets mentions created timers owners posts w)
    (hr : Relocated tickets tickets' mentions' created timers
      (update owners x ((owners x).erase o)))
    (hne : (timers x).isDelay = true → (owners x).erase o ≠ []) :
    DelayOk tickets' mentions' created timers
      (update owners x ((owners x).erase o)) posts w := by
  refine h.change hr (h.functors (fun _ => ⟨rfl, rfl⟩) fun y hy hown => ?_)
    (fun y _ hmem => mem_of_mem_update_erase hmem) fun y hy => h.erase_new hy
  exact (forall_update_iff owners fun y os => (timers y).isDelay = true → owners y ≠ [] → os ≠ []).2
    ⟨fun hy _ => hne hy, fun _ _ _ => id⟩ y hy hown

/-- The last reference to a delay object dies: the destructor of its functor settles the suspension,
unless it has been invoked. -/
theorem DelayOk.eraseLast (h : DelayOk tickets mentions created timers owners posts w)
    (hr : Relocated tickets tickets' mentions' created timers
      (update owners x ((owners x).erase o)))
    (he : (owners x).erase o = []) (hf : (timers x).callable = .functor f) :
    DelayOk tickets' mentions' created
      (update timers x { timers x with callable := .functor f.disarm })
      (update owners x ((owners x).erase o)) posts (f.destroy w) := by
  have hw : (f.destroy w).Settled x ∧ w.SameBut (f.destroy w) x := by
    rcases h.functor x f hf with ⟨harmed, hpend, -⟩ | ⟨hdis, hset⟩
    · exact Suspensions.destroy_of_armed harmed hpend
    · rw [Suspensions.destroy_of_disarmed hdis]
      exact ⟨hset, fun j _ => ⟨rfl, rfl, rfl, rfl⟩⟩
  refine h.change hr (h.settle hf hw.1 hw.2 (fun y hyx => update_of_ne hyx ..) ?_)
    (fun y _ hmem => mem_of_mem_update_erase hmem) fun y hy => h.erase_new hy
  -- no ticket of the timer is left: it would refer to it
  rintro p n hn - rfl
  have hmem := hr.owned p n hn (isDelay_of_functor hf)
  rw [update_self, he] at hmem
  exact List.not_mem_nil hmem

/-! ### A timer is made, a task is posted -/

/-- A ticket is put somewhere that no place has. -/
structure Issued (tickets tickets' : Option TimerThread → List Ticket) (p : Option TimerThread)
    (n : Ticket) : Prop where
  here : tickets' p = n :: tickets p
  elsewhere : ∀ q, q ≠ p → tickets' q = tickets q

theorem Issued.mem {p q : Option TimerThread} {n m : Ticket} (h : Issued tickets tickets' p n)
    (hm : m ∈ tickets' q) : m = n ∨ m ∈ tickets q := by
  by_cases hq : q = p
  · subst hq
    rw [h.here] at hm
    exact List.mem_cons.1 hm
  · rw [h.elsewhere q hq] at hm
    exact .inr hm

variable {p : Option TimerThread}

theorem Issued.unique {n : Ticket} (h : Issued tickets tickets' p n)
    (hu : Placed fun p => (tickets p).map Ticket.key) (hnew : ∀ q, ∀ m ∈ tickets q, m.key ≠ n.key) :
    Placed fun p => (tickets' p).map Ticket.key := by
  refine hu.insert (i := n.key) ?_ (p := p) (by rw [h.here]; exact .refl _) fun q hq =>
    congrArg (List.map Ticket.key) (h.elsewhere q hq)
  rintro ⟨q, hq⟩
  obtain ⟨m, hm, hkey⟩ := List.mem_map.1 hq
  exact hnew q m hm hkey

/-- The `k`th task of a timer is posted, which is its last ticket to be fired when it is
one-shot. -/
theorem DelayOk.post (h : DelayOk tickets mentions created timers owners posts w) (hx : x < created)
    (hi : Issued tickets tickets' p ⟨x, some (posts x), o, true⟩)
    (hfired : ∀ q, ∀ n ∈ tickets q, n.timer = x → n.task = none → n.pending = false)
    (hzero : (timers x).isOneshot = true → posts x = 0)
    (harmed : ∀ f, (timers x).callable = .functor f → f.interrupted = some x) (ho : o ≠ .handle) :
    DelayOk tickets' mentions created timers (update owners x (o :: owners x))
      (update posts x (posts x + 1)) w := by
  have hle : ∀ y, posts y ≤ update posts x (posts x + 1) y :=
    (forall_update_iff posts fun y k => posts y ≤ k).2 ⟨Nat.le_succ _, fun _ _ => le_rfl⟩
  constructor
  case unique =>
    refine hi.unique h.unique fun q m hm hkey => ?_
    obtain ⟨hmx, hmk⟩ := Prod.mk.inj hkey
    have hlt := h.posted q m hm (posts x) hmk
    rw [hmx] at hlt
    exact lt_irrefl _ hlt
  case old =>
    intro q m hm
    rcases hi.mem hm with rfl | hm
    · exact hx
    · exact h.old q m hm
  case posted =>
    intro q m hm k hk
    rcases hi.mem hm with rfl | hm
    · cases hk
      rw [update_self]
      exact Nat.lt_succ_self _
    · exact (h.posted q m hm k hk).trans_le (hle _)
  case mentioned => exact h.mentioned
  case first =>
    intro q m hm htask hpend hone
    rcases hi.mem hm with rfl | hm
    · cases htask
    · have hmx : m.timer ≠ x := by
        intro hmx
        rw [hfired q m hm hmx htask] at hpend
        cases hpend
      rw [update_of_ne hmx]
      exact h.first q m hm htask hpend hone
  case once =>
    exact (forall_update_iff posts fun y k => (timers y).isOneshot = true → k ≤ 1).2
      ⟨fun hone => by rw [hzero hone], fun y _ => h.once y⟩
  case postsNew =>
    intro y hy
    rw [update_of_ne (by omega)]
    exact h.postsNew y hy
  case ownersNew =>
    intro y hy
    rw [update_of_ne (by omega)]
    exact h.ownersNew y hy
  case timersNew => exact h.timersNew
  case oneshot => exact h.oneshot
  case noHandle =>
    refine (forall_update_iff owners fun y os => (timers y).isDelay = true → .handle ∉ os).2
      ⟨fun hy hmem => ?_, fun y _ => h.noHandle y⟩
    exact h.noHandle x hy ((List.mem_cons.1 hmem).resolve_left ho.symm)
  case owned =>
    intro q m hm hdelay
    rcases hi.mem hm with rfl | hm
    · simp
    · exact mem_update_cons (h.owned q m hm hdelay)
  case armed =>
    intro q m hm hpend f hf
    rcases hi.mem hm with rfl | hm
    · exact harmed f hf
    · exact h.armed q m hm hpend f hf
  case functor =>
    intro y f hf
    rcases h.functor y f hf with ⟨harm, hpend, hne⟩ | hset
    · refine .inl ⟨harm, hpend, ?_⟩
      exact (forall_update_iff owners fun y os => owners y ≠ [] → os ≠ []).2
        ⟨fun _ => List.cons_ne_nil _ _, fun _ _ => id⟩ y hne
    · exact .inr hset
  case bound => exact h.bound

/-- A timer is made, with the functor of its own suspension when it belongs to a delay object. -/
theorem DelayOk.make {timer : TimerState}
    (h : DelayOk tickets mentions created timers owners posts w)
    (hi : Issued tickets tickets' p ⟨created, none, o, true⟩)
    (hm : ∀ q, ∀ m ∈ mentions' q, m ∈ mentions q ∨ m = (created, false))
    (htimer : ∀ f, timer.callable = .functor f →
      f.interrupted = some created ∧ timer.isOneshot = true) (ho : o ≠ .handle) :
    DelayOk tickets' mentions' (created + 1) (update timers created timer)
      (update owners created (o :: owners created)) posts w := by
  have hpend : w.Pending created := h.bound _ (h.timersNew _ le_rfl)
  constructor
  case unique =>
    refine hi.unique h.unique fun q m hm hkey => ?_
    exact (h.old q m hm).ne (congrArg Prod.fst hkey)
  case old =>
    intro q m hm
    rcases hi.mem hm with rfl | hm
    · exact Nat.lt_succ_self _
    · exact (h.old q m hm).trans (Nat.lt_succ_self _)
  case posted =>
    intro q m hm k hk
    rcases hi.mem hm with rfl | hm
    · cases hk
    · exact h.posted q m hm k hk
  case mentioned =>
    intro q m hmem
    rcases hm q m hmem with hmem | rfl
    · obtain ⟨hlt, hdelay⟩ := h.mentioned q m hmem
      unfold MentionOk
      rw [update_of_ne hlt.ne]
      exact ⟨hlt.trans (Nat.lt_succ_self _), hdelay⟩
    · exact ⟨Nat.lt_succ_self _, fun hb => by cases hb⟩
  case first =>
    intro q m hm htask hpend hone
    rcases hi.mem hm with rfl | hm
    · exact h.postsNew _ le_rfl
    · rw [update_of_ne (h.old q m hm).ne] at hone
      exact h.first q m hm htask hpend hone
  case once =>
    refine (forall_update_iff timers fun y z => z.isOneshot = true → posts y ≤ 1).2
      ⟨fun _ => ?_, fun y _ => h.once y⟩
    rw [h.postsNew _ le_rfl]
    exact Nat.zero_le _
  case postsNew => exact fun y hy => h.postsNew y (by omega)
  case ownersNew =>
    intro y hy
    rw [update_of_ne (by omega)]
    exact h.ownersNew y (by omega)
  case timersNew =>
    intro y hy
    rw [update_of_ne (by omega)]
    exact h.timersNew y (by omega)
  case oneshot =>
    refine (forall_update_iff timers fun _ z => z.isDelay = true → z.isOneshot = true).2
      ⟨fun hdelay => ?_, fun y _ => h.oneshot y⟩
    obtain ⟨f, hf⟩ := functor_of_isDelay hdelay
    exact (htimer f hf).2
  case noHandle =>
    intro y hy hmem
    by_cases hyx : y = created
    · subst hyx
      rw [update_self, h.ownersNew y le_rfl] at hmem
      exact ho (List.mem_singleton.1 hmem).symm
    · rw [update_of_ne hyx] at hy hmem
      exact h.noHandle y hy hmem
  case owned =>
    intro q m hm hdelay
    rcases hi.mem hm with rfl | hm
    · simp
    · rw [update_of_ne (h.old q m hm).ne] at hdelay ⊢
      exact h.owned q m hm hdelay
  case armed =>
    intro q m hm hpend f hf
    rcases hi.mem hm with rfl | hm
    · rw [update_self] at hf
      exact (htimer f hf).1
    · rw [update_of_ne (h.old q m hm).ne] at hf
      exact h.armed q m hm hpend f hf
  case functor =>
    intro y f hf
    by_cases hyx : y = created
    · subst hyx
      rw [update_self] at hf ⊢
      exact .inl ⟨(htimer f hf).1, hpend, List.cons_ne_nil _ _⟩
    · rw [update_of_ne hyx] at hf ⊢
      exact h.functor y f hf
  case bound =>
    exact (forall_update_iff timers fun y z => z.isDelay = false → w.Pending y).2
      ⟨fun _ => hpend, fun y _ => h.bound y⟩

end DelayOk
end TimerSystem
end Concurrencpp
