import Concurrencpp.Timers.DelayTickets
import Concurrencpp.Timers.TimerLockSteps

/-!
# Tickets on stacks

What the steps of the timer queue do to the tickets of the thread that takes them.

* `Fewer` and `StackBelow`: the thread has no new tickets, and in `StackBelow` they keep their
  names.
* `DelayInv`: `DelayOk` for a state of the timer queue.
* `DelayInv.goto`, `DelayInv.drop`, `DelayInv.copy`: the steps that move no ticket.
-/

namespace Concurrencpp

open Placement
open Function (update update_self update_of_ne update_eq_self forall_update_iff)

namespace TimerSystem

variable {s s' : TimerSystem} {t u : TimerThread} {f g : Frame} {rest fs fs' : List Frame}
  {timers timers' : ℕ → TimerState} {l l' r : List Ticket} {n : Ticket} {x y : ℕ} {o o' : Owner}

/-- The tickets `l'` are among the tickets `l`, up to their names. -/
structure Fewer (timers : ℕ → TimerState) (l' l : List Ticket) : Prop where
  keys : (l'.map Ticket.key).Subperm (l.map Ticket.key)
  origin : ∀ n' ∈ l', ∃ n ∈ l, n.key = n'.key ∧
    (n'.pending = true → (timers n'.timer).isOneshot = true → n.pending = true)

theorem Fewer.refl : Fewer timers l l :=
  ⟨.refl _, fun n hn => ⟨n, hn, rfl, fun h _ => h⟩⟩

theorem Fewer.append {r' : List Ticket} (h : Fewer timers l' l) (hr : Fewer timers r' r) :
    Fewer timers (l' ++ r') (l ++ r) where
  keys := by
    rw [List.map_append, List.map_append]
    exact h.keys.append hr.keys
  origin n' hn' := by
    rcases List.mem_append.1 hn' with hn' | hn'
    · obtain ⟨n, hn, hkey⟩ := h.origin n' hn'
      exact ⟨n, List.mem_append_left _ hn, hkey⟩
    · obtain ⟨n, hn, hkey⟩ := hr.origin n' hn'
      exact ⟨n, List.mem_append_right _ hn, hkey⟩

theorem keys_subperm (h : l'.Subperm l) : (l'.map Ticket.key).Subperm (l.map Ticket.key) := by
  obtain ⟨k, hperm, hsub⟩ := h
  exact ⟨k.map Ticket.key, hperm.map _, hsub.map _⟩

theorem Fewer.of_subperm (h : l'.Subperm l) : Fewer timers l' l where
  keys := keys_subperm h
  origin n' hn' := ⟨n', h.subset hn', rfl, fun hp _ => hp⟩

theorem Fewer.trans (h : Fewer timers r l') (h' : Fewer timers l' l) : Fewer timers r l where
  keys := h.keys.trans h'.keys
  origin n' hn' := by
    obtain ⟨m, hm, hkey, hp⟩ := h.origin n' hn'
    obtain ⟨n, hn, hkey', hp'⟩ := h'.origin m hm
    have hx : m.timer = n'.timer := congrArg Prod.fst hkey
    exact ⟨n, hn, hkey'.trans hkey, fun hpend hone => hp' (hp hpend hone) (hx ▸ hone)⟩

theorem relocated_of_fewer {tickets tickets' : Option TimerThread → List Ticket}
    {mentions' : Option TimerThread → List (ℕ × Bool)} {created : ℕ} {owners' : ℕ → List Owner}
    (hu : Placed fun p => (tickets p).map Ticket.key)
    (hother : ∀ u, u ≠ t → tickets' (some u) = tickets (some u))
    (hfew : Fewer timers (tickets' none ++ tickets' (some t)) (tickets none ++ tickets (some t)))
    (howned : ∀ p, ∀ n' ∈ tickets' p, (timers n'.timer).isDelay = true → n'.name ∈ owners' n'.timer)
    (hmentioned : ∀ p, ∀ m ∈ mentions' p, MentionOk created timers m) :
    Relocated tickets tickets' mentions' created timers owners' where
  unique := by
    have hps : [none, some t].Nodup := by simp
    refine hu.rearrange hps ?_ ?_
    · simpa using hfew.keys
    · intro p hp
      cases p with
      | none => simp at hp
      | some u =>
        have hne : u ≠ t := by
          rintro rfl
          simp at hp
        exact congrArg (List.map Ticket.key) (hother u hne)
  origin p n' hn' := by
    -- a ticket of the queue or of the thread, or one of another thread
    have hmem : n' ∈ tickets' none ++ tickets' (some t) →
        ∃ q, ∃ n ∈ tickets q, n.key = n'.key ∧
          (n'.pending = true → (timers n'.timer).isOneshot = true → n.pending = true) := by
      intro hmem
      obtain ⟨n, hn, hkey⟩ := hfew.origin n' hmem
      rcases List.mem_append.1 hn with hn | hn
      · exact ⟨_, n, hn, hkey⟩
      · exact ⟨_, n, hn, hkey⟩
    cases p with
    | none => exact hmem (List.mem_append_left _ hn')
    | some u =>
      by_cases hut : u = t
      · exact hmem (List.mem_append_right _ (hut ▸ hn'))
      · rw [hother u hut] at hn'
        exact ⟨some u, n', hn', rfl, fun hp _ => hp⟩
  owned := howned
  mentioned := hmentioned

/-! ### Names -/

theorem name_of_mem_addTickets {rs : List (ℕ × TimerRequest)} (h : n ∈ addTickets o rs) :
    n.name = o ∧ n.task = none := by
  induction rs with
  | nil => cases h
  | cons p _ ih =>
    obtain ⟨x, r⟩ := p
    cases r with
    | add =>
      rcases List.mem_cons.1 h with rfl | h
      · exact ⟨rfl, rfl⟩
      · exact ih h
    | remove => exact ih h

/-- The names of the references that posted tasks come with. -/
def Owner.forTask : Owner → Bool
  | .posting _ | .task _ | .running _ _ => true
  | _ => false

/-- What the tickets of a frame may be called. -/
theorem name_of_mem_tickets {depth : ℕ} (h : n ∈ f.tickets t depth) :
    (n.name = .taken t .add ∨ n.name = .element t ∨ n.name = .posting t ∨
      n.name = .timerState t depth ∨ n.name = .running t depth) ∧
    Owner.forTask n.name = n.task.isSome := by
  cases f with
  | user | cancel | shutdown => cases h
  | makeTimer =>
    simp only [Frame.tickets] at h
    split_ifs at h
    · obtain rfl := List.mem_singleton.1 h
      simp [Owner.forTask]
    · cases h
  | task =>
    obtain rfl := List.mem_singleton.1 h
    simp [Owner.forTask]
  | workLoop pc =>
    rcases List.mem_append.1 h with h | h
    · cases pc with
      | process | erase | unmap | removed =>
        obtain ⟨hname, htask⟩ := name_of_mem_addTickets h
        rw [hname, htask]
        simp [Owner.forTask]
      | extracted | fired | unmapped | dying =>
        obtain rfl := List.mem_singleton.1 h
        simp [Owner.forTask]
      | post =>
        simp only [WorkLoopPc.tickets, List.mem_cons, List.not_mem_nil, or_false] at h
        rcases h with rfl | rfl <;> simp [Owner.forTask]
      | _ => cases h
    · obtain ⟨e, -, rfl⟩ := List.mem_map.1 h
      simp [Owner.forTask]

theorem name_of_mem_stack (h : n ∈ stackTickets t fs) :
    (n.name = .taken t .add ∨ n.name = .element t ∨ n.name = .posting t ∨
      ∃ d < fs.length, n.name = .timerState t d ∨ n.name = .running t d) ∧
    Owner.forTask n.name = n.task.isSome := by
  induction fs with
  | nil => cases h
  | cons _ rest ih =>
    rcases List.mem_append.1 h with h | h
    · obtain ⟨h | h | h | h, htask⟩ := name_of_mem_tickets h
      · exact ⟨.inl h, htask⟩
      · exact ⟨.inr (.inl h), htask⟩
      · exact ⟨.inr (.inr (.inl h)), htask⟩
      · exact ⟨.inr (.inr (.inr ⟨rest.length, Nat.lt_succ_self _, h⟩)), htask⟩
    · obtain ⟨h | h | h | ⟨d, hd, h⟩, htask⟩ := ih h
      · exact ⟨.inl h, htask⟩
      · exact ⟨.inr (.inl h), htask⟩
      · exact ⟨.inr (.inr (.inl h)), htask⟩
      · exact ⟨.inr (.inr (.inr ⟨d, Nat.lt_succ_of_lt hd, h⟩)), htask⟩

variable {queue : List (ℕ × TimerRequest)} {frames : TimerThread → List Frame}
variable {stored : List (ℕ × ℕ)}

theorem name_of_mem_queue (h : n ∈ ticketsAt frames queue stored none) :
    (n.name = .request .add ∨ ∃ k, n.name = .task k) ∧ Owner.forTask n.name = n.task.isSome := by
  rcases List.mem_append.1 h with h | h
  · obtain ⟨hname, htask⟩ := name_of_mem_addTickets h
    rw [hname, htask]
    exact ⟨.inl rfl, rfl⟩
  · obtain ⟨p, -, rfl⟩ := List.mem_map.1 h
    exact ⟨.inr ⟨p.2, rfl⟩, rfl⟩

variable {p : Option TimerThread}

theorem forTask_name (h : n ∈ ticketsAt frames queue stored p) :
    Owner.forTask n.name = n.task.isSome := by
  cases p with
  | none => exact (name_of_mem_queue h).2
  | some => exact (name_of_mem_stack h).2

/-- The references that no ticket comes with. -/
def Owner.spare : Owner → Bool
  | .newTimer _ _ | .handle | .state _ _ | .existingTimer _ | .mapped _ | .current _
  | .request .remove | .taken _ .remove => true
  | _ => false

theorem name_not_spare (h : n ∈ ticketsAt frames queue stored p) : Owner.spare n.name = false := by
  cases p with
  | none =>
    obtain ⟨h | ⟨k, h⟩, -⟩ := name_of_mem_queue h <;> rw [h] <;> rfl
  | some =>
    obtain ⟨h | h | h | ⟨d, -, h | h⟩, -⟩ := name_of_mem_stack h <;> rw [h] <;> rfl

/-- A variable of a frame dies with the frame. -/
theorem name_ne_of_depth (hrest : frames t = rest) (h : n ∈ ticketsAt frames queue stored p) :
    n.name ≠ .timerState t rest.length ∧ n.name ≠ .running t rest.length := by
  cases p with
  | none =>
    obtain ⟨h | ⟨k, h⟩, -⟩ := name_of_mem_queue h <;> rw [h] <;> simp
  | some =>
    obtain ⟨h | h | h | ⟨d, hd, h | h⟩, -⟩ := name_of_mem_stack h <;> rw [h]
    · simp
    · simp
    · simp
    · refine ⟨?_, by simp⟩
      rintro heq
      obtain ⟨rfl, rfl⟩ := Owner.timerState.inj heq
      rw [hrest] at hd
      exact lt_irrefl _ hd
    · refine ⟨by simp, ?_⟩
      rintro heq
      obtain ⟨rfl, rfl⟩ := Owner.running.inj heq
      rw [hrest] at hd
      exact lt_irrefl _ hd

/-! ### Stacks -/

/-- The tickets of the new stack are among those of the old one, with their names. -/
structure StackBelow (timers : ℕ → TimerState) (t : TimerThread) (fs' fs : List Frame) : Prop where
  keys : ((stackTickets t fs').map Ticket.key).Subperm ((stackTickets t fs).map Ticket.key)
  origin : ∀ n' ∈ stackTickets t fs', ∃ n ∈ stackTickets t fs, n.key = n'.key ∧ n.name = n'.name ∧
    (n'.pending = true → (timers n'.timer).isOneshot = true → n.pending = true)
  mentions : ∀ m ∈ stackMentions fs', m ∈ stackMentions fs

theorem StackBelow.fewer (h : StackBelow timers t fs' fs) :
    Fewer timers (stackTickets t fs') (stackTickets t fs) where
  keys := h.keys
  origin n' hn' := by
    obtain ⟨n, hn, hkey, -, hp⟩ := h.origin n' hn'
    exact ⟨n, hn, hkey, hp⟩

/-- The innermost frame changes. -/
theorem StackBelow.head
    (hkeys : ((g.tickets t rest.length).map Ticket.key).Subperm
      ((f.tickets t rest.length).map Ticket.key))
    (horigin : ∀ n' ∈ g.tickets t rest.length, ∃ n ∈ f.tickets t rest.length, n.key = n'.key ∧
      n.name = n'.name ∧
      (n'.pending = true → (timers n'.timer).isOneshot = true → n.pending = true))
    (hm : ∀ m ∈ g.mentions, m ∈ f.mentions) : StackBelow timers t (g :: rest) (f :: rest) where
  keys := by
    simp only [stackTickets, List.map_append]
    exact (List.subperm_append_right _).2 hkeys
  origin n' hn' := by
    rcases List.mem_append.1 hn' with hn' | hn'
    · obtain ⟨n, hn, hkey⟩ := horigin n' hn'
      exact ⟨n, List.mem_append_left _ hn, hkey⟩
    · exact ⟨n', List.mem_append_right _ hn', rfl, rfl, fun hp _ => hp⟩
  mentions m hmem := by
    rcases List.mem_append.1 hmem with hmem | hmem
    · exact List.mem_append_left _ (hm m hmem)
    · exact List.mem_append_right _ hmem

theorem StackBelow.sub (hsub : (g.tickets t rest.length).Subperm (f.tickets t rest.length))
    (hm : ∀ m ∈ g.mentions, m ∈ f.mentions) : StackBelow timers t (g :: rest) (f :: rest) :=
  .head (keys_subperm hsub) (fun n' hn' => ⟨n', hsub.subset hn', rfl, rfl, fun hp _ => hp⟩) hm

theorem StackBelow.same (hn : g.tickets t rest.length = f.tickets t rest.length)
    (hm : g.mentions = f.mentions) : StackBelow timers t (g :: rest) (f :: rest) :=
  .sub (hn ▸ .refl _) fun _ hmem => hm ▸ hmem

/-- The first ticket is not pending any more. -/
theorem StackBelow.flip {n' : Ticket} (hnew : stackTickets t fs' = n' :: l)
    (hold : stackTickets t fs = n :: l) (hkey : n.key = n'.key) (hname : n.name = n'.name)
    (hp : n'.pending = false) (hm : ∀ m ∈ stackMentions fs', m ∈ stackMentions fs) :
    StackBelow timers t fs' fs where
  keys := by
    rw [hnew, hold, List.map_cons, List.map_cons, hkey]
  origin m hmem := by
    rw [hnew] at hmem
    rw [hold]
    rcases List.mem_cons.1 hmem with rfl | hmem
    · exact ⟨n, List.mem_cons_self, hkey, hname, fun hpend => by rw [hp] at hpend; cases hpend⟩
    · exact ⟨m, List.mem_cons_of_mem _ hmem, rfl, rfl, fun hpend _ => hpend⟩
  mentions := hm

theorem StackBelow.pop : StackBelow timers t rest (f :: rest) where
  keys := by
    simp only [stackTickets, List.map_append]
    exact (List.sublist_append_right _ _).subperm
  origin n' hn' := ⟨n', List.mem_append_right _ hn', rfl, rfl, fun hp _ => hp⟩
  mentions m hmem := List.mem_append_right _ hmem

theorem StackBelow.of_eq (ht : stackTickets t fs' = stackTickets t fs)
    (hm : stackMentions fs' = stackMentions fs) : StackBelow timers t fs' fs where
  keys := ht ▸ .refl _
  origin n' hn' := ⟨n', ht ▸ hn', rfl, rfl, fun hp _ => hp⟩
  mentions _ hmem := hm ▸ hmem

theorem StackBelow.refl : StackBelow timers t fs fs := .of_eq rfl rfl

/-! ### States -/

structure DelayState (frames : TimerThread → List Frame) (queue : List (ℕ × TimerRequest))
    (stored : List (ℕ × ℕ)) (created : ℕ) (timers : ℕ → TimerState) (owners : ℕ → List Owner)
    (posts : ℕ → ℕ) (w : Suspensions) (workers : ℕ) (assertFailed : Bool) : Prop where
  ok : DelayOk (ticketsAt frames queue stored)
    (mentionsAt frames queue) created timers owners posts w
  fresh : ∀ n, workers ≤ n → frames (.worker n) = []
  assert : assertFailed = false

def DelayInv (s : TimerSystem) : Prop :=
  DelayState s.frames s.requestQueue s.stored s.created s.timers s.owners s.posts s.coroutines
    s.workers s.assertFailed

/-- The thread that takes a step has been started. -/
theorem DelayInv.fresh_update (h : s.DelayInv) (hf : s.frames t = f :: rest) :
    ∀ n, s.workers ≤ n → update s.frames t fs (.worker n) = [] := by
  intro n hn
  have hne : TimerThread.worker n ≠ t := by
    rintro rfl
    rw [h.fresh n hn] at hf
    cases hf
  rw [update_of_ne hne]
  exact h.fresh n hn

theorem ticketsAt_congr (h : stackTickets t fs = stackTickets t fs') :
    ticketsAt (update frames t fs) queue stored =
      ticketsAt (update frames t fs') queue stored := by
  funext p
  cases p with
  | none => rfl
  | some u =>
    by_cases hut : u = t
    · subst hut
      simpa only [ticketsAt, update_self] using h
    · simp only [ticketsAt, update_of_ne hut]

theorem mentionsAt_congr (h : stackMentions fs = stackMentions fs') :
    mentionsAt (update frames t fs) queue = mentionsAt (update frames t fs') queue := by
  funext p
  cases p with
  | none => rfl
  | some u =>
    by_cases hut : u = t
    · subst hut
      simpa only [mentionsAt, update_self] using h
    · simp only [mentionsAt, update_of_ne hut]

/-- Frames without tickets, such as those of user code, make no difference. -/
theorem DelayOk.reframe {created : ℕ} {owners : ℕ → List Owner} {posts : ℕ → ℕ} {w : Suspensions}
    (h : DelayOk (ticketsAt (update frames t fs) queue stored)
      (mentionsAt (update frames t fs) queue)
      created timers owners posts w) (ht : stackTickets t fs' = stackTickets t fs)
    (hm : stackMentions fs' = stackMentions fs) :
    DelayOk (ticketsAt (update frames t fs') queue stored) (mentionsAt (update frames t fs') queue)
      created timers owners posts w := by
  rw [ticketsAt_congr ht, mentionsAt_congr hm]
  exact h

/-- A thread that runs nothing begins with frames that have no tickets. -/
theorem DelayInv.begin (h : s.DelayInv) (hf : s.frames t = []) (ht : stackTickets t fs = [])
    (hm : stackMentions fs = []) :
    DelayOk (ticketsAt (update s.frames t fs) s.requestQueue s.stored)
      (mentionsAt (update s.frames t fs) s.requestQueue) s.created s.timers s.owners s.posts
      s.coroutines := by
  have hok := h.ok
  rw [← update_eq_self t s.frames, hf] at hok
  exact hok.reframe ht hm

/-- The mentions of the new stack are known, and those elsewhere are as before. -/
theorem DelayInv.mentioned (h : s.DelayInv)
    (hstack : ∀ m ∈ stackMentions fs, MentionOk s.created s.timers m)
    (hqueue : ∀ m ∈ removeMentions queue, MentionOk s.created s.timers m) :
    ∀ p, ∀ m ∈ mentionsAt (update s.frames t fs) queue p, MentionOk s.created s.timers m := by
  intro p m hm
  cases p with
  | none => exact hqueue m hm
  | some u =>
    by_cases hut : u = t
    · subst hut
      simp only [mentionsAt, update_self] at hm
      exact hstack m hm
    · simp only [mentionsAt, update_of_ne hut] at hm
      exact h.ok.mentioned (some u) m hm

/-- The tickets that a step of the thread may move: those of the queues, and its own. -/
def within (queue : List (ℕ × TimerRequest)) (stored : List (ℕ × ℕ)) (t : TimerThread)
    (fs : List Frame) : List Ticket :=
  addTickets (.request .add) queue ++ storedTickets stored ++ stackTickets t fs

variable {owners : ℕ → List Owner}

/-- The tickets of the thread move between its stack and the queues. -/
theorem DelayInv.relocated (h : s.DelayInv)
    (hfew :
      Fewer s.timers (within queue stored t fs) (within s.requestQueue s.stored t (s.frames t)))
    (howned : ∀ p, ∀ n ∈ ticketsAt (update s.frames t fs) queue stored p,
      (s.timers n.timer).isDelay = true → n.name ∈ owners n.timer)
    (hmentioned : ∀ p, ∀ m ∈ mentionsAt (update s.frames t fs) queue p,
      MentionOk s.created s.timers m) :
    Relocated (ticketsAt s.frames s.requestQueue s.stored)
      (ticketsAt (update s.frames t fs) queue stored)
      (mentionsAt (update s.frames t fs) queue) s.created s.timers owners := by
  refine relocated_of_fewer (t := t) h.ok.unique (fun u hut => ?_) ?_ howned hmentioned
  · simp only [ticketsAt, update_of_ne hut]
  · simp only [ticketsAt, update_self]
    exact hfew

theorem DelayInv.stackMentioned (h : s.DelayInv) (hf : s.frames t = fs) :
    ∀ m ∈ stackMentions fs, MentionOk s.created s.timers m := by
  subst hf
  exact h.ok.mentioned (some t)

theorem DelayInv.queueMentioned (h : s.DelayInv) :
    ∀ m ∈ removeMentions s.requestQueue, MentionOk s.created s.timers m :=
  h.ok.mentioned none

/-- The new stack mentions nothing new. -/
theorem DelayInv.stillMentioned (h : s.DelayInv) (hf : s.frames t = fs')
    (hm : ∀ m ∈ stackMentions fs, m ∈ stackMentions fs') :
    ∀ p, ∀ m ∈ mentionsAt (update s.frames t fs) s.requestQueue p, MentionOk s.created s.timers m :=
  h.mentioned (fun m hmem => h.stackMentioned hf m (hm m hmem)) h.queueMentioned

/-- The thread goes on with some of its tickets, and every name that is left keeps its reference. -/
theorem DelayInv.below (h : s.DelayInv) (hf : s.frames t = fs') (hb : StackBelow s.timers t fs fs')
    (hkeep : ∀ p, ∀ n ∈ ticketsAt (update s.frames t fs) s.requestQueue s.stored p,
      (s.timers n.timer).isDelay = true → n.name ∈ s.owners n.timer → n.name ∈ owners n.timer) :
    Relocated (ticketsAt s.frames s.requestQueue s.stored)
      (ticketsAt (update s.frames t fs) s.requestQueue s.stored)
      (mentionsAt (update s.frames t fs) s.requestQueue) s.created s.timers owners := by
  subst hf
  refine h.relocated (Fewer.refl.append hb.fewer) (fun p n hn hdelay => ?_)
    (h.stillMentioned rfl hb.mentions)
  refine hkeep p n hn hdelay ?_
  cases p with
  | none => exact h.ok.owned none n hn hdelay
  | some u =>
    by_cases hut : u = t
    · subst hut
      simp only [ticketsAt, update_self] at hn
      obtain ⟨n₀, hn₀, hkey, hname, -⟩ := hb.origin n hn
      have hx : n₀.timer = n.timer := congrArg Prod.fst hkey
      rw [← hx] at hdelay ⊢
      rw [← hname]
      exact h.ok.owned (some u) n₀ hn₀ hdelay
    · simp only [ticketsAt, update_of_ne hut] at hn
      exact h.ok.owned (some u) n hn hdelay

section

variable (h : s.DelayInv) (hf : s.frames t = f :: rest) (hb : StackBelow s.timers t fs (f :: rest))
include h hf hb

/-- The thread goes on, and the delay objects are as before. -/
theorem DelayInv.goto
    (howners : ∀ x, (s.timers x).isDelay = true → owners x = s.owners x)
    (hnew : ∀ x, s.created ≤ x → owners x = [])
    (hsame : ∀ x, (timers' x).isOneshot = (s.timers x).isOneshot ∧
      (timers' x).callable = (s.timers x).callable) :
    DelayState (update s.frames t fs) s.requestQueue s.stored s.created timers' owners s.posts
      s.coroutines s.workers s.assertFailed where
  ok := h.ok.calm
    (h.below hf hb fun _ _ _ hdelay hmem => (howners _ hdelay).symm ▸ hmem) hsame howners hnew
  fresh := h.fresh_update hf
  assert := h.assert

/-- The thread goes on, and nothing else changes that the delay objects depend on. -/
theorem DelayInv.next : (s.setFrames t fs).DelayInv :=
  h.goto hf hb (fun _ _ => rfl) h.ok.ownersNew fun _ => ⟨rfl, rfl⟩

/-- The thread goes on with a new reference. -/
theorem DelayInv.copy (hx : x < s.created) (ho : o ≠ .handle) :
    ((s.copy x o).setFrames t fs).DelayInv where
  ok := h.ok.reown hx (List.cons_ne_nil _ _)
    (fun hmem => (List.mem_cons.1 hmem).resolve_left ho.symm)
    (h.below hf hb fun _ _ _ _ hmem => mem_update_cons hmem) fun _ => ⟨rfl, rfl⟩
  fresh := h.fresh_update hf
  assert := h.assert

end

theorem mem_update_move {os : List Owner} (hos : ∀ o' ∈ s.owners x, o' ≠ o → o' ∈ os)
    (h : o' ∈ s.owners y) (hne : y = x → o' ≠ o) : o' ∈ update s.owners x os y := by
  by_cases hyx : y = x
  · subst hyx
    rw [update_self]
    exact hos o' h (hne rfl)
  · rwa [update_of_ne hyx]

/-- A reference dies that no ticket for a delay object comes with. -/
theorem DelayInv.drop (h : s.DelayInv) (hf : s.frames t = f :: rest)
    (hb : StackBelow s.timers t fs (f :: rest))
    (hkeep : ∀ p, ∀ n ∈ ticketsAt (update s.frames t fs) s.requestQueue s.stored p,
      (s.timers n.timer).isDelay = true → n.timer = x → n.name ≠ o) :
    (s.drop t x o fs).DelayInv := by
  have hr := h.below hf hb fun p n hn hdelay hmem =>
    mem_update_move (x := x) (fun _ ho hne => (List.mem_erase_of_ne hne).2 ho) hmem
      (hkeep p n hn hdelay)
  have hfresh : ∀ gs, ∀ n, s.workers ≤ n → update s.frames t gs (.worker n) = [] :=
    fun gs => h.fresh_update hf
  unfold TimerSystem.drop
  simp only
  split_ifs with he
  · unfold destroyTimer
    split
    next hbound =>
      have hdelay : (s.timers x).isDelay = false := by
        unfold TimerState.isDelay
        exact hbound ▸ rfl
      have hok := h.ok.erase hr fun hx => by rw [hdelay] at hx; cases hx
      exact ⟨hok.reframe rfl rfl, hfresh _, h.assert⟩
    next f' hfun => exact ⟨(h.ok.eraseLast hr he hfun).reframe rfl rfl, hfresh _, h.assert⟩
  · exact ⟨h.ok.erase hr fun _ => he, hfresh _, h.assert⟩

theorem DelayInv.dropSpare (h : s.DelayInv) (hf : s.frames t = f :: rest)
    (hb : StackBelow s.timers t fs (f :: rest)) (ho : Owner.spare o = true) :
    (s.drop t x o fs).DelayInv := by
  refine h.drop hf hb fun p n hn _ _ heq => ?_
  have := name_not_spare hn
  rw [heq, ho] at this
  cases this

end TimerSystem
end Concurrencpp
