import Concurrencpp.Timers.DelayStacks

/-!
# Every step keeps the tickets in order

* The steps that move a ticket: a timer is made, pushed, taken, added and fired; a task is stored,
  run and executed.
* One lemma for each function of the model then says that it keeps `DelayInv`.
-/

namespace Concurrencpp

open Placement
open Function (update update_self update_of_ne forall_update_iff)

namespace TimerSystem

variable {s s' : TimerSystem} {t u : TimerThread} {f g : Frame} {rest fs fs' : List Frame}
  {timers timers' : ℕ → TimerState} {l l' r : List Ticket} {n : Ticket} {x y k : ℕ} {o o' : Owner}

theorem addTickets_append {rs rs' : List (ℕ × TimerRequest)} :
    addTickets o (rs ++ rs') = addTickets o rs ++ addTickets o rs' := by
  induction rs with
  | nil => rfl
  | cons p _ ih =>
    obtain ⟨x, r⟩ := p
    cases r with
    | add => exact congrArg (List.cons _) ih
    | remove => exact ih

theorem removeMentions_append {rs rs' : List (ℕ × TimerRequest)} :
    removeMentions (rs ++ rs') = removeMentions rs ++ removeMentions rs' := by
  induction rs with
  | nil => rfl
  | cons p _ ih =>
    obtain ⟨x, r⟩ := p
    cases r with
    | add => exact ih
    | remove => exact congrArg (List.cons _) ih

variable {rs : List (ℕ × TimerRequest)}

theorem mem_addTickets_rename (h : n ∈ addTickets o rs) :
    ⟨n.timer, n.task, o', n.pending⟩ ∈ addTickets o' rs := by
  induction rs with
  | nil => cases h
  | cons p _ ih =>
    obtain ⟨x, r⟩ := p
    cases r with
    | add =>
      rcases List.mem_cons.1 h with rfl | h
      · exact List.mem_cons_self
      · exact List.mem_cons_of_mem _ (ih h)
    | remove => exact ih h

/-- Requests that change hands are the same tickets. -/
theorem addTickets_fewer : Fewer timers (addTickets o rs) (addTickets o' rs) := by
  induction rs with
  | nil => exact .refl
  | cons p _ ih =>
    obtain ⟨x, r⟩ := p
    cases r with
    | remove => exact ih
    | add =>
      have hone : Fewer timers [⟨x, none, o, true⟩] [⟨x, none, o', true⟩] := by
        refine ⟨.refl _, fun n hn => ⟨_, List.mem_singleton_self _, ?_, fun _ _ => rfl⟩⟩
        obtain rfl := List.mem_singleton.1 hn
        rfl
      exact hone.append ih

/-- One ticket changes its place and its name, or is not pending any more. -/
theorem fewer_of_perm {n' : Ticket} (hl' : l'.Perm (n' :: r)) (hl : l.Perm (n :: r))
    (hkey : n.key = n'.key) (hp : n'.pending = true → n.pending = true) : Fewer timers l' l := by
  have hone : Fewer timers [n'] [n] := by
    refine ⟨?_, fun m hm => ⟨n, List.mem_singleton_self _, ?_⟩⟩
    · rw [List.map_singleton, List.map_singleton, hkey]
    · obtain rfl := List.mem_singleton.1 hm
      exact ⟨hkey, fun hpend _ => hp hpend⟩
  exact (Fewer.of_subperm hl'.subperm).trans
    ((hone.append .refl).trans (.of_subperm hl.symm.subperm))

variable {queue : List (ℕ × TimerRequest)} {stored : List (ℕ × ℕ)}

theorem mem_ticketsAt_update {frames : TimerThread → List Frame} {p : Option TimerThread}
    (h : n ∈ ticketsAt (update frames t fs) queue stored p) :
    n ∈ within queue stored t fs ∨ ∃ u, u ≠ t ∧ n ∈ stackTickets u (frames u) := by
  cases p with
  | none => exact .inl (List.mem_append_left _ h)
  | some u =>
    by_cases hut : u = t
    · subst hut
      simp only [ticketsAt, update_self] at h
      exact .inl (List.mem_append_right _ h)
    · simp only [ticketsAt, update_of_ne hut] at h
      exact .inr ⟨u, hut, h⟩

section Elsewhere

variable {m : Ticket}

/-- Where the other tickets are when the thread and the queues have the tickets `n :: l`. -/
def Elsewhere (s : TimerSystem) (t : TimerThread) (l : List Ticket) (m : Ticket) : Prop :=
  m ∈ l ∨ ∃ u, u ≠ t ∧ m ∈ stackTickets u (s.frames u)

theorem mem_within (hm : m ∈ within s.requestQueue s.stored t (s.frames t)) :
    ∃ p, (p = none ∨ p = some t) ∧ m ∈ ticketsAt s.frames s.requestQueue s.stored p := by
  rcases List.mem_append.1 hm with hm | hm
  · exact ⟨none, .inl rfl, hm⟩
  · exact ⟨some t, .inr rfl, hm⟩

variable (hl : (within s.requestQueue s.stored t (s.frames t)).Perm (n :: l))
include hl

theorem mem_of_elsewhere (hm : s.Elsewhere t l m) :
    ∃ p, m ∈ ticketsAt s.frames s.requestQueue s.stored p := by
  rcases hm with hm | ⟨u, -, hm⟩
  · obtain ⟨p, -, hp⟩ := mem_within (hl.mem_iff.2 (List.mem_cons_of_mem _ hm))
    exact ⟨p, hp⟩
  · exact ⟨some u, hm⟩

theorem DelayInv.owned_elsewhere (h : s.DelayInv) (hm : s.Elsewhere t l m)
    (hdelay : (s.timers m.timer).isDelay = true) : m.name ∈ s.owners m.timer := by
  obtain ⟨p, hp⟩ := mem_of_elsewhere hl hm
  exact h.ok.owned p m hp hdelay

theorem DelayInv.key_ne_elsewhere (h : s.DelayInv) (hm : s.Elsewhere t l m) : m.key ≠ n.key := by
  intro heq
  rcases hm with hm | ⟨u, hut, hm⟩
  · have hps : [none, some t].Nodup := by simp
    have hnd := h.ok.unique.nodup_flatMap hps
    have hnd : ((within s.requestQueue s.stored t (s.frames t)).map Ticket.key).Nodup := by
      simpa [within, ticketsAt] using hnd
    have hnd := ((hl.map Ticket.key).nodup_iff).1 hnd
    exact (List.nodup_cons.1 hnd).1 (heq ▸ List.mem_map_of_mem hm)
  · obtain ⟨p, hpt, hp⟩ := mem_within (hl.mem_iff.2 (List.mem_cons_self))
    have hup : some u = p := by
      refine h.ok.unique.unique (i := n.key) ?_ (List.mem_map_of_mem hp)
      exact heq ▸ List.mem_map_of_mem (f := Ticket.key)
        (show m ∈ ticketsAt s.frames s.requestQueue s.stored (some u) from hm)
    subst hup
    rcases hpt with hpt | hpt
    · cases hpt
    · exact hut (Option.some.inj hpt)

/-- A delay object has at most one ticket of each kind. -/
theorem DelayInv.kind_ne_elsewhere (h : s.DelayInv) (hm : s.Elsewhere t l m)
    (hdelay : (s.timers m.timer).isDelay = true) (hx : m.timer = n.timer) :
    m.task.isSome ≠ n.task.isSome := by
  intro heq
  obtain ⟨p, hp⟩ := mem_of_elsewhere hl hm
  obtain ⟨q, -, hq⟩ := mem_within (hl.mem_iff.2 (List.mem_cons_self))
  apply h.key_ne_elsewhere hl hm
  cases htask : n.task with
  | none =>
    rw [htask] at heq
    have hmtask : m.task = none := by simpa using heq
    unfold Ticket.key
    rw [hx, htask, hmtask]
  | some k =>
    rw [htask] at heq
    refine h.ok.task_eq hp hq hx hdelay (Option.ne_none_iff_isSome.2 heq) ?_
    rw [htask]
    exact Option.some_ne_none k

theorem DelayInv.name_ne_elsewhere (h : s.DelayInv) (hm : s.Elsewhere t l m)
    (hdelay : (s.timers m.timer).isDelay = true) (hx : m.timer = n.timer) : m.name ≠ n.name := by
  intro heq
  obtain ⟨p, hp⟩ := mem_of_elsewhere hl hm
  obtain ⟨q, -, hq⟩ := mem_within (hl.mem_iff.2 (List.mem_cons_self))
  apply h.kind_ne_elsewhere hl hm hdelay hx
  rw [← forTask_name hp, ← forTask_name hq, heq]

/-- One ticket changes its place and its name, and the references of the others stay. -/
theorem DelayInv.moved (h : s.DelayInv) {n' : Ticket} {os : List Owner}
    (hl' : (within queue stored t fs).Perm (n' :: l)) (hkey : n.key = n'.key)
    (hp : n'.pending = true → n.pending = true) (hn' : n'.name ∈ os)
    (hkeep : ∀ o ∈ s.owners n.timer, o ≠ n.name → o ∈ os)
    (hhandle : .handle ∈ os → .handle ∈ s.owners n.timer)
    (hmentioned : ∀ p, ∀ m ∈ mentionsAt (update s.frames t fs) queue p,
      MentionOk s.created s.timers m) :
    DelayOk (ticketsAt (update s.frames t fs) queue stored)
      (mentionsAt (update s.frames t fs) queue) s.created s.timers (update s.owners n.timer os)
      s.posts s.coroutines := by
  obtain ⟨p, -, hn⟩ := mem_within (hl.mem_iff.2 List.mem_cons_self)
  refine h.ok.reown (h.ok.old p n hn) (List.ne_nil_of_mem hn') hhandle
    (h.relocated (fewer_of_perm hl' hl hkey hp) (fun p m hm hdelay => ?_) hmentioned)
    fun _ => ⟨rfl, rfl⟩
  have hm : m = n' ∨ s.Elsewhere t l m := by
    rcases mem_ticketsAt_update hm with hm | hm
    · exact (List.mem_cons.1 (hl'.mem_iff.1 hm)).imp_right .inl
    · exact .inr (.inr hm)
  rcases hm with rfl | hm
  · rw [show m.timer = n.timer from congrArg Prod.fst hkey.symm, update_self]
    exact hn'
  · exact mem_update_move hkeep (h.owned_elsewhere hl hm hdelay) (h.name_ne_elsewhere hl hm hdelay)

end Elsewhere

theorem issued_of_push {frames frames' : TimerThread → List Frame}
    (ht : stackTickets t (frames' t) = n :: stackTickets t (frames t))
    (hother : ∀ u, u ≠ t → frames' u = frames u) :
    Issued (ticketsAt frames queue stored) (ticketsAt frames' queue stored) (some t) n where
  here := ht
  elsewhere p hp := by
    cases p with
    | none => rfl
    | some u => exact congrArg (stackTickets u) (hother u fun hut => hp (hut ▸ rfl))

/-! ### The steps that move a ticket -/

theorem within_cons (h : stackTickets t fs = n :: l) : (within queue stored t fs).Perm
      (n :: (addTickets (.request .add) queue ++ storedTickets stored ++ l)) := by
  unfold within
  rw [h]
  exact List.perm_middle

theorem mem_of_head (hstack : stackTickets t (s.frames t) = n :: l) :
    n ∈ ticketsAt s.frames s.requestQueue s.stored (some t) := by
  change n ∈ stackTickets t (s.frames t)
  rw [hstack]
  exact List.mem_cons_self

theorem DelayInv.old_of_head (h : s.DelayInv) (hstack : stackTickets t (s.frames t) = n :: l) :
    n.timer < s.created :=
  h.ok.old _ _ (mem_of_head hstack)

theorem mem_cons_erase {os : List Owner} : ∀ o₁ ∈ os, o₁ ≠ o → o₁ ∈ o' :: os.erase o :=
  fun _ ho₁ hne => List.mem_cons_of_mem _ ((List.mem_erase_of_ne hne).2 ho₁)

theorem handle_of_mem_move {os : List Owner} (ho : o' ≠ .handle) (h : .handle ∈ o' :: os.erase o) :
    .handle ∈ os :=
  List.mem_of_mem_erase ((List.mem_cons.1 h).resolve_left ho.symm)

/-- `add_internal_timer`: the timer goes into the request queue. -/
theorem DelayInv.pushAdd {old : Option ℕ} (h : s.DelayInv)
    (hf : s.frames t = .makeTimer x (.addInternalTimer old) :: rest) :
    (((s.copy x (.request .add)).pushRequest x .add).setFrames t
      (.makeTimer x (.join old) :: rest)).DelayInv := by
  have hstack : stackTickets t (s.frames t) = ⟨x, none, .timerState t rest.length, true⟩ ::
      stackTickets t rest := by
    rw [hf]
    rfl
  have hpush :
      (within (s.requestQueue ++ [(x, .add)]) s.stored t (.makeTimer x (.join old) :: rest)).Perm
      (⟨x, none, .request .add, true⟩ :: (addTickets (.request .add) s.requestQueue ++
        storedTickets s.stored ++ stackTickets t rest)) := by
    unfold within
    rw [addTickets_append, List.append_assoc, List.append_assoc, List.append_assoc]
    exact List.perm_middle
  refine ⟨h.moved (within_cons hstack) hpush rfl id List.mem_cons_self
    (fun _ ho _ => List.mem_cons_of_mem _ ho)
    (fun hmem => (List.mem_cons.1 hmem).resolve_left (by simp))
    (h.mentioned (fun m hm => h.stackMentioned hf m hm) fun m hm => ?_), h.fresh_update hf,
    h.assert⟩
  have hm : m ∈ removeMentions (s.requestQueue ++ [(x, .add)]) := hm
  rw [removeMentions_append] at hm
  exact h.queueMentioned m ((List.mem_append.1 hm).resolve_right List.not_mem_nil)

theorem take_name {fs : List Frame} (h : n ∈ stackTickets u fs) : Owner.take t n.name = n.name := by
  obtain ⟨hname | hname | hname | ⟨d, -, hname | hname⟩, -⟩ := name_of_mem_stack h <;>
    rw [hname] <;> rfl

variable {q : TimerQueueInternal}

/-- `std::move(m_request_queue)`. -/
theorem DelayInv.take {deadline : ℕ} (h : s.DelayInv)
    (hf : s.frames t = .workLoop .woken q deadline :: rest) :
    ((s.takeRequests t).setFrames t
      (workLoopFrame q deadline rest (.process s.requestQueue))).DelayInv := by
  have hold : stackTickets t (s.frames t) = q.elements t ++ stackTickets t rest := by
    rw [hf]
    rfl
  have hnew : stackTickets t (workLoopFrame q deadline rest (.process s.requestQueue)) =
      addTickets (.taken t .add) s.requestQueue ++ stackTickets t (s.frames t) := by
    rw [hold]
    exact List.append_assoc ..
  have hkeep : ∀ {n : Ticket}, Owner.take t n.name = n.name → n.name ∈ s.owners n.timer →
      n.name ∈ (s.owners n.timer).map (Owner.take t) :=
    fun hname hmem => List.mem_map.2 ⟨_, hmem, hname⟩
  refine ⟨h.ok.change (h.relocated ?_ (fun p n hn hdelay => ?_)
      (h.mentioned (fun m hm => ?_) fun m hm => ?_))
    (h.ok.functors (fun _ => ⟨rfl, rfl⟩) fun x _ hne => ?_) (fun x _ hmem => ?_) fun x hx => ?_,
    h.fresh_update hf, h.assert⟩
  · -- the tickets of the request queue are on the stack now
    unfold within
    rw [hnew]
    have hperm : (addTickets (.request .add) s.requestQueue ++ storedTickets s.stored ++
        stackTickets t (s.frames t)).Perm (storedTickets s.stored ++
          (addTickets (.request .add) s.requestQueue ++ stackTickets t (s.frames t))) := by
      rw [← List.append_assoc]
      exact .append_right _ List.perm_append_comm
    exact Fewer.trans (Fewer.refl.append (addTickets_fewer.append .refl))
      (.of_subperm hperm.symm.subperm)
  · rcases mem_ticketsAt_update hn with hn | ⟨u, hut, hn⟩
    · rcases List.mem_append.1 hn with hn | hn
      · have hmem := h.ok.owned none n (List.mem_append_right _ hn) hdelay
        obtain ⟨e, -, rfl⟩ := List.mem_map.1 hn
        exact hkeep rfl hmem
      · rw [hnew] at hn
        rcases List.mem_append.1 hn with hn | hn
        · have hreq : ⟨n.timer, n.task, .request .add, n.pending⟩ ∈
              addTickets (.request .add) s.requestQueue := mem_addTickets_rename hn
          have hmem := h.ok.owned none _ (List.mem_append_left _ hreq) hdelay
          rw [(name_of_mem_addTickets hn).1]
          exact List.mem_map.2 ⟨_, hmem, rfl⟩
        · exact hkeep (take_name hn) (h.ok.owned (some t) n hn hdelay)
    · exact hkeep (take_name hn) (h.ok.owned (some u) n hn hdelay)
  · rcases List.mem_append.1 hm with hm | hm
    · exact h.queueMentioned m hm
    · exact h.stackMentioned hf m (List.mem_append_right _ hm)
  · cases hm
  · simpa [takeRequests, setFrames] using hne
  · obtain ⟨o, ho, heq⟩ := List.mem_map.1 hmem
    cases o <;> first | exact ho | cases heq
  · simp [takeRequests, setFrames, h.ok.ownersNew x hx]

theorem insert_elements {deadline : ℕ → ℕ} {node : ℕ × ℕ} {ts : List (ℕ × ℕ)} :
    ((TimerQueueInternal.insert deadline node ts).map fun e =>
      (⟨e.2, none, .element t, true⟩ : Ticket)).Perm
      (⟨node.2, none, .element t, true⟩ :: ts.map fun e => ⟨e.2, none, .element t, true⟩) :=
  (List.perm_orderedInsert _ node ts).map _

/-- `add_timer_internal`. -/
theorem DelayInv.addTimer {deadline : ℕ} (h : s.DelayInv)
    (hf : s.frames t = .workLoop (.process ((x, .add) :: rs)) q deadline :: rest) :
    ((s.setOwners x (.element t :: .mapped t :: (s.owners x).erase (.taken t .add))).setFrames t
      (workLoopFrame (q.addTimerInternal s.deadlines x) deadline rest (.process rs))).DelayInv := by
  have hstack : stackTickets t (s.frames t) = ⟨x, none, .taken t .add, true⟩ ::
      (addTickets (.taken t .add) rs ++ (q.elements t ++ stackTickets t rest)) := by
    rw [hf]
    exact congrArg (List.cons _) (List.append_assoc ..)
  have hadd : (within s.requestQueue s.stored t
        (workLoopFrame (q.addTimerInternal s.deadlines x) deadline rest (.process rs))).Perm
      (⟨x, none, .element t, true⟩ :: (addTickets (.request .add) s.requestQueue ++
        storedTickets s.stored ++
          (addTickets (.taken t .add) rs ++ (q.elements t ++ stackTickets t rest)))) := by
    refine .trans (.append_left _ ?_) List.perm_middle
    refine .trans ?_ List.perm_middle
    refine (List.Perm.of_eq (List.append_assoc ..)).trans (.append_left _ ?_)
    exact .append_right _ insert_elements
  refine ⟨h.moved (within_cons hstack) hadd rfl id List.mem_cons_self
    (fun o ho hne => List.mem_cons_of_mem _ (mem_cons_erase o ho hne)) (fun hmem => ?_)
    (h.stillMentioned hf fun _ hm => hm), h.fresh_update hf, h.assert⟩
  exact handle_of_mem_move (by simp) ((List.mem_cons.1 hmem).resolve_left (by simp))

/-- A timer is changed that stays of its kind. -/
theorem sameKind (s : TimerSystem) (x : ℕ) (timer : TimerState)
    (hone : timer.isOneshot = (s.timers x).isOneshot)
    (hcall : timer.callable = (s.timers x).callable) :
    ∀ y, (update s.timers x timer y).isOneshot = (s.timers y).isOneshot ∧
      (update s.timers x timer y).callable = (s.timers y).callable :=
  (forall_update_iff s.timers fun y z => z.isOneshot = (s.timers y).isOneshot ∧
    z.callable = (s.timers y).callable).2 ⟨⟨hone, hcall⟩, fun _ _ => ⟨rfl, rfl⟩⟩

variable {deadline now node : ℕ}

/-- `fire`: the timer has been fired, and its task is posted. -/
theorem DelayInv.fire (h : s.DelayInv)
    (hf : s.frames t = .workLoop (.extracted now node x) q deadline :: rest) :
    DelayInv { ((s.setTimer x ((s.timers x).rearm s.now)).copy x (.posting t)).setFrames t
        (workLoopFrame q deadline rest (.post now node x (s.posts x))) with
      posts := update s.posts x (s.posts x + 1) } := by
  have hstack : stackTickets t (s.frames t) = ⟨x, none, .element t, true⟩ ::
      (q.elements t ++ stackTickets t rest) := by
    rw [hf]
    rfl
  have hmem := mem_of_head hstack
  have hsame := s.sameKind x ((s.timers x).rearm s.now) rfl rfl
  -- the ticket of the timer is not pending any more
  have hflip : StackBelow s.timers t (workLoopFrame q deadline rest (.fired now node x false))
      (.workLoop (.extracted now node x) q deadline :: rest) :=
    .flip (n := ⟨x, none, .element t, true⟩) rfl rfl rfl rfl rfl fun m hm => hm
  have hfired := h.goto hf hflip (fun _ _ => rfl) h.ok.ownersNew hsame
  have hmentions : mentionsAt (update s.frames t
        (workLoopFrame q deadline rest (.post now node x (s.posts x)))) s.requestQueue =
      mentionsAt (update s.frames t (workLoopFrame q deadline rest (.fired now node x false)))
        s.requestQueue := mentionsAt_congr rfl
  have hissue : Issued
      (ticketsAt (update s.frames t (workLoopFrame q deadline rest (.fired now node x false)))
        s.requestQueue s.stored)
      (ticketsAt (update s.frames t
        (workLoopFrame q deadline rest (.post now node x (s.posts x)))) s.requestQueue s.stored)
      (some t) ⟨x, some (s.posts x), .posting t, true⟩ :=
    issued_of_push (by simp only [update_self]; rfl) fun u hut => by
      rw [update_of_ne hut, update_of_ne hut]
  have hok := hfired.ok.post (h.ok.old _ _ hmem) hissue ?_ ?_ ?_ (by simp)
  · refine ⟨?_, h.fresh_update hf, h.assert⟩
    rw [← hmentions] at hok
    exact hok
  · intro p n hn hx htask
    rcases mem_ticketsAt_update hn with hn | hn
    · rcases List.mem_cons.1 ((within_cons (n := ⟨x, none, .element t, false⟩) rfl).mem_iff.1 hn)
        with rfl | hn
      · rfl
      · refine absurd ?_ (h.key_ne_elsewhere (within_cons hstack) (.inl hn))
        unfold Ticket.key
        rw [hx, htask]
    · refine absurd ?_ (h.key_ne_elsewhere (within_cons hstack) (.inr hn))
      unfold Ticket.key
      rw [hx, htask]
  · intro hone
    rw [(hsame x).1] at hone
    exact h.ok.first _ _ hmem rfl rfl hone
  · intro f hfun
    rw [(hsame x).2] at hfun
    exact h.ok.armed _ _ hmem rfl f hfun

/-! ### Posted tasks -/

theorem stackTickets_post (hf : s.frames t = .workLoop (.post now node x k) q deadline :: rest) :
    stackTickets t (s.frames t) = ⟨x, some k, .posting t, true⟩ ::
      ⟨x, none, .element t, false⟩ :: (q.elements t ++ stackTickets t rest) := by
  rw [hf]
  rfl

/-- The executor stores the task. -/
theorem DelayInv.store (h : s.DelayInv)
    (hf : s.frames t = .workLoop (.post now node x k) q deadline :: rest) :
    DelayInv { (s.move x (.posting t) (.task k)).setFrames t
        (workLoopFrame q deadline rest (.fired now node x false)) with
      stored := (x, k) :: s.stored } := by
  have hstore : (within s.requestQueue ((x, k) :: s.stored) t
        (workLoopFrame q deadline rest (.fired now node x false))).Perm
      (⟨x, some k, .task k, true⟩ :: (addTickets (.request .add) s.requestQueue ++
        storedTickets s.stored ++
          ⟨x, none, .element t, false⟩ :: (q.elements t ++ stackTickets t rest))) := by
    unfold within
    rw [List.append_assoc, List.append_assoc]
    exact List.perm_middle
  exact ⟨h.moved
    (within_cons (stackTickets_post hf)) hstore rfl id List.mem_cons_self mem_cons_erase
    (handle_of_mem_move (by simp)) (h.stillMentioned hf fun _ hm => hm), h.fresh_update hf,
    h.assert⟩

/-- The executor runs the task inside `post`. -/
theorem DelayInv.inline (h : s.DelayInv)
    (hf : s.frames t = .workLoop (.post now node x k) q deadline :: rest)
    (hfs : fs = workLoopFrame q deadline rest (.fired now node x false)) :
    ((s.move x (.posting t) (.running t fs.length)).setFrames t
      (.task x k .execute :: fs)).DelayInv := by
  subst hfs
  exact ⟨h.moved (within_cons (stackTickets_post hf)) (within_cons rfl) rfl id List.mem_cons_self
    mem_cons_erase (handle_of_mem_move (by simp))
    (h.stillMentioned hf fun _ hm => hm), h.fresh_update hf, h.assert⟩

theorem storedTickets_erase (hmem : (x, k) ∈ s.stored) :
    (storedTickets s.stored).Perm
      (⟨x, some k, .task k, true⟩ :: storedTickets (s.stored.erase (x, k))) :=
  (List.perm_cons_erase hmem).map _

/-- A stored task is taken to be run or to be destroyed. -/
theorem DelayInv.takeTask {pc : TimerTaskPc} (h : s.DelayInv) (hs : s.takeTask t x k pc = some s') :
    s'.DelayInv := by
  unfold TimerSystem.takeTask at hs
  split_ifs at hs with hhost
  cases hs
  obtain ⟨hhosts, hmem⟩ := hhost
  have hold : (within s.requestQueue s.stored t (s.frames t)).Perm
      (⟨x, some k, .task k, true⟩ :: (addTickets (.request .add) s.requestQueue ++
        storedTickets (s.stored.erase (x, k)) ++ stackTickets t (s.frames t))) := by
    refine .trans ?_ (List.Perm.append_right _ List.perm_middle)
    exact .append_right _ (.append_left _ (storedTickets_erase hmem))
  refine ⟨h.moved hold (within_cons rfl) rfl (fun _ => rfl) List.mem_cons_self mem_cons_erase
    (handle_of_mem_move (by simp)) (h.stillMentioned rfl fun _ hm => hm), fun n hn => ?_, h.assert⟩
  -- a thread that has not been started hosts nothing
  have hne : TimerThread.worker n ≠ t := by
    rintro rfl
    unfold hosts at hhosts
    rw [h.fresh n hn] at hhosts
    cases hhosts
  exact (update_of_ne hne ..).trans (h.fresh n hn)

/-- `execute`: the callable is invoked. -/
theorem DelayInv.execute (h : s.DelayInv) (hf : s.frames t = .task x k .execute :: rest) :
    ((s.invokeCallable x).setFrames t (.user :: .task x k .destroy :: rest)).DelayInv := by
  have hstack : stackTickets t (s.frames t) = ⟨x, some k, .running t rest.length, true⟩ ::
      stackTickets t rest := by
    rw [hf]
    rfl
  have hb : StackBelow s.timers t (.user :: .task x k .destroy :: rest)
      (.task x k .execute :: rest) :=
    .flip (n := ⟨x, some k, .running t rest.length, true⟩) rfl rfl rfl rfl rfl fun m hm => hm
  unfold invokeCallable
  split
  next hbound => exact h.next hf hb
  next f hfun =>
    have hmem := mem_of_head hstack
    have hdelay := isDelay_of_functor hfun
    have harmed : f.interrupted = some x := h.ok.armed _ _ hmem rfl f hfun
    have hpend : s.coroutines.Pending x := by
      rcases h.ok.functor x f hfun with ⟨-, hpend, -⟩ | ⟨hdis, -⟩
      · exact hpend
      · rw [harmed] at hdis
        cases hdis
    obtain ⟨w', hcall, hset, hsame⟩ := Suspensions.call_of_armed harmed hpend
    rw [hcall]
    refine ⟨h.ok.change (h.below hf hb fun _ _ _ _ hmem => hmem)
      (h.ok.settle hfun hset hsame (fun _ _ => rfl) fun p n hn hpending hx => ?_)
      (fun _ _ hmem => hmem) h.ok.ownersNew, h.fresh_update hf, h.assert⟩
    -- no other ticket of the timer is pending
    have hn : s.Elsewhere t (addTickets (.request .add) s.requestQueue ++ storedTickets s.stored ++
        stackTickets t rest) n := by
      rcases mem_ticketsAt_update hn with hn | hn
      · rcases List.mem_cons.1 ((within_cons (n := ⟨x, some k, .running t rest.length, false⟩)
          rfl).mem_iff.1 hn) with rfl | hn
        · cases hpending
        · exact .inl hn
      · exact .inr hn
    have hkind := h.kind_ne_elsewhere (within_cons hstack) hn (hx ▸ hdelay) hx
    have htask : n.task = none := by simpa using hkind
    obtain ⟨p, hp⟩ := mem_of_elsewhere (within_cons hstack) hn
    have hzero := h.ok.first p n hp htask hpending (h.ok.oneshot _ (hx ▸ hdelay))
    have hlt := h.ok.posted _ _ hmem k rfl
    rw [hx] at hzero
    exact absurd (hzero ▸ hlt) (Nat.not_lt_zero k)

end TimerSystem
end Concurrencpp
