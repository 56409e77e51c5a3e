import Concurrencpp.Timers.TimerContainers

/-!
# When timers are posted

`fire` reads the clock and the frequency, computes the next deadline, and then posts the timer.  A
deadline is computed only while the timer is out of the multiset.

* `NotBefore`: the timer is not posted before a given time.
* `MapOk`: a one-shot timer that has been posted leaves the map in the same iteration.
* `timers_never_post_early`: no post before the due time, none within the frequency of the last
  clock reading, and one for a one-shot timer.
* `posts_within_frequency`: since the clock is read before the post, two posts may be closer to each
  other.
-/

namespace Concurrencpp

open Interleaving
open Function (update update_self update_of_ne)

/-- The worker is posting the timer, or has just posted it. -/
def WorkLoopPc.fires (x : ℕ) : WorkLoopPc → Bool
  | .post _ _ y _ | .fired _ _ y _ => y = x
  | _ => false

/-- The due time of the timer that the call makes. -/
def TimerCall.dueTime : TimerCall → Option ℕ
  | .makeTimer true dueTime _ | .makeOneShotTimer true dueTime | .makeDelayObject true dueTime =>
      some dueTime
  | _ => none

namespace TimerMachine

variable {v v' : TimerMachine} {pc pc' : WorkLoopPc} {q q' : TimerQueueInternal} {x : ℕ}

/-! ### Deadlines -/

/-- The deadline of a timer changes only when it is fired. -/
theorem Step.deadlines (hs : Step v v') (hx : x ≠ v.created) :
    v'.deadlines x = v.deadlines x ∨ ∃ now node q, v.Loop (.extracted now node x) q ∧
      v'.deadlines x = v.now + (v.schedule x).frequency := by
  have hupdate : ∀ {y : ℕ} {c : Schedule}, (x = y → c.deadline = (v.schedule x).deadline) →
      (update v.schedule y c x).deadline = (v.schedule x).deadline := by
    intro y c hc
    by_cases hxy : x = y
    · subst hxy
      rw [update_self]
      exact hc rfl
    · rw [update_of_ne hxy]
  cases hs with
  | make => exact .inl (hupdate fun heq => (hx heq).elim)
  | setFrequency | flag => exact .inl (hupdate fun heq => heq ▸ rfl)
  | @fire _ now node y q deadline _ hf =>
    by_cases hxy : x = y
    · subst hxy
      refine .inr ⟨now, node, q, loop_of_head hf, ?_⟩
      change (update v.schedule x _ x).deadline = _
      rw [update_self]
    · exact .inl (hupdate fun heq => (hxy heq).elim)
  | _ => exact .inl rfl

/-- Neither the deadline of the timer nor a post with at least the number `k` is before the time
`c`. -/
structure NotBefore (v : TimerMachine) (x k c : ℕ) : Prop where
  old : x < v.created
  deadline : c ≤ v.deadlines x
  post : ∀ now node k' q, v.Loop (.post now node x k') q → k ≤ k' → c ≤ v.now

theorem NotBefore.step {k c : ℕ} (h : v.NotBefore x k c) (hs : Step v v') (hsingle : v.SingleLoop)
    (hok : ∀ pc q, v.Loop pc q → v.WorkerOk pc q) : v'.NotBefore x k c := by
  -- a timer that is fired is due
  have hdue : ∀ {now node q}, v.Loop (.extracted now node x) q → c ≤ v.now := fun hl =>
    h.deadline.trans (((hok _ _ hl).pass.due _ _ _ rfl).trans ((hok _ _ hl).pass.time _ rfl))
  constructor
  case old => exact h.old.trans_le hs.created_le
  case deadline =>
    rcases hs.deadlines (ne_of_lt h.old) with heq | ⟨now, node, q, hl, heq⟩
    · exact heq ▸ h.deadline
    · exact heq ▸ (hdue hl).trans (Nat.le_add_right _ _)
  case post =>
    intro now node k' q hl hk
    cases hs.loop hsingle hl with
    | same hl => exact (h.post now node k' q hl hk).trans hs.now_le
    | start hpc => cases hpc
    | step hl hstep =>
      cases hstep with
      | wait _ hwaits => cases hwaits
      | work hw => cases hw
      | fire => exact (hdue hl).trans hs.now_le

/-! ### One-shot timers -/

/-- A one-shot timer that is in the map has not been posted, or it is just being posted. -/
def MapOk (v : TimerMachine) (pc : WorkLoopPc) (q : TimerQueueInternal) : Prop :=
  ∀ x ∈ q.iteratorMapper.map Prod.fst, x < v.created ∧
    ((v.schedule x).isOneshot = true → v.posts x = 0 ∨ pc.fires x = true)

theorem MapOk.sub (h : v.MapOk pc q) (hm : q'.iteratorMapper.Sublist q.iteratorMapper)
    (hpc : ∀ x ∈ q'.iteratorMapper.map Prod.fst, (v.schedule x).isOneshot = true →
      pc.fires x = true → pc'.fires x = true) :
    v.MapOk pc' q' := by
  intro x hx
  obtain ⟨hold, hone⟩ := h x ((hm.map _).subset hx)
  exact ⟨hold, fun h1 => (hone h1).imp_right (hpc x hx h1)⟩

/-- The timers that the worker adds have not been posted. -/
def AddsNew (v : TimerMachine) (pc : WorkLoopPc) : Prop :=
  ∀ x rs, pc = .process ((x, .add) :: rs) →
    x < v.created ∧ ((v.schedule x).isOneshot = true → v.posts x = 0)

theorem WorkStep.mapOk (hw : WorkStep v pc q pc' q') (h : v.MapOk pc q) (hadd : v.AddsNew pc)
    (hok : ContainersOk v.deadlines pc q) : v.MapOk pc' q' := by
  -- the steps that keep the map, while no timer is posted
  have hsame : (∀ x, pc.fires x = false) → v.MapOk pc' q := fun hpc =>
    h.sub (.refl _) fun x _ _ hf => by cases (hpc x).symm.trans hf
  cases hw with
  | add y rs =>
    intro x hx
    rcases List.mem_cons.1 hx with heq | hx
    · obtain rfl : x = y := heq
      exact ⟨(hadd x rs rfl).1, fun hone => .inl ((hadd x rs rfl).2 hone)⟩
    · exact h x hx
  | erase y _ q =>
    refine h.sub ?_ fun x _ _ hf => hf
    cases q.find y <;> exact .refl _
  | unmap => exact h.sub List.filter_sublist fun x _ _ hf => hf
  | posted => exact h.sub (.refl _) fun x _ _ hf => hf
  | unmapFired =>
    -- the timer has left the map
    refine h.sub List.filter_sublist fun x hx _ hf => ?_
    obtain ⟨e, he, rfl⟩ := List.mem_map.1 hx
    exact (of_decide_eq_true (List.mem_filter.1 he).2 (of_decide_eq_true hf).symm).elim
  | @reinsert _ node y _ q hend =>
    have hmem : (y, node) ∈ q.iteratorMapper := (hok.agrees (by simp)).mem_iff.2 List.mem_cons_self
    intro x hx
    rcases List.mem_cons.1 hx with heq | hx
    · obtain rfl : x = y := heq
      refine ⟨(h x (List.mem_map_of_mem hmem)).1, fun hone => ?_⟩
      rw [hone] at hend
      cases hend
    · obtain ⟨e, he, rfl⟩ := List.mem_map.1 hx
      obtain ⟨he, hne⟩ := List.mem_filter.1 he
      obtain ⟨hold, hposts⟩ := h e.1 (List.mem_map_of_mem he)
      refine ⟨hold, fun hone => .inl ((hposts hone).resolve_right fun hf => ?_)⟩
      exact of_decide_eq_true hne (of_decide_eq_true hf).symm
  | abandon _ hm => exact h.sub hm fun x _ _ hf => hf
  | _ => exact hsame fun _ => rfl

theorem LoopStep.mapOk (hstep : LoopStep v v' pc q pc' q') (h : v.MapOk pc q) (hadd : v.AddsNew pc)
    (hok : ContainersOk v.deadlines pc q) (hcreated : v.created ≤ v'.created) :
    v'.MapOk pc' q' := by
  have hcalm : Calm v v' → (∀ x, pc.fires x = false) → v'.MapOk pc' q := by
    intro hc hpc x hx
    obtain ⟨hold, hposts⟩ := h x hx
    refine ⟨hold.trans_le hcreated, fun hone => .inl ?_⟩
    rw [hc.isOneshot x (ne_of_lt hold)] at hone
    rw [hc.posts]
    exact (hposts hone).resolve_right fun hf => by cases (hpc x).symm.trans hf
  cases hstep with
  | wait hpc _ hc =>
    refine hcalm hc fun x => ?_
    cases pc <;> first | rfl | cases hpc
  | abort hc | take _ hc => exact hcalm hc fun _ => rfl
  | work hw _ hsched hposts =>
    intro x hx
    obtain ⟨hold, hone⟩ := hw.mapOk h hadd hok x hx
    rw [hsched, hposts]
    exact ⟨hold.trans_le hcreated, hone⟩
  | @fire _ _ y _ _ hsched hposts =>
    intro x hx
    obtain ⟨hold, hone⟩ := h x hx
    refine ⟨hold.trans_le hcreated, fun h1 => ?_⟩
    by_cases hxy : x = y
    · exact .inr (decide_eq_true hxy.symm)
    · rw [hsched, update_of_ne hxy] at h1
      rw [hposts, update_of_ne hxy]
      exact .inl ((hone h1).resolve_right (by simp [WorkLoopPc.fires]))

theorem Step.mapOk (hs : Step v v') (hsingle : v.SingleLoop)
    (h : ∀ pc q, v.Loop pc q → v.MapOk pc q) (hadd : ∀ pc q, v.Loop pc q → v.AddsNew pc)
    (hok : ∀ pc q, v.Loop pc q → v.WorkerOk pc q) (hl : v'.Loop pc q) : v'.MapOk pc q := by
  cases hs.loop hsingle hl with
  | same hl hc =>
    intro x hx
    obtain ⟨hold, hone⟩ := h pc q hl x hx
    refine ⟨hold.trans_le hs.created_le, fun h1 => ?_⟩
    rw [hc.isOneshot x (ne_of_lt hold)] at h1
    rw [hc.posts]
    exact hone h1
  | start _ hq =>
    subst hq
    intro x hx
    cases hx
  | step hl hstep =>
    exact hstep.mapOk (h _ _ hl) (hadd _ _ hl) (hok _ _ hl).containers hs.created_le

end TimerMachine

namespace TimerSystem

open TimerMachine

variable {s s' : TimerSystem} {x : ℕ} {as : List TimerMove} {q : TimerQueueInternal}

theorem addsNew_of_reachable {pc : WorkLoopPc} (h : Reachable s) (hl : s.machine.Loop pc q) :
    s.machine.AddsNew pc := by
  rintro x rs rfl
  obtain ⟨t, d, hmem⟩ := hl
  have hticket : (⟨x, none, .taken t .add, true⟩ : Ticket) ∈ stackTickets t (s.frames t) :=
    mem_stack_of_loop hmem List.mem_cons_self
  have hok := (delayInv_of_reachable h).ok
  exact ⟨hok.old (some t) _ hticket, hok.first (some t) _ hticket rfl rfl⟩

theorem mapOk_of_reachable (h : Reachable s) :
    ∀ pc q, s.machine.Loop pc q → s.machine.MapOk pc q := by
  induction h with
  | start hs =>
    cases hs
    rintro pc q ⟨t, d, hmem⟩
    cases hmem
  | next hr _ hs ih =>
    intro pc q hl
    exact (step_machine (delayInv_of_reachable hr) hs).mapOk (loopInv_of_reachable hr).single ih
      (fun pc q => addsNew_of_reachable hr) (workerOk_of_reachable hr) hl

/-- A one-shot timer that has been posted is not in the multiset. -/
theorem not_mem_timers_of_posted {pc : WorkLoopPc} (h : Reachable s) (hl : s.machine.Loop pc q)
    (hone : (s.timers x).isOneshot = true) (hposts : s.posts x ≠ 0) :
    x ∉ q.timers.map Prod.snd := by
  intro hx
  obtain ⟨e, he, rfl⟩ := List.mem_map.1 hx
  obtain ⟨t, d, hmem⟩ := hl
  have hticket : (⟨e.2, none, .element t, true⟩ : Ticket) ∈ stackTickets t (s.frames t) :=
    mem_stack_of_loop hmem (List.mem_append_right _ (List.mem_map_of_mem he))
  exact hposts ((delayInv_of_reachable h).ok.first (some t) _ hticket rfl rfl hone)

/-- The posts that are still to come have at least the number of posts that there have been. -/
theorem post_lt {now node k : ℕ} (h : Reachable s) (hl : s.machine.Loop (.post now node x k) q) :
    k < s.posts x := by
  obtain ⟨t, d, hmem⟩ := hl
  have hticket : (⟨x, some k, .posting t, true⟩ : Ticket) ∈ stackTickets t (s.frames t) :=
    mem_stack_of_loop hmem List.mem_cons_self
  exact (delayInv_of_reachable h).ok.posted (some t) _ hticket k rfl

theorem notBefore_of_run {c : ℕ} (h : Reachable s) (hx : x < s.created)
    (hc : c ≤ (s.timers x).deadline) (hr : run step s as = some s') :
    s'.machine.NotBefore x (s.posts x) c := by
  have hstart : s.machine.NotBefore x (s.posts x) c :=
    ⟨hx, hc, fun now node k q hl hk => (not_lt.2 hk (post_lt h hl)).elim⟩
  have hinv := run_invariant
    (fun u : TimerSystem => Reachable u ∧ u.machine.NotBefore x (s.posts x) c)
    (fun u m u' ⟨hu, hb⟩ hs => by
      have hstep := step_machine (delayInv_of_reachable hu) hs
      exact ⟨.next hu trivial hs,
        hb.step hstep (loopInv_of_reachable hu).single (workerOk_of_reachable hu)⟩) ⟨h, hstart⟩ hr
  exact hinv.2

/-- The timer that a call makes is due when its due time is over. -/
theorem deadline_of_call {t : TimerThread} {c : TimerCall} {dueTime : ℕ}
    (hc : c.dueTime = some dueTime)
    (hs : s.step (.call t c) = some s') : s.created < s'.created ∧ s'.posts = s.posts ∧
      s.now + dueTime ≤ (s'.timers s.created).deadline := by
  unfold step at hs
  split_ifs at hs
  simp only [liveStep] at hs
  split at hs
  · cases c with
    | makeTimer executor | makeOneShotTimer executor | makeDelayObject executor =>
      cases executor with
      | false => cases hc
      | true =>
        cases hc
        simp only [call, if_true, Option.some.injEq] at hs
        subst hs
        refine ⟨Nat.lt_succ_self _, rfl, ?_⟩
        change _ ≤ (update s.timers s.created _ s.created).deadline
        rw [update_self]
        exact le_rfl
    | _ => cases hc
  · cases hs

/-- `fire` computes the next deadline from the clock and the frequency that it reads. -/
theorem deadline_of_fire {t : TimerThread} {now node deadline : ℕ} {rest : List Frame}
    (hf : s.frames t = .workLoop (.extracted now node x) q deadline :: rest)
    (hc : (s.timers x).cancelled = false) (hs : s.step (.step t) = some s') :
    s'.created = s.created ∧ s'.posts x = s.posts x + 1 ∧
      (s'.timers x).deadline = s.now + (s.timers x).frequency := by
  unfold step at hs
  split_ifs at hs
  simp only [liveStep, hf, nextStep, workLoopStep, processTimersStep, hc, Bool.false_eq_true,
    if_false, Option.some.injEq] at hs
  subst hs
  refine ⟨rfl, update_self .., ?_⟩
  change (update s.timers x _ x).deadline = _
  rw [update_self]
  rfl

theorem setFrequency_deadline {t : TimerThread} {frequency : ℕ}
    (hs : s.step (.call t (.setFrequency x frequency)) = some s') (y : ℕ) :
    (s'.timers y).deadline = (s.timers y).deadline := by
  unfold step at hs
  split_ifs at hs
  simp only [liveStep, call] at hs
  split at hs
  · split_ifs at hs
    cases hs
    change (update s.timers x _ y).deadline = _
    by_cases hyx : y = x
    · subst hyx
      rw [update_self]
      rfl
    · rw [update_of_ne hyx]
  · cases hs

/-- **Timers are not posted early, and one-shot timers are posted once.**

No post is before the due time.  When `fire` reads the clock at the time `s.now`, every later post
of the timer is at least the frequency that it reads behind that time.  A one-shot timer is posted
once, is not in the multiset then, and leaves the map in the same iteration.  `set_frequency`
changes no deadline. -/
theorem timers_never_post_early (h : Reachable s) :
    (∀ t c dueTime s', c.dueTime = some dueTime → s.step (.call t c) = some s' →
      ∀ as s'', run step s' as = some s'' →
        ∀ u now node k q deadline rest,
          s''.frames u = .workLoop (.post now node s.created k) q deadline :: rest →
          s.now + dueTime ≤ s''.now) ∧
    (∀ t now node x q deadline rest s',
      s.frames t = .workLoop (.extracted now node x) q deadline :: rest →
      (s.timers x).cancelled = false → s.step (.step t) = some s' →
      ∀ as s'', run step s' as = some s'' →
        ∀ u now' node' k q' deadline' rest',
          s''.frames u = .workLoop (.post now' node' x k) q' deadline' :: rest' → s.posts x < k →
          s.now + (s.timers x).frequency ≤ s''.now) ∧
    (∀ x, (s.timers x).isOneshot = true → s.posts x ≤ 1 ∧ (s.posts x = 1 →
      ∀ t pc q deadline, .workLoop pc q deadline ∈ s.frames t → x ∉ q.timers.map Prod.snd ∧
        (x ∈ q.iteratorMapper.map Prod.fst → pc.fires x = true))) ∧
    (∀ t x frequency s', s.step (.call t (.setFrequency x frequency)) = some s' →
      ∀ y, (s'.timers y).deadline = (s.timers y).deadline) := by
  refine ⟨?_, ?_, ?_, ?_⟩
  · intro t c dueTime s' hc hs as s'' hrun u now node k q d rest hf
    obtain ⟨hcreated, hposts, hdead⟩ := deadline_of_call hc hs
    have hzero : s'.posts s.created = 0 := by
      rw [hposts]
      exact (delayInv_of_reachable h).ok.postsNew _ le_rfl
    have hb := notBefore_of_run (.next h trivial hs) hcreated hdead hrun
    exact hb.post now node k q (loop_of_head hf) (hzero ▸ Nat.zero_le k)
  · intro t now node x q d rest s' hf hcancel hs as s'' hrun u now' node' k q' d' rest' hf' hk
    obtain ⟨hcreated, hposts, hdead⟩ := deadline_of_fire hf hcancel hs
    have hx : x < s.created := by
      have hticket : (⟨x, none, .element t, true⟩ : Ticket) ∈ stackTickets t (s.frames t) := by
        rw [hf]
        exact List.mem_cons_self
      exact (delayInv_of_reachable h).ok.old (some t) _ hticket
    have hb := notBefore_of_run (.next h trivial hs) (hcreated ▸ hx) hdead.ge hrun
    exact hb.post now' node' k q' (loop_of_head hf') (hposts ▸ hk)
  · intro x hone
    refine ⟨(delayInv_of_reachable h).ok.once x hone, fun hposts t pc q d hmem => ?_⟩
    have hloop : s.machine.Loop pc q := ⟨t, d, hmem⟩
    have hne : s.posts x ≠ 0 := by
      rw [hposts]
      exact Nat.one_ne_zero
    refine ⟨not_mem_timers_of_posted h hloop hone hne, fun hx => ?_⟩
    exact ((mapOk_of_reachable h pc q hloop x hx).2 hone).resolve_left hne
  · intro t x frequency s' hs y
    exact setFrequency_deadline hs y

/-- A timer with the frequency 5 is due at once, and is about to be fired. -/
def firstFire : List TimerMove :=
  [.enter 0, .call (.caller 0) (.makeTimer true 0 5)] ++ List.replicate 3 (.step (.caller 0)) ++
    .leave (.worker 0) :: List.replicate 6 (.step (.worker 0))

theorem timers_never_post_early_of_first_fire :
    ∃ s, Reachable s ∧ s.now = 0 ∧ s.posts 0 = 0 ∧ (s.timers 0).frequency = 5 ∧
      s.frames (.worker 0) = [.workLoop (.extracted 0 0 0) ⟨[], [(0, 0)], 1⟩ 0] ∧
      ∀ s', s.step (.step (.worker 0)) = some s' → ∀ as s'', run step s' as = some s'' →
        ∀ u now node k q deadline rest,
          s''.frames u = .workLoop (.post now node 0 k) q deadline :: rest → 0 < k →
          5 ≤ s''.now := by
  let s := lastState step initial firstFire
  have h : Reachable s := .lastState (by rfl) firstFire
  have hnow : s.now = 0 := by decide +kernel
  have hposts : s.posts 0 = 0 := by decide +kernel
  have hfreq : (s.timers 0).frequency = 5 := by decide +kernel
  have hframes : s.frames (.worker 0) = [.workLoop (.extracted 0 0 0) ⟨[], [(0, 0)], 1⟩ 0] := by
    decide +kernel
  obtain ⟨-, hfire, -, -⟩ := timers_never_post_early h
  refine ⟨s, h, hnow, hposts, hfreq, hframes,
    fun s' hstep as s'' hrun u now node k q d rest hf hk => ?_⟩
  have hlate :=
    hfire (.worker 0) 0 0 0 _ 0 [] s' hframes (by decide +kernel) hstep as s'' hrun u now node k q d
    rest hf (hposts.symm ▸ hk)
  rwa [hnow, hfreq, Nat.zero_add] at hlate

/-- The timer is fired at the time 0, and posted at the time 4. -/
def latePost : List TimerMove :=
  firstFire ++ [.step (.worker 0), .tick, .tick, .tick, .tick]

/-- The worker goes on, and fires the timer again at the time 5. -/
def secondPost : List TimerMove :=
  .store (.worker 0) :: List.replicate 7 (.step (.worker 0)) ++ [.tick, .timeout (.worker 0)] ++
    List.replicate 5 (.step (.worker 0))

/-- Two consecutive posts of a timer with the frequency 5, at the times 4 and 5. -/
theorem posts_within_frequency :
    ∃ s s', Reachable s ∧ run step s secondPost = some s' ∧
      (s.timers 0).frequency = 5 ∧ s.now = 4 ∧ s'.now = 5 ∧
      s.frames (.worker 0) = [.workLoop (.post 0 0 0 0) ⟨[], [(0, 0)], 1⟩ 0] ∧
      s'.frames (.worker 0) = [.workLoop (.post 5 0 0 1) ⟨[], [(0, 0)], 1⟩ 5] := by
  let s := lastState step initial latePost
  let s' := (run step s secondPost).get (by decide +kernel)
  exact ⟨s, s', .lastState (by rfl) latePost, (Option.some_get _).symm, by decide +kernel⟩

end TimerSystem
end Concurrencpp
