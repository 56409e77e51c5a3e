import Concurrencpp.Timers.TimerQueueInternal

/-!
# The two containers agree

`m_iterator_mapper` names the element of every timer of `m_timers`, and `m_timers` is ordered by
deadlines.

* `Agrees`: the map describes the multiset and what has been taken out of it for the moment, with
  one lemma for each operation of `timer_queue_internal`.
* `InOrder`: the multiset is ordered.
-/

namespace Concurrencpp

/-! ### Lists with distinct keys -/

theorem perm_cons_filter {α β : Type*} [DecidableEq β] {l : List α} {f : α → β} {a : α}
    (hnd : (l.map f).Nodup) (ha : a ∈ l) : l.Perm (a :: l.filter fun e => f e ≠ f a) := by
  induction l with
  | nil => cases ha
  | cons b l ih =>
    obtain ⟨hb, hnd⟩ := List.nodup_cons.1 hnd
    rcases List.mem_cons.1 ha with rfl | ha
    · -- no other element has the key
      have hall : l.filter (fun e => f e ≠ f a) = l := by
        refine List.filter_eq_self.2 fun e he => decide_eq_true fun heq => hb ?_
        exact heq ▸ List.mem_map_of_mem he
      rw [List.filter_cons_of_neg (by simp), hall]
    · have hne : f b ≠ f a := fun heq => hb (heq ▸ List.mem_map_of_mem ha)
      rw [List.filter_cons_of_pos (by simpa using hne)]
      exact ((ih hnd ha).cons b).trans (.swap _ _ _)

namespace TimerQueueInternal

variable {τ : Type*} [LinearOrder τ] {q : TimerQueueInternal} {out : List (ℕ × ℕ)}
  {deadline : ℕ → τ} {node x : ℕ}

/-- The map describes the elements of the multiset, and those in `out`. -/
structure Agrees (q : TimerQueueInternal) (out : List (ℕ × ℕ)) : Prop where
  perm : (q.iteratorMapper.map Prod.swap).Perm (out ++ q.timers)
  keys : (q.iteratorMapper.map Prod.fst).Nodup
  nodes : (q.iteratorMapper.map Prod.snd).Nodup
  old : ∀ e ∈ q.iteratorMapper, e.2 < q.nodes

def InOrder (deadline : ℕ → τ) (timers : List (ℕ × ℕ)) : Prop :=
  timers.Pairwise fun a b => deadline a.2 ≤ deadline b.2

theorem Agrees.mem_iff (h : q.Agrees out) :
    (x, node) ∈ q.iteratorMapper ↔ (node, x) ∈ out ++ q.timers := by
  rw [← h.perm.mem_iff, List.mem_map]
  constructor
  · exact fun hmem => ⟨_, hmem, rfl⟩
  · rintro ⟨⟨y, k⟩, hmem, heq⟩
    cases heq
    exact hmem

theorem Agrees.timers_nodup (h : q.Agrees out) : ((out ++ q.timers).map Prod.snd).Nodup := by
  have hperm := h.perm.map Prod.snd
  rw [List.map_map] at hperm
  exact hperm.nodup_iff.1 h.keys

theorem Agrees.not_mem_timers (h : q.Agrees [(node, x)]) : x ∉ q.timers.map Prod.snd :=
  (List.nodup_cons.1 h.timers_nodup).1

theorem Agrees.nodes_nodup (h : q.Agrees out) : ((out ++ q.timers).map Prod.fst).Nodup := by
  have hperm := h.perm.map Prod.fst
  rw [List.map_map] at hperm
  exact hperm.nodup_iff.1 h.nodes

theorem Agrees.mem_keys (h : q.Agrees out) :
    x ∈ q.iteratorMapper.map Prod.fst ↔ x ∈ (out ++ q.timers).map Prod.snd := by
  have hperm := h.perm.map Prod.snd
  rw [List.map_map] at hperm
  exact hperm.mem_iff

theorem mem_of_find (h : q.find x = some node) : (x, node) ∈ q.iteratorMapper := by
  obtain ⟨l₁, l₂, heq, -⟩ := List.lookup_eq_some_iff.1 h
  rw [heq]
  exact List.mem_append_right _ List.mem_cons_self

theorem find_eq_none : q.find x = none ↔ x ∉ q.iteratorMapper.map Prod.fst := by
  unfold find
  rw [List.lookup_eq_none_iff]
  simp only [bne_iff_ne, List.mem_map, not_exists, not_and]
  exact ⟨fun h e he heq => h e he heq.symm, fun h e he heq => h e he heq.symm⟩

theorem perm_insert (deadline : ℕ → τ) (e : ℕ × ℕ) (timers : List (ℕ × ℕ)) :
    (insert deadline e timers).Perm (e :: timers) :=
  List.perm_orderedInsert _ _ _

/-! ### The operations keep the containers in agreement -/

theorem agrees_init : init.Agrees [] := ⟨.nil, .nil, .nil, by simp [init]⟩

theorem Agrees.add (h : q.Agrees []) (hx : x ∉ q.timers.map Prod.snd) :
    (q.addTimerInternal deadline x).Agrees [] := by
  constructor
  case perm =>
    refine List.Perm.trans ?_ (perm_insert deadline (q.nodes, x) q.timers).symm
    exact h.perm.cons _
  case keys => exact List.nodup_cons.2 ⟨fun hmem => hx (h.mem_keys.1 hmem), h.keys⟩
  case nodes =>
    refine List.nodup_cons.2 ⟨fun hmem => ?_, h.nodes⟩
    obtain ⟨e, he, heq⟩ := List.mem_map.1 hmem
    exact lt_irrefl _ (heq ▸ h.old e he)
  case old =>
    intro e he
    rcases List.mem_cons.1 he with rfl | he
    · exact Nat.lt_succ_self _
    · exact Nat.lt_succ_of_lt (h.old e he)

theorem Agrees.eraseNode (h : q.Agrees []) (hfind : q.find x = some node) :
    (q.eraseNode node).Agrees [(node, x)] := by
  have hmem : (node, x) ∈ q.timers := h.mem_iff.1 (mem_of_find hfind)
  have hperm := perm_cons_filter (f := Prod.fst) h.nodes_nodup hmem
  exact ⟨h.perm.trans hperm, h.keys, h.nodes, h.old⟩

theorem Agrees.unmap (h : q.Agrees [(node, x)]) : (q.unmap x).Agrees [] := by
  have hmem : (x, node) ∈ q.iteratorMapper := h.mem_iff.2 List.mem_cons_self
  have hperm := perm_cons_filter (f := Prod.fst) h.keys hmem
  have hsub : (q.unmap x).iteratorMapper.Sublist q.iteratorMapper := List.filter_sublist
  constructor
  case perm =>
    refine List.Perm.cons_inv (a := (node, x)) ?_
    exact (hperm.map Prod.swap).symm.trans h.perm
  case keys => exact h.keys.sublist (hsub.map _)
  case nodes => exact h.nodes.sublist (hsub.map _)
  case old => exact fun e he => h.old e (hsub.subset he)

theorem Agrees.extract {ts : List (ℕ × ℕ)} (h : q.Agrees []) (hq : q.timers = (node, x) :: ts) :
    q.extract.Agrees [(node, x)] := by
  refine ⟨h.perm.trans ?_, h.keys, h.nodes, h.old⟩
  rw [TimerQueueInternal.extract, hq]
  exact .refl _

theorem Agrees.reinsert (h : q.Agrees [(node, x)]) : (q.reinsert deadline node x).Agrees [] := by
  have hmem : (x, node) ∈ q.iteratorMapper := h.mem_iff.2 List.mem_cons_self
  have hperm : q.iteratorMapper.Perm (q.reinsert deadline node x).iteratorMapper :=
    perm_cons_filter (f := Prod.fst) h.keys hmem
  constructor
  case perm =>
    refine (hperm.map Prod.swap).symm.trans (h.perm.trans ?_)
    exact (perm_insert deadline (node, x) q.timers).symm
  case keys => exact (hperm.map _).nodup_iff.1 h.keys
  case nodes => exact (hperm.map _).nodup_iff.1 h.nodes
  case old => exact fun e he => h.old e (hperm.mem_iff.2 he)

/-! ### The multiset is in order -/

theorem InOrder.insert {timers : List (ℕ × ℕ)} {e : ℕ × ℕ} (h : InOrder deadline timers) :
    InOrder deadline (TimerQueueInternal.insert deadline e timers) := by
  induction timers with
  | nil => exact List.pairwise_singleton _ _
  | cons b timers ih =>
    obtain ⟨hb, htail⟩ := List.pairwise_cons.1 h
    unfold TimerQueueInternal.insert
    rw [List.orderedInsert]
    split_ifs with hlt
    · refine List.pairwise_cons.2 ⟨fun c hc => ?_, h⟩
      rcases List.mem_cons.1 hc with rfl | hc
      · exact hlt.le
      · exact hlt.le.trans (hb c hc)
    · refine List.pairwise_cons.2 ⟨fun c hc => ?_, ih htail⟩
      rcases List.mem_cons.1 ((perm_insert deadline e timers).mem_iff.1 hc) with rfl | hc
      · exact not_lt.1 hlt
      · exact hb c hc

theorem InOrder.congr {deadline' : ℕ → τ} {timers : List (ℕ × ℕ)} (h : InOrder deadline timers)
    (heq : ∀ e ∈ timers, deadline' e.2 = deadline e.2) : InOrder deadline' timers := by
  refine List.Pairwise.imp_of_mem ?_ h
  intro a b ha hb hle
  rwa [heq a ha, heq b hb]

end TimerQueueInternal

end Concurrencpp
