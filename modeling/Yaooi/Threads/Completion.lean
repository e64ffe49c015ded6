import Mathlib.Algebra.Order.BigOperators.Group.Finset
import Yaooi.Lib.Mutex
import Yaooi.Lib.Transition
import Yaooi.Queue.Pollish

/-!
# Completing requests from several threads

`yoi_req_end` of `src/queue.c` step by step, as any number of threads run it beside the one
that polls: the code is written, the queue's lock is taken, the request is linked, the poller is
notified, the lock is released.  `yoiReqEnd_eq` puts the steps together again.

What notifying does and how the poller waits depends on the backend, so `completing` is
parametrised by a `Backend`.  `Completing.owns` is the mutual exclusion that every backend relies
on.
-/

namespace Yaooi

open Transition Mutex

/-! ## The steps of `yoi_req_end` -/

/-- Where a thread stands in `yoi_req_end`, once the code is written. -/
inductive EndPc where
  /-- The queue's lock is to be taken. -/
  | coded
  /-- The request is to be linked. -/
  | locked
  /-- The notification is to be sent. -/
  | linked
  /-- The queue's lock is to be released. -/
  | notified
  deriving DecidableEq, Repr

/-- The thread holds the queue's lock. -/
def EndPc.inside : EndPc → Bool
  | .coded => false
  | .locked | .linked | .notified => true

namespace Heap

variable (m : Heap) (r x : YoReqT) (q k : YoQueueT) (c : YoCode)

/-- `req->ready.code = code` -/
def endCode : Heap := m.setReq r (·.setCode c)

/-- `yoi_list_add(req_ready, req->queue->head, req)` -/
def endLink : Heap :=
  let q := (m.req r).queue
  let m := m.setReq r (·.setNext (m.queue q).head)
  m.setQueue q fun k => { k with head := r }

/-- The steps of `yoi_req_end`, run one after the other. -/
theorem yoiReqEnd_eq : m.yoiReqEnd r c = (m.endCode r c).endLink r := rfl

@[simp] theorem queue_endCode : (m.endCode r c).queue = m.queue := rfl

@[simp] theorem reqQueue_endCode : ((m.endCode r c).req x).queue = (m.req x).queue := by
  unfold endCode
  rw [req_setReq]
  split <;> simp_all

@[simp] theorem reqQueue_endLink : ((m.endLink r).req x).queue = (m.req x).queue := by
  unfold endLink
  rw [req_setQueue, req_setReq]
  split <;> simp_all

@[simp] theorem reqIoq_endCode : ((m.endCode r c).req x).ioq = (m.req x).ioq := by
  rw [endCode, req_setReq]
  split <;> simp_all

@[simp] theorem reqIoq_endLink : ((m.endLink r).req x).ioq = (m.req x).ioq := by
  unfold endLink
  rw [req_setQueue, req_setReq]
  split <;> simp_all

@[simp] theorem ioq_endCode : (m.endCode r c).ioq = m.ioq := by
  have hfd : (m.endCode r c).fd = m.fd := rfl
  simp [ioq, hfd]

/-- Linking leaves the codes alone. -/
@[simp] theorem code_endLink : ((m.endLink r).req x).code = (m.req x).code := by
  unfold endLink
  rw [req_setQueue, req_setReq]
  split <;> simp_all

/-- Linking makes the request the head of its queue's list. -/
@[simp] theorem head_endLink : ((m.endLink r).queue (m.req r).queue).head = r := by
  unfold endLink
  simp only [queue_setQueue, if_true]

/-- What was the head comes behind it. -/
@[simp] theorem next_endLink : ((m.endLink r).req r).next = (m.queue (m.req r).queue).head := by
  simp [endLink]

end Heap

/-! ## The threads and the poller -/

/-- What a backend adds to the completing threads: what its poller does and what notifying does.
A step of the poller is told whether the queue's lock is free. -/
structure Backend (σ β : Type*) where
  init : σ → Prop
  /-- `yoi_queue_impl_notify` -/
  notify : σ → σ
  poll : Heap → Bool → σ → β → Option (Heap × σ)

/-- The memory, the owner of the queue's lock, where each thread stands in `yoi_req_end`, with
its request, and the state of the poller. -/
structure Completing (σ ι : Type*) where
  mem : Heap
  owner : Option ι
  pc : ι → Option (YoReqT × EndPc)
  poller : σ

namespace Completing

/-- A step of one of the threads. -/
inductive Act (ι β : Type*) where
  /-- A thread calls `yoi_req_end` and writes the code. -/
  | enter (i : ι) (r : YoReqT) (code : YoCode)
  /-- The next step of a thread that is in `yoi_req_end`. -/
  | proceed (i : ι)
  /-- A step of the poller. -/
  | poll (b : β)

variable {σ β ι : Type*} [DecidableEq ι]

/-- Any number of threads complete requests of the queue `q` while one polls it. -/
def system (q : YoQueueT) (k : Backend σ β) : System (Completing σ ι) (Act ι β) where
  init s := s.owner = none ∧ (∀ i, s.pc i = none) ∧ k.init s.poller
  step s
    | .enter i r code =>
      if s.pc i = none ∧ (s.mem.req r).queue = q ∧ r ≠ NULL then
        some { s with
          mem := s.mem.endCode r code, pc := Function.update s.pc i (some (r, .coded)) }
      else none
    | .proceed i =>
      match s.pc i with
      | none => none
      | some (r, .coded) =>
        if s.owner = none then
          some { s with owner := some i, pc := Function.update s.pc i (some (r, .locked)) }
        else none
      | some (r, .locked) =>
        some { s with mem := s.mem.endLink r, pc := Function.update s.pc i (some (r, .linked)) }
      | some (r, .linked) =>
        some { s with
          poller := k.notify s.poller, pc := Function.update s.pc i (some (r, .notified)) }
      | some (_, .notified) =>
        some { s with owner := none, pc := Function.update s.pc i none }
    | .poll b =>
      (k.poll s.mem s.owner.isNone s.poller b).map fun p => { s with mem := p.1, poller := p.2 }

/-! ## What a step does -/

variable {q : YoQueueT} {k : Backend σ β} {s t : Completing σ ι} {a : Act ι β} {i j : ι}

/-- Everything a step can be. -/
inductive Steps (q : YoQueueT) (k : Backend σ β) (s : Completing σ ι) :
    Act ι β → Completing σ ι → Prop
  | enter {i : ι} {r : YoReqT} {code : YoCode} (hpc : s.pc i = none)
      (hq : (s.mem.req r).queue = q) (hr : r ≠ NULL) :
      Steps q k s (.enter i r code)
        { s with mem := s.mem.endCode r code, pc := Function.update s.pc i (some (r, .coded)) }
  | lock {i : ι} {r : YoReqT} (hpc : s.pc i = some (r, .coded)) (ho : s.owner = none) :
      Steps q k s (.proceed i)
        { s with owner := some i, pc := Function.update s.pc i (some (r, .locked)) }
  | link {i : ι} {r : YoReqT} (hpc : s.pc i = some (r, .locked)) :
      Steps q k s (.proceed i)
        { s with mem := s.mem.endLink r, pc := Function.update s.pc i (some (r, .linked)) }
  | notify {i : ι} {r : YoReqT} (hpc : s.pc i = some (r, .linked)) :
      Steps q k s (.proceed i)
        { s with poller := k.notify s.poller, pc := Function.update s.pc i (some (r, .notified)) }
  | unlock {i : ι} {r : YoReqT} (hpc : s.pc i = some (r, .notified)) :
      Steps q k s (.proceed i) { s with owner := none, pc := Function.update s.pc i none }
  | poll {b : β} {m : Heap} {p : σ} (hp : k.poll s.mem s.owner.isNone s.poller b = some (m, p)) :
      Steps q k s (.poll b) { s with mem := m, poller := p }

theorem step_cases (h : (system q k).step s a = some t) : Steps q k s a t := by
  cases a with
  | enter i r code =>
    simp only [system] at h
    split at h
    · rename_i hg
      cases h
      exact .enter hg.1 hg.2.1 hg.2.2
    · cases h
  | proceed i =>
    simp only [system] at h
    split at h
    · cases h
    · rename_i r hpc
      split at h
      · rename_i ho
        cases h
        exact .lock hpc ho
      · cases h
    · rename_i r hpc
      cases h
      exact .link hpc
    · rename_i r hpc
      cases h
      exact .notify hpc
    · rename_i r hpc
      cases h
      exact .unlock hpc
  | poll b =>
    obtain ⟨⟨m, p⟩, hp, rfl⟩ := Option.map_eq_some_iff.mp h
    exact .poll hp

/-! ## Mutual exclusion -/

/-- The thread holds the queue's lock. -/
def Inside (pc : ι → Option (YoReqT × EndPc)) (i : ι) : Prop := (pc i).any (·.2.inside) = true

theorem inside_update_of_ne {pc : ι → Option (YoReqT × EndPc)} {p : Option (YoReqT × EndPc)}
    (h : j ≠ i) : Inside (Function.update pc i p) j ↔ Inside pc j := by
  simp [Inside, h]

/-- A thread that stays on its side of the lock. -/
theorem inside_update {pc : ι → Option (YoReqT × EndPc)} {p : Option (YoReqT × EndPc)}
    (h : p.any (·.2.inside) = (pc i).any (·.2.inside)) (j : ι) :
    Inside (Function.update pc i p) j ↔ Inside pc j := by
  by_cases hj : j = i
  · subst hj
    simp [Inside, h]
  · exact inside_update_of_ne hj

/-- **Mutual exclusion.**  The owner of the lock is the one thread in its critical section. -/
theorem owns (hs : (system q k).Reachable s) : Owns s.owner (Inside s.pc) := by
  refine hs.invariant (P := fun s => Owns s.owner (Inside s.pc)) ?_ ?_
  · rintro s ⟨ho, hpc, -⟩ i
    simp [ho, Inside, hpc i]
  · intro s a t _ h _ hst
    cases step_cases hst with
    | enter hpc hq hr => exact h.congr (inside_update (by simp [hpc, EndPc.inside]))
    | lock hpc ho =>
      rw [ho] at h
      exact h.acquire (by simp [Inside, EndPc.inside]) fun u hu => inside_update_of_ne hu
    | link hpc => exact h.congr (inside_update (by simp [hpc, EndPc.inside]))
    | notify hpc => exact h.congr (inside_update (by simp [hpc, EndPc.inside]))
    | @unlock i r hpc =>
      have ho : s.owner = some i := (h i).mpr (by simp [Inside, hpc, EndPc.inside])
      rw [ho] at h
      exact h.release (by simp [Inside]) fun u hu => inside_update_of_ne hu
    | poll hp => exact h

/-- A thread about to notify still is after a step of another thread. -/
theorem exists_linked_update {pc : ι → Option (YoReqT × EndPc)} {p : Option (YoReqT × EndPc)}
    (hi : ∀ r, pc i ≠ some (r, .linked)) (h : ∃ j r, pc j = some (r, .linked)) :
    ∃ j r, Function.update pc i p j = some (r, .linked) := by
  obtain ⟨j, r, hj⟩ := h
  have hne : j ≠ i := fun e => hi r (e ▸ hj)
  exact ⟨j, r, by rw [Function.update_of_ne hne, hj]⟩

/-! ## The threads can finish -/

/-- Only finitely many threads are in `yoi_req_end`. -/
theorem exists_busy (hs : (system q k).Reachable s) :
    ∃ F : Finset ι, ∀ i, i ∉ F → s.pc i = none := by
  refine hs.invariant (P := fun s => ∃ F : Finset ι, ∀ i, i ∉ F → s.pc i = none) ?_ ?_
  · rintro s ⟨-, hpc, -⟩
    exact ⟨∅, fun i _ => hpc i⟩
  · rintro s a t _ ⟨F, hF⟩ _ hst
    have grow : ∀ (i : ι) (p : Option (YoReqT × EndPc)), ∃ F : Finset ι,
        ∀ j, j ∉ F → Function.update s.pc i p j = none := by
      intro i p
      refine ⟨insert i F, fun j hj => ?_⟩
      obtain ⟨hne, hj⟩ := not_or.mp (mt Finset.mem_insert.mpr hj)
      rw [Function.update_of_ne hne, hF j hj]
    cases step_cases hst with
    | enter | lock | link | notify | unlock => exact grow _ _
    | poll => exact ⟨F, hF⟩

/-- The requests under completion are requests of the queue. -/
theorem begun (hk : ∀ m free p b m' p', k.poll m free p b = some (m', p') →
      ∀ x, (m'.req x).queue = (m.req x).queue)
    (hs : (system q k).Reachable s) {i : ι} {r : YoReqT} {e : EndPc} (hi : s.pc i = some (r, e)) :
    r ≠ NULL ∧ (s.mem.req r).queue = q := by
  revert i r e
  refine hs.invariant (P := fun s => ∀ {i r e}, s.pc i = some (r, e) →
    r ≠ NULL ∧ (s.mem.req r).queue = q) ?_ ?_
  · rintro s ⟨-, hpc, -⟩ i r e hi
    simp [hpc i] at hi
  · intro s a t _ h _ hst j x e hj
    have other : ∀ {i : ι} {p : Option (YoReqT × EndPc)}, (∀ e', p = some (x, e') →
        x ≠ NULL ∧ (s.mem.req x).queue = q) → Function.update s.pc i p j = some (x, e) →
          x ≠ NULL ∧ (s.mem.req x).queue = q := by
      intro i p hp hj
      rw [Function.update_apply] at hj
      split at hj
      · exact hp e hj
      · exact h hj
    cases step_cases hst with
    | enter hpc hq hr =>
      simp only [Heap.reqQueue_endCode]
      refine other (fun e' he => ?_) hj
      cases he
      exact ⟨hr, hq⟩
    | lock hpc ho =>
      refine other (fun e' he => ?_) hj
      cases he
      exact h hpc
    | link hpc =>
      simp only [Heap.reqQueue_endLink]
      refine other (fun e' he => ?_) hj
      cases he
      exact h hpc
    | notify hpc =>
      refine other (fun e' he => ?_) hj
      cases he
      exact h hpc
    | unlock hpc => exact other (by simp) hj
    | poll hp =>
      rw [hk _ _ _ _ _ _ hp]
      exact h hj

/-- The steps a thread has left in `yoi_req_end`. -/
def left : Option (YoReqT × EndPc) → ℕ
  | none => 0
  | some (_, .notified) => 1
  | some (_, .linked) => 2
  | some (_, .locked) => 3
  | some (_, .coded) => 4

/-- A step of a thread leaves it and the others fewer steps. -/
theorem left_update {F : Finset ι} {pc : ι → Option (YoReqT × EndPc)}
    {p : Option (YoReqT × EndPc)} (hF : ∀ j, j ∉ F → pc j = none) (hlt : left p < left (pc i)) :
    (∀ j, j ∉ F → Function.update pc i p j = none) ∧
      ∑ j ∈ F, left (Function.update pc i p j) < ∑ j ∈ F, left (pc j) := by
  have hi : i ∈ F := by
    by_contra hi
    simp [hF i hi, left] at hlt
  constructor
  · intro j hj
    have hne : j ≠ i := fun e => hj (e ▸ hi)
    rw [Function.update_of_ne hne, hF j hj]
  · refine Finset.sum_lt_sum (fun j _ => ?_) ⟨i, hi, by rwa [Function.update_self]⟩
    by_cases hj : j = i
    · subst hj
      rw [Function.update_self]
      exact hlt.le
    · rw [Function.update_of_ne hj]

/-- **The threads in `yoi_req_end` can finish** without a step of the poller.  What linking
a request of the queue and notifying preserve then still holds. -/
theorem exists_finish (hk : ∀ m free p b m' p', k.poll m free p b = some (m', p') →
      ∀ x, (m'.req x).queue = (m.req x).queue)
    {R : Heap → σ → Prop} (hlink : ∀ m p r, R m p → r ≠ NULL → (m.req r).queue = q →
      R (m.endLink r) p) (hnotify : ∀ m p, R m p → R m (k.notify p))
    (hs : (system q k).Reachable s) (hR : R s.mem s.poller) :
    ∃ as t, (system q k).run s as = some t ∧ (system q k).Reachable t ∧ (∀ i, t.pc i = none) ∧
      t.owner = none ∧ R t.mem t.poller := by
  obtain ⟨F, hF⟩ := exists_busy hs
  have hstep : ∀ (s : Completing σ ι) (a : Act ι β) (t : Completing σ ι),
      ((system q k).Reachable s ∧ R s.mem s.poller ∧ ∀ i, i ∉ F → s.pc i = none) →
      (∃ i, a = .proceed i) → (system q k).step s a = some t →
      ((system q k).Reachable t ∧ R t.mem t.poller ∧ ∀ i, i ∉ F → t.pc i = none) ∧
        ∑ i ∈ F, left (t.pc i) < ∑ i ∈ F, left (s.pc i) := by
    rintro s a t ⟨hs, hR, hF⟩ ⟨i, rfl⟩ hst
    have ht : (system q k).Reachable t := hs.step trivial hst
    cases step_cases hst with
    | lock hpc ho =>
      obtain ⟨hF', hlt⟩ := left_update hF (i := i) (p := some (_, .locked)) (by simp [hpc, left])
      exact ⟨⟨ht, hR, hF'⟩, hlt⟩
    | link hpc =>
      obtain ⟨hr, hq⟩ := begun hk hs hpc
      obtain ⟨hF', hlt⟩ := left_update hF (i := i) (p := some (_, .linked)) (by simp [hpc, left])
      exact ⟨⟨ht, hlink _ _ _ hR hr hq, hF'⟩, hlt⟩
    | notify hpc =>
      obtain ⟨hF', hlt⟩ := left_update hF (i := i) (p := some (_, .notified)) (by simp [hpc, left])
      exact ⟨⟨ht, hnotify _ _ hR, hF'⟩, hlt⟩
    | unlock hpc =>
      obtain ⟨hF', hlt⟩ := left_update hF (i := i) (p := none) (by simp [hpc, left])
      exact ⟨⟨ht, hR, hF'⟩, hlt⟩
  obtain ⟨as, t, hrun, -, ⟨ht, hRt, -⟩, hstuck⟩ :=
    System.exists_run_stuck (fun s : Completing σ ι => ∑ i ∈ F, left (s.pc i)) hstep ⟨hs, hR, hF⟩
  have hout : ∀ i r e, t.pc i = some (r, e) → e = .coded := by
    intro i r e hi
    have := hstuck _ ⟨i, rfl⟩
    cases e <;> simp [system, hi] at this ⊢
  have ho : t.owner = none := by
    rw [Option.eq_none_iff_forall_ne_some]
    intro i hi
    obtain ⟨⟨r, e⟩, hpc, he⟩ := (Option.any_eq_true _ _).mp ((owns ht i).mp hi)
    simp [hout i r e hpc, EndPc.inside] at he
  refine ⟨as, t, hrun, ht, fun i => ?_, ho, hRt⟩
  rw [Option.eq_none_iff_forall_ne_some]
  rintro ⟨r, e⟩ hi
  have := hstuck _ ⟨i, rfl⟩
  obtain rfl := hout i r e hi
  simp [system, hi, ho] at this

end Completing

end Yaooi
