import Yaooi.Queue.Calls
import Yaooi.Threads.Completion

/-!
# The condition variable of the fallback backend

`yo_queue_poll` of `src/fallback/queue.c`, called without a deadline in a program that is built
with threads.  The test for an empty list and the wait are two critical sections, and
nothing tests the list again under the second one.  A request that is completed between the two
is announced to nobody, and the poller waits on with the request on its list.

* `lostWakeup_oneRequest` is such a run.
* `prompt_noLostWakeup` shows that this is the only way to lose a wake-up, and that every
  completion in the gap can be lost.
-/

namespace Yaooi

open Transition Mutex

/-! ## The poller -/

/-- Where the poller stands in `yo_queue_poll`. -/
inductive FallbackPc where
  /-- `yoi_queue_pop` is next. -/
  | pop
  /-- The list was found empty, and the lock for the wait is to be taken. -/
  | empty
  /-- In `yo_cond_wait`. -/
  | waiting
  /-- Woken; the lock is to be taken again, and released. -/
  | woken
  /-- `yo_queue_poll` returned; it may be called again. -/
  | returned (r : YoReqT) (code : YoCode)
  deriving DecidableEq, Repr

/-- What the poller can do. -/
inductive FallbackAct where
  /-- The next step of `yo_queue_poll`. -/
  | next
  /-- The wait ends although nobody sent a notification. -/
  | spurious
  deriving DecidableEq, Repr

/-- `yoi_queue_impl_notify`.  A broadcast reaches the poller only while it waits. -/
def FallbackPc.notify : FallbackPc → FallbackPc
  | .waiting => .woken
  | p => p

/-- A step of the poller of the queue `q`, `free` telling whether the queue's lock is free. -/
def Heap.fallbackPoll (q : YoQueueT) (m : Heap) (free : Bool) (p : FallbackPc) :
    FallbackAct → Option (Heap × FallbackPc)
  | .next =>
    match p with
    | .pop =>
      if free then
        match m.yoiQueuePop q with
        | (m, none) => some (m, .empty)
        | (m, some (r, code)) => some (m, .returned r code)
      else none
    | .empty => if free then some (m, .waiting) else none
    | .waiting => none
    | .woken => if free then some (m, .pop) else none
    | .returned .. => some (m, .pop)
  | .spurious => if p = .waiting then some (m, .woken) else none

/-- The fallback backend of the queue `q`. -/
def fallback (q : YoQueueT) : Backend FallbackPc FallbackAct where
  init p := p = .pop
  notify := FallbackPc.notify
  poll := Heap.fallbackPoll q

namespace Fallback

variable {ι : Type*} [DecidableEq ι]

/-- A run of the completing threads and the poller. -/
abbrev system (q : YoQueueT) : System (Completing FallbackPc ι) (Completing.Act ι FallbackAct) :=
  Completing.system q (fallback q)

/-- The poller waits beside a request on its list, and no completing thread has its broadcast
still to do. -/
structure LostWakeup (q : YoQueueT) (s : Completing FallbackPc ι) : Prop where
  waiting : s.poller = .waiting
  ready : (s.mem.queue q).head ≠ NULL
  announced : ∀ i r e, s.pc i = some (r, e) → e = .notified

/-- The step links no request while the poller is between the pop that found nothing and the
wait. -/
def Prompt (s : Completing FallbackPc ι) (a : Completing.Act ι FallbackAct) : Prop :=
  s.poller = .empty → ∀ i r, a = .proceed i → s.pc i ≠ some (r, .locked)

variable {q : YoQueueT} {s t : Completing FallbackPc ι} {a : Completing.Act ι FallbackAct}

/-! ## Runs without a completion in the gap -/

/-- A request that the poller did not see was linked by a thread that has still to announce it. -/
structure Seen (q : YoQueueT) (s : Completing FallbackPc ι) : Prop where
  empty : s.poller = .empty → (s.mem.queue q).head = NULL
  waiting : s.poller = .waiting → (s.mem.queue q).head ≠ NULL → ∃ i r, s.pc i = some (r, .linked)

/-- A step of the poller leads to the gap or into the wait only with an empty list. -/
theorem head_of_poll {m m' : Heap} {free : Bool} {p p' : FallbackPc} {b : FallbackAct}
    (h : m.fallbackPoll q free p b = some (m', p')) (hp : p = .empty → (m.queue q).head = NULL)
    (hp' : p' = .empty ∨ p' = .waiting) : (m'.queue q).head = NULL := by
  cases b with
  | spurious =>
    simp only [Heap.fallbackPoll] at h
    split at h <;> cases h
    simp at hp'
  | next =>
    cases p with
    | pop =>
      simp only [Heap.fallbackPoll] at h
      split at h
      · split at h
        · rename_i hpop
          cases h
          obtain ⟨rfl, hhead⟩ := Heap.yoiQueuePop_eq_none hpop
          exact hhead
        · cases h
          simp at hp'
      · cases h
    | empty =>
      simp only [Heap.fallbackPoll] at h
      split at h <;> cases h
      exact hp rfl
    | waiting => cases h
    | woken =>
      simp only [Heap.fallbackPoll] at h
      split at h <;> cases h
      simp at hp'
    | returned r code =>
      cases h
      simp at hp'

/-- One step keeps it. -/
theorem Seen.step (h : Seen q s) (hok : Prompt s a) (hst : (system q).step s a = some t) :
    Seen q t := by
  cases Completing.step_cases hst with
  | enter hpc hq hr =>
    refine ⟨h.empty, fun hw hne => ?_⟩
    exact Completing.exists_linked_update (by simp [hpc]) (h.waiting hw hne)
  | lock hpc ho =>
    refine ⟨h.empty, fun hw hne => ?_⟩
    exact Completing.exists_linked_update (by simp [hpc]) (h.waiting hw hne)
  | @link i r hpc =>
    exact ⟨fun he => absurd hpc (hok he i r rfl), fun _ _ => ⟨i, r, Function.update_self ..⟩⟩
  | notify hpc =>
    show Seen q { s with poller := s.poller.notify, pc := _ }
    constructor
    · intro he
      apply h.empty
      revert he
      cases s.poller <;> simp [FallbackPc.notify]
    · intro hw
      revert hw
      cases s.poller <;> simp [FallbackPc.notify]
  | unlock hpc =>
    refine ⟨h.empty, fun hw hne => ?_⟩
    exact Completing.exists_linked_update (by simp [hpc]) (h.waiting hw hne)
  | poll hp =>
    have hhead := head_of_poll hp h.empty
    exact ⟨fun he => hhead (.inl he), fun hw hne => absurd (hhead (.inr hw)) hne⟩

/-- Every run without a completion in the gap keeps it. -/
theorem seen_of_reach (hs : (system q).Reach Prompt s) : Seen q s := by
  refine hs.invariant (P := Seen q) ?_ fun s a t _ h hok hst => h.step hok hst
  rintro s ⟨-, -, hp⟩
  have hp' : s.poller = .pop := hp
  constructor <;> simp [hp']

/-! ## What a completion in the gap leads to -/

/-- The steps of the poller leave the requests' queues alone. -/
theorem reqQueue_poll {m m' : Heap} {free : Bool} {p p' : FallbackPc} {b : FallbackAct}
    (h : m.fallbackPoll q free p b = some (m', p')) (x : YoReqT) :
    (m'.req x).queue = (m.req x).queue := by
  have hpop := Heap.req_yoiQueuePop m q
  cases b with
  | spurious =>
    simp only [Heap.fallbackPoll] at h
    split at h <;> cases h
    rfl
  | next =>
    cases p with
    | pop =>
      simp only [Heap.fallbackPoll] at h
      split at h
      · split at h <;> rename_i heq <;> cases h <;> rw [heq] at hpop <;> rw [← hpop]
      · cases h
    | empty | woken =>
      simp only [Heap.fallbackPoll] at h
      split at h <;> cases h
      rfl
    | waiting => cases h
    | returned r code =>
      cases h
      rfl

/-- Once a request was linked in the gap, the poller can be left waiting. -/
theorem exists_lost (hs : (system q).Reachable s) (hp : s.poller = .empty)
    (hhead : (s.mem.queue q).head ≠ NULL) :
    ∃ as u, (system q).run s as = some u ∧ LostWakeup q u := by
  obtain ⟨as, t, hrun, -, hpc, ho, hhead', hp'⟩ := Completing.exists_finish
    (R := fun m p => (m.queue q).head ≠ NULL ∧ p = FallbackPc.empty)
    (fun m free p b m' p' h => reqQueue_poll h)
    (fun m p r hR hr hq => ⟨by rw [← hq, Heap.head_endLink]; exact hr, hR.2⟩)
    (fun m p hR => ⟨hR.1, by rw [hR.2]; rfl⟩) hs ⟨hhead, hp⟩
  refine ⟨as ++ [.poll .next], { t with poller := .waiting }, ?_, rfl, hhead', ?_⟩
  · rw [System.run_append, hrun]
    show (Option.map _ (t.mem.fallbackPoll q t.owner.isNone t.poller .next)).bind _ = _
    rw [ho, hp']
    rfl
  · intro i r e hi
    simp [hpc i] at hi

/-- **When no wake-up is lost.**  In a run in which no request is linked while the poller is
between the pop that found nothing and the wait, it never waits beside a request that nobody
will announce to it; and a run in which one is linked there can be continued to such a state. -/
theorem prompt_noLostWakeup :
    (∀ s, (system (ι := ι) q).Reach Prompt s → ¬ LostWakeup q s) ∧
      ∀ s a t, (system (ι := ι) q).Reachable s → (system q).step s a = some t → ¬ Prompt s a →
        ∃ as u, (system q).run t as = some u ∧ LostWakeup q u := by
  constructor
  · intro s hs hlost
    obtain ⟨i, r, hi⟩ := (seen_of_reach hs).waiting hlost.waiting hlost.ready
    exact absurd (hlost.announced i r _ hi) (by decide)
  · intro s a t hs hst hok
    have ht : (system q).Reachable t := hs.step trivial hst
    obtain ⟨hp, i, r, rfl, hpc⟩ : s.poller = .empty ∧ ∃ i r, a = .proceed i ∧
        s.pc i = some (r, .locked) := by
      simpa [Prompt] using hok
    obtain ⟨hr, hq⟩ := Completing.begun (fun m free p b m' p' h => reqQueue_poll h) hs hpc
    obtain rfl : t = { s with
        mem := s.mem.endLink r, pc := Function.update s.pc i (some (r, .linked)) } := by
      simpa [Completing.system, hpc] using hst.symm
    apply exists_lost ht hp
    rw [← hq, Heap.head_endLink]
    exact hr

/-! ## One request, one thread -/

/-- One request of the queue at `0x10`, one thread to complete it, and a poller. -/
def oneRequest : Completing FallbackPc Unit :=
  ⟨Heap.blank.yoReqNew 0x30 0x10, none, fun _ => none, .pop⟩

theorem init_oneRequest : (system 0x10).init oneRequest := ⟨rfl, fun _ => rfl, rfl⟩

/-- The poller found nothing, and the thread is about to link the request. -/
def inGap : List (Completing.Act Unit FallbackAct) :=
  [.poll .next, .enter () 0x30 .ok, .proceed ()]

/-- The poller waits, and the thread has linked the request. -/
def inWait : List (Completing.Act Unit FallbackAct) :=
  [.poll .next, .poll .next, .enter () 0x30 .ok, .proceed (), .proceed ()]

/-- A completion in the gap leaves the poller waiting beside the request. -/
theorem lostWakeup_oneRequest :
    ∃ s, (system 0x10).run oneRequest
        (inGap ++ [.proceed (), .proceed (), .proceed (), .poll .next]) = some s ∧
      LostWakeup 0x10 s := by
  refine ⟨_, rfl, rfl, by decide, fun i r e hi => ?_⟩
  simp at hi

/-- A completion during the wait does not, and one in the gap always can. -/
theorem prompt_noLostWakeup_oneRequest :
    (∃ s, (system 0x10).run oneRequest inWait = some s ∧ s.poller = .waiting ∧
      ¬ LostWakeup 0x10 s) ∧
    ∃ s t as u, (system 0x10).run oneRequest inGap = some s ∧
      (system 0x10).step s (.proceed ()) = some t ∧ (system 0x10).run t as = some u ∧
        LostWakeup 0x10 u := by
  constructor
  · refine ⟨_, rfl, rfl, prompt_noLostWakeup.1 _ ?_⟩
    have h₀ : (system 0x10).Reach Prompt oneRequest := .init init_oneRequest
    have h₁ := h₀.step (a := .poll .next) (fun _ _ _ h => by cases h) rfl
    have h₂ := h₁.step (a := .poll .next) (fun _ _ _ h => by cases h) rfl
    have h₃ := h₂.step (a := .enter () 0x30 .ok) (fun _ _ _ h => by cases h) rfl
    have h₄ := h₃.step (a := .proceed ()) (fun h => absurd h (by decide)) rfl
    exact h₄.step (a := .proceed ()) (fun h => absurd h (by decide)) rfl
  · have hgap : (system 0x10).run oneRequest inGap = some _ := rfl
    obtain ⟨as, u, hrun, hlost⟩ := prompt_noLostWakeup.2 _ (.proceed ()) _
      (System.reachable_of_run init_oneRequest hgap) rfl (fun h => h rfl () 0x30 rfl rfl)
    exact ⟨_, _, as, u, rfl, rfl, hrun, hlost⟩

end Fallback

end Yaooi
