import Yaooi.Queue.Calls
import Yaooi.Threads.Completion

/-!
# The notify pipe of the polling backend

`yo_queue_poll` of `src/unix/pollish.c` on the epoll backend, step by step, beside any number of
threads that complete requests: the pop, the clock test and the arming of the timer, the wait
of the OS, and the loop that drains the pipe.  `yoi_queue_impl_notify` writes a byte while the
queue's lock is held; a byte that a full pipe refuses is not missed.

The step that follows a wait is `Heap.pollWait`, the same that `yoQueuePollRound` takes after its
pop.

* `byte_pending` is the absence of lost wake-ups.
-/

namespace Yaooi

open Transition Mutex

/-! ## The pipe -/

/-- The notify pipe, with room for at least one byte. -/
structure Pipe where
  capacity : ℕ
  capacity_pos : 0 < capacity
  /-- The unread bytes. -/
  bytes : ℕ
  bytes_le : bytes ≤ capacity

namespace Pipe

/-- A write of one byte to the non-blocking end.  A full pipe refuses it with `EWOULDBLOCK`, which
`yoi_queue_impl_notify` passes over. -/
def write (p : Pipe) : Pipe :=
  if h : p.bytes < p.capacity then { p with bytes := p.bytes + 1, bytes_le := h } else p

/-- A read of up to `n` bytes. -/
def read (p : Pipe) (n : ℕ) : Pipe :=
  { p with bytes := p.bytes - n, bytes_le := (Nat.sub_le ..).trans p.bytes_le }

/-- After a write there is something to read, whether it was refused or not. -/
theorem bytes_write_pos (p : Pipe) : 0 < p.write.bytes := by
  unfold write
  split
  · exact Nat.succ_pos _
  · rename_i hfull
    exact p.capacity_pos.trans_le (not_lt.mp hfull)

end Pipe

/-! ## The poller -/

/-- Where the poller stands in `yo_queue_poll`. -/
inductive PipePc where
  /-- `yoi_queue_pop` is next. -/
  | pop
  /-- The list was found empty; the clock test and the setting of the timer are next. -/
  | arm
  /-- In `epoll_wait`. -/
  | osWait
  /-- In the loop that reads the pipe. -/
  | drain
  /-- `yo_queue_poll` returned; it may be called again. -/
  | returned (step : PollStep)
  deriving DecidableEq, Repr

/-- The notify pipe and the place of the poller. -/
structure PipeState where
  pipe : Pipe
  pc : PipePc

/-- What the poller can do. -/
inductive PipeAct where
  /-- A step that the OS has no say in. -/
  | next
  /-- The clock test, whether the deadline has passed, and the setting of the timer. -/
  | arm (late : Bool)
  /-- The wait of the OS ends. -/
  | wait (env : PollEnv)

/-- The wait ends because the notify pipe can be read: it is registered with null user data. -/
def PollEnv.notifies (env : PollEnv) : Bool :=
  match env.poll with
  | .error _ => false
  | .event udata _ => udata = NULL

/-- Where the poller goes after a wait. -/
def PipePc.afterWait (env : PollEnv) : PollStep → PipePc
  | .again => if env.notifies then .drain else .pop
  | step => .returned step

/-- A step of the poller of the queue `q`, `free` telling whether the queue's lock is free.  The OS
reports the notify pipe only if a byte is in it. -/
def Heap.pipePoll (q : YoQueueT) (m : Heap) (free : Bool) (s : PipeState) :
    PipeAct → Option (Heap × PipeState)
  | .next =>
    match s.pc with
    | .pop =>
      if free then
        match m.yoiQueuePop q with
        | (m, none) => some (m, { s with pc := .arm })
        | (m, some (r, code)) => some (m, { s with pc := .returned (.returned r code none) })
      else none
    | .arm => none
    | .osWait => none
    | .drain =>
      -- the read that finds nothing fails with `EWOULDBLOCK` and ends the loop
      if s.pipe.bytes = 0 then some (m, { s with pc := .pop })
      else some (m, { s with pipe := s.pipe.read 1024 })
    | .returned _ => some (m, { s with pc := .pop })
  | .arm late =>
    if s.pc = .arm then
      some (m, { s with pc := if late then .returned (.failed .etimeout) else .osWait })
    else none
  | .wait env =>
    if s.pc = .osWait ∧ (env.notifies = true → 0 < s.pipe.bytes) then
      (m.pollWait env).map fun p => (p.1, { s with pc := .afterWait env p.2 })
    else none

/-- The polling backend of the queue `q`. -/
def pollish (q : YoQueueT) : Backend PipeState PipeAct where
  init s := s.pc = .pop
  notify s := { s with pipe := s.pipe.write }
  poll := Heap.pipePoll q

namespace NotifyPipe

variable {ι : Type*} [DecidableEq ι]

/-- A run of the completing threads and the poller. -/
abbrev system (q : YoQueueT) : System (Completing PipeState ι) (Completing.Act ι PipeAct) :=
  Completing.system q (pollish q)

variable {q : YoQueueT} {s t : Completing PipeState ι} {a : Completing.Act ι PipeAct}

/-- The poller is between a pop that found nothing and the end of the wait that follows. -/
def Window (p : PipePc) : Prop := p = .arm ∨ p = .osWait

/-! ## What the poller does -/

/-- A step of the poller that leads into the window starts in it and reads nothing, or finds the
list empty. -/
theorem window_poll {m m' : Heap} {free : Bool} {p p' : PipeState} {b : PipeAct}
    (h : m.pipePoll q free p b = some (m', p')) (hp' : Window p'.pc) :
    (m'.queue q).head = NULL ∨ (Window p.pc ∧ m' = m ∧ p'.pipe = p.pipe) := by
  cases b with
  | next =>
    simp only [Heap.pipePoll] at h
    split at h
    · split at h
      · split at h
        · rename_i hpop
          cases h
          obtain ⟨rfl, hhead⟩ := Heap.yoiQueuePop_eq_none hpop
          exact .inl hhead
        · cases h
          simp [Window] at hp'
      · cases h
    · cases h
    · cases h
    · rename_i hpc
      split at h <;> cases h
      · simp [Window] at hp'
      · simp [Window, hpc] at hp'
    · cases h
      simp [Window] at hp'
  | arm late =>
    simp only [Heap.pipePoll] at h
    split at h <;> cases h
    rename_i hpc
    exact .inr ⟨.inl hpc, rfl, rfl⟩
  | wait env =>
    simp only [Heap.pipePoll] at h
    split at h
    · obtain ⟨⟨m₁, step⟩, -, h⟩ := Option.map_eq_some_iff.mp h
      cases h
      cases step <;> simp only [PipePc.afterWait, Window] at hp'
      · split at hp' <;> simp at hp'
      all_goals simp at hp'
    · cases h

/-! ## The invariant -/

/-- In the window, a nonempty list is announced by a byte in the pipe or by a thread that has
linked a request and not yet notified. -/
def Announced (q : YoQueueT) (s : Completing PipeState ι) : Prop :=
  Window s.poller.pc → (s.mem.queue q).head ≠ NULL →
    0 < s.poller.pipe.bytes ∨ ∃ i r, s.pc i = some (r, .linked)

/-- One step keeps it. -/
theorem Announced.step (h : Announced q s) (hst : (system q).step s a = some t) :
    Announced q t := by
  cases Completing.step_cases hst with
  | enter hpc hq hr =>
    exact fun hw hne => (h hw hne).imp_right (Completing.exists_linked_update (by simp [hpc]))
  | lock hpc ho =>
    exact fun hw hne => (h hw hne).imp_right (Completing.exists_linked_update (by simp [hpc]))
  | @link i r hpc => exact fun _ _ => .inr ⟨i, r, Function.update_self ..⟩
  | notify hpc => exact fun _ _ => .inl s.poller.pipe.bytes_write_pos
  | unlock hpc =>
    exact fun hw hne => (h hw hne).imp_right (Completing.exists_linked_update (by simp [hpc]))
  | poll hp =>
    intro hw hne
    rcases window_poll hp hw with hnull | ⟨hw', rfl, hpipe⟩
    · exact absurd hnull hne
    · rw [hpipe]
      exact h hw' hne

/-- It holds in every reachable state. -/
theorem announced_of_reachable (hs : (system q).Reachable s) : Announced q s := by
  refine hs.invariant (P := Announced q) ?_ fun s a t _ h _ hst => h.step hst
  rintro s ⟨-, -, hp⟩ hw
  have hp' : s.poller.pc = .pop := hp
  simp [Window, hp'] at hw

/-- **No lost wake-up.**  While the poller is between a pop that found nothing and the end of its
next wait, and no completing thread is in its critical section, a nonempty ready list comes with
an unread byte in the notify pipe; so the wait of the OS can end. -/
theorem byte_pending (hs : (system q).Reachable s) (hw : Window s.poller.pc)
    (hout : ∀ i, ¬ Completing.Inside s.pc i) (hhead : (s.mem.queue q).head ≠ NULL) :
    0 < s.poller.pipe.bytes ∧ (s.poller.pc = .osWait → ∀ ready ans res,
      ((system q).step s (.poll (.wait ⟨.event NULL ready, ans, res⟩))).isSome = true) := by
  have hbytes : 0 < s.poller.pipe.bytes := by
    rcases announced_of_reachable hs hw hhead with hbytes | ⟨i, r, hi⟩
    · exact hbytes
    · exact absurd (by simp [Completing.Inside, hi, EndPc.inside]) (hout i)
  refine ⟨hbytes, fun hpc ready ans res => ?_⟩
  simp [Completing.system, pollish, Heap.pipePoll, hpc, hbytes, Heap.pollWait]

/-! ## One request, one thread -/

/-- One request of the queue at `0x10`, one thread to complete it, and a poller with an empty
pipe. -/
def oneRequest : Completing PipeState Unit :=
  ⟨Heap.blank.yoReqNew 0x30 0x10, none, fun _ => none,
    ⟨⟨65536, by decide, 0, by decide⟩, .pop⟩⟩

theorem init_oneRequest : (system 0x10).init oneRequest := ⟨rfl, fun _ => rfl, rfl⟩

/-- The thread completes the request between the pop and the wait. -/
def completed : List (Completing.Act Unit PipeAct) :=
  [.poll .next, .enter () 0x30 .ok, .proceed (), .proceed (), .proceed (), .proceed (),
    .poll (.arm false)]

/-- The wait that follows a completion ends. -/
theorem byte_pending_oneRequest :
    ∃ s, (system 0x10).run oneRequest completed = some s ∧ s.poller.pc = .osWait ∧
      (s.mem.queue 0x10).head ≠ NULL ∧ 0 < s.poller.pipe.bytes := by
  have hrun : (system 0x10).run oneRequest completed = some _ := rfl
  have hs := System.reachable_of_run init_oneRequest hrun
  refine ⟨_, hrun, rfl, by decide, (byte_pending hs (.inr rfl) ?_ (by decide)).1⟩
  simp [Completing.Inside]

end NotifyPipe

end Yaooi
