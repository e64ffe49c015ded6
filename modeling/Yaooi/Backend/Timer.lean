import Yaooi.Backend.Deadline

/-!
# One timer for all deadlines

A queue of the epoll backend has one timer among its descriptors.  A call of `yo_queue_poll` with a
deadline sets it, and a call that ends early leaves it set.  The registration of the timer holds its
descriptor in `data.fd`, which is the low half of the union that holds a handle in `data.ptr`, and
`yoi_pl_impl_poll` of `src/unix/epoll.c` tells the two apart by `data.fd`.

* `tellsApart_iff`: which handles and descriptors this works for.
* `noFalseTimeout`: where it works, no call times out early, whatever deadlines earlier calls had.
-/

namespace Yaooi

open Transition

/-! ## Whose event it is -/

/-- An entry of the epoll instance. -/
inductive EpollEntry where
  | timer
  | fd (fd : Int)
  deriving DecidableEq, Repr

/-- `struct epoll_event`, with the 64 bits of the union `data`. -/
structure EpollEvent where
  events : OsCond
  data : BitVec 64

/-- `data.fd` -/
def EpollEvent.fd (evn : EpollEvent) : BitVec 32 := evn.data.setWidth 32

/-- The data of an entry.  What `data.fd = timer_fd` leaves in the upper half is `upper`. -/
def epollData (timerFd upper : BitVec 32) (interest : Interest) : EpollEntry → Option (BitVec 64)
  | .timer => some (upper ++ timerFd)
  | .fd fd => (interest fd).map (·.udata)

/-- How `yoi_pl_impl_poll` goes on when it has an event. -/
inductive EpollTaken where
  /-- `assert(deadline != NULL)` fails. -/
  | aborted
  /-- It reads the timer and returns `YO_ETIMEOUT`. -/
  | timeout
  /-- It returns the user data and the directions. -/
  | event (udata : Ptr) (ready : YoiPlEvnMask)
  deriving DecidableEq, Repr

/-- It takes the event for the timer's. -/
def EpollTaken.isTimer : EpollTaken → Bool
  | .aborted | .timeout => true
  | .event .. => false

/-- The end of `yoi_pl_impl_poll`, from the event on. -/
def epollTake (timerFd : BitVec 32) (deadline : Option YoTime) (evn : EpollEvent) : EpollTaken :=
  if evn.fd = timerFd then
    if deadline = none then .aborted else .timeout
  else .event evn.data evn.events.toMask

/-- An event is taken for the timer's if and only if it comes from the entry of the timer. -/
def TellsApart (timerFd upper : BitVec 32) (interest : Interest) : Prop :=
  ∀ entry evn, epollData timerFd upper interest entry = some evn.data →
    ∀ deadline, (epollTake timerFd deadline evn).isTimer = true ↔ entry = .timer

/-- No registered user data has the descriptor of the timer in its low half. -/
def Apart (timerFd : BitVec 32) (interest : Interest) : Prop :=
  ∀ fd e, interest fd = some e → e.udata.setWidth 32 ≠ timerFd

variable {timerFd upper : BitVec 32} {interest : Interest} {deadline : Option YoTime}
  {evn : EpollEvent}

theorem isTimer_epollTake : (epollTake timerFd deadline evn).isTimer = true ↔ evn.fd = timerFd := by
  unfold epollTake
  split
  · rename_i heq
    split <;> simp [EpollTaken.isTimer, heq]
  · rename_i hne
    simp [EpollTaken.isTimer, hne]

/-- Where no user data has the descriptor in its low half, events can be told apart. -/
theorem Apart.tellsApart (upper : BitVec 32) (h : Apart timerFd interest) :
    TellsApart timerFd upper interest := by
  intro entry evn hdata deadline
  rw [isTimer_epollTake]
  cases entry with
  | timer =>
    have heq : upper ++ timerFd = evn.data := Option.some.inj hdata
    have hlow : (upper ++ timerFd).setWidth 32 = timerFd := by
      rw [BitVec.setWidth_append, dif_pos le_rfl, BitVec.setWidth_eq]
    rw [EpollEvent.fd, ← heq]
    exact iff_of_true hlow rfl
  | fd fd =>
    obtain ⟨e, he, heq⟩ := Option.map_eq_some_iff.mp hdata
    simp [EpollEvent.fd, ← heq, h fd e he]

/-- An event of a handle whose user data has the descriptor in its low half cannot. -/
theorem TellsApart.apart (h : TellsApart timerFd upper interest) : Apart timerFd interest := by
  intro fd e he heq
  have htimer := (h (.fd fd) ⟨⟨true, false, false, false, false, false⟩, e.udata⟩
    (by simp [epollData, he]) none).mp (isTimer_epollTake.mpr heq)
  cases htimer

/-- **Telling events apart.**  For every descriptor the timer may have and every interest list,
an event is taken for the timer's exactly when it comes from the timer, if and only if no registered
user data, the `NULL` of the notify pipe included, has that descriptor in its low half. -/
theorem tellsApart_iff (timerFd upper : BitVec 32) (interest : Interest) :
    TellsApart timerFd upper interest ↔ Apart timerFd interest :=
  ⟨TellsApart.apart, Apart.tellsApart upper⟩

/-- The notify pipe of a queue that was made when descriptor 0 was closed, so that the timer has
this number: what comes through the pipe is taken for the timer's. -/
theorem not_tellsApart_zero :
    ¬ TellsApart 0 0 (Function.update (fun _ => none) 6 (some ⟨⟨true, false⟩, NULL⟩)) := by
  intro h
  exact h.apart 6 ⟨⟨true, false⟩, NULL⟩ (by simp) (by decide)

/-! ## Calls one after the other -/

/-- Where the thread that polls stands. -/
inductive PollPc where
  /-- In no call yet. -/
  | idle
  /-- `yoi_queue_pop` is next. -/
  | pop (deadline : Option YoTime)
  /-- `yoi_pl_impl_poll` is next. -/
  | poll (deadline : Option YoTime)
  /-- In `epoll_wait`. -/
  | waiting (deadline : Option YoTime)
  /-- The assertion has failed. -/
  | aborted
  /-- `yo_queue_poll` has returned; it may be called again. -/
  | returned (deadline : Option YoTime) (step : PollStep)
  deriving DecidableEq, Repr

/-- The memory, what the timer is set to and not yet read, the monotonic clock, and the thread. -/
structure PollCalls where
  mem : Heap
  timer : Option YoTime
  clock : YoTime
  pc : PollPc

/-- What can happen. -/
inductive PollAct where
  /-- Another thread or the caller does something to the memory. -/
  | other (m : Heap)
  /-- Time passes. -/
  | tick (now : YoTime)
  /-- `yo_queue_poll` is called. -/
  | call (deadline : Option YoTime)
  /-- The next step of the call. -/
  | next
  /-- `epoll_wait` returns an event; `ans` and `res` answer what may be done with it. -/
  | wake (entry : EpollEntry) (events : OsCond) (ans res : YoCode)

namespace PollCalls

/-- What becomes of an event. -/
def take (timerFd : BitVec 32) (s : PollCalls) (deadline : Option YoTime) (evn : EpollEvent)
    (ans res : YoCode) : Option PollCalls :=
  match epollTake timerFd deadline evn with
  | .aborted => some { s with pc := .aborted }
  | .timeout =>
    -- `read` takes the expiry, and the timer is not periodic
    some { s with timer := none, pc := .returned deadline (.failed .etimeout) }
  | .event udata ready =>
    (s.mem.pollWait ⟨.event udata ready, ans, res⟩).map fun p =>
      { s with mem := p.1, pc := if p.2 = .again then .pop deadline else .returned deadline p.2 }

/-- Calls of `yo_queue_poll` on the queue `q` of the epoll backend, by one thread. -/
def system (q : YoQueueT) (timerFd upper : BitVec 32) : System PollCalls PollAct where
  init s := s.clock.valid = true ∧ s.pc = .idle
  step s
    | .other m => some { s with mem := m }
    | .tick now =>
      if now.valid && decide (yoTimecmp s.clock now ≤ 0) then some { s with clock := now } else none
    | .call deadline =>
      match s.pc with
      | .idle | .returned .. =>
        if deadline.all fun d => d.nsec < 1000000000 then some { s with pc := .pop deadline }
        else none
      | _ => none
    | .next =>
      match s.pc with
      | .pop deadline =>
        match s.mem.yoiQueuePop q with
        | (m, some (r, code)) =>
          some { s with mem := m, pc := .returned deadline (.returned r code none) }
        | (m, none) => some { s with mem := m, pc := .poll deadline }
      | .poll deadline =>
        if epollLate deadline s.clock then
          some { s with pc := .returned deadline (.failed .etimeout) }
        else
          some { s with
            timer := timerfdSettime s.timer (deadline.getD ⟨0, 0⟩), pc := .waiting deadline }
      | _ => none
    | .wake entry events ans res =>
      match s.pc with
      | .waiting deadline =>
        -- the timer has an event from the time on that it is set to
        if entry = .timer ∧ s.timer.all (fun t => s.clock.ns < t.ns) then none
        else
          (epollData timerFd upper (s.mem.queue q).reg entry).bind fun data =>
            s.take timerFd deadline ⟨events, data⟩ ans res
      | _ => none

variable {q : YoQueueT} {s t : PollCalls} {a : PollAct} {d : YoTime}

/-! ## What is known at each place -/

/-- What is known of a call: it has a normalised deadline; while it waits, the timer is set to that
or not at all; and it has timed out only with a deadline that the clock has reached. -/
def Known (s : PollCalls) : PollPc → Prop
  | .idle => True
  | .pop deadline | .poll deadline => ∀ d, deadline = some d → d.nsec < 1000000000
  | .waiting deadline => (∀ d, deadline = some d → d.nsec < 1000000000) ∧
      ∀ t, s.timer = some t → deadline = some t
  | .aborted => False
  | .returned deadline step => step = .failed .etimeout → ∃ d, deadline = some d ∧ d.ns ≤ s.clock.ns

/-- The invariant. -/
structure Kept (s : PollCalls) : Prop where
  clock : s.clock.valid = true
  known : s.Known s.pc

/-- What is known does not depend on the memory, and outlasts time. -/
theorem Known.mono {pc : PollPc} {m : Heap} {now : YoTime} (h : s.Known pc)
    (hle : s.clock.ns ≤ now.ns) : Known { s with mem := m, clock := now } pc := by
  cases pc with
  | idle => trivial
  | pop deadline | poll deadline | waiting deadline | aborted => exact h
  | returned deadline step =>
    intro hstep
    obtain ⟨d, hd, hns⟩ := h hstep
    exact ⟨d, hd, hns.trans hle⟩

/-- An event with an event to tell of does not time out. -/
theorem pollWait_ne_failed {m m' : Heap} {udata : Ptr} {ready : YoiPlEvnMask}
    {ans res code : YoCode}
    (h : m.pollWait ⟨.event udata ready, ans, res⟩ = some (m', .failed code)) : False := by
  unfold Heap.pollWait at h
  split at h
  · rename_i hpoll
    cases hpoll
  · split at h
    · cases h
    · obtain ⟨r, -, hr⟩ := Option.map_eq_some_iff.mp h
      split at hr <;> cases hr

/-- The timer is set for the deadline that the clock has not passed, or not at all. -/
theorem timerfdSettime_deadline {timer deadline : Option YoTime} {now : YoTime}
    (hnow : now.valid = true) (hlate : epollLate deadline now = false)
    (hnormal : ∀ d, deadline = some d → d.nsec < 1000000000) {t : YoTime}
    (h : timerfdSettime timer (deadline.getD ⟨0, 0⟩) = some t) : deadline = some t := by
  cases deadline with
  | none => exact absurd h (by simp [timerfdSettime, YoTime.valid])
  | some d =>
    simp only [YoTime.valid, Bool.and_eq_true, decide_eq_true_eq] at hnow
    have hcmp : ¬ 0 < yoTimecmp now d := by simpa [epollLate] using hlate
    have hsec : 0 ≤ d.sec := by
      by_contra hneg
      apply hcmp
      have hne : now.sec ≠ d.sec := by omega
      have hlt : ¬ now.sec < d.sec := by omega
      simp [yoTimecmp, hne, hlt]
    have hvalid : d.valid = true := by simpa [YoTime.valid, hsec] using hnormal d rfl
    simp only [timerfdSettime, Option.getD_some, hvalid, if_true] at h
    split at h
    · cases h
    · exact h

/-- A late call has a deadline that the clock has passed. -/
theorem exists_of_epollLate {deadline : Option YoTime} {now : YoTime} (hnow : now.valid = true)
    (hnormal : ∀ d, deadline = some d → d.nsec < 1000000000)
    (h : epollLate deadline now = true) : ∃ d, deadline = some d ∧ d.ns ≤ now.ns := by
  cases deadline with
  | none => cases h
  | some d =>
    simp only [YoTime.valid, Bool.and_eq_true, decide_eq_true_eq] at hnow
    have hcmp : 0 < yoTimecmp now d := by simpa [epollLate] using h
    exact ⟨d, rfl, ((yoTimecmp_pos_iff hnow.2 (hnormal d rfl)).mp hcmp).le⟩

/-- What becomes of an event, where events can be told apart. -/
theorem Known.take {deadline : Option YoTime} {entry : EpollEntry} {data : BitVec 64}
    {events : OsCond} {ans res : YoCode} (h : s.Known (.waiting deadline))
    (hapart : Apart timerFd (s.mem.queue q).reg)
    (hdata : epollData timerFd upper (s.mem.queue q).reg entry = some data)
    (hready : ¬ (entry = .timer ∧ s.timer.all (fun t => s.clock.ns < t.ns) = true))
    (ht : s.take timerFd deadline ⟨events, data⟩ ans res = some t) :
    t.clock = s.clock ∧ t.Known t.pc := by
  have htimer := hapart.tellsApart upper entry ⟨events, data⟩ hdata deadline
  -- the timer has an event only when it is set, to the deadline of the call, and that has come
  have hexpired : entry = .timer → ∃ d, deadline = some d ∧ d.ns ≤ s.clock.ns := by
    intro he
    cases hset : s.timer with
    | none => exact absurd ⟨he, by simp [hset]⟩ hready
    | some d => exact ⟨d, h.2 d hset, by simpa [he, hset] using hready⟩
  unfold PollCalls.take at ht
  cases htaken : epollTake timerFd deadline ⟨events, data⟩ with
  | aborted =>
    rw [htaken] at htimer
    obtain ⟨d, hd, -⟩ := hexpired (htimer.mp rfl)
    unfold epollTake at htaken
    split at htaken
    · rw [hd] at htaken
      cases htaken
    · cases htaken
  | timeout =>
    rw [htaken] at htimer ht
    cases ht
    exact ⟨rfl, fun _ => hexpired (htimer.mp rfl)⟩
  | event udata ready =>
    rw [htaken] at ht
    obtain ⟨⟨m, step⟩, hwait, rfl⟩ := Option.map_eq_some_iff.mp ht
    refine ⟨rfl, ?_⟩
    cases step with
    | again => exact h.1
    | failed code => exact (pollWait_ne_failed hwait).elim
    | returned r code ran => exact fun hstep => by cases hstep

/-- Time passes. -/
theorem Kept.tick {now : YoTime} (h : Kept s)
    (hst : (system q timerFd upper).step s (.tick now) = some t) : Kept t := by
  obtain ⟨hclock, hknown⟩ := h
  simp only [system] at hst
  split at hst
  · rename_i hok
    cases hst
    simp only [Bool.and_eq_true, decide_eq_true_eq] at hok
    have hnormal : ∀ t : YoTime, t.valid = true → t.normal := by
      intro t h
      simpa [YoTime.valid, YoTime.normal] using (Bool.and_eq_true_iff.mp h).2
    have hle : s.clock.ns ≤ now.ns := by
      by_contra hlt
      have hpos := (yoTimecmp_pos_iff (hnormal _ hclock) (hnormal _ hok.1)).mpr (not_le.mp hlt)
      omega
    exact ⟨hok.1, hknown.mono hle⟩
  · cases hst

/-- A call begins. -/
theorem Kept.call {deadline : Option YoTime} (h : Kept s)
    (hst : (system q timerFd upper).step s (.call deadline) = some t) : Kept t := by
  obtain ⟨hclock, -⟩ := h
  have hcall : ∀ u, (if deadline.all fun d => d.nsec < 1000000000 then
      some { s with pc := PollPc.pop deadline } else none) = some u → Kept u := by
    intro u hu
    split at hu
    · rename_i hall
      cases hu
      refine ⟨hclock, fun d hd => ?_⟩
      simpa [hd] using hall
    · cases hu
  cases hpc : s.pc with
  | idle | returned deadline step =>
    simp only [system, hpc] at hst
    exact hcall t hst
  | pop | poll | waiting | aborted => simp [system, hpc] at hst

/-- The thread goes on. -/
theorem Kept.next (h : Kept s) (hst : (system q timerFd upper).step s .next = some t) :
    Kept t := by
  obtain ⟨hclock, hknown⟩ := h
  cases hpc : s.pc with
  | pop deadline =>
    rw [hpc] at hknown
    simp only [system, hpc] at hst
    split at hst
    · cases hst
      exact ⟨hclock, fun h => by cases h⟩
    · cases hst
      exact ⟨hclock, hknown⟩
  | poll deadline =>
    rw [hpc] at hknown
    simp only [system, hpc] at hst
    split at hst
    · rename_i hlate
      cases hst
      exact ⟨hclock, fun _ => exists_of_epollLate hclock hknown hlate⟩
    · rename_i hlate
      cases hst
      refine ⟨hclock, hknown, fun t ht => ?_⟩
      exact timerfdSettime_deadline hclock (by simpa using hlate) hknown ht
  | idle | waiting | aborted | returned => simp [system, hpc] at hst

/-- `epoll_wait` returns, where events can be told apart. -/
theorem Kept.wake {entry : EpollEntry} {events : OsCond} {ans res : YoCode} (h : Kept s)
    (hapart : Apart timerFd (s.mem.queue q).reg)
    (hst : (system q timerFd upper).step s (.wake entry events ans res) = some t) : Kept t := by
  obtain ⟨hclock, hknown⟩ := h
  cases hpc : s.pc with
  | waiting deadline =>
    rw [hpc] at hknown
    simp only [system, hpc] at hst
    split at hst
    · cases hst
    · rename_i hready
      obtain ⟨data, hdata, ht⟩ := Option.bind_eq_some_iff.mp hst
      obtain ⟨hsame, hknown⟩ := hknown.take hapart hdata hready ht
      exact ⟨hsame ▸ hclock, hknown⟩
  | idle | pop | poll | aborted | returned => simp [system, hpc] at hst

/-- **One step keeps it**, where events can be told apart. -/
theorem Kept.step (h : Kept s) (hapart : Apart timerFd (s.mem.queue q).reg)
    (hst : (system q timerFd upper).step s a = some t) : Kept t := by
  cases a with
  | other m =>
    cases hst
    exact ⟨h.clock, h.known.mono le_rfl⟩
  | tick now => exact h.tick hst
  | call deadline => exact h.call hst
  | next => exact h.next hst
  | wake entry events ans res => exact h.wake hapart hst

/-- **No call times out early.**  In every run in which the descriptor of the timer is the low half
of no registered user data: the assertion never fails, a call without a deadline meets no event of
the timer and never times out, and a call with a deadline times out only when the clock has reached
it, whatever deadlines earlier calls had. -/
theorem noFalseTimeout {q : YoQueueT} {timerFd upper : BitVec 32} {s : PollCalls}
    (hs : (system q timerFd upper).Reach (fun s _ => Apart timerFd (s.mem.queue q).reg) s) :
    s.pc ≠ .aborted ∧
      (s.pc = .waiting none → ∀ events ans res,
        (system q timerFd upper).step s (.wake .timer events ans res) = none) ∧
      s.pc ≠ .returned none (.failed .etimeout) ∧
      ∀ d, s.pc = .returned (some d) (.failed .etimeout) → d.ns ≤ s.clock.ns := by
  have hkept : Kept s := by
    refine hs.invariant (P := Kept) ?_ fun s a t _ h hok hst => h.step hok hst
    rintro s ⟨hclock, hpc⟩
    exact ⟨hclock, hpc ▸ trivial⟩
  have hknown := hkept.known
  refine ⟨fun hpc => ?_, fun hpc events ans res => ?_, fun hpc => ?_, fun d hpc => ?_⟩
  · rw [hpc] at hknown
    exact hknown
  · rw [hpc] at hknown
    have hunset : s.timer = none := Option.eq_none_iff_forall_ne_some.mpr fun t ht => by
      cases hknown.2 t ht
    simp [system, hpc, hunset]
  · rw [hpc] at hknown
    obtain ⟨d, hd, -⟩ := hknown rfl
    cases hd
  · rw [hpc] at hknown
    obtain ⟨d', hd, hns⟩ := hknown rfl
    cases hd
    exact hns

/-! ## A deadline that is left -/

/-- A queue at `0x10` without a request, before its first call. -/
def quiet : PollCalls := ⟨Heap.blank, none, ⟨7, 0⟩, .idle⟩

/-- A call with the deadline 9 that ends when a request is completed; the timer stays set. -/
def leftEarly : List PollAct :=
  [.call (some ⟨9, 0⟩), .next, .next, .other ((Heap.blank.yoReqNew 0x30 0x10).yoiReqEnd 0x30 .ok),
    .wake (.fd 3) ⟨true, false, false, false, false, false⟩ .ok .ok, .next]

/-- A call that waits. -/
def thenWaits (deadline : Option YoTime) : List PollAct := [.call deadline, .next, .next]

/-- A call that waits until the timer has an event. -/
def thenTimesOut (deadline : YoTime) : List PollAct :=
  thenWaits (some deadline) ++
    [.tick deadline, .wake .timer ⟨true, false, false, false, false, false⟩ .ok .ok]

theorem apart_freshReg : Apart 5 (Heap.freshReg 3) := by
  intro fd e he
  by_cases hfd : fd = 3
  · simp only [Heap.freshReg, hfd, Function.update_self, Option.some.injEq] at he
    rw [← he]
    decide
  · simp [Heap.freshReg, hfd] at he

/-- The timer is set to 9 when a call without a deadline comes, which never meets an event of it,
and when a call with the deadline 8 comes, which times out at 8. -/
theorem noFalseTimeout_leftEarly :
    (∃ s, (system 0x10 5 0).run quiet (leftEarly ++ thenWaits none) = some s ∧
      ∀ events ans res, (system 0x10 5 0).step s (.wake .timer events ans res) = none) ∧
    ∃ s, (system 0x10 5 0).run quiet (leftEarly ++ thenTimesOut ⟨8, 0⟩) = some s ∧
      s.pc = .returned (some ⟨8, 0⟩) (.failed .etimeout) ∧ (⟨8, 0⟩ : YoTime).ns ≤ s.clock.ns := by
  have hinit : (system 0x10 5 0).init quiet := ⟨rfl, rfl⟩
  constructor
  · have hrun : (system 0x10 5 0).run quiet (leftEarly ++ thenWaits none) = some _ := rfl
    refine ⟨_, hrun, (noFalseTimeout (System.reach_of_run (.init hinit) ?_ hrun)).2.1 rfl⟩
    iterate 9
      refine ⟨apart_freshReg, fun _ h => ?_⟩
      cases h
    trivial
  · have hrun : (system 0x10 5 0).run quiet (leftEarly ++ thenTimesOut ⟨8, 0⟩) = some _ := rfl
    refine ⟨_, hrun, rfl, (noFalseTimeout (System.reach_of_run (.init hinit) ?_ hrun)).2.2.2 _ rfl⟩
    iterate 11
      refine ⟨apart_freshReg, fun _ h => ?_⟩
      cases h
    trivial

end PollCalls

end Yaooi
