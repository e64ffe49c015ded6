import Yaooi.Backend.Registration
import Yaooi.Backend.Time
import Yaooi.Queue.Calls

/-!
# Polling with a deadline on the two backends

`yoi_pl_impl_poll` of `src/unix/epoll.c` and of `src/unix/poll.c`.  The first reads the clock and
gives up before it looks at any descriptor when the deadline has passed; then it has the
expiry of the deadline reported by a timer among the descriptors, of which the kernel picks
one.  The second turns the deadline into a timeout that is never negative, and always looks.

`inc/yaooi/queue.h` recommends a deadline that is the current time as a way to poll without
blocking.

* `honestTimeout_iff`: on the poll backend a timeout always means that nothing was ready when
  `yo_queue_poll` was called; on the epoll backend it means so only where there is no deadline, or
  nothing to deliver.
* `not_honestTimeout_oneRead` is the recommended call with a readable descriptor.
-/

namespace Yaooi

/-! ## What the OS sees -/

/-- The condition of a descriptor, or the part of it that the OS reports: the flags `IN`, `OUT`,
`RDHUP`, `ERR`, `HUP`, and `NVAL` for one that is not open. -/
structure OsCond where
  input : Bool
  output : Bool
  rdhup : Bool
  error : Bool
  hangup : Bool
  nval : Bool
  deriving DecidableEq, Repr

namespace OsCond

/-- An operation of a direction in the mask would not block. -/
def readyFor (c : OsCond) (mask : YoiPlEvnMask) : Bool :=
  (mask.readable && c.input) || (mask.writable && c.output) || c.error || c.hangup

/-- Something is reported. -/
def any (c : OsCond) : Bool :=
  c.input || c.output || c.rdhup || c.error || c.hangup || c.nval

/-- What `epoll_wait` reports of an entry, for which `RDHUP` is always asked.  A descriptor that is
not open has no entry. -/
def epollEvents (c : OsCond) (mask : YoiPlEvnMask) : OsCond :=
  { c with
    input := mask.readable && c.input
    output := mask.writable && c.output
    nval := false }

/-- What `poll` stores in `revents`. -/
def revents (c : OsCond) (mask : YoiPlEvnMask) : OsCond :=
  { c with
    input := mask.readable && c.input
    output := mask.writable && c.output
    rdhup := false }

/-- The directions that both backends conclude from the flags. -/
def toMask (c : OsCond) : YoiPlEvnMask where
  readable := c.rdhup || c.error || c.hangup || c.input
  writable := c.rdhup || c.error || c.hangup || c.output

/-- What is ready is reported. -/
theorem toMask_revents_ne_zero {c : OsCond} {mask : YoiPlEvnMask} (h : c.readyFor mask = true) :
    (c.revents mask).toMask ≠ .zero := by
  intro hz
  simp only [toMask, revents, YoiPlEvnMask.zero, YoiPlEvnMask.mk.injEq,
    Bool.or_eq_false_iff] at hz
  simp [readyFor, hz] at h

end OsCond

/-- What a call of `yoi_pl_impl_poll` meets.  A wait that a signal interrupts is made again, so only
the last one counts. -/
structure Look where
  /-- The clock, as the function reads it. -/
  now : YoTime
  /-- The clock at the end of the wait. -/
  later : YoTime
  /-- The condition of each descriptor then. -/
  os : Int → OsCond
  /-- The entry that `epoll_wait` picks: a descriptor, or the timer. -/
  pick : Option Int
  /-- The array for `poll` cannot be made large enough. -/
  nomem : Bool

/-! ## `src/unix/epoll.c` -/

/-- The clock test of the epoll backend. -/
def epollLate (deadline : Option YoTime) (now : YoTime) : Bool :=
  match deadline with
  | some d => 0 < yoTimecmp now d
  | none => false

/-- `timerfd_settime`: when the timer expires.  Zero disarms it, and a time that is not valid leaves
it as it was. -/
def timerfdSettime (timer : Option YoTime) (value : YoTime) : Option YoTime :=
  if value.valid then (if value = ⟨0, 0⟩ then none else some value) else timer

/-- `epoll_wait`: the data and the events of the entry it picks, none while that is not ready. -/
def epollWait (timerFd : BitVec 32) (interest : Interest) (timer : Option YoTime)
    (look : Look) : Option (BitVec 64 × OsCond) :=
  match look.pick with
  | none =>
    match timer with
    | some t =>
      if t.ns ≤ look.later.ns then
        some (timerFd.setWidth 64, ⟨true, false, false, false, false, false⟩)
      else none
    | none => none
  | some fd =>
    match interest fd with
    | some e =>
      let evn := (look.os fd).epollEvents e.mask
      if evn.any then some (e.udata, evn) else none
    | none => none

/-- `yoi_pl_impl_poll` of the epoll backend, none while it waits and where its assertion fails.  The
timer comes as the last call left it. -/
def epollPoll (timerFd : BitVec 32) (interest : Interest) (timer deadline : Option YoTime)
    (look : Look) : Option OsPoll :=
  if epollLate deadline look.now then some (.error .etimeout)
  else
    let timer := timerfdSettime timer (deadline.getD ⟨0, 0⟩)
    match epollWait timerFd interest timer look with
    | none => none
    | some (data, evn) =>
      -- `evn.data.fd` is the low half of the data
      if data.setWidth 32 = timerFd then
        if deadline = none then none else some (.error .etimeout)
      else some (.event data evn.toMask)

/-! ## `src/unix/poll.c` -/

/-- How long the OS is asked to wait. -/
inductive OsTimeout where
  | forever
  /-- For `ppoll`, on Linux. -/
  | timespec (t : YoTime)
  /-- Milliseconds, an `int`, for `poll`; a negative number stands for ever. -/
  | millis (n : BitVec 32)
  deriving DecidableEq, Repr

namespace OsTimeout

/-- The timeout that `_yoi_poll_wrapper` asks for, when the clock stands at `now`. -/
def ofDeadline (linux : Bool) (deadline : Option YoTime) (now : YoTime) : OsTimeout :=
  match deadline with
  | none => .forever
  | some d =>
    let diff := yoTimesub d now
    if linux then .timespec (if diff.sec < 0 then ⟨0, 0⟩ else diff)
    else
      let diffMs := yoTimems diff
      .millis (BitVec.ofInt 32 (if diffMs < 0 then 0 else diffMs))

/-- The OS takes it. -/
def valid : OsTimeout → Bool
  | .timespec t => t.valid
  | .forever | .millis _ => true

/-- A wait that began at `now` has run out by `later`. -/
def elapsed (now later : YoTime) : OsTimeout → Bool
  | .forever => false
  | .timespec t => now.ns + t.ns ≤ later.ns
  | .millis n => 0 ≤ n.toInt && now.ns + n.toInt * 1000000 ≤ later.ns

end OsTimeout

/-- `_yoi_poll_wrapper`: the number of descriptors with something to report, none while it waits
and where its assertion fails. -/
def yoiPollWrapper (linux : Bool) (deadline : Option YoTime) (fds : List OsCond) (look : Look) :
    Option ℕ :=
  let timeout := OsTimeout.ofDeadline linux deadline look.now
  let n := fds.countP OsCond.any
  if timeout.valid && (0 < n || timeout.elapsed look.now look.later) then some n else none

/-- `yoi_pl_impl_poll` of the poll backend, none while it waits and where the assertion of the wait
fails.  Each node has its entry in the array, in the order of the list. -/
def pollPoll (linux : Bool) (l : PollNodes) (deadline : Option YoTime) (look : Look) :
    Option OsPoll :=
  if look.nomem then some (.error .enomem)
  else
    let fds := l.nodes.map fun i => (i, (look.os i.fd).revents i.evn)
    -- the number is not looked at
    (yoiPollWrapper linux deadline (fds.map Prod.snd) look).map fun _ =>
      match fds.find? fun p => p.2.toMask ≠ .zero with
      | some (i, revents) => .event i.udata revents.toMask
      | none => .error .etimeout

/-! ## What a timeout says -/

/-- The rounds of a call of `yo_queue_poll` that begins at `start`, with the descriptors in the
condition `os`: the clock never goes back, and what is ready stays ready, since no operation
is performed before the call returns. -/
structure Valid (start : YoTime) (os : Int → OsCond) (looks : List Look) : Prop where
  start : ∀ look ∈ looks, start.upto look.now ∧ look.now.upto look.later
  clock : looks.Pairwise fun a b => a.later.upto b.now
  persists : ∀ look ∈ looks, ∀ fd mask, (os fd).readyFor mask = true →
    (look.os fd).readyFor mask = true

/-- In every call of `yo_queue_poll` over the backend `impl`, `YO_ETIMEOUT` means that at the
call the ready list was empty and no descriptor registered for a handle was ready. -/
def HonestTimeout (impl : Look → Option OsPoll) (reg : Int → Option Registration) (m : Heap)
    (q : YoQueueT) (start : YoTime) (os : Int → OsCond) : Prop :=
  ∀ (rounds : List (Look × PollEnv)) (m' : Heap), Valid start os (rounds.map Prod.fst) →
    (∀ p ∈ rounds, impl p.1 = some p.2.poll) →
      m.yoQueuePoll q (rounds.map Prod.snd) = some (m', .failed .etimeout) →
        (m.queue q).head = NULL ∧ ∀ fd e, reg fd = some e → e.udata ≠ NULL →
          (os fd).readyFor e.mask = false

namespace Heap

variable {m m' : Heap} {q : YoQueueT} {env : PollEnv} {envs : List PollEnv} {code : YoCode}

/-- A round that ends without a result pops nothing and leaves the memory alone. -/
theorem yoQueuePollRound_again (h : m.yoQueuePollRound q env = some (m', .again)) : m' = m := by
  rw [yoQueuePollRound_eq] at h
  split at h
  · cases h
  · rename_i m₁ hpop
    obtain ⟨rfl, -⟩ := yoiQueuePop_eq_none hpop
    unfold pollWait at h
    split at h
    · cases h
    · split at h
      · cases h
        rfl
      · obtain ⟨r, -, hr⟩ := Option.map_eq_some_iff.mp h
        split at hr <;> cases hr
        rfl

/-- A call that fails found its list empty, and some round of it was told the code. -/
theorem yoQueuePoll_failed (h : m.yoQueuePoll q envs = some (m', .failed code)) :
    (m.queue q).head = NULL ∧ ∃ env ∈ envs, env.poll = .error code := by
  induction envs with
  | nil => cases h
  | cons env envs ih =>
    unfold yoQueuePoll at h
    split at h
    · rename_i m₁ hround
      obtain rfl := yoQueuePollRound_again hround
      obtain ⟨hhead, e, he, hpoll⟩ := ih h
      exact ⟨hhead, e, List.mem_cons_of_mem _ he, hpoll⟩
    · rw [yoQueuePollRound_eq] at h
      split at h
      · cases h
      · rename_i hpop
        refine ⟨(yoiQueuePop_eq_none hpop).2, env, List.mem_cons_self .., ?_⟩
        unfold pollWait at h
        split at h
        · rename_i hpoll
          cases h
          exact hpoll
        · split at h
          · cases h
          · obtain ⟨r, -, hr⟩ := Option.map_eq_some_iff.mp h
            split at hr <;> cases hr

end Heap

/-! ## When a timeout is honest -/

section

variable {m : Heap} {q : YoQueueT} {start : YoTime} {os : Int → OsCond} {deadline : Option YoTime}

/-- A call that times out found its list empty, and in some round the backend said so. -/
theorem exists_timeout {impl : Look → Option OsPoll} {rounds : List (Look × PollEnv)} {m' : Heap}
    (himpl : ∀ p ∈ rounds, impl p.1 = some p.2.poll)
    (h : m.yoQueuePoll q (rounds.map Prod.snd) = some (m', .failed .etimeout)) :
    (m.queue q).head = NULL ∧
      ∃ look ∈ rounds.map Prod.fst, impl look = some (.error .etimeout) := by
  obtain ⟨hhead, env, henv, hpoll⟩ := Heap.yoQueuePoll_failed h
  obtain ⟨p, hp, rfl⟩ := List.mem_map.mp henv
  exact ⟨hhead, p.1, List.mem_map.mpr ⟨p, hp, rfl⟩, hpoll ▸ himpl p hp⟩

/-- **On the poll backend a timeout is honest**, whatever the deadline. -/
theorem honestTimeout_poll (linux : Bool) (l : PollNodes) :
    HonestTimeout (pollPoll linux l deadline) l.reg m q start os := by
  intro rounds m' hvalid himpl h
  obtain ⟨hhead, look, hlook, htimeout⟩ := exists_timeout himpl h
  refine ⟨hhead, fun fd e he _ => ?_⟩
  rw [Bool.eq_false_iff]
  intro hready
  obtain ⟨i, hi, rfl⟩ := Option.map_eq_some_iff.mp he
  have hfd : i.fd = fd := by simpa using List.find?_some hi
  have hmem : i ∈ l.nodes := List.mem_of_find?_eq_some hi
  have hnow : (look.os i.fd).readyFor i.evn = true :=
    hvalid.persists look hlook i.fd i.evn (hfd ▸ hready)
  simp only [pollPoll] at htimeout
  split at htimeout
  · cases htimeout
  · obtain ⟨n, -, htimeout⟩ := Option.map_eq_some_iff.mp htimeout
    split at htimeout
    · cases htimeout
    · rename_i hnone
      have hzero := List.find?_eq_none.mp hnone (i, (look.os i.fd).revents i.evn)
        (List.mem_map.mpr ⟨i, hmem, rfl⟩)
      exact OsCond.toMask_revents_ne_zero hnow (by simpa using hzero)

/-- Without a deadline the epoll backend never times out. -/
theorem epollPoll_ne_timeout (timerFd : BitVec 32) (interest : Interest) (timer : Option YoTime)
    (look : Look) : epollPoll timerFd interest timer none look ≠ some (.error .etimeout) := by
  simp only [epollPoll, epollLate]
  split
  · simp_all
  · split
    · simp
    · split <;> simp

/-- With one it does, before it has looked at anything, once the clock has passed it. -/
theorem exists_epoll_timeout (start : YoTime) (os : Int → OsCond) (timerFd : BitVec 32)
    (interest : Interest) (timer : Option YoTime) (d : YoTime)
    (hhead : (m.queue q).head = NULL) :
    ∃ (rounds : List (Look × PollEnv)) (m' : Heap), Valid start os (rounds.map Prod.fst) ∧
      (∀ p ∈ rounds, epollPoll timerFd interest timer (some d) p.1 = some p.2.poll) ∧
        m.yoQueuePoll q (rounds.map Prod.snd) = some (m', .failed .etimeout) := by
  obtain ⟨t, hstart, hlate⟩ := exists_later start d
  refine ⟨[(⟨t, t, os, none, false⟩, ⟨.error .etimeout, .ok, .ok⟩)], m, ⟨?_, ?_, ?_⟩, ?_, ?_⟩
  · simpa using ⟨hstart, t.upto_refl⟩
  · simp
  · simp
  · simp [epollPoll, epollLate, hlate]
  · simp [Heap.yoQueuePoll, Heap.yoQueuePollRound, Heap.yoiQueuePop, hhead]

/-- **When a timeout is honest.**  On the poll backend it always is.  On the epoll backend it is if
and only if there is no deadline, the ready list is not empty, or no descriptor registered for a
handle is ready. -/
theorem honestTimeout_iff :
    (∀ linux (l : PollNodes), HonestTimeout (pollPoll linux l deadline) l.reg m q start os) ∧
      ∀ timerFd timer, HonestTimeout (epollPoll timerFd (m.queue q).reg timer deadline)
          (m.queue q).reg m q start os ↔
        deadline = none ∨ (m.queue q).head ≠ NULL ∨
          ∀ fd e, (m.queue q).reg fd = some e → e.udata ≠ NULL →
            (os fd).readyFor e.mask = false := by
  refine ⟨honestTimeout_poll, fun timerFd timer => ⟨fun h => ?_, ?_⟩⟩
  · cases deadline with
    | none => exact .inl rfl
    | some d =>
      by_cases hhead : (m.queue q).head = NULL
      · obtain ⟨rounds, m', hvalid, himpl, hpoll⟩ :=
          exists_epoll_timeout start os timerFd (m.queue q).reg timer d hhead
        exact .inr (.inr (h rounds m' hvalid himpl hpoll).2)
      · exact .inr (.inl hhead)
  · rintro (rfl | hhead | hquiet) rounds m' hvalid himpl hpoll
    · obtain ⟨-, look, -, htimeout⟩ := exists_timeout himpl hpoll
      exact (epollPoll_ne_timeout _ _ _ _ htimeout).elim
    · exact absurd (exists_timeout himpl hpoll).1 hhead
    · exact ⟨(exists_timeout himpl hpoll).1, hquiet⟩

end

/-! ## A readable descriptor -/

/-- A read is pending on descriptor 4. -/
def readPending : Heap :=
  (Heap.afterCalls
    [.reqNew 0x30 0x10, .fdNew 0x20 4 true, .start 0x30 0x20 (.read 0 0) .ok .ok]).mem

/-- The descriptor can be read. -/
def readable (fd : Int) : OsCond := ⟨fd = 4, false, false, false, false, false⟩

/-- The recommended call: the deadline is the time of the call.  The clock has gone on by a
nanosecond when the epoll backend reads it, and the call reports a timeout although a read
could be performed. -/
theorem not_honestTimeout_oneRead :
    ¬ HonestTimeout (epollPoll 5 (readPending.queue 0x10).reg none (some ⟨7, 0⟩))
      (readPending.queue 0x10).reg readPending 0x10 ⟨7, 0⟩ readable := by
  intro h
  have hquiet := (h [(⟨⟨7, 1⟩, ⟨7, 1⟩, readable, none, false⟩, ⟨.error .etimeout, .ok, .ok⟩)]
    readPending ⟨by simp [YoTime.upto, yoTimecmp], by simp, by simp⟩ (by simp; rfl) rfl).2 4
      ⟨⟨true, false⟩, 0x20⟩ rfl (by decide)
  exact absurd hquiet (by decide)

/-- With no deadline the same call is honest, as it always is on the poll backend. -/
theorem honestTimeout_iff_oneRead :
    HonestTimeout (epollPoll 5 (readPending.queue 0x10).reg none none) (readPending.queue 0x10).reg
        readPending 0x10 ⟨7, 0⟩ readable ∧
      ¬ HonestTimeout (epollPoll 5 (readPending.queue 0x10).reg none (some ⟨9, 0⟩))
        (readPending.queue 0x10).reg readPending 0x10 ⟨7, 0⟩ readable := by
  constructor
  · exact (honestTimeout_iff.2 5 none).mpr (.inl rfl)
  · intro h
    rcases (honestTimeout_iff.2 5 none).mp h with hnone | hhead | hquiet
    · cases hnone
    · exact hhead rfl
    · exact absurd (hquiet 4 ⟨⟨true, false⟩, 0x20⟩ rfl (by decide)) (by decide)

end Yaooi
