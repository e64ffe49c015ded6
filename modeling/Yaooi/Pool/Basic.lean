import Yaooi.Lib.Mutex
import Yaooi.Lib.Transition
import Yaooi.Threads.Completion

/-!
# The thread pool of a queue

`src/pool.c` in a program built with threads, and `yo_queue_free` of `src/queue.c`, one step for
each critical action: one thread, the caller, calls `yo_req_exec` any number of times and then
`yo_queue_free`, beside the workers that the pool has made.  There are two kinds of locks, the
queue's and one for each worker.

A step names what it does to a lock and what else it does; `Pool.system` lets it happen when the
lock it wants is free.  `yo_cond_wait` gives the lock back and waits in one step, may end
without a signal, and takes the lock again.  `malloc` answers with a record that is not in use or
with null, and creating a thread succeeds.

The field `queue` of a worker is left out, as nothing reads it, and so is its `next`: the list
`workers` is the chain from `pool->worker_head`.
-/

namespace Yaooi

open Transition Mutex

/-! ## Workers -/

/-- What `yo_req_exec` is given: the request, the function to run and its argument. -/
structure Task where
  req : YoReqT
  worker : Ptr
  args : Ptr
  deriving DecidableEq

/-- `yoi_pool_worker_t` -/
abbrev YoiPoolWorkerT := Ptr

/-- `struct yo_pool_worker`: its slot for a task, and the flag that asks it to leave. -/
structure YoiPoolWorker where
  worker : Ptr
  req : YoReqT
  args : Ptr
  kys : Bool
  deriving DecidableEq

namespace YoiPoolWorker

/-- The task in the slot. -/
def task (k : YoiPoolWorker) : Task := ⟨k.req, k.worker, k.args⟩

/-- The slot is filled with a task. -/
def fill (k : YoiPoolWorker) (t : Task) : YoiPoolWorker :=
  { k with worker := t.worker, req := t.req, args := t.args }

/-- The slot is emptied. -/
def clear (k : YoiPoolWorker) : YoiPoolWorker :=
  { k with worker := NULL, req := NULL, args := NULL }

variable (k : YoiPoolWorker) (t : Task)

@[simp] theorem worker_task : k.task.worker = k.worker := rfl
@[simp] theorem req_task : k.task.req = k.req := rfl
@[simp] theorem args_task : k.task.args = k.args := rfl
@[simp] theorem worker_clear : k.clear.worker = NULL := rfl
@[simp] theorem kys_clear : k.clear.kys = k.kys := rfl
@[simp] theorem worker_fill : (k.fill t).worker = t.worker := rfl
@[simp] theorem kys_fill : (k.fill t).kys = k.kys := rfl

end YoiPoolWorker

/-- The caller, or the thread of a worker. -/
inductive Thread where
  | caller
  | worker (w : YoiPoolWorkerT)
  deriving DecidableEq

/-- The lock of the queue, or of a worker. -/
inductive Lock where
  | queue
  | worker (w : YoiPoolWorkerT)
  deriving DecidableEq

/-- Where a worker stands in `yoi_pool_worker_entry`. -/
inductive WorkerPc where
  /-- There is no such worker. -/
  | absent
  /-- Its own lock is to be taken for the first time. -/
  | entry
  /-- At the tests of its loops. -/
  | test
  /-- The task is read and the lock to be given back. -/
  | taken (t : Task)
  /-- In the function of the task. -/
  | run (t : Task)
  /-- In `yoi_req_end`. -/
  | ending (r : YoReqT) (e : EndPc)
  /-- The task is completed, and the worker's own lock to be taken. -/
  | ended
  /-- The slot is to be emptied. -/
  | clear
  /-- In `yo_cond_wait`. -/
  | waiting
  /-- Woken; the lock is to be taken again. -/
  | woken
  /-- Asked to leave; the lock is to be given back. -/
  | leaving
  | exited
  deriving DecidableEq

/-- Where the caller stands. -/
inductive CallerPc where
  | idle
  /-- At the head of the loop of `yo_req_exec`. -/
  | execNext (t : Task) (rest : List YoiPoolWorkerT)
  | execTest (t : Task) (it : YoiPoolWorkerT) (rest : List YoiPoolWorkerT)
  /-- This worker has no room. -/
  | execSkip (t : Task) (it : YoiPoolWorkerT) (rest : List YoiPoolWorkerT)
  | execSignal (it : YoiPoolWorkerT)
  | execUnlock (it : YoiPoolWorkerT)
  /-- `yo_queue_free` was called, and the queue's lock is to be taken. -/
  | free
  /-- At the head of the loop of `yoi_pool_free`. -/
  | freeNext
  | freeLock (curr : YoiPoolWorkerT)
  | freeKys (curr : YoiPoolWorkerT)
  | freeSignal (curr : YoiPoolWorkerT)
  | freeUnlock (curr : YoiPoolWorkerT)
  /-- In `yo_thread_free_join`. -/
  | freeJoin (curr : YoiPoolWorkerT)
  | freeDel (curr : YoiPoolWorkerT)
  /-- The pool is gone, and `yoi_queue_impl_free` is next. -/
  | freeImpl
  /-- The lock is to be given back, because that failed. -/
  | freeFail
  /-- The lock and the queue are to be freed. -/
  | freeLast
  | returned
  deriving DecidableEq

/-- The worker holds the lock. -/
def WorkerPc.holds (w : YoiPoolWorkerT) (l : Lock) : WorkerPc → Bool
  | .test | .taken _ | .clear | .leaving => l = .worker w
  | .ending _ e => e.inside && decide (l = .queue)
  | .absent | .entry | .run _ | .ended | .waiting | .woken | .exited => false

/-- The caller holds the lock. -/
def CallerPc.holds (l : Lock) : CallerPc → Bool
  | .execTest _ it _ | .execSkip _ it _ | .execSignal it | .execUnlock it => l = .worker it
  | .freeNext | .freeLock _ | .freeJoin _ | .freeDel _ | .freeImpl | .freeFail | .freeLast =>
    l = .queue
  | .freeKys curr | .freeSignal curr | .freeUnlock curr => l = .queue || l = .worker curr
  | .idle | .execNext .. | .free | .returned => false

/-- The worker that `yoi_pool_free` has taken off the list. -/
def CallerPc.curr : CallerPc → List YoiPoolWorkerT
  | .freeLock curr | .freeKys curr | .freeSignal curr | .freeUnlock curr | .freeJoin curr
  | .freeDel curr => [curr]
  | .idle | .execNext .. | .execTest .. | .execSkip .. | .execSignal _ | .execUnlock _ | .free
  | .freeNext | .freeImpl | .freeFail | .freeLast | .returned => []

/-! ## The system -/

/-- The pool of a queue, with its threads. -/
structure Pool where
  mem : Heap
  lock : Lock → Option Thread
  slot : YoiPoolWorkerT → YoiPoolWorker
  pc : YoiPoolWorkerT → WorkerPc
  workers : List YoiPoolWorkerT
  caller : CallerPc

/-- What the OS answers to the caller: a record from `malloc` or null, and the code of
`yoi_queue_impl_free`. -/
structure CallerEnv where
  malloc : YoiPoolWorkerT
  implFree : YoCode

/-- A step of one of the threads. -/
inductive PoolAct where
  /-- The caller calls `yo_req_exec`. -/
  | exec (t : Task)
  /-- The caller calls `yo_queue_free`. -/
  | free
  /-- The next step of the caller. -/
  | caller (env : CallerEnv)
  /-- The next step of a worker, `code` being what its task returns. -/
  | worker (w : YoiPoolWorkerT) (code : YoCode)
  /-- The wait of a worker ends although nobody sent a signal. -/
  | spurious (w : YoiPoolWorkerT)

namespace Pool

/-- The worker `w` stands at `pc`. -/
def goto (s : Pool) (w : YoiPoolWorkerT) (pc : WorkerPc) : Pool :=
  { s with pc := Function.update s.pc w pc }

def setSlot (s : Pool) (w : YoiPoolWorkerT) (k : YoiPoolWorker) : Pool :=
  { s with slot := Function.update s.slot w k }

/-- The caller stands at `pc`. -/
def call (s : Pool) (pc : CallerPc) : Pool := { s with caller := pc }

/-- `yo_cond_broadcast`, which reaches the worker only while it waits. -/
def signal (s : Pool) (w : YoiPoolWorkerT) : Pool :=
  if s.pc w = .waiting then s.goto w .woken else s

/-- The next step of a worker: what it does to a lock, and what else. -/
def workerNext (s : Pool) (w : YoiPoolWorkerT) (code : YoCode) : Option (Op Lock × Pool) :=
  match s.pc w with
  | .entry => some (.take (.worker w), s.goto w .test)
  | .test =>
    if (s.slot w).worker ≠ NULL ∧ (s.slot w).kys = false then
      some (.skip, s.goto w (.taken (s.slot w).task))
    else if (s.slot w).kys then some (.skip, s.goto w .leaving)
    else some (.give (.worker w), s.goto w .waiting)
  | .taken t => some (.give (.worker w), s.goto w (.run t))
  | .run t =>
    some (.skip, { s.goto w (.ending t.req .coded) with mem := s.mem.endCode t.req code })
  | .ending r .coded => some (.take .queue, s.goto w (.ending r .locked))
  | .ending r .locked =>
    some (.skip, { s.goto w (.ending r .linked) with mem := s.mem.endLink r })
  -- notifying the poller neither blocks nor touches the pool
  | .ending r .linked => some (.skip, s.goto w (.ending r .notified))
  | .ending _ .notified => some (.give .queue, s.goto w .ended)
  | .ended => some (.take (.worker w), s.goto w .clear)
  | .clear => some (.skip, (s.setSlot w (s.slot w).clear).goto w .test)
  | .woken => some (.take (.worker w), s.goto w .test)
  | .leaving => some (.give (.worker w), s.goto w .exited)
  | .absent | .waiting | .exited => none

/-- The next step of the caller: what it does to a lock, and what else. -/
def callerNext (s : Pool) (env : CallerEnv) : Option (Op Lock × Pool) :=
  match s.caller with
  | .execNext t (it :: rest) => some (.take (.worker it), s.call (.execTest t it rest))
  | .execTest t it rest =>
    if (s.slot it).worker = NULL ∧ (s.slot it).kys = false then
      some (.skip,
        { (s.setSlot it ((s.slot it).fill t)).call (.execSignal it) with
          mem := s.mem.yoiReqBegin t.req s.mem.text.poolCancelcb })
    else some (.skip, s.call (.execSkip t it rest))
  | .execSkip t it rest => some (.give (.worker it), s.call (.execNext t rest))
  | .execSignal it => some (.skip, (s.signal it).call (.execUnlock it))
  | .execUnlock it => some (.give (.worker it), s.call .idle)
  | .execNext t [] =>
    if env.malloc = NULL then some (.skip, s.call .idle)
    else if s.pc env.malloc = .absent then
      some (.skip,
        { ((s.setSlot env.malloc ⟨t.worker, t.req, t.args, false⟩).goto env.malloc .entry).call
            .idle with
          mem := s.mem.yoiReqBegin t.req s.mem.text.poolCancelcb
          workers := env.malloc :: s.workers })
    else none
  | .free => some (.take .queue, s.call .freeNext)
  | .freeNext =>
    match s.workers with
    | [] => some (.skip, s.call .freeImpl)
    | curr :: rest => some (.skip, { s.call (.freeLock curr) with workers := rest })
  | .freeLock curr => some (.take (.worker curr), s.call (.freeKys curr))
  -- `yo_thread_cancel` interrupts the worker, which may end its wait
  | .freeKys curr =>
    some (.skip, (s.setSlot curr { s.slot curr with kys := true }).call (.freeSignal curr))
  | .freeSignal curr => some (.skip, (s.signal curr).call (.freeUnlock curr))
  | .freeUnlock curr => some (.give (.worker curr), s.call (.freeJoin curr))
  | .freeJoin curr =>
    if s.pc curr = .exited then some (.skip, s.call (.freeDel curr)) else none
  | .freeDel curr => some (.skip, (s.goto curr .absent).call .freeNext)
  | .freeImpl =>
    some (.skip, s.call (if env.implFree = .ok then .freeLast else .freeFail))
  | .freeFail => some (.give .queue, s.call .returned)
  -- the lock is freed together with the queue
  | .freeLast => some (.give .queue, s.call .returned)
  | .idle | .returned => none

/-- A step of the thread `t`, once the lock it wants is free. -/
def perform (s : Pool) (t : Thread) (next : Option (Op Lock × Pool)) : Option Pool :=
  next.bind fun p => (p.1.apply t s.lock).map fun lock => { p.2 with lock := lock }

/-- The threads of the pool of the queue `q`.  A call of `yo_req_exec` is for a request of the queue
and for a function. -/
def system (q : YoQueueT) : System Pool PoolAct where
  init s := (∀ l, s.lock l = none) ∧ (∀ w, s.pc w = .absent) ∧ s.workers = [] ∧ s.caller = .idle
  step s
    | .exec t =>
      if s.caller = .idle ∧ (s.mem.req t.req).queue = q ∧ t.worker ≠ NULL then
        some (s.call (.execNext t s.workers))
      else none
    | .free => if s.caller = .idle then some (s.call .free) else none
    | .caller env => s.perform .caller (s.callerNext env)
    | .worker w code => s.perform (.worker w) (s.workerNext w code)
    | .spurious w => if s.pc w = .waiting then some (s.goto w .woken) else none

end Pool

end Yaooi
