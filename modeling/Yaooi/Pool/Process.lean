import Yaooi.Lib.Episodes
import Yaooi.Pool.Tasks
import Yaooi.Queue.Onclose

/-!
# The whole process

One thread that makes calls, and beside it the workers of the pool of one of its queues, all over
one memory: the calls of `Yaooi.Queue.Calls` and the threads of `Yaooi.Pool.Basic` together.

* `Process.system`: a call is one step, as before, except for `yo_req_exec`, which is one step for
  each critical action, like the workers, and for `yo_fd_close`, which is one step for each request
  that it completes.  What takes the lock of the pool's queue waits for it.
* `Heap.Shows`: the memory in which the threads are still at work shows what a run of these calls
  without them leads to, with the same book.  `runs_as_calls` says that it always does.
* `lives_told`: of every request the log of a run tells whole lives, from the call that starts it to
  its delivery.
-/

namespace Yaooi

open Transition Mutex Episodes

/-! ## The process -/

/-- What happens to a request. -/
inductive ReqEvent where
  /-- It is started on a handle. -/
  | start (r : YoReqT)
  /-- A worker has got it. -/
  | accept (t : Task)
  /-- The function given with it is called. -/
  | invoke (r : YoReqT) (fn args : Ptr)
  /-- That function returns. -/
  | ret (r : YoReqT) (code : YoCode)
  /-- The worker puts it on the ready list, with this code. -/
  | complete (r : YoReqT) (code : YoCode)
  /-- `yo_queue_poll` returns it. -/
  | deliver (r : YoReqT) (code : YoCode)
  deriving DecidableEq

namespace ReqEvent

def req : ReqEvent → YoReqT
  | .start r | .invoke r _ _ | .ret r _ | .complete r _ | .deliver r _ => r
  | .accept t => t.req

/-- What a thread's step says about a request, the slots of the workers being `slot`. -/
def ofTask (slot : YoiPoolWorkerT → YoiPoolWorker) : TaskEvent → List ReqEvent
  | .accept _ t => [.accept t]
  | .invoke w fn args => [.invoke (slot w).req fn args]
  | .ret w code => [.ret (slot w).req code]
  | .complete _ r code => [.complete r code]
  | .submit _ | .refuse _ | .take _ _ => []

/-- What an entry of the callers' book says about a request. -/
def ofEvent : Event → List ReqEvent
  | .start r _ => [.start r]
  | .deliver _ r code => [.deliver r code]
  | .exec _ | .ran _ _ _ | .close _ => []

end ReqEvent

/-- The book after a step of a thread. -/
def Ledger.note (l : Ledger) : TaskEvent → Ledger
  | .accept _ t => l.after (.exec t.req) .done
  | .complete _ r code => l.after (.finish r code) .done
  | .submit _ | .refuse _ | .take _ _ | .invoke _ _ _ | .ret _ _ => l

/-- The call takes the lock of the queue `q`. -/
def Heap.locks (m : Heap) (q : YoQueueT) : Call → Bool
  | .start r _ _ ans _ => ans == .eperm && (m.req r).queue == q
  | .poll k _ => k == q
  | .reqNew .. | .reqFree _ | .fdNew .. | .exec _ | .finish .. | .close .. => false

/-- The pool with its threads, the callers' book, what happened to the requests, and the close that
is under way. -/
structure Process where
  pool : Pool
  ledger : Ledger
  log : List ReqEvent
  closing : Option Onclose

/-- A step of the pool's threads, or a call. -/
inductive ProcessAct where
  | thread (a : PoolAct)
  | call (c : Call)
  /-- `yo_fd_close` begins. -/
  | close (h : YoFdT) (ans : YoReqT → YoCode)
  /-- It completes the next request. -/
  | cancel
  /-- It gives up the handle. -/
  | shut

namespace Process

/-- The thread that makes calls is in no call. -/
def free (s : Process) : Prop := s.pool.caller = .idle ∧ s.closing.isNone

instance (s : Process) : Decidable s.free := inferInstanceAs (Decidable (_ ∧ _))

/-- The step is one that a program without `yo_queue_free` makes and that follows the callers'
rules. -/
def permits (s : Process) : PoolAct → Bool
  | .free => false
  | .exec t => s.closing.isNone && (Call.exec t.req).allowed s.ledger
  | .caller _ | .worker .. | .spurious _ => true

/-- The call is one the thread makes in one step. -/
def isWhole : Call → Bool
  | .exec _ | .finish .. | .close .. => false
  | .reqNew .. | .reqFree _ | .fdNew .. | .start .. | .poll .. => true

/-- A step of a thread led to the pool `p`. -/
def afterThread (s : Process) (a : PoolAct) (p : Pool) : Process where
  pool := p
  ledger := (s.pool.record a p).foldl Ledger.note s.ledger
  log := s.log ++ (s.pool.record a p).flatMap (ReqEvent.ofTask s.pool.slot)
  closing := s.closing

/-- A call led to the memory `m` and to the book `l`. -/
def afterCall (s : Process) (m : Heap) (l : Ledger) : Process where
  pool := { s.pool with mem := m }
  ledger := l
  log := s.log ++ (l.trace.drop s.ledger.trace.length).flatMap ReqEvent.ofEvent
  closing := none

/-- A close led to the memory `m` and goes on from there. -/
def afterCancel (s : Process) (m : Heap) (c : Onclose) : Process :=
  { s with pool := { s.pool with mem := m }, closing := some c }

/-- A thread that makes calls on any number of queues, and the pool of the queue `q`. -/
def system (q : YoQueueT) : System Process ProcessAct where
  init s := (Pool.system q).init s.pool ∧ s.pool.mem.Fresh ∧ s.ledger = .empty ∧ s.log = [] ∧
    s.closing = none
  step s
    | .thread a =>
      if s.permits a then ((Pool.system q).step s.pool a).map (s.afterThread a) else none
    | .call c =>
      if s.free ∧ isWhole c ∧ c.allowed s.ledger ∧
          (s.pool.mem.locks q c → s.pool.lock .queue = none) then
        (s.pool.mem.exec c).map fun p => s.afterCall p.1 (s.ledger.after c p.2)
      else none
    | .close h ans =>
      if s.free ∧ s.ledger.opened h then
        some { s with closing := some (s.pool.mem.onclose h ans) }
      else none
    | .cancel =>
      match s.closing with
      | some c =>
        if c.i ≠ NULL ∧ ((s.pool.mem.req c.i).queue = q → s.pool.lock .queue = none) then
          some (s.afterCancel (s.pool.mem.cancelNext c).1 (s.pool.mem.cancelNext c).2)
        else none
      | none => none
    | .shut =>
      match s.closing with
      | some c =>
        if c.i = NULL then
          some (s.afterCall s.pool.mem (s.ledger.after (.close c.fd c.ans) .done))
        else none
      | none => none

variable {q : YoQueueT} {s t : Process} {a : ProcessAct}

/-- Everything a step can be. -/
inductive Steps (q : YoQueueT) (s : Process) : ProcessAct → Process → Prop
  | thread {a : PoolAct} {p : Pool} (hok : s.permits a = true)
      (hst : (Pool.system q).step s.pool a = some p) : Steps q s (.thread a) (s.afterThread a p)
  | call {c : Call} {m : Heap} {out : Outcome} (hfree : s.free)
      (hwhole : isWhole c = true) (hc : c.allowed s.ledger = true)
      (hexec : s.pool.mem.exec c = some (m, out)) :
      Steps q s (.call c) (s.afterCall m (s.ledger.after c out))
  | close {h : YoFdT} {ans : YoReqT → YoCode} (hfree : s.free) (ho : s.ledger.opened h = true) :
      Steps q s (.close h ans) { s with closing := some (s.pool.mem.onclose h ans) }
  | cancel {c : Onclose} (hc : s.closing = some c) (hi : c.i ≠ NULL) :
      Steps q s .cancel (s.afterCancel (s.pool.mem.cancelNext c).1 (s.pool.mem.cancelNext c).2)
  | shut {c : Onclose} (hc : s.closing = some c) (hi : c.i = NULL) :
      Steps q s .shut (s.afterCall s.pool.mem (s.ledger.after (.close c.fd c.ans) .done))

theorem step_cases (h : (system q).step s a = some t) : Steps q s a t := by
  cases a with
  | thread a =>
    simp only [system] at h
    split at h
    · rename_i hok
      obtain ⟨p, hst, rfl⟩ := Option.map_eq_some_iff.mp h
      exact .thread hok hst
    · cases h
  | call c =>
    simp only [system] at h
    split at h
    · rename_i hok
      obtain ⟨⟨m, out⟩, hexec, rfl⟩ := Option.map_eq_some_iff.mp h
      exact .call hok.1 hok.2.1 hok.2.2.1 hexec
    · cases h
  | close g ans =>
    simp only [system] at h
    split at h
    · rename_i hok
      cases h
      exact .close hok.1 hok.2
    · cases h
  | cancel =>
    simp only [system] at h
    split at h
    · rename_i c hc
      split at h
      · rename_i hi
        cases h
        exact .cancel hc hi.1
      · cases h
    · cases h
  | shut =>
    simp only [system] at h
    split at h
    · rename_i c hc
      split at h
      · rename_i hi
        cases h
        exact .shut hc hi
      · cases h
    · cases h

/-- No request of the pool is put on the ready list while a handle is being closed. -/
def Alone (s : Process) (a : ProcessAct) : Prop :=
  s.closing.isSome = true → ∀ w code r, a = .thread (.worker w code) →
    s.pool.pc w ≠ .ending r .locked

end Process

/-! ## What the threads leave of the calls -/

/-- The memory shows what a run of the calls with this book leads to, in the middle of the close `c`
if one is under way: there is such a run, and both memories show its board.  If `ok` then nothing
was completed within a close in that run. -/
def Heap.Shows (ok : Prop) (m : Heap) (l : Ledger) (c : Option Onclose) : Prop :=
  ∃ (m' : Heap) (b : Board) (place : YoReqT → Board.Place),
    Heap.parts.Reach (fun s a => ok → Part.Alone s a) ⟨m', l, c⟩ ∧ RefinesIn l c m' b ∧
      RefinesIn l c m b ∧ (∀ x ∈ c, l.opened x.fd = true) ∧ Board.Placed l b place ∧
        TrackedIn l b c

/-- Writing a request's code does not move what the board shows of the others. -/
theorem Refines.endCode {o : YoFdT → Bool} {m : Heap} {b : Board} {r : YoReqT} (code : YoCode)
    (hR : Refines o m b) (hpend : ∀ h, o h = true → r ∉ b.pend h)
    (hready : ∀ q, r ∉ (b.ready q).map Prod.fst) : Refines o (m.endCode r code) b := by
  have := hR.setReq (f := (·.setCode code)) (b.op r) hpend hready rfl rfl
  rwa [YoReq.queue_setCode, hR.queueOf, Function.update_eq_self, Function.update_eq_self] at this

/-- Linking a request whose code is written is ending it with that code. -/
theorem Heap.endLink_eq (m : Heap) (r : YoReqT) :
    m.endLink r = m.yoiReqEnd r (m.req r).code := by
  have hcode : ∀ x : YoReq, x.setCode x.code = x := by
    intro x
    have hword : x.word0.extractLsb' 32 32 ++ x.word0.setWidth 32 = x.word0 := by
      ext i hi
      simp only [BitVec.getElem_append, BitVec.getElem_extractLsb']
      split
      · simp [BitVec.getLsbD_eq_getElem hi]
      · rw [show 32 + (i - 32) = i by omega, BitVec.getLsbD_eq_getElem hi]
    exact congrArg (fun w => { x with word0 := w }) hword
  rw [Heap.yoiReqEnd_eq, Heap.endCode, Heap.setReq, hcode, Function.update_eq_self]

namespace Heap.Shows

variable {ok : Prop} {m : Heap} {l : Ledger} {c : Option Onclose} {x : Onclose} {r : YoReqT}
  {h : YoFdT}

/-- A memory without requests and handles shows the empty book. -/
theorem start (ok : Prop) (h : m.Fresh) : m.Shows ok .empty none := by
  have hm : Heap.system.Reachable ⟨m, .empty⟩ := .init ⟨h, rfl⟩
  obtain ⟨b, hreach, hR, place, hp⟩ := refines_of_reachable hm
  have hin : RefinesIn .empty none m b := ⟨hR, by simp⟩
  exact ⟨m, b, place, .init ⟨h, rfl, rfl⟩, hin, hin, by simp, hp,
    trackedIn_none.mpr (tracked_of_reachable hreach)⟩

/-- Every call that follows the rules comes back, and the memory shows the run it is added to. -/
theorem exec {c : Call} (h : m.Shows ok l none) (hwhole : c.whole none = true)
    (hc : c.allowed l = true) :
    ∃ m₁ out, m.exec c = some (m₁, out) ∧ m₁.Shows ok (l.after c out) none := by
  obtain ⟨m', b, place, hm, hR', hR, -, hp, ht⟩ := h
  obtain ⟨m₁, hexec, hR₁⟩ := Heap.exec_refines hR.refines hp hc
  obtain ⟨m₂, hexec₂, hR₂⟩ := Heap.exec_refines hR'.refines hp hc
  obtain ⟨place₂, hp₂⟩ := hp.step hc
  have hstep : Heap.parts.step ⟨m', l, none⟩ (.call c) =
      some ⟨m₂, l.after c (b.exec c).2, none⟩ := by
    simp [Heap.parts, hwhole, hc, hexec₂]
  have halone : Part.Alone ⟨m', l, none⟩ (.call c) := fun hsome => by cases hsome
  exact ⟨m₁, _, hexec, m₂, (b.exec c).1, place₂, hm.step (fun _ => halone) hstep,
    ⟨hR₂, by simp⟩, ⟨hR₁, by simp⟩, by simp, hp₂,
    trackedIn_none.mpr ((trackedIn_none.mp ht).step hp hc)⟩

theorem of_exec {c : Call} {m₁ : Heap} {out : Outcome} (h : m.Shows ok l none)
    (hwhole : c.whole none = true) (hc : c.allowed l = true) (hexec : m.exec c = some (m₁, out)) :
    m₁.Shows ok (l.after c out) none := by
  obtain ⟨m₂, out', hexec', hshow⟩ := h.exec hwhole hc
  rw [hexec, Option.some.injEq, Prod.mk.injEq] at hexec'
  obtain ⟨rfl, rfl⟩ := hexec'
  exact hshow

/-- A request the pool holds was started and is allocated. -/
theorem of_pool (h : m.Shows ok l c) (hr : l.pool r = true) :
    l.live r = true ∧ l.busy r = true := by
  obtain ⟨m', b, place, -, -, -, -, hp, -⟩ := h
  have hne : place r ≠ .idle := by simp [(hp.pool r).mp hr]
  exact ⟨hp.live r hne, (hp.busy r).mpr hne⟩

/-- A thread writes the code of a request it holds. -/
theorem endCode (code : YoCode) (h : m.Shows ok l c) (hr : l.pool r = true) :
    (m.endCode r code).Shows ok l c := by
  obtain ⟨m', b, place, hm, hR', hR, ho, hp, ht⟩ := h
  obtain ⟨hpend, hready, -⟩ := hp.free_of_pool (c := c) hr
  refine ⟨m', b, place, hm, hR', ⟨hR.refines.endCode code hpend hready, ?_⟩, ho, hp, ht⟩
  rw [Heap.ioq_endCode]
  exact hR.left

/-- It links the request: the call of `yoi_req_end` is over. -/
theorem endLink (h : m.Shows ok l c) (hr : l.pool r = true) (halone : ok → c = none) :
    (m.endLink r).Shows ok (l.after (.finish r (m.req r).code) .done) c := by
  obtain ⟨m', b, place, hm, hR', hR, ho, hp, ht⟩ := h
  rw [m.endLink_eq r]
  obtain ⟨place₂, hp₂⟩ := hp.step (c := .finish r (m.req r).code) hr
  have hstep : Heap.parts.step ⟨m', l, c⟩ (.call (.finish r (m.req r).code)) =
      some ⟨m'.yoiReqEnd r (m.req r).code, l.after (.finish r (m.req r).code) .done, c⟩ := by
    simp [Heap.parts, Call.whole, Call.allowed, hr, Heap.exec]
  have hnone : ok → Part.Alone ⟨m', l, c⟩ (.call (.finish r (m.req r).code)) := by
    intro hok hsome
    rw [halone hok] at hsome
    cases hsome
  exact ⟨_, b.push r (m.req r).code, place₂, hm.step hnone hstep, hR'.finish hp hr _,
    hR.finish hp hr _, ho, hp₂, ht.finish hp hr⟩

/-- A close begins. -/
theorem close (h : m.Shows ok l none) {g : YoFdT} (ho : l.opened g = true)
    (ans : YoReqT → YoCode) : m.Shows ok l (some (m.onclose g ans)) := by
  obtain ⟨m', b, place, hm, hR', hR, -, hp, ht⟩ := h
  -- both loops begin at the first request that waits
  have hhead : (m'.fd g).head = (m.fd g).head :=
    (hR'.refines.pend.seg g ho).isChain.start_eq (hR.refines.pend.seg g ho).isChain
  have hsame : m'.onclose g ans = m.onclose g ans := congrArg (Onclose.mk g ans) hhead
  have hstep : Heap.parts.step ⟨m', l, none⟩ (.close g ans) =
      some ⟨m', l, some (m'.onclose g ans)⟩ := by
    simp [Heap.parts, ho]
  rw [← hsame]
  refine ⟨m', b, place, hm.step (fun _ hsome => by cases hsome) hstep, hR'.close ho ans,
    hsame ▸ hR.close ho ans, ?_, hp, ?_⟩
  · intro x hx
    obtain rfl := Option.some.inj hx
    exact ho
  · intro r
    obtain ⟨p, hrun, ha⟩ := trackedIn_none.mp ht r
    exact ⟨p, hrun, .inl ha⟩

/-- It completes a request. -/
theorem cancel (h : m.Shows ok l (some x)) (hi : x.i ≠ NULL) :
    (m.cancelNext x).1.Shows ok l (some (m.cancelNext x).2) := by
  obtain ⟨m', b, place, hm, hR', hR, ho, hp, ht⟩ := h
  have ho := ho x rfl
  obtain ⟨i, left, hpend⟩ : ∃ i left, b.pend x.fd = i :: left := by
    have hchain := hR.left x rfl
    cases hlist : b.pend x.fd with
    | nil =>
      rw [hlist] at hchain
      exact absurd hchain hi
    | cons i left => exact ⟨i, left, rfl⟩
  have hR₁ := hR'.cancel hp ho hpend
  have hR₂ := hR.cancel hp ho hpend
  -- both loops go on to the same request
  have hsame : (m'.cancelNext x).2 = (m.cancelNext x).2 :=
    congrArg (Onclose.mk x.fd x.ans) ((hR₁.left _ rfl).start_eq (hR₂.left _ rfl))
  have hstep : Heap.parts.step ⟨m', l, some x⟩ .cancel =
      some ⟨(m'.cancelNext x).1, l, some (m'.cancelNext x).2⟩ := by
    simp [Heap.parts, hi]
  rw [hsame] at hstep hR₁
  refine ⟨_, b.cancelFront x i left, _, hm.step (fun _ _ _ _ he => by cases he) hstep, hR₁, hR₂,
    fun y hy => ?_, hp.cancel ho hpend, ht.cancel hp ho hpend rfl⟩
  obtain rfl := Option.some.inj hy
  exact ho

/-- It is over. -/
theorem shut (h : m.Shows ok l (some x)) (hi : x.i = NULL) :
    m.Shows ok (l.after (.close x.fd x.ans) .done) none := by
  obtain ⟨m', b, place, hm, hR', hR, ho, hp, ht⟩ := h
  have ho := ho x rfl
  have hpend : b.pend x.fd = [] := (hR.left x rfl).unique hi
  have hstep : Heap.parts.step ⟨m', l, some x⟩ .shut =
      some ⟨m', l.after (.close x.fd x.ans) .done, none⟩ := by
    simp [Heap.parts, hi]
  exact ⟨m', b, place, hm.step (fun _ _ _ _ he => by cases he) hstep, ⟨hR'.refines, by simp⟩,
    ⟨hR.refines, by simp⟩, by simp, hp.shut ho hpend x.ans, trackedIn_none.mpr (ht.shut hpend)⟩

end Heap.Shows

/-! ## What a step of a thread does -/

namespace Pool

variable {q : YoQueueT} {s t : Pool} {a : PoolAct} {w : YoiPoolWorkerT} {op : Op Lock}
  {code : YoCode}

theorem isCall_callerRecord {env : CallerEnv} {slot : YoiPoolWorkerT → YoiPoolWorker}
    {p p' : CallerPc} {e : TaskEvent} (h : e ∈ callerRecord env slot p p') : e.isCall = true := by
  unfold callerRecord at h
  split at h
  · obtain rfl := List.mem_singleton.mp h
    rfl
  · split at h <;> obtain rfl := List.mem_singleton.mp h <;> rfl
  · cases h

theorem of_complete_mem_workerRecord {v : YoiPoolWorkerT} {m : Heap} {p p' : WorkerPc} {r : YoReqT}
    {c : YoCode} (h : .complete w r c ∈ workerRecord v code m p p') :
    w = v ∧ p = .ending r .locked := by
  cases p with
  | ending x e =>
    cases e with
    | locked =>
      obtain ⟨rfl, rfl, -⟩ := TaskEvent.complete.inj (List.mem_singleton.mp h)
      exact ⟨rfl, rfl⟩
    | _ => cases h
  | test =>
    cases p' with
    | taken task => cases List.mem_singleton.mp h
    | _ => cases h
  | taken | run => cases List.mem_singleton.mp h
  | _ => cases h

/-- A request is completed in the step in which its worker links it. -/
theorem of_complete_mem_record {r : YoReqT} {c : YoCode}
    (h : .complete w r c ∈ s.record a t) :
    ∃ code, a = .worker w code ∧ s.pc w = .ending r .locked := by
  cases a with
  | exec task => cases List.mem_singleton.mp h
  | free | spurious => cases h
  | caller env =>
    have hcall : TaskEvent.isCall (.complete w r c) = true := isCall_callerRecord h
    simp [TaskEvent.isCall] at hcall
  | worker v code =>
    obtain ⟨rfl, hpc⟩ := of_complete_mem_workerRecord h
    exact ⟨code, rfl, hpc⟩

/-- What a step of a thread does to the tasks and to the memory, and what it adds to the log. -/
inductive ThreadMove (s t : Pool) : List TaskEvent → Prop
  /-- Nothing that the book or a request tells of. -/
  | silent (new : List TaskEvent) (hlog : new.flatMap (ReqEvent.ofTask s.slot) = [])
      (hbook : ∀ l : Ledger, new.foldl .note l = l) (hmem : t.mem = s.mem)
      (hslot : ∀ w, s.stage w ≠ 0 → t.slot w = s.slot w)
      (hstage : ∀ w, t.stage w = s.stage w ∨ s.stage w = 1 ∧ t.stage w = 2) : ThreadMove s t new
  | accept (task : Task) (w : YoiPoolWorkerT) (hs : s.caller.task = some task)
      (ht : t.caller.task = none) (hfree : s.stage w = 0) (hstage : t.stage w = 1)
      (htask : (t.slot w).task = task)
      (hother : ∀ v, v ≠ w → t.stage v = s.stage v ∧ t.slot v = s.slot v)
      (hmem : t.mem = s.mem.yoiReqBegin task.req s.mem.text.poolCancelcb) :
      ThreadMove s t [.accept w task]
  | invoke (w : YoiPoolWorkerT) (hs : s.stage w = 2) (ht : t.stage w = 3)
      (hother : ∀ v, v ≠ w → t.stage v = s.stage v) (hslot : t.slot = s.slot)
      (hmem : t.mem = s.mem) : ThreadMove s t [.invoke w (s.slot w).worker (s.slot w).args]
  | ret (w : YoiPoolWorkerT) (code : YoCode) (hs : s.stage w = 3) (ht : t.stage w = 4)
      (hother : ∀ v, v ≠ w → t.stage v = s.stage v) (hslot : t.slot = s.slot)
      (hmem : t.mem = s.mem.endCode (s.slot w).req code) : ThreadMove s t [.ret w code]
  | complete (w : YoiPoolWorkerT) (hs : s.stage w = 4) (ht : t.stage w = 0)
      (hother : ∀ v, v ≠ w → t.stage v = s.stage v) (hslot : t.slot = s.slot)
      (hmem : t.mem = s.mem.endLink (s.slot w).req) :
      ThreadMove s t [.complete w (s.slot w).req (s.mem.req (s.slot w).req).code]

/-- A step of a worker. -/
theorem AtWork.workerMove (h : AtWork s) (hs : Sound s)
    (hnext : s.workerNext w code = some (op, t)) :
    ThreadMove s t (s.record (.worker w code) t) := by
  have hother := (Pool.workerMove hnext).stage_of_ne
  have hmove := h.taskMove hs hnext
  have hstage : ∀ v, v ≠ w → t.stage v = s.stage v := fun v hv => (hother v hv).1
  have hslots : t.slot w = s.slot w → t.slot = s.slot := by
    intro hw
    funext v
    by_cases hv : v = w
    · rw [hv, hw]
    · exact (hother v hv).2
  generalize s.record (.worker w code) t = new at hmove ⊢
  cases hmove with
  | stay hsame hslot hmem =>
    refine .silent [] rfl (fun _ => rfl) hmem (fun v hv => ?_) fun v => ?_
    · by_cases hvw : v = w
      · subst hvw
        exact hslot hv
      · exact (hother v hvw).2
    · by_cases hvw : v = w
      · subst hvw
        exact .inl hsame
      · exact .inl (hstage v hvw)
  | take hs ht hslot hmem =>
    refine .silent _ rfl (fun _ => rfl) hmem (fun v _ => by rw [hslots hslot]) fun v => ?_
    by_cases hvw : v = w
    · subst hvw
      exact .inr ⟨hs, ht⟩
    · exact .inl (hstage v hvw)
  | invoke hs ht hslot hmem => exact .invoke w hs ht hstage (hslots hslot) hmem
  | ret code hs ht hslot hmem => exact .ret w code hs ht hstage (hslots hslot) hmem
  | complete hs ht hslot hmem => exact .complete w hs ht hstage (hslots hslot) hmem

/-- A step of the caller in `yo_req_exec`. -/
theorem CallMove.threadMove {new : List TaskEvent} (hmove : CallMove s t new) :
    ThreadMove s t new := by
  cases hmove with
  | stay htask hslot hstage hmem =>
    exact .silent _ rfl (fun _ => rfl) hmem (fun w _ => by rw [hslot]) fun w => .inl (hstage w)
  | refuse task hs ht hslot hstage hmem =>
    exact .silent _ rfl (fun _ => rfl) hmem (fun w _ => by rw [hslot]) fun w => .inl (hstage w)
  | accept task w hs ht hfree hstage htask hslot hother hmem =>
    exact .accept task w hs ht hfree hstage htask (fun v hv => ⟨hother v hv, hslot v hv⟩) hmem

/-- The locks are no matter of it. -/
theorem ThreadMove.lock {new : List TaskEvent} (h : ThreadMove s t new)
    (lock : Lock → Option Thread) : ThreadMove s { t with lock := lock } new := by
  cases h with
  | silent _ hlog hbook hmem hslot hstage => exact .silent _ hlog hbook hmem hslot hstage
  | accept task w hs ht hfree hstage htask hother hmem =>
    exact .accept task w hs ht hfree hstage htask hother hmem
  | invoke w hs ht hother hslot hmem => exact .invoke w hs ht hother hslot hmem
  | ret w code hs ht hother hslot hmem => exact .ret w code hs ht hother hslot hmem
  | complete w hs ht hother hslot hmem => exact .complete w hs ht hother hslot hmem

/-- **Every step of a thread is such a move**, in a program without `yo_queue_free`. -/
theorem AtWork.threadMove (h : AtWork s) (hs : Sound s) (hfree : NoFree s a)
    (hst : (system q).step s a = some t) : ThreadMove s t (s.record a t) := by
  cases step_cases hst with
  | exec hidle hq hw => exact .silent _ rfl (fun _ => rfl) rfl (fun _ _ => rfl) fun _ => .inl rfl
  | free => exact absurd rfl hfree
  | caller hnext hop =>
    exact (h.callMove hs (callerMove hnext h.calling)).threadMove.lock _
  | worker hnext hop => exact (h.workerMove hs hnext).lock _
  | @spurious w hw =>
    rw [show s.goto w .woken = s.signal w from (if_pos hw).symm]
    exact .silent _ rfl (fun _ => rfl) (by simp) (fun _ _ => by simp) fun v => .inl stage_signal

/-- The task the caller has in hand after a step is one it had, or was just given. -/
theorem AtWork.caller_task (h : AtWork s) (hfree : NoFree s a)
    (hst : (system q).step s a = some t) (u : Task) (hu : t.caller.task = some u) :
    s.caller.task = some u ∨ a = .exec u := by
  cases step_cases hst with
  | @exec task hidle hq hw =>
    cases hu
    exact .inr rfl
  | free => exact absurd rfl hfree
  | caller hnext hop =>
    cases callerMove hnext h.calling with
    | go pc hpc htask hahead hleft => exact .inl (htask ▸ hu)
    | _ => cases hu
  | worker hnext hop =>
    rw [← (Pool.workerMove hnext).caller]
    exact .inl hu
  | spurious hw => exact .inl hu

/-- So do the tasks stay apart, if the caller is given no request that a worker has. -/
theorem Apart.step (h : Apart s) (hw : AtWork s) (hs : Sound s) (hfree : NoFree s a)
    (hone : Once s a) (hst : (system q).step s a = some t) : Apart t := by
  cases step_cases hst with
  | @exec task hidle hq hwork =>
    refine ⟨h.slots, fun u w hu => ?_⟩
    cases hu
    exact hone task rfl w
  | free => exact absurd rfl hfree
  | caller hnext hop =>
    have := h.callMove (hw.callMove hs (callerMove hnext hw.calling))
    exact ⟨this.slots, this.caller⟩
  | worker hnext hop =>
    have hm := Pool.workerMove hnext
    have := h.worker (hw.taskMove hs hnext) hm.stage_of_ne hm.caller
    exact ⟨this.slots, this.caller⟩
  | @spurious w hwait =>
    rw [show s.goto w .woken = s.signal w from (if_pos hwait).symm]
    have hmove : CallMove s (s.signal w) [] :=
      .stay (by simp) (by simp) (fun v => stage_signal) (by simp)
    exact h.callMove hmove

end Pool

/-! ## What holds in every state -/

namespace Process

variable {q : YoQueueT} {s t : Process} {a : ProcessAct} {ok : Prop}

/-- The threads, the book and the memory agree. -/
structure Kept (ok : Prop) (s : Process) : Prop where
  sound : s.pool.Sound
  atWork : s.pool.AtWork
  apart : s.pool.Apart
  /-- The request that is being handed to the pool was not started yet. -/
  task : ∀ t, s.pool.caller.task = some t → (Call.exec t.req).allowed s.ledger = true
  /-- No request is handed to the pool while a handle is being closed. -/
  closing : s.closing.isSome = true → s.pool.caller.task = none
  /-- The pool holds the requests that a worker has in hand. -/
  held : ∀ r, s.ledger.pool r = true ↔ ∃ w, s.pool.stage w ≠ 0 ∧ (s.pool.slot w).req = r
  shows : s.pool.mem.Shows ok s.ledger s.closing

/-- A request that is not started is in no worker's hands. -/
theorem Kept.once (h : Kept ok s) {a : PoolAct} (hok : s.permits a = true) :
    Pool.Once s.pool a := by
  rintro task rfl w hw hreq
  have hbusy := (h.shows.of_pool ((h.held task.req).mpr ⟨w, hw, hreq⟩)).2
  have hnot : s.ledger.busy task.req = false := by
    simp only [permits, Call.allowed, Bool.and_eq_true, Bool.not_eq_true'] at hok
    exact hok.2.2
  simp [hbusy] at hnot

theorem noFree_of_permits {p : Pool} {a : PoolAct} (hok : s.permits a = true) :
    Pool.NoFree p a := by
  rintro rfl
  simp [permits] at hok

/-- A step of a thread keeps what the memory shows. -/
theorem Kept.shows_thread {p : Pool} {new : List TaskEvent} (h : Kept ok s)
    (hmove : s.pool.ThreadMove p new)
    (halone : ok → s.closing.isSome = true → ∀ w r c, .complete w r c ∉ new) :
    p.mem.Shows ok (new.foldl .note s.ledger) s.closing := by
  cases hmove with
  | silent _ hlog hbook hmem hslot hstage =>
    rw [hbook, hmem]
    exact h.shows
  | accept task w hs ht hfree hstage htask hother hmem =>
    have hnone : s.closing = none := by
      by_contra hsome
      rw [h.closing (Option.isSome_iff_ne_none.mpr hsome)] at hs
      cases hs
    have hshow := h.shows
    rw [hnone] at hshow ⊢
    rw [hmem]
    exact hshow.of_exec (c := .exec task.req) rfl (h.task task hs) rfl
  | invoke w hs ht hother hslot hmem =>
    rw [hmem]
    exact h.shows
  | ret w code hs ht hother hslot hmem =>
    rw [hmem]
    exact h.shows.endCode code ((h.held _).mpr ⟨w, by simp [hs], rfl⟩)
  | complete w hs ht hother hslot hmem =>
    rw [hmem]
    refine h.shows.endLink ((h.held _).mpr ⟨w, by simp [hs], rfl⟩) fun hok => ?_
    by_contra hsome
    exact halone hok (Option.isSome_iff_ne_none.mpr hsome) _ _ _ (List.mem_singleton_self _)

/-- The workers have the same tasks in hand as before. -/
theorem hands_congr {p : Pool} {r : YoReqT} (hstage : ∀ w, p.stage w = 0 ↔ s.pool.stage w = 0)
    (hslot : ∀ w, s.pool.stage w ≠ 0 → p.slot w = s.pool.slot w) :
    (∃ w, p.stage w ≠ 0 ∧ (p.slot w).req = r) ↔
      ∃ w, s.pool.stage w ≠ 0 ∧ (s.pool.slot w).req = r := by
  refine exists_congr fun w => ?_
  rw [ne_eq, hstage w]
  exact and_congr_right fun hne => by rw [hslot w hne]

/-- A step of a thread keeps the pool's column of the book. -/
theorem Kept.held_thread {p : Pool} {new : List TaskEvent} (h : Kept ok s)
    (hmove : s.pool.ThreadMove p new) (r : YoReqT) :
    (new.foldl Ledger.note s.ledger).pool r = true ↔
      ∃ w, p.stage w ≠ 0 ∧ (p.slot w).req = r := by
  cases hmove with
  | silent _ hlog hbook hmem hslot hstage =>
    rw [hbook, h.held]
    refine (hands_congr (fun w => ?_) hslot).symm
    rcases hstage w with e | ⟨e, e'⟩ <;> simp [*]
  | accept task w hs ht hfree hstage htask hother hmem =>
    have hreq : (p.slot w).req = task.req := by rw [← htask, YoiPoolWorker.req_task]
    show Function.update s.ledger.pool task.req true r = true ↔ _
    by_cases hr : r = task.req
    · subst hr
      exact iff_of_true (by simp) ⟨w, by simp [hstage], hreq⟩
    · rw [Function.update_of_ne hr, h.held]
      constructor
      · rintro ⟨v, hv, hvr⟩
        have hne : v ≠ w := fun e => hv (e ▸ hfree)
        exact ⟨v, (hother v hne).1 ▸ hv, (hother v hne).2 ▸ hvr⟩
      · rintro ⟨v, hv, hvr⟩
        have hne : v ≠ w := fun e => hr (by rw [← hvr, e, hreq])
        exact ⟨v, (hother v hne).1 ▸ hv, (hother v hne).2 ▸ hvr⟩
  | invoke w hs ht hother hslot hmem | ret w _ hs ht hother hslot hmem =>
    refine (h.held r).trans (hands_congr (fun v => ?_) fun v _ => by rw [hslot]).symm
    by_cases hv : v = w
    · simp [hv, hs, ht]
    · rw [hother v hv]
  | complete w hs ht hother hslot hmem =>
    show Function.update s.ledger.pool (s.pool.slot w).req false r = true ↔ _
    rw [hslot]
    by_cases hr : r = (s.pool.slot w).req
    · subst hr
      refine iff_of_false (by simp) ?_
      rintro ⟨v, hv, hvr⟩
      have hne : v ≠ w := fun e => hv (e ▸ ht)
      exact hne (h.apart.slots v w (hother v hne ▸ hv) (by simp [hs]) hvr)
    · rw [Function.update_of_ne hr, h.held]
      have hne : ∀ v, (s.pool.slot v).req = r → v ≠ w := fun v hvr e => hr (e ▸ hvr).symm
      constructor
      · rintro ⟨v, hv, hvr⟩
        exact ⟨v, (hother v (hne v hvr)).symm ▸ hv, hvr⟩
      · rintro ⟨v, hv, hvr⟩
        exact ⟨v, hother v (hne v hvr) ▸ hv, hvr⟩

/-- A step of a thread keeps the request that is being handed over unstarted. -/
theorem Kept.task_thread {p : Pool} {a : PoolAct} (h : Kept ok s) (hok : s.permits a = true)
    (hst : (Pool.system q).step s.pool a = some p) (hmove : s.pool.ThreadMove p (s.pool.record a p))
    (u : Task) (hu : p.caller.task = some u) :
    (Call.exec u.req).allowed ((s.pool.record a p).foldl .note s.ledger) = true := by
  have hbefore : (Call.exec u.req).allowed s.ledger = true := by
    rcases h.atWork.caller_task (noFree_of_permits hok) hst u hu with htask | rfl
    · exact h.task u htask
    · exact (Bool.and_eq_true_iff.mp hok).2
  generalize s.pool.record a p = new at hmove
  cases hmove with
  | silent _ hlog hbook hmem hslot hstage =>
    rw [hbook]
    exact hbefore
  | accept task w hs ht hfree hstage htask hother hmem =>
    rw [ht] at hu
    cases hu
  | invoke w hs ht hother hslot hmem | ret w _ hs ht hother hslot hmem
  | complete w hs ht hother hslot hmem => exact hbefore

/-- A call of one step leaves the pool's column of the book alone. -/
theorem pool_after {l : Ledger} {c : Call} {out : Outcome} (hwhole : isWhole c = true) :
    (l.after c out).pool = l.pool := by
  unfold Ledger.after
  split <;> first | rfl | cases hwhole

/-- A call that is over, or a step of a close, leaves the threads where they are. -/
theorem Kept.withMem {m : Heap} {l : Ledger} {c : Option Onclose} {log : List ReqEvent}
    (h : Kept ok s) (hidle : s.pool.caller.task = none) (hpool : l.pool = s.ledger.pool)
    (hshow : m.Shows ok l c) : Kept ok ⟨{ s.pool with mem := m }, l, log, c⟩ where
  sound := ⟨h.sound.frame m s.pool.lock, h.sound.owns⟩
  atWork := ⟨h.atWork.calling, h.atWork.ahead, h.atWork.task, h.atWork.fits⟩
  apart := ⟨h.apart.slots, h.apart.caller⟩
  task t ht := by
    have ht : s.pool.caller.task = some t := ht
    rw [hidle] at ht
    cases ht
  closing _ := hidle
  held r := by
    rw [hpool]
    exact h.held r
  shows := hshow

/-- **A step.** -/
theorem Kept.step (h : Kept ok s) (halone : ok → Alone s a)
    (hst : (system q).step s a = some t) : Kept ok t := by
  have hidle : s.free → s.pool.caller.task = none := by
    rintro ⟨hidle, -⟩
    rw [hidle]
    rfl
  cases step_cases hst with
  | @thread a p hok hthread =>
    have hfree := noFree_of_permits (p := s.pool) hok
    have hmove := h.atWork.threadMove h.sound hfree hthread
    refine ⟨h.sound.step hthread, h.atWork.step h.sound hfree hthread,
      h.apart.step h.atWork h.sound hfree (h.once hok) hthread, h.task_thread hok hthread hmove,
      fun hsome => ?_, h.held_thread hmove, h.shows_thread hmove fun hok' hsome w r c hmem => ?_⟩
    · rw [Option.eq_none_iff_forall_ne_some]
      intro u hu
      rcases h.atWork.caller_task hfree hthread u hu with htask | rfl
      · rw [h.closing hsome] at htask
        cases htask
      · have hsome : s.closing.isSome = true := hsome
        have hnone : s.closing.isNone = true := (Bool.and_eq_true_iff.mp hok).1
        rw [Option.isNone_iff_eq_none.mp hnone] at hsome
        cases hsome
    · obtain ⟨code, rfl, hpc⟩ := Pool.of_complete_mem_record hmem
      exact halone hok' hsome w code r rfl hpc
  | @call c m out hfree hwhole hc hexec =>
    have hnone := Option.isNone_iff_eq_none.mp hfree.2
    have hshow := h.shows
    rw [hnone] at hshow
    have hwhole' : c.whole none = true := by cases c <;> first | rfl | cases hwhole
    exact h.withMem (hidle hfree) (pool_after hwhole) (hshow.of_exec hwhole' hc hexec)
  | @close g ans hfree ho =>
    have hnone := Option.isNone_iff_eq_none.mp hfree.2
    have hshow := h.shows
    rw [hnone] at hshow
    exact h.withMem (hidle hfree) rfl (hshow.close ho ans)
  | @cancel c hc hi =>
    have hshow := h.shows
    rw [hc] at hshow
    exact h.withMem (h.closing (by rw [hc]; rfl)) rfl (hshow.cancel hi)
  | @shut c hc hi =>
    have hshow := h.shows
    rw [hc] at hshow
    exact h.withMem (h.closing (by rw [hc]; rfl)) rfl (hshow.shut hi)

/-- **The threads, the book and the memory agree after every run.** -/
theorem kept_of_reach (ok : Prop) (h : (system q).Reach (fun s a => ok → Alone s a) s) :
    Kept ok s := by
  refine h.invariant (P := Kept ok) ?_ fun s a t _ h halone hst => h.step halone hst
  rintro ⟨p, l, log, c⟩ ⟨⟨hlock, hpc, hworkers, hidle⟩, hfresh, rfl, rfl, rfl⟩
  have hinit : (Pool.system q).init p := ⟨hlock, hpc, hworkers, hidle⟩
  have hstage : ∀ w, p.stage w = 0 := fun w => Pool.stage_eq (hpc w)
  refine ⟨Pool.sound_of_reachable (.init hinit), (Pool.working_of_reach (.init hinit)).atWork,
    ⟨fun v w hv => absurd (hstage v) hv, fun t w _ hw => absurd (hstage w) hw⟩, ?_, ?_, ?_,
    .start ok hfresh⟩
  · intro t ht
    have hidle : p.caller = .idle := hidle
    simp [hidle, CallerPc.task] at ht
  · intro hsome
    cases hsome
  · simp [Ledger.empty, hstage]

theorem kept_of_reachable (h : (system q).Reachable s) : Kept False s :=
  kept_of_reach False (h.mono fun _ _ _ => False.elim)

/-! ## Every run is a run of the calls -/

/-- The process has the same ready lists, with the same codes, and the same registrations as the
memory `m`, the same data of every handle, the same list of waiting requests of every open handle
that is not being closed, and the same rest of the list of the one that is. -/
structure Like (s : Process) (m : Heap) : Prop where
  ready : ∀ k, s.pool.mem.readyList k = m.readyList k
  reg : ∀ k, (s.pool.mem.queue k).reg = (m.queue k).reg
  fd : ∀ h, (s.pool.mem.fd h).bare = (m.fd h).bare
  waiting : ∀ h, s.ledger.but s.closing h = true → s.pool.mem.handleList h = m.handleList h
  left : ∀ c ∈ s.closing, Chain.walk s.pool.mem.ioq.next NULL Heap.rounds c.i =
    Chain.walk m.ioq.next NULL Heap.rounds c.i

/-- Two memories that show the same. -/
theorem Like.of_refines {m : Heap} {b : Board} (hR' : RefinesIn s.ledger s.closing m b)
    (hR : RefinesIn s.ledger s.closing s.pool.mem b) : s.Like m where
  ready k := by rw [hR.refines.readyList, hR'.refines.readyList]
  reg k := by rw [hR.refines.reg, hR'.refines.reg]
  fd h := by rw [hR.refines.fd, hR'.refines.fd]
  waiting h hh := by rw [hR.refines.handleList hh, hR'.refines.handleList hh]
  left c hc := by
    have hwalk : ∀ {m : Heap}, RefinesIn s.ledger s.closing m b →
        Chain.walk m.ioq.next NULL Heap.rounds c.i = some (b.pend c.fd) := fun hR =>
      Chain.walk_eq_some.mpr ⟨hR.left c hc, Heap.length_lt_rounds (hR.left c hc)⟩
    rw [hwalk hR, hwalk hR']

/-- **Threads and calls together.**  In every state of every run, however the steps of the workers
fall between the calls, within `yo_req_exec` and within `yo_fd_close`, the memory is like that of a
run of the calls with the same book in which no thread is seen at work: each call is one step, and
so is the completion of each request of a handle that is closed, between which the pool completes
requests, too.  Where it does not, in a run in which no worker puts a request on the ready list
while a handle is being closed, the memory is like that of a run of whole calls. -/
theorem runs_as_calls (h : (system q).Reachable s) :
    (∃ m, Heap.parts.Reachable ⟨m, s.ledger, s.closing⟩ ∧ s.Like m) ∧
      ((system q).Reach Alone s → s.closing = none →
        ∃ m, Heap.system.Reachable ⟨m, s.ledger⟩ ∧ s.Like m) := by
  constructor
  · obtain ⟨m, b, place, hm, hR', hR, -⟩ := (kept_of_reachable h).shows
    exact ⟨m, hm.reachable, .of_refines hR' hR⟩
  · intro halone hnone
    obtain ⟨m, b, place, hm, hR', hR, -⟩ :=
      (kept_of_reach True (halone.mono fun _ _ ha _ => ha)).shows
    have hwhole := Heap.whole_of_parts (hm.mono fun _ _ ha => ha trivial)
    refine ⟨m, ?_, .of_refines hR' hR⟩
    rw [hnone] at hwhole
    exact hwhole

/-- A program in which nothing happened yet. -/
def start : Process where
  pool :=
    ⟨Heap.blank, fun _ => none, fun _ => ⟨NULL, NULL, NULL, false⟩, fun _ => .absent, [], .idle⟩
  ledger := .empty
  log := []
  closing := none

theorem init_start (q : YoQueueT) : (system q).init start :=
  ⟨⟨fun _ => rfl, fun _ => rfl, rfl, rfl⟩, Heap.init_start.1, rfl, rfl, rfl⟩

/-- Two requests wait on a handle, and a third one is handed to the pool.  The handle is closed, and
the pool completes its request when one of the others is completed. -/
def between : List ProcessAct :=
  [.call (.reqNew 0x30 0x10), .call (.reqNew 0x50 0x10), .call (.reqNew 0x70 0x10),
    .call (.fdNew 0x200 5 true), .call (.start 0x30 0x200 (.read NULL NULL) .ok .ok),
    .call (.start 0x50 0x200 (.read NULL NULL) .ok .ok),
    .thread (.exec ⟨0x70, 0x401400, 0x700⟩), .thread (.caller ⟨0x40, .ok⟩)] ++
  List.replicate 4 (.thread (.worker 0x40 .enomem)) ++
  [.close 0x200 fun _ => .ok, .cancel] ++ List.replicate 4 (.thread (.worker 0x40 .enomem)) ++
  [.cancel, .shut]

/-- The request of the pool is on the ready list between the two others. -/
theorem runs_as_calls_between :
    ∃ s, (system 0x10).run start between = some s ∧
      s.pool.mem.Ready 0x10 [(0x30, .ecanceled), (0x70, .enomem), (0x50, .ecanceled)] ∧
      ∃ m, Heap.parts.Reachable ⟨m, s.ledger, s.closing⟩ ∧ s.Like m := by
  have hrun : ((system 0x10).run start between).map (fun s =>
      ((s.pool.mem.queue 0x10).head, [0x30, 0x70, 0x50].map fun r =>
        ((s.pool.mem.req r).next, (s.pool.mem.req r).code))) =
      some (0x30, [(0x70, .ecanceled), (0x50, .enomem), (NULL, .ecanceled)]) := by decide +kernel
  obtain ⟨s, hs, hlist⟩ := Option.map_eq_some_iff.mp hrun
  refine ⟨s, hs, ?_, (runs_as_calls (System.reachable_of_run (init_start 0x10) hs)).1⟩
  simp only [List.map_cons, List.map_nil, Prod.mk.injEq, List.cons.injEq, and_true] at hlist
  obtain ⟨hhead, ⟨hnext₁, hcode₁⟩, ⟨hnext₂, hcode₂⟩, hnext₃, hcode₃⟩ := hlist
  refine ⟨⟨hhead, by decide, hnext₁, by decide, hnext₂, by decide, hnext₃⟩, ?_⟩
  exact List.forall_mem_cons.mpr ⟨hcode₁, List.forall_mem_cons.mpr
    ⟨hcode₂, List.forall_mem_singleton.mpr hcode₃⟩⟩

end Process

end Yaooi
