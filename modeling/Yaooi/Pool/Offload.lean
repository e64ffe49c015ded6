import Yaooi.Addr.Basic
import Yaooi.Lib.Episodes
import Yaooi.Lib.Owner
import Yaooi.Pool.Process
import Yaooi.Unix.Socket

/-!
# Operations that go through the pool

`src/fallback/async.c`: what `YOI_MKFALLBACK` makes of an operation `yo_<name>`.  `yoa_<name>` puts
the arguments into a block from `malloc` and hands the block to `yo_req_exec`; the worker function
`yoi_<name>_worker` reads the block, frees it, and calls `yo_<name>`.

* `Offload.system`: callers of these functions beside the threads of the pool, with the blocks.
* `Offload.Kept` is the invariant: who has a block, and what is in it.
* `Offload.performed_once` is the result: each operation is performed once, with the arguments it
  was asked for, and the blocks of the refused ones are never freed.
-/

namespace Yaooi

open Transition Mutex Episodes Owner

/-! ## The operations -/

/-- The names for which `YOI_MKFALLBACK` is used. -/
inductive FallbackOp where
  | read | write | sync | stat | fileSymlink | fileHardlink | fileReadlink | fileRemove | fileRead
  | fileWrite | dirNew | dirOpen | dirNext | socketConnect | socketAccept | procSpawn | procWait
  | dnsGetaddrinfo | sigWait
  deriving DecidableEq, Repr

/-- `yoi_<name>_args_t`, for each of them.  A string is the place where it begins. -/
inductive FallbackArgs where
  | read (handle : YoFdT) (buff pn : Ptr)
  | write (handle : YoFdT) (buff pn : Ptr)
  | sync (fd : YoFdT)
  | stat (fd : YoFdT) (buff : Ptr)
  | fileSymlink (path target : Ptr)
  | fileHardlink (path target : Ptr)
  | fileReadlink (path pres : Ptr)
  | fileRemove (path : Ptr)
  | fileRead (handle : YoFdT) (buff pn : Ptr) (offset : BitVec 64)
  | fileWrite (handle : YoFdT) (buff pn : Ptr) (offset : BitVec 64)
  | dirNew (path : Ptr) (mode : BitVec 32)
  | dirOpen (pres path : Ptr)
  | dirNext (dir pname : Ptr)
  | socketConnect (pres : Ptr) (proto : YoProto) (addr : YoAddr) (port : BitVec 16)
  | socketAccept (server : YoFdT) (pres paddr pport : Ptr)
  | procSpawn (pres : Ptr) (flags : BitVec 32) (argv env cwd pin pout perr : Ptr)
  | procWait (proc psig pcode : Ptr)
  | dnsGetaddrinfo (pres name : Ptr) (flags : BitVec 32)
  | sigWait (pres : Ptr)

/-- The operation the arguments are for. -/
def FallbackArgs.op : FallbackArgs → FallbackOp
  | .read .. => .read
  | .write .. => .write
  | .sync .. => .sync
  | .stat .. => .stat
  | .fileSymlink .. => .fileSymlink
  | .fileHardlink .. => .fileHardlink
  | .fileReadlink .. => .fileReadlink
  | .fileRemove .. => .fileRemove
  | .fileRead .. => .fileRead
  | .fileWrite .. => .fileWrite
  | .dirNew .. => .dirNew
  | .dirOpen .. => .dirOpen
  | .dirNext .. => .dirNext
  | .socketConnect .. => .socketConnect
  | .socketAccept .. => .socketAccept
  | .procSpawn .. => .procSpawn
  | .procWait .. => .procWait
  | .dnsGetaddrinfo .. => .dnsGetaddrinfo
  | .sigWait .. => .sigWait

/-! ## The system -/

/-- What the blocks hold that are allocated. -/
abbrev Blocks := Ptr → Option FallbackArgs

/-- The pool, and the blocks. -/
structure Offload where
  pool : Pool
  blocks : Blocks

inductive OffloadAct where
  /-- The caller calls `yoa_<name>` for the request, and `malloc` answers `pargs`. -/
  | yoa (r : YoReqT) (args : FallbackArgs) (pargs : Ptr)
  /-- A step of one of the threads. -/
  | thread (a : PoolAct)

/-- An event of a task, and the arguments that were found in its block. -/
structure Told where
  event : TaskEvent
  args : Option FallbackArgs

namespace Offload

/-- `yoi_<name>_worker` takes its arguments and frees the block, before anything else. -/
def begin (blocks : Blocks) : TaskEvent → Blocks
  | .invoke _ _ pargs => Function.update blocks pargs none
  | _ => blocks

/-- What is found in the block.  A worker function takes the block to be one of its own. -/
def tell (worker : FallbackOp → Ptr) (blocks : Blocks) (e : TaskEvent) : Told where
  event := e
  args :=
    match e with
    | .submit t | .refuse t | .accept _ t | .take _ t => blocks t.args
    | .invoke _ fn pargs => (blocks pargs).filter fun args => worker args.op = fn
    | .ret .. | .complete .. => none

/-- The operations of a program, with the pool of the queue `q` and without `yo_queue_free`;
`worker` is the worker function of each operation. -/
def system (q : YoQueueT) (worker : FallbackOp → Ptr) : System Offload OffloadAct where
  init s := (Pool.system q).init s.pool ∧ ∀ p, s.blocks p = none
  step s
    | .yoa r args pargs =>
      if s.pool.caller ≠ .idle then none
      -- `YO_ENOMEM`
      else if pargs = NULL then some s
      else if s.blocks pargs = none then
        ((Pool.system q).step s.pool (.exec ⟨r, worker args.op, pargs⟩)).map fun p =>
          ⟨p, Function.update s.blocks pargs (some args)⟩
      else none
    | .thread a =>
      if a.isThread then
        ((Pool.system q).step s.pool a).map fun p => ⟨p, (s.pool.record a p).foldl begin s.blocks⟩
      else none

/-- What a step adds to the log. -/
def record (worker : FallbackOp → Ptr) (s : Offload) (a : OffloadAct) (t : Offload) : List Told :=
  match a with
  | .yoa r args pargs =>
    if pargs = NULL then [] else [tell worker t.blocks (.submit ⟨r, worker args.op, pargs⟩)]
  | .thread a => (s.pool.record a t.pool).map (tell worker s.blocks)

variable {q : YoQueueT} {worker : FallbackOp → Ptr} {s t : Offload} {a : OffloadAct}
  {log new : List Told} {w v : YoiPoolWorkerT}

/-- What a step is. -/
inductive Steps (q : YoQueueT) (worker : FallbackOp → Ptr) (s : Offload) :
    OffloadAct → Offload → Prop
  | enomem {r : YoReqT} {args : FallbackArgs} : Steps q worker s (.yoa r args NULL) s
  | yoa {r : YoReqT} {args : FallbackArgs} {pargs : Ptr} {p : Pool} (hidle : s.pool.caller = .idle)
      (hnull : pargs ≠ NULL) (hfree : s.blocks pargs = none)
      (hst : (Pool.system q).step s.pool (.exec ⟨r, worker args.op, pargs⟩) = some p) :
      Steps q worker s (.yoa r args pargs) ⟨p, Function.update s.blocks pargs (some args)⟩
  | thread {a : PoolAct} {p : Pool} (hthread : a.isThread = true)
      (hst : (Pool.system q).step s.pool a = some p) :
      Steps q worker s (.thread a) ⟨p, (s.pool.record a p).foldl begin s.blocks⟩

theorem step_cases (h : (system q worker).step s a = some t) : Steps q worker s a t := by
  cases a with
  | yoa r args pargs =>
    simp only [system] at h
    split at h
    · cases h
    · rename_i hidle
      split at h
      · rename_i hnull
        cases h
        subst hnull
        exact .enomem
      · rename_i hnull
        split at h
        · rename_i hfree
          obtain ⟨p, hst, rfl⟩ := Option.map_eq_some_iff.mp h
          exact .yoa (not_not.mp hidle) hnull hfree hst
        · cases h
  | thread a =>
    simp only [system] at h
    split at h
    · rename_i hthread
      obtain ⟨p, hst, rfl⟩ := Option.map_eq_some_iff.mp h
      exact .thread hthread hst
    · cases h

/-! ## Who has a block -/

/-- Whose a block is: the caller's until a worker has accepted it, then the worker's until its
function begins.  Nobody has the block of a refused task. -/
inductive BlockOwner where
  | caller
  | worker (w : YoiPoolWorkerT)
  | nobody
  deriving DecidableEq

/-- The owner has the block of this task. -/
def Has (p : Pool) (log : List Told) : BlockOwner → Task → Prop
  | .caller, t => p.caller.task = some t
  | .worker w, t => (p.stage w = 1 ∨ p.stage w = 2) ∧ (p.slot w).task = t
  | .nobody, t => ∃ e ∈ log, e.event = .refuse t

/-- The block holds arguments for the worker function of the task. -/
def RightArgs (worker : FallbackOp → Ptr) (t : Task) (args : FallbackArgs) : Prop :=
  t.worker = worker args.op

/-! ## The log -/

/-- A call of `yoa_<name>` that had its block: the task, its arguments, and the worker that got it
unless it was refused. -/
structure Asked where
  task : Task
  args : FallbackArgs
  worker : Option YoiPoolWorkerT

/-- What such a call adds to the log. -/
def Asked.events (c : Asked) : List Told :=
  [⟨.submit c.task, some c.args⟩,
    ⟨c.worker.elim (.refuse c.task) (.accept · c.task), some c.args⟩]

/-- An operation on its worker: its task, its arguments, and what it returned. -/
structure Operation where
  task : Task
  args : FallbackArgs
  code : YoCode

/-- The life of an operation on the worker `w`. -/
def Operation.events (w : YoiPoolWorkerT) (o : Operation) : List Told :=
  [⟨.accept w o.task, some o.args⟩, ⟨.take w o.task, some o.args⟩,
    ⟨.invoke w o.task.worker o.task.args, some o.args⟩, ⟨.ret w o.code, none⟩,
    ⟨.complete w o.task.req o.code, none⟩]

/-- What the log says about the worker `w`. -/
def workerLog (w : YoiPoolWorkerT) (log : List Told) : List Told :=
  log.filter (·.event.worker = some w)

/-- What it says about the calls. -/
def callLog (log : List Told) : List Told := log.filter (·.event.isCall)

/-- The operation that the worker has in hand. -/
structure InHand (s : Offload) (w : YoiPoolWorkerT) (o : Operation) : Prop where
  task : s.pool.stage w ≠ 0 → o.task = (s.pool.slot w).task
  args : s.pool.stage w = 1 ∨ s.pool.stage w = 2 →
    s.blocks (s.pool.slot w).args = some o.args
  code : s.pool.stage w = 4 → (s.pool.mem.req (s.pool.slot w).req).code = o.code

/-- What holds in every run. -/
structure Kept (worker : FallbackOp → Ptr) (s : Offload) (log : List Told) : Prop where
  sound : s.pool.Sound
  atWork : s.pool.AtWork
  apart : s.pool.Apart
  blocks : Owned Task.args (RightArgs worker) s.blocks (Has s.pool log)
  calls : ∃ c : Asked,
    Row Asked.events (callLog log) (if s.pool.caller.task = none then 0 else 1) c ∧
    ∀ t, s.pool.caller.task = some t → c.task = t ∧ s.blocks t.args = some c.args
  lives : ∀ w, ∃ o, Row (Operation.events w) (workerLog w log) (s.pool.stage w) o ∧ InHand s w o

/-! ## Steps of a worker -/

end Offload

namespace Pool

variable {p u : Pool} {es : List TaskEvent} {w : YoiPoolWorkerT}

/-- The locks are no matter of what a step does to the tasks. -/
theorem TaskMove.lock (h : TaskMove p w u es) (lock : Lock → Option Thread) :
    TaskMove p w { u with lock := lock } es := by
  cases h with
  | stay hstage hslot hmem => exact .stay hstage hslot hmem
  | take hs ht hslot hmem => exact .take hs ht hslot hmem
  | invoke hs ht hslot hmem => exact .invoke hs ht hslot hmem
  | ret code hs ht hslot hmem => exact .ret code hs ht hslot hmem
  | complete hs ht hslot hmem => exact .complete hs ht hslot hmem

theorem CallMove.lock (h : CallMove p u es) (lock : Lock → Option Thread) :
    CallMove p { u with lock := lock } es := by
  cases h with
  | stay htask hslot hstage hmem => exact .stay htask hslot hstage hmem
  | refuse task hs ht hslot hstage hmem => exact .refuse task hs ht hslot hstage hmem
  | accept task w hs ht hfree hstage htask hslot hother hmem =>
    exact .accept task w hs ht hfree hstage htask hslot hother hmem

end Pool

namespace Offload

variable {q : YoQueueT} {worker : FallbackOp → Ptr} {s t : Offload} {a : OffloadAct}
  {log new : List Told} {w v : YoiPoolWorkerT}

section Steps

variable {p p' : Pool} {e : TaskEvent} {es : List TaskEvent} {task : Task} {blocks blocks' : Blocks}

theorem workerLog_map : workerLog w (log ++ es.map (tell worker blocks)) =
    workerLog w log ++ (history w es).map (tell worker blocks) := by
  rw [workerLog, List.filter_append, List.filter_map]
  rfl

theorem callLog_map : callLog (log ++ es.map (tell worker blocks)) =
    callLog log ++ (es.filter TaskEvent.isCall).map (tell worker blocks) := by
  rw [callLog, List.filter_append, List.filter_map]
  rfl

/-- The worker has a task in its slot that it has not begun. -/
def Holds (p : Pool) (w : YoiPoolWorkerT) : Prop := p.stage w = 1 ∨ p.stage w = 2

/-- Who has a block stays as it is, where no task is refused or passed on. -/
theorem has_congr (hcaller : p'.caller.task = p.caller.task) (hholds : ∀ w, Holds p' w ↔ Holds p w)
    (hslot : ∀ w, Holds p w → p'.slot w = p.slot w)
    (hrefuse : ∀ e ∈ new, ∀ t, e.event ≠ .refuse t) (o : BlockOwner) (t : Task) :
    Has p' (log ++ new) o t ↔ Has p log o t := by
  cases o with
  | caller => simp only [Has, hcaller]
  | worker w =>
    show Holds p' w ∧ _ ↔ Holds p w ∧ _
    rw [hholds]
    exact and_congr_right fun hw => by rw [hslot w hw]
  | nobody =>
    simp only [Has, List.mem_append]
    constructor
    · rintro ⟨e, he | he, heq⟩
      · exact ⟨e, he, heq⟩
      · exact absurd heq (hrefuse e he t)
    · rintro ⟨e, he, heq⟩
      exact ⟨e, .inl he, heq⟩

/-- The operation in hand is the same after a step that is no matter of the worker. -/
theorem InHand.congr {o : Operation} (h : InHand s w o) (hstage : t.pool.stage w = s.pool.stage w)
    (hslot : s.pool.stage w ≠ 0 → t.pool.slot w = s.pool.slot w)
    (hargs : Holds s.pool w → t.blocks (s.pool.slot w).args = s.blocks (s.pool.slot w).args)
    (hcode : s.pool.stage w = 4 → (t.pool.mem.req (s.pool.slot w).req).code =
      (s.pool.mem.req (s.pool.slot w).req).code) : InHand t w o := by
  constructor
  · intro hw
    rw [hstage] at hw
    rw [hslot hw]
    exact h.task hw
  · intro hw
    rw [hstage] at hw
    rw [hslot (by omega), hargs hw]
    exact h.args hw
  · intro hw
    rw [hstage] at hw
    rw [hslot (by omega), hcode hw]
    exact h.code hw

/-- What is left to prove of a step of the worker `w`: who has the blocks, and what `w` has. -/
theorem Kept.ofWorker (h : Kept worker s log) (hsound : p.Sound) (hwork : p.AtWork)
    (hapart : p.Apart) (hcaller : p.caller = s.pool.caller)
    (hother : ∀ v, v ≠ w → p.stage v = s.pool.stage v ∧ p.slot v = s.pool.slot v)
    (hmove : Pool.TaskMove s.pool w p es)
    (howned : Owned Task.args (RightArgs worker) blocks
      (Has p (log ++ es.map (tell worker s.blocks))))
    (hblocks : ∀ o t, Has s.pool log o t → o ≠ .worker w → blocks t.args = s.blocks t.args)
    (hself : ∃ o, Row (Operation.events w)
      (workerLog w log ++ (history w es).map (tell worker s.blocks)) (p.stage w) o ∧
        InHand ⟨p, blocks⟩ w o) :
    Kept worker ⟨p, blocks⟩ (log ++ es.map (tell worker s.blocks)) := by
  obtain ⟨hnocall, hnolife⟩ := hmove.events
  refine ⟨hsound, hwork, hapart, howned, ?_, fun v => ?_⟩
  · obtain ⟨c, hrow, hc⟩ := h.calls
    refine ⟨c, ?_, fun t ht => ?_⟩
    · show Row _ _ (if p.caller.task = none then 0 else 1) c
      rw [callLog_map, hnocall, List.map_nil, List.append_nil, hcaller]
      exact hrow
    · replace ht : s.pool.caller.task = some t := hcaller ▸ ht
      obtain ⟨htask, hargs⟩ := hc t ht
      exact ⟨htask, (hblocks .caller t ht (by simp)).trans hargs⟩
  · rw [workerLog_map]
    by_cases hv : v = w
    · rwa [hv]
    · obtain ⟨o, hrow, ho⟩ := h.lives v
      have hstage : p.stage v = s.pool.stage v := (hother v hv).1
      refine ⟨o, ?_, ho.congr hstage (fun _ => (hother v hv).2) (fun hw => ?_) fun hw => ?_⟩
      · show Row _ _ (p.stage v) o
        rw [hnolife v hv, List.map_nil, List.append_nil, hstage]
        exact hrow
      · exact hblocks (.worker v) _ ⟨hw, rfl⟩ (by simp [hv])
      · refine hmove.code_of_ne fun hne heq => hv ?_
        exact h.apart.slots v w (by omega) hne heq.symm

/-- The blocks stay with their owners, if a step of the worker leaves it its task. -/
theorem Kept.owned (h : Kept worker s log) (hcaller : p.caller = s.pool.caller)
    (hother : ∀ v, v ≠ w → p.stage v = s.pool.stage v ∧ p.slot v = s.pool.slot v)
    (hholds : Holds p w ↔ Holds s.pool w) (hslot : Holds s.pool w → p.slot w = s.pool.slot w)
    (hrefuse : ∀ e ∈ new, ∀ t, e.event ≠ .refuse t) :
    Owned Task.args (RightArgs worker) s.blocks (Has p (log ++ new)) := by
  refine h.blocks.congr (has_congr (by rw [hcaller]) (fun v => ?_) (fun v hv => ?_) hrefuse)
  · by_cases hvw : v = w
    · rw [hvw, hholds]
    · rw [Holds, Holds, (hother v hvw).1]
  · by_cases hvw : v = w
    · subst hvw
      exact hslot hv
    · exact (hother v hvw).2

/-- Its block is gone when the worker begins its task. -/
theorem Kept.owned_begin (h : Kept worker s log) (hcaller : p.caller = s.pool.caller)
    (hother : ∀ v, v ≠ w → p.stage v = s.pool.stage v ∧ p.slot v = s.pool.slot v)
    (hs : Holds s.pool w) (ht : ¬ Holds p w) (hrefuse : ∀ e ∈ new, ∀ t, e.event ≠ .refuse t) :
    Owned Task.args (RightArgs worker)
      (Function.update s.blocks (s.pool.slot w).args none) (Has p (log ++ new)) := by
  have hself : Has s.pool log (.worker w) (s.pool.slot w).task := ⟨hs, rfl⟩
  refine h.blocks.lose hself (fun y hy => hy.2.symm) fun o t => ?_
  cases o with
  | caller => simp only [Has, hcaller, ne_eq, reduceCtorEq, not_false_eq_true, and_true]
  | worker v =>
    show Holds p v ∧ _ ↔ (Holds s.pool v ∧ _) ∧ _
    by_cases hv : v = w
    · simp [hv, ht]
    · rw [Holds, (hother v hv).1, (hother v hv).2]
      simp [Holds, hv]
  | nobody =>
    have hsame : Has p (log ++ new) .nobody t ↔ Has p log .nobody t :=
      has_congr rfl (fun _ => Iff.rfl) (fun _ _ => rfl) hrefuse .nobody t
    rw [hsame]
    simp [Has]

/-- A step of a worker. -/
theorem Kept.workerStep (h : Kept worker s log) (hsound : p.Sound) (hwork : p.AtWork)
    (hapart : p.Apart) (hcaller : p.caller = s.pool.caller)
    (hother : ∀ v, v ≠ w → p.stage v = s.pool.stage v ∧ p.slot v = s.pool.slot v)
    (hmove : Pool.TaskMove s.pool w p es) :
    Kept worker ⟨p, es.foldl begin s.blocks⟩ (log ++ es.map (tell worker s.blocks)) := by
  have hkeep : _ → _ → _ → Kept worker ⟨p, es.foldl begin s.blocks⟩ _ :=
    h.ofWorker hsound hwork hapart hcaller hother hmove
  obtain ⟨o, hrow, ho⟩ := h.lives w
  cases hmove with
  | stay hstage hslot hmem =>
    refine hkeep ?_ (fun _ _ _ _ => rfl) ⟨o, ?_, ?_⟩
    · exact h.owned hcaller hother (by rw [Holds, Holds, hstage]) (fun hw => hslot (by
        unfold Holds at hw
        omega)) (by simp)
    · rw [hstage]
      simpa [history] using hrow
    · refine ho.congr hstage hslot (fun _ => rfl) fun _ => ?_
      show (p.mem.req _).code = _
      rw [hmem]
  | take hs ht hslot hmem =>
    have htask := ho.task (by omega)
    have hargs := ho.args (.inl hs)
    refine hkeep ?_ (fun _ _ _ _ => rfl) ⟨o, ?_, ?_⟩
    · exact h.owned hcaller hother (by simp [Holds, hs, ht]) (fun _ => hslot) (by simp [tell])
    · rw [hs] at hrow
      rw [ht, history_self rfl]
      refine hrow.next ?_
      simp [Operation.events, tell, htask, YoiPoolWorker.task, hargs]
    · exact ⟨fun _ => by rw [htask, hslot], fun _ => by rw [hslot, ← hargs]; rfl, by simp [ht]⟩
  | invoke hs ht hslot hmem =>
    have hown : Owned Task.args (RightArgs worker) _ (Has p (log ++ [tell worker s.blocks
        (.invoke w (s.pool.slot w).worker (s.pool.slot w).args)])) :=
      h.owned_begin hcaller hother (.inr hs) (by simp [Holds, ht]) (by simp [tell])
    have htask := ho.task (by omega)
    have hargs := ho.args (.inr hs)
    refine hkeep hown (fun o t hot hne => ?_) ⟨o, ?_, ?_⟩
    · have hself : Has s.pool log (.worker w) (s.pool.slot w).task := ⟨.inr hs, rfl⟩
      exact Function.update_of_ne (h.blocks.key_ne hself hot hne) ..
    · obtain ⟨args, hblock, hright⟩ := h.blocks.block (.worker w) _ ⟨.inr hs, rfl⟩
      obtain rfl : args = o.args := Option.some.inj (hblock.symm.trans hargs)
      rw [hs] at hrow
      rw [ht, history_self rfl]
      refine hrow.next ?_
      have hread : (s.blocks (s.pool.slot w).args).filter
          (fun args => worker args.op = (s.pool.slot w).worker) = some o.args := by
        rw [hargs]
        exact Option.filter_eq_some_iff.mpr ⟨rfl, decide_eq_true hright.symm⟩
      simp [Operation.events, tell, htask, YoiPoolWorker.task, hread]
    · exact ⟨fun _ => by rw [htask, hslot], by simp [ht], by simp [ht]⟩
  | ret code hs ht hslot hmem =>
    have htask := ho.task (by omega)
    refine hkeep ?_ (fun _ _ _ _ => rfl) ⟨{ o with code := code }, ?_, ?_⟩
    · exact h.owned hcaller hother (by simp [Holds, hs, ht]) (fun _ => hslot) (by simp [tell])
    · rw [hs] at hrow
      rw [ht, history_self rfl]
      refine (hrow.congr (f := { o with code := code }) rfl).next ?_
      simp [Operation.events, tell]
    · refine ⟨fun _ => by rw [htask, hslot], by simp [ht], fun _ => ?_⟩
      show (p.mem.req (p.slot w).req).code = code
      rw [hslot, hmem]
      simp [Heap.endCode]
  | complete hs ht hslot hmem =>
    have htask := ho.task (by omega)
    have hret := ho.code hs
    refine hkeep ?_ (fun _ _ _ _ => rfl) ⟨o, ?_, ?_⟩
    · exact h.owned hcaller hother (by simp [Holds, hs, ht]) (fun _ => hslot) (by simp [tell])
    · rw [hs] at hrow
      rw [ht, history_self rfl]
      refine hrow.last ?_ rfl
      simp [Operation.events, tell, htask, YoiPoolWorker.task, hret]
    · exact ⟨by simp [ht], by simp [ht], by simp [ht]⟩

/-! ## Steps of the caller -/

/-- A step of the caller in `yo_req_exec`. -/
theorem Kept.callerStep (h : Kept worker s log) (hsound : p.Sound) (hwork : p.AtWork)
    (hapart : p.Apart) (hmove : Pool.CallMove s.pool p es) :
    Kept worker ⟨p, es.foldl begin s.blocks⟩ (log ++ es.map (tell worker s.blocks)) := by
  obtain ⟨c, hrow, hc⟩ := h.calls
  cases hmove with
  | stay htask hslot hstage hmem =>
    refine ⟨hsound, hwork, hapart, ?_, ⟨c, ?_, ?_⟩, fun v => ?_⟩
    · refine h.blocks.congr (has_congr htask (fun v => ?_) (fun v _ => by rw [hslot]) (by simp))
      rw [Holds, Holds, hstage v]
    · simpa [htask] using hrow
    · intro t ht
      exact hc t (htask ▸ ht)
    · obtain ⟨o, hlife, ho⟩ := h.lives v
      refine ⟨o, ?_, ho.congr (hstage v) (fun _ => by rw [hslot]) (fun _ => rfl) fun _ => ?_⟩
      · show Row _ _ (p.stage v) o
        rw [hstage v]
        simpa using hlife
      · show (p.mem.req _).code = _
        rw [hmem]
  | refuse task hs ht hslot hstage hmem =>
    obtain ⟨hctask, hcargs⟩ := hc task hs
    refine ⟨hsound, hwork, hapart, ?_, ⟨c, ?_, ?_⟩, fun v => ?_⟩
    · have hhas : Has s.pool log .caller task := hs
      refine h.blocks.pass (b := .nobody) hhas (fun y hy => ?_) fun o t => ?_
      · exact Option.some.inj (hy.symm.trans hs)
      · cases o with
        | caller => simp [Has, ht]
        | worker v => simp [Has, hstage v, hslot]
        | nobody => simp [Has, tell, or_and_right, exists_or, eq_comm]
    · rw [if_neg (by simp [hs])] at hrow
      rw [if_pos ht, callLog_map]
      refine (hrow.congr (f := { c with worker := none }) rfl).last ?_ rfl
      simp [Asked.events, tell, hctask, hcargs]
    · intro t ht'
      cases ht.symm.trans ht'
    · obtain ⟨o, hlife, ho⟩ := h.lives v
      refine ⟨o, ?_, ho.congr (hstage v) (fun _ => by rw [hslot]) (fun _ => rfl) fun _ => ?_⟩
      · show Row _ _ (p.stage v) o
        rw [hstage v, workerLog_map]
        simpa [history, TaskEvent.worker] using hlife
      · show (p.mem.req _).code = _
        rw [hmem]
  | accept task w hs ht hfree hstage htask hslot hother hmem =>
    obtain ⟨hctask, hcargs⟩ := hc task hs
    refine ⟨hsound, hwork, hapart, ?_, ⟨c, ?_, ?_⟩, fun v => ?_⟩
    · have hhas : Has s.pool log .caller task := hs
      refine h.blocks.pass (b := .worker w) hhas (fun y hy => ?_) fun o t => ?_
      · exact Option.some.inj (hy.symm.trans hs)
      · cases o with
        | caller => simp [Has, ht]
        | worker v =>
          by_cases hv : v = w
          · subst hv
            simp [Has, hfree, hstage, htask, eq_comm]
          · simp [Has, hother v hv, hslot v hv, hv]
        | nobody => simp [Has, tell]
    · rw [if_neg (by simp [hs])] at hrow
      rw [if_pos ht, callLog_map]
      refine (hrow.congr (f := { c with worker := some w }) rfl).last ?_ rfl
      simp [Asked.events, tell, hctask, hcargs]
    · intro t ht'
      cases ht.symm.trans ht'
    · obtain ⟨o, hlife, ho⟩ := h.lives v
      by_cases hv : v = w
      · subst hv
        refine ⟨⟨task, c.args, .ok⟩, ?_, ?_⟩
        · rw [hfree] at hlife
          show Row _ _ (p.stage v) _
          rw [hstage, workerLog_map, history_self rfl]
          refine hlife.open_.next ?_
          simp [Operation.events, tell, hcargs]
        · refine ⟨fun _ => htask.symm, fun _ => ?_, fun hw => ?_⟩
          · show s.blocks (p.slot v).task.args = _
            rw [htask, hcargs]
          · exact absurd (hstage.symm.trans hw) (by decide)
      · refine ⟨o, ?_, ho.congr (hother v hv) (fun _ => hslot v hv) (fun _ => rfl) fun hw => ?_⟩
        · show Row _ _ (p.stage v) o
          rw [hother v hv, workerLog_map]
          simpa [history, TaskEvent.worker, Ne.symm hv] using hlife
        · show (p.mem.req _).code = _
          rw [hmem, Heap.req_yoiReqBegin, if_neg (h.apart.caller task v hs (by omega))]

/-- A call of `yoa_<name>` that gets its block. -/
theorem Kept.yoaStep (h : Kept worker s log) {args : FallbackArgs} (hsound : p.Sound)
    (hwork : p.AtWork) (hapart : p.Apart) (hidle : s.pool.caller.task = none)
    (htask : p.caller.task = some task) (hslot : p.slot = s.pool.slot)
    (hstage : ∀ w, p.stage w = s.pool.stage w) (hmem : p.mem = s.pool.mem)
    (hfree : s.blocks task.args = none) (hright : RightArgs worker task args) :
    Kept worker ⟨p, Function.update s.blocks task.args (some args)⟩
      (log ++ [⟨.submit task, some args⟩]) := by
  have hne : ∀ o x, Has s.pool log o x → x.args ≠ task.args := by
    intro o x hx heq
    obtain ⟨u, hu, -⟩ := h.blocks.block o x hx
    rw [heq, hfree] at hu
    cases hu
  obtain ⟨c, hrow, hc⟩ := h.calls
  refine ⟨hsound, hwork, hapart, ?_, ⟨⟨task, args, none⟩, ?_, ?_⟩, fun v => ?_⟩
  · refine h.blocks.gain (a := .caller) hfree hright fun o t => ?_
    cases o with
    | caller => simp [Has, hidle, htask, eq_comm]
    | worker v => simp [Has, hstage v, hslot]
    | nobody => simp [Has]
  · rw [if_pos hidle] at hrow
    rw [if_neg (by simp [htask])]
    have hlog : callLog (log ++ [⟨.submit task, some args⟩]) =
        callLog log ++ [⟨.submit task, some args⟩] := by
      simp [callLog, TaskEvent.isCall]
    rw [hlog]
    exact hrow.open_.next rfl
  · intro t ht
    obtain rfl := Option.some.inj (htask.symm.trans ht)
    exact ⟨rfl, Function.update_self ..⟩
  · obtain ⟨o, hlife, ho⟩ := h.lives v
    refine ⟨o, ?_, ho.congr (hstage v) (fun _ => by rw [hslot]) (fun hw => ?_) fun _ => ?_⟩
    · show Row _ _ (p.stage v) o
      rw [hstage v]
      simpa [workerLog, TaskEvent.worker] using hlife
    · exact Function.update_of_ne (hne (.worker v) _ ⟨hw, rfl⟩) ..
    · show (p.mem.req _).code = _
      rw [hmem]

end Steps

/-! ## Runs -/

/-- A step that gives no request to the pool which the pool has. -/
def Once (s : Offload) (a : OffloadAct) : Prop :=
  ∀ r args pargs, a = .yoa r args pargs → ∀ w, s.pool.stage w ≠ 0 → (s.pool.slot w).req ≠ r

theorem kept_init (h : (system q worker).init s) : Kept worker s [] := by
  obtain ⟨hinit, hblocks⟩ := h
  have hreach : (Pool.system q).Reach Pool.NoFree s.pool := .init hinit
  obtain ⟨-, hpc, -, hidle⟩ := hinit
  have hstage : ∀ w, s.pool.stage w = 0 := fun w => Pool.stage_eq (hpc w)
  have hcaller : s.pool.caller.task = none := by
    rw [hidle]
    rfl
  refine ⟨Pool.sound_of_reachable hreach.reachable, (Pool.working_of_reach hreach).atWork, ?_, ?_,
    ⟨⟨⟨NULL, NULL, NULL⟩, .sigWait NULL, none⟩, ?_, ?_⟩, fun w => ⟨⟨⟨NULL, NULL, NULL⟩,
      .sigWait NULL, .ok⟩, ?_, ?_⟩⟩
  · exact ⟨fun v w hv => absurd (hstage v) hv, fun t w _ hw => absurd (hstage w) hw⟩
  · refine .empty hblocks fun o t => ?_
    cases o <;> simp [Has, hcaller, hstage]
  · rw [if_pos hcaller]
    exact .nil
  · intro t ht
    cases hcaller.symm.trans ht
  · rw [hstage]
    exact .nil
  · constructor <;> simp [hstage]

/-- One step keeps it. -/
theorem Kept.step (h : Kept worker s log) (hone : Once s a)
    (hst : (system q worker).step s a = some t) : Kept worker t (log ++ record worker s a t) := by
  cases step_cases hst with
  | enomem => simpa [record] using h
  | @yoa r args pargs p hidle hnull hfree hpool =>
    have hnofree : Pool.NoFree s.pool (.exec ⟨r, worker args.op, pargs⟩) := by simp [Pool.NoFree]
    have hsound : p.Sound := h.sound.step hpool
    have hwork : p.AtWork := h.atWork.step h.sound hnofree hpool
    have hapart : p.Apart := by
      refine h.apart.step h.atWork h.sound hnofree (fun task htask w hw => ?_) hpool
      cases htask
      exact hone r args pargs rfl w hw
    cases Pool.step_cases hpool with
    | exec =>
      have hnone : s.pool.caller.task = none := by simp [hidle, CallerPc.task]
      have hright : RightArgs worker ⟨r, worker args.op, pargs⟩ args := rfl
      have hstep := h.yoaStep hsound hwork hapart hnone rfl rfl (fun _ => rfl) rfl hfree hright
      rw [record, if_neg hnull]
      simpa [tell] using hstep
  | @thread a p hthread hpool =>
    have hnofree := Pool.noFree_of_thread (s := s.pool) hthread
    have hsound : p.Sound := h.sound.step hpool
    have hwork : p.AtWork := h.atWork.step h.sound hnofree hpool
    have hapart : p.Apart :=
      h.apart.step h.atWork h.sound hnofree (Pool.once_of_thread hthread) hpool
    rw [record]
    cases Pool.step_cases hpool with
    | exec | free => cases hthread
    | caller hnext hop =>
      have hmove := h.atWork.callMove h.sound (Pool.callerMove hnext h.atWork.calling)
      exact h.callerStep hsound hwork hapart (hmove.lock _)
    | worker hnext hop =>
      have hm := Pool.workerMove hnext
      have hmove := h.atWork.taskMove h.sound hnext
      exact h.workerStep hsound hwork hapart hm.caller hm.stage_of_ne (hmove.lock _)
    | @spurious w hwait =>
      have hmove : Pool.CallMove s.pool (s.pool.goto w .woken) [] := by
        rw [show s.pool.goto w .woken = s.pool.signal w from (if_pos hwait).symm]
        exact .stay (by simp) (by simp) (fun v => Pool.stage_signal) (by simp)
      exact h.callerStep hsound hwork hapart hmove

/-- **It holds in every run.** -/
theorem kept_of_reach {s : Offload × List Told}
    (h : ((system q worker).logged (record worker)).Reach (fun s a => Once s.1 a) s) :
    Kept worker s.1 s.2 := by
  refine h.invariant (P := fun s => Kept worker s.1 s.2) ?_ ?_
  · rintro ⟨s, log⟩ ⟨hinit, rfl⟩
    exact kept_init hinit
  · rintro s a t - hkept hone hst
    obtain ⟨hst, hlog⟩ := System.logged_step.mp hst
    rw [hlog]
    exact hkept.step hone hst

/-- The pool takes the steps of a pool. -/
theorem pool_reach (h : (system q worker).Reach Once s) :
    (Pool.system q).Reach Pool.NoFree s.pool := by
  refine h.invariant (P := fun s => (Pool.system q).Reach Pool.NoFree s.pool) ?_ ?_
  · rintro s ⟨hinit, -⟩
    exact .init hinit
  · intro s a t _ hr _ hst
    cases step_cases hst with
    | enomem => exact hr
    | yoa hidle hnull hfree hpool => exact hr.step (by simp [Pool.NoFree]) hpool
    | thread hthread hpool => exact hr.step (Pool.noFree_of_thread hthread) hpool

/-- What a step does to the ready list. -/
theorem lists_step (h : (system q worker).Reach Once s)
    (hst : (system q worker).step s a = some t) :
    Pool.Lists q s.pool t.pool ((record worker s a t).map (·.event)) := by
  have hr := pool_reach h
  have hstep : ∀ {a p}, Pool.NoFree s.pool a → (Pool.system q).step s.pool a = some p →
      Pool.Lists q s.pool p (s.pool.record a p) := fun hfree hpool =>
    ((Pool.ofQueue_of_reach hr).step (Pool.working_of_reach hr).atWork
      (Pool.sound_of_reachable hr.reachable) hfree hpool).2
  cases step_cases hst with
  | enomem => exact ⟨by simp [record], fun _ => rfl⟩
  | yoa hidle hnull hfree hpool =>
    rw [record, if_neg hnull]
    exact hstep (by simp [Pool.NoFree]) hpool
  | thread hthread hpool =>
    have hevents : ∀ es : List TaskEvent, (es.map (tell worker s.blocks)).map (·.event) = es := by
      intro es
      simp [Function.comp_def, tell]
    rw [record, hevents]
    exact hstep (Pool.noFree_of_thread hthread) hpool

/-- **Every operation is performed once, with its own arguments.**  In every run in which no request
is given to the pool twice at a time, whatever the threads' order and `malloc` answers:

* the calls of `yoa_<name>` are answered one by one, each for its own arguments;
* what a worker does is a row of whole operations and the beginning of one: it accepts a task, calls
  the function of it, which finds the arguments of that call in the block, and completes the request
  with the code that the operation returned;
* the step that completes a request puts it in front of the ready list of the queue, with this code,
  and no other step does anything to the front of that list;
* a block is allocated exactly while the caller or a worker has it to pass on or to read, and for
  ever if its task was refused; no two of them are the same block. -/
theorem performed_once {s : Offload × List Told}
    (h : ((system q worker).logged (record worker)).Reach (fun s a => Once s.1 a) s) :
    (∃ c : Asked, Row Asked.events (callLog s.2)
      (if s.1.pool.caller.task = none then 0 else 1) c ∧
        ∀ t, s.1.pool.caller.task = some t → c.task = t) ∧
    (∀ w, ∃ o : Operation, Row (Operation.events w) (workerLog w s.2) (s.1.pool.stage w) o ∧
      (s.1.pool.stage w ≠ 0 → o.task = (s.1.pool.slot w).task)) ∧
    (∀ a t, (system q worker).step s.1 a = some t →
      Pool.Lists q s.1.pool t.pool ((record worker s.1 a t).map (·.event))) ∧
    (∀ p, s.1.blocks p ≠ none ↔ ∃ o t, Has s.1.pool s.2 o t ∧ t.args = p) ∧
    (∀ o o' t t', Has s.1.pool s.2 o t → Has s.1.pool s.2 o' t' → t.args = t'.args → o = o') := by
  have hkept := kept_of_reach h
  refine ⟨?_, fun w => ?_, fun a t => lists_step (System.Reach.of_logged h),
    fun p => ⟨hkept.blocks.owned p, ?_⟩, hkept.blocks.unique⟩
  · obtain ⟨c, hrow, hc⟩ := hkept.calls
    exact ⟨c, hrow, fun t ht => (hc t ht).1⟩
  · obtain ⟨o, hrow, ho⟩ := hkept.lives w
    exact ⟨o, hrow, ho.task⟩
  · rintro ⟨o, t, ht, rfl⟩
    obtain ⟨args, hargs, -⟩ := hkept.blocks.block o t ht
    simp [hargs]

/-- There is no memory for a worker at first; the operation is asked for again. -/
def askedTwice : List OffloadAct :=
  .yoa 0x30 (.stat 0x20 0x60) 0x50 :: .thread (.caller ⟨NULL, .ok⟩) ::
    .yoa 0x30 (.stat 0x20 0x60) 0x58 :: Pool.finished.tail.map .thread

/-- It is performed once, and the first block is still allocated in the end. -/
theorem performed_once_askedTwice : ∃ s,
    ((system 0x10 fun _ => 0x401400).logged (record fun _ => 0x401400)).run
      (⟨Pool.oneRequest, fun _ => none⟩, []) askedTwice = some s ∧
    workerLog 0x40 s.2 =
      Operation.events 0x40 ⟨⟨0x30, 0x401400, 0x58⟩, .stat 0x20 0x60, .ok⟩ ∧
    (s.1.pool.mem.queue 0x10).head = 0x30 ∧ s.1.blocks 0x58 = none ∧ s.1.blocks 0x50 ≠ none := by
  have hend : (((system 0x10 fun _ => 0x401400).logged (record fun _ => 0x401400)).run
      (⟨Pool.oneRequest, fun _ => none⟩, []) askedTwice).map
        (fun s => (s.2, (s.1.pool.mem.queue 0x10).head, s.1.blocks 0x58)) =
    some ([⟨.submit ⟨0x30, 0x401400, 0x50⟩, some (.stat 0x20 0x60)⟩,
      ⟨.refuse ⟨0x30, 0x401400, 0x50⟩, some (.stat 0x20 0x60)⟩,
      ⟨.submit ⟨0x30, 0x401400, 0x58⟩, some (.stat 0x20 0x60)⟩] ++
        Operation.events 0x40 ⟨⟨0x30, 0x401400, 0x58⟩, .stat 0x20 0x60, .ok⟩, 0x30, none) := rfl
  obtain ⟨s, hrun, hs⟩ := Option.map_eq_some_iff.mp hend
  obtain ⟨hlog, hs⟩ := Prod.mk.inj hs
  obtain ⟨hhead, hfreed⟩ := Prod.mk.inj hs
  have hinit : ((system 0x10 fun _ => 0x401400).logged (record fun _ => 0x401400)).init
      (⟨Pool.oneRequest, fun _ => none⟩, []) := ⟨⟨Pool.init_oneRequest, fun _ => rfl⟩, rfl⟩
  have hthread : ∀ a ∈ Pool.finished.tail.map OffloadAct.thread, ∀ s, Once s a := by
    intro a ha s r args pargs heq
    obtain ⟨b, -, rfl⟩ := List.mem_map.mp ha
    cases heq
  have hok : ((system 0x10 fun _ => 0x401400).logged (record fun _ => 0x401400)).Along
      (fun s a => Once s.1 a) (⟨Pool.oneRequest, fun _ => none⟩, []) askedTwice := by
    refine ⟨fun r args pargs _ w hw => absurd rfl hw, fun t ht => ⟨?_, fun u hu => ⟨?_, ?_⟩⟩⟩
    · intro r args pargs heq
      cases heq
    · cases ht
      cases hu
      exact fun r args pargs _ w hw => absurd rfl hw
    · exact fun v _ => System.along_of_mem (fun a ha s => hthread a ha s.1) v
  obtain ⟨-, -, -, hblocks, -⟩ := performed_once (System.reach_of_run (.init hinit) hok hrun)
  refine ⟨s, hrun, ?_, hhead, hfreed, (hblocks 0x50).mpr ⟨.nobody, ⟨0x30, 0x401400, 0x50⟩, ?_, rfl⟩⟩
  · rw [hlog]
    rfl
  · rw [hlog]
    exact ⟨_, List.mem_cons_of_mem _ (List.mem_cons_self ..), rfl⟩

end Offload

end Yaooi
