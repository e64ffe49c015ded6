import Yaooi.Pool.Submit

/-!
# Every task runs once

What becomes of the tasks given to `yo_req_exec`, in every interleaving of the caller with the
workers and without `yo_queue_free`.

* `Pool.record` makes a log of a run: the calls with their answers, and what each worker does with
  the tasks it gets.
* `Job.events` is the life of one task on its worker.  `Logged` says that the log of a worker is a
  row of such lives, the last of them as far as the worker has got (`WorkerPc.stage`); `TaskMove` is
  how far one step of a worker gets.
* `tasks_once` is the result.
-/

namespace Yaooi

open Transition Mutex

/-! ## The log of a run -/

/-- What is done about a task: by the caller (`submit`, `refuse`, `accept`) or by a worker. -/
inductive TaskEvent where
  | submit (t : Task)
  | refuse (t : Task)
  /-- The task is in the slot of the worker. -/
  | accept (w : YoiPoolWorkerT) (t : Task)
  /-- The worker reads its slot. -/
  | take (w : YoiPoolWorkerT) (t : Task)
  /-- The worker calls this function with this argument. -/
  | invoke (w : YoiPoolWorkerT) (fn args : Ptr)
  /-- The function returns. -/
  | ret (w : YoiPoolWorkerT) (code : YoCode)
  /-- The request is put on the ready list, with this code. -/
  | complete (w : YoiPoolWorkerT) (r : YoReqT) (code : YoCode)
  deriving DecidableEq

namespace TaskEvent

/-- The worker whose task it is about. -/
def worker : TaskEvent → Option YoiPoolWorkerT
  | .accept w _ | .take w _ | .invoke w _ _ | .ret w _ | .complete w _ _ => some w
  | .submit _ | .refuse _ => none

/-- It belongs to a call of `yo_req_exec`. -/
def isCall : TaskEvent → Bool
  | .submit _ | .refuse _ | .accept _ _ => true
  | .take _ _ | .invoke _ _ _ | .ret _ _ | .complete _ _ _ => false

end TaskEvent

/-- What the log says about the worker `w`. -/
def history (w : YoiPoolWorkerT) (log : List TaskEvent) : List TaskEvent :=
  log.filter (·.worker = some w)

/-- A call of `yo_req_exec` that has returned: its task, and the worker that got it unless it
was refused. -/
structure Submission where
  task : Task
  worker : Option YoiPoolWorkerT

/-- What such a call adds to the log. -/
def Submission.events (c : Submission) : List TaskEvent :=
  [.submit c.task, c.worker.elim (.refuse c.task) (.accept · c.task)]

/-- A task on its worker: what its function returned, and what its request was completed with. -/
structure Job where
  task : Task
  code : YoCode
  result : YoCode

/-- The life of a task on the worker `w`. -/
def Job.events (w : YoiPoolWorkerT) (j : Job) : List TaskEvent :=
  [.accept w j.task, .take w j.task, .invoke w j.task.worker j.task.args, .ret w j.code,
    .complete w j.task.req j.result]

/-- How far a worker with this record has got with its task: that many of the events of its job are
in the log.  It is `0` for a worker without an uncompleted task. -/
def WorkerPc.stage (k : YoiPoolWorker) : WorkerPc → ℕ
  | .entry | .test | .waiting | .woken => if k.worker = NULL then 0 else 1
  | .taken _ => 2
  | .run _ => 3
  | .ending _ .coded | .ending _ .locked => 4
  | .absent | .ending _ .linked | .ending _ .notified | .ended | .clear | .leaving | .exited => 0

namespace Pool

variable {q : YoQueueT} {s t : Pool} {a : PoolAct} {w v : YoiPoolWorkerT} {op : Op Lock}
  {code : YoCode} {env : CallerEnv} {task : Task} {log new : List TaskEvent}

/-- What a step of the caller adds to the log, from its place before and after the step and the
slots after it. -/
def callerRecord (env : CallerEnv) (slot : YoiPoolWorkerT → YoiPoolWorker) :
    CallerPc → CallerPc → List TaskEvent
  | .execTest .., .execSignal it => [.accept it (slot it).task]
  | .execNext task [], _ =>
    if env.malloc = NULL then [.refuse task] else [.accept env.malloc (slot env.malloc).task]
  | _, _ => []

/-- What a step of the worker `w` adds to the log, from its place before and after the step and the
memory after it. -/
def workerRecord (w : YoiPoolWorkerT) (code : YoCode) (m : Heap) :
    WorkerPc → WorkerPc → List TaskEvent
  | .test, .taken task => [.take w task]
  | .taken task, _ => [.invoke w task.worker task.args]
  | .run _, _ => [.ret w code]
  | .ending r .locked, _ => [.complete w r (m.req r).code]
  | _, _ => []

theorem workerRecord_locked {m : Heap} {r : YoReqT} {p : WorkerPc} :
    workerRecord w code m (.ending r .locked) p = [.complete w r (m.req r).code] := rfl

/-- What a step adds to the log. -/
def record (s : Pool) (a : PoolAct) (t : Pool) : List TaskEvent :=
  match a with
  | .exec task => [.submit task]
  | .caller env => callerRecord env t.slot s.caller t.caller
  | .worker w code => workerRecord w code t.mem (s.pc w) (t.pc w)
  | .free | .spurious _ => []

@[inherit_doc WorkerPc.stage]
def stage (s : Pool) (w : YoiPoolWorkerT) : ℕ := (s.pc w).stage (s.slot w)

/-! ## What a worker does with its task -/

/-- How far a step of the worker `w` brings its task, and what it adds to the log. -/
inductive TaskMove (s : Pool) (w : YoiPoolWorkerT) (t : Pool) : List TaskEvent → Prop
  | stay (hstage : t.stage w = s.stage w) (hslot : s.stage w ≠ 0 → t.slot w = s.slot w)
      (hmem : t.mem = s.mem) : TaskMove s w t []
  | take (hs : s.stage w = 1) (ht : t.stage w = 2) (hslot : t.slot w = s.slot w)
      (hmem : t.mem = s.mem) : TaskMove s w t [.take w (s.slot w).task]
  | invoke (hs : s.stage w = 2) (ht : t.stage w = 3) (hslot : t.slot w = s.slot w)
      (hmem : t.mem = s.mem) : TaskMove s w t [.invoke w (s.slot w).worker (s.slot w).args]
  | ret (code : YoCode) (hs : s.stage w = 3) (ht : t.stage w = 4) (hslot : t.slot w = s.slot w)
      (hmem : t.mem = s.mem.endCode (s.slot w).req code) : TaskMove s w t [.ret w code]
  | complete (hs : s.stage w = 4) (ht : t.stage w = 0) (hslot : t.slot w = s.slot w)
      (hmem : t.mem = s.mem.endLink (s.slot w).req) :
      TaskMove s w t [.complete w (s.slot w).req (s.mem.req (s.slot w).req).code]

@[simp] theorem stage_goto {p : WorkerPc} : (s.goto w p).stage w = p.stage (s.slot w) := by
  rw [stage, pc_goto_self, slot_goto]

theorem stage_eq {p : WorkerPc} (h : s.pc w = p) : s.stage w = p.stage (s.slot w) := by
  rw [stage, h]

theorem stage_le (s : Pool) (w : YoiPoolWorkerT) : s.stage w ≤ 4 := by
  unfold stage WorkerPc.stage
  split <;> first | omega | split <;> omega

/-- The tasks of the other workers are where they were. -/
theorem WorkerMove.stage_of_ne (hm : WorkerMove w s t) (v : YoiPoolWorkerT) (hv : v ≠ w) :
    t.stage v = s.stage v ∧ t.slot v = s.slot v := by
  rw [stage, stage, hm.pc_of_ne v hv, hm.slot_of_ne v hv]
  exact ⟨rfl, rfl⟩

/-- **Every step of a worker is such a move.** -/
theorem AtWork.taskMove (h : AtWork s) (hs : Sound s)
    (hnext : s.workerNext w code = some (op, t)) :
    TaskMove s w t (s.record (.worker w code) t) := by
  have hkys := h.kys hs (workerMove hnext).before.1
  have hfit := h.fits w
  cases workerStep hnext with
  | read hpc hwork =>
    rw [record, hpc, pc_goto_self]
    exact .take ((stage_eq hpc).trans (if_neg hwork)) stage_goto rfl rfl
  | leave hpc hasked => cases hasked.symm.trans hkys
  | wait hpc =>
    rw [record, hpc, pc_goto_self]
    exact .stay (stage_goto.trans (stage_eq hpc).symm) (fun _ => rfl) rfl
  | unlock hpc =>
    rw [hpc] at hfit
    obtain ⟨rfl, -⟩ := hfit
    rw [record, hpc]
    exact .invoke (stage_eq hpc) stage_goto rfl rfl
  | ret hpc =>
    rw [hpc] at hfit
    obtain ⟨rfl, -⟩ := hfit
    rw [record, hpc]
    exact .ret code (stage_eq hpc) stage_goto rfl rfl
  | link hpc =>
    rw [hpc] at hfit
    obtain ⟨rfl, -⟩ := hfit
    have hcode : ∀ r, ((s.mem.endLink (s.slot w).req).req r).code = (s.mem.req r).code :=
      fun _ => Heap.code_endLink ..
    rw [record, hpc, workerRecord_locked, hcode]
    exact .complete (stage_eq hpc) stage_goto rfl rfl
  | clear hpc =>
    rw [record, hpc]
    refine .stay ?_ (fun hne => absurd (stage_eq hpc) hne) rfl
    rw [stage_goto, stage_eq hpc]
    simp [WorkerPc.stage]
  | _ hpc =>
    rw [record, hpc]
    exact .stay (stage_goto.trans (stage_eq hpc).symm) (fun _ => rfl) rfl

/-- The step in which the function of a task returns stores what it returned, for the task's own
request. -/
theorem Working.stores (h : Working q s) (hnext : s.workerNext w code = some (op, t))
    (hstage : s.stage w = 3) : t.mem = s.mem.endCode (s.slot w).req code := by
  have hrun : ∃ task, s.pc w = .run task := by
    unfold stage at hstage
    cases hpc : s.pc w with
    | run task => exact ⟨task, rfl⟩
    | ending r e => cases e <;> simp [hpc, WorkerPc.stage] at hstage
    | _ =>
      simp only [hpc, WorkerPc.stage] at hstage
      first | omega | split at hstage <;> omega
  obtain ⟨task, hpc⟩ := hrun
  have hfit := h.fits w
  rw [hpc] at hfit
  obtain ⟨rfl, -⟩ := hfit
  simp only [workerNext, hpc] at hnext
  cases hnext
  rfl

/-! ## What the caller does with a task -/

/-- What a step of the caller does to the task it has in hand, and what it adds to the log. -/
inductive CallMove (s t : Pool) : List TaskEvent → Prop
  | stay (htask : t.caller.task = s.caller.task) (hslot : t.slot = s.slot)
      (hstage : ∀ w, t.stage w = s.stage w) (hmem : t.mem = s.mem) : CallMove s t []
  | refuse (task : Task) (hs : s.caller.task = some task) (ht : t.caller.task = none)
      (hslot : t.slot = s.slot) (hstage : ∀ w, t.stage w = s.stage w) (hmem : t.mem = s.mem) :
      CallMove s t [.refuse task]
  | accept (task : Task) (w : YoiPoolWorkerT) (hs : s.caller.task = some task)
      (ht : t.caller.task = none) (hfree : s.stage w = 0) (hstage : t.stage w = 1)
      (htask : (t.slot w).task = task) (hslot : ∀ v, v ≠ w → t.slot v = s.slot v)
      (hother : ∀ v, v ≠ w → t.stage v = s.stage v)
      (hmem : t.mem = s.mem.yoiReqBegin task.req s.mem.text.poolCancelcb) :
      CallMove s t [.accept w task]

/-- The caller still has the steps left that its task takes. -/
theorem execLeft_of_task {p : CallerPc} (h : p.task ≠ none) : 2 ≤ p.execLeft := by
  cases p with
  | execNext t rest => exact Nat.le_add_left ..
  | execTest t it rest => exact (by decide : 2 ≤ 4).trans (Nat.le_add_left ..)
  | execSkip t it rest => exact (by decide : 2 ≤ 3).trans (Nat.le_add_left ..)
  | _ => exact absurd rfl h

/-- A step that only goes on adds nothing to the log. -/
theorem callerRecord_go {slot : YoiPoolWorkerT → YoiPoolWorker} {p p' : CallerPc}
    (htask : p'.task = p.task) (hleft : p'.execLeft < p.execLeft) :
    callerRecord env slot p p' = [] := by
  unfold callerRecord
  split
  · cases htask
  · have htwo := execLeft_of_task (p := p') (by rw [htask]; simp [CallerPc.task])
    have hlt : p'.execLeft < 2 := hleft
    omega
  · rfl

/-- A signal does not touch a task. -/
theorem stage_signal : (s.signal w).stage v = s.stage v := by
  unfold stage
  rw [slot_signal, pc_signal]
  split
  · rename_i hv
    rw [hv.1, hv.2]
    rfl
  · rfl

/-- **Every step of the caller is such a move**, outside of `yo_queue_free`. -/
theorem AtWork.callMove (h : AtWork s) (hs : Sound s) (hmove : CallerMove s env t) :
    CallMove s t (s.record (.caller env) t) := by
  rw [record]
  cases hmove with
  | go pc hpc htask hahead hleft =>
    rw [caller_call, callerRecord_go htask hleft]
    exact .stay htask rfl (fun _ => rfl) rfl
  | fill task it rest hpc hroom =>
    have hit : it ∈ s.workers := h.ahead (by simp [hpc, CallerPc.ahead])
    have hwork := h.task task (by simp [hpc, CallerPc.task])
    have htask : ((s.slot it).fill task).task = task := rfl
    rw [hpc]
    simp only [callerRecord, caller_call, slot_call, slot_setSlot_self, htask]
    refine .accept task it (by simp [hpc, CallerPc.task]) rfl ?_ ?_ (by simp [htask])
      (fun v hv => by simp [slot_setSlot, hv]) (fun v hv => by simp [stage, slot_setSlot, hv]) rfl
    · rcases h.idle ((h.mem_workers hs).mpr hit) hroom with hpc | hpc | hpc | hpc <;>
        exact (stage_eq hpc).trans (if_pos hroom)
    · rcases h.idle ((h.mem_workers hs).mpr hit) hroom with hpc | hpc | hpc | hpc <;>
        simp [stage, hpc, WorkerPc.stage, hwork]
  | signal it hpc =>
    rw [hpc]
    simp only [callerRecord]
    exact .stay (by simp [hpc, CallerPc.task]) (by simp) (fun v => stage_signal) (by simp)
  | refuse task hpc hmalloc =>
    rw [hpc]
    simp only [callerRecord, hmalloc, if_true]
    exact .refuse task (by simp [hpc, CallerPc.task]) rfl rfl (fun _ => rfl) rfl
  | spawn task hpc hmalloc hnew =>
    have hwork := h.task task (by simp [hpc, CallerPc.task])
    rw [hpc]
    simp only [callerRecord, hmalloc, if_false, slot_call, slot_goto, slot_setSlot_self]
    refine .accept task env.malloc (by simp [hpc, CallerPc.task]) rfl (stage_eq hnew) ?_
      (by simp [YoiPoolWorker.task]) (fun v hv => by simp [slot_setSlot, hv])
      (fun v hv => by simp [stage, pc_goto, slot_setSlot, hv]) rfl
    simp [stage, WorkerPc.stage, hwork]

/-! ## The lives of tasks -/

end Pool

section Lives

variable {w v : YoiPoolWorkerT} {hist log new : List TaskEvent} {n : ℕ} {task task' : Task}
  {c c' : YoCode} {ok : Prop}

/-- The history of the worker `w` is a row of whole lives of tasks and the first `n` events in the
life of `task`.  If `ok` then every whole one completed its request with what its function
returned, and `c` is what the function of `task` returned, once it has. -/
def Lives (ok : Prop) (w : YoiPoolWorkerT) (hist : List TaskEvent) (n : ℕ) (task : Task)
    (c : YoCode) : Prop :=
  ∃ (done : List Job) (j : Job), hist = done.flatMap (Job.events w) ++ (j.events w).take n ∧
    (n ≠ 0 → j.task = task) ∧ (ok → (∀ d ∈ done, d.result = d.code) ∧ (n = 4 → j.code = c))

/-- The task counts only while it is alive, and its code only once it has returned. -/
theorem Lives.congr (h : Lives ok w hist n task c) (htask : n ≠ 0 → task' = task)
    (hcode : ok → n = 4 → c' = c) : Lives ok w hist n task' c' := by
  obtain ⟨done, j, hhist, hj, hok⟩ := h
  refine ⟨done, j, hhist, fun hn => (hj hn).trans (htask hn).symm,
    fun ho => ⟨(hok ho).1, fun hn => ?_⟩⟩
  rw [hcode ho hn]
  exact (hok ho).2 hn

/-- A task is accepted. -/
theorem Lives.accept (h : Lives ok w hist 0 task c) :
    Lives ok w (hist ++ [.accept w task']) 1 task' c' := by
  obtain ⟨done, j, hhist, -, hok⟩ := h
  refine ⟨done, ⟨task', .ok, .ok⟩, ?_, fun _ => rfl, fun ho => ⟨(hok ho).1, by simp⟩⟩
  simp [hhist, Job.events]

/-- It is taken. -/
theorem Lives.take (h : Lives ok w hist 1 task c) :
    Lives ok w (hist ++ [.take w task]) 2 task c' := by
  obtain ⟨done, j, hhist, hj, hok⟩ := h
  obtain rfl := hj one_ne_zero
  refine ⟨done, j, ?_, fun _ => rfl, fun ho => ⟨(hok ho).1, by simp⟩⟩
  simp [hhist, Job.events]

/-- Its function is called. -/
theorem Lives.invoke (h : Lives ok w hist 2 task c) :
    Lives ok w (hist ++ [.invoke w task.worker task.args]) 3 task c' := by
  obtain ⟨done, j, hhist, hj, hok⟩ := h
  obtain rfl := hj two_ne_zero
  refine ⟨done, j, ?_, fun _ => rfl, fun ho => ⟨(hok ho).1, by simp⟩⟩
  simp [hhist, Job.events]

/-- Its function returns. -/
theorem Lives.ret (h : Lives ok w hist 3 task c) :
    Lives ok w (hist ++ [.ret w c']) 4 task c' := by
  obtain ⟨done, j, hhist, hj, hok⟩ := h
  obtain rfl := hj three_ne_zero
  refine ⟨done, { j with code := c' }, ?_, fun _ => rfl, fun ho => ⟨(hok ho).1, fun _ => rfl⟩⟩
  simp [hhist, Job.events]

/-- Its request is completed. -/
theorem Lives.complete (h : Lives ok w hist 4 task c) :
    Lives ok w (hist ++ [.complete w task.req c]) 0 task' c' := by
  obtain ⟨done, j, hhist, hj, hok⟩ := h
  obtain rfl := hj four_ne_zero
  refine ⟨done ++ [{ j with result := c }], j, ?_, by simp, fun ho => ⟨fun d hd => ?_, by simp⟩⟩
  · simp [hhist, Job.events]
  · rcases List.mem_append.mp hd with hd | hd
    · exact (hok ho).1 d hd
    · obtain rfl := List.mem_singleton.mp hd
      exact ((hok ho).2 rfl).symm

theorem history_self {e : TaskEvent} (h : e.worker = some w) : history w [e] = [e] :=
  List.filter_eq_self.mpr (by simp [h])

theorem history_append : history w (log ++ new) = history w log ++ history w new :=
  List.filter_append ..

end Lives

namespace Pool

variable {q : YoQueueT} {s t : Pool} {a : PoolAct} {w v : YoiPoolWorkerT} {op : Op Lock}
  {code : YoCode} {env : CallerEnv} {task : Task} {log new : List TaskEvent} {ok : Prop}

/-- No two uncompleted tasks are for one request. -/
structure Apart (s : Pool) : Prop where
  slots : ∀ v w, s.stage v ≠ 0 → s.stage w ≠ 0 → (s.slot v).req = (s.slot w).req → v = w
  caller : ∀ t w, s.caller.task = some t → s.stage w ≠ 0 → (s.slot w).req ≠ t.req

/-- The log of a run tells, for each worker, of whole tasks and of the one it has in hand, and it
tells of answered calls and of the one that is not yet. -/
structure Accounted (ok : Prop) (s : Pool) (log : List TaskEvent) : Prop where
  calls : ∃ done : List Submission, log.filter TaskEvent.isCall =
    done.flatMap Submission.events ++ s.caller.task.toList.map .submit
  lives : ∀ w, Lives ok w (history w log) (s.stage w) (s.slot w).task
    (s.mem.req (s.slot w).req).code

/-! ## Steps of a worker -/

/-- A task that is not completed after a step was not before, and the slot is the same. -/
theorem TaskMove.slot (h : TaskMove s w t new) (hne : s.stage w ≠ 0) : t.slot w = s.slot w := by
  cases h with
  | stay hstage hslot hmem => exact hslot hne
  | take hs ht hslot hmem | invoke hs ht hslot hmem | ret code hs ht hslot hmem
  | complete hs ht hslot hmem => exact hslot

theorem TaskMove.before (h : TaskMove s w t new) (hne : t.stage w ≠ 0) : s.stage w ≠ 0 := by
  cases h with
  | stay hstage hslot hmem => rwa [← hstage]
  | take hs ht hslot hmem | invoke hs ht hslot hmem | ret code hs ht hslot hmem
  | complete hs ht hslot hmem => simp [hs]

/-- The code of another request stays as it is. -/
theorem TaskMove.code_of_ne (h : TaskMove s w t new) {r : YoReqT}
    (hr : s.stage w ≠ 0 → (s.slot w).req ≠ r) : (t.mem.req r).code = (s.mem.req r).code := by
  cases h with
  | stay hstage hslot hmem => rw [hmem]
  | take hs ht hslot hmem | invoke hs ht hslot hmem => rw [hmem]
  | complete hs ht hslot hmem => rw [hmem, Heap.code_endLink]
  | ret code hs ht hslot hmem =>
    rw [hmem, Heap.endCode, Heap.req_setReq, if_neg]
    exact fun e => hr (by simp [hs]) e.symm

/-- It is no call, and no matter of another worker. -/
theorem TaskMove.events (h : TaskMove s w t new) :
    new.filter TaskEvent.isCall = [] ∧ ∀ v, v ≠ w → history v new = [] := by
  cases h <;> simp +contextual [TaskEvent.isCall, history, TaskEvent.worker, eq_comm]

/-- The worker's own log. -/
theorem TaskMove.lives (h : TaskMove s w t new)
    (hl : Lives ok w (history w log) (s.stage w) (s.slot w).task (s.mem.req (s.slot w).req).code) :
    Lives ok w (history w (log ++ new)) (t.stage w) (t.slot w).task
      (t.mem.req (t.slot w).req).code := by
  rw [history_append]
  cases h with
  | stay hstage hslot hmem =>
    rw [hstage, show history w [] = [] from rfl, List.append_nil]
    exact hl.congr (fun hn => by rw [hslot hn]) fun _ hn => by rw [hmem, hslot (by simp [hn])]
  | take hs ht hslot hmem =>
    rw [hs] at hl
    rw [ht, hslot, hmem, history_self rfl]
    exact hl.take
  | invoke hs ht hslot hmem =>
    rw [hs] at hl
    rw [ht, hslot, hmem, history_self rfl]
    exact hl.invoke
  | ret code hs ht hslot hmem =>
    rw [hs] at hl
    have hcode : (t.mem.req (s.slot w).req).code = code := by simp [hmem, Heap.endCode]
    rw [ht, hslot, hcode, history_self rfl]
    exact hl.ret
  | complete hs ht hslot hmem =>
    rw [hs] at hl
    rw [ht, hslot, hmem, Heap.code_endLink, history_self rfl]
    exact hl.complete

/-- A step of a worker keeps the account. -/
theorem Accounted.worker (h : Accounted ok s log) (hok : ok → Apart s)
    (hmove : TaskMove s w t new) (hother : ∀ v, v ≠ w → t.stage v = s.stage v ∧ t.slot v = s.slot v)
    (hcaller : t.caller = s.caller) : Accounted ok t (log ++ new) where
  calls := by
    rw [List.filter_append, hmove.events.1, List.append_nil, hcaller]
    exact h.calls
  lives v := by
    by_cases hv : v = w
    · subst hv
      exact hmove.lives (h.lives v)
    · obtain ⟨hstage, hslot⟩ := hother v hv
      rw [history_append, hmove.events.2 v hv, List.append_nil, hstage, hslot]
      refine (h.lives v).congr (fun _ => rfl) fun ho hn => hmove.code_of_ne fun hne e => ?_
      exact hv ((hok ho).slots v w (by simp [hn]) hne e.symm)

/-- A task that is not completed after the step was in the same slot before. -/
theorem TaskMove.back (hmove : TaskMove s w t new)
    (hother : ∀ v, v ≠ w → t.stage v = s.stage v ∧ t.slot v = s.slot v) (v : YoiPoolWorkerT)
    (hv : t.stage v ≠ 0) : s.stage v ≠ 0 ∧ t.slot v = s.slot v := by
  by_cases hvw : v = w
  · subst hvw
    exact ⟨hmove.before hv, hmove.slot (hmove.before hv)⟩
  · exact ⟨(hother v hvw).1 ▸ hv, (hother v hvw).2⟩

/-- So does it keep the tasks apart. -/
theorem Apart.worker (h : Apart s) (hmove : TaskMove s w t new)
    (hother : ∀ v, v ≠ w → t.stage v = s.stage v ∧ t.slot v = s.slot v)
    (hcaller : t.caller = s.caller) : Apart t := by
  have hback := hmove.back hother
  constructor
  · intro u v hu hv he
    rw [(hback u hu).2, (hback v hv).2] at he
    exact h.slots u v (hback u hu).1 (hback v hv).1 he
  · intro task v htask hv
    rw [(hback v hv).2]
    exact h.caller task v (hcaller ▸ htask) (hback v hv).1

/-! ## Steps of the caller -/

/-- The slot of a worker with an uncompleted task is left alone. -/
theorem CallMove.slot_eq (h : CallMove s t new) (w : YoiPoolWorkerT) (hne : s.stage w ≠ 0) :
    t.slot w = s.slot w := by
  cases h with
  | stay htask hslot hstage hmem | refuse task hs ht hslot hstage hmem => rw [hslot]
  | accept task u hs ht hfree hstage htask hslot hother hmem =>
    exact hslot w fun e => hne (e ▸ hfree)

/-- A step of the caller keeps the account. -/
theorem Accounted.caller (h : Accounted ok s log) (hok : ok → Apart s) (hmove : CallMove s t new) :
    Accounted ok t (log ++ new) := by
  obtain ⟨done, hdone⟩ := h.calls
  cases hmove with
  | stay htask hslot hstage hmem =>
    rw [List.append_nil]
    refine ⟨⟨done, htask ▸ hdone⟩, fun w => ?_⟩
    rw [hslot, hstage, hmem]
    exact h.lives w
  | refuse task hs ht hslot hstage hmem =>
    refine ⟨⟨done ++ [⟨task, none⟩], ?_⟩, fun w => ?_⟩
    · simp [List.filter_append, hdone, hs, ht, TaskEvent.isCall, Submission.events]
    · rw [history_append, show history w [.refuse task] = [] from rfl, List.append_nil, hslot,
        hstage, hmem]
      exact h.lives w
  | accept task w hs ht hfree hstage htask hslot hother hmem =>
    refine ⟨⟨done ++ [⟨task, some w⟩], ?_⟩, fun v => ?_⟩
    · simp [List.filter_append, hdone, hs, ht, TaskEvent.isCall, Submission.events]
    · have hl := h.lives v
      rw [history_append]
      by_cases hv : v = w
      · subst hv
        rw [hfree] at hl
        rw [hstage, htask, history_self rfl]
        exact hl.accept
      · have hnone : history v [.accept w task] = [] := by
          simp [history, TaskEvent.worker, Ne.symm hv]
        rw [hnone, List.append_nil, hother v hv, hslot v hv]
        refine hl.congr (fun _ => rfl) fun ho hn => ?_
        have hne := (hok ho).caller task v hs (by simp [hn])
        rw [hmem, Heap.req_yoiReqBegin, if_neg hne]

/-- So does it keep the tasks apart. -/
theorem Apart.callMove (h : Apart s) (hmove : CallMove s t new) : Apart t := by
  cases hmove with
  | stay htask hslot hstage hmem =>
    constructor
    · intro v w hv hw
      rw [hslot]
      exact h.slots v w (hstage v ▸ hv) (hstage w ▸ hw)
    · intro task w ht hw
      rw [hslot]
      exact h.caller task w (htask ▸ ht) (hstage w ▸ hw)
  | refuse task hs ht hslot hstage hmem =>
    constructor
    · intro v w hv hw
      rw [hslot]
      exact h.slots v w (hstage v ▸ hv) (hstage w ▸ hw)
    · intro task w htask
      rw [ht] at htask
      cases htask
  | accept task w hs ht hfree hstage htask hslot hother hmem =>
    have hreq : (t.slot w).req = task.req := by rw [← htask, YoiPoolWorker.req_task]
    have hne : ∀ v, v ≠ w → t.stage v ≠ 0 → s.stage v ≠ 0 ∧ (t.slot v).req ≠ task.req := by
      intro v hv hstage
      rw [hother v hv] at hstage
      rw [hslot v hv]
      exact ⟨hstage, h.caller task v hs hstage⟩
    constructor
    · intro u v hu hv he
      by_cases huw : u = w <;> by_cases hvw : v = w
      · rw [huw, hvw]
      · subst huw
        exact absurd (he.symm.trans hreq) (hne v hvw hv).2
      · subst hvw
        exact absurd (he.trans hreq) (hne u huw hu).2
      · rw [hslot u huw, hslot v hvw] at he
        exact h.slots u v (hne u huw hu).1 (hne v hvw hv).1 he
    · intro task w htask
      rw [ht] at htask
      cases htask

/-! ## Runs -/

/-- A step at which no request is submitted again before it is completed. -/
def Once (s : Pool) (a : PoolAct) : Prop :=
  ∀ task, a = .exec task → ∀ w, s.stage w ≠ 0 → (s.slot w).req ≠ task.req

/-- The step of a thread is no call. -/
theorem noFree_of_thread (h : a.isThread = true) : NoFree s a := by
  rintro rfl
  cases h

theorem once_of_thread (h : a.isThread = true) : Once s a := by
  rintro task rfl
  cases h

/-- One step of a run without `yo_queue_free`. -/
theorem Accounted.step (h : Accounted ok s log) (hr : (system q).Reach NoFree s)
    (hok : ok → Apart s ∧ Once s a) (hfree : NoFree s a) (hst : (system q).step s a = some t) :
    Accounted ok t (log ++ s.record a t) ∧ (ok → Apart t) ∧
      ∀ w, s.stage w ≠ 0 → t.slot w = s.slot w := by
  have hs := sound_of_reachable hr.reachable
  have hw := working_of_reach hr
  cases step_cases hst with
  | @exec task hidle hq hwork =>
    obtain ⟨done, hdone⟩ := h.calls
    refine ⟨⟨⟨done, ?_⟩, fun w => ?_⟩, fun ho => ⟨(hok ho).1.slots, fun u w hu => ?_⟩,
      fun _ _ => rfl⟩
    · simp [record, List.filter_append, hdone, hidle, CallerPc.task, TaskEvent.isCall]
    · rw [history_append, show history w (s.record (.exec task) _) = [] from rfl, List.append_nil]
      exact h.lives w
    · cases hu
      exact (hok ho).2 task rfl w
  | free => exact absurd rfl hfree
  | caller hnext hop =>
    have hmove := hw.atWork.callMove hs (callerMove hnext hw.calling)
    have hacc := h.caller (fun ho => (hok ho).1) hmove
    refine ⟨⟨hacc.calls, hacc.lives⟩, fun ho => ?_, hmove.slot_eq⟩
    have hapart := (hok ho).1.callMove hmove
    exact ⟨hapart.slots, hapart.caller⟩
  | @worker w code op u lock hnext hop =>
    have hm := workerMove hnext
    have hmove := hw.atWork.taskMove hs hnext
    have hother := hm.stage_of_ne
    have hacc := h.worker (fun ho => (hok ho).1) hmove hother hm.caller
    refine ⟨⟨hacc.calls, hacc.lives⟩, fun ho => ?_, fun v hne => ?_⟩
    · have hapart := (hok ho).1.worker hmove hother hm.caller
      exact ⟨hapart.slots, hapart.caller⟩
    · by_cases hv : v = w
      · subst hv
        exact hmove.slot hne
      · exact (hother v hv).2
  | @spurious w hwait =>
    have hsig : s.goto w .woken = s.signal w := (if_pos hwait).symm
    have hmove : CallMove s (s.signal w) (s.record (.spurious w) (s.signal w)) :=
      .stay (by simp) (by simp) (fun v => stage_signal) (by simp)
    rw [hsig]
    exact ⟨h.caller (fun ho => (hok ho).1) hmove, fun ho => (hok ho).1.callMove hmove,
      hmove.slot_eq⟩

/-- **The log of a run accounts for every call and every task**, and a worker's slot is not
touched before its task is completed. -/
theorem accounted_of_reach (ok : Prop) {s : Pool × List TaskEvent}
    (h : ((system q).logged record).Reach (fun s a => NoFree s.1 a ∧ (ok → Once s.1 a)) s) :
    Accounted ok s.1 s.2 ∧ (ok → Apart s.1) := by
  have hr : ∀ {s},
      ((system q).logged record).Reach (fun s a => NoFree s.1 a ∧ (ok → Once s.1 a)) s →
        (system q).Reach NoFree s.1 := fun h =>
    System.Reach.of_logged (h.mono fun _ _ hok => hok.1)
  refine h.invariant (P := fun s => Accounted ok s.1 s.2 ∧ (ok → Apart s.1)) ?_ ?_
  · rintro ⟨s, log⟩ ⟨⟨-, hpc, -, hidle⟩, rfl⟩
    have hstage : ∀ w, s.stage w = 0 := fun w => stage_eq (hpc w)
    have hcalls : s.caller.task = none := by rw [show s.caller = .idle from hidle]; rfl
    refine ⟨⟨⟨[], by simp [hcalls]⟩, fun w => ⟨[], ⟨⟨NULL, NULL, NULL⟩, .ok, .ok⟩, ?_⟩⟩,
      fun _ => ⟨fun v w hv => absurd (hstage v) hv, fun t w _ hw => absurd (hstage w) hw⟩⟩
    simp [hstage, history]
  · rintro s a t hreach ⟨hacc, hapart⟩ hok hst
    obtain ⟨hst, hlog⟩ := System.logged_step.mp hst
    obtain ⟨hacc', hapart', -⟩ := hacc.step (hr hreach)
      (fun ho => ⟨hapart ho, hok.2 ho⟩) hok.1 hst
    rw [hlog]
    exact ⟨hacc', hapart'⟩

/-! ## The ready list -/

/-- What a step does to the ready list of the queue `q`, if it adds `new` to the log: a request that
it completes comes to the front of the list, with this code, and if it completes none the list
begins where it began. -/
structure Lists (q : YoQueueT) (s t : Pool) (new : List TaskEvent) : Prop where
  complete : ∀ w r c, .complete w r c ∈ new → (t.mem.queue q).head = r ∧
    (t.mem.req r).next = (s.mem.queue q).head ∧ (t.mem.req r).code = c
  other : (∀ w r c, .complete w r c ∉ new) → (t.mem.queue q).head = (s.mem.queue q).head

/-- The requests of the tasks that are not completed are requests of the queue `q`. -/
structure OfQueue (q : YoQueueT) (s : Pool) : Prop where
  slots : ∀ w, s.stage w ≠ 0 → (s.mem.req (s.slot w).req).queue = q
  caller : ∀ t, s.caller.task = some t → (s.mem.req t.req).queue = q

/-- No step of a worker gives a request to another queue. -/
theorem TaskMove.reqQueue (h : TaskMove s w t new) (r : YoReqT) :
    (t.mem.req r).queue = (s.mem.req r).queue := by
  cases h with
  | stay hstage hslot hmem | take hs ht hslot hmem | invoke hs ht hslot hmem => rw [hmem]
  | ret code hs ht hslot hmem => rw [hmem, Heap.reqQueue_endCode]
  | complete hs ht hslot hmem => rw [hmem, Heap.reqQueue_endLink]

theorem CallMove.reqQueue (h : CallMove s t new) (r : YoReqT) :
    (t.mem.req r).queue = (s.mem.req r).queue := by
  cases h with
  | stay htask hslot hstage hmem | refuse task hs ht hslot hstage hmem => rw [hmem]
  | accept task w hs ht hfree hstage htask hslot hother hmem => rw [hmem, Heap.reqQueue_yoiReqBegin]

theorem OfQueue.worker (h : OfQueue q s) (hmove : TaskMove s w t new)
    (hother : ∀ v, v ≠ w → t.stage v = s.stage v ∧ t.slot v = s.slot v)
    (hcaller : t.caller = s.caller) : OfQueue q t := by
  refine ⟨fun v hv => ?_, fun u hu => ?_⟩
  · obtain ⟨hv', hslot⟩ := hmove.back hother v hv
    rw [hslot, hmove.reqQueue]
    exact h.slots v hv'
  · rw [hmove.reqQueue]
    exact h.caller u (hcaller ▸ hu)

theorem OfQueue.callMove (h : OfQueue q s) (hmove : CallMove s t new) : OfQueue q t := by
  have hqueue := hmove.reqQueue
  cases hmove with
  | stay htask hslot hstage hmem =>
    refine ⟨fun v hv => ?_, fun u hu => ?_⟩
    · rw [hqueue, hslot]
      exact h.slots v (hstage v ▸ hv)
    · rw [hqueue]
      exact h.caller u (htask ▸ hu)
  | refuse task hs ht hslot hstage hmem =>
    refine ⟨fun v hv => ?_, fun u hu => ?_⟩
    · rw [hqueue, hslot]
      exact h.slots v (hstage v ▸ hv)
    · rw [ht] at hu
      cases hu
  | accept task w hs ht hfree hstage htask hslot hother hmem =>
    refine ⟨fun v hv => ?_, fun u hu => ?_⟩
    · rw [hqueue]
      by_cases hvw : v = w
      · subst hvw
        rw [← YoiPoolWorker.req_task, htask]
        exact h.caller task hs
      · rw [hslot v hvw]
        exact h.slots v (hother v hvw ▸ hv)
    · rw [ht] at hu
      cases hu

theorem TaskMove.lists (h : TaskMove s w t new) (hq : OfQueue q s) : Lists q s t new := by
  cases h with
  | stay hstage hslot hmem | take hs ht hslot hmem | invoke hs ht hslot hmem =>
    exact ⟨by simp, fun _ => by rw [hmem]⟩
  | ret code hs ht hslot hmem => exact ⟨by simp, fun _ => by rw [hmem, Heap.queue_endCode]⟩
  | complete hs ht hslot hmem =>
    have hqueue := hq.slots w (by simp [hs])
    refine ⟨fun v r c hv => ?_, fun hno => absurd (List.mem_singleton_self _) (hno _ _ _)⟩
    obtain ⟨-, rfl, rfl⟩ := TaskEvent.complete.inj (List.mem_singleton.mp hv)
    rw [hmem]
    refine ⟨?_, ?_, Heap.code_endLink ..⟩
    · rw [← hqueue, Heap.head_endLink]
    · rw [Heap.next_endLink, hqueue]

theorem CallMove.lists (h : CallMove s t new) : Lists q s t new := by
  cases h with
  | stay htask hslot hstage hmem | refuse task hs ht hslot hstage hmem =>
    exact ⟨by simp, fun _ => by rw [hmem]⟩
  | accept task w hs ht hfree hstage htask hslot hother hmem =>
    exact ⟨by simp, fun _ => by rw [hmem, Heap.queue_yoiReqBegin]⟩

/-- **What a step does to the ready list.**  A request is put on it when it is completed, and the
pool leaves the list alone otherwise. -/
theorem OfQueue.step (h : OfQueue q s) (hw : AtWork s) (hs : Sound s) (hfree : NoFree s a)
    (hst : (system q).step s a = some t) : OfQueue q t ∧ Lists q s t (s.record a t) := by
  cases step_cases hst with
  | @exec task hidle hqueue hwork =>
    refine ⟨⟨h.slots, fun u hu => ?_⟩, ⟨by simp [record], fun _ => rfl⟩⟩
    cases hu
    exact hqueue
  | free => exact absurd rfl hfree
  | caller hnext hop =>
    have hmove := hw.callMove hs (callerMove hnext hw.calling)
    have hq := h.callMove hmove
    have hlists : Lists q s _ _ := hmove.lists
    exact ⟨⟨hq.slots, hq.caller⟩, ⟨hlists.complete, hlists.other⟩⟩
  | worker hnext hop =>
    have hm := workerMove hnext
    have hmove := hw.taskMove hs hnext
    have hq := h.worker hmove hm.stage_of_ne hm.caller
    have hlists := hmove.lists h
    exact ⟨⟨hq.slots, hq.caller⟩, ⟨hlists.complete, hlists.other⟩⟩
  | @spurious w hwait =>
    have hmove : CallMove s (s.signal w) [] :=
      .stay (by simp) (by simp) (fun v => stage_signal) (by simp)
    rw [show s.goto w .woken = s.signal w from (if_pos hwait).symm]
    exact ⟨h.callMove hmove, hmove.lists⟩

theorem ofQueue_of_reach (h : (system q).Reach NoFree s) : OfQueue q s := by
  refine h.invariant ?_ fun s a t hr hq hfree hst => ?_
  · rintro s ⟨-, hpc, -, hidle⟩
    refine ⟨fun w hw => absurd (stage_eq (hpc w)) hw, fun t ht => ?_⟩
    rw [show s.caller = .idle from hidle] at ht
    cases ht
  · exact (hq.step (working_of_reach hr).atWork (sound_of_reachable hr.reachable) hfree hst).1

/-! ## Every task is completed -/

/-- The steps the threads have left before all of them wait for a new call, at most. -/
def workLeft (s : Pool) : ℕ :=
  16 * s.caller.execLeft + ∑ w ∈ s.workers.toFinset, s.left w

/-- A step that gives one worker of the list more to do, but not too much. -/
theorem workLeft_lt (w : YoiPoolWorkerT) (hworkers : t.workers = s.workers)
    (hleft : ∀ v, v ≠ w → t.left v = s.left v) (hlt : t.caller.execLeft < s.caller.execLeft) :
    t.workLeft < s.workLeft := by
  have hsum : ∑ v ∈ s.workers.toFinset, t.left v ≤ ∑ v ∈ s.workers.toFinset, s.left v + 12 := by
    have hle : ∀ v, t.left v ≤ s.left v + if v = w then 12 else 0 := by
      intro v
      split
      · exact (left_le _ _).trans (Nat.le_add_left _ _)
      · rename_i hv
        rw [hleft v hv, add_zero]
    refine (Finset.sum_le_sum fun v _ => hle v).trans ?_
    rw [Finset.sum_add_distrib, Finset.sum_ite_eq']
    split <;> omega
  unfold workLeft
  rw [hworkers]
  omega

/-- A new worker is such a step, too. -/
theorem workLeft_cons (hnot : w ∉ s.workers) (hworkers : t.workers = w :: s.workers)
    (hleft : ∀ v, v ≠ w → t.left v = s.left v) (hlt : t.caller.execLeft < s.caller.execLeft) :
    t.workLeft < s.workLeft := by
  have hrest : ∑ v ∈ s.workers.toFinset, t.left v = ∑ v ∈ s.workers.toFinset, s.left v :=
    Finset.sum_congr rfl fun v hv => hleft v fun e => hnot (List.mem_toFinset.mp (e ▸ hv))
  have hw : t.left w ≤ 12 := left_le ..
  unfold workLeft
  rw [hworkers, List.toFinset_cons, Finset.sum_insert (by simpa using hnot), hrest]
  omega

/-- A step of the caller brings the end closer. -/
theorem workLeft_caller (hs : Sound s) (hmove : CallerMove s env t) : t.workLeft < s.workLeft := by
  cases hmove with
  | go pc hpc htask hahead hleft => exact workLeft_lt NULL rfl (fun _ _ => rfl) hleft
  | fill task it rest hpc hroom =>
    refine workLeft_lt it rfl (fun v hv => by simp [left, slot_setSlot, hv]) ?_
    simp only [hpc, caller_call, CallerPc.execLeft]
    omega
  | signal it hpc =>
    refine workLeft_lt it (by simp) (fun v hv => by simp [left, pc_signal, hv]) ?_
    simp [hpc, CallerPc.execLeft]
  | refuse task hpc hmalloc =>
    refine workLeft_lt NULL rfl (fun _ _ => rfl) ?_
    simp [hpc, CallerPc.execLeft]
  | spawn task hpc hmalloc hnew =>
    have hnot : env.malloc ∉ s.workers := fun hmem =>
      (hs.present env.malloc).mpr (by simp [hmem]) hnew
    refine workLeft_cons hnot rfl (fun v hv => by simp [left, pc_goto, slot_setSlot, hv]) ?_
    simp [hpc, CallerPc.execLeft]

/-- A step of a worker of the list brings the end closer. -/
theorem workLeft_worker (hnext : s.workerNext w code = some (op, t)) (hw : w ∈ s.workers) :
    t.workLeft < s.workLeft := by
  have hm := workerMove hnext
  obtain ⟨hlt, heq⟩ := left_workerNext hnext
  unfold workLeft
  rw [hm.caller, hm.workers]
  refine Nat.add_lt_add_left (Finset.sum_lt_sum (fun v _ => ?_)
    ⟨w, List.mem_toFinset.mpr hw, hlt⟩) _
  by_cases hv : v = w
  · exact hv ▸ hlt.le
  · exact (heq v hv).le

/-- No thread can go on. -/
def Quiet (q : YoQueueT) (s : Pool) : Prop :=
  ∀ a, a.isThread = true → (system q).step s a = none

/-- The caller waits for a call, or for the lock of a worker. -/
theorem Quiet.caller (h : Quiet q s) (hw : Working q s) :
    s.caller = .idle ∨ ∃ task it rest, s.caller = .execNext task (it :: rest) ∧
      s.lock (.worker it) ≠ none := by
  have wait : ∀ op t, s.callerNext ⟨NULL, .ok⟩ = some (op, t) →
      ∃ l, op = .take l ∧ s.lock l ≠ none := by
    intro op t hnext
    by_contra hno
    push Not at hno
    obtain ⟨u, hu⟩ := exists_perform .caller hnext hno
    exact absurd ((h (.caller ⟨NULL, .ok⟩) rfl).symm.trans hu) (by simp)
  have hcalling := hw.calling
  cases hc : s.caller with
  | idle => exact .inl rfl
  | execNext task rest =>
    cases rest with
    | nil =>
      simp only [callerNext, hc] at wait
      obtain ⟨l, hl, -⟩ := wait _ _ (if_pos trivial)
      cases hl
    | cons it rest =>
      simp only [callerNext, hc] at wait
      obtain ⟨l, hl, hlock⟩ := wait _ _ rfl
      cases hl
      exact .inr ⟨task, it, rest, rfl, hlock⟩
  | execTest task it rest =>
    simp only [callerNext, hc] at wait
    by_cases hroom : (s.slot it).worker = NULL ∧ (s.slot it).kys = false
    · obtain ⟨l, hl, -⟩ := wait _ _ (if_pos hroom)
      cases hl
    · obtain ⟨l, hl, -⟩ := wait _ _ (if_neg hroom)
      cases hl
  | execSkip | execSignal | execUnlock =>
    simp only [callerNext, hc] at wait
    obtain ⟨l, hl, -⟩ := wait _ _ rfl
    cases hl
  | _ =>
    rw [hc] at hcalling
    cases hcalling

/-- The caller holds no lock then. -/
theorem Quiet.caller_holds (h : Quiet q s) (hw : Working q s) (l : Lock) :
    s.caller.holds l = false := by
  rcases h.caller hw with hc | ⟨task, it, rest, hc, -⟩ <;> rw [hc] <;> rfl

/-- A worker waits for a signal, or for the queue's lock. -/
theorem Quiet.worker (h : Quiet q s) (hw : Working q s) (hs : Sound s) :
    s.pc w = .absent ∨ s.pc w = .waiting ∨
      ∃ r, s.pc w = .ending r .coded ∧ s.lock .queue ≠ none := by
  by_contra hno
  push Not at hno
  obtain ⟨habs, hwait, hcoded⟩ := hno
  have hexit : s.pc w ≠ .exited := by
    intro hpc
    have hfit := hw.fits w
    rw [hpc] at hfit
    exact hfit
  obtain ⟨t, ht⟩ := hs.exists_worker q .ok ⟨habs, hwait, hexit⟩ hcoded (h.caller_holds hw _)
  exact absurd ((h (.worker w .ok) rfl).symm.trans ht) (by simp)

/-- Nobody has a lock. -/
theorem Quiet.lock (h : Quiet q s) (hw : Working q s) (hs : Sound s) (l : Lock) :
    s.lock l = none := by
  rw [Option.eq_none_iff_forall_ne_some]
  intro thread hlock
  have hheld := (hs.owns l thread).mp hlock
  cases thread with
  | caller => simp [holds, h.caller_holds hw] at hheld
  | worker w =>
    rcases h.worker hw hs (w := w) with hpc | hpc | ⟨r, hpc, -⟩ <;>
      simp [holds, hpc, WorkerPc.holds, EndPc.inside] at hheld

/-- **Nobody waits in vain.**  When no thread can go on, the caller is ready for a new call and
every task is completed. -/
theorem Quiet.idle (h : Quiet q s) (hw : Working q s) (hs : Sound s) :
    s.caller = .idle ∧ ∀ w, s.stage w = 0 := by
  have hidle : s.caller = .idle := by
    rcases h.caller hw with hc | ⟨task, it, rest, -, hlock⟩
    · exact hc
    · exact absurd (h.lock hw hs _) hlock
  refine ⟨hidle, fun w => ?_⟩
  rcases h.worker hw hs (w := w) with hpc | hpc | ⟨r, -, hlock⟩
  · exact stage_eq hpc
  · have hnull := (hs.slot_waiting w hpc).resolve_right (by simp [hidle])
    exact (stage_eq hpc).trans (if_pos hnull)
  · exact absurd (h.lock hw hs _) hlock

/-- The threads do not go on for ever without a new call. -/
theorem length_le_workLeft (hr : (system q).Reach NoFree s) {as : List PoolAct}
    (has : ∀ a ∈ as, a.isThread = true) (hrun : (system q).run s as = some t) :
    as.length ≤ s.workLeft := by
  refine System.length_le_of_run (fun a => a.isThread = true) workLeft ?_ hr has hrun
  intro s a t hr ha hst
  have hs := sound_of_reachable hr.reachable
  have hw := working_of_reach hr
  refine ⟨hr.step (noFree_of_thread ha) hst, ?_⟩
  cases step_cases hst with
  | exec | free | spurious => cases ha
  | caller hnext hop =>
    have hlt := workLeft_caller hs (callerMove hnext hw.calling)
    exact hlt
  | worker hnext hop =>
    have hlt := workLeft_worker hnext ((hw.atWork.mem_workers hs).mp (workerMove hnext).before.1)
    exact hlt

/-- **Every task runs once.**  In every run in which `yo_queue_free` is not called, whatever the
order in which the caller and the workers take their steps:

* every call is answered once, and the call that is going on is not answered yet;
* each worker takes the tasks accepted for it one after the other, calls the function of each once,
  with its argument, and completes its request once, after the function has returned;
* when that function returns, what it returned is stored as the code of the task's request;
* the step that completes a request puts it in front of the ready list of the queue, with this code,
  and no other step does anything to the front of that list;
* no step changes the slot of a worker whose task is not completed;
* a worker does not wait beside a task, unless its signal is about to be sent;
* without a new call the threads come to rest, and then every accepted task is completed;
* and if no request is submitted again before it is completed, each is completed with the code that
  was stored for it. -/
theorem tasks_once {s : Pool × List TaskEvent}
    (h : ((system q).logged record).Reach (fun s a => NoFree s.1 a) s) :
    Accounted False s.1 s.2 ∧
      (∀ w code t, (system q).step s.1 (.worker w code) = some t → s.1.stage w = 3 →
        t.mem = s.1.mem.endCode (s.1.slot w).req code) ∧
      (∀ a t, NoFree s.1 a → (system q).step s.1 a = some t → Lists q s.1 t (s.1.record a t)) ∧
      (∀ a t, NoFree s.1 a → (system q).step s.1 a = some t → ∀ w, s.1.stage w ≠ 0 →
        t.slot w = s.1.slot w) ∧
      (∀ w, s.1.pc w = .waiting → (s.1.slot w).worker ≠ NULL → s.1.caller = .execSignal w) ∧
      (Quiet q s.1 → s.1.caller = .idle ∧ ∀ w, s.1.stage w = 0) ∧
      (∀ as t, (∀ a ∈ as, a.isThread = true) → (system q).run s.1 as = some t →
        as.length ≤ s.1.workLeft) ∧
      (((system q).logged record).Reach (fun s a => NoFree s.1 a ∧ Once s.1 a) s →
        Accounted True s.1 s.2) := by
  have hr : (system q).Reach NoFree s.1 := System.Reach.of_logged h
  have hs := sound_of_reachable hr.reachable
  have hw := working_of_reach hr
  obtain ⟨hacc, -⟩ := accounted_of_reach False
    (h.mono fun _ _ hfree => ⟨hfree, False.elim⟩)
  refine ⟨hacc, fun w code t hst hstage => ?_,
    fun a t hfree hst => ((ofQueue_of_reach hr).step hw.atWork hs hfree hst).2,
    fun a t hfree hst => (hacc.step hr (fun h => h.elim) hfree hst).2.2,
    fun w hw hne => (hs.slot_waiting w hw).resolve_left hne, fun hq => hq.idle hw hs,
    fun as t has => length_le_workLeft hr has, fun h => ?_⟩
  · cases step_cases hst with
    | worker hnext hop =>
      have hmem := hw.stores hnext hstage
      exact hmem
  · exact (accounted_of_reach True (h.mono fun _ _ hok => ⟨hok.1, fun _ => hok.2⟩)).1

/-- One task, from its submission to the end of its worker's work.  Its request is on the ready list
then. -/
theorem tasks_once_oneTask :
    ∃ s, ((system 0x10).logged record).run (oneRequest, []) finished = some s ∧
      history 0x40 s.2 = Job.events 0x40 ⟨⟨0x30, 0x401400, NULL⟩, .ok, .ok⟩ ∧
        (s.1.mem.queue 0x10).head = 0x30 ∧ Accounted True s.1 s.2 := by
  have hlog : (((system 0x10).logged record).run (oneRequest, []) finished).map
      (fun s => (history 0x40 s.2, (s.1.mem.queue 0x10).head)) =
        some (Job.events 0x40 ⟨⟨0x30, 0x401400, NULL⟩, .ok, .ok⟩, 0x30) := rfl
  obtain ⟨s, hrun, hs⟩ := Option.map_eq_some_iff.mp hlog
  obtain ⟨hhist, hhead⟩ := Prod.mk.inj hs
  have hinit : ((system 0x10).logged record).init (oneRequest, []) := ⟨init_oneRequest, rfl⟩
  have hok : ((system 0x10).logged record).Along (fun s a => NoFree s.1 a ∧ Once s.1 a)
      (oneRequest, []) finished := by
    refine ⟨⟨by simp [NoFree], fun task _ w hw => absurd rfl hw⟩, fun t _ => ?_⟩
    refine System.along_of_mem (fun a ha s => ?_) t
    have hthread : a.isThread = true := by
      revert a
      decide
    exact ⟨noFree_of_thread hthread, once_of_thread hthread⟩
  have hreach := System.reach_of_run (.init hinit) hok hrun
  obtain ⟨-, -, -, -, -, -, -, hexact⟩ := tasks_once (hreach.mono fun _ _ hok => hok.1)
  exact ⟨s, hrun, hhist, hhead, hexact hreach⟩

end Pool

end Yaooi
