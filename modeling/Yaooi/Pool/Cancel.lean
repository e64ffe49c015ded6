import Yaooi.Pool.Tasks

/-!
# Cancelling a task

`_yoi_pool_cancelcb` interrupts the thread of the worker that `running.task.worker` of the request
names.  `yo_req_exec` gives a request to a worker in two ways, to an idle one and to a new one,
and neither writes that word; no step of a worker writes it either.

`cancelsOwn_iff` says what follows: in a run, cancelling reaches the worker that has the request
exactly as long as the word named that worker already when the request was given to it.
-/

namespace Yaooi

open Transition Mutex

/-- `running.task.worker`: it shares its word with `running.ioq.next`. -/
def YoReq.taskWorker (r : YoReq) : YoiPoolWorkerT := r.ioq.next

namespace Pool

variable {q : YoQueueT} {s t : Pool} {a : PoolAct} {w v : YoiPoolWorkerT} {op : Op Lock}
  {code : YoCode} {env : CallerEnv} {task : Task} {new : List TaskEvent}

/-- `_yoi_pool_cancelcb`: the worker whose thread is interrupted. -/
def yoiPoolCancelcb (s : Pool) (r : YoReqT) : YoiPoolWorkerT := (s.mem.req r).taskWorker

/-- Cancelling a request whose task is not completed interrupts the worker that has it. -/
def CancelsOwn (s : Pool) : Prop :=
  ∀ w, s.stage w ≠ 0 → s.yoiPoolCancelcb (s.slot w).req = w

/-- The worker that gets a task by the next step of the caller, and the task. -/
def gets (s : Pool) (env : CallerEnv) : Option (YoiPoolWorkerT × Task) :=
  match s.caller with
  | .execTest task it _ =>
    if (s.slot it).worker = NULL ∧ (s.slot it).kys = false then some (it, task) else none
  | .execNext task [] => if env.malloc = NULL then none else some (env.malloc, task)
  | _ => none

/-- If the step gives a request to a worker, the request names that worker already. -/
def Named (s : Pool) (a : PoolAct) : Prop :=
  ∀ env w task, a = .caller env → s.gets env = some (w, task) →
    (s.mem.req task.req).taskWorker = w

/-- Only the caller gives requests away. -/
theorem named_of_ne (h : ∀ env, a ≠ .caller env) : Named s a := fun env _ _ he =>
  absurd he (h env)

/-! ## The word that nobody writes -/

/-- No step of a worker writes it. -/
theorem taskWorker_workerNext (h : s.workerNext w code = some (op, t)) (r : YoReqT) :
    (t.mem.req r).taskWorker = (s.mem.req r).taskWorker := by
  cases workerStep h with
  | ret | link => simp [YoReq.taskWorker]
  | _ => rfl

/-- Nor does a step of the caller. -/
theorem CallMove.taskWorker (h : CallMove s t new) (r : YoReqT) :
    (t.mem.req r).taskWorker = (s.mem.req r).taskWorker := by
  cases h with
  | stay htask hslot hstage hmem | refuse task hs ht hslot hstage hmem => rw [hmem]
  | accept task w hs ht hfree hstage htask hslot hother hmem =>
    rw [hmem, YoReq.taskWorker, Heap.reqIoq_yoiReqBegin, YoReq.taskWorker]

/-- The task that the caller gives away is the one it has in hand. -/
theorem gets_callerNext (h : s.callerNext env = some (op, t)) (hf : s.caller.freeing = false) :
    s.record (.caller env) t = [.accept w task] ↔ s.gets env = some (w, task) := by
  rw [record, gets]
  cases callerStep h with
  | fill hpc hroom hkys =>
    simp [hpc, callerRecord, hroom, hkys, YoiPoolWorker.fill, YoiPoolWorker.task]
  | full hpc hfull => simp [hpc, callerRecord, hfull]
  | refuse hpc hmalloc => simp [hpc, callerRecord, hmalloc]
  | hire hpc hmalloc => simp [hpc, callerRecord, hmalloc, YoiPoolWorker.task]
  | scan hpc | skip hpc | signal hpc | unlock hpc => simp [hpc, callerRecord]
  | _ hpc =>
    rw [hpc] at hf
    simp [CallerPc.freeing, CallerPc.inPool] at hf

/-! ## When the right thread is interrupted -/

/-- A step that touches the word of no request, and takes on no task. -/
theorem CancelsOwn.of_back (h : CancelsOwn s)
    (hback : ∀ v, t.stage v ≠ 0 → s.stage v ≠ 0 ∧ t.slot v = s.slot v)
    (hword : ∀ r, (t.mem.req r).taskWorker = (s.mem.req r).taskWorker) : CancelsOwn t := by
  intro v hv
  obtain ⟨hne, hslot⟩ := hback v hv
  rw [hslot, yoiPoolCancelcb, hword]
  exact h v hne

/-- A step of the caller keeps it if and only if the request that is given away names its worker. -/
theorem CancelsOwn.callMove (h : CancelsOwn s) (hmove : CallMove s t new)
    (hgets : ∀ w task, new = [.accept w task] ↔ s.gets env = some (w, task)) :
    CancelsOwn t ↔ Named s (.caller env) := by
  have hword := hmove.taskWorker
  have named : Named s (.caller env) ↔ ∀ w task, new = [.accept w task] →
      (s.mem.req task.req).taskWorker = w := by
    simp only [hgets]
    exact ⟨fun hn w task hg => hn env w task rfl hg, fun hn _ w task he hg => by
      cases he
      exact hn w task hg⟩
  rw [named]
  cases hmove with
  | stay htask hslot hstage hmem | refuse task hs ht hslot hstage hmem =>
    refine ⟨fun _ w task he => (by cases he), fun _ => h.of_back (fun v hv => ?_) hword⟩
    rw [hslot]
    exact ⟨hstage v ▸ hv, rfl⟩
  | accept task w hs ht hfree hstage htask hslot hother hmem =>
    have hreq : (t.slot w).req = task.req := by rw [← htask, YoiPoolWorker.req_task]
    constructor
    · intro hown u task' he
      cases he
      rw [← hword, ← hreq]
      exact hown w (by simp [hstage])
    · intro hn v hv
      by_cases hvw : v = w
      · rw [hvw, yoiPoolCancelcb, hword, hreq]
        exact hn w task rfl
      · rw [hslot v hvw, yoiPoolCancelcb, hword]
        exact h v (hother v hvw ▸ hv)

/-- One step of a run without `yo_queue_free`. -/
theorem cancelsOwn_step (hr : (system q).Reach NoFree s) (hfree : NoFree s a) (h : CancelsOwn s)
    (hst : (system q).step s a = some t) : CancelsOwn t ↔ Named s a := by
  have hs := sound_of_reachable hr.reachable
  have hw := working_of_reach hr
  cases step_cases hst with
  | exec hidle hq hwork => exact ⟨fun _ => named_of_ne (by simp), fun _ => h⟩
  | free => exact absurd rfl hfree
  | caller hnext hop =>
    have hmove := hw.atWork.callMove hs (callerMove hnext hw.calling)
    have hiff := h.callMove hmove fun w task => gets_callerNext hnext hw.calling
    exact hiff
  | @worker w code op u lock hnext hop =>
    have hback := (hw.atWork.taskMove hs hnext).back (workerMove hnext).stage_of_ne
    have hword := taskWorker_workerNext hnext
    exact ⟨fun _ => named_of_ne (by simp), fun _ => h.of_back hback hword⟩
  | @spurious w hwait =>
    have hsig : s.goto w .woken = s.signal w := (if_pos hwait).symm
    refine ⟨fun _ => named_of_ne (by simp), fun _ => h.of_back (fun v hv => ?_) fun _ => rfl⟩
    rw [hsig, stage_signal] at hv
    exact ⟨hv, rfl⟩

/-- **Whom a cancellation interrupts.**  Along every run without `yo_queue_free`, cancelling a
request that runs on the pool always interrupts the worker that has it if and only if every request
names its worker already when `yo_req_exec` gives it to the worker. -/
theorem cancelsOwn_iff {as : List PoolAct} (hinit : (system q).init s)
    (hfree : ∀ a ∈ as, a ≠ .free) (hrun : (system q).run s as = some t) :
    (system q).Always CancelsOwn s as ↔ (system q).Along Named s as := by
  have hstart : CancelsOwn s := fun w hw => absurd (stage_eq (hinit.2.1 w)) hw
  have hreach : (system q).Reach NoFree s := .init hinit
  refine System.always_iff_along (fun a => a ≠ .free) ?_ hreach hstart hfree hrun
  exact fun s a t hr hne h hst => ⟨cancelsOwn_step hr hne h hst, fun _ => hr.step hne hst⟩

/-! ## One worker -/

/-- The request was made and given to its worker, and names none. -/
theorem not_cancelsOwn_oneTask :
    (system 0x10).init oneRequest ∧ (∀ a ∈ running, a ≠ .free) ∧
      ∃ s, (system 0x10).run oneRequest running = some s ∧ s.stage 0x40 = 3 ∧
        (s.slot 0x40).req = 0x30 ∧ s.yoiPoolCancelcb 0x30 = NULL ∧ ¬ CancelsOwn s := by
  refine ⟨init_oneRequest, by simp [running], _, rfl, rfl, rfl, rfl, fun h => ?_⟩
  exact absurd (h 0x40 (by decide)) (by decide)

/-- The same request in memory that happens to name the worker it will get. -/
def oneNamed : Pool :=
  { oneRequest with
    mem := oneRequest.mem.setReq 0x30 fun k => { k with ioq := { k.ioq with next := 0x40 } } }

theorem cancelsOwn_oneNamed : (system 0x10).Always CancelsOwn oneNamed running := by
  have hrun : ((system 0x10).run oneNamed running).isSome = true := rfl
  obtain ⟨t, ht⟩ := Option.isSome_iff_exists.mp hrun
  refine (cancelsOwn_iff ⟨fun _ => rfl, fun _ => rfl, rfl, rfl⟩ (by simp [running]) ht).mpr ?_
  have hexec : (system 0x10).step oneNamed (.exec ⟨0x30, 0x401400, NULL⟩) =
      some (oneNamed.call (.execNext ⟨0x30, 0x401400, NULL⟩ [])) := rfl
  have hrest : ∀ s, (system 0x10).Along Named s (List.replicate 3 (.worker 0x40 .ok)) :=
    System.along_of_mem fun a ha s => named_of_ne (by simp [List.eq_of_mem_replicate ha])
  refine ⟨named_of_ne (by simp), fun t ht => ⟨fun env w task he hg => ?_, fun u _ => hrest u⟩⟩
  obtain rfl := Option.some.inj (hexec.symm.trans ht)
  cases he
  cases hg
  rfl

end Pool

end Yaooi
