import Yaooi.Pool.Basic

/-!
# What holds of a pool in every run

* `Pool.owns_of_reachable`: each lock is owned by the thread that holds it.  The steps of the
  workers and of the caller are checked against the tables `WorkerPc.holds` and
  `CallerPc.holds`, and `Mutex.owns_apply` does the rest.
* `Pool.Inv`: the list of workers and the records in use agree, no worker is asked to leave before
  its turn, a worker that was asked and signalled does not wait, and no worker waits beside a task
  it was not signalled for.

`WorkerStep` and `CallerStep` list the steps of the two kinds of threads, with their guards, and
`WorkerMove` says once what a step of a worker leaves alone.
-/

namespace Yaooi

open Transition Mutex

/-! ## The caller's progress with a worker -/

namespace CallerPc

/-- The worker was asked to leave. -/
def asked (w : YoiPoolWorkerT) : CallerPc → Prop
  | .freeSignal curr | .freeUnlock curr | .freeJoin curr | .freeDel curr => curr = w
  | _ => False

/-- The worker was asked to leave and signalled. -/
def told (w : YoiPoolWorkerT) : CallerPc → Prop
  | .freeUnlock curr | .freeJoin curr => curr = w
  | _ => False

end CallerPc

namespace Pool

variable {q : YoQueueT} {s s' t : Pool} {a : PoolAct} {w u : YoiPoolWorkerT} {op : Op Lock}
  {code : YoCode} {env : CallerEnv} {pc : CallerPc}

/-! ## Where the threads stand after an update -/

theorem pc_goto {p : WorkerPc} : (s.goto w p).pc u = if u = w then p else s.pc u :=
  Function.update_apply ..

@[simp] theorem pc_goto_self {p : WorkerPc} : (s.goto w p).pc w = p := Function.update_self ..

@[simp] theorem slot_goto {p : WorkerPc} : (s.goto w p).slot = s.slot := rfl
@[simp] theorem workers_goto {p : WorkerPc} : (s.goto w p).workers = s.workers := rfl
@[simp] theorem caller_goto {p : WorkerPc} : (s.goto w p).caller = s.caller := rfl
@[simp] theorem mem_goto {p : WorkerPc} : (s.goto w p).mem = s.mem := rfl

theorem slot_setSlot {k : YoiPoolWorker} :
    (s.setSlot w k).slot u = if u = w then k else s.slot u :=
  Function.update_apply ..

@[simp] theorem slot_setSlot_self {k : YoiPoolWorker} : (s.setSlot w k).slot w = k :=
  Function.update_self ..

@[simp] theorem pc_setSlot {k : YoiPoolWorker} : (s.setSlot w k).pc = s.pc := rfl
@[simp] theorem workers_setSlot {k : YoiPoolWorker} : (s.setSlot w k).workers = s.workers := rfl
@[simp] theorem caller_setSlot {k : YoiPoolWorker} : (s.setSlot w k).caller = s.caller := rfl
@[simp] theorem mem_setSlot {k : YoiPoolWorker} : (s.setSlot w k).mem = s.mem := rfl

@[simp] theorem pc_call : (s.call pc).pc = s.pc := rfl
@[simp] theorem slot_call : (s.call pc).slot = s.slot := rfl
@[simp] theorem workers_call : (s.call pc).workers = s.workers := rfl
@[simp] theorem caller_call : (s.call pc).caller = pc := rfl
@[simp] theorem mem_call : (s.call pc).mem = s.mem := rfl

/-- A signal wakes the worker if it waits. -/
theorem pc_signal :
    (s.signal w).pc u = if u = w ∧ s.pc w = .waiting then .woken else s.pc u := by
  unfold signal
  split
  · rename_i h
    simp [pc_goto, h]
  · rename_i h
    simp [h]

@[simp] theorem slot_signal : (s.signal w).slot = s.slot := by
  unfold signal
  split <;> rfl

@[simp] theorem workers_signal : (s.signal w).workers = s.workers := by
  unfold signal
  split <;> rfl

@[simp] theorem caller_signal : (s.signal w).caller = s.caller := by
  unfold signal
  split <;> rfl

@[simp] theorem mem_signal : (s.signal w).mem = s.mem := by
  unfold signal
  split <;> rfl

/-! ## Everything a step can be -/

/-- The steps of the worker `w`, whose task returns `code`. -/
inductive WorkerStep (s : Pool) (w : YoiPoolWorkerT) (code : YoCode) : Op Lock → Pool → Prop
  | enter (hpc : s.pc w = .entry) : WorkerStep s w code (.take (.worker w)) (s.goto w .test)
  | read (hpc : s.pc w = .test) (hwork : (s.slot w).worker ≠ NULL) (hkys : (s.slot w).kys = false) :
      WorkerStep s w code .skip (s.goto w (.taken (s.slot w).task))
  | leave (hpc : s.pc w = .test) (hkys : (s.slot w).kys = true) :
      WorkerStep s w code .skip (s.goto w .leaving)
  | wait (hpc : s.pc w = .test) (hempty : (s.slot w).worker = NULL)
      (hkys : (s.slot w).kys = false) :
      WorkerStep s w code (.give (.worker w)) (s.goto w .waiting)
  | unlock {t : Task} (hpc : s.pc w = .taken t) :
      WorkerStep s w code (.give (.worker w)) (s.goto w (.run t))
  | ret {t : Task} (hpc : s.pc w = .run t) :
      WorkerStep s w code .skip
        { s.goto w (.ending t.req .coded) with mem := s.mem.endCode t.req code }
  | lockQueue {r : YoReqT} (hpc : s.pc w = .ending r .coded) :
      WorkerStep s w code (.take .queue) (s.goto w (.ending r .locked))
  | link {r : YoReqT} (hpc : s.pc w = .ending r .locked) :
      WorkerStep s w code .skip { s.goto w (.ending r .linked) with mem := s.mem.endLink r }
  | notify {r : YoReqT} (hpc : s.pc w = .ending r .linked) :
      WorkerStep s w code .skip (s.goto w (.ending r .notified))
  | unlockQueue {r : YoReqT} (hpc : s.pc w = .ending r .notified) :
      WorkerStep s w code (.give .queue) (s.goto w .ended)
  | relock (hpc : s.pc w = .ended) :
      WorkerStep s w code (.take (.worker w)) (s.goto w .clear)
  | clear (hpc : s.pc w = .clear) :
      WorkerStep s w code .skip ((s.setSlot w (s.slot w).clear).goto w .test)
  | wake (hpc : s.pc w = .woken) : WorkerStep s w code (.take (.worker w)) (s.goto w .test)
  | exit (hpc : s.pc w = .leaving) : WorkerStep s w code (.give (.worker w)) (s.goto w .exited)

theorem workerStep (h : s.workerNext w code = some (op, t)) : WorkerStep s w code op t := by
  cases hpc : s.pc w with
  | absent | waiting | exited => simp [workerNext, hpc] at h
  | test =>
    simp only [workerNext, hpc] at h
    split at h
    · rename_i hwork
      cases h
      exact .read hpc hwork.1 hwork.2
    · rename_i hno
      split at h <;> rename_i hkys <;> cases h
      · exact .leave hpc hkys
      · rw [Bool.not_eq_true] at hkys
        exact .wait hpc (not_not.mp fun hne => hno ⟨hne, hkys⟩) hkys
  | ending r e =>
    cases e <;> simp only [workerNext, hpc, Option.some.injEq, Prod.mk.injEq] at h <;>
      obtain ⟨rfl, rfl⟩ := h
    · exact .lockQueue hpc
    · exact .link hpc
    · exact .notify hpc
    · exact .unlockQueue hpc
  | entry => simp only [workerNext, hpc] at h; cases h; exact .enter hpc
  | taken t => simp only [workerNext, hpc] at h; cases h; exact .unlock hpc
  | run t => simp only [workerNext, hpc] at h; cases h; exact .ret hpc
  | ended => simp only [workerNext, hpc] at h; cases h; exact .relock hpc
  | clear => simp only [workerNext, hpc] at h; cases h; exact .clear hpc
  | woken => simp only [workerNext, hpc] at h; cases h; exact .wake hpc
  | leaving => simp only [workerNext, hpc] at h; cases h; exact .exit hpc

/-- The steps of the caller, with these answers. -/
inductive CallerStep (s : Pool) (env : CallerEnv) : Op Lock → Pool → Prop
  | scan {t : Task} {it : YoiPoolWorkerT} {rest : List YoiPoolWorkerT}
      (hpc : s.caller = .execNext t (it :: rest)) :
      CallerStep s env (.take (.worker it)) (s.call (.execTest t it rest))
  | fill {t : Task} {it : YoiPoolWorkerT} {rest : List YoiPoolWorkerT}
      (hpc : s.caller = .execTest t it rest) (hroom : (s.slot it).worker = NULL)
      (hkys : (s.slot it).kys = false) :
      CallerStep s env .skip
        { (s.setSlot it ((s.slot it).fill t)).call (.execSignal it) with
          mem := s.mem.yoiReqBegin t.req s.mem.text.poolCancelcb }
  | full {t : Task} {it : YoiPoolWorkerT} {rest : List YoiPoolWorkerT}
      (hpc : s.caller = .execTest t it rest)
      (hfull : ¬ ((s.slot it).worker = NULL ∧ (s.slot it).kys = false)) :
      CallerStep s env .skip (s.call (.execSkip t it rest))
  | skip {t : Task} {it : YoiPoolWorkerT} {rest : List YoiPoolWorkerT}
      (hpc : s.caller = .execSkip t it rest) :
      CallerStep s env (.give (.worker it)) (s.call (.execNext t rest))
  | signal {it : YoiPoolWorkerT} (hpc : s.caller = .execSignal it) :
      CallerStep s env .skip ((s.signal it).call (.execUnlock it))
  | unlock {it : YoiPoolWorkerT} (hpc : s.caller = .execUnlock it) :
      CallerStep s env (.give (.worker it)) (s.call .idle)
  | refuse {t : Task} (hpc : s.caller = .execNext t []) (hmalloc : env.malloc = NULL) :
      CallerStep s env .skip (s.call .idle)
  | hire {t : Task} (hpc : s.caller = .execNext t []) (hmalloc : env.malloc ≠ NULL)
      (hnew : s.pc env.malloc = .absent) :
      CallerStep s env .skip
        { ((s.setSlot env.malloc ⟨t.worker, t.req, t.args, false⟩).goto env.malloc .entry).call
            .idle with
          mem := s.mem.yoiReqBegin t.req s.mem.text.poolCancelcb
          workers := env.malloc :: s.workers }
  | lockQueue (hpc : s.caller = .free) : CallerStep s env (.take .queue) (s.call .freeNext)
  | done (hpc : s.caller = .freeNext) (hworkers : s.workers = []) :
      CallerStep s env .skip (s.call .freeImpl)
  | unlink {curr : YoiPoolWorkerT} {rest : List YoiPoolWorkerT} (hpc : s.caller = .freeNext)
      (hworkers : s.workers = curr :: rest) :
      CallerStep s env .skip { s.call (.freeLock curr) with workers := rest }
  | lockWorker {curr : YoiPoolWorkerT} (hpc : s.caller = .freeLock curr) :
      CallerStep s env (.take (.worker curr)) (s.call (.freeKys curr))
  | ask {curr : YoiPoolWorkerT} (hpc : s.caller = .freeKys curr) :
      CallerStep s env .skip
        ((s.setSlot curr { s.slot curr with kys := true }).call (.freeSignal curr))
  | tell {curr : YoiPoolWorkerT} (hpc : s.caller = .freeSignal curr) :
      CallerStep s env .skip ((s.signal curr).call (.freeUnlock curr))
  | unlockWorker {curr : YoiPoolWorkerT} (hpc : s.caller = .freeUnlock curr) :
      CallerStep s env (.give (.worker curr)) (s.call (.freeJoin curr))
  | join {curr : YoiPoolWorkerT} (hpc : s.caller = .freeJoin curr)
      (hexited : s.pc curr = .exited) : CallerStep s env .skip (s.call (.freeDel curr))
  | del {curr : YoiPoolWorkerT} (hpc : s.caller = .freeDel curr) :
      CallerStep s env .skip ((s.goto curr .absent).call .freeNext)
  | impl (hpc : s.caller = .freeImpl) :
      CallerStep s env .skip (s.call (if env.implFree = .ok then .freeLast else .freeFail))
  | fail (hpc : s.caller = .freeFail) : CallerStep s env (.give .queue) (s.call .returned)
  | last (hpc : s.caller = .freeLast) : CallerStep s env (.give .queue) (s.call .returned)

theorem callerStep (h : s.callerNext env = some (op, t)) : CallerStep s env op t := by
  cases hpc : s.caller with
  | idle | returned => simp [callerNext, hpc] at h
  | execNext task rest =>
    cases rest with
    | nil =>
      simp only [callerNext, hpc] at h
      split at h
      · rename_i hmalloc
        cases h
        exact .refuse hpc hmalloc
      · rename_i hmalloc
        split at h <;> cases h
        rename_i hnew
        exact .hire hpc hmalloc hnew
    | cons it rest => simp only [callerNext, hpc] at h; cases h; exact .scan hpc
  | execTest task it rest =>
    simp only [callerNext, hpc] at h
    split at h <;> rename_i hroom <;> cases h
    · exact .fill hpc hroom.1 hroom.2
    · exact .full hpc hroom
  | freeNext =>
    simp only [callerNext, hpc] at h
    split at h <;> rename_i hworkers <;> cases h
    · exact .done hpc hworkers
    · exact .unlink hpc hworkers
  | freeJoin curr =>
    simp only [callerNext, hpc] at h
    split at h <;> cases h
    rename_i hexited
    exact .join hpc hexited
  | execSkip task it rest => simp only [callerNext, hpc] at h; cases h; exact .skip hpc
  | execSignal it => simp only [callerNext, hpc] at h; cases h; exact .signal hpc
  | execUnlock it => simp only [callerNext, hpc] at h; cases h; exact .unlock hpc
  | free => simp only [callerNext, hpc] at h; cases h; exact .lockQueue hpc
  | freeLock curr => simp only [callerNext, hpc] at h; cases h; exact .lockWorker hpc
  | freeKys curr => simp only [callerNext, hpc] at h; cases h; exact .ask hpc
  | freeSignal curr => simp only [callerNext, hpc] at h; cases h; exact .tell hpc
  | freeUnlock curr => simp only [callerNext, hpc] at h; cases h; exact .unlockWorker hpc
  | freeDel curr => simp only [callerNext, hpc] at h; cases h; exact .del hpc
  | freeImpl => simp only [callerNext, hpc] at h; cases h; exact .impl hpc
  | freeFail => simp only [callerNext, hpc] at h; cases h; exact .fail hpc
  | freeLast => simp only [callerNext, hpc] at h; cases h; exact .last hpc

/-! ## What a worker can do -/

/-- What a step of the worker `w` does to the pool. -/
structure WorkerMove (w : YoiPoolWorkerT) (s t : Pool) : Prop where
  pc_of_ne : ∀ u, u ≠ w → t.pc u = s.pc u
  slot_of_ne : ∀ u, u ≠ w → t.slot u = s.slot u
  kys : (t.slot w).kys = (s.slot w).kys
  workers : t.workers = s.workers
  caller : t.caller = s.caller
  before : s.pc w ≠ .absent ∧ s.pc w ≠ .exited
  after : t.pc w ≠ .absent
  /-- It starts to wait only with an empty slot, and not once it was asked to leave. -/
  waiting : t.pc w = .waiting → (t.slot w).worker = NULL ∧ (t.slot w).kys = false

/-- A step that only brings the worker to another place. -/
theorem WorkerMove.of_goto {p : WorkerPc} (hs : s.pc w ≠ .absent ∧ s.pc w ≠ .exited)
    (hpc : t.pc = Function.update s.pc w p) (hslot : t.slot = s.slot)
    (hworkers : t.workers = s.workers) (hcaller : t.caller = s.caller) (hp : p ≠ .absent)
    (hwait : p = .waiting → (s.slot w).worker = NULL ∧ (s.slot w).kys = false) :
    WorkerMove w s t where
  pc_of_ne u hu := by rw [hpc, Function.update_of_ne hu]
  slot_of_ne u _ := by rw [hslot]
  kys := by rw [hslot]
  workers := hworkers
  caller := hcaller
  before := hs
  after := by rwa [hpc, Function.update_self]
  waiting h := by
    rw [hpc, Function.update_self] at h
    rw [hslot]
    exact hwait h

/-- **Every step of a worker is such a move.** -/
theorem workerMove (h : s.workerNext w code = some (op, t)) : WorkerMove w s t := by
  cases workerStep h with
  | wait hpc hempty hkys =>
    exact .of_goto (by simp [hpc]) rfl rfl rfl rfl (by simp) fun _ => ⟨hempty, hkys⟩
  | clear hpc =>
    constructor
    · exact fun u hu => by simp [pc_goto, hu]
    · exact fun u hu => by simp [slot_setSlot, hu]
    all_goals simp [hpc]
  | _ hpc => exact .of_goto (by simp [hpc]) rfl rfl rfl rfl (by simp) (by simp)

/-! ## Who holds which lock -/

/-- The thread holds the lock. -/
def holds (s : Pool) (l : Lock) : Thread → Prop
  | .caller => s.caller.holds l = true
  | .worker w => (s.pc w).holds w l = true

/-- The table of the workers agrees with their steps. -/
theorem worker_holds (h : s.workerNext w code = some (op, t)) :
    (∀ l, t.holds l (.worker w) ↔ op.after (s.holds · (.worker w)) l) ∧
      ∀ l, op = .give l → s.holds l (.worker w) := by
  cases workerStep h with
  | _ hpc => simp [holds, hpc, WorkerPc.holds, Op.after, EndPc.inside, goto]

/-- The table of the caller agrees with its steps. -/
theorem caller_holds (h : s.callerNext env = some (op, t)) :
    (∀ l, t.holds l .caller ↔ op.after (s.holds · .caller) l) ∧
      ∀ l, op = .give l → s.holds l .caller := by
  cases callerStep h with
  | lockWorker hpc => simp [holds, hpc, CallerPc.holds, Op.after, or_comm]
  | unlockWorker hpc =>
    simp only [holds, hpc, CallerPc.holds, Op.after, caller_call]
    refine ⟨fun l => ?_, by simp⟩
    cases l <;> simp
  | impl hpc =>
    by_cases hans : env.implFree = .ok <;> simp [holds, hpc, CallerPc.holds, Op.after, hans]
  | _ hpc => simp [holds, hpc, CallerPc.holds, Op.after]

/-- No worker takes or loses a lock by a step of the caller. -/
theorem caller_holds_worker (h : s.callerNext env = some (op, t))
    (hdel : ∀ w, s.caller = .freeDel w → s.pc w = .exited) (w : YoiPoolWorkerT) (l : Lock) :
    t.holds l (.worker w) ↔ s.holds l (.worker w) := by
  have hsignal : ∀ c, ((s.signal c).pc w).holds w l = (s.pc w).holds w l := by
    intro c
    rw [pc_signal]
    split
    · rename_i hw
      rw [hw.1, hw.2]
      rfl
    · rfl
  cases callerStep h with
  | signal hpc | tell hpc => simp [holds, hsignal]
  | hire hpc hmalloc hnew =>
    by_cases hw : w = env.malloc <;> simp [holds, pc_goto, hw, hnew, WorkerPc.holds]
  | @del curr hpc =>
    by_cases hw : w = curr
    · simp [holds, hw, hdel curr hpc, WorkerPc.holds]
    · simp [holds, pc_goto, hw]
  | _ => rfl

/-! ## The invariant -/

/-- What ties the list of workers, their records and the place of the caller together. -/
structure Inv (s : Pool) : Prop where
  nodup : (s.caller.curr ++ s.workers).Nodup
  present : ∀ w, s.pc w ≠ .absent ↔ w ∈ s.caller.curr ++ s.workers
  /-- No worker is asked to leave before its turn. -/
  kys_workers : ∀ w ∈ s.workers, (s.slot w).kys = false
  kys_asked : ∀ w, s.caller.asked w → (s.slot w).kys = true
  told : ∀ w, s.caller.told w → s.pc w ≠ .waiting
  joined : ∀ w, s.caller = .freeDel w → s.pc w = .exited
  /-- A worker that waits has an empty slot or is about to be signalled. -/
  slot_waiting : ∀ w, s.pc w = .waiting →
    (s.slot w).worker = NULL ∨ s.caller = .execSignal w

/-- The memory and the locks are no part of it. -/
theorem Inv.frame (h : Inv s) (m : Heap) (lock : Lock → Option Thread) :
    Inv { s with mem := m, lock := lock } :=
  ⟨h.nodup, h.present, h.kys_workers, h.kys_asked, h.told, h.joined, h.slot_waiting⟩

/-- A step that only brings the caller to another place. -/
theorem Inv.call (h : Inv s) (hcurr : pc.curr = s.caller.curr)
    (hasked : ∀ w, pc.asked w → (s.slot w).kys = true)
    (htold : ∀ w, pc.told w → s.pc w ≠ .waiting)
    (hjoined : ∀ w, pc = .freeDel w → s.pc w = .exited)
    (hsignal : ∀ w, s.caller = .execSignal w → s.pc w ≠ .waiting) : Inv (s.call pc) where
  nodup := by simpa [hcurr] using h.nodup
  present w := by simpa [hcurr] using h.present w
  kys_workers := h.kys_workers
  kys_asked := hasked
  told := htold
  joined := hjoined
  slot_waiting w hw := .inl ((h.slot_waiting w hw).resolve_right fun hc => hsignal w hc hw)

/-- The signal reaches the worker. -/
theorem pc_signal_ne_waiting : (s.signal w).pc w ≠ .waiting := by
  rw [pc_signal]
  by_cases hw : s.pc w = .waiting <;> simp [hw]

/-- A signal keeps the invariant. -/
theorem Inv.signal (h : Inv s) (w : YoiPoolWorkerT) : Inv (s.signal w) where
  nodup := by simpa using h.nodup
  present u := by
    rw [pc_signal]
    split
    · rename_i hu
      have := h.present u
      rw [hu.1, hu.2] at this
      simpa [hu.1] using this
    · simpa using h.present u
  kys_workers := by simpa using h.kys_workers
  kys_asked := by simpa using h.kys_asked
  told u hu := by
    rw [pc_signal]
    split
    · simp
    · exact h.told u (by simpa using hu)
  joined u hu := by
    have hex := h.joined u (by simpa using hu)
    rw [pc_signal, if_neg]
    · exact hex
    · rintro ⟨rfl, hw⟩
      simp [hw] at hex
  slot_waiting u hu := by
    rw [pc_signal] at hu
    split at hu
    · cases hu
    · simpa using h.slot_waiting u hu

/-- A step of a worker keeps it. -/
theorem Inv.worker (h : Inv s) (hm : WorkerMove w s t) : Inv t where
  nodup := by rw [hm.caller, hm.workers]; exact h.nodup
  present u := by
    rw [hm.caller, hm.workers, ← h.present u]
    by_cases hu : u = w
    · subst hu
      simp [hm.after, hm.before.1]
    · rw [hm.pc_of_ne u hu]
  kys_workers u hu := by
    rw [hm.workers] at hu
    have := h.kys_workers u hu
    by_cases huw : u = w
    · rw [huw, hm.kys, ← huw, this]
    · rw [hm.slot_of_ne u huw, this]
  kys_asked u hu := by
    rw [hm.caller] at hu
    have := h.kys_asked u hu
    by_cases huw : u = w
    · rw [huw, hm.kys, ← huw, this]
    · rw [hm.slot_of_ne u huw, this]
  told u hu hw := by
    rw [hm.caller] at hu
    by_cases huw : u = w
    · subst huw
      have hkys := h.kys_asked u (by
        revert hu; cases s.caller <;> simp [CallerPc.told, CallerPc.asked])
      rw [← hm.kys, (hm.waiting hw).2] at hkys
      cases hkys
    · exact h.told u hu (hm.pc_of_ne u huw ▸ hw)
  joined u hu := by
    rw [hm.caller] at hu
    have hex := h.joined u hu
    by_cases huw : u = w
    · exact absurd (huw ▸ hex) hm.before.2
    · rw [hm.pc_of_ne u huw, hex]
  slot_waiting u hu := by
    by_cases huw : u = w
    · subst huw
      exact .inl (hm.waiting hu).1
    · rw [hm.slot_of_ne u huw, hm.caller]
      exact h.slot_waiting u (hm.pc_of_ne u huw ▸ hu)

/-- Filling the slot of a worker, which is signalled next. -/
theorem Inv.fill {task : Task} {rest : List YoiPoolWorkerT} (h : Inv s)
    (hpc : s.caller = .execTest task w rest) :
    Inv ((s.setSlot w ((s.slot w).fill task)).call (.execSignal w)) where
  nodup := by simpa [hpc, CallerPc.curr] using h.nodup
  present u := by simpa [hpc, CallerPc.curr] using h.present u
  kys_workers u hu := by
    have := h.kys_workers u hu
    simp only [slot_call, slot_setSlot]
    split
    · rename_i huw
      rwa [YoiPoolWorker.kys_fill, ← huw]
    · exact this
  kys_asked _ hu := hu.elim
  told _ hu := hu.elim
  joined _ hu := by cases hu
  slot_waiting u hu := by
    by_cases huw : u = w
    · exact .inr (by rw [huw]; rfl)
    · simp only [slot_call, slot_setSlot, if_neg huw]
      exact .inl ((h.slot_waiting u hu).resolve_right (by simp [hpc]))

/-- A new worker, with its first task. -/
theorem Inv.spawn {task : Task} {k : YoiPoolWorker} (h : Inv s) (hpc : s.caller = .execNext task [])
    (hnew : s.pc w = .absent) (hk : k.kys = false) :
    Inv { ((s.setSlot w k).goto w .entry).call .idle with workers := w :: s.workers } := by
  have hnot : w ∉ s.workers := by
    have := (h.present w).not.mp (by simp [hnew])
    simpa [hpc, CallerPc.curr] using this
  constructor
  case nodup =>
    have := h.nodup
    simp only [hpc, CallerPc.curr, List.nil_append] at this
    exact List.nodup_cons.mpr ⟨hnot, this⟩
  case present =>
    intro u
    have := h.present u
    simp only [hpc, CallerPc.curr, List.nil_append] at this
    by_cases huw : u = w
    · simp [huw, CallerPc.curr]
    · simpa [pc_goto, huw, CallerPc.curr] using this
  case kys_workers =>
    intro u hu
    by_cases huw : u = w
    · simp [huw, hk]
    · simp only [slot_call, slot_goto, slot_setSlot, if_neg huw]
      exact h.kys_workers u ((List.mem_cons.mp hu).resolve_left huw)
  case kys_asked => exact fun _ hu => hu.elim
  case told => exact fun _ hu => hu.elim
  case joined =>
    intro _ hu
    cases hu
  case slot_waiting =>
    intro u hu
    have huw : u ≠ w := by
      rintro rfl
      simp at hu
    simp only [slot_call, slot_goto, slot_setSlot, if_neg huw]
    have hu' : s.pc u = .waiting := by simpa [pc_goto, huw] using hu
    exact .inl ((h.slot_waiting u hu').resolve_right (by simp [hpc]))

/-- The next worker is taken off the list. -/
theorem Inv.unlink {rest : List YoiPoolWorkerT} (h : Inv s) (hpc : s.caller = .freeNext)
    (hw : s.workers = w :: rest) : Inv { s.call (.freeLock w) with workers := rest } := by
  constructor
  case nodup => simpa [hpc, hw, CallerPc.curr] using h.nodup
  case present =>
    intro u
    simpa [hpc, hw, CallerPc.curr] using h.present u
  case kys_workers => exact fun u hu => h.kys_workers u (by simp [hw, show u ∈ rest from hu])
  case kys_asked => exact fun _ hu => hu.elim
  case told => exact fun _ hu => hu.elim
  case joined =>
    intro _ hu
    cases hu
  case slot_waiting => exact fun u hu => .inl ((h.slot_waiting u hu).resolve_right (by simp [hpc]))

/-- The worker is asked to leave. -/
theorem Inv.ask (h : Inv s) (hpc : s.caller = .freeKys w) :
    Inv ((s.setSlot w { s.slot w with kys := true }).call (.freeSignal w)) := by
  have hnd := h.nodup
  simp only [hpc, CallerPc.curr, List.singleton_append, List.nodup_cons] at hnd
  constructor
  case nodup => simpa [hpc, CallerPc.curr] using h.nodup
  case present =>
    intro u
    simpa [hpc, CallerPc.curr] using h.present u
  case kys_workers =>
    intro u hu
    have huw : u ≠ w := fun e => hnd.1 (e ▸ hu)
    simp only [slot_call, slot_setSlot, if_neg huw]
    exact h.kys_workers u hu
  case kys_asked =>
    rintro u (rfl : w = u)
    simp
  case told => exact fun _ hu => hu.elim
  case joined =>
    intro _ hu
    cases hu
  case slot_waiting =>
    intro u hu
    have hnull := (h.slot_waiting u hu).resolve_right (by simp [hpc])
    by_cases huw : u = w
    · exact .inl (by simpa [huw] using huw ▸ hnull)
    · exact .inl (by simpa [slot_setSlot, huw] using hnull)

/-- The worker that was joined is freed. -/
theorem Inv.release (h : Inv s) (hpc : s.caller = .freeDel w) :
    Inv ((s.goto w .absent).call .freeNext) := by
  have hnd := h.nodup
  simp only [hpc, CallerPc.curr, List.singleton_append, List.nodup_cons] at hnd
  constructor
  case nodup => exact hnd.2
  case present =>
    intro u
    have := h.present u
    simp only [hpc, CallerPc.curr, List.singleton_append, List.mem_cons] at this
    by_cases huw : u = w
    · simpa [huw, CallerPc.curr] using hnd.1
    · simpa [pc_goto, huw, CallerPc.curr] using this
  case kys_workers => exact h.kys_workers
  case kys_asked => exact fun _ hu => hu.elim
  case told => exact fun _ hu => hu.elim
  case joined =>
    intro _ hu
    cases hu
  case slot_waiting =>
    intro u hu
    have huw : u ≠ w := by
      rintro rfl
      simp at hu
    exact .inl ((h.slot_waiting u (by simpa [pc_goto, huw] using hu)).resolve_right (by simp [hpc]))

/-- A step of the caller keeps it. -/
theorem Inv.callerNext (h : Inv s) (hst : s.callerNext env = some (op, t)) : Inv t := by
  -- a place from which no worker was asked, told or joined, or is about to be signalled
  have quiet : ∀ {pc : CallerPc}, pc.curr = s.caller.curr → (∀ w, ¬ pc.asked w) →
      (∀ w, ¬ pc.told w) → (∀ w, pc ≠ .freeDel w) → (∀ w, s.caller ≠ .execSignal w) →
        Inv (s.call pc) := fun hc ha ht hj hs =>
    h.call hc (fun w hw => absurd hw (ha w)) (fun w hw => absurd hw (ht w))
      (fun w hw => absurd hw (hj w)) fun w hw => absurd hw (hs w)
  cases callerStep hst with
  | fill hpc => exact (h.fill hpc).frame _ _
  | @signal it hpc =>
    refine (h.signal it).call (by simp [hpc, CallerPc.curr]) (fun _ hu => hu.elim)
      (fun _ hu => hu.elim) (by simp) fun u hu => ?_
    obtain rfl : it = u := by simpa [hpc] using hu
    exact pc_signal_ne_waiting
  | hire hpc hmalloc hnew => exact (h.spawn hpc hnew rfl).frame _ _
  | unlink hpc hworkers => exact h.unlink hpc hworkers
  | ask hpc => exact h.ask hpc
  | @tell curr hpc =>
    refine (h.signal curr).call (by simp [hpc, CallerPc.curr]) ?_ ?_ (by simp) (by simp [hpc])
    · intro u hu
      simpa using h.kys_asked u (by rw [hpc]; exact hu)
    · rintro u (rfl : curr = u)
      exact pc_signal_ne_waiting
  | unlockWorker hpc =>
    refine h.call (by simp [hpc, CallerPc.curr]) ?_ ?_ (by simp) (by simp [hpc])
    · exact fun u hu => h.kys_asked u (by rw [hpc]; exact hu)
    · exact fun u hu => h.told u (by rw [hpc]; exact hu)
  | join hpc hexited =>
    refine h.call (by simp [hpc, CallerPc.curr]) ?_ (fun _ hu => hu.elim) ?_ (by simp [hpc])
    · exact fun u hu => h.kys_asked u (by rw [hpc]; exact hu)
    · intro u hu
      cases hu
      exact hexited
  | del hpc => exact h.release hpc
  | impl hpc =>
    split <;> exact quiet (by simp [hpc, CallerPc.curr]) (fun _ => id) (fun _ => id) (by simp)
      (by simp [hpc])
  | _ hpc =>
    exact quiet (by simp [hpc, CallerPc.curr]) (fun _ => id) (fun _ => id) (by simp)
      (by simp [hpc])

/-! ## Runs -/

/-- Everything a step can be. -/
inductive Steps (q : YoQueueT) (s : Pool) : PoolAct → Pool → Prop
  | exec {task : Task} (hidle : s.caller = .idle) (hq : (s.mem.req task.req).queue = q)
      (hw : task.worker ≠ NULL) : Steps q s (.exec task) (s.call (.execNext task s.workers))
  | free (hidle : s.caller = .idle) : Steps q s .free (s.call .free)
  | caller {env : CallerEnv} {op : Op Lock} {u : Pool} {lock : Lock → Option Thread}
      (hnext : s.callerNext env = some (op, u)) (hop : op.apply .caller s.lock = some lock) :
      Steps q s (.caller env) { u with lock := lock }
  | worker {w : YoiPoolWorkerT} {code : YoCode} {op : Op Lock} {u : Pool}
      {lock : Lock → Option Thread} (hnext : s.workerNext w code = some (op, u))
      (hop : op.apply (.worker w) s.lock = some lock) :
      Steps q s (.worker w code) { u with lock := lock }
  | spurious {w : YoiPoolWorkerT} (hw : s.pc w = .waiting) :
      Steps q s (.spurious w) (s.goto w .woken)

theorem step_cases (h : (system q).step s a = some t) : Steps q s a t := by
  cases a with
  | exec task =>
    simp only [system] at h
    split at h
    · rename_i hg
      cases h
      exact .exec hg.1 hg.2.1 hg.2.2
    · cases h
  | free =>
    simp only [system] at h
    split at h
    · rename_i hidle
      cases h
      exact .free hidle
    · cases h
  | caller env =>
    obtain ⟨⟨op, u⟩, hnext, h⟩ := Option.bind_eq_some_iff.mp h
    obtain ⟨lock, hop, rfl⟩ := Option.map_eq_some_iff.mp h
    exact .caller hnext hop
  | worker w code =>
    obtain ⟨⟨op, u⟩, hnext, h⟩ := Option.bind_eq_some_iff.mp h
    obtain ⟨lock, hop, rfl⟩ := Option.map_eq_some_iff.mp h
    exact .worker hnext hop
  | spurious w =>
    simp only [system] at h
    split at h
    · rename_i hw
      cases h
      exact .spurious hw
    · cases h

/-- A worker that wakes without a signal keeps the invariant. -/
theorem Inv.spurious (h : Inv s) (hw : s.pc w = .waiting) : Inv (s.goto w .woken) := by
  have := h.signal w
  rwa [Pool.signal, if_pos hw] at this

/-- The invariant and mutual exclusion. -/
structure Sound (s : Pool) : Prop extends Inv s where
  owns : ∀ l, Owns (s.lock l) (s.holds l)

theorem Sound.step (h : Sound s) (hst : (system q).step s a = some t) : Sound t := by
  cases step_cases hst with
  | exec hidle hq hw =>
    refine ⟨h.toInv.call (by simp [hidle, CallerPc.curr]) (fun _ => False.elim)
      (fun _ => False.elim) (by simp) (by simp [hidle]), fun l => (h.owns l).congr fun u => ?_⟩
    cases u <;> simp [holds, hidle, CallerPc.holds]
  | free hidle =>
    refine ⟨h.toInv.call (by simp [hidle, CallerPc.curr]) (fun _ => False.elim)
      (fun _ => False.elim) (by simp) (by simp [hidle]), fun l => (h.owns l).congr fun u => ?_⟩
    cases u <;> simp [holds, hidle, CallerPc.holds]
  | caller hnext hop =>
    obtain ⟨hself, hgive⟩ := caller_holds hnext
    refine ⟨(h.toInv.callerNext hnext).frame _ _, owns_apply h.owns hop hself hgive
      fun u hu l => ?_⟩
    cases u with
    | caller => exact absurd rfl hu
    | worker w => exact caller_holds_worker hnext h.joined w l
  | @worker w code op u lock hnext hop =>
    obtain ⟨hself, hgive⟩ := worker_holds hnext
    have hm := workerMove hnext
    refine ⟨(h.toInv.worker hm).frame _ _, owns_apply h.owns hop hself hgive
      fun v hv l => ?_⟩
    cases v with
    | caller => simp only [holds, hm.caller]
    | worker v => simp only [holds, hm.pc_of_ne v fun e => hv (e ▸ rfl)]
  | @spurious w hw =>
    refine ⟨h.toInv.spurious hw, fun l => (h.owns l).congr fun u => ?_⟩
    cases u with
    | caller => rfl
    | worker v =>
      by_cases hv : v = w
      · simp [holds, hv, hw, WorkerPc.holds]
      · simp [holds, pc_goto, hv]

/-- **Every reachable state is sound.** -/
theorem sound_of_reachable (hs : (system q).Reachable s) : Sound s := by
  refine hs.invariant (P := Sound) ?_ fun s a t _ h _ hst => h.step hst
  rintro s ⟨hlock, hpc, hworkers, hidle⟩
  constructor
  · constructor
    · simp [hidle, hworkers, CallerPc.curr]
    · simp [hpc, hidle, hworkers, CallerPc.curr]
    · simp [hworkers]
    all_goals simp [hidle, hpc, CallerPc.asked, CallerPc.told]
  · rintro l (_ | w)
    · simp [hlock, holds, hidle, CallerPc.holds]
    · simp [hlock, holds, hpc, WorkerPc.holds]

end Pool

end Yaooi
