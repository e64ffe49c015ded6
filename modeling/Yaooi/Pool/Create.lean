import Yaooi.Pool.Submit
import Yaooi.Unix.Errno

/-!
# Creating the threads of a pool

`yo_req_exec` of `src/pool.c` and `yo_thread_new` of `src/utils/multithread.h` on Unix, where the
thread of a new worker may fail to be created.  `pthread_create` returns a positive error number
then, and `yo_req_exec` tests for a negative one, so the worker is put on the list without a
thread.

* `PoolExec.system` is the pool with the calls of `yo_req_exec` and what they return; as long as all
  threads are created its pool runs as in `Pool.system`.
* `PoolExec.manned_iff`: the calls return what they should, and every worker that they or
  `yo_queue_free` meet has a thread, if and only if all threads are created.

A worker without a thread makes no step, and `yo_thread_free_join` does not return for it.
-/

namespace Yaooi

open Transition Mutex

/-! ## The calls -/

/-- `yo_thread_new`: the result of `pthread_create`, which is 0 or an error number. -/
def yoThreadNew (create : ℕ) : ℤ := create

/-- The test of `yo_req_exec` never finds an error. -/
theorem yoThreadNew_not_neg (create : ℕ) : ¬ yoThreadNew create < 0 :=
  not_lt.mpr (Int.natCast_nonneg create)

namespace Pool

/-- The part of `yo_req_exec` behind the loop. -/
def yoReqExecNew (s : Pool) (t : Task) (malloc : YoiPoolWorkerT) (create : ℕ) : YoCode × Pool :=
  if malloc = NULL then (.enomem, s)
  else
    let s := { s.setSlot malloc ⟨t.worker, t.req, t.args, false⟩ with
      mem := s.mem.yoiReqBegin t.req s.mem.text.poolCancelcb }
    let s := if create = 0 then s.goto malloc .entry else s
    if yoThreadNew create < 0 then (.eagain, s)
    else (.ok, { s with workers := malloc :: s.workers })

/-- The caller has come to this part, with this answer from `malloc`. -/
def behindLoop (s : Pool) : PoolAct → Option (Task × YoiPoolWorkerT)
  | .caller env =>
    match s.caller with
    | .execNext t [] => some (t, env.malloc)
    | _ => none
  | _ => none

/-- The record is not in use. -/
def IsFree (s : Pool) (w : YoiPoolWorkerT) : Prop := s.pc w = .absent ∧ w ∉ s.workers

instance (s : Pool) (w : YoiPoolWorkerT) : Decidable (s.IsFree w) :=
  inferInstanceAs (Decidable (_ ∧ _))

end Pool

/-- A pool with its last call of `yo_req_exec`: the task, the workers on the list at that time, and,
in the state in which the call returns, its code and the result of `pthread_create`, if this was
called. -/
structure PoolExec where
  pool : Pool
  task : Task
  before : List YoiPoolWorkerT
  result : Option (YoCode × Option ℕ)

/-- A step, with what `pthread_create` returns if it is called. -/
structure PoolExecAct where
  act : PoolAct
  create : ℕ

namespace PoolExec

/-- Another step of the pool. -/
def after (s : PoolExec) (a : PoolAct) (p : Pool) : PoolExec :=
  match a, s.pool.caller with
  | .exec t, _ => ⟨p, t, s.pool.workers, none⟩
  | .caller _, .execUnlock _ => { s with pool := p, result := some (.ok, none) }
  | _, _ => { s with pool := p, result := none }

/-- The threads of the pool of the queue `q`, where threads may fail to be created. -/
def system (q : YoQueueT) : System PoolExec PoolExecAct where
  init s := (Pool.system q).init s.pool ∧ s.result = none
  step s a :=
    match s.pool.behindLoop a.act with
    | some (t, malloc) =>
      if malloc = NULL ∨ s.pool.IsFree malloc then
        let p := s.pool.yoReqExecNew t malloc a.create
        some { s with
          pool := p.2.call .idle
          result := some (p.1, if malloc = NULL then none else some a.create) }
      else none
    | none => ((Pool.system q).step s.pool a.act).map (s.after a.act)

/-- Every worker that a submission or `yo_queue_free` meets has a thread. -/
def Manned (s : PoolExec) : Prop :=
  ∀ w ∈ s.pool.caller.curr ++ s.pool.workers ++ s.pool.caller.ahead, s.pool.pc w ≠ .absent

/-- `yo_req_exec` returns `YO_OK` only with the task in the slot of a worker that has a thread, and
an error, with the list of workers as it was, where a thread is not created. -/
def Answers (s : PoolExec) : Prop :=
  ∀ code create, s.result = some (code, create) →
    (code = .ok → ∃ w ∈ s.pool.workers, s.pool.pc w ≠ .absent ∧ (s.pool.slot w).task = s.task) ∧
      ∀ e, create = some e → e ≠ 0 → code ≠ .ok ∧ s.pool.workers = s.before

/-- If a thread is to be created, it is. -/
def Created (s : PoolExec) (a : PoolExecAct) : Prop :=
  ∀ t malloc, s.pool.behindLoop a.act = some (t, malloc) → malloc ≠ NULL → a.create = 0

end PoolExec

/-! ## The slot that the caller has filled -/

namespace Pool

variable {q : YoQueueT} {s t : Pool} {a : PoolAct} {w it : YoiPoolWorkerT} {op : Op Lock}
  {code : YoCode} {env : CallerEnv} {task : Task} {rest : List YoiPoolWorkerT} {create : ℕ}

/-- A worker changes its slot only where it holds its lock, to empty it. -/
theorem slot_workerNext (h : s.workerNext w code = some (op, t)) (hclear : s.pc w ≠ .clear) :
    t.slot = s.slot := by
  cases workerStep h with
  | clear hpc => exact absurd hpc hclear
  | _ => rfl

/-- While the caller holds the lock of a worker, its slot stays as it is. -/
theorem slot_of_holds (h : Sound s) (hnext : s.workerNext w code = some (op, t))
    (hcaller : s.caller.holds (.worker it) = true) : t.slot it = s.slot it := by
  by_cases hw : it = w
  · subst hw
    refine congrFun (slot_workerNext hnext fun hclear => ?_) it
    have howner := (h.owns (.worker it) .caller).mpr hcaller
    have hworker := (h.owns (.worker it) (.worker it)).mpr (by simp [holds, hclear, WorkerPc.holds])
    rw [howner] at hworker
    cases hworker
  · exact (workerMove hnext).slot_of_ne it hw

end Pool

namespace PoolExec

variable {q : YoQueueT} {s s₀ s' : PoolExec} {a : PoolExecAct} {act : PoolAct} {p : Pool}
  {w it : YoiPoolWorkerT} {op : Op Lock} {code : YoCode} {env : CallerEnv} {task : Task}
  {malloc : YoiPoolWorkerT} {create : ℕ} {as : List PoolExecAct}

@[simp] theorem pool_after : (s.after act p).pool = p := by
  unfold after
  split <;> rfl

/-- Only a new call changes what is known of the call. -/
theorem after_caller (s : PoolExec) (env : CallerEnv) (p : Pool) :
    (s.after (.caller env) p).task = s.task ∧ (s.after (.caller env) p).before = s.before := by
  unfold after
  split <;> simp_all

/-! ## What holds as long as all threads are created -/

/-- What holds of a call of `yo_req_exec`. -/
structure Calling (s : PoolExec) : Prop where
  ahead : s.pool.caller.ahead ⊆ s.pool.workers
  task : ∀ t, s.pool.caller.task = some t → t = s.task ∧ s.before = s.pool.workers
  placed : ∀ it, s.pool.caller = .execSignal it ∨ s.pool.caller = .execUnlock it →
    it ∈ s.pool.workers ∧ (s.pool.slot it).task = s.task

/-- Outside of `yo_req_exec` it says nothing. -/
theorem Calling.of_idle (hahead : s.pool.caller.ahead = []) (htask : s.pool.caller.task = none)
    (hplaced : ∀ it, s.pool.caller ≠ .execSignal it ∧ s.pool.caller ≠ .execUnlock it) :
    s.Calling :=
  ⟨by simp [hahead], by simp [htask], fun it h => (h.elim (hplaced it).1 (hplaced it).2).elim⟩

/-- A step of the caller keeps it. -/
theorem Calling.callerNext (h : s.Calling) (hloop : s.pool.behindLoop (.caller env) = none)
    (hnext : s.pool.callerNext env = some (op, p)) {lock : Lock → Option Thread} :
    (s.after (.caller env) { p with lock := lock }).Calling := by
  obtain ⟨htask, hbefore⟩ := after_caller s env { p with lock := lock }
  suffices hcalling : (⟨p, s.task, s.before, none⟩ : PoolExec).Calling by
    refine ⟨?_, ?_, ?_⟩
    · rw [pool_after]
      exact hcalling.ahead
    · rw [pool_after, htask, hbefore]
      exact hcalling.task
    · rw [pool_after, htask]
      exact hcalling.placed
  cases Pool.callerStep hnext with
  | scan hpc | skip hpc =>
    refine ⟨?_, fun t ht => h.task t (by rw [hpc]; exact ht), by simp⟩
    have := h.ahead
    rwa [hpc] at this
  | @fill t it rest hpc =>
    have hahead := h.ahead
    have ht := h.task t (by rw [hpc]; rfl)
    rw [hpc] at hahead
    refine ⟨by simp [CallerPc.ahead], by simp [CallerPc.task], fun it' hit' => ?_⟩
    obtain rfl : it = it' := by simpa using hit'
    exact ⟨(List.cons_subset.mp hahead).1, by simp [YoiPoolWorker.fill, YoiPoolWorker.task, ← ht.1]⟩
  | @full t it rest hpc =>
    have hahead := h.ahead
    have ht := h.task t (by rw [hpc]; rfl)
    rw [hpc] at hahead
    refine ⟨(List.cons_subset.mp hahead).2, fun t' ht' => ?_, by simp⟩
    cases ht'
    exact ht
  | @signal it hpc =>
    obtain ⟨hit, hslot⟩ := h.placed it (.inl hpc)
    refine ⟨by simp [CallerPc.ahead], by simp [CallerPc.task], fun it' hit' => ?_⟩
    obtain rfl : it = it' := by simpa using hit'
    exact ⟨by simpa using hit, by simpa using hslot⟩
  | refuse hpc | hire hpc => simp [Pool.behindLoop, hpc] at hloop
  | impl hpc =>
    by_cases hans : env.implFree = .ok <;> simp only [hans, if_true, if_false] <;>
      exact .of_idle rfl rfl (by simp)
  | _ => exact .of_idle rfl rfl (by simp)

/-- **A step of the pool keeps it.** -/
theorem Calling.after (h : s.Calling) (hsound : s.pool.Sound)
    (hloop : s.pool.behindLoop act = none) (hst : (Pool.system q).step s.pool act = some p) :
    (s.after act p).Calling := by
  cases Pool.step_cases hst with
  | @exec task hidle hq hw =>
    refine ⟨List.Subset.refl _, fun t ht => ?_, by simp [PoolExec.after]⟩
    cases ht
    exact ⟨rfl, rfl⟩
  | free hidle =>
    exact .of_idle (by rw [pool_after]; rfl) (by rw [pool_after]; rfl) (by simp)
  | caller hnext hop => exact h.callerNext hloop hnext
  | @worker w code op u lock hnext hop =>
    have hm := Pool.workerMove hnext
    refine ⟨?_, fun t ht => ?_, fun it hit => ?_⟩
    · rw [pool_after]
      simpa [hm.caller, hm.workers] using h.ahead
    · rw [pool_after] at ht ⊢
      simpa [PoolExec.after, hm.workers] using h.task t (by simpa [hm.caller] using ht)
    · rw [pool_after] at hit ⊢
      have hit' : s.pool.caller = .execSignal it ∨ s.pool.caller = .execUnlock it := by
        simpa [hm.caller] using hit
      obtain ⟨hmem, hslot⟩ := h.placed it hit'
      have hholds : s.pool.caller.holds (.worker it) = true := by
        rcases hit' with hpc | hpc <;> simp [hpc, CallerPc.holds]
      refine ⟨by simpa [hm.workers] using hmem, ?_⟩
      have hsame : u.slot it = s.pool.slot it := Pool.slot_of_holds hsound hnext hholds
      simpa [PoolExec.after, hsame] using hslot
  | spurious hw => exact ⟨h.ahead, h.task, h.placed⟩

/-- What holds as long as all threads are created. -/
structure Inv (q : YoQueueT) (s : PoolExec) : Prop where
  reachable : (Pool.system q).Reachable s.pool
  calling : s.Calling

/-- The workers that are met are those that there are. -/
theorem Inv.manned (h : s.Inv q) : s.Manned := by
  intro w hw
  rw [(Pool.sound_of_reachable h.reachable).present w]
  rcases List.mem_append.mp hw with hw | hw
  · exact hw
  · exact List.mem_append_right _ (h.calling.ahead hw)

/-- A call that goes on returns nothing, and one that has found a worker has given it the task. -/
theorem Inv.answers (h : s.Inv q) (hst : (Pool.system q).step s.pool act = some p)
    (hnew : (s.after act p).Inv q) : (s.after act p).Answers := by
  intro code create hresult
  unfold PoolExec.after at hresult
  split at hresult
  · cases hresult
  · rename_i env it hpc
    cases hresult
    cases Pool.step_cases hst with
    | caller hnext hop =>
      simp only [Pool.callerNext, hpc, Option.some.injEq, Prod.mk.injEq] at hnext
      obtain ⟨rfl, rfl⟩ := hnext
      obtain ⟨hmem, hslot⟩ := h.calling.placed it (.inr hpc)
      refine ⟨fun _ => ⟨it, by simpa using hmem, ?_, ?_⟩, by simp⟩
      · refine hnew.manned it (List.mem_append_left _ (List.mem_append_right _ ?_))
        simpa using hmem
      · simpa [after_caller] using hslot
  · cases hresult

/-- What a step behind the loop does. -/
theorem behindLoop_eq_some {t : Task} (h : s.pool.behindLoop act = some (t, malloc)) :
    ∃ env, act = .caller env ∧ s.pool.caller = .execNext t [] ∧ env.malloc = malloc := by
  cases act with
  | exec | free | worker | spurious => simp [Pool.behindLoop] at h
  | caller env =>
    simp only [Pool.behindLoop] at h
    split at h
    · rename_i hpc
      cases h
      exact ⟨env, rfl, hpc, rfl⟩
    · cases h

/-- There is no memory for a new worker. -/
theorem Inv.refuse {t : Task} (h : s.Inv q) (hloop : s.pool.behindLoop act = some (t, NULL)) :
    Inv q { s with pool := s.pool.call .idle, result := some (.enomem, none) } ∧
      Answers { s with pool := s.pool.call .idle, result := some (.enomem, none) } := by
  obtain ⟨env, rfl, hpc, hmalloc⟩ := behindLoop_eq_some hloop
  refine ⟨⟨h.reachable.step trivial (a := .caller env) ?_, .of_idle rfl rfl (by simp)⟩, ?_⟩
  · simp only [Pool.system, Pool.perform, Pool.callerNext, hpc, if_pos hmalloc, Option.bind_some,
      Op.apply, Option.map_some]
    rfl
  · intro code create hresult
    cases hresult
    exact ⟨fun hok => absurd hok (by decide), fun e he => absurd he (by simp)⟩

/-- **The thread is created**, and the pool runs as in `Pool.system`. -/
theorem Inv.hire {t : Task} (h : s.Inv q) (hloop : s.pool.behindLoop act = some (t, malloc))
    (hnull : malloc ≠ NULL) (hfree : s.pool.IsFree malloc) :
    Inv q { s with
        pool := (s.pool.yoReqExecNew t malloc 0).2.call .idle
        result := some ((s.pool.yoReqExecNew t malloc 0).1, some 0) } ∧
      Answers { s with
        pool := (s.pool.yoReqExecNew t malloc 0).2.call .idle
        result := some ((s.pool.yoReqExecNew t malloc 0).1, some 0) } := by
  obtain ⟨env, rfl, hpc, rfl⟩ := behindLoop_eq_some hloop
  have ht := (h.calling.task t (by rw [hpc]; rfl)).1
  simp only [Pool.yoReqExecNew, if_neg hnull, if_true, if_neg (yoThreadNew_not_neg 0)]
  refine ⟨⟨h.reachable.step trivial (a := .caller env) ?_, .of_idle rfl rfl (by simp)⟩, ?_⟩
  · simp only [Pool.system, Pool.perform, Pool.callerNext, hpc, if_neg hnull, if_pos hfree.1,
      Option.bind_some, Op.apply, Option.map_some]
    rfl
  · intro code create hresult
    cases hresult
    refine ⟨fun _ => ⟨env.malloc, List.mem_cons_self .., ?_, ?_⟩, fun e he hne => ?_⟩
    · simp
    · simp [YoiPoolWorker.task, ht]
    · cases he
      exact absurd rfl hne

/-- **The thread is not created**, and the worker is on the list without one. -/
theorem not_manned_create {t : Task} {n : ℕ} (hnull : malloc ≠ NULL)
    (hfree : s.pool.IsFree malloc) (hn : n ≠ 0) (result : Option (YoCode × Option ℕ)) :
    ¬ Manned { s with
      pool := (s.pool.yoReqExecNew t malloc n).2.call .idle
      result := result } := by
  intro h
  simp only [Pool.yoReqExecNew, if_neg hnull, if_neg hn, if_neg (yoThreadNew_not_neg n)] at h
  refine h malloc ?_ hfree.1
  simp [CallerPc.curr]

/-- **A step.**  It keeps what is asked if and only if a thread is created where it is to be. -/
theorem Inv.step (h : s.Inv q) (hst : (system q).step s a = some s') :
    (s'.Manned ∧ s'.Answers ↔ s.Created a) ∧ (s'.Manned ∧ s'.Answers → s'.Inv q) := by
  simp only [system] at hst
  cases hloop : s.pool.behindLoop a.act with
  | none =>
    simp only [hloop, Option.map_eq_some_iff] at hst
    obtain ⟨p, hp, rfl⟩ := hst
    have hnew : (s.after a.act p).Inv q :=
      ⟨by rw [pool_after]; exact h.reachable.step trivial hp,
        h.calling.after (Pool.sound_of_reachable h.reachable) hloop hp⟩
    refine ⟨iff_of_true ⟨hnew.manned, h.answers hp hnew⟩ ?_, fun _ => hnew⟩
    intro t malloc hsome
    rw [hloop] at hsome
    cases hsome
  | some tm =>
    obtain ⟨t, malloc⟩ := tm
    simp only [hloop, Option.ite_none_right_eq_some, Option.some.injEq] at hst
    obtain ⟨hguard, rfl⟩ := hst
    by_cases hnull : malloc = NULL
    · subst hnull
      have htail : s.pool.yoReqExecNew t NULL a.create = (.enomem, s.pool) := if_pos rfl
      simp only [htail, if_true]
      obtain ⟨hnew, hanswers⟩ := h.refuse hloop
      refine ⟨iff_of_true ⟨hnew.manned, hanswers⟩ ?_, fun _ => hnew⟩
      intro t' malloc' hsome hne
      rw [hloop] at hsome
      cases hsome
      exact absurd rfl hne
    · have hfree := hguard.resolve_left hnull
      have hcreated : s.Created a ↔ a.create = 0 := by
        refine ⟨fun hc => hc t malloc hloop hnull, fun hc => ?_⟩
        exact fun _ _ _ _ => hc
      simp only [if_neg hnull]
      rw [hcreated]
      by_cases hcreate : a.create = 0
      · obtain ⟨hnew, hanswers⟩ := h.hire hloop hnull hfree
        rw [hcreate]
        exact ⟨iff_of_true ⟨hnew.manned, hanswers⟩ rfl, fun _ => hnew⟩
      · have hno := not_manned_create (s := s) (t := t) hnull hfree hcreate
          (some ((s.pool.yoReqExecNew t malloc a.create).1, some a.create))
        exact ⟨iff_of_false (fun hP => hno hP.1) hcreate, fun hP => absurd hP.1 hno⟩

/-- **When no worker is without a thread.**  Throughout a run, `yo_req_exec` returns what it should
and all workers that are met have a thread, if and only if `pthread_create` succeeds whenever it is
called. -/
theorem manned_iff {s : PoolExec} (hinit : (system q).init s₀)
    (hrun : (system q).run s₀ as = some s) :
    (system q).Always (fun s => s.Manned ∧ s.Answers) s₀ as ↔ (system q).Along Created s₀ as := by
  obtain ⟨hpool, hresult⟩ := hinit
  have h₀ : s₀.Inv q := by
    refine ⟨.init hpool, .of_idle ?_ ?_ ?_⟩ <;> rw [hpool.2.2.2]
    · rfl
    · rfl
    · simp
  refine System.always_iff_along (I := Inv q) (fun _ => True) (fun s a t hs _ _ hst => hs.step hst)
    h₀ ⟨h₀.manned, fun code create h => ?_⟩ (fun _ _ => trivial) hrun
  rw [hresult] at h
  cases h

/-- The queue at `0x10` with one request and no worker yet. -/
def oneRequest : PoolExec := ⟨Pool.oneRequest, ⟨NULL, NULL, NULL⟩, [], none⟩

/-- A task is submitted, and a worker is made for it, where `pthread_create` returns this. -/
def submitOne (create : ℕ) : List PoolExecAct :=
  [⟨.exec ⟨0x30, 0x401400, NULL⟩, 0⟩, ⟨.caller ⟨0x40, .ok⟩, create⟩]

theorem manned_one : ∃ s, (system 0x10).run oneRequest (submitOne 0) = some s ∧
    ((system 0x10).Always (fun s => s.Manned ∧ s.Answers) oneRequest (submitOne 0) ↔
      (system 0x10).Along Created oneRequest (submitOne 0)) :=
  ⟨_, rfl, manned_iff ⟨Pool.init_oneRequest, rfl⟩ rfl⟩

/-- `pthread_create` returns `EAGAIN`.  The call returns `YO_OK`, and the worker on the list has no
thread. -/
theorem not_manned_eagain : ∃ s, (system 0x10).init oneRequest ∧
    (system 0x10).run oneRequest (submitOne 11) = some s ∧ s.result = some (.ok, some 11) ∧
      s.pool.workers = [0x40] ∧ s.pool.pc 0x40 = .absent ∧ ¬ s.Manned ∧ ¬ s.Answers := by
  refine ⟨_, ⟨Pool.init_oneRequest, rfl⟩, rfl, rfl, rfl, rfl, fun h => ?_, fun h => ?_⟩
  · exact h 0x40 (by decide) rfl
  · exact absurd rfl ((h .ok (some 11) rfl).2 11 rfl (by decide)).1

end PoolExec

end Yaooi
