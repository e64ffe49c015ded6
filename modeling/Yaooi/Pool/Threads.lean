import Yaooi.Pool.Process

/-!
# How many threads a pool has

`yo_req_exec` makes a thread when it finds no worker with an empty slot, and a worker empties its
slot only once it has taken its own lock again, after it completed its task.

* `Pool.threads_eq`: a pool has one thread more than there were slots with a task at one of the
  calls, and no call found more.
* `Process.threads_any`: that is no bound in what the program has under way.  One request, handed to
  the pool again each time it is delivered, makes as many threads as there are addresses.
-/

namespace Yaooi

open Transition Mutex

namespace Pool

variable {q : YoQueueT} {s t : Pool} {a : PoolAct} {w : YoiPoolWorkerT} {op : Op Lock}
  {code : YoCode} {env : CallerEnv} {log : List ℕ}

/-! ## What a call finds -/

/-- The workers whose slot holds a task. -/
def occupied (s : Pool) : List YoiPoolWorkerT :=
  s.workers.filter fun w => (s.slot w).worker ≠ NULL

/-- How many such workers there are as `yo_req_exec` is called. -/
def found (s : Pool) (a : PoolAct) (_ : Pool) : List ℕ :=
  match a with
  | .exec _ => [s.occupied.length]
  | .free | .caller _ | .worker .. | .spurious _ => []

theorem mem_occupied : w ∈ s.occupied ↔ w ∈ s.workers ∧ (s.slot w).worker ≠ NULL := by
  simp [occupied]

theorem occupied_le (s : Pool) : s.occupied.length ≤ s.workers.length :=
  List.length_filter_le ..

/-- The slots that were found with a task as the call began, and among them those of all workers
that the loop has passed or that hold a task still. -/
structure Passed (s : Pool) (ws : List YoiPoolWorkerT) : Prop where
  nodup : ws.Nodup
  subset : ws ⊆ s.workers
  passed : ∀ w ∈ s.workers, w ∉ s.caller.ahead ∨ (s.slot w).worker ≠ NULL → w ∈ ws

/-- The loop goes on, and nothing is put into a slot. -/
theorem Passed.congr {ws : List YoiPoolWorkerT} (h : s.Passed ws) (hworkers : t.workers = s.workers)
    (hahead : ∀ w ∈ s.workers, w ∉ t.caller.ahead →
      w ∉ s.caller.ahead ∨ (s.slot w).worker ≠ NULL)
    (hslot : ∀ w, (t.slot w).worker ≠ NULL → (s.slot w).worker ≠ NULL) : t.Passed ws where
  nodup := h.nodup
  subset := by rw [hworkers]; exact h.subset
  passed w hw hor := by
    rw [hworkers] at hw
    rcases hor with hw' | hne
    · exact h.passed w hw (hahead w hw hw')
    · exact h.passed w hw (.inr (hslot w hne))

/-- At the end of the loop every worker was found with a task. -/
theorem Passed.length_eq {ws : List YoiPoolWorkerT} (h : s.Passed ws) (hahead : s.caller.ahead = [])
    (hnodup : s.workers.Nodup) : ws.length = s.workers.length := by
  have hsub : s.workers ⊆ ws := fun w hw => h.passed w hw (.inl (by simp [hahead]))
  exact Nat.le_antisymm (h.nodup.subperm h.subset).length_le (hnodup.subperm hsub).length_le

/-- What the calls found so far, and what that says of the number of workers. -/
structure Counted (s : Pool) (log : List ℕ) : Prop where
  last : s.workers ≠ [] → ∃ k ∈ log, s.workers.length = k + 1
  le : ∀ k ∈ log, k ≤ s.workers.length
  loop : s.caller.task ≠ none → ∃ ws, ws.length ∈ log ∧ s.Passed ws

/-- No worker comes and no slot is filled. -/
theorem Counted.congr (h : s.Counted log) (hworkers : t.workers = s.workers)
    (hahead : t.caller.task ≠ none → s.caller.task ≠ none ∧ ∀ w ∈ s.workers,
      w ∉ t.caller.ahead → w ∉ s.caller.ahead ∨ (s.slot w).worker ≠ NULL)
    (hslot : t.caller.task ≠ none →
      ∀ w, (t.slot w).worker ≠ NULL → (s.slot w).worker ≠ NULL) : t.Counted log where
  last := by rw [hworkers]; exact h.last
  le := by rw [hworkers]; exact h.le
  loop ht := by
    obtain ⟨hs, hahead⟩ := hahead ht
    obtain ⟨ws, hlen, hpassed⟩ := h.loop hs
    exact ⟨ws, hlen, hpassed.congr hworkers hahead (hslot ht)⟩

/-- A step of a worker only empties its slot. -/
theorem slot_of_workerNext (h : s.workerNext w code = some (op, t)) (v : YoiPoolWorkerT)
    (hv : (t.slot v).worker ≠ NULL) : (s.slot v).worker ≠ NULL := by
  cases workerStep h with
  | clear hpc =>
    rw [slot_goto, slot_setSlot] at hv
    split at hv
    · exact absurd rfl hv
    · exact hv
  | _ => exact hv

/-- A step of a call keeps the count. -/
theorem Counted.callerNext (h : s.Counted log) (hs : s.Sound) (hw : s.AtWork)
    (hnext : s.callerNext env = some (op, t)) : t.Counted log := by
  have hcalling := hw.calling
  cases callerStep hnext with
  | scan hpc =>
    exact h.congr rfl (fun _ => ⟨by simp [hpc, CallerPc.task], fun w _ hnot => .inl (by
      simpa [hpc, CallerPc.ahead] using hnot)⟩) fun _ _ => id
  | fill hpc | signal hpc | unlock hpc | refuse hpc =>
    exact h.congr (by simp) (fun ht => absurd rfl ht) fun ht => absurd rfl ht
  | @full task it rest hpc hfull =>
    have hit : it ∈ s.workers := hw.ahead (by simp [hpc, CallerPc.ahead])
    have hne : (s.slot it).worker ≠ NULL := fun he => hfull ⟨he, hs.kys_workers it hit⟩
    refine h.congr rfl (fun _ => ⟨by simp [hpc, CallerPc.task], fun w _ hnot => ?_⟩) fun _ _ => id
    by_cases hwit : w = it
    · exact .inr (hwit ▸ hne)
    · exact .inl (by simpa [hpc, CallerPc.ahead, hwit] using hnot)
  | skip hpc =>
    exact h.congr rfl (fun _ => ⟨by simp [hpc, CallerPc.task], fun w _ hnot => .inl (by
      simpa [hpc, CallerPc.ahead] using hnot)⟩) fun _ _ => id
  | @hire task hpc hmalloc hnew =>
    obtain ⟨ws, hmem, hpassed⟩ := h.loop (by simp [hpc, CallerPc.task])
    have hnodup : s.workers.Nodup := hs.nodup.of_append_right
    have hlen := hpassed.length_eq (by simp [hpc, CallerPc.ahead]) hnodup
    refine ⟨fun _ => ⟨ws.length, hmem, ?_⟩, fun k hk => ?_, fun ht => absurd rfl ht⟩
    · show (env.malloc :: s.workers).length = _
      rw [List.length_cons, hlen]
    · exact (h.le k hk).trans (Nat.le_succ _)
  | _ hpc =>
    rw [hpc] at hcalling
    simp [CallerPc.freeing, CallerPc.inPool] at hcalling

/-- **The number of threads.**  In every run without `yo_queue_free`, a pool that has threads has
one more than there were slots with a task as one of the calls of `yo_req_exec` began, and no call
found more such slots than there are threads. -/
theorem threads_eq {s : Pool × List ℕ}
    (h : ((system q).logged found).Reach (fun s a => NoFree s.1 a) s) :
    (s.1.workers ≠ [] → ∃ k ∈ s.2, s.1.workers.length = k + 1) ∧
      ∀ k ∈ s.2, k ≤ s.1.workers.length := by
  have hcounted : s.1.Counted s.2 := by
    refine h.invariant (P := fun s => s.1.Counted s.2) ?_ ?_
    · rintro ⟨s, log⟩ ⟨⟨-, -, hworkers, hidle⟩, rfl⟩
      have hempty : s.workers = [] := hworkers
      have hcaller : s.caller = .idle := hidle
      exact ⟨fun hne => absurd hempty hne, by simp, by simp [hcaller, CallerPc.task]⟩
    · rintro ⟨s, log⟩ a ⟨t, log'⟩ hreach hcounted hfree hst
      obtain ⟨hst, hlog⟩ := System.logged_step.mp hst
      have hr : (system q).Reach NoFree s := System.Reach.of_logged hreach
      have hs := sound_of_reachable hr.reachable
      have hw := (working_of_reach hr).atWork
      obtain rfl : log' = log ++ s.found a t := hlog
      have hst : (system q).step s a = some t := hst
      cases step_cases hst with
      | exec hidle hq hne =>
        refine ⟨fun hworkers => ?_, fun k hk => ?_, fun _ => ⟨s.occupied, ?_, ?_⟩⟩
        · obtain ⟨k, hk, hlen⟩ := hcounted.last hworkers
          exact ⟨k, List.mem_append_left _ hk, hlen⟩
        · rcases List.mem_append.mp hk with hk | hk
          · exact hcounted.le k hk
          · rw [List.mem_singleton.mp hk]
            exact s.occupied_le
        · exact List.mem_append_right _ (List.mem_singleton.mpr rfl)
        · refine ⟨hs.nodup.of_append_right.filter _, fun w hw => (mem_occupied.mp hw).1,
            fun w hw hor => ?_⟩
          rcases hor with hnot | hne
          · exact absurd hw hnot
          · exact mem_occupied.mpr ⟨hw, hne⟩
      | free => exact absurd rfl hfree
      | caller hnext hop =>
        rw [found, List.append_nil]
        exact (hcounted.callerNext hs hw hnext).congr rfl (fun ht => ⟨ht, fun _ _ => .inl⟩)
          fun _ _ => id
      | @worker w code op u lock hnext hop =>
        have hmove := workerMove hnext
        have hworkers : u.workers = s.workers := hmove.workers
        have hcaller : u.caller = s.caller := hmove.caller
        have hslot := slot_of_workerNext hnext
        rw [found, List.append_nil]
        refine hcounted.congr hworkers (fun ht => ?_) fun _ => hslot
        have ht : u.caller.task ≠ none := ht
        rw [hcaller] at ht
        refine ⟨ht, fun w _ hnot => .inl ?_⟩
        have hnot : w ∉ u.caller.ahead := hnot
        rwa [hcaller] at hnot
      | spurious hwait =>
        rw [found, List.append_nil]
        exact hcounted.congr rfl (fun ht => ⟨ht, fun _ _ => .inl⟩) fun _ _ => id
  exact ⟨hcounted.last, hcounted.le⟩

/-- The request of `oneRequest` is completed and handed to the pool once more, before the worker
that completed it has emptied its slot. -/
def tooEarly : List PoolAct :=
  .exec ⟨0x30, 0x401400, NULL⟩ :: .caller ⟨0x40, .ok⟩ :: List.replicate 8 (.worker 0x40 .ok) ++
    .exec ⟨0x30, 0x401400, NULL⟩ :: List.replicate 4 (.caller ⟨0x60, .ok⟩)

/-- Two threads, as one slot was found with a task. -/
theorem threads_eq_tooEarly :
    ∃ s, ((system 0x10).logged found).run (oneRequest, []) tooEarly = some s ∧
      s.1.workers = [0x60, 0x40] ∧ s.2 = [0, 1] ∧
      (s.1.workers ≠ [] → ∃ k ∈ s.2, s.1.workers.length = k + 1) ∧
        ∀ k ∈ s.2, k ≤ s.1.workers.length := by
  have hend : (((system 0x10).logged found).run (oneRequest, []) tooEarly).map
      (fun s => (s.1.workers, s.2)) = some ([0x60, 0x40], [0, 1]) := rfl
  obtain ⟨s, hrun, heq⟩ := Option.map_eq_some_iff.mp hend
  obtain ⟨hworkers, hlog⟩ := Prod.mk.inj heq
  have hinit : ((system 0x10).logged found).init (oneRequest, []) := ⟨init_oneRequest, rfl⟩
  have hfree : ∀ a ∈ tooEarly, a ≠ .free := by
    intro a ha he
    subst he
    simp [tooEarly] at ha
  exact ⟨s, hrun, hworkers, hlog, threads_eq (System.reach_of_run (.init hinit)
    (System.along_of_mem (fun a ha _ => hfree a ha) _) hrun)⟩

end Pool

/-! ## One request and any number of threads -/

namespace Pool

section Steps

variable {q : YoQueueT} {s : Pool} {w : YoiPoolWorkerT} {task : Task} {log : List TaskEvent}
  {env : CallerEnv} {code : YoCode}

/-- A lock that was free is free again. -/
theorem update_free {lock : Lock → Option Thread} {l : Lock} {o : Option Thread}
    (h : lock l = none) : Function.update (Function.update lock l o) l none = lock := by
  rw [Function.update_idem, ← h, Function.update_eq_self]

/-- The loop passes a worker whose slot holds a task. -/
theorem run_pass {it : YoiPoolWorkerT} {rest : List YoiPoolWorkerT}
    (hcaller : s.caller = .execNext task (it :: rest)) (hlock : s.lock (.worker it) = none)
    (hfull : (s.slot it).worker ≠ NULL) :
    ((system q).logged record).run (s, log) (List.replicate 3 (.caller env)) =
      some (s.call (.execNext task rest), log) := by
  let lock := Function.update s.lock (.worker it) (some .caller)
  have hscan : (system q).step s (.caller env) =
      some { s.call (.execTest task it rest) with lock := lock } := by
    simp [system, perform, callerNext, hcaller, Op.apply, hlock, lock]
  have htest : (system q).step { s.call (.execTest task it rest) with lock := lock }
      (.caller env) = some { s.call (.execSkip task it rest) with lock := lock } := by
    simp [system, perform, callerNext, Op.apply, hfull, call]
  have hskip : (system q).step { s.call (.execSkip task it rest) with lock := lock }
      (.caller env) = some (s.call (.execNext task rest)) := by
    simp [system, perform, callerNext, Op.apply, call, lock, update_free hlock]
  rw [List.replicate_succ, System.logged_run_cons hscan, List.replicate_succ,
    System.logged_run_cons htest, List.replicate_succ, System.logged_run_cons hskip]
  simp [record, callerRecord, hcaller]

/-- It passes all of them. -/
theorem run_scan {rest : List YoiPoolWorkerT} (hcaller : s.caller = .execNext task rest)
    (hlock : ∀ w ∈ rest, s.lock (.worker w) = none)
    (hfull : ∀ w ∈ rest, (s.slot w).worker ≠ NULL) :
    ((system q).logged record).run (s, log)
      (rest.flatMap fun _ => List.replicate 3 (.caller env)) =
        some (s.call (.execNext task []), log) := by
  induction rest generalizing s with
  | nil =>
    have hs : s.call (.execNext task []) = s := by
      rw [call, ← hcaller]
    rw [hs]
    rfl
  | cons it rest ih =>
    have hpass : ((system q).logged record).run (s, log) (List.replicate 3 (.caller env)) =
        some (s.call (.execNext task rest), log) :=
      run_pass hcaller (hlock it (List.mem_cons_self ..)) (hfull it (List.mem_cons_self ..))
    rw [List.flatMap_cons, System.run_append, hpass]
    exact ih rfl (fun w hw => hlock w (List.mem_cons_of_mem _ hw))
      fun w hw => hfull w (List.mem_cons_of_mem _ hw)

/-- Only a worker's place, the memory and the locks differ. -/
def moved (s : Pool) (w : YoiPoolWorkerT) (p : WorkerPc) (m : Heap)
    (lock : Lock → Option Thread) : Pool :=
  { s with pc := Function.update s.pc w p, mem := m, lock := lock }

theorem record_moved {p p' : WorkerPc} {m m' : Heap} {lock lock' : Lock → Option Thread} :
    (s.moved w p m lock).record (.worker w code) (s.moved w p' m' lock') =
      workerRecord w code m' p p' := by
  simp [record, moved]

/-- A worker that was just made runs its task until the task is completed. -/
theorem run_work (hpc : s.pc w = .entry) (hlock : s.lock (.worker w) = none)
    (hqueue : s.lock .queue = none) (hfull : (s.slot w).worker ≠ NULL)
    (hkys : (s.slot w).kys = false) :
    ((system q).logged record).run (s, log) (List.replicate 8 (.worker w code)) =
      some (s.moved w .ended (s.mem.yoiReqEnd (s.slot w).req code) s.lock,
        log ++ [.take w (s.slot w).task, .invoke w (s.slot w).worker (s.slot w).args,
          .ret w code, .complete w (s.slot w).req code]) := by
  obtain ⟨k, hk⟩ : ∃ k, s.slot w = k := ⟨_, rfl⟩
  rw [hk] at hfull hkys ⊢
  let mine := Function.update s.lock (.worker w) (some (.worker w))
  let queue := Function.update s.lock .queue (some (.worker w))
  let m := s.mem.endCode k.req code
  have hentry : s.moved w .entry s.mem s.lock = s := by
    rw [moved, ← hpc, Function.update_eq_self]
  have henter : (system q).step (s.moved w .entry s.mem s.lock) (.worker w code) =
      some (s.moved w .test s.mem mine) := by
    simp [system, perform, workerNext, moved, goto, Op.apply, hlock, mine]
  have hread : (system q).step (s.moved w .test s.mem mine) (.worker w code) =
      some (s.moved w (.taken k.task) s.mem mine) := by
    simp [system, perform, workerNext, moved, goto, Op.apply, hk, hfull, hkys]
  have hunlock : (system q).step (s.moved w (.taken k.task) s.mem mine) (.worker w code) =
      some (s.moved w (.run k.task) s.mem s.lock) := by
    simp [system, perform, workerNext, moved, goto, Op.apply, mine, update_free hlock]
  have hret : (system q).step (s.moved w (.run k.task) s.mem s.lock) (.worker w code) =
      some (s.moved w (.ending k.req .coded) m s.lock) := by
    simp [system, perform, workerNext, moved, goto, Op.apply, m]
  have htake : (system q).step (s.moved w (.ending k.req .coded) m s.lock) (.worker w code) =
      some (s.moved w (.ending k.req .locked) m queue) := by
    simp [system, perform, workerNext, moved, goto, Op.apply, hqueue, queue]
  have hlink : (system q).step (s.moved w (.ending k.req .locked) m queue) (.worker w code) =
      some (s.moved w (.ending k.req .linked) (m.endLink k.req) queue) := by
    simp [system, perform, workerNext, moved, goto, Op.apply]
  have hnotify : (system q).step (s.moved w (.ending k.req .linked) (m.endLink k.req) queue)
      (.worker w code) =
        some (s.moved w (.ending k.req .notified) (m.endLink k.req) queue) := by
    simp [system, perform, workerNext, moved, goto, Op.apply]
  have hgive : (system q).step (s.moved w (.ending k.req .notified) (m.endLink k.req) queue)
      (.worker w code) = some (s.moved w .ended (m.endLink k.req) s.lock) := by
    simp [system, perform, workerNext, moved, goto, Op.apply, queue, update_free hqueue]
  have hcode : ((m.endLink k.req).req k.req).code = code := by
    rw [Heap.code_endLink]
    simp [m, Heap.endCode]
  have hrun : ((system q).logged record).run (s.moved w .entry s.mem s.lock, log)
      (List.replicate 8 (.worker w code)) =
        some (s.moved w .ended (m.endLink k.req) s.lock,
          log ++ [.take w k.task, .invoke w k.worker k.args, .ret w code,
            .complete w k.req code]) := by
    show ((system q).logged record).run _ [_, _, _, _, _, _, _, _] = _
    rw [System.logged_run_cons henter, System.logged_run_cons hread,
      System.logged_run_cons hunlock, System.logged_run_cons hret,
      System.logged_run_cons htake, System.logged_run_cons hlink,
      System.logged_run_cons hnotify, System.logged_run_cons hgive]
    simp only [record_moved]
    show some (_, log ++ [] ++ [.take w k.task] ++ [.invoke w k.worker k.args] ++ [.ret w code] ++
      [] ++ [.complete w k.req ((m.endLink k.req).req k.req).code] ++ [] ++ []) = _
    rw [hcode]
    simp
  rwa [hentry] at hrun

/-- A call at the end of its loop makes a worker. -/
theorem step_hire (hcaller : s.caller = .execNext task []) (hnull : w ≠ NULL)
    (hpc : s.pc w = .absent) :
    (system q).step s (.caller ⟨w, .ok⟩) =
      some { ((s.setSlot w ⟨task.worker, task.req, task.args, false⟩).goto w .entry).call .idle with
        mem := s.mem.yoiReqBegin task.req s.mem.text.poolCancelcb
        workers := w :: s.workers } := by
  simp [system, perform, callerNext, hcaller, hnull, hpc, Op.apply, setSlot, goto, call]

end Steps

end Pool

namespace Process

variable {q : YoQueueT} {s t : Process} {task : Task} {ws : List YoiPoolWorkerT}
  {w : YoiPoolWorkerT}

/-- The steps of the threads alone. -/
theorem run_threads {p : Pool} {log log' : List TaskEvent} {as : List PoolAct}
    (hthread : ∀ a ∈ as, a.isThread = true)
    (hrun : ((Pool.system q).logged Pool.record).run (s.pool, log) as = some (p, log')) :
    ∃ new l, log' = log ++ new ∧
      (system q).run s (as.map .thread) =
        some ⟨p, new.foldl Ledger.note s.ledger, l, s.closing⟩ := by
  induction as generalizing s log with
  | nil =>
    obtain ⟨rfl, rfl⟩ := Prod.mk.inj (Option.some.inj hrun)
    exact ⟨[], s.log, (List.append_nil _).symm, rfl⟩
  | cons a as ih =>
    obtain ⟨⟨u, log₁⟩, hu, hrest⟩ := Option.bind_eq_some_iff.mp (System.run_cons ▸ hrun)
    obtain ⟨hst, hlog⟩ := System.logged_step.mp hu
    have hst : (Pool.system q).step s.pool a = some u := hst
    have hok : s.permits a = true := by
      have ha := hthread a (List.mem_cons_self ..)
      cases a <;> first | rfl | simp [PoolAct.isThread] at ha
    have hstep : (system q).step s (.thread a) = some (s.afterThread a u) := by
      simp [system, hok, hst]
    obtain ⟨new, l, hnew, hrun'⟩ :=
      ih (s := s.afterThread a u) (fun b hb => hthread b (List.mem_cons_of_mem _ hb)) hrest
    obtain rfl : log₁ = log ++ s.pool.record a u := hlog
    refine ⟨s.pool.record a u ++ new, l, by rw [hnew, List.append_assoc], ?_⟩
    rw [List.map_cons, System.run_cons, hstep, List.foldl_append]
    exact hrun'

/-- A step hands a task to the pool: only this task, and only while nothing is under way. -/
def OneAtATime (task : Task) (s : Process) (a : ProcessAct) : Prop :=
  ∀ t, a = .thread (.exec t) → t = task ∧ ∀ r, s.ledger.busy r = false

/-- The program handed a task to the pool several times and got its request back each time, and
the workers that did it, one for each time, have not come to empty their slots. -/
structure Stalled (q : YoQueueT) (task : Task) (ws : List YoiPoolWorkerT) (s : Process) : Prop where
  caller : s.pool.caller = .idle
  closing : s.closing = none
  lock : ∀ l, s.pool.lock l = none
  workers : s.pool.workers = ws
  ended : ∀ w ∈ ws, s.pool.pc w = .ended ∧ (s.pool.slot w).worker ≠ NULL
  absent : ∀ w ∉ ws, s.pool.pc w = .absent
  live : s.ledger.live task.req = true
  busy : ∀ r, s.ledger.busy r = false
  queue : (s.pool.mem.req task.req).queue = q
  ready : s.pool.mem.Ready q []

/-- What the threads do then: the rest of the call, and the new worker up to the completion. -/
def threadSteps (ws : List YoiPoolWorkerT) (w : YoiPoolWorkerT) : List PoolAct :=
  (ws.flatMap fun _ => List.replicate 3 (.caller ⟨w, .ok⟩)) ++
    .caller ⟨w, .ok⟩ :: List.replicate 8 (.worker w .ok)

/-- Once more: the call, these steps, and the poll. -/
def onceMore (q : YoQueueT) (task : Task) (ws : List YoiPoolWorkerT) (w : YoiPoolWorkerT) :
    List ProcessAct :=
  .thread (.exec task) :: ((threadSteps ws w).map .thread ++
    [.call (.poll q ⟨.error .etimeout, .ok, .ok⟩)])

theorem isThread_threadSteps {a : PoolAct} (ha : a ∈ threadSteps ws w) : a.isThread = true := by
  simp only [threadSteps, List.mem_append, List.mem_flatMap, List.mem_cons] at ha
  rcases ha with ⟨u, -, hu⟩ | rfl | hw
  · rw [List.eq_of_mem_replicate hu]
    rfl
  · rfl
  · rw [List.eq_of_mem_replicate hw]
    rfl

/-- The pool after these steps, in the memory `m`. -/
theorem Stalled.run_threadSteps (h : Stalled q task ws s) (hnull : w ≠ NULL) (hw : w ∉ ws)
    (hworker : task.worker ≠ NULL) :
    ∃ p, ((Pool.system q).logged Pool.record).run (s.pool.call (.execNext task ws), [])
        (threadSteps ws w) =
          some (p, [.accept w task, .take w task, .invoke w task.worker task.args, .ret w .ok,
            .complete w task.req .ok]) ∧
      p.caller = .idle ∧ p.lock = s.pool.lock ∧ p.workers = w :: ws ∧
      p.slot = Function.update s.pool.slot w ⟨task.worker, task.req, task.args, false⟩ ∧
      p.pc = Function.update s.pool.pc w .ended ∧
      p.mem = (s.pool.mem.yoiReqBegin task.req s.pool.mem.text.poolCancelcb).yoiReqEnd task.req
        .ok := by
  let s₁ := s.pool.call (.execNext task [])
  have hscan : ((Pool.system q).logged Pool.record).run (s.pool.call (.execNext task ws), [])
      (ws.flatMap fun _ => List.replicate 3 (.caller ⟨w, .ok⟩)) = some (s₁, []) :=
    Pool.run_scan rfl (fun _ _ => h.lock _) fun u hu => (h.ended u hu).2
  let s₂ : Pool := { ((s₁.setSlot w ⟨task.worker, task.req, task.args, false⟩).goto w .entry).call
      .idle with
    mem := s₁.mem.yoiReqBegin task.req s₁.mem.text.poolCancelcb
    workers := w :: s₁.workers }
  have hhire : (Pool.system q).step s₁ (.caller ⟨w, .ok⟩) = some s₂ :=
    Pool.step_hire rfl hnull (h.absent w hw)
  have hslot : s₂.slot w = ⟨task.worker, task.req, task.args, false⟩ := by
    show Function.update _ w _ w = _
    rw [Function.update_self]
  have hrecord : s₁.record (.caller ⟨w, .ok⟩) s₂ = [.accept w task] := by
    simp [Pool.record, Pool.callerRecord, s₁, hslot, hnull, YoiPoolWorker.task]
  have hpc : s₂.pc w = .entry := by
    show Function.update _ w _ w = _
    rw [Function.update_self]
  have hwork : ((Pool.system q).logged Pool.record).run (s₂, [.accept w task])
      (List.replicate 8 (.worker w .ok)) = _ :=
    Pool.run_work hpc (h.lock (.worker w)) (h.lock .queue) (by rw [hslot]; exact hworker)
      (by rw [hslot])
  rw [hslot] at hwork
  refine ⟨s₂.moved w .ended (s₂.mem.yoiReqEnd task.req .ok) s₂.lock, ?_, rfl, rfl, ?_, rfl, ?_,
    rfl⟩
  · rw [threadSteps, System.run_append, hscan]
    show ((Pool.system q).logged Pool.record).run (s₁, []) (_ :: _) = _
    rw [System.logged_run_cons hhire, hrecord]
    exact hwork
  · show w :: s.pool.workers = w :: ws
    rw [h.workers]
  · show Function.update (Function.update s.pool.pc w .entry) w .ended = _
    rw [Function.update_idem]

/-- The call begins. -/
theorem Stalled.step_exec (h : Stalled q task ws s) (hworker : task.worker ≠ NULL) :
    ∃ l, (system q).step s (.thread (.exec task)) =
      some ⟨s.pool.call (.execNext task ws), s.ledger, l, s.closing⟩ := by
  have hok : s.permits (.exec task) = true := by
    simp [permits, Call.allowed, h.closing, h.live, h.busy]
  have hst : (Pool.system q).step s.pool (.exec task) = some (s.pool.call (.execNext task ws)) := by
    simp [Pool.system, h.caller, h.queue, hworker, h.workers]
  refine ⟨(s.afterThread (.exec task) (s.pool.call (.execNext task ws))).log, ?_⟩
  simp only [system, hok, hst, if_true, Option.map_some]
  rfl

/-- A poll returns the request in front of the ready list. -/
theorem step_poll {r : YoReqT} {code : YoCode} {m : Heap} {env : PollEnv}
    (hfree : s.free) (hlock : s.pool.lock .queue = none)
    (henv : (Call.poll q env).allowed s.ledger = true)
    (hpop : s.pool.mem.yoiQueuePop q = (m, some (r, code))) :
    (system q).step s (.call (.poll q env)) =
      some (s.afterCall m (s.ledger.after (.poll q env) (.polled (.returned r code none)))) := by
  have hexec : s.pool.mem.exec (.poll q env) = some (m, .polled (.returned r code none)) := by
    simp only [Heap.exec, Heap.yoQueuePollRound]
    rw [hpop]
    rfl
  show (if _ then (s.pool.mem.exec (.poll q env)).map _ else none) = _
  rw [if_pos ⟨hfree, rfl, henv, fun _ => hlock⟩, hexec]
  rfl

/-- **Once more.** -/
theorem Stalled.run_onceMore (h : Stalled q task ws s) (hnull : w ≠ NULL) (hw : w ∉ ws)
    (hworker : task.worker ≠ NULL) (hreq : task.req ≠ NULL) :
    ∃ t, (system q).run s (onceMore q task ws w) = some t ∧ Stalled q task (w :: ws) t := by
  obtain ⟨p, hrun, hcaller, hlock, hworkers, hslot, hpc, hmem⟩ :=
    h.run_threadSteps hnull hw hworker
  obtain ⟨l, hexec⟩ := h.step_exec hworker
  let s₁ : Process := ⟨s.pool.call (.execNext task ws), s.ledger, l, s.closing⟩
  have hthreads : ∃ new l', _ ∧ (system q).run s₁ ((threadSteps ws w).map .thread) = _ :=
    run_threads (fun a ha => isThread_threadSteps ha) hrun
  obtain ⟨new, l', hnew, hthreads⟩ := hthreads
  obtain rfl := (List.nil_append new).symm.trans hnew.symm
  let ledger := (s.ledger.after (.exec task.req) .done).after (.finish task.req .ok) .done
  let s₂ : Process := ⟨p, ledger, l', s.closing⟩
  have hthreads : (system q).run s₁ ((threadSteps ws w).map .thread) = some s₂ := hthreads
  have hqueue : ((s.pool.mem.yoiReqBegin task.req s.pool.mem.text.poolCancelcb).req
      task.req).queue = q := by
    rw [Heap.reqQueue_yoiReqBegin, h.queue]
  have hready : p.mem.Ready q [(task.req, .ok)] := by
    have hbegun : (s.pool.mem.yoiReqBegin task.req s.pool.mem.text.poolCancelcb).Ready q [] :=
      h.ready.congr (by simp) (by simp) (by simp)
    have hend := Heap.ready_yoiReqEnd (c := .ok) (hqueue.symm ▸ hbegun) (by simp) hreq
    rw [hqueue] at hend
    rwa [hmem]
  obtain ⟨hpop, hempty⟩ := Heap.yoiQueuePop_cons hready
  let env : PollEnv := ⟨.error .etimeout, .ok, .ok⟩
  let s₃ := s₂.afterCall (p.mem.yoiQueuePop q).1
    (ledger.after (.poll q env) (.polled (.returned task.req .ok none)))
  have hpoll : (system q).step s₂ (.call (.poll q env)) = some s₃ :=
    step_poll ⟨hcaller, by simp [s₂, h.closing]⟩ ((congrFun hlock _).trans (h.lock .queue)) rfl
      (Prod.ext rfl hpop)
  refine ⟨s₃, ?_, hcaller, rfl, fun k => (congrFun hlock k).trans (h.lock k), hworkers,
    fun u hu => ?_, fun u hu => ?_, h.live, fun r => ?_, ?_, hempty⟩
  · rw [onceMore, System.run_cons, hexec, Option.bind_some, System.run_append, hthreads,
      Option.bind_some, System.run_cons, hpoll]
    rfl
  · show p.pc u = .ended ∧ (p.slot u).worker ≠ NULL
    rw [hpc, hslot]
    rcases List.mem_cons.mp hu with rfl | hu
    · simpa using hworker
    · have hne : u ≠ w := fun he => hw (he ▸ hu)
      rw [Function.update_of_ne hne, Function.update_of_ne hne]
      exact h.ended u hu
  · show p.pc u = .absent
    obtain ⟨hne, hnot⟩ := not_or.mp (List.mem_cons.not.mp hu)
    rw [hpc, Function.update_of_ne hne]
    exact h.absent u hnot
  · show Function.update (Function.update s.ledger.busy task.req true) task.req false r = false
    rw [Function.update_idem, Function.update_apply]
    split
    · rfl
    · exact h.busy r
  · show ((p.mem.yoiQueuePop q).1.req task.req).queue = q
    rw [Heap.req_yoiQueuePop, hmem, Heap.yoiReqEnd_eq, Heap.reqQueue_endLink,
      Heap.reqQueue_endCode, hqueue]

/-- In these steps the task is handed over once, while nothing is under way. -/
theorem Stalled.along_onceMore (h : Stalled q task ws s) :
    (system q).Along (OneAtATime task) s (onceMore q task ws w) := by
  refine ⟨fun t ht => ?_, fun u _ => System.along_of_mem (fun a ha v t ht => ?_) u⟩
  · cases ht
    exact ⟨rfl, h.busy⟩
  · subst ht
    rcases List.mem_append.mp ha with ha | ha
    · obtain ⟨b, hb, he⟩ := List.mem_map.mp ha
      cases he
      exact absurd (isThread_threadSteps hb) (by simp [PoolAct.isThread])
    · cases List.mem_singleton.mp ha

/-- A request is made. -/
theorem stalled_reqNew (hinit : (system q).init s) (hreq : task.req ≠ NULL)
    (halign : task.req.setWidth 4 = 0#4) :
    ∃ t, (system q).run s [.call (.reqNew task.req q)] = some t ∧ Stalled q task [] t := by
  obtain ⟨⟨hlock, hpc, hworkers, hcaller⟩, hfresh, hledger, hlog, hclosing⟩ := hinit
  have hok : (Call.reqNew task.req q).allowed s.ledger = true := by
    simp [hledger, Ledger.empty, Call.allowed, hreq, halign]
  let t := s.afterCall (s.pool.mem.yoReqNew task.req q) (s.ledger.after (.reqNew task.req q) .done)
  have hstep : (system q).step s (.call (.reqNew task.req q)) = some t := by
    show (if _ then (s.pool.mem.exec _).map _ else none) = _
    rw [if_pos ⟨⟨hcaller, by rw [hclosing]; rfl⟩, rfl, hok, fun hl => (by cases hl)⟩]
    rfl
  refine ⟨t, by rw [System.run_cons, hstep]; rfl, hcaller, rfl, hlock, hworkers, by simp,
    fun w _ => hpc w, ?_, fun r => ?_, ?_, ⟨(hfresh q).1, by simp⟩⟩
  · exact Function.update_self ..
  · show s.ledger.busy r = false
    rw [hledger]
    rfl
  · simp [t, afterCall, Heap.yoReqNew]

/-- **Any number of threads for one request.**  From the start of a program, with any task and any
addresses that `malloc` may give: there is a run that only ever hands this task to the pool, each
time with no request of any queue under way, and in which the pool gets a thread at each of the
addresses. -/
theorem threads_any (hinit : (system q).init s) (hreq : task.req ≠ NULL)
    (halign : task.req.setWidth 4 = 0#4) (hworker : task.worker ≠ NULL) (hnodup : ws.Nodup)
    (hnull : NULL ∉ ws) :
    ∃ as t, (system q).run s as = some t ∧ (system q).Along (OneAtATime task) s as ∧
      t.pool.workers = ws ∧ ∀ r, t.ledger.busy r = false := by
  have hmain : ∃ as t, (system q).run s as = some t ∧
      (system q).Along (OneAtATime task) s as ∧ Stalled q task ws t := by
    induction ws with
    | nil =>
      obtain ⟨t, ht, hstalled⟩ := stalled_reqNew hinit hreq halign
      exact ⟨_, t, ht, ⟨fun _ he => (by cases he), fun _ _ => trivial⟩, hstalled⟩
    | cons w ws ih =>
      obtain ⟨hw, hnodup⟩ := List.nodup_cons.mp hnodup
      obtain ⟨hne, hnull⟩ := not_or.mp (List.mem_cons.not.mp hnull)
      obtain ⟨as, t, ht, hall, hstalled⟩ := ih hnodup hnull
      obtain ⟨u, hu, hstalled'⟩ := hstalled.run_onceMore (Ne.symm hne) hw hworker hreq
      refine ⟨as ++ onceMore q task ws w, u, ?_, System.along_append hall fun v hv => ?_, hstalled'⟩
      · rw [System.run_append, ht]
        exact hu
      · obtain rfl := Option.some.inj (ht.symm.trans hv)
        exact hstalled.along_onceMore
  obtain ⟨as, t, ht, hall, hstalled⟩ := hmain
  exact ⟨as, t, ht, hall, hstalled.workers, hstalled.busy⟩

/-- Three threads for one request. -/
theorem threads_any_three : ∃ as t, (system 0x10).run start as = some t ∧
    (system 0x10).Along (OneAtATime ⟨0x30, 0x401400, NULL⟩) start as ∧
      t.pool.workers = [0x80, 0x60, 0x40] ∧ ∀ r, t.ledger.busy r = false :=
  threads_any (init_start 0x10) (by decide) (by decide) (by decide) (by decide) (by decide)

end Process

end Yaooi
