import Yaooi.Pool.Free

/-!
# Submitting tasks

Runs of the pool without `yo_queue_free`: one thread calls `yo_req_exec` any number of times beside
the workers.

* `CallerMove` says once what a step of the caller does then; it goes through the list of workers,
  fills a slot or makes a worker, and signals.
* `AtWork` says where the threads are in every state of such a run: above all, the slot of a worker
  holds the task that the worker has in hand until the worker empties it (`WorkerPc.fits`).
  `Working` adds what the memory says of these tasks.
-/

namespace Yaooi

open Transition Mutex

/-! ## The caller in `yo_req_exec` -/

namespace CallerPc

/-- The task that is still to be put in a slot. -/
def task : CallerPc → Option Task
  | .execNext t _ | .execTest t _ _ | .execSkip t _ _ => some t
  | .idle | .execSignal _ | .execUnlock _ | .free | .freeNext | .freeLock _ | .freeKys _
  | .freeSignal _ | .freeUnlock _ | .freeJoin _ | .freeDel _ | .freeImpl | .freeFail | .freeLast
  | .returned => none

/-- The workers that the loop of `yo_req_exec` may still fill. -/
def ahead : CallerPc → List YoiPoolWorkerT
  | .execNext _ rest | .execSkip _ _ rest => rest
  | .execTest _ it rest => it :: rest
  | .idle | .execSignal _ | .execUnlock _ | .free | .freeNext | .freeLock _ | .freeKys _
  | .freeSignal _ | .freeUnlock _ | .freeJoin _ | .freeDel _ | .freeImpl | .freeFail | .freeLast
  | .returned => []

/-- The steps a call of `yo_req_exec` has left. -/
def execLeft : CallerPc → ℕ
  | .execNext _ rest => 3 * rest.length + 2
  | .execTest _ _ rest => 3 * rest.length + 4
  | .execSkip _ _ rest => 3 * rest.length + 3
  | .execSignal _ => 2
  | .execUnlock _ => 1
  | .idle | .free | .freeNext | .freeLock _ | .freeKys _ | .freeSignal _ | .freeUnlock _
  | .freeJoin _ | .freeDel _ | .freeImpl | .freeFail | .freeLast | .returned => 0

end CallerPc

namespace Pool

variable {q : YoQueueT} {s t : Pool} {a : PoolAct} {w v : YoiPoolWorkerT} {op : Op Lock}
  {code : YoCode} {env : CallerEnv} {task : Task}

/-- What a step of the caller does outside of `yo_queue_free`. -/
inductive CallerMove (s : Pool) (env : CallerEnv) : Pool → Prop
  /-- It only goes on. -/
  | go (pc : CallerPc) (hpc : pc.freeing = false) (htask : pc.task = s.caller.task)
      (hahead : pc.ahead ⊆ s.caller.ahead) (hleft : pc.execLeft < s.caller.execLeft) :
      CallerMove s env (s.call pc)
  /-- The task is put in the slot of an idle worker. -/
  | fill (task : Task) (it : YoiPoolWorkerT) (rest : List YoiPoolWorkerT)
      (hpc : s.caller = .execTest task it rest) (hroom : (s.slot it).worker = NULL) :
      CallerMove s env { (s.setSlot it ((s.slot it).fill task)).call (.execSignal it) with
        mem := s.mem.yoiReqBegin task.req s.mem.text.poolCancelcb }
  /-- The worker is signalled. -/
  | signal (it : YoiPoolWorkerT) (hpc : s.caller = .execSignal it) :
      CallerMove s env ((s.signal it).call (.execUnlock it))
  /-- There is no memory for a new worker. -/
  | refuse (task : Task) (hpc : s.caller = .execNext task []) (hmalloc : env.malloc = NULL) :
      CallerMove s env (s.call .idle)
  /-- A new worker gets the task. -/
  | spawn (task : Task) (hpc : s.caller = .execNext task []) (hmalloc : env.malloc ≠ NULL)
      (hnew : s.pc env.malloc = .absent) :
      CallerMove s env
        { ((s.setSlot env.malloc ⟨task.worker, task.req, task.args, false⟩).goto env.malloc
            .entry).call .idle with
          mem := s.mem.yoiReqBegin task.req s.mem.text.poolCancelcb
          workers := env.malloc :: s.workers }

/-- **Every step of the caller is such a move**, outside of `yo_queue_free`. -/
theorem callerMove (h : s.callerNext env = some (op, t)) (hf : s.caller.freeing = false) :
    CallerMove s env t := by
  cases callerStep h with
  | scan hpc =>
    exact .go _ rfl (by rw [hpc]; rfl) (by rw [hpc]; exact List.Subset.refl _)
      (by rw [hpc]; simp only [CallerPc.execLeft, List.length_cons]; omega)
  | fill hpc hroom => exact .fill _ _ _ hpc hroom
  | full hpc =>
    exact .go _ rfl (by rw [hpc]; rfl) (by rw [hpc]; exact List.subset_cons_self _ _)
      (by rw [hpc]; simp [CallerPc.execLeft])
  | skip hpc =>
    exact .go _ rfl (by rw [hpc]; rfl) (by rw [hpc]; exact List.Subset.refl _)
      (by rw [hpc]; simp [CallerPc.execLeft])
  | signal hpc => exact .signal _ hpc
  | unlock hpc =>
    exact .go _ rfl (by rw [hpc]; rfl) (List.nil_subset _) (by rw [hpc]; simp [CallerPc.execLeft])
  | refuse hpc hmalloc => exact .refuse _ hpc hmalloc
  | hire hpc hmalloc hnew => exact .spawn _ hpc hmalloc hnew
  | _ hpc =>
    rw [hpc] at hf
    simp [CallerPc.freeing, CallerPc.inPool] at hf

/-! ## What holds while tasks are submitted -/

end Pool

/-- The slot of a worker at this place holds what the worker has in hand. -/
def WorkerPc.fits (k : YoiPoolWorker) : WorkerPc → Prop
  | .taken t | .run t => k.task = t ∧ k.worker ≠ NULL
  | .ending r _ => k.req = r ∧ k.worker ≠ NULL
  | .ended | .clear => k.worker ≠ NULL
  | .leaving | .exited => False
  | .absent | .entry | .test | .waiting | .woken => True

namespace Pool

variable {q : YoQueueT} {s t : Pool} {a : PoolAct} {w v : YoiPoolWorkerT} {op : Op Lock}
  {code : YoCode} {env : CallerEnv} {task : Task}

/-- The threads are where a run without `yo_queue_free` brings them, whatever the memory says. -/
structure AtWork (s : Pool) : Prop where
  calling : s.caller.freeing = false
  ahead : s.caller.ahead ⊆ s.workers
  task : ∀ t, s.caller.task = some t → t.worker ≠ NULL
  fits : ∀ w, (s.pc w).fits (s.slot w)

/-- What holds in every state of a run without `yo_queue_free`. -/
structure Working (q : YoQueueT) (s : Pool) : Prop where
  calling : s.caller.freeing = false
  ahead : s.caller.ahead ⊆ s.workers
  task : ∀ t, s.caller.task = some t → t.worker ≠ NULL ∧ (s.mem.req t.req).queue = q
  fits : ∀ w, (s.pc w).fits (s.slot w)
  queue : ∀ w, s.pc w ≠ .absent → (s.slot w).worker ≠ NULL →
    (s.mem.req (s.slot w).req).queue = q

theorem Working.atWork (h : Working q s) : AtWork s :=
  ⟨h.calling, h.ahead, fun t ht => (h.task t ht).1, h.fits⟩

/-- Outside of `yo_queue_free` the workers are those of the list. -/
theorem AtWork.mem_workers (h : AtWork s) (hs : Sound s) : s.pc w ≠ .absent ↔ w ∈ s.workers := by
  have hcurr : s.caller.curr = [] := by
    have := h.calling
    cases hc : s.caller <;> simp_all [CallerPc.freeing, CallerPc.inPool, CallerPc.curr]
  simpa [hcurr] using hs.present w

/-- No worker is asked to leave. -/
theorem AtWork.kys (h : AtWork s) (hs : Sound s) (hw : s.pc w ≠ .absent) :
    (s.slot w).kys = false :=
  hs.kys_workers w ((h.mem_workers hs).mp hw)

/-- What a step of a worker does to its own slot, its place and the memory. -/
theorem AtWork.worker_self (h : AtWork s) (hs : Sound s)
    (hnext : s.workerNext w code = some (op, t)) :
    (t.pc w).fits (t.slot w) ∧ ((t.slot w).worker ≠ NULL → t.slot w = s.slot w) ∧
      ∀ r, (t.mem.req r).queue = (s.mem.req r).queue := by
  have hkys := h.kys hs (workerMove hnext).before.1
  have hfit := h.fits w
  cases workerStep hnext with
  | read hpc hwork => simp [WorkerPc.fits, hwork]
  | leave hpc hasked => cases hasked.symm.trans hkys
  | ret hpc =>
    rw [hpc] at hfit
    simp [WorkerPc.fits, ← hfit.1, hfit.2, YoiPoolWorker.task, goto]
  | clear hpc => simp [WorkerPc.fits]
  | _ hpc =>
    rw [hpc] at hfit
    simp_all [WorkerPc.fits, goto]

/-- A step that changes the place and the slot of at most one worker. -/
theorem AtWork.update (h : AtWork s) (w : YoiPoolWorkerT) (hpc : ∀ v, v ≠ w → t.pc v = s.pc v)
    (hslot : ∀ v, v ≠ w → t.slot v = s.slot v) (hcalling : t.caller.freeing = false)
    (hahead : t.caller.ahead ⊆ t.workers)
    (htask : t.caller.task = s.caller.task ∨ t.caller.task = none)
    (hfit : (t.pc w).fits (t.slot w)) : AtWork t where
  calling := hcalling
  ahead := hahead
  task u hu := by
    rcases htask with htask | htask
    · exact h.task u (htask ▸ hu)
    · rw [htask] at hu
      cases hu
  fits v := by
    by_cases hv : v = w
    · rw [hv]
      exact hfit
    · rw [hpc v hv, hslot v hv]
      exact h.fits v

/-- So are they for the memory, if it knows the queue of what the worker's slot holds. -/
theorem Working.update (h : Working q s) (ht : AtWork t) (w : YoiPoolWorkerT)
    (hpc : ∀ v, v ≠ w → t.pc v = s.pc v) (hslot : ∀ v, v ≠ w → t.slot v = s.slot v)
    (hmem : ∀ r, (t.mem.req r).queue = (s.mem.req r).queue)
    (htask : t.caller.task = s.caller.task ∨ t.caller.task = none)
    (hqueue : t.pc w ≠ .absent → (t.slot w).worker ≠ NULL → (s.mem.req (t.slot w).req).queue = q) :
    Working q t where
  calling := ht.calling
  ahead := ht.ahead
  task u hu := by
    refine ⟨ht.task u hu, ?_⟩
    rw [hmem]
    rcases htask with htask | htask
    · exact (h.task u (htask ▸ hu)).2
    · rw [htask] at hu
      cases hu
  fits := ht.fits
  queue v hvpc hvwork := by
    rw [hmem]
    by_cases hv : v = w
    · subst hv
      exact hqueue hvpc hvwork
    · rw [hslot v hv] at hvwork ⊢
      exact h.queue v (hpc v hv ▸ hvpc) hvwork

/-- A step of a worker keeps the threads at work. -/
theorem AtWork.worker (h : AtWork s) (hs : Sound s)
    (hnext : s.workerNext w code = some (op, t)) : AtWork t := by
  have hm := workerMove hnext
  refine h.update w hm.pc_of_ne hm.slot_of_ne ?_ ?_ (.inl (by rw [hm.caller]))
    (h.worker_self hs hnext).1
  · rw [hm.caller]
    exact h.calling
  · rw [hm.caller, hm.workers]
    exact h.ahead

theorem Working.worker (h : Working q s) (hs : Sound s)
    (hnext : s.workerNext w code = some (op, t)) : Working q t := by
  have hm := workerMove hnext
  obtain ⟨-, hslot, hqueue⟩ := h.atWork.worker_self hs hnext
  refine h.update (h.atWork.worker hs hnext) w hm.pc_of_ne hm.slot_of_ne hqueue
    (.inl (by rw [hm.caller])) fun _ hwork => ?_
  have hsame := hslot hwork
  rw [hsame] at hwork ⊢
  exact h.queue w hm.before.1 hwork

/-- A worker whose slot is empty has nothing in hand. -/
theorem AtWork.idle (h : AtWork s) (hw : s.pc w ≠ .absent) (hnull : (s.slot w).worker = NULL) :
    s.pc w = .entry ∨ s.pc w = .test ∨ s.pc w = .waiting ∨ s.pc w = .woken := by
  have hfit := h.fits w
  cases hpc : s.pc w <;> simp_all [WorkerPc.fits]

/-- A signal wakes nobody who has something in hand. -/
theorem fits_signal (hfit : (s.pc v).fits (s.slot v)) :
    ((s.signal w).pc v).fits ((s.signal w).slot v) := by
  rw [pc_signal, slot_signal]
  split
  · trivial
  · exact hfit

/-- A step of the caller keeps the threads at work. -/
theorem AtWork.caller (h : AtWork s) (hs : Sound s) (hmove : CallerMove s env t) : AtWork t := by
  cases hmove with
  | go pc hpc htask hahead hleft =>
    exact ⟨hpc, List.Subset.trans hahead h.ahead, fun t ht => h.task t (htask ▸ ht), h.fits⟩
  | fill task it rest hpc hroom =>
    have hit : it ∈ s.workers := h.ahead (by simp [hpc, CallerPc.ahead])
    refine h.update it (fun _ _ => rfl) (fun v hv => ?_) rfl (List.nil_subset _) (.inr rfl) ?_
    · simp [slot_setSlot, hv]
    · simp only [pc_call, pc_setSlot]
      rcases h.idle ((h.mem_workers hs).mpr hit) hroom with hpc | hpc | hpc | hpc <;>
        simp [hpc, WorkerPc.fits]
  | signal it hpc =>
    exact h.update it (fun v hv => by simp [pc_signal, hv]) (fun _ _ => by simp) rfl
      (List.nil_subset _) (.inr rfl) (fits_signal (h.fits it))
  | refuse task hpc hmalloc =>
    exact h.update NULL (fun _ _ => rfl) (fun _ _ => rfl) rfl (List.nil_subset _) (.inr rfl)
      (h.fits NULL)
  | spawn task hpc hmalloc hnew =>
    refine h.update env.malloc (fun v hv => ?_) (fun v hv => ?_) rfl (List.nil_subset _)
      (.inr rfl) ?_
    · simp [pc_goto, hv]
    · simp [slot_setSlot, hv]
    · simp [WorkerPc.fits]

theorem Working.caller (h : Working q s) (hs : Sound s) (hmove : CallerMove s env t) :
    Working q t := by
  have ht := h.atWork.caller hs hmove
  cases hmove with
  | go pc hpc htask hahead hleft =>
    exact ⟨ht.calling, ht.ahead, fun t ht => h.task t (htask ▸ ht), h.fits, h.queue⟩
  | fill task it rest hpc hroom =>
    have htask := h.task task (by simp [hpc, CallerPc.task])
    refine h.update ht it (fun _ _ => rfl) (fun v hv => ?_)
      (fun r => Heap.reqQueue_yoiReqBegin ..) (.inr rfl) fun _ _ => ?_
    · simp [slot_setSlot, hv]
    · simpa [YoiPoolWorker.fill] using htask.2
  | signal it hpc =>
    refine h.update ht it (fun v hv => by simp [pc_signal, hv]) (fun _ _ => by simp)
      (fun r => by simp) (.inr rfl) fun hne hwork => ?_
    simp only [pc_call, pc_signal, slot_call, slot_signal] at hne hwork ⊢
    refine h.queue it (fun e => hne ?_) hwork
    simp [e]
  | refuse task hpc hmalloc =>
    exact h.update ht NULL (fun _ _ => rfl) (fun _ _ => rfl) (fun _ => rfl) (.inr rfl)
      (h.queue NULL)
  | spawn task hpc hmalloc hnew =>
    have htask := h.task task (by simp [hpc, CallerPc.task])
    refine h.update ht env.malloc (fun v hv => ?_) (fun v hv => ?_)
      (fun r => Heap.reqQueue_yoiReqBegin ..) (.inr rfl) fun _ _ => ?_
    · simp [pc_goto, hv]
    · simp [slot_setSlot, hv]
    · simpa using htask.2

/-- A run in which `yo_queue_free` is not called. -/
def NoFree (_ : Pool) (a : PoolAct) : Prop := a ≠ .free

/-- A step of a run without `yo_queue_free` keeps the threads at work. -/
theorem AtWork.step (h : AtWork s) (hs : Sound s) (hfree : NoFree s a)
    (hst : (system q).step s a = some t) : AtWork t := by
  cases step_cases hst with
  | @exec task hidle hq hw =>
    refine ⟨rfl, List.Subset.refl _, fun u hu => ?_, h.fits⟩
    cases hu
    exact hw
  | free => exact absurd rfl hfree
  | caller hnext hop =>
    have := h.caller hs (callerMove hnext h.calling)
    exact ⟨this.calling, this.ahead, this.task, this.fits⟩
  | worker hnext hop =>
    have := h.worker hs hnext
    exact ⟨this.calling, this.ahead, this.task, this.fits⟩
  | @spurious w hw =>
    exact h.update w (fun v hv => by simp [pc_goto, hv]) (fun _ _ => rfl) h.calling h.ahead
      (.inl rfl) (by simp [WorkerPc.fits])

/-- **It holds in every state of a run without `yo_queue_free`.** -/
theorem working_of_reach (hs : (system q).Reach NoFree s) : Working q s := by
  apply hs.invariant (P := Working q)
  · rintro s ⟨-, hpc, hworkers, hidle⟩
    constructor <;> simp [hidle, hpc, CallerPc.freeing, CallerPc.inPool, CallerPc.ahead,
      CallerPc.task, WorkerPc.fits]
  · intro s a t hr h hfree hst
    have hsound := sound_of_reachable hr.reachable
    have ht := h.atWork.step hsound hfree hst
    cases step_cases hst with
    | @exec task hidle hq hw =>
      refine ⟨ht.calling, ht.ahead, fun u hu => ?_, ht.fits, h.queue⟩
      cases hu
      exact ⟨hw, hq⟩
    | free => exact absurd rfl hfree
    | caller hnext hop =>
      have := h.caller hsound (callerMove hnext h.calling)
      exact ⟨this.calling, this.ahead, this.task, this.fits, this.queue⟩
    | worker hnext hop =>
      have := h.worker hsound hnext
      exact ⟨this.calling, this.ahead, this.task, this.fits, this.queue⟩
    | @spurious w hw =>
      exact h.update ht w (fun v hv => by simp [pc_goto, hv]) (fun _ _ => rfl) (fun _ => rfl)
        (.inl rfl) fun _ => h.queue w (by simp [hw])

end Pool

end Yaooi
