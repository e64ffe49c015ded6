import Mathlib.Algebra.BigOperators.Group.Finset.Piecewise
import Mathlib.Algebra.Order.BigOperators.Group.Finset
import Yaooi.Pool.Invariant
import Yaooi.Queue.Calls

/-!
# Freeing a queue

`yo_queue_free` takes the lock of the queue and keeps it while `yoi_pool_free` asks every worker to
leave and joins it.  A worker that has a task to complete needs the same lock in `yoi_req_end`, so
the two wait for each other.

`freeSafe_iff` says that this is the only obstacle: `yo_queue_free` is safe, in every
interleaving, exactly when it is called at a moment at which no worker has an uncompleted task.
-/

namespace Yaooi

open Transition Mutex

/-! ## Safety of a call -/

/-- A step of a thread, as opposed to a new call and to a wake-up that may never come. -/
def PoolAct.isThread : PoolAct → Bool
  | .caller _ | .worker .. => true
  | .exec _ | .free | .spurious _ => false

/-- `yo_queue_free` was called, and the pool is not gone yet. -/
def CallerPc.inPool : CallerPc → Bool
  | .free | .freeNext | .freeLock _ | .freeKys _ | .freeSignal _ | .freeUnlock _ | .freeJoin _
  | .freeDel _ => true
  | .idle | .execNext .. | .execTest .. | .execSkip .. | .execSignal _ | .execUnlock _ | .freeImpl
  | .freeFail | .freeLast | .returned => false

/-- `yo_queue_free` was called. -/
def CallerPc.freeing : CallerPc → Bool
  | .freeImpl | .freeFail | .freeLast | .returned => true
  | pc => pc.inPool

/-- A worker with this record has a task that it has not completed: in its slot, or running, or
finished with the queue's lock still to be taken for its completion. -/
def WorkerPc.uncompleted (k : YoiPoolWorker) : WorkerPc → Prop
  | .entry | .test | .waiting | .woken => k.worker ≠ NULL
  | .taken _ | .run _ => True
  | .ending _ e => e = .coded
  | .absent | .ended | .clear | .leaving | .exited => False

/-- The steps a worker with this record has left before it waits or exits, unless it is
signalled. -/
def WorkerPc.left (k : YoiPoolWorker) : WorkerPc → ℕ
  | .absent | .waiting | .exited => 0
  | .leaving => 1
  | .test => if k.worker = NULL then 2 else 11
  | .entry | .woken => if k.worker = NULL then 3 else 12
  | .clear => 3
  | .ended => 4
  | .ending _ .notified => 5
  | .ending _ .linked => 6
  | .ending _ .locked => 7
  | .ending _ .coded => 8
  | .run _ => 9
  | .taken _ => 10

namespace Pool

/-- The worker has a task that it has not completed. -/
def Uncompleted (s : Pool) (w : YoiPoolWorkerT) : Prop := (s.pc w).uncompleted (s.slot w)

/-- The caller waits to join a worker, and the worker waits for the lock that the caller holds. -/
def JoinDeadlock (s : Pool) : Prop :=
  ∃ w r, s.caller = .freeJoin w ∧ s.pc w = .ending r .coded ∧ s.lock .queue = some .caller

/-- A call of `yo_queue_free` never deadlocks: however the threads are interleaved, the caller and a
worker never wait for each other, and until the call returns some thread can go on. -/
def FreeSafe (q : YoQueueT) (s : Pool) : Prop :=
  ∀ as t, (system q).run s (.free :: as) = some t →
    ¬ JoinDeadlock t ∧ (t.caller ≠ .returned → ∃ a u, a.isThread = true ∧
      (system q).step t a = some u)

variable {q : YoQueueT} {s t : Pool} {a : PoolAct} {w v : YoiPoolWorkerT} {op : Op Lock}
  {code : YoCode} {env : CallerEnv}

/-! ## When a thread can go on -/

/-- A step is possible once the lock it takes is free. -/
theorem exists_perform (thread : Thread) {next : Option (Op Lock × Pool)}
    (hnext : next = some (op, t)) (hfree : ∀ l, op = .take l → s.lock l = none) :
    ∃ u, s.perform thread next = some u := by
  obtain ⟨lock, hlock⟩ := Option.isSome_iff_exists.mp (Op.isSome_apply (t := thread) hfree)
  exact ⟨{ t with lock := lock }, by simp [perform, hnext, hlock]⟩

/-- A worker's lock is held by the caller or by that worker. -/
theorem eq_of_holds {p : WorkerPc} (h : p.holds v (.worker w) = true) : v = w := by
  cases p <;> simp [WorkerPc.holds] at h <;> exact h.symm

/-- A worker's lock that neither the caller nor the worker holds is free. -/
theorem Sound.lock_worker_free (h : Sound s) (hc : s.caller.holds (.worker w) = false)
    (hw : (s.pc w).holds w (.worker w) = false) : s.lock (.worker w) = none := by
  rw [Option.eq_none_iff_forall_ne_some]
  rintro (_ | v) hv
  · simpa [holds, hc] using (h.owns _ _).mp hv
  · have hheld : (s.pc v).holds v (.worker w) = true := (h.owns _ _).mp hv
    obtain rfl := eq_of_holds hheld
    rw [hw] at hheld
    cases hheld

/-- A worker can go on unless it waits for a signal, for the queue's lock, or for the caller. -/
theorem Sound.exists_worker (q : YoQueueT) (code : YoCode) (h : Sound s)
    (hpc : s.pc w ≠ .absent ∧ s.pc w ≠ .waiting ∧ s.pc w ≠ .exited)
    (hcoded : ∀ r, s.pc w = .ending r .coded → s.lock .queue = none)
    (hc : s.caller.holds (.worker w) = false) :
    ∃ u, (system q).step s (.worker w code) = some u := by
  have hnext : ∃ op t, s.workerNext w code = some (op, t) ∧
      ∀ l, op = .take l → s.lock l = none := by
    have hown : (s.pc w).holds w (.worker w) = false → s.lock (.worker w) = none :=
      h.lock_worker_free hc
    obtain ⟨h₁, h₂, h₃⟩ := hpc
    cases hp : s.pc w with
    | absent => exact absurd hp h₁
    | waiting => exact absurd hp h₂
    | exited => exact absurd hp h₃
    | test =>
      rw [workerNext, hp]
      by_cases hroom : (s.slot w).worker ≠ NULL ∧ (s.slot w).kys = false
      · exact ⟨.skip, _, if_pos hroom, by simp⟩
      · by_cases hk : (s.slot w).kys = true
        · exact ⟨.skip, _, (if_neg hroom).trans (if_pos hk), by simp⟩
        · exact ⟨.give _, _, (if_neg hroom).trans (if_neg hk), by simp⟩
    | ending r e =>
      rw [workerNext, hp]
      cases e with
      | coded =>
        refine ⟨_, _, rfl, fun l hl => ?_⟩
        cases hl
        exact hcoded r hp
      | locked | linked | notified => exact ⟨_, _, rfl, by simp⟩
    | entry | ended | woken =>
      rw [workerNext, hp]
      refine ⟨_, _, rfl, fun l hl => ?_⟩
      cases hl
      exact hown (by simp [hp, WorkerPc.holds])
    | taken | run | clear | leaving =>
      rw [workerNext, hp]
      exact ⟨_, _, rfl, by simp⟩
  obtain ⟨op, t, hnext, hfree⟩ := hnext
  exact exists_perform _ hnext hfree

/-! ## Workers without a task -/

/-- A step of a worker gives no worker a task. -/
theorem worker_uncompleted (h : s.workerNext w code = some (op, t)) (hv : t.Uncompleted v) :
    s.Uncompleted v := by
  by_cases hvw : v = w
  · subst hvw
    unfold Uncompleted at hv ⊢
    cases workerStep h with
    | read hpc hwork hkys =>
      rw [hpc]
      exact hwork
    | _ hpc =>
      rw [hpc]
      revert hv
      simp [WorkerPc.uncompleted, goto]
  · have hm := workerMove h
    unfold Uncompleted at hv ⊢
    rwa [hm.pc_of_ne v hvw, hm.slot_of_ne v hvw] at hv

/-- Nor does a signal. -/
theorem signal_uncompleted (hv : (s.signal w).Uncompleted v) : s.Uncompleted v := by
  unfold Uncompleted at hv ⊢
  rw [pc_signal] at hv
  split at hv
  · rename_i hw
    rw [hw.1, hw.2]
    simpa [WorkerPc.uncompleted, hw.1] using hv
  · simpa using hv

/-- Nor does a step of the caller in `yo_queue_free`, which the caller does not leave. -/
theorem freeing_uncompleted (hf : s.caller.freeing = true)
    (h : s.callerNext env = some (op, t)) :
    t.caller.freeing = true ∧ ∀ v, t.Uncompleted v → s.Uncompleted v := by
  cases callerStep h with
  | scan hpc | fill hpc | full hpc | skip hpc | signal hpc | unlock hpc | refuse hpc | hire hpc =>
    rw [hpc] at hf
    cases hf
  | @ask curr hpc =>
    refine ⟨rfl, fun v hv => ?_⟩
    unfold Uncompleted at hv ⊢
    rw [slot_call, slot_setSlot] at hv
    split at hv
    · rename_i hvc
      rw [hvc] at hv ⊢
      revert hv
      rw [pc_call, pc_setSlot]
      cases s.pc curr <;> exact id
    · exact hv
  | tell hpc => exact ⟨rfl, fun v hv => signal_uncompleted hv⟩
  | @del curr hpc =>
    refine ⟨rfl, fun v hv => ?_⟩
    unfold Uncompleted at hv ⊢
    by_cases hvc : v = curr
    · simp [hvc, WorkerPc.uncompleted] at hv
    · simpa [pc_goto, hvc] using hv
  | impl hpc =>
    refine ⟨?_, fun _ => id⟩
    by_cases hans : env.implFree = .ok <;> simp [hans, CallerPc.freeing]
  | _ => exact ⟨rfl, fun _ => id⟩

/-- The caller is in `yo_queue_free`, and no worker has a task. -/
structure Idle (s : Pool) : Prop where
  freeing : s.caller.freeing = true
  completed : ∀ w, ¬ s.Uncompleted w

/-- It stays so. -/
theorem Idle.step (h : Idle s) (hst : (system q).step s a = some t) : Idle t := by
  cases step_cases hst with
  | exec hidle | free hidle =>
    have := h.freeing
    rw [hidle] at this
    cases this
  | caller hnext hop =>
    obtain ⟨hf, hu⟩ := freeing_uncompleted h.freeing hnext
    exact ⟨hf, fun v hv => h.completed v (hu v hv)⟩
  | worker hnext hop =>
    refine ⟨?_, fun v hv => h.completed v (worker_uncompleted hnext hv)⟩
    rw [show _ = s.caller from (workerMove hnext).caller]
    exact h.freeing
  | @spurious w hw =>
    have hsig : s.signal w = s.goto w .woken := if_pos hw
    exact ⟨h.freeing, fun v hv => h.completed v (signal_uncompleted (hsig ▸ hv))⟩

/-- While no worker has a task, some thread can go on. -/
theorem Idle.exists_step (h : Idle s) (hs : Sound s) (hret : s.caller ≠ .returned) :
    ∃ a u, a.isThread = true ∧ (system q).step s a = some u := by
  have hcoded : ∀ w r, s.pc w ≠ .ending r .coded := fun w r hw =>
    h.completed w (by simp [Uncompleted, hw, WorkerPc.uncompleted])
  have worker : ∀ w, s.pc w ≠ .absent ∧ s.pc w ≠ .waiting ∧ s.pc w ≠ .exited →
      s.caller.holds (.worker w) = false → ∃ a u, a.isThread = true ∧
        (system q).step s a = some u := by
    intro w hpc hc
    obtain ⟨u, hu⟩ := hs.exists_worker q .ok hpc
      (fun r hr => absurd hr (hcoded w r)) hc
    exact ⟨.worker w .ok, u, rfl, hu⟩
  have caller : ∀ op t, s.callerNext ⟨NULL, .ok⟩ = some (op, t) →
      (∀ l, op = .take l → s.lock l = none) → ∃ a u, a.isThread = true ∧
        (system q).step s a = some u := by
    intro op t hnext hfree
    obtain ⟨u, hu⟩ := exists_perform .caller hnext hfree
    exact ⟨.caller ⟨NULL, .ok⟩, u, rfl, hu⟩
  have hf := h.freeing
  cases hc : s.caller with
  | idle | execNext | execTest | execSkip | execSignal | execUnlock => rw [hc] at hf; cases hf
  | returned => exact absurd hc hret
  | free =>
    cases hlock : s.lock .queue with
    | none =>
      simp only [callerNext, hc] at caller
      refine caller _ _ rfl fun l hl => ?_
      cases hl
      exact hlock
    | some thread =>
      -- the owner is a worker that is about to give the lock back
      have hheld := (hs.owns .queue thread).mp hlock
      cases thread with
      | caller => simp [holds, hc, CallerPc.holds] at hheld
      | worker w =>
        refine worker w ?_ (by simp [hc, CallerPc.holds])
        refine ⟨?_, ?_, ?_⟩ <;> intro hw <;> simp [holds, hw, WorkerPc.holds] at hheld
  | freeLock w =>
    cases hlock : s.lock (.worker w) with
    | none =>
      simp only [callerNext, hc] at caller
      refine caller _ _ rfl fun l hl => ?_
      cases hl
      exact hlock
    | some thread =>
      have hheld := (hs.owns _ thread).mp hlock
      cases thread with
      | caller => simp [holds, hc, CallerPc.holds] at hheld
      | worker v =>
        obtain rfl := eq_of_holds hheld
        refine worker v ?_ (by simp [hc, CallerPc.holds])
        refine ⟨?_, ?_, ?_⟩ <;> intro hw <;> simp [holds, hw, WorkerPc.holds] at hheld
  | freeJoin w =>
    by_cases hex : s.pc w = .exited
    · simp only [callerNext, hc, if_pos hex] at caller
      exact caller _ _ rfl (by simp)
    · -- it was signalled, so it is on its way out
      refine worker w ⟨?_, ?_, hex⟩ (by simp [hc, CallerPc.holds])
      · exact (hs.present w).mpr (by simp [hc, CallerPc.curr])
      · exact hs.told w (by rw [hc]; rfl)
  | freeNext =>
    cases hw : s.workers <;> simp only [callerNext, hc, hw] at caller <;>
      exact caller _ _ rfl (by simp)
  | freeKys | freeSignal | freeUnlock | freeDel | freeImpl | freeFail | freeLast =>
    simp only [callerNext, hc] at caller
    exact caller _ _ rfl (by simp)

/-- A call made while no worker has a task is safe. -/
theorem freeSafe_of_completed (hs : (system q).Reachable s) (hidle : s.caller = .idle)
    (h : ∀ w ∈ s.workers, ¬ s.Uncompleted w) : FreeSafe q s := by
  intro as t hrun
  obtain ⟨u, hu, hrest⟩ := Option.bind_eq_some_iff.mp (System.run_cons ▸ hrun)
  cases step_cases hu with
  | free =>
    have hstart : Idle (s.call .free) := by
      refine ⟨rfl, fun w hw => ?_⟩
      by_cases hmem : w ∈ s.workers
      · exact h w hmem hw
      · have habs : s.pc w = .absent := by
          by_contra hne
          have := ((sound_of_reachable hs).present w).mp hne
          simp [hidle, CallerPc.curr, hmem] at this
        simp [Uncompleted, habs, WorkerPc.uncompleted] at hw
    have ht : (system q).Reachable t :=
      System.reach_of_run (hs.step trivial hu)
        (System.along_of_forall (fun _ _ => trivial) _ _) hrest
    have hend : Idle t := System.run_invariant (fun _ _ _ h hst => h.step hst) hstart hrest
    refine ⟨?_, hend.exists_step (sound_of_reachable ht)⟩
    rintro ⟨w, r, -, hw, -⟩
    exact hend.completed w (by simp [Uncompleted, hw, WorkerPc.uncompleted])

/-! ## A worker with a task -/

/-- The worker can be brought to the point at which it waits for the queue's lock, with the
caller where it is. -/
def Blocks (q : YoQueueT) (w : YoiPoolWorkerT) (s : Pool) : Prop :=
  ∃ as t r, (system q).run s as = some t ∧ t.caller = s.caller ∧ t.pc w = .ending r .coded

/-- One more step of the worker. -/
theorem Blocks.step {u : Pool} {lock : Lock → Option Thread}
    (h : Blocks q w { u with lock := lock }) (hnext : s.workerNext w code = some (op, u))
    (hop : op.apply (.worker w) s.lock = some lock) : Blocks q w s := by
  obtain ⟨as, t, r, hrun, hcaller, hpc⟩ := h
  refine ⟨.worker w code :: as, t, r, ?_, hcaller.trans (workerMove hnext).caller, hpc⟩
  have hst : (system q).step s (.worker w code) = some { u with lock := lock } := by
    simp [system, perform, hnext, hop]
  rw [System.run_cons, hst]
  exact hrun

theorem blocks_of_run {task : Task} (hpc : s.pc w = .run task) : Blocks q w s := by
  have hnext : s.workerNext w .ok = some (.skip, { s.goto w (.ending task.req .coded) with
      mem := s.mem.endCode task.req .ok }) := by
    rw [workerNext, hpc]
  exact Blocks.step ⟨[], _, task.req, rfl, rfl, pc_goto_self⟩ hnext rfl

theorem blocks_of_taken {task : Task} (hpc : s.pc w = .taken task) : Blocks q w s := by
  have hnext : s.workerNext w .ok = some (.give (.worker w), s.goto w (.run task)) := by
    rw [workerNext, hpc]
  exact Blocks.step (blocks_of_run pc_goto_self) hnext rfl

theorem blocks_of_test (hpc : s.pc w = .test) (hslot : (s.slot w).worker ≠ NULL)
    (hkys : (s.slot w).kys = false) : Blocks q w s := by
  have hnext : s.workerNext w .ok = some (.skip, s.goto w (.taken (s.slot w).task)) := by
    rw [workerNext, hpc]
    exact if_pos ⟨hslot, hkys⟩
  exact Blocks.step (blocks_of_taken pc_goto_self) hnext rfl

theorem blocks_of_lock (hpc : s.pc w = .entry ∨ s.pc w = .woken)
    (hfree : s.lock (.worker w) = none) (hslot : (s.slot w).worker ≠ NULL)
    (hkys : (s.slot w).kys = false) : Blocks q w s := by
  have hnext : s.workerNext w .ok = some (.take (.worker w), s.goto w .test) := by
    rcases hpc with hpc | hpc <;> rw [workerNext, hpc]
  have hop : (Op.take (Lock.worker w)).apply (.worker w) s.lock =
      some (Function.update s.lock (.worker w) (some (.worker w))) := by
    simp [Op.apply, hfree]
  have hblocks : Blocks q w { s.goto w .test with
      lock := Function.update s.lock (.worker w) (some (.worker w)) } :=
    blocks_of_test pc_goto_self hslot hkys
  exact hblocks.step hnext hop

/-- A worker with a task can come to need the queue's lock before the caller has it. -/
theorem blocks_of_uncompleted (hs : Sound s) (hfree : s.caller = .free) (hw : w ∈ s.workers)
    (hu : s.Uncompleted w) : Blocks q w s := by
  have hkys : (s.slot w).kys = false := hs.kys_workers w hw
  have hown : (s.pc w).holds w (.worker w) = false → s.lock (.worker w) = none :=
    hs.lock_worker_free (by simp [hfree, CallerPc.holds])
  unfold Uncompleted at hu
  cases hpc : s.pc w with
  | absent | ended | clear | leaving | exited => rw [hpc] at hu; exact hu.elim
  | entry | woken =>
    rw [hpc] at hu
    exact blocks_of_lock (by simp [hpc]) (hown (by simp [hpc, WorkerPc.holds])) hu hkys
  | waiting =>
    rw [hpc] at hu
    exact absurd ((hs.slot_waiting w hpc).resolve_right (by simp [hfree])) hu
  | test =>
    rw [hpc] at hu
    exact blocks_of_test hpc hu hkys
  | taken task => exact blocks_of_taken hpc
  | run task => exact blocks_of_run hpc
  | ending r e =>
    rw [hpc] at hu
    obtain rfl : e = .coded := hu
    exact ⟨[], s, r, rfl, rfl, hpc⟩

/-! ## The end of the run -/

@[inherit_doc WorkerPc.left]
def left (s : Pool) (w : YoiPoolWorkerT) : ℕ := (s.pc w).left (s.slot w)

/-- The steps the caller has left in the loop of `yoi_pool_free`, with `n` workers on the list. -/
def callerLeft (n : ℕ) : CallerPc → ℕ
  | .free => 7 * n + 4
  | .freeNext => 7 * n + 3
  | .freeLock _ => 7 * n + 9
  | .freeKys _ => 7 * n + 8
  | .freeSignal _ => 7 * n + 7
  | .freeUnlock _ => 7 * n + 6
  | .freeJoin _ => 7 * n + 5
  | .freeDel _ => 7 * n + 4
  | .idle | .execNext .. | .execTest .. | .execSkip .. | .execSignal _ | .execUnlock _ | .freeImpl
  | .freeFail | .freeLast | .returned => 0

/-- A step of a worker leaves it fewer steps, and the others as many. -/
theorem left_workerNext (h : s.workerNext w code = some (op, t)) :
    t.left w < s.left w ∧ ∀ v, v ≠ w → t.left v = s.left v := by
  constructor
  · unfold left
    cases workerStep h with
    | enter hpc | wake hpc =>
      by_cases hnull : (s.slot w).worker = NULL <;> simp [hpc, WorkerPc.left, hnull]
    | read hpc hwork hkys => simp [hpc, WorkerPc.left, hwork]
    | leave hpc hkys =>
      by_cases hnull : (s.slot w).worker = NULL <;> simp [hpc, WorkerPc.left, hnull]
    | wait hpc hempty hkys => simp [hpc, WorkerPc.left, hempty]
    | _ hpc => simp [hpc, WorkerPc.left]
  · intro v hv
    have hm := workerMove h
    unfold left
    rw [hm.pc_of_ne v hv, hm.slot_of_ne v hv]

theorem left_le (k : YoiPoolWorker) (p : WorkerPc) : p.left k ≤ 12 := by
  cases p with
  | ending r e => cases e <;> simp [WorkerPc.left]
  | entry | test | woken => simp only [WorkerPc.left]; split <;> omega
  | _ => simp [WorkerPc.left]

/-- A step of the caller in the loop of `yoi_pool_free`, while a worker is left in the pool: the
caller stays in the loop and has fewer steps left, it wakes one worker at most, and it
changes the place of no other that has not exited. -/
theorem inPool_callerNext (h : s.callerNext env = some (op, t)) (hs : Sound s)
    (hin : s.caller.inPool = true) (hw : s.pc w ≠ .absent) :
    (t.caller.inPool = true ∧
        callerLeft t.workers.length t.caller < callerLeft s.workers.length s.caller) ∧
      (∃ c, ∀ v, t.left v ≤ s.left v + if v = c then 12 else 0) ∧
        ∀ v, s.pc v ≠ .waiting → s.pc v ≠ .exited → t.pc v = s.pc v := by
  have halive := (hs.present w).mp hw
  cases callerStep h with
  | done hpc hworkers => simp [hpc, hworkers, CallerPc.curr] at halive
  | unlink hpc hworkers =>
    refine ⟨⟨rfl, ?_⟩, ⟨w, fun v => Nat.le_add_right _ _⟩, fun _ _ _ => rfl⟩
    simp only [callerLeft, caller_call, hpc, hworkers, List.length_cons]
    omega
  | @ask curr hpc =>
    refine ⟨⟨rfl, ?_⟩, ⟨curr, fun v => ?_⟩, fun _ _ _ => rfl⟩
    · simp [hpc, callerLeft]
    · split
      · exact (left_le _ _).trans (Nat.le_add_left _ _)
      · rename_i hv
        simp [left, slot_setSlot, hv]
  | @tell curr hpc =>
    refine ⟨⟨rfl, ?_⟩, ⟨curr, fun v => ?_⟩, fun v hv _ => ?_⟩
    · simp [hpc, callerLeft]
    · split
      · exact (left_le _ _).trans (Nat.le_add_left _ _)
      · rename_i hv
        simp [left, pc_signal, hv]
    · rw [pc_call, pc_signal, if_neg]
      rintro ⟨rfl, hwait⟩
      exact hv hwait
  | @del curr hpc =>
    refine ⟨⟨rfl, ?_⟩, ⟨curr, fun v => ?_⟩, fun v _ hv => ?_⟩
    · simp [hpc, callerLeft]
    · split
      · exact (left_le _ _).trans (Nat.le_add_left _ _)
      · rename_i hv
        simp [left, pc_goto, hv]
    · have hne : v ≠ curr := fun e => hv (e ▸ hs.joined curr hpc)
      simp [pc_goto, hne]
  | lockQueue hpc | lockWorker hpc | unlockWorker hpc | join hpc =>
    refine ⟨⟨rfl, ?_⟩, ⟨w, fun v => Nat.le_add_right _ _⟩, fun _ _ _ => rfl⟩
    simp [hpc, callerLeft]
  | _ hpc =>
    rw [hpc] at hin
    cases hin

/-- The caller is in the loop of `yoi_pool_free`, or about to enter it, and the worker `w` is stuck
with its request.  Only the workers in `F` are there. -/
structure Stuck (q : YoQueueT) (w : YoiPoolWorkerT) (r : YoReqT) (F : Finset YoiPoolWorkerT)
    (s : Pool) : Prop where
  reachable : (system q).Reachable s
  inPool : s.caller.inPool = true
  coded : s.pc w = .ending r .coded
  absent : ∀ v, v ∉ F → s.pc v = .absent

/-- Every step of another thread keeps it so, and brings the run closer to its end. -/
theorem Stuck.step {r : YoReqT} {F : Finset YoiPoolWorkerT} (h : Stuck q w r F s)
    (ha : a.isThread = true ∧ ∀ c, a ≠ .worker w c) (hst : (system q).step s a = some t) :
    Stuck q w r F t ∧ 16 * callerLeft t.workers.length t.caller + ∑ v ∈ F, t.left v <
      16 * callerLeft s.workers.length s.caller + ∑ v ∈ F, s.left v := by
  have hs := sound_of_reachable h.reachable
  have ht : (system q).Reachable t := h.reachable.step trivial hst
  cases step_cases hst with
  | exec | free | spurious => cases ha.1
  | @caller env op u lock hnext hop =>
    obtain ⟨⟨hin, hlt⟩, ⟨c, hleft⟩, hpc⟩ :=
      inPool_callerNext hnext hs h.inPool (w := w) (by simp [h.coded])
    refine ⟨⟨ht, hin, ?_, fun v hv => ?_⟩, ?_⟩
    · exact (hpc w (by simp [h.coded]) (by simp [h.coded])).trans h.coded
    · have habs := h.absent v hv
      exact (hpc v (by simp [habs]) (by simp [habs])).trans habs
    · have hsum : ∑ v ∈ F, u.left v ≤ ∑ v ∈ F, s.left v + 12 := by
        refine (Finset.sum_le_sum fun v _ => hleft v).trans ?_
        rw [Finset.sum_add_distrib, Finset.sum_ite_eq']
        split <;> omega
      exact lt_of_le_of_lt (Nat.add_le_add_left hsum _) (by dsimp only; omega)
  | @worker u code op t' lock hnext hop =>
    have huw : u ≠ w := fun e => ha.2 code (e ▸ rfl)
    have hm := workerMove hnext
    obtain ⟨hlt, heq⟩ := left_workerNext hnext
    have huF : u ∈ F := by
      by_contra hu
      exact hm.before.1 (h.absent u hu)
    refine ⟨⟨ht, ?_, ?_, fun v hv => ?_⟩, ?_⟩
    · rw [show _ = s.caller from hm.caller]
      exact h.inPool
    · exact (hm.pc_of_ne w huw.symm).trans h.coded
    · have hvu : v ≠ u := fun e => hv (e ▸ huF)
      exact (hm.pc_of_ne v hvu).trans (h.absent v hv)
    · rw [show _ = s.caller from hm.caller, show _ = s.workers from hm.workers]
      refine Nat.add_lt_add_left (Finset.sum_lt_sum (fun v _ => ?_) ⟨u, huF, hlt⟩) _
      by_cases hvu : v = u
      · exact hvu ▸ hlt.le
      · exact (heq v hvu).le

/-- A call made while some worker has a task is not safe. -/
theorem completed_of_freeSafe (hs : (system q).Reachable s) (hidle : s.caller = .idle)
    (h : FreeSafe q s) (hw : w ∈ s.workers) : ¬ s.Uncompleted w := by
  intro hu
  have hfree : (system q).step s .free = some (s.call .free) := if_pos hidle
  have hs₁ : (system q).Reachable (s.call .free) := hs.step trivial hfree
  obtain ⟨as, t, r, hrun, hcaller, hcoded⟩ :=
    blocks_of_uncompleted (q := q) (sound_of_reachable hs₁) rfl hw hu
  have ht : (system q).Reachable t :=
    System.reach_of_run hs₁ (System.along_of_forall (fun _ _ => trivial) _ _) hrun
  have hcaller' : t.caller = .free := hcaller
  have hstuck : Stuck q w r t.workers.toFinset t := by
    refine ⟨ht, by rw [hcaller']; rfl, hcoded, fun v hv => ?_⟩
    by_contra hne
    have := ((sound_of_reachable ht).present v).mp hne
    simp [hcaller', CallerPc.curr] at this
    exact hv (List.mem_toFinset.mpr this)
  obtain ⟨bs, u, hrun', -, hu, hend⟩ := System.exists_run_stuck _
    (fun _ _ _ hP ha hst => Stuck.step hP ha hst) hstuck
  have hnone : u.caller ≠ .returned := by
    intro e
    have := hu.inPool
    rw [e] at this
    cases this
  have hall : (system q).run s (.free :: (as ++ bs)) = some u := by
    rw [System.run_cons, hfree]
    show (system q).run (s.call .free) (as ++ bs) = some u
    rw [System.run_append, hrun]
    exact hrun'
  obtain ⟨a, v, ha, hst⟩ := (h _ _ hall).2 hnone
  -- only the stuck worker could move, and the caller holds the lock it wants
  by_cases haw : ∃ c, a = .worker w c
  · obtain ⟨c, rfl⟩ := haw
    have hlock : u.lock .queue = none := by
      simp only [system, perform, workerNext, hu.coded, Option.bind_some, Op.apply] at hst
      split at hst
      · rename_i hnone
        simpa using hnone
      · cases hst
    have howns := (sound_of_reachable hu.reachable).owns .queue .caller
    rw [hlock] at howns
    have hnot : u.caller.holds .queue = false := by simpa [holds] using howns
    have hin := hu.inPool
    have hidle' : u.caller = .free := by
      cases hc : u.caller <;> simp [hc, CallerPc.holds, CallerPc.inPool] at hnot hin ⊢
    have hcall := hend (.caller ⟨NULL, .ok⟩) ⟨rfl, by simp⟩
    simp [system, perform, callerNext, hidle', Op.apply, hlock] at hcall
  · rw [hend a ⟨ha, fun c e => haw ⟨c, e⟩⟩] at hst
    cases hst

/-- **When freeing a queue is safe.**  Called in a state of any run, `yo_queue_free` deadlocks in no
interleaving with the workers if and only if no worker has an uncompleted task. -/
theorem freeSafe_iff (hs : (system q).Reachable s) (hidle : s.caller = .idle) :
    FreeSafe q s ↔ ∀ w ∈ s.workers, ¬ s.Uncompleted w :=
  ⟨fun h _ hw => completed_of_freeSafe hs hidle h hw, freeSafe_of_completed hs hidle⟩

/-! ## One worker -/

/-- The queue at `0x10` with one request and no worker yet. -/
def oneRequest : Pool where
  mem := Heap.blank.yoReqNew 0x30 0x10
  lock _ := none
  slot _ := ⟨NULL, NULL, NULL, false⟩
  pc _ := .absent
  workers := []
  caller := .idle

theorem init_oneRequest : (system 0x10).init oneRequest := ⟨fun _ => rfl, fun _ => rfl, rfl, rfl⟩

/-- A task is accepted, and its new worker runs it. -/
def running : List PoolAct :=
  [.exec ⟨0x30, 0x401400, NULL⟩, .caller ⟨0x40, .ok⟩, .worker 0x40 .ok, .worker 0x40 .ok,
    .worker 0x40 .ok]

/-- The worker completes the task and waits for the next. -/
def finished : List PoolAct := running ++ List.replicate 8 (.worker 0x40 .ok)

/-- The caller frees the queue as far as it gets, and the worker's task returns. -/
def freed : List PoolAct :=
  .free :: (List.replicate 6 (.caller ⟨NULL, .ok⟩) ++ [.worker 0x40 .ok])

/-- Where there is no worker there is no step. -/
theorem step_absent (h : s.pc w = .absent) : (system q).step s (.worker w code) = none := by
  simp [system, perform, workerNext, h]

/-- Freeing the queue while the task runs ends with two threads that wait for each other, and
nobody else to go on. -/
theorem joinDeadlock_oneTask :
    ∃ s t, (system 0x10).run oneRequest running = some s ∧ s.caller = .idle ∧
      (system 0x10).run s freed = some t ∧ JoinDeadlock t ∧ t.caller ≠ .returned ∧
        ∀ a, a.isThread = true → (system 0x10).step t a = none := by
  have hrun : (system 0x10).run oneRequest (running ++ freed) = some _ := rfl
  have hs := sound_of_reachable (System.reachable_of_run init_oneRequest hrun)
  refine ⟨_, _, rfl, rfl, rfl, ⟨0x40, 0x30, rfl, rfl, rfl⟩, by decide, fun a ha => ?_⟩
  cases a with
  | exec | free | spurious => cases ha
  | caller env => rfl
  | worker w code =>
    by_cases hw : w = 0x40
    · subst hw
      rfl
    · have habs := (hs.present w).not.mpr fun hmem => hw (List.mem_singleton.mp hmem)
      exact step_absent (not_not.mp habs)

/-- It is safe once the task is completed, and not while it runs. -/
theorem freeSafe_iff_oneTask :
    (∃ s, (system 0x10).run oneRequest finished = some s ∧ FreeSafe 0x10 s) ∧
      ∃ s, (system 0x10).run oneRequest running = some s ∧ ¬ FreeSafe 0x10 s := by
  constructor
  · have hrun : (system 0x10).run oneRequest finished = some _ := rfl
    refine ⟨_, hrun, (freeSafe_iff (System.reachable_of_run init_oneRequest hrun) rfl).mpr ?_⟩
    intro w hw
    obtain rfl : w = 0x40 := List.mem_singleton.mp hw
    exact fun h => h rfl
  · have hrun : (system 0x10).run oneRequest running = some _ := rfl
    refine ⟨_, hrun, fun h => ?_⟩
    exact (freeSafe_iff (System.reachable_of_run init_oneRequest hrun) rfl).mp h 0x40
      (List.mem_singleton.mpr rfl) trivial

end Pool

end Yaooi
