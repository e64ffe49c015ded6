import Yaooi.Pool.Tasks
import Yaooi.Queue.Refine

/-!
# Freeing a request

`yo_req_free` of `src/queue.c`, for a caller that may free any request it has, whatever became of
it.  `inc/yaooi/queue.h` says that the call cancels the request; the code only gives the memory
back, so whatever refers to the request goes on doing so.

* `refers_iff`: the lists of the handles, the ready lists and the pool refer to exactly the
  requests that are started and not yet delivered.
* `touched_live`: as long as they refer to no request that was freed, no later call touches one.
* `noDangling_iff`: they do so throughout a run if and only if each request is idle when it is
  freed.
* `holds_iff`: a slot of the pool refers to a request until its task is completed.
-/

namespace Yaooi

open Transition

/-! ## The lists and the pool's hold -/

namespace Heap

/-- The runs of the calls, for a caller that frees what it likes. -/
def freeing : System (Conf Heap) Call where
  init := system.init
  step s c :=
    match c with
    | .reqFree r =>
      if s.ledger.live r then some ⟨s.mem, s.ledger.after (.reqFree r) .done⟩ else none
    | _ => system.step s c

/-- The list of an open handle, a ready list or the pool refers to the request. -/
def Refers (s : Conf Heap) (r : YoReqT) : Prop :=
  (∃ h l, s.ledger.opened h = true ∧ s.mem.handleList h = some l ∧ r ∈ l) ∨
    (∃ q l, s.mem.readyList q = some l ∧ r ∈ l.map Prod.fst) ∨ s.ledger.pool r = true

/-- Nothing refers to a request that was freed. -/
def NoDangling (s : Conf Heap) : Prop := ∀ r, Refers s r → s.ledger.live r = true

/-- The condition on a call: a request that is freed was not started, or it was delivered. -/
def FreesIdle (s : Conf Heap) (c : Call) : Prop := ∀ r, c = .reqFree r → s.ledger.busy r = false

/-- The requests that a round of polling, a close or a thread of the pool may read or write. -/
def Touches (s : Conf Heap) (c : Call) (r : YoReqT) : Prop :=
  match c with
  | .poll q env => (∃ l, s.mem.readyList q = some l ∧ r ∈ l.map Prod.fst) ∨
      ∃ h mask l, env.poll = .event h mask ∧ h ≠ NULL ∧ s.mem.handleList h = some l ∧ r ∈ l
  | .close h _ => ∃ l, s.mem.handleList h = some l ∧ r ∈ l
  | .finish x _ => r = x
  | _ => False

variable {s t : Conf Heap} {b : Board} {pos : YoReqT → Board.Place} {c : Call} {r : YoReqT}

/-- What is referred to is what was started and not delivered. -/
theorem refers_iff (hR : Refines s.ledger.opened s.mem b) (hp : Board.Placed s.ledger b pos) :
    Refers s r ↔ s.ledger.busy r = true := by
  rw [hp.busy]
  constructor
  · rintro (⟨h, l, hh, hl, hr⟩ | ⟨q, l, hl, hr⟩ | hpool)
    · obtain rfl := Option.some.inj ((hR.handleList hh).symm.trans hl)
      simp [(hp.pend h r hh).mp hr]
    · obtain rfl := Option.some.inj (hR.readyList.symm.trans hl)
      simp [(hp.ready q r).mp hr]
    · simp [(hp.pool r).mp hpool]
  · intro hidle
    cases hplace : pos r with
    | idle => exact absurd hplace hidle
    | handle h =>
      have hh := hp.opened h r hplace
      exact .inl ⟨h, b.pend h, hh, hR.handleList hh, (hp.pend h r hh).mpr hplace⟩
    | ready q => exact .inr (.inl ⟨q, b.ready q, hR.readyList, (hp.ready q r).mpr hplace⟩)
    | pool => exact .inr (.inr ((hp.pool r).mpr hplace))

/-- No later call touches a request that was freed. -/
theorem touched_live (hs : NoDangling s) (hst : freeing.step s c = some t) (hr : Touches s c r) :
    s.ledger.live r = true := by
  apply hs
  cases c with
  | poll q env =>
    obtain ⟨l, hl, hr⟩ | ⟨h, mask, l, hev, hne, hl, hr⟩ := hr
    · exact .inr (.inl ⟨q, l, hl, hr⟩)
    · have hsys : system.step s (.poll q env) = some t := hst
      have hh := Board.Placed.opened_of_event (calls_step hsys).1 hev hne
      exact .inl ⟨h, l, hh, hl, hr⟩
  | close h ans =>
    have hsys : system.step s (.close h ans) = some t := hst
    obtain ⟨l, hl, hr⟩ := hr
    exact .inl ⟨h, l, (calls_step hsys).1, hl, hr⟩
  | finish x code =>
    have hsys : system.step s (.finish x code) = some t := hst
    obtain rfl := hr
    exact .inr (.inr (calls_step hsys).1)
  | _ => exact hr.elim

/-- A free of an idle request is one that the rules allow, and all other calls are the same. -/
theorem step_of_freesIdle (hst : freeing.step s c = some t) (hidle : FreesIdle s c) :
    system.step s c = some t := by
  cases c with
  | reqFree r =>
    have hlive : s.ledger.live r = true := by
      by_contra hno
      simp [freeing, hno] at hst
    have hbusy := hidle r rfl
    simpa [freeing, system, calls, Call.allowed, exec, hlive, hbusy] using hst
  | _ => exact hst

/-- The memory shows a board on which everything is in its place. -/
def Shown (s : Conf Heap) : Prop :=
  ∃ b pos, Refines s.ledger.opened s.mem b ∧ Board.Placed s.ledger b pos

theorem Shown.noDangling (h : Shown s) : NoDangling s := by
  obtain ⟨b, pos, hR, hp⟩ := h
  intro r hr
  exact hp.live r ((hp.busy r).mp ((refers_iff hR hp).mp hr))

/-- **One call** leaves nothing that refers to a freed request if and only if it frees none that is
referred to. -/
theorem noDangling_step (hs : Shown s) (hst : freeing.step s c = some t) :
    (NoDangling t ↔ FreesIdle s c) ∧ (NoDangling t → Shown t) := by
  obtain ⟨b, pos, hR, hp⟩ := hs
  have hkeep : FreesIdle s c → Shown t := by
    intro hidle
    have hstep := step_of_freesIdle hst hidle
    obtain ⟨u, hu, -, hRu, pos', hpu⟩ := step_refines hR hp (calls_step hstep).1
    obtain rfl := Option.some.inj (hu.symm.trans hstep)
    exact ⟨_, pos', hRu, hpu⟩
  have hiff : NoDangling t ↔ FreesIdle s c := by
    refine ⟨fun ht => ?_, fun hidle => (hkeep hidle).noDangling⟩
    rintro r rfl
    by_contra hbusy
    have hlive : s.ledger.live r = true := hp.live r ((hp.busy r).mp (by simpa using hbusy))
    obtain rfl : (⟨s.mem, s.ledger.after (.reqFree r) .done⟩ : Conf Heap) = t := by
      simpa [freeing, hlive] using hst
    -- the book has changed for `live` only
    have hrefers : Refers s r := (refers_iff hR hp).mpr (by simpa using hbusy)
    have hgone := ht r hrefers
    simp [Ledger.after] at hgone
  exact ⟨hiff, fun ht => hkeep (hiff.mp ht)⟩

/-- **When nothing refers to a freed request** throughout a run: each request must be idle when it
is freed, not started or delivered. -/
theorem noDangling_iff {cs : List Call} (hinit : freeing.init s)
    (hrun : freeing.run s cs = some t) :
    freeing.Always NoDangling s cs ↔ freeing.Along FreesIdle s cs := by
  obtain ⟨⟨b, l⟩, hfresh, hl, hR⟩ := simulates.init s hinit
  obtain ⟨pos, hp⟩ := Board.placed_of_reachable (.init hfresh)
  have hshown : Shown s := ⟨b, pos, hR, hl ▸ hp⟩
  refine System.always_iff_along (I := Shown) (fun _ => True) ?_ hshown hshown.noDangling
    (fun _ _ => trivial) hrun
  exact fun s c t hs _ _ hst => noDangling_step hs hst

end Heap

/-! ## The slots of the pool -/

namespace TaskEvent

/-- A task for the request is put into the slot of the worker. -/
def accepts (w : YoiPoolWorkerT) (r : YoReqT) : TaskEvent → Bool
  | .accept v t => v = w ∧ t.req = r
  | _ => false

/-- The worker completes the request. -/
def completes (w : YoiPoolWorkerT) (r : YoReqT) : TaskEvent → Bool
  | .complete v x _ => v = w ∧ x = r
  | _ => false

variable {w : YoiPoolWorkerT} {r : YoReqT} {e : TaskEvent}

theorem worker_of_accepts (h : e.accepts w r = true) : e.worker = some w := by
  cases e with
  | accept v t => simp_all [accepts, worker]
  | _ => cases h

theorem worker_of_completes (h : e.completes w r = true) : e.worker = some w := by
  cases e with
  | complete v x code => simp_all [completes, worker]
  | _ => cases h

end TaskEvent

section Count

variable {w : YoiPoolWorkerT} {r : YoReqT} {log hist : List TaskEvent} {n : ℕ} {task : Task}
  {c : YoCode} {ok : Prop}

/-- Events of the worker are counted in its history. -/
theorem countP_history {p : TaskEvent → Bool} (hp : ∀ e, p e = true → e.worker = some w) :
    (history w log).countP p = log.countP p := by
  rw [history, List.countP_filter]
  refine List.countP_congr fun e _ => ?_
  simpa using hp e

/-- A whole life completes what it accepts. -/
theorem Job.countP_events (j : Job) :
    (j.events w).countP (TaskEvent.accepts w r) =
      (j.events w).countP (TaskEvent.completes w r) := by
  by_cases hr : j.task.req = r <;> simp [Job.events, TaskEvent.accepts, TaskEvent.completes, hr]

/-- A row of lives leaves the request uncompleted if the last one is for it and not at its end. -/
theorem Lives.countP (h : Lives ok w hist n task c) (hn : n ≤ 4) :
    hist.countP (TaskEvent.accepts w r) =
      hist.countP (TaskEvent.completes w r) + if n ≠ 0 ∧ task.req = r then 1 else 0 := by
  obtain ⟨done, j, rfl, hj, -⟩ := h
  have hdone : (done.flatMap (Job.events w)).countP (TaskEvent.accepts w r) =
      (done.flatMap (Job.events w)).countP (TaskEvent.completes w r) := by
    induction done with
    | nil => rfl
    | cons d done ih =>
      rw [List.flatMap_cons, List.countP_append, List.countP_append, ih, d.countP_events]
  rw [List.countP_append, List.countP_append, hdone, add_assoc]
  congr 1
  by_cases hzero : n = 0
  · subst hzero
    simp
  · obtain rfl := hj hzero
    obtain rfl | rfl | rfl | rfl : n = 1 ∨ n = 2 ∨ n = 3 ∨ n = 4 := by omega
    all_goals
      by_cases hr : j.task.req = r <;> simp [Job.events, TaskEvent.accepts, TaskEvent.completes, hr]

end Count

namespace Pool

/-- A slot with a task that is not completed is for the request. -/
def Holds (s : Pool) (r : YoReqT) : Prop := ∃ w, s.stage w ≠ 0 ∧ (s.slot w).req = r

/-- **What the pool still refers to**: in every run without `yo_queue_free`, the requests accepted
and not completed. -/
theorem holds_iff {q : YoQueueT} {s : Pool × List TaskEvent}
    (h : ((system q).logged record).Reach (fun s a => NoFree s.1 a) s) (r : YoReqT) :
    Holds s.1 r ↔
      ∃ w, s.2.countP (TaskEvent.accepts w r) ≠ s.2.countP (TaskEvent.completes w r) := by
  obtain ⟨hacc, -⟩ := accounted_of_reach False
    (h.mono fun _ _ hfree => ⟨hfree, False.elim⟩)
  refine exists_congr fun w => ?_
  have hcount := (hacc.lives w).countP (r := r) (stage_le s.1 w)
  rw [countP_history fun _ => TaskEvent.worker_of_accepts,
    countP_history fun _ => TaskEvent.worker_of_completes] at hcount
  rw [hcount]
  by_cases hr : s.1.stage w ≠ 0 ∧ (s.1.slot w).req = r
  · simp [hr]
  · simp only [YoiPoolWorker.req_task, hr, if_false, add_zero, ne_eq, not_true_eq_false]

end Pool

/-! ## The result -/

/-- **When freeing a request is safe.**

* In every run of calls in which a caller frees what it likes, no list and no thread of the pool
  ever refers to a freed request, if and only if each request is idle when it is freed: not
  started, or delivered.  The call does not cancel it.
* As long as this is so, no later round of polling, close or thread of the pool touches a request
  that was freed.
* In every state of the pool, before `yo_queue_free`, no slot with an uncompleted task is for a
  request if and only if each worker has completed it as often as it was accepted. -/
theorem released_iff {s t : Conf Heap} {cs : List Call} (hinit : Heap.freeing.init s)
    (hrun : Heap.freeing.run s cs = some t) :
    (Heap.freeing.Always Heap.NoDangling s cs ↔ Heap.freeing.Along Heap.FreesIdle s cs) ∧
    (∀ s c t, Heap.NoDangling s → Heap.freeing.step s c = some t → ∀ r, Heap.Touches s c r →
      s.ledger.live r = true) ∧
    ∀ q s, ((Pool.system q).logged Pool.record).Reach (fun s a => Pool.NoFree s.1 a) s → ∀ r,
      (¬ Pool.Holds s.1 r ↔ ∀ w, s.2.countP (TaskEvent.accepts w r) =
        s.2.countP (TaskEvent.completes w r)) := by
  refine ⟨Heap.noDangling_iff hinit hrun, fun s c t hs hst r => Heap.touched_live hs hst,
    fun q s h r => ?_⟩
  rw [Pool.holds_iff h]
  push Not
  rfl

/-! ## A pending read is freed -/

/-- A read waits on a handle, and its request is freed. -/
def freePending : List Call :=
  [.reqNew 0x30 0x10, .fdNew 0x20 4 true, .start 0x30 0x20 (.read 0x700 0x708) .ok .ok,
    .reqFree 0x30]

/-- The handle's list still has the freed request. -/
theorem not_noDangling_freePending :
    Heap.freeing.init Heap.start ∧ ∃ t, Heap.freeing.run Heap.start freePending = some t ∧
      t.ledger.live 0x30 = false ∧ t.mem.handleList 0x20 = some [0x30] ∧
        ¬ Heap.freeing.Always Heap.NoDangling Heap.start freePending := by
  have hend : (Heap.freeing.run Heap.start freePending).map (fun t =>
      (t.ledger.live 0x30, t.ledger.opened 0x20, t.mem.handleList 0x20)) =
        some (false, true, some [0x30]) := by decide +kernel
  obtain ⟨t, hrun, ht⟩ := Option.map_eq_some_iff.mp hend
  simp only [Prod.mk.injEq] at ht
  obtain ⟨hlive, hopen, hlist⟩ := ht
  refine ⟨Heap.init_start, t, hrun, hlive, hlist, fun halways => ?_⟩
  have hdead := halways.last hrun 0x30 (.inl ⟨0x20, [0x30], hopen, hlist, by simp⟩)
  exact absurd (hlive.symm.trans hdead) (by decide)

/-- A read is delivered before its request is freed. -/
def freeDelivered : List Call :=
  [.reqNew 0x30 0x10, .fdNew 0x20 4 true, .start 0x30 0x20 (.read 0x700 0x708) .ok .ok,
    .poll 0x10 ⟨.event 0x20 ⟨true, false⟩, .ok, .ok⟩] ++ [.reqFree 0x30]

/-- Nothing refers to it then. -/
theorem noDangling_freeDelivered :
    Heap.freeing.Always Heap.NoDangling Heap.start freeDelivered := by
  have hsome : (Heap.freeing.run Heap.start freeDelivered).isSome = true := by decide +kernel
  obtain ⟨t, hrun⟩ := Option.isSome_iff_exists.mp hsome
  apply (released_iff Heap.init_start hrun).1.mpr
  refine System.along_append (System.along_of_mem (by simp [Heap.FreesIdle]) _) fun u hu => ?_
  refine ⟨?_, fun _ _ => trivial⟩
  rintro r ⟨⟩
  have hbusy : (Heap.freeing.run Heap.start (freeDelivered.take 4)).map (·.ledger.busy 0x30) =
      some false := by decide +kernel
  have hu' : Heap.freeing.run Heap.start (freeDelivered.take 4) = some u := hu
  simpa [hu'] using hbusy

end Yaooi
