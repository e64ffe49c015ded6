import Yaooi.Queue.Calls
import Yaooi.Threads.Completion

/-!
# The deadline of the fallback backend

`yo_queue_poll` of `src/fallback/queue.c` with a deadline, in the two builds.  Without threads it
compares the clock with the deadline after every pop that found nothing.  With threads it waits on
the condition variable until the deadline, drops what the wait answers, and pops again; nothing in
the loop returns `YO_ETIMEOUT`.

* `single_timely`: the build without threads returns at the deadline.
* `timely_iff`: the build with threads does what it should exactly in the runs in which no pop
  behind the deadline finds the list empty.  Once one has, the call goes round and round until a
  request is completed.
-/

namespace Yaooi

open Transition

/-! ## The poller -/

/-- Where the poller stands in `yo_queue_poll`. -/
inductive TimedPc where
  /-- `yoi_queue_pop` is next. -/
  | pop
  /-- The list was found empty, and the lock for the wait is to be taken. -/
  | empty
  /-- In `yo_cond_timewait`. -/
  | waiting
  /-- The wait is over; the lock is to be taken again, and released. -/
  | woken
  /-- `return YO_OK` -/
  | returned (r : YoReqT) (code : YoCode)
  /-- `return YO_ETIMEOUT` -/
  | timedOut
  deriving DecidableEq, Repr

/-- The call has not returned. -/
def TimedPc.inCall : TimedPc → Bool
  | .pop | .empty | .waiting | .woken => true
  | .returned .. | .timedOut => false

/-- The poller, and whether its call is late: its deadline has passed, or a wait has timed out. -/
structure TimedPoller where
  pc : TimedPc
  late : Bool
  deriving DecidableEq, Repr

/-- What can happen to the poller. -/
inductive TimedAct where
  /-- The next step of `yo_queue_poll`. -/
  | next
  /-- `yo_queue_poll` is called again, with a deadline in the past or not. -/
  | call (past : Bool)
  /-- The wait ends without a notification: it times out, or there is no reason. -/
  | wake (timedOut : Bool)
  /-- The deadline passes. -/
  | passes
  deriving DecidableEq, Repr

/-- `yoi_queue_impl_notify`.  A broadcast reaches the poller only while it waits. -/
def TimedPoller.notify (p : TimedPoller) : TimedPoller :=
  if p.pc = .waiting then { p with pc := .woken } else p

/-- A step of the poller of the queue `q`, `free` telling whether the queue's lock is free. -/
def Heap.timedPoll (multithread : Bool) (q : YoQueueT) (m : Heap) (free : Bool) (p : TimedPoller) :
    TimedAct → Option (Heap × TimedPoller)
  | .next =>
    match p.pc with
    | .pop =>
      if free then
        match m.yoiQueuePop q with
        | (m, some (r, code)) => some (m, { p with pc := .returned r code })
        | (m, none) =>
          if multithread then some (m, { p with pc := .empty })
          -- `yo_timecmp(yo_time(YO_CLOCK_MONO), *pdeadline) > 0`
          else if p.late then some (m, { p with pc := .timedOut })
          else some (m, p)
      else none
    | .empty => if free then some (m, { p with pc := .waiting }) else none
    | .waiting => none
    | .woken => if free then some (m, { p with pc := .pop }) else none
    | .returned .. | .timedOut => none
  | .call past => if p.pc.inCall then none else some (m, ⟨.pop, past⟩)
  | .wake timedOut =>
    if p.pc = .waiting then some (m, ⟨.woken, p.late || timedOut⟩) else none
  | .passes => some (m, { p with late := true })

/-- The fallback backend of the queue `q`, polled with a deadline. -/
def timedFallback (multithread : Bool) (q : YoQueueT) : Backend TimedPoller TimedAct where
  init p := p.pc = .pop
  notify := TimedPoller.notify
  poll := Heap.timedPoll multithread q

namespace Timewait

variable {ι : Type*} [DecidableEq ι]

/-- A run of the completing threads and the poller. -/
abbrev system (multithread : Bool) (q : YoQueueT) :
    System (Completing TimedPoller ι) (Completing.Act ι TimedAct) :=
  Completing.system q (timedFallback multithread q)

/-- The step is a pop of a call that is late, and finds the list empty. -/
def LateEmpty (q : YoQueueT) (s : Completing TimedPoller ι) (a : Completing.Act ι TimedAct) :
    Prop :=
  a = .poll .next ∧ s.poller.pc = .pop ∧ s.poller.late = true ∧ (s.mem.queue q).head = NULL

/-- The call returns `YO_ETIMEOUT` if a pop of it finds nothing when it is late. -/
def Timely (multithread : Bool) (q : YoQueueT) (s : Completing TimedPoller ι)
    (a : Completing.Act ι TimedAct) : Prop :=
  LateEmpty q s a → ∀ t, (system multithread q).step s a = some t → t.poller.pc = .timedOut

/-- One round of the loop: a wait that times out, and a pop. -/
def round : List (Completing.Act ι TimedAct) :=
  [.poll .next, .poll (.wake true), .poll .next, .poll .next]

variable {multithread : Bool} {q : YoQueueT} {s t u : Completing TimedPoller ι}
  {a : Completing.Act ι TimedAct} {as : List (Completing.Act ι TimedAct)}

/-- A pop that finds nothing. -/
theorem yoiQueuePop_of_head {m : Heap} (h : (m.queue q).head = NULL) :
    m.yoiQueuePop q = (m, none) := by
  simp [Heap.yoiQueuePop, h]

/-- What a late pop does that finds nothing, in each build. -/
theorem step_lateEmpty (h : LateEmpty q s a) (hst : (system multithread q).step s a = some t) :
    s.owner = none ∧
      t = { s with poller := ⟨if multithread then .empty else .timedOut, true⟩ } := by
  obtain ⟨rfl, hpc, hlate, hhead⟩ := h
  cases ho : s.owner with
  | some i =>
    simp [Completing.system, timedFallback, Heap.timedPoll, hpc, ho] at hst
  | none =>
    have hpoll : (timedFallback multithread q).poll s.mem s.owner.isNone s.poller .next =
        some (s.mem, ⟨if multithread then .empty else .timedOut, true⟩) := by
      cases multithread <;>
        simp [timedFallback, Heap.timedPoll, hpc, ho, hlate, yoiQueuePop_of_head hhead]
    simp only [Completing.system, hpoll, Option.map_some, Option.some.injEq] at hst
    exact ⟨rfl, by rw [← hst, ho]⟩

/-- **Without threads every call keeps its deadline.** -/
theorem single_timely : Timely false q s a := by
  intro h t hst
  obtain ⟨-, rfl⟩ := step_lateEmpty h hst
  rfl

/-- With threads a step does unless it is such a pop. -/
theorem multi_timely_iff (hst : (system true q).step s a = some t) :
    Timely true q s a ↔ ¬ LateEmpty q s a := by
  constructor
  · intro h hempty
    obtain ⟨-, rfl⟩ := step_lateEmpty hempty hst
    have hpc : TimedPc.empty = .timedOut := h hempty _ hst
    cases hpc
  · intro h hempty
    exact absurd hempty h

/-! ## Round and round -/

/-- The poller is in a call with an empty list, and nobody completes a request. -/
structure Alone (q : YoQueueT) (s : Completing TimedPoller ι) : Prop where
  inCall : s.poller.pc.inCall = true
  head : (s.mem.queue q).head = NULL
  owner : s.owner = none
  idle : ∀ i, s.pc i = none

/-- A step of the poller does not end the call. -/
theorem Alone.step (h : Alone q s) {b : TimedAct}
    (hst : (system true q).step s (.poll b) = some t) : Alone q t := by
  obtain ⟨⟨m, p⟩, hp, rfl⟩ := Option.map_eq_some_iff.mp hst
  have hkeep : m = s.mem ∧ p.pc.inCall = true := by
    have hin := h.inCall
    cases b with
    | next =>
      cases hpc : s.poller.pc with
      | pop | empty | woken =>
        simp [timedFallback, Heap.timedPoll, hpc, h.owner, yoiQueuePop_of_head h.head] at hp
        exact ⟨hp.1.symm, by rw [← hp.2]; rfl⟩
      | waiting | timedOut | returned r code =>
        simp [timedFallback, Heap.timedPoll, hpc] at hp
    | call past => simp [timedFallback, Heap.timedPoll, hin] at hp
    | wake timedOut =>
      simp [timedFallback, Heap.timedPoll] at hp
      exact ⟨hp.2.1.symm, by rw [← hp.2.2]; rfl⟩
    | passes =>
      simp [timedFallback, Heap.timedPoll] at hp
      exact ⟨hp.1.symm, by rw [← hp.2]; exact hin⟩
  obtain ⟨rfl, hin⟩ := hkeep
  exact ⟨hin, h.head, h.owner, h.idle⟩

/-- So no run without a completion does. -/
theorem Alone.run (h : Alone q s) (has : ∀ a ∈ as, ∃ b, a = .poll b)
    (hrun : (system true q).run s as = some u) : Alone q u := by
  have hall : (system true q).Along (fun _ a => ∃ b, a = .poll b) s as :=
    System.along_of_mem (fun a ha _ => has a ha) s
  refine hall.invariant (P := Alone q) ?_ h hrun
  rintro s a t hs ⟨b, rfl⟩ hst
  exact hs.step hst

/-- There is always another round. -/
theorem exists_round (h : Alone q s) (hpc : s.poller.pc = .empty) :
    ∃ t, (system true q).run s round = some t ∧ Alone q t ∧ t.poller.pc = .empty := by
  have hrun : (system true q).run s round =
      some { s with poller := ⟨.empty, true⟩ } := by
    simp [round, Completing.system, timedFallback, Heap.timedPoll, hpc, h.owner,
      yoiQueuePop_of_head h.head]
  exact ⟨_, hrun, ⟨rfl, h.head, h.owner, h.idle⟩, rfl⟩

/-- Hence any number of them. -/
theorem exists_rounds (h : Alone q s) (hpc : s.poller.pc = .empty) (n : ℕ) :
    ∃ t, (system true q).run s (List.replicate n round).flatten = some t := by
  induction n generalizing s with
  | zero => exact ⟨s, rfl⟩
  | succ n ih =>
    obtain ⟨t, hrun, ht, hpct⟩ := exists_round h hpc
    obtain ⟨u, hu⟩ := ih ht hpct
    refine ⟨u, ?_⟩
    rw [List.replicate_succ, List.flatten_cons, System.run_append, hrun]
    exact hu

/-- **The deadline of the fallback backend with threads.**  A run keeps the deadlines of its calls
if and only if no pop of a late call finds the list empty in it.  After one that does, with no
thread completing a request, no run without a completion ever returns from the call, and any
number of rounds of the loop is such a run. -/
theorem timely_iff :
    (∀ (s u : Completing TimedPoller ι) as, (system true q).init s →
      (system true q).run s as = some u →
        ((system true q).Along (Timely true q) s as ↔
          (system true q).Along (fun s a => ¬ LateEmpty q s a) s as)) ∧
      ∀ (s t : Completing TimedPoller ι) a, (system true q).Reachable s → LateEmpty q s a →
        (system true q).step s a = some t → (∀ i, t.pc i = none) →
          (∀ as u, (∀ a ∈ as, ∃ b, a = .poll b) → (system true q).run t as = some u →
            u.poller.pc.inCall = true) ∧
          ∀ n, ∃ u, (system true q).run t (List.replicate n round).flatten = some u := by
  constructor
  · intro s u as hs hrun
    exact System.along_congr (.init hs) (fun s a t _ hst => multi_timely_iff hst) hrun
  · intro s t a hs hempty hst hidle
    obtain ⟨ho, rfl⟩ := step_lateEmpty hempty hst
    have halone : Alone q { s with poller := ⟨TimedPc.empty, true⟩ } :=
      ⟨rfl, hempty.2.2.2, ho, hidle⟩
    exact ⟨fun as u has hrun => (halone.run has hrun).inCall, exists_rounds halone rfl⟩

/-! ## One request -/

/-- A request of the queue at `0x10`, a thread that may complete it, and a call with a deadline. -/
def oneCall : Completing TimedPoller Unit :=
  ⟨Heap.blank.yoReqNew 0x30 0x10, none, fun _ => none, ⟨.pop, false⟩⟩

theorem init_oneCall (multithread : Bool) : (system multithread 0x10).init oneCall :=
  ⟨rfl, fun _ => rfl, rfl⟩

/-- The wait times out, with what happens meanwhile. -/
def toLatePop (during : List (Completing.Act Unit TimedAct)) :
    List (Completing.Act Unit TimedAct) :=
  [.poll .next, .poll .next, .poll (.wake true)] ++ during ++ [.poll .next]

/-- The list is empty then, and the call does not return. -/
theorem not_timely_oneCall :
    ∃ u, (system true 0x10).run oneCall (toLatePop [] ++ [.poll .next]) = some u ∧
      ¬ (system true 0x10).Along (Timely true 0x10) oneCall (toLatePop [] ++ [.poll .next]) := by
  refine ⟨_, rfl, fun h => ?_⟩
  have hlast := (((h.2 _ rfl).2 _ rfl).2 _ rfl).2 _ rfl
  have hpc : TimedPc.empty = .timedOut := hlast.1 ⟨rfl, rfl, rfl, rfl⟩ _ rfl
  cases hpc

/-- Where the request is completed meanwhile, the call returns it.  Where it is not, the call can go
round any number of times. -/
theorem timely_iff_oneCall :
    (system true 0x10).Along (Timely true 0x10) oneCall
        (toLatePop [.enter () 0x30 .ok, .proceed (), .proceed (), .proceed (), .proceed ()] ++
          [.poll .next]) ∧
      ∃ s t, (system true 0x10).run oneCall (toLatePop []) = some s ∧
        (system true 0x10).step s (.poll .next) = some t ∧
          ∀ n, ∃ u, (system true 0x10).run t (List.replicate n round).flatten = some u := by
  constructor
  · apply ((timely_iff (q := 0x10)).1 oneCall _ _ (init_oneCall true) rfl).mpr
    -- the call is not late at first, and stands behind the wait until the last step
    iterate 3
      refine ⟨fun h => absurd h.2.2.1 (by decide), fun _ h => ?_⟩
      cases h
    iterate 6
      refine ⟨fun h => absurd h.2.1 (by decide), fun _ h => ?_⟩
      cases h
    exact ⟨fun h => absurd h.2.2.2 (by decide), fun _ _ => trivial⟩
  · have hrun : (system true 0x10).run oneCall (toLatePop []) = some _ := rfl
    refine ⟨_, _, rfl, rfl, ?_⟩
    exact (timely_iff.2 _ _ (.poll .next) (System.reachable_of_run (init_oneCall true) hrun)
      ⟨rfl, rfl, rfl, rfl⟩ rfl fun _ => rfl).2

end Timewait

end Yaooi
