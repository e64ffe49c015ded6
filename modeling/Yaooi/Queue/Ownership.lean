import Yaooi.Queue.Refine

/-!
# Whose request a poll returns

A queue's ready list holds its own requests only, but the list of a handle is shared by the
requests of all queues.  An event of one queue goes to the latest request on the list that
waits for a reported direction, whichever queue it was made for.

`returnsOwn_iff` is the exact condition: along a run every poll returns a request of
its queue if and only if, whenever it gets to an event, the request in front on the list is
one of its queue (`OwnInFront`).
-/

namespace Yaooi

open Transition

/-- What a round of polling returns was created for the polled queue. -/
def ReturnsOwn (s : Conf Heap) : Call → Prop
  | .poll q env => ∀ m r code ran,
      s.mem.yoQueuePollRound q env = some (m, .returned r code ran) → (s.mem.req r).queue = q
  | _ => True

/-- When the ready list of the polled queue is empty and a handle has an event, the first
request on the handle's list that waits for a reported direction was created for the polled
queue. -/
def OwnInFront (s : Conf Heap) : Call → Prop
  | .poll q env => ∀ h mask l r l', s.mem.readyList q = some [] → env.poll = .event h mask →
      h ≠ NULL → s.mem.handleList h = some (l ++ r :: l') →
        (∀ x ∈ l, (yoiPlTomask (s.mem.req x).ioq.kind).meets mask = false) →
          (yoiPlTomask (s.mem.req r).ioq.kind).meets mask = true → (s.mem.req r).queue = q
  | _ => True

variable {s t : Conf Heap} {c : Call}

/-- A single step returns its queue's request exactly when that request is in front. -/
theorem returnsOwn_step (h : Heap.system.Reachable s) (hc : c.allowed s.ledger = true) :
    ReturnsOwn s c ↔ OwnInFront s c := by
  obtain ⟨b, -, hR, place, hp⟩ := refines_of_reachable h
  cases c with
  | poll q env =>
    have hopen : ∀ g mask, env.poll = .event g mask → g ≠ NULL → s.ledger.opened g = true :=
      fun g mask => Board.Placed.opened_of_event hc
    have hdir : ∀ g x, s.ledger.opened g = true → x ∈ b.pend g →
        yoiPlTomask (s.mem.req x).ioq.kind = b.dir x := by
      intro g x hg hx
      rw [(hR.waits g x hg hx).kind, Board.dir]
    constructor
    · intro hown g mask l r l' hready hev hg hlist hfront hr
      have ho := hopen g mask hev hg
      rw [hR.readyList, Option.some.injEq] at hready
      rw [hR.handleList ho, Option.some.injEq] at hlist
      have hpick : b.pick g mask = some r := by
        refine List.find?_eq_some_iff_append.mpr ⟨?_, l, l', hlist, fun x hx => ?_⟩
        · rw [← hdir g r ho (by simp [hlist])]
          exact hr
        · rw [← hdir g x ho (by simp [hlist, hx]), hfront x hx]
          rfl
      obtain ⟨m', hround, -⟩ := hR.round (q := q) env hopen
      refine hown m' r env.res (some ⟨g, b.op r⟩) ?_
      rw [hround]
      simp [Board.round, hready, hev, hg, hpick]
    · intro hfront m r code ran hret
      obtain ⟨x, c, l, m', hready, hround⟩ | ⟨g, mask, x, m', hready, hev, hg, ho, hpick, hround⟩ |
        ⟨m', st, hround, hst⟩ := hR.round_cases (q := q) env hopen
      all_goals
        rw [hround, Option.some.injEq, Prod.mk.injEq] at hret
        obtain ⟨-, hret⟩ := hret
      · obtain rfl : x = r := (PollStep.returned.inj hret).1
        rw [hR.queueOf]
        exact hp.queue q x ((hp.ready q x).mp (by simp [hready]))
      · obtain rfl : x = r := (PollStep.returned.inj hret).1
        obtain ⟨hx, l, l', hlist, hl⟩ := List.find?_eq_some_iff_append.mp hpick
        refine hfront g mask l x l' (by rw [hR.readyList, hready]) hev hg
          (by rw [hR.handleList ho, hlist]) ?_ ?_
        · intro y hy
          rw [hdir g y ho (by simp [hlist, hy])]
          simpa using hl y hy
        · rw [hdir g x ho (by simp [hlist])]
          exact hx
      · exact absurd hret (hst r code ran)
  | _ => exact Iff.rfl

/-- **Whose request a poll returns.**  Along every run, all polls return requests of the
polled queue if and only if, at every event a poll gets to, the request in front in a
reported direction is one of the polled queue. -/
theorem returnsOwn_iff {cs : List Call} (h : Heap.system.init s)
    (hrun : Heap.system.run s cs = some t) :
    Heap.system.Along ReturnsOwn s cs ↔ Heap.system.Along OwnInFront s cs :=
  System.along_congr (.init h)
    (fun _ _ _ hs hstep => returnsOwn_step hs (calls_step hstep).1) hrun

/-- Two queues, `0x10` and `0x18`, have a read waiting on the same handle. -/
def twoQueues : List Call :=
  [.reqNew 0x30 0x10, .reqNew 0x40 0x18, .fdNew 0x20 5 true,
    .start 0x30 0x20 (.read 0x700 0x708) .ok .ok, .start 0x40 0x20 (.read 0x710 0x718) .ok .ok]

/-- The descriptor becomes readable. -/
def readIn : PollEnv := ⟨.event 0x20 ⟨true, false⟩, .ok, .ok⟩

/-- It is what waits in front that counts. -/
theorem ownInFront_of_head {q : YoQueueT} {env : PollEnv} {h : YoFdT} {mask : YoiPlEvnMask}
    {r : YoReqT} {rest : List YoReqT} (hev : env.poll = .event h mask)
    (hlist : s.mem.handleList h = some (r :: rest))
    (hmeets : (yoiPlTomask (s.mem.req r).ioq.kind).meets mask = true)
    (hqueue : (s.mem.req r).queue = q) : OwnInFront s (.poll q env) := by
  intro g mask' l x l' _ hev' _ hlist' hfront _
  obtain ⟨rfl, rfl⟩ := OsPoll.event.inj (hev.symm.trans hev')
  rw [hlist, Option.some.injEq] at hlist'
  cases l with
  | nil => exact (List.cons.inj hlist').1 ▸ hqueue
  | cons y l =>
    have hfirst := hfront y (List.mem_cons_self ..)
    rw [← (List.cons.inj hlist').1, hmeets] at hfirst
    cases hfirst

/-- Both queues are polled, that of the read in front first. -/
theorem returnsOwn_inTurn :
    Heap.system.Along ReturnsOwn Heap.start
        (twoQueues ++ [.poll 0x18 readIn, .poll 0x10 readIn]) ∧
      ((Heap.afterCalls twoQueues).mem.yoQueuePollRound 0x18 readIn).map Prod.snd =
        some (.returned 0x40 .ok (some ⟨0x20, .read 0x710 0x718⟩)) ∧
      ((Heap.afterCalls (twoQueues ++ [.poll 0x18 readIn])).mem.yoQueuePollRound 0x10
        readIn).map Prod.snd = some (.returned 0x30 .ok (some ⟨0x20, .read 0x700 0x708⟩)) := by
  refine ⟨(returnsOwn_iff Heap.init_start (Heap.run_afterCalls (by decide +kernel))).mpr ?_,
    by decide +kernel, by decide +kernel⟩
  refine System.along_append (System.along_of_mem (fun c hc s => ?_) _) fun s hs => ⟨?_, ?_⟩
  · simp only [twoQueues, List.mem_cons, List.not_mem_nil, or_false] at hc
    rcases hc with rfl | rfl | rfl | rfl | rfl <;> trivial
  · obtain rfl : Heap.afterCalls twoQueues = s := by rw [Heap.afterCalls, hs, Option.getD_some]
    have hlist : (Heap.afterCalls twoQueues).mem.handleList 0x20 = some [0x40, 0x30] := by
      decide +kernel
    exact ownInFront_of_head rfl hlist (by decide +kernel) (by decide +kernel)
  · intro t ht
    have hrun : Heap.system.run Heap.start (twoQueues ++ [.poll 0x18 readIn]) = some t := by
      rw [System.run_append, hs]
      exact (Option.bind_some ..).trans (by rw [System.run_cons, ht]; rfl)
    obtain rfl : Heap.afterCalls (twoQueues ++ [.poll 0x18 readIn]) = t := by
      rw [Heap.afterCalls, hrun, Option.getD_some]
    have hlist : (Heap.afterCalls (twoQueues ++ [.poll 0x18 readIn])).mem.handleList 0x20 =
        some [0x30] := by decide +kernel
    exact ⟨ownInFront_of_head rfl hlist (by decide +kernel) (by decide +kernel),
      fun _ _ => trivial⟩

/-- The descriptor becomes readable: polling `0x10` performs and returns the read of
`0x18`. -/
theorem not_returnsOwn_twoQueues :
    let s := Heap.afterCalls twoQueues
    let poll := Call.poll 0x10 ⟨.event 0x20 ⟨true, false⟩, .ok, .ok⟩
    Heap.system.Reachable s ∧ poll.allowed s.ledger = true ∧
      (s.mem.queue 0x10).reg 5 = some ⟨⟨true, false⟩, 0x20⟩ ∧
      (s.mem.yoQueuePollRound 0x10 ⟨.event 0x20 ⟨true, false⟩, .ok, .ok⟩).map Prod.snd =
        some (.returned 0x40 .ok (some ⟨0x20, .read 0x710 0x718⟩)) ∧
      (s.mem.req 0x40).queue = 0x18 ∧ ¬ ReturnsOwn s poll := by
  have hround : ((Heap.afterCalls twoQueues).mem.yoQueuePollRound 0x10
      ⟨.event 0x20 ⟨true, false⟩, .ok, .ok⟩).map Prod.snd =
        some (.returned 0x40 .ok (some ⟨0x20, .read 0x710 0x718⟩)) := by decide +kernel
  have hqueue : ((Heap.afterCalls twoQueues).mem.req 0x40).queue = 0x18 := by decide +kernel
  refine ⟨Heap.reachable_afterCalls twoQueues, by decide +kernel, by decide +kernel, hround,
    hqueue, ?_⟩
  intro hown
  obtain ⟨⟨m, step⟩, hret, rfl⟩ := Option.map_eq_some_iff.mp hround
  exact absurd ((hown m _ _ _ hret).symm.trans hqueue) (by decide)

end Yaooi
