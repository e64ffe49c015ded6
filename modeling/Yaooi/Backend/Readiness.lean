import Yaooi.Backend.Polling
import Yaooi.Queue.Names

/-!
# What readiness a request is performed for

When the OS reports a descriptor, `yoi_pl_impl_poll` of each backend derives from the reported
flags the directions that are ready, and `yo_queue_poll` performs the request that waits longest in
front for one of them.  An operation that the descriptor is not ready for blocks the thread that
polls.

* On the poll backend no request is performed that the readiness did not announce.
* The epoll backend asks for `EPOLLRDHUP` with every registration and takes it for both directions,
  though a peer that has only shut down its own writing side says nothing about ours.
  `performsAnnounced_iff` says exactly when that goes wrong; `not_performsAnnounced_oneWrite` is
  the case of a write that waits for room while the peer is half closed.
-/

namespace Yaooi

open Transition

/-! ## Readiness -/

namespace OsCond

/-- An operation of the direction may be performed: the descriptor is readable or half closed, or
writable, or it is in error or hung up. -/
def announces (c : OsCond) (dir : YoiPlEvnMask) : Bool :=
  (dir.readable && (c.input || c.rdhup)) || (dir.writable && c.output) || c.error || c.hangup

/-- The peer has shut down its writing side, and nothing else lets a write go on. -/
def halfClosed (c : OsCond) : Bool := c.rdhup && !c.output && !c.error && !c.hangup

variable {c : OsCond} {mask dir : YoiPlEvnMask}

/-- The poll backend concludes only what is announced. -/
theorem announces_of_revents (h : dir.meets (c.revents mask).toMask = true) :
    c.announces dir = true := by
  simp only [YoiPlEvnMask.meets, toMask, revents, announces, Bool.false_or, Bool.or_eq_true,
    Bool.and_eq_true] at h ⊢
  tauto

/-- So does the epoll backend, except that it takes a half-closed peer for room to write. -/
theorem announces_of_epollEvents (h : dir.meets (c.epollEvents mask).toMask = true)
    (hclosed : c.halfClosed = true → dir.writable = false) : c.announces dir = true := by
  have hroom : dir.writable = true → c.rdhup = true →
      c.output = true ∨ c.error = true ∨ c.hangup = true := by
    intro hw hr
    by_contra hno
    push Not at hno
    rw [hclosed (by simp [halfClosed, hr, hno])] at hw
    cases hw
  simp only [YoiPlEvnMask.meets, toMask, epollEvents, announces, Bool.or_eq_true,
    Bool.and_eq_true] at h ⊢
  tauto

/-- It reports both directions then. -/
theorem toMask_of_rdhup (h : c.rdhup = true) : (c.epollEvents mask).toMask = ⟨true, true⟩ := by
  simp [toMask, epollEvents, h]

end OsCond

/-- Every operation that a call of `yo_queue_poll` over the backend `impl` performs on a handle,
while the descriptors are in the condition `os`, is announced by the condition of the handle's
descriptor. -/
def PerformsAnnounced (impl : Look → Option OsPoll) (m : Heap) (q : YoQueueT)
    (os : Int → OsCond) : Prop :=
  ∀ (rounds : List (Look × PollEnv)) (m' : Heap) (r : YoReqT) (code : YoCode) (call : SyncCall),
    (∀ p ∈ rounds, p.1.os = os ∧ impl p.1 = some p.2.poll) →
      m.yoQueuePoll q (rounds.map Prod.snd) = some (m', .returned r code (some call)) →
        (os (m.fd call.fd).fd).announces (yoiPlTomask call.op.kind) = true

/-! ## What the backends report -/

variable {q : YoQueueT} {os : Int → OsCond} {look : Look} {deadline timer : Option YoTime}
  {u : Ptr} {mask : YoiPlEvnMask}

/-- An event of the epoll backend is one of an entry. -/
theorem epollPoll_event {timerFd : BitVec 32} {interest : Interest}
    (h : epollPoll timerFd interest timer deadline look = some (.event u mask)) :
    ∃ fd e, interest fd = some e ∧ e.udata = u ∧ u.setWidth 32 ≠ timerFd ∧
      mask = ((look.os fd).epollEvents e.mask).toMask := by
  unfold epollPoll at h
  split at h
  · cases h
  · dsimp only at h
    split at h
    · cases h
    · rename_i data evn hwait
      split at h
      · split at h <;> cases h
      · rename_i hdata
        cases h
        unfold epollWait at hwait
        split at hwait
        · split at hwait
          · split at hwait <;> cases hwait
            simp at hdata
          · cases hwait
        · rename_i fd hpick
          split at hwait
          · rename_i e he
            dsimp only at hwait
            split at hwait <;> cases hwait
            exact ⟨fd, e, he, rfl, hdata, rfl⟩
          · cases hwait

/-- An event of the poll backend is one of a node. -/
theorem pollPoll_event {linux : Bool} {l : PollNodes}
    (h : pollPoll linux l deadline look = some (.event u mask)) :
    ∃ i ∈ l.nodes, i.udata = u ∧ mask = ((look.os i.fd).revents i.evn).toMask := by
  unfold pollPoll at h
  split at h
  · cases h
  · dsimp only at h
    obtain ⟨n, -, h⟩ := Option.map_eq_some_iff.mp h
    split at h
    · rename_i i evn hfind
      cases h
      obtain ⟨k, hk, hp⟩ := List.mem_map.mp (List.mem_of_find?_eq_some hfind)
      cases hp
      exact ⟨i, hk, rfl, rfl⟩
    · cases h

/-! ## What a call performs -/

/-- A call that performs an operation does so in one of its rounds. -/
theorem Heap.yoQueuePoll_returned {m m' : Heap} {envs : List PollEnv} {r : YoReqT} {code : YoCode}
    {ran : Option SyncCall} (h : m.yoQueuePoll q envs = some (m', .returned r code ran)) :
    ∃ env ∈ envs, m.yoQueuePollRound q env = some (m', .returned r code ran) := by
  induction envs with
  | nil => cases h
  | cons env envs ih =>
    unfold yoQueuePoll at h
    split at h
    · rename_i m₁ hround
      obtain rfl := yoQueuePollRound_again hround
      obtain ⟨e, he, hret⟩ := ih h
      exact ⟨e, List.mem_cons_of_mem _ he, hret⟩
    · exact ⟨env, List.mem_cons_self .., h⟩

section

variable {s : Conf Heap}

/-- A round that performs an operation was told of its handle, found the ready list empty, and took
the first request of the handle in a reported direction. -/
theorem performed {env : PollEnv} {m' : Heap} {r : YoReqT} {code : YoCode} {call : SyncCall}
    (h : Heap.system.Reachable s) (ha : Attached q s)
    (hev : ∀ g mask, env.poll = .event g mask → g ≠ NULL →
      ∃ fd e, (s.mem.queue q).reg fd = some e ∧ e.udata = g)
    (hround : s.mem.yoQueuePollRound q env = some (m', .returned r code (some call))) :
    ∃ mask l, env.poll = .event call.fd mask ∧ call.fd ≠ NULL ∧ (s.mem.queue q).head = NULL ∧
      s.mem.handleList call.fd = some l ∧
        l.find? (fun r => (s.mem.dir r).meets mask) = some r ∧
          s.mem.dir r = yoiPlTomask call.op.kind := by
  obtain ⟨b, -, hR, pos, hp⟩ := refines_of_reachable h
  have hopen : ∀ g mask, env.poll = .event g mask → g ≠ NULL → s.ledger.opened g = true := by
    intro g mask hg hne
    obtain ⟨fd, e, he, rfl⟩ := hev g mask hg hne
    exact (ha fd e he hne).1
  obtain ⟨x, c, l, m₁, -, hret⟩ | ⟨g, mask, x, m₁, hready, hpoll, hne, ho, hpick, hret⟩ |
    ⟨m₁, step, hret, hstep⟩ := hR.round_cases (q := q) env hopen
  all_goals rw [hround, Option.some.injEq, Prod.mk.injEq] at hret
  · exact absurd hret.2 (by simp)
  · obtain ⟨-, hret⟩ := hret
    obtain ⟨rfl, -, hcall⟩ := PollStep.returned.inj hret
    obtain rfl := Option.some.inj hcall
    have hdir : ∀ y ∈ b.pend g, s.mem.dir y = b.dir y := fun y hy => (hR.waits g y ho hy).dir
    refine ⟨mask, b.pend g, hpoll, hne, ?_, hR.handleList ho, ?_, hdir r ?_⟩
    · have hempty : s.mem.Ready q [] := hready ▸ hR.ready q
      exact hempty.1
    · rw [← hpick, Board.pick]
      exact List.find?_congr fun y hy => by rw [hdir y hy]
    · exact List.mem_of_find?_eq_some hpick
  · exact absurd hret.2.symm (hstep r code (some call))

/-- **The poll backend performs only what is announced.** -/
theorem performsAnnounced_poll (h : Heap.system.Reachable s) (ha : Attached q s) (linux : Bool)
    (l : PollNodes) (hl : l.Within (s.mem.queue q).reg) :
    PerformsAnnounced (pollPoll linux l deadline) s.mem q os := by
  intro rounds m' r code call himpl hcall
  obtain ⟨env, henv, hround⟩ := Heap.yoQueuePoll_returned hcall
  obtain ⟨p, hp, rfl⟩ := List.mem_map.mp henv
  obtain ⟨hos, hpoll⟩ := himpl p hp
  have hevent : ∀ g mask, p.2.poll = .event g mask → ∃ fd e, (s.mem.queue q).reg fd = some e ∧
      e.udata = g ∧ mask = ((os fd).revents e.mask).toMask := by
    intro g mask hg
    obtain ⟨i, hi, hu, hmask⟩ := pollPoll_event (hpoll.trans (congrArg some hg))
    exact ⟨i.fd, _, hl i hi, hu, hos ▸ hmask⟩
  obtain ⟨mask, l', hg, hne, -, -, hfind, hdir⟩ := performed h ha (fun g mask hg _ => by
    obtain ⟨fd, e, he, hu, -⟩ := hevent g mask hg
    exact ⟨fd, e, he, hu⟩) hround
  obtain ⟨fd, e, he, hu, rfl⟩ := hevent _ _ hg
  rw [← hu, (ha fd e he (hu ▸ hne)).2, ← hdir]
  exact OsCond.announces_of_revents (by simpa using List.find?_some hfind)

/-- No write is in front on a handle whose peer is half closed, unless the backend takes the handle
for its timer. -/
def NoWriteInFront (timerFd : BitVec 32) (q : YoQueueT) (s : Conf Heap) (os : Int → OsCond) :
    Prop :=
  ∀ fd e, (s.mem.queue q).reg fd = some e → e.udata ≠ NULL → e.udata.setWidth 32 ≠ timerFd →
    (os fd).halfClosed = true → ∀ r l, s.mem.handleList e.udata = some (r :: l) →
      (s.mem.dir r).writable = false

/-- Every request waits for one of the two directions. -/
theorem meets_both (kind : YoiPlKind) : (yoiPlTomask kind).meets ⟨true, true⟩ = true := by
  cases kind <;> rfl

/-- Then the epoll backend performs only what is announced. -/
theorem performsAnnounced_epoll {timerFd : BitVec 32} (h : Heap.system.Reachable s)
    (ha : Attached q s) (hfront : (s.mem.queue q).head = NULL → NoWriteInFront timerFd q s os) :
    PerformsAnnounced (epollPoll timerFd (s.mem.queue q).reg timer deadline) s.mem q os := by
  intro rounds m' r code call himpl hcall
  obtain ⟨env, henv, hround⟩ := Heap.yoQueuePoll_returned hcall
  obtain ⟨p, hp, rfl⟩ := List.mem_map.mp henv
  obtain ⟨hos, hpoll⟩ := himpl p hp
  have hevent : ∀ g mask, p.2.poll = .event g mask → ∃ fd e, (s.mem.queue q).reg fd = some e ∧
      e.udata = g ∧ g.setWidth 32 ≠ timerFd ∧ mask = ((os fd).epollEvents e.mask).toMask :=
    fun g mask hg => by
      rw [← hos]
      exact epollPoll_event (hpoll.trans (congrArg some hg))
  obtain ⟨mask, l, hg, hne, hhead, hlist, hfind, hdir⟩ := performed h ha (fun g mask hg _ => by
    obtain ⟨fd, e, he, hu, -⟩ := hevent g mask hg
    exact ⟨fd, e, he, hu⟩) hround
  obtain ⟨fd, e, he, hu, htimer, rfl⟩ := hevent _ _ hg
  rw [← hu] at hne htimer hlist
  rw [← hu, (ha fd e he hne).2, ← hdir]
  refine OsCond.announces_of_epollEvents (by simpa using List.find?_some hfind) fun hclosed => ?_
  -- both directions are reported, so the request is the first of the list
  have hrd : (os fd).rdhup = true := by
    simp only [OsCond.halfClosed, Bool.and_eq_true] at hclosed
    exact hclosed.1.1.1
  rw [OsCond.toMask_of_rdhup hrd] at hfind
  cases l with
  | nil => cases hfind
  | cons x l =>
    have hfirst : (x :: l).find? (fun r => (s.mem.dir r).meets ⟨true, true⟩) = some x :=
      List.find?_cons_of_pos (meets_both _)
    rw [hfirst] at hfind
    obtain rfl := Option.some.inj hfind
    exact hfront hhead fd e he hne htimer hclosed x l hlist

/-- And only then. -/
theorem noWriteInFront_of_performs {timerFd : BitVec 32} (h : Heap.system.Reachable s)
    (ha : Attached q s) (hhead : (s.mem.queue q).head = NULL)
    (hperf : PerformsAnnounced (epollPoll timerFd (s.mem.queue q).reg timer deadline) s.mem q os) :
    NoWriteInFront timerFd q s os := by
  intro fd e he hne htimer hclosed r l hlist
  obtain ⟨b, -, hR, pos, hp⟩ := refines_of_reachable h
  obtain ⟨ho, hnum⟩ := ha fd e he hne
  have hclosed' := hclosed
  simp only [OsCond.halfClosed, Bool.and_eq_true, Bool.not_eq_true'] at hclosed'
  obtain ⟨⟨⟨hrd, hout⟩, herror⟩, hhang⟩ := hclosed'
  have hready : b.ready q = [] := by
    have hlist := hR.ready q
    cases hq : b.ready q with
    | nil => rfl
    | cons p t =>
      rw [hq] at hlist
      obtain ⟨⟨hfirst, hnull, -⟩, -⟩ := hlist
      exact absurd (hfirst.symm.trans hhead) hnull
  have hpend : b.pend e.udata = r :: l := Option.some.inj ((hR.handleList ho).symm.trans hlist)
  have hdir : s.mem.dir r = b.dir r := (hR.waits e.udata r ho (by simp [hpend])).dir
  -- the descriptor is reported before the deadline
  let now := deadline.getD ⟨0, 0⟩
  let env : PollEnv := ⟨.event e.udata ⟨true, true⟩, .ok, .ok⟩
  have himpl : epollPoll timerFd (s.mem.queue q).reg timer deadline ⟨now, now, os, some fd, false⟩ =
      some env.poll := by
    have hlate : epollLate deadline now = false := by
      cases deadline with
      | none => rfl
      | some d => simp [epollLate, now, yoTimecmp]
    have hany : ((os fd).epollEvents e.mask).any = true := by
      simp [OsCond.any, OsCond.epollEvents, hrd]
    simp [epollPoll, hlate, epollWait, he, hany, htimer, OsCond.toMask_of_rdhup hrd, env]
  have hpick : b.pick e.udata ⟨true, true⟩ = some r := by
    rw [Board.pick, hpend]
    exact List.find?_cons_of_pos (meets_both _)
  obtain ⟨m', hround, -⟩ := hR.round (q := q) env fun g mask hg _ => by cases hg; exact ho
  have hstep : (b.round q env).2 = .returned r .ok (some ⟨e.udata, b.op r⟩) := by
    simp [Board.round, hready, env, hne, hpick]
  have hann := hperf [(⟨now, now, os, some fd, false⟩, env)] m' r .ok ⟨e.udata, b.op r⟩
    (by simpa using himpl) (by simp [Heap.yoQueuePoll, hround, hstep])
  rw [hnum] at hann
  rw [hdir, Board.dir]
  cases hk : (b.op r).kind <;>
    simp [hk, OsCond.announces, yoiPlTomask, hout, herror, hhang] at hann ⊢

/-- **What readiness a request is performed for.**  In every state that a run leads to, as long as
each registration in the name of a handle is one of an open handle for its own descriptor, as it is
on one queue with a backend that registers what it is asked to: on the poll backend, where every
node is such a registration and none need be that of a notify pipe, `yo_queue_poll` performs only
what the readiness of the descriptors announces, whatever it is.  On the epoll backend it does so if
and only if the ready list is not empty or no write is in front on a handle whose peer is half
closed. -/
theorem performsAnnounced_iff :
    (∀ s, Heap.system.Reach (fun _ c => SharedQueue q c) s → Attached q s) ∧
      ∀ s, Heap.system.Reachable s → Attached q s →
        (∀ linux (l : PollNodes), l.Within (s.mem.queue q).reg →
          PerformsAnnounced (pollPoll linux l deadline) s.mem q os) ∧
        ∀ timerFd, PerformsAnnounced (epollPoll timerFd (s.mem.queue q).reg timer deadline) s.mem q
            os ↔
          (s.mem.queue q).head ≠ NULL ∨ NoWriteInFront timerFd q s os := by
  refine ⟨fun s => attached_of_reach, fun s h ha => ⟨fun linux l hl => ?_, fun timerFd => ⟨?_, ?_⟩⟩⟩
  · exact performsAnnounced_poll h ha linux l hl
  · intro hperf
    by_cases hhead : (s.mem.queue q).head = NULL
    · exact .inr (noWriteInFront_of_performs h ha hhead hperf)
    · exact .inl hhead
  · rintro (hhead | hfront)
    · exact performsAnnounced_epoll h ha fun hnull => absurd hnull hhead
    · exact performsAnnounced_epoll h ha fun _ => hfront

end

/-! ## A write to a half-closed peer -/

/-- A write is pending on descriptor 4. -/
def oneWrite : List Call :=
  [.reqNew 0x30 0x10, .fdNew 0x20 4 true, .start 0x30 0x20 (.write 0x700 0x708) .ok .ok]

/-- The peer of descriptor 4 has shut down its writing side; there may be room to write. -/
def shutDown (room : Bool) (fd : Int) : OsCond :=
  ⟨false, room && fd = 4, fd = 4, false, false, false⟩

/-- It is a run on one queue. -/
theorem reach_oneWrite :
    Heap.system.Reach (fun _ c => SharedQueue 0x10 c) (Heap.afterCalls oneWrite) :=
  System.reach_of_run (.init Heap.init_start)
    (System.along_of_mem (by simp [oneWrite, SharedQueue]) _)
    (Heap.run_afterCalls (by decide +kernel))

/-- The write is performed although there is no room for it. -/
theorem not_performsAnnounced_oneWrite :
    Heap.system.Reach (fun _ c => SharedQueue 0x10 c) (Heap.afterCalls oneWrite) ∧
      ¬ PerformsAnnounced
        (epollPoll 5 ((Heap.afterCalls oneWrite).mem.queue 0x10).reg none none)
        (Heap.afterCalls oneWrite).mem 0x10 (shutDown false) := by
  refine ⟨reach_oneWrite, fun h => ?_⟩
  let env : PollEnv := ⟨.event 0x20 ⟨true, true⟩, .ok, .ok⟩
  have hround : ((Heap.afterCalls oneWrite).mem.yoQueuePoll 0x10 [env]).map Prod.snd =
      some (.returned 0x30 .ok (some ⟨0x20, .write 0x700 0x708⟩)) := by decide +kernel
  obtain ⟨⟨m', step⟩, hpoll, rfl⟩ := Option.map_eq_some_iff.mp hround
  let look : Look := ⟨⟨7, 0⟩, ⟨7, 0⟩, shutDown false, some 4, false⟩
  have himpl : epollPoll 5 ((Heap.afterCalls oneWrite).mem.queue 0x10).reg none none look =
      some env.poll := by decide +kernel
  have hann := h [(look, env)] m' _ _ _ (fun p hp => by
    rw [List.mem_singleton.mp hp]
    exact ⟨rfl, himpl⟩) hpoll
  exact absurd hann (by decide +kernel)

/-- With room to write the epoll backend is right, and the poll backend is right without. -/
theorem performsAnnounced_oneWrite :
    let s := Heap.afterCalls oneWrite
    PerformsAnnounced (epollPoll 5 (s.mem.queue 0x10).reg none none) s.mem 0x10 (shutDown true) ∧
      ∀ l : PollNodes, l.Within (s.mem.queue 0x10).reg →
        PerformsAnnounced (pollPoll true l none) s.mem 0x10 (shutDown false) := by
  have hattached : Attached 0x10 (Heap.afterCalls oneWrite) :=
    (@performsAnnounced_iff 0x10 (shutDown true) none none).1 _ reach_oneWrite
  refine ⟨(((@performsAnnounced_iff 0x10 (shutDown true) none none).2 _ reach_oneWrite.reachable
    hattached).2 5).mpr (.inr ?_), ((@performsAnnounced_iff 0x10 (shutDown false) none none).2 _
      reach_oneWrite.reachable hattached).1 true⟩
  intro fd e he hne htimer hclosed
  by_cases hfd : fd = 4 <;> simp [shutDown, OsCond.halfClosed, hfd] at hclosed

end Yaooi
