import Yaooi.Backend.Served

/-!
# A queue served by poll

The program of `Yaooi.Backend.Served`, over `src/unix/poll.c`: the registrations are a list of
nodes, in front of which `yoi_pl_impl_setmask` puts the new ones, and what `yo_queue_poll` is told
is the first node with something to report.  The list starts empty: `yoi_queue_impl_init` of this
backend makes no notify pipe.

* `Heap.setmasks`: which calls of `yoi_pl_impl_setmask` a call makes.
* `PollServed.runs_served`: what such a program does, it may do over epoll as well.
* `PollServed.front_served`: the node in front is served as long as its request is started again.
-/

namespace Yaooi

open Transition

/-! ## The calls of `yoi_pl_impl_setmask` -/

/-- A call of `yoi_pl_impl_setmask`. -/
structure SetmaskCall where
  udata : Ptr
  fd : Int
  mask : YoiPlEvnMask

/-- The calls of `yoi_pl_impl_setmask` that are made in a call with this outcome: by
`_yoi_pl_req_start`, by `_yoi_pl_req_stop`, and in the loop of `yoi_unix_onclose`. -/
def Heap.setmasks (m : Heap) (c : Call) (out : Outcome) : List SetmaskCall :=
  match c, out with
  | .start _ h op _ _, .started true _ _ => [⟨h, (m.fd h).fd, ((m.fd h).inc op.kind).mask⟩]
  | .poll .., .polled (.returned _ _ (some call)) =>
    [⟨call.fd, (m.fd call.fd).fd, ((m.fd call.fd).dec call.op.kind).mask⟩]
  | .close h _, _ => ((m.handleList h).getD []).map fun _ => ⟨NULL, (m.fd h).fd, .zero⟩
  | _, _ => []

/-- What they make of the registrations, if none is refused. -/
def registerAll (reg : Int → Option Registration) (l : List SetmaskCall) :
    Int → Option Registration :=
  l.foldl (fun reg k => register reg k.fd k.mask k.udata .ok) reg

/-- What they make of the list of nodes, if there is memory. -/
def PollNodes.setmaskAll (l : PollNodes) (ks : List SetmaskCall) : PollNodes :=
  ks.foldl (fun l k => (l.setmask k.udata k.fd k.mask false).1) l

/-- With memory every call is answered with `YO_OK`. -/
theorem PollNodes.setmask_ok (l : PollNodes) (u : Ptr) (fd : Int) (mask : YoiPlEvnMask) :
    (l.setmask u fd mask false).2 = .ok := by
  unfold setmask
  split
  · rfl
  · split <;> rfl

/-- The list keeps the registrations. -/
theorem PollNodes.reg_setmaskAll (l : PollNodes) (ks : List SetmaskCall) :
    (l.setmaskAll ks).reg = registerAll l.reg ks := by
  induction ks generalizing l with
  | nil => rfl
  | cons k ks ih =>
    show ((l.setmask k.udata k.fd k.mask false).1.setmaskAll ks).reg = _
    rw [ih, reg_setmask, setmask_ok]
    rfl

/-- The registrations of the handles: their user data is not null. -/
def named (reg : Int → Option Registration) (fd : Int) : Option Registration :=
  (reg fd).filter fun e => e.udata ≠ NULL

/-- Calls for handles change the registrations of the handles only. -/
theorem named_registerAll {reg : Int → Option Registration} {l : List SetmaskCall}
    (h : ∀ k ∈ l, k.mask = .zero ∨ k.udata ≠ NULL) :
    named (registerAll reg l) = registerAll (named reg) l := by
  induction l generalizing reg with
  | nil => rfl
  | cons k l ih =>
    have hk : named (register reg k.fd k.mask k.udata .ok) =
        register (named reg) k.fd k.mask k.udata .ok := by
      funext fd
      by_cases hfd : fd = k.fd
      · by_cases hmask : k.mask = .zero
        · simp [named, register, hmask, hfd]
        · have hu := (h k (List.mem_cons_self ..)).resolve_left hmask
          simp [named, register, hmask, hfd, hu]
      · by_cases hmask : k.mask = .zero <;> simp [named, register, hmask, hfd]
    show named (registerAll (register reg k.fd k.mask k.udata .ok) l) = _
    rw [ih fun k hk => h k (List.mem_cons_of_mem _ hk), hk]
    rfl

/-- Taking a descriptor out as many times as one likes. -/
theorem registerAll_erase {α : Type*} (reg : Int → Option Registration) (fd : Int) (l : List α) :
    registerAll reg (l.map fun _ => ⟨NULL, fd, .zero⟩) =
      if l = [] then reg else Function.update reg fd none := by
  induction l generalizing reg with
  | nil => rfl
  | cons a l ih =>
    show registerAll (register reg fd .zero NULL .ok) _ = _
    rw [ih]
    by_cases hl : l = []
    · simp [hl, register]
    · simp [hl, register]

section

variable {q : YoQueueT} {s : Conf Heap} {b : Board} {c : Call} {m : Heap} {out : Outcome}
  {place : YoReqT → Board.Place}

/-- In a run on one queue the board, the book and the counters agree. -/
theorem exists_board (h : Heap.system.Reach (OneQueue q) s) :
    ∃ b place, Refines s.ledger.opened s.mem b ∧ Board.Placed s.ledger b place ∧
      InStep q s.ledger b := by
  have hfollow : ∀ s t c, follows s t → OneQueue q s c → Board.OneQueue q t c :=
    fun _ _ _ hf hc => oneQueue_of_follows hf hc
  obtain ⟨b, hreach, hR, place, hp⟩ := refines_of_reach hfollow h
  exact ⟨b, place, hR, hp, inStep_of_reach hreach⟩

/-- Which registrations the board has after a call. -/
theorem reg_exec_board (hR : Refines s.ledger.opened s.mem b) (hp : Board.Placed s.ledger b place)
    (hi : InStep q s.ledger b) (hc : c.allowed s.ledger = true) (hone : OneQueue q s c) :
    (b.exec c).1.reg q = registerAll (b.reg q) (s.mem.setmasks c (b.exec c).2) := by
  have hnum : ∀ g, (s.mem.fd g).fd = (b.fd g).fd := hR.fdNum
  have hqueue : ∀ g r, s.ledger.opened g = true → r ∈ b.pend g → b.queueOf r = q := by
    intro g r hg hr
    refine hi.queueOf r (hp.live r ?_)
    rw [(hp.pend g r hg).mp hr]
    simp
  cases c with
  | reqNew | reqFree | fdNew | exec | finish => rfl
  | start r h op ans res =>
    obtain rfl : ans = .ok := hone
    simp only [Call.allowed, Bool.and_eq_true, Bool.not_eq_true'] at hc
    obtain ⟨⟨hlive, -⟩, -⟩ := hc
    have hmask : ((s.mem.fd h).inc op.kind).mask = ((b.fd h).inc op.kind).mask := by
      obtain ⟨hread, hwrite⟩ := hR.counters h
      simp [YoFd.mask, YoFd.readN_inc, YoFd.writeN_inc, hread, hwrite]
    obtain ⟨-, hexec⟩ | ⟨-, hans, -⟩ | ⟨-, -, hexec⟩ := b.exec_start r h op .ok res
    · rw [hexec]
      rfl
    · exact absurd hans (by decide)
    · rw [hexec]
      simp [Heap.setmasks, registerAll, Board.counted, Board.recount, Board.setmask,
        hi.queueOf r hlive, hnum, hmask]
  | close h ans =>
    have hopen : s.ledger.opened h = true := hc
    show (b.close h ans).reg q = _
    have hlist : s.mem.setmasks (.close h ans) (b.exec (.close h ans)).2 =
        (b.pend h).map fun _ => ⟨NULL, (b.fd h).fd, .zero⟩ := by
      simp [Heap.setmasks, hR.handleList hopen, hnum]
    rw [hlist, registerAll_erase, Board.close_eq_cancelAll]
    funext fd
    rw [Board.reg_cancelAll]
    cases hpend : b.pend h with
    | nil => simp
    | cons r l =>
      have hr : b.queueOf r = q := hqueue h r hopen (by simp [hpend])
      have hans : ans r = .ok := hone r
      simp [Function.update_apply, hr, hans]
  | poll k env =>
    obtain ⟨rfl, hans⟩ := hone
    obtain ⟨r, code, l, -, hexec⟩ | ⟨h, mask, r, -, hev, hh, hpick, hexec⟩ |
      ⟨-, -, step, hexec, hstep⟩ := b.exec_poll k env
    · rw [hexec]
      rfl
    · have hopen := Board.Placed.opened_of_event hc hev hh
      have hr : b.queueOf r = k := hqueue h r hopen (List.mem_of_find?_eq_some hpick)
      have hmask : ((s.mem.fd h).dec (b.op r).kind).mask = ((b.fd h).dec (b.op r).kind).mask := by
        obtain ⟨hread, hwrite⟩ := hR.counters h
        simp [YoFd.mask, YoFd.readN_dec, YoFd.writeN_dec, hread, hwrite]
      rw [hexec]
      simp [Heap.setmasks, registerAll, Board.stop, Board.recount, Board.setmask, hr, hnum, hmask,
        hans]
    · rw [hexec]
      cases step with
      | returned r code ran => exact absurd rfl (hstep r code ran)
      | again | failed => rfl

/-- What a call registers has the user data of a handle. -/
theorem setmasks_named (hi : InStep q s.ledger b) (hc : c.allowed s.ledger = true) :
    ∀ k ∈ s.mem.setmasks c (b.exec c).2, k.mask = .zero ∨ k.udata ≠ NULL := by
  intro k hk
  cases c with
  | reqNew | reqFree | fdNew | exec | finish => cases hk
  | start r h op ans res =>
    have hopen : s.ledger.opened h = true := by
      simp only [Call.allowed, Bool.and_eq_true] at hc
      exact hc.2
    refine .inr ?_
    obtain ⟨-, hexec⟩ | ⟨-, -, hexec⟩ | ⟨-, -, hexec⟩ := b.exec_start r h op ans res
    · rw [hexec] at hk
      cases hk
    all_goals
      rw [hexec] at hk
      obtain rfl := List.mem_singleton.mp hk
      exact hi.nonnull h hopen
  | close h ans =>
    obtain ⟨-, -, rfl⟩ := List.mem_map.mp hk
    exact .inl rfl
  | poll k' env =>
    obtain ⟨r, code, l, -, hexec⟩ | ⟨h, mask, r, -, -, hh, -, hexec⟩ |
      ⟨-, -, step, hexec, hstep⟩ := b.exec_poll k' env
    · rw [hexec] at hk
      cases hk
    · rw [hexec] at hk
      obtain rfl := List.mem_singleton.mp hk
      exact .inr hh
    · rw [hexec] at hk
      cases step with
      | returned r code ran => exact absurd rfl (hstep r code ran)
      | again | failed => cases hk

/-- **The registrations follow the calls of `yoi_pl_impl_setmask`**, in every run on one queue, and
these are made for handles. -/
theorem reg_exec (h : Heap.system.Reach (OneQueue q) s) (hc : c.allowed s.ledger = true)
    (hone : OneQueue q s c) (hexec : s.mem.exec c = some (m, out)) :
    (m.queue q).reg = registerAll (s.mem.queue q).reg (s.mem.setmasks c out) ∧
      ∀ k ∈ s.mem.setmasks c out, k.mask = .zero ∨ k.udata ≠ NULL := by
  obtain ⟨b, place, hR, hp, hi⟩ := exists_board h
  obtain ⟨m', hm', hR'⟩ := Heap.exec_refines hR hp hc
  obtain ⟨rfl, rfl⟩ := Prod.mk.inj (Option.some.inj (hexec.symm.trans hm'))
  refine ⟨?_, setmasks_named hi hc⟩
  rw [hR'.reg, hR.reg]
  exact reg_exec_board hR hp hi hc hone

end

/-! ## The node in front -/

/-- What `poll` reports of a node. -/
def YoPollNode.reported (i : YoPollNode) (os : Int → OsCond) : YoiPlEvnMask :=
  ((os i.fd).revents i.evn).toMask

/-- The first node with something to report. -/
def PollNodes.front (l : PollNodes) (os : Int → OsCond) : Option YoPollNode :=
  l.nodes.find? fun i => i.reported os ≠ .zero

section

variable {linux : Bool} {l : PollNodes} {deadline : Option YoTime} {look : Look} {i : YoPollNode}

/-- With memory the poll backend answers with the node in front, if it does not wait. -/
theorem pollPoll_eq (hmem : look.nomem = false) : pollPoll linux l deadline look =
    (yoiPollWrapper linux deadline (l.nodes.map fun i => (look.os i.fd).revents i.evn) look).map
      fun _ => match l.front look.os with
        | some i => .event i.udata (i.reported look.os)
        | none => .error .etimeout := by
  unfold pollPoll
  rw [hmem]
  simp only [Bool.false_eq_true, if_false, List.map_map, List.find?_map, Function.comp_def]
  congr 1
  funext n
  unfold PollNodes.front YoPollNode.reported
  cases l.nodes.find? fun i => ((look.os i.fd).revents i.evn).toMask ≠ .zero <;> rfl

/-- Without a deadline the wait ends when something is reported. -/
theorem yoiPollWrapper_forever {fds : List OsCond} {c : OsCond} (hc : c ∈ fds)
    (hany : c.any = true) : ∃ n, yoiPollWrapper linux none fds look = some n := by
  have hpos : 0 < fds.countP OsCond.any := List.countP_pos_iff.mpr ⟨c, hc, hany⟩
  refine ⟨fds.countP OsCond.any, if_pos ?_⟩
  simp [OsTimeout.ofDeadline, OsTimeout.valid, hpos]

/-- Something is reported of the node in front. -/
theorem PollNodes.reported_front {os : Int → OsCond} (h : l.front os = some i) :
    i ∈ l.nodes ∧ i.reported os ≠ .zero :=
  ⟨List.mem_of_find?_eq_some h, by simpa using List.find?_some h⟩

/-- An event is that of the node in front, and a failure a timeout with nothing in front. -/
theorem pollPoll_cases {ans : OsPoll} (hmem : look.nomem = false)
    (h : pollPoll linux l deadline look = some ans) :
    (∃ i, l.front look.os = some i ∧ ans = .event i.udata (i.reported look.os)) ∨
      l.front look.os = none ∧ ans = .error .etimeout ∧
        (deadline = none → ∃ i ∈ l.nodes, (look.os i.fd).nval = true) := by
  rw [pollPoll_eq hmem] at h
  obtain ⟨n, hn, hans⟩ := Option.map_eq_some_iff.mp h
  cases hfront : l.front look.os with
  | some i =>
    rw [hfront] at hans
    exact .inl ⟨i, rfl, hans.symm⟩
  | none =>
    rw [hfront] at hans
    refine .inr ⟨rfl, hans.symm, fun hnone => ?_⟩
    have hsome : ∃ i ∈ l.nodes, ((look.os i.fd).revents i.evn).any = true := by
      subst hnone
      simp [yoiPollWrapper, OsTimeout.ofDeadline, OsTimeout.valid, OsTimeout.elapsed] at hn
      exact hn.1
    obtain ⟨i, hi, hany⟩ := hsome
    refine ⟨i, hi, ?_⟩
    have hzero : i.reported look.os = .zero := by
      simpa using List.find?_eq_none.mp hfront i hi
    simp only [YoPollNode.reported, OsCond.toMask, OsCond.revents, YoiPlEvnMask.zero,
      YoiPlEvnMask.mk.injEq, Bool.or_eq_false_iff] at hzero
    obtain ⟨⟨⟨⟨-, herror⟩, hhangup⟩, hinput⟩, -, houtput⟩ := hzero
    simpa [OsCond.any, OsCond.revents, herror, hhangup, hinput, houtput] using hany

end

/-! ## The program -/

/-- The callers and their memory, and the list of nodes.  The list is what this backend has for the
registrations of the queue: those in the memory are what epoll would have, with the notify pipe that
`poll.c` never makes, and no step reads them.  The byte that a completion writes to the number in
`notify_write`, which nothing has set, changes no memory. -/
structure PollServed where
  conf : Conf Heap
  nodes : PollNodes

namespace PollServed

variable (q : YoQueueT) (linux : Bool)

/-- What a round of `yo_queue_poll` is told.  With something on the ready list the backend is not
asked. -/
def told (s : PollServed) (deadline : Option YoTime) (look : Look) : Option OsPoll :=
  if (s.conf.mem.queue q).head ≠ NULL then some (.event NULL .zero)
  else pollPoll linux s.nodes deadline look

/-- A call, executed. -/
def did (s : PollServed) (c : Call) : Option (PollServed × Outcome) :=
  (s.conf.mem.exec c).map fun p =>
    (⟨⟨p.1, s.conf.ledger.after c p.2⟩, s.nodes.setmaskAll (s.conf.mem.setmasks c p.2)⟩, p.2)

/-- What an action leads to. -/
def exec (s : PollServed) : ServedAct → Option (PollServed × Outcome)
  | .call c => if Served.isPoll c = false ∧ c.allowed s.conf.ledger then s.did c else none
  | .poll deadline look res =>
    (s.told q linux deadline look).bind fun evn => s.did (.poll q ⟨evn, .ok, res⟩)

/-- `yoi_queue_impl_init`: no node. -/
def yoiQueueImplInit : PollNodes := ⟨[], List.nodup_nil⟩

/-- The runs of a program on the queue `q`. -/
def system : System PollServed ServedAct where
  init s := Heap.system.init s.conf ∧ s.nodes = yoiQueueImplInit
  step s a := (s.exec q linux a).map Prod.fst

/-- The program uses one queue, no registration is refused, and a new handle has a descriptor of its
own; the number that the memory names as the notify pipe's can be any other. -/
def Own (s : PollServed) : ServedAct → Prop
  | .call c => OneQueue q s.conf c
  | .poll .. => True

variable {q : YoQueueT} {linux : Bool} {s t : PollServed} {c : Call} {out : Outcome}

/-- A call leads on in the model of the callers. -/
theorem did_eq_some (h : s.did c = some (t, out)) (hc : c.allowed s.conf.ledger = true) :
    Heap.system.step s.conf c = some t.conf ∧ s.conf.mem.exec c = some (t.conf.mem, out) ∧
      t.nodes = s.nodes.setmaskAll (s.conf.mem.setmasks c out) := by
  obtain ⟨⟨m, o⟩, hm, hp⟩ := Option.map_eq_some_iff.mp h
  obtain ⟨rfl, rfl⟩ := Prod.mk.inj hp
  refine ⟨?_, hm, rfl⟩
  show (if c.allowed s.conf.ledger then _ else none) = _
  rw [if_pos hc, hm]
  rfl

/-- What holds in every run: the nodes are the registrations of the handles. -/
structure Kept (q : YoQueueT) (s : PollServed) : Prop where
  reach : Heap.system.Reach (OneQueue q) s.conf
  reg : s.nodes.reg = named (s.conf.mem.queue q).reg

/-- Each node is the registration of a handle. -/
theorem Kept.within (h : Kept q s) :
    s.nodes.Within (s.conf.mem.queue q).reg ∧ ∀ i ∈ s.nodes.nodes, i.udata ≠ NULL := by
  have hnamed : ∀ i ∈ s.nodes.nodes,
      named (s.conf.mem.queue q).reg i.fd = some ⟨i.evn, i.udata⟩ := by
    intro i hi
    rw [← h.reg, PollNodes.reg_of_mem hi]
  refine ⟨fun i hi => (Option.filter_eq_some_iff.mp (hnamed i hi)).1, fun i hi => ?_⟩
  simpa using (Option.filter_eq_some_iff.mp (hnamed i hi)).2

/-- An event comes from a node, which is a registration. -/
theorem told_event (h : Kept q s) {deadline : Option YoTime} {look : Look} {u : Ptr}
    {ready : YoiPlEvnMask} (htold : s.told q linux deadline look = some (.event u ready))
    (hu : u ≠ NULL) :
    ∃ i ∈ s.nodes.nodes, i.udata = u ∧ (s.conf.mem.queue q).reg i.fd = some ⟨i.evn, u⟩ := by
  unfold told at htold
  split at htold
  · cases htold
    exact absurd rfl hu
  · cases hmem : look.nomem with
    | true => simp [pollPoll, hmem] at htold
    | false =>
      obtain ⟨i, hfront, hans⟩ | ⟨-, hans, -⟩ := pollPoll_cases hmem htold
      · obtain ⟨rfl, -⟩ := OsPoll.event.inj hans
        obtain ⟨hi, -⟩ := PollNodes.reported_front hfront
        exact ⟨i, hi, rfl, h.within.1 i hi⟩
      · cases hans

/-- The handle of an event is open. -/
theorem Kept.allowed_poll (h : Kept q s) (env : PollEnv) {deadline : Option YoTime} {look : Look}
    (htold : s.told q linux deadline look = some env.poll) :
    (Call.poll q env).allowed s.conf.ledger = true := by
  obtain ⟨b, -, hR, -, hi⟩ := exists_board h.reach
  cases hpoll : env.poll with
  | error code => simp [Call.allowed, hpoll]
  | event u ready =>
    by_cases hu : u = NULL
    · simp [Call.allowed, hpoll, hu]
    · obtain ⟨i, -, -, hreg⟩ := told_event h (hpoll ▸ htold) hu
      rw [hR.reg] at hreg
      rcases hi.stale _ _ hreg with ⟨-, hnull⟩ | ⟨g, hg, hfd⟩
      · exact absurd hnull hu
      rw [← hfd, hi.reg g hg] at hreg
      split at hreg
      · cases hreg
      · obtain rfl : g = u := congrArg Registration.udata (Option.some.inj hreg)
        simpa [Call.allowed, hpoll, hu] using hg

/-- A call keeps the list and the registrations together. -/
theorem Kept.did (h : Kept q s) (hc : c.allowed s.conf.ledger = true) (hone : OneQueue q s.conf c)
    (hdid : s.did c = some (t, out)) : Kept q t := by
  obtain ⟨hstep, hexec, hnodes⟩ := did_eq_some hdid hc
  obtain ⟨hreg, hnamed⟩ := reg_exec h.reach hc hone hexec
  refine ⟨h.reach.step hone hstep, ?_⟩
  rw [hnodes, PollNodes.reg_setmaskAll, h.reg, hreg, named_registerAll hnamed]

/-- A step is a call that follows the rules. -/
theorem Kept.exec_cases (h : Kept q s) {a : ServedAct} (hown : Own q s a)
    (hexec : s.exec q linux a = some (t, out)) :
    ∃ c, c.allowed s.conf.ledger = true ∧ OneQueue q s.conf c ∧ s.did c = some (t, out) ∧
      (a = .call c ∧ Served.isPoll c = false ∨
        ∃ deadline look res evn, a = .poll deadline look res ∧
          s.told q linux deadline look = some evn ∧ c = .poll q ⟨evn, .ok, res⟩) := by
  cases a with
  | call c =>
    simp only [exec] at hexec
    split at hexec
    · rename_i hc
      exact ⟨c, hc.2, hown, hexec, .inl ⟨rfl, hc.1⟩⟩
    · cases hexec
  | poll deadline look res =>
    obtain ⟨evn, htold, hdid⟩ := Option.bind_eq_some_iff.mp hexec
    exact ⟨_, h.allowed_poll ⟨evn, .ok, res⟩ htold, ⟨rfl, rfl⟩, hdid,
      .inr ⟨deadline, look, res, evn, rfl, htold, rfl⟩⟩

/-- **It holds in every run**: the list of nodes is the registrations that the handles have over
epoll, and the callers' rules are followed. -/
theorem kept_of_reach (h : (system q linux).Reach (Own q) s) : Kept q s := by
  refine h.invariant (P := Kept q) ?_ ?_
  · rintro s ⟨hinit, hnodes⟩
    refine ⟨.init hinit, ?_⟩
    rw [hnodes, (hinit.1 q).2]
    funext fd
    by_cases hfd : fd = (s.conf.mem.queue q).notifyRead <;>
      simp [yoiQueueImplInit, PollNodes.reg, named, Heap.freshReg, Option.filter, hfd]
  · rintro s a t - hkept hown hstep
    obtain ⟨⟨u, out⟩, hexec, rfl⟩ := Option.map_eq_some_iff.mp hstep
    obtain ⟨c, hc, hone, hdid, -⟩ := hkept.exec_cases hown hexec
    exact hkept.did hc hone hdid

/-! ## What epoll may do as well -/

/-- What a step comes out as. -/
def outcomes (q : YoQueueT) (linux : Bool) (s : PollServed) (a : ServedAct) (_ : PollServed) :
    List Outcome :=
  ((s.exec q linux a).map Prod.snd).toList

end PollServed

/-- What a step comes out as. -/
def Served.outcomes (q : YoQueueT) (timerFd : BitVec 32) (s : Served) (a : ServedAct) (_ : Served) :
    List Outcome :=
  ((s.exec q timerFd a).map Prod.snd).toList

/-- The same call, or rounds with the same deadline while the descriptors are in the same
condition, and for which an operation gives the same code. -/
inductive ServedAct.Alike : ServedAct → ServedAct → Prop
  | call (c : Call) : Alike (.call c) (.call c)
  | poll {deadline : Option YoTime} {look look' : Look} {res : YoCode} (hos : look'.os = look.os) :
    Alike (.poll deadline look res) (.poll deadline look' res)

namespace PollServed

variable {q : YoQueueT} {linux : Bool} {timerFd : BitVec 32} {s t : PollServed} {a : ServedAct}
  {out : Outcome}

/-- Both backends read the descriptors alike: there is memory, a deadline is a time that arms a
timer, what is registered is open, no peer has only shut down its own writing side, and no
registration can be taken for the timer. -/
structure Plain (timerFd : BitVec 32) (s : PollServed) (deadline : Option YoTime) (look : Look) :
    Prop where
  memory : look.nomem = false
  deadline : ∀ d, deadline = some d → d.valid = true ∧ d ≠ ⟨0, 0⟩
  isOpen : ∀ i ∈ s.nodes.nodes, (look.os i.fd).nval = false
  peer : ∀ i ∈ s.nodes.nodes, (look.os i.fd).rdhup = true →
    (look.os i.fd).error = true ∨ (look.os i.fd).hangup = true
  timer : ∀ i ∈ s.nodes.nodes, i.udata.setWidth 32 ≠ timerFd

/-- Such a step. -/
def PlainAct (timerFd : BitVec 32) (s : PollServed) : ServedAct → Prop
  | .call _ => True
  | .poll deadline look _ => Plain timerFd s deadline look

/-- What is reported then is the same. -/
theorem reported_eq {i : YoPollNode} {os : Int → OsCond}
    (hpeer : (os i.fd).rdhup = true → (os i.fd).error = true ∨ (os i.fd).hangup = true) :
    ((os i.fd).epollEvents i.evn).toMask = i.reported os := by
  cases hr : (os i.fd).rdhup with
  | false => simp [YoPollNode.reported, OsCond.toMask, OsCond.epollEvents, OsCond.revents, hr]
  | true =>
    rcases hpeer hr with he | hh
    · simp [YoPollNode.reported, OsCond.toMask, OsCond.epollEvents, OsCond.revents, he]
    · simp [YoPollNode.reported, OsCond.toMask, OsCond.epollEvents, OsCond.revents, hh]

/-- **What a round is told over poll, it may be told over epoll.** -/
theorem Kept.told_served (h : Kept q s) {deadline : Option YoTime} {look : Look} {evn : OsPoll}
    (hplain : Plain timerFd s deadline look) (timer : Option YoTime)
    (htold : s.told q linux deadline look = some evn) :
    ∃ look' : Look, look'.os = look.os ∧
      (⟨s.conf, timer⟩ : Served).told q timerFd deadline look' = some evn := by
  unfold told at htold
  split at htold
  · rename_i hhead
    refine ⟨look, rfl, ?_⟩
    rw [Served.told, if_pos hhead]
    exact htold
  rename_i hhead
  let now := deadline.getD ⟨0, 0⟩
  have hlate : epollLate deadline now = false := by
    cases deadline with
    | none => rfl
    | some d => simp [epollLate, now, yoTimecmp]
  obtain ⟨i, hfront, rfl⟩ | ⟨-, rfl, hnval⟩ := pollPoll_cases hplain.memory htold
  · obtain ⟨hi, hne⟩ := PollNodes.reported_front hfront
    have hreg : (⟨s.conf, timer⟩ : Served).interest q i.fd = some ⟨i.evn, i.udata⟩ := by
      exact h.within.1 i hi
    have heq := reported_eq (hplain.peer i hi)
    have hany : ((look.os i.fd).epollEvents i.evn).any = true := by
      by_contra hno
      apply hne
      rw [← heq]
      simp only [OsCond.any, Bool.not_eq_true, Bool.or_eq_false_iff] at hno
      simp [OsCond.toMask, YoiPlEvnMask.zero, hno]
    let look' : Look := ⟨now, now, look.os, some i.fd, false⟩
    have hpick : epollPoll timerFd (Served.interest q ⟨s.conf, timer⟩) timer deadline look' = _ :=
      epollPoll_pick hlate rfl hreg hany
    refine ⟨look', rfl, ?_⟩
    rw [Served.told, if_neg hhead, hpick, if_neg (hplain.timer i hi)]
    exact congrArg (fun m => some (OsPoll.event i.udata m)) heq
  · cases deadline with
    | none =>
      obtain ⟨i, hi, hbad⟩ := hnval rfl
      simp [hplain.isOpen i hi] at hbad
    | some d =>
      obtain ⟨hvalid, hzero⟩ := hplain.deadline d rfl
      refine ⟨⟨d, d, look.os, none, false⟩, rfl, ?_⟩
      rw [Served.told, if_neg hhead]
      have hlate : epollLate (some d) d = false := hlate
      have hset : timerfdSettime timer d = some d := by
        rw [timerfdSettime, if_pos hvalid, if_neg hzero]
      simp [epollPoll, hlate, hset, epollWait]

/-- A step over poll is one over epoll. -/
theorem Kept.exec_served (h : Kept q s) (hplain : PlainAct timerFd s a) (timer : Option YoTime)
    (hexec : s.exec q linux a = some (t, out)) :
    ∃ b timer', a.Alike b ∧
      (⟨s.conf, timer⟩ : Served).exec q timerFd b = some (⟨t.conf, timer'⟩, out) := by
  have hdid : ∀ {c : Call} {t : PollServed} (timer' : Option YoTime), s.did c = some (t, out) →
      (⟨s.conf, timer⟩ : Served).did timer' c = some (⟨t.conf, timer'⟩, out) := by
    intro c t timer' hdid
    obtain ⟨p, hm, hp⟩ := Option.map_eq_some_iff.mp hdid
    obtain ⟨rfl, rfl⟩ := Prod.mk.inj hp
    simp [Served.did, hm]
  cases a with
  | call c =>
    simp only [exec] at hexec
    split at hexec
    · rename_i hc
      refine ⟨.call c, timer, .call c, ?_⟩
      rw [Served.exec, if_pos hc]
      exact hdid timer hexec
    · cases hexec
  | poll deadline look res =>
    obtain ⟨evn, htold, hcall⟩ := Option.bind_eq_some_iff.mp hexec
    obtain ⟨look', hos, htold'⟩ := h.told_served hplain timer htold
    let timer' := (⟨s.conf, timer⟩ : Served).timerAfter q deadline look'
    refine ⟨.poll deadline look' res, timer', .poll hos, ?_⟩
    rw [Served.exec, htold']
    exact hdid timer' hcall

/-- **What a program does over poll, it may do over epoll.**  For every run over the poll backend in
which the descriptors are in a condition that both backends read alike, there is one over the epoll
backend, with the same calls and deadlines and the descriptors in the same condition in each round,
in which every step has the same outcome, and which leaves the same memory. -/
theorem runs_served {as : List ServedAct} {outs : List Outcome} (hinit : (system q linux).init s)
    (hall : (system q linux).Along (fun s a => Own q s a ∧ PlainAct timerFd s a) s as)
    (hrun : ((system q linux).logged (outcomes q linux)).run (s, []) as = some (t, outs)) :
    ∃ bs timer, List.Forall₂ ServedAct.Alike as bs ∧
      ((Served.system q timerFd).logged (Served.outcomes q timerFd)).run (⟨s.conf, none⟩, []) bs =
        some (⟨t.conf, timer⟩, outs) := by
  have hkept := kept_of_reach (.init hinit : (system q linux).Reach (Own q) s)
  have hmain : ∀ {as s l timer}, Kept q s →
      (system q linux).Along (fun s a => Own q s a ∧ PlainAct timerFd s a) s as →
      ((system q linux).logged (outcomes q linux)).run (s, l) as = some (t, outs) →
      ∃ bs timer', List.Forall₂ ServedAct.Alike as bs ∧
        ((Served.system q timerFd).logged (Served.outcomes q timerFd)).run (⟨s.conf, timer⟩, l) bs =
          some (⟨t.conf, timer'⟩, outs) := by
    intro as
    induction as with
    | nil =>
      intro s l timer hkept hall hrun
      obtain ⟨rfl, rfl⟩ := Prod.mk.inj (Option.some.inj hrun)
      exact ⟨[], timer, .nil, rfl⟩
    | cons a as ih =>
      intro s l timer hkept hall hrun
      obtain ⟨u, hu, hrest⟩ := Option.bind_eq_some_iff.mp (System.run_cons ▸ hrun)
      obtain ⟨hstep, hlog⟩ := System.logged_step.mp hu
      obtain ⟨⟨v, out⟩, hexec, hv⟩ := Option.map_eq_some_iff.mp hstep
      obtain rfl : v = u.1 := hv
      obtain ⟨hown, hplain⟩ := hall.1
      obtain ⟨c, hc, hone, hdid, -⟩ := hkept.exec_cases hown hexec
      obtain ⟨b, timer₁, halike, hserved⟩ := hkept.exec_served hplain timer hexec
      obtain ⟨bs, timer', hbs, hrun'⟩ := ih (hkept.did hc hone hdid) (hall.2 _ hstep) hrest
      refine ⟨b :: bs, timer', .cons halike hbs, ?_⟩
      rw [System.run_cons, Option.bind_eq_some_iff]
      refine ⟨(⟨u.1.conf, timer₁⟩, u.2), System.logged_step.mpr ⟨?_, ?_⟩, hrun'⟩
      · show ((⟨s.conf, timer⟩ : Served).exec q timerFd b).map Prod.fst = _
        rw [hserved]
        rfl
      · rw [hlog]
        simp [outcomes, Served.outcomes, hexec, hserved]
  exact hmain hkept hall hrun

/-! ## Two reads -/

/-- Reads are started on the descriptors 4 and 6. -/
def twoReads : List ServedAct :=
  [.call (.reqNew 0x30 0x10), .call (.reqNew 0x40 0x10), .call (.fdNew 0x20 4 true),
    .call (.fdNew 0x28 6 true), .call (.start 0x30 0x20 (.read 0 0) .ok .ok),
    .call (.start 0x40 0x28 (.read 0 0) .ok .ok)]

/-- The start of a run. -/
def start : PollServed := ⟨Heap.start, yoiQueueImplInit⟩

/-- Both reads wait. -/
def bothWait : PollServed := ((system 0x10 true).run start twoReads).getD start

theorem run_twoReads : (system 0x10 true).run start twoReads = some bothWait := rfl

theorem along_twoReads : (system 0x10 true).Along (Own 0x10) start twoReads := by
  refine ⟨rfl, fun s hs => ?_⟩
  obtain rfl := Option.some.inj hs
  refine ⟨rfl, fun s hs => ?_⟩
  obtain rfl := Option.some.inj hs
  refine ⟨⟨by decide, fun g hg => ?_⟩, fun s hs => ?_⟩
  · simp [start, Heap.start, Ledger.after, Ledger.empty] at hg
  obtain rfl := Option.some.inj hs
  refine ⟨⟨by decide, fun g hg => ?_⟩, fun s hs => ?_⟩
  · have hopened : Function.update (fun _ => false) (0x20 : YoFdT) true g = true := hg
    obtain rfl : g = 0x20 := by simpa [Function.update_apply] using hopened
    decide
  obtain rfl := Option.some.inj hs
  refine ⟨rfl, fun s hs => ?_⟩
  obtain rfl := Option.some.inj hs
  exact ⟨rfl, fun _ _ => trivial⟩

/-- Both descriptors can be read. -/
def bothReadable : Look := ⟨⟨7, 0⟩, ⟨7, 0⟩, fun fd => ⟨fd ≠ 3, false, false, false, false, false⟩,
  none, false⟩

/-- A round over poll, and one over epoll that comes out the same. -/
theorem runs_served_twoReads : ∃ bs timer t outs,
    List.Forall₂ ServedAct.Alike (twoReads ++ [.poll none bothReadable .ok]) bs ∧
      ((Served.system 0x10 5).logged (Served.outcomes 0x10 5)).run (⟨Heap.start, none⟩, []) bs =
        some (⟨t, timer⟩, outs) ∧
      outs.getLast? = some (.polled (.returned 0x40 .ok (some ⟨0x28, .read 0 0⟩))) := by
  have hlast : (((system 0x10 true).logged (outcomes 0x10 true)).run (start, [])
      (twoReads ++ [.poll none bothReadable .ok])).map (fun p => p.2.getLast?) =
        some (some (.polled (.returned 0x40 .ok (some ⟨0x28, .read 0 0⟩)))) := rfl
  obtain ⟨⟨t, outs⟩, hrun, houts⟩ := Option.map_eq_some_iff.mp hlast
  have hcalls : (system 0x10 true).Along (PlainAct 5) start twoReads := by
    refine System.along_of_mem (fun a ha s => ?_) start
    simp only [twoReads, List.mem_cons, List.not_mem_nil, or_false] at ha
    rcases ha with rfl | rfl | rfl | rfl | rfl | rfl <;> trivial
  have hplain : Plain 5 bothWait none bothReadable :=
    ⟨rfl, by simp, by decide, by decide, by decide⟩
  have hall : (system 0x10 true).Along (fun s a => Own 0x10 s a ∧ PlainAct 5 s a) start
      (twoReads ++ [.poll none bothReadable .ok]) := by
    refine System.along_append (System.Along.and along_twoReads hcalls) fun u hu => ?_
    obtain rfl := Option.some.inj (run_twoReads.symm.trans hu)
    exact ⟨⟨trivial, hplain⟩, fun _ _ => trivial⟩
  obtain ⟨bs, timer, hbs, hserved⟩ := runs_served ⟨Heap.init_start, rfl⟩ hall hrun
  exact ⟨bs, timer, t.conf, outs, hbs, hserved, houts⟩

/-! ## Who is served -/

section Front

variable {b : Board} {i : YoPollNode} {rest : List YoPollNode} {x : YoReqT} {op : YoaOp}
  {look : Look} {res : YoCode}

/-- Nothing is completed, and the node in front is that of a handle with one request. -/
structure InFront (q : YoQueueT) (b : Board) (i : YoPollNode) (rest : List YoPollNode) (x : YoReqT)
    (op : YoaOp) (s : PollServed) : Prop where
  kept : Kept q s
  refines : Refines s.conf.ledger.opened s.conf.mem b
  placed : ∃ place, Board.Placed s.conf.ledger b place
  inStep : InStep q s.conf.ledger b
  ready : b.ready q = []
  nodes : s.nodes.nodes = i :: rest
  opened : s.conf.ledger.opened i.udata = true
  isFd : Heap.yoiUnixIsfd (b.fd i.udata) = true
  fd : (b.fd i.udata).fd = i.fd
  pend : b.pend i.udata = [x]
  op : b.op x = op

/-- The counters of a handle with one request are those of its direction. -/
theorem mask_of_one {l : Ledger} {g : YoFdT} (hi : InStep q l b) (hg : l.opened g = true)
    (hpend : b.pend g = [x]) (hop : b.op x = op) : (b.fd g).mask = yoiPlTomask op.kind := by
  rw [YoFd.mask, hi.readN g hg, hi.writeN g hg, hpend]
  cases hk : op.kind <;> simp [count32, Board.dir, hop, yoiPlTomask, hk]

/-- Those of a handle without a request are zero. -/
theorem mask_of_none {l : Ledger} {g : YoFdT} (hi : InStep q l b) (hg : l.opened g = true)
    (hpend : b.pend g = []) : (b.fd g).mask = .zero := by
  rw [YoFd.mask, hi.readN g hg, hi.writeN g hg, hpend]
  rfl

/-- The node is registered for the direction of the request. -/
theorem InFront.evn (h : InFront q b i rest x op s) : i.evn = yoiPlTomask op.kind := by
  have hmem : i ∈ s.nodes.nodes := by simp [h.nodes]
  have hreg : b.reg q i.fd = some ⟨i.evn, i.udata⟩ := by
    rw [← h.refines.reg]
    exact h.kept.within.1 i hmem
  rw [← h.fd, h.inStep.reg _ h.opened] at hreg
  split at hreg
  · cases hreg
  · rw [← mask_of_one h.inStep h.opened h.pend h.op]
    exact (congrArg Registration.mask (Option.some.inj hreg)).symm

/-- What is reported of it is something that the request waits for. -/
theorem InFront.pick (h : InFront q b i rest x op s) {os : Int → OsCond}
    (hos : i.reported os ≠ .zero) : b.pick i.udata (i.reported os) = some x := by
  rw [Board.pick, h.pend, List.find?_cons_of_pos]
  rw [Board.dir, h.op, ← h.evn]
  revert hos
  simp only [YoPollNode.reported, OsCond.toMask, OsCond.revents, YoiPlEvnMask.meets, h.evn]
  cases op.kind <;> simp [yoiPlTomask, YoiPlEvnMask.zero] <;> grind

/-- A call, taken by the memory, the board and the nodes together. -/
theorem Kept.exists_did {c : Call} {place : YoReqT → Board.Place} (h : Kept q s)
    (hR : Refines s.conf.ledger.opened s.conf.mem b) (hp : Board.Placed s.conf.ledger b place)
    (hi : InStep q s.conf.ledger b) (hc : c.allowed s.conf.ledger = true)
    (hone : OneQueue q s.conf c) :
    ∃ t, s.did c = some (t, (b.exec c).2) ∧ Kept q t ∧
      t.conf.ledger = s.conf.ledger.after c (b.exec c).2 ∧
      Refines t.conf.ledger.opened t.conf.mem (b.exec c).1 ∧
      (∃ place', Board.Placed t.conf.ledger (b.exec c).1 place') ∧
      InStep q t.conf.ledger (b.exec c).1 ∧
      t.nodes = s.nodes.setmaskAll (s.conf.mem.setmasks c (b.exec c).2) := by
  obtain ⟨m, hexec, hR'⟩ := Heap.exec_refines hR hp hc
  let t : PollServed := ⟨⟨m, s.conf.ledger.after c (b.exec c).2⟩,
    s.nodes.setmaskAll (s.conf.mem.setmasks c (b.exec c).2)⟩
  have hdid : s.did c = some (t, (b.exec c).2) := by
    rw [PollServed.did, hexec]
    rfl
  have hone' : Board.OneQueue q ⟨b, s.conf.ledger⟩ c :=
    oneQueue_of_follows (s := s.conf) ⟨rfl, hR⟩ hone
  exact ⟨t, hdid, h.did hc hone hdid, rfl, hR', hp.step hc, hi.step hp hc hone', rfl⟩

/-- The node in front is taken out, as its only request is served. -/
theorem InFront.poll (h : InFront q b i rest x op s) (hmem : look.nomem = false)
    (hos : i.reported look.os ≠ .zero) :
    ∃ t, (system q linux).step s (.poll none look res) = some t ∧ Kept q t ∧
      t.conf.ledger = s.conf.ledger.after (.poll q ⟨.error .ok, .ok, res⟩)
        (.polled (.returned x res (some ⟨i.udata, op⟩))) ∧
      Refines t.conf.ledger.opened t.conf.mem (b.stop x i.udata .ok) ∧
      (∃ place, Board.Placed t.conf.ledger (b.stop x i.udata .ok) place) ∧
      InStep q t.conf.ledger (b.stop x i.udata .ok) ∧ t.nodes.nodes = rest := by
  obtain ⟨place, hp⟩ := h.placed
  have hnull : i.udata ≠ NULL := h.inStep.nonnull _ h.opened
  have hhead : (s.conf.mem.queue q).head = NULL := by
    have hready : s.conf.mem.Ready q [] := h.ready ▸ h.refines.ready q
    exact hready.1
  have hfront : s.nodes.front look.os = some i := by
    rw [PollNodes.front, h.nodes]
    exact List.find?_cons_of_pos (by simpa using hos)
  have hany : ((look.os i.fd).revents i.evn).any = true := by
    by_contra hno
    apply hos
    simp only [OsCond.any, Bool.not_eq_true, Bool.or_eq_false_iff] at hno
    simp [YoPollNode.reported, OsCond.toMask, YoiPlEvnMask.zero, hno]
  let env : PollEnv := ⟨.event i.udata (i.reported look.os), .ok, res⟩
  have htold : s.told q linux none look = some env.poll := by
    have hnode : i ∈ s.nodes.nodes := by simp [h.nodes]
    obtain ⟨n, hn⟩ : ∃ n, yoiPollWrapper linux none
        (s.nodes.nodes.map fun i => (look.os i.fd).revents i.evn) look = some n :=
      yoiPollWrapper_forever (List.mem_map_of_mem hnode) hany
    rw [told, if_neg (not_not.mpr hhead), pollPoll_eq hmem, hn, hfront]
    rfl
  have hexec : b.exec (.poll q env) =
      (b.stop x i.udata .ok, .polled (.returned x res (some ⟨i.udata, op⟩))) := by
    simp [Board.exec, Board.round, h.ready, env, hnull, h.pick hos, h.op]
  obtain ⟨t, hdid, hkept, hl, hR, hplaced, hi, hnodes⟩ := h.kept.exists_did h.refines hp h.inStep
    (h.kept.allowed_poll env htold) (show OneQueue q s.conf (.poll q env) from ⟨rfl, rfl⟩)
  rw [hexec] at hdid hl hR hplaced hi hnodes
  refine ⟨t, ?_, hkept, hl, hR, hplaced, hi, ?_⟩
  · show (s.exec q linux (.poll none look res)).map Prod.fst = some t
    rw [exec, htold]
    show (s.did (.poll q env)).map Prod.fst = some t
    rw [hdid]
    rfl
  · -- its mask is zero now
    have hpend : (b.stop x i.udata .ok).pend i.udata = [] := by simp [h.pend]
    have hopen : t.conf.ledger.opened i.udata = true := by
      rw [hl]
      exact h.opened
    have hzero : ((s.conf.mem.fd i.udata).dec op.kind).mask = .zero := by
      have hmask := mask_of_none hi hopen hpend
      have hfd : (b.stop x i.udata .ok).fd i.udata = (b.fd i.udata).dec op.kind := by
        simp [Board.stop, Board.recount, Board.setmask, h.op]
      rw [hfd] at hmask
      obtain ⟨hread, hwrite⟩ := h.refines.counters i.udata
      rw [← hmask]
      simp [YoFd.mask, YoFd.readN_dec, YoFd.writeN_dec, hread, hwrite]
    rw [hnodes]
    simp [Heap.setmasks, PollNodes.setmaskAll, PollNodes.setmask, hzero, h.nodes, h.refines.fdNum,
      h.fd]

/-- The node of a handle without requests comes in front when one is started. -/
theorem Kept.exists_start {place : YoReqT → Board.Place} {g : YoFdT} (h : Kept q s)
    (hR : Refines s.conf.ledger.opened s.conf.mem b) (hp : Board.Placed s.conf.ledger b place)
    (hi : InStep q s.conf.ledger b) (hready : b.ready q = []) (hlive : s.conf.ledger.live x = true)
    (hbusy : s.conf.ledger.busy x = false) (hopen : s.conf.ledger.opened g = true)
    (hfd : Heap.yoiUnixIsfd (b.fd g) = true) (hpend : b.pend g = []) :
    ∃ t b', (system q linux).step s (.call (.start x g op .ok .ok)) = some t ∧
      InFront q b' ⟨(b.fd g).fd, g, yoiPlTomask op.kind⟩ s.nodes.nodes x op t ∧
      (∀ k, k ≠ g → b'.pend k = b.pend k) ∧ t.conf.ledger.opened = s.conf.ledger.opened ∧
      t.conf.ledger.trace = s.conf.ledger.trace ++ [.start x ⟨g, op⟩] := by
  have hc : (Call.start x g op .ok .ok).allowed s.conf.ledger = true := by
    simp [Call.allowed, hlive, hopen, hbusy]
  obtain ⟨t, hdid, hkept, hl, hR', hplaced, hi', hnodes⟩ :=
    h.exists_did hR hp hi hc (show OneQueue q s.conf (.start x g op .ok .ok) from rfl)
  obtain ⟨hno, -⟩ | ⟨-, hans, -⟩ | ⟨-, -, hexec⟩ := b.exec_start x g op .ok .ok
  · exact absurd (hno.symm.trans hfd) (by decide)
  · exact absurd hans (by decide)
  rw [hexec] at hdid hl hR' hplaced hi' hnodes
  have hopened : t.conf.ledger.opened = s.conf.ledger.opened := by rw [hl]; rfl
  have hfd' : ((b.counted x g op .ok).fd g) = (b.fd g).inc op.kind := by
    simp [Board.counted, Board.recount, Board.setmask]
  have hmask : ((s.conf.mem.fd g).inc op.kind).mask = yoiPlTomask op.kind := by
    have hone := mask_of_one hi' (hopened ▸ hopen) (show _ = [x] by simp [hpend])
      (show _ = op by simp)
    rw [← hone]
    show _ = ((b.counted x g op .ok).fd g).mask
    obtain ⟨hread, hwrite⟩ := hR.counters g
    rw [hfd']
    simp [YoFd.mask, YoFd.readN_inc, YoFd.writeN_inc, hread, hwrite]
  have hnew : (b.fd g).fd ∉ s.nodes.nodes.map YoPollNode.fd := by
    intro hmem
    obtain ⟨i, hi₁, hfd₁⟩ := List.mem_map.mp hmem
    have hreg : b.reg q (b.fd g).fd = some ⟨i.evn, i.udata⟩ := by
      rw [← hfd₁, ← hR.reg]
      exact h.within.1 i hi₁
    rw [hi.reg g hopen, if_pos (mask_of_none hi hopen hpend)] at hreg
    cases hreg
  refine ⟨t, _, ?_, ⟨hkept, hR', hplaced, hi', ?_, ?_, ?_, ?_, ?_, ?_, ?_⟩, ?_, hopened, ?_⟩
  · show (s.exec q linux _).map Prod.fst = some t
    rw [exec, if_pos ⟨rfl, hc⟩, hdid]
    rfl
  · exact hready
  · have hzero : yoiPlTomask op.kind ≠ .zero := by cases op.kind <;> decide
    have hset : (s.nodes.setmask g (b.fd g).fd (yoiPlTomask op.kind) false).1.nodes =
        ⟨(b.fd g).fd, g, yoiPlTomask op.kind⟩ :: s.nodes.nodes := by
      rw [PollNodes.setmask, if_neg hzero, dif_neg hnew]
      rfl
    rw [hnodes, ← hset, ← hmask, ← hR.fdNum]
    rfl
  · rw [hopened]
    exact hopen
  · show Heap.yoiUnixIsfd ((b.counted x g op .ok).fd g) = true
    rw [hfd']
    cases hk : op.kind <;> simpa [Heap.yoiUnixIsfd, YoFd.inc, hk] using hfd
  · show ((b.counted x g op .ok).fd g).fd = _
    rw [hfd', YoFd.fd_inc]
  · simp [hpend]
  · simp
  · intro k hk
    simp [hk]
  · rw [hl]
    rfl

/-- **The node in front is served, and is in front again** once its request is started anew. -/
theorem InFront.serve (h : InFront q b i rest x op s) (hmem : look.nomem = false)
    (hos : i.reported look.os ≠ .zero) :
    ∃ t b', (system q linux).run s [.poll none look res, .call (.start x i.udata op .ok .ok)] =
        some t ∧ InFront q b' i rest x op t ∧ (∀ g, g ≠ i.udata → b'.pend g = b.pend g) ∧
        t.conf.ledger.opened = s.conf.ledger.opened ∧
        t.conf.ledger.trace = s.conf.ledger.trace ++
          [.ran x (some ⟨i.udata, op⟩) res, .deliver q x res, .start x ⟨i.udata, op⟩] := by
  obtain ⟨place, hp⟩ := h.placed
  have hlive : s.conf.ledger.live x = true := by
    have hplace : place x = .handle i.udata := (hp.pend _ x h.opened).mp (by simp [h.pend])
    exact hp.live x (by simp [hplace])
  have hpoll : ∃ t, (system q linux).step s (.poll none look res) = some t ∧ _ := h.poll hmem hos
  obtain ⟨u, hu, hkept, hl, hR, ⟨place', hp'⟩, hi, hnodes⟩ := hpoll
  have hfd : (b.stop x i.udata .ok).fd i.udata = (b.fd i.udata).dec op.kind := by
    simp [Board.stop, Board.recount, Board.setmask, h.op]
  have hisfd : Heap.yoiUnixIsfd ((b.stop x i.udata .ok).fd i.udata) = true := by
    have hfd₀ := h.isFd
    rw [hfd]
    cases hk : op.kind <;> simpa [Heap.yoiUnixIsfd, YoFd.dec, hk] using hfd₀
  have hstart : ∃ t b',
      (system q linux).step u (.call (.start x i.udata op .ok .ok)) = some t ∧ _ :=
    hkept.exists_start hR hp' hi h.ready (by rw [hl]; exact hlive)
      (by rw [hl]; exact Function.update_self ..) (by rw [hl]; exact h.opened) hisfd
      (by simp [h.pend])
  obtain ⟨t, b', ht, hfront, hpend, hopened, htrace⟩ := hstart
  have hi' : (⟨((b.stop x i.udata .ok).fd i.udata).fd, i.udata, yoiPlTomask op.kind⟩ : YoPollNode) =
      i := by
    rw [hfd, YoFd.fd_dec, h.fd, ← h.evn]
  rw [hi', hnodes] at hfront
  refine ⟨t, b', ?_, hfront, fun g hg => ?_, ?_, ?_⟩
  · rw [System.run_cons, hu]
    show (((system q linux).step u _).bind fun t => some t) = some t
    rw [ht]
    rfl
  · rw [hpend g hg]
    simp [hg]
  · rw [hopened, hl]
    rfl
  · rw [htrace, hl]
    simp [Ledger.after, Ledger.ranEvent]

/-- It is served over and over. -/
theorem InFront.serve_all (h : InFront q b i rest x op s) {looks : List (Look × YoCode)}
    (hlooks : ∀ p ∈ looks, p.1.nomem = false ∧ i.reported p.1.os ≠ .zero) :
    ∃ t, (system q linux).run s (looks.flatMap fun p =>
        [.poll none p.1 p.2, .call (.start x i.udata op .ok .ok)]) = some t ∧
      t.nodes.nodes = i :: rest ∧
      t.conf.ledger.trace = s.conf.ledger.trace ++ (looks.flatMap fun p =>
        [.ran x (some ⟨i.udata, op⟩) p.2, .deliver q x p.2, .start x ⟨i.udata, op⟩]) ∧
      ∀ g, s.conf.ledger.opened g = true →
        t.conf.mem.handleList g = s.conf.mem.handleList g := by
  induction looks generalizing s b with
  | nil => exact ⟨s, rfl, h.nodes, by simp, fun _ _ => rfl⟩
  | cons p looks ih =>
    obtain ⟨hmem, hos⟩ := hlooks p (List.mem_cons_self ..)
    obtain ⟨u, b', hu, hfront, hpend, hopened, htrace⟩ := h.serve hmem hos
    obtain ⟨t, ht, hnodes, htrace', hlists⟩ :=
      ih hfront fun p hp => hlooks p (List.mem_cons_of_mem _ hp)
    refine ⟨t, ?_, hnodes, ?_, fun g hg => ?_⟩
    · rw [List.flatMap_cons, System.run_append, hu]
      exact ht
    · rw [htrace', htrace, List.flatMap_cons, List.append_assoc]
    · have hg' : u.conf.ledger.opened g = true := hopened ▸ hg
      rw [hlists g hg', hfront.refines.handleList hg', h.refines.handleList hg]
      by_cases hgi : g = i.udata
      · rw [hgi, hfront.pend, h.pend]
      · rw [hpend g hgi]

/-- What the memory of a run shows of the node in front. -/
theorem Kept.inFront (h : Kept q s) (hhead : (s.conf.mem.queue q).head = NULL)
    (hnodes : s.nodes.nodes = i :: rest)
    (hfd : Heap.yoiUnixIsfd (s.conf.mem.fd i.udata) = true)
    (hlist : s.conf.mem.handleList i.udata = some [x])
    (hop : Heap.yoiPlReqDo (s.conf.mem.req x) = ⟨i.udata, op⟩) :
    ∃ b, InFront q b i rest x op s := by
  obtain ⟨b, place, hR, hp, hi⟩ := exists_board h.reach
  have hnode : i ∈ s.nodes.nodes := by simp [hnodes]
  have hreg : b.reg q i.fd = some ⟨i.evn, i.udata⟩ := by
    rw [← hR.reg]
    exact h.within.1 i hnode
  obtain ⟨hopen, hnum⟩ : s.conf.ledger.opened i.udata = true ∧ (b.fd i.udata).fd = i.fd := by
    rcases hi.stale _ _ hreg with ⟨-, hno⟩ | ⟨g, hg, hg'⟩
    · exact absurd hno (h.within.2 i hnode)
    · rw [← hg', hi.reg g hg] at hreg
      split at hreg
      · cases hreg
      · obtain rfl : g = i.udata := congrArg Registration.udata (Option.some.inj hreg)
        exact ⟨hg, hg'⟩
  have hpend : b.pend i.udata = [x] :=
    Option.some.inj ((hR.handleList hopen).symm.trans hlist)
  have hready : b.ready q = [] := by
    have hlist := hR.ready q
    cases hq : b.ready q with
    | nil => rfl
    | cons p l =>
      rw [hq] at hlist
      obtain ⟨⟨hfirst, hne, -⟩, -⟩ := hlist
      exact absurd (hfirst.symm.trans hhead) hne
  have hwait : b.op x = op := by
    have hdo := (hR.waits _ x hopen (by simp [hpend])).call
    rw [hop] at hdo
    exact (congrArg SyncCall.op hdo).symm
  have hfd' : Heap.yoiUnixIsfd (b.fd i.udata) = true := by
    rw [← hfd]
    exact (congrArg (!·) (hR.isAt i.udata)).symm
  exact ⟨b, h, hR, ⟨place, hp⟩, hi, hready, hnodes, hopen, hfd', hnum, hpend, hwait⟩

end Front

/-- **The node in front is served over and over.**  In every run of a program over poll, once
nothing is completed and the node in front is that of a handle with one request: in however many
rounds something is reported of it, whatever is reported of the others, that request is performed,
and when the program starts it again the node is in front as before.  The requests of the other
handles stay where they are. -/
theorem front_served {i : YoPollNode} {rest : List YoPollNode} {x : YoReqT} {op : YoaOp}
    (h : (system q linux).Reach (Own q) s) (hhead : (s.conf.mem.queue q).head = NULL)
    (hnodes : s.nodes.nodes = i :: rest)
    (hfd : Heap.yoiUnixIsfd (s.conf.mem.fd i.udata) = true)
    (hlist : s.conf.mem.handleList i.udata = some [x])
    (hop : Heap.yoiPlReqDo (s.conf.mem.req x) = ⟨i.udata, op⟩) (looks : List (Look × YoCode))
    (hlooks : ∀ p ∈ looks, p.1.nomem = false ∧ i.reported p.1.os ≠ .zero) :
    ∃ t, (system q linux).run s (looks.flatMap fun p =>
        [.poll none p.1 p.2, .call (.start x i.udata op .ok .ok)]) = some t ∧
      t.nodes.nodes = i :: rest ∧
      t.conf.ledger.trace = s.conf.ledger.trace ++ (looks.flatMap fun p =>
        [.ran x (some ⟨i.udata, op⟩) p.2, .deliver q x p.2, .start x ⟨i.udata, op⟩]) ∧
      ∀ g, s.conf.ledger.opened g = true →
        t.conf.mem.handleList g = s.conf.mem.handleList g := by
  obtain ⟨b, hfront⟩ := (kept_of_reach h).inFront hhead hnodes hfd hlist hop
  exact hfront.serve_all hlooks

/-- A hundred rounds serve the read that was started last, and the other one waits. -/
theorem front_served_twoReads : ∃ t, (system 0x10 true).run bothWait
    ((List.replicate 100 (bothReadable, YoCode.ok)).flatMap fun p =>
      [.poll none p.1 p.2, .call (.start 0x40 0x28 (.read 0 0) .ok .ok)]) = some t ∧
    t.conf.mem.handleList 0x20 = some [0x30] := by
  have hreach : (system 0x10 true).Reach (Own 0x10) bothWait :=
    System.reach_of_run (.init ⟨Heap.init_start, rfl⟩) along_twoReads run_twoReads
  have hnodes : bothWait.nodes.nodes =
      ⟨6, 0x28, ⟨true, false⟩⟩ :: [⟨4, 0x20, ⟨true, false⟩⟩] := rfl
  have hlist : bothWait.conf.mem.handleList 0x28 = some [0x40] := by decide
  have hop : Heap.yoiPlReqDo (bothWait.conf.mem.req 0x40) = ⟨0x28, .read 0 0⟩ := by decide
  obtain ⟨t, ht, -, -, hlists⟩ := front_served hreach (by decide) hnodes (by decide) hlist
    hop (List.replicate 100 (bothReadable, YoCode.ok)) fun p hp => by
      rw [List.eq_of_mem_replicate hp]
      decide
  exact ⟨t, ht, (hlists 0x20 (by decide)).trans (by decide)⟩

end PollServed

end Yaooi
