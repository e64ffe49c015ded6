import Yaooi.Backend.Polling
import Yaooi.Queue.Counters

/-!
# A queue served by epoll

`Yaooi.Queue.Calls` takes the answers of the backend from outside, and has the callers' rules say
that the handle of an event is open.  Here the answers are those of `src/unix/epoll.c`: the
registrations of the queue are the interest list, `yoi_pl_impl_setmask` changes it without being
refused (`Interest.setmask_done`), and what `yo_queue_poll` is told is what `yoi_pl_impl_poll` reads
off it.

* `Served.system` is a program on one such queue.
* `Served.reach_calls`: its runs follow the callers' rules by themselves.
* `Served.rounds_serve`: no round of `yo_queue_poll` is wasted on an event, and a request whose
  descriptor is ready is served.
-/

namespace Yaooi

open Transition

/-- Where the kernel refuses nothing, the epoll backend answers `YO_OK` and registers as asked. -/
theorem Interest.setmask_done (l : Interest) (udata : Ptr) (fd : Int) (mask : YoiPlEvnMask) :
    l.setmask udata fd mask none none = (register l fd mask udata .ok, .ok) := by
  have hcode : (l.setmask udata fd mask none none).2 = .ok := by
    unfold setmask
    by_cases hmask : mask = .zero
    · by_cases hl : l fd = none <;> simp [hmask, change, hl]
    · by_cases hl : l fd = none <;> simp [hmask, change, hl, add]
  have hlist : (l.setmask udata fd mask none none).1 = _ :=
    l.register_setmask udata fd mask (by simp) (by simp)
  rw [hcode] at hlist
  exact Prod.ext hlist hcode

/-! ## What is reported -/

namespace OsCond

variable {c : OsCond} {mask dir : YoiPlEvnMask}

/-- What is reported of an entry is in a direction that it is for. -/
theorem meets_of_any (hmask : mask ≠ .zero) (h : (c.epollEvents mask).any = true) :
    mask.meets (c.epollEvents mask).toMask = true := by
  have hdir : mask.readable = true ∨ mask.writable = true := by
    by_contra hno
    push Not at hno
    apply hmask
    cases mask
    simp_all [YoiPlEvnMask.zero]
  simp only [any, YoiPlEvnMask.meets, toMask, epollEvents, Bool.or_eq_true,
    Bool.and_eq_true] at h ⊢
  rcases hdir with hdir | hdir <;> simp only [hdir] at h ⊢ <;> tauto

/-- A descriptor that is ready in a direction that its entry is for is reported. -/
theorem any_of_readyFor (hr : dir.readable = true → mask.readable = true)
    (hw : dir.writable = true → mask.writable = true) (h : c.readyFor dir = true) :
    (c.epollEvents mask).any = true := by
  simp only [readyFor, any, epollEvents, Bool.or_eq_true, Bool.and_eq_true] at h ⊢
  tauto

end OsCond

section

variable {timerFd : BitVec 32} {interest : Interest} {timer deadline : Option YoTime} {look : Look}

/-- An event comes from an entry with something to report. -/
theorem exists_entry {u : Ptr} {ready : YoiPlEvnMask}
    (h : epollPoll timerFd interest timer deadline look = some (.event u ready)) :
    ∃ fd e, interest fd = some e ∧ e.udata = u ∧ ((look.os fd).epollEvents e.mask).any = true ∧
      ready = ((look.os fd).epollEvents e.mask).toMask := by
  unfold epollPoll at h
  split at h
  · cases h
  dsimp only at h
  split at h
  · cases h
  rename_i data evn hwait
  split at h
  · split at h <;> cases h
  rename_i hdata
  cases h
  unfold epollWait at hwait
  split at hwait
  · split at hwait
    · split at hwait <;> cases hwait
      simp at hdata
    · cases hwait
  · rename_i fd hpick
    split at hwait
    · rename_i e he
      dsimp only at hwait
      split at hwait <;> cases hwait
      rename_i hany
      exact ⟨fd, e, he, rfl, hany, rfl⟩
    · cases hwait

/-- An entry that is picked is reported, if its data cannot be taken for the timer's. -/
theorem epollPoll_pick {fd : Int} {e : Registration} (hlate : epollLate deadline look.now = false)
    (hpick : look.pick = some fd) (he : interest fd = some e)
    (hany : ((look.os fd).epollEvents e.mask).any = true) :
    epollPoll timerFd interest timer deadline look =
      if e.udata.setWidth 32 = timerFd then
        if deadline = none then none else some (.error .etimeout)
      else some (.event e.udata ((look.os fd).epollEvents e.mask).toMask) := by
  simp [epollPoll, epollWait, hlate, hpick, he, hany]

/-- It fails only with `YO_ETIMEOUT`, and only with a deadline. -/
theorem epollPoll_error {code : YoCode}
    (h : epollPoll timerFd interest timer deadline look = some (.error code)) :
    code = .etimeout ∧ deadline ≠ none := by
  unfold epollPoll at h
  split at h
  · rename_i hlate
    cases h
    refine ⟨rfl, fun hnone => ?_⟩
    simp [hnone, epollLate] at hlate
  dsimp only at h
  split at h
  · cases h
  split at h
  · split at h
    · cases h
    · rename_i hnone
      cases h
      exact ⟨rfl, hnone⟩
  · cases h

end

/-- With fewer than 2³² requests on a handle, its registration is for what each one waits for. -/
theorem InStep.mask_of_mem {q : YoQueueT} {l : Ledger} {b : Board} {g : YoFdT} {r : YoReqT}
    (hi : InStep q l b) (hg : l.opened g = true) (hr : r ∈ b.pend g)
    (hlen : (b.pend g).length < 2 ^ 32) :
    ((b.dir r).readable = true → (b.fd g).mask.readable = true) ∧
      ((b.dir r).writable = true → (b.fd g).mask.writable = true) := by
  have hcount : ∀ p : YoReqT → Bool, p r = true → count32 p (b.pend g) ≠ 0 := by
    intro p hp hzero
    have hpos : 0 < (b.pend g).countP p := List.countP_pos_iff.mpr ⟨r, hr, hp⟩
    have hle : (b.pend g).countP p ≤ (b.pend g).length := List.countP_le_length
    have hnat := congrArg BitVec.toNat hzero
    rw [count32, BitVec.toNat_ofNat, Nat.mod_eq_of_lt (by omega)] at hnat
    exact absurd hnat hpos.ne'
  constructor
  · intro hd
    simpa [YoFd.mask, hi.readN g hg] using hcount (fun r => (b.dir r).readable) hd
  · intro hd
    simpa [YoFd.mask, hi.writeN g hg] using hcount (fun r => (b.dir r).writable) hd

/-! ## The program -/

/-- The callers and their memory, and when the timer of the queue expires. -/
structure Served where
  conf : Conf Heap
  timer : Option YoTime

/-- A call, and what the OS has to say to it. -/
inductive ServedAct where
  /-- Any call but `yo_queue_poll`. -/
  | call (c : Call)
  /-- A round of `yo_queue_poll`, and the code of the operation it performs, if any. -/
  | poll (deadline : Option YoTime) (look : Look) (res : YoCode)

namespace Served

variable (q : YoQueueT) (timerFd : BitVec 32)

/-- The interest list. -/
def interest (s : Served) : Interest := (s.conf.mem.queue q).reg

/-- What a round of `yo_queue_poll` is told.  With something on the ready list the backend is not
asked. -/
def told (s : Served) (deadline : Option YoTime) (look : Look) : Option OsPoll :=
  if (s.conf.mem.queue q).head ≠ NULL then some (.event NULL .zero)
  else epollPoll timerFd (s.interest q) s.timer deadline look

/-- The timer after the round. -/
def timerAfter (s : Served) (deadline : Option YoTime) (look : Look) : Option YoTime :=
  if (s.conf.mem.queue q).head ≠ NULL ∨ epollLate deadline look.now = true then s.timer
  else timerfdSettime s.timer (deadline.getD ⟨0, 0⟩)

/-- The call is `yo_queue_poll`. -/
def isPoll : Call → Bool
  | .poll .. => true
  | .reqNew .. | .reqFree _ | .fdNew .. | .start .. | .exec _ | .finish .. | .close .. => false

/-- A call, executed. -/
def did (s : Served) (timer : Option YoTime) (c : Call) : Option (Served × Outcome) :=
  (s.conf.mem.exec c).map fun p => (⟨⟨p.1, s.conf.ledger.after c p.2⟩, timer⟩, p.2)

/-- What an action leads to.  Nobody checks that the handle of an event is open. -/
def exec (s : Served) : ServedAct → Option (Served × Outcome)
  | .call c => if isPoll c = false ∧ c.allowed s.conf.ledger then s.did s.timer c else none
  | .poll deadline look res =>
    (s.told q timerFd deadline look).bind fun evn =>
      s.did (s.timerAfter q deadline look) (.poll q ⟨evn, .ok, res⟩)

/-- The runs of a program on the queue `q`. -/
def system : System Served ServedAct where
  init s := Heap.system.init s.conf ∧ s.timer = none
  step s a := (s.exec q timerFd a).map Prod.fst

/-- The program uses one queue, the kernel refuses no registration, and a new handle has a
descriptor of its own. -/
def Own (s : Served) : ServedAct → Prop
  | .call c => OneQueue q s.conf c
  | .poll .. => True

variable {q : YoQueueT} {timerFd : BitVec 32} {s t : Served}

/-- A call leads on in the model of the callers. -/
theorem did_eq_some {timer : Option YoTime} {c : Call} {out : Outcome}
    (h : s.did timer c = some (t, out)) (hc : c.allowed s.conf.ledger = true) :
    Heap.system.step s.conf c = some t.conf ∧ t.timer = timer := by
  obtain ⟨⟨m, o⟩, hm, hp⟩ := Option.map_eq_some_iff.mp h
  obtain ⟨rfl, rfl⟩ := Prod.mk.inj hp
  refine ⟨?_, rfl⟩
  show (if c.allowed s.conf.ledger then _ else none) = _
  rw [if_pos hc, hm]
  rfl

/-- An event comes from the interest list. -/
theorem told_event {deadline : Option YoTime} {look : Look} {u : Ptr} {ready : YoiPlEvnMask}
    (h : s.told q timerFd deadline look = some (.event u ready)) (hu : u ≠ NULL) :
    ∃ fd e, s.interest q fd = some e ∧ e.udata = u ∧
      ((look.os fd).epollEvents e.mask).any = true ∧
        ready = ((look.os fd).epollEvents e.mask).toMask := by
  unfold told at h
  split at h
  · cases h
    exact absurd rfl hu
  · exact exists_entry h

/-- An entry with user data is that of an open handle, for what the handle's counters say. -/
theorem entry_of_interest {b : Board} {fd : Int} {e : Registration}
    (hR : Refines s.conf.ledger.opened s.conf.mem b) (hi : InStep q s.conf.ledger b)
    (he : s.interest q fd = some e) (hu : e.udata ≠ NULL) :
    s.conf.ledger.opened e.udata = true ∧ (b.fd e.udata).fd = fd ∧
      e.mask = (b.fd e.udata).mask ∧ e.mask ≠ .zero := by
  have hreg : b.reg q fd = some e := by
    rw [← hR.reg]
    exact he
  rcases hi.stale fd e hreg with ⟨-, hnull⟩ | ⟨g, hg, rfl⟩
  · exact absurd hnull hu
  rw [hi.reg g hg] at hreg
  split at hreg
  · cases hreg
  · rename_i hmask
    obtain rfl := Option.some.inj hreg
    exact ⟨hg, rfl, rfl, hmask⟩

/-- Where the callers followed the rules, the user data of an event is `NULL` or an open handle. -/
theorem allowed_poll (env : PollEnv) (h : Heap.system.Reach (OneQueue q) s.conf)
    {deadline : Option YoTime} {look : Look}
    (htold : s.told q timerFd deadline look = some env.poll) :
    (Call.poll q env).allowed s.conf.ledger = true := by
  obtain ⟨b, hR, hi⟩ := exists_inStep h
  cases hpoll : env.poll with
  | error code => simp [Call.allowed, hpoll]
  | event u ready =>
    by_cases hu : u = NULL
    · simp [Call.allowed, hpoll, hu]
    · obtain ⟨fd, e, he, rfl, -⟩ := told_event (hpoll ▸ htold) hu
      simp [Call.allowed, hpoll, (entry_of_interest hR hi he hu).1]

/-- How a round ends, for an event whose handle is open. -/
theorem round_cases {deadline : Option YoTime} {look : Look} {res : YoCode} {out : Outcome}
    (h : Heap.system.Reachable s.conf)
    (hall : ∀ evn, s.told q timerFd deadline look = some evn →
      (Call.poll q ⟨evn, .ok, .ok⟩).allowed s.conf.ledger = true)
    (hexec : s.exec q timerFd (.poll deadline look res) = some (t, out)) :
    Heap.system.Reachable t.conf ∧
      ((out = .polled .again ∧ t.conf.ledger.busy = s.conf.ledger.busy) ∨
      (out = .polled (.failed .etimeout) ∧ deadline ≠ none ∧
        t.conf.ledger.busy = s.conf.ledger.busy) ∨
      ∃ r code ran, out = .polled (.returned r code ran) ∧ s.conf.ledger.busy r = true ∧
        t.conf.ledger.busy = Function.update s.conf.ledger.busy r false) := by
  obtain ⟨evn, htold, hdid⟩ := Option.bind_eq_some_iff.mp hexec
  have hc : (Call.poll q ⟨evn, .ok, res⟩).allowed s.conf.ledger = true := hall evn htold
  refine ⟨h.step trivial (did_eq_some hdid hc).1, ?_⟩
  obtain ⟨⟨m, o⟩, hm, hp⟩ := Option.map_eq_some_iff.mp hdid
  obtain ⟨rfl, rfl⟩ := Prod.mk.inj hp
  obtain ⟨b, -, hR, pos, hplaced⟩ := refines_of_reachable h
  obtain ⟨m', hm', -⟩ := Heap.exec_refines hR hplaced hc
  obtain rfl : o = (b.exec (.poll q ⟨evn, .ok, res⟩)).2 :=
    (Prod.mk.inj (Option.some.inj (hm.symm.trans hm'))).2
  obtain ⟨r, code, l, hready, hb⟩ | ⟨g, mask, r, -, hev, hg, hpick, hb⟩ |
    ⟨hready, hnone, step, hb, hstep⟩ := b.exec_poll q ⟨evn, .ok, res⟩
  · rw [hb]
    refine .inr (.inr ⟨r, code, none, rfl, (hplaced.busy r).mpr ?_, rfl⟩)
    have hplace := (hplaced.ready q r).mp (by simp [hready])
    simp [hplace]
  · rw [hb]
    have hopen := Board.Placed.opened_of_event hc hev hg
    have hplace := (hplaced.pend g r hopen).mp (List.mem_of_find?_eq_some hpick)
    exact .inr (.inr ⟨r, res, _, rfl, (hplaced.busy r).mpr (by simp [hplace]), rfl⟩)
  · rw [hb]
    have hround : step = (b.round q ⟨evn, .ok, res⟩).2 :=
      (Outcome.polled.inj (congrArg Prod.snd hb)).symm
    cases step with
    | again => exact .inl ⟨rfl, rfl⟩
    | returned r code ran => exact absurd rfl (hstep r code ran)
    | failed code =>
      obtain rfl : evn = .error code := by
        unfold Board.round at hround
        rw [hready] at hround
        cases evn with
        | error c =>
          obtain rfl := PollStep.failed.inj hround
          rfl
        | event u mask =>
          dsimp only at hround
          split at hround
          · cases hround
          · split at hround <;> cases hround
      unfold told at htold
      split at htold
      · cases htold
      · obtain ⟨rfl, hne⟩ := epollPoll_error htold
        exact .inr (.inl ⟨rfl, hne, rfl⟩)

/-- **The runs follow the rules of the callers by themselves.** -/
theorem reach_calls (h : (system q timerFd).Reach (Own q) s) :
    Heap.system.Reach (OneQueue q) s.conf := by
  induction h with
  | init h0 => exact .init h0.1
  | @step s t a _ hown hstep ih =>
    obtain ⟨⟨u, out⟩, hexec, rfl⟩ := Option.map_eq_some_iff.mp hstep
    cases a with
    | call c =>
      simp only [exec] at hexec
      split at hexec
      · rename_i hc
        exact ih.step hown (did_eq_some hexec hc.2).1
      · cases hexec
    | poll deadline look res =>
      obtain ⟨evn, htold, hdid⟩ := Option.bind_eq_some_iff.mp hexec
      have hone : OneQueue q s.conf (.poll q ⟨evn, .ok, res⟩) := ⟨rfl, rfl⟩
      exact ih.step hone (did_eq_some hdid (allowed_poll _ ih htold)).1

/-- A round, executed. -/
theorem exec_round {b : Board} {deadline : Option YoTime} {look : Look} {evn : OsPoll}
    (res : YoCode) (hreach : Heap.system.Reach (OneQueue q) s.conf)
    (hR : Refines s.conf.ledger.opened s.conf.mem b)
    (htold : s.told q timerFd deadline look = some evn) :
    ∃ t, s.exec q timerFd (.poll deadline look res) =
      some (t, .polled (b.round q ⟨evn, .ok, res⟩).2) := by
  have hall := allowed_poll ⟨evn, .ok, res⟩ hreach htold
  obtain ⟨m, hround, -⟩ := hR.round (q := q) ⟨evn, .ok, res⟩ fun g mask hg hne => by
    obtain rfl : evn = .event g mask := hg
    simpa [Call.allowed, hne] using hall
  simp only [exec, htold, Option.bind_some, did, Heap.exec, hround, Option.map_some]
  exact ⟨_, rfl⟩

/-- The ready list is empty on the board, if it is in memory. -/
theorem ready_eq_nil {b : Board} (hR : Refines s.conf.ledger.opened s.conf.mem b)
    (hhead : (s.conf.mem.queue q).head = NULL) : b.ready q = [] := by
  cases hq : b.ready q with
  | nil => rfl
  | cons p l =>
    have hready : s.conf.mem.Ready q (p :: l) := hq ▸ hR.ready q
    obtain ⟨⟨hp, hne, -⟩, -⟩ := hready
    exact absurd (hp.symm.trans hhead) hne

/-- **What a round makes of an event.**  In every run of a program on one queue over epoll, where
each handle has a descriptor of its own and no registration is refused, the handle of an event is
open, with a request in a reported direction, so that a round goes on to the next only when the
notify pipe woke it.  A request whose descriptor is ready when the OS picks it is served, or another
one of its handle, unless the handle's address has the descriptor of the timer in its low half. -/
theorem rounds_serve (h : (system q timerFd).Reach (Own q) s) (deadline : Option YoTime)
    (look : Look) (res : YoCode) :
    (∀ evn, s.told q timerFd deadline look = some evn →
      (∀ u ready, evn = .event u ready → u ≠ NULL → s.conf.ledger.opened u = true) ∧
      ∃ t step, s.exec q timerFd (.poll deadline look res) = some (t, .polled step) ∧
        (step = .again → ∃ ready, evn = .event NULL ready)) ∧
    ∀ g l r, s.conf.ledger.opened g = true → s.conf.mem.handleList g = some l → r ∈ l →
      l.length < 2 ^ 32 → (s.conf.mem.queue q).head = NULL →
      epollLate deadline look.now = false → look.pick = some (s.conf.mem.fd g).fd →
      (look.os (s.conf.mem.fd g).fd).readyFor (s.conf.mem.dir r) = true →
        ((∃ t r' call, s.exec q timerFd (.poll deadline look res) =
            some (t, .polled (.returned r' res (some call))) ∧ r' ∈ l ∧ call.fd = g) ↔
          g.setWidth 32 ≠ timerFd) := by
  have hreach := reach_calls h
  obtain ⟨b, hR, hi⟩ := exists_inStep hreach
  constructor
  · intro evn htold
    obtain ⟨t, hexec⟩ := exec_round res hreach hR htold
    refine ⟨fun u ready hevn hu => ?_, t, _, hexec, fun hagain => ?_⟩
    · simpa [Call.allowed, hevn, hu] using allowed_poll ⟨evn, .ok, res⟩ hreach htold
    cases evn with
    | error code =>
      cases hq : b.ready q <;> simp [Board.round, hq] at hagain
    | event u ready =>
      by_cases hu : u = NULL
      · exact ⟨ready, by rw [hu]⟩
      · obtain ⟨fd, e, he, rfl, hany, rfl⟩ := told_event htold hu
        obtain ⟨hg, rfl, hmask, hne⟩ := entry_of_interest hR hi he hu
        have hreg : b.reg q (b.fd e.udata).fd = some ⟨e.mask, e.udata⟩ := by
          rw [← hR.reg]
          exact he
        obtain ⟨-, r, hr⟩ := hi.pick hreg hu (OsCond.meets_of_any hne hany)
        cases hq : b.ready q <;> simp [Board.round, hq, hu, hr] at hagain
  · intro g l r hg hl hr hlen hhead hlate hpick hos
    rw [hR.handleList hg] at hl
    obtain rfl := Option.some.inj hl
    have hnil : b.ready q = [] := ready_eq_nil hR hhead
    have hdir : s.conf.mem.dir r = b.dir r := (hR.waits g r hg hr).dir
    obtain ⟨hread, hwrite⟩ := hi.mask_of_mem hg hr hlen
    rw [hdir, hR.fdNum] at hos
    have hany := OsCond.any_of_readyFor hread hwrite hos
    have hzero : (b.fd g).mask ≠ .zero := by
      intro hzero
      rw [hzero] at hread hwrite
      unfold Board.dir at hread hwrite
      cases hk : (b.op r).kind <;> simp [hk, yoiPlTomask, YoiPlEvnMask.zero] at hread hwrite
    have he : s.interest q (b.fd g).fd = some ⟨(b.fd g).mask, g⟩ := by
      rw [interest, hR.reg, hi.reg g hg, if_neg hzero]
    have htold : s.told q timerFd deadline look =
        epollPoll timerFd (s.interest q) s.timer deadline look := by
      rw [told, if_neg (not_not.mpr hhead)]
    rw [epollPoll_pick hlate (hR.fdNum g ▸ hpick) he hany] at htold
    by_cases hlow : g.setWidth 32 = timerFd
    · refine iff_of_false ?_ (not_not.mpr hlow)
      rintro ⟨t, r', call, hexec, -⟩
      rw [if_pos hlow] at htold
      split at htold
      · simp [exec, htold] at hexec
      · obtain ⟨u, hfail⟩ := exec_round res hreach hR htold
        rw [hexec] at hfail
        simp [Board.round, hnil] at hfail
    · refine iff_of_true ?_ hlow
      rw [if_neg hlow] at htold
      obtain ⟨t, hexec⟩ := exec_round res hreach hR htold
      have hreg : b.reg q (b.fd g).fd = some ⟨(b.fd g).mask, g⟩ := by
        rw [← hR.reg]
        exact he
      have hnull := hi.nonnull g hg
      obtain ⟨-, r', hr'⟩ := hi.pick hreg hnull (OsCond.meets_of_any hzero hany)
      refine ⟨t, r', ⟨g, b.op r'⟩, ?_, List.mem_of_find?_eq_some hr', rfl⟩
      simpa [Board.round, hnil, hnull, hr'] using hexec

/-- A read is started on descriptor 4. -/
def startRead : List ServedAct :=
  [.call (.reqNew 0x30 0x10), .call (.fdNew 0x20 4 true),
    .call (.start 0x30 0x20 (.read 0 0) .ok .ok)]

/-- It waits. -/
def readWaits : Served :=
  ⟨Heap.afterCalls [.reqNew 0x30 0x10, .fdNew 0x20 4 true, .start 0x30 0x20 (.read 0 0) .ok .ok],
    none⟩

theorem reach_readWaits : (system 0x10 5).Reach (Own 0x10) readWaits := by
  have halong : (system 0x10 5).Along (Own 0x10) ⟨Heap.start, none⟩ startRead := by
    refine ⟨rfl, fun s hs => ?_⟩
    obtain rfl := Option.some.inj hs
    refine ⟨⟨by decide, fun g hg => ?_⟩, fun s hs => ?_⟩
    · simp [Heap.start, Ledger.after, Ledger.empty] at hg
    · obtain rfl := Option.some.inj hs
      exact ⟨rfl, fun _ _ => trivial⟩
  exact System.reach_of_run (.init ⟨Heap.init_start, rfl⟩) halong rfl

/-- When the descriptor can be read, the read is performed. -/
theorem rounds_serve_readWaits : ∃ t call, readWaits.exec 0x10 5
    (.poll none ⟨⟨7, 0⟩, ⟨7, 0⟩, readable, some 4, false⟩ .ok) =
      some (t, .polled (.returned 0x30 .ok (some call))) ∧ call.fd = 0x20 := by
  obtain ⟨t, r, call, hexec, hr, hcall⟩ := ((rounds_serve reach_readWaits none
    ⟨⟨7, 0⟩, ⟨7, 0⟩, readable, some 4, false⟩ .ok).2 0x20 [0x30] 0x30 (by decide) (by decide)
      (List.mem_singleton_self _) (by decide) rfl rfl rfl (by decide)).mpr (by decide)
  rw [List.mem_singleton.mp hr] at hexec
  exact ⟨t, call, hexec, hcall⟩

end Served

end Yaooi
