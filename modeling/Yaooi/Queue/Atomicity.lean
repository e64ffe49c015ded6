import Yaooi.Queue.Delivery

/-!
# Failed starts

A start counts the request on its handle before `yoi_pl_impl_setmask` can refuse, and
nothing takes the count back.  When the backend answers `YO_EPERM` the operation runs at once
and the counter stays one too high; with any other error the request is linked into the
list of the handle although the caller is told that the start failed.

`startAtomic_iff` says when a start is atomic: when the handle is refused before anything
is counted, or when the backend answers `YO_OK`.
-/

namespace Yaooi

open Transition

/-- The request a call starts, if any. -/
def Call.starts (r : YoReqT) : Call → Bool
  | .start x _ _ _ _ | .exec x => x = r
  | _ => false

/-- The request is not returned by any later poll, unless it is started again. -/
def NeverReturned (s : Conf Heap) (r : YoReqT) : Prop :=
  ∀ cs t, Heap.system.run s cs = some t → (∀ c ∈ cs, c.starts r = false) →
    ∀ evs, t.ledger.trace = s.ledger.trace ++ evs → ∀ q code, .deliver q r code ∉ evs

/-- The request is on no list of an open handle and on no ready list. -/
def OnNoList (s : Conf Heap) (r : YoReqT) : Prop :=
  (∀ h l, s.ledger.opened h = true → s.mem.handleList h = some l → r ∉ l) ∧
    ∀ q l, s.mem.readyList q = some l → r ∉ l.map Prod.fst

/-- What a caller expects of a start that does not leave its request waiting, because the
operation ran at once or because the start failed: the handle's list and counters are what they
were, and after a failed start the request is on no list and is never returned. -/
def StartAtomic (s : Conf Heap) (r : YoReqT) (h : YoFdT) (op : YoaOp) (ans res : YoCode) : Prop :=
  ∀ m code ran t, s.mem.yoa r h op ans res = (m, code, ran) →
    Heap.system.step s (.start r h op ans res) = some t → (ran ≠ none ∨ code ≠ .ok) →
      m.handleList h = s.mem.handleList h ∧ (m.fd h).readN = (s.mem.fd h).readN ∧
        (m.fd h).writeN = (s.mem.fd h).writeN ∧
        (code ≠ .ok → OnNoList t r ∧ NeverReturned t r)

/-! ## Requests that are not started -/

section Idle

variable {l : Ledger} {r : YoReqT} {s t : Conf Heap}

/-- A call writes down a start of a request only if it starts that request. -/
theorem trace_after (c : Call) (out : Outcome) :
    ∃ evs, (l.after c out).trace = l.trace ++ evs ∧
      ∀ e ∈ evs, e.starts r = true → c.starts r = true := by
  have quiet : ∃ evs, l.trace = l.trace ++ evs ∧
      ∀ e ∈ evs, e.starts r = true → c.starts r = true := ⟨[], by simp, by simp⟩
  cases c with
  | reqNew | reqFree | fdNew => exact quiet
  | start x h op ans res =>
    cases out with
    | started began code ran =>
      cases began with
      | true =>
        refine ⟨_, rfl, fun e he hstart => ?_⟩
        rcases List.mem_cons.mp he with rfl | he
        · exact hstart
        · simp [Event.starts_ranEvent he] at hstart
      | false => exact quiet
    | done | polled _ => exact quiet
  | exec x => exact ⟨_, rfl, by simp [Event.starts, Call.starts]⟩
  | finish x code => exact ⟨_, rfl, by simp [Event.starts]⟩
  | close h ans => exact ⟨_, rfl, by simp [Event.starts]⟩
  | poll q env =>
    cases out with
    | polled step =>
      cases step with
      | returned x code ran =>
        refine ⟨_, rfl, fun e he hstart => ?_⟩
        rcases List.mem_append.mp he with he | he
        · simp [Event.starts_ranEvent he] at hstart
        · simp [List.mem_singleton.mp he, Event.starts] at hstart
      | again | failed _ => exact quiet
    | done | started _ _ _ => exact quiet

/-- Nor does a run. -/
theorem trace_run {cs : List Call} (hrun : Heap.system.run s cs = some t)
    (hcs : ∀ c ∈ cs, c.starts r = false) :
    ∃ evs, t.ledger.trace = s.ledger.trace ++ evs ∧ ∀ e ∈ evs, e.starts r = false := by
  induction cs generalizing s with
  | nil =>
    obtain rfl := Option.some.inj hrun
    exact ⟨[], by simp, by simp⟩
  | cons c cs ih =>
    obtain ⟨u, hu, hrest⟩ := Option.bind_eq_some_iff.mp (System.run_cons ▸ hrun)
    obtain ⟨-, m, out, -, rfl⟩ := calls_step hu
    obtain ⟨evs, hevs, hstart⟩ := trace_after (l := s.ledger) (r := r) c out
    obtain ⟨evs', hevs', hstart'⟩ := ih hrest fun c hc => hcs c (List.mem_cons_of_mem _ hc)
    refine ⟨evs ++ evs', by rw [hevs', hevs, List.append_assoc], fun e he => ?_⟩
    rcases List.mem_append.mp he with he | he
    · by_contra hne
      have := hstart e he (by simpa using hne)
      simp [hcs c (List.mem_cons_self ..)] at this
    · exact hstart' e he

/-- An idle request is not delivered without a start. -/
theorem not_deliver_of_idle {evs : List Event} {p : Phase} (hrun : Phase.run r .idle evs = some p)
    (hevs : ∀ e ∈ evs, e.starts r = false) (q : YoQueueT) (code : YoCode) :
    .deliver q r code ∉ evs := by
  induction evs with
  | nil => simp
  | cons e evs ih =>
    obtain ⟨p₁, hstep, hrest⟩ := Option.bind_eq_some_iff.mp (Phase.run_cons ▸ hrun)
    obtain rfl := step_idle (hevs e (List.mem_cons_self ..)) hstep
    intro hmem
    rcases List.mem_cons.mp hmem with rfl | hmem
    · simp [Phase.step, Event.req, Phase.advance] at hstep
    · exact ih hrest (fun e he => hevs e (List.mem_cons_of_mem _ he)) hmem

/-- A request that is not started is on no list. -/
theorem onNoList_of_idle (hs : Heap.system.Reachable s) (hr : s.ledger.busy r = false) :
    OnNoList s r := by
  obtain ⟨b, -, hR, pos, hp⟩ := refines_of_reachable hs
  have hidle := hp.idle_of_not_busy hr
  constructor
  · intro h l hh hl
    rw [hR.handleList hh, Option.some.injEq] at hl
    exact hl ▸ hp.not_mem_pend (by simp [hidle]) hh
  · intro q l hl
    rw [hR.readyList, Option.some.injEq] at hl
    exact hl ▸ hp.not_mem_ready (by simp [hidle])

/-- A request that is not started is never returned. -/
theorem neverReturned_of_idle (hs : Heap.system.Reachable s) (hr : s.ledger.busy r = false) :
    NeverReturned s r := by
  intro cs t hrun hcs evs htrace
  have ht : Heap.system.Reachable t :=
    System.reach_of_run hs (System.along_of_forall (fun _ _ => trivial) s cs) hrun
  obtain ⟨b, hb, -, pos, hp⟩ := refines_of_reachable hs
  obtain ⟨b', hb', -⟩ := refines_of_reachable ht
  obtain ⟨p, hphase, ha⟩ := tracked_of_reachable hb r
  obtain rfl := ha.idle hp (hp.idle_of_not_busy hr)
  obtain ⟨p', hphase', -⟩ := tracked_of_reachable hb' r
  have hphase'' : Phase.run r .idle evs = some p' := by
    have := hphase'
    rw [htrace, Phase.run_append, hphase] at this
    exact this
  obtain ⟨evs', htrace', hstart⟩ := trace_run hrun hcs
  obtain rfl : evs = evs' := List.append_cancel_left (htrace.symm.trans htrace')
  exact not_deliver_of_idle hphase'' hstart

end Idle

/-! ## When a start is atomic -/

variable {s : Conf Heap} {r : YoReqT} {h : YoFdT} {op : YoaOp} {ans res : YoCode}

/-- What a start that follows the rules does, on the board it shows. -/
theorem yoa_cases {b : Board} {pos : YoReqT → Board.Place}
    (hR : Refines s.ledger.opened s.mem b) (hp : Board.Placed s.ledger b pos)
    (hc : (Call.start r h op ans res).allowed s.ledger = true) :
    (Heap.yoiUnixIsfd (s.mem.fd h) = false ∧
      s.mem.yoa r h op ans res = (s.mem, .ebadfd, none)) ∨
    (Heap.yoiUnixIsfd (s.mem.fd h) = true ∧ ∃ m code ran b',
      s.mem.yoa r h op ans res = (m, code, ran) ∧ (ans = .ok → code = .ok ∧ ran = none) ∧
        (ans ≠ .ok → ran ≠ none ∨ code ≠ .ok) ∧ Refines s.ledger.opened m b' ∧
        b'.fd h = (b.fd h).inc op.kind) := by
  have hfd : Heap.yoiUnixIsfd (s.mem.fd h) = Heap.yoiUnixIsfd (b.fd h) :=
    congrArg (!·) (hR.isAt h)
  obtain ⟨m', hexec, hR'⟩ := Heap.exec_refines hR hp hc
  obtain ⟨⟨m, code, ran⟩, hyoa⟩ : ∃ x, s.mem.yoa r h op ans res = x := ⟨_, rfl⟩
  simp only [Heap.exec, hyoa, Option.some.injEq, Prod.mk.injEq] at hexec
  obtain ⟨rfl, hout⟩ := hexec
  rw [hfd] at hout ⊢
  obtain ⟨hf, hstart⟩ | ⟨hf, rfl, hstart⟩ | ⟨hf, hans, hstart⟩ := b.exec_start r h op ans res
  · refine .inl ⟨hf, ?_⟩
    rw [Heap.yoa_eq, Heap.yoaStart, hfd, hf]
    simp
  all_goals
    rw [hstart] at hout hR'
    obtain ⟨-, rfl, rfl⟩ := Outcome.started.inj hout
    refine .inr ⟨hf, m, _, _, _, hyoa, ?_, ?_, hR', ?_⟩
  · exact fun e => absurd e (by decide)
  · exact fun _ => .inl (by simp)
  · simp [Board.counted, Board.recount, Board.setmask]
  · exact fun e => ⟨e, rfl⟩
  · exact fun e => .inr e
  · simp [Board.counted, Board.recount, Board.setmask]

/-- Counting a request changes a counter. -/
theorem inc_ne (fd : YoFd) (kind : YoiPlKind) :
    (fd.inc kind).readN ≠ fd.readN ∨ (fd.inc kind).writeN ≠ fd.writeN := by
  have hne : ∀ n : BitVec 32, n + 1 ≠ n := fun n => by bv_omega
  cases kind
  case read | pread | accept => exact .inl (hne fd.readN)
  case write | pwrite => exact .inr (hne fd.writeN)

/-- Once a request is counted, an answer other than `YO_OK` breaks the promise. -/
theorem not_startAtomic (hs : Heap.system.Reachable s)
    (hc : (Call.start r h op ans res).allowed s.ledger = true)
    (hfd : Heap.yoiUnixIsfd (s.mem.fd h) = true) (hans : ans ≠ .ok) :
    ¬ StartAtomic s r h op ans res := by
  intro hatomic
  obtain ⟨b, -, hR, pos, hp⟩ := refines_of_reachable hs
  obtain ⟨t, hstep⟩ := exec_returns hs hc
  rcases yoa_cases hR hp hc with ⟨hfd', -⟩ | ⟨-, m, code, ran, b', hyoa, -, hbad, hR', hinc⟩
  · simp [hfd] at hfd'
  · obtain ⟨-, hread, hwrite, -⟩ := hatomic m code ran t hyoa hstep (hbad hans)
    rw [(hR'.counters h).1, hinc, (hR.counters h).1] at hread
    rw [(hR'.counters h).2, hinc, (hR.counters h).2] at hwrite
    rcases inc_ne (b.fd h) op.kind with hne | hne
    · exact hne hread
    · exact hne hwrite

/-- **When a start is atomic.**  A start that follows the rules keeps its promise exactly when
the handle is refused up front or the backend answers `YO_OK`.  Only a path handle is refused, and
`yo_fd_new` makes none. -/
theorem startAtomic_iff (hs : Heap.system.Reachable s)
    (hc : (Call.start r h op ans res).allowed s.ledger = true) :
    StartAtomic s r h op ans res ↔
      Heap.yoiUnixIsfd (s.mem.fd h) = false ∨ ans = .ok := by
  constructor
  · intro hatomic
    by_contra hne
    simp only [not_or, Bool.not_eq_false] at hne
    exact not_startAtomic hs hc hne.1 hne.2 hatomic
  · intro hcond
    obtain ⟨b, -, hR, pos, hp⟩ := refines_of_reachable hs
    have hbusy : s.ledger.busy r = false := by
      simp only [Call.allowed, Bool.and_eq_true, Bool.not_eq_true'] at hc
      exact hc.1.2
    intro m code ran t hm ht hfail
    rcases yoa_cases hR hp hc with ⟨hfd, hyoa⟩ | ⟨hfd, m', code', ran', b', hyoa, hok, -⟩
    · rw [hyoa] at hm
      obtain ⟨rfl, rfl, rfl⟩ := hm
      obtain rfl : s = t := by
        simpa [Heap.system, calls, hc, Heap.exec, hyoa, hfd, Ledger.after] using ht
      exact ⟨rfl, rfl, rfl, fun _ => ⟨onNoList_of_idle hs hbusy, neverReturned_of_idle hs hbusy⟩⟩
    · rw [hyoa] at hm
      obtain ⟨rfl, rfl, rfl⟩ := hm
      obtain rfl : ans = .ok := hcond.resolve_left (by simp [hfd])
      simp [hok rfl] at hfail

/-- A request and a handle. -/
def oneOfEach : List Call := [.reqNew 0x30 0x10, .fdNew 0x20 5 true]

/-- With the answer `YO_OK` the start is atomic. -/
theorem startAtomic_oneOfEach :
    StartAtomic (Heap.afterCalls oneOfEach) 0x30 0x20 (.read 0x700 0x708) .ok .ok :=
  (startAtomic_iff (Heap.reachable_afterCalls oneOfEach) (by decide +kernel)).mpr (.inr rfl)

/-- With `YO_ENOMEM` the caller gets the error, but the request is on the list, counted, and
the next event returns it; with `YO_EPERM` the counter stays at one. -/
theorem not_startAtomic_oneOfEach :
    let s := Heap.afterCalls oneOfEach
    let failed := s.mem.yoa 0x30 0x20 (.read 0x700 0x708) .enomem .ok
    let ranAtOnce := s.mem.yoa 0x30 0x20 (.read 0x700 0x708) .eperm .ok
    Heap.system.Reachable s ∧ s.mem.handleList 0x20 = some [] ∧ (s.mem.fd 0x20).readN = 0 ∧
      failed.2 = (.enomem, none) ∧ failed.1.handleList 0x20 = some [0x30] ∧
      (failed.1.fd 0x20).readN = 1 ∧
      failed.1.pollRounds 0x10 [⟨.event 0x20 ⟨true, false⟩, .ok, .ok⟩] =
        some [.returned 0x30 .ok (some ⟨0x20, .read 0x700 0x708⟩)] ∧
      ranAtOnce.2 = (.ok, some ⟨0x20, .read 0x700 0x708⟩) ∧
      ranAtOnce.1.handleList 0x20 = some [] ∧ (ranAtOnce.1.fd 0x20).readN = 1 ∧
      ¬ StartAtomic s 0x30 0x20 (.read 0x700 0x708) .enomem .ok ∧
      ¬ StartAtomic s 0x30 0x20 (.read 0x700 0x708) .eperm .ok := by
  have hreach := Heap.reachable_afterCalls oneOfEach
  refine ⟨hreach, ?_, ?_, ?_, ?_, ?_, ?_, ?_, ?_, ?_, not_startAtomic hreach ?_ ?_ ?_,
    not_startAtomic hreach ?_ ?_ ?_⟩
  all_goals decide +kernel

end Yaooi
