import Yaooi.Pool.Process

/-!
# The lives of requests

What the log of a run of the whole process tells of one request.

* `Heap.Shows.code_exec`: no call writes the word in which a worker leaves the code of a request
  that the pool holds.
* `Process.Told`: the log of a request is a row of whole lives and the beginning of another, which
  is where the trace, the workers' hands and the memory say it is.
* `Process.lives_told` is the result.
-/

namespace Yaooi

open Transition Mutex Episodes

/-! ## The code of a request that the pool holds -/

namespace Heap

variable {m : Heap} {r x : YoReqT} {h : YoFdT} {q : YoQueueT} {c : YoCode}

theorem code_yoiReqBegin {fn : Ptr} (hx : x ≠ r) :
    ((m.yoiReqBegin r fn).req x).code = (m.req x).code := by
  rw [req_yoiReqBegin, if_neg hx]

theorem code_yoiReqEnd (hx : x ≠ r) : ((m.yoiReqEnd r c).req x).code = (m.req x).code := by
  rw [req_yoiReqEnd, if_neg hx]

/-- Putting another request on a handle. -/
theorem code_yoaStart {op : YoaOp} {ans res : YoCode} (hx : x ≠ r) :
    ((m.yoaStart r h op ans res).1.req x).code = (m.req x).code := by
  have hfill : ((m.setReq r fun q => { q with ioq := op.fill h q.ioq }).req x) = m.req x := by
    rw [req_setReq, if_neg hx]
  rw [yoaStart]
  split
  · rw [yoiPlReqStart]
    split
    · rw [code_yoiReqEnd hx, code_yoiReqBegin hx]
      exact congrArg YoReq.code hfill
    · show ((yoiReqBegin _ r _).req x).code = _
      rw [code_yoiReqBegin hx]
      exact congrArg YoReq.code hfill
  · rfl

/-- Completing another request because its handle is closed. -/
theorem code_cancelNext {c : Onclose} (hx : x ≠ c.i) :
    ((m.cancelNext c).1.req x).code = (m.req x).code := by
  rw [cancelNext, oncloseBody, code_yoiReqEnd hx]
  rfl

/-- A round of polling writes no code. -/
theorem code_round {m' : Heap} {env : PollEnv} {step : PollStep}
    (hround : m.yoQueuePollRound q env = some (m', step)) :
    (m'.req x).code = (m.req x).code := by
  rw [yoQueuePollRound] at hround
  split at hround
  · rename_i m₁ r code hpop
    obtain ⟨rfl, -⟩ := Prod.mk.inj (Option.some.inj hround)
    rw [← req_yoiQueuePop (m := m) (q := q), hpop]
  · rename_i m₁ hpop
    have hreq : m₁.req = m.req := by rw [← req_yoiQueuePop (m := m) (q := q), hpop]
    split at hround
    · obtain ⟨rfl, -⟩ := Prod.mk.inj (Option.some.inj hround)
      rw [hreq]
    · split at hround
      · obtain ⟨rfl, -⟩ := Prod.mk.inj (Option.some.inj hround)
        rw [hreq]
      · obtain ⟨r, -, he⟩ := Option.map_eq_some_iff.mp hround
        split at he
        · obtain ⟨rfl, -⟩ := Prod.mk.inj he
          rw [hreq]
        · obtain ⟨rfl, -⟩ := Prod.mk.inj he
          rw [← hreq]
          rfl

end Heap

/-- A call of one step leaves the code of a request that the pool holds. -/
theorem Heap.Shows.code_exec {ok : Prop} {m m₁ : Heap} {l : Ledger} {r : YoReqT} {c : Call}
    {out : Outcome} (h : m.Shows ok l none) (hwhole : Process.isWhole c = true)
    (hc : c.allowed l = true) (hexec : m.exec c = some (m₁, out)) (hr : l.pool r = true) :
    (m₁.req r).code = (m.req r).code := by
  have hbusy := (h.of_pool hr).2
  cases c with
  | exec x => cases hwhole
  | finish x code => cases hwhole
  | close g ans => cases hwhole
  | reqNew x q =>
    obtain ⟨rfl, -⟩ := Prod.mk.inj (Option.some.inj hexec)
    show ((m.setReq x _).req r).code = _
    rw [Heap.req_setReq]
    split
    · rename_i e
      rw [e]
      rfl
    · rfl
  | reqFree x | fdNew g fd owned =>
    obtain ⟨rfl, -⟩ := Prod.mk.inj (Option.some.inj hexec)
    rfl
  | start x g op ans res =>
    have hne : r ≠ x := fun e => by simp_all [Call.allowed]
    obtain ⟨rfl, -⟩ := Prod.mk.inj (Option.some.inj hexec)
    show ((m.yoa x g op ans res).1.req r).code = _
    rw [m.yoa_eq]
    exact Heap.code_yoaStart hne
  | poll q env =>
    obtain ⟨p, hround, he⟩ := Option.map_eq_some_iff.mp hexec
    obtain ⟨rfl, -⟩ := Prod.mk.inj he
    exact Heap.code_round hround

/-- So does a close when it completes another request. -/
theorem Heap.Shows.code_cancel {ok : Prop} {m : Heap} {l : Ledger} {r : YoReqT} {x : Onclose}
    (h : m.Shows ok l (some x)) (hi : x.i ≠ NULL) (hr : l.pool r = true) :
    ((m.cancelNext x).1.req r).code = (m.req r).code := by
  obtain ⟨m', b, place, -, -, hR, ho, hp, -⟩ := h
  have hchain := hR.left x rfl
  cases hlist : b.pend x.fd with
  | nil =>
    rw [hlist] at hchain
    exact absurd hchain hi
  | cons i left =>
    rw [hlist] at hchain
    refine Heap.code_cancelNext fun e => ?_
    have hmem : r ∈ b.pend x.fd := by simp [hlist, e, hchain.1]
    exact hp.not_mem_pend (by simp [(hp.pool r).mp hr]) (ho x rfl) hmem

/-! ## Lives -/

/-- From the call that starts a request to its delivery. -/
inductive ReqLife where
  /-- It is started on a handle. -/
  | handle (r : YoReqT) (code : YoCode)
  /-- It is handed to the pool. -/
  | task (t : Task) (code : YoCode)

/-- What is told of such a life: the function of a task is called once, with its argument, and what
it returns is what is delivered. -/
def ReqLife.events : ReqLife → List ReqEvent
  | .handle r code => [.start r, .deliver r code]
  | .task t code =>
    [.accept t, .invoke t.req t.worker t.args, .ret t.req code, .complete t.req code,
      .deliver t.req code]

/-- How much was told of a task that a worker has brought this far (`WorkerPc.stage`). -/
def toldOf (stage : ℕ) : ℕ := if stage ≤ 1 then stage else stage - 1

/-- The phase of a request, and how much was told of its life. -/
inductive Fits (p : Pool) (r : YoReqT) : ReqLife → ℕ → Phase → Prop
  | idle (life : ReqLife) : Fits p r life 0 .idle
  | waiting (call : SyncCall) (c : YoCode) : Fits p r (.handle r c) 1 (.waiting call)
  | canceled (c : YoCode) : Fits p r (.handle r c) 1 .canceled
  | ran (c code : YoCode) : Fits p r (.handle r c) 1 (.done code)
  | held (t : Task) (c : YoCode) (w : YoiPoolWorkerT) (hreq : t.req = r)
      (htask : (p.slot w).task = t) (hne : p.stage w ≠ 0)
      (hcode : p.stage w = 4 → (p.mem.req r).code = c) :
      Fits p r (.task t c) (toldOf (p.stage w)) .pooled
  | completed (t : Task) (c : YoCode) (hreq : t.req = r) : Fits p r (.task t c) 4 (.done c)

/-- What the log tells of a request. -/
def about (r : YoReqT) (log : List ReqEvent) : List ReqEvent := log.filter (·.req = r)

/-- The log of a request tells whole lives of it and the beginning of another, which is where the
trace and the pool say it is. -/
def TellsOf (r : YoReqT) (trace : List Event) (log : List ReqEvent) (p : Pool) : Prop :=
  ∃ (ph : Phase) (life : ReqLife) (n : ℕ), Phase.run r .idle trace = some ph ∧
    Row ReqLife.events (about r log) n life ∧ Fits p r life n ph

section Lives

variable {p p' : Pool} {r x : YoReqT} {life : ReqLife} {n : ℕ} {ph ph' : Phase} {e : Event}
  {evs : List Event} {log : List ReqEvent}

theorem about_self {a : ReqEvent} (h : a.req = r) : about r (log ++ [a]) = about r log ++ [a] := by
  simp [about, h]

theorem about_of_ne {a : ReqEvent} (h : a.req ≠ r) : about r (log ++ [a]) = about r log := by
  simp [about, h]

/-- An entry of the book that a call makes. -/
def Event.ofCall : Event → Bool
  | .exec _ | .ran _ none _ => false
  | .start .. | .ran _ (some _) _ | .close _ | .deliver .. => true

/-- One entry of a call about the request itself. -/
theorem Fits.advance (hfit : Fits p r life n ph) (hrow : Row ReqLife.events (about r log) n life)
    (he : e.ofCall = true) (hr : e.req = none ∨ e.req = some r) (hstep : ph.advance e = some ph') :
    ∃ life' n', Row ReqLife.events (about r (log ++ ReqEvent.ofEvent e)) n' life' ∧
      Fits p r life' n' ph' := by
  cases e with
  | exec x => cases he
  | start x call =>
    obtain rfl : x = r := by simpa [Event.req] using hr
    obtain ⟨rfl, rfl⟩ : ph = .idle ∧ .waiting call = ph' := by simpa [Phase.advance] using hstep
    cases hfit
    refine ⟨.handle x .ok, 1, ?_, .waiting call .ok⟩
    rw [ReqEvent.ofEvent, about_self (r := x) rfl]
    exact (hrow.open_ (f := .handle x .ok)).next rfl
  | ran x call code =>
    cases call with
    | none => cases he
    | some call =>
      simp only [Phase.advance] at hstep
      split at hstep
      · rename_i hph
        subst hph
        cases hstep
        cases hfit with
        | waiting _ c =>
          exact ⟨.handle r c, 1, by simpa [ReqEvent.ofEvent, about] using hrow, .ran c code⟩
      · cases hstep
  | close h =>
    refine ⟨life, n, by simpa [ReqEvent.ofEvent, about] using hrow, ?_⟩
    simp only [Phase.advance] at hstep
    split at hstep
    · cases hstep
      cases hfit with
      | waiting call c => exact .canceled c
      | _ => simp_all [Phase.handle]
    · cases hstep
      exact hfit
  | deliver q x code =>
    obtain rfl : x = r := by simpa [Event.req] using hr
    obtain ⟨hph, rfl⟩ : (ph = .done code ∨ ph = .canceled ∧ code = .ecanceled) ∧ .idle = ph' := by
      simpa [Phase.advance] using hstep
    rw [ReqEvent.ofEvent, about_self (r := x) rfl]
    have onHandle : ∀ c, n = 1 → life = .handle x c →
        Row ReqLife.events (about x log ++ [.deliver x code]) 0 life := by
      rintro c rfl rfl
      exact (hrow.congr (f := .handle x code) rfl).last rfl rfl
    refine ⟨life, 0, ?_, .idle life⟩
    rcases hph with rfl | ⟨rfl, -⟩
    · cases hfit with
      | ran c => exact onHandle c rfl rfl
      | completed t c hreq =>
        subst hreq
        exact hrow.last rfl rfl
    · cases hfit with
      | canceled c => exact onHandle c rfl rfl

/-- One entry of a call. -/
theorem Fits.event (hfit : Fits p r life n ph) (hrow : Row ReqLife.events (about r log) n life)
    (he : e.ofCall = true) (hstep : ph.step r e = some ph') :
    ∃ life' n', Row ReqLife.events (about r (log ++ ReqEvent.ofEvent e)) n' life' ∧
      Fits p r life' n' ph' := by
  by_cases hr : e.req = none ∨ e.req = some r
  · rw [Phase.step_of_req hr] at hstep
    exact hfit.advance hrow he hr hstep
  · rw [Phase.step, if_neg hr, Option.some.injEq] at hstep
    subst hstep
    refine ⟨life, n, ?_, hfit⟩
    have hsame : about r (log ++ ReqEvent.ofEvent e) = about r log := by
      cases e with
      | start x call | deliver q x code =>
        exact about_of_ne fun hx => hr (.inr (congrArg some hx))
      | exec x | ran x call code | close h => rw [ReqEvent.ofEvent, List.append_nil]
    rw [hsame]
    exact hrow

/-- All the entries of a call. -/
theorem Fits.events (hfit : Fits p r life n ph) (hrow : Row ReqLife.events (about r log) n life)
    (he : ∀ e ∈ evs, e.ofCall = true) (hrun : Phase.run r ph evs = some ph') :
    ∃ life' n', Row ReqLife.events (about r (log ++ evs.flatMap ReqEvent.ofEvent)) n' life' ∧
      Fits p r life' n' ph' := by
  induction evs generalizing ph life n log with
  | nil =>
    obtain rfl := Option.some.inj hrun
    exact ⟨life, n, by simpa using hrow, hfit⟩
  | cons e evs ih =>
    obtain ⟨ph₁, hstep, hrest⟩ := Option.bind_eq_some_iff.mp hrun
    obtain ⟨life₁, n₁, hrow₁, hfit₁⟩ := hfit.event hrow (he e (List.mem_cons_self ..)) hstep
    obtain ⟨life', n', hrow', hfit'⟩ :=
      ih hfit₁ hrow₁ (fun x hx => he x (List.mem_cons_of_mem _ hx)) hrest
    rw [List.append_assoc, ← List.flatMap_cons] at hrow'
    exact ⟨life', n', hrow', hfit'⟩

/-- What leaves the request's own task alone keeps it where it is. -/
theorem Fits.frame (hfit : Fits p r life n ph)
    (hheld : ∀ w, p.stage w ≠ 0 → (p.slot w).req = r → p'.slot w = p.slot w ∧
      (p'.stage w = p.stage w ∨ p.stage w = 1 ∧ p'.stage w = 2))
    (hcode : ph = .pooled → (p'.mem.req r).code = (p.mem.req r).code) :
    Fits p' r life n ph := by
  cases hfit with
  | idle => exact .idle life
  | waiting call c => exact .waiting call c
  | canceled c => exact .canceled c
  | ran c code => exact .ran c code
  | completed t c hreq => exact .completed t c hreq
  | held t c w hreq htask hne hcode' =>
    have hslot : (p.slot w).req = r := by rw [← hreq, ← htask, YoiPoolWorker.req_task]
    obtain ⟨hsame, hstage⟩ := hheld w hne hslot
    have htold : toldOf (p.stage w) = toldOf (p'.stage w) := by
      rcases hstage with e | ⟨e, e'⟩
      · rw [e]
      · rw [e, e']
        rfl
    rw [htold]
    refine .held t c w hreq (by rw [hsame, htask]) (by omega) fun h4 => ?_
    rw [hcode rfl]
    exact hcode' (by omega)

/-- The request that a worker has in hand. -/
theorem Fits.inHand {w : YoiPoolWorkerT} (hfit : Fits p r life n .pooled) (hapart : p.Apart)
    (hw : p.stage w ≠ 0) (hr : (p.slot w).req = r) :
    ∃ c, life = .task (p.slot w).task c ∧ n = toldOf (p.stage w) ∧
      (p.stage w = 4 → (p.mem.req r).code = c) := by
  cases hfit with
  | held t c v hreq htask hne hcode =>
    have hslot : (p.slot v).req = r := by rw [← hreq, ← htask, YoiPoolWorker.req_task]
    obtain rfl := hapart.slots v w hne hw (hslot.trans hr.symm)
    exact ⟨c, by rw [htask], rfl, hcode⟩

/-- What is about another request. -/
theorem TellsOf.other {tr : List Event} {a : ReqEvent} (ht : TellsOf r tr log p)
    (hevs : ∀ x ∈ evs, x.req = some a.req) (ha : a.req ≠ r)
    (hheld : ∀ w, p.stage w ≠ 0 → (p.slot w).req = r →
      p'.slot w = p.slot w ∧ p'.stage w = p.stage w)
    (hcode : (p'.mem.req r).code = (p.mem.req r).code) :
    TellsOf r (tr ++ evs) (log ++ [a]) p' := by
  obtain ⟨ph, life, n, hrun, hrow, hfit⟩ := ht
  refine ⟨ph, life, n, ?_, by rwa [about_of_ne ha], hfit.frame (fun v hv hr => ?_) fun _ => hcode⟩
  · rw [Phase.run_append, hrun, Option.bind_some]
    exact Phase.run_of_ne hevs ha
  · exact ⟨(hheld v hv hr).1, .inl (hheld v hv hr).2⟩

end Lives

namespace Process

variable {q : YoQueueT} {s t : Process} {a : ProcessAct} {p : Pool} {r : YoReqT} {ph : Phase}
  {w : YoiPoolWorkerT} {ok : Prop}

/-- The phase of a request that the pool holds. -/
theorem Kept.pooled (h : Kept ok s) (hrun : Phase.run r .idle s.ledger.trace = some ph)
    (hr : s.ledger.pool r = true) : ph = .pooled := by
  obtain ⟨m', b, place, -, -, -, -, hp, ht⟩ := h.shows
  obtain ⟨ph', hrun', ha⟩ := ht r
  obtain rfl := Option.some.inj (hrun.symm.trans hrun')
  have hplace := (hp.pool r).mp hr
  rcases ha.split hp with ha | ⟨-, q, hq⟩
  · exact ha.pooled hp hplace
  · simp [hplace] at hq

/-- The phase of a request that is not started. -/
theorem Kept.idle (h : Kept ok s) (hr : s.ledger.busy r = false) :
    Phase.run r .idle s.ledger.trace = some .idle := by
  obtain ⟨m', b, place, -, -, -, -, hp, ht⟩ := h.shows
  obtain ⟨ph, hrun, ha⟩ := ht r
  have hplace := hp.idle_of_not_busy hr
  rcases ha.split hp with ha | ⟨-, q, hq⟩
  · rw [hrun, ha.idle hp hplace]
  · simp [hplace] at hq

/-- What is told of the request that a worker has in hand. -/
theorem Kept.inHand (h : Kept ok s) (ht : TellsOf r s.ledger.trace s.log s.pool)
    (hw : s.pool.stage w ≠ 0) (hr : (s.pool.slot w).req = r) :
    Phase.run r .idle s.ledger.trace = some .pooled ∧ ∃ c,
      Row ReqLife.events (about r s.log) (toldOf (s.pool.stage w))
        (.task (s.pool.slot w).task c) ∧
      (s.pool.stage w = 4 → (s.pool.mem.req r).code = c) := by
  obtain ⟨ph, life, n, hrun, hrow, hfit⟩ := ht
  obtain rfl := h.pooled hrun ((h.held r).mpr ⟨w, hw, hr⟩)
  obtain ⟨c, rfl, rfl, hcode⟩ := hfit.inHand h.apart hw hr
  exact ⟨hrun, c, hrow, hcode⟩

/-- A worker gets a task. -/
theorem tells_accept {task : Task} (ht : TellsOf r s.ledger.trace s.log s.pool)
    (hidle : task.req = r → Phase.run r .idle s.ledger.trace = some .idle)
    (hfree : s.pool.stage w = 0) (hstage : p.stage w = 1) (htask : (p.slot w).task = task)
    (hother : ∀ v, v ≠ w → p.stage v = s.pool.stage v ∧ p.slot v = s.pool.slot v)
    (hcode : task.req ≠ r → (p.mem.req r).code = (s.pool.mem.req r).code) :
    TellsOf r (s.ledger.trace ++ [.exec task.req]) (s.log ++ [.accept task]) p := by
  by_cases hr : task.req = r
  · obtain ⟨ph, life, n, hrun, hrow, hfit⟩ := ht
    obtain rfl := Option.some.inj (hrun.symm.trans (hidle hr))
    cases hfit
    refine ⟨.pooled, .task task .ok, 1, ?_, ?_, ?_⟩
    · rw [Phase.run_append, hrun, Option.bind_some]
      simp [Phase.step, Event.req, hr, Phase.advance]
    · rw [about_self (a := .accept task) hr]
      exact (hrow.open_ (f := .task task .ok)).next rfl
    · have := Fits.held (p := p) task .ok w hr htask (by simp [hstage]) (by simp [hstage])
      rwa [hstage] at this
  · refine ht.other (a := .accept task) (by simp [Event.req, ReqEvent.req]) hr (fun v hv _ => ?_)
      (hcode hr)
    have hne : v ≠ w := fun e => hv (e ▸ hfree)
    exact ⟨(hother v hne).2, (hother v hne).1⟩

/-- A step of a worker with the request it has in hand, which it keeps in hand. -/
theorem Kept.tells_next {x : ReqEvent} (h : Kept ok s)
    (ht : TellsOf r s.ledger.trace s.log s.pool) (hx : x.req = (s.pool.slot w).req)
    (hw : s.pool.stage w ≠ 0) (hw' : p.stage w ≠ 0) (hslot : p.slot = s.pool.slot)
    (hother : ∀ v, v ≠ w → p.stage v = s.pool.stage v)
    (hcode : (s.pool.slot w).req ≠ r → (p.mem.req r).code = (s.pool.mem.req r).code)
    (hnext : (s.pool.slot w).req = r → ∀ c, ∃ c',
      (ReqLife.task (s.pool.slot w).task c').events.take (toldOf (s.pool.stage w)) =
        (ReqLife.task (s.pool.slot w).task c).events.take (toldOf (s.pool.stage w)) ∧
      (ReqLife.task (s.pool.slot w).task c').events[toldOf (s.pool.stage w)]? = some x ∧
      toldOf (p.stage w) = toldOf (s.pool.stage w) + 1 ∧
      (p.stage w = 4 → (p.mem.req r).code = c')) :
    TellsOf r s.ledger.trace (s.log ++ [x]) p := by
  by_cases hr : (s.pool.slot w).req = r
  · obtain ⟨hrun, c, hrow, -⟩ := h.inHand ht hw hr
    obtain ⟨c', hsame, hget, htold, hcode'⟩ := hnext hr c
    refine ⟨.pooled, .task (s.pool.slot w).task c', toldOf (p.stage w), hrun, ?_, ?_⟩
    · rw [about_self (hx.trans hr), htold]
      exact (hrow.congr hsame).next hget
    · exact .held _ c' w hr (by rw [hslot]) hw' hcode'
  · have hevs : ∀ e ∈ ([] : List Event), e.req = some x.req := by simp
    have := ht.other hevs (by rwa [hx])
      (fun v _ hvr => ⟨by rw [hslot], hother v fun e => hr (e ▸ hvr)⟩) (hcode hr)
    rwa [List.append_nil] at this

/-- A worker puts the request it has in hand on the ready list. -/
theorem Kept.tells_complete (h : Kept ok s) (ht : TellsOf r s.ledger.trace s.log s.pool)
    (hs : s.pool.stage w = 4) (hslot : p.slot = s.pool.slot)
    (hother : ∀ v, v ≠ w → p.stage v = s.pool.stage v)
    (hcode : (p.mem.req r).code = (s.pool.mem.req r).code) :
    TellsOf r
      (s.ledger.trace ++ [.ran (s.pool.slot w).req none (s.pool.mem.req (s.pool.slot w).req).code])
      (s.log ++ [.complete (s.pool.slot w).req (s.pool.mem.req (s.pool.slot w).req).code]) p := by
  by_cases hr : (s.pool.slot w).req = r
  · obtain ⟨hrun, c, hrow, hc⟩ := h.inHand ht (by simp [hs]) hr
    rw [hs] at hrow
    rw [hr, hc hs]
    refine ⟨.done c, .task (s.pool.slot w).task c, 4, ?_, ?_, .completed _ c hr⟩
    · rw [Phase.run_append, hrun, Option.bind_some]
      simp [Phase.step, Event.req, Phase.advance, Phase.started]
    · rw [about_self (r := r) rfl]
      refine hrow.next ?_
      rw [← hr]
      rfl
  · exact ht.other (a := .complete _ _) (by simp [Event.req, ReqEvent.req]) hr
      (fun v _ hvr => ⟨by rw [hslot], hother v fun e => hr (e ▸ hvr)⟩) hcode

/-- A step of a thread. -/
theorem Kept.tells_thread {new : List TaskEvent} (h : Kept ok s)
    (ht : TellsOf r s.ledger.trace s.log s.pool) (hmove : s.pool.ThreadMove p new) :
    TellsOf r (new.foldl Ledger.note s.ledger).trace
      (s.log ++ new.flatMap (ReqEvent.ofTask s.pool.slot)) p := by
  cases hmove with
  | silent _ hlog hbook hmem hslot hstage =>
    obtain ⟨ph, life, n, hrun, hrow, hfit⟩ := ht
    rw [hbook, hlog, List.append_nil]
    refine ⟨ph, life, n, hrun, hrow, hfit.frame (fun w hw _ => ⟨hslot w hw, hstage w⟩) fun _ => ?_⟩
    rw [hmem]
  | accept task w hs _ hfree hstage htask hother hmem =>
    refine tells_accept ht (fun hr => h.idle ?_) hfree hstage htask hother fun hr => ?_
    · have hc := h.task task hs
      simp only [Call.allowed, Bool.and_eq_true, Bool.not_eq_true'] at hc
      exact hr ▸ hc.2
    · rw [hmem, Heap.code_yoiReqBegin (Ne.symm hr)]
  | invoke w hs hs' hother hslot hmem =>
    refine h.tells_next ht rfl (by simp [hs]) (by simp [hs']) hslot hother (fun _ => by rw [hmem])
      fun _ c => ⟨c, rfl, ?_, ?_, by simp [hs']⟩
    · rw [hs]
      rfl
    · rw [hs, hs']
      rfl
  | ret w code hs hs' hother hslot hmem =>
    refine h.tells_next ht rfl (by simp [hs]) (by simp [hs']) hslot hother (fun hr => ?_)
      fun hr c => ⟨code, ?_, ?_, ?_, fun _ => ?_⟩
    · rw [hmem, Heap.endCode, Heap.req_setReq, if_neg (Ne.symm hr)]
    · rw [hs]
      rfl
    · rw [hs]
      rfl
    · rw [hs, hs']
      rfl
    · simp [hmem, Heap.endCode, hr]
  | complete w hs hs' hother hslot hmem =>
    exact h.tells_complete ht hs hslot hother (by rw [hmem, Heap.code_endLink])

/-- What a call of one step writes into the book. -/
theorem trace_after {l : Ledger} {c : Call} {out : Outcome} (hwhole : isWhole c = true) :
    ∃ evs, (l.after c out).trace = l.trace ++ evs ∧ ∀ e ∈ evs, e.ofCall = true := by
  have hran : ∀ r code ran, ∀ e ∈ Ledger.ranEvent r code ran, e.ofCall = true := by
    intro r code ran e he
    cases ran with
    | none => cases he
    | some call =>
      obtain rfl := List.mem_singleton.mp he
      rfl
  unfold Ledger.after
  split
  case h_4 r h op ans res call =>
    refine ⟨_, rfl, fun e he => ?_⟩
    rcases List.mem_cons.mp he with rfl | he
    · rfl
    · exact hran _ _ _ e he
  case h_8 q env r code ran =>
    refine ⟨_, rfl, fun e he => ?_⟩
    rcases List.mem_append.mp he with he | he
    · exact hran _ _ _ e he
    · obtain rfl := List.mem_singleton.mp he
      rfl
  case h_7 h ans => exact ⟨_, rfl, by simp [Event.ofCall]⟩
  case h_5 | h_6 => cases hwhole
  all_goals exact ⟨[], by simp⟩

/-- The request that the pool holds keeps its code, and so its place in its life. -/
theorem Kept.fits_congr {m : Heap} {life : ReqLife} {n : ℕ} (h : Kept ok s)
    (hfit : Fits s.pool r life n ph)
    (hcode : s.ledger.pool r = true → (m.req r).code = (s.pool.mem.req r).code) :
    Fits { s.pool with mem := m } r life n ph := by
  refine hfit.frame (fun w _ _ => ⟨rfl, .inl rfl⟩) fun hph => hcode ?_
  subst hph
  cases hfit with
  | held t c w hreq htask hne hcode =>
    refine (h.held r).mpr ⟨w, hne, ?_⟩
    rw [← hreq, ← htask, YoiPoolWorker.req_task]

/-- A call that is over. -/
theorem Kept.tells_call {m : Heap} {l : Ledger} {evs : List Event} (h : Kept ok s)
    (ht : TellsOf r s.ledger.trace s.log s.pool) (hshow : m.Shows ok l none)
    (hevs : l.trace = s.ledger.trace ++ evs) (hcall : ∀ e ∈ evs, e.ofCall = true)
    (hcode : s.ledger.pool r = true → (m.req r).code = (s.pool.mem.req r).code) :
    TellsOf r (s.afterCall m l).ledger.trace (s.afterCall m l).log (s.afterCall m l).pool := by
  obtain ⟨ph, life, n, hrun, hrow, hfit⟩ := ht
  obtain ⟨m', b, place, -, -, -, -, -, ht'⟩ := hshow
  obtain ⟨ph', hrun', -⟩ := ht' r
  have hrest : Phase.run r ph evs = some ph' := by
    rw [hevs, Phase.run_append, hrun] at hrun'
    exact hrun'
  obtain ⟨life', n', hrow', hfit'⟩ := (h.fits_congr hfit hcode).events hrow hcall hrest
  refine ⟨ph', life', n', hrun', ?_, hfit'⟩
  rw [afterCall, hevs, List.drop_left]
  exact hrow'

theorem tells_of_reachable (h : (system q).Reachable s) (r : YoReqT) :
    TellsOf r s.ledger.trace s.log s.pool := by
  refine h.invariant (P := fun s => TellsOf r s.ledger.trace s.log s.pool) ?_ ?_
  · rintro ⟨p, l, log, c⟩ ⟨-, -, rfl, rfl, -⟩
    exact ⟨.idle, .handle r .ok, 0, rfl, .nil, .idle _⟩
  · intro s a t hr ht _ hst
    have hkept := kept_of_reachable hr
    have hshow := hkept.shows
    cases step_cases hst with
    | thread hok hthread =>
      exact hkept.tells_thread ht
        (hkept.atWork.threadMove hkept.sound (noFree_of_permits hok) hthread)
    | @call c m out hfree hwhole hc hexec =>
      rw [Option.isNone_iff_eq_none.mp hfree.2] at hshow
      have hwhole' : c.whole none = true := by cases c <;> first | rfl | cases hwhole
      obtain ⟨evs, hevs, hcall⟩ : ∃ evs, (s.ledger.after c out).trace = s.ledger.trace ++ evs ∧
          ∀ e ∈ evs, e.ofCall = true := trace_after hwhole
      exact hkept.tells_call ht (hshow.of_exec hwhole' hc hexec) hevs hcall
        fun hr => hshow.code_exec hwhole hc hexec hr
    | close hfree ho => exact ht
    | cancel hc hi =>
      rw [hc] at hshow
      obtain ⟨ph, life, n, hrun, hrow, hfit⟩ := ht
      exact ⟨ph, life, n, hrun, hrow, hkept.fits_congr hfit fun hr => hshow.code_cancel hi hr⟩
    | @shut c hc hi =>
      rw [hc] at hshow
      have hevs : (s.ledger.after (.close c.fd c.ans) .done).trace =
          s.ledger.trace ++ [.close c.fd] := rfl
      exact hkept.tells_call ht (hshow.shut hi) hevs (by simp [Event.ofCall]) fun _ => rfl

/-- **Every life is told, and ends with its own code.**  In every state of every run of the program,
the log of a request is a row of whole lives and the beginning of another one, which has begun
exactly while the request is started and not delivered.  So what is given to `yo_req_exec` is called
exactly once, with its own argument, and what it returns is what `yo_queue_poll` delivers, once. -/
theorem lives_told (h : (system q).Reachable s) (r : YoReqT) :
    ∃ (life : ReqLife) (n : ℕ), Row ReqLife.events (s.log.filter (·.req = r)) n life ∧
      n < life.events.length ∧ (s.ledger.busy r = true ↔ n ≠ 0) := by
  obtain ⟨m', b, place, -, -, -, -, hp, ht⟩ := (kept_of_reachable h).shows
  obtain ⟨ph, life, n, hrun, hrow, hfit⟩ := tells_of_reachable h r
  obtain ⟨ph', hrun', ha⟩ := ht r
  obtain rfl := Option.some.inj (hrun.symm.trans hrun')
  have hbusy : s.ledger.busy r = true ↔ ph ≠ .idle := by
    rw [hp.busy r]
    rcases ha.split hp with ha | ⟨⟨call, rfl⟩, k, hk⟩
    · have hplace := ha.place hp
      cases ph with
      | done | canceled =>
        obtain ⟨k, hk⟩ := hplace
        simp [hk]
      | _ => simp_all
    · simp [hk]
  rw [hbusy]
  refine ⟨life, n, hrow, ?_⟩
  cases hfit with
  | idle => cases life <;> simp [ReqLife.events]
  | held t c w hreq htask hne hcode =>
    have hle := s.pool.stage_le w
    simp only [ReqLife.events, toldOf, List.length_cons, List.length_nil]
    constructor
    · split <;> omega
    · refine iff_of_true (by simp) ?_
      split <;> omega
  | _ => simp [ReqLife.events]

/-- A request is handed to the pool, its function returns `YO_ENOMEM`, and it is delivered. -/
def oneTask : List ProcessAct :=
  .call (.reqNew 0x30 0x10) :: .thread (.exec ⟨0x30, 0x401400, 0x700⟩) ::
    .thread (.caller ⟨0x40, .ok⟩) :: List.replicate 8 (.thread (.worker 0x40 .enomem)) ++
      [.call (.poll 0x10 ⟨.error .eperm, .ok, .ok⟩)]

/-- Its life is told to the end. -/
theorem lives_told_oneTask :
    ∃ s, (system 0x10).run start oneTask = some s ∧
      (∃ (life : ReqLife) (n : ℕ), Row ReqLife.events (s.log.filter (·.req = 0x30)) n life ∧
        n < life.events.length ∧ (s.ledger.busy 0x30 = true ↔ n ≠ 0)) ∧
      s.log = (ReqLife.task ⟨0x30, 0x401400, 0x700⟩ .enomem).events := by
  have hlog : ((system 0x10).run start oneTask).map (·.log) =
      some (ReqLife.task ⟨0x30, 0x401400, 0x700⟩ .enomem).events := by decide +kernel
  obtain ⟨s, hrun, hs⟩ := Option.map_eq_some_iff.mp hlog
  exact ⟨s, hrun, lives_told (System.reachable_of_run (init_start 0x10) hrun) 0x30, hs⟩

end Process

end Yaooi
