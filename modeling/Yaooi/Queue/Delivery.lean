import Yaooi.Queue.Life
import Yaooi.Queue.Refine

/-!
# Delivery

Every start is answered once.  `Tracked` ties the phase that the trace gives a request to
the place the board gives it, and `tracked_of_reachable` shows that every run keeps the two
together.  With the reading of the trace (`reading_of_run`) and the refinement this gives
`exactly_once`: a request that was started and not delivered is in exactly one place, a
start is delivered at most once, and with the code of its own operation, or with
`YO_ECANCELED` and without the operation exactly when its handle was closed in time.
-/

namespace Yaooi

open Transition

/-- The board and the book are where the phase says. -/
def Phase.Agrees (l : Ledger) (b : Board) (r : YoReqT) : Phase → Prop
  | .idle => l.busy r = false
  | .waiting call => l.opened call.fd = true ∧ r ∈ b.pend call.fd ∧ b.op r = call.op
  | .pooled => l.pool r = true
  | .done code => ∃ q, (r, code) ∈ b.ready q
  | .canceled => ∃ q, (r, .ecanceled) ∈ b.ready q

/-- The trace and the board tell the same story of every request. -/
def Tracked (l : Ledger) (b : Board) : Prop :=
  ∀ r, ∃ p, Phase.run r .idle l.trace = some p ∧ p.Agrees l b r

section Step

variable {l l' : Ledger} {b b' : Board} {pos : YoReqT → Board.Place} {r : YoReqT}
  {p : Phase} {evs : List Event}

/-- The phase that agrees says where the request is. -/
theorem Phase.Agrees.place (ha : p.Agrees l b r) (hp : Board.Placed l b pos) :
    match p with
    | .idle => pos r = .idle
    | .waiting call => pos r = .handle call.fd
    | .pooled => pos r = .pool
    | .done _ | .canceled => ∃ q, pos r = .ready q := by
  cases p with
  | idle => exact hp.idle_of_not_busy ha
  | waiting call => exact (hp.pend call.fd r ha.1).mp ha.2.1
  | pooled => exact (hp.pool r).mp ha
  | done code =>
    obtain ⟨q, hq⟩ := ha
    exact ⟨q, (hp.ready q r).mp (List.mem_map.mpr ⟨_, hq, rfl⟩)⟩
  | canceled =>
    obtain ⟨q, hq⟩ := ha
    exact ⟨q, (hp.ready q r).mp (List.mem_map.mpr ⟨_, hq, rfl⟩)⟩

/-- What is not changed about a request agrees with its phase as before. -/
theorem Phase.Agrees.mono (ha : p.Agrees l b r) (hbusy : l'.busy r = l.busy r)
    (hpool : l'.pool r = l.pool r)
    (hpend : ∀ h, l.opened h = true → r ∈ b.pend h → l'.opened h = true ∧ r ∈ b'.pend h)
    (hop : b'.op r = b.op r)
    (hready : ∀ q code, (r, code) ∈ b.ready q → (r, code) ∈ b'.ready q) : p.Agrees l' b' r := by
  cases p with
  | idle => exact hbusy.trans ha
  | waiting call =>
    obtain ⟨hopen, hmem⟩ := hpend _ ha.1 ha.2.1
    exact ⟨hopen, hmem, hop.trans ha.2.2⟩
  | pooled => exact hpool.trans ha
  | done code => exact ha.imp fun q => hready q code
  | canceled => exact ha.imp fun q => hready q .ecanceled

/-- Everything about the requests other than `r` is as it was. -/
structure SameBut (r : YoReqT) (l : Ledger) (b : Board) (l' : Ledger) (b' : Board) : Prop where
  opened : l'.opened = l.opened
  busy : ∀ x, x ≠ r → l'.busy x = l.busy x
  pool : ∀ x, x ≠ r → l'.pool x = l.pool x
  pend : ∀ x h, x ≠ r → x ∈ b.pend h → x ∈ b'.pend h
  op : ∀ x, x ≠ r → b'.op x = b.op x
  ready : ∀ x q code, x ≠ r → (x, code) ∈ b.ready q → (x, code) ∈ b'.ready q

/-- **A step about one request** keeps the story straight if it does so for that request. -/
theorem Tracked.about (ht : Tracked l b) (hsame : SameBut r l b l' b')
    (htrace : l'.trace = l.trace ++ evs) (hevs : ∀ e ∈ evs, e.req = some r)
    (hr : ∀ p, p.Agrees l b r → ∃ p', Phase.run r p evs = some p' ∧ p'.Agrees l' b' r) :
    Tracked l' b' := by
  intro x
  obtain ⟨p, hrun, ha⟩ := ht x
  rw [htrace, Phase.run_append, hrun, Option.bind_some]
  by_cases hx : x = r
  · subst hx
    exact hr p ha
  · refine ⟨p, Phase.run_of_ne hevs (Ne.symm hx), ha.mono (hsame.busy x hx) (hsame.pool x hx) ?_
      (hsame.op x hx) fun q code => hsame.ready x q code hx⟩
    intro h hopen hmem
    rw [hsame.opened]
    exact ⟨hopen, hsame.pend x h hx hmem⟩

/-- A step that changes no place and writes nothing down. -/
theorem Tracked.quiet (ht : Tracked l b) (htrace : l'.trace = l.trace) (hbusy : l'.busy = l.busy)
    (hpool : l'.pool = l.pool)
    (hpend : ∀ r h, l.opened h = true → r ∈ b.pend h → l'.opened h = true ∧ r ∈ b'.pend h)
    (hop : b'.op = b.op) (hready : b'.ready = b.ready) : Tracked l' b' := by
  intro r
  obtain ⟨p, hrun, ha⟩ := ht r
  refine ⟨p, htrace ▸ hrun, ha.mono (by rw [hbusy]) (by rw [hpool]) (hpend r) (by rw [hop]) ?_⟩
  rw [hready]
  exact fun _ _ => id

/-- A request that is not busy is in no phase but the first. -/
theorem Phase.Agrees.idle (ha : p.Agrees l b r) (hp : Board.Placed l b pos)
    (hr : pos r = .idle) : p = .idle := by
  have hplace := ha.place hp
  rw [hr] at hplace
  cases p <;> simp_all

/-- A request on a handle waits for what the board says. -/
theorem Phase.Agrees.waiting {h : YoFdT} (ha : p.Agrees l b r) (hp : Board.Placed l b pos)
    (hr : pos r = .handle h) : p = .waiting ⟨h, b.op r⟩ := by
  have hplace := ha.place hp
  rw [hr] at hplace
  cases p with
  | waiting call =>
    obtain rfl : h = call.fd := by simpa using hplace
    rw [ha.2.2]
  | idle | pooled | done | canceled => simp_all

theorem Phase.Agrees.pooled (ha : p.Agrees l b r) (hp : Board.Placed l b pos)
    (hr : pos r = .pool) : p = .pooled := by
  have hplace := ha.place hp
  rw [hr] at hplace
  cases p <;> simp_all

/-- A completed request is in a phase that lets its code be delivered. -/
theorem Phase.Agrees.ready {q : YoQueueT} {code : YoCode} (ha : p.Agrees l b r)
    (hp : Board.Placed l b pos) (hr : (r, code) ∈ b.ready q) :
    p = .done code ∨ p = .canceled ∧ code = .ecanceled := by
  have hpos : pos r = .ready q := (hp.ready q r).mp (List.mem_map.mpr ⟨_, hr, rfl⟩)
  have unique : ∀ k c, (r, c) ∈ b.ready k → c = code := by
    intro k c hc
    have hk := (hp.ready k r).mp (List.mem_map.mpr ⟨_, hc, rfl⟩)
    obtain rfl : k = q := by simpa [hpos] using hk.symm
    exact congrArg Prod.snd (List.inj_on_of_nodup_map (hp.ready_nodup k) hc hr rfl)
  have hplace := ha.place hp
  rw [hpos] at hplace
  cases p with
  | idle | waiting | pooled => simp at hplace
  | done c =>
    obtain ⟨k, hc⟩ := ha
    exact .inl (by rw [unique k c hc])
  | canceled =>
    obtain ⟨k, hc⟩ := ha
    exact .inr ⟨rfl, (unique k _ hc).symm⟩

/-! ## The calls -/

/-- A start on a handle. -/
theorem Tracked.start {h : YoFdT} {op : YoaOp} {ans res : YoCode} (ht : Tracked l b)
    (hp : Board.Placed l b pos) (hbusy : l.busy r = false) (ho : l.opened h = true) :
    Tracked (l.after (.start r h op ans res) (b.exec (.start r h op ans res)).2)
      (b.exec (.start r h op ans res)).1 := by
  have hidle := hp.idle_of_not_busy hbusy
  obtain ⟨-, hexec⟩ | ⟨-, -, hexec⟩ | ⟨-, -, hexec⟩ := b.exec_start r h op ans res
  all_goals rw [hexec]
  · exact ht
  · refine ht.about (r := r) ?_ rfl ?_ ?_
    · constructor
      case ready => exact fun x q code hx hmem => Board.mem_ready_push hmem
      all_goals simp_all [Ledger.after]
    · simp [Ledger.ranEvent, Event.req]
    · intro p ha
      obtain rfl := ha.idle hp hidle
      refine ⟨.done res, ?_, b.queueOf r, ?_⟩
      · simp [Ledger.ranEvent, Phase.step, Event.req, Phase.advance, Phase.started]
      · simp [Board.ready_push]
  · refine ht.about (r := r) ?_ rfl ?_ ?_
    · constructor
      case pend =>
        intro x g hx hmem
        by_cases hg : g = h <;> simp_all
      all_goals simp_all [Ledger.after]
    · simp [Ledger.ranEvent, Event.req]
    · intro p ha
      obtain rfl := ha.idle hp hidle
      refine ⟨.waiting ⟨h, op⟩, ?_, ho, ?_, ?_⟩
      · simp [Ledger.ranEvent, Phase.step, Event.req, Phase.advance]
      · simp
      · simp

/-- A request is handed to the pool. -/
theorem Tracked.exec (ht : Tracked l b) (hp : Board.Placed l b pos) (hbusy : l.busy r = false) :
    Tracked (l.after (.exec r) (b.exec (.exec r)).2) (b.exec (.exec r)).1 := by
  refine ht.about (r := r) ?_ rfl ?_ ?_
  · constructor <;> simp_all [Ledger.after, Board.exec]
  · simp [Event.req]
  · intro p ha
    obtain rfl := ha.idle hp (hp.idle_of_not_busy hbusy)
    exact ⟨.pooled, by simp [Phase.step, Event.req, Phase.advance],
      by simp [Phase.Agrees, Ledger.after]⟩

/-- A pool thread completes its request. -/
theorem Tracked.finish {code : YoCode} (ht : Tracked l b) (hp : Board.Placed l b pos)
    (hpool : l.pool r = true) :
    Tracked (l.after (.finish r code) (b.exec (.finish r code)).2)
      (b.exec (.finish r code)).1 := by
  refine ht.about (r := r) ?_ rfl ?_ ?_
  · constructor
    case ready => exact fun x q code hx hmem => Board.mem_ready_push hmem
    all_goals simp_all [Ledger.after, Board.exec]
  · simp [Event.req]
  · intro p ha
    obtain rfl := ha.pooled hp ((hp.pool r).mp hpool)
    refine ⟨.done code, ?_, b.queueOf r, ?_⟩
    · simp [Phase.step, Event.req, Phase.advance, Phase.started]
    · simp [Board.exec, Board.ready_push]

/-- A handle is closed: what waits on it is canceled. -/
theorem Tracked.close {h : YoFdT} {ans : YoReqT → YoCode} (ht : Tracked l b)
    (ho : l.opened h = true) :
    Tracked (l.after (.close h ans) (b.exec (.close h ans)).2) (b.exec (.close h ans)).1 := by
  obtain ⟨-, hop, -, hpend⟩ := b.frame_cancelAll h ans (b.pend h)
  have hready := b.ready_cancelAll h ans (b.pend h)
  rw [← Board.close_eq_cancelAll] at hop hpend hready
  intro r
  obtain ⟨p, hrun, ha⟩ := ht r
  have hrun' : Phase.run r .idle (l.after (.close h ans) .done).trace =
      p.step r (.close h) := by
    simp only [Ledger.after, Phase.run_append, hrun, Option.bind_some, Phase.run_cons]
    cases p.step r (.close h) <;> rfl
  by_cases hh : p.handle = some h
  · refine ⟨.canceled, hrun'.trans ?_, b.queueOf r, ?_⟩
    · rw [Phase.step_of_req (.inl rfl), Phase.advance, if_pos hh]
    · cases p with
      | waiting call =>
        obtain rfl : call.fd = h := by simpa [Phase.handle] using hh
        simp [Board.exec, hready, ha.2.1]
      | idle | pooled | done | canceled => simp [Phase.handle] at hh
  · refine ⟨p, hrun'.trans ?_, ?_⟩
    · rw [Phase.step_of_req (.inl rfl), Phase.advance, if_neg hh]
    · have keep : ∀ q code, (r, code) ∈ b.ready q → (r, code) ∈ (b.close h ans).ready q :=
        fun q code hmem => by simp [hready, hmem]
      cases p with
      | waiting call =>
        have hne : call.fd ≠ h := fun e => hh (by simp [Phase.handle, e])
        refine ⟨?_, ?_, ?_⟩
        · simpa [Ledger.after, hne] using ha.1
        · simpa [Board.exec, hpend] using ha.2.1
        · simpa [Board.exec, hop] using ha.2.2
      | idle => exact ha
      | pooled => exact ha
      | done code => exact ha.imp fun q => keep q code
      | canceled => exact ha.imp fun q => keep q .ecanceled

/-- A round of polling. -/
theorem Tracked.poll {q : YoQueueT} {env : PollEnv} (ht : Tracked l b)
    (hp : Board.Placed l b pos) (hc : (Call.poll q env).allowed l = true) :
    Tracked (l.after (.poll q env) (b.exec (.poll q env)).2) (b.exec (.poll q env)).1 := by
  obtain ⟨r, code, t, hready, hexec⟩ | ⟨h, mask, r, -, hev, hh, hpick, hexec⟩ |
    ⟨-, -, step, hexec, hstep⟩ := b.exec_poll q env
  all_goals rw [hexec]
  · refine ht.about (r := r) ?_ rfl ?_ ?_
    · constructor
      case ready =>
        intro x k c hx hmem
        by_cases hk : k = q
        · subst hk
          simpa [hready, hx] using hmem
        · simpa [hk] using hmem
      all_goals simp_all [Ledger.after]
    · simp [Ledger.ranEvent, Event.req]
    · intro p ha
      have hphase : p = .done code ∨ p = .canceled ∧ code = .ecanceled :=
        ha.ready hp (q := q) (by simp [hready])
      refine ⟨.idle, ?_, by simp [Phase.Agrees, Ledger.after]⟩
      simp [Ledger.ranEvent, Phase.step, Event.req, Phase.advance, hphase]
  · have ho := Board.Placed.opened_of_event hc hev hh
    have hmem : r ∈ b.pend h := List.mem_of_find?_eq_some hpick
    refine ht.about (r := r) ?_ rfl ?_ ?_
    · constructor
      case pend =>
        intro x g hx hg
        by_cases hgh : g = h
        · subst hgh
          simpa [List.mem_erase_of_ne hx] using hg
        · simpa [hgh] using hg
      all_goals simp_all [Ledger.after]
    · simp [Ledger.ranEvent, Event.req]
    · intro p ha
      obtain rfl := ha.waiting hp ((hp.pend h r ho).mp hmem)
      refine ⟨.idle, ?_, by simp [Phase.Agrees, Ledger.after]⟩
      simp [Ledger.ranEvent, Phase.step, Event.req, Phase.advance, Phase.started]
  · cases step with
    | returned r code ran => exact absurd rfl (hstep r code ran)
    | again | failed => exact ht

/-- Every call keeps the story straight. -/
theorem Tracked.step {c : Call} (ht : Tracked l b) (hp : Board.Placed l b pos)
    (hc : c.allowed l = true) : Tracked (l.after c (b.exec c).2) (b.exec c).1 := by
  cases c with
  | reqNew r q => exact ht.quiet rfl rfl rfl (fun _ _ hh hr => ⟨hh, hr⟩) rfl rfl
  | reqFree r => exact ht.quiet rfl rfl rfl (fun _ _ hh hr => ⟨hh, hr⟩) rfl rfl
  | fdNew h fd owned =>
    refine ht.quiet rfl rfl rfl ?_ rfl rfl
    intro r g hg hr
    have hgh : g ≠ h := fun e => by simp_all [Call.allowed]
    simp [Ledger.after, Board.exec, hgh, hg, hr]
  | start r h op ans res =>
    simp only [Call.allowed, Bool.and_eq_true, Bool.not_eq_true'] at hc
    exact ht.start hp hc.1.2 hc.2
  | exec r =>
    simp only [Call.allowed, Bool.and_eq_true, Bool.not_eq_true'] at hc
    exact ht.exec hp hc.2
  | finish r code => exact ht.finish hp hc
  | close h ans => exact ht.close hc
  | poll q env => exact ht.poll hp hc

end Step

/-- The trace and the board tell the same story after every run. -/
theorem tracked_of_reachable {s : Conf Board} (h : Board.system.Reachable s) :
    Tracked s.ledger s.mem := by
  refine Board.reach_invariant h (P := Tracked) ?_ fun l b pos c ht hp hc _ => ht.step hp hc
  exact fun b _ r => ⟨.idle, rfl, rfl⟩

/-! ## Exactly once -/

/-- How often a request is found at a place. -/
def Conf.occurs (s : Conf Heap) (r : YoReqT) : Board.Place → ℕ
  | .idle => 0
  | .handle h => if s.ledger.opened h then ((s.mem.handleList h).getD []).count r else 0
  | .pool => if s.ledger.pool r then 1 else 0
  | .ready q => (((s.mem.readyList q).getD []).map Prod.fst).count r

/-- Where a request that was not delivered may be, by what happened since its start. -/
def Sits (m : Heap) (r : YoReqT) (own : Option SyncCall) (tr : List Event) : Board.Place → Prop
  | .idle => False
  | .handle h => (∃ call, own = some call ∧ call.fd = h) ∧ tr.filter (·.runs r) = [] ∧
      ¬ ClosedWaiting r own tr
  | .pool => own = none ∧ tr.filter (·.runs r) = []
  | .ready q => ∃ l code, m.readyList q = some l ∧ (r, code) ∈ l ∧
      (Fulfilled r own tr code ∨ Dropped r own tr ∧ code = .ecanceled)

section Once

variable {s : Conf Heap} {b : Board} {pos : YoReqT → Board.Place} {r : YoReqT}

/-- A request that is somewhere is found there once, and nowhere else. -/
theorem occurs_eq (hR : Refines s.ledger.opened s.mem b) (hp : Board.Placed s.ledger b pos)
    (hr : pos r ≠ .idle) (place : Board.Place) :
    s.occurs r place = if place = pos r then 1 else 0 := by
  cases place with
  | idle => simp [Conf.occurs, Ne.symm hr]
  | handle h =>
    by_cases ho : s.ledger.opened h = true
    · rw [Conf.occurs, if_pos ho, hR.handleList ho, Option.getD_some]
      by_cases hplace : pos r = .handle h
      · rw [if_pos hplace.symm]
        exact List.count_eq_one_of_mem (hp.pend_nodup h ho) ((hp.pend h r ho).mpr hplace)
      · rw [if_neg (Ne.symm hplace)]
        exact List.count_eq_zero_of_not_mem (mt (hp.pend h r ho).mp hplace)
    · have hplace : pos r ≠ .handle h := fun e => ho (hp.opened h r e)
      rw [Conf.occurs, if_neg ho, if_neg (Ne.symm hplace)]
  | pool =>
    rw [Conf.occurs]
    by_cases hplace : pos r = .pool
    · rw [if_pos ((hp.pool r).mpr hplace), if_pos hplace.symm]
    · rw [if_neg (mt (hp.pool r).mp hplace), if_neg (Ne.symm hplace)]
  | ready q =>
    rw [Conf.occurs, hR.readyList, Option.getD_some]
    by_cases hplace : pos r = .ready q
    · rw [if_pos hplace.symm]
      exact List.count_eq_one_of_mem (hp.ready_nodup q) ((hp.ready q r).mpr hplace)
    · rw [if_neg (Ne.symm hplace)]
      exact List.count_eq_zero_of_not_mem (mt (hp.ready q r).mp hplace)

/-- An undelivered request sits where its phase says. -/
theorem sits_of_reading {p : Phase} {own : Option SyncCall} {tr : List Event}
    (hR : Refines s.ledger.opened s.mem b) (hp : Board.Placed s.ledger b pos)
    (ha : p.Agrees s.ledger b r) (hread : Reading r own tr p)
    (hdel : tr.filter (·.delivers r) = []) : Sits s.mem r own tr (pos r) := by
  have completed : ∀ {code}, (∃ q, (r, code) ∈ b.ready q) →
      (Fulfilled r own tr code ∨ Dropped r own tr ∧ code = .ecanceled) →
        Sits s.mem r own tr (pos r) := by
    rintro code ⟨q, hq⟩ hcase
    rw [(hp.ready q r).mp (List.mem_map.mpr ⟨_, hq, rfl⟩)]
    exact ⟨b.ready q, code, hR.readyList, hq, hcase⟩
  cases p with
  | idle =>
    obtain ⟨q, code, hd, -⟩ := hread
    simp [hdel] at hd
  | waiting call =>
    rw [(hp.pend call.fd r ha.1).mp ha.2.1]
    exact ⟨⟨call, hread.1, rfl⟩, hread.2.2⟩
  | pooled =>
    rw [(hp.pool r).mp ha]
    exact ⟨hread.1, hread.2.2⟩
  | done code => exact completed ha (.inl hread.2)
  | canceled => exact completed ha (.inr ⟨hread.2, rfl⟩)

/-- **Exactly once.**  After any run, take a start `e` of the request `r` and what happened
since.  As long as `r` is not delivered it is in one place only: once on the list of the
start's handle, held by the pool, or once on a ready list.  Up to its next start `r` is
delivered at most once, and when it is, either its own operation ran once and gave the
code, or the code is `YO_ECANCELED`, the operation never ran, and the handle was closed
while `r` was waiting on it. -/
theorem exactly_once (h : Heap.system.Reachable s) (r : YoReqT) {l : List Event} {e : Event}
    (hstart : e.starts r = true) :
    (∀ tr, s.ledger.trace = l ++ e :: tr →
      (∀ x ∈ tr, x.starts r = false ∧ x.delivers r = false) →
        ∃ place, (∀ place', s.occurs r place' = if place' = place then 1 else 0) ∧
          Sits s.mem r e.own tr place) ∧
      ∀ tr rest, s.ledger.trace = l ++ e :: (tr ++ rest) → (∀ x ∈ tr, x.starts r = false) →
        (tr.filter (·.delivers r)).length ≤ 1 ∧
          ∀ q code, .deliver q r code ∈ tr →
            Fulfilled r e.own tr code ∨ Dropped r e.own tr ∧ code = .ecanceled := by
  obtain ⟨b, hreach, hR, pos, hp⟩ := refines_of_reachable h
  obtain ⟨p, hrun, ha⟩ := tracked_of_reachable hreach r
  constructor
  · intro tr htrace hquiet
    have hrun' : Phase.run r (.started e.own) tr = some p :=
      run_after_start (htrace ▸ hrun) hstart
    have hread := reading_of_run (fun x hx => (hquiet x hx).1) hrun'
    have hdel : tr.filter (·.delivers r) = [] :=
      List.filter_eq_nil_iff.mpr fun x hx => by simp [(hquiet x hx).2]
    have hsits := sits_of_reading hR hp ha hread hdel
    refine ⟨pos r, occurs_eq hR hp ?_, hsits⟩
    intro hidle
    rw [hidle] at hsits
    exact hsits
  · intro tr rest htrace hquiet
    have hrun' : Phase.run r (.started e.own) (tr ++ rest) = some p :=
      run_after_start (htrace ▸ hrun) hstart
    rw [Phase.run_append] at hrun'
    obtain ⟨p₀, hp₀, -⟩ := Option.bind_eq_some_iff.mp hrun'
    have hread := reading_of_run hquiet hp₀
    cases p₀ with
    | idle =>
      obtain ⟨q, code, hd, hcase⟩ := hread
      refine ⟨by simp [hd], fun q' code' hmem => ?_⟩
      have hmem' : Event.deliver q' r code' ∈ tr.filter (·.delivers r) :=
        List.mem_filter.mpr ⟨hmem, by simp⟩
      rw [hd, List.mem_singleton, Event.deliver.injEq] at hmem'
      exact hmem'.2.2 ▸ hcase
    | waiting | pooled | done | canceled =>
      have hd : tr.filter (·.delivers r) = [] := by
        first
          | exact hread.1
          | exact hread.2.1
      refine ⟨by simp [hd], fun q' code' hmem => ?_⟩
      exact absurd hmem (by simpa using List.filter_eq_nil_iff.mp hd (.deliver q' r code'))

end Once

/-- A read waits on a handle, and the handle is closed. -/
def readThenClose : List Call :=
  [.reqNew 0x30 0x10, .fdNew 0x20 5 true, .start 0x30 0x20 (.read 0x700 0x708) .ok .ok,
    .close 0x20 fun _ => .ok]

/-- It is performed instead, and fails. -/
def readThenPoll : List Call :=
  [.reqNew 0x30 0x10, .fdNew 0x20 5 true, .start 0x30 0x20 (.read 0x700 0x708) .ok .ok,
    .poll 0x10 ⟨.event 0x20 ⟨true, false⟩, .ok, .ebadfd⟩]

/-- The first read is then in one place, the ready list, with `YO_ECANCELED`, and the second one was
returned with the code of its operation. -/
theorem exactly_once_readThenClose :
    (let s := Heap.afterCalls readThenClose
      ∃ place, (∀ place', s.occurs 0x30 place' = if place' = place then 1 else 0) ∧
        Sits s.mem 0x30 (some ⟨0x20, .read 0x700 0x708⟩) [.close 0x20] place) ∧
      ∃ tr, (Heap.afterCalls readThenPoll).ledger.trace =
          .start 0x30 ⟨0x20, .read 0x700 0x708⟩ :: tr ∧ .deliver 0x10 0x30 .ebadfd ∈ tr ∧
        Fulfilled 0x30 (some ⟨0x20, .read 0x700 0x708⟩) tr .ebadfd := by
  have hstart : (Event.start 0x30 ⟨0x20, .read 0x700 0x708⟩).starts 0x30 = true := by decide
  have htrace : (Heap.afterCalls readThenPoll).ledger.trace =
      .start 0x30 ⟨0x20, .read 0x700 0x708⟩ ::
        [.ran 0x30 (some ⟨0x20, .read 0x700 0x708⟩) .ebadfd, .deliver 0x10 0x30 .ebadfd] := by
    decide +kernel
  constructor
  · refine (exactly_once (Heap.reachable_afterCalls readThenClose) 0x30 (l := []) hstart).1
      [.close 0x20] ?_ ?_
    · decide +kernel
    · decide
  · refine ⟨_, htrace, by simp, ?_⟩
    obtain ⟨-, hcode⟩ := (exactly_once (Heap.reachable_afterCalls readThenPoll) 0x30 (l := [])
      hstart).2 _ [] (by simpa using htrace) (by decide)
    exact (hcode 0x10 .ebadfd (by simp)).resolve_right fun h => absurd h.2 (by decide)

end Yaooi
