import Yaooi.Queue.Calls

/-!
# What a queue is for

The abstract model of the queues: no pointers, only who waits where.  A `Board` holds,
for each handle, the requests that wait on it, latest first, and, for each queue, the
completed requests with their codes; next to them stand the plain data of the requests,
handles and registrations.

`Board.exec` says what each call does to the board, and `Board.Placed` what is true of
every board that the calls lead to (`Board.placed_of_reachable`): a request that was
started and not delivered is in exactly one place.
`Yaooi.Queue.Refine` shows that the memory follows the board call by call.
-/

namespace Yaooi

open Transition

structure Board where
  /-- The queue a request was made for. -/
  queueOf : YoReqT → YoQueueT
  /-- The operation a request was last started for. -/
  op : YoReqT → YoaOp
  /-- The handles, without their lists. -/
  fd : YoFdT → YoFd
  notifyRead : YoQueueT → Int
  reg : YoQueueT → Int → Option Registration
  /-- The requests that wait on a handle, the latest started first. -/
  pend : YoFdT → List YoReqT
  /-- The completed requests of a queue with their codes, the next one to deliver first. -/
  ready : YoQueueT → List (YoReqT × YoCode)

namespace Board

/-- The direction a request waits for. -/
def dir (b : Board) (r : YoReqT) : YoiPlEvnMask := yoiPlTomask (b.op r).kind

/-- Register a descriptor, when the backend answers `YO_OK`. -/
def setmask (b : Board) (q : YoQueueT) (udata : Ptr) (fd : Int) (mask : YoiPlEvnMask)
    (ans : YoCode) : Board :=
  { b with reg := Function.update b.reg q (register (b.reg q) fd mask udata ans) }

/-- Change a handle's counters and register its descriptor anew. -/
def recount (b : Board) (r : YoReqT) (h : YoFdT) (f : YoFd → YoFd) (ans : YoCode) : Board :=
  let b := { b with fd := Function.update b.fd h (f (b.fd h)) }
  b.setmask (b.queueOf r) h (b.fd h).fd (b.fd h).mask ans

/-- Complete a request. -/
def push (b : Board) (r : YoReqT) (code : YoCode) : Board :=
  { b with
    ready := Function.update b.ready (b.queueOf r) ((r, code) :: b.ready (b.queueOf r)) }

/-- Let a request onto a handle: it completes at once when the descriptor cannot be
polled, and waits on the handle otherwise. -/
def enlist (b : Board) (r : YoReqT) (h : YoFdT) (ans res : YoCode) :
    Board × YoCode × Option SyncCall :=
  let b := b.recount r h (·.inc (b.op r).kind) ans
  if ans = .eperm then (b.push r res, .ok, some ⟨h, b.op r⟩)
  else ({ b with pend := Function.update b.pend h (r :: b.pend h) }, ans, none)

/-- Start a request on a handle. -/
def start (b : Board) (r : YoReqT) (h : YoFdT) (op : YoaOp) (ans res : YoCode) :
    Board × YoCode × Option SyncCall :=
  if Heap.yoiUnixIsfd (b.fd h) then { b with op := Function.update b.op r op }.enlist r h ans res
  else (b, .ebadfd, none)

/-- Take a waiting request off its handle. -/
def stop (b : Board) (r : YoReqT) (h : YoFdT) (ans : YoCode) : Board :=
  let b := { b with pend := Function.update b.pend h ((b.pend h).erase r) }
  b.recount r h (·.dec (b.op r).kind) ans

/-- Close a handle: each request that waits on it completes with `YO_ECANCELED`. -/
def close (b : Board) (h : YoFdT) (ans : YoReqT → YoCode) : Board :=
  (b.pend h).foldl
    (fun b i => (b.setmask (b.queueOf i) NULL (b.fd h).fd .zero (ans i)).push i .ecanceled) b

/-- The request an event on a handle goes to: the latest started one that waits for a
direction reported ready. -/
def pick (b : Board) (h : YoFdT) (ready : YoiPlEvnMask) : Option YoReqT :=
  (b.pend h).find? fun r => (b.dir r).meets ready

/-- One round of polling: a completed request if there is one, else the event. -/
def round (b : Board) (q : YoQueueT) (env : PollEnv) : Board × PollStep :=
  match b.ready q with
  | (r, code) :: l => ({ b with ready := Function.update b.ready q l }, .returned r code none)
  | [] =>
    match env.poll with
    | .error code => (b, .failed code)
    | .event h ready =>
      if h = NULL then (b, .again)
      else
        match b.pick h ready with
        | none => (b, .again)
        | some r => (b.stop r h env.ans, .returned r env.res (some ⟨h, b.op r⟩))

/-- What a call does to the board. -/
def exec (b : Board) : Call → Board × Outcome
  | .reqNew r q => ({ b with queueOf := Function.update b.queueOf r q }, .done)
  | .reqFree _ => (b, .done)
  | .fdNew h fd owned =>
    ({ b with
        fd := Function.update b.fd h ⟨NULL, owned, false, fd, 0, 0⟩
        pend := Function.update b.pend h [] }, .done)
  | .start r h op ans res =>
    let (b', code, ran) := b.start r h op ans res
    (b', .started (Heap.yoiUnixIsfd (b.fd h)) code ran)
  | .exec _ => (b, .done)
  | .finish r code => (b.push r code, .done)
  | .close h ans => (b.close h ans, .done)
  | .poll q env =>
    let (b', step) := b.round q env
    (b', .polled step)

/-- No request was completed yet, and every queue is new. -/
def Fresh (b : Board) : Prop :=
  ∀ q, b.ready q = [] ∧ b.reg q = Heap.freshReg (b.notifyRead q)

/-- The runs of the calls over the board. -/
def system : System (Conf Board) Call := calls Fresh fun b c => some (b.exec c)

/-! ## What the operations leave alone -/

section Fields

variable (b : Board) (r : YoReqT) (h : YoFdT) (q : YoQueueT) (u : Ptr) (fd : Int)
  (mask : YoiPlEvnMask) (ans code : YoCode) (f : YoFd → YoFd)

@[simp] theorem queueOf_setmask : (b.setmask q u fd mask ans).queueOf = b.queueOf := rfl
@[simp] theorem op_setmask : (b.setmask q u fd mask ans).op = b.op := rfl
@[simp] theorem fd_setmask : (b.setmask q u fd mask ans).fd = b.fd := rfl
@[simp] theorem pend_setmask : (b.setmask q u fd mask ans).pend = b.pend := rfl
@[simp] theorem ready_setmask : (b.setmask q u fd mask ans).ready = b.ready := rfl
@[simp] theorem notifyRead_setmask : (b.setmask q u fd mask ans).notifyRead = b.notifyRead := rfl

@[simp] theorem queueOf_recount : (b.recount r h f ans).queueOf = b.queueOf := rfl
@[simp] theorem op_recount : (b.recount r h f ans).op = b.op := rfl
@[simp] theorem pend_recount : (b.recount r h f ans).pend = b.pend := rfl
@[simp] theorem ready_recount : (b.recount r h f ans).ready = b.ready := rfl

@[simp] theorem queueOf_push : (b.push r code).queueOf = b.queueOf := rfl
@[simp] theorem op_push : (b.push r code).op = b.op := rfl
@[simp] theorem fd_push : (b.push r code).fd = b.fd := rfl
@[simp] theorem pend_push : (b.push r code).pend = b.pend := rfl

theorem ready_push :
    (b.push r code).ready q =
      if q = b.queueOf r then (r, code) :: b.ready q else b.ready q := by
  simp only [push, Function.update_apply]
  split <;> simp_all

variable {b r q code} in
/-- What is completed stays so. -/
theorem mem_ready_push {p : YoReqT × YoCode} (hp : p ∈ b.ready q) :
    p ∈ (b.push r code).ready q := by
  rw [ready_push]
  split
  · exact List.mem_cons_of_mem _ hp
  · exact hp

@[simp] theorem queueOf_stop : (b.stop r h ans).queueOf = b.queueOf := rfl
@[simp] theorem op_stop : (b.stop r h ans).op = b.op := rfl
@[simp] theorem ready_stop : (b.stop r h ans).ready = b.ready := rfl
@[simp] theorem pend_stop :
    (b.stop r h ans).pend = Function.update b.pend h ((b.pend h).erase r) := rfl

end Fields

/-! ## What a start and a round can do -/

section Cases

variable (b : Board) (r : YoReqT) (h : YoFdT) (q : YoQueueT) (op : YoaOp) (ans res : YoCode)
  (env : PollEnv)

/-- The board once a start has counted the request and registered the descriptor. -/
def counted (b : Board) (r : YoReqT) (h : YoFdT) (op : YoaOp) (ans : YoCode) : Board :=
  { b with op := Function.update b.op r op }.recount r h (·.inc op.kind) ans

@[simp] theorem queueOf_counted : (b.counted r h op ans).queueOf = b.queueOf := rfl
@[simp] theorem pend_counted : (b.counted r h op ans).pend = b.pend := rfl
@[simp] theorem ready_counted : (b.counted r h op ans).ready = b.ready := rfl
@[simp] theorem op_counted : (b.counted r h op ans).op = Function.update b.op r op := rfl

/-- A start is refused up front, or runs its operation at once, or waits on the handle. -/
theorem exec_start :
    (Heap.yoiUnixIsfd (b.fd h) = false ∧
      b.exec (.start r h op ans res) = (b, .started false .ebadfd none)) ∨
    (Heap.yoiUnixIsfd (b.fd h) = true ∧ ans = .eperm ∧
      b.exec (.start r h op ans res) =
        ((b.counted r h op ans).push r res, .started true .ok (some ⟨h, op⟩))) ∨
    (Heap.yoiUnixIsfd (b.fd h) = true ∧ ans ≠ .eperm ∧
      b.exec (.start r h op ans res) =
        ({ b.counted r h op ans with pend := Function.update b.pend h (r :: b.pend h) },
          .started true ans none)) := by
  cases hfd : Heap.yoiUnixIsfd (b.fd h) with
  | false => simp [exec, start, hfd]
  | true => by_cases hans : ans = .eperm <;> simp [exec, start, enlist, counted, hfd, hans]

/-- A round delivers a completed request, or performs a waiting one, or returns none. -/
theorem exec_poll :
    (∃ r code t, b.ready q = (r, code) :: t ∧ b.exec (.poll q env) =
      ({ b with ready := Function.update b.ready q t }, .polled (.returned r code none))) ∨
    (∃ h mask r, b.ready q = [] ∧ env.poll = .event h mask ∧ h ≠ NULL ∧
      b.pick h mask = some r ∧ b.exec (.poll q env) =
        (b.stop r h env.ans, .polled (.returned r env.res (some ⟨h, b.op r⟩)))) ∨
    (b.ready q = [] ∧
      (∀ h mask, env.poll = .event h mask → h ≠ NULL → b.pick h mask = none) ∧
      ∃ step, b.exec (.poll q env) = (b, .polled step) ∧
        ∀ r code ran, step ≠ .returned r code ran) := by
  cases hq : b.ready q with
  | cons p t => exact .inl ⟨p.1, p.2, t, rfl, by simp [exec, round, hq]⟩
  | nil =>
    refine .inr ?_
    cases hev : env.poll with
    | error code =>
      exact .inr ⟨rfl, by simp, .failed code, by simp [exec, round, hq, hev], by simp⟩
    | event h mask =>
      by_cases hh : h = NULL
      · refine .inr ⟨rfl, ?_, .again, by simp [exec, round, hq, hev, hh], by simp⟩
        simp_all
      cases hpick : b.pick h mask with
      | none =>
        refine .inr ⟨rfl, ?_, .again, by simp [exec, round, hq, hev, hh, hpick], by simp⟩
        simp_all
      | some r =>
        exact .inl ⟨h, mask, r, rfl, rfl, hh, hpick, by simp [exec, round, hq, hev, hh, hpick]⟩

end Cases

/-! ## Everything is in one place -/

/-- Where a request is. -/
inductive Place where
  /-- Not started, or delivered. -/
  | idle
  /-- Waiting on a handle. -/
  | handle (h : YoFdT)
  /-- Held by a thread of the pool. -/
  | pool
  /-- Completed, on the ready list of a queue. -/
  | ready (q : YoQueueT)
  deriving DecidableEq

/-- The board and the book agree with an assignment of one place to each request. -/
structure Placed (l : Ledger) (b : Board) (place : YoReqT → Place) : Prop where
  live_ok : ∀ r, l.live r → r ≠ NULL ∧ r.setWidth 4 = 0#4
  live : ∀ r, place r ≠ .idle → l.live r
  busy : ∀ r, l.busy r ↔ place r ≠ .idle
  pool : ∀ r, l.pool r ↔ place r = .pool
  opened : ∀ h r, place r = .handle h → l.opened h
  pend : ∀ h r, l.opened h → (r ∈ b.pend h ↔ place r = .handle h)
  pend_nodup : ∀ h, l.opened h → (b.pend h).Nodup
  ready : ∀ q r, r ∈ (b.ready q).map Prod.fst ↔ place r = .ready q
  ready_nodup : ∀ q, ((b.ready q).map Prod.fst).Nodup
  queue : ∀ q r, place r = .ready q → b.queueOf r = q

namespace Placed

variable {l : Ledger} {b b' : Board} {place : YoReqT → Place} {r : YoReqT} {h : YoFdT}
  {q : YoQueueT} {code : YoCode}

theorem idle_of_not_busy (hp : Placed l b place) (hr : l.busy r = false) : place r = .idle := by
  by_contra hne
  have := (hp.busy r).mpr hne
  simp [hr] at this

/-- Changing what the board says about other things changes no place. -/
theorem congr (hp : Placed l b place) (hpend : b'.pend = b.pend) (hready : b'.ready = b.ready)
    (hqueue : b'.queueOf = b.queueOf) : Placed l b' place where
  __ := hp
  pend := hpend ▸ hp.pend
  pend_nodup := hpend ▸ hp.pend_nodup
  ready := hready ▸ hp.ready
  ready_nodup := hready ▸ hp.ready_nodup
  queue := hqueue ▸ hp.queue

theorem not_mem_pend (hp : Placed l b place) (hr : ∀ g, place r ≠ .handle g)
    (hh : l.opened h) : r ∉ b.pend h := by
  rw [hp.pend h r hh]
  exact hr h

theorem not_mem_ready (hp : Placed l b place) (hr : ∀ k, place r ≠ .ready k) :
    r ∉ (b.ready q).map Prod.fst := by
  rw [hp.ready q r]
  exact hr q

/-- **One request moves.**  When the lists and the book change for the request `r` only,
to what its new place `p` calls for, everything stays in one place. -/
theorem move {l' : Ledger} (p : Place) (hp : Placed l b place)
    (hlive : l'.live = l.live) (hopened : l'.opened = l.opened)
    (hbusy : l'.busy = Function.update l.busy r (decide (p ≠ .idle)))
    (hpool : l'.pool = Function.update l.pool r (decide (p = .pool)))
    (hr : p ≠ .idle → l.live r) (hopen : ∀ g, p = .handle g → l.opened g)
    (hpend : ∀ g x, l.opened g →
      (x ∈ b'.pend g ↔ if x = r then p = .handle g else x ∈ b.pend g))
    (hpnd : ∀ g, l.opened g → (b'.pend g).Nodup)
    (hready : ∀ k x, x ∈ (b'.ready k).map Prod.fst ↔
      if x = r then p = .ready k else x ∈ (b.ready k).map Prod.fst)
    (hrnd : ∀ k, ((b'.ready k).map Prod.fst).Nodup)
    (hqueue : b'.queueOf = b.queueOf) (hq : ∀ k, p = .ready k → b.queueOf r = k) :
    Placed l' b' (Function.update place r p) where
  live_ok := hlive ▸ hp.live_ok
  live x hx := by
    rw [hlive]
    by_cases hxr : x = r
    · subst hxr
      exact hr (by simpa using hx)
    · exact hp.live x (by simpa [hxr] using hx)
  busy x := by
    rw [hbusy]
    by_cases hxr : x = r
    · simp [hxr]
    · simpa [hxr] using hp.busy x
  pool x := by
    rw [hpool]
    by_cases hxr : x = r
    · simp [hxr]
    · simpa [hxr] using hp.pool x
  opened g x hx := by
    rw [hopened]
    by_cases hxr : x = r
    · exact hopen g (by simpa [hxr] using hx)
    · exact hp.opened g x (by simpa [hxr] using hx)
  pend g x hg := by
    rw [hopened] at hg
    rw [hpend g x hg]
    by_cases hxr : x = r
    · simp [hxr]
    · simpa [hxr] using hp.pend g x hg
  pend_nodup g hg := hpnd g (hopened ▸ hg)
  ready k x := by
    rw [hready k x]
    by_cases hxr : x = r
    · simp [hxr]
    · simpa [hxr] using hp.ready k x
  ready_nodup := hrnd
  queue k x hx := by
    rw [hqueue]
    by_cases hxr : x = r
    · subst hxr
      exact hq k (by simpa using hx)
    · exact hp.queue k x (by simpa [hxr] using hx)

/-- The book after a request's place changed to `p`. -/
def moved (l : Ledger) (r : YoReqT) (p : Place) (trace : List Event) : Ledger :=
  { l with
    busy := Function.update l.busy r (decide (p ≠ .idle))
    pool := Function.update l.pool r (decide (p = .pool))
    trace := trace }

/-- A request completes. -/
theorem push (code : YoCode) (tr : List Event) (hp : Placed l b place) (hlive : l.live r)
    (hr : place r = .idle ∨ place r = .pool) :
    Placed (moved l r (.ready (b.queueOf r)) tr) (b.push r code)
      (Function.update place r (.ready (b.queueOf r))) := by
  have hnh : ∀ g, place r ≠ .handle g := by rcases hr with e | e <;> simp [e]
  have hnr : ∀ k, place r ≠ .ready k := by rcases hr with e | e <;> simp [e]
  refine hp.move _ rfl rfl rfl rfl (fun _ => hlive) (by simp) ?_ hp.pend_nodup ?_ ?_ rfl
    (by simp)
  · intro g x hg
    by_cases hxr : x = r
    · simpa [hxr] using hp.not_mem_pend hnh hg
    · simp [hxr]
  · intro k x
    rw [ready_push]
    by_cases hxr : x = r
    · subst hxr
      by_cases hk : k = b.queueOf x
      · simp [hk]
      · simpa [hk, Ne.symm hk] using hp.not_mem_ready (q := k) hnr
    · split <;> simp [hxr]
  · intro k
    rw [ready_push]
    split
    · exact List.nodup_cons.mpr ⟨hp.not_mem_ready hnr, hp.ready_nodup k⟩
    · exact hp.ready_nodup k

/-- A request is put on a handle. -/
theorem link (tr : List Event) (hp : Placed l b place) (hlive : l.live r) (hh : l.opened h)
    (hr : place r = .idle) :
    Placed (moved l r (.handle h) tr)
      { b with pend := Function.update b.pend h (r :: b.pend h) }
      (Function.update place r (.handle h)) := by
  have hnh : ∀ g, place r ≠ .handle g := by simp [hr]
  have hnr : ∀ k, place r ≠ .ready k := by simp [hr]
  refine hp.move _ rfl rfl rfl rfl (fun _ => hlive) ?_ ?_ ?_ ?_ hp.ready_nodup rfl (by simp)
  · intro g hg
    exact Place.handle.inj hg ▸ hh
  · intro g x hg
    by_cases hgh : g = h
    · subst hgh
      by_cases hxr : x = r <;> simp [hxr]
    · by_cases hxr : x = r
      · simpa [hxr, hgh, Ne.symm hgh] using hp.not_mem_pend hnh hg
      · simp [hxr, hgh]
  · intro g hg
    by_cases hgh : g = h
    · subst hgh
      simpa using ⟨hp.not_mem_pend hnh hg, hp.pend_nodup g hg⟩
    · simpa [hgh] using hp.pend_nodup g hg
  · intro k x
    by_cases hxr : x = r
    · simpa [hxr] using hp.not_mem_ready (q := k) hnr
    · simp [hxr]

/-- A request is handed to the pool. -/
theorem hand (tr : List Event) (hp : Placed l b place) (hlive : l.live r)
    (hr : place r = .idle) :
    Placed (moved l r .pool tr) b (Function.update place r .pool) := by
  have hnh : ∀ g, place r ≠ .handle g := by simp [hr]
  have hnr : ∀ k, place r ≠ .ready k := by simp [hr]
  refine hp.move _ rfl rfl rfl rfl (fun _ => hlive) (by simp) ?_ hp.pend_nodup ?_
    hp.ready_nodup rfl (by simp)
  · intro g x hg
    by_cases hxr : x = r
    · simpa [hxr] using hp.not_mem_pend hnh hg
    · simp [hxr]
  · intro k x
    by_cases hxr : x = r
    · simpa [hxr] using hp.not_mem_ready (q := k) hnr
    · simp [hxr]

/-- A waiting request is taken off its handle and delivered. -/
theorem take (ans : YoCode) (tr : List Event) (hp : Placed l b place) (hh : l.opened h)
    (hr : r ∈ b.pend h) :
    Placed (moved l r .idle tr) (b.stop r h ans) (Function.update place r .idle) := by
  have hplace := (hp.pend h r hh).mp hr
  have hnr : ∀ k, place r ≠ .ready k := by simp [hplace]
  refine hp.move _ rfl rfl rfl rfl (by simp) (by simp) ?_ ?_ ?_ hp.ready_nodup rfl (by simp)
  · intro g x hg
    rw [pend_stop]
    by_cases hgh : g = h
    · subst hgh
      rw [Function.update_self, (hp.pend_nodup g hg).mem_erase_iff]
      by_cases hxr : x = r <;> simp [hxr]
    · rw [Function.update_of_ne hgh]
      by_cases hxr : x = r
      · have hg' : r ∉ b.pend g := by
          rw [hp.pend g r hg, hplace]
          simpa using Ne.symm hgh
        simpa [hxr] using hg'
      · simp [hxr]
  · intro g hg
    rw [pend_stop]
    by_cases hgh : g = h
    · subst hgh
      simpa using (hp.pend_nodup g hg).erase r
    · simpa [hgh] using hp.pend_nodup g hg
  · intro k x
    by_cases hxr : x = r
    · simpa [hxr] using hp.not_mem_ready (q := k) hnr
    · simp [hxr]

/-- A completed request is delivered. -/
theorem pop {t : List (YoReqT × YoCode)} (tr : List Event)
    (hp : Placed l b place) (hq : b.ready q = (r, code) :: t) :
    Placed (moved l r .idle tr) { b with ready := Function.update b.ready q t }
      (Function.update place r .idle) := by
  have hplace : place r = .ready q := (hp.ready q r).mp (by simp [hq])
  have hnh : ∀ g, place r ≠ .handle g := by simp [hplace]
  have hnd := hp.ready_nodup q
  rw [hq, List.map_cons, List.nodup_cons] at hnd
  refine hp.move _ rfl rfl rfl rfl (by simp) (by simp) ?_ hp.pend_nodup ?_ ?_ rfl (by simp)
  · intro g x hg
    by_cases hxr : x = r
    · simpa [hxr] using hp.not_mem_pend hnh hg
    · simp [hxr]
  · intro k x
    by_cases hk : k = q
    · subst hk
      by_cases hxr : x = r
      · simpa [hxr] using hnd.1
      · simp [hq, hxr]
    · by_cases hxr : x = r
      · have hk' : r ∉ (b.ready k).map Prod.fst := by
          rw [hp.ready k r, hplace]
          simpa using Ne.symm hk
        simpa [hxr, hk] using hk'
      · simp [hxr, hk]
  · intro k
    by_cases hk : k = q
    · subst hk
      simpa using hnd.2
    · simpa [hk] using hp.ready_nodup k

/-- A new request is idle. -/
theorem reqNew (hp : Placed l b place) (hr : l.live r = false)
    (hok : r ≠ NULL ∧ r.setWidth 4 = 0#4) :
    Placed { l with live := Function.update l.live r true }
      { b with queueOf := Function.update b.queueOf r q } place := by
  have hidle : place r = .idle := by
    by_contra hne
    exact absurd (hp.live r hne) (by simp [hr])
  exact {
    hp with
    live_ok := by
      intro x hx
      by_cases hxr : x = r
      · exact hxr ▸ hok
      · exact hp.live_ok x (by simpa [hxr] using hx)
    live := by
      intro x hx
      by_cases hxr : x = r
      · simp [hxr]
      · simpa [hxr] using hp.live x hx
    queue := by
      intro k x hx
      have hxr : x ≠ r := fun e => by simp [e, hidle] at hx
      simpa [hxr] using hp.queue k x hx }

/-- Freeing a request that is not started takes it from nowhere. -/
theorem reqFree (hp : Placed l b place) (hr : l.busy r = false) :
    Placed { l with live := Function.update l.live r false } b place where
  __ := hp
  live_ok x hx := by
    by_cases hxr : x = r
    · simp [hxr] at hx
    · exact hp.live_ok x (by simpa [hxr] using hx)
  live x hx := by
    have hxr : x ≠ r := fun e => hx (e ▸ hp.idle_of_not_busy hr)
    simpa [hxr] using hp.live x hx

/-- A new handle has nothing waiting on it. -/
theorem fdNew {fd : YoFdT → YoFd} (hp : Placed l b place) (hh : l.opened h = false) :
    Placed { l with opened := Function.update l.opened h true }
      { b with fd := fd, pend := Function.update b.pend h [] } place := by
  have hne : ∀ x, place x ≠ .handle h := by
    intro x hx
    simpa [hh] using hp.opened h x hx
  exact {
    hp with
    opened := by
      intro g x hx
      by_cases hgh : g = h
      · simp [hgh]
      · simpa [hgh] using hp.opened g x hx
    pend := by
      intro g x hg
      by_cases hgh : g = h
      · simpa [hgh] using hne x
      · simpa [hgh] using hp.pend g x (by simpa [hgh] using hg)
    pend_nodup := by
      intro g hg
      by_cases hgh : g = h
      · simp [hgh]
      · simpa [hgh] using hp.pend_nodup g (by simpa [hgh] using hg) }

end Placed

/-! ## Closing a handle -/

section Close

variable (b : Board) (h : YoFdT) (ans : YoReqT → YoCode) (l : List YoReqT)

/-- The loop of `close` over any list of requests. -/
def cancelAll (b : Board) (h : YoFdT) (ans : YoReqT → YoCode) (l : List YoReqT) : Board :=
  l.foldl (fun b i => (b.setmask (b.queueOf i) NULL (b.fd h).fd .zero (ans i)).push i .ecanceled) b

theorem close_eq_cancelAll : b.close h ans = b.cancelAll h ans (b.pend h) := rfl

@[simp] theorem cancelAll_nil : b.cancelAll h ans [] = b := rfl

@[simp] theorem cancelAll_cons (i : YoReqT) :
    b.cancelAll h ans (i :: l) =
      ((b.setmask (b.queueOf i) NULL (b.fd h).fd .zero (ans i)).push i .ecanceled).cancelAll
        h ans l := rfl

/-- The loop changes registrations and ready lists only. -/
theorem frame_cancelAll :
    (b.cancelAll h ans l).queueOf = b.queueOf ∧ (b.cancelAll h ans l).op = b.op ∧
      (b.cancelAll h ans l).fd = b.fd ∧ (b.cancelAll h ans l).pend = b.pend := by
  induction l generalizing b with
  | nil => exact ⟨rfl, rfl, rfl, rfl⟩
  | cons i l ih => exact ih _

@[simp] theorem notifyRead_cancelAll : (b.cancelAll h ans l).notifyRead = b.notifyRead := by
  induction l generalizing b with
  | nil => rfl
  | cons i l ih => exact ih _

/-- The loop completes each request, so the last one of the list ends up in front. -/
theorem ready_cancelAll (q : YoQueueT) :
    (b.cancelAll h ans l).ready q =
      ((l.filter (b.queueOf · = q)).reverse.map (·, .ecanceled)) ++ b.ready q := by
  induction l generalizing b with
  | nil => rfl
  | cons i l ih =>
    rw [cancelAll_cons, ih, ready_push, queueOf_push, queueOf_setmask, ready_setmask]
    by_cases hi : b.queueOf i = q
    · simp [hi]
    · simp [hi, Ne.symm hi]

/-- The loop takes the descriptor off the queues of the requests, where the backend answers
`YO_OK`. -/
theorem reg_cancelAll (q : YoQueueT) (fd : Int) :
    (b.cancelAll h ans l).reg q fd =
      if fd = (b.fd h).fd ∧ ∃ r ∈ l, b.queueOf r = q ∧ ans r = .ok then none else b.reg q fd := by
  induction l generalizing b with
  | nil => simp
  | cons i l ih =>
    have hone :
        ((b.setmask (b.queueOf i) NULL (b.fd h).fd .zero (ans i)).push i .ecanceled).reg q fd =
          if fd = (b.fd h).fd ∧ b.queueOf i = q ∧ ans i = .ok then none else b.reg q fd := by
      simp only [push, setmask, register, if_true, Function.update_apply]
      by_cases hi : b.queueOf i = q
      · subst hi
        by_cases hok : ans i = .ok <;> simp [hok, Function.update_apply]
      · simp [hi, Ne.symm hi]
    rw [cancelAll_cons, ih, hone, queueOf_push, queueOf_setmask, fd_push, fd_setmask]
    by_cases hfd : fd = (b.fd h).fd
    · by_cases hi : b.queueOf i = q ∧ ans i = .ok <;> simp [hfd, hi]
    · simp [hfd]

end Close

namespace Placed

variable {l : Ledger} {b : Board} {place : YoReqT → Place} {h : YoFdT}

/-- Closing a handle moves what waits on it to the ready lists. -/
theorem close (ans : YoReqT → YoCode) (tr : List Event) (hp : Placed l b place)
    (hh : l.opened h) :
    Placed { l with opened := Function.update l.opened h false, trace := tr } (b.close h ans)
      fun r => if place r = .handle h then .ready (b.queueOf r) else place r := by
  obtain ⟨hqueue, -, -, hpend⟩ := b.frame_cancelAll h ans (b.pend h)
  have hready := b.ready_cancelAll h ans (b.pend h)
  rw [← close_eq_cancelAll] at hqueue hpend hready
  have hfst : ∀ q, ((b.close h ans).ready q).map Prod.fst =
      ((b.pend h).filter (b.queueOf · = q)).reverse ++ (b.ready q).map Prod.fst := by
    intro q
    simp [hready, Function.comp_def]
  constructor
  case live_ok => exact hp.live_ok
  case live =>
    intro r hr
    refine hp.live r fun e => ?_
    simp [e] at hr
  case busy =>
    intro r
    apply (hp.busy r).trans
    split <;> simp_all
  case pool =>
    intro r
    apply (hp.pool r).trans
    split <;> simp_all
  case opened =>
    intro g r hr
    split at hr
    · exact absurd hr (by simp)
    · have hgh : g ≠ h := fun e => by simp_all
      simpa [hgh] using hp.opened g r hr
  case pend =>
    intro g r hg
    have hgh : g ≠ h := fun e => by simp [e] at hg
    rw [hpend, hp.pend g r (by simpa [hgh] using hg)]
    split
    · rename_i hr
      simp [hr, Ne.symm hgh]
    · rfl
  case pend_nodup =>
    intro g hg
    have hgh : g ≠ h := fun e => by simp [e] at hg
    rw [hpend]
    exact hp.pend_nodup g (by simpa [hgh] using hg)
  case ready =>
    intro q r
    rw [hfst, List.mem_append, List.mem_reverse, List.mem_filter, hp.pend h r hh, hp.ready q r]
    by_cases hr : place r = .handle h <;> simp [hr]
  case ready_nodup =>
    intro q
    rw [hfst]
    refine List.nodup_append.mpr ⟨?_, hp.ready_nodup q, ?_⟩
    · exact List.nodup_reverse.mpr ((hp.pend_nodup h hh).filter _)
    · rintro r hr _ hr' rfl
      have hr₁ := (hp.pend h r hh).mp (List.mem_filter.mp (List.mem_reverse.mp hr)).1
      have hr₂ := (hp.ready q r).mp hr'
      simp [hr₁] at hr₂
  case queue =>
    intro q r hr
    rw [hqueue]
    split at hr
    · exact Place.ready.inj hr
    · exact hp.queue q r hr

end Placed

/-! ## Every run keeps everything in one place -/

section Runs

variable {l : Ledger} {b : Board} {place : YoReqT → Place} {c : Call}

/-- When the pool's hold on a request is as its new place says, only the `busy` mark
changes. -/
theorem moved_of_pool {r : YoReqT} {p : Place} {tr : List Event}
    (h : l.pool r = decide (p = .pool)) :
    Placed.moved l r p tr =
      { l with busy := Function.update l.busy r (decide (p ≠ .idle)), trace := tr } := by
  simp [Placed.moved, ← h]

/-- When the `busy` mark of a request is as its new place says, only the pool's hold
changes. -/
theorem moved_of_busy {r : YoReqT} {p : Place} {tr : List Event}
    (h : l.busy r = decide (p ≠ .idle)) :
    Placed.moved l r p tr =
      { l with pool := Function.update l.pool r (decide (p = .pool)), trace := tr } := by
  simp [Placed.moved, ← h]

namespace Placed

theorem not_pool {r : YoReqT} (hp : Placed l b place) (hr : place r ≠ .pool) :
    l.pool r = false := by
  have := mt (hp.pool r).mp hr
  simpa using this

/-- A start on a handle. -/
theorem start {r : YoReqT} {h : YoFdT} {op : YoaOp} {ans res : YoCode} (hp : Placed l b place)
    (hc : (Call.start r h op ans res).allowed l = true) :
    ∃ place', Placed (l.after (.start r h op ans res) (b.exec (.start r h op ans res)).2)
      (b.exec (.start r h op ans res)).1 place' := by
  simp only [Call.allowed, Bool.and_eq_true, Bool.not_eq_true'] at hc
  obtain ⟨⟨hlive, hbusy⟩, hopen⟩ := hc
  have hidle := hp.idle_of_not_busy hbusy
  have hpool := hp.not_pool (r := r) (by simp [hidle])
  have hp₁ : Placed l (b.counted r h op ans) place := hp.congr rfl rfl rfl
  obtain ⟨-, hexec⟩ | ⟨-, -, hexec⟩ | ⟨-, -, hexec⟩ := b.exec_start r h op ans res
  · exact ⟨place, by rw [hexec]; exact hp⟩
  · have := hp₁.push res (l.trace ++ .start r ⟨h, op⟩ :: Ledger.ranEvent r res (some ⟨h, op⟩))
      hlive (.inl hidle)
    rw [moved_of_pool (by simp [hpool])] at this
    exact ⟨_, by rw [hexec]; exact this⟩
  · have := hp₁.link (l.trace ++ .start r ⟨h, op⟩ :: Ledger.ranEvent r res none) hlive hopen hidle
    rw [moved_of_pool (by simp [hpool])] at this
    exact ⟨_, by rw [hexec]; exact this⟩

/-- The handle of an event is open. -/
theorem opened_of_event {q : YoQueueT} {env : PollEnv} {h : YoFdT} {mask : YoiPlEvnMask}
    (hc : (Call.poll q env).allowed l = true) (hev : env.poll = .event h mask) (hh : h ≠ NULL) :
    l.opened h = true := by
  simpa [Call.allowed, hev, hh] using hc

/-- A round of polling. -/
theorem poll {q : YoQueueT} {env : PollEnv} (hp : Placed l b place)
    (hc : (Call.poll q env).allowed l = true) :
    ∃ place', Placed (l.after (.poll q env) (b.exec (.poll q env)).2)
      (b.exec (.poll q env)).1 place' := by
  obtain ⟨r, code, t, hready, hexec⟩ | ⟨h, mask, r, -, hev, hh, hpick, hexec⟩ |
    ⟨-, -, step, hexec, hstep⟩ := b.exec_poll q env
  · have hplace : place r = .ready q := (hp.ready q r).mp (by simp [hready])
    have := hp.pop (l.trace ++ (Ledger.ranEvent r code none ++ [.deliver q r code])) hready
    rw [moved_of_pool (by simp [hp.not_pool (r := r) (by simp [hplace])])] at this
    exact ⟨_, by rw [hexec]; exact this⟩
  · have hopen := opened_of_event hc hev hh
    have hmem : r ∈ b.pend h := List.mem_of_find?_eq_some hpick
    have hplace := (hp.pend h r hopen).mp hmem
    have := hp.take env.ans
      (l.trace ++ (Ledger.ranEvent r env.res (some ⟨h, b.op r⟩) ++ [.deliver q r env.res]))
      hopen hmem
    rw [moved_of_pool (by simp [hp.not_pool (r := r) (by simp [hplace])])] at this
    exact ⟨_, by rw [hexec]; exact this⟩
  · refine ⟨place, ?_⟩
    rw [hexec]
    cases step with
    | returned r code ran => exact absurd rfl (hstep r code ran)
    | again | failed => exact hp

/-- Every call keeps everything in one place. -/
theorem step {c : Call} (hp : Placed l b place) (hc : c.allowed l = true) :
    ∃ place', Placed (l.after c (b.exec c).2) (b.exec c).1 place' := by
  cases c with
  | reqNew r q =>
    simp only [Call.allowed, Bool.and_eq_true, Bool.not_eq_true', bne_iff_ne, beq_iff_eq] at hc
    exact ⟨place, hp.reqNew hc.1.1 ⟨hc.1.2, hc.2⟩⟩
  | reqFree r =>
    simp only [Call.allowed, Bool.and_eq_true, Bool.not_eq_true'] at hc
    exact ⟨place, hp.reqFree hc.2⟩
  | fdNew h fd owned =>
    simp only [Call.allowed, Bool.and_eq_true, Bool.not_eq_true'] at hc
    exact ⟨place, hp.fdNew hc.1⟩
  | start r h op ans res => exact hp.start hc
  | exec r =>
    simp only [Call.allowed, Bool.and_eq_true, Bool.not_eq_true'] at hc
    exact ⟨_, hp.hand _ hc.1 (hp.idle_of_not_busy hc.2)⟩
  | finish r code =>
    have hplace := (hp.pool r).mp hc
    have hbusy := (hp.busy r).mpr (by simp [hplace])
    have := hp.push code (l.trace ++ [.ran r none code]) (hp.live r (by simp [hplace]))
      (.inr hplace)
    rw [moved_of_busy (by simp [hbusy])] at this
    exact ⟨_, by simpa [exec, Ledger.after] using this⟩
  | close h ans => exact ⟨_, hp.close ans _ hc⟩
  | poll q env => exact hp.poll hc

end Placed

/-- **Everything is in one place.**  After any run of calls the board and the book agree
with an assignment of one place to each request. -/
theorem placed_of_reachable {s : Conf Board} (h : system.Reachable s) :
    ∃ place, Placed s.ledger s.mem place := by
  refine h.invariant (P := fun s => ∃ place, Placed s.ledger s.mem place) ?_ ?_
  · rintro ⟨b, l⟩ ⟨hfresh, rfl⟩
    refine ⟨fun _ => .idle, ?_⟩
    have hready : ∀ q, b.ready q = [] := fun q => (hfresh q).1
    constructor <;> simp [Ledger.empty, hready]
  · rintro s c t - ⟨place, hp⟩ - hstep
    obtain ⟨hc, b', out, hexec, rfl⟩ := calls_step hstep
    have hkeep := hp.step hc
    rwa [Option.some.inj hexec] at hkeep

/-- **The invariant rule of the board.**  What holds of a new board, and is kept by every permitted
call from a board with everything in one place, holds after every run. -/
theorem reach_invariant {φ : Conf Board → Call → Prop} {P : Ledger → Board → Prop}
    {s : Conf Board} (h : system.Reach φ s) (hinit : ∀ b, Fresh b → P .empty b)
    (hstep : ∀ l b place c, P l b → Placed l b place → c.allowed l = true → φ ⟨b, l⟩ c →
      P (l.after c (b.exec c).2) (b.exec c).1) : P s.ledger s.mem := by
  refine h.invariant (P := fun s => P s.ledger s.mem) ?_ ?_
  · rintro ⟨b, l⟩ ⟨hfresh, rfl⟩
    exact hinit b hfresh
  · rintro ⟨b, l⟩ c t hreach hP hok hst
    obtain ⟨hc, b', out, hexec, rfl⟩ := calls_step hst
    obtain ⟨place, hp⟩ := placed_of_reachable hreach.reachable
    have hkeep := hstep l b place c hP hp hc hok
    rwa [Option.some.inj hexec] at hkeep

end Runs

end Board

end Yaooi
