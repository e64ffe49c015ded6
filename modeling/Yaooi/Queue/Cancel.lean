import Yaooi.Queue.Refine

/-!
# Cancelling a request

`yo_req_cancel` reads and writes the running form of a request around a callback that
turns the request into its ready form.  The flag it sets at the end is by then the low
byte of `ready.next`, so a call that gets as far as the callback cuts the ready list.

* `CancelSafe` is what a caller expects: the ready list stays a list, keeps what was
  on it, holds the request once, and the next polls deliver it.
* `cancelSafe_iff` says exactly when a call meets it: when the early return is taken on a
  request that is already on the ready list, which is when the request after it has an
  address whose low byte is not zero.
* `not_cancelSafe_pending` is the ordinary case: cancelling a request that waits on a
  handle always cuts the list.
-/

namespace Yaooi

open Transition

namespace Heap

/-- As long as a ready list lasts, polling delivers it, whatever the OS has to say. -/
theorem pollRounds_eq {m : Heap} {q : YoQueueT} {l : List (YoReqT × YoCode)}
    (h : m.Ready q l) {envs : List PollEnv} (hlen : envs.length = l.length) :
    m.pollRounds q envs = some (l.map fun p => .returned p.1 p.2 none) := by
  induction l generalizing m envs with
  | nil => simp [pollRounds, List.length_eq_zero_iff.mp hlen]
  | cons p l ih =>
    obtain ⟨r, code⟩ := p
    cases envs with
    | nil => simp at hlen
    | cons env envs =>
      obtain ⟨hpop, hrest⟩ := yoiQueuePop_cons h
      have hround : m.yoQueuePollRound q env =
          some ((m.yoiQueuePop q).1, .returned r code none) := by
        rw [yoQueuePollRound, ← Prod.mk.eta (p := m.yoiQueuePop q), hpop]
      rw [pollRounds, hround, Option.bind_some, ih hrest (by simpa using hlen)]
      rfl

/-- A cancellation that comes back from the callback leaves its mark in the low byte of
`ready.next`. -/
theorem lowByte_yoReqCancel {m m' : Heap} {r : YoReqT} {ans : YoCode}
    (hflag : (m.req r).cancelled = false) (h : m.yoReqCancel r ans = some m') :
    (m'.req r).next.setWidth 8 = 1#8 := by
  rw [yoReqCancel, hflag] at h
  obtain ⟨m₁, -, rfl⟩ := Option.map_eq_some_iff.mp (by simpa using h)
  rw [req_setReq_self]
  exact YoReq.lowByte_setCancelled ..

end Heap

/-- What a caller expects of `yo_req_cancel(r)`: the ready list of the request's queue is
still a list of allocated requests, every request it held is on it with its code, `r` is
on it once, and the next polls return it, request by request. -/
def CancelSafe (l : Ledger) (m : Heap) (r : YoReqT) (ans : YoCode) : Prop :=
  ∃ m' before after,
    m.readyList (m.req r).queue = some before ∧ m.yoReqCancel r ans = some m' ∧
      m'.readyList (m.req r).queue = some after ∧ (∀ p ∈ after, l.live p.1) ∧
      (∀ p ∈ before, p ∈ after) ∧ (after.map Prod.fst).count r = 1 ∧
      ∀ envs : List PollEnv, envs.length = after.length →
        m'.pollRounds (m.req r).queue envs = some (after.map fun p => .returned p.1 p.2 none)

/-- The request is on a ready list, and the low byte of the address of the request after
it is not zero. -/
def OddSuccessor (m : Heap) (r : YoReqT) : Prop :=
  ∃ q l code x code' l', m.readyList q = some (l ++ (r, code) :: (x, code') :: l') ∧
    x.setWidth 8 ≠ 0#8

/-- The low byte of an address that `malloc` answers is not 1. -/
theorem lowByte_ne_one {x : Ptr} (hx : x.setWidth 4 = 0#4) : x.setWidth 8 ≠ 1#8 := by
  intro h
  have : (x.setWidth 8).setWidth 4 = (1#8).setWidth 4 := by rw [h]
  rw [BitVec.setWidth_setWidth_of_le _ (by decide), hx] at this
  exact absurd this (by decide)

variable {s : Conf Heap} {r : YoReqT} {ans : YoCode}

/-- **A cancellation that gets to its callback cuts the ready list**, whatever phase the
request is in. -/
theorem not_cancelSafe_of_not_cancelled (h : Heap.system.Reachable s)
    (hflag : (s.mem.req r).cancelled = false) : ¬ CancelSafe s.ledger s.mem r ans := by
  rintro ⟨m', before, after, -, hcancel, hafter, hlive, -, hcount, -⟩
  obtain ⟨b, -, -, place, hp⟩ := refines_of_reachable h
  have hmark := Heap.lowByte_yoReqCancel hflag hcancel
  have hr : r ∈ after.map Prod.fst := List.count_pos_iff.mp (by omega)
  have hready := Heap.readyList_eq_some.mp hafter
  rcases hready.1.next_mem hr with hnull | hmem
  · rw [show (m'.req r).next = NULL from hnull] at hmark
    exact absurd hmark (by decide)
  · obtain ⟨p, hp', heq⟩ := List.mem_map.mp hmem
    exact lowByte_ne_one (hp.live_ok _ (heq ▸ hlive p hp')).2 hmark

/-- On a ready list, the second word of a request is the address of the one after it. -/
theorem next_of_ready {m : Heap} {q : YoQueueT} {l₁ l₂ : List (YoReqT × YoCode)} {x : YoReqT}
    {code code' : YoCode} (h : m.Ready q (l₁ ++ (r, code) :: (x, code') :: l₂)) :
    (m.req r).next = x := by
  have hchain := h.1
  simp only [List.map_append, List.map_cons] at hchain
  exact hchain.suffix.2.2.1

theorem cancelled_eq_true {x : YoReq} : x.cancelled = true ↔ x.next.setWidth 8 ≠ 0#8 := by
  simp [YoReq.cancelled, YoReq.next]

/-- A request of a ready list looks cancelled exactly when the address after it is not
null and ends in a byte that is not zero. -/
theorem cancelled_iff_of_ready {m : Heap} {q : YoQueueT} {l : List (YoReqT × YoCode)}
    {code : YoCode} (h : m.Ready q l) (hr : (r, code) ∈ l) :
    (m.req r).cancelled = true ↔ OddSuccessor m r := by
  rw [cancelled_eq_true]
  constructor
  · intro hbyte
    obtain ⟨l₁, l₂, rfl⟩ := List.append_of_mem hr
    cases l₂ with
    | nil =>
      have hchain := h.1
      simp only [List.map_append, List.map_cons] at hchain
      rw [show (m.req r).next = NULL from hchain.suffix.2.2] at hbyte
      exact absurd rfl hbyte
    | cons p l₂ =>
      rw [next_of_ready h] at hbyte
      exact ⟨q, l₁, code, p.1, p.2, l₂, Heap.readyList_eq_some.mpr h, hbyte⟩
  · rintro ⟨k, l₁, c, x, c', l₂, hlist, hbyte⟩
    rw [next_of_ready (Heap.readyList_eq_some.mp hlist)]
    exact hbyte

/-- **When cancelling is safe.**  A cancellation keeps its promise exactly when the
request already sits on a ready list, before a request whose address ends in a byte that
is not zero: the early return then leaves everything as it is. -/
theorem cancelSafe_iff (h : Heap.system.Reachable s) :
    CancelSafe s.ledger s.mem r ans ↔ OddSuccessor s.mem r := by
  obtain ⟨b, -, hR, place, hp⟩ := refines_of_reachable h
  constructor
  · intro hsafe
    have hflag : (s.mem.req r).cancelled = true := by
      by_contra hne
      exact not_cancelSafe_of_not_cancelled h (by simpa using hne) hsafe
    obtain ⟨m', before, after, -, hcancel, hafter, -, -, hcount, -⟩ := hsafe
    obtain rfl : s.mem = m' := by simpa [Heap.yoReqCancel, hflag] using hcancel
    have hr : r ∈ after.map Prod.fst := List.count_pos_iff.mp (by omega)
    obtain ⟨p, hmem, rfl⟩ := List.mem_map.mp hr
    exact (cancelled_iff_of_ready (Heap.readyList_eq_some.mp hafter) hmem).mp hflag
  · intro hodd
    obtain ⟨q, l₁, code, x, code', l₂, hlist, hbyte⟩ := id hodd
    have hready := Heap.readyList_eq_some.mp hlist
    have hmem : (r, code) ∈ l₁ ++ (r, code) :: (x, code') :: l₂ := by simp
    have hflag := (cancelled_iff_of_ready hready hmem).mpr hodd
    have hb : b.ready q = l₁ ++ (r, code) :: (x, code') :: l₂ := by
      simpa [hR.readyList] using hlist
    have hplace : place r = .ready q := (hp.ready q r).mp (by simp [hb])
    have hq : (s.mem.req r).queue = q := (hR.queueOf r).trans (hp.queue q r hplace)
    subst hq
    refine ⟨s.mem, _, _, hlist, by simp [Heap.yoReqCancel, hflag], hlist, ?_, fun _ hp => hp, ?_,
      fun _ => Heap.pollRounds_eq hready⟩
    · intro p hmem
      apply hp.live p.1
      rw [(hp.ready _ p.1).mp (List.mem_map.mpr ⟨p, hb ▸ hmem, rfl⟩)]
      simp
    · exact List.count_eq_one_of_mem hready.nodup (by simp)

/-- Cancelling a request that waits on an open handle is never safe. -/
theorem not_cancelSafe_pending {h : YoFdT} {l : List YoReqT} (hs : Heap.system.Reachable s)
    (hh : s.ledger.opened h = true) (hl : s.mem.handleList h = some l) (hr : r ∈ l) :
    ¬ CancelSafe s.ledger s.mem r ans := by
  obtain ⟨b, -, hR, -⟩ := refines_of_reachable hs
  rw [hR.handleList hh, Option.some.injEq] at hl
  exact not_cancelSafe_of_not_cancelled hs (hR.waits h r hh (hl ▸ hr)).cancelled

/-! ## Two runs -/

/-- A request for the queue at `0x10` waits to read from the handle at `0x20`. -/
def oneRead : List Call :=
  [.reqNew 0x30 0x10, .fdNew 0x20 5 true, .start 0x30 0x20 (.read 0x700 0x708) .ok .ok]

/-- Cancelling the only pending read: the next poll returns it, and the one after that
returns the request at address 1. -/
theorem cancel_oneRead :
    let s := Heap.afterCalls oneRead
    Heap.system.Reachable s ∧ s.ledger.busy 0x30 = true ∧ s.mem.handleList 0x20 = some [0x30] ∧
      s.mem.readyList 0x10 = some [] ∧ ¬ CancelSafe s.ledger s.mem 0x30 .ok ∧
      (s.mem.yoReqCancel 0x30 .ok).bind (·.pollRounds 0x10
          [⟨.error .etimeout, .ok, .ok⟩, ⟨.error .etimeout, .ok, .ok⟩]) =
        some [.returned 0x30 .ecanceled none, .returned 0x1 0 none] := by
  have hreach := Heap.reachable_afterCalls oneRead
  refine ⟨hreach, ?_, ?_, ?_, not_cancelSafe_of_not_cancelled hreach ?_, ?_⟩
  all_goals decide +kernel

/-- Two requests of the pool complete: the ready list holds `0x220`, then `0x110`. -/
def twoDone : List Call :=
  [.reqNew 0x110 0x10, .reqNew 0x220 0x10, .exec 0x110, .exec 0x220, .finish 0x110 7,
    .finish 0x220 8]

/-- Cancelling the first of the two is safe. -/
theorem cancelSafe_twoDone :
    let s := Heap.afterCalls twoDone
    s.mem.readyList 0x10 = some [(0x220, 8), (0x110, 7)] ∧
      CancelSafe s.ledger s.mem 0x220 .ok := by
  have hlist : (Heap.afterCalls twoDone).mem.readyList 0x10 = some [(0x220, 8), (0x110, 7)] := by
    decide +kernel
  have hodd : OddSuccessor (Heap.afterCalls twoDone).mem 0x220 :=
    ⟨0x10, [], 8, 0x110, 7, [], hlist, by decide⟩
  exact ⟨hlist, (cancelSafe_iff (Heap.reachable_afterCalls twoDone)).mpr hodd⟩

end Yaooi
