import Yaooi.Queue.Delivery

/-!
# Closing a handle request by request

`yoi_unix_onclose` of `src/unix/pollish.c` completes the requests of a handle one after the other,
each with the lock of its queue, and gives the lock back in between.  So a thread of the pool may
complete its own request while a handle is being closed.

* `Heap.parts`: the calls of a program with each close taken apart.
* `RefinesIn` and `TrackedIn`: what the memory and the trace say while a close is under way.
* `whole_of_parts`: where nothing is completed within a close, these are runs of whole calls.
-/

namespace Yaooi

open Transition

/-! ## The parts -/

/-- A call of `yo_fd_close` that is under way: its handle, what the backend answers for each
request, and the request that the loop of `yoi_unix_onclose` has come to. -/
structure Onclose where
  fd : YoFdT
  ans : YoReqT → YoCode
  i : YoReqT

/-- A memory with the callers' book, and the close that is under way. -/
structure Parts where
  mem : Heap
  ledger : Ledger
  closing : Option Onclose

inductive Part where
  /-- A call in one step. -/
  | call (c : Call)
  /-- `yo_fd_close` begins. -/
  | close (h : YoFdT) (ans : YoReqT → YoCode)
  /-- It completes the next request. -/
  | cancel
  /-- It gives up the handle. -/
  | shut

/-- The call is made in one step.  While a handle is being closed, only the pool's threads do
something. -/
def Call.whole (closing : Option Onclose) : Call → Bool
  | .close .. => false
  | .finish .. => true
  | .reqNew .. | .reqFree _ | .fdNew .. | .start .. | .exec _ | .poll .. => closing.isNone

namespace Heap

/-- The loop of `yoi_unix_onclose` begins. -/
def onclose (m : Heap) (h : YoFdT) (ans : YoReqT → YoCode) : Onclose := ⟨h, ans, (m.fd h).head⟩

/-- It completes a request, and goes to the next one. -/
def cancelNext (m : Heap) (c : Onclose) : Heap × Onclose :=
  let m := oncloseBody c.fd c.ans m c.i
  (m, { c with i := (m.req c.i).ioq.next })

/-- The calls of a program, with each close in parts. -/
def parts : System Parts Part where
  init s := Fresh s.mem ∧ s.ledger = .empty ∧ s.closing = none
  step s
    | .call c =>
      if c.whole s.closing ∧ c.allowed s.ledger then
        (s.mem.exec c).map fun p => ⟨p.1, s.ledger.after c p.2, s.closing⟩
      else none
    | .close h ans =>
      if s.closing.isNone ∧ s.ledger.opened h then
        some { s with closing := some (s.mem.onclose h ans) }
      else none
    | .cancel =>
      match s.closing with
      | some c =>
        if c.i = NULL then none
        else some ⟨(s.mem.cancelNext c).1, s.ledger, some (s.mem.cancelNext c).2⟩
      | none => none
    | .shut =>
      match s.closing with
      | some c =>
        if c.i = NULL then some ⟨s.mem, s.ledger.after (.close c.fd c.ans) .done, none⟩ else none
      | none => none

end Heap

/-- No request of the pool is completed while a handle is being closed. -/
def Part.Alone (s : Parts) (a : Part) : Prop :=
  s.closing.isSome = true → ∀ r code, a ≠ .call (.finish r code)

/-! ## Runs of whole calls -/

namespace Heap

variable {s t : Parts} {a : Part}

/-- Everything a step can be. -/
inductive PartSteps (s : Parts) : Part → Parts → Prop
  | call {c : Call} {m : Heap} {out : Outcome} (hwhole : c.whole s.closing = true)
      (hc : c.allowed s.ledger = true) (hexec : s.mem.exec c = some (m, out)) :
      PartSteps s (.call c) ⟨m, s.ledger.after c out, s.closing⟩
  | close {h : YoFdT} {ans : YoReqT → YoCode} (hnone : s.closing = none)
      (ho : s.ledger.opened h = true) :
      PartSteps s (.close h ans) ⟨s.mem, s.ledger, some (s.mem.onclose h ans)⟩
  | cancel {c : Onclose} (hc : s.closing = some c) (hi : c.i ≠ NULL) :
      PartSteps s .cancel ⟨(s.mem.cancelNext c).1, s.ledger, some (s.mem.cancelNext c).2⟩
  | shut {c : Onclose} (hc : s.closing = some c) (hi : c.i = NULL) :
      PartSteps s .shut ⟨s.mem, s.ledger.after (.close c.fd c.ans) .done, none⟩

theorem partSteps (h : parts.step s a = some t) : PartSteps s a t := by
  cases a with
  | call c =>
    simp only [parts] at h
    split at h
    · rename_i hok
      obtain ⟨⟨m, out⟩, hexec, rfl⟩ := Option.map_eq_some_iff.mp h
      exact .call hok.1 hok.2 hexec
    · cases h
  | close g ans =>
    simp only [parts] at h
    split at h
    · rename_i hok
      cases h
      exact .close (Option.isNone_iff_eq_none.mp hok.1) hok.2
    · cases h
  | cancel =>
    simp only [parts] at h
    split at h
    · rename_i c hc
      split at h
      · cases h
      · rename_i hi
        cases h
        exact .cancel hc hi
    · cases h
  | shut =>
    simp only [parts] at h
    split at h
    · rename_i c hc
      split at h
      · rename_i hi
        cases h
        exact .shut hc hi
      · cases h
    · cases h

/-- A close that is under way is one that began after a run of whole calls, and its loop ends in the
memory `m₁`, where the whole call ends. -/
def Within (s : Parts) (c : Onclose) : Prop :=
  ∃ m₀ m₁ n, system.Reachable ⟨m₀, s.ledger⟩ ∧ s.ledger.opened c.fd = true ∧
    m₀.yoiUnixOnclose c.fd c.ans = some m₁ ∧
    Chain.sweep (fun m i => (m.req i).ioq.next) NULL (oncloseBody c.fd c.ans) n s.mem c.i = some m₁

/-- **A run whose closes are alone is a run of whole calls.** -/
theorem whole_of_parts (h : parts.Reach Part.Alone s) :
    match s.closing with
    | none => system.Reachable ⟨s.mem, s.ledger⟩
    | some c => Within s c := by
  refine h.invariant (P := fun s => match s.closing with
    | none => system.Reachable ⟨s.mem, s.ledger⟩
    | some c => Within s c) ?_ ?_
  · rintro ⟨m, l, c⟩ ⟨hfresh, hl, hc⟩
    obtain rfl : c = none := hc
    exact .init ⟨hfresh, hl⟩
  · rintro ⟨m, l, c⟩ a t - hs halone hst
    cases partSteps hst with
    | @call c' m' out hwhole hc hexec =>
      cases c with
      | none =>
        have hstep : system.step ⟨m, l⟩ c' = some ⟨m', l.after c' out⟩ := by
          have hc : c'.allowed l = true := hc
          have hexec : m.exec c' = some (m', out) := hexec
          simp [system, calls, hc, hexec]
        exact hs.step trivial hstep
      | some c =>
        -- only a completion may be made then, and there is none
        cases c' with
        | finish r code => exact absurd rfl (halone rfl r code)
        | _ => cases hwhole
    | @close h ans hnone ho =>
      obtain rfl : c = none := hnone
      have hm : system.Reachable ⟨m, l⟩ := hs
      obtain ⟨b, hreach, hR, place, hp⟩ := refines_of_reachable hm
      obtain ⟨m₁, hexec, -⟩ := exec_refines (c := .close h ans) hR hp ho
      obtain ⟨m₂, hclose, -⟩ := Option.map_eq_some_iff.mp hexec
      exact ⟨m, m₂, rounds, hm, ho, hclose, hclose⟩
    | @cancel c' hc hi =>
      obtain rfl : c = some c' := hc
      obtain ⟨m₀, m₁, n, hm, ho, hclose, hsweep⟩ := hs
      cases n with
      | zero => cases hsweep
      | succ n =>
        rw [Chain.sweep, if_neg hi] at hsweep
        exact ⟨m₀, m₁, n, hm, ho, hclose, hsweep⟩
    | @shut c' hc hi =>
      obtain rfl : c = some c' := hc
      obtain ⟨m₀, m₁, n, hm, ho, hclose, hsweep⟩ := hs
      cases n with
      | zero => cases hsweep
      | succ n =>
        rw [Chain.sweep, if_pos hi] at hsweep
        obtain rfl := Option.some.inj hsweep
        have hstep : system.step ⟨m₀, l⟩ (.close c'.fd c'.ans) =
            some ⟨m, l.after (.close c'.fd c'.ans) .done⟩ := by
          have ho : Call.allowed l (.close c'.fd c'.ans) = true := ho
          have hclose : m₀.yoiUnixOnclose c'.fd c'.ans = some m := hclose
          simp [system, calls, ho, exec, hclose]
        exact hm.step trivial hstep

end Heap

/-! ## What the memory shows meanwhile -/

/-- The handles whose lists the memory still holds: the open ones, but not the one that is being
closed. -/
def Ledger.but (l : Ledger) : Option Onclose → YoFdT → Bool
  | none => l.opened
  | some c => Function.update l.opened c.fd false

/-- The memory holds what the board shows, and the loop of a close has come to the first of the
requests that still wait on its handle. -/
structure RefinesIn (l : Ledger) (c : Option Onclose) (m : Heap) (b : Board) : Prop where
  refines : Refines (l.but c) m b
  left : ∀ x ∈ c, Chain.IsChain m.ioq.next NULL x.i (b.pend x.fd)

/-- The board once the first request `i` of a handle is completed because the handle is closed. -/
def Board.cancelFront (b : Board) (c : Onclose) (i : YoReqT) (left : List YoReqT) : Board :=
  { b.cancelAll c.fd c.ans [i] with pend := Function.update b.pend c.fd left }

theorem Board.ready_cancelFront (b : Board) (c : Onclose) (i : YoReqT) (left : List YoReqT) :
    (b.cancelFront c i left).ready = (b.push i .ecanceled).ready := rfl

section Steps

variable {l : Ledger} {b : Board} {place : YoReqT → Board.Place} {m : Heap} {c : Option Onclose}
  {x : Onclose} {r i : YoReqT} {left : List YoReqT} {g h : YoFdT} {code : YoCode}

theorem Ledger.opened_of_but (hg : l.but c g = true) :
    l.opened g = true ∧ ∀ x ∈ c, g ≠ x.fd := by
  cases c with
  | none => exact ⟨hg, by simp⟩
  | some x =>
    have hne : g ≠ x.fd := fun e => by simp [Ledger.but, e] at hg
    refine ⟨by simpa [Ledger.but, hne] using hg, fun y hy => ?_⟩
    obtain rfl := Option.some.inj hy
    exact hne

/-- A request that the pool holds is on no list. -/
theorem Board.Placed.free_of_pool (hp : Board.Placed l b place) (hr : l.pool r = true) :
    (∀ g, l.but c g = true → r ∉ b.pend g) ∧ (∀ q, r ∉ (b.ready q).map Prod.fst) ∧ r ≠ NULL := by
  have hplace := (hp.pool r).mp hr
  exact ⟨fun g hg => hp.not_mem_pend (by simp [hplace]) (Ledger.opened_of_but hg).1,
    fun q => hp.not_mem_ready (by simp [hplace]), (hp.live_ok r (hp.live r (by simp [hplace]))).1⟩

/-- A thread of the pool completes its request. -/
theorem RefinesIn.finish (hR : RefinesIn l c m b) (hp : Board.Placed l b place)
    (hr : l.pool r = true) (code : YoCode) :
    RefinesIn (l.after (.finish r code) .done) c (m.yoiReqEnd r code) (b.push r code) := by
  obtain ⟨hpend, hready, hne⟩ := hp.free_of_pool (c := c) hr
  have hbut : (l.after (.finish r code) .done).but c = l.but c := by cases c <;> rfl
  refine ⟨?_, fun x hx => ?_⟩
  · rw [hbut]
    exact hR.refines.yoiReqEnd hpend hready hne
  · rw [Heap.ioq_yoiReqEnd]
    exact hR.left x hx

/-- A close begins. -/
theorem RefinesIn.close (hR : RefinesIn l none m b) (ho : l.opened h = true)
    (ans : YoReqT → YoCode) : RefinesIn l (some (m.onclose h ans)) m b := by
  have hR := hR.refines
  refine ⟨hR.shut fun g hg => (Ledger.opened_of_but hg).1, fun x hx => ?_⟩
  obtain rfl := Option.some.inj hx
  exact (hR.pend.seg h ho).isChain

/-- The list of a handle that the memory need not hold may be any. -/
theorem Refines.setPend {o : YoFdT → Bool} (hR : Refines o m b) (ho : o h = false)
    (left : List YoReqT) : Refines o m { b with pend := Function.update b.pend h left } := by
  have hsame : ∀ g, o g = true → Function.update b.pend h left g = b.pend g := by
    intro g hg
    refine Function.update_of_ne (fun e => ?_) _ _
    rw [e, ho] at hg
    cases hg
  refine hR.setIoq (s := m.ioq) ⟨fun g hg => ?_, fun g k y hg hk => ?_⟩ fun g r hg hr => ?_
  · rw [hsame g hg]
    exact hR.pend.seg g hg
  · rw [hsame g hg, hsame k hk]
    exact hR.pend.disjoint g k y hg hk
  · exact hR.waits g r hg (hsame g hg ▸ hr)

/-- The loop completes the request that it has come to. -/
theorem RefinesIn.cancel (hR : RefinesIn l (some x) m b) (hp : Board.Placed l b place)
    (ho : l.opened x.fd = true) (hpend : b.pend x.fd = i :: left) :
    RefinesIn l (some (m.cancelNext x).2) (m.cancelNext x).1 (b.cancelFront x i left) := by
  have hchain := hR.left x rfl
  rw [hpend] at hchain
  obtain ⟨hi, hne, hrest⟩ := hchain
  have hplace : place i = .handle x.fd := (hp.pend x.fd i ho).mp (by simp [hpend])
  have hioq : (m.cancelNext x).1.ioq = m.ioq := by
    simp [Heap.cancelNext, Heap.oncloseBody, Heap.yoiPlImplSetmask]
  have hone : Refines (l.but (some x)) (m.cancelNext x).1 (b.cancelAll x.fd x.ans [i]) := by
    rw [Heap.cancelNext, hi]
    refine hR.refines.oncloseBody (l := [i]) (fun y hy g hg hmem => ?_) (fun y hy q => ?_)
      (by simp) fun y hy => ?_
    all_goals obtain rfl := List.mem_singleton.mp hy
    · obtain ⟨hg, hgx⟩ := Ledger.opened_of_but hg
      rw [hp.pend g y hg, hplace] at hmem
      exact hgx x rfl (Board.Place.handle.inj hmem).symm
    · exact hp.not_mem_ready (by simp [hplace])
    · exact hne
  refine ⟨hone.setPend (by simp [Ledger.but]) left, fun y hy => ?_⟩
  obtain rfl := Option.some.inj hy
  have hnext : (m.cancelNext x).2.i = m.ioq.next i := by
    rw [← hioq, ← hi]
    rfl
  rw [hioq, hnext]
  simpa [Board.cancelFront, Heap.cancelNext] using hrest

/-- One request goes from the handle to the ready list. -/
theorem Board.Placed.cancel (hp : Board.Placed l b place) (ho : l.opened x.fd = true)
    (hpend : b.pend x.fd = i :: left) :
    Board.Placed l (b.cancelFront x i left) (Function.update place i (.ready (b.queueOf i))) := by
  have hplace : place i = .handle x.fd := (hp.pend x.fd i ho).mp (by simp [hpend])
  have hnd := hp.pend_nodup x.fd ho
  rw [hpend] at hnd
  obtain ⟨hnot, hnd⟩ := List.nodup_cons.mp hnd
  have hbusy : l.busy i = true := (hp.busy i).mpr (by simp [hplace])
  have hpool : l.pool i = false := hp.not_pool (by simp [hplace])
  have hready : ∀ q, (b.cancelFront x i left).ready q =
      if q = b.queueOf i then (i, .ecanceled) :: b.ready q else b.ready q := by
    intro q
    rw [b.ready_cancelFront, b.ready_push]
  have hnr : ∀ q, i ∉ (b.ready q).map Prod.fst := fun q => hp.not_mem_ready (by simp [hplace])
  refine hp.move _ rfl rfl ?_ ?_ (fun _ => hp.live i (by simp [hplace])) (by simp) ?_ ?_ ?_ ?_ rfl
    (by simp)
  · rw [show decide (Board.Place.ready (b.queueOf i) ≠ .idle) = l.busy i by simp [hbusy],
      Function.update_eq_self]
  · rw [show decide (Board.Place.ready (b.queueOf i) = .pool) = l.pool i by simp [hpool],
      Function.update_eq_self]
  · intro g y hg
    show y ∈ Function.update b.pend x.fd left g ↔ _
    by_cases hgx : g = x.fd
    · subst hgx
      rw [Function.update_self, hpend]
      by_cases hy : y = i
      · simp [hy, hnot]
      · simp [hy]
    · rw [Function.update_of_ne hgx]
      by_cases hy : y = i
      · subst hy
        rw [hp.pend g y hg, hplace]
        simpa using Ne.symm hgx
      · simp [hy]
  · intro g hg
    show (Function.update b.pend x.fd left g).Nodup
    by_cases hgx : g = x.fd
    · rwa [hgx, Function.update_self]
    · rw [Function.update_of_ne hgx]
      exact hp.pend_nodup g hg
  · intro q y
    rw [hready]
    by_cases hq : q = b.queueOf i <;> by_cases hy : y = i
    · simp [hq, hy]
    · simp [hq, hy]
    · simpa [hq, hy, Ne.symm hq] using hnr q
    · simp [hq, hy]
  · intro q
    rw [hready]
    split
    · exact List.nodup_cons.mpr ⟨hnr q, hp.ready_nodup q⟩
    · exact hp.ready_nodup q

/-- The handle is given up when nothing waits on it any more. -/
theorem Board.Placed.shut (hp : Board.Placed l b place) (ho : l.opened h = true)
    (hpend : b.pend h = []) (ans : YoReqT → YoCode) :
    Board.Placed (l.after (.close h ans) .done) b place where
  __ := hp
  opened g y hy := by
    have hgh : g ≠ h := by
      rintro rfl
      have := (hp.pend g y ho).mpr hy
      rw [hpend] at this
      cases this
    simpa [Ledger.after, hgh] using hp.opened g y hy
  pend g y hg := by
    have hgh : g ≠ h := fun e => by simp [Ledger.after, e] at hg
    exact hp.pend g y (by simpa [Ledger.after, hgh] using hg)
  pend_nodup g hg := by
    have hgh : g ≠ h := fun e => by simp [Ledger.after, e] at hg
    exact hp.pend_nodup g (by simpa [Ledger.after, hgh] using hg)

end Steps

/-! ## What the trace says meanwhile -/

/-- The board and the book are where the phase says, or the close that is under way has completed
the request, which the trace does not say before it is over. -/
def Phase.AgreesIn (l : Ledger) (b : Board) (c : Option Onclose) (r : YoReqT) (p : Phase) : Prop :=
  p.Agrees l b r ∨ ∃ x ∈ c, p.handle = some x.fd ∧ ∃ q, (r, .ecanceled) ∈ b.ready q

/-- The trace and the board tell the same story of every request, except for the close. -/
def TrackedIn (l : Ledger) (b : Board) (c : Option Onclose) : Prop :=
  ∀ r, ∃ p, Phase.run r .idle l.trace = some p ∧ p.AgreesIn l b c r

section Trace

variable {l l' : Ledger} {b b' : Board} {place : YoReqT → Board.Place} {c : Option Onclose}
  {x : Onclose} {r i : YoReqT} {left : List YoReqT} {code : YoCode} {p : Phase}

theorem trackedIn_none : TrackedIn l b none ↔ Tracked l b := by
  simp [TrackedIn, Phase.AgreesIn, Tracked]

/-- A request that a close has completed is on a ready list. -/
theorem Phase.AgreesIn.split (ha : p.AgreesIn l b c r) (hp : Board.Placed l b place) :
    p.Agrees l b r ∨ (∃ call, p = .waiting call) ∧ ∃ q, place r = .ready q := by
  refine ha.imp_right ?_
  rintro ⟨x, -, hx, q, hq⟩
  refine ⟨?_, q, (hp.ready q r).mp (List.mem_map.mpr ⟨_, hq, rfl⟩)⟩
  cases p with
  | waiting call => exact ⟨call, rfl⟩
  | idle | pooled | done | canceled => cases hx

/-- What a thread of the pool does. -/
theorem TrackedIn.finish (ht : TrackedIn l b c) (hp : Board.Placed l b place)
    (hr : l.pool r = true) :
    TrackedIn (l.after (.finish r code) .done) (b.push r code) c := by
  have hplace := (hp.pool r).mp hr
  intro y
  obtain ⟨p, hrun, ha⟩ := ht y
  have htrace : Phase.run y .idle (l.after (.finish r code) .done).trace =
      Phase.run y p [.ran r none code] := by
    simp only [Ledger.after, Phase.run_append, hrun, Option.bind_some]
  by_cases hy : y = r
  · subst hy
    rcases ha.split hp with ha | ⟨-, q, hq⟩
    · obtain rfl := ha.pooled hp hplace
      refine ⟨.done code, htrace.trans ?_, .inl ⟨b.queueOf y, by simp [Board.ready_push]⟩⟩
      simp [Phase.step, Event.req, Phase.advance, Phase.started]
    · simp [hplace] at hq
  · refine ⟨p, htrace.trans (Phase.run_of_ne (x := r) (by simp [Event.req]) (Ne.symm hy)), ?_⟩
    rcases ha with ha | ⟨x, hx, hh, q, hq⟩
    · exact .inl (ha.mono rfl (by simp [Ledger.after, hy]) (fun _ ho hm => ⟨ho, hm⟩) rfl
        fun _ _ => Board.mem_ready_push)
    · exact .inr ⟨x, hx, hh, q, Board.mem_ready_push hq⟩

/-- The loop of a close completes a request. -/
theorem TrackedIn.cancel {x' : Onclose} (ht : TrackedIn l b (some x)) (hp : Board.Placed l b place)
    (ho : l.opened x.fd = true) (hpend : b.pend x.fd = i :: left) (hx' : x'.fd = x.fd) :
    TrackedIn l (b.cancelFront x i left) (some x') := by
  have hplace : place i = .handle x.fd := (hp.pend x.fd i ho).mp (by simp [hpend])
  have hkeep : ∀ y q code', (y, code') ∈ b.ready q →
      (y, code') ∈ (b.cancelFront x i left).ready q := by
    intro y q code' hy
    rw [b.ready_cancelFront]
    exact Board.mem_ready_push hy
  intro y
  obtain ⟨p, hrun, ha⟩ := ht y
  refine ⟨p, hrun, ?_⟩
  by_cases hy : y = i
  · subst hy
    rcases ha.split hp with ha | ⟨-, q, hq⟩
    · obtain rfl := ha.waiting hp hplace
      exact .inr ⟨x', rfl, by rw [hx']; rfl, b.queueOf y,
        by rw [b.ready_cancelFront, b.ready_push, if_pos rfl]; exact List.mem_cons_self ..⟩
    · simp [hplace] at hq
  · rcases ha with ha | ⟨z, hz, hh, q, hq⟩
    · refine .inl (ha.mono rfl rfl (fun g hg hm => ⟨hg, ?_⟩) rfl (hkeep y))
      show y ∈ Function.update b.pend x.fd left g
      by_cases hgx : g = x.fd
      · subst hgx
        rw [hpend] at hm
        simpa [hy] using hm
      · rwa [Function.update_of_ne hgx]
    · obtain rfl := Option.some.inj hz
      exact .inr ⟨x', rfl, hx' ▸ hh, q, hkeep y q _ hq⟩

/-- A close is over: the trace says so, and of every request that was completed by it. -/
theorem TrackedIn.shut (ht : TrackedIn l b (some x)) (hpend : b.pend x.fd = []) :
    Tracked (l.after (.close x.fd x.ans) .done) b := by
  intro r
  obtain ⟨p, hrun, ha⟩ := ht r
  have htrace : Phase.run r .idle (l.after (.close x.fd x.ans) .done).trace =
      p.step r (.close x.fd) := by
    simp only [Ledger.after, Phase.run_append, hrun, Option.bind_some, Phase.run_cons]
    cases p.step r (.close x.fd) <;> rfl
  rw [htrace, Phase.step_of_req (.inl rfl), Phase.advance]
  by_cases hh : p.handle = some x.fd
  · refine ⟨.canceled, if_pos hh, ?_⟩
    rcases ha with ha | ⟨y, -, -, hq⟩
    · cases p with
      | waiting call =>
        have hmem := ha.2.1
        rw [show call.fd = x.fd from Option.some.inj hh, hpend] at hmem
        cases hmem
      | idle | pooled | done | canceled => cases hh
    · exact hq
  · refine ⟨p, if_neg hh, ?_⟩
    rcases ha with ha | ⟨y, hy, hy', -⟩
    · refine ha.mono rfl rfl (fun g hg hm => ⟨?_, hm⟩) rfl fun _ _ => id
      have hgx : g ≠ x.fd := by
        rintro rfl
        rw [hpend] at hm
        cases hm
      simpa [Ledger.after, hgx] using hg
    · obtain rfl := Option.some.inj hy
      exact absurd hy' hh

end Trace

end Yaooi
