import Yaooi.Queue.Refine

/-!
# The ready list is a stack

`yoi_req_end` puts a completed request in front of the ready list of its queue and
`yoi_queue_pop` takes the one in front, so the request that completed last is delivered first.

* `readyList_step`: what a call makes of the ready list of a queue.
* `buried`: what lies below stays, for as long as no poll gets down to it; and since a request may
  be used again, a completed one may be left there for any number of polls.
-/

namespace Yaooi

open Transition

namespace Heap

/-- What a call completes for the queue, the first one first. -/
def completes (m : Heap) (q : YoQueueT) : Call → List (YoReqT × YoCode)
  | .finish r code => if (m.req r).queue = q then [(r, code)] else []
  | .start r h _ ans res =>
    if yoiUnixIsfd (m.fd h) = true ∧ ans = .eperm ∧ (m.req r).queue = q then [(r, res)] else []
  | .close h _ =>
    (((m.handleList h).getD []).filter fun r => (m.req r).queue = q).map (·, .ecanceled)
  | .reqNew .. | .reqFree _ | .fdNew .. | .exec _ | .poll .. => []

/-- What a call makes of the ready list of the queue. -/
def readyAfter (m : Heap) (q : YoQueueT) (c : Call) (l : List (YoReqT × YoCode)) :
    List (YoReqT × YoCode) :=
  match c with
  | .poll k _ => if k = q then l.tail else l
  | _ => (m.completes q c).reverse ++ l

/-- The board's ready list after a call. -/
theorem ready_exec {o : YoFdT → Bool} {m : Heap} {b : Board} {q : YoQueueT} {c : Call}
    (hR : Refines o m b) (hc : ∀ h ans, c = .close h ans → o h = true) :
    (b.exec c).1.ready q = m.readyAfter q c (b.ready q) := by
  cases c with
  | reqNew r k => rfl
  | reqFree r => rfl
  | fdNew h fd owned => rfl
  | exec r => rfl
  | finish r code =>
    show (b.push r code).ready q = _
    rw [Board.ready_push]
    simp only [readyAfter, completes, hR.queueOf]
    by_cases hq : b.queueOf r = q
    · simp [hq]
    · simp [hq, Ne.symm hq]
  | start r h op ans res =>
    have hfd : yoiUnixIsfd (m.fd h) = yoiUnixIsfd (b.fd h) := congrArg (!·) (hR.isAt h)
    simp only [readyAfter, completes, hR.queueOf, hfd]
    obtain ⟨hno, hexec⟩ | ⟨hyes, hans, hexec⟩ | ⟨hyes, hans, hexec⟩ := b.exec_start r h op ans res
    · rw [hexec]
      simp [hno]
    · rw [hexec, Board.ready_push]
      by_cases hq : b.queueOf r = q
      · simp [hyes, hans, hq]
      · simp [hyes, hans, hq, Ne.symm hq]
    · rw [hexec]
      simp [hans]
  | close h ans =>
    show (b.close h ans).ready q = _
    rw [Board.close_eq_cancelAll, Board.ready_cancelAll]
    simp [readyAfter, completes, hR.handleList (hc h ans rfl), hR.queueOf]
  | poll k env =>
    simp only [readyAfter]
    obtain ⟨r, code, l, hready, hexec⟩ | ⟨h, mask, r, hready, -, -, -, hexec⟩ |
      ⟨hready, -, step, hexec, -⟩ := b.exec_poll k env
    all_goals rw [hexec]
    · by_cases hkq : k = q
      · simp [← hkq, hready]
      · simp [hkq, Ne.symm hkq]
    · by_cases hkq : k = q
      · simp [← hkq, hready]
      · simp [hkq]
    · by_cases hkq : k = q
      · simp [← hkq, hready]
      · simp [hkq]

end Heap

variable {s t : Conf Heap} {q : YoQueueT} {l : List (YoReqT × YoCode)} {c : Call}

/-- **One call.**  It completes what it completes onto the stack, or takes off the top. -/
theorem readyList_step (h : Heap.system.Reachable s) (hst : Heap.system.step s c = some t)
    (hl : s.mem.readyList q = some l) :
    t.mem.readyList q = some (s.mem.readyAfter q c l) := by
  obtain ⟨b, -, hR, pos, hp⟩ := refines_of_reachable h
  have hc : c.allowed s.ledger = true := (calls_step hst).1
  obtain ⟨t', hst', -, hR', -⟩ := step_refines hR hp hc
  obtain rfl := Option.some.inj (hst.symm.trans hst')
  obtain rfl : b.ready q = l := Option.some.inj (hR.readyList.symm.trans hl)
  rw [hR'.readyList, Heap.ready_exec hR fun g ans hg => ?_]
  rw [hg] at hc
  exact hc

/-- A poll of the queue finds more than `n` completed requests. -/
def FindsMore (q : YoQueueT) (n : ℕ) (s : Conf Heap) (c : Call) : Prop :=
  ∀ env, c = .poll q env → ∀ l, s.mem.readyList q = some l → n < l.length

/-- What lies below stays, over a call. -/
theorem readyAfter_append {m : Heap} {new : List (YoReqT × YoCode)}
    (hpoll : ∀ env, c = .poll q env → new ≠ []) :
    ∃ new', m.readyAfter q c (new ++ l) = new' ++ l := by
  unfold Heap.readyAfter
  split
  · rename_i k env
    split
    · rename_i hkq
      obtain ⟨p, new, rfl⟩ := List.exists_cons_of_ne_nil (hpoll env (by rw [hkq]))
      exact ⟨new, rfl⟩
    · exact ⟨new, rfl⟩
  · exact ⟨_, (List.append_assoc ..).symm⟩

/-- And over a run. -/
theorem below_of_run {cs : List Call} {new : List (YoReqT × YoCode)}
    (h : Heap.system.Reachable s) (hl : s.mem.readyList q = some (new ++ l))
    (hall : Heap.system.Along (FindsMore q l.length) s cs) (hrun : Heap.system.run s cs = some t) :
    ∃ new', t.mem.readyList q = some (new' ++ l) := by
  induction cs generalizing s new with
  | nil =>
    obtain rfl := Option.some.inj hrun
    exact ⟨new, hl⟩
  | cons c cs ih =>
    obtain ⟨u, hu, hrest⟩ := Option.bind_eq_some_iff.mp (System.run_cons ▸ hrun)
    obtain ⟨new', hnew'⟩ : ∃ new', s.mem.readyAfter q c (new ++ l) = new' ++ l := by
      refine readyAfter_append fun env henv hnil => ?_
      have hlt := hall.1 env henv _ hl
      simp [hnil] at hlt
    exact ih (h.step trivial hu) (hnew' ▸ readyList_step h hu hl) (hall.2 u hu) hrest

/-! ## A request that is used over and over -/

/-- The request goes to the pool, completes there, and is delivered. -/
def useOnce (q : YoQueueT) (x : YoReqT) : List Call :=
  [.exec x, .finish x .ok, .poll q ⟨.error .etimeout, .ok, .ok⟩]

/-- It can be used again afterwards, and nothing else was delivered. -/
theorem exists_useOnce {x : YoReqT} (h : Heap.system.Reachable s)
    (hl : s.mem.readyList q = some l) (hlive : s.ledger.live x = true)
    (hidle : s.ledger.busy x = false) (hx : (s.mem.req x).queue = q) :
    ∃ t, Heap.system.run s (useOnce q x) = some t ∧ t.mem.readyList q = some l ∧
      t.ledger.live x = true ∧ t.ledger.busy x = false ∧ (t.mem.req x).queue = q ∧
        t.ledger.trace = s.ledger.trace ++ [.exec x, .ran x none .ok, .deliver q x .ok] := by
  obtain ⟨b, -, hR, pos, hp⟩ := refines_of_reachable h
  obtain rfl : b.ready q = l := Option.some.inj (hR.readyList.symm.trans hl)
  have hqueue : b.queueOf x = q := by rw [← hR.queueOf, hx]
  obtain ⟨t₁, hst₁, hl₁, hR₁, pos₁, hp₁⟩ := step_refines (c := .exec x) hR hp
    (by simp [Call.allowed, hlive, hidle])
  obtain ⟨t₂, hst₂, hl₂, hR₂, pos₂, hp₂⟩ := step_refines (c := .finish x .ok) hR₁ hp₁
    (by simp [Call.allowed, hl₁, Ledger.after])
  obtain ⟨t₃, hst₃, hl₃, hR₃, -⟩ := step_refines (c := .poll q ⟨.error .etimeout, .ok, .ok⟩) hR₂ hp₂
    (by simp [Call.allowed])
  have hready : (b.push x .ok).ready q = (x, .ok) :: b.ready q := by
    rw [Board.ready_push, if_pos hqueue.symm]
  have hexec : (b.push x .ok).exec (.poll q ⟨.error .etimeout, .ok, .ok⟩) =
      ({ b.push x .ok with ready := Function.update (b.push x .ok).ready q (b.ready q) },
        .polled (.returned x .ok none)) := by
    simp [Board.exec, Board.round, hready]
  replace hl₃ : t₃.ledger = t₂.ledger.after _ (.polled (.returned x .ok none)) :=
    hl₃.trans (congrArg (fun p => t₂.ledger.after _ p.2) hexec)
  replace hR₃ : Refines t₃.ledger.opened t₃.mem _ :=
    (congrArg (fun p => Refines t₃.ledger.opened t₃.mem p.1) hexec).mp hR₃
  refine ⟨t₃, ?_, ?_, ?_, ?_, ?_, ?_⟩
  · simp [useOnce, hst₁, hst₂, hst₃]
  · rw [hR₃.readyList]
    simp
  · simp [hl₃, hl₂, hl₁, Ledger.after, hlive]
  · simp [hl₃, Ledger.after]
  · rw [hR₃.queueOf]
    exact hqueue
  · simp [hl₃, hl₂, hl₁, Ledger.after, Ledger.ranEvent]

/-- **The ready list is a stack.**  In every run the completed requests of a queue stay undelivered,
in their order, for as long as no poll finds only them; so however many requests completed, and
however many polls follow, a request that is used over and over is all that the polls return. -/
theorem buried (h : Heap.system.Reachable s) (hl : s.mem.readyList q = some l) :
    (∀ cs t, Heap.system.Along (FindsMore q l.length) s cs → Heap.system.run s cs = some t →
      ∃ new, t.mem.readyList q = some (new ++ l)) ∧
    ∀ x, s.ledger.live x = true → s.ledger.busy x = false → (s.mem.req x).queue = q → ∀ n,
      ∃ t, Heap.system.run s (List.replicate n (useOnce q x)).flatten = some t ∧
        t.mem.readyList q = some l ∧ t.ledger.trace = s.ledger.trace ++
          (List.replicate n [Event.exec x, .ran x none .ok, .deliver q x .ok]).flatten := by
  constructor
  · intro cs t hall hrun
    have hbelow : s.mem.readyList q = some ([] ++ l) := hl
    exact below_of_run h hbelow hall hrun
  · intro x hlive hidle hx n
    induction n generalizing s with
    | zero => exact ⟨s, rfl, hl, by simp⟩
    | succ n ih =>
      obtain ⟨u, hu, hlu, hliveu, hidleu, hxu, htrace⟩ := exists_useOnce h hl hlive hidle hx
      have hreach : Heap.system.Reachable u :=
        System.reach_of_run h (System.along_of_forall (fun _ _ => trivial) _ _) hu
      obtain ⟨t, ht, hlt, htrace'⟩ := ih hreach hlu hliveu hidleu hxu
      refine ⟨t, ?_, hlt, ?_⟩
      · rw [List.replicate_succ, List.flatten_cons, System.run_append, hu]
        exact ht
      · rw [htrace', htrace, List.replicate_succ, List.flatten_cons, List.append_assoc]

/-- A request is cancelled by a close while another one is free. -/
def oneCancelled : List Call :=
  [.reqNew 0x30 0x10, .reqNew 0x40 0x10, .fdNew 0x20 4 true, .start 0x30 0x20 (.read 0 0) .ok .ok,
    .close 0x20 fun _ => .ok]

/-- It is not delivered by a hundred polls. -/
theorem buried_oneCancelled : ∃ t,
    Heap.system.run (Heap.afterCalls oneCancelled)
      (List.replicate 100 (useOnce 0x10 0x40)).flatten = some t ∧
        t.mem.readyList 0x10 = some [(0x30, .ecanceled)] := by
  obtain ⟨t, ht, hl, -⟩ := (buried (Heap.reachable_afterCalls oneCancelled)
    (q := 0x10) (l := [(0x30, .ecanceled)]) (by decide +kernel)).2 0x40 (by decide +kernel)
      (by decide +kernel) (by decide +kernel) 100
  exact ⟨t, ht, hl⟩

end Yaooi
