import Mathlib.Order.Defs.LinearOrder
import Yaooi.Backend.Served

/-!
# The event loop of the example

`example.lua` runs coroutines over one queue: `qcall` starts a request and remembers its callback,
`syncify` suspends the coroutine until the callback resumes it, and `run` takes turns between
sleepers, tasks and the queue.

A coroutine that runs may resume others, so the running ones form a stack.  `Loop.system` is the
program, with the coroutines free to do what they like.

* `Loop.accounted`: no coroutine is forgotten while a request of it is under way, and the loop ends
  only when none is left, but for those that `yos.file_open` suspended.
* `Loop.sleeps_forever`: a wait that runs out kills the loop, so sleepers that are left alone are
  never resumed.
-/

namespace Yaooi

open Transition

/-- A coroutine. -/
abbrev Co := ℕ

/-- Where the main program goes on once no coroutine runs. -/
inductive LoopPc where
  /-- Before `run`. -/
  | main
  /-- The head of the loop of `run`. -/
  | wake
  /-- The loop over the tasks. -/
  | drain
  /-- In `yo_queue_poll`. -/
  | poll (deadline : Option YoTime)
  /-- `run` returned `true`. -/
  | ended
  /-- `run` returned `nil` and an error. -/
  | failed
  /-- `run` raised the code. -/
  | raised (code : YoCode)
  deriving DecidableEq

/-- The variables of the example.  The callback under a key of `reqs` resumes the coroutine. -/
structure LoopState (τ : Type*) where
  served : Served
  tasks : List Co
  sleeps : List (τ × Co)
  reqs : List (YoReqT × Co)
  /-- The coroutines that run, the innermost first. -/
  stack : List Co
  /-- The coroutines that are suspended without anyone to resume them. -/
  lost : List Co
  /-- The coroutines that were created and did not end. -/
  alive : Co → Bool
  pc : LoopPc

/-- What the main program, a coroutine or a thread of the pool does next. -/
inductive LoopAct (τ : Type*) where
  /-- `run` is called. -/
  | run
  /-- A pass over the sleepers, at the time `curr`. -/
  | pass (curr : τ)
  /-- The next task is resumed, or there is none. -/
  | next
  /-- A round of `yo_queue_poll`, and the code of the operation it performs, if any. -/
  | round (look : Look) (res : YoCode)
  /-- A thread of the pool completes a request. -/
  | finish (r : YoReqT) (code : YoCode)
  /-- A handle is made or closed. -/
  | fdNew (h : YoFdT) (fd : Int) (owned : Bool)
  | close (h : YoFdT) (ans : YoReqT → YoCode)
  | fork (c : Co)
  /-- A call over `qcall` that starts on a handle, `yo_req_new` answering `r`. -/
  | start (r : YoReqT) (h : YoFdT) (op : YoaOp) (ans res : YoCode)
  /-- A call over `qcall` that goes to the pool. -/
  | exec (r : YoReqT) (accepted : Bool)
  | sleepUntil (time : τ)
  | interrupt
  /-- `yos.file_open`, without an error. -/
  | fileOpen (h : YoFdT) (fd : Int)
  /-- The innermost coroutine returns. -/
  | finished
  /-- The innermost coroutine raises an error. -/
  | error

namespace Loop

variable {τ : Type*}

section

variable [LinearOrder τ]

/-! ## `run` -/

/-- The first loop of `run`, over the sleepers from the last to the first: the tasks, and the
sleepers that stay. -/
def wake (curr : τ) (tasks : List Co) (sleeps : List (τ × Co)) : List Co × List (τ × Co) :=
  sleeps.foldr (fun i p => if i.1 ≤ curr then (p.1 ++ [i.2], p.2) else (p.1, i :: p.2)) (tasks, [])

/-- The loop that computes the timeout. -/
def timeout (sleeps : List (τ × Co)) : Option τ :=
  sleeps.foldr (fun i timeout =>
    match timeout with
    | none => some i.1
    | some t => if t > i.1 then some i.1 else some t) none

/-- `reqs[r] = cb` -/
def assign (reqs : List (YoReqT × Co)) (r : YoReqT) (c : Co) : List (YoReqT × Co) :=
  (r, c) :: reqs.eraseP (·.1 = r)

/-- `ETIMEDOUT`, as `run` has it. -/
def etimedout : YoCode := -110

variable (q : YoQueueT) (timerFd : BitVec 32) (toTime : τ → YoTime)

/-- Once the tasks have run: the end of the loop, or the call of `yo_queue_poll`. -/
def afterDrain (s : LoopState τ) : LoopState τ :=
  match timeout s.sleeps with
  | none => if s.reqs = [] then { s with pc := .ended } else { s with pc := .poll none }
  | some t => { s with pc := .poll (some (toTime t)) }

/-- What `run` does with a request that `yo_queue_poll` returned. -/
def callback (s : LoopState τ) (r : YoReqT) : Option (LoopState τ) :=
  (s.served.exec q timerFd (.call (.reqFree r))).map fun p =>
    let s' := { s with served := p.1, reqs := s.reqs.eraseP (·.1 = r), pc := .wake }
    match s.reqs.find? (·.1 = r) with
    | some i => { s' with stack := [i.2] }
    -- `pinvoke(nil)` succeeds
    | none => s'

/-- How `run` goes on after a round. -/
def afterRound (s : LoopState τ) : Outcome → Option (LoopState τ)
  | .polled .again => some s
  | .polled (.failed code) =>
    if code = etimedout then some { s with pc := .wake } else some { s with pc := .raised code }
  | .polled (.returned r _ _) => callback q timerFd s r
  | .done | .started .. => none

/-! ## The coroutines -/

/-- The code of a `yoa_*` function. -/
def codeOf : Outcome → YoCode
  | .started _ code _ => code
  | .done | .polled _ => .ok

/-- A `yos` function over `qcall`, whose `yoa_*` function makes the call `fn` with the request `r`,
or fails without one.  The coroutine is suspended where it succeeds. -/
def qcall (s : LoopState τ) (r : YoReqT) (fn : Option Call) : Option (LoopState τ) :=
  match s.stack with
  | [] => none
  | c :: stack =>
    (s.served.exec q timerFd (.call (.reqNew r q))).bind fun p =>
      match fn with
      | none => some { s with served := p.1 }
      | some fn =>
        (p.1.exec q timerFd (.call fn)).map fun p =>
          if codeOf p.2 = .ok then
            { s with served := p.1, reqs := assign s.reqs r c, stack := stack }
          else { s with served := p.1 }

/-- A call on the queue that suspends nobody. -/
def plain (s : LoopState τ) (fn : Call) : Option (LoopState τ) :=
  (s.served.exec q timerFd (.call fn)).map fun p => { s with served := p.1 }

/-- The innermost coroutine ends. -/
def leave (s : LoopState τ) (c : Co) (stack : List Co) : LoopState τ :=
  { s with stack := stack, alive := Function.update s.alive c false }

/-- A step of the main program, which waits while a coroutine runs. -/
def mainStep (s : LoopState τ) : LoopAct τ → Option (LoopState τ)
  | .run => if s.pc = .main then some { s with pc := .wake } else none
  | .pass curr =>
    if s.pc = .wake then
      some { s with
        tasks := (wake curr s.tasks s.sleeps).1
        sleeps := (wake curr s.tasks s.sleeps).2
        pc := .drain }
    else none
  | .next =>
    if s.pc = .drain then
      match s.tasks with
      | c :: tasks => some { s with tasks := tasks, stack := [c] }
      | [] => some (afterDrain toTime s)
    else none
  | .round look res =>
    match s.pc with
    | .poll deadline =>
      (s.served.exec q timerFd (.poll deadline look res)).bind fun p =>
        afterRound q timerFd { s with served := p.1 } p.2
    | _ => none
  | .fork c =>
    if s.pc = .main ∧ s.alive c = false then
      some { s with stack := [c], alive := Function.update s.alive c true }
    else none
  | _ => none

/-- A step of the coroutine `c`, the innermost one. -/
def coStep (s : LoopState τ) (c : Co) (stack : List Co) : LoopAct τ → Option (LoopState τ)
  | .fork d =>
    if s.alive d = false then
      some { s with stack := d :: c :: stack, alive := Function.update s.alive d true }
    else none
  | .start r h op ans res => qcall q timerFd s r (some (.start r h op ans res))
  | .exec r accepted => qcall q timerFd s r (if accepted then some (.exec r) else none)
  | .sleepUntil time => some { s with sleeps := s.sleeps ++ [(time, c)], stack := stack }
  | .interrupt => some { s with tasks := s.tasks ++ [c], stack := stack }
  | .fileOpen h fd =>
    (plain q timerFd s (.fdNew h fd true)).map fun s =>
      { s with lost := c :: s.lost, stack := stack }
  | .finished => some (leave s c stack)
  | .error =>
    -- without another coroutine to raise it in, the error is the main program's
    if stack = [] then some { leave s c [] with pc := .failed } else some (leave s c stack)
  | _ => none

/-- The pool and the calls on handles, which go on at any time. -/
def anytime : LoopAct τ → Option Call
  | .finish r code => some (.finish r code)
  | .fdNew h fd owned => some (.fdNew h fd owned)
  | .close h ans => some (.close h ans)
  | _ => none

/-- The program. -/
def system : System (LoopState τ) (LoopAct τ) where
  init s := Heap.system.init s.served.conf ∧ s.served.timer = none ∧ s.tasks = [] ∧
    s.sleeps = [] ∧ s.reqs = [] ∧ s.stack = [] ∧ s.lost = [] ∧ (∀ c, s.alive c = false) ∧
      s.pc = .main
  step s a :=
    match anytime a with
    | some fn => plain q timerFd s fn
    | none =>
      match s.stack with
      | [] => mainStep q timerFd toTime s a
      | c :: stack => coStep q timerFd s c stack a

/-- The kernel refuses to register regular files only, and the handle of an event is open. -/
def Rules (s : LoopState τ) : LoopAct τ → Prop
  | .start _ _ _ ans _ => ans = .ok ∨ ans = .eperm
  | .round look _ => ∀ deadline evn, s.pc = .poll deadline →
      s.served.told q timerFd deadline look = some evn →
        (Call.poll q ⟨evn, .ok, .ok⟩).allowed s.served.conf.ledger = true
  | _ => True

/-! ## What the loops of `run` do -/

/-- Taking the entry of a request out of the table. -/
theorem perm_eraseP {reqs : List (YoReqT × Co)} {r : YoReqT} {i : YoReqT × Co}
    (h : reqs.find? (·.1 = r) = some i) : reqs.Perm (i :: reqs.eraseP (·.1 = r)) := by
  induction reqs with
  | nil => cases h
  | cons k reqs ih =>
    by_cases hk : k.1 = r
    · rw [List.find?_cons_of_pos (by simpa using hk)] at h
      rw [List.eraseP_cons_of_pos (by simpa using hk), Option.some.inj h]
    · rw [List.find?_cons_of_neg (by simpa using hk)] at h
      rw [List.eraseP_cons_of_neg (by simpa using hk)]
      exact ((ih h).cons k).trans (.swap i k _)

/-- Waking sleepers moves them to the tasks. -/
theorem count_wake (curr : τ) (tasks : List Co) (sleeps : List (τ × Co)) (c : Co) :
    (wake curr tasks sleeps).1.count c + ((wake curr tasks sleeps).2.map Prod.snd).count c =
      tasks.count c + (sleeps.map Prod.snd).count c := by
  induction sleeps with
  | nil => rfl
  | cons i sleeps ih =>
    unfold wake at ih ⊢
    rw [List.foldr_cons]
    split
    · simp only [List.count_append, List.map_cons, List.count_cons, List.count_nil] at ih ⊢
      omega
    · simp only [List.map_cons, List.count_cons] at ih ⊢
      omega

/-- There is a timeout if and only if something sleeps. -/
theorem timeout_eq_none {sleeps : List (τ × Co)} : timeout sleeps = none ↔ sleeps = [] := by
  cases sleeps with
  | nil => simp [timeout]
  | cons i sleeps =>
    simp only [timeout, List.foldr_cons]
    split
    · simp
    · split <;> simp

end

/-! ## Everything is accounted for -/

/-- Where the coroutines are. -/
def places (s : LoopState τ) : List Co :=
  s.stack ++ s.tasks ++ s.sleeps.map Prod.snd ++ s.reqs.map Prod.snd ++ s.lost

/-- The book on the coroutines and the requests is right. -/
structure Kept (s : LoopState τ) : Prop where
  conf : Heap.system.Reachable s.served.conf
  places : ∀ c, (places s).count c = (s.alive c).toNat
  nodup : (s.reqs.map Prod.fst).Nodup
  keys : ∀ r, r ∈ s.reqs.map Prod.fst ↔ s.served.conf.ledger.busy r = true
  polls : ∀ deadline, s.pc = .poll deadline → s.stack = [] ∧ s.tasks = []
  ended : s.pc = .ended → s.stack = [] ∧ s.tasks = [] ∧ s.sleeps = [] ∧ s.reqs = []
  raised : ∀ code, s.pc = .raised code → s.stack = [] ∧ code = .etimeout

variable {q : YoQueueT} {timerFd : BitVec 32} {s t : LoopState τ} {sv : Served} {out : Outcome}

/-- A call on the queue is one of the callers, who follow the rules. -/
theorem call_step {x : Served} {fn : Call} (h : Heap.system.Reachable x.conf)
    (hexec : x.exec q timerFd (.call fn) = some (sv, out)) :
    Heap.system.Reachable sv.conf ∧ fn.allowed x.conf.ledger = true ∧
      sv.conf.ledger = x.conf.ledger.after fn out ∧
        (x.conf.mem.exec fn).map Prod.snd = some out := by
  simp only [Served.exec] at hexec
  split at hexec
  · rename_i hc
    refine ⟨h.step trivial (Served.did_eq_some hexec hc.2).1, hc.2, ?_⟩
    obtain ⟨p, hp, heq⟩ := Option.map_eq_some_iff.mp hexec
    obtain ⟨rfl, rfl⟩ := Prod.mk.inj heq
    exact ⟨rfl, by rw [hp]; rfl⟩
  · cases hexec

/-- Where it succeeds the call puts the request under way, which it was not before. -/
def Begins (q : YoQueueT) (timerFd : BitVec 32) (r : YoReqT) (fn : Call) : Prop :=
  ∀ ⦃x sv : Served⦄ ⦃out : Outcome⦄, Heap.system.Reachable x.conf →
    x.exec q timerFd (.call fn) = some (sv, out) → x.conf.ledger.busy r = false ∧
      sv.conf.ledger.busy = if codeOf out = .ok then Function.update x.conf.ledger.busy r true
        else x.conf.ledger.busy

/-- Where the kernel refuses regular files only, a start does. -/
theorem begins_start {r : YoReqT} {h : YoFdT} {op : YoaOp} {ans res : YoCode}
    (hans : ans = .ok ∨ ans = .eperm) : Begins q timerFd r (.start r h op ans res) := by
  intro x sv out hx hexec
  obtain ⟨-, hc, hl, hout⟩ := call_step hx hexec
  obtain ⟨b, -, hR, pos, hp⟩ := refines_of_reachable hx
  obtain ⟨m, hm, -⟩ := Heap.exec_refines hR hp hc
  simp only [Call.allowed, Bool.and_eq_true, Bool.not_eq_true'] at hc
  refine ⟨hc.1.2, ?_⟩
  rw [hm, Option.map_some, Option.some.injEq] at hout
  rw [hl, ← hout]
  obtain ⟨-, hb⟩ | ⟨-, -, hb⟩ | ⟨-, hne, hb⟩ := b.exec_start r h op ans res
  all_goals rw [hb]
  · rfl
  · rfl
  · obtain rfl : ans = .ok := hans.resolve_right hne
    rfl

/-- So does a call that goes to the pool. -/
theorem begins_exec {r : YoReqT} : Begins q timerFd r (.exec r) := by
  intro x sv out hx hexec
  obtain ⟨-, hc, hl, hout⟩ := call_step hx hexec
  obtain rfl : Outcome.done = out := Option.some.inj hout
  simp only [Call.allowed, Bool.and_eq_true, Bool.not_eq_true'] at hc
  exact ⟨hc.2, by rw [hl]; rfl⟩

/-- A coroutine that ends is counted no more. -/
theorem count_leave {c : Co} {stack : List Co} {pc : LoopPc}
    (h : ∀ d, (c :: stack).count d + s.tasks.count d + (s.sleeps.map Prod.snd).count d +
      (s.reqs.map Prod.snd).count d + s.lost.count d = (s.alive d).toNat) (d : Co) :
    (places { leave s c stack with pc := pc }).count d =
      ((leave s c stack).alive d).toNat := by
  have hd := h d
  simp only [places, leave, List.count_append, List.count_cons, Function.update_apply] at hd ⊢
  have hle : (s.alive d).toNat ≤ 1 := Bool.toNat_le _
  by_cases hdc : d = c
  · simp only [hdc, BEq.rfl, if_true, Bool.toNat_false] at hd hle ⊢
    omega
  · have hcd : (c == d) = false := by simpa using Ne.symm hdc
    simp only [hdc, hcd, if_false, Bool.false_eq_true] at hd ⊢
    omega

/-- They start and deliver nothing. -/
theorem busy_anytime {a : LoopAct τ} {fn : Call} (h : anytime a = some fn) (l : Ledger)
    (out : Outcome) : (l.after fn out).busy = l.busy := by
  cases a with
  | finish r code => obtain rfl := Option.some.inj h; rfl
  | fdNew g fd owned => obtain rfl := Option.some.inj h; rfl
  | close g ans => obtain rfl := Option.some.inj h; rfl
  | _ => cases h

/-- A round is one of a call of `yo_queue_poll`. -/
theorem exists_of_round [LinearOrder τ] {toTime : τ → YoTime} {look : Look} {res : YoCode}
    (hst : mainStep q timerFd toTime s (.round look res) = some t) :
    ∃ deadline sv out, s.pc = .poll deadline ∧
      s.served.exec q timerFd (.poll deadline look res) = some (sv, out) ∧
        afterRound q timerFd { s with served := sv } out = some t := by
  simp only [mainStep] at hst
  split at hst
  · rename_i deadline hpc
    obtain ⟨⟨sv, out⟩, hexec, hst⟩ := Option.bind_eq_some_iff.mp hst
    exact ⟨deadline, sv, out, hpc, hexec, hst⟩
  · cases hst

namespace Kept

variable {c : Co} {stack : List Co} {r : YoReqT} {fn : Call}

/-- The queue has moved on, for the same requests. -/
theorem serve (h : Kept s) (hconf : Heap.system.Reachable sv.conf)
    (hbusy : sv.conf.ledger.busy = s.served.conf.ledger.busy) : Kept { s with served := sv } where
  __ := h
  conf := hconf
  keys r := by
    rw [hbusy]
    exact h.keys r

/-- A coroutine has run. -/
theorem running (h : Kept s) (hstack : s.stack = c :: stack)
    (hconf : Heap.system.Reachable t.served.conf) (hnodup : (t.reqs.map Prod.fst).Nodup)
    (hkeys : ∀ r, r ∈ t.reqs.map Prod.fst ↔ t.served.conf.ledger.busy r = true)
    (hpc : t.pc = s.pc ∨ t.pc = .failed)
    (hplaces : ∀ c, (Loop.places t).count c = (t.alive c).toNat) : Kept t where
  conf := hconf
  places := hplaces
  nodup := hnodup
  keys := hkeys
  polls d hd := by
    rcases hpc with hpc | hpc
    · simp [(h.polls d (hpc ▸ hd)).1] at hstack
    · simp [hpc] at hd
  ended hd := by
    rcases hpc with hpc | hpc
    · simp [(h.ended (hpc ▸ hd)).1] at hstack
    · simp [hpc] at hd
  raised code hd := by
    rcases hpc with hpc | hpc
    · simp [(h.raised code (hpc ▸ hd)).1] at hstack
    · simp [hpc] at hd

/-- A call that starts and delivers nothing. -/
theorem plain (h : Kept s)
    (hfn : ∀ out, (s.served.conf.ledger.after fn out).busy = s.served.conf.ledger.busy)
    (hst : Loop.plain q timerFd s fn = some t) : Kept t ∧ ∃ x, t = { s with served := x } := by
  obtain ⟨⟨x, out⟩, hx, rfl⟩ := Option.map_eq_some_iff.mp hst
  obtain ⟨hconf, -, hl, -⟩ := call_step h.conf hx
  exact ⟨h.serve hconf (by rw [hl, hfn]), x, rfl⟩

/-- A call over `qcall`. -/
theorem qcall {fn : Option Call} (h : Kept s)
    (hfn : ∀ call ∈ fn, Begins q timerFd r call)
    (hst : Loop.qcall q timerFd s r fn = some t) : Kept t := by
  unfold Loop.qcall at hst
  split at hst
  · cases hst
  rename_i c stack hstack
  obtain ⟨⟨x, out⟩, hx, hst⟩ := Option.bind_eq_some_iff.mp hst
  obtain ⟨hconf, -, hl, -⟩ := call_step h.conf hx
  have hx' : Kept { s with served := x } := h.serve hconf (by rw [hl]; rfl)
  cases fn with
  | none =>
    obtain rfl := Option.some.inj hst
    exact hx'
  | some call =>
    obtain ⟨⟨sv, out'⟩, hsv, rfl⟩ := Option.map_eq_some_iff.mp hst
    obtain ⟨hidle, hbusy⟩ := hfn call rfl hconf hsv
    obtain ⟨hconf', -⟩ := call_step hconf hsv
    split
    · rename_i hcode
      rw [if_pos hcode] at hbusy
      have hnew : r ∉ s.reqs.map Prod.fst := fun hr => by
        have hr' := (hx'.keys r).mp hr
        simp [hidle] at hr'
      have hsame : s.reqs.eraseP (·.1 = r) = s.reqs := by
        refine List.eraseP_of_forall_not fun i hi => ?_
        have hne : i.1 ≠ r := fun e => hnew (List.mem_map.mpr ⟨i, hi, e⟩)
        simpa using hne
      refine h.running hstack hconf' ?_ (fun k => ?_) (.inl rfl) fun d => ?_
      · simpa [assign, hsame] using ⟨by simpa using hnew, h.nodup⟩
      · have hk := hx'.keys k
        by_cases hkr : k = r
        · simp [assign, hbusy, hkr]
        · simpa [assign, hsame, hbusy, hkr] using hk
      · have hd := h.places d
        simp only [Loop.places, hstack, assign, hsame, List.count_append, List.map_cons,
          List.count_cons] at hd ⊢
        omega
    · rename_i hcode
      rw [if_neg hcode] at hbusy
      exact h.serve hconf' (by rw [hbusy, hl]; rfl)

/-- What the innermost coroutine does. -/
theorem coStep {a : LoopAct τ} (h : Kept s) (hstack : s.stack = c :: stack)
    (hok : Rules q timerFd s a) (hst : Loop.coStep q timerFd s c stack a = some t) : Kept t := by
  have hcount := h.places
  simp only [Loop.places, hstack, List.count_append] at hcount
  cases a with
  | fork d =>
    simp only [Loop.coStep] at hst
    split at hst
    · rename_i hd
      obtain rfl := Option.some.inj hst
      refine h.running hstack h.conf h.nodup h.keys (.inl rfl) fun e => ?_
      have he := hcount e
      simp only [Loop.places, List.count_append, List.count_cons, Function.update_apply] at he ⊢
      by_cases hed : e = d
      · simp only [hed, hd, BEq.rfl, if_true, Bool.toNat_true, Bool.toNat_false] at he ⊢
        omega
      · have hde : (d == e) = false := by simpa using Ne.symm hed
        simp only [hed, hde, if_false, Bool.false_eq_true] at he ⊢
        omega
    · cases hst
  | start r g op ans res =>
    have hq : Loop.qcall q timerFd s r (some (.start r g op ans res)) = some t := hst
    refine h.qcall (fun call hcall => ?_) hq
    obtain rfl := Option.some.inj hcall
    exact begins_start hok
  | exec r accepted =>
    have hq : Loop.qcall q timerFd s r (if accepted then some (.exec r) else none) = some t := hst
    refine h.qcall (fun call hcall => ?_) hq
    cases accepted with
    | false => cases hcall
    | true =>
      obtain rfl := Option.some.inj hcall
      exact begins_exec
  | sleepUntil time =>
    obtain rfl := Option.some.inj hst
    refine h.running hstack h.conf h.nodup h.keys (.inl rfl) fun e => ?_
    have he := hcount e
    simp only [Loop.places, List.count_append, List.map_append, List.map_cons, List.map_nil,
      List.count_cons, List.count_nil] at he ⊢
    omega
  | interrupt =>
    obtain rfl := Option.some.inj hst
    refine h.running hstack h.conf h.nodup h.keys (.inl rfl) fun e => ?_
    have he := hcount e
    simp only [Loop.places, List.count_append, List.count_cons, List.count_nil] at he ⊢
    omega
  | fileOpen g fd =>
    obtain ⟨u, hu, rfl⟩ := Option.map_eq_some_iff.mp hst
    obtain ⟨hk, x, rfl⟩ := h.plain (fun _ => rfl) hu
    refine hk.running hstack hk.conf hk.nodup hk.keys (.inl rfl) fun e => ?_
    have he := hcount e
    simp only [Loop.places, List.count_append, List.count_cons] at he ⊢
    omega
  | finished =>
    obtain rfl := Option.some.inj hst
    exact h.running hstack h.conf h.nodup h.keys (.inl rfl) (count_leave hcount)
  | error =>
    simp only [Loop.coStep] at hst
    split at hst
    · rename_i hnil
      obtain rfl := Option.some.inj hst
      exact h.running hstack h.conf h.nodup h.keys (.inr rfl) (count_leave (hnil ▸ hcount))
    · obtain rfl := Option.some.inj hst
      exact h.running hstack h.conf h.nodup h.keys (.inl rfl) (count_leave hcount)
  | _ => cases hst

/-- What the callback of a delivered request does: it resumes the coroutine that waits for it. -/
theorem callback (h : Kept s) (hstack : s.stack = []) (hbusy : s.served.conf.ledger.busy r = true)
    (hconf : Heap.system.Reachable sv.conf)
    (hafter : sv.conf.ledger.busy = Function.update s.served.conf.ledger.busy r false)
    (hst : Loop.callback q timerFd { s with served := sv } r = some t) :
    Kept t ∧ ∃ c, (r, c) ∈ s.reqs ∧ t.stack = [c] := by
  obtain ⟨⟨x, out⟩, hx, rfl⟩ := Option.map_eq_some_iff.mp hst
  obtain ⟨hconf', -, hl, -⟩ := call_step hconf hx
  obtain ⟨i, hi, rfl⟩ := List.mem_map.mp ((h.keys r).mpr hbusy)
  cases hfind : s.reqs.find? (·.1 = i.1) with
  | none => simpa using List.find?_eq_none.mp hfind i hi
  | some j =>
    have hj : j.1 = i.1 := by simpa using List.find?_some hfind
    have hperm := perm_eraseP hfind
    have hnodup := (hperm.map Prod.fst).nodup_iff.mp h.nodup
    rw [List.map_cons, List.nodup_cons] at hnodup
    refine ⟨?_, j.2, ?_, rfl⟩
    · constructor
      case conf => exact hconf'
      case places =>
        intro d
        have hd := h.places d
        simp only [Loop.places, hstack, List.count_append, (hperm.map Prod.snd).count_eq,
          List.map_cons, List.count_cons, List.count_nil] at hd ⊢
        omega
      case nodup => exact hnodup.2
      case keys =>
        intro k
        have hk := h.keys k
        rw [(hperm.map Prod.fst).mem_iff, List.map_cons, List.mem_cons, hj] at hk
        simp only [hl, Ledger.after, hafter]
        by_cases hki : k = i.1
        · simpa [hki, ← hj] using hnodup.1
        · simpa [hki] using hk
      case polls => simp
      case ended => simp
      case raised => simp
    · rw [← hj]
      exact List.mem_of_find?_eq_some hfind

/-- A round of the queue. -/
theorem round {look : Look} {res : YoCode} {deadline : Option YoTime} (h : Kept s)
    (hpc : s.pc = .poll deadline) (hok : Rules q timerFd s (.round look res))
    (hexec : s.served.exec q timerFd (.poll deadline look res) = some (sv, out))
    (hst : afterRound q timerFd { s with served := sv } out = some t) :
    Kept t ∧ ((out = .polled .again ∧ t = { s with served := sv }) ∨
      (out = .polled (.failed .etimeout) ∧ deadline ≠ none ∧
        t = { s with served := sv, pc := .raised .etimeout }) ∨
      ∃ r code ran c, out = .polled (.returned r code ran) ∧ (r, c) ∈ s.reqs ∧
        t.stack = [c]) := by
  obtain ⟨hconf, ⟨rfl, hbusy⟩ | ⟨rfl, hne, hbusy⟩ | ⟨r, code, ran, rfl, hr, hbusy⟩⟩ :=
    Served.round_cases h.conf (hok deadline · hpc) hexec
  · obtain rfl := Option.some.inj hst
    exact ⟨h.serve hconf hbusy, .inl ⟨rfl, rfl⟩⟩
  · have hcode : YoCode.etimeout ≠ etimedout := by decide
    rw [afterRound, if_neg hcode] at hst
    obtain rfl := Option.some.inj hst
    have hk := h.serve hconf hbusy
    refine ⟨?_, .inr (.inl ⟨rfl, hne, rfl⟩)⟩
    exact ⟨hk.conf, hk.places, hk.nodup, hk.keys, by simp, by simp,
      fun code hcode => ⟨(h.polls deadline hpc).1, (LoopPc.raised.inj hcode).symm⟩⟩
  · obtain ⟨hk, c, hc, hstack⟩ := h.callback (h.polls deadline hpc).1 hr hconf hbusy hst
    exact ⟨hk, .inr (.inr ⟨r, code, ran, c, rfl, hc, hstack⟩)⟩

end Kept

section

variable [LinearOrder τ] {toTime : τ → YoTime}

/-- A step of the main program. -/
theorem Kept.mainStep {a : LoopAct τ} (h : Kept s) (hstack : s.stack = [])
    (hok : Rules q timerFd s a) (hst : Loop.mainStep q timerFd toTime s a = some t) : Kept t := by
  have hcount := h.places
  simp only [Loop.places, hstack, List.count_append, List.count_nil, Nat.zero_add] at hcount
  cases a with
  | run =>
    simp only [Loop.mainStep] at hst
    split at hst
    · obtain rfl := Option.some.inj hst
      exact ⟨h.conf, h.places, h.nodup, h.keys, by simp, by simp, by simp⟩
    · cases hst
  | pass curr =>
    simp only [Loop.mainStep] at hst
    split at hst
    · obtain rfl := Option.some.inj hst
      refine ⟨h.conf, fun c => ?_, h.nodup, h.keys, by simp, by simp, by simp⟩
      have hc := hcount c
      have hwake := count_wake curr s.tasks s.sleeps c
      simp only [Loop.places, hstack, List.count_append, List.count_nil]
      omega
    · cases hst
  | next =>
    simp only [Loop.mainStep] at hst
    split at hst
    · rename_i hpc
      split at hst
      · rename_i c tasks htasks
        obtain rfl := Option.some.inj hst
        refine ⟨h.conf, fun d => ?_, h.nodup, h.keys, ?_, ?_, ?_⟩
        · have hd := hcount d
          simp only [Loop.places, htasks, List.count_append, List.count_cons, List.count_nil]
            at hd ⊢
          omega
        all_goals simp [hpc]
      · rename_i htasks
        obtain rfl := Option.some.inj hst
        unfold afterDrain
        split
        · rename_i hnone
          split
          · rename_i hreqs
            have hsleeps := timeout_eq_none.mp hnone
            exact ⟨h.conf, h.places, h.nodup, h.keys, by simp,
              fun _ => ⟨hstack, htasks, hsleeps, hreqs⟩, by simp⟩
          · exact ⟨h.conf, h.places, h.nodup, h.keys, fun _ _ => ⟨hstack, htasks⟩, by simp, by simp⟩
        · exact ⟨h.conf, h.places, h.nodup, h.keys, fun _ _ => ⟨hstack, htasks⟩, by simp, by simp⟩
    · cases hst
  | round look res =>
    obtain ⟨deadline, sv, out, hpc, hexec, hround⟩ := exists_of_round hst
    exact (h.round hpc hok hexec hround).1
  | fork c =>
    simp only [Loop.mainStep] at hst
    split at hst
    · rename_i hc
      obtain rfl := Option.some.inj hst
      refine ⟨h.conf, fun d => ?_, h.nodup, h.keys, ?_, ?_, ?_⟩
      · have hd := hcount d
        simp only [Loop.places, List.count_append, List.count_cons, List.count_nil,
          Function.update_apply] at hd ⊢
        by_cases hdc : d = c
        · simp only [hdc, hc.2, BEq.rfl, if_true, Bool.toNat_true, Bool.toNat_false] at hd ⊢
          omega
        · have hcd : (c == d) = false := by simpa using Ne.symm hdc
          simp only [hdc, hcd, if_false, Bool.false_eq_true] at hd ⊢
          omega
      all_goals simp [hc.1]
    · cases hst
  | _ => cases hst

/-- **Every step keeps the book right.** -/
theorem Kept.step {a : LoopAct τ} (h : Kept s) (hok : Rules q timerFd s a)
    (hst : (Loop.system q timerFd toTime).step s a = some t) : Kept t := by
  simp only [Loop.system] at hst
  split at hst
  · rename_i fn hfn
    exact (h.plain (busy_anytime hfn _) hst).1
  · split at hst
    · rename_i hstack
      exact h.mainStep hstack hok hst
    · rename_i c stack hstack
      exact h.coStep hstack hok hst

/-- Every run keeps the book right. -/
theorem kept_of_reach (h : (system q timerFd toTime).Reach (Rules q timerFd) s) : Kept s := by
  refine h.invariant ?_ fun s a t _ hs hok hst => hs.step hok hst
  rintro s ⟨hinit, -, htasks, hsleeps, hreqs, hstack, hlost, halive, hpc⟩
  refine ⟨.init hinit, fun c => ?_, ?_, fun r => ?_, ?_, ?_, ?_⟩
  · simp [places, htasks, hsleeps, hreqs, hstack, hlost, halive]
  · simp [hreqs]
  · simp [hreqs, hinit.2, Ledger.empty]
  all_goals simp [hpc]

/-- The example at its start, with seconds for times. -/
def begun : LoopState ℕ := ⟨⟨Heap.start, none⟩, [], [], [], [], [], fun _ => false, .main⟩

def seconds (n : ℕ) : YoTime := ⟨n, 0⟩

/-- Where some steps lead. -/
def afterActs (as : List (LoopAct ℕ)) : LoopState ℕ :=
  ((system 0x10 5 seconds).run begun as).getD begun

theorem reach_afterActs {as : List (LoopAct ℕ)} (hok : ∀ a ∈ as, ∀ s, Rules 0x10 5 s a)
    (h : ((system 0x10 5 seconds).run begun as).isSome = true) :
    (system 0x10 5 seconds).Reach (Rules 0x10 5) (afterActs as) := by
  have hrun : (system 0x10 5 seconds).run begun as = some (afterActs as) := by
    obtain ⟨t, ht⟩ := Option.isSome_iff_exists.mp h
    rw [afterActs, ht]
    rfl
  have hinit : (system 0x10 5 seconds).init begun :=
    ⟨Heap.init_start, rfl, rfl, rfl, rfl, rfl, rfl, fun _ => rfl, rfl⟩
  exact System.reach_of_run (.init hinit) (System.along_of_mem hok _) hrun

/-- **Everything is accounted for.**  In every run that follows the rules a coroutine that was
created and did not end is in exactly one place, and the callbacks are those of the requests under
way, so that a request which is delivered always resumes the coroutine that waits for it.  When
`run` returns `true` no request is under way, and nobody waits but whom `yos.file_open` suspended.
A start that is refused for want of memory is against the rules: it leaves a request under way
without a callback. -/
theorem accounted (h : (system q timerFd toTime).Reach (Rules q timerFd) s) :
    (∀ c, (places s).count c = (s.alive c).toNat) ∧
    (s.reqs.map Prod.fst).Nodup ∧
    (∀ r, r ∈ s.reqs.map Prod.fst ↔ s.served.conf.ledger.busy r = true) ∧
    (∀ look res t, Rules q timerFd s (.round look res) →
      (system q timerFd toTime).step s (.round look res) = some t →
        (t.stack = [] ∧ t.reqs = s.reqs) ∨ ∃ deadline sv r code ran c,
          s.served.exec q timerFd (.poll deadline look res) =
            some (sv, .polled (.returned r code ran)) ∧ (r, c) ∈ s.reqs ∧ t.stack = [c]) ∧
    (s.pc = .ended →
      (∀ r, s.served.conf.ledger.busy r = false) ∧ ∀ c, s.alive c = true → c ∈ s.lost) := by
  have hk := kept_of_reach h
  refine ⟨hk.places, hk.nodup, hk.keys, ?_, ?_⟩
  · intro look res t hok hst
    simp only [system, anytime] at hst
    split at hst
    · rename_i hstack
      obtain ⟨deadline, sv, out, hpc, hexec, hround⟩ := exists_of_round hst
      obtain ⟨-, ⟨-, rfl⟩ | ⟨-, -, rfl⟩ | ⟨r, code, ran, c, rfl, hc, hstack⟩⟩ :=
        hk.round hpc hok hexec hround
      · exact .inl ⟨hstack, rfl⟩
      · exact .inl ⟨hstack, rfl⟩
      · exact .inr ⟨deadline, sv, r, code, ran, c, hexec, hc, hstack⟩
    · cases hst
  · intro hpc
    obtain ⟨hstack, htasks, hsleeps, hreqs⟩ := hk.ended hpc
    constructor
    · intro r
      have hr := hk.keys r
      simpa [hreqs] using hr
    · intro c hc
      have hcount := hk.places c
      simp only [places, hstack, htasks, hsleeps, hreqs, hc, List.map_nil, List.nil_append,
        Bool.toNat_true] at hcount
      exact List.count_pos_iff.mp (by omega)

/-- A coroutine reads from descriptor 4, and the loop polls for it. -/
def reads : List (LoopAct ℕ) :=
  [.fork 1, .fdNew 0x20 4 true, .start 0x30 0x20 (.read 0 0) .ok .ok, .run, .pass 7, .next]

/-- Its callback is there; when the descriptor can be read it is resumed. -/
theorem accounted_reads : (afterActs reads).pc = .poll none ∧
    (afterActs reads).served.conf.ledger.busy 0x30 = true ∧
      ∃ t, (system 0x10 5 seconds).step (afterActs reads)
        (.round ⟨⟨7, 0⟩, ⟨7, 0⟩, readable, some 4, false⟩ .ok) = some t ∧ t.stack = [1] := by
  have hreach : (system 0x10 5 seconds).Reach (Rules 0x10 5) (afterActs reads) :=
    reach_afterActs (by simp [reads, Rules]) (by decide)
  obtain ⟨-, -, hkeys, hround, -⟩ := accounted hreach
  have hreqs : (afterActs reads).reqs = [(0x30, 1)] := rfl
  obtain ⟨t, ht, hne⟩ : ∃ t, (system 0x10 5 seconds).step (afterActs reads)
      (.round ⟨⟨7, 0⟩, ⟨7, 0⟩, readable, some 4, false⟩ .ok) = some t ∧ t.stack ≠ [] :=
    ⟨_, rfl, by decide⟩
  refine ⟨rfl, (hkeys 0x30).mp (by simp [hreqs]), t, ht, ?_⟩
  have hok : Rules 0x10 5 (afterActs reads)
      (.round ⟨⟨7, 0⟩, ⟨7, 0⟩, readable, some 4, false⟩ .ok) := by
    intro d evn hpc htold
    obtain rfl : none = d := LoopPc.poll.inj hpc
    obtain rfl := Option.some.inj htold
    decide
  rcases hround _ _ t hok ht with ⟨hnil, -⟩ | ⟨_, _, r, _, _, c, -, hc, hstack⟩
  · exact absurd hnil hne
  · rw [hreqs, List.mem_singleton] at hc
    rw [hstack, (Prod.mk.inj hc).2]

/-! ## Sleepers -/

/-- The loop polls for the sleepers alone, or died of it. -/
structure Doomed (d : YoTime) (sleeps : List (τ × Co)) (alive : Co → Bool)
    (s : LoopState τ) : Prop where
  kept : Kept s
  pc : s.pc = .poll (some d) ∨ s.pc = .raised .etimeout
  stack : s.stack = []
  tasks : s.tasks = []
  reqs : s.reqs = []
  sleeps : s.sleeps = sleeps
  alive : s.alive = alive

/-- No step saves it. -/
theorem Doomed.step {d : YoTime} {sleeps : List (τ × Co)} {alive : Co → Bool} {a : LoopAct τ}
    (h : Doomed d sleeps alive s) (hok : Rules q timerFd s a)
    (hst : (system q timerFd toTime).step s a = some t) : Doomed d sleeps alive t := by
  have hk := h.kept.step hok hst
  simp only [system] at hst
  split at hst
  · rename_i fn hfn
    obtain ⟨-, x, rfl⟩ := h.kept.plain (busy_anytime hfn _) hst
    exact ⟨hk, h.pc, h.stack, h.tasks, h.reqs, h.sleeps, h.alive⟩
  · rw [h.stack] at hst
    rcases h.pc with hpc | hpc
    · cases a with
      | round look res =>
        obtain ⟨deadline, sv, out, hpoll, hexec, hround⟩ := exists_of_round hst
        obtain ⟨-, ⟨-, rfl⟩ | ⟨-, -, rfl⟩ | ⟨r, code, ran, c, rfl, hc, hstack⟩⟩ :=
          h.kept.round hpoll hok hexec hround
        · exact ⟨hk, h.pc, h.stack, h.tasks, h.reqs, h.sleeps, h.alive⟩
        · exact ⟨hk, .inr rfl, h.stack, h.tasks, h.reqs, h.sleeps, h.alive⟩
        · simp [h.reqs] at hc
      | _ => simp [mainStep, hpc] at hst
    · cases a with
      | _ => simp [mainStep, hpc] at hst

/-- **Nobody wakes the sleepers.**  Once the loop polls with no request under way, it polls for ever
or dies of `YO_ETIMEOUT`: in no continuation of the run does a sleeper, or anyone else, run. -/
theorem sleeps_forever {d : YoTime} {as : List (LoopAct τ)}
    (h : (system q timerFd toTime).Reach (Rules q timerFd) s) (hpc : s.pc = .poll (some d))
    (hidle : ∀ r, s.served.conf.ledger.busy r = false)
    (hall : (system q timerFd toTime).Along (Rules q timerFd) s as)
    (hrun : (system q timerFd toTime).run s as = some t) :
    (t.pc = .poll (some d) ∨ t.pc = .raised .etimeout) ∧ t.stack = [] ∧ t.tasks = [] ∧
      t.sleeps = s.sleeps ∧ t.alive = s.alive := by
  have hk := kept_of_reach h
  obtain ⟨hstack, htasks⟩ := hk.polls _ hpc
  have hreqs : s.reqs = [] := by
    refine List.eq_nil_iff_forall_not_mem.mpr fun i hi => ?_
    have hbusy := (hk.keys i.1).mp (List.mem_map.mpr ⟨i, hi, rfl⟩)
    simp [hidle] at hbusy
  have hdoomed : Doomed d s.sleeps s.alive s :=
    ⟨hk, .inl hpc, hstack, htasks, hreqs, rfl, rfl⟩
  have ht := hall.invariant (fun s a t hs hok hst => hs.step hok hst) hdoomed hrun
  exact ⟨ht.pc, ht.stack, ht.tasks, ht.sleeps, ht.alive⟩

/-- A coroutine sleeps, and the loop polls for it. -/
def sleeper : List (LoopAct ℕ) := [.fork 1, .sleepUntil 9, .run, .pass 7, .next]

/-- When its time comes the loop dies, and the coroutine sleeps on. -/
theorem sleeps_forever_sleeper : ∃ t, (system 0x10 5 seconds).run (afterActs sleeper)
    [.round ⟨⟨7, 0⟩, ⟨9, 0⟩, readable, none, false⟩ .ok] = some t ∧
      t.pc = .raised .etimeout ∧ t.sleeps = [(9, 1)] := by
  have hreach : (system 0x10 5 seconds).Reach (Rules 0x10 5) (afterActs sleeper) :=
    reach_afterActs (by simp [sleeper, Rules]) (by decide)
  have hok : (system 0x10 5 seconds).Along (Rules 0x10 5) (afterActs sleeper)
      [.round ⟨⟨7, 0⟩, ⟨9, 0⟩, readable, none, false⟩ .ok] := by
    refine ⟨fun d evn hpc htold => ?_, fun _ _ => trivial⟩
    obtain rfl : some ⟨9, 0⟩ = d := LoopPc.poll.inj hpc
    obtain rfl := Option.some.inj htold
    rfl
  obtain ⟨t, ht, hne⟩ : ∃ t, (system 0x10 5 seconds).run (afterActs sleeper)
      [.round ⟨⟨7, 0⟩, ⟨9, 0⟩, readable, none, false⟩ .ok] = some t ∧
        t.pc ≠ .poll (some ⟨9, 0⟩) := ⟨_, rfl, by decide⟩
  obtain ⟨hpc, -, -, hsleeps, -⟩ := sleeps_forever hreach rfl (fun _ => rfl) hok ht
  exact ⟨t, ht, hpc.resolve_left hne, hsleeps⟩

end

end Loop

end Yaooi
