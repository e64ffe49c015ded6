import Yaooi.Lib.Transition
import Yaooi.Queue.Pollish

/-!
# Runs of a queue

The calls a program makes on its queues, and the threads of the pool with them, as
a transition system.  A call is one step; a call of `yo_queue_poll` is one step for each
round of its loop, so that pool completions may fall between the rounds.

`Ledger` is the book the callers keep: which requests and handles exist, which
requests were started and not yet delivered, which of these a pool thread holds,
and what happened so far.  `Call.allowed` are the rules a caller follows: memory comes
from `malloc`, a request is neither started again nor freed before it is delivered,
and the handle of an event is open.
-/

namespace Yaooi

open Transition

/-- What happened, as the callers and the OS see it. -/
inductive Event where
  /-- A request was started on a handle, for an operation. -/
  | start (r : YoReqT) (call : SyncCall)
  /-- A request was handed to the pool. -/
  | exec (r : YoReqT)
  /-- The operation of a request was performed and gave the code: a synchronous call
  on a handle, or the worker function of a pool request. -/
  | ran (r : YoReqT) (call : Option SyncCall) (code : YoCode)
  /-- A handle was closed. -/
  | close (h : YoFdT)
  /-- `yo_queue_poll` returned a request with its code. -/
  | deliver (q : YoQueueT) (r : YoReqT) (code : YoCode)
  deriving DecidableEq

/-- A call, with what the OS answers to it. -/
inductive Call where
  /-- `yo_req_new`, `malloc` answering `r` -/
  | reqNew (r : YoReqT) (q : YoQueueT)
  /-- `yo_req_free` -/
  | reqFree (r : YoReqT)
  /-- `yo_fd_new`, `malloc` answering `h` -/
  | fdNew (h : YoFdT) (fd : Int) (owned : Bool)
  /-- A `yoa_*` function of the polling backend. -/
  | start (r : YoReqT) (h : YoFdT) (op : YoaOp) (ans res : YoCode)
  /-- `yo_req_exec`, accepted by the pool -/
  | exec (r : YoReqT)
  /-- A pool thread's `yoi_req_end`. -/
  | finish (r : YoReqT) (code : YoCode)
  /-- `yo_fd_close` -/
  | close (h : YoFdT) (ans : YoReqT → YoCode)
  /-- A round of `yo_queue_poll`. -/
  | poll (q : YoQueueT) (env : PollEnv)

/-- What a call returns. -/
inductive Outcome where
  | done
  /-- A start, whether it got past the check of the handle, its code, and the operation
  it performed, if any. -/
  | started (began : Bool) (code : YoCode) (ran : Option SyncCall)
  | polled (step : PollStep)
  deriving DecidableEq

/-- The callers' book. -/
structure Ledger where
  /-- The allocated requests. -/
  live : YoReqT → Bool
  /-- The open handles. -/
  opened : YoFdT → Bool
  /-- The requests started and not yet delivered. -/
  busy : YoReqT → Bool
  /-- The requests a pool thread holds. -/
  pool : YoReqT → Bool
  trace : List Event

namespace Ledger

def empty : Ledger := ⟨fun _ => false, fun _ => false, fun _ => false, fun _ => false, []⟩

/-- The event of an operation performed for a request, if any. -/
def ranEvent (r : YoReqT) (code : YoCode) : Option SyncCall → List Event
  | none => []
  | some call => [.ran r (some call) code]

/-- The book after a call.  The code of an operation is the one that the operation gave, and not the
one that `yo_queue_poll` then returned with the request. -/
def after (l : Ledger) (c : Call) (out : Outcome) : Ledger :=
  match c, out with
  | .reqNew r _, _ => { l with live := Function.update l.live r true }
  | .reqFree r, _ => { l with live := Function.update l.live r false }
  | .fdNew h _ _, _ => { l with opened := Function.update l.opened h true }
  | .start r h op _ res, .started true _ ran =>
    { l with
      busy := Function.update l.busy r true
      trace := l.trace ++ .start r ⟨h, op⟩ :: ranEvent r res ran }
  | .exec r, _ =>
    { l with
      busy := Function.update l.busy r true
      pool := Function.update l.pool r true
      trace := l.trace ++ [.exec r] }
  | .finish r code, _ =>
    { l with
      pool := Function.update l.pool r false
      trace := l.trace ++ [.ran r none code] }
  | .close h _, _ =>
    { l with opened := Function.update l.opened h false, trace := l.trace ++ [.close h] }
  | .poll q env, .polled (.returned r code ran) =>
    { l with
      busy := Function.update l.busy r false
      trace := l.trace ++ (ranEvent r env.res ran ++ [.deliver q r code]) }
  | _, _ => l

end Ledger

/-- The rules a caller follows.  `malloc` answers with an address that is not in use,
not null, and a multiple of 16. -/
def Call.allowed (l : Ledger) : Call → Bool
  | .reqNew r _ => !l.live r && r != NULL && r.setWidth 4 == 0#4
  | .reqFree r => l.live r && !l.busy r
  | .fdNew h _ _ => !l.opened h && h != NULL
  | .start r h _ _ _ => l.live r && !l.busy r && l.opened h
  | .exec r => l.live r && !l.busy r
  | .finish r _ => l.pool r
  | .close h _ => l.opened h
  | .poll _ env =>
    match env.poll with
    | .error _ => true
    | .event udata _ => udata == NULL || l.opened udata

/-- A memory, or a picture of one, together with the callers' book. -/
structure Conf (σ : Type*) where
  mem : σ
  ledger : Ledger

/-- The runs of the calls over a memory that executes them. -/
def calls {σ : Type*} (init : σ → Prop) (exec : σ → Call → Option (σ × Outcome)) :
    System (Conf σ) Call where
  init s := init s.mem ∧ s.ledger = .empty
  step s c :=
    if c.allowed s.ledger then
      (exec s.mem c).map fun p => ⟨p.1, s.ledger.after c p.2⟩
    else none

theorem calls_step {σ : Type*} {init : σ → Prop} {exec : σ → Call → Option (σ × Outcome)}
    {s t : Conf σ} {c : Call} (h : (calls init exec).step s c = some t) :
    c.allowed s.ledger = true ∧
      ∃ m out, exec s.mem c = some (m, out) ∧ t = ⟨m, s.ledger.after c out⟩ := by
  simp only [calls] at h
  split at h
  · rename_i hall
    obtain ⟨⟨m, out⟩, hexec, rfl⟩ := Option.map_eq_some_iff.mp h
    exact ⟨hall, m, out, hexec, rfl⟩
  · exact absurd h (by simp)

namespace Heap

/-- What a call does to the memory. -/
def exec (m : Heap) : Call → Option (Heap × Outcome)
  | .reqNew r q => some (m.yoReqNew r q, .done)
  | .reqFree _ => some (m, .done)
  | .fdNew h fd owned => some (m.yoFdNew h fd owned, .done)
  | .start r h op ans res =>
    let (m', code, ran) := m.yoa r h op ans res
    some (m', .started (yoiUnixIsfd (m.fd h)) code ran)
  | .exec r => some (m.yoiReqBegin r m.text.poolCancelcb, .done)
  | .finish r code => some (m.yoiReqEnd r code, .done)
  | .close h ans => (m.yoiUnixOnclose h ans).map fun m' => (m', .done)
  | .poll q env => (m.yoQueuePollRound q env).map fun p => (p.1, .polled p.2)

/-- The registrations of a queue that was just made: its notify pipe, with null user
data. -/
def freshReg (notifyRead : Int) : Int → Option Registration :=
  Function.update (fun _ => none) notifyRead (some ⟨⟨true, false⟩, NULL⟩)

/-- No request and no handle was made yet, and every queue is new. -/
def Fresh (m : Heap) : Prop :=
  ∀ q, (m.queue q).head = NULL ∧ (m.queue q).reg = freshReg (m.queue q).notifyRead

/-- The runs of the calls over the memory. -/
def system : System (Conf Heap) Call := calls Fresh exec

/-- A memory that nothing happened in yet, with three callbacks. -/
def blank : Heap where
  req _ := ⟨NULL, 0, 0, NULL, .head NULL, NULL, .read, 0, 0, 0⟩
  fd _ := ⟨NULL, false, false, -1, 0, 0⟩
  queue _ := ⟨NULL, 3, freshReg 3⟩
  text := ⟨0x401100, 0x401200, 0x401300⟩

/-- The start of a run in the blank memory. -/
def start : Conf Heap := ⟨blank, .empty⟩

theorem init_start : system.init start := ⟨fun _ => ⟨rfl, rfl⟩, rfl⟩

/-- Where some calls lead from the start, if they follow the rules. -/
def afterCalls (cs : List Call) : Conf Heap := (system.run start cs).getD start

theorem run_afterCalls {cs : List Call} (h : (system.run start cs).isSome = true) :
    system.run start cs = some (afterCalls cs) := by
  obtain ⟨s, hs⟩ := Option.isSome_iff_exists.mp h
  rw [afterCalls, hs, Option.getD_some]

theorem reachable_afterCalls (cs : List Call) : system.Reachable (afterCalls cs) := by
  cases h : system.run start cs with
  | none =>
    rw [afterCalls, h]
    exact .init init_start
  | some s =>
    rw [afterCalls, h]
    exact System.reachable_of_run init_start h

end Heap

end Yaooi
