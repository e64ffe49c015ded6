import Yaooi.Backend.Registration
import Yaooi.Lib.Resource
import Yaooi.Queue.Calls

/-!
# Making and freeing a queue on the two backends

`yoi_pl_init` of `src/unix/pollish.c`, `yoi_queue_impl_init` and `yoi_queue_impl_free` of
`src/unix/epoll.c` and `src/unix/poll.c`, and what `yo_queue_new` and `yo_queue_free` of
`src/queue.c` make of them.  Each system call answers as it likes; what is opened and closed is kept
as a trace.

`LifeCycle` says that a new queue has its notify pipe, open and registered; that nothing stays open
where no queue is made; and that freeing a queue, whatever has been done with it, closes all that
was opened for it.

* `epoll_ready` and `epoll_undone`: the epoll backend does the first two; `epoll_new` says that its
  queues start as `Heap.system` takes them to.
* `epoll_not_freed`: it never does the third, as `yoi_queue_impl_free` calls `yoi_pl_init` in the
  place of `yoi_pl_free`.
* `poll_not_ready`: the poll backend never makes the pipe.
* `lifeCycle_iff` puts these together.
-/

namespace Yaooi

open Resource

/-! ## System calls -/

/-- The error of a system call, as `yoi_unix_conv_errno` converts it. -/
structure Fault where
  code : YoCode
  ne_ok : code ≠ .ok

/-- What `errno` converts to after a call that failed and others that may have failed since. -/
def errnoAfter (code : YoCode) (later : List (Option Fault)) : YoCode :=
  later.foldl (fun code fault => fault.elim code Fault.code) code

theorem errnoAfter_ne_ok {code : YoCode} {later : List (Option Fault)} (h : code ≠ .ok) :
    errnoAfter code later ≠ .ok := by
  induction later generalizing code with
  | nil => exact h
  | cons fault later ih =>
    cases fault with
    | none => exact ih h
    | some fault => exact ih fault.ne_ok

/-- The descriptors that are opened and closed, in order. -/
abbrev FdTrace := List (Resource.Event Int)

/-- What a function leaves in the structure it was given, what it returns, and the descriptors that
it opened and closed. -/
structure Effect (α : Type) where
  val : α
  code : YoCode
  trace : FdTrace

/-! ## The notify pipe -/

/-- `yoi_pl_s` -/
structure YoiPlS where
  notifyRead : Int
  notifyWrite : Int

/-- What the system calls of `yoi_pl_init` answer: the two ends of the pipe, and faults of the
others. -/
structure PlAnswers where
  pipe : Except Fault (Int × Int)
  fcntlRead : Option Fault
  fcntlWrite : Option Fault
  closeRead : Option Fault
  closeWrite : Option Fault

section

variable {ρ : Type} (setmask : ρ → Ptr → Int → YoiPlEvnMask → ρ × YoCode) (ans : PlAnswers)
  (pl : YoiPlS) (reg : ρ)

/-- The exit of `yoi_pl_init` that closes both ends of the pipe. -/
def yoiPlInitFail (code : YoCode) (r w : Int) : Effect (YoiPlS × ρ) :=
  ⟨(pl, reg), errnoAfter code [ans.closeRead, ans.closeWrite],
    [.acquire r, .acquire w, .release r, .release w]⟩

/-- `yoi_pl_init`, for a backend whose `yoi_pl_impl_setmask` is `setmask`. -/
def yoiPlInit : Effect (YoiPlS × ρ) :=
  match ans.pipe with
  | .error fault => ⟨(pl, reg), fault.code, []⟩
  | .ok (r, w) =>
    match ans.fcntlRead with
    | some fault => yoiPlInitFail ans pl reg fault.code r w
    | none =>
      match ans.fcntlWrite with
      | some fault => yoiPlInitFail ans pl reg fault.code r w
      | none =>
        let pl : YoiPlS := ⟨r, w⟩
        let (reg, code) := setmask reg NULL r ⟨true, false⟩
        if code ≠ .ok then yoiPlInitFail ans pl reg code r w
        else ⟨(pl, reg), .ok, [.acquire r, .acquire w]⟩

variable {setmask ans pl reg}

theorem settled_yoiPlInitFail {code : YoCode} {r w : Int} :
    Settled (yoiPlInitFail ans pl reg code r w).trace :=
  settled_of_perm [r, w] [r, w] (.refl _)

variable (setmask ans pl reg) in
/-- It makes the pipe and registers it, or fails and leaves nothing open. -/
theorem yoiPlInit_cases :
    (∃ r w, ans.pipe = .ok (r, w) ∧ ans.fcntlRead = none ∧ ans.fcntlWrite = none ∧
      (setmask reg NULL r ⟨true, false⟩).2 = .ok ∧
      yoiPlInit setmask ans pl reg =
        ⟨(⟨r, w⟩, (setmask reg NULL r ⟨true, false⟩).1), .ok, [.acquire r, .acquire w]⟩) ∨
    ((∀ r w, ans.pipe = .ok (r, w) → ans.fcntlRead = none → ans.fcntlWrite = none →
        (setmask reg NULL r ⟨true, false⟩).2 ≠ .ok) ∧
      (yoiPlInit setmask ans pl reg).code ≠ .ok ∧
      Settled (yoiPlInit setmask ans pl reg).trace) := by
  cases hpipe : ans.pipe with
  | error fault =>
    refine .inr ⟨by simp, ?_, ?_⟩ <;> simp only [yoiPlInit, hpipe]
    · exact fault.ne_ok
    · rfl
  | ok ends =>
    obtain ⟨r, w⟩ := ends
    cases hread : ans.fcntlRead with
    | some fault =>
      refine .inr ⟨by simp, ?_, ?_⟩ <;> simp only [yoiPlInit, hpipe, hread]
      · exact errnoAfter_ne_ok fault.ne_ok
      · exact settled_yoiPlInitFail
    | none =>
      cases hwrite : ans.fcntlWrite with
      | some fault =>
        refine .inr ⟨by simp, ?_, ?_⟩ <;> simp only [yoiPlInit, hpipe, hread, hwrite]
        · exact errnoAfter_ne_ok fault.ne_ok
        · exact settled_yoiPlInitFail
      | none =>
        by_cases hcode : (setmask reg NULL r ⟨true, false⟩).2 = .ok
        · exact .inl ⟨r, w, rfl, rfl, rfl, hcode, by simp [yoiPlInit, hpipe, hread, hwrite, hcode]⟩
        · refine .inr ⟨?_, ?_, ?_⟩
          · intro r' w' hends _ _
            cases hends
            exact hcode
          · simp only [yoiPlInit, hpipe, hread, hwrite]
            rw [if_pos hcode]
            exact errnoAfter_ne_ok hcode
          · simp only [yoiPlInit, hpipe, hread, hwrite]
            rw [if_pos hcode]
            exact settled_yoiPlInitFail

end

/-! ## `src/unix/epoll.c` -/

namespace Epoll

/-- `yoi_queue_impl_t` of `src/unix/epoll.h`, with the interest list that the kernel keeps. -/
structure YoiQueueImplT where
  pl : YoiPlS
  epollFd : Int
  timerFd : Int
  interest : Interest

/-- What the system calls of `yoi_queue_impl_free` answer: those of `yoi_pl_init`, and the two
`epoll_ctl` of its `yoi_pl_impl_setmask`. -/
structure FreeAnswers where
  pl : PlAnswers
  ctlMod : Option Fault
  ctlAdd : Option Fault

/-- What the system calls of `yoi_queue_impl_init` answer. -/
structure InitAnswers extends FreeAnswers where
  timerfdCreate : Except Fault Int
  epollCreate : Except Fault Int
  ctlTimer : Option Fault
  closeEpoll : Option Fault
  closeTimer : Option Fault

/-- `yoi_pl_impl_setmask`, with the answers. -/
def FreeAnswers.setmask (ans : FreeAnswers) (l : Interest) (udata : Ptr) (fd : Int)
    (mask : YoiPlEvnMask) : Interest × YoCode :=
  l.setmask udata fd mask (ans.ctlMod.map Fault.code) (ans.ctlAdd.map Fault.code)

/-- `yoi_queue_impl_init` -/
def yoiQueueImplInit (impl : YoiQueueImplT) (ans : InitAnswers) : Effect YoiQueueImplT :=
  match ans.timerfdCreate with
  | .error fault => ⟨{ impl with timerFd := -1 }, fault.code, []⟩
  | .ok timer =>
    let impl := { impl with timerFd := timer }
    match ans.epollCreate with
    | .error fault =>
      ⟨{ impl with epollFd := -1 }, errnoAfter fault.code [ans.closeTimer],
        [.acquire timer, .release timer]⟩
    | .ok epoll =>
      let impl := { impl with epollFd := epoll, interest := fun _ => none }
      match ans.ctlTimer with
      | some fault =>
        ⟨impl, errnoAfter fault.code [ans.closeEpoll, ans.closeTimer],
          [.acquire timer, .acquire epoll, .release epoll, .release timer]⟩
      | none =>
        let pl := yoiPlInit ans.setmask ans.pl impl.pl impl.interest
        let impl := { impl with pl := pl.val.1, interest := pl.val.2 }
        if pl.code ≠ .ok then
          ⟨impl, errnoAfter pl.code [ans.closeEpoll, ans.closeTimer],
            [.acquire timer, .acquire epoll] ++ pl.trace ++ [.release epoll, .release timer]⟩
        else ⟨impl, .ok, [.acquire timer, .acquire epoll] ++ pl.trace⟩

/-- `yoi_queue_impl_free`.  It calls `yoi_pl_init`. -/
def yoiQueueImplFree (impl : YoiQueueImplT) (ans : FreeAnswers) : Effect YoiQueueImplT :=
  let pl := yoiPlInit ans.setmask ans.pl impl.pl impl.interest
  let impl := { impl with pl := pl.val.1, interest := pl.val.2 }
  if pl.code ≠ .ok then ⟨impl, pl.code, pl.trace⟩
  else ⟨impl, .ok, pl.trace ++ [.release impl.epollFd, .release impl.timerFd]⟩

/-- What is done with a queue: registrations change, and the kernel drops the one of a descriptor
that is closed. -/
inductive Action where
  | setmask (udata : Ptr) (fd : Int) (mask : YoiPlEvnMask) (faultChange faultAdd : Option YoCode)
  | closed (fd : Int)

/-- What an action leaves. -/
def YoiQueueImplT.act (impl : YoiQueueImplT) : Action → YoiQueueImplT
  | .setmask udata fd mask faultChange faultAdd =>
    { impl with interest := (impl.interest.setmask udata fd mask faultChange faultAdd).1 }
  | .closed fd => { impl with interest := Function.update impl.interest fd none }

end Epoll

/-! ## `src/unix/poll.c` -/

namespace Poll

/-- `yoi_queue_impl_t` of `src/unix/poll.h` -/
structure YoiQueueImplT where
  fds : Ptr
  fdsCap : BitVec 64
  head : PollNodes
  pl : YoiPlS

/-- `yoi_queue_impl_init` makes no system call. -/
def yoiQueueImplInit (impl : YoiQueueImplT) : Effect YoiQueueImplT :=
  ⟨{ impl with fds := NULL, fdsCap := 0, head := ⟨[], List.nodup_nil⟩ }, .ok, []⟩

/-- `yoi_queue_impl_free` does nothing. -/
def yoiQueueImplFree (impl : YoiQueueImplT) : Effect YoiQueueImplT := ⟨impl, .ok, []⟩

/-- What is done with a queue: registrations change, and the array grows. -/
inductive Action where
  | setmask (udata : Ptr) (fd : Int) (mask : YoiPlEvnMask) (nomem : Bool)
  | grow (fds : Ptr) (fdsCap : BitVec 64)

/-- What an action leaves. -/
def YoiQueueImplT.act (impl : YoiQueueImplT) : Action → YoiQueueImplT
  | .setmask udata fd mask nomem =>
    { impl with head := (impl.head.setmask udata fd mask nomem).1 }
  | .grow fds fdsCap => { impl with fds, fdsCap }

end Poll

/-! ## Queues -/

/-- A backend under `src/unix/pollish.c`: its `yoi_queue_impl_t`, the answers of the system calls,
and what is done with a queue between `yo_queue_new` and `yo_queue_free`. -/
structure PlBackend where
  Impl : Type
  InitAnswers : Type
  FreeAnswers : Type
  Action : Type
  init : Impl → InitAnswers → Effect Impl
  free : Impl → FreeAnswers → Effect Impl
  act : Impl → Action → Impl
  pl : Impl → YoiPlS
  reg : Impl → Int → Option Registration

namespace PlBackend

/-- `src/unix/epoll.c` -/
abbrev epoll : PlBackend where
  Impl := Epoll.YoiQueueImplT
  InitAnswers := Epoll.InitAnswers
  FreeAnswers := Epoll.FreeAnswers
  Action := Epoll.Action
  init := Epoll.yoiQueueImplInit
  free := Epoll.yoiQueueImplFree
  act := Epoll.YoiQueueImplT.act
  pl := Epoll.YoiQueueImplT.pl
  reg := Epoll.YoiQueueImplT.interest

/-- `src/unix/poll.c` -/
abbrev poll : PlBackend where
  Impl := Poll.YoiQueueImplT
  InitAnswers := Unit
  FreeAnswers := Unit
  Action := Poll.Action
  init impl _ := Poll.yoiQueueImplInit impl
  free impl _ := Poll.yoiQueueImplFree impl
  act := Poll.YoiQueueImplT.act
  pl := Poll.YoiQueueImplT.pl
  reg impl := impl.head.reg

variable (B : PlBackend)

/-- `yo_queue_new`.  `malloc` answers `NULL`, or memory with anything in it.  The list of ready
requests, the lock and the pool open nothing. -/
def yoQueueNew (malloc : Option B.Impl) (ans : B.InitAnswers) : Option B.Impl × FdTrace :=
  match malloc with
  | none => (none, [])
  | some impl =>
    let res := B.init impl ans
    if res.code ≠ .ok then (none, res.trace) else (some res.val, res.trace)

/-- `yo_queue_free`, once the workers have ended. -/
def yoQueueFree (impl : B.Impl) (ans : B.FreeAnswers) : FdTrace := (B.free impl ans).trace

/-- The descriptors of the notify pipe are open, and its read end is registered for readability with
`NULL` as user data. -/
def HasNotify (impl : B.Impl) (trace : FdTrace) : Prop :=
  (∃ l, held [] trace = some l ∧ (B.pl impl).notifyRead ∈ l ∧ (B.pl impl).notifyWrite ∈ l) ∧
    B.reg impl (B.pl impl).notifyRead = some ⟨⟨true, false⟩, NULL⟩

section

variable (malloc : Option B.Impl) (ans : B.InitAnswers)

/-- A new queue has its notify pipe. -/
def Ready : Prop := ∀ impl, (B.yoQueueNew malloc ans).1 = some impl →
  B.HasNotify impl (B.yoQueueNew malloc ans).2

/-- Where no queue is made, all that was opened is closed. -/
def Undone : Prop := (B.yoQueueNew malloc ans).1 = none → Settled (B.yoQueueNew malloc ans).2

/-- Whatever is done with the queue, freeing it closes all that was opened, and all that it opens
itself. -/
def Freed : Prop := ∀ impl, (B.yoQueueNew malloc ans).1 = some impl →
  ∀ (as : List B.Action) (fans : B.FreeAnswers),
    Settled ((B.yoQueueNew malloc ans).2 ++ B.yoQueueFree (as.foldl B.act impl) fans)

/-- How `yo_queue_new` with these answers, and `yo_queue_free` after it, are to deal with
descriptors. -/
structure LifeCycle : Prop where
  ready : B.Ready malloc ans
  undone : B.Undone malloc ans
  freed : B.Freed malloc ans

end

end PlBackend

/-! ## The epoll backend -/

namespace Epoll

/-- A system call of `yoi_pl_init` fails. -/
def FreeAnswers.refused (ans : FreeAnswers) : Bool :=
  !ans.pl.pipe.isOk || ans.pl.fcntlRead.isSome || ans.pl.fcntlWrite.isSome || ans.ctlMod.isSome ||
    ans.ctlAdd.isSome

/-- A system call of `yoi_queue_impl_init` fails. -/
def InitAnswers.refused (ans : InitAnswers) : Bool :=
  !ans.timerfdCreate.isOk || !ans.epollCreate.isOk || ans.ctlTimer.isSome ||
    ans.toFreeAnswers.refused

/-- In an interest list without entries one is added, if the kernel does not refuse. -/
theorem FreeAnswers.setmask_empty (ans : FreeAnswers) (fd : Int) :
    (ans.setmask (fun _ => none) NULL fd ⟨true, false⟩).2 = .ok ↔
      ans.ctlMod = none ∧ ans.ctlAdd = none := by
  cases hmod : ans.ctlMod with
  | some fault => simp [setmask, Interest.setmask, Interest.change, hmod, fault.ne_ok,
      YoiPlEvnMask.zero]
  | none =>
    cases hadd : ans.ctlAdd with
    | some fault => simp [setmask, Interest.setmask, Interest.change, Interest.add, hmod, hadd,
        fault.ne_ok, YoiPlEvnMask.zero]
    | none => simp [setmask, Interest.setmask, Interest.change, Interest.add, hmod, hadd,
        YoiPlEvnMask.zero]

theorem FreeAnswers.setmask_freshReg {ans : FreeAnswers} {fd : Int}
    (h : (ans.setmask (fun _ => none) NULL fd ⟨true, false⟩).2 = .ok) :
    (ans.setmask (fun _ => none) NULL fd ⟨true, false⟩).1 = Heap.freshReg fd := by
  obtain ⟨hmod, hadd⟩ := (ans.setmask_empty fd).mp h
  simp [setmask, Interest.setmask, Interest.change, Interest.add, hmod, hadd, YoiPlEvnMask.zero,
    Heap.freshReg]

/-- With a new epoll instance `yoi_pl_init` succeeds if its system calls do. -/
theorem yoiPlInit_empty (ans : FreeAnswers) (pl : YoiPlS) :
    (ans.refused = false ∧ ∃ r w, yoiPlInit ans.setmask ans.pl pl (fun _ => none) =
      ⟨(⟨r, w⟩, Heap.freshReg r), .ok, [.acquire r, .acquire w]⟩) ∨
    (ans.refused = true ∧ (yoiPlInit ans.setmask ans.pl pl fun _ => none).code ≠ .ok ∧
      Settled (yoiPlInit ans.setmask ans.pl pl fun _ => none).trace) := by
  rcases yoiPlInit_cases ans.setmask ans.pl pl fun _ => none with
    ⟨r, w, hpipe, hread, hwrite, hcode, heq⟩ | ⟨hfail, hcode, htrace⟩
  · obtain ⟨hmod, hadd⟩ := (ans.setmask_empty r).mp hcode
    refine .inl ⟨?_, r, w, by rw [heq, FreeAnswers.setmask_freshReg hcode]⟩
    simp [FreeAnswers.refused, hpipe, hread, hwrite, hmod, hadd, Except.isOk, Except.toBool]
  · refine .inr ⟨?_, hcode, htrace⟩
    cases hpipe : ans.pl.pipe with
    | error fault => simp [FreeAnswers.refused, hpipe, Except.isOk, Except.toBool]
    | ok ends =>
      by_contra hrefused
      simp only [FreeAnswers.refused, Bool.or_eq_true, not_or, Option.not_isSome_iff_eq_none]
        at hrefused
      obtain ⟨⟨⟨⟨-, hread⟩, hwrite⟩, hmod⟩, hadd⟩ := hrefused
      exact hfail ends.1 ends.2 hpipe hread hwrite ((ans.setmask_empty _).mpr ⟨hmod, hadd⟩)

/-- A queue is made with its timer, its epoll instance and its notify pipe, or a call fails and all
is closed again. -/
theorem yoiQueueImplInit_cases (impl : YoiQueueImplT) (ans : InitAnswers) :
    (ans.refused = false ∧ ∃ timer epoll r w, yoiQueueImplInit impl ans =
      ⟨⟨⟨r, w⟩, epoll, timer, Heap.freshReg r⟩, .ok,
        [.acquire timer, .acquire epoll, .acquire r, .acquire w]⟩) ∨
    (ans.refused = true ∧ (yoiQueueImplInit impl ans).code ≠ .ok ∧
      Settled (yoiQueueImplInit impl ans).trace) := by
  cases htimer : ans.timerfdCreate with
  | error fault =>
    refine .inr ⟨by simp [InitAnswers.refused, htimer, Except.isOk, Except.toBool], ?_, ?_⟩
    all_goals simp only [yoiQueueImplInit, htimer]
    · exact fault.ne_ok
    · rfl
  | ok timer =>
    cases hepoll : ans.epollCreate with
    | error fault =>
      refine .inr ⟨by simp [InitAnswers.refused, hepoll, Except.isOk, Except.toBool], ?_, ?_⟩
      all_goals simp only [yoiQueueImplInit, htimer, hepoll]
      · exact errnoAfter_ne_ok fault.ne_ok
      · exact settled_of_perm [timer] [timer] (.refl _)
    | ok epoll =>
      have hsettled : Settled ([Resource.Event.acquire timer, .acquire epoll] ++
          [.release epoll, .release timer]) :=
        settled_of_perm [timer, epoll] [epoll, timer] (.swap ..)
      cases hctl : ans.ctlTimer with
      | some fault =>
        refine .inr ⟨by simp [InitAnswers.refused, hctl], ?_, ?_⟩
        all_goals simp only [yoiQueueImplInit, htimer, hepoll, hctl]
        · exact errnoAfter_ne_ok fault.ne_ok
        · exact hsettled
      | none =>
        have hrefused : ans.refused = ans.toFreeAnswers.refused := by
          simp [InitAnswers.refused, htimer, hepoll, hctl, Except.isOk, Except.toBool]
        rw [hrefused]
        rcases yoiPlInit_empty ans.toFreeAnswers impl.pl with
          ⟨hok, r, w, hpl⟩ | ⟨hno, hcode, htrace⟩
        · refine .inl ⟨hok, timer, epoll, r, w, ?_⟩
          simp [yoiQueueImplInit, htimer, hepoll, hctl, hpl]
        · refine .inr ⟨hno, ?_, ?_⟩
          all_goals
            simp only [yoiQueueImplInit, htimer, hepoll, hctl]
            rw [if_pos hcode]
          · exact errnoAfter_ne_ok hcode
          · exact htrace.insert hsettled

/-- Freeing closes as many descriptors as it opens: the new pipe if that could not be registered,
the epoll instance and the timer if it could. -/
theorem yoiQueueImplFree_balanced (impl : YoiQueueImplT) (ans : FreeAnswers) :
    (yoiQueueImplFree impl ans).trace.countP Resource.Event.acquires =
      (yoiQueueImplFree impl ans).trace.countP (!·.acquires) := by
  rcases yoiPlInit_cases ans.setmask ans.pl impl.pl impl.interest with
    ⟨r, w, -, -, -, -, heq⟩ | ⟨-, hcode, htrace⟩
  · simp only [yoiQueueImplFree, heq]
    rfl
  · simp only [yoiQueueImplFree]
    rw [if_pos hcode]
    exact htrace.balanced

end Epoll

/-! ## What holds of the two -/

namespace PlBackend

section

variable {malloc : Option Epoll.YoiQueueImplT} {ans : Epoll.InitAnswers}
  {impl : Epoll.YoiQueueImplT}

/-- If no call fails a queue is made, which starts as `Heap.system` takes it to, and four
descriptors are open; otherwise none is made and nothing stays open. -/
theorem epoll_new (malloc : Option Epoll.YoiQueueImplT) (ans : Epoll.InitAnswers) :
    (¬ (malloc = none ∨ ans.refused = true) ∧ ∃ timer fd r w, epoll.yoQueueNew malloc ans =
      (some ⟨⟨r, w⟩, fd, timer, Heap.freshReg r⟩,
        [.acquire timer, .acquire fd, .acquire r, .acquire w])) ∨
    ((malloc = none ∨ ans.refused = true) ∧ (epoll.yoQueueNew malloc ans).1 = none ∧
      Settled (epoll.yoQueueNew malloc ans).2) := by
  cases malloc with
  | none => exact .inr ⟨.inl rfl, rfl, rfl⟩
  | some junk =>
    rcases Epoll.yoiQueueImplInit_cases junk ans with
      ⟨hok, timer, fd, r, w, heq⟩ | ⟨hno, hcode, htrace⟩
    · refine .inl ⟨by simp [hok], timer, fd, r, w, ?_⟩
      simp only [yoQueueNew, epoll, heq]
      rfl
    · have hnew : epoll.yoQueueNew (some junk) ans =
          (none, (Epoll.yoiQueueImplInit junk ans).trace) := if_pos hcode
      rw [hnew]
      exact .inr ⟨.inr hno, rfl, htrace⟩

/-- A new queue of the epoll backend has its notify pipe. -/
theorem epoll_ready : epoll.Ready malloc ans := by
  intro impl h
  rcases epoll_new malloc ans with ⟨-, timer, fd, r, w, hnew⟩ | ⟨-, hnone, -⟩
  · rw [hnew] at h ⊢
    obtain rfl := Option.some.inj h
    exact ⟨⟨[w, r, fd, timer], rfl, by simp, by simp⟩, by simp [Heap.freshReg]⟩
  · rw [hnone] at h
    cases h

/-- Where the epoll backend makes no queue, nothing stays open. -/
theorem epoll_undone : epoll.Undone malloc ans := by
  intro h
  rcases epoll_new malloc ans with ⟨-, timer, fd, r, w, hnew⟩ | ⟨-, -, htrace⟩
  · rw [hnew] at h
    cases h
  · exact htrace

/-- **Freeing a queue of the epoll backend leaves descriptors open**, whatever the queue has become
and whatever the system calls answer: four more are opened than closed. -/
theorem epoll_not_freed (h : (epoll.yoQueueNew malloc ans).1 = some impl)
    (last : Epoll.YoiQueueImplT) (fans : Epoll.FreeAnswers) :
    ¬ Settled ((epoll.yoQueueNew malloc ans).2 ++ epoll.yoQueueFree last fans) := by
  intro hsettled
  have hnew : (epoll.yoQueueNew malloc ans).2.countP Resource.Event.acquires = 4 ∧
      (epoll.yoQueueNew malloc ans).2.countP (!·.acquires) = 0 := by
    rcases epoll_new malloc ans with ⟨-, timer, fd, r, w, hnew⟩ | ⟨-, hnone, -⟩
    · rw [hnew]
      exact ⟨rfl, rfl⟩
    · rw [hnone] at h
      cases h
  have hcount := hsettled.balanced
  have hfree : (epoll.yoQueueFree last fans).countP Resource.Event.acquires =
      (epoll.yoQueueFree last fans).countP (!·.acquires) :=
    Epoll.yoiQueueImplFree_balanced last fans
  rw [List.countP_append, List.countP_append] at hcount
  omega

end

/-- A new queue of the poll backend has no notify pipe: nothing has been opened. -/
theorem poll_not_ready (junk : Poll.YoiQueueImplT) : ¬ poll.Ready (some junk) () := by
  intro h
  obtain ⟨⟨l, hheld, hmem, -⟩, -⟩ := h _ rfl
  obtain rfl := Option.some.inj hheld
  exact absurd hmem List.not_mem_nil

/-- The poll backend opens nothing, so nothing stays open. -/
theorem poll_settled (malloc : Option Poll.YoiQueueImplT) :
    poll.Undone malloc () ∧ poll.Freed malloc () := by
  cases malloc with
  | none => exact ⟨fun _ => rfl, nofun⟩
  | some junk => exact ⟨nofun, fun _ _ _ _ => rfl⟩

/-- **When the life cycle of a queue is in order**: only if no queue is made.  The epoll backend
does all but the freeing, and that it never does; so `malloc` or a system call of
`yoi_queue_impl_init` must fail.  The poll backend does all but the making of the pipe, so `malloc`
must fail. -/
theorem lifeCycle_iff (malloc : Option Epoll.YoiQueueImplT) (ans : Epoll.InitAnswers)
    (malloc' : Option Poll.YoiQueueImplT) :
    (epoll.Ready malloc ans ∧ epoll.Undone malloc ans ∧
      (epoll.LifeCycle malloc ans ↔ malloc = none ∨ ans.refused = true)) ∧
    poll.Undone malloc' () ∧ poll.Freed malloc' () ∧
      (poll.LifeCycle malloc' () ↔ malloc' = none) := by
  refine ⟨⟨epoll_ready, epoll_undone, ?_⟩, ?_⟩
  · rcases epoll_new malloc ans with ⟨hok, timer, fd, r, w, hnew⟩ | ⟨hno, hnone, -⟩
    · have hfst := congrArg Prod.fst hnew
      refine iff_of_false (fun h => ?_) hok
      exact epoll_not_freed hfst _ _ (h.freed _ hfst [] ans.toFreeAnswers)
    · refine iff_of_true ⟨epoll_ready, epoll_undone, fun impl h => ?_⟩ hno
      rw [hnone] at h
      cases h
  · obtain ⟨hundone, hfreed⟩ := poll_settled malloc'
    refine ⟨hundone, hfreed, fun h => ?_, ?_⟩
    · cases malloc' with
      | none => rfl
      | some junk => exact absurd h.ready (poll_not_ready junk)
    · rintro rfl
      exact ⟨nofun, hundone, hfreed⟩

/-! ## Every call succeeds -/

/-- The timer is descriptor 4, the epoll instance 5, and the pipe 6 and 7. -/
def allDone : Epoll.InitAnswers :=
  ⟨⟨⟨.ok (6, 7), none, none, none, none⟩, none, none⟩, .ok 4, .ok 5, none, none, none⟩

/-- A queue that is made and freed at once, with every call succeeding. -/
theorem not_lifeCycle_allDone :
    ¬ epoll.LifeCycle (some ⟨⟨0, 0⟩, 0, 0, fun _ => none⟩) allDone ∧
      ¬ poll.LifeCycle (some ⟨NULL, 0, ⟨[], List.nodup_nil⟩, ⟨0, 0⟩⟩) () := by
  refine ⟨fun h => ?_, fun h => poll_not_ready _ h.ready⟩
  exact absurd (h.freed _ rfl [] ⟨⟨.ok (8, 9), none, none, none, none⟩, none, none⟩) (by decide)

end PlBackend

end Yaooi
