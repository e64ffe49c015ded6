import Yaooi.Queue.Ready

/-!
# The polling backend

`src/unix/pollish.c`: starting a request on a handle, stopping it, closing the
handle, and the loop of `yo_queue_poll`; and `yo_req_cancel` of `src/queue.c`, which
calls back into it.

What the OS answers is passed in.  `yoi_pl_impl_setmask` takes its code `ans` and
changes the registration exactly when that is `YO_OK`; an operation takes its code
`res`; a round of `yo_queue_poll` takes a `PollEnv`.  A loop over a list answers
`none` when the list never ends, and a call through a word that is no callback
of the library answers `none` as well.
-/

namespace Yaooi

/-! ## Operations -/

/-- The operation a `yoa_*` function is asked for, with its arguments. -/
inductive YoaOp where
  | read (buff pn : Ptr)
  | write (buff pn : Ptr)
  | fileRead (buff pn : Ptr) (offset : BitVec 64)
  | fileWrite (buff pn : Ptr) (offset : BitVec 64)
  | socketAccept (pclient paddr pport : Ptr)
  deriving DecidableEq, Repr

/-- A synchronous operation on a handle: `yo_read`, `yo_write`, `yo_file_read`,
`yo_file_write` or `yo_socket_accept`. -/
structure SyncCall where
  fd : YoFdT
  op : YoaOp
  deriving DecidableEq, Repr

namespace YoaOp

def kind : YoaOp → YoiPlKind
  | read .. => .read
  | write .. => .write
  | fileRead .. => .pread
  | fileWrite .. => .pwrite
  | socketAccept .. => .accept

/-- The fields of `running.ioq` that the `yoa_*` function sets. -/
def fill (op : YoaOp) (h : YoFdT) (q : YoiReqIoq) : YoiReqIoq :=
  match op with
  | read buff pn => { q with kind := .read, fd := h, arg0 := buff, arg1 := pn }
  | write buff pn => { q with kind := .write, fd := h, arg0 := buff, arg1 := pn }
  | fileRead buff pn offset =>
    { q with kind := .pread, fd := h, arg0 := buff, arg1 := pn, arg2 := offset }
  | fileWrite buff pn offset =>
    { q with kind := .pwrite, fd := h, arg0 := buff, arg1 := pn, arg2 := offset }
  | socketAccept pclient paddr pport =>
    { q with kind := .accept, fd := h, arg0 := pclient, arg1 := paddr, arg2 := pport }

end YoaOp

/-- `_yoi_pl_tomask` -/
def yoiPlTomask : YoiPlKind → YoiPlEvnMask
  | .read | .pread | .accept => ⟨true, false⟩
  | .write | .pwrite => ⟨false, true⟩

namespace YoFd

/-- `read_n++` or `write_n++`, by the direction of the request. -/
def inc (fd : YoFd) (kind : YoiPlKind) : YoFd :=
  match kind with
  | .read | .pread | .accept => { fd with readN := fd.readN + 1 }
  | .write | .pwrite => { fd with writeN := fd.writeN + 1 }

/-- `read_n--` or `write_n--`, by the direction of the request. -/
def dec (fd : YoFd) (kind : YoiPlKind) : YoFd :=
  match kind with
  | .read | .pread | .accept => { fd with readN := fd.readN - 1 }
  | .write | .pwrite => { fd with writeN := fd.writeN - 1 }

/-- The directions whose counter is not zero. -/
def mask (fd : YoFd) : YoiPlEvnMask := ⟨fd.readN != 0, fd.writeN != 0⟩

/-- A handle without its list. -/
def bare (fd : YoFd) : YoFd := { fd with head := NULL }

end YoFd

/-! ## The functions of the backend -/

/-- What `yoi_pl_impl_poll` answers. -/
inductive OsPoll where
  /-- A code other than `YO_OK`, such as `YO_ETIMEOUT`. -/
  | error (code : YoCode)
  /-- The user data of a registration, and the directions reported ready. -/
  | event (udata : Ptr) (ready : YoiPlEvnMask)
  deriving DecidableEq, Repr

/-- What a round of `yo_queue_poll` meets: the event, the answer of
`yoi_pl_impl_setmask` when a request is stopped, and the code of its operation. -/
structure PollEnv where
  poll : OsPoll
  ans : YoCode
  res : YoCode
  deriving DecidableEq, Repr

/-- How a round of `yo_queue_poll` ends. -/
inductive PollStep where
  /-- `continue` -/
  | again
  /-- It returns the code of `yoi_pl_impl_poll`. -/
  | failed (code : YoCode)
  /-- It returns `YO_OK` with a request and its code, and performed the operation
  `ran` for it, if any. -/
  | returned (r : YoReqT) (code : YoCode) (ran : Option SyncCall)
  deriving DecidableEq, Repr

/-- The registration list after `yoi_pl_impl_setmask`, as `src/unix/pollish.h` documents
it: the mask `0` removes the descriptor, another one adds or modifies it. -/
def register (reg : Int → Option Registration) (fd : Int) (mask : YoiPlEvnMask) (udata : Ptr)
    (ans : YoCode) : Int → Option Registration :=
  if ans = .ok then
    Function.update reg fd (if mask = .zero then none else some ⟨mask, udata⟩)
  else reg

namespace Heap

/-- `yoi_pl_impl_setmask` -/
def yoiPlImplSetmask (m : Heap) (q : YoQueueT) (udata : Ptr) (fd : Int) (mask : YoiPlEvnMask)
    (ans : YoCode) : Heap :=
  m.setQueue q fun k => { k with reg := register k.reg fd mask udata ans }

/-- `_yoi_pl_req_do`: the operation it performs. -/
def yoiPlReqDo (r : YoReq) : SyncCall :=
  match r.ioq.kind with
  | .read => ⟨r.ioq.fd, .read r.ioq.arg0 r.ioq.arg1⟩
  | .write => ⟨r.ioq.fd, .write r.ioq.arg0 r.ioq.arg1⟩
  | .pread => ⟨r.ioq.fd, .fileRead r.ioq.arg0 r.ioq.arg1 r.ioq.arg2⟩
  | .pwrite => ⟨r.ioq.fd, .fileWrite r.ioq.arg0 r.ioq.arg1 r.ioq.arg2⟩
  | .accept => ⟨r.ioq.fd, .socketAccept r.ioq.arg0 r.ioq.arg1 r.ioq.arg2⟩

/-- The direction a request waits for. -/
def dir (m : Heap) (r : YoReqT) : YoiPlEvnMask := yoiPlTomask (m.req r).ioq.kind

/-- `_yoi_pl_get_req` -/
def yoiPlGetReq (m : Heap) (h : YoFdT) (ready : YoiPlEvnMask) : Option YoReqT :=
  Chain.seek m.ioq.next NULL (fun i => (yoiPlTomask (m.req i).ioq.kind).meets ready) rounds
    (m.fd h).head

/-- `_yoi_pl_req_start`: the memory, the code returned and the operation performed, if
any. -/
def yoiPlReqStart (m : Heap) (r : YoReqT) (ans res : YoCode) :
    Heap × YoCode × Option SyncCall :=
  let h := (m.req r).ioq.fd
  let m := m.setFd h (·.inc (m.req r).ioq.kind)
  let m := m.yoiPlImplSetmask (m.req r).queue h (m.fd h).fd (m.fd h).mask ans
  let m := m.yoiReqBegin r m.text.plReqCancel
  -- the descriptor cannot be polled: the operation runs here and now
  if ans = .eperm then (m.yoiReqEnd r res, .ok, some (yoiPlReqDo (m.req r)))
  else (m.yoiDlistAdd h r, ans, none)

/-- `_yoi_pl_req_stop` -/
def yoiPlReqStop (m : Heap) (r : YoReqT) (ans : YoCode) : Heap :=
  let h := (m.req r).ioq.fd
  let m := m.setFd h (·.dec (m.req r).ioq.kind)
  let mask := (m.fd h).mask
  let m := m.yoiDlistDel r
  m.yoiPlImplSetmask (m.req r).queue h (m.fd h).fd mask ans

/-- `_yoi_pl_req_cancel` -/
def yoiPlReqCancel (m : Heap) (r : YoReqT) (ans : YoCode) : Heap :=
  (m.yoiPlReqStop r ans).yoiReqEnd r .ecanceled

/-- The body of the loop of `yoi_unix_onclose`. -/
def oncloseBody (h : YoFdT) (ans : YoReqT → YoCode) (m : Heap) (i : YoReqT) : Heap :=
  (m.yoiPlImplSetmask (m.req i).queue NULL (m.fd h).fd .zero (ans i)).yoiReqEnd i .ecanceled

/-- `yoi_unix_onclose` -/
def yoiUnixOnclose (m : Heap) (h : YoFdT) (ans : YoReqT → YoCode) : Option Heap :=
  Chain.sweep (fun m i => (m.req i).ioq.next) NULL (oncloseBody h ans) rounds m (m.fd h).head

/-- One round of the loop of `yo_queue_poll`. -/
def yoQueuePollRound (m : Heap) (q : YoQueueT) (env : PollEnv) : Option (Heap × PollStep) :=
  match m.yoiQueuePop q with
  | (m, some (r, code)) => some (m, .returned r code none)
  | (m, none) =>
    match env.poll with
    | .error code => some (m, .failed code)
    | .event udata ready =>
      -- NULL is the notify pipe, which is emptied
      if udata = NULL then some (m, .again)
      else (m.yoiPlGetReq udata ready).map fun r =>
        if r = NULL then (m, .again)
        else
          let m := m.yoiPlReqStop r env.ans
          (m, .returned r env.res (some (yoiPlReqDo (m.req r))))

/-- What a round of `yo_queue_poll` does with the answer of `yoi_pl_impl_poll`. -/
def pollWait (m : Heap) (env : PollEnv) : Option (Heap × PollStep) :=
  match env.poll with
  | .error code => some (m, .failed code)
  | .event udata ready =>
    if udata = NULL then some (m, .again)
    else (m.yoiPlGetReq udata ready).map fun r =>
      if r = NULL then (m, .again)
      else
        let m := m.yoiPlReqStop r env.ans
        (m, .returned r env.res (some (yoiPlReqDo (m.req r))))

/-- A round of `yo_queue_poll` is a pop and, when it finds nothing, a wait. -/
theorem yoQueuePollRound_eq (m : Heap) (q : YoQueueT) (env : PollEnv) :
    m.yoQueuePollRound q env =
      match m.yoiQueuePop q with
      | (m, some (r, code)) => some (m, .returned r code none)
      | (m, none) => m.pollWait env := rfl

/-- `yo_queue_poll`, round by round; it ends with `again` when the answers run out, that
is while it is still waiting. -/
def yoQueuePoll (m : Heap) (q : YoQueueT) : List PollEnv → Option (Heap × PollStep)
  | [] => some (m, .again)
  | env :: envs =>
    match m.yoQueuePollRound q env with
    | some (m, .again) => m.yoQueuePoll q envs
    | out => out

/-- The steps of successive rounds of `yo_queue_poll`. -/
def pollRounds (m : Heap) (q : YoQueueT) : List PollEnv → Option (List PollStep)
  | [] => some []
  | env :: envs =>
    (m.yoQueuePollRound q env).bind fun p => (p.1.pollRounds q envs).map (p.2 :: ·)

/-- `yoi_unix_isfd` -/
def yoiUnixIsfd (fd : YoFd) : Bool := !fd.isAt

/-- What the five `yoa_*` functions have in common: the memory, the code returned and
the operation performed, if any. -/
def yoaStart (m : Heap) (r : YoReqT) (h : YoFdT) (op : YoaOp) (ans res : YoCode) :
    Heap × YoCode × Option SyncCall :=
  if yoiUnixIsfd (m.fd h) then
    (m.setReq r fun q => { q with ioq := op.fill h q.ioq }).yoiPlReqStart r ans res
  else (m, .ebadfd, none)

/-- `yoa_read` -/
def yoaRead (m : Heap) (r : YoReqT) (h : YoFdT) (buff pn : Ptr) (ans res : YoCode) :=
  m.yoaStart r h (.read buff pn) ans res

/-- `yoa_write` -/
def yoaWrite (m : Heap) (r : YoReqT) (h : YoFdT) (buff pn : Ptr) (ans res : YoCode) :=
  m.yoaStart r h (.write buff pn) ans res

/-- `yoa_file_read` -/
def yoaFileRead (m : Heap) (r : YoReqT) (h : YoFdT) (buff pn : Ptr) (offset : BitVec 64)
    (ans res : YoCode) :=
  m.yoaStart r h (.fileRead buff pn offset) ans res

/-- `yoa_file_write` -/
def yoaFileWrite (m : Heap) (r : YoReqT) (h : YoFdT) (buff pn : Ptr) (offset : BitVec 64)
    (ans res : YoCode) :=
  m.yoaStart r h (.fileWrite buff pn offset) ans res

/-- `yoa_socket_accept` -/
def yoaSocketAccept (m : Heap) (r : YoReqT) (server : YoFdT) (pclient paddr pport : Ptr)
    (ans res : YoCode) :=
  m.yoaStart r server (.socketAccept pclient paddr pport) ans res

/-- The `yoa_*` function for an operation. -/
def yoa (m : Heap) (r : YoReqT) (h : YoFdT) (op : YoaOp) (ans res : YoCode) :
    Heap × YoCode × Option SyncCall :=
  match op with
  | .read buff pn => m.yoaRead r h buff pn ans res
  | .write buff pn => m.yoaWrite r h buff pn ans res
  | .fileRead buff pn offset => m.yoaFileRead r h buff pn offset ans res
  | .fileWrite buff pn offset => m.yoaFileWrite r h buff pn offset ans res
  | .socketAccept pclient paddr pport => m.yoaSocketAccept r h pclient paddr pport ans res

theorem yoa_eq (m : Heap) (r : YoReqT) (h : YoFdT) (op : YoaOp) (ans res : YoCode) :
    m.yoa r h op ans res = m.yoaStart r h op ans res := by
  cases op <;> rfl

/-- `yo_req_new`, once `malloc` has answered with the address `r`. -/
def yoReqNew (m : Heap) (r : YoReqT) (q : YoQueueT) : Heap :=
  m.setReq r fun k => { k with queue := q }

/-- `yo_fd_new`, once `malloc` has answered with the address `h`.  No call makes a path handle:
on Linux there are none, and elsewhere `yoi_unix_mkat` copies the path to where nothing was
allocated. -/
def yoFdNew (m : Heap) (h : YoFdT) (fd : Int) (owned : Bool) : Heap :=
  m.setFd h fun _ =>
    { head := NULL, owned := owned, isAt := false, fd := fd, readN := 0, writeN := 0 }

/-! ## Cancellation -/

/-- `req->running.cancel(req)`: a call through the first word of the request. -/
def callCancel (m : Heap) (r : YoReqT) (ans : YoCode) : Option Heap :=
  let fn := (m.req r).cancel
  if fn = m.text.plReqCancel then some (m.yoiPlReqCancel r ans)
  -- `_yoi_pool_cancelcb` interrupts a thread
  else if fn = m.text.poolCancelcb then some m
  else if fn = m.text.noopCb then some (m.yoiReqCancelNoopCb r)
  else none

/-- `yo_req_cancel` -/
def yoReqCancel (m : Heap) (r : YoReqT) (ans : YoCode) : Option Heap :=
  if (m.req r).cancelled then some m
  else (m.callCancel r ans).map (·.setReq r (·.setCancelled true))

end Heap

end Yaooi
