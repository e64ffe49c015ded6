import Mathlib.Data.Fintype.Card
import Mathlib.Data.FinEnum
import Mathlib.Logic.Function.Basic
import Yaooi.Lib.Chain
import Yaooi.Lib.SlotList

/-!
# The memory of a queue

The data of `src/queue.h`, `src/unix/pollish.h` and `src/unix/impl.h`: requests,
handles and queues, as they lie in memory on a little-endian machine with
64-bit pointers.

A request is the point of interest.  Its `running` and `ready` forms are members
of one union: the callback pointer `running.cancel` and the result `ready.code`
share the first word, the byte `running.cancelled` and the pointer `ready.next`
share the second.  `YoReq` keeps the two words, and every member is read from
and written to its own bits of them.
-/

namespace Yaooi

/-! ## Addresses, codes and event masks -/

/-- An address. -/
abbrev Ptr := BitVec 64

/-- The null pointer. -/
abbrev NULL : Ptr := 0#64

/-- `yo_req_t`, `yo_fd_t` and `yo_queue_t` are pointers to the structures below. -/
abbrev YoReqT := Ptr
@[inherit_doc YoReqT] abbrev YoFdT := Ptr
@[inherit_doc YoReqT] abbrev YoQueueT := Ptr

/-- `yo_code_t`.  Every 32-bit value can occur: the code of a pool request is
whatever `int` its worker function returned. -/
abbrev YoCode := BitVec 32

namespace YoCode

def ok : YoCode := 0
def ecanceled : YoCode := -2
def etimeout : YoCode := -3
def eperm : YoCode := -5
def ebadfd : YoCode := -21
def enomem : YoCode := -34

end YoCode

/-- `yoi_pl_evn_mask_t`: a set of the bits `YOI_PL_READABLE` and `YOI_PL_WRITABLE`. -/
structure YoiPlEvnMask where
  readable : Bool
  writable : Bool
  deriving DecidableEq, Repr

namespace YoiPlEvnMask

/-- The mask `0`. -/
def zero : YoiPlEvnMask := ⟨false, false⟩

/-- `a & b`, as a condition. -/
def meets (a b : YoiPlEvnMask) : Bool :=
  (a.readable && b.readable) || (a.writable && b.writable)

end YoiPlEvnMask

/-- `yoi_pl_kind_t` -/
inductive YoiPlKind where
  | read
  | write
  | pread
  | pwrite
  | accept
  deriving DecidableEq, Repr

/-! ## Requests -/

/-- `yoi_req_ioq_t`: what a request needs while it waits on a handle.  The last three
words are the union of `rw` (`buff`, `pn`, `ptr`) and `accept` (`pclient`, `paddr`,
`pport`). -/
structure YoiReqIoq where
  next : YoReqT
  slot : SlotList.Cell YoFdT YoReqT
  fd : YoFdT
  kind : YoiPlKind
  arg0 : BitVec 64
  arg1 : BitVec 64
  arg2 : BitVec 64

/-- `struct yo_req` -/
structure YoReq where
  queue : YoQueueT
  /-- `running.cancel`; its low half is `ready.code`. -/
  word0 : BitVec 64
  /-- `ready.next`; its low byte is `running.cancelled`. -/
  word1 : BitVec 64
  ioq : YoiReqIoq

namespace YoReq

/-- `running.cancel` -/
def cancel (r : YoReq) : Ptr := r.word0

/-- `running.cancelled`: a byte, true when it is not zero. -/
def cancelled (r : YoReq) : Bool := r.word1.setWidth 8 ≠ 0#8

/-- `ready.code` -/
def code (r : YoReq) : YoCode := r.word0.setWidth 32

/-- `ready.next` -/
def next (r : YoReq) : YoReqT := r.word1

def setCancel (r : YoReq) (fn : Ptr) : YoReq := { r with word0 := fn }

def setCancelled (r : YoReq) (b : Bool) : YoReq :=
  { r with word1 := r.word1.extractLsb' 8 56 ++ (BitVec.ofBool b).setWidth 8 }

def setCode (r : YoReq) (c : YoCode) : YoReq :=
  { r with word0 := r.word0.extractLsb' 32 32 ++ c }

def setNext (r : YoReq) (p : YoReqT) : YoReq := { r with word1 := p }

variable (r : YoReq) (fn p : Ptr) (c : YoCode) (b : Bool)

@[simp] theorem cancel_setCancel : (r.setCancel fn).cancel = fn := rfl
@[simp] theorem next_setCancel : (r.setCancel fn).next = r.next := rfl
@[simp] theorem cancelled_setCancel : (r.setCancel fn).cancelled = r.cancelled := rfl
@[simp] theorem cancel_setCancelled : (r.setCancelled b).cancel = r.cancel := rfl
@[simp] theorem code_setCancelled : (r.setCancelled b).code = r.code := rfl
@[simp] theorem next_setCode : (r.setCode c).next = r.next := rfl
@[simp] theorem cancelled_setCode : (r.setCode c).cancelled = r.cancelled := rfl
@[simp] theorem next_setNext : (r.setNext p).next = p := rfl
@[simp] theorem cancel_setNext : (r.setNext p).cancel = r.cancel := rfl
@[simp] theorem code_setNext : (r.setNext p).code = r.code := rfl

@[simp] theorem queue_setCancel : (r.setCancel fn).queue = r.queue := rfl
@[simp] theorem queue_setCancelled : (r.setCancelled b).queue = r.queue := rfl
@[simp] theorem queue_setCode : (r.setCode c).queue = r.queue := rfl
@[simp] theorem queue_setNext : (r.setNext p).queue = r.queue := rfl
@[simp] theorem ioq_setCancel : (r.setCancel fn).ioq = r.ioq := rfl
@[simp] theorem ioq_setCancelled : (r.setCancelled b).ioq = r.ioq := rfl
@[simp] theorem ioq_setCode : (r.setCode c).ioq = r.ioq := rfl
@[simp] theorem ioq_setNext : (r.setNext p).ioq = r.ioq := rfl

@[simp] theorem code_setCode : (r.setCode c).code = c :=
  BitVec.setWidth_append_eq_right

/-- Writing the flag writes the low byte of the second word. -/
theorem lowByte_setCancelled :
    (r.setCancelled b).word1.setWidth 8 = (BitVec.ofBool b).setWidth 8 :=
  BitVec.setWidth_append_eq_right

@[simp] theorem cancelled_setCancelled : (r.setCancelled b).cancelled = b := by
  unfold cancelled
  rw [lowByte_setCancelled]
  cases b <;> decide

end YoReq

/-! ## Handles, queues and the heap -/

/-- `struct yo_fd`, with the two counters of `yoi_fd_ioq_t`.  On Linux there are no
path handles: `isAt` is never set. -/
structure YoFd where
  head : YoReqT
  owned : Bool
  isAt : Bool
  fd : Int
  readN : BitVec 32
  writeN : BitVec 32

/-- A descriptor's entry in the OS's registration list: the events asked for and the
user data reported with them. -/
structure Registration where
  mask : YoiPlEvnMask
  udata : Ptr
  deriving DecidableEq

/-- `struct yo_queue`: the head of the ready list, the read end of the notify pipe,
and the registrations that the backend keeps for the queue, by descriptor. -/
structure YoQueue where
  head : YoReqT
  notifyRead : Int
  reg : Int → Option Registration

/-- Where the linker put the functions a request may name as its cancel callback. -/
structure Callbacks where
  plReqCancel : Ptr
  poolCancelcb : Ptr
  noopCb : Ptr

/-- The memory: a request, a handle and a queue at each address. -/
structure Heap where
  req : YoReqT → YoReq
  fd : YoFdT → YoFd
  queue : YoQueueT → YoQueue
  text : Callbacks

namespace Heap

def setReq (m : Heap) (r : YoReqT) (f : YoReq → YoReq) : Heap :=
  { m with req := Function.update m.req r (f (m.req r)) }

def setFd (m : Heap) (h : YoFdT) (f : YoFd → YoFd) : Heap :=
  { m with fd := Function.update m.fd h (f (m.fd h)) }

def setQueue (m : Heap) (q : YoQueueT) (f : YoQueue → YoQueue) : Heap :=
  { m with queue := Function.update m.queue q (f (m.queue q)) }

/-- The fields `fd->head`, `ioq.next` and `ioq.slot`, as the store of the slot-linked
lists that thread the requests of each handle. -/
def ioq (m : Heap) : SlotList.Store YoFdT YoReqT where
  head h := (m.fd h).head
  next r := (m.req r).ioq.next
  slot r := (m.req r).ioq.slot

/-- The memory after an operation on those lists. -/
def setIoq (m : Heap) (s : SlotList.Store YoFdT YoReqT) : Heap :=
  { m with
    req := fun r =>
      { m.req r with ioq := { (m.req r).ioq with next := s.next r, slot := s.slot r } }
    fd := fun h => { m.fd h with head := s.head h } }

/-- `yoi_dlist_add(req_ioq, fd->head, req)` -/
def yoiDlistAdd (m : Heap) (h : YoFdT) (r : YoReqT) : Heap := m.setIoq (m.ioq.add NULL h r)

/-- `yoi_dlist_del(req_ioq, req)` -/
def yoiDlistDel (m : Heap) (r : YoReqT) : Heap := m.setIoq (m.ioq.del NULL r)

/-- More rounds than a loop over a list can make unless the list never ends: there
are only so many addresses. -/
def rounds : ℕ := 2 ^ 64

/-- The requests on a handle's list, `none` when following it never ends. -/
def handleList (m : Heap) (h : YoFdT) : Option (List YoReqT) :=
  Chain.walk m.ioq.next NULL rounds (m.fd h).head

/-- The requests on a queue's ready list with their codes, `none` when following it
never ends. -/
def readyList (m : Heap) (q : YoQueueT) : Option (List (YoReqT × YoCode)) :=
  (Chain.walk (fun r => (m.req r).next) NULL rounds (m.queue q).head).map
    (·.map fun r => (r, (m.req r).code))

variable (m : Heap) (r x : YoReqT) (h g : YoFdT) (q k : YoQueueT)

theorem req_setReq (f : YoReq → YoReq) :
    (m.setReq r f).req x = if x = r then f (m.req r) else m.req x :=
  Function.update_apply ..

@[simp] theorem req_setReq_self (f : YoReq → YoReq) : (m.setReq r f).req r = f (m.req r) :=
  Function.update_self ..

@[simp] theorem fd_setReq (f : YoReq → YoReq) : (m.setReq r f).fd = m.fd := rfl
@[simp] theorem queue_setReq (f : YoReq → YoReq) : (m.setReq r f).queue = m.queue := rfl
@[simp] theorem text_setReq (f : YoReq → YoReq) : (m.setReq r f).text = m.text := rfl

theorem fd_setFd (f : YoFd → YoFd) :
    (m.setFd h f).fd g = if g = h then f (m.fd h) else m.fd g :=
  Function.update_apply ..

@[simp] theorem req_setFd (f : YoFd → YoFd) : (m.setFd h f).req = m.req := rfl
@[simp] theorem queue_setFd (f : YoFd → YoFd) : (m.setFd h f).queue = m.queue := rfl
@[simp] theorem text_setFd (f : YoFd → YoFd) : (m.setFd h f).text = m.text := rfl

theorem queue_setQueue (f : YoQueue → YoQueue) :
    (m.setQueue q f).queue k = if k = q then f (m.queue q) else m.queue k :=
  Function.update_apply ..

@[simp] theorem req_setQueue (f : YoQueue → YoQueue) : (m.setQueue q f).req = m.req := rfl
@[simp] theorem fd_setQueue (f : YoQueue → YoQueue) : (m.setQueue q f).fd = m.fd := rfl
@[simp] theorem text_setQueue (f : YoQueue → YoQueue) : (m.setQueue q f).text = m.text := rfl
@[simp] theorem ioq_setQueue (f : YoQueue → YoQueue) : (m.setQueue q f).ioq = m.ioq := rfl

@[simp] theorem ioq_setIoq (s : SlotList.Store YoFdT YoReqT) : (m.setIoq s).ioq = s := rfl
@[simp] theorem queue_setIoq (s : SlotList.Store YoFdT YoReqT) :
    (m.setIoq s).queue = m.queue := rfl
@[simp] theorem text_setIoq (s : SlotList.Store YoFdT YoReqT) : (m.setIoq s).text = m.text := rfl

/-- A chain of requests that ends has fewer nodes than the loops make rounds. -/
theorem length_lt_rounds {next : YoReqT → YoReqT} {p : YoReqT} {l : List YoReqT}
    (hc : Chain.IsChain next NULL p l) : l.length < rounds := by
  rw [rounds, ← FinEnum.card_bitVec, FinEnum.card_eq_fintypeCard]
  exact hc.length_lt_card

/-- A represented list is what following the pointers yields. -/
theorem handleList_eq {l : List YoReqT} (hs : SlotList.Seg NULL m.ioq (.head h) l) :
    m.handleList h = some l :=
  Chain.walk_eq_some.mpr ⟨hs.isChain, length_lt_rounds hs.isChain⟩

end Heap

end Yaooi
