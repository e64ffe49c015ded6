import Yaooi.Queue.Pollish
import Yaooi.Unix.Spawn
import Yaooi.Addr.Sockaddr

/-!
# Opening sockets

`yo_socket_connect`, `yo_socket_bind` and `yo_socket_accept` of `src/unix/impl.c`.  Each opens a
descriptor and has a ladder of labels for what may fail on the way.  The model keeps a trace of the
calls with how each of them ended, and `errno`, which a label may overwrite.

* `Untouched` and `Opened` say what holds before and after the descriptor is opened, with nothing
  failed so far; each exit of a ladder is one lemma about them.
* `socket_releases_iff`: the ladders of `yo_socket_bind` and `yo_socket_accept` are always right.
  In `yo_socket_connect` two labels are swapped, and every exit that goes through one of them is
  wrong: a socket that does not connect stays open, and -1 is closed where there is no socket.
-/

namespace Yaooi

/-! ## Calls -/

/-- `yo_proto_t` -/
inductive YoProto where
  | tcp
  | udp
  deriving DecidableEq, Repr

inductive SocketFamily where
  | inet
  | inet6
  deriving DecidableEq, Repr

inductive SocketType where
  | stream
  | dgram
  deriving DecidableEq, Repr

/-- A call of one of the functions, with its arguments. -/
inductive SocketCall where
  | malloc
  | free
  | socket (family : SocketFamily) (type : SocketType) (protocol : YoProto)
  /-- `SOL_SOCKET`, `SO_REUSEADDR`, to 1. -/
  | setsockopt (sock : ℕ)
  | connect (sock : ℕ) (addr : SockaddrStorage × ℕ)
  | bind (sock : ℕ) (addr : SockaddrStorage × ℕ)
  | listen (sock : ℕ) (backlog : ℤ)
  | accept (fd : ℤ)
  /-- The argument, which may be -1. -/
  | close (fd : Option ℕ)

/-- What is answered to the calls.  `stack` is what the structures for an address held before, and
`file` is what a new descriptor refers to. -/
structure SocketAnswers where
  /-- The memory for the handle. -/
  malloc : Option YoFd
  socket : Option Errno
  setsockopt : Option Errno
  connect : Option Errno
  bind : Option Errno
  listen : Option Errno
  accept : Option Errno
  /-- The address that `accept` stores. -/
  peer : SockaddrStorage
  stack : SockaddrIn × SockaddrIn6
  file : ℕ

/-- The descriptors of the process, `errno`, and the calls so far with the error of each. -/
structure SocketRun where
  fds : FdTable
  errno : Errno
  trace : List (SocketCall × Option Errno)

namespace SocketRun

/-- Before the first call. -/
def start (fds : FdTable) (errno : Errno) : SocketRun := ⟨fds, errno, []⟩

/-- A call that opens and closes nothing. -/
def call (s : SocketRun) (c : SocketCall) (fault : Option Errno) : SocketRun :=
  { s with errno := fault.getD s.errno, trace := s.trace ++ [(c, fault)] }

/-- A call that opens the lowest free descriptor, or answers -1. -/
def openFd (s : SocketRun) (c : SocketCall) (fault : Option Errno) (file : ℕ) :
    SocketRun × Option ℕ :=
  match fault with
  | some e => (s.call c (some e), none)
  | none =>
    ({ s.call c none with fds := s.fds.install s.fds.free ⟨.other file, false⟩ }, some s.fds.free)

/-- `close`, which only fails where the descriptor is not open. -/
def close (s : SocketRun) (fd : Option ℕ) : SocketRun :=
  match fd with
  | some n =>
    if (s.fds.lookup n).isSome then { s.call (.close fd) none with fds := s.fds.close n }
    else s.call (.close fd) (some .ebadf)
  | none => s.call (.close none) (some .ebadf)

/-- The error of the first call that failed. -/
def firstFault (s : SocketRun) : Option Errno := s.trace.findSome? Prod.snd

end SocketRun

/-- What a call leaves: the state of the process, what was assigned to `*pres`, to `*paddr` and
`*pport`, and the result. -/
structure SocketOutcome where
  run : SocketRun
  pres : Option YoFd
  peer : Option (YoAddr × BitVec 16)
  code : YoCode

/-! ## The functions -/

/-- `_yoi_unix_socket_new` -/
def yoiUnixSocketNew (s : SocketRun) (proto : YoProto) (addr : YoAddrType) (ans : SocketAnswers) :
    SocketRun × Option ℕ :=
  s.openFd (.socket (if addr = .ipv4 then .inet else .inet6)
    (if proto = .udp then .dgram else .stream) (if proto = .udp then .udp else .tcp)) ans.socket
    ans.file

/-- `yoi_unix_mkfd`, with `yoi_fd_ioq_init`. -/
def yoiUnixMkfd (res : YoFd) (fd : ℕ) : YoFd :=
  { res with owned := true, fd := fd, head := NULL, isAt := false, readN := 0, writeN := 0 }

/-- `free(res); return yoi_unix_conv_errno(errno);` -/
def SocketRun.giveUp (s : SocketRun) : SocketOutcome :=
  let s := s.call .free none
  ⟨s, none, none, yoiUnixConvErrno s.errno⟩

namespace YoSocketConnect

def errConnect (s : SocketRun) : SocketOutcome := s.giveUp

/-- It goes on with `err_connect`. -/
def errSocket (sock : Option ℕ) (s : SocketRun) : SocketOutcome := errConnect (s.close sock)

end YoSocketConnect

/-- `yo_socket_connect` -/
def yoSocketConnect (o : ByteOrder) (proto : YoProto) (addr : YoAddr) (port : BitVec 16)
    (ans : SocketAnswers) (s : SocketRun) : SocketOutcome :=
  match ans.malloc with
  | none => ⟨s.call .malloc (some .enomem), none, none, .enomem⟩
  | some client =>
    let argAddr := yoiUnixConvAddr o addr port ans.stack.1 ans.stack.2
    match yoiUnixSocketNew (s.call .malloc none) proto addr.type ans with
    | (s, none) => YoSocketConnect.errSocket none s
    | (s, some sock) =>
      let s := s.call (.connect sock argAddr) ans.connect
      if ans.connect.isSome then YoSocketConnect.errConnect s
      else ⟨s, some (yoiUnixMkfd client sock), none, .ok⟩

namespace YoSocketBind

def errSocket (s : SocketRun) : SocketOutcome := s.giveUp

def errSetsockopt (sock : ℕ) (s : SocketRun) : SocketOutcome := errSocket (s.close (some sock))

def errBind (sock : ℕ) (s : SocketRun) : SocketOutcome := errSetsockopt sock s

def errListen (sock : ℕ) (s : SocketRun) : SocketOutcome := errBind sock s

end YoSocketBind

/-- `yo_socket_bind`; `listen` takes the low 32 bits of `max_n`. -/
def yoSocketBind (o : ByteOrder) (proto : YoProto) (addr : YoAddr) (port : BitVec 16)
    (maxN : BitVec 64) (ans : SocketAnswers) (s : SocketRun) : SocketOutcome :=
  match ans.malloc with
  | none => ⟨s.call .malloc (some .enomem), none, none, .enomem⟩
  | some server =>
    match yoiUnixSocketNew (s.call .malloc none) proto addr.type ans with
    | (s, none) => YoSocketBind.errSocket s
    | (s, some sock) =>
      let s := s.call (.setsockopt sock) ans.setsockopt
      if ans.setsockopt.isSome then YoSocketBind.errSetsockopt sock s
      else
        let s := s.call (.bind sock (yoiUnixConvAddr o addr port ans.stack.1 ans.stack.2)) ans.bind
        if ans.bind.isSome then YoSocketBind.errBind sock s
        else
          let s := s.call (.listen sock (maxN.setWidth 32).toInt) ans.listen
          if ans.listen.isSome then YoSocketBind.errListen sock s
          else ⟨s, some (yoiUnixMkfd server sock), none, .ok⟩

/-- `yo_socket_accept`; `paddr` is what `*paddr` holds before. -/
def yoSocketAccept (o : ByteOrder) (server : YoFd) (paddr : YoAddr) (ans : SocketAnswers)
    (s : SocketRun) : SocketOutcome :=
  if Heap.yoiUnixIsfd server then
    match ans.malloc with
    | none => ⟨s.call .malloc (some .enomem), none, none, .enomem⟩
    | some client =>
      let s := s.call .malloc none
      match s.openFd (.accept server.fd) ans.accept ans.file with
      | (s, none) => s.giveUp
      | (s, some res) =>
        ⟨s, some (yoiUnixMkfd client res), some (yoiUnixConvSockaddr o ans.peer paddr), .ok⟩
  else ⟨s, none, none, .ebadfd⟩

/-- A call of one of the three. -/
inductive SocketOp where
  | connect (proto : YoProto) (addr : YoAddr) (port : BitVec 16)
  | bind (proto : YoProto) (addr : YoAddr) (port : BitVec 16) (maxN : BitVec 64)
  | accept (server : YoFd) (paddr : YoAddr)

namespace SocketOp

def perform (o : ByteOrder) (ans : SocketAnswers) (s : SocketRun) : SocketOp → SocketOutcome
  | connect proto addr port => yoSocketConnect o proto addr port ans s
  | bind proto addr port maxN => yoSocketBind o proto addr port maxN ans s
  | accept server paddr => yoSocketAccept o server paddr ans s

/-- It was not asked to accept on a path. -/
def onFd : SocketOp → Bool
  | accept server _ => Heap.yoiUnixIsfd server
  | _ => true

/-- The call does not go through a label of `yo_socket_connect`. -/
def LabelsRight (ans : SocketAnswers) : SocketOp → Prop
  | connect .. => ans.malloc = none ∨ ans.socket = none ∧ ans.connect = none
  | _ => True

end SocketOp

/-! ## What is to be released -/

/-- After an error the same descriptors are open, nothing was stored, and the code is that of the
call that failed first.  `close` was only called with open descriptors.  After a success there is
one more descriptor, which the handle owns. -/
structure SocketOutcome.Releases (out : SocketOutcome) (op : SocketOp) (fds : FdTable) : Prop where
  restored : out.code ≠ .ok → ∀ k, out.run.fds.lookup k = fds.lookup k
  unstored : out.code ≠ .ok → out.pres = none
  error : out.code ≠ .ok → op.onFd = true →
    ∃ e, out.run.firstFault = some e ∧ out.code = yoiUnixConvErrno e
  closes : ∀ fd fault, (SocketCall.close fd, fault) ∈ out.run.trace → fault = none
  owned : out.code = .ok → ∃ fd d h, fds.lookup fd = none ∧
    (∀ k, out.run.fds.lookup k = if k = fd then some d else fds.lookup k) ∧
      out.pres = some h ∧ h.owned = true ∧ h.fd = fd

namespace SocketRun

variable {s : SocketRun} {fds : FdTable} {fd n file : ℕ} {c : SocketCall} {e : Errno}
  {fault : Option Errno} {op : SocketOp}

/-- No call has failed. -/
def Flawless (s : SocketRun) : Prop := ∀ p ∈ s.trace, p.2 = none

/-- The same descriptors are open. -/
def Untouched (s : SocketRun) (fds : FdTable) : Prop := ∀ k, s.fds.lookup k = fds.lookup k

/-- One more is open. -/
def Opened (s : SocketRun) (fds : FdTable) (fd file : ℕ) : Prop :=
  fds.lookup fd = none ∧
    ∀ k, s.fds.lookup k = if k = fd then some ⟨.other file, false⟩ else fds.lookup k

@[simp] theorem trace_call : (s.call c fault).trace = s.trace ++ [(c, fault)] := rfl

theorem flawless_start (errno : Errno) : (start fds errno).Flawless := by
  intro p hp
  exact absurd hp List.not_mem_nil

theorem Flawless.call (h : s.Flawless) : (s.call c none).Flawless := by
  intro p hp
  rcases List.mem_append.mp hp with hp | hp
  · exact h p hp
  · rw [List.mem_singleton.mp hp]

theorem Untouched.call (h : s.Untouched fds) : (s.call c fault).Untouched fds := h

theorem Opened.call (h : s.Opened fds fd file) : (s.call c fault).Opened fds fd file := h

/-- The first call that fails stays the first, whatever is called after it. -/
theorem Flawless.firstFault_fail (h : s.Flawless) : (s.call c (some e)).firstFault = some e := by
  have hnone : s.trace.findSome? Prod.snd = none := List.findSome?_eq_none_iff.mpr h
  rw [firstFault, trace_call, List.findSome?_append, hnone]
  rfl

theorem firstFault_call (h : s.firstFault = some e) : (s.call c fault).firstFault = some e := by
  rw [firstFault] at h
  rw [firstFault, trace_call, List.findSome?_append, h]
  rfl

/-! ## The exits -/

/-- No descriptor was closed that is not open. -/
def ClosesOpen (s : SocketRun) : Prop :=
  ∀ fd fault, (SocketCall.close fd, fault) ∈ s.trace → fault = none

theorem Flawless.closesOpen (h : s.Flawless) : s.ClosesOpen := by
  intro fd fault hmem
  exact h _ hmem

theorem ClosesOpen.call (h : s.ClosesOpen) (hc : ∀ fd, c = .close fd → fault = none) :
    (s.call c fault).ClosesOpen := by
  intro fd fault' hmem
  rcases List.mem_append.mp hmem with hmem | hmem
  · exact h fd fault' hmem
  · obtain ⟨hcall, rfl⟩ := Prod.mk.inj (List.mem_singleton.mp hmem)
    exact hc fd hcall.symm

/-- The end of a ladder, where everything was put back. -/
theorem releases_giveUp (hfds : s.Untouched fds) (hfault : s.firstFault = some s.errno)
    (hcloses : s.ClosesOpen) : s.giveUp.Releases op fds where
  restored _ := hfds
  unstored _ := rfl
  error _ _ := ⟨s.errno, firstFault_call hfault, rfl⟩
  closes := hcloses.call (by intro fd hfree; cases hfree)
  owned hok := absurd hok (yoiUnixConvErrno_ne_ok s.errno)

/-- Closing the descriptor that was opened puts back what was open before. -/
theorem Opened.untouched_close (h : s.Opened fds fd file) : (s.close (some fd)).Untouched fds := by
  intro k
  have hopen : (s.fds.lookup fd).isSome := by rw [h.2 fd, if_pos rfl]; rfl
  simp only [close, hopen, if_true, FdTable.lookup_close]
  by_cases hk : k = fd
  · rw [if_pos hk, hk, h.1]
  · rw [if_neg hk, h.2 k, if_neg hk]

theorem Opened.close_eq (h : s.Opened fds fd file) :
    s.close (some fd) = { s.call (.close (some fd)) none with fds := s.fds.close fd } := by
  have hopen : (s.fds.lookup fd).isSome := by rw [h.2 fd, if_pos rfl]; rfl
  rw [close, if_pos hopen]

/-- **A call after the descriptor was opened fails**: the descriptor is closed, and `close` leaves
`errno` as it is. -/
theorem Opened.releases_close (h : s.Opened fds fd file) (hs : s.Flawless)
    (hc : ∀ n, c ≠ .close n) :
    ((s.call c (some e)).close (some fd)).giveUp.Releases op fds := by
  have hopened : (s.call c (some e)).Opened fds fd file := h.call
  apply releases_giveUp hopened.untouched_close
  · rw [hopened.close_eq]
    exact firstFault_call hs.firstFault_fail
  · rw [hopened.close_eq]
    have hcloses : (s.call c (some e)).ClosesOpen :=
      hs.closesOpen.call (by intro n hn; exact absurd hn (hc n))
    exact hcloses.call (by intro n _; rfl)

/-- A call fails before there is a descriptor. -/
theorem Untouched.releases_fail (h : s.Untouched fds) (hs : s.Flawless)
    (hc : ∀ n, c ≠ .close n) : (s.call c (some e)).giveUp.Releases op fds :=
  releases_giveUp h hs.firstFault_fail
    (hs.closesOpen.call (by intro n hn; exact absurd hn (hc n)))

/-- There is no memory for the handle. -/
theorem Untouched.releases_nomem (h : s.Untouched fds) (hs : s.Flawless) :
    SocketOutcome.Releases ⟨s.call .malloc (some .enomem), none, none, .enomem⟩ op fds where
  restored _ := h
  unstored _ := rfl
  error _ _ := ⟨.enomem, hs.firstFault_fail, rfl⟩
  closes := hs.closesOpen.call (by intro fd hmalloc; cases hmalloc)
  owned hok := absurd hok (by decide : YoCode.enomem ≠ .ok)

/-- The descriptor is handed to the caller. -/
theorem Opened.releases_ok {peer : Option (YoAddr × BitVec 16)} (h : s.Opened fds fd file)
    (hs : s.Flawless) (res : YoFd) :
    SocketOutcome.Releases ⟨s, some (yoiUnixMkfd res fd), peer, .ok⟩ op fds where
  restored hne := absurd rfl hne
  unstored hne := absurd rfl hne
  error hne := absurd rfl hne
  closes := hs.closesOpen
  owned _ := ⟨fd, _, _, h.1, h.2, rfl, rfl, rfl⟩

/-- **A descriptor that stays open.** -/
theorem Opened.not_releases_giveUp (h : s.Opened fds fd file) : ¬ s.giveUp.Releases op fds := by
  intro hrel
  have hsame := hrel.restored (yoiUnixConvErrno_ne_ok s.errno) fd
  have hopen := h.2 fd
  rw [if_pos rfl] at hopen
  rw [h.1] at hsame
  exact absurd (hopen.symm.trans hsame) (by simp)

/-- **-1 is closed.** -/
theorem not_releases_close_none : ¬ (s.close none).giveUp.Releases op fds := by
  intro hrel
  have hmem : (SocketCall.close none, some Errno.ebadf) ∈ (s.close none).giveUp.run.trace := by
    simp [close, giveUp]
  exact absurd (hrel.closes none _ hmem) (by simp)

/-- What is open after a descriptor was opened. -/
theorem Untouched.opened (h : s.Untouched fds) (hs : s.Flawless) (c : SocketCall) (file : ℕ) :
    ∃ s' fd, s.openFd c none file = (s', some fd) ∧ s'.Opened fds fd file ∧ s'.Flawless := by
  refine ⟨_, _, rfl, ⟨?_, ?_⟩, hs.call (c := c)⟩
  · rw [← h]
    exact FdTable.lookup_free s.fds
  · intro k
    rw [FdTable.lookup_install, h k]

/-- What is open after `_yoi_unix_socket_new`, where `socket` does not fail. -/
theorem Untouched.opened_socketNew {ans : SocketAnswers} (h : s.Untouched fds) (hs : s.Flawless)
    (hsocket : ans.socket = none) (proto : YoProto) (addr : YoAddrType) :
    ∃ s' fd, yoiUnixSocketNew s proto addr ans = (s', some fd) ∧ s'.Opened fds fd ans.file ∧
      s'.Flawless := by
  rw [yoiUnixSocketNew, hsocket]
  exact h.opened hs _ ans.file

end SocketRun

/-! ## The three functions -/

open SocketRun

variable {s : SocketRun} {fds : FdTable} {op : SocketOp} {o : ByteOrder} {ans : SocketAnswers}

/-- The ladder of `yo_socket_accept` has one rung. -/
theorem yoSocketAccept_releases (server : YoFd) (paddr : YoAddr) (h : s.Untouched fds)
    (hs : s.Flawless) :
    (yoSocketAccept o server paddr ans s).Releases (.accept server paddr) fds := by
  unfold yoSocketAccept
  by_cases hfd : Heap.yoiUnixIsfd server = true
  · rw [if_pos hfd]
    cases hmem : ans.malloc with
    | none => exact h.releases_nomem hs
    | some client =>
      simp only
      cases haccept : ans.accept with
      | some e => exact h.call.releases_fail hs.call (by simp)
      | none =>
        obtain ⟨s', fd, heq, hopen, hs'⟩ := h.call.opened hs.call (.accept server.fd) ans.file
        rw [heq]
        exact hopen.releases_ok hs' client
  · rw [if_neg hfd]
    exact ⟨fun _ => h, fun _ => rfl, fun _ hon => absurd hon hfd, hs.closesOpen,
      fun hok => absurd hok (by decide : YoCode.ebadfd ≠ .ok)⟩

/-- Each label of `yo_socket_bind` undoes what was done before the jump to it. -/
theorem yoSocketBind_releases (proto : YoProto) (addr : YoAddr) (port : BitVec 16)
    (maxN : BitVec 64) (h : s.Untouched fds) (hs : s.Flawless) :
    (yoSocketBind o proto addr port maxN ans s).Releases op fds := by
  unfold yoSocketBind
  cases hmem : ans.malloc with
  | none => exact h.releases_nomem hs
  | some server =>
    simp only
    cases hsocket : ans.socket with
    | some e =>
      rw [yoiUnixSocketNew, hsocket]
      exact h.call.releases_fail hs.call (by simp)
    | none =>
      obtain ⟨s', fd, heq, hopen, hs'⟩ := h.call.opened_socketNew hs.call hsocket proto addr.type
      rw [heq]
      simp only
      cases hset : ans.setsockopt with
      | some e => exact hopen.releases_close hs' (by simp)
      | none =>
        cases hbind : ans.bind with
        | some e => exact hopen.call.releases_close hs'.call (by simp)
        | none =>
          cases hlisten : ans.listen with
          | some e => exact hopen.call.call.releases_close hs'.call.call (by simp)
          | none => exact hopen.call.call.call.releases_ok hs'.call.call.call server

/-- The labels of `yo_socket_connect` are swapped. -/
theorem yoSocketConnect_releases_iff (proto : YoProto) (addr : YoAddr) (port : BitVec 16)
    (h : s.Untouched fds) (hs : s.Flawless) :
    (yoSocketConnect o proto addr port ans s).Releases op fds ↔
      SocketOp.LabelsRight ans (.connect proto addr port) := by
  unfold yoSocketConnect SocketOp.LabelsRight
  cases hmem : ans.malloc with
  | none => exact iff_of_true (h.releases_nomem hs) (Or.inl rfl)
  | some client =>
    simp only
    cases hsocket : ans.socket with
    | some e =>
      rw [yoiUnixSocketNew, hsocket]
      exact iff_of_false not_releases_close_none (by simp)
    | none =>
      obtain ⟨s', fd, heq, hopen, hs'⟩ := h.call.opened_socketNew hs.call hsocket proto addr.type
      rw [heq]
      simp only
      cases hconnect : ans.connect with
      | some e => exact iff_of_false hopen.call.not_releases_giveUp (by simp)
      | none => exact iff_of_true (hopen.call.releases_ok hs'.call client) (by simp)

/-- **Opening a socket.**  Whatever is open, and whichever calls fail, `yo_socket_bind` and
`yo_socket_accept` put back what was open before they report the error of the call that failed, and
a success opens one descriptor; `yo_socket_connect` does so if and only if there is no memory for
the handle, or neither `socket` nor `connect` fails. -/
theorem socket_releases_iff (o : ByteOrder) (op : SocketOp) (ans : SocketAnswers) (fds : FdTable)
    (errno : Errno) :
    (op.perform o ans (.start fds errno)).Releases op fds ↔ op.LabelsRight ans := by
  have hfds : (SocketRun.start fds errno).Untouched fds := fun _ => rfl
  have hs : (SocketRun.start fds errno).Flawless := flawless_start errno
  cases op with
  | connect proto addr port => exact yoSocketConnect_releases_iff proto addr port hfds hs
  | bind proto addr port maxN =>
    exact iff_of_true (yoSocketBind_releases proto addr port maxN hfds hs) trivial
  | accept server paddr =>
    exact iff_of_true (yoSocketAccept_releases server paddr hfds hs) trivial

/-- Answers where two calls may fail. -/
def failing (socket connect : Option Errno) : SocketAnswers where
  malloc := some ⟨NULL, false, false, 0, 0, 0⟩
  socket := socket
  setsockopt := none
  connect := connect
  bind := none
  listen := none
  accept := none
  peer := .inet ⟨fun _ => 0, fun _ => 0, fun _ => 0⟩
  stack := (⟨fun _ => 0, fun _ => 0, fun _ => 0⟩, ⟨fun _ => 0, fun _ => 0, fun _ => 0, fun _ => 0⟩)
  file := 0

/-- A connection to port 80 of `0.0.0.0`, in a process with no descriptors. -/
def connectFailing (socket connect : Option Errno) : SocketOutcome :=
  yoSocketConnect .little .tcp ⟨.ipv4, fun _ => 0⟩ 80#16 (failing socket connect) (.start [] .eperm)

/-- A refused connection leaves the socket open.  Where there is no descriptor left for it, the
code is the one of closing -1. -/
theorem socketConnect_not_releases :
    ((connectFailing none (some .econnrefused)).code = .econnrefused ∧
      (connectFailing none (some .econnrefused)).run.fds.lookup 0 = some ⟨.other 0, false⟩ ∧
      FdTable.lookup [] 0 = none) ∧
    ((connectFailing (some .emfile) none).run.firstFault = some .emfile ∧
      (connectFailing (some .emfile) none).code = .ebadfd ∧
      yoiUnixConvErrno .emfile = .enoresource ∧ YoCode.ebadfd ≠ YoCode.enoresource) ∧
    ¬ ((connectFailing none (some .econnrefused)).Releases
      (.connect .tcp ⟨.ipv4, fun _ => 0⟩ 80#16) []) := by
  refine ⟨⟨rfl, rfl, rfl⟩, ⟨rfl, rfl, rfl, by decide⟩, ?_⟩
  intro hrel
  have hsame := hrel.restored (by decide : YoCode.econnrefused ≠ .ok) 0
  exact absurd hsame (by decide : (some (Desc.mk (.other 0) false)) ≠ none)

end Yaooi
