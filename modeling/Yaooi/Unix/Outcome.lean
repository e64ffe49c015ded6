import Yaooi.Lib.Transition
import Yaooi.Unix.Spawn

/-!
# The outcome of a child process

`yo_proc_spawn` and `yo_proc_wait` of `src/unix/impl.c`, as two processes that take turns: the
parent reads from the status pipe, which tells it whether the child has executed its program.  The
write end has `FD_CLOEXEC`, so the pipe comes to its end when `execve` succeeds; where something
fails the child writes `errno` into it.

* `Proc.system` are the two processes, and `ProcState.Reports` says what is to be reported.
* `procWaitStore_eq_report`: what `yo_proc_wait` stores is right for a child that has exited, and
  not for one that a signal has ended.
* `ChildInv.step`: what every step of the child keeps.
-/

namespace Yaooi

open Transition

/-! ## How a process ends -/

/-- How a process ends: with the low eight bits of what it gives to `exit`, or by a signal. -/
inductive Ending where
  | exited (code : ℕ)
  | signalled (sig : ℕ) (core : Bool)
  deriving DecidableEq, Repr

/-- The status that `waitpid` stores. -/
def Ending.status : Ending → ℕ
  | .exited code => code % 256 * 256
  | .signalled sig core => sig + if core then 128 else 0

/-- `WTERMSIG`: `status & 0x7f` -/
def wtermsig (status : ℕ) : ℕ := status % 128

/-- `WIFEXITED` -/
def wifexited (status : ℕ) : Bool := wtermsig status = 0

/-- `WEXITSTATUS`: `(status & 0xff00) >> 8` -/
def wexitstatus (status : ℕ) : ℕ := status / 256 % 256

/-- `WIFSIGNALED`: `((signed char) ((status & 0x7f) + 1) >> 1) > 0` -/
def wifsignaled (status : ℕ) : Bool := 0 < wtermsig status ∧ wtermsig status < 127

/-- What `yo_proc_wait` stores in `*psig` and `*pcode` for this status. -/
def procWaitStore (status : ℕ) : ℤ × ℤ :=
  let psig : ℤ := -1
  let pcode : ℤ := -1
  let pcode : ℤ := if wifexited status then wexitstatus status else pcode
  let pcode : ℤ := if wifsignaled status then wtermsig status else pcode
  (psig, pcode)

/-- What it should store: the signal or the exit code, and -1 for the other. -/
def Ending.report : Ending → ℤ × ℤ
  | .exited code => (-1, code)
  | .signalled sig _ => (sig, -1)

/-- The kernel knows 64 signals. -/
def Ending.Valid : Ending → Prop
  | .exited code => code < 256
  | .signalled sig _ => 1 ≤ sig ∧ sig ≤ 64

/-! ## The two processes -/

/-- Where the child is. -/
inductive ChildPc where
  /-- These calls are left. -/
  | todo (ops : List ChildOp)
  /-- At `err_child`, with this `err`. -/
  | report (err : Errno)
  /-- Before `_exit(127)`. -/
  | quit
  /-- In the program. -/
  | program
  | ended (how : Ending)

/-- The child: its descriptors, its `status_pipe[1]`, and what has become of it: whether `execve`
has succeeded, which call has failed, and whether it has written that into the status pipe. -/
structure Child where
  fds : FdTable
  status1 : Option ℕ
  pc : ChildPc
  execd : Bool
  error : Option Errno
  reported : Bool

/-- Where the parent is. -/
inductive ParentPc where
  | start
  /-- After `fork`. -/
  | forked
  /-- Before it reads from the status pipe. -/
  | reading
  /-- At `err_read_status`, with this `errno`. -/
  | reaping (errno : Errno)
  /-- `yo_proc_spawn` has returned. -/
  | returned (code : YoCode)
  /-- It has written to `res->pid` without memory for `res`. -/
  | crashed
  /-- `yo_proc_wait` has returned, and stored this. -/
  | waited (code : YoCode) (out : Option (ℤ × ℤ))
  deriving DecidableEq

/-- Parent and child, and what is in the pipes. -/
structure ProcState where
  kernel : Kernel
  proc : Bool
  f : SpawnFds
  pc : ParentPc
  child : Option Child
  buffer : ℕ → List Errno
  reaped : Bool

/-- A step of one of them, with the error of the call if it fails, or the end of the child. -/
inductive ProcAct where
  /-- The parent calls `yo_proc_spawn`, up to `fork`. -/
  | spawn (args : SpawnArgs) (ans : SpawnAnswers)
  /-- The parent closes the child's ends. -/
  | close
  /-- `read` -/
  | read (fault : Option Errno)
  /-- `waitpid` at `err_read_status`. -/
  | reap (fault : Option Errno)
  /-- `yo_proc_wait` -/
  | wait (fault : Option Errno)
  /-- The next call of the child. -/
  | call (fault : Option Errno)
  /-- The child writes into the status pipe. -/
  | report
  /-- `_exit(127)` -/
  | quit
  /-- The program ends. -/
  | exit (code : ℕ)
  /-- A signal ends the child. -/
  | kill (sig : ℕ) (core : Bool)

/-- The child has not ended. -/
def ChildPc.alive : ChildPc → Bool
  | ended _ => false
  | _ => true

namespace Child

/-- The child ends, and its descriptors are closed. -/
def finish (c : Child) (how : Ending) : Child := { c with fds := [], pc := .ended how }

/-- A step of the child. -/
def step (c : Child) (buffer : ℕ → List Errno) : ProcAct → Option (Child × (ℕ → List Errno))
  | .call fault =>
    match c.pc with
    | .todo (op :: ops) =>
      match op.error c.fds fault with
      | some e => some ({ c with pc := .report e, error := some e }, buffer)
      | none =>
        let c := { c with fds := op.run c.fds }
        if op = .execve then some ({ c with pc := .program, execd := true }, buffer)
        else some ({ c with pc := .todo ops }, buffer)
    | _ => none
  | .report =>
    match c.pc with
    | .report err =>
      let buffer :=
        match c.status1.bind c.fds.lookup with
        | some ⟨.pipeWrite id, _⟩ => Function.update buffer id (buffer id ++ [err])
        | _ => buffer
      some ({ c with pc := .quit, reported := true }, buffer)
    | _ => none
  | .quit =>
    match c.pc with
    | .quit => some (c.finish (.exited 127), buffer)
    | _ => none
  | .exit code =>
    match c.pc with
    | .program => some (c.finish (.exited (code % 256)), buffer)
    | _ => none
  | .kill sig core =>
    if c.pc.alive ∧ 1 ≤ sig ∧ sig ≤ 64 then some (c.finish (.signalled sig core), buffer) else none
  | _ => none

end Child

namespace ProcState

/-- The pipe that the parent reads from. -/
def statusId (s : ProcState) : Option ℕ :=
  match s.f.status0.bind s.kernel.fds.lookup with
  | some ⟨.pipeRead id, _⟩ => some id
  | _ => none

/-- How the child has ended, if it has. -/
def ending (s : ProcState) : Option Ending :=
  match s.child with
  | some ⟨_, _, .ended how, _, _, _⟩ => some how
  | _ => none

/-- A process can still write into the pipe. -/
def hasWriter (s : ProcState) (id : ℕ) : Bool :=
  s.kernel.fds.hasWriter id || s.child.any fun c => c.fds.hasWriter id

/-- The parent closes `status_pipe[0]` and goes on here. -/
def afterRead (s : ProcState) (pc : ParentPc) : ProcState :=
  { s with
    kernel := { s.kernel with fds := s.kernel.fds.closeOpt s.f.status0 }
    f := { s.f with status0 := none }
    pc := pc }

/-- The parent returns an error, by way of the labels. -/
def fail (s : ProcState) (err : Errno) (reaped : Bool) : ProcState :=
  { s with
    kernel := { s.kernel with fds := cleanup s.kernel.fds s.f }
    pc := .returned (yoiUnixConvErrno err)
    reaped := reaped }

/-- A step of the parent or of the child. -/
def step (s : ProcState) : ProcAct → Option ProcState
  | .spawn args ans =>
    match s.pc with
    | .start =>
      match prepare args ans s.kernel with
      | (k, .error e) => some { s with kernel := k, pc := .returned (yoiUnixConvErrno e) }
      | (k, .ok f) => some { s with
          kernel := k
          proc := ans.proc
          f := f
          pc := .forked
          child := some ⟨k.fds, f.status1, .todo (childProgram args f), false, none, false⟩ }
    | _ => none
  | .close =>
    match s.pc with
    | .forked => some { s with
        kernel := { s.kernel with fds := closeChildEnds s.kernel.fds s.f }
        f := s.f.afterFork
        pc := .reading }
    | _ => none
  | .read fault =>
    match s.pc with
    | .reading =>
      match fault with
      | some e => some (s.afterRead (.reaping e))
      | none =>
        match s.statusId with
        | none => none
        | some id =>
          match s.buffer id with
          -- the four bytes of an error number are written and read at once
          | err :: rest =>
            some ({ s with buffer := Function.update s.buffer id rest }.afterRead (.reaping err))
          | [] =>
            if s.hasWriter id then none
            else some (s.afterRead (if s.proc then .returned .ok else .crashed))
    | _ => none
  | .reap fault =>
    match s.pc with
    | .reaping err =>
      match fault with
      | some e => some (s.fail e false)
      | none => if s.ending.isSome then some (s.fail err true) else none
    | _ => none
  | .wait fault =>
    if s.pc = .returned .ok then
      match fault with
      | some e => some { s with pc := .waited (yoiUnixConvErrno e) none }
      | none => s.ending.map fun how => { s with
          pc := .waited .ok (some (procWaitStore how.status))
          reaped := true }
    else none
  | a =>
    match s.child with
    | none => none
    | some c => (c.step s.buffer a).map fun p => { s with child := some p.1, buffer := p.2 }

end ProcState

namespace Proc

/-- The descriptors 0 to 2 of the parent are open, and it has not started this child yet. -/
def system : System ProcState ProcAct where
  init s := (∀ std : Stream, s.kernel.fds.lookup std.fileno ≠ none) ∧ s.kernel.Fresh ∧
    s.pc = .start ∧ s.child = none ∧ s.buffer = (fun _ => []) ∧ s.reaped = false
  step := ProcState.step

end Proc

namespace ProcState

/-- `execve` has succeeded. -/
def Execd (s : ProcState) : Prop := ∃ c, s.child = some c ∧ c.execd = true

/-- A call of the child has failed. -/
def Failed (s : ProcState) (e : Errno) : Prop := ∃ c, s.child = some c ∧ c.error = some e

/-- The child has written its error into the status pipe. -/
def Reported (s : ProcState) : Prop := ∃ c, s.child = some c ∧ c.reported = true

/-- `yo_proc_spawn` has returned. -/
def Returned (s : ProcState) : Prop :=
  match s.pc with
  | .returned _ | .crashed | .waited .. => True
  | _ => False

/-- Nothing more will be reported: `yo_proc_spawn` has failed, or `yo_proc_wait` has returned. -/
def Complete (s : ProcState) : Prop :=
  match s.pc with
  | .returned code => code ≠ .ok
  | .crashed | .waited .. => True
  | _ => False

/-- What is reported: `YO_OK` if and only if `execve` has succeeded, else the code of the error that
the child met, with the child reaped, and then how the child has ended. -/
def Reports (s : ProcState) : Prop :=
  match s.pc with
  | .returned code => (code = .ok ↔ s.Execd) ∧
      ∀ e, s.Failed e → code = yoiUnixConvErrno e ∧ s.reaped = true
  | .waited code out => s.Execd ∧ code = .ok ∧ ∃ how, s.ending = some how ∧ out = some how.report
  | .crashed => False
  | _ => True

/-- A step that spoils nothing: there is memory for the result unless the child reports an error,
the child is killed only after it has reported one, and `waitpid` does not fail. -/
def Benign (s : ProcState) : ProcAct → Prop
  | .read _ => s.proc = true ∨ s.Reported
  | .kill .. => s.Reported
  | .reap fault | .wait fault => fault = none
  | _ => True

end ProcState

/-- `read` is not interrupted. -/
def ProcAct.Uninterrupted : ProcAct → Prop
  | .read fault => fault = none
  | _ => True

/-! ## What `yo_proc_wait` stores -/

variable {how : Ending} {code sig : ℕ} {core : Bool}

theorem procWaitStore_exited (h : code < 256) :
    procWaitStore (Ending.exited code).status = (-1, (code : ℤ)) := by
  have hterm : wtermsig (Ending.exited code).status = 0 := by
    simp only [wtermsig, Ending.status]
    omega
  have hcode : wexitstatus (Ending.exited code).status = code := by
    simp only [wexitstatus, Ending.status]
    omega
  simp [procWaitStore, wifexited, wifsignaled, hterm, hcode]

theorem procWaitStore_signalled (h : (Ending.signalled sig core).Valid) :
    procWaitStore (Ending.signalled sig core).status = (-1, (sig : ℤ)) := by
  obtain ⟨hpos, hle⟩ := h
  have hterm : wtermsig (Ending.signalled sig core).status = sig := by
    simp only [wtermsig, Ending.status]
    split <;> omega
  have hlt : sig < 127 := by omega
  simp [procWaitStore, wifsignaled, hterm, hlt, Nat.one_le_iff_ne_zero.mp hpos]

/-- **Only an exit code is stored where it should be.** -/
theorem procWaitStore_eq_report (h : how.Valid) :
    procWaitStore how.status = how.report ↔ ∃ code, how = .exited code := by
  cases how with
  | exited code =>
    rw [procWaitStore_exited h]
    exact iff_of_true rfl ⟨code, rfl⟩
  | signalled sig core =>
    rw [procWaitStore_signalled h, Ending.report]
    refine iff_of_false (fun heq => ?_) (by simp)
    have : (sig : ℤ) = -1 := congrArg Prod.snd heq
    omega

/-- What should be stored tells all endings apart, but for the core. -/
theorem report_inj {how' : Ending} (h : how.report = how'.report) :
    how = how' ∨ ∃ sig core core', how = .signalled sig core ∧ how' = .signalled sig core' := by
  cases how with
  | exited code =>
    cases how' with
    | exited code' =>
      have hcode : code = code' := Int.ofNat.inj (congrArg Prod.snd h)
      exact .inl (by rw [hcode])
    | signalled sig core =>
      have hsig : (-1 : ℤ) = sig := congrArg Prod.fst h
      omega
  | signalled sig core =>
    cases how' with
    | exited code =>
      have hsig : (sig : ℤ) = -1 := congrArg Prod.fst h
      omega
    | signalled sig' core' =>
      have hsig : sig = sig' := Int.ofNat.inj (congrArg Prod.fst h)
      exact .inr ⟨sig, core, core', rfl, by rw [hsig]⟩

/-! ## The status pipe -/

variable {t : FdTable} {id w fd : ℕ} {d : Desc} {op : ChildOp} {ops : List ChildOp}
  {fault : Option Errno}

/-- The only end for writing into the status pipe, with `FD_CLOEXEC`. -/
def StatusEnd (t : FdTable) (w id : ℕ) : Prop :=
  t.lookup w = some ⟨.pipeWrite id, true⟩ ∧
    ∀ fd d, t.lookup fd = some d → d.file = .pipeWrite id → fd = w

/-- The call leaves this descriptor alone. -/
def ChildOp.Spares (w : ℕ) : ChildOp → Prop
  | .close fd => fd ≠ w
  | .dup2 src dst => src ≠ w ∧ dst ≠ w
  | _ => True

/-- The end stays what it is until the program runs. -/
theorem StatusEnd.run (h : StatusEnd t w id) (hop : op.Spares w) (hne : op ≠ .execve) :
    StatusEnd (op.run t) w id := by
  obtain ⟨hw, honly⟩ := h
  cases op with
  | close fd =>
    have hfd : w ≠ fd := Ne.symm hop
    refine ⟨by simp [ChildOp.run, hfd, hw], fun k d hk hd => ?_⟩
    rw [ChildOp.run, FdTable.lookup_close] at hk
    split at hk
    · cases hk
    · exact honly k d hk hd
  | dup2 src dst =>
    obtain ⟨hsrc, hdst⟩ := hop
    cases hl : t.lookup src with
    | none =>
      have hrun : (ChildOp.dup2 src dst).run t = t := by simp [ChildOp.run, FdTable.dup2, hl]
      rw [hrun]
      exact ⟨hw, honly⟩
    | some d₀ =>
      by_cases hsame : src = dst
      · have hrun : (ChildOp.dup2 src dst).run t = t := by
          simp only [ChildOp.run, FdTable.dup2, hl, if_pos hsame]
        rw [hrun]
        exact ⟨hw, honly⟩
      · have hlookup := fun k => FdTable.lookup_dup2 (k := k) hl hsame
        refine ⟨by rw [ChildOp.run, hlookup, if_neg (Ne.symm hdst), hw], fun k d hk hd => ?_⟩
        rw [ChildOp.run, hlookup] at hk
        split at hk
        · cases hk
          exact absurd (honly src d₀ hl hd) hsrc
        · exact honly k d hk hd
  | chdir | setmask => exact ⟨hw, honly⟩
  | execve => exact absurd rfl hne

/-- **`execve` closes it.** -/
theorem StatusEnd.exec (h : StatusEnd t w id) : t.exec.hasWriter id = false := by
  rw [← Bool.not_eq_true, FdTable.hasWriter_eq_true]
  rintro ⟨fd, d, hfd, hd⟩
  rw [FdTable.lookup_exec, Option.filter_eq_some_iff] at hfd
  obtain rfl := h.2 fd d hfd.1 hd
  rw [h.1] at hfd
  obtain ⟨hd', hcloexec⟩ := hfd
  rw [← Option.some.inj hd'] at hcloexec
  exact absurd hcloexec (by simp)

theorem StatusEnd.hasWriter (h : StatusEnd t w id) : t.hasWriter id = true :=
  FdTable.hasWriter_eq_true.mpr ⟨w, _, h.1, rfl⟩

/-! ## What a step can do -/

variable {c c' : Child} {b b' : ℕ → List Errno} {a : ProcAct} {s t u : ProcState}
  {args : SpawnArgs} {ans : SpawnAnswers}

/-- A step of the child. -/
def ProcAct.OfChild : ProcAct → Prop
  | .call _ | .report | .quit | .exit _ | .kill .. => True
  | _ => False

/-- The child makes a step, and the parent stays where it is. -/
theorem child_cases (ha : a.OfChild) (h : s.step a = some t) :
    ∃ c p, s.child = some c ∧ c.step s.buffer a = some p ∧
      t = { s with child := some p.1, buffer := p.2 } := by
  have hmatch : (match s.child with
      | none => none
      | some c => (c.step s.buffer a).map fun p => { s with child := some p.1, buffer := p.2 }) =
        some t := by
    cases a with
    | spawn | close | read | reap | wait => exact ha.elim
    | call | report | quit | exit | kill => exact h
  cases hc : s.child with
  | none => simp [hc] at hmatch
  | some c =>
    simp only [hc, Option.map_eq_some_iff] at hmatch
    obtain ⟨p, hp, rfl⟩ := hmatch
    exact ⟨c, p, rfl, hp, rfl⟩

/-- The child starts, or there is an error before that. -/
theorem spawn_cases (h : s.step (.spawn args ans) = some t) : s.pc = .start ∧
    ((∃ k e, prepare args ans s.kernel = (k, .error e) ∧
        t = { s with kernel := k, pc := .returned (yoiUnixConvErrno e) }) ∨
      ∃ k f, prepare args ans s.kernel = (k, .ok f) ∧ t = { s with
        kernel := k
        proc := ans.proc
        f := f
        pc := .forked
        child := some ⟨k.fds, f.status1, .todo (childProgram args f), false, none, false⟩ }) := by
  cases hpc : s.pc with
  | forked | reading | reaping | returned | crashed | waited => simp [ProcState.step, hpc] at h
  | start =>
    refine ⟨rfl, ?_⟩
    simp only [ProcState.step, hpc] at h
    generalize prepare args ans s.kernel = p at h
    obtain ⟨k, e | f⟩ := p
    · simp only [Option.some.injEq] at h
      exact .inl ⟨k, e, rfl, h.symm⟩
    · simp only [Option.some.injEq] at h
      exact .inr ⟨k, f, rfl, h.symm⟩

theorem close_cases (h : s.step .close = some t) : s.pc = .forked ∧ t = { s with
    kernel := { s.kernel with fds := closeChildEnds s.kernel.fds s.f }
    f := s.f.afterFork
    pc := .reading } := by
  cases hpc : s.pc with
  | start | reading | reaping | returned | crashed | waited => simp [ProcState.step, hpc] at h
  | forked =>
    simp only [ProcState.step, hpc, Option.some.injEq] at h
    exact ⟨rfl, h.symm⟩

/-- The parent reads an error number, or the end of the pipe. -/
theorem read_cases (h : s.step (.read none) = some t) : s.pc = .reading ∧
    ∃ id, s.statusId = some id ∧
      ((∃ err rest, s.buffer id = err :: rest ∧
          t = { s with buffer := Function.update s.buffer id rest }.afterRead (.reaping err)) ∨
        s.buffer id = [] ∧ s.hasWriter id = false ∧
          t = s.afterRead (if s.proc then .returned .ok else .crashed)) := by
  cases hpc : s.pc with
  | start | forked | reaping | returned | crashed | waited => simp [ProcState.step, hpc] at h
  | reading =>
    refine ⟨rfl, ?_⟩
    simp only [ProcState.step, hpc] at h
    cases hid : s.statusId with
    | none => simp [hid] at h
    | some id =>
      simp only [hid] at h
      refine ⟨id, rfl, ?_⟩
      cases hmsg : s.buffer id with
      | cons err rest =>
        simp only [hmsg, Option.some.injEq] at h
        exact .inl ⟨err, rest, rfl, h.symm⟩
      | nil =>
        simp only [hmsg, Option.ite_none_left_eq_some, Option.some.injEq] at h
        exact .inr ⟨rfl, by simpa using h.1, h.2.symm⟩

/-- The parent has waited for the child, or this fails. -/
theorem reap_cases (h : s.step (.reap fault) = some t) : ∃ err, s.pc = .reaping err ∧
    ((∃ e, fault = some e ∧ t = s.fail e false) ∨
      fault = none ∧ s.ending.isSome = true ∧ t = s.fail err true) := by
  cases hpc : s.pc with
  | start | forked | reading | returned | crashed | waited => simp [ProcState.step, hpc] at h
  | reaping err =>
    refine ⟨err, rfl, ?_⟩
    simp only [ProcState.step, hpc] at h
    cases fault with
    | some e =>
      simp only [Option.some.injEq] at h
      exact .inl ⟨e, rfl, h.symm⟩
    | none =>
      simp only [Option.ite_none_right_eq_some, Option.some.injEq] at h
      exact .inr ⟨rfl, h.1, h.2.symm⟩

/-- `yo_proc_wait` stores how the child has ended, or it fails. -/
theorem wait_cases (h : s.step (.wait fault) = some t) : s.pc = .returned .ok ∧
    ((∃ e, fault = some e ∧ t = { s with pc := .waited (yoiUnixConvErrno e) none }) ∨
      fault = none ∧ ∃ how, s.ending = some how ∧ t = { s with
        pc := .waited .ok (some (procWaitStore how.status))
        reaped := true }) := by
  simp only [ProcState.step, Option.ite_none_right_eq_some] at h
  obtain ⟨hpc, h⟩ := h
  refine ⟨hpc, ?_⟩
  cases fault with
  | some e =>
    simp only [Option.some.injEq] at h
    exact .inl ⟨e, rfl, h.symm⟩
  | none =>
    simp only [Option.map_eq_some_iff] at h
    obtain ⟨how, hhow, rfl⟩ := h
    exact .inr ⟨rfl, how, hhow, rfl⟩

/-! ## The child -/

/-- The calls that are left end with `execve` and leave the status pipe alone. -/
def Plan (w : ℕ) (ops : List ChildOp) : Prop :=
  ∃ pre, ops = pre ++ [.execve] ∧ ∀ op ∈ pre, op ≠ .execve ∧ op.Spares w

/-- What holds of the child, whose end of the status pipe `id` is `w`. -/
def ChildInv (w id : ℕ) (c : Child) : Prop :=
  c.status1 = some w ∧
    match c.pc with
    | .todo ops => c.execd = false ∧ c.error = none ∧ c.reported = false ∧
        StatusEnd c.fds w id ∧ Plan w ops
    | .report e => c.execd = false ∧ c.error = some e ∧ c.reported = false ∧ StatusEnd c.fds w id
    | .quit => c.execd = false ∧ c.error ≠ none ∧ c.reported = true
    | .program => c.execd = true ∧ c.error = none ∧ c.reported = false ∧
        c.fds.hasWriter id = false
    | .ended how => how.Valid ∧ c.fds = [] ∧
        (c.reported = true → c.execd = false ∧ c.error ≠ none) ∧
          (c.execd = true → c.error = none) ∧
            (∀ code, how = .exited code → c.execd = true ∨ c.reported = true)

/-- What the child has written. -/
def Child.messages (c : Child) : List Errno := if c.reported then c.error.toList else []

/-- The child has written nothing and will write nothing. -/
def Child.Silent (c : Child) : Prop :=
  c.reported = false ∧ (c.execd = true ∨ ∃ how, c.pc = .ended how)

/-- The child has been killed without having written anything. -/
def Child.Killed (c : Child) : Prop :=
  (∃ sig core, c.pc = .ended (.signalled sig core)) ∧ c.reported = false

/-- What a step of the child keeps. -/
structure ChildStep (id : ℕ) (c c' : Child) (b b' : ℕ → List Errno) (a : ProcAct) : Prop where
  messages : b id = c.messages → b' id = c'.messages
  reported : c.reported = true → c'.reported = true ∧ c'.error = c.error
  silent : c.Silent → c'.Silent
  alive : ∀ how, c.pc ≠ .ended how
  killed : c'.Killed ↔ (∃ sig core, a = .kill sig core) ∧ c.reported = false

/-- A child that has reported an error has not executed its program. -/
theorem ChildInv.reported (hc : ChildInv w id c) (h : c.reported = true) :
    c.execd = false ∧ c.error ≠ none := by
  obtain ⟨-, hc⟩ := hc
  cases hpc : c.pc <;> rw [hpc] at hc <;> simp_all

theorem ChildInv.execd (hc : ChildInv w id c) (h : c.execd = true) : c.error = none := by
  obtain ⟨-, hc⟩ := hc
  cases hpc : c.pc <;> rw [hpc] at hc <;> simp_all

/-- **The end of the child.** -/
theorem ChildInv.finish (hc : ChildInv w id c) (halive : ∀ how, c.pc ≠ .ended how)
    (hvalid : how.Valid) (hexit : ∀ code, how = .exited code → c.execd = true ∨ c.reported = true)
    (hkill : (∃ sig core, how = .signalled sig core) ↔ ∃ sig core, a = .kill sig core) :
    ChildInv w id (c.finish how) ∧ ChildStep id c (c.finish how) b b a where
  left := ⟨hc.1, hvalid, rfl, hc.reported, hc.execd, hexit⟩
  right :=
    { messages := fun h => h
      reported := fun h => ⟨h, rfl⟩
      silent := fun h => ⟨h.1, .inr ⟨how, rfl⟩⟩
      alive := halive
      killed := by
        refine and_congr_left fun _ => ?_
        rw [← hkill]
        simp [Child.finish] }

/-- A child that is alive and has not executed its program is not silent. -/
theorem not_silent (hexecd : c.execd = false) (halive : ∀ how, c.pc ≠ .ended how) :
    ¬ c.Silent := by
  rintro ⟨-, h | ⟨how, h⟩⟩
  · simp [hexecd] at h
  · exact halive how h

/-- **The next call of the child**, on its way to the program. -/
theorem ChildInv.call (hc : ChildInv w id c) (h : c.step b (.call fault) = some (c', b')) :
    ChildInv w id c' ∧ ChildStep id c c' b b' (.call fault) := by
  obtain ⟨hw, hc⟩ := hc
  cases hpc : c.pc with
  | report | quit | program | ended => simp [Child.step, hpc] at h
  | todo ops =>
    rw [hpc] at hc
    obtain ⟨hexecd, herror, hreported, hend, pre, rfl, hpre⟩ := hc
    -- whatever the call does, the child goes on and has written nothing
    have hstep : ∀ fds pc execd error, (∀ how, pc ≠ .ended how) →
        ChildStep id c ⟨fds, some w, pc, execd, error, false⟩ b b (.call fault) :=
      fun fds pc execd error hne =>
        { messages := fun hb => by simp [hb, Child.messages, hreported]
          reported := by simp [hreported]
          silent := fun h => absurd h (not_silent hexecd (by simp [hpc]))
          alive := by simp [hpc]
          killed := by simp [Child.Killed, hne] }
    obtain ⟨op, ops, hops⟩ :=
      List.exists_cons_of_ne_nil (l := pre ++ [ChildOp.execve]) (by simp)
    rw [Child.step, hpc, hops] at h
    simp only [hw, hreported] at h
    cases herr : op.error c.fds fault with
    | some e =>
      simp only [herr, Option.some.injEq, Prod.mk.injEq] at h
      obtain ⟨rfl, rfl⟩ := h
      exact ⟨⟨rfl, hexecd, rfl, rfl, hend⟩, hstep _ _ _ _ (by simp)⟩
    | none =>
      simp only [herr] at h
      cases pre with
      | nil =>
        obtain ⟨rfl, rfl⟩ := List.cons.inj hops
        simp only [if_true, Option.some.injEq, Prod.mk.injEq] at h
        obtain ⟨rfl, rfl⟩ := h
        exact ⟨⟨rfl, rfl, herror, rfl, hend.exec⟩, hstep _ _ _ _ (by simp)⟩
      | cons op' pre =>
        obtain ⟨rfl, rfl⟩ := List.cons.inj hops
        obtain ⟨⟨hne, hspares⟩, hpre⟩ := List.forall_mem_cons.mp hpre
        simp only [if_neg hne, Option.some.injEq, Prod.mk.injEq] at h
        obtain ⟨rfl, rfl⟩ := h
        exact ⟨⟨rfl, hexecd, herror, rfl, hend.run hspares hne, pre, rfl, hpre⟩,
          hstep _ _ _ _ (by simp)⟩

/-- **The child reports the error.** -/
theorem ChildInv.report (hc : ChildInv w id c) (h : c.step b .report = some (c', b')) :
    ChildInv w id c' ∧ ChildStep id c c' b b' .report := by
  obtain ⟨hw, hc⟩ := hc
  cases hpc : c.pc with
  | todo | quit | program | ended => simp [Child.step, hpc] at h
  | report e =>
    rw [hpc] at hc
    obtain ⟨hexecd, herror, hreported, hend⟩ := hc
    simp only [Child.step, hpc, hw, Option.bind_some, hend.1, Option.some.injEq,
      Prod.mk.injEq] at h
    obtain ⟨rfl, rfl⟩ := h
    refine ⟨⟨rfl, hexecd, by simp [herror], rfl⟩, ?_⟩
    exact
      { messages := fun hb => by simp [hb, Child.messages, hreported, herror]
        reported := by simp [hreported]
        silent := fun h => absurd h (not_silent hexecd (by simp [hpc]))
        alive := by simp [hpc]
        killed := by simp [Child.Killed] }

/-- **A step of the child.** -/
theorem ChildInv.step (hc : ChildInv w id c) (h : c.step b a = some (c', b')) :
    ChildInv w id c' ∧ ChildStep id c c' b b' a := by
  cases a with
  | spawn | close | read | reap | wait => simp [Child.step] at h
  | call fault => exact hc.call h
  | report => exact hc.report h
  | quit =>
    cases hpc : c.pc with
    | todo | report | program | ended => simp [Child.step, hpc] at h
    | quit =>
      have hquit := hc.2
      rw [hpc] at hquit
      simp only [Child.step, hpc, Option.some.injEq, Prod.mk.injEq] at h
      obtain ⟨rfl, rfl⟩ := h
      exact hc.finish (by simp [hpc]) (by simp [Ending.Valid]) (fun _ _ => .inr hquit.2.2)
        (by simp)
  | exit code =>
    cases hpc : c.pc with
    | todo | report | quit | ended => simp [Child.step, hpc] at h
    | program =>
      have hprogram := hc.2
      rw [hpc] at hprogram
      simp only [Child.step, hpc, Option.some.injEq, Prod.mk.injEq] at h
      obtain ⟨rfl, rfl⟩ := h
      exact hc.finish (by simp [hpc]) (Nat.mod_lt _ (by decide)) (fun _ _ => .inl hprogram.1)
        (by simp)
  | kill sig core =>
    simp only [Child.step, Option.ite_none_right_eq_some, Option.some.injEq, Prod.mk.injEq] at h
    obtain ⟨⟨halive, hsig⟩, rfl, rfl⟩ := h
    exact hc.finish (fun how hpc => by simp [hpc, ChildPc.alive] at halive) hsig
      (by simp) (by simp)

end Yaooi
