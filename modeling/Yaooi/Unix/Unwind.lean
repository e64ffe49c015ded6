import Yaooi.Unix.Inherit

/-!
# Giving up in `yo_proc_spawn`

`yo_proc_spawn` of `src/unix/impl.c` with every exit it has: up to eight descriptors are opened one
after the other, some are closed and forgotten before the end, and a ladder of labels closes what
is left.  The model keeps a log of the calls of `close` in both processes.

* `beforeFork_spec`: wherever a call fails before `fork`, the ladder puts back what was open before.
* `beforeFork_eq_prepare`: where none does, the parent forks with what `prepare` says.
* `releases_iff`: the parent always releases what it has opened, once.  The child closes
  `status_pipe[0]` twice where a call of its own fails.
-/

namespace Yaooi

/-! ## The parent -/

/-- A variable of `yo_proc_spawn` that holds a descriptor, or -1. -/
inductive SpawnVar where
  | status0
  | status1
  | parent (std : Stream)
  | child (std : Stream)
  deriving DecidableEq

namespace SpawnFds

/-- Its value. -/
def get (f : SpawnFds) : SpawnVar → Option ℕ
  | .status0 => f.status0
  | .status1 => f.status1
  | .parent std => f.parent std
  | .child std => f.child std

/-- `in_child = out_child = err_child = -1` -/
def clearChild (f : SpawnFds) : SpawnFds := { f with child := fun _ => none }

end SpawnFds

/-- The parent: its descriptors, its variables, and the arguments of `close` so far. -/
structure SpawnRun where
  kernel : Kernel
  f : SpawnFds
  closes : List ℕ

namespace SpawnRun

/-- `if (v != -1) close(v)` -/
def close (s : SpawnRun) (v : SpawnVar) : SpawnRun :=
  match s.f.get v with
  | none => s
  | some fd => { s with
    kernel := { s.kernel with fds := s.kernel.fds.close fd }
    closes := s.closes ++ [fd] }

/-- `pipe(status_pipe)` -/
def statusPipe (s : SpawnRun) : SpawnRun :=
  let (k, r, w) := s.kernel.pipe
  { s with kernel := k, f := { s.f with status0 := some r, status1 := some w } }

/-- `fcntl(v, F_SETFD, FD_CLOEXEC)` -/
def setCloexec (v : SpawnVar) (s : SpawnRun) : SpawnRun :=
  match s.f.get v with
  | none => s
  | some fd => { s with kernel := { s.kernel with fds := s.kernel.fds.setCloexec fd } }

/-- `_yoi_unix_mkstd`, where it succeeds. -/
def mkstd (std : Stream) (s : SpawnRun) : SpawnRun :=
  let (k, f) := Yaooi.mkstd s.kernel s.f std
  { s with kernel := k, f := f }

/-! The labels, each of which goes on with the next one. -/

def errPipeStatus (s : SpawnRun) : SpawnRun := s

def errFnctlStatus (s : SpawnRun) : SpawnRun := ((s.close .status0).close .status1).errPipeStatus

def errMkstdIn (s : SpawnRun) : SpawnRun := s.errFnctlStatus

def errMkstdOut (s : SpawnRun) : SpawnRun :=
  ((s.close (.parent .stdin)).close (.child .stdin)).errMkstdIn

def errMkstdErr (s : SpawnRun) : SpawnRun :=
  ((s.close (.parent .stdout)).close (.child .stdout)).errMkstdOut

def errFork (s : SpawnRun) : SpawnRun :=
  ((s.close (.parent .stderr)).close (.child .stderr)).errMkstdErr

/-- `if (call() < 0) goto label;` -/
def tryCall (fault : Option Errno) (label act : SpawnRun → SpawnRun) (s : SpawnRun) :
    Except (Errno × SpawnRun) SpawnRun :=
  match fault with
  | some e => .error (e, label s)
  | none => .ok (act s)

end SpawnRun

/-- What `read` finds in the status pipe. -/
inductive StatusRead where
  | failed (e : Errno)
  /-- The `errno` of the child. -/
  | whole (e : Errno)
  /-- Some of its bytes. -/
  | short
  /-- The end of the pipe. -/
  | eof
  deriving DecidableEq

/-- The `errno` with which the parent gets to `err_read_status`. -/
def StatusRead.error : StatusRead → Option Errno
  | failed e => some e
  | whole e => some e
  | short => some .epipe
  | eof => none

/-- What is answered in a call of `yo_proc_spawn`: which calls fail, and what the parent reads. -/
structure SpawnFaults where
  statusPipe : Option Errno
  cloexec0 : Option Errno
  cloexec1 : Option Errno
  nonblock : Option Errno
  /-- There is memory for the handle of a stream. -/
  mem : Stream → Bool
  pipe : Stream → Option Errno
  fork : Option Errno
  /-- `dup2`, by the number that is to be opened. -/
  dup2 : ℕ → Option Errno
  chdir : Option Errno
  setmask : Option Errno
  execve : Option Errno
  read : StatusRead

namespace SpawnFaults

/-- The error of `_yoi_unix_mkstd`. -/
def mkstd (ans : SpawnFaults) (std : Stream) : Option Errno :=
  if ans.mem std then ans.pipe std else some .enomem

/-- The first `fcntl` that fails. -/
def fcntl (ans : SpawnFaults) : Option Errno := (ans.cloexec0.or ans.cloexec1).or ans.nonblock

/-- What is answered before `fork`; the handle of the process is allocated. -/
def answers (ans : SpawnFaults) : SpawnAnswers :=
  ⟨true, ans.statusPipe, ans.fcntl, ans.mkstd, ans.fork⟩

/-- What the child is answered; no signal ends it. -/
def child (ans : SpawnFaults) : ChildAnswers :=
  ⟨ans.dup2, ans.chdir, ans.setmask, ans.execve, false, none, none⟩

end SpawnFaults

/-- A stream is redirected, if that is asked for. -/
def redirectRun (args : SpawnArgs) (ans : SpawnFaults) (std : Stream)
    (label : SpawnRun → SpawnRun) (s : SpawnRun) : Except (Errno × SpawnRun) SpawnRun :=
  if args.redirect std then s.tryCall (ans.mkstd std) label (.mkstd std) else .ok s

/-- The status pipe and its flags. -/
def openStatus (ans : SpawnFaults) (k : Kernel) : Except (Errno × SpawnRun) SpawnRun := do
  let s : SpawnRun := ⟨k, ⟨none, none, fun _ => none, fun _ => none⟩, []⟩
  let s ← s.tryCall ans.statusPipe .errPipeStatus .statusPipe
  let s ← s.tryCall ans.cloexec0 .errFnctlStatus (.setCloexec .status0)
  let s ← s.tryCall ans.cloexec1 .errFnctlStatus (.setCloexec .status1)
  s.tryCall ans.nonblock .errFnctlStatus id

/-- The three streams. -/
def redirectRuns (args : SpawnArgs) (ans : SpawnFaults) (s : SpawnRun) :
    Except (Errno × SpawnRun) SpawnRun := do
  let s ← redirectRun args ans .stdin .errMkstdIn s
  let s ← redirectRun args ans .stdout .errMkstdOut s
  redirectRun args ans .stderr .errMkstdErr s

/-- `yo_proc_spawn` up to `fork`. -/
def beforeFork (args : SpawnArgs) (ans : SpawnFaults) (k : Kernel) :
    Except (Errno × SpawnRun) SpawnRun := do
  let s ← openStatus ans k
  let s ← redirectRuns args ans s
  s.tryCall ans.fork .errFork id

/-- What the parent does behind the child's part, up to its test of what it has read. -/
def SpawnRun.afterFork (s : SpawnRun) : SpawnRun :=
  let s := ((s.close (.child .stdin)).close (.child .stdout)).close (.child .stderr)
  let s := { s with f := s.f.clearChild }
  let s := s.close .status1
  let s := { s with f := { s.f with status1 := none } }
  let s := s.close .status0
  { s with f := { s.f with status0 := none } }

/-! ## The child -/

/-- The child: its descriptors, and the arguments of `close` so far. -/
structure ChildRun where
  fds : FdTable
  closes : List ℕ

/-- What a call closes. -/
def ChildOp.closed : ChildOp → List ℕ
  | .close fd => [fd]
  | _ => []

namespace ChildRun

/-- A call of the child; where it fails, the child goes to `err_child` as it is. -/
def call (child : ChildAnswers) (c : ChildRun) (op : ChildOp) : Except ChildRun ChildRun :=
  match childStep child c.fds op with
  | .error _ => .error c
  | .ok t => .ok ⟨t, c.closes ++ op.closed⟩

/-- `err_child`, where `f` are the variables: behind the report it closes `status_pipe[0]`. -/
def errChild (c : ChildRun) (f : SpawnFds) : ChildRun :=
  let fds := Stream.all.filterMap f.child ++ f.status0.toList
  ⟨fds.foldl FdTable.close c.fds, c.closes ++ fds⟩

end ChildRun

/-- The child's part of `yo_proc_spawn`. -/
def childRun (args : SpawnArgs) (child : ChildAnswers) (f : SpawnFds) (t : FdTable) : ChildRun :=
  match (f.status0.toList.map ChildOp.close ++ f.copies Stream.all).foldlM (ChildRun.call child)
      ⟨t, []⟩ with
  | .error c => c.errChild f
  | .ok c =>
    match (f.tail args).foldlM (ChildRun.call child) c with
    | .error c => c.errChild f.clearChild
    | .ok c => c

/-! ## The whole call -/

/-- The handle of a stream: `owned` and `fd`. -/
structure StreamHandle where
  owned : Bool
  fd : ℕ
  deriving DecidableEq

/-- What a call of `yo_proc_spawn` leaves: the parent's descriptors, the arguments of `close` in the
parent, and in the child if there is one, whether `waitpid` was called, whether `*pres` was
assigned, what `*pin`, `*pout` and `*perr` were assigned, and the result. -/
structure SpawnOutcome where
  fds : FdTable
  closes : List ℕ
  child : Option (List ℕ)
  waited : Bool
  pres : Bool
  handle : Stream → Option StreamHandle
  code : YoCode

/-- `yo_proc_spawn`, where no call of `close` or `waitpid` fails, and there is memory for the handle
of the process. -/
def yoProcSpawn (args : SpawnArgs) (ans : SpawnFaults) (k : Kernel) : SpawnOutcome :=
  match beforeFork args ans k with
  | .error (e, s) =>
    ⟨s.kernel.fds, s.closes, none, false, false, fun _ => none, yoiUnixConvErrno e⟩
  | .ok s =>
    let child := (childRun args ans.child s.f s.kernel.fds).closes
    let s := s.afterFork
    match ans.read.error with
    | some e =>
      -- `err_read_status` waits for the child
      let s := s.errFork
      ⟨s.kernel.fds, s.closes, some child, true, false, fun _ => none, yoiUnixConvErrno e⟩
    | none =>
      ⟨s.kernel.fds, s.closes, some child, false, true,
        fun std => (s.f.parent std).map fun fd => ⟨true, fd⟩, .ok⟩

/-! ## What is to be released -/

/-- The parent's part.  After an error its descriptors are what they were, none was closed twice, a
child was waited for, and nothing was stored.  After a success it has one more for each stream that
was asked for, the end of a pipe, which the handle of that stream owns. -/
structure SpawnOutcome.ParentReleases (o : SpawnOutcome) (args : SpawnArgs) (k : Kernel) :
    Prop where
  failed : o.code ≠ .ok → (∀ fd, o.fds.lookup fd = k.fds.lookup fd) ∧ o.closes.Nodup ∧
    (o.child.isSome = true → o.waited = true) ∧ o.pres = false ∧ ∀ std, o.handle std = none
  succeeded : o.code = .ok →
    (∀ std, (o.handle std).isSome = args.redirect std) ∧
    (∀ std h, o.handle std = some h → h.owned = true ∧ k.fds.lookup h.fd = none ∧
      ∃ id, o.fds.lookup h.fd = some ⟨std.parentEnd id, false⟩) ∧
    (∀ std std' h h', o.handle std = some h → o.handle std' = some h' → h.fd = h'.fd →
      std = std') ∧
    ∀ fd, (∀ std h, o.handle std = some h → h.fd ≠ fd) → o.fds.lookup fd = k.fds.lookup fd

/-- And the child has not closed a descriptor twice either, if there is an error. -/
def SpawnOutcome.Releases (o : SpawnOutcome) (args : SpawnArgs) (k : Kernel) : Prop :=
  o.ParentReleases args k ∧ (o.code ≠ .ok → ∀ closes, o.child = some closes → closes.Nodup)

/-- Nothing fails up to `fork`. -/
def SpawnFaults.Forks (ans : SpawnFaults) (args : SpawnArgs) : Prop :=
  ans.statusPipe = none ∧ ans.fcntl = none ∧
    (∀ std, args.redirect std = true → ans.mkstd std = none) ∧ ans.fork = none

/-- No call of the child fails. -/
def SpawnFaults.Faultless (ans : SpawnFaults) (args : SpawnArgs) : Prop :=
  (∀ std, args.redirect std = true → ans.dup2 std.fileno = none) ∧
    (args.cwd = true → ans.chdir = none) ∧ ans.setmask = none ∧ ans.execve = none

/-! ## Closing the variables -/

variable {k k₀ : Kernel} {f f' : SpawnFds} {args : SpawnArgs} {ans : SpawnFaults}
  {child : ChildAnswers} {s s' : SpawnRun} {v : SpawnVar} {vs : List SpawnVar} {fd r : ℕ}
  {std : Stream} {t : FdTable} {c c' : ChildRun} {ops : List ChildOp}

namespace SpawnRun

theorem close_of_none (h : s.f.get v = none) : s.close v = s := by
  rw [close, h]

@[simp] theorem f_close (s : SpawnRun) (v : SpawnVar) : (s.close v).f = s.f := by
  unfold close
  split <;> rfl

/-- What is closed does not depend on the other variables. -/
theorem close_with (h : f'.get v = s.f.get v) :
    close { s with f := f' } v = { s.close v with f := f' } := by
  unfold close
  rw [h]
  cases s.f.get v <;> rfl

/-- Variables are closed one after the other. -/
def closeAll (s : SpawnRun) (vs : List SpawnVar) : SpawnRun := vs.foldl close s

/-- What that leaves. -/
theorem closeAll_spec (s : SpawnRun) (vs : List SpawnVar) :
    (s.closeAll vs).f = s.f ∧ (s.closeAll vs).closes = s.closes ++ vs.filterMap s.f.get ∧
      ∀ fd, (s.closeAll vs).kernel.fds.lookup fd =
        if fd ∈ vs.filterMap s.f.get then none else s.kernel.fds.lookup fd := by
  induction vs generalizing s with
  | nil => exact ⟨rfl, (List.append_nil _).symm, fun _ => rfl⟩
  | cons v vs ih =>
    have hcons : s.closeAll (v :: vs) = (s.close v).closeAll vs := rfl
    rw [hcons]
    obtain ⟨hf, hcloses, hlookup⟩ := ih (s.close v)
    cases hv : s.f.get v with
    | none =>
      rw [close_of_none hv] at hf hcloses hlookup ⊢
      rw [List.filterMap_cons_none hv]
      exact ⟨hf, hcloses, hlookup⟩
    | some fd =>
      have hclose : s.close v = ⟨{ s.kernel with fds := s.kernel.fds.close fd }, s.f,
          s.closes ++ [fd]⟩ := by rw [close, hv]
      rw [hclose] at hf hcloses hlookup ⊢
      rw [List.filterMap_cons_some hv]
      refine ⟨hf, by rw [hcloses, List.append_assoc, List.singleton_append], fun fd' => ?_⟩
      rw [hlookup, FdTable.lookup_close]
      by_cases hfd : fd' = fd <;> simp [hfd]

/-- What the ladder closes, from its first label on. -/
def ladder : List SpawnVar :=
  [.parent .stderr, .child .stderr, .parent .stdout, .child .stdout, .parent .stdin,
    .child .stdin, .status0, .status1]

theorem mem_ladder (v : SpawnVar) : v ∈ ladder := by
  cases v with
  | status0 => decide
  | status1 => decide
  | parent std => cases std <;> decide
  | child std => cases std <;> decide

theorem errFork_eq (s : SpawnRun) : s.errFork = s.closeAll ladder := rfl

/-- What the parent has closed when it tests what it has read. -/
def forgotten : List SpawnVar :=
  [.child .stdin, .child .stdout, .child .stderr, .status1, .status0]

theorem afterFork_eq (s : SpawnRun) :
    s.afterFork = { s.closeAll forgotten with f := ⟨none, none, s.f.parent, fun _ => none⟩ } := by
  have hf : (s.closeAll [.child .stdin, .child .stdout, .child .stderr]).f = s.f :=
    (s.closeAll_spec _).1
  have hparts : s.closeAll forgotten =
      ((s.closeAll [.child .stdin, .child .stdout, .child .stderr]).close .status1).close
        .status0 := rfl
  have hafter : s.afterFork =
      let s := s.closeAll [.child .stdin, .child .stdout, .child .stderr]
      let s := close { s with f := s.f.clearChild } .status1
      let s := close { s with f := { s.f with status1 := none } } .status0
      { s with f := { s.f with status0 := none } } := rfl
  rw [hafter, hparts, ← hf]
  generalize s.closeAll [.child .stdin, .child .stdout, .child .stderr] = u
  have hone : close { u with f := u.f.clearChild } .status1 =
      { u.close .status1 with f := u.f.clearChild } := close_with rfl
  have hzero : close { u.close .status1 with f := { u.f.clearChild with status1 := none } }
      .status0 = { (u.close .status1).close .status0 with
        f := { u.f.clearChild with status1 := none } } :=
    close_with (by rw [f_close]; rfl)
  simp only [hone, hzero]
  rfl

end SpawnRun

/-! ## What is open on the way -/

/-- The variables hold the descriptors that the call has opened, each another one, and nothing is
closed yet. -/
structure Opened (k₀ : Kernel) (s : SpawnRun) : Prop where
  closes : s.closes = []
  inj : ∀ v v' fd, s.f.get v = some fd → s.f.get v' = some fd → v = v'
  isOpen : ∀ v fd, s.f.get v = some fd → s.kernel.fds.lookup fd ≠ none
  fresh : ∀ v fd, s.f.get v = some fd → k₀.fds.lookup fd = none
  rest : ∀ fd, (∀ v, s.f.get v ≠ some fd) → s.kernel.fds.lookup fd = k₀.fds.lookup fd

/-- The parent has open what it had before, and has not closed anything twice. -/
structure Restored (k₀ : Kernel) (s : SpawnRun) : Prop where
  fds : ∀ fd, s.kernel.fds.lookup fd = k₀.fds.lookup fd
  closes : s.closes.Nodup

namespace Opened

/-- The numbers of different variables are different. -/
theorem nodup (h : Opened k₀ s) (hvs : vs.Nodup) : (vs.filterMap s.f.get).Nodup :=
  hvs.filterMap fun v v' fd hv hv' => h.inj v v' fd hv hv'

/-- **The whole ladder puts back what was open before.** -/
theorem errFork (h : Opened k₀ s) : Restored k₀ s.errFork := by
  obtain ⟨-, hcloses, hlookup⟩ := s.closeAll_spec SpawnRun.ladder
  rw [SpawnRun.errFork_eq]
  refine ⟨fun fd => ?_, by rw [hcloses, h.closes]; exact h.nodup (by decide)⟩
  rw [hlookup]
  split
  · rename_i hfd
    obtain ⟨v, -, hv⟩ := List.mem_filterMap.mp hfd
    exact (h.fresh v fd hv).symm
  · rename_i hfd
    refine h.rest fd fun v hv => hfd (List.mem_filterMap.mpr ⟨v, SpawnRun.mem_ladder v, hv⟩)

/-- **A later label does as much** where the streams before it have no pipe yet. -/
theorem errMkstdErr (h : Opened k₀ s) (herr : Pending s.f [.stderr]) :
    Restored k₀ s.errMkstdErr := by
  obtain ⟨hparent, hchild⟩ := herr .stderr (by simp)
  have heq : s.errFork = s.errMkstdErr := by
    rw [SpawnRun.errFork, SpawnRun.close_of_none (v := .parent .stderr) hparent,
      SpawnRun.close_of_none (v := .child .stderr) hchild]
  exact heq ▸ h.errFork

theorem errMkstdOut (h : Opened k₀ s) (hout : Pending s.f [.stdout, .stderr]) :
    Restored k₀ s.errMkstdOut := by
  obtain ⟨hparent, hchild⟩ := hout .stdout (by simp)
  have heq : s.errMkstdErr = s.errMkstdOut := by
    rw [SpawnRun.errMkstdErr, SpawnRun.close_of_none (v := .parent .stdout) hparent,
      SpawnRun.close_of_none (v := .child .stdout) hchild]
  exact heq ▸ h.errMkstdErr fun std hstd => hout std (List.mem_cons_of_mem _ hstd)

theorem errMkstdIn (h : Opened k₀ s) (hin : Pending s.f Stream.all) :
    Restored k₀ s.errMkstdIn := by
  obtain ⟨hparent, hchild⟩ := hin .stdin (by simp)
  have heq : s.errMkstdOut = s.errMkstdIn := by
    rw [SpawnRun.errMkstdOut, SpawnRun.close_of_none (v := .parent .stdin) hparent,
      SpawnRun.close_of_none (v := .child .stdin) hchild]
  exact heq ▸ h.errMkstdOut fun std hstd => hin std (List.mem_cons_of_mem _ hstd)

/-- A new pipe whose ends are stored in two variables that hold nothing. -/
theorem pipe {k' : Kernel} {a b : ℕ} (h : Opened k₀ s) (va vb : SpawnVar)
    (hva : s.f.get va = none) (hvb : s.f.get vb = none) (hab : a ≠ b) (hne : va ≠ vb)
    (ha : s.kernel.fds.lookup a = none) (hb : s.kernel.fds.lookup b = none)
    (hopen : k'.fds.lookup a ≠ none ∧ k'.fds.lookup b ≠ none)
    (hsame : ∀ fd, fd ≠ a → fd ≠ b → k'.fds.lookup fd = s.kernel.fds.lookup fd)
    (hget : ∀ v, f'.get v = if v = va then some a else if v = vb then some b else s.f.get v) :
    Opened k₀ { s with kernel := k', f := f' } := by
  have hold : ∀ {v fd}, s.f.get v = some fd → fd ≠ a ∧ fd ≠ b := fun {v fd} hv =>
    ⟨fun e => h.isOpen v fd hv (e ▸ ha), fun e => h.isOpen v fd hv (e ▸ hb)⟩
  have hcases : ∀ {v fd}, f'.get v = some fd →
      v = va ∧ fd = a ∨ v = vb ∧ fd = b ∨ s.f.get v = some fd := fun {v fd} hv => by
    rw [hget] at hv
    split at hv
    · exact .inl ⟨by assumption, (Option.some.inj hv).symm⟩
    · split at hv
      · exact .inr (.inl ⟨by assumption, (Option.some.inj hv).symm⟩)
      · exact .inr (.inr hv)
  have hclosed : ∀ {fd}, s.kernel.fds.lookup fd = none → k₀.fds.lookup fd = none :=
    fun {fd} hfd => by rw [← h.rest fd fun v hv => h.isOpen v fd hv hfd, hfd]
  refine ⟨h.closes, fun v v' fd hv hv' => ?_, fun v fd hv => ?_, fun v fd hv => ?_,
    fun fd hfd => ?_⟩
  · rcases hcases hv with ⟨rfl, rfl⟩ | ⟨rfl, rfl⟩ | hv <;>
      rcases hcases hv' with ⟨rfl, hfd⟩ | ⟨rfl, hfd⟩ | hv'
    · rfl
    · exact absurd hfd hab
    · exact absurd rfl (hold hv').1
    · exact absurd hfd.symm hab
    · rfl
    · exact absurd rfl (hold hv').2
    · exact absurd hfd (hold hv).1
    · exact absurd hfd (hold hv).2
    · exact h.inj v v' fd hv hv'
  · rcases hcases hv with ⟨-, rfl⟩ | ⟨-, rfl⟩ | hv
    · exact hopen.1
    · exact hopen.2
    · rw [hsame fd (hold hv).1 (hold hv).2]
      exact h.isOpen v fd hv
  · rcases hcases hv with ⟨-, rfl⟩ | ⟨-, rfl⟩ | hv
    · exact hclosed ha
    · exact hclosed hb
    · exact h.fresh v fd hv
  · have hfa : fd ≠ a := fun e => hfd va (by rw [hget, if_pos rfl, e])
    have hfb : fd ≠ b := fun e => hfd vb (by rw [hget, if_neg hne.symm, if_pos rfl, e])
    rw [hsame fd hfa hfb]
    refine h.rest fd fun v hv => ?_
    by_cases hva' : v = va
    · rw [hva', hva] at hv
      cases hv
    · by_cases hvb' : v = vb
      · rw [hvb', hvb] at hv
        cases hv
      · exact hfd v (by rw [hget, if_neg hva', if_neg hvb', hv])

/-- The pipe of a stream. -/
theorem mkstd (h : Opened k₀ s) (hstd : Pending s.f [std]) : Opened k₀ (s.mkstd std) := by
  obtain ⟨hparent, hchild⟩ := hstd std (by simp)
  obtain ⟨a, b, hf, ha, hb, -, hla, hlb, hrest⟩ := mkstd_spec s.kernel s.f std
  have hab : a ≠ b := by
    intro e
    rw [e, hlb] at hla
    cases std <;> simp [Stream.parentEnd, Stream.childEnd] at hla
  unfold SpawnRun.mkstd
  generalize Yaooi.mkstd s.kernel s.f std = p at hf hla hlb hrest ⊢
  obtain ⟨k', f'⟩ := p
  dsimp only at hf hla hlb hrest ⊢
  refine h.pipe (.parent std) (.child std) hparent hchild hab (by simp) ha hb
    ⟨by rw [hla]; simp, by rw [hlb]; simp⟩ hrest fun v => ?_
  rw [hf]
  cases v with
  | status0 | status1 => simp [SpawnFds.get]
  | parent std' =>
    by_cases heq : std' = std <;> simp [SpawnFds.get, heq]
  | child std' =>
    by_cases heq : std' = std <;> simp [SpawnFds.get, heq]

/-- The status pipe. -/
theorem statusPipe (h : Opened k₀ s) (h0 : s.f.status0 = none) (h1 : s.f.status1 = none) :
    Opened k₀ s.statusPipe := by
  unfold SpawnRun.statusPipe
  generalize hpipe : s.kernel.pipe = p
  obtain ⟨k', r, w⟩ := p
  obtain ⟨hne, hr, hw, -, hlookup⟩ := pipe_spec hpipe
  refine h.pipe .status0 .status1 h0 h1 hne (by simp) hr hw
    ⟨by simp [hlookup, hne], by simp [hlookup]⟩ (fun fd hfr hfw => by simp [hlookup, hfr, hfw])
    fun v => ?_
  cases v <;> simp [SpawnFds.get]

/-- `fcntl` changes a flag of a descriptor that is open. -/
theorem setCloexec (h : Opened k₀ s) (v : SpawnVar) : Opened k₀ (s.setCloexec v) := by
  unfold SpawnRun.setCloexec
  cases hv : s.f.get v with
  | none => exact h
  | some fd =>
    refine ⟨h.closes, h.inj, fun v' fd' hv' => ?_, h.fresh, fun fd' hfd' => ?_⟩
    · have hopen := h.isOpen v' fd' hv'
      dsimp only
      rw [FdTable.lookup_setCloexec]
      split
      · simpa using hopen
      · exact hopen
    · have hne : fd' ≠ fd := fun e => hfd' v (e ▸ hv)
      dsimp only
      rw [FdTable.lookup_setCloexec, if_neg hne]
      exact h.rest fd' hfd'

end Opened

/-! ## Up to `fork` -/

variable {P Q R : SpawnRun → Prop} {x : Except (Errno × SpawnRun) SpawnRun}
  {g : SpawnRun → Except (Errno × SpawnRun) SpawnRun} {label act : SpawnRun → SpawnRun}
  {fault : Option Errno} {l : List Stream} {e : Errno}

/-- What holds where a part of the call is done, and where it has failed. -/
def Ends (P Q : SpawnRun → Prop) : Except (Errno × SpawnRun) SpawnRun → Prop
  | .ok s => P s
  | .error (_, s) => Q s

theorem Ends.bind (hx : Ends P Q x) (hg : ∀ s, P s → Ends R Q (g s)) : Ends R Q (x >>= g) := by
  cases x with
  | ok s => exact hg s hx
  | error q => exact hx

/-- A call either fails, and the label is next, or it is done. -/
theorem ends_tryCall (hlabel : Q (label s)) (hact : P (act s)) :
    Ends P Q (s.tryCall fault label act) := by
  unfold SpawnRun.tryCall
  cases fault with
  | none => exact hact
  | some e => exact hlabel

/-- A stream is redirected. -/
theorem ends_redirectRun (h : Opened k₀ s) (hpending : Pending s.f (std :: l)) (hl : std ∉ l)
    (hlabel : Restored k₀ (label s)) :
    Ends (fun s => Opened k₀ s ∧ Pending s.f l) (Restored k₀)
      (redirectRun args ans std label s) := by
  have hrest : Pending s.f l := fun std' hstd' => hpending std' (List.mem_cons_of_mem _ hstd')
  unfold redirectRun
  split
  · refine ends_tryCall hlabel ⟨h.mkstd fun std' hstd' => ?_, fun std' hstd' => ?_⟩
    · exact hpending std' (by simp_all)
    · obtain ⟨a, b, hf, -⟩ := mkstd_spec s.kernel s.f std
      have hne : std' ≠ std := fun e => hl (e ▸ hstd')
      simpa [SpawnRun.mkstd, hf, Function.update_of_ne hne] using hrest std' hstd'
  · exact ⟨h, hrest⟩

/-- Nothing is redirected yet. -/
def Unredirected (k₀ : Kernel) (s : SpawnRun) : Prop := Opened k₀ s ∧ Pending s.f Stream.all

/-- Opening the status pipe. -/
theorem openStatus_spec (ans : SpawnFaults) (k₀ : Kernel) :
    Ends (Unredirected k₀) (Restored k₀) (openStatus ans k₀) := by
  have hstart : Opened k₀ ⟨k₀, ⟨none, none, fun _ => none, fun _ => none⟩, []⟩ := by
    refine ⟨rfl, fun v v' fd hv => ?_, fun v fd hv => ?_, fun v fd hv => ?_, fun _ _ => rfl⟩
    all_goals cases v <;> simp [SpawnFds.get] at hv
  have hf : ∀ (v : SpawnVar) (s : SpawnRun), (s.setCloexec v).f = s.f := by
    intro v s
    unfold SpawnRun.setCloexec
    split <;> rfl
  -- no stream has a pipe yet, so all the ladder has to do is done by its last label
  have hlabel : ∀ s, Unredirected k₀ s → Restored k₀ s.errFnctlStatus :=
    fun s h => h.1.errMkstdIn h.2
  have hflag : ∀ v s, Unredirected k₀ s → Unredirected k₀ (s.setCloexec v) :=
    fun v s h => ⟨h.1.setCloexec v, (hf v s).symm ▸ h.2⟩
  refine (ends_tryCall (P := Unredirected k₀) ⟨fun _ => rfl, List.nodup_nil⟩
    ⟨hstart.statusPipe rfl rfl, fun _ _ => ⟨rfl, rfl⟩⟩).bind fun s h => ?_
  refine (ends_tryCall (P := Unredirected k₀) (hlabel s h) (hflag .status0 s h)).bind fun s h => ?_
  refine (ends_tryCall (P := Unredirected k₀) (hlabel s h) (hflag .status1 s h)).bind fun s h => ?_
  exact ends_tryCall (hlabel s h) h

/-- **Wherever a call fails before `fork`, the parent gets back what it had.** -/
theorem beforeFork_spec (args : SpawnArgs) (ans : SpawnFaults) (k₀ : Kernel) :
    Ends (Opened k₀) (Restored k₀) (beforeFork args ans k₀) := by
  refine (openStatus_spec ans k₀).bind fun s h => ?_
  refine Ends.bind (P := Opened k₀) ?_ fun s h => ends_tryCall h.errFork h
  refine (ends_redirectRun (l := [.stdout, .stderr]) h.1 h.2 (by decide)
    (h.1.errMkstdIn h.2)).bind fun s h => ?_
  refine (ends_redirectRun (l := [.stderr]) h.1 h.2 (by decide) (h.1.errMkstdOut h.2)).bind
    fun s h => ?_
  have hlast : Ends _ _ (redirectRun args ans .stderr .errMkstdErr s) :=
    ends_redirectRun (l := []) h.1 h.2 (by decide) (h.1.errMkstdErr h.2)
  generalize redirectRun args ans .stderr .errMkstdErr s = x at hlast ⊢
  cases x with
  | ok s => exact hlast.1
  | error q => exact hlast

/-! ## The same as `prepare` -/

/-- The stream is redirected as in `redirect`. -/
theorem redirectRun_eq (s : SpawnRun) : redirectRun args ans std label s =
    match redirect args ans.answers (s.kernel, s.f) std with
    | .ok (k, f) => .ok { s with kernel := k, f := f }
    | .error (e, _) => .error (e, label s) := by
  unfold redirectRun redirect SpawnRun.tryCall
  cases args.redirect std with
  | false => rfl
  | true =>
    simp only [if_true, SpawnFaults.answers]
    cases ans.mkstd std <;> rfl

/-- The streams are redirected as there. -/
theorem redirectRuns_eq (args : SpawnArgs) (ans : SpawnFaults) (s : SpawnRun) :
    match redirectRuns args ans s with
    | .ok s' => Stream.all.foldlM (redirect args ans.answers) (s.kernel, s.f) =
        .ok (s'.kernel, s'.f)
    | .error (e, _) => ∃ p, Stream.all.foldlM (redirect args ans.answers) (s.kernel, s.f) =
        .error (e, p) := by
  simp only [redirectRuns, redirectRun_eq, Stream.all, List.foldlM_cons, List.foldlM_nil, bind,
    Except.bind, pure, Except.pure]
  cases hin : redirect args ans.answers (s.kernel, s.f) .stdin with
  | error q => exact ⟨_, rfl⟩
  | ok p =>
    simp only
    cases hout : redirect args ans.answers p .stdout with
    | error q => exact ⟨_, rfl⟩
    | ok p =>
      simp only
      cases herr : redirect args ans.answers p .stderr with
      | error q => exact ⟨_, rfl⟩
      | ok p => rfl

/-- The status pipe is opened as there. -/
theorem openStatus_eq (ans : SpawnFaults) (k₀ : Kernel) :
    match openStatus ans k₀ with
    | .ok s => ans.statusPipe = none ∧ ans.fcntl = none ∧
        s = ⟨⟨(k₀.pipe.1.fds.setCloexec k₀.pipe.2.1).setCloexec k₀.pipe.2.2, k₀.pipe.1.pipes⟩,
          ⟨some k₀.pipe.2.1, some k₀.pipe.2.2, fun _ => none, fun _ => none⟩, []⟩
    | .error (e, _) => ans.statusPipe = some e ∨ ans.statusPipe = none ∧ ans.fcntl = some e := by
  unfold openStatus SpawnFaults.fcntl SpawnRun.tryCall
  cases ans.statusPipe with
  | some e => exact .inl rfl
  | none =>
    cases ans.cloexec0 with
    | some e => exact .inr ⟨rfl, rfl⟩
    | none =>
      cases ans.cloexec1 with
      | some e => exact .inr ⟨rfl, rfl⟩
      | none =>
        cases ans.nonblock with
        | some e => exact .inr ⟨rfl, rfl⟩
        | none => exact ⟨rfl, rfl, rfl⟩

/-- **The parent forks with what `prepare` says**, and gives up where that does. -/
theorem beforeFork_eq_prepare (args : SpawnArgs) (ans : SpawnFaults) (k₀ : Kernel) :
    match beforeFork args ans k₀ with
    | .ok s => prepare args ans.answers k₀ = (s.kernel, .ok s.f)
    | .error (e, _) => (prepare args ans.answers k₀).2 = .error e := by
  have hopen := openStatus_eq ans k₀
  unfold beforeFork prepare
  generalize openStatus ans k₀ = x at hopen ⊢
  cases x with
  | error q =>
    rcases hopen with hstatus | ⟨hstatus, hfcntl⟩
    · simp [SpawnFaults.answers, hstatus, bind, Except.bind]
    · simp [SpawnFaults.answers, hstatus, hfcntl, bind, Except.bind]
  | ok s =>
    obtain ⟨hstatus, hfcntl, hs⟩ := hopen
    have hruns := redirectRuns_eq args ans s
    have hkernel : (⟨(k₀.pipe.1.fds.setCloexec k₀.pipe.2.1).setCloexec k₀.pipe.2.2,
        k₀.pipe.1.pipes⟩ : Kernel) = s.kernel := by rw [hs]
    have hvars : (⟨some k₀.pipe.2.1, some k₀.pipe.2.2, fun _ => none, fun _ => none⟩ :
        SpawnFds) = s.f := by rw [hs]
    have hanswers : ans.answers.statusPipe = none ∧ ans.answers.fcntl = none ∧
        ans.answers.fork = ans.fork := ⟨hstatus, hfcntl, rfl⟩
    simp only [bind, Except.bind, hanswers, hkernel, hvars]
    generalize redirectRuns args ans s = x at hruns ⊢
    cases x with
    | error q =>
      obtain ⟨p, hp⟩ := hruns
      simp only [hp]
    | ok s' =>
      dsimp only at hruns
      simp only [hruns, SpawnRun.tryCall]
      cases ans.fork <;> rfl

/-! ## Behind `fork` -/

namespace Opened

/-- What the parent has closed behind `fork`. -/
theorem lookup_afterFork (h : Opened k₀ s) : s.afterFork.f.parent = s.f.parent ∧
    s.afterFork.closes = SpawnRun.forgotten.filterMap s.f.get ∧
      ∀ fd, s.afterFork.kernel.fds.lookup fd =
        if fd ∈ SpawnRun.forgotten.filterMap s.f.get then none else s.kernel.fds.lookup fd := by
  obtain ⟨-, hcloses, hlookup⟩ := s.closeAll_spec SpawnRun.forgotten
  rw [s.afterFork_eq]
  exact ⟨rfl, by rw [hcloses, h.closes]; rfl, hlookup⟩

/-- **After an error that the status pipe reports, the ladder puts back the rest.** -/
theorem errFork_afterFork (h : Opened k₀ s) : Restored k₀ s.afterFork.errFork := by
  obtain ⟨-, hcloses, hlookup⟩ := h.lookup_afterFork
  obtain ⟨-, hcloses', hlookup'⟩ := s.afterFork.closeAll_spec SpawnRun.ladder
  have hladder : SpawnRun.ladder.filterMap s.afterFork.f.get =
      [SpawnVar.parent .stderr, .parent .stdout, .parent .stdin].filterMap s.f.get := by
    rw [s.afterFork_eq]
    simp [SpawnRun.ladder, List.filterMap_cons, SpawnFds.get]
  rw [SpawnRun.errFork_eq]
  refine ⟨fun fd => ?_, ?_⟩
  · rw [hlookup', hladder, hlookup]
    split
    · rename_i hfd
      obtain ⟨v, -, hv⟩ := List.mem_filterMap.mp hfd
      exact (h.fresh v fd hv).symm
    · rename_i hparent
      split
      · rename_i hfd
        obtain ⟨v, -, hv⟩ := List.mem_filterMap.mp hfd
        exact (h.fresh v fd hv).symm
      · rename_i hfd
        refine h.rest fd fun v hv => ?_
        have hmem : v ∈ SpawnRun.forgotten ∨
            v ∈ [SpawnVar.parent .stderr, .parent .stdout, .parent .stdin] := by
          cases v with
          | status0 | status1 => decide
          | parent std | child std => cases std <;> decide
        rcases hmem with hmem | hmem
        · exact hfd (List.mem_filterMap.mpr ⟨v, hmem, hv⟩)
        · exact hparent (List.mem_filterMap.mpr ⟨v, hmem, hv⟩)
  · rw [hcloses', hcloses, hladder, ← List.filterMap_append]
    exact h.nodup (by decide)

end Opened

/-- The calls of the child, with what they close. -/
theorem foldlM_call (child : ChildAnswers) (ops : List ChildOp) (c : ChildRun) :
    match ops.foldlM (ChildRun.call child) c with
    | .ok c' => runChild child c.fds ops = .ok c'.fds ∧
        c'.closes = c.closes ++ ops.flatMap ChildOp.closed
    | .error c' => (∃ e, runChild child c.fds ops = .error e) ∧ c.closes <+: c'.closes := by
  induction ops generalizing c with
  | nil => exact ⟨rfl, by simp⟩
  | cons op ops ih =>
    rw [List.foldlM_cons, runChild, List.foldlM_cons, ChildRun.call]
    cases hstep : childStep child c.fds op with
    | error e => exact ⟨⟨e, rfl⟩, List.prefix_refl _⟩
    | ok t =>
      have hrest := ih ⟨t, c.closes ++ op.closed⟩
      change match ops.foldlM (ChildRun.call child) ⟨t, c.closes ++ op.closed⟩ with
        | .ok c' => runChild child t ops = .ok c'.fds ∧
            c'.closes = c.closes ++ (op :: ops).flatMap ChildOp.closed
        | .error c' => (∃ e, runChild child t ops = .error e) ∧ c.closes <+: c'.closes
      generalize ops.foldlM (ChildRun.call child) ⟨t, c.closes ++ op.closed⟩ = x at hrest ⊢
      cases x with
      | ok c' =>
        refine ⟨hrest.1, ?_⟩
        rw [hrest.2, List.flatMap_cons, List.append_assoc]
      | error c' => exact ⟨hrest.1, (List.prefix_append _ _).trans hrest.2⟩

/-- At `err_child` a descriptor is closed that was closed before. -/
theorem not_nodup_errChild (hr : f.status0 = some r) (hclosed : r ∈ c.closes) :
    ¬ (c.errChild f).closes.Nodup := by
  intro hnodup
  simp only [ChildRun.errChild, hr, Option.toList_some] at hnodup
  exact (List.nodup_append.mp hnodup).2.2 r hclosed r (by simp) rfl

/-- What the child closes where nothing fails: `status_pipe[0]` and the ends of the streams. -/
theorem closed_eq (f : SpawnFds) : f.closed = [SpawnVar.parent .stdin, .parent .stdout,
    .parent .stderr, .child .stdin, .child .stdout, .child .stderr].filterMap f.get := by
  have hvars : [SpawnVar.parent .stdin, .parent .stdout, .parent .stderr, .child .stdin,
      .child .stdout, .child .stderr] =
        Stream.all.map SpawnVar.parent ++ Stream.all.map SpawnVar.child := rfl
  rw [SpawnFds.closed, ← List.filterMap_eq_flatMap_toList, ← List.filterMap_eq_flatMap_toList,
    hvars, List.filterMap_append, List.filterMap_map, List.filterMap_map]
  rfl

theorem closed_copies (f : SpawnFds) (l : List Stream) :
    (f.copies l).flatMap ChildOp.closed = [] := by
  simp [SpawnFds.copies, List.flatMap_assoc, ChildOp.closed]

theorem closed_tail (f : SpawnFds) (args : SpawnArgs) :
    (f.tail args).flatMap ChildOp.closed = f.closed := by
  cases hcwd : args.cwd <;>
    simp [SpawnFds.tail, hcwd, List.flatMap_append, List.flatMap_map, ChildOp.closed]

/-- What the child closes when all goes well is what the call holds, but for the end that it writes
to. -/
theorem nodup_closed (h : Opened k₀ s) (hr : s.f.status0 = some r) : (r :: s.f.closed).Nodup := by
  have hvars : r :: s.f.closed = [SpawnVar.status0, .parent .stdin, .parent .stdout,
      .parent .stderr, .child .stdin, .child .stdout, .child .stderr].filterMap s.f.get := by
    rw [List.filterMap_cons_some (by exact hr), closed_eq]
  rw [hvars]
  exact h.nodup (by decide)

/-- **The child closes a descriptor twice if and only if one of its calls fails.** -/
theorem nodup_childRun (h : Opened k₀ s) (hlayout : Layout k₀ s.kernel s.f)
    (hdone : Done args s.f []) :
    (childRun args ans.child s.f s.kernel.fds).closes.Nodup ↔ ans.Faultless args := by
  obtain ⟨r, w, hr, -⟩ := hlayout.status
  have hcalls : (∀ op ∈ childProgram args s.f, ans.child.fault op = none) ↔ _ := faultless_iff hdone
  have hiff : ans.Faultless args ↔ ∀ op ∈ childProgram args s.f, ans.child.fault op = none :=
    hcalls.symm
  have hwhole := (hlayout.runAll_childProgram hr args ans.child).2
  rw [Layout.childProgram_eq hr] at hiff hwhole
  rw [hiff]
  have hfirst := foldlM_call ans.child (.close r :: s.f.copies Stream.all) ⟨s.kernel.fds, []⟩
  unfold childRun
  rw [hr, Option.toList_some, List.map_singleton, List.singleton_append]
  generalize hx : (ChildOp.close r :: s.f.copies Stream.all).foldlM (ChildRun.call ans.child)
    ⟨s.kernel.fds, []⟩ = x at hfirst ⊢
  cases x with
  | error c =>
    obtain ⟨⟨e, he⟩, -⟩ := hfirst
    have hmem : r ∈ c.closes := by
      have hcopies := foldlM_call ans.child (s.f.copies Stream.all) ⟨s.kernel.fds.close r, [r]⟩
      have hx' : (s.f.copies Stream.all).foldlM (ChildRun.call ans.child)
          ⟨s.kernel.fds.close r, [r]⟩ = .error c := hx
      rw [hx'] at hcopies
      exact hcopies.2.subset (List.mem_singleton_self r)
    refine iff_of_false (not_nodup_errChild hr hmem) fun hfault => ?_
    have hok := hwhole hfault
    rw [runChild, List.foldlM_append] at hok
    rw [runChild] at he
    rw [he] at hok
    cases hok
  | ok c =>
    obtain ⟨hrun, hcloses⟩ := hfirst
    have hmem : r ∈ c.closes := by simp [hcloses, ChildOp.closed]
    have hsecond := foldlM_call ans.child (s.f.tail args) c
    dsimp only at hrun ⊢
    generalize (s.f.tail args).foldlM (ChildRun.call ans.child) c = x at hsecond ⊢
    cases x with
    | error c' =>
      obtain ⟨⟨e, he⟩, hpre⟩ := hsecond
      refine iff_of_false (not_nodup_errChild (f := s.f.clearChild) hr (hpre.subset hmem))
        fun hfault => ?_
      have hok := hwhole hfault
      rw [runChild_append hrun, he] at hok
      cases hok
    | ok c' =>
      obtain ⟨hrun', hcloses'⟩ := hsecond
      have hall : runChild ans.child s.kernel.fds
          (.close r :: s.f.copies Stream.all ++ s.f.tail args) = .ok c'.fds := by
        rw [runChild_append hrun, hrun']
      refine iff_of_true ?_ (runChild_eq_ok hall).1
      have heq : c'.closes = r :: s.f.closed := by
        rw [hcloses', hcloses, closed_tail, List.flatMap_cons, closed_copies]
        rfl
      rw [heq]
      exact nodup_closed h hr

/-! ## The whole call -/

/-- The parent gets as far as `fork`, and forks, if nothing fails. -/
theorem beforeFork_isOk : (∃ s, beforeFork args ans k₀ = .ok s) ↔ ans.Forks args := by
  have hprepare := beforeFork_eq_prepare args ans k₀
  rw [SpawnFaults.Forks]
  have hok : (∃ k f, prepare args ans.answers k₀ = (k, .ok f)) ↔ _ := prepare_isOk
  refine Iff.trans ?_ hok
  generalize beforeFork args ans k₀ = x at hprepare ⊢
  cases x with
  | ok s => exact iff_of_true ⟨s, rfl⟩ ⟨_, _, hprepare⟩
  | error q =>
    refine iff_of_false (by rintro ⟨s, hs⟩; cases hs) ?_
    rintro ⟨k, f, hkf⟩
    rw [hkf] at hprepare
    cases hprepare

/-- The parent's ends are its handles'. -/
theorem parentReleases_ok (closes : List ℕ) (child : Option (List ℕ)) (h : Opened k₀ s)
    (hlayout : Layout k₀ s.kernel s.f) (hdone : Done args s.f []) :
    SpawnOutcome.ParentReleases ⟨s.afterFork.kernel.fds, closes, child, false, true,
      fun std => (s.afterFork.f.parent std).map fun fd => ⟨true, fd⟩, .ok⟩ args k₀ := by
  obtain ⟨hparent, -, hlookup⟩ := h.lookup_afterFork
  have hkept : ∀ std fd, s.f.parent std = some fd →
      fd ∉ SpawnRun.forgotten.filterMap s.f.get := by
    intro std fd hfd hmem
    obtain ⟨v, hv, hget⟩ := List.mem_filterMap.mp hmem
    obtain rfl := h.inj v (.parent std) fd hget hfd
    cases std <;> simp [SpawnRun.forgotten] at hv
  refine ⟨fun hne => absurd rfl hne, fun _ => ⟨fun std => ?_, fun std hd hhd => ?_,
    fun std std' hd hd' hhd hhd' heq => ?_, fun fd hfd => ?_⟩⟩
  · simp only [hparent, Option.isSome_map]
    exact (hdone std (by simp)).1
  · simp only [hparent, Option.map_eq_some_iff] at hhd
    obtain ⟨fd, hstd, rfl⟩ := hhd
    refine ⟨rfl, h.fresh (.parent std) fd hstd, ?_⟩
    rcases hlayout.ends std with ⟨hnone, -⟩ | ⟨a, b, id, ha, -, -, -, hla, -⟩
    · rw [hnone] at hstd
      cases hstd
    · obtain rfl : a = fd := Option.some.inj (ha.symm.trans hstd)
      exact ⟨id, by rw [hlookup, if_neg (hkept std a hstd), hla]⟩
  · simp only [hparent, Option.map_eq_some_iff] at hhd hhd'
    obtain ⟨fd, hstd, rfl⟩ := hhd
    obtain ⟨fd', hstd', rfl⟩ := hhd'
    obtain rfl : fd = fd' := heq
    exact SpawnVar.parent.inj (h.inj (.parent std) (.parent std') fd hstd hstd')
  · dsimp only
    rw [hlookup]
    split
    · rename_i hmem
      obtain ⟨v, -, hv⟩ := List.mem_filterMap.mp hmem
      exact (h.fresh v fd hv).symm
    · rename_i hmem
      refine h.rest fd fun v hv => ?_
      cases v with
      | status0 | status1 => exact hmem (List.mem_filterMap.mpr ⟨_, by decide, hv⟩)
      | child std => exact hmem (List.mem_filterMap.mpr ⟨_, by cases std <;> decide, hv⟩)
      | parent std =>
        refine hfd std ⟨true, fd⟩ ?_ rfl
        simp only [hparent, Option.map_eq_some_iff]
        exact ⟨fd, hv, rfl⟩

/-- The parent has released all it opened. -/
theorem parentReleases_error (args : SpawnArgs) (e : Errno) (child : Option (List ℕ))
    (waited : Bool) (h : Restored k₀ s)
    (hwaited : child.isSome = true → waited = true) :
    SpawnOutcome.ParentReleases ⟨s.kernel.fds, s.closes, child, waited, false, fun _ => none,
      yoiUnixConvErrno e⟩ args k₀ :=
  ⟨fun _ => ⟨h.fds, h.closes, hwaited, rfl, fun _ => rfl⟩,
    fun hok => absurd hok (yoiUnixConvErrno_ne_ok e)⟩

/-- **When `yo_proc_spawn` releases everything.**  The parent always does.  The child, with its
second call of `close(status_pipe[0])` at `err_child`, does unless one of its calls fails; this
matters where the parent comes to know of it, or fails to read. -/
theorem releases_iff (args : SpawnArgs) (ans : SpawnFaults) (k : Kernel) :
    (yoProcSpawn args ans k).ParentReleases args k ∧
      ((yoProcSpawn args ans k).Releases args k ↔
        (ans.Forks args → ans.Faultless args ∨ ans.read = .eof)) := by
  have hspec := beforeFork_spec args ans k
  have hprepare := beforeFork_eq_prepare args ans k
  have hforks : (∃ s, beforeFork args ans k = .ok s) ↔ _ := beforeFork_isOk
  unfold yoProcSpawn
  generalize beforeFork args ans k = x at hspec hprepare hforks ⊢
  cases x with
  | error q =>
    have hparent := parentReleases_error args q.1 none false hspec (by simp)
    refine ⟨hparent, iff_of_true ⟨hparent, fun _ closes h => by cases h⟩ fun hf => ?_⟩
    obtain ⟨s, hs⟩ := hforks.mpr hf
    cases hs
  | ok s =>
    obtain ⟨hlayout, hdone⟩ := layout_prepare hprepare
    cases hread : ans.read.error with
    | some e =>
      have hparent := parentReleases_error args e
        (some (childRun args ans.child s.f s.kernel.fds).closes) true hspec.errFork_afterFork
        (by simp)
      have hne : ans.read ≠ .eof := by
        intro heq
        rw [heq] at hread
        cases hread
      refine ⟨hparent, ?_⟩
      simp only [SpawnOutcome.Releases, and_iff_right hparent, ne_eq, yoiUnixConvErrno_ne_ok,
        not_false_eq_true, Option.some.injEq, forall_eq', hforks.mp ⟨s, rfl⟩, forall_const, hne,
        or_false]
      exact nodup_childRun hspec hlayout hdone
    | none =>
      have heof : ans.read = .eof := by
        cases h : ans.read <;> simp [h, StatusRead.error] at hread ⊢
      have hparent := parentReleases_ok s.afterFork.closes
        (some (childRun args ans.child s.f s.kernel.fds).closes) hspec hlayout hdone
      exact ⟨hparent, iff_of_true ⟨hparent, fun hne => absurd rfl hne⟩ fun _ => .inr heof⟩

/-- The program does not exist. -/
def noProgram : SpawnFaults where
  statusPipe := none
  cloexec0 := none
  cloexec1 := none
  nonblock := none
  mem _ := true
  pipe _ := none
  fork := none
  dup2 _ := none
  chdir := none
  setmask := none
  execve := some .enoent
  read := .whole .enoent

/-- A parent with three descriptors starts it with its input redirected.  The status pipe is at 3
and 4; the child closes 3 first of all, and again behind its report. -/
theorem not_releases_noProgram :
    let o := yoProcSpawn ⟨fun std => std = .stdin, false⟩ noProgram
      ⟨(List.range 3).map fun id => some ⟨.other id, false⟩, 0⟩
    o.code = .enoent ∧ o.child = some [3, 6, 5, 3] ∧
      ¬ o.Releases ⟨fun std => std = .stdin, false⟩
        ⟨(List.range 3).map fun id => some ⟨.other id, false⟩, 0⟩ := by
  refine ⟨rfl, rfl, fun h => ?_⟩
  have hnodup := h.2 (by decide) [3, 6, 5, 3] rfl
  exact absurd hnodup (by decide)

end Yaooi
