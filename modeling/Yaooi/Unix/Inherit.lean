import Yaooi.Lib.Transition
import Yaooi.Unix.Spawn

/-!
# What a child inherits

Calls of `yo_proc_spawn` of `src/unix/impl.c` one after the other, with the handles that they give
out, the children that run, and whatever else the parent opens and closes.  The pipes for the
streams of a child are made without `FD_CLOEXEC`, so while the parent has a handle of one child,
another child that it starts gets this end of the pipe too.

* `lookup_childTable` and `inherited_childTable`: what a child has open after `execve`.
* `Family.Confined`: a child has no pipe ends but its own; `Family.deliversEof`: then the end of its
  standard input comes when the parent closes its end.
* `confined_iff`: this holds throughout a run if and only if no child is started while a handle of
  another one is open.
-/

namespace Yaooi

open Transition

/-! ## The child -/

/-- What is answered after `fork`: the errors of the child's calls, where `dup2` has one for each
descriptor that it is to open, whether a signal ends the child before it gets to its program, and
the errors of `read` and `waitpid` in the parent. -/
structure ChildAnswers where
  dup2 : ℕ → Option Errno
  chdir : Option Errno
  setmask : Option Errno
  execve : Option Errno
  killed : Bool
  read : Option Errno
  reap : Option Errno

/-- The error of this call. -/
def ChildAnswers.fault (ans : ChildAnswers) : ChildOp → Option Errno
  | .close _ => none
  | .dup2 _ dst => ans.dup2 dst
  | .chdir => ans.chdir
  | .setmask => ans.setmask
  | .execve => ans.execve

/-- A call of the child.  Where it fails, the child goes to `err_child` with what it has open. -/
def childStep (ans : ChildAnswers) (t : FdTable) (op : ChildOp) :
    Except (Errno × FdTable) FdTable :=
  match op.error t (ans.fault op) with
  | some e => .error (e, t)
  | none => .ok (op.run t)

/-- The calls of the child up to its program. -/
def runChild (ans : ChildAnswers) (t : FdTable) (ops : List ChildOp) :
    Except (Errno × FdTable) FdTable :=
  ops.foldlM (childStep ans) t

/-- What the child has open after `execve`, if it gets there. -/
def childTable (args : SpawnArgs) (ans : ChildAnswers) (k : Kernel) (f : SpawnFds) :
    Option FdTable :=
  if ans.killed then none else (runChild ans k.fds (childProgram args f)).toOption

/-! ## The parent and its children -/

/-- The number of the pipe that this is an end of. -/
def OpenFile.pipe : OpenFile → Option ℕ
  | pipeRead id => some id
  | pipeWrite id => some id
  | other _ => none

/-- The number of the pipe that is open at a descriptor. -/
def Kernel.pipeAt (k : Kernel) (fd : Option ℕ) : Option ℕ :=
  (fd.bind k.fds.lookup).bind fun d => d.file.pipe

/-- A call of the child fails, and what it writes to `status_pipe[1]` gets to the parent.  It does
not where a stream has been copied over this descriptor: then the parent reads nothing. -/
def reported (args : SpawnArgs) (ans : ChildAnswers) (k : Kernel) (f : SpawnFds) : Bool :=
  match runChild ans k.fds (childProgram args f) with
  | .ok _ => false
  | .error (_, t) =>
    (f.status1.bind t.lookup).map Desc.file = (k.pipeAt f.status0).map OpenFile.pipeWrite

/-- A child that has got to its program: what it has had open then, the pipes that were made for its
streams, and whether it still runs. -/
structure Program where
  fds : FdTable
  pipe : Stream → Option ℕ
  running : Bool

/-- The parent, whether it runs, the descriptors of its handles, and its children. -/
structure Family where
  kernel : Kernel
  alive : Bool
  handles : List ℕ
  children : List Program

/-- A call of the parent, or the end of a child. -/
inductive FamilyAct where
  /-- `yo_proc_spawn` -/
  | spawn (args : SpawnArgs) (ans : SpawnAnswers) (child : ChildAnswers)
  /-- `yo_fd_close` -/
  | close (fd : ℕ)
  /-- The parent opens something else. -/
  | openOther (id : ℕ) (cloexec : Bool)
  /-- The parent closes something else. -/
  | closeOther (fd : ℕ)
  /-- A child ends. -/
  | exit (i : ℕ)

namespace Family

/-- `yo_proc_spawn` -/
def spawn (s : Family) (args : SpawnArgs) (ans : SpawnAnswers) (child : ChildAnswers) : Family :=
  match prepare args ans s.kernel with
  | (k, .error _) => { s with kernel := k }
  | (k, .ok f) =>
    let fds := (closeChildEnds k.fds f).closeOpt f.status0
    let table := childTable args child k f
    -- there is an error in the status pipe, or `read` itself fails
    let failed := child.read.isSome || !child.killed && reported args child k f
    let programs := table.toList.map fun t =>
      ⟨t, fun std => k.pipeAt (f.child std), !failed || child.reap.isSome⟩
    if failed then { s with
      kernel := { k with fds := cleanup fds { f.afterFork with status0 := none } }
      children := s.children ++ programs }
    else if ans.proc then { s with
      kernel := { k with fds := fds }
      handles := s.handles ++ Stream.all.filterMap f.parent
      children := s.children ++ programs }
    -- `res->pid = pid` without memory for `res`
    else ⟨{ k with fds := [] }, false, [], s.children ++ programs⟩

/-- A step of the parent, while it runs, or the end of a child. -/
def step (s : Family) : FamilyAct → Option Family
  | .spawn args ans child => if s.alive then some (s.spawn args ans child) else none
  | .close fd =>
    if s.alive ∧ fd ∈ s.handles then some { s with
      kernel := { s.kernel with fds := s.kernel.fds.close fd }
      handles := s.handles.filter (· ≠ fd) }
    else none
  | .openOther id cloexec =>
    if s.alive then some { s with
      kernel := { s.kernel with
        fds := s.kernel.fds.install s.kernel.fds.free ⟨.other id, cloexec⟩ } }
    else none
  | .closeOther fd =>
    if s.alive ∧ fd ∉ s.handles then some { s with
      kernel := { s.kernel with fds := s.kernel.fds.close fd } }
    else none
  | .exit i => some { s with
      children := s.children.modify i fun c => { c with running := false } }

/-- The parent starts with anything open but pipes of its own. -/
def system : System Family FamilyAct where
  init s := (∀ fd d, s.kernel.fds.lookup fd = some d → d.file.pipe = none) ∧ s.alive = true ∧
    s.handles = [] ∧ s.children = []
  step := Family.step

end Family

/-- The child has no pipe ends but the ones that were made for it. -/
def Program.Confined (c : Program) : Prop :=
  ∀ fd d id, c.fds.lookup fd = some d → d.file.pipe = some id →
    ∃ std, c.pipe std = some id ∧ d.file = std.childEnd id

namespace Family

/-- No child has the end of a pipe of another one, or one of the parent's ends. -/
def Confined (s : Family) : Prop := ∀ c ∈ s.children, c.Confined

/-- When the parent has closed its end of the standard input of a child, no process can write into
it. -/
def DeliversEof (s : Family) : Prop :=
  ∀ c ∈ s.children, ∀ id, c.pipe .stdin = some id → s.kernel.fds.hasWriter id = false →
    ∀ c' ∈ s.children, c'.running = true → c'.fds.hasWriter id = false

end Family

/-- All calls succeed, and the child gets to its program. -/
def Executes (args : SpawnArgs) (ans : SpawnAnswers) (child : ChildAnswers) : Prop :=
  (ans.statusPipe = none ∧ ans.fcntl = none ∧
    (∀ std, args.redirect std = true → ans.std std = none) ∧ ans.fork = none) ∧
      child.killed = false ∧ (∀ std, args.redirect std = true → child.dup2 std.fileno = none) ∧
        (args.cwd = true → child.chdir = none) ∧ child.setmask = none ∧ child.execve = none

/-- Where a child gets to its program, no handle of another one is open, unless it is a standard
descriptor that the child is given its own stream at. -/
def Family.Shielded (s : Family) : FamilyAct → Prop
  | .spawn args ans child => Executes args ans child →
      ∀ fd ∈ s.handles, ∃ std, args.redirect std = true ∧ fd = std.fileno
  | _ => True

/-! ## The calls of the child -/

variable {k k₀ k' : Kernel} {f : SpawnFds} {args : SpawnArgs} {ans : SpawnAnswers}
  {child : ChildAnswers} {t t' u : FdTable} {fd r w : ℕ} {d : Desc} {op : ChildOp}
  {ops ops' : List ChildOp}

/-- The calls, where they all succeed. -/
def runAll (t : FdTable) (ops : List ChildOp) : FdTable := ops.foldl (fun t op => op.run t) t

theorem runAll_append : runAll t (ops ++ ops') = runAll (runAll t ops) ops' := List.foldl_append

/-- A call has something to copy, if it is `dup2`. -/
def ChildOp.Ready (t : FdTable) : ChildOp → Prop
  | .dup2 src _ => t.lookup src ≠ none
  | _ => True

theorem childStep_eq_ok : childStep child t op = .ok u ↔
    op.Ready t ∧ child.fault op = none ∧ op.run t = u := by
  have hstep : op.error t (child.fault op) = none ↔ op.Ready t ∧ child.fault op = none := by
    cases op with
    | dup2 src dst =>
      by_cases hsrc : t.lookup src = none <;>
        simp [ChildOp.error, ChildOp.Ready, ChildAnswers.fault, hsrc]
    | close | chdir | setmask | execve =>
      simp [ChildOp.error, ChildOp.Ready, ChildAnswers.fault]
  unfold childStep
  cases herr : op.error t (child.fault op) with
  | some e =>
    refine iff_of_false (by simp) fun h => ?_
    rw [hstep.mpr ⟨h.1, h.2.1⟩] at herr
    cases herr
  | none =>
    obtain ⟨hready, hfault⟩ := hstep.mp herr
    simp [hready, hfault]

/-- A child whose calls succeed has done them all. -/
theorem runChild_eq_ok (h : runChild child t ops = .ok u) :
    (∀ op ∈ ops, child.fault op = none) ∧ runAll t ops = u := by
  induction ops generalizing t with
  | nil =>
    cases h
    exact ⟨by simp, rfl⟩
  | cons op ops ih =>
    rw [runChild, List.foldlM_cons] at h
    cases hstep : childStep child t op with
    | error e =>
      rw [hstep] at h
      cases h
    | ok t₁ =>
      rw [hstep] at h
      obtain ⟨-, hfault, hrun⟩ := childStep_eq_ok.mp hstep
      obtain ⟨hfaults, hall⟩ := ih h
      exact ⟨List.forall_mem_cons.mpr ⟨hfault, hfaults⟩, by rw [← hall, ← hrun]; rfl⟩

/-- It gets through calls that do not fail and do not copy anything. -/
theorem runChild_of_plain (hready : ∀ op ∈ ops, ∀ t, op.Ready t)
    (hfault : ∀ op ∈ ops, child.fault op = none) :
    runChild child t ops = .ok (runAll t ops) := by
  induction ops generalizing t with
  | nil => rfl
  | cons op ops ih =>
    obtain ⟨hop, hops⟩ := List.forall_mem_cons.mp hfault
    obtain ⟨hop', hops'⟩ := List.forall_mem_cons.mp hready
    have hstep : childStep child t op = .ok (op.run t) := childStep_eq_ok.mpr ⟨hop' t, hop, rfl⟩
    rw [runChild, List.foldlM_cons, hstep]
    exact ih hops' hops

theorem runChild_append (h : runChild child t ops = .ok u) :
    runChild child t (ops ++ ops') = runChild child u ops' := by
  rw [runChild, List.foldlM_append]
  rw [runChild] at h
  rw [h]
  rfl

/-- Closing descriptors. -/
theorem lookup_runAll_close (l : List ℕ) :
    (runAll t (l.map .close)).lookup fd = if fd ∈ l then none else t.lookup fd := by
  induction l generalizing t with
  | nil => simp [runAll]
  | cons a l ih =>
    have hcons : runAll t ((a :: l).map .close) = runAll (t.close a) (l.map .close) := rfl
    rw [hcons, ih, FdTable.lookup_close]
    by_cases ha : fd = a <;> by_cases hl : fd ∈ l <;> simp [ha, hl]

/-! ## Its streams -/

/-- The calls of `dup2` for these streams. -/
def SpawnFds.copies (f : SpawnFds) (l : List Stream) : List ChildOp :=
  l.flatMap fun std => (f.child std).toList.map fun fd => .dup2 fd std.fileno

/-- What the child closes behind the copies: the ends of all streams. -/
def SpawnFds.closed (f : SpawnFds) : List ℕ :=
  Stream.all.flatMap (fun std => (f.parent std).toList) ++
    Stream.all.flatMap fun std => (f.child std).toList

/-- What the child calls behind the copies. -/
def SpawnFds.tail (f : SpawnFds) (args : SpawnArgs) : List ChildOp :=
  f.closed.map .close ++ ((if args.cwd then [.chdir] else []) ++ [.setmask, .execve])

/-- One of the child's own ends. -/
def SpawnFds.Own (k : Kernel) (f : SpawnFds) (d : Desc) : Prop :=
  ∃ std c, f.child std = some c ∧ k.fds.lookup c = some d

/-- What the child has open once these streams are at their standard descriptors: its own ends are
open, and the rest is what it had at `fork`. -/
structure Copied (k : Kernel) (f : SpawnFds) (r : ℕ) (done : List Stream) (t : FdTable) : Prop where
  ends : ∀ std c, f.child std = some c → ∃ d, t.lookup c = some d ∧ f.Own k d
  only : ∀ fd d, t.lookup fd = some d → f.Own k d ∨ k.fds.lookup fd = some d ∧ fd ≠ r ∧
    ∀ std ∈ done, (f.child std).isSome = true → fd ≠ std.fileno
  rest : ∀ fd, fd ≠ r → (∀ std, (f.child std).isSome = true → fd ≠ std.fileno) →
    t.lookup fd = k.fds.lookup fd

namespace Copied

variable {done done' l : List Stream} {std : Stream} {c : ℕ}

theorem mono (h : Copied k f r done t) (hsub : ∀ std ∈ done', std ∈ done) :
    Copied k f r done' t :=
  ⟨h.ends, fun fd d hfd => (h.only fd d hfd).imp_right fun ⟨hk, hr, hdone⟩ =>
    ⟨hk, hr, fun std hstd => hdone std (hsub std hstd)⟩, h.rest⟩

/-- One more stream without a pipe. -/
theorem skip (h : Copied k f r done t) (hnone : f.child std = none) :
    Copied k f r (std :: done) t := by
  refine ⟨h.ends, fun fd d hfd => (h.only fd d hfd).imp_right ?_, h.rest⟩
  rintro ⟨hk, hr, hdone⟩
  refine ⟨hk, hr, fun std' hstd' hsome => ?_⟩
  rcases List.mem_cons.mp hstd' with rfl | hstd'
  · simp [hnone] at hsome
  · exact hdone std' hstd' hsome

/-- **One more stream is copied.** -/
theorem dup2 (h : Copied k f r done t) (hshared : ∀ d, f.Own k d → d.cloexec = false)
    (hc : f.child std = some c) : Copied k f r (std :: done) (t.dup2 c std.fileno) := by
  obtain ⟨d₀, hd₀, hown⟩ := h.ends std c hc
  have hlookup : ∀ fd, (t.dup2 c std.fileno).lookup fd =
      if fd = std.fileno then some d₀ else t.lookup fd := by
    intro fd
    by_cases hsame : c = std.fileno
    · simp only [FdTable.dup2, hd₀, if_pos hsame]
      split
      · rename_i hfd
        rw [hfd, ← hsame, hd₀]
      · rfl
    · have heq : { d₀ with cloexec := false } = d₀ := by rw [← hshared d₀ hown]
      rw [FdTable.lookup_dup2 hd₀ hsame, heq]
  refine ⟨fun std' c' hc' => ?_, fun fd d hfd => ?_, fun fd hr hfd => ?_⟩
  · rw [hlookup]
    split
    · exact ⟨d₀, rfl, hown⟩
    · exact h.ends std' c' hc'
  · rw [hlookup] at hfd
    split at hfd
    · cases hfd
      exact .inl hown
    · rename_i hne
      apply (h.only fd d hfd).imp_right
      rintro ⟨hk, hr, hdone⟩
      refine ⟨hk, hr, fun std' hstd' hsome => ?_⟩
      rcases List.mem_cons.mp hstd' with rfl | hstd'
      · exact hne
      · exact hdone std' hstd' hsome
  · rw [hlookup, if_neg (hfd std (by rw [hc]; rfl))]
    exact h.rest fd hr hfd

/-- **All of them are copied, one after the other.** -/
theorem run (h : Copied k f r done t) (hshared : ∀ d, f.Own k d → d.cloexec = false)
    (child : ChildAnswers) (l : List Stream) :
    Copied k f r (l ++ done) (runAll t (f.copies l)) ∧
      ((∀ std ∈ l, (f.child std).isSome = true → child.dup2 std.fileno = none) →
        runChild child t (f.copies l) = .ok (runAll t (f.copies l))) := by
  induction l generalizing done t with
  | nil => exact ⟨h, fun _ => rfl⟩
  | cons std l ih =>
    have hsub : ∀ std' ∈ std :: l ++ done, std' ∈ l ++ std :: done := by
      simp only [List.mem_append, List.mem_cons]
      tauto
    cases hc : f.child std with
    | none =>
      obtain ⟨hrun, hok⟩ := ih (h.skip hc)
      have hcopies : f.copies (std :: l) = f.copies l := by simp [SpawnFds.copies, hc]
      rw [hcopies]
      exact ⟨hrun.mono hsub, fun hfault => hok fun std' hstd' =>
        hfault std' (List.mem_cons_of_mem _ hstd')⟩
    | some c =>
      obtain ⟨hrun, hok⟩ := ih (h.dup2 hshared hc)
      have hcopies : f.copies (std :: l) = .dup2 c std.fileno :: f.copies l := by
        simp [SpawnFds.copies, hc]
      rw [hcopies]
      refine ⟨hrun.mono hsub, fun hfault => ?_⟩
      obtain ⟨d, hd, -⟩ := h.ends std c hc
      have hstep : childStep child t (.dup2 c std.fileno) = .ok (t.dup2 c std.fileno) :=
        childStep_eq_ok.mpr
          ⟨by simp [ChildOp.Ready, hd], hfault std (List.mem_cons_self ..) (by rw [hc]; rfl), rfl⟩
      rw [runChild, List.foldlM_cons, hstep]
      exact hok fun std' hstd' => hfault std' (List.mem_cons_of_mem _ hstd')

end Copied

/-! ## What the child has open -/

namespace Layout

/-- What the child owns are its own ends. -/
theorem own_iff (h : Layout k₀ k f) : f.Own k d ↔
    ∃ std id, k.pipeAt (f.child std) = some id ∧ d = ⟨std.childEnd id, false⟩ := by
  have hends : ∀ std c, f.child std = some c → ∃ id, k.pipeAt (f.child std) = some id ∧
      k.fds.lookup c = some ⟨std.childEnd id, false⟩ := by
    intro std c hc
    rcases h.ends std with ⟨-, hnone⟩ | ⟨a, b, id, -, hb, -, -, -, hlb⟩
    · simp [hc] at hnone
    · obtain rfl : b = c := Option.some.inj (hb.symm.trans hc)
      refine ⟨id, ?_, hlb⟩
      cases std <;> simp [Kernel.pipeAt, hc, hlb, Stream.childEnd, OpenFile.pipe]
  constructor
  · rintro ⟨std, c, hc, hd⟩
    obtain ⟨id, hid, hlc⟩ := hends std c hc
    exact ⟨std, id, hid, Option.some.inj (hd.symm.trans hlc)⟩
  · rintro ⟨std, id, hid, rfl⟩
    cases hc : f.child std with
    | none => simp [hc, Kernel.pipeAt] at hid
    | some c =>
      obtain ⟨id', hid', hlc⟩ := hends std c hc
      rw [hid] at hid'
      cases hid'
      exact ⟨std, c, hc, hlc⟩

/-- The pipe of a stream has an end for the parent and one for the child. -/
theorem pipeAt_eq_some (h : Layout k₀ k f) {std : Stream} {id : ℕ}
    (hid : k.pipeAt (f.child std) = some id) : k₀.pipes < id ∧ id < k.pipes ∧
      ∃ a, f.parent std = some a ∧ k.fds.lookup a = some ⟨std.parentEnd id, false⟩ := by
  rcases h.ends std with ⟨-, hnone⟩ | ⟨a, b, id', ha, hb, hlt, hlt', hla, hlb⟩
  · simp [Kernel.pipeAt, hnone] at hid
  · have heq : id' = id := by
      cases std <;> simpa [Kernel.pipeAt, hb, hlb, Stream.childEnd, OpenFile.pipe] using hid
    subst heq
    exact ⟨hlt, hlt', a, ha, hla⟩

theorem pipeAt_lt (h : Layout k₀ k f) {std : Stream} {id : ℕ}
    (hid : k.pipeAt (f.child std) = some id) : k₀.pipes < id ∧ id < k.pipes :=
  ⟨(h.pipeAt_eq_some hid).1, (h.pipeAt_eq_some hid).2.1⟩

/-- No two streams have the same pipe. -/
theorem pipeAt_inj (h : Layout k₀ k f) {std std' : Stream} {id : ℕ}
    (hid : k.pipeAt (f.child std) = some id) (hid' : k.pipeAt (f.child std') = some id) :
    std = std' := by
  obtain ⟨-, -, a, ha, hla⟩ := h.pipeAt_eq_some hid
  obtain ⟨-, -, a', ha', hla'⟩ := h.pipeAt_eq_some hid'
  exact h.distinct std std' a a' id ha ha' hla hla'

/-- The child does not have `status_pipe[0]`. -/
theorem copied_close (h : Layout k₀ k f) (hr : f.status0 = some r) :
    Copied k f r [] (k.fds.close r) := by
  obtain ⟨r', w, hr', hw, -⟩ := h.status
  obtain ⟨-, hne⟩ := h.ne_status hr hw
  refine ⟨fun std c hc => ?_, fun fd d hfd => ?_, fun fd hfr _ => ?_⟩
  · have hcr : c ≠ r := fun e => (hne std).2.2.1 (e ▸ hc)
    obtain ⟨d, hd⟩ := Option.ne_none_iff_exists'.mp (h.lookup_ne_none (.inr (.inr ⟨std, .inr hc⟩)))
    exact ⟨d, by rw [FdTable.lookup_close, if_neg hcr, hd], std, c, hc, hd⟩
  · rw [FdTable.lookup_close, Option.ite_none_left_eq_some] at hfd
    exact .inr ⟨hfd.2, hfd.1, by simp⟩
  · rw [FdTable.lookup_close, if_neg hfr]

/-- The calls of the child. -/
theorem childProgram_eq (hr : f.status0 = some r) (args : SpawnArgs) :
    childProgram args f = (.close r :: f.copies Stream.all) ++ f.tail args := by
  simp [childProgram, SpawnFds.tail, SpawnFds.closed, SpawnFds.copies, hr, List.map_flatMap]

theorem ready_of_mem_tail (hop : op ∈ f.tail args) (t : FdTable) : op.Ready t := by
  simp only [SpawnFds.tail, List.mem_append, List.mem_map] at hop
  rcases hop with ⟨fd, -, rfl⟩ | hop | hop
  · trivial
  · split at hop <;> simp at hop
    subst hop
    trivial
  · simp only [List.mem_cons, List.not_mem_nil, or_false] at hop
    rcases hop with rfl | rfl <;> trivial

theorem mem_closed : fd ∈ f.closed ↔ ∃ std, f.parent std = some fd ∨ f.child std = some fd := by
  simp only [SpawnFds.closed, List.mem_append, List.mem_flatMap, Option.mem_toList,
    Stream.mem_all, true_and, exists_or]

/-- What is open behind them. -/
theorem lookup_runAll_tail : (runAll t (f.tail args)).lookup fd = some d ↔ d.cloexec = false ∧
    t.lookup fd = some d ∧ ∀ std, f.parent std ≠ some fd ∧ f.child std ≠ some fd := by
  have hexec : runAll t (f.tail args) = (runAll t (f.closed.map .close)).exec := by
    rw [SpawnFds.tail, runAll_append]
    cases args.cwd <;> rfl
  rw [hexec, FdTable.lookup_exec, Option.filter_eq_some_iff, lookup_runAll_close]
  by_cases hfd : fd ∈ f.closed
  · rw [if_pos hfd]
    refine iff_of_false (by simp) fun hall => ?_
    obtain ⟨std, hstd⟩ := mem_closed.mp hfd
    exact hstd.elim (hall.2.2 std).1 (hall.2.2 std).2
  · rw [if_neg hfd]
    rw [mem_closed] at hfd
    push Not at hfd
    simp only [Bool.not_eq_true']
    tauto

/-- What the child has open, and that it gets there if no call fails. -/
theorem runAll_childProgram (h : Layout k₀ k f) (hr : f.status0 = some r) (args : SpawnArgs)
    (child : ChildAnswers) :
    (∃ t, Copied k f r Stream.all t ∧ ∀ fd d,
      (runAll k.fds (childProgram args f)).lookup fd = some d ↔ d.cloexec = false ∧
        t.lookup fd = some d ∧ ∀ std, f.parent std ≠ some fd ∧ f.child std ≠ some fd) ∧
      ((∀ op ∈ childProgram args f, child.fault op = none) →
        runChild child k.fds (childProgram args f) =
          .ok (runAll k.fds (childProgram args f))) := by
  have hshared : ∀ d, f.Own k d → d.cloexec = false := by
    intro d hd
    obtain ⟨std, id, -, rfl⟩ := h.own_iff.mp hd
    rfl
  obtain ⟨hcopied, hok⟩ := (h.copied_close hr).run hshared child Stream.all
  have hrun : runAll k.fds (childProgram args f) =
      runAll (runAll (k.fds.close r) (f.copies Stream.all)) (f.tail args) := by
    rw [childProgram_eq hr, runAll_append]
    rfl
  refine ⟨⟨_, hcopied.mono (by simp), fun fd d => ?_⟩, fun hfault => ?_⟩
  · rw [hrun, lookup_runAll_tail]
  · rw [childProgram_eq hr] at hfault
    have hcopies : ∀ std ∈ Stream.all, (f.child std).isSome = true →
        child.dup2 std.fileno = none := by
      intro std hstd hsome
      obtain ⟨c, hc⟩ := Option.isSome_iff_exists.mp hsome
      refine hfault (.dup2 c std.fileno) (List.mem_append_left _ (List.mem_cons_of_mem _ ?_))
      exact List.mem_flatMap.mpr ⟨std, hstd, by simp [hc]⟩
    have hfirst : runChild child k.fds (.close r :: f.copies Stream.all) =
        .ok (runAll (k.fds.close r) (f.copies Stream.all)) := hok hcopies
    rw [hrun, childProgram_eq hr, runChild_append hfirst]
    exact runChild_of_plain (fun _ hop => ready_of_mem_tail hop) fun op hop =>
      hfault op (List.mem_append_right _ hop)

end Layout

theorem childTable_eq_some (h : childTable args child k f = some t) :
    child.killed = false ∧ (∀ op ∈ childProgram args f, child.fault op = none) ∧
      runAll k.fds (childProgram args f) = t := by
  unfold childTable at h
  cases hrun : runChild child k.fds (childProgram args f) with
  | error e => simp [hrun, Except.toOption] at h
  | ok u =>
    simp only [hrun, Except.toOption, Option.ite_none_left_eq_some, Option.some.injEq] at h
    obtain ⟨hkilled, rfl⟩ := h
    exact ⟨by simpa using hkilled, runChild_eq_ok hrun⟩

/-- **What a child has open**: its own ends, and what the parent has had open before. -/
theorem lookup_childTable (h : Layout k₀ k f) (ht : childTable args child k f = some t)
    (hfd : t.lookup fd = some d) : f.Own k d ∨ k₀.fds.lookup fd = some d ∧
      ∀ std, (f.child std).isSome = true → fd ≠ std.fileno := by
  obtain ⟨-, -, rfl⟩ := childTable_eq_some ht
  obtain ⟨r, w, hr, hw, -, hlw⟩ := h.status
  obtain ⟨⟨t, hcopied, hlookup⟩, -⟩ := h.runAll_childProgram hr args child
  obtain ⟨hcloexec, htfd, hne⟩ := (hlookup fd d).mp hfd
  apply (hcopied.only fd d htfd).imp_right
  rintro ⟨hk, hfr, hstd⟩
  refine ⟨?_, fun std => hstd std std.mem_all⟩
  -- the pipes of this call are closed, or have `FD_CLOEXEC`
  have hholds : ¬ f.Holds fd := by
    rintro (h0 | h1 | ⟨std, h2⟩)
    · exact hfr (Option.some.inj (h0.symm.trans hr))
    · obtain rfl : fd = w := Option.some.inj (h1.symm.trans hw)
      rw [hlw] at hk
      cases hk
      cases hcloexec
    · exact h2.elim (hne std).1 (hne std).2
  rw [← h.rest fd hholds, hk]

/-- **What a child inherits**: all that has no `FD_CLOEXEC`, except for the standard descriptors
that it gets its streams at. -/
theorem inherited_childTable (h : Layout k₀ k f) (ht : childTable args child k f = some t)
    (hfd : k₀.fds.lookup fd = some d) (hshared : d.cloexec = false)
    (hstd : ∀ std, (f.child std).isSome = true → fd ≠ std.fileno) : t.lookup fd = some d := by
  obtain ⟨-, -, rfl⟩ := childTable_eq_some ht
  obtain ⟨r, w, hr, -⟩ := h.status
  obtain ⟨⟨t, hcopied, hlookup⟩, -⟩ := h.runAll_childProgram hr args child
  have hholds : ¬ f.Holds fd := by
    intro hholds
    rw [h.fresh fd hholds] at hfd
    cases hfd
  have hfr : fd ≠ r := fun e => hholds (.inl (e ▸ hr))
  refine (hlookup fd d).mpr ⟨hshared, ?_, fun std => ⟨fun hp => ?_, fun hc => ?_⟩⟩
  · rw [hcopied.rest fd hfr hstd, h.rest fd hholds, hfd]
  · exact hholds (.inr (.inr ⟨std, .inl hp⟩))
  · exact hholds (.inr (.inr ⟨std, .inr hc⟩))

/-! ## When a child gets to its program -/

/-- The streams are redirected if no call fails. -/
theorem redirect_isOk (args : SpawnArgs) (ans : SpawnAnswers) (l : List Stream)
    (p : Kernel × SpawnFds) : (∃ q, l.foldlM (redirect args ans) p = .ok q) ↔
      ∀ std ∈ l, args.redirect std = true → ans.std std = none := by
  induction l generalizing p with
  | nil => exact iff_of_true ⟨p, rfl⟩ (by simp)
  | cons std l ih =>
    rw [List.foldlM_cons, List.forall_mem_cons]
    cases hredirect : args.redirect std with
    | false =>
      have hstep : redirect args ans p std = .ok p := by simp [redirect, hredirect]
      rw [hstep]
      exact (ih p).trans (by simp)
    | true =>
      cases hstd : ans.std std with
      | some e =>
        have hstep : redirect args ans p std = .error (e, p) := by
          simp [redirect, hredirect, hstd]
        rw [hstep]
        exact iff_of_false (by rintro ⟨q, hq⟩; cases hq) (by simp)
      | none =>
        have hstep : redirect args ans p std = .ok (mkstd p.1 p.2 std) := by
          simp [redirect, hredirect, hstd]
        rw [hstep]
        exact (ih (mkstd p.1 p.2 std)).trans (by simp)

theorem prepare_isOk : (∃ k f, prepare args ans k₀ = (k, .ok f)) ↔
    ans.statusPipe = none ∧ ans.fcntl = none ∧
      (∀ std, args.redirect std = true → ans.std std = none) ∧ ans.fork = none := by
  unfold prepare
  cases hstatus : ans.statusPipe with
  | some e => simp
  | none =>
    cases hfcntl : ans.fcntl with
    | some e => simp
    | none =>
      generalize k₀.pipe = p
      obtain ⟨k₁, r, w⟩ := p
      have hall : (∀ std, args.redirect std = true → ans.std std = none) ↔
          ∀ std ∈ Stream.all, args.redirect std = true → ans.std std = none :=
        ⟨fun h std _ => h std, fun h std => h std std.mem_all⟩
      simp only [true_and]
      rw [hall, ← redirect_isOk args ans Stream.all
        (⟨(k₁.fds.setCloexec r).setCloexec w, k₁.pipes⟩,
          ⟨some r, some w, fun _ => none, fun _ => none⟩)]
      cases hfold : Stream.all.foldlM (redirect args ans)
          (⟨(k₁.fds.setCloexec r).setCloexec w, k₁.pipes⟩,
            ⟨some r, some w, fun _ => none, fun _ => none⟩) with
      | error q => simp
      | ok q => cases ans.fork <;> simp

/-- No call of the child fails. -/
theorem faultless_iff (hdone : Done args f []) :
    (∀ op ∈ childProgram args f, child.fault op = none) ↔
      (∀ std, args.redirect std = true → child.dup2 std.fileno = none) ∧
        (args.cwd = true → child.chdir = none) ∧ child.setmask = none ∧ child.execve = none := by
  have hsome : ∀ std, (∃ c, f.child std = some c) ↔ args.redirect std = true := by
    intro std
    rw [← Option.isSome_iff_exists, (hdone std (by simp)).2]
  simp only [childProgram, List.forall_mem_append, List.mem_flatMap, List.mem_map,
    Option.mem_toList, Stream.mem_all, true_and]
  constructor
  · rintro ⟨⟨⟨⟨⟨-, hdup⟩, -⟩, -⟩, hcwd⟩, hlast⟩
    refine ⟨fun std hstd => ?_, fun hcwd' => hcwd .chdir (by simp [hcwd']),
      hlast .setmask (by simp), hlast .execve (by simp)⟩
    obtain ⟨c, hc⟩ := (hsome std).mpr hstd
    exact hdup _ ⟨std, c, hc, rfl⟩
  · rintro ⟨hdup, hcwd, hsetmask, hexecve⟩
    refine ⟨⟨⟨⟨⟨?_, ?_⟩, ?_⟩, ?_⟩, ?_⟩, ?_⟩
    · rintro op ⟨fd, -, rfl⟩
      rfl
    · rintro op ⟨std, c, hc, rfl⟩
      exact hdup std ((hsome std).mp ⟨c, hc⟩)
    · rintro op ⟨std, c, -, rfl⟩
      rfl
    · rintro op ⟨std, c, -, rfl⟩
      rfl
    · intro op hop
      split at hop <;> simp at hop
      rw [hop]
      exact hcwd (by assumption)
    · intro op hop
      simp only [List.mem_cons, List.not_mem_nil, or_false] at hop
      rcases hop with rfl | rfl
      · exact hsetmask
      · exact hexecve

/-- **The child gets to its program if no call fails.** -/
theorem childTable_isSome (h : Layout k₀ k f) (hdone : Done args f []) :
    (∃ t, childTable args child k f = some t) ↔ child.killed = false ∧
      (∀ std, args.redirect std = true → child.dup2 std.fileno = none) ∧
        (args.cwd = true → child.chdir = none) ∧ child.setmask = none ∧ child.execve = none := by
  rw [← faultless_iff hdone]
  constructor
  · rintro ⟨t, ht⟩
    obtain ⟨hkilled, hfault, -⟩ := childTable_eq_some ht
    exact ⟨hkilled, hfault⟩
  · rintro ⟨hkilled, hfault⟩
    obtain ⟨r, w, hr, -⟩ := h.status
    have hrun := (h.runAll_childProgram hr args child).2 hfault
    exact ⟨_, by rw [childTable, hkilled, hrun]; rfl⟩

/-! ## The parent afterwards -/

/-- The parent's ends and the child's are at descriptors of their own. -/
theorem Layout.parent_ne_child (h : Layout k₀ k f) {std std' : Stream}
    (hp : f.parent std = some fd) : f.child std' ≠ some fd := by
  intro hc
  rcases h.ends std with ⟨hnone, -⟩ | ⟨a, b, id, ha, -, -, -, hla, -⟩
  · simp [hp] at hnone
  rcases h.ends std' with ⟨-, hnone⟩ | ⟨a', b', id', ha', hb', -, -, hla', hlb'⟩
  · simp [hc] at hnone
  obtain rfl : fd = a := Option.some.inj (hp.symm.trans ha)
  obtain rfl : fd = b' := Option.some.inj (hc.symm.trans hb')
  have heq := hla.symm.trans hlb'
  have hid : id = id' := by
    cases std <;> cases std' <;> simp_all [Stream.parentEnd, Stream.childEnd]
  subst hid
  obtain rfl := h.distinct std std' fd a' id ha ha' hla hla'
  cases std <;> simp [Stream.parentEnd, Stream.childEnd] at heq

/-- The parent keeps its own ends. -/
theorem Layout.lookup_afterFork (h : Layout k₀ k f) (fd : ℕ) :
    ((closeChildEnds k.fds f).closeOpt f.status0).lookup fd =
      if fd ∈ Stream.all.filterMap f.parent then k.fds.lookup fd else k₀.fds.lookup fd := by
  have hmem : fd ∈ Stream.all.filterMap f.parent ↔ ∃ std, f.parent std = some fd := by
    rw [List.mem_filterMap]
    exact exists_congr fun std => and_iff_right std.mem_all
  obtain ⟨r, w, hr, hw, -⟩ := h.status
  obtain ⟨-, hne⟩ := h.ne_status hr hw
  simp only [closeChildEnds, FdTable.lookup_closeOpt]
  by_cases hparent : ∃ std, f.parent std = some fd
  · rw [if_pos (hmem.mpr hparent)]
    obtain ⟨std, hstd⟩ := hparent
    have hchild : ∀ std', f.child std' ≠ some fd := fun std' => h.parent_ne_child hstd
    have h0 : f.status0 ≠ some fd := fun e =>
      (hne std).1 (hstd.trans (e.symm.trans hr))
    have h1 : f.status1 ≠ some fd := fun e =>
      (hne std).2.1 (hstd.trans (e.symm.trans hw))
    simp [h0, h1, hchild]
  · rw [if_neg (fun e => hparent (hmem.mp e))]
    by_cases hfd : f.Holds fd
    · rw [h.fresh fd hfd]
      rcases hfd with h0 | h1 | ⟨std, h2 | h3⟩
      · simp [h0]
      · simp [h1]
      · exact absurd ⟨std, h2⟩ hparent
      · cases std <;> simp [h3]
    · have hrest := h.rest fd hfd
      simp only [SpawnFds.Holds, not_or, not_exists] at hfd
      obtain ⟨h0, h1, h2⟩ := hfd
      simp [h0, h1, h2, hrest]

/-- Where the child has failed, the parent has open what it had before. -/
theorem Layout.cleanup_afterFork (h : Layout k₀ k f) (fd : ℕ) :
    (Yaooi.cleanup ((closeChildEnds k.fds f).closeOpt f.status0)
      { f.afterFork with status0 := none }).lookup fd = k₀.fds.lookup fd := by
  set f' : SpawnFds := { f.afterFork with status0 := none } with hf'
  have hholds : f'.Holds fd ↔ fd ∈ Stream.all.filterMap f.parent := by
    simp only [hf', SpawnFds.Holds, SpawnFds.afterFork, List.mem_filterMap]
    constructor
    · rintro (h0 | h1 | ⟨std, h2 | h3⟩)
      · cases h0
      · cases h1
      · exact ⟨std, std.mem_all, h2⟩
      · cases h3
    · rintro ⟨std, -, h2⟩
      exact .inr (.inr ⟨std, .inl h2⟩)
  by_cases hfd : f'.Holds fd
  · rw [lookup_cleanup_of_holds hfd]
    obtain ⟨std, -, hstd⟩ := List.mem_filterMap.mp (hholds.mp hfd)
    exact (h.fresh fd (.inr (.inr ⟨std, .inl hstd⟩))).symm
  · rw [lookup_cleanup_of_not_holds hfd, h.lookup_afterFork, if_neg (fun e => hfd (hholds.mpr e))]

/-! ## What every step keeps -/

variable {handles : List ℕ} {cs : List Program} {n n' : ℕ}

/-- The pipes that the parent has open are its handles', without `FD_CLOEXEC`. -/
structure HandlesInv (k : Kernel) (handles : List ℕ) : Prop where
  ends : ∀ fd d id, k.fds.lookup fd = some d → d.file.pipe = some id →
    id < k.pipes ∧ d.cloexec = false
  mem : ∀ fd, fd ∈ handles ↔ ∃ d id, k.fds.lookup fd = some d ∧ d.file.pipe = some id

namespace HandlesInv

theorem congr (h : HandlesInv k handles) (hlookup : ∀ fd, k'.fds.lookup fd = k.fds.lookup fd)
    (hpipes : k.pipes ≤ k'.pipes) : HandlesInv k' handles := by
  refine ⟨fun fd d id hfd hd => ?_, fun fd => by rw [h.mem, hlookup]⟩
  rw [hlookup] at hfd
  obtain ⟨hlt, hshared⟩ := h.ends fd d id hfd hd
  exact ⟨hlt.trans_le hpipes, hshared⟩

theorem nil : HandlesInv ⟨[], n⟩ [] :=
  ⟨fun fd d id hfd => by simp [FdTable.lookup] at hfd, fun fd => by simp [FdTable.lookup]⟩

/-- A handle is closed. -/
theorem close (h : HandlesInv k handles) (fd : ℕ) :
    HandlesInv { k with fds := k.fds.close fd } (handles.filter (· ≠ fd)) := by
  refine ⟨fun a d id ha hd => ?_, fun a => ?_⟩
  · simp only [FdTable.lookup_close, Option.ite_none_left_eq_some] at ha
    exact h.ends a d id ha.2 hd
  · simp only [List.mem_filter, h.mem, FdTable.lookup_close, decide_eq_true_eq]
    by_cases ha : a = fd <;> simp [ha]

/-- Something else is opened. -/
theorem install (h : HandlesInv k handles) {id : ℕ} {cloexec : Bool} :
    HandlesInv { k with fds := k.fds.install k.fds.free ⟨.other id, cloexec⟩ } handles := by
  have hpipe : ∀ a d id', (k.fds.install k.fds.free ⟨.other id, cloexec⟩).lookup a = some d ∧
      d.file.pipe = some id' ↔ k.fds.lookup a = some d ∧ d.file.pipe = some id' := by
    intro a d id'
    rw [FdTable.lookup_install]
    split
    · rename_i ha
      rw [ha, FdTable.lookup_free]
      refine iff_of_false ?_ (by simp)
      rintro ⟨hd, hpipe⟩
      cases hd
      cases hpipe
    · exact Iff.rfl
  refine ⟨fun a d id' ha hd => ?_, fun a => ?_⟩
  · obtain ⟨ha', hd'⟩ := (hpipe a d id').mp ⟨ha, hd⟩
    exact h.ends a d id' ha' hd'
  · simp only [h.mem, hpipe]

/-- A child has its handles. -/
theorem afterFork (h : HandlesInv k₀ handles) (hlayout : Layout k₀ k f) :
    HandlesInv { k with fds := (closeChildEnds k.fds f).closeOpt f.status0 }
      (handles ++ Stream.all.filterMap f.parent) := by
  have hparent : ∀ fd ∈ Stream.all.filterMap f.parent, ∃ id file, id < k.pipes ∧
      k.fds.lookup fd = some ⟨file, false⟩ ∧ file.pipe = some id := by
    intro fd hfd
    obtain ⟨std, -, hstd⟩ := List.mem_filterMap.mp hfd
    rcases hlayout.ends std with ⟨hnone, -⟩ | ⟨a, b, id, ha, -, -, hlt, hla, -⟩
    · simp [hstd] at hnone
    · obtain rfl : fd = a := Option.some.inj (hstd.symm.trans ha)
      exact ⟨id, std.parentEnd id, hlt, hla, by cases std <;> rfl⟩
  refine ⟨fun fd d id hfd hd => ?_, fun fd => ?_⟩
  · simp only [hlayout.lookup_afterFork] at hfd
    split at hfd
    · rename_i hmem
      obtain ⟨id', file, hlt, hl, hfile⟩ := hparent fd hmem
      rw [hl] at hfd
      cases hfd
      rw [hfile] at hd
      cases hd
      exact ⟨hlt, rfl⟩
    · obtain ⟨hlt, hshared⟩ := h.ends fd d id hfd hd
      exact ⟨hlt.trans hlayout.pipes, hshared⟩
  · simp only [hlayout.lookup_afterFork, List.mem_append]
    by_cases hmem : fd ∈ Stream.all.filterMap f.parent
    · obtain ⟨id, file, -, hl, hfile⟩ := hparent fd hmem
      simp only [hmem, or_true, if_true, true_iff]
      exact ⟨_, id, hl, hfile⟩
    · simp only [hmem, or_false, if_false, h.mem]

end HandlesInv

/-- A child that ends keeps what is recorded of it. -/
theorem exists_of_mem_exit {i : ℕ} {c : Program}
    (hc : c ∈ cs.modify i fun c => { c with running := false }) :
    ∃ c' ∈ cs, c.fds = c'.fds ∧ c.pipe = c'.pipe := by
  obtain ⟨j, hj, rfl⟩ := List.getElem_of_mem hc
  rw [List.length_modify] at hj
  refine ⟨cs[j], List.getElem_mem hj, ?_⟩
  rw [List.getElem_modify]
  split <;> exact ⟨rfl, rfl⟩

/-- The pipes of the children are made by the parent, each for one stream. -/
structure PipesInv (n : ℕ) (cs : List Program) : Prop where
  lt : ∀ c ∈ cs, ∀ std id, c.pipe std = some id → id < n
  std : ∀ c ∈ cs, ∀ c' ∈ cs, ∀ std std' id, c.pipe std = some id → c'.pipe std' = some id →
    std = std'

namespace PipesInv

theorem mono (h : PipesInv n cs) (hle : n ≤ n') : PipesInv n' cs :=
  ⟨fun c hc std id hid => (h.lt c hc std id hid).trans_le hle, h.std⟩

/-- The end of a child. -/
theorem exit (h : PipesInv n cs) (i : ℕ) :
    PipesInv n (cs.modify i fun c => { c with running := false }) := by
  refine ⟨fun c hc std id hid => ?_, fun c hc c' hc' std std' id hid hid' => ?_⟩
  · obtain ⟨c₁, hc₁, -, he⟩ := exists_of_mem_exit hc
    exact h.lt c₁ hc₁ std id (he ▸ hid)
  · obtain ⟨c₁, hc₁, -, he⟩ := exists_of_mem_exit hc
    obtain ⟨c₂, hc₂, -, he'⟩ := exists_of_mem_exit hc'
    exact h.std c₁ hc₁ c₂ hc₂ std std' id (he ▸ hid) (he' ▸ hid')

/-- A child is started. -/
theorem append (h : PipesInv k₀.pipes cs) (hlayout : Layout k₀ k f) {ps : List Program}
    (hps : ∀ p ∈ ps, p.pipe = fun std => k.pipeAt (f.child std)) :
    PipesInv k.pipes (cs ++ ps) := by
  refine ⟨fun c hc std id hid => ?_, fun c hc c' hc' std std' id hid hid' => ?_⟩
  · rcases List.mem_append.mp hc with hc | hc
    · exact (h.lt c hc std id hid).trans hlayout.pipes
    · rw [hps c hc] at hid
      exact (hlayout.pipeAt_lt hid).2
  · -- the new pipes have numbers of their own
    rcases List.mem_append.mp hc with hc | hc <;> rcases List.mem_append.mp hc' with hc' | hc'
    · exact h.std c hc c' hc' std std' id hid hid'
    · rw [hps c' hc'] at hid'
      have := h.lt c hc std id hid
      have := (hlayout.pipeAt_lt hid').1
      omega
    · rw [hps c hc] at hid
      have := h.lt c' hc' std' id hid'
      have := (hlayout.pipeAt_lt hid).1
      omega
    · rw [hps c hc] at hid
      rw [hps c' hc'] at hid'
      exact hlayout.pipeAt_inj hid hid'

end PipesInv

/-- **What confines a child.**  It has no pipe ends but its own if and only if the handles that are
open are at standard descriptors that it gets its own streams at. -/
theorem confined_childTable (h : HandlesInv k₀ handles) (hlayout : Layout k₀ k f)
    (hdone : Done args f []) (ht : childTable args child k f = some t) (running : Bool) :
    Program.Confined ⟨t, fun std => k.pipeAt (f.child std), running⟩ ↔
      ∀ fd ∈ handles, ∃ std : Stream, args.redirect std = true ∧ fd = std.fileno := by
  constructor
  · intro hconfined fd hfd
    by_contra hno
    push Not at hno
    obtain ⟨d, id, hd, hid⟩ := (h.mem fd).mp hfd
    obtain ⟨hlt, hshared⟩ := h.ends fd d id hd hid
    have htfd := inherited_childTable hlayout ht hd hshared fun std hstd =>
      hno std (by rw [← (hdone std (by simp)).2, hstd])
    obtain ⟨std, hpipe, -⟩ := hconfined fd d id htfd hid
    have := (hlayout.pipeAt_lt hpipe).1
    omega
  · intro hall fd d id hfd hid
    rcases lookup_childTable hlayout ht hfd with hown | ⟨hd, hstd⟩
    · obtain ⟨std, id', hpipe, rfl⟩ := hlayout.own_iff.mp hown
      have heq : id' = id := by
        cases std <;> simpa [Stream.childEnd, OpenFile.pipe] using hid
      subst heq
      exact ⟨std, hpipe, rfl⟩
    · obtain ⟨std, hredirect, rfl⟩ := hall fd ((h.mem fd).mpr ⟨d, id, hd, hid⟩)
      exact absurd rfl (hstd std (by rw [(hdone std (by simp)).2, hredirect]))

/-! ## Over a whole run -/

namespace Family

variable {s s₀ s' : Family} {a : FamilyAct} {as : List FamilyAct}

/-- **What every step keeps.** -/
structure Inv (s : Family) : Prop where
  handles : HandlesInv s.kernel s.handles
  pipes : PipesInv s.kernel.pipes s.children

/-- **The end of a child's standard input.** -/
theorem deliversEof (h : s.Inv) (hconfined : s.Confined) : s.DeliversEof := by
  intro c hc id hid _ c' hc' _
  rw [← Bool.not_eq_true, FdTable.hasWriter_eq_true]
  rintro ⟨fd, d, hfd, hd⟩
  obtain ⟨std, hpipe, hend⟩ := hconfined c' hc' fd d id hfd (by rw [hd]; rfl)
  -- the pipe of a standard input has its end for writing with the parent
  obtain rfl := h.pipes.std c hc c' hc' .stdin std id hid hpipe
  rw [hd] at hend
  cases hend

/-- What a call of `yo_proc_spawn` does to the parent and which child there is then. -/
theorem spawn_cases (s : Family) (args : SpawnArgs) (ans : SpawnAnswers) (child : ChildAnswers) :
    (∃ k e, prepare args ans s.kernel = (k, .error e) ∧
        s.spawn args ans child = { s with kernel := k }) ∨
      ∃ k f fds alive handles running, prepare args ans s.kernel = (k, .ok f) ∧
        s.spawn args ans child = ⟨{ k with fds := fds }, alive, handles,
          s.children ++ (childTable args child k f).toList.map fun t =>
            ⟨t, fun std => k.pipeAt (f.child std), running⟩⟩ ∧
        (HandlesInv s.kernel s.handles → HandlesInv { k with fds := fds } handles) := by
  unfold spawn
  cases hprepare : prepare args ans s.kernel with
  | mk k r =>
    cases r with
    | error e => exact .inl ⟨k, e, rfl, rfl⟩
    | ok f =>
      obtain ⟨hlayout, -⟩ := layout_prepare hprepare
      refine .inr ?_
      dsimp only
      split
      · exact ⟨k, f, _, _, _, _, rfl, rfl, fun h =>
          h.congr hlayout.cleanup_afterFork hlayout.pipes.le⟩
      · split
        · exact ⟨k, f, _, _, _, _, rfl, rfl, fun h => h.afterFork hlayout⟩
        · exact ⟨k, f, _, _, _, _, rfl, rfl, fun _ => .nil⟩

/-- **A call of `yo_proc_spawn`.** -/
theorem Inv.spawn (h : s.Inv) (args : SpawnArgs) (ans : SpawnAnswers) (child : ChildAnswers)
    (hconfined : s.Confined) : (s.spawn args ans child).Inv ∧
      ((s.spawn args ans child).Confined ↔ s.Shielded (.spawn args ans child)) := by
  rcases s.spawn_cases args ans child with ⟨k, e, hprepare, hspawn⟩ |
    ⟨k, f, fds, alive, handles, running, hprepare, hspawn, hhandles⟩
  · obtain ⟨hlookup, hpipes⟩ := cleanup_prepare hprepare
    rw [hspawn]
    refine ⟨⟨h.handles.congr hlookup hpipes, h.pipes.mono hpipes⟩, iff_of_true hconfined ?_⟩
    intro hexecutes
    obtain ⟨k', f', hok⟩ := prepare_isOk.mpr hexecutes.1
    rw [hprepare] at hok
    cases hok
  · obtain ⟨hlayout, hdone⟩ := layout_prepare hprepare
    rw [hspawn]
    refine ⟨⟨hhandles h.handles, h.pipes.append hlayout fun p hp => ?_⟩, ?_⟩
    · obtain ⟨t, -, rfl⟩ := List.mem_map.mp hp
      rfl
    · have hexecutes : Executes args ans child ↔ ∃ t, childTable args child k f = some t := by
        rw [Executes, and_iff_right (prepare_isOk.mp ⟨k, f, hprepare⟩),
          childTable_isSome hlayout hdone]
      have hchild : (Confined ⟨{ k with fds := fds }, alive, handles, s.children ++
          (childTable args child k f).toList.map fun t =>
            ⟨t, fun std => k.pipeAt (f.child std), running⟩⟩) ↔
          ∀ t, childTable args child k f = some t →
            Program.Confined ⟨t, fun std => k.pipeAt (f.child std), running⟩ := by
        simp only [Confined, List.forall_mem_append, List.mem_map, Option.mem_toList]
        refine (and_iff_right hconfined).trans ⟨fun h t ht => h _ ⟨t, ht, rfl⟩, ?_⟩
        rintro h _ ⟨t, ht, rfl⟩
        exact h t ht
      rw [hchild, Shielded, hexecutes]
      constructor
      · rintro hall ⟨t, ht⟩
        exact (confined_childTable h.handles hlayout hdone ht running).mp (hall t ht)
      · intro hall t ht
        exact (confined_childTable h.handles hlayout hdone ht running).mpr (hall ⟨t, ht⟩)

/-- The other steps. -/
theorem Inv.other (h : s.Inv) (hconfined : s.Confined)
    (ha : ∀ args ans child, a ≠ .spawn args ans child) (hstep : s.step a = some s') :
    s'.Inv ∧ s'.Confined := by
  cases a with
  | spawn args ans child => exact absurd rfl (ha args ans child)
  | close fd =>
    simp only [step, Option.ite_none_right_eq_some, Option.some.injEq] at hstep
    obtain ⟨-, rfl⟩ := hstep
    exact ⟨⟨h.handles.close fd, h.pipes⟩, hconfined⟩
  | openOther id cloexec =>
    simp only [step, Option.ite_none_right_eq_some, Option.some.injEq] at hstep
    obtain ⟨-, rfl⟩ := hstep
    exact ⟨⟨h.handles.install, h.pipes⟩, hconfined⟩
  | closeOther fd =>
    simp only [step, Option.ite_none_right_eq_some, Option.some.injEq] at hstep
    obtain ⟨⟨-, hfd⟩, rfl⟩ := hstep
    have hne : ∀ fd' ∈ s.handles, fd' ≠ fd := fun fd' hfd' e => hfd (e ▸ hfd')
    have hsame : s.handles.filter (· ≠ fd) = s.handles :=
      List.filter_eq_self.mpr fun fd' hfd' => decide_eq_true (hne fd' hfd')
    have hclose := h.handles.close fd
    rw [hsame] at hclose
    exact ⟨⟨hclose, h.pipes⟩, hconfined⟩
  | exit i =>
    simp only [step, Option.some.injEq] at hstep
    subst hstep
    refine ⟨⟨h.handles, h.pipes.exit i⟩, fun c hc => ?_⟩
    obtain ⟨c', hc', hfds, hpipe⟩ := exists_of_mem_exit hc
    rw [Program.Confined, hfds, hpipe]
    exact hconfined c' hc'

/-- **A step.** -/
theorem Inv.step (h : s.Inv) (hconfined : s.Confined) (hstep : s.step a = some s') :
    s'.Inv ∧ (s'.Confined ↔ s.Shielded a) := by
  by_cases ha : ∃ args ans child, a = .spawn args ans child
  · obtain ⟨args, ans, child, rfl⟩ := ha
    simp only [Family.step, Option.ite_none_right_eq_some, Option.some.injEq] at hstep
    obtain ⟨-, rfl⟩ := hstep
    exact h.spawn args ans child hconfined
  · push Not at ha
    obtain ⟨hinv, hconfined'⟩ := h.other hconfined ha hstep
    refine ⟨hinv, iff_of_true hconfined' ?_⟩
    cases a with
    | spawn args ans child => exact absurd rfl (ha args ans child)
    | close | openOther | closeOther | exit => trivial

/-- **What the children of a run inherit.**  Throughout a run, no child has a pipe end that was not
made for it, and the end of its standard input always comes, if and only if no child gets to its
program while a handle of another one is open. -/
theorem confined_iff {s : Family} (h₀ : system.init s₀) (hrun : system.run s₀ as = some s) :
    system.Always (fun s => s.Confined ∧ s.DeliversEof) s₀ as ↔ system.Along Shielded s₀ as := by
  obtain ⟨hpipes, -, hhandles, hchildren⟩ := h₀
  have hinv : s₀.Inv := by
    refine ⟨⟨fun fd d id hfd hid => ?_, fun fd => ?_⟩, ⟨?_, ?_⟩⟩
    · rw [hpipes fd d hfd] at hid
      cases hid
    · rw [hhandles]
      apply iff_of_false (by simp)
      rintro ⟨d, id, hfd, hid⟩
      rw [hpipes fd d hfd] at hid
      cases hid
    · simp [hchildren]
    · simp [hchildren]
  have hconfined : s₀.Confined := by simp [Confined, hchildren]
  refine System.always_iff_along (I := Inv) (fun _ => True) (fun s a t hs _ hP hstep => ?_) hinv
    ⟨hconfined, deliversEof hinv hconfined⟩ (fun _ _ => trivial) hrun
  obtain ⟨hinv', hiff⟩ := hs.step hP.1 hstep
  exact ⟨⟨fun h => hiff.mp h.1, fun h => ⟨hiff.mpr h, deliversEof hinv' (hiff.mpr h)⟩⟩,
    fun _ => hinv'⟩

/-- A parent that has only its standard streams open. -/
def fresh : Family :=
  ⟨⟨(List.range 3).map fun id => some ⟨.other id, false⟩, 0⟩, true, [], []⟩

/-- A child is started that reads from the parent, and all goes well. -/
def spawnReader : FamilyAct :=
  .spawn ⟨fun std => std = .stdin, false⟩ ⟨true, none, none, fun _ => none, none⟩
    ⟨fun _ => none, none, none, none, false, none, none⟩

theorem fresh_init : system.init fresh := by
  refine ⟨fun fd d hfd => ?_, rfl, rfl, rfl⟩
  simp only [FdTable.lookup, fresh, List.getElem?_map, Option.join_eq_some_iff,
    Option.map_eq_some_iff] at hfd
  obtain ⟨id, -, hd⟩ := hfd
  cases hd
  rfl

/-- Two children, the second one when the handle of the first one is closed. -/
theorem confined_one_by_one : ∃ s, system.run fresh [spawnReader, .close 6, spawnReader] = some s ∧
    (system.Always (fun s => s.Confined ∧ s.DeliversEof) fresh
        [spawnReader, .close 6, spawnReader] ↔
      system.Along Shielded fresh [spawnReader, .close 6, spawnReader]) :=
  ⟨_, rfl, confined_iff fresh_init rfl⟩

/-- A parent without standard input and output.  The child copies its output over
`status_pipe[1]`, so nobody is told that `execve` fails and the parent keeps the handle. -/
example : (spawn ⟨⟨[none, none, some ⟨.other 2, false⟩], 0⟩, true, [], []⟩
    ⟨fun std => std = .stdout, false⟩ ⟨true, none, none, fun _ => none, none⟩
    ⟨fun _ => none, none, none, some .enoent, false, none, none⟩).handles = [3] := by decide

/-- Two children at once.  The second one has the parent's end of the standard input of the first
one, which does not come to its end when the parent closes it. -/
theorem not_confined_two : ∃ s, system.init fresh ∧
    system.run fresh [spawnReader, spawnReader, .close 6] = some s ∧
      ¬ s.Confined ∧ ¬ s.DeliversEof := by
  refine ⟨_, fresh_init, rfl, fun h => ?_, fun h => ?_⟩
  · obtain ⟨std, hpipe, -⟩ := h _ (List.mem_cons_of_mem _ (List.mem_cons_self ..)) 6
      ⟨.pipeWrite 1, false⟩ 1 rfl rfl
    revert hpipe
    cases std <;> decide
  · have heof := h _ (List.mem_cons_self ..) 1 rfl (by decide) _
      (List.mem_cons_of_mem _ (List.mem_cons_self ..)) rfl
    revert heof
    decide

end Family

end Yaooi
