import Yaooi.Unix.Errno

/-!
# Starting a child process

`yo_proc_spawn` of `src/unix/impl.c` up to `execve`: the tables of descriptors of the parent and
the child, the pipes that are made for the child's streams and for its status, and what the child
does before it executes the program.

* `Layout` says what the parent has open when it forks; `layout_prepare` proves it.
* `cleanup_prepare`: where this fails, the parent has open what it had before.
-/

namespace Yaooi

/-! ## Descriptors -/

/-- What a descriptor refers to: an end of a pipe that the library has made, or anything else. -/
inductive OpenFile where
  | pipeRead (id : ℕ)
  | pipeWrite (id : ℕ)
  | other (id : ℕ)
  deriving DecidableEq, Repr

/-- A descriptor that is open, and whether `FD_CLOEXEC` is set. -/
structure Desc where
  file : OpenFile
  cloexec : Bool
  deriving DecidableEq, Repr

/-- The descriptors of a process. -/
abbrev FdTable := List (Option Desc)

namespace FdTable

/-- What is open at `fd`. -/
def lookup (t : FdTable) (fd : ℕ) : Option Desc := t[fd]?.join

/-- The lowest descriptor that is not open, which a new one gets. -/
def free (t : FdTable) : ℕ := t.findIdx Option.isNone

/-- A descriptor is opened. -/
def install (t : FdTable) (fd : ℕ) (d : Desc) : FdTable :=
  (t ++ List.replicate (fd + 1 - t.length) none).set fd (some d)

/-- `close` -/
def close (t : FdTable) (fd : ℕ) : FdTable := t.set fd none

/-- `fcntl(fd, F_SETFD, FD_CLOEXEC)` -/
def setCloexec (t : FdTable) (fd : ℕ) : FdTable :=
  t.modify fd fun d => d.map fun d => { d with cloexec := true }

/-- `dup2` -/
def dup2 (t : FdTable) (src dst : ℕ) : FdTable :=
  match t.lookup src with
  | none => t
  | some d => if src = dst then t else t.install dst { d with cloexec := false }

/-- `execve` closes the descriptors with `FD_CLOEXEC`. -/
def exec (t : FdTable) : FdTable := t.map fun d => d.filter fun d => !d.cloexec

/-- A descriptor is closed unless it is -1. -/
def closeOpt (t : FdTable) : Option ℕ → FdTable
  | none => t
  | some fd => t.close fd

/-- The process can write into the pipe. -/
def hasWriter (t : FdTable) (id : ℕ) : Bool := t.any fun d => d.map Desc.file = some (.pipeWrite id)

variable {t : FdTable} {fd k : ℕ} {d : Desc}

@[simp] theorem lookup_close :
    (t.close fd).lookup k = if k = fd then none else t.lookup k := by
  rw [lookup, close, List.getElem?_set, lookup]
  by_cases hk : k = fd
  · subst hk
    by_cases hlen : k < t.length <;> simp [hlen]
  · rw [if_neg (Ne.symm hk), if_neg hk]

@[simp] theorem lookup_install :
    (t.install fd d).lookup k = if k = fd then some d else t.lookup k := by
  have hpad : ∀ k : ℕ,
      (t ++ List.replicate (fd + 1 - t.length) none)[k]?.join = t[k]?.join := by
    intro k
    by_cases hlen : k < t.length
    · rw [List.getElem?_append_left hlen]
    · have hout : t[k]? = none := List.getElem?_eq_none (not_lt.mp hlen)
      rw [List.getElem?_append_right (not_lt.mp hlen), List.getElem?_replicate, hout]
      split <;> rfl
  rw [lookup, install, List.getElem?_set]
  by_cases hk : k = fd
  · subst hk
    have hlen : k < (t ++ List.replicate (k + 1 - t.length) none).length := by
      rw [List.length_append, List.length_replicate]
      omega
    rw [if_pos rfl, if_pos hlen, if_pos rfl]
    rfl
  · rw [if_neg (Ne.symm hk), if_neg hk]
    exact hpad k

@[simp] theorem lookup_free (t : FdTable) : t.lookup t.free = none := by
  unfold lookup free
  by_cases hlen : t.findIdx Option.isNone < t.length
  · have hfree := List.findIdx_getElem (w := hlen)
    rw [List.getElem?_eq_getElem hlen, Option.isNone_iff_eq_none.mp hfree]
    rfl
  · rw [List.getElem?_eq_none (not_lt.mp hlen)]
    rfl

@[simp] theorem lookup_setCloexec : (t.setCloexec fd).lookup k =
    if k = fd then (t.lookup k).map fun d => { d with cloexec := true } else t.lookup k := by
  rw [lookup, setCloexec, List.getElem?_modify, lookup]
  by_cases hk : k = fd
  · subst hk
    cases t[k]? with
    | none => simp
    | some d => simp
  · simp [hk, Ne.symm hk]

@[simp] theorem lookup_exec : t.exec.lookup k = (t.lookup k).filter fun d => !d.cloexec := by
  rw [lookup, exec, List.getElem?_map, lookup]
  cases t[k]? with
  | none => rfl
  | some d => rfl

/-- `dup2` copies a descriptor, without `FD_CLOEXEC`. -/
theorem lookup_dup2 {src dst : ℕ} (hsrc : t.lookup src = some d) (hne : src ≠ dst) :
    (t.dup2 src dst).lookup k =
      if k = dst then some { d with cloexec := false } else t.lookup k := by
  rw [dup2, hsrc]
  simp only [if_neg hne, lookup_install]

theorem hasWriter_eq_true {id : ℕ} :
    t.hasWriter id = true ↔ ∃ fd d, t.lookup fd = some d ∧ d.file = .pipeWrite id := by
  simp only [hasWriter, List.any_eq_true, decide_eq_true_eq, Option.map_eq_some_iff]
  constructor
  · rintro ⟨_, hmem, d, rfl, hd⟩
    obtain ⟨fd, hlt, hfd⟩ := List.getElem_of_mem hmem
    exact ⟨fd, d, by rw [lookup, List.getElem?_eq_getElem hlt, hfd]; rfl, hd⟩
  · rintro ⟨fd, d, hfd, hd⟩
    rw [lookup, Option.join_eq_some_iff] at hfd
    exact ⟨some d, List.mem_of_getElem? hfd, d, rfl, hd⟩

end FdTable

/-! ## Before `fork` -/

/-- A standard stream. -/
inductive Stream where
  | stdin
  | stdout
  | stderr
  deriving DecidableEq, Repr

namespace Stream

/-- `STDIN_FILENO`, `STDOUT_FILENO` and `STDERR_FILENO` -/
def fileno : Stream → ℕ
  | stdin => 0
  | stdout => 1
  | stderr => 2

/-- In the order in which `yo_proc_spawn` looks at them. -/
def all : List Stream := [stdin, stdout, stderr]

@[simp] theorem mem_all (std : Stream) : std ∈ all := by
  cases std <;> decide

/-- The end of its pipe that the parent keeps. -/
def parentEnd (id : ℕ) : Stream → OpenFile
  | stdin => .pipeWrite id
  | stdout | stderr => .pipeRead id

/-- The end of its pipe that the child gets. -/
def childEnd (id : ℕ) : Stream → OpenFile
  | stdin => .pipeRead id
  | stdout | stderr => .pipeWrite id

end Stream

/-- The parent: its descriptors, and the number of pipes that it has made. -/
structure Kernel where
  fds : FdTable
  pipes : ℕ
  deriving DecidableEq, Repr

namespace Kernel

/-- `pipe`: both ends of a new pipe. -/
def pipe (k : Kernel) : Kernel × ℕ × ℕ :=
  let r := k.fds.free
  let fds := k.fds.install r ⟨.pipeRead k.pipes, false⟩
  let w := fds.free
  (⟨fds.install w ⟨.pipeWrite k.pipes, false⟩, k.pipes + 1⟩, r, w)

end Kernel

/-- The arguments of `yo_proc_spawn`: which of `pin`, `pout` and `perr` are given, and whether `cwd`
is. -/
structure SpawnArgs where
  redirect : Stream → Bool
  cwd : Bool

/-- What is answered before `fork`: whether there is memory for the result, and the errors of
`pipe`, of the first `fcntl` that fails, of `_yoi_unix_mkstd` and of `fork`. -/
structure SpawnAnswers where
  proc : Bool
  statusPipe : Option Errno
  fcntl : Option Errno
  std : Stream → Option Errno
  fork : Option Errno

/-- `status_pipe`, `in_parent`, `out_parent` and `err_parent`, `in_child`, `out_child` and
`err_child`, with none for -1. -/
structure SpawnFds where
  status0 : Option ℕ
  status1 : Option ℕ
  parent : Stream → Option ℕ
  child : Stream → Option ℕ

/-- The labels behind `err_fork`, which close what is not -1. -/
def cleanup (t : FdTable) (f : SpawnFds) : FdTable :=
  let t := (t.closeOpt (f.parent .stderr)).closeOpt (f.child .stderr)
  let t := (t.closeOpt (f.parent .stdout)).closeOpt (f.child .stdout)
  let t := (t.closeOpt (f.parent .stdin)).closeOpt (f.child .stdin)
  (t.closeOpt f.status0).closeOpt f.status1

/-- `_yoi_unix_mkstd` for this stream. -/
def mkstd (k : Kernel) (f : SpawnFds) (s : Stream) : Kernel × SpawnFds :=
  let (k, r, w) := k.pipe
  let (parent, child) := if s = .stdin then (w, r) else (r, w)
  (k, { f with
    parent := Function.update f.parent s (some parent)
    child := Function.update f.child s (some child) })

/-- A stream is redirected if that is asked for; or there is an error, and what was made so far. -/
def redirect (args : SpawnArgs) (ans : SpawnAnswers) (p : Kernel × SpawnFds) (s : Stream) :
    Except (Errno × Kernel × SpawnFds) (Kernel × SpawnFds) :=
  if args.redirect s then
    match ans.std s with
    | some e => .error (e, p)
    | none => .ok (mkstd p.1 p.2 s)
  else .ok p

/-- `yo_proc_spawn` up to `fork`: the parent, with its descriptors or the error. -/
def prepare (args : SpawnArgs) (ans : SpawnAnswers) (k : Kernel) : Kernel × Except Errno SpawnFds :=
  match ans.statusPipe with
  | some e => (k, .error e)
  | none =>
    let (k, r, w) := k.pipe
    let f : SpawnFds := ⟨some r, some w, fun _ => none, fun _ => none⟩
    match ans.fcntl with
    | some e => ({ k with fds := cleanup k.fds f }, .error e)
    | none =>
      let k := { k with fds := (k.fds.setCloexec r).setCloexec w }
      match Stream.all.foldlM (redirect args ans) (k, f) with
      | .error (e, k, f) => ({ k with fds := cleanup k.fds f }, .error e)
      | .ok (k, f) =>
        match ans.fork with
        | some e => ({ k with fds := cleanup k.fds f }, .error e)
        | none => (k, .ok f)

/-! ## The child -/

/-- What the child does before the program runs. -/
inductive ChildOp where
  | close (fd : ℕ)
  | dup2 (src dst : ℕ)
  | chdir
  | setmask
  | execve
  deriving DecidableEq, Repr

/-- The child's part of `yo_proc_spawn`, up to `execve`. -/
def childProgram (args : SpawnArgs) (f : SpawnFds) : List ChildOp :=
  f.status0.toList.map .close ++
    Stream.all.flatMap (fun s => (f.child s).toList.map fun fd => .dup2 fd s.fileno) ++
      Stream.all.flatMap (fun s => (f.parent s).toList.map .close) ++
        Stream.all.flatMap (fun s => (f.child s).toList.map .close) ++
          (if args.cwd then [.chdir] else []) ++ [.setmask, .execve]

namespace ChildOp

/-- The error of a call, where it fails.  The child does not look whether `close` does. -/
def error (t : FdTable) (fault : Option Errno) : ChildOp → Option Errno
  | .close _ => none
  | .dup2 src _ => if t.lookup src = none then some .ebadf else fault
  | .chdir | .setmask | .execve => fault

/-- What the call does to the descriptors, where it succeeds. -/
def run (t : FdTable) : ChildOp → FdTable
  | .close fd => t.close fd
  | .dup2 src dst => t.dup2 src dst
  | .chdir | .setmask => t
  | .execve => t.exec

end ChildOp

/-- What the parent does first: it closes the child's ends, and its own end for writing. -/
def closeChildEnds (t : FdTable) (f : SpawnFds) : FdTable :=
  (((t.closeOpt (f.child .stdin)).closeOpt (f.child .stdout)).closeOpt (f.child .stderr)).closeOpt
    f.status1

/-- The variables of the parent after that. -/
def SpawnFds.afterFork (f : SpawnFds) : SpawnFds :=
  { f with status1 := none, child := fun _ => none }

/-! ## What is open at `fork` -/

variable {k k' k₀ : Kernel} {f f' : SpawnFds} {args : SpawnArgs} {ans : SpawnAnswers} {s : Stream}
  {fd r w : ℕ} {d : Desc} {e : Errno}

namespace SpawnFds

/-- The descriptor is one of the variables. -/
def Holds (f : SpawnFds) (fd : ℕ) : Prop :=
  f.status0 = some fd ∨ f.status1 = some fd ∨ ∃ s, f.parent s = some fd ∨ f.child s = some fd

theorem holds_update {a b : ℕ} (hparent : f.parent s = none) (hchild : f.child s = none) :
    ({ f with
        parent := Function.update f.parent s (some a)
        child := Function.update f.child s (some b) } : SpawnFds).Holds fd ↔
      f.Holds fd ∨ fd = a ∨ fd = b := by
  constructor
  · rintro (h | h | ⟨s', h⟩)
    · exact .inl (.inl h)
    · exact .inl (.inr (.inl h))
    · by_cases hs : s' = s
      · subst hs
        simp only [Function.update_self, Option.some.injEq] at h
        exact .inr (h.imp Eq.symm Eq.symm)
      · simp only [Function.update_of_ne hs] at h
        exact .inl (.inr (.inr ⟨s', h⟩))
  · rintro ((h | h | ⟨s', h⟩) | rfl | rfl)
    · exact .inl h
    · exact .inr (.inl h)
    · have hs : s' ≠ s := by
        rintro rfl
        simp [hparent, hchild] at h
      exact .inr (.inr ⟨s', by simpa only [Function.update_of_ne hs] using h⟩)
    · exact .inr (.inr ⟨s, .inl (Function.update_self ..)⟩)
    · exact .inr (.inr ⟨s, .inr (Function.update_self ..)⟩)

end SpawnFds

/-- What the parent has open: what it had, both ends of the status pipe with `FD_CLOEXEC`, and both
ends of a pipe for each stream that is redirected. -/
structure Layout (k₀ k : Kernel) (f : SpawnFds) : Prop where
  pipes : k₀.pipes < k.pipes
  status : ∃ r w, f.status0 = some r ∧ f.status1 = some w ∧
    k.fds.lookup r = some ⟨.pipeRead k₀.pipes, true⟩ ∧
      k.fds.lookup w = some ⟨.pipeWrite k₀.pipes, true⟩
  ends : ∀ s, (f.parent s = none ∧ f.child s = none) ∨
    ∃ a b id, f.parent s = some a ∧ f.child s = some b ∧ k₀.pipes < id ∧ id < k.pipes ∧
      k.fds.lookup a = some ⟨s.parentEnd id, false⟩ ∧ k.fds.lookup b = some ⟨s.childEnd id, false⟩
  distinct : ∀ s s' a a' id, f.parent s = some a → f.parent s' = some a' →
    k.fds.lookup a = some ⟨s.parentEnd id, false⟩ →
      k.fds.lookup a' = some ⟨s'.parentEnd id, false⟩ → s = s'
  fresh : ∀ fd, f.Holds fd → k₀.fds.lookup fd = none
  rest : ∀ fd, ¬ f.Holds fd → k.fds.lookup fd = k₀.fds.lookup fd

/-- Pipes that are still to be made are not open yet. -/
def Kernel.Fresh (k : Kernel) : Prop :=
  ∀ fd d id, k.fds.lookup fd = some d →
    d.file = .pipeRead id ∨ d.file = .pipeWrite id → id < k.pipes

/-- A new pipe. -/
theorem pipe_spec (h : k.pipe = (k', r, w)) :
    r ≠ w ∧ k.fds.lookup r = none ∧ k.fds.lookup w = none ∧ k'.pipes = k.pipes + 1 ∧
      ∀ fd, k'.fds.lookup fd = if fd = w then some ⟨.pipeWrite k.pipes, false⟩
        else if fd = r then some ⟨.pipeRead k.pipes, false⟩ else k.fds.lookup fd := by
  cases h
  have hw := FdTable.lookup_free (k.fds.install k.fds.free ⟨.pipeRead k.pipes, false⟩)
  rw [FdTable.lookup_install] at hw
  have hne : (k.fds.install k.fds.free ⟨.pipeRead k.pipes, false⟩).free ≠ k.fds.free := by
    intro e
    rw [if_pos e] at hw
    cases hw
  rw [if_neg hne] at hw
  exact ⟨hne.symm, FdTable.lookup_free _, hw, rfl, fun fd => by simp⟩

/-- The ends of a new pipe for a stream. -/
theorem mkstd_spec (k : Kernel) (f : SpawnFds) (s : Stream) :
    ∃ a b, (mkstd k f s).2 = { f with
        parent := Function.update f.parent s (some a)
        child := Function.update f.child s (some b) } ∧
      k.fds.lookup a = none ∧ k.fds.lookup b = none ∧ (mkstd k f s).1.pipes = k.pipes + 1 ∧
        (mkstd k f s).1.fds.lookup a = some ⟨s.parentEnd k.pipes, false⟩ ∧
          (mkstd k f s).1.fds.lookup b = some ⟨s.childEnd k.pipes, false⟩ ∧
            ∀ fd, fd ≠ a → fd ≠ b → (mkstd k f s).1.fds.lookup fd = k.fds.lookup fd := by
  unfold mkstd
  generalize hpipe : k.pipe = p
  obtain ⟨k', r, w⟩ := p
  obtain ⟨hne, hr, hw, hpipes, hlookup⟩ := pipe_spec hpipe
  cases s with
  | stdin =>
    refine ⟨w, r, rfl, hw, hr, hpipes, ?_, ?_, fun fd hfw hfr => ?_⟩
    · simp [hlookup, Stream.parentEnd]
    · simp [hlookup, Stream.childEnd, hne]
    · simp [hlookup, hfw, hfr]
  | stdout | stderr =>
    refine ⟨r, w, rfl, hr, hw, hpipes, ?_, ?_, fun fd hfr hfw => ?_⟩
    · simp [hlookup, Stream.parentEnd, hne]
    · simp [hlookup, Stream.childEnd]
    · simp [hlookup, hfw, hfr]

/-- What was open stays so when a new pipe is made. -/
theorem lookup_mkstd (hfd : k.fds.lookup fd = some d) :
    (mkstd k f s).1.fds.lookup fd = some d := by
  obtain ⟨a, b, -, ha, hb, -, -, -, hrest⟩ := mkstd_spec k f s
  rw [hrest fd (by rintro rfl; simp [ha] at hfd) (by rintro rfl; simp [hb] at hfd), hfd]

namespace Layout

/-- The descriptors of the call are open. -/
theorem lookup_ne_none (h : Layout k₀ k f) (hfd : f.Holds fd) : k.fds.lookup fd ≠ none := by
  obtain ⟨r, w, hr, hw, hlr, hlw⟩ := h.status
  rcases hfd with hfd | hfd | ⟨s, hfd⟩
  · rw [Option.some.inj (hfd.symm.trans hr), hlr]
    simp
  · rw [Option.some.inj (hfd.symm.trans hw), hlw]
    simp
  · rcases h.ends s with ⟨hp, hc⟩ | ⟨a, b, id, hp, hc, -, -, hla, hlb⟩
    · simp [hp, hc] at hfd
    · rcases hfd with hfd | hfd
      · rw [Option.some.inj (hfd.symm.trans hp), hla]
        simp
      · rw [Option.some.inj (hfd.symm.trans hc), hlb]
        simp

/-- The number of the pipe of a stream. -/
theorem id_lt (h : Layout k₀ k f) {a id : ℕ} (hs : f.parent s = some a)
    (ha : k.fds.lookup a = some ⟨s.parentEnd id, false⟩) : id < k.pipes := by
  rcases h.ends s with ⟨hnone, -⟩ | ⟨a', b, id', hs', -, -, hid, ha', -⟩
  · rw [hnone] at hs
    cases hs
  · obtain rfl : a' = a := Option.some.inj (hs'.symm.trans hs)
    have heq := ha'.symm.trans ha
    cases s <;> simp_all [Stream.parentEnd]

/-- **A pipe for one more stream.** -/
theorem mkstd (h : Layout k₀ k f) (hparent : f.parent s = none) (hchild : f.child s = none) :
    Layout k₀ (mkstd k f s).1 (mkstd k f s).2 := by
  have hkeep : ∀ {fd d}, k.fds.lookup fd = some d →
      (Yaooi.mkstd k f s).1.fds.lookup fd = some d := lookup_mkstd
  obtain ⟨a, b, hf, ha, hb, hpipes, hnewa, hnewb, hrest⟩ := mkstd_spec k f s
  have hlt := h.pipes
  have hkept : ∀ {fd}, f.Holds fd →
      (Yaooi.mkstd k f s).1.fds.lookup fd = k.fds.lookup fd := fun {fd} hfd => by
    obtain ⟨d, hd⟩ := Option.ne_none_iff_exists'.mp (h.lookup_ne_none hfd)
    rw [hkeep hd, hd]
  have hholds : ∀ fd, (Yaooi.mkstd k f s).2.Holds fd ↔ f.Holds fd ∨ fd = a ∨ fd = b := by
    rw [hf]
    exact fun fd => SpawnFds.holds_update hparent hchild
  generalize Yaooi.mkstd k f s = p at hf hpipes hnewa hnewb hrest hholds hkeep hkept ⊢
  obtain ⟨k', f'⟩ := p
  dsimp only at hf hpipes hnewa hnewb hrest hholds hkeep hkept ⊢
  have hother : ∀ {s'}, s' ≠ s → f'.parent s' = f.parent s' ∧ f'.child s' = f.child s' :=
    fun {s'} hs' => by simp [hf, hs']
  have hself : f'.parent s = some a ∧ f'.child s = some b := by simp [hf]
  refine ⟨by omega, ?_, fun s' => ?_, fun s₁ s₂ a₁ a₂ id h₁ h₂ hl₁ hl₂ => ?_, fun fd hfd => ?_,
    fun fd hfd => ?_⟩
  · obtain ⟨r, w, hr, hw, hlr, hlw⟩ := h.status
    exact ⟨r, w, by rw [hf]; exact hr, by rw [hf]; exact hw, hkeep hlr, hkeep hlw⟩
  · by_cases hs' : s' = s
    · subst hs'
      exact .inr ⟨a, b, k.pipes, hself.1, hself.2, hlt, by omega, hnewa, hnewb⟩
    · rw [(hother hs').1, (hother hs').2]
      apply (h.ends s').imp_right
      rintro ⟨a', b', id, hp, hc, hid, hid', hla, hlb⟩
      exact ⟨a', b', id, hp, hc, hid, by omega, hkeep hla, hkeep hlb⟩
  · -- the new pipe has a number that no other has
    have hnew : ∀ {s' a'}, s' ≠ s → f'.parent s' = some a' →
        k'.fds.lookup a' = some ⟨s'.parentEnd id, false⟩ →
          f.parent s' = some a' ∧ k.fds.lookup a' = some ⟨s'.parentEnd id, false⟩ :=
      fun {s' a'} hs' hp hl => by
        rw [(hother hs').1] at hp
        exact ⟨hp, by rw [← hkept (.inr (.inr ⟨s', .inl hp⟩)), hl]⟩
    have hid : ∀ {s'}, s' = s → ∀ a', f'.parent s' = some a' →
        k'.fds.lookup a' = some ⟨s'.parentEnd id, false⟩ → id = k.pipes := by
      rintro s' rfl a' hp hl
      obtain rfl : a = a' := Option.some.inj (hself.1.symm.trans hp)
      have heq := hnewa.symm.trans hl
      cases s' <;> simp_all [Stream.parentEnd]
    by_cases hs₁ : s₁ = s <;> by_cases hs₂ : s₂ = s
    · rw [hs₁, hs₂]
    · obtain ⟨hp, hl⟩ := hnew hs₂ h₂ hl₂
      have := h.id_lt hp hl
      have := hid hs₁ a₁ h₁ hl₁
      omega
    · obtain ⟨hp, hl⟩ := hnew hs₁ h₁ hl₁
      have := h.id_lt hp hl
      have := hid hs₂ a₂ h₂ hl₂
      omega
    · obtain ⟨hp₁, hl₁⟩ := hnew hs₁ h₁ hl₁
      obtain ⟨hp₂, hl₂⟩ := hnew hs₂ h₂ hl₂
      exact h.distinct s₁ s₂ a₁ a₂ id hp₁ hp₂ hl₁ hl₂
  · have hclosed : ∀ {fd}, k.fds.lookup fd = none → k₀.fds.lookup fd = none := fun {fd} hl => by
      rw [← h.rest fd fun hfd => h.lookup_ne_none hfd hl, hl]
    rcases (hholds fd).mp hfd with hfd | rfl | rfl
    · exact h.fresh fd hfd
    · exact hclosed ha
    · exact hclosed hb
  · rw [hholds fd] at hfd
    push Not at hfd
    rw [hrest fd hfd.2.1 hfd.2.2, h.rest fd hfd.1]

/-- The status pipe. -/
theorem status_pipe (h : k₀.pipe = (k, r, w)) :
    Layout k₀ { k with fds := (k.fds.setCloexec r).setCloexec w }
      ⟨some r, some w, fun _ => none, fun _ => none⟩ := by
  obtain ⟨hne, hr, hw, hpipes, hlookup⟩ := pipe_spec h
  refine ⟨by simp [hpipes], ⟨r, w, rfl, rfl, ?_, ?_⟩, fun s => .inl ⟨rfl, rfl⟩,
    fun s s' a a' id ha => absurd ha (by simp), fun fd hfd => ?_, fun fd hfd => ?_⟩
  · simp [hlookup, hne]
  · simp [hlookup, hne.symm]
  · rcases hfd with hfd | hfd | ⟨s, hfd | hfd⟩
    · exact Option.some.inj hfd ▸ hr
    · exact Option.some.inj hfd ▸ hw
    · cases hfd
    · cases hfd
  · have hfr : fd ≠ r := fun e => hfd (.inl (e ▸ rfl))
    have hfw : fd ≠ w := fun e => hfd (.inr (.inl (e ▸ rfl)))
    simp [hlookup, hfr, hfw]

end Layout

/-- The streams that are still to be redirected have no pipe. -/
def Pending (f : SpawnFds) (l : List Stream) : Prop :=
  ∀ s ∈ l, f.parent s = none ∧ f.child s = none

/-- The others have one if that was asked for. -/
def Done (args : SpawnArgs) (f : SpawnFds) (l : List Stream) : Prop :=
  ∀ s ∉ l, (f.parent s).isSome = args.redirect s ∧ (f.child s).isSome = args.redirect s

/-- The streams are redirected one after the other, with the layout in order all the time. -/
theorem layout_redirect (args : SpawnArgs) (ans : SpawnAnswers) {l : List Stream}
    (hnodup : l.Nodup) (h : Layout k₀ k f) (hpending : Pending f l) (hdone : Done args f l) :
    (∃ k' f', l.foldlM (redirect args ans) (k, f) = .ok (k', f') ∧ Layout k₀ k' f' ∧
        Done args f' []) ∨
      ∃ e k' f', l.foldlM (redirect args ans) (k, f) = .error (e, k', f') ∧ Layout k₀ k' f' := by
  induction l generalizing k f with
  | nil => exact .inl ⟨k, f, rfl, h, hdone⟩
  | cons s l ih =>
    obtain ⟨hs, hnodup⟩ := List.nodup_cons.mp hnodup
    obtain ⟨⟨hparent, hchild⟩, hpending⟩ := List.forall_mem_cons.mp hpending
    have hdone' : ∀ s' ∉ l, s' ≠ s →
        (f.parent s').isSome = args.redirect s' ∧ (f.child s').isSome = args.redirect s' :=
      fun s' hs' hne => hdone s' (by simp [hs', hne])
    rw [List.foldlM_cons]
    cases hredirect : args.redirect s with
    | false =>
      have hstep : redirect args ans (k, f) s = .ok (k, f) := by simp [redirect, hredirect]
      rw [hstep]
      refine ih hnodup h hpending fun s' hs' => ?_
      by_cases hne : s' = s
      · rw [hne, hparent, hchild, hredirect]
        exact ⟨rfl, rfl⟩
      · exact hdone' s' hs' hne
    | true =>
      cases hstd : ans.std s with
      | some e =>
        have hstep : redirect args ans (k, f) s = .error (e, k, f) := by
          simp [redirect, hredirect, hstd]
        rw [hstep]
        exact .inr ⟨e, k, f, rfl, h⟩
      | none =>
        have hstep : redirect args ans (k, f) s = .ok (mkstd k f s) := by
          simp [redirect, hredirect, hstd]
        obtain ⟨a, b, hf, -⟩ := mkstd_spec k f s
        rw [hstep]
        refine ih hnodup (h.mkstd hparent hchild) (fun s' hs' => ?_) fun s' hs' => ?_
        · have hne : s' ≠ s := fun e => hs (e ▸ hs')
          simpa [hf, Function.update_of_ne hne] using hpending s' hs'
        · by_cases hne : s' = s
          · subst hne
            simp [hredirect]
          · simpa [hf, Function.update_of_ne hne] using hdone' s' hs' hne

namespace FdTable

@[simp] theorem lookup_closeOpt {t : FdTable} {o : Option ℕ} :
    (t.closeOpt o).lookup fd = if o = some fd then none else t.lookup fd := by
  cases o with
  | none => rfl
  | some k => simp [closeOpt, eq_comm]

end FdTable

/-- What the labels behind `err_fork` close. -/
theorem lookup_cleanup_of_holds {t : FdTable} (h : f.Holds fd) :
    (cleanup t f).lookup fd = none := by
  rcases h with h | h | ⟨s, h | h⟩
  · simp [cleanup, h]
  · simp [cleanup, h]
  · cases s <;> simp [cleanup, h]
  · cases s <;> simp [cleanup, h]

/-- And nothing else. -/
theorem lookup_cleanup_of_not_holds {t : FdTable} (h : ¬ f.Holds fd) :
    (cleanup t f).lookup fd = t.lookup fd := by
  simp only [SpawnFds.Holds, not_or, not_exists] at h
  obtain ⟨h₀, h₁, hs⟩ := h
  simp [cleanup, h₀, h₁, hs]

/-- The labels put back what was open before. -/
theorem Layout.cleanup (h : Layout k₀ k f) (fd : ℕ) :
    (cleanup k.fds f).lookup fd = k₀.fds.lookup fd := by
  by_cases hfd : f.Holds fd
  · rw [lookup_cleanup_of_holds hfd, h.fresh fd hfd]
  · rw [lookup_cleanup_of_not_holds hfd, h.rest fd hfd]

/-- Either everything is in place for the child, or the labels have put all back. -/
theorem prepare_cases {res : Except Errno SpawnFds} (h : prepare args ans k₀ = (k, res)) :
    (∃ f, res = .ok f ∧ Layout k₀ k f ∧ Done args f []) ∨
      ∃ e, res = .error e ∧ (∀ fd, k.fds.lookup fd = k₀.fds.lookup fd) ∧
        k₀.pipes ≤ k.pipes := by
  unfold prepare at h
  cases hstatus : ans.statusPipe with
  | some e =>
    simp only [hstatus, Prod.mk.injEq] at h
    obtain ⟨rfl, rfl⟩ := h
    exact .inr ⟨e, rfl, fun _ => rfl, le_rfl⟩
  | none =>
    generalize hpipe : k₀.pipe = p at h
    obtain ⟨k₁, r, w⟩ := p
    cases hfcntl : ans.fcntl with
    | some e =>
      simp only [hstatus, hfcntl, Prod.mk.injEq] at h
      obtain ⟨rfl, rfl⟩ := h
      obtain ⟨-, hr, hw, hpipes, hlookup⟩ := pipe_spec hpipe
      refine .inr ⟨e, rfl, fun fd => ?_, by simp [hpipes]⟩
      by_cases hfr : fd = r
      · simp [Yaooi.cleanup, hfr, hr]
      · by_cases hfw : fd = w
        · simp [Yaooi.cleanup, hfw, hw]
        · simp [Yaooi.cleanup, Ne.symm hfr, Ne.symm hfw, hlookup, hfr, hfw]
    | none =>
      have hlayout := Layout.status_pipe hpipe
      simp only [hstatus, hfcntl] at h
      rcases layout_redirect args ans (l := Stream.all) (by decide) hlayout
        (fun _ _ => ⟨rfl, rfl⟩) (fun s hs => absurd s.mem_all hs) with
        ⟨k', f', hfold, hl, hdone⟩ | ⟨e, k', f', hfold, hl⟩
      · cases hfork : ans.fork with
        | some e =>
          simp only [hfold, hfork, Prod.mk.injEq] at h
          obtain ⟨rfl, rfl⟩ := h
          exact .inr ⟨e, rfl, hl.cleanup, hl.pipes.le⟩
        | none =>
          simp only [hfold, hfork, Prod.mk.injEq] at h
          obtain ⟨rfl, rfl⟩ := h
          exact .inl ⟨f', rfl, hl, hdone⟩
      · simp only [hfold, Prod.mk.injEq] at h
        obtain ⟨rfl, rfl⟩ := h
        exact .inr ⟨e, rfl, hl.cleanup, hl.pipes.le⟩

/-- **What the parent has open when it forks.** -/
theorem layout_prepare (h : prepare args ans k₀ = (k, .ok f)) :
    Layout k₀ k f ∧ Done args f [] := by
  rcases prepare_cases h with ⟨f', hf, hlayout, hdone⟩ | ⟨e, he, -⟩
  · cases hf
    exact ⟨hlayout, hdone⟩
  · cases he

/-- **Where it fails, the parent has open what it had before.** -/
theorem cleanup_prepare (h : prepare args ans k₀ = (k, .error e)) :
    (∀ fd, k.fds.lookup fd = k₀.fds.lookup fd) ∧ k₀.pipes ≤ k.pipes := by
  rcases prepare_cases h with ⟨f', hf, -⟩ | ⟨e', -, hlookup, hpipes⟩
  · cases hf
  · exact ⟨hlookup, hpipes⟩

namespace Layout

/-- The status pipe is at descriptors of its own. -/
theorem ne_status (h : Layout k₀ k f) (hr : f.status0 = some r) (hw : f.status1 = some w) :
    r ≠ w ∧ ∀ s, f.parent s ≠ some r ∧ f.parent s ≠ some w ∧ f.child s ≠ some r ∧
      f.child s ≠ some w := by
  obtain ⟨r', w', hr', hw', hlr, hlw⟩ := h.status
  obtain rfl : r' = r := Option.some.inj (hr'.symm.trans hr)
  obtain rfl : w' = w := Option.some.inj (hw'.symm.trans hw)
  refine ⟨fun e => by simp [e, hlw] at hlr, fun s => ?_⟩
  rcases h.ends s with ⟨hp, hc⟩ | ⟨a, b, id, hp, hc, hid, -, hla, hlb⟩
  · simp [hp, hc]
  · rw [hp, hc]
    simp only [ne_eq, Option.some.injEq]
    -- what is open there is the end of another pipe
    refine ⟨?_, ?_, ?_, ?_⟩ <;> rintro rfl
    · rw [hlr] at hla
      cases s <;> simp [Stream.parentEnd] at hla
    · rw [hlw] at hla
      cases s <;> simp [Stream.parentEnd] at hla
    · rw [hlr] at hlb
      cases s <;> simp [Stream.childEnd] at hlb
    · rw [hlw] at hlb
      cases s <;> simp [Stream.childEnd] at hlb

/-- The ends of the status pipe are nowhere else. -/
theorem only_status (h : Layout k₀ k f) (hfresh : k₀.Fresh) (hfd : k.fds.lookup fd = some d) :
    (d.file = .pipeRead k₀.pipes → f.status0 = some fd) ∧
      (d.file = .pipeWrite k₀.pipes → f.status1 = some fd) := by
  by_cases hholds : f.Holds fd
  · obtain ⟨r, w, hr, hw, hlr, hlw⟩ := h.status
    rcases hholds with h0 | h1 | ⟨s, hs⟩
    · obtain rfl : fd = r := Option.some.inj (h0.symm.trans hr)
      rw [hlr] at hfd
      cases hfd
      exact ⟨fun _ => h0, fun h => absurd h (by simp)⟩
    · obtain rfl : fd = w := Option.some.inj (h1.symm.trans hw)
      rw [hlw] at hfd
      cases hfd
      exact ⟨fun h => absurd h (by simp), fun _ => h1⟩
    · -- the pipe of a stream is another one
      obtain ⟨id, hid, hd⟩ : ∃ id, k₀.pipes < id ∧
          (d = ⟨s.parentEnd id, false⟩ ∨ d = ⟨s.childEnd id, false⟩) := by
        rcases h.ends s with ⟨hp, hc⟩ | ⟨a, b, id, hp, hc, hid, -, hla, hlb⟩
        · simp [hp, hc] at hs
        · refine ⟨id, hid, hs.imp (fun hs => ?_) fun hs => ?_⟩
          · rw [Option.some.inj (hp.symm.trans hs), hfd] at hla
            exact Option.some.inj hla
          · rw [Option.some.inj (hc.symm.trans hs), hfd] at hlb
            exact Option.some.inj hlb
      constructor <;> intro he <;> rcases hd with rfl | rfl <;> cases s <;>
        simp [Stream.parentEnd, Stream.childEnd] at he <;> omega
  · rw [h.rest fd hholds] at hfd
    have hlt := hfresh fd d k₀.pipes hfd
    exact ⟨fun he => absurd (hlt (.inl he)) (lt_irrefl _),
      fun he => absurd (hlt (.inr he)) (lt_irrefl _)⟩

end Layout

end Yaooi
