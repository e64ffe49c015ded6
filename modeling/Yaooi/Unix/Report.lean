import Yaooi.Unix.Outcome

/-!
# What is reported of a child process

`reports_iff` is about every run of the two processes of `Proc.system`: `yo_proc_spawn` comes back,
and what it and `yo_proc_wait` report is right if and only if nothing has spoilt the run.  A signal
does, unless the child has reported an error before: the status pipe also comes to its end when the
child is killed, and `yo_proc_wait` stores the signal as an exit code.

`ProcInv` is what every step keeps, and `ProcInv.step` says which steps spoil a run.
-/

namespace Yaooi

open Transition

variable {how : Ending} {id w : ℕ} {ops : List ChildOp} {fault : Option Errno} {c c' : Child}
  {b : ℕ → List Errno} {a : ProcAct} {s t : ProcState} {args : SpawnArgs} {ans : SpawnAnswers}

/-! ## The parent -/

variable {k k₀ : Kernel} {f : SpawnFds} {r : ℕ}

/-- The status pipe, when the parent forks. -/
theorem Layout.statusEnd (h : Layout k₀ k f) (hfresh : k₀.Fresh) (hw : f.status1 = some w) :
    StatusEnd k.fds w k₀.pipes := by
  obtain ⟨r', w', -, hw', -, hlw⟩ := h.status
  obtain rfl : w' = w := Option.some.inj (hw'.symm.trans hw)
  refine ⟨hlw, fun fd d hfd hd => ?_⟩
  exact Option.some.inj (((h.only_status hfresh hfd).2 hd).symm.trans hw)

/-- The child leaves the status pipe alone until its program runs. -/
theorem Layout.plan (h : Layout k₀ k f)
    (hstd : ∀ std : Stream, k₀.fds.lookup std.fileno ≠ none) (hr : f.status0 = some r)
    (hw : f.status1 = some w) : Plan w (childProgram args f) := by
  obtain ⟨hrw, hne⟩ := h.ne_status hr hw
  have hfileno : ∀ std : Stream, std.fileno ≠ w := fun std e =>
    hstd std (e ▸ h.fresh w (.inr (.inl hw)))
  refine ⟨_, (List.append_assoc _ [ChildOp.setmask] [ChildOp.execve]).symm, fun op hop => ?_⟩
  simp only [List.mem_append, List.mem_flatMap, List.mem_map, Option.mem_toList, hr,
    Option.toList_some, List.mem_singleton] at hop
  obtain ((((⟨fd, rfl, rfl⟩ | ⟨std, -, fd, hfd, rfl⟩) | ⟨std, -, fd, hfd, rfl⟩) |
    ⟨std, -, fd, hfd, rfl⟩) | hop) | rfl := hop
  · exact ⟨by simp, hrw⟩
  · exact ⟨by simp, fun e => (hne std).2.2.2 (e ▸ hfd), hfileno std⟩
  · exact ⟨by simp, fun e => (hne std).2.1 (e ▸ hfd)⟩
  · exact ⟨by simp, fun e => (hne std).2.2.2 (e ▸ hfd)⟩
  · split at hop
    · obtain rfl := List.mem_singleton.mp hop
      exact ⟨by simp, trivial⟩
    · cases hop
  · exact ⟨by simp, trivial⟩

/-- What holds of the parent once there is a child, by where it is. -/
def ParentInv (w id : ℕ) (c : Child) (s : ProcState) : Prop :=
  match s.pc with
  | .start => False
  | .forked => ∃ r, s.f.status0 = some r ∧ s.f.status1 = some w ∧ r ≠ w ∧
      (∀ std, s.f.child std ≠ some r) ∧ s.kernel.fds.lookup r = some ⟨.pipeRead id, true⟩ ∧
        StatusEnd s.kernel.fds w id ∧ s.buffer id = c.messages ∧ s.reaped = false
  | .reading => ∃ r, s.f.status0 = some r ∧ s.kernel.fds.lookup r = some ⟨.pipeRead id, true⟩ ∧
      s.kernel.fds.hasWriter id = false ∧ s.buffer id = c.messages ∧ s.reaped = false
  | .reaping err => c.reported = true ∧ c.error = some err ∧ s.reaped = false
  | .returned code => (code = .ok ∧ c.Silent) ∨
      ∃ err, code ≠ .ok ∧ c.reported = true ∧ c.error = some err ∧
        (s.reaped = true → code = yoiUnixConvErrno err)
  | .crashed => c.Silent
  | .waited code out => c.Silent ∧
      ((code ≠ .ok ∧ out = none) ∨
        code = .ok ∧ ∃ how, c.pc = .ended how ∧ out = some (procWaitStore how.status))

/-- **What every step keeps.** -/
inductive ProcInv (s : ProcState) : Prop
  | start (hstd : ∀ std : Stream, s.kernel.fds.lookup std.fileno ≠ none) (hfresh : s.kernel.Fresh)
      (hpc : s.pc = .start) (hchild : s.child = none) (hbuffer : s.buffer = fun _ => [])
      (hreaped : s.reaped = false)
  | refused {code : YoCode} (hpc : s.pc = .returned code) (hcode : code ≠ .ok)
      (hchild : s.child = none)
  | forked {c : Child} {w id : ℕ} (hchild : s.child = some c) (hc : ChildInv w id c)
      (hparent : ParentInv w id c s)

/-- Nothing has spoilt the run. -/
structure Unspoilt (s : ProcState) : Prop where
  killed : ∀ c, s.child = some c → ¬ c.Killed
  memory : s.pc ≠ .crashed
  reaped : ∀ code, s.pc = .returned code → s.Reported → s.reaped = true
  waited : ∀ code, s.pc ≠ .waited code none

/-- What the parent knows of its only child. -/
theorem forall_child {P : Child → Prop} (hchild : s.child = some c) :
    (∀ c', s.child = some c' → P c') ↔ P c := by
  simp [hchild]

theorem exists_child {P : Child → Prop} (hchild : s.child = some c) :
    (∃ c', s.child = some c' ∧ P c') ↔ P c := by
  simp [hchild]

theorem reported_iff (hchild : s.child = some c) : s.Reported ↔ c.reported = true :=
  exists_child hchild

/-- **When nothing has spoilt a run with this child.** -/
theorem unspoilt_child (hchild : s.child = some c) : Unspoilt s ↔ ¬ c.Killed ∧ s.pc ≠ .crashed ∧
    (∀ code, s.pc = .returned code → c.reported = true → s.reaped = true) ∧
      ∀ code, s.pc ≠ .waited code none := by
  rw [← forall_child (P := fun c => ¬ c.Killed) hchild, ← reported_iff hchild]
  exact ⟨fun ⟨h1, h2, h3, h4⟩ => ⟨h1, h2, h3, h4⟩, fun ⟨h1, h2, h3, h4⟩ => ⟨h1, h2, h3, h4⟩⟩

/-- What holds of the parent stays so when the child makes a step. -/
theorem ParentInv.child (h : ParentInv w id c s) (hcs : ChildStep id c c' s.buffer b a) :
    ParentInv w id c' { s with child := some c', buffer := b } := by
  unfold ParentInv at h ⊢
  cases hpc : s.pc with
  | start => simp [hpc] at h
  | forked =>
    simp only [hpc] at h ⊢
    obtain ⟨r, h1, h2, h3, h4, h5, h6, h7, h8⟩ := h
    exact ⟨r, h1, h2, h3, h4, h5, h6, hcs.messages h7, h8⟩
  | reading =>
    simp only [hpc] at h ⊢
    obtain ⟨r, h1, h2, h3, h4, h5⟩ := h
    exact ⟨r, h1, h2, h3, hcs.messages h4, h5⟩
  | reaping err =>
    simp only [hpc] at h ⊢
    obtain ⟨h1, h2, h3⟩ := h
    exact ⟨(hcs.reported h1).1, (hcs.reported h1).2.trans h2, h3⟩
  | returned code =>
    simp only [hpc] at h ⊢
    rcases h with ⟨h1, h2⟩ | ⟨err, h1, h2, h3, h4⟩
    · exact .inl ⟨h1, hcs.silent h2⟩
    · exact .inr ⟨err, h1, (hcs.reported h2).1, (hcs.reported h2).2.trans h3, h4⟩
  | crashed =>
    simp only [hpc] at h ⊢
    exact hcs.silent h
  | waited code out =>
    simp only [hpc] at h ⊢
    obtain ⟨h1, h2⟩ := h
    refine ⟨hcs.silent h1, h2.imp_right ?_⟩
    rintro ⟨-, how, hend, -⟩
    exact absurd hend (hcs.alive how)

/-- A step of the child. -/
theorem ProcInv.child (hs : ProcInv s) (ha : a.OfChild) (h : s.step a = some t) :
    ProcInv t ∧ (Unspoilt t ↔ Unspoilt s ∧ s.Benign a) := by
  have hbenign : s.Benign a ↔ ((∃ sig core, a = .kill sig core) → s.Reported) := by
    cases a with
    | spawn | close | read | reap | wait => exact ha.elim
    | call | report | quit | exit | kill => simp [ProcState.Benign]
  obtain ⟨c, ⟨c', b'⟩, hchild, hstep, rfl⟩ := child_cases ha h
  cases hs with
  | start _ _ _ hchild' => simp [hchild] at hchild'
  | refused _ _ hchild' => simp [hchild] at hchild'
  | @forked c₀ w id hchild' hc hparent =>
    obtain rfl : c = c₀ := Option.some.inj (hchild.symm.trans hchild')
    obtain ⟨hc', hcs⟩ := hc.step hstep
    refine ⟨.forked rfl hc' (hparent.child hcs), ?_⟩
    -- once the parent has come back, the child writes no more
    have hreported : ∀ code, s.pc = .returned code → (c'.reported = true ↔ c.reported = true) := by
      intro code hpc
      simp only [ParentInv, hpc] at hparent
      rcases hparent with ⟨-, hsilent⟩ | ⟨err, -, h2, -⟩
      · rw [(hcs.silent hsilent).1, hsilent.1]
      · exact iff_of_true (hcs.reported h2).1 h2
    have halive : ¬ c.Killed := fun ⟨⟨_, _, hend⟩, _⟩ => hcs.alive _ hend
    have hkill : s.Benign a ↔ ¬ c'.Killed := by
      rw [hbenign, hcs.killed, reported_iff hchild]
      simp
    have hreaped : (∀ code, s.pc = .returned code → c'.reported = true → s.reaped = true) ↔
        ∀ code, s.pc = .returned code → c.reported = true → s.reaped = true :=
      forall₂_congr fun code hpc => by rw [hreported code hpc]
    have hu' : Unspoilt { s with child := some c', buffer := b' } ↔ ¬ c'.Killed ∧
        s.pc ≠ .crashed ∧ (∀ code, s.pc = .returned code → c'.reported = true → s.reaped = true) ∧
          ∀ code, s.pc ≠ .waited code none := unspoilt_child rfl
    rw [hu', unspoilt_child hchild, hkill, hreaped, and_iff_right halive, and_comm]

/-- While the parent is on its way, only the child may have been killed. -/
theorem unspoilt_iff (hcrash : s.pc ≠ .crashed) (hreturned : ∀ code, s.pc ≠ .returned code)
    (hwaited : ∀ code out, s.pc ≠ .waited code out) :
    Unspoilt s ↔ ∀ c, s.child = some c → ¬ c.Killed :=
  ⟨Unspoilt.killed, fun h => ⟨h, hcrash, fun code e => absurd e (hreturned code),
    fun code => hwaited code none⟩⟩

/-- After `fork`. -/
theorem ProcInv.of_prepare (hstd : ∀ std : Stream, k₀.fds.lookup std.fileno ≠ none)
    (hfresh : k₀.Fresh) (hprepare : prepare args ans k₀ = (k, .ok f)) {s : ProcState}
    (hkernel : s.kernel = k) (hf : s.f = f) (hpc : s.pc = .forked)
    (hchild : s.child = some ⟨k.fds, f.status1, .todo (childProgram args f), false, none, false⟩)
    (hbuffer : s.buffer = fun _ => []) (hreaped : s.reaped = false) : ProcInv s := by
  obtain ⟨hlayout, -⟩ := layout_prepare hprepare
  obtain ⟨r, w, hr, hw, hlr, -⟩ := hlayout.status
  have hend := hlayout.statusEnd hfresh hw
  obtain ⟨hrw, hne⟩ := hlayout.ne_status hr hw
  have hc : ChildInv w k₀.pipes
      ⟨k.fds, f.status1, .todo (childProgram args f), false, none, false⟩ :=
    ⟨hw, rfl, rfl, rfl, hend, hlayout.plan hstd hr hw⟩
  refine .forked hchild hc ?_
  simp only [ParentInv, hpc, hf, hkernel, hbuffer]
  exact ⟨r, hr, hw, hrw, fun std => (hne std).2.2.1, hlr, hend, rfl, hreaped⟩

/-- The parent closes the child's ends. -/
theorem ProcInv.close (hs : ProcInv s) (h : s.step .close = some t) :
    ProcInv t ∧ (Unspoilt t ↔ Unspoilt s ∧ s.Benign .close) := by
  obtain ⟨hpc, rfl⟩ := close_cases h
  refine ⟨?_, ?_⟩
  · cases hs with
    | start _ _ hpc' => simp [hpc] at hpc'
    | refused hpc' => simp [hpc] at hpc'
    | @forked c w id hchild hc hparent =>
      simp only [ParentInv, hpc] at hparent
      obtain ⟨r, hr, hw, hrw, hne, hlr, hend, hbuffer, hreaped⟩ := hparent
      refine .forked hchild hc ⟨r, hr, ?_, ?_, hbuffer, hreaped⟩
      · simp [closeChildEnds, hw, hne, hrw.symm, hlr]
      · rw [← Bool.not_eq_true, FdTable.hasWriter_eq_true]
        rintro ⟨fd, d, hfd, hd⟩
        simp only [closeChildEnds, FdTable.lookup_closeOpt, hw] at hfd
        split at hfd
        · cases hfd
        · rename_i hne'
          have hfd' : s.kernel.fds.lookup fd = some d := by
            split_ifs at hfd
            exact hfd
          exact hne' (by rw [hend.2 fd d hfd' hd])
  · rw [unspoilt_iff (by simp) (by simp) (by simp), unspoilt_iff (by simp [hpc]) (by simp [hpc])
      (by simp [hpc])]
    exact (and_iff_left trivial).symm

/-- The parent starts the child. -/
theorem ProcInv.spawn (hs : ProcInv s) (h : s.step (.spawn args ans) = some t) :
    ProcInv t ∧ (Unspoilt t ↔ Unspoilt s ∧ s.Benign (.spawn args ans)) := by
  obtain ⟨hpc, hcases⟩ := spawn_cases h
  cases hs with
  | refused hpc' => simp [hpc] at hpc'
  | forked _ _ hparent => simp [ParentInv, hpc] at hparent
  | start hstd hfresh _ hchild hbuffer hreaped =>
    have hfree : Unspoilt s :=
      (unspoilt_iff (by simp [hpc]) (by simp [hpc]) (by simp [hpc])).mpr (by simp [hchild])
    rcases hcases with ⟨k, e, hprepare, rfl⟩ | ⟨k, f, hprepare, rfl⟩
    · refine ⟨.refused rfl (yoiUnixConvErrno_ne_ok e) hchild, iff_of_true ?_ ⟨hfree, trivial⟩⟩
      exact ⟨hfree.killed, by simp, fun _ _ ⟨c, hc, _⟩ => by simp [hchild] at hc, by simp⟩
    · refine ⟨.of_prepare hstd hfresh hprepare rfl rfl rfl rfl hbuffer hreaped,
        iff_of_true ?_ ⟨hfree, trivial⟩⟩
      rw [unspoilt_iff (by simp) (by simp) (by simp)]
      rintro c hc ⟨⟨sig, core, hend⟩, -⟩
      cases hc
      cases hend

/-- At the end of the pipe the child is silent. -/
theorem ChildInv.silent (hc : ChildInv w id c) (hmsg : c.messages = [])
    (hwriter : c.fds.hasWriter id = false) : c.Silent := by
  have hreported : c.reported = false := by
    by_contra hreported
    rw [Bool.not_eq_false] at hreported
    obtain ⟨e, he⟩ := Option.ne_none_iff_exists'.mp (hc.reported hreported).2
    simp [Child.messages, hreported, he] at hmsg
  refine ⟨hreported, ?_⟩
  obtain ⟨-, hc⟩ := hc
  cases hpc : c.pc with
  | todo ops =>
    rw [hpc] at hc
    simp [hc.2.2.2.1.hasWriter] at hwriter
  | report e =>
    rw [hpc] at hc
    simp [hc.2.2.2.hasWriter] at hwriter
  | quit =>
    rw [hpc] at hc
    simp [hc.2.2] at hreported
  | program =>
    rw [hpc] at hc
    exact .inl hc.1
  | ended how => exact .inr ⟨how, rfl⟩

/-- What the parent reads is the error of the child. -/
theorem reported_of_messages {err : Errno} {rest : List Errno} (h : c.messages = err :: rest) :
    c.reported = true ∧ c.error = some err := by
  unfold Child.messages at h
  split at h
  · rename_i hreported
    cases herror : c.error <;> simp_all
  · cases h

/-- The parent reads from the status pipe. -/
theorem ProcInv.read (hs : ProcInv s) (h : s.step (.read none) = some t) :
    ProcInv t ∧ (Unspoilt t ↔ Unspoilt s ∧ s.Benign (.read none)) := by
  obtain ⟨hpc, id', hid', hcases⟩ := read_cases h
  cases hs with
  | start _ _ hpc' => simp [hpc] at hpc'
  | refused hpc' => simp [hpc] at hpc'
  | @forked c w id hchild hc hparent =>
    simp only [ParentInv, hpc] at hparent
    obtain ⟨r, hr, hlr, -, hbuffer, hreaped⟩ := hparent
    obtain rfl : id = id' := by simpa [ProcState.statusId, hr, hlr] using hid'
    rw [unspoilt_iff (s := s) (by simp [hpc]) (by simp [hpc]) (by simp [hpc])]
    rcases hcases with ⟨err, rest, hmsg, rfl⟩ | ⟨hmsg, hopen, rfl⟩
    · obtain ⟨hreported, herror⟩ := reported_of_messages (hbuffer.symm.trans hmsg)
      refine ⟨.forked hchild hc ⟨hreported, herror, hreaped⟩, ?_⟩
      rw [unspoilt_iff (by simp [ProcState.afterRead]) (by simp [ProcState.afterRead])
        (by simp [ProcState.afterRead])]
      exact (and_iff_left (.inr ⟨c, hchild, hreported⟩)).symm
    · have hsilent := hc.silent (hbuffer.symm.trans hmsg) (by
        rw [ProcState.hasWriter, Bool.or_eq_false_iff, hchild] at hopen
        exact hopen.2)
      have hnone : ¬ s.Reported := by simp [reported_iff hchild, hsilent.1]
      cases hproc : s.proc with
      | true =>
        refine ⟨.forked hchild hc (.inl ⟨rfl, hsilent⟩), ?_⟩
        rw [and_iff_left (show s.Benign (.read none) from .inl hproc)]
        refine ⟨Unspoilt.killed, fun hk => ⟨hk, by simp [ProcState.afterRead], ?_,
          by simp [ProcState.afterRead]⟩⟩
        exact fun _ _ hrep => absurd hrep hnone
      | false =>
        refine ⟨.forked hchild hc hsilent, iff_of_false (fun hu => hu.memory rfl) ?_⟩
        rintro ⟨-, hproc' | hrep⟩
        · simp [hproc] at hproc'
        · exact hnone hrep

/-- The parent waits for the child that has failed. -/
theorem ProcInv.reap (hs : ProcInv s) (h : s.step (.reap fault) = some t) :
    ProcInv t ∧ (Unspoilt t ↔ Unspoilt s ∧ s.Benign (.reap fault)) := by
  obtain ⟨err, hpc, hcases⟩ := reap_cases h
  cases hs with
  | start _ _ hpc' => simp [hpc] at hpc'
  | refused hpc' => simp [hpc] at hpc'
  | @forked c w id hchild hc hparent =>
    simp only [ParentInv, hpc] at hparent
    obtain ⟨hreported, herror, hreaped⟩ := hparent
    rw [unspoilt_iff (s := s) (by simp [hpc]) (by simp [hpc]) (by simp [hpc])]
    rcases hcases with ⟨e, rfl, rfl⟩ | ⟨rfl, -, rfl⟩
    · refine ⟨.forked hchild hc (.inr ⟨err, yoiUnixConvErrno_ne_ok e, hreported, herror,
        fun hr => by cases hr⟩), iff_of_false (fun hu => ?_) fun hb => by cases hb.2⟩
      exact absurd (hu.reaped _ rfl ⟨c, hchild, hreported⟩) (by simp [ProcState.fail])
    · refine ⟨.forked hchild hc (.inr ⟨err, yoiUnixConvErrno_ne_ok err, hreported, herror,
        fun _ => rfl⟩), ?_⟩
      rw [and_iff_left (show s.Benign (.reap none) from rfl)]
      exact ⟨Unspoilt.killed, fun hk => ⟨hk, by simp [ProcState.fail], fun _ _ _ => rfl,
        by simp [ProcState.fail]⟩⟩

/-- The program counter of a child that has ended. -/
theorem ending_eq_some (hchild : s.child = some c) : s.ending = some how ↔ c.pc = .ended how := by
  obtain ⟨fds, status1, pc, execd, error, reported⟩ := c
  cases pc <;> simp [ProcState.ending, hchild]

/-- The parent calls `yo_proc_wait`. -/
theorem ProcInv.wait (hs : ProcInv s) (h : s.step (.wait fault) = some t) :
    ProcInv t ∧ (Unspoilt t ↔ Unspoilt s ∧ s.Benign (.wait fault)) := by
  obtain ⟨hpc, hcases⟩ := wait_cases h
  cases hs with
  | start _ _ hpc' => simp [hpc] at hpc'
  | refused hpc' hcode =>
    rw [hpc] at hpc'
    cases hpc'
    exact absurd rfl hcode
  | @forked c w id hchild hc hparent =>
    simp only [ParentInv, hpc] at hparent
    have hsilent : c.Silent := by
      rcases hparent with ⟨-, hsilent⟩ | ⟨err, hcode, -⟩
      · exact hsilent
      · exact absurd rfl hcode
    have hs' : Unspoilt s ↔ ∀ c, s.child = some c → ¬ c.Killed := by
      rw [unspoilt_child hchild, forall_child hchild]
      simp [hpc, hsilent.1]
    rw [hs']
    rcases hcases with ⟨e, rfl, rfl⟩ | ⟨rfl, how, hhow, rfl⟩
    · exact ⟨.forked hchild hc ⟨hsilent, .inl ⟨yoiUnixConvErrno_ne_ok e, rfl⟩⟩,
        iff_of_false (fun hu => hu.waited _ rfl) fun hb => by cases hb.2⟩
    · have hend := (ending_eq_some hchild).mp hhow
      refine ⟨.forked hchild hc ⟨hsilent, .inr ⟨rfl, how, hend, rfl⟩⟩, ?_⟩
      rw [and_iff_left (show s.Benign (.wait none) from rfl)]
      exact ⟨Unspoilt.killed, fun hk => ⟨hk, by simp, by simp, by simp⟩⟩

/-- **A step keeps the invariant, and spoils nothing if and only if it is benign.** -/
theorem ProcInv.step (hs : ProcInv s) (ha : a.Uninterrupted) (h : s.step a = some t) :
    ProcInv t ∧ (Unspoilt t ↔ Unspoilt s ∧ s.Benign a) := by
  cases a with
  | spawn args ans => exact hs.spawn h
  | close => exact hs.close h
  | read fault =>
    obtain rfl : fault = none := ha
    exact hs.read h
  | reap fault => exact hs.reap h
  | wait fault => exact hs.wait h
  | call fault => exact hs.child trivial h
  | report => exact hs.child trivial h
  | quit => exact hs.child trivial h
  | exit code => exact hs.child trivial h
  | kill sig core => exact hs.child trivial h

/-! ## The parent comes back -/

/-- What the child has left to do before its program runs, or before it ends. -/
def ChildPc.left : ChildPc → ℕ
  | todo ops => ops.length + 3
  | report _ => 2
  | quit => 1
  | program | ended _ => 0

/-- What the parent has left to do. -/
def ParentPc.left : ParentPc → ℕ
  | forked => 3
  | reading => 2
  | reaping _ => 1
  | _ => 0

/-- What both have left to do. -/
def ProcState.left (s : ProcState) : ℕ := s.pc.left + (s.child.elim 0 fun c => c.pc.left)

/-- A call that succeeds, if it can. -/
def ProcAct.Smooth : ProcAct → Prop
  | .close | .report | .quit => True
  | .read fault | .reap fault | .call fault => fault = none
  | _ => False

theorem ProcAct.Smooth.uninterrupted (h : a.Smooth) : a.Uninterrupted := by
  cases a <;> first | exact trivial | exact h

/-- Such a call leaves the child less to do. -/
theorem child_left_lt {p : Child × (ℕ → List Errno)} (ha : a.Smooth) (h : c.step b a = some p) :
    p.1.pc.left < c.pc.left := by
  cases a with
  | spawn | wait | exit | kill => exact ha.elim
  | close | read | reap => simp [Child.step] at h
  | call fault =>
    cases hpc : c.pc with
    | report | quit | program | ended => simp [Child.step, hpc] at h
    | todo ops =>
      cases ops with
      | nil => simp [Child.step, hpc] at h
      | cons op ops =>
        simp only [Child.step, hpc] at h
        split at h
        · cases h
          simp [ChildPc.left]
        · split at h
          · cases h
            simp [ChildPc.left]
          · cases h
            simp [ChildPc.left]
  | report =>
    cases hpc : c.pc <;> simp [Child.step, hpc] at h
    subst h
    simp [ChildPc.left]
  | quit =>
    cases hpc : c.pc <;> simp [Child.step, hpc] at h
    subst h
    simp [ChildPc.left, Child.finish]

/-- Such a call leaves less to do, and the parent does not go back to the start. -/
theorem left_lt (h : s.step a = some t) (ha : a.Smooth) (hs : s.pc ≠ .start) :
    t.left < s.left ∧ t.pc ≠ .start := by
  have hchild : a.OfChild → t.left < s.left ∧ t.pc ≠ .start := by
    intro hof
    obtain ⟨c, p, hc, hp, rfl⟩ := child_cases hof h
    have hlt := child_left_lt ha hp
    refine ⟨?_, hs⟩
    simp only [ProcState.left, hc, Option.elim_some]
    omega
  cases a with
  | spawn | wait | exit | kill => exact ha.elim
  | close =>
    obtain ⟨hpc, rfl⟩ := close_cases h
    simp [ProcState.left, hpc, ParentPc.left]
  | read fault =>
    obtain rfl : fault = none := ha
    obtain ⟨hpc, id, -, ⟨err, rest, -, rfl⟩ | ⟨-, -, rfl⟩⟩ := read_cases h
    · simp [ProcState.left, ProcState.afterRead, hpc, ParentPc.left]
    · cases hproc : s.proc <;>
        simp [ProcState.left, ProcState.afterRead, hpc, ParentPc.left]
  | reap fault =>
    obtain ⟨err, hpc, ⟨e, -, rfl⟩ | ⟨-, -, rfl⟩⟩ := reap_cases h
    · simp [ProcState.left, ProcState.fail, hpc, ParentPc.left]
    · simp [ProcState.left, ProcState.fail, hpc, ParentPc.left]
  | call | report | quit => exact hchild trivial

/-- The child can go on until its program runs or it has ended. -/
theorem ChildInv.exists_step (hc : ChildInv w id c) (b : ℕ → List Errno) :
    c.pc = .program ∨ (∃ how, c.pc = .ended how) ∨
      ∃ a p, (a = .call none ∨ a = .report ∨ a = .quit) ∧ c.step b a = some p := by
  obtain ⟨-, hc⟩ := hc
  cases hpc : c.pc with
  | program => exact .inl rfl
  | ended how => exact .inr (.inl ⟨how, rfl⟩)
  | todo ops =>
    rw [hpc] at hc
    obtain ⟨-, -, -, -, pre, rfl, -⟩ := hc
    obtain ⟨op, ops, hops⟩ :=
      List.exists_cons_of_ne_nil (l := pre ++ [ChildOp.execve]) (by simp)
    obtain ⟨p, hp⟩ : ∃ p, c.step b (.call none) = some p := by
      simp only [Child.step, hpc, hops]
      split
      · exact ⟨_, rfl⟩
      · split <;> exact ⟨_, rfl⟩
    exact .inr (.inr ⟨_, p, .inl rfl, hp⟩)
  | report e =>
    obtain ⟨p, hp⟩ : ∃ p, c.step b .report = some p := by simp [Child.step, hpc]
    exact .inr (.inr ⟨_, p, .inr (.inl rfl), hp⟩)
  | quit =>
    obtain ⟨p, hp⟩ : ∃ p, c.step b .quit = some p := by simp [Child.step, hpc]
    exact .inr (.inr ⟨_, p, .inr (.inr rfl), hp⟩)

/-- A step of the child is a step of the system. -/
theorem exists_step_child {p : Child × (ℕ → List Errno)} (hchild : s.child = some c)
    (ha : a = .call none ∨ a = .report ∨ a = .quit) (hp : c.step s.buffer a = some p) :
    ∃ a t, a.Smooth ∧ s.step a = some t := by
  refine ⟨a, { s with child := some p.1, buffer := p.2 }, ?_, ?_⟩
  · rcases ha with rfl | rfl | rfl
    · rfl
    · trivial
    · trivial
  · rcases ha with rfl | rfl | rfl <;> simp only [ProcState.step, hchild, hp, Option.map_some]

/-- Until the parent comes back there is always such a call. -/
theorem ProcInv.exists_smooth (hs : ProcInv s) (hstart : s.pc ≠ .start) (h : ¬ s.Returned) :
    ∃ a t, a.Smooth ∧ s.step a = some t := by
  cases hs with
  | start _ _ hpc => exact absurd hpc hstart
  | refused hpc => exact absurd (by simp [ProcState.Returned, hpc]) h
  | @forked c w id hchild hc hparent =>
    cases hpc : s.pc with
    | start => exact absurd hpc hstart
    | returned | crashed | waited => exact absurd (by simp [ProcState.Returned, hpc]) h
    | forked => exact ⟨.close, _, trivial, by simp only [ProcState.step, hpc]; rfl⟩
    | reading =>
      simp only [ParentInv, hpc] at hparent
      obtain ⟨r, hr, hlr, hwriter, hbuffer, -⟩ := hparent
      have hid : s.statusId = some id := by simp [ProcState.statusId, hr, hlr]
      -- once nobody has the pipe open for writing, the parent need not wait
      have hread : c.fds.hasWriter id = false → ∃ a t, a.Smooth ∧ s.step a = some t := by
        intro hclosed
        have hopen : s.hasWriter id = false := by
          simp [ProcState.hasWriter, hchild, hwriter, hclosed]
        refine ⟨.read none, ?_⟩
        cases hmsg : c.messages with
        | cons err rest =>
          exact ⟨_, rfl, by simp only [ProcState.step, hpc, hid, hbuffer, hmsg]; rfl⟩
        | nil => exact ⟨_, rfl, by simp only [ProcState.step, hpc, hid, hbuffer, hmsg, hopen]; rfl⟩
      rcases hc.exists_step s.buffer with hcpc | ⟨how, hcpc⟩ | ⟨a, p, ha, hp⟩
      · have hprogram := hc.2
        rw [hcpc] at hprogram
        exact hread hprogram.2.2.2
      · have hended := hc.2
        rw [hcpc] at hended
        exact hread (by rw [hended.2.1]; rfl)
      · exact exists_step_child hchild ha hp
    | reaping err =>
      simp only [ParentInv, hpc] at hparent
      rcases hc.exists_step s.buffer with hcpc | ⟨how, hcpc⟩ | ⟨a, p, ha, hp⟩
      · have hprogram := hc.2
        rw [hcpc] at hprogram
        exact absurd (hparent.1.symm.trans hprogram.2.2.1) (by decide)
      · have hending := (ending_eq_some hchild).mpr hcpc
        exact ⟨.reap none, s.fail err true, rfl, by simp [ProcState.step, hpc, hending]⟩
      · exact exists_step_child hchild ha hp

/-! ## The outcome -/

/-- A complete run reports what it should if and only if nothing has spoilt it. -/
theorem ProcInv.reports_iff_unspoilt (hs : ProcInv s) (hcomplete : s.Complete) :
    s.Reports ↔ Unspoilt s := by
  cases hs with
  | start _ _ hpc => simp [ProcState.Complete, hpc] at hcomplete
  | refused hpc hcode hchild =>
    have hnone : ∀ c, s.child ≠ some c := by simp [hchild]
    refine iff_of_true ?_ ⟨fun c hc => absurd hc (hnone c), by simp [hpc],
      fun _ _ ⟨c, hc, _⟩ => absurd hc (hnone c), by simp [hpc]⟩
    simp only [ProcState.Reports, hpc]
    exact ⟨iff_of_false hcode fun ⟨c, hc, _⟩ => hnone c hc,
      fun e ⟨c, hc, _⟩ => absurd hc (hnone c)⟩
  | @forked c w id hchild hc hparent =>
    have hone : ∀ P : Child → Prop, (∃ c', s.child = some c' ∧ P c') ↔ P c := fun P =>
      exists_child hchild
    cases hpc : s.pc with
    | start | forked | reading | reaping => simp [ProcState.Complete, hpc] at hcomplete
    | returned code =>
      simp only [ProcState.Complete, hpc] at hcomplete
      simp only [ParentInv, hpc] at hparent
      obtain ⟨err, hcode, hreported, herror, hreaped⟩ := hparent.resolve_left fun h => hcomplete h.1
      have hexecd := (hc.reported hreported).1
      have hreports : s.Reports ↔ s.reaped = true := by
        simp only [ProcState.Reports, hpc, ProcState.Execd, ProcState.Failed, hone, hexecd,
          herror, Option.some.injEq]
        constructor
        · rintro ⟨-, h⟩
          exact (h err rfl).2
        · intro h
          refine ⟨iff_of_false hcode (by decide), ?_⟩
          rintro e rfl
          exact ⟨hreaped h, h⟩
      have halive : ¬ c.Killed := fun hk => absurd (hreported.symm.trans hk.2) (by decide)
      rw [hreports, unspoilt_child hchild]
      simp [hpc, halive, hreported]
    | crashed =>
      refine iff_of_false (fun h => ?_) fun h => h.memory hpc
      simp [ProcState.Reports, hpc] at h
    | waited code out =>
      simp only [ParentInv, hpc] at hparent
      obtain ⟨hsilent, hout⟩ := hparent
      rcases hout with ⟨hcode, rfl⟩ | ⟨rfl, how, hend, rfl⟩
      · refine iff_of_false (fun h => ?_) fun h => h.waited code hpc
        simp [ProcState.Reports, hpc, hcode] at h
      · have hending := (ending_eq_some hchild).mpr hend
        obtain ⟨-, hc'⟩ := hc
        rw [hend] at hc'
        obtain ⟨hvalid, -, -, -, hexit⟩ := hc'
        have hreports : s.Reports ↔ c.execd = true ∧ ∃ code, how = .exited code := by
          simp only [ProcState.Reports, hpc, ProcState.Execd, hone, hending, Option.some.injEq,
            true_and, exists_eq_left', procWaitStore_eq_report hvalid]
        have hkilled : c.Killed ↔ ∃ sig core, how = .signalled sig core := by
          rw [Child.Killed, and_iff_left hsilent.1, hend]
          simp
        rw [hreports, unspoilt_child hchild, hkilled]
        cases how with
        | exited code =>
          have hexecd : c.execd = true := (hexit code rfl).resolve_right fun hr =>
            absurd (hr.symm.trans hsilent.1) (by decide)
          simp [hpc, hexecd]
        | signalled sig core => simp

/-- **The outcome of a child.**  Whatever the child does and whatever fails, `yo_proc_spawn` comes
back.  A complete run reports what it should if and only if there is memory for the result, the
child is not killed unless it has reported an error, and `waitpid` does not fail. -/
theorem reports_iff {s₀ : ProcState} {as : List ProcAct} (h₀ : Proc.system.init s₀)
    (hread : ∀ a ∈ as, a.Uninterrupted) (hrun : Proc.system.run s₀ as = some s) :
    (s.pc ≠ .start → ∃ bs t, Proc.system.run s bs = some t ∧ t.Returned) ∧
      (s.Complete → (s.Reports ↔ Proc.system.Along ProcState.Benign s₀ as)) := by
  obtain ⟨hstd, hfresh, hpc, hchild, hbuffer, hreaped⟩ := h₀
  have hstart : ProcInv s₀ := .start hstd hfresh hpc hchild hbuffer hreaped
  have hfree : Unspoilt s₀ :=
    (unspoilt_iff (by simp [hpc]) (by simp [hpc]) (by simp [hpc])).mpr (by simp [hchild])
  have hs : ProcInv s := (System.along_of_mem (fun a ha _ => hread a ha) s₀).invariant
    (φ := fun _ a => a.Uninterrupted) (fun _ _ _ hs ha h => (hs.step ha h).1) hstart hrun
  refine ⟨fun hne => ?_, fun hcomplete => ?_⟩
  · obtain ⟨bs, t, hrun, -, ⟨ht, hne'⟩, hstuck⟩ := System.exists_run_stuck (T := Proc.system)
      (P := fun s => ProcInv s ∧ s.pc ≠ .start) ProcState.left
      (fun s a t hs ha h => ⟨⟨(hs.1.step ha.uninterrupted h).1, (left_lt h ha hs.2).2⟩,
        (left_lt h ha hs.2).1⟩) ⟨hs, hne⟩
    refine ⟨bs, t, hrun, by_contra fun hno => ?_⟩
    obtain ⟨a, u, ha, hu⟩ := ht.exists_smooth hne' hno
    exact absurd (hu.symm.trans (hstuck a ha)) (by simp)
  · rw [hs.reports_iff_unspoilt hcomplete]
    exact System.last_iff_along ProcAct.Uninterrupted (fun _ _ _ hs ha h => hs.step ha h) hstart
      hfree hread hrun

/-- A parent that has only its standard streams open. -/
def ProcState.fresh : ProcState where
  kernel := ⟨(List.range 3).map fun id => some ⟨.other id, false⟩, 0⟩
  proc := true
  f := ⟨none, none, fun _ => none, fun _ => none⟩
  pc := .start
  child := none
  buffer _ := []
  reaped := false

/-- `yo_proc_spawn` starts a program without redirecting anything, and all goes well. -/
def spawnPlain : List ProcAct :=
  [.spawn ⟨fun _ => false, false⟩ ⟨true, none, none, fun _ => none, none⟩, .close, .call none,
    .call none, .call none, .read none]

theorem ProcState.fresh_init : Proc.system.init ProcState.fresh := by
  refine ⟨fun std => by cases std <;> decide, fun fd d id hfd hd => ?_, rfl, rfl, rfl, rfl⟩
  simp only [FdTable.lookup, fresh, List.getElem?_map, Option.join_eq_some_iff,
    Option.map_eq_some_iff] at hfd
  obtain ⟨n, -, hn⟩ := hfd
  cases hn
  simp at hd

/-- The program exits, and what is reported is right. -/
theorem reports_exited : ∃ s, Proc.system.run ProcState.fresh
    (spawnPlain ++ [.exit 7, .wait none]) = some s ∧ s.Complete ∧
      (s.Reports ↔ Proc.system.Along ProcState.Benign ProcState.fresh
        (spawnPlain ++ [.exit 7, .wait none])) := by
  have hread : ∀ a ∈ spawnPlain ++ [.exit 7, .wait none], a.Uninterrupted := by
    simp [spawnPlain, ProcAct.Uninterrupted]
  exact ⟨_, rfl, trivial, (reports_iff ProcState.fresh_init hread rfl).2 trivial⟩

/-- The program is killed by signal 9.  `yo_proc_wait` stores -1 and 9, as if it had called
`exit(9)`. -/
theorem not_reports_killed : ∃ s, Proc.system.init ProcState.fresh ∧
    Proc.system.run ProcState.fresh (spawnPlain ++ [.kill 9 false, .wait none]) = some s ∧
      s.Complete ∧ s.pc = .waited .ok (some (Ending.exited 9).report) ∧ ¬ s.Reports := by
  refine ⟨_, ProcState.fresh_init, rfl, trivial, rfl, ?_⟩
  rintro ⟨-, -, how, hhow, hout⟩
  cases hhow
  revert hout
  decide

end Yaooi
