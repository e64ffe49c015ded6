import Mathlib.Data.Fintype.Card
import Mathlib.Data.Fintype.Basic
import Yaooi.Lib.Owner
import Yaooi.Unix.Outcome

/-!
# The children of a process

`yo_proc_spawn` from `fork` on, `yo_proc_wait` and `yo_proc_disown` of `src/unix/impl.c`, over the
kernel's table of processes: one thread spawns, any number of threads wait.  A process that has
ended stays in the table until it is waited for, and `fork` takes a number that is not in the table.

* `Children.system`: any number of children, and `Children.record`: what is done about them.
* `Children.waits_told`: what `yo_proc_wait` stores is how the handle's own child has ended.
* `Children.disowned_stay`: nothing removes a child that was disowned, so its number is lost.
-/

namespace Yaooi

open Transition Owner Function

/-! ## The table and the handles -/

/-- `yo_proc_t` -/
abbrev YoProcT := Ptr

/-- A child in the kernel's table: which one, counted from the first `fork`, and how it has ended,
once it has. -/
structure TableEntry where
  child : ℕ
  ending : Option Ending

/-- `struct yo_proc`, and what the code does not write down: which child it was made for, and
whether a thread is in `yo_proc_wait` with it. -/
structure YoProc (π : Type*) where
  pid : π
  child : ℕ
  waited : Bool

/-- Where the thread that spawns stands. -/
inductive SpawnPc (π : Type*) where
  | idle
  /-- It reads from the status pipe of this child. -/
  | reading (res : YoProcT) (pid : π) (child : ℕ)
  /-- At `err_read_status`, with this `errno`. -/
  | reaping (pid : π) (child : ℕ) (err : Errno)

/-- The kernel's table, the handles, and the thread that spawns. -/
structure Children (π : Type*) where
  table : π → Option TableEntry
  proc : YoProcT → Option (YoProc π)
  spawning : SpawnPc π
  forks : ℕ

/-- A step of a thread or of a child. -/
inductive ChildrenAct (π : Type*) where
  /-- `yo_proc_spawn` up to `fork`, `malloc` answering `res` and `fork` answering `pid`. -/
  | fork (res : YoProcT) (pid : π)
  /-- The status pipe comes to its end, or gives an error number, or `read` fails. -/
  | read (err : Option Errno)
  /-- `waitpid` at `err_read_status`. -/
  | reap (interrupted : Bool)
  /-- The child ends. -/
  | exit (pid : π) (how : Ending)
  /-- A thread calls `yo_proc_wait`. -/
  | wait (p : YoProcT)
  /-- Its `waitpid` returns. -/
  | waited (p : YoProcT) (interrupted : Bool)
  /-- `yo_proc_disown` -/
  | disown (p : YoProcT)

/-- What is done about a child, or by it. -/
inductive ChildEvent (π : Type*) where
  | forked (c : ℕ)
  | ended (c : ℕ) (how : Ending)
  /-- `yo_proc_spawn` has returned `YO_OK`. -/
  | spawned (c : ℕ)
  /-- It has returned an error, and the child was waited for before. -/
  | refused (c : ℕ) (code : YoCode)
  /-- It has returned an error, and the wait for the child was interrupted. -/
  | abandoned (c : ℕ) (pid : π) (code : YoCode)
  /-- `yo_proc_wait` has returned `YO_OK`, and stored this. -/
  | waited (c : ℕ) (out : ℤ × ℤ)
  /-- It has returned an error. -/
  | failed (c : ℕ) (code : YoCode)
  | disowned (c : ℕ) (pid : π)

namespace ChildEvent

variable {π : Type*}

/-- How the child `c` has ended. -/
def ending (c : ℕ) : ChildEvent π → Option Ending
  | .ended d how => if d = c then some how else none
  | .forked _ | .spawned _ | .refused .. | .abandoned .. | .waited .. | .failed .. | .disowned .. =>
    none

/-- The program is done with the child `c`. -/
def releases (c : ℕ) : ChildEvent π → Bool
  | .refused d _ | .abandoned d _ _ | .waited d _ | .disowned d _ => d = c
  | .forked _ | .ended .. | .spawned _ | .failed .. => false

/-- A child has been waited for. -/
def reaps : ChildEvent π → Bool
  | .refused .. | .waited .. => true
  | .forked _ | .ended .. | .spawned _ | .abandoned .. | .failed .. | .disowned .. => false

/-- Nobody waits for this child any more. -/
def leaves (pid : π) (c : ℕ) : ChildEvent π → Prop
  | .abandoned d p _ | .disowned d p => d = c ∧ p = pid
  | .forked _ | .ended .. | .spawned _ | .refused .. | .waited .. | .failed .. => False

/-- The number of a child for which nobody waits any more. -/
def left : ChildEvent π → Option π
  | .abandoned _ pid _ | .disowned _ pid => some pid
  | .forked _ | .ended .. | .spawned _ | .refused .. | .waited .. | .failed .. => none

theorem exists_leaves {e : ChildEvent π} {pid : π} (h : e.left = some pid) :
    ∃ c, e.leaves pid c := by
  cases e with
  | abandoned c pid' code => exact ⟨c, rfl, Option.some.inj h⟩
  | disowned c pid' => exact ⟨c, rfl, Option.some.inj h⟩
  | forked _ => cases h
  | ended _ _ => cases h
  | spawned _ => cases h
  | refused _ _ => cases h
  | waited _ _ => cases h
  | failed _ _ => cases h

end ChildEvent

namespace Children

variable {π : Type*} [DecidableEq π]

/-- `waitpid` without options, unless it blocks: how the process has ended, and the table after
that. -/
def waitpid (table : π → Option TableEntry) (pid : π) (interrupted : Bool) :
    Option (Except Errno Ending × (π → Option TableEntry)) :=
  if interrupted then some (.error .eintr, table)
  else
    match table pid with
    | none => some (.error .echild, table)
    | some ⟨_, none⟩ => none
    | some ⟨_, some how⟩ => some (.ok how, update table pid none)

/-- `waitpid` at `err_read_status`.  Its answer is not looked at, but where it fails `errno` is its
own, and no longer what went wrong with the child. -/
def reap (s : Children π) (interrupted : Bool) : Option (Children π × List (ChildEvent π)) :=
  match s.spawning with
  | .reaping pid c err => (waitpid s.table pid interrupted).map fun
    | (.error e, table) =>
      ({ s with table := table, spawning := .idle }, [.abandoned c pid (yoiUnixConvErrno e)])
    | (.ok _, table) =>
      ({ s with table := table, spawning := .idle }, [.refused c (yoiUnixConvErrno err)])
  | .idle | .reading .. => none

/-- `yo_proc_wait`, as its `waitpid` returns. -/
def endWait (s : Children π) (p : YoProcT) (interrupted : Bool) :
    Option (Children π × List (ChildEvent π)) :=
  match s.proc p with
  | some ⟨pid, c, true⟩ => (waitpid s.table pid interrupted).map fun
    | (.error e, table) =>
      ({ s with table := table, proc := update s.proc p (some ⟨pid, c, false⟩) },
        [.failed c (yoiUnixConvErrno e)])
    | (.ok how, table) =>
      ({ s with table := table, proc := update s.proc p none },
        [.waited c (procWaitStore how.status)])
  | some ⟨_, _, false⟩ | none => none

/-- A step, and what it does.  A handle is not used any more once it was given to
`yo_proc_disown` or waited for, and given to one of them at a time. -/
def exec (s : Children π) : ChildrenAct π → Option (Children π × List (ChildEvent π))
  | .fork res pid =>
    match s.spawning with
    | .idle =>
      if s.proc res = none ∧ s.table pid = none then
        some ({ s with
          table := update s.table pid (some ⟨s.forks, none⟩)
          spawning := .reading res pid s.forks
          forks := s.forks + 1 }, [.forked s.forks])
      else none
    | .reading .. | .reaping .. => none
  | .read err =>
    match s.spawning with
    | .reading res pid c =>
      match err with
      | none => some ({ s with
          proc := update s.proc res (some ⟨pid, c, false⟩), spawning := .idle },
        [.spawned c])
      | some e => some ({ s with spawning := .reaping pid c e }, [])
    | .idle | .reaping .. => none
  | .reap interrupted => s.reap interrupted
  | .exit pid how =>
    match s.table pid with
    | some ⟨c, none⟩ =>
      some ({ s with table := update s.table pid (some ⟨c, some how⟩) }, [.ended c how])
    | some ⟨_, some _⟩ | none => none
  | .wait p =>
    match s.proc p with
    | some ⟨pid, c, false⟩ =>
      some ({ s with proc := update s.proc p (some ⟨pid, c, true⟩) }, [])
    | some ⟨_, _, true⟩ | none => none
  | .waited p interrupted => s.endWait p interrupted
  | .disown p =>
    match s.proc p with
    | some ⟨pid, c, false⟩ =>
      some ({ s with proc := update s.proc p none }, [.disowned c pid])
    | some ⟨_, _, true⟩ | none => none

/-- The runs of a program that has no child yet. -/
def system : System (Children π) (ChildrenAct π) where
  init s := (∀ pid, s.table pid = none) ∧ (∀ p, s.proc p = none) ∧ s.spawning = .idle ∧ s.forks = 0
  step s a := (s.exec a).map Prod.fst

/-- What a step does about the children. -/
def record (s : Children π) (a : ChildrenAct π) (_ : Children π) : List (ChildEvent π) :=
  ((s.exec a).map Prod.snd).getD []

variable {s t : Children π} {a : ChildrenAct π} {log new : List (ChildEvent π)}

/-! ## Everything a step can be -/

/-- The steps, with what each does. -/
inductive Step (s : Children π) : ChildrenAct π → Children π → List (ChildEvent π) → Prop
  | fork {res : YoProcT} {pid : π} (hpc : s.spawning = .idle) (hres : s.proc res = none)
      (hpid : s.table pid = none) :
      Step s (.fork res pid)
        { s with
          table := update s.table pid (some ⟨s.forks, none⟩)
          spawning := .reading res pid s.forks
          forks := s.forks + 1 } [.forked s.forks]
  | spawned {res : YoProcT} {pid : π} {c : ℕ} (hpc : s.spawning = .reading res pid c) :
      Step s (.read none)
        { s with proc := update s.proc res (some ⟨pid, c, false⟩), spawning := .idle }
        [.spawned c]
  | told {res : YoProcT} {pid : π} {c : ℕ} {e : Errno} (hpc : s.spawning = .reading res pid c) :
      Step s (.read (some e)) { s with spawning := .reaping pid c e } []
  | reaped {pid : π} {c d : ℕ} {err : Errno} {how : Ending} (hpc : s.spawning = .reaping pid c err)
      (hentry : s.table pid = some ⟨d, some how⟩) :
      Step s (.reap false) { s with table := update s.table pid none, spawning := .idle }
        [.refused c (yoiUnixConvErrno err)]
  | left {pid : π} {c : ℕ} {err : Errno} {interrupted : Bool} {code : YoCode}
      (hpc : s.spawning = .reaping pid c err)
      (hwhy : code = .ecanceled ∨ s.table pid = none) :
      Step s (.reap interrupted) { s with spawning := .idle } [.abandoned c pid code]
  | exit {pid : π} {c : ℕ} {how : Ending} (hentry : s.table pid = some ⟨c, none⟩) :
      Step s (.exit pid how)
        { s with table := update s.table pid (some ⟨c, some how⟩) } [.ended c how]
  | wait {p : YoProcT} {pid : π} {c : ℕ} (hp : s.proc p = some ⟨pid, c, false⟩) :
      Step s (.wait p) { s with proc := update s.proc p (some ⟨pid, c, true⟩) } []
  | waited {p : YoProcT} {pid : π} {c d : ℕ} {how : Ending} (hp : s.proc p = some ⟨pid, c, true⟩)
      (hentry : s.table pid = some ⟨d, some how⟩) :
      Step s (.waited p false)
        { s with
          table := update s.table pid none
          proc := update s.proc p none }
        [.waited c (procWaitStore how.status)]
  | interrupted {p : YoProcT} {pid : π} {c : ℕ} (hp : s.proc p = some ⟨pid, c, true⟩) :
      Step s (.waited p true)
        { s with proc := update s.proc p (some ⟨pid, c, false⟩) } [.failed c .ecanceled]
  | lost {p : YoProcT} {pid : π} {c : ℕ} (hp : s.proc p = some ⟨pid, c, true⟩)
      (hentry : s.table pid = none) :
      Step s (.waited p false)
        { s with proc := update s.proc p (some ⟨pid, c, false⟩) } [.failed c .eunknown]
  | disown {p : YoProcT} {pid : π} {c : ℕ} (hp : s.proc p = some ⟨pid, c, false⟩) :
      Step s (.disown p) { s with proc := update s.proc p none } [.disowned c pid]

/-- What `waitpid` can answer. -/
theorem waitpid_cases {table table' : π → Option TableEntry} {pid : π} {interrupted : Bool}
    {ans : Except Errno Ending} (h : waitpid table pid interrupted = some (ans, table')) :
    (∃ c how, interrupted = false ∧ table pid = some ⟨c, some how⟩ ∧ ans = .ok how ∧
        table' = update table pid none) ∨
      (interrupted = true ∧ ans = .error .eintr ∧ table' = table) ∨
        (interrupted = false ∧ table pid = none ∧ ans = .error .echild ∧ table' = table) := by
  unfold waitpid at h
  cases interrupted with
  | true =>
    obtain ⟨rfl, rfl⟩ := Prod.mk.inj (Option.some.inj h)
    exact .inr (.inl ⟨rfl, rfl, rfl⟩)
  | false =>
    rw [if_neg Bool.false_ne_true] at h
    split at h
    · rename_i hnone
      obtain ⟨rfl, rfl⟩ := Prod.mk.inj (Option.some.inj h)
      exact .inr (.inr ⟨rfl, hnone, rfl, rfl⟩)
    · cases h
    · rename_i c how hentry
      obtain ⟨rfl, rfl⟩ := Prod.mk.inj (Option.some.inj h)
      exact .inl ⟨c, how, rfl, hentry, rfl, rfl⟩

theorem step_of_exec (h : s.exec a = some (t, new)) : Step s a t new := by
  cases a with
  | fork res pid =>
    simp only [exec] at h
    split at h
    · rename_i hpc
      split at h
      · rename_i hok
        cases h
        exact .fork hpc hok.1 hok.2
      · cases h
    · cases h
    · cases h
  | read err =>
    simp only [exec] at h
    split at h
    · rename_i res pid c hpc
      split at h <;> cases h
      · exact .spawned hpc
      · exact .told hpc
    · cases h
    · cases h
  | reap interrupted =>
    simp only [exec, reap] at h
    split at h
    · rename_i pid c err hpc
      obtain ⟨⟨ans, table⟩, hwait, heq⟩ := Option.map_eq_some_iff.mp h
      rcases waitpid_cases hwait with ⟨d, how, rfl, hentry, rfl, rfl⟩ | ⟨rfl, rfl, rfl⟩ |
        ⟨rfl, hnone, rfl, rfl⟩ <;> cases heq
      · exact .reaped hpc hentry
      · exact .left hpc (.inl rfl)
      · exact .left hpc (.inr hnone)
    · cases h
    · cases h
  | exit pid how =>
    simp only [exec] at h
    split at h <;> cases h
    rename_i c hentry
    exact .exit hentry
  | wait p =>
    simp only [exec] at h
    split at h <;> cases h
    rename_i pid c hp
    exact .wait hp
  | waited p interrupted =>
    simp only [exec, endWait] at h
    split at h
    · rename_i pid c hp
      obtain ⟨⟨ans, table⟩, hwait, heq⟩ := Option.map_eq_some_iff.mp h
      rcases waitpid_cases hwait with ⟨d, how, rfl, hentry, rfl, rfl⟩ | ⟨rfl, rfl, rfl⟩ |
        ⟨rfl, hnone, rfl, rfl⟩ <;> cases heq
      · exact .waited hp hentry
      · exact .interrupted hp
      · exact .lost hp hnone
    · cases h
    · cases h
  | disown p =>
    simp only [exec] at h
    split at h <;> cases h
    rename_i pid c hp
    exact .disown hp

/-- Everything a step can be, and what it adds to the log. -/
theorem step_cases (h : system.step s a = some t) : Step s a t (s.record a t) := by
  obtain ⟨⟨u, new⟩, hexec, rfl⟩ := Option.map_eq_some_iff.mp h
  have hrecord : s.record a u = new := by
    rw [record, hexec]
    rfl
  rw [hrecord]
  exact step_of_exec hexec

/-! ## Whose the children are -/

/-- Who has a child: the thread that spawns it, the handle made for it, or nobody any more. -/
inductive Holder where
  | spawner
  | handle (p : YoProcT)
  | nobody

/-- This one has the child `x.2`, with the number `x.1`. -/
def Has (s : Children π) (log : List (ChildEvent π)) : Holder → π × ℕ → Prop
  | .spawner, x =>
    match s.spawning with
    | .idle => False
    | .reading _ pid c | .reaping pid c _ => x = (pid, c)
  | .handle p, x => ∃ b, s.proc p = some ⟨x.1, x.2, b⟩
  | .nobody, x => ∃ e ∈ log, e.leaves x.1 x.2

/-- Every child in the table has one holder, and everybody's children are in the table. -/
structure Placed (s : Children π) (log : List (ChildEvent π)) : Prop where
  owned : Owned Prod.fst (fun x e => e.child = x.2) s.table (Has s log)
  fresh : ∀ res pid c, s.spawning = .reading res pid c → s.proc res = none
  inj : ∀ pid pid' e e', s.table pid = some e → s.table pid' = some e' → e.child = e'.child →
    pid = pid'
  known : ∀ pid e, s.table pid = some e → e.child < s.forks

omit [DecidableEq π] in
/-- No two holders have the same child. -/
theorem Placed.child_ne {o o' : Holder} {x y : π × ℕ} (h : Placed s log) (hx : Has s log o x)
    (hy : Has s log o' y) (hne : o ≠ o') : x.2 ≠ y.2 := by
  intro heq
  obtain ⟨e, he, hex⟩ := h.owned.block o x hx
  obtain ⟨e', he', hey⟩ := h.owned.block o' y hy
  exact hne (h.owned.unique o o' x y hx hy (h.inj _ _ e e' he he' (by rw [hex, hey, heq])))

omit [DecidableEq π] in
/-- A thread enters or leaves `yo_proc_wait`, and nothing comes of it. -/
theorem Placed.mark {p : YoProcT} {pid : π} {c : ℕ} {b b' : Bool} (h : Placed s log)
    (hp : s.proc p = some ⟨pid, c, b⟩) (hnew : ∀ e ∈ new, ∀ pid c, ¬ e.leaves pid c) :
    Placed { s with proc := update s.proc p (some ⟨pid, c, b'⟩) } (log ++ new) := by
  refine ⟨h.owned.congr fun o y => ?_, fun res pid' c' hpc => ?_, h.inj, h.known⟩
  · cases o with
    | spawner => rfl
    | handle p' =>
      by_cases hne : p' = p
      · subst hne
        obtain ⟨pid', c'⟩ := y
        simp [Has, hp]
      · simp [Has, hne]
    | nobody =>
      simp only [Has, List.mem_append]
      constructor
      · rintro ⟨e, he | he, hl⟩
        · exact ⟨e, he, hl⟩
        · exact absurd hl (hnew e he _ _)
      · exact fun ⟨e, he, hl⟩ => ⟨e, .inl he, hl⟩
  · have hfresh := h.fresh res pid' c' hpc
    have hne : res ≠ p := by
      rintro rfl
      rw [hp] at hfresh
      cases hfresh
    show update s.proc p _ res = none
    rw [update_of_ne hne, hfresh]

theorem Placed.step (h : Placed s log) (hst : Step s a t new) : Placed t (log ++ new) := by
  have hknown := h.known
  have hinj := h.inj
  have hfresh := h.fresh
  cases hst with
  | @fork res pid hpc hres hpid =>
    refine ⟨h.owned.gain (a := .spawner) (x := (pid, s.forks)) hpid rfl fun o y => ?_, ?_, ?_, ?_⟩
    · cases o <;> simp [Has, hpc, ChildEvent.leaves]
    · grind
    · grind [update_apply]
    · grind [update_apply]
  | @spawned res pid c hpc =>
    have hnone := hfresh res pid c hpc
    refine ⟨h.owned.pass (a := .spawner) (b := .handle res) (x := (pid, c)) (by simp [Has, hpc])
      (fun y hy => by simpa [Has, hpc] using hy) fun o y => ?_, by simp, hinj, hknown⟩
    cases o with
    | spawner => simp [Has]
    | handle p =>
      by_cases hp : p = res
      · subst hp
        obtain ⟨pid', c'⟩ := y
        simp [Has, hnone, eq_comm]
      · simp [Has, hp]
    | nobody => simp [Has, ChildEvent.leaves]
  | told hpc =>
    refine ⟨h.owned.congr fun o y => ?_, by simp, hinj, hknown⟩
    cases o <;> simp [Has, hpc]
  | @reaped pid c d err how hpc hentry =>
    refine ⟨h.owned.lose (a := .spawner) (x := (pid, c)) (by simp [Has, hpc])
      (fun y hy => by simpa [Has, hpc] using hy) fun o y => ?_, by simp, ?_, ?_⟩
    · cases o <;> simp [Has, ChildEvent.leaves]
    · grind [update_apply]
    · grind [update_apply]
  | @left pid c err interrupted code hpc hwhy =>
    refine ⟨h.owned.pass (a := .spawner) (b := .nobody) (x := (pid, c)) (by simp [Has, hpc])
      (fun y hy => by simpa [Has, hpc] using hy) fun o y => ?_, by simp, hinj, hknown⟩
    obtain ⟨pid', c'⟩ := y
    cases o <;> simp [Has, ChildEvent.leaves, or_and_right, exists_or, eq_comm, and_comm]
  | @exit pid c how hentry =>
    have howned : Owned Prod.fst (fun x e => e.child = x.2)
        (update s.table pid (some ⟨c, some how⟩)) (Has s log) :=
      h.owned.write hentry fun y hy hok => hok
    refine ⟨howned.congr fun o y => ?_, hfresh, ?_, ?_⟩
    · cases o <;> simp [Has, ChildEvent.leaves]
    · grind [update_apply]
    · grind [update_apply]
  | wait hp => exact h.mark hp (by simp)
  | @waited p pid c d how hp hentry =>
    have hhas : Has s log (.handle p) (pid, c) := ⟨true, hp⟩
    refine ⟨h.owned.lose hhas (fun y hy => ?_) fun o y => ?_, fun res pid' c' hpc => ?_, ?_, ?_⟩
    · obtain ⟨pid', c'⟩ := y
      simpa [Has, hp, eq_comm] using hy
    · cases o with
      | spawner => simp [Has]
      | handle p' =>
        by_cases hne : p' = p
        · simp [Has, hne]
        · simp [Has, hne]
      | nobody => simp [Has, ChildEvent.leaves]
    · grind [update_apply]
    · grind [update_apply]
    · grind [update_apply]
  | interrupted hp => exact h.mark hp (by simp [ChildEvent.leaves])
  | lost hp hentry => exact h.mark hp (by simp [ChildEvent.leaves])
  | @disown p pid c hp =>
    have hhas : Has s log (.handle p) (pid, c) := ⟨false, hp⟩
    refine ⟨h.owned.pass (b := .nobody) hhas (fun y hy => ?_) fun o y => ?_,
      fun res pid' c' hpc => ?_, hinj, hknown⟩
    · obtain ⟨pid', c'⟩ := y
      simpa [Has, hp, eq_comm] using hy
    · obtain ⟨pid', c'⟩ := y
      cases o with
      | spawner => simp [Has]
      | handle p' =>
        by_cases hne : p' = p
        · simp [Has, hne]
        · simp [Has, hne]
      | nobody => simp [Has, ChildEvent.leaves, or_and_right, exists_or, eq_comm, and_comm]
    · grind [update_apply]

/-! ## What the log says -/

/-- The endings of the child `c` that the log tells of. -/
def endings (c : ℕ) (log : List (ChildEvent π)) : List Ending := log.filterMap (·.ending c)

/-- How often the program was done with the child `c`. -/
def releases (c : ℕ) (log : List (ChildEvent π)) : ℕ := log.countP (·.releases c)

/-- What is still in a table from which one entry was taken was in it before. -/
theorem some_of_update_none {table : π → Option TableEntry} {pid pid' : π} {e : TableEntry}
    (h : update table pid none pid' = some e) : table pid' = some e := by
  rw [update_apply] at h
  split at h
  · cases h
  · exact h

omit [DecidableEq π] in
theorem endings_append (c : ℕ) : endings c (log ++ new) = endings c log ++ endings c new :=
  List.filterMap_append ..

omit [DecidableEq π] in
theorem releases_append (c : ℕ) : releases c (log ++ new) = releases c log + releases c new :=
  List.countP_append ..

/-- The log says of a child in the table whether and how it has ended, and of a child that somebody
has that the program is not done with it. -/
structure Told (s : Children π) (log : List (ChildEvent π)) : Prop where
  unborn : ∀ c, s.forks ≤ c → endings c log = [] ∧ releases c log = 0
  ending : ∀ pid e, s.table pid = some e → endings e.child log = e.ending.toList
  once : ∀ c, (endings c log).length ≤ 1 ∧ releases c log ≤ 1
  held : ∀ o x, o ≠ .nobody → Has s log o x → releases x.2 log = 0

omit [DecidableEq π] in
/-- No child ends, and the program is done with the child of one holder at most. -/
theorem Told.release (h : Told s log) (hforks : t.forks = s.forks)
    (htable : ∀ pid e, t.table pid = some e → s.table pid = some e)
    (hends : ∀ c, endings c new = [])
    (honce : ∀ c, releases c new = 0 ∨ releases c new = 1 ∧ releases c log = 0 ∧ c < s.forks)
    (hheld : ∀ o x, o ≠ .nobody → Has t (log ++ new) o x → releases x.2 new = 0 ∧
      ∃ o', o' ≠ .nobody ∧ Has s log o' x) : Told t (log ++ new) where
  unborn c hc := by
    rw [hforks] at hc
    obtain ⟨hend, hrel⟩ := h.unborn c hc
    rw [endings_append, releases_append, hend, hrel, hends]
    rcases honce c with h0 | ⟨-, -, hlt⟩
    · exact ⟨rfl, by rw [h0]⟩
    · omega
  ending pid e he := by
    rw [endings_append, hends, List.append_nil]
    exact h.ending pid e (htable pid e he)
  once c := by
    have hc := h.once c
    rw [endings_append, releases_append, hends, List.append_nil]
    rcases honce c with h0 | ⟨h1, h0, -⟩
    · exact ⟨hc.1, by omega⟩
    · exact ⟨hc.1, by omega⟩
  held o x ho hx := by
    obtain ⟨hnew, o', ho', hx'⟩ := hheld o x ho hx
    rw [releases_append, hnew, h.held o' x ho' hx']

omit [DecidableEq π] in
/-- The steps at whose end the program is done with a child: the holder `a` has it no more, and the
others have what they had. -/
theorem Told.release_one {a : Holder} {pid : π} {c : ℕ} (h : Told s log) (hs : Placed s log)
    (ha : a ≠ .nobody) (hhas : Has s log a (pid, c)) (hforks : t.forks = s.forks)
    (htable : ∀ pid e, t.table pid = some e → s.table pid = some e)
    (hends : ∀ d, endings d new = []) (hone : ∀ d, releases d new = if c = d then 1 else 0)
    (hkept : ∀ o x, o ≠ .nobody → Has t (log ++ new) o x → o ≠ a ∧ Has s log o x) :
    Told t (log ++ new) := by
  obtain ⟨e, he, hec⟩ := hs.owned.block a _ hhas
  have hlt : c < s.forks := by
    have hlt := hs.known _ _ he
    rwa [hec] at hlt
  refine h.release hforks htable hends (fun d => ?_) fun o x ho hx => ?_
  · rw [hone]
    split
    · rename_i heq
      exact .inr ⟨rfl, heq ▸ h.held a _ ha hhas, heq ▸ hlt⟩
    · exact .inl rfl
  · obtain ⟨hne, hx'⟩ := hkept o x ho hx
    rw [hone, if_neg fun heq => hs.child_ne hx' hhas hne heq.symm]
    exact ⟨rfl, o, ho, hx'⟩

omit [DecidableEq π] in
/-- The steps that are no news of a child's end or release. -/
theorem Told.quiet (h : Told s log) (hforks : t.forks = s.forks) (htable : t.table = s.table)
    (hends : ∀ c, endings c new = []) (hnone : ∀ c, releases c new = 0)
    (hkept : ∀ o x, o ≠ .nobody → Has t (log ++ new) o x → ∃ o', o' ≠ .nobody ∧ Has s log o' x) :
    Told t (log ++ new) :=
  h.release hforks (fun _ _ he => htable ▸ he) hends (fun c => .inl (hnone c))
    fun o x ho hx => ⟨hnone x.2, hkept o x ho hx⟩

omit [DecidableEq π] in
/-- Whom a holder has says nothing of the log. -/
theorem Has.of_eq {o : Holder} {x : π × ℕ} {log' : List (ChildEvent π)} (ho : o ≠ .nobody)
    (h : Has s log o x) : Has s log' o x := by
  cases o with
  | nobody => exact absurd rfl ho
  | spawner => exact h
  | handle p => exact h

omit [DecidableEq π] in
/-- A thread enters or leaves `yo_proc_wait`, and nothing comes of it. -/
theorem Told.mark {p : YoProcT} {pid : π} {c : ℕ} {b b' : Bool} (h : Told s log)
    (hp : s.proc p = some ⟨pid, c, b⟩) (hends : ∀ c, endings c new = [])
    (hnone : ∀ c, releases c new = 0) :
    Told { s with proc := update s.proc p (some ⟨pid, c, b'⟩) } (log ++ new) := by
  refine h.quiet rfl rfl hends hnone fun o x ho hx => ⟨o, ho, ?_⟩
  cases o with
  | nobody => exact absurd rfl ho
  | spawner => exact hx
  | handle p' =>
    by_cases hne : p' = p
    · subst hne
      obtain ⟨b₁, hx⟩ := hx
      replace hx : update s.proc p' (some ⟨pid, c, b'⟩) p' = some ⟨x.1, x.2, b₁⟩ := hx
      rw [update_self] at hx
      obtain ⟨hpid, hc, -⟩ := YoProc.mk.inj (Option.some.inj hx)
      exact ⟨b, by rw [hp, hpid, hc]⟩
    · obtain ⟨b₁, hx⟩ := hx
      exact ⟨b₁, (update_of_ne hne ..).symm.trans hx⟩

theorem Told.step (h : Told s log) (hs : Placed s log) (hst : Step s a t new) :
    Told t (log ++ new) := by
  cases hst with
  | @fork res pid hpc hres hpid =>
    have hnew := h.unborn s.forks le_rfl
    have hne : ∀ o x, o ≠ .nobody → Has s log o x → x.2 ≠ s.forks := by
      intro o x _ hx
      obtain ⟨e, he, hec⟩ := hs.owned.block o x hx
      exact hec ▸ (hs.known _ _ he).ne
    constructor
    · intro c hc
      obtain ⟨hend, hrel⟩ := h.unborn c (Nat.le_of_succ_le hc)
      rw [endings_append, releases_append, hend, hrel]
      exact ⟨rfl, rfl⟩
    · intro pid' e he
      rw [endings_append]
      replace he : update s.table pid _ pid' = some e := he
      rw [update_apply] at he
      split at he
      · cases he
        rw [hnew.1]
        rfl
      · rw [h.ending pid' e he]
        exact List.append_nil _
    · intro c
      rw [endings_append, releases_append]
      simpa [endings, releases, ChildEvent.ending, ChildEvent.releases] using h.once c
    · intro o x ho hx
      rw [releases_append]
      show releases x.2 log + 0 = 0
      cases o with
      | nobody => exact absurd rfl ho
      | spawner =>
        obtain rfl : x = (pid, s.forks) := hx
        exact hnew.2
      | handle p => exact h.held (.handle p) x ho hx
  | @spawned res pid c hpc =>
    refine h.quiet rfl rfl (fun c => rfl) (fun c => rfl) fun o x ho hx => ?_
    cases o with
    | nobody => exact absurd rfl ho
    | spawner => exact absurd hx (by simp [Has])
    | handle p =>
      obtain ⟨b, hx⟩ := hx
      by_cases hp : p = res
      · subst hp
        replace hx : update s.proc p (some ⟨pid, c, false⟩) p = some ⟨x.1, x.2, b⟩ := hx
        rw [update_self] at hx
        obtain ⟨hpid, hc, -⟩ := YoProc.mk.inj (Option.some.inj hx)
        refine ⟨.spawner, by simp, ?_⟩
        simp only [Has, hpc]
        rw [hpid, hc]
      · exact ⟨.handle p, by simp, b, (update_of_ne hp ..).symm.trans hx⟩
  | told hpc =>
    refine h.quiet rfl rfl (fun c => rfl) (fun c => rfl) fun o x ho hx => ⟨o, ho, ?_⟩
    cases o with
    | nobody => exact absurd rfl ho
    | spawner => simpa [Has, hpc] using hx
    | handle p => exact hx
  | @reaped pid c d err how hpc hentry =>
    have hhas : Has s log .spawner (pid, c) := by simp [Has, hpc]
    refine h.release_one hs (by simp) hhas rfl (fun pid' e he => ?_) (fun _ => rfl) (fun _ => ?_)
      fun o x ho hx => ?_
    · exact some_of_update_none he
    · simp [releases, ChildEvent.releases, List.countP_cons]
    · cases o with
      | nobody => exact absurd rfl ho
      | spawner => exact absurd hx (by simp [Has])
      | handle p => exact ⟨by simp, hx⟩
  | @left pid c err interrupted code hpc hwhy =>
    have hhas : Has s log .spawner (pid, c) := by simp [Has, hpc]
    refine h.release_one hs (by simp) hhas rfl (fun _ _ he => he) (fun _ => rfl) (fun _ => ?_)
      fun o x ho hx => ?_
    · simp [releases, ChildEvent.releases, List.countP_cons]
    · cases o with
      | nobody => exact absurd rfl ho
      | spawner => exact absurd hx (by simp [Has])
      | handle p => exact ⟨by simp, hx⟩
  | @exit pid c how hentry =>
    have hlt := hs.known pid _ hentry
    have hopen : endings c log = [] := h.ending pid _ hentry
    have hnew : ∀ d, endings d [ChildEvent.ended (π := π) c how] = if c = d then [how] else [] := by
      intro d
      by_cases hd : c = d <;> simp [endings, ChildEvent.ending, hd]
    constructor
    · intro d hd
      obtain ⟨hend, hrel⟩ := h.unborn d hd
      have hne : c ≠ d := (lt_of_lt_of_le hlt hd).ne
      rw [endings_append, releases_append, hend, hrel, hnew, if_neg hne]
      exact ⟨rfl, rfl⟩
    · intro pid' e he
      rw [endings_append, hnew]
      replace he : update s.table pid _ pid' = some e := he
      rw [update_apply] at he
      split at he
      · cases he
        rw [hopen, if_pos rfl]
        rfl
      · rename_i hpid
        have hne : c ≠ e.child := fun heq => hpid (hs.inj pid' pid e _ he hentry heq.symm)
        rw [if_neg hne, List.append_nil]
        exact h.ending pid' e he
    · intro d
      rw [endings_append, releases_append, hnew]
      have hd := h.once d
      split
      · rename_i heq
        subst heq
        rw [hopen]
        exact ⟨le_rfl, hd.2⟩
      · rw [List.append_nil]
        exact hd
    · intro o x ho hx
      rw [releases_append]
      exact h.held o x ho (hx.of_eq ho)
  | wait hp => exact h.mark hp (fun _ => rfl) fun _ => rfl
  | @waited p pid c d how hp hentry =>
    have hhas : Has s log (.handle p) (pid, c) := ⟨true, hp⟩
    refine h.release_one hs (by simp) hhas rfl (fun pid' e he => ?_) (fun _ => rfl) (fun _ => ?_)
      fun o x ho hx => ?_
    · exact some_of_update_none he
    · simp [releases, ChildEvent.releases, List.countP_cons]
    · cases o with
      | nobody => exact absurd rfl ho
      | spawner => exact ⟨by simp, hx⟩
      | handle p' =>
        obtain ⟨b, hx⟩ := hx
        have hne : p' ≠ p := by
          rintro rfl
          cases (update_self ..).symm.trans hx
        exact ⟨by simpa using hne, b, (update_of_ne hne ..).symm.trans hx⟩
  | interrupted hp => exact h.mark hp (fun _ => rfl) fun _ => rfl
  | lost hp hentry => exact h.mark hp (fun _ => rfl) fun _ => rfl
  | @disown p pid c hp =>
    have hhas : Has s log (.handle p) (pid, c) := ⟨false, hp⟩
    refine h.release_one hs (by simp) hhas rfl (fun _ _ he => he) (fun _ => rfl) (fun _ => ?_)
      fun o x ho hx => ?_
    · simp [releases, ChildEvent.releases, List.countP_cons]
    · cases o with
      | nobody => exact absurd rfl ho
      | spawner => exact ⟨by simp, hx⟩
      | handle p' =>
        obtain ⟨b, hx⟩ := hx
        have hne : p' ≠ p := by
          rintro rfl
          cases (update_self ..).symm.trans hx
        exact ⟨by simpa using hne, b, (update_of_ne hne ..).symm.trans hx⟩

/-- What `yo_proc_wait` has stored is how the child has ended, and all that ever fails is a
`waitpid` that a signal interrupts. -/
def Honest (log : List (ChildEvent π)) : ChildEvent π → Prop
  | .waited c out => ∃ how, endings c log = [how] ∧ out = procWaitStore how.status
  | .failed _ code | .abandoned _ _ code => code = .ecanceled
  | .forked _ | .ended .. | .spawned _ | .refused .. | .disowned .. => True

omit [DecidableEq π] in
/-- No child ends twice, so what is known of an end does not change. -/
theorem Honest.append {e : ChildEvent π} (h : Honest log e)
    (honce : ∀ c, (endings c (log ++ new)).length ≤ 1) : Honest (log ++ new) e := by
  cases e with
  | waited c out =>
    obtain ⟨how, hend, hout⟩ := h
    have hlen := honce c
    rw [endings_append, hend, List.length_append, List.length_singleton] at hlen
    have hnil : endings c new = [] := List.length_eq_zero_iff.mp (by omega)
    exact ⟨how, by rw [endings_append, hend, hnil]; rfl, hout⟩
  | failed _ _ => exact h
  | abandoned _ _ _ => exact h
  | forked _ => trivial
  | ended _ _ => trivial
  | spawned _ => trivial
  | refused _ _ => trivial
  | disowned _ _ => trivial

omit [DecidableEq π] in
/-- The child that somebody has is in the table. -/
theorem Placed.table_ne {o : Holder} {x : π × ℕ} (h : Placed s log) (hx : Has s log o x) :
    s.table x.1 ≠ none := by
  obtain ⟨e, he, -⟩ := h.owned.block o x hx
  rw [he]
  simp

theorem honest_step (h : Told s log) (hs : Placed s log) (hst : Step s a t new) :
    ∀ e ∈ new, Honest (log ++ new) e := by
  cases hst with
  | @left pid c err interrupted code hpc hwhy =>
    intro e he
    obtain rfl := List.mem_singleton.mp he
    have hhas : Has s log .spawner (pid, c) := by simp [Has, hpc]
    exact hwhy.resolve_right (hs.table_ne hhas)
  | @waited p pid c d how hp hentry =>
    intro e he
    obtain rfl := List.mem_singleton.mp he
    have hhas : Has s log (.handle p) (pid, c) := ⟨true, hp⟩
    obtain ⟨e, he, hec⟩ := hs.owned.block _ _ hhas
    obtain rfl : e = ⟨d, some how⟩ := Option.some.inj (he.symm.trans hentry)
    obtain rfl : d = c := hec
    refine ⟨how, ?_, rfl⟩
    rw [endings_append, h.ending pid _ hentry]
    rfl
  | lost hp hentry =>
    have hhas : Has s log (.handle _) (_, _) := ⟨true, hp⟩
    exact absurd hentry (hs.table_ne hhas)
  | interrupted hp => simp [Honest]
  | fork hpc hres hpid => simp [Honest]
  | spawned hpc => simp [Honest]
  | told hpc => simp
  | reaped hpc hentry => simp [Honest]
  | exit hentry => simp [Honest]
  | wait hp => simp
  | disown hp => simp [Honest]

/-! ## Runs -/

theorem placed_told_init (h : system.init s) : Placed s [] ∧ Told s [] := by
  obtain ⟨htable, hproc, hspawn, -⟩ := h
  have hnone : ∀ o x, ¬ Has s [] o x := by
    intro o x
    cases o <;> simp [Has, hspawn, hproc]
  constructor
  · exact ⟨.empty htable hnone, by simp [hspawn], by simp [htable], by simp [htable]⟩
  · exact ⟨fun _ _ => ⟨rfl, rfl⟩, by simp [htable], fun _ => ⟨Nat.zero_le _, Nat.zero_le _⟩,
      fun o x _ hx => absurd hx (hnone o x)⟩

/-- In every run the children are where they should be, and the log tells the truth about them. -/
theorem placed_told_of_reach {s : Children π × List (ChildEvent π)}
    (h : (system.logged record).Reachable s) :
    Placed s.1 s.2 ∧ Told s.1 s.2 ∧ ∀ e ∈ s.2, Honest s.2 e := by
  refine h.invariant (P := fun s => Placed s.1 s.2 ∧ Told s.1 s.2 ∧ ∀ e ∈ s.2, Honest s.2 e)
    (fun s hinit => ?_) fun s a t _ ⟨hp, ht, hh⟩ _ hst => ?_
  · obtain ⟨s, log⟩ := s
    obtain ⟨hinit, rfl⟩ := hinit
    obtain ⟨hplaced, htold⟩ := placed_told_init hinit
    exact ⟨hplaced, htold, by simp⟩
  · obtain ⟨hst, hlog⟩ := System.logged_step.mp hst
    have hstep := step_cases hst
    rw [hlog]
    have htold := ht.step hp hstep
    refine ⟨hp.step hstep, htold, fun e he => ?_⟩
    rcases List.mem_append.mp he with he | he
    · exact (hh e he).append fun c => (htold.once c).1
    · exact honest_step ht hp hstep e he

/-- **Every wait is told of its own child.**  What `yo_proc_wait` stores is made from how the child
of its handle has ended, no child is waited for, disowned or given up more than once, and `waitpid`
never fails but by an interruption. -/
theorem waits_told (h : (system.logged record).Reachable (s, log)) :
    (∀ c out, .waited c out ∈ log → ∃ how, endings c log = [how] ∧ out = procWaitStore how.status) ∧
      (∀ c, (endings c log).length ≤ 1 ∧ releases c log ≤ 1) ∧
        ∀ c code, .failed c code ∈ log → code = .ecanceled := by
  obtain ⟨-, htold, hhonest⟩ := placed_told_of_reach h
  exact ⟨fun c out hc => hhonest _ hc, htold.once, fun c code hc => hhonest _ hc⟩

/-- A program without children. -/
def initial : Children π := ⟨fun _ => none, fun _ => none, .idle, 0⟩

/-- One child is waited for, after a first try that is interrupted; another one cannot execute its
program, and the wait for that is interrupted. -/
def interruptedTwice : List (ChildrenAct Bool) :=
  [.fork 0x10 true, .read none, .wait 0x10, .fork 0x20 false, .waited 0x10 true,
    .read (some .enoent), .exit true (.signalled 9 false), .wait 0x10, .reap true,
    .waited 0x10 false, .exit false (.exited 127)]

theorem waits_told_interruptedTwice : ∃ s log how,
    (system.logged record).run (initial, []) interruptedTwice = some (s, log) ∧
      endings 0 log = [how] ∧ (-1, 9) = procWaitStore how.status ∧ releases 1 log ≤ 1 := by
  have hend : ((system.logged record).run (initial, []) interruptedTwice).map Prod.snd =
      some [.forked 0, .spawned 0, .forked 1, .failed 0 .ecanceled, .ended 0 (.signalled 9 false),
        .abandoned 1 false .ecanceled, .waited 0 (-1, 9), .ended 1 (.exited 127)] := rfl
  obtain ⟨⟨s, log⟩, hrun, hlog⟩ := Option.map_eq_some_iff.mp hend
  have hinit : (system.logged record).init (initial (π := Bool), []) :=
    ⟨⟨fun _ => rfl, fun _ => rfl, rfl, rfl⟩, rfl⟩
  obtain ⟨hwaited, hreleased, -⟩ := waits_told (System.reachable_of_run hinit hrun)
  obtain ⟨how, hhow, hout⟩ := hwaited 0 (-1, 9) (by simp [show log = _ from hlog])
  exact ⟨s, log, how, hrun, hhow, hout, (hreleased 1).2⟩

/-! ## The numbers that are lost -/

/-- The numbers that are in use. -/
def entries [Fintype π] (table : π → Option TableEntry) : Finset π :=
  Finset.univ.filter fun pid => (table pid).isSome

theorem entries_update_some [Fintype π] (table : π → Option TableEntry) (pid : π) (e : TableEntry) :
    entries (update table pid (some e)) = insert pid (entries table) := by
  ext pid'
  by_cases h : pid' = pid <;> simp [entries, update_apply, h]

theorem entries_update_none [Fintype π] (table : π → Option TableEntry) (pid : π) :
    entries (update table pid none) = (entries table).erase pid := by
  ext pid'
  by_cases h : pid' = pid <;> simp [entries, update_apply, h]

/-- Every child that was ever made has a number still, unless it was waited for. -/
theorem forks_step [Fintype π] (hst : Step s a t new)
    (h : s.forks = (entries s.table).card + log.countP (·.reaps)) :
    t.forks = (entries t.table).card + (log ++ new).countP (·.reaps) := by
  have hmem : ∀ {pid e}, s.table pid = some e → pid ∈ entries s.table := by
    intro pid e he
    simp [entries, he]
  rw [List.countP_append]
  cases hst with
  | @fork res pid hpc hres hpid =>
    have hnot : pid ∉ entries s.table := by simp [entries, hpid]
    show s.forks + 1 = (entries (update s.table pid _)).card + (_ + 0)
    rw [entries_update_some, Finset.card_insert_of_notMem hnot, h]
    omega
  | @exit pid c how hentry =>
    show s.forks = (entries (update s.table pid _)).card + (_ + 0)
    rw [entries_update_some, Finset.insert_eq_of_mem (hmem hentry), h, Nat.add_zero]
  | @reaped pid c d err how hpc hentry =>
    have hpos := Finset.card_pos.mpr ⟨pid, hmem hentry⟩
    show s.forks = (entries (update s.table pid none)).card + (_ + 1)
    rw [entries_update_none, Finset.card_erase_of_mem (hmem hentry), h]
    omega
  | @waited p pid c d how hp hentry =>
    have hpos := Finset.card_pos.mpr ⟨pid, hmem hentry⟩
    show s.forks = (entries (update s.table pid none)).card + (_ + 1)
    rw [entries_update_none, Finset.card_erase_of_mem (hmem hentry), h]
    omega
  | spawned hpc => exact h
  | told hpc => exact h
  | left hpc hwhy => exact h
  | wait hp => exact h
  | interrupted hp => exact h
  | lost hp hentry => exact h
  | disown hp => exact h

/-- Nobody is given up twice under one number. -/
theorem left_nodup_step (hs : Placed s log) (hst : Step s a t new)
    (h : (log.filterMap (·.left)).Nodup) : ((log ++ new).filterMap (·.left)).Nodup := by
  have hnew : ∀ {o pid c}, o ≠ .nobody → Has s log o (pid, c) →
      (log.filterMap (·.left) ++ [pid]).Nodup := by
    intro o pid c ho hhas
    refine List.Nodup.append h (List.nodup_singleton _) fun pid' hmem heq => ho ?_
    obtain rfl := List.mem_singleton.mp heq
    obtain ⟨e, he, hleft⟩ := List.mem_filterMap.mp hmem
    obtain ⟨d, hd⟩ := ChildEvent.exists_leaves hleft
    exact hs.owned.unique o .nobody (pid', c) (pid', d) hhas ⟨e, he, hd⟩ rfl
  rw [List.filterMap_append]
  cases hst with
  | @left pid c err interrupted code hpc hwhy =>
    exact hnew (o := .spawner) (c := c) (by simp) (by simp [Has, hpc])
  | @disown p pid c hp =>
    exact hnew (o := .handle p) (c := c) (by simp) ⟨false, hp⟩
  | fork hpc hres hpid => simpa [ChildEvent.left] using h
  | spawned hpc => simpa [ChildEvent.left] using h
  | told hpc => simpa [ChildEvent.left] using h
  | reaped hpc hentry => simpa [ChildEvent.left] using h
  | exit hentry => simpa [ChildEvent.left] using h
  | wait hp => simpa [ChildEvent.left] using h
  | waited hp hentry => simpa [ChildEvent.left] using h
  | interrupted hp => simpa [ChildEvent.left] using h
  | lost hp hentry => simpa [ChildEvent.left] using h

/-- **What is disowned is lost.**  The child of a handle given to `yo_proc_disown`, and the child
that `yo_proc_spawn` was interrupted to wait for, keep their numbers for good: there are no more
of them than there are numbers, every child ever made has its number still unless it was waited for,
and where as many were given up as there are numbers `fork` is never possible again. -/
theorem disowned_stay [Fintype π] (h : (system.logged record).Reachable (s, log)) :
    (∀ e ∈ log, ∀ pid c, e.leaves pid c → ∃ o, s.table pid = some ⟨c, o⟩) ∧
      (log.filterMap (·.left)).length ≤ Fintype.card π ∧
        s.forks = (entries s.table).card + log.countP (·.reaps) ∧
          ((log.filterMap (·.left)).length = Fintype.card π →
            ∀ res pid, system.step s (.fork res pid) = none) := by
  obtain ⟨hplaced, -, -⟩ := placed_told_of_reach h
  have hstay : ∀ e ∈ log, ∀ pid c, e.leaves pid c → ∃ o, s.table pid = some ⟨c, o⟩ := by
    intro e he pid c hl
    obtain ⟨⟨d, o⟩, hentry, rfl⟩ := hplaced.owned.block .nobody (pid, c) ⟨e, he, hl⟩
    exact ⟨o, hentry⟩
  have hcount : (log.filterMap (·.left)).Nodup ∧
      s.forks = (entries s.table).card + log.countP (·.reaps) := by
    refine h.invariant (P := fun s => (s.2.filterMap (·.left)).Nodup ∧
      s.1.forks = (entries s.1.table).card + s.2.countP (·.reaps)) (fun s hinit => ?_)
      fun s a t hr ⟨hnodup, hforks⟩ _ hst => ?_
    · obtain ⟨s, log⟩ := s
      obtain ⟨⟨htable, -, -, hzero⟩, rfl⟩ := hinit
      replace htable : ∀ pid, s.table pid = none := htable
      replace hzero : s.forks = 0 := hzero
      simp [hzero, entries, htable]
    · obtain ⟨hst, hlog⟩ := System.logged_step.mp hst
      have hstep := step_cases hst
      rw [hlog]
      exact ⟨left_nodup_step (placed_told_of_reach hr).1 hstep hnodup, forks_step hstep hforks⟩
  refine ⟨hstay, hcount.1.length_le_card, hcount.2, fun hall res pid => ?_⟩
  have hleft : pid ∈ log.filterMap (·.left) := by
    have hcard : (log.filterMap (·.left)).toFinset = Finset.univ :=
      Finset.eq_univ_of_card _ (by rw [List.toFinset_card_of_nodup hcount.1, hall])
    exact List.mem_toFinset.mp (hcard ▸ Finset.mem_univ pid)
  obtain ⟨e, he, hl⟩ := List.mem_filterMap.mp hleft
  obtain ⟨c, hc⟩ := ChildEvent.exists_leaves hl
  obtain ⟨o, ho⟩ := hstay e he pid c hc
  refine Option.eq_none_iff_forall_ne_some.mpr fun t ht => ?_
  have hstep := step_cases ht
  generalize s.record _ t = new at hstep
  cases hstep with
  | fork hpc hres hpid =>
    rw [ho] at hpid
    cases hpid

/-- Of two numbers, one goes to a child that cannot be executed, and whose wait is interrupted, and
one to a child that is disowned. -/
def givenUp : List (ChildrenAct Bool) :=
  [.fork 0x10 true, .read (some .eacces), .reap true, .exit true (.exited 127),
    .fork 0x20 false, .read none, .disown 0x20, .exit false (.exited 0)]

theorem disowned_stay_givenUp : ∃ s log,
    (system.logged record).run (initial, []) givenUp = some (s, log) ∧
      (∃ o, s.table false = some ⟨1, o⟩) ∧ s.forks = (entries s.table).card ∧
        ∀ res pid, system.step s (.fork res pid) = none := by
  have hend : ((system.logged record).run (initial, []) givenUp).map Prod.snd =
      some [.forked 0, .abandoned 0 true .ecanceled, .ended 0 (.exited 127), .forked 1, .spawned 1,
        .disowned 1 false, .ended 1 (.exited 0)] := rfl
  obtain ⟨⟨s, log⟩, hrun, hlog⟩ := Option.map_eq_some_iff.mp hend
  have hinit : (system.logged record).init (initial (π := Bool), []) :=
    ⟨⟨fun _ => rfl, fun _ => rfl, rfl, rfl⟩, rfl⟩
  obtain rfl : log = _ := hlog
  obtain ⟨hstay, -, hforks, hfull⟩ := disowned_stay (System.reachable_of_run hinit hrun)
  exact ⟨s, _, hrun, hstay (.disowned 1 false) (by simp) false 1 ⟨rfl, rfl⟩, hforks, hfull rfl⟩

end Children

end Yaooi
