import Yaooi.Backend.Polling

/-!
# The array of the poll backend

`yoi_pl_impl_poll` of `src/unix/poll.c` copies its list of descriptors into an array for the OS and
looks the result up in it.  `_yoi_poll_addfd` makes the array larger when it is full, and clears
the element behind the one it fills.

* `poll_eq_pollPoll`: as long as everything stays in the array, a poll answers what `pollPoll` says.
* `inBounds_iff`: it does throughout a run if and only if every poll finds fewer than sixteen
  descriptors, sixteen being what the array has room for at first.
* `capacity_iff`: `fds_cap` is the number of elements throughout a run if and only if no `realloc`
  fails, since the number is changed before the call.
-/

namespace Yaooi

open Transition

/-- `struct pollfd` -/
structure PollFd where
  fd : Int
  events : YoiPlEvnMask
  revents : OsCond
  deriving DecidableEq, Repr

/-- There is nothing to report. -/
def OsCond.idle : OsCond := ⟨false, false, false, false, false, false⟩

/-- All of its bytes are zero. -/
def PollFd.zero : PollFd := ⟨0, .zero, .idle⟩

/-- What the OS is asked for. -/
def PollFd.asked (p : PollFd) : Int × YoiPlEvnMask := (p.fd, p.events)

/-- `queue->impl.fds`, as many elements as are allocated, and `queue->impl.fds_cap`. -/
structure PollArray where
  fds : List PollFd
  cap : ℕ
  deriving DecidableEq, Repr

/-- The element `fds[index]` is read or written while `fds_cap` is `cap`. -/
structure Access where
  index : ℕ
  cap : ℕ
  deriving DecidableEq, Repr

/-- What a poll meets: which calls of `realloc` fail, what is in memory that nobody wrote, and the
condition of each descriptor when the wait ends. -/
structure ArrayEnv where
  nomem : ℕ → Bool
  junk : ℕ → PollFd
  os : Int → OsCond

/-! ## `src/unix/poll.c` -/

/-- The capacity with which `_yoi_poll_addfd` goes on at `*pn`. -/
def grownCap (cap n : ℕ) : ℕ :=
  if cap ≤ n then
    let cap := cap * 2
    if cap = 0 then 16 else cap
  else cap

namespace PollArray

/-- The first part of `_yoi_poll_addfd`: the array is made larger when it is full.  The capacity is
changed first. -/
def grow (a : PollArray) (n : ℕ) (env : ArrayEnv) : PollArray × Bool :=
  if a.cap ≤ n then
    let a := { a with cap := grownCap a.cap n }
    if env.nomem n then (a, false)
    else
      let fresh := (List.range' a.fds.length (a.cap - a.fds.length)).map env.junk
      ({ a with fds := a.fds.take a.cap ++ fresh }, true)
  else (a, true)

/-- `_yoi_poll_addfd`: the array, what it touched, and its result. -/
def addfd (a : PollArray) (node : YoPollNode) (n : ℕ) (env : ArrayEnv) :
    PollArray × List Access × Bool :=
  match a.grow n env with
  | (a, false) => (a, [], false)
  | (a, true) =>
    let fds := a.fds.set (n + 1) .zero
    let fds := fds.modify n fun target => { target with fd := node.fd, events := node.evn }
    ({ a with fds := fds }, [⟨n + 1, a.cap⟩, ⟨n, a.cap⟩], true)

/-- The first loop of `yoi_pl_impl_poll`, from `fd_n` on: the array, what it touched, and `fd_n` at
its end, none where it returns `YO_ENOMEM`. -/
def addAll (a : PollArray) (n : ℕ) (env : ArrayEnv) :
    List YoPollNode → PollArray × List Access × Option ℕ
  | [] => (a, [], some n)
  | it :: l =>
    match a.addfd it n env with
    | (a, touched, false) => (a, touched, none)
    | (a, touched, true) =>
      let (a, rest, fdN) := a.addAll (n + 1) env l
      (a, touched ++ rest, fdN)

/-- What the OS stores in the first elements. -/
def kernel (a : PollArray) (fdN : ℕ) (env : ArrayEnv) : PollArray :=
  { a with
    fds := (a.fds.take fdN).map (fun p => { p with revents := (env.os p.fd).revents p.events }) ++
      a.fds.drop fdN }

/-- The second loop of `yoi_pl_impl_poll`, from the node with `pollfd_i = i` on. -/
def scan (a : PollArray) (env : ArrayEnv) (i : ℕ) : List YoPollNode → List Access × OsPoll
  | [] => ([], .error .etimeout)
  | it :: l =>
    let ready := (a.fds.getD i (env.junk i)).revents.toMask
    if ready ≠ .zero then ([⟨i, a.cap⟩], .event it.udata ready)
    else
      let (rest, answer) := a.scan env (i + 1) l
      (⟨i, a.cap⟩ :: rest, answer)

end PollArray

/-- `yoi_queue_impl_t` of the poll backend, without `pl`. -/
structure PollImpl where
  nodes : PollNodes
  arr : PollArray

/-- A call of the backend. -/
inductive PollCall where
  | setmask (udata : Ptr) (fd : Int) (mask : YoiPlEvnMask) (nomem : Bool)
  | poll (env : ArrayEnv)

/-- Nothing that the call allocates is refused. -/
def PollCall.Allocates : PollCall → Prop
  | .setmask _ _ _ nomem => nomem = false
  | .poll env => ∀ n, env.nomem n = false

namespace PollImpl

/-- `yoi_pl_impl_poll`, whose wait ends: the array, what was touched, and the answer. -/
def poll (s : PollImpl) (env : ArrayEnv) : PollImpl × List Access × OsPoll :=
  match s.arr.addAll 0 env s.nodes.nodes with
  | (a, touched, none) => ({ s with arr := a }, touched, .error .enomem)
  | (a, touched, some fdN) =>
    let a := a.kernel fdN env
    let waited := (List.range fdN).map fun i => ⟨i, a.cap⟩
    let (looked, answer) := a.scan env 0 s.nodes.nodes
    ({ s with arr := a }, touched ++ waited ++ looked, answer)

/-- The state after a call. -/
def after (s : PollImpl) : PollCall → PollImpl
  | .setmask udata fd mask nomem => { s with nodes := (s.nodes.setmask udata fd mask nomem).1 }
  | .poll env => (s.poll env).1

/-- What a call touches of the array. -/
def touched (s : PollImpl) : PollCall → List Access
  | .setmask .. => []
  | .poll env => (s.poll env).2.1

/-- The calls on a queue, which `yoi_queue_impl_init` made. -/
def system : System PollImpl PollCall where
  init s := s.nodes.nodes = [] ∧ s.arr = ⟨[], 0⟩
  step s c := some (s.after c)

/-- The same, with a log of what they touch. -/
abbrev watched : System (PollImpl × List Access) PollCall := system.logged fun s c _ => s.touched c

end PollImpl

/-! ## What the array holds -/

variable {cap n : ℕ} {a a' : PollArray} {env : ArrayEnv} {node it : YoPollNode}
  {l : List YoPollNode} {s t : PollImpl}

theorem grownCap_of_lt (h : n < cap) : grownCap cap n = cap := if_neg (by omega)

/-- A full array has a larger capacity next. -/
theorem cap_lt_grownCap (h : cap ≤ n) : cap < grownCap cap n := by
  simp only [grownCap, if_pos h]
  split <;> omega

/-- There is room behind what is in use, once the array has grown. -/
theorem lt_grownCap (h : n ≤ cap) : n < grownCap cap n := by
  by_cases hlt : n < cap
  · rwa [grownCap_of_lt hlt]
  · exact h.trans_lt (cap_lt_grownCap (not_lt.mp hlt))

theorem le_grownCap : cap ≤ grownCap cap n := by
  by_cases h : cap ≤ n
  · exact (cap_lt_grownCap h).le
  · rw [grownCap_of_lt (not_le.mp h)]

/-- Each `realloc` succeeds in a loop that has `left` descriptors to add, from `n` on. -/
def NoFailure (env : ArrayEnv) (cap n : ℕ) : ℕ → Prop
  | 0 => True
  | left + 1 => (cap ≤ n → env.nomem n = false) ∧ NoFailure env (grownCap cap n) (n + 1) left

namespace PollArray

/-- The capacity is the number of elements. -/
def Sized (a : PollArray) : Prop := a.cap = a.fds.length

/-- Growing succeeds, or it fails with the new capacity and the old elements. -/
theorem grow_cases (h : a.Sized) (n : ℕ) (env : ArrayEnv) :
    ((a.cap ≤ n → env.nomem n = false) ∧ ∃ fds, a.grow n env = (⟨fds, grownCap a.cap n⟩, true) ∧
      fds.length = grownCap a.cap n ∧ fds.take a.cap = a.fds) ∨
    (a.cap ≤ n ∧ env.nomem n = true ∧ a.grow n env = (⟨a.fds, grownCap a.cap n⟩, false)) := by
  unfold grow
  by_cases hfull : a.cap ≤ n
  · cases hnomem : env.nomem n with
    | true => exact .inr ⟨hfull, rfl, by simp [hfull]⟩
    | false =>
      have hle : a.fds.length ≤ grownCap a.cap n := h.symm ▸ le_grownCap
      refine .inl ⟨fun _ => rfl, _, by simp only [if_pos hfull, if_neg Bool.false_ne_true]; rfl,
        ?_, ?_⟩
      · simp only [List.length_append, List.length_take, List.length_map, List.length_range']
        omega
      · rw [List.take_of_length_le hle, h, List.take_left']
        rfl
  · have hcap := grownCap_of_lt (not_le.mp hfull)
    refine .inl ⟨fun e => absurd e hfull, a.fds, by rw [if_neg hfull, hcap], ?_, ?_⟩
    · rw [hcap, h]
    · rw [h, List.take_length]

/-- What `_yoi_poll_addfd` does where it does not fail. -/
theorem addfd_of_grow {fds : List PollFd} (h : a.grow n env = (⟨fds, cap⟩, true)) :
    a.addfd node n env =
      (⟨(fds.set (n + 1) .zero).modify n fun target =>
          { target with fd := node.fd, events := node.evn }, cap⟩,
        [⟨n + 1, cap⟩, ⟨n, cap⟩], true) := by
  rw [addfd, h]

/-- The capacity is kept in step by the loop unless a `realloc` fails, and is wrong then. -/
theorem addAll_sized (h : a.Sized) (n : ℕ) (env : ArrayEnv) (l : List YoPollNode) :
    (NoFailure env a.cap n l.length ∧ (a.addAll n env l).2.2 = some (n + l.length) ∧
      (a.addAll n env l).1.Sized) ∨
    (¬ NoFailure env a.cap n l.length ∧ (a.addAll n env l).2.2 = none ∧
      (a.addAll n env l).1.fds.length < (a.addAll n env l).1.cap) := by
  induction l generalizing a n with
  | nil => exact .inl ⟨trivial, rfl, h⟩
  | cons it l ih =>
    rw [List.length_cons, NoFailure]
    obtain ⟨hnomem, fds, hgrow, hlen, -⟩ | ⟨hfull, hnomem, hgrow⟩ := grow_cases h n env
    · have hsized : PollArray.Sized ⟨(fds.set (n + 1) .zero).modify n fun target =>
          { target with fd := it.fd, events := it.evn }, grownCap a.cap n⟩ := by
        simp [Sized, hlen]
      simp only [addAll, addfd_of_grow hgrow, and_iff_right hnomem]
      have hih := ih hsized (n + 1)
      rwa [Nat.add_assoc, Nat.add_comm 1] at hih
    · refine .inr ⟨fun hok => ?_, ?_⟩
      · rw [hok.1 hfull] at hnomem
        cases hnomem
      · simp only [addAll, addfd, hgrow, true_and]
        rw [← h]
        exact cap_lt_grownCap hfull

/-! ## The answer -/

/-- The loop leaves the elements before `n` alone and gives the others to the descriptors. -/
theorem asked_addAll (h : a.Sized) (hn : n ≤ a.cap) (hok : NoFailure env a.cap n l.length) :
    (∀ k < n, ((a.addAll n env l).1.fds[k]?).map PollFd.asked = (a.fds[k]?).map PollFd.asked) ∧
      ∀ k < l.length, ((a.addAll n env l).1.fds[n + k]?).map PollFd.asked =
        (l[k]?).map fun it => (it.fd, it.evn) := by
  induction l generalizing a n with
  | nil => exact ⟨fun _ _ => rfl, fun k hk => absurd hk (Nat.not_lt_zero k)⟩
  | cons it l ih =>
    rw [List.length_cons, NoFailure] at hok
    obtain ⟨-, fds, hgrow, hlen, htake⟩ | ⟨hfull, hnomem, -⟩ := grow_cases h n env
    · simp only [addAll, addfd_of_grow hgrow]
      set fds' := (fds.set (n + 1) .zero).modify n fun target =>
        { target with fd := it.fd, events := it.evn } with hfds'
      have hroom : n < grownCap a.cap n := lt_grownCap hn
      have hlow : ∀ k < n, fds'[k]? = a.fds[k]? := by
        intro k hk
        rw [← htake, List.getElem?_take_of_lt (hk.trans_le hn), hfds', List.getElem?_modify,
          List.getElem?_set_ne (by omega)]
        simp [hk.ne']
      have hhere : fds'[n]?.map PollFd.asked = some (it.fd, it.evn) := by
        have hn' : n < fds.length := by omega
        simp [hfds', PollFd.asked, hn']
      obtain ⟨hlow', hhigh'⟩ := ih (a := ⟨fds', grownCap a.cap n⟩) (n := n + 1)
        (by simp [Sized, hfds', hlen]) hroom hok.2
      refine ⟨fun k hk => ?_, fun k hk => ?_⟩
      · rw [hlow' k (by omega), hlow k hk]
      · cases k with
        | zero =>
          have hfirst := hlow' n (by omega)
          rw [hhere] at hfirst
          exact hfirst
        | succ k =>
          have hk' : n + (k + 1) = n + 1 + k := by omega
          rw [hk', hhigh' k (by simpa using hk)]
          rfl
    · rw [hok.1 hfull] at hnomem
      cases hnomem

/-- What the OS stores for the elements in use. -/
theorem getElem?_kernel {p : PollFd} {fdN k : ℕ} (hk : k < fdN) (hp : a.fds[k]? = some p) :
    (a.kernel fdN env).fds[k]? =
      some { p with revents := (env.os p.fd).revents p.events } := by
  have hlen : k < a.fds.length := (List.getElem?_eq_some_iff.mp hp).1
  rw [kernel, List.getElem?_append_left (by simp; omega), List.getElem?_map,
    List.getElem?_take_of_lt hk, hp]
  rfl

/-- The second loop finds the first descriptor with something to report. -/
theorem scan_eq_find (i : ℕ) (h : ∀ k it, l[k]? = some it → ∃ p, a.fds[i + k]? = some p ∧
      p.revents = (env.os it.fd).revents it.evn) :
    (a.scan env i l).2 =
      match (l.map fun it => (it, (env.os it.fd).revents it.evn)).find?
        fun p => p.2.toMask ≠ .zero with
      | some (it, revents) => .event it.udata revents.toMask
      | none => .error .etimeout := by
  induction l generalizing i with
  | nil => rfl
  | cons it l ih =>
    obtain ⟨p, hp, hrevents⟩ := h 0 it rfl
    have hget : a.fds.getD i (env.junk i) = p := by
      rw [List.getD_eq_getElem?_getD, ← Nat.add_zero i, hp]
      rfl
    rw [List.map_cons, scan]
    simp only [hget, hrevents]
    by_cases hready : ((env.os it.fd).revents it.evn).toMask = .zero
    · rw [if_neg (by simp [hready]), List.find?_cons_of_neg (by simp [hready])]
      refine ih (i + 1) fun k it' hk => ?_
      obtain ⟨p', hp', hrevents'⟩ := h (k + 1) it' hk
      exact ⟨p', by rw [← hp']; congr 1; omega, hrevents'⟩
    · rw [if_pos hready, List.find?_cons_of_pos (by simpa using hready)]

/-- Looking for a descriptor never answers `YO_ENOMEM`. -/
theorem scan_ne_enomem (i : ℕ) : (a.scan env i l).2 ≠ .error .enomem := by
  induction l generalizing i with
  | nil => exact fun h => by cases h
  | cons it l ih =>
    unfold scan
    dsimp only
    split
    · exact fun h => by cases h
    · exact ih (i + 1)

/-- The capacity that `_yoi_poll_addfd` leaves, also where it fails. -/
theorem cap_addfd (a : PollArray) (it : YoPollNode) (n : ℕ) (env : ArrayEnv) :
    (a.addfd it n env).1.cap = grownCap a.cap n := by
  unfold addfd grow
  by_cases hfull : a.cap ≤ n
  · cases hnomem : env.nomem n <;> simp [hfull]
  · simp [hfull, grownCap]

/-- It fails only where the array is full. -/
theorem full_of_addfd (h : (a.addfd it n env).2.2 = false) : a.cap ≤ n := by
  by_contra hroom
  simp [addfd, grow, hroom] at h

/-- A loop that fails has changed the capacity. -/
theorem cap_lt_of_addAll (h : (a.addAll n env l).2.2 = none) :
    a.cap < (a.addAll n env l).1.cap := by
  induction l generalizing a n with
  | nil => cases h
  | cons it l ih =>
    have hcap := cap_addfd a it n env
    have hfail : (a.addfd it n env).2.2 = false → a.cap ≤ n := full_of_addfd
    unfold addAll at h ⊢
    generalize a.addfd it n env = added at h hcap hfail ⊢
    obtain ⟨b, touched, ok⟩ := added
    cases ok with
    | false => exact (cap_lt_grownCap (hfail rfl)).trans_eq hcap.symm
    | true => exact (le_grownCap.trans_eq hcap.symm).trans_lt (ih h)

end PollArray

/-! ## `fds_cap` when memory runs out -/

namespace PollImpl

variable {c : PollCall} {cs : List PollCall}

/-- What both loops leave of the array's size. -/
theorem poll_eq (s : PollImpl) (env : ArrayEnv) :
    (s.poll env).1.arr.cap = (s.arr.addAll 0 env s.nodes.nodes).1.cap ∧
      (s.poll env).1.arr.fds.length = (s.arr.addAll 0 env s.nodes.nodes).1.fds.length ∧
        ((s.poll env).2.2 = .error .enomem ↔ (s.arr.addAll 0 env s.nodes.nodes).2.2 = none) := by
  unfold poll
  obtain ⟨a, touched, fdN⟩ := s.arr.addAll 0 env s.nodes.nodes
  cases fdN with
  | none => exact ⟨rfl, rfl, iff_of_true rfl rfl⟩
  | some fdN =>
    refine ⟨rfl, ?_, iff_of_false (fun h => ?_) (by simp)⟩
    · simp only [PollArray.kernel, List.length_append, List.length_map, List.length_take,
        List.length_drop]
      omega
    · exact absurd h (PollArray.scan_ne_enomem _)

/-- No `realloc` of the call fails. -/
def Enough (s : PollImpl) : PollCall → Prop
  | .setmask .. => True
  | .poll env => NoFailure env s.arr.cap 0 s.nodes.nodes.length

/-- **A poll answers what `pollPoll` says**, when the wait ends and no `realloc` fails.  A write
behind the last element is dropped here, so this counts only where none is made. -/
theorem poll_eq_pollPoll (hs : s.arr.Sized) (hok : s.Enough (.poll env)) {linux : Bool}
    {deadline : Option YoTime} {look : Look} {answer : OsPoll} (hos : look.os = env.os)
    (hnomem : look.nomem = false)
    (h : pollPoll linux s.nodes deadline look = some answer) : (s.poll env).2.2 = answer := by
  have hadd : (s.arr.addAll 0 env s.nodes.nodes).2.2 = some s.nodes.nodes.length := by
    rcases PollArray.addAll_sized hs 0 env s.nodes.nodes with ⟨-, hadd, -⟩ | ⟨hno, -, -⟩
    · rwa [Nat.zero_add] at hadd
    · exact absurd hok hno
  have hasked := (PollArray.asked_addAll hs (Nat.zero_le _) hok).2
  rw [pollPoll, if_neg (by simp [hnomem]), hos] at h
  obtain ⟨-, -, hanswer⟩ := Option.map_eq_some_iff.mp h
  rw [← hanswer]
  unfold poll
  generalize s.arr.addAll 0 env s.nodes.nodes = added at hadd hasked ⊢
  obtain ⟨a, touched, fdN⟩ := added
  obtain rfl : fdN = some s.nodes.nodes.length := hadd
  refine PollArray.scan_eq_find 0 fun k it hit => ?_
  have hk : k < s.nodes.nodes.length := (List.getElem?_eq_some_iff.mp hit).1
  have hkth := hasked k hk
  rw [hit, Option.map_some] at hkth
  obtain ⟨p, hp, hpasked⟩ := Option.map_eq_some_iff.mp hkth
  rw [Nat.zero_add] at hp ⊢
  refine ⟨_, PollArray.getElem?_kernel hk hp, ?_⟩
  simp only [PollFd.asked, Prod.mk.injEq] at hpasked
  simp only [hpasked]

/-- **When `fds_cap` is right.**  Along every run from a state in which it is the number of elements
allocated, `fds_cap` never exceeds that number if and only if no `realloc` fails; and a poll that
answers `YO_ENOMEM` never leaves it as it was. -/
theorem capacity_iff {cs : List PollCall} (hs : s.arr.Sized) (hrun : system.run s cs = some t) :
    (system.Always (fun s => s.arr.cap ≤ s.arr.fds.length) s cs ↔ system.Along Enough s cs) ∧
      ∀ (s : PollImpl) env, (s.poll env).2.2 = .error .enomem →
        s.arr.cap < (s.poll env).1.arr.cap := by
  refine ⟨?_, fun s env h => ?_⟩
  · refine System.always_iff_along (I := fun s => s.arr.Sized) (fun _ => True) ?_ hs hs.le
      (fun _ _ => trivial) hrun
    intro s c t hs _ _ hst
    obtain rfl := Option.some.inj hst
    cases c with
    | setmask udata fd mask nomem => exact ⟨iff_of_true hs.le trivial, fun _ => hs⟩
    | poll env =>
      obtain ⟨hcap, hlen, -⟩ := s.poll_eq env
      simp only [after, Enough, PollArray.Sized, hcap, hlen]
      rcases PollArray.addAll_sized hs 0 env s.nodes.nodes with ⟨hok, -, hsized⟩ | ⟨hno, -, hlt⟩
      · exact ⟨iff_of_true hsized.le hok, fun _ => hsized⟩
      · exact ⟨iff_of_false hlt.not_ge hno, fun hle => absurd hle hlt.not_ge⟩
  · obtain ⟨hcap, -, hiff⟩ := s.poll_eq env
    rw [hcap]
    exact PollArray.cap_lt_of_addAll (hiff.mp h)

/-- A queue that `yoi_queue_impl_init` made. -/
def start : PollImpl := ⟨⟨[], List.nodup_nil⟩, ⟨[], 0⟩⟩

/-- A poll with nothing to report. -/
def idlePoll (nomem : Bool) : PollCall := .poll ⟨fun _ => nomem, fun _ => .zero, fun _ => .idle⟩

/-- A descriptor is registered and polled. -/
def pollOnce (nomem : Bool) : List PollCall := [.setmask 0x20 4 ⟨true, false⟩ false, idlePoll nomem]

/-- There is room for it. -/
theorem capacity_pollOnce :
    system.Always (fun s => s.arr.cap ≤ s.arr.fds.length) start (pollOnce false) := by
  have hsized : start.arr.Sized := rfl
  refine (capacity_iff hsized rfl).1.mpr ⟨trivial, fun t ht => ⟨?_, fun _ _ => trivial⟩⟩
  obtain rfl := Option.some.inj ht
  exact ⟨fun _ => rfl, trivial⟩

/-- If memory runs out at that moment the capacity says sixteen and there is no element; the next
poll, with all the memory it wants, does not ask for any and uses the first two. -/
theorem not_capacity_pollOnce :
    start.arr.Sized ∧ ∃ s, system.run start (pollOnce true) = some s ∧ s.arr = ⟨[], 16⟩ ∧
      ¬ s.arr.cap ≤ s.arr.fds.length ∧ (s.after (idlePoll false)).arr = ⟨[], 16⟩ ∧
        (s.touched (idlePoll false)).map Access.index = [1, 0, 0, 0] :=
  ⟨rfl, _, rfl, rfl, by decide, rfl, rfl⟩

end PollImpl

/-! ## What is touched -/

/-- Every element that is touched is one of the array. -/
def InBounds (l : List Access) : Prop := ∀ x ∈ l, x.index < x.cap

instance : DecidablePred InBounds := fun l =>
  inferInstanceAs (Decidable (∀ x ∈ l, x.index < x.cap))

theorem inBounds_append {l m : List Access} : InBounds (l ++ m) ↔ InBounds l ∧ InBounds m :=
  List.forall_mem_append

namespace PollArray

/-- The array has no elements or sixteen, and `n` of them are in use, but not all. -/
def Small (a : PollArray) (n : ℕ) : Prop := a.cap = 16 ∧ n < 16 ∨ a.cap = 0 ∧ n = 0

/-- One descriptor is added to it. -/
theorem addfd_small (h : a.Small n) (hnomem : ∀ n, env.nomem n = false) (it : YoPollNode) :
    ∃ fds, a.addfd it n env = (⟨fds, 16⟩, [⟨n + 1, 16⟩, ⟨n, 16⟩], true) := by
  obtain ⟨hcap, hn⟩ | ⟨hcap, rfl⟩ := h
  · exact ⟨_, by simp only [addfd, grow, hcap, if_neg hn.not_ge]; rfl⟩
  · exact ⟨_, by simp only [addfd, grow, hcap, hnomem, le_refl, if_true]; rfl⟩

/-- Adding descriptors stays inside if and only if there is room for one more. -/
theorem inBounds_addAll (h : a.Small n) (hnomem : ∀ n, env.nomem n = false) (l : List YoPollNode) :
    (InBounds (a.addAll n env l).2.1 ↔ n + l.length < 16) ∧
      (n + l.length < 16 → (a.addAll n env l).2.2 = some (n + l.length) ∧
        ((a.addAll n env l).1.cap = 16 ∨ l = [] ∧ (a.addAll n env l).1 = a)) := by
  induction l generalizing a n with
  | nil =>
    have hn : n < 16 := by rcases h with h | h <;> omega
    refine ⟨iff_of_true (by simp [addAll, InBounds]) hn, fun _ => ⟨rfl, .inr ⟨rfl, rfl⟩⟩⟩
  | cons it l ih =>
    obtain ⟨fds, hadd⟩ := addfd_small h hnomem it
    have hn : n < 16 := by rcases h with h | h <;> omega
    simp only [addAll, hadd, List.length_cons, inBounds_append]
    by_cases hlast : n + 1 < 16
    · obtain ⟨hiff, hend⟩ := ih (a := ⟨fds, 16⟩) (n := n + 1) (.inl ⟨rfl, hlast⟩)
      have hhere : InBounds [⟨n + 1, 16⟩, ⟨n, 16⟩] := by simp [InBounds, hlast, hn]
      rw [and_iff_right hhere, hiff]
      have hsum : n + 1 + l.length = n + (l.length + 1) := by omega
      rw [hsum] at hend ⊢
      refine ⟨Iff.rfl, fun hlt => ⟨(hend hlt).1, .inl ?_⟩⟩
      rcases (hend hlt).2 with hcap | ⟨-, hsame⟩
      · exact hcap
      · rw [hsame]
    · -- the element that is cleared is the one behind the last
      have hhere : ¬ InBounds [⟨n + 1, 16⟩, ⟨n, 16⟩] := fun hin => hlast (hin ⟨n + 1, 16⟩ (by simp))
      exact ⟨iff_of_false (fun hin => hhere hin.1) (by omega), fun hlt => absurd hlt (by omega)⟩

/-- Looking at the descriptors touches their own elements. -/
theorem mem_scan {x : Access} {i : ℕ} (hx : x ∈ (a.scan env i l).1) :
    x.cap = a.cap ∧ x.index < i + l.length := by
  induction l generalizing i with
  | nil => cases hx
  | cons it l ih =>
    unfold scan at hx
    dsimp only at hx
    rw [List.length_cons]
    split at hx
    · rw [List.mem_singleton.mp hx]
      exact ⟨rfl, Nat.lt_add_of_pos_right (Nat.succ_pos _)⟩
    · rcases List.mem_cons.mp hx with rfl | hx
      · exact ⟨rfl, Nat.lt_add_of_pos_right (Nat.succ_pos _)⟩
      · obtain ⟨hcap, hlt⟩ := ih hx
        exact ⟨hcap, by omega⟩

end PollArray

namespace PollImpl

variable {c : PollCall} {cs : List PollCall}

/-- The array is as `yoi_queue_impl_init` left it, or has sixteen elements. -/
def Small (s : PollImpl) : Prop := s.arr.cap = 0 ∨ s.arr.cap = 16

/-- **A poll stays inside the array if and only if it finds fewer than sixteen descriptors.** -/
theorem inBounds_poll (hs : s.Small) (hnomem : ∀ n, env.nomem n = false) :
    (InBounds (s.poll env).2.1 ↔ s.nodes.nodes.length < 16) ∧
      (s.nodes.nodes.length < 16 → (s.poll env).1.Small) := by
  have hsmall : s.arr.Small 0 := by
    rcases hs with hs | hs <;> simp [PollArray.Small, hs]
  obtain ⟨hiff, hend⟩ := PollArray.inBounds_addAll hsmall hnomem s.nodes.nodes
  rw [Nat.zero_add] at hiff hend
  have hcap := (s.poll_eq env).1
  refine ⟨⟨fun hin => hiff.mp ?_, fun hlt => ?_⟩, fun hlt => ?_⟩
  · unfold poll at hin
    generalize s.arr.addAll 0 env s.nodes.nodes = added at hin ⊢
    obtain ⟨a, touched, fdN⟩ := added
    cases fdN with
    | none => exact hin
    | some fdN => exact (inBounds_append.mp (inBounds_append.mp hin).1).1
  · obtain ⟨hfdN, hcap16⟩ := hend hlt
    have htouched := hiff.mpr hlt
    unfold poll
    generalize s.arr.addAll 0 env s.nodes.nodes = added at hfdN hcap16 htouched ⊢
    obtain ⟨a, touched, fdN⟩ := added
    obtain rfl : fdN = some s.nodes.nodes.length := hfdN
    have hroom : ∀ i, i < s.nodes.nodes.length → i < a.cap := by
      intro i hi
      rcases hcap16 with hcap16 | ⟨hnil, -⟩
      · exact (hi.trans hlt).trans_eq hcap16.symm
      · simp [hnil] at hi
    simp only [inBounds_append]
    refine ⟨⟨htouched, fun x hx => ?_⟩, fun x hx => ?_⟩
    · obtain ⟨i, hi, rfl⟩ := List.mem_map.mp hx
      exact hroom i (List.mem_range.mp hi)
    · obtain ⟨hxcap, hindex⟩ := PollArray.mem_scan hx
      rw [hxcap]
      exact hroom _ (hindex.trans_eq (Nat.zero_add _))
  · rw [Small, hcap]
    rcases (hend hlt).2 with hcap16 | ⟨-, hsame⟩
    · exact .inr hcap16
    · rw [hsame]
      exact hs

/-- A poll finds fewer than sixteen descriptors registered. -/
def Few (s : PollImpl) : PollCall → Prop
  | .setmask .. => True
  | .poll _ => s.nodes.nodes.length < 16

/-- **When everything stays in the array.**  Along every run in which all allocations succeed, each
element that is read or written has an index below `fds_cap` if and only if every poll finds
fewer than sixteen descriptors registered. -/
theorem inBounds_iff {s t : PollImpl × List Access} (hinit : watched.init s)
    (halloc : ∀ c ∈ cs, c.Allocates) (hrun : watched.run s cs = some t) :
    watched.Always (fun s => InBounds s.2) s cs ↔ watched.Along (fun s c => Few s.1 c) s cs := by
  obtain ⟨⟨-, harr⟩, hlog⟩ := hinit
  have hsmall : Small s.1 := .inl (by rw [harr])
  have hstart : InBounds s.2 := by simp [hlog, InBounds]
  refine System.always_iff_along (I := fun s => Small s.1) PollCall.Allocates ?_ hsmall hstart
    halloc hrun
  intro s c t hs hok hin hst
  obtain ⟨hst, hlog⟩ := System.logged_step.mp hst
  obtain hst : s.1.after c = t.1 := Option.some.inj hst
  rw [hlog, inBounds_append, and_iff_right hin, ← hst]
  cases c with
  | setmask udata fd mask nomem =>
    exact ⟨iff_of_true (by simp [touched, InBounds]) trivial, fun _ => hs⟩
  | poll env =>
    obtain ⟨hiff, hkeep⟩ := inBounds_poll hs hok
    exact ⟨hiff, fun h => hkeep (hiff.mp h)⟩

/-- So it is with one descriptor. -/
theorem inBounds_pollOnce :
    watched.Always (fun s => InBounds s.2) (start, []) (pollOnce false) := by
  have halloc : ∀ c ∈ pollOnce false, c.Allocates := by
    simp [pollOnce, idlePoll, PollCall.Allocates]
  refine (inBounds_iff ⟨⟨rfl, rfl⟩, rfl⟩ halloc rfl).mpr
    ⟨trivial, fun t ht => ⟨?_, fun _ _ => trivial⟩⟩
  obtain rfl := Option.some.inj ht
  exact (by decide : 1 < 16)

/-- Sixteen descriptors are registered and polled. -/
def pollSixteen : List PollCall :=
  (List.range 16).map (fun fd => .setmask 0x20 fd ⟨true, false⟩ false) ++ [idlePoll false]

/-- The element behind the sixteenth is cleared. -/
theorem not_inBounds_pollSixteen :
    watched.init (start, []) ∧ (∀ c ∈ pollSixteen, c.Allocates) ∧
      ∃ s, watched.run (start, []) pollSixteen = some s ∧ ⟨16, 16⟩ ∈ s.2 ∧ s.1.arr.fds.length = 16 ∧
        ¬ watched.Always (fun s => InBounds s.2) (start, []) pollSixteen := by
  have halloc : ∀ c ∈ pollSixteen, c.Allocates := by
    intro c hc
    rcases List.mem_append.mp hc with hc | hc
    · obtain ⟨fd, -, rfl⟩ := List.mem_map.mp hc
      rfl
    · obtain rfl := List.mem_singleton.mp hc
      exact fun _ => rfl
  have hrun : (watched.run (start, []) pollSixteen).map (fun s =>
      (decide (⟨16, 16⟩ ∈ s.2), s.1.arr.fds.length)) = some (true, 16) := by decide +kernel
  obtain ⟨s, hs, hend⟩ := Option.map_eq_some_iff.mp hrun
  simp only [Prod.mk.injEq, decide_eq_true_eq] at hend
  refine ⟨⟨⟨rfl, rfl⟩, rfl⟩, halloc, s, hs, hend.1, hend.2, fun h => ?_⟩
  exact absurd (h.last hs _ hend.1) (by decide)

end PollImpl

end Yaooi
