import Yaooi.Backend.PollArray

/-!
# The list of the poll backend in memory

`src/unix/poll.c` with its nodes at the addresses that `malloc` gives, threaded by `next` and
`slot`, each with the index of its element in the array for the OS.  `src/unix/pollish.h` says what
the list stands for: a map from descriptors to masks and user data.

* `PollMem.refines_setmask`: in memory `yoi_pl_impl_setmask` does what it does to a list of nodes.
* `PollMem.poll_spec`: a poll that has room asks the OS about each node of the list, and answers
  with the first whose element reports something.
* `PollMem.implements_registered`: so after every sequence of calls the list is the documented map,
  and a poll asks and answers by it.
-/

namespace Yaooi

open Transition

/-! ## `src/unix/poll.c` -/

/-- What a poll meets: which calls of `realloc` fail, what is in memory that nobody wrote, and the
flags that the OS stores in each element. -/
structure PollAnswers where
  nomem : ℕ → Bool
  junk : ℕ → PollFd
  revents : ℕ → OsCond

/-- The same for the loop that fills the array, which is before the wait. -/
def PollAnswers.env (ans : PollAnswers) : ArrayEnv := ⟨ans.nomem, ans.junk, fun _ => .idle⟩

/-- `POLLIN`, `POLLOUT`, `POLLERR` or `POLLHUP` is among the flags. -/
def OsCond.reports (c : OsCond) : Bool := c.input || c.output || c.error || c.hangup

/-- The directions that `yoi_pl_impl_poll` concludes from `revents`. -/
def pollReady (revents : OsCond) : YoiPlEvnMask where
  readable := revents.input || revents.error || revents.hangup
  writable := revents.output || revents.error || revents.hangup

/-- What the OS stores in the first elements. -/
def PollArray.answered (a : PollArray) (fdN : ℕ) (revents : ℕ → OsCond) : PollArray :=
  { a with fds := a.fds.mapIdx fun k p => if k < fdN then { p with revents := revents k } else p }

/-- `yoi_queue_impl_t` of the poll backend, without `pl`, and the memory that its pointers lead to.
The ledger `given` has the addresses that `malloc` gave; none is ever freed. -/
structure PollMem where
  /-- `head`, and `next` and `slot` of the nodes. -/
  store : SlotList.Store Unit Ptr
  /-- `fd`, `udata` and `evn` of the nodes. -/
  node : Ptr → YoPollNode
  /-- `pollfd_i` of the nodes. -/
  pollfdI : Ptr → ℕ
  arr : PollArray
  given : List Ptr

/-- What a poll leaves and touches, what it asks the OS for if it comes to that, and its answer. -/
structure Polled where
  mem : PollMem
  touched : List Access
  asked : Option (List (Int × YoiPlEvnMask))
  answer : OsPoll

namespace PollMem

/-- The nodes from `head` on, in order; none when following `next` never ends. -/
def list (m : PollMem) : Option (List Ptr) :=
  Chain.walk m.store.next NULL Heap.rounds (m.store.head ())

/-- The loop that looks for the node of a descriptor; its result may be `NULL`. -/
def find (m : PollMem) (fd : Int) : Option Ptr :=
  Chain.seek m.store.next NULL (fun i => (m.node i).fd = fd) Heap.rounds (m.store.head ())

/-- `i` is assigned to. -/
def setNode (m : PollMem) (i : Ptr) (f : YoPollNode → YoPollNode) : PollMem :=
  { m with node := Function.update m.node i (f (m.node i)) }

/-- `yoi_pl_impl_setmask`, where `malloc` answers `addr`: the memory and the code, none when the
loop never ends. -/
def setmask (m : PollMem) (udata : Ptr) (fd : Int) (mask : YoiPlEvnMask) (addr : Ptr) :
    Option (PollMem × YoCode) :=
  (m.find fd).map fun i =>
    if mask = .zero then
      if i = NULL then (m, .ok) else ({ m with store := m.store.del NULL i }, .ok)
    else if i = NULL then
      if addr = NULL then (m, .enomem)
      else
        let i := addr
        let m := { m with given := i :: m.given }
        let m := m.setNode i fun node => { node with fd := fd }
        let m := { m with store := m.store.add NULL () i }
        (m.setNode i fun node => { node with evn := mask, udata := udata }, .ok)
    else (m.setNode i fun node => { node with evn := mask, udata := udata }, .ok)

/-- `_yoi_poll_addfd`: the memory, what it touched of the array, and its result. -/
def addfd (m : PollMem) (node : Ptr) (n : ℕ) (env : ArrayEnv) : PollMem × List Access × Bool :=
  match m.arr.addfd (m.node node) n env with
  | (a, touched, false) => ({ m with arr := a }, touched, false)
  | (a, touched, true) =>
    ({ m with arr := a, pollfdI := Function.update m.pollfdI node n }, touched, true)

/-- The first loop of `yoi_pl_impl_poll`, over the nodes that are left: the memory, what it touched,
and `fd_n` at its end, none where it returns `YO_ENOMEM`. -/
def addAll (m : PollMem) (n : ℕ) (env : ArrayEnv) : List Ptr → PollMem × List Access × Option ℕ
  | [] => (m, [], some n)
  | it :: l =>
    match m.addfd it n env with
    | (m, touched, false) => (m, touched, none)
    | (m, touched, true) =>
      let (m, rest, fdN) := m.addAll (n + 1) env l
      (m, touched ++ rest, fdN)

/-- The second loop of `yoi_pl_impl_poll`, over the nodes that are left. -/
def scan (m : PollMem) (junk : ℕ → PollFd) : List Ptr → List Access × OsPoll
  | [] => ([], .error .etimeout)
  | it :: l =>
    let i := m.pollfdI it
    let ready := pollReady (m.arr.fds.getD i (junk i)).revents
    if ready ≠ .zero then ([⟨i, m.arr.cap⟩], .event (m.node it).udata ready)
    else
      let (rest, answer) := m.scan junk l
      (⟨i, m.arr.cap⟩ :: rest, answer)

/-- `yoi_pl_impl_poll`, whose wait ends; none when a loop never ends.  Both loops go over the whole
list, since neither changes a `next`. -/
def poll (m : PollMem) (ans : PollAnswers) : Option Polled :=
  m.list.map fun l =>
    match m.addAll 0 ans.env l with
    | (m, touched, none) => ⟨m, touched, none, .error .enomem⟩
    | (m, touched, some fdN) =>
      let asked := (m.arr.fds.take fdN).map PollFd.asked
      let m := { m with arr := m.arr.answered fdN ans.revents }
      let waited := (List.range fdN).map fun i => ⟨i, m.arr.cap⟩
      let (looked, answer) := m.scan ans.junk l
      ⟨m, touched ++ waited ++ looked, some asked, answer⟩

/-- A call of the backend. -/
inductive Call where
  | setmask (udata : Ptr) (fd : Int) (mask : YoiPlEvnMask) (addr : Ptr)
  | poll (ans : PollAnswers)

/-- Nothing that the call allocates is refused. -/
def Call.Allocates : Call → Prop
  | .setmask _ _ _ addr => addr ≠ NULL
  | .poll ans => ∀ n, ans.nomem n = false

/-- The calls on a queue, which `yoi_queue_impl_init` made.  What `malloc` gives is not in use. -/
def system : System PollMem Call where
  init m := m.store.head () = NULL ∧ m.arr = ⟨[], 0⟩ ∧ m.given = []
  step m
    | .setmask udata fd mask addr =>
      if addr ∈ m.given then none else (m.setmask udata fd mask addr).map Prod.fst
    | .poll ans => (m.poll ans).map Polled.mem

/-- A poll finds fewer descriptors than the array has room for, which is sixteen when it is made. -/
def Roomy (m : PollMem) : Call → Prop
  | .setmask .. => True
  | .poll _ => ∀ l, m.list = some l → l.length < grownCap m.arr.cap 0

/-! ## What the list is for -/

/-- The mask and the user data of a call for the descriptor. -/
def Call.given (fd : Int) : Call → Option Registration
  | .setmask udata fd' mask _ => if fd' = fd then some ⟨mask, udata⟩ else none
  | .poll _ => none

/-- What the last call for the descriptor registered, unless its mask was zero. -/
def registered (calls : List Call) (fd : Int) : Option Registration :=
  (calls.reverse.findSome? (Call.given fd)).filter (·.mask ≠ .zero)

/-- What a poll answers that asked for the elements: an event of a registered descriptor whose
element reports one, or `YO_ETIMEOUT` when none does. -/
inductive Answers (reg : Int → Option Registration) (asked : List (Int × YoiPlEvnMask))
    (revents : ℕ → OsCond) : OsPoll → Prop
  | event {k : ℕ} {fd : Int} {e : Registration} : reg fd = some e → asked[k]? = some (fd, e.mask) →
      (revents k).reports = true →
      Answers reg asked revents (.event e.udata (pollReady (revents k)))
  | timeout : (∀ k < asked.length, (revents k).reports = false) →
      Answers reg asked revents (.error .etimeout)

/-- The backend does what `pollish.h` says, where `reg` is registered. -/
structure Implements (m : PollMem) (reg : Int → Option Registration) : Prop where
  /-- The list ends, with a node for each registered descriptor and one at most for any. -/
  list : ∃ l, m.list = some l ∧ (l.map fun i => (m.node i).fd).Nodup ∧
    ∀ fd e, reg fd = some e ↔ ∃ i ∈ l, m.node i = ⟨fd, e.udata, e.mask⟩
  /-- A call of `yoi_pl_impl_setmask` succeeds. -/
  setmask : ∀ udata fd mask addr, addr ≠ NULL → addr ∉ m.given →
    ∃ m', m.setmask udata fd mask addr = some (m', .ok)
  /-- A poll with room for the descriptors stays in the array, asks the OS for each that is
  registered, once, and for its mask, and answers accordingly. -/
  poll : ∀ ans, Call.Allocates (.poll ans) → m.Roomy (.poll ans) → ∃ r asked,
    m.poll ans = some r ∧ InBounds r.touched ∧ r.asked = some asked ∧
      (asked.map Prod.fst).Nodup ∧
      (∀ fd evn, (fd, evn) ∈ asked ↔ ∃ udata, reg fd = some ⟨evn, udata⟩) ∧
      Answers reg asked ans.revents r.answer

/-! ## The list of nodes -/

variable {m m' : PollMem} {p : PollNodes} {l : List Ptr} {fd : Int} {i addr : Ptr} {n : ℕ}

/-- The list at the addresses `l` has the nodes `p`. -/
structure Refines (m : PollMem) (p : PollNodes) (l : List Ptr) : Prop where
  links : SlotList.Represents NULL m.store (fun _ => True) fun _ => l
  nodes : l.map m.node = p.nodes
  given : ∀ i ∈ l, i ∈ m.given

namespace Refines

theorem isChain (h : m.Refines p l) : Chain.IsChain m.store.next NULL (m.store.head ()) l :=
  (h.links.seg () trivial).isChain

/-- Following `next` finds the nodes. -/
theorem list (h : m.Refines p l) : m.list = some l :=
  Chain.walk_eq_some.mpr ⟨h.isChain, Heap.length_lt_rounds h.isChain⟩

/-- Looking for a descriptor ends, at its node or at the end of the list. -/
theorem find (h : m.Refines p l) (fd : Int) :
    m.find fd = some ((l.find? fun i => (m.node i).fd = fd).getD NULL) :=
  Chain.seek_eq h.isChain (Heap.length_lt_rounds h.isChain)

/-- The descriptors of the list. -/
theorem map_fd (h : m.Refines p l) :
    (l.map fun i => (m.node i).fd) = p.nodes.map YoPollNode.fd := by
  rw [← h.nodes, List.map_map]
  rfl

/-- No node is for a descriptor that is not in the list. -/
theorem not_mem_of_find (h : m.Refines p l)
    (hfind : l.find? (fun i => (m.node i).fd = fd) = none) : fd ∉ p.nodes.map YoPollNode.fd := by
  rw [← h.map_fd]
  rintro hmem
  obtain ⟨i, hi, hfd⟩ := List.mem_map.mp hmem
  simpa [hfd] using List.find?_eq_none.mp hfind i hi

end Refines

/-- Assigning to another node. -/
theorem map_update_of_notMem {node : Ptr → YoPollNode} {v : YoPollNode} (h : i ∉ l) :
    l.map (Function.update node i v) = l.map node :=
  List.map_congr_left fun x hx => by rw [Function.update_of_ne fun e : x = i => h (e ▸ hx)]

/-- The node that is found is the one that is erased. -/
theorem map_erase_of_find {node : Ptr → YoPollNode} (fd : Int)
    (hfind : l.find? (fun i => (node i).fd = fd) = some i) :
    (l.erase i).map node = (l.map node).eraseP (·.fd = fd) := by
  induction l with
  | nil => cases hfind
  | cons k l ih =>
    by_cases hk : (node k).fd = fd
    · obtain rfl : k = i := by simpa [hk] using hfind
      rw [List.erase_cons_head, List.map_cons, List.eraseP_cons_of_pos (by simpa using hk)]
    · rw [List.find?_cons_of_neg (by simpa using hk)] at hfind
      have hfd : (node i).fd = fd := by simpa using List.find?_some hfind
      have hne : k ≠ i := fun e => hk (e ▸ hfd)
      rw [List.erase_cons_tail (by simpa using hne), List.map_cons, List.map_cons,
        List.eraseP_cons_of_neg (by simpa using hk), ih hfind]

/-- The node that is found is the one that is assigned to. -/
theorem map_update_of_find {node : Ptr → YoPollNode} {evn : YoiPlEvnMask} {udata : Ptr}
    (hnd : l.Nodup) (hfind : l.find? (fun i => (node i).fd = fd) = some i) :
    l.map (Function.update node i { node i with evn := evn, udata := udata }) =
      PollNodes.assign fd evn udata (l.map node) := by
  induction l with
  | nil => cases hfind
  | cons k l ih =>
    obtain ⟨hnot, hnd⟩ := List.nodup_cons.mp hnd
    rw [List.map_cons, List.map_cons, PollNodes.assign]
    by_cases hk : (node k).fd = fd
    · obtain rfl : k = i := by simpa [hk] using hfind
      rw [if_pos hk, Function.update_self, map_update_of_notMem hnot]
    · rw [List.find?_cons_of_neg (by simpa using hk)] at hfind
      have hfd : (node i).fd = fd := by simpa using List.find?_some hfind
      have hne : k ≠ i := fun e => hk (e ▸ hfd)
      rw [if_neg hk, Function.update_of_ne hne, ih hnd hfind]

/-- **In memory `yoi_pl_impl_setmask` does what it does to a list of nodes.** -/
theorem refines_setmask (h : m.Refines p l) (udata : Ptr) (fd : Int) (mask : YoiPlEvnMask)
    (hfresh : addr ∉ m.given) :
    ∃ m' l', m.setmask udata fd mask addr =
        some (m', (p.setmask udata fd mask (addr = NULL)).2) ∧
      m'.Refines (p.setmask udata fd mask (addr = NULL)).1 l' ∧ m'.arr = m.arr := by
  have hnull : ∀ i ∈ l, i ≠ NULL := h.isChain.ne_null
  unfold setmask PollNodes.setmask
  rw [h.find, Option.map_some]
  cases hfind : l.find? fun i => (m.node i).fd = fd with
  | none =>
    have hfd := h.not_mem_of_find hfind
    by_cases hmask : mask = .zero
    · simp only [hmask, if_true, Option.getD_none]
      refine ⟨m, l, rfl, ⟨h.links, ?_, h.given⟩, rfl⟩
      refine h.nodes.trans (List.eraseP_of_forall_not fun k hk hkfd => hfd ?_).symm
      exact List.mem_map.mpr ⟨k, hk, by simpa using hkfd⟩
    · simp only [hmask, hfd, if_false, if_true, dif_neg, Option.getD_none, not_false_eq_true]
      by_cases haddr : addr = NULL
      · simp only [haddr, if_true, decide_true]
        exact ⟨m, l, rfl, h, rfl⟩
      · simp only [haddr, if_false, decide_false, Bool.false_eq_true]
        have hnot : addr ∉ l := fun hmem => hfresh (h.given addr hmem)
        refine ⟨_, addr :: l, rfl, ⟨?_, ?_, ?_⟩, rfl⟩
        · have hadd := h.links.add (i := ()) trivial (fun _ _ => hnot) haddr
          rwa [Function.update_eq_const_of_subsingleton] at hadd
        · simp [setNode, map_update_of_notMem hnot, h.nodes]
        · intro i hi
          rcases List.mem_cons.mp hi with rfl | hi
          · exact List.mem_cons_self ..
          · exact List.mem_cons_of_mem _ (h.given i hi)
  | some i =>
    have hmem := List.mem_of_find?_eq_some hfind
    have hfd : fd ∈ p.nodes.map YoPollNode.fd := by
      rw [← h.map_fd]
      exact List.mem_map.mpr ⟨i, hmem, by simpa using List.find?_some hfind⟩
    by_cases hmask : mask = .zero
    · simp only [hmask, if_true, Option.getD_some, hnull i hmem, if_false]
      refine ⟨_, l.erase i, rfl, ⟨?_, ?_, ?_⟩, rfl⟩
      · have hdel := h.links.del (i := ()) trivial hmem
        rwa [Function.update_eq_const_of_subsingleton] at hdel
      · exact (map_erase_of_find fd hfind).trans (congrArg _ h.nodes)
      · exact fun k hk => h.given k (List.mem_of_mem_erase hk)
    · simp only [hmask, hfd, if_false, dif_pos, Option.getD_some, hnull i hmem]
      refine ⟨_, l, rfl, ⟨h.links, ?_, h.given⟩, rfl⟩
      exact (map_update_of_find h.isChain.nodup hfind).trans (congrArg _ h.nodes)

/-! ## A poll -/

theorem pollReady_ne_zero {c : OsCond} : pollReady c ≠ .zero ↔ c.reports = true := by
  obtain ⟨input, output, rdhup, error, hangup, nval⟩ := c
  simp only [pollReady, OsCond.reports, YoiPlEvnMask.zero, ne_eq, YoiPlEvnMask.mk.injEq]
  cases input <;> cases output <;> cases error <;> simp

variable {env : ArrayEnv} {ans : PollAnswers} {junk : ℕ → PollFd} {rev : ℕ → OsCond}

/-- The first loop does with the array what it does for a list of nodes, and stores the index of the
element of each node. -/
theorem addAll_eq (m : PollMem) (n : ℕ) (env : ArrayEnv) (l : List Ptr) :
    ∃ f, m.addAll n env l = ({ m with
        arr := (m.arr.addAll n env (l.map m.node)).1
        pollfdI := f }, (m.arr.addAll n env (l.map m.node)).2) ∧
      (∀ i ∉ l, f i = m.pollfdI i) ∧
      (l.Nodup → (m.arr.addAll n env (l.map m.node)).2.2 ≠ none →
        ∀ k it, l[k]? = some it → f it = n + k) := by
  induction l generalizing m n with
  | nil => exact ⟨m.pollfdI, rfl, fun _ _ => rfl, fun _ _ k it hk => by cases hk⟩
  | cons it l ih =>
    rw [List.map_cons, PollArray.addAll, addAll, addfd]
    generalize m.arr.addfd (m.node it) n env = added
    obtain ⟨a, touched, ok⟩ := added
    cases ok with
    | false => exact ⟨m.pollfdI, rfl, fun _ _ => rfl, fun _ hne => absurd rfl hne⟩
    | true =>
      obtain ⟨f, heq, hframe, hindex⟩ :=
        ih { m with arr := a, pollfdI := Function.update m.pollfdI it n } (n + 1)
      refine ⟨f, by simp only [heq], fun i hi => ?_, fun hnd hne k i hk => ?_⟩
      · rw [List.mem_cons, not_or] at hi
        exact (hframe i hi.2).trans (Function.update_of_ne hi.1 ..)
      · obtain ⟨hnot, hnd⟩ := List.nodup_cons.mp hnd
        cases k with
        | zero =>
          obtain rfl : it = i := by simpa using hk
          exact (hframe it hnot).trans (Function.update_self ..)
        | succ k =>
          rw [hindex hnd hne k i (by simpa using hk)]
          omega

/-- The second loop answers with the first node whose element reports something, and looks at
elements of the nodes only. -/
theorem scan_spec (junk : ℕ → PollFd) {i : ℕ}
    (hindex : ∀ k it, l[k]? = some it → m.pollfdI it = i + k)
    (hrev : ∀ k < l.length, (m.arr.fds.getD (i + k) (junk (i + k))).revents = rev (i + k)) :
    ((∃ k it, l[k]? = some it ∧ (rev (i + k)).reports = true ∧
        (m.scan junk l).2 = .event (m.node it).udata (pollReady (rev (i + k)))) ∨
      ((m.scan junk l).2 = .error .etimeout ∧ ∀ k < l.length, (rev (i + k)).reports = false)) ∧
    ∀ x ∈ (m.scan junk l).1, x.cap = m.arr.cap ∧ x.index < i + l.length := by
  induction l generalizing i with
  | nil => exact ⟨.inr ⟨rfl, fun k hk => absurd hk (Nat.not_lt_zero k)⟩, fun x hx => by cases hx⟩
  | cons it l ih =>
    have hhere : m.pollfdI it = i := hindex 0 it rfl
    have hfirst : (m.arr.fds.getD i (junk i)).revents = rev i := hrev 0 (Nat.succ_pos _)
    unfold scan
    simp only [hhere, hfirst, List.length_cons]
    by_cases hready : pollReady (rev i) = .zero
    · have hidle : (rev i).reports = false := by
        simpa using mt pollReady_ne_zero.mpr (not_not.mpr hready)
      obtain ⟨hanswer, htouched⟩ := ih (i := i + 1)
        (fun k it hk => (hindex (k + 1) it (by simpa using hk)).trans (by omega))
        (fun k hk => by
          simpa [Nat.add_assoc, Nat.add_comm 1] using hrev (k + 1) (by simpa using hk))
      rw [if_neg (by simpa using hready)]
      refine ⟨?_, fun x hx => ?_⟩
      · rcases hanswer with ⟨k, it', hk, hreports, heq⟩ | ⟨heq, hnone⟩
        · rw [Nat.add_assoc, Nat.add_comm 1] at hreports heq
          exact .inl ⟨k + 1, it', by simpa using hk, hreports, heq⟩
        · refine .inr ⟨heq, fun k hk => ?_⟩
          cases k with
          | zero => exact hidle
          | succ k => simpa [Nat.add_assoc, Nat.add_comm 1] using hnone k (by omega)
      · rcases List.mem_cons.mp hx with rfl | hx
        · exact ⟨rfl, Nat.lt_add_of_pos_right (Nat.succ_pos _)⟩
        · obtain ⟨hcap, hlt⟩ := htouched x hx
          exact ⟨hcap, by omega⟩
    · rw [if_pos hready]
      refine ⟨.inl ⟨0, it, rfl, pollReady_ne_zero.mp hready, rfl⟩, fun x hx => ?_⟩
      obtain rfl := List.mem_singleton.mp hx
      exact ⟨rfl, Nat.lt_add_of_pos_right (Nat.succ_pos _)⟩

/-- If no `realloc` is refused, none fails. -/
theorem noFailure (h : ∀ n, env.nomem n = false) (cap n left : ℕ) : NoFailure env cap n left := by
  induction left generalizing cap n with
  | zero => trivial
  | succ left ih => exact ⟨fun _ => h n, ih ..⟩

/-- What is asked for the elements in use, and what is read there after the wait. -/
theorem asked_addAll_zero {a a' : PollArray} {nodes : List YoPollNode} {touched : List Access}
    (hs : a.Sized) (hok : ∀ n, env.nomem n = false)
    (hadd : a.addAll 0 env nodes = (a', touched, some nodes.length)) :
    (a'.fds.take nodes.length).map PollFd.asked = nodes.map (fun it => (it.fd, it.evn)) ∧
      nodes.length ≤ a'.fds.length := by
  have hasked := (PollArray.asked_addAll hs (Nat.zero_le _) (noFailure hok _ 0 nodes.length)).2
  rw [hadd] at hasked
  simp only [Nat.zero_add] at hasked
  have hlen : nodes.length ≤ a'.fds.length := by
    by_contra hlt
    have hk := hasked a'.fds.length (by omega)
    rw [List.getElem?_eq_none le_rfl, List.getElem?_eq_getElem (by omega)] at hk
    cases hk
  refine ⟨List.ext_getElem? fun k => ?_, hlen⟩
  by_cases hk : k < nodes.length
  · rw [List.getElem?_map, List.getElem?_take_of_lt hk, hasked k hk, List.getElem?_map]
  · rw [List.getElem?_eq_none (by simp; omega), List.getElem?_eq_none (by simp; omega)]

/-- An array with room for the nodes holds them after the first loop, which stays inside it. -/
theorem addAll_spec {a : PollArray} {nodes : List YoPollNode} (hs : a.Sized) (hsmall : a.Small 0)
    (hok : ∀ n, env.nomem n = false) (hroom : nodes.length < 16) :
    ∃ a' touched, a.addAll 0 env nodes = (a', touched, some nodes.length) ∧ InBounds touched ∧
      a'.Sized ∧ a'.Small 0 ∧ (∀ i < nodes.length, i < a'.cap) ∧
        (a'.fds.take nodes.length).map PollFd.asked = nodes.map (fun it => (it.fd, it.evn)) ∧
          nodes.length ≤ a'.fds.length := by
  obtain ⟨hiff, hend⟩ := PollArray.inBounds_addAll hsmall hok nodes
  rw [Nat.zero_add] at hiff hend
  obtain ⟨hfdN, hcap⟩ := hend hroom
  have hin := hiff.mpr hroom
  have hsized : (a.addAll 0 env nodes).1.Sized := by
    rcases PollArray.addAll_sized hs 0 env nodes with ⟨-, -, hsized⟩ | ⟨hno, -⟩
    · exact hsized
    · exact absurd (noFailure hok _ _ _) hno
  generalize hadd : a.addAll 0 env nodes = added at hfdN hcap hin hsized
  obtain ⟨a', touched, fdN⟩ := added
  obtain rfl : fdN = some nodes.length := hfdN
  obtain ⟨hasked, hle⟩ := asked_addAll_zero hs hok hadd
  refine ⟨a', touched, rfl, hin, hsized, ?_, fun i hi => ?_, hasked, hle⟩
  · rcases hcap with hcap | ⟨-, hsame⟩
    · exact .inl ⟨hcap, by omega⟩
    · obtain rfl : a' = a := hsame
      exact hsmall
  · rcases hcap with hcap | ⟨hnil, -⟩
    · rw [hcap]
      omega
    · rw [hnil] at hi
      cases hi

/-- **A poll that has room asks the OS about each node of the list**, stays in the array, and
answers with the first node whose element reports something. -/
theorem poll_spec (h : m.Refines p l) (hs : m.arr.Sized) (hsmall : m.arr.Small 0)
    (hok : ∀ n, ans.nomem n = false) (hroom : l.length < 16) :
    ∃ r, m.poll ans = some r ∧ r.mem.Refines p l ∧ r.mem.arr.Sized ∧ r.mem.arr.Small 0 ∧
      InBounds r.touched ∧ r.asked = some (p.nodes.map fun it => (it.fd, it.evn)) ∧
      ((∃ k it, p.nodes[k]? = some it ∧ (ans.revents k).reports = true ∧
          r.answer = .event it.udata (pollReady (ans.revents k))) ∨
        (r.answer = .error .etimeout ∧
          ∀ k < p.nodes.length, (ans.revents k).reports = false)) := by
  have hlen : p.nodes.length = l.length := by rw [← h.nodes, List.length_map]
  have hgiven : ∀ n, ans.env.nomem n = false := hok
  obtain ⟨a, touched, hadd, hin, hsized, hsmall', hinside, hasked, hle⟩ :=
    addAll_spec hs hsmall hgiven (hlen ▸ hroom : p.nodes.length < 16)
  obtain ⟨f, heq, -, hindex⟩ := m.addAll_eq 0 ans.env l
  rw [h.nodes, hadd] at heq hindex
  rw [hlen] at heq hinside hasked hle
  unfold poll
  rw [h.list, Option.map_some, heq]
  set m₂ : PollMem := { m with arr := a.answered l.length ans.revents, pollfdI := f } with hm₂
  have hrev : ∀ k < l.length,
      (m₂.arr.fds.getD (0 + k) (ans.junk (0 + k))).revents = ans.revents (0 + k) := by
    intro k hk
    have hk' : k < a.fds.length := by omega
    simp [hm₂, PollArray.answered, List.getD_eq_getElem?_getD, hk', hk]
  obtain ⟨hanswer, hlooked⟩ := scan_spec (m := m₂) ans.junk
    (hindex h.isChain.nodup (by simp)) hrev
  refine ⟨_, rfl, ⟨h.links, h.nodes, h.given⟩, ?_, hsmall', ?_, congrArg some hasked, ?_⟩
  · simpa [PollArray.Sized, PollArray.answered] using hsized
  · simp only [inBounds_append]
    refine ⟨⟨hin, fun x hx => ?_⟩, fun x hx => ?_⟩
    · obtain ⟨i, hi, rfl⟩ := List.mem_map.mp hx
      exact hinside i (List.mem_range.mp hi)
    · obtain ⟨hxcap, hlt⟩ := hlooked x hx
      rw [hxcap]
      exact hinside _ (by omega)
  · simp only [Nat.zero_add] at hanswer
    rw [hlen]
    apply hanswer.imp_left
    rintro ⟨k, it, hk, hreports, hevent⟩
    exact ⟨k, m.node it, by rw [← h.nodes, List.getElem?_map, hk]; rfl, hreports, hevent⟩

/-! ## Whole runs -/

variable {calls : List Call} {c : Call}

/-- Another call is the last one, if it is for the descriptor. -/
theorem registered_append (calls : List Call) (c : Call) (fd : Int) :
    registered (calls ++ [c]) fd =
      match c.given fd with
      | some e => if e.mask = .zero then none else some e
      | none => registered calls fd := by
  unfold registered
  rw [List.reverse_append, List.reverse_singleton, List.singleton_append, List.findSome?_cons]
  cases c.given fd with
  | none => rfl
  | some e => simp [Option.filter_some]

/-- The list is sound: its nodes are what is registered, and the array is as large as `fds_cap`
says. -/
def Sound (m : PollMem) (reg : Int → Option Registration) : Prop :=
  ∃ p l, m.Refines p l ∧ p.reg = reg ∧ m.arr.Sized ∧ m.arr.Small 0

/-- In a sound list there is room for fewer than sixteen descriptors. -/
theorem lt_of_roomy (hsmall : m.arr.Small 0) (hlist : m.list = some l)
    (hroom : m.Roomy (.poll ans)) : l.length < 16 := by
  have hlt := hroom l hlist
  rcases hsmall with ⟨hcap, -⟩ | ⟨hcap, -⟩
  · rwa [hcap, grownCap_of_lt (by omega)] at hlt
  · rwa [hcap] at hlt

/-- What is registered are the nodes. -/
theorem reg_eq_some_iff {fd : Int} {e : Registration} :
    p.reg fd = some e ↔ ⟨fd, e.udata, e.mask⟩ ∈ p.nodes := by
  refine ⟨fun h => ?_, fun h => PollNodes.reg_of_mem h⟩
  obtain ⟨it, hit, rfl⟩ := Option.map_eq_some_iff.mp h
  obtain rfl : it.fd = fd := by simpa using List.find?_some hit
  exact List.mem_of_find?_eq_some hit

/-- The call succeeds unless memory runs out. -/
theorem setmask_code (p : PollNodes) (udata : Ptr) (fd : Int) (mask : YoiPlEvnMask) :
    (p.setmask udata fd mask false).2 = .ok := by
  unfold PollNodes.setmask
  by_cases hmask : mask = .zero
  · simp [hmask]
  · by_cases hfd : fd ∈ p.nodes.map YoPollNode.fd <;> simp [hmask, hfd]

/-- A sound list is the documented map. -/
theorem Sound.implements {reg : Int → Option Registration} (h : m.Sound reg) :
    m.Implements reg := by
  obtain ⟨p, l, href, rfl, hs, hsmall⟩ := h
  refine ⟨⟨l, href.list, href.map_fd ▸ p.nodup, fun fd e => ?_⟩, ?_, ?_⟩
  · rw [reg_eq_some_iff, ← href.nodes, List.mem_map]
  · intro udata fd mask addr haddr hfresh
    obtain ⟨m', -, heq, -, -⟩ := refines_setmask href udata fd mask hfresh
    exact ⟨m', by rw [heq, decide_eq_false haddr, setmask_code]⟩
  · intro ans hok hroom
    obtain ⟨r, hr, -, -, -, hin, hasked, hanswer⟩ :=
      poll_spec href hs hsmall hok (lt_of_roomy hsmall href.list hroom)
    refine ⟨r, _, hr, hin, hasked, ?_, fun fd evn => ?_, ?_⟩
    · rw [List.map_map]
      exact p.nodup
    · rw [List.mem_map]
      constructor
      · rintro ⟨it, hit, heq⟩
        obtain ⟨rfl, rfl⟩ := Prod.mk.inj heq
        exact ⟨it.udata, PollNodes.reg_of_mem hit⟩
      · rintro ⟨udata, hreg⟩
        exact ⟨_, reg_eq_some_iff.mp hreg, rfl⟩
    · rcases hanswer with ⟨k, it, hk, hreports, heq⟩ | ⟨heq, hnone⟩
      · rw [heq]
        refine .event (PollNodes.reg_of_mem (List.mem_of_getElem? hk)) ?_ hreports
        rw [List.getElem?_map, hk]
        rfl
      · rw [heq]
        exact .timeout (by simpa using hnone)

/-- The list of a new queue is sound. -/
theorem sound_init (h : system.init m) : m.Sound (registered []) := by
  obtain ⟨hhead, harr, -⟩ := h
  refine ⟨⟨[], List.nodup_nil⟩, [], ⟨⟨fun _ _ => hhead, ?_⟩, rfl, ?_⟩, rfl, ?_, .inr ?_⟩
  · intro i j x _ _ hx
    cases hx
  · intro i hi
    cases hi
  · rw [harr]
    rfl
  · rw [harr]
    exact ⟨rfl, rfl⟩

/-- A call keeps the list sound. -/
theorem Sound.step (h : m.Sound (registered calls)) (halloc : c.Allocates) (hroom : m.Roomy c)
    (hst : system.step m c = some m') : m'.Sound (registered (calls ++ [c])) := by
  obtain ⟨p, l, href, hreg, hs, hsmall⟩ := h
  cases c with
  | setmask udata fd mask addr =>
    simp only [system] at hst
    split at hst
    · cases hst
    · rename_i hfresh
      obtain ⟨m'', l', heq, href', harr⟩ := refines_setmask href udata fd mask hfresh
      rw [decide_eq_false halloc] at heq href'
      rw [heq, Option.map_some, Option.some.injEq] at hst
      subst hst
      refine ⟨_, l', href', ?_, by rwa [harr], by rwa [harr]⟩
      rw [p.reg_setmask, setmask_code, register, if_pos rfl, hreg]
      funext g
      rw [registered_append, Function.update_apply]
      by_cases hg : g = fd
      · simp [Call.given, hg]
      · simp [Call.given, hg, Ne.symm hg]
  | poll ans =>
    obtain ⟨r, hr, href', hs', hsmall', -⟩ :=
      poll_spec href hs hsmall halloc (lt_of_roomy hsmall href.list hroom)
    simp only [system, hr, Option.map_some, Option.some.injEq] at hst
    subst hst
    refine ⟨p, l, href', hreg.trans ?_, hs', hsmall'⟩
    funext fd
    rw [registered_append]
    rfl

/-- What is registered follows the calls. -/
theorem Sound.run {before : List Call} (h : m.Sound (registered before))
    (halloc : ∀ c ∈ calls, c.Allocates) (hroom : system.Along Roomy m calls)
    (hrun : system.run m calls = some m') : m'.Sound (registered (before ++ calls)) := by
  induction calls generalizing m before with
  | nil =>
    obtain rfl := Option.some.inj hrun
    rwa [List.append_nil]
  | cons c calls ih =>
    obtain ⟨t, ht, hrest⟩ := Option.bind_eq_some_iff.mp (System.run_cons ▸ hrun)
    have hstep := h.step (halloc c (List.mem_cons_self ..)) hroom.1 ht
    have hend := ih hstep (fun d hd => halloc d (List.mem_cons_of_mem _ hd)) (hroom.2 t ht) hrest
    rwa [List.append_assoc, List.singleton_append] at hend

/-- **The backend implements the documented map.**  After any calls on a new queue, all allocations
succeeding and each poll having room for the descriptors, the list has one node for each
descriptor whose last call had a nonzero mask, with that mask and its user data, and a poll asks
the OS for these and answers with one of them or, if nothing is reported, `YO_ETIMEOUT`. -/
theorem implements_registered (hinit : system.init m) (halloc : ∀ c ∈ calls, c.Allocates)
    (hroom : system.Along Roomy m calls) (hrun : system.run m calls = some m') :
    m'.Implements (registered calls) :=
  ((sound_init hinit).run halloc hroom hrun).implements

/-- A queue that `yoi_queue_impl_init` made. -/
def start : PollMem where
  store := ⟨fun _ => NULL, fun _ => NULL, fun _ => .head ()⟩
  node _ := ⟨0, NULL, .zero⟩
  pollfdI _ := 0
  arr := ⟨[], 0⟩
  given := []

/-- Two descriptors are registered, the first is removed, and the other is polled. -/
def pollOther : List Call :=
  [.setmask 0x20 4 ⟨true, false⟩ 0x1000, .setmask 0x28 5 ⟨false, true⟩ 0x1040,
    .setmask NULL 4 .zero 0x1080, .poll ⟨fun _ => false, fun _ => .zero, fun _ => .idle⟩]

theorem implements_pollOther :
    ∃ m, system.run start pollOther = some m ∧ m.Implements (registered pollOther) := by
  refine ⟨_, rfl, implements_registered (m := start) ⟨rfl, rfl, rfl⟩ ?_ ?_ rfl⟩
  · simp [pollOther, Call.Allocates, NULL]
  · refine ⟨trivial, fun _ h => ?_⟩
    cases h
    refine ⟨trivial, fun _ h => ?_⟩
    cases h
    refine ⟨trivial, fun _ h => ?_⟩
    cases h
    refine ⟨fun l hl => ?_, fun _ _ => trivial⟩
    obtain rfl : [0x1040] = l := Option.some.inj hl
    exact (by decide : 1 < 16)

end PollMem

end Yaooi
