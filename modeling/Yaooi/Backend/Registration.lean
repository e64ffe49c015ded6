import Yaooi.Queue.Pollish

/-!
# Registration on the two backends

`yoi_pl_impl_setmask` of `src/unix/epoll.c`, which keeps the registrations in the kernel's interest
list, and of `src/unix/poll.c`, which keeps a list of nodes.  `src/unix/pollish.h` documents what
both are to do, and `register` says the same.

* `register_epollSetmask` and `PollNodes.reg_setmask`: each backend does what is documented when it
  answers `YO_OK`, and nothing otherwise.
-/

namespace Yaooi

/-! ## `src/unix/epoll.c` -/

/-- The kernel's interest list of a queue, by descriptor, without the timer. -/
abbrev Interest := Int → Option Registration

/-- What `epoll_ctl` answers: that it is done, that it found no entry, or another error, as
`yoi_unix_conv_errno` converts it. -/
inductive CtlAnswer where
  | done
  | enoent
  | error (code : YoCode)
  deriving DecidableEq, Repr

namespace Interest

/-- `EPOLL_CTL_MOD`, and with no new entry `EPOLL_CTL_DEL`.  An error leaves the list as it is. -/
def change (l : Interest) (fd : Int) (entry : Option Registration) (fault : Option YoCode) :
    Interest × CtlAnswer :=
  match fault with
  | some code => (l, .error code)
  | none => if l fd = none then (l, .enoent) else (Function.update l fd entry, .done)

/-- `EPOLL_CTL_ADD` of an entry that is not there.  An error leaves the list as it is. -/
def add (l : Interest) (fd : Int) (entry : Registration) (fault : Option YoCode) :
    Interest × CtlAnswer :=
  match fault with
  | some code => (l, .error code)
  | none => (Function.update l fd (some entry), .done)

/-- `yoi_pl_impl_setmask` of the epoll backend: the interest list and the code.  The kernel may
refuse the change of an entry and its addition. -/
def setmask (l : Interest) (udata : Ptr) (fd : Int) (mask : YoiPlEvnMask)
    (faultChange faultAdd : Option YoCode) : Interest × YoCode :=
  if mask = .zero then
    match l.change fd none faultChange with
    | (l, .done) => (l, .ok)
    | (l, .enoent) => (l, .ok)
    | (l, .error code) => (l, code)
  else
    match l.change fd (some ⟨mask, udata⟩) faultChange with
    | (l, .done) => (l, .ok)
    | (l, .enoent) =>
      match l.add fd ⟨mask, udata⟩ faultAdd with
      | (l, .done) => (l, .ok)
      | (l, .enoent) => (l, .ok)
      | (l, .error code) => (l, code)
    | (l, .error code) => (l, code)

/-- **The epoll backend registers as documented**, no error being converted to `YO_OK`. -/
theorem register_setmask (l : Interest) (udata : Ptr) (fd : Int) (mask : YoiPlEvnMask)
    {faultChange faultAdd : Option YoCode} (hchange : faultChange ≠ some .ok)
    (hadd : faultAdd ≠ some .ok) :
    (l.setmask udata fd mask faultChange faultAdd).1 =
      register l fd mask udata (l.setmask udata fd mask faultChange faultAdd).2 := by
  have hsame : l fd = none → Function.update l fd none = l := by
    intro h
    rw [← h, Function.update_eq_self]
  unfold setmask register
  by_cases hmask : mask = .zero
  · cases faultChange with
    | some code =>
      have hne : code ≠ .ok := fun e => hchange (e ▸ rfl)
      simp [hmask, change, hne]
    | none =>
      by_cases hl : l fd = none
      · simp [hmask, change, hl, hsame hl]
      · simp [hmask, change, hl]
  · cases faultChange with
    | some code =>
      have hne : code ≠ .ok := fun e => hchange (e ▸ rfl)
      simp [hmask, change, hne]
    | none =>
      by_cases hl : l fd = none
      · cases faultAdd with
        | some code =>
          have hne : code ≠ .ok := fun e => hadd (e ▸ rfl)
          simp [hmask, change, hl, add, hne]
        | none => simp [hmask, change, hl, add]
      · simp [hmask, change, hl]

end Interest

/-! ## `src/unix/poll.c` -/

/-- `struct yo_poll_node`; its place in the list stands for `next`, `slot` and `pollfd_i`. -/
structure YoPollNode where
  fd : Int
  udata : Ptr
  evn : YoiPlEvnMask
  deriving DecidableEq, Repr

/-- The list from `queue->impl.head`, with at most one node for a descriptor. -/
structure PollNodes where
  nodes : List YoPollNode
  nodup : (nodes.map YoPollNode.fd).Nodup

namespace PollNodes

/-- What the list registers. -/
def reg (l : PollNodes) (fd : Int) : Option Registration :=
  (l.nodes.find? (·.fd = fd)).map fun i => ⟨i.evn, i.udata⟩

/-- Each node is registered, as no other has its descriptor. -/
theorem reg_of_mem {l : PollNodes} {i : YoPollNode} (h : i ∈ l.nodes) :
    l.reg i.fd = some ⟨i.evn, i.udata⟩ := by
  cases hfind : l.nodes.find? (·.fd = i.fd) with
  | none => simpa using List.find?_eq_none.mp hfind i h
  | some k =>
    have hfd : k.fd = i.fd := by simpa using List.find?_some hfind
    obtain rfl := List.inj_on_of_nodup_map l.nodup (List.mem_of_find?_eq_some hfind) h hfd
    rw [reg, hfind]
    rfl

/-- Every node is one of these registrations. -/
def Within (l : PollNodes) (reg : Int → Option Registration) : Prop :=
  ∀ i ∈ l.nodes, reg i.fd = some ⟨i.evn, i.udata⟩

/-- The first node of the descriptor gets the mask and the user data. -/
def assign (fd : Int) (evn : YoiPlEvnMask) (udata : Ptr) : List YoPollNode → List YoPollNode
  | [] => []
  | i :: l =>
    if i.fd = fd then { i with evn := evn, udata := udata } :: l
    else i :: assign fd evn udata l

theorem map_assign (fd : Int) (evn : YoiPlEvnMask) (udata : Ptr) (l : List YoPollNode) :
    (assign fd evn udata l).map YoPollNode.fd = l.map YoPollNode.fd := by
  induction l with
  | nil => rfl
  | cons i l ih =>
    unfold assign
    split
    · rfl
    · simp [ih]

/-- `yoi_pl_impl_setmask` of the poll backend: the list and the code.  `malloc` may fail. -/
def setmask (l : PollNodes) (udata : Ptr) (fd : Int) (mask : YoiPlEvnMask) (nomem : Bool) :
    PollNodes × YoCode :=
  if mask = .zero then
    (⟨l.nodes.eraseP (·.fd = fd), l.nodup.sublist (l.nodes.eraseP_sublist.map _)⟩, .ok)
  else if h : fd ∈ l.nodes.map YoPollNode.fd then
    (⟨assign fd mask udata l.nodes, (map_assign ..).symm ▸ l.nodup⟩, .ok)
  else if nomem then (l, .enomem)
  else (⟨⟨fd, udata, mask⟩ :: l.nodes, List.nodup_cons.mpr ⟨h, l.nodup⟩⟩, .ok)

/-- Assigning changes what is found for the descriptor, if anything is. -/
theorem find_assign (fd g : Int) (evn : YoiPlEvnMask) (udata : Ptr) (l : List YoPollNode) :
    ((assign fd evn udata l).find? (·.fd = g)).map (fun i => Registration.mk i.evn i.udata) =
      if g = fd ∧ fd ∈ l.map YoPollNode.fd then some ⟨evn, udata⟩
      else (l.find? (·.fd = g)).map fun i => ⟨i.evn, i.udata⟩ := by
  induction l with
  | nil => simp [assign]
  | cons i l ih =>
    unfold assign
    by_cases hi : i.fd = fd
    · by_cases hg : g = fd
      · simp [hi, hg]
      · simp [hi, hg, Ne.symm hg]
    · by_cases hg : i.fd = g
      · have hgf : g ≠ fd := fun e => hi (hg.trans e)
        simp [hg, hgf]
      · rw [if_neg hi, List.find?_cons_of_neg (by simpa using hg), ih,
          List.find?_cons_of_neg (by simpa using hg)]
        simp [Ne.symm hi]

/-- Erasing the node of a descriptor leaves none for it. -/
theorem find_eraseP (fd g : Int) {l : List YoPollNode} (h : (l.map YoPollNode.fd).Nodup) :
    (l.eraseP (·.fd = fd)).find? (·.fd = g) = if g = fd then none else l.find? (·.fd = g) := by
  induction l with
  | nil => simp
  | cons i l ih =>
    obtain ⟨hnot, hnd⟩ := List.nodup_cons.mp h
    by_cases hi : i.fd = fd
    · rw [List.eraseP_cons_of_pos (by simpa using hi)]
      by_cases hg : g = fd
      · rw [if_pos hg, List.find?_eq_none]
        intro k hk
        have hne : k.fd ≠ i.fd := fun e => hnot (List.mem_map.mpr ⟨k, hk, e⟩)
        simpa [hg, ← hi] using hne
      · rw [if_neg hg, List.find?_cons_of_neg (by simpa [hi] using Ne.symm hg)]
    · rw [List.eraseP_cons_of_neg (by simpa using hi)]
      by_cases hg : i.fd = g
      · have hgf : g ≠ fd := fun e => hi (hg.trans e)
        rw [List.find?_cons_of_pos (by simpa using hg), List.find?_cons_of_pos (by simpa using hg),
          if_neg hgf]
      · rw [List.find?_cons_of_neg (by simpa using hg), ih hnd,
          List.find?_cons_of_neg (by simpa using hg)]

/-- **The poll backend registers as documented.** -/
theorem reg_setmask (l : PollNodes) (udata : Ptr) (fd : Int) (mask : YoiPlEvnMask)
    (nomem : Bool) :
    (l.setmask udata fd mask nomem).1.reg =
      register l.reg fd mask udata (l.setmask udata fd mask nomem).2 := by
  funext g
  unfold setmask register
  by_cases hmask : mask = .zero
  · simp only [hmask, if_true, reg, find_eraseP fd g l.nodup, Function.update_apply]
    split <;> rfl
  · by_cases hfd : fd ∈ l.nodes.map YoPollNode.fd
    · simp only [hmask, hfd, if_false, if_true, dif_pos, reg, find_assign, Function.update_apply,
        and_true]
    · cases nomem with
      | true => simp [hmask, hfd, YoCode.enomem, YoCode.ok]
      | false =>
        by_cases hg : g = fd
        · simp [hmask, hfd, reg, hg]
        · simp [hmask, hfd, reg, hg, Ne.symm hg]

end PollNodes

end Yaooi
