import Yaooi.Queue.Counters

/-!
# Handles that share a descriptor

Nothing keeps a program from making several handles for one OS descriptor: `yo_tty_in` does so each
time it is called.  The counters are kept for each handle and the registration for each descriptor,
so a start on one handle replaces what another one has asked for.

`Heap.Served` says that every waiting request is registered, for its direction and in the name of
its handle.  `served_iff` finds out when that holds throughout a run on one queue, with a backend
that registers what it is asked to: each start must find no other handle of its descriptor in use,
and the counter must not overflow; and where the OS drops the registrations of a closed descriptor,
as it does for epoll, none may be closed while another handle waits on it.

What a call on one queue can do is said once, by `Board.shift`; `served_next` and what later files
prove about all calls follow its cases.
-/

namespace Yaooi

open Transition

/-! ## One direction at a time -/

namespace YoFd

/-- The counter of the requests that wait for the same direction as this one. -/
def counter (fd : YoFd) : YoiPlKind → BitVec 32
  | .read | .pread | .accept => fd.readN
  | .write | .pwrite => fd.writeN

variable (fd : YoFd) (i k : YoiPlKind)

theorem counter_inc :
    (fd.inc i).counter k = fd.counter k + one (yoiPlTomask i = yoiPlTomask k) := by
  cases i <;> cases k <;> simp [inc, counter, yoiPlTomask, one]

theorem counter_dec :
    (fd.dec i).counter k = fd.counter k - one (yoiPlTomask i = yoiPlTomask k) := by
  cases i <;> cases k <;> simp [dec, counter, yoiPlTomask, one]

/-- The direction is asked for if its counter is not zero. -/
theorem meets_mask : (yoiPlTomask k).meets fd.mask = (fd.counter k != 0) := by
  cases k <;> simp [YoiPlEvnMask.meets, mask, counter, yoiPlTomask]

end YoFd

namespace Board

/-- The request waits for the same direction. -/
def waits (b : Board) (k : YoiPlKind) (r : YoReqT) : Bool := b.dir r = yoiPlTomask k

/-- Each waiting request is registered with the queue, for its direction and with its handle as user
data. -/
def Served (q : YoQueueT) (l : Ledger) (b : Board) : Prop :=
  ∀ h, l.opened h = true → ∀ r ∈ b.pend h, ∃ e, b.reg q (b.fd h).fd = some e ∧
    (b.dir r).meets e.mask = true ∧ e.udata = h

/-- No other open handle of the same descriptor has requests. -/
def Alone (l : Ledger) (b : Board) (h : YoFdT) : Prop :=
  ∀ g, l.opened g = true → (b.fd g).fd = (b.fd h).fd → g ≠ h → b.pend g = []

/-- The counters tell the numbers of requests, modulo 2³²; if `bounded`, these are below 2³². -/
structure Tally (bounded : Prop) (q : YoQueueT) (l : Ledger) (b : Board) : Prop where
  queueOf : ∀ r, l.live r = true → b.queueOf r = q
  counter : ∀ h, l.opened h = true → ∀ k, (b.fd h).counter k = count32 (b.waits k) (b.pend h)
  small : bounded → ∀ h, l.opened h = true → ∀ k, (b.pend h).countP (b.waits k) < 2 ^ 32

variable {q : YoQueueT} {l l' : Ledger} {b b' : Board} {pos : YoReqT → Place} {r : YoReqT}
  {g h : YoFdT} {f : YoFd → YoFd} {bounded : Prop}

/-- Requests that wait on one descriptor wait on one handle. -/
theorem Served.eq_handle (hs : Served q l b) (hg : l.opened g = true) (hh : l.opened h = true)
    (hfd : (b.fd g).fd = (b.fd h).fd) {x : YoReqT} (hx : x ∈ b.pend g) (hr : r ∈ b.pend h) :
    g = h := by
  obtain ⟨e, he, -, rfl⟩ := hs g hg x hx
  obtain ⟨e', he', -, rfl⟩ := hs h hh r hr
  rw [hfd, he', Option.some.injEq] at he
  rw [he]

/-- The kinds of one direction are counted together. -/
theorem waits_congr {i k : YoiPlKind} (h : yoiPlTomask i = yoiPlTomask k) :
    b.waits i = b.waits k := by
  funext r
  rw [waits, waits, h]

theorem Served.alone (hs : Served q l b) (hh : l.opened h = true) (hr : r ∈ b.pend h) :
    Alone l b h := by
  intro g hg hfd hne
  refine List.eq_nil_iff_forall_not_mem.mpr fun x hx => hne ?_
  exact hs.eq_handle hg hh hfd hx hr

/-- The counter of a direction somebody waits for is not zero. -/
theorem Tally.counter_ne_zero (ht : Tally True q l b) (hh : l.opened h = true) (hr : r ∈ b.pend h) :
    (b.fd h).counter (b.op r).kind ≠ 0 := by
  rw [ht.counter h hh, count32]
  have hpos : 0 < (b.pend h).countP (b.waits (b.op r).kind) :=
    List.countP_pos_iff.mpr ⟨r, hr, by simp [waits, dir]⟩
  have hlt := ht.small trivial h hh (b.op r).kind
  intro hzero
  have := congrArg BitVec.toNat hzero
  simp only [BitVec.toNat_ofNat, Nat.mod_eq_of_lt hlt] at this
  exact hpos.ne' this

/-- A handle that was registered last has all of its requests served. -/
theorem Tally.served_self (ht : Tally True q l b) (hh : l.opened h = true)
    (hreg : b.reg q (b.fd h).fd =
      if (b.fd h).mask = .zero then none else some ⟨(b.fd h).mask, h⟩) (hr : r ∈ b.pend h) :
    ∃ e, b.reg q (b.fd h).fd = some e ∧ (b.dir r).meets e.mask = true ∧ e.udata = h := by
  have hmeets : (b.dir r).meets (b.fd h).mask = true := by
    rw [dir, YoFd.meets_mask]
    simpa using ht.counter_ne_zero hh hr
  have hne : (b.fd h).mask ≠ .zero := by
    intro e
    rw [e] at hmeets
    simp [YoiPlEvnMask.meets, YoiPlEvnMask.zero] at hmeets
  exact ⟨_, hreg.trans (if_neg hne), hmeets, rfl⟩

/-- What changes neither handles nor lists nor registrations changes nothing here. -/
theorem Tally.congr (ht : Tally bounded q l b) (hlive : ∀ r, l'.live r = true → b'.queueOf r = q)
    (hopened : l'.opened = l.opened) (hfd : b'.fd = b.fd) (hpend : b'.pend = b.pend)
    (hop : b'.op = b.op) : Tally bounded q l' b' := by
  have hwaits : b'.waits = b.waits := by
    funext k r
    rw [waits, waits, dir, dir, hop]
  constructor
  · exact hlive
  · rw [hopened, hfd, hpend, hwaits]
    exact ht.counter
  · rw [hopened, hpend, hwaits]
    exact ht.small

theorem Served.congr (hs : Served q l b) (hopened : ∀ h, l'.opened h = true → l.opened h = true)
    (hfd : b'.fd = b.fd) (hpend : b'.pend = b.pend) (hop : b'.op = b.op) (hreg : b'.reg = b.reg) :
    Served q l' b' := by
  intro h hh r hr
  rw [hpend] at hr
  rw [hfd, hreg, dir, hop]
  exact hs h (hopened h hh) r hr

/-! ## Recounting one handle -/

/-- The list and the counters of one handle change together. -/
theorem Tally.recount (ht : Tally bounded q l b) (hlive : ∀ r, l'.live r = true → b'.queueOf r = q)
    (hopened : l'.opened = l.opened) (hfd : b'.fd = Function.update b.fd h (f (b.fd h)))
    (hpend : ∀ g, g ≠ h → b'.pend g = b.pend g)
    (hdir : ∀ g x, l.opened g = true → x ∈ b.pend g → b'.dir x = b.dir x)
    (hcounter : ∀ k, (f (b.fd h)).counter k = count32 (b'.waits k) (b'.pend h))
    (hsmall : bounded → ∀ k, (b'.pend h).countP (b'.waits k) < 2 ^ 32) : Tally bounded q l' b' := by
  have hwaits : ∀ k g x, l.opened g = true → x ∈ b.pend g → b'.waits k x = b.waits k x :=
    fun k g x hg hx => by rw [waits, waits, hdir g x hg hx]
  constructor
  · exact hlive
  · intro g hg k
    rw [hfd]
    by_cases hgh : g = h
    · rw [hgh, Function.update_self, hcounter]
    · rw [Function.update_of_ne hgh, hpend g hgh, ht.counter g (hopened ▸ hg)]
      exact count32_congr fun x hx => (hwaits k g x (hopened ▸ hg) hx).symm
  · intro hb g hg k
    by_cases hgh : g = h
    · rw [hgh]
      exact hsmall hb k
    · rw [hpend g hgh, List.countP_congr fun x hx => by rw [hwaits k g x (hopened ▸ hg) hx]]
      exact ht.small hb g (hopened ▸ hg) k

/-- When the handle is alone, and is registered anew, everybody stays served. -/
theorem Served.recount (hs : Served q l b) (ht : Tally True q l' b') (hh : l.opened h = true)
    (halone : Alone l b h) (hopened : l'.opened = l.opened)
    (hnum : ∀ g, (b'.fd g).fd = (b.fd g).fd)
    (hpend : ∀ g, g ≠ h → b'.pend g = b.pend g)
    (hdir : ∀ g x, l.opened g = true → x ∈ b.pend g → b'.dir x = b.dir x)
    (hreg : b'.reg q = Function.update (b.reg q) (b.fd h).fd
      (if (b'.fd h).mask = .zero then none else some ⟨(b'.fd h).mask, h⟩)) : Served q l' b' := by
  intro g hg r hr
  by_cases hgh : g = h
  · subst hgh
    refine ht.served_self hg ?_ hr
    rw [hreg, hnum, Function.update_self]
  · rw [hpend g hgh] at hr
    have hfd : (b.fd g).fd ≠ (b.fd h).fd := by
      intro e
      rw [halone g (hopened ▸ hg) e hgh] at hr
      cases hr
    rw [hreg, hnum, Function.update_of_ne hfd, hdir g r (hopened ▸ hg) hr]
    exact hs g (hopened ▸ hg) r hr

/-! ## A start -/

/-- The board after a start that waits on the handle. -/
def enlisted (b : Board) (r : YoReqT) (h : YoFdT) (op : YoaOp) : Board :=
  { b.counted r h op .ok with pend := Function.update b.pend h (r :: b.pend h) }

section Start

variable {op : YoaOp}

theorem reg_enlisted (hq : b.queueOf r = q) :
    (b.enlisted r h op).reg q = Function.update (b.reg q) (b.fd h).fd
      (if ((b.enlisted r h op).fd h).mask = .zero then none
        else some ⟨((b.enlisted r h op).fd h).mask, h⟩) := by
  simp [enlisted, counted, Board.recount, setmask, register, hq]

theorem fd_enlisted : (b.enlisted r h op).fd = Function.update b.fd h ((b.fd h).inc op.kind) := rfl

theorem num_enlisted : ((b.enlisted r h op).fd g).fd = (b.fd g).fd := by
  rw [fd_enlisted, Function.update_apply]
  split
  · rename_i hg
    rw [hg, YoFd.fd_inc]
  · rfl

theorem pend_enlisted : (b.enlisted r h op).pend h = r :: b.pend h := by simp [enlisted]

theorem pend_enlisted_of_ne (hg : g ≠ h) : (b.enlisted r h op).pend g = b.pend g := by
  simp [enlisted, hg]

theorem dir_enlisted : (b.enlisted r h op).dir r = yoiPlTomask op.kind := by
  simp [enlisted, dir]

theorem dir_enlisted_of_ne {x : YoReqT} (hx : x ≠ r) : (b.enlisted r h op).dir x = b.dir x := by
  simp [enlisted, dir, hx]

/-- The counter goes up by one, and keeps telling the number unless it overflows. -/
theorem Tally.enlisted (ht : Tally bounded q l b) (hh : l.opened h = true)
    (hlive : ∀ x, l'.live x = true → b.queueOf x = q) (hopened : l'.opened = l.opened)
    (hnot : ∀ g, l.opened g = true → r ∉ b.pend g)
    (hroom : bounded → (b.fd h).counter op.kind ≠ BitVec.allOnes 32) :
    Tally bounded q l' (b.enlisted r h op) := by
  have hkeep : ∀ g x, l.opened g = true → x ∈ b.pend g →
      (b.enlisted r h op).dir x = b.dir x :=
    fun g x hg hx => dir_enlisted_of_ne fun e => hnot g hg (e ▸ hx)
  have hwaits : ∀ k, ∀ x ∈ b.pend h, (b.enlisted r h op).waits k x = b.waits k x :=
    fun k x hx => by rw [waits, waits, hkeep h x hh hx]
  refine ht.recount (f := (·.inc op.kind)) (h := h) hlive hopened fd_enlisted
    (fun g hg => pend_enlisted_of_ne hg) hkeep (fun k => ?_) fun hb k => ?_
  · rw [pend_enlisted, count32_cons, YoFd.counter_inc, ht.counter h hh,
      count32_congr (hwaits k), waits, dir_enlisted]
  · rw [pend_enlisted, List.countP_cons, waits, dir_enlisted,
      List.countP_congr fun x hx => by rw [hwaits k x hx]]
    have hlt := ht.small hb h hh k
    by_cases hk : yoiPlTomask op.kind = yoiPlTomask k
    · have hne : (b.pend h).countP (b.waits k) ≠ 2 ^ 32 - 1 := fun e => hroom hb ?_
      · simp only [hk, decide_true, if_true]
        omega
      · rw [ht.counter h hh, count32, waits_congr hk, e]
        rfl
    · simpa [hk] using hlt

/-- After a start everybody is served, if and only if the handle was alone and the counter had
room. -/
theorem served_enlisted_iff (ht : Tally True q l b) (hs : Served q l b) (hh : l.opened h = true)
    (hq : b.queueOf r = q) (hlive : ∀ x, l'.live x = true → b.queueOf x = q)
    (hopened : l'.opened = l.opened) (hnot : ∀ g, l.opened g = true → r ∉ b.pend g) :
    Served q l' (b.enlisted r h op) ↔
      Alone l b h ∧ (b.fd h).counter op.kind ≠ BitVec.allOnes 32 := by
  have hkeep : ∀ g x, l.opened g = true → x ∈ b.pend g →
      (b.enlisted r h op).dir x = b.dir x :=
    fun g x hg hx => dir_enlisted_of_ne fun e => hnot g hg (e ▸ hx)
  constructor
  · intro hs'
    have hr : r ∈ (b.enlisted r h op).pend h := by simp [pend_enlisted]
    have hh' : l'.opened h = true := hopened ▸ hh
    constructor
    · intro g hg hfd hne
      have halone := hs'.alone hh' hr g (hopened ▸ hg) (by rw [num_enlisted, num_enlisted, hfd]) hne
      rwa [pend_enlisted_of_ne hne] at halone
    · -- otherwise the counter is zero now, and nobody asks for the direction
      intro hfull
      obtain ⟨e, he, hmeets, -⟩ := hs' h hh' r hr
      rw [reg_enlisted hq, num_enlisted, Function.update_self] at he
      split at he
      · cases he
      · obtain rfl := Option.some.inj he
        rw [dir_enlisted, YoFd.meets_mask, fd_enlisted, Function.update_self, YoFd.counter_inc,
          hfull] at hmeets
        simp [YoFd.one] at hmeets
  · rintro ⟨halone, hroom⟩
    exact hs.recount (ht.enlisted hh hlive hopened hnot fun _ => hroom) hh halone hopened
      (fun g => num_enlisted) (fun g hg => pend_enlisted_of_ne hg) hkeep (reg_enlisted hq)

end Start

/-! ## A stop and a close -/

theorem fd_stop (ans : YoCode) :
    (b.stop r h ans).fd = Function.update b.fd h ((b.fd h).dec (b.op r).kind) := rfl

theorem num_stop (ans : YoCode) : ((b.stop r h ans).fd g).fd = (b.fd g).fd := by
  rw [fd_stop, Function.update_apply]
  split
  · rename_i hg
    rw [hg, YoFd.fd_dec]
  · rfl

/-- The counter goes down by one. -/
theorem Tally.stop (ht : Tally bounded q l b) (hh : l.opened h = true) (hr : r ∈ b.pend h)
    (hlive : ∀ x, l'.live x = true → b.queueOf x = q) (hopened : l'.opened = l.opened) :
    Tally bounded q l' (b.stop r h .ok) := by
  have hpendh : (b.stop r h .ok).pend h = (b.pend h).erase r := by simp
  refine ht.recount (f := (·.dec (b.op r).kind)) (h := h) hlive hopened (fd_stop .ok)
    (fun g hg => by simp [hg]) (fun _ _ _ _ => rfl) (fun k => ?_) fun hb k => ?_
  · rw [hpendh, YoFd.counter_dec, ht.counter h hh]
    exact (count32_erase hr).symm
  · rw [hpendh]
    exact (List.erase_sublist.countP_le).trans_lt (ht.small hb h hh k)

theorem reg_stop (hq : b.queueOf r = q) :
    (b.stop r h .ok).reg q = Function.update (b.reg q) (b.fd h).fd
      (if ((b.stop r h .ok).fd h).mask = .zero then none
        else some ⟨((b.stop r h .ok).fd h).mask, h⟩) := by
  simp [Board.stop, Board.recount, setmask, register, hq]

/-- Stopping leaves everybody served. -/
theorem Served.stop (hs : Served q l b) (ht : Tally True q l b) (hh : l.opened h = true)
    (hr : r ∈ b.pend h) (hq : b.queueOf r = q)
    (hlive : ∀ x, l'.live x = true → b.queueOf x = q) (hopened : l'.opened = l.opened) :
    Served q l' (b.stop r h .ok) := by
  refine hs.recount (ht.stop hh hr hlive hopened) hh (hs.alone hh hr) hopened
    (fun g => num_stop .ok) (fun g hg => by simp [hg]) (fun _ _ _ _ => rfl) (reg_stop hq)

/-- The OS drops the registrations of a descriptor. -/
def drop (b : Board) (fd : Int) : Board :=
  { b with reg := fun q => Function.update (b.reg q) fd none }

/-- What a call does to the board, with the descriptor of a handle that owns it closed. -/
def next (drops : Bool) (b : Board) (c : Call) : Board :=
  match c with
  | .close h _ =>
    if drops && (b.fd h).owned then (b.exec c).1.drop (b.fd h).fd else (b.exec c).1
  | _ => (b.exec c).1

section Close

variable {ans : YoReqT → YoCode} {drops : Bool}

/-- What stays of the board when a handle is closed. -/
theorem frame_next_close (b : Board) (h : YoFdT) (ans : YoReqT → YoCode) (drops : Bool) :
    (b.next drops (.close h ans)).queueOf = b.queueOf ∧
      (b.next drops (.close h ans)).op = b.op ∧ (b.next drops (.close h ans)).fd = b.fd ∧
        (b.next drops (.close h ans)).pend = b.pend := by
  obtain ⟨hqueue, hop, hfd, hpend⟩ := b.frame_cancelAll h ans (b.pend h)
  rw [← close_eq_cancelAll] at hqueue hop hfd hpend
  unfold next
  dsimp only
  split <;> exact ⟨hqueue, hop, hfd, hpend⟩

/-- The registrations after a close. -/
theorem reg_closed (b : Board) (h : YoFdT) (ans : YoReqT → YoCode) (drops : Bool) (q : YoQueueT)
    (fd : Int) :
    (b.next drops (.close h ans)).reg q fd =
      if fd = (b.fd h).fd ∧ ((drops && (b.fd h).owned) = true ∨
        ∃ r ∈ b.pend h, b.queueOf r = q ∧ ans r = .ok) then none else b.reg q fd := by
  have hregs := b.reg_cancelAll h ans (b.pend h) q fd
  rw [← close_eq_cancelAll] at hregs
  simp only [Board.next, Board.exec]
  by_cases hdrop : (drops && (b.fd h).owned) = true
  · simp only [hdrop, if_true, drop, Function.update_apply, hregs]
    by_cases hfd : fd = (b.fd h).fd <;> simp [hfd]
  · simpa [hdrop] using hregs

/-- The ready lists after a close. -/
theorem ready_closed (b : Board) (h : YoFdT) (ans : YoReqT → YoCode) (drops : Bool)
    (q : YoQueueT) :
    (b.next drops (.close h ans)).ready q =
      ((b.pend h).filter (b.queueOf · = q)).reverse.map (·, .ecanceled) ++ b.ready q := by
  rw [← b.ready_cancelAll h ans (b.pend h) q, ← close_eq_cancelAll]
  simp only [Board.next, Board.exec]
  split <;> rfl

/-- The registrations, where all requests are the queue's and the backend answers `YO_OK`. -/
theorem reg_next_close (drops : Bool) (hans : ∀ r, ans r = .ok)
    (hq : ∀ r ∈ b.pend h, b.queueOf r = q) (fd : Int) :
    (b.next drops (.close h ans)).reg q fd =
      if (b.pend h ≠ [] ∨ (drops && (b.fd h).owned) = true) ∧ fd = (b.fd h).fd then none
      else b.reg q fd := by
  simp only [reg_closed, InStep.exists_reached_iff hans hq]
  simp only [and_comm, or_comm]

theorem Tally.close (drops : Bool) (ht : Tally bounded q l b)
    (hlive : ∀ r, l'.live r = true → b.queueOf r = q)
    (hopened : ∀ g, l'.opened g = true → l.opened g = true) :
    Tally bounded q l' (b.next drops (.close h ans)) := by
  obtain ⟨hqueue, hop, hfd, hpend⟩ := frame_next_close b h ans drops
  have hwaits : (b.next drops (.close h ans)).waits = b.waits := by
    funext k r
    rw [waits, waits, dir, dir, hop]
  constructor
  · rw [hqueue]
    exact hlive
  · rw [hfd, hpend, hwaits]
    exact fun g hg => ht.counter g (hopened g hg)
  · rw [hpend, hwaits]
    exact fun hb g hg => ht.small hb g (hopened g hg)

/-- After a close everybody is served, if and only if nobody else waits on a descriptor that was
closed and dropped. -/
theorem served_close_iff (hs : Served q l b) (hans : ∀ r, ans r = .ok) (hh : l.opened h = true)
    (hq : ∀ r ∈ b.pend h, b.queueOf r = q)
    (hopened : ∀ g, l'.opened g = true ↔ l.opened g = true ∧ g ≠ h) :
    Served q l' (b.next drops (.close h ans)) ↔
      ((drops && (b.fd h).owned) = true → Alone l b h) := by
  obtain ⟨-, hop, hfd, hpend⟩ := frame_next_close b h ans drops
  have hreg := reg_next_close drops hans hq
  constructor
  · intro hs' hdrop g hg hnum hne
    refine List.eq_nil_iff_forall_not_mem.mpr fun x hx => ?_
    obtain ⟨e, he, -⟩ := hs' g ((hopened g).mpr ⟨hg, hne⟩) x (by rw [hpend]; exact hx)
    rw [hreg, hfd, if_pos ⟨.inr hdrop, hnum⟩] at he
    cases he
  · intro halone g hg r hr
    obtain ⟨hg, hne⟩ := (hopened g).mp hg
    rw [hpend] at hr
    have hnot : ¬((b.pend h ≠ [] ∨ (drops && (b.fd h).owned) = true) ∧
        (b.fd g).fd = (b.fd h).fd) := by
      rintro ⟨hwait | hdrop, hnum⟩
      · obtain ⟨x, hx⟩ := List.exists_mem_of_ne_nil _ hwait
        exact hne (hs.eq_handle hg hh hnum hr hx)
      · rw [halone hdrop g hg hnum hne] at hr
        cases hr
    rw [hreg, hfd, if_neg hnot, dir, hop]
    exact hs g hg r hr

end Close

/-! ## Every call -/

section FdNew

variable {fd : Int} {owned : Bool}

/-- A new handle has no requests. -/
theorem Tally.fdNew (ht : Tally bounded q l b)
    (hold : ∀ g, (l.after (.fdNew h fd owned) .done).opened g = true → g ≠ h →
      l.opened g = true) :
    Tally bounded q (l.after (.fdNew h fd owned) .done) (b.exec (.fdNew h fd owned)).1 := by
  have hwaits : (b.exec (.fdNew h fd owned)).1.waits = b.waits := rfl
  constructor
  · exact ht.queueOf
  · intro g hg k
    rw [hwaits]
    by_cases hgh : g = h
    · subst hgh
      cases k <;> simp [exec, YoFd.counter, count32]
    · simpa [exec, hgh] using ht.counter g (hold g hg hgh) k
  · intro hb g hg k
    rw [hwaits]
    by_cases hgh : g = h
    · simp [exec, hgh]
    · simpa [exec, hgh] using ht.small hb g (hold g hg hgh) k

theorem Served.fdNew (hs : Served q l b)
    (hold : ∀ g, (l.after (.fdNew h fd owned) .done).opened g = true → g ≠ h →
      l.opened g = true) :
    Served q (l.after (.fdNew h fd owned) .done) (b.exec (.fdNew h fd owned)).1 := by
  intro g hg r hr
  by_cases hgh : g = h
  · simp [exec, hgh] at hr
  · simp only [exec, Function.update_of_ne hgh] at hr ⊢
    exact hs g (hold g hg hgh) r hr

end FdNew

/-- The condition on a call: a start finds its handle alone, and room in the counter; and a
descriptor is not closed, where that drops its registration, while another handle waits on it. -/
def Lone (drops : Bool) (l : Ledger) (b : Board) : Call → Prop
  | .start _ h op _ _ => Heap.yoiUnixIsfd (b.fd h) = true →
      Alone l b h ∧ (b.fd h).counter op.kind ≠ BitVec.allOnes 32
  | .close h _ => (drops && (b.fd h).owned) = true → Alone l b h
  | _ => True

end Board

/-- The run is on the queue `q` only, and `yoi_pl_impl_setmask` always answers `YO_OK`. -/
def SharedQueue (q : YoQueueT) : Call → Prop
  | .reqNew _ k => k = q
  | .start _ _ _ ans _ => ans = .ok
  | .close _ ans => ∀ r, ans r = .ok
  | .poll k env => k = q ∧ env.ans = .ok
  | _ => True

namespace Board

variable {q : YoQueueT} {l : Ledger} {b : Board} {pos : YoReqT → Place} {c : Call} {g h : YoFdT}

/-- What a call on the queue `q` can do to the handles, the requests that wait on them, and the
registrations. -/
inductive Shift (q : YoQueueT) (l : Ledger) (b : Board) (c : Call) : Prop
  | quiet (hlone : ∀ drops, Lone drops l b c) (hnext : ∀ drops, b.next drops c = (b.exec c).1)
      (hlive : ∀ r, (l.after c (b.exec c).2).live r = true → (b.exec c).1.queueOf r = q)
      (hopened : (l.after c (b.exec c).2).opened = l.opened) (hfd : (b.exec c).1.fd = b.fd)
      (hpend : (b.exec c).1.pend = b.pend) (hop : (b.exec c).1.op = b.op)
      (hreg : (b.exec c).1.reg = b.reg)
  | fdNew (h : YoFdT) (fd : Int) (owned : Bool) (hc : c = .fdNew h fd owned)
      (hnew : l.opened h = false)
  | enlist (r : YoReqT) (h : YoFdT) (op : YoaOp) (res : YoCode) (hc : c = .start r h op .ok res)
      (hfd : Heap.yoiUnixIsfd (b.fd h) = true) (hh : l.opened h = true) (hr : b.queueOf r = q)
      (hnot : ∀ g, l.opened g = true → r ∉ b.pend g)
      (hexec : b.exec c = (b.enlisted r h op, .started true .ok none))
  | close (h : YoFdT) (ans : YoReqT → YoCode) (hc : c = .close h ans) (hh : l.opened h = true)
      (hans : ∀ r, ans r = .ok) (hr : ∀ r ∈ b.pend h, b.queueOf r = q)
  | stop (r : YoReqT) (h : YoFdT) (hlone : ∀ drops, Lone drops l b c)
      (hnext : ∀ drops, b.next drops c = (b.exec c).1) (hh : l.opened h = true) (hr : r ∈ b.pend h)
      (hq : b.queueOf r = q) (hlive : (l.after c (b.exec c).2).live = l.live)
      (hopened : (l.after c (b.exec c).2).opened = l.opened)
      (hexec : (b.exec c).1 = b.stop r h .ok)

/-- **Every call does one of these.** -/
theorem shift (hqueue : ∀ r, l.live r = true → b.queueOf r = q) (hp : Placed l b pos)
    (hc : c.allowed l = true) (hone : SharedQueue q c) : Shift q l b c := by
  have waiting : ∀ h, l.opened h = true → ∀ r ∈ b.pend h, b.queueOf r = q := fun h hh r hr =>
    hqueue r (hp.live r (by simp [(hp.pend h r hh).mp hr]))
  cases c with
  | reqNew r k =>
    obtain rfl : k = q := hone
    refine .quiet (fun _ => trivial) (fun _ => rfl) (fun x hx => ?_) rfl rfl rfl rfl rfl
    by_cases hxr : x = r
    · simp [exec, hxr]
    · simpa [exec, hxr] using hqueue x (by simpa [Ledger.after, hxr] using hx)
  | reqFree r =>
    refine .quiet (fun _ => trivial) (fun _ => rfl) (fun x hx => hqueue x ?_) rfl rfl rfl rfl rfl
    by_cases hxr : x = r
    · simp [Ledger.after, hxr] at hx
    · simpa [Ledger.after, hxr] using hx
  | fdNew h fd owned =>
    simp only [Call.allowed, Bool.and_eq_true, Bool.not_eq_true'] at hc
    exact .fdNew h fd owned rfl hc.1
  | start r h op ans res =>
    obtain rfl : ans = .ok := hone
    simp only [Call.allowed, Bool.and_eq_true, Bool.not_eq_true'] at hc
    obtain ⟨⟨hlive, hbusy⟩, hh⟩ := hc
    have hidle := hp.idle_of_not_busy hbusy
    obtain ⟨hfd, hexec⟩ | ⟨-, hans, -⟩ | ⟨hfd, -, hexec⟩ := b.exec_start r h op .ok res
    · refine .quiet (fun _ => ?_) (fun _ => rfl) ?_ ?_ ?_ ?_ ?_ ?_ <;> try rw [hexec]
      · simp [Lone, hfd]
      · exact hqueue
      · rfl
    · exact absurd hans (by decide)
    · exact .enlist r h op res rfl hfd hh (hqueue r hlive)
        (fun g hg => hp.not_mem_pend (by simp [hidle]) hg) hexec
  | exec r | finish r code =>
    exact .quiet (fun _ => trivial) (fun _ => rfl) hqueue rfl rfl rfl rfl rfl
  | close h ans => exact .close h ans rfl hc hone (waiting h hc)
  | poll k env =>
    obtain ⟨r, code, t, -, hexec⟩ | ⟨h, mask, r, -, hev, hne, hpick, hexec⟩ |
      ⟨-, -, step, hexec, hstep⟩ := b.exec_poll k env
    · refine .quiet (fun _ => trivial) (fun _ => rfl) ?_ ?_ ?_ ?_ ?_ ?_ <;> rw [hexec]
      · exact hqueue
      · rfl
    · have hh := Placed.opened_of_event hc hev hne
      have hr : r ∈ b.pend h := List.mem_of_find?_eq_some hpick
      refine .stop r h (fun _ => trivial) (fun _ => rfl) hh hr (waiting h hh r hr) ?_ ?_ ?_ <;>
        rw [hexec]
      · rfl
      · rfl
      · rw [hone.2]
    · cases step with
      | returned r code ran => exact absurd rfl (hstep r code ran)
      | again | failed =>
        refine .quiet (fun _ => trivial) (fun _ => rfl) ?_ ?_ ?_ ?_ ?_ ?_ <;> rw [hexec]
        · exact hqueue
        · rfl

/-- A new handle is the only one that was not open before. -/
theorem opened_fdNew {fd : Int} {owned : Bool}
    (hg : (l.after (.fdNew h fd owned) .done).opened g = true) (hne : g ≠ h) :
    l.opened g = true := by
  simpa [Ledger.after, hne] using hg

theorem opened_close {ans : YoReqT → YoCode} :
    (l.after (.close h ans) .done).opened g = true ↔ l.opened g = true ∧ g ≠ h := by
  by_cases hg : g = h <;> simp [Ledger.after, hg]

/-- **One call** keeps everybody served if and only if it meets the condition, and the counters
right as long as it does. -/
theorem served_next (drops : Bool) (ht : Tally True q l b) (hs : Served q l b) (hp : Placed l b pos)
    (hc : c.allowed l = true) (hone : SharedQueue q c) :
    (Served q (l.after c (b.exec c).2) (b.next drops c) ↔ Lone drops l b c) ∧
      (Served q (l.after c (b.exec c).2) (b.next drops c) →
        Tally True q (l.after c (b.exec c).2) (b.next drops c)) := by
  cases shift ht.queueOf hp hc hone with
  | quiet hlone hnext hlive hopened hfd hpend hop hreg =>
    rw [hnext]
    refine ⟨iff_of_true (hs.congr (fun _ hh => hopened ▸ hh) hfd hpend hop hreg) (hlone drops), ?_⟩
    exact fun _ => ht.congr hlive hopened hfd hpend hop
  | fdNew h fd owned hc hnew =>
    subst hc
    exact ⟨iff_of_true (hs.fdNew fun g => opened_fdNew) trivial,
      fun _ => ht.fdNew fun g => opened_fdNew⟩
  | enlist r h op res hc hfd hh hr hnot hexec =>
    subst hc
    simp only [next, Lone, hexec, hfd, true_implies]
    have hiff : Served q (l.after (.start r h op .ok res) (.started true .ok none))
        (b.enlisted r h op) ↔ Alone l b h ∧ (b.fd h).counter op.kind ≠ BitVec.allOnes 32 :=
      served_enlisted_iff ht hs hh hr ht.queueOf rfl hnot
    exact ⟨hiff, fun hs' => ht.enlisted hh ht.queueOf rfl hnot fun _ => (hiff.mp hs').2⟩
  | close h ans hc hh hans hr =>
    subst hc
    exact ⟨served_close_iff hs hans hh hr fun g => opened_close,
      fun _ => ht.close drops ht.queueOf fun g hg => (opened_close.mp hg).1⟩
  | stop r h hlone hnext hh hr hq hlive hopened hexec =>
    rw [hnext, hexec]
    exact ⟨iff_of_true (hs.stop ht hh hr hq (hlive ▸ ht.queueOf) hopened) (hlone drops),
      fun _ => ht.stop hh hr (hlive ▸ ht.queueOf) hopened⟩

end Board

/-! ## The memory -/

namespace Heap

/-- The OS drops the registrations of a descriptor. -/
def drop (m : Heap) (fd : Int) : Heap :=
  { m with queue := fun q => { m.queue q with reg := Function.update (m.queue q).reg fd none } }

/-- The runs of the calls, and of the OS that drops the registrations of a closed descriptor, as it
does for epoll, or keeps them. -/
def descriptors (drops : Bool) : System (Conf Heap) Call where
  init := system.init
  step s c := (system.step s c).map fun t =>
    match c with
    | .close h _ =>
      if drops && (s.mem.fd h).owned then { t with mem := t.mem.drop (s.mem.fd h).fd } else t
    | _ => t

/-- Each request that waits on an open handle is registered: the descriptor is in the list of the
queue, with the direction of the request, and with the handle as user data. -/
def Served (q : YoQueueT) (s : Conf Heap) : Prop :=
  ∀ h, s.ledger.opened h = true → ∀ l, s.mem.handleList h = some l → ∀ r ∈ l,
    ∃ e, (s.mem.queue q).reg (s.mem.fd h).fd = some e ∧ (s.mem.dir r).meets e.mask = true ∧
      e.udata = h

/-- No other open handle of the same descriptor has requests. -/
def Alone (s : Conf Heap) (h : YoFdT) : Prop :=
  ∀ g, s.ledger.opened g = true → (s.mem.fd g).fd = (s.mem.fd h).fd → g ≠ h →
    s.mem.handleList g = some []

/-- The condition on a call: a start finds its handle alone, and its counter not at its largest
value; and a descriptor is not closed, where that drops its registration, while another handle
waits on it. -/
def Lone (drops : Bool) (s : Conf Heap) : Call → Prop
  | .start _ h op _ _ => yoiUnixIsfd (s.mem.fd h) = true →
      Alone s h ∧ (s.mem.fd h).counter op.kind ≠ BitVec.allOnes 32
  | .close h _ => (drops && (s.mem.fd h).owned) = true → Alone s h
  | _ => True

end Heap

namespace Refines

variable {q : YoQueueT} {s : Conf Heap} {b : Board} {h : YoFdT} {drops : Bool}

theorem drop {o : YoFdT → Bool} {m : Heap} (hR : Refines o m b) (fd : Int) :
    Refines o (m.drop fd) (b.drop fd) where
  queueOf := hR.queueOf
  fd := hR.fd
  notifyRead := hR.notifyRead
  reg k := by simp only [Heap.drop, Board.drop, hR.reg k]
  pend := hR.pend
  waits h r hh hr := ⟨(hR.waits h r hh hr).call, (hR.waits h r hh hr).cancel,
    (hR.waits h r hh hr).cancelled⟩
  ready k := (hR.ready k).congr rfl (fun _ _ => rfl) (fun _ _ => rfl)

theorem owned {o : YoFdT → Bool} {m : Heap} (hR : Refines o m b) (h : YoFdT) :
    (m.fd h).owned = (b.fd h).owned := by
  rw [← hR.fd h]
  rfl

theorem served (hR : Refines s.ledger.opened s.mem b) :
    Heap.Served q s ↔ Board.Served q s.ledger b := by
  refine forall_congr' fun h => forall_congr' fun hh => ?_
  rw [hR.reg, hR.fdNum, hR.handleList hh]
  constructor
  · intro hs r hr
    rw [← (hR.waits h r hh hr).dir]
    exact hs _ rfl r hr
  · rintro hs l hl r hr
    obtain rfl := Option.some.inj hl
    rw [(hR.waits h r hh hr).dir]
    exact hs r hr

theorem alone (hR : Refines s.ledger.opened s.mem b) :
    Heap.Alone s h ↔ Board.Alone s.ledger b h := by
  refine forall_congr' fun g => forall_congr' fun hg => ?_
  rw [hR.fdNum, hR.fdNum, hR.handleList hg, Option.some.injEq]

theorem counter {o : YoFdT → Bool} {m : Heap} (hR : Refines o m b) (h : YoFdT) (k : YoiPlKind) :
    (m.fd h).counter k = (b.fd h).counter k := by
  obtain ⟨hread, hwrite⟩ := hR.counters h
  cases k <;> simp [YoFd.counter, hread, hwrite]

theorem lone (hR : Refines s.ledger.opened s.mem b) (c : Call) :
    Heap.Lone drops s c ↔ Board.Lone drops s.ledger b c := by
  cases c with
  | start r h op ans res =>
    simp only [Heap.Lone, Board.Lone, hR.alone, hR.counter, Heap.yoiUnixIsfd, hR.isAt]
  | close h ans =>
    simp only [Heap.Lone, Board.Lone, hR.alone, hR.owned]
  | _ => exact Iff.rfl

end Refines

/-- The memory shows a board whose counters are right. -/
def Tallied (q : YoQueueT) (s : Conf Heap) : Prop :=
  ∃ b pos, Refines s.ledger.opened s.mem b ∧ Board.Placed s.ledger b pos ∧
    Board.Tally True q s.ledger b

/-- A call, with what the OS does after it, taken by the memory and the board together. -/
theorem descriptors_refines {drops : Bool} {s t : Conf Heap} {b : Board}
    {pos : YoReqT → Board.Place} {c : Call} (hR : Refines s.ledger.opened s.mem b)
    (hp : Board.Placed s.ledger b pos) (hst : (Heap.descriptors drops).step s c = some t) :
    c.allowed s.ledger = true ∧ t.ledger = s.ledger.after c (b.exec c).2 ∧
      Refines t.ledger.opened t.mem (b.next drops c) ∧
        ∃ pos', Board.Placed t.ledger (b.next drops c) pos' := by
  obtain ⟨u, hu, rfl⟩ := Option.map_eq_some_iff.mp hst
  have hc := (calls_step hu).1
  obtain ⟨u', hu', hledger, hRu, pos', hpu⟩ := step_refines hR hp hc
  obtain rfl := Option.some.inj (hu.symm.trans hu')
  refine ⟨hc, ?_⟩
  cases c with
  | close h ans =>
    simp only [Board.next, hR.owned, hR.fdNum]
    by_cases hdrop : (drops && (b.fd h).owned) = true
    · simp only [hdrop, if_true]
      exact ⟨hledger, hRu.drop _, pos', hpu.congr rfl rfl rfl⟩
    · simp only [hdrop]
      exact ⟨hledger, hRu, pos', hpu⟩
  | _ => exact ⟨hledger, hRu, pos', hpu⟩

/-- One call of the memory. -/
theorem served_step {q : YoQueueT} {drops : Bool} {s t : Conf Heap} {c : Call}
    (ht : Tallied q s) (hs : Heap.Served q s) (hone : SharedQueue q c)
    (hst : (Heap.descriptors drops).step s c = some t) :
    (Heap.Served q t ↔ Heap.Lone drops s c) ∧ (Heap.Served q t → Tallied q t) := by
  obtain ⟨b, pos, hR, hp, htally⟩ := ht
  obtain ⟨hc, hledger, hRt, pos', hpt⟩ := descriptors_refines hR hp hst
  obtain ⟨hiff, hkeep⟩ := Board.served_next drops htally (hR.served.mp hs) hp hc hone
  rw [← hledger] at hiff hkeep
  rw [hRt.served, hR.lone]
  exact ⟨hiff, fun hs' => ⟨_, pos', hRt, hpt, hkeep hs'⟩⟩

/-- **When no request is stranded.**  Along every run on one queue, on which handles may share
descriptors and `yoi_pl_impl_setmask` always answers `YO_OK`, each waiting request stays
registered, for its direction and in the name of its handle, if and only if every start finds its
handle alone on its descriptor and its counter below the largest value, and no descriptor is
closed, where that drops its registration, while another handle waits on it. -/
theorem served_iff (drops : Bool) {q : YoQueueT} {s t : Conf Heap} {cs : List Call}
    (hinit : (Heap.descriptors drops).init s) (hone : ∀ c ∈ cs, SharedQueue q c)
    (hrun : (Heap.descriptors drops).run s cs = some t) :
    (Heap.descriptors drops).Always (Heap.Served q) s cs ↔
      (Heap.descriptors drops).Along (Heap.Lone drops) s cs := by
  obtain ⟨⟨b, l⟩, hfresh, hl, hR⟩ := simulates.init s hinit
  obtain ⟨pos, hp⟩ := Board.placed_of_reachable (.init hfresh)
  have hnone : ∀ h, s.ledger.opened h = false := fun h => by rw [hinit.2]; rfl
  have htally : Tallied q s := by
    refine ⟨b, pos, hR, hl ▸ hp, ?_⟩
    constructor <;> simp [hinit.2, Ledger.empty]
  have hserved : Heap.Served q s := fun h hh => by simp [hnone h] at hh
  refine System.always_iff_along (SharedQueue q) ?_ htally hserved hone hrun
  exact fun s c t ht hc hs hst => served_step ht hs hc hst

/-! ## Standard input, twice -/

/-- Two handles for standard input, a read on each, and standard input becomes readable. -/
def readTwice : List Call :=
  [.reqNew 0x30 0x10, .reqNew 0x40 0x10, .fdNew 0x20 0 false, .fdNew 0x28 0 false,
    .start 0x30 0x20 (.read 0x700 0x708) .ok .ok, .start 0x40 0x28 (.read 0x710 0x718) .ok .ok,
    .poll 0x10 ⟨.event 0x28 ⟨true, false⟩, .ok, .ok⟩]

/-- The second read replaces the registration of the first and takes it along when it is
performed: the first read waits on a descriptor that nobody watches. -/
theorem not_served_readTwice :
    (∀ c ∈ readTwice, SharedQueue 0x10 c) ∧
      ∀ drops, ∃ s, (Heap.descriptors drops).run Heap.start readTwice = some s ∧
        s.ledger.opened 0x20 = true ∧ s.mem.handleList 0x20 = some [0x30] ∧
          (s.mem.queue 0x10).reg (s.mem.fd 0x20).fd = none ∧ ¬ Heap.Served 0x10 s := by
  refine ⟨by simp [readTwice, SharedQueue], fun drops => ?_⟩
  have hend : ((Heap.descriptors drops).run Heap.start readTwice).map (fun s =>
      (s.ledger.opened 0x20, s.mem.handleList 0x20, (s.mem.queue 0x10).reg (s.mem.fd 0x20).fd)) =
        some (true, some [0x30], none) := by
    cases drops <;> decide +kernel
  obtain ⟨s, hrun, hs⟩ := Option.map_eq_some_iff.mp hend
  simp only [Prod.mk.injEq] at hs
  obtain ⟨hopen, hlist, hreg⟩ := hs
  refine ⟨s, hrun, hopen, hlist, hreg, fun hserved => ?_⟩
  obtain ⟨e, he, -⟩ := hserved 0x20 hopen _ hlist 0x30 (by simp)
  rw [hreg] at he
  cases he

/-- A read on one handle. -/
def readOnce : List Call :=
  [.reqNew 0x30 0x10, .fdNew 0x20 0 false, .start 0x30 0x20 (.read 0x700 0x708) .ok .ok]

/-- One handle alone is served. -/
theorem served_readOnce :
    (Heap.descriptors true).Always (Heap.Served 0x10) Heap.start readOnce ∧
      (Heap.descriptors false).Always (Heap.Served 0x10) Heap.start readOnce := by
  suffices hall : ∀ drops,
      (Heap.descriptors drops).Always (Heap.Served 0x10) Heap.start readOnce from
    ⟨hall true, hall false⟩
  intro drops
  have hsome : ((Heap.descriptors drops).run Heap.start readOnce).isSome = true := by
    cases drops <;> decide +kernel
  obtain ⟨s, hrun⟩ := Option.isSome_iff_exists.mp hsome
  apply (served_iff drops Heap.init_start (by simp [readOnce, SharedQueue]) hrun).mpr
  refine ⟨trivial, fun t ht => ⟨trivial, fun u hu => ⟨fun _ => ⟨?_, ?_⟩, fun _ _ => trivial⟩⟩⟩
  · obtain rfl := Option.some.inj ht
    obtain rfl := Option.some.inj hu
    intro g hg _ hne
    have hg' : Function.update (fun _ => false) 0x20 true g = true := hg
    rw [Function.update_of_ne hne] at hg'
    cases hg'
  · obtain rfl := Option.some.inj ht
    obtain rfl := Option.some.inj hu
    cases drops <;> decide +kernel

end Yaooi
