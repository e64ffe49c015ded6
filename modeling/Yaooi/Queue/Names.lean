import Yaooi.Queue.Shared

/-!
# Whom a registration names

The user data of a registration is the handle that `yo_queue_poll` goes to when the OS reports the
descriptor.  On one queue, with a backend that registers what it is asked to, that is always an open
handle of this very descriptor (`attached_of_reach`), also where handles share descriptors.
-/

namespace Yaooi

open Transition

namespace Board

variable {q : YoQueueT} {l l' : Ledger} {b b' : Board} {pos : YoReqT → Place} {c : Call}
  {r : YoReqT} {h : YoFdT} {f : YoFd → YoFd}

/-- A registration in the name of a handle is what that handle asked for last, for its own
descriptor. -/
def Names (q : YoQueueT) (l : Ledger) (b : Board) : Prop :=
  ∀ fd e, b.reg q fd = some e → e.udata ≠ NULL → l.opened e.udata = true ∧
    (b.fd e.udata).fd = fd ∧ e.mask = (b.fd e.udata).mask ∧ e.mask ≠ .zero

theorem Names.congr (hn : Names q l b) (hopened : l'.opened = l.opened) (hfd : b'.fd = b.fd)
    (hreg : b'.reg = b.reg) : Names q l' b' := by
  unfold Names
  rw [hopened, hfd, hreg]
  exact hn

/-- One handle is registered anew. -/
theorem Names.recount (hn : Names q l b) (hh : l.opened h = true) (hopened : l'.opened = l.opened)
    (hfd : b'.fd = Function.update b.fd h (f (b.fd h))) (hf : ∀ x, (f x).fd = x.fd)
    (hreg : b'.reg q = Function.update (b.reg q) (b.fd h).fd
      (if (b'.fd h).mask = .zero then none else some ⟨(b'.fd h).mask, h⟩)) : Names q l' b' := by
  intro fd e he hne
  rw [hopened]
  rw [hreg, Function.update_apply] at he
  split at he
  · rename_i hnum
    split at he
    · cases he
    · rename_i hmask
      obtain rfl := Option.some.inj he
      refine ⟨hh, ?_, rfl, hmask⟩
      rw [hfd, Function.update_self, hf, hnum]
  · rename_i hnum
    obtain ⟨ho, hnum', hmask, hzero⟩ := hn fd e he hne
    have hother : e.udata ≠ h := fun e' => hnum (by rw [← hnum', e'])
    rw [hfd, Function.update_of_ne hother]
    exact ⟨ho, hnum', hmask, hzero⟩

/-- A handle that is closed is named no more: if it had requests its descriptor is taken off the
queue, and if it had none it was not registered. -/
theorem Names.close {ans : YoReqT → YoCode} (hn : Names q l b) (ht : Tally False q l b)
    (hh : l.opened h = true) (hans : ∀ r, ans r = .ok) (hq : ∀ r ∈ b.pend h, b.queueOf r = q)
    (hopened : ∀ g, l'.opened g = true ↔ l.opened g = true ∧ g ≠ h) :
    Names q l' (b.exec (.close h ans)).1 := by
  obtain ⟨-, -, hfd, -⟩ := frame_next_close b h ans false
  have hreg := reg_next_close false hans hq
  have hnext : b.next false (.close h ans) = (b.exec (.close h ans)).1 := rfl
  rw [hnext] at hfd hreg
  intro fd e he hne
  rw [hreg] at he
  split at he
  · cases he
  · rename_i hkept
    obtain ⟨ho, hnum, hmask, hzero⟩ := hn fd e he hne
    rw [hfd]
    refine ⟨(hopened _).mpr ⟨ho, fun e' => ?_⟩, hnum, hmask, hzero⟩
    rw [e'] at hnum hmask
    by_cases hnil : b.pend h = []
    · have hcount : ∀ k, (b.fd h).counter k = 0 := by
        intro k
        rw [ht.counter h hh, hnil, count32, List.countP_nil]
        rfl
      have hread : (b.fd h).readN = 0 := hcount .read
      have hwrite : (b.fd h).writeN = 0 := hcount .write
      exact hzero (by rw [hmask, YoFd.mask, hread, hwrite]; rfl)
    · exact hkept ⟨.inl hnil, hnum.symm⟩

/-- **Every call** keeps the names and the counters right. -/
theorem names_step (hn : Names q l b) (ht : Tally False q l b) (hp : Placed l b pos)
    (hc : c.allowed l = true) (hone : SharedQueue q c) :
    Names q (l.after c (b.exec c).2) (b.exec c).1 ∧
      Tally False q (l.after c (b.exec c).2) (b.exec c).1 := by
  cases shift ht.queueOf hp hc hone with
  | quiet hlone hnext hlive hopened hfd hpend hop hreg =>
    exact ⟨hn.congr hopened hfd hreg, ht.congr hlive hopened hfd hpend hop⟩
  | fdNew h fd owned hc hnew =>
    subst hc
    refine ⟨fun fd' e he hne => ?_, ht.fdNew fun g => opened_fdNew⟩
    obtain ⟨ho, hnum, hmask, hzero⟩ := hn fd' e he hne
    have hother : e.udata ≠ h := fun e' => by simp [e', hnew] at ho
    simp only [exec, Ledger.after, Function.update_of_ne hother]
    exact ⟨ho, hnum, hmask, hzero⟩
  | enlist r h op res hc hfd hh hr hnot hexec =>
    subst hc
    rw [hexec]
    have hn' : Names q (l.after (.start r h op .ok res) (.started true .ok none))
        (b.enlisted r h op) :=
      hn.recount (f := (·.inc op.kind)) hh rfl fd_enlisted (fun x => YoFd.fd_inc x op.kind)
        (reg_enlisted hr)
    exact ⟨hn', ht.enlisted hh ht.queueOf rfl hnot False.elim⟩
  | close h ans hc hh hans hr =>
    subst hc
    refine ⟨hn.close ht hh hans hr fun g => opened_close, ?_⟩
    exact ht.close false ht.queueOf fun g hg => (opened_close.mp hg).1
  | stop r h hlone hnext hh hr hq hlive hopened hexec =>
    rw [hexec]
    have hn' : Names q (l.after c (b.exec c).2) (b.stop r h .ok) :=
      hn.recount (f := (·.dec (b.op r).kind)) hh hopened (fd_stop .ok)
        (fun x => YoFd.fd_dec x (b.op r).kind) (reg_stop hq)
    exact ⟨hn', ht.stop hh hr (hlive ▸ ht.queueOf) hopened⟩

end Board

/-- Each registration in the name of a handle is one of an open handle, for its own descriptor. -/
def Attached (q : YoQueueT) (s : Conf Heap) : Prop :=
  ∀ fd e, (s.mem.queue q).reg fd = some e → e.udata ≠ NULL →
    s.ledger.opened e.udata = true ∧ (s.mem.fd e.udata).fd = fd

/-- **So it is after every run on one queue** whose backend registers what it is asked to. -/
theorem attached_of_reach {q : YoQueueT} {s : Conf Heap}
    (h : Heap.system.Reach (fun _ c => SharedQueue q c) s) : Attached q s := by
  obtain ⟨b, hreach, hR, -⟩ :=
    refines_of_reach (ψ := fun _ c => SharedQueue q c) (fun _ _ _ _ hc => hc) h
  have hnames := (Board.reach_invariant hreach
    (P := fun l b => Board.Names q l b ∧ Board.Tally False q l b) (fun b hfresh => ?_)
    fun l b pos c hP hp hc hone => Board.names_step hP.1 hP.2 hp hc hone).1
  · intro fd e he hne
    rw [hR.reg] at he
    obtain ⟨ho, hnum, -⟩ := hnames fd e he hne
    exact ⟨ho, by rw [hR.fdNum, hnum]⟩
  · refine ⟨fun fd e he hne => ?_, by constructor <;> simp [Ledger.empty]⟩
    rw [(hfresh q).2, Heap.freshReg, Function.update_apply] at he
    split at he
    · exact absurd (by rw [← Option.some.inj he]) hne
    · cases he

end Yaooi

