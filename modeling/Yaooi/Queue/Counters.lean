import Yaooi.Queue.Refine

/-!
# Counters and registrations

On one queue, with one descriptor for each handle and a backend that registers what it is
asked to, a handle's counters, its list and its registration say the same thing
(`InStep`): the counters are the numbers of requests on the list for each direction,
modulo 2³² since they are `unsigned`, and the descriptor is registered for the directions whose
counter is not zero, with the handle as user data.

`counters_in_step` states this for the memory, and that an event of a registered handle
always finds a request.  `counters_wrap` is a run that needs the modulus.
-/

namespace Yaooi

open Transition

namespace YoFd

variable (fd : YoFd) (kind : YoiPlKind)

/-- `0` or `1`, as an `unsigned`. -/
def one (c : Bool) : BitVec 32 := BitVec.ofNat 32 c.toNat

theorem readN_inc : (fd.inc kind).readN = fd.readN + one (yoiPlTomask kind).readable := by
  cases kind <;> simp [inc, yoiPlTomask, one]

theorem writeN_inc : (fd.inc kind).writeN = fd.writeN + one (yoiPlTomask kind).writable := by
  cases kind <;> simp [inc, yoiPlTomask, one]

theorem readN_dec : (fd.dec kind).readN = fd.readN - one (yoiPlTomask kind).readable := by
  cases kind <;> simp [dec, yoiPlTomask, one]

theorem writeN_dec : (fd.dec kind).writeN = fd.writeN - one (yoiPlTomask kind).writable := by
  cases kind <;> simp [dec, yoiPlTomask, one]

@[simp] theorem fd_inc : (fd.inc kind).fd = fd.fd := by cases kind <;> rfl
@[simp] theorem fd_dec : (fd.dec kind).fd = fd.fd := by cases kind <;> rfl

end YoFd

/-- A count of requests, as an `unsigned`. -/
def count32 (p : YoReqT → Bool) (l : List YoReqT) : BitVec 32 := BitVec.ofNat 32 (l.countP p)

section Count

variable {p p' : YoReqT → Bool} {l : List YoReqT} {r : YoReqT}

theorem count32_congr (h : ∀ x ∈ l, p x = p' x) : count32 p l = count32 p' l := by
  rw [count32, count32, List.countP_congr fun x hx => by rw [h x hx]]

theorem count32_cons : count32 p (r :: l) = count32 p l + YoFd.one (p r) := by
  rw [count32, count32, YoFd.one, List.countP_cons, ← BitVec.ofNat_add]
  cases p r <;> rfl

theorem count32_erase (hr : r ∈ l) : count32 p (l.erase r) = count32 p l - YoFd.one (p r) := by
  have hperm : count32 p l = count32 p (r :: l.erase r) := by
    rw [count32, count32, (List.perm_cons_erase hr).countP_eq]
  rw [hperm, count32_cons, BitVec.add_sub_cancel]

end Count

/-- The counters, the lists and the registrations of a queue agree. -/
structure InStep (q : YoQueueT) (l : Ledger) (b : Board) : Prop where
  queueOf : ∀ r, l.live r = true → b.queueOf r = q
  nonnull : ∀ h, l.opened h = true → h ≠ NULL
  distinct : ∀ g h, l.opened g = true → l.opened h = true → (b.fd g).fd = (b.fd h).fd → g = h
  notify : ∀ h, l.opened h = true → (b.fd h).fd ≠ b.notifyRead q
  readN : ∀ h, l.opened h = true →
    (b.fd h).readN = count32 (fun r => (b.dir r).readable) (b.pend h)
  writeN : ∀ h, l.opened h = true →
    (b.fd h).writeN = count32 (fun r => (b.dir r).writable) (b.pend h)
  reg : ∀ h, l.opened h = true → b.reg q (b.fd h).fd =
    if (b.fd h).mask = .zero then none else some ⟨(b.fd h).mask, h⟩
  stale : ∀ fd e, b.reg q fd = some e →
    fd = b.notifyRead q ∧ e.udata = NULL ∨ ∃ h, l.opened h = true ∧ (b.fd h).fd = fd

namespace InStep

variable {q : YoQueueT} {l l' : Ledger} {b b' : Board} {pos : YoReqT → Board.Place}
  {r : YoReqT} {h : YoFdT}

/-- What changes neither handles nor lists nor registrations keeps them in step. -/
theorem congr (hi : InStep q l b) (hlive : ∀ r, l'.live r = true → b'.queueOf r = q)
    (hopened : l'.opened = l.opened) (hfd : b'.fd = b.fd) (hnotify : b'.notifyRead = b.notifyRead)
    (hpend : b'.pend = b.pend) (hop : b'.op = b.op) (hreg : b'.reg = b.reg) : InStep q l' b' := by
  have hdir : b'.dir = b.dir := funext fun r => by rw [Board.dir, Board.dir, hop]
  constructor
  case queueOf => exact hlive
  case nonnull => rw [hopened]; exact hi.nonnull
  case distinct => rw [hopened, hfd]; exact hi.distinct
  case notify => rw [hopened, hfd, hnotify]; exact hi.notify
  case readN => rw [hopened, hfd, hpend, hdir]; exact hi.readN
  case writeN => rw [hopened, hfd, hpend, hdir]; exact hi.writeN
  case reg => rw [hopened, hfd, hreg]; exact hi.reg
  case stale => rw [hopened, hfd, hreg, hnotify]; exact hi.stale

/-- Recounting one handle after its list changed. -/
theorem recount {f : YoFd → YoFd} (hi : InStep q l b) (hr : b.queueOf r = q)
    (hh : l.opened h = true) (hf : ∀ x, (f x).fd = x.fd)
    (hopened : l'.opened = l.opened) (hlive : ∀ r, l'.live r = true → b'.queueOf r = q)
    (hfd : b'.fd = Function.update b.fd h (f (b.fd h)))
    (hreg : b'.reg = (b.recount r h f .ok).reg) (hnotify : b'.notifyRead = b.notifyRead)
    (hpend : ∀ g, g ≠ h → l.opened g = true → b'.pend g = b.pend g)
    (hdir : ∀ g x, g ≠ h → l.opened g = true → x ∈ b.pend g → b'.dir x = b.dir x)
    (hreadN : (f (b.fd h)).readN = count32 (fun r => (b'.dir r).readable) (b'.pend h))
    (hwriteN : (f (b.fd h)).writeN = count32 (fun r => (b'.dir r).writable) (b'.pend h)) :
    InStep q l' b' := by
  have hnum : ∀ g, (b'.fd g).fd = (b.fd g).fd := by
    intro g
    rw [hfd, Function.update_apply]
    split
    · rename_i hg
      rw [hf, hg]
    · rfl
  have hself : b'.fd h = f (b.fd h) := by rw [hfd, Function.update_self]
  have hother : ∀ g, g ≠ h → b'.fd g = b.fd g := fun g hg => by rw [hfd, Function.update_of_ne hg]
  have hreg' : b'.reg q = Function.update (b.reg q) (b.fd h).fd
      (if (b'.fd h).mask = .zero then none else some ⟨(b'.fd h).mask, h⟩) := by
    rw [hreg, hself]
    simp [Board.recount, Board.setmask, hr, register, hf]
  constructor
  case queueOf => exact hlive
  case nonnull =>
    rw [hopened]
    exact hi.nonnull
  case distinct =>
    rw [hopened]
    intro g k hg hk
    rw [hnum, hnum]
    exact hi.distinct g k hg hk
  case notify =>
    rw [hopened, hnotify]
    intro g hg
    rw [hnum]
    exact hi.notify g hg
  case readN =>
    rw [hopened]
    intro g hg
    by_cases hgh : g = h
    · rw [hgh, hself, hreadN]
    · rw [hother g hgh, hi.readN g hg, hpend g hgh hg]
      exact count32_congr fun x hx => by rw [hdir g x hgh hg hx]
  case writeN =>
    rw [hopened]
    intro g hg
    by_cases hgh : g = h
    · rw [hgh, hself, hwriteN]
    · rw [hother g hgh, hi.writeN g hg, hpend g hgh hg]
      exact count32_congr fun x hx => by rw [hdir g x hgh hg hx]
  case reg =>
    rw [hopened]
    intro g hg
    rw [hreg', hnum]
    by_cases hgh : g = h
    · rw [hgh, Function.update_self]
    · rw [Function.update_of_ne fun e => hgh (hi.distinct g h hg hh e), hother g hgh]
      exact hi.reg g hg
  case stale =>
    rw [hopened, hnotify, hreg']
    intro fd e he
    by_cases hfdh : fd = (b.fd h).fd
    · exact .inr ⟨h, hh, by rw [hnum, hfdh]⟩
    · rw [Function.update_of_ne hfdh] at he
      rcases hi.stale fd e he with hpipe | ⟨g, hg, hgfd⟩
      · exact .inl hpipe
      · exact .inr ⟨g, hg, by rw [hnum, hgfd]⟩

/-- A start on a handle. -/
theorem start {op : YoaOp} {res : YoCode} (hi : InStep q l b) (hp : Board.Placed l b pos)
    (hlive : l.live r = true) (hbusy : l.busy r = false) (hh : l.opened h = true) :
    InStep q (l.after (.start r h op .ok res) (b.exec (.start r h op .ok res)).2)
      (b.exec (.start r h op .ok res)).1 := by
  have hidle := hp.idle_of_not_busy hbusy
  have hnot : ∀ g, l.opened g = true → r ∉ b.pend g :=
    fun g hg => hp.not_mem_pend (by simp [hidle]) hg
  obtain ⟨-, hexec⟩ | ⟨-, hans, -⟩ | ⟨-, -, hexec⟩ := b.exec_start r h op .ok res
  · rw [hexec]
    exact hi
  · exact absurd hans (by decide)
  rw [hexec]
  have hdir : ∀ x, x ≠ r → (b.counted r h op .ok).dir x = b.dir x := by
    intro x hx
    simp [Board.dir, hx]
  have hdirr : (b.counted r h op .ok).dir r = yoiPlTomask op.kind := by simp [Board.dir]
  have hkeep : ∀ g x, l.opened g = true → x ∈ b.pend g →
      (b.counted r h op .ok).dir x = b.dir x :=
    fun g x hg hx => hdir x fun e => hnot g hg (e ▸ hx)
  have hpendh : Function.update b.pend h (r :: b.pend h) h = r :: b.pend h := by simp
  refine hi.recount (f := (·.inc op.kind)) (h := h) (hi.queueOf r hlive) hh
    (fun x => YoFd.fd_inc x op.kind) rfl hi.queueOf rfl rfl rfl ?_ (fun g x _ => hkeep g x) ?_ ?_
  · exact fun g hg _ => Function.update_of_ne hg ..
  · show _ = count32 (fun x => ((b.counted r h op .ok).dir x).readable)
      (Function.update b.pend h (r :: b.pend h) h)
    rw [hpendh, count32_cons, YoFd.readN_inc, hi.readN h hh, hdirr]
    congr 1
    exact count32_congr fun x hx => by rw [hkeep h x hh hx]
  · show _ = count32 (fun x => ((b.counted r h op .ok).dir x).writable)
      (Function.update b.pend h (r :: b.pend h) h)
    rw [hpendh, count32_cons, YoFd.writeN_inc, hi.writeN h hh, hdirr]
    congr 1
    exact count32_congr fun x hx => by rw [hkeep h x hh hx]

/-- A waiting request is taken off its handle. -/
theorem stop (hi : InStep q l b) (hp : Board.Placed l b pos) (hh : l.opened h = true)
    (hr : r ∈ b.pend h) (hlive : l'.live = l.live) (hopened : l'.opened = l.opened) :
    InStep q l' (b.stop r h .ok) := by
  have hq : b.queueOf r = q := hi.queueOf r (hp.live r (by simp [(hp.pend h r hh).mp hr]))
  have hpendh : Function.update b.pend h ((b.pend h).erase r) h = (b.pend h).erase r := by simp
  refine hi.recount (f := (·.dec (b.op r).kind)) hq hh
    (fun x => YoFd.fd_dec x (b.op r).kind) hopened (hlive ▸ hi.queueOf) rfl rfl rfl ?_
    (fun _ _ _ _ _ => rfl) ?_ ?_
  · exact fun g hg _ => Function.update_of_ne hg ..
  · show _ = count32 (fun x => (b.dir x).readable) _
    rw [Board.pend_stop, hpendh, count32_erase hr, YoFd.readN_dec, hi.readN h hh]
    rfl
  · show _ = count32 (fun x => (b.dir x).writable) _
    rw [Board.pend_stop, hpendh, count32_erase hr, YoFd.writeN_dec, hi.writeN h hh]
    rfl

/-- Where all requests are the queue's, and the backend answers `YO_OK`, the loop of `close` gets to
the queue unless it has nothing to do. -/
theorem exists_reached_iff {ans : YoReqT → YoCode} {rs : List YoReqT} (hans : ∀ r, ans r = .ok)
    (hrs : ∀ r ∈ rs, b.queueOf r = q) : (∃ r ∈ rs, b.queueOf r = q ∧ ans r = .ok) ↔ rs ≠ [] := by
  constructor
  · rintro ⟨r, hr, -⟩
    exact List.ne_nil_of_mem hr
  · intro hne
    obtain ⟨r, hr⟩ := List.exists_mem_of_ne_nil rs hne
    exact ⟨r, hr, hrs r hr, hans r⟩

/-- What the loop of `close` does to the registrations of a queue then. -/
theorem reg_cancelAll {ans : YoReqT → YoCode} {rs : List YoReqT} (hans : ∀ r, ans r = .ok)
    (hrs : ∀ r ∈ rs, b.queueOf r = q) (fd : Int) :
    (b.cancelAll h ans rs).reg q fd =
      if rs ≠ [] ∧ fd = (b.fd h).fd then none else b.reg q fd := by
  simp only [Board.reg_cancelAll, exists_reached_iff hans hrs]
  simp only [and_comm]

/-- Closing a handle takes its descriptor off the queue. -/
theorem close {ans : YoReqT → YoCode} (hi : InStep q l b) (hp : Board.Placed l b pos)
    (hh : l.opened h = true) (hans : ∀ r, ans r = .ok)
    (hlive : l'.live = l.live) (hopened : l'.opened = Function.update l.opened h false) :
    InStep q l' (b.close h ans) := by
  obtain ⟨hqueue, hop, hfd, hpend⟩ := b.frame_cancelAll h ans (b.pend h)
  have hnotify := b.notifyRead_cancelAll h ans (b.pend h)
  have hrs : ∀ r ∈ b.pend h, b.queueOf r = q := fun r hr =>
    hi.queueOf r (hp.live r (by simp [(hp.pend h r hh).mp hr]))
  have hregs := fun fd => reg_cancelAll (h := h) hans hrs fd
  rw [← Board.close_eq_cancelAll] at hqueue hop hfd hpend hnotify hregs
  have hdir : (b.close h ans).dir = b.dir := funext fun r => by rw [Board.dir, Board.dir, hop]
  have hreg : ∀ fd, (b.close h ans).reg q fd =
      if fd = (b.fd h).fd then none else b.reg q fd := by
    intro fd
    rw [hregs]
    by_cases hnil : b.pend h = []
    · by_cases hfd : fd = (b.fd h).fd
      · have hmask : (b.fd h).mask = .zero := by
          simp [YoFd.mask, hi.readN h hh, hi.writeN h hh, hnil, count32, YoiPlEvnMask.zero]
        rw [hfd, hi.reg h hh, if_pos hmask]
        simp
      · simp [hnil, hfd]
    · simp [hnil]
  have hold : ∀ g, l'.opened g = true → l.opened g = true ∧ g ≠ h := by
    intro g hg
    rw [hopened] at hg
    have hgh : g ≠ h := fun e => by simp [e] at hg
    exact ⟨by simpa [hgh] using hg, hgh⟩
  constructor
  case queueOf =>
    rw [hlive, hqueue]
    exact hi.queueOf
  case nonnull => exact fun g hg => hi.nonnull g (hold g hg).1
  case distinct =>
    intro g k hg hk
    rw [hfd]
    exact hi.distinct g k (hold g hg).1 (hold k hk).1
  case notify =>
    intro g hg
    rw [hfd, hnotify]
    exact hi.notify g (hold g hg).1
  case readN =>
    intro g hg
    rw [hfd, hpend, hdir]
    exact hi.readN g (hold g hg).1
  case writeN =>
    intro g hg
    rw [hfd, hpend, hdir]
    exact hi.writeN g (hold g hg).1
  case reg =>
    intro g hg
    obtain ⟨hg, hgh⟩ := hold g hg
    rw [hfd, hreg, if_neg fun e => hgh (hi.distinct g h hg hh e)]
    exact hi.reg g hg
  case stale =>
    intro fd e he
    rw [hreg] at he
    split at he
    · simp at he
    · rename_i hfdh
      rw [hnotify, hfd]
      apply (hi.stale fd e he).imp_right
      rintro ⟨g, hg, rfl⟩
      have hgh : g ≠ h := fun e => hfdh (by rw [e])
      exact ⟨g, by rw [hopened]; simpa [hgh] using hg, rfl⟩

/-- A new handle, with a descriptor of its own. -/
theorem fdNew {fd : Int} {owned : Bool} (hi : InStep q l b) (hh : l.opened h = false)
    (hne : h ≠ NULL) (hnotify : fd ≠ b.notifyRead q)
    (hown : ∀ g, l.opened g = true → (b.fd g).fd ≠ fd) :
    InStep q (l.after (.fdNew h fd owned) (b.exec (.fdNew h fd owned)).2)
      (b.exec (.fdNew h fd owned)).1 := by
  have hfree : b.reg q fd = none := by
    by_contra hsome
    obtain ⟨e, he⟩ := Option.ne_none_iff_exists'.mp hsome
    rcases hi.stale fd e he with ⟨hfd, -⟩ | ⟨g, hg, hfd⟩
    · exact hnotify hfd
    · exact hown g hg hfd
  have hold : ∀ g, (l.after (.fdNew h fd owned) .done).opened g = true → g ≠ h →
      l.opened g = true := fun g hg hgh => by simpa [Ledger.after, hgh] using hg
  constructor
  case queueOf => exact hi.queueOf
  case nonnull =>
    intro g hg
    by_cases hgh : g = h
    · rwa [hgh]
    · exact hi.nonnull g (hold g hg hgh)
  case distinct =>
    intro g k hg hk hfd
    by_cases hgh : g = h <;> by_cases hkh : k = h
    · rw [hgh, hkh]
    · simp only [Board.exec, hgh, Function.update_self, Function.update_of_ne hkh] at hfd
      exact absurd hfd.symm (hown k (hold k hk hkh))
    · simp only [Board.exec, hkh, Function.update_self, Function.update_of_ne hgh] at hfd
      exact absurd hfd (hown g (hold g hg hgh))
    · simp only [Board.exec, Function.update_of_ne hgh, Function.update_of_ne hkh] at hfd
      exact hi.distinct g k (hold g hg hgh) (hold k hk hkh) hfd
  case notify =>
    intro g hg
    by_cases hgh : g = h
    · simpa [Board.exec, hgh] using hnotify
    · simpa [Board.exec, hgh] using hi.notify g (hold g hg hgh)
  case readN =>
    intro g hg
    by_cases hgh : g = h
    · simp [Board.exec, hgh, count32]
    · simpa [Board.exec, Board.dir, hgh] using hi.readN g (hold g hg hgh)
  case writeN =>
    intro g hg
    by_cases hgh : g = h
    · simp [Board.exec, hgh, count32]
    · simpa [Board.exec, Board.dir, hgh] using hi.writeN g (hold g hg hgh)
  case reg =>
    intro g hg
    by_cases hgh : g = h
    · simp [Board.exec, hgh, hfree, YoFd.mask, YoiPlEvnMask.zero]
    · simpa [Board.exec, hgh] using hi.reg g (hold g hg hgh)
  case stale =>
    intro fd' e he
    apply (hi.stale fd' e he).imp_right
    rintro ⟨g, hg, hfd⟩
    have hgh : g ≠ h := fun e => by simp [e, hh] at hg
    exact ⟨g, by simp [Ledger.after, hgh, hg], by simp [Board.exec, hgh, hfd]⟩

end InStep

/-! ## The runs on one queue -/

/-- The run is on the queue `q` only, every handle has a descriptor of its own, and
`yoi_pl_impl_setmask` always answers `YO_OK`. -/
def OneQueue (q : YoQueueT) (s : Conf Heap) : Call → Prop
  | .reqNew _ k => k = q
  | .fdNew _ fd _ => fd ≠ (s.mem.queue q).notifyRead ∧
      ∀ g, s.ledger.opened g = true → (s.mem.fd g).fd ≠ fd
  | .start _ _ _ ans _ => ans = .ok
  | .close _ ans => ∀ r, ans r = .ok
  | .poll k env => k = q ∧ env.ans = .ok
  | _ => True

/-- `OneQueue`, on the board. -/
def Board.OneQueue (q : YoQueueT) (s : Conf Board) : Call → Prop
  | .reqNew _ k => k = q
  | .fdNew _ fd _ => fd ≠ s.mem.notifyRead q ∧
      ∀ g, s.ledger.opened g = true → (s.mem.fd g).fd ≠ fd
  | .start _ _ _ ans _ => ans = .ok
  | .close _ ans => ∀ r, ans r = .ok
  | .poll k env => k = q ∧ env.ans = .ok
  | _ => True

theorem oneQueue_of_follows {q : YoQueueT} {s : Conf Heap} {t : Conf Board} {c : Call}
    (h : follows s t) (hc : OneQueue q s c) : Board.OneQueue q t c := by
  obtain ⟨hl, hR⟩ := h
  cases c with
  | fdNew g fd owned =>
    refine ⟨hR.notifyRead q ▸ hc.1, fun k hk => ?_⟩
    rw [← hR.fdNum]
    exact hc.2 k (hl ▸ hk)
  | _ => exact hc

/-- **Every call keeps them in step.** -/
theorem InStep.step {q : YoQueueT} {l : Ledger} {b : Board} {pos : YoReqT → Board.Place}
    {c : Call} (hi : InStep q l b) (hp : Board.Placed l b pos) (hc : c.allowed l = true)
    (hone : Board.OneQueue q ⟨b, l⟩ c) : InStep q (l.after c (b.exec c).2) (b.exec c).1 := by
  cases c with
  | reqNew r k =>
    obtain rfl : k = q := hone
    refine hi.congr (fun x hx => ?_) rfl rfl rfl rfl rfl rfl
    by_cases hxr : x = r
    · simp [Board.exec, hxr]
    · simpa [Board.exec, hxr] using hi.queueOf x (by simpa [Ledger.after, hxr] using hx)
  | reqFree r =>
    refine hi.congr (fun x hx => hi.queueOf x ?_) rfl rfl rfl rfl rfl rfl
    by_cases hxr : x = r
    · simp [Ledger.after, hxr] at hx
    · simpa [Ledger.after, hxr] using hx
  | fdNew h fd owned =>
    simp only [Call.allowed, Bool.and_eq_true, Bool.not_eq_true', bne_iff_ne] at hc
    exact hi.fdNew hc.1 hc.2 hone.1 hone.2
  | start r h op ans res =>
    simp only [Call.allowed, Bool.and_eq_true, Bool.not_eq_true'] at hc
    obtain rfl : ans = .ok := hone
    exact hi.start hp hc.1.1 hc.1.2 hc.2
  | exec r => exact hi.congr hi.queueOf rfl rfl rfl rfl rfl rfl
  | finish r code => exact hi.congr hi.queueOf rfl rfl rfl rfl rfl rfl
  | close h ans => exact hi.close hp hc hone rfl rfl
  | poll k env =>
    obtain ⟨r, code, t, -, hexec⟩ | ⟨h, mask, r, -, hev, hh, hpick, hexec⟩ |
      ⟨-, -, step, hexec, hstep⟩ := b.exec_poll k env
    all_goals rw [hexec]
    · exact hi.congr hi.queueOf rfl rfl rfl rfl rfl rfl
    · rw [hone.2]
      exact hi.stop hp (Board.Placed.opened_of_event hc hev hh) (List.mem_of_find?_eq_some hpick)
        rfl rfl
    · cases step with
      | returned r code ran => exact absurd rfl (hstep r code ran)
      | again | failed => exact hi

/-- Every run on one queue keeps them in step. -/
theorem inStep_of_reach {q : YoQueueT} {s : Conf Board}
    (h : Board.system.Reach (Board.OneQueue q) s) : InStep q s.ledger s.mem := by
  refine Board.reach_invariant h (P := InStep q) ?_
    fun l b pos c hi hp hc hone => hi.step hp hc hone
  intro b hfresh
  constructor
  case stale =>
    intro fd e he
    rw [(hfresh q).2, Heap.freshReg, Function.update_apply] at he
    split at he
    · rename_i hfd
      rw [← Option.some.inj he]
      exact .inl ⟨hfd, rfl⟩
    · simp at he
  all_goals simp [Ledger.empty]

variable {q : YoQueueT} {s : Conf Heap} {b : Board} {pos : YoReqT → Board.Place}

theorem exists_inStep (h : Heap.system.Reach (OneQueue q) s) :
    ∃ b, Refines s.ledger.opened s.mem b ∧ InStep q s.ledger b := by
  obtain ⟨b, hreach, hR, -⟩ := refines_of_reach (φ := OneQueue q)
    (fun _ _ _ hf hc => oneQueue_of_follows hf hc) h
  exact ⟨b, hR, inStep_of_reach hreach⟩

theorem count32_ne_zero {p : YoReqT → Bool} {l : List YoReqT} (h : count32 p l ≠ 0) :
    ∃ r ∈ l, p r = true := by
  refine List.countP_pos_iff.mp (Nat.pos_of_ne_zero fun hzero => h ?_)
  rw [count32, hzero]
  rfl

/-- A registered handle has a request for every event that its registration is for. -/
theorem InStep.pick {l : Ledger} {fd : Int} {mask ready : YoiPlEvnMask} {g : YoFdT}
    (hi : InStep q l b) (hreg : b.reg q fd = some ⟨mask, g⟩) (hg : g ≠ NULL)
    (hready : mask.meets ready = true) :
    l.opened g = true ∧ ∃ r, b.pick g ready = some r := by
  rcases hi.stale fd _ hreg with ⟨-, hnull⟩ | ⟨h, hh, rfl⟩
  · exact absurd hnull hg
  rw [hi.reg h hh] at hreg
  split at hreg
  · simp at hreg
  obtain ⟨rfl, rfl⟩ := Registration.mk.inj (Option.some.inj hreg)
  refine ⟨hh, Option.isSome_iff_exists.mp (List.find?_isSome.mpr ?_)⟩
  simp only [YoiPlEvnMask.meets, YoFd.mask, Bool.or_eq_true, Bool.and_eq_true, bne_iff_ne] at hready
  rcases hready with ⟨hn, hr⟩ | ⟨hn, hw⟩
  · rw [hi.readN h hh] at hn
    obtain ⟨r, hmem, hdir⟩ := count32_ne_zero hn
    exact ⟨r, hmem, by simp [YoiPlEvnMask.meets, hdir, hr]⟩
  · rw [hi.writeN h hh] at hn
    obtain ⟨r, hmem, hdir⟩ := count32_ne_zero hn
    exact ⟨r, hmem, by simp [YoiPlEvnMask.meets, hdir, hw]⟩

/-- **Counters, lists and registrations agree.**  After every run on one queue, for every open
handle: the counters are the numbers of the requests on its list that wait to read and to
write, modulo 2³²; the descriptor is registered exactly when a counter is not zero, for
the directions whose counter is not zero and with the handle as user data.  And an event
that a registration of a handle is for always finds a request, so a poll never goes round
without using it. -/
theorem counters_in_step (h : Heap.system.Reach (OneQueue q) s) :
    (∀ g, s.ledger.opened g = true →
      (∃ l, s.mem.handleList g = some l ∧
        (s.mem.fd g).readN = BitVec.ofNat 32 (l.countP fun r => (s.mem.dir r).readable) ∧
        (s.mem.fd g).writeN = BitVec.ofNat 32 (l.countP fun r => (s.mem.dir r).writable)) ∧
      (((s.mem.queue q).reg (s.mem.fd g).fd).isSome = true ↔
        (s.mem.fd g).readN ≠ 0 ∨ (s.mem.fd g).writeN ≠ 0) ∧
      ∀ e, (s.mem.queue q).reg (s.mem.fd g).fd = some e →
        e.mask = ⟨(s.mem.fd g).readN != 0, (s.mem.fd g).writeN != 0⟩ ∧ e.udata = g) ∧
    ∀ fd mask g ready, (s.mem.queue q).reg fd = some ⟨mask, g⟩ → g ≠ NULL →
      mask.meets ready = true →
        (∃ r, s.mem.yoiPlGetReq g ready = some r ∧ r ≠ NULL) ∧
        ∀ env : PollEnv, env.poll = .event g ready → ∃ m step,
          s.mem.yoQueuePollRound q env = some (m, step) ∧ step ≠ .again := by
  obtain ⟨b, hR, hi⟩ := exists_inStep h
  constructor
  · intro g hg
    have hreg : (s.mem.queue q).reg (s.mem.fd g).fd =
        if (s.mem.fd g).mask = .zero then none else some ⟨(s.mem.fd g).mask, g⟩ := by
      rw [hR.reg, hR.fdNum, hR.mask]
      exact hi.reg g hg
    have hdir : ∀ r ∈ b.pend g, s.mem.dir r = b.dir r := fun r hr => (hR.waits g r hg hr).dir
    refine ⟨⟨b.pend g, hR.handleList hg, ?_, ?_⟩, ?_, ?_⟩
    · rw [(hR.counters g).1, hi.readN g hg]
      exact count32_congr fun r hr => by rw [hdir r hr]
    · rw [(hR.counters g).2, hi.writeN g hg]
      exact count32_congr fun r hr => by rw [hdir r hr]
    · rw [hreg]
      by_cases hrd : (s.mem.fd g).readN = 0#32 <;> by_cases hwr : (s.mem.fd g).writeN = 0#32 <;>
        simp [YoFd.mask, YoiPlEvnMask.zero, hrd, hwr]
    · intro e he
      rw [hreg] at he
      split at he
      · simp at he
      · rw [← Option.some.inj he]
        exact ⟨rfl, rfl⟩
  · intro fd mask g ready hreg hg hready
    rw [hR.reg] at hreg
    obtain ⟨ho, r, hpick⟩ := hi.pick hreg hg hready
    have hne : r ≠ NULL :=
      (hR.pend.seg g ho).isChain.ne_null r (List.mem_of_find?_eq_some hpick)
    refine ⟨⟨r, by rw [hR.yoiPlGetReq ready ho, hpick, Option.getD_some], hne⟩, fun env hev => ?_⟩
    obtain ⟨m', hround, -⟩ := hR.round (q := q) env fun k mask' hk _ => by
      rw [hev] at hk
      exact (OsPoll.event.inj hk).1 ▸ ho
    refine ⟨m', _, hround, ?_⟩
    cases hq : b.ready q with
    | nil => simp [Board.round, hq, hev, hg, hpick]
    | cons p l => simp [Board.round, hq]

/-! ## Where the modulus shows -/

/-- The address of the `i`-th request. -/
def readAt (i : ℕ) : YoReqT := BitVec.ofNat 64 (16 * (i + 4))

/-- A handle for descriptor 5, and `n` starts on it, for one queue and one operation. -/
def manyStarts (q : YoQueueT) (h : YoFdT) (op : YoaOp) : ℕ → List Call
  | 0 => [.fdNew h 5 true]
  | n + 1 => manyStarts q h op n ++ [.reqNew (readAt n) q, .start (readAt n) h op .ok .ok]

theorem readAt_ne_null {i : ℕ} (hi : i ≤ 2 ^ 32) : readAt i ≠ NULL := by
  intro h
  have := congrArg BitVec.toNat h
  simp only [readAt, BitVec.toNat_ofNat] at this
  omega

theorem lowBits_readAt (i : ℕ) : (readAt i).setWidth 4 = 0#4 := by
  apply BitVec.eq_of_toNat_eq
  simp only [readAt, BitVec.toNat_setWidth, BitVec.toNat_ofNat]
  omega

theorem readAt_inj {i j : ℕ} (hi : i ≤ 2 ^ 32) (hj : j ≤ 2 ^ 32) (h : readAt i = readAt j) :
    i = j := by
  have := congrArg BitVec.toNat h
  simp only [readAt, BitVec.toNat_ofNat] at this
  omega

variable {h : YoFdT} {op : YoaOp} {n : ℕ}

/-- Where the first `n` starts lead. -/
structure StartsWait (q : YoQueueT) (h : YoFdT) (op : YoaOp) (n : ℕ) (s : Conf Heap)
    (b : Board) : Prop where
  reach : Heap.system.Reach (OneQueue q) s
  refines : Refines s.ledger.opened s.mem b
  placed : ∃ pos, Board.Placed s.ledger b pos
  opened : s.ledger.opened h = true
  isFd : Heap.yoiUnixIsfd (b.fd h) = true
  length : (b.pend h).length = n
  ops : ∀ r ∈ b.pend h, b.op r = op
  fresh : ∀ i, n ≤ i → i ≤ 2 ^ 32 → s.ledger.live (readAt i) = false

/-- One more start. -/
theorem StartsWait.next (hw : StartsWait q h op n s b) (hn : n < 2 ^ 32) :
    ∃ t b', Heap.system.run s [.reqNew (readAt n) q, .start (readAt n) h op .ok .ok] = some t ∧
      StartsWait q h op (n + 1) t b' := by
  obtain ⟨pos, hp⟩ := hw.placed
  have hfresh := hw.fresh n le_rfl hn.le
  have hbusy : s.ledger.busy (readAt n) = false := by
    by_contra hb
    have := hp.live _ ((hp.busy _).mp (by simpa using hb))
    simp [hfresh] at this
  have hnew : (Call.reqNew (readAt n) q).allowed s.ledger = true := by
    simp [Call.allowed, hfresh, readAt_ne_null hn.le, lowBits_readAt]
  obtain ⟨s₁, hstep₁, hl₁, hR₁, pos₁, hp₁⟩ := step_refines hw.refines hp hnew
  have hstart : (Call.start (readAt n) h op .ok .ok).allowed s₁.ledger = true := by
    simp [Call.allowed, hl₁, Ledger.after, hbusy, hw.opened]
  obtain ⟨t, hstep₂, hl₂, hR₂, pos₂, hp₂⟩ := step_refines hR₁ hp₁ hstart
  obtain ⟨hfd, -⟩ | ⟨-, hans, -⟩ | ⟨-, -, hexec⟩ :=
    (b.exec (.reqNew (readAt n) q)).1.exec_start (readAt n) h op .ok .ok
  · exact absurd (hfd.symm.trans hw.isFd) (by decide)
  · exact absurd hans (by decide)
  rw [hexec] at hl₂ hR₂ hp₂
  have hone₁ : OneQueue q s (.reqNew (readAt n) q) := rfl
  have hone₂ : OneQueue q s₁ (.start (readAt n) h op .ok .ok) := rfl
  have hreach : Heap.system.Reach (OneQueue q) t := (hw.reach.step hone₁ hstep₁).step hone₂ hstep₂
  refine ⟨t, _, by simp [hstep₁, hstep₂], hreach, hR₂, ⟨pos₂, hp₂⟩, ?_, ?_, ?_, ?_, ?_⟩
  · simp [hl₂, hl₁, Ledger.after, hw.opened]
  · have hf := hw.isFd
    cases hk : op.kind <;>
      simpa [Board.counted, Board.recount, Board.setmask, Board.exec, Heap.yoiUnixIsfd, YoFd.inc,
        hk] using hf
  · simp [Board.exec, hw.length]
  · intro r hr
    by_cases hrn : r = readAt n
    · simp [hrn]
    · simpa [hrn, Board.exec] using hw.ops r (by simpa [hrn, Board.exec] using hr)
  · intro i hi hle
    have hne : readAt i ≠ readAt n := by
      intro e
      have := readAt_inj hle hn.le e
      omega
    simpa [hl₂, hl₁, Ledger.after, hne] using hw.fresh i (by omega) hle

/-- All the starts wait. -/
theorem startsWait (op : YoaOp) (hh : h ≠ NULL) (hq : (Heap.blank.queue q).notifyRead ≠ 5)
    (hn : n ≤ 2 ^ 32) :
    ∃ s b, Heap.system.run Heap.start (manyStarts q h op n) = some s ∧
      StartsWait q h op n s b := by
  induction n with
  | zero =>
    obtain ⟨⟨b, l⟩, hinit, rfl, hR⟩ := simulates.init _ Heap.init_start
    obtain ⟨pos, hp⟩ := Board.placed_of_reachable (.init hinit)
    have hnew : (Call.fdNew h 5 true).allowed Heap.start.ledger = true := by
      simp [Call.allowed, Heap.start, Ledger.empty, hh]
    obtain ⟨t, hstep, hl, hR', pos', hp'⟩ := step_refines hR hp hnew
    have hone : OneQueue q Heap.start (.fdNew h 5 true) :=
      ⟨Ne.symm hq, fun g hg => absurd hg (by simp [Heap.start, Ledger.empty])⟩
    refine ⟨t, _, by simp [manyStarts, hstep], (System.Reach.init Heap.init_start).step hone hstep,
      hR', ⟨pos', hp'⟩, ?_, ?_, ?_, ?_, ?_⟩
    · simp [hl, Ledger.after]
    · simp [Board.exec, Heap.yoiUnixIsfd]
    · simp [Board.exec]
    · simp [Board.exec]
    · intro i _ _
      simp [hl, Ledger.after, Heap.start, Ledger.empty]
  | succ n ih =>
    obtain ⟨s, b, hrun, hw⟩ := ih (by omega)
    obtain ⟨t, b', hrun', hw'⟩ := hw.next (by omega)
    refine ⟨t, b', ?_, hw'⟩
    rw [manyStarts, System.run_append, hrun]
    exact hrun'

/-- The direction of the requests that wait. -/
theorem StartsWait.dir (hw : StartsWait q h op n s b) :
    ∀ r ∈ b.pend h, s.mem.dir r = yoiPlTomask op.kind := by
  intro r hr
  rw [(hw.refines.waits _ r hw.opened hr).dir, Board.dir, hw.ops r hr]

/-- After 2³² reads the counter of the handle is zero and its descriptor is not registered:
nothing wakes these reads. -/
theorem counters_wrap : ∃ s l,
    Heap.system.run Heap.start (manyStarts 0x10 0x20 (.read 0x700 0x708) (2 ^ 32)) = some s ∧
      Heap.system.Reach (OneQueue 0x10) s ∧ s.ledger.opened 0x20 = true ∧
      s.mem.handleList 0x20 = some l ∧ l.countP (fun r => (s.mem.dir r).readable) = 2 ^ 32 ∧
      (s.mem.fd 0x20).readN = 0 ∧ (s.mem.queue 0x10).reg (s.mem.fd 0x20).fd = none := by
  obtain ⟨s, b, hrun, hw⟩ := startsWait (q := 0x10) (h := 0x20) (.read 0x700 0x708)
    (by decide) (by decide) (le_refl (2 ^ 32))
  obtain ⟨b', hR, hi⟩ := exists_inStep hw.reach
  have ho := hw.opened
  have hpend : b'.pend 0x20 = b.pend 0x20 :=
    Option.some.inj ((hR.handleList ho).symm.trans (hw.refines.handleList ho))
  have hdir : ∀ r ∈ b.pend 0x20, s.mem.dir r = ⟨true, false⟩ := hw.dir
  have hdir' : ∀ r ∈ b.pend 0x20, b'.dir r = ⟨true, false⟩ := by
    intro r hr
    rw [← (hR.waits _ r ho (hpend ▸ hr)).dir, hdir r hr]
  have hcount : (b.pend 0x20).countP (fun r => (s.mem.dir r).readable) = 2 ^ 32 := by
    rw [List.countP_eq_length.mpr fun r hr => by rw [hdir r hr], hw.length]
  have hreadN : (b'.fd 0x20).readN = 0 := by
    rw [hi.readN _ ho, hpend, count32, List.countP_eq_length.mpr fun r hr => by rw [hdir' r hr],
      hw.length]
    rfl
  have hwriteN : (b'.fd 0x20).writeN = 0 := by
    rw [hi.writeN _ ho, hpend, count32, List.countP_eq_zero.mpr fun r hr => by simp [hdir' r hr]]
    rfl
  refine ⟨s, b.pend 0x20, hrun, hw.reach, ho, hw.refines.handleList ho, hcount, ?_, ?_⟩
  · rw [(hR.counters _).1, hreadN]
  · rw [hR.reg, hR.fdNum, hi.reg _ ho, YoFd.mask, hreadN, hwriteN]
    rfl

/-- With one read the counter is one, and the descriptor is registered. -/
theorem counters_in_step_one : ∃ s,
    Heap.system.run Heap.start (manyStarts 0x10 0x20 (.read 0x700 0x708) 1) = some s ∧
      (s.mem.fd 0x20).readN = 1 ∧
      ((s.mem.queue 0x10).reg (s.mem.fd 0x20).fd).isSome = true := by
  obtain ⟨s, b, hrun, hw⟩ := startsWait (q := 0x10) (h := 0x20) (.read 0x700 0x708)
    (n := 1) (by decide) (by decide) (by omega)
  obtain ⟨⟨l, hl, hread, -⟩, hreg, -⟩ := (counters_in_step hw.reach).1 0x20 hw.opened
  have hdir : ∀ r ∈ b.pend 0x20, (s.mem.dir r).readable = true := by
    intro r hr
    rw [hw.dir r hr]
    rfl
  rw [hw.refines.handleList hw.opened, Option.some.injEq] at hl
  have hone : (s.mem.fd 0x20).readN = 1 := by
    rw [hread, ← hl, List.countP_eq_length.mpr hdir, hw.length]
    rfl
  exact ⟨s, hrun, hone, hreg.mpr (.inl (by rw [hone]; decide))⟩

end Yaooi
