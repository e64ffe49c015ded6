import Mathlib.Data.List.Find
import Yaooi.Queue.Board

/-!
# The memory follows the board

`Refines opened m b` says that the memory `m` holds what the board `b` shows, `opened`
being the open handles: the slot-linked list of every open handle is the board's, every
ready list is the board's, and a request that waits on a handle carries its operation and
its cancel callback.

Each function of the code is related to its counterpart on the board, and
`Heap.exec_refines` puts them together: from a board with everything in one place every
call that follows the rules comes back, with the board's answer, and leaves a memory that
holds the board's next picture.  `refines_of_reachable` is what every run gets from it.
-/

namespace Yaooi

open Transition

/-- A request that waits on a handle: its operation, and its running form. -/
structure Waits (m : Heap) (b : Board) (h : YoFdT) (r : YoReqT) : Prop where
  call : Heap.yoiPlReqDo (m.req r) = ⟨h, b.op r⟩
  cancel : (m.req r).cancel = m.text.plReqCancel
  cancelled : (m.req r).cancelled = false

/-- The memory holds what the board shows. -/
structure Refines (opened : YoFdT → Bool) (m : Heap) (b : Board) : Prop where
  queueOf : ∀ r, (m.req r).queue = b.queueOf r
  fd : ∀ h, (m.fd h).bare = b.fd h
  notifyRead : ∀ q, (m.queue q).notifyRead = b.notifyRead q
  reg : ∀ q, (m.queue q).reg = b.reg q
  pend : SlotList.Represents NULL m.ioq (fun h => opened h) b.pend
  waits : ∀ h r, opened h → r ∈ b.pend h → Waits m b h r
  ready : ∀ q, m.Ready q (b.ready q)

variable {o : YoFdT → Bool} {m : Heap} {b : Board} {h : YoFdT} {r : YoReqT} {q : YoQueueT}

/-! ## Reading the memory -/

@[simp] theorem fd_yoiPlReqDo (x : YoReq) : (Heap.yoiPlReqDo x).fd = x.ioq.fd := by
  unfold Heap.yoiPlReqDo
  split <;> rfl

@[simp] theorem kind_yoiPlReqDo (x : YoReq) : (Heap.yoiPlReqDo x).op.kind = x.ioq.kind := by
  unfold Heap.yoiPlReqDo
  split <;> simp_all [YoaOp.kind]

/-- The operation performed for a request depends on what it waits for only. -/
theorem yoiPlReqDo_congr {x y : YoReq} (hxy : x.ioq = y.ioq) :
    Heap.yoiPlReqDo x = Heap.yoiPlReqDo y := by
  unfold Heap.yoiPlReqDo
  rw [hxy]

/-- The operation a request was started for is the one performed for it. -/
theorem yoiPlReqDo_fill (x : YoReq) (op : YoaOp) :
    Heap.yoiPlReqDo { x with ioq := op.fill h x.ioq } = ⟨h, op⟩ := by
  cases op <;> rfl

theorem Waits.fd (hw : Waits m b h r) : (m.req r).ioq.fd = h := by
  rw [← fd_yoiPlReqDo, hw.call]

theorem Waits.kind (hw : Waits m b h r) : (m.req r).ioq.kind = (b.op r).kind := by
  rw [← kind_yoiPlReqDo, hw.call]

theorem Waits.dir (hw : Waits m b h r) : m.dir r = b.dir r := by
  rw [Heap.dir, hw.kind, Board.dir]

namespace Refines

/-- The descriptor of a handle. -/
theorem fdNum (hR : Refines o m b) (h : YoFdT) : (m.fd h).fd = (b.fd h).fd := by
  rw [← hR.fd h, YoFd.bare]

theorem isAt (hR : Refines o m b) (h : YoFdT) : (m.fd h).isAt = (b.fd h).isAt := by
  rw [← hR.fd h, YoFd.bare]

theorem counters (hR : Refines o m b) (h : YoFdT) :
    (m.fd h).readN = (b.fd h).readN ∧ (m.fd h).writeN = (b.fd h).writeN := by
  rw [← hR.fd h, YoFd.bare]
  exact ⟨rfl, rfl⟩

theorem mask (hR : Refines o m b) (h : YoFdT) : (m.fd h).mask = (b.fd h).mask := by
  rw [← hR.fd h, YoFd.bare, YoFd.mask, YoFd.mask]

/-- The list in memory is the board's. -/
theorem handleList (hR : Refines o m b) (ho : o h = true) :
    m.handleList h = some (b.pend h) :=
  Heap.handleList_eq m h (hR.pend.seg h ho)

theorem readyList (hR : Refines o m b) : m.readyList q = some (b.ready q) :=
  Heap.readyList_eq_some.mpr (hR.ready q)

/-! ## The steps of the functions -/

/-- A handle that is given up need not be followed further. -/
theorem shut {o' : YoFdT → Bool} (hR : Refines o m b) (ho : ∀ h, o' h = true → o h = true) :
    Refines o' m b where
  __ := hR
  pend := hR.pend.mono ho
  waits h r hh := hR.waits h r (ho h hh)

theorem setmask {u : Ptr} {fd : Int} {mask : YoiPlEvnMask} {ans : YoCode} (hR : Refines o m b) :
    Refines o (m.yoiPlImplSetmask q u fd mask ans) (b.setmask q u fd mask ans) where
  queueOf := hR.queueOf
  fd := hR.fd
  notifyRead k := by
    have := hR.notifyRead k
    rw [Heap.yoiPlImplSetmask, Heap.queue_setQueue]
    split <;> simp_all
  reg k := by
    simp only [Heap.yoiPlImplSetmask, Heap.queue_setQueue, Board.setmask, Function.update_apply]
    split
    · rw [hR.reg q]
    · exact hR.reg k
  pend := hR.pend
  waits h r hh hr := ⟨(hR.waits h r hh hr).call, (hR.waits h r hh hr).cancel,
    (hR.waits h r hh hr).cancelled⟩
  ready k := by
    refine (hR.ready k).congr ?_ (fun _ _ => rfl) (fun _ _ => rfl)
    rw [Heap.yoiPlImplSetmask, Heap.queue_setQueue]
    split <;> simp_all

/-- A change of a handle's counters. -/
theorem setFd {f : YoFd → YoFd} (hR : Refines o m b)
    (hf : ∀ x, (f x).bare = f x.bare ∧ (f x).head = x.head) :
    Refines o (m.setFd h f) { b with fd := Function.update b.fd h (f (b.fd h)) } where
  queueOf := hR.queueOf
  fd g := by
    simp only [Heap.fd_setFd, Function.update_apply]
    split
    · rw [(hf _).1, hR.fd h]
    · exact hR.fd g
  notifyRead := hR.notifyRead
  reg := hR.reg
  pend := by
    have hioq : (m.setFd h f).ioq = m.ioq := by
      have hhead : ∀ g, ((m.setFd h f).fd g).head = (m.fd g).head := by
        intro g
        rw [Heap.fd_setFd]
        split
        · rename_i hgh
          rw [(hf _).2, hgh]
        · rfl
      simp [Heap.ioq, hhead]
    rw [hioq]
    exact hR.pend
  waits h r hh hr := ⟨(hR.waits h r hh hr).call, (hR.waits h r hh hr).cancel,
    (hR.waits h r hh hr).cancelled⟩
  ready k := (hR.ready k).congr rfl (fun _ _ => rfl) (fun _ _ => rfl)

/-- `yo_fd_new` -/
theorem yoFdNew {fd : Int} {owned : Bool} (hR : Refines o m b) :
    Refines (Function.update o h true) (m.yoFdNew h fd owned)
      { b with
        fd := Function.update b.fd h ⟨NULL, owned, false, fd, 0, 0⟩
        pend := Function.update b.pend h [] } where
  queueOf := hR.queueOf
  fd g := by
    simp only [Heap.yoFdNew, Heap.fd_setFd, Function.update_apply]
    split
    · rfl
    · exact hR.fd g
  notifyRead := hR.notifyRead
  reg := hR.reg
  pend := by
    have hioq : (m.yoFdNew h fd owned).ioq =
        { m.ioq with head := Function.update m.ioq.head h NULL } := by
      have hhead : ∀ g, ((m.yoFdNew h fd owned).fd g).head =
          Function.update m.ioq.head h NULL g := by
        intro g
        simp only [Heap.yoFdNew, Heap.fd_setFd, Function.update_apply]
        split <;> rfl
      exact congrArg (SlotList.Store.mk · m.ioq.next m.ioq.slot) (funext hhead)
    rw [hioq]
    refine (hR.pend.clear (i := h)).mono fun g hg => ?_
    by_cases hgh : g = h
    · exact .inl hgh
    · exact .inr (by simpa [hgh] using hg)
  waits g r hg hr := by
    have hgh : g ≠ h := fun e => by simp [e] at hr
    have hw := hR.waits g r (by simpa [hgh] using hg) (by simpa [hgh] using hr)
    exact ⟨hw.call, hw.cancel, hw.cancelled⟩
  ready k := (hR.ready k).congr rfl (fun _ _ => rfl) (fun _ _ => rfl)

/-- A change of a request that is on no list. -/
theorem setReq {f : YoReq → YoReq} (op : YoaOp) (hR : Refines o m b)
    (hpend : ∀ h, o h = true → r ∉ b.pend h) (hready : ∀ q, r ∉ (b.ready q).map Prod.fst)
    (hnext : (f (m.req r)).ioq.next = (m.req r).ioq.next)
    (hslot : (f (m.req r)).ioq.slot = (m.req r).ioq.slot) :
    Refines o (m.setReq r f)
      { b with
        queueOf := Function.update b.queueOf r (f (m.req r)).queue
        op := Function.update b.op r op } where
  queueOf x := by
    simp only [Heap.req_setReq, Function.update_apply]
    split
    · rfl
    · exact hR.queueOf x
  fd := hR.fd
  notifyRead := hR.notifyRead
  reg := hR.reg
  pend := by
    have hioq : (m.setReq r f).ioq = m.ioq := by
      have hx : ∀ x, ((m.setReq r f).req x).ioq.next = (m.req x).ioq.next ∧
          ((m.setReq r f).req x).ioq.slot = (m.req x).ioq.slot := by
        intro x
        rw [Heap.req_setReq]
        split
        · rename_i hxr
          rw [hxr]
          exact ⟨hnext, hslot⟩
        · exact ⟨rfl, rfl⟩
      simp [Heap.ioq, hx]
    rw [hioq]
    exact hR.pend
  waits h x hh hx := by
    have hxr : x ≠ r := fun e => hpend h hh (e ▸ hx)
    have hreq : (m.setReq r f).req x = m.req x := by rw [Heap.req_setReq, if_neg hxr]
    obtain ⟨hcall, hcancel, hflag⟩ := hR.waits h x hh hx
    exact ⟨by simp only [hreq, hcall, Function.update_of_ne hxr], by rw [hreq]; exact hcancel,
      by rw [hreq]; exact hflag⟩
  ready k := (hR.ready k).frame (r := r) rfl
    (fun x hx => by rw [Heap.req_setReq, if_neg hx]) (hready k)

/-- Beginning a request that is on no list. -/
theorem yoiReqBegin (fn : Ptr) (hR : Refines o m b) (hpend : ∀ h, o h = true → r ∉ b.pend h)
    (hready : ∀ q, r ∉ (b.ready q).map Prod.fst) : Refines o (m.yoiReqBegin r fn) b := by
  have key : ∀ {m : Heap} {f : YoReq → YoReq}, Refines o m b →
      (∀ x, (f x).ioq = x.ioq ∧ (f x).queue = x.queue) → Refines o (m.setReq r f) b := by
    intro m f hR hf
    have := hR.setReq (f := f) (b.op r) hpend hready (by rw [(hf _).1]) (by rw [(hf _).1])
    rwa [(hf _).2, hR.queueOf, Function.update_eq_self, Function.update_eq_self] at this
  exact key (key hR fun _ => ⟨rfl, rfl⟩) fun _ => ⟨rfl, rfl⟩

/-- Ending a request that is on no list. -/
theorem yoiReqEnd {code : YoCode} (hR : Refines o m b)
    (hpend : ∀ h, o h = true → r ∉ b.pend h) (hready : ∀ q, r ∉ (b.ready q).map Prod.fst)
    (hne : r ≠ NULL) : Refines o (m.yoiReqEnd r code) (b.push r code) where
  queueOf x := by
    rw [Heap.reqQueue_yoiReqEnd]
    exact hR.queueOf x
  fd := hR.fd
  notifyRead k := by
    rw [Heap.queue_yoiReqEnd]
    split <;> exact hR.notifyRead k
  reg k := by
    rw [Heap.reg_yoiReqEnd]
    exact hR.reg k
  pend := by
    rw [Heap.ioq_yoiReqEnd]
    exact hR.pend
  waits h x hh hx := by
    have hxr : x ≠ r := fun e => hpend h hh (e ▸ hx)
    have hreq : (m.yoiReqEnd r code).req x = m.req x := by rw [Heap.req_yoiReqEnd, if_neg hxr]
    obtain ⟨hcall, hcancel, hflag⟩ := hR.waits h x hh hx
    exact ⟨by rw [hreq]; exact hcall, by rw [hreq]; exact hcancel, by rw [hreq]; exact hflag⟩
  ready k := by
    rw [Board.ready_push, ← hR.queueOf r]
    split
    · rename_i hk
      subst hk
      exact Heap.ready_yoiReqEnd (hR.ready _) (hready _) hne
    · rename_i hk
      exact Heap.ready_yoiReqEnd_of_ne (hR.ready k) (hready k) hk

/-- An operation on the lists of the handles. -/
theorem setIoq {s : SlotList.Store YoFdT YoReqT} {pend : YoFdT → List YoReqT}
    (hR : Refines o m b) (hs : SlotList.Represents NULL s (fun h => o h) pend)
    (hw : ∀ h x, o h = true → x ∈ pend h → Waits m b h x) :
    Refines o (m.setIoq s) { b with pend := pend } where
  queueOf := hR.queueOf
  fd := hR.fd
  notifyRead := hR.notifyRead
  reg := hR.reg
  pend := hs
  waits h x hh hx := ⟨(hw h x hh hx).call, (hw h x hh hx).cancel, (hw h x hh hx).cancelled⟩
  ready k := (hR.ready k).congr rfl (fun _ _ => rfl) (fun _ _ => rfl)

theorem yoiDlistAdd (hR : Refines o m b) (ho : o h = true)
    (hpend : ∀ h, o h = true → r ∉ b.pend h) (hne : r ≠ NULL) (hw : Waits m b h r) :
    Refines o (m.yoiDlistAdd h r)
      { b with pend := Function.update b.pend h (r :: b.pend h) } := by
  apply hR.setIoq (hR.pend.add ho hpend hne)
  intro g x hg hx
  by_cases hgh : g = h
  · subst hgh
    rw [Function.update_self] at hx
    rcases List.mem_cons.mp hx with rfl | hx
    · exact hw
    · exact hR.waits g x hg hx
  · rw [Function.update_of_ne hgh] at hx
    exact hR.waits g x hg hx

theorem yoiDlistDel (hR : Refines o m b) (ho : o h = true) (hr : r ∈ b.pend h) :
    Refines o (m.yoiDlistDel r)
      { b with pend := Function.update b.pend h ((b.pend h).erase r) } := by
  apply hR.setIoq (hR.pend.del ho hr)
  intro g x hg hx
  by_cases hgh : g = h
  · subst hgh
    rw [Function.update_self] at hx
    exact hR.waits g x hg (List.mem_of_mem_erase hx)
  · rw [Function.update_of_ne hgh] at hx
    exact hR.waits g x hg hx

theorem yoiQueuePop {code : YoCode} {t : List (YoReqT × YoCode)} (hR : Refines o m b)
    (hq : b.ready q = (r, code) :: t) :
    (m.yoiQueuePop q).2 = some (r, code) ∧
      Refines o (m.yoiQueuePop q).1 { b with ready := Function.update b.ready q t } := by
  obtain ⟨hpop, hready⟩ := Heap.yoiQueuePop_cons (hq ▸ hR.ready q)
  refine ⟨hpop, ?_⟩
  constructor
  case queueOf =>
    intro x
    rw [Heap.req_yoiQueuePop]
    exact hR.queueOf x
  case fd =>
    intro h
    rw [Heap.fd_yoiQueuePop]
    exact hR.fd h
  case notifyRead =>
    intro k
    rw [Heap.notifyRead_yoiQueuePop]
    exact hR.notifyRead k
  case reg =>
    intro k
    rw [Heap.reg_yoiQueuePop]
    exact hR.reg k
  case pend =>
    rw [Heap.ioq_yoiQueuePop]
    exact hR.pend
  case waits =>
    intro h x hh hx
    obtain ⟨hcall, hcancel, hflag⟩ := hR.waits h x hh hx
    constructor <;> simpa
  case ready =>
    intro k
    by_cases hk : k = q
    · simpa [hk] using hready
    · simpa [hk] using Heap.ready_yoiQueuePop_of_ne (hR.ready k) hk

/-! ## The functions of the backend -/

theorem recount {f : YoFd → YoFd} (ans : YoCode) (hR : Refines o m b)
    (hf : ∀ x, (f x).bare = f x.bare ∧ (f x).head = x.head) :
    Refines o ((m.setFd h f).yoiPlImplSetmask (m.req r).queue h ((m.setFd h f).fd h).fd
      ((m.setFd h f).fd h).mask ans) (b.recount r h f ans) := by
  have hR₁ := hR.setFd (h := h) hf
  rw [hR₁.fdNum, hR₁.mask, hR.queueOf]
  exact hR₁.setmask

/-- `_yoi_pl_req_start`, for a request that is on no list. -/
theorem yoiPlReqStart {ans res : YoCode} (hR : Refines o m b) (ho : o h = true)
    (hpend : ∀ h, o h = true → r ∉ b.pend h) (hready : ∀ q, r ∉ (b.ready q).map Prod.fst)
    (hne : r ≠ NULL) (hcall : Heap.yoiPlReqDo (m.req r) = ⟨h, b.op r⟩) :
    Refines o (m.yoiPlReqStart r ans res).1 (b.enlist r h ans res).1 ∧
      (m.yoiPlReqStart r ans res).2 = (b.enlist r h ans res).2 := by
  have hfd : (m.req r).ioq.fd = h := by rw [← fd_yoiPlReqDo, hcall]
  have hkind : (m.req r).ioq.kind = (b.op r).kind := by rw [← kind_yoiPlReqDo, hcall]
  have hR₁ := hR.recount (h := h) (r := r) (f := (·.inc (b.op r).kind)) ans
    fun x => by cases hk : (b.op r).kind <;> exact ⟨rfl, rfl⟩
  have hR₂ := hR₁.yoiReqBegin (r := r) m.text.plReqCancel hpend hready
  simp only [Heap.yoiPlReqStart, hfd, hkind, Board.enlist]
  split
  · refine ⟨hR₂.yoiReqEnd hpend hready hne, ?_⟩
    rw [yoiPlReqDo_congr (Heap.reqIoq_yoiReqBegin ..)]
    exact congrArg (fun call => (YoCode.ok, some call)) hcall
  · refine ⟨hR₂.yoiDlistAdd ho hpend hne ⟨?_, ?_, ?_⟩, rfl⟩
    · rw [yoiPlReqDo_congr (Heap.reqIoq_yoiReqBegin ..)]
      exact hcall
    · rw [Heap.req_yoiReqBegin, if_pos rfl]
      rfl
    · rw [Heap.req_yoiReqBegin, if_pos rfl, YoReq.cancelled_setCancelled]

/-- A `yoa_*` function, for a request that is on no list. -/
theorem yoa (op : YoaOp) (ans res : YoCode) (hR : Refines o m b) (ho : o h = true)
    (hpend : ∀ h, o h = true → r ∉ b.pend h) (hready : ∀ q, r ∉ (b.ready q).map Prod.fst)
    (hne : r ≠ NULL) :
    Refines o (m.yoa r h op ans res).1 (b.start r h op ans res).1 ∧
      (m.yoa r h op ans res).2 = (b.start r h op ans res).2 := by
  have hfd : Heap.yoiUnixIsfd (m.fd h) = Heap.yoiUnixIsfd (b.fd h) :=
    congrArg (!·) (hR.isAt h)
  rw [Heap.yoa_eq, Heap.yoaStart, Board.start, hfd]
  split
  · have hR₁ := hR.setReq (f := fun q => { q with ioq := op.fill h q.ioq }) op
      hpend hready (by cases op <;> rfl) (by cases op <;> rfl)
    rw [hR.queueOf r, Function.update_eq_self] at hR₁
    apply hR₁.yoiPlReqStart ho hpend hready hne
    rw [Heap.req_setReq_self, yoiPlReqDo_fill]
    simp
  · exact ⟨hR, rfl⟩

/-- `_yoi_pl_req_stop`, for a request that waits on an open handle. -/
theorem yoiPlReqStop {ans : YoCode} (hR : Refines o m b) (ho : o h = true)
    (hr : r ∈ b.pend h) : Refines o (m.yoiPlReqStop r ans) (b.stop r h ans) := by
  have hw := hR.waits h r ho hr
  have hR₁ := hR.setFd (h := h) (f := (·.dec (b.op r).kind))
    fun x => by cases hk : (b.op r).kind <;> exact ⟨rfl, rfl⟩
  have hR₂ := hR₁.yoiDlistDel ho hr
  rw [Heap.yoiPlReqStop, hw.fd, hw.kind, hR₁.mask, hR₂.fdNum, hR₂.queueOf]
  exact hR₂.setmask

/-- `_yoi_pl_get_req`, on an open handle. -/
theorem yoiPlGetReq (mask : YoiPlEvnMask) (hR : Refines o m b) (ho : o h = true) :
    m.yoiPlGetReq h mask = some ((b.pick h mask).getD NULL) := by
  have hseg := hR.pend.seg h ho
  have hfind : (b.pend h).find? (fun i => (yoiPlTomask (m.req i).ioq.kind).meets mask) =
      b.pick h mask := by
    refine List.find?_congr fun r hr => ?_
    rw [(hR.waits h r ho hr).kind, Board.dir]
  rw [← hfind]
  exact Chain.seek_eq hseg.isChain (Heap.length_lt_rounds hseg.isChain)

/-- The loop of `yoi_unix_onclose`, over any requests that are on no list. -/
theorem oncloseBody {ans : YoReqT → YoCode} {l : List YoReqT} (hR : Refines o m b)
    (hpend : ∀ r ∈ l, ∀ h, o h = true → r ∉ b.pend h)
    (hready : ∀ r ∈ l, ∀ q, r ∉ (b.ready q).map Prod.fst) (hnd : l.Nodup)
    (hne : ∀ r ∈ l, r ≠ NULL) :
    Refines o (l.foldl (Heap.oncloseBody h ans) m) (b.cancelAll h ans l) := by
  induction l generalizing m b with
  | nil => exact hR
  | cons i l ih =>
    obtain ⟨hi, hnd⟩ := List.nodup_cons.mp hnd
    rw [List.foldl_cons, Board.cancelAll_cons, Heap.oncloseBody, hR.queueOf, hR.fdNum]
    have hmem := List.mem_cons_self (a := i) (l := l)
    refine ih (hR.setmask.yoiReqEnd (hpend i hmem) (hready i hmem) (hne i hmem)) ?_ ?_ hnd ?_
    · exact fun r hr => hpend r (List.mem_cons_of_mem _ hr)
    · intro r hr q hq
      rw [Board.ready_push] at hq
      have hri : r ≠ i := fun e => hi (e ▸ hr)
      have hold := hready r (List.mem_cons_of_mem _ hr) q
      split at hq
      · exact hold (by simpa [hri] using hq)
      · exact hold hq
    · exact fun r hr => hne r (List.mem_cons_of_mem _ hr)

/-- `yoi_unix_onclose`: the loop ends, and the handle is given up. -/
theorem yoiUnixOnclose {o' : YoFdT → Bool} (ans : YoReqT → YoCode) (hR : Refines o m b)
    (ho : o h = true) (ho' : ∀ g, o' g = true → o g = true ∧ g ≠ h)
    (hready : ∀ r ∈ b.pend h, ∀ q, r ∉ (b.ready q).map Prod.fst) :
    ∃ m', m.yoiUnixOnclose h ans = some m' ∧ Refines o' m' (b.close h ans) := by
  have hseg := hR.pend.seg h ho
  have hnext : ∀ (m : Heap) i, (Heap.oncloseBody h ans m i).ioq.next = m.ioq.next :=
    fun m i => by simp [Heap.oncloseBody, Heap.yoiPlImplSetmask]
  have hloop : m.yoiUnixOnclose h ans = some ((b.pend h).foldl (Heap.oncloseBody h ans) m) :=
    Chain.sweep_eq hnext hseg.isChain (Heap.length_lt_rounds hseg.isChain)
  refine ⟨_, hloop, ?_⟩
  rw [Board.close_eq_cancelAll]
  refine (hR.shut fun g hg => (ho' g hg).1).oncloseBody ?_ hready hseg.nodup
    hseg.isChain.ne_null
  intro r hr g hg hr'
  obtain ⟨hg, hgh⟩ := ho' g hg
  exact hgh (hR.pend.disjoint g h r hg ho hr' hr)

/-- One round of `yo_queue_poll`. -/
theorem round (env : PollEnv) (hR : Refines o m b)
    (hev : ∀ h mask, env.poll = .event h mask → h ≠ NULL → o h = true) :
    ∃ m', m.yoQueuePollRound q env = some (m', (b.round q env).2) ∧
      Refines o m' (b.round q env).1 := by
  cases hq : b.ready q with
  | cons p t =>
    obtain ⟨r, code⟩ := p
    obtain ⟨hpop, hR'⟩ := hR.yoiQueuePop hq
    refine ⟨(m.yoiQueuePop q).1, ?_, by simpa [Board.round, hq] using hR'⟩
    rw [Heap.yoQueuePollRound, ← Prod.mk.eta (p := m.yoiQueuePop q), hpop]
    simp [Board.round, hq]
  | nil =>
    have hpop := Heap.yoiQueuePop_nil (hq ▸ hR.ready q)
    rw [Heap.yoQueuePollRound, hpop]
    cases hpoll : env.poll with
    | error code => exact ⟨m, by simp [Board.round, hq, hpoll], by simpa [Board.round, hq, hpoll]⟩
    | event h mask =>
      by_cases hh : h = NULL
      · exact ⟨m, by simp [Board.round, hq, hpoll, hh], by simpa [Board.round, hq, hpoll, hh]⟩
      have ho := hev h mask hpoll hh
      have hget := hR.yoiPlGetReq mask ho
      cases hpick : b.pick h mask with
      | none =>
        rw [hpick, Option.getD_none] at hget
        exact ⟨m, by simp [Board.round, hq, hpoll, hh, hpick, hget],
          by simpa [Board.round, hq, hpoll, hh, hpick]⟩
      | some r =>
        rw [hpick, Option.getD_some] at hget
        have hr : r ∈ b.pend h := List.mem_of_find?_eq_some hpick
        have hne : r ≠ NULL := (hR.pend.seg h ho).isChain.ne_null r hr
        have hcall : Heap.yoiPlReqDo ((m.yoiPlReqStop r env.ans).req r) = ⟨h, b.op r⟩ :=
          (hR.waits h r ho hr).call
        refine ⟨m.yoiPlReqStop r env.ans, ?_, ?_⟩
        · simp [Board.round, hq, hh, hpoll, hpick, hget, hne, hcall]
        · simpa [Board.round, hq, hpoll, hh, hpick] using hR.yoiPlReqStop ho hr

/-- What one round of `yo_queue_poll` can answer. -/
theorem round_cases (env : PollEnv) (hR : Refines o m b)
    (hev : ∀ h mask, env.poll = .event h mask → h ≠ NULL → o h = true) :
    (∃ r code t m', b.ready q = (r, code) :: t ∧
      m.yoQueuePollRound q env = some (m', .returned r code none)) ∨
    (∃ h mask r m', b.ready q = [] ∧ env.poll = .event h mask ∧ h ≠ NULL ∧ o h = true ∧
      b.pick h mask = some r ∧
        m.yoQueuePollRound q env = some (m', .returned r env.res (some ⟨h, b.op r⟩))) ∨
    (∃ m' step, m.yoQueuePollRound q env = some (m', step) ∧
      ∀ r code ran, step ≠ .returned r code ran) := by
  obtain ⟨m', hround, -⟩ := hR.round (q := q) env hev
  have hstep : (b.exec (.poll q env)).2 = .polled (b.round q env).2 := rfl
  obtain ⟨r, code, t, hready, hexec⟩ | ⟨h, mask, r, hready, hpoll, hh, hpick, hexec⟩ |
    ⟨-, -, step, hexec, hnone⟩ := b.exec_poll q env
  all_goals
    rw [hexec] at hstep
    rw [← Outcome.polled.inj hstep] at hround
  · exact .inl ⟨r, code, t, m', hready, hround⟩
  · exact .inr (.inl ⟨h, mask, r, m', hready, hpoll, hh, hev h mask hpoll hh, hpick, hround⟩)
  · exact .inr (.inr ⟨m', step, hround, hnone⟩)

end Refines

/-! ## The calls -/

variable {l : Ledger} {place : YoReqT → Board.Place}

/-- **Every call follows the board.**  From a board with everything in one place, a call
that follows the rules comes back with the board's answer, and leaves the board's next
picture. -/
theorem Heap.exec_refines {c : Call} (hR : Refines l.opened m b)
    (hp : Board.Placed l b place) (hc : c.allowed l = true) :
    ∃ m', m.exec c = some (m', (b.exec c).2) ∧
      Refines (l.after c (b.exec c).2).opened m' (b.exec c).1 := by
  have idle : ∀ {r}, l.busy r = false → (∀ h, l.opened h = true → r ∉ b.pend h) ∧
      ∀ q, r ∉ (b.ready q).map Prod.fst := fun {r} hr => by
    have hplace := hp.idle_of_not_busy hr
    exact ⟨fun h hh => hp.not_mem_pend (by simp [hplace]) hh,
      fun q => hp.not_mem_ready (by simp [hplace])⟩
  cases c with
  | reqNew r q =>
    simp only [Call.allowed, Bool.and_eq_true, Bool.not_eq_true', bne_iff_ne] at hc
    have hidle : l.busy r = false := by
      by_contra hbusy
      have := hp.live r ((hp.busy r).mp (by simpa using hbusy))
      simp [hc.1.1] at this
    have hR' := hR.setReq (f := fun k => { k with queue := q }) (b.op r)
      (idle hidle).1 (idle hidle).2 rfl rfl
    rw [Function.update_eq_self] at hR'
    exact ⟨_, rfl, hR'⟩
  | reqFree r => exact ⟨m, rfl, hR⟩
  | fdNew h fd owned => exact ⟨_, rfl, hR.yoFdNew⟩
  | start r h op ans res =>
    simp only [Call.allowed, Bool.and_eq_true, Bool.not_eq_true'] at hc
    obtain ⟨⟨hlive, hbusy⟩, ho⟩ := hc
    obtain ⟨hR', hout⟩ := hR.yoa op ans res ho (idle hbusy).1
      (idle hbusy).2 (hp.live_ok r hlive).1
    refine ⟨(m.yoa r h op ans res).1, ?_, ?_⟩
    · have hfd : yoiUnixIsfd (m.fd h) = yoiUnixIsfd (b.fd h) := congrArg (!·) (hR.isAt h)
      simp [exec, Board.exec, hout, hfd]
    · have hopened : (l.after (.start r h op ans res) (b.exec (.start r h op ans res)).2).opened =
          l.opened := by
        simp only [Board.exec, Ledger.after]
        split <;> simp_all
      rw [hopened]
      exact hR'
  | exec r =>
    simp only [Call.allowed, Bool.and_eq_true, Bool.not_eq_true'] at hc
    exact ⟨_, rfl, hR.yoiReqBegin _ (idle hc.2).1 (idle hc.2).2⟩
  | finish r code =>
    have hplace := (hp.pool r).mp hc
    refine ⟨_, rfl, hR.yoiReqEnd ?_ ?_ (hp.live_ok r (hp.live r (by simp [hplace]))).1⟩
    · exact fun h hh => hp.not_mem_pend (by simp [hplace]) hh
    · exact fun q => hp.not_mem_ready (by simp [hplace])
  | close h ans =>
    have ho : l.opened h = true := hc
    have hopened : ∀ g, Function.update l.opened h false g = true → l.opened g = true ∧ g ≠ h := by
      intro g hg
      have hgh : g ≠ h := fun e => by simp [e] at hg
      exact ⟨by simpa [hgh] using hg, hgh⟩
    have hready : ∀ r ∈ b.pend h, ∀ q, r ∉ (b.ready q).map Prod.fst := by
      intro r hr q
      have hplace := (hp.pend h r ho).mp hr
      exact hp.not_mem_ready (by simp [hplace])
    obtain ⟨m', hm, hR'⟩ := hR.yoiUnixOnclose ans ho hopened hready
    exact ⟨m', by simp [exec, Board.exec, hm], hR'⟩
  | poll q env =>
    have hev : ∀ h mask, env.poll = .event h mask → h ≠ NULL → l.opened h = true := by
      intro h mask hev hh
      simpa [Call.allowed, hev, hh] using hc
    obtain ⟨m', hm, hR'⟩ := hR.round (q := q) env hev
    refine ⟨m', by simp [exec, Board.exec, hm], ?_⟩
    have hopened : (l.after (.poll q env) (b.exec (.poll q env)).2).opened = l.opened := by
      simp only [Board.exec, Ledger.after]
      split <;> simp_all
    rw [hopened]
    exact hR'

/-- One call, taken by the memory and the board together. -/
theorem step_refines {s : Conf Heap} {c : Call} (hR : Refines s.ledger.opened s.mem b)
    (hp : Board.Placed s.ledger b place) (hc : c.allowed s.ledger = true) :
    ∃ t, Heap.system.step s c = some t ∧ t.ledger = s.ledger.after c (b.exec c).2 ∧
      Refines t.ledger.opened t.mem (b.exec c).1 ∧
        ∃ place', Board.Placed t.ledger (b.exec c).1 place' := by
  obtain ⟨m', hexec, hR'⟩ := Heap.exec_refines hR hp hc
  exact ⟨⟨m', s.ledger.after c (b.exec c).2⟩, by simp [Heap.system, calls, hc, hexec], rfl, hR',
    hp.step hc⟩

/-- The board that a memory without requests and handles shows. -/
def Heap.board (m : Heap) : Board where
  queueOf r := (m.req r).queue
  op r := (yoiPlReqDo (m.req r)).op
  fd h := (m.fd h).bare
  notifyRead q := (m.queue q).notifyRead
  reg q := (m.queue q).reg
  pend _ := []
  ready _ := []

/-- The runs of the memory follow the runs of the board, under the same book. -/
def follows (s : Conf Heap) (t : Conf Board) : Prop :=
  s.ledger = t.ledger ∧ Refines s.ledger.opened s.mem t.mem

/-- **The memory simulates the board**, call by call. -/
theorem simulates : System.Simulates Heap.system Board.system follows where
  init := by
    rintro ⟨m, l⟩ ⟨hfresh, rfl⟩
    refine ⟨⟨m.board, .empty⟩, ⟨fun q => ⟨rfl, (hfresh q).2⟩, rfl⟩, rfl, ?_⟩
    constructor
    case pend => constructor <;> simp [Ledger.empty]
    case waits => simp [Ledger.empty]
    case ready => exact fun q => ⟨(hfresh q).1, by simp [Heap.board]⟩
    all_goals exact fun _ => rfl
  step := by
    rintro ⟨m, l⟩ ⟨b, l'⟩ c t hreach ⟨rfl, hR⟩ hstep
    obtain ⟨hc, m', out, hexec, rfl⟩ := calls_step hstep
    obtain ⟨place, hp⟩ := Board.placed_of_reachable hreach
    obtain ⟨m'', hexec', hR'⟩ := Heap.exec_refines hR hp hc
    rw [hexec, Option.some.injEq, Prod.mk.injEq] at hexec'
    obtain ⟨rfl, rfl⟩ := hexec'
    refine ⟨⟨(b.exec c).1, l.after c (b.exec c).2⟩, ?_, rfl, hR'⟩
    have hc' : c.allowed l = true := hc
    simp [Board.system, calls, hc']

/-- **Every run of the memory shows a run of the board**, with the same book and calls,
with everything in one place. -/
theorem refines_of_reach {φ : Conf Heap → Call → Prop} {ψ : Conf Board → Call → Prop}
    {s : Conf Heap} (hφψ : ∀ s t c, follows s t → φ s c → ψ t c) (h : Heap.system.Reach φ s) :
    ∃ b, Board.system.Reach ψ ⟨b, s.ledger⟩ ∧ Refines s.ledger.opened s.mem b ∧
      ∃ place, Board.Placed s.ledger b place := by
  obtain ⟨⟨b, l⟩, hreach, hl, hR⟩ := simulates.reach hφψ h
  obtain rfl : s.ledger = l := hl
  exact ⟨b, hreach, hR, Board.placed_of_reachable hreach.reachable⟩

theorem refines_of_reachable {s : Conf Heap} (h : Heap.system.Reachable s) :
    ∃ b, Board.system.Reachable ⟨b, s.ledger⟩ ∧ Refines s.ledger.opened s.mem b ∧
      ∃ place, Board.Placed s.ledger b place :=
  refines_of_reach (fun _ _ _ _ => id) h

/-- **No call hangs.**  After any run, every call that follows the rules comes back. -/
theorem exec_returns {s : Conf Heap} {c : Call} (h : Heap.system.Reachable s)
    (hc : c.allowed s.ledger = true) : ∃ t, Heap.system.step s c = some t := by
  obtain ⟨b, -, hR, place, hp⟩ := refines_of_reachable h
  obtain ⟨t, hstep, -⟩ := step_refines hR hp hc
  exact ⟨t, hstep⟩

end Yaooi
