import Yaooi.Queue.Basic

/-!
# The ready list

`yoi_req_begin`, `yoi_req_end` and `yoi_queue_pop` of `src/queue.c`: a request is
put in its running form, put on its queue's ready list with a result code, and
taken from the front of the list.

`Heap.Ready m q l` says that the memory `m` holds the ready list `l` for the queue
`q`.  `ready_yoiReqEnd` and `ready_yoiQueuePop` are what ending a request and
popping one do to it; `Ready.congr` is the frame rule everything else uses.
-/

namespace Yaooi

namespace Heap

/-- `yoi_req_begin` -/
def yoiReqBegin (m : Heap) (r : YoReqT) (cancel : Ptr) : Heap :=
  (m.setReq r (·.setCancel cancel)).setReq r (·.setCancelled false)

/-- `yoi_req_end`.  The notification at its end touches no memory. -/
def yoiReqEnd (m : Heap) (r : YoReqT) (code : YoCode) : Heap :=
  let m := m.setReq r (·.setCode code)
  let q := (m.req r).queue
  let m := m.setReq r (·.setNext (m.queue q).head)
  m.setQueue q fun k => { k with head := r }

/-- `yoi_req_cancel_noop_cb` -/
def yoiReqCancelNoopCb (m : Heap) (r : YoReqT) : Heap := m.yoiReqEnd r .ecanceled

/-- `yoi_queue_pop`: the request taken from the ready list and its code, if any. -/
def yoiQueuePop (m : Heap) (q : YoQueueT) : Heap × Option (YoReqT × YoCode) :=
  let r := (m.queue q).head
  if r = NULL then (m, none)
  else
    let m := m.setQueue q fun k => { k with head := (m.req r).next }
    (m, some (r, (m.req r).code))

/-! ## What the operations leave alone -/

variable (m : Heap) (r x : YoReqT) (q k : YoQueueT) (c : YoCode) (fn : Ptr)

@[simp] theorem fd_yoiReqBegin : (m.yoiReqBegin r fn).fd = m.fd := rfl
@[simp] theorem queue_yoiReqBegin : (m.yoiReqBegin r fn).queue = m.queue := rfl
@[simp] theorem text_yoiReqBegin : (m.yoiReqBegin r fn).text = m.text := rfl

theorem req_yoiReqBegin :
    (m.yoiReqBegin r fn).req x =
      if x = r then ((m.req r).setCancel fn).setCancelled false else m.req x := by
  simp only [yoiReqBegin, req_setReq]
  split <;> simp_all

@[simp] theorem reqQueue_yoiReqBegin :
    ((m.yoiReqBegin r fn).req x).queue = (m.req x).queue := by
  rw [req_yoiReqBegin]
  split <;> simp_all

@[simp] theorem reqIoq_yoiReqBegin : ((m.yoiReqBegin r fn).req x).ioq = (m.req x).ioq := by
  rw [req_yoiReqBegin]
  split <;> simp_all

@[simp] theorem ioq_yoiReqBegin : (m.yoiReqBegin r fn).ioq = m.ioq := by
  simp [ioq]

@[simp] theorem fd_yoiReqEnd : (m.yoiReqEnd r c).fd = m.fd := rfl
@[simp] theorem text_yoiReqEnd : (m.yoiReqEnd r c).text = m.text := rfl

theorem req_yoiReqEnd :
    (m.yoiReqEnd r c).req x =
      if x = r then ((m.req r).setCode c).setNext (m.queue (m.req r).queue).head
      else m.req x := by
  simp only [yoiReqEnd, req_setQueue, req_setReq, queue_setReq, YoReq.queue_setCode, if_true]
  split <;> simp_all

theorem queue_yoiReqEnd :
    (m.yoiReqEnd r c).queue k =
      if k = (m.req r).queue then { m.queue k with head := r } else m.queue k := by
  simp only [yoiReqEnd, queue_setQueue, queue_setReq, req_setReq, YoReq.queue_setCode, if_true]
  split <;> simp_all

@[simp] theorem reqQueue_yoiReqEnd : ((m.yoiReqEnd r c).req x).queue = (m.req x).queue := by
  rw [req_yoiReqEnd]
  split <;> simp_all

@[simp] theorem reqIoq_yoiReqEnd : ((m.yoiReqEnd r c).req x).ioq = (m.req x).ioq := by
  rw [req_yoiReqEnd]
  split <;> simp_all

@[simp] theorem ioq_yoiReqEnd : (m.yoiReqEnd r c).ioq = m.ioq := by
  simp [ioq]

@[simp] theorem reg_yoiReqEnd : ((m.yoiReqEnd r c).queue k).reg = (m.queue k).reg := by
  rw [queue_yoiReqEnd]
  split <;> rfl

@[simp] theorem req_yoiQueuePop : (m.yoiQueuePop q).1.req = m.req := by
  simp only [yoiQueuePop]
  split <;> rfl

@[simp] theorem fd_yoiQueuePop : (m.yoiQueuePop q).1.fd = m.fd := by
  simp only [yoiQueuePop]
  split <;> rfl

@[simp] theorem text_yoiQueuePop : (m.yoiQueuePop q).1.text = m.text := by
  simp only [yoiQueuePop]
  split <;> rfl

@[simp] theorem ioq_yoiQueuePop : (m.yoiQueuePop q).1.ioq = m.ioq := by
  simp [ioq]

@[simp] theorem reg_yoiQueuePop : ((m.yoiQueuePop q).1.queue k).reg = (m.queue k).reg := by
  simp only [yoiQueuePop]
  split
  · rfl
  · rw [queue_setQueue]
    split <;> simp_all

@[simp] theorem notifyRead_yoiQueuePop :
    ((m.yoiQueuePop q).1.queue k).notifyRead = (m.queue k).notifyRead := by
  simp only [yoiQueuePop]
  split
  · rfl
  · rw [queue_setQueue]
    split <;> simp_all

/-! ## What they do to the ready list -/

/-- The memory holds the ready list `l` for the queue `q`: following `ready.next` from
the head visits the requests of `l`, and each carries its code. -/
def Ready (m : Heap) (q : YoQueueT) (l : List (YoReqT × YoCode)) : Prop :=
  Chain.IsChain (fun r => (m.req r).next) NULL (m.queue q).head (l.map Prod.fst) ∧
    ∀ p ∈ l, (m.req p.1).code = p.2

variable {m r x q k c fn} {m' : Heap} {l : List (YoReqT × YoCode)}

theorem Ready.nodup (h : m.Ready q l) : (l.map Prod.fst).Nodup := h.1.nodup

/-- The ready list only depends on the head and on the two words of its requests. -/
theorem Ready.congr (h : m.Ready q l) (hhead : (m'.queue q).head = (m.queue q).head)
    (hnext : ∀ p ∈ l, (m'.req p.1).next = (m.req p.1).next)
    (hcode : ∀ p ∈ l, (m'.req p.1).code = (m.req p.1).code) : m'.Ready q l := by
  refine ⟨?_, fun p hp => (hcode p hp).trans (h.2 p hp)⟩
  rw [hhead]
  apply h.1.congr
  intro x hx
  obtain ⟨p, hp, rfl⟩ := List.mem_map.mp hx
  exact hnext p hp

/-- A change to a request that is not on the ready list leaves the list alone. -/
theorem Ready.frame (h : m.Ready q l) (hhead : (m'.queue q).head = (m.queue q).head)
    (hreq : ∀ x, x ≠ r → m'.req x = m.req x) (hr : r ∉ l.map Prod.fst) : m'.Ready q l := by
  have hne : ∀ p ∈ l, p.1 ≠ r := fun p hp e => hr (List.mem_map.mpr ⟨p, hp, e⟩)
  exact h.congr hhead (fun p hp => by rw [hreq _ (hne p hp)])
    (fun p hp => by rw [hreq _ (hne p hp)])

/-- Ending a request puts it in front of its queue's ready list, with its code. -/
theorem ready_yoiReqEnd (h : m.Ready (m.req r).queue l) (hr : r ∉ l.map Prod.fst)
    (hne : r ≠ NULL) : (m.yoiReqEnd r c).Ready (m.req r).queue ((r, c) :: l) := by
  have hreq : ∀ x, x ≠ r → (m.yoiReqEnd r c).req x = m.req x := by
    intro x hx
    rw [req_yoiReqEnd, if_neg hx]
  have hmem : ∀ p ∈ l, p.1 ≠ r := fun p hp e => hr (List.mem_map.mpr ⟨p, hp, e⟩)
  constructor
  · refine ⟨by rw [queue_yoiReqEnd, if_pos rfl], hne, ?_⟩
    have hnext : ((m.yoiReqEnd r c).req r).next = (m.queue (m.req r).queue).head := by
      rw [req_yoiReqEnd, if_pos rfl, YoReq.next_setNext]
    show Chain.IsChain _ NULL ((m.yoiReqEnd r c).req r).next _
    rw [hnext]
    apply h.1.congr
    intro x hx
    obtain ⟨p, hp, rfl⟩ := List.mem_map.mp hx
    rw [hreq _ (hmem p hp)]
  · intro p hp
    rcases List.mem_cons.mp hp with rfl | hp
    · rw [req_yoiReqEnd, if_pos rfl]
      simp
    · rw [hreq _ (hmem p hp)]
      exact h.2 p hp

/-- Ending a request leaves the ready lists of the other queues alone. -/
theorem ready_yoiReqEnd_of_ne (h : m.Ready q l) (hr : r ∉ l.map Prod.fst)
    (hq : q ≠ (m.req r).queue) : (m.yoiReqEnd r c).Ready q l := by
  refine h.frame (r := r) ?_ ?_ hr
  · rw [queue_yoiReqEnd, if_neg hq]
  · exact fun x hx => by rw [req_yoiReqEnd, if_neg hx]

/-- Popping an empty ready list finds nothing and changes nothing. -/
theorem yoiQueuePop_nil (h : m.Ready q []) : m.yoiQueuePop q = (m, none) := by
  have hhead : (m.queue q).head = NULL := h.1
  simp [yoiQueuePop, hhead]

/-- A pop that finds nothing changes nothing, and finds the list empty. -/
theorem yoiQueuePop_eq_none {m' : Heap} (h : m.yoiQueuePop q = (m', none)) :
    m' = m ∧ (m.queue q).head = NULL := by
  simp only [yoiQueuePop] at h
  split at h <;> cases h
  exact ⟨rfl, by assumption⟩

/-- Popping takes the first request, with its code. -/
theorem yoiQueuePop_cons (h : m.Ready q ((r, c) :: l)) :
    (m.yoiQueuePop q).2 = some (r, c) ∧ (m.yoiQueuePop q).1.Ready q l := by
  obtain ⟨⟨hhead, hne, hchain⟩, hcode⟩ := h
  have hpop : m.yoiQueuePop q =
      (m.setQueue q fun k => { k with head := (m.req r).next }, some (r, (m.req r).code)) := by
    have hhead' : (m.queue q).head = r := hhead
    have hne' : r ≠ NULL := hne
    simp only [yoiQueuePop, hhead', if_neg hne', req_setQueue]
  rw [hpop]
  constructor
  · rw [hcode (r, c) (List.mem_cons_self ..)]
  · refine ⟨?_, fun p hp => hcode p (List.mem_cons_of_mem _ hp)⟩
    rw [queue_setQueue, if_pos rfl]
    exact hchain

/-- Popping leaves the ready lists of the other queues alone. -/
theorem ready_yoiQueuePop_of_ne (h : m.Ready k l) (hk : k ≠ q) :
    (m.yoiQueuePop q).1.Ready k l := by
  refine h.congr ?_ (by simp) (by simp)
  simp only [yoiQueuePop]
  split
  · rfl
  · rw [queue_setQueue, if_neg hk]

/-- The ready list is what following the pointers yields. -/
theorem readyList_eq_some : m.readyList q = some l ↔ m.Ready q l := by
  rw [readyList, Option.map_eq_some_iff]
  constructor
  · rintro ⟨l₀, hwalk, rfl⟩
    obtain ⟨hchain, -⟩ := Chain.walk_eq_some.mp hwalk
    refine ⟨by simpa [Function.comp_def] using hchain, ?_⟩
    simp
  · intro h
    refine ⟨l.map Prod.fst, Chain.walk_eq_some.mpr ⟨h.1, length_lt_rounds h.1⟩, ?_⟩
    rw [List.map_map]
    refine (List.map_congr_left fun p hp => ?_).trans (List.map_id l)
    exact Prod.ext rfl (h.2 p hp)

end Heap

end Yaooi
