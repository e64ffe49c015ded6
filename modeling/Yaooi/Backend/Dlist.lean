import Yaooi.Backend.PollList
import Yaooi.Lib.SlotRuns

/-!
# The doubly linked lists of the library

`yoi_dlist_add` and `yoi_dlist_del` of `src/utils/lists.h` where the library uses them: for the
requests of a handle, by `yoi_req_ioq_t` of `src/unix/pollish.h`, and for the nodes of the poll
backend, by `yo_poll_node_t` of `src/unix/poll.h`.

`dlists_keep`: whatever is linked and unlinked, in whatever order, each list is what it should be,
and so is each slot.
-/

namespace Yaooi

open SlotList

/-! ## Where the lists are -/

/-- `yoi_dlist_add(req_ioq, fd->head, req)` and `yoi_dlist_del(req_ioq, req)`. -/
def reqIoq : View Heap YoFdT YoReqT where
  null := NULL
  store := Heap.ioq
  add := Heap.yoiDlistAdd
  del := Heap.yoiDlistDel
  store_add m h r := m.ioq_setIoq (m.ioq.add NULL h r)
  store_del m r := m.ioq_setIoq (m.ioq.del NULL r)

namespace PollMem

/-- `yoi_dlist_add(poll, queue->impl.head, i)` -/
def yoiDlistAdd (m : PollMem) (i : Ptr) : PollMem := { m with store := m.store.add NULL () i }

/-- `yoi_dlist_del(poll, i)` -/
def yoiDlistDel (m : PollMem) (i : Ptr) : PollMem := { m with store := m.store.del NULL i }

end PollMem

/-- The nodes of one queue. -/
def pollNodes : View PollMem Unit Ptr where
  null := NULL
  store := PollMem.store
  add m _ i := m.yoiDlistAdd i
  del := PollMem.yoiDlistDel
  store_add _ _ _ := rfl
  store_del _ _ := rfl

/-- `queue->impl.head` of all queues, and `next` and `slot` of their nodes. -/
abbrev PollLists := Store YoQueueT Ptr

/-- The nodes of all queues. -/
def pollLists : View PollLists YoQueueT Ptr where
  null := NULL
  store s := s
  add s queue i := s.add NULL queue i
  del s i := s.del NULL i
  store_add _ _ _ := rfl
  store_del _ _ := rfl

/-! ## What they are -/

variable {m : Heap} {p : PollMem}

/-- The requests on a handle, as the loops over them find them. -/
theorem handleList_run {ops : List (Op YoFdT YoReqT)} (h : Legal NULL ops)
    (hnull : ∀ h, (m.fd h).head = NULL) (fd : YoFdT) :
    (reqIoq.run m ops).handleList fd = some (lists ops fd) := by
  have hrep := View.represents_run (V := reqIoq) h hnull
  exact Heap.handleList_eq _ _ (hrep.seg fd trivial)

/-- The nodes of a queue, as the loops over them find them. -/
theorem list_run {ops : List (Op Unit Ptr)} (h : Legal NULL ops) (hnull : p.store.head () = NULL) :
    (pollNodes.run p ops).list = some (lists ops ()) := by
  have hrep := View.represents_run (V := pollNodes) h fun _ => hnull
  have hchain := (hrep.seg () trivial).isChain
  exact Chain.walk_eq_some.mpr ⟨hchain, Heap.length_lt_rounds hchain⟩

/-- **The lists of requests and of poll nodes.**  On any number of handles or queues, after every
sequence of additions of a node that is on no list and deletions of a node that is on one, each list
has the nodes added and not deleted since, latest first, and ends; each slot designates the very
cell that the pointer to its node is in; and each operation leaves all other lists alone. -/
theorem dlists_keep :
    reqIoq.Keeps ∧ pollNodes.Keeps ∧ pollLists.Keeps ∧
    (∀ (m : Heap) (ops : List (Op YoFdT YoReqT)), (∀ h, (m.fd h).head = NULL) → Legal NULL ops →
      ∀ h, (reqIoq.run m ops).handleList h = some (lists ops h)) ∧
    ∀ (p : PollMem) (ops : List (Op Unit Ptr)), p.store.head () = NULL → Legal NULL ops →
      (pollNodes.run p ops).list = some (lists ops ()) := by
  refine ⟨reqIoq.keeps, pollNodes.keeps, pollLists.keeps, ?_, ?_⟩
  · intro m ops hnull hops h
    exact handleList_run hops hnull h
  · intro p ops hnull hops
    exact list_run hops hnull

/-- No queue has a node. -/
def noNodes : PollLists := ⟨fun _ => NULL, fun _ => NULL, fun _ => .head 0⟩

/-- Two nodes of one queue, of which the first, at the end of the list, is deleted. -/
def sampleOps : List (Op YoQueueT Ptr) := [.add 1 0x10, .add 1 0x20, .del 0x10]

theorem legal_sampleOps : Legal NULL sampleOps := by
  have hfirst : Legal NULL ([] ++ [Op.add (1 : YoQueueT) (0x10 : Ptr)]) := by
    refine .snoc .nil ⟨by decide, ?_⟩
    intro j
    exact List.not_mem_nil
  have hsecond : Legal NULL ([Op.add (1 : YoQueueT) (0x10 : Ptr)] ++ [.add 1 0x20]) := by
    refine .snoc hfirst ⟨by decide, ?_⟩
    intro j
    by_cases hj : j = 1
    · subst hj
      decide
    · have hnil : lists [Op.add (1 : YoQueueT) (0x10 : Ptr)] j = [] := by
        simp only [lists, List.foldl_cons, List.foldl_nil, Op.lists]
        exact Function.update_of_ne hj _ _
      rw [hnil]
      exact List.not_mem_nil
  exact hsecond.snoc ⟨1, by decide⟩

theorem dlists_keep_sampleOps :
    Coherent NULL (pollLists.run noNodes sampleOps) (lists sampleOps) ∧
      lists sampleOps 1 = [0x20] :=
  ⟨(dlists_keep.2.2.1 noNodes sampleOps (fun _ => rfl) legal_sampleOps).2.1, by decide⟩

end Yaooi
