import Yaooi.Queue.Shared

/-!
# What a close leaves behind

`yo_fd_close` frees the handle, so afterwards no queue should name it.  `yoi_unix_onclose` takes the
descriptor off the queue of each request that waits on the handle: "we must iterate, as requests
from multiple queues may be on the same fd".  A queue whose last request on the handle is gone may
have the descriptor all the same, since `_yoi_pl_req_stop` registers it for the requests of all
queues; that queue is passed over, and the next event there leads to freed memory
(`not_detaches_served`).

* `Board.Backed` is the invariant: a registration that names a handle is for its descriptor, and the
  handle is open.
* `Board.clear_next_iff` says when a close keeps it, `Board.Backed.next` that every other call does.
* `detaches_iff` puts both together, for every run on any number of queues: the requests are always
  handed over, and the registrations are gone if and only if the loop, or the OS, reaches them.
-/

namespace Yaooi

open Transition

/-- A descriptor is registered as before, or with the user data given now. -/
theorem register_some {reg : Int → Option Registration} {fd x : Int} {mask : YoiPlEvnMask} {u : Ptr}
    {ans : YoCode} {e : Registration} (h : register reg fd mask u ans x = some e) :
    reg x = some e ∨ x = fd ∧ e.udata = u := by
  unfold register at h
  split at h
  · by_cases hx : x = fd
    · rw [hx, Function.update_self] at h
      split at h
      · cases h
      · obtain rfl := Option.some.inj h
        exact .inr ⟨hx, rfl⟩
    · rw [Function.update_of_ne hx] at h
      exact .inl h
  · exact .inl h

namespace Board

variable {l l' : Ledger} {b b' : Board} {pos : YoReqT → Place} {c : Call} {r : YoReqT}
  {g h : YoFdT} {q : YoQueueT} {drops : Bool} {ans : YoReqT → YoCode}

/-! ## The names in the registrations -/

/-- A registration that names a handle is for the handle's descriptor, and the handle is open. -/
structure Backed (l : Ledger) (b : Board) : Prop where
  opened_ne : ∀ g, l.opened g = true → g ≠ NULL
  udata : ∀ q fd e, b.reg q fd = some e → e.udata ≠ NULL →
    l.opened e.udata = true ∧ (b.fd e.udata).fd = fd

/-- What registers only open handles, each for its own descriptor, keeps the names right. -/
theorem Backed.keep (hb : Backed l b) (hne : ∀ g, l'.opened g = true → g ≠ NULL)
    (hopened : ∀ g, l.opened g = true → l'.opened g = true)
    (hnum : ∀ g, l.opened g = true → (b'.fd g).fd = (b.fd g).fd)
    (hreg : ∀ q fd e, b'.reg q fd = some e → b.reg q fd = some e ∨
      l.opened e.udata = true ∧ (b.fd e.udata).fd = fd) : Backed l' b' where
  opened_ne := hne
  udata q fd e he hu := by
    obtain hold | ⟨hg, hfd⟩ := hreg q fd e he
    · obtain ⟨hg, hfd⟩ := hb.udata q fd e hold hu
      exact ⟨hopened _ hg, (hnum _ hg).trans hfd⟩
    · exact ⟨hopened _ hg, (hnum _ hg).trans hfd⟩

/-- What changes neither handles nor registrations keeps the names right. -/
theorem Backed.congr (hb : Backed l b) (hopened : l'.opened = l.opened) (hfd : b'.fd = b.fd)
    (hreg : b'.reg = b.reg) : Backed l' b' :=
  hb.keep (hopened ▸ hb.opened_ne) (fun _ hg => hopened ▸ hg) (fun _ _ => by rw [hfd])
    fun _ _ _ he => .inl (hreg ▸ he)

/-- A handle that is counted and registered anew. -/
theorem Backed.recount {f : YoFd → YoFd} {code : YoCode} (hb : Backed l b) (hh : l.opened h = true)
    (hopened : l'.opened = l.opened) (hf : ∀ x, (f x).fd = x.fd)
    (hfd : b'.fd = (b.recount r h f code).fd) (hreg : b'.reg = (b.recount r h f code).reg) :
    Backed l' b' := by
  refine hb.keep (hopened ▸ hb.opened_ne) (fun _ hg => hopened ▸ hg) (fun g _ => ?_)
    fun q fd e he => ?_
  · rw [hfd]
    show (Function.update b.fd h (f (b.fd h)) g).fd = _
    by_cases hgh : g = h
    · rw [hgh, Function.update_self, hf]
    · rw [Function.update_of_ne hgh]
  · rw [hreg] at he
    simp only [Board.recount, setmask, Function.update_self] at he
    by_cases hq : q = b.queueOf r
    · rw [hq, Function.update_self] at he
      obtain hold | ⟨hx, hu⟩ := register_some he
      · exact .inl (hq ▸ hold)
      · exact .inr ⟨hu ▸ hh, by rw [hu, hx, hf]⟩
    · rw [Function.update_of_ne hq] at he
      exact .inl he

/-- **Every call** but a close keeps the names right. -/
theorem Backed.next (hb : Backed l b) (hc : c.allowed l = true)
    (hnot : ∀ h ans, c ≠ .close h ans) :
    Backed (l.after c (b.exec c).2) (b.next drops c) := by
  cases c with
  | reqNew r q | reqFree r | exec r | finish r code => exact hb.congr rfl rfl rfl
  | fdNew h fd owned =>
    simp only [Call.allowed, Bool.and_eq_true, Bool.not_eq_true', bne_iff_ne] at hc
    have hold : ∀ g, l.opened g = true → g ≠ h := fun g hg e => by simp [e, hc.1] at hg
    refine hb.keep (fun g hg => ?_) (fun g hg => ?_) (fun g hg => ?_) fun _ _ _ he => .inl he
    · by_cases hgh : g = h
      · exact hgh ▸ hc.2
      · exact hb.opened_ne g (opened_fdNew hg hgh)
    · simpa [Ledger.after, hold g hg] using hg
    · simp [Board.next, Board.exec, hold g hg]
  | start r h op ans res =>
    have hh : l.opened h = true := by
      simp only [Call.allowed, Bool.and_eq_true] at hc
      exact hc.2
    have hnum : ∀ x : YoFd, (x.inc op.kind).fd = x.fd := fun x => YoFd.fd_inc x op.kind
    have hb' : Backed l { b with op := Function.update b.op r op } := hb.congr rfl rfl rfl
    simp only [Board.next]
    obtain ⟨-, hexec⟩ | ⟨-, -, hexec⟩ | ⟨-, -, hexec⟩ := b.exec_start r h op ans res <;> rw [hexec]
    · exact hb.congr rfl rfl rfl
    · exact hb'.recount hh rfl hnum rfl rfl
    · exact hb'.recount hh rfl hnum rfl rfl
  | close h ans => exact absurd rfl (hnot h ans)
  | poll q env =>
    simp only [Board.next]
    obtain ⟨r, code, t, -, hexec⟩ | ⟨h, mask, r, -, hev, hne, -, hexec⟩ |
      ⟨-, -, step, hexec, hstep⟩ := b.exec_poll q env <;> rw [hexec]
    · exact hb.congr rfl rfl rfl
    · have hh := Placed.opened_of_event hc hev hne
      exact hb.recount hh rfl (fun x => YoFd.fd_dec x (b.op r).kind) rfl rfl
    · cases step with
      | returned r code ran => exact absurd rfl (hstep r code ran)
      | again | failed => exact hb

/-! ## A close -/

/-- No queue has the descriptor of the handle registered any more, or names the handle. -/
def Clear (h : YoFdT) (b b' : Board) : Prop :=
  ∀ q, b'.reg q (b.fd h).fd = none ∧ ∀ fd e, b'.reg q fd = some e → e.udata ≠ h

/-- The close gets to each queue that has the descriptor registered: the OS drops it there, or a
request of the queue waits on the handle, and the backend answers `YO_OK` for it. -/
def Reached (drops : Bool) (h : YoFdT) (ans : YoReqT → YoCode) (b : Board) : Prop :=
  ∀ q, b.reg q (b.fd h).fd ≠ none →
    (drops && (b.fd h).owned) = true ∨ ∃ r ∈ b.pend h, b.queueOf r = q ∧ ans r = .ok

/-- **A close** clears the registrations if and only if it gets to them. -/
theorem clear_next_iff (hb : Backed l b) (hh : l.opened h = true) :
    Clear h b (b.next drops (.close h ans)) ↔ Reached drops h ans b := by
  constructor
  · intro hclear q hq
    by_contra hnot
    have hgone := (hclear q).1
    rw [reg_closed, if_neg fun hx => hnot hx.2] at hgone
    exact hq hgone
  · intro hreach q
    have hnone : (b.next drops (.close h ans)).reg q (b.fd h).fd = none := by
      rw [reg_closed]
      split
      · rfl
      · rename_i hnot
        by_contra hq
        exact hnot ⟨rfl, hreach q hq⟩
    refine ⟨hnone, fun fd e he hu => ?_⟩
    -- what named the handle was for its descriptor, and that is gone
    have hold : b.reg q fd = some e := by
      rw [reg_closed] at he
      split at he
      · cases he
      · exact he
    obtain ⟨-, hfd⟩ := hb.udata q fd e hold (hu ▸ hb.opened_ne h hh)
    rw [← hfd, hu, hnone] at he
    cases he

/-- A close that clears the registrations keeps the names right. -/
theorem Backed.close (hb : Backed l b) (hclear : Clear h b (b.next drops (.close h ans))) :
    Backed (l.after (.close h ans) .done) (b.next drops (.close h ans)) where
  opened_ne g hg := hb.opened_ne g (opened_close.mp hg).1
  udata q fd e he hu := by
    have hold := he
    rw [reg_closed] at hold
    split at hold
    · cases hold
    · obtain ⟨hg, hfd⟩ := hb.udata q fd e hold hu
      obtain ⟨-, -, hfds, -⟩ := frame_next_close b h ans drops
      rw [hfds]
      exact ⟨opened_close.mpr ⟨hg, (hclear q).2 fd e he⟩, hfd⟩

end Board

/-! ## The memory -/

namespace Heap

/-- **A handle is detached.**  Each request that waited on it is in the ready list of its own queue,
once, with `YO_ECANCELED`, in front of what was there before; no queue has the descriptor registered
any more, and none has the handle as user data. -/
structure Detached (h : YoFdT) (s t : Conf Heap) : Prop where
  cancelled : ∃ rs, s.mem.handleList h = some rs ∧ ∀ r ∈ rs, ∃ l,
    t.mem.readyList (s.mem.req r).queue = some l ∧ (r, .ecanceled) ∈ l ∧
      (l.map Prod.fst).count r = 1
  kept : ∀ q, ∃ old new, s.mem.readyList q = some old ∧ t.mem.readyList q = some (new ++ old)
  unregistered : ∀ q, (t.mem.queue q).reg (s.mem.fd h).fd = none
  unnamed : ∀ q fd e, (t.mem.queue q).reg fd = some e → e.udata ≠ h

/-- A close detaches its handle. -/
def Detaches (drops : Bool) (s : Conf Heap) : Call → Prop
  | .close h ans => ∀ t, (descriptors drops).step s (.close h ans) = some t → Detached h s t
  | _ => True

/-- A close gets to each queue that has the descriptor registered: the OS drops it there, or a
request of the queue waits on the handle, and the backend answers `YO_OK` for it. -/
def Reached (drops : Bool) (s : Conf Heap) : Call → Prop
  | .close h ans => ∀ q, (s.mem.queue q).reg (s.mem.fd h).fd ≠ none →
    (drops && (s.mem.fd h).owned) = true ∨
      ∃ rs, s.mem.handleList h = some rs ∧ ∃ r ∈ rs, (s.mem.req r).queue = q ∧ ans r = .ok
  | _ => True

end Heap

/-- The memory shows a board whose names are right. -/
def Backing (s : Conf Heap) : Prop :=
  ∃ b pos, Refines s.ledger.opened s.mem b ∧ Board.Placed s.ledger b pos ∧ Board.Backed s.ledger b

section Memory

variable {s t : Conf Heap} {b : Board} {pos : YoReqT → Board.Place} {h : YoFdT} {drops : Bool}
  {ans : YoReqT → YoCode} {c : Call}

/-- Both levels say alike what a close gets to. -/
theorem Refines.reached (hR : Refines s.ledger.opened s.mem b) (hh : s.ledger.opened h = true) :
    Heap.Reached drops s (.close h ans) ↔ Board.Reached drops h ans b := by
  simp only [Heap.Reached, Board.Reached, hR.reg, hR.fdNum, hR.owned, hR.handleList hh, hR.queueOf,
    Option.some.injEq, exists_eq_left']

/-- The requests are handed over by every close; so a handle is detached if the registrations are
cleared. -/
theorem Refines.detached (hR : Refines s.ledger.opened s.mem b)
    (hRt : Refines t.ledger.opened t.mem (b.next drops (.close h ans)))
    (hpt : Board.Placed t.ledger (b.next drops (.close h ans)) pos)
    (hh : s.ledger.opened h = true) :
    Heap.Detached h s t ↔ Board.Clear h b (b.next drops (.close h ans)) := by
  constructor
  · rintro ⟨-, -, hreg, hname⟩ q
    rw [← hRt.reg, ← hR.fdNum]
    exact ⟨hreg q, hname q⟩
  · intro hclear
    refine ⟨⟨_, hR.handleList hh, fun r hr => ⟨_, hRt.readyList, ?_, ?_⟩⟩, fun q => ?_,
      fun q => ?_, fun q => ?_⟩
    · rw [Board.ready_closed, hR.queueOf]
      exact List.mem_append_left _ (List.mem_map_of_mem (by simpa using hr))
    · apply List.count_eq_one_of_mem (hpt.ready_nodup _)
      rw [Board.ready_closed, hR.queueOf, List.map_append]
      apply List.mem_append_left _
      simpa [Function.comp_def] using hr
    · refine ⟨b.ready q, ((b.pend h).filter (b.queueOf · = q)).reverse.map (·, .ecanceled),
        hR.readyList, ?_⟩
      rw [hRt.readyList, Board.ready_closed]
    · rw [hRt.reg, hR.fdNum]
      exact (hclear q).1
    · rw [hRt.reg]
      exact (hclear q).2

/-- One call of the memory. -/
theorem detaches_step (hs : Backing s) (hst : (Heap.descriptors drops).step s c = some t) :
    (Heap.Detaches drops s c ↔ Heap.Reached drops s c) ∧
      (Heap.Detaches drops s c → Backing t) := by
  obtain ⟨b, pos, hR, hp, hb⟩ := hs
  obtain ⟨hc, hledger, hRt, pos', hpt⟩ := descriptors_refines hR hp hst
  by_cases hclose : ∃ h ans, c = .close h ans
  · obtain ⟨h, ans, rfl⟩ := hclose
    have hone : Heap.Detaches drops s (.close h ans) ↔ Heap.Detached h s t := by
      constructor
      · exact fun hall => hall t hst
      · intro hdet u hu
        exact Option.some.inj (hst.symm.trans hu) ▸ hdet
    rw [hone, hR.detached hRt hpt hc, hR.reached hc]
    refine ⟨Board.clear_next_iff hb hc, fun hclear => ⟨_, pos', hRt, hpt, ?_⟩⟩
    rw [hledger]
    exact hb.close hclear
  · have hnot : ∀ h ans, c ≠ .close h ans := fun h ans e => hclose ⟨h, ans, e⟩
    have htrue : Heap.Detaches drops s c ∧ Heap.Reached drops s c := by
      cases c with
      | close h ans => exact absurd rfl (hnot h ans)
      | _ => exact ⟨trivial, trivial⟩
    refine ⟨iff_of_true htrue.1 htrue.2, fun _ => ⟨_, pos', hRt, hpt, ?_⟩⟩
    rw [hledger]
    exact hb.next hc hnot

/-- A new memory names no handle. -/
theorem backing_of_init (hinit : (Heap.descriptors drops).init s) : Backing s := by
  obtain ⟨⟨b, l⟩, hfresh, hl, hR⟩ := simulates.init s hinit
  obtain ⟨pos, hp⟩ := Board.placed_of_reachable (.init hfresh)
  refine ⟨b, pos, hR, hl ▸ hp, fun g hg => ?_, fun q fd e he hu => ?_⟩
  · simp [hinit.2, Ledger.empty] at hg
  · rw [(hfresh.1 q).2, Heap.freshReg, Function.update_apply] at he
    split at he
    · obtain rfl := Option.some.inj he
      exact absurd rfl hu
    · cases he

/-- **When a close detaches its handle.**  Along every run on any number of queues, each close hands
the waiting requests to the ready lists of their own queues, and leaves no registration of the
descriptor or of the handle behind, if and only if it finds, for each queue that has the descriptor
registered, a request of that queue waiting on the handle for which the backend answers `YO_OK`, or
the OS drops the registrations of the descriptor as it is closed. -/
theorem detaches_iff (drops : Bool) {s t : Conf Heap} {cs : List Call}
    (hinit : (Heap.descriptors drops).init s)
    (hrun : (Heap.descriptors drops).run s cs = some t) :
    (Heap.descriptors drops).Along (Heap.Detaches drops) s cs ↔
      (Heap.descriptors drops).Along (Heap.Reached drops) s cs :=
  System.along_iff_along (I := Backing) (fun _ _ _ hs hst => detaches_step hs hst)
    (backing_of_init hinit) hrun

end Memory

/-! ## A queue that is passed over -/

/-- A queue writes to a handle and another one reads from it; the write is performed. -/
def served : List Call :=
  [.reqNew 0x30 0x10, .reqNew 0x40 0x18, .fdNew 0x20 0 false,
    .start 0x30 0x20 (.write 0x700 0x708) .ok .ok, .start 0x40 0x20 (.read 0x710 0x718) .ok .ok,
    .poll 0x10 ⟨.event 0x20 ⟨false, true⟩, .ok, .ok⟩]

/-- The first queue has no request any more, but has been told to look out for the read; after the
close its registration still names the handle. -/
theorem not_detaches_served :
    (∀ drops, (Heap.descriptors drops).init Heap.start) ∧
      ∀ drops, ∃ s t, (Heap.descriptors drops).run Heap.start served = some s ∧
        (Heap.descriptors drops).step s (.close 0x20 fun _ => .ok) = some t ∧
          t.ledger.opened 0x20 = false ∧
            (t.mem.queue 0x10).reg 0 = some ⟨⟨true, false⟩, 0x20⟩ ∧
              ¬ (Heap.descriptors drops).Along (Heap.Detaches drops) Heap.start
                (served ++ [.close 0x20 fun _ => .ok]) := by
  refine ⟨fun _ => Heap.init_start, fun drops => ?_⟩
  have hend : ((Heap.descriptors drops).run Heap.start served).bind (fun s =>
      ((Heap.descriptors drops).step s (.close 0x20 fun _ => .ok)).map fun t =>
        (t.ledger.opened 0x20, (t.mem.queue 0x10).reg 0)) =
          some (false, some ⟨⟨true, false⟩, 0x20⟩) := by
    cases drops <;> decide +kernel
  obtain ⟨s, hrun, hs⟩ := Option.bind_eq_some_iff.mp hend
  obtain ⟨t, ht, hfacts⟩ := Option.map_eq_some_iff.mp hs
  simp only [Prod.mk.injEq] at hfacts
  obtain ⟨hopen, hreg⟩ := hfacts
  refine ⟨s, t, hrun, ht, hopen, hreg, fun hall => ?_⟩
  exact (hall.at_end hrun t ht).unnamed 0x10 0 _ hreg rfl

/-- A read that still waits when the handle is closed. -/
def readAndClose : List Call :=
  [.reqNew 0x30 0x10, .fdNew 0x20 0 false, .start 0x30 0x20 (.read 0x700 0x708) .ok .ok,
    .close 0x20 fun _ => .ok]

/-- The queue of the read is reached, and no other one has the descriptor. -/
theorem detaches_readAndClose :
    (Heap.descriptors false).Along (Heap.Detaches false) Heap.start readAndClose := by
  have hsome : ((Heap.descriptors false).run Heap.start readAndClose).isSome = true := by
    decide +kernel
  obtain ⟨t, hrun⟩ := Option.isSome_iff_exists.mp hsome
  apply (detaches_iff false Heap.init_start hrun).mpr
  refine ⟨trivial, fun s₁ h₁ => ⟨trivial, fun s₂ h₂ => ⟨trivial, fun s₃ h₃ => ⟨?_, ?_⟩⟩⟩⟩
  · obtain rfl := Option.some.inj h₁
    obtain rfl := Option.some.inj h₂
    obtain rfl := Option.some.inj h₃
    intro q hq
    refine .inr ⟨[0x30], ?_, 0x30, List.mem_singleton_self _, ?_, rfl⟩
    · decide +kernel
    · by_contra hne
      apply hq
      have hother : q ≠ 0x10 := fun e => hne e.symm
      exact congrArg (fun k : YoQueue => k.reg 0) (Function.update_of_ne hother _ Heap.blank.queue)
  · exact fun _ _ => trivial

end Yaooi
