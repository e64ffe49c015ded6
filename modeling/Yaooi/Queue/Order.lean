import Yaooi.Queue.Delivery

/-!
# The order of performance

A start puts its request in front of the handle's list, and an event takes the first
request it fits, so of the requests that wait for one direction the one started last goes
first.  The invariant is that every list is sorted by start, latest first (`LatestFirst`);
`performs_latest` is what it means for `yo_queue_poll`.
-/

namespace Yaooi

open Transition

/-- After some start of `r` there is no start of `x`: `r` was started later. -/
def StartedAfter (tr : List Event) (r x : YoReqT) : Prop :=
  ∃ l e l', tr = l ++ e :: l' ∧ e.starts r = true ∧ ∀ y ∈ l', y.starts x = false

/-- Every list of an open handle is sorted by start, latest first. -/
def LatestFirst (l : Ledger) (b : Board) : Prop :=
  ∀ h, l.opened h = true → (b.pend h).Pairwise (StartedAfter l.trace)

section Step

variable {l l' : Ledger} {b b' : Board} {pos : YoReqT → Board.Place} {r x : YoReqT}
  {tr evs : List Event}

theorem StartedAfter.append (h : StartedAfter tr r x) (hx : ∀ e ∈ evs, e.starts x = false) :
    StartedAfter (tr ++ evs) r x := by
  obtain ⟨l, e, l', rfl, he, hl'⟩ := h
  refine ⟨l, e, l' ++ evs, by simp, he, fun y hy => ?_⟩
  rcases List.mem_append.mp hy with hy | hy
  · exact hl' y hy
  · exact hx y hy

theorem starts_unique {e : Event} (hr : e.starts r = true) (hx : e.starts x = true) : r = x := by
  cases e <;> simp_all [Event.starts]

/-- Of two requests only one was started later. -/
theorem StartedAfter.asymm (h : StartedAfter tr r x) (hne : r ≠ x) : ¬ StartedAfter tr x r := by
  rintro ⟨k, f, k', htr, hf, hk'⟩
  obtain ⟨l, e, l', rfl, he, hl'⟩ := h
  rcases List.append_eq_append_iff.mp htr with ⟨a, rfl, ha⟩ | ⟨a, rfl, ha⟩
  · -- the start of `x` comes at or after the start of `r`
    cases a with
    | nil =>
      obtain ⟨rfl, -⟩ := List.cons.inj (by simpa using ha)
      exact hne (starts_unique he hf)
    | cons y a =>
      obtain ⟨rfl, rfl⟩ := List.cons.inj (by simpa using ha)
      simpa [hf] using hl' f (by simp)
  · cases a with
    | nil =>
      obtain ⟨rfl, -⟩ := List.cons.inj (by simpa using ha)
      exact hne (starts_unique hf he).symm
    | cons y a =>
      obtain ⟨rfl, rfl⟩ := List.cons.inj (by simpa using ha)
      simpa [he] using hk' e (by simp)

/-- A step that starts nothing that waits, and adds nothing to a list, keeps the lists
sorted. -/
theorem LatestFirst.shrink (evs : List Event) (hs : LatestFirst l b)
    (htrace : l'.trace = l.trace ++ evs)
    (hevs : ∀ h r, l.opened h = true → r ∈ b.pend h → ∀ e ∈ evs, e.starts r = false)
    (hpend : ∀ h, l'.opened h = true →
      b'.pend h = [] ∨ l.opened h = true ∧ (b'.pend h).Sublist (b.pend h)) :
    LatestFirst l' b' := by
  intro h ho
  rcases hpend h ho with hnil | ⟨ho, hsub⟩
  · rw [hnil]
    exact List.Pairwise.nil
  · refine ((hs h ho).sublist hsub).imp_of_mem fun _ hx hlt => ?_
    rw [htrace]
    exact hlt.append (hevs h _ ho (hsub.subset hx))

/-- A step that leaves the lists of the open handles alone and starts nothing. -/
theorem LatestFirst.keep (hs : LatestFirst l b) (htrace : l'.trace = l.trace ++ evs)
    (hevs : ∀ e ∈ evs, ∀ r, e.starts r = false)
    (hpend : ∀ h, l'.opened h = true → l.opened h = true ∧ b'.pend h = b.pend h) :
    LatestFirst l' b' :=
  hs.shrink _ htrace (fun _ r _ _ e he => hevs e he r)
    fun h ho => .inr ⟨(hpend h ho).1, (hpend h ho).2 ▸ List.Sublist.refl _⟩

/-- A request that is not busy waits nowhere. -/
theorem ne_of_pend {h : YoFdT} (hp : Board.Placed l b pos) (hbusy : l.busy r = false)
    (ho : l.opened h = true) (hx : x ∈ b.pend h) : x ≠ r := by
  rintro rfl
  have hplace := (hp.pend h x ho).mp hx
  rw [hp.idle_of_not_busy hbusy] at hplace
  simp at hplace

/-- A start on a handle. -/
theorem LatestFirst.start {h : YoFdT} {op : YoaOp} {ans res : YoCode} (hs : LatestFirst l b)
    (hp : Board.Placed l b pos) (hbusy : l.busy r = false) :
    LatestFirst (l.after (.start r h op ans res) (b.exec (.start r h op ans res)).2)
      (b.exec (.start r h op ans res)).1 := by
  have hother : ∀ {call code ran g x}, l.opened g = true → x ∈ b.pend g →
      ∀ e ∈ .start r call :: Ledger.ranEvent r code ran, e.starts x = false := by
    intro call code ran g x ho hx e he
    have hne : x ≠ r := ne_of_pend hp hbusy ho hx
    rcases List.mem_cons.mp he with rfl | he
    · simpa [Event.starts] using Ne.symm hne
    · exact Event.starts_ranEvent he
  obtain ⟨-, hexec⟩ | ⟨-, -, hexec⟩ | ⟨-, -, hexec⟩ := b.exec_start r h op ans res
  all_goals rw [hexec]
  · exact hs
  · exact hs.shrink _ rfl (fun g x => hother) fun g ho => .inr ⟨ho, List.Sublist.refl _⟩
  · intro g ho
    have hkeep : (b.pend g).Pairwise
        (StartedAfter (l.trace ++ .start r ⟨h, op⟩ :: Ledger.ranEvent r res none)) :=
      (hs g ho).imp_of_mem fun _ hx hlt => hlt.append (hother ho hx)
    by_cases hgh : g = h
    · subst hgh
      simp only [Function.update_self]
      refine List.pairwise_cons.mpr ⟨fun x _ => ?_, hkeep⟩
      exact ⟨l.trace, .start r ⟨g, op⟩, [], rfl, by simp [Event.starts], by simp⟩
    · show List.Pairwise _ (Function.update b.pend h (r :: b.pend h) g)
      rw [Function.update_of_ne hgh]
      exact hkeep

/-- Every call keeps the lists sorted. -/
theorem LatestFirst.step {c : Call} (hs : LatestFirst l b) (hp : Board.Placed l b pos)
    (hc : c.allowed l = true) : LatestFirst (l.after c (b.exec c).2) (b.exec c).1 := by
  cases c with
  | reqNew r q => exact hs
  | reqFree r => exact hs
  | fdNew h fd owned =>
    refine hs.shrink [] (by simp [Ledger.after]) (by simp) fun g ho => ?_
    by_cases hgh : g = h
    · exact .inl (by simp [Board.exec, hgh])
    · simp only [Ledger.after, Function.update_of_ne hgh] at ho
      refine .inr ⟨ho, ?_⟩
      simp [Board.exec, hgh]
  | start r h op ans res =>
    simp only [Call.allowed, Bool.and_eq_true, Bool.not_eq_true'] at hc
    exact hs.start hp hc.1.2
  | exec r =>
    simp only [Call.allowed, Bool.and_eq_true, Bool.not_eq_true'] at hc
    refine hs.shrink [.exec r] rfl ?_ fun g ho => .inr ⟨ho, List.Sublist.refl _⟩
    intro g x ho hx e he
    have hne : x ≠ r := ne_of_pend hp hc.2 ho hx
    simp_all [Event.starts, Ne.symm hne]
  | finish r code =>
    exact hs.keep rfl (by simp [Event.starts]) fun g ho => ⟨ho, rfl⟩
  | close h ans =>
    obtain ⟨-, -, -, hpend⟩ := b.frame_cancelAll h ans (b.pend h)
    refine hs.keep rfl (by simp [Event.starts]) fun g ho => ?_
    have hgh : g ≠ h := fun e => by simp [Ledger.after, e] at ho
    simp only [Ledger.after, Function.update_of_ne hgh] at ho
    exact ⟨ho, congrFun hpend g⟩
  | poll q env =>
    obtain ⟨r, code, t, -, hexec⟩ | ⟨h, mask, r, -, -, -, -, hexec⟩ |
      ⟨-, -, step, hexec, hstep⟩ := b.exec_poll q env
    all_goals rw [hexec]
    · exact hs.keep rfl (by simp [Ledger.ranEvent, Event.starts]) fun g ho => ⟨ho, rfl⟩
    · refine hs.shrink _ rfl (by simp [Ledger.ranEvent, Event.starts]) fun g ho => .inr ⟨ho, ?_⟩
      by_cases hgh : g = h
      · subst hgh
        simpa using List.erase_sublist
      · simp [hgh]
    · cases step with
      | returned r code ran => exact absurd rfl (hstep r code ran)
      | again | failed => exact hs

end Step

/-- Every run keeps the lists sorted. -/
theorem latestFirst_of_reachable {s : Conf Board} (h : Board.system.Reachable s) :
    LatestFirst s.ledger s.mem := by
  refine Board.reach_invariant h (P := LatestFirst) ?_ fun l b pos c hs hp hc _ => hs.step hp hc
  intro b _ h ho
  simp [Ledger.empty] at ho

variable {s : Conf Heap}

/-- **The last one started goes first.**  When `yo_queue_poll` performs the operation of a
request, that request waits on the operation's handle and was started after every other
request that waits there for the same direction.  So a poll performs a request in the order
of the starts only when no other request waits on the handle for its direction. -/
theorem performs_latest (h : Heap.system.Reachable s) {q : YoQueueT} {env : PollEnv} {m : Heap}
    {r : YoReqT} {code : YoCode} {call : SyncCall}
    (hc : (Call.poll q env).allowed s.ledger = true)
    (hround : s.mem.yoQueuePollRound q env = some (m, .returned r code (some call))) :
    ∃ l, s.mem.handleList call.fd = some l ∧ r ∈ l ∧
      (∀ x ∈ l, x ≠ r → s.mem.dir x = s.mem.dir r → StartedAfter s.ledger.trace r x) ∧
      ((∀ x ∈ l, x ≠ r → s.mem.dir x = s.mem.dir r → StartedAfter s.ledger.trace x r) ↔
        ∀ x ∈ l, s.mem.dir x = s.mem.dir r → x = r) := by
  obtain ⟨b, hreach, hR, pos, hp⟩ := refines_of_reachable h
  have hopen : ∀ g mask, env.poll = .event g mask → g ≠ NULL → s.ledger.opened g = true :=
    fun g mask => Board.Placed.opened_of_event hc
  obtain ⟨x, c, l, m', -, hret⟩ | ⟨g, mask, x, m', -, hev, hg, ho, hpick, hret⟩ |
    ⟨m', st, hret, hst⟩ := hR.round_cases (q := q) env hopen
  all_goals
    rw [hround, Option.some.injEq, Prod.mk.injEq] at hret
    obtain ⟨-, hret⟩ := hret
  · cases hret
  · obtain ⟨rfl, -, hcall⟩ := PollStep.returned.inj hret.symm
    obtain rfl := Option.some.inj hcall
    obtain ⟨hx, l, l', hlist, hl⟩ := List.find?_eq_some_iff_append.mp hpick
    have hdir : ∀ y ∈ b.pend g, s.mem.dir y = b.dir y := by
      intro y hy
      rw [Heap.dir, (hR.waits g y ho hy).kind, Board.dir]
    have hlatest : ∀ y ∈ b.pend g, y ≠ x → s.mem.dir y = s.mem.dir x →
        StartedAfter s.ledger.trace x y := by
      intro y hy hne hsame
      have hsorted := latestFirst_of_reachable hreach g ho
      rw [hlist] at hsorted hy
      have hy' : y ∈ l' := by
        rcases List.mem_append.mp hy with hmem | hmem
        · rw [hdir y (by simp [hlist, hmem]), hdir x (by simp [hlist])] at hsame
          have := hl y hmem
          rw [hsame, hx] at this
          simp at this
        · exact (List.mem_cons.mp hmem).resolve_left hne
      exact (List.pairwise_cons.mp (List.pairwise_append.mp hsorted).2.1).1 y hy'
    refine ⟨b.pend g, hR.handleList ho, by simp [hlist], hlatest, ?_, ?_⟩
    · intro hfirst y hy hsame
      by_contra hne
      exact (hlatest y hy hne hsame).asymm (Ne.symm hne) (hfirst y hy hne hsame)
    · intro honly y hy hne hsame
      exact absurd (honly y hy hsame) hne
  · exact absurd hret.symm (hst r code (some call))

/-- Two writes of a stream, in order. -/
def twoWrites : List Call :=
  [.reqNew 0x30 0x10, .reqNew 0x40 0x10, .fdNew 0x20 5 true,
    .start 0x30 0x20 (.write 0x700 0x708) .ok .ok, .start 0x40 0x20 (.write 0x710 0x718) .ok .ok]

/-- The descriptor becomes writable. -/
def writable : PollEnv := ⟨.event 0x20 ⟨false, true⟩, .ok, .ok⟩

/-- The second write is performed before the first. -/
theorem twoWrites_reversed :
    let s := Heap.afterCalls twoWrites
    Heap.system.Reachable s ∧ (Call.poll 0x10 writable).allowed s.ledger = true ∧
      StartedAfter s.ledger.trace 0x40 0x30 ∧
      s.mem.pollRounds 0x10 [writable, writable] =
        some [.returned 0x40 .ok (some ⟨0x20, .write 0x710 0x718⟩),
          .returned 0x30 .ok (some ⟨0x20, .write 0x700 0x708⟩)] := by
  refine ⟨Heap.reachable_afterCalls twoWrites, by decide +kernel, ?_, by decide +kernel⟩
  exact ⟨[.start 0x30 ⟨0x20, .write 0x700 0x708⟩], .start 0x40 ⟨0x20, .write 0x710 0x718⟩, [],
    by decide +kernel, by decide, by simp⟩

/-- At the first of the two polls, the write that goes first is the one started last. -/
theorem performs_latest_twoWrites :
    let s := Heap.afterCalls twoWrites
    ∃ l, s.mem.handleList 0x20 = some l ∧ 0x40 ∈ l ∧
      ∀ x ∈ l, x ≠ 0x40 → s.mem.dir x = s.mem.dir 0x40 → StartedAfter s.ledger.trace 0x40 x := by
  have hround : ((Heap.afterCalls twoWrites).mem.yoQueuePollRound 0x10 writable).map Prod.snd =
      some (.returned 0x40 .ok (some ⟨0x20, .write 0x710 0x718⟩)) := by decide +kernel
  obtain ⟨⟨m, step⟩, hret, rfl⟩ := Option.map_eq_some_iff.mp hround
  obtain ⟨l, hl, hmem, hlatest, -⟩ := performs_latest (Heap.reachable_afterCalls twoWrites)
    (by decide +kernel) hret
  exact ⟨l, hl, hmem, hlatest⟩

end Yaooi
