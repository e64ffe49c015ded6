import Mathlib.Data.List.Induction
import Yaooi.Queue.Calls

/-!
# The life of a request

The trace of a run, read for one request: `Phase.step` is the automaton that a request
goes through, from a start over its operation or the close of its handle to its
delivery, and a trace that it refuses is one in which something happened twice or out of turn.

`reading_of_run` reads an accepted trace in plain terms.  After a start, and up to the next
one, the request is delivered at most once; when it is delivered, either its own operation
ran once and gave the code (`Fulfilled`), or the operation never ran and the handle was
closed while the request was waiting (`Dropped`).
-/

namespace Yaooi

namespace Event

/-- The request an event is about. -/
def req : Event → Option YoReqT
  | .start r _ | .exec r | .ran r _ _ | .deliver _ r _ => some r
  | .close _ => none

def starts (r : YoReqT) : Event → Bool
  | .start x _ | .exec x => x = r
  | _ => false

def runs (r : YoReqT) : Event → Bool
  | .ran x _ _ => x = r
  | _ => false

def delivers (r : YoReqT) : Event → Bool
  | .deliver _ x _ => x = r
  | _ => false

@[simp] theorem runs_ran (r x : YoReqT) (call : Option SyncCall) (code : YoCode) :
    (Event.ran x call code).runs r = decide (x = r) := rfl
@[simp] theorem runs_close (r : YoReqT) (h : YoFdT) : (Event.close h).runs r = false := rfl
@[simp] theorem runs_deliver (r x : YoReqT) (q : YoQueueT) (code : YoCode) :
    (Event.deliver q x code).runs r = false := rfl
@[simp] theorem delivers_ran (r x : YoReqT) (call : Option SyncCall) (code : YoCode) :
    (Event.ran x call code).delivers r = false := rfl
@[simp] theorem delivers_close (r : YoReqT) (h : YoFdT) : (Event.close h).delivers r = false :=
  rfl
@[simp] theorem delivers_deliver (r x : YoReqT) (q : YoQueueT) (code : YoCode) :
    (Event.deliver q x code).delivers r = decide (x = r) := rfl

/-- An operation that ran is no start. -/
theorem starts_ranEvent {r x : YoReqT} {code : YoCode} {ran : Option SyncCall} {e : Event}
    (he : e ∈ Ledger.ranEvent x code ran) : e.starts r = false := by
  cases ran with
  | none => simp [Ledger.ranEvent] at he
  | some call =>
    obtain rfl := List.mem_singleton.mp he
    rfl

/-- The operation a start is for; a pool request has none on a handle. -/
def own : Event → Option SyncCall
  | .start _ call => some call
  | _ => none

end Event

/-- Where a request is in its life. -/
inductive Phase where
  | idle
  /-- On a handle, for an operation. -/
  | waiting (call : SyncCall)
  | pooled
  /-- Its operation ran and gave the code. -/
  | done (code : YoCode)
  /-- Its handle was closed while it was waiting. -/
  | canceled
  deriving DecidableEq

namespace Phase

/-- The phase a start leads to. -/
def started : Option SyncCall → Phase
  | some call => .waiting call
  | none => .pooled

/-- The handle a request waits on. -/
def handle : Phase → Option YoFdT
  | .waiting call => some call.fd
  | _ => none

/-- What an event about a request does to its phase, `none` when it must not happen. -/
def advance (p : Phase) : Event → Option Phase
  | .start _ call => if p = .idle then some (.waiting call) else none
  | .exec _ => if p = .idle then some .pooled else none
  | .ran _ call code => if p = .started call then some (.done code) else none
  | .close h => if p.handle = some h then some .canceled else some p
  | .deliver _ _ code =>
    if p = .done code ∨ p = .canceled ∧ code = .ecanceled then some .idle else none

/-- What an event does to the phase of the request `r`. -/
def step (r : YoReqT) (p : Phase) (e : Event) : Option Phase :=
  if e.req = none ∨ e.req = some r then p.advance e else some p

/-- The phase after a trace. -/
def run (r : YoReqT) (p : Phase) (tr : List Event) : Option Phase := tr.foldlM (step r) p

variable {r : YoReqT} {p p' : Phase} {e : Event} {tr tr' : List Event}

@[simp] theorem run_nil : run r p [] = some p := rfl

@[simp] theorem run_cons : run r p (e :: tr) = (step r p e).bind fun p => run r p tr := rfl

theorem run_append : run r p (tr ++ tr') = (run r p tr).bind fun p => run r p tr' := by
  simp only [run, List.foldlM_append]
  rfl

/-- An event about another request changes nothing. -/
theorem step_of_ne {x : YoReqT} (he : e.req = some x) (hx : x ≠ r) : step r p e = some p := by
  rw [step, if_neg]
  simp [he, hx]

theorem step_of_req (he : e.req = none ∨ e.req = some r) : step r p e = p.advance e :=
  if_pos he

theorem run_of_ne {x : YoReqT} (htr : ∀ e ∈ tr, e.req = some x) (hx : x ≠ r) :
    run r p tr = some p := by
  induction tr with
  | nil => rfl
  | cons e tr ih =>
    rw [run_cons, step_of_ne (htr e (List.mem_cons_self ..)) hx]
    exact ih fun e he => htr e (List.mem_cons_of_mem _ he)

end Phase

/-! ## Reading a trace -/

/-- The handle of a start was closed before any operation ran for the request. -/
def ClosedWaiting (r : YoReqT) (own : Option SyncCall) (tr : List Event) : Prop :=
  ∃ call l l', own = some call ∧ tr = l ++ .close call.fd :: l' ∧ l.filter (·.runs r) = []

/-- The request's own operation ran once, and gave the code. -/
def Fulfilled (r : YoReqT) (own : Option SyncCall) (tr : List Event) (code : YoCode) : Prop :=
  tr.filter (·.runs r) = [.ran r own code] ∧ ¬ ClosedWaiting r own tr

/-- The operation never ran, and the handle was closed while the request was waiting. -/
def Dropped (r : YoReqT) (own : Option SyncCall) (tr : List Event) : Prop :=
  tr.filter (·.runs r) = [] ∧ ClosedWaiting r own tr

/-- What a phase says about the trace since the start. -/
def Reading (r : YoReqT) (own : Option SyncCall) (tr : List Event) : Phase → Prop
  | .idle => ∃ q code, tr.filter (·.delivers r) = [.deliver q r code] ∧
      (Fulfilled r own tr code ∨ Dropped r own tr ∧ code = .ecanceled)
  | .waiting call => own = some call ∧ tr.filter (·.delivers r) = [] ∧
      tr.filter (·.runs r) = [] ∧ ¬ ClosedWaiting r own tr
  | .pooled => own = none ∧ tr.filter (·.delivers r) = [] ∧ tr.filter (·.runs r) = []
  | .done code => tr.filter (·.delivers r) = [] ∧ Fulfilled r own tr code
  | .canceled => tr.filter (·.delivers r) = [] ∧ Dropped r own tr

section Reading

variable {r : YoReqT} {own : Option SyncCall} {tr : List Event} {e : Event} {p p' : Phase}

theorem not_closedWaiting_nil : ¬ ClosedWaiting r own [] := by
  rintro ⟨call, l, l', -, htr, -⟩
  simp at htr

/-- One more event closes the handle in time exactly when it is that close and no operation
ran yet. -/
theorem closedWaiting_append :
    ClosedWaiting r own (tr ++ [e]) ↔
      ClosedWaiting r own tr ∨
        tr.filter (·.runs r) = [] ∧ ∃ call, own = some call ∧ e = .close call.fd := by
  constructor
  · rintro ⟨call, l, l', hown, htr, hl⟩
    rcases List.eq_nil_or_concat l' with rfl | ⟨l', x, rfl⟩
    · obtain ⟨rfl, he⟩ := List.append_inj' htr rfl
      exact .inr ⟨hl, call, hown, (List.cons.inj he).1⟩
    · have htr' : tr ++ [e] = (l ++ .close call.fd :: l') ++ [x] := by simpa using htr
      obtain ⟨rfl, -⟩ := List.append_inj' htr' rfl
      exact .inl ⟨call, l, l', hown, rfl, hl⟩
  · rintro (⟨call, l, l', hown, rfl, hl⟩ | ⟨hruns, call, hown, rfl⟩)
    · exact ⟨call, l, l' ++ [e], hown, by simp, hl⟩
    · exact ⟨call, tr, [], hown, rfl, hruns⟩

/-- An event that is not a close leaves the closes as they are. -/
theorem closedWaiting_append_of_req {x : YoReqT} (he : e.req = some x) :
    ClosedWaiting r own (tr ++ [e]) ↔ ClosedWaiting r own tr := by
  rw [closedWaiting_append, or_iff_left]
  rintro ⟨-, call, -, rfl⟩
  simp [Event.req] at he

/-- An event about another request leaves the reading as it is. -/
theorem Reading.other {x : YoReqT} (h : Reading r own tr p) (he : e.req = some x)
    (hx : x ≠ r) : Reading r own (tr ++ [e]) p := by
  have hdel : (tr ++ [e]).filter (·.delivers r) = tr.filter (·.delivers r) := by
    cases e <;> simp_all [Event.req, Event.delivers]
  have hruns : (tr ++ [e]).filter (·.runs r) = tr.filter (·.runs r) := by
    cases e <;> simp_all [Event.req, Event.runs]
  have hclosed : ClosedWaiting r own (tr ++ [e]) ↔ ClosedWaiting r own tr :=
    closedWaiting_append_of_req he
  cases p <;> simp only [Reading, Fulfilled, Dropped, hdel, hruns, hclosed] <;> exact h

/-- The operation runs. -/
theorem Reading.ran {call : Option SyncCall} {code : YoCode} (h : Reading r own tr p)
    (hstep : p.step r (.ran r call code) = some p') :
    Reading r own (tr ++ [.ran r call code]) p' := by
  rw [Phase.step_of_req (.inr rfl), Phase.advance, Option.ite_none_right_eq_some,
    Option.some.injEq] at hstep
  obtain ⟨rfl, rfl⟩ := hstep
  have hp : own = call ∧ tr.filter (·.delivers r) = [] ∧ tr.filter (·.runs r) = [] ∧
      ¬ ClosedWaiting r own tr := by
    cases call with
    | some c => exact h
    | none =>
      refine ⟨h.1, h.2.1, h.2.2, ?_⟩
      rintro ⟨c, -, -, hown, -⟩
      simp [h.1] at hown
  obtain ⟨rfl, hdel, hruns, hopen⟩ := hp
  refine ⟨by rw [List.filter_append, hdel]; simp, by rw [List.filter_append, hruns]; simp, ?_⟩
  rwa [closedWaiting_append_of_req rfl]

/-- A handle is closed. -/
theorem Reading.close {g : YoFdT} (h : Reading r own tr p)
    (hstep : p.step r (.close g) = some p') : Reading r own (tr ++ [.close g]) p' := by
  have hdel : (tr ++ [Event.close g]).filter (·.delivers r) = tr.filter (·.delivers r) := by
    simp
  have hruns : (tr ++ [Event.close g]).filter (·.runs r) = tr.filter (·.runs r) := by
    simp
  -- once the operation ran, or the handle was closed, another close adds nothing
  have keepF : ∀ {code}, Fulfilled r own tr code → Fulfilled r own (tr ++ [.close g]) code := by
    rintro code ⟨hran, hopen⟩
    refine ⟨hruns.trans hran, ?_⟩
    rw [closedWaiting_append, hran]
    simpa using hopen
  have keepD : Dropped r own tr → Dropped r own (tr ++ [.close g]) := by
    rintro ⟨hran, hclosed⟩
    exact ⟨hruns.trans hran, closedWaiting_append.mpr (.inl hclosed)⟩
  rw [Phase.step_of_req (.inl rfl), Phase.advance] at hstep
  cases p with
  | idle =>
    obtain rfl := Option.some.inj hstep
    obtain ⟨q, code, hd, hcase⟩ := h
    exact ⟨q, code, hdel.trans hd, hcase.imp keepF fun ⟨hD, hc⟩ => ⟨keepD hD, hc⟩⟩
  | waiting c =>
    obtain ⟨rfl, hd, hran, hopen⟩ := h
    simp only [Phase.handle, Option.some.injEq] at hstep
    split at hstep
    · rename_i hg
      obtain rfl := Option.some.inj hstep
      exact ⟨hdel.trans hd, hruns.trans hran,
        closedWaiting_append.mpr (.inr ⟨hran, c, rfl, hg ▸ rfl⟩)⟩
    · rename_i hg
      obtain rfl := Option.some.inj hstep
      refine ⟨rfl, hdel.trans hd, hruns.trans hran, ?_⟩
      rw [closedWaiting_append]
      rintro (hclosed | ⟨-, call, hcall, hclose⟩)
      · exact hopen hclosed
      · rw [Option.some.inj hcall] at hg
        exact hg (Event.close.inj hclose).symm
  | pooled =>
    obtain rfl := Option.some.inj hstep
    exact ⟨h.1, hdel.trans h.2.1, hruns.trans h.2.2⟩
  | done code =>
    obtain rfl := Option.some.inj hstep
    exact ⟨hdel.trans h.1, keepF h.2⟩
  | canceled =>
    obtain rfl := Option.some.inj hstep
    exact ⟨hdel.trans h.1, keepD h.2⟩

/-- The request is delivered. -/
theorem Reading.deliver {q : YoQueueT} {code : YoCode} (h : Reading r own tr p)
    (hstep : p.step r (.deliver q r code) = some p') :
    Reading r own (tr ++ [.deliver q r code]) p' := by
  have hruns : (tr ++ [Event.deliver q r code]).filter (·.runs r) = tr.filter (·.runs r) := by
    simp
  have hclosed : ClosedWaiting r own (tr ++ [.deliver q r code]) ↔ ClosedWaiting r own tr :=
    closedWaiting_append_of_req rfl
  rw [Phase.step_of_req (.inr rfl), Phase.advance, Option.ite_none_right_eq_some,
    Option.some.injEq] at hstep
  obtain ⟨rfl | ⟨rfl, rfl⟩, rfl⟩ := hstep
  · obtain ⟨hdel, hF⟩ := h
    refine ⟨q, code, by rw [List.filter_append, hdel]; simp, .inl ⟨hruns.trans hF.1, ?_⟩⟩
    rw [hclosed]
    exact hF.2
  · obtain ⟨hdel, hD⟩ := h
    exact ⟨q, _, by rw [List.filter_append, hdel]; simp,
      .inr ⟨⟨hruns.trans hD.1, hclosed.mpr hD.2⟩, rfl⟩⟩

/-- **Reading one event.** -/
theorem Reading.step (h : Reading r own tr p) (hstart : e.starts r = false)
    (hstep : p.step r e = some p') : Reading r own (tr ++ [e]) p' := by
  by_cases hreq : ∃ x, e.req = some x ∧ x ≠ r
  · obtain ⟨x, he, hx⟩ := hreq
    rw [Phase.step_of_ne he hx, Option.some.injEq] at hstep
    exact hstep ▸ h.other he hx
  cases e with
  | start x call => simp_all [Event.req, Event.starts]
  | exec x => simp_all [Event.req, Event.starts]
  | ran x call code =>
    obtain rfl : x = r := by simpa [Event.req] using hreq
    exact h.ran hstep
  | close g => exact h.close hstep
  | deliver q x code =>
    obtain rfl : x = r := by simpa [Event.req] using hreq
    exact h.deliver hstep

/-- A start is accepted of an idle request. -/
theorem step_of_starts (hstart : e.starts r = true) :
    p.step r e = some p' ↔ p = .idle ∧ p' = .started e.own := by
  have hreq : e.req = some r := by
    cases e <;> simp_all [Event.starts, Event.req]
  rw [Phase.step_of_req (.inr hreq)]
  cases e with
  | start x call => simp [Phase.advance, Phase.started, Event.own, eq_comm (a := p')]
  | exec x => simp [Phase.advance, Phase.started, Event.own, eq_comm (a := p')]
  | ran | close | deliver => simp [Event.starts] at hstart

/-- Nothing else gets an idle request going. -/
theorem step_idle (hstart : e.starts r = false) (hstep : Phase.idle.step r e = some p') :
    p' = .idle := by
  by_cases hreq : e.req = none ∨ e.req = some r
  · rw [Phase.step_of_req hreq] at hstep
    cases e with
    | start | exec => simp_all [Event.starts, Event.req]
    | ran x call code => cases call <;> simp [Phase.advance, Phase.started] at hstep
    | close | deliver => simp_all [Phase.advance, Phase.handle]
  · rw [Phase.step, if_neg hreq, Option.some.injEq] at hstep
    exact hstep.symm

/-- **Reading a trace.**  From a start on, and up to the next one, the phase the trace leads
to says what happened. -/
theorem reading_of_run (hstart : ∀ e ∈ tr, e.starts r = false)
    (hrun : Phase.run r (.started own) tr = some p) : Reading r own tr p := by
  induction tr using List.reverseRecOn generalizing p with
  | nil =>
    obtain rfl := Option.some.inj hrun
    cases own with
    | none => exact ⟨rfl, rfl, rfl⟩
    | some call => exact ⟨rfl, rfl, rfl, not_closedWaiting_nil⟩
  | append_singleton tr e ih =>
    rw [Phase.run_append] at hrun
    obtain ⟨p₀, hp₀, hrun⟩ := Option.bind_eq_some_iff.mp hrun
    obtain ⟨p₁, hstep, hlast⟩ := Option.bind_eq_some_iff.mp (Phase.run_cons ▸ hrun)
    obtain rfl := Option.some.inj hlast
    exact (ih (fun x hx => hstart x (by simp [hx])) hp₀).step (hstart e (by simp)) hstep

/-- What follows a start of an accepted trace is accepted from the phase the start leads
to. -/
theorem run_after_start {l l' : List Event} (hrun : Phase.run r .idle (l ++ e :: l') = some p)
    (hstart : e.starts r = true) : Phase.run r (.started e.own) l' = some p := by
  rw [Phase.run_append] at hrun
  obtain ⟨p₀, -, hrun⟩ := Option.bind_eq_some_iff.mp hrun
  obtain ⟨p₁, hstep, hrest⟩ := Option.bind_eq_some_iff.mp (Phase.run_cons ▸ hrun)
  obtain ⟨-, rfl⟩ := (step_of_starts hstart).mp hstep
  exact hrest

end Reading

end Yaooi
