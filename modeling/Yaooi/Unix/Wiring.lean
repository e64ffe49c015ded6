import Yaooi.Unix.Inherit

/-!
# The child's standard streams

Where the child's part of `yo_proc_spawn` in `src/unix/impl.c` puts the ends of the pipes.  The
kernel gives out the lowest numbers that are free, so a parent without standard descriptors gets
its pipes there; the child copies its ends to the numbers 0, 1 and 2 and closes, one after the
other, the numbers that the ends had before.

* `FdTable.Filled` and `pipe_filled`: the status pipe takes the two lowest free numbers.
* `lookup_runAll_copies`: the copies end up where they belong if no end of a pipe is a standard
  descriptor that is copied to.
* `wired_iff`: so the streams are in place unless all three standard descriptors of the parent are
  closed and `stderr` is redirected.
-/

namespace Yaooi

/-! ## What the child should have -/

/-- The child's descriptors when it calls `execve`, if it gets there. -/
def atExecve (args : SpawnArgs) (child : ChildAnswers) (k : Kernel) (f : SpawnFds) :
    Option FdTable :=
  (runChild child k.fds (childProgram args f).dropLast).toOption

/-- The child's standard descriptors are as they should be, in the table `t` with which it calls
`execve`; the parent has had `k₀` at the call and `k` at `fork`. -/
structure Wired (args : SpawnArgs) (k₀ k : Kernel) (f : SpawnFds) (t : FdTable) : Prop where
  /-- A stream that is redirected is at the child's end of the pipe of which the parent keeps the
  other end. -/
  redirected : ∀ std, args.redirect std = true → ∃ a id, f.parent std = some a ∧
    k.fds.lookup a = some ⟨std.parentEnd id, false⟩ ∧
      t.lookup std.fileno = some ⟨std.childEnd id, false⟩
  /-- Another one is what it was in the parent: the program finds it as it would if the parent
  itself called `execve`. -/
  others : ∀ std, args.redirect std = false →
    (∀ d, k₀.fds.lookup std.fileno = some d → t.lookup std.fileno = some d) ∧
      t.exec.lookup std.fileno = k₀.fds.exec.lookup std.fileno

/-! ## The numbers of a new pipe -/

variable {k k₀ k' k₁ : Kernel} {f f' : SpawnFds} {args : SpawnArgs} {ans : SpawnAnswers}
  {child : ChildAnswers} {t u : FdTable} {fd i n r w : ℕ} {d : Desc} {std : Stream}
  {l : List Stream} {ops ops' : List ChildOp}

theorem Stream.fileno_lt (std : Stream) : std.fileno < 3 := by
  cases std <;> decide

theorem Stream.fileno_inj {std std' : Stream} (h : std.fileno = std'.fileno) : std = std' := by
  revert h
  cases std <;> cases std' <;> decide

namespace FdTable

/-- A new descriptor gets the lowest free number. -/
theorem free_le (h : t.lookup fd = none) : t.free ≤ fd := by
  by_contra hlt
  have hlt' : fd < t.findIdx Option.isNone := not_le.mp hlt
  have hlen : fd < t.length := hlt'.trans_le List.findIdx_le_length
  have hsome := List.not_of_lt_findIdx hlt'
  rw [lookup, List.getElem?_eq_getElem hlen] at h
  simp only [Option.join_some] at h
  simp [h] at hsome

/-- The numbers below `n` are in use. -/
def Filled (n : ℕ) (t : FdTable) : Prop := ∀ i < n, t.lookup i ≠ none

/-- What is not open is above them. -/
theorem Filled.le (h : t.Filled n) (hfd : t.lookup fd = none) : n ≤ fd := by
  by_contra hlt
  exact h fd (not_le.mp hlt) hfd

end FdTable

/-- **A new pipe takes the two lowest free numbers.** -/
theorem pipe_filled (h : k.pipe = (k', r, w)) :
    k'.fds.Filled 2 ∧ ((∃ i < 3, k.fds.lookup i ≠ none) → k'.fds.Filled 3) := by
  obtain ⟨hne, hr, hw, -, hlookup⟩ := pipe_spec h
  have hlow : ∀ i, k'.fds.lookup i = none →
      k.fds.lookup i = none ∧ r ≤ i ∧ w ≤ i ∧ i ≠ r ∧ i ≠ w := by
    intro i hi
    rw [hlookup] at hi
    split at hi
    · cases hi
    · rename_i hiw
      split at hi
      · cases hi
      · rename_i hir
        cases h
        refine ⟨hi, FdTable.free_le hi, FdTable.free_le ?_, hir, hiw⟩
        rw [FdTable.lookup_install, if_neg hir, hi]
  refine ⟨fun i hi hnone => ?_, ?_⟩
  · obtain ⟨-, hri, hwi, hir, hiw⟩ := hlow i hnone
    omega
  · rintro ⟨j, hj, hopen⟩ i hi hnone
    obtain ⟨hclosed, hri, hwi, hir, hiw⟩ := hlow i hnone
    -- the pipe has the numbers 0 and 1, and 2 is not open
    have hj' : j = r ∨ j = w ∨ j = i := by omega
    rcases hj' with rfl | rfl | rfl
    · exact hopen hr
    · exact hopen hw
    · exact hopen hclosed

/-! ## The streams one after the other -/

/-- What each new pipe keeps holds when the streams are redirected. -/
theorem redirect_invariant {P : Kernel → SpawnFds → Prop} (h : P k f)
    (hstep : ∀ k f std, P k f → args.redirect std = true → P (mkstd k f std).1 (mkstd k f std).2)
    (hfold : l.foldlM (redirect args ans) (k, f) = .ok (k', f')) : P k' f' := by
  induction l generalizing k f with
  | nil =>
    cases hfold
    exact h
  | cons std l ih =>
    rw [List.foldlM_cons] at hfold
    cases hredirect : args.redirect std with
    | false =>
      have hsame : redirect args ans (k, f) std = .ok (k, f) := by simp [redirect, hredirect]
      rw [hsame] at hfold
      exact ih h hfold
    | true =>
      cases hstd : ans.std std with
      | some e =>
        have herr : redirect args ans (k, f) std = .error (e, k, f) := by
          simp [redirect, hredirect, hstd]
        rw [herr] at hfold
        cases hfold
      | none =>
        have hok : redirect args ans (k, f) std = .ok (mkstd k f std) := by
          simp [redirect, hredirect, hstd]
        rw [hok] at hfold
        exact ih (hstep k f std h hredirect) hfold

/-- What is in use stays so. -/
theorem FdTable.Filled.mkstd (h : k.fds.Filled n) : (mkstd k f std).1.fds.Filled n := by
  intro i hi
  obtain ⟨d, hd⟩ := Option.ne_none_iff_exists'.mp (h i hi)
  rw [lookup_mkstd hd]
  simp

/-- The ends of the pipes of the streams have numbers from `n` on. -/
def SpawnFds.Above (n : ℕ) (f : SpawnFds) : Prop :=
  ∀ std fd, f.parent std = some fd ∨ f.child std = some fd → n ≤ fd

/-- A new pipe has its ends above what is in use. -/
theorem SpawnFds.Above.mkstd (h : f.Above n) (hfilled : k.fds.Filled n) (std : Stream) :
    (mkstd k f std).2.Above n := by
  obtain ⟨a, b, hf, ha, hb, -⟩ := mkstd_spec k f std
  intro std' fd hfd
  rw [hf] at hfd
  by_cases hstd : std' = std
  · subst hstd
    simp only [Function.update_self, Option.some.injEq] at hfd
    rcases hfd with rfl | rfl
    · exact hfilled.le ha
    · exact hfilled.le hb
  · simp only [Function.update_of_ne hstd] at hfd
    exact h std' fd hfd

/-- Up to `fork`: the status pipe, and then the streams. -/
theorem prepare_eq_ok (h : prepare args ans k₀ = (k, .ok f)) :
    ∃ k₁ r w, k₀.pipe = (k₁, r, w) ∧ f.status0 = some r ∧ f.status1 = some w ∧
      Stream.all.foldlM (redirect args ans)
        ({ k₁ with fds := (k₁.fds.setCloexec r).setCloexec w },
          ⟨some r, some w, fun _ => none, fun _ => none⟩) = .ok (k, f) := by
  unfold prepare at h
  cases hstatus : ans.statusPipe with
  | some e => simp [hstatus] at h
  | none =>
    cases hfcntl : ans.fcntl with
    | some e => simp [hstatus, hfcntl] at h
    | none =>
      generalize hpipe : k₀.pipe = p at h
      obtain ⟨k₁, r, w⟩ := p
      simp only [hstatus, hfcntl] at h
      cases hfold : Stream.all.foldlM (redirect args ans)
          ({ k₁ with fds := (k₁.fds.setCloexec r).setCloexec w },
            ⟨some r, some w, fun _ => none, fun _ => none⟩) with
      | error q => simp [hfold] at h
      | ok q =>
        cases hfork : ans.fork with
        | some e => simp [hfold, hfork] at h
        | none =>
          simp only [hfold, hfork, Prod.mk.injEq, Except.ok.injEq] at h
          obtain ⟨rfl, rfl⟩ := h
          have hstatus : q.2.status0 = some r ∧ q.2.status1 = some w := by
            refine redirect_invariant (P := fun _ f => f.status0 = some r ∧ f.status1 = some w)
              ⟨rfl, rfl⟩ (fun k f std hf _ => ?_) hfold
            obtain ⟨a, b, heq, -⟩ := mkstd_spec k f std
            rw [heq]
            exact hf
          exact ⟨k₁, r, w, rfl, hstatus.1, hstatus.2, hfold⟩

/-- The numbers that are in use when the child starts, and where the ends of the pipes are. -/
theorem numbers_prepare (h : prepare args ans k₀ = (k, .ok f)) :
    k.fds.Filled 2 ∧ f.Above 2 ∧ ((∃ i < 3, k₀.fds.lookup i ≠ none) → f.Above 3) ∧
      ((∃ std, f.child std ≠ none) → k.fds.Filled 3) := by
  obtain ⟨k₁, r, w, hpipe, -, -, hfold⟩ := prepare_eq_ok h
  obtain ⟨htwo, hthree⟩ := pipe_filled hpipe
  have hset : ∀ n, k₁.fds.Filled n → ((k₁.fds.setCloexec r).setCloexec w).Filled n := by
    intro n hn i hi
    obtain ⟨d, hd⟩ := Option.ne_none_iff_exists'.mp (hn i hi)
    simp only [FdTable.lookup_setCloexec, hd]
    split <;> split <;> simp
  have hnew : ∀ k f std, Kernel.fds k |>.Filled 2 → (mkstd k f std).1.fds.Filled 3 := by
    intro k f std hk
    unfold mkstd
    generalize hp : k.pipe = p
    obtain ⟨k', r, w⟩ := p
    exact (pipe_filled hp).2 ⟨0, by omega, hk 0 (by omega)⟩
  have hkeep : ∀ n, k₁.fds.Filled n → k.fds.Filled n ∧ f.Above n := fun n hn =>
    redirect_invariant (P := fun k f => k.fds.Filled n ∧ f.Above n)
      ⟨hset n hn, fun std fd hfd => by simp at hfd⟩
      (fun k f std hkf _ => ⟨hkf.1.mkstd, hkf.2.mkstd hkf.1 std⟩) hfold
  refine ⟨(hkeep 2 htwo).1, (hkeep 2 htwo).2, fun hopen => (hkeep 3 (hthree hopen)).2, ?_⟩
  exact (redirect_invariant (P := fun k f => k.fds.Filled 2 ∧
      ((∃ std, f.child std ≠ none) → k.fds.Filled 3))
      ⟨hset 2 htwo, fun ⟨std, hstd⟩ => absurd rfl hstd⟩
      (fun k f std hkf _ => ⟨hkf.1.mkstd, fun _ => hnew k f std hkf.1⟩) hfold).2

/-! ## The copies -/

/-- No end of a pipe is at a standard descriptor that is copied to. -/
def SpawnFds.Apart (f : SpawnFds) : Prop :=
  ∀ std fd, f.parent std = some fd ∨ f.child std = some fd →
    ∀ std', (f.child std').isSome = true → fd ≠ std'.fileno

/-- **The copies end up where they belong**, since none of them overwrites the source of a later
one. -/
theorem lookup_runAll_copies (hapart : f.Apart) (hnodup : l.Nodup)
    (hopen : ∀ std ∈ l, ∀ c, f.child std = some c → t.lookup c ≠ none) :
    (∀ std ∈ l, ∀ c, f.child std = some c → (runAll t (f.copies l)).lookup std.fileno =
        (t.lookup c).map fun d => { d with cloexec := false }) ∧
      ∀ fd, (∀ std ∈ l, (f.child std).isSome = true → fd ≠ std.fileno) →
        (runAll t (f.copies l)).lookup fd = t.lookup fd := by
  induction l generalizing t with
  | nil => exact ⟨by simp, fun _ _ => rfl⟩
  | cons std l ih =>
    obtain ⟨hnot, hnodup⟩ := List.nodup_cons.mp hnodup
    obtain ⟨hhere, hopen⟩ := List.forall_mem_cons.mp hopen
    cases hc : f.child std with
    | none =>
      have hcopies : f.copies (std :: l) = f.copies l := by simp [SpawnFds.copies, hc]
      obtain ⟨hcopied, hrest⟩ := ih hnodup hopen
      rw [hcopies]
      refine ⟨List.forall_mem_cons.mpr ⟨fun c hc' => ?_, hcopied⟩, fun fd hfd => ?_⟩
      · simp [hc] at hc'
      · exact hrest fd fun std' hstd' => hfd std' (List.mem_cons_of_mem _ hstd')
    | some c =>
      have hcopies : runAll t (f.copies (std :: l)) =
          runAll (t.dup2 c std.fileno) (f.copies l) := by
        simp [SpawnFds.copies, hc, runAll, ChildOp.run]
      obtain ⟨d, hd⟩ := Option.ne_none_iff_exists'.mp (hhere c hc)
      have hne : c ≠ std.fileno := hapart std c (.inr hc) std (by simp [hc])
      have hlookup : ∀ fd, (t.dup2 c std.fileno).lookup fd =
          if fd = std.fileno then some { d with cloexec := false } else t.lookup fd :=
        fun fd => FdTable.lookup_dup2 hd hne
      have hsource : ∀ std' c', f.child std' = some c' →
          (t.dup2 c std.fileno).lookup c' = t.lookup c' := by
        intro std' c' hc'
        rw [hlookup, if_neg (hapart std' c' (.inr hc') std (by simp [hc]))]
      obtain ⟨hcopied, hrest⟩ := ih hnodup fun std' hstd' c' hc' => by
        rw [hsource std' c' hc']
        exact hopen std' hstd' c' hc'
      rw [hcopies]
      refine ⟨List.forall_mem_cons.mpr ⟨fun c' hc' => ?_, fun std' hstd' c' hc' => ?_⟩,
        fun fd hfd => ?_⟩
      · obtain rfl : c = c' := Option.some.inj (hc.symm.trans hc')
        rw [hrest, hlookup, if_pos rfl, hd]
        · rfl
        · exact fun std' hstd' _ e => hnot (Stream.fileno_inj e ▸ hstd')
      · rw [hcopied std' hstd' c' hc', hsource std' c' hc']
      · rw [hrest fd fun std' hstd' => hfd std' (List.mem_cons_of_mem _ hstd'), hlookup,
          if_neg (hfd std (List.mem_cons_self ..) (by simp [hc]))]

/-! ## At `execve` -/

/-- The table at `execve`: the ends of the pipes are closed, and the rest is as the copies left
it. -/
theorem lookup_atExecve (child : ChildAnswers) (hlayout : Layout k₀ k f)
    (hr : f.status0 = some r)
    (hfault : ∀ op ∈ childProgram args f, child.fault op = none) :
    ∃ t, atExecve args child k f = some t ∧ ∀ fd, t.lookup fd = if fd ∈ f.closed then none
      else (runAll (k.fds.close r) (f.copies Stream.all)).lookup fd := by
  have hdrop : childProgram args f = (childProgram args f).dropLast ++ [.execve] := by
    simp [childProgram]
  have hfull := (hlayout.runAll_childProgram hr args child).2 hfault
  have hrun : ∃ t, runChild child k.fds (childProgram args f).dropLast = .ok t := by
    rw [hdrop] at hfull
    cases hcases : runChild child k.fds (childProgram args f).dropLast with
    | ok t => exact ⟨t, rfl⟩
    | error e =>
      rw [runChild, List.foldlM_append] at hfull
      rw [runChild] at hcases
      rw [hcases] at hfull
      cases hfull
  obtain ⟨t, ht⟩ := hrun
  have hops : (childProgram args f).dropLast = .close r :: f.copies Stream.all ++
      (f.closed.map .close ++ ((if args.cwd then [.chdir] else []) ++ [.setmask])) := by
    have hsplit := Layout.childProgram_eq hr args
    rw [hdrop, SpawnFds.tail] at hsplit
    refine List.append_cancel_right (hsplit.trans ?_)
    simp
  refine ⟨t, by rw [atExecve, ht]; rfl, fun fd => ?_⟩
  obtain ⟨-, rfl⟩ := runChild_eq_ok ht
  have hclose : runAll k.fds (childProgram args f).dropLast =
      runAll (runAll (k.fds.close r) (f.copies Stream.all)) (f.closed.map .close) := by
    rw [hops, runAll_append, runAll_append]
    cases args.cwd <;> rfl
  rw [hclose, lookup_runAll_close]

/-- Where no end of a pipe is in the way, the streams are in place. -/
theorem wired_of_apart (hlayout : Layout k₀ k f) (hdone : Done args f []) (hr : f.status0 = some r)
    (hapart : f.Apart) (hlookup : ∀ fd, t.lookup fd = if fd ∈ f.closed then none
      else (runAll (k.fds.close r) (f.copies Stream.all)).lookup fd) : Wired args k₀ k f t := by
  have hredirect : ∀ std, (f.child std).isSome = args.redirect std := fun std =>
    (hdone std (by simp)).2
  obtain ⟨r', w, hr', hw, -, hlw⟩ := hlayout.status
  obtain rfl : r' = r := Option.some.inj (hr'.symm.trans hr)
  obtain ⟨-, hne⟩ := hlayout.ne_status hr hw
  have hends : ∀ std c, f.child std = some c →
      (k.fds.close r').lookup c = k.fds.lookup c := by
    intro std c hc
    rw [FdTable.lookup_close, if_neg fun e : c = r' => (hne std).2.2.1 (e ▸ hc)]
  obtain ⟨hcopied, hrest⟩ := lookup_runAll_copies (l := Stream.all) (t := k.fds.close r') hapart
    (by decide) fun std _ c hc => by
      rw [hends std c hc]
      exact hlayout.lookup_ne_none (.inr (.inr ⟨std, .inr hc⟩))
  refine ⟨fun std hstd => ?_, fun std hstd => ?_⟩
  · rcases hlayout.ends std with ⟨-, hnone⟩ | ⟨a, b, id, ha, hb, -, -, hla, hlb⟩
    · have := hredirect std
      rw [hnone, hstd] at this
      cases this
    · have hkept : std.fileno ∉ f.closed := by
        intro hmem
        obtain ⟨std', hstd'⟩ := Layout.mem_closed.mp hmem
        exact hapart std' _ hstd' std (by simp [hb]) rfl
      refine ⟨a, id, ha, hla, ?_⟩
      rw [hlookup, if_neg hkept, hcopied std std.mem_all b hb, hends std b hb, hlb]
      rfl
  · -- nothing is copied to this one
    have hsame : (runAll (k.fds.close r') (f.copies Stream.all)).lookup std.fileno =
        (k.fds.close r').lookup std.fileno := hrest _ fun std' _ hsome e => by
      rw [hredirect, ← Stream.fileno_inj e, hstd] at hsome
      cases hsome
    by_cases hholds : f.Holds std.fileno
    · have hnone := hlayout.fresh _ hholds
      refine ⟨fun d hd => ?_, ?_⟩
      · rw [hnone] at hd
        cases hd
      · rw [FdTable.lookup_exec, FdTable.lookup_exec, hlookup, hnone, hsame, FdTable.lookup_close]
        rcases hholds with h0 | h1 | hend
        · rw [if_pos (Option.some.inj (h0.symm.trans hr))]
          split <;> rfl
        · obtain rfl : std.fileno = w := Option.some.inj (h1.symm.trans hw)
          rw [hlw]
          split
          · rfl
          · split <;> rfl
        · rw [if_pos (Layout.mem_closed.mpr hend)]
    · have hfr : std.fileno ≠ r' := fun e => hholds (.inl (e ▸ hr))
      have hkept : std.fileno ∉ f.closed := fun hmem =>
        hholds (.inr (.inr (Layout.mem_closed.mp hmem)))
      have heq : t.lookup std.fileno = k₀.fds.lookup std.fileno := by
        rw [hlookup, if_neg hkept, hsame, FdTable.lookup_close, if_neg hfr, hlayout.rest _ hholds]
      exact ⟨fun d hd => heq.trans hd, by rw [FdTable.lookup_exec, FdTable.lookup_exec, heq]⟩

/-- When the parent's standard descriptors are all closed, the status pipe has the numbers 0 and 1,
so that the first pipe of a stream has an end at 2, and the child closes it. -/
theorem two_mem_closed (hprepare : prepare args ans k₀ = (k, .ok f))
    (hclosed : ∀ std : Stream, k₀.fds.lookup std.fileno = none)
    (hsome : ∃ std, f.child std ≠ none) : 2 ∈ f.closed := by
  obtain ⟨hlayout, -⟩ := layout_prepare hprepare
  obtain ⟨-, -, -, hstderr⟩ := numbers_prepare hprepare
  obtain ⟨k₁, r, w, hpipe, hr, hw, -⟩ := prepare_eq_ok hprepare
  obtain ⟨-, -, -, -, hnew⟩ := pipe_spec hpipe
  have hlow : ∀ i < 2, i = w ∨ i = r := by
    intro i hi
    have hin := (pipe_filled hpipe).1 i hi
    rw [hnew] at hin
    by_contra hno
    push Not at hno
    rw [if_neg hno.1, if_neg hno.2] at hin
    obtain rfl | rfl : i = 0 ∨ i = 1 := by omega
    · exact hin (hclosed .stdin)
    · exact hin (hclosed .stdout)
  have hzero := hlow 0 (by omega)
  have hone := hlow 1 (by omega)
  have hholds : f.Holds 2 := by
    by_contra hno
    exact hstderr hsome 2 (by omega) ((hlayout.rest 2 hno).trans (hclosed .stderr))
  rcases hholds with h0 | h1 | hend
  · have := Option.some.inj (h0.symm.trans hr)
    omega
  · have := Option.some.inj (h1.symm.trans hw)
    omega
  · exact Layout.mem_closed.mpr hend

/-- **When the child's streams are in place**, all calls succeeding: unless none of the parent's
standard descriptors is open and `stderr` is redirected.  Then the first pipe of a stream has an
end at the number 2, which the child closes after it has put `stderr` there. -/
theorem wired_iff (hok : Executes args ans child) : ∃ k f t,
    prepare args ans k₀ = (k, .ok f) ∧ atExecve args child k f = some t ∧
      (Wired args k₀ k f t ↔
        ¬ ((∀ std : Stream, k₀.fds.lookup std.fileno = none) ∧ args.redirect .stderr = true)) := by
  obtain ⟨hprepared, -, hfault⟩ := hok
  obtain ⟨k, f, hprepare⟩ := prepare_isOk.mpr hprepared
  obtain ⟨hlayout, hdone⟩ := layout_prepare hprepare
  obtain ⟨-, htwo, hthree, -⟩ := numbers_prepare hprepare
  obtain ⟨k₁, r, w, -, hr, -⟩ := prepare_eq_ok hprepare
  have hredirect : ∀ std, (f.child std).isSome = args.redirect std := fun std =>
    (hdone std (by simp)).2
  obtain ⟨t, ht, hlookup⟩ := lookup_atExecve child hlayout hr
    ((faultless_iff hdone).mpr hfault)
  refine ⟨k, f, t, hprepare, ht, ?_⟩
  by_cases hclosed : ∀ std : Stream, k₀.fds.lookup std.fileno = none
  · cases herr : args.redirect .stderr with
    | false =>
      refine iff_of_true (wired_of_apart hlayout hdone hr ?_ hlookup) (by simp)
      intro std fd hfd std' hsome e
      -- what is copied to is 0 or 1, and these are the status pipe's
      have hle := htwo std fd hfd
      cases std' with
      | stderr =>
        rw [hredirect, herr] at hsome
        cases hsome
      | stdin | stdout => simp [Stream.fileno] at e; omega
    | true =>
      refine iff_of_false (fun hwired => ?_) (by simp [hclosed])
      obtain ⟨a, id, -, -, hend⟩ := hwired.redirected .stderr herr
      have hmem : 2 ∈ f.closed := two_mem_closed hprepare hclosed ⟨.stderr, fun e => by
        have := hredirect .stderr
        rw [e, herr] at this
        cases this⟩
      rw [hlookup, Stream.fileno, if_pos hmem] at hend
      cases hend
  · refine iff_of_true (wired_of_apart hlayout hdone hr ?_ hlookup) (by simp [hclosed])
    push Not at hclosed
    obtain ⟨std₀, hopen⟩ := hclosed
    intro std fd hfd std' _ e
    have hle := hthree ⟨std₀.fileno, std₀.fileno_lt, hopen⟩ std fd hfd
    have := std'.fileno_lt
    omega

/-- `stderr` is redirected, and no call fails. -/
def stderrOnly : SpawnArgs := ⟨fun std => std = .stderr, false⟩

/-- Nothing fails before `fork`. -/
def SpawnAnswers.fine : SpawnAnswers := ⟨true, none, none, fun _ => none, none⟩

/-- Nothing fails after it. -/
def ChildAnswers.fine : ChildAnswers := ⟨fun _ => none, none, none, none, false, none, none⟩

theorem executes_fine (args : SpawnArgs) : Executes args .fine .fine :=
  ⟨⟨rfl, rfl, fun _ _ => rfl, rfl⟩, rfl, fun _ _ => rfl, fun _ => rfl, rfl, rfl⟩

/-- A parent with a standard output. -/
theorem wired_iff_stdout : ∃ k f t,
    prepare stderrOnly .fine ⟨[none, some ⟨.other 0, false⟩], 0⟩ = (k, .ok f) ∧
      atExecve stderrOnly .fine k f = some t ∧
        (Wired stderrOnly ⟨[none, some ⟨.other 0, false⟩], 0⟩ k f t ↔
          ¬ ((∀ std : Stream, FdTable.lookup [none, some ⟨.other 0, false⟩] std.fileno = none) ∧
            stderrOnly.redirect .stderr = true)) :=
  wired_iff (executes_fine stderrOnly)

/-- A parent without standard descriptors gets a child without `stderr`: the pipe has the numbers 2
and 3, and the child closes what the parent has at 2. -/
theorem not_wired_detached : Executes stderrOnly .fine .fine ∧ ∃ k f t,
    prepare stderrOnly .fine ⟨[], 0⟩ = (k, .ok f) ∧ f.parent .stderr = some 2 ∧
      atExecve stderrOnly .fine k f = some t ∧ t.lookup 2 = none ∧
        ¬ Wired stderrOnly ⟨[], 0⟩ k f t := by
  refine ⟨executes_fine stderrOnly, _, _, _, rfl, rfl, rfl, rfl, fun hwired => ?_⟩
  obtain ⟨a, id, -, -, hend⟩ := hwired.redirected .stderr rfl
  cases hend

end Yaooi
