import LightCache.Cache.Workers

/-!
# Hand-over after a failure

When the worker of a key fails or is dropped, its destructor takes it off the entry and wakes
everybody that waits, and the first call that is polled then becomes the worker.

The invariant behind this (`HandsOver`) says that there is a worker in the entry as long as a
call waits that was not woken, and that a joined call is listed in the entry while nothing is
stored, so that it never waits unregistered.

Main result: `failure_handover`.
-/

namespace LightCache

variable {K V E ι : Type} [DecidableEq K] [DecidableEq ι]

/-- `init` was called, or never will be. -/
def Phase.called : Phase V E → Bool
  | .unpolled | .waiting _ | .claimed _ | .calling => false
  | _ => true

/-- What the call's own future gave, until the call returns something else. -/
def Phase.outcome : Phase V E → Option (Except E V)
  | .ready out => some out
  | .polled _ out => out
  | .finished _ (.returned (.error err)) => some (.error err)
  | _ => none

/-- The call has called `init` once at most, and not yet if that is still to come. -/
def Call.Once (c : Call V E) : Prop :=
  c.inits = 0 ∨ c.inits = 1 ∧ c.phase.called = true

namespace KeyView

variable {kinds : ι → Kind} {waker : ι → Waker} {t t' : KeyView V E ι} {a : Label V E ι}
variable {i : ι} {c c' : Call V E} {n n' : Wakers} {out : Except E V}

/-! ## What becomes of one call -/

section Local

variable {kind : Kind} {value : Option V} {entry : Option Wakers}

omit [DecidableEq ι] in
theorem Ends.called {p : Phase V E} {armed : Bool} (h : Ends i p a out armed) :
    p.called = true := by
  cases h <;> rfl

omit [DecidableEq ι] in
theorem Ends.outcome {p : Phase V E} {armed : Bool} (h : Ends i p a out armed) :
    p.outcome = some out := by
  cases h <;> rfl

omit [DecidableEq ι] in
theorem Local.once (h : Local kind i value entry c a c') (hc : c.Once) : c'.Once := by
  have hzero (hp : c.phase.called = false) : c.inits = 0 := by
    rcases hc with hc | ⟨-, hcalled⟩
    · exact hc
    · rw [hp] at hcalled
      cases hcalled
  cases h with
  | init hp | initPanic hp | raceInit hp | raceInitPanic hp =>
    exact Or.inr ⟨by simp [hzero (by rw [hp]; rfl)], rfl⟩
  | miss hp => exact Or.inl (hzero (by rw [hp]; rfl))
  | pending => exact hc
  | _ => exact hc.imp id fun hc => ⟨hc.1, rfl⟩

omit [DecidableEq ι] in
theorem Local.outcome (h : Local kind i value entry c a c') (hc : c'.phase.outcome = some out) :
    c.phase.outcome = some out ∨ a = .poll i (.ready out) := by
  cases h with
  | miss => revert hc; cases kind.race <;> simp [Phase.outcome]
  | pending => exact Or.inl hc
  | ready | raceReady =>
    obtain rfl := Option.some.inj hc
    exact Or.inr rfl
  | failed hends =>
    rw [hends.outcome]
    exact Or.inl hc
  | _ => cases hc

omit [DecidableEq ι] in
/-- A call only fails when its own future did, and nothing is stored. -/
theorem Local.failed_of (h : Local kind i value entry c a c') {armed : Bool} {err : E}
    (hc : c'.phase = .finished armed (.returned (.error err))) (hne : c.phase ≠ c'.phase) :
    value = none ∧ c.phase.outcome = some (.error err) := by
  cases h with
  | miss => revert hc; cases kind.race <;> simp
  | pending => exact absurd rfl hne
  | failed hends hv =>
    simp only [Phase.finished.injEq, Completion.returned.injEq, Except.error.injEq] at hc
    rw [← hc.2]
    exact ⟨hv, hends.outcome⟩
  | _ => simp at hc

end Local

/-- A step leaves a call where it is, is a step of the call alone, or moves it on without a
failure. -/
theorem Step.call_cases (hstep : Step kinds t a t') (j : ι) :
    ((t'.calls j).phase = (t.calls j).phase ∧ (t'.calls j).inits = (t.calls j).inits) ∨
    Local (kinds j) j t.value t.entry (t.calls j) a (t'.calls j) ∨
    ((t.calls j).phase.called = true → (t'.calls j).phase.called = true) ∧
      (t'.calls j).phase.outcome = none ∧ (t'.calls j).inits = (t.calls j).inits := by
  have hother {i : ι} (c : Call V E) (hji : j ≠ i) :
      ((t.setCall i c).calls j).phase = (t.calls j).phase ∧
        ((t.setCall i c).calls j).inits = (t.calls j).inits := by
    rw [setCall_calls_of_ne hji]
    exact ⟨rfl, rfl⟩
  have hmoved {i : ι} (c : Call V E)
      (hcalled : (t.calls i).phase.called = true → c.phase.called = true)
      (hout : c.phase.outcome = none) (hinits : c.inits = (t.calls i).inits) (hji : j = i) :
      ((t.calls j).phase.called = true → ((t.setCall i c).calls j).phase.called = true) ∧
        ((t.setCall i c).calls j).phase.outcome = none ∧
        ((t.setCall i c).calls j).inits = (t.calls j).inits := by
    subst hji
    rw [setCall_calls_self]
    exact ⟨hcalled, hout, hinits⟩
  cases hstep with
  | @quiet i _ c hl =>
    rcases eq_or_ne j i with rfl | hji
    · rw [setCall_calls_self]
      exact Or.inr (Or.inl hl)
    · exact Or.inl (hother c hji)
  | @park i _ _ _ hc | @claim i _ _ _ hc | @make i _ _ hc =>
    by_cases hji : j = i
    · exact Or.inr (Or.inr (hmoved _ (by rw [hc]; exact fun h => by cases h) (by rfl) (by rfl) hji))
    · exact Or.inl (hother _ hji)
  | @raceJoin i | @raceMake i | @store i | @storeBare i | @leave i =>
    by_cases hji : j = i
    · exact Or.inr (Or.inr (hmoved (i := i) _ (fun _ => by rfl) (by rfl) (by rfl) hji))
    · exact Or.inl (hother (i := i) _ hji)
  | remove | insert => exact Or.inl ⟨rfl, rfl⟩

theorem Step.once (hstep : Step kinds t a t') (h : ∀ i, (t.calls i).Once) (j : ι) :
    (t'.calls j).Once := by
  rcases hstep.call_cases j with ⟨hphase, hinits⟩ | hl | ⟨hcalled, -, hinits⟩
  · rw [Call.Once, hphase, hinits]
    exact h j
  · exact hl.once (h j)
  · rw [Call.Once, hinits]
    exact (h j).imp id fun hj => ⟨hj.1, hcalled hj.2⟩

theorem Step.outcome (hstep : Step kinds t a t') (j : ι)
    (hj : (t'.calls j).phase.outcome = some out) :
    (t.calls j).phase.outcome = some out ∨ a = .poll j (.ready out) := by
  rcases hstep.call_cases j with ⟨hphase, -⟩ | hl | ⟨-, hnone, -⟩
  · exact Or.inl (hphase ▸ hj)
  · exact hl.outcome hj
  · rw [hnone] at hj
    cases hj

theorem Step.failed_of (hstep : Step kinds t a t') {j : ι} {armed : Bool} {err : E}
    (hj : (t'.calls j).phase = .finished armed (.returned (.error err)))
    (hne : (t.calls j).phase ≠ (t'.calls j).phase) :
    t.value = none ∧ (t.calls j).phase.outcome = some (.error err) := by
  rcases hstep.call_cases j with ⟨hphase, -⟩ | hl | ⟨-, hnone, -⟩
  · exact absurd hphase.symm hne
  · exact hl.failed_of hj hne
  · rw [hj] at hnone
    cases hnone

/-! ## The invariant -/

/-- Nothing is lost: what the claims of `failure_handover` need of a state. -/
structure HandsOver (waker : ι → Waker) (t : KeyView V E ι) : Prop where
  accounted : t.Accounted
  registered : t.Registered waker
  agree : t.Agree
  once : ∀ i, (t.calls i).Once
  manned : ∀ i w, (t.calls i).parked = some w → (t.calls i).woken = false →
    ∃ n, t.entry = some n ∧ 0 < n.workers
  enlisted : ∀ i, (t.calls i).phase = .waiting true → t.value = none →
    ∃ n, t.entry = some n ∧ waker i ∈ n.wakers

omit [DecidableEq ι] in
/-- A joined call is listed in the entry, whichever it joined. -/
theorem HandsOver.freshJoin (h : t.HandsOver waker) (huses : a.Uses waker) :
    t.freshJoin a = true := by
  cases a with
  | wait i w =>
    obtain rfl : w = waker i := huses
    simp only [KeyView.freshJoin]
    split
    · rename_i n hp hv hn
      obtain ⟨m, hm, hmem⟩ := h.enlisted i hp hv
      obtain rfl := Option.some.inj (hn.symm.trans hm)
      simp [hmem]
    · rfl
  | _ => rfl

omit [DecidableEq ι] in
theorem unwoken_of_wake {ws : List Waker} {w : Waker} (hp : ((t.wake ws).calls i).parked = some w)
    (hw : ((t.wake ws).calls i).woken = false) : (t.calls i).woken = false ∧ w ∉ ws := by
  have hp' : (t.calls i).parked = some w := hp
  simpa [KeyView.wake, Call.wake, hp'] using hw

theorem HandsOver.manned_step (h : t.HandsOver waker) (hfits : t.Fits kinds)
    (hcoop : ∀ i, (kinds i).race = false) (hstep : Step kinds t a t') (ha : a.direct = false)
    (huses : a.Uses waker) (j : ι) (w : Waker) (hp : (t'.calls j).parked = some w)
    (hw : (t'.calls j).woken = false) : ∃ n, t'.entry = some n ∧ 0 < n.workers := by
  have hreg := h.registered.step hstep huses (h.freshJoin huses)
  cases hstep with
  | @quiet i _ c hl =>
    rcases eq_or_ne j i with rfl | hji
    · rw [setCall_calls_self, hl.parked_none (h.registered.listed j).parked] at hp
      cases hp
    · rw [setCall_calls_of_ne hji] at hp hw
      exact h.manned j w hp hw
  | @park _ _ joined _ _ _ _ hpos => exact ⟨_, rfl, by cases joined <;> exact hpos⟩
  | claim => exact ⟨_, rfl, Nat.succ_pos _⟩
  | make => exact ⟨_, rfl, Nat.one_pos⟩
  | raceJoin hc | raceMake hc => exact absurd hc (hfits.not_polled (hcoop _))
  | store =>
    obtain ⟨m, hm, -⟩ := (hreg.listed j).listed w hp hw
    cases hm
  | @storeBare i _ v _ hends hv hn =>
    obtain ⟨-, hready, rfl⟩ := hfits.ready (hcoop i) hends
    exact absurd hn (h.accounted.works i (by rw [hready]; rfl)).1
  | leave =>
    obtain ⟨m, hm, hmem⟩ := (hreg.listed j).listed w hp hw
    obtain rfl := Option.some.inj hm
    exact absurd hmem (unwoken_of_wake hp hw).2
  | remove | insert => cases ha

theorem HandsOver.enlisted_step (h : t.HandsOver waker) (hfits : t.Fits kinds)
    (hcoop : ∀ i, (kinds i).race = false) (hstep : Step kinds t a t') (ha : a.direct = false)
    (huses : a.Uses waker) (j : ι) (hp : (t'.calls j).phase = .waiting true)
    (hv : t'.value = none) :
    ∃ n, t'.entry = some n ∧ waker j ∈ n.wakers := by
  have hgrow {n n' : Wakers} {c : Call V E} {i : ι} (hn : t.entry = some n)
      (hsub : n.wakers ⊆ n'.wakers) (hj : ((t.setCall i c).calls j).phase = .waiting true)
      (hji : j ≠ i) (hv : t.value = none) : ∃ m, some n' = some m ∧ waker j ∈ m.wakers := by
    rw [setCall_calls_of_ne hji] at hj
    obtain ⟨m, hm, hmem⟩ := h.enlisted j hj hv
    obtain rfl := Option.some.inj (hn.symm.trans hm)
    exact ⟨n', rfl, hsub hmem⟩
  cases hstep with
  | @quiet i _ c hl =>
    rcases eq_or_ne j i with rfl | hji
    · rw [setCall_calls_self] at hp
      exact absurd hp hl.not_joined
    · rw [setCall_calls_of_ne hji] at hp
      exact h.enlisted j hp hv
  | @park i w joined n hc hv' hn hw =>
    rcases eq_or_ne j i with rfl | hji
    · obtain rfl : w = waker j := huses
      refine ⟨_, rfl, ?_⟩
      cases joined with
      | false => simp
      | true =>
        obtain ⟨m, hm, hmem⟩ := h.enlisted j hc hv'
        obtain rfl := Option.some.inj (hn.symm.trans hm)
        exact hmem
    · exact hgrow hn (by cases joined <;> simp) hp hji hv'
  | @claim i w joined n hc hv' hn hw =>
    rcases eq_or_ne j i with rfl | hji
    · rw [setEntry_calls, setCall_calls_self] at hp
      cases hp
    · exact hgrow hn (by cases joined <;> simp) hp hji hv'
  | @make i w joined hc hv' hn =>
    rcases eq_or_ne j i with rfl | hji
    · rw [openEntry_calls, setCall_calls_self] at hp
      cases hp
    · rw [openEntry_calls, setCall_calls_of_ne hji] at hp
      obtain ⟨m, hm, -⟩ := h.enlisted j hp hv'
      rw [hn] at hm
      cases hm
  | raceJoin hc | raceMake hc => exact absurd hc (hfits.not_polled (hcoop _))
  | store | storeBare => cases hv
  | @leave i n hc hn =>
    rcases eq_or_ne j i with rfl | hji
    · change ((t.setCall j _).calls j).phase = .waiting true at hp
      rw [setCall_calls_self] at hp
      cases hp
    · exact hgrow hn (by simp) hp hji hv
  | remove | insert => cases ha

theorem HandsOver.step (h : t.HandsOver waker) (hfits : t.Fits kinds)
    (hcoop : ∀ i, (kinds i).race = false) (hstep : Step kinds t a t') (ha : a.direct = false)
    (huses : a.Uses waker) (hok : t.initReturns a = true) : t'.HandsOver waker where
  accounted := h.accounted.step hfits hcoop hstep ha hok
  registered := h.registered.step hstep huses (h.freshJoin huses)
  agree := h.agree.step hstep ha
  once := hstep.once h.once
  manned := h.manned_step hfits hcoop hstep ha huses
  enlisted := h.enlisted_step hfits hcoop hstep ha huses

omit [DecidableEq ι] in
/-- A call that waits and was not woken waits for another call. -/
theorem HandsOver.exists_worker (h : t.HandsOver waker) {w : Waker}
    (hp : (t.calls i).parked = some w) (hw : (t.calls i).woken = false) :
    ∃ j, j ≠ i ∧ t.Holds j ∧ ∃ n, t.entry = some n ∧ 0 < n.workers := by
  obtain ⟨n, hn, hpos⟩ := h.manned i w hp hw
  obtain ⟨j, hj⟩ := (h.accounted.held n hn).2 hpos
  refine ⟨j, ?_, hj, n, hn, hpos⟩
  rintro rfl
  have hholds := hj.1
  rw [(h.registered.listed j).parked w hp] at hholds
  cases hholds

/-- The value that a completing call has. -/
def yields (t : KeyView V E ι) : Label V E ι → Option V
  | .complete i =>
    match (t.calls i).phase with
    | .ready (.ok v) => some v
    | _ => none
  | _ => none

theorem Step.value_none (hstep : Step kinds t a t') (hfits : t.Fits kinds)
    (hcoop : ∀ i, (kinds i).race = false) (ha : a.direct = false) (hyields : t.yields a = none)
    (hv : t.value = none) : t'.value = none := by
  cases hstep with
  | @store i _ _ _ _ hends | @storeBare i _ _ _ hends =>
    obtain ⟨rfl, hp, -⟩ := hfits.ready (hcoop i) hends
    simp [yields, hp] at hyields
  | remove | insert => cases ha
  | _ => exact hv

theorem Step.works_of_init {returns : Bool} (hstep : Step kinds t (.init i returns) t')
    (hfits : t.Fits kinds) (hcoop : (kinds i).race = false) : (t.calls i).phase.works = true := by
  have hends {j : ι} {p : Phase V E} {out : Except E V} {armed : Bool}
      (h : Ends j p (.init i returns) out armed) : False := by
    rcases ends_iff.mp h with ⟨ha, -⟩ | ⟨w, ha, -⟩ <;> cases ha
  cases hstep with
  | quiet hl =>
    cases hl with
    | init hp | initPanic hp => rw [hp]; rfl
    | raceInit hp | raceInitPanic hp =>
      have hi := hfits i
      simp [hp, Phase.fits, hcoop] at hi
    | gotReady h | failed h => exact (hends h).elim
  | store h | storeBare h => exact (hends h).elim

end KeyView

/-! ## Runs -/

namespace State

variable {kinds : ι → Kind} {waker : ι → Waker} {key : K} {s s' t : State K V E ι} {i : ι}
variable {as : List (Label V E ι)} {n : ℕ+} {hasher : K → UInt64}

open KeyView

omit [DecidableEq ι] in
theorem handsOver_init (n : ℕ+) (hasher : K → UInt64) (waker : ι → Waker) :
    ((State.init n hasher : State K V E ι).view key).HandsOver waker where
  accounted := accounted_init n hasher
  registered := registered_init n hasher waker
  agree _ _ _ hc := by cases hc
  once _ := Or.inl rfl
  manned _ _ hc := by cases hc
  enlisted _ hc := by cases hc

omit [DecidableEq ι] in
theorem initReturns_of_ne {t : KeyView V E ι} {a : Label V E ι} (h : ∀ i, a ≠ .init i false) :
    t.initReturns a = true := by
  cases a with
  | init i returns =>
    cases returns with
    | true => rfl
    | false => exact absurd rfl (h i)
  | _ => rfl

theorem handsOver_run (hcoop : ∀ i, (kinds i).race = false) (huses : ∀ a ∈ as, a.Uses waker)
    (hdirect : ∀ a ∈ as, a.direct = false) (hinit : ∀ i, .init i false ∉ as)
    (hs : Trace.run (State.step kinds key) (State.init n hasher) as = some s) :
    (s.view key).Fits kinds ∧ (s.view key).HandsOver waker := by
  have henv : ∀ a ∈ as, a.Uses waker ∧ a.direct = false ∧ ∀ i, a ≠ .init i false := fun a ha =>
    ⟨huses a ha, hdirect a ha, fun i hi => hinit i (hi ▸ ha)⟩
  exact Trace.inv_of_each
    (P := fun s : State K V E ι => (s.view key).Fits kinds ∧ (s.view key).HandsOver waker)
    (fun _ _ _ h ha hstep => ⟨h.1.step (step_view hstep),
      h.2.step h.1 hcoop (step_view hstep) ha.2.1 ha.1 (initReturns_of_ne ha.2.2)⟩)
    ⟨fits_init kinds n hasher, handsOver_init n hasher waker⟩ (Trace.each_of_forall henv) hs

theorem polled_of_outcome (hs : Trace.run (State.step kinds key) (State.init n hasher) as = some s)
    {out : Except E V} (hout : (s.calls i).phase.outcome = some out) :
    .poll i (.ready out) ∈ as := by
  refine Trace.history (H := fun as (s : State K V E ι) => ∀ i out,
    (s.calls i).phase.outcome = some out → .poll i (.ready out) ∈ as) ?_ ?_ hs i out hout
  · intro j out hj
    cases hj
  · intro as s a s' h hstep j out hj
    rcases (step_view hstep).outcome j hj with hj | rfl
    · exact List.mem_append_left _ (h j out hj)
    · exact List.mem_append_right _ List.mem_cons_self

theorem value_none_run (hcoop : ∀ i, (kinds i).race = false)
    (hdirect : ∀ a ∈ as, a.direct = false)
    (hs : Trace.run (State.step kinds key) (State.init n hasher) as = some s)
    (hyields : Trace.Each (State.step kinds key) (fun s a => (s.view key).yields a = none)
      (State.init n hasher) as) : s.map.get key = none :=
  (Trace.inv_of_each
    (P := fun s : State K V E ι => (s.view key).Fits kinds ∧ (s.view key).value = none)
    (fun _ _ _ h ha hstep => ⟨h.1.step (step_view hstep),
      (step_view hstep).value_none h.1 hcoop ha.1 ha.2 h.2⟩)
    ⟨fits_init kinds n hasher, LightMap.get_empty key n hasher⟩
    ((Trace.each_of_forall hdirect).and hyields) hs).2

end State

/-- **Failure hand-over.** In a run of cooperative calls whose `init` does not panic, each polled
with a waker of its own: a call invokes `init` once at most, and while nothing is stored; a
call that fails has the error of its own future, and nothing is stored then; the first call
with a value that completes stores it, and all others return it; and as long as nothing is
stored, a call that waits and was not woken waits for a worker. -/
theorem failure_handover (kinds : ι → Kind) (key : K) (hcoop : ∀ i, (kinds i).race = false)
    (waker : ι → Waker) (n : ℕ+) (hasher : K → UInt64) (as : List (Label V E ι))
    (huses : ∀ a ∈ as, a.Uses waker) (hdirect : ∀ a ∈ as, a.direct = false)
    (hinit : ∀ i, .init i false ∉ as) (s : State K V E ι)
    (hs : Trace.run (State.step kinds key) (State.init n hasher) as = some s) :
    ((∀ i, (s.calls i).inits ≤ 1) ∧
      ∀ i returns s', s.step kinds key (.init i returns) = some s' → s.map.get key = none) ∧
    (∀ a s' i armed err, s.step kinds key a = some s' →
      (s.calls i).phase ≠ (s'.calls i).phase →
      (s'.calls i).phase = .finished armed (.returned (.error err)) →
      .poll i (.ready (.error err)) ∈ as ∧ s.map.get key = none) ∧
    (∀ i v, (s.calls i).phase = .ready (.ok v) →
      Trace.Each (State.step kinds key) (fun s a => (s.view key).yields a = none)
        (State.init n hasher) as →
      ∃ s', s.step kinds key (.complete i) = some s' ∧ s'.map.get key = some v ∧
        (s'.calls i).phase = .finished true (.returned (.ok v)) ∧
        ∀ bs t, (∀ b ∈ bs, b.direct = false) → Trace.run (State.step kinds key) s' bs = some t →
          t.map.get key = some v ∧
          ∀ j armed u, (t.calls j).phase = .finished armed (.returned (.ok u)) → u = v) ∧
    (s.map.get key = none → ∀ i w, (s.calls i).parked = some w → (s.calls i).woken = false →
      ∃ j, j ≠ i ∧ (s.view key).Holds j ∧
        ∃ node, s.map.waiters key = some node ∧ 0 < node.workers) := by
  obtain ⟨hfits, hover⟩ := State.handsOver_run hcoop huses hdirect hinit hs
  refine ⟨⟨?_, ?_⟩, ?_,
    ?_, fun _ i w hp hw => hover.exists_worker hp hw⟩
  · intro i
    rcases hover.once i with hzero | ⟨hone, -⟩
    · exact hzero.trans_le (Nat.zero_le 1)
    · exact hone.le
  · intro i returns s' hstep
    have hworks := (State.step_view hstep).works_of_init hfits (hcoop i)
    exact hover.accounted.stored (hover.accounted.works i hworks).1
  · intro a s' i armed err hstep hne hp
    obtain ⟨hv, hout⟩ := (State.step_view hstep).failed_of hp hne
    exact ⟨State.polled_of_outcome hs hout, hv⟩
  · intro i v hp hfirst
    -- Nothing is stored yet, and the worker's entry is there, so the poll stores `v`.
    have hv := State.value_none_run hcoop hdirect hs hfirst
    obtain ⟨s', hstep⟩ := State.exists_complete kinds key hp
    have hends : KeyView.Ends i ((s.view key).calls i).phase (.complete i) (.ok v) true := by
      rw [show ((s.view key).calls i).phase = .ready (.ok v) from hp]
      exact .complete _
    have hn : (s.view key).entry ≠ none := (hover.accounted.works i (by
      rw [show ((s.view key).calls i).phase = .ready (.ok v) from hp]
      rfl)).1
    obtain ⟨hv', -, hp'⟩ := (State.step_view hstep).stores hends hv
    rw [if_neg hn] at hp'
    refine ⟨s', hstep, hv', hp', ?_⟩
    -- From here on agreement does the rest.
    intro bs t hbs hrun
    have ht : t.map.get key = some v := State.value_run hbs hrun hv'
    refine ⟨ht, ?_⟩
    intro j armed u hj
    have hu : t.map.get key = some u := State.agree_run hbs hrun
      (hover.agree.step (State.step_view hstep) rfl) j armed u hj
    exact Option.some.inj (hu.symm.trans ht)

/-- Call 0 fails while call 1 waits for it; until its destructor runs, it still has the slot. -/
theorem failure_handover_before_drop :
    ∃ s : State ℕ ℕ ℕ (Fin 2),
      Trace.run (State.step (fun _ => .getOrTryInsert) 0) (State.init 1 fun _ => 0)
        [.start 0, .wait 0 0, .init 0 true, .start 1, .wait 1 1, .poll 0 (.ready (.error 3)),
          .complete 0] = some s ∧
      (s.calls 0).phase = .finished true (.returned (.error 3)) ∧
      (s.calls 1).parked = some 1 ∧ (s.calls 1).woken = false ∧
      ∃ j, j ≠ 1 ∧ (s.view 0).Holds j ∧ ∃ node, s.map.waiters 0 = some node ∧ 0 < node.workers :=
  ⟨_, rfl, rfl, rfl, rfl, (failure_handover (fun _ => .getOrTryInsert) 0 (fun _ => rfl)
    (fun i => i.val) 1 (fun _ => 0)
    [.start 0, .wait 0 0, .init 0 true, .start 1, .wait 1 1, .poll 0 (.ready (.error 3)),
      .complete 0] (by simp [Label.Uses]) (by decide) (by decide) _ rfl).2.2.2 rfl 1 1 rfl rfl⟩

end LightCache
