import Mathlib.Algebra.Order.BigOperators.Group.Finset
import Mathlib.Data.Fintype.Card
import Mathlib.Tactic.Ring
import LightCache.Cache.Handover
import LightCache.Cache.Leaks
import LightCache.Cache.Unreachable

/-!
# Every call returns

An executor polls a task that returned `Pending` only after it was woken. So a call that waits for
another one is polled again only after a hand-over, and a hand-over happens at most twice for each
call: when it stores its value, and when its destructor runs.

Main results: `run_length_le` bounds the steps of any run of such an executor, for all kinds of
calls and with direct operations between them. `calls_return` shows that cooperative calls are
never stuck: as long as one has not ended, a step of the executor is possible, and once none is,
every call that was not cancelled has returned.
-/

namespace LightCache

variable {K V E ι : Type} [DecidableEq K] [DecidableEq ι]

/-- How far a call is from its end. -/
def Phase.rank : Phase V E → ℕ
  | .unpolled => 6
  | .waiting _ | .calling => 5
  | .claimed _ | .polled _ none => 4
  | .working | .racing _ => 3
  | .ready _ | .polled _ (some _) => 2
  | .finished _ _ => 1
  | .dropped => 0

/-- The call does not wait, or its waker was invoked since it does. -/
def Call.scheduled (c : Call V E) : Bool := c.parked.isNone || c.woken

/-- What a step may cost the measure of a system of `n` calls. -/
def Label.cost (n : ℕ) : Label V E ι → ℕ
  | .poll _ .pending => n + 2
  | .remove | .insert _ => 1
  | _ => 0

namespace KeyView

/-- An executor takes the step: it polls a call that waits only after it was woken. -/
def scheduled (t : KeyView V E ι) : Label V E ι → Bool
  | .wait i _ => (t.calls i).scheduled
  | _ => true

section Measure

variable [Fintype ι] {kinds : ι → Kind} {t t' : KeyView V E ι} {a : Label V E ι} {i : ι}
variable {c c' : Call V E}

/-- The steps that are left to the calls, each worth more than all polls of woken calls. -/
def measure (t : KeyView V E ι) : ℕ :=
  (Fintype.card ι + 1) * ∑ i, (t.calls i).phase.rank +
    (Finset.univ.filter fun i => (t.calls i).scheduled = true).card

omit [DecidableEq ι] in
theorem card_scheduled_le (t : KeyView V E ι) :
    (Finset.univ.filter fun i => (t.calls i).scheduled = true).card ≤ Fintype.card ι :=
  Finset.card_le_univ _

omit [DecidableEq ι] in
/-- A call that comes closer to its end lowers the measure, whomever it wakes. -/
theorem measure_of_rank_lt (hother : ∀ j, j ≠ i → (t'.calls j).phase = (t.calls j).phase)
    (hlt : (t'.calls i).phase.rank < (t.calls i).phase.rank) :
    t'.measure + 1 ≤ t.measure := by
  have hsum : ∑ j, (t'.calls j).phase.rank < ∑ j, (t.calls j).phase.rank := by
    refine Finset.sum_lt_sum (fun j _ => ?_) ⟨i, Finset.mem_univ i, hlt⟩
    rcases eq_or_ne j i with rfl | hji
    · exact hlt.le
    · rw [hother j hji]
  have hmul := Nat.mul_le_mul_left (Fintype.card ι + 1) (Nat.succ_le_of_lt hsum)
  have hcard := card_scheduled_le t'
  rw [Nat.mul_succ] at hmul
  unfold measure
  omega

/-- So does a call that was woken and waits again. -/
theorem measure_of_parked (hother : ∀ j, j ≠ i → t'.calls j = t.calls j)
    (hrank : (t'.calls i).phase.rank = (t.calls i).phase.rank)
    (hi : (t.calls i).scheduled = true) (hi' : (t'.calls i).scheduled = false) :
    t'.measure + 1 ≤ t.measure := by
  have hsum : ∑ j, (t'.calls j).phase.rank = ∑ j, (t.calls j).phase.rank := by
    refine Finset.sum_congr rfl fun j _ => ?_
    rcases eq_or_ne j i with rfl | hji
    · exact hrank
    · rw [hother j hji]
  have herase : (Finset.univ.filter fun j => (t'.calls j).scheduled = true) =
      (Finset.univ.filter fun j => (t.calls j).scheduled = true).erase i := by
    ext j
    simp only [Finset.mem_filter, Finset.mem_univ, true_and, Finset.mem_erase]
    rcases eq_or_ne j i with rfl | hji
    · simp [hi']
    · simp [hother j hji, hji]
  have hcard : (Finset.univ.filter fun j => (t'.calls j).scheduled = true).card + 1 =
      (Finset.univ.filter fun j => (t.calls j).scheduled = true).card := by
    rw [herase]
    exact Finset.card_erase_add_one (by simpa using hi)
  unfold measure
  rw [hsum]
  omega

theorem measure_of_pending (hother : ∀ j, j ≠ i → t'.calls j = t.calls j)
    (hrank : (t'.calls i).phase.rank ≤ (t.calls i).phase.rank + 1)
    (hi : (t'.calls i).scheduled = (t.calls i).scheduled) :
    t'.measure ≤ t.measure + Fintype.card ι + 1 := by
  have hsum : ∑ j, (t'.calls j).phase.rank ≤ ∑ j, (t.calls j).phase.rank + 1 := by
    rw [← Finset.add_sum_erase _ _ (Finset.mem_univ i),
      ← Finset.add_sum_erase _ _ (Finset.mem_univ i)]
    have hrest : ∑ j ∈ Finset.univ.erase i, (t'.calls j).phase.rank =
        ∑ j ∈ Finset.univ.erase i, (t.calls j).phase.rank :=
      Finset.sum_congr rfl fun j hj => by rw [hother j (Finset.ne_of_mem_erase hj)]
    omega
  have hsame : (Finset.univ.filter fun j => (t'.calls j).scheduled = true) =
      Finset.univ.filter fun j => (t.calls j).scheduled = true := by
    refine Finset.filter_congr fun j _ => ?_
    rcases eq_or_ne j i with rfl | hji
    · rw [hi]
    · rw [hother j hji]
  have hmul := Nat.mul_le_mul_left (Fintype.card ι + 1) hsum
  rw [Nat.mul_succ] at hmul
  unfold measure
  rw [hsame]
  omega

omit [DecidableEq ι] [Fintype ι] in
theorem Ends.one_lt_rank {p : Phase V E} {out : Except E V} {armed : Bool}
    (h : Ends i p a out armed) : 1 < p.rank := by
  cases h <;> exact Nat.one_lt_two

omit [DecidableEq ι] [Fintype ι] in
theorem rank_pos_of_armed {p : Phase V E} (h : p.armed = true) : 0 < p.rank := by
  revert h
  cases p <;> simp [Phase.rank, Phase.armed]

omit [DecidableEq ι] [Fintype ι] in
theorem Local.rank_lt {kind : Kind} {value : Option V} {entry : Option Wakers}
    (h : Local kind i value entry c a c') (ha : a ≠ .poll i .pending) :
    c'.phase.rank < c.phase.rank := by
  cases h with
  | miss hp => cases kind.race <;> simp [Phase.rank, hp]
  | pending | racePending => exact absurd rfl ha
  | gotReady hends | failed hends => exact hends.one_lt_rank
  | drop hp => revert hp; cases c.phase <;> simp [Phase.rank, Phase.disarmed]
  | dropBare hp => exact rank_pos_of_armed hp
  | _ => simp_all [Phase.rank]

omit [Fintype ι] in
theorem setCall_phase_of_ne {j : ι} (h : j ≠ i) :
    ((t.setCall i c).calls j).phase = (t.calls j).phase := by
  rw [setCall_calls_of_ne h]

/-- A step lowers the measure, up to what it costs. -/
theorem Step.measure_le (hstep : Step kinds t a t') (hsched : t.scheduled a = true) :
    t'.measure + 1 ≤ t.measure + a.cost (Fintype.card ι) := by
  -- All but a poll that gives `Pending` and the section of a call that waits.
  have hmoved {t' : KeyView V E ι} {i : ι} (hother : ∀ j, j ≠ i →
      (t'.calls j).phase = (t.calls j).phase)
      (hlt : (t'.calls i).phase.rank < (t.calls i).phase.rank) :
      t'.measure + 1 ≤ t.measure + a.cost (Fintype.card ι) :=
    (measure_of_rank_lt hother hlt).trans (Nat.le_add_right _ _)
  cases hstep with
  | @quiet i _ c hl =>
    by_cases ha : a = .poll i .pending
    · subst ha
      have hle : (t.setCall i c).measure ≤ t.measure + Fintype.card ι + 1 := by
        refine measure_of_pending (fun j hji => setCall_calls_of_ne hji) ?_ ?_ <;>
          rw [setCall_calls_self]
        · cases hl with
          | pending => exact Nat.le_succ _
          | racePending hp => rw [hp]; exact le_rfl
          | gotReady hends | failed hends =>
            obtain ⟨ha, -⟩ | ⟨w, ha, -⟩ := ends_iff.mp hends <;> cases ha
        · cases hl with
          | pending | racePending => rfl
          | gotReady hends | failed hends =>
            obtain ⟨ha, -⟩ | ⟨w, ha, -⟩ := ends_iff.mp hends <;> cases ha
      simp only [Label.cost]
      omega
    · exact hmoved (fun j hji => setCall_phase_of_ne hji) (by
        rw [setCall_calls_self]
        exact hl.rank_lt ha)
  -- Its waker was invoked, so that what the poll adds was paid for.
  | @park i _ _ n hp =>
    refine (measure_of_parked (i := i) (fun j hji => setCall_calls_of_ne hji) ?_ hsched ?_).trans
      (Nat.le_add_right _ _)
    · rw [setCall_calls_self, hp]
      rfl
    · rw [setCall_calls_self]
      rfl
  | claim hp | make hp | raceJoin hp | raceMake hp =>
    refine hmoved (fun j hji => setCall_phase_of_ne hji) ?_
    simp [hp, Phase.rank]
  | @store i _ _ armed _ hends | @storeBare i _ _ armed hends =>
    refine hmoved (i := i) (fun j hji => setCall_phase_of_ne hji) ?_
    show ((t.setCall i _).calls i).phase.rank < _
    rw [setCall_calls_self]
    exact hends.one_lt_rank
  | @leave i _ hp =>
    refine hmoved (i := i) (fun j hji => setCall_phase_of_ne hji) ?_
    show ((t.setCall i _).calls i).phase.rank < _
    rw [setCall_calls_self]
    exact rank_pos_of_armed hp
  | remove | insert => exact le_rfl

end Measure

section Dropped

variable {kinds : ι → Kind} {t t' : KeyView V E ι} {a : Label V E ι} {j : ι}

theorem Step.dropped (hstep : Step kinds t a t') (hj : (t.calls j).phase ≠ .dropped)
    (hj' : (t'.calls j).phase = .dropped) (hinit : a ≠ .init j false) : a = .drop j := by
  have hself {i : ι} {c : Call V E} (h : ((t.setCall i c).calls j).phase = .dropped) :
      j = i ∧ c.phase = .dropped := by
    rcases eq_or_ne j i with rfl | hji
    · rw [setCall_calls_self] at h
      exact ⟨rfl, h⟩
    · rw [setCall_calls_of_ne hji] at h
      exact absurd h hj
  cases hstep with
  | quiet hl =>
    obtain ⟨rfl, hc⟩ := hself hj'
    cases hl with
    | drop | dropBare => rfl
    | initPanic | raceInitPanic => exact absurd rfl hinit
    | miss => revert hc; cases (kinds j).race <;> simp
    | pending => exact absurd hc hj
    | _ => cases hc
  | leave =>
    obtain ⟨rfl, -⟩ := hself hj'
    rfl
  | remove | insert => exact absurd hj' hj
  | _ => cases (hself hj').2

theorem Step.bare (hstep : Step kinds t a t') (ha : a.direct = false) (hb : t.bare = false) :
    t'.bare = false := by
  cases hstep with
  | quiet => exact hb
  | remove | insert => cases ha
  | _ => rfl

omit [DecidableEq ι] in
theorem notBare_of_bare (hb : t.bare = false) : t.notBare a = true := by
  cases a with
  | complete i =>
    simp only [notBare, hb]
    split <;> rfl
  | _ => rfl

end Dropped

end KeyView

/-! ## Runs -/

namespace State

variable {kinds : ι → Kind} {waker : ι → Waker} {key : K} {s s' t : State K V E ι} {i : ι}
variable {as : List (Label V E ι)} {n : ℕ+} {hasher : K → UInt64}

/-- An executor takes the step by itself: it polls a call only when this was scheduled, and drops
it only when it has ended; `init` returns, and no future is pending. -/
def Proceeds (waker : ι → Waker) (s : State K V E ι) : Label V E ι → Prop
  | .start _ | .complete _ => True
  | .wait i w => w = waker i ∧ (s.calls i).scheduled = true
  | .init _ returns => returns = true
  | .poll _ r => r ≠ .pending
  | .race i w => w = waker i
  | .drop i => ∃ armed completion, (s.calls i).phase = .finished armed completion
  | .remove | .insert _ => False

/-- A call that has not ended, and does not wait for another one, can take a step. -/
theorem exists_proceeds_of_scheduled (waker : ι → Waker) (hfits : (s.view key).Fits kinds)
    (hcoop : (kinds i).race = false) (hi : (s.calls i).phase ≠ .dropped)
    (hwait : ∀ joined, (s.calls i).phase = .waiting joined → (s.calls i).scheduled = true) :
    ∃ a s', s.Proceeds waker a ∧ s.step kinds key a = some s' := by
  have hphase := hfits i
  rw [show ((s.view key).calls i).phase = (s.calls i).phase from rfl] at hphase
  cases hp : (s.calls i).phase with
  | unpolled =>
    cases hv : s.map.get key <;>
      exact ⟨.start i, _, trivial, by simp only [step, start, hp, hv]; rfl⟩
  | waiting joined =>
    obtain ⟨s', hs'⟩ := exists_wait kinds key hp (waker i)
    exact ⟨.wait i (waker i), s', ⟨rfl, hwait joined hp⟩, hs'⟩
  | claimed joined => exact ⟨.init i true, _, rfl, by simp only [step, callInit, hp]; rfl⟩
  | working =>
    exact ⟨.poll i .panicked, _, by simp [Proceeds], by
      simp only [step, pollFut, hp]
      rfl⟩
  | ready out =>
    obtain ⟨s', hs'⟩ := exists_complete kinds key hp
    exact ⟨.complete i, s', trivial, hs'⟩
  | finished armed completion =>
    obtain ⟨s', hs'⟩ := exists_drop kinds key (s := s) (i := i)
      (by rw [hp]; cases armed <;> simp [Phase.disarmed, Phase.armed])
    exact ⟨.drop i, s', ⟨armed, completion, hp⟩, hs'⟩
  | dropped => exact absurd hp hi
  | calling | racing joined => simp [hp, Phase.fits, hcoop] at hphase
  | polled joined out => cases out <;> simp [hp, Phase.fits, hcoop] at hphase

/-- As long as a call has not ended, some call can take a step. -/
theorem exists_proceeds (hfits : (s.view key).Fits kinds) (hcoop : ∀ i, (kinds i).race = false)
    (h : (s.view key).HandsOver waker) (hi : (s.calls i).phase ≠ .dropped) :
    ∃ a s', s.Proceeds waker a ∧ s.step kinds key a = some s' := by
  by_cases hsched : (s.calls i).scheduled = true
  · exact exists_proceeds_of_scheduled waker hfits (hcoop i) hi fun _ _ => hsched
  · -- The call waits for the worker, who does not wait.
    obtain ⟨hparked, hwoken⟩ : (s.calls i).parked ≠ none ∧ (s.calls i).woken = false := by
      simpa [Call.scheduled] using hsched
    obtain ⟨w, hw⟩ := Option.ne_none_iff_exists'.mp hparked
    obtain ⟨j, -, hj, -⟩ := h.exists_worker hw hwoken
    have hholds : (s.calls j).phase.holds = true := hj.1
    refine exists_proceeds_of_scheduled waker hfits (hcoop j) ?_ fun joined hp => ?_
    · intro hp
      rw [hp] at hholds
      cases hholds
    · rw [hp] at hholds
      cases hholds

theorem exists_drop_of_dropped (hinit : ∀ i, .init i false ∉ as)
    (hs : Trace.run (State.step kinds key) (State.init n hasher) as = some s)
    (hi : (s.calls i).phase = .dropped) :
    ∃ as₁ as₂ s₁, as = as₁ ++ .drop i :: as₂ ∧
      Trace.run (State.step kinds key) (State.init n hasher) as₁ = some s₁ := by
  have hhistory := Trace.history (H := fun as (s : State K V E ι) =>
    Trace.run (State.step kinds key) (State.init n hasher) as = some s ∧
      ((∀ i, .init i false ∉ as) → (s.calls i).phase = .dropped →
        ∃ as₁ as₂ s₁, as = as₁ ++ .drop i :: as₂ ∧
          Trace.run (State.step kinds key) (State.init n hasher) as₁ = some s₁))
    ⟨rfl, fun _ hp => by cases hp⟩ ?_ hs
  · exact hhistory.2 hinit hi
  · intro as s a s' h hstep
    refine ⟨?_, fun hinit hp => ?_⟩
    · rw [Trace.run_append, h.1]
      exact Trace.run_cons_eq_some.mpr ⟨s', hstep, rfl⟩
    · by_cases hbefore : (s.calls i).phase = .dropped
      · obtain ⟨as₁, as₂, s₁, rfl, hrun⟩ :=
          h.2 (fun j hj => hinit j (List.mem_append_left _ hj)) hbefore
        exact ⟨as₁, as₂ ++ [a], s₁, by simp, hrun⟩
      · obtain rfl := (step_view hstep).dropped hbefore hp
          fun ha => hinit i (ha ▸ List.mem_append_right _ List.mem_cons_self)
        exact ⟨as, [], s, rfl, h.1⟩

theorem reachable_run (hcoop : (kinds i).race = false) (hdirect : ∀ a ∈ as, a.direct = false)
    (hs : Trace.run (State.step kinds key) (State.init n hasher) as = some s) (armed : Bool) :
    (s.calls i).phase ≠ .finished armed .unreachable := by
  have henv : Trace.Each (State.step kinds key) (fun _ a => a.direct = false)
      (State.init n hasher) as := Trace.each_of_forall hdirect
  have hcovered := Trace.inv_of_each
    (P := fun s : State K V E ι => (s.view key).Covered kinds ∧ (s.view key).bare = false)
    (fun _ _ _ h ha hstep => ⟨h.1.step (step_view hstep) (KeyView.notBare_of_bare h.2),
      (step_view hstep).bare ha h.2⟩)
    ⟨covered_init kinds n hasher, rfl⟩ henv hs
  exact hcovered.1.reachable i armed hcoop

omit [DecidableEq ι] in
/-- A step of an executor is one of a run that the invariants allow. -/
theorem Proceeds.allowed {a : Label V E ι} (h : s.Proceeds waker a) (key : K) :
    a.Uses waker ∧ a.direct = false ∧ (∀ i, a ≠ .init i false) ∧
      (s.view key).scheduled a = true ∧ ∀ n, a.cost n = 0 := by
  cases a with
  | wait i w => exact ⟨h.1, rfl, fun _ => by simp, h.2, fun _ => rfl⟩
  | init i returns =>
    obtain rfl : returns = true := h
    exact ⟨trivial, rfl, fun _ => by simp, rfl, fun _ => rfl⟩
  | poll i r =>
    have hr : r ≠ .pending := h
    exact ⟨trivial, rfl, fun _ => by simp, rfl, fun _ => by cases r <;> simp_all [Label.cost]⟩
  | race i w => exact ⟨h, rfl, fun _ => by simp, rfl, fun _ => rfl⟩
  | start i | complete i | drop i => exact ⟨trivial, rfl, fun _ => by simp, rfl, fun _ => rfl⟩
  | remove | insert => exact h.elim

end State

/-- **No run goes on for ever.** Where calls that wait are polled only after they were woken, `m`
calls take no more than `m * (6 * m + 7)` steps, but for `m + 2` for each poll of a future that is
pending, and the direct operations. -/
theorem run_length_le [Fintype ι] (kinds : ι → Kind) (key : K) (n : ℕ+) (hasher : K → UInt64)
    (as : List (Label V E ι)) (s : State K V E ι)
    (hs : Trace.run (State.step kinds key) (State.init n hasher) as = some s)
    (hsched : Trace.Each (State.step kinds key) (fun s a => (s.view key).scheduled a = true)
      (State.init n hasher) as) :
    as.length ≤ Fintype.card ι * (6 * Fintype.card ι + 7) +
      (as.map (Label.cost (Fintype.card ι))).sum := by
  have hlen := Trace.length_le_of_measure (μ := fun s : State K V E ι => (s.view key).measure)
    (fun _ _ _ hok hstep => (State.step_view hstep).measure_le hok) hsched hs
  have hinit : ((State.init n hasher : State K V E ι).view key).measure =
      Fintype.card ι * (6 * Fintype.card ι + 7) := by
    simp only [KeyView.measure, State.view, State.init, Call.fresh, Phase.rank, Call.scheduled,
      Option.isNone_none, Bool.or_false, Finset.filter_true, Finset.sum_const, Finset.card_univ,
      Nat.nsmul_eq_mul]
    ring
  simp only [hinit] at hlen
  omega

/-- Two calls, the second of which waits for the first. -/
def twoCalls : List (Label ℕ ℕ (Fin 2)) :=
  [.start 0, .wait 0 0, .init 0 true, .start 1, .wait 1 1, .poll 0 .pending,
    .poll 0 (.ready (.ok 7)), .complete 0, .wait 1 1, .drop 0, .drop 1]

/-- They take 11 steps, of 42. -/
theorem run_length_le_two_calls :
    ∃ s : State ℕ ℕ ℕ (Fin 2),
      Trace.run (State.step (fun _ => .getOrInsert) 0) (State.init 1 fun _ => 0) twoCalls =
        some s ∧
      (∀ i, (s.calls i).phase = .dropped) ∧ (twoCalls.map (Label.cost 2)).sum = 4 ∧
      twoCalls.length ≤ Fintype.card (Fin 2) * (6 * Fintype.card (Fin 2) + 7) +
        (twoCalls.map (Label.cost (Fintype.card (Fin 2)))).sum :=
  ⟨_, rfl, by decide, rfl,
    run_length_le (fun _ => .getOrInsert) 0 1 (fun _ : ℕ => 0) twoCalls _ rfl (by decide)⟩

/-- **Every call returns.** In any state that cooperative calls can reach without direct operations
and without a panic of `init`, whatever was polled and cancelled: the steps of an executor lead to
a state in which it has nothing left to do, and in such a state every call that was not cancelled
has ended, and not in `unreachable!`. -/
theorem calls_return [Fintype ι] (kinds : ι → Kind) (key : K) (hcoop : ∀ i, (kinds i).race = false)
    (waker : ι → Waker) (n : ℕ+) (hasher : K → UInt64) (as : List (Label V E ι))
    (huses : ∀ a ∈ as, a.Uses waker) (hdirect : ∀ a ∈ as, a.direct = false)
    (hinit : ∀ i, .init i false ∉ as) (s : State K V E ι)
    (hs : Trace.run (State.step kinds key) (State.init n hasher) as = some s) :
    (∃ bs t, Trace.Each (State.step kinds key) (State.Proceeds waker) s bs ∧
      Trace.run (State.step kinds key) s bs = some t ∧
      Trace.Quiet (State.step kinds key) (State.Proceeds waker) t) ∧
    (Trace.Quiet (State.step kinds key) (State.Proceeds waker) s → ∀ i,
      Trace.Each (State.step kinds key) (fun s a => a = .drop i → s.Proceeds waker a)
        (State.init n hasher) as →
      ∃ as₁ as₂ s₁ armed completion, as = as₁ ++ as₂ ∧
        Trace.run (State.step kinds key) (State.init n hasher) as₁ = some s₁ ∧
        (s₁.calls i).phase = .finished armed completion ∧ completion ≠ .unreachable) := by
  obtain ⟨hfits, hover⟩ := State.handsOver_run hcoop huses hdirect hinit hs
  constructor
  · refine Trace.exists_quiet (P := fun _ => True)
      (μ := fun s : State K V E ι => (s.view key).measure) (fun _ _ _ _ _ _ => trivial) ?_ trivial
    intro s a s' _ hproceeds hstep
    obtain ⟨-, -, -, hsched, hcost⟩ := hproceeds.allowed key
    have hmeasure := (State.step_view hstep).measure_le hsched
    rw [hcost] at hmeasure
    exact hmeasure
  · intro hquiet i hkept
    have hgone : (s.calls i).phase = .dropped := by
      by_contra hi
      obtain ⟨a, s', hproceeds, hstep⟩ := State.exists_proceeds hfits hcoop hover hi
      rw [hquiet a hproceeds] at hstep
      cases hstep
    obtain ⟨as₁, as₂, s₁, rfl, hrun⟩ := State.exists_drop_of_dropped hinit hs hgone
    obtain ⟨armed, completion, hp⟩ := hkept.at hrun rfl
    refine ⟨as₁, .drop i :: as₂, s₁, armed, completion, rfl, hrun, hp, ?_⟩
    rintro rfl
    exact State.reachable_run (hcoop i) (fun a ha => hdirect a (List.mem_append_left _ ha)) hrun
      armed hp

/-- Call 1 waits for call 0, which is about to store its value. -/
theorem calls_return_two_calls :
    ∃ s : State ℕ ℕ ℕ (Fin 2),
      Trace.run (State.step (fun _ => .getOrInsert) 0) (State.init 1 fun _ => 0)
        [.start 0, .wait 0 0, .init 0 true, .start 1, .wait 1 1, .poll 0 (.ready (.ok 7))] =
          some s ∧
      (s.calls 1).scheduled = false ∧
      ∃ bs t, Trace.Each (State.step (fun _ => .getOrInsert) 0)
          (State.Proceeds fun i => i.val) s bs ∧
        Trace.run (State.step (fun _ => .getOrInsert) 0) s bs = some t ∧
        Trace.Quiet (State.step (fun _ => .getOrInsert) 0) (State.Proceeds fun i => i.val) t :=
  ⟨_, rfl, rfl, (calls_return (fun _ => .getOrInsert) 0 (fun _ => rfl) (fun i : Fin 2 => i.val) 1
    (fun _ => 0) [.start 0, .wait 0 0, .init 0 true, .start 1, .wait 1 1, .poll 0 (.ready (.ok 7))]
    (by simp [Label.Uses]) (by decide) (by decide) _ rfl).1⟩

end LightCache
