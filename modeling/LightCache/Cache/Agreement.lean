import LightCache.Lib.Trace
import LightCache.Cache.Steps

/-!
# Agreement of all callers

Without direct inserts and removes, a value is only written by a call that found nothing stored
in the same section, so the first value stays. Every call that returns a value has read or
written it while it was there.

Main result: `agreement`.
-/

namespace LightCache

variable {K V E ι : Type} [DecidableEq K] [DecidableEq ι]

/-- A direct `insert` or `remove`. -/
def Label.direct : Label V E ι → Bool
  | .insert _ | .remove => true
  | _ => false

namespace KeyView

variable {kinds : ι → Kind} {t t' : KeyView V E ι} {a : Label V E ι} {i : ι} {c c' : Call V E}

/-- Every value that a call has returned is the stored one. -/
def Agree (t : KeyView V E ι) : Prop :=
  ∀ i armed v, (t.calls i).phase = .finished armed (.returned (.ok v)) → t.value = some v

omit [DecidableEq ι] in
theorem Local.agree {kind : Kind} {value : Option V} {entry : Option Wakers} {armed : Bool} {v : V}
    (h : Local kind i value entry c a c') (hc : c'.phase = .finished armed (.returned (.ok v))) :
    value = some v := by
  cases h with
  | hit _ hv | got _ hv | gotReady _ hv | raceGot _ hv =>
    simp only [Phase.finished.injEq, Completion.returned.injEq, Except.ok.injEq] at hc
    rw [hv, hc.2]
  | miss => revert hc; cases kind.race <;> simp
  | pending hp => rw [hp] at hc; cases hc
  | _ => cases hc

theorem Step.value_eq (h : Step kinds t a t') (ha : a.direct = false) {v : V}
    (hv : t.value = some v) : t'.value = some v := by
  cases h with
  | store _ hn | storeBare _ hn => rw [hv] at hn; cases hn
  | remove | insert => cases ha
  | _ => exact hv

omit [DecidableEq ι] in
/-- As long as nothing is stored, nothing was returned. -/
theorem Agree.not_returned (h : t.Agree) (hv : t.value = none) {armed : Bool} {v : V} :
    (t.calls i).phase ≠ .finished armed (.returned (.ok v)) := by
  intro hc
  rw [h i armed v hc] at hv
  cases hv

theorem Agree.setCall (h : t.Agree)
    (hc : ∀ armed v, c.phase = .finished armed (.returned (.ok v)) → t.value = some v) :
    (t.setCall i c).Agree :=
  forall_setCall (P := fun _ c => ∀ armed v, c.phase = .finished armed (.returned (.ok v)) →
    t.value = some v) hc fun j _ => h j

theorem Agree.store (h : t.Agree) (hv : t.value = none) {v : V}
    (hc : ∀ armed u, c.phase = .finished armed (.returned (.ok u)) → u = v) (j : ι) (armed : Bool)
    (u : V) (hj : ((t.setCall i c).calls j).phase = .finished armed (.returned (.ok u))) :
    some v = some u := by
  rcases eq_or_ne j i with rfl | hji
  · rw [setCall_calls_self] at hj
    rw [hc armed u hj]
  · rw [setCall_calls_of_ne hji] at hj
    exact absurd hj (h.not_returned hv)

theorem Agree.step (h : t.Agree) (hstep : Step kinds t a t') (ha : a.direct = false) :
    t'.Agree := by
  cases hstep with
  | quiet hl => exact h.setCall fun _ _ => hl.agree
  | store hends hv => exact h.store hv (by simp)
  | storeBare hends hv => exact h.store hv (by simp)
  | remove | insert => cases ha
  | _ => exact h.setCall (by simp)

end KeyView

namespace State

variable {kinds : ι → Kind} {key : K} {s s' : State K V E ι} {bs : List (Label V E ι)}

theorem value_run (hdirect : ∀ b ∈ bs, b.direct = false)
    (hrun : Trace.run (State.step kinds key) s bs = some s') {v : V} (hv : s.map.get key = some v) :
    s'.map.get key = some v :=
  Trace.inv_of_each (P := fun s : State K V E ι => (s.view key).value = some v)
    (fun _ _ _ h hb hstep => (step_view hstep).value_eq hb h) hv (Trace.each_of_forall hdirect) hrun

theorem agree_run (hdirect : ∀ b ∈ bs, b.direct = false)
    (hrun : Trace.run (State.step kinds key) s bs = some s') (h : (s.view key).Agree) :
    (s'.view key).Agree := by
  have hstep : ∀ (s : State K V E ι) b s', (s.view key).Agree → b.direct = false →
      s.step kinds key b = some s' → (s'.view key).Agree :=
    fun _ _ _ h hb hstep => h.step (step_view hstep) hb
  exact Trace.inv_of_each (P := fun s => (s.view key).Agree) hstep h (Trace.each_of_forall hdirect)
    hrun

end State

/-- **Agreement.** In any run of the four kinds of calls, a stored value is never replaced, and
every value a call has returned is the one that is stored. -/
theorem agreement (kinds : ι → Kind) (key : K) (n : ℕ+) (hasher : K → UInt64)
    (as bs : List (Label V E ι)) (hdirect : ∀ a ∈ as ++ bs, a.direct = false) (s s' : State K V E ι)
    (hs : Trace.run (State.step kinds key) (State.init n hasher) as = some s)
    (hs' : Trace.run (State.step kinds key) s bs = some s') :
    (∀ v, s.map.get key = some v → s'.map.get key = some v) ∧
      ∀ i armed v, (s'.calls i).phase = .finished armed (.returned (.ok v)) →
        s'.map.get key = some v := by
  have has : ∀ a ∈ as, a.direct = false := fun a ha => hdirect a (List.mem_append_left _ ha)
  have hbs : ∀ a ∈ bs, a.direct = false := fun a ha => hdirect a (List.mem_append_right _ ha)
  have hagree : (s.view key).Agree := State.agree_run has hs fun _ _ _ hc => by cases hc
  exact ⟨fun v hv => State.value_run hbs hs' hv, State.agree_run hbs hs' hagree⟩

/-- Two racing calls with different values: call 1 stores 8, and call 0, whose future gives 7,
returns what is stored. -/
theorem agreement_two_races :
    ∃ s s' : State ℕ ℕ ℕ (Fin 2),
      Trace.run (State.step (fun _ => .getOrTryInsertRace) 0) (State.init 1 fun _ => 0)
        [.start 0, .start 1, .init 0 true, .init 1 true, .poll 0 .pending, .race 0 0,
          .poll 1 (.ready (.ok 8)), .race 1 1] = some s ∧
      Trace.run (State.step (fun _ => .getOrTryInsertRace) 0) s
        [.poll 0 (.ready (.ok 7)), .race 0 0] = some s' ∧
      (s.calls 1).phase = .finished false (.returned (.ok 8)) ∧ s.map.get 0 = some 8 ∧
      (s'.calls 0).phase = .finished false (.returned (.ok 8)) ∧ s'.map.get 0 = some 8 ∧
      ∀ i armed v, (s'.calls i).phase = .finished armed (.returned (.ok v)) → v = 8 := by
  obtain ⟨hkeeps, hreturned⟩ := agreement (K := ℕ) (E := ℕ)
    (fun _ : Fin 2 => .getOrTryInsertRace) 0 1 (fun _ => 0)
    [.start 0, .start 1, .init 0 true, .init 1 true, .poll 0 .pending, .race 0 0,
      .poll 1 (.ready (.ok 8)), .race 1 1]
    [.poll 0 (.ready (.ok 7)), .race 0 0] (by decide) _ _ rfl rfl
  exact ⟨_, _, rfl, rfl, rfl, rfl, rfl, hkeeps 8 rfl, fun i armed v h =>
    Option.some.inj ((hreturned i armed v h).symm.trans (hkeeps 8 rfl))⟩

end LightCache
