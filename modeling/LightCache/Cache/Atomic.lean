import LightCache.Cache.WholeKeys

/-!
# Completing polls as one step

`LightCache.Cache.Overlap` has a completing poll in two steps. As long as nobody inserts the key
directly, what comes in between does not change what the poll does: the value is still missing, and
the call is where it was. So the poll is the one step that `LightCache.Cache.System` makes of it.

Main results: `completions_atomic`, and for the whole cache `key_run_atomic`.
-/

namespace LightCache

variable {K V E ι : Type} [DecidableEq K] [DecidableEq ι]

/-- What the future of the call gave, if the lock is taken next. -/
def Phase.out : Phase V E → Option (Except E V)
  | .ready out | .polled _ (some out) => some out
  | _ => none

namespace KeyView

variable {kind : Kind} {i : ι} {value : Option V} {entry : Option Wakers} {c c' : Call V E}
variable {a : Label V E ι}

omit [DecidableEq ι] in
/-- A call whose future is ready does nothing without the lock. -/
theorem Local.out_eq_none (h : Local kind i value entry c a c')
    (hends : ∀ out armed, ¬Ends i c.phase a out armed) : c.phase.out = none := by
  cases h with
  | gotReady h | failed h => exact absurd h (hends _ _)
  | drop hc | dropBare hc =>
    generalize c.phase = p at hc
    cases p <;> first | rfl | cases hc
  | hit hc | miss hc | got hc | init hc | initPanic hc | raceInit hc | raceInitPanic hc
  | pending hc | ready hc | panicked hc | racePending hc | raceReady hc | racePanicked hc
  | raceGot hc | raceAgain hc =>
    rw [hc]
    rfl

end KeyView

namespace OverlapState

variable {kinds : ι → Kind} {key : K} {s s' : OverlapState K V E ι} {a : OverlapLabel V E ι}
variable {t t' : State K V E ι} {b b' : Label V E ι} {g : Guard V E ι}

omit [DecidableEq ι] in
theorem out_of_completes (h : t.completes b = some g) :
    (t.calls g.call).phase.out = some g.out := by
  cases b with
  | complete i | race i w =>
    simp only [State.completes] at h
    split at h
    · next hphase =>
      obtain rfl := Option.some.inj h
      rw [hphase]
      rfl
    · cases h
  | _ => cases h

omit [DecidableEq ι] in
theorem completes_of_phase (h : t.completes b = some g)
    (hphase : (t'.calls g.call).phase = (t.calls g.call).phase) : t'.completes b = some g := by
  cases b with
  | complete i | race i w =>
    have hi : g.call = i := by
      simp only [State.completes] at h
      split at h
      · exact (congrArg Guard.call (Option.some.inj h)).symm
      · cases h
    rw [hi] at hphase
    simp only [State.completes, hphase] at h ⊢
    exact h
  | _ => cases h

/-- Without the lock, a call whose future is ready stays where it is. -/
theorem phase_of_unlocked (hstep : t.step kinds key b = some t') (hlocks : t.locks b = false)
    {i : ι} {out : Except E V} (hi : (t.calls i).phase.out = some out) :
    (t'.calls i).phase = (t.calls i).phase := by
  have hview : KeyView.Step kinds (t.view key) b (t'.view key) := State.step_view hstep
  show ((t'.view key).calls i).phase = ((t.view key).calls i).phase
  generalize t'.view key = u at hview ⊢
  have hends {j : ι} {p : Phase V E} {out : Except E V} {armed : Bool}
      (h : KeyView.Ends j p b out armed) : False := by
    obtain ⟨rfl, -⟩ | ⟨w, rfl, -⟩ := KeyView.ends_iff.mp h <;> cases hlocks
  cases hview with
  | @quiet j _ c hl =>
    have hj : i ≠ j := by
      rintro rfl
      have hnone : (t.calls i).phase.out = none := hl.out_eq_none fun _ _ => hends
      cases hnone.symm.trans hi
    rw [KeyView.setCall_calls_of_ne hj]
  | park | claim | make | raceJoin | raceMake => cases hlocks
  | store h | storeBare h => exact (hends h).elim
  | leave hc => cases hlocks.symm.trans hc
  | remove | insert => rfl

/-- What the poll that holds the lock found is still so, and it is about to take step `b`. -/
def Ready (as : List (OverlapLabel V E ι)) (key : K) (s : OverlapState K V E ι) : Prop :=
  ∀ g, s.guard = some g → s.map.get key = none ∧ ∃ b, .step b ∈ as ∧ s.completes b = some g

/-- A step of the two-step system is at most one of the system. -/
theorem Ready.step {as : List (OverlapLabel V E ι)} (h : s.Ready as key)
    (hstep : s.step kinds key a = some s') (ha : a ∈ as) (hinserts : a.inserts = false) :
    s'.Ready as key ∧ ∃ bs, (∀ b ∈ bs, OverlapLabel.step b ∈ as) ∧
      Trace.run (State.step kinds key) s.toState bs = some s'.toState := by
  cases a with
  | step b =>
    rcases step_cases hstep with ⟨b', hb', hs, hguard, hfree⟩ | ⟨b', g, hb', hg, hnone, -, rfl⟩ |
      ⟨g, hb', -⟩
    · cases hb'
      refine ⟨fun g hg => ?_, [b], fun b' hb' => List.mem_singleton.mp hb' ▸ ha,
        Trace.run_singleton.trans hs⟩
      rw [hguard] at hg
      -- The lock is held, and the step needs none: the value may only be removed.
      obtain ⟨hnone, b₀, hb₀, hcompletes⟩ := h g hg
      have hlocks := hfree.resolve_left (by simp [hg])
      refine ⟨?_, b₀, hb₀, completes_of_phase hcompletes
        (phase_of_unlocked hs hlocks (out_of_completes hcompletes))⟩
      cases hdirect : b.direct with
      | false => rw [get_of_unlocked hs hdirect hlocks, hnone]
      | true =>
        cases b with
        | remove =>
          have hmap : (s.map.remove key).2 = s'.map := congrArg State.map (Option.some.inj hs)
          rw [← hmap, LightMap.get_remove, if_pos rfl]
        | insert => cases hinserts
        | _ => cases hdirect
    · cases hb'
      -- The first half of a completing poll is no step of the system.
      refine ⟨fun g' hg' => ?_, [], fun _ hb => absurd hb List.not_mem_nil, rfl⟩
      obtain rfl := Option.some.inj hg'
      exact ⟨hnone, b, ha, hg⟩
    · cases hb'
  | insertOut =>
    rw [OverlapState.step, insertOut] at hstep
    cases hg : s.guard with
    | none =>
      rw [hg] at hstep
      cases hstep
    | some g =>
      -- The second half is the whole poll.
      obtain ⟨hnone, b, hb, hcompletes⟩ := h g hg
      rw [hg] at hstep
      obtain rfl := Option.some.inj hstep
      refine ⟨fun g' hg' => (by cases hg'), [b], fun b' hb' => List.mem_singleton.mp hb' ▸ hb,
        Trace.run_singleton.trans ?_⟩
      rw [step_of_completes hcompletes, GetOrInsertFutureInner.pollWorking, hnone]
      rfl

/-- Without direct inserts, a run of the two-step system is one of the system. -/
theorem exists_atomic_run (n : ℕ+) (hasher : K → UInt64) {as : List (OverlapLabel V E ι)}
    (hinserts : ∀ a ∈ as, a.inserts = false)
    (hrun : Trace.run (step kinds key) (init n hasher) as = some s) :
    ∃ bs, (∀ b ∈ bs, OverlapLabel.step b ∈ as) ∧
      Trace.run (State.step kinds key) (State.init n hasher) bs = some s.toState := by
  have hstart : (init n hasher : OverlapState K V E ι).Ready as key := fun g hg => by cases hg
  have hall : Trace.Each (step kinds key) (fun _ a => a ∈ as) (init n hasher) as :=
    Trace.each_of_forall fun a ha => ha
  obtain ⟨bs, t, hbs, hrun', -, rfl⟩ := Trace.simulate
    (R := fun s t => s.Ready as key ∧ t = s.toState) (B := fun b => OverlapLabel.step b ∈ as)
    (fun s t a s' ⟨hready, ht⟩ ha hstep => by
      obtain ⟨hready', bs, hbs, hrun⟩ := hready.step hstep ha (hinserts a ha)
      exact ⟨bs, s'.toState, hbs, ht ▸ hrun, hready', rfl⟩)
    ⟨hstart, rfl⟩ hall hrun
  exact ⟨bs, hbs, hrun'⟩

end OverlapState

/-- **Completing polls are atomic** as long as nobody inserts the key directly: what the two-step
system does, the system does, with a completing poll as one step. -/
theorem completions_atomic (kinds : ι → Kind) (key : K) (n : ℕ+) (hasher : K → UInt64)
    (as : List (OverlapLabel V E ι)) (hinserts : ∀ a ∈ as, a.inserts = false)
    {s : OverlapState K V E ι}
    (hrun : Trace.run (OverlapState.step kinds key) (OverlapState.init n hasher) as = some s) :
    ∃ bs, (∀ b ∈ bs, OverlapLabel.step b ∈ as) ∧
      Trace.run (State.step kinds key) (State.init n hasher) bs = some s.toState :=
  OverlapState.exists_atomic_run n hasher hinserts hrun

/-- A removal between the two steps of a completing poll. -/
theorem completions_atomic_removed :
    ∃ s : OverlapState ℕ ℕ ℕ (Fin 1),
      Trace.run (OverlapState.step (fun _ => .getOrInsert) 0) (OverlapState.init 1 fun _ => 0)
        [.step (.start 0), .step (.wait 0 0), .step (.init 0 true),
          .step (.poll 0 (.ready (.ok 7))), .step (.complete 0), .step .remove, .insertOut] =
          some s ∧
      s.map.get 0 = some 7 ∧
      ∃ bs, (∀ b ∈ bs, OverlapLabel.step b ∈ [.step (.start 0), .step (.wait 0 0),
          .step (.init 0 true), .step (.poll 0 (.ready (.ok 7))), .step (.complete 0),
          .step .remove, .insertOut]) ∧
        Trace.run (State.step (fun _ => .getOrInsert) 0) (State.init 1 fun _ => 0) bs =
          some s.toState :=
  ⟨_, rfl, rfl, completions_atomic (fun _ => .getOrInsert) 0 1 (fun _ => 0)
    [.step (.start 0), .step (.wait 0 0), .step (.init 0 true), .step (.poll 0 (.ready (.ok 7))),
      .step (.complete 0), .step .remove, .insertOut] (by decide) rfl⟩

end LightCache
