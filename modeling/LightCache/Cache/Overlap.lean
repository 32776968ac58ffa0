import LightCache.Cache.Agreement

/-!
# Completing polls and direct inserts

A completing poll looks the key up and then inserts its value, all under the waiters lock. A
direct `insert` does not take that lock, so it may come in between. `OverlapState` has the poll
in two steps: up to the point where the inner future hands over `InnerComplete::Insert` with the
lock, and the rest. Everything else is a step of the system of `LightCache.Cache.System`, and
nothing that needs the lock happens between the two.

Main result: `no_lost_update_iff`: a completing poll overwrites a value exactly if a direct
insert came in between. That this happens shows `lost_update`.
-/

namespace LightCache

variable {K V E ι : Type} [DecidableEq K] [DecidableEq ι]

/-- What `InnerComplete::Insert` carries: the call, whether its destructor will take the lock,
and the output. The waiters lock comes with it. -/
structure Guard (V E ι : Type) where
  call : ι
  armed : Bool
  out : Except E V
  deriving DecidableEq

/-- The system, and the poll that holds the waiters lock. -/
structure OverlapState (K V E ι : Type) [DecidableEq K] extends State K V E ι where
  guard : Option (Guard V E ι)

/-- The steps. -/
inductive OverlapLabel (V E ι : Type)
  /-- A step of the system; of a completing poll, what comes before `cache.insert`. -/
  | step (a : Label V E ι)
  /-- The arm `InnerComplete::Insert`. -/
  | insertOut
  deriving DecidableEq

/-- The step is a direct `insert`. -/
def OverlapLabel.inserts : OverlapLabel V E ι → Bool
  | .step (.insert _) => true
  | _ => false

namespace State

/-- The poll that step `a` completes, if it does. -/
def completes (s : State K V E ι) : Label V E ι → Option (Guard V E ι)
  | .complete i =>
    match (s.calls i).phase with
    | .ready out => some ⟨i, true, out⟩
    | _ => none
  | .race i _ =>
    match (s.calls i).phase with
    | .polled joined (some out) => some ⟨i, joined, out⟩
    | _ => none
  | _ => none

/-- The step takes the waiters lock. -/
def locks (s : State K V E ι) : Label V E ι → Bool
  | .wait _ _ | .complete _ | .race _ _ => true
  | .drop i => (s.calls i).phase.armed
  | .start _ | .init _ _ | .poll _ _ | .remove | .insert _ => false

end State

namespace OverlapState

variable (kinds : ι → Kind) (key : K)

/-- No call was polled. -/
def init (n : ℕ+) (hasher : K → UInt64) : OverlapState K V E ι where
  toState := .init n hasher
  guard := none

/-- A step of the system, if the lock allows it. -/
def stepUnlocked (s : OverlapState K V E ι) (a : Label V E ι) : Option (OverlapState K V E ι) :=
  if s.guard.isSome && s.locks a then none
  else match s.completes a with
    | some g =>
      match GetOrInsertFutureInner.pollWorking s.map key g.out with
      | .insert out => some { s with guard := some { g with out } }
      | .got _ => (s.toState.step kinds key a).map fun t => { s with toState := t }
    | none => (s.toState.step kinds key a).map fun t => { s with toState := t }

/-- The arm `InnerComplete::Insert`, which ends with the lock released. -/
def insertOut (s : OverlapState K V E ι) : Option (OverlapState K V E ι) :=
  match s.guard with
  | some g =>
    let (completion, ws, map) := GetOrTryInsertFuture.complete s.map key (.insert g.out)
    some {
      toState := s.write key g.call
        { s.calls g.call with phase := .finished g.armed completion } map ws
      guard := none }
  | none => none

/-- One step. -/
def step (s : OverlapState K V E ι) : OverlapLabel V E ι → Option (OverlapState K V E ι)
  | .step a => s.stepUnlocked kinds key a
  | .insertOut => s.insertOut key

/-- What the step must not do: the `cache.insert` of a completing poll returns `None`, and only
a direct `insert` changes a value. -/
structure NoLostUpdate (s : OverlapState K V E ι) (a : OverlapLabel V E ι) : Prop where
  absent : a = .insertOut → ∀ g v, s.guard = some g → g.out = .ok v → (s.map.insert key v).1 = none
  kept : a.inserts = false → ∀ v s', s.map.get key = some v → s.step kinds key a = some s' →
    s'.map.get key = some v

/-- The history variable: a direct `insert` came in since the lock was taken. -/
def intrude (_ : OverlapState K V E ι) (a : OverlapLabel V E ι) (s' : OverlapState K V E ι)
    (intruded : Bool) : Bool :=
  s'.guard.isSome && (a.inserts || intruded)

/-- The step does not insert a value after a direct `insert` came in. -/
def undisturbed (s : OverlapState K V E ι) (intruded : Bool) : OverlapLabel V E ι → Bool
  | .insertOut =>
    match s.guard with
    | some ⟨_, _, .ok _⟩ => !intruded
    | _ => true
  | .step _ => true

variable {kinds key} {s s' : OverlapState K V E ι} {a : OverlapLabel V E ι} {b : Label V E ι}
variable {g : Guard V E ι} {t t' : State K V E ι} {intruded : Bool}

/-! ## What a step can do -/

omit [DecidableEq ι] in
theorem locks_of_completes (h : t.completes b = some g) :
    t.locks b = true ∧ b.direct = false := by
  cases b with
  | complete | race => exact ⟨rfl, rfl⟩
  | _ => cases h

theorem step_of_completes (h : t.completes b = some g) :
    t.step kinds key b = some (t.write key g.call
      { t.calls g.call with
        phase := .finished g.armed (GetOrTryInsertFuture.complete t.map key
          (GetOrInsertFutureInner.pollWorking t.map key g.out)).1 }
      (GetOrTryInsertFuture.complete t.map key
        (GetOrInsertFutureInner.pollWorking t.map key g.out)).2.2
      (GetOrTryInsertFuture.complete t.map key
        (GetOrInsertFutureInner.pollWorking t.map key g.out)).2.1) := by
  cases b with
  | complete i =>
    simp only [State.completes] at h
    split at h
    · rename_i out hc
      obtain rfl := Option.some.inj h
      simp [State.step, State.complete, hc]
    · cases h
  | race i w =>
    simp only [State.completes] at h
    split at h
    · rename_i joined out hc
      obtain rfl := Option.some.inj h
      cases hv : t.map.get key <;>
        simp [State.step, State.race, hc, RaceInner.poll, hv, GetOrTryInsertRace.complete,
          GetOrInsertFutureInner.pollWorking]
    · cases h
  | _ => cases h

/-- A step is one of the system, or takes the lock, or is the rest of a completing poll. -/
theorem step_cases (h : s.step kinds key a = some s') :
    (∃ b, a = .step b ∧ s.toState.step kinds key b = some s'.toState ∧ s'.guard = s.guard ∧
      (s.guard = none ∨ s.locks b = false)) ∨
    (∃ b g, a = .step b ∧ s.completes b = some g ∧ s.map.get key = none ∧ s.guard = none ∧
      s' = { s with guard := some g }) ∨
    ∃ g, a = .insertOut ∧ s.guard = some g ∧ s'.guard = none ∧
      s'.map = (GetOrTryInsertFuture.complete s.map key (.insert g.out)).2.2 := by
  cases a with
  | step b =>
    simp only [step, stepUnlocked] at h
    split at h
    · cases h
    · rename_i hfree
      have hfree : s.guard = none ∨ s.locks b = false := by
        cases hn : s.guard with
        | none => exact Or.inl rfl
        | some g => exact Or.inr (by simpa [hn] using hfree)
      cases hg : s.completes b with
      | none =>
        rw [hg] at h
        obtain ⟨t, ht, rfl⟩ := Option.map_eq_some_iff.mp h
        exact Or.inl ⟨b, rfl, ht, rfl, hfree⟩
      | some g =>
        rw [hg] at h
        cases hv : s.map.get key with
        | none =>
          -- The first half of a completing poll, which keeps the lock.
          obtain rfl : { s with guard := some g } = s' := by
            simpa [GetOrInsertFutureInner.pollWorking, hv] using h
          have hnone : s.guard = none :=
            hfree.resolve_right (by simp [(locks_of_completes hg).1])
          exact Or.inr (Or.inl ⟨b, g, rfl, hg, rfl, hnone, rfl⟩)
        | some v =>
          simp only [GetOrInsertFutureInner.pollWorking, hv] at h
          obtain ⟨t, ht, rfl⟩ := Option.map_eq_some_iff.mp h
          exact Or.inl ⟨b, rfl, ht, rfl, hfree⟩
  | insertOut =>
    simp only [step, insertOut] at h
    cases hg : s.guard with
    | none =>
      rw [hg] at h
      cases h
    | some g =>
      rw [hg] at h
      obtain rfl := Option.some.inj h
      exact Or.inr (Or.inr ⟨g, rfl, rfl, rfl, rfl⟩)

/-- Without interference the two steps of a completing poll are the one of the system. -/
theorem exists_steps {b : Label V E ι} (h : t.step kinds key b = some t') :
    ∃ as, Trace.run (step kinds key) ⟨t, none⟩ as = some ⟨t', none⟩ := by
  cases hg : t.completes b with
  | none => exact ⟨[.step b], by simp [Trace.run, step, stepUnlocked, hg, h]⟩
  | some g =>
    cases hv : t.map.get key with
    | some v =>
      exact ⟨[.step b], by
        simp [Trace.run, step, stepUnlocked, hg, h, GetOrInsertFutureInner.pollWorking, hv]⟩
    | none =>
      rw [step_of_completes hg] at h
      refine ⟨[.step b, .insertOut], ?_⟩
      simp only [GetOrInsertFutureInner.pollWorking, hv] at h
      simp [Trace.run, step, stepUnlocked, hg, GetOrInsertFutureInner.pollWorking, hv, insertOut,
        Option.some.inj h]

/-- Every run of the system is one of this system. -/
theorem exists_run {bs : List (Label V E ι)} (h : Trace.run (State.step kinds key) t bs = some t') :
    ∃ as, Trace.run (step kinds key) ⟨t, none⟩ as = some ⟨t', none⟩ :=
  Trace.exists_run_of_steps (f := fun t => (⟨t, none⟩ : OverlapState K V E ι))
    (fun _ _ _ h => exists_steps h) h

/-! ## The value while the lock is held -/

theorem get_of_unlocked (h : t.step kinds key b = some t') (hdirect : b.direct = false)
    (hlocks : t.locks b = false) : t'.map.get key = t.map.get key := by
  have hview : KeyView.Step kinds (t.view key) b (t'.view key) := State.step_view h
  have hvalue : (t'.view key).value = (t.view key).value := by
    generalize t'.view key = u at hview ⊢
    cases hview with
    | store hends | storeBare hends =>
      rcases KeyView.ends_iff.mp hends with ⟨rfl, -⟩ | ⟨w, rfl, -⟩ <;> cases hlocks
    | remove | insert => cases hdirect
    | _ => rfl
  exact hvalue

theorem get_of_insert {v : V} (h : t.step kinds key (.insert v) = some t') :
    t'.map.get key = some v := by
  obtain rfl : t.insert key v = t' := Option.some.inj h
  simp [State.insert, LightMap.get_insert]

omit [DecidableEq K] [DecidableEq ι] in
theorem inserts_of_not_direct (h : b.direct = false) : (OverlapLabel.step b).inserts = false := by
  cases b with
  | insert => cases h
  | _ => rfl

/-- While the lock is held, a value is there exactly if a direct `insert` came in. -/
structure Watched (s : OverlapState K V E ι) (key : K) (intruded : Bool) : Prop where
  free : s.guard = none → intruded = false
  held : ∀ g, s.guard = some g → ((s.map.get key).isSome ↔ intruded = true)

theorem Watched.step (h : s.Watched key intruded) (hstep : s.step kinds key a = some s')
    (hremove : a ≠ .step .remove) : s'.Watched key (s.intrude a s' intruded) := by
  refine ⟨fun hnone => by simp [intrude, hnone], ?_⟩
  intro g hg
  simp only [intrude, hg, Option.isSome_some, Bool.true_and]
  rcases step_cases hstep with ⟨b, rfl, hb, hguard, hfree⟩ | ⟨b, g, rfl, hb, hv, hnone, rfl⟩ |
    ⟨-, -, -, hnone, -⟩
  · have hlocks := hfree.resolve_left (by rw [← hguard, hg]; simp)
    have hheld := h.held g (hguard ▸ hg)
    cases hdirect : b.direct with
    | false =>
      rw [inserts_of_not_direct hdirect, Bool.false_or, get_of_unlocked hb hdirect hlocks]
      exact hheld
    | true =>
      cases b with
      | insert v => simp [get_of_insert hb, OverlapLabel.inserts]
      | remove => exact absurd rfl hremove
      | _ => cases hdirect
  · rw [inserts_of_not_direct (locks_of_completes hb).2, h.free hnone]
    simp [hv]
  · cases hnone.symm.trans hg

/-- No update is lost in a step exactly if it inserts no value after an intrusion. -/
theorem Watched.noLostUpdate_iff (h : s.Watched key intruded) (hremove : a ≠ .step .remove) :
    NoLostUpdate kinds key s a ↔ s.undisturbed intruded a = true := by
  constructor
  · intro hlost
    cases a with
    | step b => rfl
    | insertOut =>
      cases hg : s.guard with
      | none => simp [undisturbed, hg]
      | some g =>
        obtain ⟨i, armed, out⟩ := g
        cases out with
        | error err => simp [undisturbed, hg]
        | ok v =>
          have habsent := hlost.absent rfl _ v hg rfl
          have hheld := h.held _ hg
          rw [LightMap.insert_fst] at habsent
          simpa [undisturbed, hg, habsent] using hheld
  · intro hok
    -- Nobody came in between, so what the first half read still holds.
    have habsent : ∀ g v, a = .insertOut → s.guard = some g → g.out = .ok v →
        s.map.get key = none := by
      rintro ⟨i, armed, out⟩ v rfl hg rfl
      have hheld := h.held _ hg
      simp only [undisturbed, hg, Bool.not_eq_true'] at hok
      simpa [hok] using hheld
    refine ⟨fun ha g v hg hout => by rw [LightMap.insert_fst]; exact habsent g v ha hg hout, ?_⟩
    intro hinserts v s' hv hstep
    rcases step_cases hstep with ⟨b, rfl, hb, -⟩ | ⟨b, g, rfl, -, -, -, rfl⟩ | ⟨g, rfl, hg, -, hmap⟩
    · have hdirect : b.direct = false := by
        cases b with
        | insert => cases hinserts
        | remove => exact absurd rfl hremove
        | _ => rfl
      exact (State.step_view hb).value_eq hdirect hv
    · exact hv
    · rw [hmap]
      cases hout : g.out with
      | error err => exact hv
      | ok u => cases (habsent g u rfl hg hout).symm.trans hv

omit [DecidableEq ι] in
theorem watched_init (n : ℕ+) (hasher : K → UInt64) (key : K) :
    (OverlapState.init n hasher : OverlapState K V E ι).Watched key false :=
  ⟨fun _ => rfl, fun _ hg => by cases hg⟩

end OverlapState

/-- The system with the history variable. -/
def OverlapState.intrudeStep (kinds : ι → Kind) (key : K) :
    OverlapState K V E ι × Bool → OverlapLabel V E ι → Option (OverlapState K V E ι × Bool) :=
  Trace.recording (OverlapState.step kinds key) OverlapState.intrude

/-- **No lost update.** In a run of the four kinds of calls with direct inserts, the insert of a
completing poll always finds the key absent, and no completion ever overwrites a value, exactly
if no completing poll inserts a value after a direct insert came in since it took the lock. -/
theorem no_lost_update_iff (kinds : ι → Kind) (key : K) (n : ℕ+) (hasher : K → UInt64)
    (as : List (OverlapLabel V E ι)) (has : ∀ a ∈ as, a ≠ .step .remove) :
    Trace.Each (OverlapState.intrudeStep kinds key)
        (fun x a => OverlapState.NoLostUpdate kinds key x.1 a) (OverlapState.init n hasher, false)
        as ↔
      Trace.Each (OverlapState.intrudeStep kinds key) (fun x a => x.1.undisturbed x.2 a = true)
        (OverlapState.init n hasher, false) as := by
  refine Trace.each_congr (I := fun x => x.1.Watched key x.2) (A := fun _ a => a ≠ .step .remove)
    ?_ (fun _ _ h hremove => h.noLostUpdate_iff hremove) (OverlapState.watched_init n hasher key)
    (Trace.each_of_forall has)
  intro x a x' h hremove hstep
  obtain ⟨hs, hintruded⟩ := Trace.recording_eq_some.mp hstep
  rw [hintruded]
  exact h.step hs hremove

/-- A direct insert before the poll takes the lock: the poll finds its value. -/
theorem no_lost_update_before_lock :
    Trace.Each (OverlapState.intrudeStep (fun _ => .getOrInsert) 0)
      (fun x a => OverlapState.NoLostUpdate (fun _ => .getOrInsert) 0 x.1 a)
      ((OverlapState.init 1 fun _ => 0 : OverlapState ℕ ℕ ℕ (Fin 1)), false)
      [.step (.start 0), .step (.wait 0 0), .step (.init 0 true), .step (.poll 0 (.ready (.ok 7))),
        .step (.insert 9), .step (.complete 0)] :=
  (no_lost_update_iff _ 0 1 (fun _ => 0) _ (by decide)).mpr (by decide)

/-- A direct insert of 9 after the poll took the lock: the poll inserts 7 over it. -/
theorem lost_update :
    ∃ s s' : OverlapState ℕ ℕ ℕ (Fin 1),
      Trace.run (OverlapState.step (fun _ => .getOrInsert) 0) (OverlapState.init 1 fun _ => 0)
        [.step (.start 0), .step (.wait 0 0), .step (.init 0 true),
          .step (.poll 0 (.ready (.ok 7))), .step (.complete 0), .step (.insert 9)] = some s ∧
      s.guard = some ⟨0, true, .ok 7⟩ ∧ (s.map.insert 0 7).1 = some 9 ∧
      s.step (fun _ => .getOrInsert) 0 .insertOut = some s' ∧ s'.map.get 0 = some 7 ∧
      ¬OverlapState.NoLostUpdate (fun _ => .getOrInsert) 0 s .insertOut := by
  refine ⟨_, _, rfl, rfl, by decide, rfl, by decide, ?_⟩
  intro h
  have habsent := h.absent rfl _ 7 rfl rfl
  revert habsent
  decide

end LightCache
