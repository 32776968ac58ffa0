import LightCache.Lib.Trace
import LightCache.Cache.Steps

/-!
# When a call reaches `unreachable!`

A call that stores its value then deletes the waiters entry of the key, and panics if there is
none. A cooperative call has seen an entry when it claimed its slot, but a racing call may have
stored a value and deleted that entry, and a `remove` may have deleted the value since. A racing
call only makes an entry when its future is pending.

Main results: `coop_never_unreachable_iff` and `race_never_unreachable_iff`, which say exactly
when this happens. That it does show `coop_unreachable` and `race_unreachable`.
-/

namespace LightCache

variable {K V E ι : Type} [DecidableEq K] [DecidableEq ι]

namespace KeyView

variable {kinds : ι → Kind} {t t' : KeyView V E ι} {a : Label V E ι} {i j : ι} {c c' : Call V E}
variable {armed : Bool}

omit [DecidableEq ι] in
theorem Local.reachable {kind : Kind} {value : Option V} {entry : Option Wakers}
    (h : Local kind i value entry c a c') :
    c'.phase ≠ .finished armed .unreachable := by
  cases h with
  | miss => cases kind.race <;> simp
  | pending hc => rw [hc]; simp
  | _ => simp

/-! ## Cooperative calls -/

/-- No cooperative call is in `unreachable!`. -/
def CoopReachable (kinds : ι → Kind) (t : KeyView V E ι) : Prop :=
  ∀ i armed, (kinds i).race = false → (t.calls i).phase ≠ .finished armed .unreachable

/-- A cooperative call that completes with a value does not do so after a `remove` that found no
entry, with no entry made and no value stored since. -/
def notBare (t : KeyView V E ι) : Label V E ι → Bool
  | .complete i =>
    match (t.calls i).phase with
    | .ready (.ok _) => !t.bare
    | _ => true
  | _ => true

/-- While a cooperative call works, there is an entry or a value, unless a `remove` left the key
bare. -/
structure Covered (kinds : ι → Kind) (t : KeyView V E ι) : Prop where
  fits : t.Fits kinds
  covered : ∀ i, (t.calls i).phase.works = true → t.value = none → t.entry = none → t.bare = true
  reachable : t.CoopReachable kinds

theorem CoopReachable.setCall (h : t.CoopReachable kinds)
    (hc : ∀ armed, (kinds i).race = false → c.phase ≠ .finished armed .unreachable) :
    (t.setCall i c).CoopReachable kinds :=
  forall_setCall (P := fun j c => ∀ armed, (kinds j).race = false →
    c.phase ≠ .finished armed .unreachable) hc fun j _ => h j

theorem Covered.step (h : t.Covered kinds) (hstep : Step kinds t a t') (hok : t.notBare a = true) :
    t'.Covered kinds := by
  refine ⟨h.fits.step hstep, ?_, ?_⟩
  · -- Whenever the step leaves neither value nor entry, it is local or a `remove`.
    cases hstep with
    | @quiet i _ c hl =>
      intro j hj hv hn
      rcases eq_or_ne j i with rfl | hji
      · rw [setCall_calls_self] at hj
        exact h.covered j (hl.works hj) hv hn
      · rw [setCall_calls_of_ne hji] at hj
        exact h.covered j hj hv hn
    | remove =>
      intro j hj _ hn
      exact Option.isNone_iff_eq_none.mpr hn
    | park | claim | make | raceJoin | raceMake | leave => exact fun j _ _ hn => by cases hn
    | store | storeBare | insert => exact fun j _ hv => by cases hv
  · cases hstep with
    | quiet hl => exact h.reachable.setCall fun _ _ => hl.reachable
    | @storeBare i a v armed hends hv hn =>
      apply h.reachable.setCall
      intro armed' hi
      rcases ends_iff.mp hends with ⟨rfl, hp, rfl⟩ | ⟨w, rfl, hp⟩
      · -- A cooperative call: the key is bare.
        have hbare := h.covered i (by rw [hp]; rfl) hv hn
        simp [notBare, hp, hbare] at hok
      · have hfits := h.fits i
        simp [hp, Phase.fits, hi] at hfits
    | remove | insert => exact h.reachable
    | _ => exact h.reachable.setCall (by simp)

/-! ## Racing calls -/

/-- No call is in `unreachable!`, and a call whose future cannot fail and did not panic ends with
a value. -/
def AllReturn (kinds : ι → Kind) (t : KeyView V E ι) : Prop :=
  ∀ i armed r, (t.calls i).phase = .finished armed r → r ≠ .unreachable ∧
    ((kinds i).fallible = false → r ≠ .panicked → ∃ v, r = .returned (.ok v))

/-- A racing call that ends with a value while nothing is stored does not do so before any call
was told that its future is pending. -/
def notFirst (t : KeyView V E ι) : Label V E ι → Bool
  | .race i _ =>
    match (t.calls i).phase, t.value with
    | .polled _ (some (.ok _)), none => t.epoch ≠ 0
    | _, _ => true
  | _ => true

/-- Once an entry was made, there is an entry or a value. -/
structure Opened (kinds : ι → Kind) (t : KeyView V E ι) : Prop where
  fits : t.Fits kinds
  opened : t.value = none → (t.entry = none ↔ t.epoch = 0)

/-- And no call is in `unreachable!`. -/
structure Returning (kinds : ι → Kind) (t : KeyView V E ι) : Prop extends Opened kinds t where
  reachable : ∀ i armed, (t.calls i).phase ≠ .finished armed .unreachable

omit [DecidableEq ι] in
theorem Returning.allReturn (h : t.Returning kinds) : t.AllReturn kinds := by
  intro i armed r hr
  refine ⟨fun hun => h.reachable i armed (hun ▸ hr), ?_⟩
  intro hf hp
  cases r with
  | panicked => exact absurd rfl hp
  | unreachable => exact absurd hr (h.reachable i armed)
  | returned result =>
    cases result with
    | ok v => exact ⟨v, rfl⟩
    | error err =>
      have hfits := h.fits i
      simp [hr, Phase.fits, hf] at hfits

theorem reachable_setCall (h : ∀ i armed, (t.calls i).phase ≠ .finished armed .unreachable)
    (hc : ∀ armed, c.phase ≠ .finished armed .unreachable) :
    ∀ j armed, ((t.setCall i c).calls j).phase ≠ .finished armed .unreachable :=
  forall_setCall (P := fun _ c => ∀ armed, c.phase ≠ .finished armed .unreachable) hc fun j _ => h j

theorem Opened.step (h : t.Opened kinds) (hstep : Step kinds t a t') (hremove : a ≠ .remove) :
    t'.Opened kinds := by
  refine ⟨h.fits.step hstep, ?_⟩
  cases hstep with
  | quiet => exact h.opened
  | make | raceMake => exact fun _ => by simp [openEntry, setEntry, KeyView.setCall]
  | park hc hv hn | claim hc hv hn | raceJoin hc hv hn =>
    intro _
    have hiff := h.opened hv
    rw [hn] at hiff
    simpa [setEntry, KeyView.setCall] using hiff
  | leave hc hn =>
    intro hv
    have hiff := h.opened hv
    rw [hn] at hiff
    simpa [setEntry, KeyView.setCall, KeyView.wake] using hiff
  | store | storeBare | insert => exact fun hv => by cases hv
  | remove => exact absurd rfl hremove

theorem Returning.step (h : t.Returning kinds) (hrace : ∀ i, (kinds i).race = true)
    (hstep : Step kinds t a t') (hremove : a ≠ .remove) (hok : t.notFirst a = true) :
    t'.Returning kinds := by
  refine ⟨h.toOpened.step hstep hremove, ?_⟩
  cases hstep with
  | quiet hl => exact reachable_setCall h.reachable fun _ => hl.reachable
  | @storeBare i a v armed hends hv hn =>
    exfalso
    rcases ends_iff.mp hends with ⟨rfl, hp, rfl⟩ | ⟨w, rfl, hp⟩
    · have hfits := h.fits i
      simp [hp, Phase.fits, hrace i] at hfits
    · simp [notFirst, hp, hv, (h.opened hv).mp hn] at hok
  | remove | insert => exact h.reachable
  | _ => exact reachable_setCall h.reachable (by simp)

end KeyView

/-! ## Runs -/

namespace State

variable {kinds : ι → Kind} {key : K} {s s' : State K V E ι}

open KeyView

omit [DecidableEq ι] in
theorem covered_init (kinds : ι → Kind) (n : ℕ+) (hasher : K → UInt64) :
    ((State.init n hasher : State K V E ι).view key).Covered kinds where
  fits _ := rfl
  covered _ hc := by cases hc
  reachable _ _ _ hc := by cases hc

omit [DecidableEq ι] in
theorem opened_init (kinds : ι → Kind) (n : ℕ+) (hasher : K → UInt64) :
    ((State.init n hasher : State K V E ι).view key).Opened kinds where
  fits _ := rfl
  opened _ := by simp [view, State.init]

omit [DecidableEq ι] in
theorem returning_init (kinds : ι → Kind) (n : ℕ+) (hasher : K → UInt64) :
    ((State.init n hasher : State K V E ι).view key).Returning kinds where
  toOpened := opened_init kinds n hasher
  reachable _ _ hc := by cases hc

theorem unreachable_of_bare {a : Label V E ι} (h : (s.view key).Covered kinds)
    (hok : (s.view key).notBare a = false) :
    ∃ s', s.step kinds key a = some s' ∧ ¬(s'.view key).CoopReachable kinds := by
  cases a with
  | complete i =>
    simp only [notBare] at hok
    split at hok
    · rename_i v hp
      obtain ⟨hv, hn⟩ := view_bare (by simpa using hok)
      obtain ⟨s', hstep⟩ := exists_complete kinds key hp
      have hends : Ends i ((s.view key).calls i).phase (.complete i) (.ok v) true := by
        rw [hp]
        exact .complete _
      obtain ⟨-, -, hphase⟩ := (step_view hstep).stores hends hv
      rw [if_pos hn] at hphase
      have hfits := h.fits i
      simp only [hp, Phase.fits, Bool.and_eq_true, Bool.not_eq_true'] at hfits
      exact ⟨s', hstep, fun hreach => hreach i true hfits.1 hphase⟩
    · cases hok
  | _ => cases hok

/-- The poll of a racing call that finds its future ready ends: with what is stored, else with what
the future gave, or in `unreachable!` if it stores a value before any entry was made. -/
theorem race_of_ready (h : (s.view key).Opened kinds) {i : ι} {joined : Bool} {out : Except E V}
    (hp : (s.calls i).phase = .polled joined (some out)) (w : Waker) :
    ∃ s', s.step kinds key (.race i w) = some s' ∧ (s'.calls i).phase = .finished joined
      (if (s.view key).notFirst (.race i w) then .returned ((s.map.get key).elim out .ok)
        else .unreachable) := by
  have hview : ((s.view key).calls i).phase = .polled joined (some out) := hp
  cases hv : s.map.get key with
  | some v =>
    have hvalue : (s.view key).value = some v := hv
    have hok : (s.view key).notFirst (.race i w) = true := by simp [notFirst, hview, hvalue]
    refine ⟨_, by simp only [step, race, hp, RaceInner.poll, hv]; rfl, ?_⟩
    rw [if_pos hok]
    simp [write, Call.wake, GetOrTryInsertRace.complete, GetOrTryInsertFuture.complete]
  | none =>
    have hvalue : (s.view key).value = none := hv
    cases out with
    | error err =>
      have hok : (s.view key).notFirst (.race i w) = true := by simp [notFirst, hview]
      refine ⟨_, by simp only [step, race, hp, RaceInner.poll, hv]; rfl, ?_⟩
      rw [if_pos hok]
      simp [write, Call.wake, GetOrTryInsertRace.complete, GetOrTryInsertFuture.complete]
    | ok v =>
      obtain ⟨s', hstep⟩ := exists_race kinds key hp w
      have hends : Ends i ((s.view key).calls i).phase (.race i w) (.ok v) joined := by
        rw [hview]
        exact .race _ _ _
      obtain ⟨-, -, hphase⟩ := (step_view hstep).stores hends hvalue
      have hok : (s.view key).notFirst (.race i w) = true ↔ (s.view key).entry ≠ none := by
        simp [notFirst, hview, hvalue, (h.opened hvalue).not]
      refine ⟨s', hstep, hphase.trans (congrArg _ ?_)⟩
      by_cases hn : (s.view key).entry = none
      · rw [if_pos hn, if_neg fun hfirst => hok.mp hfirst hn]
      · rw [if_neg hn, if_pos (hok.mpr hn)]
        rfl

theorem unreachable_of_first {a : Label V E ι} (h : (s.view key).Opened kinds)
    (hok : (s.view key).notFirst a = false) :
    ∃ s', s.step kinds key a = some s' ∧ ¬(s'.view key).AllReturn kinds := by
  cases a with
  | race i w =>
    have hfirst := hok
    simp only [notFirst] at hfirst
    split at hfirst
    · rename_i joined v hp hv
      obtain ⟨s', hstep, hphase⟩ := race_of_ready h hp w
      rw [hok] at hphase
      exact ⟨s', hstep, fun hret => (hret i joined _ hphase).1 rfl⟩
    · cases hfirst
  | _ => cases hok

end State

/-- **Cooperative completion.** In any run, no cooperative call reaches `unreachable!` exactly if
none completes with a value on a key that a `remove` left bare. -/
theorem coop_never_unreachable_iff (kinds : ι → Kind) (key : K) (n : ℕ+) (hasher : K → UInt64)
    (as : List (Label V E ι)) :
    Trace.Always (State.step kinds key) (fun s => (s.view key).CoopReachable kinds)
        (State.init n hasher) as ↔
      Trace.Each (State.step kinds key) (fun s a => (s.view key).notBare a = true)
        (State.init n hasher) as :=
  Trace.always_iff_each (fun s (h : (s.view key).Covered kinds) => h.reachable)
    (fun _ _ _ h _ hok hstep => h.step (State.step_view hstep) hok)
    (fun _ _ h _ hok => State.unreachable_of_bare h (Bool.eq_false_iff.mpr hok))
    (State.covered_init kinds n hasher) (Trace.each_of_forall fun _ _ => trivial)

/-- Call 0 works, call 1 races it, stores its value and deletes the entry, and the value is
removed. When call 0 completes, it reaches `unreachable!`. -/
theorem coop_unreachable :
    ∃ s : State ℕ ℕ ℕ (Fin 2),
      Trace.run (State.step (fun i => if i = 0 then .getOrInsert else .getOrInsertRace) 0)
        (State.init 1 fun _ => 0)
        [.start 0, .wait 0 0, .init 0 true, .start 1, .init 1 true, .poll 1 (.ready (.ok 7)),
          .race 1 1, .drop 1, .remove, .poll 0 (.ready (.ok 8)), .complete 0] = some s ∧
      (s.calls 0).phase = .finished true .unreachable ∧ s.map.get 0 = some 8 :=
  ⟨_, rfl, by decide, by decide⟩

/-- **Racing completion.** In a run of racing calls without a `remove`, no call reaches
`unreachable!`, and every call whose future cannot fail ends with a value or a panic of its
future, exactly if the first result that finds nothing stored is preceded by a pending one. Wherever
the run leads, a poll that finds its future ready ends the call, and it returns what is stored or
what the future gave, unless it is such a first result. -/
theorem race_never_unreachable_iff (kinds : ι → Kind) (hrace : ∀ i, (kinds i).race = true) (key : K)
    (n : ℕ+) (hasher : K → UInt64) (as : List (Label V E ι)) (hremove : .remove ∉ as) :
    (Trace.Always (State.step kinds key) (fun s => (s.view key).AllReturn kinds)
        (State.init n hasher) as ↔
      Trace.Each (State.step kinds key) (fun s a => (s.view key).notFirst a = true)
        (State.init n hasher) as) ∧
      ∀ s, Trace.run (State.step kinds key) (State.init n hasher) as = some s →
        ∀ i joined out w, (s.calls i).phase = .polled joined (some out) →
          ∃ s', s.step kinds key (.race i w) = some s' ∧ (s'.calls i).phase = .finished joined
            (if (s.view key).notFirst (.race i w) then .returned ((s.map.get key).elim out .ok)
              else .unreachable) := by
  have henv : Trace.Each (State.step kinds key) (fun _ a => a ≠ .remove) (State.init n hasher) as :=
    Trace.each_of_forall fun _ ha heq => hremove (heq ▸ ha)
  constructor
  · exact Trace.always_iff_each (fun s (h : (s.view key).Returning kinds) => h.allReturn)
      (fun _ _ _ h hne hok hstep => h.step hrace (State.step_view hstep) hne hok)
      (fun _ _ h _ hok => State.unreachable_of_first h.toOpened (Bool.eq_false_iff.mpr hok))
      (State.returning_init kinds n hasher) henv
  · intro s hrun i joined out w hp
    have hopened := Trace.inv_of_each (P := fun s => (s.view key).Opened kinds)
      (fun _ _ _ h hne hstep => h.step (State.step_view hstep) hne)
      (State.opened_init kinds n hasher) henv hrun
    exact State.race_of_ready hopened hp w

/-- The future of call `false` is pending once, and call `true` stores 7 before it is ready. -/
def pendingOnce : List (Label ℕ ℕ Bool) :=
  [.start false, .init false true, .poll false .pending, .race false 0, .start true,
    .init true true, .poll true (.ready (.ok 7)), .race true 1, .poll false (.ready (.ok 8))]

theorem race_never_unreachable_pending :
    Trace.Always (State.step (fun _ => .getOrInsertRace) 0)
        (fun s => (s.view 0).AllReturn fun _ => .getOrInsertRace)
        (State.init 1 fun _ => 0 : State ℕ ℕ ℕ Bool) pendingOnce ∧
      ∃ s s' : State ℕ ℕ ℕ Bool,
        Trace.run (State.step (fun _ => .getOrInsertRace) 0) (State.init 1 fun _ => 0)
          pendingOnce = some s ∧
        s.step (fun _ => .getOrInsertRace) 0 (.race false 0) = some s' ∧
        (s'.calls false).phase = .finished false (.returned (.ok 7)) := by
  obtain ⟨hiff, hready⟩ := race_never_unreachable_iff (K := ℕ) (fun _ => .getOrInsertRace)
    (fun _ => rfl) 0 1 (fun _ => 0) pendingOnce (by decide)
  obtain ⟨s', hstep, hphase⟩ := hready _ rfl false false (.ok 8) 0 rfl
  exact ⟨hiff.mpr (by decide), _, s', rfl, hstep, hphase⟩

/-- The future of a racing call is ready at its first poll. -/
theorem race_unreachable :
    ∃ s : State ℕ ℕ ℕ (Fin 1),
      Trace.run (State.step (fun _ => .getOrInsertRace) 0) (State.init 1 fun _ => 0)
        [.start 0, .init 0 true, .poll 0 (.ready (.ok 7)), .race 0 0] = some s ∧
      (s.calls 0).phase = .finished false .unreachable :=
  ⟨_, rfl, by decide⟩

end LightCache
