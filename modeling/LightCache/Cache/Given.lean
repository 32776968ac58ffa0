import LightCache.Cache.WholeKeys

/-!
# Where values come from

The values that the calls of a key return, and the value that the table holds for it, were given by
the future of one of its calls or by a direct insert of the key: under any policy, and whatever the
calls of other keys and the direct operations do at the same time, as long as no insert of a call
panics.

Main result: `values_given`.
-/

namespace LightCache

variable {P K V E ι τ : Type} [DecidableEq K] [DecidableEq ι]

/-- The value that a call has, or returned. -/
def Phase.value : Phase V E → Option V
  | .ready (.ok value) | .polled _ (some (.ok value)) | .finished _ (.returned (.ok value)) =>
    some value
  | _ => none

/-- The value that a step brings in. -/
def Label.value : Label V E ι → Option V
  | .poll _ (.ready (.ok value)) | .insert value => some value
  | _ => none

omit [DecidableEq K] [DecidableEq ι] in
theorem eq_of_value_finished {armed : Bool} {c : Completion (Except E V)} {v : V}
    (h : (Phase.finished armed c).value = some v) : c = .returned (.ok v) := by
  cases c with
  | returned out =>
    cases out with
    | ok v' => rw [show v' = v from Option.some.inj h]
    | error err => cases h
  | _ => cases h

namespace KeyView

variable {kinds : ι → Kind} {t t' : KeyView V E ι} {i : ι} {a : Label V E ι} {c c' : Call V E}
variable {G : V → Prop}

/-- All values are among `G`. -/
structure Given (G : V → Prop) (t : KeyView V E ι) : Prop where
  value : ∀ v, t.value = some v → G v
  calls : ∀ i v, (t.calls i).phase.value = some v → G v

omit [DecidableEq ι] in
theorem Ends.given {out : Except E V} {armed : Bool} {v : V} (h : Ends i c.phase a out armed)
    (hout : out = .ok v) : c.phase.value = some v := by
  subst hout
  generalize c.phase = p at h ⊢
  cases h <;> rfl

omit [DecidableEq ι] in
/-- What a call has after a step that leaves the key alone it had before, or it found it in the
table, or its future gave it. -/
theorem Local.given {kind : Kind} {value : Option V} {entry : Option Wakers} {v : V}
    (h : Local kind i value entry c a c') (hc' : c'.phase.value = some v) :
    c.phase.value = some v ∨ value = some v ∨ a.value = some v := by
  cases h with
  | hit hc hv | got hc hv | gotReady h hv | raceGot hc hv =>
    right; left
    cases hc'
    exact hv
  | ready hc hout | raceReady hc hout =>
    right; right
    rename_i out
    cases out with
    | ok v' => exact hc'
    | error err => cases hc'
  | miss hc hv =>
    cases hr : kind.race <;> simp [hr, Phase.value] at hc'
  | pending hc => exact Or.inl hc'
  | _ => cases hc'

theorem Given.setCall (h : t.Given G) (hc : ∀ v, c.phase.value = some v → G v) (j : ι) :
    ∀ v, ((t.setCall i c).calls j).phase.value = some v → G v :=
  forall_setCall (P := fun _ c => ∀ v, c.phase.value = some v → G v) hc (fun j _ => h.calls j) j

theorem Given.step (h : t.Given G) (hstep : Step kinds t a t') (ha : ∀ v, a.value = some v → G v) :
    t'.Given G := by
  cases hstep with
  | quiet hl =>
    refine ⟨h.value, h.setCall fun v hv => ?_⟩
    rcases hl.given hv with hv | hv | hv
    · exact h.calls _ v hv
    · exact h.value v hv
    · exact ha v hv
  | park | claim | make | raceJoin | raceMake =>
    exact ⟨h.value, h.setCall fun v hv => by cases hv⟩
  | store hends =>
    have hv := h.calls _ _ (hends.given rfl)
    refine ⟨fun v hv' => Option.some.inj hv' ▸ hv, h.setCall fun v hv' => ?_⟩
    exact Option.some.inj hv' ▸ hv
  | storeBare hends =>
    have hv := h.calls _ _ (hends.given rfl)
    exact ⟨fun v hv' => Option.some.inj hv' ▸ hv, h.setCall fun v hv' => by cases hv'⟩
  | leave => exact ⟨h.value, h.setCall fun v hv => by cases hv⟩
  | remove => exact ⟨fun v hv => (by cases hv), h.calls⟩
  | insert => exact ⟨fun v hv => ha v hv, h.calls⟩

end KeyView

omit [DecidableEq ι] in
theorem complete_given {m : LightMap K V} {key : K} {out : Except E V} {G : V → Prop}
    (hm : ∀ v, m.get key = some v → G v) (hout : ∀ v, out = .ok v → G v) :
    (∀ v, (GetOrTryInsertFuture.complete m key (.insert out)).2.2.get key = some v → G v) ∧
      ∀ v, (GetOrTryInsertFuture.complete m key (.insert out)).1 = .returned (.ok v) → G v := by
  cases out with
  | error err => exact ⟨hm, fun v hv => by cases hv⟩
  | ok v =>
    simp only [GetOrTryInsertFuture.complete, insertValue_eq]
    constructor
    · intro v' hv'
      rw [LightMap.get_removeWaiters, LightMap.get_insert, if_pos rfl] at hv'
      exact hout v' (by rw [Option.some.inj hv'])
    · intro v' hv'
      split_ifs at hv'
      · cases hv'
        exact hout v rfl
      · cases hv'

namespace OverlapState

variable {kinds : ι → Kind} {key : K} {s s' : OverlapState K V E ι} {a : OverlapLabel V E ι}
variable {G : V → Prop}

/-- All values are among `G`. -/
structure Given (key : K) (G : V → Prop) (s : OverlapState K V E ι) : Prop where
  view : (s.view key).Given G
  guard : ∀ g v, s.guard = some g → g.out = .ok v → G v

omit [DecidableEq ι] in
theorem completes_value {t : State K V E ι} {b : Label V E ι} {g : Guard V E ι} {v : V}
    (h : t.completes b = some g) (hv : g.out = .ok v) :
    (t.calls g.call).phase.value = some v := by
  cases b with
  | complete i | race i w =>
    simp only [State.completes] at h
    split at h
    · next hphase =>
      obtain rfl := Option.some.inj h
      obtain rfl := hv
      rw [hphase]
      rfl
    · cases h
  | _ => cases h

theorem Given.step (h : s.Given key G) (hstep : s.step kinds key a = some s')
    (ha : ∀ b v, a = .step b → b.value = some v → G v) : s'.Given key G := by
  cases a with
  | step b =>
    rcases step_cases hstep with ⟨b', hb', hstep, hguard, -⟩ | ⟨b', g, hb', hg, -, -, rfl⟩ |
      ⟨g, hb', -⟩
    · cases hb'
      exact ⟨h.view.step (State.step_view hstep) fun v => ha b v rfl, hguard ▸ h.guard⟩
    · refine ⟨h.view, fun g' v hg' hv => ?_⟩
      obtain rfl := Option.some.inj hg'
      exact h.view.calls _ v (completes_value hg hv)
    · cases hb'
  | insertOut =>
    rw [OverlapState.step, insertOut] at hstep
    cases hg : s.guard with
    | none =>
      rw [hg] at hstep
      cases hstep
    | some g =>
      rw [hg] at hstep
      obtain rfl := Option.some.inj hstep
      obtain ⟨hmap, hcompletion⟩ := complete_given h.view.value fun v hv => h.guard g v hg hv
      refine ⟨⟨hmap, fun i v hv => ?_⟩, fun g' v hg' => by cases hg'⟩
      replace hv : (Function.update s.calls g.call _ i).phase.value = some v := hv
      rw [Function.update_apply] at hv
      split_ifs at hv
      · exact hcompletion v (eq_of_value_finished hv)
      · exact h.view.calls i v hv

end OverlapState

/-- The value was given by the future of a call on `key`, or by a direct insert of it. -/
def Gives (ls : List (WholeLabel K V E ι τ)) (key : K) (v : V) : Prop :=
  (∃ i, .call key (.poll i (.ready (.ok v))) ∈ ls) ∨
    ∃ j rd, .thread (.lock j rd (.insert key v)) ∈ ls

omit [DecidableEq K] [DecidableEq ι] in
theorem gives_of_comes {ls : List (WholeLabel K V E ι τ)} {key : K} {b : Label V E ι} {v : V}
    (h : WholeState.Comes ls key (.step b)) (hv : b.value = some v) : Gives ls key v := by
  cases b with
  | poll i r =>
    cases r with
    | ready out =>
      cases out with
      | ok v' => exact Or.inl ⟨i, Option.some.inj hv ▸ h⟩
      | error err => cases hv
    | _ => cases hv
  | insert v' => exact Or.inr (Option.some.inj hv ▸ h)
  | _ => cases hv

/-- All the values in the table and in the calls were given. -/
theorem WholeState.gives_of_run [DecidableEq τ] [Policy P K V] [Sectioned P K V]
    {kinds : K → ι → Kind} (policy : P) (n : ℕ+) (hasher : K → UInt64)
    {ls : List (WholeLabel K V E ι τ)} {s : WholeState P K V E ι τ}
    (hrun : Trace.run (WholeState.step kinds) (WholeState.start policy n hasher) ls = some s)
    (hreturns : Trace.Each (WholeState.step kinds) (fun s a => s.returns a = true)
      (WholeState.start policy n hasher) ls) (key : K) :
    (∀ v, s.map.get key = some v → Gives ls key v) ∧
      ∀ i v, (s.calls key i).phase.value = some v → Gives ls key v := by
  obtain ⟨bs, t, hbs, hrun', hsees⟩ := exists_sees policy n hasher hrun hreturns key
  have hstart : (OverlapState.init n hasher : OverlapState K V E ι).Given key (Gives ls key) :=
    ⟨⟨fun v hv => by simp [State.view, OverlapState.init, State.init] at hv,
      fun i v hv => by cases hv⟩, fun g v hg => by cases hg⟩
  have hkeep (t : OverlapState K V E ι) (b : OverlapLabel V E ι) (t' : OverlapState K V E ι)
      (h : t.Given key (Gives ls key)) (hb : Comes ls key b)
      (hstep : t.step (kinds key) key b = some t') : t'.Given key (Gives ls key) := by
    refine h.step hstep fun b' v hb' hv => ?_
    subst hb'
    exact gives_of_comes hb hv
  have hgiven := Trace.inv_of_each hkeep hstart (Trace.each_of_forall hbs) hrun'
  constructor
  · intro v hv
    exact hgiven.view.value v (hsees.same.map.get.symm.trans hv)
  · intro i v hv
    refine hgiven.view.calls i v ?_
    show (t.calls i).phase.value = some v
    rw [← hsees.same.calls]
    exact hv

end LightCache
