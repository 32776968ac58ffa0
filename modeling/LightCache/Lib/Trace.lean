import Mathlib.Algebra.GroupWithZero.Nat
import Mathlib.Data.List.Forall2
import Mathlib.Data.List.Induction
import Mathlib.Logic.Function.Basic

/-!
# Runs of a labelled transition system

A system is a function `step : σ → α → Option σ`: what the label `a` does in the state `s`,
or `none` if it cannot happen there. A run is a list of labels. `Each ok` says that every step
a run takes is allowed by `ok`, and `Always P` that `P` holds in every state it visits.

Main results: the rules a development about runs needs. `inv_of_each` carries an invariant to
the end of an allowed run, and `history` one that mentions the run. `exists_run` shows in
addition that an allowed run is not stuck, `always_of_each` that a property holds throughout an
allowed run, and `always_iff_each` that it does exactly when each step of the run is allowed.
`length_le_of_measure` bounds the runs of a system with a measure, and `exists_quiet` leads them to
a state in which nothing is left to do. `recording` adds a history variable to a system, for
properties that the states alone do not show. `Parts` is a system of independent parts: its runs are
the interleavings of theirs. `outputs_eq` compares two systems by what they return.
-/

namespace Trace

variable {σ α : Type*} (step : σ → α → Option σ)

/-- The state after a run. -/
def run : σ → List α → Option σ
  | s, [] => some s
  | s, a :: as => (step s a).bind fun s' => run s' as

/-- Every step of the run is allowed where it is taken. -/
def Each (ok : σ → α → Prop) : σ → List α → Prop
  | _, [] => True
  | s, a :: as => ok s a ∧ ∀ s', step s a = some s' → Each ok s' as

/-- Every state of the run satisfies `P`. -/
def Always (P : σ → Prop) : σ → List α → Prop
  | s, [] => P s
  | s, a :: as => P s ∧ ∀ s', step s a = some s' → Always P s' as

instance decidableEach (ok : σ → α → Prop) [∀ s a, Decidable (ok s a)] :
    ∀ s as, Decidable (Each step ok s as)
  | _, [] => isTrue trivial
  | s, a :: as =>
    have := fun s' => decidableEach ok s' as
    inferInstanceAs (Decidable (ok s a ∧ ∀ s' ∈ step s a, Each step ok s' as))

instance decidableAlways (P : σ → Prop) [∀ s, Decidable (P s)] :
    ∀ s as, Decidable (Always step P s as)
  | s, [] => inferInstanceAs (Decidable (P s))
  | s, a :: as =>
    have := fun s' => decidableAlways P s' as
    inferInstanceAs (Decidable (P s ∧ ∀ s' ∈ step s a, Always step P s' as))

variable {step} {ok ok' : σ → α → Prop} {P : σ → Prop} {s s' t : σ} {a : α} {as bs : List α}

@[simp] theorem run_nil : run step s [] = some s := rfl

theorem run_cons_eq_some :
    run step s (a :: as) = some t ↔ ∃ s', step s a = some s' ∧ run step s' as = some t :=
  Option.bind_eq_some_iff

theorem run_singleton : run step s [a] = step s a := Option.bind_fun_some (step s a)

theorem run_append : run step s (as ++ bs) = (run step s as).bind fun s' => run step s' bs := by
  induction as generalizing s with
  | nil => rfl
  | cons a as ih =>
    simp only [List.cons_append, run]
    cases step s a with
    | none => rfl
    | some s' => exact ih

theorem Each.and (h : Each step ok s as) (h' : Each step ok' s as) :
    Each step (fun s a => ok s a ∧ ok' s a) s as := by
  induction as generalizing s with
  | nil => trivial
  | cons a as ih => exact ⟨⟨h.1, h'.1⟩, fun s' hs => ih (h.2 s' hs) (h'.2 s' hs)⟩

theorem Each.at (h : Each step ok s (as ++ a :: bs)) (hrun : run step s as = some t) : ok t a := by
  induction as generalizing s with
  | nil =>
    obtain rfl := Option.some.inj hrun
    exact h.1
  | cons b as ih =>
    obtain ⟨s', hs', hrun⟩ := run_cons_eq_some.mp hrun
    exact ih (h.2 s' hs') hrun

theorem each_of_forall {ok : α → Prop} (h : ∀ a ∈ as, ok a) :
    Each step (fun _ a => ok a) s as := by
  induction as generalizing s with
  | nil => trivial
  | cons a as ih =>
    exact ⟨h a List.mem_cons_self, fun s' _ => ih fun b hb => h b (List.mem_cons_of_mem _ hb)⟩

theorem Always.head (h : Always step P s as) : P s := by
  cases as with
  | nil => exact h
  | cons a as => exact h.1

/-- What allowed steps preserve holds at the end of an allowed run. -/
theorem inv_of_each (hstep : ∀ s a s', P s → ok s a → step s a = some s' → P s')
    (hs : P s) (hok : Each step ok s as) (hrun : run step s as = some t) : P t := by
  induction as generalizing s with
  | nil =>
    obtain rfl := Option.some.inj hrun
    exact hs
  | cons a as ih =>
    obtain ⟨s', hs', hrun⟩ := run_cons_eq_some.mp hrun
    exact ih (hstep s a s' hs hok.1 hs') (hok.2 s' hs') hrun

/-- What every step preserves of the state and the steps taken so far. -/
theorem history {H : List α → σ → Prop} (hnil : H [] s)
    (hstep : ∀ as s a s', H as s → step s a = some s' → H (as ++ [a]) s')
    (hrun : run step s as = some t) : H as t := by
  induction as using List.reverseRecOn generalizing t with
  | nil =>
    obtain rfl := Option.some.inj hrun
    exact hnil
  | append_singleton as a ih =>
    rw [run_append, Option.bind_eq_some_iff] at hrun
    obtain ⟨s', hs', hrun⟩ := hrun
    obtain ⟨t', ht', hrun⟩ := run_cons_eq_some.mp hrun
    obtain rfl := Option.some.inj hrun
    exact hstep as s' a t' (ih hs') ht'

/-- Allowed steps that can always be taken make an allowed run succeed. -/
theorem exists_run (hstep : ∀ s a, P s → ok s a → ∃ s', step s a = some s' ∧ P s')
    (hs : P s) (hok : Each step ok s as) : ∃ t, run step s as = some t ∧ P t := by
  induction as generalizing s with
  | nil => exact ⟨s, rfl, hs⟩
  | cons a as ih =>
    obtain ⟨s', hs', hP⟩ := hstep s a hs hok.1
    obtain ⟨t, hrun, ht⟩ := ih hP (hok.2 s' hs')
    exact ⟨t, run_cons_eq_some.mpr ⟨s', hs', hrun⟩, ht⟩

/-- What an invariant gives holds throughout an allowed run. -/
theorem always_of_each {I : σ → Prop} (hP : ∀ s, I s → P s)
    (hkeep : ∀ s a s', I s → ok s a → step s a = some s' → I s') (hs : I s)
    (hok : Each step ok s as) : Always step P s as := by
  induction as generalizing s with
  | nil => exact hP s hs
  | cons a as ih =>
    exact ⟨hP s hs, fun s' hs' => ih (hkeep s a s' hs hok.1 hs') (hok.2 s' hs')⟩

/-- Under assumptions `A` on a run, a property that allowed steps keep, with the help of an
invariant, and that every other step breaks holds throughout the run exactly when each of its
steps is allowed. -/
theorem always_iff_each {I : σ → Prop} {A : σ → α → Prop} (hP : ∀ s, I s → P s)
    (hkeep : ∀ s a s', I s → A s a → ok s a → step s a = some s' → I s')
    (hbreak : ∀ s a, I s → A s a → ¬ok s a → ∃ s', step s a = some s' ∧ ¬P s')
    (hs : I s) (henv : Each step A s as) :
    Always step P s as ↔ Each step ok s as := by
  constructor
  · intro halways
    induction as generalizing s with
    | nil => trivial
    | cons a as ih =>
      obtain ⟨-, hnext⟩ := halways
      have hok : ok s a := by
        by_contra hnot
        obtain ⟨s', hs', hbad⟩ := hbreak s a hs henv.1 hnot
        exact hbad (hnext s' hs').head
      exact ⟨hok, fun s' hs' =>
        ih (hkeep s a s' hs henv.1 hok hs') (henv.2 s' hs') (hnext s' hs')⟩
  · intro hok
    exact always_of_each hP (fun s a s' hs hboth => hkeep s a s' hs hboth.1 hboth.2) hs
      (henv.and hok)

/-- What holds of every allowed step where an invariant does holds of the steps of an allowed
run. -/
theorem Each.imp {I : σ → Prop} (h : Each step ok s as)
    (hstep : ∀ s a s', I s → ok s a → step s a = some s' → I s')
    (himp : ∀ s a, I s → ok s a → ok' s a) (hs : I s) : Each step ok' s as := by
  induction as generalizing s with
  | nil => trivial
  | cons a as ih =>
    exact ⟨himp s a hs h.1, fun s' hs' => ih (h.2 s' hs') (hstep s a s' hs h.1 hs')⟩

/-- Conditions that agree where an invariant holds agree along a run. -/
theorem each_congr {I : σ → Prop} {A : σ → α → Prop}
    (hstep : ∀ s a s', I s → A s a → step s a = some s' → I s')
    (hiff : ∀ s a, I s → A s a → (ok s a ↔ ok' s a)) (hs : I s)
    (henv : Each step A s as) : Each step ok s as ↔ Each step ok' s as := by
  induction as generalizing s with
  | nil => exact Iff.rfl
  | cons a as ih =>
    apply and_congr (hiff s a hs henv.1)
    exact forall_congr' fun s' => imp_congr_right fun hs' =>
      ih (hstep s a s' hs henv.1 hs') (henv.2 s' hs')

/-- The condition on a run carries over to a related system. The relation may say something of what
is left of the run. -/
theorem Each.of_related {τ : Type*} {step' : τ → α → Option τ} {ok' : τ → α → Prop}
    {R : List α → σ → τ → Prop} {t : τ}
    (hok : ∀ s t a as, R (a :: as) s t → ok s a → ok' t a)
    (hstep : ∀ s t a as t', R (a :: as) s t → step' t a = some t' →
      ∃ s', step s a = some s' ∧ R as s' t')
    (hR : R as s t) (h : Each step ok s as) : Each step' ok' t as := by
  induction as generalizing s t with
  | nil => trivial
  | cons a as ih =>
    refine ⟨hok s t a as hR h.1, fun t' ht' => ?_⟩
    obtain ⟨s', hs', hR'⟩ := hstep s t a as t' hR ht'
    exact ih hR' (h.2 s' hs')

/-- A system whose steps are runs of another one has only runs of that one. -/
theorem exists_run_of_steps {τ β : Type*} {step' : τ → β → Option τ} {f : σ → τ}
    (hstep : ∀ s a s', step s a = some s' → ∃ bs, run step' (f s) bs = some (f s'))
    (hrun : run step s as = some t) : ∃ bs, run step' (f s) bs = some (f t) := by
  induction as generalizing s with
  | nil =>
    obtain rfl := Option.some.inj hrun
    exact ⟨[], rfl⟩
  | cons a as ih =>
    obtain ⟨s', hs', hrun⟩ := run_cons_eq_some.mp hrun
    obtain ⟨bs, hbs⟩ := hstep s a s' hs'
    obtain ⟨bs', hbs'⟩ := ih hrun
    exact ⟨bs ++ bs', by rw [run_append, hbs]; exact hbs'⟩

/-- Where each allowed step is matched by a run of another system, with labels of a kind, so is a
run. -/
theorem simulate {τ β : Type*} {step' : τ → β → Option τ} {R : σ → τ → Prop} {x : τ}
    {B : β → Prop}
    (hstep : ∀ s x a s', R s x → ok s a → step s a = some s' →
      ∃ bs x', (∀ b ∈ bs, B b) ∧ run step' x bs = some x' ∧ R s' x')
    (hR : R s x) (hok : Each step ok s as) (hrun : run step s as = some t) :
    ∃ bs x', (∀ b ∈ bs, B b) ∧ run step' x bs = some x' ∧ R t x' := by
  induction as generalizing s x with
  | nil =>
    obtain rfl := Option.some.inj hrun
    exact ⟨[], x, fun b hb => absurd hb List.not_mem_nil, rfl, hR⟩
  | cons a as ih =>
    obtain ⟨s', hs', hrun⟩ := run_cons_eq_some.mp hrun
    obtain ⟨bs, x₁, hB, hbs, hR'⟩ := hstep s x a s' hR hok.1 hs'
    obtain ⟨bs', x', hB', hbs', hend⟩ := ih hR' (hok.2 s' hs') hrun
    refine ⟨bs ++ bs', x', fun b hb => ?_, by rw [run_append, hbs]; exact hbs', hend⟩
    exact (List.mem_append.mp hb).elim (hB b) (hB' b)

/-! ## Runs that end -/

section Measure

variable {μ : σ → ℕ}

/-- No allowed step can be taken. -/
def Quiet (step : σ → α → Option σ) (ok : σ → α → Prop) (s : σ) : Prop :=
  ∀ a, ok s a → step s a = none

/-- Where every step lowers a measure, up to what its label costs, a run is no longer than the
measure at its start and the costs of its labels. -/
theorem length_le_of_measure {cost : α → ℕ}
    (hstep : ∀ s a s', ok s a → step s a = some s' → μ s' + 1 ≤ μ s + cost a)
    (hok : Each step ok s as) (hrun : run step s as = some t) :
    as.length + μ t ≤ μ s + (as.map cost).sum := by
  induction as generalizing s with
  | nil =>
    obtain rfl := Option.some.inj hrun
    simp
  | cons a as ih =>
    obtain ⟨s', hs', hrun⟩ := run_cons_eq_some.mp hrun
    have hfirst := hstep s a s' hok.1 hs'
    have hrest := ih (hok.2 s' hs') hrun
    rw [List.length_cons, List.map_cons, List.sum_cons]
    omega

/-- Where every allowed step lowers a measure, allowed steps lead to a state without one. -/
theorem exists_quiet (hstep : ∀ s a s', P s → ok s a → step s a = some s' → P s')
    (hlt : ∀ s a s', P s → ok s a → step s a = some s' → μ s' < μ s) (hs : P s) :
    ∃ as t, Each step ok s as ∧ run step s as = some t ∧ Quiet step ok t := by
  induction hn : μ s using Nat.strongRecOn generalizing s with
  | ind n ih =>
    by_cases hquiet : Quiet step ok s
    · exact ⟨[], s, trivial, rfl, hquiet⟩
    · obtain ⟨a, ha, hsome⟩ : ∃ a, ok s a ∧ step s a ≠ none := by
        simpa only [Quiet, not_forall, exists_prop] using hquiet
      obtain ⟨s', hs'⟩ := Option.ne_none_iff_exists'.mp hsome
      obtain ⟨as, t, hok, hrun, ht⟩ := ih _ (hn ▸ hlt s a s' hs ha hs') (hstep s a s' hs ha hs') rfl
      refine ⟨a :: as, t, ⟨ha, fun s₁ hs₁ => ?_⟩, run_cons_eq_some.mpr ⟨s', hs', hrun⟩, ht⟩
      obtain rfl := Option.some.inj (hs'.symm.trans hs₁)
      exact hok

end Measure

/-! ## History variables -/

section Recording

variable {η : Type*} {h h' : η}

/-- The system with a history variable, which `upd` computes from the step taken and its own
last value. No step depends on it. -/
def recording (step : σ → α → Option σ) (upd : σ → α → σ → η → η) (x : σ × η) (a : α) :
    Option (σ × η) :=
  (step x.1 a).map fun s' => (s', upd x.1 a s' x.2)

variable {upd : σ → α → σ → η → η}

theorem recording_eq_some {x : σ × η} :
    recording step upd (s, h) a = some x ↔ step s a = some x.1 ∧ x.2 = upd s a x.1 h := by
  rw [recording, Option.map_eq_some_iff]
  constructor
  · intro hx
    obtain ⟨s', hs', rfl⟩ := hx
    exact ⟨hs', rfl⟩
  · intro hboth
    obtain ⟨hs', hx⟩ := hboth
    exact ⟨x.1, hs', by rw [← hx]⟩

end Recording

/-! ## Systems of independent parts -/

section Parts

variable {κ τ β : Type*} [DecidableEq κ] {step : σ → κ × β → Option σ}
variable {loc : κ → τ → β → Option τ} {R : κ → σ → τ → Prop} {ls : List (κ × β)} {k : κ} {x x' : τ}

/-- The steps of part `k` in a run. -/
def part (k : κ) (ls : List (κ × β)) : List β :=
  ls.filterMap fun l => if l.1 = k then some l.2 else none

theorem part_cons_self {b : β} : part k ((k, b) :: ls) = b :: part k ls := by
  simp [part]

theorem part_cons_of_ne {j : κ} {b : β} (h : j ≠ k) : part k ((j, b) :: ls) = part k ls := by
  simp [part, h]

/-- Each step is one of its part alone: `R k` relates what the system sees of part `k` to the
state of that part. -/
structure Parts (step : σ → κ × β → Option σ) (loc : κ → τ → β → Option τ)
    (R : κ → σ → τ → Prop) : Prop where
  own : ∀ k b s x s', R k s x → step s (k, b) = some s' → ∃ x', loc k x b = some x' ∧ R k s' x'
  other : ∀ j k b s x s', j ≠ k → R j s x → step s (k, b) = some s' → R j s' x
  enabled : ∀ k b s x x', R k s x → loc k x b = some x' → ∃ s', step s (k, b) = some s'

/-- Each part sees a run of its own. -/
theorem Parts.project (h : Parts step loc R) (hR : R k s x) (hrun : run step s ls = some t) :
    ∃ x', run (loc k) x (part k ls) = some x' ∧ R k t x' := by
  induction ls generalizing s x with
  | nil =>
    obtain rfl := Option.some.inj hrun
    exact ⟨x, rfl, hR⟩
  | cons l ls ih =>
    obtain ⟨j, b⟩ := l
    obtain ⟨s', hs', hrun⟩ := run_cons_eq_some.mp hrun
    by_cases hj : j = k
    · subst hj
      obtain ⟨x₁, hx₁, hR'⟩ := h.own j b s x s' hR hs'
      obtain ⟨x', hx', hend⟩ := ih hR' hrun
      rw [part_cons_self]
      exact ⟨x', run_cons_eq_some.mpr ⟨x₁, hx₁, hx'⟩, hend⟩
    · rw [part_cons_of_ne hj]
      exact ih (h.other k j b s x s' (Ne.symm hj) hR hs') hrun

/-- Runs of the parts, in any order, are a run of the system. -/
theorem Parts.compose (h : Parts step loc R) {f : κ → τ} (hR : ∀ k, R k s (f k))
    (hruns : ∀ k, ∃ x', run (loc k) (f k) (part k ls) = some x') :
    ∃ t, run step s ls = some t := by
  induction ls generalizing s f with
  | nil => exact ⟨s, rfl⟩
  | cons l ls ih =>
    obtain ⟨j, b⟩ := l
    obtain ⟨x', hx'⟩ := hruns j
    rw [part_cons_self] at hx'
    obtain ⟨x₁, hx₁, hx'⟩ := run_cons_eq_some.mp hx'
    obtain ⟨s', hs'⟩ := h.enabled j b s (f j) x₁ (hR j) hx₁
    obtain ⟨x₂, hx₂, hR'⟩ := h.own j b s (f j) s' (hR j) hs'
    obtain rfl := Option.some.inj (hx₁.symm.trans hx₂)
    have hall (k : κ) : R k s' (Function.update f j x₁ k) := by
      rcases eq_or_ne k j with rfl | hkj
      · rwa [Function.update_self]
      · rw [Function.update_of_ne hkj]
        exact h.other k j b s (f k) s' hkj (hR k) hs'
    obtain ⟨t, ht⟩ := ih hall fun k => by
      rcases eq_or_ne k j with rfl | hkj
      · rw [Function.update_self]
        exact ⟨x', hx'⟩
      · rw [Function.update_of_ne hkj]
        have hk := hruns k
        rwa [part_cons_of_ne hkj.symm] at hk
    exact ⟨t, run_cons_eq_some.mpr ⟨s', hs', ht⟩⟩

end Parts

/-! ## Outputs -/

section Outputs

variable {τ β γ : Type*}

/-- The outputs of a run of a system that is never stuck, and the state it ends in. -/
def outputs (step : σ → α → β × σ) : σ → List α → List β × σ
  | s, [] => ([], s)
  | s, a :: as =>
    let (bs, t) := outputs step (step s a).2 as
    ((step s a).1 :: bs, t)

variable {step : σ → α → β × σ} {step' : τ → α → γ × τ} {t : τ}

/-- Systems that give related outputs in related states, and stay related, have related outputs.
The relation of the states may say something of what is left of the run. -/
theorem outputs_forall₂ {R : List α → σ → τ → Prop} {O : β → γ → Prop}
    (hstep : ∀ s t a as, R (a :: as) s t →
      O (step s a).1 (step' t a).1 ∧ R as (step s a).2 (step' t a).2)
    (h : R as s t) :
    List.Forall₂ O (outputs step s as).1 (outputs step' t as).1 ∧
      R [] (outputs step s as).2 (outputs step' t as).2 := by
  induction as generalizing s t with
  | nil => exact ⟨.nil, h⟩
  | cons a as ih =>
    obtain ⟨hout, hnext⟩ := hstep s t a as h
    obtain ⟨houts, hend⟩ := ih hnext
    exact ⟨.cons hout houts, hend⟩

/-- Where the outputs are equal in related states, the systems have equal outputs. -/
theorem outputs_eq_of_rest {step' : τ → α → β × τ} {R : List α → σ → τ → Prop}
    (hstep : ∀ s t a as, R (a :: as) s t →
      (step s a).1 = (step' t a).1 ∧ R as (step s a).2 (step' t a).2)
    (h : R as s t) :
    (outputs step s as).1 = (outputs step' t as).1 ∧
      R [] (outputs step s as).2 (outputs step' t as).2 := by
  obtain ⟨houts, hend⟩ := outputs_forall₂ (O := Eq) hstep h
  exact ⟨List.forall₂_eq_eq_eq ▸ houts, hend⟩

theorem outputs_eq {step' : τ → α → β × τ} {R : σ → τ → Prop}
    (hstep : ∀ s t a, R s t → (step s a).1 = (step' t a).1 ∧ R (step s a).2 (step' t a).2)
    (h : R s t) :
    (outputs step s as).1 = (outputs step' t as).1 ∧
      R (outputs step s as).2 (outputs step' t as).2 :=
  outputs_eq_of_rest (R := fun _ => R) (fun s t a _ => hstep s t a) h

end Outputs

end Trace
