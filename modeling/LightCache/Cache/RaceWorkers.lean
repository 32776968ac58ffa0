import Mathlib.Data.Finset.Card
import LightCache.Cache.Workers

/-!
# The workers of a racing entry

Racing calls and cooperative calls share the worker count of an entry. Which calls it counts is
kept in a history variable, the registry: a call is registered when its section makes the entry
or raises the count. A racing call that makes the entry does not remember it. So it registers
once more when it is polled again, and its destructor does not give the slot back.

Main result: `race_accounting_iff`: these are the only ways in which the count goes wrong. That
it does shows `ghost_racer`.
-/

namespace LightCache

variable {K V E ι : Type} [DecidableEq K] [DecidableEq ι]

/-- The call was dropped. -/
def Phase.gone : Phase V E → Bool
  | .dropped => true
  | _ => false

/-- The call is past its lookup and its wait. -/
def Phase.registrable : Phase V E → Bool
  | .unpolled | .waiting _ | .calling => false
  | _ => true

/-- The call that takes the step. -/
def Label.caller : Label V E ι → Option ι
  | .start i | .wait i _ | .init i _ | .poll i _ | .complete i | .race i _ | .drop i => some i
  | .remove | .insert _ => none

/-- User code panics in the step. -/
def Label.panics : Label V E ι → Bool
  | .init _ false | .poll _ .panicked => true
  | _ => false

namespace KeyView

/-- The workers that the entry counts. -/
def workers (t : KeyView V E ι) : ℕ :=
  match t.entry with
  | some n => n.workers
  | none => 0

/-- The registry after a step from `t` to `t'`. -/
def register (t : KeyView V E ι) (a : Label V E ι) (t' : KeyView V E ι) (reg : Finset ι) :
    Finset ι :=
  match t'.entry, a.caller with
  | none, _ => ∅
  | some _, some i => if t.workers < t'.workers then insert i reg else reg
  | some _, none => reg

/-- The registered calls that were not dropped. -/
def live (t : KeyView V E ι) (reg : Finset ι) : Finset ι :=
  reg.filter fun i => (t.calls i).phase.gone = false

/-- The count of the entry is the number of registered calls that were not dropped. -/
def RegistryCounts (t : KeyView V E ι) (reg : Finset ι) : Prop :=
  ∀ n, t.entry = some n → (t.live reg).card = n.workers

/-- A registered call is not told again that its future is pending while it does not remember
that it joined, and it is not dropped with a destructor that leaves the entry alone. -/
def remembers (t : KeyView V E ι) (reg : Finset ι) : Label V E ι → Bool
  | .race i _ =>
    match (t.calls i).phase, t.value, t.entry with
    | .polled false none, none, some _ => i ∉ reg
    | _, _, _ => true
  | .drop i => !(t.calls i).phase.disarmed || t.entry = none || i ∉ reg
  | _ => true

/-- Registered calls are past their lookup and their wait, and the calls that hold a slot of the
entry are registered. There is one entry at most before a value is stored. -/
structure Enrolled (t : KeyView V E ι) (reg : Finset ι) : Prop where
  stored : t.entry ≠ none → t.value = none
  empty : ∀ i, t.value = none → t.entry = none → (t.calls i).phase.holds = false
  clear : t.entry = none → reg = ∅
  holders : ∀ i, t.entry ≠ none → (t.calls i).phase.holds = true → i ∈ reg
  members : ∀ i ∈ reg, (t.calls i).phase.registrable = true
  counts : t.RegistryCounts reg

variable {kinds : ι → Kind} {t t' : KeyView V E ι} {a : Label V E ι} {i j : ι} {c c' : Call V E}
variable {n : Wakers} {reg : Finset ι}

/-! ## The registry -/

omit [DecidableEq ι] in
theorem Ends.of_race {p : Phase V E} {out : Except E V} {armed : Bool} {w : Waker}
    (h : Ends j p (.race i w) out armed) : j = i ∧ p = .polled armed (some out) := by
  cases h with
  | race => exact ⟨rfl, rfl⟩

section Local

variable {kind : Kind} {value : Option V} {entry : Option Wakers}

omit [DecidableEq ι] in
theorem Local.not_gone (h : Local kind i value entry c a c') : c.phase.gone = false := by
  cases h with
  | gotReady hends | failed hends =>
    generalize c.phase = p at hends
    cases hends <;> rfl
  | drop hc | dropBare hc =>
    revert hc
    cases c.phase <;> simp [Phase.disarmed, Phase.armed, Phase.gone]
  | _ => simp_all [Phase.gone]

omit [DecidableEq ι] in
theorem Local.drop_of_gone (h : Local kind i value entry c a c') (ha : a.panics = false)
    (hc : c'.phase.gone = true) : a = .drop i ∧ (c.phase.disarmed = true ∨ entry = none) := by
  cases h with
  | miss => revert hc; cases kind.race <;> simp [Phase.gone]
  | pending hp => rw [hp] at hc; cases hc
  | initPanic | raceInitPanic => cases ha
  | drop hd => exact ⟨rfl, Or.inl hd⟩
  | dropBare _ hn => exact ⟨rfl, Or.inr hn⟩
  | _ => cases hc

omit [DecidableEq ι] in
theorem Local.registrable (h : Local kind i value entry c a c')
    (hc : c.phase.registrable = true) : c'.phase.registrable = true := by
  cases h with
  | pending => exact hc
  | _ => simp_all [Phase.registrable]

end Local

omit [DecidableEq ι] in
theorem workers_of_entry (hn : t.entry = some n) : t.workers = n.workers := by
  simp [workers, hn]

theorem register_of_le (hentry : t'.entry = none → reg = ∅) (hle : t'.workers ≤ t.workers) :
    t.register a t' reg = reg := by
  unfold register
  cases hn : t'.entry with
  | none => exact (hentry hn).symm
  | some n =>
    cases a.caller with
    | none => rfl
    | some i => exact if_neg (Nat.not_lt_of_le hle)

theorem register_of_lt (hn : t'.entry ≠ none) (ha : a.caller = some i)
    (hlt : t.workers < t'.workers) : t.register a t' reg = insert i reg := by
  obtain ⟨n, hn⟩ := Option.ne_none_iff_exists'.mp hn
  simp [register, hn, ha, hlt]

/-! ## The calls that are not dropped -/

omit [DecidableEq ι] in
theorem live_congr (h : ∀ j, (t'.calls j).phase = (t.calls j).phase) : t'.live reg = t.live reg :=
  Finset.filter_congr fun j _ => by rw [h j]

theorem live_setCall (hc : c.phase.gone = (t.calls i).phase.gone) :
    (t.setCall i c).live reg = t.live reg := by
  apply Finset.filter_congr
  intro j _
  rcases eq_or_ne j i with rfl | hji
  · rw [setCall_calls_self, hc]
  · rw [setCall_calls_of_ne hji]

theorem live_setCall_gone (hc : c.phase.gone = true) :
    (t.setCall i c).live reg = (t.live reg).erase i := by
  ext j
  rw [Finset.mem_erase, live, live, Finset.mem_filter, Finset.mem_filter]
  rcases eq_or_ne j i with rfl | hji
  · simp [hc]
  · rw [setCall_calls_of_ne hji]
    simp [hji]

/-! ## Steps -/

omit [DecidableEq ι] in
theorem Enrolled.workers_eq (h : t.Enrolled reg) : (t.live reg).card = t.workers := by
  cases hn : t.entry with
  | none => simp [workers, hn, live, h.clear hn]
  | some n => simp [workers, hn, h.counts n hn]

theorem Enrolled.change (h : t.Enrolled reg) (hvalue : t'.value = t.value)
    (hentry : t'.entry = none ↔ t.entry = none) (hle : t'.workers ≤ t.workers)
    (hphase : ∀ j, (t'.calls j).phase = ((t.setCall i c).calls j).phase)
    (hholds : c.phase.holds = true → (t.calls i).phase.holds = true)
    (hmember : i ∈ reg → c.phase.registrable = true) (hcounts : t'.RegistryCounts reg) :
    t'.Enrolled (t.register a t' reg) := by
  rw [register_of_le (fun hn => h.clear (hentry.mp hn)) hle]
  refine ⟨fun hn => hvalue.trans (h.stored (hentry.not.mp hn)), ?_,
    fun hn => h.clear (hentry.mp hn), ?_, ?_, hcounts⟩
  · intro j hv hn
    have hfree := fun j => h.empty j (hvalue ▸ hv) (hentry.mp hn)
    rw [hphase]
    refine forall_setCall (P := fun _ c => c.phase.holds = false) ?_ (fun j _ => hfree j) j
    exact Bool.eq_false_iff.mpr fun hc => Bool.eq_false_iff.mp (hfree i) (hholds hc)
  · intro j hn
    rw [hphase]
    exact forall_setCall (P := fun j c => c.phase.holds = true → j ∈ reg)
      (fun hc => h.holders i (hentry.not.mp hn) (hholds hc))
      (fun j _ => h.holders j (hentry.not.mp hn)) j
  · intro j hj
    rw [hphase]
    exact forall_setCall (P := fun j c => j ∈ reg → c.phase.registrable = true) hmember
      (fun j _ => h.members j) j hj

/-- A call that is not registered takes a slot of the entry, or makes the entry. -/
theorem Enrolled.enroll (h : t.Enrolled reg) (ha : a.caller = some i) (hi : i ∉ reg)
    (hv : t.value = none) (hgone : (t.calls i).phase.gone = false) (hvalue : t'.value = t.value)
    (hn : t'.entry ≠ none) (hworkers : t'.workers = t.workers + 1)
    (hcalls : t'.calls = (t.setCall i c).calls) (hc : c.phase.registrable = true)
    (hc' : c.phase.gone = false) : t'.Enrolled (t.register a t' reg) := by
  rw [register_of_lt hn ha (by omega)]
  have hlive : t'.live (insert i reg) = insert i (t.live reg) := by
    have hcongr : t'.live (insert i reg) = (t.setCall i c).live (insert i reg) :=
      live_congr fun j => by rw [hcalls]
    rw [hcongr, live_setCall (hc'.trans hgone.symm), live, Finset.filter_insert, if_pos hgone, live]
  refine ⟨fun _ => hvalue.trans hv, fun j _ hnone => absurd hnone hn,
    fun hnone => absurd hnone hn, ?_, ?_, ?_⟩
  · intro j _ hj
    rw [Finset.mem_insert]
    by_contra hnot
    rw [not_or] at hnot
    rw [hcalls, setCall_calls_of_ne hnot.1] at hj
    -- The holders of an entry that was made just now: the call alone.
    cases hnone : t.entry with
    | none =>
      rw [h.empty j hv hnone] at hj
      cases hj
    | some m => exact hnot.2 (h.holders j (by simp [hnone]) hj)
  · rw [hcalls]
    exact forall_setCall (P := fun j c => j ∈ insert i reg → c.phase.registrable = true)
      (fun _ => hc) fun j hji hj => h.members j ((Finset.mem_insert.mp hj).resolve_left hji)
  · intro m hm
    have hlive_i : i ∉ t.live reg := fun hmem => hi (Finset.mem_filter.mp hmem).1
    rw [hlive, Finset.card_insert_of_notMem hlive_i, h.workers_eq, ← hworkers, workers_of_entry hm]

theorem enrolled_of_none (hn : t'.entry = none) (hv : t'.value ≠ none) :
    t'.Enrolled (t.register a t' reg) := by
  have hreg : t.register a t' reg = ∅ := by simp [register, hn]
  rw [hreg]
  exact ⟨fun hn' => absurd hn hn', fun _ hv' => absurd hv' hv, fun _ => rfl,
    fun _ hn' => absurd hn hn', fun j hj => absurd hj (Finset.notMem_empty j),
    fun m hm => by cases hn.symm.trans hm⟩

omit [DecidableEq ι] in
theorem Enrolled.not_mem (h : t.Enrolled reg) (hi : (t.calls i).phase.registrable = false) :
    i ∉ reg := by
  intro hmem
  rw [h.members i hmem] at hi
  cases hi

/-- The registry stays right in a step of a call that remembers its registration. -/
theorem Enrolled.step (h : t.Enrolled reg) (hstep : Step kinds t a t') (ha : a.direct = false)
    (hpanics : a.panics = false) (hok : t.remembers reg a = true) :
    t'.Enrolled (t.register a t' reg) := by
  cases hstep with
  | @quiet i _ c hl =>
    refine h.change rfl Iff.rfl le_rfl (fun _ => rfl) hl.holds
      (fun hi => hl.registrable (h.members i hi)) ?_
    intro n hn
    have hcounts := h.counts n hn
    cases hgone : c.phase.gone with
    | false => rwa [live_setCall (hgone.trans hl.not_gone.symm)]
    | true =>
      -- A destructor that takes no lock, of a call that `remembers` says is not registered.
      obtain ⟨rfl, hquiet⟩ := hl.drop_of_gone hpanics hgone
      have hnone : t.entry ≠ none := fun hnone => by cases hnone.symm.trans hn
      have hi : i ∉ reg := by simpa [remembers, hquiet.resolve_right hnone, hnone] using hok
      rwa [live_setCall_gone hgone, Finset.erase_eq_of_notMem]
      exact fun hmem => hi (Finset.mem_filter.mp hmem).1
  | @park i w joined n hc hv hn hw =>
    have hworkers : (if joined then n else n.joinWaiter w).workers = n.workers := by
      cases joined <;> rfl
    refine h.change rfl (by simp [setEntry, hn]) ?_ (fun _ => rfl) (by simp [Phase.holds])
      (fun hmem => absurd hmem (h.not_mem (by rw [hc]; rfl))) ?_
    · rw [workers_of_entry hn, ← hworkers]
      exact le_rfl
    · intro m hm
      obtain rfl := Option.some.inj hm
      rw [hworkers, ← h.counts n hn]
      exact congrArg Finset.card (live_setCall (by rw [hc]; rfl))
  | @claim i w joined n hc hv hn hw =>
    have hworkers : (if joined then n else n.joinWaiter w).joinWorker.workers = t.workers + 1 := by
      cases joined <;> simp [workers, hn]
    exact h.enroll rfl (h.not_mem (by rw [hc]; rfl)) hv (by rw [hc]; rfl) rfl (by simp [setEntry])
      hworkers rfl rfl rfl
  | @make i w joined hc hv hn =>
    exact h.enroll rfl (h.not_mem (by rw [hc]; rfl)) hv (by rw [hc]; rfl) rfl
      (by simp [openEntry, setEntry]) (by simp [workers, openEntry, setEntry, hn]) rfl rfl rfl
  | @raceJoin i w n hc hv hn =>
    -- This is where a call that made the entry would be counted twice.
    have hi : i ∉ reg := by simpa [remembers, hc, hv, hn] using hok
    exact h.enroll rfl hi hv (by rw [hc]; rfl) rfl (by simp [setEntry])
      (by simp [workers, setEntry, hn]) rfl rfl rfl
  | @raceMake i w joined hc hv hn =>
    exact h.enroll rfl (by simp [h.clear hn]) hv (by rw [hc]; rfl) rfl
      (by simp [openEntry, setEntry]) (by simp [workers, openEntry, setEntry, hn]) rfl rfl rfl
  | store => exact enrolled_of_none rfl (by simp [KeyView.wake])
  | storeBare _ _ hn => exact enrolled_of_none hn (by simp)
  | @leave i n hc hn =>
    have hgone : (t.calls i).phase.gone = false := by
      revert hc
      cases (t.calls i).phase <;> simp [Phase.armed, Phase.gone]
    -- The one worker less is the call itself.
    have hi : i ∈ t.live reg :=
      Finset.mem_filter.mpr ⟨h.holders i (by simp [hn]) (armed_holds hc), hgone⟩
    refine h.change (i := i) (c := { t.calls i with phase := .dropped, parked := none }) rfl
      (by simp [setEntry, KeyView.wake, hn]) (by simp [workers, setEntry, KeyView.wake, hn])
      (fun _ => rfl) (by simp [Phase.holds]) (fun _ => rfl) ?_
    intro m hm
    obtain rfl := Option.some.inj hm
    rw [Wakers.workers_removeWorker, ← h.counts n hn, ← Finset.card_erase_of_mem hi]
    exact congrArg Finset.card (live_setCall_gone rfl)
  | remove | insert => cases ha

end KeyView

namespace State

/-- The registry after a step from `s` to `s'`. -/
def register (key : K) (s : State K V E ι) (a : Label V E ι) (s' : State K V E ι)
    (reg : Finset ι) : Finset ι :=
  (s.view key).register a (s'.view key) reg

/-- The system with the registry. -/
def registryStep (kinds : ι → Kind) (key : K) :
    State K V E ι × Finset ι → Label V E ι → Option (State K V E ι × Finset ι) :=
  Trace.recording (State.step kinds key) (register key)

variable {kinds : ι → Kind} {key : K} {s s' : State K V E ι} {i : ι} {reg reg' : Finset ι}

open KeyView

omit [DecidableEq ι] in
theorem enrolled_init (n : ℕ+) (hasher : K → UInt64) :
    ((State.init n hasher : State K V E ι).view key).Enrolled ∅ where
  stored hn := absurd (LightMap.waiters_empty key n hasher) hn
  empty _ _ _ := rfl
  clear _ := rfl
  holders _ _ hc := by cases hc
  members j hj := absurd hj (Finset.notMem_empty j)
  counts m hm := by
    have hnone : ((State.init n hasher : State K V E ι).view key).entry = none :=
      LightMap.waiters_empty key n hasher
    rw [hnone] at hm
    cases hm

/-- A call that has forgotten its registration is counted twice when it is told once more that
its future is pending. -/
theorem miscounts_of_race {w : Waker} {n : Wakers} (h : (s.view key).Enrolled reg)
    (hc : (s.calls i).phase = .polled false none) (hv : (s.view key).value = none)
    (hn : (s.view key).entry = some n) (hi : i ∈ reg) :
    ∃ s', s.step kinds key (.race i w) = some s' ∧
      ¬(s'.view key).RegistryCounts (register key s (.race i w) s' reg) := by
  obtain ⟨s', hstep⟩ := exists_race kinds key hc w
  refine ⟨s', hstep, ?_⟩
  have hview := step_view hstep
  rw [register]
  generalize s'.view key = t' at hview ⊢
  have hfuture : ((s.view key).calls i).phase = .polled false none := hc
  cases hview with
  | raceJoin hc' hv' hn' =>
    obtain rfl := Option.some.inj (hn.symm.trans hn')
    rw [register_of_lt (by simp [setEntry]) rfl (by simp [workers, setEntry, hn])]
    intro hcounts
    have hcard := hcounts _ rfl
    rw [Finset.insert_eq_of_mem hi] at hcard
    have hlive : ((s.view key).live reg).card = n.workers + 1 := by
      refine Eq.trans ?_ hcard
      exact congrArg Finset.card (live_setCall (by rw [hfuture]; rfl)).symm
    rw [h.counts n hn] at hlive
    omega
  | quiet hl =>
    cases hl with
    | gotReady _ hv' | raceGot _ hv' => rw [hv] at hv'; cases hv'
    | failed hends =>
      obtain ⟨rfl, -⟩ := hends.of_race
      exact absurd hfuture hends.not_pending
    | raceAgain hc' => rw [hfuture] at hc'; cases hc'
  | raceMake _ _ hn' => rw [hn] at hn'; cases hn'
  | store hends | storeBare hends =>
    obtain ⟨rfl, -⟩ := hends.of_race
    exact absurd hfuture hends.not_pending

theorem drop_of_disarmed (hc : (s.calls i).phase.disarmed = true) :
    s.step kinds key (.drop i) =
      some (s.setCall i { s.calls i with phase := .dropped, parked := none }) := by
  simp only [step, drop]
  revert hc
  cases (s.calls i).phase with
  | racing joined => cases joined <;> simp [Phase.disarmed]
  | finished armed => cases armed <;> simp [Phase.disarmed]
  | _ => simp [Phase.disarmed]

/-- A call that has forgotten its registration stays counted when it is dropped. -/
theorem miscounts_of_drop (h : (s.view key).Enrolled reg)
    (hc : (s.calls i).phase.disarmed = true) (hn : (s.view key).entry ≠ none) (hi : i ∈ reg) :
    ∃ s', s.step kinds key (.drop i) = some s' ∧
      ¬(s'.view key).RegistryCounts (register key s (.drop i) s' reg) := by
  refine ⟨_, drop_of_disarmed hc, ?_⟩
  have hreg (c : Call V E) : (s.view key).register (.drop i) ((s.view key).setCall i c) reg = reg :=
    register_of_le (fun hnone => absurd hnone hn) le_rfl
  rw [register, view_setCall, hreg]
  obtain ⟨n, hn⟩ := Option.ne_none_iff_exists'.mp hn
  intro hcounts
  have hcard := hcounts n hn
  have hgone : ((s.view key).calls i).phase.gone = false := by
    have hc' : ((s.view key).calls i).phase.disarmed = true := hc
    revert hc'
    cases ((s.view key).calls i).phase <;> simp [Phase.disarmed, Phase.gone]
  have hmem : i ∈ (s.view key).live reg := Finset.mem_filter.mpr ⟨hi, hgone⟩
  rw [live_setCall_gone rfl, ← h.counts n hn] at hcard
  exact absurd hcard (Finset.card_erase_lt_of_mem hmem).ne

theorem miscounts {a : Label V E ι} (h : (s.view key).Enrolled reg)
    (hok : (s.view key).remembers reg a = false) :
    ∃ x, registryStep kinds key (s, reg) a = some x ∧ ¬(x.1.view key).RegistryCounts x.2 := by
  have hforget : ∃ s', s.step kinds key a = some s' ∧
      ¬(s'.view key).RegistryCounts (register key s a s' reg) := by
    cases a with
    | race i w =>
      simp only [remembers] at hok
      split at hok
      · rename_i n hc hv hn
        exact miscounts_of_race h hc hv hn (by simpa using hok)
      · cases hok
    | drop i =>
      simp only [remembers, Bool.or_eq_false_iff, Bool.not_eq_false', decide_eq_false_iff_not,
        not_not] at hok
      exact miscounts_of_drop h hok.1.1 hok.1.2 hok.2
    | _ => cases hok
  obtain ⟨s', hs', hbad⟩ := hforget
  exact ⟨(s', _), Trace.recording_eq_some.mpr ⟨hs', rfl⟩, hbad⟩

end State

/-- **Worker accounting with races.** In a run of racing and cooperative calls and drops, without
panics, the count of the entry is the number of its registered calls that were not dropped
exactly if no racing call that made the entry is told again that its future is pending, or
dropped, while the entry is there. When all registered calls are dropped then, the next
cooperative call that is polled becomes the worker. -/
theorem race_accounting_iff (kinds : ι → Kind) (key : K) (n : ℕ+) (hasher : K → UInt64)
    (as : List (Label V E ι)) (has : ∀ a ∈ as, a.direct = false ∧ a.panics = false) :
    (Trace.Always (State.registryStep kinds key) (fun x => (x.1.view key).RegistryCounts x.2)
        (State.init n hasher, ∅) as ↔
      Trace.Each (State.registryStep kinds key)
        (fun x a => (x.1.view key).remembers x.2 a = true) (State.init n hasher, ∅) as) ∧
    ∀ s reg, Trace.run (State.registryStep kinds key) (State.init n hasher, ∅) as = some (s, reg) →
      Trace.Each (State.registryStep kinds key)
        (fun x a => (x.1.view key).remembers x.2 a = true) (State.init n hasher, ∅) as →
      (∀ i ∈ reg, (s.calls i).phase = .dropped) → ∀ node, s.map.waiters key = some node →
        node.workers = 0 ∧ ∀ i joined w, (s.calls i).phase = .waiting joined →
          ∃ s', s.step kinds key (.wait i w) = some s' ∧ (s'.calls i).phase.works = true := by
  have hkeep : ∀ (x : State K V E ι × Finset ι) a x', (x.1.view key).Enrolled x.2 →
      (a.direct = false ∧ a.panics = false) → (x.1.view key).remembers x.2 a = true →
      State.registryStep kinds key x a = some x' → (x'.1.view key).Enrolled x'.2 := by
    intro x a x' h ha hok hstep
    obtain ⟨hs, hreg⟩ := Trace.recording_eq_some.mp hstep
    rw [hreg]
    exact h.step (State.step_view hs) ha.1 ha.2 hok
  have henv : Trace.Each (State.registryStep kinds key)
      (fun _ a => a.direct = false ∧ a.panics = false) (State.init n hasher, ∅) as :=
    Trace.each_of_forall has
  refine ⟨Trace.always_iff_each (fun _ h => h.counts) hkeep
    (fun _ _ h _ hok => State.miscounts h (Bool.eq_false_iff.mpr hok))
    (State.enrolled_init n hasher) henv, ?_⟩
  intro s reg hs hok hgone node hnode
  have h : (s.view key).Enrolled reg := Trace.inv_of_each
    (P := fun x : State K V E ι × Finset ι => (x.1.view key).Enrolled x.2)
    (fun _ _ _ h hok => hkeep _ _ _ h hok.1 hok.2) (State.enrolled_init n hasher)
    (henv.and hok) hs
  -- All registered calls are gone, so the count is zero and a caller claims the slot.
  have hlive : (s.view key).live reg = ∅ := by
    apply Finset.filter_eq_empty_iff.mpr
    intro i hi
    have hp : ((s.view key).calls i).phase = .dropped := hgone i hi
    simp [hp, Phase.gone]
  have hworkers : node.workers = 0 := by rw [← h.counts node hnode, hlive, Finset.card_empty]
  refine ⟨hworkers, ?_⟩
  intro i joined w hp
  have hvalue : s.map.get key = none := h.stored (by simp [State.view, hnode])
  obtain ⟨s', hstep⟩ := State.exists_wait kinds key hp w
  exact ⟨s', hstep, (State.step_view hstep).works_of_wait hvalue fun m hm => by
    obtain rfl := Option.some.inj (hnode.symm.trans hm)
    exact hworkers⟩

/-- Call 1 joins the entry that call 0 made, and stores its value before call 0 is polled again. -/
theorem race_accounting_two_races :
    Trace.Always (State.registryStep (fun _ => .getOrTryInsertRace) 0)
      (fun x => (x.1.view 0).RegistryCounts x.2)
      ((State.init 1 fun _ => 0 : State ℕ ℕ ℕ (Fin 2)), ∅)
      [.start 0, .start 1, .init 0 true, .init 1 true, .poll 0 .pending, .race 0 0,
        .poll 1 .pending, .race 1 1, .poll 1 (.ready (.ok 7)), .race 1 1, .drop 1, .drop 0] :=
  (race_accounting_iff _ 0 1 (fun _ => 0) _ (by decide)).1.mpr (by decide)

/-- Racing call 0 makes the entry and is dropped. The entry counts a worker that nobody is, and
cooperative call 1 waits for it. -/
theorem ghost_racer :
    ∃ (s : State ℕ ℕ ℕ (Fin 2)) (reg : Finset (Fin 2)),
      Trace.run (State.registryStep
          (fun i => if i = 0 then .getOrTryInsertRace else .getOrTryInsert) 0)
        (State.init 1 fun _ => 0, ∅)
        [.start 0, .init 0 true, .poll 0 .pending, .race 0 0, .drop 0, .start 1, .wait 1 1] =
          some (s, reg) ∧
      s.map.waiters 0 = some ⟨1, [0, 1]⟩ ∧ (s.view 0).live reg = ∅ ∧
      (s.calls 1).phase = .waiting true ∧ ¬(s.view 0).RegistryCounts reg := by
  refine ⟨_, _, rfl, by decide, by decide, rfl, ?_⟩
  intro h
  exact absurd (h ⟨1, [0, 1]⟩ (by decide)) (by decide)

end LightCache
