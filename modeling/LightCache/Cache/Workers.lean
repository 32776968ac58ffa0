import Mathlib.Data.Set.Card
import LightCache.Cache.Agreement
import LightCache.Cache.Wakeups

/-!
# The worker slot

Cooperative calls share one worker slot: a call that finds an entry without a worker becomes its
worker, and its destructor gives the slot back. The destructor looks the entry up by the key. If
the entry it claimed was deleted and another one made since, it takes the worker of that entry
away. And a call whose `init` panics has claimed a slot that its destructor does not give back.

Main results: `single_worker`, with removals, and `accounting_iff`, without. What goes wrong
otherwise show `two_workers` and `leaked_worker`.
-/

namespace LightCache

variable {K V E ι : Type} [DecidableEq K] [DecidableEq ι]

omit [DecidableEq K] [DecidableEq ι] in
theorem Phase.holds_of_works {p : Phase V E} (h : p.works = true) : p.holds = true := by
  cases p <;> simp_all [Phase.works, Phase.holds]

namespace KeyView

variable {kinds : ι → Kind} {t t' : KeyView V E ι} {a : Label V E ι} {i j : ι} {c c' : Call V E}
variable {n n' : Wakers}

/-- The call is counted as a worker of the present entry. -/
def Holds (t : KeyView V E ι) (i : ι) : Prop :=
  (t.calls i).phase.holds = true ∧ (t.calls i).claimedAt = t.epoch

instance (t : KeyView V E ι) (i : ι) : Decidable (t.Holds i) :=
  inferInstanceAs (Decidable (_ ∧ _))

/-! ## One worker at a time -/

/-- At most one call works on the key. -/
def SingleWorker (t : KeyView V E ι) : Prop :=
  ∀ i j, (t.calls i).phase.works = true → (t.calls j).phase.works = true → i = j

/-- A destructor that takes the lock finds no worker of a later entry than its call claimed. -/
def ownEntry (t : KeyView V E ι) : Label V E ι → Bool
  | .drop i =>
    match t.entry with
    | some n => !(t.calls i).phase.armed || n.workers = 0 || (t.calls i).claimedAt = t.epoch
    | none => true
  | _ => true

/-- The worker of the present entry is unique and counted, and nobody works on another one. -/
structure Exclusive (t : KeyView V E ι) : Prop where
  works : ∀ i, (t.calls i).phase.works = true → t.entry ≠ none ∧ (t.calls i).claimedAt = t.epoch
  counted : ∀ i n, t.Holds i → t.entry = some n → 0 < n.workers
  unique : ∀ i j, t.entry ≠ none → t.Holds i → t.Holds j → i = j
  past : ∀ i, (t.calls i).claimedAt ≤ t.epoch

omit [DecidableEq ι] in
theorem Exclusive.singleWorker (h : t.Exclusive) : t.SingleWorker := by
  intro i j hi hj
  obtain ⟨hn, hclaimed⟩ := h.works i hi
  exact h.unique i j hn ⟨Phase.holds_of_works hi, hclaimed⟩
    ⟨Phase.holds_of_works hj, (h.works j hj).2⟩

theorem Exclusive.past_setCall (h : t.Exclusive) (hclaimed : c.claimedAt = (t.calls i).claimedAt) :
    ∀ j, ((t.setCall i c).calls j).claimedAt ≤ t.epoch :=
  forall_setCall (P := fun _ c => c.claimedAt ≤ t.epoch) (hclaimed ▸ h.past i) fun j _ => h.past j

theorem Exclusive.setCall (h : t.Exclusive)
    (hworks : c.phase.works = true → (t.calls i).phase.works = true)
    (hholds : c.phase.holds = true → (t.calls i).phase.holds = true)
    (hclaimed : c.claimedAt = (t.calls i).claimedAt) : (t.setCall i c).Exclusive := by
  have hold : ∀ j, (t.setCall i c).Holds j → t.Holds j := by
    refine forall_setCall
      (P := fun j c => c.phase.holds = true ∧ c.claimedAt = t.epoch → t.Holds j) ?_ fun j _ => id
    intro ⟨hc, hepoch⟩
    exact ⟨hholds hc, hclaimed ▸ hepoch⟩
  refine ⟨?_, fun j n hj => h.counted j n (hold j hj),
    fun j l hn hj hl => h.unique j l hn (hold j hj) (hold l hl), h.past_setCall hclaimed⟩
  refine forall_setCall
    (P := fun _ c => c.phase.works = true → t.entry ≠ none ∧ c.claimedAt = t.epoch) ?_
    fun j _ => h.works j
  intro hc
  exact hclaimed ▸ h.works i (hworks hc)

omit [DecidableEq ι] in
theorem Exclusive.setWakers (h : t.Exclusive) (hn : t.entry = some n)
    (hworkers : n'.workers = n.workers) (bare : Bool) :
    { t with entry := some n', bare }.Exclusive where
  works j hj := ⟨by simp, (h.works j hj).2⟩
  counted j m hj hm := by
    obtain rfl := Option.some.inj hm
    rw [hworkers]
    exact h.counted j n hj hn
  unique j l _ := h.unique j l (by simp [hn])
  past := h.past

theorem Exclusive.setEntry (h : t.Exclusive) (hn : t.entry = some n)
    (hworkers : n'.workers = n.workers)
    (hworks : c.phase.works = true → (t.calls i).phase.works = true)
    (hholds : c.phase.holds = true → (t.calls i).phase.holds = true)
    (hclaimed : c.claimedAt = (t.calls i).claimedAt) : (t.setEntry i c n').Exclusive :=
  (h.setCall hworks hholds hclaimed).setWakers hn hworkers false

/-- A call may take the slot when nobody has it. -/
theorem exclusive_of_only (hcalls : t'.calls = (t.setCall i c).calls)
    (hworks : ∀ j, (t.calls j).phase.works = false)
    (hholds : ∀ j, (t.calls j).phase.holds = true → (t.calls j).claimedAt ≠ t'.epoch)
    (hpast : ∀ j, (t.calls j).claimedAt ≤ t'.epoch) (hclaimed : c.claimedAt = t'.epoch)
    (hn : t'.entry = some n) (hworkers : 0 < n.workers) : t'.Exclusive := by
  have honly (j : ι) (hj : t'.Holds j) : j = i := by
    by_contra hji
    rw [Holds, hcalls, setCall_calls_of_ne hji] at hj
    exact hholds j hj.1 hj.2
  refine ⟨fun j hj => ⟨by simp [hn], ?_⟩, ?_, ?_, ?_⟩
  · rcases eq_or_ne j i with rfl | hji
    · rw [hcalls, setCall_calls_self, hclaimed]
    · rw [hcalls, setCall_calls_of_ne hji, hworks j] at hj
      cases hj
  · intro j m hj hm
    rw [hn] at hm
    exact Option.some.inj hm ▸ hworkers
  · intro j l _ hj hl
    rw [honly j hj, honly l hl]
  · rw [hcalls]
    exact forall_setCall (P := fun _ c => c.claimedAt ≤ t'.epoch) hclaimed.le fun j _ => hpast j

omit [DecidableEq ι] in
/-- Nobody works on a key without an entry, or with an entry nobody is counted for. -/
theorem Exclusive.idle (h : t.Exclusive) (hfree : t.entry = none ∨ ∀ j, ¬t.Holds j) (j : ι) :
    (t.calls j).phase.works = false := by
  by_contra hj
  rw [Bool.not_eq_false] at hj
  obtain ⟨hn, hclaimed⟩ := h.works j hj
  rcases hfree with hnone | hfree
  · exact hn hnone
  · exact hfree j ⟨Phase.holds_of_works hj, hclaimed⟩

theorem Exclusive.store (h : t.Exclusive) (hi : (t.calls i).phase.works = true)
    (hc : c.phase.works = false) (hclaimed : c.claimedAt = (t.calls i).claimedAt) (value : Option V)
    (bare : Bool) (ws : List Waker) :
    ({ t.setCall i c with value, entry := none, bare }.wake ws).Exclusive := by
  have hidle : ∀ j, ((t.setCall i c).calls j).phase.works = false := by
    refine forall_setCall (P := fun _ c => c.phase.works = false) hc ?_
    intro j hji
    by_contra hj
    exact hji (h.singleWorker j i (Bool.eq_true_of_not_eq_false hj) hi)
  refine ⟨?_, fun _ _ _ hn => (by cases hn), fun _ _ hn => absurd rfl hn,
    h.past_setCall hclaimed⟩
  intro j hj
  exact absurd hj (Bool.eq_false_iff.mp (hidle j))

theorem Exclusive.leave (h : t.Exclusive) (hn : t.entry = some n)
    (hi : (t.calls i).phase.holds = true)
    (hown : n.workers = 0 ∨ (t.calls i).claimedAt = t.epoch) (hc : c.phase.holds = false)
    (hclaimed : c.claimedAt = (t.calls i).claimedAt) (node : Wakers) (ws : List Waker) :
    ((t.setEntry i c node).wake ws).Exclusive := by
  have hset := h.setCall (i := i) (c := c)
    (fun hw => by rw [Phase.holds_of_works hw] at hc; cases hc)
    (fun hh => by rw [hc] at hh; cases hh) hclaimed
  have hfree (j : ι) : ¬(t.setCall i c).Holds j := by
    intro hholds
    obtain ⟨hj, hepoch⟩ := hholds
    rcases eq_or_ne j i with rfl | hji
    · rw [setCall_calls_self, hc] at hj
      cases hj
    · rw [setCall_calls_of_ne hji] at hj hepoch
      rcases hown with hzero | hown
      · exact absurd (h.counted j n ⟨hj, hepoch⟩ hn) (by omega)
      · exact hji (h.unique j i (by simp [hn]) ⟨hj, hepoch⟩ ⟨hi, hown⟩)
  refine ⟨?_, fun j m hj => absurd hj (hfree j), fun j l _ hj => absurd hj (hfree j),
    hset.past⟩
  intro j hj
  exact absurd hj (Bool.eq_false_iff.mp (hset.idle (Or.inr hfree) j))

omit [DecidableEq ι] in
theorem armed_holds {p : Phase V E} (h : p.armed = true) : p.holds = true := by
  cases p <;> simp_all [Phase.armed, Phase.holds]

theorem Exclusive.step (h : t.Exclusive) (hfits : t.Fits kinds)
    (hcoop : ∀ i, (kinds i).race = false) (hstep : Step kinds t a t') (hok : t.ownEntry a = true) :
    t'.Exclusive := by
  cases hstep with
  | quiet hl => exact h.setCall hl.works hl.holds hl.claimedAt
  | @park i w joined n hc hv hn hw =>
    exact h.setEntry hn (by cases joined <;> rfl) (by simp [Phase.works]) (by simp [Phase.holds])
      (by rfl)
  | @claim i w joined n hc hv hn hw =>
    have hfree (j : ι) : ¬t.Holds j := fun hj => absurd (h.counted j n hj hn) (by omega)
    exact exclusive_of_only rfl (h.idle (Or.inr hfree)) (fun j hj hepoch => hfree j ⟨hj, hepoch⟩)
      h.past rfl rfl (by simp)
  | @make i w joined hc hv hn =>
    refine exclusive_of_only rfl (h.idle (Or.inl hn)) ?_
      (fun j => (h.past j).trans (Nat.le_succ _)) rfl rfl (by simp)
    intro j _ hepoch
    have hle := h.past j
    have heq : (t.calls j).claimedAt = t.epoch + 1 := hepoch
    omega
  | raceJoin hc | raceMake hc => exact absurd hc (hfits.not_polled (hcoop _))
  | @store i _ v _ n hends hv hn =>
    obtain ⟨-, hp, rfl⟩ := hfits.ready (hcoop i) hends
    exact h.store (by rw [hp]; rfl) (by rfl) (by rfl) _ _ _
  | @storeBare i _ v _ hends hv hn =>
    obtain ⟨-, hp, rfl⟩ := hfits.ready (hcoop i) hends
    exact absurd hn (h.works i (by rw [hp]; rfl)).1
  | @leave i n hc hn =>
    refine h.leave hn (armed_holds hc) ?_ (by rfl) (by rfl) _ _
    simpa [ownEntry, hn, hc] using hok
  | remove => exact ⟨h.works, h.counted, h.unique, h.past⟩
  | insert => exact ⟨h.works, h.counted, h.unique, h.past⟩

/-! ## Counting the workers -/

/-- The count of the entry is the number of calls that hold its slot. -/
def Accounts (t : KeyView V E ι) : Prop :=
  ∀ n, t.entry = some n → {i | t.Holds i}.encard = n.workers

omit [DecidableEq ι] in
theorem not_accounts (hn : t.entry = some n) (hpos : 0 < n.workers) (hfree : ∀ i, ¬t.Holds i) :
    ¬t.Accounts := by
  intro h
  have hcard := h n hn
  rw [Set.eq_empty_of_forall_notMem (s := {i | t.Holds i}) hfree, Set.encard_empty] at hcard
  exact hpos.ne (Nat.cast_injective hcard)

/-- The `init` of a call that claimed the slot does not panic. -/
def initReturns (t : KeyView V E ι) : Label V E ι → Bool
  | .init i false =>
    match (t.calls i).phase with
    | .claimed _ => false
    | _ => true
  | _ => true

/-- There is one entry at most before a value is stored, and its count is right. -/
structure Accounted (t : KeyView V E ι) : Prop extends t.Exclusive where
  stored : t.entry ≠ none → t.value = none
  current : ∀ i, t.entry ≠ none → (t.calls i).phase.holds = true → t.Holds i
  empty : ∀ i, t.value = none → t.entry = none → (t.calls i).phase.holds = false
  held : ∀ n, t.entry = some n → n.workers ≤ 1 ∧ (0 < n.workers → ∃ i, t.Holds i)

omit [DecidableEq ι] in
theorem Accounted.accounts (h : t.Accounted) : t.Accounts := by
  intro n hn
  obtain ⟨hle, hholds⟩ := h.held n hn
  by_cases hzero : n.workers = 0
  · have hempty : {i | t.Holds i} = ∅ := by
      apply Set.eq_empty_of_forall_notMem
      intro i hi
      have hpos := h.counted i n hi hn
      omega
    rw [hempty, Set.encard_empty, hzero]
    rfl
  · obtain ⟨i, hi⟩ := hholds (Nat.pos_of_ne_zero hzero)
    have hsingle : {i | t.Holds i} = {i} :=
      Set.eq_singleton_iff_unique_mem.mpr ⟨hi, fun j hj => h.unique j i (by simp [hn]) hj hi⟩
    have hone : n.workers = 1 := by omega
    rw [hsingle, Set.encard_singleton, hone]
    rfl

omit [DecidableEq ι] in
theorem Accounted.ownEntry (h : t.Accounted) : t.ownEntry a = true := by
  cases a with
  | drop i =>
    cases hn : t.entry with
    | none => simp [KeyView.ownEntry, hn]
    | some n =>
      cases harmed : (t.calls i).phase.armed with
      | false => simp [KeyView.ownEntry, hn, harmed]
      | true =>
        have hi := h.current i (by simp [hn]) (armed_holds harmed)
        simp [KeyView.ownEntry, hn, hi.2]
  | _ => rfl

theorem holds_setCall_of_ne (hji : j ≠ i) : (t.setCall i c).Holds j ↔ t.Holds j := by
  rw [Holds, setCall_calls_of_ne hji]
  rfl

theorem holds_setCall (hcur : ∀ j, (t.calls j).phase.holds = true → t.Holds j)
    (hc : c.phase.holds = true → c.claimedAt = t.epoch) (j : ι)
    (hj : ((t.setCall i c).calls j).phase.holds = true) : (t.setCall i c).Holds j := by
  rcases eq_or_ne j i with rfl | hji
  · refine ⟨hj, ?_⟩
    rw [setCall_calls_self] at hj ⊢
    exact hc hj
  · rw [setCall_calls_of_ne hji] at hj
    exact (holds_setCall_of_ne hji).mpr (hcur j hj)

theorem exists_holds_setCall (hc : (t.calls i).phase.holds = true → c.phase.holds = true)
    (hclaimed : c.claimedAt = (t.calls i).claimedAt) (h : ∃ j, t.Holds j) :
    ∃ j, (t.setCall i c).Holds j := by
  obtain ⟨j, hj⟩ := h
  refine ⟨j, ?_⟩
  rcases eq_or_ne j i with rfl | hji
  · rw [Holds, setCall_calls_self, hclaimed]
    exact ⟨hc hj.1, hj.2⟩
  · exact (holds_setCall_of_ne hji).mpr hj

theorem Accounted.stored_step (h : t.Accounted) (hstep : Step kinds t a t')
    (ha : a.direct = false) (hn : t'.entry ≠ none) : t'.value = none := by
  cases hstep with
  | quiet => exact h.stored hn
  | leave hc hn' => exact h.stored (by simp [hn'])
  | store => exact absurd rfl hn
  | storeBare _ _ hn' => exact absurd hn' hn
  | remove | insert => cases ha
  | park _ hv | claim _ hv | make _ hv | raceJoin _ hv | raceMake _ hv => exact hv

theorem Accounted.current_step (h : t.Accounted) (hfits : t.Fits kinds)
    (hcoop : ∀ i, (kinds i).race = false) (hstep : Step kinds t a t') (ha : a.direct = false)
    (j : ι) (hn : t'.entry ≠ none) (hj : (t'.calls j).phase.holds = true) : t'.Holds j := by
  cases hstep with
  | @quiet i _ c hl =>
    exact holds_setCall (fun j => h.current j hn)
      (fun hc => hl.claimedAt ▸ (h.current i hn (hl.holds hc)).2) j hj
  | @park i _ _ _ hc hv hn' =>
    exact holds_setCall (fun j => h.current j (by simp [hn'])) (by simp [Phase.holds]) j hj
  | @claim i _ _ _ hc hv hn' =>
    exact holds_setCall (fun j => h.current j (by simp [hn'])) (fun _ => rfl) j hj
  | @make i _ _ hc hv hn' =>
    exact holds_setCall (t := { t with epoch := t.epoch + 1 })
      (fun j hj => by rw [h.empty j hv hn'] at hj; cases hj) (fun _ => rfl) j hj
  | raceJoin hc | raceMake hc => exact absurd hc (hfits.not_polled (hcoop _))
  | store => exact absurd rfl hn
  | storeBare _ _ hn' => exact absurd hn' hn
  | @leave i n hc hn' =>
    exact holds_setCall (fun j => h.current j (by simp [hn'])) (by simp [Phase.holds]) j hj
  | remove | insert => cases ha

theorem Accounted.empty_step (h : t.Accounted) (hstep : Step kinds t a t')
    (ha : a.direct = false) (j : ι) (hv : t'.value = none) (hn : t'.entry = none) :
    (t'.calls j).phase.holds = false := by
  cases hstep with
  | @quiet i _ c hl =>
    by_contra hj
    rw [Bool.not_eq_false] at hj
    rcases eq_or_ne j i with rfl | hji
    · rw [setCall_calls_self] at hj
      have hfree := h.empty j hv hn
      rw [hl.holds hj] at hfree
      cases hfree
    · rw [setCall_calls_of_ne hji, h.empty j hv hn] at hj
      cases hj
  | store | storeBare => cases hv
  | remove | insert => cases ha
  | _ => cases hn

theorem Accounted.held_step (h : t.Accounted) (hfits : t.Fits kinds)
    (hcoop : ∀ i, (kinds i).race = false) (hstep : Step kinds t a t') (ha : a.direct = false)
    (hok : t.initReturns a = true) {m : Wakers} (hm : t'.entry = some m) :
    m.workers ≤ 1 ∧ (0 < m.workers → ∃ i, t'.Holds i) := by
  cases hstep with
  | @quiet i _ c hl =>
    have hn : t.entry = some m := hm
    obtain ⟨hle, hholds⟩ := h.held m hn
    refine ⟨hle, fun hpos => exists_holds_setCall ?_ hl.claimedAt (hholds hpos)⟩
    intro hc
    apply hl.keeps_holding hc (by simp [hn])
    rintro rfl
    -- Only a panic of `init` takes a holder away.
    obtain ⟨joined, hp⟩ := hl.claimed_of_panic hc
    simp [initReturns, hp] at hok
  | @park i w joined n hc hv hn =>
    obtain rfl := Option.some.inj hm
    have hworkers : (if joined then n else n.joinWaiter w).workers = n.workers := by
      cases joined <;> rfl
    obtain ⟨hle, hholds⟩ := h.held n hn
    rw [hworkers]
    refine ⟨hle, fun hpos => exists_holds_setCall ?_ rfl (hholds hpos)⟩
    intro hh
    rw [hc] at hh
    cases hh
  | @claim i w joined n hc hv hn hw =>
    obtain rfl := Option.some.inj hm
    refine ⟨by cases joined <;> simp [hw], fun _ => ⟨i, ?_, ?_⟩⟩ <;>
      rw [setEntry_calls, setCall_calls_self]
    · rfl
    · rfl
  | @make i w joined hc hv hn =>
    obtain rfl := Option.some.inj hm
    refine ⟨by simp, fun _ => ⟨i, ?_, ?_⟩⟩ <;> rw [openEntry_calls, setCall_calls_self]
    · rfl
    · rfl
  | raceJoin hc | raceMake hc => exact absurd hc (hfits.not_polled (hcoop _))
  | store => cases hm
  | storeBare _ _ hn => exact absurd (hn.symm.trans hm) (by simp)
  | @leave i n hc hn =>
    obtain rfl := Option.some.inj hm
    -- The one worker there was has left.
    have hle := (h.held n hn).1
    rw [Wakers.workers_removeWorker]
    exact ⟨by omega, fun hpos => by omega⟩
  | remove | insert => cases ha

theorem Accounted.step (h : t.Accounted) (hfits : t.Fits kinds)
    (hcoop : ∀ i, (kinds i).race = false) (hstep : Step kinds t a t') (ha : a.direct = false)
    (hok : t.initReturns a = true) : t'.Accounted where
  toExclusive := h.toExclusive.step hfits hcoop hstep h.ownEntry
  stored := h.stored_step hstep ha
  current := h.current_step hfits hcoop hstep ha
  empty := h.empty_step hstep ha
  held _ := h.held_step hfits hcoop hstep ha hok

/-- A caller that is polled when nothing is stored and no worker is counted becomes the worker. -/
theorem Step.works_of_wait {w : Waker} (hstep : Step kinds t (.wait i w) t') (hv : t.value = none)
    (hfree : ∀ m, t.entry = some m → m.workers = 0) : (t'.calls i).phase.works = true := by
  cases hstep with
  | quiet hl =>
    cases hl with
    | got _ hv' => rw [hv] at hv'; cases hv'
    | gotReady hends | failed hends => exact absurd rfl hends.not_wait
  | park _ _ hn hw => exact absurd (hfree _ hn) hw.ne'
  | claim => rw [setEntry_calls, setCall_calls_self]; rfl
  | make => rw [openEntry_calls, setCall_calls_self]; rfl
  | store hends | storeBare hends => exact absurd rfl hends.not_wait

end KeyView

/-! ## Runs -/

namespace State

variable {kinds : ι → Kind} {key : K} {s s' : State K V E ι} {i : ι}

open KeyView

omit [DecidableEq ι] in
theorem fits_init (kinds : ι → Kind) (n : ℕ+) (hasher : K → UInt64) :
    ((State.init n hasher : State K V E ι).view key).Fits kinds := fun _ => rfl

omit [DecidableEq ι] in
theorem accounted_init (n : ℕ+) (hasher : K → UInt64) :
    ((State.init n hasher : State K V E ι).view key).Accounted where
  works _ hc := by cases hc
  counted _ _ hc := by cases hc.1
  unique _ _ _ hc := by cases hc.1
  past _ := le_rfl
  stored hn := absurd (LightMap.waiters_empty key n hasher) hn
  current _ _ hc := by cases hc
  empty _ _ _ := rfl
  held m hm := by
    have hnone : ((State.init n hasher : State K V E ι).view key).entry = none :=
      LightMap.waiters_empty key n hasher
    rw [hnone] at hm
    cases hm

/-- A panic of `init` leaves a worker behind that nobody is. -/
theorem leaked_of_panic {a : Label V E ι} (h : (s.view key).Accounted)
    (hok : (s.view key).initReturns a = false) :
    ∃ s', s.step kinds key a = some s' ∧ ¬(s'.view key).Accounts := by
  cases a with
  | init i returns =>
    cases returns with
    | true => cases hok
    | false =>
      simp only [initReturns] at hok
      split at hok
      · rename_i joined hp
        have hworks : ((s.view key).calls i).phase.works = true := by rw [hp]; rfl
        have hi : (s.view key).Holds i := ⟨Phase.holds_of_works hworks, (h.works i hworks).2⟩
        obtain ⟨n, hn⟩ := Option.ne_none_iff_exists'.mp (h.works i hworks).1
        refine ⟨s.setCall i { s.calls i with
            phase := .dropped
            inits := (s.calls i).inits + 1 }, ?_,
          not_accounts (n := n) hn (h.counted i n hi hn) ?_⟩
        · have hp' : (s.calls i).phase = .claimed joined := hp
          simp [step, callInit, hp']
        · intro j hj
          rcases eq_or_ne j i with rfl | hji
          · have hself := hj.1
            rw [view_setCall, setCall_calls_self] at hself
            cases hself
          · exact hji (h.unique j i (by simp [hn]) ((holds_setCall_of_ne hji).mp hj) hi)
      · cases hok
  | _ => cases hok

end State

/-- **One worker.** In a run of cooperative calls, removals and drops, at most one call works on
the key, as long as no destructor finds the worker of a later entry than its call claimed. -/
theorem single_worker (kinds : ι → Kind) (key : K) (hcoop : ∀ i, (kinds i).race = false) (n : ℕ+)
    (hasher : K → UInt64) (as : List (Label V E ι)) (s : State K V E ι)
    (hs : Trace.run (State.step kinds key) (State.init n hasher) as = some s)
    (hok : Trace.Each (State.step kinds key) (fun s a => (s.view key).ownEntry a = true)
      (State.init n hasher) as) : (s.view key).SingleWorker := by
  have hinv : (s.view key).Fits kinds ∧ (s.view key).Exclusive :=
    Trace.inv_of_each (P := fun s => (s.view key).Fits kinds ∧ (s.view key).Exclusive)
      (fun _ _ _ h hok hstep => ⟨h.1.step (State.step_view hstep),
        h.2.step h.1 hcoop (State.step_view hstep) hok⟩)
      ⟨State.fits_init kinds n hasher, (State.accounted_init n hasher).toExclusive⟩ hok hs
  exact hinv.2.singleWorker

/-- Call 0 stores its value and is dropped, the value is removed, and call 1 starts over while
call 2 waits. -/
theorem single_worker_after_remove :
    ∃ s : State ℕ ℕ ℕ (Fin 3),
      Trace.run (State.step (fun _ => .getOrInsert) 0) (State.init 1 fun _ => 0)
        [.start 0, .wait 0 0, .init 0 true, .poll 0 (.ready (.ok 7)), .complete 0, .drop 0, .remove,
          .start 1, .wait 1 1, .init 1 true, .start 2, .wait 2 2] = some s ∧
      (s.view 0).SingleWorker :=
  ⟨_, rfl, single_worker (fun _ => .getOrInsert) 0 (fun _ => rfl) 1 (fun _ => 0)
    [.start 0, .wait 0 0, .init 0 true, .poll 0 (.ready (.ok 7)), .complete 0, .drop 0, .remove,
      .start 1, .wait 1 1, .init 1 true, .start 2, .wait 2 2] _ rfl (by decide)⟩

/-- Call 0 stores its value, which is removed, and call 1 starts over. Now the destructor of
call 0 takes call 1 off its entry, and call 2 becomes a second worker. -/
theorem two_workers :
    ∃ s : State ℕ ℕ ℕ (Fin 3),
      Trace.run (State.step (fun _ => .getOrInsert) 0) (State.init 1 fun _ => 0)
        [.start 0, .wait 0 0, .init 0 true, .poll 0 (.ready (.ok 7)), .complete 0, .remove,
          .start 1, .wait 1 1, .init 1 true, .drop 0, .start 2, .wait 2 2, .init 2 true] = some s ∧
      (s.calls 1).phase = .working ∧ (s.calls 2).phase = .working ∧ ¬(s.view 0).SingleWorker := by
  refine ⟨_, rfl, rfl, rfl, ?_⟩
  intro h
  exact absurd (h 1 2 rfl rfl) (by decide)

/-- **Worker accounting.** In a run of cooperative calls and drops, the count of the entry is
the number of calls that hold its slot exactly if no `init` panics. When all holders are gone
then, the next call that is polled becomes the worker. -/
theorem accounting_iff (kinds : ι → Kind) (key : K) (hcoop : ∀ i, (kinds i).race = false) (n : ℕ+)
    (hasher : K → UInt64) (as : List (Label V E ι)) (hdirect : ∀ a ∈ as, a.direct = false) :
    (Trace.Always (State.step kinds key) (fun s => (s.view key).Accounts)
        (State.init n hasher) as ↔
      Trace.Each (State.step kinds key) (fun s a => (s.view key).initReturns a = true)
        (State.init n hasher) as) ∧
    ∀ s, Trace.run (State.step kinds key) (State.init n hasher) as = some s →
      Trace.Each (State.step kinds key) (fun s a => (s.view key).initReturns a = true)
        (State.init n hasher) as →
      (∀ i, ¬(s.view key).Holds i) → ∀ node, s.map.waiters key = some node →
        node.workers = 0 ∧ ∀ i joined w, (s.calls i).phase = .waiting joined →
          ∃ s', s.step kinds key (.wait i w) = some s' ∧ (s'.calls i).phase.works = true := by
  have hinit : ((State.init n hasher : State K V E ι).view key).Fits kinds ∧
      ((State.init n hasher : State K V E ι).view key).Accounted :=
    ⟨State.fits_init kinds n hasher, State.accounted_init n hasher⟩
  have hkeep : ∀ (s : State K V E ι) a s', (s.view key).Fits kinds ∧ (s.view key).Accounted →
      a.direct = false → (s.view key).initReturns a = true → s.step kinds key a = some s' →
      (s'.view key).Fits kinds ∧ (s'.view key).Accounted := fun _ _ _ h ha hok hstep =>
    ⟨h.1.step (State.step_view hstep), h.2.step h.1 hcoop (State.step_view hstep) ha hok⟩
  have henv : Trace.Each (State.step kinds key) (fun _ a => a.direct = false)
      (State.init n hasher) as := Trace.each_of_forall hdirect
  refine ⟨Trace.always_iff_each (fun _ h => h.2.accounts) hkeep
    (fun _ _ h _ hok => State.leaked_of_panic h.2 (Bool.eq_false_iff.mpr hok)) hinit henv, ?_⟩
  intro s hs hok hfree node hnode
  have hacc : (s.view key).Accounted := (Trace.inv_of_each
    (fun _ _ _ h hok => hkeep _ _ _ h hok.1 hok.2) hinit (henv.and hok) hs).2
  have hworkers : node.workers = 0 := by
    by_contra hpos
    obtain ⟨i, hi⟩ := (hacc.held node hnode).2 (Nat.pos_of_ne_zero hpos)
    exact hfree i hi
  refine ⟨hworkers, ?_⟩
  intro i joined w hp
  have hvalue : s.map.get key = none := hacc.stored (by simp [State.view, hnode])
  obtain ⟨s', hstep⟩ := State.exists_wait kinds key hp w
  exact ⟨s', hstep, (State.step_view hstep).works_of_wait hvalue fun m hm => by
    obtain rfl := Option.some.inj (hnode.symm.trans hm)
    exact hworkers⟩

/-- The future of call 0 panics while call 1 waits; the destructor gives the slot to call 1. -/
theorem accounting_of_panicked_future :
    Trace.Always (State.step (fun _ => .getOrInsert) 0) (fun s => (s.view 0).Accounts)
      (State.init 1 fun _ => 0 : State ℕ ℕ ℕ (Fin 2))
      [.start 0, .wait 0 0, .init 0 true, .start 1, .wait 1 1, .poll 0 .panicked, .drop 0,
        .wait 1 1] :=
  (accounting_iff _ 0 (fun _ => rfl) 1 (fun _ => 0) _ (by decide)).1.mpr (by decide)

/-- The `init` of call 0 panics. The entry counts a worker that nobody is, and call 1 waits for
it. -/
theorem leaked_worker :
    ∃ s : State ℕ ℕ ℕ (Fin 2),
      Trace.run (State.step (fun _ => .getOrInsert) 0) (State.init 1 fun _ => 0)
        [.start 0, .wait 0 0, .init 0 false, .start 1, .wait 1 1] = some s ∧
      s.map.waiters 0 = some ⟨1, [0, 1]⟩ ∧ (∀ i, ¬(s.view 0).Holds i) ∧
      (s.calls 1).phase = .waiting true ∧ ¬(s.view 0).Accounts := by
  refine ⟨_, rfl, by decide, by decide, rfl, ?_⟩
  exact KeyView.not_accounts (n := ⟨1, [0, 1]⟩) (by decide) (by decide) (by decide)

end LightCache
