import Mathlib.Data.Fintype.Basic
import LightCache.Policy.Tracking

/-!
# A cache shared by threads

A thread holds the policy lock for one section of its operation, and does what is left, one
operation on the map, after it released the lock. Two threads that write the same key can take
the lock in one order and reach the map in the other. Then the map holds a key that the policy
does not track, or the policy tracks one that the map does not hold.

Main result: `policies_stay_in_step`, for the LRU and the time-to-live policy. That the orders
matter shows `out_of_step`.
-/

namespace LightCache

section TableOp

variable {K V : Type} [DecidableEq K]

/-- The operation puts `k` into the map. -/
def TableOp.inserts (k : K) : TableOp K V → Bool
  | .insert key _ => key = k
  | _ => false

/-- The operation takes `k` out of the map. -/
def TableOp.removes (k : K) : TableOp K V → Bool
  | .remove key => key = k
  | _ => false

/-- The table operation that is left. -/
def Next.tableOp : Next K V → Option (TableOp K V)
  | .table op => some op
  | _ => none

theorem TableOp.isSome_get_run (op : TableOp K V) (m : LightMap K V) (k : K) :
    ((op.run m).2.get k).isSome ↔
      op.inserts k = true ∨ op.removes k = false ∧ (m.get k).isSome := by
  cases op with
  | get key => simp [run, inserts, removes]
  | insert key v =>
    rw [run, LightMap.get_insert]
    rcases eq_or_ne k key with rfl | hk
    · simp [inserts]
    · simp [hk, hk.symm, inserts, removes]
  | remove key =>
    rw [run, LightMap.get_remove]
    rcases eq_or_ne k key with rfl | hk
    · simp [inserts, removes]
    · simp [hk, hk.symm, inserts, removes]

end TableOp

/-- The cache, and what each thread still has to do on the map. -/
structure Threads (P K V ι : Type) [DecidableEq K] extends LightCacheInner P K V where
  pending : ι → Option (TableOp K V)

/-- The steps of the threads. -/
inductive ThreadStep (K V ι : Type)
  /-- Thread `i` starts the operation `op`: its section under the policy lock. -/
  | lock (i : ι) (rd : Readings) (op : Op K V)
  /-- Thread `i` does its table operation and returns. -/
  | table (i : ι)

namespace Threads

variable {P K V ι : Type} [DecidableEq K] [DecidableEq ι]

omit [DecidableEq ι] in
/-- `from_parts`, when no operation has started. -/
def start (policy : P) (n : ℕ+) (hasher : K → UInt64) : Threads P K V ι where
  toLightCacheInner := LightCacheInner.fromParts policy n hasher
  pending _ := none

/-- The section under the lock, of a thread that has nothing in flight. -/
def lock [Policy P K V] (s : Threads P K V ι) (i : ι) (rd : Readings) (op : Op K V) :
    Option (Threads P K V ι) :=
  match s.pending i, Policy.locked rd op s.policy s.map with
  | none, .ok (next, policy, map) =>
    some { policy, map, pending := Function.update s.pending i next.tableOp }
  | _, _ => none

/-- The table operation after the lock. -/
def table (s : Threads P K V ι) (i : ι) : Option (Threads P K V ι) :=
  match s.pending i with
  | some op => some {
      toLightCacheInner := (s.finish (.table op)).2
      pending := Function.update s.pending i none }
  | none => none

/-- One step of a thread. -/
def step [Policy P K V] (s : Threads P K V ι) : ThreadStep K V ι → Option (Threads P K V ι)
  | .lock i rd op => s.lock i rd op
  | .table i => s.table i

/-- No operation is in flight. -/
def Quiet (s : Threads P K V ι) : Prop := ∀ i, s.pending i = none

/-- Thread `i` is about to put `k` into the map. -/
def Inserts (s : Threads P K V ι) (i : ι) (k : K) : Prop :=
  (s.pending i).any (·.inserts k) = true

/-- Thread `i` is about to take `k` out of the map. -/
def Removes (s : Threads P K V ι) (i : ι) (k : K) : Prop :=
  (s.pending i).any (·.removes k) = true

instance (s : Threads P K V ι) (i : ι) (k : K) : Decidable (s.Inserts i k) :=
  inferInstanceAs (Decidable (_ = true))

instance (s : Threads P K V ι) (i : ι) (k : K) : Decidable (s.Removes i k) :=
  inferInstanceAs (Decidable (_ = true))

variable [Policy P K V] [Tracking P K V]

/-- The policy tracks `k`. -/
def Tracks (s : Threads P K V ι) (k : K) : Prop := Tracking.tracks V s.policy k

/-- The map holds the keys that the policy tracks. -/
def InStep (s : Threads P K V ι) : Prop := ∀ k, (s.map.get k).isSome ↔ s.Tracks k

/-- A write of thread `i` leaves its key in the map as the policy has it, or another thread is
about to change it. -/
def KeepsWrite (s : Threads P K V ι) (i : ι) : Option (TableOp K V) → Prop
  | some (.insert k _) => s.Tracks k ∨ ∃ j, j ≠ i ∧ s.Removes j k
  | some (.remove k) => ¬s.Tracks k ∨ ∃ j, j ≠ i ∧ s.Inserts j k
  | _ => True

/-- What the threads need of a step: the table operations keep their keys, and no insert
panics under the lock. -/
def KeepsStep (s : Threads P K V ι) : ThreadStep K V ι → Prop
  | .lock _ rd op => Tracking.fits s.toLightCacheInner rd op = true
  | .table i => s.KeepsWrite i (s.pending i)

instance (s : Threads P K V ι) (k : K) : Decidable (s.Tracks k) :=
  Tracking.decidableTracks s.policy k

instance [Fintype ι] (s : Threads P K V ι) (i : ι) :
    ∀ w, Decidable (s.KeepsWrite i w)
  | some (.insert k _) => inferInstanceAs (Decidable (s.Tracks k ∨ ∃ j, j ≠ i ∧ s.Removes j k))
  | some (.remove k) => inferInstanceAs (Decidable (¬s.Tracks k ∨ ∃ j, j ≠ i ∧ s.Inserts j k))
  | some (.get _) => isTrue trivial
  | none => isTrue trivial

instance [Fintype ι] (s : Threads P K V ι) : ∀ a, Decidable (s.KeepsStep a)
  | .lock _ rd op => inferInstanceAs (Decidable (Tracking.fits s.toLightCacheInner rd op = true))
  | .table i => inferInstanceAs (Decidable (s.KeepsWrite i (s.pending i)))

/-- Where the map and the policy differ, a thread is about to change the map. -/
structure Balanced (s : Threads P K V ι) : Prop where
  sound : Tracking.Sound K V s.policy
  missing : ∀ k, s.Tracks k → ¬(s.map.get k).isSome → ∃ j, s.Inserts j k
  extra : ∀ k, ¬s.Tracks k → (s.map.get k).isSome → ∃ j, s.Removes j k

variable {s s' t : Threads P K V ι} {i j : ι} {rd : Readings} {op : Op K V} {w : TableOp K V}
variable {k : K} {n : ℕ+} {hasher : K → UInt64}

/-! ## The table operation -/

omit [Policy P K V] [Tracking P K V] in
theorem table_eq_some (h : s.table i = some s') : ∃ w, s.pending i = some w ∧
    s'.policy = s.policy ∧ s'.map = (w.run s.map).2 ∧
    s'.pending = Function.update s.pending i none := by
  unfold table at h
  cases hp : s.pending i with
  | none =>
    rw [hp] at h
    cases h
  | some w =>
    rw [hp] at h
    obtain rfl := Option.some.inj h
    exact ⟨w, rfl, rfl, rfl, rfl⟩

omit [DecidableEq ι] in
theorem keepsWrite_iff : s.KeepsWrite i (some w) ↔
    (∀ k, w.inserts k = true → s.Tracks k ∨ ∃ j, j ≠ i ∧ s.Removes j k) ∧
      ∀ k, w.removes k = true → ¬s.Tracks k ∨ ∃ j, j ≠ i ∧ s.Inserts j k := by
  cases w <;> simp [KeepsWrite, TableOp.inserts, TableOp.removes]

omit [Policy P K V] [Tracking P K V] in
theorem inserts_of_update {o : Option (TableOp K V)}
    (hp : s'.pending = Function.update s.pending i o) (hji : j ≠ i) :
    s'.Inserts j k ↔ s.Inserts j k := by
  rw [Inserts, hp, Function.update_of_ne hji]
  rfl

omit [Policy P K V] [Tracking P K V] in
theorem removes_of_update {o : Option (TableOp K V)}
    (hp : s'.pending = Function.update s.pending i o) (hji : j ≠ i) :
    s'.Removes j k ↔ s.Removes j k := by
  rw [Removes, hp, Function.update_of_ne hji]
  rfl

theorem Balanced.table (h : s.Balanced) (hstep : s.table i = some s')
    (hok : s.KeepsStep (.table i)) : s'.Balanced := by
  obtain ⟨w, hw, hpolicy, hmap, hp⟩ := table_eq_some hstep
  rw [KeepsStep, hw, keepsWrite_iff] at hok
  have htracks (k : K) : s'.Tracks k ↔ s.Tracks k := by rw [Tracks, hpolicy]; rfl
  refine ⟨hpolicy ▸ h.sound, ?_, ?_⟩
  · intro k hk hnone
    rw [htracks] at hk
    rw [hmap, w.isSome_get_run, not_or, not_and] at hnone
    obtain ⟨hinserts, hgone⟩ := hnone
    have hother : ∃ j, j ≠ i ∧ s.Inserts j k := by
      cases hremoves : w.removes k with
      | true => exact (hok.2 k hremoves).resolve_left (not_not_intro hk)
      | false =>
        obtain ⟨j, hj⟩ := h.missing k hk (hgone hremoves)
        refine ⟨j, ?_, hj⟩
        rintro rfl
        exact hinserts (by simpa [Inserts, hw] using hj)
    obtain ⟨j, hji, hj⟩ := hother
    exact ⟨j, (inserts_of_update hp hji).mpr hj⟩
  · intro k hk hsome
    rw [htracks] at hk
    rw [hmap, w.isSome_get_run] at hsome
    have hother : ∃ j, j ≠ i ∧ s.Removes j k := by
      rcases hsome with hinserts | ⟨hremoves, hsome⟩
      · exact (hok.1 k hinserts).resolve_left hk
      · obtain ⟨j, hj⟩ := h.extra k hk hsome
        refine ⟨j, ?_, hj⟩
        rintro rfl
        have hself : w.removes k = true := by simpa [Removes, hw] using hj
        rw [hremoves] at hself
        cases hself
    obtain ⟨j, hji, hj⟩ := hother
    exact ⟨j, (removes_of_update hp hji).mpr hj⟩

/-! ## The section under the lock -/

/-- A lock section of a sound policy meets no fault, and is a `LockSection`. -/
theorem lock_ok (h : Tracking.Sound K V s.policy) (hi : s.pending i = none) (rd : Readings)
    (op : Op K V) : ∃ dead next s', s.lock i rd op = some s' ∧ s'.map = s.map.removeAll dead ∧
      s'.pending = Function.update s.pending i next.tableOp ∧ Tracking.Sound K V s'.policy ∧
      LockSection op s.Tracks s'.Tracks dead next ∧
      (Tracking.fits s.toLightCacheInner rd op = true → next ≠ .panicked) := by
  obtain ⟨dead, next, policy, hok, hsound, hsection, hfits⟩ :=
    Tracking.locked_ok s.policy s.map rd op h
  refine ⟨dead, next, {
      policy := policy
      map := s.map.removeAll dead
      pending := Function.update s.pending i next.tableOp }, ?_, rfl, rfl, hsound, hsection, hfits⟩
  rw [lock, hi, hok]

omit [Tracking P K V] in
theorem pending_of_lock (h : s.lock i rd op = some s') : s.pending i = none := by
  unfold lock at h
  cases hp : s.pending i with
  | none => rfl
  | some w => rw [hp] at h; cases h

theorem Balanced.lock (h : s.Balanced) (hstep : s.lock i rd op = some s')
    (hok : s.KeepsStep (.lock i rd op)) : s'.Balanced := by
  have hi := pending_of_lock hstep
  obtain ⟨dead, next, s₁, hlock, hmap, hp, hsound, hsection, hfits⟩ := lock_ok h.sound hi rd op
  obtain rfl := Option.some.inj (hstep.symm.trans hlock)
  have hinserts (j : ι) (k : K) (hj : s.Inserts j k) : s'.Inserts j k := by
    refine (inserts_of_update hp ?_).mpr hj
    rintro rfl
    simp [Inserts, hi] at hj
  have hremoves (j : ι) (k : K) (hj : s.Removes j k) : s'.Removes j k := by
    refine (removes_of_update hp ?_).mpr hj
    rintro rfl
    simp [Removes, hi] at hj
  refine ⟨hsound, ?_, ?_⟩
  · intro k hk hnone
    -- The key of the operation itself is missing until the insert is written.
    by_cases htarget : op.target = some k
    · cases op with
      | insert key v =>
        cases htarget
        obtain rfl := (hsection.inserts k v rfl).2.resolve_left (hfits hok)
        exact ⟨i, by simp [Inserts, hp, Next.tableOp, TableOp.inserts]⟩
      | remove key =>
        cases htarget
        exact absurd hk (hsection.removes k rfl).1
      | _ => cases htarget
    · obtain ⟨hk, hdead⟩ := (hsection.others k htarget).mp hk
      rw [hmap, LightMap.isSome_get_removeAll] at hnone
      obtain ⟨j, hj⟩ := h.missing k hk fun hsome => hnone ⟨hsome, hdead⟩
      exact ⟨j, hinserts j k hj⟩
  · intro k hk hsome
    -- Nor is it gone from the map until the removal is written.
    by_cases htarget : op.target = some k
    · cases op with
      | insert key v =>
        cases htarget
        exact absurd (hsection.inserts k v rfl).1 hk
      | remove key =>
        cases htarget
        obtain rfl := (hsection.removes k rfl).2
        exact ⟨i, by simp [Removes, hp, Next.tableOp, TableOp.removes]⟩
      | _ => cases htarget
    · rw [hsection.others k htarget] at hk
      rw [hmap, LightMap.isSome_get_removeAll] at hsome
      obtain ⟨j, hj⟩ := h.extra k (fun hk' => hk ⟨hk', hsome.2⟩) hsome.1
      exact ⟨j, hremoves j k hj⟩

theorem Balanced.step (h : s.Balanced) {a : ThreadStep K V ι} (hstep : s.step a = some s')
    (hok : s.KeepsStep a) : s'.Balanced := by
  cases a with
  | lock i rd op => exact h.lock hstep hok
  | table i => exact h.table hstep hok

omit [DecidableEq ι] in
theorem Balanced.inStep (h : s.Balanced) (hquiet : s.Quiet) : s.InStep := by
  intro k
  constructor
  · intro hsome
    by_contra hk
    obtain ⟨j, hj⟩ := h.extra k hk hsome
    simp [Removes, hquiet j] at hj
  · intro hk
    by_contra hnone
    obtain ⟨j, hj⟩ := h.missing k hk hnone
    simp [Inserts, hquiet j] at hj

/-! ## A write that does not keep its key -/

/-- The policy and the map differ in `k`, and no thread in flight will change that. -/
def Torn (s : Threads P K V ι) (k : K) : Prop :=
  (s.Tracks k ∧ ¬(s.map.get k).isSome ∧ ∀ j, ¬s.Inserts j k) ∨
    (¬s.Tracks k ∧ (s.map.get k).isSome ∧ ∀ j, ¬s.Removes j k)

theorem torn_of_table (hstep : s.table i = some s') (hnot : ¬s.KeepsStep (.table i)) :
    ∃ k, s'.Torn k := by
  obtain ⟨w, hw, hpolicy, hmap, hp⟩ := table_eq_some hstep
  have hself : s'.pending i = none := by rw [hp, Function.update_self]
  rw [KeepsStep, hw] at hnot
  cases w with
  | get => exact absurd trivial hnot
  | insert k v =>
    simp only [KeepsWrite, not_or, not_exists, not_and] at hnot
    refine ⟨k, Or.inr ⟨by rw [Tracks, hpolicy]; exact hnot.1, ?_, ?_⟩⟩
    · simp [hmap, TableOp.run, LightMap.get_insert]
    · intro j hj
      by_cases hji : j = i
      · simp [hji, Removes, hself] at hj
      · exact hnot.2 j hji ((removes_of_update hp hji).mp hj)
  | remove k =>
    simp only [KeepsWrite, not_or, not_exists, not_and, not_not] at hnot
    refine ⟨k, Or.inl ⟨by rw [Tracks, hpolicy]; exact hnot.1, ?_, ?_⟩⟩
    · simp [hmap, TableOp.run, LightMap.get_remove]
    · intro j hj
      by_cases hji : j = i
      · simp [hji, Inserts, hself] at hj
      · exact hnot.2 j hji ((inserts_of_update hp hji).mp hj)

theorem Torn.table (h : s.Torn k) (hstep : s.table i = some s') : s'.Torn k := by
  obtain ⟨w, hw, hpolicy, hmap, hp⟩ := table_eq_some hstep
  have hself : s'.pending i = none := by rw [hp, Function.update_self]
  rcases h with ⟨hk, hnone, hfree⟩ | ⟨hk, hsome, hfree⟩
  · refine Or.inl ⟨by rwa [Tracks, hpolicy], ?_, ?_⟩
    · rw [hmap, w.isSome_get_run]
      intro hcases
      obtain hinserts | ⟨-, hsome⟩ := hcases
      · exact hfree i (by simp [Inserts, hw, hinserts])
      · exact hnone hsome
    · intro j hj
      by_cases hji : j = i
      · simp [hji, Inserts, hself] at hj
      · exact hfree j ((inserts_of_update hp hji).mp hj)
  · refine Or.inr ⟨by rwa [Tracks, hpolicy], ?_, ?_⟩
    · rw [hmap, w.isSome_get_run]
      refine Or.inr ⟨?_, hsome⟩
      by_contra hremoves
      exact hfree i (by simp [Removes, hw, hremoves])
    · intro j hj
      by_cases hji : j = i
      · simp [hji, Removes, hself] at hj
      · exact hfree j ((removes_of_update hp hji).mp hj)

omit [DecidableEq ι] in
theorem Torn.not_inStep (h : s.Torn k) : ¬s.InStep := by
  intro hin
  rcases h with ⟨hk, hnone, -⟩ | ⟨hk, hsome, -⟩
  · exact hnone ((hin k).mpr hk)
  · exact hk ((hin k).mp hsome)

/-- Threads that are in flight can finish, one after the other. A torn key stays torn. -/
theorem exists_drain (l : List ι) (hl : ∀ i, s.pending i ≠ none → i ∈ l) (h : s.Torn k) :
    ∃ (is : List ι) (t : Threads P K V ι),
      Trace.run step s (is.map .table) = some t ∧ t.Quiet ∧ t.Torn k := by
  induction l generalizing s with
  | nil =>
    refine ⟨[], s, rfl, ?_, h⟩
    intro i
    by_contra hi
    exact List.not_mem_nil (hl i hi)
  | cons i l ih =>
    cases hw : s.pending i with
    | none =>
      refine ih (fun j hj => (List.mem_cons.mp (hl j hj)).resolve_left ?_) h
      rintro rfl
      exact hj hw
    | some w =>
      obtain ⟨s', hstep⟩ : ∃ s', s.table i = some s' := ⟨_, by rw [table, hw]⟩
      obtain ⟨-, -, -, -, hp⟩ := table_eq_some hstep
      have hl' : ∀ j, s'.pending j ≠ none → j ∈ l := fun j hj => by
        have hji : j ≠ i := fun hji => hj (by rw [hji, hp, Function.update_self])
        rw [hp, Function.update_of_ne hji] at hj
        exact (List.mem_cons.mp (hl j hj)).resolve_left hji
      obtain ⟨is, t, hrun, ht⟩ := ih hl' (h.table hstep)
      exact ⟨i :: is, t, Trace.run_cons_eq_some.mpr ⟨s', hstep, hrun⟩, ht⟩

/-! ## Runs -/

omit [Tracking P K V] in
theorem pending_step {a : ThreadStep K V ι} (hstep : s.step a = some s') :
    ∃ i o, s'.pending = Function.update s.pending i o := by
  cases a with
  | lock i rd op =>
    have hi := pending_of_lock hstep
    simp only [step, lock, hi] at hstep
    split at hstep
    · obtain rfl := Option.some.inj hstep
      exact ⟨i, _, rfl⟩
    · cases hstep
  | table i =>
    obtain ⟨w, -, -, -, hp⟩ := table_eq_some hstep
    exact ⟨i, none, hp⟩

/-- Finitely many threads are in flight. -/
def InFlight (s : Threads P K V ι) : Prop := ∃ l : List ι, ∀ i, s.pending i ≠ none → i ∈ l

omit [Tracking P K V] in
theorem InFlight.step (h : s.InFlight) {a : ThreadStep K V ι} (hstep : s.step a = some s') :
    s'.InFlight := by
  obtain ⟨i, o, hp⟩ := pending_step hstep
  obtain ⟨l, hl⟩ := h
  refine ⟨i :: l, ?_⟩
  intro j hj
  by_cases hji : j = i
  · exact hji ▸ List.mem_cons_self
  · rw [hp, Function.update_of_ne hji] at hj
    exact List.mem_cons_of_mem i (hl j hj)

omit [DecidableEq ι] in
theorem balanced_start {policy : P} (hsound : Tracking.Sound K V policy)
    (hempty : ∀ k : K, ¬Tracking.tracks V policy k) (n : ℕ+) (hasher : K → UInt64) :
    (start policy n hasher : Threads P K V ι).Balanced where
  sound := hsound
  missing k hk := absurd hk (hempty k)
  extra k _ hsome := by simp [start, LightCacheInner.fromParts] at hsome

/-- What holds in every state that is reached from `s₀` by steps that keep step: no lock section
meets a fault; when nothing is in flight, the map holds the keys that the policy tracks; and
after a write that does not keep its key, this fails once the others in flight are done. -/
def StaysInStep (s₀ : Threads P K V ι) : Prop :=
  ∀ as s, Trace.run step s₀ as = some s → Trace.Each step KeepsStep s₀ as →
    (∀ i rd op, s.pending i = none → ∃ s', s.step (.lock i rd op) = some s') ∧
    (s.Quiet → s.InStep) ∧
    ∀ i s', s.step (.table i) = some s' → ¬s.KeepsStep (.table i) →
      ∃ (is : List ι) (t : Threads P K V ι),
        Trace.run step s' (is.map .table) = some t ∧ t.Quiet ∧ ¬t.InStep

theorem staysInStep {policy : P} (hsound : Tracking.Sound K V policy)
    (hempty : ∀ k : K, ¬Tracking.tracks V policy k) (n : ℕ+) (hasher : K → UInt64) :
    (start policy n hasher : Threads P K V ι).StaysInStep := by
  intro as s hs hok
  obtain ⟨hs, hflight⟩ : s.Balanced ∧ s.InFlight :=
    Trace.inv_of_each (P := fun s : Threads P K V ι => s.Balanced ∧ s.InFlight)
      (fun _ _ _ h hok hstep => ⟨h.1.step hstep hok, h.2.step hstep⟩)
      ⟨balanced_start hsound hempty n hasher, [], fun i hi => absurd rfl hi⟩ hok hs
  refine ⟨?_, hs.inStep, ?_⟩
  · intro i rd op hi
    obtain ⟨-, -, s', hlock, -⟩ := lock_ok hs.sound hi rd op
    exact ⟨s', hlock⟩
  · intro i s' hstep hnot
    obtain ⟨l, hl⟩ := hflight.step hstep
    obtain ⟨k, hk⟩ := torn_of_table hstep hnot
    obtain ⟨is, t, hrun, hquiet, ht⟩ := exists_drain l hl hk
    exact ⟨is, t, hrun, hquiet, ht.not_inStep⟩

end Threads

/-- **Policy and map in step.** For the LRU and the time-to-live policy: as long as every table
operation keeps its key and no insert overflows its expiry, the map holds the keys in the arena
whenever nothing is in flight. -/
theorem policies_stay_in_step {K V Q ι : Type} [DecidableEq K] [DecidableEq ι]
    [PriorityQueue K Instantᵒᵈ Q] (capacity : ℕ) (hcap : 1 < capacity) (ttl : Option Duration)
    (life : Duration) (n : ℕ+) (hasher : K → UInt64) :
    (Threads.start (LruPolicyInner.new capacity hcap ttl) n hasher :
      Threads (LruPolicyInner K Q) K V ι).StaysInStep ∧
    (Threads.start (TtlPolicyInner.new life) n hasher :
      Threads (TtlPolicyInner K) K V ι).StaysInStep :=
  ⟨Threads.staysInStep (LruPolicyInner.sound_new capacity hcap ttl)
      (LruPolicyInner.not_tracks_new capacity hcap ttl) n hasher,
    Threads.staysInStep (TtlPolicyInner.sound_new life) (TtlPolicyInner.not_tracks_new life) n
      hasher⟩

/-- Two threads take the lock in turn, and write the map in the same order. -/
theorem policies_stay_in_step_two_threads :
    ∃ s : Threads (LruPolicyInner ℕ (SortedQueue ℕ Instantᵒᵈ)) ℕ ℕ (Fin 2),
      Trace.run Threads.step
        (Threads.start (LruPolicyInner.new 2 (by decide) (some 5)) 1 fun _ => 0)
        [.lock 0 (.single 0 0) (.insert 1 10), .lock 1 (.single 1 1) (.remove 1), .table 0,
          .table 1] = some s ∧ s.Quiet ∧ s.InStep := by
  have hstart := (@policies_stay_in_step ℕ ℕ (SortedQueue ℕ Instantᵒᵈ) (Fin 2) _ _ _ 2 (by decide)
    (some 5) 0 1 fun _ => 0).1
  obtain ⟨-, hstep, -⟩ := hstart
    [.lock 0 (.single 0 0) (.insert 1 10), .lock 1 (.single 1 1) (.remove 1), .table 0, .table 1]
    _ rfl (by decide)
  refine ⟨_, rfl, ?_, hstep ?_⟩ <;>
    · unfold Threads.Quiet
      decide

/-- Thread 0 inserts key 1 and thread 1 removes it. Under the lock the insert comes first, in
the map the removal does. The key stays in the map, where the policy will never find it. -/
theorem out_of_step :
    (∃ s : Threads (LruPolicyInner ℕ (SortedQueue ℕ Instantᵒᵈ)) ℕ ℕ (Fin 2),
      Trace.run Threads.step (Threads.start (LruPolicyInner.new 2 (by decide) none) 1 fun _ => 0)
        [.lock 0 (.single 0 0) (.insert 1 10), .lock 1 (.single 1 1) (.remove 1), .table 1,
          .table 0] = some s ∧
      s.Quiet ∧ s.map.get 1 = some 10 ∧ 1 ∉ s.policy.arena.idxOf) ∧
    ∃ s : Threads (TtlPolicyInner ℕ) ℕ ℕ (Fin 2),
      Trace.run Threads.step (Threads.start (TtlPolicyInner.new 5) 1 fun _ => 0)
        [.lock 0 (.single 0 0) (.insert 1 10), .lock 1 (.single 1 1) (.remove 1), .table 1,
          .table 0] = some s ∧
      s.Quiet ∧ s.map.get 1 = some 10 ∧ 1 ∉ s.policy.arena.idxOf := by
  refine ⟨⟨_, rfl, ?_, by decide, by decide⟩, _, rfl, ?_, by decide, by decide⟩ <;>
    · unfold Threads.Quiet
      decide

end LightCache
