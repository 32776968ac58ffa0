import LightCache.Policy.TtlFresh
import LightCache.Refresh.Passes

/-!
# What a waiting call finds

A call that waits for another one reads the table in its later polls, and leaves the policy alone:
its lookup was before. So what it returns was not too old when the last prune pass read the clock,
but it may be too old by the time of the poll. The prune pass of another call may even be under way,
and have yet to come to it.

When values were inserted, and when the prune passes since then ended, is kept in a history
variable, the ledger. A prune pass between the section of an insert under the policy lock and its
write of the table can drop the key from the arena alone. Then nothing removes the value any more,
and the entry is marked as lost.

Main result: `waiting_value_young`. That the poll does not look at the clock shows
`waiting_value_expired`.
-/

namespace LightCache

namespace Refresh

open TtlPolicyInner

/-- The last insert of a key: the reading of its section under the policy lock, its value, whether a
prune pass dropped the key before the table was written, and the last readings of the prune passes
that ended since. -/
structure Entry (V : Type) where
  stamp : Instant
  value : V
  lost : Bool
  seen : List Instant
  deriving DecidableEq, Repr

/-- No prune pass since ended after the expiry. -/
def Entry.Young {V : Type} (ttl : Duration) (e : Entry V) : Prop :=
  ∀ r ∈ e.seen, Instant.durationSince r e.stamp ≤ ttl

/-- The last insert of each key. -/
abbrev Ledger (K V : Type) := K → Option (Entry V)

variable {K V E ι : Type} [DecidableEq K] [DecidableEq ι]

namespace Ledger

/-- Nothing was inserted. -/
def empty : Ledger K V := fun _ => none

/-- A round that takes the cache `c` to `c'` drops the key from the arena when the table does not
hold it. -/
def drops (c c' : RefreshCache K V) (k : K) : Bool :=
  c.map.get k = none ∧ k ∈ c.policy.arena.idxOf ∧ k ∉ c'.policy.arena.idxOf

/-- The ledger after a round at `t`, from `x` to `x'`. -/
def round (l : Ledger K V) (t : Instant) (x x' : PassState K V E ι) : Ledger K V := fun k =>
  (l k).map fun e => { e with
    lost := e.lost || drops x.cache x'.cache k
    seen := if x'.pass.any Pass.ended then t :: e.seen else e.seen }

section Round

variable {l : Ledger K V} {t : Instant} {x x' : PassState K V E ι} {k : K} {e : Entry V}

omit [DecidableEq ι] in
theorem round_goes_on (hended : x'.pass.any Pass.ended = false) (he : l k = some e) :
    l.round t x x' k = some { e with lost := e.lost || drops x.cache x'.cache k } := by
  rw [round, he, hended]
  rfl

omit [DecidableEq ι] in
theorem round_ends (hended : x'.pass.any Pass.ended = true) (hcache : x'.cache = x.cache)
    (he : l k = some e) : l.round t x x' k = some { e with seen := t :: e.seen } := by
  rw [round, he, hended, hcache]
  simp [drops]

end Round

variable (keys : ι → K)

/-- The ledger after a step from `x` to `x'`. -/
def after (x : PassState K V E ι) (label : PassLabel V E ι) (x' : PassState K V E ι)
    (l : Ledger K V) : Ledger K V :=
  match label, x.pass.map fun p => (p.call, x.phase p.call) with
  | .round t, _ => l.round t x x'
  | .release now, some (i, .inserting value) =>
    Function.update l (keys i) (some { stamp := now, value, lost := false, seen := [] })
  | _, _ => l

end Ledger

variable (keys : ι → K)

/-- The system with the ledger. -/
def PassState.ledgerStep : PassState K V E ι × Ledger K V → PassLabel V E ι →
    Option (PassState K V E ι × Ledger K V) :=
  Trace.recording (PassState.step keys) (Ledger.after keys)

/-- When the step happens, if that is recorded. -/
def PassLabel.reading : PassLabel V E ι → Option Instant
  | .step (.wait _ _ now) | .round now | .release now => some now
  | _ => none

/-- The clock, `t₀` at first, never goes back. -/
def Onward : Instant → List (PassLabel V E ι) → Prop
  | _, [] => True
  | t₀, label :: labels =>
    t₀ ≤ label.reading.getD t₀ ∧ Onward (label.reading.getD t₀) labels

/-- The arena holds the last inserts, unless they were lost, and the table holds them too, unless
the call that inserts is still at work. -/
structure Kept (ttl : Duration) (s : State K V E ι) (l : Ledger K V) (ts : List (K × Instant))
    (clock : Instant) : Prop where
  ttl_eq : s.cache.policy.ttl = ttl
  stamped : Stamped s.cache.policy.arena ts
  tailKnown : s.cache.policy.arena.TailKnown
  sorted : ts.Pairwise fun a b => b.2 ≤ a.2
  past : ∀ e ∈ ts, e.2 ≤ clock
  entry : ∀ k u, (k, u) ∈ ts → ∃ e, l k = some e ∧ e.stamp = u ∧ e.Young ttl
  mapped : ∀ k v, s.cache.map.get k = some v →
    ∃ e, l k = some e ∧ e.value = v ∧ (e.lost = true ∨ (k, e.stamp) ∈ ts)
  stored : ∀ k u, (k, u) ∈ ts → s.cache.map.get k = none →
    ∃ i v next, keys i = k ∧ s.phase i = .tracked v next
  locked : ∀ i, (s.phase i).Inserts →
    s.holder (s.cache.map.index (keys i)) = some i ∧ s.cache.map.get (keys i) = none
  inserting : ∀ i v, s.phase i = .inserting v → keys i ∉ ts.map Prod.fst
  tracked : ∀ i v next, s.phase i = .tracked v next → next = .table (.insert (keys i) v) ∧
    ∃ e, l (keys i) = some e ∧ e.value = v ∧ (e.lost = true ∨ (keys i, e.stamp) ∈ ts)

section Kept

variable {keys : ι → K} {ttl : Duration} {s s' : State K V E ι} {l : Ledger K V}
variable {ts : List (K × Instant)} {i j : ι} {c : RefreshCache K V} {v : V}
variable {phase : Phase K V E} {clock now : Instant} {x x' : PassState K V E ι}

omit [DecidableEq ι] in
theorem kept_init (ttl : Duration) (n : ℕ+) (hasher : K → UInt64) :
    Kept keys ttl (State.init ttl n hasher : State K V E ι) Ledger.empty [] 0 where
  ttl_eq := rfl
  stamped := stamped_new
  tailKnown := LinkedArena.tailKnown_new
  sorted := List.Pairwise.nil
  past e he := absurd he List.not_mem_nil
  entry k u hu := absurd hu List.not_mem_nil
  mapped k v hv := by simp [State.init, RefreshCache.new, LightCacheInner.fromParts] at hv
  stored k u hu := absurd hu List.not_mem_nil
  locked i hi := by cases hi
  inserting i v hi := by cases hi
  tracked i v next hi := by cases hi

omit [DecidableEq ι] in
theorem Kept.inserts_unique (h : Kept keys ttl s l ts clock) (hi : (s.phase i).Inserts)
    (hj : (s.phase j).Inserts) (hkey : keys i = keys j) : i = j := by
  have hi := (h.locked i hi).1
  rw [hkey, (h.locked j hj).1] at hi
  exact (Option.some.inj hi).symm

omit [DecidableEq K] [DecidableEq ι] in
theorem ne_of_inserts {f : ι → Phase K V E} {p : Phase K V E} (hi : f i = p) (hp : ¬p.Inserts)
    (hj : (f j).Inserts) : j ≠ i := by
  rintro rfl
  exact hp (hi ▸ hj)

/-- A step that reads the table at most, of a call that does not insert. -/
theorem Kept.quiet (h : Kept keys ttl s l ts clock) {p : Phase K V E} (hi : s.phase i = p)
    (hp : ¬p.Inserts) (hphase : ¬phase.Inserts)
    {map : LightMap K V} (hget : ∀ k, map.get k = s.cache.map.get k)
    (hindex : ∀ k, map.index k = s.cache.map.index k) (hnow : clock ≤ now) :
    Kept keys ttl (s.put i phase ⟨s.cache.policy, map⟩) l ts now := by
  have hother {j : ι} (hj : ((s.put i phase ⟨s.cache.policy, map⟩).phase j).Inserts) : j ≠ i :=
    ne_of_inserts phase_put hphase hj
  have hsame {j : ι} (hj : j ≠ i) :
      (s.put i phase ⟨s.cache.policy, map⟩).phase j = s.phase j := phase_put_of_ne hj
  refine ⟨h.ttl_eq, h.stamped, h.tailKnown, h.sorted, fun e he => (h.past e he).trans hnow, h.entry,
    fun k v hv => h.mapped k v ((hget k).symm.trans hv), ?_, ?_, ?_, ?_⟩
  · intro k u hu hk
    -- The call at work on the key is another one.
    obtain ⟨j, v, next, hkey, hj⟩ := h.stored k u hu ((hget k).symm.trans hk)
    have hji : j ≠ i := ne_of_inserts hi hp (by rw [hj]; trivial)
    exact ⟨j, v, next, hkey, (hsame hji).trans hj⟩
  · intro j hj
    rw [hsame (hother hj)] at hj
    obtain ⟨hholder, hnone⟩ := h.locked j hj
    exact ⟨(congrArg s.holder (hindex _)).trans hholder, (hget _).trans hnone⟩
  · intro j v hj
    rw [hsame (hother (by rw [hj]; trivial))] at hj
    exact h.inserting j v hj
  · intro j v next hj
    rw [hsame (hother (by rw [hj]; trivial))] at hj
    exact h.tracked j v next hj

/-! ## A prune pass -/

omit [DecidableEq ι] in
/-- A round that drops the last stamp. -/
theorem Kept.dropLast {u : K × Instant} (h : Kept keys ttl x.toState l (ts ++ [u]) clock)
    (hnow : clock ≤ now) {arena : LinkedArena K (TtlNode K)} (hstamped : Stamped arena ts)
    (htail : arena.TailKnown) (hended : x.pass.any Pass.ended = false)
    (hx' : x' = { x with cache := ⟨{ x.cache.policy with arena }, (x.cache.map.remove u.1).2⟩ }) :
    Kept keys ttl x'.toState (l.round now x x') ts now := by
  have hended' : x'.pass.any Pass.ended = false := by rw [hx', hended]
  have hnd := h.stamped.lists.nodup
  have hlast (k : K) : k ∈ ts.map Prod.fst ↔ k ∈ (ts ++ [u]).map Prod.fst ∧ k ≠ u.1 := by
    simpa using mem_kept rfl hnd k
  have hget (k : K) : x'.cache.map.get k = if k = u.1 then none else x.cache.map.get k := by
    rw [hx']
    exact LightMap.get_remove ..
  have hindex (k : K) : x'.cache.map.index k = x.cache.map.index k := by
    rw [hx']
    exact LightMap.index_remove ..
  have hphase : x'.phase = x.phase := by rw [hx']
  have hholder : x'.holder = x.holder := by rw [hx']
  refine ⟨by rw [hx']; exact h.ttl_eq, by rw [hx']; exact hstamped, by rw [hx']; exact htail,
    (List.pairwise_append.mp h.sorted).1, ?_, ?_, ?_, ?_, ?_, ?_, ?_⟩
  · intro e he
    exact (h.past e (List.mem_append_left _ he)).trans hnow
  · intro k t hk
    obtain ⟨e, he, rfl, hseen⟩ := h.entry k t (List.mem_append_left _ hk)
    exact ⟨_, Ledger.round_goes_on hended' he, rfl, hseen⟩
  · intro k v hk
    rw [hget] at hk
    split_ifs at hk with hku
    obtain ⟨e, he, hv, hlost⟩ := h.mapped k v hk
    refine ⟨_, Ledger.round_goes_on hended' he, hv, ?_⟩
    rcases hlost with hlost | hmem
    · exact Or.inl (by simp [hlost])
    · right
      refine (List.mem_append.mp hmem).resolve_right fun hmem => hku ?_
      exact congrArg Prod.fst (List.mem_singleton.mp hmem)
  · intro k t hk hnone
    have hku : k ≠ u.1 := ((hlast k).mp (List.mem_map.mpr ⟨_, hk, rfl⟩)).2
    rw [hget, if_neg hku] at hnone
    rw [hphase]
    exact h.stored k t (List.mem_append_left _ hk) hnone
  · intro j hj
    rw [hphase] at hj
    obtain ⟨hlock, hnone⟩ := h.locked j hj
    refine ⟨by rw [hholder, hindex]; exact hlock, ?_⟩
    rw [hget, hnone, ite_self]
  · intro j v hj hkey
    rw [hphase] at hj
    exact h.inserting j v hj ((hlast _).mp hkey).1
  · intro j v next hj
    rw [hphase] at hj
    obtain ⟨hnext, e, he, hv, hlost⟩ := h.tracked j v next hj
    refine ⟨hnext, _, Ledger.round_goes_on hended' he, hv, ?_⟩
    rcases hlost with hlost | hmem
    · exact Or.inl (by simp [hlost])
    rcases List.mem_append.mp hmem with hmem | hmem
    · exact Or.inr hmem
    · -- The round drops the key before the table is written.
      obtain rfl := List.mem_singleton.mp hmem
      have hnone := (h.locked j (by rw [hj]; trivial)).2
      have hin : keys j ∈ x.cache.policy.arena.idxOf := by
        rw [h.stamped.lists.mem_idxOf]
        simp
      have hout : keys j ∉ x'.cache.policy.arena.idxOf := by
        rw [hx']
        exact fun hout => ((hlast _).mp (hstamped.lists.mem_idxOf.mp hout)).2 rfl
      exact Or.inl (by simp [Ledger.drops, hnone, hin, hout])

omit [DecidableEq ι] in
theorem Kept.ended (h : Kept keys ttl x.toState l ts clock) (hnow : clock ≤ now)
    (hyoung : ∀ e ∈ ts, Instant.durationSince now e.2 ≤ ttl)
    (hended : x'.pass.any Pass.ended = true) (hx' : x'.toState = x.toState) :
    Kept keys ttl x'.toState (l.round now x x') ts now := by
  have hcache : x'.cache = x.cache := congrArg State.cache hx'
  rw [hx']
  refine ⟨h.ttl_eq, h.stamped, h.tailKnown, h.sorted, fun e he => (h.past e he).trans hnow, ?_, ?_,
    h.stored, h.locked, h.inserting, ?_⟩
  · intro k u hu
    obtain ⟨e, he, rfl, hseen⟩ := h.entry k u hu
    refine ⟨_, Ledger.round_ends hended hcache he, rfl, ?_⟩
    intro r hr
    rcases List.mem_cons.mp hr with rfl | hr
    · exact hyoung _ hu
    · exact hseen r hr
  · intro k v hk
    obtain ⟨e, he, hv, hlost⟩ := h.mapped k v hk
    exact ⟨_, Ledger.round_ends hended hcache he, hv, hlost⟩
  · intro j v next hj
    obtain ⟨hnext, e, he, hv, hlost⟩ := h.tracked j v next hj
    exact ⟨hnext, _, Ledger.round_ends hended hcache he, hv, hlost⟩

omit [DecidableEq ι] in
theorem Kept.round (h : Kept keys ttl x.toState l ts clock) (hnow : clock ≤ now)
    (hstep : x.round now = some x') :
    ∃ ts', Kept keys ttl x'.toState (l.round now x x') ts' now := by
  rw [PassState.round] at hstep
  rcases hpass : x.pass with _ | ⟨i, _ | _⟩
  · simp [hpass] at hstep
  · rcases round_ok h.stamped now x.cache.map with
      ⟨ts', u, arena, rfl, -, hround, hstamped, htail⟩ | ⟨hround, hyoung⟩
    · simp only [hpass, hround] at hstep
      refine ⟨ts', h.dropLast hnow hstamped htail (by rw [hpass]; rfl) ?_⟩
      rw [← Option.some.inj hstep, hpass]
    · simp only [hpass, hround] at hstep
      obtain rfl := Option.some.inj hstep
      refine ⟨ts, h.ended hnow ?_ rfl rfl⟩
      rw [← h.ttl_eq]
      exact young_of_last h.sorted (hyoung h.tailKnown)
  · simp [hpass] at hstep

/-! ## An insert -/

/-- The check finds no value, and takes the lock. -/
theorem Kept.check (h : Kept keys ttl s l ts clock) {p : Phase K V E} (hi : s.phase i = p)
    (hp : ¬p.Inserts) (hfree : s.Free (keys i)) (hnone : s.cache.map.get (keys i) = none) :
    Kept keys ttl ((s.put i (.inserting v) s.cache).lock i (keys i)) l ts clock := by
  have hholder {n : ℕ} (hn : n ≠ s.cache.map.index (keys i)) :
      ((s.put i (.inserting v) s.cache).lock i (keys i)).holder n = s.holder n :=
    Function.update_of_ne hn ..
  have hsame {j : ι} (hj : j ≠ i) :
      ((s.put i (.inserting v) s.cache).lock i (keys i)).phase j = s.phase j :=
    phase_put_of_ne (c := s.cache) hj
  have hself : ((s.put i (.inserting v) s.cache).lock i (keys i)).phase i = .inserting v :=
    phase_put (c := s.cache)
  refine ⟨h.ttl_eq, h.stamped, h.tailKnown, h.sorted, h.past, h.entry, h.mapped, ?_, ?_, ?_, ?_⟩
  · intro k u hu hk
    obtain ⟨j, w, next, hkey, hj⟩ := h.stored k u hu hk
    have hji : j ≠ i := ne_of_inserts hi hp (by rw [hj]; trivial)
    exact ⟨j, w, next, hkey, (hsame hji).trans hj⟩
  · intro j hj
    rcases eq_or_ne j i with rfl | hji
    · exact ⟨Function.update_self .., hnone⟩
    · rw [hsame hji] at hj
      obtain ⟨hlock, hget⟩ := h.locked j hj
      refine ⟨(hholder ?_).trans hlock, hget⟩
      intro hindex
      have hindex : s.cache.map.index (keys j) = s.cache.map.index (keys i) := hindex
      rw [hindex, show s.holder _ = none from hfree] at hlock
      cases hlock
  · intro j w hj hkey
    rcases eq_or_ne j i with rfl | hji
    · -- A key that the arena alone holds has its lock taken.
      obtain ⟨⟨k, u⟩, hu, hk⟩ := List.mem_map.mp hkey
      obtain rfl : k = keys j := hk
      obtain ⟨j', w', next, hkey', hj'⟩ := h.stored _ u hu hnone
      have hlock := (h.locked j' (by rw [hj']; trivial)).1
      rw [hkey', show s.holder _ = none from hfree] at hlock
      cases hlock
    · exact h.inserting j w ((hsame hji).symm.trans hj) hkey
  · intro j w next hj
    rcases eq_or_ne j i with rfl | hji
    · cases hself.symm.trans hj
    · exact h.tracked j w next ((hsame hji).symm.trans hj)

/-- The section under the policy lock, after its prune pass. -/
theorem Kept.track (h : Kept keys ttl s l ts clock) (hi : s.phase i = .inserting v)
    (hclock : clock ≤ now) {p : TtlPolicyInner K} (httl : p.ttl = s.cache.policy.ttl)
    (hstamped : Stamped p.arena (restamp ts (keys i) now)) (htail : p.arena.TailKnown) :
    Kept keys ttl (s.put i (.tracked v (.table (.insert (keys i) v))) ⟨p, s.cache.map⟩)
      (Function.update l (keys i) (some { stamp := now, value := v, lost := false, seen := [] }))
      (restamp ts (keys i) now) now := by
  have hinserts : (s.phase i).Inserts := by rw [hi]; trivial
  obtain ⟨hlock, hnone⟩ := h.locked i hinserts
  have hsame {j : ι} (hj : j ≠ i) :
      (s.put i (.tracked v (.table (.insert (keys i) v))) ⟨p, s.cache.map⟩).phase j = s.phase j :=
    phase_put_of_ne hj
  have hkeys {j : ι} (hj : (s.phase j).Inserts) (hji : j ≠ i) : keys j ≠ keys i := fun hkey =>
    hji (h.inserts_unique hj hinserts hkey)
  refine ⟨httl.trans h.ttl_eq, hstamped, htail, ?_, ?_, ?_, ?_, ?_, ?_, ?_, ?_⟩
  -- The new stamp is the latest.
  · refine List.pairwise_cons.mpr ⟨?_, h.sorted.sublist List.filter_sublist⟩
    exact fun e he => (h.past e (List.mem_of_mem_filter he)).trans hclock
  · intro e he
    rcases mem_restamp.mp he with rfl | ⟨he, -⟩
    · exact le_rfl
    · exact (h.past e he).trans hclock
  · intro k u hu
    rcases mem_restamp.mp hu with heq | ⟨hu, hk⟩
    · obtain ⟨rfl, rfl⟩ := Prod.mk.inj heq
      exact ⟨_, Function.update_self .., rfl, fun r hr => absurd hr List.not_mem_nil⟩
    · obtain ⟨e, he, hstamp, hyoung⟩ := h.entry k u hu
      exact ⟨e, (Function.update_of_ne hk ..).trans he, hstamp, hyoung⟩
  · intro k w hk
    -- The table does not hold the key yet.
    have hne : k ≠ keys i := by
      rintro rfl
      cases hnone.symm.trans hk
    obtain ⟨e, he, hw, hlost⟩ := h.mapped k w hk
    exact ⟨e, (Function.update_of_ne hne ..).trans he, hw,
      hlost.imp_right fun hu => mem_restamp.mpr (Or.inr ⟨hu, hne⟩)⟩
  · intro k u hu hk
    rcases mem_restamp.mp hu with heq | ⟨hu, hne⟩
    · obtain ⟨rfl, rfl⟩ := Prod.mk.inj heq
      exact ⟨i, v, _, rfl, phase_put⟩
    · obtain ⟨j, w, next, hkey, hj⟩ := h.stored k u hu hk
      have hji : j ≠ i := by
        rintro rfl
        exact hne hkey.symm
      exact ⟨j, w, next, hkey, (hsame hji).trans hj⟩
  · intro j hj
    rcases eq_or_ne j i with rfl | hji
    · exact ⟨hlock, hnone⟩
    · rw [hsame hji] at hj
      exact h.locked j hj
  · intro j w hj hkey
    have hji : j ≠ i := by
      rintro rfl
      cases (phase_put (s := s)).symm.trans hj
    rw [hsame hji] at hj
    obtain ⟨⟨k, u⟩, hu, hk⟩ := List.mem_map.mp hkey
    obtain rfl : k = keys j := hk
    rcases mem_restamp.mp hu with heq | ⟨hu, -⟩
    -- Another call that inserts holds the lock of another shard.
    · exact hkeys (by rw [hj]; trivial) hji (Prod.mk.inj heq).1
    · exact h.inserting j w hj (List.mem_map.mpr ⟨_, hu, rfl⟩)
  · intro j w next hj
    rcases eq_or_ne j i with rfl | hji
    · cases (phase_put (s := s)).symm.trans hj
      exact ⟨rfl, _, Function.update_self .., rfl, Or.inr (mem_restamp.mpr (Or.inl rfl))⟩
    · rw [hsame hji] at hj
      have hne := hkeys (by rw [hj]; trivial) hji
      obtain ⟨hnext, e, he, hw, hlost⟩ := h.tracked j w next hj
      exact ⟨hnext, e, (Function.update_of_ne hne ..).trans he, hw,
        hlost.imp_right fun hu => mem_restamp.mpr (Or.inr ⟨hu, hne⟩)⟩

theorem Kept.write (h : Kept keys ttl s l ts clock) {next : Next K V}
    (hi : s.phase i = .tracked v next) (hphase : ¬phase.Inserts)
    (hpolicy : c.policy = s.cache.policy)
    (hget : ∀ k, c.map.get k = if k = keys i then some v else s.cache.map.get k)
    (hindex : ∀ k, c.map.index k = s.cache.map.index k) :
    Kept keys ttl ((s.put i phase c).unlock i) l ts clock := by
  obtain ⟨policy, map⟩ := c
  obtain rfl : policy = s.cache.policy := hpolicy
  have hinserts : (s.phase i).Inserts := by rw [hi]; trivial
  have hsame {j : ι} (hj : j ≠ i) :
      ((s.put i phase ⟨s.cache.policy, map⟩).unlock i).phase j = s.phase j :=
    phase_put_of_ne (c := ⟨s.cache.policy, map⟩) hj
  have hother {j : ι} (hj : (((s.put i phase ⟨s.cache.policy, map⟩).unlock i).phase j).Inserts) :
      j ≠ i :=
    ne_of_inserts (phase_put (c := ⟨s.cache.policy, map⟩)) hphase hj
  refine ⟨h.ttl_eq, h.stamped, h.tailKnown, h.sorted, h.past, h.entry, ?_, ?_, ?_, ?_, ?_⟩
  · intro k w hk
    have hk : map.get k = some w := hk
    rw [hget] at hk
    split_ifs at hk with hkey
    · obtain rfl := Option.some.inj hk
      -- The value is that of the stamp, or the stamp was lost before.
      obtain ⟨-, e, he, hw, hlost⟩ := h.tracked i v next hi
      exact ⟨e, by rw [hkey, he], hw, by rwa [hkey]⟩
    · exact h.mapped k w hk
  · intro k u hu hk
    have hk : map.get k = none := hk
    rw [hget] at hk
    split_ifs at hk with hkey
    obtain ⟨j, w, next, hj, hphase⟩ := h.stored k u hu hk
    have hji : j ≠ i := by
      rintro rfl
      exact hkey hj.symm
    exact ⟨j, w, next, hj, (hsame hji).trans hphase⟩
  · intro j hj
    have hji := hother hj
    rw [hsame hji] at hj
    obtain ⟨hlock, hnone⟩ := h.locked j hj
    constructor
    -- A call that still inserts keeps its lock.
    · show (if s.holder (map.index (keys j)) = some i then none
        else s.holder (map.index (keys j))) = some j
      rw [hindex, hlock, if_neg fun hij => hji (Option.some.inj hij)]
    · show map.get (keys j) = none
      rw [hget, if_neg fun hkey => hji (h.inserts_unique hj hinserts hkey)]
      exact hnone
  · intro j w hj
    have hji := hother (by rw [hj]; trivial)
    exact h.inserting j w ((hsame hji).symm.trans hj)
  · intro j w next' hj
    have hji := hother (by rw [hj]; trivial)
    exact h.tracked j w next' ((hsame hji).symm.trans hj)

/-! ## Steps -/

omit [DecidableEq ι] in
/-- Sections that only write waiters. -/
theorem pollWaiting_frame (map : LightMap K V) (k : K) (w : Waker) (joined : Bool) :
    (∀ j, (GetOrInsertFutureInner.pollWaiting map k w joined).2.2.get j = map.get j) ∧
      ∀ j, (GetOrInsertFutureInner.pollWaiting map k w joined).2.2.index j = map.index j := by
  rw [GetOrInsertFutureInner.pollWaiting]
  cases map.get k with
  | some value => exact ⟨fun _ => rfl, fun _ => rfl⟩
  | none =>
    cases map.waiters k with
    | none => simp
    | some node =>
      dsimp only
      split_ifs <;> simp

omit [DecidableEq ι] in
theorem leave_frame (map : LightMap K V) (k : K) :
    (∀ j, (leave map k).2.get j = map.get j) ∧ ∀ j, (leave map k).2.index j = map.index j := by
  rw [leave]
  cases map.waiters k <;> simp

theorem Kept.wait (h : Kept keys ttl s l ts clock) (hnow : clock ≤ now) {w : Waker}
    (hstep : s.wait keys i w = some s') : Kept keys ttl s' l ts now := by
  rw [State.wait] at hstep
  cases hphase : s.phase i with
  | waiting joined =>
    obtain ⟨hget, hindex⟩ := pollWaiting_frame s.cache.map (keys i) w joined
    simp only [hphase] at hstep
    split_ifs at hstep
    rcases hpoll : GetOrInsertFutureInner.pollWaiting s.cache.map (keys i) w joined with
      ⟨_ | _ | _, joined', map⟩ <;>
    · simp only [hpoll] at hstep hget hindex
      obtain rfl := Option.some.inj hstep
      exact h.quiet hphase id id hget hindex hnow
  | _ => simp [hphase] at hstep

theorem Kept.callInit (h : Kept keys ttl s l ts clock) {returns : Bool}
    (hstep : s.callInit i returns = some s') : Kept keys ttl s' l ts clock := by
  rw [State.callInit] at hstep
  cases hphase : s.phase i with
  | claimed joined =>
    simp only [hphase] at hstep
    obtain rfl := Option.some.inj hstep
    exact h.quiet hphase id (by cases returns <;> exact id) (fun _ => rfl) (fun _ => rfl) le_rfl
  | _ => simp [hphase] at hstep

theorem Kept.pollFut (h : Kept keys ttl s l ts clock) {r : FutPoll V E}
    (hstep : s.pollFut i r = some s') : Kept keys ttl s' l ts clock := by
  cases hphase : s.phase i with
  | working =>
    cases r with
    | pending =>
      simp only [State.pollFut, hphase] at hstep
      obtain rfl := Option.some.inj hstep
      exact h
    | ready out =>
      simp only [State.pollFut, hphase] at hstep
      obtain rfl := Option.some.inj hstep
      exact h.quiet hphase id id (fun _ => rfl) (fun _ => rfl) le_rfl
    | panicked =>
      simp only [State.pollFut, hphase] at hstep
      obtain rfl := Option.some.inj hstep
      exact h.quiet hphase id id (fun _ => rfl) (fun _ => rfl) le_rfl
  | _ => simp [State.pollFut, hphase] at hstep

theorem Kept.checkStep (h : Kept keys ttl s l ts clock) (hstep : s.check keys i = some s') :
    Kept keys ttl s' l ts clock := by
  rw [State.check] at hstep
  cases hphase : s.phase i with
  | ready out =>
    simp only [hphase] at hstep
    split_ifs at hstep with hfree
    cases hget : s.cache.map.get (keys i) with
    | some value =>
      simp only [GetOrInsertFutureInner.pollWorking, hget] at hstep
      obtain rfl := Option.some.inj hstep
      exact h.quiet hphase id id (fun _ => rfl) (fun _ => rfl) le_rfl
    | none =>
      cases out with
      | error err =>
        simp only [GetOrInsertFutureInner.pollWorking, hget] at hstep
        obtain rfl := Option.some.inj hstep
        exact h.quiet hphase id id (fun _ => rfl) (fun _ => rfl) le_rfl
      | ok value =>
        simp only [GetOrInsertFutureInner.pollWorking, hget] at hstep
        obtain rfl := Option.some.inj hstep
        exact h.check hphase id hfree hget
  | _ => simp [hphase] at hstep

theorem Kept.writeStep (h : Kept keys ttl s l ts clock) (hstep : s.write keys i = some s') :
    Kept keys ttl s' l ts clock := by
  rw [State.write] at hstep
  cases hphase : s.phase i with
  | tracked v next =>
    obtain ⟨rfl, -⟩ := h.tracked i v next hphase
    simp only [hphase] at hstep
    obtain rfl := Option.some.inj hstep
    refine h.write hphase id (LightCacheInner.endInsert_policy ..) ?_ ?_
    · intro k
      rw [LightCacheInner.endInsert_get]
      exact LightMap.get_insert ..
    · intro k
      rw [LightCacheInner.endInsert_index]
      exact LightMap.index_insert ..
  | _ => simp [hphase] at hstep

theorem Kept.drop (h : Kept keys ttl s l ts clock) (hstep : s.drop keys i = some s') :
    Kept keys ttl s' l ts clock := by
  obtain ⟨hget, hindex⟩ := leave_frame s.cache.map (keys i)
  rw [State.drop] at hstep
  cases hphase : s.phase i with
  | unpolled | waiting joined =>
    simp only [hphase] at hstep
    obtain rfl := Option.some.inj hstep
    exact h.quiet hphase id id (fun _ => rfl) (fun _ => rfl) le_rfl
  | working =>
    simp only [hphase] at hstep
    split_ifs at hstep
    obtain rfl := Option.some.inj hstep
    exact h.quiet hphase id id hget hindex le_rfl
  | finished armed completion =>
    cases armed with
    | false =>
      simp only [hphase] at hstep
      obtain rfl := Option.some.inj hstep
      exact h.quiet hphase id id (fun _ => rfl) (fun _ => rfl) le_rfl
    | true =>
      simp only [hphase] at hstep
      split_ifs at hstep
      obtain rfl := Option.some.inj hstep
      exact h.quiet hphase id id hget hindex le_rfl
  | _ => simp [hphase] at hstep

theorem Kept.other (h : Kept keys ttl s l ts clock) {a : Label V E ι}
    (hclock : clock ≤ (PassLabel.step a).reading.getD clock) (ha : a.locked = false)
    (hstep : s.step keys a = some s') :
    Kept keys ttl s' l ts ((PassLabel.step a).reading.getD clock) := by
  cases a with
  | start | track => cases ha
  | wait i w now => exact h.wait hclock hstep
  | init i returns => exact h.callInit hstep
  | poll i r => exact h.pollFut hstep
  | check i => exact h.checkStep hstep
  | write i => exact h.writeStep hstep
  | drop i => exact h.drop hstep

/-- The rest of a section under the policy lock. -/
theorem Kept.release (h : Kept keys ttl x.toState l ts clock) (hnow : clock ≤ now)
    (hstep : x.release keys now = some x') :
    ∃ ts', Kept keys ttl x'.toState (Ledger.after keys x (.release now) x' l) ts' now := by
  rw [PassState.release] at hstep
  rcases hpass : x.pass with _ | ⟨i, _ | _⟩
  · simp [hpass] at hstep
  · simp [hpass] at hstep
  · cases hphase : x.phase i with
    | unpolled =>
      have hafter (x' : PassState K V E ι) : Ledger.after keys x (.release now) x' l = l := by
        simp only [Ledger.after, hpass, Option.map_some, hphase]
      refine ⟨ts, ?_⟩
      rw [hafter]
      cases hget : x.cache.map.get (keys i) <;>
      · simp only [hpass, hphase, hget] at hstep
        obtain rfl := Option.some.inj hstep
        exact h.quiet hphase id id (fun _ => rfl) (fun _ => rfl) hnow
    | inserting v =>
      obtain ⟨arena, htrack, hstamped, htail⟩ := track_ok h.stamped now (keys i)
      have hkey : keys i ∉ ts.map Prod.fst := h.inserting i v hphase
      simp only [hpass, hphase, htrack] at hstep
      obtain rfl := Option.some.inj hstep
      refine ⟨restamp ts (keys i) now, ?_⟩
      simp only [Ledger.after, hpass, Option.map_some, hphase]
      exact h.track hphase hnow rfl hstamped
        (htail h.tailKnown fun hts => hkey (by simp [hts]))
    | _ => simp [hpass, hphase] at hstep

theorem Kept.step (h : Kept keys ttl x.toState l ts clock) {label : PassLabel V E ι}
    (hclock : clock ≤ label.reading.getD clock) (hstep : x.step keys label = some x') :
    ∃ ts', Kept keys ttl x'.toState (Ledger.after keys x label x' l) ts'
      (label.reading.getD clock) := by
  cases label with
  | step a =>
    simp only [PassState.step, PassState.other] at hstep
    split_ifs at hstep with ha
    simp only [Bool.or_eq_true, not_or, Bool.not_eq_true] at ha
    obtain ⟨s', hs', rfl⟩ := Option.map_eq_some_iff.mp hstep
    exact ⟨ts, h.other hclock ha.1 hs'⟩
  | acquire i =>
    simp only [PassState.step, PassState.acquire] at hstep
    split at hstep <;> cases hstep <;> exact ⟨ts, h⟩
  | round t => exact h.round hclock hstep
  | release now => exact h.release hclock hstep

omit [DecidableEq ι] in
theorem get_of_got {map map' : LightMap K V} {k : K} {w : Waker} {joined joined' : Bool}
    (h : GetOrInsertFutureInner.pollWaiting map k w joined = (.got v, joined', map')) :
    map.get k = some v := by
  rw [GetOrInsertFutureInner.pollWaiting] at h
  cases hget : map.get k with
  | some u =>
    simp only [hget] at h
    cases h
    rfl
  | none =>
    cases hnode : map.waiters k with
    | none =>
      simp only [hget, hnode] at h
      cases h
    | some node =>
      simp only [hget, hnode] at h
      split_ifs at h <;> cases h

/-- A poll in the `Waiting` state ends with what the table holds. -/
theorem get_of_wait {w : Waker} {armed : Bool} (hstep : s.wait keys i w = some s')
    (hfound : s'.phase i = .finished armed (.returned (.ok v))) :
    s.cache.map.get (keys i) = some v := by
  rw [State.wait] at hstep
  cases hphase : s.phase i with
  | waiting joined =>
    simp only [hphase] at hstep
    split_ifs at hstep
    rcases hpoll : GetOrInsertFutureInner.pollWaiting s.cache.map (keys i) w joined with
      ⟨u | _ | _, joined', map⟩
    all_goals
      simp only [hpoll] at hstep
      obtain rfl := Option.some.inj hstep
      rw [phase_put] at hfound
      cases hfound
    exact get_of_got hpoll
  | _ => simp [hphase] at hstep

/-- A worker that does not insert its value ends with what the table holds. -/
theorem get_of_check {armed : Bool} (hstep : s.check keys i = some s')
    (hfound : s'.phase i = .finished armed (.returned (.ok v))) :
    s.cache.map.get (keys i) = some v := by
  rw [State.check] at hstep
  cases hphase : s.phase i with
  | ready out =>
    simp only [hphase, GetOrInsertFutureInner.pollWorking] at hstep
    split_ifs at hstep
    cases hget : s.cache.map.get (keys i) with
    | some u =>
      simp only [hget] at hstep
      obtain rfl := Option.some.inj hstep
      rw [phase_put] at hfound
      cases hfound
      rfl
    | none =>
      cases out <;>
      · simp only [hget] at hstep
        obtain rfl := Option.some.inj hstep
        cases (phase_put (c := s.cache)).symm.trans hfound
  | _ => simp [hphase] at hstep

omit [DecidableEq ι] in
/-- A value in the table is that of the last insert, and was young in every prune pass since. -/
theorem Kept.young (h : Kept keys ttl s l ts clock) {k : K} (hv : s.cache.map.get k = some v) :
    ∃ e, l k = some e ∧ e.value = v ∧ (e.lost = false → e.Young ttl) := by
  obtain ⟨e, he, hvalue, hlost⟩ := h.mapped k v hv
  refine ⟨e, he, hvalue, ?_⟩
  intro hkept
  obtain ⟨e', he', -, hyoung⟩ := h.entry k e.stamp (hlost.resolve_left (by simp [hkept]))
  obtain rfl := Option.some.inj (he.symm.trans he')
  exact hyoung

theorem Kept.run (h : Kept keys ttl x.toState l ts clock) {labels : List (PassLabel V E ι)}
    (honward : Onward clock labels) {l' : Ledger K V}
    (hrun : Trace.run (PassState.ledgerStep keys) (x, l) labels = some (x', l')) :
    ∃ ts' clock', Kept keys ttl x'.toState l' ts' clock' := by
  induction labels generalizing x l ts clock with
  | nil =>
    obtain ⟨rfl, rfl⟩ := Prod.mk.inj (Option.some.inj hrun)
    exact ⟨ts, clock, h⟩
  | cons label labels ih =>
    obtain ⟨hlabel, hlabels⟩ := honward
    obtain ⟨⟨x₁, l₁⟩, hstep, hrun⟩ := Trace.run_cons_eq_some.mp hrun
    obtain ⟨hstep, hl⟩ := Trace.recording_eq_some.mp hstep
    obtain ⟨ts₁, h₁⟩ := h.step hlabel hstep
    rw [← hl] at h₁
    exact ih h₁ hlabels hrun

end Kept

/-- **A waiting call does not find what was too old at the last prune.** In every run whose clock
never goes back, a value from the table that a waiting call returns, or a worker that finds the
table filled, is that of the last insert of its key, and no prune pass since then ended more than
`ttl` after it, unless one dropped the key before the insert wrote the table. -/
theorem waiting_value_young (keys : ι → K) (ttl : Duration) (n : ℕ+) (hasher : K → UInt64)
    (labels : List (PassLabel V E ι)) (honward : Onward 0 labels) (x x' : PassState K V E ι)
    (l : Ledger K V)
    (hrun : Trace.run (PassState.ledgerStep keys) (PassState.init ttl n hasher, Ledger.empty)
      labels = some (x, l))
    (i : ι) (a : Label V E ι) (ha : (∃ w now, a = .wait i w now) ∨ a = .check i)
    (hstep : x.step keys (.step a) = some x') (armed : Bool) (v : V)
    (hfound : x'.phase i = .finished armed (.returned (.ok v))) :
    ∃ e, l (keys i) = some e ∧ e.value = v ∧ (e.lost = false → e.Young ttl) := by
  have hinit : Kept keys ttl (PassState.init ttl n hasher : PassState K V E ι).toState
      Ledger.empty [] 0 := kept_init ttl n hasher
  obtain ⟨ts, clock, h⟩ := hinit.run honward hrun
  simp only [PassState.step, PassState.other] at hstep
  split_ifs at hstep
  obtain ⟨s', hs', rfl⟩ := Option.map_eq_some_iff.mp hstep
  rcases ha with ⟨w, now, rfl⟩ | rfl
  · exact h.young (get_of_wait hs' hfound)
  · exact h.young (get_of_check hs' hfound)

/-- A run of two calls for key 1: call 1 waits for call 0, which stores 7 at 2. -/
def storedAtTwo : List (PassLabel ℕ Unit ℕ) :=
  [.acquire 0, .round 0, .release 0, .step (.wait 0 0 0), .step (.init 0 true),
    .acquire 1, .round 1, .release 1, .step (.wait 1 1 1), .step (.poll 0 (.ready (.ok 7))),
    .step (.check 0), .acquire 0, .round 2, .release 2, .step (.write 0)]

/-- A lookup of call 2 prunes at 7, with a time to live of 5. Then call 1 finds 7. -/
theorem waiting_value_young_two_calls :
    ∃ (x x' : PassState ℕ ℕ Unit ℕ) (l : Ledger ℕ ℕ) (e : Entry ℕ),
      Trace.run (PassState.ledgerStep fun _ => 1) (PassState.init 5 1 fun _ => 0, Ledger.empty)
        (storedAtTwo ++ [.acquire 2, .round 7]) = some (x, l) ∧
      x.step (fun _ => 1) (.step (.wait 1 1 8)) = some x' ∧
      x'.phase 1 = .finished false (.returned (.ok 7)) ∧ l 1 = some e ∧ e.value = 7 ∧
      e.seen = [7] ∧ e.lost = false ∧ e.Young 5 := by
  obtain ⟨e, he, hvalue, hyoung⟩ := waiting_value_young (K := ℕ) (E := Unit) (fun _ : ℕ => 1) 5 1
    (fun _ => 0) (storedAtTwo ++ [.acquire 2, .round 7])
    (by simp [storedAtTwo, Onward, PassLabel.reading]) _ _ _ rfl 1 (.wait 1 1 8)
    (Or.inl ⟨1, 8, rfl⟩) rfl false 7 rfl
  obtain rfl := Option.some.inj he
  exact ⟨_, _, _, _, rfl, rfl, rfl, he, hvalue, rfl, rfl, hyoung rfl⟩

/-- A time to live of 5. Polled at 8, the call that waited finds what was stored at 2. -/
theorem waiting_value_expired :
    ∃ (x x' : PassState ℕ ℕ Unit ℕ) (l : Ledger ℕ ℕ) (e : Entry ℕ),
      Onward 0 (storedAtTwo ++ [.step (.wait 1 1 8)]) ∧
      Trace.run (PassState.ledgerStep fun _ => 1) (PassState.init 5 1 fun _ => 0, Ledger.empty)
        storedAtTwo = some (x, l) ∧
      x.phase 1 = .waiting true ∧ x.step (fun _ => 1) (.step (.wait 1 1 8)) = some x' ∧
      x'.phase 1 = .finished false (.returned (.ok 7)) ∧
      l 1 = some e ∧ e.value = 7 ∧ e.lost = false ∧ 5 < Instant.durationSince 8 e.stamp :=
  ⟨_, _, _, _, by simp [storedAtTwo, Onward, PassLabel.reading], rfl, rfl, rfl, rfl, rfl, rfl, rfl,
    by decide⟩

end Refresh

end LightCache
