import LightCache.Policy.LruReference
import LightCache.Policy.Noop
import LightCache.Policy.TtlReference

/-!
# What the capacity changes

The LRU cache next to one of a larger capacity, and to the caches without a capacity.

Main results: `lru_hits_mono`: a larger capacity loses no hit. `lru_answers_eq_ttl` and
`lru_answers_eq_noop`: with room for all keys, the LRU cache gives the answers of the time-to-live
cache, and without a time to live those of the map alone.
-/

namespace LightCache

section Room

variable {K V : Type} [DecidableEq K]

/-! ## No policy -/

/-- The map of a cache without a policy holds what the reference cache holds. -/
structure NoopMirrors (c : LightCacheInner NoopPolicy K V) (r : Reference K V .plain) : Prop where
  value : ∀ k, c.map.get k = r.get k
  lasting : ∀ k item, r.entries.lookup k = some item → item.expires = none

variable {c : LightCacheInner NoopPolicy K V} {r : Reference K V .plain}

theorem NoopMirrors.lookup_prune (h : NoopMirrors c r) (t : Instant) (k : K) :
    (r.prune t).entries.lookup k = r.entries.lookup k := by
  show (r.entries.restrict _).lookup k = _
  rw [AList.lookup_restrict]
  cases hk : r.entries.lookup k with
  | none => rfl
  | some item =>
    rw [Option.filter_some, Item.alive, h.lasting k item hk]
    rfl

theorem NoopMirrors.prune (h : NoopMirrors c r) (t : Instant) : NoopMirrors c (r.prune t) where
  value k := by
    rw [Reference.get, h.lookup_prune]
    exact h.value k
  lasting k item hk := h.lasting k item ((h.lookup_prune t k).symm.trans hk)

theorem NoopMirrors.step (h : NoopMirrors c r) (call : Readings × Op K V) :
    (c.answer call).1 = (r.call call).1 ∧ NoopMirrors (c.answer call).2 (r.call call).2 := by
  obtain ⟨rd, op⟩ := call
  have hprune := h.prune (rd.tick 0)
  simp only [LightCacheInner.answer, noop_call]
  have hanswer (k : K) : (.ok (.returned (c.map.get k)) : Except Fault (Outcome V)) =
      .ok (.returned ((r.prune (rd.tick 0)).get k)) := by rw [hprune.value]
  cases op with
  | get k => exact ⟨hanswer k, hprune⟩
  | insert k v =>
    refine ⟨?_, fun j => ?_, fun j item hj => ?_⟩
    · rw [Op.run, LightMap.insert_fst]
      exact hanswer k
    · show (c.map.insert k v).2.get j =
        (((r.prune (rd.tick 0)).entries.insert k _).lookup j).map Item.value
      rw [LightMap.get_insert, AList.lookup_insert_ite, hprune.value, Reference.get]
      split_ifs <;> rfl
    · change ((r.prune (rd.tick 0)).entries.insert k _).lookup j = _ at hj
      rw [AList.lookup_insert_ite] at hj
      split_ifs at hj
      · rw [← Option.some.inj hj]
        rfl
      · exact hprune.lasting j item hj
  | remove k =>
    refine ⟨hanswer k, fun j => ?_, fun j item hj => ?_⟩
    · show (c.map.remove k).2.get j = (((r.prune (rd.tick 0)).entries.erase k).lookup j).map _
      rw [LightMap.get_remove, AList.lookup_erase_ite, hprune.value, Reference.get]
      split_ifs <;> rfl
    · change ((r.prune (rd.tick 0)).entries.erase k).lookup j = _ at hj
      rw [AList.lookup_erase_ite] at hj
      split_ifs at hj
      exact hprune.lasting j item hj
  | prune => exact ⟨rfl, hprune⟩

theorem noopMirrors_fromParts (n : ℕ+) (hasher : K → UInt64) :
    NoopMirrors (LightCacheInner.fromParts {} n hasher : LightCacheInner NoopPolicy K V)
      (Reference.empty .plain) where
  value k := LightMap.get_empty k n hasher
  lasting _ _ hk := by cases hk

/-! ## The LRU policy -/

variable {Q : Type} [PriorityQueue K Instantᵒᵈ Q] [LawfulPriorityQueue K Instantᵒᵈ Q]

/-- **A larger capacity loses no hit.** In every run that is regular for both, each hit of an LRU
cache is a hit of one with a larger capacity and the same time to live, with the same value. -/
theorem lru_hits_mono (small large : ℕ) (hsmall : 1 < small) (hle : small ≤ large)
    (ttl : Option Duration) (n n' : ℕ+) (hasher hasher' : K → UInt64)
    (calls : List (Readings × Op K V))
    (hcalls : LruRegular (Reference.empty (.lru small ttl)) calls)
    (hcalls' : LruRegular (Reference.empty (.lru large ttl)) calls) :
    List.Forall₂ Reference.Hits
      (Trace.outputs LightCacheInner.answer (LightCacheInner.fromParts
        (LruPolicyInner.new small hsmall ttl : LruPolicyInner K Q) n hasher) calls).1
      (Trace.outputs LightCacheInner.answer (LightCacheInner.fromParts
        (LruPolicyInner.new large (hsmall.trans_le hle) ttl : LruPolicyInner K Q) n' hasher')
          calls).1 := by
  rw [((lruMirrors_fromParts (Q := Q) hsmall n hasher).outputs hcalls).1,
    ((lruMirrors_fromParts (Q := Q) (hsmall.trans_le hle) n' hasher').outputs hcalls').1]
  exact Reference.hits_mono hle calls

/-- Room for two, and for three: only the larger cache still has key 2 at the end. -/
theorem lru_hits_mono_five_calls :
    List.Forall₂ Reference.Hits
      (Trace.outputs LightCacheInner.answer (LightCacheInner.fromParts (LruPolicyInner.new 2
        (by decide) none : LruPolicyInner ℕ (SortedQueue ℕ Instantᵒᵈ)) 1 fun _ => 0)
        [(.single 0 0, .insert 1 10), (.single 1 1, .insert 2 20), (.single 2 2, .get 1),
          (.single 3 3, .insert 3 30), (.single 6 6, .get 2)]).1
      (Trace.outputs LightCacheInner.answer (LightCacheInner.fromParts (LruPolicyInner.new 3
        (by decide) none : LruPolicyInner ℕ (SortedQueue ℕ Instantᵒᵈ)) 1 fun _ => 0)
        [(.single 0 0, .insert 1 10), (.single 1 1, .insert 2 20), (.single 2 2, .get 1),
          (.single 3 3, .insert 3 30), (.single 6 6, .get 2)]).1 :=
  lru_hits_mono 2 3 (by decide) (by decide) none 1 1 _ _ _ ⟨by simp, by simp, by decide⟩
    ⟨by simp, by simp, by decide⟩

/-- **Room for all keys, with a time to live.** As long as its capacity is enough for all keys that
are inserted, the LRU cache gives the answers of the time-to-live cache. -/
theorem lru_answers_eq_ttl (capacity : ℕ) (hcap : 1 < capacity) (ttl : Duration) (keys : List K)
    (hroom : keys.length ≤ capacity) (n n' : ℕ+) (hasher hasher' : K → UInt64)
    (calls : List (Readings × Op K V)) (hin : Reference.InsertsIn keys calls)
    (hsteady : Steady 0 calls)
    (hcalls : LruRegular (Reference.empty (.lru capacity (some ttl))) calls) :
    (Trace.outputs LightCacheInner.answer (LightCacheInner.fromParts
      (LruPolicyInner.new capacity hcap (some ttl) : LruPolicyInner K Q) n hasher) calls).1 =
    (Trace.outputs LightCacheInner.answer (LightCacheInner.fromParts
      (TtlPolicyInner.new ttl : TtlPolicyInner K) n' hasher') calls).1 := by
  have habreast : Reference.Abreast keys calls
      (Reference.empty (.lru capacity (some ttl)) : Reference K V _)
      (Reference.empty (.timed ttl)) :=
    Reference.abreast_empty (by simpa [Rules.lru] using hroom) (by simp [Rules.timed]) hin
  have hmoves : Trace.Each Reference.step (fun r call => r.movesOnly call = false)
      (Reference.empty (.timed ttl)) calls := by
    refine hcalls.moves.of_related (fun r r' call calls h hok => ?_)
      (fun r r' call calls t ht hstep => ?_) habreast
    · exact h.same.movesOnly hok fun key hkey => Rules.moves_lru_of_timed _ _ hkey
    · obtain rfl := Option.some.inj hstep
      exact ⟨_, rfl, (ht.step rfl).2⟩
  have hfollows : TtlFollows calls (LightCacheInner.fromParts (TtlPolicyInner.new ttl) n' hasher')
      (Reference.empty (.timed ttl)) := ⟨_, _, _, ttlMirrors_fromParts n' hasher', hsteady, hmoves⟩
  rw [((lruMirrors_fromParts (Q := Q) hcap n hasher).outputs hcalls).1, hfollows.outputs.1]
  exact Reference.answers_eq_of_room rfl habreast

/-- Room for both keys, and a time to live of 5. -/
theorem lru_answers_eq_ttl_four_calls :
    (Trace.outputs LightCacheInner.answer (LightCacheInner.fromParts (LruPolicyInner.new 2
      (by decide) (some 5) : LruPolicyInner ℕ (SortedQueue ℕ Instantᵒᵈ)) 1 fun _ => 0)
      [(.single 0 0, .insert 1 10), (.single 1 1, .insert 2 20), (.single 2 2, .get 1),
        (.single 6 6, .get 1)]).1 =
    (Trace.outputs LightCacheInner.answer
      (LightCacheInner.fromParts (TtlPolicyInner.new 5 : TtlPolicyInner ℕ) 1 fun _ => 0)
      [(.single 0 0, .insert 1 10), (.single 1 1, .insert 2 20), (.single 2 2, .get 1),
        (.single 6 6, .get 1)]).1 :=
  lru_answers_eq_ttl 2 (by decide) 5 [1, 2] (by decide) 1 1 (fun _ => 0) (fun _ => 0) _
    (by simp [Reference.InsertsIn]) (by simp [Steady, Readings.single])
    ⟨by simp [Readings.single], by simp [Readings.single, Instant.max], by decide⟩

/-- **Room for all keys, without a time to live.** As long as its capacity is enough for all keys
that are inserted, the LRU cache gives the answers of the map alone. -/
theorem lru_answers_eq_noop (capacity : ℕ) (hcap : 1 < capacity) (keys : List K)
    (hroom : keys.length ≤ capacity) (n n' : ℕ+) (hasher hasher' : K → UInt64)
    (calls : List (Readings × Op K V)) (hin : Reference.InsertsIn keys calls)
    (hcalls : LruRegular (Reference.empty (.lru capacity none)) calls) :
    (Trace.outputs LightCacheInner.answer (LightCacheInner.fromParts
      (LruPolicyInner.new capacity hcap none : LruPolicyInner K Q) n hasher) calls).1 =
    (Trace.outputs LightCacheInner.answer (LightCacheInner.fromParts
      ({} : NoopPolicy) n' hasher') calls).1 := by
  have habreast : Reference.Abreast keys calls
      (Reference.empty (.lru capacity none) : Reference K V _) (Reference.empty .plain) :=
    Reference.abreast_empty (by simpa [Rules.lru] using hroom) (by simp [Rules.plain]) hin
  have hnoop : (Trace.outputs LightCacheInner.answer
      (LightCacheInner.fromParts ({} : NoopPolicy) n' hasher') calls).1 =
      (Trace.outputs Reference.call (Reference.empty .plain : Reference K V _) calls).1 :=
    (Trace.outputs_eq (fun _ _ call h => h.step call) (noopMirrors_fromParts n' hasher')).1
  rw [((lruMirrors_fromParts (Q := Q) hcap n hasher).outputs hcalls).1, hnoop]
  exact Reference.answers_eq_of_room rfl habreast

/-- Room for both keys. -/
theorem lru_answers_eq_noop_four_calls :
    (Trace.outputs LightCacheInner.answer (LightCacheInner.fromParts (LruPolicyInner.new 2
      (by decide) none : LruPolicyInner ℕ (SortedQueue ℕ Instantᵒᵈ)) 1 fun _ => 0)
      [(.single 0 0, .insert 1 10), (.single 1 1, .insert 2 20), (.single 2 2, .remove 1),
        (.single 6 6, .get 1)]).1 =
    (Trace.outputs LightCacheInner.answer
      (LightCacheInner.fromParts ({} : NoopPolicy) 1 fun _ => 0)
      [(.single 0 0, .insert 1 10), (.single 1 1, .insert 2 20), (.single 2 2, .remove 1),
        (.single 6 6, .get 1)]).1 :=
  lru_answers_eq_noop 2 (by decide) [1, 2] (by decide) 1 1 (fun _ => 0) (fun _ => 0) _
    (by simp [Reference.InsertsIn]) ⟨by simp, by simp, by decide⟩

end Room

end LightCache
