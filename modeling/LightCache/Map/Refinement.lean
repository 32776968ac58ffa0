import LightCache.Lib.Trace
import LightCache.Map

/-!
# The sharded map is a finite map

The map that `LightMap` stands for is a `Finmap`, and `MapOp.spec` is what its operations do to
that. The shards only show in where a key is kept.

Main result: `map_refines`.
-/

namespace LightCache

variable {K V : Type*} [DecidableEq K]

/-- A call of `LightMap`: `insert`, `get`, `remove` or `get_mut(key).apply(f)`. -/
inductive MapOp (K V : Type*)
  | insert (key : K) (value : V)
  | get (key : K)
  | remove (key : K)
  | apply (key : K) (f : V → V)

/-- What a call returns. -/
inductive MapResult (V : Type*)
  | value (result : Option V)
  | applied (result : Bool)
  deriving DecidableEq

namespace MapOp

/-- A call. -/
def run (m : LightMap K V) : MapOp K V → MapResult V × LightMap K V
  | .insert key value => (.value (m.insert key value).1, (m.insert key value).2)
  | .get key => (.value (m.get key), m)
  | .remove key => (.value (m.remove key).1, (m.remove key).2)
  | .apply key f => (.applied (m.applyMut key f).1, (m.applyMut key f).2)

/-- What the call does to one finite map. -/
def spec (t : Finmap fun _ : K => V) : MapOp K V → MapResult V × Finmap fun _ : K => V
  | .insert key value => (.value (t.lookup key), t.insert key value)
  | .get key => (.value (t.lookup key), t)
  | .remove key => (.value (t.lookup key), t.erase key)
  | .apply key f =>
    match t.lookup key with
    | some value => (.applied true, t.insert key (f value))
    | none => (.applied false, t)

end MapOp

namespace LightMap

/-- The map stands for `t`. -/
structure Refines (hasher : K → UInt64) (n : ℕ) (m : LightMap K V) (t : Finmap fun _ : K => V) :
    Prop where
  hasher : m.buildHasher = hasher
  shards : m.shards.length = n
  lookup : ∀ k, m.get k = t.lookup k

variable {hasher : K → UInt64} {n : ℕ} {m : LightMap K V} {t : Finmap fun _ : K => V}

theorem lookup_insert (t : Finmap fun _ : K => V) (k k' : K) (v : V) :
    (t.insert k v).lookup k' = if k' = k then some v else t.lookup k' := by
  split_ifs with hk
  · rw [hk, Finmap.lookup_insert]
  · rw [Finmap.lookup_insert_of_ne _ hk]

theorem lookup_erase (t : Finmap fun _ : K => V) (k k' : K) :
    (t.erase k).lookup k' = if k' = k then none else t.lookup k' := by
  split_ifs with hk
  · rw [hk, Finmap.lookup_erase]
  · rw [Finmap.lookup_erase_ne hk]

/-- Every call returns what it returns on the finite map, and does to the map what it does to
that. -/
theorem Refines.run (h : m.Refines hasher n t) (op : MapOp K V) :
    (op.run m).1 = (op.spec t).1 ∧ (op.run m).2.Refines hasher n (op.spec t).2 := by
  cases op with
  | insert k v =>
    refine ⟨by simp [MapOp.run, MapOp.spec, h.lookup], h.hasher,
      (List.length_set ..).trans h.shards, ?_⟩
    intro k'
    show (m.insert k v).2.get k' = (t.insert k v).lookup k'
    rw [m.get_insert, lookup_insert, h.lookup]
  | get k => exact ⟨by simp [MapOp.run, MapOp.spec, h.lookup], h⟩
  | remove k =>
    refine ⟨by simp [MapOp.run, MapOp.spec, h.lookup], h.hasher,
      (List.length_set ..).trans h.shards, ?_⟩
    intro k'
    show (m.remove k).2.get k' = (t.erase k).lookup k'
    rw [m.get_remove, lookup_erase, h.lookup]
  | apply k f =>
    have hshards : (m.applyMut k f).2.shards.length = n := (List.length_set ..).trans h.shards
    simp only [MapOp.run, MapOp.spec, applyMut_fst, h.lookup]
    cases hk : t.lookup k with
    | some v =>
      refine ⟨rfl, h.hasher, hshards, ?_⟩
      intro k'
      rw [m.get_applyMut, lookup_insert, h.lookup, h.lookup, hk]
      rfl
    | none =>
      refine ⟨rfl, h.hasher, hshards, ?_⟩
      intro k'
      rw [m.get_applyMut, h.lookup, h.lookup, hk]
      split_ifs with hk'
      · rw [hk', hk]
        rfl
      · rfl

theorem refines_build (b : MapBuilder) (maxParallelism : ℕ) (hasher : K → UInt64) :
    (b.build maxParallelism hasher : LightMap K V).Refines hasher
      (b.shards.getD (maxParallelism * 4)).nextPowerOfTwo ∅ where
  hasher := rfl
  shards := List.length_replicate
  lookup k := by rw [Finmap.lookup_empty]; exact get_empty k _ _

theorem Refines.len (h : m.Refines hasher n t) : m.len = t.keys.card := by
  rw [len_eq, ← List.toFinset_card_of_nodup m.nodup_keys]
  congr 1
  ext k
  rw [List.mem_toFinset, mem_keys, h.lookup, Finmap.lookup_isSome, Finmap.mem_keys]

/-- A key of the finite map is once in the shard it selects, and nowhere else. -/
theorem Refines.count (h : m.Refines hasher n t) {i : ℕ} {s : Shard K V}
    (hi : m.shards[i]? = some s) (k : K) :
    s.keys.count k = if k ∈ t ∧ m.index k = i then 1 else 0 := by
  have hmem : k ∈ s.keys ↔ k ∈ t ∧ m.index k = i := by
    rw [mem_keys_shard hi, h.lookup, Finmap.lookup_isSome, and_comm]
  rw [(m.placed i s hi).nodup.count]
  simp only [hmem]

end LightMap

/-- **Refinement.** A map that `MapBuilder` built returns what a single finite map returns, in every
sequence of calls. Afterwards `len` is the number of its keys; `shard` selects a shard for every
key; and a key is stored if it is in the finite map, in that shard only, and once. -/
theorem map_refines (b : MapBuilder) (maxParallelism : ℕ) (hasher : K → UInt64)
    (ops : List (MapOp K V)) :
    let real := Trace.outputs MapOp.run (b.build maxParallelism hasher : LightMap K V) ops
    let ideal := Trace.outputs MapOp.spec (∅ : Finmap fun _ : K => V) ops
    real.1 = ideal.1 ∧
      real.2.shards.length.isPowerOfTwo ∧
      real.2.len = ideal.2.keys.card ∧
      (∀ k, ∃ s, real.2.shard k = some (hasher k, s) ∧
        real.2.shards[(hasher k).toNat % real.2.shards.length]? = some s) ∧
      ∀ i s, real.2.shards[i]? = some s → ∀ k, s.keys.count k =
        if k ∈ ideal.2 ∧ (hasher k).toNat % real.2.shards.length = i then 1 else 0 := by
  intro real ideal
  obtain ⟨houts, h⟩ : real.1 = ideal.1 ∧ real.2.Refines hasher _ ideal.2 :=
    Trace.outputs_eq (fun _ _ op h => h.run op)
      (LightMap.refines_build b maxParallelism hasher)
  have hindex (k : K) : real.2.index k = (hasher k).toNat % real.2.shards.length := by
    rw [LightMap.index, h.hasher]
  refine ⟨houts, ?_, h.len, ?_, ?_⟩
  · rw [h.shards]
    exact Nat.isPowerOfTwo_nextPowerOfTwo _
  · intro k
    refine ⟨real.2.shardOf k, ?_, ?_⟩
    · rw [real.2.shard_eq, h.hasher]
    · rw [← hindex]
      exact List.getElem?_eq_getElem (real.2.index_lt k)
  · intro i s hi k
    rw [← hindex]
    exact h.count hi k

end LightCache
