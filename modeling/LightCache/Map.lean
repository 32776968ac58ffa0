import Mathlib.Algebra.BigOperators.Group.List.Basic
import Mathlib.Data.PNat.Basic
import LightCache.Map.RawTable

/-!
# The sharded map

`LightMap` (`src/map.rs`) spreads its keys over shards by their hash. The structure carries
what every operation keeps: there is a shard, and each entry sits in the shard of its key,
once. The waiters map of a shard is only reached through a key, so `waiters`, `setWaiters` and
`removeWaiters` act on the shard of that key.

The lemmas at the end are all the rest of the development uses: how `get` and `waiters` change
under each write, and how `len` counts the keys that `get` finds.
-/

namespace LightCache

/-- `LightMap`. -/
structure LightMap (K V : Type*) [DecidableEq K] where
  buildHasher : K → UInt64
  shards : List (Shard K V)
  shards_pos : 0 < shards.length
  placed : ∀ i (s : Shard K V), shards[i]? = some s → s.Placed buildHasher shards.length i

namespace LightMap

variable {K V : Type*} [DecidableEq K]

/-- The shard a hash selects: `hash as usize % self.shards.len()`. -/
def index (m : LightMap K V) (key : K) : ℕ := (m.buildHasher key).toNat % m.shards.length

theorem index_lt (m : LightMap K V) (key : K) : m.index key < m.shards.length :=
  Nat.mod_lt _ m.shards_pos

/-- `LightMap::shard`. -/
def shard (m : LightMap K V) (key : K) : Option (UInt64 × Shard K V) :=
  m.shards[m.index key]?.map fun s => (m.buildHasher key, s)

/-- The shard `shard(key).unwrap()` gives. -/
def shardOf (m : LightMap K V) (key : K) : Shard K V :=
  m.shards.get ⟨m.index key, m.index_lt key⟩

/-- `shard()` never returns `None`. -/
theorem shard_eq (m : LightMap K V) (key : K) :
    m.shard key = some (m.buildHasher key, m.shardOf key) := by
  simp [shard, shardOf, List.getElem?_eq_getElem (m.index_lt key)]

theorem placed_shardOf (m : LightMap K V) (key : K) :
    (m.shardOf key).Placed m.buildHasher m.shards.length (m.index key) :=
  m.placed _ _ (List.getElem?_eq_getElem (m.index_lt key))

/-- The map with another shard at the place of `key`'s. -/
def setShard (m : LightMap K V) (key : K) (s : Shard K V)
    (hs : s.Placed m.buildHasher m.shards.length (m.index key)) : LightMap K V where
  buildHasher := m.buildHasher
  shards := m.shards.set (m.index key) s
  shards_pos := by rw [List.length_set]; exact m.shards_pos
  placed i t ht := by
    rw [List.length_set]
    rw [List.getElem?_set] at ht
    split_ifs at ht with hi hlt
    · obtain rfl := Option.some.inj ht
      exact hi ▸ hs
    · exact m.placed i t ht

/-- A map of `n` empty shards. -/
def empty (n : ℕ+) (hasher : K → UInt64) : LightMap K V where
  buildHasher := hasher
  shards := List.replicate n Shard.new
  shards_pos := by rw [List.length_replicate]; exact n.pos
  placed i s hs := by
    rw [List.getElem?_replicate] at hs
    split_ifs at hs
    obtain rfl := Option.some.inj hs
    exact ⟨fun slot hslot => (List.not_mem_nil hslot).elim, List.nodup_nil⟩

/-- `LightMap::insert`. -/
def insert (m : LightMap K V) (key : K) (value : V) : Option V × LightMap K V :=
  let r := (m.shardOf key).insert key value (m.buildHasher key)
  (r.1, m.setShard key r.2 ((m.placed_shardOf key).insert rfl))

/-- `LightMap::get`. -/
def get (m : LightMap K V) (key : K) : Option V := (m.shardOf key).get key (m.buildHasher key)

/-- `LightMap::get_mut`. -/
def getMut (m : LightMap K V) (key : K) : GetMut K V where
  key := key
  table := (m.shardOf key).table
  hash := m.buildHasher key

/-- `get_mut(key).apply(f)`, when the lock is released. -/
def applyMut (m : LightMap K V) (key : K) (f : V → V) : Bool × LightMap K V :=
  let r := (m.getMut key).apply f
  (r.1, m.setShard key { m.shardOf key with table := r.2 } (m.placed_shardOf key).apply)

/-- `LightMap::remove`. -/
def remove (m : LightMap K V) (key : K) : Option V × LightMap K V :=
  let r := (m.shardOf key).remove key (m.buildHasher key)
  (r.1, m.setShard key r.2 ((m.placed_shardOf key).remove _))

/-- `LightMap::len`. -/
def len (m : LightMap K V) : ℕ := (m.shards.map fun s => s.table.len).sum

/-- The entry `shard.waiters.lock().get(key)` finds. -/
def waiters (m : LightMap K V) (key : K) : Option Wakers := (m.shardOf key).waiters.lookup key

/-- `lock.insert(key, node)` on the waiters of `key`'s shard, also a write through `get_mut`. -/
def setWaiters (m : LightMap K V) (key : K) (node : Wakers) : LightMap K V :=
  m.setShard key { m.shardOf key with waiters := (m.shardOf key).waiters.insert key node }
    ⟨(m.placed_shardOf key).stored, (m.placed_shardOf key).nodup⟩

/-- `lock.remove(key)` on the waiters of `key`'s shard. -/
def removeWaiters (m : LightMap K V) (key : K) : Option Wakers × LightMap K V :=
  (m.waiters key,
    m.setShard key { m.shardOf key with waiters := (m.shardOf key).waiters.erase key }
      ⟨(m.placed_shardOf key).stored, (m.placed_shardOf key).nodup⟩)

/-! ## Reads after writes -/

section Reads

variable (m : LightMap K V) (k k' : K) (v : V) (node : Wakers)

@[simp] theorem index_setShard (s : Shard K V)
    (hs : s.Placed m.buildHasher m.shards.length (m.index k)) :
    (m.setShard k s hs).index k' = m.index k' := by
  simp [index, setShard]

theorem shardOf_setShard (s : Shard K V)
    (hs : s.Placed m.buildHasher m.shards.length (m.index k)) :
    (m.setShard k s hs).shardOf k' = if m.index k' = m.index k then s else m.shardOf k' := by
  have hindex : (m.setShard k s hs).index k' = m.index k' := index_setShard ..
  have hget : (m.setShard k s hs).shards[m.index k']? =
      some (if m.index k' = m.index k then s else m.shardOf k') := by
    by_cases h : m.index k' = m.index k
    · simp [setShard, h, m.index_lt k]
    · simp [setShard, h, Ne.symm h, shardOf, List.getElem?_eq_getElem (m.index_lt k')]
  have hself : (m.setShard k s hs).shards[m.index k']? =
      some ((m.setShard k s hs).shardOf k') := by
    rw [← hindex]
    exact List.getElem?_eq_getElem _
  exact Option.some.inj (hself.symm.trans hget)

@[simp] theorem insert_fst : (m.insert k v).1 = m.get k := Shard.insert_fst

@[simp] theorem remove_fst : (m.remove k).1 = m.get k := rfl

@[simp] theorem removeWaiters_fst : (m.removeWaiters k).1 = m.waiters k := rfl

/-- Writing a table in which `k` has the value `o`, and every other key its old one. -/
theorem get_setShard {s : Shard K V} {o : Option V}
    (hs : s.Placed m.buildHasher m.shards.length (m.index k))
    (hget : ∀ k', s.get k' (m.buildHasher k') =
      if k' = k then o else (m.shardOf k).get k' (m.buildHasher k')) :
    (m.setShard k s hs).get k' = if k' = k then o else m.get k' := by
  have hhash : (m.setShard k s hs).buildHasher = m.buildHasher := rfl
  rw [get, hhash, shardOf_setShard]
  by_cases h : m.index k' = m.index k
  · rw [if_pos h, hget]
    have hshard : m.shardOf k = m.shardOf k' := by simp only [shardOf, h]
    rw [get, hshard]
  · have hk : k' ≠ k := fun hk => h (hk ▸ rfl)
    rw [if_neg h, if_neg hk, get]

theorem get_insert : (m.insert k v).2.get k' = if k' = k then some v else m.get k' :=
  m.get_setShard k k' ((m.placed_shardOf k).insert rfl) fun _ => Shard.get_insert

theorem get_remove : (m.remove k).2.get k' = if k' = k then none else m.get k' :=
  m.get_setShard k k' ((m.placed_shardOf k).remove _) fun _ => (m.placed_shardOf k).get_remove

theorem applyMut_fst (f : V → V) : (m.applyMut k f).1 = (m.get k).isSome := Shard.apply_fst

theorem get_applyMut (f : V → V) :
    (m.applyMut k f).2.get k' = if k' = k then (m.get k).map f else m.get k' :=
  m.get_setShard k k' (m.placed_shardOf k).apply fun _ => Shard.get_apply

theorem table_shardOf_setShard (w : Finmap fun _ : K => Wakers)
    (hs : Shard.Placed m.buildHasher m.shards.length (m.index k)
      { m.shardOf k with waiters := w }) :
    ((m.setShard k { m.shardOf k with waiters := w } hs).shardOf k').table =
      (m.shardOf k').table := by
  rw [shardOf_setShard]
  split_ifs with h
  · simp only [shardOf, h]
  · rfl

@[simp] theorem get_setWaiters : (m.setWaiters k node).get k' = m.get k' := by
  have hhash : (m.setWaiters k node).buildHasher = m.buildHasher := rfl
  simp only [get, Shard.get, hhash]
  rw [setWaiters, table_shardOf_setShard]

@[simp] theorem get_removeWaiters : (m.removeWaiters k).2.get k' = m.get k' := by
  have hhash : (m.removeWaiters k).2.buildHasher = m.buildHasher := rfl
  simp only [get, Shard.get, hhash]
  rw [removeWaiters, table_shardOf_setShard]

theorem waiters_setShard {s : Shard K V}
    (hs : s.Placed m.buildHasher m.shards.length (m.index k))
    (hw : s.waiters = (m.shardOf k).waiters) : (m.setShard k s hs).waiters k' = m.waiters k' := by
  rw [waiters, shardOf_setShard, waiters]
  split_ifs with h
  · rw [hw]
    simp only [shardOf, h]
  · rfl

@[simp] theorem waiters_insert : (m.insert k v).2.waiters k' = m.waiters k' := by
  apply waiters_setShard m k k' ((m.placed_shardOf k).insert rfl)
  cases hget : (m.shardOf k).table.get (m.buildHasher k) (Shard.eqKey k) with
  | some e => rw [Shard.insert_of_some hget]
  | none => rw [Shard.insert_of_none hget]

@[simp] theorem waiters_remove : (m.remove k).2.waiters k' = m.waiters k' :=
  waiters_setShard m k k' ((m.placed_shardOf k).remove _) rfl

theorem waiters_setWaiters :
    (m.setWaiters k node).waiters k' = if k' = k then some node else m.waiters k' := by
  rw [waiters, setWaiters, shardOf_setShard]
  by_cases hk : k' = k
  · subst hk
    rw [if_pos rfl, if_pos rfl, Finmap.lookup_insert]
  · rw [if_neg hk]
    split_ifs with h
    · rw [Finmap.lookup_insert_of_ne _ hk, waiters]
      simp only [shardOf, h]
    · rfl

theorem waiters_removeWaiters :
    (m.removeWaiters k).2.waiters k' = if k' = k then none else m.waiters k' := by
  rw [waiters, removeWaiters, shardOf_setShard]
  by_cases hk : k' = k
  · subst hk
    rw [if_pos rfl, if_pos rfl, Finmap.lookup_erase]
  · rw [if_neg hk]
    split_ifs with h
    · rw [Finmap.lookup_erase_ne hk, waiters]
      simp only [shardOf, h]
    · rfl

@[simp] theorem index_insert : (m.insert k v).2.index k' = m.index k' := by simp [insert]

@[simp] theorem index_remove : (m.remove k).2.index k' = m.index k' := by simp [remove]

@[simp] theorem index_setWaiters : (m.setWaiters k node).index k' = m.index k' := by
  simp [setWaiters]

@[simp] theorem index_removeWaiters : (m.removeWaiters k).2.index k' = m.index k' := by
  simp [removeWaiters]

@[simp] theorem get_empty (n : ℕ+) (hasher : K → UInt64) :
    (empty n hasher : LightMap K V).get k = none := by
  simp [get, empty, shardOf, Shard.new, Shard.get, RawTable.get, RawTable.new]

@[simp] theorem waiters_empty (n : ℕ+) (hasher : K → UInt64) :
    (empty n hasher : LightMap K V).waiters k = none := by
  simp [waiters, empty, shardOf, Shard.new]

end Reads

/-! ## Counting keys -/

/-- The keys of all tables. -/
def keys (m : LightMap K V) : List K := m.shards.flatMap Shard.keys

theorem len_eq (m : LightMap K V) : m.len = m.keys.length := by
  simp [len, keys, List.length_flatMap, Shard.keys, RawTable.len]

/-- A shard holds the keys that are stored and select it. -/
theorem mem_keys_shard {m : LightMap K V} {k : K} {i : ℕ} {s : Shard K V}
    (hi : m.shards[i]? = some s) : k ∈ s.keys ↔ m.index k = i ∧ (m.get k).isSome := by
  have hself : m.index k = i → m.shardOf k = s := by
    rintro rfl
    rw [List.getElem?_eq_getElem (m.index_lt k)] at hi
    exact Option.some.inj hi
  rw [get, (m.placed_shardOf k).get_isSome]
  constructor
  · intro hk
    obtain ⟨slot, hslot, rfl⟩ := List.mem_map.mp hk
    obtain ⟨hhash, hidx⟩ := (m.placed i s hi).stored slot hslot
    have hindex : m.index slot.2.key = i := by rw [index, ← hhash, hidx]
    exact ⟨hindex, hself hindex ▸ hk⟩
  · intro hboth
    obtain ⟨hindex, hk⟩ := hboth
    exact hself hindex ▸ hk

theorem mem_keys {m : LightMap K V} {k : K} : k ∈ m.keys ↔ (m.get k).isSome := by
  rw [keys, List.mem_flatMap]
  constructor
  · intro hstored
    obtain ⟨s, hs, hk⟩ := hstored
    obtain ⟨i, hi⟩ := List.mem_iff_getElem?.mp hs
    exact ((mem_keys_shard hi).mp hk).2
  · intro hk
    have hi := List.getElem?_eq_getElem (m.index_lt k)
    exact ⟨_, List.getElem_mem _, (mem_keys_shard hi).mpr ⟨rfl, hk⟩⟩

theorem nodup_keys (m : LightMap K V) : m.keys.Nodup := by
  refine List.nodup_flatMap.mpr ⟨?_, ?_⟩
  · intro s hs
    obtain ⟨i, hi⟩ := List.mem_iff_getElem?.mp hs
    exact (m.placed i s hi).nodup
  · apply List.pairwise_iff_getElem.mpr
    intro i j hi hj hij k hki hkj
    have hi' := ((mem_keys_shard (List.getElem?_eq_getElem hi)).mp hki).1
    have hj' := ((mem_keys_shard (List.getElem?_eq_getElem hj)).mp hkj).1
    exact hij.ne (hi'.symm.trans hj')

theorem len_le_length {m : LightMap K V} {l : List K} (h : ∀ k, (m.get k).isSome → k ∈ l) :
    m.len ≤ l.length := by
  rw [len_eq]
  exact (List.subperm_of_subset m.nodup_keys fun k hk => h k (mem_keys.mp hk)).length_le

/-! ## Removing several keys -/

/-- The map after `remove` of each key in `dead`. -/
def removeAll (m : LightMap K V) (dead : List K) : LightMap K V :=
  dead.foldl (fun m k => (m.remove k).2) m

@[simp] theorem removeAll_nil (m : LightMap K V) : m.removeAll [] = m := rfl

@[simp] theorem removeAll_cons (m : LightMap K V) (k : K) (dead : List K) :
    m.removeAll (k :: dead) = (m.remove k).2.removeAll dead := rfl

theorem removeAll_append (m : LightMap K V) (dead out : List K) :
    m.removeAll (dead ++ out) = (m.removeAll dead).removeAll out := List.foldl_append ..

theorem get_removeAll (m : LightMap K V) (dead : List K) (k : K) :
    (m.removeAll dead).get k = if k ∈ dead then none else m.get k := by
  induction dead generalizing m with
  | nil => simp
  | cons d dead ih =>
    rw [removeAll_cons, ih, get_remove]
    by_cases hd : k ∈ dead
    · simp [hd]
    · by_cases hk : k = d <;> simp [hd, hk]

@[simp] theorem index_removeAll (m : LightMap K V) (dead : List K) (k : K) :
    (m.removeAll dead).index k = m.index k := by
  induction dead generalizing m with
  | nil => rfl
  | cons d dead ih => rw [removeAll_cons, ih, index_remove]

@[simp] theorem waiters_removeAll (m : LightMap K V) (dead : List K) (k : K) :
    (m.removeAll dead).waiters k = m.waiters k := by
  induction dead generalizing m with
  | nil => rfl
  | cons d dead ih => rw [removeAll_cons, ih, waiters_remove]

theorem isSome_get_removeAll {m : LightMap K V} {dead : List K} {k : K} :
    ((m.removeAll dead).get k).isSome ↔ (m.get k).isSome ∧ k ∉ dead := by
  rw [get_removeAll]
  by_cases hd : k ∈ dead <;> simp [hd]

end LightMap

/-- `MapBuilder`. -/
structure MapBuilder where
  shards : Option ℕ
  estimatedSize : Option ℕ

/-- `MapBuilder::build`. The estimated size only sets how much the tables preallocate. -/
def MapBuilder.build {K V : Type*} [DecidableEq K] (b : MapBuilder) (maxParallelism : ℕ)
    (hasher : K → UInt64) : LightMap K V :=
  let shards := (b.shards.getD (maxParallelism * 4)).nextPowerOfTwo
  LightMap.empty ⟨shards, Nat.pos_of_isPowerOfTwo (Nat.isPowerOfTwo_nextPowerOfTwo _)⟩ hasher

end LightCache
