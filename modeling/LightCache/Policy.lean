import LightCache.Map
import LightCache.Policy.LinkedArena

/-!
# Policies and the cache

A policy (`src/policy.rs`) does its own bookkeeping under its lock and then, for most
operations, one operation on the map after the lock is released. `Policy.locked` is the part
under the lock; what is left to do is a `Next`. An operation that runs alone is the two parts
in a row, `LightCacheInner.call`.
-/

namespace LightCache

/-- An operation of `LightCache`. -/
inductive Op (K V : Type)
  | get (key : K)
  | insert (key : K) (value : V)
  | remove (key : K)
  | prune
  deriving DecidableEq, Repr

/-- A policy-free operation of `LightCache`: `get_no_policy`, `insert_no_policy` or
`remove_no_policy`. -/
inductive TableOp (K V : Type)
  | get (key : K)
  | insert (key : K) (value : V)
  | remove (key : K)
  deriving DecidableEq, Repr

/-- What an operation still has to do when it releases the policy lock. -/
inductive Next (K V : Type)
  | table (op : TableOp K V)
  | done (result : Option V)
  | panicked
  deriving DecidableEq, Repr

/-- The result of an operation. -/
inductive Outcome (V : Type)
  | returned (result : Option V)
  | panicked
  deriving DecidableEq, Repr

/-- The trait `Policy`: what `get`, `insert`, `remove` and `lock_and_prune` do while they hold
the lock, at the given clock readings. -/
class Policy (P K V : Type) [DecidableEq K] where
  locked : Readings → Op K V → P → LightMap K V → Except Fault (Next K V × P × LightMap K V)

variable {P K V : Type} [DecidableEq K]

/-- A policy-free operation on the map. -/
def TableOp.run (m : LightMap K V) : TableOp K V → Option V × LightMap K V
  | .get key => (m.get key, m)
  | .insert key value => m.insert key value
  | .remove key => m.remove key

theorem TableOp.waiters_run (op : TableOp K V) (m : LightMap K V) (k : K) :
    (op.run m).2.waiters k = m.waiters k := by
  cases op with
  | get key => rfl
  | insert key value => exact m.waiters_insert ..
  | remove key => exact m.waiters_remove ..

theorem TableOp.index_run (op : TableOp K V) (m : LightMap K V) (k : K) :
    (op.run m).2.index k = m.index k := by
  cases op with
  | get key => rfl
  | insert key value => exact m.index_insert ..
  | remove key => exact m.index_remove ..

/-- `LightCacheInner`. -/
structure LightCacheInner (P K V : Type) [DecidableEq K] where
  policy : P
  map : LightMap K V

namespace LightCacheInner

/-- `from_parts`, with a map of `n` shards. -/
def fromParts (policy : P) (n : ℕ+) (hasher : K → UInt64) : LightCacheInner P K V where
  policy := policy
  map := LightMap.empty n hasher

/-- What is left of an operation after the policy lock. -/
def finish (c : LightCacheInner P K V) : Next K V → Outcome V × LightCacheInner P K V
  | .table op => (.returned (op.run c.map).1, { c with map := (op.run c.map).2 })
  | .done result => (.returned result, c)
  | .panicked => (.panicked, c)

@[simp] theorem finish_policy (c : LightCacheInner P K V) (next : Next K V) :
    (c.finish next).2.policy = c.policy := by
  cases next <;> rfl

@[simp] theorem waiters_finish (c : LightCacheInner P K V) (next : Next K V) (k : K) :
    (c.finish next).2.map.waiters k = c.map.waiters k := by
  cases next with
  | table op => exact op.waiters_run c.map k
  | done | panicked => rfl

@[simp] theorem index_finish (c : LightCacheInner P K V) (next : Next K V) (k : K) :
    (c.finish next).2.map.index k = c.map.index k := by
  cases next with
  | table op => exact op.index_run c.map k
  | done | panicked => rfl

variable [Policy P K V]

/-- `get`, `insert`, `remove` or `prune`, with nothing in between. -/
def call (c : LightCacheInner P K V) (rd : Readings) (op : Op K V) :
    Except Fault (Outcome V × LightCacheInner P K V) := do
  let (next, policy, map) ← Policy.locked rd op c.policy c.map
  return finish { policy, map } next

/-- The cache after an operation, if the operation met no fault. -/
def step (c : LightCacheInner P K V) (call : Readings × Op K V) :
    Option (LightCacheInner P K V) :=
  match c.call call.1 call.2 with
  | .ok (_, c) => some c
  | .error _ => none

end LightCacheInner

end LightCache
