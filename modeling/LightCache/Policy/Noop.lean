import LightCache.Policy

/-!
# The policy that does nothing

`NoopPolicy` (`src/policy/noop.rs`) passes every operation on to the map. It has a lock, which
only `prune` takes.

Main result: `noop_call`: without a policy the cache is its map.
-/

namespace LightCache

/-- `NoopPolicy`. -/
structure NoopPolicy where
  deriving DecidableEq, Repr

variable {K V : Type} [DecidableEq K]

instance : Policy NoopPolicy K V where
  locked _ op s map := match op with
    | .get key => .ok (.table (.get key), s, map)
    | .insert key value => .ok (.table (.insert key value), s, map)
    | .remove key => .ok (.table (.remove key), s, map)
    | .prune => .ok (.done none, s, map)

/-- What an operation does to a map alone. -/
def Op.run (m : LightMap K V) : Op K V → Option V × LightMap K V
  | .get key => (m.get key, m)
  | .insert key value => m.insert key value
  | .remove key => m.remove key
  | .prune => (none, m)

theorem noop_call (c : LightCacheInner NoopPolicy K V) (rd : Readings) (op : Op K V) :
    c.call rd op = .ok (.returned (op.run c.map).1, { c with map := (op.run c.map).2 }) := by
  cases op <;> rfl

end LightCache
