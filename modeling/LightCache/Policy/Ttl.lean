import LightCache.Policy

/-!
# The time-to-live policy

`TtlPolicy` (`src/policy/ttl.rs`): the arena keeps the keys by the time of their last insert,
newest first, and `prune` removes from the tail until it meets a node that is young enough.
-/

namespace LightCache

/-- `TtlNode`. -/
structure TtlNode (K : Type) where
  key : K
  creation : Instant
  parent : Option ℕ
  child : Option ℕ
  deriving DecidableEq, Repr

instance (K : Type) : LinkedNode K (TtlNode K) where
  new creation key parent child := { key, creation, parent, child }
  item n := n.key
  prev n := n.parent
  next n := n.child
  setPrev n parent := { n with parent }
  setNext n child := { n with child }
  item_new _ _ _ _ := rfl
  prev_new _ _ _ _ := rfl
  next_new _ _ _ _ := rfl
  item_setPrev _ _ := rfl
  item_setNext _ _ := rfl
  prev_setPrev _ _ := rfl
  prev_setNext _ _ := rfl
  next_setPrev _ _ := rfl
  next_setNext _ _ := rfl
  setPrev_new _ _ _ _ _ := rfl
  setNext_new _ _ _ _ _ := rfl
  setPrev_setPrev _ _ _ := rfl
  setNext_setNext _ _ _ := rfl
  setPrev_setNext _ _ _ := rfl

namespace TtlNode

variable {K : Type}

/-- `duration_since_creation`, at the reading `now`. -/
def durationSinceCreation (n : TtlNode K) (now : Instant) : Duration :=
  Instant.durationSince now n.creation

/-- `should_evict`, at the reading `now`. -/
def shouldEvict (n : TtlNode K) (now : Instant) (ttl : Duration) : Bool :=
  n.durationSinceCreation now > ttl

end TtlNode

/-- `TtlPolicyInner`. -/
structure TtlPolicyInner (K : Type) where
  ttl : Duration
  arena : LinkedArena K (TtlNode K)

namespace TtlPolicyInner

variable {K V : Type} [DecidableEq K]

/-- `TtlPolicy::new`. -/
def new (ttl : Duration) : TtlPolicyInner K where
  ttl := ttl
  arena := LinkedArena.new

/-- The `while let` loop of `prune`, from round `i` on. Every round removes a node, so the
length of the arena is enough fuel. -/
def pruneLoop (tick : ℕ → Instant) (ttl : Duration) :
    ℕ → ℕ → LinkedArena K (TtlNode K) → LightMap K V →
      Except Fault (LinkedArena K (TtlNode K) × LightMap K V)
  | 0, _, arena, map => .ok (arena, map)
  | fuel + 1, i, arena, map => do
    match ← arena.tailNode with
    | some (idx, tail) =>
      if tail.shouldEvict (tick i) ttl then do
        let (_, n, arena) ← arena.remove idx
        pruneLoop tick ttl fuel (i + 1) arena (map.remove n.key).2
      else return (arena, map)
    | none => return (arena, map)

/-- `prune`. -/
def prune (tick : ℕ → Instant) (s : TtlPolicyInner K) (map : LightMap K V) :
    Except Fault (TtlPolicyInner K × LightMap K V) := do
  let (arena, map) ← pruneLoop tick s.ttl s.arena.len 0 s.arena map
  return ({ s with arena }, map)

/-- The update of the arena in `insert`. -/
def track (arena : LinkedArena K (TtlNode K)) (now : Instant) (key : K) :
    Except Fault (LinkedArena K (TtlNode K)) := do
  match ← arena.getNode key with
  | some (idx, _) => do
    let arena ← arena.modifyUnchecked idx fun node => { node with creation := now }
    arena.moveToHead idx
  | none => arena.insertHead now key

/-- `get`, which holds the lock to the end. -/
def get (rd : Readings) (key : K) (s : TtlPolicyInner K) (map : LightMap K V) :
    Except Fault (Next K V × TtlPolicyInner K × LightMap K V) := do
  let (s, map) ← s.prune rd.tick map
  return (.done (map.get key), s, map)

/-- `insert` under the lock. -/
def insert (rd : Readings) (key : K) (value : V) (s : TtlPolicyInner K) (map : LightMap K V) :
    Except Fault (Next K V × TtlPolicyInner K × LightMap K V) := do
  let (s, map) ← s.prune rd.tick map
  let arena ← track s.arena rd.now key
  return (.table (.insert key value), { s with arena }, map)

/-- `remove` under the lock. -/
def remove (rd : Readings) (key : K) (s : TtlPolicyInner K) (map : LightMap K V) :
    Except Fault (Next K V × TtlPolicyInner K × LightMap K V) := do
  let (s, map) ← s.prune rd.tick map
  let (_, arena) ← s.arena.removeItem key
  return (.table (.remove key), { s with arena }, map)

/-- `lock_and_prune`. -/
def lockAndPrune (rd : Readings) (s : TtlPolicyInner K) (map : LightMap K V) :
    Except Fault (Next K V × TtlPolicyInner K × LightMap K V) := do
  let (s, map) ← s.prune rd.tick map
  return (.done none, s, map)

instance : Policy (TtlPolicyInner K) K V where
  locked rd op s map := match op with
    | .get key => s.get rd key map
    | .insert key value => s.insert rd key value map
    | .remove key => s.remove rd key map
    | .prune => s.lockAndPrune rd map

end TtlPolicyInner

end LightCache
