import Mathlib.Order.OrderDual
import LightCache.Policy
import LightCache.Policy.PriorityQueue

/-!
# The LRU policy

`LruPolicy` (`src/policy/lru.rs`): the arena keeps the keys by their last use, newest first,
and with a time to live a priority queue keeps them by their expiry, earliest first.
-/

namespace LightCache

/-- `LruNode`. -/
structure LruNode (K : Type) where
  key : K
  prev : Option ℕ
  next : Option ℕ
  deriving DecidableEq, Repr

instance (K : Type) : LinkedNode K (LruNode K) where
  new _ key prev next := { key, prev, next }
  item n := n.key
  prev n := n.prev
  next n := n.next
  setPrev n prev := { n with prev }
  setNext n next := { n with next }
  item_new _ _ _ _ := rfl
  prev_new _ _ _ _ := rfl
  next_new _ _ _ _ := rfl
  item_setPrev _ _ := rfl
  item_setNext _ _ := rfl
  prev_setPrev _ _ := rfl
  prev_setNext _ _ := rfl
  next_setPrev _ _ := rfl
  next_setNext _ _ := rfl
  setPrev_new _ _ _ _ _ := rfl
  setNext_new _ _ _ _ _ := rfl
  setPrev_setPrev _ _ _ := rfl
  setNext_setNext _ _ _ := rfl
  setPrev_setNext _ _ _ := rfl

/-- `LruPolicyInner`, with the check of `LruPolicy::new` that the capacity is more than one.
The queue's priorities are `Reverse<Instant>`. -/
structure LruPolicyInner (K Q : Type) where
  capacity : ℕ
  one_lt_capacity : 1 < capacity
  arena : LinkedArena K (LruNode K)
  expiring : Option (Duration × Q)

namespace LruPolicyInner

variable {K V Q : Type} [DecidableEq K] [PriorityQueue K Instantᵒᵈ Q]

/-- `LruPolicy::new`. -/
def new (capacity : ℕ) (h : 1 < capacity) (ttl : Option Duration) : LruPolicyInner K Q where
  capacity := capacity
  one_lt_capacity := h
  arena := LinkedArena.new
  expiring := ttl.map fun ttl => (ttl, PriorityQueue.new)

/-- The `while let` loop of `prune`, from round `i` on. Every round pops the queue, so its
length is enough fuel. -/
def pruneLoop (tick : ℕ → Instant) : ℕ → ℕ → LinkedArena K (LruNode K) → Q → LightMap K V →
    Except Fault (LinkedArena K (LruNode K) × Q × LightMap K V)
  | 0, _, arena, pq, map => .ok (arena, pq, map)
  | fuel + 1, i, arena, pq, map =>
    match PriorityQueue.peek pq with
    | some (key, expiry) =>
      if OrderDual.ofDual expiry < tick i then do
        let (_, arena) ← arena.removeItem key
        pruneLoop tick fuel (i + 1) arena (PriorityQueue.pop pq) (map.remove key).2
      else .ok (arena, pq, map)
    | none => .ok (arena, pq, map)

/-- `prune`. -/
def prune (tick : ℕ → Instant) (s : LruPolicyInner K Q) (map : LightMap K V) :
    Except Fault (LruPolicyInner K Q × LightMap K V) :=
  match s.expiring with
  | some (ttl, pq) => do
    let (arena, pq, map) ← pruneLoop tick (PriorityQueue.len pq) 0 s.arena pq map
    return ({ s with arena, expiring := some (ttl, pq) }, map)
  | none => .ok (s, map)

/-- `evict`. -/
def evict (s : LruPolicyInner K Q) (map : LightMap K V) :
    Except Fault (LruPolicyInner K Q × LightMap K V) :=
  if s.arena.len > s.capacity then do
    match ← s.arena.tailNode with
    | some (idx, _) => do
      let (_, n, arena) ← s.arena.remove idx
      return ({ s with
        arena
        expiring := s.expiring.map fun e => (e.1, PriorityQueue.remove e.2 n.key) },
        (map.remove n.key).2)
    | none => return (s, map)
  else .ok (s, map)

/-- The update of the arena in `get`. -/
def touch (arena : LinkedArena K (LruNode K)) (key : K) :
    Except Fault (LinkedArena K (LruNode K)) := do
  match ← arena.getNode key with
  | some (idx, _) => arena.moveToHead idx
  | none => return arena

/-- The update of the arena in `insert`. -/
def track (arena : LinkedArena K (LruNode K)) (now : Instant) (key : K) :
    Except Fault (LinkedArena K (LruNode K)) := do
  match ← arena.getNode key with
  | some (idx, _) => arena.moveToHead idx
  | none => arena.insertHead now key

/-- `get` under the lock. -/
def get (rd : Readings) (key : K) (s : LruPolicyInner K Q) (map : LightMap K V) :
    Except Fault (Next K V × LruPolicyInner K Q × LightMap K V) := do
  let (s, map) ← s.prune rd.tick map
  let arena ← touch s.arena key
  return (.table (.get key), { s with arena }, map)

/-- `insert` under the lock. `Instant::now() + *duration` panics when it overflows, after the
arena was updated. -/
def insert (rd : Readings) (key : K) (value : V) (s : LruPolicyInner K Q) (map : LightMap K V) :
    Except Fault (Next K V × LruPolicyInner K Q × LightMap K V) := do
  let (s, map) ← s.prune rd.tick map
  let arena ← track s.arena rd.now key
  let s := { s with arena }
  match s.expiring with
  | some (ttl, pq) =>
    match Instant.checkedAdd rd.now ttl with
    | some expiry => do
      let pq := PriorityQueue.push pq key (OrderDual.toDual expiry)
      let (s, map) ← LruPolicyInner.evict { s with expiring := some (ttl, pq) } map
      return (.table (.insert key value), s, map)
    | none => return (.panicked, s, map)
  | none => do
    let (s, map) ← s.evict map
    return (.table (.insert key value), s, map)

/-- `remove` under the lock. -/
def remove (rd : Readings) (key : K) (s : LruPolicyInner K Q) (map : LightMap K V) :
    Except Fault (Next K V × LruPolicyInner K Q × LightMap K V) := do
  let (s, map) ← s.prune rd.tick map
  let (_, arena) ← s.arena.removeItem key
  let s := { s with
    arena
    expiring := s.expiring.map fun e => (e.1, PriorityQueue.remove e.2 key) }
  return (.table (.remove key), s, map)

/-- `lock_and_prune`. -/
def lockAndPrune (rd : Readings) (s : LruPolicyInner K Q) (map : LightMap K V) :
    Except Fault (Next K V × LruPolicyInner K Q × LightMap K V) := do
  let (s, map) ← s.prune rd.tick map
  return (.done none, s, map)

instance : Policy (LruPolicyInner K Q) K V where
  locked rd op s map := match op with
    | .get key => s.get rd key map
    | .insert key value => s.insert rd key value map
    | .remove key => s.remove rd key map
    | .prune => s.lockAndPrune rd map

end LruPolicyInner

end LightCache
