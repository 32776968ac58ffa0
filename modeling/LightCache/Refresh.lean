import LightCache.Cache.System
import LightCache.Policy.Ttl

/-!
# The refresh cache

`RefreshCache` (`src/refresh.rs`) is a cache with the time-to-live policy whose `get` is
`get_or_try_insert` with a refresher. Here a call runs alone, from its first poll to its
destructor, and what the refresher does is part of the request. How calls interleave is left to
`LightCache.Refresh.System`.

The futures are those of `LightCache.Cache.GetOrInsert`, but the insert goes through the policy.
-/

namespace LightCache

variable {P K V E : Type} [DecidableEq K]

/-! ## The cooperative future of a cache with a policy -/

namespace LightCacheInner

/-- What follows `self.cache.insert` in the arm `InnerComplete::Insert` with a value. -/
def endInsert (key : K) (value : V) :
    Outcome V × LightCacheInner P K V → Completion V × List Waker × LightCacheInner P K V
  | (.panicked, c) => (.panicked, [], c)
  | (.returned _, c) =>
    match c.map.removeWaiters key with
    | (some wakers, map) => (.returned value, wakers.finish, { c with map })
    | (none, map) => (.unreachable, [], { c with map })

section EndInsert

variable (key k : K) (value : V) (r : Outcome V × LightCacheInner P K V)

/-- At most the waiters entry of the key goes. -/
theorem endInsert_cases : (endInsert key value r).2.2 = r.2 ∨
    (endInsert key value r).2.2 = { r.2 with map := (r.2.map.removeWaiters key).2 } := by
  obtain ⟨outcome, c⟩ := r
  cases outcome with
  | panicked => exact Or.inl rfl
  | returned result =>
    right
    rw [endInsert]
    rcases c.map.removeWaiters key with ⟨_ | wakers, map⟩ <;> rfl

@[simp] theorem endInsert_policy : (endInsert key value r).2.2.policy = r.2.policy := by
  rcases endInsert_cases key value r with h | h <;> rw [h]

@[simp] theorem endInsert_get : (endInsert key value r).2.2.map.get k = r.2.map.get k := by
  rcases endInsert_cases key value r with h | h <;> simp [h]

@[simp] theorem endInsert_index : (endInsert key value r).2.2.map.index k = r.2.map.index k := by
  rcases endInsert_cases key value r with h | h <;> simp [h]

theorem endInsert_waiters : (endInsert key value r).2.2.map.waiters k = r.2.map.waiters k ∨
    k = key ∧ (endInsert key value r).2.2.map.waiters k = none := by
  rcases endInsert_cases key value r with h | h
  · exact Or.inl (by rw [h])
  · rw [h, LightMap.waiters_removeWaiters]
    by_cases hk : k = key
    · exact Or.inr ⟨hk, if_pos hk⟩
    · exact Or.inl (if_neg hk)

end EndInsert

variable [Policy P K V]

/-- The arm `InnerComplete::Insert` with a value, under the policy `P`. -/
def insertValue (c : LightCacheInner P K V) (rd : Readings) (key : K) (value : V) :
    Except Fault (Completion V × List Waker × LightCacheInner P K V) := do
  let r ← c.call rd (.insert key value)
  return endInsert key value r

/-- `GetOrTryInsertFuture::poll`, when the inner poll is ready, under the policy `P`. -/
def completeTryInsert (c : LightCacheInner P K V) (rd : Readings) (key : K) :
    InnerComplete V (Except E V) →
      Except Fault (Completion (Except E V) × List Waker × LightCacheInner P K V)
  | .insert (.ok value) => do
    let (completion, wakers, c) ← c.insertValue rd key value
    return (completion.map .ok, wakers, c)
  | .insert (.error err) => .ok (.returned (.error err), [], c)
  | .got value => .ok (.returned (.ok value), [], c)

end LightCacheInner

/-! ## A call of `get` -/

/-- `RefreshCache`, without the refresher. -/
abbrev RefreshCache (K V : Type) [DecidableEq K] := LightCacheInner (TtlPolicyInner K) K V

/-- The state of a `GetOrTryInsertFuture`. -/
inductive TryInsert
  | waiting (joined : Bool)
  | working
  deriving DecidableEq, Repr

/-- A call of `get`: its key, what the clock reads in its lookup and in its insert, whether the
call of the refresher returns a future, and, for each poll, the waker and what that future gives if
it is polled. When the polls are over, or the call has ended, it is dropped. -/
structure Request (K V E : Type) where
  key : K
  lookup : Readings
  insert : Readings
  returns : Bool
  first : Waker × FutPoll V E
  more : List (Waker × FutPoll V E)

/-- How a call went: its result, unless it was dropped before it had one, and how often it called
the refresher. -/
structure Reply (V E : Type) where
  result : Option (Completion (Except E V))
  invoked : ℕ
  deriving DecidableEq

/-- The cache and a call between two polls. -/
structure Session (K V : Type) [DecidableEq K] where
  cache : RefreshCache K V
  future : TryInsert
  invoked : ℕ

namespace RefreshCache

/-- `RefreshCache::new`. -/
def new (ttl : Duration) (n : ℕ+) (hasher : K → UInt64) : RefreshCache K V :=
  LightCacheInner.fromParts (TtlPolicyInner.new ttl) n hasher

/-- The `Working` state of `poll`, and what `GetOrTryInsertFuture` makes of it. -/
def pollWorking (rq : Request K V E) (s : Session K V) :
    FutPoll V E → Except Fault (Option (Completion (Except E V)) × Session K V)
  | .pending => .ok (none, s)
  | .panicked => .ok (some .panicked, s)
  | .ready out => do
    let (completion, _, cache) ← s.cache.completeTryInsert rq.insert rq.key
      (GetOrInsertFutureInner.pollWorking s.cache.map rq.key out)
    return (some completion, { s with cache })

/-- `poll`. The result is `none` for `Poll::Pending`. -/
def poll (rq : Request K V E) (s : Session K V) (p : Waker × FutPoll V E) :
    Except Fault (Option (Completion (Except E V)) × Session K V) :=
  match s.future with
  | .working => pollWorking rq s p.2
  | .waiting joined =>
    match GetOrInsertFutureInner.pollWaiting s.cache.map rq.key p.1 joined with
    | (.got value, joined, map) => .ok (some (.returned (.ok value)),
        { s with cache := { s.cache with map }, future := .waiting joined })
    | (.pending, joined, map) => .ok (none,
        { s with cache := { s.cache with map }, future := .waiting joined })
    | (.claimed, joined, map) =>
      -- `init` is called after the lock was released, and the state is still `Waiting`.
      let cache := { s.cache with map }
      if rq.returns then
        pollWorking rq { cache, future := .working, invoked := s.invoked + 1 } p.2
      else .ok (some .panicked, { cache, future := .waiting joined, invoked := s.invoked + 1 })

/-- The polls of a call, until one is ready. -/
def polls (rq : Request K V E) : Session K V → List (Waker × FutPoll V E) →
    Except Fault (Option (Completion (Except E V)) × Session K V)
  | s, [] => .ok (none, s)
  | s, p :: ps => do
    match ← poll rq s p with
    | (some completion, s) => return (some completion, s)
    | (none, s) => polls rq s ps

/-- The destructor. -/
def drop (rq : Request K V E) (s : Session K V) : RefreshCache K V :=
  match s.future with
  | .waiting _ => s.cache
  | .working => { s.cache with map := (GetOrInsertFutureInner.drop s.cache.map rq.key).2 }

/-- `RefreshCache::get`, which is `get_or_try_insert`. -/
def get (c : RefreshCache K V) (rq : Request K V E) :
    Except Fault (Reply V E × RefreshCache K V) := do
  match ← c.call rq.lookup (.get rq.key) with
  | (.returned (some value), c) =>
    return ({ result := some (.returned (.ok value)), invoked := 0 }, c)
  | (.panicked, c) => return ({ result := some .panicked, invoked := 0 }, c)
  | (.returned none, c) => do
    let (result, s) ←
      polls rq { cache := c, future := .waiting false, invoked := 0 } (rq.first :: rq.more)
    return ({ result, invoked := s.invoked }, drop rq s)

/-- The cache after a call, if it met no fault. -/
def step (c : RefreshCache K V) (rq : Request K V E) : Option (RefreshCache K V) :=
  match c.get rq with
  | .ok (_, c) => some c
  | .error _ => none

end RefreshCache

end LightCache
