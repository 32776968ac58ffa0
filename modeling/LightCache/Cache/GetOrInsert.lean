import LightCache.Map

/-!
# The cooperative futures

The lock sections of `GetOrInsertFutureInner` (`src/cache/get_or_insert.rs`) and of the two
futures around it. Each definition is what one holder of the waiters lock does to the map, with
the wakers it invokes. What happens between the sections, such as the calls of the init closure
and of its future, is part of the system in `LightCache.Cache.System`.

The futures insert through `LightCache::insert`, which is `LightMap::insert` for a cache without
a policy.
-/

namespace LightCache

/-- `InnerComplete`, without the lock that it carries. -/
inductive InnerComplete (V O : Type)
  | insert (out : O)
  | got (value : V)
  deriving DecidableEq, Repr

/-- How a call ends: with a result, with a panic of its own future, or in `unreachable!`. -/
inductive Completion (T : Type)
  | returned (result : T)
  | panicked
  | unreachable
  deriving DecidableEq, Repr

namespace InnerComplete

/-- Apply `f` to the output of the future. -/
def map {V O O' : Type} (f : O → O') : InnerComplete V O → InnerComplete V O'
  | insert out => insert (f out)
  | got value => got value

end InnerComplete

namespace Completion

/-- Apply `f` to the result. -/
def map {T T' : Type} (f : T → T') : Completion T → Completion T'
  | returned result => returned (f result)
  | panicked => panicked
  | unreachable => unreachable

end Completion

variable {K V E O : Type} [DecidableEq K]

/-- What a destructor does with the entry, if there is one: `remove_worker`, then `alert_all`. -/
def leave (map : LightMap K V) (key : K) : List Waker × LightMap K V :=
  match map.waiters key with
  | some node => (node.removeWorker.alertAll, map.setWaiters key node.removeWorker)
  | none => ([], map)

namespace GetOrInsertFutureInner

/-- What the `Waiting` section decides. -/
inductive Waited (V : Type)
  | got (value : V)
  | pending
  | claimed
  deriving DecidableEq, Repr

/-- The section of `poll` in the `Waiting` state: the decision, the new `joined` and the map. -/
def pollWaiting (map : LightMap K V) (key : K) (waker : Waker) (joined : Bool) :
    Waited V × Bool × LightMap K V :=
  match map.get key with
  | some value => (.got value, joined, map)
  | none =>
    match map.waiters key with
    | some node =>
      let node := if joined then node else node.joinWaiter waker
      if node.workers > 0 then (.pending, true, map.setWaiters key node)
      else (.claimed, true, map.setWaiters key node.joinWorker)
    | none => (.claimed, joined, map.setWaiters key (Wakers.start waker))

/-- The section of `poll` in the `Working` state, when the future gave `out`. -/
def pollWorking (map : LightMap K V) (key : K) (out : O) : InnerComplete V O :=
  match map.get key with
  | some value => .got value
  | none => .insert out

/-- The section of the destructor in the `Working` state. In the `Waiting` state the destructor
does nothing. -/
def drop (map : LightMap K V) (key : K) : List Waker × LightMap K V := leave map key

end GetOrInsertFutureInner

/-- The arm `InnerComplete::Insert` with a value: insert it, delete the entry and wake
everybody in it. -/
def insertValue (map : LightMap K V) (key : K) (value : V) :
    Completion V × List Waker × LightMap K V :=
  match (map.insert key value).2.removeWaiters key with
  | (some wakers, map) => (.returned value, wakers.finish, map)
  | (none, map) => (.unreachable, [], map)

theorem insertValue_of_entry {map : LightMap K V} {key : K} {n : Wakers}
    (hn : map.waiters key = some n) (value : V) :
    ∃ map', insertValue map key value = (.returned value, n.wakers, map') ∧
      map'.get key = some value ∧ map'.waiters key = none := by
  refine ⟨((map.insert key value).2.removeWaiters key).2, ?_, ?_, ?_⟩
  · have hfst : ((map.insert key value).2.removeWaiters key).1 = some n := by simp [hn]
    rw [insertValue, ← Prod.mk.eta (p := (map.insert key value).2.removeWaiters key), hfst]
    rfl
  · simp [LightMap.get_insert]
  · simp [LightMap.waiters_removeWaiters]

theorem insertValue_of_none {map : LightMap K V} {key : K} (hn : map.waiters key = none)
    (value : V) :
    ∃ map', insertValue map key value = (.unreachable, [], map') ∧
      map'.get key = some value ∧ map'.waiters key = none := by
  refine ⟨((map.insert key value).2.removeWaiters key).2, ?_, ?_, ?_⟩
  · have hfst : ((map.insert key value).2.removeWaiters key).1 = none := by simp [hn]
    rw [insertValue, ← Prod.mk.eta (p := (map.insert key value).2.removeWaiters key), hfst]
  · simp [LightMap.get_insert]
  · simp [LightMap.waiters_removeWaiters]

/-- `GetOrInsertFuture::poll`, when the inner poll is ready. -/
def GetOrInsertFuture.complete (map : LightMap K V) (key : K) :
    InnerComplete V V → Completion V × List Waker × LightMap K V
  | .insert value => insertValue map key value
  | .got value => (.returned value, [], map)

/-- `GetOrTryInsertFuture::poll`, when the inner poll is ready. -/
def GetOrTryInsertFuture.complete (map : LightMap K V) (key : K) :
    InnerComplete V (Except E V) → Completion (Except E V) × List Waker × LightMap K V
  | .insert (.ok value) =>
    let (completion, wakers, map) := insertValue map key value
    (completion.map .ok, wakers, map)
  | .insert (.error err) => (.returned (.error err), [], map)
  | .got value => (.returned (.ok value), [], map)

/-- A future that cannot fail is handled the same way by both. -/
example (map : LightMap K V) (key : K) (c : InnerComplete V V) :
    GetOrTryInsertFuture.complete map key (c.map (Except.ok : V → Except E V)) =
      ((GetOrInsertFuture.complete map key c).1.map .ok,
        (GetOrInsertFuture.complete map key c).2) := by
  cases c <;> rfl

end LightCache
