import LightCache.Cache.GetOrInsert

/-!
# The racing futures

The lock sections of `RaceInner` (`src/cache/get_or_insert_race.rs`). The two futures around it
treat a ready inner poll as their cooperative counterparts do.
-/

namespace LightCache

variable {K V E O : Type} [DecidableEq K]

namespace RaceInner

/-- The section of `poll`, after the future was polled: `out` is `none` when it is pending. The
result is `none` for `Poll::Pending`; next to it the new `joined` and the map. -/
def poll (map : LightMap K V) (key : K) (waker : Waker) (joined : Bool) (out : Option O) :
    Option (InnerComplete V O) × Bool × LightMap K V :=
  match map.get key with
  | some value => (some (.got value), joined, map)
  | none =>
    match out with
    | some out => (some (.insert out), joined, map)
    | none =>
      match map.waiters key with
      | some node =>
        if joined then (none, joined, map)
        else (none, true, map.setWaiters key (node.joinWaiter waker).joinWorker)
      | none => (none, joined, map.setWaiters key (Wakers.start waker))

/-- The section of the destructor of a `joined` call. The destructor of one that is not does
nothing. -/
def drop (map : LightMap K V) (key : K) : List Waker × LightMap K V := leave map key

end RaceInner

/-- `GetOrInsertRace::poll`, when the inner poll is ready. -/
def GetOrInsertRace.complete (map : LightMap K V) (key : K) :
    InnerComplete V V → Completion V × List Waker × LightMap K V :=
  GetOrInsertFuture.complete map key

/-- `GetOrTryInsertRace::poll`, when the inner poll is ready. -/
def GetOrTryInsertRace.complete (map : LightMap K V) (key : K) :
    InnerComplete V (Except E V) → Completion (Except E V) × List Waker × LightMap K V :=
  GetOrTryInsertFuture.complete map key

end LightCache
