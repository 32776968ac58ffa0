import Mathlib.Order.Basic

/-!
# Instants, durations and clock readings

`Instant` and `Duration` are counted in nanoseconds. The operations are the standard
library's: `duration_since` saturates at zero, and `Instant + Duration` panics past the last
instant the platform can represent.

An operation of the cache reads the clock several times: once in each round of its prune loop
and at most once afterwards. `Readings` lists what it sees.
-/

namespace LightCache

/-- `std::time::Instant`, in nanoseconds. -/
abbrev Instant := ℕ

/-- `std::time::Duration`, in nanoseconds. -/
abbrev Duration := ℕ

namespace Instant

/-- The last instant: `i64::MAX` seconds and the largest nanosecond part. -/
def max : ℕ := 9223372036854775807 * 1000000000 + 999999999

/-- `Instant::checked_add`, which is `None` past the last instant. -/
def checkedAdd (t : Instant) (d : Duration) : Option Instant :=
  if t + d ≤ max then some (t + d) else none

/-- `Instant::duration_since`, which is zero for an earlier instant. -/
def durationSince (t earlier : Instant) : Duration := t - earlier

end Instant

/-- The clock as one operation reads it: `tick i` in round `i` of its prune loop, and `now`
after the loop. -/
structure Readings where
  tick : ℕ → Instant
  now : Instant

namespace Readings

/-- One reading `t` for the whole prune pass. -/
def single (t now : Instant) : Readings where
  tick _ := t
  now := now

@[simp] theorem single_tick (t now : Instant) (i : ℕ) : (single t now).tick i = t := rfl

@[simp] theorem single_now (t now : Instant) : (single t now).now = now := rfl

/-- Where a prune pass reads the clock once, every round has that reading. -/
theorem tick_eq {rd : Readings} (h : rd = single (rd.tick 0) rd.now) (i : ℕ) :
    rd.tick i = rd.tick 0 :=
  congrFun (congrArg tick h) i

end Readings

end LightCache
