import Mathlib.Logic.Function.Basic
import LightCache.Cache.GetOrInsertRace

/-!
# The calls of one key as a transition system

Any number of `get_or_insert`, `get_or_try_insert`, `get_or_insert_race` and
`get_or_try_insert_race` calls on one key of a cache without a policy, with direct `remove` and
`insert` calls between them. One step is what happens without interference: the lookup a call
starts with, one section under the waiters lock, one call of user code outside it, or one
direct operation. User code chooses its outcome freely.

A call may be dropped wherever it can be between two polls. Where the step before left a poll
unfinished, the drop stands for one after a poll that stopped there, which changes nothing.

All of a call but its phase, and all of the state but the map and the calls, is history: no
step depends on it.
-/

namespace LightCache

/-- The four entry points. -/
inductive Kind
  | getOrInsert
  | getOrTryInsert
  | getOrInsertRace
  | getOrTryInsertRace
  deriving DecidableEq, Repr

/-- The call polls its own future at once. -/
def Kind.race : Kind → Bool
  | .getOrInsert | .getOrTryInsert => false
  | .getOrInsertRace | .getOrTryInsertRace => true

/-- The call's future gives a `Result`. -/
def Kind.fallible : Kind → Bool
  | .getOrInsert | .getOrInsertRace => false
  | .getOrTryInsert | .getOrTryInsertRace => true

/-- Where a call is. -/
inductive Phase (V E : Type)
  | unpolled
  /-- Cooperative, `Waiting`: the next poll takes the lock. -/
  | waiting (joined : Bool)
  /-- Cooperative, `Waiting`: the slot is claimed and the lock released, `init` is called next. -/
  | claimed (joined : Bool)
  /-- Cooperative, `Working`. -/
  | working
  /-- Cooperative, `Working`: the future gave `out`, the lock is taken next. -/
  | ready (out : Except E V)
  /-- Racing: `init` is called next. -/
  | calling
  /-- Racing: the future is polled next. -/
  | racing (joined : Bool)
  /-- Racing: the future gave `out`, or is pending, and the lock is taken next. -/
  | polled (joined : Bool) (out : Option (Except E V))
  /-- The call has ended, and its destructor is to come; `armed` if that takes the lock. -/
  | finished (armed : Bool) (completion : Completion (Except E V))
  | dropped
  deriving DecidableEq

/-- A call, with what is recorded of its past: the waker of its last poll if that returned
`Pending` in the `Waiting` state, whether this waker was invoked since, the entry it joined as
a waiter, the entry whose slot it claimed, and how often it called `init`. -/
structure Call (V E : Type) where
  phase : Phase V E
  parked : Option Waker
  woken : Bool
  joinedAt : ℕ
  claimedAt : ℕ
  inits : ℕ
  deriving DecidableEq

/-- A call before its first poll. -/
def Call.fresh {V E : Type} : Call V E where
  phase := .unpolled
  parked := none
  woken := false
  joinedAt := 0
  claimedAt := 0
  inits := 0

/-- The call when the wakers `ws` are invoked. -/
def Call.wake {V E : Type} (ws : List Waker) (c : Call V E) : Call V E :=
  { c with woken := c.woken || c.parked.any (· ∈ ws) }

/-- The outcome of polling a future. -/
inductive FutPoll (V E : Type)
  | pending
  | ready (out : Except E V)
  | panicked
  deriving DecidableEq

/-- The steps of the system. -/
inductive Label (V E ι : Type)
  /-- The first poll begins: the call looks the key up. -/
  | start (i : ι)
  /-- The section of the `Waiting` state, in a poll with the waker `w`. -/
  | wait (i : ι) (w : Waker)
  /-- `init` returns a future, or panics. -/
  | init (i : ι) (returns : Bool)
  /-- The call's own future is polled. -/
  | poll (i : ι) (r : FutPoll V E)
  /-- The section of the `Working` state, and of the future around it. -/
  | complete (i : ι)
  /-- The section of a racing poll with the waker `w`. -/
  | race (i : ι) (w : Waker)
  | drop (i : ι)
  | remove
  | insert (value : V)
  deriving DecidableEq

/-- The map and the calls. Of the past, `epoch` counts the waiters entries made for the key, and
`bare` says that the last `remove` found no waiters entry. -/
structure State (K V E ι : Type) [DecidableEq K] where
  map : LightMap K V
  calls : ι → Call V E
  epoch : ℕ
  bare : Bool

variable {K V E ι : Type} [DecidableEq K] [DecidableEq ι]

namespace State

/-- No call was polled, and nothing is stored. -/
def init (n : ℕ+) (hasher : K → UInt64) : State K V E ι where
  map := LightMap.empty n hasher
  calls _ := .fresh
  epoch := 0
  bare := false

/-- The state after call `i` became `c`. -/
def setCall (s : State K V E ι) (i : ι) (c : Call V E) : State K V E ι :=
  { s with calls := Function.update s.calls i c }

/-- The number of entries made once the map is `map`. -/
def nextEpoch (s : State K V E ι) (key : K) (map : LightMap K V) : ℕ :=
  if s.map.waiters key = none ∧ map.waiters key ≠ none then s.epoch + 1 else s.epoch

/-- The state after call `i` became `c`, wrote `map` and invoked `ws`. -/
def write (s : State K V E ι) (key : K) (i : ι) (c : Call V E) (map : LightMap K V)
    (ws : List Waker) : State K V E ι where
  map := map
  calls j := (Function.update s.calls i c j).wake ws
  epoch := s.nextEpoch key map
  bare := s.bare

variable (kinds : ι → Kind) (key : K)

/-- The lookup in `get_or_*`. -/
def start (s : State K V E ι) (i : ι) : Option (State K V E ι) :=
  let c := s.calls i
  match c.phase with
  | .unpolled =>
    match s.map.get key with
    | some value => some (s.setCall i { c with phase := .finished false (.returned (.ok value)) })
    | none =>
      some (s.setCall i { c with phase := if (kinds i).race then .calling else .waiting false })
  | _ => none

/-- The section of the `Waiting` state. -/
def wait (s : State K V E ι) (i : ι) (w : Waker) : Option (State K V E ι) :=
  let c := s.calls i
  match c.phase with
  | .waiting joined =>
    let (waited, joined', map) := GetOrInsertFutureInner.pollWaiting s.map key w joined
    let c := { c with joinedAt := if joined = joined' then c.joinedAt else s.epoch }
    match waited with
    | .got value => some (s.setCall i { c with
        phase := .finished false (.returned (.ok value))
        parked := none })
    | .pending => some (s.write key i { c with
        phase := .waiting joined'
        parked := some w
        woken := false } map [])
    | .claimed => some (s.write key i { c with
        phase := .claimed joined'
        parked := none
        claimedAt := s.nextEpoch key map } map [])
  | _ => none

/-- The call of `init`. When it panics, a cooperative call is still `Waiting` and a racing one
has no future yet, so their destructors do nothing. -/
def callInit (s : State K V E ι) (i : ι) (returns : Bool) : Option (State K V E ι) :=
  let c := { s.calls i with inits := (s.calls i).inits + 1 }
  match c.phase with
  | .claimed _ => some (s.setCall i { c with phase := if returns then .working else .dropped })
  | .calling => some (s.setCall i { c with phase := if returns then .racing false else .dropped })
  | _ => none

/-- The poll of the call's own future, which fails only where it may. -/
def pollFut (s : State K V E ι) (i : ι) (r : FutPoll V E) : Option (State K V E ι) :=
  let c := s.calls i
  match c.phase, r with
  | .working, .pending => some s
  | .working, .ready (.ok value) => some (s.setCall i { c with phase := .ready (.ok value) })
  | .working, .ready (.error err) =>
    if (kinds i).fallible then some (s.setCall i { c with phase := .ready (.error err) }) else none
  | .working, .panicked => some (s.setCall i { c with phase := .finished true .panicked })
  | .racing joined, .pending => some (s.setCall i { c with phase := .polled joined none })
  | .racing joined, .ready (.ok value) =>
    some (s.setCall i { c with phase := .polled joined (some (.ok value)) })
  | .racing joined, .ready (.error err) =>
    if (kinds i).fallible then
      some (s.setCall i { c with phase := .polled joined (some (.error err)) })
    else none
  | .racing joined, .panicked => some (s.setCall i { c with phase := .finished joined .panicked })
  | _, _ => none

/-- The section of the `Working` state. -/
def complete (s : State K V E ι) (i : ι) : Option (State K V E ι) :=
  let c := s.calls i
  match c.phase with
  | .ready out =>
    let (completion, ws, map) := GetOrTryInsertFuture.complete s.map key
      (GetOrInsertFutureInner.pollWorking s.map key out)
    some (s.write key i { c with phase := .finished true completion } map ws)
  | _ => none

/-- The section of a racing poll. -/
def race (s : State K V E ι) (i : ι) (w : Waker) : Option (State K V E ι) :=
  let c := s.calls i
  match c.phase with
  | .polled joined out =>
    let (ready, joined', map) := RaceInner.poll s.map key w joined out
    match ready with
    | some ready =>
      let (completion, ws, map) := GetOrTryInsertRace.complete map key ready
      some (s.write key i { c with phase := .finished joined' completion } map ws)
    | none => some (s.write key i { c with phase := .racing joined' } map [])
  | _ => none

/-- The destructor. -/
def drop (s : State K V E ι) (i : ι) : Option (State K V E ι) :=
  let c := s.calls i
  let gone := { c with phase := .dropped, parked := none }
  match c.phase with
  | .unpolled | .waiting _ | .racing false | .finished false _ => some (s.setCall i gone)
  | .working | .racing true | .finished true _ =>
    let (ws, map) := leave s.map key
    some (s.write key i gone map ws)
  | _ => none

/-- `LightCache::remove`. -/
def remove (s : State K V E ι) : State K V E ι :=
  { s with map := (s.map.remove key).2, bare := (s.map.waiters key).isNone }

/-- `LightCache::insert`. -/
def insert (s : State K V E ι) (value : V) : State K V E ι :=
  { s with map := (s.map.insert key value).2 }

/-- One step of the system. -/
def step (s : State K V E ι) : Label V E ι → Option (State K V E ι)
  | .start i => s.start kinds key i
  | .wait i w => s.wait key i w
  | .init i returns => s.callInit i returns
  | .poll i r => s.pollFut kinds i r
  | .complete i => s.complete key i
  | .race i w => s.race key i w
  | .drop i => s.drop key i
  | .remove => some (s.remove key)
  | .insert value => some (s.insert key value)

end State

end LightCache
