import LightCache.Cache.Keys
import LightCache.Cache.Overlap
import LightCache.Policy.Sections
import LightCache.Refresh

/-!
# The whole cache

All that can happen to a cache with a policy at once: the calls of `get_or_*` on any keys, and the
direct operations of any threads. A call looks its key up, and inserts its value, through the
policy. One step is a section under the policy lock, an operation on the table, a section under the
waiters lock of a shard, or one call of user code. A completing poll takes three, all under the
waiters lock: the lookup of the table, the section of the insert under the policy lock, and the
rest. What needs no waiters lock of that shard may come in between.

In the code a section under the policy lock takes the keys that it drops out of the map one by one,
and other threads and polls may read the map in between (`LightCache.Policy.Sections`). For a single
key this is one removal at some point of the section, and so it is here.

The steps that do not see the policy are those of `LightCache.Cache.Overlap`. History is recorded as
there.
-/

namespace LightCache

/-- What `InnerComplete::Insert` carries, and the key. `next` is what is left of `cache.insert` when
the policy lock was released. -/
structure Insertion (K V E ι : Type) where
  key : K
  guard : Guard V E ι
  next : Option (Next K V)
  deriving DecidableEq

/-- The policy, the map and the direct operations, the calls of each key, what is left of their
lookups, and the completing poll that holds the waiters lock of a shard. -/
structure WholeState (P K V E ι τ : Type) [DecidableEq K] extends Threads P K V τ where
  calls : K → ι → Call V E
  epoch : K → ℕ
  lookups : K → ι → Option (TableOp K V)
  holder : ℕ → Option (Insertion K V E ι)

/-- The steps of the whole cache. -/
inductive WholeLabel (K V E ι τ : Type)
  /-- A step of a direct operation. -/
  | thread (a : ThreadStep K V τ)
  /-- The first poll of a call begins: the section of its lookup under the policy lock. -/
  | lookup (key : K) (i : ι) (rd : Readings)
  /-- The table operation of the lookup. -/
  | look (key : K) (i : ι)
  /-- A step that does not see the policy; of a completing poll, what comes before the insert. -/
  | call (key : K) (a : Label V E ι)
  /-- The section of `cache.insert` under the policy lock. -/
  | track (key : K) (rd : Readings)
  /-- The rest of the completing poll, up to the release of the waiters lock. -/
  | insertOut (key : K)

variable {P K V E ι τ : Type} [DecidableEq K] [DecidableEq ι]

/-- The rest of a completing poll, if it can go on. -/
def Insertion.finish (c : LightCacheInner P K V) (h : Insertion K V E ι) :
    Option (Completion (Except E V) × List Waker × LightCacheInner P K V) :=
  match h.guard.out, h.next with
  | .error err, _ => some (.returned (.error err), [], c)
  | .ok value, some next =>
    let (completion, ws, c) := LightCacheInner.endInsert h.key value (c.finish next)
    some (completion.map .ok, ws, c)
  | .ok _, none => none

namespace WholeState

/-- No call was polled, no operation has started, and nothing is stored. -/
def start (policy : P) (n : ℕ+) (hasher : K → UInt64) : WholeState P K V E ι τ where
  toThreads := Threads.start policy n hasher
  calls _ _ := .fresh
  epoch _ := 0
  lookups _ _ := none
  holder _ := none

/-- What the calls of `key` see. -/
def ofKey (s : WholeState P K V E ι τ) (key : K) : State K V E ι where
  map := s.map
  calls := s.calls key
  epoch := s.epoch key
  bare := false

/-- The state after the calls of `key` left `t`. -/
def put (s : WholeState P K V E ι τ) (key : K) (t : State K V E ι) : WholeState P K V E ι τ :=
  { s with
    map := t.map
    calls := Function.update s.calls key t.calls
    epoch := Function.update s.epoch key t.epoch }

/-- The completing poll on `key` that holds the waiters lock. -/
def insertion (s : WholeState P K V E ι τ) (key : K) : Option (Insertion K V E ι) :=
  (s.holder (s.map.index key)).filter (·.key = key)

/-- The state after a completing poll on `key` took the waiters lock, went on, or released it. -/
def hold (s : WholeState P K V E ι τ) (key : K) (h : Option (Insertion K V E ι)) :
    WholeState P K V E ι τ :=
  { s with holder := Function.update s.holder (s.map.index key) h }

/-- The state after the lookup of call `i` left `op`. -/
def setLookup (s : WholeState P K V E ι τ) (key : K) (i : ι) (op : Option (TableOp K V)) :
    WholeState P K V E ι τ :=
  { s with lookups := Function.update s.lookups key (Function.update (s.lookups key) i op) }

/-- The step cannot be taken now: it needs a waiters lock that is held, or the call has not finished
its lookup. The lookup and the direct operations are steps of their own. -/
def blocked (s : WholeState P K V E ι τ) (key : K) : Label V E ι → Bool
  | .start _ | .remove | .insert _ => true
  | .drop i => (s.lookups key i).isSome ||
    (s.holder (s.map.index key)).isSome && (s.ofKey key).locks (.drop i)
  | a => (s.holder (s.map.index key)).isSome && (s.ofKey key).locks a

variable (kinds : K → ι → Kind)

/-- The state after the lookup of call `i` found `value`. -/
def found (s : WholeState P K V E ι τ) (key : K) (i : ι) (value : Option V) :
    WholeState P K V E ι τ :=
  s.put key ((s.ofKey key).setCall i { s.calls key i with
    phase := match value with
      | some value => .finished false (.returned (.ok value))
      | none => if (kinds key i).race then .calling else .waiting false })

/-- The section of the lookup under the policy lock. -/
def lookup [Policy P K V] (s : WholeState P K V E ι τ) (key : K) (i : ι) (rd : Readings) :
    Option (WholeState P K V E ι τ) :=
  match (s.calls key i).phase, s.lookups key i, Policy.locked rd (.get key) s.policy s.map with
  | .unpolled, none, .ok (next, policy, map) =>
    let s := { s with policy, map }
    match next with
    | .table op => some (s.setLookup key i (some op))
    | .done value => some (s.found kinds key i value)
    | .panicked => some (s.put key ((s.ofKey key).setCall i
        { s.calls key i with phase := .finished false .panicked }))
  | _, _, _ => none

/-- The table operation of the lookup. -/
def look (s : WholeState P K V E ι τ) (key : K) (i : ι) : Option (WholeState P K V E ι τ) :=
  match (s.calls key i).phase, s.lookups key i with
  | .unpolled, some op =>
    let (value, map) := op.run s.map
    some ((found kinds { s with map } key i value).setLookup key i none)
  | _, _ => none

/-- A step that does not see the policy. -/
def call (s : WholeState P K V E ι τ) (key : K) (a : Label V E ι) :
    Option (WholeState P K V E ι τ) :=
  if s.blocked key a then none
  else (OverlapState.stepUnlocked (kinds key) key ⟨s.ofKey key, none⟩ a).map fun t =>
    match t.guard with
    | some guard => s.hold key (some { key, guard, next := none })
    | none => s.put key t.toState

/-- The section of `cache.insert` under the policy lock. -/
def track [Policy P K V] (s : WholeState P K V E ι τ) (key : K) (rd : Readings) :
    Option (WholeState P K V E ι τ) :=
  match s.insertion key with
  | some { guard := ⟨i, armed, .ok value⟩, next := none, .. } =>
    match Policy.locked rd (.insert key value) s.policy s.map with
    | .ok (next, policy, map) =>
      some ({ s with policy, map }.hold key
        (some { key, guard := ⟨i, armed, .ok value⟩, next := some next }))
    | .error _ => none
  | _ => none

/-- The rest of a completing poll. -/
def insertOut (s : WholeState P K V E ι τ) (key : K) : Option (WholeState P K V E ι τ) :=
  match s.insertion key with
  | some h => (h.finish s.toLightCacheInner).map fun (completion, ws, c) =>
    ({ s with policy := c.policy }.put key ((s.ofKey key).write key h.guard.call
      { s.calls key h.guard.call with phase := .finished h.guard.armed completion } c.map ws)).hold
        key none
  | none => none

/-- One step of the whole cache. -/
def step [DecidableEq τ] [Policy P K V] (s : WholeState P K V E ι τ) :
    WholeLabel K V E ι τ → Option (WholeState P K V E ι τ)
  | .thread a => (s.toThreads.step a).map fun t => { s with toThreads := t }
  | .lookup key i rd => s.lookup kinds key i rd
  | .look key i => s.look kinds key i
  | .call key a => s.call kinds key a
  | .track key rd => s.track key rd
  | .insertOut key => s.insertOut key

/-- The step does not start a `cache.insert` that panics. -/
def returns [Policy P K V] (s : WholeState P K V E ι τ) : WholeLabel K V E ι τ → Bool
  | .track key rd => match s.insertion key with
    | some { guard := ⟨_, _, .ok value⟩, .. } =>
      match Policy.locked rd (.insert key value) s.policy s.map with
      | .ok (.panicked, _) => false
      | _ => true
    | _ => true
  | _ => true

/-! ## What a step can do -/

variable {kinds} {s s' : WholeState P K V E ι τ} {key : K} {i : ι} {rd : Readings} {a : Label V E ι}

theorem lookup_eq_some [Policy P K V] [Sectioned P K V] (h : s.lookup kinds key i rd = some s') :
    (s.calls key i).phase = .unpolled ∧ s.lookups key i = none ∧
      ∃ (dead : List K) (policy : P) (next : Next K V),
        Policy.locked rd (.get key) s.policy s.map = .ok (next, policy, s.map.removeAll dead) ∧
        let s₁ : WholeState P K V E ι τ := { s with policy, map := s.map.removeAll dead }
        next = .table (.get key) ∧ s' = s₁.setLookup key i (some (.get key)) ∨
          next.tableOp = none ∧ s' = s₁.found kinds key i (s₁.map.get key) := by
  unfold lookup at h
  split at h
  · next next policy map hphase hnone hlocked =>
    obtain ⟨dead, ending, rfl, rfl, hends⟩ := Sectioned.locked_cases hlocked
    refine ⟨hphase, hnone, dead, policy, _, hlocked, ?_⟩
    cases hends with
    | get => exact Or.inl ⟨rfl, (Option.some.inj h).symm⟩
    | read => exact Or.inr ⟨rfl, (Option.some.inj h).symm⟩
  · cases h

theorem look_eq_some (h : s.look kinds key i = some s') : (s.calls key i).phase = .unpolled ∧
    ∃ op, s.lookups key i = some op ∧ s' =
      (found kinds { s with map := (op.run s.map).2 } key i (op.run s.map).1).setLookup key i
        none := by
  unfold look at h
  split at h
  · next op hphase hop => exact ⟨hphase, op, hop, (Option.some.inj h).symm⟩
  · cases h

theorem call_eq_some (h : s.call kinds key a = some s') : s.blocked key a = false ∧
    ((∃ u, (s.ofKey key).step (kinds key) key a = some u ∧
        OverlapState.stepUnlocked (kinds key) key ⟨s.ofKey key, none⟩ a = some ⟨u, none⟩ ∧
        s' = s.put key u) ∨
      ∃ guard, (s.ofKey key).completes a = some guard ∧
        OverlapState.stepUnlocked (kinds key) key ⟨s.ofKey key, none⟩ a =
          some ⟨s.ofKey key, some guard⟩ ∧
        s' = s.hold key (some ⟨key, guard, none⟩)) := by
  unfold call at h
  cases hblocked : s.blocked key a with
  | true =>
    rw [hblocked] at h
    cases h
  | false =>
    rw [hblocked] at h
    obtain ⟨⟨u, o⟩, hu, rfl⟩ := Option.map_eq_some_iff.mp h
    refine ⟨rfl, ?_⟩
    rcases OverlapState.step_cases (a := .step a) hu with ⟨b, hab, hstep, hguard, -⟩ |
      ⟨b, guard, hab, hcompletes, -, -, heq⟩ | ⟨-, hab, -⟩
    · cases hab
      obtain rfl : o = none := hguard
      exact Or.inl ⟨u, hstep, hu, rfl⟩
    · cases hab
      cases heq
      exact Or.inr ⟨guard, hcompletes, hu, rfl⟩
    · cases hab

omit [DecidableEq ι] in
theorem free_of_blocked (h : s.blocked key a = false) :
    s.holder (s.map.index key) = none ∨ (s.ofKey key).locks a = false := by
  have hfree (h : ((s.holder (s.map.index key)).isSome && (s.ofKey key).locks a) = false) :
      s.holder (s.map.index key) = none ∨ (s.ofKey key).locks a = false := by
    rcases Bool.and_eq_false_iff.mp h with h | h
    · exact Or.inl (Option.isNone_iff_eq_none.mp (by simpa using h))
    · exact Or.inr h
  cases a with
  | start | remove | insert => cases h
  | drop i => exact hfree (Bool.or_eq_false_iff.mp h).2
  | _ => exact hfree h

omit [DecidableEq ι] in
theorem track_eq_some [Policy P K V] [Sectioned P K V] (h : s.track key rd = some s') :
    ∃ x value, ∃ (dead : List K) (policy : P) (next : Next K V),
      s.insertion key = some x ∧ x.guard.out = .ok value ∧ x.next = none ∧
      Policy.locked rd (.insert key value) s.policy s.map =
        .ok (next, policy, s.map.removeAll dead) ∧
      (next = .table (.insert key value) ∨
        s.returns (.track key rd) = false ∧ next = .panicked) ∧
      s' = WholeState.hold { s with policy, map := s.map.removeAll dead } key
        (some { x with next := some next }) := by
  unfold track at h
  split at h
  · next key' j armed value hx =>
    have hkey : key' = key := by
      obtain ⟨-, hkey⟩ := Option.filter_eq_some_iff.mp hx
      exact of_decide_eq_true hkey
    subst hkey
    split at h
    · next next policy map hlocked =>
      obtain ⟨dead, ending, rfl, rfl, hends⟩ := Sectioned.locked_cases hlocked
      refine ⟨_, value, dead, policy, _, hx, rfl, rfl, hlocked, ?_, (Option.some.inj h).symm⟩
      cases hends with
      | insert => exact Or.inl rfl
      | panicked =>
        right
        simp only [returns, hx, hlocked]
        exact ⟨rfl, rfl⟩
    · cases h
  · cases h

theorem insertOut_eq_some (h : s.insertOut key = some s') : ∃ x completion ws c,
    s.insertion key = some x ∧ x.finish s.toLightCacheInner = some (completion, ws, c) ∧
    s' = ({ s with policy := c.policy }.put key ((s.ofKey key).write key x.guard.call
      { s.calls key x.guard.call with phase := .finished x.guard.armed completion } c.map ws)).hold
        key none := by
  unfold insertOut at h
  split at h
  · next x hx =>
    obtain ⟨⟨completion, ws, c⟩, hfinish, rfl⟩ := Option.map_eq_some_iff.mp h
    exact ⟨x, completion, ws, c, hx, hfinish, rfl⟩
  · cases h

end WholeState

end LightCache
