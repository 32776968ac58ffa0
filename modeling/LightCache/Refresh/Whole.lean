import LightCache.Cache.Given
import LightCache.Cache.RaceWorkers
import LightCache.Refresh.System

/-!
# A refresh cache is the whole cache

The calls of `RefreshCache::get` are calls of `get_or_try_insert` in a cache with the time-to-live
policy. So each run of `LightCache.Refresh.System` is one of `LightCache.Cache.Whole` without direct
operations, and what is known there holds of `get`.

Main results: `refresh_run`, and from it `refresh_values_given`.
-/

namespace LightCache

namespace TtlPolicyInner

variable {K V : Type} [DecidableEq K] {s s' : TtlPolicyInner K} {map map' : LightMap K V}
variable {rd : Readings} {key : K} {next : Next K V}

theorem next_of_get (h : Policy.locked rd (.get key) s map = .ok (next, s', map')) :
    next = .done (map'.get key) := by
  replace h : s.get rd key map = _ := h
  unfold TtlPolicyInner.get at h
  cases hprune : s.prune rd.tick map with
  | error e =>
    rw [hprune] at h
    cases h
  | ok r =>
    rw [hprune] at h
    cases h
    rfl

theorem next_of_insert {value : V}
    (h : Policy.locked rd (.insert key value) s map = .ok (next, s', map')) :
    next = .table (.insert key value) := by
  replace h : s.insert rd key value map = _ := h
  unfold TtlPolicyInner.insert at h
  cases hprune : s.prune rd.tick map with
  | error e =>
    rw [hprune] at h
    cases h
  | ok r =>
    obtain ⟨s₁, map₁⟩ := r
    simp only [hprune, bind, Except.bind] at h
    cases htrack : track s₁.arena rd.now key with
    | error e => simp [htrack] at h
    | ok arena =>
      simp only [htrack] at h
      cases h
      rfl

end TtlPolicyInner

namespace Refresh

variable {K V E ι τ : Type} [DecidableEq K] [DecidableEq ι]

/-- The phase in the whole cache. After a panic of the refresher nothing is left to drop. -/
def Phase.whole : Phase K V E → LightCache.Phase V E
  | .unpolled => .unpolled
  | .waiting joined => .waiting joined
  | .claimed joined => .claimed joined
  | .working => .working
  | .ready out => .ready out
  | .inserting value | .tracked value _ => .ready (.ok value)
  | .finished false .panicked => .dropped
  | .finished armed completion => .finished armed completion
  | .dropped => .dropped

/-- What the call inserts while it holds the waiters lock. -/
def Phase.insertion (key : K) (i : ι) : Phase K V E → Option (Insertion K V E ι)
  | .inserting value => some ⟨key, ⟨i, true, .ok value⟩, none⟩
  | .tracked value next => some ⟨key, ⟨i, true, .ok value⟩, some next⟩
  | _ => none

/-- `w` is the whole cache of `s`. -/
structure Embeds (keys : ι → K) (s : State K V E ι) (w : WholeState (TtlPolicyInner K) K V E ι τ) :
    Prop where
  cache : w.toLightCacheInner = s.cache
  phase : ∀ i, (w.calls (keys i) i).phase = (s.phase i).whole
  lookups : ∀ k i, w.lookups k i = none
  holder : ∀ n, w.holder n = (s.holder n).bind fun i => (s.phase i).insertion (keys i) i
  /-- A call holds the lock of its shard exactly while it inserts. -/
  locked : ∀ i n, s.holder n = some i ↔
    n = s.cache.map.index (keys i) ∧ ((s.phase i).insertion (keys i) i).isSome

section Embeds

variable {keys : ι → K} {s s' : State K V E ι} {w w' : WholeState (TtlPolicyInner K) K V E ι τ}
variable {i j : ι} {p : Phase K V E} {c : RefreshCache K V}

omit [DecidableEq ι] in
theorem Embeds.map_eq (h : Embeds keys s w) : w.map = s.cache.map :=
  congrArg LightCacheInner.map h.cache

omit [DecidableEq ι] in
theorem Embeds.policy_eq (h : Embeds keys s w) : w.policy = s.cache.policy :=
  congrArg LightCacheInner.policy h.cache

omit [DecidableEq ι] in
theorem Embeds.phase_of (h : Embeds keys s w) (hp : s.phase i = p) :
    (w.calls (keys i) i).phase = p.whole := by
  rw [h.phase, hp]

omit [DecidableEq ι] in
/-- A call that inserts holds the lock of its shard. -/
theorem Embeds.holder_of (h : Embeds keys s w) (hp : s.phase i = p)
    (hi : (p.insertion (keys i) i).isSome) :
    s.holder (s.cache.map.index (keys i)) = some i :=
  (h.locked i _).mpr ⟨rfl, by rw [hp]; exact hi⟩

omit [DecidableEq ι] in
theorem Embeds.insertion (h : Embeds keys s w) (hp : s.phase i = p) {x : Insertion K V E ι}
    (hx : p.insertion (keys i) i = some x) (hkey : x.key = keys i) :
    w.insertion (keys i) = some x := by
  refine Option.filter_eq_some_iff.mpr ⟨?_, decide_eq_true hkey⟩
  rw [h.map_eq, h.holder, h.holder_of hp (by rw [hx]; rfl), ← hx, ← hp]
  rfl

omit [DecidableEq ι] in
theorem Embeds.free_iff (h : Embeds keys s w) {key : K} :
    w.holder (w.map.index key) = none ↔ s.Free key := by
  rw [h.holder, State.Free, h.map_eq]
  cases hn : s.holder (s.cache.map.index key) with
  | none => simp
  | some j =>
    have hj := ((h.locked j _).mp hn).2
    simpa [Option.isSome_iff_ne_none] using hj

/-- A call that holds no lock takes none. -/
theorem Embeds.put (h : Embeds keys s w) (hi : (s.phase i).insertion (keys i) i = none)
    (hp : p.insertion (keys i) i = none) (hindex : c.map.index = s.cache.map.index)
    (hcache : w'.toLightCacheInner = c)
    (hcalls : ∀ j, (w'.calls (keys j) j).phase = if j = i then p.whole else
      (w.calls (keys j) j).phase)
    (hlookups : w'.lookups = w.lookups) (hholder : w'.holder = w.holder) :
    Embeds keys (s.put i p c) w' where
  cache := hcache
  phase j := by
    rw [hcalls]
    by_cases hj : j = i
    · rw [if_pos hj, hj, phase_put]
    · rw [if_neg hj, phase_put_of_ne hj, h.phase]
  lookups := hlookups ▸ h.lookups
  holder n := by
    rw [hholder, h.holder, holder_put]
    cases hn : s.holder n with
    | none => rfl
    | some j =>
      have hj : j ≠ i := by
        rintro rfl
        have hsome := ((h.locked j n).mp hn).2
        rw [hi] at hsome
        cases hsome
      show (s.phase j).insertion (keys j) j = ((s.put i p c).phase j).insertion (keys j) j
      rw [phase_put_of_ne hj]
  locked j n := by
    rw [holder_put, cache_put, hindex, h.locked]
    by_cases hj : j = i
    · rw [hj, phase_put, hi, hp]
    · rw [phase_put_of_ne hj]

/-- A call takes the lock of its shard, keeps it, or releases it. -/
theorem Embeds.hold (h : Embeds keys s w) (hphase : s'.phase = Function.update s.phase i p)
    (hindex : s'.cache.map.index = s.cache.map.index) (hcache : w'.toLightCacheInner = s'.cache)
    (hcalls : ∀ j, (w'.calls (keys j) j).phase = if j = i then p.whole else
      (w.calls (keys j) j).phase)
    (hlookups : w'.lookups = w.lookups)
    (hfree : ∀ j, s.holder (s.cache.map.index (keys i)) = some j → j = i)
    (hs : s'.holder = Function.update s.holder (s.cache.map.index (keys i))
      (if (p.insertion (keys i) i).isSome then some i else none))
    (hw : w'.holder = Function.update w.holder (s.cache.map.index (keys i))
      (p.insertion (keys i) i)) : Embeds keys s' w' where
  cache := hcache
  phase j := by
    rw [hcalls, hphase, Function.update_apply]
    split_ifs
    · rfl
    · exact h.phase j
  lookups := hlookups ▸ h.lookups
  holder n := by
    rw [hs, hw, hphase]
    by_cases hn : n = s.cache.map.index (keys i)
    · rw [hn, Function.update_self, Function.update_self]
      cases hp : p.insertion (keys i) i <;> simp [hp]
    · rw [Function.update_of_ne hn, Function.update_of_ne hn, h.holder]
      cases hj : s.holder n with
      | none => rfl
      | some j =>
        have hji : j ≠ i := by
          rintro rfl
          exact hn ((h.locked j n).mp hj).1
        simp [Function.update_of_ne hji]
  locked j n := by
    rw [hs, hphase, hindex]
    by_cases hj : j = i
    · subst hj
      rw [Function.update_self]
      by_cases hn : n = s.cache.map.index (keys j)
      · rw [hn, Function.update_self]
        cases hp : (p.insertion (keys j) j).isSome <;> simp
      · rw [Function.update_of_ne hn, h.locked]
        simp [hn]
    · rw [Function.update_of_ne hj]
      by_cases hn : n = s.cache.map.index (keys i)
      · rw [hn, Function.update_self, ← h.locked j]
        have hne : s.holder (s.cache.map.index (keys i)) ≠ some j := fun hj' => hj (hfree j hj')
        simp only [hne, iff_false]
        split_ifs
        · exact fun hij => hj (Option.some.inj hij).symm
        · exact nofun
      · rw [Function.update_of_ne hn, h.locked]

/-! ## The calls of the whole cache -/

omit [DecidableEq K] in
theorem phase_same {calls : K → ι → Call V E} {q : LightCache.Phase V E}
    (hi : (calls (keys i) i).phase = q) (j : ι) :
    (calls (keys j) j).phase = if j = i then q else (calls (keys j) j).phase := by
  by_cases hj : j = i
  · rw [if_pos hj, hj, hi]
  · rw [if_neg hj]

theorem phase_setCall {d : Call V E} (j : ι) :
    ((w.put (keys i) ((w.ofKey (keys i)).setCall i d)).calls (keys j) j).phase =
      if j = i then d.phase else (w.calls (keys j) j).phase := by
  show (Function.update w.calls (keys i) (Function.update (w.calls (keys i)) i d) (keys j) j).phase
    = _
  by_cases hj : j = i
  · rw [hj, Function.update_self, Function.update_self, if_pos rfl]
  · rw [if_neg hj]
    by_cases hk : keys j = keys i
    · rw [hk, Function.update_self, Function.update_of_ne hj]
    · rw [Function.update_of_ne hk]

theorem phase_write {d : Call V E} {ws : List Waker} (map : LightMap K V) (j : ι) :
    ((w.put (keys i) ((w.ofKey (keys i)).write (keys i) i d map ws)).calls (keys j) j).phase =
      if j = i then d.phase else (w.calls (keys j) j).phase := by
  show (Function.update w.calls (keys i)
    (fun j => (Function.update (w.calls (keys i)) i d j).wake ws) (keys j) j).phase = _
  by_cases hj : j = i
  · rw [hj, Function.update_self, Function.update_self, if_pos rfl]
    rfl
  · rw [if_neg hj]
    by_cases hk : keys j = keys i
    · rw [hk, Function.update_self, Function.update_of_ne hj]
      rfl
    · rw [Function.update_of_ne hk]

/-- A step of a call that does not take the lock to insert. -/
theorem step_call [DecidableEq τ] {key : K} {a : LightCache.Label V E ι}
    {u : LightCache.State K V E ι} (hblocked : w.blocked key a = false)
    (hcompletes : (w.ofKey key).completes a = none)
    (hu : (w.ofKey key).step (fun _ => .getOrTryInsert) key a = some u) :
    w.step (fun _ _ => .getOrTryInsert) (.call key a) = some (w.put key u) := by
  simp [WholeState.step, WholeState.call, hblocked, OverlapState.stepUnlocked, hcompletes, hu]

/-! ## Each step -/

/-- What a step of the whole cache comes from in a run `ls` of the refresh cache. -/
def Serves (keys : ι → K) (ls : List (Label V E ι)) : WholeLabel K V E ι Empty → Prop
  | .call k (.poll i r) => k = keys i ∧ .poll i r ∈ ls
  | _ => True

/-- The whole cache can take steps after which it is that of `s`. -/
def Follows (keys : ι → K) (ls : List (Label V E ι)) (s : State K V E ι)
    (w : WholeState (TtlPolicyInner K) K V E ι Empty) : Prop :=
  ∃ bs w', (∀ b ∈ bs, Serves keys ls b) ∧
    Trace.run (WholeState.step fun _ _ => .getOrTryInsert) w bs = some w' ∧ Embeds keys s w'

variable {ls : List (Label V E ι)} {v v' : WholeState (TtlPolicyInner K) K V E ι Empty}
variable {rd : Readings}

theorem follows_refl (h : Embeds keys s v) : Follows keys ls s v :=
  ⟨[], v, fun _ hb => absurd hb List.not_mem_nil, rfl, h⟩

theorem follows_single {b : WholeLabel K V E ι Empty} (hb : Serves keys ls b)
    (hstep : v.step (fun _ _ => .getOrTryInsert) b = some v') (h : Embeds keys s v') :
    Follows keys ls s v :=
  ⟨[b], v', fun _ hb' => List.mem_singleton.mp hb' ▸ hb, Trace.run_singleton.trans hstep, h⟩

theorem Embeds.start (h : Embeds keys s v) (hstep : s.start keys i rd = some s') :
    Follows keys ls s' v := by
  cases hphase : s.phase i with
  | unpolled =>
    cases hlocked : Policy.locked rd (.get (keys i)) s.cache.policy s.cache.map with
    | error e =>
      simp [State.start, hphase, LightCacheInner.call, hlocked, bind, Except.bind] at hstep
    | ok r =>
      obtain ⟨next, policy, map⟩ := r
      obtain rfl := TtlPolicyInner.next_of_get hlocked
      obtain ⟨dead, -, rfl, -⟩ := Sectioned.locked_cases hlocked
      have hcall : s.cache.call rd (.get (keys i)) =
          .ok (.returned ((s.cache.map.removeAll dead).get (keys i)),
            ⟨policy, s.cache.map.removeAll dead⟩) := by
        rw [LightCacheInner.call, hlocked]
        rfl
      have hlookup : v.step (fun _ _ => .getOrTryInsert) (.lookup (keys i) i rd) =
          some (WholeState.found (fun _ _ => .getOrTryInsert)
            { v with policy, map := s.cache.map.removeAll dead } (keys i) i
            ((s.cache.map.removeAll dead).get (keys i))) := by
        have hwhole : (v.calls (keys i) i).phase = .unpolled := h.phase_of hphase
        simp [WholeState.step, WholeState.lookup, hwhole, h.lookups, h.policy_eq, h.map_eq, hlocked]
      rw [State.start, hphase, hcall] at hstep
      refine follows_single (b := .lookup (keys i) i rd) trivial hlookup ?_
      have hindex : (s.cache.map.removeAll dead).index = s.cache.map.index :=
        funext fun k => LightMap.index_removeAll ..
      cases hvalue : (s.cache.map.removeAll dead).get (keys i) with
      | none =>
        rw [hvalue] at hstep
        obtain rfl := Option.some.inj hstep
        exact h.put (by rw [hphase]; rfl) rfl hindex rfl phase_setCall rfl rfl
      | some value =>
        rw [hvalue] at hstep
        obtain rfl := Option.some.inj hstep
        exact h.put (by rw [hphase]; rfl) rfl hindex rfl phase_setCall rfl rfl
  | _ => simp [State.start, hphase] at hstep

omit [DecidableEq ι] in
theorem eq_of_got {map map' : LightMap K V} {key : K} {waker : Waker} {joined joined' : Bool}
    {value : V} (h : GetOrInsertFutureInner.pollWaiting map key waker joined =
      (.got value, joined', map')) : map' = map := by
  unfold GetOrInsertFutureInner.pollWaiting at h
  cases hvalue : map.get key with
  | some v =>
    rw [hvalue] at h
    cases h
    rfl
  | none =>
    rw [hvalue] at h
    cases hwaiters : map.waiters key with
    | none =>
      rw [hwaiters] at h
      cases h
    | some n =>
      rw [hwaiters] at h
      dsimp only at h
      by_cases hw : 0 < (if joined then n else n.joinWaiter waker).workers
      · rw [if_pos hw] at h
        cases h
      · rw [if_neg hw] at h
        cases h

theorem Embeds.wait (h : Embeds keys s v) {waker : Waker}
    (hstep : s.wait keys i waker = some s') : Follows keys ls s' v := by
  cases hphase : s.phase i with
  | waiting joined =>
    have hwhole : ((v.ofKey (keys i)).calls i).phase = .waiting joined := h.phase_of hphase
    simp only [State.wait, hphase] at hstep
    split_ifs at hstep with hfree
    have hblocked : v.blocked (keys i) (.wait i waker) = false := by
      simp [WholeState.blocked, h.free_iff.mpr hfree]
    have hframe := frame_pollWaiting s.cache.map (keys i) waker joined
    rcases hpoll : GetOrInsertFutureInner.pollWaiting s.cache.map (keys i) waker joined with
      ⟨waited, joined', map⟩
    rw [hpoll] at hstep hframe
    have hindex : map.index = s.cache.map.index := funext hframe.index
    have hwait u := step_call (u := u) hblocked rfl
    simp only [LightCache.State.step, LightCache.State.wait, hwhole,
      show (v.ofKey (keys i)).map = s.cache.map from h.map_eq, hpoll] at hwait
    cases waited with
    | got value =>
      obtain rfl := eq_of_got hpoll
      obtain rfl := Option.some.inj hstep
      refine follows_single (b := .call (keys i) (.wait i waker)) trivial (hwait _ rfl) ?_
      exact h.put (by rw [hphase]; rfl) rfl hindex h.cache phase_setCall rfl rfl
    | pending | claimed =>
      obtain rfl := Option.some.inj hstep
      refine follows_single (b := .call (keys i) (.wait i waker)) trivial (hwait _ rfl) ?_
      exact h.put (by rw [hphase]; rfl) rfl hindex (by rw [← h.cache]; rfl) (phase_write _) rfl rfl
  | _ => simp [State.wait, hphase] at hstep

theorem Embeds.init (h : Embeds keys s v) {returns : Bool}
    (hstep : s.callInit i returns = some s') : Follows keys ls s' v := by
  cases hphase : s.phase i with
  | claimed joined =>
    have hwhole : ((v.ofKey (keys i)).calls i).phase = .claimed joined := h.phase_of hphase
    have hblocked : v.blocked (keys i) (.init i returns) = false := by
      simp [WholeState.blocked, LightCache.State.locks]
    have hinit u := step_call (u := u) hblocked rfl
    simp only [LightCache.State.step, LightCache.State.callInit, hwhole] at hinit
    simp only [State.callInit, hphase] at hstep
    obtain rfl := Option.some.inj hstep
    refine follows_single (b := .call (keys i) (.init i returns)) trivial (hinit _ rfl) ?_
    refine h.put (by rw [hphase]; rfl) ?_ rfl h.cache (fun j => (phase_setCall j).trans ?_) rfl rfl
    · cases returns <;> rfl
    · cases returns <;> rfl
  | _ => simp [State.callInit, hphase] at hstep

theorem Embeds.poll (h : Embeds keys s v) {r : FutPoll V E} (hmem : .poll i r ∈ ls)
    (hstep : s.pollFut i r = some s') : Follows keys ls s' v := by
  cases hphase : s.phase i with
  | working =>
    have hwhole : ((v.ofKey (keys i)).calls i).phase = .working := h.phase_of hphase
    have hblocked : v.blocked (keys i) (.poll i r) = false := by
      simp [WholeState.blocked, LightCache.State.locks]
    have hpoll u := step_call (u := u) hblocked rfl
    simp only [LightCache.State.step, LightCache.State.pollFut, hwhole] at hpoll
    simp only [State.pollFut, hphase] at hstep
    have hserves : Serves keys ls (.call (keys i) (.poll i r)) := ⟨rfl, hmem⟩
    cases r with
    | pending =>
      obtain rfl := Option.some.inj hstep
      exact follows_refl h
    | ready out =>
      obtain rfl := Option.some.inj hstep
      cases out with
      | ok value | error err =>
        refine follows_single hserves (hpoll _ rfl) ?_
        exact h.put (by rw [hphase]; rfl) rfl rfl h.cache phase_setCall rfl rfl
    | panicked =>
      obtain rfl := Option.some.inj hstep
      refine follows_single hserves (hpoll _ rfl) ?_
      exact h.put (by rw [hphase]; rfl) rfl rfl h.cache phase_setCall rfl rfl
  | _ => cases r <;> simp [State.pollFut, hphase] at hstep

/-- A poll that has a value or an error takes the lock of the shard. -/
theorem step_complete [DecidableEq τ] {key : K} {out : Except E V}
    (hfree : w.holder (w.map.index key) = none) (hphase : (w.calls key i).phase = .ready out) :
    w.step (fun _ _ => .getOrTryInsert) (.call key (.complete i)) =
      some (match w.map.get key with
        | some value => w.put key ((w.ofKey key).write key i
            { w.calls key i with phase := .finished true (.returned (.ok value)) } w.map [])
        | none => w.hold key (some ⟨key, ⟨i, true, out⟩, none⟩)) := by
  have hphase' : ((w.ofKey key).calls i).phase = .ready out := hphase
  have hmap : (w.ofKey key).map = w.map := rfl
  have hcall : (w.ofKey key).calls i = w.calls key i := rfl
  cases hvalue : w.map.get key <;>
    simp [WholeState.step, WholeState.call, WholeState.blocked, hfree, OverlapState.stepUnlocked,
      LightCache.State.completes, hphase', GetOrInsertFutureInner.pollWorking, hmap, hvalue,
      LightCache.State.step, LightCache.State.complete, GetOrTryInsertFuture.complete, ← hcall]

theorem Embeds.check (h : Embeds keys s v) (hstep : s.check keys i = some s') :
    Follows keys ls s' v := by
  cases hphase : s.phase i with
  | ready out =>
    have hwhole : (v.calls (keys i) i).phase = .ready out := h.phase_of hphase
    have hnone : (s.phase i).insertion (keys i) i = none := by rw [hphase]; rfl
    simp only [State.check, hphase] at hstep
    split_ifs at hstep with hfree
    have hcomplete := step_complete (h.free_iff.mpr hfree) hwhole
    rw [h.map_eq] at hcomplete
    simp only [GetOrInsertFutureInner.pollWorking] at hstep
    cases hvalue : s.cache.map.get (keys i) with
    | some value =>
      simp only [hvalue] at hstep hcomplete
      obtain rfl := Option.some.inj hstep
      refine follows_single (b := .call (keys i) (.complete i)) trivial hcomplete ?_
      exact h.put hnone rfl rfl (by rw [← h.cache]; rfl) (phase_write _) rfl rfl
    | none =>
      simp only [hvalue] at hstep hcomplete
      cases out with
      | ok value =>
        obtain rfl := Option.some.inj hstep
        refine follows_single (b := .call (keys i) (.complete i)) trivial hcomplete ?_
        refine h.hold (i := i) (p := .inserting value) rfl rfl h.cache (phase_same hwhole) rfl
          (fun j hj => ?_) rfl ?_
        · cases hj.symm.trans hfree
        · rw [← h.map_eq]
          rfl
      | error err =>
        -- The whole cache holds the lock here, and releases it in a step of its own.
        obtain rfl := Option.some.inj hstep
        let w := v.hold (keys i) (some ⟨keys i, ⟨i, true, .error err⟩, none⟩)
        have hinsertion : w.insertion (keys i) = some ⟨keys i, ⟨i, true, .error err⟩, none⟩ :=
          WholeState.insertion_hold_self fun x hx => by
            obtain rfl := Option.some.inj hx
            rfl
        have hout := WholeState.insertOut.eq_def w (keys i)
        simp only [hinsertion, Insertion.finish, Option.map_some] at hout
        refine ⟨[.call (keys i) (.complete i), .insertOut (keys i)], _, ?_,
          Trace.run_cons_eq_some.mpr ⟨w, hcomplete, Trace.run_singleton.trans hout⟩, ?_⟩
        · simp [Serves]
        · refine h.put hnone rfl rfl (by rw [← h.cache]; rfl) (phase_write _) rfl ?_
          have hholder : v.holder (v.map.index (keys i)) = none := h.free_iff.mpr hfree
          show Function.update (Function.update v.holder (v.map.index (keys i)) _)
            (v.map.index (keys i)) none = v.holder
          rw [Function.update_idem, ← hholder, Function.update_eq_self]
  | _ => simp [State.check, hphase] at hstep

theorem Embeds.track (h : Embeds keys s v) (hstep : s.track keys i rd = some s') :
    Follows keys ls s' v := by
  cases hphase : s.phase i with
  | inserting value =>
    have hinsertion := h.insertion hphase rfl rfl
    simp only [State.track, hphase] at hstep
    cases hlocked : Policy.locked rd (.insert (keys i) value) s.cache.policy s.cache.map with
    | error e => simp [hlocked] at hstep
    | ok r =>
      obtain ⟨next, policy, map⟩ := r
      obtain ⟨dead, -, rfl, -⟩ := Sectioned.locked_cases hlocked
      simp only [hlocked] at hstep
      obtain rfl := Option.some.inj hstep
      have htrack : v.track (keys i) rd = some (WholeState.hold
          { v with policy, map := s.cache.map.removeAll dead } (keys i)
          (some ⟨keys i, ⟨i, true, .ok value⟩, some next⟩)) := by
        simp [WholeState.track, hinsertion, h.policy_eq, h.map_eq, hlocked]
      refine follows_single (b := .track (keys i) rd) trivial htrack ?_
      have hindex : (s.cache.map.removeAll dead).index = s.cache.map.index :=
        funext fun k => LightMap.index_removeAll ..
      have hwhole : (v.calls (keys i) i).phase = .ready (.ok value) := h.phase_of hphase
      have hholder := h.holder_of hphase rfl
      refine h.hold (i := i) (p := .tracked value next) rfl hindex rfl (phase_same hwhole) rfl
        (fun j hj => Option.some.inj (hj.symm.trans hholder)) ?_ ?_
      · show s.holder = Function.update s.holder _ (some i)
        rw [← hholder, Function.update_eq_self]
      · rw [← hindex]
        rfl
  | _ => simp [State.track, hphase] at hstep

theorem Embeds.write (h : Embeds keys s v) (hstep : s.write keys i = some s') :
    Follows keys ls s' v := by
  cases hphase : s.phase i with
  | tracked value next =>
    have hinsertion := h.insertion hphase rfl rfl
    have hindex : (LightCacheInner.endInsert (keys i) value (s.cache.finish next)).2.2.map.index =
        s.cache.map.index := by
      funext k
      rw [LightCacheInner.endInsert_index, LightCacheInner.index_finish]
    have hout := WholeState.insertOut.eq_def v (keys i)
    simp only [State.write, hphase] at hstep
    simp only [hinsertion, Insertion.finish, h.cache, Option.map_some] at hout
    rcases hend : LightCacheInner.endInsert (keys i) value (s.cache.finish next) with
      ⟨completion, ws, c⟩
    rw [hend] at hstep hout hindex
    obtain rfl := Option.some.inj hstep
    refine follows_single (b := .insertOut (keys i)) trivial hout ?_
    have hholder := h.holder_of hphase rfl
    refine h.hold (i := i) (p := .finished true _) rfl hindex rfl (fun j => ?_) rfl
      (fun j hj => Option.some.inj (hj.symm.trans hholder)) ?_ ?_
    · exact phase_write c.map j
    · funext n
      show (if s.holder n = some i then none else s.holder n) =
        Function.update s.holder (s.cache.map.index (keys i)) none n
      by_cases hn : n = s.cache.map.index (keys i)
      · rw [hn, if_pos hholder, Function.update_self]
      · have hne : s.holder n ≠ some i := fun hn' => hn ((h.locked i n).mp hn').1
        rw [if_neg hne, Function.update_of_ne hn]
    · rw [← hindex]
      rfl
  | _ => simp [State.write, hphase] at hstep

theorem Embeds.drop_disarmed (h : Embeds keys s v) (hs : (s.phase i).insertion (keys i) i = none)
    (hdisarmed : (s.phase i).whole.disarmed = true) :
    Follows keys ls (s.put i .dropped s.cache) v := by
  have hphase : ((v.ofKey (keys i)).calls i).phase = (s.phase i).whole := h.phase i
  have harmed : (s.phase i).whole.armed = false := by
    revert hdisarmed
    cases (s.phase i).whole with
    | racing joined => cases joined <;> simp [LightCache.Phase.disarmed, LightCache.Phase.armed]
    | finished armed => cases armed <;> simp [LightCache.Phase.disarmed, LightCache.Phase.armed]
    | _ => simp [LightCache.Phase.disarmed, LightCache.Phase.armed]
  have hblocked : v.blocked (keys i) (.drop i) = false := by
    simp [WholeState.blocked, h.lookups, LightCache.State.locks, hphase, harmed]
  have hdrop : (v.ofKey (keys i)).step (fun _ => .getOrTryInsert) (keys i) (.drop i) = _ :=
    LightCache.State.drop_of_disarmed
      ((congrArg LightCache.Phase.disarmed hphase).trans hdisarmed)
  refine follows_single (b := .call (keys i) (.drop i)) trivial (step_call hblocked rfl hdrop) ?_
  exact h.put hs rfl rfl h.cache phase_setCall rfl rfl

theorem Embeds.drop_armed (h : Embeds keys s v) (hs : (s.phase i).insertion (keys i) i = none)
    (harmed : (s.phase i).whole = .working ∨ ∃ c, (s.phase i).whole = .finished true c)
    (hfree : s.Free (keys i)) :
    Follows keys ls (s.put i .dropped
      { s.cache with map := (GetOrInsertFutureInner.drop s.cache.map (keys i)).2 }) v := by
  have hmap : (v.ofKey (keys i)).map = s.cache.map := h.map_eq
  have hphase : ((v.ofKey (keys i)).calls i).phase = (s.phase i).whole := h.phase i
  have hblocked : v.blocked (keys i) (.drop i) = false := by
    simp [WholeState.blocked, h.lookups, h.free_iff.mpr hfree]
  have hdrop u := step_call (u := u) hblocked rfl
  have hindex : (leave s.cache.map (keys i)).2.index = s.cache.map.index :=
    funext (frame_leave s.cache.map (keys i)).index
  rcases harmed with hwhole | ⟨c, hwhole⟩ <;>
  · simp only [LightCache.State.step, LightCache.State.drop, hphase, hwhole, hmap] at hdrop
    refine follows_single (b := .call (keys i) (.drop i)) trivial (hdrop _ rfl) ?_
    exact h.put hs rfl hindex (by rw [← h.cache]; rfl) (phase_write _) rfl rfl

theorem Embeds.drop (h : Embeds keys s v) (hstep : s.drop keys i = some s') :
    Follows keys ls s' v := by
  cases hphase : s.phase i with
  | unpolled | waiting joined =>
    simp only [State.drop, hphase] at hstep
    obtain rfl := Option.some.inj hstep
    exact h.drop_disarmed (by rw [hphase]; rfl) (by rw [hphase]; rfl)
  | working =>
    simp only [State.drop, hphase] at hstep
    split_ifs at hstep with hfree
    obtain rfl := Option.some.inj hstep
    exact h.drop_armed (by rw [hphase]; rfl) (Or.inl (by rw [hphase]; rfl)) hfree
  | finished armed completion =>
    have hs : (s.phase i).insertion (keys i) i = none := by rw [hphase]; rfl
    cases armed with
    | false =>
      simp only [State.drop, hphase] at hstep
      obtain rfl := Option.some.inj hstep
      cases completion with
      | returned | unreachable => exact h.drop_disarmed hs (by rw [hphase]; rfl)
      | panicked =>
        -- The call of the whole cache was dropped when the refresher panicked.
        have hwhole : (v.calls (keys i) i).phase = .dropped := h.phase_of hphase
        exact follows_refl (h.put hs rfl rfl h.cache (phase_same hwhole) rfl rfl)
    | true =>
      simp only [State.drop, hphase] at hstep
      split_ifs at hstep with hfree
      obtain rfl := Option.some.inj hstep
      exact h.drop_armed hs (Or.inr ⟨completion, by rw [hphase]; cases completion <;> rfl⟩) hfree
  | _ => simp [State.drop, hphase] at hstep

theorem Embeds.step (h : Embeds keys s v) {a : Label V E ι} (ha : a ∈ ls)
    (hstep : s.step keys a = some s') : Follows keys ls s' v := by
  cases a with
  | start i rd => exact h.start hstep
  | wait i waker now => exact h.wait hstep
  | init i returns => exact h.init hstep
  | poll i r => exact h.poll ha hstep
  | check i => exact h.check hstep
  | track i rd => exact h.track hstep
  | write i => exact h.write hstep
  | drop i => exact h.drop hstep

end Embeds

section Runs

variable (keys : ι → K) (ttl : Duration) (n : ℕ+) (hasher : K → UInt64)
variable {ls : List (Label V E ι)} {s : State K V E ι}

omit [DecidableEq ι] in
theorem embeds_init : Embeds keys (State.init ttl n hasher : State K V E ι)
    (WholeState.start (TtlPolicyInner.new ttl) n hasher :
      WholeState (TtlPolicyInner K) K V E ι τ) where
  cache := rfl
  phase _ := rfl
  lookups _ _ := rfl
  holder _ := rfl
  locked i n := ⟨nofun, fun h => by cases h.2⟩

theorem exists_embeds
    (hrun : Trace.run (State.step keys) (State.init ttl n hasher) ls = some s) :
    ∃ bs w, (∀ b ∈ bs, Serves keys ls b) ∧
      Trace.run (WholeState.step fun _ _ => .getOrTryInsert)
        (WholeState.start (TtlPolicyInner.new ttl) n hasher) bs = some w ∧ Embeds keys s w := by
  have hstep (s : State K V E ι) (w : WholeState (TtlPolicyInner K) K V E ι Empty)
      (a : Label V E ι) (s' : State K V E ι) (h : Embeds keys s w) (ha : a ∈ ls)
      (hstep : s.step keys a = some s') : Follows keys ls s' w := h.step ha hstep
  exact Trace.simulate hstep (embeds_init keys ttl n hasher) (Trace.each_of_forall fun _ => id) hrun

omit [DecidableEq ι] in
theorem returns_eq_true (w : WholeState (TtlPolicyInner K) K V E ι τ)
    (b : WholeLabel K V E ι τ) : w.returns b = true := by
  cases b with
  | track key rd =>
    unfold WholeState.returns
    dsimp only
    split
    · split
      · next r hlocked =>
        obtain ⟨policy, map⟩ := r
        cases TtlPolicyInner.next_of_insert hlocked
      · rfl
    · rfl
  | _ => rfl

/-- **A run of the refresh cache is a run of the whole cache** with the time-to-live policy: the
cache is the same, the calls are where those of `get_or_try_insert` are, and their futures give what
those of `get` give. -/
theorem refresh_run (ls : List (Label V E ι))
    (hrun : Trace.run (State.step keys) (State.init ttl n hasher) ls = some s) :
    ∃ (bs : List (WholeLabel K V E ι Empty)) (w : WholeState (TtlPolicyInner K) K V E ι Empty),
      Trace.run (WholeState.step fun _ _ => .getOrTryInsert)
        (WholeState.start (TtlPolicyInner.new ttl) n hasher) bs = some w ∧
      w.toLightCacheInner = s.cache ∧ (∀ i, (w.calls (keys i) i).phase = (s.phase i).whole) ∧
      ∀ b ∈ bs, Serves keys ls b := by
  obtain ⟨bs, w, hserves, hrun', h⟩ := exists_embeds keys ttl n hasher hrun
  exact ⟨bs, w, hrun', h.cache, h.phase, hserves⟩

/-- Two calls of `get` on the key 1. -/
def joinedKeys (_ : Bool) : ℕ := 1

/-- Call `true` waits for call `false`, and gets its value. -/
def joinedRun : List (Label ℕ Unit Bool) :=
  [.start false (.single 0 0), .wait false 0 0, .init false true, .start true (.single 1 1),
    .wait true 1 1, .poll false .pending, .poll false (.ready (.ok 7)), .check false,
    .track false (.single 2 2), .write false, .wait true 1 2, .drop false]

theorem refresh_run_joined :
    ∃ s : State ℕ ℕ Unit Bool,
      Trace.run (State.step joinedKeys) (State.init 5 1 fun _ => 0) joinedRun = some s ∧
      ∃ (bs : List (WholeLabel ℕ ℕ Unit Bool Empty))
        (w : WholeState (TtlPolicyInner ℕ) ℕ ℕ Unit Bool Empty),
        Trace.run (WholeState.step fun _ _ => .getOrTryInsert)
          (WholeState.start (TtlPolicyInner.new 5) 1 fun _ => 0) bs = some w ∧
        w.toLightCacheInner = s.cache ∧
        (∀ i, (w.calls (joinedKeys i) i).phase = (s.phase i).whole) ∧
        ∀ b ∈ bs, Serves joinedKeys joinedRun b :=
  ⟨_, rfl, refresh_run joinedKeys 5 1 (fun _ => 0) joinedRun rfl⟩

/-- **What `get` returns was given by the refresher**, in a call on the same key, and so was what
the table holds. -/
theorem refresh_values_given (ls : List (Label V E ι))
    (hrun : Trace.run (State.step keys) (State.init ttl n hasher) ls = some s) :
    (∀ key v, s.cache.map.get key = some v →
        ∃ j, keys j = key ∧ .poll j (.ready (.ok v)) ∈ ls) ∧
      ∀ i armed v, s.phase i = .finished armed (.returned (.ok v)) →
        ∃ j, keys j = keys i ∧ .poll j (.ready (.ok v)) ∈ ls := by
  obtain ⟨bs, w, hserves, hrun', h⟩ := exists_embeds keys ttl n hasher hrun
  have hgives {key : K} {v : V} (hv : Gives bs key v) :
      ∃ j, keys j = key ∧ .poll j (.ready (.ok v)) ∈ ls := by
    rcases hv with ⟨j, hj⟩ | ⟨j, -⟩
    · obtain ⟨hkey, hmem⟩ := hserves _ hj
      exact ⟨j, hkey.symm, hmem⟩
    · exact j.elim
  have hreturns : Trace.Each (WholeState.step fun _ _ => .getOrTryInsert)
      (fun w b => w.returns b = true) (WholeState.start (TtlPolicyInner.new ttl) n hasher) bs :=
    (Trace.each_of_forall hserves).imp (I := fun _ => True) (fun _ _ _ _ _ _ => trivial)
      (fun w b _ _ => returns_eq_true w b) trivial
  constructor
  · intro key v hv
    rw [← h.cache] at hv
    exact hgives ((WholeState.gives_of_run _ n hasher hrun' hreturns key).1 v hv)
  · intro i armed v hv
    refine hgives ((WholeState.gives_of_run _ n hasher hrun' hreturns (keys i)).2 i v ?_)
    rw [h.phase, hv]
    cases armed <;> rfl

theorem refresh_values_given_joined :
    ∃ s : State ℕ ℕ Unit Bool,
      Trace.run (State.step joinedKeys) (State.init 5 1 fun _ => 0) joinedRun = some s ∧
      s.phase true = .finished false (.returned (.ok 7)) ∧
      (∀ key v, s.cache.map.get key = some v →
        ∃ j, joinedKeys j = key ∧ .poll j (.ready (.ok v)) ∈ joinedRun) ∧
      ∀ i armed v, s.phase i = .finished armed (.returned (.ok v)) →
        ∃ j, joinedKeys j = joinedKeys i ∧ .poll j (.ready (.ok v)) ∈ joinedRun :=
  ⟨_, rfl, rfl, refresh_values_given joinedKeys 5 1 (fun _ => 0) joinedRun rfl⟩

end Runs

end Refresh

end LightCache
