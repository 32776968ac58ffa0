import Mathlib.Algebra.Order.BigOperators.Group.Finset
import Mathlib.Data.Fintype.Card
import LightCache.Policy.Tracking
import LightCache.Refresh.System

/-!
# The calls of a refresh cache come to an end

A call that inserts takes the policy lock while it holds the waiters lock of a shard. No section
under the policy lock takes a waiters lock, so the call goes on, and so do those that wait for its
lock. And a call that waits for the value of another one waits for a call that has the key: no
more workers are counted than there are such calls.

Main result: `refresh_calls_end`. That needs that the refresher returns a future: when it panics,
its call is counted for ever.
-/

namespace LightCache

namespace Refresh

open TtlPolicyInner

variable {K V E ι : Type} [DecidableEq K] [DecidableEq ι]

namespace Phase

/-- The call is counted as a worker, until its destructor ran. -/
def counted : Phase K V E → Bool
  | .claimed _ | .working | .ready _ | .inserting _ | .tracked _ _ | .finished true _ => true
  | _ => false

/-- What the call adds to the workers of its key. -/
def weight (p : Phase K V E) : ℕ := if p.counted then 1 else 0

/-- How far the call is from its end. -/
def rank : Phase K V E → ℕ
  | .unpolled => 8
  | .waiting _ => 7
  | .claimed _ => 6
  | .working => 5
  | .ready _ => 4
  | .inserting _ => 3
  | .tracked _ _ => 2
  | .finished _ _ => 1
  | .dropped => 0

end Phase

theorem ready_ne_pending (out : Except E V) : FutPoll.ready out ≠ .pending := nofun

theorem panicked_ne_pending : (FutPoll.panicked : FutPoll V E) ≠ .pending := nofun

namespace State

/-- The step brings a call closer to its end: the refresher returns a future, no future is pending,
a poll of a waiting call does not wait again, and only calls that have ended are dropped. -/
def Proceeds (keys : ι → K) (s : State K V E ι) : Label V E ι → Prop
  | .start _ _ | .check _ | .track _ _ | .write _ => True
  | .wait i _ _ => s.cache.map.get (keys i) = none →
    ∀ node, s.cache.map.waiters (keys i) = some node → node.workers = 0
  | .init _ returns => returns = true
  | .poll _ r => r ≠ .pending
  | .drop i => ∃ armed completion, s.phase i = .finished armed completion

instance (keys : ι → K) (s : State K V E ι) : ∀ label, Decidable (s.Proceeds keys label)
  | .start _ _ | .check _ | .track _ _ | .write _ => isTrue trivial
  | .wait i _ _ => inferInstanceAs (Decidable (s.cache.map.get (keys i) = none →
      ∀ node ∈ s.cache.map.waiters (keys i), node.workers = 0))
  | .init _ returns => inferInstanceAs (Decidable (returns = true))
  | .poll _ r => match r with
    | .pending => isFalse fun h => h rfl
    | .ready out => isTrue (ready_ne_pending out)
    | .panicked => isTrue panicked_ne_pending
  | .drop i =>
    match h : s.phase i with
    | .finished armed completion => isTrue ⟨armed, completion, h⟩
    | .unpolled | .waiting _ | .claimed _ | .working | .ready _ | .inserting _ | .tracked _ _
    | .dropped => isFalse fun ⟨_, _, hp⟩ => by rw [h] at hp; cases hp

end State

/-! ## What a step does -/

section Moves

variable {keys : ι → K} {s s' : State K V E ι} {i : ι} {label : Label V E ι} {p p' : Phase K V E}
variable {c : RefreshCache K V} {k : K} {node node' : Wakers} {w : Waker} {joined : Bool}

/-- Call `i` goes from `p` to `p'`. The lock that it holds, if any, is that of an insert; and it
changes the number of workers of its key with its own weight, if at all. -/
structure Moves (keys : ι → K) (label : Label V E ι) (s s' : State K V E ι) (i : ι)
    (p p' : Phase K V E) : Prop where
  before : s.phase i = p
  after : s'.phase = Function.update s.phase i p'
  sound : ∃ ts, Stamped s'.cache.policy.arena ts
  held : ∀ n j, s'.holder n = some j →
    if j = i then p'.Inserts ∨ ¬p.Inserts ∧ s.holder n = some i else s.holder n = some j
  others : ∀ k, k ≠ keys i → s'.cache.map.waiters k = s.cache.map.waiters k
  own : ∀ r, (∀ node, s.cache.map.waiters (keys i) = some node → node.workers ≤ r + p.weight) →
    ∀ node, s'.cache.map.waiters (keys i) = some node → node.workers ≤ r + p'.weight
  rank_lt : s.Proceeds keys label → p'.rank < p.rank

theorem moves_put (hi : s.phase i = p) (hp : ¬p.Inserts)
    (hsound : ∃ ts, Stamped c.policy.arena ts)
    (hothers : ∀ k, k ≠ keys i → c.map.waiters k = s.cache.map.waiters k)
    (hown : ∀ r, (∀ node, s.cache.map.waiters (keys i) = some node → node.workers ≤ r + p.weight) →
      ∀ node, c.map.waiters (keys i) = some node → node.workers ≤ r + p'.weight)
    (hrank : s.Proceeds keys label → p'.rank < p.rank) :
    Moves keys label s (s.put i p' c) i p p' where
  before := hi
  after := rfl
  sound := hsound
  held n j hj := by
    split_ifs with hji
    · exact Or.inr ⟨hp, hji ▸ hj⟩
    · exact hj
  others := hothers
  own := hown
  rank_lt := hrank

theorem moves_quiet (hi : s.phase i = p) (hp : ¬p.Inserts)
    (hsound : ∃ ts, Stamped c.policy.arena ts)
    (hwaiters : ∀ k, c.map.waiters k = s.cache.map.waiters k) (hweight : p.weight = p'.weight)
    (hrank : s.Proceeds keys label → p'.rank < p.rank) :
    Moves keys label s (s.put i p' c) i p p' :=
  moves_put hi hp hsound (fun k _ => hwaiters k)
    (fun _ h node hnode => hweight ▸ h node ((hwaiters _).symm.trans hnode)) hrank

omit [DecidableEq ι] in
/-- The policy after a section under its lock. -/
theorem sound_locked (h : ∃ ts, Stamped s.cache.policy.arena ts) (rd : Readings) (op : Op K V) :
    ∃ next policy map, Policy.locked rd op s.cache.policy s.cache.map = .ok (next, policy, map) ∧
      (∃ ts, Stamped policy.arena ts) ∧ ∀ k, map.waiters k = s.cache.map.waiters k := by
  obtain ⟨ts, h⟩ := h
  obtain ⟨dead, next, policy, hok, hsound, -⟩ := tracks h rd op s.cache.map
  exact ⟨next, policy, _, hok, hsound, fun k => LightMap.waiters_removeAll ..⟩

theorem start_moves (h : ∃ ts, Stamped s.cache.policy.arena ts) {rd : Readings}
    (hstep : s.start keys i rd = some s') :
    ∃ p p', Moves keys (.start i rd) s s' i p p' := by
  obtain ⟨next, policy, map, hok, hsound, hwaiters⟩ := sound_locked h rd (.get (keys i))
  have hcall : s.cache.call rd (.get (keys i)) =
      .ok (LightCacheInner.finish ⟨policy, map⟩ next) := by
    rw [LightCacheInner.call, hok]
    rfl
  have hpolicy := LightCacheInner.finish_policy ⟨policy, map⟩ next
  have hmap (k : K) : (LightCacheInner.finish ⟨policy, map⟩ next).2.map.waiters k =
      s.cache.map.waiters k :=
    (LightCacheInner.waiters_finish ⟨policy, map⟩ next k).trans (hwaiters k)
  rcases hfinish : LightCacheInner.finish ⟨policy, map⟩ next with ⟨⟨_ | value⟩ | _, c⟩ <;>
  · rw [State.start, hcall, hfinish] at hstep
    rw [hfinish] at hpolicy hmap
    cases hphase : s.phase i with
    | unpolled =>
      simp only [hphase] at hstep
      obtain rfl := Option.some.inj hstep
      exact ⟨_, _, moves_quiet hphase id (hpolicy ▸ hsound) hmap rfl fun _ => by simp [Phase.rank]⟩
    | _ => simp [hphase] at hstep

omit [DecidableEq ι] in
/-- What the section of the `Waiting` state decides, and the entry that it leaves. -/
theorem pollWaiting_cases (map : LightMap K V) (k : K) (w : Waker) (joined : Bool) :
    (∃ v, GetOrInsertFutureInner.pollWaiting map k w joined = (.got v, joined, map)) ∨
      map.get k = none ∧ ((∃ node node', map.waiters k = some node ∧ node.workers ≠ 0 ∧
          node'.workers = node.workers ∧
          GetOrInsertFutureInner.pollWaiting map k w joined =
            (.pending, true, map.setWaiters k node')) ∨
        ∃ node joined', node.workers = 1 ∧ GetOrInsertFutureInner.pollWaiting map k w joined =
          (.claimed, joined', map.setWaiters k node)) := by
  unfold GetOrInsertFutureInner.pollWaiting
  cases map.get k with
  | some value => exact Or.inl ⟨value, rfl⟩
  | none =>
    refine Or.inr ⟨rfl, ?_⟩
    cases map.waiters k with
    | none => exact Or.inr ⟨.start w, joined, rfl, rfl⟩
    | some node =>
      -- What the call adds to the entry does not change the workers.
      have hsame : (if joined then node else node.joinWaiter w).workers = node.workers := by
        cases joined <;> rfl
      by_cases hzero : node.workers = 0
      · refine Or.inr ⟨(if joined then node else node.joinWaiter w).joinWorker, true, ?_, ?_⟩
        · rw [Wakers.workers_joinWorker, hsame, hzero]
        · simp only [hsame, hzero, gt_iff_lt, lt_irrefl, if_false]
      · refine Or.inl ⟨node, _, rfl, hzero, hsame, ?_⟩
        simp only [hsame, gt_iff_lt, Nat.pos_of_ne_zero hzero, if_true]

theorem wait_moves (h : ∃ ts, Stamped s.cache.policy.arena ts) {now : Instant}
    (hstep : s.wait keys i w = some s') : ∃ p p', Moves keys (.wait i w now) s s' i p p' := by
  cases hphase : s.phase i with
  | waiting joined =>
    simp only [State.wait, hphase] at hstep
    split_ifs at hstep
    have hset {k : K} (hk : k ≠ keys i) (node : Wakers) :
        (s.cache.map.setWaiters (keys i) node).waiters k = s.cache.map.waiters k := by
      rw [LightMap.waiters_setWaiters, if_neg hk]
    have hself {node node' : Wakers}
        (hn : (s.cache.map.setWaiters (keys i) node).waiters (keys i) = some node') :
        node = node' := by
      rw [LightMap.waiters_setWaiters, if_pos rfl] at hn
      exact Option.some.inj hn
    rcases pollWaiting_cases s.cache.map (keys i) w joined with ⟨value, hpoll⟩ |
      ⟨hget, ⟨node, node', hnode, hworkers, hsame, hpoll⟩ | ⟨node, joined', hone, hpoll⟩⟩
    · simp only [hpoll] at hstep
      obtain rfl := Option.some.inj hstep
      exact ⟨_, _, moves_quiet hphase id h (fun _ => rfl) rfl fun _ => by simp [Phase.rank]⟩
    · simp only [hpoll] at hstep
      obtain rfl := Option.some.inj hstep
      refine ⟨_, _, moves_put hphase id h (fun k hk => hset hk node') (fun r hr n hn => ?_)
        fun hproceeds => absurd (hproceeds hget node hnode) hworkers⟩
      rw [← hself hn, hsame]
      exact hr node hnode
    · simp only [hpoll] at hstep
      obtain rfl := Option.some.inj hstep
      refine ⟨_, _, moves_put hphase id h (fun k hk => hset hk node) (fun r _ n hn => ?_)
        fun _ => by simp [Phase.rank]⟩
      rw [← hself hn, hone]
      exact Nat.le_add_left 1 r
  | _ => simp [State.wait, hphase] at hstep

theorem callInit_moves (h : ∃ ts, Stamped s.cache.policy.arena ts)
    (hstep : s.callInit i true = some s') : ∃ p p', Moves keys (.init i true) s s' i p p' := by
  cases hphase : s.phase i with
  | claimed joined =>
    simp only [State.callInit, hphase, if_true] at hstep
    obtain rfl := Option.some.inj hstep
    exact ⟨_, _, moves_quiet hphase id h (fun _ => rfl) rfl fun _ => by simp [Phase.rank]⟩
  | _ => simp [State.callInit, hphase] at hstep

theorem pollFut_moves (h : ∃ ts, Stamped s.cache.policy.arena ts) {r : FutPoll V E}
    (hstep : s.pollFut i r = some s') : ∃ p p', Moves keys (.poll i r) s s' i p p' := by
  cases hphase : s.phase i with
  | working =>
    cases r with
    | pending =>
      simp only [State.pollFut, hphase] at hstep
      obtain rfl := Option.some.inj hstep
      have hquiet :
          Moves keys (.poll i .pending) s (s.put i .working s.cache) i .working .working :=
        moves_quiet hphase id h (fun _ => rfl) rfl fun hproceeds => absurd rfl hproceeds
      have hsame : s.put i .working s.cache = s := by
        rw [State.put, ← hphase, Function.update_eq_self]
      exact ⟨_, _, hsame ▸ hquiet⟩
    | ready out | panicked =>
      simp only [State.pollFut, hphase] at hstep
      obtain rfl := Option.some.inj hstep
      exact ⟨_, _, moves_quiet hphase id h (fun _ => rfl) rfl fun _ => by simp [Phase.rank]⟩
  | _ => simp [State.pollFut, hphase] at hstep

theorem check_moves (h : ∃ ts, Stamped s.cache.policy.arena ts)
    (hstep : s.check keys i = some s') : ∃ p p', Moves keys (.check i) s s' i p p' := by
  cases hphase : s.phase i with
  | ready out =>
    simp only [State.check, hphase] at hstep
    split_ifs at hstep
    have hquiet {p' : Phase K V E} (hweight : p'.weight = 1) (hrank : p'.rank < 4) :
        Moves keys (.check i) s (s.put i p' s.cache) i (.ready out) p' :=
      moves_quiet hphase id h (fun _ => rfl) hweight.symm fun _ => hrank
    cases hpoll : GetOrInsertFutureInner.pollWorking s.cache.map (keys i) out with
    | got value =>
      simp only [hpoll] at hstep
      obtain rfl := Option.some.inj hstep
      exact ⟨_, _, hquiet rfl (by simp [Phase.rank])⟩
    | insert out' =>
      cases out' with
      | error err =>
        simp only [hpoll] at hstep
        obtain rfl := Option.some.inj hstep
        exact ⟨_, _, hquiet rfl (by simp [Phase.rank])⟩
      | ok value =>
        simp only [hpoll] at hstep
        obtain rfl := Option.some.inj hstep
        have hput : Moves keys (.check i) s (s.put i (.inserting value) s.cache) i (.ready out)
            (.inserting value) := hquiet rfl (by simp [Phase.rank])
        refine ⟨_, _, { hput with held := fun n j hj => ?_ }⟩
        split_ifs with hji
        · exact Or.inl trivial
        · replace hj :
            Function.update s.holder (s.cache.map.index (keys i)) (some i) n = some j := hj
          rw [Function.update_apply] at hj
          split_ifs at hj
          · exact absurd (Option.some.inj hj).symm hji
          · exact hj
  | _ => simp [State.check, hphase] at hstep

theorem track_moves (h : ∃ ts, Stamped s.cache.policy.arena ts) {rd : Readings}
    (hstep : s.track keys i rd = some s') : ∃ p p', Moves keys (.track i rd) s s' i p p' := by
  cases hphase : s.phase i with
  | inserting value =>
    obtain ⟨next, policy, map, hok, hsound, hwaiters⟩ :=
      sound_locked h rd (.insert (keys i) value)
    simp only [State.track, hphase, hok] at hstep
    obtain rfl := Option.some.inj hstep
    refine ⟨_, _, hphase, rfl, hsound, fun n j hj => ?_, fun k _ => hwaiters k,
      fun r hr node hn => hr node ((hwaiters _).symm.trans hn), fun _ => by simp [Phase.rank]⟩
    split_ifs
    · exact Or.inl trivial
    · exact hj
  | _ => simp [State.track, hphase] at hstep

theorem write_moves (h : ∃ ts, Stamped s.cache.policy.arena ts)
    (hstep : s.write keys i = some s') : ∃ p p', Moves keys (.write i) s s' i p p' := by
  cases hphase : s.phase i with
  | tracked value next =>
    have hwaiters (k : K) :=
      LightCacheInner.endInsert_waiters (keys i) k value (s.cache.finish next)
    simp only [LightCacheInner.waiters_finish] at hwaiters
    simp only [State.write, hphase] at hstep
    obtain rfl := Option.some.inj hstep
    refine ⟨_, _, hphase, rfl, ?_, fun n j hj => ?_,
      fun k hk => (hwaiters k).resolve_right fun hgone => hk hgone.1, fun r hr node hn => ?_,
      fun _ => by simp [Phase.rank]⟩
    · simp only [State.unlock, cache_put, LightCacheInner.endInsert_policy,
        LightCacheInner.finish_policy]
      exact h
    · replace hj : (if s.holder n = some i then none else s.holder n) = some j := hj
      by_cases hheld : s.holder n = some i
      · rw [if_pos hheld] at hj
        cases hj
      · rw [if_neg hheld] at hj
        have hji : j ≠ i := fun hji => hheld (hji ▸ hj)
        rw [if_neg hji]
        exact hj
    · rcases hwaiters (keys i) with hsame | ⟨-, hgone⟩
      · exact hr node (hsame.symm.trans hn)
      · cases hgone.symm.trans hn
  | _ => simp [State.write, hphase] at hstep

theorem drop_moves (h : ∃ ts, Stamped s.cache.policy.arena ts)
    (hstep : s.drop keys i = some s') : ∃ p p', Moves keys (.drop i) s s' i p p' := by
  -- The destructor of a call that is counted.
  have hleave {p : Phase K V E} (hi : s.phase i = p) (hp : ¬p.Inserts) (hweight : p.weight = 1)
      (hrank : 0 < p.rank) :
      Moves keys (.drop i) s (s.put i .dropped { s.cache with
        map := (GetOrInsertFutureInner.drop s.cache.map (keys i)).2 }) i p .dropped := by
    rw [GetOrInsertFutureInner.drop, leave]
    cases hnode : s.cache.map.waiters (keys i) with
    | none =>
      exact moves_put hi hp h (fun _ _ => rfl) (fun r _ node hn => by rw [hnode] at hn; cases hn)
        fun _ => hrank
    | some node =>
      refine moves_put hi hp h (fun k hk => ?_) (fun r hr node' hn => ?_) fun _ => hrank
      · rw [LightMap.waiters_setWaiters, if_neg hk]
      · rw [LightMap.waiters_setWaiters, if_pos rfl] at hn
        obtain rfl := Option.some.inj hn
        have hle := hr node hnode
        rw [hweight] at hle
        exact Nat.sub_le_of_le_add hle
  cases hphase : s.phase i with
  | unpolled | waiting joined =>
    simp only [State.drop, hphase] at hstep
    obtain rfl := Option.some.inj hstep
    exact ⟨_, _, moves_quiet hphase id h (fun _ => rfl) rfl fun _ => by simp [Phase.rank]⟩
  | working =>
    simp only [State.drop, hphase] at hstep
    split_ifs at hstep
    obtain rfl := Option.some.inj hstep
    exact ⟨_, _, hleave hphase id rfl (by simp [Phase.rank])⟩
  | finished armed completion =>
    cases armed with
    | false =>
      simp only [State.drop, hphase] at hstep
      obtain rfl := Option.some.inj hstep
      exact ⟨_, _, moves_quiet hphase id h (fun _ => rfl) rfl fun _ => by simp [Phase.rank]⟩
    | true =>
      simp only [State.drop, hphase] at hstep
      split_ifs at hstep
      obtain rfl := Option.some.inj hstep
      exact ⟨_, _, hleave hphase id rfl (by simp [Phase.rank])⟩
  | _ => simp [State.drop, hphase] at hstep

theorem step_moves (h : ∃ ts, Stamped s.cache.policy.arena ts)
    (hinit : ∀ i, label ≠ .init i false) (hstep : s.step keys label = some s') :
    ∃ i p p', Moves keys label s s' i p p' := by
  cases label with
  | start i rd => exact ⟨i, start_moves h hstep⟩
  | wait i w now => exact ⟨i, wait_moves h hstep⟩
  | init i returns =>
    cases returns with
    | false => exact absurd rfl (hinit i)
    | true => exact ⟨i, callInit_moves h hstep⟩
  | poll i r => exact ⟨i, pollFut_moves h hstep⟩
  | check i => exact ⟨i, check_moves h hstep⟩
  | track i rd => exact ⟨i, track_moves h hstep⟩
  | write i => exact ⟨i, write_moves h hstep⟩
  | drop i => exact ⟨i, drop_moves h hstep⟩

end Moves

/-! ## What every state keeps -/

section Sane

variable [Fintype ι] {keys : ι → K} {s s' : State K V E ι} {i : ι} {label : Label V E ι}
variable {p p' : Phase K V E}

/-- The calls on `k` that are counted. -/
def counted (keys : ι → K) (s : State K V E ι) (k : K) : Finset ι :=
  Finset.univ.filter fun i => keys i = k ∧ (s.phase i).counted = true

/-- The policy is sound, the waiters locks are held by calls that insert, and no more workers are
counted than there are. -/
structure Sane (keys : ι → K) (s : State K V E ι) : Prop where
  sound : ∃ ts, Stamped s.cache.policy.arena ts
  holder : ∀ n i, s.holder n = some i → (s.phase i).Inserts
  workers : ∀ k node, s.cache.map.waiters k = some node → node.workers ≤ (counted keys s k).card

omit [DecidableEq ι] in
theorem sane_init (keys : ι → K) (ttl : Duration) (n : ℕ+) (hasher : K → UInt64) :
    Sane keys (State.init ttl n hasher : State K V E ι) where
  sound := ⟨[], stamped_new⟩
  holder n i hi := by cases hi
  workers k node hnode := by
    simp [State.init, RefreshCache.new, LightCacheInner.fromParts] at hnode

theorem card_counted (s : State K V E ι) (i : ι) :
    (counted keys s (keys i)).card =
      ((counted keys s (keys i)).erase i).card + (s.phase i).weight := by
  by_cases hi : (s.phase i).counted = true
  · have hmem : i ∈ counted keys s (keys i) := by simp [counted, hi]
    rw [Phase.weight, if_pos hi, Finset.card_erase_add_one hmem]
  · have hmem : i ∉ counted keys s (keys i) := by simp [counted, hi]
    rw [Phase.weight, if_neg hi, Finset.erase_eq_of_notMem hmem, Nat.add_zero]

theorem erase_counted (h : s'.phase = Function.update s.phase i p') (k : K) :
    (counted keys s' k).erase i = (counted keys s k).erase i := by
  ext j
  simp only [counted, Finset.mem_erase, Finset.mem_filter, Finset.mem_univ, true_and, h]
  by_cases hji : j = i
  · simp [hji]
  · rw [Function.update_of_ne hji]

theorem Sane.of_moves (h : Sane keys s) (hm : Moves keys label s s' i p p') : Sane keys s' where
  sound := hm.sound
  holder n j hj := by
    have hheld := hm.held n j hj
    rw [hm.after]
    by_cases hji : j = i
    · subst hji
      rw [if_pos rfl] at hheld
      rw [Function.update_self]
      exact hheld.resolve_right fun hnot => hnot.1 (hm.before ▸ h.holder n j hnot.2)
    · rw [if_neg hji] at hheld
      rw [Function.update_of_ne hji]
      exact h.holder n j hheld
  workers k node hnode := by
    by_cases hk : k = keys i
    · subst hk
      rw [card_counted s' i, erase_counted hm.after, hm.after, Function.update_self]
      refine hm.own _ (fun node hnode => ?_) node hnode
      rw [← hm.before, ← card_counted]
      exact h.workers _ node hnode
    · rw [hm.others k hk] at hnode
      have hsame (t : State K V E ι) : (counted keys t k).erase i = counted keys t k :=
        Finset.erase_eq_of_notMem (by simp [counted, Ne.symm hk])
      rw [← hsame s', erase_counted hm.after, hsame s]
      exact h.workers k node hnode

theorem Sane.step (h : Sane keys s) (hinit : ∀ i, label ≠ .init i false)
    (hstep : s.step keys label = some s') : Sane keys s' := by
  obtain ⟨i, p, p', hm⟩ := step_moves h.sound hinit hstep
  exact h.of_moves hm

omit [DecidableEq ι] [Fintype ι] in
theorem ne_init_of_proceeds (h : s.Proceeds keys label) (i : ι) :
    label ≠ .init i false := by
  rintro rfl
  cases h

/-- What is left to the calls. -/
def measure (s : State K V E ι) : ℕ := ∑ i, (s.phase i).rank

theorem Sane.measure_lt (h : Sane keys s) (hproceeds : s.Proceeds keys label)
    (hstep : s.step keys label = some s') : measure s' + 1 ≤ measure s := by
  obtain ⟨i, p, p', hm⟩ := step_moves h.sound (ne_init_of_proceeds hproceeds) hstep
  refine Nat.succ_le_of_lt (Finset.sum_lt_sum (fun j _ => ?_) ⟨i, Finset.mem_univ i, ?_⟩)
  · rw [hm.after]
    by_cases hji : j = i
    · subst hji
      rw [Function.update_self, hm.before]
      exact (hm.rank_lt hproceeds).le
    · rw [Function.update_of_ne hji]
  · rw [hm.after, Function.update_self, hm.before]
    exact hm.rank_lt hproceeds

/-! ## No call is stuck -/

omit [Fintype ι] in
/-- A call that inserts can go on. -/
theorem exists_step_of_inserts (h : ∃ ts, Stamped s.cache.policy.arena ts)
    (hi : (s.phase i).Inserts) :
    ∃ label s', s.Proceeds keys label ∧ s.step keys label = some s' := by
  cases hp : s.phase i with
  | inserting value =>
    obtain ⟨next, policy, map, hok, -⟩ := sound_locked h (.single 0 0) (.insert (keys i) value)
    exact ⟨.track i (.single 0 0), _, trivial, by simp only [State.step, State.track, hp, hok]; rfl⟩
  | tracked value next =>
    exact ⟨.write i, _, trivial, by simp only [State.step, State.write, hp]; rfl⟩
  | _ =>
    rw [hp] at hi
    cases hi

omit [Fintype ι] in
/-- When the locks are free, so can every call that does not wait. -/
theorem exists_step_of_free (h : ∃ ts, Stamped s.cache.policy.arena ts)
    (hfree : ∀ n, s.holder n = none) (hi : s.phase i ≠ .dropped)
    (hwait : ∀ joined, s.phase i ≠ .waiting joined) :
    ∃ label s', s.Proceeds keys label ∧ s.step keys label = some s' := by
  have hlock : s.Free (keys i) := hfree _
  cases hp : s.phase i with
  | unpolled =>
    obtain ⟨next, policy, map, hok, -⟩ := sound_locked h (.single 0 0) (.get (keys i))
    have hcall : s.cache.call (.single 0 0) (.get (keys i)) =
        .ok (LightCacheInner.finish ⟨policy, map⟩ next) := by
      rw [LightCacheInner.call, hok]
      rfl
    rcases hfinish : LightCacheInner.finish ⟨policy, map⟩ next with ⟨⟨_ | value⟩ | _, c⟩ <;>
      exact ⟨.start i (.single 0 0), _, trivial, by
        simp only [State.step, State.start, hp, hcall, hfinish]; rfl⟩
  | waiting joined => exact absurd hp (hwait joined)
  | claimed joined =>
    exact ⟨.init i true, _, rfl, by simp only [State.step, State.callInit, hp]; rfl⟩
  | working =>
    exact ⟨.poll i .panicked, _, by simp [State.Proceeds], by
      simp only [State.step, State.pollFut, hp]; rfl⟩
  | ready out =>
    rcases hpoll : GetOrInsertFutureInner.pollWorking s.cache.map (keys i) out with
      (err | value) | value <;>
      exact ⟨.check i, _, trivial, by
        simp only [State.step, State.check, hp, hlock, if_true, hpoll]; rfl⟩
  | inserting value | tracked value next =>
    exact exists_step_of_inserts h (by rw [hp]; trivial)
  | finished armed completion =>
    cases armed <;>
      exact ⟨.drop i, _, ⟨_, _, hp⟩, by
        simp only [State.step, State.drop, hp, hlock, if_true]; rfl⟩
  | dropped => exact absurd hp hi

/-- As long as there is a call, some call can go on. -/
theorem Sane.exists_step (h : Sane keys s) (hi : s.phase i ≠ .dropped) :
    ∃ label s', s.Proceeds keys label ∧ s.step keys label = some s' := by
  by_cases hfree : ∀ n, s.holder n = none
  · by_cases hwait : ∀ joined, s.phase i ≠ .waiting joined
    · exact exists_step_of_free h.sound hfree hi hwait
    · obtain ⟨joined, hp⟩ : ∃ joined, s.phase i = .waiting joined := by
        simpa only [not_forall, not_not] using hwait
      by_cases hgo : s.Proceeds keys (.wait i 0 0)
      · have hlock : s.Free (keys i) := hfree _
        rcases hpoll : GetOrInsertFutureInner.pollWaiting s.cache.map (keys i) 0 joined with
          ⟨_ | _ | _, joined', map⟩ <;>
          exact ⟨.wait i 0 0, _, hgo, by
            simp only [State.step, State.wait, hp, hlock, if_true, hpoll]; rfl⟩
      · -- The call waits for another one, which is counted.
        obtain ⟨-, node, hnode, hworkers⟩ : s.cache.map.get (keys i) = none ∧
            ∃ node, s.cache.map.waiters (keys i) = some node ∧ node.workers ≠ 0 := by
          simpa [State.Proceeds] using hgo
        have hcard := h.workers _ node hnode
        have hpos := Nat.lt_of_lt_of_le (Nat.pos_of_ne_zero hworkers) hcard
        obtain ⟨j, hj⟩ := Finset.card_pos.mp hpos
        obtain ⟨-, -, hcounted⟩ := Finset.mem_filter.mp hj
        refine exists_step_of_free (i := j) h.sound hfree ?_ ?_
        · intro hp
          rw [hp] at hcounted
          cases hcounted
        · intro joined hp
          rw [hp] at hcounted
          cases hcounted
  · obtain ⟨n, hn⟩ := not_forall.mp hfree
    obtain ⟨j, hj⟩ := Option.ne_none_iff_exists'.mp hn
    exact exists_step_of_inserts h.sound (h.holder n j hj)

end Sane

/-- **The calls come to an end.** In any state that calls of `get` reach, whatever was cancelled and
whatever the futures did, if the refresher never panicked: steps that bring a call closer to its
end are bounded by what is left to the calls, and they can be taken until all calls are gone. -/
theorem refresh_calls_end [Fintype ι] (keys : ι → K) (ttl : Duration) (n : ℕ+) (hasher : K → UInt64)
    (labels : List (Label V E ι)) (hinit : ∀ i, .init i false ∉ labels) {s : State K V E ι}
    (hs : Trace.run (State.step keys) (State.init ttl n hasher) labels = some s)
    (labels' : List (Label V E ι)) (hproceeds : Trace.Each (State.step keys) (State.Proceeds keys) s
      labels')
    {t : State K V E ι} (ht : Trace.run (State.step keys) s labels' = some t) :
    labels'.length + ∑ i, (t.phase i).rank ≤ ∑ i, (s.phase i).rank ∧
      ((∀ i, t.phase i = .dropped) ∨
        ∃ label t', t.Proceeds keys label ∧ t.step keys label = some t') := by
  have henv : Trace.Each (State.step keys) (fun _ label => ∀ i, label ≠ .init i false)
      (State.init ttl n hasher) labels :=
    Trace.each_of_forall fun label hlabel i heq => hinit i (heq ▸ hlabel)
  have hsane : Sane keys s := Trace.inv_of_each (fun _ _ _ h hok hstep => h.step hok hstep)
    (sane_init keys ttl n hasher) henv hs
  have hkeep (s : State K V E ι) (label : Label V E ι) (s' : State K V E ι) (h : Sane keys s)
      (hok : s.Proceeds keys label) (hstep : s.step keys label = some s') : Sane keys s' :=
    h.step (ne_init_of_proceeds hok) hstep
  constructor
  · have hboth : Trace.Each (State.step keys) (fun s label => Sane keys s ∧ s.Proceeds keys label)
        s labels' := hproceeds.imp hkeep (fun _ _ h hok => ⟨h, hok⟩) hsane
    have hlen : labels'.length + measure t ≤ measure s + (labels'.map fun _ => 0).sum :=
      Trace.length_le_of_measure (fun _ _ _ hok hstep => hok.1.measure_lt hok.2 hstep) hboth ht
    simpa [measure] using hlen
  · have hsane' : Sane keys t := Trace.inv_of_each hkeep hsane hproceeds ht
    by_cases hall : ∀ i, t.phase i = .dropped
    · exact Or.inl hall
    · obtain ⟨i, hi⟩ := not_forall.mp hall
      exact Or.inr (hsane'.exists_step hi)

/-- Call 1 waits for call 0, which was cancelled while its future was pending. -/
theorem refresh_calls_end_two_calls :
    ∃ s t : State ℕ ℕ Unit (Fin 2),
      Trace.run (State.step fun _ => 1) (State.init 5 1 fun _ => 0)
        [.start 0 (.single 0 0), .wait 0 0 0, .init 0 true, .start 1 (.single 1 1), .wait 1 1 1,
          .poll 0 .pending, .drop 0] = some s ∧
      Trace.run (State.step fun _ => 1) s [.wait 1 1 2, .init 1 true, .poll 1 (.ready (.ok 7))] =
        some t ∧
      3 + ∑ i, (t.phase i).rank ≤ ∑ i, (s.phase i).rank ∧
      ((∀ i, t.phase i = .dropped) ∨ ∃ label t', t.Proceeds (fun _ => 1) label ∧
        t.step (fun _ => 1) label = some t') := by
  refine ⟨_, _, rfl, rfl, refresh_calls_end (fun _ => 1) 5 1 (fun _ => 0)
    [.start 0 (.single 0 0), .wait 0 0 0, .init 0 true, .start 1 (.single 1 1), .wait 1 1 1,
      .poll 0 .pending, .drop 0] (by simp) rfl
    [.wait 1 1 2, .init 1 true, .poll 1 (.ready (.ok 7))] (by decide) rfl⟩

end Refresh

end LightCache
