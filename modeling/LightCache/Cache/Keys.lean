import LightCache.Cache.System
import LightCache.Lib.Trace

/-!
# The calls of all keys

The calls of different keys share the map: its shards, with the tables and the waiters that lie in
them. Here all of them run at once, each step one of `LightCache.Cache.System` for its key. A wake
is recorded with the calls of the key whose waiters entry it comes from.

Main result: `keys_independent`: the runs of the whole system are the interleavings of runs of the
keys, and each key is left as its own run leaves it. So what holds of the calls of one key holds of
each key of the cache.
-/

namespace LightCache

variable {K V E ι : Type} [DecidableEq K] [DecidableEq ι]

/-! ## What a section sees of the map -/

namespace LightMap

/-- The maps have the same value and the same waiters entry for the key. -/
structure Same (key : K) (m m' : LightMap K V) : Prop where
  get : m.get key = m'.get key
  waiters : m.waiters key = m'.waiters key

variable {m m' : LightMap K V} {key : K} {v : V} {node : Wakers}

theorem Same.refl (key : K) (m : LightMap K V) : m.Same key m := ⟨rfl, rfl⟩

theorem Same.trans {m'' : LightMap K V} (h : m.Same key m') (h' : m'.Same key m'') :
    m.Same key m'' := ⟨h.get.trans h'.get, h.waiters.trans h'.waiters⟩

theorem Same.insert (h : m.Same key m') : (m.insert key v).2.Same key (m'.insert key v).2 :=
  ⟨by rw [get_insert, get_insert, if_pos rfl, if_pos rfl], by simp [h.waiters]⟩

theorem Same.remove (h : m.Same key m') : (m.remove key).2.Same key (m'.remove key).2 :=
  ⟨by rw [get_remove, get_remove, if_pos rfl, if_pos rfl], by simp [h.waiters]⟩

theorem Same.setWaiters (h : m.Same key m') :
    (m.setWaiters key node).Same key (m'.setWaiters key node) :=
  ⟨by simp [h.get], by rw [waiters_setWaiters, waiters_setWaiters, if_pos rfl, if_pos rfl]⟩

theorem Same.removeWaiters (h : m.Same key m') :
    (m.removeWaiters key).2.Same key (m'.removeWaiters key).2 :=
  ⟨by simp [h.get],
    by rw [waiters_removeWaiters, waiters_removeWaiters, if_pos rfl, if_pos rfl]⟩

/-- `m'` is `m` but for what lies there for the key. -/
structure Frame (key : K) (m' m : LightMap K V) : Prop where
  same : ∀ k, k ≠ key → m'.Same k m
  index : ∀ k, m'.index k = m.index k

theorem Frame.refl (key : K) (m : LightMap K V) : Frame key m m :=
  ⟨fun k _ => .refl k m, fun _ => rfl⟩

theorem Frame.trans {m₁ m₂ m₃ : LightMap K V} (h : Frame key m₁ m₂) (h' : Frame key m₂ m₃) :
    Frame key m₁ m₃ :=
  ⟨fun k hk => (h.same k hk).trans (h'.same k hk), fun k => (h.index k).trans (h'.index k)⟩

theorem frame_insert (m : LightMap K V) (key : K) (v : V) : Frame key (m.insert key v).2 m :=
  ⟨fun k hk => ⟨by rw [get_insert, if_neg hk], by simp⟩, by simp⟩

theorem frame_remove (m : LightMap K V) (key : K) : Frame key (m.remove key).2 m :=
  ⟨fun k hk => ⟨by rw [get_remove, if_neg hk], by simp⟩, by simp⟩

theorem frame_setWaiters (m : LightMap K V) (key : K) (node : Wakers) :
    Frame key (m.setWaiters key node) m :=
  ⟨fun k hk => ⟨by simp, by rw [waiters_setWaiters, if_neg hk]⟩, by simp⟩

theorem frame_removeWaiters (m : LightMap K V) (key : K) : Frame key (m.removeWaiters key).2 m :=
  ⟨fun k hk => ⟨by simp, by rw [waiters_removeWaiters, if_neg hk]⟩, by simp⟩

end LightMap

section Sections

variable {m m' : LightMap K V} {key : K}

theorem leave_congr (h : m.Same key m') :
    (leave m key).1 = (leave m' key).1 ∧ (leave m key).2.Same key (leave m' key).2 := by
  unfold leave
  rw [← h.waiters]
  cases m.waiters key with
  | none => exact ⟨rfl, h⟩
  | some n => exact ⟨rfl, h.setWaiters⟩

theorem frame_leave (m : LightMap K V) (key : K) : LightMap.Frame key (leave m key).2 m := by
  unfold leave
  cases m.waiters key with
  | none => exact .refl key m
  | some n => exact m.frame_setWaiters key _

theorem pollWaiting_congr (h : m.Same key m') (w : Waker) (joined : Bool) :
    let r := GetOrInsertFutureInner.pollWaiting m key w joined
    let r' := GetOrInsertFutureInner.pollWaiting m' key w joined
    r.1 = r'.1 ∧ r.2.1 = r'.2.1 ∧ r.2.2.Same key r'.2.2 := by
  unfold GetOrInsertFutureInner.pollWaiting
  rw [← h.get, ← h.waiters]
  cases m.get key with
  | some v => exact ⟨rfl, rfl, h⟩
  | none =>
    cases m.waiters key with
    | none => exact ⟨rfl, rfl, h.setWaiters⟩
    | some n =>
      dsimp only
      by_cases hw : 0 < (if joined then n else n.joinWaiter w).workers
      · rw [if_pos hw, if_pos hw]
        exact ⟨rfl, rfl, h.setWaiters⟩
      · rw [if_neg hw, if_neg hw]
        exact ⟨rfl, rfl, h.setWaiters⟩

theorem frame_pollWaiting (m : LightMap K V) (key : K) (w : Waker) (joined : Bool) :
    LightMap.Frame key (GetOrInsertFutureInner.pollWaiting m key w joined).2.2 m := by
  unfold GetOrInsertFutureInner.pollWaiting
  cases m.get key with
  | some v => exact .refl key m
  | none =>
    cases m.waiters key with
    | none => exact m.frame_setWaiters key _
    | some n =>
      dsimp only
      by_cases hw : 0 < (if joined then n else n.joinWaiter w).workers
      · rw [if_pos hw]
        exact m.frame_setWaiters key _
      · rw [if_neg hw]
        exact m.frame_setWaiters key _

theorem insertValue_eq (m : LightMap K V) (key : K) (v : V) :
    insertValue m key v = (if (m.waiters key).isSome then .returned v else .unreachable,
      ((m.waiters key).map Wakers.finish).getD [], ((m.insert key v).2.removeWaiters key).2) := by
  have hfst : ((m.insert key v).2.removeWaiters key).1 = m.waiters key := by simp
  rw [insertValue, ← Prod.mk.eta (p := (m.insert key v).2.removeWaiters key), hfst]
  cases m.waiters key <;> rfl

theorem complete_congr (h : m.Same key m') (ready : InnerComplete V (Except E V)) :
    let r := GetOrTryInsertFuture.complete m key ready
    let r' := GetOrTryInsertFuture.complete m' key ready
    r.1 = r'.1 ∧ r.2.1 = r'.2.1 ∧ r.2.2.Same key r'.2.2 := by
  cases ready with
  | got v => exact ⟨rfl, rfl, h⟩
  | insert out =>
    cases out with
    | error err => exact ⟨rfl, rfl, h⟩
    | ok v =>
      simp only [GetOrTryInsertFuture.complete, insertValue_eq, h.waiters, true_and]
      exact h.insert.removeWaiters

theorem frame_complete (m : LightMap K V) (key : K) (ready : InnerComplete V (Except E V)) :
    LightMap.Frame key (GetOrTryInsertFuture.complete m key ready).2.2 m := by
  cases ready with
  | got v => exact .refl key m
  | insert out =>
    cases out with
    | error err => exact .refl key m
    | ok v =>
      simp only [GetOrTryInsertFuture.complete, insertValue_eq]
      exact (LightMap.frame_removeWaiters _ key).trans (m.frame_insert key v)

theorem pollWorking_congr (h : m.Same key m') (out : Except E V) :
    GetOrInsertFutureInner.pollWorking m key out =
      GetOrInsertFutureInner.pollWorking m' key out := by
  rw [GetOrInsertFutureInner.pollWorking, GetOrInsertFutureInner.pollWorking, h.get]

theorem racePoll_congr (h : m.Same key m') (w : Waker) (joined : Bool)
    (out : Option (Except E V)) :
    let r := RaceInner.poll m key w joined out
    let r' := RaceInner.poll m' key w joined out
    r.1 = r'.1 ∧ r.2.1 = r'.2.1 ∧ r.2.2.Same key r'.2.2 := by
  unfold RaceInner.poll
  rw [← h.get, ← h.waiters]
  cases m.get key with
  | some v => exact ⟨rfl, rfl, h⟩
  | none =>
    cases out with
    | some out => exact ⟨rfl, rfl, h⟩
    | none =>
      cases m.waiters key with
      | none => exact ⟨rfl, rfl, h.setWaiters⟩
      | some n =>
        cases joined with
        | true => exact ⟨rfl, rfl, h⟩
        | false => exact ⟨rfl, rfl, h.setWaiters⟩

theorem frame_racePoll (m : LightMap K V) (key : K) (w : Waker) (joined : Bool)
    (out : Option (Except E V)) : LightMap.Frame key (RaceInner.poll m key w joined out).2.2 m := by
  unfold RaceInner.poll
  cases m.get key with
  | some v => exact .refl key m
  | none =>
    cases out with
    | some out => exact .refl key m
    | none =>
      cases m.waiters key with
      | none => exact m.frame_setWaiters key _
      | some n =>
        cases joined with
        | true => exact .refl key m
        | false => exact m.frame_setWaiters key _

end Sections

/-! ## What a step sees of the map -/

namespace State

/-- The states have the same calls, and maps that are the same for the key. -/
structure Same (key : K) (s t : State K V E ι) : Prop where
  map : s.map.Same key t.map
  calls : s.calls = t.calls
  epoch : s.epoch = t.epoch

variable {kinds : ι → Kind} {key : K} {s s' t : State K V E ι} {a : Label V E ι} {i : ι}
variable {c : Call V E} {map map' : LightMap K V} {ws : List Waker}

omit [DecidableEq ι] in
theorem Same.symm (h : s.Same key t) : t.Same key s :=
  ⟨⟨h.map.get.symm, h.map.waiters.symm⟩, h.calls.symm, h.epoch.symm⟩

theorem Same.setCall (h : s.Same key t) : (s.setCall i c).Same key (t.setCall i c) where
  map := h.map
  calls := by rw [State.setCall, State.setCall, h.calls]
  epoch := h.epoch

omit [DecidableEq ι] in
theorem Same.nextEpoch (h : s.Same key t) (hmap : map.Same key map') :
    s.nextEpoch key map = t.nextEpoch key map' := by
  rw [State.nextEpoch, State.nextEpoch, h.map.waiters, h.epoch, hmap.waiters]

theorem Same.write (h : s.Same key t) (hmap : map.Same key map') :
    (s.write key i c map ws).Same key (t.write key i c map' ws) where
  map := hmap
  calls := by rw [State.write, State.write, h.calls]
  epoch := h.nextEpoch hmap

theorem Same.wait {w : Waker} (h : s.Same key t) (hstep : s.wait key i w = some s') :
    ∃ t', t.wait key i w = some t' ∧ s'.Same key t' := by
  simp only [State.wait, ← h.calls, ← h.epoch] at hstep ⊢
  cases hc : (s.calls i).phase with
  | waiting joined =>
    simp only [hc] at hstep ⊢
    obtain ⟨hwaited, hjoined, hmap⟩ := pollWaiting_congr h.map w joined
    generalize GetOrInsertFutureInner.pollWaiting s.map key w joined = r
      at hstep hwaited hjoined hmap
    generalize GetOrInsertFutureInner.pollWaiting t.map key w joined = r'
      at hwaited hjoined hmap ⊢
    obtain ⟨waited, joined', map⟩ := r
    obtain ⟨waited', joined'', map'⟩ := r'
    obtain rfl : waited = waited' := hwaited
    obtain rfl : joined' = joined'' := hjoined
    cases waited with
    | got v =>
      obtain rfl := Option.some.inj hstep
      exact ⟨_, rfl, h.setCall⟩
    | pending =>
      obtain rfl := Option.some.inj hstep
      exact ⟨_, rfl, h.write hmap⟩
    | claimed =>
      obtain rfl := Option.some.inj hstep
      rw [show s.nextEpoch key map = t.nextEpoch key map' from h.nextEpoch hmap]
      exact ⟨_, rfl, h.write hmap⟩
  | _ => simp [hc] at hstep

theorem Same.callInit {returns : Bool} (h : s.Same key t) (hstep : s.callInit i returns = some s') :
    ∃ t', t.callInit i returns = some t' ∧ s'.Same key t' := by
  simp only [State.callInit, ← h.calls] at hstep ⊢
  cases hc : (s.calls i).phase with
  | claimed joined | calling =>
    simp only [hc] at hstep ⊢
    obtain rfl := Option.some.inj hstep
    exact ⟨_, rfl, h.setCall⟩
  | _ => simp [hc] at hstep

theorem Same.pollFut {r : FutPoll V E} (h : s.Same key t) (hstep : s.pollFut kinds i r = some s') :
    ∃ t', t.pollFut kinds i r = some t' ∧ s'.Same key t' := by
  simp only [State.pollFut, ← h.calls] at hstep ⊢
  cases hc : (s.calls i).phase with
  | working =>
    simp only [hc] at hstep ⊢
    cases r with
    | pending =>
      obtain rfl := Option.some.inj hstep
      exact ⟨_, rfl, h⟩
    | ready out =>
      cases out with
      | ok v =>
        obtain rfl := Option.some.inj hstep
        exact ⟨_, rfl, h.setCall⟩
      | error err =>
        obtain ⟨hf, hstep⟩ := Option.ite_none_right_eq_some.mp hstep
        obtain rfl := Option.some.inj hstep
        exact ⟨_, if_pos hf, h.setCall⟩
    | panicked =>
      obtain rfl := Option.some.inj hstep
      exact ⟨_, rfl, h.setCall⟩
  | racing joined =>
    simp only [hc] at hstep ⊢
    cases r with
    | pending | panicked =>
      obtain rfl := Option.some.inj hstep
      exact ⟨_, rfl, h.setCall⟩
    | ready out =>
      cases out with
      | ok v =>
        obtain rfl := Option.some.inj hstep
        exact ⟨_, rfl, h.setCall⟩
      | error err =>
        obtain ⟨hf, hstep⟩ := Option.ite_none_right_eq_some.mp hstep
        obtain rfl := Option.some.inj hstep
        exact ⟨_, if_pos hf, h.setCall⟩
  | _ => simp [hc] at hstep

theorem Same.complete (h : s.Same key t) (hstep : s.complete key i = some s') :
    ∃ t', t.complete key i = some t' ∧ s'.Same key t' := by
  simp only [State.complete, ← h.calls] at hstep ⊢
  cases hc : (s.calls i).phase with
  | ready out =>
    simp only [hc] at hstep ⊢
    obtain rfl := Option.some.inj hstep
    obtain ⟨hcompletion, hws, hmap⟩ := complete_congr h.map
      (GetOrInsertFutureInner.pollWorking s.map key out)
    rw [← pollWorking_congr h.map out, hcompletion, hws]
    exact ⟨_, rfl, h.write hmap⟩
  | _ => simp [hc] at hstep

theorem Same.race {w : Waker} (h : s.Same key t) (hstep : s.race key i w = some s') :
    ∃ t', t.race key i w = some t' ∧ s'.Same key t' := by
  simp only [State.race, GetOrTryInsertRace.complete, ← h.calls] at hstep ⊢
  cases hc : (s.calls i).phase with
  | polled joined out =>
    simp only [hc] at hstep ⊢
    obtain ⟨hready, hjoined, hmap⟩ := racePoll_congr h.map w joined out
    generalize RaceInner.poll s.map key w joined out = r at hstep hready hjoined hmap
    generalize RaceInner.poll t.map key w joined out = r' at hready hjoined hmap ⊢
    obtain ⟨ready, joined', map⟩ := r
    obtain ⟨ready', joined'', map'⟩ := r'
    obtain rfl : ready = ready' := hready
    obtain rfl : joined' = joined'' := hjoined
    cases ready with
    | none =>
      obtain rfl := Option.some.inj hstep
      exact ⟨_, rfl, h.write hmap⟩
    | some ready =>
      obtain rfl := Option.some.inj hstep
      obtain ⟨hcompletion, hws, hmap⟩ := complete_congr hmap ready
      dsimp only at hcompletion hws hmap ⊢
      rw [hcompletion, hws]
      exact ⟨_, rfl, h.write hmap⟩
  | _ => simp [hc] at hstep

theorem Same.drop (h : s.Same key t) (hstep : s.drop key i = some s') :
    ∃ t', t.drop key i = some t' ∧ s'.Same key t' := by
  obtain ⟨hws, hmap⟩ := leave_congr h.map
  simp only [State.drop, ← h.calls] at hstep ⊢
  cases hc : (s.calls i).phase with
  | unpolled | waiting joined =>
    simp only [hc] at hstep ⊢
    obtain rfl := Option.some.inj hstep
    exact ⟨_, rfl, h.setCall⟩
  | working =>
    simp only [hc, ← hws] at hstep ⊢
    obtain rfl := Option.some.inj hstep
    exact ⟨_, rfl, h.write hmap⟩
  | racing armed | finished armed completion =>
    cases armed with
    | false =>
      simp only [hc] at hstep ⊢
      obtain rfl := Option.some.inj hstep
      exact ⟨_, rfl, h.setCall⟩
    | true =>
      simp only [hc, ← hws] at hstep ⊢
      obtain rfl := Option.some.inj hstep
      exact ⟨_, rfl, h.write hmap⟩
  | _ => simp [hc] at hstep

theorem Same.step (h : s.Same key t) (hstep : s.step kinds key a = some s') :
    ∃ t', t.step kinds key a = some t' ∧ s'.Same key t' := by
  cases a with
  | start i =>
    simp only [State.step, start, ← h.calls, ← h.map.get] at hstep ⊢
    cases hc : (s.calls i).phase with
    | unpolled =>
      cases hv : s.map.get key <;> simp only [hc, hv] at hstep ⊢ <;>
        obtain rfl := Option.some.inj hstep <;> exact ⟨_, rfl, h.setCall⟩
    | _ => simp [hc] at hstep
  | wait i w => exact h.wait hstep
  | init i returns => exact h.callInit hstep
  | poll i r => exact h.pollFut hstep
  | complete i => exact h.complete hstep
  | race i w => exact h.race hstep
  | drop i => exact h.drop hstep
  | remove =>
    obtain rfl := Option.some.inj hstep
    exact ⟨_, rfl, h.map.remove, h.calls, h.epoch⟩
  | insert v =>
    obtain rfl := Option.some.inj hstep
    exact ⟨_, rfl, h.map.insert, h.calls, h.epoch⟩

theorem map_pollFut {r : FutPoll V E} (hstep : s.pollFut kinds i r = some s') :
    s'.map = s.map := by
  unfold State.pollFut at hstep
  dsimp only at hstep
  split at hstep
  case h_3 | h_7 =>
    obtain ⟨-, hstep⟩ := Option.ite_none_right_eq_some.mp hstep
    obtain rfl := Option.some.inj hstep
    rfl
  case h_9 => cases hstep
  all_goals
    obtain rfl := Option.some.inj hstep
    rfl

theorem frame_step (hstep : s.step kinds key a = some s') : LightMap.Frame key s'.map s.map := by
  cases a with
  | start i =>
    simp only [State.step, start] at hstep
    cases hc : (s.calls i).phase with
    | unpolled =>
      cases hv : s.map.get key <;> simp only [hc, hv] at hstep <;>
        obtain rfl := Option.some.inj hstep <;> exact .refl key s.map
    | _ => simp [hc] at hstep
  | wait i w =>
    simp only [State.step, wait] at hstep
    cases hc : (s.calls i).phase with
    | waiting joined =>
      simp only [hc] at hstep
      have hmap := frame_pollWaiting s.map key w joined
      split at hstep
      · obtain rfl := Option.some.inj hstep
        exact .refl key s.map
      · obtain rfl := Option.some.inj hstep
        exact hmap
      · obtain rfl := Option.some.inj hstep
        exact hmap
    | _ => simp [hc] at hstep
  | init i returns =>
    simp only [State.step, callInit] at hstep
    cases hc : (s.calls i).phase with
    | claimed joined | calling =>
      simp only [hc] at hstep
      obtain rfl := Option.some.inj hstep
      exact .refl key s.map
    | _ => simp [hc] at hstep
  | poll i r =>
    rw [map_pollFut hstep]
    exact .refl key s.map
  | complete i =>
    simp only [State.step, complete] at hstep
    cases hc : (s.calls i).phase with
    | ready out =>
      simp only [hc] at hstep
      obtain rfl := Option.some.inj hstep
      exact frame_complete s.map key _
    | _ => simp [hc] at hstep
  | race i w =>
    simp only [State.step, race, GetOrTryInsertRace.complete] at hstep
    cases hc : (s.calls i).phase with
    | polled joined out =>
      simp only [hc] at hstep
      have hmap := frame_racePoll s.map key w joined out
      split at hstep
      · obtain rfl := Option.some.inj hstep
        exact (frame_complete _ key _).trans hmap
      · obtain rfl := Option.some.inj hstep
        exact hmap
    | _ => simp [hc] at hstep
  | drop i =>
    simp only [State.step, drop] at hstep
    have hmap := frame_leave s.map key
    split at hstep
    case h_8 => cases hstep
    -- The destructors that take the lock.
    case h_5 | h_6 | h_7 =>
      obtain rfl := Option.some.inj hstep
      exact hmap
    all_goals
      obtain rfl := Option.some.inj hstep
      exact .refl key s.map
  | remove =>
    obtain rfl := Option.some.inj hstep
    exact s.map.frame_remove key
  | insert v =>
    obtain rfl := Option.some.inj hstep
    exact s.map.frame_insert key v

end State

/-! ## All keys -/

/-- The map, and for each key its calls, with what is recorded of the past. -/
structure KeysState (K V E ι : Type) [DecidableEq K] where
  map : LightMap K V
  calls : K → ι → Call V E
  epoch : K → ℕ
  bare : K → Bool

namespace KeysState

/-- No call was polled, and nothing is stored. -/
def init (n : ℕ+) (hasher : K → UInt64) : KeysState K V E ι where
  map := LightMap.empty n hasher
  calls _ _ := .fresh
  epoch _ := 0
  bare _ := false

/-- What the calls of `key` see. -/
def ofKey (s : KeysState K V E ι) (key : K) : State K V E ι where
  map := s.map
  calls := s.calls key
  epoch := s.epoch key
  bare := s.bare key

/-- A step of the calls of one key. -/
def step (kinds : K → ι → Kind) (s : KeysState K V E ι) (a : K × Label V E ι) :
    Option (KeysState K V E ι) :=
  ((s.ofKey a.1).step (kinds a.1) a.1 a.2).map fun t =>
    { map := t.map
      calls := Function.update s.calls a.1 t.calls
      epoch := Function.update s.epoch a.1 t.epoch
      bare := Function.update s.bare a.1 t.bare }

variable {kinds : K → ι → Kind} {s s' : KeysState K V E ι} {t : State K V E ι} {key k : K}
variable {a : Label V E ι}

theorem step_eq_some (hstep : s.step kinds (key, a) = some s') :
    ∃ t, (s.ofKey key).step (kinds key) key a = some t ∧ s'.ofKey key = t ∧ s'.map = t.map ∧
      ∀ k, k ≠ key → s'.calls k = s.calls k ∧ s'.epoch k = s.epoch k := by
  obtain ⟨t, ht, rfl⟩ := Option.map_eq_some_iff.mp hstep
  refine ⟨t, ht, ?_, rfl, fun k hk => ?_⟩
  · simp [ofKey]
  · simp [Function.update_of_ne hk]

/-- Each key sees its own calls, and the map through what lies there for it. -/
theorem parts (kinds : K → ι → Kind) :
    Trace.Parts (step kinds) (fun k => State.step (kinds k) k)
      (fun k (s : KeysState K V E ι) t => (s.ofKey k).Same k t) where
  own k a s t s' h hstep := by
    obtain ⟨t₁, ht₁, rfl, -, -⟩ := step_eq_some hstep
    exact h.step ht₁
  other j k a s t s' hjk h hstep := by
    obtain ⟨t₁, ht₁, -, hmap, hother⟩ := step_eq_some hstep
    obtain ⟨hcalls, hepoch⟩ := hother j hjk
    have hsame : s'.map.Same j s.map := hmap ▸ (State.frame_step ht₁).same j hjk
    exact ⟨hsame.trans h.map, hcalls.trans h.calls, hepoch.trans h.epoch⟩
  enabled k a s t t' h hstep := by
    obtain ⟨t₁, ht₁, -⟩ := h.symm.step hstep
    exact ⟨_, Option.map_eq_some_iff.mpr ⟨t₁, ht₁, rfl⟩⟩

end KeysState

/-- **The keys are independent.** A list of steps of any keys is a run of the cache exactly if for
each key its own steps are a run of that key alone, and then each key has the calls, the value and
the waiters entry of its own run. -/
theorem keys_independent (kinds : K → ι → Kind) (n : ℕ+) (hasher : K → UInt64)
    (ls : List (K × Label V E ι)) :
    ((∃ s, Trace.run (KeysState.step kinds) (KeysState.init n hasher) ls = some s) ↔
      ∀ k, ∃ t, Trace.run (State.step (kinds k) k) (State.init n hasher) (Trace.part k ls) =
        some t) ∧
    ∀ k s t, Trace.run (KeysState.step kinds) (KeysState.init n hasher) ls = some s →
      Trace.run (State.step (kinds k) k) (State.init n hasher) (Trace.part k ls) = some t →
      s.calls k = t.calls ∧ s.map.get k = t.map.get k ∧ s.map.waiters k = t.map.waiters k := by
  have hinit (k : K) : ((KeysState.init n hasher : KeysState K V E ι).ofKey k).Same k
      (State.init n hasher) := ⟨.refl k _, rfl, rfl⟩
  refine ⟨⟨fun h k => ?_, fun h => (KeysState.parts kinds).compose hinit h⟩, ?_⟩
  · obtain ⟨s, hs⟩ := h
    obtain ⟨t, ht, -⟩ := (KeysState.parts kinds).project (hinit k) hs
    exact ⟨t, ht⟩
  · intro k s t hs ht
    obtain ⟨t', ht', hsame⟩ := (KeysState.parts kinds).project (hinit k) hs
    obtain rfl := Option.some.inj (ht.symm.trans ht')
    exact ⟨hsame.calls, hsame.map.get, hsame.map.waiters⟩

/-- Two keys in one shard, of which the second is done while the first still works. -/
theorem keys_independent_two_keys :
    ∃ (s : KeysState ℕ ℕ ℕ (Fin 1)) (t : State ℕ ℕ ℕ (Fin 1)),
      Trace.run (KeysState.step fun _ _ => .getOrInsert) (KeysState.init 1 fun _ => 0)
        [(0, .start 0), (1, .start 0), (0, .wait 0 0), (1, .wait 0 0), (1, .init 0 true),
          (0, .init 0 true), (1, .poll 0 (.ready (.ok 7))), (1, .complete 0)] = some s ∧
      Trace.run (State.step (fun _ => .getOrInsert) 1) (State.init 1 fun _ => 0)
        [.start 0, .wait 0 0, .init 0 true, .poll 0 (.ready (.ok 7)), .complete 0] = some t ∧
      s.calls 1 = t.calls ∧ s.map.get 1 = t.map.get 1 ∧ s.map.waiters 1 = t.map.waiters 1 :=
  ⟨_, _, rfl, rfl, (keys_independent (fun _ _ => .getOrInsert) 1 (fun _ => 0)
    [(0, .start 0), (1, .start 0), (0, .wait 0 0), (1, .wait 0 0), (1, .init 0 true),
      (0, .init 0 true), (1, .poll 0 (.ready (.ok 7))), (1, .complete 0)]).2 1 _ _ rfl rfl⟩

end LightCache
