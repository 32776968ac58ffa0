import LightCache.Lib.Trace
import LightCache.Refresh

/-!
# The calls of a refresh cache as a transition system

Any number of calls of `get`, each on a key of its own choice. One step is a section under the
policy lock, a section under the waiters lock of a shard, or one call of user code outside both. An
insert takes several steps, all under the waiters lock: the check of the table, the section under
the policy lock, and the write of the table. The lookups of other calls may come in between.

In the code a section under the policy lock drops the keys that are too old one by one, and polls of
waiting calls may read the table in between. `LightCache.Refresh.Passes` takes it apart.

Who is woken is not recorded, since a call may be polled at any time.

Main result: `get_run`: a call that runs alone is a run of the system.
-/

namespace LightCache

namespace Refresh

/-- Where a call is. -/
inductive Phase (K V E : Type)
  | unpolled
  /-- `Waiting`: the next poll takes the waiters lock. -/
  | waiting (joined : Bool)
  /-- `Waiting`: the slot is claimed and the lock released, the refresher is called next. -/
  | claimed (joined : Bool)
  | working
  /-- `Working`: the future gave `out`, the waiters lock is taken next. -/
  | ready (out : Except E V)
  /-- The waiters lock is held, the insert takes the policy lock next. -/
  | inserting (value : V)
  /-- The waiters lock is held, the policy lock was released, and `next` is left of the insert. -/
  | tracked (value : V) (next : Next K V)
  /-- The call has ended, and its destructor is to come; `armed` if that takes the lock. -/
  | finished (armed : Bool) (completion : Completion (Except E V))
  | dropped

/-- The phases between the check of the table and its write. -/
def Phase.Inserts {K V E : Type} : Phase K V E → Prop
  | .inserting _ | .tracked _ _ => True
  | _ => False

/-- The steps of the system. -/
inductive Label (V E ι : Type)
  /-- The first poll begins: the call looks its key up. -/
  | start (i : ι) (rd : Readings)
  /-- The section of the `Waiting` state, in a poll at `now` with the waker `w`. The code does not
  read the clock here. -/
  | wait (i : ι) (w : Waker) (now : Instant)
  /-- The refresher returns a future, or panics. -/
  | init (i : ι) (returns : Bool)
  /-- The call's own future is polled. -/
  | poll (i : ι) (r : FutPoll V E)
  /-- The section of the `Working` state, up to the insert if there is one. -/
  | check (i : ι)
  /-- The section of the insert under the policy lock. -/
  | track (i : ι) (rd : Readings)
  /-- The rest of the insert, up to the release of the waiters lock. -/
  | write (i : ι)
  | drop (i : ι)

/-- The call that takes the step. -/
def Label.call {V E ι : Type} : Label V E ι → ι
  | .start i _ | .wait i _ _ | .init i _ | .poll i _ => i
  | .check i | .track i _ | .write i | .drop i => i

/-- The cache, the calls, and the call that holds the waiters lock of a shard between two steps. -/
structure State (K V E ι : Type) [DecidableEq K] where
  cache : RefreshCache K V
  phase : ι → Phase K V E
  holder : ℕ → Option ι

variable {K V E ι : Type} [DecidableEq K] [DecidableEq ι]

namespace State

/-- No call was polled, and nothing is stored. -/
def init (ttl : Duration) (n : ℕ+) (hasher : K → UInt64) : State K V E ι where
  cache := RefreshCache.new ttl n hasher
  phase _ := .unpolled
  holder _ := none

/-- The state after call `i` came to `phase` and left `cache`. -/
def put (s : State K V E ι) (i : ι) (phase : Phase K V E) (cache : RefreshCache K V) :
    State K V E ι :=
  { s with cache, phase := Function.update s.phase i phase }

/-- The state after call `i` took the waiters lock of the shard of `key`, and kept it. -/
def lock (s : State K V E ι) (i : ι) (key : K) : State K V E ι :=
  { s with holder := Function.update s.holder (s.cache.map.index key) (some i) }

/-- The state after call `i` released the lock that it held. -/
def unlock (s : State K V E ι) (i : ι) : State K V E ι :=
  { s with holder n := if s.holder n = some i then none else s.holder n }

/-- The waiters lock of the shard of `key` is free. -/
def Free (s : State K V E ι) (key : K) : Prop := s.holder (s.cache.map.index key) = none

instance (s : State K V E ι) (key : K) : Decidable (s.Free key) :=
  inferInstanceAs (Decidable (_ = none))

variable (keys : ι → K)

/-- The lookup. -/
def start (s : State K V E ι) (i : ι) (rd : Readings) : Option (State K V E ι) :=
  match s.phase i, s.cache.call rd (.get (keys i)) with
  | .unpolled, .ok (.returned (some value), cache) =>
    some (s.put i (.finished false (.returned (.ok value))) cache)
  | .unpolled, .ok (.returned none, cache) => some (s.put i (.waiting false) cache)
  | .unpolled, .ok (.panicked, cache) => some (s.put i (.finished false .panicked) cache)
  | _, _ => none

/-- The section of the `Waiting` state. -/
def wait (s : State K V E ι) (i : ι) (w : Waker) : Option (State K V E ι) :=
  match s.phase i with
  | .waiting joined =>
    if s.Free (keys i) then
      match GetOrInsertFutureInner.pollWaiting s.cache.map (keys i) w joined with
      | (.got value, _, map) =>
        some (s.put i (.finished false (.returned (.ok value))) { s.cache with map })
      | (.pending, joined, map) => some (s.put i (.waiting joined) { s.cache with map })
      | (.claimed, joined, map) => some (s.put i (.claimed joined) { s.cache with map })
    else none
  | _ => none

/-- The call of the refresher. When it panics, the call is still `Waiting`. -/
def callInit (s : State K V E ι) (i : ι) (returns : Bool) : Option (State K V E ι) :=
  match s.phase i with
  | .claimed _ => some (s.put i (if returns then .working else .finished false .panicked) s.cache)
  | _ => none

/-- The poll of the call's own future. -/
def pollFut (s : State K V E ι) (i : ι) (r : FutPoll V E) : Option (State K V E ι) :=
  match s.phase i, r with
  | .working, .pending => some s
  | .working, .ready out => some (s.put i (.ready out) s.cache)
  | .working, .panicked => some (s.put i (.finished true .panicked) s.cache)
  | _, _ => none

/-- The section of the `Working` state. With a value to insert, it keeps the lock. -/
def check (s : State K V E ι) (i : ι) : Option (State K V E ι) :=
  match s.phase i with
  | .ready out =>
    if s.Free (keys i) then
      match GetOrInsertFutureInner.pollWorking s.cache.map (keys i) out with
      | .got value => some (s.put i (.finished true (.returned (.ok value))) s.cache)
      | .insert (.error err) => some (s.put i (.finished true (.returned (.error err))) s.cache)
      | .insert (.ok value) =>
        some ((s.put i (.inserting value) s.cache).lock i (keys i))
    else none
  | _ => none

/-- The section of the insert under the policy lock. -/
def track (s : State K V E ι) (i : ι) (rd : Readings) : Option (State K V E ι) :=
  match s.phase i with
  | .inserting value =>
    match Policy.locked rd (.insert (keys i) value) s.cache.policy s.cache.map with
    | .ok (next, policy, map) => some (s.put i (.tracked value next) { policy, map })
    | .error _ => none
  | _ => none

/-- The rest of the insert. -/
def write (s : State K V E ι) (i : ι) : Option (State K V E ι) :=
  match s.phase i with
  | .tracked value next =>
    let (completion, _, cache) :=
      LightCacheInner.endInsert (keys i) value (s.cache.finish next)
    some ((s.put i (.finished true (completion.map .ok)) cache).unlock i)
  | _ => none

/-- The destructor. -/
def drop (s : State K V E ι) (i : ι) : Option (State K V E ι) :=
  match s.phase i with
  | .unpolled | .waiting _ | .finished false _ => some (s.put i .dropped s.cache)
  | .working | .finished true _ =>
    if s.Free (keys i) then
      some (s.put i .dropped
        { s.cache with map := (GetOrInsertFutureInner.drop s.cache.map (keys i)).2 })
    else none
  | _ => none

/-- One step of the system. -/
def step (s : State K V E ι) : Label V E ι → Option (State K V E ι)
  | .start i rd => s.start keys i rd
  | .wait i w _ => s.wait keys i w
  | .init i returns => s.callInit i returns
  | .poll i r => s.pollFut i r
  | .check i => s.check keys i
  | .track i rd => s.track keys i rd
  | .write i => s.write keys i
  | .drop i => s.drop keys i

end State

/-! ## A call that runs alone -/

/-- The phase of a call whose future is in this state between two polls, or when it has ended. -/
def Phase.after : TryInsert → Option (Completion (Except E V)) → Phase K V E
  | .waiting joined, none => .waiting joined
  | .working, none => .working
  | .waiting _, some completion => .finished false completion
  | .working, some completion => .finished true completion

section Alone

variable {keys : ι → K} {s : State K V E ι} {i : ι} {rq : Request K V E} {x x' : Session K V}
variable {p : Waker × FutPoll V E} {ps : List (Waker × FutPoll V E)} {out : FutPoll V E}
variable {r : Option (Completion (Except E V))} {phase phase' : Phase K V E}
variable {c c' : RefreshCache K V}

@[simp] theorem put_put : (s.put i phase c).put i phase' c' = s.put i phase' c' := by
  simp [State.put]

@[simp] theorem phase_put : (s.put i phase c).phase i = phase := by simp [State.put]

theorem phase_put_of_ne {j : ι} (hj : j ≠ i) : (s.put i phase c).phase j = s.phase j :=
  Function.update_of_ne hj ..

@[simp] theorem cache_put : (s.put i phase c).cache = c := rfl

@[simp] theorem holder_put : (s.put i phase c).holder = s.holder := rfl

/-- The steps of call `i` alone take `s` to `s'`. -/
def Alone (keys : ι → K) (i : ι) (s s' : State K V E ι) : Prop :=
  ∃ labels, (∀ l ∈ labels, l.call = i) ∧ Trace.run (State.step keys) s labels = some s'

theorem Alone.refl (keys : ι → K) (i : ι) (s : State K V E ι) : Alone keys i s s :=
  ⟨[], by simp, rfl⟩

theorem Alone.step {s t u : State K V E ι} {l : Label V E ι} (hl : l.call = i)
    (hstep : s.step keys l = some t) (h : Alone keys i t u) : Alone keys i s u := by
  obtain ⟨labels, hlabels, hrun⟩ := h
  refine ⟨l :: labels, ?_, Trace.run_cons_eq_some.mpr ⟨t, hstep, hrun⟩⟩
  intro l' hl'
  rcases List.mem_cons.mp hl' with rfl | hl'
  · exact hl
  · exact hlabels l' hl'

theorem Alone.trans {s t u : State K V E ι} (h : Alone keys i s t) (h' : Alone keys i t u) :
    Alone keys i s u := by
  obtain ⟨labels, hlabels, hrun⟩ := h
  obtain ⟨labels', hlabels', hrun'⟩ := h'
  refine ⟨labels ++ labels', ?_, by rw [Trace.run_append, hrun]; exact hrun'⟩
  intro l hl
  exact (List.mem_append.mp hl).elim (hlabels l) (hlabels' l)

theorem unlock_lock {key : K} (hfree : ∀ n, s.holder n = none) :
    (((s.put i phase c).lock i key).put i phase' c').unlock i = s.put i phase' c' := by
  simp only [State.put, State.lock, State.unlock, Function.update_idem]
  congr 1
  funext n
  by_cases hn : n = c.map.index key
  · subst hn
    simp [hfree]
  · simp [Function.update_of_ne hn, hfree]

theorem alone_pollWorking (hkey : keys i = rq.key) (hfree : ∀ n, s.holder n = none)
    (hpoll : RefreshCache.pollWorking rq { x with future := .working } out = .ok (r, x')) :
    Alone keys i (s.put i .working x.cache) (s.put i (.after x'.future r) x'.cache) := by
  cases out with
  | pending =>
    obtain ⟨rfl, rfl⟩ := Prod.mk.inj (Except.ok.inj hpoll)
    exact .refl keys i _
  | panicked =>
    obtain ⟨rfl, rfl⟩ := Prod.mk.inj (Except.ok.inj hpoll)
    refine .step (l := .poll i .panicked) rfl ?_ (.refl keys i _)
    simp [State.step, State.pollFut, Phase.after]
  | ready out =>
    refine .step (t := s.put i (.ready out) x.cache) (l := .poll i (.ready out)) rfl ?_ ?_
    · simp [State.step, State.pollFut]
    rw [RefreshCache.pollWorking] at hpoll
    cases hworking : GetOrInsertFutureInner.pollWorking x.cache.map rq.key out with
    | got value =>
      simp only [hworking, LightCacheInner.completeTryInsert, bind, Except.bind] at hpoll
      obtain ⟨rfl, rfl⟩ := Prod.mk.inj (Except.ok.inj hpoll)
      refine .step (l := .check i) rfl ?_ (.refl keys i _)
      simp [State.step, State.check, State.Free, hfree, hkey, hworking, Phase.after]
    | insert out' =>
      cases out' with
      | error err =>
        simp only [hworking, LightCacheInner.completeTryInsert, bind, Except.bind] at hpoll
        obtain ⟨rfl, rfl⟩ := Prod.mk.inj (Except.ok.inj hpoll)
        refine .step (l := .check i) rfl ?_ (.refl keys i _)
        simp [State.step, State.check, State.Free, hfree, hkey, hworking, Phase.after]
      | ok v =>
        rcases hlocked : Policy.locked rq.insert (.insert rq.key v) x.cache.policy x.cache.map with
          fault | ⟨next, policy, map⟩
        · simp [hworking, LightCacheInner.completeTryInsert, LightCacheInner.insertValue,
            LightCacheInner.call, hlocked, bind, Except.bind] at hpoll
        simp only [hworking, LightCacheInner.completeTryInsert, LightCacheInner.insertValue,
          LightCacheInner.call, hlocked, bind, Except.bind, pure, Except.pure] at hpoll
        obtain ⟨rfl, rfl⟩ := Prod.mk.inj (Except.ok.inj hpoll)
        have hcheck : (s.put i (.ready out) x.cache).step keys (.check i) =
            some ((s.put i (.inserting v) x.cache).lock i rq.key) := by
          simp [State.step, State.check, State.Free, hfree, hkey, hworking]
        have htrack : ((s.put i (.inserting v) x.cache).lock i rq.key).step keys
            (.track i rq.insert) =
              some (((s.put i (.inserting v) x.cache).lock i rq.key).put i (.tracked v next)
                { policy, map }) := by
          simp [State.step, State.track, State.lock, hkey, hlocked]
        refine .step rfl hcheck (.step rfl htrack (.step (l := .write i) rfl ?_ (.refl keys i _)))
        simp [State.step, State.write, hkey, Phase.after, unlock_lock hfree]

theorem alone_poll (hkey : keys i = rq.key) (hfree : ∀ n, s.holder n = none)
    (hpoll : RefreshCache.poll rq x p = .ok (r, x')) :
    Alone keys i (s.put i (.after x.future none) x.cache)
      (s.put i (.after x'.future r) x'.cache) := by
  obtain ⟨c, future, invoked⟩ := x
  cases future with
  | working => exact alone_pollWorking (x := ⟨c, .working, invoked⟩) hkey hfree hpoll
  | waiting joined =>
    rw [RefreshCache.poll] at hpoll
    rcases hw : GetOrInsertFutureInner.pollWaiting c.map rq.key p.1 joined with
      ⟨waited, joined', map⟩
    simp only [hw] at hpoll
    cases waited with
    | got value =>
      obtain ⟨rfl, rfl⟩ := Prod.mk.inj (Except.ok.inj hpoll)
      refine .step (l := .wait i p.1 0) rfl ?_ (.refl keys i _)
      simp [State.step, State.wait, State.Free, hfree, hkey, hw, Phase.after]
    | pending =>
      obtain ⟨rfl, rfl⟩ := Prod.mk.inj (Except.ok.inj hpoll)
      refine .step (l := .wait i p.1 0) rfl ?_ (.refl keys i _)
      simp [State.step, State.wait, State.Free, hfree, hkey, hw, Phase.after]
    | claimed =>
      have hwait : (s.put i (.waiting joined) c).step keys (.wait i p.1 0) =
          some (s.put i (.claimed joined') ⟨c.policy, map⟩) := by
        simp [State.step, State.wait, State.Free, hfree, hkey, hw]
      refine .step rfl hwait ?_
      cases hreturns : rq.returns with
      | false =>
        simp only [hreturns] at hpoll
        obtain ⟨rfl, rfl⟩ := Prod.mk.inj (Except.ok.inj hpoll)
        refine .step (l := .init i false) rfl ?_ (.refl keys i _)
        simp [State.step, State.callInit, Phase.after]
      | true =>
        simp only [hreturns, if_true] at hpoll
        refine .step (t := s.put i .working ⟨c.policy, map⟩) (l := .init i true) rfl ?_
          (alone_pollWorking (x := ⟨⟨c.policy, map⟩, .working, invoked + 1⟩) hkey hfree hpoll)
        simp [State.step, State.callInit]

theorem alone_polls (hkey : keys i = rq.key) (hfree : ∀ n, s.holder n = none)
    (hpolls : RefreshCache.polls rq x ps = .ok (r, x')) :
    Alone keys i (s.put i (.after x.future none) x.cache)
      (s.put i (.after x'.future r) x'.cache) := by
  induction ps generalizing x with
  | nil =>
    obtain ⟨rfl, rfl⟩ := Prod.mk.inj (Except.ok.inj hpolls)
    exact .refl keys i _
  | cons p ps ih =>
    rw [RefreshCache.polls] at hpolls
    rcases hpoll : RefreshCache.poll rq x p with fault | ⟨_ | completion, x₁⟩
    · simp [hpoll, bind, Except.bind] at hpolls
    · simp only [hpoll, bind, Except.bind] at hpolls
      exact (alone_poll hkey hfree hpoll).trans (ih hpolls)
    · simp only [hpoll, bind, Except.bind] at hpolls
      obtain ⟨rfl, rfl⟩ := Prod.mk.inj (Except.ok.inj hpolls)
      exact alone_poll hkey hfree hpoll

theorem alone_drop (hkey : keys i = rq.key) (hfree : ∀ n, s.holder n = none) :
    Alone keys i (s.put i (.after x.future r) x.cache)
      (s.put i .dropped (RefreshCache.drop rq x)) := by
  refine .step (l := .drop i) rfl ?_ (.refl keys i _)
  obtain ⟨c, future, invoked⟩ := x
  cases future <;> cases r <;>
    simp [State.step, State.drop, State.Free, hfree, hkey, Phase.after, RefreshCache.drop]

/-- **A call that runs alone is a run of the system**, if nobody holds a lock. -/
theorem get_run (hkey : keys i = rq.key) (hfree : ∀ n, s.holder n = none)
    (hphase : s.phase i = .unpolled) {reply : Reply V E}
    (hget : RefreshCache.get s.cache rq = .ok (reply, c')) :
    Alone keys i s (s.put i .dropped c') := by
  rw [RefreshCache.get] at hget
  rcases hcall : s.cache.call rq.lookup (.get rq.key) with fault | ⟨⟨_ | value⟩ | _, c⟩
  · simp [hcall, bind, Except.bind] at hget
  · rcases hpolls : RefreshCache.polls rq { cache := c, future := .waiting false, invoked := 0 }
      (rq.first :: rq.more) with fault | ⟨r, x⟩
    · simp [hcall, hpolls, bind, Except.bind] at hget
    simp only [hcall, hpolls, bind, Except.bind] at hget
    obtain ⟨rfl, rfl⟩ := Prod.mk.inj (Except.ok.inj hget)
    refine .step (t := s.put i (.waiting false) c) (l := .start i rq.lookup) rfl ?_
      ((alone_polls hkey hfree hpolls).trans (alone_drop hkey hfree))
    simp [State.step, State.start, hphase, hkey, hcall]
  · simp only [hcall, bind, Except.bind] at hget
    obtain ⟨rfl, rfl⟩ := Prod.mk.inj (Except.ok.inj hget)
    refine .step (t := s.put i (.finished false (.returned (.ok value))) c)
      (l := .start i rq.lookup) rfl ?_ (.step (l := .drop i) rfl ?_ (.refl keys i _))
    · simp [State.step, State.start, hphase, hkey, hcall]
    · simp [State.step, State.drop]
  · simp only [hcall, bind, Except.bind] at hget
    obtain ⟨rfl, rfl⟩ := Prod.mk.inj (Except.ok.inj hget)
    refine .step (t := s.put i (.finished false .panicked) c)
      (l := .start i rq.lookup) rfl ?_ (.step (l := .drop i) rfl ?_ (.refl keys i _))
    · simp [State.step, State.start, hphase, hkey, hcall]
    · simp [State.step, State.drop]

end Alone

end Refresh

end LightCache
