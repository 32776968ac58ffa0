import LightCache.Policy.TtlOrder
import LightCache.Refresh.System

/-!
# Prune passes round by round

In `LightCache.Refresh.System` a section under the policy lock is one step. In the code its prune
pass takes the keys out of the table one by one, each under the lock of its shard only, and a poll
of a waiting call, which takes no policy lock, may read the table in between. Here each round of the
loop is a step of its own, and so is what follows the loop. Within a round nobody sees that a key is
gone from the arena but not yet from the table, since the arena is behind the policy lock.

Main result: `exists_pass_run`: without interference this is the system of
`LightCache.Refresh.System`.
-/

namespace LightCache

namespace TtlPolicyInner

variable {K V : Type} [DecidableEq K]

/-- A round of the loop of `prune` at the reading `t`. It gives `none` when the loop ends. -/
def round (t : Instant) (s : TtlPolicyInner K) (map : LightMap K V) :
    Except Fault (Option (TtlPolicyInner K × LightMap K V)) := do
  match ← s.arena.tailNode with
  | some (idx, tail) =>
    if tail.shouldEvict t s.ttl then do
      let (_, n, arena) ← s.arena.remove idx
      return some ({ s with arena }, (map.remove n.key).2)
    else return none
  | none => return none

variable {s : TtlPolicyInner K} {map : LightMap K V} {ts : List (K × Instant)}

/-- A round drops the last stamp if it is too old at the reading. Otherwise the loop ends, and no
key is too old if the tail is known. -/
theorem round_ok (h : Stamped s.arena ts) (t : Instant) (map : LightMap K V) :
    (∃ ts' e arena, ts = ts' ++ [e] ∧ s.ttl < Instant.durationSince t e.2 ∧
        s.round t map = .ok (some ({ s with arena }, (map.remove e.1).2)) ∧
        Stamped arena ts' ∧ arena.TailKnown) ∨
      s.round t map = .ok none ∧ (s.arena.TailKnown → ∀ e, ts.getLast? = some e →
        Instant.durationSince t e.2 ≤ s.ttl) := by
  unfold round
  cases ht : s.arena.tail with
  | none =>
    refine Or.inr ⟨by rw [LinkedArena.tailNode_none ht]; rfl, fun hk e he => ?_⟩
    have hlen := h.lists.len_eq
    rw [LinkedArena.len, hk ht, List.length_map] at hlen
    rw [List.eq_nil_of_length_eq_zero hlen.symm] at he
    cases he
  | some i =>
    obtain ⟨ts', n, m, arena, hnode, rfl, hok, hkey, hstamped, htail⟩ := h.remove_tail_ok ht
    by_cases hold : n.shouldEvict t s.ttl = true
    · left
      refine ⟨ts', stamp n, arena, rfl, of_decide_eq_true hold, ?_, hstamped,
        htail⟩
      simp only [hnode, bind, Except.bind, hold, if_true, hok, hkey]
      rfl
    · right
      refine ⟨by simp only [hnode, bind, Except.bind, hold, Bool.false_eq_true, if_false]; rfl,
        fun _ e he => ?_⟩
      rw [List.getLast?_append_cons, List.getLast?_singleton, Option.some.injEq] at he
      subst he
      rw [TtlNode.shouldEvict, decide_eq_true_eq] at hold
      exact Nat.le_of_not_lt hold

theorem pruneLoop_succ (tick : ℕ → Instant) (s : TtlPolicyInner K) (fuel i : ℕ)
    (map : LightMap K V) :
    pruneLoop tick s.ttl (fuel + 1) i s.arena map = (s.round (tick i) map).bind fun r =>
      r.elim (.ok (s.arena, map)) fun r => pruneLoop tick s.ttl fuel (i + 1) r.1.arena r.2 := by
  rw [pruneLoop, round]
  cases hnode : s.arena.tailNode with
  | error e => rfl
  | ok node =>
    cases node with
    | none => rfl
    | some r =>
      obtain ⟨idx, tail⟩ := r
      by_cases hold : tail.shouldEvict (tick i) s.ttl = true
      · simp only [bind, Except.bind, hold, if_true]
        cases s.arena.remove idx <;> rfl
      · simp only [bind, Except.bind, hold, Bool.false_eq_true, if_false]
        rfl

end TtlPolicyInner

namespace Refresh

open TtlPolicyInner

/-- The call that holds the policy lock, and whether its prune pass has ended. -/
structure Pass (ι : Type) where
  call : ι
  ended : Bool
  deriving DecidableEq

/-- The system, and the call that holds the policy lock. -/
structure PassState (K V E ι : Type) [DecidableEq K] extends State K V E ι where
  pass : Option (Pass ι)

/-- The steps. -/
inductive PassLabel (V E ι : Type)
  /-- A step that takes no policy lock. -/
  | step (a : Label V E ι)
  /-- The call takes the policy lock, for its lookup or its insert. -/
  | acquire (i : ι)
  /-- A round of the prune pass, at the reading `t`. -/
  | round (t : Instant)
  /-- The rest of the section, which an insert stamps at the reading `now`. -/
  | release (now : Instant)

/-- The step is a whole section under the policy lock. -/
def Label.locked {V E ι : Type} : Label V E ι → Bool
  | .start _ _ | .track _ _ => true
  | _ => false

variable {K V E ι : Type} [DecidableEq K] [DecidableEq ι]

namespace PassState

/-- No call was polled, and nothing is stored. -/
def init (ttl : Duration) (n : ℕ+) (hasher : K → UInt64) : PassState K V E ι where
  toState := .init ttl n hasher
  pass := none

variable (keys : ι → K)

/-- A step that takes no policy lock, of a call that does not hold it. -/
def other (s : PassState K V E ι) (a : Label V E ι) : Option (PassState K V E ι) :=
  if a.locked || s.pass.any (·.call = a.call) then none
  else (s.toState.step keys a).map fun t => { s with toState := t }

/-- A call takes the policy lock. -/
def acquire (s : PassState K V E ι) (i : ι) : Option (PassState K V E ι) :=
  match s.pass, s.phase i with
  | none, .unpolled | none, .inserting _ => some { s with pass := some ⟨i, false⟩ }
  | _, _ => none

/-- A round of the prune pass. -/
def round (s : PassState K V E ι) (t : Instant) : Option (PassState K V E ι) :=
  match s.pass with
  | some ⟨i, false⟩ =>
    match s.cache.policy.round t s.cache.map with
    | .ok (some (policy, map)) => some { s with cache := { policy, map } }
    | .ok none => some { s with pass := some ⟨i, true⟩ }
    | .error _ => none
  | _ => none

/-- What follows the prune pass, up to the release of the policy lock. -/
def release (s : PassState K V E ι) (now : Instant) : Option (PassState K V E ι) :=
  match s.pass with
  | some ⟨i, true⟩ =>
    match s.phase i with
    | .unpolled =>
      match s.cache.map.get (keys i) with
      | some value =>
        some ⟨s.put i (.finished false (.returned (.ok value))) s.cache, none⟩
      | none => some ⟨s.put i (.waiting false) s.cache, none⟩
    | .inserting value =>
      match track s.cache.policy.arena now (keys i) with
      | .ok arena => some ⟨s.put i (.tracked value (.table (.insert (keys i) value)))
          { s.cache with policy := { s.cache.policy with arena } }, none⟩
      | .error _ => none
    | _ => none
  | _ => none

/-- One step. -/
def step (s : PassState K V E ι) : PassLabel V E ι → Option (PassState K V E ι)
  | .step a => s.other keys a
  | .acquire i => s.acquire i
  | .round t => s.round t
  | .release now => s.release keys now

end PassState

/-! ## Without interference -/

section Alone

variable (keys : ι → K) {s s' : State K V E ι} {x : PassState K V E ι} {i : ι} {a : Label V E ι}
variable {ts : List (K × Instant)} {rd : Readings} {arena : LinkedArena K (TtlNode K)}
variable {map : LightMap K V} {tick : ℕ → Instant}

theorem round_ended (hpass : x.pass = some ⟨i, false⟩) {t : Instant}
    (hround : x.cache.policy.round t x.cache.map = .ok none) :
    Trace.run (PassState.step keys) x [.round t] = some { x with pass := some ⟨i, true⟩ } := by
  rw [Trace.run_singleton, PassState.step, PassState.round, hpass]
  simp only [hround]

/-- The loop of `prune` is a run of rounds. -/
theorem exists_rounds (h : Stamped x.cache.policy.arena ts) {fuel : ℕ} (hlen : ts.length ≤ fuel)
    (hpass : x.pass = some ⟨i, false⟩) {r : ℕ}
    (hloop : pruneLoop tick x.cache.policy.ttl fuel r x.cache.policy.arena x.cache.map =
      .ok (arena, map)) :
    ∃ as, Trace.run (PassState.step keys) x as = some { x with
      cache := ⟨{ x.cache.policy with arena }, map⟩, pass := some ⟨i, true⟩ } := by
  induction fuel generalizing x ts r with
  | zero =>
    rcases round_ok h (tick r) x.cache.map with ⟨ts', e, arena, rfl, -⟩ | ⟨hround, -⟩
    · simp at hlen
    · cases hloop
      exact ⟨_, round_ended keys hpass hround⟩
  | succ fuel ih =>
    rw [pruneLoop_succ] at hloop
    rcases round_ok h (tick r) x.cache.map with ⟨ts', e, arena', rfl, -, hround, hstamped, -⟩ |
      ⟨hround, -⟩
    · rw [hround] at hloop
      have hlen' : ts'.length ≤ fuel := by simpa using hlen
      obtain ⟨as, has⟩ := ih (x := { x with
        cache := ⟨{ x.cache.policy with arena := arena' }, (x.cache.map.remove e.1).2⟩ })
        hstamped hlen' hpass hloop
      refine ⟨.round (tick r) :: as, Trace.run_cons_eq_some.mpr ⟨_, ?_, has⟩⟩
      simp only [PassState.step, PassState.round, hpass, hround]
    · rw [hround] at hloop
      cases hloop
      exact ⟨_, round_ended keys hpass hround⟩

/-- A prune pass of a call that holds the policy lock. -/
theorem exists_pass (h : Stamped s.cache.policy.arena ts) {policy : TtlPolicyInner K}
    (hprune : s.cache.policy.prune tick s.cache.map = .ok (policy, map))
    (hlock : s.phase i = .unpolled ∨ ∃ value, s.phase i = .inserting value) :
    ∃ as, Trace.run (PassState.step keys) ⟨s, none⟩ as =
      some ⟨{ s with cache := ⟨policy, map⟩ }, some ⟨i, true⟩⟩ := by
  have hacquire : PassState.step keys ⟨s, none⟩ (.acquire i) = some ⟨s, some ⟨i, false⟩⟩ := by
    rcases hlock with hi | ⟨value, hi⟩ <;> simp [PassState.step, PassState.acquire, hi]
  have hlen : ts.length ≤ s.cache.policy.arena.len := by
    rw [h.lists.len_eq, List.length_map]
  rw [prune] at hprune
  cases hloop : pruneLoop tick s.cache.policy.ttl s.cache.policy.arena.len 0 s.cache.policy.arena
      s.cache.map with
  | error e =>
    rw [hloop] at hprune
    cases hprune
  | ok r =>
    rw [hloop] at hprune
    cases hprune
    obtain ⟨as, has⟩ := exists_rounds keys (x := ⟨s, some ⟨i, false⟩⟩) h hlen rfl hloop
    exact ⟨.acquire i :: as, Trace.run_cons_eq_some.mpr ⟨_, hacquire, has⟩⟩

variable {keys}

theorem policy_of_step (hstep : s.step keys a = some s') (ha : a.locked = false) :
    s'.cache.policy = s.cache.policy := by
  cases a with
  | start | track => cases ha
  | write j =>
    rw [State.step, State.write] at hstep
    cases hphase : s.phase j with
    | tracked value next =>
      rw [hphase] at hstep
      obtain rfl := Option.some.inj hstep
      exact (LightCacheInner.endInsert_policy ..).trans (LightCacheInner.finish_policy ..)
    | _ => simp [hphase] at hstep
  | wait | init | poll | check | drop =>
    simp only [State.step, State.wait, State.callInit, State.pollFut, State.check, State.drop]
      at hstep
    repeat' split at hstep
    all_goals first | cases hstep; rfl | cases hstep

/-- A step of the system is a run of this one. -/
theorem exists_passes (h : ∃ ts, Stamped s.cache.policy.arena ts)
    (hstep : s.step keys a = some s') :
    (∃ as, Trace.run (PassState.step keys) ⟨s, none⟩ as = some ⟨s', none⟩) ∧
      ∃ ts, Stamped s'.cache.policy.arena ts := by
  obtain ⟨ts, hts⟩ := h
  have hother (ha : a.locked = false) :
      (∃ as, Trace.run (PassState.step keys) ⟨s, none⟩ as = some ⟨s', none⟩) ∧
        ∃ ts, Stamped s'.cache.policy.arena ts := by
    refine ⟨⟨[.step a], ?_⟩, ts, by rw [policy_of_step hstep ha]; exact hts⟩
    simp [Trace.run_singleton, PassState.step, PassState.other, ha, hstep]
  cases a with
  | start j rd =>
    obtain ⟨kept, cut, s₁, -, hok, hpruned⟩ := prune_ok hts rd.tick s.cache.map
    generalize s.cache.map.removeAll (cut.map Prod.fst).reverse = map at hok
    have hcall : s.cache.call rd (.get (keys j)) =
        .ok (.returned (map.get (keys j)), ⟨s₁, map⟩) := by
      simp only [LightCacheInner.call, Policy.locked, get_ok hok]
      rfl
    rw [State.step, State.start, hcall] at hstep
    cases hphase : s.phase j with
    | unpolled =>
      -- The pass, and then the read of the table under the policy lock.
      obtain ⟨as, has⟩ := exists_pass keys hts hok (Or.inl hphase)
      suffices hlast : PassState.step keys ⟨{ s with cache := ⟨s₁, map⟩ }, some ⟨j, true⟩⟩
          (.release rd.now) = some ⟨s', none⟩ ∧ s'.cache.policy = s₁ by
        refine ⟨⟨as ++ [.release rd.now], ?_⟩, kept, hlast.2 ▸ hpruned.stamped⟩
        rw [Trace.run_append, has, Option.bind_some, Trace.run_singleton, hlast.1]
      simp only [PassState.step, PassState.release, hphase] at hstep ⊢
      cases hget : map.get (keys j) <;>
      · simp only [hget] at hstep
        obtain rfl := Option.some.inj hstep
        exact ⟨rfl, rfl⟩
    | _ => simp [hphase] at hstep
  | track j rd =>
    obtain ⟨kept, cut, s₁, -, hok, hpruned⟩ := prune_ok hts rd.tick s.cache.map
    generalize s.cache.map.removeAll (cut.map Prod.fst).reverse = map at hok
    rw [State.step, State.track] at hstep
    cases hphase : s.phase j with
    | inserting value =>
      obtain ⟨arena, htrack, hstamped, -⟩ := track_ok hpruned.stamped rd.now (keys j)
      have hins : Policy.locked rd (.insert (keys j) value) s.cache.policy s.cache.map =
          .ok (.table (.insert (keys j) value), { s₁ with arena }, map) := by
        simp only [Policy.locked, TtlPolicyInner.insert, hok, bind, Except.bind, htrack]
        rfl
      simp only [hphase, hins] at hstep
      obtain rfl := Option.some.inj hstep
      -- The pass, and then the stamp of the insert.
      obtain ⟨as, has⟩ := exists_pass keys hts hok (Or.inr ⟨value, hphase⟩)
      refine ⟨⟨as ++ [.release rd.now], ?_⟩, _, hstamped⟩
      rw [Trace.run_append, has, Option.bind_some, Trace.run_singleton]
      simp only [PassState.step, PassState.release, hphase, htrack]
      rfl
    | _ => simp [hphase] at hstep
  | _ => exact hother rfl

end Alone

/-- **Without interference a section under the policy lock is one step**: every run of the system is
one of this system, where the lock is free at the end. -/
theorem exists_pass_run (keys : ι → K) (ttl : Duration) (n : ℕ+) (hasher : K → UInt64)
    {as : List (Label V E ι)} {s : State K V E ι}
    (hrun : Trace.run (State.step keys) (State.init ttl n hasher) as = some s) :
    ∃ bs, Trace.run (PassState.step keys) (PassState.init ttl n hasher) bs = some ⟨s, none⟩ := by
  have hstep (s : State K V E ι) (x : PassState K V E ι) (a : Label V E ι) (s' : State K V E ι)
      (h : (∃ ts, Stamped s.cache.policy.arena ts) ∧ x = ⟨s, none⟩) (_ : True)
      (hstep : s.step keys a = some s') :
      ∃ bs x', (∀ b ∈ bs, True) ∧ Trace.run (PassState.step keys) x bs = some x' ∧
        (∃ ts, Stamped s'.cache.policy.arena ts) ∧ x' = ⟨s', none⟩ := by
    obtain ⟨hts, rfl⟩ := h
    obtain ⟨⟨bs, hbs⟩, hts'⟩ := exists_passes hts hstep
    exact ⟨bs, _, fun _ _ => trivial, hbs, hts', rfl⟩
  obtain ⟨bs, x, -, hbs, -, rfl⟩ := Trace.simulate hstep ⟨⟨[], stamped_new⟩, rfl⟩
    (Trace.each_of_forall fun _ _ => trivial) hrun
  exact ⟨bs, hbs⟩

end Refresh

end LightCache
