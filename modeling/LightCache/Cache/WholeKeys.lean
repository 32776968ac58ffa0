import LightCache.Cache.Whole
import LightCache.Policy.SectionKeys

/-!
# What one key sees of the whole cache

For the calls of one key, a policy does nothing but remove the key now and then: the sections of its
other operations, on whichever keys, drop it or leave it alone. So whatever runs in the cache, the
calls of a key are a run of `LightCache.Cache.Overlap`, whose direct removals are those and the
direct removals of the cache.

Main result: `key_run`.
-/

namespace LightCache

variable {P K V E ι τ : Type} [DecidableEq K] [DecidableEq ι]

/-! ## The steps of one key -/

namespace OverlapState

variable {kinds : ι → Kind} {key : K} {s s' t : OverlapState K V E ι} {a : Label V E ι}

omit [DecidableEq ι] in
theorem completes_congr (h : s.toState.Same key t.toState) : t.completes a = s.completes a := by
  unfold State.completes
  rw [h.calls]

omit [DecidableEq ι] in
theorem locks_congr (h : s.toState.Same key t.toState) : t.locks a = s.locks a := by
  unfold State.locks
  rw [h.calls]

theorem stepUnlocked_congr (h : s.toState.Same key t.toState) (hs : s.guard = none)
    (hfree : t.guard = none ∨ s.locks a = false) (hstep : s.stepUnlocked kinds key a = some s') :
    ∃ t', t.stepUnlocked kinds key a = some t' ∧ s'.toState.Same key t'.toState ∧
      t'.guard = s'.guard.or t.guard ∧ (s'.guard = none ∨ s'.toState = s.toState) := by
  have hgate : (t.guard.isSome && t.locks a) = false := by
    rw [locks_congr h]
    rcases hfree with hfree | hfree <;> simp [hfree]
  unfold stepUnlocked at hstep ⊢
  rw [hs, Option.isSome_none, Bool.false_and] at hstep
  rw [hgate, completes_congr h]
  -- The step is one of the system on both sides.
  have hsame (hstep : (s.toState.step kinds key a).map (fun u => ⟨u, none⟩) = some s') :
      ∃ t', (t.toState.step kinds key a).map (fun u => { t with toState := u }) = some t' ∧
        s'.toState.Same key t'.toState ∧ t'.guard = s'.guard.or t.guard ∧
        (s'.guard = none ∨ s'.toState = s.toState) := by
    obtain ⟨u, hu, rfl⟩ := Option.map_eq_some_iff.mp hstep
    obtain ⟨u', hu', hsame⟩ := h.step hu
    exact ⟨{ t with toState := u' }, by rw [hu']; rfl, hsame, rfl, Or.inl rfl⟩
  cases hg : s.completes a with
  | none =>
    rw [hg] at hstep
    exact hsame hstep
  | some g =>
    rw [hg] at hstep
    simp only [Bool.false_eq_true, if_false] at hstep ⊢
    rw [← pollWorking_congr h.map]
    cases hpoll : GetOrInsertFutureInner.pollWorking s.map key g.out with
    | got v =>
      rw [hpoll] at hstep
      exact hsame hstep
    | insert out =>
      rw [hpoll] at hstep
      obtain rfl := Option.some.inj hstep
      exact ⟨_, rfl, h, rfl, Or.inr rfl⟩

theorem exists_run_removeAll (kinds : ι → Kind) (key : K) (t : OverlapState K V E ι)
    (dead : List K) : ∃ bs t', (∀ b ∈ bs, b = .step .remove) ∧
      Trace.run (step kinds key) t bs = some t' ∧ t'.guard = t.guard ∧
      ∀ s : State K V E ι, s.Same key t.toState →
        State.Same key { s with map := s.map.removeAll dead } t'.toState := by
  by_cases hkey : key ∈ dead
  · refine ⟨[.step .remove], { t with toState := t.toState.remove key }, by simp, ?_, rfl, ?_⟩
    · rw [Trace.run_singleton, step, stepUnlocked]
      simp [State.locks, State.completes, State.step]
    · intro s h
      refine ⟨⟨?_, ?_⟩, h.calls, h.epoch⟩
      · show (s.map.removeAll dead).get key = (t.map.remove key).2.get key
        rw [LightMap.get_removeAll, if_pos hkey, LightMap.get_remove, if_pos rfl]
      · show (s.map.removeAll dead).waiters key = (t.map.remove key).2.waiters key
        rw [LightMap.waiters_removeAll, LightMap.waiters_remove, h.map.waiters]
  · refine ⟨[], t, by simp, rfl, rfl, fun s h => ⟨⟨?_, ?_⟩, h.calls, h.epoch⟩⟩
    · show (s.map.removeAll dead).get key = t.map.get key
      rw [LightMap.get_removeAll, if_neg hkey, h.map.get]
    · show (s.map.removeAll dead).waiters key = t.map.waiters key
      rw [LightMap.waiters_removeAll, h.map.waiters]

end OverlapState

namespace WholeState

variable {kinds : K → ι → Kind} {key k : K} {s s' : WholeState P K V E ι τ}
variable {t t' : OverlapState K V E ι} {u : State K V E ι} {i : ι} {h : Option (Insertion K V E ι)}
variable {ls : List (WholeLabel K V E ι τ)} {a : Label V E ι} {rd : Readings} {p : Prop}

/-! ## Who holds the waiters lock -/

omit [DecidableEq ι] in
theorem insertion_eq_some {x : Insertion K V E ι} (hx : s.insertion key = some x) :
    s.holder (s.map.index key) = some x ∧ x.key = key := by
  obtain ⟨hholder, hkey⟩ := Option.filter_eq_some_iff.mp hx
  exact ⟨hholder, of_decide_eq_true hkey⟩

omit [DecidableEq ι] in
theorem insertion_of_holder (hholder : s'.holder = s.holder)
    (hindex : s'.map.index key = s.map.index key) : s'.insertion key = s.insertion key := by
  rw [insertion, insertion, hholder, hindex]

omit [DecidableEq ι] in
theorem insertion_hold_self (hkey : ∀ x ∈ h, x.key = key) : (s.hold key h).insertion key = h := by
  show Option.filter _ (Function.update s.holder (s.map.index key) h (s.map.index key)) = h
  rw [Function.update_self]
  cases h with
  | none => rfl
  | some x => exact Option.filter_eq_some_iff.mpr ⟨rfl, decide_eq_true (hkey x rfl)⟩

omit [DecidableEq ι] in
theorem insertion_hold_of_ne (hk : k ≠ key) (hkey : ∀ x ∈ h, x.key = key)
    (hold : ∀ x ∈ s.holder (s.map.index key), x.key = key) :
    (s.hold key h).insertion k = s.insertion k := by
  show Option.filter _ (Function.update s.holder (s.map.index key) h (s.map.index k)) = _
  by_cases hindex : s.map.index k = s.map.index key
  · have hnone (o : Option (Insertion K V E ι)) (ho : ∀ x ∈ o, x.key = key) :
        o.filter (·.key = k) = none :=
      Option.filter_eq_none_iff.mpr fun x hx hxk =>
        hk ((of_decide_eq_true hxk).symm.trans (ho x hx))
    rw [hindex, Function.update_self, hnone h hkey, insertion, hindex, hnone _ hold]
  · rw [Function.update_of_ne hindex]
    rfl

/-! ## What is left of lookups and inserts -/

/-- What a lookup and what a completing poll still have to do is an operation on their key, unless
the insert of the poll panicked, which it does only if it may. -/
structure Tidy (mayPanic : Prop) (s : WholeState P K V E ι τ) : Prop where
  lookups : ∀ k i op, s.lookups k i = some op → op = .get k
  left : ∀ n x next, s.holder n = some x → x.next = some next → ∃ value, x.guard.out = .ok value ∧
    (next = .table (.insert x.key value) ∨ mayPanic ∧ next = .panicked)

omit [DecidableEq ι] in
theorem tidy_start (policy : P) (n : ℕ+) (hasher : K → UInt64) :
    (start policy n hasher : WholeState P K V E ι τ).Tidy p where
  lookups k i op hop := by cases hop
  left n x next hx := by cases hx

theorem Tidy.setLookup (h : s.Tidy p) {op : Option (TableOp K V)} (hop : ∀ o ∈ op, o = .get key) :
    (s.setLookup key i op).Tidy p where
  lookups k j o ho := by
    replace ho : Function.update s.lookups key (Function.update (s.lookups key) i op) k j =
      some o := ho
    by_cases hk : k = key
    · subst hk
      rw [Function.update_self] at ho
      by_cases hj : j = i
      · rw [hj, Function.update_self] at ho
        exact hop o ho
      · rw [Function.update_of_ne hj] at ho
        exact h.lookups k j o ho
    · rw [Function.update_of_ne hk] at ho
      exact h.lookups k j o ho
  left := h.left

omit [DecidableEq ι] in
theorem Tidy.hold (hs : s.Tidy p) (hleft : ∀ x ∈ h, ∀ next, x.next = some next →
    ∃ value, x.guard.out = .ok value ∧
      (next = .table (.insert x.key value) ∨ p ∧ next = .panicked)) :
    (s.hold key h).Tidy p where
  lookups := hs.lookups
  left n x next hx := by
    replace hx : Function.update s.holder (s.map.index key) h n = some x := hx
    by_cases hn : n = s.map.index key
    · rw [hn, Function.update_self] at hx
      exact hleft x hx next
    · rw [Function.update_of_ne hn] at hx
      exact hs.left n x next hx

theorem Tidy.step [DecidableEq τ] [Policy P K V] [Sectioned P K V] (h : s.Tidy p)
    {a : WholeLabel K V E ι τ} (hreturns : s.returns a = false → p)
    (hstep : s.step kinds a = some s') : s'.Tidy p := by
  cases a with
  | thread a =>
    obtain ⟨u, -, rfl⟩ := Option.map_eq_some_iff.mp hstep
    exact ⟨h.lookups, h.left⟩
  | lookup key i rd =>
    obtain ⟨-, -, dead, policy, -, -, ⟨-, rfl⟩ | ⟨-, rfl⟩⟩ := lookup_eq_some hstep
    · have hs : Tidy p { s with policy, map := s.map.removeAll dead } := ⟨h.lookups, h.left⟩
      exact hs.setLookup fun o ho => (Option.mem_some_iff.mp ho).symm
    · exact ⟨h.lookups, h.left⟩
  | look key i =>
    obtain ⟨-, op, -, rfl⟩ := look_eq_some hstep
    have hs : Tidy p (found kinds { s with map := (op.run s.map).2 } key i (op.run s.map).1) :=
      ⟨h.lookups, h.left⟩
    exact hs.setLookup fun o ho => by cases ho
  | call key a =>
    obtain ⟨-, ⟨u, -, -, rfl⟩ | ⟨guard, -, -, rfl⟩⟩ := call_eq_some hstep
    · exact ⟨h.lookups, h.left⟩
    · refine h.hold fun x hx next hnext => ?_
      obtain rfl := Option.mem_some_iff.mp hx
      cases hnext
  | track key rd =>
    obtain ⟨x, value, dead, policy, next, hx, hout, -, -, hnext, rfl⟩ := track_eq_some hstep
    obtain ⟨-, rfl⟩ := insertion_eq_some hx
    have hs : Tidy p { s with policy, map := s.map.removeAll dead } := ⟨h.lookups, h.left⟩
    refine hs.hold fun y hy next' hy' => ?_
    obtain rfl := Option.mem_some_iff.mp hy
    obtain rfl := Option.some.inj hy'
    exact ⟨value, hout, hnext.imp_right fun hpanic => ⟨hreturns hpanic.1, hpanic.2⟩⟩
  | insertOut key =>
    obtain ⟨x, completion, ws, c, -, -, rfl⟩ := insertOut_eq_some hstep
    exact Tidy.hold ⟨h.lookups, h.left⟩ fun x hx => by cases hx

omit [DecidableEq ι] in
theorem finish_eq {c c' : LightCacheInner P K V} {guard : Guard V E ι} {next : Option (Next K V)}
    {completion : Completion (Except E V)} {ws : List Waker}
    (hleft : ∀ n, next = some n →
      ∃ value, guard.out = .ok value ∧ n = .table (.insert key value))
    (hfinish : Insertion.finish c ⟨key, guard, next⟩ = some (completion, ws, c')) :
    (completion, ws, c'.map) = GetOrTryInsertFuture.complete c.map key (.insert guard.out) ∧
      c'.policy = c.policy := by
  obtain ⟨j, armed, out⟩ := guard
  cases out with
  | error err =>
    cases hfinish
    exact ⟨rfl, rfl⟩
  | ok value =>
    cases next with
    | none => cases hfinish
    | some n =>
      obtain ⟨value', hvalue, rfl⟩ := hleft n rfl
      cases hvalue
      simp only [Insertion.finish, LightCacheInner.endInsert, LightCacheInner.finish,
        TableOp.run] at hfinish
      simp only [GetOrTryInsertFuture.complete, insertValue]
      generalize (c.map.insert key value).2.removeWaiters key = r at hfinish ⊢
      obtain ⟨_ | wakers, map⟩ := r <;> cases hfinish <;> exact ⟨rfl, rfl⟩

/-! ## What the calls of a key see -/

/-- What a step of one key comes from in a run of the whole cache. -/
def Comes (ls : List (WholeLabel K V E ι τ)) (key : K) : OverlapLabel V E ι → Prop
  | .step (.insert value) => ∃ j rd, .thread (.lock j rd (.insert key value)) ∈ ls
  | .step .remove | .step (.start _) | .insertOut => True
  | .step a => .call key a ∈ ls

/-- `t` is what the calls of `key` see of `s`, in a run `ls`. -/
structure Sees (ls : List (WholeLabel K V E ι τ)) (key : K) (s : WholeState P K V E ι τ)
    (t : OverlapState K V E ι) : Prop where
  same : (s.ofKey key).Same key t.toState
  guard : (s.insertion key).map Insertion.guard = t.guard
  pending : ∀ j value, s.pending j = some (.insert key value) →
    ∃ j rd, .thread (.lock j rd (.insert key value)) ∈ ls

/-- The calls of `key` can take steps after which they see `s`. -/
def Follows (kinds : K → ι → Kind) (ls : List (WholeLabel K V E ι τ)) (key : K)
    (t : OverlapState K V E ι) (s : WholeState P K V E ι τ) : Prop :=
  ∃ bs t', (∀ b ∈ bs, Comes ls key b) ∧
    Trace.run (OverlapState.step (kinds key) key) t bs = some t' ∧ Sees ls key s t'

theorem Follows.refl (kinds : K → ι → Kind) (h : Sees ls key s t) : Follows kinds ls key t s :=
  ⟨[], t, fun _ hb => absurd hb List.not_mem_nil, rfl, h⟩

theorem Follows.trans (h : Follows kinds ls key t s)
    (h' : ∀ t, Sees ls key s t → Follows kinds ls key t s') : Follows kinds ls key t s' := by
  obtain ⟨bs, t₁, hbs, hrun, hsees⟩ := h
  obtain ⟨bs', t', hbs', hrun', hsees'⟩ := h' t₁ hsees
  refine ⟨bs ++ bs', t', fun b hb => ?_, ?_, hsees'⟩
  · exact (List.mem_append.mp hb).elim (hbs b) (hbs' b)
  · rw [Trace.run_append, hrun]
    exact hrun'

omit [DecidableEq ι] in
theorem Sees.frame (h : Sees ls key s t) (hmap : s'.map.Same key s.map)
    (hcalls : s'.calls key = s.calls key) (hepoch : s'.epoch key = s.epoch key)
    (hinsertion : s'.insertion key = s.insertion key)
    (hpending : ∀ j value, s'.pending j = some (.insert key value) →
      s.pending j = some (.insert key value)) : Sees ls key s' t where
  same := ⟨hmap.trans h.same.map, hcalls.trans h.same.calls, hepoch.trans h.same.epoch⟩
  guard := hinsertion ▸ h.guard
  pending j value hj := h.pending j value (hpending j value hj)

theorem Sees.drop (h : Sees ls key s t) (kinds : K → ι → Kind) (dead : List K) (policy : P) :
    Follows kinds ls key t { s with policy, map := s.map.removeAll dead } := by
  obtain ⟨bs, t', hbs, hrun, hguard, hsame⟩ :=
    OverlapState.exists_run_removeAll (kinds key) key t dead
  refine ⟨bs, t', fun b hb => hbs b hb ▸ trivial, hrun, hsame _ h.same, ?_, h.pending⟩
  rw [hguard, ← h.guard]
  exact congrArg _ (insertion_of_holder rfl (LightMap.index_removeAll ..))

theorem Sees.stepUnlocked (h : Sees ls key s t)
    (hfree : s.holder (s.map.index key) = none ∨ (s.ofKey key).locks a = false)
    (hstep : OverlapState.stepUnlocked (kinds key) key ⟨s.ofKey key, none⟩ a = some t') :
    ∃ t₁, OverlapState.step (kinds key) key t (.step a) = some t₁ ∧
      t'.toState.Same key t₁.toState ∧ t₁.guard = t'.guard.or t.guard := by
  have hguard : t.guard = none ∨ (s.ofKey key).locks a = false := by
    rcases hfree with hfree | hfree
    · left
      rw [← h.guard, insertion, hfree]
      rfl
    · exact Or.inr hfree
  obtain ⟨t₁, ht₁, hsame, hguard, -⟩ :=
    OverlapState.stepUnlocked_congr (s := ⟨s.ofKey key, none⟩) h.same rfl hguard hstep
  exact ⟨t₁, ht₁, hsame, hguard⟩

theorem Sees.own (h : Sees ls key s t) (hcomes : Comes ls key (.step a))
    (hfree : s.holder (s.map.index key) = none ∨ (s.ofKey key).locks a = false)
    (hstep : OverlapState.stepUnlocked (kinds key) key ⟨s.ofKey key, none⟩ a = some ⟨u, none⟩)
    (hmap : s'.map = u.map) (hcalls : s'.calls key = u.calls) (hepoch : s'.epoch key = u.epoch)
    (hinsertion : s'.insertion key = s.insertion key)
    (hpending : ∀ j value, s'.pending j = some (.insert key value) →
      s.pending j = some (.insert key value)) : Follows kinds ls key t s' := by
  obtain ⟨t₁, ht₁, hsame, hguard⟩ := h.stepUnlocked hfree hstep
  refine ⟨[.step a], t₁, fun b hb => ?_, Trace.run_singleton.trans ht₁, ?_, ?_, ?_⟩
  · exact List.mem_singleton.mp hb ▸ hcomes
  · refine ⟨?_, hcalls.trans hsame.calls, hepoch.trans hsame.epoch⟩
    show s'.map.Same key t₁.map
    rw [hmap]
    exact hsame.map
  · rw [hinsertion, h.guard, hguard]
    rfl
  · exact fun j value hj => h.pending j value (hpending j value hj)

/-! ## Each step -/

omit [DecidableEq ι] in
theorem frame_run (op : TableOp K V) (m : LightMap K V) : LightMap.Frame op.key (op.run m).2 m := by
  cases op with
  | get k => exact .refl k m
  | insert k value => exact m.frame_insert k value
  | remove k => exact m.frame_remove k

theorem Sees.thread [DecidableEq τ] [Policy P K V] [Sectioned P K V] (h : Sees ls key s t)
    {a : ThreadStep K V τ} (ha : .thread a ∈ ls) {u : Threads P K V τ}
    (hstep : s.toThreads.step a = some u) :
    Follows kinds ls key t { s with toThreads := u } := by
  cases a with
  | lock j rd op =>
    have hj := Threads.pending_of_lock hstep
    simp only [Threads.step, Threads.lock, hj] at hstep
    split at hstep
    · next next policy map _ hlocked =>
      -- The section removes the keys that it drops, and leaves its table operation for later.
      obtain ⟨dead, ending, rfl, rfl, hends⟩ := Sectioned.locked_cases hlocked
      obtain rfl := Option.some.inj hstep
      refine (h.drop kinds dead policy).trans fun t h => .refl kinds ⟨h.same, h.guard, ?_⟩
      intro j' value hj'
      replace hj' : Function.update s.pending j (ending.toNext _).tableOp j' =
        some (.insert key value) := hj'
      by_cases hjj : j' = j
      · rw [hjj, Function.update_self] at hj'
        cases hends with
        | insert => cases hj'; exact ⟨j, rd, ha⟩
        | _ => cases hj'
      · rw [Function.update_of_ne hjj] at hj'
        exact h.pending j' value hj'
    · cases hstep
  | table j =>
    obtain ⟨op, hop, -, hmap, hpending⟩ := Threads.table_eq_some hstep
    have hframe : LightMap.Frame op.key u.map s.map := hmap ▸ frame_run op s.map
    have hinsertion : WholeState.insertion { s with toThreads := u } key = s.insertion key :=
      insertion_of_holder rfl (hframe.index key)
    have hless (j' : τ) (value : V) (hj' : u.pending j' = some (.insert key value)) :
        s.pending j' = some (.insert key value) := by
      rw [hpending] at hj'
      by_cases hjj : j' = j
      · rw [hjj, Function.update_self] at hj'
        cases hj'
      · rwa [Function.update_of_ne hjj] at hj'
    -- A direct operation of the key is one of its own run, any other leaves it alone.
    by_cases hkey : key = op.key
    · cases op with
      | get k =>
        refine .refl kinds (h.frame ?_ rfl rfl hinsertion hless)
        rw [show u.map = s.map from hmap]
        exact .refl key s.map
      | insert k value =>
        obtain rfl : key = k := hkey
        exact h.own (a := .insert value) (u := (s.ofKey key).insert key value)
          (h.pending j value hop) (Or.inr rfl) rfl hmap rfl rfl hinsertion hless
      | remove k =>
        obtain rfl : key = k := hkey
        exact h.own (a := .remove) (u := (s.ofKey key).remove key) trivial (Or.inr rfl) rfl hmap rfl
          rfl hinsertion hless
    · exact .refl kinds (h.frame (hframe.same key hkey) rfl rfl hinsertion hless)

omit [DecidableEq ι] in
theorem Sees.put_of_ne (h : Sees ls key s t) (hk : key ≠ k)
    (hframe : LightMap.Frame k u.map s.map) : Sees ls key (s.put k u) t :=
  h.frame (hframe.same key hk) (Function.update_of_ne hk ..) (Function.update_of_ne hk ..)
    (insertion_of_holder rfl (hframe.index key)) fun _ _ => id

/-- The end of a lookup is the first step of the call, taken alone. -/
theorem exists_start (kinds : K → ι → Kind) (hphase : (s.calls k i).phase = .unpolled) :
    ∃ u, OverlapState.stepUnlocked (kinds k) k ⟨s.ofKey k, none⟩ (.start i) = some ⟨u, none⟩ ∧
      s.found kinds k i (s.map.get k) = s.put k u := by
  refine ⟨_, ?_, rfl⟩
  have hphase' : ((s.ofKey k).calls i).phase = .unpolled := hphase
  cases hvalue : s.map.get k <;>
    simp [OverlapState.stepUnlocked, State.completes, State.step, State.start, hphase',
      show (s.ofKey k).map.get k = _ from hvalue] <;> rfl

theorem Sees.found (h : Sees ls key s t) (hphase : (s.calls k i).phase = .unpolled) :
    Follows kinds ls key t (s.found kinds k i (s.map.get k)) := by
  by_cases hk : key = k
  · subst hk
    obtain ⟨u, hu, hfound⟩ := exists_start kinds hphase
    have hmap : u.map = s.map := congrArg (fun s => s.map) hfound.symm
    rw [hfound]
    exact h.own (a := .start i) trivial (Or.inr rfl) hu rfl (Function.update_self ..)
      (Function.update_self ..) (insertion_of_holder rfl (congrArg (·.index key) hmap))
      fun _ _ => id
  · exact .refl kinds (h.put_of_ne hk (.refl k s.map))

theorem Sees.lookup [Policy P K V] [Sectioned P K V] (h : Sees ls key s t)
    (hstep : s.lookup kinds k i rd = some s') : Follows kinds ls key t s' := by
  obtain ⟨hphase, -, dead, policy, -, -, ⟨-, rfl⟩ | ⟨-, rfl⟩⟩ := lookup_eq_some hstep
  · exact (h.drop kinds dead policy).trans fun t h => .refl kinds ⟨h.same, h.guard, h.pending⟩
  · exact (h.drop kinds dead policy).trans fun t h => h.found hphase

theorem Sees.look (h : Sees ls key s t) (hs : s.Tidy p) (hstep : s.look kinds k i = some s') :
    Follows kinds ls key t s' := by
  obtain ⟨hphase, op, hop, rfl⟩ := look_eq_some hstep
  obtain rfl := hs.lookups k i op hop
  exact (h.found hphase).trans fun t h => .refl kinds ⟨h.same, h.guard, h.pending⟩

omit [DecidableEq ι] in
theorem comes_of_blocked (hblocked : s.blocked key a = false) (ha : .call key a ∈ ls) :
    Comes ls key (.step a) := by
  cases a with
  | start | remove | insert => cases hblocked
  | _ => exact ha

theorem Sees.call (h : Sees ls key s t) (ha : .call k a ∈ ls) (hstep : s.call kinds k a = some s') :
    Follows kinds ls key t s' := by
  obtain ⟨hblocked, hcases⟩ := call_eq_some hstep
  have hfree := free_of_blocked hblocked
  rcases hcases with ⟨u, hu, hunlocked, rfl⟩ | ⟨guard, hcompletes, hunlocked, rfl⟩
  · have hframe := State.frame_step hu
    by_cases hk : key = k
    · subst hk
      exact h.own (comes_of_blocked hblocked ha) hfree hunlocked rfl (Function.update_self ..)
        (Function.update_self ..) (insertion_of_holder rfl (hframe.index key)) fun _ _ => id
    · exact .refl kinds (h.put_of_ne hk hframe)
  · -- The poll takes the lock and keeps it.
    have hnone := hfree.resolve_right (by simp [(OverlapState.locks_of_completes hcompletes).1])
    have hkey : ∀ x ∈ some (⟨k, guard, none⟩ : Insertion K V E ι), x.key = k := by simp
    by_cases hk : key = k
    · subst hk
      obtain ⟨t₁, ht₁, hsame, hguard⟩ := h.stepUnlocked hfree hunlocked
      refine ⟨[.step a], t₁, fun b hb => ?_, Trace.run_singleton.trans ht₁, hsame, ?_, h.pending⟩
      · exact List.mem_singleton.mp hb ▸ comes_of_blocked hblocked ha
      · rw [insertion_hold_self hkey, hguard]
        rfl
    · refine .refl kinds (h.frame (.refl key s.map) rfl rfl ?_ fun _ _ => id)
      exact insertion_hold_of_ne hk hkey fun x hx => by rw [hnone] at hx; cases hx

theorem Sees.track [Policy P K V] [Sectioned P K V] (h : Sees ls key s t)
    (hstep : s.track k rd = some s') (hreturns : s.returns (.track k rd) = true) :
    Follows kinds ls key t s' := by
  obtain ⟨x, value, dead, policy, next, hx, -, -, -, hnext, rfl⟩ := track_eq_some hstep
  obtain rfl := hnext.resolve_right fun hpanic => by cases hpanic.1.symm.trans hreturns
  refine (h.drop kinds dead policy).trans fun t h => .refl kinds ?_
  obtain ⟨hholder, hxk⟩ := insertion_eq_some hx
  have hindex := s.map.index_removeAll dead k
  have hkey : ∀ y ∈ some { x with next := some (.table (.insert k value)) }, y.key = k := by
    rintro y hy
    obtain rfl := Option.mem_some_iff.mp hy
    exact hxk
  by_cases hk : key = k
  · subst hk
    have hinsertion : WholeState.insertion { s with policy, map := s.map.removeAll dead } key =
        some x := by
      rw [← hx]
      exact insertion_of_holder rfl hindex
    refine ⟨h.same, ?_, h.pending⟩
    rw [insertion_hold_self hkey, ← h.guard, hinsertion]
    rfl
  · refine h.frame (.refl key _) rfl rfl (insertion_hold_of_ne hk hkey fun y hy => ?_) fun _ _ => id
    replace hy : s.holder ((s.map.removeAll dead).index k) = some y := hy
    rw [hindex, hholder] at hy
    exact Option.some.inj hy ▸ hxk

theorem Sees.insertOut (h : Sees ls key s t) (hs : s.Tidy False) (hstep : s.insertOut k = some s') :
    Follows kinds ls key t s' := by
  obtain ⟨⟨k', guard, next⟩, completion, ws, c, hx, hfinish, rfl⟩ := insertOut_eq_some hstep
  obtain ⟨hholder, hkk⟩ := insertion_eq_some hx
  obtain rfl : k' = k := hkk
  have hcomplete : (completion, ws, c.map) =
      GetOrTryInsertFuture.complete s.map k' (.insert guard.out) :=
    (finish_eq (fun n hn => by simpa using hs.left _ _ n hholder hn) hfinish).1
  have hframe := frame_complete s.map k' (.insert guard.out)
  rw [← hcomplete] at hframe
  by_cases hk : key = k'
  · subst hk
    -- The shard is that of the key: the step is one of its own run.
    have hguard : t.guard = some guard := by
      rw [← h.guard, hx]
      rfl
    have hcongr := complete_congr h.same.map (.insert guard.out)
    rw [show GetOrTryInsertFuture.complete (s.ofKey key).map key (.insert guard.out) = _ from
      hcomplete.symm] at hcongr
    generalize hr : GetOrTryInsertFuture.complete t.map key (.insert guard.out) = r at hcongr
    obtain ⟨completion', ws', map'⟩ := r
    obtain ⟨hcompletion, hws, hmap⟩ := hcongr
    obtain rfl : completion = completion' := hcompletion
    obtain rfl : ws = ws' := hws
    let call := { s.calls key guard.call with phase := .finished guard.armed completion }
    have hsame : State.Same key ((s.ofKey key).write key guard.call call c.map ws)
        (t.write key guard.call call map' ws) := h.same.write hmap
    refine ⟨[.insertOut], ⟨t.write key guard.call call map' ws, none⟩,
      fun b hb => List.mem_singleton.mp hb ▸ trivial, Trace.run_singleton.trans ?_,
      ⟨hsame.map, ?_, ?_⟩, ?_, h.pending⟩
    · rw [OverlapState.step, OverlapState.insertOut, hguard]
      dsimp only
      rw [hr, ← show s.calls key = t.calls from h.same.calls]
    · exact (Function.update_self ..).trans hsame.calls
    · exact (Function.update_self ..).trans hsame.epoch
    · rw [insertion_hold_self fun x hx => by cases hx]
      rfl
  · refine .refl kinds (h.frame (hframe.same key hk) (Function.update_of_ne hk ..)
      (Function.update_of_ne hk ..) ?_ fun _ _ => id)
    rw [insertion_hold_of_ne hk (fun x hx => by cases hx) fun x hx => ?_]
    · exact insertion_of_holder rfl (hframe.index key)
    · replace hx : s.holder (c.map.index k') = some x := hx
      rw [hframe.index, hholder] at hx
      exact Option.some.inj hx ▸ rfl

/-- A step of the whole cache, for one key. -/
theorem Sees.step [DecidableEq τ] [Policy P K V] [Sectioned P K V] (h : Sees ls key s t)
    (hs : s.Tidy False) {a : WholeLabel K V E ι τ} (ha : a ∈ ls) (hreturns : s.returns a = true)
    (hstep : s.step kinds a = some s') : Follows kinds ls key t s' := by
  cases a with
  | thread a =>
    obtain ⟨u, hu, rfl⟩ := Option.map_eq_some_iff.mp hstep
    exact h.thread ha hu
  | lookup k i rd => exact h.lookup hstep
  | look k i => exact h.look hs hstep
  | call k a => exact h.call ha hstep
  | track k rd => exact h.track hstep hreturns
  | insertOut k => exact h.insertOut hs hstep

/-- In any run in which no insert of a call panics, the calls of a key see a run of their own. -/
theorem exists_sees [DecidableEq τ] [Policy P K V] [Sectioned P K V] (policy : P) (n : ℕ+)
    (hasher : K → UInt64)
    (hrun : Trace.run (step kinds) (start policy n hasher) ls = some s)
    (hreturns : Trace.Each (step kinds) (fun s a => s.returns a = true) (start policy n hasher) ls)
    (key : K) : ∃ bs t, (∀ b ∈ bs, Comes ls key b) ∧
      Trace.run (OverlapState.step (kinds key) key) (OverlapState.init n hasher) bs = some t ∧
      Sees ls key s t := by
  have hsees : Sees ls key (start policy n hasher) (OverlapState.init n hasher) :=
    ⟨⟨.refl key _, rfl, rfl⟩, rfl, fun j value hj => by cases hj⟩
  have hall : Trace.Each (step kinds) (fun _ a => a ∈ ls) (start policy n hasher) ls :=
    Trace.each_of_forall fun a ha => ha
  obtain ⟨bs, t, hbs, hrun', -, h⟩ := Trace.simulate
    (R := fun s t => s.Tidy False ∧ Sees ls key s t) (B := Comes ls key)
    (fun s t a s' ⟨htidy, hsees⟩ hok hstep => by
      obtain ⟨bs, t', hbs, hrun, hsees'⟩ := hsees.step htidy hok.1 hok.2 hstep
      exact ⟨bs, t', hbs, hrun, htidy.step (by simp [hok.2]) hstep, hsees'⟩)
    ⟨tidy_start policy n hasher, hsees⟩ (hall.and hreturns) hrun
  exact ⟨bs, t, hbs, hrun', h⟩

end WholeState

/-- A pruning drops the key between the section of a completing poll's insert and its end. -/
def WholeState.prunedRun : List (WholeLabel ℕ ℕ ℕ Bool Unit) :=
  [.lookup 0 false (.single 0 0), .call 0 (.wait false 0), .call 0 (.init false true),
    .call 0 (.poll false (.ready (.ok 7))), .call 0 (.complete false), .track 0 (.single 0 0),
    .thread (.lock () (.single 10 10) .prune), .lookup 0 true (.single 10 10), .insertOut 0]

end LightCache
