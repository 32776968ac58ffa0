import LightCache.Cache.WholeKeys
import LightCache.Policy.ThreadsCapacity

/-!
# What the policy sees of the whole cache

For the policy and the table, a lookup of a call and the insert of a completing poll are operations
like any other: a section under the policy lock, and a table operation after it. So whatever runs in
the cache, the policy and the table are those of a run of `LightCache.Policy.Threads`, in which each
call has a thread for its lookup, and each shard one for the insert that its waiters lock is held
for. What is known of threads then holds of the whole cache.

Main results: `threads_run`, and from what it says of a step, `whole_in_step` and
`whole_lru_bounded`.
-/

namespace LightCache

variable {P K V E ι τ : Type} [DecidableEq K] [DecidableEq ι]

/-- Who works on the policy and on the table. -/
inductive Actor (K ι τ : Type)
  /-- A direct operation. -/
  | thread (j : τ)
  /-- The lookup of a call. -/
  | lookup (key : K) (i : ι)
  /-- The insert of the completing poll that holds the waiters lock of a shard. -/
  | insertion (shard : ℕ)
  deriving DecidableEq

namespace Threads

open LruPolicyInner

variable {α : Type} {s s' t : Threads P K V α} {a : ThreadStep K V α}

/-! ## Threads that see the same table -/

/-- The same policy and values, and the same left to do. -/
structure Agrees (s t : Threads P K V α) : Prop where
  policy : s.policy = t.policy
  get : s.map.get = t.map.get
  pending : s.pending = t.pending

theorem Agrees.symm (h : s.Agrees t) : t.Agrees s := ⟨h.policy.symm, h.get.symm, h.pending.symm⟩

theorem Agrees.trans {u : Threads P K V α} (h : s.Agrees t) (h' : t.Agrees u) : s.Agrees u :=
  ⟨h.policy.trans h'.policy, h.get.trans h'.get, h.pending.trans h'.pending⟩

theorem tableOp_toNext (ending : Ending K V) (m m' : LightMap K V) :
    (ending.toNext m).tableOp = (ending.toNext m').tableOp := by
  cases ending <;> rfl

theorem Agrees.step [DecidableEq α] [Policy P K V] [Sectioned P K V] (h : s.Agrees t)
    (hstep : s.step a = some s') : ∃ t', t.step a = some t' ∧ s'.Agrees t' := by
  cases a with
  | lock i rd op =>
    have hi : s.pending i = none := pending_of_lock hstep
    simp only [Threads.step, lock, hi, ← h.pending, Sectioned.locked_eq] at hstep ⊢
    rw [← h.policy]
    cases hsec : Sectioned.sectionOf rd op s.policy with
    | error e =>
      rw [hsec] at hstep
      cases hstep
    | ok sec =>
      rw [hsec] at hstep
      obtain rfl := Option.some.inj hstep
      refine ⟨_, rfl, rfl, ?_, ?_⟩
      · funext k
        show (s.map.removeAll sec.dead).get k = (t.map.removeAll sec.dead).get k
        rw [LightMap.get_removeAll, LightMap.get_removeAll, h.get]
      · exact congrArg (Function.update s.pending i) (tableOp_toNext sec.ending _ _)
  | table i =>
    obtain ⟨op, hop, hpolicy, hmap, hpending⟩ := table_eq_some hstep
    have htable : t.table i = some {
        toLightCacheInner := (t.finish (.table op)).2
        pending := Function.update t.pending i none } := by
      rw [table, ← h.pending, hop]
    refine ⟨_, htable, hpolicy.trans h.policy, ?_, ?_⟩
    · show s'.map.get = (op.run t.map).2.get
      rw [hmap, TableOp.get_run s.map op i, TableOp.get_run t.map op i, h.get]
    · rw [hpending, h.pending]

theorem Agrees.balanced [Policy P K V] [Tracking P K V] (h : s.Agrees t) (hs : s.Balanced) :
    t.Balanced := by
  obtain ⟨⟨policy, map⟩, pending⟩ := s
  obtain ⟨⟨policy', map'⟩, pending'⟩ := t
  obtain ⟨rfl, hget, rfl⟩ := h
  have hvalue (k : K) : map.get k = map'.get k := congrFun hget k
  refine ⟨hs.sound, fun k hk hnone => hs.missing k hk ?_, fun k hk hsome => hs.extra k hk ?_⟩
  · exact (hvalue k).symm ▸ hnone
  · exact (hvalue k).symm ▸ hsome

theorem Agrees.room {Q : Type} [PriorityQueue K Instantᵒᵈ Q] {capacity : ℕ}
    {s t : Threads (LruPolicyInner K Q) K V α} (h : s.Agrees t) (hs : s.Room capacity) :
    t.Room capacity where
  capacity_eq := h.policy ▸ hs.capacity_eq
  fits := by
    obtain ⟨ks, hfits⟩ := hs.fits
    rw [fits_iff, h.policy] at hfits
    exact ⟨ks, fits_iff.mpr hfits⟩
  balanced := h.balanced hs.balanced

section Settles

variable [Policy P K V] [Tracking P K V]

/-- The write leaves its key in the map as the policy has it. -/
def SettlesWrite (s : Threads P K V α) : Option (TableOp K V) → Prop
  | some (.insert k _) => s.Tracks k
  | some (.remove k) => ¬s.Tracks k
  | some (.get _) | none => True

/-- The step keeps step, whatever the other threads are about to do. -/
def SettlesStep (s : Threads P K V α) : ThreadStep K V α → Prop
  | .lock _ rd op => Tracking.fits s.toLightCacheInner rd op = true
  | .table x => s.SettlesWrite (s.pending x)

instance (s : Threads P K V α) : ∀ w, Decidable (s.SettlesWrite w)
  | some (.insert k _) => inferInstanceAs (Decidable (s.Tracks k))
  | some (.remove k) => inferInstanceAs (Decidable (¬s.Tracks k))
  | some (.get _) => isTrue trivial
  | none => isTrue trivial

instance (s : Threads P K V α) : ∀ a, Decidable (s.SettlesStep a)
  | .lock _ rd op => inferInstanceAs (Decidable (Tracking.fits s.toLightCacheInner rd op = true))
  | .table x => inferInstanceAs (Decidable (s.SettlesWrite (s.pending x)))

theorem SettlesWrite.keepsWrite {w : Option (TableOp K V)} {x : α} (h : s.SettlesWrite w) :
    s.KeepsWrite x w := by
  cases w with
  | none => trivial
  | some w =>
    cases w with
    | get k => trivial
    | insert k v => exact Or.inl h
    | remove k => exact Or.inl h

theorem SettlesStep.keepsStep (h : s.SettlesStep a) : s.KeepsStep a := by
  cases a with
  | lock x rd op => exact h
  | table x => exact SettlesWrite.keepsWrite h

/-- The step keeps room, whatever the other threads are about to do. -/
def SettlesRoom {Q : Type} [PriorityQueue K Instantᵒᵈ Q] (s : Threads (LruPolicyInner K Q) K V α)
    (a : ThreadStep K V α) : Prop :=
  s.SettlesStep a ∧ match a with
    | .lock _ rd op => touchesOnlyNode s.toLightCacheInner rd op = false
    | .table _ => True

instance {Q : Type} [PriorityQueue K Instantᵒᵈ Q] (s : Threads (LruPolicyInner K Q) K V α) :
    ∀ a, Decidable (s.SettlesRoom a)
  | .lock _ _ _ => inferInstanceAs (Decidable (_ ∧ _ = false))
  | .table _ => inferInstanceAs (Decidable (_ ∧ True))

theorem SettlesRoom.keepsRoom {Q : Type} [PriorityQueue K Instantᵒᵈ Q]
    {s : Threads (LruPolicyInner K Q) K V α} (h : s.SettlesRoom a) : s.KeepsRoom a :=
  ⟨h.1.keepsStep, h.2⟩

end Settles

end Threads

namespace WholeState

variable {kinds : K → ι → Kind} {key : K} {s s' : WholeState P K V E ι τ} {u u' : State K V E ι}
variable {i : ι} {a : Label V E ι} {l : WholeLabel K V E ι τ} {rd : Readings} {p : Prop}

/-- The policy, the map, and what is left to do. -/
def threads (s : WholeState P K V E ι τ) : Threads P K V (Actor K ι τ) where
  toLightCacheInner := s.toLightCacheInner
  pending
    | .thread j => s.pending j
    | .lookup key i => s.lookups key i
    | .insertion shard => (s.holder shard).bind fun x => x.next.bind Next.tableOp

/-- What a step does to the policy and the table. -/
def acts (s : WholeState P K V E ι τ) : WholeLabel K V E ι τ → List (ThreadStep K V (Actor K ι τ))
  | .thread (.lock j rd op) => [.lock (.thread j) rd op]
  | .thread (.table j) => [.table (.thread j)]
  | .lookup key i rd => [.lock (.lookup key i) rd (.get key)]
  | .look key i => [.table (.lookup key i)]
  | .call _ _ => []
  | .track key rd => match s.insertion key with
    | some { guard := ⟨_, _, .ok value⟩, .. } =>
      [.lock (.insertion (s.map.index key)) rd (.insert key value)]
    | _ => []
  | .insertOut key => match s.insertion key with
    | some { next := some (.table _), .. } => [.table (.insertion (s.map.index key))]
    | _ => []

/-! ## What is left to do -/

omit [DecidableEq K] [DecidableEq ι] in
theorem update_pending {α : Type} [DecidableEq α] {f : α → Option (TableOp K V)} {x : α}
    {o : Option (TableOp K V)} (hx : f x = none) (ho : o = none) : Function.update f x o = f := by
  rw [ho, ← hx, Function.update_eq_self]

theorem pending_thread [DecidableEq τ] (s : WholeState P K V E ι τ) (j : τ)
    (o : Option (TableOp K V)) :
    Function.update s.threads.pending (.thread j) o =
      (threads { s with pending := Function.update s.pending j o }).pending := by
  funext x
  cases x <;> simp [Function.update_apply, threads]

theorem pending_lookup [DecidableEq τ] (s : WholeState P K V E ι τ) (key : K) (i : ι)
    (o : Option (TableOp K V)) :
    Function.update s.threads.pending (.lookup key i) o =
      (s.setLookup key i o).threads.pending := by
  funext x
  cases x with
  | lookup k j =>
    by_cases hk : k = key
    · subst hk
      simp [Function.update_apply, threads, setLookup]
    · simp [Function.update_apply, threads, setLookup, hk]
  | thread | insertion => simp [Function.update_apply, threads, setLookup]

theorem pending_hold [DecidableEq τ] (s : WholeState P K V E ι τ) (key : K)
    (h : Option (Insertion K V E ι)) :
    Function.update s.threads.pending (.insertion (s.map.index key))
        (h.bind fun x => x.next.bind Next.tableOp) = (s.hold key h).threads.pending := by
  funext x
  cases x with
  | insertion n =>
    by_cases hn : n = s.map.index key <;> simp [Function.update_apply, threads, hold, hn]
  | thread | lookup => simp [threads, hold]

omit [DecidableEq ι] in
theorem pending_insertion {x : Insertion K V E ι} (hx : s.insertion key = some x) :
    s.threads.pending (.insertion (s.map.index key)) = x.next.bind Next.tableOp := by
  show (s.holder (s.map.index key)).bind _ = _
  rw [(insertion_eq_some hx).1]
  rfl

/-! ## Each step -/

theorem get_of_kept (hstep : u.step (kinds key) key a = some u') (hdirect : a.direct = false)
    (hkept : ∀ guard, u.completes a = some guard → u.map.get key ≠ none) :
    u'.map.get = u.map.get := by
  funext k
  by_cases hk : k = key
  · subst hk
    have hview : KeyView.Step (kinds k) (u.view k) a (u'.view k) := State.step_view hstep
    show (u'.view k).value = (u.view k).value
    generalize u'.view k = t at hview ⊢
    cases hview with
    | store hends hv | storeBare hends hv =>
      exfalso
      obtain ⟨rfl, hphase, -⟩ | ⟨w, rfl, hphase⟩ := KeyView.ends_iff.mp hends
      · exact hkept _ (by rw [State.completes, show (u.calls _).phase = _ from hphase]) hv
      · exact hkept _ (by rw [State.completes, show (u.calls _).phase = _ from hphase]) hv
    | remove | insert => cases hdirect
    | _ => rfl
  · exact ((State.frame_step hstep).same k hk).get

section Steps

variable [DecidableEq τ] [Policy P K V]

/-- The threads can take the steps `as`, and then see `s'`. -/
def Mimics (s s' : WholeState P K V E ι τ) (as : List (ThreadStep K V (Actor K ι τ))) : Prop :=
  ∃ t, Trace.run Threads.step s.threads as = some t ∧ t.Agrees s'.threads

theorem mimics_lock {x : Actor K ι τ} {op : Op K V} {next : Next K V} {policy : P}
    {map : LightMap K V} (hx : s.threads.pending x = none)
    (hlocked : Policy.locked rd op s.policy s.map = .ok (next, policy, map))
    (hpolicy : s'.policy = policy) (hget : s'.map.get = map.get)
    (hpending : Function.update s.threads.pending x next.tableOp = s'.threads.pending) :
    Mimics s s' [.lock x rd op] := by
  refine ⟨{ policy, map, pending := Function.update s.threads.pending x next.tableOp },
    Trace.run_singleton.trans ?_, hpolicy.symm, hget.symm, hpending⟩
  rw [Threads.step, Threads.lock, hx, show Policy.locked rd op s.threads.policy s.threads.map = _
    from hlocked]

theorem mimics_table {x : Actor K ι τ} {op : TableOp K V} (hx : s.threads.pending x = some op)
    (hpolicy : s'.policy = s.policy) (hget : s'.map.get = (op.run s.map).2.get)
    (hpending : Function.update s.threads.pending x none = s'.threads.pending) :
    Mimics s s' [.table x] := by
  refine ⟨{
      toLightCacheInner := (s.threads.finish (.table op)).2
      pending := Function.update s.threads.pending x none },
    Trace.run_singleton.trans ?_, hpolicy.symm, hget.symm, hpending⟩
  rw [Threads.step, Threads.table, hx]

theorem mimics_nil (hpolicy : s'.policy = s.policy) (hget : s'.map.get = s.map.get)
    (hpending : s.threads.pending = s'.threads.pending) : Mimics s s' [] :=
  ⟨s.threads, rfl, hpolicy.symm, hget.symm, hpending⟩

theorem mimics_thread {b : ThreadStep K V τ} {t : Threads P K V τ}
    (hstep : s.toThreads.step b = some t) :
    Mimics s { s with toThreads := t } (s.acts (.thread b)) := by
  cases b with
  | lock j rd op =>
    have hj : s.pending j = none := Threads.pending_of_lock hstep
    simp only [Threads.step, Threads.lock, hj] at hstep
    split at hstep
    · next next policy map _ hlocked =>
      obtain rfl := Option.some.inj hstep
      exact mimics_lock hj hlocked rfl rfl (s.pending_thread j next.tableOp)
    · cases hstep
  | table j =>
    obtain ⟨op, hop, hpolicy, hmap, hpending⟩ := Threads.table_eq_some hstep
    refine mimics_table hop hpolicy (congrArg LightMap.get hmap) ?_
    rw [s.pending_thread, ← hpending]
    rfl

theorem mimics_lookup [Sectioned P K V] (hstep : s.lookup kinds key i rd = some s') :
    Mimics s s' (s.acts (.lookup key i rd)) := by
  obtain ⟨-, hnone, dead, policy, next, hlocked, ⟨rfl, rfl⟩ | ⟨hnext, rfl⟩⟩ := lookup_eq_some hstep
  · exact mimics_lock hnone hlocked rfl rfl (s.pending_lookup key i _)
  · exact mimics_lock hnone hlocked rfl rfl (update_pending hnone hnext)

theorem mimics_look (hstep : s.look kinds key i = some s') :
    Mimics s s' (s.acts (.look key i)) := by
  obtain ⟨-, op, hop, rfl⟩ := look_eq_some hstep
  exact mimics_table hop rfl rfl (s.pending_lookup key i none)

theorem mimics_call (hstep : s.call kinds key a = some s') : Mimics s s' [] := by
  obtain ⟨hblocked, ⟨u, hu, hunlocked, rfl⟩ | ⟨guard, hcompletes, -, rfl⟩⟩ := call_eq_some hstep
  · refine mimics_nil rfl (get_of_kept hu ?_ ?_) rfl
    · cases a with
      | remove | insert => cases hblocked
      | _ => rfl
    · intro guard hguard hv
      simp [OverlapState.stepUnlocked, hguard, GetOrInsertFutureInner.pollWorking, hv] at hunlocked
  · refine mimics_nil rfl rfl ?_
    have hnone : s.holder (s.map.index key) = none :=
      (free_of_blocked hblocked).resolve_right
        (by simp [(OverlapState.locks_of_completes hcompletes).1])
    rw [← s.pending_hold key (some ⟨key, guard, none⟩)]
    refine (update_pending ?_ rfl).symm
    show (s.holder (s.map.index key)).bind _ = none
    rw [hnone]
    rfl

theorem mimics_track [Sectioned P K V] (hstep : s.track key rd = some s') :
    Mimics s s' (s.acts (.track key rd)) := by
  obtain ⟨⟨k, ⟨j, armed, out⟩, left⟩, value, dead, policy, next, hx, rfl, rfl, hlocked, -, rfl⟩ :=
    track_eq_some hstep
  have hacts : s.acts (.track key rd : WholeLabel K V E ι τ) =
      [.lock (.insertion (s.map.index key)) rd (.insert key value)] := by
    simp only [acts, hx]
  rw [hacts]
  refine mimics_lock (pending_insertion hx) hlocked rfl rfl ?_
  rw [← LightMap.index_removeAll s.map dead key]
  exact WholeState.pending_hold { s with policy, map := s.map.removeAll dead } key
    (some ⟨k, ⟨j, armed, .ok value⟩, some next⟩)

omit [DecidableEq ι] [DecidableEq τ] [Policy P K V] in
/-- What the rest of a completing poll does to the table is what is left of its insert. -/
theorem finish_frame {c c' : LightCacheInner P K V} {value : V} {guard : Guard V E ι}
    {next : Next K V} {completion : Completion (Except E V)} {ws : List Waker}
    (hout : guard.out = .ok value)
    (hfinish : Insertion.finish c ⟨key, guard, some next⟩ = some (completion, ws, c')) :
    c'.policy = c.policy ∧ c'.map.get = (c.finish next).2.map.get ∧
      c'.map.index = (c.finish next).2.map.index := by
  simp only [Insertion.finish, hout] at hfinish
  obtain rfl := congrArg (fun x => x.2.2) (Option.some.inj hfinish)
  refine ⟨?_, funext fun k => ?_, funext fun k => ?_⟩
  · rw [LightCacheInner.endInsert_policy, LightCacheInner.finish_policy]
  · rw [LightCacheInner.endInsert_get]
  · rw [LightCacheInner.endInsert_index]

theorem mimics_insertOut (hs : s.Tidy p) (hstep : s.insertOut key = some s') :
    Mimics s s' (s.acts (.insertOut key)) := by
  obtain ⟨⟨k, guard, left⟩, completion, ws, c, hx, hfinish, rfl⟩ := insertOut_eq_some hstep
  obtain ⟨hholder, rfl⟩ := insertion_eq_some hx
  have hpending := pending_insertion hx
  -- The lock is released, and nothing else is left.
  have hrelease (hindex : c.map.index k = s.map.index k) :
      Function.update s.threads.pending (.insertion (s.map.index k)) none =
        (WholeState.hold { s with policy := c.policy, map := c.map } k none).threads.pending := by
    rw [← hindex]
    exact WholeState.pending_hold { s with policy := c.policy, map := c.map } k none
  cases left with
  | none =>
    obtain ⟨j, armed, out⟩ := guard
    cases out with
    | ok value => cases hfinish
    | error err =>
      cases hfinish
      simp only [acts, hx]
      exact mimics_nil rfl rfl ((update_pending hpending rfl).symm.trans (hrelease rfl))
  | some next =>
    obtain ⟨value, hout, hnext | ⟨-, rfl⟩⟩ := hs.left _ _ next hholder rfl
    · obtain rfl : next = .table (.insert k value) := hnext
      obtain ⟨hpolicy, hget, hindex⟩ := finish_frame hout hfinish
      simp only [acts, hx]
      refine mimics_table hpending hpolicy hget (hrelease ?_)
      rw [hindex]
      exact LightMap.index_insert ..
    · obtain ⟨hpolicy, hget, hindex⟩ := finish_frame hout hfinish
      simp only [acts, hx]
      exact mimics_nil hpolicy hget
        ((update_pending hpending rfl).symm.trans (hrelease (congrFun hindex k)))

/-- A step of the whole cache is one of the threads, or none. -/
theorem mimics_step [Sectioned P K V] (hs : s.Tidy p) (hstep : s.step kinds l = some s') :
    Mimics s s' (s.acts l) := by
  cases l with
  | thread b =>
    obtain ⟨t, ht, rfl⟩ := Option.map_eq_some_iff.mp hstep
    exact mimics_thread ht
  | lookup key i rd => exact mimics_lookup hstep
  | look key i => exact mimics_look hstep
  | call key a => exact mimics_call hstep
  | track key rd => exact mimics_track hstep
  | insertOut key => exact mimics_insertOut hs hstep

/-! ## Runs -/

omit [DecidableEq ι] [Policy P K V] [DecidableEq τ] in
theorem agrees_start (policy : P) (n : ℕ+) (hasher : K → UInt64) :
    (start policy n hasher : WholeState P K V E ι τ).threads.Agrees
      (Threads.start policy n hasher) := by
  refine ⟨rfl, rfl, ?_⟩
  funext x
  cases x <;> rfl

/-- What the threads have holds along a run of the whole cache, if each of their steps keeps it, and
it depends on what they see only. -/
theorem threads_inv [Sectioned P K V] {I : Threads P K V (Actor K ι τ) → Prop}
    {ok : Threads P K V (Actor K ι τ) → ThreadStep K V (Actor K ι τ) → Prop}
    {ls : List (WholeLabel K V E ι τ)} (policy : P) (n : ℕ+) (hasher : K → UInt64)
    (hstart : I (Threads.start policy n hasher))
    (hstep : ∀ s a s', I s → ok s a → Threads.step s a = some s' → I s')
    (hagrees : ∀ s t, s.Agrees t → I s → I t)
    (hrun : Trace.run (step kinds) (start policy n hasher) ls = some s)
    (hok : Trace.Each (step kinds) (fun s l => Trace.Each Threads.step ok s.threads (s.acts l))
      (start policy n hasher) ls) : s.Tidy True ∧ I s.threads := by
  refine Trace.inv_of_each (P := fun s : WholeState P K V E ι τ => s.Tidy True ∧ I s.threads)
    (fun s l s' ⟨htidy, h⟩ hok hl => ⟨htidy.step (fun _ => trivial) hl, ?_⟩)
    ⟨tidy_start policy n hasher, hagrees _ _ (agrees_start policy n hasher).symm hstart⟩ hok hrun
  obtain ⟨t, ht, ht'⟩ := mimics_step htidy hl
  exact hagrees t _ ht' (Trace.inv_of_each hstep h hok ht)

theorem each_acts_imp (ok : Threads P K V (Actor K ι τ) → ThreadStep K V (Actor K ι τ) → Prop)
    {ok' : Threads P K V (Actor K ι τ) → ThreadStep K V (Actor K ι τ) → Prop}
    {ls : List (WholeLabel K V E ι τ)}
    (h : Trace.Each (step kinds) (fun s l => Trace.Each Threads.step ok s.threads (s.acts l)) s ls)
    (himp : ∀ t a, ok t a → ok' t a) :
    Trace.Each (step kinds) (fun s l => Trace.Each Threads.step ok' s.threads (s.acts l)) s ls :=
  h.imp (I := fun _ => True) (fun _ _ _ _ _ _ => trivial)
    (fun _ _ _ h => h.imp (I := fun _ => True) (fun _ _ _ _ _ _ => trivial)
      (fun t a _ => himp t a) trivial) trivial

end Steps

/-- What a step of the threads comes from in a run of the whole cache. -/
def Issued (ls : List (WholeLabel K V E ι τ)) : ThreadStep K V (Actor K ι τ) → Prop
  | .lock (.thread j) rd op => .thread (.lock j rd op) ∈ ls
  | .lock (.lookup key i) rd op => op = .get key ∧ .lookup key i rd ∈ ls
  | .lock (.insertion _) rd op => ∃ key value, op = .insert key value ∧ .track key rd ∈ ls
  | .table _ => True

omit [DecidableEq ι] in
theorem issued_of_acts {ls : List (WholeLabel K V E ι τ)} (hl : l ∈ ls) :
    ∀ a ∈ s.acts l, Issued ls a := by
  intro a ha
  cases l with
  | thread b =>
    cases b with
    | lock j rd op => exact List.mem_singleton.mp ha ▸ hl
    | table j => exact List.mem_singleton.mp ha ▸ trivial
  | lookup key i rd => exact List.mem_singleton.mp ha ▸ ⟨rfl, hl⟩
  | look key i => exact List.mem_singleton.mp ha ▸ trivial
  | call key a => cases ha
  | track key rd =>
    simp only [acts] at ha
    split at ha
    · exact List.mem_singleton.mp ha ▸ ⟨key, _, rfl, hl⟩
    · cases ha
  | insertOut key =>
    simp only [acts] at ha
    split at ha
    · exact List.mem_singleton.mp ha ▸ trivial
    · cases ha

end WholeState

section Runs

variable [DecidableEq τ]

/-- **The policy of the whole cache.** What the calls and the direct operations do to the policy and
the table together is a run of threads, in which each call has one for its lookup, and each shard
one for the insert of a completing poll. -/
theorem threads_run [Policy P K V] [Sectioned P K V] (kinds : K → ι → Kind) (policy : P) (n : ℕ+)
    (hasher : K → UInt64) (ls : List (WholeLabel K V E ι τ)) {s : WholeState P K V E ι τ}
    (hrun : Trace.run (WholeState.step kinds) (WholeState.start policy n hasher) ls = some s) :
    ∃ as t, (∀ a ∈ as, WholeState.Issued ls a) ∧
      Trace.run Threads.step (Threads.start policy n hasher) as = some t ∧
      s.policy = t.policy ∧ s.map.get = t.map.get ∧ s.threads.pending = t.pending := by
  have hall : Trace.Each (WholeState.step kinds) (fun _ l => l ∈ ls)
      (WholeState.start policy n hasher) ls := Trace.each_of_forall fun l hl => hl
  obtain ⟨as, t, has, hrun', -, h⟩ := Trace.simulate
    (R := fun s t => s.Tidy True ∧ s.threads.Agrees t) (B := WholeState.Issued ls)
    (fun s t l s' ⟨htidy, hagrees⟩ hl hstep => by
      obtain ⟨u, hu, hu'⟩ := WholeState.mimics_step htidy hstep
      obtain ⟨as, t', has, hrun, ht⟩ := Trace.simulate (R := Threads.Agrees)
        (B := WholeState.Issued ls)
        (fun x y a x' hxy ha hx => by
          obtain ⟨y', hy, hxy'⟩ := hxy.step hx
          exact ⟨[a], y', fun b hb => List.mem_singleton.mp hb ▸ ha,
            Trace.run_singleton.trans hy, hxy'⟩)
        hagrees (Trace.each_of_forall (WholeState.issued_of_acts hl)) hu
      exact ⟨as, t', has, hrun, htidy.step (fun _ => trivial) hstep, hu'.symm.trans ht⟩)
    ⟨WholeState.tidy_start policy n hasher, WholeState.agrees_start policy n hasher⟩ hall hrun
  exact ⟨as, t, has, hrun', h.policy, h.get, h.pending⟩

theorem threads_run_pruned :
    ∃ s : WholeState (TtlPolicyInner ℕ) ℕ ℕ ℕ Bool Unit,
      Trace.run (WholeState.step fun _ _ => .getOrInsert)
        (WholeState.start (TtlPolicyInner.new 5) 1 fun _ => 0) WholeState.prunedRun = some s ∧
      s.map.get 0 = some 7 ∧
      ∃ as t, (∀ a ∈ as, WholeState.Issued WholeState.prunedRun a) ∧
        Trace.run Threads.step (Threads.start (TtlPolicyInner.new 5) 1 fun _ => 0) as = some t ∧
        s.policy = t.policy ∧ s.map.get = t.map.get ∧ s.threads.pending = t.pending :=
  ⟨_, rfl, rfl, threads_run (fun _ _ => .getOrInsert) (TtlPolicyInner.new 5) 1 (fun _ => 0)
    WholeState.prunedRun rfl⟩

/-- In a run whose steps keep step, the map holds the keys that the policy tracks whenever nothing
is in flight. -/
def WholeState.StaysInStep [Policy P K V] [Tracking P K V] (kinds : K → ι → Kind)
    (s₀ : WholeState P K V E ι τ) : Prop :=
  ∀ ls s, Trace.run (WholeState.step kinds) s₀ ls = some s →
    Trace.Each (WholeState.step kinds)
      (fun s l => Trace.Each Threads.step Threads.KeepsStep s.threads (s.acts l)) s₀ ls →
    s.threads.Quiet → s.threads.InStep

theorem WholeState.staysInStep [Policy P K V] [Sectioned P K V] [Tracking P K V]
    (kinds : K → ι → Kind) {policy : P} (hsound : Tracking.Sound K V policy)
    (hempty : ∀ k : K, ¬Tracking.tracks V policy k) (n : ℕ+) (hasher : K → UInt64) :
    (WholeState.start policy n hasher : WholeState P K V E ι τ).StaysInStep kinds := by
  intro ls s hrun hok hquiet
  have hbalanced := (WholeState.threads_inv (I := Threads.Balanced) policy n hasher
    (Threads.balanced_start hsound hempty n hasher) (fun _ _ _ h hok hstep => h.step hstep hok)
    (fun _ _ h => h.balanced) hrun hok).2
  exact hbalanced.inStep hquiet

variable {Q : Type} [PriorityQueue K Instantᵒᵈ Q] [LawfulPriorityQueue K Instantᵒᵈ Q]

/-- **Policy and map of the whole cache in step.** For the LRU and the time-to-live policy, with
calls and direct operations on any keys: as long as every table operation keeps its key and no
insert overflows its expiry, the map holds the keys in the arena whenever no lookup, no insert and
no direct operation is in flight. -/
theorem whole_in_step (kinds : K → ι → Kind) (capacity : ℕ) (hcap : 1 < capacity)
    (ttl : Option Duration) (life : Duration) (n : ℕ+) (hasher : K → UInt64) :
    (WholeState.start (LruPolicyInner.new capacity hcap ttl) n hasher :
      WholeState (LruPolicyInner K Q) K V E ι τ).StaysInStep kinds ∧
    (WholeState.start (TtlPolicyInner.new life) n hasher :
      WholeState (TtlPolicyInner K) K V E ι τ).StaysInStep kinds :=
  ⟨WholeState.staysInStep kinds (LruPolicyInner.sound_new capacity hcap ttl)
      (LruPolicyInner.not_tracks_new capacity hcap ttl) n hasher,
    WholeState.staysInStep kinds (TtlPolicyInner.sound_new life)
      (TtlPolicyInner.not_tracks_new life) n hasher⟩

/-- A call inserts its value, and nothing is left of it. -/
theorem whole_in_step_one_call :
    ∃ s : WholeState (TtlPolicyInner Bool) Bool ℕ ℕ Unit Unit,
      Trace.run (WholeState.step fun _ _ => .getOrInsert)
        (WholeState.start (TtlPolicyInner.new 5) 1 fun _ => 0)
        [.lookup true () (.single 0 0), .call true (.wait () 0), .call true (.init () true),
          .call true (.poll () (.ready (.ok 7))), .call true (.complete ()),
          .track true (.single 0 0), .insertOut true] = some s ∧
      s.map.get true = some 7 ∧ s.threads.InStep := by
  have hstart := (@whole_in_step Bool ℕ ℕ Unit Unit _ _ _ (SortedQueue Bool Instantᵒᵈ) _ _
    (fun _ _ => .getOrInsert) 2 (by decide) none 5 1 fun _ => 0).2
  refine ⟨_, rfl, rfl, hstart
    [.lookup true () (.single 0 0), .call true (.wait () 0), .call true (.init () true),
      .call true (.poll () (.ready (.ok 7))), .call true (.complete ()), .track true (.single 0 0),
      .insertOut true] _ rfl
    (WholeState.each_acts_imp Threads.SettlesStep (by decide +kernel) fun _ _ h => h.keepsStep)
    fun x => ?_⟩
  cases x with
  | thread j => rfl
  | lookup k i => cases k <;> rfl
  | insertion n => cases n <;> rfl

/-- **The capacity of the whole cache.** With calls and direct operations on any keys: as long as no
step touches the only node of the arena, no insert overflows its expiry, and every table operation
keeps its key, the arena never exceeds the capacity, and the map does so by no more than the number
of direct removals that are about to take a key out of it. -/
theorem whole_lru_bounded (kinds : K → ι → Kind) (capacity : ℕ) (hcap : 1 < capacity)
    (ttl : Option Duration) (n : ℕ+) (hasher : K → UInt64) (ls : List (WholeLabel K V E ι τ))
    {s : WholeState (LruPolicyInner K Q) K V E ι τ}
    (hrun : Trace.run (WholeState.step kinds)
      (WholeState.start (LruPolicyInner.new capacity hcap ttl) n hasher) ls = some s)
    (hsteps : Trace.Each (WholeState.step kinds)
      (fun s l => Trace.Each Threads.step Threads.KeepsRoom s.threads (s.acts l))
      (WholeState.start (LruPolicyInner.new capacity hcap ttl : LruPolicyInner K Q) n hasher) ls) :
    s.policy.arena.len ≤ capacity ∧ ∃ removing : List τ, removing.Nodup ∧
      (∀ j ∈ removing, ∃ k, s.pending j = some (.remove k)) ∧
      s.map.len ≤ capacity + removing.length := by
  obtain ⟨htidy, hroom⟩ := WholeState.threads_inv (I := fun t => Threads.Room t capacity)
    (LruPolicyInner.new capacity hcap ttl) n hasher (Threads.room_start capacity hcap ttl n hasher)
    (fun _ _ _ h hok hstep => h.step hstep hok) (fun _ _ h => h.room) hrun hsteps
  refine hroom.bounded fun x k hx => ?_
  replace hx := Threads.removes_iff.mp hx
  cases x with
  | thread j => exact ⟨j, hx⟩
  | lookup key i => cases htidy.lookups key i _ hx
  | insertion shard =>
    obtain ⟨x, hholder, hx⟩ := Option.bind_eq_some_iff.mp hx
    obtain ⟨next, hnext, hop⟩ := Option.bind_eq_some_iff.mp hx
    obtain ⟨value, -, rfl | ⟨-, rfl⟩⟩ := htidy.left shard x next hholder hnext <;> cases hop

/-- Two keys are stored, one by a call. A thread has forgotten one of them, and not yet taken it out
of the map, when another stores a third. -/
theorem whole_lru_bounded_three_keys :
    ∃ s : WholeState (LruPolicyInner ℕ (SortedQueue ℕ Instantᵒᵈ)) ℕ ℕ ℕ Unit Bool,
      Trace.run (WholeState.step fun _ _ => .getOrInsert)
        (WholeState.start (LruPolicyInner.new 2 (by decide) none) 1 fun _ => 0)
        [.lookup 1 () (.single 0 0), .look 1 (), .call 1 (.wait () 0), .call 1 (.init () true),
          .call 1 (.poll () (.ready (.ok 10))), .call 1 (.complete ()), .track 1 (.single 0 0),
          .insertOut 1, .thread (.lock true (.single 1 1) (.insert 2 20)), .thread (.table true),
          .thread (.lock false (.single 2 2) (.remove 1)),
          .thread (.lock true (.single 3 3) (.insert 3 30)), .thread (.table true)] = some s ∧
      s.map.len = 3 ∧ s.policy.arena.len ≤ 2 ∧ ∃ removing : List Bool, removing.Nodup ∧
        (∀ j ∈ removing, ∃ k, s.pending j = some (.remove k)) ∧
        s.map.len ≤ 2 + removing.length := by
  have hlen : (Trace.run (WholeState.step fun _ _ => .getOrInsert)
      (WholeState.start (LruPolicyInner.new 2 (by decide) none) 1 fun _ => 0 :
        WholeState (LruPolicyInner ℕ (SortedQueue ℕ Instantᵒᵈ)) ℕ ℕ ℕ Unit Bool)
      [.lookup 1 () (.single 0 0), .look 1 (), .call 1 (.wait () 0), .call 1 (.init () true),
        .call 1 (.poll () (.ready (.ok 10))), .call 1 (.complete ()), .track 1 (.single 0 0),
        .insertOut 1, .thread (.lock true (.single 1 1) (.insert 2 20)), .thread (.table true),
        .thread (.lock false (.single 2 2) (.remove 1)),
        .thread (.lock true (.single 3 3) (.insert 3 30)), .thread (.table true)]).map
      (fun s => s.map.len) = some 3 := by
    decide +kernel
  obtain ⟨s, hrun, hs⟩ := Option.map_eq_some_iff.mp hlen
  exact ⟨s, hrun, hs, whole_lru_bounded (fun _ _ => .getOrInsert) 2 (by decide) none 1 (fun _ => 0)
    _ hrun (WholeState.each_acts_imp Threads.SettlesRoom (by decide +kernel)
      fun _ _ h => h.keepsRoom)⟩

end Runs

end LightCache
