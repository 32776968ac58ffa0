import LightCache.Lib.Trace
import LightCache.Policy.Clock
import LightCache.Policy.LruQueue
import LightCache.Policy.SortedQueue

/-!
# Expiry in an LRU cache

The map, the arena and the queue hold the same keys after every operation, and the queue has the
expiry of the last insert of each. So a `get` finds what was inserted last, unless that was removed
or evicted, or a prune pass since, its own included, read the clock after the expiry.

What was inserted and which prune passes came since is not in the state, so it is kept in a history
variable, the notes.

Main result: `lru_expiry_exact`.
-/

namespace LightCache

open LruPolicyInner

/-- The last insert of a key: its reading, its value, and the readings of the prune passes since. -/
structure Note (V : Type) where
  stamp : Instant
  value : V
  seen : List Instant
  deriving DecidableEq, Repr

namespace Note

variable {V : Type}

/-- The note after a prune pass that reads `t`. -/
def see (t : Instant) (note : Note V) : Note V := { note with seen := t :: note.seen }

/-- The expiry is not before any of the readings `ts`. -/
def Covers (ttl : Option Duration) (note : Note V) (ts : List Instant) : Prop :=
  ∀ d, ttl = some d → ∀ r ∈ ts, r ≤ note.stamp + d

end Note

section LruExpiry

variable {K V Q : Type} [DecidableEq K] [PriorityQueue K Instantᵒᵈ Q]

/-- The call, which takes `c` to `c'`, evicts a key that its prune left. -/
def evicts (c : LightCacheInner (LruPolicyInner K Q) K V) (rd : Readings)
    (c' : LightCacheInner (LruPolicyInner K Q) K V) (j : K) : Bool :=
  match c.policy.prune rd.tick c.map with
  | .ok (s₁, _) => j ∈ s₁.arena.idxOf ∧ j ∉ c'.policy.arena.idxOf
  | .error _ => false

/-- The notes after a call from `c` to `c'`, on the keys that were inserted, and neither removed nor
evicted since. -/
def takeNote (c : LightCacheInner (LruPolicyInner K Q) K V) (call : Readings × Op K V)
    (c' : LightCacheInner (LruPolicyInner K Q) K V) (notes : K → Option (Note V)) (j : K) :
    Option (Note V) :=
  match call.2 with
  | .insert key value =>
    if j = key then some { stamp := call.1.now, value, seen := [] }
    else if evicts c call.1 c' j then none
    else (notes j).map (Note.see (call.1.tick 0))
  | .remove key => if j = key then none else (notes j).map (Note.see (call.1.tick 0))
  | .get _ | .prune => (notes j).map (Note.see (call.1.tick 0))

/-- The cache with the notes. -/
def noteStep :
    LightCacheInner (LruPolicyInner K Q) K V × (K → Option (Note V)) → Readings × Op K V →
      Option (LightCacheInner (LruPolicyInner K Q) K V × (K → Option (Note V))) :=
  Trace.recording LightCacheInner.step takeNote

/-- The arena, the queue and the map hold the keys `ks`, as the notes say. The other keys that are
noted have expired at a prune pass since. -/
structure Noted (c : LightCacheInner (LruPolicyInner K Q) K V) (ks : List K)
    (notes : K → Option (Note V)) : Prop where
  lists : c.policy.arena.Lists ks
  entry : ∀ k ∈ ks, ∃ note, notes k = some note ∧ c.map.get k = some note.value ∧
    c.policy.expiry k = c.policy.ttl.map (note.stamp + ·) ∧ note.Covers c.policy.ttl note.seen
  unmapped : ∀ k, k ∉ ks → c.map.get k = none
  unqueued : ∀ k, k ∉ ks → c.policy.expiry k = none
  expired : ∀ k note, notes k = some note → k ∉ ks → ¬note.Covers c.policy.ttl note.seen

section Noted

variable {c : LightCacheInner (LruPolicyInner K Q) K V} {ks : List K}
variable {notes : K → Option (Note V)} {k : K} {v : V}

theorem noted_fromParts (capacity : ℕ) (h : 1 < capacity) (ttl : Option Duration) (n : ℕ+)
    (hasher : K → UInt64) [LawfulPriorityQueue K Instantᵒᵈ Q] :
    Noted (LightCacheInner.fromParts (LruPolicyInner.new capacity h ttl) n hasher :
      LightCacheInner (LruPolicyInner K Q) K V) [] fun _ => none where
  lists := LinkedArena.lists_new
  entry k hk := absurd hk List.not_mem_nil
  unmapped k _ := LightMap.get_empty k n hasher
  unqueued k _ := by
    cases ttl with
    | none => rfl
    | some d =>
      show (PriorityQueue.priority (PriorityQueue.new : Q) k).map OrderDual.ofDual = none
      rw [LawfulPriorityQueue.priority_new]
      rfl
  expired k note hnote := by cases hnote

theorem Noted.mirror (h : Noted c ks notes) (k : K) :
    (c.map.get k).isSome ↔ k ∈ c.policy.arena.idxOf := by
  rw [h.lists.mem_idxOf]
  by_cases hk : k ∈ ks
  · obtain ⟨note, -, hv, -⟩ := h.entry k hk
    simp [hv, hk]
  · simp [h.unmapped k hk, hk]

theorem Noted.queued (h : Noted c ks notes) {d : Duration} (hd : c.policy.ttl = some d) (k : K) :
    (c.policy.expiry k).isSome ↔ k ∈ c.policy.arena.idxOf := by
  rw [h.lists.mem_idxOf]
  by_cases hk : k ∈ ks
  · obtain ⟨note, -, -, hexpiry, -⟩ := h.entry k hk
    simp [hexpiry, hd, hk]
  · simp [h.unqueued k hk, hk]

/-- What the map holds is the noted value, if it has not expired. -/
theorem Noted.get_eq_some (h : Noted c ks notes) :
    c.map.get k = some v ↔
      ∃ note, notes k = some note ∧ note.value = v ∧ note.Covers c.policy.ttl note.seen := by
  by_cases hk : k ∈ ks
  · obtain ⟨note, hnote, hv, -, hcovers⟩ := h.entry k hk
    rw [hv, Option.some.injEq]
    constructor
    · intro hvalue
      exact ⟨note, hnote, hvalue, hcovers⟩
    · intro hnoted
      obtain ⟨note', hnote', hvalue, -⟩ := hnoted
      obtain rfl := Option.some.inj (hnote.symm.trans hnote')
      exact hvalue
  · rw [h.unmapped k hk]
    constructor
    · intro hv
      cases hv
    · intro hnoted
      obtain ⟨note, hnote, -, hcovers⟩ := hnoted
      exact absurd hcovers (h.expired k note hnote hk)

/-! ## Prune -/

variable [LawfulPriorityQueue K Instantᵒᵈ Q]
variable {s₁ s' : LruPolicyInner K Q} {map₁ : LightMap K V} {ks' dead out : List K} {rd : Readings}
variable {t : Instant} {tick : ℕ → Instant}

/-- A prune that reads `t` keeps the keys whose expiry is not before `t`. -/
theorem Noted.prune (h : Noted c ks notes) (htick : ∀ i, tick i = t) :
    ∃ ks₁ s₁ map₁, c.policy.prune tick c.map = .ok (s₁, map₁) ∧ s₁.SameSettings c.policy ∧
      Noted ⟨s₁, map₁⟩ ks₁ fun j => (notes j).map (Note.see t) := by
  obtain ⟨dead, s₁, hok, hpruned, hlapsed⟩ := prune_exact h.lists tick c.map
  refine ⟨ks.diff dead, s₁, _, hok, ⟨hpruned.capacity, hpruned.ttl⟩, hpruned.lists, ?_, ?_, ?_, ?_⟩
  · intro k hk
    obtain ⟨hk, hdead⟩ := h.lists.nodup.mem_sdiff_iff.mp hk
    obtain ⟨note, hnote, hv, hexpiry, hcovers⟩ := h.entry k hk
    have hexpiry₁ : s₁.expiry k = s₁.ttl.map (note.stamp + ·) := by
      rw [hlapsed.expiry, if_neg hdead, hexpiry, hpruned.ttl]
    refine ⟨note.see t, by rw [hnote]; rfl, by rw [LightMap.get_removeAll, if_neg hdead, hv]; rfl,
      hexpiry₁, ?_⟩
    intro d hd r hr
    rcases List.mem_cons.mp hr with rfl | hr
    · obtain ⟨j, hj⟩ := hlapsed.alive
      have hle := hj k (note.stamp + d) (by rw [hexpiry₁, hd]; rfl)
      rwa [htick] at hle
    · exact hcovers d (hpruned.ttl ▸ hd) r hr
  · intro k hk
    rw [LightMap.get_removeAll]
    split_ifs with hdead
    · rfl
    · exact h.unmapped k fun hks => hk (h.lists.nodup.mem_sdiff_iff.mpr ⟨hks, hdead⟩)
  · intro k hk
    rw [hlapsed.expiry]
    split_ifs with hdead
    · rfl
    · exact h.unqueued k fun hks => hk (h.lists.nodup.mem_sdiff_iff.mpr ⟨hks, hdead⟩)
  · intro k note' hnote' hk hcovers
    obtain ⟨note, hnote, rfl⟩ := Option.map_eq_some_iff.mp hnote'
    have hcovers (d : Duration) (hd : c.policy.ttl = some d) : ∀ r ∈ t :: note.seen,
        r ≤ note.stamp + d := hcovers d (hpruned.ttl.trans hd)
    by_cases hks : k ∈ ks
    · -- The prune drops the key, so it reads the clock after the expiry.
      have hdead : k ∈ dead := by
        by_contra hdead
        exact hk (h.lists.nodup.mem_sdiff_iff.mpr ⟨hks, hdead⟩)
      obtain ⟨e, j, he, hlt⟩ := hlapsed.expired k hdead
      obtain ⟨note₀, hnote₀, -, hexpiry, -⟩ := h.entry k hks
      obtain rfl := Option.some.inj (hnote.symm.trans hnote₀)
      obtain ⟨d, hd, rfl⟩ := Option.map_eq_some_iff.mp (hexpiry.symm.trans he)
      rw [htick] at hlt
      exact absurd (hcovers d hd t List.mem_cons_self) (Nat.not_le_of_lt hlt)
    · exact h.expired k note hnote hks fun d hd r hr => hcovers d hd r (List.mem_cons_of_mem t hr)

/-! ## The rest of an operation -/

omit [LawfulPriorityQueue K Instantᵒᵈ Q] in
theorem Noted.reorder (h : Noted ⟨s₁, map₁⟩ ks notes) (hsame : s'.SameSettings s₁)
    (hlists : s'.arena.Lists ks') (hmem : ∀ j, j ∈ ks' ↔ j ∈ ks)
    (hexpiry : ∀ j, s'.expiry j = s₁.expiry j) : Noted ⟨s', map₁⟩ ks' notes where
  lists := hlists
  entry k hk := by
    obtain ⟨note, hnote, hv, he, hcovers⟩ := h.entry k ((hmem k).mp hk)
    refine ⟨note, hnote, hv, ?_, ?_⟩
    · rw [hexpiry, hsame.2]
      exact he
    · rw [hsame.2]
      exact hcovers
  unmapped k hk := h.unmapped k ((hmem k).not.mp hk)
  unqueued k hk := (hexpiry k).trans (h.unqueued k ((hmem k).not.mp hk))
  expired k note hnote hk := by
    rw [hsame.2]
    exact h.expired k note hnote ((hmem k).not.mp hk)

omit [LawfulPriorityQueue K Instantᵒᵈ Q] in
theorem Noted.remove (h : Noted ⟨s₁, map₁⟩ ks notes) (hsame : s'.SameSettings s₁)
    (hlists : s'.arena.Lists (ks.erase k))
    (hexpiry : ∀ j, s'.expiry j = if j = k then none else s₁.expiry j) :
    Noted ⟨s', (map₁.remove k).2⟩ (ks.erase k) fun j => if j = k then none else notes j := by
  have hmem (j : K) : j ∈ ks.erase k ↔ j ≠ k ∧ j ∈ ks := h.lists.nodup.mem_erase_iff
  refine ⟨hlists, ?_, ?_, ?_, ?_⟩
  · intro j hj
    obtain ⟨hjk, hj⟩ := (hmem j).mp hj
    obtain ⟨note, hnote, hv, he, hcovers⟩ := h.entry j hj
    refine ⟨note, by rw [if_neg hjk, hnote], by rw [LightMap.get_remove, if_neg hjk, hv], ?_, ?_⟩
    · rw [hexpiry, if_neg hjk, hsame.2]
      exact he
    · rw [hsame.2]
      exact hcovers
  · intro j hj
    rw [LightMap.get_remove]
    split_ifs with hjk
    · rfl
    · exact h.unmapped j fun hks => hj ((hmem j).mpr ⟨hjk, hks⟩)
  · intro j hj
    rw [hexpiry]
    split_ifs with hjk
    · rfl
    · exact h.unqueued j fun hks => hj ((hmem j).mpr ⟨hjk, hks⟩)
  · intro j note hnote hj
    split_ifs at hnote with hjk
    rw [hsame.2]
    exact h.expired j note hnote fun hks => hj ((hmem j).mpr ⟨hjk, hks⟩)

omit [LawfulPriorityQueue K Instantᵒᵈ Q] in
/-- An insert notes its key, and forgets those it evicts. -/
theorem Noted.insert (h : Noted ⟨s₁, map₁⟩ ks notes) (hsame : s'.SameSettings s₁)
    (hlists : s'.arena.Lists ks') (hks : promote ks k = ks' ++ out) (hk : k ∉ out) (now : Instant)
    (hexpiry : ∀ j, s'.expiry j = if j ∈ out then none else
      if j = k then s₁.ttl.map (now + ·) else s₁.expiry j) :
    Noted ⟨s', ((map₁.removeAll out).insert k v).2⟩ ks' fun j =>
      if j = k then some { stamp := now, value := v, seen := [] }
      else if j ∈ out then none else notes j := by
  have hmem (j : K) : j ∈ ks' ∨ j ∈ out ↔ j = k ∨ j ∈ ks := mem_or_mem_cut hks
  have hfront : k ∈ ks' := ((hmem k).mpr (Or.inl rfl)).resolve_right hk
  refine ⟨hlists, ?_, ?_, ?_, ?_⟩
  · intro j hj
    by_cases hjk : j = k
    · subst hjk
      refine ⟨_, if_pos rfl, by rw [LightMap.get_insert, if_pos rfl], ?_, ?_⟩
      · rw [hexpiry, if_neg hk, if_pos rfl, hsame.2]
      · intro d hd r hr
        cases hr
    -- A key that stays keeps its note.
    · have hout := not_mem_cut hks h.lists.nodup hj
      obtain ⟨note, hnote, hv, he, hcovers⟩ :=
        h.entry j (((hmem j).mp (Or.inl hj)).resolve_left hjk)
      refine ⟨note, by rw [if_neg hjk, if_neg hout, hnote],
        by rw [LightMap.get_insert, if_neg hjk, LightMap.get_removeAll, if_neg hout, hv], ?_, ?_⟩
      · rw [hexpiry, if_neg hout, if_neg hjk, hsame.2]
        exact he
      · rw [hsame.2]
        exact hcovers
  · intro j hj
    -- What was cut off has left the map and the queue too.
    have hjk : j ≠ k := fun hjk => hj (hjk ▸ hfront)
    rw [LightMap.get_insert, if_neg hjk, LightMap.get_removeAll]
    split_ifs with hout
    · rfl
    · exact h.unmapped j fun hin => ((hmem j).mpr (Or.inr hin)).elim hj hout
  · intro j hj
    have hjk : j ≠ k := fun hjk => hj (hjk ▸ hfront)
    rw [hexpiry]
    split_ifs with hout
    · rfl
    · exact h.unqueued j fun hin => ((hmem j).mpr (Or.inr hin)).elim hj hout
  · intro j note hnote hj
    have hjk : j ≠ k := fun hjk => hj (hjk ▸ hfront)
    simp only [if_neg hjk] at hnote
    split_ifs at hnote with hout
    rw [hsame.2]
    exact h.expired j note hnote fun hin => ((hmem j).mpr (Or.inr hin)).elim hj hout

omit [LawfulPriorityQueue K Instantᵒᵈ Q] in
theorem evicts_iff {c' : LightCacheInner (LruPolicyInner K Q) K V} {j : K}
    (hok : c.policy.prune rd.tick c.map = .ok (s₁, map₁)) (h : s₁.arena.Lists ks)
    (h' : c'.policy.arena.Lists ks') (hks : promote ks k = ks' ++ out) (hjk : j ≠ k) :
    evicts c rd c' j = true ↔ j ∈ out := by
  have hmem := mem_or_mem_cut hks (j := j)
  have hout := not_mem_cut hks h.nodup (j := j)
  rw [or_iff_right hjk] at hmem
  simp only [evicts, hok, h.mem_idxOf, h'.mem_idxOf, decide_eq_true_eq]
  tauto

/-- A call. A `get` returns what the map holds after the prune. -/
theorem Noted.call (h : Noted ⟨s₁, map₁⟩ ks fun j => (notes j).map (Note.see (rd.tick 0)))
    (hok : c.policy.prune rd.tick c.map = .ok (s₁, map₁)) (op : Op K V)
    (hfits : ∀ k v d, op = .insert k v → s₁.ttl = some d → rd.now + d ≤ Instant.max) :
    ∃ outcome c' ks', c.call rd op = .ok (outcome, c') ∧ c'.policy.SameSettings s₁ ∧
      Noted c' ks' (takeNote c (rd, op) c' notes) ∧
      ∀ k, op = .get k → outcome = .returned (map₁.get k) := by
  cases op with
  | get k =>
    obtain ⟨s', hcall, hsame, hlists, hexpiry⟩ := call_get hok h.lists k
    refine ⟨_, _, _, hcall, hsame, h.reorder hsame hlists (fun j => ?_) hexpiry, ?_⟩
    · split_ifs with hk
      · rw [mem_promote]
        exact or_iff_right_of_imp fun hj => hj ▸ hk
      · rfl
    · intro _ heq
      cases heq
      rfl
  | insert k v =>
    obtain ⟨out, s', ks', hcall, hsame, hlists, hks, hk, -, hexpiry⟩ :=
      call_insert hok h.lists (fun d hd => hfits k v d rfl hd) k v
    refine ⟨_, _, ks', hcall, hsame, ?_, by simp⟩
    convert h.insert (v := v) hsame hlists hks hk rd.now hexpiry using 1
    funext j
    simp only [takeNote]
    by_cases hjk : j = k
    · rw [if_pos hjk, if_pos hjk]
    · have hevicts : evicts c rd ⟨s', ((map₁.removeAll out).insert k v).2⟩ j = true ↔ j ∈ out :=
        evicts_iff hok h.lists hlists hks hjk
      simp only [if_neg hjk, hevicts]
  | remove k =>
    obtain ⟨s', hcall, hsame, hlists, hexpiry⟩ := call_remove hok h.lists k
    exact ⟨_, _, _, hcall, hsame, h.remove hsame hlists hexpiry, by simp⟩
  | prune => exact ⟨_, _, _, call_prune hok, ⟨rfl, rfl⟩, h, by simp⟩

/-! ## Runs -/

/-- An operation. A `get` finds what the notes say, unless that expires in its own prune. -/
theorem Noted.step (h : Noted c ks notes) (htick : ∀ i, rd.tick i = rd.tick 0) (op : Op K V)
    (hfits : ∀ k v d, op = .insert k v → c.policy.ttl = some d → rd.now + d ≤ Instant.max) :
    ∃ outcome c' ks', c.call rd op = .ok (outcome, c') ∧ c'.policy.SameSettings c.policy ∧
      Noted c' ks' (takeNote c (rd, op) c' notes) ∧
      ∀ k, op = .get k → ∃ r, outcome = .returned r ∧
        ∀ v, r = some v ↔ ∃ note, notes k = some note ∧ note.value = v ∧
          note.Covers c.policy.ttl (rd.tick 0 :: note.seen) := by
  obtain ⟨ks₁, s₁, map₁, hok, hsame₁, h₁⟩ := h.prune htick
  obtain ⟨outcome, c', ks', hcall, hsame, h', hresult⟩ :=
    h₁.call hok op fun k v d hop hd => hfits k v d hop (hsame₁.2.symm.trans hd)
  refine ⟨outcome, c', ks', hcall, hsame.trans hsame₁, h', ?_⟩
  intro k hk
  refine ⟨map₁.get k, hresult k hk, ?_⟩
  intro v
  have hget : map₁.get k = some v ↔ ∃ note, (notes k).map (Note.see (rd.tick 0)) = some note ∧
      note.value = v ∧ note.Covers s₁.ttl note.seen := h₁.get_eq_some
  rw [hget, hsame₁.2]
  constructor
  · intro hnoted
    obtain ⟨_, hseen, hv, hcovers⟩ := hnoted
    obtain ⟨note, hnote, rfl⟩ := Option.map_eq_some_iff.mp hseen
    exact ⟨note, hnote, hv, hcovers⟩
  · intro hnoted
    obtain ⟨note, hnote, hv, hcovers⟩ := hnoted
    exact ⟨note.see (rd.tick 0), by rw [hnote]; rfl, hv, hcovers⟩

theorem Noted.run (h : Noted c ks notes) {calls : List (Readings × Op K V)} {clock : Instant}
    (hsteady : Steady clock calls)
    (hfits : ∀ call ∈ calls, ∀ k v d, call.2 = .insert k v → c.policy.ttl = some d →
      call.1.now + d ≤ Instant.max) :
    ∃ c' ks' notes', Trace.run noteStep (c, notes) calls = some (c', notes') ∧
      c'.policy.SameSettings c.policy ∧ Noted c' ks' notes' := by
  induction calls generalizing c ks notes clock with
  | nil => exact ⟨c, ks, notes, rfl, ⟨rfl, rfl⟩, h⟩
  | cons call calls ih =>
    obtain ⟨rd, op⟩ := call
    obtain ⟨hsingle, -, -, hsteady⟩ := hsteady
    have htick : ∀ i, rd.tick i = rd.tick 0 := Readings.tick_eq hsingle
    obtain ⟨outcome, c₁, ks₁, hcall, hsame, h₁, -⟩ :=
      h.step htick op (hfits _ List.mem_cons_self)
    have hstep : c.step (rd, op) = some c₁ := by simp only [LightCacheInner.step, hcall]
    obtain ⟨c', ks', notes', hrun, hsame', h'⟩ := ih h₁ hsteady
      fun call hcall k v d hop hd =>
        hfits call (List.mem_cons_of_mem _ hcall) k v d hop (hsame.2.symm.trans hd)
    exact ⟨c', ks', notes', Trace.run_cons_eq_some.mpr
      ⟨_, Trace.recording_eq_some.mpr ⟨hstep, rfl⟩, hrun⟩, hsame'.trans hsame, h'⟩

end Noted

/-- **The LRU stores agree, and expiry is exact.** After any run of a steady clock, the map, the
arena and the queue hold the same keys, and the queue has the expiry of the last insert of each. A
`get` at `t` returns what was inserted last, unless that was removed or evicted since, or `t` or
the reading of a prune pass since is after its expiry. -/
theorem lru_expiry_exact [LawfulPriorityQueue K Instantᵒᵈ Q] (capacity : ℕ) (hcap : 1 < capacity)
    (ttl : Option Duration) (n : ℕ+) (hasher : K → UInt64) (calls : List (Readings × Op K V))
    (hsteady : Steady 0 calls)
    (hfits : ∀ call ∈ calls, ∀ k v d, call.2 = .insert k v → ttl = some d →
      call.1.now + d ≤ Instant.max) :
    ∃ (c : LightCacheInner (LruPolicyInner K Q) K V) (notes : K → Option (Note V)),
      Trace.run noteStep
        (LightCacheInner.fromParts (LruPolicyInner.new capacity hcap ttl) n hasher, fun _ => none)
        calls = some (c, notes) ∧
      (∀ k, (c.map.get k).isSome ↔ k ∈ c.policy.arena.idxOf) ∧
      (∀ d, ttl = some d →
        (∀ k, (c.policy.expiry k).isSome ↔ k ∈ c.policy.arena.idxOf) ∧
        ∀ k ∈ c.policy.arena.idxOf, ∃ note, notes k = some note ∧
          c.policy.expiry k = some (note.stamp + d)) ∧
      ∀ t now k, ∃ r c', c.call (.single t now) (.get k) = .ok (.returned r, c') ∧
        ∀ v, r = some v ↔ ∃ note, notes k = some note ∧ note.value = v ∧
          note.Covers ttl (t :: note.seen) := by
  have hnew : (LruPolicyInner.new capacity hcap ttl : LruPolicyInner K Q).ttl = ttl := ttl_new ..
  obtain ⟨c, ks, notes, hrun, hsame, h⟩ :=
    (noted_fromParts (K := K) (V := V) (Q := Q) capacity hcap ttl n hasher).run hsteady
      fun call hcall k v d hop hd => hfits call hcall k v d hop (hnew.symm.trans hd)
  have httl : c.policy.ttl = ttl := hsame.2.trans hnew
  refine ⟨c, notes, hrun, h.mirror, ?_, ?_⟩
  · intro d hd
    refine ⟨h.queued (httl.trans hd), ?_⟩
    intro k hk
    obtain ⟨note, hnote, -, hexpiry, -⟩ := h.entry k (h.lists.mem_idxOf.mp hk)
    exact ⟨note, hnote, by rw [hexpiry, httl, hd]; rfl⟩
  · intro t now k
    have hsingle : Readings.single t now = .single t now := rfl
    obtain ⟨outcome, c', ks', hcall, -, -, hresult⟩ :=
      h.step (Readings.tick_eq hsingle) (.get k) (by simp)
    obtain ⟨r, rfl, hr⟩ := hresult k rfl
    rw [httl] at hr
    exact ⟨r, c', hcall, hr⟩

end LruExpiry

/-- A time to live of 5, and a prune at 3. Key 1, which was inserted at 0, is found at 5. -/
theorem lru_expiry_exact_two_inserts :
    ∃ (c c' : LightCacheInner (LruPolicyInner ℕ (SortedQueue ℕ Instantᵒᵈ)) ℕ ℕ)
      (notes : ℕ → Option (Note ℕ)),
      Trace.run noteStep
        (LightCacheInner.fromParts (LruPolicyInner.new 2 (by decide) (some 5)) 1 fun _ => 0,
          fun _ => none)
        [(.single 0 0, .insert 1 10), (.single 1 2, .insert 2 20), (.single 3 3, .prune)] =
          some (c, notes) ∧
      notes 1 = some { stamp := 0, value := 10, seen := [3, 1] } ∧
      c.policy.expiry 1 = some 5 ∧ c.call (.single 5 6) (.get 1) = .ok (.returned (some 10), c') ∧
      (∀ k, (c.map.get k).isSome ↔ k ∈ c.policy.arena.idxOf) := by
  obtain ⟨c, notes, hrun, hmirror, hqueue, hget⟩ :=
    @lru_expiry_exact ℕ ℕ (SortedQueue ℕ Instantᵒᵈ) _ _ _ 2 (by decide) (some 5) 1 (fun _ => 0)
      [(.single 0 0, .insert 1 10), (.single 1 2, .insert 2 20), (.single 3 3, .prune)]
      (by simp [Steady, Readings.single]) (by simp [Instant.max, Readings.single])
  obtain ⟨rfl, rfl⟩ := Prod.mk.inj (Option.some.inj hrun)
  obtain ⟨r, c', hcall, hr⟩ := hget 5 6 1
  obtain rfl := (hr 10).mpr ⟨{ stamp := 0, value := 10, seen := [3, 1] }, by decide, rfl, by
    intro _ heq
    cases heq
    decide⟩
  exact ⟨_, c', _, hrun, by decide, by decide, hcall, hmirror⟩

end LightCache
