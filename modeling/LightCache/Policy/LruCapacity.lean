import LightCache.Lib.Trace
import LightCache.Policy.LruOrder
import LightCache.Policy.SortedQueue

/-!
# The capacity of an LRU cache

The bound holds as long as the arena knows its tail, since `evict` finds its victim there.
`move_to_head` loses the tail of a list of one node, so the bound needs that no operation
touches the only key that its prune leaves. It also needs that no insert panics between
tracking its key and evicting.

Main result: `lru_bounded`. Without the conditions the bound fails: `lru_unbounded`.
-/

namespace LightCache

open LruPolicyInner

/-- The key an operation uses, for the recency order. -/
def Op.uses {K V : Type} : Op K V → Option K
  | .get key => some key
  | .insert key _ => some key
  | .remove _ => none
  | .prune => none

section LruCapacity

variable {K V Q : Type} [DecidableEq K] [PriorityQueue K Instantᵒᵈ Q]
variable {c c' : LightCacheInner (LruPolicyInner K Q) K V} {rd : Readings} {op : Op K V}

/-- The operation touches the only node that its prune leaves in the arena. -/
def touchesOnlyNode (c : LightCacheInner (LruPolicyInner K Q) K V) (rd : Readings)
    (op : Op K V) : Bool :=
  match op.uses, c.policy.prune rd.tick c.map with
  | some key, .ok (s₁, _) => s₁.arena.len = 1 ∧ key ∈ s₁.arena.idxOf
  | _, _ => false

/-- If the operation is an insert, the expiry it computes is an `Instant`. -/
def expiryFits (c : LightCacheInner (LruPolicyInner K Q) K V) (rd : Readings)
    (op : Op K V) : Bool :=
  match op, c.policy.ttl with
  | .insert _ _, some d => rd.now + d ≤ Instant.max
  | _, _ => true

/-- What the bound needs of a call. -/
def KeepsTail (c : LightCacheInner (LruPolicyInner K Q) K V) (call : Readings × Op K V) : Prop :=
  touchesOnlyNode c call.1 call.2 = false ∧ expiryFits c call.1 call.2 = true

instance (c : LightCacheInner (LruPolicyInner K Q) K V) (call : Readings × Op K V) :
    Decidable (KeepsTail c call) :=
  inferInstanceAs (Decidable (_ ∧ _))

/-- The state of a cache between calls. -/
structure Bounded (c : LightCacheInner (LruPolicyInner K Q) K V) (ks : List K) : Prop where
  lists : c.policy.arena.Lists ks
  tailKnown : c.policy.arena.TailKnown
  length_le : ks.length ≤ c.policy.capacity
  tracked : ∀ k, (c.map.get k).isSome → k ∈ ks

theorem bounded_fromParts (capacity : ℕ) (h : 1 < capacity) (ttl : Option Duration) (n : ℕ+)
    (hasher : K → UInt64) :
    Bounded (LightCacheInner.fromParts (LruPolicyInner.new capacity h ttl) n hasher :
      LightCacheInner (LruPolicyInner K Q) K V) [] where
  lists := LinkedArena.lists_new
  tailKnown := LinkedArena.tailKnown_new
  length_le := Nat.zero_le _
  tracked k hk := by simp [LightCacheInner.fromParts] at hk

omit [PriorityQueue K Instantᵒᵈ Q] in
theorem Bounded.map_len_le {ks : List K} (h : Bounded c ks) : c.map.len ≤ c.policy.capacity :=
  (LightMap.len_le_length h.tracked).trans h.length_le

/-! ## One call -/

theorem Bounded.prune {ks : List K} (h : Bounded c ks) (tick : ℕ → Instant) :
    ∃ ks₁ s₁ map₁, c.policy.prune tick c.map = .ok (s₁, map₁) ∧ s₁.ttl = c.policy.ttl ∧
      s₁.capacity = c.policy.capacity ∧ Bounded ⟨s₁, map₁⟩ ks₁ := by
  obtain ⟨dead, s₁, hok, hcap, httl, hlists, htail⟩ := prune_ok h.lists tick c.map
  refine ⟨ks.diff dead, s₁, c.map.removeAll dead, hok, httl, hcap, hlists, htail h.tailKnown,
    ?_, ?_⟩
  · rw [hcap]
    exact (List.diff_sublist ks dead).length_le.trans h.length_le
  · intro k hk
    obtain ⟨hk, hdead⟩ := LightMap.isSome_get_removeAll.mp hk
    exact List.mem_diff_of_mem (h.tracked k hk) hdead

theorem length_promote (ks : List K) (k : K) :
    (promote ks k).length = if k ∈ ks then ks.length else ks.length + 1 := by
  rw [promote, List.length_cons]
  split_ifs with hk
  · rw [List.length_erase_of_mem hk]
    exact Nat.sub_add_cancel (List.length_pos_of_mem hk)
  · rw [List.erase_of_not_mem hk]

/-- When a call does not touch the only node, its key is not the only one the prune left. -/
theorem ne_singleton {s₁ : LruPolicyInner K Q} {map₁ : LightMap K V} {ks : List K} {k : K}
    (hnot : touchesOnlyNode c rd op = false) (huses : op.uses = some k)
    (hok : c.policy.prune rd.tick c.map = .ok (s₁, map₁)) (hlists : s₁.arena.Lists ks) :
    ks ≠ [k] := by
  rintro rfl
  have hlen : s₁.arena.len = 1 := hlists.len_eq
  have hmem : k ∈ s₁.arena.idxOf := hlists.mem_idxOf.mpr (by simp)
  simp [touchesOnlyNode, huses, hok, hlen, hmem] at hnot

omit [PriorityQueue K Instantᵒᵈ Q] in
theorem expiryFits_iff {k : K} {v : V} : expiryFits c rd (.insert k v) = true ↔
    ∀ d, c.policy.ttl = some d → rd.now + d ≤ Instant.max := by
  cases hd : c.policy.ttl <;> simp [expiryFits, hd]

omit [PriorityQueue K Instantᵒᵈ Q] in
theorem expiry_le {k : K} {v : V} {d : Duration} (hexp : expiryFits c rd (.insert k v) = true)
    (hd : c.policy.ttl = some d) : rd.now + d ≤ Instant.max :=
  expiryFits_iff.mp hexp d hd

theorem tracked_insert {map : LightMap K V} {ks ks' out : List K} {k : K} (v : V)
    (h : ∀ j, (map.get j).isSome → j ∈ ks) (hks : promote ks k = ks' ++ out) (hk : k ∉ out)
    (j : K) (hj : (((map.removeAll out).insert k v).2.get j).isSome) : j ∈ ks' := by
  have hmem : j ∈ ks' ++ out ∧ j ∉ out := by
    rw [← hks, mem_promote]
    rw [LightMap.get_insert] at hj
    by_cases hjk : j = k
    · exact ⟨Or.inl hjk, hjk ▸ hk⟩
    · rw [if_neg hjk, LightMap.isSome_get_removeAll] at hj
      exact ⟨Or.inr (h j hj.1), hj.2⟩
  exact (List.mem_append.mp hmem.1).resolve_right hmem.2

/-- An insert, from the state its prune leaves: the keys it tracks afterwards, and the key it
evicts when there was no room. -/
theorem Bounded.insert {ks : List K} {s₁ : LruPolicyInner K Q} {map₁ : LightMap K V} {k : K} {v : V}
    (hok : c.policy.prune rd.tick c.map = .ok (s₁, map₁)) (h : Bounded ⟨s₁, map₁⟩ ks)
    (hne : ks ≠ [k]) (hexp : ∀ d, s₁.ttl = some d → rd.now + d ≤ Instant.max) :
    ∃ c' ks' out, c.step (rd, .insert k v) = some c' ∧ c'.policy.capacity = s₁.capacity ∧
      Bounded c' ks' ∧ promote ks k = ks' ++ out ∧ k ∉ out ∧
      (s₁.capacity < (promote ks k).length → out.length = 1) := by
  obtain ⟨out, s₂, s', hins, hcap₂, -, hlists₂, htail₂, hevict, -⟩ :=
    insert_ok hok h.lists hexp k v
  have hstep : c.step (rd, .insert k v) = some ⟨s', ((map₁.removeAll out).insert k v).2⟩ := by
    simp only [LightCacheInner.step, LightCacheInner.call, Policy.locked, hins]
    rfl
  have hle : ks.length ≤ s₁.capacity := h.length_le
  cases hevict with
  | room hroom =>
    refine ⟨_, promote ks k, [], hstep, hcap₂, ⟨hlists₂, htail₂ h.tailKnown hne, hroom, ?_⟩,
      (List.append_nil _).symm, List.not_mem_nil, fun hlt => absurd (hcap₂ ▸ hroom) (by omega)⟩
    exact tracked_insert v h.tracked (List.append_nil _).symm List.not_mem_nil
  | tailless hnone =>
    -- The arena is not empty, so the tail it knows is there.
    have hlen := hlists₂.len_eq
    rw [LinkedArena.len, htail₂ h.tailKnown hne hnone] at hlen
    simp [promote] at hlen
  | @last ks' victim _ hks hlt hcap' httl' hlists' htail' =>
    have hlen := length_promote ks k
    have hcap := s₁.one_lt_capacity
    have hvictim : k ∉ [victim] := by
      rw [List.mem_singleton]
      exact (victim_ne hks hlists₂.nodup (by omega)).symm
    refine ⟨_, ks', [victim], hstep, hcap'.trans hcap₂, ⟨hlists', htail', ?_, ?_⟩, hks, hvictim,
      fun _ => rfl⟩
    · rw [hks, List.length_append, List.length_singleton] at hlen
      rw [hcap', hcap₂]
      split_ifs at hlen <;> omega
    · exact tracked_insert v h.tracked hks hvictim

/-- An insert of a new key into a full cache trades the last key for it. -/
theorem Bounded.insert_full {ks : List K} {s₁ : LruPolicyInner K Q} {map₁ : LightMap K V} {k : K}
    {v : V} (hok : c.policy.prune rd.tick c.map = .ok (s₁, map₁)) (h : Bounded ⟨s₁, map₁⟩ ks)
    (hfull : ks.length = s₁.capacity) (hk : k ∉ ks)
    (hexp : ∀ d, s₁.ttl = some d → rd.now + d ≤ Instant.max) :
    ∃ c' ks' victim, c.step (rd, .insert k v) = some c' ∧ Bounded c' ks' ∧
      ks'.length = ks.length ∧ victim ∈ ks ∧ victim ∉ ks' ∧ k ∈ ks' := by
  have hne : ks ≠ [k] := by rintro rfl; simp at hk
  have hlen : (promote ks k).length = ks.length + 1 := by rw [length_promote, if_neg hk]
  have hnd : (promote ks k).Nodup := by
    rw [promote, List.erase_of_not_mem hk]
    exact List.nodup_cons.mpr ⟨hk, h.lists.nodup⟩
  have hfront : k ∈ promote ks k := List.mem_cons_self
  obtain ⟨c', ks', out, hstep, -, h', hks, hkout, hout⟩ := h.insert (v := v) hok hne hexp
  obtain ⟨victim, rfl⟩ := List.length_eq_one_iff.mp (hout (by omega))
  have hlast : victim ∈ promote ks k := by simp [hks]
  rw [hks, List.length_append, List.length_singleton] at hlen
  refine ⟨c', ks', victim, hstep, h', Nat.succ.inj hlen, ?_, ?_, ?_⟩
  · exact (mem_promote.mp hlast).resolve_left fun heq => hkout (by simp [heq])
  · rw [hks] at hnd
    exact fun hmem => (List.nodup_append.mp hnd).2.2 _ hmem _ (by simp) rfl
  · rw [hks] at hfront
    exact (List.mem_append.mp hfront).resolve_right hkout

theorem Bounded.get {ks : List K} {s₁ : LruPolicyInner K Q} {map₁ : LightMap K V} {k : K}
    (hok : c.policy.prune rd.tick c.map = .ok (s₁, map₁)) (h : Bounded ⟨s₁, map₁⟩ ks)
    (hne : ks ≠ [k]) :
    ∃ c' ks', c.step (rd, .get k) = some c' ∧ c'.policy.capacity = s₁.capacity ∧
      Bounded c' ks' := by
  obtain ⟨s', hget, hcap, -, hlists, htail, -⟩ := get_ok (k := k) hok h.lists
  refine ⟨⟨s', map₁⟩, if k ∈ ks then promote ks k else ks, ?_, hcap, hlists,
    htail h.tailKnown hne, ?_, ?_⟩
  · simp only [LightCacheInner.step, LightCacheInner.call, Policy.locked, hget]
    rfl
  · have hle : ks.length ≤ s₁.capacity := h.length_le
    split_ifs with hk
    · rwa [length_promote, if_pos hk, hcap]
    · rwa [hcap]
  · intro j hj
    have hjk := h.tracked j hj
    split_ifs
    · exact mem_promote.mpr (Or.inr hjk)
    · exact hjk

theorem Bounded.remove {ks : List K} {s₁ : LruPolicyInner K Q} {map₁ : LightMap K V} {k : K}
    (hok : c.policy.prune rd.tick c.map = .ok (s₁, map₁)) (h : Bounded ⟨s₁, map₁⟩ ks) :
    ∃ c' ks', c.step (rd, .remove k) = some c' ∧ c'.policy.capacity = s₁.capacity ∧
      Bounded c' ks' := by
  obtain ⟨s', hremove, hcap, -, hlists, htail, -⟩ := remove_ok (k := k) hok h.lists
  refine ⟨⟨s', (map₁.remove k).2⟩, ks.erase k, ?_, hcap, hlists, htail h.tailKnown, ?_,
    ?_⟩
  · simp only [LightCacheInner.step, LightCacheInner.call, Policy.locked, hremove]
    rfl
  · rw [hcap]
    exact List.length_erase_le.trans h.length_le
  · intro j hj
    rw [LightMap.get_remove] at hj
    by_cases hjk : j = k
    · simp [hjk] at hj
    · rw [if_neg hjk] at hj
      exact (List.mem_erase_of_ne hjk).mpr (h.tracked j hj)

theorem Bounded.step {ks : List K} (h : Bounded c ks) {call : Readings × Op K V}
    (hcall : KeepsTail c call) :
    ∃ c' ks', c.step call = some c' ∧ c'.policy.capacity = c.policy.capacity ∧ Bounded c' ks' := by
  obtain ⟨rd, op⟩ := call
  obtain ⟨hnot, hexp⟩ := hcall
  obtain ⟨ks₁, s₁, map₁, hok, httl, hcap, h₁⟩ := h.prune rd.tick
  cases op with
  | get k =>
    obtain ⟨c', ks', hstep, hcap', h'⟩ := h₁.get hok (ne_singleton hnot rfl hok h₁.lists)
    exact ⟨c', ks', hstep, hcap'.trans hcap, h'⟩
  | insert k v =>
    obtain ⟨c', ks', -, hstep, hcap', h', -⟩ :=
      h₁.insert (v := v) hok (ne_singleton hnot rfl hok h₁.lists)
        fun d hd => expiry_le hexp (httl ▸ hd)
    exact ⟨c', ks', hstep, hcap'.trans hcap, h'⟩
  | remove k =>
    obtain ⟨c', ks', hstep, hcap', h'⟩ := h₁.remove (k := k) hok
    exact ⟨c', ks', hstep, hcap'.trans hcap, h'⟩
  | prune =>
    refine ⟨⟨s₁, map₁⟩, ks₁, ?_, hcap, h₁⟩
    simp only [LightCacheInner.step, LightCacheInner.call, Policy.locked, lockAndPrune_ok hok]
    rfl

/-! ## Runs -/

/-- **The capacity bound.** A run of calls that keep the tail meets no fault and never exceeds
the capacity, and in the state it leaves, an insert of a new key into a full cache evicts one
key. -/
theorem lru_bounded (capacity : ℕ) (hcap : 1 < capacity) (ttl : Option Duration) (n : ℕ+)
    (hasher : K → UInt64) (calls : List (Readings × Op K V))
    (hcalls : Trace.Each LightCacheInner.step KeepsTail
      (LightCacheInner.fromParts (LruPolicyInner.new capacity hcap ttl : LruPolicyInner K Q) n
        hasher)
      calls) :
    ∃ c : LightCacheInner (LruPolicyInner K Q) K V,
      Trace.run LightCacheInner.step
        (LightCacheInner.fromParts (LruPolicyInner.new capacity hcap ttl) n hasher) calls = some c ∧
      c.policy.arena.len ≤ capacity ∧ c.map.len ≤ capacity ∧
      ∀ rd k v s₁ map₁, KeepsTail c (rd, .insert k v) →
        c.policy.prune rd.tick c.map = .ok (s₁, map₁) → s₁.arena.len = capacity →
        k ∉ s₁.arena.idxOf →
        ∃ c' victim, c.step (rd, .insert k v) = some c' ∧ c'.policy.arena.len = capacity ∧
          victim ∈ s₁.arena.idxOf ∧ victim ∉ c'.policy.arena.idxOf ∧
          k ∈ c'.policy.arena.idxOf ∧ c'.map.get victim = none := by
  obtain ⟨c, hrun, hc, ks, h⟩ := Trace.exists_run
    (P := fun c => c.policy.capacity = capacity ∧ ∃ ks, Bounded c ks)
    (fun c call ⟨hc, ks, h⟩ hcall => by
      obtain ⟨c', ks', hstep, hcap', h'⟩ := h.step hcall
      exact ⟨c', hstep, hcap'.trans hc, ks', h'⟩)
    ⟨rfl, [], bounded_fromParts capacity hcap ttl n hasher⟩ hcalls
  refine ⟨c, hrun, ?_, hc ▸ h.map_len_le, ?_⟩
  · rw [h.lists.len_eq, ← hc]
    exact h.length_le
  · intro rd k v s₁ map₁ hcall hok hfull hnew
    obtain ⟨ks₁, s₁', map₁', hok', httl, hcap₁, h₁⟩ := h.prune rd.tick
    obtain ⟨rfl, rfl⟩ := Prod.mk.inj (Except.ok.inj (hok'.symm.trans hok))
    rw [h₁.lists.len_eq] at hfull
    obtain ⟨c', ks', victim, hstep, h', hlen, hmem, hout, hin⟩ :=
      h₁.insert_full (v := v) hok (by rw [hfull, hcap₁, hc]) (h₁.lists.mem_idxOf.not.mp hnew)
        fun d hd => expiry_le hcall.2 (httl ▸ hd)
    refine ⟨c', victim, hstep, ?_, h₁.lists.mem_idxOf.mpr hmem, h'.lists.mem_idxOf.not.mpr hout,
      h'.lists.mem_idxOf.mpr hin, ?_⟩
    · rw [h'.lists.len_eq, hlen, hfull]
    · exact Option.not_isSome_iff_eq_none.mp fun hsome => hout (h'.tracked victim hsome)

end LruCapacity

/-- The bound at work: three inserts with room for two. -/
theorem lru_bounded_three_inserts :
    ∃ c : LightCacheInner (LruPolicyInner ℕ (SortedQueue ℕ Instantᵒᵈ)) ℕ ℕ,
      Trace.run LightCacheInner.step
        (LightCacheInner.fromParts (LruPolicyInner.new 2 (by decide) (some 5)) 1 fun _ => 0)
        [(.single 0 0, .insert 1 10), (.single 1 1, .insert 2 20), (.single 2 2, .insert 3 30)] =
          some c ∧
      c.policy.arena.len ≤ 2 ∧ c.map.len ≤ 2 := by
  obtain ⟨c, hrun, harena, hmap, -⟩ :=
    @lru_bounded ℕ ℕ (SortedQueue ℕ Instantᵒᵈ) _ _ 2 (by decide) (some 5) 1 (fun _ => 0)
      [(.single 0 0, .insert 1 10), (.single 1 1, .insert 2 20), (.single 2 2, .insert 3 30)]
      (by decide)
  exact ⟨c, hrun, harena, hmap⟩

/-- A `get` of the only key loses the tail, and from then on nothing is evicted. -/
theorem lru_unbounded :
    ∃ c : LightCacheInner (LruPolicyInner ℕ (SortedQueue ℕ Instantᵒᵈ)) ℕ ℕ,
      Trace.run LightCacheInner.step
        (LightCacheInner.fromParts (LruPolicyInner.new 2 (by decide) none) 1 fun _ => 0)
        [(.single 0 0, .insert 1 10), (.single 1 1, .get 1), (.single 2 2, .insert 2 20),
          (.single 3 3, .insert 3 30)] = some c ∧
      c.policy.arena.len = 3 ∧ c.map.len = 3 := by
  refine ⟨_, rfl, by decide, by decide⟩

end LightCache
