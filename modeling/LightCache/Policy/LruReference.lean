import LightCache.Policy.LruCapacity
import LightCache.Policy.LruQueue
import LightCache.Policy.Reference
import LightCache.Policy.SortedQueue

/-!
# The LRU cache is its reference cache

The arena has the keys of the reference cache in the same order, the queue its expiries and the map
its values. So the cache gives the same answers, as long as the arena knows its tail and no expiry
overflows.

Main results: `lru_refines_reference`, and `lru_answers_eq`: neither the queue, nor how it breaks
ties, nor the hash function or the shards can be told from the answers.
-/

namespace LightCache

open LruPolicyInner

section LruReference

variable {K V Q : Type} [DecidableEq K] [PriorityQueue K Instantᵒᵈ Q]

/-- The cache holds what the reference cache holds. -/
structure LruMirrors {capacity : ℕ} {ttl : Option Duration}
    (c : LightCacheInner (LruPolicyInner K Q) K V) (r : Reference K V (.lru capacity ttl)) :
    Prop where
  capacity : c.policy.capacity = capacity
  ttl : c.policy.ttl = ttl
  bounded : Bounded c r.keys
  value : ∀ k, c.map.get k = r.get k
  expiry : ∀ k, c.policy.expiry k = (r.entries.lookup k).bind Item.expires

variable {capacity : ℕ} {ttl : Option Duration} {c c' : LightCacheInner (LruPolicyInner K Q) K V}
variable {r : Reference K V (.lru capacity ttl)} {s₁ : LruPolicyInner K Q} {map₁ : LightMap K V}
variable {rd : Readings} {tick : ℕ → Instant} {t : Instant} {k : K} {v : V} {outcome : Outcome V}

omit [PriorityQueue K Instantᵒᵈ Q] in
theorem lruMirrors_fromParts [PriorityQueue K Instantᵒᵈ Q] [LawfulPriorityQueue K Instantᵒᵈ Q]
    (hcap : 1 < capacity) (n : ℕ+) (hasher : K → UInt64) :
    LruMirrors (LightCacheInner.fromParts (LruPolicyInner.new capacity hcap ttl) n hasher :
      LightCacheInner (LruPolicyInner K Q) K V) (Reference.empty (.lru capacity ttl)) where
  capacity := rfl
  ttl := ttl_new ..
  bounded := bounded_fromParts capacity hcap ttl n hasher
  value k := LightMap.get_empty k n hasher
  expiry k := by
    cases ttl with
    | none => rfl
    | some d =>
      show (PriorityQueue.priority (PriorityQueue.new : Q) k).map OrderDual.ofDual = none
      rw [LawfulPriorityQueue.priority_new]
      rfl

theorem eq_of_step {call : Readings × Op K V} {c₁ : LightCacheInner (LruPolicyInner K Q) K V}
    (hcall : c.call call.1 call.2 = .ok (outcome, c')) (hstep : c.step call = some c₁) :
    c₁ = c' := by
  simp only [LightCacheInner.step, hcall] at hstep
  exact (Option.some.inj hstep).symm

/-! ## Prune -/

variable [LawfulPriorityQueue K Instantᵒᵈ Q]

omit [LawfulPriorityQueue K Instantᵒᵈ Q] in
theorem LruMirrors.ttl_ne_none (h : LruMirrors c r) {e : Instant}
    (he : c.policy.expiry k = some e) : ttl ≠ none := by
  intro hnone
  have hexpiring : c.policy.expiring = none := by
    have httl : c.policy.expiring.map Prod.fst = none := h.ttl.trans hnone
    exact Option.map_eq_none_iff.mp httl
  rw [LruPolicyInner.expiry, hexpiring] at he
  cases he

theorem LruMirrors.prune (h : LruMirrors c r) (htick : ttl ≠ none → ∀ i, tick i = t) :
    ∃ s₁ map₁, c.policy.prune tick c.map = .ok (s₁, map₁) ∧ LruMirrors ⟨s₁, map₁⟩ (r.prune t) := by
  obtain ⟨dead, s₁, hok, hpruned, hlapsed⟩ := prune_exact h.bounded.lists tick c.map
  obtain ⟨ks₁, s₁', map₁, hok', -, -, hbounded⟩ := h.bounded.prune tick
  obtain ⟨rfl, rfl⟩ := Prod.mk.inj (Except.ok.inj (hok.symm.trans hok'))
  -- An entry is alive at `t` exactly if the loop does not drop its key.
  have halive (k : K) (item : Item V) (hk : r.entries.lookup k = some item) :
      item.alive t = decide (k ∉ dead) := by
    have hexpiry : c.policy.expiry k = item.expires := by rw [h.expiry, hk]; rfl
    rw [Bool.eq_iff_iff, decide_eq_true_eq, Item.alive, Option.all_eq_true]
    constructor
    · intro hle hdead
      obtain ⟨e, j, he, hlt⟩ := hlapsed.expired k hdead
      have hte := hle e (hexpiry.symm.trans he)
      rw [htick (h.ttl_ne_none he)] at hlt
      exact absurd hlt (Nat.not_lt_of_le (of_decide_eq_true hte))
    · intro hdead e he
      obtain ⟨j, hj⟩ := hlapsed.alive
      have hte := hj k e (by rw [hlapsed.expiry, if_neg hdead, hexpiry, he])
      rw [htick (h.ttl_ne_none (hexpiry.trans he))] at hte
      exact decide_eq_true hte
  have hlookup (k : K) : (r.prune t).entries.lookup k =
      if k ∈ dead then none else r.entries.lookup k := by
    show (r.entries.restrict _).lookup k = _
    rw [AList.lookup_restrict]
    cases hk : r.entries.lookup k with
    | none => exact (ite_self none).symm
    | some item =>
      rw [Option.filter_some, halive k item hk]
      simp only [decide_eq_true_eq, ite_not]
  have hkeys : (r.prune t).keys = ks₁ := by
    rw [hbounded.lists.unique hpruned.lists, h.bounded.lists.nodup.sdiff_eq_filter]
    exact AList.keys_restrict halive
  refine ⟨s₁, _, hok, hpruned.capacity.trans h.capacity, hpruned.ttl.trans h.ttl, ?_, ?_, ?_⟩
  · rw [hkeys]
    exact hbounded
  · intro k
    show (c.map.removeAll dead).get k = _
    rw [LightMap.get_removeAll, Reference.get, hlookup, h.value]
    split_ifs <;> rfl
  · intro k
    show s₁.expiry k = _
    rw [hlapsed.expiry, hlookup, h.expiry]
    split_ifs <;> rfl

/-! ## The rest of an operation -/

omit [LawfulPriorityQueue K Instantᵒᵈ Q] in
theorem LruMirrors.get (h : LruMirrors ⟨s₁, map₁⟩ r)
    (hok : c.policy.prune rd.tick c.map = .ok (s₁, map₁)) (hne : r.keys ≠ [k]) :
    ∃ c', c.call rd (.get k) = .ok (.returned (r.get k), c') ∧ LruMirrors c' (r.use k) := by
  obtain ⟨s', hcall, hsame, hlists, hexpiry⟩ := call_get hok h.bounded.lists k
  obtain ⟨c', ks', hstep, -, hbounded⟩ := h.bounded.get hok hne
  obtain rfl := eq_of_step hcall hstep
  have hkeys : (r.use k).keys = ks' := by
    rw [hbounded.lists.unique hlists]
    show (r.entries.touch k).keys = _
    rw [AList.keys_touch]
    exact if_congr AList.mem_keys rfl rfl
  have hlookup (j : K) : (r.use k).entries.lookup j = r.entries.lookup j := AList.lookup_touch
  refine ⟨_, by rw [hcall, ← h.value], hsame.1.trans h.capacity, hsame.2.trans h.ttl, ?_, ?_, ?_⟩
  · rw [hkeys]
    exact hbounded
  · intro j
    rw [Reference.get, hlookup]
    exact h.value j
  · intro j
    rw [hlookup, ← h.expiry]
    exact hexpiry j

/-- An insert that has no room for all keys drops the last one. -/
theorem LruMirrors.insert (h : LruMirrors ⟨s₁, map₁⟩ r)
    (hok : c.policy.prune rd.tick c.map = .ok (s₁, map₁)) (hne : r.keys ≠ [k])
    (hfits : ∀ d, ttl = some d → rd.now + d ≤ Instant.max) :
    ∃ c', c.call rd (.insert k v) = .ok (.returned (r.get k), c') ∧
      LruMirrors c' (r.insert rd.now k v) := by
  have hfits : ∀ d, s₁.ttl = some d → rd.now + d ≤ Instant.max := fun d hd =>
    hfits d (h.ttl.symm.trans hd)
  obtain ⟨out, s', ks', hcall, hsame, hlists, hks, hk, hout, hexpiry⟩ :=
    call_insert hok h.bounded.lists hfits k v
  obtain ⟨c', ks₁, out₁, hstep, -, hbounded, hks₁, -, hfull⟩ :=
    h.bounded.insert (v := v) hok hne hfits
  obtain rfl := eq_of_step hcall hstep
  obtain rfl : ks₁ = ks' := hbounded.lists.unique hlists
  obtain rfl : out₁ = out := List.append_cancel_left (hks₁.symm.trans hks)
  -- At most one key is evicted, and the reference cache cuts off as much.
  have hcut : (promote r.keys k).take capacity = ks₁ := by
    have hlen : ks₁.length ≤ capacity := by
      rw [← h.capacity, ← hsame.1]
      exact hbounded.length_le
    rcases hout with rfl | ⟨victim, rfl, hlt⟩
    · rw [hks, List.append_nil]
      exact List.take_of_length_le hlen
    · have hlt : capacity < (promote r.keys k).length := h.capacity ▸ hlt
      rw [hks, List.length_append, List.length_singleton] at hlt
      rw [hks, List.take_append_of_le_length (Nat.le_of_lt_succ hlt)]
      exact List.take_of_length_le hlen
  have hmem (j : K) : j ∈ ks₁ ∨ j ∈ out₁ ↔ j = k ∨ j ∈ r.keys := mem_or_mem_cut hks
  have hcutmem (j : K) : j ∈ ks₁ → j ∉ out₁ := not_mem_cut hks h.bounded.lists.nodup
  have hlookup (j : K) : (r.insert rd.now k v).entries.lookup j = if j ∈ out₁ then none else
      if j = k then some { value := v, expires := ttl.map (rd.now + ·) }
      else r.entries.lookup j := by
    show ((r.entries.insert k _).first capacity).lookup j = _
    rw [AList.lookup_first, AList.keys_insert, AList.lookup_insert_ite]
    change (if j ∈ (promote r.keys k).take capacity then _ else _) = _
    rw [hcut]
    by_cases hj : j ∈ ks₁
    · rw [if_pos hj, if_neg (hcutmem j hj)]
      rfl
    · rw [if_neg hj]
      split_ifs with hjout hjk
      · rfl
      -- The new key is in front, so it is not the one cut off.
      · exact absurd ((hmem j).mpr (Or.inl hjk)) (not_or.mpr ⟨hj, hjout⟩)
      · have hnot : j ∉ r.entries := fun hin =>
          ((hmem j).mpr (Or.inr (AList.mem_keys.mp hin))).elim hj hjout
        exact (AList.lookup_eq_none.mpr hnot).symm
  have hget : (map₁.removeAll out₁).get k = r.get k := by
    rw [LightMap.get_removeAll, if_neg hk]
    exact h.value k
  refine ⟨_, hget ▸ hcall, hsame.1.trans h.capacity, hsame.2.trans h.ttl, ?_, ?_, ?_⟩
  · have hkeys : (r.insert rd.now k v).keys = ks₁ := by
      show ((r.entries.insert k _).first capacity).keys = _
      rw [AList.keys_first, AList.keys_insert]
      exact hcut
    rw [hkeys]
    exact hbounded
  · intro j
    show ((map₁.removeAll out₁).insert k v).2.get j = _
    rw [LightMap.get_insert, LightMap.get_removeAll, Reference.get, hlookup]
    have hvalue : map₁.get j = (r.entries.lookup j).map Item.value := h.value j
    by_cases hjk : j = k
    · rw [if_pos hjk, if_pos hjk, if_neg (hjk ▸ hk)]
      rfl
    · rw [if_neg hjk, if_neg hjk, hvalue]
      split_ifs <;> rfl
  · intro j
    have hj := h.expiry j
    have httl : s₁.ttl = ttl := h.ttl
    rw [hlookup]
    refine (hexpiry j).trans ?_
    rw [httl]
    split_ifs
    · rfl
    · rfl
    · exact hj

theorem LruMirrors.remove (h : LruMirrors ⟨s₁, map₁⟩ r)
    (hok : c.policy.prune rd.tick c.map = .ok (s₁, map₁)) :
    ∃ c', c.call rd (.remove k) = .ok (.returned (r.get k), c') ∧ LruMirrors c' (r.remove k) := by
  obtain ⟨s', hcall, hsame, hlists, hexpiry⟩ := call_remove hok h.bounded.lists k
  obtain ⟨c', ks', hstep, -, hbounded⟩ := h.bounded.remove (k := k) hok
  obtain rfl := eq_of_step hcall hstep
  have hkeys : (r.remove k).keys = ks' := by
    rw [hbounded.lists.unique hlists]
    exact AList.keys_erase k r.entries
  have hlookup (j : K) : (r.remove k).entries.lookup j =
      if j = k then none else r.entries.lookup j := AList.lookup_erase_ite
  refine ⟨_, by rw [hcall, ← h.value], hsame.1.trans h.capacity, hsame.2.trans h.ttl, ?_, ?_, ?_⟩
  · rw [hkeys]
    exact hbounded
  · intro j
    have hj : map₁.get j = (r.entries.lookup j).map Item.value := h.value j
    show (map₁.remove k).2.get j = _
    rw [LightMap.get_remove, Reference.get, hlookup, hj]
    split_ifs <;> rfl
  · intro j
    have hj := h.expiry j
    rw [hlookup]
    refine (hexpiry j).trans ?_
    split_ifs
    · rfl
    · exact hj

/-! ## Runs -/

omit [PriorityQueue K Instantᵒᵈ Q] [LawfulPriorityQueue K Instantᵒᵈ Q] in
theorem keys_ne_of_moves {op : Op K V} (h : r.movesOnly (rd, op) = false)
    (hop : (Rules.lru capacity ttl).moves op = some k) : (r.prune (rd.tick 0)).keys ≠ [k] := by
  simpa [Reference.movesOnly, hop] using h

/-- An operation that does not move the only entry gives the answer of the reference cache. -/
theorem LruMirrors.step (h : LruMirrors c r) {op : Op K V}
    (htick : ttl ≠ none → ∀ i, rd.tick i = rd.tick 0)
    (hfits : ∀ k v d, op = .insert k v → ttl = some d → rd.now + d ≤ Instant.max)
    (hmoves : r.movesOnly (rd, op) = false) :
    (c.answer (rd, op)).1 = (r.call (rd, op)).1 ∧
      LruMirrors (c.answer (rd, op)).2 (r.call (rd, op)).2 := by
  obtain ⟨s₁, map₁, hok, h₁⟩ := h.prune htick
  suffices hcall : ∃ c', c.call rd op =
      .ok (.returned ((r.prune (rd.tick 0)).apply rd.now op).1, c') ∧
      LruMirrors c' ((r.prune (rd.tick 0)).apply rd.now op).2 by
    obtain ⟨c', hcall, h'⟩ := hcall
    simp only [LightCacheInner.answer, hcall]
    exact ⟨rfl, h'⟩
  cases op with
  | get k => exact h₁.get hok (keys_ne_of_moves hmoves rfl)
  | insert k v =>
    exact h₁.insert hok (keys_ne_of_moves hmoves rfl) fun d hd => hfits k v d rfl hd
  | remove k => exact h₁.remove hok
  | prune => exact ⟨⟨s₁, map₁⟩, call_prune hok, h₁⟩

/-- What a run needs to be that of the reference cache: if there is a time to live, every prune pass
reads the clock once, and no expiry overflows; and no operation moves the only entry that its prune
leaves. -/
structure LruRegular (r : Reference K V (.lru capacity ttl)) (calls : List (Readings × Op K V)) :
    Prop where
  single : ttl ≠ none → ∀ call ∈ calls, call.1 = .single (call.1.tick 0) call.1.now
  fits : ∀ call ∈ calls, ∀ k v d, call.2 = .insert k v → ttl = some d →
    call.1.now + d ≤ Instant.max
  moves : Trace.Each Reference.step (fun r call => r.movesOnly call = false) r calls

omit [PriorityQueue K Instantᵒᵈ Q] [LawfulPriorityQueue K Instantᵒᵈ Q] in
theorem LruRegular.tail {call : Readings × Op K V} {calls : List (Readings × Op K V)}
    (h : LruRegular r (call :: calls)) : LruRegular (r.call call).2 calls where
  single httl call hcall := h.single httl call (List.mem_cons_of_mem _ hcall)
  fits call hcall := h.fits call (List.mem_cons_of_mem _ hcall)
  moves := h.moves.2 _ rfl

/-- A regular run is that of the reference cache. -/
theorem LruMirrors.outputs (h : LruMirrors c r) {calls : List (Readings × Op K V)}
    (hcalls : LruRegular r calls) :
    (Trace.outputs LightCacheInner.answer c calls).1 = (Trace.outputs Reference.call r calls).1 ∧
      LruMirrors (Trace.outputs LightCacheInner.answer c calls).2
        (Trace.outputs Reference.call r calls).2 := by
  have houtputs : (Trace.outputs LightCacheInner.answer c calls).1 =
      (Trace.outputs Reference.call r calls).1 ∧
      (LruMirrors (Trace.outputs LightCacheInner.answer c calls).2
        (Trace.outputs Reference.call r calls).2 ∧
      LruRegular (Trace.outputs Reference.call r calls).2 []) := by
    refine Trace.outputs_eq_of_rest (R := fun calls c r => LruMirrors c r ∧ LruRegular r calls) ?_
      ⟨h, hcalls⟩
    intro c r call calls hboth
    obtain ⟨h, hcalls⟩ := hboth
    obtain ⟨hanswer, h'⟩ := h.step
      (fun httl => Readings.tick_eq (hcalls.single httl call List.mem_cons_self))
      (hcalls.fits call List.mem_cons_self) hcalls.moves.1
    exact ⟨hanswer, h', hcalls.tail⟩
  exact ⟨houtputs.1, houtputs.2.1⟩

/-- **The LRU cache refines its reference cache.** Every regular run gives the same answers, and
leaves the same keys in the same order and the same values. -/
theorem lru_refines_reference (capacity : ℕ) (hcap : 1 < capacity) (ttl : Option Duration) (n : ℕ+)
    (hasher : K → UInt64) (calls : List (Readings × Op K V))
    (hcalls : LruRegular (Reference.empty (.lru capacity ttl)) calls) :
    let code := Trace.outputs LightCacheInner.answer
      (LightCacheInner.fromParts (LruPolicyInner.new capacity hcap ttl : LruPolicyInner K Q) n
        hasher) calls
    let reference := Trace.outputs Reference.call (Reference.empty (.lru capacity ttl)) calls
    code.1 = reference.1 ∧ code.2.policy.arena.Lists reference.2.keys ∧
      ∀ k, code.2.map.get k = reference.2.get k := by
  obtain ⟨hanswers, h⟩ := (lruMirrors_fromParts (Q := Q) hcap n hasher).outputs hcalls
  exact ⟨hanswers, h.bounded.lists, h.value⟩

/-- **What the answers do not depend on.** Any two lawful queues, however they break ties, any two
hash functions and any two numbers of shards give the same answers. -/
theorem lru_answers_eq {Q' : Type} [PriorityQueue K Instantᵒᵈ Q']
    [LawfulPriorityQueue K Instantᵒᵈ Q'] (capacity : ℕ) (hcap : 1 < capacity)
    (ttl : Option Duration) (n n' : ℕ+) (hasher hasher' : K → UInt64)
    (calls : List (Readings × Op K V))
    (hcalls : LruRegular (Reference.empty (.lru capacity ttl)) calls) :
    (Trace.outputs LightCacheInner.answer
      (LightCacheInner.fromParts (LruPolicyInner.new capacity hcap ttl : LruPolicyInner K Q) n
        hasher) calls).1 =
    (Trace.outputs LightCacheInner.answer
      (LightCacheInner.fromParts (LruPolicyInner.new capacity hcap ttl : LruPolicyInner K Q') n'
        hasher') calls).1 :=
  ((lruMirrors_fromParts (Q := Q) hcap n hasher).outputs hcalls).1.trans
    ((lruMirrors_fromParts (Q := Q') hcap n' hasher').outputs hcalls).1.symm

end LruReference

theorem lruRegular_five_calls : LruRegular (Reference.empty (.lru 2 (some 5)) : Reference ℕ ℕ _)
    [(.single 0 0, .insert 1 10), (.single 1 1, .insert 2 20), (.single 2 2, .get 1),
      (.single 3 3, .insert 3 30), (.single 6 6, .get 2)] where
  single := by simp [Readings.single]
  fits := by simp [Readings.single, Instant.max]
  moves := by decide

/-- Room for two, and a time to live of 5. The third key takes the place of key 2, and key 1 has
expired at 6. -/
theorem lru_refines_reference_five_calls :
    (Trace.outputs LightCacheInner.answer
      (LightCacheInner.fromParts
        (LruPolicyInner.new 2 (by decide) (some 5) : LruPolicyInner ℕ (SortedQueue ℕ Instantᵒᵈ)) 1
        fun _ => 0)
      [(.single 0 0, .insert 1 10), (.single 1 1, .insert 2 20), (.single 2 2, .get 1),
        (.single 3 3, .insert 3 30), (.single 6 6, .get 2)]).1 =
      [.ok (.returned none), .ok (.returned none), .ok (.returned (some 10)),
        .ok (.returned none), .ok (.returned none)] :=
  (lru_refines_reference 2 (by decide) (some 5) 1 (fun _ => 0) _ lruRegular_five_calls).1

/-- One shard, or three and another hash function. -/
theorem lru_answers_eq_five_calls :
    (Trace.outputs LightCacheInner.answer
      (LightCacheInner.fromParts
        (LruPolicyInner.new 2 (by decide) (some 5) : LruPolicyInner ℕ (SortedQueue ℕ Instantᵒᵈ)) 1
        fun _ => 0)
      [(.single 0 0, .insert 1 10), (.single 1 1, .insert 2 20), (.single 2 2, .get 1),
        (.single 3 3, .insert 3 30), (.single 6 6, .get 2)]).1 =
    (Trace.outputs LightCacheInner.answer
      (LightCacheInner.fromParts
        (LruPolicyInner.new 2 (by decide) (some 5) : LruPolicyInner ℕ (SortedQueue ℕ Instantᵒᵈ)) 3
        fun k => k.toUInt64)
      [(.single 0 0, .insert 1 10), (.single 1 1, .insert 2 20), (.single 2 2, .get 1),
        (.single 3 3, .insert 3 30), (.single 6 6, .get 2)]).1 :=
  lru_answers_eq 2 (by decide) (some 5) 1 3 _ _ _ lruRegular_five_calls

end LightCache
