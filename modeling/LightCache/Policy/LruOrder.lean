import LightCache.Policy.ArenaModels
import LightCache.Policy.Lru

/-!
# The LRU policy on lists of keys

What the lock sections of the LRU policy do, told by the list of tracked keys, last used
first: `prune` drops keys, `get` moves its key to the front, `insert` puts it there and may
evict the last one, `remove` deletes it. None of them meets a fault.

Main results: `prune_ok`, `get_ok`, `insert_ok`, `insert_overflow` and `remove_ok`.
-/

namespace LightCache

namespace LruPolicyInner

variable {K V Q : Type} [DecidableEq K] [PriorityQueue K Instantᵒᵈ Q]
variable {s s₁ : LruPolicyInner K Q} {map map₁ : LightMap K V} {arena : LinkedArena K (LruNode K)}
variable {ks : List K} {k : K} {v : V} {rd : Readings}

/-- The time to live. -/
def ttl (s : LruPolicyInner K Q) : Option Duration := s.expiring.map Prod.fst

omit [DecidableEq K] in
theorem ttl_new (capacity : ℕ) (h : 1 < capacity) (ttl : Option Duration) :
    (new capacity h ttl : LruPolicyInner K Q).ttl = ttl := by
  cases ttl <;> rfl

/-- The keys by last use after a use of `k`. -/
def promote (ks : List K) (k : K) : List K := k :: ks.erase k

theorem mem_promote {j : K} : j ∈ promote ks k ↔ j = k ∨ j ∈ ks := by
  rw [promote, List.mem_cons]
  by_cases hj : j = k
  · simp [hj]
  · simp [hj, List.mem_erase_of_ne hj]

theorem nodup_promote (h : ks.Nodup) : (promote ks k).Nodup :=
  List.nodup_cons.mpr ⟨h.not_mem_erase, h.erase k⟩

/-- Cutting keys off after a use. -/
theorem mem_or_mem_cut {ks' out : List K} (hks : promote ks k = ks' ++ out) {j : K} :
    j ∈ ks' ∨ j ∈ out ↔ j = k ∨ j ∈ ks := by
  rw [← List.mem_append, ← hks, mem_promote]

theorem not_mem_cut {ks' out : List K} (hks : promote ks k = ks' ++ out) (hnd : ks.Nodup) {j : K}
    (hj : j ∈ ks') : j ∉ out := by
  have hnd' := nodup_promote (k := k) hnd
  rw [hks] at hnd'
  exact fun hout => (List.nodup_append.mp hnd').2.2 j hj j hout rfl

theorem victim_ne {ks' : List K} {victim : K} (hks : promote ks k = ks' ++ [victim])
    (hnd : (promote ks k).Nodup) (hlen : 1 < (promote ks k).length) : victim ≠ k := by
  rintro rfl
  rw [hks, List.length_append, List.length_singleton] at hlen
  obtain ⟨j, ks'', rfl⟩ := List.exists_cons_of_length_pos (Nat.lt_of_succ_lt_succ hlen)
  rw [promote, List.cons_append, List.cons.injEq] at hks
  obtain ⟨rfl, hks⟩ := hks
  rw [promote, hks] at hnd
  simp at hnd

/-! ## Prune -/

/-- What the prune loop does to the queue, with `fuel` left and from round `i` on: it pops the items
`dead`, which have expired. -/
inductive Drained (tick : ℕ → Instant) : ℕ → ℕ → Q → List K → Q → Prop
  | fuel {i : ℕ} {pq : Q} : Drained tick 0 i pq [] pq
  | stop {fuel i : ℕ} {pq : Q}
      (h : ∀ key expiry, PriorityQueue.peek pq = some (key, expiry) →
        tick i ≤ OrderDual.ofDual expiry) :
      Drained tick (fuel + 1) i pq [] pq
  | pop {fuel i : ℕ} {pq pq' : Q} {key : K} {expiry : Instantᵒᵈ} {dead : List K}
      (hpeek : PriorityQueue.peek pq = some (key, expiry)) (hlt : OrderDual.ofDual expiry < tick i)
      (h : Drained tick fuel (i + 1) (PriorityQueue.pop pq) dead pq') :
      Drained tick (fuel + 1) i pq (key :: dead) pq'

theorem pruneLoop_ok (tick : ℕ → Instant) (h : arena.Lists ks) (fuel i : ℕ) (pq : Q)
    (map : LightMap K V) :
    ∃ dead arena' pq', pruneLoop tick fuel i arena pq map = .ok (arena', pq', map.removeAll dead) ∧
      arena'.Lists (ks.diff dead) ∧ (arena.TailKnown → arena'.TailKnown) ∧
      Drained tick fuel i pq dead pq' := by
  induction fuel generalizing arena ks i pq map with
  | zero => exact ⟨[], arena, pq, rfl, h, id, .fuel⟩
  | succ fuel ih =>
    rw [pruneLoop]
    cases hpeek : PriorityQueue.peek pq with
    | none => exact ⟨[], arena, pq, rfl, h, id, .stop (by simp [hpeek])⟩
    | some top =>
      obtain ⟨key, expiry⟩ := top
      by_cases hlt : OrderDual.ofDual expiry < tick i
      · obtain ⟨r, arena₁, hok, h₁, htail₁⟩ := h.removeItem_ok key
        obtain ⟨dead, arena', pq', hloop, h', htail, hdrained⟩ :=
          ih h₁ (i + 1) (PriorityQueue.pop pq) (map.remove key).2
        refine ⟨key :: dead, arena', pq', ?_, ?_, htail ∘ htail₁, .pop hpeek hlt hdrained⟩
        · simp only [hlt, if_true, hok]
          exact hloop
        · rw [List.diff_cons]
          exact h'
      · refine ⟨[], arena, pq, by simp only [hlt, if_false]; rfl, h, id, .stop ?_⟩
        intro key' expiry' htop
        obtain ⟨rfl, rfl⟩ := Prod.mk.inj (Option.some.inj (hpeek.symm.trans htop))
        exact Nat.le_of_not_lt hlt

/-- `s₁` is `s` with the keys `dead` dropped by a prune. -/
structure Pruned (s s₁ : LruPolicyInner K Q) (ks dead : List K) : Prop where
  capacity : s₁.capacity = s.capacity
  ttl : s₁.ttl = s.ttl
  lists : s₁.arena.Lists (ks.diff dead)
  tailKnown : s.arena.TailKnown → s₁.arena.TailKnown

/-- What a prune that drops the keys `dead` does to the queue, if there is one. -/
inductive Emptied (tick : ℕ → Instant) (s s₁ : LruPolicyInner K Q) : List K → Prop
  | plain (he : s.expiring = none) (he₁ : s₁.expiring = none) : Emptied tick s s₁ []
  | queue {ttl : Duration} {pq pq' : Q} {dead : List K} (he : s.expiring = some (ttl, pq))
      (he₁ : s₁.expiring = some (ttl, pq'))
      (h : Drained tick (PriorityQueue.len pq) 0 pq dead pq') : Emptied tick s s₁ dead

theorem prune_emptied (h : s.arena.Lists ks) (tick : ℕ → Instant) (map : LightMap K V) :
    ∃ dead s₁, s.prune tick map = .ok (s₁, map.removeAll dead) ∧ Pruned s s₁ ks dead ∧
      Emptied tick s s₁ dead := by
  unfold prune
  cases he : s.expiring with
  | none => exact ⟨[], s, rfl, ⟨rfl, rfl, h, id⟩, .plain he he⟩
  | some e =>
    obtain ⟨ttl, pq⟩ := e
    obtain ⟨dead, arena', pq', hloop, h', htail, hdrained⟩ :=
      pruneLoop_ok tick h (PriorityQueue.len pq) 0 pq map
    refine ⟨dead, { s with arena := arena', expiring := some (ttl, pq') }, ?_, ⟨rfl, ?_, h', htail⟩,
      .queue he rfl hdrained⟩
    · simp only [hloop]
      rfl
    · simp [LruPolicyInner.ttl, he]

theorem prune_ok (h : s.arena.Lists ks) (tick : ℕ → Instant) (map : LightMap K V) :
    ∃ dead s₁, s.prune tick map = .ok (s₁, map.removeAll dead) ∧ Pruned s s₁ ks dead := by
  obtain ⟨dead, s₁, hok, hpruned, -⟩ := prune_emptied h tick map
  exact ⟨dead, s₁, hok, hpruned⟩

/-! ## Using a key -/

theorem touch_ok (h : arena.Lists ks) (k : K) :
    ∃ arena', touch arena k = .ok arena' ∧
      arena'.Lists (if k ∈ ks then promote ks k else ks) ∧
      (arena.TailKnown → ks ≠ [k] → arena'.TailKnown) := by
  by_cases hk : k ∈ ks
  · obtain ⟨i, hi⟩ := h.exists_lookup hk
    obtain ⟨n, hn⟩ := h.getNode_ok hi
    obtain ⟨arena', hok, h', htail⟩ := h.moveToHead_ok hi
    refine ⟨arena', ?_, by rwa [if_pos hk], htail⟩
    rw [touch, hn]
    exact hok
  · have hnone : arena.getNode k = .ok none := LinkedArena.getNode_none (h.lookup_eq_none hk)
    exact ⟨arena, by rw [touch, hnone]; rfl, by rwa [if_neg hk], fun ht _ => ht⟩

theorem track_tracked {i : ℕ} (h : arena.Lists ks) (hi : arena.idxOf.lookup k = some i)
    (now : Instant) : track arena now k = arena.moveToHead i := by
  obtain ⟨n, hn⟩ := h.getNode_ok hi
  rw [track, hn]
  rfl

theorem track_ok (h : arena.Lists ks) (now : Instant) (k : K) :
    ∃ arena', track arena now k = .ok arena' ∧ arena'.Lists (promote ks k) ∧
      (arena.TailKnown → ks ≠ [k] → arena'.TailKnown) := by
  by_cases hk : k ∈ ks
  · obtain ⟨i, hi⟩ := h.exists_lookup hk
    obtain ⟨arena', hok, h', htail⟩ := h.moveToHead_ok hi
    exact ⟨arena', (track_tracked h hi now).trans hok, h', htail⟩
  · have hnone : arena.getNode k = .ok none := LinkedArena.getNode_none (h.lookup_eq_none hk)
    obtain ⟨arena', hok, h', htail⟩ := h.insertHead_ok hk now
    refine ⟨arena', ?_, ?_, fun ht _ => htail ht⟩
    · rw [track, hnone]
      exact hok
    · rwa [promote, List.erase_of_not_mem hk]

/-! ## Eviction -/

/-- What `evict` does to a policy that tracks `ks`: nothing, because there is room or because
the tail is lost, or the removal of the last key. -/
inductive Evicted (s : LruPolicyInner K Q) (ks : List K) : List K → LruPolicyInner K Q → Prop
  | room (h : ks.length ≤ s.capacity) : Evicted s ks [] s
  | tailless (h : s.arena.tail = none) : Evicted s ks [] s
  | last {ks' : List K} {victim : K} {s' : LruPolicyInner K Q} (hks : ks = ks' ++ [victim])
      (hlen : s.capacity < ks.length) (hcap : s'.capacity = s.capacity) (httl : s'.ttl = s.ttl)
      (h : s'.arena.Lists ks') (htail : s'.arena.TailKnown) : Evicted s ks [victim] s'

omit [PriorityQueue K Instantᵒᵈ Q] in
/-- An eviction after an insert cuts the last key off if there is no room, and that is not the
inserted one. -/
theorem Evicted.lists {s₂ s' : LruPolicyInner K Q} {out : List K}
    (hout : Evicted s₂ (promote ks k) out s') (h : s₂.arena.Lists (promote ks k)) :
    ∃ ks', s'.arena.Lists ks' ∧ promote ks k = ks' ++ out ∧ k ∉ out ∧ s'.capacity = s₂.capacity ∧
      s'.ttl = s₂.ttl ∧
      (out = [] ∨ ∃ victim, out = [victim] ∧ s₂.capacity < (promote ks k).length) := by
  cases hout with
  | room =>
    exact ⟨_, h, (List.append_nil _).symm, List.not_mem_nil, rfl, rfl, Or.inl rfl⟩
  | tailless =>
    exact ⟨_, h, (List.append_nil _).symm, List.not_mem_nil, rfl, rfl, Or.inl rfl⟩
  | @last ks' victim _ hks hlen hcap httl h' =>
    have hone := s₂.one_lt_capacity
    have hne := victim_ne hks h.nodup (hone.trans hlen)
    exact ⟨ks', h', hks, fun hk => hne (List.mem_singleton.mp hk).symm, hcap, httl,
      Or.inr ⟨victim, rfl, hlen⟩⟩

/-- The queue after `evict`. -/
def dropExpiring (expiring : Option (Duration × Q)) (out : List K) : Option (Duration × Q) :=
  expiring.map fun e => (e.1, out.foldl PriorityQueue.remove e.2)

theorem evict_ok (h : s.arena.Lists ks) (map : LightMap K V) :
    ∃ out s', s.evict map = .ok (s', map.removeAll out) ∧ Evicted s ks out s' ∧
      s'.expiring = dropExpiring s.expiring out := by
  have hnil : s.expiring = dropExpiring s.expiring ([] : List K) := by
    cases he : s.expiring <;> rfl
  unfold evict
  rw [h.len_eq]
  by_cases hlen : ks.length > s.capacity
  · rw [if_pos hlen]
    cases ht : s.arena.tail with
    | none =>
      exact ⟨[], s, by rw [LinkedArena.tailNode_none ht]; rfl, .tailless ht, hnil⟩
    | some i =>
      obtain ⟨ks', n, m, arena', hnode, rfl, hok, h', htail⟩ := h.remove_tail_ok ht
      refine ⟨[m.key], { s with
        arena := arena'
        expiring := s.expiring.map fun e => (e.1, PriorityQueue.remove e.2 m.key) }, ?_,
        .last rfl hlen rfl ?_ h' htail, rfl⟩
      · rw [hnode]
        simp only [bind, Except.bind, hok]
        rfl
      · simp only [ttl, Option.map_map]
        rfl
  · exact ⟨[], s, by rw [if_neg hlen]; rfl, .room (Nat.le_of_not_lt hlen), hnil⟩

/-! ## The operations -/

theorem get_ok (hprune : s.prune rd.tick map = .ok (s₁, map₁)) (h : s₁.arena.Lists ks) (k : K) :
    ∃ s', s.get rd k map = .ok (.table (.get k), s', map₁) ∧ s'.capacity = s₁.capacity ∧
      s'.ttl = s₁.ttl ∧ s'.arena.Lists (if k ∈ ks then promote ks k else ks) ∧
      (s₁.arena.TailKnown → ks ≠ [k] → s'.arena.TailKnown) ∧ s'.expiring = s₁.expiring := by
  obtain ⟨arena', hok, h', htail⟩ := touch_ok h k
  refine ⟨{ s₁ with arena := arena' }, ?_, rfl, rfl, h', htail, rfl⟩
  simp only [get, hprune, bind, Except.bind, hok]
  rfl

theorem insert_ok (hprune : s.prune rd.tick map = .ok (s₁, map₁)) (h : s₁.arena.Lists ks)
    (hexp : ∀ d, s₁.ttl = some d → rd.now + d ≤ Instant.max) (k : K) (v : V) :
    ∃ out s₂ s', s.insert rd k v map = .ok (.table (.insert k v), s', map₁.removeAll out) ∧
      s₂.capacity = s₁.capacity ∧ s₂.ttl = s₁.ttl ∧ s₂.arena.Lists (promote ks k) ∧
      (s₁.arena.TailKnown → ks ≠ [k] → s₂.arena.TailKnown) ∧
      Evicted s₂ (promote ks k) out s' ∧ s'.expiring = dropExpiring (s₁.expiring.map fun e =>
        (e.1, PriorityQueue.push e.2 k (OrderDual.toDual (rd.now + e.1)))) out := by
  obtain ⟨arena₂, hok, h₂, htail⟩ := track_ok h rd.now k
  cases he : s₁.expiring with
  | none =>
    obtain ⟨out, s', hevict, hout, hqueue⟩ := evict_ok (s := { s₁ with arena := arena₂ }) h₂ map₁
    refine ⟨out, { s₁ with arena := arena₂ }, s', ?_, rfl, rfl, h₂, htail, hout, ?_⟩
    · simp only [insert, hprune, bind, Except.bind, hok]
      rw [he] at hevict ⊢
      simp only [hevict]
      rfl
    · rw [hqueue]
      show dropExpiring s₁.expiring out = _
      rw [he]
      rfl
  | some e =>
    obtain ⟨d, pq⟩ := e
    have hadd : Instant.checkedAdd rd.now d = some (rd.now + d) :=
      if_pos (hexp d (by simp [ttl, he]))
    let pq' := PriorityQueue.push pq k (OrderDual.toDual (rd.now + d))
    obtain ⟨out, s', hevict, hout, hqueue⟩ :=
      evict_ok (s := { s₁ with arena := arena₂, expiring := some (d, pq') }) h₂ map₁
    refine ⟨out, { s₁ with arena := arena₂, expiring := some (d, pq') }, s', ?_, rfl, ?_, h₂,
      htail, hout, ?_⟩
    · simp only [insert, hprune, bind, Except.bind, hok, he, hadd]
      simp only [pq'] at hevict
      simp only [hevict]
      rfl
    · simp [ttl, he]
    · exact hqueue

/-- An insert whose expiry is past the last instant tracks the key, and then panics. -/
theorem insert_panicked (hprune : s.prune rd.tick map = .ok (s₁, map₁))
    (htrack : track s₁.arena rd.now k = .ok arena) {d : Duration} (hd : s₁.ttl = some d)
    (hexp : Instant.max < rd.now + d) (v : V) :
    s.insert rd k v map = .ok (.panicked, { s₁ with arena := arena }, map₁) := by
  obtain ⟨e, he, rfl⟩ := Option.map_eq_some_iff.mp hd
  obtain ⟨d, pq⟩ := e
  have hadd : Instant.checkedAdd rd.now d = none := if_neg (Nat.not_le_of_lt hexp)
  simp only [insert, hprune, bind, Except.bind, htrack, he, hadd]
  rfl

theorem insert_overflow (hprune : s.prune rd.tick map = .ok (s₁, map₁)) (h : s₁.arena.Lists ks)
    {d : Duration} (hd : s₁.ttl = some d) (hexp : Instant.max < rd.now + d) (k : K) (v : V) :
    ∃ s', s.insert rd k v map = .ok (.panicked, s', map₁) ∧ s'.capacity = s₁.capacity ∧
      s'.ttl = s₁.ttl ∧ s'.arena.Lists (promote ks k) ∧ s'.expiring = s₁.expiring := by
  obtain ⟨arena', hok, h', -⟩ := track_ok h rd.now k
  exact ⟨{ s₁ with arena := arena' }, insert_panicked hprune hok hd hexp v, rfl, rfl, h', rfl⟩

theorem remove_ok (hprune : s.prune rd.tick map = .ok (s₁, map₁)) (h : s₁.arena.Lists ks) (k : K) :
    ∃ s', s.remove rd k map = .ok (.table (.remove k), s', map₁) ∧ s'.capacity = s₁.capacity ∧
      s'.ttl = s₁.ttl ∧ s'.arena.Lists (ks.erase k) ∧
      (s₁.arena.TailKnown → s'.arena.TailKnown) ∧
      s'.expiring = s₁.expiring.map fun e => (e.1, PriorityQueue.remove e.2 k) := by
  obtain ⟨r, arena', hok, h', htail⟩ := h.removeItem_ok k
  refine ⟨{ s₁ with
    arena := arena'
    expiring := s₁.expiring.map fun e => (e.1, PriorityQueue.remove e.2 k) }, ?_, rfl, ?_, h',
    htail, rfl⟩
  · simp only [remove, hprune, bind, Except.bind, hok]
    rfl
  · simp only [ttl, Option.map_map]
    rfl

theorem lockAndPrune_ok (hprune : s.prune rd.tick map = .ok (s₁, map₁)) :
    s.lockAndPrune rd map = .ok (.done none, s₁, map₁) := by
  simp only [lockAndPrune, hprune]
  rfl

end LruPolicyInner

end LightCache
