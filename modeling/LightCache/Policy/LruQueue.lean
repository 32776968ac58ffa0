import LightCache.Policy.LruOrder

/-!
# The LRU policy and its queue

`expiry` is the time at which the queue says that a key expires. With a lawful queue a prune drops
exactly keys that have expired at one of its readings, from the queue as from the arena and the
map, and stops when none is left; an insert sets the expiry of its key; and a key that is removed
or evicted has none any more.

Main results: `prune_exact`, and for each operation what the call does to the arena, the queue and
the map (`call_get`, `call_insert`, `call_overflow`, `call_remove`, `call_prune`).
-/

namespace LightCache

namespace LruPolicyInner

variable {K V Q : Type} [DecidableEq K] [PriorityQueue K Instantᵒᵈ Q]

/-- The time at which the key expires, if it is in the queue. -/
def expiryIn (expiring : Option (Duration × Q)) (k : K) : Option Instant :=
  expiring.bind fun e => (PriorityQueue.priority e.2 k).map OrderDual.ofDual

/-- The time at which the key expires. -/
def expiry (s : LruPolicyInner K Q) (k : K) : Option Instant := expiryIn s.expiring k

/-- The key has expired at a reading of the prune pass. -/
def Expires (s : LruPolicyInner K Q) (tick : ℕ → Instant) (k : K) : Prop :=
  ∃ e j, s.expiry k = some e ∧ e < tick j

variable [LawfulPriorityQueue K Instantᵒᵈ Q]
variable {s s₁ : LruPolicyInner K Q} {map map₁ : LightMap K V} {rd : Readings}
variable {c : LightCacheInner (LruPolicyInner K Q) K V} {ks dead out : List K} {k j : K} {v : V}
variable {expiring : Option (Duration × Q)} {tick : ℕ → Instant} {fuel i : ℕ} {pq pq' : Q}

/-! ## The queue under each write -/

theorem expiryIn_push (now : Instant) :
    expiryIn (expiring.map fun e =>
        (e.1, PriorityQueue.push e.2 k (OrderDual.toDual (now + e.1)))) j =
      if j = k then (expiring.map Prod.fst).map (now + ·) else expiryIn expiring j := by
  cases expiring with
  | none => simp [expiryIn]
  | some e =>
    simp only [expiryIn, Option.map_some, Option.bind_some, LawfulPriorityQueue.priority_push]
    split_ifs <;> rfl

theorem expiryIn_remove :
    expiryIn (expiring.map fun e => (e.1, PriorityQueue.remove e.2 k)) j =
      if j = k then none else expiryIn expiring j := by
  cases expiring with
  | none => simp [expiryIn]
  | some e =>
    simp only [expiryIn, Option.map_some, Option.bind_some, LawfulPriorityQueue.priority_remove]
    split_ifs <;> rfl

theorem expiryIn_dropExpiring :
    expiryIn (dropExpiring expiring out) j = if j ∈ out then none else expiryIn expiring j := by
  induction out generalizing expiring with
  | nil => cases expiring <;> simp [dropExpiring]
  | cons k out ih =>
    have hcons : dropExpiring expiring (k :: out) =
        dropExpiring (expiring.map fun e => (e.1, PriorityQueue.remove e.2 k)) out := by
      cases expiring <;> rfl
    rw [hcons, ih, expiryIn_remove]
    by_cases hout : j ∈ out
    · simp [hout]
    · by_cases hjk : j = k <;> simp [hout, hjk]

/-! ## The prune loop -/

/-- What the loop drops is in the queue no more, and the rest keeps its priority. -/
theorem Drained.priority (h : Drained tick fuel i pq dead pq') (k : K) :
    PriorityQueue.priority pq' k = if k ∈ dead then none else PriorityQueue.priority pq k := by
  induction h with
  | fuel => simp
  | stop => simp
  | @pop fuel i pq pq' key expiry dead hpeek hlt h ih =>
    rw [ih, LawfulPriorityQueue.priority_pop pq key expiry hpeek]
    by_cases hdead : k ∈ dead
    · simp [hdead]
    · by_cases hk : k = key <;> simp [hdead, hk]

theorem Drained.expired (h : Drained tick fuel i pq dead pq') (hk : k ∈ dead) :
    ∃ e j, PriorityQueue.priority pq k = some e ∧ OrderDual.ofDual e < tick j := by
  induction h with
  | fuel | stop => cases hk
  | @pop fuel i pq pq' key expiry dead hpeek hlt h ih =>
    rcases List.mem_cons.mp hk with rfl | hk
    · exact ⟨expiry, i, (LawfulPriorityQueue.peek_some pq k expiry hpeek).1, hlt⟩
    · obtain ⟨e, j, he, hlt⟩ := ih hk
      rw [LawfulPriorityQueue.priority_pop pq key expiry hpeek] at he
      split_ifs at he
      exact ⟨e, j, he, hlt⟩

/-- With the length of the queue as fuel, the loop ends when nothing that is left has expired. -/
theorem Drained.alive (h : Drained tick fuel i pq dead pq') (hfuel : PriorityQueue.len pq ≤ fuel) :
    ∃ j, ∀ k e, PriorityQueue.priority pq' k = some e → tick j ≤ OrderDual.ofDual e := by
  induction h with
  | @fuel i pq =>
    refine ⟨i, ?_⟩
    intro k e he
    cases hpeek : PriorityQueue.peek pq with
    | none =>
      rw [LawfulPriorityQueue.peek_none pq hpeek k] at he
      cases he
    | some top =>
      have hlen := LawfulPriorityQueue.len_pop pq top.1 top.2 hpeek
      omega
  | @stop fuel i pq h =>
    refine ⟨i, ?_⟩
    intro k e he
    cases hpeek : PriorityQueue.peek pq with
    | none =>
      rw [LawfulPriorityQueue.peek_none pq hpeek k] at he
      cases he
    | some top =>
      obtain ⟨-, hmax⟩ := LawfulPriorityQueue.peek_some pq top.1 top.2 hpeek
      exact (h top.1 top.2 hpeek).trans (hmax k e he)
  | @pop fuel i pq pq' key expiry dead hpeek hlt h ih =>
    have hlen := LawfulPriorityQueue.len_pop pq key expiry hpeek
    exact ih (by omega)

/-- `s₁` is `s` without the expiries of the keys `dead`, which have passed. The others have not. -/
structure Lapsed (tick : ℕ → Instant) (s s₁ : LruPolicyInner K Q) (dead : List K) : Prop where
  expiry : ∀ k, s₁.expiry k = if k ∈ dead then none else s.expiry k
  expired : ∀ k ∈ dead, s.Expires tick k
  alive : ∃ j, ∀ k e, s₁.expiry k = some e → tick j ≤ e

theorem Emptied.lapsed (h : Emptied tick s s₁ dead) : Lapsed tick s s₁ dead := by
  cases h with
  | plain he he₁ =>
    exact ⟨fun k => by simp [expiry, he, he₁], fun k hk => absurd hk List.not_mem_nil,
      0, fun k e hk => by simp [expiry, he₁, expiryIn] at hk⟩
  | @queue ttl pq pq' dead he he₁ h =>
    have hexpiry (k : K) : s.expiry k = (PriorityQueue.priority pq k).map OrderDual.ofDual := by
      rw [expiry, he]
      rfl
    have hexpiry₁ (k : K) : s₁.expiry k = (PriorityQueue.priority pq' k).map OrderDual.ofDual := by
      rw [expiry, he₁]
      rfl
    refine ⟨?_, ?_, ?_⟩
    · intro k
      rw [hexpiry₁, hexpiry, h.priority]
      split_ifs <;> rfl
    · intro k hk
      obtain ⟨e, j, he, hlt⟩ := h.expired hk
      exact ⟨_, j, by rw [hexpiry, he]; rfl, hlt⟩
    · obtain ⟨j, hj⟩ := h.alive le_rfl
      refine ⟨j, ?_⟩
      intro k e hk
      rw [hexpiry₁] at hk
      obtain ⟨e, he, rfl⟩ := Option.map_eq_some_iff.mp hk
      exact hj k e he

/-- A prune drops what has expired, from the arena, the queue and the map. -/
theorem prune_exact (h : s.arena.Lists ks) (tick : ℕ → Instant) (map : LightMap K V) :
    ∃ dead s₁, s.prune tick map = .ok (s₁, map.removeAll dead) ∧ Pruned s s₁ ks dead ∧
      Lapsed tick s s₁ dead := by
  obtain ⟨dead, s₁, hok, hpruned, hemptied⟩ := prune_emptied h tick map
  exact ⟨dead, s₁, hok, hpruned, hemptied.lapsed⟩

/-! ## Calls -/

/-- The settings of a policy, which no operation changes. -/
def SameSettings (s s₁ : LruPolicyInner K Q) : Prop := s.capacity = s₁.capacity ∧ s.ttl = s₁.ttl

omit [DecidableEq K] [PriorityQueue K Instantᵒᵈ Q] [LawfulPriorityQueue K Instantᵒᵈ Q] in
theorem SameSettings.trans {s s₁ s₂ : LruPolicyInner K Q} (h : s.SameSettings s₁)
    (h₁ : s₁.SameSettings s₂) : s.SameSettings s₂ :=
  ⟨h.1.trans h₁.1, h.2.trans h₁.2⟩

omit [LawfulPriorityQueue K Instantᵒᵈ Q] in
theorem call_get (hok : c.policy.prune rd.tick c.map = .ok (s₁, map₁)) (h : s₁.arena.Lists ks)
    (k : K) :
    ∃ s', c.call rd (.get k) = .ok (.returned (map₁.get k), ⟨s', map₁⟩) ∧ s'.SameSettings s₁ ∧
      s'.arena.Lists (if k ∈ ks then promote ks k else ks) ∧ ∀ j, s'.expiry j = s₁.expiry j := by
  obtain ⟨s', hget, hcap, httl, h', -, hqueue⟩ := get_ok hok h k
  refine ⟨s', ?_, ⟨hcap, httl⟩, h', fun j => by rw [expiry, hqueue, expiry]⟩
  simp only [LightCacheInner.call, Policy.locked, hget]
  rfl

/-- An insert may evict the last key, if there is no room for all. -/
theorem call_insert (hok : c.policy.prune rd.tick c.map = .ok (s₁, map₁)) (h : s₁.arena.Lists ks)
    (hfits : ∀ d, s₁.ttl = some d → rd.now + d ≤ Instant.max) (k : K) (v : V) :
    ∃ out s' ks', c.call rd (.insert k v) =
        .ok (.returned ((map₁.removeAll out).get k), ⟨s', ((map₁.removeAll out).insert k v).2⟩) ∧
      s'.SameSettings s₁ ∧ s'.arena.Lists ks' ∧ promote ks k = ks' ++ out ∧ k ∉ out ∧
      (out = [] ∨ ∃ victim, out = [victim] ∧ s₁.capacity < (promote ks k).length) ∧
      ∀ j, s'.expiry j = if j ∈ out then none else
        if j = k then s₁.ttl.map (rd.now + ·) else s₁.expiry j := by
  obtain ⟨out, s₂, s', hinsert, hcap₂, httl₂, h₂, -, hevict, hqueue⟩ := insert_ok hok h hfits k v
  obtain ⟨ks', h', hks, hk, hcap, httl, hout⟩ := hevict.lists h₂
  refine ⟨out, s', ks', ?_, ⟨hcap.trans hcap₂, httl.trans httl₂⟩, h', hks, hk, ?_, ?_⟩
  · simp only [LightCacheInner.call, Policy.locked, hinsert, ← LightMap.insert_fst _ k v]
    rfl
  · rwa [hcap₂] at hout
  · intro j
    rw [expiry, hqueue, expiryIn_dropExpiring, expiryIn_push]
    rfl

omit [LawfulPriorityQueue K Instantᵒᵈ Q] in
/-- An insert whose expiry overflows panics, and leaves its key in the arena. -/
theorem call_overflow (hok : c.policy.prune rd.tick c.map = .ok (s₁, map₁))
    (h : s₁.arena.Lists ks) {d : Duration} (hd : s₁.ttl = some d) (hlt : Instant.max < rd.now + d)
    (k : K) (v : V) :
    ∃ s', c.call rd (.insert k v) = .ok (.panicked, ⟨s', map₁⟩) ∧ s'.SameSettings s₁ ∧
      s'.arena.Lists (promote ks k) ∧ ∀ j, s'.expiry j = s₁.expiry j := by
  obtain ⟨s', hinsert, hcap, httl, h', hqueue⟩ := insert_overflow hok h hd hlt k v
  refine ⟨s', ?_, ⟨hcap, httl⟩, h', fun j => by rw [expiry, hqueue, expiry]⟩
  simp only [LightCacheInner.call, Policy.locked, hinsert]
  rfl

theorem call_remove (hok : c.policy.prune rd.tick c.map = .ok (s₁, map₁)) (h : s₁.arena.Lists ks)
    (k : K) :
    ∃ s', c.call rd (.remove k) = .ok (.returned (map₁.get k), ⟨s', (map₁.remove k).2⟩) ∧
      s'.SameSettings s₁ ∧ s'.arena.Lists (ks.erase k) ∧
      ∀ j, s'.expiry j = if j = k then none else s₁.expiry j := by
  obtain ⟨s', hremove, hcap, httl, h', -, hqueue⟩ := remove_ok hok h k
  refine ⟨s', ?_, ⟨hcap, httl⟩, h', fun j => by rw [expiry, hqueue, expiryIn_remove, expiry]⟩
  simp only [LightCacheInner.call, Policy.locked, hremove]
  rfl

omit [LawfulPriorityQueue K Instantᵒᵈ Q] in
theorem call_prune (hok : c.policy.prune rd.tick c.map = .ok (s₁, map₁)) :
    c.call rd .prune = .ok (.returned none, ⟨s₁, map₁⟩) := by
  simp only [LightCacheInner.call, Policy.locked, lockAndPrune_ok hok]
  rfl

end LruPolicyInner

end LightCache
