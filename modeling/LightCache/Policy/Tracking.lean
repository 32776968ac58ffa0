import LightCache.Policy.LruCapacity
import LightCache.Policy.TtlOrder

/-!
# What a lock section leaves behind

A lock section drops keys from the policy and from the map at once, and then, on the policy
alone, tracks or forgets the key of its operation. What is missing in the map is left to the
table operation that follows.

`Tracking` is what a policy must promise for that, and the LRU and the time-to-live policy
are instances.
-/

namespace LightCache

/-- The key that an operation tracks or forgets. -/
def Op.target {K V : Type} : Op K V → Option K
  | .get _ => none
  | .insert key _ => some key
  | .remove key => some key
  | .prune => none

/-- A lock section of `op` that drops the keys `dead`, and takes the policy from tracking
`before` to tracking `after`. -/
structure LockSection {K V : Type} (op : Op K V) (before after : K → Prop) (dead : List K)
    (next : Next K V) : Prop where
  others : ∀ j, op.target ≠ some j → (after j ↔ before j ∧ j ∉ dead)
  inserts : ∀ k v, op = .insert k v → after k ∧ (next = .panicked ∨ next = .table (.insert k v))
  removes : ∀ k, op = .remove k → ¬after k ∧ next = .table (.remove k)

/-- A policy that tracks keys: in a sound state no lock section meets a fault, and each does
what `LockSection` says. One that `fits` does not panic. -/
class Tracking (P K V : Type) [DecidableEq K] [Policy P K V] where
  tracks : P → K → Prop
  decidableTracks : ∀ s k, Decidable (tracks s k)
  Sound : P → Prop
  fits : LightCacheInner P K V → Readings → Op K V → Bool
  locked_ok : ∀ (s : P) (map : LightMap K V) (rd : Readings) (op : Op K V), Sound s →
    ∃ dead next s', Policy.locked rd op s map = .ok (next, s', map.removeAll dead) ∧ Sound s' ∧
      LockSection op (tracks s) (tracks s') dead next ∧
      (fits ⟨s, map⟩ rd op = true → next ≠ .panicked)

attribute [reducible, instance] Tracking.decidableTracks

section LockSection

variable {K V N : Type} [DecidableEq K] [LinkedNode K N] {a a' : LinkedArena K N} {op : Op K V}
variable {ks ks' dead : List K} {next : Next K V}

/-- A lock section of a policy that tracks the keys of an arena. -/
theorem lockSection_of_lists (h : a.Lists ks) (h' : a'.Lists ks')
    (hothers : ∀ j, op.target ≠ some j → (j ∈ ks' ↔ j ∈ ks ∧ j ∉ dead))
    (hinserts : ∀ k v, op = .insert k v →
      k ∈ ks' ∧ (next = .panicked ∨ next = .table (.insert k v)))
    (hremoves : ∀ k, op = .remove k → k ∉ ks' ∧ next = .table (.remove k)) :
    LockSection op (· ∈ a.idxOf) (· ∈ a'.idxOf) dead next where
  others j hj := by rw [h.mem_idxOf, h'.mem_idxOf, hothers j hj]
  inserts k v hop := by rw [h'.mem_idxOf]; exact hinserts k v hop
  removes k hop := by rw [h'.mem_idxOf]; exact hremoves k hop

end LockSection

namespace LruPolicyInner

variable {K V Q : Type} [DecidableEq K] [PriorityQueue K Instantᵒᵈ Q]
variable {s s₁ : LruPolicyInner K Q} {map map₁ : LightMap K V} {rd : Readings} {op : Op K V}
variable {ks dead : List K} {k : K} {v : V}

/-- A lock section that does not meet a fault is one of `LockSection`. -/
def Tracks (s : LruPolicyInner K Q) (rd : Readings) (op : Op K V) (map : LightMap K V) : Prop :=
  ∃ dead next s', Policy.locked rd op s map = .ok (next, s', map.removeAll dead) ∧
    (∃ ks, s'.arena.Lists ks) ∧
    LockSection op (· ∈ s.arena.idxOf) (· ∈ s'.arena.idxOf) dead next ∧
    (expiryFits ⟨s, map⟩ rd op = true → next ≠ .panicked)

theorem tracks_get (h : s.arena.Lists ks)
    (hprune : s.prune rd.tick map = .ok (s₁, map.removeAll dead))
    (h₁ : s₁.arena.Lists (ks.diff dead)) (k : K) : s.Tracks rd (.get k) map := by
  obtain ⟨s', hget, -, -, h', -⟩ := get_ok hprune h₁ k
  refine ⟨dead, _, s', hget, ⟨_, h'⟩, lockSection_of_lists h h' ?_
    (fun _ _ hop => by cases hop) (fun _ hop => by cases hop), fun _ => by simp⟩
  intro j _
  rw [← h.nodup.mem_sdiff_iff]
  split_ifs with hk
  · rw [mem_promote]
    exact or_iff_right_of_imp fun hj => hj ▸ hk
  · rfl

theorem tracks_remove (h : s.arena.Lists ks)
    (hprune : s.prune rd.tick map = .ok (s₁, map.removeAll dead))
    (h₁ : s₁.arena.Lists (ks.diff dead)) (k : K) : s.Tracks rd (.remove k) map := by
  obtain ⟨s', hremove, -, -, h', -⟩ := remove_ok hprune h₁ k
  refine ⟨dead, _, s', hremove, ⟨_, h'⟩, lockSection_of_lists h h' (fun j hj => ?_)
    (fun _ _ hop => by cases hop) (fun j hop => ?_), fun _ => by simp⟩
  · have hjk : j ≠ k := fun hjk => hj (by rw [hjk]; rfl)
    rw [List.mem_erase_of_ne hjk, h.nodup.mem_sdiff_iff]
  · cases hop
    exact ⟨h₁.nodup.not_mem_erase, rfl⟩

theorem tracks_insert (h : s.arena.Lists ks)
    (hprune : s.prune rd.tick map = .ok (s₁, map.removeAll dead)) (hp : Pruned s s₁ ks dead) (k : K)
    (v : V) : s.Tracks rd (.insert k v) map := by
  have hmem (j : K) (hj : Op.target (.insert k v : Op K V) ≠ some j) :
      j ∈ promote (ks.diff dead) k ↔ j ∈ ks ∧ j ∉ dead := by
    have hjk : j ≠ k := fun hjk => hj (by rw [hjk]; rfl)
    rw [mem_promote, or_iff_right hjk, h.nodup.mem_sdiff_iff]
  have hfront : k ∈ promote (ks.diff dead) k := List.mem_cons_self
  by_cases hexp : ∀ d, s₁.ttl = some d → rd.now + d ≤ Instant.max
  · obtain ⟨out, s₂, s', hinsert, -, -, h₂, -, hout, -⟩ := insert_ok hprune hp.lists hexp k v
    obtain ⟨ks', h', hks, hkout, -⟩ := hout.lists h₂
    have hnd := h₂.nodup
    rw [← LightMap.removeAll_append] at hinsert
    rw [hks] at hmem hfront hnd
    refine ⟨dead ++ out, _, s', hinsert, ⟨_, h'⟩, lockSection_of_lists h h' ?_
      ?_ (fun _ hop => by cases hop), fun _ => by simp⟩
    · intro j hj
      have hkept : j ∈ ks' → j ∉ out :=
        fun hj hjout => (List.nodup_append.mp hnd).2.2 j hj j hjout rfl
      have hjmem := hmem j hj
      rw [List.mem_append] at hjmem ⊢
      tauto
    · intro j _ hop
      cases hop
      exact ⟨(List.mem_append.mp hfront).resolve_right hkout, Or.inr rfl⟩
  · simp only [not_forall, not_le] at hexp
    obtain ⟨d, hd, hlt⟩ := hexp
    obtain ⟨s', hinsert, -, -, h', -⟩ := insert_overflow hprune hp.lists hd hlt k v
    refine ⟨dead, _, s', hinsert, ⟨_, h'⟩, lockSection_of_lists h h' hmem
      (fun j _ hop => ?_) (fun _ hop => by cases hop), fun hfits => ?_⟩
    · cases hop
      exact ⟨hfront, Or.inl rfl⟩
    · exact absurd (expiry_le hfits (hp.ttl ▸ hd)) (Nat.not_le_of_lt hlt)

theorem tracks_prune (h : s.arena.Lists ks)
    (hprune : s.prune rd.tick map = .ok (s₁, map.removeAll dead))
    (h₁ : s₁.arena.Lists (ks.diff dead)) : s.Tracks rd .prune map :=
  ⟨dead, _, s₁, lockAndPrune_ok hprune, ⟨_, h₁⟩, lockSection_of_lists h h₁
    (fun _ _ => h.nodup.mem_sdiff_iff) (fun _ _ hop => by cases hop) (fun _ hop => by cases hop),
    fun _ => by simp⟩

theorem tracks (h : s.arena.Lists ks) (rd : Readings) (op : Op K V) (map : LightMap K V) :
    s.Tracks rd op map := by
  obtain ⟨dead, s₁, hprune, hp⟩ := prune_ok h rd.tick map
  cases op with
  | get k => exact tracks_get h hprune hp.lists k
  | insert k v => exact tracks_insert h hprune hp k v
  | remove k => exact tracks_remove h hprune hp.lists k
  | prune => exact tracks_prune h hprune hp.lists

instance : Tracking (LruPolicyInner K Q) K V where
  tracks s k := k ∈ s.arena.idxOf
  decidableTracks _ _ := inferInstance
  Sound s := ∃ ks, s.arena.Lists ks
  fits c rd op := expiryFits c rd op
  locked_ok _ map rd op := fun ⟨_, h⟩ => tracks h rd op map

variable (capacity : ℕ) (hcap : 1 < capacity) (ttl : Option Duration)

theorem sound_new : Tracking.Sound K V (new capacity hcap ttl : LruPolicyInner K Q) :=
  ⟨[], LinkedArena.lists_new⟩

theorem not_tracks_new (k : K) :
    ¬Tracking.tracks V (new capacity hcap ttl : LruPolicyInner K Q) k :=
  fun hk => List.not_mem_nil (LinkedArena.lists_new.mem_idxOf.mp hk)

end LruPolicyInner

namespace TtlPolicyInner

variable {K V : Type} [DecidableEq K]
variable {s s₁ : TtlPolicyInner K} {map map₁ : LightMap K V} {rd : Readings}

theorem mem_restamp {ts : List (K × Instant)} {k j : K} {now : Instant} :
    j ∈ (restamp ts k now).map Prod.fst ↔ j = k ∨ j ∈ ts.map Prod.fst := by
  rw [restamp, List.map_cons, List.mem_cons, mem_filter_ne]
  tauto

theorem tracks {ts : List (K × Instant)} (h : Stamped s.arena ts) (rd : Readings) (op : Op K V)
    (map : LightMap K V) :
    ∃ dead next s', Policy.locked rd op s map = .ok (next, s', map.removeAll dead) ∧
      (∃ ts, Stamped s'.arena ts) ∧
      LockSection op (· ∈ s.arena.idxOf) (· ∈ s'.arena.idxOf) dead next ∧ next ≠ .panicked := by
  obtain ⟨kept, cut, s₁, hts, hprune, hp⟩ := prune_ok h rd.tick map
  have hkept := mem_kept hts h.lists.nodup
  have h₁ := hp.stamped
  cases op with
  | get k =>
    exact ⟨_, _, s₁, get_ok hprune k, ⟨_, h₁⟩, lockSection_of_lists h.lists h₁.lists
      (fun j _ => hkept j) (fun _ _ hop => by cases hop) (fun _ hop => by cases hop), by simp⟩
  | insert k v =>
    obtain ⟨s', hinsert, -, h', -⟩ := insert_ok hprune h₁ k v
    refine ⟨_, _, s', hinsert, ⟨_, h'⟩, lockSection_of_lists h.lists h'.lists ?_
      ?_ (fun _ hop => by cases hop), by simp⟩
    · intro j hj
      have hjk : j ≠ k := fun hjk => hj (by rw [hjk]; rfl)
      rw [mem_restamp, or_iff_right hjk, hkept j]
    · intro j _ hop
      cases hop
      exact ⟨mem_restamp.mpr (Or.inl rfl), Or.inr rfl⟩
  | remove k =>
    obtain ⟨s', hremove, -, h', -⟩ := remove_ok hprune h₁ k
    refine ⟨_, _, s', hremove, ⟨_, h'⟩, lockSection_of_lists h.lists h'.lists (fun j hj => ?_)
      (fun _ _ hop => by cases hop) (fun j hop => ?_), by simp⟩
    · have hjk : j ≠ k := fun hjk => hj (by rw [hjk]; rfl)
      rw [mem_filter_ne, and_iff_left hjk, hkept j]
    · cases hop
      exact ⟨fun hk => (mem_filter_ne.mp hk).2 rfl, rfl⟩
  | prune =>
    exact ⟨_, _, s₁, lockAndPrune_ok hprune, ⟨_, h₁⟩, lockSection_of_lists h.lists h₁.lists
      (fun j _ => hkept j) (fun _ _ hop => by cases hop) (fun _ hop => by cases hop), by simp⟩

instance : Tracking (TtlPolicyInner K) K V where
  tracks s k := k ∈ s.arena.idxOf
  decidableTracks _ _ := inferInstance
  Sound s := ∃ ts, Stamped s.arena ts
  fits _ _ _ := true
  locked_ok _ map rd op := fun ⟨_, h⟩ => by
    obtain ⟨dead, next, s', hok, h', hsection, hnext⟩ := tracks h rd op map
    exact ⟨dead, next, s', hok, h', hsection, fun _ => hnext⟩

theorem sound_new (ttl : Duration) : Tracking.Sound K V (new ttl : TtlPolicyInner K) :=
  ⟨[], stamped_new⟩

theorem not_tracks_new (ttl : Duration) (k : K) :
    ¬Tracking.tracks V (new ttl : TtlPolicyInner K) k :=
  fun hk => List.not_mem_nil (stamped_new.lists.mem_idxOf.mp hk)

end TtlPolicyInner

end LightCache
