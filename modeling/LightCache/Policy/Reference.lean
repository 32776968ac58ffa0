import LightCache.Lib.Recency
import LightCache.Lib.Trace
import LightCache.Policy.Clock

/-!
# A reference cache

What a cache with a policy is for, without an arena, a queue or shards: one list of entries in the
order of their last use. The policies differ in their rules: whether there is a capacity, whether
there is a time to live, and whether a `get` counts as a use.

That the LRU and the time-to-live policy do what their rules say is shown in
`LightCache.Policy.LruReference` and `LightCache.Policy.TtlReference`.

Main results: `answers_eq_of_room`: as long as there is room for all keys, neither the capacity nor
the uses can be told from the answers; and `hits_mono`: where uses count, a larger capacity loses no
hit.
-/

namespace LightCache

/-- The rules of a policy. -/
structure Rules where
  /-- The number of entries there is room for. -/
  room : Option ℕ
  ttl : Option Duration
  /-- A `get` counts as a use. -/
  touches : Bool
  deriving DecidableEq, Repr

namespace Rules

/-- The rules of the LRU policy. -/
def lru (capacity : ℕ) (ttl : Option Duration) : Rules where
  room := some capacity
  ttl := ttl
  touches := true

/-- The rules of the time-to-live policy. -/
def timed (ttl : Duration) : Rules where
  room := none
  ttl := some ttl
  touches := false

/-- Nothing is dropped. -/
def plain : Rules where
  room := none
  ttl := none
  touches := false

/-- The key that an operation moves to the front. -/
def moves {K V : Type} (rules : Rules) : Op K V → Option K
  | .get key => if rules.touches then some key else none
  | .insert key _ => some key
  | .remove _ => none
  | .prune => none

theorem moves_lru_of_timed {K V : Type} {ttl : Duration} {op : Op K V} {key : K} (capacity : ℕ)
    (ttl' : Option Duration) (h : (timed ttl).moves op = some key) :
    (lru capacity ttl').moves op = some key := by
  cases op with
  | insert k v => exact h
  | get k | remove k | prune => cases h

end Rules

/-- A value, and the last instant at which it may be read. -/
structure Item (V : Type) where
  value : V
  expires : Option Instant
  deriving DecidableEq, Repr

/-- The item may be read at `t`. -/
def Item.alive {V : Type} (item : Item V) (t : Instant) : Bool :=
  item.expires.all fun expiry => t ≤ expiry

/-- A cache with the given rules: the entries in the order of their last use, the latest first. -/
structure Reference (K V : Type) (rules : Rules) where
  entries : AList fun _ : K => Item V
  fits : ∀ n, rules.room = some n → entries.keys.length ≤ n

namespace Reference

variable {K V : Type} {rules : Rules}

/-- The keys in the order of their last use. -/
def keys (r : Reference K V rules) : List K := r.entries.keys

/-- Nothing was inserted. -/
def empty (rules : Rules) : Reference K V rules where
  entries := ∅
  fits n _ := Nat.zero_le n

/-- What has expired at `t` is dropped. -/
def prune (r : Reference K V rules) (t : Instant) : Reference K V rules where
  entries := r.entries.restrict fun _ item => item.alive t
  fits n h := AList.length_keys_restrict_le.trans (r.fits n h)

variable [DecidableEq K]

/-- The value of `key`. -/
def get (r : Reference K V rules) (key : K) : Option V := (r.entries.lookup key).map Item.value

/-- A `get` of `key` found what it found. -/
def use (r : Reference K V rules) (key : K) : Reference K V rules where
  entries := if rules.touches then r.entries.touch key else r.entries
  fits n h := by
    split_ifs
    · rw [AList.length_keys_touch]
      exact r.fits n h
    · exact r.fits n h

/-- The entry of `key` is written in front, and what there is no room for is dropped. -/
def insert (r : Reference K V rules) (now : Instant) (key : K) (value : V) :
    Reference K V rules where
  entries :=
    let entries := r.entries.insert key { value, expires := rules.ttl.map (now + ·) }
    match rules.room with
    | some n => entries.first n
    | none => entries
  fits n h := by
    rw [h]
    simp only [AList.keys_first]
    exact List.length_take_le n _

/-- The entry of `key` is dropped. -/
def remove (r : Reference K V rules) (key : K) : Reference K V rules where
  entries := r.entries.erase key
  fits n h := AList.length_keys_erase_le.trans (r.fits n h)

/-- What an operation does after its prune, with what it returns. -/
def apply (r : Reference K V rules) (now : Instant) : Op K V → Option V × Reference K V rules
  | .get key => (r.get key, r.use key)
  | .insert key value => (r.get key, r.insert now key value)
  | .remove key => (r.get key, r.remove key)
  | .prune => (none, r)

/-- An operation. The prune pass reads the clock once. -/
def call (r : Reference K V rules) (call : Readings × Op K V) :
    Except Fault (Outcome V) × Reference K V rules :=
  let (result, r) := (r.prune (call.1.tick 0)).apply call.1.now call.2
  (.ok (.returned result), r)

/-- The cache after an operation. -/
def step (r : Reference K V rules) (call : Readings × Op K V) : Option (Reference K V rules) :=
  some (r.call call).2

/-- The operation moves the only entry that its prune leaves. -/
def movesOnly (r : Reference K V rules) (call : Readings × Op K V) : Bool :=
  (rules.moves call.2).any fun key => (r.prune (call.1.tick 0)).keys = [key]

/-! ## Room for all keys -/

section Room

variable {rules' : Rules} {r : Reference K V rules} {r' : Reference K V rules'} {keys : List K}
variable {calls : List (Readings × Op K V)} {call : Readings × Op K V} {t : Instant} {k : K} {v : V}

/-- There is room for `keys`, and the reference cache has no other keys. -/
structure Roomy (keys : List K) (r : Reference K V rules) : Prop where
  room : ∀ n, rules.room = some n → keys.length ≤ n
  subset : ∀ k ∈ r.entries, k ∈ keys

/-- Every insert of the run is one of `keys`. -/
def InsertsIn (keys : List K) (calls : List (Readings × Op K V)) : Prop :=
  ∀ call ∈ calls, ∀ k v, call.2 = .insert k v → k ∈ keys

theorem Roomy.insert_entries (h : Roomy keys r) (hk : k ∈ keys) :
    (r.insert t k v).entries =
      r.entries.insert k { value := v, expires := rules.ttl.map (t + ·) } := by
  show (match rules.room with
    | some n => (r.entries.insert k _).first n
    | none => r.entries.insert k _) = _
  cases hroom : rules.room with
  | none => rfl
  | some n =>
    refine AList.first_of_length_le (le_trans ?_ (h.room n hroom))
    refine (List.subperm_of_subset (AList.keys_nodup _) fun j hj => ?_).length_le
    rcases AList.mem_insert _ |>.mp (AList.mem_keys.mpr hj) with rfl | hj
    · exact hk
    · exact h.subset j hj

theorem Roomy.prune (h : Roomy keys r) (t : Instant) : Roomy keys (r.prune t) where
  room := h.room
  subset k hk := by
    obtain ⟨item, hitem, -⟩ := AList.mem_restrict.mp hk
    exact h.subset k (AList.lookup_isSome.mp (by rw [hitem]; rfl))

theorem Roomy.step (h : Roomy keys r) (hin : ∀ k v, call.2 = .insert k v → k ∈ keys) :
    Roomy keys (r.call call).2 := by
  refine ⟨h.room, ?_⟩
  have hprune := h.prune (call.1.tick 0)
  obtain ⟨rd, op⟩ := call
  intro j hj
  cases op with
  | get k =>
    refine hprune.subset j ?_
    change j ∈ (if rules.touches then _ else _ : AList _) at hj
    split_ifs at hj
    · rw [← AList.lookup_isSome, AList.lookup_touch, AList.lookup_isSome] at hj
      exact hj
    · exact hj
  | insert k v =>
    change j ∈ ((r.prune _).insert _ k v).entries at hj
    rw [hprune.insert_entries (hin k v rfl)] at hj
    rcases AList.mem_insert _ |>.mp hj with rfl | hj
    · exact hin j v rfl
    · exact hprune.subset j hj
  | remove k => exact hprune.subset j (AList.mem_erase.mp hj).2
  | prune => exact hprune.subset j hj

/-- The entries are the same, in any order. -/
def Same (r : Reference K V rules) (r' : Reference K V rules') : Prop :=
  ∀ k, r.entries.lookup k = r'.entries.lookup k

theorem Same.prune (h : Same r r') (t : Instant) : Same (r.prune t) (r'.prune t) := by
  intro k
  show (r.entries.restrict _).lookup k = (r'.entries.restrict _).lookup k
  rw [AList.lookup_restrict, AList.lookup_restrict, h k]

theorem lookup_use (j : K) : (r.use k).entries.lookup j = r.entries.lookup j := by
  unfold use
  split_ifs
  · exact AList.lookup_touch
  · rfl

/-- With room for all keys, the same entries give the same answer, and are the same after it. -/
theorem Same.step (h : Same r r') (httl : rules.ttl = rules'.ttl) (hr : Roomy keys r)
    (hr' : Roomy keys r') (hin : ∀ k v, call.2 = .insert k v → k ∈ keys) :
    (r.call call).1 = (r'.call call).1 ∧ Same (r.call call).2 (r'.call call).2 := by
  obtain ⟨rd, op⟩ := call
  have hprune := h.prune (rd.tick 0)
  have hget (k : K) : (.ok (.returned ((r.prune (rd.tick 0)).get k)) :
      Except Fault (Outcome V)) = .ok (.returned ((r'.prune (rd.tick 0)).get k)) := by
    rw [get, hprune k]
    rfl
  cases op with
  | get k =>
    refine ⟨hget k, fun j => ?_⟩
    show ((r.prune _).use k).entries.lookup j = ((r'.prune _).use k).entries.lookup j
    rw [lookup_use, lookup_use]
    exact hprune j
  | insert k v =>
    refine ⟨hget k, fun j => ?_⟩
    show ((r.prune _).insert _ k v).entries.lookup j = ((r'.prune _).insert _ k v).entries.lookup j
    rw [(hr.prune _).insert_entries (hin k v rfl), (hr'.prune _).insert_entries (hin k v rfl),
      AList.lookup_insert_ite, AList.lookup_insert_ite, httl, hprune j]
  | remove k =>
    refine ⟨hget k, fun j => ?_⟩
    show ((r.prune _).entries.erase k).lookup j = ((r'.prune _).entries.erase k).lookup j
    rw [AList.lookup_erase_ite, AList.lookup_erase_ite, hprune j]
  | prune => exact ⟨rfl, hprune⟩

/-- The same entries, with room for all keys, also of what is left of the run. -/
structure Abreast (keys : List K) (calls : List (Readings × Op K V)) (r : Reference K V rules)
    (r' : Reference K V rules') : Prop where
  same : Same r r'
  roomy : Roomy keys r
  roomy' : Roomy keys r'
  inserts : InsertsIn keys calls

theorem Abreast.step (h : Abreast keys (call :: calls) r r') (httl : rules.ttl = rules'.ttl) :
    (r.call call).1 = (r'.call call).1 ∧ Abreast keys calls (r.call call).2 (r'.call call).2 := by
  have hin := h.inserts call List.mem_cons_self
  obtain ⟨hanswer, hsame⟩ := h.same.step httl h.roomy h.roomy' hin
  exact ⟨hanswer, hsame, h.roomy.step hin, h.roomy'.step hin, fun call hcall =>
    h.inserts call (List.mem_cons_of_mem _ hcall)⟩

theorem abreast_empty (hroom : ∀ n, rules.room = some n → keys.length ≤ n)
    (hroom' : ∀ n, rules'.room = some n → keys.length ≤ n) (hin : InsertsIn keys calls) :
    Abreast keys calls (empty rules : Reference K V rules) (empty rules') where
  same _ := rfl
  roomy := ⟨hroom, fun _ hk => absurd hk (AList.notMem_empty _)⟩
  roomy' := ⟨hroom', fun _ hk => absurd hk (AList.notMem_empty _)⟩
  inserts := hin

/-- **Room for all keys.** Two caches with the same time to live and room for all keys of a run give
the same answers, whatever their capacities and whether a `get` counts as a use. -/
theorem answers_eq_of_room (httl : rules.ttl = rules'.ttl)
    (h : Abreast keys calls (empty rules : Reference K V rules) (empty rules')) :
    (Trace.outputs Reference.call (empty rules : Reference K V rules) calls).1 =
      (Trace.outputs Reference.call (empty rules' : Reference K V rules') calls).1 :=
  (Trace.outputs_eq_of_rest (fun _ _ _ _ h => h.step httl) h).1

theorem Same.keys_eq_singleton (h : Same r r') (hk : r'.keys = [k]) : r.keys = [k] := by
  have hmem (j : K) : j ∈ r.keys ↔ j ∈ r'.keys := by
    show j ∈ r.entries.keys ↔ j ∈ r'.entries.keys
    rw [← AList.mem_keys, ← AList.mem_keys, ← AList.lookup_isSome, ← AList.lookup_isSome, h j]
  refine List.perm_singleton.mp ((List.perm_ext_iff_of_nodup (AList.keys_nodup _)
    (List.nodup_singleton k)).mpr fun j => ?_)
  rw [← hk]
  exact hmem j

/-- Where fewer operations move a key, no more of them move the only entry. -/
theorem Same.movesOnly (h : Same r r') (hok : r.movesOnly call = false)
    (hmoves : ∀ key, rules'.moves call.2 = some key → rules.moves call.2 = some key) :
    r'.movesOnly call = false := by
  rw [← Bool.not_eq_true] at hok ⊢
  intro honly
  obtain ⟨key, hkey, hkeys⟩ := (Option.any_eq_true _ _).mp honly
  refine hok ((Option.any_eq_true _ _).mpr ⟨key, hmoves key hkey, ?_⟩)
  exact decide_eq_true ((h.prune _).keys_eq_singleton (of_decide_eq_true hkeys))

end Room

/-! ## A larger capacity -/

section Larger

variable {m n : ℕ} {ttl : Option Duration}
variable {r : Reference K V (.lru m ttl)} {r' : Reference K V (.lru n ttl)}

/-- What the first cache finds, the second finds too. -/
def Hits (answer answer' : Except Fault (Outcome V)) : Prop :=
  ∀ v, answer = .ok (.returned (some v)) → answer' = .ok (.returned (some v))

/-- What is in the smaller cache is in the larger one. -/
theorem hits_call (h : AList.Within m n r.entries r'.entries) (call : Readings × Op K V) :
    Hits (r.call call).1 (r'.call call).1 ∧
      AList.Within m n (r.call call).2.entries (r'.call call).2.entries := by
  obtain ⟨rd, op⟩ := call
  have hprune : AList.Within m n (r.prune (rd.tick 0)).entries (r'.prune (rd.tick 0)).entries := by
    have hrestrict := h.restrict (p := fun _ item => Item.alive item (rd.tick 0))
    exact hrestrict
  have hget (k : K) (v : V) (hk : (r.prune (rd.tick 0)).get k = some v) :
      (r'.prune (rd.tick 0)).get k = some v := by
    obtain ⟨item, hitem, rfl⟩ := Option.map_eq_some_iff.mp hk
    exact Option.map_eq_some_iff.mpr ⟨item, hprune.lookup hitem, rfl⟩
  have hhits (k : K) : Hits (.ok (.returned ((r.prune (rd.tick 0)).get k)))
      (.ok (.returned ((r'.prune (rd.tick 0)).get k))) := by
    intro v hv
    simp only [Except.ok.injEq, Outcome.returned.injEq] at hv ⊢
    exact hget k v hv
  cases op with
  | get k => exact ⟨hhits k, hprune.touch⟩
  | insert k v => exact ⟨hhits k, hprune.insert.first⟩
  | remove k => exact ⟨hhits k, hprune.erase⟩
  | prune => exact ⟨fun v hv => hv, hprune⟩

/-- **No hit is lost by a larger capacity.** In every run each hit of the smaller cache is a hit of
the larger one, with the same value. -/
theorem hits_mono (hle : m ≤ n) (calls : List (Readings × Op K V)) :
    List.Forall₂ Hits (Trace.outputs Reference.call (empty (.lru m ttl) : Reference K V _) calls).1
      (Trace.outputs Reference.call (empty (.lru n ttl) : Reference K V _) calls).1 := by
  have hempty : AList.Within m n (empty (.lru m ttl) : Reference K V _).entries
      (empty (.lru n ttl) : Reference K V _).entries :=
    ⟨List.Sublist.slnil, Nat.add_le_add_left hle 0⟩
  exact (Trace.outputs_forall₂ (R := fun _ (r : Reference K V (.lru m ttl))
    (r' : Reference K V (.lru n ttl)) => AList.Within m n r.entries r'.entries)
    (fun _ _ call _ h => hits_call h call) hempty).1

end Larger

end Reference

/-- What a cache answers to an operation, and the cache after it. -/
def LightCacheInner.answer {P K V : Type} [DecidableEq K] [Policy P K V] (c : LightCacheInner P K V)
    (call : Readings × Op K V) : Except Fault (Outcome V) × LightCacheInner P K V :=
  match c.call call.1 call.2 with
  | .ok (outcome, c) => (.ok outcome, c)
  | .error fault => (.error fault, c)

end LightCache
