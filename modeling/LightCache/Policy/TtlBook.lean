import LightCache.Policy.TtlFresh

/-!
# What a time-to-live cache holds

The abstract view of the cache is a book: what was last inserted under each key, and when,
unless it was removed since. The cache holds a part of its book, and what is missing has expired
by the clock. The arena lists the same keys with the times of the book.

That nothing too old is left needs a known tail (`LightCache.Policy.TtlFresh`). That nothing is
lost, and nothing comes back, does not.

Main result: `ttl_keeps_live`.
-/

namespace LightCache

open TtlPolicyInner

/-- What was last inserted under each key, and when, unless it was removed since. -/
abbrev Book (K V : Type) := K → Option (Instant × V)

/-- The key of an operation. -/
def Op.key {K V : Type} : Op K V → Option K
  | .get key => some key
  | .insert key _ => some key
  | .remove key => some key
  | .prune => none

variable {K V : Type} [DecidableEq K]

namespace Book

/-- Nothing was inserted. -/
def empty : Book K V := fun _ => none

/-- The book after an operation that reads the clock at `now` when it inserts. -/
def after (book : Book K V) (now : Instant) : Op K V → Book K V
  | .insert key value => Function.update book key (some (now, value))
  | .remove key => Function.update book key none
  | .get _ | .prune => book

/-- The book of a run that starts with an empty cache. -/
def ofCalls (calls : List (Readings × Op K V)) : Book K V :=
  calls.foldl (fun book call => book.after call.1.now call.2) empty

end Book

/-- The arena and the map hold what the book says, except for what had expired at `clock`. -/
structure Booked (c : LightCacheInner (TtlPolicyInner K) K V) (ts : List (K × Instant))
    (book : Book K V) (clock : Instant) : Prop where
  stamped : Stamped c.policy.arena ts
  sorted : ts.Pairwise fun a b => b.2 ≤ a.2
  past : ∀ e ∈ ts, e.2 ≤ clock
  entry : ∀ k s, (k, s) ∈ ts → ∃ v, book k = some (s, v) ∧ c.map.get k = some v
  tracked : ∀ k, (c.map.get k).isSome → k ∈ ts.map Prod.fst
  expired : ∀ k s v, book k = some (s, v) →
    (k, s) ∈ ts ∨ c.policy.ttl < Instant.durationSince clock s

section Booked

variable {c : LightCacheInner (TtlPolicyInner K) K V} {s₁ : TtlPolicyInner K} {map₁ : LightMap K V}
variable {ts : List (K × Instant)} {book : Book K V} {clock t s : Instant} {k : K} {v : V}
variable {calls : List (Readings × Op K V)} {rd : Readings}

theorem booked_fromParts (ttl : Duration) (n : ℕ+) (hasher : K → UInt64) :
    Booked (LightCacheInner.fromParts (TtlPolicyInner.new ttl) n hasher :
      LightCacheInner (TtlPolicyInner K) K V) [] Book.empty 0 where
  stamped := stamped_new
  sorted := List.Pairwise.nil
  past e he := absurd he List.not_mem_nil
  entry k s hs := absurd hs List.not_mem_nil
  tracked k hk := by simp [LightCacheInner.fromParts] at hk
  expired k s v hv := by cases hv

theorem Booked.mirror (h : Booked c ts book clock) (k : K) :
    (c.map.get k).isSome ↔ k ∈ c.policy.arena.idxOf := by
  rw [h.stamped.lists.mem_idxOf]
  refine ⟨h.tracked k, ?_⟩
  intro hk
  obtain ⟨⟨k, s⟩, hs, rfl⟩ := List.mem_map.mp hk
  obtain ⟨v, -, hv⟩ := h.entry k s hs
  rw [hv]
  rfl

theorem Booked.get_eq_some (h : Booked c ts book clock) :
    c.map.get k = some v ↔ ∃ s, book k = some (s, v) ∧ (k, s) ∈ ts := by
  constructor
  · intro hv
    obtain ⟨⟨k, s⟩, hs, rfl⟩ := List.mem_map.mp (h.tracked k (by rw [hv]; rfl))
    obtain ⟨u, hbook, hu⟩ := h.entry k s hs
    rw [hv] at hu
    obtain rfl := Option.some.inj hu
    exact ⟨s, hbook, hs⟩
  · intro hbooked
    obtain ⟨s, hbook, hs⟩ := hbooked
    obtain ⟨u, hbook', hu⟩ := h.entry k s hs
    rw [hbook] at hbook'
    rw [hu, (Prod.mk.inj (Option.some.inj hbook')).2]

/-- A prune drops only what has expired, and no waiters. -/
theorem Booked.prune (h : Booked c ts book clock) (tick : ℕ → Instant) (hclock : clock ≤ t)
    (htick : ∀ i, tick i ≤ t) :
    ∃ kept s₁ map₁, c.policy.prune tick c.map = .ok (s₁, map₁) ∧ s₁.ttl = c.policy.ttl ∧
      kept <+: ts ∧ (∀ k, map₁.waiters k = c.map.waiters k) ∧ Booked ⟨s₁, map₁⟩ kept book t ∧
      (∀ e ∈ ts, (∀ i, Instant.durationSince (tick i) e.2 ≤ c.policy.ttl) → e ∈ kept) ∧
      (c.policy.arena.TailKnown → s₁.arena.TailKnown ∧
        ((∀ i, tick i = t) → ∀ e ∈ kept, Instant.durationSince t e.2 ≤ c.policy.ttl)) := by
  obtain ⟨kept, cut, s₁, rfl, hok, hpruned, hcut⟩ := prune_exact h.stamped tick c.map
  have hsorted := (List.pairwise_append.mp h.sorted).1
  have hmem := mem_kept rfl h.stamped.lists.nodup
  have hold : ∀ e ∈ cut, c.policy.ttl < Instant.durationSince t e.2 := by
    intro e he
    obtain ⟨j, hj⟩ := hcut e he
    exact hj.trans_le (Nat.sub_le_sub_right (htick j) e.2)
  refine ⟨kept, s₁, _, hok, hpruned.ttl, List.prefix_append _ _, LightMap.waiters_removeAll _ _,
    ⟨hpruned.stamped, hsorted, ?_, ?_, ?_, ?_⟩, ?_, ?_⟩
  · exact fun e he => (h.past e (List.mem_append_left _ he)).trans hclock
  · intro k s hs
    obtain ⟨v, hbook, hv⟩ := h.entry k s (List.mem_append_left _ hs)
    have hdead := ((hmem k).mp (List.mem_map.mpr ⟨_, hs, rfl⟩)).2
    exact ⟨v, hbook, by rw [LightMap.get_removeAll, if_neg hdead, hv]⟩
  · intro k hk
    obtain ⟨hk, hdead⟩ := LightMap.isSome_get_removeAll.mp hk
    exact (hmem k).mpr ⟨h.tracked k hk, hdead⟩
  · intro k s v hbook
    rw [hpruned.ttl]
    rcases h.expired k s v hbook with hs | hs
    · exact (List.mem_append.mp hs).imp_right fun he => hold _ he
    · exact Or.inr (hs.trans_le (Nat.sub_le_sub_right hclock s))
  · intro e he hyoung
    refine (List.mem_append.mp he).resolve_right fun he => ?_
    obtain ⟨j, hj⟩ := hcut e he
    exact absurd (hyoung j) (Nat.not_le_of_lt hj)
  · intro htail
    exact ⟨hpruned.tailKnown htail, fun heq =>
      hpruned.all_young htail hsorted fun i => (heq i).ge⟩

/-! ## The rest of an operation -/

theorem Booked.clock_le (h : Booked c ts book clock) (hclock : clock ≤ t) : Booked c ts book t where
  stamped := h.stamped
  sorted := h.sorted
  past e he := (h.past e he).trans hclock
  entry := h.entry
  tracked := h.tracked
  expired k s v hbook :=
    (h.expired k s v hbook).imp_right fun hs => hs.trans_le (Nat.sub_le_sub_right hclock s)

theorem Booked.insert {p' : TtlPolicyInner K} (h : Booked ⟨s₁, map₁⟩ ts book t)
    (httl : p'.ttl = s₁.ttl) (hstamped : Stamped p'.arena (restamp ts k t)) :
    Booked ⟨p', (map₁.insert k v).2⟩ (restamp ts k t) (book.after t (.insert k v)) t where
  stamped := hstamped
  sorted := List.pairwise_cons.mpr ⟨fun e he => h.past e (List.mem_of_mem_filter he),
    h.sorted.sublist List.filter_sublist⟩
  past e he := by
    rcases mem_restamp.mp he with rfl | ⟨he, -⟩
    · exact le_rfl
    · exact h.past e he
  entry j u hu := by
    rcases mem_restamp.mp hu with heq | ⟨hu, hjk⟩
    · obtain ⟨rfl, rfl⟩ := Prod.mk.inj heq
      exact ⟨v, Function.update_self .., by rw [LightMap.get_insert, if_pos rfl]⟩
    · obtain ⟨w, hbook, hw⟩ := h.entry j u hu
      exact ⟨w, (Function.update_of_ne hjk ..).trans hbook,
        by rw [LightMap.get_insert, if_neg hjk, hw]⟩
  tracked j hj := by
    rw [LightMap.get_insert] at hj
    rw [restamp, List.map_cons, List.mem_cons, mem_filter_ne]
    by_cases hjk : j = k
    · exact Or.inl hjk
    · rw [if_neg hjk] at hj
      exact Or.inr ⟨h.tracked j hj, hjk⟩
  expired j u w hbook := by
    rw [httl]
    rcases eq_or_ne j k with rfl | hjk
    · rw [Book.after, Function.update_self, Option.some.injEq, Prod.mk.injEq] at hbook
      exact Or.inl (mem_restamp.mpr (Or.inl (by rw [hbook.1])))
    · rw [Book.after, Function.update_of_ne hjk] at hbook
      exact (h.expired j u w hbook).imp_left fun hu => mem_restamp.mpr (Or.inr ⟨hu, hjk⟩)

theorem Booked.remove {p' : TtlPolicyInner K} (h : Booked ⟨s₁, map₁⟩ ts book t)
    (httl : p'.ttl = s₁.ttl) (hstamped : Stamped p'.arena (ts.filter fun e => e.1 ≠ k)) :
    Booked ⟨p', (map₁.remove k).2⟩ (ts.filter fun e => e.1 ≠ k) (book.after t (.remove k)) t where
  stamped := hstamped
  sorted := h.sorted.sublist List.filter_sublist
  past e he := h.past e (List.mem_of_mem_filter he)
  entry j u hu := by
    obtain ⟨hu, hjk⟩ := List.mem_filter.mp hu
    have hjk : j ≠ k := by simpa using hjk
    obtain ⟨w, hbook, hw⟩ := h.entry j u hu
    exact ⟨w, (Function.update_of_ne hjk ..).trans hbook,
      by rw [LightMap.get_remove, if_neg hjk, hw]⟩
  tracked j hj := by
    rw [LightMap.get_remove] at hj
    by_cases hjk : j = k
    · simp [hjk] at hj
    · rw [if_neg hjk] at hj
      exact mem_filter_ne.mpr ⟨h.tracked j hj, hjk⟩
  expired j u w hbook := by
    rw [httl]
    rcases eq_or_ne j k with rfl | hjk
    · rw [Book.after, Function.update_self] at hbook
      cases hbook
    · rw [Book.after, Function.update_of_ne hjk] at hbook
      exact (h.expired j u w hbook).imp_left fun hu =>
        List.mem_filter.mpr ⟨hu, by simpa using hjk⟩

/-- What an operation does, from the state its prune leaves. The result is what the map holds
for its key, and the waiters stay. -/
theorem Booked.call (h : Booked ⟨s₁, map₁⟩ ts book clock)
    (hok : c.policy.prune rd.tick c.map = .ok (s₁, map₁)) (hclock : clock ≤ rd.now) (op : Op K V) :
    ∃ c' ts', c.call rd op = .ok (.returned (op.key.bind map₁.get), c') ∧
      c'.policy.ttl = s₁.ttl ∧ (∀ k, c'.map.waiters k = map₁.waiters k) ∧
      Booked c' ts' (book.after rd.now op) rd.now ∧
      (s₁.arena.TailKnown → (∀ k v, op = .insert k v → ts.map Prod.fst ≠ [k]) →
        c'.policy.arena.TailKnown) := by
  have hnow := h.clock_le hclock
  cases op with
  | get k =>
    refine ⟨⟨s₁, map₁⟩, ts, ?_, rfl, fun _ => rfl, hnow, fun htail _ => htail⟩
    simp only [LightCacheInner.call, Policy.locked, get_ok hok]
    rfl
  | insert k v =>
    obtain ⟨s', hins, httl, hstamped, htail⟩ := insert_ok hok h.stamped k v
    refine ⟨⟨s', (map₁.insert k v).2⟩, restamp ts k rd.now, ?_, httl,
      fun j => map₁.waiters_insert k j v, hnow.insert httl hstamped,
      fun hk hne => htail hk (hne k v rfl)⟩
    simp only [LightCacheInner.call, Policy.locked, hins, Op.key, Option.bind_some,
      ← LightMap.insert_fst map₁ k v]
    rfl
  | remove k =>
    obtain ⟨s', hremove, httl, hstamped, htail⟩ := remove_ok hok h.stamped k
    refine ⟨⟨s', (map₁.remove k).2⟩, ts.filter fun e => e.1 ≠ k, ?_, httl, map₁.waiters_remove k,
      hnow.remove httl hstamped, fun hk _ => htail hk⟩
    simp only [LightCacheInner.call, Policy.locked, hremove]
    rfl
  | prune =>
    refine ⟨⟨s₁, map₁⟩, ts, ?_, rfl, fun _ => rfl, hnow, fun htail _ => htail⟩
    simp only [LightCacheInner.call, Policy.locked, lockAndPrune_ok hok]
    rfl

/-! ## Runs -/

/-- An operation. It finds what the book says, if that has not expired. -/
theorem Booked.step (h : Booked c ts book clock) (hclock : clock ≤ rd.tick 0)
    (hnow : ∀ i, rd.tick i ≤ rd.now) (op : Op K V) :
    ∃ r c' ts', c.call rd op = .ok (.returned r, c') ∧ c'.policy.ttl = c.policy.ttl ∧
      Booked c' ts' (book.after rd.now op) rd.now ∧
      ∀ k, op.key = some k →
        (∀ s v, book k = some (s, v) →
          (∀ i, Instant.durationSince (rd.tick i) s ≤ c.policy.ttl) → r = some v) ∧
        (book k = none → r = none) := by
  obtain ⟨kept, s₁, map₁, hok, httl, -, -, h₁, hkept, -⟩ :=
    h.prune rd.tick (hclock.trans (hnow 0)) hnow
  obtain ⟨c', ts', hcall, httl', -, h', -⟩ := h₁.call hok le_rfl op
  refine ⟨_, c', ts', hcall, httl'.trans httl, h', ?_⟩
  intro k hk
  rw [hk, Option.bind_some]
  constructor
  · intro s v hbook hyoung
    have hs : (k, s) ∈ ts := by
      refine (h.expired k s v hbook).resolve_right (Nat.not_lt_of_le ?_)
      exact (Nat.sub_le_sub_right hclock s).trans (hyoung 0)
    exact h₁.get_eq_some.mpr ⟨s, hbook, hkept _ hs hyoung⟩
  · intro hbook
    rw [Option.eq_none_iff_forall_ne_some]
    intro v hv
    obtain ⟨s, hbook', -⟩ := h₁.get_eq_some.mp hv
    cases hbook.symm.trans hbook'

theorem Booked.run (h : Booked c ts book clock) {more : List (Readings × Op K V)}
    (hforward : Forward clock more) :
    ∃ c' ts', Trace.run LightCacheInner.step c more = some c' ∧ c'.policy.ttl = c.policy.ttl ∧
      Booked c' ts' (more.foldl (fun book call => book.after call.1.now call.2) book)
        (lastReading clock more) := by
  induction more generalizing c ts book clock with
  | nil => exact ⟨c, ts, rfl, rfl, h⟩
  | cons call more ih =>
    obtain ⟨rd, op⟩ := call
    obtain ⟨hclock, -, hnow, hforward⟩ := hforward
    obtain ⟨r, c₁, ts₁, hcall, httl₁, h₁, -⟩ := h.step hclock hnow op
    have hstep : c.step (rd, op) = some c₁ := by simp only [LightCacheInner.step, hcall]
    obtain ⟨c', ts', hrun, httl', h'⟩ := ih h₁ hforward
    exact ⟨c', ts', Trace.run_cons_eq_some.mpr ⟨c₁, hstep, hrun⟩, httl'.trans httl₁, h'⟩

end Booked

/-- **Nothing live is lost, and nothing comes back.** After any run, an operation on a key
returns what was last inserted under it, unless that was removed since or is older than `ttl` at
a reading of the operation's prune; and it returns nothing if there was no insert, or a remove
came after it. After the run and after the operation, the map and the arena hold the same
keys. -/
theorem ttl_keeps_live (ttl : Duration) (n : ℕ+) (hasher : K → UInt64)
    (calls : List (Readings × Op K V)) (rd : Readings) (op : Op K V)
    (hforward : Forward 0 (calls ++ [(rd, op)])) :
    ∃ (c : LightCacheInner (TtlPolicyInner K) K V) (r : Option V)
      (c' : LightCacheInner (TtlPolicyInner K) K V),
      Trace.run LightCacheInner.step
        (LightCacheInner.fromParts (TtlPolicyInner.new ttl) n hasher) calls = some c ∧
      c.call rd op = .ok (.returned r, c') ∧
      (∀ k, (c.map.get k).isSome ↔ k ∈ c.policy.arena.idxOf) ∧
      (∀ k, (c'.map.get k).isSome ↔ k ∈ c'.policy.arena.idxOf) ∧
      ∀ k, op.key = some k →
        (∀ s v, Book.ofCalls calls k = some (s, v) →
          (∀ i, Instant.durationSince (rd.tick i) s ≤ ttl) → r = some v) ∧
        (Book.ofCalls calls k = none → r = none) := by
  obtain ⟨hcalls, hclock, -, hnow, -⟩ := forward_append.mp hforward
  obtain ⟨c, ts, hrun, httl, h⟩ := (booked_fromParts ttl n hasher).run hcalls
  obtain ⟨r, c', ts', hcall, -, h', hresult⟩ := h.step hclock hnow op
  rw [httl] at hresult
  exact ⟨c, r, c', hrun, hcall, h.mirror, h'.mirror, hresult⟩

/-- A time to live of 5: at 7 a `get` finds the second of two keys, and the first one is gone. -/
theorem ttl_keeps_live_two_inserts :
    ∃ (c c' : LightCacheInner (TtlPolicyInner ℕ) ℕ ℕ),
      Trace.run LightCacheInner.step
        (LightCacheInner.fromParts (TtlPolicyInner.new 5) 1 fun _ => 0)
        [(.single 0 0, .insert 1 10), (.single 3 3, .insert 2 20)] = some c ∧
      c.call (.single 7 7) (.get 2) = .ok (.returned (some 20), c') ∧
      ∀ k, (c'.map.get k).isSome ↔ k ∈ c'.policy.arena.idxOf := by
  obtain ⟨c, r, c', hrun, hcall, -, hmirror, hresult⟩ := ttl_keeps_live 5 1 (fun _ => 0)
    [(.single 0 0, .insert 1 10), (.single 3 3, .insert 2 20)] (.single 7 7) (.get 2)
    (by simp [Forward, Readings.single, monotone_const])
  obtain rfl := (hresult 2 rfl).1 3 20 rfl (by simp [Instant.durationSince])
  exact ⟨c, c', hrun, hcall, hmirror⟩

end LightCache
