import LightCache.Lib.Trace
import LightCache.Policy.Clock
import LightCache.Policy.TtlOrder

/-!
# Freshness of a time-to-live cache

`prune` walks from the tail and stops at the first young node. That removes everything old as
long as the arena knows its tail and its stamps are sorted, newest first. The stamps of a
clock that never goes back are sorted; the tail is known as long as no insert updates the only
key that its prune leaves.

Main result: `ttl_fresh`. Without the condition an old value can be read: `ttl_stale`.
-/

namespace LightCache

open TtlPolicyInner

section TtlFresh

variable {K V : Type} [DecidableEq K]
variable {c c' : LightCacheInner (TtlPolicyInner K) K V} {rd : Readings} {op : Op K V}
variable {calls : List (Readings × Op K V)} {ts : List (K × Instant)} {k j : K} {v w : V}
variable {t now clock : Instant} {ttl : Duration}

/-- The insert updates the only key that its prune leaves in the arena. -/
def updatesOnlyNode (c : LightCacheInner (TtlPolicyInner K) K V) (call : Readings × Op K V) :
    Bool :=
  match call.2, c.policy.prune call.1.tick c.map with
  | .insert key _, .ok (s₁, _) => s₁.arena.len = 1 ∧ key ∈ s₁.arena.idxOf
  | _, _ => false

/-- The time and the value of the last insert of `k`. -/
def lastInsert (calls : List (Readings × Op K V)) (k : K) : Option (Instant × V) :=
  calls.reverse.findSome? fun call =>
    match call.2 with
    | .insert key value => if key = k then some (call.1.now, value) else none
    | _ => none

theorem lastInsert_insert : lastInsert (calls ++ [(rd, .insert k v)]) j =
    if k = j then some (rd.now, v) else lastInsert calls j := by
  simp only [lastInsert, List.reverse_append, List.reverse_singleton, List.singleton_append,
    List.findSome?_cons]
  split_ifs <;> rfl

theorem lastInsert_of_not_insert (h : ∀ key value, op ≠ .insert key value) :
    lastInsert (calls ++ [(rd, op)]) j = lastInsert calls j := by
  cases op with
  | insert key value => exact absurd rfl (h key value)
  | get | remove | prune => simp [lastInsert]

/-- The value `v` of `k` was inserted no more than `ttl` before `t`. -/
def Fresh (ttl : Duration) (calls : List (Readings × Op K V)) (t : Instant) (k : K) (v : V) :
    Prop :=
  ∃ u, lastInsert calls k = some (u, v) ∧ Instant.durationSince t u ≤ ttl

/-- The stamps are those of the last inserts, and cover the map. -/
structure Dated (c : LightCacheInner (TtlPolicyInner K) K V) (ts : List (K × Instant))
    (calls : List (Readings × Op K V)) (clock : Instant) : Prop where
  stamped : Stamped c.policy.arena ts
  sorted : ts.Pairwise fun a b => b.2 ≤ a.2
  past : ∀ e ∈ ts, e.2 ≤ clock
  latest : ∀ k v, c.map.get k = some v → ∃ u, lastInsert calls k = some (u, v) ∧ (k, u) ∈ ts

theorem dated_fromParts (ttl : Duration) (n : ℕ+) (hasher : K → UInt64) :
    Dated (LightCacheInner.fromParts (TtlPolicyInner.new ttl) n hasher :
      LightCacheInner (TtlPolicyInner K) K V) [] [] 0 where
  stamped := stamped_new
  sorted := List.Pairwise.nil
  past e he := absurd he List.not_mem_nil
  latest k v hk := by simp [LightCacheInner.fromParts] at hk

/-! ## Prune -/

theorem durationSince_le {t u u' : Instant} (h : u' ≤ u) (hu : Instant.durationSince t u' ≤ ttl) :
    Instant.durationSince t u ≤ ttl :=
  (Nat.sub_le_sub_left h t).trans hu

omit [DecidableEq K] in
/-- If the last of the sorted stamps is young, all of them are. -/
theorem young_of_last (hsorted : ts.Pairwise fun a b => b.2 ≤ a.2)
    (hlast : ∀ e, ts.getLast? = some e → Instant.durationSince t e.2 ≤ ttl) :
    ∀ e ∈ ts, Instant.durationSince t e.2 ≤ ttl := by
  intro e he
  rcases List.eq_nil_or_concat' ts with rfl | ⟨ts', last, rfl⟩
  · exact absurd he List.not_mem_nil
  · have hyoung := hlast last (by simp)
    rcases List.mem_append.mp he with hmem | hmem
    · exact durationSince_le ((List.pairwise_append.mp hsorted).2.2 e hmem last (by simp)) hyoung
    · rwa [List.mem_singleton.mp hmem]

/-- A prune that reads the clock no earlier than `t` leaves nothing that is too old at `t`. -/
theorem TtlPolicyInner.Pruned.all_young {tick : ℕ → Instant} {s s₁ : TtlPolicyInner K}
    (h : Pruned tick s s₁ ts) (htail : s.arena.TailKnown)
    (hsorted : ts.Pairwise fun a b => b.2 ≤ a.2) (ht : ∀ i, t ≤ tick i) :
    ∀ e ∈ ts, Instant.durationSince t e.2 ≤ s.ttl := by
  apply young_of_last hsorted
  intro e he
  obtain ⟨i, hyoung⟩ := h.young htail e he
  exact (Nat.sub_le_sub_right (ht i) e.2).trans hyoung

/-- After a prune at `t`, everything in the map is young at `t`. -/
theorem Dated.prune (h : Dated c ts calls clock) (tick : ℕ → Instant)
    (htail : c.policy.arena.TailKnown) (htick : ∀ i, tick i = t) :
    ∃ kept s₁ map₁, c.policy.prune tick c.map = .ok (s₁, map₁) ∧
      s₁.ttl = c.policy.ttl ∧ s₁.arena.TailKnown ∧ Dated ⟨s₁, map₁⟩ kept calls clock ∧
      ∀ e ∈ kept, Instant.durationSince t e.2 ≤ c.policy.ttl := by
  obtain ⟨kept, cut, s₁, rfl, hok, hpruned⟩ := prune_ok h.stamped tick c.map
  have hsorted := (List.pairwise_append.mp h.sorted).1
  refine ⟨kept, s₁, _, hok, hpruned.ttl, hpruned.tailKnown htail, ⟨hpruned.stamped, hsorted,
    fun e he => h.past e (List.mem_append_left _ he), ?_⟩,
    hpruned.all_young htail hsorted fun i => (htick i).ge⟩
  intro k v hk
  simp only [LightMap.get_removeAll] at hk
  split_ifs at hk with hdead
  obtain ⟨u, hu, hmem⟩ := h.latest k v hk
  refine ⟨u, hu, (List.mem_append.mp hmem).resolve_right fun hcut => hdead ?_⟩
  exact List.mem_reverse.mpr (List.mem_map.mpr ⟨_, hcut, rfl⟩)

theorem Dated.fresh (h : Dated c ts calls clock)
    (hyoung : ∀ e ∈ ts, Instant.durationSince t e.2 ≤ ttl) (hk : c.map.get k = some v) :
    Fresh ttl calls t k v := by
  obtain ⟨u, hu, hmem⟩ := h.latest k v hk
  exact ⟨u, hu, hyoung _ hmem⟩

/-! ## The rest of an operation -/

theorem mem_restamp {e : K × Instant} :
    e ∈ restamp ts k now ↔ e = (k, now) ∨ e ∈ ts ∧ e.1 ≠ k := by
  simp [restamp]

theorem Dated.read {m : LightMap K V} {p : TtlPolicyInner K} (h : Dated ⟨p, m⟩ ts calls clock)
    (hclock : clock ≤ rd.now) (hop : ∀ key value, op ≠ .insert key value) :
    Dated ⟨p, m⟩ ts (calls ++ [(rd, op)]) rd.now where
  stamped := h.stamped
  sorted := h.sorted
  past e he := (h.past e he).trans hclock
  latest j w hj := by
    rw [lastInsert_of_not_insert hop]
    exact h.latest j w hj

theorem Dated.insert {m : LightMap K V} {p p' : TtlPolicyInner K}
    (h : Dated ⟨p, m⟩ ts calls clock) (hclock : clock ≤ rd.now)
    (hstamped : Stamped p'.arena (restamp ts k rd.now)) :
    Dated ⟨p', (m.insert k v).2⟩ (restamp ts k rd.now) (calls ++ [(rd, .insert k v)]) rd.now where
  stamped := hstamped
  sorted := by
    refine List.pairwise_cons.mpr ⟨?_, h.sorted.sublist List.filter_sublist⟩
    intro e he
    exact (h.past e (List.mem_of_mem_filter he)).trans hclock
  past e he := by
    rcases mem_restamp.mp he with rfl | ⟨he, -⟩
    · exact le_rfl
    · exact (h.past e he).trans hclock
  latest j w hj := by
    rw [LightMap.get_insert] at hj
    rw [lastInsert_insert]
    by_cases hjk : j = k
    · rw [if_pos hjk, Option.some.injEq] at hj
      exact ⟨rd.now, by simp [hjk, hj], mem_restamp.mpr (Or.inl (by rw [hjk]))⟩
    · rw [if_neg hjk] at hj
      obtain ⟨u, hu, hmem⟩ := h.latest j w hj
      exact ⟨u, by rwa [if_neg (Ne.symm hjk)], mem_restamp.mpr (Or.inr ⟨hmem, hjk⟩)⟩

theorem Dated.remove {m : LightMap K V} {p p' : TtlPolicyInner K}
    (h : Dated ⟨p, m⟩ ts calls clock) (hclock : clock ≤ rd.now)
    (hstamped : Stamped p'.arena (ts.filter fun e => e.1 ≠ k)) :
    Dated ⟨p', (m.remove k).2⟩ (ts.filter fun e => e.1 ≠ k) (calls ++ [(rd, .remove k)])
      rd.now where
  stamped := hstamped
  sorted := h.sorted.sublist List.filter_sublist
  past e he := (h.past e (List.mem_of_mem_filter he)).trans hclock
  latest j w hj := by
    rw [LightMap.get_remove] at hj
    split_ifs at hj with hjk
    obtain ⟨u, hu, hmem⟩ := h.latest j w hj
    rw [lastInsert_of_not_insert (by simp)]
    exact ⟨u, hu, List.mem_filter.mpr ⟨hmem, by simpa using hjk⟩⟩

theorem ne_singleton_of_updates {s₁ : TtlPolicyInner K} {map₁ : LightMap K V}
    (hok : c.policy.prune rd.tick c.map = .ok (s₁, map₁)) (hstamped : Stamped s₁.arena ts)
    (hupd : updatesOnlyNode c (rd, .insert k v) = false) : ts.map Prod.fst ≠ [k] := by
  intro hts
  have hlists := hstamped.lists
  rw [hts] at hlists
  have hlen : s₁.arena.len = 1 := hlists.len_eq
  have hmem : k ∈ s₁.arena.idxOf := hlists.mem_idxOf.mpr (by simp)
  simp [updatesOnlyNode, hok, hlen, hmem] at hupd

/-- What an operation leaves, from the state its prune at `t` leaves. -/
theorem Dated.call {s₁ : TtlPolicyInner K} {map₁ : LightMap K V}
    (h : Dated ⟨s₁, map₁⟩ ts calls clock) (rd : Readings)
    (hok : c.policy.prune rd.tick c.map = .ok (s₁, map₁))
    (hyoung : ∀ e ∈ ts, Instant.durationSince t e.2 ≤ ttl) (ht : t ≤ rd.now) (hclock : clock ≤ t)
    (op : Op K V) :
    ∃ r c' ts', c.call rd op = .ok (r, c') ∧ c'.policy.ttl = s₁.ttl ∧
      Dated c' ts' (calls ++ [(rd, op)]) rd.now ∧
      (∀ e ∈ ts', Instant.durationSince t e.2 ≤ ttl) ∧
      (s₁.arena.TailKnown → updatesOnlyNode c (rd, op) = false → c'.policy.arena.TailKnown) ∧
      (∀ k, op = .get k → r = .returned (map₁.get k)) := by
  have hnow := hclock.trans ht
  cases op with
  | get k =>
    refine ⟨.returned (map₁.get k), ⟨s₁, map₁⟩, ts, ?_, rfl, h.read hnow (by simp), hyoung,
      fun htail _ => htail, ?_⟩
    · simp only [LightCacheInner.call, Policy.locked, get_ok hok]
      rfl
    · intro _ hop
      cases hop
      rfl
  | insert k v =>
    obtain ⟨s', hins, httl, hstamped, htail⟩ := insert_ok hok h.stamped k v
    refine ⟨.returned (map₁.insert k v).1, ⟨s', (map₁.insert k v).2⟩, restamp ts k rd.now, ?_, httl,
      h.insert hnow hstamped, ?_,
      fun hk hupd => htail hk (ne_singleton_of_updates hok h.stamped hupd), by simp⟩
    · simp only [LightCacheInner.call, Policy.locked, hins]
      rfl
    · intro e he
      rcases mem_restamp.mp he with rfl | ⟨he, -⟩
      · exact (Nat.sub_eq_zero_of_le ht).trans_le (Nat.zero_le _)
      · exact hyoung e he
  | remove k =>
    obtain ⟨s', hremove, httl, hstamped, htail⟩ := remove_ok hok h.stamped k
    refine ⟨.returned (map₁.remove k).1, ⟨s', (map₁.remove k).2⟩, ts.filter fun e => e.1 ≠ k, ?_,
      httl, h.remove hnow hstamped, fun e he => hyoung e (List.mem_of_mem_filter he),
      fun hk _ => htail hk, by simp⟩
    simp only [LightCacheInner.call, Policy.locked, hremove]
    rfl
  | prune =>
    refine ⟨.returned none, ⟨s₁, map₁⟩, ts, ?_, rfl, h.read hnow (by simp), hyoung,
      fun htail _ => htail, by simp⟩
    simp only [LightCacheInner.call, Policy.locked, lockAndPrune_ok hok]
    rfl

/-! ## Runs -/

theorem Dated.run (h : Dated c ts calls clock) (htail : c.policy.arena.TailKnown)
    {more : List (Readings × Op K V)} (hsteady : Steady clock more)
    (hmore :
      Trace.Each LightCacheInner.step (fun c call => updatesOnlyNode c call = false) c more) :
    ∃ c' ts', Trace.run LightCacheInner.step c more = some c' ∧ c'.policy.ttl = c.policy.ttl ∧
      c'.policy.arena.TailKnown ∧ Dated c' ts' (calls ++ more) (lastReading clock more) := by
  induction more generalizing c ts calls clock with
  | nil => exact ⟨c, ts, rfl, rfl, htail, by rwa [List.append_nil]⟩
  | cons call more ih =>
    obtain ⟨rd, op⟩ := call
    obtain ⟨hsingle, hclock, hnow, hsteady⟩ := hsteady
    have htick : ∀ i, rd.tick i = rd.tick 0 := Readings.tick_eq hsingle
    obtain ⟨kept, s₁, map₁, hok, httl, htail₁, h₁, hyoung⟩ := h.prune rd.tick htail htick
    obtain ⟨r, c₁, ts₁, hcall, httl₁, hdated, -, htail₂, -⟩ :=
      h₁.call rd hok hyoung hnow hclock op
    have hstep : c.step (rd, op) = some c₁ := by
      simp only [LightCacheInner.step, hcall]
    obtain ⟨c', ts', hrun, httl', htail', h'⟩ :=
      ih hdated (htail₂ htail₁ hmore.1) hsteady (hmore.2 c₁ hstep)
    refine ⟨c', ts', Trace.run_cons_eq_some.mpr ⟨c₁, hstep, hrun⟩,
      httl'.trans (httl₁.trans httl), htail', ?_⟩
    rwa [List.append_assoc] at h'

/-- **Freshness.** After a run in which no insert updates the only tracked key, an operation
at reading `t` leaves nothing in the map that was inserted more than `ttl` before `t`, neither
after its prune nor at its end, and a `get` returns nothing older. -/
theorem ttl_fresh (ttl : Duration) (n : ℕ+) (hasher : K → UInt64)
    (calls : List (Readings × Op K V)) (t now : Instant) (op : Op K V)
    (hsteady : Steady 0 (calls ++ [(.single t now, op)]))
    (hcalls : Trace.Each LightCacheInner.step (fun c call => updatesOnlyNode c call = false)
      (LightCacheInner.fromParts (TtlPolicyInner.new ttl) n hasher) calls) :
    ∃ (c : LightCacheInner (TtlPolicyInner K) K V) (s₁ : TtlPolicyInner K) (map₁ : LightMap K V)
      (r : Outcome V) (c' : LightCacheInner (TtlPolicyInner K) K V),
      Trace.run LightCacheInner.step
        (LightCacheInner.fromParts (TtlPolicyInner.new ttl) n hasher) calls = some c ∧
      c.policy.prune (fun _ => t) c.map = .ok (s₁, map₁) ∧
      c.call (.single t now) op = .ok (r, c') ∧
      (∀ k v, map₁.get k = some v → Fresh ttl calls t k v) ∧
      (∀ k v, c'.map.get k = some v → Fresh ttl (calls ++ [(.single t now, op)]) t k v) ∧
      (∀ k v, op = .get k → r = .returned (some v) → Fresh ttl calls t k v) := by
  obtain ⟨hsteady, hlast⟩ := steady_append.mp hsteady
  obtain ⟨c, ts, hrun, httl, htail, h⟩ :=
    (dated_fromParts ttl n hasher).run LinkedArena.tailKnown_new hsteady hcalls
  obtain ⟨-, hclock, hnow, -⟩ := hlast
  obtain ⟨kept, s₁, map₁, hok, httl₁, -, h₁, hyoung⟩ := h.prune (fun _ => t) htail fun _ => rfl
  rw [httl] at hyoung
  obtain ⟨r, c', ts', hcall, -, h', hyoung', -, hget⟩ :=
    h₁.call (.single t now) hok hyoung hnow hclock op
  refine ⟨c, s₁, map₁, r, c', hrun, hok, hcall, fun k v hk => h₁.fresh hyoung hk,
    fun k v hk => h'.fresh hyoung' hk, fun k v hop hr => h₁.fresh hyoung ?_⟩
  have hreturned := (hget k hop).symm.trans hr
  exact Outcome.returned.inj hreturned

end TtlFresh

/-- Two keys and a time to live of 5: at 7 the first one is gone. -/
theorem ttl_fresh_two_inserts :
    ∃ (c : LightCacheInner (TtlPolicyInner ℕ) ℕ ℕ) (s₁ : TtlPolicyInner ℕ) (map₁ : LightMap ℕ ℕ)
      (r : Outcome ℕ) (c' : LightCacheInner (TtlPolicyInner ℕ) ℕ ℕ),
      Trace.run LightCacheInner.step
        (LightCacheInner.fromParts (TtlPolicyInner.new 5) 1 fun _ => 0)
        [(.single 0 0, .insert 1 10), (.single 3 3, .insert 2 20)] = some c ∧
      c.policy.prune (fun _ => 7) c.map = .ok (s₁, map₁) ∧
      c.call (.single 7 7) (.get 1) = .ok (r, c') ∧
      ∀ k v, map₁.get k = some v →
        Fresh 5 [(.single 0 0, .insert 1 10), (.single 3 3, .insert 2 20)] 7 k v := by
  obtain ⟨c, s₁, map₁, r, c', hrun, hok, hcall, hfresh, -, -⟩ := ttl_fresh 5 1 (fun _ => 0)
    [(.single 0 0, .insert 1 10), (.single 3 3, .insert 2 20)] 7 7 (.get 1)
    (by simp [Steady, Readings.single]) (by decide)
  exact ⟨c, s₁, map₁, r, c', hrun, hok, hcall, hfresh⟩

/-- An insert that updates the only key loses the tail: 95 after the last insert of the key,
with a time to live of 5, `get` still returns its value. -/
theorem ttl_stale :
    ∃ (c c' : LightCacheInner (TtlPolicyInner ℕ) ℕ ℕ),
      Trace.run LightCacheInner.step
        (LightCacheInner.fromParts (TtlPolicyInner.new 5) 1 fun _ => 0)
        [(.single 0 0, .insert 1 10), (.single 5 5, .insert 1 11)] = some c ∧
      c.call (.single 100 100) (.get 1) = .ok (.returned (some 11), c') ∧
      lastInsert [(.single 0 0, .insert 1 10), (.single 5 5, .insert 1 11)] 1 = some (5, 11) :=
  ⟨_, _, rfl, rfl, rfl⟩

end LightCache
