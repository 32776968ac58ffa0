import LightCache.Lib.Trace
import LightCache.Policy.Clock
import LightCache.Policy.LruQueue
import LightCache.Policy.SortedQueue

/-!
# The LRU policy evicts the least recently used key

The arena lists its keys by their last use. The uses themselves are not in the state, so they are
kept in a history variable, the log: the keys of the inserts and of the `get`s that found a value,
the last one first. The arena is in the order in which its keys come up in the log.

An insert whose expiry overflows panics with its key in the arena but not in the map, and a `get`
of that key moves it without a value to show. But with a clock that never goes back every later
insert panics too, so nothing is ever evicted again.

Main result: `lru_evicts_oldest`.
-/

namespace LightCache

open LruPolicyInner

section LruRecency

/-- The key that a call uses: that of an insert, or of a `get` that finds a value. -/
def LightCacheInner.hits {P K V : Type} [DecidableEq K] [Policy P K V]
    (c : LightCacheInner P K V) (call : Readings × Op K V) : Option K :=
  match call.2, c.call call.1 call.2 with
  | .get key, .ok (.returned (some _), _) => some key
  | .insert key _, .ok (.returned _, _) => some key
  | _, _ => none

/-- The log after a call. -/
def LightCacheInner.log {P K V : Type} [DecidableEq K] [Policy P K V]
    (c : LightCacheInner P K V) (call : Readings × Op K V) (_ : LightCacheInner P K V)
    (log : List K) : List K :=
  (c.hits call).toList ++ log

/-- The cache with the log. -/
def LightCacheInner.logStep {P K V : Type} [DecidableEq K] [Policy P K V] :
    LightCacheInner P K V × List K → Readings × Op K V → Option (LightCacheInner P K V × List K) :=
  Trace.recording LightCacheInner.step LightCacheInner.log

variable {K V Q : Type} [DecidableEq K] [PriorityQueue K Instantᵒᵈ Q]

/-- The key is in the arena, the queue or the map of `c`, and not in that of `c'`. -/
def Leaves (c c' : LightCacheInner (LruPolicyInner K Q) K V) (j : K) : Prop :=
  (j ∈ c.policy.arena.idxOf ∧ j ∉ c'.policy.arena.idxOf) ∨
    (c.policy.expiry j ≠ none ∧ c'.policy.expiry j = none) ∨
    (c.map.get j ≠ none ∧ c'.map.get j = none)

/-- An insert of `k` takes `c` to `c'`. Of the keys that have not expired, one at most leaves, the
victim: not `k`, tracked, the one that was used longest ago when `k` was used last, and only if
the tracked keys and `k` are more than the capacity. -/
def EvictsOldest (capacity : ℕ) (c : LightCacheInner (LruPolicyInner K Q) K V) (rd : Readings)
    (k : K) (log : List K) (c' : LightCacheInner (LruPolicyInner K Q) K V) : Prop :=
  ∃ (s₁ : LruPolicyInner K Q) (map₁ : LightMap K V) (victim : Option K),
    c.policy.prune rd.tick c.map = .ok (s₁, map₁) ∧
    (∀ j, Leaves c c' j → victim = some j ∨ c.policy.Expires rd.tick j) ∧
    ∀ e, victim = some e →
      e ≠ k ∧ e ∈ s₁.arena.idxOf ∧ e ∉ c'.policy.arena.idxOf ∧
      capacity < (insert k s₁.arena.idxOf.keys).card ∧ e ∈ log ∧
      ∀ j, j = k ∨ j ∈ s₁.arena.idxOf → j ≠ e → (k :: log).idxOf j < (k :: log).idxOf e

/-- The map holds the keys `ks`, and they are in the order of their last uses. -/
structure Ranked (m : LightMap K V) (ks log : List K) : Prop where
  mirror : ∀ k, (m.get k).isSome ↔ k ∈ ks
  used : ∀ k ∈ ks, k ∈ log
  order : ks.Pairwise fun a b => log.idxOf a < log.idxOf b

/-- The arena lists the keys `ks`, and they are ranked unless expiries overflow from now on. -/
structure Recent (c : LightCacheInner (LruPolicyInner K Q) K V) (ks log : List K)
    (clock : Instant) : Prop where
  lists : c.policy.arena.Lists ks
  ranked : (∃ d, c.policy.ttl = some d ∧ Instant.max < clock + d) ∨ Ranked c.map ks log

/-! ## The order under each write -/

section Ranked

variable {m : LightMap K V} {ks ks' out log : List K} {k : K}

theorem idxOf_cons_of_ne {a b : K} (h : a ≠ b) : (b :: log).idxOf a = log.idxOf a + 1 :=
  List.idxOf_cons_ne log (Ne.symm h)

theorem Ranked.order_promote (h : Ranked m ks log) (hnd : ks.Nodup) :
    (promote ks k).Pairwise fun a b => (k :: log).idxOf a < (k :: log).idxOf b := by
  have hne : ∀ j ∈ ks.erase k, j ≠ k := fun j hj hjk => hnd.not_mem_erase (hjk ▸ hj)
  refine List.pairwise_cons.mpr ⟨?_, ?_⟩
  · intro j hj
    rw [List.idxOf_cons_self, idxOf_cons_of_ne (hne j hj)]
    exact Nat.succ_pos _
  · refine (h.order.sublist List.erase_sublist).imp_of_mem ?_
    intro a b ha hb hab
    rw [idxOf_cons_of_ne (hne a ha), idxOf_cons_of_ne (hne b hb)]
    exact Nat.succ_lt_succ hab

theorem Ranked.removeAll (h : Ranked m ks log) (hnd : ks.Nodup) (dead : List K) :
    Ranked (m.removeAll dead) (ks.diff dead) log where
  mirror k := by rw [LightMap.isSome_get_removeAll, h.mirror, hnd.mem_sdiff_iff]
  used k hk := h.used k (List.diff_subset ks dead hk)
  order := h.order.sublist (List.diff_sublist ks dead)

theorem Ranked.touch (h : Ranked m ks log) (hnd : ks.Nodup) (hk : k ∈ ks) :
    Ranked m (promote ks k) (k :: log) where
  mirror j := by
    rw [h.mirror, mem_promote]
    exact (or_iff_right_of_imp fun hj => hj ▸ hk).symm
  used j hj := List.mem_cons.mpr ((mem_promote.mp hj).imp_right (h.used j))
  order := h.order_promote hnd

theorem Ranked.insert (h : Ranked m ks log) (hnd : ks.Nodup) (hks : promote ks k = ks' ++ out)
    (hk : k ∉ out) (v : V) : Ranked ((m.removeAll out).insert k v).2 ks' (k :: log) where
  mirror j := by
    have hmem := mem_or_mem_cut hks (j := j)
    have hout := not_mem_cut hks hnd (j := j)
    rw [LightMap.get_insert]
    by_cases hjk : j = k
    · subst hjk
      simp only [if_true, Option.isSome_some, true_iff]
      exact (hmem.mpr (Or.inl rfl)).resolve_right hk
    · rw [if_neg hjk, LightMap.isSome_get_removeAll, h.mirror]
      rw [or_iff_right hjk] at hmem
      tauto
  used j hj := List.mem_cons.mpr (((mem_or_mem_cut hks).mp (Or.inl hj)).imp_right (h.used j))
  order := (List.pairwise_append.mp (hks ▸ h.order_promote hnd)).1

theorem Ranked.remove (h : Ranked m ks log) (hnd : ks.Nodup) :
    Ranked (m.remove k).2 (ks.erase k) log where
  mirror j := by
    rw [LightMap.get_remove, hnd.mem_erase_iff]
    by_cases hjk : j = k
    · simp [hjk]
    · simp [hjk, h.mirror]
  used j hj := h.used j (List.mem_of_mem_erase hj)
  order := h.order.sublist List.erase_sublist

theorem ranked_empty (n : ℕ+) (hasher : K → UInt64) :
    Ranked (LightMap.empty n hasher : LightMap K V) [] [] where
  mirror k := by simp
  used k hk := absurd hk List.not_mem_nil
  order := List.Pairwise.nil

end Ranked

/-! ## Calls -/

section Recent

variable [LawfulPriorityQueue K Instantᵒᵈ Q]
variable {c : LightCacheInner (LruPolicyInner K Q) K V} {s₁ : LruPolicyInner K Q}
variable {map₁ : LightMap K V} {ks dead log : List K} {k : K} {v : V} {rd : Readings}
variable {clock now : Instant}

omit [LawfulPriorityQueue K Instantᵒᵈ Q] in
theorem recent_fromParts (capacity : ℕ) (h : 1 < capacity) (ttl : Option Duration) (n : ℕ+)
    (hasher : K → UInt64) :
    Recent (LightCacheInner.fromParts (LruPolicyInner.new capacity h ttl) n hasher :
      LightCacheInner (LruPolicyInner K Q) K V) [] [] 0 :=
  ⟨LinkedArena.lists_new, Or.inr (ranked_empty n hasher)⟩

omit [PriorityQueue K Instantᵒᵈ Q] [LawfulPriorityQueue K Instantᵒᵈ Q] in
/-- Once an expiry overflows, all later ones do. -/
theorem Recent.clock_le (h : Recent c ks log clock) (hclock : clock ≤ now) :
    Recent c ks log now := by
  refine ⟨h.lists, h.ranked.imp_left ?_⟩
  intro hoverflows
  obtain ⟨d, hd, hlt⟩ := hoverflows
  exact ⟨d, hd, hlt.trans_le (Nat.add_le_add_right hclock d)⟩

omit [PriorityQueue K Instantᵒᵈ Q] [LawfulPriorityQueue K Instantᵒᵈ Q] in
/-- An expiry that overflows does so under the same settings too. -/
theorem Recent.of_ranked {c' : LightCacheInner (LruPolicyInner K Q) K V} {ks' log' : List K}
    (h : Recent c ks log clock) (hsame : c'.policy.SameSettings c.policy)
    (hlists : c'.policy.arena.Lists ks') (hranked : Ranked c.map ks log → Ranked c'.map ks' log') :
    Recent c' ks' log' clock := by
  refine ⟨hlists, h.ranked.imp ?_ hranked⟩
  intro hoverflows
  obtain ⟨d, hd, hlt⟩ := hoverflows
  exact ⟨d, hsame.2.trans hd, hlt⟩

theorem Recent.prune (h : Recent c ks log clock) (tick : ℕ → Instant) :
    ∃ dead s₁, c.policy.prune tick c.map = .ok (s₁, c.map.removeAll dead) ∧
      s₁.SameSettings c.policy ∧ Recent ⟨s₁, c.map.removeAll dead⟩ (ks.diff dead) log clock ∧
      Lapsed tick c.policy s₁ dead := by
  obtain ⟨dead, s₁, hok, hpruned, hlapsed⟩ := prune_exact h.lists tick c.map
  have hsame : s₁.SameSettings c.policy := ⟨hpruned.capacity, hpruned.ttl⟩
  refine ⟨dead, s₁, hok, hsame, h.of_ranked hsame hpruned.lists ?_, hlapsed⟩
  intro hranked
  exact hranked.removeAll h.lists.nodup dead

omit [LawfulPriorityQueue K Instantᵒᵈ Q] in
theorem Recent.get (h : Recent ⟨s₁, map₁⟩ ks log clock)
    (hok : c.policy.prune rd.tick c.map = .ok (s₁, map₁)) (hclock : clock ≤ rd.now) (k : K) :
    ∃ outcome c' ks', c.call rd (.get k) = .ok (outcome, c') ∧ c'.policy.SameSettings s₁ ∧
      Recent c' ks' ((c.hits (rd, .get k)).toList ++ log) rd.now := by
  obtain ⟨s', hcall, hsame, h', -⟩ := call_get hok h.lists k
  refine ⟨_, _, _, hcall, hsame, (h.clock_le hclock).of_ranked hsame h' ?_⟩
  intro hranked
  simp only [LightCacheInner.hits, hcall]
  by_cases hk : k ∈ ks
  · obtain ⟨v, hv⟩ := Option.isSome_iff_exists.mp ((hranked.mirror k).mpr hk)
    simp only [hv, if_pos hk]
    exact hranked.touch h.lists.nodup hk
  · have hnone : map₁.get k = none :=
      Option.not_isSome_iff_eq_none.mp fun hv => hk ((hranked.mirror k).mp hv)
    simp only [hnone, if_neg hk]
    exact hranked

theorem Recent.remove (h : Recent ⟨s₁, map₁⟩ ks log clock)
    (hok : c.policy.prune rd.tick c.map = .ok (s₁, map₁)) (hclock : clock ≤ rd.now) (k : K) :
    ∃ outcome c' ks', c.call rd (.remove k) = .ok (outcome, c') ∧ c'.policy.SameSettings s₁ ∧
      Recent c' ks' ((c.hits (rd, .remove k)).toList ++ log) rd.now := by
  obtain ⟨s', hcall, hsame, h', -⟩ := call_remove hok h.lists k
  refine ⟨_, _, _, hcall, hsame, (h.clock_le hclock).of_ranked hsame h' ?_⟩
  intro hranked
  exact hranked.remove h.lists.nodup

omit [LawfulPriorityQueue K Instantᵒᵈ Q] in
theorem Recent.overflow (h : Recent c ks log clock)
    (hok : c.policy.prune rd.tick c.map = .ok (s₁, c.map.removeAll dead))
    (hpruned : s₁.arena.Lists (ks.diff dead)) (hlapsed : Lapsed rd.tick c.policy s₁ dead)
    {d : Duration} (hd : s₁.ttl = some d) (hlt : Instant.max < rd.now + d) (k : K) (v : V) :
    ∃ outcome c' ks', c.call rd (.insert k v) = .ok (outcome, c') ∧ c'.policy.SameSettings s₁ ∧
      Recent c' ks' ((c.hits (rd, .insert k v)).toList ++ log) rd.now ∧
      EvictsOldest c.policy.capacity c rd k log c' := by
  obtain ⟨s', hcall, hsame, h', hexpiry⟩ := call_overflow hok hpruned hd hlt k v
  refine ⟨_, _, _, hcall, hsame, ⟨h', Or.inl ⟨d, hsame.2.trans hd, hlt⟩⟩, s₁, _, none, hok, ?_,
    fun e he => by cases he⟩
  intro j hj
  refine Or.inr (hlapsed.expired j ?_)
  by_contra hdead
  rcases hj with ⟨hin, hout⟩ | ⟨hin, hout⟩ | ⟨hin, hout⟩
  · rw [h.lists.mem_idxOf] at hin
    rw [h'.mem_idxOf, mem_promote, h.lists.nodup.mem_sdiff_iff] at hout
    exact hout (Or.inr ⟨hin, hdead⟩)
  · rw [hexpiry, hlapsed.expiry, if_neg hdead] at hout
    exact hin hout
  · rw [LightMap.get_removeAll, if_neg hdead] at hout
    exact hin hout

omit [PriorityQueue K Instantᵒᵈ Q] [LawfulPriorityQueue K Instantᵒᵈ Q] in
theorem card_insert_keys {s : LruPolicyInner K Q} (h : s.arena.Lists ks) (k : K) :
    (insert k s.arena.idxOf.keys).card = (promote ks k).length := by
  rw [← List.toFinset_card_of_nodup (nodup_promote h.nodup)]
  congr 1
  ext j
  rw [Finset.mem_insert, Finmap.mem_keys, h.mem_idxOf, List.mem_toFinset, mem_promote]

omit [DecidableEq K] [LawfulPriorityQueue K Instantᵒᵈ Q] in
theorem expiry_of_ttl (h : s₁.ttl = none) (j : K) : s₁.expiry j = none := by
  rw [expiry, Option.map_eq_none_iff.mp h]
  rfl

omit [LawfulPriorityQueue K Instantᵒᵈ Q] in
/-- What leaves in an insert was evicted or has expired. -/
theorem expires_of_leaves {s' : LruPolicyInner K Q} {ks' out : List K} {j : K}
    (h : c.policy.arena.Lists ks) (hlapsed : Lapsed rd.tick c.policy s₁ dead)
    (httl : s₁.ttl = c.policy.ttl) (h' : s'.arena.Lists ks')
    (hks : promote (ks.diff dead) k = ks' ++ out)
    (hexpiry : ∀ j, s'.expiry j = if j ∈ out then none else
      if j = k then s₁.ttl.map (rd.now + ·) else s₁.expiry j)
    (hj : Leaves c ⟨s', (((c.map.removeAll dead).removeAll out).insert k v).2⟩ j) :
    j ∈ out ∨ c.policy.Expires rd.tick j := by
  by_cases hout : j ∈ out
  · exact Or.inl hout
  · refine Or.inr (hlapsed.expired j ?_)
    by_contra hdead
    rcases hj with ⟨hin, hgone⟩ | ⟨hin, hgone⟩ | ⟨hin, hgone⟩
    · rw [h.mem_idxOf] at hin
      rw [h'.mem_idxOf] at hgone
      have hkept := h.nodup.mem_sdiff_iff.mpr ⟨hin, hdead⟩
      exact ((mem_or_mem_cut hks).mpr (Or.inr hkept)).elim hgone hout
    · rw [hexpiry, if_neg hout] at hgone
      split_ifs at hgone
      · rw [Option.map_eq_none_iff, httl] at hgone
        exact hin (expiry_of_ttl hgone j)
      · rw [hlapsed.expiry, if_neg hdead] at hgone
        exact hin hgone
    · rw [LightMap.get_insert, LightMap.get_removeAll, LightMap.get_removeAll, if_neg hout,
        if_neg hdead] at hgone
      split_ifs at hgone
      exact hin hgone

/-- The last of the keys in the order of their uses was used longest ago. -/
theorem oldest_of_promote {ks' : List K} {e j : K}
    (horder : (promote ks k).Pairwise fun a b => (k :: log).idxOf a < (k :: log).idxOf b)
    (hks : promote ks k = ks' ++ [e]) (hj : j = k ∨ j ∈ ks) (hne : j ≠ e) :
    (k :: log).idxOf j < (k :: log).idxOf e := by
  have hmem : j ∈ promote ks k := mem_promote.mpr hj
  rw [hks] at horder hmem
  have hjks : j ∈ ks' := (List.mem_append.mp hmem).resolve_right fun hje =>
    hne (List.mem_singleton.mp hje)
  exact (List.pairwise_append.mp horder).2.2 j hjks e (List.mem_singleton_self e)

/-- An insert evicts the last key if there is no room. -/
theorem Recent.insert (h : Recent c ks log clock) (hclock : clock ≤ rd.now)
    (hok : c.policy.prune rd.tick c.map = .ok (s₁, c.map.removeAll dead))
    (hsettings : s₁.SameSettings c.policy)
    (h₁ : Recent ⟨s₁, c.map.removeAll dead⟩ (ks.diff dead) log clock)
    (hlapsed : Lapsed rd.tick c.policy s₁ dead)
    (hfits : ∀ d, s₁.ttl = some d → rd.now + d ≤ Instant.max) (k : K) (v : V) :
    ∃ outcome c' ks', c.call rd (.insert k v) = .ok (outcome, c') ∧ c'.policy.SameSettings s₁ ∧
      Recent c' ks' ((c.hits (rd, .insert k v)).toList ++ log) rd.now ∧
      EvictsOldest c.policy.capacity c rd k log c' := by
  have hranked : Ranked (c.map.removeAll dead) (ks.diff dead) log := by
    refine h₁.ranked.resolve_left ?_
    intro hoverflows
    obtain ⟨d, hd, hlt⟩ := hoverflows
    exact absurd (hfits d hd) (Nat.not_le_of_lt (hlt.trans_le (Nat.add_le_add_right hclock d)))
  obtain ⟨out, s', ks', hcall, hsame, h', hks, hk, hout, hexpiry⟩ :=
    call_insert hok h₁.lists hfits k v
  have hranked' := hranked.insert h₁.lists.nodup hks hk v
  refine ⟨_, _, ks', hcall, hsame, ⟨h', Or.inr ?_⟩, s₁, _, out.head?, hok, ?_, ?_⟩
  · simp only [LightCacheInner.hits, hcall]
    exact hranked'
  · intro j hj
    refine (expires_of_leaves h.lists hlapsed hsettings.2 h' hks hexpiry hj).imp_left
      fun hjout => ?_
    rcases hout with rfl | ⟨victim, rfl, -⟩
    · exact absurd hjout List.not_mem_nil
    · rw [List.mem_singleton.mp hjout]
      rfl
  · intro e he
    obtain ⟨victim, rfl, hlen⟩ := hout.resolve_left (by rintro rfl; cases he)
    obtain rfl : victim = e := Option.some.inj he
    have hne : victim ≠ k := fun hek => hk (by simp [hek])
    have hmem : victim ∈ ks.diff dead :=
      ((mem_or_mem_cut hks).mp (Or.inr (List.mem_singleton_self victim))).resolve_left hne
    -- The victim was there after the prune, and is the oldest of those that were.
    refine ⟨hne, h₁.lists.mem_idxOf.mpr hmem, ?_, ?_, hranked.used victim hmem, ?_⟩
    · rw [h'.mem_idxOf]
      exact fun hin => not_mem_cut hks h₁.lists.nodup hin (List.mem_singleton_self victim)
    · rw [card_insert_keys h₁.lists, ← hsettings.1]
      exact hlen
    · intro j hj
      rw [h₁.lists.mem_idxOf] at hj
      exact oldest_of_promote (hranked.order_promote h₁.lists.nodup) hks hj

theorem Recent.step (h : Recent c ks log clock) (hclock : clock ≤ rd.now) (op : Op K V) :
    ∃ outcome c' ks', c.call rd op = .ok (outcome, c') ∧ c'.policy.SameSettings c.policy ∧
      Recent c' ks' ((c.hits (rd, op)).toList ++ log) rd.now ∧
      ∀ k v, op = .insert k v → EvictsOldest c.policy.capacity c rd k log c' := by
  obtain ⟨dead, s₁, hok, hsettings, h₁, hlapsed⟩ := h.prune rd.tick
  cases op with
  | get k =>
    obtain ⟨outcome, c', ks', hcall, hsame, h'⟩ := h₁.get hok hclock k
    exact ⟨outcome, c', ks', hcall, hsame.trans hsettings, h', by simp⟩
  | insert k v =>
    have hinsert : ∃ outcome c' ks', c.call rd (.insert k v) = .ok (outcome, c') ∧
        c'.policy.SameSettings s₁ ∧
        Recent c' ks' ((c.hits (rd, .insert k v)).toList ++ log) rd.now ∧
        EvictsOldest c.policy.capacity c rd k log c' := by
      by_cases hfits : ∀ d, s₁.ttl = some d → rd.now + d ≤ Instant.max
      · exact h.insert hclock hok hsettings h₁ hlapsed hfits k v
      · simp only [not_forall, not_le] at hfits
        obtain ⟨d, hd, hlt⟩ := hfits
        exact h.overflow hok h₁.lists hlapsed hd hlt k v
    obtain ⟨outcome, c', ks', hcall, hsame, h', hevicts⟩ := hinsert
    refine ⟨outcome, c', ks', hcall, hsame.trans hsettings, h', ?_⟩
    intro _ _ hop
    cases hop
    exact hevicts
  | remove k =>
    obtain ⟨outcome, c', ks', hcall, hsame, h'⟩ := h₁.remove hok hclock k
    exact ⟨outcome, c', ks', hcall, hsame.trans hsettings, h', by simp⟩
  | prune => exact ⟨_, _, _, call_prune hok, hsettings, h₁.clock_le hclock, by simp⟩

theorem Recent.run (h : Recent c ks log clock) {calls : List (Readings × Op K V)}
    (hforward : Forward clock calls) :
    ∃ c' ks' log', Trace.run LightCacheInner.logStep (c, log) calls = some (c', log') ∧
      c'.policy.SameSettings c.policy ∧ Recent c' ks' log' (lastReading clock calls) := by
  induction calls generalizing c ks log clock with
  | nil => exact ⟨c, ks, log, rfl, ⟨rfl, rfl⟩, h⟩
  | cons call calls ih =>
    obtain ⟨rd, op⟩ := call
    obtain ⟨hclock, -, hnow, hforward⟩ := hforward
    obtain ⟨outcome, c₁, ks₁, hcall, hsame, h₁, -⟩ := h.step (hclock.trans (hnow 0)) op
    have hstep : c.step (rd, op) = some c₁ := by simp only [LightCacheInner.step, hcall]
    obtain ⟨c', ks', log', hrun, hsame', h'⟩ := ih h₁ hforward
    exact ⟨c', ks', log', Trace.run_cons_eq_some.mpr
      ⟨_, Trace.recording_eq_some.mpr ⟨hstep, rfl⟩, hrun⟩, hsame'.trans hsame, h'⟩

/-- **LRU eviction.** In every run of a cache whose clock never goes back, an insert evicts one key
at most: the one that was used longest ago, never its own key, and only when there is no room.
Every other key that leaves the arena, the queue or the map in that insert has expired. -/
theorem lru_evicts_oldest (capacity : ℕ) (hcap : 1 < capacity) (ttl : Option Duration) (n : ℕ+)
    (hasher : K → UInt64) (calls : List (Readings × Op K V)) (rd : Readings) (k : K) (v : V)
    (hforward : Forward 0 (calls ++ [(rd, .insert k v)])) :
    ∃ (c : LightCacheInner (LruPolicyInner K Q) K V) (log : List K) (outcome : Outcome V)
      (c' : LightCacheInner (LruPolicyInner K Q) K V),
      Trace.run LightCacheInner.logStep
        (LightCacheInner.fromParts (LruPolicyInner.new capacity hcap ttl) n hasher, []) calls =
          some (c, log) ∧
      c.call rd (.insert k v) = .ok (outcome, c') ∧ EvictsOldest capacity c rd k log c' := by
  obtain ⟨hcalls, hclock, -, hnow, -⟩ := forward_append.mp hforward
  obtain ⟨c, ks, log, hrun, hsame, h⟩ :=
    (recent_fromParts (K := K) (V := V) (Q := Q) capacity hcap ttl n hasher).run hcalls
  obtain ⟨outcome, c', ks', hcall, -, -, hevicts⟩ :=
    h.step (hclock.trans (hnow 0)) (.insert k v)
  have hcapacity : c.policy.capacity = capacity := hsame.1
  exact ⟨c, log, outcome, c', hrun, hcall, hcapacity ▸ hevicts k v rfl⟩

end Recent

end LruRecency

/-- Room for two. Key 1 is used again after key 2, so the third key takes the place of key 2. -/
theorem lru_evicts_oldest_three_inserts :
    ∃ (c : LightCacheInner (LruPolicyInner ℕ (SortedQueue ℕ Instantᵒᵈ)) ℕ ℕ) (log : List ℕ)
      (outcome : Outcome ℕ)
      (c' : LightCacheInner (LruPolicyInner ℕ (SortedQueue ℕ Instantᵒᵈ)) ℕ ℕ),
      Trace.run LightCacheInner.logStep
        (LightCacheInner.fromParts (LruPolicyInner.new 2 (by decide) (some 5)) 1 fun _ => 0, [])
        [(.single 0 0, .insert 1 10), (.single 1 1, .insert 2 20), (.single 2 2, .get 1)] =
          some (c, log) ∧
      log = [1, 2, 1] ∧ c.call (.single 3 3) (.insert 3 30) = .ok (outcome, c') ∧
      2 ∈ c.policy.arena.idxOf ∧ 2 ∉ c'.policy.arena.idxOf ∧
      EvictsOldest 2 c (.single 3 3) 3 log c' := by
  obtain ⟨c, log, outcome, c', hrun, hcall, hevicts⟩ :=
    @lru_evicts_oldest ℕ ℕ (SortedQueue ℕ Instantᵒᵈ) _ _ _ 2 (by decide) (some 5) 1 (fun _ => 0)
      [(.single 0 0, .insert 1 10), (.single 1 1, .insert 2 20), (.single 2 2, .get 1)]
      (.single 3 3) 3 30 (by simp [Forward, Readings.single, monotone_const])
  obtain ⟨rfl, rfl⟩ := Prod.mk.inj (Option.some.inj hrun)
  obtain ⟨rfl, rfl⟩ := Prod.mk.inj (Except.ok.inj hcall)
  exact ⟨_, _, _, _, hrun, rfl, hcall, by decide, by decide, hevicts⟩

end LightCache
