import LightCache.Policy.ArenaModels
import LightCache.Policy.Ttl

/-!
# The time-to-live policy on lists of stamps

What the lock sections of the time-to-live policy do, told by the list of tracked keys with
the time of their last insert: `prune` cuts the list, `insert` puts its key in front with a
new stamp, `remove` deletes it, `get` leaves it alone. None of them meets a fault.

Main results: `prune_ok`, `get_ok`, `insert_ok` and `remove_ok`.
-/

namespace LightCache

open LinkedArena

namespace TtlPolicyInner

variable {K V : Type} [DecidableEq K]
variable {s s₁ : TtlPolicyInner K} {map map₁ : LightMap K V} {arena : LinkedArena K (TtlNode K)}
variable {ts : List (K × Instant)} {k : K} {v : V} {rd : Readings}

/-- The key and the creation of a node. -/
def stamp (n : TtlNode K) : K × Instant := (n.key, n.creation)

/-- The arena holds nodes with the stamps `ts`, from head to tail. -/
def Stamped (a : LinkedArena K (TtlNode K)) (ts : List (K × Instant)) : Prop :=
  ∃ xs, a.Models xs ∧ xs.map stamp = ts

theorem stamped_new : Stamped (LinkedArena.new : LinkedArena K (TtlNode K)) [] :=
  ⟨[], models_new, rfl⟩

theorem Stamped.lists (h : Stamped arena ts) : arena.Lists (ts.map Prod.fst) := by
  obtain ⟨xs, hxs, rfl⟩ := h
  refine ⟨xs, hxs, ?_⟩
  rw [List.map_map]
  rfl

theorem stamp_without (xs : List (TtlNode K)) (k : K) :
    (without xs k).map stamp = (xs.map stamp).filter fun e => e.1 ≠ k := by
  rw [List.filter_map]
  rfl

/-! ## Prune -/

theorem Stamped.remove_tail_ok (h : Stamped arena ts) {i : ℕ} (ht : arena.tail = some i) :
    ∃ ts' n m arena', arena.tailNode = .ok (some (i, n)) ∧ ts = ts' ++ [stamp n] ∧
      arena.remove i = .ok (arena'.nodes.length, m, arena') ∧ m.key = n.key ∧
      Stamped arena' ts' ∧ arena'.TailKnown := by
  obtain ⟨xs, hxs, rfl⟩ := h
  obtain ⟨ys, n, m, arena', hnode, rfl, hok, hbare, hys, htail⟩ := hxs.remove_tail_ok ht
  refine ⟨ys.map stamp, n, m, arena', hnode, ?_, hok, ?_, ⟨ys, hys, rfl⟩, htail⟩
  · rw [List.map_append]
    rfl
  · have hitem := congrArg LinkedNode.item hbare
    rwa [item_bare, item_bare] at hitem

/-- The prune cuts the list of stamps, and drops the keys it cuts off, which are old. -/
theorem pruneLoop_ok (tick : ℕ → Instant) (ttl : Duration) (h : Stamped arena ts) (fuel i : ℕ)
    (map : LightMap K V) :
    ∃ kept cut arena', ts = kept ++ cut ∧
      pruneLoop tick ttl fuel i arena map =
        .ok (arena', map.removeAll (cut.map Prod.fst).reverse) ∧
      Stamped arena' kept ∧ (arena.TailKnown → arena'.TailKnown) ∧
      (arena.TailKnown → ts.length ≤ fuel → ∀ e, kept.getLast? = some e →
        ∃ j, Instant.durationSince (tick j) e.2 ≤ ttl) ∧
      ∀ e ∈ cut, ∃ j, ttl < Instant.durationSince (tick j) e.2 := by
  induction fuel generalizing arena ts i map with
  | zero =>
    refine ⟨ts, [], arena, (List.append_nil _).symm, rfl, h, id, ?_,
      fun e he => absurd he List.not_mem_nil⟩
    intro _ hlen e he
    rw [List.eq_nil_of_length_eq_zero (Nat.le_zero.mp hlen)] at he
    cases he
  | succ fuel ih =>
    rw [pruneLoop]
    cases ht : arena.tail with
    | none =>
      refine ⟨ts, [], arena, (List.append_nil _).symm, ?_, h, id, ?_,
        fun e he => absurd he List.not_mem_nil⟩
      · rw [tailNode_none ht]
        rfl
      · intro hk _ e he
        have hlen := h.lists.len_eq
        -- No tail, so no node.
        rw [LinkedArena.len, hk ht, List.length_map] at hlen
        rw [List.eq_nil_of_length_eq_zero hlen.symm] at he
        cases he
    | some i' =>
      obtain ⟨ts', n, m, arena₁, hnode, rfl, hok, hkey, h₁, htail₁⟩ := h.remove_tail_ok ht
      rw [hnode]
      by_cases hold : n.shouldEvict (tick i) ttl = true
      -- The last stamp is old: the loop drops it and goes on.
      · obtain ⟨kept, cut, arena', rfl, hloop, h', htail, hyoung, hcut⟩ :=
          ih h₁ (i + 1) (map.remove m.key).2
        refine ⟨kept, cut ++ [stamp n], arena', (List.append_assoc ..), ?_, h',
          fun _ => htail htail₁, fun _ hlen => hyoung htail₁ ?_, ?_⟩
        · simp only [bind, Except.bind, hold, if_true, hok, hloop]
          simp [stamp, hkey]
        · rw [List.length_append, List.length_singleton] at hlen
          exact Nat.le_of_succ_le_succ hlen
        · intro e he
          rcases List.mem_append.mp he with he | he
          · exact hcut e he
          · rw [List.mem_singleton.mp he]
            exact ⟨i, by
              simpa [stamp, TtlNode.shouldEvict, TtlNode.durationSinceCreation] using hold⟩
      -- The last stamp is young: the loop ends.
      · refine ⟨ts' ++ [stamp n], [], arena, (List.append_nil _).symm, ?_, h, id,
          fun _ _ e he => ⟨i, ?_⟩, fun e he => absurd he List.not_mem_nil⟩
        · simp only [bind, Except.bind, hold, Bool.false_eq_true, if_false]
          rfl
        · rw [List.getLast?_append_cons, List.getLast?_singleton, Option.some.injEq] at he
          subst he
          rw [TtlNode.shouldEvict, decide_eq_true_eq] at hold
          exact Nat.le_of_not_lt hold

/-- `s₁` is `s` with the stamps `kept`, the others dropped by a prune. -/
structure Pruned (tick : ℕ → Instant) (s s₁ : TtlPolicyInner K) (kept : List (K × Instant)) :
    Prop where
  ttl : s₁.ttl = s.ttl
  stamped : Stamped s₁.arena kept
  tailKnown : s.arena.TailKnown → s₁.arena.TailKnown
  young : s.arena.TailKnown → ∀ e, kept.getLast? = some e →
    ∃ j, Instant.durationSince (tick j) e.2 ≤ s.ttl

/-- A prune drops only keys with old stamps. -/
theorem prune_exact (h : Stamped s.arena ts) (tick : ℕ → Instant) (map : LightMap K V) :
    ∃ kept cut s₁, ts = kept ++ cut ∧
      s.prune tick map = .ok (s₁, map.removeAll (cut.map Prod.fst).reverse) ∧
      Pruned tick s s₁ kept ∧ ∀ e ∈ cut, ∃ j, s.ttl < Instant.durationSince (tick j) e.2 := by
  have hlen : ts.length = s.arena.len := by rw [h.lists.len_eq, List.length_map]
  obtain ⟨kept, cut, arena', hts, hloop, h', htail, hyoung, hcut⟩ :=
    pruneLoop_ok tick s.ttl h s.arena.len 0 map
  refine ⟨kept, cut, { s with arena := arena' }, hts, ?_,
    ⟨rfl, h', htail, fun hk => hyoung hk hlen.le⟩, hcut⟩
  simp only [prune, hloop]
  rfl

theorem prune_ok (h : Stamped s.arena ts) (tick : ℕ → Instant) (map : LightMap K V) :
    ∃ kept cut s₁, ts = kept ++ cut ∧
      s.prune tick map = .ok (s₁, map.removeAll (cut.map Prod.fst).reverse) ∧
      Pruned tick s s₁ kept := by
  obtain ⟨kept, cut, s₁, hts, hok, hpruned, -⟩ := prune_exact h tick map
  exact ⟨kept, cut, s₁, hts, hok, hpruned⟩

theorem mem_kept {ts kept cut : List (K × Instant)} (hts : ts = kept ++ cut)
    (hnd : (ts.map Prod.fst).Nodup) (j : K) :
    j ∈ kept.map Prod.fst ↔ j ∈ ts.map Prod.fst ∧ j ∉ (cut.map Prod.fst).reverse := by
  subst hts
  rw [List.map_append] at hnd ⊢
  have hkept : j ∈ kept.map Prod.fst → j ∉ cut.map Prod.fst :=
    fun hj hcut => (List.nodup_append.mp hnd).2.2 j hj j hcut rfl
  rw [List.mem_reverse, List.mem_append]
  tauto

theorem mem_filter_ne {ts : List (K × Instant)} {k j : K} :
    j ∈ (ts.filter fun e => e.1 ≠ k).map Prod.fst ↔ j ∈ ts.map Prod.fst ∧ j ≠ k := by
  simp only [List.mem_map, List.mem_filter, decide_eq_true_eq]
  constructor
  · intro hmem
    obtain ⟨e, ⟨he, hk⟩, rfl⟩ := hmem
    exact ⟨⟨e, he, rfl⟩, hk⟩
  · intro hmem
    obtain ⟨⟨e, he, rfl⟩, hk⟩ := hmem
    exact ⟨e, ⟨he, hk⟩, rfl⟩

/-! ## Stamping a key -/

theorem stamp_setCreation {xs : List (TtlNode K)} {now : Instant} {x : TtlNode K}
    (hx : x ∈ xs.map fun n => if n.key = k then { n with creation := now } else n)
    (hk : x.key = k) : stamp x = (k, now) := by
  obtain ⟨n, -, rfl⟩ := List.mem_map.mp hx
  by_cases hn : n.key = k
  · simp [hn, stamp]
  · simp only [if_neg hn] at hk
    exact absurd hk hn

theorem without_setCreation (xs : List (TtlNode K)) (k : K) (now : Instant) :
    without (xs.map fun n => if n.key = k then { n with creation := now } else n) k =
      without xs k := by
  induction xs with
  | nil => rfl
  | cons n xs ih =>
    by_cases hn : n.key = k
    · rw [List.map_cons, if_pos hn, without,
        List.filter_cons_of_neg (by simp [LinkedNode.item, hn]),
        without, List.filter_cons_of_neg (by simp [LinkedNode.item, hn])]
      exact ih
    · rw [List.map_cons, if_neg hn, without,
        List.filter_cons_of_pos (by simp [LinkedNode.item, hn]),
        without, List.filter_cons_of_pos (by simp [LinkedNode.item, hn])]
      exact congrArg _ ih

/-- The stamps after `k` was stamped at `now`. -/
def restamp (ts : List (K × Instant)) (k : K) (now : Instant) : List (K × Instant) :=
  (k, now) :: ts.filter fun e => e.1 ≠ k

theorem track_ok (h : Stamped arena ts) (now : Instant) (k : K) :
    ∃ arena', track arena now k = .ok arena' ∧ Stamped arena' (restamp ts k now) ∧
      (arena.TailKnown → ts.map Prod.fst ≠ [k] → arena'.TailKnown) := by
  have hlists := h.lists
  obtain ⟨xs, hxs, rfl⟩ := h
  by_cases hk : k ∈ (xs.map stamp).map Prod.fst
  · obtain ⟨i, hi⟩ := hlists.exists_lookup hk
    obtain ⟨n, hn⟩ := hlists.getNode_ok hi
    obtain ⟨arena₁, hmodify, hidx, hxs₁, htail₁⟩ :=
      hxs.modify_ok (f := fun node => { node with creation := now }) hi (fun _ => rfl)
        (fun _ => rfl) (fun _ => rfl) fun _ => rfl
    obtain ⟨arena', x, hmove, hx, hxk, hxs', htail⟩ := hxs₁.moveToHead_ok (hidx ▸ hi)
    refine ⟨arena', ?_, ⟨_, hxs', ?_⟩, fun ht hne => htail (htail₁ ht) fun hlen => hne ?_⟩
    · rw [track, hn]
      simp only [bind, Except.bind, hmodify]
      exact hmove
    · have hwithout := without_setCreation xs k now
      rw [List.map_cons, stamp_setCreation hx hxk]
      exact congrArg _ ((congrArg (List.map stamp) hwithout).trans (stamp_without xs k))
    · rw [List.length_map] at hlen
      obtain ⟨y, rfl⟩ := List.length_eq_one_iff.mp hlen
      simpa [eq_comm] using hk
  · have hnone : arena.getNode k = .ok none := getNode_none (hlists.lookup_eq_none hk)
    have hkeys : k ∉ keys xs := by
      rw [List.map_map] at hk
      exact hk
    obtain ⟨arena', hok, hxs', htail⟩ := hxs.insertHead_ok hkeys now
    refine ⟨arena', ?_, ⟨_, hxs', ?_⟩, fun ht _ => htail ht⟩
    · rw [track, hnone]
      exact hok
    · rw [List.map_cons, restamp, ← stamp_without, without_of_not_mem hkeys]
      rfl

/-! ## The operations -/

theorem get_ok (hprune : s.prune rd.tick map = .ok (s₁, map₁)) (k : K) :
    s.get rd k map = .ok (.done (map₁.get k), s₁, map₁) := by
  simp only [get, hprune]
  rfl

theorem insert_ok (hprune : s.prune rd.tick map = .ok (s₁, map₁)) (h : Stamped s₁.arena ts)
    (k : K) (v : V) :
    ∃ s', s.insert rd k v map = .ok (.table (.insert k v), s', map₁) ∧ s'.ttl = s₁.ttl ∧
      Stamped s'.arena (restamp ts k rd.now) ∧
      (s₁.arena.TailKnown → ts.map Prod.fst ≠ [k] → s'.arena.TailKnown) := by
  obtain ⟨arena', hok, h', htail⟩ := track_ok h rd.now k
  refine ⟨{ s₁ with arena := arena' }, ?_, rfl, h', htail⟩
  simp only [insert, hprune, bind, Except.bind, hok]
  rfl

theorem remove_ok (hprune : s.prune rd.tick map = .ok (s₁, map₁)) (h : Stamped s₁.arena ts)
    (k : K) :
    ∃ s', s.remove rd k map = .ok (.table (.remove k), s', map₁) ∧ s'.ttl = s₁.ttl ∧
      Stamped s'.arena (ts.filter fun e => e.1 ≠ k) ∧
      (s₁.arena.TailKnown → s'.arena.TailKnown) := by
  obtain ⟨xs, hxs, rfl⟩ := h
  obtain ⟨r, arena', hok, hxs', htail⟩ := hxs.removeItem_ok k
  refine ⟨{ s₁ with arena := arena' }, ?_, rfl, ⟨_, hxs', stamp_without xs k⟩, htail⟩
  simp only [remove, hprune, bind, Except.bind, hok]
  rfl

theorem lockAndPrune_ok (hprune : s.prune rd.tick map = .ok (s₁, map₁)) :
    s.lockAndPrune rd map = .ok (.done none, s₁, map₁) := by
  simp only [lockAndPrune, hprune]
  rfl

end TtlPolicyInner

end LightCache
