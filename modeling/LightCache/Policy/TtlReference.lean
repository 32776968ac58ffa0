import LightCache.Policy.Reference
import LightCache.Policy.TtlBook

/-!
# The time-to-live cache is its reference cache

The arena has the keys of the reference cache in the same order, with the stamps that give their
expiries, and the map has its values. So the cache gives the same answers, as long as the clock
never goes back and the arena knows its tail.

Main result: `ttl_refines_reference`.
-/

namespace LightCache

open TtlPolicyInner

section TtlReference

variable {K V : Type} [DecidableEq K]

/-- The cache holds what the reference cache holds. -/
structure TtlMirrors {ttl : Duration} (c : LightCacheInner (TtlPolicyInner K) K V)
    (r : Reference K V (.timed ttl)) (ts : List (K × Instant)) (book : Book K V)
    (clock : Instant) : Prop where
  ttl_eq : c.policy.ttl = ttl
  booked : Booked c ts book clock
  tailKnown : c.policy.arena.TailKnown
  keys : r.keys = ts.map Prod.fst
  item : ∀ k s v, (k, s) ∈ ts → c.map.get k = some v →
    r.entries.lookup k = some { value := v, expires := some (s + ttl) }

variable {ttl : Duration} {c : LightCacheInner (TtlPolicyInner K) K V}
variable {r : Reference K V (.timed ttl)} {s₁ : TtlPolicyInner K} {map₁ : LightMap K V}
variable {ts : List (K × Instant)} {book : Book K V} {clock t : Instant} {rd : Readings}
variable {tick : ℕ → Instant} {k : K} {v : V} {op : Op K V}

theorem ttlMirrors_fromParts (n : ℕ+) (hasher : K → UInt64) :
    TtlMirrors (LightCacheInner.fromParts (TtlPolicyInner.new ttl) n hasher :
      LightCacheInner (TtlPolicyInner K) K V) (Reference.empty (.timed ttl)) [] Book.empty 0 where
  ttl_eq := rfl
  booked := booked_fromParts ttl n hasher
  tailKnown := LinkedArena.tailKnown_new
  keys := rfl
  item _ _ _ hs := absurd hs List.not_mem_nil

theorem TtlMirrors.entry (h : TtlMirrors c r ts book clock) {s : Instant} (hs : (k, s) ∈ ts) :
    ∃ v, c.map.get k = some v ∧
      r.entries.lookup k = some { value := v, expires := some (s + ttl) } := by
  obtain ⟨v, -, hv⟩ := h.booked.entry k s hs
  exact ⟨v, hv, h.item k s v hs hv⟩

theorem TtlMirrors.value (h : TtlMirrors c r ts book clock) (k : K) : c.map.get k = r.get k := by
  by_cases hk : k ∈ ts.map Prod.fst
  · obtain ⟨⟨k, s⟩, hs, rfl⟩ := List.mem_map.mp hk
    obtain ⟨v, hv, hitem⟩ := h.entry hs
    rw [hv, Reference.get, hitem]
    rfl
  · have hnone : c.map.get k = none :=
      Option.not_isSome_iff_eq_none.mp fun hsome => hk (h.booked.tracked k hsome)
    have hnot : k ∉ r.entries := fun hin => hk (h.keys ▸ AList.mem_keys.mp hin)
    rw [hnone, Reference.get, AList.lookup_eq_none.mpr hnot]
    rfl

/-! ## Prune -/

theorem alive_iff {s : Instant} :
    (Item.mk v (some (s + ttl))).alive t = true ↔ Instant.durationSince t s ≤ ttl := by
  simp only [Item.alive, Option.all_some, decide_eq_true_eq, Instant.durationSince]
  exact Nat.sub_le_iff_le_add'.symm

theorem TtlMirrors.prune (h : TtlMirrors c r ts book clock) (hclock : clock ≤ t)
    (htick : ∀ i, tick i = t) :
    ∃ kept s₁ map₁, c.policy.prune tick c.map = .ok (s₁, map₁) ∧
      TtlMirrors ⟨s₁, map₁⟩ (r.prune t) kept book t := by
  obtain ⟨kept, s₁, map₁, hok, httl, hstart, -, h₁, hyoung, htail⟩ :=
    h.booked.prune tick hclock fun i => (htick i).le
  obtain ⟨htail, hkept⟩ := htail h.tailKnown
  have hkept := hkept htick
  have hnd := h.booked.stamped.lists.nodup
  -- A stamp is kept exactly if it is young at `t`.
  have hmem {k : K} {s : Instant} (hs : (k, s) ∈ ts) :
      k ∈ kept.map Prod.fst ↔ Instant.durationSince t s ≤ ttl := by
    constructor
    · intro hk
      obtain ⟨e, he, rfl⟩ := List.mem_map.mp hk
      have heq : e = (e.1, s) := List.inj_on_of_nodup_map hnd (hstart.subset he) hs rfl
      rw [heq] at he
      exact h.ttl_eq ▸ hkept _ he
    · intro hle
      refine List.mem_map.mpr ⟨_, hyoung _ hs fun i => ?_, rfl⟩
      rw [htick, h.ttl_eq]
      exact hle
  have halive (k : K) (item : Item V) (hk : r.entries.lookup k = some item) :
      item.alive t = decide (k ∈ kept.map Prod.fst) := by
    have hin : k ∈ ts.map Prod.fst := by
      rw [← h.keys]
      exact AList.mem_keys.mp (AList.lookup_isSome.mp (by rw [hk]; rfl))
    obtain ⟨⟨k, s⟩, hs, rfl⟩ := List.mem_map.mp hin
    obtain ⟨v, -, hitem⟩ := h.entry hs
    obtain rfl := Option.some.inj (hitem.symm.trans hk)
    rw [Bool.eq_iff_iff, alive_iff, decide_eq_true_eq]
    exact (hmem hs).symm
  refine ⟨kept, s₁, map₁, hok, httl.trans h.ttl_eq, h₁, htail, ?_, ?_⟩
  -- The keys stay in their order.
  · obtain ⟨cut, rfl⟩ := hstart
    have hcut := mem_kept rfl hnd
    refine (AList.keys_restrict halive).trans ?_
    change r.keys.filter _ = _
    rw [h.keys, List.map_append, List.filter_append, List.filter_eq_self.mpr (by simp),
      List.filter_eq_nil_iff.mpr, List.append_nil]
    intro k hk hin
    exact ((hcut k).mp (of_decide_eq_true hin)).2 (List.mem_reverse.mpr hk)
  · intro k s v hs hv
    obtain ⟨u, hbook, hu⟩ := h₁.entry k s hs
    obtain rfl : u = v := Option.some.inj (hu.symm.trans hv)
    obtain ⟨w, hbook', hw⟩ := h.booked.entry k s (hstart.subset hs)
    obtain rfl : w = u := (Prod.mk.inj (Option.some.inj (hbook'.symm.trans hbook))).2
    show (r.entries.restrict _).lookup k = _
    rw [AList.lookup_restrict, h.item k s w (hstart.subset hs) hw]
    exact Option.filter_eq_some_iff.mpr ⟨rfl, alive_iff.mpr (h.ttl_eq ▸ hkept _ hs)⟩

/-! ## The rest of an operation -/

theorem map_fst_filter_ne (hnd : (ts.map Prod.fst).Nodup) (k : K) :
    (ts.filter fun e => decide (e.1 ≠ k)).map Prod.fst = (ts.map Prod.fst).erase k := by
  rw [hnd.erase_eq_filter, List.filter_map]
  congr 1
  exact List.filter_congr fun e _ => by simp [bne, beq_eq_decide]

theorem TtlMirrors.clock_le (h : TtlMirrors c r ts book clock) (hclock : clock ≤ t) :
    TtlMirrors c r ts book t where
  ttl_eq := h.ttl_eq
  booked := h.booked.clock_le hclock
  tailKnown := h.tailKnown
  keys := h.keys
  item := h.item

theorem TtlMirrors.insert (h : TtlMirrors ⟨s₁, map₁⟩ r ts book t)
    (hok : c.policy.prune rd.tick c.map = .ok (s₁, map₁)) (hne : r.keys ≠ [k]) (hnow : rd.now = t) :
    ∃ c' ts', c.call rd (.insert k v) = .ok (.returned (r.get k), c') ∧
      TtlMirrors c' (r.insert t k v) ts' (book.after t (.insert k v)) t := by
  subst hnow
  obtain ⟨s', hins, httl, hstamped, htail⟩ := insert_ok hok h.booked.stamped k v
  have hget : map₁.get k = r.get k := h.value k
  refine ⟨⟨s', (map₁.insert k v).2⟩, restamp ts k rd.now, ?_, httl.trans h.ttl_eq,
    h.booked.insert httl hstamped, htail h.tailKnown (h.keys ▸ hne), ?_, ?_⟩
  · rw [← hget, ← LightMap.insert_fst map₁ k v]
    simp only [LightCacheInner.call, Policy.locked, hins]
    rfl
  · show (r.entries.insert k _).keys = _
    rw [AList.keys_insert, restamp, List.map_cons, map_fst_filter_ne h.booked.stamped.lists.nodup,
      ← h.keys]
    rfl
  · intro j u w hu hw
    change (map₁.insert k v).2.get j = some w at hw
    show (r.entries.insert k _).lookup j = _
    rw [LightMap.get_insert] at hw
    rw [AList.lookup_insert_ite]
    rcases mem_restamp.mp hu with heq | ⟨hu, hjk⟩
    · obtain ⟨rfl, rfl⟩ := Prod.mk.inj heq
      rw [if_pos rfl] at hw
      rw [if_pos rfl, Option.some.inj hw]
      rfl
    · rw [if_neg hjk] at hw
      rw [if_neg hjk]
      exact h.item j u w hu hw

theorem TtlMirrors.remove (h : TtlMirrors ⟨s₁, map₁⟩ r ts book t)
    (hok : c.policy.prune rd.tick c.map = .ok (s₁, map₁)) :
    ∃ c' ts', c.call rd (.remove k) = .ok (.returned (r.get k), c') ∧
      TtlMirrors c' (r.remove k) ts' (book.after t (.remove k)) t := by
  obtain ⟨s', hremove, httl, hstamped, htail⟩ := remove_ok hok h.booked.stamped k
  have hget : map₁.get k = r.get k := h.value k
  refine ⟨⟨s', (map₁.remove k).2⟩, ts.filter fun e => e.1 ≠ k, ?_, httl.trans h.ttl_eq,
    h.booked.remove httl hstamped, htail h.tailKnown, ?_, ?_⟩
  · rw [← hget]
    simp only [LightCacheInner.call, Policy.locked, hremove]
    rfl
  · show (r.entries.erase k).keys = _
    rw [AList.keys_erase, map_fst_filter_ne h.booked.stamped.lists.nodup, ← h.keys]
    rfl
  · intro j u w hu hw
    change (map₁.remove k).2.get j = some w at hw
    show (r.entries.erase k).lookup j = _
    obtain ⟨hu, hjk⟩ := List.mem_filter.mp hu
    have hjk : j ≠ k := by simpa using hjk
    rw [LightMap.get_remove, if_neg hjk] at hw
    rw [AList.lookup_erase_ite, if_neg hjk]
    exact h.item j u w hu hw

/-! ## Runs -/

/-- An operation that does not update the only entry gives the answer of the reference cache. -/
theorem TtlMirrors.step (h : TtlMirrors c r ts book clock) (htick : ∀ i, rd.tick i = rd.tick 0)
    (hclock : clock ≤ rd.tick 0) (hnow : rd.tick 0 ≤ rd.now)
    (hmoves : r.movesOnly (rd, op) = false) :
    ∃ ts', (c.answer (rd, op)).1 = (r.call (rd, op)).1 ∧
      TtlMirrors (c.answer (rd, op)).2 (r.call (rd, op)).2 ts' (book.after rd.now op) rd.now := by
  obtain ⟨kept, s₁, map₁, hok, h₁⟩ := h.prune hclock htick
  have h₂ := h₁.clock_le hnow
  suffices hcall : ∃ c' ts', c.call rd op =
      .ok (.returned ((r.prune (rd.tick 0)).apply rd.now op).1, c') ∧
      TtlMirrors c' ((r.prune (rd.tick 0)).apply rd.now op).2 ts' (book.after rd.now op) rd.now by
    obtain ⟨c', ts', hcall, h'⟩ := hcall
    simp only [LightCacheInner.answer, hcall]
    exact ⟨ts', rfl, h'⟩
  cases op with
  | get k =>
    have hget : map₁.get k = (r.prune (rd.tick 0)).get k := h₁.value k
    refine ⟨⟨s₁, map₁⟩, kept, ?_, h₂⟩
    simp only [LightCacheInner.call, Policy.locked, get_ok hok, hget]
    rfl
  | insert k v => exact h₂.insert hok (by simpa [Reference.movesOnly, Rules.moves] using hmoves) rfl
  | remove k => exact h₂.remove hok
  | prune =>
    refine ⟨⟨s₁, map₁⟩, kept, ?_, h₂⟩
    simp only [LightCacheInner.call, Policy.locked, lockAndPrune_ok hok]
    rfl

/-- The cache holds what the reference cache holds, and what is left of the run is one of a steady
clock that updates no only entry. -/
def TtlFollows (calls : List (Readings × Op K V)) (c : LightCacheInner (TtlPolicyInner K) K V)
    (r : Reference K V (.timed ttl)) : Prop :=
  ∃ ts book clock, TtlMirrors c r ts book clock ∧ Steady clock calls ∧
    Trace.Each Reference.step (fun r call => r.movesOnly call = false) r calls

/-- Such a run is that of the reference cache. -/
theorem TtlFollows.outputs {calls : List (Readings × Op K V)} (h : TtlFollows calls c r) :
    (Trace.outputs LightCacheInner.answer c calls).1 = (Trace.outputs Reference.call r calls).1 ∧
      TtlFollows [] (Trace.outputs LightCacheInner.answer c calls).2
        (Trace.outputs Reference.call r calls).2 := by
  refine Trace.outputs_eq_of_rest ?_ h
  intro c r call calls h
  obtain ⟨ts, book, clock, h, ⟨hsingle, hclock, hnow, hsteady⟩, hmoves⟩ := h
  obtain ⟨ts', hanswer, h'⟩ := h.step (Readings.tick_eq hsingle) hclock hnow hmoves.1
  exact ⟨hanswer, ts', _, _, h', hsteady, hmoves.2 _ rfl⟩

/-- **The time-to-live cache refines its reference cache.** Every run of a steady clock in which no
insert updates the only entry gives the same answers, and leaves the same keys in the same order
and the same values. -/
theorem ttl_refines_reference (ttl : Duration) (n : ℕ+) (hasher : K → UInt64)
    (calls : List (Readings × Op K V)) (hsteady : Steady 0 calls)
    (hmoves : Trace.Each Reference.step (fun r call => r.movesOnly call = false)
      (Reference.empty (.timed ttl)) calls) :
    let code := Trace.outputs LightCacheInner.answer
      (LightCacheInner.fromParts (TtlPolicyInner.new ttl) n hasher) calls
    let reference := Trace.outputs Reference.call (Reference.empty (.timed ttl)) calls
    code.1 = reference.1 ∧ code.2.policy.arena.Lists reference.2.keys ∧
      ∀ k, code.2.map.get k = reference.2.get k := by
  have hfollows : TtlFollows calls (LightCacheInner.fromParts (TtlPolicyInner.new ttl) n hasher)
      (Reference.empty (.timed ttl)) := ⟨_, _, _, ttlMirrors_fromParts n hasher, hsteady, hmoves⟩
  obtain ⟨hanswers, ts, book, clock, h, -⟩ := hfollows.outputs
  refine ⟨hanswers, ?_, h.value⟩
  rw [h.keys]
  exact h.booked.stamped.lists

end TtlReference

/-- A time to live of 5: key 1 has expired at 6, and key 2 has not. -/
theorem ttl_refines_reference_five_calls :
    (Trace.outputs LightCacheInner.answer
      (LightCacheInner.fromParts (TtlPolicyInner.new 5 : TtlPolicyInner ℕ) 1 fun _ => 0)
      [(.single 0 0, .insert 1 10), (.single 1 1, .insert 2 20), (.single 2 2, .insert 2 21),
        (.single 6 6, .get 1), (.single 7 7, .get 2)]).1 =
      [.ok (.returned none), .ok (.returned none), .ok (.returned (some 20)),
        .ok (.returned none), .ok (.returned (some 21))] :=
  (ttl_refines_reference 5 1 (fun _ => 0) _ (by simp [Steady, Readings.single]) (by decide)).1

end LightCache
