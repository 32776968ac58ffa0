import LightCache.Lib.Trace
import LightCache.Policy.Tracking

/-!
# What a failed insert of the LRU policy leaves

An insert puts its key at the head of the arena, then computes the expiry, and then writes the
queue, evicts and writes the map. When the expiry is past the last instant, the addition panics
in between. Nothing is poisoned, so the cache is used on with the arena as it is then: the key is
in it, and in neither the queue nor the map, or it has moved.

Main result: `failed_insert_iff`: only where the key was at the head already does a failed insert
leave everything as it was. The other case is `failed_insert_tracks`.
-/

namespace LightCache

open LinkedArena LruPolicyInner

section LruFailure

variable {K V Q : Type} [DecidableEq K] [PriorityQueue K Instantᵒᵈ Q]
variable {c : LightCacheInner (LruPolicyInner K Q) K V} {rd : Readings} {k : K} {v : V}
variable {arena arena' : LinkedArena K (LruNode K)} {ks : List K} {now : Instant}

/-- The insert completes, or it leaves the arena, the queue and the map as its prune left them. -/
def InsertIntact (c : LightCacheInner (LruPolicyInner K Q) K V) (rd : Readings) (k : K) (v : V) :
    Prop :=
  ∃ s₁ map₁ outcome c', c.policy.prune rd.tick c.map = .ok (s₁, map₁) ∧
    c.call rd (.insert k v) = .ok (outcome, c') ∧
    ((∃ r, outcome = .returned r) ∨ c' = ⟨s₁, map₁⟩)

/-- In the arena that the prune of an insert leaves, the key is at the head, and it is not the only
one, or the tail is lost already. -/
def headed (c : LightCacheInner (LruPolicyInner K Q) K V) (rd : Readings) (k : K) : Bool :=
  match c.policy.prune rd.tick c.map with
  | .ok (s₁, _) =>
    match s₁.arena.headNode with
    | .ok (some (_, n)) => n.key = k ∧ (s₁.arena.len ≠ 1 ∨ s₁.arena.tail = none)
    | _ => false
  | .error _ => false

omit [DecidableEq K] in
theorem LruNode.ext_bare {n n' : LruNode K} (h : bare n = bare n')
    (hprev : LinkedNode.prev n = LinkedNode.prev n')
    (hnext : LinkedNode.next n = LinkedNode.next n') : n = n' := by
  have hkey : (bare n).key = (bare n').key := congrArg LruNode.key h
  cases n
  cases n'
  obtain rfl := hkey
  obtain rfl := hprev
  obtain rfl := hnext
  rfl

theorem track_eq_self_iff (h : arena.Lists ks) (hok : track arena now k = .ok arena') :
    arena' = arena ↔ ks.head? = some k ∧ (arena.len ≠ 1 ∨ arena.tail = none) := by
  obtain ⟨b, hb, h', -⟩ := track_ok h now k
  obtain rfl : b = arena' := Except.ok.inj (hb.symm.trans hok)
  constructor
  · intro hself
    subst hself
    have hks : promote ks k = ks := h'.unique h
    have hhead : ks.head? = some k := by
      rw [← hks]
      rfl
    refine ⟨hhead, ?_⟩
    by_contra hnot
    rw [not_or, not_not] at hnot
    obtain ⟨hlen, htail⟩ := hnot
    have hk : k ∈ b.idxOf := h.mem_idxOf.mpr (List.mem_of_head? hhead)
    obtain ⟨i, b', hi, hmove, -, htail'⟩ := h.moveToHead_only hk hlen
    have hb' : track b now k = .ok b' := (track_tracked h hi now).trans hmove
    obtain rfl : b' = b := Except.ok.inj (hb'.symm.trans hok)
    exact htail htail'
  · intro hself
    obtain ⟨hhead, htail⟩ := hself
    obtain ⟨ks', rfl⟩ := List.head?_eq_some_iff.mp hhead
    obtain ⟨i, hi⟩ := h.exists_lookup List.mem_cons_self
    have hmove : arena.moveToHead i = .ok arena := by
      refine h.moveToHead_self hi (fun _ _ => LruNode.ext_bare) ?_
      refine htail.symm.imp_right fun hlen hnil => hlen ?_
      rw [h.len_eq, hnil]
      rfl
    have htrack : track arena now k = .ok arena := (track_tracked h hi now).trans hmove
    exact Except.ok.inj (hok.symm.trans htrack)

theorem headed_iff {s₁ : LruPolicyInner K Q} {map₁ : LightMap K V}
    (hok : c.policy.prune rd.tick c.map = .ok (s₁, map₁)) (h : s₁.arena.Lists ks) :
    headed c rd k = true ↔
      ks.head? = some k ∧ (s₁.arena.len ≠ 1 ∨ s₁.arena.tail = none) := by
  obtain ⟨node, hnode, hhead⟩ := h.headNode_ok
  rw [headed, hok, ← hhead]
  simp only [hnode]
  cases node with
  | none => simp
  | some p => simp [LinkedNode.item]

/-- An insert whose expiry fits completes. Any other tracks its key, and leaves all else as the
prune left it. -/
theorem insertIntact_iff (h : c.policy.arena.Lists ks) :
    InsertIntact c rd k v ↔ expiryFits c rd (.insert k v) = true ∨ headed c rd k = true := by
  obtain ⟨dead, s₁, hok, hpruned⟩ := prune_ok h rd.tick c.map
  by_cases hexp : expiryFits c rd (.insert k v) = true
  · refine iff_of_true ?_ (Or.inl hexp)
    have hfits : ∀ d, s₁.ttl = some d → rd.now + d ≤ Instant.max := fun d hd =>
      expiry_le hexp (hpruned.ttl ▸ hd)
    obtain ⟨out, s₂, s', hins, -⟩ := insert_ok hok hpruned.lists hfits k v
    have hcall : c.call rd (.insert k v) =
        .ok (LightCacheInner.finish ⟨s', (c.map.removeAll dead).removeAll out⟩
          (.table (.insert k v))) := by
      simp only [LightCacheInner.call, Policy.locked, hins]
      rfl
    exact ⟨s₁, _, _, _, hok, hcall, Or.inl ⟨_, rfl⟩⟩
  · rw [or_iff_right hexp, headed_iff hok hpruned.lists]
    obtain ⟨arena', htrack, -⟩ := track_ok hpruned.lists rd.now k
    rw [← track_eq_self_iff hpruned.lists htrack]
    have hcall : c.call rd (.insert k v) =
        .ok (.panicked, ⟨{ s₁ with arena := arena' }, c.map.removeAll dead⟩) := by
      simp only [expiryFits_iff, not_forall, not_le] at hexp
      obtain ⟨d, hd, hlt⟩ := hexp
      simp only [LightCacheInner.call, Policy.locked,
        insert_panicked hok htrack (hpruned.ttl.trans hd) hlt v]
      rfl
    constructor
    · intro hintact
      obtain ⟨s₁', map₁', outcome, c', hok', hcall', hcases⟩ := hintact
      obtain ⟨rfl, rfl⟩ := Prod.mk.inj (Except.ok.inj (hok.symm.trans hok'))
      obtain ⟨rfl, rfl⟩ := Prod.mk.inj (Except.ok.inj (hcall.symm.trans hcall'))
      rcases hcases with ⟨r, hr⟩ | hsame
      · cases hr
      · exact congrArg (fun c => c.policy.arena) hsame
    · intro hsame
      refine ⟨s₁, _, _, _, hok, hcall, Or.inr ?_⟩
      rw [hsame]

/-- **Failed inserts.** In every state that a sequence of calls leaves, panicked inserts among them,
an insert completes or leaves everything as its prune left it exactly if its expiry fits, or its
key is at the head of the arena already and moving it there again does not lose the tail. -/
theorem failed_insert_iff (capacity : ℕ) (hcap : 1 < capacity) (ttl : Option Duration) (n : ℕ+)
    (hasher : K → UInt64) (calls : List (Readings × Op K V)) (rd : Readings) (k : K) (v : V) :
    ∃ c : LightCacheInner (LruPolicyInner K Q) K V,
      Trace.run LightCacheInner.step
        (LightCacheInner.fromParts (LruPolicyInner.new capacity hcap ttl) n hasher) calls = some c ∧
      (InsertIntact c rd k v ↔ expiryFits c rd (.insert k v) = true ∨ headed c rd k = true) := by
  have hstep : ∀ (c : LightCacheInner (LruPolicyInner K Q) K V) (call : Readings × Op K V),
      (∃ ks, c.policy.arena.Lists ks) → True →
      ∃ c', c.step call = some c' ∧ ∃ ks, c'.policy.arena.Lists ks := by
    intro c call hlists _
    obtain ⟨dead, next, s', hlocked, hlists', -⟩ :=
      Tracking.locked_ok c.policy c.map call.1 call.2 hlists
    refine ⟨(LightCacheInner.finish ⟨s', c.map.removeAll dead⟩ next).2, ?_, ?_⟩
    · simp only [LightCacheInner.step, LightCacheInner.call, hlocked]
      rfl
    · cases next <;> exact hlists'
  have hall : Trace.Each LightCacheInner.step (fun _ _ => True)
      (LightCacheInner.fromParts (LruPolicyInner.new capacity hcap ttl : LruPolicyInner K Q) n
        hasher) calls := Trace.each_of_forall fun _ _ => trivial
  obtain ⟨c, hrun, ks, h⟩ := Trace.exists_run
    (P := fun c : LightCacheInner (LruPolicyInner K Q) K V => ∃ ks, c.policy.arena.Lists ks)
    hstep ⟨[], LinkedArena.lists_new⟩ hall
  exact ⟨c, hrun, insertIntact_iff h⟩

end LruFailure

/-- The second insert of key 2 overflows, and finds it at the head of two keys. -/
theorem failed_insert_at_head :
    ∃ c : LightCacheInner (LruPolicyInner ℕ (SortedQueue ℕ Instantᵒᵈ)) ℕ ℕ,
      Trace.run LightCacheInner.step
        (LightCacheInner.fromParts (LruPolicyInner.new 2 (by decide) (some Instant.max)) 1
          fun _ => 0)
        [(.single 0 0, .insert 1 10), (.single 0 0, .insert 2 20)] = some c ∧
      InsertIntact c (.single 1 1) 2 30 := by
  obtain ⟨c, hrun, hiff⟩ := @failed_insert_iff ℕ ℕ (SortedQueue ℕ Instantᵒᵈ) _ _ 2 (by decide)
    (some Instant.max) 1 (fun _ => 0)
    [(.single 0 0, .insert 1 10), (.single 0 0, .insert 2 20)] (.single 1 1) 2 30
  refine ⟨c, hrun, hiff.mpr (Or.inr ?_)⟩
  obtain rfl := Option.some.inj hrun
  decide

/-- The first insert into a cache whose time to live is past the last instant panics. Its key is in
the arena, and neither in the queue nor in the map. -/
theorem failed_insert_tracks :
    ∃ c c' : LightCacheInner (LruPolicyInner ℕ (SortedQueue ℕ Instantᵒᵈ)) ℕ ℕ,
      c = LightCacheInner.fromParts (LruPolicyInner.new 2 (by decide) (some (Instant.max + 1))) 1
        (fun _ => 0) ∧
      c.call (.single 0 0) (.insert 1 10) = .ok (.panicked, c') ∧
      c'.policy.arena.idxOf.lookup 1 = some 0 ∧ c'.policy.expiring = c.policy.expiring ∧
      c'.map.get 1 = none ∧ ¬InsertIntact c (.single 0 0) 1 10 := by
  refine ⟨_, _, rfl, rfl, by decide, rfl, by decide, ?_⟩
  rw [insertIntact_iff LinkedArena.lists_new]
  decide

end LightCache
