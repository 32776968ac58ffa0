import LightCache.Lib.Trace
import LightCache.Policy.TtlBook
import LightCache.Refresh

/-!
# Calls of a refresh cache, one after another

What the cache holds is told by a book: the last value that a call stored under each key, and when.
A call finds the value if it is not older than `ttl`. Otherwise it runs the refresher once, since
no call that ended left a worker in a waiters entry, and stores a good result.

An insert is only made for a key that the arena does not hold, so the tail of the arena stays
known, and a prune leaves nothing that has expired.

Main result: `refresh_sequential`.
-/

namespace LightCache

open TtlPolicyInner

variable {K V E : Type} [DecidableEq K]

/-- What a future gives that is polled with these answers. -/
def FutPoll.first : List (FutPoll V E) → Option (Completion (Except E V))
  | [] => none
  | .pending :: polls => FutPoll.first polls
  | .ready out :: _ => some (.returned out)
  | .panicked :: _ => some .panicked

/-- The value of a good result. -/
def Completion.value : Option (Completion (Except E V)) → Option V
  | some (.returned (.ok value)) => some value
  | _ => none

/-- What the refresher gives in the polls of the call. -/
def Request.outcome (rq : Request K V E) : Option (Completion (Except E V)) :=
  FutPoll.first ((rq.first :: rq.more).map Prod.snd)

/-- Every prune pass reads the clock once, and the clock, `t₀` at first, never goes back. The calls
of the refresher return futures. -/
def Request.Steady : Instant → List (Request K V E) → Prop
  | _, [] => True
  | t₀, rq :: rqs =>
    rq.returns = true ∧ rq.lookup = .single (rq.lookup.tick 0) rq.lookup.now ∧
      rq.insert = .single (rq.insert.tick 0) rq.insert.now ∧ t₀ ≤ rq.lookup.tick 0 ∧
      rq.lookup.tick 0 ≤ rq.lookup.now ∧ rq.lookup.now ≤ rq.insert.tick 0 ∧
      rq.insert.tick 0 ≤ rq.insert.now ∧ Request.Steady rq.insert.now rqs

/-- The last reading of a sequence of calls. -/
def Request.last (t₀ : Instant) (rqs : List (Request K V E)) : Instant :=
  rqs.foldl (fun _ rq => rq.insert.now) t₀

namespace Book

/-- The book after a call that asked the refresher, with the result `result`. -/
def store (book : Book K V) (rq : Request K V E) (result : Option (Completion (Except E V))) :
    Book K V :=
  match Completion.value result with
  | some value => book.after rq.insert.now (.insert rq.key value)
  | none => book

/-- The book after a call, which stores a good result if it asked the refresher. -/
def afterCall (c : RefreshCache K V) (rq : Request K V E) (_ : RefreshCache K V)
    (book : Book K V) : Book K V :=
  match c.get rq with
  | .ok (reply, _) => if reply.invoked = 0 then book else book.store rq reply.result
  | .error _ => book

/-- The value is in the book, and not older than `ttl` at `t`. -/
def Fresh (book : Book K V) (ttl : Duration) (t : Instant) (k : K) (v : V) : Prop :=
  ∃ s, book k = some (s, v) ∧ Instant.durationSince t s ≤ ttl

end Book

/-- The cache with its book. -/
def RefreshCache.bookStep : RefreshCache K V × Book K V → Request K V E →
    Option (RefreshCache K V × Book K V) :=
  Trace.recording RefreshCache.step Book.afterCall

/-- Between two calls: the cache holds what the book says, and nobody works in an entry. -/
structure Settled (c : RefreshCache K V) (ts : List (K × Instant)) (book : Book K V)
    (clock : Instant) : Prop where
  booked : Booked c ts book clock
  tailKnown : c.policy.arena.TailKnown
  idle : ∀ k n, c.map.waiters k = some n → n.workers = 0

/-- After the call: the cache is settled, and holds a good result. -/
def Concluded (c : RefreshCache K V) (rq : Request K V E)
    (result : Option (Completion (Except E V))) (book : Book K V) (c' : RefreshCache K V) : Prop :=
  c'.policy.ttl = c.policy.ttl ∧ c'.map.get rq.key = Completion.value result ∧
    ∃ ts', Settled c' ts' (book.store rq result) rq.insert.now

/-- The call for the key is the one that works in an entry, and nothing is stored. -/
structure Computing (c : RefreshCache K V) (ts : List (K × Instant)) (book : Book K V)
    (clock : Instant) (k : K) : Prop where
  booked : Booked c ts book clock
  tailKnown : c.policy.arena.TailKnown
  absent : c.map.get k = none
  sole : ∃ n, c.map.waiters k = some n ∧ n.workers = 1
  idle : ∀ j n, j ≠ k → c.map.waiters j = some n → n.workers = 0

section Sequential

variable {c : RefreshCache K V} {p : TtlPolicyInner K} {map map' : LightMap K V}
variable {ts : List (K × Instant)} {book : Book K V} {clock : Instant} {k : K} {v : V}
variable {rq : Request K V E} {rqs : List (Request K V E)} {s : Session K V}

theorem settled_new (ttl : Duration) (n : ℕ+) (hasher : K → UInt64) :
    Settled (RefreshCache.new ttl n hasher : RefreshCache K V) [] Book.empty 0 where
  booked := booked_fromParts ttl n hasher
  tailKnown := LinkedArena.tailKnown_new
  idle k n hn := by simp [RefreshCache.new, LightCacheInner.fromParts] at hn

omit [DecidableEq K] in
theorem Request.steady_append {more : List (Request K V E)} :
    Request.Steady clock (rqs ++ more) ↔
      Request.Steady clock rqs ∧ Request.Steady (Request.last clock rqs) more := by
  induction rqs generalizing clock with
  | nil => simp [Request.Steady, Request.last]
  | cons rq rqs ih => simp only [List.cons_append, Request.Steady, ih, and_assoc]; rfl

theorem Booked.setMap (h : Booked ⟨p, map⟩ ts book clock) (hget : ∀ k, map'.get k = map.get k) :
    Booked ⟨p, map'⟩ ts book clock where
  stamped := h.stamped
  sorted := h.sorted
  past := h.past
  entry k s hs := by
    obtain ⟨v, hbook, hv⟩ := h.entry k s hs
    exact ⟨v, hbook, (hget k).trans hv⟩
  tracked k hk := h.tracked k (by rwa [← hget k])
  expired := h.expired

/-! ## The lookup -/

/-- The lookup finds what is fresh, and nothing else. -/
theorem Settled.lookup (h : Settled c ts book clock) (hclock : clock ≤ rq.lookup.tick 0)
    (hsingle : rq.lookup = .single (rq.lookup.tick 0) rq.lookup.now)
    (hnow : rq.lookup.tick 0 ≤ rq.lookup.now) :
    ∃ r c' ts', c.call rq.lookup (.get rq.key) = .ok (.returned r, c') ∧
      c'.policy.ttl = c.policy.ttl ∧ Settled c' ts' book rq.lookup.now ∧
      c'.map.get rq.key = r ∧
      ∀ v, r = some v ↔ book.Fresh c.policy.ttl (rq.lookup.tick 0) rq.key v := by
  have htick : ∀ i, rq.lookup.tick i = rq.lookup.tick 0 := Readings.tick_eq hsingle
  obtain ⟨kept, s₁, map₁, hok, httl, -, hwaiters, h₁, hkept, htail⟩ :=
    h.booked.prune rq.lookup.tick hclock fun i => (htick i).le
  obtain ⟨htail₁, hyoung⟩ := htail h.tailKnown
  refine ⟨map₁.get rq.key, ⟨s₁, map₁⟩, kept, ?_, httl, ⟨h₁.clock_le hnow, htail₁, ?_⟩, rfl, ?_⟩
  · simp only [LightCacheInner.call, Policy.locked, get_ok hok]
    rfl
  · intro k n hn
    exact h.idle k n ((hwaiters k).symm.trans hn)
  · intro v
    rw [show map₁.get rq.key = some v ↔ _ from h₁.get_eq_some]
    constructor
    · intro hbooked
      obtain ⟨s, hbook, hs⟩ := hbooked
      exact ⟨s, hbook, hyoung htick _ hs⟩
    · intro hbooked
      obtain ⟨s, hbook, hfresh⟩ := hbooked
      refine ⟨s, hbook, hkept _ ?_ fun i => (htick i).symm ▸ hfresh⟩
      refine (h.booked.expired _ s v hbook).resolve_right (Nat.not_lt_of_le ?_)
      exact (Nat.sub_le_sub_right hclock s).trans hfresh

/-! ## The polls -/

/-- The first poll claims the slot. -/
theorem Settled.claim (h : Settled c ts book clock) (habsent : c.map.get k = none) (w : Waker)
    (joined : Bool) :
    ∃ joined' map', GetOrInsertFutureInner.pollWaiting c.map k w joined =
        (.claimed, joined', map') ∧
      Computing ⟨c.policy, map'⟩ ts book clock k := by
  have hcomputing (n : Wakers) (hn : n.workers = 1) :
      Computing ⟨c.policy, c.map.setWaiters k n⟩ ts book clock k := by
    refine ⟨h.booked.setMap fun j => by simp, h.tailKnown, by simpa using habsent, ?_, ?_⟩
    · exact ⟨n, by simp [LightMap.waiters_setWaiters], hn⟩
    · intro j m hj hm
      rw [LightMap.waiters_setWaiters, if_neg hj] at hm
      exact h.idle j m hm
  rw [GetOrInsertFutureInner.pollWaiting, habsent]
  cases hn : c.map.waiters k with
  | none => exact ⟨_, _, rfl, hcomputing _ rfl⟩
  | some n =>
    have hidle : n.workers = 0 := h.idle k n hn
    cases joined with
    | false =>
      refine ⟨true, c.map.setWaiters k (n.joinWaiter w).joinWorker, ?_,
        hcomputing _ (by simp [hidle])⟩
      simp [hidle]
    | true =>
      refine ⟨true, c.map.setWaiters k n.joinWorker, ?_, hcomputing _ (by simp [hidle])⟩
      simp [hidle]

/-- A call that works and is dropped leaves nobody in the entry. -/
theorem Computing.leave (h : Computing c ts book clock k) :
    Settled ⟨c.policy, (leave c.map k).2⟩ ts book clock := by
  obtain ⟨n, hn, hworkers⟩ := h.sole
  rw [LightCache.leave, hn]
  refine ⟨h.booked.setMap fun j => by simp, h.tailKnown, ?_⟩
  intro j m hm
  rw [LightMap.waiters_setWaiters] at hm
  split_ifs at hm with hj
  · obtain rfl := Option.some.inj hm
    simp [hworkers]
  · exact h.idle j m hj hm

theorem Computing.insertValue (h : Computing c ts book clock rq.key)
    (hclock : clock ≤ rq.insert.tick 0)
    (hsingle : rq.insert = .single (rq.insert.tick 0) rq.insert.now)
    (hnow : rq.insert.tick 0 ≤ rq.insert.now) (v : V) :
    ∃ ws c' ts', c.insertValue rq.insert rq.key v = .ok (.returned v, ws, c') ∧
      c'.policy.ttl = c.policy.ttl ∧
      Settled c' ts' (book.after rq.insert.now (.insert rq.key v)) rq.insert.now ∧
      c'.map.waiters rq.key = none ∧ c'.map.get rq.key = some v := by
  have htick : ∀ i, rq.insert.tick i = rq.insert.tick 0 := Readings.tick_eq hsingle
  obtain ⟨kept, s₁, map₁, hok, httl, hinit, hwaiters₁, h₁, -, htail⟩ :=
    h.booked.prune rq.insert.tick hclock fun i => (htick i).le
  obtain ⟨c', ts', hcall, httl', hwaiters₂, h', htail'⟩ :=
    h₁.call hok hnow (.insert rq.key v)
  have hwaiters (k : K) : c'.map.waiters k = c.map.waiters k :=
    (hwaiters₂ k).trans (hwaiters₁ k)
  -- The arena does not hold the key, so its tail stays known.
  have hnew : kept.map Prod.fst ≠ [rq.key] := by
    intro hkept
    have hk : rq.key ∈ kept.map Prod.fst := by simp [hkept]
    obtain ⟨⟨k, s⟩, hs, rfl⟩ := List.mem_map.mp hk
    obtain ⟨u, -, hu⟩ := h.booked.entry _ s (hinit.subset hs)
    cases h.absent.symm.trans hu
  have hstored : c'.map.get rq.key = some v := by
    have hs := h'.expired rq.key rq.insert.now v (Function.update_self ..)
    rw [Instant.durationSince, Nat.sub_self] at hs
    obtain ⟨u, hbook, hu⟩ := h'.entry _ _ (hs.resolve_right (Nat.not_lt_zero _))
    rw [Book.after, Function.update_self, Option.some.injEq, Prod.mk.injEq] at hbook
    rw [hu, hbook.2]
  obtain ⟨n, hn, -⟩ := h.sole
  refine ⟨n.finish, { c' with map := (c'.map.removeWaiters rq.key).2 }, ts', ?_,
    httl'.trans httl, ⟨h'.setMap fun j => by simp, ?_, ?_⟩, ?_, by simpa using hstored⟩
  · have hfst : (c'.map.removeWaiters rq.key).1 = some n := (hwaiters rq.key).trans hn
    simp only [LightCacheInner.insertValue, hcall, bind, Except.bind, LightCacheInner.endInsert]
    rw [← Prod.mk.eta (p := c'.map.removeWaiters rq.key), hfst]
    rfl
  · exact htail' (htail h.tailKnown).1 fun k' v' hop => by cases hop; exact hnew
  · intro j m hm
    rw [LightMap.waiters_removeWaiters] at hm
    split_ifs at hm with hj
    exact h.idle j m hj ((hwaiters j).symm.trans hm)
  · rw [LightMap.waiters_removeWaiters, if_pos rfl]

theorem Computing.concluded (h : Computing c ts book clock rq.key) (hclock : clock ≤ rq.insert.now)
    {result : Option (Completion (Except E V))} (hresult : Completion.value result = none) :
    Concluded c rq result book ⟨c.policy, (LightCache.leave c.map rq.key).2⟩ := by
  refine ⟨rfl, ?_, ts, ?_⟩
  · obtain ⟨n, hn, -⟩ := h.sole
    rw [hresult, LightCache.leave, hn]
    simpa using h.absent
  · rw [Book.store, hresult]
    obtain ⟨hbooked, htail, hidle⟩ := h.leave
    exact ⟨hbooked.clock_le hclock, htail, hidle⟩

theorem Computing.polls (h : Computing s.cache ts book clock rq.key) (hfuture : s.future = .working)
    (hclock : clock ≤ rq.insert.tick 0)
    (hsingle : rq.insert = .single (rq.insert.tick 0) rq.insert.now)
    (hnow : rq.insert.tick 0 ≤ rq.insert.now) (ps : List (Waker × FutPoll V E)) :
    ∃ s', RefreshCache.polls rq s ps = .ok (FutPoll.first (ps.map Prod.snd), s') ∧
      s'.invoked = s.invoked ∧
      Concluded s.cache rq (FutPoll.first (ps.map Prod.snd)) book (RefreshCache.drop rq s') := by
  have hdrop : RefreshCache.drop rq s =
      ⟨s.cache.policy, (LightCache.leave s.cache.map rq.key).2⟩ := by
    rw [RefreshCache.drop, hfuture]
    rfl
  induction ps with
  | nil =>
    refine ⟨s, rfl, rfl, ?_⟩
    rw [hdrop]
    exact h.concluded (hclock.trans hnow) rfl
  | cons p ps ih =>
    obtain ⟨w, out⟩ := p
    rw [RefreshCache.polls, RefreshCache.poll, hfuture]
    cases out with
    | pending => exact ih
    | panicked =>
      refine ⟨s, rfl, rfl, ?_⟩
      rw [hdrop]
      exact h.concluded (hclock.trans hnow) rfl
    | ready out =>
      have hworking : GetOrInsertFutureInner.pollWorking s.cache.map rq.key out = .insert out := by
        rw [GetOrInsertFutureInner.pollWorking, h.absent]
      cases out with
      | error err =>
        refine ⟨s, ?_, rfl, ?_⟩
        · simp only [RefreshCache.pollWorking, hworking]
          rfl
        · rw [hdrop]
          exact h.concluded (hclock.trans hnow) rfl
      | ok v =>
        obtain ⟨ws, c', ts', hinsert, httl, hsettled, hwaiters, hget⟩ :=
          h.insertValue hclock hsingle hnow v
        refine ⟨{ s with cache := c' }, ?_, rfl, ?_⟩
        · simp only [RefreshCache.pollWorking, hworking, LightCacheInner.completeTryInsert, hinsert]
          rfl
        -- The entry is gone, so the destructor leaves all as it is.
        · have hleave : RefreshCache.drop rq { s with cache := c' } = c' := by
            rw [RefreshCache.drop, hfuture]
            simp only [GetOrInsertFutureInner.drop, LightCache.leave, hwaiters]
          rw [hleave]
          exact ⟨httl, hget, ts', hsettled⟩

/-! ## Calls -/

/-- A call finds what is fresh. Otherwise it asks the refresher once, and gives what that gives. -/
theorem Settled.get (h : Settled c ts book clock) (hsteady : Request.Steady clock [rq]) :
    ∃ reply c', RefreshCache.get c rq = .ok (reply, c') ∧ c'.policy.ttl = c.policy.ttl ∧
      (∃ ts', Settled c' ts' (book.afterCall c rq c') rq.insert.now) ∧
      ((∃ v, book.Fresh c.policy.ttl (rq.lookup.tick 0) rq.key v ∧
          reply = { result := some (.returned (.ok v)), invoked := 0 }) ∨
        ((∀ v, ¬book.Fresh c.policy.ttl (rq.lookup.tick 0) rq.key v) ∧
          reply = { result := rq.outcome, invoked := 1 } ∧
          c'.map.get rq.key = Completion.value rq.outcome)) := by
  obtain ⟨hreturns, hlookup, hsingle, hclock, hmiddle, hinsert, hnow, -⟩ := hsteady
  obtain ⟨r, c₁, ts₁, hcall, httl₁, h₁, hget₁, hr⟩ := h.lookup hclock hlookup hmiddle
  cases r with
  | some v =>
    have hok : RefreshCache.get c rq =
        .ok ({ result := some (.returned (.ok v)), invoked := 0 }, c₁) := by
      simp only [RefreshCache.get, hcall]
      rfl
    refine ⟨_, c₁, hok, httl₁, ⟨ts₁, ?_⟩, Or.inl ⟨v, (hr v).mp rfl, rfl⟩⟩
    rw [Book.afterCall, hok]
    exact ⟨h₁.booked.clock_le (hinsert.trans hnow), h₁.tailKnown, h₁.idle⟩
  | none =>
    obtain ⟨joined, map', hwaiting, h₂⟩ := h₁.claim hget₁ rq.first.1 false
    let s₁ : Session K V := { cache := ⟨c₁.policy, map'⟩, future := .working, invoked := 1 }
    have hpolls : RefreshCache.polls rq { cache := c₁, future := .waiting false, invoked := 0 }
        (rq.first :: rq.more) = RefreshCache.polls rq s₁ (rq.first :: rq.more) := by
      simp only [RefreshCache.polls, RefreshCache.poll, hwaiting, hreturns, if_true, s₁]
    obtain ⟨s', hs', hinvoked, httl', hget', ts', h'⟩ :=
      Computing.polls (s := s₁) h₂ rfl hinsert hsingle hnow (rq.first :: rq.more)
    have hok : RefreshCache.get c rq =
        .ok ({ result := rq.outcome, invoked := 1 }, RefreshCache.drop rq s') := by
      simp only [RefreshCache.get, hcall, bind, Except.bind, hpolls, hs', hinvoked]
      rfl
    refine ⟨_, _, hok, httl'.trans httl₁, ⟨ts', ?_⟩, Or.inr ⟨?_, rfl, hget'⟩⟩
    · rw [Book.afterCall, hok]
      exact h'
    · intro v hv
      cases (hr v).mpr hv

theorem Settled.run (h : Settled c ts book clock) (hsteady : Request.Steady clock rqs) :
    ∃ c' book' ts', Trace.run RefreshCache.bookStep (c, book) rqs = some (c', book') ∧
      c'.policy.ttl = c.policy.ttl ∧ Settled c' ts' book' (Request.last clock rqs) := by
  induction rqs generalizing c ts book clock with
  | nil => exact ⟨c, book, ts, rfl, rfl, h⟩
  | cons rq rqs ih =>
    have hsteady : Request.Steady clock ([rq] ++ rqs) := hsteady
    obtain ⟨hrq, hrqs⟩ := Request.steady_append.mp hsteady
    obtain ⟨reply, c₁, hget, httl₁, ⟨ts₁, h₁⟩, -⟩ := h.get hrq
    have hstep : RefreshCache.step c rq = some c₁ := by simp only [RefreshCache.step, hget]
    obtain ⟨c', book', ts', hrun, httl', h'⟩ := ih h₁ hrqs
    exact ⟨c', book', ts', Trace.run_cons_eq_some.mpr
      ⟨_, Trace.recording_eq_some.mpr ⟨hstep, rfl⟩, hrun⟩, httl'.trans httl₁, h'⟩

end Sequential

/-- **The contract of the refresh cache.** After any sequence of calls, completed or dropped, a
call returns a value without the refresher exactly if an earlier call stored it last under the key,
and no more than `ttl` before the reading of its lookup. Otherwise it asks the refresher once, and
its result is what that gives: a value is stored, and without one the map and the arena do not hold
the key. -/
theorem refresh_sequential (ttl : Duration) (n : ℕ+) (hasher : K → UInt64)
    (rqs : List (Request K V E)) (rq : Request K V E)
    (hsteady : Request.Steady 0 (rqs ++ [rq])) :
    ∃ (c : RefreshCache K V) (book : Book K V) (reply : Reply V E) (c' : RefreshCache K V),
      Trace.run RefreshCache.bookStep (RefreshCache.new ttl n hasher, Book.empty) rqs =
        some (c, book) ∧
      RefreshCache.get c rq = .ok (reply, c') ∧
      (∀ v, reply = { result := some (.returned (.ok v)), invoked := 0 } ↔
        book.Fresh ttl (rq.lookup.tick 0) rq.key v) ∧
      ((∀ v, ¬book.Fresh ttl (rq.lookup.tick 0) rq.key v) →
        reply = { result := rq.outcome, invoked := 1 } ∧
        c'.map.get rq.key = Completion.value rq.outcome ∧
        (rq.key ∈ c'.policy.arena.idxOf ↔ (Completion.value rq.outcome).isSome)) := by
  obtain ⟨hrqs, hrq⟩ := Request.steady_append.mp hsteady
  obtain ⟨c, book, ts, hrun, httl, h⟩ := (settled_new ttl n hasher).run hrqs
  have httl : c.policy.ttl = ttl := httl
  obtain ⟨reply, c', hget, -, ⟨ts', h'⟩, hreply⟩ := h.get hrq
  rw [httl] at hreply
  refine ⟨c, book, reply, c', hrun, hget, ?_, ?_⟩
  · intro v
    rcases hreply with ⟨u, hu, rfl⟩ | ⟨hnone, rfl, -⟩
    · constructor
      · intro heq
        cases heq
        exact hu
      · intro hfresh
        obtain ⟨s, hbook, -⟩ := hfresh
        obtain ⟨s', hbook', -⟩ := hu
        cases hbook.symm.trans hbook'
        rfl
    · constructor
      · intro heq
        cases congrArg Reply.invoked heq
      · intro hv
        exact absurd hv (hnone v)
  · intro hnone
    rcases hreply with ⟨u, hu, -⟩ | ⟨-, hreply, hvalue⟩
    · exact absurd hu (hnone u)
    · exact ⟨hreply, hvalue, by rw [← h'.booked.mirror, hvalue]⟩

/-- A time to live of 5. The first call asks the refresher, which errs; the second one stores 10 at
2, in its second poll; the third one finds that at 7. -/
theorem refresh_sequential_three_calls :
    ∃ (c c' : RefreshCache ℕ ℕ) (book : Book ℕ ℕ),
      Trace.run RefreshCache.bookStep (RefreshCache.new 5 1 fun _ => 0, Book.empty)
        [⟨1, .single 0 0, .single 0 0, true, (0, .ready (.error ())), []⟩,
          ⟨1, .single 1 1, .single 1 2, true, (1, .pending), [(1, .ready (.ok 10))]⟩] =
          some (c, book) ∧
      RefreshCache.get c ⟨1, .single 7 7, .single 7 7, true, (2, .ready (.ok 20)), []⟩ =
        .ok (({ result := some (.returned (.ok 10)), invoked := 0 } : Reply ℕ Unit), c') := by
  obtain ⟨c, book, reply, c', hrun, hget, hreply, -⟩ := refresh_sequential 5 1 (fun _ => 0)
    [⟨1, .single 0 0, .single 0 0, true, (0, .ready (.error ())), []⟩,
      ⟨1, .single 1 1, .single 1 2, true, (1, .pending), [(1, .ready (.ok 10))]⟩]
    ⟨1, .single 7 7, .single 7 7, true, (2, .ready (.ok 20)), []⟩
    (by simp [Request.Steady, Readings.single])
  obtain ⟨rfl, rfl⟩ := Prod.mk.inj (Option.some.inj hrun)
  obtain rfl := (hreply 10).mpr ⟨2, rfl, by simp [Instant.durationSince]⟩
  exact ⟨_, c', _, hrun, hget⟩

end LightCache
