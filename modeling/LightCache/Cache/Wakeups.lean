import LightCache.Cache.LatestWaker

/-!
# No lost wake-ups

A cooperative call that waits is woken when its waker is in the entry of the key: whoever
deletes the entry, and every destructor that changes it, invokes all the wakers in it. The
`joined` flag of a call says that its waker is in an entry, but outlives that entry. So a call
that is polled again with a later entry, while somebody works on that, waits unregistered.

Main result: `no_lost_wakeup_iff`: this is the only way in which a wake-up is lost. That it
happens shows `lost_wakeup`.
-/

namespace LightCache

variable {K V E ι : Type} [DecidableEq K] [DecidableEq ι]

/-- Every poll of call `i` passes the waker `waker i`. -/
def Label.Uses (waker : ι → Waker) : Label V E ι → Prop
  | .wait i w => w = waker i
  | .race i w => w = waker i
  | _ => True

namespace KeyView

/-- A joined call that will have to wait joined this entry, or its waker is there anyway. -/
def freshJoin (t : KeyView V E ι) : Label V E ι → Bool
  | .wait i w =>
    match (t.calls i).phase, t.value, t.entry with
    | .waiting true, none, some n =>
      n.workers = 0 ∨ (t.calls i).joinedAt = t.epoch ∨ w ∈ n.wakers
    | _, _, _ => true
  | _ => true

end KeyView

/-- A call that has joined the entry, the one with number `epoch`, has its waker in it. -/
structure Call.Joined (waker : Waker) (entry : Option Wakers) (epoch : ℕ) (c : Call V E) :
    Prop where
  joined : ∀ n, c.phase = .waiting true → c.joinedAt = epoch → entry = some n → waker ∈ n.wakers
  past : c.joinedAt ≤ epoch

namespace KeyView

/-- The calls that joined the entry have their wakers in it. -/
def Joined (waker : ι → Waker) (t : KeyView V E ι) : Prop :=
  t.EachCall fun entry epoch i c => c.Joined (waker i) entry epoch

/-- The registrations of the waiting calls. -/
structure Registered (waker : ι → Waker) (t : KeyView V E ι) : Prop where
  listed : t.Listed
  joined : t.Joined waker

variable {kinds : ι → Kind} {waker : ι → Waker} {t t' : KeyView V E ι} {a : Label V E ι}
variable {i : ι} {c c' : Call V E}

/-! ## What the parts of a step preserve -/

section Local

variable {kind : Kind} {value : Option V} {entry : Option Wakers}

omit [DecidableEq ι] in
theorem Local.not_joined (h : Local kind i value entry c a c') : c'.phase ≠ .waiting true := by
  cases h with
  | miss => cases kind.race <;> simp
  | pending hc => rw [hc]; simp
  | _ => simp

omit [DecidableEq ι] in
theorem Local.joinedAt (h : Local kind i value entry c a c') : c'.joinedAt = c.joinedAt := by
  cases h <;> rfl

end Local

omit [DecidableEq ι] in
theorem lasting_joined (waker : ι → Waker) :
    Lasting fun (entry : Option Wakers) (epoch : ℕ) (i : ι) (c : Call V E) =>
      c.Joined (waker i) entry epoch where
  opened h := ⟨fun _ _ hepoch _ => absurd h.past (by omega), h.past.trans (Nat.le_succ _)⟩
  grow hsub h := ⟨fun m hc hepoch hm => by
    obtain rfl := Option.some.inj hm
    exact hsub (h.joined _ hc hepoch rfl), h.past⟩
  wake _ h := ⟨h.joined, h.past⟩
  close h := ⟨fun _ _ _ hm => (by cases hm), h.past⟩

/-! ## Steps and runs -/

theorem Joined.step (h : t.Joined waker) (hstep : Step kinds t a t') (huses : a.Uses waker) :
    t'.Joined waker := by
  have hP := lasting_joined (V := V) (E := E) waker
  -- A call that does not wait needs no waker in the entry.
  have hidle {c : Call V E} {entry : Option Wakers} {epoch : ℕ} {i : ι}
      (hphase : c.phase ≠ .waiting true) (hpast : c.joinedAt ≤ epoch) :
      c.Joined (waker i) entry epoch :=
    ⟨fun _ hc => absurd hc hphase, hpast⟩
  cases hstep with
  | quiet hl => exact h.setCall (hidle hl.not_joined (hl.joinedAt ▸ (h _).past))
  | @park i w joined n hc hv hn hw =>
    cases joined with
    | true =>
      refine h.setEntry hP hn (List.Subset.refl _) ⟨fun m _ hepoch hm => ?_, (h i).past⟩
      exact (h i).joined m hc hepoch (hn.trans hm)
    | false =>
      refine h.setEntry hP hn (by simp) ⟨fun m _ _ hm => ?_, le_rfl⟩
      obtain rfl := Option.some.inj hm
      simp [show w = waker i from huses]
  | @claim i w joined n hc hv hn hw =>
    refine h.setEntry hP hn (by cases joined <;> simp) (hidle (by simp) ?_)
    cases joined with
    | true => exact (h i).past
    | false => exact le_rfl
  | make hc hv hn | raceMake hc hv hn =>
    exact h.openEntry hP hn (hidle (by simp) ((h _).past.trans (Nat.le_succ _)))
  | raceJoin hc hv hn => exact h.setEntry hP hn (by simp) (hidle (by simp) (h _).past)
  | store hends hv hn => exact h.store hP hn _ _ (hidle (by simp) (h _).past)
  | storeBare => exact h.setCall (hidle (by simp) (h _).past)
  | leave hc hn =>
    refine EachCall.wake ?_ hP _
    exact h.setEntry hP hn (by simp) (hidle (by simp) (h _).past)
  | remove | insert => exact h

omit [DecidableEq ι] in
/-- The entry that a call joined holds its waker. -/
theorem Registered.knownWaker (h : t.Registered waker) (huses : a.Uses waker)
    (hok : t.freshJoin a = true) : t.knownWaker a = true := by
  by_contra hnot
  rw [Bool.not_eq_true] at hnot
  cases a with
  | wait i w =>
    simp only [KeyView.knownWaker] at hnot
    split at hnot
    · rename_i n hc hv hn
      simp only [decide_eq_false_iff_not, not_or] at hnot
      simp only [freshJoin, hc, hv, hn, hnot, decide_eq_true_eq, false_or, or_false] at hok
      exact hnot.2 (huses ▸ (h.joined i).joined n hc hok hn)
    · cases hnot
  | _ => cases hnot

/-- A step keeps the registrations, unless a stale joiner has to wait. -/
theorem Registered.step (h : t.Registered waker) (hstep : Step kinds t a t')
    (huses : a.Uses waker) (hok : t.freshJoin a = true) : t'.Registered waker where
  listed := h.listed.step hstep (h.knownWaker huses hok)
  joined := h.joined.step hstep huses

omit [DecidableEq ι] in
theorem knownWaker_of_not_freshJoin (hok : t.freshJoin a = false) : t.knownWaker a = false := by
  cases a with
  | wait i w =>
    simp only [freshJoin] at hok
    split at hok
    · rename_i n hc hv hn
      simp only [decide_eq_false_iff_not, not_or] at hok
      simp [KeyView.knownWaker, hc, hv, hn, hok]
    · cases hok
  | _ => cases hok

end KeyView

namespace State

variable {key : K}

omit [DecidableEq ι] in
theorem registered_init (n : ℕ+) (hasher : K → UInt64) (waker : ι → Waker) :
    ((State.init n hasher : State K V E ι).view key).Registered waker where
  listed := listed_init n hasher
  joined _ := ⟨fun _ hc => (by cases hc), le_rfl⟩

end State

/-- **No lost wake-ups.** In a run in which every call is polled with a waker of its own, no
waiting call is ever stranded exactly if no joined call has to wait with a later entry than the
one it joined. -/
theorem no_lost_wakeup_iff (kinds : ι → Kind) (key : K) (waker : ι → Waker) (n : ℕ+)
    (hasher : K → UInt64) (as : List (Label V E ι)) (huses : ∀ a ∈ as, a.Uses waker) :
    Trace.Always (State.step kinds key) (fun s => (s.view key).NoneStranded)
        (State.init n hasher) as ↔
      Trace.Each (State.step kinds key) (fun s a => (s.view key).freshJoin a = true)
        (State.init n hasher) as :=
  Trace.always_iff_each (fun s (h : (s.view key).Registered waker) i => (h.listed i).listed)
    (fun _ _ _ h huses hok hstep => h.step (State.step_view hstep) huses hok)
    (fun _ _ _ _ hok => State.stranded_of_unknown
      (KeyView.knownWaker_of_not_freshJoin (Bool.eq_false_iff.mpr hok)))
    (State.registered_init n hasher waker) (Trace.each_of_forall huses)

/-- Call 1 waits for call 0 and is woken by it. -/
theorem no_lost_wakeup_two_calls :
    Trace.Always (State.step (fun _ => .getOrInsert) 0) (fun s => (s.view 0).NoneStranded)
      (State.init 1 fun _ => 0 : State ℕ ℕ ℕ (Fin 2))
      [.start 0, .wait 0 0, .init 0 true, .start 1, .wait 1 1, .poll 0 (.ready (.ok 7)),
        .complete 0, .drop 0, .wait 1 1] :=
  (no_lost_wakeup_iff _ 0 (fun i => i.val) 1 (fun _ => 0) _ (by simp [Label.Uses])).mpr (by decide)

/-- Call 1 waits for call 0, which stores its value; the value is removed, and call 2 starts
over. When call 1 is polled now, it waits and is in no entry. -/
theorem lost_wakeup :
    ∃ s : State ℕ ℕ ℕ (Fin 3),
      Trace.run (State.step (fun _ => .getOrInsert) 0) (State.init 1 fun _ => 0)
        [.start 0, .wait 0 0, .init 0 true, .start 1, .wait 1 1, .poll 0 (.ready (.ok 7)),
          .complete 0, .drop 0, .remove, .start 2, .wait 2 2, .init 2 true, .wait 1 1] = some s ∧
      (s.calls 1).parked = some 1 ∧ (s.calls 1).woken = false ∧
      s.map.waiters 0 = some ⟨1, [2]⟩ ∧ ¬(s.view 0).NoneStranded := by
  refine ⟨_, rfl, by decide, by decide, by decide, fun h => ?_⟩
  obtain ⟨n, hn, hmem⟩ := h 1 1 (by decide) (by decide)
  revert hmem
  obtain rfl : ⟨1, [2]⟩ = n := Option.some.inj hn
  decide

end LightCache
