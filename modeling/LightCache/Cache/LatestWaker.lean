import LightCache.Lib.Trace
import LightCache.Cache.Steps

/-!
# The waker of the last poll

A cooperative call that waits is woken when the waker of its last poll is in the entry of the
key: whoever deletes the entry, and every destructor that changes it, invokes all the wakers in
it. A call adds a waker when it joins the entry, and never again. So when a later poll passes
another waker, as polls do after a future moved to another task, that waker is in no entry.

Main result: `latest_waker_iff`: this is the only way in which the waker of a last poll gets
lost. That it does shows `moved_future`.
-/

namespace LightCache

variable {K V E ι : Type} [DecidableEq K] [DecidableEq ι]

namespace KeyView

/-- Every call whose last poll was `Pending` in `Waiting` has its waker in the entry, or it was
invoked since. -/
def NoneStranded (t : KeyView V E ι) : Prop :=
  ∀ i w, (t.calls i).parked = some w → (t.calls i).woken = false →
    ∃ n, t.entry = some n ∧ w ∈ n.wakers

/-- A joined call that will have to wait is polled with a waker that is in the entry. -/
def knownWaker (t : KeyView V E ι) : Label V E ι → Bool
  | .wait i w =>
    match (t.calls i).phase, t.value, t.entry with
    | .waiting true, none, some n => n.workers = 0 ∨ w ∈ n.wakers
    | _, _, _ => true
  | _ => true

/-- A property of each call, of the entry, and of how many entries were made before. -/
def EachCall (P : Option Wakers → ℕ → ι → Call V E → Prop) (t : KeyView V E ι) : Prop :=
  ∀ i, P t.entry t.epoch i (t.calls i)

/-- The property outlasts what other calls do: the entry is made, gains wakers, invokes them, and
is deleted when all of them were invoked. -/
structure Lasting (P : Option Wakers → ℕ → ι → Call V E → Prop) : Prop where
  opened : ∀ {n epoch i c}, P none epoch i c → P (some n) (epoch + 1) i c
  grow : ∀ {n n' : Wakers} {epoch i c}, n.wakers ⊆ n'.wakers → P (some n) epoch i c →
    P (some n') epoch i c
  wake : ∀ {entry epoch i c} ws, P entry epoch i c → P entry epoch i (c.wake ws)
  close : ∀ {n epoch i c}, P (some n) epoch i c → P none epoch i (c.wake n.wakers)

end KeyView

/-- A call that waits has joined, and its waker is in the entry or was invoked since. -/
structure Call.Listed (entry : Option Wakers) (c : Call V E) : Prop where
  parked : ∀ w, c.parked = some w → c.phase = .waiting true
  listed : ∀ w, c.parked = some w → c.woken = false → ∃ n, entry = some n ∧ w ∈ n.wakers

namespace KeyView

/-- Nobody is stranded, and only joined calls wait. -/
def Listed (t : KeyView V E ι) : Prop := t.EachCall fun entry _ _ c => c.Listed entry

variable {kinds : ι → Kind} {t t' : KeyView V E ι} {a : Label V E ι} {i : ι} {c c' : Call V E}
variable {n n' : Wakers}

/-! ## What the parts of a step preserve -/

section EachCall

variable {P : Option Wakers → ℕ → ι → Call V E → Prop}

theorem EachCall.setCall (h : t.EachCall P) (hc : P t.entry t.epoch i c) :
    (t.setCall i c).EachCall P :=
  forall_setCall (P := P t.entry t.epoch) hc fun j _ => h j

theorem EachCall.setEntry (h : t.EachCall P) (hP : Lasting P) (hn : t.entry = some n)
    (hsub : n.wakers ⊆ n'.wakers) (hc : P (some n') t.epoch i c) :
    (t.setEntry i c n').EachCall P :=
  forall_setCall (P := P (some n') t.epoch) hc fun j _ => hP.grow hsub (hn ▸ h j)

theorem EachCall.openEntry (h : t.EachCall P) (hP : Lasting P) (hn : t.entry = none)
    (hc : P (some n) (t.epoch + 1) i c) : (t.openEntry i c n).EachCall P :=
  forall_setCall (P := P (some n) (t.epoch + 1)) hc fun j _ => hP.opened (hn ▸ h j)

omit [DecidableEq ι] in
theorem EachCall.wake (h : t.EachCall P) (hP : Lasting P) (ws : List Waker) :
    (t.wake ws).EachCall P := fun j => hP.wake ws (h j)

theorem EachCall.store (h : t.EachCall P) (hP : Lasting P) (hn : t.entry = some n)
    (value : Option V) (bare : Bool) (hc : P t.entry t.epoch i c) :
    ({ t.setCall i c with value, entry := none, bare }.wake n.wakers).EachCall P := fun j =>
  hP.close (hn ▸ h.setCall hc j)

end EachCall

section Local

variable {kind : Kind} {value : Option V} {entry : Option Wakers}

omit [DecidableEq ι] in
theorem Local.parked_none (h : Local kind i value entry c a c')
    (hc : ∀ w, c.parked = some w → c.phase = .waiting true) : c'.parked = none := by
  have hnone : (∀ joined, c.phase ≠ .waiting joined) → c.parked = none := fun hne => by
    cases hp : c.parked with
    | none => rfl
    | some w => exact absurd (hc w hp) (hne true)
  cases h with
  | gotReady hends | failed hends => exact hnone fun j hj => by rw [hj] at hends; cases hends
  | _ => first | rfl | exact hnone (by simp [*])

end Local

end KeyView

namespace Call

variable {c : Call V E} {entry : Option Wakers}

theorem listed_of_not_parked (hparked : c.parked = none) : c.Listed entry where
  parked w hw := by simp [hparked] at hw
  listed w hw := by simp [hparked] at hw

theorem Listed.parked_none (h : c.Listed entry) (hphase : c.phase ≠ .waiting true) :
    c.parked = none := by
  cases hp : c.parked with
  | none => rfl
  | some w => exact absurd (h.parked w hp) hphase

end Call

namespace KeyView

variable {kinds : ι → Kind} {t t' : KeyView V E ι} {a : Label V E ι} {i : ι} {c c' : Call V E}

omit [DecidableEq ι] in
theorem lasting_listed :
    Lasting fun (entry : Option Wakers) (_ : ℕ) (_ : ι) (c : Call V E) => c.Listed entry where
  opened h := ⟨h.parked, fun w hw hwoken => by
    obtain ⟨m, hm, -⟩ := h.listed w hw hwoken
    cases hm⟩
  grow hsub h := ⟨h.parked, fun w hw hwoken => by
    obtain ⟨m, hm, hmem⟩ := h.listed w hw hwoken
    obtain rfl := Option.some.inj hm
    exact ⟨_, rfl, hsub hmem⟩⟩
  wake ws h := ⟨h.parked, fun w hw hwoken => by
    simp only [Call.wake, Bool.or_eq_false_iff] at hw hwoken
    exact h.listed w hw hwoken.1⟩
  close h := ⟨h.parked, fun w hw hwoken => by
    simp only [Call.wake, Bool.or_eq_false_iff] at hw hwoken
    obtain ⟨m, hm, hmem⟩ := h.listed w hw hwoken.1
    obtain rfl := Option.some.inj hm
    simp [hw, hmem] at hwoken⟩

/-! ## Steps -/

omit [DecidableEq ι] in
theorem Ends.not_waiting {p : Phase V E} {out : Except E V} {armed joined : Bool}
    (h : Ends i p a out armed) : p ≠ .waiting joined := by
  cases h <;> simp

omit [DecidableEq ι] in
theorem Ends.not_wait {p : Phase V E} {out : Except E V} {armed : Bool} {j : ι} {w : Waker}
    (h : Ends i p a out armed) : a ≠ .wait j w := by
  cases h <;> simp

/-- A step strands nobody, unless a joined call has to wait and its waker is unknown. -/
theorem Listed.step (h : t.Listed) (hstep : Step kinds t a t') (hok : t.knownWaker a = true) :
    t'.Listed := by
  have hidle {i : ι} (hphase : (t.calls i).phase ≠ .waiting true) : (t.calls i).parked = none :=
    (h i).parked_none hphase
  cases hstep with
  | quiet hl => exact h.setCall (Call.listed_of_not_parked (hl.parked_none (h _).parked))
  | @park i w joined n hc hv hn hw =>
    refine h.setEntry lasting_listed hn (by cases joined <;> simp) ⟨fun _ _ => rfl, ?_⟩
    intro w' hw' _
    obtain rfl := Option.some.inj hw'
    refine ⟨_, rfl, ?_⟩
    -- A call that has joined before adds no waker.
    cases joined with
    | false => simp
    | true => simpa [knownWaker, hc, hv, hn, hw.ne'] using hok
  | @claim i w joined n hc hv hn hw =>
    exact h.setEntry lasting_listed hn (by cases joined <;> simp) (Call.listed_of_not_parked rfl)
  | make hc hv hn => exact h.openEntry lasting_listed hn (Call.listed_of_not_parked rfl)
  | raceJoin hc hv hn =>
    exact h.setEntry lasting_listed hn (by simp) (Call.listed_of_not_parked (hidle (by simp [hc])))
  | raceMake hc hv hn =>
    exact h.openEntry lasting_listed hn (Call.listed_of_not_parked (hidle (by simp [hc])))
  | store hends hv hn =>
    exact h.store lasting_listed hn _ _ (Call.listed_of_not_parked (hidle hends.not_waiting))
  | storeBare hends hv hn => exact h.setCall (Call.listed_of_not_parked (hidle hends.not_waiting))
  | leave hc hn =>
    refine EachCall.wake ?_ lasting_listed _
    exact h.setEntry lasting_listed hn (by simp) (Call.listed_of_not_parked rfl)
  | remove | insert => exact h

end KeyView

namespace State

variable {kinds : ι → Kind} {key : K} {s s' : State K V E ι} {i : ι}

open KeyView

omit [DecidableEq ι] in
theorem listed_init (n : ℕ+) (hasher : K → UInt64) :
    ((State.init n hasher : State K V E ι).view key).Listed := fun _ =>
  Call.listed_of_not_parked rfl

/-- A joined call that has to wait with an unknown waker is stranded. -/
theorem stranded_of_unknown {a : Label V E ι} (hok : (s.view key).knownWaker a = false) :
    ∃ s', s.step kinds key a = some s' ∧ ¬(s'.view key).NoneStranded := by
  cases a with
  | wait i w =>
    simp only [knownWaker] at hok
    split at hok
    · rename_i n hc hv hn
      simp only [decide_eq_false_iff_not, not_or] at hok
      obtain ⟨hworkers, hmem⟩ := hok
      obtain ⟨s', hstep⟩ := exists_wait kinds key hc w
      refine ⟨s', hstep, ?_⟩
      have hview := step_view hstep
      generalize s'.view key = t' at hview ⊢
      cases hview with
      | quiet hl =>
        cases hl with
        | got hc' hv' => rw [hv] at hv'; cases hv'
        | gotReady hends => exact absurd rfl hends.not_wait
        | failed hends => exact absurd rfl hends.not_wait
      | @park _ _ joined n' hc' hv' hn' hw =>
        obtain rfl : true = joined := by simpa [hc] using hc'
        obtain rfl : n = n' := by simpa [hn] using hn'
        intro hnone
        obtain ⟨m, hm, hmem'⟩ := hnone i w (by simp) (by simp)
        obtain rfl := Option.some.inj hm
        exact hmem hmem'
      | claim hc' hv' hn' hw =>
        rw [hn] at hn'
        exact absurd (Option.some.inj hn' ▸ hw) hworkers
      | make hc' hv' hn' => rw [hn] at hn'; cases hn'
      | store hends => exact absurd rfl hends.not_wait
      | storeBare hends => exact absurd rfl hends.not_wait
    · cases hok
  | _ => cases hok

end State

/-- **The latest waker.** In every run, whatever wakers its polls pass, the waker of each last poll
that was `Pending` in `Waiting` is in the entry or was invoked since, in every state, exactly if
no joined call has to wait again with a waker that the entry does not hold. -/
theorem latest_waker_iff (kinds : ι → Kind) (key : K) (n : ℕ+) (hasher : K → UInt64)
    (as : List (Label V E ι)) :
    Trace.Always (State.step kinds key) (fun s => (s.view key).NoneStranded)
        (State.init n hasher) as ↔
      Trace.Each (State.step kinds key) (fun s a => (s.view key).knownWaker a = true)
        (State.init n hasher) as :=
  Trace.always_iff_each (I := fun s => (s.view key).Listed) (A := fun _ _ => True)
    (fun _ h i => (h i).listed)
    (fun _ _ _ h _ hok hstep => h.step (State.step_view hstep) hok)
    (fun _ _ _ _ hok => State.stranded_of_unknown (Bool.eq_false_iff.mpr hok))
    (State.listed_init n hasher) (Trace.each_of_forall fun _ _ => trivial)

/-- Call 1 waits for call 0. It is polled with waker 1, and once more, from another task, with
waker 2. The entry holds waker 1 only. -/
theorem moved_future :
    ∃ s : State ℕ ℕ ℕ (Fin 2),
      Trace.run (State.step (fun _ => .getOrInsert) 0) (State.init 1 fun _ => 0)
        [.start 0, .wait 0 0, .init 0 true, .start 1, .wait 1 1, .wait 1 2] = some s ∧
      (s.calls 1).parked = some 2 ∧ (s.calls 1).woken = false ∧
      s.map.waiters 0 = some ⟨1, [0, 1]⟩ ∧ ¬(s.view 0).NoneStranded := by
  refine ⟨_, rfl, by decide, by decide, by decide, fun h => ?_⟩
  obtain ⟨n, hn, hmem⟩ := h 1 2 (by decide) (by decide)
  revert hmem
  obtain rfl : ⟨1, [0, 1]⟩ = n := Option.some.inj hn
  decide

end LightCache
