import LightCache.Policy

/-!
# Clocks that never go back

A run is a list of operations with their clock readings. `Forward` says that no reading of a run
is before an earlier one, and `Steady` in addition that every prune pass reads the clock once.
-/

namespace LightCache

variable {K V : Type} {calls more : List (Readings × Op K V)} {t₀ : Instant}

/-- Every prune pass reads the clock once, and the clock, `t₀` at first, never goes back. -/
def Steady : Instant → List (Readings × Op K V) → Prop
  | _, [] => True
  | t₀, call :: calls =>
    call.1 = .single (call.1.tick 0) call.1.now ∧ t₀ ≤ call.1.tick 0 ∧
      call.1.tick 0 ≤ call.1.now ∧ Steady call.1.now calls

/-- The clock, `t₀` at first, never goes back: neither from one operation to the next, nor from
one round of a prune loop to the next. -/
def Forward : Instant → List (Readings × Op K V) → Prop
  | _, [] => True
  | t₀, call :: calls =>
    t₀ ≤ call.1.tick 0 ∧ Monotone call.1.tick ∧ (∀ i, call.1.tick i ≤ call.1.now) ∧
      Forward call.1.now calls

/-- The last reading of a run. -/
def lastReading (t₀ : Instant) (calls : List (Readings × Op K V)) : Instant :=
  calls.foldl (fun _ call => call.1.now) t₀

theorem steady_append :
    Steady t₀ (calls ++ more) ↔ Steady t₀ calls ∧ Steady (lastReading t₀ calls) more := by
  induction calls generalizing t₀ with
  | nil => simp [Steady, lastReading]
  | cons call calls ih => simp only [List.cons_append, Steady, ih, and_assoc]; rfl

theorem forward_append :
    Forward t₀ (calls ++ more) ↔ Forward t₀ calls ∧ Forward (lastReading t₀ calls) more := by
  induction calls generalizing t₀ with
  | nil => simp [Forward, lastReading]
  | cons call calls ih => simp only [List.cons_append, Forward, ih, and_assoc]; rfl

end LightCache
