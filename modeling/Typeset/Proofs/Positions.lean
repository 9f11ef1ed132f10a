import Mathlib.Tactic

/-!
# Positions before a position

What a scan knows of a text behind it is often the last place at which something held.
-/

namespace Typeset

/-- `j` is the last position before `i` of which `P` holds. -/
structure IsLastBefore (P : ℕ → Prop) (i j : ℕ) : Prop where
  lt : j < i
  holds : P j
  last : ∀ k, j < k → k < i → ¬ P k

theorem IsLastBefore.unique {P : ℕ → Prop} {i j k : ℕ} (hj : IsLastBefore P i j)
    (hk : IsLastBefore P i k) : j = k := by
  rcases Nat.lt_trichotomy j k with h | h | h
  · exact absurd hk.holds (hj.last k h hk.lt)
  · exact h
  · exact absurd hj.holds (hk.last j h hj.lt)

theorem IsLastBefore.succ {P : ℕ → Prop} {i j : ℕ} (h : IsLastBefore P i j) (hi : ¬ P i) :
    IsLastBefore P (i + 1) j := by
  have hlast : ∀ k < i + 1, j < k → ¬ P k :=
    Nat.forall_lt_succ_right.mpr ⟨fun k hki hjk => h.last k hjk hki, fun _ => hi⟩
  exact ⟨h.lt.trans (Nat.lt_succ_self i), h.holds, fun k hjk hk => hlast k hk hjk⟩

theorem isLastBefore_self {P : ℕ → Prop} {i : ℕ} (h : P i) : IsLastBefore P (i + 1) i :=
  ⟨Nat.lt_succ_self i, h, fun k hk hk' => by omega⟩

theorem isLastBefore_succ_iff {P : ℕ → Prop} {i j : ℕ} (hi : ¬ P i) :
    IsLastBefore P (i + 1) j ↔ IsLastBefore P i j := by
  refine ⟨fun h => ?_, fun h => h.succ hi⟩
  have hne : j ≠ i := by
    rintro rfl
    exact hi h.holds
  have hlt := h.lt
  exact ⟨by omega, h.holds, fun k hjk hki => h.last k hjk (by omega)⟩

end Typeset
