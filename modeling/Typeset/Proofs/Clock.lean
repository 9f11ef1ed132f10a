import Mathlib
import Typeset.Reveal

/-!
# Clocks

The time of a glyph is a sum of shares of a second. It never runs backwards: on exact numbers
because sums and quotients keep to the order, on rounded ones because no rounding changes a sign.
-/

namespace Typeset

/-- Times that never run backwards. -/
class Clock (τ : Type) [Scalar τ] : Prop where
  nonneg_add : ∀ s t : τ, 0 ≤ s → 0 ≤ t → 0 ≤ s + t
  nonneg_glyphTime : ∀ rate : τ, 0 ≤ rate → 0 ≤ glyphTime rate
  untimed_neg : ¬ (0 : τ) ≤ untimed

/-- Times that stand in order from 0 on. -/
class TimeOrder (τ : Type) [Scalar τ] : Prop where
  le_total : ∀ s t : τ, 0 ≤ s → 0 ≤ t → s ≤ t ∨ t ≤ s
  le_trans : ∀ r s t : τ, 0 ≤ r → 0 ≤ s → 0 ≤ t → r ≤ s → s ≤ t → r ≤ t

instance : Clock ℚ where
  nonneg_add s t hs ht := Rat.add_nonneg hs ht
  nonneg_glyphTime rate hrate := by
    unfold glyphTime
    split_ifs
    · exact le_refl (0 : ℚ)
    · exact div_nonneg (zero_le_one' ℚ) hrate
  untimed_neg := by
    change ¬ (0 : ℚ) ≤ 0 - 1
    norm_num

instance : TimeOrder ℚ where
  le_total _ _ _ _ := Rat.le_total
  le_trans _ _ _ _ _ _ hrs hst := Rat.le_trans hrs hst

namespace Rounded

open Float.Model UnpackedFloat

/-- A value that is not below zero; a negative zero is not. -/
def Nonneg : UnpackedFloat → Prop
  | .infinity s => s = .positive
  | .notANumber => False
  | .zero _ => True
  | .finite s .. => s = .positive

theorem nonneg_iff (x : Float) : 0 ≤ x ↔ Nonneg x.toModel.unpack := by
  have hzero : (0 : Float).toModel.unpack = .zero .positive := rfl
  change decide ((0 : Float).toModel ≤ x.toModel) = true ↔ _
  rw [decide_eq_true_iff]
  change UnpackedFloat.le (0 : Float).toModel.unpack x.toModel.unpack = true ↔ _
  rw [hzero]
  rcases x.toModel.unpack with (_ | _) | _ | _ | ⟨_ | _, _, _, _⟩ <;>
    simp [UnpackedFloat.le, UnpackedFloat.compare, Nonneg]

/-- Where a value stands among those that are not below zero: zero, then the finite ones by exponent
and mantissa, then infinity. -/
def rank : UnpackedFloat → ℕ ×ₗ ℤ ×ₗ ℕ
  | .finite _ m e _ => toLex (1, toLex (e, m))
  | .infinity _ => toLex (2, toLex (0, 0))
  | .zero _ | .notANumber => toLex (0, toLex (0, 0))

theorem le_iff_rank {u v : UnpackedFloat} (hu : Nonneg u) (hv : Nonneg v) :
    UnpackedFloat.le u v = true ↔ rank u ≤ rank v := by
  have hsign : (compare Sign.positive Sign.positive).isLE = true := rfl
  rcases u with (_ | _) | _ | _ | ⟨_ | _, m, e, _⟩ <;>
    rcases v with (_ | _) | _ | _ | ⟨_ | _, n, k, _⟩ <;>
    simp [Nonneg, rank, UnpackedFloat.le, UnpackedFloat.compare, Prod.Lex.toLex_le_toLex,
      Ordering.isLE_then_iff_or, Std.isLE_compare, compare_lt_iff_lt, hsign] at hu hv ⊢

theorem le_iff (x y : Float) (hx : 0 ≤ x) (hy : 0 ≤ y) :
    x ≤ y ↔ rank x.toModel.unpack ≤ rank y.toModel.unpack := by
  rw [← le_iff_rank ((nonneg_iff x).mp hx) ((nonneg_iff y).mp hy)]
  exact decide_eq_true_iff

section Format

variable {f : Format}

theorem unpackSign_packComponents (s : Sign) (e : BitVec f.exponentBits)
    (m : BitVec f.mantissaBitsWithoutImplicit) :
    unpackSign (packComponents f s e m) = s.toBitVec := by
  apply BitVec.eq_of_getLsbD_eq
  intro i hi
  obtain rfl : i = 0 := by omega
  simp [unpackSign, packComponents, BitVec.getLsbD_append, BitVec.getElem_append]

theorem zero_ne_neg_one : (0 : BitVec f.exponentBits) ≠ -1#_ := by
  have he := f.he
  rw [BitVec.neg_one_eq_allOnes, ne_eq, ← BitVec.toNat_inj, BitVec.toNat_allOnes]
  have hpow : 2 ≤ 2 ^ f.exponentBits := Nat.le_self_pow he.ne' 2
  simp
  omega

theorem nonneg_packComponents {e : BitVec f.exponentBits} {m : BitVec f.mantissaBitsWithoutImplicit}
    (h : e ≠ -1#_ ∨ m = 0) : Nonneg (UnpackedFloat.unpack f (packComponents f .positive e m)) := by
  unfold UnpackedFloat.unpack
  simp only [unpackMantissa_packComponents, unpackExponent_packComponents,
    unpackSign_packComponents]
  split_ifs with he hm
  · rfl
  · exact (h.elim (absurd he) hm).elim
  · trivial
  · rfl
  · rfl

/-- Rounding to a format keeps the sign. -/
theorem nonneg_unpack_pack {u : UnpackedFloat} (h : Nonneg u) :
    Nonneg (UnpackedFloat.unpack f (UnpackedFloat.pack f u)) := by
  cases u with
  | notANumber => exact h.elim
  | infinity s =>
    obtain rfl : s = .positive := h
    exact nonneg_packComponents (.inr rfl)
  | zero s =>
    unfold UnpackedFloat.pack packedZero UnpackedFloat.unpack
    simp only [unpackMantissa_packComponents, unpackExponent_packComponents]
    rw [if_neg zero_ne_neg_one]
    split_ifs with he hm
    · trivial
    · exact absurd rfl hm
    · exact absurd rfl he
  | finite s m e hm =>
    obtain rfl : s = .positive := h
    unfold UnpackedFloat.pack
    dsimp only
    split_ifs with hlarge hnormal
    · exact nonneg_packComponents (.inr rfl)
    · refine nonneg_packComponents (.inl ?_)
      rw [BitVec.neg_one_eq_allOnes, ne_eq, ← BitVec.toNat_inj, BitVec.toNat_allOnes,
        BitVec.toNat_ofNat, Nat.mod_eq_of_lt (by omega)]
      omega
    · exact nonneg_packComponents (.inl zero_ne_neg_one)

theorem nonneg_roundWithAccuracy (m : ℕ) (e : ℤ) (acc : Accuracy) :
    Nonneg (roundWithAccuracy f .positive m e acc) := by
  unfold roundWithAccuracy
  dsimp only
  split_ifs
  · trivial
  · rfl

theorem nonneg_normalize {m : ℤ} (hm : 0 ≤ m) (e : ℤ) :
    Nonneg (UnpackedFloat.normalize f m e .positive) := by
  unfold UnpackedFloat.normalize
  cases hc : compare m 0 with
  | lt => exact absurd (compare_lt_iff_lt.mp hc) hm.not_gt
  | eq => trivial
  | gt => exact nonneg_roundWithAccuracy ..

theorem nonneg_add {u v : UnpackedFloat} (hu : Nonneg u) (hv : Nonneg v) :
    Nonneg (UnpackedFloat.add f u v) := by
  cases u with
  | notANumber => exact hu.elim
  | infinity s =>
    obtain rfl : s = .positive := hu
    cases v with
    | notANumber => exact hv.elim
    | infinity t =>
      obtain rfl : t = .positive := hv
      rfl
    | zero t => rfl
    | finite t n k hn => rfl
  | zero s =>
    cases v with
    | notANumber => exact hv.elim
    | infinity t => exact hv
    | zero t => cases s <;> cases t <;> trivial
    | finite t n k hn => exact hv
  | finite s m e hm =>
    obtain rfl : s = .positive := hu
    cases v with
    | notANumber => exact hv.elim
    | infinity t => exact hv
    | zero t => rfl
    | finite t n k hn =>
      obtain rfl : t = .positive := hv
      exact nonneg_normalize (Int.add_nonneg (Int.natCast_nonneg _) (Int.natCast_nonneg _)) _

theorem nonneg_div {m : ℕ} {e : ℤ} (hm : 0 < m) {v : UnpackedFloat} (hv : Nonneg v)
    (hne : ∀ s, v ≠ .zero s) : Nonneg (UnpackedFloat.div f (.finite .positive m e hm) v) := by
  cases v with
  | notANumber => exact hv.elim
  | infinity s => trivial
  | zero s => exact absurd rfl (hne s)
  | finite s n k hn =>
    obtain rfl : s = .positive := hv
    exact nonneg_roundWithAccuracy ..

end Format

end Rounded

open Rounded in
instance : Clock Float where
  nonneg_add s t hs ht := by
    apply (nonneg_iff (s + t)).mpr
    exact nonneg_unpack_pack (nonneg_add ((nonneg_iff s).mp hs) ((nonneg_iff t).mp ht))
  nonneg_glyphTime rate hrate := by
    unfold glyphTime
    split_ifs with hzero
    · exact (nonneg_iff 0).mpr trivial
    · apply (nonneg_iff (1 / rate)).mpr
      obtain ⟨m, e, hm, hone⟩ : ∃ m e hm, (1 : Float).toModel.unpack = .finite .positive m e hm :=
        ⟨_, _, _, rfl⟩
      change Nonneg (Float.Model.unpack (Float.Model.pack (Float.Model.UnpackedFloat.div _
        (1 : Float).toModel.unpack rate.toModel.unpack)))
      rw [hone]
      apply nonneg_unpack_pack
      apply nonneg_div hm ((nonneg_iff rate).mp hrate)
      intro s hs
      apply hzero
      change Float.Model.UnpackedFloat.beq rate.toModel.unpack (0 : Float).toModel.unpack = true
      rw [hs]
      rfl
  untimed_neg := by decide

open Rounded in
instance : TimeOrder Float where
  le_total s t hs ht := by
    rw [le_iff s t hs ht, le_iff t s ht hs]
    exact le_total ..
  le_trans r s t hr hs ht hrs hst := by
    rw [le_iff r s hr hs] at hrs
    rw [le_iff s t hs ht] at hst
    rw [le_iff r t hr ht]
    exact hrs.trans hst

end Typeset
