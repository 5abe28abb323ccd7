import Mathlib
import Violable.Proofs.Culprit
import Violable.Proofs.Totals

/-!
# No sum of penalties is lost

What is rounded may become zero if it is too small, and then a penalty would go unnoticed. But a
finite number that is stored is a multiple of the least one (`isStorable_unpack`), so a sum of two
is one too, and rounding it keeps at least one of its digits (`exists_round`). So a sum of numbers
that are not above zero is zero only if both are (`add_lt_zero`), and floating-point numbers obey
the laws that totals of harmonies are told by (`graded_float`).
-/

namespace Violable.Rounding

open Float.Model
open Float.Model.UnpackedFloat (Sign Accuracy ExtendedMantissa packComponents packedInfinity
  unpackMantissa_packComponents unpackExponent_packComponents shiftToTargetExponent shiftToExponent
  roundWithAccuracy decreaseExponent)

section Shifting

theorem mantissa_shiftRight (m : ExtendedMantissa) (n : Nat) :
    (m >>> n).mantissa = m.mantissa / 2 ^ n := by
  change (n.repeat ExtendedMantissa.shiftRightOne m).mantissa = _
  induction n with
  | zero => simp [Nat.repeat]
  | succ n ih =>
    rw [Nat.repeat, ExtendedMantissa.shiftRightOne, ih, Nat.div_div_eq_div_mul, pow_succ]

theorem le_roundedMantissa (m : ExtendedMantissa) : m.mantissa ≤ m.roundedMantissa := by
  obtain ⟨n, _ | _, _ | _⟩ := m <;>
    simp [ExtendedMantissa.roundedMantissa, ExtendedMantissa.accuracy, Accuracy.roundToNearestEven]

/-- Digits that are enough for a number other than zero, and not too many for 64 bits. -/
structure Fits (m : Nat) (e : Int) : Prop where
  pos : 0 < m
  short : m < 2 ^ 53
  least : -1074 ≤ e

variable {m : Nat} {e : Int}

theorem fits_shift (hm : 0 < m) (he : -1074 ≤ e) (a : Accuracy) :
    Fits (shiftToTargetExponent .binary64 m e a).1.mantissa
      (shiftToTargetExponent .binary64 m e a).2 := by
  have hshift : (Format.binary64.targetExponent (totalExponent m e) - e).toNat = m.log2 - 52 := by
    simp only [Format.targetExponent, totalExponent, Format.mantissaBits, Format.minExponent]
    omega
  have hstart : (ExtendedMantissa.ofMantissaAndAccuracy m a).mantissa = m := by
    rcases a with _ | _ | _ | _ <;> rfl
  have hlower : 2 ^ m.log2 ≤ m := Nat.log2_self_le hm.ne'
  have hupper : m < 2 ^ (m.log2 + 1) := Nat.lt_log2_self
  simp only [shiftToTargetExponent, shiftToExponent, hshift, mantissa_shiftRight, hstart]
  refine ⟨Nat.div_pos ?_ (Nat.two_pow_pos _), Nat.div_lt_of_lt_mul ?_, by omega⟩
  · exact (Nat.pow_le_pow_right (by decide) (by omega)).trans hlower
  · rw [← Nat.pow_add]
    exact hupper.trans_le (Nat.pow_le_pow_right (by decide) (by omega))

theorem exists_roundWithAccuracy (s : Sign) (hm : 0 < m) (he : -1074 ≤ e) (a : Accuracy) :
    ∃ m' e' hm', roundWithAccuracy .binary64 s m e a = .finite s m' e' hm' ∧ Fits m' e' := by
  have hfirst := fits_shift hm he a
  have hrounded := hfirst.pos.trans_le (le_roundedMantissa _)
  have hsecond := fits_shift hrounded hfirst.least .exact
  refine ⟨_, _, hsecond.pos, ?_, hsecond⟩
  simp only [roundWithAccuracy]
  exact dif_neg hsecond.pos.ne'

theorem decreaseExponent_pos (hm : 0 < m) (e t : Int) : 0 < (decreaseExponent m e t).1 := by
  rw [decreaseExponent, Nat.shiftLeft_eq]
  exact Nat.mul_pos hm (Nat.two_pow_pos _)

theorem exists_round (s : Sign) (hm : 0 < m) (he : -1074 ≤ e) :
    ∃ m' e' hm', UnpackedFloat.round .binary64 s m e = .finite s m' e' hm' ∧ Fits m' e' := by
  refine exists_roundWithAccuracy s (decreaseExponent_pos hm e _) ?_ .exact
  simp only [Format.targetExponent, Format.minExponent, Format.mantissaBits]
  omega

end Shifting

section Negative

variable {u v : UnpackedFloat}

/-- The digits fit, unless the number has none. -/
def IsStorable : UnpackedFloat → Prop
  | .finite _ m e _ => Fits m e
  | _ => True

theorem isStorable_unpack (b : BitVec Format.binary64.numBits) :
    IsStorable (.unpack .binary64 b) := by
  have hbias : (Format.binary64.exponentBias : Int) = 1023 := rfl
  have hlt : (UnpackedFloat.unpackMantissa b).toNat < 2 ^ 52 :=
    (UnpackedFloat.unpackMantissa b).isLt
  simp only [UnpackedFloat.unpack]
  split_ifs with he hm he0 hm
  · exact trivial
  · exact trivial
  · exact trivial
  · refine ⟨?_, by omega, ?_⟩
    · rw [BitVec.toNat_pos, BitVec.pos_iff_ne_zero]
      exact hm
    · rw [he0, hbias]
      decide
  · have hexp : (UnpackedFloat.unpackExponent b).toNat ≠ 0 := fun h => he0 (BitVec.eq_of_toNat_eq h)
    refine ⟨?_, ?_, by omega⟩ <;> rw [toNat_implicit] <;> omega

def isZero : UnpackedFloat → Bool
  | .zero _ => true
  | _ => false

/-- Below zero. -/
def isNegative : UnpackedFloat → Bool
  | .infinity .negative | .finite .negative .. => true
  | _ => false

theorem isNegative_unpack_packComponents {e : BitVec 11} {m : BitVec 52}
    (h : e = -1#11 → m = 0#52) (h' : e = 0#11 → m ≠ 0#52) :
    isNegative (.unpack .binary64 (packComponents .binary64 .negative e m)) := by
  simp only [UnpackedFloat.unpack, unpackMantissa_packComponents, unpackExponent_packComponents,
    unpackSign_packComponents, ofBitVec_toBitVec]
  split_ifs with he hm he0 hm
  · rfl
  · exact absurd (h he) hm
  · exact absurd hm (h' he0)
  all_goals rfl

theorem isNegative_stored (h : isNegative u) (hu : IsStorable u) : isNegative (stored u) := by
  rcases u with ⟨_ | _⟩ | _ | _ | ⟨_ | _, m, e, hm⟩ <;> cases h
  · exact isNegative_unpack_packComponents (fun _ => rfl) fun he => absurd he (by decide)
  obtain ⟨-, hshort, hleast⟩ := hu
  have hbias : (Format.binary64.exponentBias : Int) = 1023 := rfl
  simp only [stored, UnpackedFloat.pack, packedInfinity]
  -- the exponent is too large, or fits in its bits, or is the least
  split_ifs with hbig hlong
  · exact isNegative_unpack_packComponents (fun _ => rfl) fun he => absurd he (by decide)
  · have hexp : (e + Format.binary64.exponentBias + 52).toNat < 2 ^ 11 - 1 ∧
        (e + Format.binary64.exponentBias + 52).toNat ≠ 0 := by
      omega
    refine isNegative_unpack_packComponents (fun he => absurd (congrArg BitVec.toNat he) ?_)
      fun he => absurd (congrArg BitVec.toNat he) ?_ <;> rw [BitVec.toNat_ofNat]
    · have hall : (-1#11).toNat = 2 ^ 11 - 1 := rfl
      omega
    · have hnone : (0#11).toNat = 0 := rfl
      omega
  · refine isNegative_unpack_packComponents (fun he => absurd he (by decide)) fun _ hzero => ?_
    have hlog : m.log2 < 53 := (Nat.log2_lt hm.ne').2 hshort
    have hfew : m.log2 < 52 := by
      simp only [Format.mantissaBits] at hlong
      omega
    have hzero := congrArg BitVec.toNat hzero
    rw [BitVec.toNat_ofNat, Nat.mod_eq_of_lt ((Nat.log2_lt hm.ne').1 hfew)] at hzero
    exact hm.ne' hzero

theorem isNegative_normalize {m : Int} (hm : m < 0) {e : Int} (he : -1074 ≤ e) (s : Sign) :
    isNegative (UnpackedFloat.normalize .binary64 m e s) ∧
      IsStorable (UnpackedFloat.normalize .binary64 m e s) := by
  obtain ⟨m', e', hm', hround, hfits⟩ := exists_round .negative (by omega : 0 < (-m).toNat) he
  rw [UnpackedFloat.normalize, compare_lt_iff_lt.2 hm]
  simp only [hround]
  exact ⟨rfl, hfits⟩

theorem isNegative_add (hu : isNegative u || isZero u) (hv : isNegative v || isZero v)
    (h : isNegative u ∨ isNegative v) (hu' : IsStorable u) (hv' : IsStorable v) :
    isNegative (u.add .binary64 v) ∧ IsStorable (u.add .binary64 v) := by
  rcases u with ⟨_ | _⟩ | _ | s | ⟨_ | _, m, e, hm⟩ <;> cases hu <;>
    rcases v with ⟨_ | _⟩ | _ | t | ⟨_ | _, n, f, hn⟩ <;> cases hv
  case zero.refl.zero.refl => exact absurd h (by simp [isNegative])
  -- two magnitudes are brought to one exponent and added up
  case finite.negative.refl.finite.negative.refl =>
    have hleast : -1074 ≤ min e f := le_min hu'.least hv'.least
    refine isNegative_normalize ?_ hleast .positive
    have hfirst := decreaseExponent_pos hm e (min e f)
    have hsecond := decreaseExponent_pos hn f (min e f)
    simp only [decreaseExponent] at hfirst hsecond
    simp only [Sign.apply]
    omega
  -- any other sum is one of the summands
  all_goals first | exact ⟨rfl, trivial⟩ | exact ⟨rfl, hu'⟩ | exact ⟨rfl, hv'⟩

end Negative

section Laws

variable {a b : Float}

theorem isNegative_eq (u : UnpackedFloat) : isNegative u = u.lt (.zero .positive) := by
  rcases u with ⟨_ | _⟩ | _ | _ | ⟨_ | _, m, e, hm⟩ <;> rfl

theorem lt_zero_iff : a < 0 ↔ isNegative a.toModel.unpack := by
  rw [isNegative_eq]
  exact decide_eq_true_iff

theorem le_zero_iff : a ≤ 0 ↔ isNegative a.toModel.unpack ∨ isZero a.toModel.unpack := by
  have hle : ∀ u : UnpackedFloat, u.le (.zero .positive) = (isNegative u || isZero u) := by
    intro u
    rcases u with ⟨_ | _⟩ | _ | _ | ⟨_ | _, m, e, hm⟩ <;> rfl
  rw [← Bool.or_eq_true_iff, ← hle]
  exact decide_eq_true_iff

theorem lt_zero_iff_of_le (ha : a ≤ 0) : a < 0 ↔ ¬ 0 ≤ a :=
  Harmony.rounded_float.lt_zero_iff (Harmony.rounded_float.le_self a 0 ha).1

theorem add_lt_zero (ha : a ≤ 0) (hb : b ≤ 0) (h : a < 0 ∨ b < 0) : a + b < 0 := by
  rw [lt_zero_iff, lt_zero_iff] at h
  obtain ⟨hsum, hfits⟩ := isNegative_add (Bool.or_eq_true_iff.2 (le_zero_iff.1 ha))
    (Bool.or_eq_true_iff.2 (le_zero_iff.1 hb)) h (isStorable_unpack _) (isStorable_unpack _)
  exact lt_zero_iff.2 (isNegative_stored hsum hfits)

theorem unpack_eq_zero (ha : a ≤ 0) (h : ¬ a < 0) : ∃ s, a.toModel.unpack = .zero s := by
  have hzero := (le_zero_iff.1 ha).resolve_left (mt lt_zero_iff.2 h)
  revert hzero
  cases a.toModel.unpack <;> simp [isZero]

theorem add_le_zero (ha : a ≤ 0) (hb : b ≤ 0) : a + b ≤ 0 := by
  by_cases h : a < 0 ∨ b < 0
  · exact Harmony.rounded_float.le_of_lt _ _ (add_lt_zero ha hb h)
  · obtain ⟨s, hs⟩ := unpack_eq_zero ha (not_or.1 h).1
    obtain ⟨t, ht⟩ := unpack_eq_zero hb (not_or.1 h).2
    have hsum : (a + b).toModel.unpack = stored ((UnpackedFloat.zero s).add .binary64 (.zero t)) :=
      hs ▸ ht ▸ rfl
    refine le_zero_iff.2 (.inr ?_)
    rw [hsum]
    cases s <;> cases t <;> rfl

end Laws

end Violable.Rounding

namespace Violable.Harmony

open Rounding in
theorem graded_float : Graded Float where
  zero_le_zero := rounded_float.zero_le_zero
  le_zero_of_lt h := rounded_float.le_of_lt h 0
  penalty_le_zero := by decide +kernel
  add_le_zero _ _ := add_le_zero
  zero_le_add_iff h k hh hk := by
    refine ⟨fun hsum => ?_, fun ⟨hh, hk⟩ => rounded_float.add_nonneg h k hh hk⟩
    by_contra hnot
    have hneg : h < 0 ∨ k < 0 := (not_and_or.1 hnot).imp (lt_zero_iff_of_le hh).2
      (lt_zero_iff_of_le hk).2
    exact rounded_float.not_lt_of_le _ _ hsum (add_lt_zero hh hk hneg)
  lt_zero_iff _ := lt_zero_iff_of_le

end Violable.Harmony
