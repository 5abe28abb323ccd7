import Mathlib
import Violable.Scoring.Weights

/-!
# Numbers that are rounded

A floating-point number is stored as a sign, an exponent and a mantissa. Storing the outcome of an
operation may lose digits or all of a number that is too large, but it keeps the sign and never
makes something that is not a number (`isNonneg_stored`). So what is added up from zero or more
stays there, and so does a weight times a whole number that is not below zero (`rounded_float`).
What is a number has its place on the line (`place?`), and numbers are compared by their places
(`compare_eq`).
Exact numbers obey the same laws (`rounded_rat`).
-/

namespace Violable.Rounding

open Float.Model
open Float.Model.UnpackedFloat (Sign packComponents unpackSign unpackExponent unpackMantissa
  unpackMantissa_packComponents unpackExponent_packComponents packedInfinity packedZero)

section Packing

variable {spec : Format}

theorem ofBitVec_toBitVec (s : Sign) : Sign.ofBitVec s.toBitVec = s := by
  cases s <;> rfl

theorem toBitVec_ofBitVec (b : BitVec 1) : (Sign.ofBitVec b).toBitVec = b := by
  revert b
  decide

theorem unpackSign_packComponents (s : Sign) (e : BitVec spec.exponentBits)
    (m : BitVec spec.mantissaBitsWithoutImplicit) :
    unpackSign (packComponents spec s e m) = s.toBitVec := by
  refine BitVec.eq_of_getLsbD_eq fun i hi => ?_
  obtain rfl : i = 0 := by omega
  simp [unpackSign, packComponents, BitVec.getLsbD_append, BitVec.getElem_append]

theorem packComponents_unpack (b : BitVec Format.binary64.numBits) :
    packComponents .binary64 (Sign.ofBitVec (unpackSign b)) (unpackExponent b)
      (unpackMantissa b) = b := by
  simp only [packComponents, toBitVec_ofBitVec, unpackSign, unpackExponent, unpackMantissa,
    BitVec.extractLsb]
  ext i hi
  grind

/-- With the other sign bit, the opposite number is stored. -/
theorem unpack_packComponents_neg (s : Sign) (e : BitVec spec.exponentBits)
    (m : BitVec spec.mantissaBitsWithoutImplicit) :
    UnpackedFloat.unpack spec (packComponents spec (-s) e m) =
      (UnpackedFloat.unpack spec (packComponents spec s e m)).neg := by
  simp only [UnpackedFloat.unpack, unpackMantissa_packComponents, unpackExponent_packComponents,
    unpackSign_packComponents, ofBitVec_toBitVec]
  split_ifs <;> rfl

/-- What a number becomes when it is stored in 64 bits. -/
def stored (u : UnpackedFloat) : UnpackedFloat :=
  UnpackedFloat.unpack .binary64 (UnpackedFloat.pack .binary64 u)

theorem stored_neg (u : UnpackedFloat) : stored u.neg = (stored u).neg := by
  rcases u with s | _ | s | ⟨s, m, e, hm⟩
  · exact unpack_packComponents_neg s _ _
  · rfl
  · exact unpack_packComponents_neg s _ _
  · simp only [stored, UnpackedFloat.neg, UnpackedFloat.pack, packedInfinity]
    split_ifs <;> exact unpack_packComponents_neg s _ _

theorem toNat_implicit (m : BitVec 52) : (1#1 ++ m).toNat = 2 ^ 52 + m.toNat := by
  rw [BitVec.toNat_append, ← Nat.shiftLeft_add_eq_or_of_lt m.isLt]
  rfl

theorem pack_subnormal (s : Sign) (m : BitVec 52) (hm : 0 < m.toNat) :
    UnpackedFloat.pack .binary64 (.finite s m.toNat (-1074) hm) =
      packComponents .binary64 s 0#11 m := by
  have hlog : m.toNat.log2 < 52 := (Nat.log2_lt hm.ne').2 m.isLt
  have hshort : ¬ m.toNat.log2 + 1 = Format.binary64.mantissaBits := by
    simp only [Format.mantissaBits]
    omega
  rw [UnpackedFloat.pack, if_neg (by decide), if_neg hshort, BitVec.ofNat_toNat, BitVec.setWidth_eq]

theorem pack_normal (s : Sign) (e : BitVec 11) (m : BitVec 52) (he : e ≠ -1#11)
    (hm : 0 < (1#1 ++ m).toNat) :
    UnpackedFloat.pack .binary64 (.finite s (1#1 ++ m).toNat (e.toNat - 1075) hm) =
      packComponents .binary64 s e m := by
  have hbiased : ((e.toNat : Int) - 1075 + Format.binary64.exponentBias +
      Format.binary64.mantissaBitsWithoutImplicit).toNat = e.toNat := by
    simp only [Format.exponentBias]
    omega
  have hsmall : ¬ 2 ^ 11 ≤ e.toNat + 1 := by
    have hne : e.toNat ≠ 2 ^ 11 - 1 := fun h => he (BitVec.eq_of_toNat_eq h)
    have hlt := e.isLt
    omega
  have hlog : (1#1 ++ m).toNat.log2 + 1 = Format.binary64.mantissaBits := by
    have hlt := m.isLt
    have hupper : (1#1 ++ m).toNat.log2 < 53 :=
      (Nat.log2_lt hm.ne').2 (by rw [toNat_implicit]; omega)
    have hlower : 52 ≤ (1#1 ++ m).toNat.log2 :=
      (Nat.le_log2 hm.ne').2 (by rw [toNat_implicit]; omega)
    simp only [Format.mantissaBits]
    omega
  have hmantissa : BitVec.ofNat 52 (1#1 ++ m).toNat = m := by
    refine BitVec.eq_of_toNat_eq ?_
    rw [BitVec.toNat_ofNat, toNat_implicit, Nat.add_mod_left, Nat.mod_eq_of_lt m.isLt]
  simp only [UnpackedFloat.pack, hbiased]
  rw [if_neg hsmall, if_pos hlog, hmantissa, BitVec.ofNat_toNat, BitVec.setWidth_eq]

theorem stored_unpack (b : BitVec Format.binary64.numBits) :
    stored (.unpack .binary64 b) = .unpack .binary64 b := by
  have hpack : UnpackedFloat.unpack .binary64 b ≠ .notANumber →
      UnpackedFloat.pack .binary64 (.unpack .binary64 b) = b := by
    refine fun hnumber => Eq.trans ?_ (packComponents_unpack b)
    revert hnumber
    simp only [UnpackedFloat.unpack]
    split_ifs with he hm he0 hm
    · exact fun _ => by rw [he, hm]; rfl
    · exact fun h => absurd rfl h
    · exact fun _ => by rw [he0, hm]; rfl
    · refine fun _ => ?_
      simp only [he0]
      exact pack_subnormal _ _ _
    · exact fun _ => pack_normal _ _ _ he _
  by_cases h : UnpackedFloat.unpack .binary64 b = .notANumber
  · rw [h]
    rfl
  · rw [stored, hpack h]

end Packing

section Nonneg

variable {u v : UnpackedFloat}

/-- Zero, or above it. -/
def isNonneg : UnpackedFloat → Bool
  | .infinity .positive | .zero _ | .finite .positive .. => true
  | _ => false

theorem isNonneg_roundWithAccuracy (spec : Format) (m : Nat) (e : Int)
    (a : UnpackedFloat.Accuracy) :
    isNonneg (UnpackedFloat.roundWithAccuracy spec .positive m e a) := by
  simp only [UnpackedFloat.roundWithAccuracy]
  split <;> rfl

theorem isNonneg_normalize (spec : Format) {m : Int} (hm : 0 ≤ m) (e : Int) (s : Sign) :
    isNonneg (UnpackedFloat.normalize spec m e s) := by
  rw [UnpackedFloat.normalize]
  split
  · rename_i hlt
    exact absurd (compare_lt_iff_lt.1 hlt) (not_lt.2 hm)
  · rfl
  · exact isNonneg_roundWithAccuracy spec _ _ _

theorem isNonneg_add (spec : Format) (hu : isNonneg u) (hv : isNonneg v) :
    isNonneg (u.add spec v) := by
  rcases u with ⟨_ | _⟩ | _ | s | ⟨_ | _, m, e, hm⟩ <;> cases hu <;>
    rcases v with ⟨_ | _⟩ | _ | t | ⟨_ | _, n, f, hn⟩ <;> cases hv
  -- the signs of zeros do not matter, and what is finite is a sum of magnitudes
  all_goals first
    | rfl
    | (cases s <;> cases t <;> rfl)
    | exact isNonneg_normalize spec (add_nonneg (Int.natCast_nonneg _) (Int.natCast_nonneg _)) _ _

theorem isNonneg_mul (spec : Format) (hu : isNonneg u) (hv : isNonneg v)
    (hu' : u.isFinite) (hv' : v.isFinite) : isNonneg (u.mul spec v) := by
  rcases u with ⟨_ | _⟩ | _ | s | ⟨_ | _, m, e, hm⟩ <;> cases hu <;> cases hu' <;>
    rcases v with ⟨_ | _⟩ | _ | t | ⟨_ | _, n, f, hn⟩ <;> cases hv <;> cases hv'
  all_goals first
    | rfl
    | exact isNonneg_roundWithAccuracy spec _ _ _

theorem isNonneg_unpack_packComponents {e : BitVec 11} {m : BitVec 52} (h : e = -1#11 → m = 0#52) :
    isNonneg (.unpack .binary64 (packComponents .binary64 .positive e m)) := by
  simp only [UnpackedFloat.unpack, unpackMantissa_packComponents, unpackExponent_packComponents,
    unpackSign_packComponents, ofBitVec_toBitVec]
  split_ifs with he hm
  · rfl
  · exact absurd (h he) hm
  all_goals rfl

theorem isNonneg_stored (hu : isNonneg u) : isNonneg (stored u) := by
  rcases u with ⟨_ | _⟩ | _ | ⟨_ | _⟩ | ⟨_ | _, m, e, hm⟩ <;> cases hu
  · rfl
  · rfl
  · rfl
  · simp only [stored, UnpackedFloat.pack, packedInfinity]
    -- the exponent is too large, or fits in its bits, or is the least
    split_ifs with hbig
    · exact isNonneg_unpack_packComponents fun _ => rfl
    · refine isNonneg_unpack_packComponents fun he => absurd (congrArg BitVec.toNat he) ?_
      rw [BitVec.toNat_ofNat]
      have hall : (-1#11).toNat = 2 ^ 11 - 1 := rfl
      omega
    · exact isNonneg_unpack_packComponents fun he => absurd he (by decide)

end Nonneg

theorem ofInt_nonneg {n : Int} (h : 0 ≤ n) (h' : n ≤ 128) :
    isNonneg (Float.ofInt n).toModel.unpack ∧ (Float.ofInt n).toModel.unpack.isFinite := by
  -- what is rounded to an integer is computed bit by bit, so the few values are tried
  have hall : ∀ k : Fin 129, isNonneg (Float.ofInt k.val).toModel.unpack ∧
      (Float.ofInt k.val).toModel.unpack.isFinite := by
    decide +kernel
  obtain ⟨k, rfl⟩ := Int.eq_ofNat_of_zero_le h
  exact hall ⟨k, by omega⟩

/-- Where a number stands on the line: at which side of zero, and there by exponent and mantissa. -/
def place? : UnpackedFloat → Option (Int ×ₗ Int ×ₗ Int)
  | .notANumber => none
  | .infinity .negative => some (toLex (-2, toLex (0, 0)))
  | .finite .negative m e _ => some (toLex (-1, toLex (-e, -m)))
  | .zero _ => some (toLex (0, toLex (0, 0)))
  | .finite .positive m e _ => some (toLex (1, toLex (e, m)))
  | .infinity .positive => some (toLex (2, toLex (0, 0)))

section Order

theorem compare_neg (a b : Int) : compare (-a) (-b) = compare b a := by
  simp only [compare, compareOfLessAndEq, Int.neg_lt_neg_iff, Int.neg_inj, eq_comm]

theorem compare_natCast (m n : Nat) : compare (m : Int) n = compare m n := by
  simp only [compare, compareOfLessAndEq, Int.ofNat_lt, Int.natCast_inj]

/-- Numbers compare as their places on the line do. -/
theorem compare_eq (u v : UnpackedFloat) :
    u.compare v = (place? u).bind fun x => (place? v).map (compare x) := by
  rcases u with ⟨_ | _⟩ | _ | _ | ⟨_ | _, m, e, hm⟩ <;>
    rcases v with ⟨_ | _⟩ | _ | _ | ⟨_ | _, n, f, hn⟩
  all_goals
    simp [UnpackedFloat.compare, place?, Prod.Lex.compare_def, compareLex, compareOn,
      compare_neg, compare_natCast, Ordering.swap_then, Int.compare_swap, Nat.compare_swap]
  all_goals rfl

variable {u v : UnpackedFloat}

theorem le_iff : u.le v ↔ ∃ x ∈ place? u, ∃ y ∈ place? v, x ≤ y := by
  rw [UnpackedFloat.le, compare_eq]
  rcases place? u with _ | x <;> rcases place? v with _ | y <;>
    simp [← compare_le_iff_le, Ordering.isLE_iff_ne_gt]

theorem lt_iff : u.lt v ↔ ∃ x ∈ place? u, ∃ y ∈ place? v, x < y := by
  rw [UnpackedFloat.lt, compare_eq]
  rcases place? u with _ | x <;> rcases place? v with _ | y <;> simp [← compare_lt_iff_lt]

end Order

section Laws

variable {a b : Float}

theorem unpack_neg : (-a).toModel.unpack = stored a.toModel.unpack.neg := rfl

theorem float_le_iff : a ≤ b ↔
    ∃ x ∈ place? a.toModel.unpack, ∃ y ∈ place? b.toModel.unpack, x ≤ y := by
  rw [← le_iff]
  exact decide_eq_true_iff

theorem float_lt_iff : a < b ↔
    ∃ x ∈ place? a.toModel.unpack, ∃ y ∈ place? b.toModel.unpack, x < y := by
  rw [← lt_iff]
  exact decide_eq_true_iff

/-- Only what is not a number is not even equal to itself. -/
theorem float_le_self_iff : a ≤ a ↔ a.isNaN = false := by
  rw [float_le_iff, Float.isNaN, isNaN]
  rcases a.toModel.unpack with ⟨_ | _⟩ | _ | _ | ⟨_ | _, m, e, hm⟩ <;>
    simp [place?, UnpackedFloat.isNaN]

theorem isNonneg_eq (u : UnpackedFloat) : isNonneg u = (UnpackedFloat.zero .positive).le u := by
  rcases u with ⟨_ | _⟩ | _ | _ | ⟨_ | _, m, e, hm⟩ <;> rfl

theorem zero_le_iff : 0 ≤ a ↔ isNonneg a.toModel.unpack := by
  rw [isNonneg_eq]
  exact decide_eq_true_iff

theorem isNonneg_of_isValid (h : Weights.isValid a) :
    isNonneg a.toModel.unpack ∧ a.toModel.unpack.isFinite := by
  obtain ⟨hfinite, hneg⟩ := Bool.and_eq_true_iff.1 h
  have hlt : ¬ a.toModel.unpack.lt (.zero .positive) := by
    intro hlt
    have hlt : a < 0 := decide_eq_true_iff.2 hlt
    simp at hneg
    exact hneg hlt
  refine ⟨?_, hfinite⟩
  have hfinite : a.toModel.unpack.isFinite := hfinite
  revert hlt hfinite
  rcases a.toModel.unpack with ⟨_ | _⟩ | _ | _ | ⟨_ | _, m, e, hm⟩ <;> intro hlt hfinite
  all_goals first | rfl | exact absurd rfl hlt | cases hfinite

theorem zero_le_mul (h : Weights.isValid a) {n : Int} (hn : 0 ≤ n) (hn' : n ≤ 128) :
    0 ≤ a * Float.ofInt n := by
  obtain ⟨ha, hfinite⟩ := isNonneg_of_isValid h
  obtain ⟨hn, hfinite'⟩ := ofInt_nonneg hn hn'
  exact zero_le_iff.2 (isNonneg_stored (isNonneg_mul _ ha hn hfinite hfinite'))

theorem neg_mul_neg (spec : Format) (u v : UnpackedFloat) :
    u.neg.mul spec v.neg = u.mul spec v := by
  rcases u with ⟨_ | _⟩ | _ | ⟨_ | _⟩ | ⟨_ | _, m, e, hm⟩ <;>
    rcases v with ⟨_ | _⟩ | _ | ⟨_ | _⟩ | ⟨_ | _, n, f, hn⟩ <;> rfl

theorem float_neg_mul_neg : -a * -b = a * b := by
  have hneg : ∀ x : Float, (-x).toModel.unpack = x.toModel.unpack.neg := fun x => by
    rw [unpack_neg, stored_neg, Float.Model.unpack, stored_unpack]
  have hmul : (-a).toModel.unpack.mul .binary64 (-b).toModel.unpack =
      a.toModel.unpack.mul .binary64 b.toModel.unpack := by
    rw [hneg, hneg, neg_mul_neg]
  exact congrArg (fun u => Float.ofModel (pack u)) hmul

end Laws

end Rounding

namespace Harmony

/-- What is assumed of numbers that may be rounded. Some of them may not be numbers at all: these
are not even equal to themselves. -/
structure Rounded (H : Type) [Scale H] : Prop where
  zero_le_zero : (0 : H) ≤ 0
  le_trans : ∀ a b c : H, a ≤ b → b ≤ c → a ≤ c
  le_self : ∀ a b : H, a ≤ b → a ≤ a ∧ b ≤ b
  le_or_lt : ∀ a b : H, a ≤ a → b ≤ b → a ≤ b ∨ b < a
  le_of_lt : ∀ a b : H, a < b → a ≤ b
  not_lt_of_le : ∀ a b : H, a ≤ b → ¬ b < a
  add_nonneg : ∀ a b : H, 0 ≤ a → 0 ≤ b → 0 ≤ a + b
  neg_mul : ∀ (x : H) (n : Int), n < 0 → -x * Scale.ofInt n = x * Scale.ofInt (-n)

open Rounding in
theorem rounded_float : Rounded Float where
  zero_le_zero := zero_le_iff.2 rfl
  le_trans a b c hab hbc := by
    obtain ⟨x, hx, y, hy, hxy⟩ := float_le_iff.1 hab
    obtain ⟨y', hy', z, hz, hyz⟩ := float_le_iff.1 hbc
    obtain rfl := Option.mem_unique hy hy'
    exact float_le_iff.2 ⟨x, hx, z, hz, hxy.trans hyz⟩
  le_self a b hab := by
    obtain ⟨x, hx, y, hy, -⟩ := float_le_iff.1 hab
    exact ⟨float_le_iff.2 ⟨x, hx, x, hx, le_rfl⟩, float_le_iff.2 ⟨y, hy, y, hy, le_rfl⟩⟩
  le_or_lt a b ha hb := by
    obtain ⟨x, hx, -⟩ := float_le_iff.1 ha
    obtain ⟨y, hy, -⟩ := float_le_iff.1 hb
    rcases le_or_gt x y with hxy | hyx
    · exact .inl (float_le_iff.2 ⟨x, hx, y, hy, hxy⟩)
    · exact .inr (float_lt_iff.2 ⟨y, hy, x, hx, hyx⟩)
  le_of_lt a b hab := by
    obtain ⟨x, hx, y, hy, hxy⟩ := float_lt_iff.1 hab
    exact float_le_iff.2 ⟨x, hx, y, hy, hxy.le⟩
  not_lt_of_le a b hab hba := by
    obtain ⟨x, hx, y, hy, hxy⟩ := float_le_iff.1 hab
    obtain ⟨y', hy', x', hx', hyx⟩ := float_lt_iff.1 hba
    obtain rfl := Option.mem_unique hx hx'
    obtain rfl := Option.mem_unique hy hy'
    exact absurd hyx (not_lt.2 hxy)
  add_nonneg a b ha hb :=
    zero_le_iff.2 (isNonneg_stored (isNonneg_add _ (zero_le_iff.1 ha) (zero_le_iff.1 hb)))
  neg_mul x n hn := by
    obtain ⟨k, rfl⟩ := Int.eq_negSucc_of_lt_zero hn
    exact float_neg_mul_neg

theorem rounded_rat : Rounded Rat where
  zero_le_zero := le_rfl
  le_trans _ _ _ := le_trans
  le_self _ _ _ := ⟨le_rfl, le_rfl⟩
  le_or_lt a b _ _ := le_or_gt a b
  le_of_lt _ _ := le_of_lt
  not_lt_of_le _ _ := not_lt.2
  add_nonneg _ _ := add_nonneg
  neg_mul x n _ := by
    have hcast : (Scale.ofInt (-n) : Rat) = -Scale.ofInt n := Int.cast_neg n
    rw [hcast, mul_neg, neg_mul]

end Harmony

end Violable
