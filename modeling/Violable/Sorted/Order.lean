/-!
# Lawful orders

The sets and tables of this library are kept in the order of their members, so an order has to be
total and transitive (`Std.TransOrd`), and only equal things may compare as equal
(`Std.LawfulEqOrd`). These are the few consequences that the rest of the library uses.
-/

namespace Violable

variable {α : Type} [Ord α] {a b c : α}

theorem compare_eq_iff [Std.LawfulEqOrd α] : compare a b = .eq ↔ a = b :=
  ⟨Std.LawfulEqCmp.eq_of_compare, fun h => h ▸ Std.compare_self⟩

variable [Std.TransOrd α]

theorem compare_gt_iff : compare a b = .gt ↔ compare b a = .lt :=
  Std.OrientedCmp.gt_iff_lt

theorem compare_lt_trans (h : compare a b = .lt) (h' : compare b c = .lt) : compare a c = .lt :=
  Std.TransCmp.lt_trans h h'

theorem compare_lt_irrefl : compare a a ≠ .lt := by
  simp [Std.compare_self]

theorem ne_of_compare_lt (h : compare a b = .lt) : a ≠ b := fun e =>
  compare_lt_irrefl (e ▸ h : compare b b = .lt)

/-- Of two things one comes no later than the other. -/
theorem compare_isLE_total (a b : α) : ((compare a b).isLE || (compare b a).isLE) = true := by
  rw [Std.OrientedOrd.eq_swap (a := a)]
  cases compare b a <;> rfl

end Violable
