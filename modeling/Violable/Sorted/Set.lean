import Violable.Sorted.Order

/-!
# Sorted sets

A set is held as the strictly increasing list of its members. That list is determined by the
members (`SortedSet.ext`), so two sets with the same members are equal, and a walk over a set
always meets them in order.
-/

namespace Violable

/-- The strictly increasing lists. -/
abbrev StrictlyIncreasing {α : Type} [Ord α] (l : List α) : Prop :=
  l.Pairwise (compare · · = .lt)

/-- A finite set, held as the increasing list of its members. -/
structure SortedSet (α : Type) [Ord α] where
  toList : List α
  increasing : StrictlyIncreasing toList
  deriving DecidableEq

namespace SortedSet

section Lists

variable {α : Type} [Ord α]

/-- Puts `a` at its place in an increasing list, unless it is already there. -/
def place (a : α) : List α → List α
  | [] => [a]
  | b :: l =>
    match compare a b with
    | .lt => a :: b :: l
    | .eq => b :: l
    | .gt => b :: place a l

/-- Keeps the last of every run of equal neighbours. -/
def collapse : List α → List α
  | [] => []
  | [a] => [a]
  | a :: b :: l => if compare a b = .eq then collapse (b :: l) else a :: collapse (b :: l)

variable [Std.LawfulEqOrd α]

theorem mem_place {a x : α} {l : List α} : x ∈ place a l ↔ x = a ∨ x ∈ l := by
  induction l with
  | nil => simp [place]
  | cons b l ih =>
    rw [place]
    split
    · simp
    · rename_i h
      simp [compare_eq_iff.1 h]
    · simp [ih, or_left_comm]

theorem mem_collapse {x : α} {l : List α} : x ∈ collapse l ↔ x ∈ l := by
  fun_induction collapse l with
  | case1 => rfl
  | case2 => rfl
  | case3 a b l h ih => simp [ih, compare_eq_iff.1 h]
  | case4 a b l h ih => simp [ih]

variable [Std.TransOrd α]

theorem increasing_place {a : α} {l : List α} (h : StrictlyIncreasing l) :
    StrictlyIncreasing (place a l) := by
  induction l with
  | nil => simp [place]
  | cons b l ih =>
    rw [place]
    have hb := List.pairwise_cons.1 h
    split <;> rename_i hab
    · exact List.pairwise_cons.2 ⟨fun x hx => (List.mem_cons.1 hx).elim (fun e => e ▸ hab)
        fun hx => compare_lt_trans hab (hb.1 x hx), h⟩
    · exact h
    · exact List.pairwise_cons.2 ⟨fun x hx => (mem_place.1 hx).elim
        (fun e => e ▸ compare_gt_iff.1 hab) (hb.1 x), ih hb.2⟩

theorem increasing_collapse {l : List α} (h : l.Pairwise fun a b => (compare a b).isLE) :
    StrictlyIncreasing (collapse l) := by
  fun_induction collapse l with
  | case1 => exact List.Pairwise.nil
  | case2 => exact List.pairwise_singleton _ _
  | case3 a b l _ ih => exact ih (List.pairwise_cons.1 h).2
  | case4 a b l hab ih =>
    have ha := List.pairwise_cons.1 h
    have hb := List.pairwise_cons.1 ha.2
    have hlt : compare a b = .lt := by
      have hle := ha.1 b (by simp)
      cases hc : compare a b <;> simp_all
    refine List.pairwise_cons.2 ⟨fun x hx => ?_, ih ha.2⟩
    rcases List.mem_cons.1 (mem_collapse.1 hx) with rfl | hx
    · exact hlt
    · exact Std.TransCmp.lt_of_lt_of_isLE hlt (hb.1 x hx)

end Lists

variable {α : Type} [Ord α]

instance : Membership α (SortedSet α) where
  mem s a := a ∈ s.toList

theorem mem_def {a : α} {s : SortedSet α} : a ∈ s ↔ a ∈ s.toList := Iff.rfl

instance [DecidableEq α] (a : α) (s : SortedSet α) : Decidable (a ∈ s) :=
  inferInstanceAs (Decidable (a ∈ s.toList))

/-- The set without members. -/
def empty : SortedSet α := ⟨[], List.Pairwise.nil⟩

instance : EmptyCollection (SortedSet α) := ⟨empty⟩

instance : Inhabited (SortedSet α) := ⟨empty⟩

/-- The number of members. -/
def size (s : SortedSet α) : Nat := s.toList.length

def isEmpty (s : SortedSet α) : Bool := s.toList.isEmpty

/-- The members that pass a test. -/
def filter (p : α → Bool) (s : SortedSet α) : SortedSet α :=
  ⟨s.toList.filter p, s.increasing.filter p⟩

@[simp] theorem not_mem_empty {a : α} : ¬ a ∈ (∅ : SortedSet α) := List.not_mem_nil

@[simp] theorem mem_filter {p : α → Bool} {x : α} {s : SortedSet α} :
    x ∈ s.filter p ↔ x ∈ s ∧ p x := List.mem_filter

theorem isEmpty_iff {s : SortedSet α} : s.isEmpty = true ↔ ∀ a, a ∉ s :=
  List.isEmpty_iff.trans List.eq_nil_iff_forall_not_mem

variable [Std.TransOrd α]

theorem nodup (s : SortedSet α) : s.toList.Nodup :=
  s.increasing.imp ne_of_compare_lt

/-- Two strictly increasing lists with the same items are the same list. -/
theorem eq_of_increasing {l l' : List α} (hl : StrictlyIncreasing l) (hl' : StrictlyIncreasing l')
    (h : ∀ a, a ∈ l ↔ a ∈ l') : l = l' :=
  List.Perm.eq_of_pairwise
    (fun _ _ _ _ hab hba => absurd (compare_lt_trans hab hba) compare_lt_irrefl) hl hl'
    ((List.perm_ext_iff_of_nodup (hl.imp ne_of_compare_lt) (hl'.imp ne_of_compare_lt)).2 h)

/-- A set is determined by its members. -/
@[ext] theorem ext {s t : SortedSet α} (h : ∀ a, a ∈ s ↔ a ∈ t) : s = t := by
  obtain ⟨l, hl⟩ := s
  obtain ⟨l', hl'⟩ := t
  obtain rfl : l = l' := eq_of_increasing hl hl' h
  rfl

theorem eq_empty_iff {s : SortedSet α} : s = ∅ ↔ ∀ a, a ∉ s :=
  ⟨fun h _ => h ▸ not_mem_empty, fun h => ext fun a => iff_of_false (h a) not_mem_empty⟩

variable [Std.LawfulEqOrd α]

def insert (s : SortedSet α) (a : α) : SortedSet α :=
  ⟨place a s.toList, increasing_place s.increasing⟩

/-- The set of the items of a list. -/
def ofList (l : List α) : SortedSet α :=
  ⟨collapse (l.mergeSort fun a b => (compare a b).isLE),
    increasing_collapse
      (List.pairwise_mergeSort (fun _ _ _ => Std.TransCmp.isLE_trans) compare_isLE_total l)⟩

@[simp] theorem mem_insert {a x : α} {s : SortedSet α} : x ∈ s.insert a ↔ x = a ∨ x ∈ s :=
  mem_place

/-- A member is not inserted twice. -/
theorem insert_of_mem {a : α} {s : SortedSet α} (h : a ∈ s) : s.insert a = s := by
  ext x
  rw [mem_insert, or_iff_right_of_imp fun hx => hx ▸ h]

@[simp] theorem mem_ofList {x : α} {l : List α} : x ∈ ofList l ↔ x ∈ l :=
  mem_collapse.trans List.mem_mergeSort

end SortedSet

end Violable
