import Mathlib.Logic.Relation
import Violable.Proofs.Tables

/-!
# The links of a table

Every row in the table of a tree is the first of the rows of a branch (`exists_holds_row`). So
mothers and daughters name each other (`linked_table`), and what is below a row follows it without
a gap (`below_rows_iff`). The table also tells which tree it is the table of (`table_inj`).
-/

namespace Violable

namespace Branch

theorem length_starts (i : Nat) (bs : List Branch) : (starts i bs).length = bs.length := by
  induction bs generalizing i with
  | nil => rfl
  | cons b bs ih => rw [starts, List.length_cons, ih, List.length_cons]

theorem mem_starts {i j : Nat} {bs : List Branch} (h : j ∈ starts i bs) :
    i ≤ j ∧ j < i + sizes bs := by
  induction bs generalizing i with
  | nil => cases h
  | cons b bs ih =>
    have hpos := b.size_pos
    rw [sizes_cons]
    rcases List.mem_cons.1 h with rfl | h
    · omega
    · have := ih h
      omega

theorem starts_increasing (i : Nat) (bs : List Branch) : (starts i bs).Pairwise (· < ·) := by
  induction bs generalizing i with
  | nil => exact List.Pairwise.nil
  | cons b bs ih =>
    have hpos := b.size_pos
    refine List.pairwise_cons.2 ⟨fun j hj => ?_, ih _⟩
    have := (mem_starts hj).1
    omega

mutual

theorem rows_append_inj {m? : Option Nat} {i : Nat} {b b' : Branch} {rest rest' : Table}
    (h : b.rows m? i ++ rest = b'.rows m? i ++ rest') : b = b' ∧ rest = rest' := by
  match b, b' with
  | node l ds, node l' ds' =>
    rw [rows, rows, List.cons_append, List.cons_append, List.cons.injEq, Row.mk.injEq] at h
    obtain ⟨⟨rfl, -, hstarts⟩, h⟩ := h
    -- the first rows tell how many daughters there are
    have hlength := congrArg List.length hstarts
    rw [length_starts, length_starts] at hlength
    obtain ⟨rfl, rfl⟩ := rowsOf_append_inj hlength h
    exact ⟨rfl, rfl⟩

theorem rowsOf_append_inj {m i : Nat} {bs bs' : List Branch} {rest rest' : Table}
    (hlength : bs.length = bs'.length)
    (h : rowsOf m i bs ++ rest = rowsOf m i bs' ++ rest') : bs = bs' ∧ rest = rest' := by
  match bs, bs' with
  | [], [] => exact ⟨rfl, h⟩
  | b :: bs, b' :: bs' =>
    rw [rowsOf, rowsOf, List.append_assoc, List.append_assoc] at h
    obtain ⟨rfl, h⟩ := rows_append_inj h
    obtain ⟨rfl, rfl⟩ := rowsOf_append_inj (Nat.succ.inj hlength) h
    exact ⟨rfl, rfl⟩

end

end Branch

/-- A tree is determined by its table. -/
theorem Tree.table_inj {t u : Tree} (h : t.table = u.table) : t = u := by
  have hne : ∀ b : Branch, b.rows none 0 ≠ [] := by
    rintro ⟨l, ds⟩
    rw [Branch.rows]
    exact List.cons_ne_nil _ _
  rcases t with ⟨_ | b⟩ <;> rcases u with ⟨_ | b'⟩
  · rfl
  · exact absurd h.symm (hne b')
  · exact absurd h (hne b)
  · have happend : b.rows none 0 ++ [] = b'.rows none 0 ++ [] := by
      rw [List.append_nil, List.append_nil]
      exact h
    rw [(Branch.rows_append_inj happend).1]

namespace Table

open Branch

section Holds

variable {t : Table}

theorem HoldsAll.of_mem_starts {m i j : Nat} {bs : List Branch} (h : t.HoldsAll m i bs)
    (hj : j ∈ starts i bs) : ∃ d ∈ bs, t.Holds (some m) j d ∧ j + d.size ≤ i + sizes bs := by
  induction bs generalizing i with
  | nil => cases hj
  | cons b bs ih =>
    rw [sizes_cons]
    rcases List.mem_cons.1 hj with rfl | hj
    · exact ⟨b, List.mem_cons_self, h.head, by omega⟩
    · obtain ⟨d, hd, hholds, hle⟩ := ih h.tail hj
      exact ⟨d, List.mem_cons_of_mem _ hd, hholds, by omega⟩

/-- A row among those of several sisters is in the rows of one of them. -/
theorem HoldsAll.exists_sister {m i j : Nat} {bs : List Branch} (h : t.HoldsAll m i bs)
    (hle : i ≤ j) (hlt : j < i + sizes bs) : ∃ s ∈ starts i bs, ∃ d ∈ bs, t.Holds (some m) s d ∧
      s ≤ j ∧ j < s + d.size ∧ s + d.size ≤ i + sizes bs := by
  induction bs generalizing i with
  | nil => rw [sizes] at hlt; omega
  | cons b bs ih =>
    rw [sizes_cons] at hlt ⊢
    rcases Nat.lt_or_ge j (i + b.size) with hj | hj
    · exact ⟨i, List.mem_cons_self, b, List.mem_cons_self, h.head, hle, hj, by omega⟩
    · obtain ⟨s, hs, d, hd, hholds, hsj, hjs, hbound⟩ := ih h.tail hj (by omega)
      exact ⟨s, List.mem_cons_of_mem _ hs, d, List.mem_cons_of_mem _ hd, hholds, hsj, hjs, by omega⟩

/-- A row names another one as a daughter. -/
def Names (t : Table) (i j : Nat) : Prop := ∃ r, t[i]? = some r ∧ j ∈ r.daughters

theorem Holds.exists_holds {m? : Option Nat} {i j : Nat} {b : Branch} (h : t.Holds m? i b)
    (hle : i ≤ j) (hlt : j < i + b.size) : ∃ n? d, t.Holds n? j d ∧ j + d.size ≤ i + b.size ∧
      (j = i ∧ n? = m? ∨ ∃ p, n? = some p ∧ t.Names p j) := by
  induction b generalizing m? i with
  | node l ds ih =>
    rcases Nat.eq_or_lt_of_le hle with rfl | hij
    · exact ⟨m?, _, h, Nat.le_refl _, .inl ⟨rfl, rfl⟩⟩
    rw [size_node] at hlt ⊢
    obtain ⟨s, hs, d, hd, hholds, hsj, hjs, hbound⟩ :=
      h.daughters.exists_sister hij (by omega)
    obtain ⟨n?, d', hd', hsize, hcase⟩ := ih d hd hholds hsj hjs
    refine ⟨n?, d', hd', by omega, .inr ?_⟩
    rcases hcase with ⟨rfl, rfl⟩ | hmother
    · exact ⟨i, rfl, _, h.row, hs⟩
    · exact hmother

end Holds

/-- The links of the rows are those of a tree in the order of its nodes. -/
structure Linked (t : Table) : Prop where
  /-- The first row is the top, and no other row is without a mother. -/
  mother_eq_none : ∀ i r, t[i]? = some r → (r.mother? = none ↔ i = 0)
  /-- Daughters are named in the order of their numbers. -/
  increasing : ∀ r ∈ t, r.daughters.Pairwise (· < ·)
  /-- A row is named by its mother, and by no other row. -/
  names_iff : ∀ i j, t.Names i j ↔ ∃ r, t[j]? = some r ∧ r.mother? = some i

section Linked

variable (b : Branch)

/-- Every row of the table of a branch is the first row of a branch. -/
theorem exists_holds_row {i : Nat} {r : Row} (h : (b.rows none 0)[i]? = some r) :
    ∃ n? l ds, Holds (b.rows none 0) n? i (.node l ds) ∧ r = ⟨l, n?, starts (i + 1) ds⟩ ∧
      (i = 0 ∧ n? = none ∨ ∃ p, n? = some p ∧ Names (b.rows none 0) p i) := by
  have hlt := (List.getElem?_eq_some_iff.1 h).1
  rw [length_rows] at hlt
  obtain ⟨n?, ⟨l, ds⟩, hd, -, hcase⟩ := (holds_table b).exists_holds (Nat.zero_le i) (by omega)
  exact ⟨n?, l, ds, hd, Option.some.inj (h.symm.trans hd.row), hcase⟩

theorem lt_of_names {i j : Nat} (h : Names (b.rows none 0) i j) : i < j := by
  obtain ⟨r, hr, hj⟩ := h
  obtain ⟨n?, l, ds, hd, rfl, -⟩ := exists_holds_row b hr
  exact (mem_starts hj).1

theorem names_rows_iff {i j : Nat} : Names (b.rows none 0) i j ↔
    ∃ r, (b.rows none 0)[j]? = some r ∧ r.mother? = some i := by
  constructor
  · rintro ⟨r, hr, hj⟩
    obtain ⟨n?, l, ds, hd, rfl, -⟩ := exists_holds_row b hr
    obtain ⟨⟨l', ds'⟩, -, hholds, -⟩ := hd.daughters.of_mem_starts hj
    exact ⟨_, hholds.row, rfl⟩
  · rintro ⟨r, hr, hmother⟩
    obtain ⟨n?, l, ds, -, rfl, ⟨-, rfl⟩ | ⟨p, rfl, hp⟩⟩ := exists_holds_row b hr
    · cases hmother
    · obtain rfl : p = i := Option.some.inj hmother
      exact hp

theorem linked_table (t : Tree) : t.table.Linked := by
  rcases t with ⟨_ | b⟩
  · exact ⟨by simp [Tree.table], by simp [Tree.table], by simp [Tree.table, Names]⟩
  show Linked (b.rows none 0)
  refine ⟨fun i r hr => ?_, fun r hr => ?_, fun i j => names_rows_iff b⟩
  · obtain ⟨n?, l, ds, -, rfl, ⟨rfl, rfl⟩ | ⟨p, rfl, hp⟩⟩ := exists_holds_row b hr
    · exact ⟨fun _ => rfl, fun _ => rfl⟩
    · have hlt := lt_of_names b hp
      exact ⟨fun hnone => (Option.some_ne_none p hnone).elim, fun hi => by omega⟩
  · obtain ⟨i, hr⟩ := List.getElem?_of_mem hr
    obtain ⟨n?, l, ds, -, rfl, -⟩ := exists_holds_row b hr
    exact starts_increasing _ ds

end Linked

section Below

/-- Row `j` is row `i` or below it. -/
def Below (t : Table) : Nat → Nat → Prop :=
  Relation.ReflTransGen fun i j => ∃ r, t[j]? = some r ∧ r.mother? = some i

theorem Holds.below {t : Table} {m? : Option Nat} {i j : Nat} {b : Branch} (h : t.Holds m? i b)
    (hle : i ≤ j) (hlt : j < i + b.size) : t.Below i j := by
  induction b generalizing m? i with
  | node l ds ih =>
    rcases Nat.eq_or_lt_of_le hle with rfl | hij
    · exact .refl
    rw [size_node] at hlt
    obtain ⟨s, hs, ⟨l', ds'⟩, hd, hholds, hsj, hjs, -⟩ :=
      h.daughters.exists_sister hij (by omega)
    exact .head ⟨_, hholds.row, rfl⟩ (ih _ hd hholds hsj hjs)

/-- What is below a row follows it without a gap. -/
theorem below_rows_iff (b : Branch) {m? : Option Nat} {i j : Nat} {d : Branch}
    (h : Holds (b.rows none 0) m? i d) :
    Below (b.rows none 0) i j ↔ i ≤ j ∧ j < i + d.size := by
  refine ⟨fun hbelow => ?_, fun hj => h.below hj.1 hj.2⟩
  induction hbelow with
  | refl =>
    have := d.size_pos
    omega
  | @tail j k _ hmother ih =>
    -- the row that names `k` holds a branch that ends no later than the one at row `i`
    obtain ⟨n?, ⟨l, ds⟩, hholds, hbound, -⟩ := h.exists_holds ih.1 ih.2
    obtain ⟨r, hr, hk⟩ := (names_rows_iff b).2 hmother
    obtain rfl := Option.some.inj (hr.symm.trans hholds.row)
    have hrange := mem_starts hk
    rw [size_node] at hbound
    omega

end Below

end Table

end Violable
