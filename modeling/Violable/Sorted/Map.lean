import Violable.Sorted.Order

/-!
# Sorted tables

A table is held as the list of its keys and values, with the keys strictly increasing. It is
determined by what it gives for each key (`SortedMap.ext`).
-/

namespace Violable

/-- A finite table from keys to values, held in the order of the keys. -/
structure SortedMap (κ ν : Type) [Ord κ] where
  entries : List (κ × ν)
  increasing : entries.Pairwise fun e e' => compare e.1 e'.1 = .lt
  deriving DecidableEq

namespace SortedMap

section Lists

variable {κ ν : Type} [Ord κ]

/-- The value that a list of entries gives for `k`: that of the first entry with this key. -/
def seek [DecidableEq κ] (k : κ) : List (κ × ν) → Option ν
  | [] => none
  | (j, v) :: l => if k = j then some v else seek k l

/-- Puts an entry at its place in an increasing list, in place of one with the same key. -/
def place (k : κ) (v : ν) : List (κ × ν) → List (κ × ν)
  | [] => [(k, v)]
  | (j, w) :: l =>
    match compare k j with
    | .lt => (k, v) :: (j, w) :: l
    | .eq => (k, v) :: l
    | .gt => (j, w) :: place k v l

theorem mem_place {k : κ} {v : ν} {e : κ × ν} {l : List (κ × ν)} (h : e ∈ place k v l) :
    e = (k, v) ∨ e ∈ l := by
  induction l with
  | nil => exact .inl (List.mem_singleton.1 h)
  | cons f l ih =>
    obtain ⟨j, w⟩ := f
    rw [place] at h
    split at h
    · exact List.mem_cons.1 h
    · exact (List.mem_cons.1 h).imp_right (List.mem_cons_of_mem _)
    · rcases List.mem_cons.1 h with rfl | h
      · exact .inr List.mem_cons_self
      · exact (ih h).imp_right (List.mem_cons_of_mem _)

section Seek

variable [DecidableEq κ]

omit [Ord κ]

theorem seek_append (k : κ) (l l' : List (κ × ν)) :
    seek k (l ++ l') = (seek k l).or (seek k l') := by
  induction l with
  | nil => rfl
  | cons e l ih =>
    obtain ⟨j, v⟩ := e
    rw [List.cons_append, seek, seek, ih]
    split <;> rfl

theorem seek_of_nodup {l : List (κ × ν)} (h : (l.map (·.1)).Nodup) {k : κ} {v : ν} :
    seek k l = some v ↔ (k, v) ∈ l := by
  induction l with
  | nil => simp [seek]
  | cons e l ih =>
    obtain ⟨j, w⟩ := e
    rw [List.map_cons, List.nodup_cons] at h
    rw [seek, List.mem_cons, Prod.mk.injEq]
    split <;> rename_i hkj
    · subst hkj
      have hnone : (k, v) ∉ l := fun hm => h.1 (List.mem_map.2 ⟨(k, v), hm, rfl⟩)
      simp [hnone, eq_comm]
    · rw [ih h.2]
      simp [hkj]

end Seek

variable [Std.TransOrd κ]

theorem seek_eq_some_iff [DecidableEq κ] {k : κ} {v : ν} {l : List (κ × ν)}
    (h : l.Pairwise fun e e' => compare e.1 e'.1 = .lt) : seek k l = some v ↔ (k, v) ∈ l :=
  seek_of_nodup (List.pairwise_map.2 (h.imp ne_of_compare_lt))

variable [Std.LawfulEqOrd κ]

theorem increasing_place {k : κ} {v : ν} {l : List (κ × ν)}
    (h : l.Pairwise fun e e' => compare e.1 e'.1 = .lt) :
    (place k v l).Pairwise fun e e' => compare e.1 e'.1 = .lt := by
  induction l with
  | nil => simp [place]
  | cons f l ih =>
    obtain ⟨j, w⟩ := f
    have hj := List.pairwise_cons.1 h
    rw [place]
    split <;> rename_i hkj
    · exact List.pairwise_cons.2 ⟨fun e he => (List.mem_cons.1 he).elim (fun h => h ▸ hkj)
        fun he => compare_lt_trans hkj (hj.1 e he), h⟩
    · obtain rfl := compare_eq_iff.1 hkj
      exact List.pairwise_cons.2 ⟨hj.1, hj.2⟩
    · exact List.pairwise_cons.2 ⟨fun e he => (mem_place he).elim
        (fun h => h ▸ compare_gt_iff.1 hkj) (hj.1 e), ih hj.2⟩

theorem seek_place [DecidableEq κ] {k : κ} {v : ν} (j : κ) {l : List (κ × ν)} :
    seek j (place k v l) = if j = k then some v else seek j l := by
  induction l with
  | nil => rfl
  | cons f l ih =>
    obtain ⟨i, w⟩ := f
    rw [place]
    split <;> rename_i hki
    · rfl
    · obtain rfl := compare_eq_iff.1 hki
      by_cases hj : j = k <;> simp [seek, hj]
    · have hk : i ≠ k := ne_of_compare_lt (compare_gt_iff.1 hki)
      by_cases hj : j = i
      · simp [seek, hj, hk]
      · simp [seek, hj, ih]

end Lists

variable {κ ν : Type} [Ord κ]

/-- The table without entries. -/
def empty : SortedMap κ ν := ⟨[], List.Pairwise.nil⟩

instance : EmptyCollection (SortedMap κ ν) := ⟨empty⟩

instance : Inhabited (SortedMap κ ν) := ⟨empty⟩

/-- The keys, in increasing order. -/
def keys (m : SortedMap κ ν) : List κ := m.entries.map (·.1)

/-- The values, in the order of their keys. -/
def values (m : SortedMap κ ν) : List ν := m.entries.map (·.2)

/-- The number of entries. -/
def size (m : SortedMap κ ν) : Nat := m.entries.length

def isEmpty (m : SortedMap κ ν) : Bool := m.entries.isEmpty

/-- The entries whose keys pass a test. -/
def filterKeys (p : κ → Bool) (m : SortedMap κ ν) : SortedMap κ ν :=
  ⟨m.entries.filter fun e => p e.1, m.increasing.filter _⟩

variable [DecidableEq κ]

def get? (m : SortedMap κ ν) (k : κ) : Option ν := seek k m.entries

def contains (m : SortedMap κ ν) (k : κ) : Bool := (m.get? k).isSome

def erase (m : SortedMap κ ν) (k : κ) : SortedMap κ ν :=
  m.filterKeys (· ≠ k)

@[simp] theorem get?_empty {k : κ} : (∅ : SortedMap κ ν).get? k = none := rfl

section

variable [Std.TransOrd κ]

theorem get?_eq_some_iff {m : SortedMap κ ν} {k : κ} {v : ν} :
    m.get? k = some v ↔ (k, v) ∈ m.entries :=
  seek_eq_some_iff m.increasing

theorem get?_filterKeys {m : SortedMap κ ν} {p : κ → Bool} {k : κ} :
    (m.filterKeys p).get? k = if p k then m.get? k else none := by
  refine Option.ext fun v => ?_
  rw [get?_eq_some_iff]
  split <;> simp_all [filterKeys, get?_eq_some_iff]

@[simp] theorem get?_erase {m : SortedMap κ ν} {k j : κ} :
    (m.erase k).get? j = if j = k then none else m.get? j := by
  rw [erase, get?_filterKeys]
  by_cases h : j = k <;> simp [h]

theorem mem_keys {m : SortedMap κ ν} {k : κ} : k ∈ m.keys ↔ m.contains k := by
  rw [keys, List.mem_map, contains, Option.isSome_iff_exists]
  constructor
  · rintro ⟨e, he, rfl⟩
    exact ⟨e.2, get?_eq_some_iff.2 he⟩
  · rintro ⟨v, hv⟩
    exact ⟨(k, v), get?_eq_some_iff.1 hv, rfl⟩

/-- A table is determined by what it gives for each key. -/
@[ext] theorem ext {m n : SortedMap κ ν} (h : ∀ k, m.get? k = n.get? k) : m = n := by
  have hmem : ∀ e, e ∈ m.entries ↔ e ∈ n.entries := fun e => by
    rw [← get?_eq_some_iff (k := e.1) (v := e.2), h, get?_eq_some_iff]
  obtain ⟨l, hl⟩ := m
  obtain ⟨l', hl'⟩ := n
  have hne {l : List (κ × ν)} (h : l.Pairwise fun e e' => compare e.1 e'.1 = .lt) : l.Nodup :=
    h.imp fun h e => ne_of_compare_lt h (congrArg Prod.fst e)
  obtain rfl : l = l' := List.Perm.eq_of_pairwise
    (fun _ _ _ _ h h' => absurd (compare_lt_trans h h') compare_lt_irrefl) hl hl'
    ((List.perm_ext_iff_of_nodup (hne hl) (hne hl')).2 hmem)
  rfl

end

variable [Std.TransOrd κ] [Std.LawfulEqOrd κ]

/-- Gives `k` the value `v`, in place of any value it had. -/
def insert (m : SortedMap κ ν) (k : κ) (v : ν) : SortedMap κ ν :=
  ⟨place k v m.entries, increasing_place m.increasing⟩

/-- Gives `k` the value made from the one it had. -/
def alter (m : SortedMap κ ν) (k : κ) (f : Option ν → ν) : SortedMap κ ν :=
  m.insert k (f (m.get? k))

/-- The table of a list of entries. Of two with the same key the last counts. -/
def ofList (l : List (κ × ν)) : SortedMap κ ν :=
  l.foldl (fun m e => m.insert e.1 e.2) ∅

@[simp] theorem get?_insert {m : SortedMap κ ν} {k j : κ} {v : ν} :
    (m.insert k v).get? j = if j = k then some v else m.get? j :=
  seek_place j

@[simp] theorem get?_alter {m : SortedMap κ ν} {k j : κ} {f : Option ν → ν} :
    (m.alter k f).get? j = if j = k then some (f (m.get? k)) else m.get? j :=
  seek_place j

/-- Of the entries with one key the last counts. -/
theorem get?_ofList (l : List (κ × ν)) (k : κ) : (ofList l).get? k = seek k l.reverse := by
  have h : ∀ m : SortedMap κ ν, (l.foldl (fun m e => m.insert e.1 e.2) m).get? k =
      (seek k l.reverse).or (m.get? k) := by
    induction l with
    | nil => exact fun m => rfl
    | cons e l ih =>
      intro m
      rw [List.foldl_cons, ih, get?_insert, List.reverse_cons, seek_append, Option.or_assoc]
      congr 1
      rw [seek]
      split <;> rfl
  rw [ofList, h, get?_empty, Option.or_none]

end SortedMap

end Violable
