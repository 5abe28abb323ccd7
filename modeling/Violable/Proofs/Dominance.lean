import Mathlib
import Violable.Proofs.Ties

/-!
# One order, seen in three ways

A table of ranks is asked which of two names is the higher one, for all names in order, and for the
names that share a rank. The three answers agree. A name precedes another if it is higher, or if the
two share a rank and it is alphabetically first (`Precedes`); that is how names are listed
(`sublist_dominanceOrder_iff`), and what shares a rank is one of the ties (`mem_ties`). It does not
matter in what order a table gives its entries (`orderOf_perm`, `tiesOf_perm`). A list of names can
be read off the ranks that it gives, with each name in its last place
(`dominanceOrder_ofDominanceOrder_dedup`).
-/

namespace Violable

section Lists

variable {α : Type} {R : α → α → Prop} {l l' : List α} {a b : α}

/-- A stable sort leaves the items that it does not tell apart as they were. -/
theorem pairwise_mergeSort_of_pairwise {le : α → α → Bool}
    (trans : ∀ a b c, le a b = true → le b c = true → le a c = true)
    (total : ∀ a b, (le a b || le b a) = true) (h : l.Pairwise R) :
    (l.mergeSort le).Pairwise fun a b => le a b = true ∧ (le b a = true → R a b) := by
  induction l with
  | nil => simp
  | cons a l ih =>
    obtain ⟨ha, hl⟩ := List.pairwise_cons.1 h
    -- the first item goes in front of all that it is not told apart from
    obtain ⟨before, after, hsort, hrest, hlt⟩ := List.mergeSort_cons trans total a l
    have hle := List.pairwise_mergeSort trans total (a :: l)
    rw [hsort] at hle
    have hafter := (List.pairwise_cons.1 (List.pairwise_append.1 hle).2.1).1
    have ih := List.pairwise_append.1 (hrest ▸ ih hl)
    have hmem : ∀ b ∈ after, b ∈ l := fun b hb =>
      List.mem_mergeSort.1 (hrest ▸ List.mem_append_right before hb)
    rw [hsort]
    refine List.pairwise_append.2 ⟨ih.1, List.pairwise_cons.2 ⟨fun b hb => ?_, ih.2.1⟩, ?_⟩
    · exact ⟨hafter b hb, fun _ => ha b (hmem b hb)⟩
    · intro b hb c hc
      rcases List.mem_cons.1 hc with rfl | hc
      · have hlt : le c b = false := by simpa using hlt b hb
        exact ⟨by simpa [hlt] using total c b, fun hle => by simp [hlt] at hle⟩
      · exact ih.2.2 b hb c hc

/-- Entries with increasing names that are sorted by falling numbers have the names in order where
the numbers are the same. -/
theorem pairwise_mergeSort_falling {entries : List (String × Nat)}
    (h : entries.Pairwise fun e e' => compare e.1 e'.1 = .lt) :
    (entries.mergeSort fun e e' => e'.2 ≤ e.2).Pairwise
      fun e e' => e'.2 < e.2 ∨ e.2 = e'.2 ∧ compare e.1 e'.1 = .lt := by
  refine (pairwise_mergeSort_of_pairwise
    (fun _ _ _ hab hbc => by simp only [decide_eq_true_eq] at *; omega)
    (fun _ _ => by simp only [Bool.or_eq_true, decide_eq_true_eq]; omega) h).imp fun {e e'} h => ?_
  obtain ⟨hle, hback⟩ := h
  rw [decide_eq_true_eq] at hle hback
  rcases Nat.lt_or_eq_of_le hle with hlt | heq
  · exact .inl hlt
  · exact .inr ⟨heq.symm, hback heq.ge⟩

/-- Two lists with the same items are the same if their items are put in one strict order. -/
theorem eq_of_pairwise_of_mem (hR : ∀ a b, R a b → ¬ R b a) (hl : l.Pairwise R)
    (hl' : l'.Pairwise R) (h : ∀ a, a ∈ l ↔ a ∈ l') : l = l' := by
  have hne : ∀ {a b}, R a b → a ≠ b := by
    rintro a _ hab rfl
    exact hR a a hab hab
  exact List.Perm.eq_of_pairwise (fun a b _ _ hab hba => absurd hba (hR a b hab)) hl hl'
    ((List.perm_ext_iff_of_nodup (hl.imp hne) (hl'.imp hne)).2 h)

theorem pair_sublist_or (ha : a ∈ l) (hb : b ∈ l) (hne : a ≠ b) :
    [a, b].Sublist l ∨ [b, a].Sublist l := by
  induction l with
  | nil => cases ha
  | cons c l ih =>
    rcases List.mem_cons.1 ha with rfl | hal <;> rcases List.mem_cons.1 hb with rfl | hbl
    · exact absurd rfl hne
    · exact .inl (List.cons_sublist_cons.2 (List.singleton_sublist.2 hbl))
    · exact .inr (List.cons_sublist_cons.2 (List.singleton_sublist.2 hal))
    · exact (ih hal hbl).imp (.cons c) (.cons c)

end Lists

theorem SortedMap.mem_of_seek {κ ν : Type} [DecidableEq κ] {k : κ} {v : ν} {l : List (κ × ν)}
    (h : seek k l = some v) : (k, v) ∈ l := by
  induction l with
  | nil => cases h
  | cons e l ih =>
    obtain ⟨j, w⟩ := e
    rw [seek] at h
    split at h <;> rename_i hkj
    · rw [hkj, ← Option.some.inj h]
      exact List.mem_cons_self
    · exact List.mem_cons_of_mem _ (ih h)

namespace Ranks

variable {r : Ranks} {a b : String} {n : Nat}

section Listed

/-- A name comes before another one in the list: it is higher, or no lower and alphabetically
first. -/
def Precedes (r : Ranks) (a b : String) : Prop :=
  ∃ m n, r.get? a = some m ∧ r.get? b = some n ∧ (n < m ∨ m = n ∧ compare a b = .lt)

theorem Precedes.asymm (h : r.Precedes a b) : ¬ r.Precedes b a := by
  rintro ⟨n', m', hn', hm', h'⟩
  obtain ⟨m, n, hm, hn, h⟩ := h
  obtain rfl := Option.some.inj (hm.symm.trans hm')
  obtain rfl := Option.some.inj (hn.symm.trans hn')
  rcases h with h | ⟨heq, h⟩ <;> rcases h' with h' | ⟨heq', h'⟩
  · omega
  · omega
  · omega
  · exact compare_lt_irrefl (compare_lt_trans h h')

theorem Precedes.ne (h : r.Precedes a b) : a ≠ b := fun heq => (heq ▸ h).asymm (heq ▸ h)

theorem precedes_of_dominates (h : r.dominates a b = .ok true) : r.Precedes a b := by
  obtain ⟨m, n, hm, hn, hlt⟩ := dominates_eq_true.1 h
  exact ⟨m, n, hm, hn, .inl hlt⟩

theorem mem_entries : (a, n) ∈ r.table.entries ↔ r.get? a = some n :=
  SortedMap.get?_eq_some_iff.symm

theorem mem_dominanceOrder : a ∈ r.dominanceOrder ↔ ∃ n, r.get? a = some n := by
  simp only [dominanceOrder, List.mem_map, List.mem_mergeSort, Prod.exists, mem_entries]
  exact ⟨fun ⟨_, n, h, e⟩ => ⟨n, e ▸ h⟩, fun ⟨n, h⟩ => ⟨a, n, h, rfl⟩⟩

/-- The entries in the order in which their names are listed. -/
theorem entries_sorted : (r.table.entries.mergeSort fun e e' => e'.2 ≤ e.2).Pairwise
    fun e e' => e'.2 < e.2 ∨ e.2 = e'.2 ∧ compare e.1 e'.1 = .lt :=
  pairwise_mergeSort_falling r.table.increasing

theorem dominanceOrder_pairwise : r.dominanceOrder.Pairwise r.Precedes := by
  refine List.pairwise_map.2 (entries_sorted.imp_of_mem fun {e e'} he he' h => ?_)
  exact ⟨e.2, e'.2, mem_entries.1 (List.mem_mergeSort.1 he),
    mem_entries.1 (List.mem_mergeSort.1 he'), h⟩

theorem nodup_dominanceOrder : r.dominanceOrder.Nodup :=
  dominanceOrder_pairwise.imp Precedes.ne

theorem sublist_dominanceOrder_iff : [a, b].Sublist r.dominanceOrder ↔ r.Precedes a b := by
  refine ⟨fun h => dominanceOrder_pairwise.forall_sublist h, fun h => ?_⟩
  obtain ⟨m, n, hm, hn, -⟩ := id h
  refine (pair_sublist_or (mem_dominanceOrder.2 ⟨m, hm⟩) (mem_dominanceOrder.2 ⟨n, hn⟩)
    h.ne).resolve_right fun hback => ?_
  exact h.asymm (dominanceOrder_pairwise.forall_sublist hback)

end Listed

section Shared

variable {group : List String}

theorem mem_namesOfRank : a ∈ r.namesOfRank n ↔ r.get? a = some n := by
  simp only [namesOfRank, List.mem_map, List.mem_filter, Prod.exists, mem_entries,
    decide_eq_true_eq]
  exact ⟨fun ⟨_, _, ⟨h, e⟩, e'⟩ => e ▸ e' ▸ h, fun h => ⟨a, n, ⟨h, rfl⟩, rfl⟩⟩

theorem increasing_namesOfRank : StrictlyIncreasing (r.namesOfRank n) :=
  List.pairwise_map.2 (r.table.increasing.filter _)

theorem mem_ties_iff_namesOfRank :
    (n, group) ∈ r.ties ↔ r.namesOfRank n = group ∧ 1 < group.length := by
  simp only [ties, List.mem_filter, List.mem_map, ← SortedSet.mem_def, SortedSet.mem_ofList,
    SortedMap.values, Prod.mk.injEq, decide_eq_true_eq]
  constructor
  · rintro ⟨⟨m, -, rfl, rfl⟩, hlen⟩
    exact ⟨rfl, hlen⟩
  · rintro ⟨rfl, hlen⟩
    obtain ⟨a, ha⟩ := List.exists_mem_of_length_pos (Nat.zero_lt_of_lt hlen)
    exact ⟨⟨n, ⟨(a, n), mem_entries.2 (mem_namesOfRank.1 ha), rfl⟩, rfl, rfl⟩, hlen⟩

/-- The ties are the ranks that several names share, each with these names. -/
theorem mem_ties : (n, group) ∈ r.ties ↔
    StrictlyIncreasing group ∧ 1 < group.length ∧ ∀ a, a ∈ group ↔ r.get? a = some n := by
  rw [mem_ties_iff_namesOfRank]
  constructor
  · rintro ⟨rfl, hlen⟩
    exact ⟨increasing_namesOfRank, hlen, fun a => mem_namesOfRank⟩
  · rintro ⟨hsorted, hlen, hgroup⟩
    refine ⟨SortedSet.eq_of_increasing increasing_namesOfRank hsorted fun a => ?_, hlen⟩
    exact mem_namesOfRank.trans (hgroup a).symm

theorem ties_increasing : (r.ties.map (·.1)).Pairwise (· < ·) := by
  refine List.pairwise_map.2 (List.Pairwise.filter _ (List.pairwise_map.2 ?_))
  exact (SortedSet.ofList r.table.values).increasing.imp fun h => compare_lt_iff_lt.1 h

theorem exists_tie (ha : r.get? a = some n) (hb : r.get? b = some n) (hne : a ≠ b) :
    ∃ group, (n, group) ∈ r.ties ∧ a ∈ group ∧ b ∈ group := by
  have ha := mem_namesOfRank.2 ha
  have hb := mem_namesOfRank.2 hb
  refine ⟨r.namesOfRank n, mem_ties_iff_namesOfRank.2 ⟨rfl, ?_⟩, ha, hb⟩
  rcases hnames : r.namesOfRank n with _ | ⟨c, _ | ⟨d, l⟩⟩ <;> rw [hnames] at ha hb
  · cases ha
  · exact absurd ((List.mem_singleton.1 ha).trans (List.mem_singleton.1 hb).symm) hne
  · simp

theorem exists_tie_of_sublist (h : [a, b].Sublist r.dominanceOrder)
    (hnot : r.dominates a b ≠ .ok true) :
    ∃ n group, (n, group) ∈ r.ties ∧ a ∈ group ∧ b ∈ group ∧ r.get? a = some n ∧
      r.get? b = some n := by
  obtain ⟨m, n, hm, hn, hlt | ⟨rfl, hlt⟩⟩ := sublist_dominanceOrder_iff.1 h
  · exact absurd (dominates_eq_true.2 ⟨m, n, hm, hn, hlt⟩) hnot
  · obtain ⟨group, htie, ha, hb⟩ := exists_tie hm hn (ne_of_compare_lt hlt)
    exact ⟨m, group, htie, ha, hb, hm, hn⟩

end Shared

section Unordered

/-- How entries compare that come in any order: by falling rank, and then alphabetically. -/
def compareEntries (e e' : String × Nat) : Ordering :=
  (compare e'.2 e.2).then (compare e.1 e'.1)

instance : Std.TransCmp compareEntries :=
  inferInstanceAs (Std.TransCmp (compareLex (fun e e' => compareOn Prod.snd e' e)
    (compareOn (Prod.fst : String × Nat → String))))

/-- The names of entries that come in any order. -/
def orderOf (entries : List (String × Nat)) : List String :=
  (entries.mergeSort fun e e' => (compareEntries e e').isLE).map (·.1)

/-- The names of the entries of one rank, as they come. -/
def namesAt (n : Nat) (entries : List (String × Nat)) : List String :=
  (entries.filter (·.2 = n)).map (·.1)

/-- The names of entries that come in any order, gathered by rank. -/
def gather (entries : List (String × Nat)) : SortedMap Nat (List String) :=
  entries.foldl (fun groups e => groups.alter e.2 fun group => group.getD [] ++ [e.1]) ∅

/-- The ranks that are shared among entries that come in any order, each with its names. -/
def tiesOf (entries : List (String × Nat)) : List (Nat × List String) :=
  ((gather entries).entries.filter (1 < ·.2.length)).map fun e =>
    (e.1, e.2.mergeSort fun a b => (compare a b).isLE)

variable {entries : List (String × Nat)}

theorem eq_of_compareEntries {e e' : String × Nat} (h : (compareEntries e e').isLE)
    (h' : (compareEntries e' e).isLE) : e = e' := by
  have heq : compareEntries e e' = .eq := Std.OrientedCmp.isLE_antisymm h h'
  obtain ⟨hrank, hname⟩ := Ordering.then_eq_eq.1 heq
  exact Prod.ext (compare_eq_iff.1 hname) (compare_eq_iff.1 hrank).symm

theorem orderOf_perm (h : entries.Perm r.table.entries) : orderOf entries = r.dominanceOrder := by
  refine congrArg (List.map Prod.fst) (List.Perm.eq_of_pairwise
    (fun e e' _ _ => eq_of_compareEntries)
    (List.pairwise_mergeSort (fun _ _ _ => Std.TransCmp.isLE_trans) (fun e e' => ?_) entries)
    (entries_sorted.imp fun {e e'} hlt => ?_)
    ((List.mergeSort_perm _ _).trans (h.trans (List.mergeSort_perm _ _).symm)))
  · have hswap : compareEntries e e' = (compareEntries e' e).swap := Std.OrientedCmp.eq_swap
    rw [hswap]
    cases compareEntries e' e <;> rfl
  · rw [compareEntries]
    rcases hlt with hlt | ⟨heq, hlt⟩
    · rw [compare_lt_iff_lt.2 hlt]
      rfl
    · rw [heq, Std.compare_self, hlt]
      rfl

theorem namesAt_cons (e : String × Nat) (l : List (String × Nat)) :
    namesAt n (e :: l) = if e.2 = n then e.1 :: namesAt n l else namesAt n l := by
  by_cases he : e.2 = n <;> simp [namesAt, he]

theorem get?_gather :
    (gather entries).get? n =
      if namesAt n entries = [] then none else some (namesAt n entries) := by
  have hfold : ∀ groups : SortedMap Nat (List String),
      (entries.foldl (fun groups e => groups.alter e.2 fun group => group.getD [] ++ [e.1])
        groups).get? n = if namesAt n entries = [] then groups.get? n
          else some ((groups.get? n).getD [] ++ namesAt n entries) := by
    induction entries with
    | nil => exact fun groups => rfl
    | cons e l ih =>
      intro groups
      rw [List.foldl_cons, ih, SortedMap.get?_alter, namesAt_cons]
      by_cases he : e.2 = n
      · by_cases hl : namesAt n l = [] <;> simp [he, hl]
      · have hne : n ≠ e.2 := fun h => he h.symm
        rw [if_neg he, if_neg hne]
  rw [gather, hfold]
  rfl

/-- What is gathered for a rank are the names of the entries of this rank, if there are any. -/
theorem mem_gather {names : List String} :
    (n, names) ∈ (gather entries).entries ↔ names ≠ [] ∧ namesAt n entries = names := by
  rw [← SortedMap.get?_eq_some_iff, get?_gather]
  split <;> rename_i hnil
  · rw [hnil]
    exact iff_of_false nofun fun h => h.1 h.2.symm
  · rw [Option.some.injEq, iff_and_self]
    rintro rfl
    exact hnil

theorem sort_namesAt (h : entries.Perm r.table.entries) :
    (namesAt n entries).mergeSort (fun a b => (compare a b).isLE) = r.namesOfRank n := by
  have hperm : (namesAt n entries).Perm (r.namesOfRank n) := (h.filter _).map _
  exact List.Perm.eq_of_pairwise
    (fun _ _ _ _ hle hle' => compare_eq_iff.1 (Std.OrientedCmp.isLE_antisymm hle hle'))
    (List.pairwise_mergeSort (fun _ _ _ => Std.TransCmp.isLE_trans) compare_isLE_total _)
    (increasing_namesOfRank.imp fun hlt => by rw [hlt]; rfl)
    ((List.mergeSort_perm _ _).trans hperm)

theorem mem_tiesOf {group : List String} (h : entries.Perm r.table.entries) :
    (n, group) ∈ tiesOf entries ↔ r.namesOfRank n = group ∧ 1 < group.length := by
  simp only [tiesOf, List.mem_map, List.mem_filter, decide_eq_true_eq, Prod.mk.injEq, Prod.exists,
    mem_gather]
  constructor
  · rintro ⟨m, _, ⟨⟨-, rfl⟩, hlen⟩, rfl, rfl⟩
    rw [← sort_namesAt h, List.length_mergeSort]
    exact ⟨rfl, hlen⟩
  · rintro ⟨rfl, hlen⟩
    have hlen : 1 < (namesAt n entries).length := by
      rwa [← sort_namesAt h, List.length_mergeSort] at hlen
    refine ⟨n, namesAt n entries, ⟨⟨?_, rfl⟩, hlen⟩, rfl, sort_namesAt h⟩
    exact List.ne_nil_of_length_pos (Nat.zero_lt_of_lt hlen)

theorem tiesOf_perm (h : entries.Perm r.table.entries) : tiesOf entries = r.ties := by
  refine eq_of_pairwise_of_mem (R := fun e e' => e.1 < e'.1) (fun _ _ => Nat.lt_asymm) ?_
    (List.pairwise_map.1 ties_increasing) fun e => ?_
  · refine List.pairwise_map.2 (List.Pairwise.filter _ ?_)
    exact (gather entries).increasing.imp fun hlt => compare_lt_iff_lt.1 hlt
  · exact (mem_tiesOf h).trans mem_ties_iff_namesOfRank.symm

end Unordered

section OfList

variable {l : List String}

/-- A name takes its rank from its last place in the list. -/
theorem get?_ofDominanceOrder_cons (a b : String) (l : List String) :
    (ofDominanceOrder (a :: l)).get? b =
      ((ofDominanceOrder l).get? b).or (if b = a then some (l.length + 1) else none) := by
  simp only [get?, ofDominanceOrder, ofPairs, SortedMap.get?_ofList, descending, List.reverse_cons,
    SortedMap.seek_append, SortedMap.seek]

theorem rank_ofDominanceOrder (h : (ofDominanceOrder l).get? a = some n) :
    a ∈ l ∧ n ≤ l.length := by
  rw [get?, ofDominanceOrder, ofPairs, SortedMap.get?_ofList] at h
  exact rank_le_of_mem_descending (List.mem_reverse.1 (SortedMap.mem_of_seek h))

theorem exists_rank_ofDominanceOrder : (∃ n, (ofDominanceOrder l).get? a = some n) ↔ a ∈ l := by
  refine ⟨fun ⟨n, hn⟩ => (rank_ofDominanceOrder hn).1, fun h => ?_⟩
  induction l with
  | nil => cases h
  | cons b l ih =>
    simp only [get?_ofDominanceOrder_cons, ← Option.isSome_iff_exists, Option.isSome_or] at ih ⊢
    rcases List.mem_cons.1 h with rfl | h
    · simp
    · simp [ih h]

theorem ofDominanceOrder_cons_of_mem (h : a ∈ l) :
    ofDominanceOrder (a :: l) = ofDominanceOrder l := by
  refine congrArg Ranks.mk (SortedMap.ext fun b => ?_)
  refine (get?_ofDominanceOrder_cons a b l).trans ?_
  split <;> rename_i hb
  · obtain ⟨n, hn⟩ := exists_rank_ofDominanceOrder.2 (hb ▸ h)
    rw [hn]
    exact hn.symm
  · rw [Option.or_none]
    rfl

theorem dedup_dominates (l : List String) :
    l.dedup.Pairwise fun a b => (ofDominanceOrder l).dominates a b = .ok true := by
  induction l with
  | nil => exact .nil
  | cons a l ih =>
    by_cases ha : a ∈ l
    · rwa [ofDominanceOrder_cons_of_mem ha, List.dedup_cons_of_mem ha]
    have hkeep : ∀ {b n}, (ofDominanceOrder l).get? b = some n →
        (ofDominanceOrder (a :: l)).get? b = some n := by
      intro b n hn
      rw [get?_ofDominanceOrder_cons, hn, Option.some_or]
    have hnew : (ofDominanceOrder (a :: l)).get? a = some (l.length + 1) := by
      have hnone : (ofDominanceOrder l).get? a = none := by
        rw [← Option.not_isSome_iff_eq_none, Option.isSome_iff_exists]
        exact fun h => ha (exists_rank_ofDominanceOrder.1 h)
      rw [get?_ofDominanceOrder_cons, hnone, if_pos rfl, Option.none_or]
    rw [List.dedup_cons_of_notMem ha]
    refine List.pairwise_cons.2 ⟨fun b hb => ?_, ih.imp fun h => ?_⟩
    · obtain ⟨n, hn⟩ := exists_rank_ofDominanceOrder.2 (List.mem_dedup.1 hb)
      have hle := (rank_ofDominanceOrder hn).2
      exact dominates_eq_true.2 ⟨_, n, hnew, hkeep hn, Nat.lt_succ_of_le hle⟩
    · obtain ⟨m, n, hm, hn, hlt⟩ := dominates_eq_true.1 h
      exact dominates_eq_true.2 ⟨m, n, hkeep hm, hkeep hn, hlt⟩

theorem dominanceOrder_ofDominanceOrder_dedup (l : List String) :
    (ofDominanceOrder l).dominanceOrder = l.dedup :=
  eq_of_pairwise_of_mem (fun _ _ => Precedes.asymm) dominanceOrder_pairwise
    ((dedup_dominates l).imp precedes_of_dominates) fun _ =>
      mem_dominanceOrder.trans (exists_rank_ofDominanceOrder.trans List.mem_dedup.symm)

theorem ties_ofDominanceOrder (l : List String) : (ofDominanceOrder l).ties = [] := by
  refine List.eq_nil_iff_forall_not_mem.2 fun (n, group) htie => ?_
  obtain ⟨hsorted, hlen, hgroup⟩ := mem_ties.1 htie
  rcases group with _ | ⟨a, _ | ⟨b, group⟩⟩
  · cases hlen
  · cases Nat.lt_irrefl _ hlen
  have hne : a ≠ b := ne_of_compare_lt ((List.pairwise_cons.1 hsorted).1 b List.mem_cons_self)
  have ha := (hgroup a).1 (by simp)
  have hb := (hgroup b).1 (by simp)
  have hmem : ∀ {c}, (ofDominanceOrder l).get? c = some n → c ∈ l.dedup := fun hc =>
    List.mem_dedup.2 (exists_rank_ofDominanceOrder.1 ⟨n, hc⟩)
  -- whichever of the two comes first in the list has the higher rank
  have hlower : ∀ {c d}, [c, d].Sublist l.dedup → (ofDominanceOrder l).get? c = some n →
      (ofDominanceOrder l).get? d ≠ some n := by
    intro c d hcd hc hd
    obtain ⟨i, j, hi, hj, hlt⟩ := dominates_eq_true.1 ((dedup_dominates l).forall_sublist hcd)
    obtain rfl := Option.some.inj (hi.symm.trans hc)
    obtain rfl := Option.some.inj (hj.symm.trans hd)
    exact Nat.lt_irrefl _ hlt
  rcases pair_sublist_or (hmem ha) (hmem hb) hne with hab | hba
  · exact hlower hab ha hb
  · exact hlower hba hb ha

/-- In a table that is made of a list without repeats, the first of two names is the higher one. -/
theorem dominates_ofDominanceOrder_iff (h : l.Nodup) :
    (ofDominanceOrder l).dominates a b = .ok true ↔ [a, b].Sublist l := by
  have hpairs := dedup_dominates l
  rw [h.dedup] at hpairs
  refine ⟨fun hab => ?_, fun hab => hpairs.forall_sublist hab⟩
  obtain ⟨m, n, hm, hn, hlt⟩ := dominates_eq_true.1 hab
  have hne := (precedes_of_dominates hab).ne
  refine (pair_sublist_or (rank_ofDominanceOrder hm).1 (rank_ofDominanceOrder hn).1
    hne).resolve_right fun hba => ?_
  exact (precedes_of_dominates hab).asymm (precedes_of_dominates (hpairs.forall_sublist hba))

end OfList

/-- What a table says of two names depends on which names it ranks and which is the higher one. -/
theorem dominates_congr {r' : Ranks}
    (hranked : ∀ a, (∃ n, r.get? a = some n) ↔ ∃ n, r'.get? a = some n)
    (h : ∀ a b, r.dominates a b = .ok true ↔ r'.dominates a b = .ok true) (a b : String) :
    r.dominates a b = r'.dominates a b := by
  have hab := h a b
  have hnone : ∀ c, r.get? c = none → r'.get? c = none := by
    intro c hc
    rw [← Option.not_isSome_iff_eq_none, Option.isSome_iff_exists, ← hranked c, hc]
    rintro ⟨n, ⟨⟩⟩
  unfold dominates rank at hab ⊢
  rcases hm : r.get? a with _ | m
  · rw [hnone a hm]
    rfl
  obtain ⟨m', hm'⟩ := (hranked a).1 ⟨m, hm⟩
  rcases hn : r.get? b with _ | n
  · rw [hm', hnone b hn]
    rfl
  obtain ⟨n', hn'⟩ := (hranked b).1 ⟨n, hn⟩
  rw [hm, hn, hm', hn'] at hab
  rw [hm', hn']
  simpa [bind, Except.bind, pure, Except.pure] using hab

/-- Without ties the order of the names has all that a table says of two names. -/
theorem dominates_ofDominanceOrder_dominanceOrder (h : r.ties = []) (a b : String) :
    (ofDominanceOrder r.dominanceOrder).dominates a b = r.dominates a b := by
  refine dominates_congr (fun a => ?_) (fun a b => ?_) a b
  · exact exists_rank_ofDominanceOrder.trans mem_dominanceOrder
  rw [dominates_ofDominanceOrder_iff nodup_dominanceOrder]
  refine ⟨fun hab => ?_, fun hab => sublist_dominanceOrder_iff.2 (precedes_of_dominates hab)⟩
  by_contra hnot
  obtain ⟨n, group, htie, -⟩ := exists_tie_of_sublist hab hnot
  rw [h] at htie
  cases htie

section Built

/-- The table is made of pairs or of a list of names, and then changed rank by rank. All ranks that
are given take 32 bits. -/
inductive Built : Ranks → Prop
  | ofPairs (pairs : List (String × Nat)) (h : ∀ p ∈ pairs, p.2 < UInt32.size) :
    Built (ofPairs pairs)
  | ofDominanceOrder (names : List String) (h : names.length < UInt32.size) :
    Built (ofDominanceOrder names)
  | insert {r : Ranks} (name : String) (rank : Nat) (hrank : rank < UInt32.size) (h : Built r) :
    Built (r.insert name rank).2

theorem Built.rank_lt (h : r.Built) : ∀ a n, r.get? a = some n → n < UInt32.size := by
  induction h with
  | ofPairs pairs h =>
    intro a n hn
    rw [get?, Ranks.ofPairs, SortedMap.get?_ofList] at hn
    exact h (a, n) (List.mem_reverse.1 (SortedMap.mem_of_seek hn))
  | ofDominanceOrder names h =>
    intro a n hn
    exact Nat.lt_of_le_of_lt (rank_ofDominanceOrder hn).2 h
  | insert name rank hrank _ ih =>
    intro a n hn
    rw [get?, Ranks.insert, SortedMap.get?_insert] at hn
    split at hn
    · exact Option.some.inj hn ▸ hrank
    · exact ih a n hn

/-- The higher of two names is listed before the other one, and names of which neither is higher
are tied. It does not matter in what order the entries come. The ties are the shared ranks in
order, each with its names in order. A list of names can be read off the ranks it gives, each name
in its last place, and leaves no ties; and a table without ties says of any two names what the list
of its names does. -/
theorem order_and_ties_of_built (h : r.Built) :
    (∀ a n, r.get? a = some n → n < UInt32.size) ∧
    (∀ entries : List (String × Nat), entries.Perm r.table.entries →
      orderOf entries = r.dominanceOrder ∧ tiesOf entries = r.ties) ∧
    r.dominanceOrder.Nodup ∧ (∀ a, a ∈ r.dominanceOrder ↔ r.contains a) ∧
    (∀ a b, r.dominates a b = .ok true → [a, b].Sublist r.dominanceOrder) ∧
    (∀ a b, [a, b].Sublist r.dominanceOrder → r.dominates a b ≠ .ok true →
      ∃ n group, (n, group) ∈ r.ties ∧ a ∈ group ∧ b ∈ group ∧ r.get? a = some n ∧
        r.get? b = some n) ∧
    (r.ties.map (·.1)).Pairwise (· < ·) ∧
    (∀ n group, (n, group) ∈ r.ties ↔
      StrictlyIncreasing group ∧ 1 < group.length ∧ ∀ a, a ∈ group ↔ r.get? a = some n) ∧
    (r.ties = [] →
      ∀ a b, (ofDominanceOrder r.dominanceOrder).dominates a b = r.dominates a b) ∧
    ∀ names : List String, (ofDominanceOrder names).dominanceOrder = names.dedup ∧
      (ofDominanceOrder names).ties = [] ∧ (names.length < UInt32.size →
        ∀ a n, (ofDominanceOrder names).get? a = some n → n < UInt32.size) := by
  refine ⟨h.rank_lt, fun entries hperm => ⟨orderOf_perm hperm, tiesOf_perm hperm⟩,
    nodup_dominanceOrder, fun a => ?_, fun a b hab => ?_,
    fun a b => exists_tie_of_sublist, ties_increasing, fun n group => mem_ties,
    dominates_ofDominanceOrder_dominanceOrder, fun names => ?_⟩
  · exact mem_dominanceOrder.trans Option.isSome_iff_exists.symm
  · exact sublist_dominanceOrder_iff.2 (precedes_of_dominates hab)
  · exact ⟨dominanceOrder_ofDominanceOrder_dedup names, ties_ofDominanceOrder names,
      fun hlen => (Built.ofDominanceOrder names hlen).rank_lt⟩

/-- A list with a repeat, in which one name is then raised to the rank of another. -/
def raised : Ranks := ((ofDominanceOrder ["NoB", "PreferB", "NoB", "NoBB"]).insert "NoBB" 3).2

theorem order_and_ties_of_built_raised :
    raised.dominanceOrder = ["NoBB", "PreferB", "NoB"] ∧ raised.ties = [(3, ["NoBB", "PreferB"])] ∧
    raised.dominates "PreferB" "NoB" = .ok true ∧
    ["PreferB", "NoB"].Sublist raised.dominanceOrder ∧
    (∀ a, a ∈ raised.dominanceOrder ↔ raised.contains a) ∧
    orderOf [("NoB", 2), ("PreferB", 3), ("NoBB", 3)] = raised.dominanceOrder := by
  have hbuilt : raised.Built := .insert _ _ (by decide) (.ofDominanceOrder _ (by decide))
  have horder : raised.dominanceOrder = ["NoBB", "PreferB", "NoB"] := by cbv
  have hdom : raised.dominates "PreferB" "NoB" = .ok true := by cbv
  have hperm : [("NoB", 2), ("PreferB", 3), ("NoBB", 3)].Perm raised.table.entries := by
    decide +kernel
  obtain ⟨-, hany, -, hmem, hlisted, -⟩ := order_and_ties_of_built hbuilt
  exact ⟨horder, by cbv, hdom, hlisted _ _ hdom, hmem, (hany _ hperm).1⟩

end Built

end Ranks

end Violable
