import Mathlib
import Violable.Proofs.TopRank

/-!
# Ties and how they could be broken

A tie between ranks can be broken in any way that keeps the order there is (`Resolves`). What the
marks of a subnode are worth where they are decided stays the same, since under the new ranks no
mark leads that did not lead before (`isTop_subset`). A reported tie can be broken in favour of the
violations and in favour of the rest, and each side wins its tie (`harmony_brokenOrder`).
-/

namespace Violable.Ranks

section Dominance

variable {l : List String}

theorem map_fst_descending (l : List String) : (descending l).map (·.1) = l := by
  induction l with
  | nil => rfl
  | cons a l ih => rw [descending, List.map_cons, ih]

theorem get?_ofDominanceOrder (h : l.Nodup) {a : String} {n : Nat} :
    (ofDominanceOrder l).get? a = some n ↔ (a, n) ∈ descending l := by
  have hnodup : ((descending l).reverse.map (·.1)).Nodup := by
    rw [List.map_reverse, map_fst_descending]
    exact List.nodup_reverse.2 h
  rw [get?, ofDominanceOrder, ofPairs, SortedMap.get?_ofList, SortedMap.seek_of_nodup hnodup,
    List.mem_reverse]

theorem rank_le_of_mem_descending {a : String} {n : Nat} (h : (a, n) ∈ descending l) :
    a ∈ l ∧ n ≤ l.length := by
  induction l with
  | nil => cases h
  | cons b l ih =>
    rw [descending] at h
    rcases List.mem_cons.1 h with h | h
    · obtain ⟨rfl, rfl⟩ := Prod.mk.inj h
      exact ⟨List.mem_cons_self, Nat.le_refl _⟩
    · exact ⟨List.mem_cons_of_mem _ (ih h).1, Nat.le_trans (ih h).2 (Nat.le_succ _)⟩

theorem exists_mem_descending {a : String} (h : a ∈ l) : ∃ n, (a, n) ∈ descending l := by
  induction l with
  | nil => cases h
  | cons b l ih =>
    rcases List.mem_cons.1 h with rfl | h
    · exact ⟨_, List.mem_cons_self⟩
    · obtain ⟨n, hn⟩ := ih h
      exact ⟨n, List.mem_cons_of_mem _ hn⟩

/-- Ranks fall along the list, so of two names the one with no lower rank comes first, if they are
not the same. -/
theorem rel_of_rank_le {S : String → String → Prop} (hS : l.Pairwise S) {a b : String} {i j : Nat}
    (ha : (a, i) ∈ descending l) (hb : (b, j) ∈ descending l) (hij : j ≤ i) :
    a = b ∨ S a b ∧ j < i := by
  induction l with
  | nil => cases ha
  | cons c l ih =>
    rw [List.pairwise_cons] at hS
    rw [descending, List.mem_cons, Prod.mk.injEq] at ha hb
    rcases ha with ⟨rfl, rfl⟩ | ha <;> rcases hb with ⟨rfl, rfl⟩ | hb
    · exact .inl rfl
    · have hle := rank_le_of_mem_descending hb
      exact .inr ⟨hS.1 b hle.1, by omega⟩
    · have hle := rank_le_of_mem_descending ha
      omega
    · exact ih hS.2 ha hb

theorem eq_of_mem_descending {a b : String} {n : Nat} (ha : (a, n) ∈ descending l)
    (hb : (b, n) ∈ descending l) : a = b := by
  rcases rel_of_rank_le (List.pairwise_of_forall fun _ _ => trivial) ha hb (Nat.le_refl n)
    with heq | hrel
  · exact heq
  · exact absurd hrel.2 (Nat.lt_irrefl n)

theorem dominates_ofDominanceOrder (h : l.Nodup) {S : String → String → Prop} (hS : l.Pairwise S)
    {a b : String} (ha : a ∈ l) (hb : b ∈ l) (hne : b ≠ a) (hba : ¬ S b a) :
    (ofDominanceOrder l).dominates a b = .ok true := by
  obtain ⟨i, hi⟩ := exists_mem_descending ha
  obtain ⟨j, hj⟩ := exists_mem_descending hb
  refine dominates_eq_true.2 ⟨i, j, (get?_ofDominanceOrder h).2 hi,
    (get?_ofDominanceOrder h).2 hj, ?_⟩
  by_contra hle
  rcases rel_of_rank_le hS hj hi (by omega) with heq | hrel
  · exact hne heq
  · exact hba hrel.1

end Dominance

/-- The new ranks order the names as the old ones do, and leave no ties between them. -/
structure Resolves (r' r : Ranks) (names : SortedSet String) : Prop where
  ranked : ∀ a ∈ names, ∃ n, r'.get? a = some n
  injective : ∀ a ∈ names, ∀ b ∈ names, r'.get? a = r'.get? b → a = b
  refines : ∀ a ∈ names, ∀ b ∈ names, r.dominates a b = .ok true → r'.dominates a b = .ok true

section Refine

variable {r r' : Ranks} {names : SortedSet String}

/-- Twice the rank of a name, and one more if the name is to win its ties. -/
def tieKey (r : Ranks) (favoured : String → Bool) (a : String) : Nat :=
  2 * (r.get? a).getD 0 + (favoured a).toNat

/-- The names in the order of the table, with the ties broken for the favoured names. -/
def brokenOrder (r : Ranks) (favoured : String → Bool) (names : SortedSet String) : List String :=
  names.toList.mergeSort fun a b => r.tieKey favoured b ≤ r.tieKey favoured a

theorem nodup_brokenOrder (favoured : String → Bool) :
    (r.brokenOrder favoured names).Nodup :=
  (List.mergeSort_perm _ _).nodup_iff.2 names.nodup

theorem mem_brokenOrder {favoured : String → Bool} {a : String} :
    a ∈ r.brokenOrder favoured names ↔ a ∈ names :=
  List.mem_mergeSort

theorem dominates_brokenOrder {favoured : String → Bool} {a b : String} (ha : a ∈ names)
    (hb : b ∈ names) (hlt : r.tieKey favoured b < r.tieKey favoured a) :
    (ofDominanceOrder (r.brokenOrder favoured names)).dominates a b = .ok true := by
  have hsorted : (r.brokenOrder favoured names).Pairwise
      fun a b => decide (r.tieKey favoured b ≤ r.tieKey favoured a) = true :=
    List.pairwise_mergeSort
      (fun a b c hab hbc => by simp only [decide_eq_true_eq] at *; omega)
      (fun a b => by simp only [Bool.or_eq_true, decide_eq_true_eq]; omega) names.toList
  refine dominates_ofDominanceOrder (nodup_brokenOrder favoured) hsorted
    (mem_brokenOrder.2 ha) (mem_brokenOrder.2 hb) ?_ ?_
  · rintro rfl
    exact Nat.lt_irrefl _ hlt
  · simpa using hlt

theorem resolves_brokenOrder (favoured : String → Bool) :
    (ofDominanceOrder (r.brokenOrder favoured names)).Resolves r names := by
  have hnodup : (r.brokenOrder favoured names).Nodup := nodup_brokenOrder favoured
  have hranked : ∀ a ∈ names, ∃ n, (a, n) ∈ descending (r.brokenOrder favoured names) :=
    fun a ha => exists_mem_descending (mem_brokenOrder.2 ha)
  refine ⟨fun a ha => ?_, fun a ha b hb hab => ?_, fun a ha b hb hab => ?_⟩
  · obtain ⟨n, hn⟩ := hranked a ha
    exact ⟨n, (get?_ofDominanceOrder hnodup).2 hn⟩
  · obtain ⟨n, hn⟩ := hranked a ha
    have hbn := (get?_ofDominanceOrder hnodup).1 (hab ▸ (get?_ofDominanceOrder hnodup).2 hn)
    exact eq_of_mem_descending hn hbn
  · obtain ⟨m, n, hm, hn, hlt⟩ := dominates_eq_true.1 hab
    refine dominates_brokenOrder ha hb ?_
    have := Bool.toNat_le (favoured b)
    simp only [tieKey, hm, hn, Option.getD_some]
    omega

theorem rank_brokenOrder_le {favoured : String → Bool} {a : String} {n : Nat}
    (h : (ofDominanceOrder (r.brokenOrder favoured names)).get? a = some n) :
    n ≤ names.size := by
  have hle := rank_le_of_mem_descending ((get?_ofDominanceOrder (nodup_brokenOrder favoured)).1 h)
  rw [brokenOrder, List.length_mergeSort] at hle
  exact hle.2

end Refine

section Harmony

variable {r r' : Ranks} {names : SortedSet String} {marks : SortedSet Mark}

/-- The constraints that gave the marks. -/
def givers (marks : SortedSet Mark) : SortedSet String :=
  SortedSet.ofList (marks.toList.map (·.constraint))

theorem constraint_mem_givers : ∀ m ∈ marks, m.constraint ∈ givers marks :=
  fun _ hm => SortedSet.mem_ofList.2 (List.mem_map_of_mem hm)

theorem mem_givers {a : String} : a ∈ givers marks ↔ ∃ m ∈ marks, m.constraint = a := by
  rw [givers, SortedSet.mem_ofList, List.mem_map]
  rfl

theorem Resolves.covers (h : r'.Resolves r names) (hm : ∀ m ∈ marks, m.constraint ∈ names) :
    r'.Covers marks.toList :=
  fun m hmem => h.ranked _ (hm m hmem)

theorem isTop_subset (h : r'.Resolves r names) (hm : ∀ m ∈ marks, m.constraint ∈ names)
    {n n' : Nat} {group group' : List Mark} (ht : r.IsTop marks.toList (some (n, group)))
    (ht' : r'.IsTop marks.toList (some (n', group'))) {m : Mark} (hmem : m ∈ group') :
    m ∈ group := by
  obtain ⟨lead, hlead⟩ := List.exists_mem_of_ne_nil group ht.2.1
  have hlead := ht.mem.1 hlead
  have hmarks := (ht'.mem.1 hmem).1
  obtain ⟨k, hk, hrank⟩ := ht.2.2 m hmarks
  rcases Nat.lt_or_eq_of_le hk with hlt | rfl
  · have hdom := dominates_eq_true.2 ⟨n, k, hlead.2, hrank, hlt⟩
    exact absurd (h.refines _ (hm lead hlead.1) _ (hm m hmarks) hdom)
      (ht'.not_dominates hlead.1 hmem)
  · exact ht.mem.2 ⟨hmarks, hrank⟩

variable {H : Type} [Scale H]

theorem harmony_of_resolves (hc : r.Covers marks.toList) (hs : SameSign marks.toList)
    (h : r'.Resolves r names) (hm : ∀ m ∈ marks, m.constraint ∈ names) {x : H}
    (hok : r.harmony marks = .ok x) : r'.harmony marks = .ok x := by
  have hc' := h.covers hm
  rcases harmony_cases (H := H) hc hs with ⟨hnil, hx⟩ | ⟨n, group, ht, hcase⟩
  · rcases harmony_cases (H := H) hc' hs with ⟨-, hx'⟩ | ⟨n', group', ht', -⟩
    · rw [hx', ← hx, hok]
    · obtain ⟨lead, hlead⟩ := List.exists_mem_of_ne_nil group' ht'.2.1
      have hlead := (ht'.mem.1 hlead).1
      simp [hnil] at hlead
  rcases hcase with ⟨b, hagree, hx⟩ | ⟨-, tied, hx⟩
  · obtain ⟨lead, hlead⟩ := List.exists_mem_of_ne_nil group ht.2.1
    rw [← hok, hx]
    exact harmony_of_top hc' hs (List.ne_nil_of_mem (ht.mem.1 hlead).1)
      fun n' group' ht' m hmem => hagree m (isTop_subset h hm ht ht' hmem)
  · cases hok.symm.trans hx

/-- Whether a constraint gave a mark that is a violation, or one that is none. -/
def gave (marks : SortedSet Mark) (violation : Bool) (name : String) : Bool :=
  marks.toList.any fun m => m.constraint = name && m.isViolation == violation

theorem gave_constraint (hs : SameSign marks.toList) {m : Mark} (hm : m ∈ marks) (b : Bool) :
    gave marks b m.constraint = (m.isViolation == b) := by
  rw [Bool.eq_iff_iff]
  simp only [gave, List.any_eq_true, Bool.and_eq_true, decide_eq_true_eq, beq_iff_eq]
  constructor
  · rintro ⟨m', hm', hname, hb⟩
    rw [hs m hm m' hm' hname.symm, hb]
  · exact fun hb => ⟨m, hm, rfl, hb⟩

/-- A tie that is broken for some of the leading marks is decided by these. -/
theorem harmony_brokenOrder (hs : SameSign marks.toList) (hm : ∀ m ∈ marks, m.constraint ∈ names)
    {n : Nat} {group : List Mark} (ht : r.IsTop marks.toList (some (n, group))) {lead : Mark}
    (hlead : lead ∈ group) {b : Bool} (hb : lead.isViolation = b) :
    (ofDominanceOrder (r.brokenOrder (gave marks b) names)).harmony marks =
      .ok (outcome b : H) := by
  have hres : (ofDominanceOrder (r.brokenOrder (gave marks b) names)).Resolves r names :=
    resolves_brokenOrder _
  have hleads := ht.mem.1 hlead
  refine harmony_of_top (hres.covers hm) hs (List.ne_nil_of_mem hleads.1)
    fun n' group' ht' m hmem => ?_
  have hmem' := ht.mem.1 (isTop_subset hres hm ht ht' hmem)
  by_contra hne
  -- had they another sign, the favoured mark of the same old rank would be above them
  refine ht'.not_dominates hleads.1 hmem
    (dominates_brokenOrder (hm lead hleads.1) (hm m hmem'.1) ?_)
  simp [tieKey, gave_constraint hs hleads.1, gave_constraint hs hmem'.1, hleads.2, hmem'.2, hb, hne]

/-- Marks that are decided are decided in the same way however the ties of their constraints are
broken. A reported tie can be broken for the penalty and against it, along with all the other ties
of any set of constraints. -/
theorem harmony_resolved (hm : ∀ m ∈ marks, m.constraint ∈ names)
    (hr : ∀ a ∈ names, ∃ n, r.get? a = some n) (hs : SameSign marks.toList)
    (hsize : names.size < UInt32.size) :
    ((∃ x : H, r.harmony marks = .ok x) ∨
      ∃ n tied, r.harmony marks = (.error (.rankTie n tied) : Except ScoringError H)) ∧
    (∀ x : H, r.harmony marks = .ok x →
      ∀ r' : Ranks, r'.Resolves r (givers marks) → r'.harmony marks = .ok x) ∧
    (∀ n tied, r.harmony marks = (.error (.rankTie n tied) : Except ScoringError H) →
      ∃ r₁ r₂ : Ranks, r₁.Resolves r names ∧ r₂.Resolves r names ∧
        (∀ a n, r₁.get? a = some n ∨ r₂.get? a = some n → n < UInt32.size) ∧
        r₁.harmony marks = .ok (Harmony.penalty : H) ∧ r₂.harmony marks = .ok (0 : H)) := by
  have hc : r.Covers marks.toList := fun m hmem => hr _ (hm m hmem)
  refine ⟨?_, fun x hok r' hres => harmony_of_resolves hc hs hres constraint_mem_givers hok,
    fun n tied htie => ?_⟩
  · rcases harmony_cases (H := H) hc hs with ⟨-, hx⟩ | ⟨n, group, -, ⟨b, -, hx⟩ | ⟨-, tied, hx⟩⟩
    · exact .inl ⟨_, hx⟩
    · exact .inl ⟨_, hx⟩
    · exact .inr ⟨n, tied, hx⟩
  obtain ⟨_, group, ht, hlead⟩ := exists_split_of_rankTie hc hs htie
  obtain ⟨bad, hbad, hviolated⟩ := hlead true
  obtain ⟨good, hgood, hsatisfied⟩ := hlead false
  refine ⟨_, _, resolves_brokenOrder (gave marks true), resolves_brokenOrder (gave marks false), ?_,
    harmony_brokenOrder hs hm ht hbad hviolated, harmony_brokenOrder hs hm ht hgood hsatisfied⟩
  rintro a k (hk | hk)
  · exact Nat.lt_of_le_of_lt (rank_brokenOrder_le hk) hsize
  · exact Nat.lt_of_le_of_lt (rank_brokenOrder_le hk) hsize

end Harmony

def toyTie : Ranks := ofPairs [("NoB", 2), ("PreferB", 2), ("NoBB", 1)]

/-- What the constraints of the toy grammars give to a `b` after a `b`. -/
def toyMarks : SortedSet Mark :=
  ((SortedSet.insert ∅ ⟨"NoB", -1, .root⟩).insert ⟨"PreferB", 1, .root⟩).insert ⟨"NoBB", -1, .root⟩

theorem harmony_resolved_toyTie :
    toyTie.harmony toyMarks =
      (.error (.rankTie 2 ["NoB", "PreferB"]) : Except ScoringError Rat) ∧
    ∃ r₁ r₂ : Ranks, r₁.Resolves toyTie (givers toyMarks) ∧ r₂.Resolves toyTie (givers toyMarks) ∧
      (∀ a n, r₁.get? a = some n ∨ r₂.get? a = some n → n < UInt32.size) ∧
      r₁.harmony toyMarks = .ok (Harmony.penalty : Rat) ∧
      r₂.harmony toyMarks = .ok (0 : Rat) := by
  have htie : toyTie.harmony toyMarks =
      (.error (.rankTie 2 ["NoB", "PreferB"]) : Except ScoringError Rat) := by cbv
  have hmarks : toyMarks.toList =
      [⟨"NoB", -1, .root⟩, ⟨"NoBB", -1, .root⟩, ⟨"PreferB", 1, .root⟩] := by decide
  have hr : ∀ a ∈ givers toyMarks, ∃ n, toyTie.get? a = some n := by
    intro a ha
    rw [givers, hmarks, SortedSet.mem_ofList] at ha
    simp only [List.map_cons, List.map_nil, List.mem_cons, List.not_mem_nil, or_false] at ha
    rcases ha with rfl | rfl | rfl
    · exact ⟨2, by decide⟩
    · exact ⟨1, by decide⟩
    · exact ⟨2, by decide⟩
  have hs : SameSign toyMarks.toList := by
    rw [hmarks]
    decide
  have hsize : (givers toyMarks).size < UInt32.size := by
    rw [givers, hmarks]
    cbv
  exact ⟨htie, (harmony_resolved constraint_mem_givers hr hs hsize).2.2 _ _ htie⟩

end Violable.Ranks
