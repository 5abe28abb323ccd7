import Mathlib
import Violable.Proofs.Contents
import Violable.Proofs.Culprit
import Violable.Proofs.Decision
import Violable.Proofs.Dominance
import Violable.Proofs.Totals

/-!
# What the tallies count

The tallies of an explanation count the marks that were met and the constraints that were blamed for
ill-formed subnodes, however the two are mixed (`Counts.mark`, `Counts.decide`, `counts_tallies`).
The blame is always on a constraint that gave a mark (`mem_of_decisive?`), so the tallies have just
the constraints of the markup (`keys_tallies`), and each mark is counted in one of them
(`sum_marks`). Under weights every ill-formed subnode has a culprit, and so it has under ranks where
no two are equal (`isSome_of_illFormed`); then each ill-formed subnode is counted once
(`sum_decisive`).
-/

namespace Violable

/-- What is in a list is counted under one of the names that are listed once each. -/
theorem sum_count {names l : List String} (hnames : names.Nodup) (h : ∀ a ∈ l, a ∈ names) :
    (names.map fun a => l.count a).sum = l.length := by
  have hcard : ∑ a ∈ names.toFinset, (l : Multiset String).count a = (l : Multiset String).card :=
    Multiset.sum_count_eq_card fun a ha => List.mem_toFinset.2 (h a (Multiset.mem_coe.1 ha))
  simpa [List.sum_toFinset _ hnames] using hcard

/-- The names of the constraints that gave violations, or the others, once for each mark. -/
def givenBy (violation : Bool) (marks : List Mark) : List String :=
  (marks.filter (·.isViolation = violation)).map (·.constraint)

namespace Tally

/-- How often a constraint gave marks of each kind, and how often it is among those to blame. -/
def ofMarks (marks : List Mark) (blamed : List String) (name : String) : Tally where
  violations := (givenBy true marks).count name
  satisfactions := (givenBy false marks).count name
  decisive := blamed.count name

variable {marks : List Mark} {blamed : List String} {name : String}

theorem ofMarks_concat (m : Mark) : ofMarks (marks ++ [m]) blamed name =
    if name = m.constraint then (ofMarks marks blamed name).mark m
    else ofMarks marks blamed name := by
  rcases eq_or_ne name m.constraint with rfl | hne <;> cases hm : m.isViolation
  · simp [ofMarks, givenBy, Tally.mark, hm]
  · simp [ofMarks, givenBy, Tally.mark, hm]
  · simp [ofMarks, givenBy, hm, hne, hne.symm]
  · simp [ofMarks, givenBy, hm, hne, hne.symm]

theorem ofMarks_blame (a : String) : ofMarks marks (blamed ++ [a]) name =
    if name = a then (ofMarks marks blamed name).decide else ofMarks marks blamed name := by
  rcases eq_or_ne name a with rfl | hne
  · simp [ofMarks, Tally.decide]
  · simp [ofMarks, hne, hne.symm]

end Tally

namespace Tallies

variable {t : Tallies} {marks : List Mark} {blamed : List String}

def tally (t : Tallies) (name : String) : Tally := (t.get? name).getD .zero

/-- The tallies of the marks of a list and of the constraints that are to blame. -/
structure Counts (t : Tallies) (marks : List Mark) (blamed : List String) : Prop where
  tally : ∀ name, t.tally name = .ofMarks marks blamed name
  contains : ∀ name, t.contains name ↔ name ∈ marks.map (·.constraint) ∨ name ∈ blamed

theorem counts_empty : Counts ∅ [] [] :=
  ⟨fun _ => rfl, fun name => by simp [SortedMap.contains]⟩

/-- One tally is replaced by what is made of it. -/
theorem tally_alter (a : String) (f : Tally → Tally) (name : String) :
    tally (t.alter a fun c => f (c.getD .zero)) name =
      if name = a then f (t.tally name) else t.tally name := by
  rcases eq_or_ne name a with rfl | hne
  · simp [tally]
  · simp [tally, hne]

theorem contains_alter (a : String) (f : Option Tally → Tally) (name : String) :
    (t.alter a f).contains name ↔ name = a ∨ t.contains name := by
  rcases eq_or_ne name a with rfl | hne
  · simp [SortedMap.contains]
  · simp [SortedMap.contains, hne]

namespace Counts

variable (h : t.Counts marks blamed)

include h

theorem mark (m : Mark) : (t.mark m).Counts (marks ++ [m]) blamed where
  tally name := by
    rw [Tally.ofMarks_concat, ← h.tally]
    exact tally_alter m.constraint (·.mark m) name
  contains name := by
    rw [Tallies.mark, contains_alter, h.contains, List.map_append, List.mem_append,
      List.map_singleton, List.mem_singleton]
    tauto

theorem decide (a : String) : (t.decide a).Counts marks (blamed ++ [a]) where
  tally name := by
    rw [Tally.ofMarks_blame, ← h.tally]
    exact tally_alter a Tally.decide name
  contains name := by
    rw [Tallies.decide, contains_alter, h.contains, List.mem_append, List.mem_singleton]
    tauto

end Counts

end Tallies

variable {ε H : Type} [Scale H]

namespace SubnodeAnalysis

/-- The constraint that an analysis is counted for. -/
def blamed (a : SubnodeAnalysis H) : Option String := if a.isIllFormed then a.decisive else none

theorem of_ofMarks {s : Semantics H} {p : Subnode} {ms : SortedSet Mark} {a : SubnodeAnalysis H}
    (h : ofMarks s p ms = .ok a) : a.marks = ms.toList ∧
      s.subnodeHarmony ms = .ok a.harmony ∧ s.decisive? ms = .ok a.decisive := by
  unfold ofMarks at h
  rcases hh : s.subnodeHarmony ms with e | x <;> rw [hh] at h
  · cases h
  rcases hc : s.decisive? ms with e | c <;> rw [hc] at h
  · cases h
  · cases h
    exact ⟨rfl, rfl, rfl⟩

end SubnodeAnalysis

namespace Tallies

variable {t : Tallies} {marks : List Mark} {blamed : List String}

theorem Counts.foldl_mark (h : t.Counts marks blamed) (more : List Mark) :
    (more.foldl Tallies.mark t).Counts (marks ++ more) blamed :=
  foldl_prefix (P := fun met t => Counts t met blamed) (fun h m => h.mark m) h more

theorem Counts.count (h : t.Counts marks blamed) (a : SubnodeAnalysis H) :
    (a.count t).Counts (marks ++ a.marks) (blamed ++ a.blamed.toList) := by
  have hmarks := h.foldl_mark a.marks
  unfold SubnodeAnalysis.count SubnodeAnalysis.blamed
  rcases a.decisive with _ | name <;> cases a.isIllFormed
  · simpa using hmarks
  · simpa using hmarks
  · simpa using hmarks
  · simpa using hmarks.decide name

theorem Counts.foldl_count (h : t.Counts marks blamed) (l : List (SubnodeAnalysis H)) :
    (l.foldl (fun t a => a.count t) t).Counts (marks ++ l.flatMap (·.marks))
      (blamed ++ l.filterMap (·.blamed)) := by
  induction l generalizing t marks blamed with
  | nil => simpa using h
  | cons a l ih =>
    -- marks and blame are counted by turns, and each is appended to a list of its own
    have hblamed : (a :: l).filterMap (·.blamed) = a.blamed.toList ++ l.filterMap (·.blamed) := by
      rw [List.filterMap_cons]
      cases a.blamed <;> rfl
    rw [List.foldl_cons, List.flatMap_cons, hblamed, ← List.append_assoc, ← List.append_assoc]
    exact ih (h.count a)

end Tallies

/-- All marks, element by element and there subnode by subnode. -/
def Markup.allMarks (m : Markup ε) : List Mark := m.entries.flatMap (·.allMarks)

theorem Markup.markCount_eq_length (m : Markup ε) : m.markCount = m.allMarks.length := by
  rw [allMarks, List.length_flatMap]
  exact congrArg List.sum (List.map_congr_left fun d _ => d.markCount_eq_length)

namespace Explanation

/-- The subnodes of all elements. -/
def subnodes (x : Explanation ε H) : List (SubnodeAnalysis H) := x.elements.flatMap (·.subnodes)

def illFormedSubnodes (x : Explanation ε H) : List (SubnodeAnalysis H) :=
  x.elements.flatMap (·.illFormedSubnodes)

theorem illFormedSubnodes_eq (x : Explanation ε H) :
    x.illFormedSubnodes = x.subnodes.filter (·.isIllFormed) :=
  (List.filter_flatMap).symm

section Explained

variable {s : Semantics H} {m : Markup ε} {x : Explanation ε H} (h : ofMarkup s m = .ok x)

include h

/-- Every subnode that is explained is one of the markup. -/
theorem subnode_of_mem {a : SubnodeAnalysis H} (ha : a ∈ x.subnodes) :
    ∃ d ∈ m.entries, ∃ ms ∈ d.marks.values, a.marks = ms.toList ∧
      s.subnodeHarmony ms = .ok a.harmony ∧ s.decisive? ms = .ok a.decisive := by
  obtain ⟨b, hb, ha⟩ := List.mem_flatMap.1 ha
  obtain ⟨d, hd, hdb⟩ := (forall_exists_of_mapM (mapM_elements h)).2 b hb
  obtain ⟨l, hl, rfl⟩ := ElementAnalysis.ofMarked_eq_ok.1 hdb
  obtain ⟨e, he, hea⟩ := (forall_exists_of_mapM hl).2 a ha
  exact ⟨d, hd, e.2, List.mem_map_of_mem he, SubnodeAnalysis.of_ofMarks hea⟩

theorem marks_subnodes : x.subnodes.flatMap (·.marks) = m.allMarks := by
  have helement : ∀ (d : Marked ε) b, ElementAnalysis.ofMarked s d = .ok b →
      b.subnodes.flatMap (·.marks) = d.allMarks := by
    intro d b hb
    obtain ⟨l, hl, rfl⟩ := ElementAnalysis.ofMarked_eq_ok.1 hb
    rw [Marked.allMarks, SortedMap.values, List.flatMap_map]
    refine congrArg List.flatten (map_eq_map_of_mapM hl fun e a ha => ?_)
    exact (SubnodeAnalysis.of_ofMarks ha).1
  rw [subnodes, List.flatMap_assoc]
  exact congrArg List.flatten (map_eq_map_of_mapM (mapM_elements h) helement)

theorem counts_tallies : x.tallies.Counts m.allMarks (x.subnodes.filterMap (·.blamed)) := by
  have htallies : x.tallies = x.subnodes.foldl (fun t a => a.count t) ∅ := by
    obtain ⟨l, -, rfl⟩ := map_eq_ok.1 h
    rfl
  rw [htallies, ← marks_subnodes h]
  exact Tallies.counts_empty.foldl_count x.subnodes

end Explained

end Explanation

section Blame

variable {marks : SortedSet Mark} {a : String}

theorem Weights.mem_of_heaviest {w : Weights H} {best best' : Option (Mark × H)} {l : List Mark}
    (h : w.heaviest best l = .ok best') : ∀ p ∈ best', p ∈ best ∨ p.1 ∈ l := by
  induction l generalizing best with
  | nil => exact fun p hp => .inl (Except.ok.inj h ▸ hp)
  | cons m l ih =>
    rw [heaviest] at h
    rcases hx : w.weight m.constraint with e | x <;> rw [hx] at h
    · cases h
    intro p hp
    simp only [] at h
    split at h
    · rcases ih h p hp with hp | hp
      · obtain rfl := Option.some.inj hp
        exact .inr List.mem_cons_self
      · exact .inr (List.mem_cons_of_mem m hp)
    · exact (ih h p hp).imp_right (List.mem_cons_of_mem m)

/-- Only a constraint that gave a mark is blamed. -/
theorem Semantics.mem_of_decisive? {s : Semantics H} (h : s.decisive? marks = .ok (some a)) :
    ∃ m ∈ marks, m.constraint = a := by
  cases s with
  | weighted w =>
    rw [decisive?, Weights.decisive?] at h
    rcases ht : w.score marks with e | t <;> rw [ht] at h
    · cases h
    simp only [] at h
    split at h
    · cases h
    · obtain ⟨best, hbest, ha⟩ := map_eq_ok.1 h
      obtain ⟨p, hp, rfl⟩ := Option.map_eq_some_iff.1 ha
      rcases Weights.mem_of_heaviest hbest p hp with hp | hp
      · cases hp
      · exact ⟨p.1, List.mem_of_mem_filter hp, rfl⟩
  | ranked r =>
    obtain ⟨v, hv, ha⟩ := map_eq_ok.1 h
    obtain ⟨lead, hlead, rfl⟩ := Option.map_eq_some_iff.1 ha
    obtain ⟨rfl, -⟩ := Option.filter_eq_some_iff.1 hlead
    rcases Ranks.decide?_cases (Ranks.covers_of_decide? hv) with ⟨-, hnone⟩ |
      ⟨n, first, group, ht, hverdict⟩
    · cases hnone.symm.trans hv
    · obtain ⟨lead', hlead', heq⟩ := map_eq_ok.1 (hverdict.symm.trans hv)
      obtain rfl := Option.some.inj heq
      obtain ⟨rfl, -⟩ := Ranks.verdict_eq_ok hlead'
      exact ⟨_, (ht.mem.1 List.mem_cons_self).1, rfl⟩

/-- Under weights an ill-formed subnode has a culprit. -/
theorem Weights.isSome_of_illFormed (hH : Harmony.Rounded H) {w : Weights H} {h : H}
    {c : Option String} (hpos : ∀ m ∈ marks, 0 ≤ w.penalty m) (hh : w.harmony marks = .ok h)
    (hc : w.decisive? marks = .ok c) (hbad : ¬ 0 ≤ h) : c.isSome := by
  obtain ⟨s, hs⟩ := exists_score.2 (exists_harmony.1 ⟨h, hh⟩)
  refine (culprit hH hpos hs hc).1.2 fun hzero => hbad ?_
  rw [harmony_of_score hs hh, if_neg (hH.not_lt_of_le 0 s hzero)]
  exact hH.zero_le_zero

/-- Under ranks that are not shared by constraints that gave marks, one decides alone. -/
theorem Ranks.isSome_of_illFormed (hzero : (0 : H) ≤ 0) {r : Ranks} {h : H} {c : Option String}
    (huntied : ∀ n tied, (∀ a ∈ tied, a ∈ givers marks) → ¬ r.Tied n tied)
    (hh : r.harmony marks = .ok h) (hc : r.decisive? marks = .ok c) (hbad : ¬ 0 ≤ h) :
    c.isSome := by
  obtain ⟨v, hv, -⟩ := map_eq_ok.1 hh
  have hcovers := covers_of_decide? hv
  have hone : ∀ m ∈ r.top marks, ∀ m' ∈ r.top marks, m.constraint = m'.constraint := by
    intro m hm m' hm'
    obtain ⟨hm, hrank⟩ := mem_top.1 hm
    obtain ⟨hm', hrank'⟩ := mem_top.1 hm'
    obtain ⟨n, hn⟩ := hcovers m hm
    by_contra hne
    refine huntied n [m.constraint, m'.constraint] ?_ ⟨⟨_, by simp, _, by simp, hne⟩, ?_⟩
    · simp [constraint_mem_givers m hm, constraint_mem_givers m' hm']
    · have hn' : r.get? m'.constraint = some n := hrank'.trans (hrank.symm.trans hn)
      simp [hn, hn']
  have hfree : ¬ Contested (r.top marks) :=
    fun ⟨⟨m, hm, m', hm', hne⟩, _⟩ => hne (hone m hm m' hm')
  rcases exists_decide? hcovers hfree with ⟨rfl, hnone⟩ | ⟨first, hfirst, -⟩
  · rw [harmony, hnone] at hh
    exact absurd (Except.ok.inj hh ▸ hzero) hbad
  -- whoever leads is the only one at the top, so the verdict is not shared
  · have hgivers : givers (r.top marks) = SortedSet.insert ∅ first.constraint := by
      ext a
      rw [mem_givers, SortedSet.mem_insert]
      constructor
      · rintro ⟨m, hm, rfl⟩
        exact .inl (hone m hm first hfirst)
      · rintro (rfl | ha)
        · exact ⟨first, hfirst, rfl⟩
        · exact absurd ha SortedSet.not_mem_empty
    have hname :=
      (decisive?_top hcovers hfree).1 first.constraint (congrArg SortedSet.toList hgivers)
    rw [← Except.ok.inj (hname.symm.trans hc)]
    rfl

theorem Weights.penalty_nonneg {w : Weights Rat} (hw : w.Accepted) (m : Mark) :
    0 ≤ w.penalty m := by
  refine mul_nonneg ?_ (Int.cast_nonneg (abs_nonneg m.value))
  rcases hx : w.get? m.constraint with _ | x
  · exact le_rfl
  · obtain ⟨-, hpos⟩ : Scale.isFinite x = true ∧ 0 ≤ x := by simpa [isValid] using hw.isValid hx
    exact hpos

end Blame

namespace Tallies

variable {t : Tallies}

theorem tally_of_mem {e : String × Tally} (he : e ∈ t.entries) : t.tally e.1 = e.2 := by
  rw [tally, SortedMap.get?_eq_some_iff.2 he, Option.getD_some]

theorem map_values (f : Tally → Nat) :
    t.values.map f = t.keys.map fun name => f (t.tally name) := by
  rw [SortedMap.values, SortedMap.keys, List.map_map, List.map_map]
  exact List.map_congr_left fun e he => congrArg f (tally_of_mem he).symm

/-- The violated constraints are listed with how often they were violated. -/
theorem mem_mostViolated {name : String} {n : Nat} :
    (name, n) ∈ t.mostViolated ↔ 0 < n ∧ n = (t.tally name).violations := by
  rw [mostViolated, List.mem_mergeSort, List.mem_map]
  constructor
  · rintro ⟨e, he, heq⟩
    obtain ⟨rfl, rfl⟩ := Prod.mk.inj heq
    obtain ⟨he, hpos⟩ := List.mem_filter.1 he
    exact ⟨of_decide_eq_true hpos, by rw [tally_of_mem he]⟩
  · rintro ⟨hpos, rfl⟩
    rcases hc : t.get? name with _ | c
    · simp [tally, hc, Tally.zero] at hpos
    · have he : (name, c) ∈ t.entries := SortedMap.get?_eq_some_iff.1 hc
      rw [tally_of_mem he] at hpos ⊢
      exact ⟨(name, c), List.mem_filter.2 ⟨he, decide_eq_true hpos⟩, rfl⟩

/-- The most violated constraints come first, and of two that are equally violated the one that
is alphabetically first. -/
theorem pairwise_mostViolated : t.mostViolated.Pairwise fun a b =>
    b.2 < a.2 ∨ a.2 = b.2 ∧ compare a.1 b.1 = .lt :=
  pairwise_mergeSort_falling (List.pairwise_map.2 (t.increasing.filter _))

end Tallies

theorem count_givenBy (violation : Bool) (marks : List Mark) (name : String) :
    (givenBy violation marks).count name =
      marks.countP fun m => m.constraint = name ∧ m.isViolation = violation := by
  rw [givenBy, List.count_eq_countP, List.countP_map, List.countP_filter]
  refine List.countP_congr fun m _ => ?_
  simp

/-- Every mark is a violation or it is not. -/
theorem length_givenBy_add (marks : List Mark) :
    (givenBy true marks).length + (givenBy false marks).length = marks.length := by
  rw [givenBy, givenBy, List.length_map, List.length_map, ← List.countP_eq_length_filter,
    ← List.countP_eq_length_filter, List.length_eq_countP_add_countP (·.isViolation)]
  simp

namespace Markup

variable [DecidableEq ε] {m : Markup ε} {judged : List ε}

/-- However a markup is built, it holds what was filed in it. -/
theorem exists_holds_of_built (h : Built judged m) : ∃ filed, m.Holds filed := by
  induction h with
  | empty => exact ⟨_, holds_empty⟩
  | insert e marks _ ih => exact ih.imp' _ fun _ hfiled => hfiled.insert e marks
  | eval v l => exact ⟨_, v.holds_eval l⟩
  | parEval v l => exact ⟨_, v.parEval_eq_eval l ▸ v.holds_eval l⟩

/-- Marks that have nothing to say are not in a markup. -/
theorem isZero_of_built (h : Built judged m) : ∀ y ∈ m.allMarks, y.isZero = false := by
  obtain ⟨filed, hfiled⟩ := exists_holds_of_built h
  intro y hy
  obtain ⟨d, hd, hy⟩ := List.mem_flatMap.1 hy
  exact (mem_given.1 ((hfiled.mem_allMarks hd).1 hy)).2

end Markup

namespace Explanation

section Counted

variable {s : Semantics H} {m : Markup ε} {x : Explanation ε H} (h : ofMarkup s m = .ok x)

include h

/-- Only constraints that gave marks are blamed. -/
theorem mem_of_blamed {name : String} (hname : name ∈ x.subnodes.filterMap (·.blamed)) :
    name ∈ m.constraintNames := by
  obtain ⟨a, ha, hname⟩ := List.mem_filterMap.1 hname
  obtain ⟨d, hd, ms, hms, -, -, hc⟩ := subnode_of_mem h ha
  have hdecisive : a.decisive = some name := by
    unfold SubnodeAnalysis.blamed at hname
    split at hname
    · exact hname
    · cases hname
  obtain ⟨y, hy, rfl⟩ := Semantics.mem_of_decisive? (hdecisive ▸ hc)
  exact Markup.constraint_mem_constraintNames hd (Marked.mem_allMarks.2 ⟨ms, hms, hy⟩)

theorem keys_tallies : x.tallies.keys = m.constraintNames.toList := by
  refine SortedSet.eq_of_increasing (List.pairwise_map.2 x.tallies.increasing)
    m.constraintNames.increasing fun name => ?_
  have hmarks : name ∈ m.constraintNames ↔ name ∈ m.allMarks.map (·.constraint) :=
    SortedSet.mem_ofList
  rw [SortedMap.mem_keys, (counts_tallies h).contains, ← hmarks,
    or_iff_left_of_imp (mem_of_blamed h)]
  rfl

theorem tally_tallies (name : String) : x.tallies.tally name =
    ⟨m.allMarks.countP fun y => y.constraint = name ∧ y.isViolation = true,
      m.allMarks.countP fun y => y.constraint = name ∧ y.isViolation = false,
      x.illFormedSubnodes.countP fun a => a.decisive = some name⟩ := by
  have hblamed : (x.subnodes.filterMap (·.blamed)).count name =
      x.illFormedSubnodes.countP fun a => a.decisive = some name := by
    rw [List.count_filterMap, illFormedSubnodes_eq, List.countP_filter]
    refine List.countP_congr fun a _ => ?_
    cases hbad : a.isIllFormed <;> simp [SubnodeAnalysis.blamed, hbad]
  rw [(counts_tallies h).tally, Tally.ofMarks, count_givenBy, count_givenBy, hblamed]

/-- Each mark is counted once. -/
theorem sum_marks : (x.tallies.values.map fun t => t.violations + t.satisfactions).sum =
    m.markCount := by
  have hnodup := m.constraintNames.nodup
  have hmem : ∀ violation, ∀ a ∈ givenBy violation m.allMarks, a ∈ m.constraintNames.toList := by
    intro violation a ha
    obtain ⟨y, hy, rfl⟩ := List.mem_map.1 ha
    exact SortedSet.mem_ofList.2 (List.mem_map_of_mem (List.mem_of_mem_filter hy))
  rw [Tallies.map_values, keys_tallies h]
  simp only [(counts_tallies h).tally, Tally.ofMarks]
  rw [List.sum_map_add, sum_count hnodup (hmem true), sum_count hnodup (hmem false),
    length_givenBy_add, Markup.markCount_eq_length]

/-- Each ill-formed subnode is counted once if each has somebody to blame. -/
theorem sum_decisive (hblame : ∀ a ∈ x.illFormedSubnodes, a.decisive.isSome) :
    (x.tallies.values.map (·.decisive)).sum = x.illFormedSubnodes.length := by
  have hmem : ∀ a ∈ x.subnodes.filterMap (·.blamed), a ∈ m.constraintNames.toList :=
    fun _ => mem_of_blamed h
  rw [Tallies.map_values, keys_tallies h]
  simp only [(counts_tallies h).tally, Tally.ofMarks]
  rw [sum_count m.constraintNames.nodup hmem, List.length_filterMap_eq_countP,
    illFormedSubnodes_eq, ← List.countP_eq_length_filter]
  refine List.countP_congr fun a ha => ?_
  cases hbad : a.isIllFormed
  · simp [SubnodeAnalysis.blamed, hbad]
  · have hsome := hblame a (by simp [illFormedSubnodes_eq, ha, hbad])
    simp [SubnodeAnalysis.blamed, hbad, hsome]

/-- The marks of an ill-formed subnode, whose harmony is not zero or more. -/
theorem illFormedSubnode_of_mem {a : SubnodeAnalysis H} (ha : a ∈ x.illFormedSubnodes) :
    ∃ d ∈ m.entries, ∃ ms ∈ d.marks.values, s.subnodeHarmony ms = .ok a.harmony ∧
      s.decisive? ms = .ok a.decisive ∧ ¬ 0 ≤ a.harmony := by
  rw [illFormedSubnodes_eq, List.mem_filter] at ha
  obtain ⟨d, hd, ms, hms, -, hh, hc⟩ := subnode_of_mem h ha.1
  refine ⟨d, hd, ms, hms, hh, hc, fun hzero => ?_⟩
  simp [SubnodeAnalysis.isIllFormed, Harmony.isWellFormed, hzero] at ha

end Counted

omit [Scale H] in
/-- However a markup is built, the tallies of its explanation are for the constraints that gave
marks. They count the negative and the positive marks of a constraint, which are together all marks,
and the ill-formed subnodes that it decided; and the violated constraints are listed by how often
they were violated and then by name. In exact arithmetic under weights, and under ranks of which no
two in the markup are equal, every ill-formed subnode is counted. -/
theorem tallies_of_built [DecidableEq ε] {judged : List ε} {m : Markup ε}
    (hm : Markup.Built judged m) :
    (∀ (H : Type) [Scale H] (s : Semantics H) (x : Explanation ε H), ofMarkup s m = .ok x →
      x.tallies.keys = m.constraintNames.toList ∧
      (∀ name t, x.tallies.get? name = some t →
        t.violations = m.allMarks.countP (fun y => y.constraint = name ∧ y.value < 0) ∧
        t.satisfactions = m.allMarks.countP (fun y => y.constraint = name ∧ 0 < y.value) ∧
        t.decisive = x.illFormedSubnodes.countP fun a => a.decisive = some name) ∧
      (x.tallies.values.map fun t => t.violations + t.satisfactions).sum = m.markCount ∧
      (∀ name n, (name, n) ∈ x.tallies.mostViolated ↔
        0 < n ∧ n = m.allMarks.countP fun y => y.constraint = name ∧ y.value < 0) ∧
      x.tallies.mostViolated.Pairwise fun a b =>
        b.2 < a.2 ∨ a.2 = b.2 ∧ compare a.1 b.1 = .lt) ∧
    (∀ (w : Weights Rat) (x : Explanation ε Rat), w.Accepted → ofMarkup (.weighted w) m = .ok x →
      (x.tallies.values.map (·.decisive)).sum = x.illFormedSubnodes.length) ∧
    ∀ (H : Type) [Scale H], (0 : H) ≤ 0 → ∀ (ranks : Ranks) (x : Explanation ε H),
      (∀ n tied, (∀ a ∈ tied, a ∈ m.constraintNames) → ¬ ranks.Tied n tied) →
      ofMarkup (.ranked ranks) m = .ok x →
      (x.tallies.values.map (·.decisive)).sum = x.illFormedSubnodes.length := by
  refine ⟨fun H _ s x h => ?_, fun w x hw h => ?_, fun H _ hzero ranks x huntied h => ?_⟩
  · have hneg : ∀ name, (m.allMarks.countP fun y => y.constraint = name ∧ y.isViolation = true) =
        m.allMarks.countP fun y => y.constraint = name ∧ y.value < 0 :=
      fun name => List.countP_congr fun y _ => by simp [Mark.isViolation]
    have hpos : ∀ name, (m.allMarks.countP fun y => y.constraint = name ∧ y.isViolation = false) =
        m.allMarks.countP fun y => y.constraint = name ∧ 0 < y.value := by
      refine fun name => List.countP_congr fun y hy => ?_
      have hne : y.value ≠ 0 := by simpa [Mark.isZero] using Markup.isZero_of_built hm y hy
      have hiff : 0 ≤ y.value ↔ 0 < y.value := by omega
      simp [Mark.isViolation, hiff]
    refine ⟨keys_tallies h, fun name t ht => ?_, sum_marks h, fun name n => ?_,
      Tallies.pairwise_mostViolated⟩
    · obtain rfl : x.tallies.tally name = t := by rw [Tallies.tally, ht, Option.getD_some]
      rw [tally_tallies h]
      exact ⟨hneg name, hpos name, rfl⟩
    · rw [Tallies.mem_mostViolated, tally_tallies h, hneg]
  · refine sum_decisive h fun a ha => ?_
    obtain ⟨d, -, ms, -, hh, hc, hbad⟩ := illFormedSubnode_of_mem h ha
    exact Weights.isSome_of_illFormed Harmony.rounded_rat (fun y _ => w.penalty_nonneg hw y) hh hc
      hbad
  · refine sum_decisive h fun a ha => ?_
    obtain ⟨d, hd, ms, hms, hh, hc, hbad⟩ := illFormedSubnode_of_mem h ha
    refine Ranks.isSome_of_illFormed hzero (fun n tied hgivers => huntied n tied fun b hb => ?_)
      hh hc hbad
    obtain ⟨y, hy, rfl⟩ := Ranks.mem_givers.1 (hgivers b hb)
    exact Markup.constraint_mem_constraintNames hd (Marked.mem_allMarks.2 ⟨ms, hms, hy⟩)

/-- Under weights both subnodes of `b` count against it, under ranks only its coda does. -/
theorem tallies_of_built_filed :
    let ranks := Ranks.ofDominanceOrder ["PreferB", "NoB"]
    (∃ x, ofMarkup Toy.semantics Toy.filed = .ok x ∧
      x.tallies.entries = [("NoB", ⟨2, 0, 2⟩), ("PreferB", ⟨0, 2, 0⟩)] ∧
      Toy.filed.constraintNames.toList = ["NoB", "PreferB"] ∧ Toy.filed.markCount = 4 ∧
      x.illFormedSubnodes.length = 2) ∧
    ∃ x : Explanation String Rat, ofMarkup (.ranked ranks) Toy.filed = .ok x ∧
      x.tallies.entries = [("NoB", ⟨2, 0, 1⟩), ("PreferB", ⟨0, 2, 0⟩)] ∧
      x.illFormedSubnodes.length = 1 := by
  intro ranks
  have hm : Markup.Built ["b", "a", "b"] Toy.filed := .insert _ _ (.insert _ _ (.insert _ _ .empty))
  obtain ⟨hcounts, hweighted, hranked⟩ := tallies_of_built hm
  have hw : Weights.Accepted (H := Rat) ⟨SortedMap.ofList [("NoB", 3), ("PreferB", 1)]⟩ :=
    Weights.accepted_ofList (by decide +kernel)
  have huntied : ∀ n tied, (∀ a ∈ tied, a ∈ Toy.filed.constraintNames) → ¬ ranks.Tied n tied :=
    fun n tied _ => Ranks.not_tied_ofDominanceOrder (by decide) n tied
  have hentries : (ofMarkup Toy.semantics Toy.filed).map (·.tallies.entries) =
      .ok [("NoB", ⟨2, 0, 2⟩), ("PreferB", ⟨0, 2, 0⟩)] := by
    cbv
  have hentries' : (ofMarkup (H := Rat) (.ranked ranks) Toy.filed).map (·.tallies.entries) =
      .ok [("NoB", ⟨2, 0, 1⟩), ("PreferB", ⟨0, 2, 0⟩)] := by
    cbv
  obtain ⟨x, hx, hentries⟩ := map_eq_ok.1 hentries
  obtain ⟨x', hx', hentries'⟩ := map_eq_ok.1 hentries'
  obtain ⟨hkeys, -, hsum, -⟩ := hcounts Rat _ x hx
  have hdecisive := hweighted _ x hw hx
  have hdecisive' := hranked Rat le_rfl ranks x' huntied hx'
  rw [SortedMap.keys, hentries] at hkeys
  rw [SortedMap.values, hentries] at hsum hdecisive
  rw [SortedMap.values, hentries'] at hdecisive'
  exact ⟨⟨x, hx, hentries, hkeys.symm, hsum.symm, hdecisive.symm⟩, x', hx', hentries',
    hdecisive'.symm⟩

end Explanation

end Violable
