import Mathlib
import Violable.Proofs.Ties
import Violable.Proofs.Verdict

/-!
# What ranks decide

What the ranks say about the marks of a subnode, told from the marks as a whole: the first of them
without a rank (`firstUnranked?`), the highest rank of the others (`highest?`) and the marks of that
rank (`top`). A mark without a rank is reported whatever else there is (`topMarks_of_unranked`). If
there is none, the walk ends with the marks of the highest rank (`decide?_eq_verdict`), and these
decide unless they are of several constraints and of both signs (`Contested`). The rest of the marks
has no say (`decide?_congr`).
-/

namespace Violable.Ranks

/-- The first mark of a constraint that has no rank. -/
def firstUnranked? (r : Ranks) (marks : SortedSet Mark) : Option Mark :=
  marks.toList.find? fun m => (r.get? m.constraint).isNone

/-- The highest rank of the constraints that gave the marks. -/
def highest? (r : Ranks) (marks : SortedSet Mark) : Option Nat :=
  (marks.toList.filterMap (r.get? ·.constraint)).max?

/-- The marks of the highest rank. -/
def top (r : Ranks) (marks : SortedSet Mark) : SortedSet Mark :=
  marks.filter fun m => r.get? m.constraint = r.highest? marks

/-- Marks of more than one constraint, among which there are violations and others. -/
def Contested (group : SortedSet Mark) : Prop :=
  (∃ m ∈ group, ∃ m' ∈ group, m.constraint ≠ m'.constraint) ∧
    (∃ m ∈ group, m.isViolation = true) ∧ ∃ m ∈ group, m.isViolation = false

/-- Neither a harmony nor a decisive constraint is found, for the same reason. -/
def Fails (H : Type) [Scale H] (r : Ranks) (marks : SortedSet Mark) (e : ScoringError) : Prop :=
  (r.harmony marks : Except ScoringError H) = .error e ∧ r.decisive? marks = .error e

variable {r : Ranks}

section Walk

variable {marks : SortedSet Mark}

/-- The walk ends at a mark without a rank, whatever it has found so far. -/
theorem topMarks_of_unranked {l : List Mark} {m : Mark}
    (h : l.find? (fun m => (r.get? m.constraint).isNone) = some m)
    (best : Option (Nat × List Mark)) :
    r.topMarks best l = .error (.missingRank m.constraint) := by
  induction l generalizing best with
  | nil => cases h
  | cons m' l ih =>
    unfold topMarks
    rw [rank]
    rcases hrank : r.get? m'.constraint with _ | n <;>
      rw [List.find?_cons, hrank] at h <;> simp only [] at h ⊢
    · obtain rfl := Option.some.inj h
      rfl
    · rcases best with _ | ⟨k, group⟩
      · exact ih h _
      · simp only []
        split_ifs <;> exact ih h _

theorem firstUnranked?_eq_none : r.firstUnranked? marks = none ↔ r.Covers marks.toList := by
  simp only [firstUnranked?, List.find?_eq_none, Covers, Option.isNone_iff_eq_none,
    ← ne_eq, Option.ne_none_iff_exists']

theorem mem_top {m : Mark} :
    m ∈ r.top marks ↔ m ∈ marks ∧ r.get? m.constraint = r.highest? marks := by
  rw [top, SortedSet.mem_filter, decide_eq_true_eq]

section Top

variable {n : Nat} {group : List Mark} (h : r.IsTop marks.toList (some (n, group)))

include h

theorem IsTop.highest?_eq : r.highest? marks = some n := by
  obtain ⟨lead, hlead⟩ := List.exists_mem_of_ne_nil group h.2.1
  obtain ⟨hmem, hrank⟩ := h.mem.1 hlead
  refine List.max?_eq_some_iff.2 ⟨List.mem_filterMap.2 ⟨lead, hmem, hrank⟩, fun k hk => ?_⟩
  obtain ⟨m, hm, hk⟩ := List.mem_filterMap.1 hk
  obtain ⟨j, hj, hm⟩ := h.2.2 m hm
  obtain rfl := Option.some.inj (hk.symm.trans hm)
  exact hj

theorem IsTop.toList_top : (r.top marks).toList = group := by
  rw [top, h.highest?_eq, h.1]
  rfl

end Top

/-- Ranked marks get the verdict of the marks of the highest rank. -/
theorem decide?_eq_verdict (hc : r.Covers marks.toList) :
    marks = ∅ ∧ r.decide? marks = .ok none ∨
      ∃ n first, r.highest? marks = some n ∧ first ∈ r.top marks ∧
        (r.top marks).toList.head? = some first ∧
        r.decide? marks = (verdict n first (r.top marks).toList).map some := by
  rcases decide?_cases hc with ⟨hnil, hnone⟩ | ⟨n, first, group, ht, hverdict⟩
  · exact .inl ⟨SortedSet.eq_empty_iff.2 (List.eq_nil_iff_forall_not_mem.1 hnil), hnone⟩
  · refine .inr ⟨n, first, ht.highest?_eq, ?_, ?_, ?_⟩
    · rw [SortedSet.mem_def, ht.toList_top]
      exact List.mem_cons_self
    · rw [ht.toList_top, List.head?_cons]
    · rw [hverdict, ht.toList_top]

theorem violated_eq_top (hc : r.Covers marks.toList) :
    r.violated marks = (r.top marks).toList.any (·.isViolation) := by
  rcases decide?_cases hc with ⟨hnil, -⟩ | ⟨n, first, group, ht, -⟩
  · obtain rfl : marks = ∅ := SortedSet.eq_empty_iff.2 (List.eq_nil_iff_forall_not_mem.1 hnil)
    rfl
  · rw [violated, ht.leading_eq, ht.toList_top]

/-- Marks below the highest rank have no say. -/
theorem decide?_congr {marks' : SortedSet Mark} (hc : r.Covers marks.toList)
    (hc' : r.Covers marks'.toList) (h : r.top marks' = r.top marks) :
    r.decide? marks' = r.decide? marks := by
  rcases decide?_eq_verdict hc with ⟨rfl, hd⟩ | ⟨n, first, hn, hfirst, hhead, hd⟩ <;>
    rcases decide?_eq_verdict hc' with ⟨rfl, hd'⟩ | ⟨n', first', hn', hfirst', hhead', hd'⟩
  · rfl
  · cases h ▸ hfirst'
  · cases h ▸ hfirst
  · obtain rfl : first' = first := by
      rw [h, hhead] at hhead'
      exact (Option.some.inj hhead').symm
    -- a rank that is reported is the one of the first mark, so it is the same too
    obtain rfl : n' = n := by
      have hrank := (mem_top.1 hfirst).2.trans hn
      have hrank' := (mem_top.1 hfirst').2.trans hn'
      exact Option.some.inj (hrank'.symm.trans hrank)
    rw [hd, hd', h]

end Walk

section Group

variable {group : SortedSet Mark} {n : Nat} {first : Mark}

theorem verdict_of_contested (h : Contested group) :
    verdict n first group.toList = .error (.rankTie n (givers group).toList) := by
  obtain ⟨⟨m, hm, m', hm', hne⟩, ⟨bad, hbad, hviolated⟩, good, hgood, hsatisfied⟩ := h
  have hany : group.toList.any fun m => m.isViolation != first.isViolation := by
    rw [List.any_eq_true]
    rcases hfirst : first.isViolation
    · exact ⟨bad, hbad, by rw [hviolated]; rfl⟩
    · exact ⟨good, hgood, by rw [hsatisfied]; rfl⟩
  unfold verdict
  simp only []
  rw [if_neg fun hone => hne (constraint_eq_of_alone hone hm hm'), if_pos hany]
  rfl

theorem contested_of_verdict (hfirst : first ∈ group) {e : ScoringError}
    (h : verdict n first group.toList = .error e) : Contested group := by
  obtain ⟨tied, -, ⟨a, ha, b, hb, hne⟩, hgave⟩ := verdict_eq_error hfirst h
  obtain ⟨m, hm, rfl⟩ := hgave a ha
  obtain ⟨m', hm', rfl⟩ := hgave b hb
  have hsplit : ∃ m ∈ group, m.isViolation ≠ first.isViolation := by
    by_contra hagree
    push Not at hagree
    obtain ⟨alone, hok⟩ := verdict_of_agree (n := n) hagree
    cases h.symm.trans hok
  obtain ⟨other, hother, hsign⟩ := hsplit
  refine ⟨⟨m, hm, m', hm', hne⟩, ?_⟩
  rcases hv : first.isViolation <;> rw [hv] at hsign
  · exact ⟨⟨other, hother, by simpa using hsign⟩, first, hfirst, hv⟩
  · exact ⟨⟨first, hfirst, hv⟩, other, hother, by simpa using hsign⟩

end Group

section Outcome

variable {marks : SortedSet Mark}

/-- Marks of the highest rank that are not contested decide. -/
theorem exists_decide? (hc : r.Covers marks.toList) (h : ¬ Contested (r.top marks)) :
    marks = ∅ ∧ r.decide? marks = .ok none ∨ ∃ first ∈ r.top marks,
      r.decide? marks = .ok (some ⟨first, decide ((givers (r.top marks)).toList.length = 1)⟩) := by
  rcases decide?_eq_verdict hc with hempty | ⟨n, first, -, hfirst, -, hd⟩
  · exact .inl hempty
  refine .inr ⟨first, hfirst, ?_⟩
  rcases hv : verdict n first (r.top marks).toList with e | ⟨lead, alone⟩
  · exact absurd (contested_of_verdict hfirst hv) h
  · obtain ⟨hlead, halone, -⟩ := verdict_eq_ok hv
    obtain rfl : lead = first := hlead
    obtain rfl : alone = decide ((givers (r.top marks)).toList.length = 1) := halone
    rw [hd, hv]
    rfl

theorem decisive?_top (hc : r.Covers marks.toList) (h : ¬ Contested (r.top marks)) :
    (∀ name, (givers (r.top marks)).toList = [name] → r.decisive? marks = .ok (some name)) ∧
      ((∀ name, (givers (r.top marks)).toList ≠ [name]) → r.decisive? marks = .ok none) := by
  rcases exists_decide? hc h with ⟨rfl, -⟩ | ⟨first, hfirst, hd⟩
  · refine ⟨fun name hname => ?_, fun _ => rfl⟩
    have hgiver : name ∈ givers (r.top ∅) := by rw [SortedSet.mem_def, hname]; simp
    obtain ⟨m, hm, -⟩ := List.mem_map.1 (SortedSet.mem_ofList.1 hgiver)
    cases hm
  rw [decisive?, hd]
  refine ⟨fun name hname => ?_, fun hname => ?_⟩
  · have hmem := constraint_mem_givers first hfirst
    rw [SortedSet.mem_def, hname, List.mem_singleton] at hmem
    simp [Except.map, hname, hmem]
  · have hlen : (givers (r.top marks)).toList.length ≠ 1 := fun hone => by
      obtain ⟨name, heq⟩ := List.length_eq_one_iff.1 hone
      exact hname name heq
    simp [Except.map, hlen]

variable {H : Type} [Scale H]

theorem fails_of_decide? {e : ScoringError} (h : r.decide? marks = .error e) :
    r.Fails H marks e :=
  ⟨map_eq_error.2 h, map_eq_error.2 h⟩

theorem fails_of_contested (hc : r.Covers marks.toList) (h : Contested (r.top marks)) :
    ∃ n, r.highest? marks = some n ∧
      r.Fails H marks (.rankTie n (givers (r.top marks)).toList) := by
  rcases decide?_eq_verdict hc with ⟨rfl, -⟩ | ⟨n, first, hn, -, -, hd⟩
  · obtain ⟨⟨m, hm, -⟩, -⟩ := h
    cases hm
  · exact ⟨n, hn, fails_of_decide? (hd.trans (map_eq_error.2 (verdict_of_contested h)))⟩

theorem harmony_top (hc : r.Covers marks.toList) (h : ¬ Contested (r.top marks)) :
    r.harmony marks = .ok (outcome ((r.top marks).toList.any (·.isViolation)) : H) := by
  obtain ⟨x, hx⟩ : ∃ x : H, r.harmony marks = .ok x := by
    rcases exists_decide? hc h with ⟨-, hd⟩ | ⟨first, -, hd⟩
    · exact ⟨_, map_eq_ok.2 ⟨none, hd, rfl⟩⟩
    · exact ⟨_, map_eq_ok.2 ⟨_, hd, rfl⟩⟩
  rw [hx, harmony_eq_ok hx, violated_eq_top hc]

/-- A mark without a rank is reported, the first one in order, and then a contested lead. In all
other cases the marks of the highest rank decide, and they do so alone. -/
theorem decision (r : Ranks) (marks : SortedSet Mark) :
    (∀ m, r.firstUnranked? marks = some m → r.Fails H marks (.missingRank m.constraint)) ∧
    (r.firstUnranked? marks = none →
      (Contested (r.top marks) → ∃ n, r.highest? marks = some n ∧
        r.Fails H marks (.rankTie n (givers (r.top marks)).toList)) ∧
      (¬ Contested (r.top marks) →
        ((∃ m ∈ r.top marks, m.isViolation = true) →
          r.harmony marks = .ok (Harmony.penalty : H)) ∧
        ((∀ m ∈ r.top marks, m.isViolation = false) → r.harmony marks = .ok (0 : H)) ∧
        (∀ name, (givers (r.top marks)).toList = [name] →
          r.decisive? marks = .ok (some name)) ∧
        ((∀ name, (givers (r.top marks)).toList ≠ [name]) → r.decisive? marks = .ok none)) ∧
      ∀ marks', r.firstUnranked? marks' = none → r.top marks' = r.top marks →
        (r.harmony marks' : Except ScoringError H) = r.harmony marks ∧
        r.decisive? marks' = r.decisive? marks) ∧
    r.harmony ∅ = .ok (0 : H) ∧ r.decisive? ∅ = .ok none := by
  refine ⟨fun m hm => fails_of_decide? ?_, fun hnone => ?_, rfl, rfl⟩
  · rw [decide?, topMarks_of_unranked hm]
  have hc := firstUnranked?_eq_none.1 hnone
  refine ⟨fails_of_contested hc, fun h => ⟨fun hbad => ?_, fun hgood => ?_, decisive?_top hc h⟩,
    fun marks' hnone' htop => ?_⟩
  · rw [harmony_top hc h, List.any_eq_true.2 hbad]
    rfl
  · have hany : (r.top marks).toList.any (·.isViolation) = false :=
      List.any_eq_false.2 fun m hm => by simp [hgood m hm]
    rw [harmony_top hc h, hany]
    rfl
  · have hd := decide?_congr hc (firstUnranked?_eq_none.1 hnone') htop
    rw [harmony, harmony, decisive?, decisive?, hd]
    exact ⟨rfl, rfl⟩

end Outcome

/-- Marks of both signs, all of one constraint. -/
def mixedMarks : SortedSet Mark :=
  (SortedSet.insert ∅ ⟨"NoB", 1, .root⟩).insert ⟨"NoB", -1, .root⟩

theorem decision_toyTie :
    toyTie.Fails Rat toyMarks (.rankTie 2 ["NoB", "PreferB"]) ∧
      toyTie.Fails Rat (toyMarks.insert ⟨"NoC", -1, .root⟩) (.missingRank "NoC") ∧
      toyTie.harmony mixedMarks = .ok (Harmony.penalty : Rat) ∧
      toyTie.decisive? mixedMarks = .ok (some "NoB") := by
  have hbad : (⟨"NoB", -1, .root⟩ : Mark) ∈ toyTie.top toyMarks := by decide
  have hgood : (⟨"PreferB", 1, .root⟩ : Mark) ∈ toyTie.top toyMarks := by decide
  have htie : Contested (toyTie.top toyMarks) :=
    ⟨⟨_, hbad, _, hgood, by decide⟩, ⟨_, hbad, by decide⟩, _, hgood, by decide⟩
  have hmixed : ¬ Contested (toyTie.top mixedMarks) := by
    rintro ⟨⟨m, hm, m', hm', hne⟩, -⟩
    have hname : ∀ m ∈ (toyTie.top mixedMarks).toList, m.constraint = "NoB" := by decide
    exact hne ((hname m hm).trans (hname m' hm').symm)
  obtain ⟨n, hn, hfails⟩ := ((decision (H := Rat) toyTie toyMarks).2.1 (by decide)).1 htie
  obtain rfl : 2 = n := Option.some.inj hn
  have hnames : (givers (toyTie.top toyMarks)).toList = ["NoB", "PreferB"] := by cbv
  obtain ⟨hpenalty, -, hdecisive, -⟩ :=
    ((decision (H := Rat) toyTie mixedMarks).2.1 (by decide)).2.1 hmixed
  refine ⟨hnames ▸ hfails, (decision toyTie _).1 ⟨"NoC", -1, .root⟩ (by decide), hpenalty ?_,
    hdecisive "NoB" (by cbv)⟩
  exact ⟨⟨"NoB", -1, .root⟩, by decide, by decide⟩

end Violable.Ranks
