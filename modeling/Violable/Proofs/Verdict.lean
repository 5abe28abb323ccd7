import Mathlib
import Violable.Proofs.Scores
import Violable.Proofs.TopRank

/-!
# The verdict of the leading marks

The marks of the highest rank lead the others (`leading`). Whatever harmony there is comes of them
alone: it is a penalty exactly if there is a violation among them (`harmony_eq_ok`), also where one
constraint gave marks of both signs, since a set lists the violations of a constraint first. If all
marks are ranked, there is no harmony only where at least two constraints lead with the same rank
(`tied_of_harmony`).
-/

namespace Violable

theorem Mark.value_le_of_lt {a b : Mark} (h : compare a b = .lt)
    (hc : a.constraint = b.constraint) : a.value ≤ b.value := by
  have h : (compare a.constraint b.constraint).then
      ((compare a.value b.value).then (compare a.subnode b.subnode)) = .lt := h
  rw [hc, Std.compare_self, Ordering.eq_then, Ordering.then_eq_lt] at h
  rcases h with h | ⟨h, -⟩
  · exact (compare_lt_iff_lt.1 h).le
  · exact (compare_eq_iff.1 h).le

namespace Ranks

variable {r : Ranks}

/-- The marks whose constraints are not dominated by the constraint of any of the marks. -/
def leading (r : Ranks) (marks : List Mark) : List Mark :=
  marks.filter fun m => ! marks.any fun m' => r.dominates m'.constraint m.constraint = .ok true

/-- There is a violation among the leading marks. -/
def violated (r : Ranks) (marks : SortedSet Mark) : Bool :=
  (r.leading marks.toList).any (·.isViolation)

theorem IsTop.leading_eq {met : List Mark} {n : Nat} {group : List Mark}
    (h : r.IsTop met (some (n, group))) : r.leading met = group := by
  rw [leading, h.1]
  refine List.filter_congr fun m hm => ?_
  rw [Bool.eq_iff_iff, Bool.not_eq_true', decide_eq_true_iff, List.any_eq_false]
  constructor
  · intro hnone
    obtain ⟨k, hk, hrank⟩ := h.2.2 m hm
    obtain ⟨lead, hlead⟩ := List.exists_mem_of_ne_nil group h.2.1
    obtain ⟨hmet, hn⟩ := h.mem.1 hlead
    rcases Nat.lt_or_eq_of_le hk with hlt | rfl
    · have hdom := dominates_eq_true.2 ⟨n, k, hn, hrank, hlt⟩
      exact absurd (decide_eq_true hdom) (hnone lead hmet)
    · exact hrank
  · intro hrank m' hm'
    rw [decide_eq_true_iff]
    exact h.not_dominates hm' (h.mem.2 ⟨hm, hrank⟩)

theorem covers_of_topMarks {marks : List Mark} {top top' : Option (Nat × List Mark)}
    (h : r.topMarks top marks = .ok top') : r.Covers marks := by
  induction marks generalizing top with
  | nil => exact fun m hm => absurd hm List.not_mem_nil
  | cons m marks ih =>
    unfold topMarks at h
    rcases hn : r.rank m.constraint with e | n <;> rw [hn] at h
    · cases h
    refine List.forall_mem_cons.2 ⟨⟨n, rank_eq_ok.1 hn⟩, ?_⟩
    rcases top with _ | ⟨best, group⟩
    · exact ih h
    · simp only [] at h
      split_ifs at h <;> exact ih h

/-- Several constraints share a rank. -/
def Tied (r : Ranks) (n : Nat) (names : List String) : Prop :=
  (∃ a ∈ names, ∃ b ∈ names, a ≠ b) ∧ ∀ a ∈ names, r.get? a = some n

section Verdict

variable {n : Nat} {first : Mark} {group : List Mark}

theorem verdict_eq_ok {v : Verdict} (h : verdict n first group = .ok v) : v.mark = first ∧
    v.alone = decide ((SortedSet.ofList (group.map (·.constraint))).toList.length = 1) ∧
    ((∀ m ∈ group, ∀ m' ∈ group, m.constraint = m'.constraint) ∨
      ∀ m ∈ group, m.isViolation = first.isViolation) := by
  unfold verdict at h
  simp only [] at h
  split_ifs at h with hone hany
  · obtain rfl := Except.ok.inj h
    refine ⟨rfl, (decide_eq_true hone).symm, .inl fun m hm m' hm' => ?_⟩
    exact constraint_eq_of_alone hone hm hm'
  · obtain rfl := Except.ok.inj h
    refine ⟨rfl, (decide_eq_false hone).symm, .inr fun m hm => ?_⟩
    simpa using fun hne => hany (List.any_eq_true.2 ⟨m, hm, hne⟩)

theorem verdict_eq_error {e : ScoringError} (hfirst : first ∈ group)
    (h : verdict n first group = .error e) : ∃ tied, e = .rankTie n tied ∧
      (∃ a ∈ tied, ∃ b ∈ tied, a ≠ b) ∧ ∀ a ∈ tied, ∃ m ∈ group, m.constraint = a := by
  unfold verdict at h
  simp only [] at h
  split_ifs at h with hone hany
  obtain rfl := Except.error.inj h
  have hmem : ∀ a, a ∈ (SortedSet.ofList (group.map (·.constraint))).toList ↔
      ∃ m ∈ group, m.constraint = a := by
    intro a
    rw [← SortedSet.mem_def, SortedSet.mem_ofList, List.mem_map]
  have hnodup := (SortedSet.ofList (group.map (·.constraint))).nodup
  refine ⟨_, rfl, ?_, fun a ha => (hmem a).1 ha⟩
  have hlead := (hmem first.constraint).2 ⟨first, hfirst, rfl⟩
  rcases hnames : (SortedSet.ofList (group.map (·.constraint))).toList with _ | ⟨a, _ | ⟨b, l⟩⟩ <;>
    rw [hnames] at hone hlead hnodup ⊢
  · cases hlead
  · exact absurd rfl hone
  · exact ⟨a, by simp, b, by simp, fun hab => (List.nodup_cons.1 hnodup).1 (hab ▸ by simp)⟩

/-- The first of several marks speaks for all of them, if they are of one constraint and in order,
or if they agree. -/
theorem any_isViolation_eq (hsorted : (first :: group).Pairwise (compare · · = .lt))
    (h : (∀ m ∈ first :: group, ∀ m' ∈ first :: group, m.constraint = m'.constraint) ∨
      ∀ m ∈ first :: group, m.isViolation = first.isViolation) :
    (first :: group).any (·.isViolation) = first.isViolation := by
  rw [Bool.eq_iff_iff, List.any_eq_true]
  refine ⟨fun ⟨m, hm, hviolation⟩ => ?_, fun hfirst => ⟨first, List.mem_cons_self, hfirst⟩⟩
  rcases h with hone | hagree
  · rcases List.mem_cons.1 hm with rfl | hgroup
    · exact hviolation
    · have hle := Mark.value_le_of_lt ((List.pairwise_cons.1 hsorted).1 m hgroup)
        (hone first List.mem_cons_self m hm)
      simp only [Mark.isViolation, decide_eq_true_iff] at hviolation ⊢
      omega
  · rw [← hagree m hm, hviolation]

end Verdict

variable {marks : SortedSet Mark}

theorem covers_of_decide? {v : Option Verdict} (h : r.decide? marks = .ok v) :
    r.Covers marks.toList := by
  unfold decide? at h
  rcases htop : r.topMarks none marks.toList with e | top <;> rw [htop] at h
  · cases h
  · exact covers_of_topMarks htop

/-- The mark that decides is a violation exactly if there is one among the leading marks. -/
theorem decide?_eq_ok {v : Option Verdict} (h : r.decide? marks = .ok v) :
    v.any (·.mark.isViolation) = r.violated marks := by
  rcases decide?_cases (covers_of_decide? h) with ⟨hnil, hnone⟩ | ⟨n, first, group, ht, hverdict⟩
  · obtain rfl := Except.ok.inj (hnone.symm.trans h)
    rw [violated, hnil]
    rfl
  · obtain ⟨w, hw, rfl⟩ := map_eq_ok.1 (hverdict.symm.trans h)
    obtain ⟨hmark, -, hspeaks⟩ := verdict_eq_ok hw
    have hsorted : (first :: group).Pairwise (compare · · = .lt) := ht.1 ▸ marks.increasing.filter _
    rw [violated, ht.leading_eq, any_isViolation_eq hsorted hspeaks, Option.any_some, hmark]

variable {H : Type} [Scale H]

/-- A harmony that is found is that of the leading marks. -/
theorem harmony_eq_ok {x : H} (h : r.harmony marks = .ok x) : x = outcome (r.violated marks) := by
  obtain ⟨v, hv, rfl⟩ := map_eq_ok.1 h
  rw [← decide?_eq_ok hv]
  rfl

/-- Among ranked marks, what has no harmony is a tie of constraints that gave some of them. -/
theorem tied_of_harmony (hc : r.Covers marks.toList) {e : ScoringError}
    (h : (r.harmony marks : Except ScoringError H) = .error e) : ∃ n tied, e = .rankTie n tied ∧
      r.Tied n tied ∧ ∀ a ∈ tied, ∃ m ∈ marks, m.constraint = a := by
  have h : r.decide? marks = .error e := map_eq_error.1 h
  rcases decide?_cases hc with ⟨-, hnone⟩ | ⟨n, first, group, ht, hverdict⟩
  · cases hnone.symm.trans h
  · obtain ⟨tied, rfl, htwo, hgave⟩ :=
      verdict_eq_error List.mem_cons_self (map_eq_error.1 (hverdict.symm.trans h))
    refine ⟨n, tied, rfl, ⟨htwo, fun a ha => ?_⟩, fun a ha => ?_⟩
    · obtain ⟨m, hm, rfl⟩ := hgave a ha
      exact (ht.mem.1 hm).2
    · obtain ⟨m, hm, rfl⟩ := hgave a ha
      exact ⟨m, (ht.mem.1 hm).1, rfl⟩

end Ranks

end Violable
