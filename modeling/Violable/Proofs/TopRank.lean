import Mathlib.Tactic.Push
import Mathlib.Tactic.SplitIfs
import Violable.Scoring.Semantics

/-!
# The marks of the highest rank

Walking through ranked marks, `topMarks` holds the highest rank so far with all the marks of it
(`IsTop`), whatever the order of the marks. So the verdict on a subnode is of the marks of the
highest rank present: if these agree they decide, and if they do not, the tie is reported
(`harmony_cases`).
-/

namespace Violable.Ranks

variable {r : Ranks}

/-- All the marks are of constraints that have a rank. -/
def Covers (r : Ranks) (marks : List Mark) : Prop :=
  ∀ m ∈ marks, ∃ n, r.get? m.constraint = some n

/-- The marks that were met are led by those of one rank, which are held in their order. -/
def IsTop (r : Ranks) (met : List Mark) : Option (Nat × List Mark) → Prop
  | none => met = []
  | some (n, group) =>
    group = met.filter (r.get? ·.constraint = some n) ∧ group ≠ [] ∧
      ∀ m ∈ met, ∃ k ≤ n, r.get? m.constraint = some k

theorem rank_eq_ok {name : String} {n : Nat} : r.rank name = .ok n ↔ r.get? name = some n := by
  rw [rank]
  cases r.get? name <;> simp

theorem dominates_eq_true {a b : String} :
    r.dominates a b = .ok true ↔ ∃ m n, r.get? a = some m ∧ r.get? b = some n ∧ n < m := by
  rw [dominates, rank, rank]
  cases r.get? a <;> cases r.get? b <;> simp [bind, Except.bind, pure, Except.pure]

section Step

variable {met : List Mark} {m : Mark} {k : Nat} (hm : r.get? m.constraint = some k)

include hm

theorem isTop_singleton : r.IsTop [m] (some (k, [m])) := by
  refine ⟨by simp [hm], by simp, fun m' hm' => ?_⟩
  obtain rfl := List.mem_singleton.1 hm'
  exact ⟨k, Nat.le_refl k, hm⟩

/-- A mark of a lower rank changes nothing, one of the same rank joins the group, and one of a
higher rank takes its place. -/
theorem isTop_snoc {n : Nat} {group : List Mark} (h : r.IsTop met (some (n, group))) :
    r.IsTop (met ++ [m]) (if k < n then some (n, group) else
      if k = n then some (n, group ++ [m]) else some (k, [m])) := by
  obtain ⟨hgroup, hne, hle⟩ := h
  split_ifs with hlt heq
  · refine ⟨?_, hne, fun m' hm' => ?_⟩
    · have hkn : k ≠ n := by omega
      simp [hgroup, hm, hkn]
    · rcases List.mem_append.1 hm' with hm' | hm'
      · exact hle m' hm'
      · obtain rfl := List.mem_singleton.1 hm'
        exact ⟨k, by omega, hm⟩
  · subst heq
    refine ⟨by simp [hgroup, hm], by simp, fun m' hm' => ?_⟩
    rcases List.mem_append.1 hm' with hm' | hm'
    · exact hle m' hm'
    · obtain rfl := List.mem_singleton.1 hm'
      exact ⟨k, Nat.le_refl k, hm⟩
  · have hnone : met.filter (r.get? ·.constraint = some k) = [] := by
      rw [List.filter_eq_nil_iff]
      intro m' hm'
      obtain ⟨j, hj, hrank⟩ := hle m' hm'
      simp [hrank]
      omega
    refine ⟨?_, by simp, fun m' hm' => ?_⟩
    · rw [List.filter_append, hnone]
      simp [hm]
    · rcases List.mem_append.1 hm' with hm' | hm'
      · obtain ⟨j, hj, hrank⟩ := hle m' hm'
        exact ⟨j, by omega, hrank⟩
      · obtain rfl := List.mem_singleton.1 hm'
        exact ⟨k, Nat.le_refl k, hm⟩

end Step

theorem exists_topMarks {marks met : List Mark} (hc : r.Covers marks)
    {top : Option (Nat × List Mark)} (h : r.IsTop met top) :
    ∃ top', r.topMarks top marks = .ok top' ∧ r.IsTop (met ++ marks) top' := by
  induction marks generalizing met top with
  | nil => exact ⟨top, rfl, by rwa [List.append_nil]⟩
  | cons m marks ih =>
    obtain ⟨⟨k, hk⟩, hc⟩ := List.forall_mem_cons.1 hc
    have happ : met ++ m :: marks = (met ++ [m]) ++ marks := by simp
    rw [happ, topMarks, rank_eq_ok.2 hk]
    rcases top with _ | ⟨n, group⟩
    · obtain rfl : met = [] := h
      exact ih hc (isTop_singleton hk)
    · have hs := isTop_snoc hk h
      simp only []
      split_ifs at hs ⊢
      · exact ih hc hs
      · exact ih hc hs
      · exact ih hc hs

section Top

variable {met : List Mark} {n : Nat} {group : List Mark} (h : r.IsTop met (some (n, group)))

include h

theorem IsTop.mem {m : Mark} : m ∈ group ↔ m ∈ met ∧ r.get? m.constraint = some n := by
  rw [h.1, List.mem_filter, decide_eq_true_eq]

theorem IsTop.not_dominates {m m' : Mark} (hm : m ∈ met) (hm' : m' ∈ group) :
    r.dominates m.constraint m'.constraint ≠ .ok true := by
  intro hdom
  obtain ⟨i, j, hi, hj, hji⟩ := dominates_eq_true.1 hdom
  obtain ⟨k, hk, hrank⟩ := h.2.2 m hm
  obtain rfl : i = k := Option.some.inj (hi.symm.trans hrank)
  obtain rfl : j = n := Option.some.inj (hj.symm.trans (h.mem.1 hm').2)
  omega

end Top

/-- Of the marks of each constraint all are violations or none is. -/
def SameSign (marks : List Mark) : Prop :=
  ∀ m ∈ marks, ∀ m' ∈ marks, m.constraint = m'.constraint → m.isViolation = m'.isViolation

instance (marks : List Mark) : Decidable (SameSign marks) :=
  inferInstanceAs (Decidable (∀ m ∈ marks, ∀ m' ∈ marks,
    m.constraint = m'.constraint → m.isViolation = m'.isViolation))

theorem SameSign.mono {marks group : List Mark} (h : SameSign marks)
    (hsub : ∀ m ∈ group, m ∈ marks) : SameSign group :=
  fun m hm m' hm' => h m (hsub m hm) m' (hsub m' hm')

section Verdict

variable {n : Nat} {first : Mark} {group : List Mark}

theorem verdict_of_agree (h : ∀ m ∈ group, m.isViolation = first.isViolation) :
    ∃ alone, verdict n first group = .ok ⟨first, alone⟩ := by
  unfold verdict
  simp only []
  split_ifs with hone hany
  · exact ⟨true, rfl⟩
  · obtain ⟨m, hm, hne⟩ := List.any_eq_true.1 hany
    exact absurd (h m hm) (by simpa using hne)
  · exact ⟨false, rfl⟩

theorem constraint_eq_of_alone
    (h : (SortedSet.ofList (group.map (·.constraint))).toList.length = 1) {m m' : Mark}
    (hm : m ∈ group) (hm' : m' ∈ group) : m.constraint = m'.constraint := by
  obtain ⟨c, hc⟩ := List.length_eq_one_iff.1 h
  have hname : ∀ m ∈ group, m.constraint = c := by
    intro m hm
    have hmem : m.constraint ∈ SortedSet.ofList (group.map (·.constraint)) :=
      SortedSet.mem_ofList.2 (List.mem_map_of_mem hm)
    rwa [SortedSet.mem_def, hc, List.mem_singleton] at hmem
  exact (hname m hm).trans (hname m' hm').symm

/-- Marks of one constraint have one sign, so marks that disagree are of several. -/
theorem verdict_of_disagree (hs : SameSign group) (hfirst : first ∈ group) {m : Mark}
    (hm : m ∈ group) (hne : m.isViolation ≠ first.isViolation) :
    ∃ tied, verdict n first group = .error (.rankTie n tied) := by
  unfold verdict
  simp only []
  split_ifs with hone hany
  · exact absurd (hs m hm first hfirst (constraint_eq_of_alone hone hm hfirst)) hne
  · exact ⟨_, rfl⟩
  · exact absurd (List.any_eq_true.2 ⟨m, hm, by simpa using hne⟩) hany

end Verdict

section Harmony

variable {H : Type} [Scale H] {marks : SortedSet Mark}

/-- The harmony of an ill-formed subnode, or else of one that is well-formed. -/
def outcome (violated : Bool) : H := if violated then Harmony.penalty else 0

theorem decide?_cases (hc : r.Covers marks.toList) :
    marks.toList = [] ∧ r.decide? marks = .ok none ∨
      ∃ n first group, r.IsTop marks.toList (some (n, first :: group)) ∧
        r.decide? marks = (verdict n first (first :: group)).map some := by
  obtain ⟨top, htop, hinv⟩ := exists_topMarks hc (show r.IsTop [] none from rfl)
  rw [List.nil_append] at hinv
  rcases top with _ | ⟨n, _ | ⟨first, group⟩⟩
  · exact .inl ⟨hinv, by rw [decide?, htop]⟩
  · exact absurd rfl hinv.2.1
  · exact .inr ⟨n, first, group, hinv, by rw [decide?, htop]⟩

theorem harmony_cases (hc : r.Covers marks.toList) (hs : SameSign marks.toList) :
    marks.toList = [] ∧ r.harmony marks = .ok (outcome false : H) ∨
      ∃ n group, r.IsTop marks.toList (some (n, group)) ∧
        ((∃ b, (∀ m ∈ group, m.isViolation = b) ∧ r.harmony marks = .ok (outcome b : H)) ∨
          (∃ m ∈ group, ∃ m' ∈ group, m.isViolation ≠ m'.isViolation) ∧
            ∃ tied, r.harmony marks = (.error (.rankTie n tied) : Except ScoringError H)) := by
  rcases decide?_cases hc with ⟨hnil, hnone⟩ | ⟨n, first, group, htop, hverdict⟩
  · refine .inl ⟨hnil, ?_⟩
    simp [harmony, hnone, Except.map, outcome]
  refine .inr ⟨n, first :: group, htop, ?_⟩
  have hsub : ∀ m ∈ first :: group, m ∈ marks.toList := fun m hm => (htop.mem.1 hm).1
  by_cases hagree : ∀ m ∈ first :: group, m.isViolation = first.isViolation
  · obtain ⟨alone, hv⟩ := verdict_of_agree (n := n) hagree
    refine .inl ⟨first.isViolation, hagree, ?_⟩
    simp [harmony, hverdict, hv, Except.map, outcome]
  · push Not at hagree
    obtain ⟨m, hm, hne⟩ := hagree
    obtain ⟨tied, hv⟩ := verdict_of_disagree (n := n) (hs.mono hsub) List.mem_cons_self hm hne
    refine .inr ⟨⟨m, hm, first, List.mem_cons_self, hne⟩, tied, ?_⟩
    simp [harmony, hverdict, hv, Except.map]

theorem harmony_of_top (hc : r.Covers marks.toList) (hs : SameSign marks.toList)
    (hne : marks.toList ≠ []) {b : Bool}
    (h : ∀ n group, r.IsTop marks.toList (some (n, group)) → ∀ m ∈ group, m.isViolation = b) :
    r.harmony marks = .ok (outcome b : H) := by
  rcases harmony_cases (H := H) hc hs with ⟨hnil, -⟩ | ⟨n, group, htop, hcase⟩
  · exact absurd hnil hne
  have hb := h n group htop
  rcases hcase with ⟨b', hagree, hok⟩ | ⟨⟨m, hm, m', hm', hdiff⟩, -⟩
  · obtain ⟨lead, hlead⟩ := List.exists_mem_of_ne_nil group htop.2.1
    rw [hok, ← hagree lead hlead, hb lead hlead]
  · exact absurd ((hb m hm).trans (hb m' hm').symm) hdiff

/-- A reported tie has marks of both signs in the lead. -/
theorem exists_split_of_rankTie (hc : r.Covers marks.toList) (hs : SameSign marks.toList) {n : Nat}
    {tied : List String}
    (htie : r.harmony marks = (.error (.rankTie n tied) : Except ScoringError H)) :
    ∃ n group, r.IsTop marks.toList (some (n, group)) ∧
      ∀ b, ∃ lead ∈ group, lead.isViolation = b := by
  rcases harmony_cases (H := H) hc hs with ⟨-, hx⟩ | ⟨n, group, ht, hcase⟩
  · cases htie.symm.trans hx
  rcases hcase with ⟨b, -, hx⟩ | ⟨⟨m, hm, m', hm', hdiff⟩, -⟩
  · cases htie.symm.trans hx
  refine ⟨n, group, ht, fun b => ?_⟩
  by_cases hb : m.isViolation = b
  · exact ⟨m, hm, hb⟩
  · refine ⟨m', hm', ?_⟩
    revert hb hdiff
    cases m.isViolation <;> cases m'.isViolation <;> cases b <;> simp

end Harmony

end Violable.Ranks
