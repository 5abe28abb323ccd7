import Mathlib
import Violable.Proofs.Configured
import Violable.Proofs.Dominance
import Violable.Proofs.Domination
import Violable.Proofs.Totals

/-!
# Promoting a constraint

In a list of names without repeats the first one that gave a mark on a subnode decides it
(`violated_ofDominanceOrder`). If a name is moved to an earlier place, then either it decides now,
or the same name decides as before (`leader?_of_promotes`). So a constraint that only gives
violations can only make more subnodes ill-formed when it is promoted, and one that gives none can
only make fewer of them so. Elements and totals follow their subnodes (`compare_of_violated`).
-/

namespace Violable

/-- The second list has `c` at an earlier place, and is otherwise the first one. -/
def Promotes (c : String) (l l' : List String) : Prop :=
  ∃ front passed back, l = front ++ passed ++ c :: back ∧ l' = front ++ c :: (passed ++ back)

theorem Promotes.perm {c : String} {l l' : List String} (h : Promotes c l l') : l'.Perm l := by
  obtain ⟨front, passed, back, rfl, rfl⟩ := h
  rw [List.append_assoc]
  exact List.perm_middle.symm.append_left front

namespace Ranks

variable {l l' before after : List String} {a b c : String} {marks : SortedSet Mark}

theorem dominates_iff_mem_before (h : (before ++ a :: after).Nodup) :
    (ofDominanceOrder (before ++ a :: after)).dominates b a = .ok true ↔ b ∈ before := by
  have hbefore : ∀ c ∈ before, [c, a].Sublist (before ++ a :: after) := fun c hc =>
    (List.singleton_sublist.2 hc).append (List.singleton_sublist.2 List.mem_cons_self)
  have hafter : ∀ c ∈ after, [a, c].Sublist (before ++ a :: after) := fun c hc =>
    (List.cons_sublist_cons.2 (List.singleton_sublist.2 hc)).trans (List.sublist_append_right _ _)
  refine ⟨fun hdom => ?_, fun hb => (dominates_ofDominanceOrder_iff h).2 (hbefore b hb)⟩
  have hba := precedes_of_dominates hdom
  obtain ⟨_, _, hrank, -⟩ := dominates_eq_true.1 hdom
  rcases List.mem_append.1 (rank_ofDominanceOrder hrank).1 with hb | hb
  · exact hb
  rcases List.mem_cons.1 hb with rfl | hb
  · exact absurd rfl hba.ne
  · have hab := (dominates_ofDominanceOrder_iff h).2 (hafter b hb)
    exact absurd (precedes_of_dominates hab) hba.asymm

/-- The first of the names that gave a mark. -/
def leader? (l : List String) (marks : SortedSet Mark) : Option String :=
  l.find? (· ∈ givers marks)

theorem leader?_eq_some_iff (hl : l.Nodup) : leader? l marks = some a ↔
    a ∈ l ∧ a ∈ givers marks ∧
      ∀ b ∈ givers marks, (ofDominanceOrder l).dominates b a ≠ .ok true := by
  rw [leader?, List.find?_eq_some_iff_append, decide_eq_true_iff]
  constructor
  · rintro ⟨ha, before, after, rfl, hnone⟩
    refine ⟨by simp, ha, fun b hb hdom => ?_⟩
    have hb' := hnone b ((dominates_iff_mem_before hl).1 hdom)
    simp [hb] at hb'
  · rintro ⟨hmem, ha, hnone⟩
    obtain ⟨before, after, rfl⟩ := List.append_of_mem hmem
    refine ⟨ha, before, after, rfl, fun b hb => ?_⟩
    have hdom := (dominates_iff_mem_before hl).2 hb
    simpa using fun hgiver => hnone b hgiver hdom

theorem mem_leading_iff (hl : l.Nodup) (hm : ∀ m ∈ marks, m.constraint ∈ l) {m : Mark} :
    m ∈ (ofDominanceOrder l).leading marks.toList ↔
      m ∈ marks ∧ leader? l marks = some m.constraint := by
  rw [leading, List.mem_filter, Bool.not_eq_true', List.any_eq_false, ← SortedSet.mem_def]
  refine and_congr_right fun hmem => ?_
  rw [leader?_eq_some_iff hl]
  constructor
  · refine fun hnone => ⟨hm m hmem, constraint_mem_givers m hmem, fun b hb => ?_⟩
    obtain ⟨m', hm', rfl⟩ := mem_givers.1 hb
    simpa using hnone m' hm'
  · rintro ⟨-, -, hnone⟩ m' hm'
    simpa using hnone _ (constraint_mem_givers m' hm')

/-- The first name that gave a mark decides. -/
theorem violated_ofDominanceOrder (hl : l.Nodup) (hm : ∀ m ∈ marks, m.constraint ∈ l) :
    (ofDominanceOrder l).violated marks = (leader? l marks).any (gave marks true) := by
  rw [Bool.eq_iff_iff, violated, List.any_eq_true, Option.any_eq_true]
  simp only [mem_leading_iff hl hm, gave, List.any_eq_true, Bool.and_eq_true, decide_eq_true_iff,
    beq_iff_eq]
  constructor
  · rintro ⟨m, ⟨hmem, hlead⟩, hbad⟩
    exact ⟨_, hlead, m, hmem, rfl, hbad⟩
  · rintro ⟨_, hlead, m, hmem, rfl, hbad⟩
    exact ⟨m, ⟨hmem, hlead⟩, hbad⟩

theorem leader?_of_promotes (h : Promotes c l l') (marks : SortedSet Mark) :
    leader? l' marks = leader? l marks ∨ leader? l' marks = some c ∧ c ∈ givers marks := by
  obtain ⟨front, passed, back, rfl, rfl⟩ := h
  simp only [leader?, List.find?_append, List.find?_cons]
  by_cases hc : c ∈ givers marks
  -- a name that did not give a mark can be moved about, one that did takes over from what it passed
  · rcases front.find? (· ∈ givers marks) with _ | a
    · exact .inr ⟨by simp [hc], hc⟩
    · exact .inl rfl
  · exact .inl (by simp [hc, Option.or_assoc])

section Promoted

variable (h : Promotes c l l') (hl : l.Nodup) (hm : ∀ m ∈ marks, m.constraint ∈ l)

include h hl hm

/-- A subnode is decided as it was before, or else by the promoted constraint. -/
theorem violated_of_promotes :
    (ofDominanceOrder l').violated marks = (ofDominanceOrder l).violated marks ∨
      (ofDominanceOrder l').violated marks = gave marks true c ∧ c ∈ givers marks := by
  have hm' : ∀ m ∈ marks, m.constraint ∈ l' := fun m hmem => h.perm.mem_iff.2 (hm m hmem)
  rw [violated_ofDominanceOrder hl hm, violated_ofDominanceOrder (h.perm.nodup_iff.2 hl) hm']
  rcases leader?_of_promotes h marks with hsame | ⟨hlead, hc⟩
  · exact .inl (by rw [hsame])
  · exact .inr ⟨by rw [hlead, Option.any_some], hc⟩

theorem violated_mono_of_promotes (hc : ∀ m ∈ marks, m.constraint = c → m.isViolation = true)
    (hbad : (ofDominanceOrder l).violated marks) : (ofDominanceOrder l').violated marks := by
  rcases violated_of_promotes h hl hm with hsame | ⟨hgave, hgiver⟩
  · rwa [hsame]
  · obtain ⟨m, hmem, rfl⟩ := mem_givers.1 hgiver
    rw [hgave, gave, List.any_eq_true]
    exact ⟨m, hmem, by simp [hc m hmem rfl]⟩

theorem violated_anti_of_promotes (hc : ∀ m ∈ marks, m.constraint = c → m.isViolation = false)
    (hbad : (ofDominanceOrder l').violated marks) : (ofDominanceOrder l).violated marks := by
  rcases violated_of_promotes h hl hm with hsame | ⟨hgave, -⟩
  · rwa [← hsame]
  · rw [hgave, gave, List.any_eq_true] at hbad
    obtain ⟨m, hmem, hm⟩ := hbad
    simp only [Bool.and_eq_true, decide_eq_true_iff, beq_iff_eq] at hm
    cases hm.2.symm.trans (hc m hmem hm.1)

end Promoted

end Ranks

variable {ε : Type}

namespace Markup

/-- A constraint gave no mark that is a violation. -/
def NeverViolates (m : Markup ε) (c : String) : Prop :=
  ∀ d ∈ m.entries, ∀ x ∈ d.allMarks, x.constraint = c → x.isViolation = false

instance (m : Markup ε) (c : String) : Decidable (m.NeverViolates c) :=
  inferInstanceAs (Decidable
    (∀ d ∈ m.entries, ∀ x ∈ d.allMarks, x.constraint = c → x.isViolation = false))

end Markup

section Compared

variable {r r' : Ranks} {m : Markup ε} {x x' : Result ε Rat}

theorem Ranks.illFormed_eq (h : Result.ofMarkup (.ranked r) m = .ok x) :
    x.illFormed = (m.entries.filter fun d => d.marks.values.any r.violated).map (·.element) := by
  rw [Result.illFormed_ofMarkup h]
  refine congrArg (List.map Marked.element) (List.filter_congr fun d hd => ?_)
  rw [Semantics.not_clears_eq_penalizes Harmony.graded_rat (Result.exists_ofMarkup.1 ⟨x, h⟩ d hd),
    Bool.eq_iff_iff, Semantics.penalizes_iff, List.any_eq_true]
  refine exists_congr fun ms => and_congr_right fun hms => ?_
  obtain ⟨y, hy⟩ := Result.exists_subnodeHarmony h d hd ms hms
  have hout : y = outcome (r.violated ms) := Ranks.harmony_eq_ok hy
  have hneg : (outcome (r.violated ms) : Rat) < 0 ↔ r.violated ms = true := by
    cases r.violated ms <;> decide
  simp [hy, hout, hneg]

/-- Where no fewer subnodes are decided by violations, no fewer elements are ill-formed. -/
theorem Ranks.compare_of_violated (h : Result.ofMarkup (.ranked r) m = .ok x)
    (h' : Result.ofMarkup (.ranked r') m = .ok x')
    (hle : ∀ d ∈ m.entries, ∀ ms ∈ d.marks.values, r.violated ms → r'.violated ms) :
    x.illFormed.Sublist x'.illFormed ∧ x'.total ≤ x.total := by
  constructor
  · rw [illFormed_eq h, illFormed_eq h']
    have hmore : (m.entries.filter fun d => d.marks.values.any r.violated) =
        (m.entries.filter fun d => d.marks.values.any r'.violated).filter
          fun d => d.marks.values.any r.violated := by
      rw [List.filter_filter]
      refine List.filter_congr fun d hd => ?_
      have himp : d.marks.values.any r.violated → d.marks.values.any r'.violated := by
        simp only [List.any_eq_true]
        exact fun ⟨ms, hms, hbad⟩ => ⟨ms, hms, hle d hd ms hms hbad⟩
      grind
    rw [hmore]
    exact List.filter_sublist.map _
  · rw [total_eq h, total_eq h', neg_le_neg_iff, Nat.cast_le]
    exact List.sum_le_sum fun d hd => List.countP_mono_left (hle d hd)

end Compared

/-- Distinct ranks that cover all names leave nothing undecided. -/
theorem Ranks.exists_ofMarkup {l : List String} {m : Markup ε} (hl : l.Nodup)
    (hm : ∀ a ∈ m.constraintNames, a ∈ l) :
    ∃ x : Result ε Rat, Result.ofMarkup (.ranked (.ofDominanceOrder l)) m = .ok x := by
  refine Result.exists_ofMarkup.2 fun d hd => Semantics.exists_elementHarmony.2 fun ms hms => ?_
  have hcovers : (ofDominanceOrder l).Covers ms.toList := covers_of_contains fun y hy => by
    rw [contains_ofDominanceOrder hl, List.contains_iff_mem]
    exact hm _ (Markup.constraint_mem_constraintNames hd (Marked.mem_allMarks.2 ⟨ms, hms, hy⟩))
  rcases hx : (Semantics.ranked (ofDominanceOrder l)).subnodeHarmony ms with e | x
  · obtain ⟨n, tied, -, htied, -⟩ := tied_of_harmony hcovers hx
    exact absurd htied (not_tied_ofDominanceOrder hl n tied)
  · exact ⟨x, rfl⟩

/-- If a constraint that only gives violations is promoted, what was ill-formed stays so and the
total does not rise. If one that gives no violations is promoted, nothing more becomes ill-formed
and the total does not fall. -/
theorem illFormed_of_promoted {c : String} {l l' : List String} {m : Markup ε} (hnodup : l.Nodup)
    (hsize : l.length < UInt32.size) (hmove : Promotes c l l')
    (hnames : ∀ a ∈ m.constraintNames, a ∈ l) :
    (∀ a n, (Ranks.ofDominanceOrder l).get? a = some n ∨
        (Ranks.ofDominanceOrder l').get? a = some n → n < UInt32.size) ∧
      ∃ r r' : Result ε Rat, Result.ofMarkup (.ranked (.ofDominanceOrder l)) m = .ok r ∧
        Result.ofMarkup (.ranked (.ofDominanceOrder l')) m = .ok r' ∧
        (m.OnlyViolates c → r.illFormed.Sublist r'.illFormed ∧ r'.total ≤ r.total) ∧
        (m.NeverViolates c → r'.illFormed.Sublist r.illFormed ∧ r.total ≤ r'.total) := by
  have hnodup' : l'.Nodup := hmove.perm.nodup_iff.2 hnodup
  refine ⟨fun a n hn => ?_, ?_⟩
  · rcases hn with hn | hn
    · exact (Ranks.rank_ofDominanceOrder hn).2.trans_lt hsize
    · exact (Ranks.rank_ofDominanceOrder hn).2.trans_lt (hmove.perm.length_eq ▸ hsize)
  obtain ⟨r, hr⟩ := Ranks.exists_ofMarkup hnodup hnames
  obtain ⟨r', hr'⟩ :=
    Ranks.exists_ofMarkup hnodup' fun a ha => hmove.perm.mem_iff.2 (hnames a ha)
  have hmarks : ∀ d ∈ m.entries, ∀ ms ∈ d.marks.values, ∀ x ∈ ms, x.constraint ∈ l :=
    fun d hd ms hms x hx =>
      hnames _ (Markup.constraint_mem_constraintNames hd (Marked.mem_allMarks.2 ⟨ms, hms, hx⟩))
  refine ⟨r, r', hr, hr', fun hc => ?_, fun hc => ?_⟩
  · refine Ranks.compare_of_violated hr hr' fun d hd ms hms => ?_
    exact Ranks.violated_mono_of_promotes hmove hnodup (hmarks d hd ms hms)
      fun x hx => hc d hd x (Marked.mem_allMarks.2 ⟨ms, hms, hx⟩)
  · refine Ranks.compare_of_violated hr' hr fun d hd ms hms => ?_
    exact Ranks.violated_anti_of_promotes hmove hnodup (hmarks d hd ms hms)
      fun x hx => hc d hd x (Marked.mem_allMarks.2 ⟨ms, hms, hx⟩)

/-- The constraint against `b` only gives violations, so more is ill-formed when it comes first. -/
theorem illFormed_of_promoted_toy :
    let l := ["NoB", "PreferB", "NoBB"]
    (Result.ofMarkup (H := Rat) (.ranked (.ofDominanceOrder l)) toyMarkup).map (·.illFormed) =
      .ok ["b", "bb"] ∧
    ∃ r r' : Result String Rat,
      Result.ofMarkup (.ranked (.ofDominanceOrder toyOrder)) toyMarkup = .ok r ∧
      Result.ofMarkup (.ranked (.ofDominanceOrder l)) toyMarkup = .ok r' ∧
      r.illFormed.Sublist r'.illFormed ∧ r'.total ≤ r.total := by
  intro l
  have hmove : Promotes "NoB" toyOrder l := ⟨[], ["PreferB"], ["NoBB"], rfl, rfl⟩
  have hgivers : ∀ a ∈ (toyMarkup.entries.flatMap (·.allMarks)).map (·.constraint),
      a ∈ toyOrder := by
    decide +kernel
  have hnames : ∀ a ∈ toyMarkup.constraintNames, a ∈ toyOrder :=
    fun a ha => hgivers a (SortedSet.mem_ofList.1 ha)
  have hc : toyMarkup.OnlyViolates "NoB" := by
    decide +kernel
  obtain ⟨-, r, r', hr, hr', hmore, -⟩ :=
    illFormed_of_promoted (by decide) (by decide) hmove hnames
  exact ⟨by decide +kernel, r, r', hr, hr', hmore hc⟩

end Violable
