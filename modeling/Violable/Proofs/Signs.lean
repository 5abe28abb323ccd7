import Violable.Proofs.Explained
import Violable.Proofs.Verdict

/-!
# Signs and orders

Under ranks it counts which constraints gave marks on a subnode, which of the marks are violations,
and which constraint is above which. How far a mark is from zero does not count, nor which numbers
the ranks are. The verdict of the leading marks can be told from their signs alone
(`exists_seen_decide?`), and which marks lead can be told from the order alone
(`mem_signs_leading`). So markups that are alike in this have the same outcome (`outcome_of_alike`),
and of a tie only the number of the rank may differ.
-/

namespace Violable

/-- Both tries give the same, or both report a tie of the same constraints. -/
def SameOutcome {α : Type} (x y : Except ScoringError α) : Prop :=
  (∃ a, x = .ok a ∧ y = .ok a) ∨
    ∃ n n' names, x = .error (.rankTie n names) ∧ y = .error (.rankTie n' names)

namespace SameOutcome

variable {α β γ : Type}

theorem map {x y : Except ScoringError α} (h : SameOutcome x y) (f : α → β) :
    SameOutcome (x.map f) (y.map f) := by
  rcases h with ⟨a, rfl, rfl⟩ | ⟨n, n', names, rfl, rfl⟩
  · exact .inl ⟨f a, rfl, rfl⟩
  · exact .inr ⟨n, n', names, rfl, rfl⟩

/-- Of several tries the first that reports a tie is in the same place. -/
theorem mapM {f : α → Except ScoringError γ} {g : β → Except ScoringError γ} {l : List α}
    {l' : List β} (h : List.Forall₂ (fun a b => SameOutcome (f a) (g b)) l l') :
    SameOutcome (l.mapM f) (l'.mapM g) := by
  induction h with
  | nil => exact .inl ⟨[], rfl, rfl⟩
  | cons hab _ ih =>
    rw [List.mapM_cons, List.mapM_cons]
    rcases hab with ⟨c, hf, hg⟩ | ⟨n, n', names, hf, hg⟩ <;> rw [hf, hg]
    · rcases ih with ⟨cs, hl, hl'⟩ | ⟨n, n', names, hl, hl'⟩ <;> rw [hl, hl']
      · exact .inl ⟨c :: cs, rfl, rfl⟩
      · exact .inr ⟨n, n', names, rfl, rfl⟩
    · exact .inr ⟨n, n', names, rfl, rfl⟩

end SameOutcome

/-- The constraints that gave marks, each with whether its mark is a violation. -/
def signs (marks : List Mark) : List (String × Bool) :=
  marks.map fun m => (m.constraint, m.isViolation)

namespace Ranks

/-- Both tables rank the given names, and in the same order. -/
structure OrderedAlike (r r' : Ranks) (names : SortedSet String) : Prop where
  ranked : ∀ a ∈ names, ∃ n, r.get? a = some n
  ranked' : ∀ a ∈ names, ∃ n, r'.get? a = some n
  dominates_iff : ∀ a ∈ names, ∀ b ∈ names,
    r.dominates a b = .ok true ↔ r'.dominates a b = .ok true

/-- What is seen of a verdict: whether it is a violation, and which constraint decided alone. -/
def seen (v : Option Verdict) : Bool × Option String :=
  (v.any (·.mark.isViolation), (v.filter (·.alone)).map (·.mark.constraint))

/-- What is seen of the verdict of marks that share a rank, from their signs. -/
def tell (n : Nat) (signs : List (String × Bool)) : Except ScoringError (Bool × Option String) :=
  let names := (SortedSet.ofList (signs.map (·.1))).toList
  let violated := signs.any (·.2)
  if names.length = 1 then .ok (violated, names.head?)
  else if violated && signs.any (! ·.2) then .error (.rankTie n names)
  else .ok (violated, none)

theorem tell_congr {l l' : List (String × Bool)} (h : ∀ c, c ∈ l ↔ c ∈ l') (n n' : Nat) :
    SameOutcome (tell n l) (tell n' l') := by
  have hnames : SortedSet.ofList (l.map (·.1)) = SortedSet.ofList (l'.map (·.1)) := by
    ext a
    simp only [SortedSet.mem_ofList, List.mem_map, h]
  have hany : ∀ p : String × Bool → Bool, l.any p = l'.any p := by
    intro p
    rw [Bool.eq_iff_iff, List.any_eq_true, List.any_eq_true]
    simp only [h]
  unfold tell
  simp only [hnames, hany]
  split_ifs
  · exact .inl ⟨_, rfl, rfl⟩
  · exact .inr ⟨n, n', _, rfl, rfl⟩
  · exact .inl ⟨_, rfl, rfl⟩

section Leading

variable {r r' : Ranks} {marks marks' : SortedSet Mark}

theorem any_ne_eq {first : Mark} {group : List Mark} (hfirst : first ∈ group) :
    (group.any fun m => m.isViolation != first.isViolation) =
      (group.any (·.isViolation) && group.any (! ·.isViolation)) := by
  rw [Bool.eq_iff_iff]
  simp only [Bool.and_eq_true, List.any_eq_true, bne_iff_ne, Bool.not_eq_true']
  constructor
  · rintro ⟨m, hm, hne⟩
    cases hv : first.isViolation with
    | true => exact ⟨⟨first, hfirst, hv⟩, m, hm, by simpa [hv] using hne⟩
    | false => exact ⟨⟨m, hm, by simpa [hv] using hne⟩, first, hfirst, hv⟩
  · rintro ⟨⟨bad, hbad, hviolated⟩, good, hgood, hsatisfied⟩
    cases hv : first.isViolation with
    | true => exact ⟨good, hgood, by simp [hsatisfied]⟩
    | false => exact ⟨bad, hbad, by simp [hviolated]⟩

/-- The first of some marks of one rank, in order, speaks as their signs do. -/
theorem map_seen_verdict {n : Nat} {first : Mark} {group : List Mark}
    (hsorted : (first :: group).Pairwise (compare · · = .lt)) :
    ((verdict n first (first :: group)).map some).map seen = tell n (signs (first :: group)) := by
  have hnames : (signs (first :: group)).map (·.1) = (first :: group).map (·.constraint) := by
    rw [signs, List.map_map]
    rfl
  have hany : ∀ p : Bool → Bool,
      (signs (first :: group)).any (p ·.2) = (first :: group).any (p ·.isViolation) := by
    intro p
    rw [signs, List.any_map]
    rfl
  have hviolated := hany id
  have hsatisfied := hany not
  simp only [id] at hviolated
  have hfirst : first ∈ first :: group := List.mem_cons_self
  have hdisagree := any_ne_eq hfirst
  unfold verdict tell
  simp only [hnames, hviolated, hsatisfied, hdisagree]
  split_ifs with hone hboth
  · have hspeaks := any_isViolation_eq hsorted
      (.inl fun m hm m' hm' => constraint_eq_of_alone hone hm hm')
    obtain ⟨c, hc⟩ := List.length_eq_one_iff.1 hone
    have hname : first.constraint ∈ SortedSet.ofList ((first :: group).map (·.constraint)) :=
      SortedSet.mem_ofList.2 (List.mem_map_of_mem hfirst)
    rw [SortedSet.mem_def, hc, List.mem_singleton] at hname
    rw [hspeaks, hc, ← hname]
    rfl
  · rfl
  · rw [← hdisagree, List.any_eq_true] at hboth
    have hagree : ∀ m ∈ first :: group, m.isViolation = first.isViolation := by
      intro m hm
      by_contra hne
      exact hboth ⟨m, hm, by simpa using hne⟩
    rw [any_isViolation_eq hsorted (.inr hagree)]
    rfl

/-- Marks lead whose constraints are below none of the others. -/
theorem mem_signs_leading {l : List Mark} {c : String × Bool} : c ∈ signs (r.leading l) ↔
    c ∈ signs l ∧ ∀ c' ∈ signs l, r.dominates c'.1 c.1 ≠ .ok true := by
  have hlead : ∀ m : Mark, (! l.any fun m' => r.dominates m'.constraint m.constraint = .ok true) =
      true ↔ ∀ c' ∈ signs l, r.dominates c'.1 m.constraint ≠ .ok true := by
    intro m
    rw [Bool.not_eq_true', List.any_eq_false, signs, List.forall_mem_map]
    simp only [decide_eq_true_iff, ne_eq]
  constructor
  · intro h
    obtain ⟨m, hm, rfl⟩ := List.mem_map.1 h
    obtain ⟨hm, hnone⟩ := List.mem_filter.1 hm
    exact ⟨List.mem_map_of_mem hm, (hlead m).1 hnone⟩
  · rintro ⟨h, hnone⟩
    obtain ⟨m, hm, rfl⟩ := List.mem_map.1 h
    exact List.mem_map.2 ⟨m, List.mem_filter.2 ⟨hm, (hlead m).2 hnone⟩, rfl⟩

theorem exists_seen_decide? (hc : r.Covers marks.toList) :
    ∃ n, (r.decide? marks).map seen = tell n (signs (r.leading marks.toList)) := by
  rcases decide?_cases hc with ⟨hnil, hnone⟩ | ⟨n, first, group, ht, hverdict⟩
  · refine ⟨0, ?_⟩
    have hnames : (SortedSet.ofList ([] : List String)).toList = [] := by
      simp [SortedSet.ofList, SortedSet.collapse]
    rw [hnone, hnil]
    simp [tell, signs, leading, hnames, Except.map, seen]
  · refine ⟨n, ?_⟩
    rw [hverdict, ht.leading_eq, map_seen_verdict (ht.1 ▸ marks.increasing.filter _)]

/-- What is seen of the verdict on a subnode depends on the signs of its marks and on the order of
the constraints. -/
theorem sameOutcome_seen {names : SortedSet String} (hr : r.OrderedAlike r' names)
    (hsigns : ∀ c, c ∈ signs marks.toList ↔ c ∈ signs marks'.toList)
    (hnames : ∀ c ∈ signs marks.toList, c.1 ∈ names) :
    SameOutcome ((r.decide? marks).map seen) ((r'.decide? marks').map seen) := by
  have hc : r.Covers marks.toList := fun m hm => hr.ranked _ (hnames _ (List.mem_map_of_mem hm))
  have hc' : r'.Covers marks'.toList := fun m hm =>
    hr.ranked' _ (hnames _ ((hsigns _).2 (List.mem_map_of_mem hm)))
  obtain ⟨n, hn⟩ := exists_seen_decide? hc
  obtain ⟨n', hn'⟩ := exists_seen_decide? hc'
  rw [hn, hn']
  refine tell_congr (fun c => ?_) n n'
  rw [mem_signs_leading, mem_signs_leading, ← hsigns]
  refine and_congr_right fun hmem => ?_
  simp only [← hsigns]
  exact forall₂_congr fun c' hmem' =>
    not_congr (hr.dominates_iff _ (hnames c' hmem') _ (hnames c hmem))

end Leading

end Ranks

variable {ε H : Type}

/-- The entries are of the same element and have the same subnodes, and on each subnode the same
constraints gave marks of the same signs. -/
structure Marked.Alike (d d' : Marked ε) : Prop where
  element : d.element = d'.element
  subnodes : List.Forall₂ (fun e e' => e.1 = e'.1 ∧
    ∀ c, c ∈ signs e.2.toList ↔ c ∈ signs e'.2.toList) d.marks.entries d'.marks.entries

/-- The harmony of a subnode and the constraint that decided it. -/
def SubnodeAnalysis.decision (a : SubnodeAnalysis H) : Subnode × H × Option String :=
  (a.subnode, a.harmony, a.decisive)

/-- The harmony of an element and what decided it. -/
def ElementAnalysis.decisions (a : ElementAnalysis ε H) :
    ε × H × List (Subnode × H × Option String) :=
  (a.element, a.harmony, a.subnodes.map (·.decision))

/-- What an explanation says of each element, without the marks. -/
def Explanation.decisions (x : Explanation ε H) :
    List (ε × H × List (Subnode × H × Option String)) :=
  x.elements.map (·.decisions)

variable [Scale H] {r r' : Ranks} {m m' : Markup ε}

theorem SubnodeAnalysis.map_decision_ofMarks (r : Ranks) (p : Subnode) (marks : SortedSet Mark) :
    (ofMarks (.ranked r : Semantics H) p marks).map decision =
      ((r.decide? marks).map Ranks.seen).map fun t => (p, Ranks.outcome t.1, t.2) := by
  have hharmony : (Semantics.ranked r : Semantics H).subnodeHarmony marks =
      ((r.decide? marks).map Ranks.seen).map fun t => Ranks.outcome t.1 := by
    show r.harmony marks = _
    unfold Ranks.harmony
    cases r.decide? marks <;> rfl
  have hdecisive : (Semantics.ranked r : Semantics H).decisive? marks =
      ((r.decide? marks).map Ranks.seen).map (·.2) := by
    show r.decisive? marks = _
    unfold Ranks.decisive?
    cases r.decide? marks <;> rfl
  rw [ofMarks, hharmony, hdecisive]
  cases r.decide? marks <;> rfl

theorem ElementAnalysis.map_decisions_ofMarked (s : Semantics H) (d : Marked ε) :
    (ofMarked s d).map decisions =
      (d.marks.entries.mapM fun e => (SubnodeAnalysis.ofMarks s e.1 e.2).map (·.decision)).map
        fun l => (d.element, Harmony.sum (l.map (·.2.1)), l) := by
  rw [ofMarked_eq, ← map_mapM]
  cases d.marks.entries.mapM fun e => SubnodeAnalysis.ofMarks s e.1 e.2 with
  | error e => rfl
  | ok l =>
    simp only [Except.map, decisions, List.map_map]
    rfl

theorem Explanation.map_decisions_ofMarkup (s : Semantics H) (m : Markup ε) :
    (ofMarkup s m).map decisions =
      m.entries.mapM fun d => (ElementAnalysis.ofMarked s d).map (·.decisions) := by
  rw [ofMarkup, ← map_mapM]
  cases m.entries.mapM (ElementAnalysis.ofMarked s) <;> rfl

/-- The harmonies of the elements are all that a result takes of an explanation. -/
theorem Result.ofMarkup_eq_map_decisions (s : Semantics H) (m : Markup ε) :
    ofMarkup s m = ((Explanation.ofMarkup s m).map (·.decisions)).map
      fun l => ofScores (l.map fun a => (a.1, a.2.1)) := by
  rw [← Explanation.toResult_ofMarkup, Explanation.ofMarkup]
  cases m.entries.mapM (ElementAnalysis.ofMarked s) with
  | error e => rfl
  | ok l =>
    simp only [Except.map, Explanation.toResult_ofElements, Explanation.decisions, List.map_map]
    rfl

theorem Marked.Alike.sameOutcome {d d' : Marked ε} (h : d.Alike d') {names : SortedSet String}
    (hr : r.OrderedAlike r' names) (hnames : ∀ y ∈ d.allMarks, y.constraint ∈ names) :
    SameOutcome ((ElementAnalysis.ofMarked (.ranked r : Semantics H) d).map (·.decisions))
      ((ElementAnalysis.ofMarked (.ranked r') d').map (·.decisions)) := by
  have hgave : ∀ e ∈ d.marks.entries, ∀ c ∈ signs e.2.toList, c.1 ∈ names := by
    intro e he c hc
    obtain ⟨y, hy, rfl⟩ := List.mem_map.1 hc
    exact hnames y (mem_allMarks.2 ⟨e.2, List.mem_map_of_mem he, hy⟩)
  rw [ElementAnalysis.map_decisions_ofMarked, ElementAnalysis.map_decisions_ofMarked, ← h.element]
  refine (SameOutcome.mapM ?_).map _
  refine ((List.forall₂_and_left _ _).2 ⟨hgave, h.subnodes⟩).imp fun e e' he => ?_
  obtain ⟨hc, hp, hsigns⟩ := he
  rw [SubnodeAnalysis.map_decision_ofMarks, SubnodeAnalysis.map_decision_ofMarks, ← hp]
  exact (Ranks.sameOutcome_seen hr hsigns hc).map _

/-- Under ranks the result is the same for markups whose marks have the same signs and for tables
that order the constraints in the same way, and so is what decided on each subnode. If one run
reports a tie, then both do, and of the same constraints. -/
theorem outcome_of_alike (hm : List.Forall₂ Marked.Alike m.entries m'.entries)
    (hr : r.OrderedAlike r' m.constraintNames) :
    SameOutcome (Result.ofMarkup (.ranked r : Semantics H) m) (Result.ofMarkup (.ranked r') m') ∧
      SameOutcome ((Explanation.ofMarkup (.ranked r : Semantics H) m).map (·.decisions))
        ((Explanation.ofMarkup (.ranked r') m').map (·.decisions)) := by
  have hnames : ∀ d ∈ m.entries, ∀ y ∈ d.allMarks, y.constraint ∈ m.constraintNames := by
    intro d hd y hy
    exact SortedSet.mem_ofList.2 (List.mem_map_of_mem (List.mem_flatMap.2 ⟨d, hd, hy⟩))
  -- the explanations are compared first, since a result is what is left of one
  have hexplained : SameOutcome
      ((Explanation.ofMarkup (.ranked r : Semantics H) m).map (·.decisions))
      ((Explanation.ofMarkup (.ranked r') m').map (·.decisions)) := by
    rw [Explanation.map_decisions_ofMarkup, Explanation.map_decisions_ofMarkup]
    refine SameOutcome.mapM (((List.forall₂_and_left _ _).2 ⟨hnames, hm⟩).imp fun d d' h => ?_)
    exact h.2.sameOutcome hr h.1
  refine ⟨?_, hexplained⟩
  rw [Result.ofMarkup_eq_map_decisions, Result.ofMarkup_eq_map_decisions]
  exact hexplained.map _

/-- Marks of one step on two subnodes of `ab`, and for and against `b` on one. -/
def Toy.faint : Markup String :=
  ⟨[.ofMarks "ab" [⟨"NoB", -1, .root⟩, ⟨"PreferB", 1, .named "coda"⟩],
    .ofMarks "b" [⟨"NoB", -1, .root⟩, ⟨"PreferB", 1, .root⟩]], 0⟩

/-- Stronger marks of the same signs, one of which is given in two strengths. -/
def Toy.loud : Markup String :=
  ⟨[.ofMarks "ab" [⟨"NoB", -2, .root⟩, ⟨"PreferB", 3, .named "coda"⟩, ⟨"NoB", -4, .root⟩],
    .ofMarks "b" [⟨"PreferB", 2, .root⟩, ⟨"NoB", -7, .root⟩]], 0⟩

theorem outcome_of_alike_loud :
    let r := Ranks.ofPairs [("NoB", 1), ("PreferB", 2)]
    let r' := Ranks.ofPairs [("PreferB", 70), ("NoB", 0)]
    Result.ofMarkup (.ranked r) Toy.faint = .ok ⟨(-1 : Rat), ["ab"], 2⟩ ∧
      Result.ofMarkup (.ranked r') Toy.loud = .ok ⟨(-1 : Rat), ["ab"], 2⟩ ∧
      SameOutcome ((Explanation.ofMarkup (.ranked r : Semantics Rat) Toy.faint).map (·.decisions))
        ((Explanation.ofMarkup (.ranked r') Toy.loud).map (·.decisions)) := by
  intro r r'
  have hresult : Result.ofMarkup (.ranked r) Toy.faint = .ok ⟨(-1 : Rat), ["ab"], 2⟩ := by cbv
  have hm : List.Forall₂ Marked.Alike Toy.faint.entries Toy.loud.entries := by
    refine .cons ⟨rfl, .cons ⟨rfl, fun c => ?_⟩ (.cons ⟨rfl, fun c => ?_⟩ .nil)⟩
      (.cons ⟨rfl, .cons ⟨rfl, fun c => ?_⟩ .nil⟩ .nil)
    · show c ∈ [("NoB", true)] ↔ c ∈ [("NoB", true), ("NoB", true)]
      simp
    · exact Iff.rfl
    · exact Iff.rfl
  have hnames : ∀ a ∈ Toy.faint.constraintNames, a = "NoB" ∨ a = "PreferB" := by
    intro a ha
    have ha : a ∈ ["NoB", "PreferB", "NoB", "PreferB"] := SortedSet.mem_ofList.1 ha
    simpa [or_comm, or_left_comm] using ha
  have hr : r.OrderedAlike r' Toy.faint.constraintNames := by
    refine ⟨fun a ha => ?_, fun a ha => ?_, fun a ha b hb => ?_⟩
    · rcases hnames a ha with rfl | rfl
      · exact ⟨1, by decide⟩
      · exact ⟨2, by decide⟩
    · rcases hnames a ha with rfl | rfl
      · exact ⟨0, by decide⟩
      · exact ⟨70, by decide⟩
    · rcases hnames a ha with rfl | rfl <;> rcases hnames b hb with rfl | rfl <;> decide
  obtain ⟨hsame, hdecisions⟩ := outcome_of_alike (H := Rat) hm hr
  rcases hsame with ⟨x, hx, hx'⟩ | ⟨n, n', names, hx, -⟩
  · exact ⟨hresult, hx'.trans (hx.symm.trans hresult), hdecisions⟩
  · cases hresult.symm.trans hx

end Violable
