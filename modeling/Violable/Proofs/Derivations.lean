import Mathlib
import Violable.Proofs.Coverage
import Violable.Proofs.Navigation
import Violable.Proofs.Underflow
import Violable.Sample.RuleGrammar
import Violable.Tree.Removal

/-!
# What a rule grammar leaves unjudged

Each constraint looks at a non-terminal and at one relative of it. With weights of one a
non-terminal is not penalized exactly if its mother and each daughter that it needs are licensed,
whichever rules do it (`passes_iff`), and no penalty is lost in a total, so a tree has a total of
zero exactly if that holds of all its non-terminals (`total_eq_zero_iff`). A non-terminal has only
one rule, so its daughters are those of the rule if there are no further ones
(`derives_iff_licensed`). Every derivation has a total of zero, then. But nothing is asked of the
top, of what is no non-terminal, among it the root symbol, and of further daughters, and a tree with
a total of zero is a derivation only if all is well there too (`isDerivation_iff`).
-/

namespace Violable.RuleGrammar

/-- The labels of the daughters that a rule gives. -/
def Rule.daughters (r : Rule) : List String := r.first :: r.second.toList

/-- Whether a rule gives the mother these daughters and no others. -/
def derives (mother : String) (daughters : List String) : Bool :=
  rules.any fun r => r.mother = mother ∧ r.daughters = daughters

/-- The top is the root symbol, and each node that has daughters has those of a rule. -/
def IsDerivation (t : Tree) : Prop :=
  t.top?.map Branch.label = some root ∧
    ∀ n ∈ t.subtrees 0, derives n.label (n.children.map Node.label)

instance (t : Tree) : Decidable (IsDerivation t) :=
  inferInstanceAs (Decidable (t.top?.map Branch.label = some root ∧
    ∀ n ∈ t.subtrees 0, derives n.label (n.children.map Node.label)))

/-- A non-terminal has a mother and daughters that rules license, one rule for each of them. -/
def MeetsNeeds (n : Node) : Prop :=
  isNonTerminal n.label →
    n.parent?.any (licensesParent ·.label n.label) ∧
      (n.child? 0).any (licensesFirst n.label ·.label) ∧
      (isBinary n.label → (n.child? 1).any (licensesSecond n.label ·.label))

instance (n : Node) : Decidable (MeetsNeeds n) :=
  inferInstanceAs (Decidable (isNonTerminal n.label →
    n.parent?.any (licensesParent ·.label n.label) ∧
      (n.child? 0).any (licensesFirst n.label ·.label) ∧
      (isBinary n.label → (n.child? 1).any (licensesSecond n.label ·.label))))

/-- The marks on a node, by what there is to be said about it. -/
def marksOf (needy two mother first second : Bool) : List Mark := [
  ⟨"need_parent", if needy then -1 else 0, .root⟩,
  ⟨"need_daught0", if needy then -1 else 0, .root⟩,
  ⟨"need_daught1", if needy && two then -1 else 0, .root⟩,
  ⟨"good_parent", if needy && mother then 1 else 0, .root⟩,
  ⟨"good_daught0", if needy && first then 1 else 0, .root⟩,
  ⟨"good_daught1", if needy && second then 1 else 0, .root⟩]

theorem judge_good (name : String) (relative? : Node → Option Node)
    (licensed : String → String → Bool) (n : Node) :
    (good name relative? licensed).judge n =
      if isNonTerminal n.label && (relative? n).any (licensed n.label ·.label) then 1 else 0 := by
  rcases h : relative? n with _ | r <;> simp [good, h]

theorem marks_battery (n : Node) : battery.marks n =
    marksOf (isNonTerminal n.label) (isBinary n.label)
      (n.parent?.any (licensesParent ·.label n.label))
      ((n.child? 0).any (licensesFirst n.label ·.label))
      ((n.child? 1).any (licensesSecond n.label ·.label)) := by
  simp only [battery, Battery.marks, List.map_cons, List.map_nil, Constraint.toJudge,
    Constraint.mark, judge_good, marksOf]
  simp [need, good]

/-- The weights, each of them one. -/
def weights : Weights Float := ⟨.ofList unitWeights⟩

theorem ofPairs_unitWeights : Weights.ofPairs unitWeights = .ok weights :=
  Weights.ofPairs_eq_ok (by decide +kernel)

theorem clears_marksOf : ∀ needy two mother first second : Bool, (second → two) →
    (Semantics.weighted weights).clears
        (Marked.ofMarks () (marksOf needy two mother first second)).marks =
      (!needy || mother && first && (!two || second)) := by
  decide +kernel

/-- The constraints with these weights. -/
def grammar : Grammar Node Float := .ofBattery battery (.weighted weights)

theorem licensesSecond_isBinary {mother child : String} (h : licensesSecond mother child) :
    isBinary mother := by
  obtain ⟨r, hr, hlicensed⟩ := List.any_eq_true.1 h
  obtain ⟨rfl, hsecond⟩ := of_decide_eq_true hlicensed
  have hrules : ∀ r ∈ rules, r.second.isSome → isBinary r.mother := by decide
  exact hrules r hr (by simp [hsecond])

/-- A node is not penalized exactly if its needs are met. -/
theorem passes_iff (n : Node) : grammar.Passes n ↔ MeetsNeeds n := by
  have hpasses : grammar.Passes n ↔
      grammar.semantics.clears (Marked.ofMarks n (battery.marks n)).marks := by
    rw [Semantics.clears_iff, Grammar.Passes, or_iff_right_of_imp]
    · rfl
    · intro h
      cases h
  have htwo : (n.child? 1).any (licensesSecond n.label ·.label) → isBinary n.label := by
    intro h
    obtain ⟨d, -, hd⟩ := (Option.any_eq_true _ _).1 h
    exact licensesSecond_isBinary hd
  rw [hpasses, Marked.marks_ofMarks n (), marks_battery]
  refine (Bool.eq_iff_iff.1 (clears_marksOf _ _ _ _ _ htwo)).trans ?_
  simp only [MeetsNeeds, Bool.or_eq_true, Bool.and_eq_true, Bool.not_eq_true', imp_iff_not_or,
    Bool.not_eq_true, and_assoc]

variable {t : Tree}

theorem exists_evaluate (t : Tree) : ∃ r, grammar.evaluate t = .ok r := by
  have hsigned : grammar.battery.Signed := by
    simp [Battery.Signed, grammar, Grammar.ofBattery, battery, Constraint.toJudge, Constraint.mark]
  have hcovers : ∀ a ∈ grammar.battery.names, grammar.semantics.covers a := by decide +kernel
  rcases Grammar.succeeds_or_tied hsigned hcovers t with ⟨hok, -, -⟩ | ⟨r, n, tied, hr, -⟩
  · exact hok
  · cases hr

theorem illFormed_eq_nil_iff {r : Result Node Float} (h : grammar.evaluate t = .ok r) :
    r.illFormed = [] ↔ ∀ n ∈ t.subtrees 0, MeetsNeeds n := by
  rw [List.eq_nil_iff_forall_not_mem]
  simp only [Grammar.mem_illFormed (t.nodup_subtrees 0) h, passes_iff, not_and_not_right]
  rfl

theorem total_eq_zero_iff {r : Result Node Float} (h : grammar.evaluate t = .ok r) :
    (r.total = 0 ↔ ∀ n ∈ t.subtrees 0, MeetsNeeds n) ∧
      (r.total < 0 ↔ ∃ n ∈ t.subtrees 0, ¬ MeetsNeeds n) := by
  have hmarkup := (Grammar.evaluate_eq_ok.1 h).2
  have hH := Harmony.graded_float
  obtain ⟨hle, hzero⟩ := Result.total_le_zero hH.toCumulative hmarkup
  have hneg : r.total < 0 ↔ ¬ r.illFormed = [] := (hH.lt_zero_iff _ hle).trans (not_congr hzero)
  rw [illFormed_eq_nil_iff h] at hneg
  refine ⟨?_, hneg.trans (by push Not; rfl)⟩
  rw [← illFormed_eq_nil_iff h]
  exact ⟨fun hr => hzero.1 (hr ▸ hH.zero_le_zero), Result.total_of_illFormed hmarkup⟩

section Derived

variable {l : String} {daughters : List String}

theorem derives_iff :
    derives l daughters ↔ ∃ r ∈ rules, r.mother = l ∧ r.daughters = daughters := by
  simp [derives]

theorem licensesParent_of_derives {child : String} (h : derives l daughters)
    (hc : child ∈ daughters) : licensesParent l child := by
  obtain ⟨r, hr, rfl, rfl⟩ := derives_iff.1 h
  rcases List.mem_cons.1 hc with rfl | hc
  · exact List.any_eq_true.2 ⟨r, hr, by simp⟩
  · exact List.any_eq_true.2 ⟨r, hr, by simpa using .inr (Option.mem_toList.1 hc)⟩

/-- No non-terminal has two rules. -/
theorem rule_unique {r r' : Rule} (hr : r ∈ rules) (hr' : r' ∈ rules)
    (h : isNonTerminal r.mother) (hmother : r.mother = r'.mother) : r = r' := by
  have hrules : ∀ r ∈ rules, ∀ r' ∈ rules, isNonTerminal r.mother → r.mother = r'.mother →
      r = r' := by
    decide +kernel
  exact hrules r hr r' hr' h hmother

/-- The daughters of a non-terminal are those of a rule exactly if the first one and the second one
are licensed, where there is to be a second one, and there are no others. -/
theorem derives_iff_licensed (h : isNonTerminal l) : derives l daughters ↔
    daughters[0]?.any (licensesFirst l) ∧ (isBinary l → daughters[1]?.any (licensesSecond l)) ∧
      daughters.length = if isBinary l then 2 else 1 := by
  constructor
  · intro hderives
    obtain ⟨r, hr, rfl, rfl⟩ := derives_iff.1 hderives
    have hrules : ∀ r ∈ rules, isNonTerminal r.mother →
        r.daughters[0]?.any (licensesFirst r.mother) ∧
        (isBinary r.mother → r.daughters[1]?.any (licensesSecond r.mother)) ∧
        r.daughters.length = if isBinary r.mother then 2 else 1 := by
      decide +kernel
    exact hrules r hr h
  · rintro ⟨hfirst, hsecond, hlength⟩
    obtain ⟨a, ha, hlicensed⟩ := (Option.any_eq_true _ _).1 hfirst
    obtain ⟨r, hr, hrule⟩ := List.any_eq_true.1 hlicensed
    obtain ⟨rfl, rfl⟩ := of_decide_eq_true hrule
    have hrules : ∀ r ∈ rules, isNonTerminal r.mother → isBinary r.mother = r.second.isSome := by
      decide +kernel
    rw [hrules r hr h] at hsecond hlength
    refine derives_iff.2 ⟨r, hr, rfl, ?_⟩
    rcases hs : r.second with _ | b <;> rw [hs] at hsecond hlength
    · obtain ⟨c, rfl⟩ := List.length_eq_one_iff.1 hlength
      obtain rfl : c = r.first := Option.some.inj ha
      rw [Rule.daughters, hs]
      rfl
    · obtain ⟨c, d, rfl⟩ := List.length_eq_two.1 hlength
      obtain rfl : c = r.first := Option.some.inj ha
      obtain ⟨r', hr', hrule'⟩ := List.any_eq_true.1 (hsecond rfl)
      obtain ⟨hmother, hsecond'⟩ := of_decide_eq_true hrule'
      obtain rfl := rule_unique hr hr' h hmother.symm
      rw [Rule.daughters, hsecond']
      rfl

end Derived

section Trees

variable {n : Node}

/-- What no constraint asks for: the root symbol at the top, no labels but this one and the
non-terminals above daughters, the daughters of a rule below the root symbol, and no daughters after
those that a non-terminal needs. -/
def IsShaped (t : Tree) : Prop :=
  t.top?.map Branch.label = some root ∧ ∀ n ∈ t.subtrees 0,
    n.label = root ∧ derives root (n.children.map Node.label) ∨
      isNonTerminal n.label ∧ n.arity = if isBinary n.label then 2 else 1

/-- A node of a derivation is at the top, or a rule licenses its mother. -/
theorem root_or_licensed (h : IsDerivation t) (hn : n ∈ t.nodes 0) :
    n.label = root ∨ n.parent?.any (licensesParent ·.label n.label) := by
  obtain ⟨hroot, hrules⟩ := h
  obtain ⟨top, htop, hbelow⟩ := Tree.mem_nodes.1 hn
  rcases Node.eq_or_daughter_of_mem_below hbelow with rfl | ⟨p, hp, hchild⟩
  · left
    obtain ⟨b, hb, rfl⟩ := Option.map_eq_some_iff.1 htop
    rw [hb] at hroot
    exact Option.some.inj hroot
  · right
    have hp : p ∈ t.nodes 0 := Tree.mem_nodes.2 ⟨top, htop, hp⟩
    rw [Node.parent?_of_mem_children hchild, Option.any_some]
    exact licensesParent_of_derives (hrules p (Tree.mem_subtrees_of_child hp hchild))
      (List.mem_map_of_mem hchild)

theorem meetsNeeds_of_derivation (h : IsDerivation t) (hn : n ∈ t.subtrees 0) : MeetsNeeds n := by
  intro hneedy
  have hparent := root_or_licensed h (List.mem_filter.1 hn).1
  obtain ⟨hfirst, hsecond, -⟩ := (derives_iff_licensed hneedy).1 (h.2 n hn)
  rw [Node.any_child?, Node.any_child?]
  refine ⟨hparent.resolve_left fun hroot => ?_, hfirst, hsecond⟩
  rw [hroot] at hneedy
  exact absurd hneedy (by decide)

theorem isShaped_of_derivation (h : IsDerivation t) : IsShaped t := by
  refine ⟨h.1, fun n hn => ?_⟩
  have hderives := h.2 n hn
  have hrules : ∀ r ∈ rules, r.mother = root ∨ isNonTerminal r.mother := by decide
  obtain ⟨r, hr, hmother, -⟩ := derives_iff.1 hderives
  have hlabel : n.label = root ∨ isNonTerminal n.label := hmother ▸ hrules r hr
  rcases hlabel with hroot | hneedy
  · exact .inl ⟨hroot, hroot ▸ hderives⟩
  · obtain ⟨-, -, hlength⟩ := (derives_iff_licensed hneedy).1 hderives
    rw [List.length_map, Node.length_children] at hlength
    exact .inr ⟨hneedy, hlength⟩

/-- Where the needs of all nodes are met, what no constraint asks for is all that may be missing. -/
theorem isDerivation_iff (t : Tree) :
    IsDerivation t ↔ (∀ n ∈ t.subtrees 0, MeetsNeeds n) ∧ IsShaped t := by
  refine ⟨fun h => ⟨fun n => meetsNeeds_of_derivation h, isShaped_of_derivation h⟩, ?_⟩
  rintro ⟨hneeds, htop, hshape⟩
  refine ⟨htop, fun n hn => ?_⟩
  rcases hshape n hn with ⟨hroot, hderives⟩ | ⟨hneedy, harity⟩
  · rwa [hroot]
  · obtain ⟨-, hfirst, hsecond⟩ := hneeds n hn hneedy
    rw [Node.any_child?] at hfirst hsecond
    refine (derives_iff_licensed hneedy).2 ⟨hfirst, hsecond, ?_⟩
    rwa [List.length_map, Node.length_children]

/-- With weights of one, a tree has a total of zero if the needs of all its nodes are met, and
otherwise a total below zero. All derivations have a total of zero, but a tree with that total is a
derivation only if it has all that no constraint asks for too. -/
theorem total_and_derivation (t : Tree) :
    ∃ w r, Weights.ofPairs unitWeights = .ok w ∧
      (Grammar.ofBattery battery (.weighted w)).evaluate t = .ok r ∧
      (r.total = 0 ↔ ∀ n ∈ t.subtrees 0, MeetsNeeds n) ∧
      (r.total < 0 ↔ ∃ n ∈ t.subtrees 0, ¬ MeetsNeeds n) ∧
      (IsDerivation t → r.total = 0) ∧ (IsDerivation t ↔ r.total = 0 ∧ IsShaped t) := by
  obtain ⟨r, hr⟩ := exists_evaluate t
  obtain ⟨hzero, hneg⟩ := total_eq_zero_iff hr
  have hderivation : IsDerivation t ↔ r.total = 0 ∧ IsShaped t := by
    rw [hzero, isDerivation_iff]
  exact ⟨weights, r, ofPairs_unitWeights, hr, hzero, hneg, fun h => (hderivation.1 h).1,
    hderivation⟩

/-- A tree that is put together with the rules. -/
def Toy.ruled : Tree := ⟨some (.node "S" [
  .node "F0" [.node "B" [.leaf "b"], .node "E" [.leaf "e"]]])⟩

theorem total_and_derivation_ruled :
    IsDerivation Toy.ruled ∧ ∃ w r, Weights.ofPairs unitWeights = .ok w ∧
      (Grammar.ofBattery battery (.weighted w)).evaluate Toy.ruled = .ok r ∧ r.total = 0 := by
  have hruled : IsDerivation Toy.ruled := by decide +kernel
  obtain ⟨w, r, hw, hr, -, -, htotal, -⟩ := total_and_derivation Toy.ruled
  exact ⟨hruled, w, r, hw, hr, htotal hruled⟩

/-- A tree with the daughters of two rules under the root symbol. -/
def Toy.twofold : Tree := ⟨some (.node "S" [
  .node "A0" [.node "B" [.leaf "b"], .node "C" [.leaf "c"]],
  .node "A1" [.node "D" [.leaf "d"], .node "E" [.leaf "e"]]])⟩

/-- A total of zero for a tree that is no derivation. -/
theorem total_of_twofold :
    ∃ w r, Weights.ofPairs unitWeights = .ok w ∧
      (Grammar.ofBattery battery (.weighted w)).evaluate Toy.twofold = .ok r ∧ r.total = 0 ∧
      ¬ IsDerivation Toy.twofold := by
  obtain ⟨r, hr⟩ := exists_evaluate Toy.twofold
  have hneeds : ∀ n ∈ Toy.twofold.subtrees 0, MeetsNeeds n := by decide +kernel
  exact ⟨weights, r, ofPairs_unitWeights, hr, (total_eq_zero_iff hr).1.2 hneeds, by decide +kernel⟩

end Trees

end Violable.RuleGrammar
