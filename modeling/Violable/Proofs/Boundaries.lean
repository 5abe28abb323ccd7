import Violable.Proofs.Explained
import Violable.Proofs.Reading
import Violable.Proofs.Settled

/-!
# Delimiters that are ignored

A grammar marks no element that it ignores, so it finds none of them ill-formed, however it judges
(`not_ignores_of_mem_illFormed`), and a path with no other arcs is left whole
(`accepts_of_ignores`). On an acceptor that remembers a window there is always such a path if the
delimiters are ignored, the one that reads nothing between them (`accepts_frame`). It is there over
any alphabet, even one in which symbols and delimiters cannot be told from each other or from the
labels of states.
-/

namespace Violable

theorem IgnoredLabels.ignores_boundaries {ε : Type} [Element ε] {a : Alphabet} {e : ε} :
    (boundaries a).ignores e ↔ Element.label e = a.bos ∨ Element.label e = a.eos := by
  simp [ignores, boundaries, ofList]

/-- The path that reads the begin delimiter and, with nothing after it, the end delimiter. -/
def Alphabet.frame (a : Alphabet) : List Arc :=
  [⟨⟨""⟩, a.bos, .ofContext [a.bos]⟩, ⟨.ofContext [a.bos], a.eos, ⟨a.eos⟩⟩]

/-- Against everything. -/
def Toy.nothing : Grammar Arc Rat :=
  .ofBattery [(⟨"Nothing", .root, fun _ => -1⟩ : Constraint Arc)]
    (.weighted ⟨SortedMap.insert ∅ "Nothing" 1⟩)

/-- Here the state after the begin delimiter is the start, and the end delimiter is a symbol. -/
def Toy.blurred : Alphabet := (Alphabet.ofSymbols ["b", "a"]).withDelimiters "" "b"

namespace Acceptor

variable {m : Acceptor}

theorem acceptsNothing_eq_false {ts : List Arc} (h : m.Accepts ts) : m.acceptsNothing = false :=
  Bool.eq_false_iff.2 fun hnothing => acceptsNothing_iff.1 hnothing ts h

theorem accepts_frame (a : Alphabet) (size : Nat) : (ofWindows a size).Accepts a.frame := by
  have hend := acceptsFrom_endArc (List.forall_mem_nil (· ∈ a.symbols)) size
  rw [Alphabet.endArc, Alphabet.stateAfter_nil (window_pos size)] at hend
  exact acceptsFrom_cons.2 ⟨⟨beginArc_mem a size, rfl⟩, hend⟩

end Acceptor

namespace Grammar

variable {ε H : Type} [Scale H]

section Report

variable [Element ε] [DecidableEq ε] {σ : Type} [Candidate σ ε] {g : Grammar ε H} {s : σ}

omit [Scale H] in
theorem not_ignores_of_mem_entries {d : Marked ε} (h : d ∈ (g.markup s).entries) :
    ¬ g.ignored.ignores d.element := by
  rw [markup_eq_eval, Evaluator.mem_entries_eval] at h
  obtain ⟨e, -, he, rfl⟩ := h
  have helement : (g.evaluator.mark e).element = e := Marked.element_ofMarks e _
  rw [helement]
  exact Bool.eq_false_iff.1 he

theorem not_ignores_of_mem_illFormed {r : Result ε H} (h : g.evaluate s = .ok r) {e : ε}
    (he : e ∈ r.illFormed) : ¬ g.ignored.ignores e := by
  rw [Result.illFormed_ofMarkup (evaluate_eq_ok.1 h).2] at he
  obtain ⟨d, hd, rfl⟩ := List.mem_map.1 he
  exact not_ignores_of_mem_entries (List.mem_of_mem_filter hd)

theorem explain_eq_ok {x : Explanation ε H} : g.explain s = .ok x ↔
    g.checkCoverage = .ok () ∧ Explanation.ofMarkup g.semantics (g.markup s) = .ok x :=
  then_eq_ok

theorem not_ignores_of_mem_elements {x : Explanation ε H} (h : g.explain s = .ok x)
    {b : ElementAnalysis ε H} (hb : b ∈ x.elements) : ¬ g.ignored.ignores b.element := by
  have hmem : b.element ∈ (g.markup s).entries.map (·.element) := by
    rw [← Explanation.map_element_elements (explain_eq_ok.1 h).2]
    exact List.mem_map_of_mem hb
  obtain ⟨d, hd, hde⟩ := List.mem_map.1 hmem
  exact hde ▸ not_ignores_of_mem_entries hd

end Report

/-- What pruning leaves of the accepted paths has every one whose arcs are all ignored. -/
theorem accepts_of_ignores {g : Grammar Arc H} {m : Acceptor} {p : Pruned Acceptor Arc H}
    (h : g.prune m = .ok p) {ts : List Arc} (hts : m.Accepts ts)
    (hignored : ∀ t ∈ ts, g.ignored.ignores t) : p.candidate.Accepts ts :=
  (accepts_candidate h).2 ⟨hts, fun t ht => .inl (hignored t ht)⟩

/-- A grammar that ignores the delimiters of an alphabet never finds an arc ill-formed that reads
one, and does not even explain it. So however it judges, and whatever the alphabet is like, pruning
an acceptor that remembers a window leaves the arcs that read the delimiters with nothing between
them. Hence something is accepted still, the string of the two delimiters above all. -/
theorem frame_of_boundaries (g : Grammar Arc H) (a : Alphabet) :
    (∀ (m : Acceptor) r, (g.ignoring (.boundaries a)).evaluate m = .ok r →
        ∀ t ∈ r.illFormed, t.label ≠ a.bos ∧ t.label ≠ a.eos) ∧
      (∀ (m : Acceptor) x, (g.ignoring (.boundaries a)).explain m = .ok x →
        ∀ b ∈ x.elements, b.element.label ≠ a.bos ∧ b.element.label ≠ a.eos) ∧
      (∀ (m : Acceptor) p, (g.ignoring (.boundaries a)).prune m = .ok p →
        ∀ t ∈ p.result.illFormed, t.label ≠ a.bos ∧ t.label ≠ a.eos) ∧
      ∀ size p, (g.ignoring (.boundaries a)).prune (Acceptor.ofWindows a size) = .ok p →
        p.candidate.start = ⟨""⟩ ∧
        ⟨⟨""⟩, a.bos, .ofContext [a.bos]⟩ ∈ p.candidate.arcs ∧
        ⟨.ofContext [a.bos], a.eos, ⟨a.eos⟩⟩ ∈ p.candidate.arcs ∧
        p.candidate.acceptsNothing = false ∧
        ∀ n, 2 ≤ n → " ".intercalate [a.bos, a.eos] ∈ p.candidate.accepted n := by
  have hlabel : ∀ t : Arc, ¬ (g.ignoring (.boundaries a)).ignored.ignores t →
      t.label ≠ a.bos ∧ t.label ≠ a.eos := fun t ht =>
    not_or.1 fun h => ht (IgnoredLabels.ignores_boundaries.2 h)
  refine ⟨fun m r h t ht => hlabel t (not_ignores_of_mem_illFormed h ht),
    fun m x h b hb => hlabel _ (not_ignores_of_mem_elements h hb), fun m p h t ht => ?_,
    fun size p h => ?_⟩
  · obtain ⟨r, hr, rfl⟩ := candidate_of_prune h
    exact hlabel t (not_ignores_of_mem_illFormed hr ht)
  -- trimming is no danger to this path, since it removes only what is on no accepted path
  have hframe : p.candidate.Accepts a.frame := by
    refine accepts_of_ignores h (Acceptor.accepts_frame a size) fun t ht => ?_
    simp only [Alphabet.frame, List.mem_cons, List.not_mem_nil, or_false] at ht
    rcases ht with rfl | rfl
    · exact IgnoredLabels.ignores_boundaries.2 (.inl rfl)
    · exact IgnoredLabels.ignores_boundaries.2 (.inr rfl)
  have harcs : ∀ t ∈ a.frame, t ∈ p.candidate.arcs := by
    obtain ⟨q, -, hpath⟩ := hframe
    exact hpath.mem_arcs
  have hstart : p.candidate.start = ⟨""⟩ := by
    obtain ⟨r, -, rfl⟩ := candidate_of_prune h
    exact Acceptor.start_prune
  refine ⟨hstart, harcs _ List.mem_cons_self, harcs _ (List.mem_cons_of_mem _ List.mem_cons_self),
    Acceptor.acceptsNothing_eq_false hframe, fun n hn => ?_⟩
  exact Acceptor.mem_accepted.2 ⟨a.frame, hframe, hn, rfl⟩

theorem frame_of_boundaries_blurred :
    ∃ p, (Toy.nothing.ignoring (.boundaries Toy.blurred)).prune
        (Acceptor.ofWindows Toy.blurred 1) = .ok p ∧
      p.result.illFormed = [⟨⟨""⟩, "a", ⟨"a"⟩⟩, ⟨⟨"a"⟩, "a", ⟨"a"⟩⟩, ⟨⟨"b"⟩, "a", ⟨"a"⟩⟩] ∧
      ⟨⟨""⟩, "", ⟨""⟩⟩ ∈ p.candidate.arcs ∧ ⟨⟨""⟩, "b", ⟨"b"⟩⟩ ∈ p.candidate.arcs ∧
      p.candidate.acceptsNothing = false ∧ ∀ n, 2 ≤ n → " b" ∈ p.candidate.accepted n := by
  have h : (Toy.nothing.ignoring (.boundaries Toy.blurred)).evaluate
      (Acceptor.ofWindows Toy.blurred 1) = .ok
        ⟨-3, [⟨⟨""⟩, "a", ⟨"a"⟩⟩, ⟨⟨"a"⟩, "a", ⟨"a"⟩⟩, ⟨⟨"b"⟩, "a", ⟨"a"⟩⟩], 3⟩ := by cbv
  have hp := prune_of_evaluate h
  obtain ⟨-, -, -, hframe⟩ := frame_of_boundaries Toy.nothing Toy.blurred
  obtain ⟨-, hbos, heos, hsome, haccepted⟩ := hframe 1 _ hp
  exact ⟨_, hp, rfl, hbos, heos, hsome, haccepted⟩

end Grammar

end Violable
