import Mathlib
import Violable.Proofs.Explained
import Violable.Proofs.Settled
import Violable.Proofs.Verdict
import Violable.Sample.Toy

/-!
# Coverage

Before a grammar marks anything it looks up every constraint of its battery, and fails with the
first that has no weight or rank (`ensureCovers_eq_error`). Constraints give marks in their own
names, so all marks that are looked up later are of constraints of the battery
(`constraint_mem_names`). What coverage leaves to fail are ties of ranks (`succeeds_or_tied`).
-/

namespace Violable

variable {σ ε H : Type}

theorem forM_eq_mapM {α E : Type} (f : α → Except E Unit) (l : List α) :
    l.forM f = (l.mapM f).map fun _ => () := by
  induction l with
  | nil => rfl
  | cons a l ih =>
    have hcons : (a :: l).forM f = f a >>= fun _ => l.forM f := rfl
    rw [hcons, ih, List.mapM_cons]
    rcases f a with e | u
    · rfl
    · cases l.mapM f <;> rfl

namespace Semantics

variable {s : Semantics H} {names : List String}

/-- Whether a constraint has a weight or a rank. -/
def covers : Semantics H → String → Bool
  | weighted w, name => w.contains name
  | ranked r, name => r.contains name

/-- The failure to look up a constraint. -/
def missing : Semantics H → String → ScoringError
  | weighted _, name => .missingWeight name
  | ranked _, name => .missingRank name

/-- Looks up a constraint, without using what is found. -/
def lookUp : Semantics H → String → Except ScoringError Unit
  | weighted w, name => discard (w.weight name)
  | ranked r, name => discard (r.rank name)

theorem lookUp_eq (s : Semantics H) (name : String) :
    s.lookUp name = if s.covers name then .ok () else .error (s.missing name) := by
  rcases s with w | r
  · have hcovers : (weighted w).covers name = (w.get? name).isSome := rfl
    rw [lookUp, Weights.weight, hcovers]
    cases w.get? name <;> rfl
  · have hcovers : (ranked r : Semantics H).covers name = (r.get? name).isSome := rfl
    rw [lookUp, Ranks.rank, hcovers]
    cases r.get? name <;> rfl

theorem exists_lookUp {name : String} : (∃ u, s.lookUp name = .ok u) ↔ s.covers name := by
  rw [lookUp_eq]
  split <;> simp_all

theorem lookUp_eq_error {name : String} {e : ScoringError} :
    s.lookUp name = .error e ↔ s.covers name = false ∧ s.missing name = e := by
  rw [lookUp_eq]
  split <;> simp_all

theorem ensureCovers_eq_mapM (s : Semantics H) (names : List String) :
    s.ensureCovers names = (names.mapM s.lookUp).map fun _ => () := by
  rw [← forM_eq_mapM]
  cases s <;> rfl

theorem ensureCovers_eq_ok : s.ensureCovers names = .ok () ↔ ∀ a ∈ names, s.covers a := by
  rw [ensureCovers_eq_mapM, map_eq_ok, exists_and_right, exists_mapM, and_iff_left rfl]
  simp only [exists_lookUp]

/-- The failure is about the first of the names that is not covered. -/
theorem ensureCovers_eq_error {e : ScoringError} : s.ensureCovers names = .error e ↔
    ∃ before a after, names = before ++ a :: after ∧ (∀ b ∈ before, s.covers b) ∧
      s.covers a = false ∧ s.missing a = e := by
  rw [ensureCovers_eq_mapM, map_eq_error, mapM_eq_error]
  simp only [exists_lookUp, lookUp_eq_error]

end Semantics

namespace Battery

/-- The judges give their marks in their own names. -/
def Signed (b : Battery ε) : Prop := ∀ j ∈ b, ∀ e, (j.mark e).constraint = j.name

theorem signed_constraints (cs : List (Constraint ε)) :
    Signed (cs.map (·.toJudge)) := by
  intro j hj e
  obtain ⟨c, -, rfl⟩ := List.mem_map.1 hj
  rfl

end Battery

section Marks

variable [Scale H]

theorem Ranks.covers_of_contains {r : Ranks} {marks : List Mark}
    (h : ∀ m ∈ marks, r.contains m.constraint) : r.Covers marks :=
  fun m hm => Option.isSome_iff_exists.1 (h m hm)

/-- A result fails as one of the subnodes does. -/
theorem Result.exists_of_ofMarkup_eq_error {s : Semantics H} {m : Markup ε} {e : ScoringError}
    (h : (ofMarkup s m : Except ScoringError (Result ε H)) = .error e) :
    ∃ d ∈ m.entries, ∃ ms ∈ d.marks.values, s.subnodeHarmony ms = .error e := by
  rw [ofMarkup_eq, map_eq_error, mapM_eq_error] at h
  obtain ⟨before, d, after, hentries, -, hd⟩ := h
  rw [Semantics.score, map_eq_error, Semantics.elementHarmony_eq, map_eq_error, mapM_eq_error] at hd
  obtain ⟨before', ms, after', hvalues, -, hms⟩ := hd
  exact ⟨d, by simp [hentries], ms, by simp [hvalues], hms⟩

end Marks

namespace Grammar

variable [Scale H] [Element ε] [DecidableEq ε] [Candidate σ ε] {g : Grammar ε H} {s : σ}

/-- The candidate is evaluated, explained and pruned. -/
def Succeeds (g : Grammar ε H) (s : σ) : Prop :=
  (∃ r, g.evaluate s = .ok r) ∧ (∃ x, g.explain s = .ok x) ∧ ∃ p, g.prune s = .ok p

/-- Evaluating, explaining and pruning the candidate all fail in the same way. -/
def FailsWith (g : Grammar ε H) (s : σ) (e : ScoringError) : Prop :=
  g.evaluate s = .error e ∧ g.explain s = .error e ∧ g.prune s = .error e

theorem failsWith_of_checkCoverage {e : ScoringError} (h : g.checkCoverage = .error e) :
    g.FailsWith s e := by
  have hevaluate : g.evaluate s = .error e := by rw [evaluate, h]; rfl
  exact ⟨hevaluate, by rw [explain, h]; rfl, by rw [prune, hevaluate]; rfl⟩

section Covered

variable (hg : g.checkCoverage = .ok ())

include hg

theorem evaluate_of_covered : g.evaluate s = Result.ofMarkup g.semantics (g.markup s) := by
  rw [evaluate, hg]
  rfl

theorem explain_of_covered : g.explain s = Explanation.ofMarkup g.semantics (g.markup s) := by
  rw [explain, hg]
  rfl

theorem succeeds_of_ofMarkup {r : Result ε H}
    (h : Result.ofMarkup g.semantics (g.markup s) = .ok r) : g.Succeeds s := by
  have hevaluate : g.evaluate s = .ok r := (evaluate_of_covered hg).trans h
  obtain ⟨x, hx, -⟩ := map_eq_ok.1 ((Explanation.toResult_ofMarkup _ _).trans h)
  exact ⟨⟨r, hevaluate⟩, ⟨x, (explain_of_covered hg).trans hx⟩, _, prune_of_evaluate hevaluate⟩

theorem failsWith_of_ofMarkup {e : ScoringError}
    (h : (Result.ofMarkup g.semantics (g.markup s) : Except ScoringError (Result ε H)) = .error e) :
    g.FailsWith s e := by
  have hevaluate : g.evaluate s = .error e := (evaluate_of_covered hg).trans h
  have hx := map_eq_error.1 ((Explanation.toResult_ofMarkup _ _).trans h)
  exact ⟨hevaluate, (explain_of_covered hg).trans hx, by rw [prune, hevaluate]; rfl⟩

end Covered

omit [Scale H] in
/-- All marks in a markup are of constraints of the battery. -/
theorem constraint_mem_names (hb : g.battery.Signed) {d : Marked ε} (hd : d ∈ (g.markup s).entries)
    {ms : SortedSet Mark} (hms : ms ∈ d.marks.values) {m : Mark} (hm : m ∈ ms) :
    m.constraint ∈ g.battery.names := by
  rw [markup_eq_eval, Evaluator.mem_entries_eval] at hd
  obtain ⟨e, -, -, rfl⟩ := hd
  have hmark := (Marked.files_ofMarks e (g.battery.marks e)).mem_allMarks.1
    (Marked.mem_allMarks.2 ⟨ms, hms, hm⟩)
  obtain ⟨j, hj, rfl⟩ := List.mem_map.1 hmark.1
  rw [hb j hj e]
  exact List.mem_map_of_mem hj

/-- Where the battery is covered, only ranks can fail, and only as a tie of its constraints. -/
theorem ofMarkup_of_covered (hb : g.battery.Signed)
    (h : ∀ a ∈ g.battery.names, g.semantics.covers a) {e : ScoringError}
    (he : (Result.ofMarkup g.semantics (g.markup s) : Except _ (Result ε H)) = .error e) :
    ∃ r n tied, g.semantics = .ranked r ∧ e = .rankTie n tied ∧ r.Tied n tied ∧
      ∀ a ∈ tied, a ∈ g.battery.names := by
  obtain ⟨d, hd, ms, hms, hfail⟩ := Result.exists_of_ofMarkup_eq_error he
  have hcovers : ∀ m ∈ ms, g.semantics.covers m.constraint :=
    fun m hm => h _ (constraint_mem_names hb hd hms hm)
  rcases hs : g.semantics with w | r <;> rw [hs] at hcovers hfail
  · obtain ⟨x, hx⟩ := Weights.exists_harmony.2 hcovers
    cases hx.symm.trans hfail
  · obtain ⟨n, tied, rfl, htied, hgave⟩ :=
      Ranks.tied_of_harmony (Ranks.covers_of_contains hcovers) hfail
    refine ⟨r, n, tied, rfl, rfl, htied, fun a ha => ?_⟩
    obtain ⟨m, hm, rfl⟩ := hgave a ha
    exact constraint_mem_names hb hd hms hm

/-- Where the battery is covered, a candidate can be judged, unless there is a tie of ranks. -/
theorem succeeds_or_tied (hb : g.battery.Signed) (h : ∀ a ∈ g.battery.names, g.semantics.covers a)
    (s : σ) : g.Succeeds s ∨ ∃ r n tied, g.semantics = .ranked r ∧ r.Tied n tied ∧
      (∀ a ∈ tied, a ∈ g.battery.names) ∧ g.FailsWith s (.rankTie n tied) := by
  have hg : g.checkCoverage = .ok () := Semantics.ensureCovers_eq_ok.2 h
  rcases hm : (Result.ofMarkup g.semantics (g.markup s) : Except ScoringError (Result ε H))
    with e | r
  · obtain ⟨r, n, tied, hr, rfl, htied, hmem⟩ := ofMarkup_of_covered hb h hm
    exact .inr ⟨r, n, tied, hr, htied, hmem, failsWith_of_ofMarkup hg hm⟩
  · exact .inl (succeeds_of_ofMarkup hg hm)

/-- If a constraint of the battery has no weight or rank, every candidate fails with the first such
constraint, whatever there is in it. If all have one, no candidate fails under weights, and under
ranks one can only fail with a tie between constraints of the battery. -/
theorem coverage_decides {cs : List (Constraint ε)} (hb : g.battery = cs.map (·.toJudge)) (s : σ) :
    ((∃ a ∈ g.battery.names, g.semantics.covers a = false) →
      ∃ before a after, g.battery.names = before ++ a :: after ∧
        (∀ b ∈ before, g.semantics.covers b) ∧ g.semantics.covers a = false ∧
        g.FailsWith s (g.semantics.missing a)) ∧
    ((∀ a ∈ g.battery.names, g.semantics.covers a) →
      (∀ w, g.semantics = .weighted w → g.Succeeds s) ∧
      ∀ r, g.semantics = .ranked r → g.Succeeds s ∨
        ∃ n tied, r.Tied n tied ∧ (∀ a ∈ tied, a ∈ g.battery.names) ∧
          g.FailsWith s (.rankTie n tied)) := by
  have hsigned : g.battery.Signed := hb ▸ Battery.signed_constraints cs
  refine ⟨fun ⟨a, ha, huncovered⟩ => ?_, fun h => ?_⟩
  · rcases hc : g.checkCoverage with e | u
    · obtain ⟨before, b, after, hnames, hbefore, hfirst, rfl⟩ :=
        Semantics.ensureCovers_eq_error.1 hc
      exact ⟨before, b, after, hnames, hbefore, hfirst, failsWith_of_checkCoverage hc⟩
    · have hcovers := Semantics.ensureCovers_eq_ok.1 hc a ha
      exact absurd (huncovered.symm.trans hcovers) Bool.false_ne_true
  · rcases succeeds_or_tied hsigned h s with hok | ⟨r, n, tied, hr, htied, hmem, hfails⟩
    · exact ⟨fun _ _ => hok, fun _ _ => .inl hok⟩
    · refine ⟨fun w hw => ?_, fun r' hr' => .inr ⟨n, tied, ?_, hmem, hfails⟩⟩
      · cases hw.symm.trans hr
      · cases hr'.symm.trans hr
        exact htied

/-- Nothing weighs here, and of the two names the first in the battery is reported. With equal
ranks for both, the first arc that reads a `b` is a tie. -/
theorem coverage_decides_toy :
    let b : Battery Arc := [Toy.preferB, Toy.noB].map (·.toJudge)
    let unweighed : Grammar Arc Rat := .ofBattery b (.weighted .empty)
    let r := Ranks.ofPairs [("NoB", 1), ("PreferB", 1)]
    let tying : Grammar Arc Rat := .ofBattery b (.ranked r)
    unweighed.FailsWith (Acceptor.ofStart (.ofNumber 0)) (.missingWeight "PreferB") ∧
      ∃ n tied, r.Tied n tied ∧ (∀ a ∈ tied, a ∈ b.names) ∧
        tying.FailsWith Toy.contextAcceptor (.rankTie n tied) := by
  intro b unweighed r tying
  constructor
  · obtain ⟨before, a, after, hnames, hbefore, -, hfails⟩ :=
      (coverage_decides (g := unweighed) rfl (Acceptor.ofStart (.ofNumber 0))).1
        ⟨"NoB", by decide, by decide⟩
    rcases before with _ | ⟨b', before⟩
    · obtain rfl : "PreferB" = a := (List.cons.inj hnames).1
      exact hfails
    · have hnone : unweighed.semantics.covers b' = false := rfl
      cases hnone.symm.trans (hbefore b' List.mem_cons_self)
  · have hcovers : ∀ a ∈ tying.battery.names, tying.semantics.covers a := by decide
    have htie : tying.evaluate Toy.contextAcceptor = .error (.rankTie 1 ["NoB", "PreferB"]) := by
      cbv
    rcases ((coverage_decides (g := tying) rfl Toy.contextAcceptor).2 hcovers).2 r rfl
      with ⟨⟨r', hr'⟩, -⟩ | hties
    · cases hr'.symm.trans htie
    · exact hties

end Grammar

end Violable
