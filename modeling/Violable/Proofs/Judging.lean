import Violable.Grammar.Basic
import Violable.Proofs.Scores

/-!
# What a grammar finds ill-formed

The elements that are not ignored are marked and filed one after another, whether they are judged
one by one or all at once (`parEval_eq_eval`). Where no element comes twice, each is filed with its
own marks alone (`entries_eval`). The result then lists those whose marks penalize them
(`illFormed_ofMarkup`), so an element of a candidate escapes the list exactly if it passes the
grammar on its own (`mem_illFormed`).
-/

namespace Violable

variable {ε H : Type}

namespace Markup

variable [DecidableEq ε]

/-- The entries after more of them are filed one after another. -/
def file (entries more : List (Marked ε)) : List (Marked ε) :=
  more.foldl (fun entries d => insertInto d entries) entries

theorem foldl_insert (more : List (Marked ε)) (m : Markup ε) :
    more.foldl insert m = ⟨file m.entries more, m.ignored⟩ := by
  induction more generalizing m with
  | nil => rfl
  | cons d more ih =>
    rw [List.foldl_cons, ih]
    rfl

theorem insertInto_of_notMem {d : Marked ε} {l : List (Marked ε)}
    (h : ∀ c ∈ l, c.element ≠ d.element) : insertInto d l = l ++ [d] := by
  induction l with
  | nil => rfl
  | cons c l ih =>
    rw [insertInto, if_neg (h c List.mem_cons_self),
      ih fun c' hc' => h c' (List.mem_cons_of_mem _ hc'), List.cons_append]

theorem file_of_nodup {entries more : List (Marked ε)}
    (h : ((entries ++ more).map (·.element)).Nodup) : file entries more = entries ++ more := by
  induction more generalizing entries with
  | nil => rw [List.append_nil, file, List.foldl_nil]
  | cons d more ih =>
    have hd : insertInto d entries = entries ++ [d] := by
      refine insertInto_of_notMem fun c hc he => ?_
      rw [List.map_append, List.nodup_append] at h
      exact h.2.2 _ (List.mem_map_of_mem hc) _ (List.mem_map_of_mem List.mem_cons_self) he
    have happ : entries ++ d :: more = (entries ++ [d]) ++ more := by
      rw [List.append_assoc, List.singleton_append]
    rw [file, List.foldl_cons, hd, happ]
    exact ih (happ ▸ h)

end Markup

theorem Marked.element_addAll (d : Marked ε) (marks : List Mark) :
    (d.addAll marks).element = d.element := by
  induction marks generalizing d with
  | nil => rfl
  | cons m marks ih =>
    rw [addAll, List.foldl_cons]
    refine (ih (d.add m)).trans ?_
    rw [add]
    split <;> rfl

theorem Marked.element_ofMarks (e : ε) (marks : List Mark) : (ofMarks e marks).element = e :=
  element_addAll _ marks

theorem Markup.map_element_insertInto [DecidableEq ε] (d : Marked ε) (l : List (Marked ε)) :
    (insertInto d l).map (·.element) = if d.element ∈ l.map (·.element) then l.map (·.element)
      else l.map (·.element) ++ [d.element] := by
  induction l with
  | nil => rfl
  | cons c l ih =>
    unfold insertInto
    by_cases hc : c.element = d.element
    · simp [hc, Marked.element_addAll]
    · rw [if_neg hc, List.map_cons, ih, List.map_cons]
      have hne : d.element ≠ c.element := fun h => hc h.symm
      by_cases hl : d.element ∈ l.map (·.element) <;> simp [hl, hne]

/-- What is done in tasks comes back in order. -/
theorem map_get_spawn {α β : Type} (f : α → β) (l : List α) :
    (l.map fun a => Task.spawn fun _ => f a).map Task.get = l.map f := by
  rw [List.map_map]
  rfl

namespace Evaluator

variable [DecidableEq ε] (v : Evaluator ε)

omit [DecidableEq ε] in
/-- A run that counts the elements that are ignored and files the judgements of the others has, in
the end, filed all judgements in order and counted all that is ignored, whatever it files them in. -/
theorem foldl_next {β σ : Type} (state : β → Nat → σ) (file : β → Marked ε → β) {next : σ → ε → σ}
    (hskip : ∀ b n e, v.ignores e → next (state b n) e = state b (n + 1))
    (hfile : ∀ b n e, ¬ v.ignores e → next (state b n) e = state (file b (v.mark e)) n)
    (l : List ε) (b : β) (n : Nat) : l.foldl next (state b n) =
      state ((l.filterMap v.mark?).foldl file b) (n + (l.filter v.ignores).length) := by
  induction l generalizing b n with
  | nil => rfl
  | cons e l ih =>
    rw [List.foldl_cons]
    by_cases he : v.ignores e
    · have hmark : v.mark? e = none := by rw [mark?, if_pos he]
      rw [hskip b n e he, ih, List.filterMap_cons_none hmark, List.filter_cons_of_pos he,
        List.length_cons, Nat.add_assoc, Nat.add_comm 1]
    · have hmark : v.mark? e = some (v.mark e) := by rw [mark?, if_neg he]
      rw [hfile b n e he, ih, List.filterMap_cons_some hmark, List.filter_cons_of_neg he,
        List.foldl_cons]

theorem eval_eq (l : List ε) : v.eval l =
    ⟨Markup.file [] (l.filterMap v.mark?), (l.filter v.ignores).length⟩ := by
  have hrun : l.foldl v.step ⟨[], 0⟩ =
      ⟨Markup.file [] (l.filterMap v.mark?), 0 + (l.filter v.ignores).length⟩ :=
    v.foldl_next Markup.mk (fun entries d => Markup.insertInto d entries)
      (fun _ _ _ he => if_pos he) (fun _ _ _ he => if_neg he) l [] 0
  rw [Nat.zero_add] at hrun
  exact hrun

omit [DecidableEq ε] in
theorem filterMap_id_judgements (l : List ε) :
    (l.map v.mark?).filterMap id = l.filterMap v.mark? := by
  rw [List.filterMap_map]
  rfl

omit [DecidableEq ε] in
/-- The elements without a judgement are those that are ignored. -/
theorem length_filter_isNone (l : List ε) :
    ((l.map v.mark?).filter (·.isNone)).length = (l.filter v.ignores).length := by
  have hnone : (·.isNone) ∘ v.mark? = v.ignores := by
    funext e
    by_cases he : v.ignores e <;> simp [mark?, he]
  rw [List.filter_map, List.length_map, hnone]

theorem parEval_eq_eval (l : List ε) : v.parEval l = v.eval l := by
  rw [eval_eq, parEval, map_get_spawn, filterMap_id_judgements, length_filter_isNone, Markup.ofList,
    Markup.foldl_insert]
  rfl

omit [DecidableEq ε] in
theorem filterMap_mark? (l : List ε) :
    l.filterMap v.mark? = (l.filter (! v.ignores ·)).map v.mark := by
  induction l with
  | nil => rfl
  | cons e l ih => by_cases he : v.ignores e <;> simp [mark?, he, ih]

omit [DecidableEq ε] in
theorem map_element_mark (l : List ε) : (l.map v.mark).map (·.element) = l := by
  rw [List.map_map]
  exact List.map_id'' (fun e => Marked.element_ofMarks e (v.battery.marks e)) l

/-- Elements that come only once are filed in order, each with its own marks alone. -/
theorem entries_eval {l : List ε} (h : l.Nodup) :
    (v.eval l).entries = (l.filter (! v.ignores ·)).map v.mark := by
  rw [eval_eq, filterMap_mark?]
  exact Markup.file_of_nodup (by rw [List.nil_append, map_element_mark]; exact h.filter _)

end Evaluator

variable [Scale H]

/-- The marks have a harmony, and nothing is penalized. -/
def Semantics.clears (s : Semantics H) (marks : SortedMap Subnode (SortedSet Mark)) : Bool :=
  match s.elementHarmony marks with
  | .ok h => Harmony.isWellFormed h
  | .error _ => false

theorem Semantics.clears_iff {s : Semantics H} {marks : SortedMap Subnode (SortedSet Mark)} :
    s.clears marks ↔ ∃ h, s.elementHarmony marks = .ok h ∧ Harmony.isWellFormed h := by
  rw [clears]
  cases s.elementHarmony marks <;> simp

namespace Result

variable {s : Semantics H}

theorem illFormed_ofScores {l : List (Marked ε)} {scores : List (ε × H)}
    (h : List.Forall₂ (fun d p => s.score d = .ok p) l scores) :
    (ofScores scores).illFormed = (l.filter (! s.clears ·.marks)).map (·.element) := by
  rw [ofScores]
  induction h with
  | nil => rfl
  | @cons d p l scores hp _ ih =>
    obtain ⟨he, hh⟩ := Semantics.score_eq_ok.1 hp
    have hclears : s.clears d.marks = Harmony.isWellFormed p.2 := by rw [Semantics.clears, hh]
    by_cases hwell : Harmony.isWellFormed p.2 <;> simp_all

/-- The ill-formed elements are listed in the order of the markup. -/
theorem illFormed_ofMarkup {m : Markup ε} {r : Result ε H} (h : ofMarkup s m = .ok r) :
    r.illFormed = (m.entries.filter (! s.clears ·.marks)).map (·.element) := by
  obtain ⟨scores, hscores, rfl⟩ := ofMarkup_eq_ok.1 h
  exact illFormed_ofScores hscores

end Result

namespace Grammar

variable {σ : Type} [Element ε]

/-- An element passes a grammar if it is ignored, or if it is well-formed by its own marks. -/
def Passes (g : Grammar ε H) (e : ε) : Prop :=
  g.ignored.ignores e ∨
    ∃ h, g.semantics.elementHarmony (Marked.ofMarks e (g.battery.marks e)).marks = .ok h ∧
      Harmony.isWellFormed h

variable [DecidableEq ε] [Candidate σ ε] {g : Grammar ε H} {s : σ}

omit [Scale H] in
theorem markup_eq_eval : g.markup s = g.evaluator.eval (Candidate.elements s) := by
  rw [markup, Evaluator.parEval_eq_eval, ite_self]

theorem evaluate_eq_ok {r : Result ε H} : g.evaluate s = .ok r ↔
    g.checkCoverage = .ok () ∧ Result.ofMarkup g.semantics (g.markup s) = .ok r :=
  then_eq_ok

theorem prune_of_evaluate {r : Result ε H} (h : g.evaluate s = .ok r) :
    g.prune s = .ok ⟨r, Candidate.prune s r.illFormed⟩ := by
  rw [prune, h]
  rfl

theorem candidate_of_prune {p : Pruned σ ε H} (h : g.prune s = .ok p) :
    ∃ r, g.evaluate s = .ok r ∧ p = ⟨r, Candidate.prune s r.illFormed⟩ := by
  rw [prune] at h
  cases hr : g.evaluate s with
  | error e => rw [hr] at h; cases h
  | ok r =>
    rw [hr] at h
    cases h
    exact ⟨r, rfl, rfl⟩

/-- An element is found ill-formed exactly if it does not pass on its own. -/
theorem mem_illFormed {r : Result ε H} (hs : (Candidate.elements s).Nodup)
    (h : g.evaluate s = .ok r) {e : ε} :
    e ∈ r.illFormed ↔ e ∈ Candidate.elements s ∧ ¬ g.Passes e := by
  have hpass : g.Passes e ↔
      g.evaluator.ignores e ∨ g.semantics.clears (g.evaluator.mark e).marks := by
    rw [Semantics.clears_iff]
    rfl
  rw [Result.illFormed_ofMarkup (evaluate_eq_ok.1 h).2, markup_eq_eval,
    Evaluator.entries_eval _ hs, hpass]
  rw [List.filter_map, Evaluator.map_element_mark, List.mem_filter, List.mem_filter]
  simp [and_assoc]

end Grammar

end Violable
