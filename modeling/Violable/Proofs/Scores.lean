import Mathlib.Data.List.Forall2
import Violable.Scoring.Result

/-!
# Scoring first and counting after

A result is counted while the elements are scored, one after another. It is the same to score all
of them first (`ofMarkup_eq`), since what is counted has no bearing on what is tried next
(`foldlM_map`). So a result succeeds if every element has a harmony, and then it counts these
harmonies (`ofMarkup_eq_ok`).
-/

namespace Violable

section Tries

variable {α β γ E : Type} {f : α → Except E β} {l : List α}

theorem map_eq_ok {r : Except E β} {g : β → γ} {c : γ} :
    r.map g = .ok c ↔ ∃ b, r = .ok b ∧ g b = c := by
  cases r <;> simp [Except.map]

theorem map_eq_error {r : Except E β} {g : β → γ} {e : E} : r.map g = .error e ↔ r = .error e := by
  cases r <;> simp [Except.map]

theorem then_eq_ok {r : Except E Unit} {r' : Except E β} {b : β} :
    (do r; r') = .ok b ↔ r = .ok () ∧ r' = .ok b := by
  cases r with
  | error e => simp [bind, Except.bind]
  | ok _ => exact (and_iff_right rfl).symm

/-- Trying every item succeeds if each of the tries does. -/
theorem mapM_eq_ok {l' : List β} :
    l.mapM f = .ok l' ↔ List.Forall₂ (fun a b => f a = .ok b) l l' := by
  induction l generalizing l' with
  | nil => simp [pure, Except.pure, eq_comm]
  | cons a l ih =>
    rw [List.mapM_cons, List.forall₂_cons_left_iff]
    cases ha : f a with
    | error e => simp [bind, Except.bind]
    | ok b =>
      simp only [← ih, Except.ok.injEq]
      cases l.mapM f <;> simp [bind, Except.bind, pure, Except.pure, eq_comm]

theorem forall_exists_of_mapM {l' : List β} (h : l.mapM f = .ok l') :
    (∀ a ∈ l, ∃ b ∈ l', f a = .ok b) ∧ ∀ b ∈ l', ∃ a ∈ l, f a = .ok b := by
  rw [mapM_eq_ok] at h
  induction h with
  | nil => simp
  | cons hab _ ih =>
    refine ⟨List.forall_mem_cons.2 ⟨⟨_, List.mem_cons_self, hab⟩, fun a ha => ?_⟩,
      List.forall_mem_cons.2 ⟨⟨_, List.mem_cons_self, hab⟩, fun b hb => ?_⟩⟩
    · obtain ⟨b, hb, hf⟩ := ih.1 a ha
      exact ⟨b, List.mem_cons_of_mem _ hb, hf⟩
    · obtain ⟨a, ha, hf⟩ := ih.2 b hb
      exact ⟨a, List.mem_cons_of_mem _ ha, hf⟩

theorem exists_mapM : (∃ l', l.mapM f = .ok l') ↔ ∀ a ∈ l, ∃ b, f a = .ok b := by
  constructor
  · rintro ⟨l', h⟩ a ha
    obtain ⟨b, -, hb⟩ := (forall_exists_of_mapM h).1 a ha
    exact ⟨b, hb⟩
  · intro h
    induction l with
    | nil => exact ⟨[], rfl⟩
    | cons a l ih =>
      obtain ⟨⟨b, hb⟩, hl⟩ := List.forall_mem_cons.1 h
      obtain ⟨l', hl'⟩ := ih hl
      exact ⟨b :: l', mapM_eq_ok.2 (.cons hb (mapM_eq_ok.1 hl'))⟩

/-- Trying every item fails as the first try does that fails. -/
theorem mapM_eq_error {e : E} : l.mapM f = .error e ↔ ∃ before a after,
    l = before ++ a :: after ∧ (∀ b ∈ before, ∃ c, f b = .ok c) ∧ f a = .error e := by
  induction l with
  | nil => simp [pure, Except.pure]
  | cons a l ih =>
    rw [List.mapM_cons]
    rcases ha : f a with e' | c
    · constructor
      · intro h
        obtain rfl : e' = e := Except.error.inj h
        exact ⟨[], a, l, rfl, by simp, ha⟩
      · rintro ⟨_ | ⟨b, before⟩, x, after, hl, hbefore, hx⟩
        · obtain ⟨rfl, rfl⟩ := List.cons.inj hl
          obtain rfl := Except.error.inj (ha.symm.trans hx)
          rfl
        · obtain ⟨rfl, -⟩ := List.cons.inj hl
          obtain ⟨c, hc⟩ := hbefore a List.mem_cons_self
          cases ha.symm.trans hc
    · have hrest : (Except.ok c >>= fun c => l.mapM f >>= fun cs => pure (c :: cs)) = .error e ↔
          l.mapM f = .error e := by
        cases l.mapM f <;> simp [bind, Except.bind, pure, Except.pure]
      rw [hrest, ih]
      constructor
      · rintro ⟨before, x, after, rfl, hbefore, hx⟩
        exact ⟨a :: before, x, after, rfl, List.forall_mem_cons.2 ⟨⟨c, ha⟩, hbefore⟩, hx⟩
      · rintro ⟨_ | ⟨b, before⟩, x, after, hl, hbefore, hx⟩
        · obtain ⟨rfl, rfl⟩ := List.cons.inj hl
          cases ha.symm.trans hx
        · obtain ⟨rfl, rfl⟩ := List.cons.inj hl
          exact ⟨before, x, after, rfl, (List.forall_mem_cons.1 hbefore).2, hx⟩

theorem mapM_eq_ok_map {v : α → β} (h : ∀ a ∈ l, f a = .ok (v a)) :
    l.mapM f = .ok (l.map v) := by
  rw [mapM_eq_ok, List.forall₂_map_right_iff, List.forall₂_same]
  exact h

theorem map_eq_map_of_mapM {l' : List β} {g : β → γ} {k : α → γ} (h : l.mapM f = .ok l')
    (hg : ∀ a b, f a = .ok b → g b = k a) : l'.map g = l.map k := by
  rw [mapM_eq_ok] at h
  induction h with
  | nil => rfl
  | cons hab _ ih => rw [List.map_cons, List.map_cons, ih, hg _ _ hab]

theorem map_mapM (f : α → Except E β) (g : β → γ) (l : List α) :
    (l.mapM f).map (List.map g) = l.mapM fun a => (f a).map g := by
  induction l with
  | nil => rfl
  | cons a l ih =>
    rw [List.mapM_cons, List.mapM_cons, ← ih]
    cases f a with
    | error e => rfl
    | ok b => cases l.mapM f <;> rfl

/-- If a step only takes in what a try gave, all can be tried before the first step is taken. -/
theorem foldlM_map (f : α → Except E β) (g : γ → β → γ) (l : List α) (c : γ) :
    l.foldlM (fun c a => (f a).map (g c)) c = (l.mapM f).map (List.foldl g c) := by
  induction l generalizing c with
  | nil => rfl
  | cons a l ih =>
    rw [List.foldlM_cons, List.mapM_cons]
    cases f a with
    | error e => rfl
    | ok b =>
      refine (ih (g c b)).trans ?_
      cases l.mapM f <;> rfl

end Tries

variable {ε H : Type} [Scale H]

theorem Weights.score_mapM (w : Weights H) (marks : SortedSet Mark) :
    w.score marks = (marks.toList.mapM fun m =>
      (w.weight m.constraint).map (· * Scale.ofInt m.value)).map Harmony.sum := by
  have hstep : (fun s (m : Mark) =>
      (w.weight m.constraint).map (s + · * Scale.ofInt m.value)) = fun s m =>
        ((w.weight m.constraint).map (· * Scale.ofInt m.value)).map (s + ·) := by
    funext s m
    cases w.weight m.constraint <;> rfl
  rw [score, hstep, foldlM_map]
  rfl

omit [Scale H] in
theorem Weights.exists_weight {w : Weights H} {name : String} :
    (∃ x, w.weight name = .ok x) ↔ w.contains name := by
  have hcontains : w.contains name = (w.get? name).isSome := rfl
  rw [weight, hcontains]
  cases w.get? name <;> simp

/-- Marks can be scored if every constraint that gave one has a weight. -/
theorem Weights.exists_score {w : Weights H} {marks : SortedSet Mark} :
    (∃ t, w.score marks = .ok t) ↔ ∀ m ∈ marks, w.contains m.constraint := by
  have hworth : ∀ m : Mark, (∃ y, (w.weight m.constraint).map (· * Scale.ofInt m.value) = .ok y) ↔
      w.contains m.constraint := by
    intro m
    simp [← exists_weight, map_eq_ok]
  calc (∃ t, w.score marks = .ok t)
      ↔ ∃ l, (marks.toList.mapM fun m =>
          (w.weight m.constraint).map (· * Scale.ofInt m.value)) = .ok l := by
        simp [score_mapM, map_eq_ok]
    _ ↔ ∀ m ∈ marks.toList, ∃ y,
          (w.weight m.constraint).map (· * Scale.ofInt m.value) = .ok y := exists_mapM
    _ ↔ ∀ m ∈ marks, w.contains m.constraint := forall₂_congr fun m _ => hworth m

theorem Weights.exists_harmony {w : Weights H} {marks : SortedSet Mark} :
    (∃ x, w.harmony marks = .ok x) ↔ ∀ m ∈ marks, w.contains m.constraint := by
  simp [← exists_score, harmony, map_eq_ok]

namespace Semantics

variable {s : Semantics H}

theorem elementHarmony_eq (marks : SortedMap Subnode (SortedSet Mark)) :
    s.elementHarmony marks = (marks.values.mapM s.subnodeHarmony).map Harmony.sum :=
  foldlM_map s.subnodeHarmony (· + ·) marks.values 0

theorem exists_elementHarmony {marks : SortedMap Subnode (SortedSet Mark)} :
    (∃ h, s.elementHarmony marks = .ok h) ↔
      ∀ ms ∈ marks.values, ∃ h, s.subnodeHarmony ms = .ok h := by
  simp [elementHarmony_eq, map_eq_ok, ← exists_mapM]

/-- An entry's element with its harmony. -/
def score (s : Semantics H) (d : Marked ε) : Except ScoringError (ε × H) :=
  (s.elementHarmony d.marks).map (d.element, ·)

theorem score_eq_ok {d : Marked ε} {p : ε × H} :
    s.score d = .ok p ↔ p.1 = d.element ∧ s.elementHarmony d.marks = .ok p.2 := by
  obtain ⟨e, h⟩ := p
  simp only [score, map_eq_ok, Prod.mk.injEq]
  grind

end Semantics

namespace Result

variable {s : Semantics H} {m : Markup ε} {scores : List (ε × H)}

/-- The result that counts elements with their harmonies. -/
def ofScores (scores : List (ε × H)) : Result ε H :=
  let bad := scores.filter (! Harmony.isWellFormed ·.2)
  ⟨Harmony.sum (bad.map (·.2)), bad.map (·.1), scores.length⟩

theorem foldl_record (scores : List (ε × H)) (r : Result ε H) :
    scores.foldl (fun r p => r.record p.1 p.2) r =
      ⟨((scores.filter (! Harmony.isWellFormed ·.2)).map (·.2)).foldl (· + ·) r.total,
        r.illFormed ++ (ofScores scores).illFormed, r.evaluated + scores.length⟩ := by
  induction scores generalizing r with
  | nil => simp [ofScores]
  | cons p scores ih =>
    rw [List.foldl_cons, ih, record]
    by_cases hp : Harmony.isWellFormed p.2 <;> simp [ofScores, hp] <;> omega

theorem ofMarkup_eq (s : Semantics H) (m : Markup ε) :
    ofMarkup s m = (m.entries.mapM s.score).map ofScores := by
  have hstep : (fun (r : Result ε H) (d : Marked ε) =>
      (s.elementHarmony d.marks).map (r.record d.element)) =
        fun r d => (s.score d).map fun p => r.record p.1 p.2 := by
    funext r d
    rw [Semantics.score]
    cases s.elementHarmony d.marks <;> rfl
  have hcount : List.foldl (fun (r : Result ε H) (p : ε × H) => r.record p.1 p.2) empty =
      ofScores := by
    funext scores
    rw [foldl_record]
    simp [ofScores, empty, Harmony.sum]
  rw [ofMarkup, hstep, foldlM_map, hcount]

theorem ofMarkup_eq_ok {r : Result ε H} : ofMarkup s m = .ok r ↔
    ∃ scores, List.Forall₂ (fun d p => s.score d = .ok p) m.entries scores ∧
      ofScores scores = r := by
  rw [ofMarkup_eq, map_eq_ok]
  simp only [mapM_eq_ok]

theorem exists_ofMarkup : (∃ r, ofMarkup s m = .ok r) ↔
    ∀ d ∈ m.entries, ∃ h, s.elementHarmony d.marks = .ok h := by
  have hscore : ∀ d : Marked ε,
      (∃ h, s.elementHarmony d.marks = .ok h) ↔ ∃ p, s.score d = .ok p := by
    intro d
    simp [Semantics.score, map_eq_ok]
  simp only [hscore, ← exists_mapM, ofMarkup_eq, map_eq_ok]
  exact ⟨fun ⟨_, l, hl, _⟩ => ⟨l, hl⟩, fun ⟨l, hl⟩ => ⟨_, l, hl, rfl⟩⟩

end Result

end Violable
