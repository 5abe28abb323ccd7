import Mathlib
import Violable.Proofs.Filing
import Violable.Proofs.Scores
import Violable.Sample.Toy

/-!
# The order of judging

An entry depends on which judges there are, and a markup on which elements are judged; how either
are listed, and whether any of them are listed twice, only changes the order of the entries
(`entries_perm`). The order of the entries decides in which order ill-formed elements are listed
and harmonies added up, and which of several failures is reported, but not whether there is one
(`ofMarkup_perm`).
-/

namespace Violable

variable {ε H : Type}

namespace Evaluator

variable {v v' : Evaluator ε}

/-- The same judges mark an element in the same way. -/
theorem mark_congr (h : ∀ j, j ∈ v.battery ↔ j ∈ v'.battery) (e : ε) : v.mark e = v'.mark e := by
  refine (Marked.files_ofMarks e _).ext (Marked.files_ofMarks e _) ?_ fun m _ => ?_
  · exact (Marked.element_ofMarks e _).trans (Marked.element_ofMarks e _).symm
  · simp only [Battery.marks, List.mem_map, h]

variable [DecidableEq ε]

theorem entries_perm (hv : ∀ j, j ∈ v.battery ↔ j ∈ v'.battery) (hi : v.ignores = v'.ignores)
    {l l' : List ε} (hl : ∀ e, e ∈ l ↔ e ∈ l') :
    (v.eval l).entries.Perm (v'.eval l').entries := by
  have helements : (l.filter (! v.ignores ·)).eraseDups.Perm
      (l'.filter (! v'.ignores ·)).eraseDups := by
    rw [List.perm_ext_iff_of_nodup (nodup_eraseDups _) (nodup_eraseDups _)]
    intro e
    simp only [List.mem_eraseDups, List.mem_filter, hl, hi]
  have hmark : v.mark = v'.mark := funext fun e => mark_congr hv e
  rw [entries_eval_eraseDups, entries_eval_eraseDups, hmark]
  exact helements.map v'.mark

theorem get?_eval (l : List ε) (e : ε) : (v.eval l).get? e =
    if e ∈ l ∧ v.ignores e = false then some (v.mark e) else none := by
  have hfind : ∀ l : List ε, (l.map v.mark).find? (·.element = e) =
      if e ∈ l then some (v.mark e) else none := by
    intro l
    induction l with
    | nil => rfl
    | cons a l ih =>
      have helement : (v.mark a).element = a := Marked.element_ofMarks a _
      rw [List.map_cons, List.find?_cons, helement, ih]
      by_cases ha : a = e <;> simp [ha, eq_comm (a := e)]
  rw [Markup.get?, entries_eval_eraseDups, hfind]
  simp

end Evaluator

namespace Result

variable [Scale H] {s : Semantics H}

theorem ofScores_perm {scores scores' : List (ε × H)} (h : scores.Perm scores') :
    (ofScores scores).illFormed.Perm (ofScores scores').illFormed ∧
      (ofScores scores).evaluated = (ofScores scores').evaluated ∧
      ((∀ x y z : H, x + y + z = x + z + y) →
        (ofScores scores).total = (ofScores scores').total) := by
  have hbad := h.filter (! Harmony.isWellFormed ·.2)
  refine ⟨hbad.map _, h.length_eq, fun hadd => ?_⟩
  have : RightCommutative fun x y : H => x + y := ⟨hadd⟩
  exact (hbad.map _).foldl_eq 0

theorem ofMarkup_perm {m m' : Markup ε} (h : m.entries.Perm m'.entries) {r : Result ε H}
    (hr : ofMarkup s m = .ok r) : ∃ r', ofMarkup s m' = .ok r' ∧
      r.illFormed.Perm r'.illFormed ∧ r.evaluated = r'.evaluated ∧
      ((∀ x y z : H, x + y + z = x + z + y) → r.total = r'.total) := by
  obtain ⟨scores, hscores, rfl⟩ := ofMarkup_eq_ok.1 hr
  obtain ⟨scores', hscores', hperm⟩ := List.perm_comp_forall₂ h.symm hscores
  exact ⟨_, ofMarkup_eq_ok.2 ⟨scores', hscores', rfl⟩, ofScores_perm hperm.symm⟩

end Result

/-- How judges and elements are listed, and whether any are listed twice, makes no difference to
what is judged of each element, nor to the result as far as it does not show the order. -/
theorem result_of_same_lists [DecidableEq ε] [Scale H] {b b' : Battery ε} {l l' : List ε}
    (hb : ∀ j, j ∈ b ↔ j ∈ b') (hl : ∀ e, e ∈ l ↔ e ∈ l') (ignores : ε → Bool)
    (s : Semantics H) :
    let m := Evaluator.eval ⟨b, ignores⟩ l
    let m' := Evaluator.eval ⟨b', ignores⟩ l'
    (∀ e, m.get? e = m'.get? e) ∧
      ((∃ r, Result.ofMarkup s m = .ok r) ↔ ∃ r', Result.ofMarkup s m' = .ok r') ∧
      ∀ r r', Result.ofMarkup s m = .ok r → Result.ofMarkup s m' = .ok r' →
        (∀ e, e ∈ r.illFormed ↔ e ∈ r'.illFormed) ∧ r.evaluated = r'.evaluated ∧
          ((∀ x y z : H, x + y + z = x + z + y) → r.total = r'.total) := by
  intro m m'
  have hignores : Evaluator.ignores ⟨b, ignores⟩ = Evaluator.ignores ⟨b', ignores⟩ := rfl
  have hperm : m.entries.Perm m'.entries := Evaluator.entries_perm hb hignores hl
  have hmark : ∀ e, Evaluator.mark ⟨b, ignores⟩ e = Evaluator.mark ⟨b', ignores⟩ e :=
    Evaluator.mark_congr hb
  refine ⟨fun e => ?_, ⟨fun ⟨r, hr⟩ => ?_, fun ⟨r', hr'⟩ => ?_⟩, fun r r' hr hr' => ?_⟩
  · rw [Evaluator.get?_eval, Evaluator.get?_eval, hmark]
    simp only [hl]
  · obtain ⟨r', hr', -⟩ := Result.ofMarkup_perm hperm hr
    exact ⟨r', hr'⟩
  · obtain ⟨r, hr, -⟩ := Result.ofMarkup_perm hperm.symm hr'
    exact ⟨r, hr⟩
  · obtain ⟨r'', hr'', hbad, hsize, htotal⟩ := Result.ofMarkup_perm hperm hr
    obtain rfl := Except.ok.inj (hr'.symm.trans hr'')
    exact ⟨fun e => hbad.mem_iff, hsize, htotal⟩

/-- A judge of single segments who minds only `b`. -/
def Toy.onB (name : String) (value : Int) : Judge String :=
  ⟨name, fun s => ⟨name, if s = "b" then value else 0, .root⟩⟩

theorem result_of_same_lists_onB :
    let m := Evaluator.eval ⟨[Toy.onB "NoB" (-1), Toy.onB "PreferB" 1], (· = "c")⟩
      ["b", "a", "c", "b"]
    let m' := Evaluator.eval
      ⟨[Toy.onB "PreferB" 1, Toy.onB "NoB" (-1), Toy.onB "PreferB" 1], (· = "c")⟩
      ["c", "a", "b", "c"]
    Result.ofMarkup Toy.semantics m = .ok ⟨-2, ["b"], 2⟩ ∧ (∀ e, m.get? e = m'.get? e) ∧
      ∃ r', Result.ofMarkup Toy.semantics m' = .ok r' ∧ (∀ e, e ∈ ["b"] ↔ e ∈ r'.illFormed) ∧
        2 = r'.evaluated ∧ -2 = r'.total := by
  have hr : Result.ofMarkup Toy.semantics (Evaluator.eval
      ⟨[Toy.onB "NoB" (-1), Toy.onB "PreferB" 1], (· = "c")⟩ ["b", "a", "c", "b"]) =
        .ok ⟨-2, ["b"], 2⟩ := by cbv
  have hb : ∀ j, j ∈ [Toy.onB "NoB" (-1), Toy.onB "PreferB" 1] ↔
      j ∈ [Toy.onB "PreferB" 1, Toy.onB "NoB" (-1), Toy.onB "PreferB" 1] := by
    intro j
    simp only [List.mem_cons, List.not_mem_nil, or_false]
    grind
  have hl : ∀ e, e ∈ ["b", "a", "c", "b"] ↔ e ∈ ["c", "a", "b", "c"] := by
    intro e
    simp only [List.mem_cons, List.not_mem_nil, or_false]
    grind
  obtain ⟨hget, hok, hsame⟩ := result_of_same_lists hb hl (· = "c") Toy.semantics
  obtain ⟨r', hr'⟩ := hok.1 ⟨_, hr⟩
  obtain ⟨hbad, hsize, htotal⟩ := hsame _ r' hr hr'
  exact ⟨hr, hget, r', hr', hbad, hsize, htotal add_right_comm⟩

end Violable
