import Mathlib.Data.List.Nodup
import Violable.Proofs.Judging
import Violable.Scoring.IndexedMarkup

/-!
# The index and the entries

The index of a markup has for each element the place where a search finds its entry (`Indexed`).
Inserting keeps it so on both of its ways (`Indexed.insert`), and does to the entries what
inserting by search does (`Indexed.toMarkup_insert`). So whatever is filed, the index and the search
do not come apart (`indexed_foldl`), and an indexed markup of judged elements is the markup of them
(`toMarkup_evalIndexed`).
-/

namespace Violable

variable {ε : Type} [DecidableEq ε]

namespace Markup

/-- Inserting by search changes the entry that the search finds. -/
theorem insertInto_eq (d : Marked ε) (l : List (Marked ε)) :
    insertInto d l = match l.findIdx? (·.element = d.element) with
      | some i => l.modify i (·.addAll d.allMarks)
      | none => l ++ [d] := by
  induction l with
  | nil => rfl
  | cons c l ih =>
    unfold insertInto
    rw [List.findIdx?_cons]
    by_cases hc : c.element = d.element
    · simp [hc]
    · rw [if_neg hc, ih, if_neg (by simpa using hc)]
      cases l.findIdx? (·.element = d.element) with
      | none => rfl
      | some i => exact (List.modify_succ_cons _ c l i).symm

theorem position?_eq (m : Markup ε) (e : ε) :
    m.position? e = (m.entries.map (·.element)).findIdx? (· = e) := by
  rw [position?, List.findIdx?_map]
  rfl

/-- Where each element has one entry, its place is the one at which it stands. -/
theorem position?_eq_some_iff {m : Markup ε} (h : (m.entries.map (·.element)).Nodup) {e : ε}
    {i : Nat} : m.position? e = some i ↔ (m.entries.map (·.element))[i]? = some e := by
  rw [position?_eq, List.findIdx?_eq_some_iff_getElem, List.getElem?_eq_some_iff]
  refine exists_congr fun hi => ?_
  rw [decide_eq_true_iff, and_iff_left_iff_imp]
  rintro rfl j hj hsame
  exact absurd (h.getElem_inj_iff.1 (of_decide_eq_true hsame)) (by omega)

end Markup

variable [Hashable ε]

namespace IndexedMarkup

variable {x : IndexedMarkup ε}

/-- The index has the place of each element's entry. -/
def Indexed (x : IndexedMarkup ε) : Prop := ∀ e, x.index[e]? = x.toMarkup.position? e

theorem indexed_empty : (empty : IndexedMarkup ε).Indexed :=
  fun _ => Std.HashMap.getElem?_empty

namespace Indexed

variable (h : x.Indexed)

include h

theorem toMarkup_insert (d : Marked ε) : (x.insert d).toMarkup = x.toMarkup.insert d := by
  have hd : x.index[d.element]? = x.entries.findIdx? (·.element = d.element) := h d.element
  unfold IndexedMarkup.insert Markup.insert
  rw [hd, Markup.insertInto_eq]
  simp only [toMarkup]
  cases x.entries.findIdx? (·.element = d.element) <;> rfl

/-- Merging moves no entry, and a new entry stands where the index says. -/
theorem insert (d : Marked ε) : (x.insert d).Indexed := by
  intro e
  have hd := h d.element
  rw [h.toMarkup_insert, Markup.position?_eq, Markup.insert, Markup.map_element_insertInto]
  unfold IndexedMarkup.insert
  rw [hd]
  cases hplace : x.toMarkup.position? d.element with
  | some i =>
    have hmem : d.element ∈ x.toMarkup.entries.map (·.element) := by
      rw [Markup.position?_eq, List.findIdx?_eq_some_iff_getElem] at hplace
      obtain ⟨hi, heq, -⟩ := hplace
      rw [← of_decide_eq_true heq]
      exact List.getElem_mem hi
    rw [if_pos hmem, ← Markup.position?_eq]
    exact h e
  | none =>
    have hmem : d.element ∉ x.toMarkup.entries.map (·.element) := by
      rw [Markup.position?_eq, List.findIdx?_eq_none_iff] at hplace
      exact fun hmem => by simpa using hplace _ hmem
    -- the new entry stands behind all others, and the search finds it only if it finds no other
    rw [if_neg hmem, List.findIdx?_append, ← Markup.position?_eq, ← h e]
    show (x.index.insert d.element x.entries.length)[e]? = _
    rw [Std.HashMap.getElem?_insert, List.findIdx?_singleton, List.length_map]
    by_cases he : d.element = e
    · subst he
      rw [hd, hplace]
      simp [toMarkup]
    · simp [he]

theorem get?_eq (e : ε) : x.get? e = x.toMarkup.get? e := by
  rw [IndexedMarkup.get?, Markup.get?, List.find?_eq_bind_findIdx?_getElem?, h e]
  rfl

theorem contains_eq (e : ε) : x.contains e = x.toMarkup.contains e := by
  rw [IndexedMarkup.contains, Std.HashMap.contains_eq_isSome_getElem?, h e, Markup.contains,
    Markup.position?, Markup.get?, List.findIdx?_isSome, List.isSome_find?]

end Indexed

/-- However many entries are inserted, the index and the entries stay together. -/
theorem indexed_foldl (h : x.Indexed) (l : List (Marked ε)) :
    (l.foldl insert x).Indexed ∧
      (l.foldl insert x).toMarkup = l.foldl Markup.insert x.toMarkup := by
  induction l generalizing x with
  | nil => exact ⟨h, rfl⟩
  | cons d l ih =>
    rw [List.foldl_cons, List.foldl_cons, ← h.toMarkup_insert]
    exact ih (h.insert d)

theorem indexed_ofList (l : List (Marked ε)) : (ofList l).Indexed :=
  (indexed_foldl indexed_empty l).1

theorem toMarkup_ofList (l : List (Marked ε)) : (ofList l).toMarkup = Markup.ofList l :=
  (indexed_foldl indexed_empty l).2

theorem Indexed.recordIgnored (h : x.Indexed) (n : Nat) : (x.recordIgnored n).Indexed := h

end IndexedMarkup

namespace Evaluator

variable (v : Evaluator ε)

theorem evalIndexed_eq (l : List ε) : v.evalIndexed l =
    (IndexedMarkup.ofList (l.filterMap v.mark?)).recordIgnored (l.filter v.ignores).length := by
  have hrun : l.foldl v.indexStep (.empty, 0) =
      ((l.filterMap v.mark?).foldl IndexedMarkup.insert .empty,
        0 + (l.filter v.ignores).length) :=
    v.foldl_next Prod.mk IndexedMarkup.insert (fun _ _ _ he => if_pos he)
      (fun _ _ _ he => if_neg he) l .empty 0
  rw [evalIndexed, hrun, Nat.zero_add]
  rfl

theorem indexed_evalIndexed (l : List ε) : (v.evalIndexed l).Indexed := by
  rw [evalIndexed_eq]
  exact (IndexedMarkup.indexed_ofList _).recordIgnored _

theorem toMarkup_evalIndexed (l : List ε) : (v.evalIndexed l).toMarkup = v.eval l := by
  have hentries : (IndexedMarkup.ofList (l.filterMap v.mark?)).entries =
      (Markup.ofList (l.filterMap v.mark?)).entries :=
    congrArg Markup.entries (IndexedMarkup.toMarkup_ofList _)
  have hignored : (IndexedMarkup.ofList (l.filterMap v.mark?)).ignored =
      (Markup.ofList (l.filterMap v.mark?)).ignored :=
    congrArg Markup.ignored (IndexedMarkup.toMarkup_ofList _)
  rw [evalIndexed_eq, IndexedMarkup.toMarkup, IndexedMarkup.recordIgnored, hentries, hignored,
    Markup.ofList, Markup.foldl_insert, eval_eq]
  simp only [Markup.empty, Nat.zero_add]

end Evaluator

end Violable
