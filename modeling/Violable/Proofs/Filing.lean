import Mathlib.Data.List.Induction
import Violable.Proofs.Judging

/-!
# Filing marks

What an entry has on a subnode is the set of the marks that were added there (`Files`), so neither
their order counts nor how often one is added. An element that is judged again adds only marks that
its entry already has. So a markup has one entry for each element, with the marks of one judgement,
in the order in which the elements are first met (`entries_eval_eraseDups`).
-/

namespace Violable

theorem eraseDups_concat {α : Type} [DecidableEq α] (l : List α) (a : α) :
    (l ++ [a]).eraseDups = if a ∈ l then l.eraseDups else l.eraseDups ++ [a] := by
  rw [List.eraseDups_append]
  by_cases ha : a ∈ l <;> simp [ha, List.removeAll, List.eraseDups_cons]

theorem nodup_eraseDups {α : Type} [DecidableEq α] (l : List α) : l.eraseDups.Nodup := by
  induction l using List.reverseRecOn with
  | nil => exact List.nodup_nil
  | append_singleton l a ih =>
    rw [eraseDups_concat]
    split <;> rename_i ha
    · exact ih
    · rw [List.nodup_append]
      refine ⟨ih, by simp, fun b hb c hc hbc => ha ?_⟩
      rw [← List.mem_singleton.1 hc, ← hbc]
      exact List.mem_eraseDups.1 hb

/-- What each step of a fold keeps, told of the items met so far, holds of all items in the end. -/
theorem foldl_prefix {α β : Type} {P : List α → β → Prop} {f : β → α → β}
    (hstep : ∀ {met b}, P met b → ∀ a, P (met ++ [a]) (f b a)) {met : List α} {b : β}
    (h : P met b) (more : List α) : P (met ++ more) (more.foldl f b) := by
  induction more generalizing met b with
  | nil => rwa [List.append_nil]
  | cons a more ih =>
    rw [List.append_cons]
    exact ih (hstep h a)

/-- The marks of a list that are filed under a subnode. -/
def filedUnder (p : Subnode) (marks : List Mark) : List Mark :=
  marks.filter fun m => ! m.isZero && m.subnode = p

/-- What an entry has on a subnode after marks are added: a set that is not empty, or none. -/
def filing (marks : List Mark) (p : Subnode) : Option (SortedSet Mark) :=
  if filedUnder p marks = [] then none else some (SortedSet.ofList (filedUnder p marks))

section Filing

variable {marks marks' : List Mark} {m : Mark} {p : Subnode}

theorem mem_filedUnder : m ∈ filedUnder p marks ↔ m ∈ marks ∧ m.isZero = false ∧ m.subnode = p := by
  simp [filedUnder]

theorem filing_eq_some {ms : SortedSet Mark} : filing marks p = some ms ↔
    filedUnder p marks ≠ [] ∧ SortedSet.ofList (filedUnder p marks) = ms := by
  rw [filing]
  split <;> simp_all

/-- Which marks there are counts, not how they are listed. -/
theorem filing_congr (h : ∀ m, m.isZero = false → (m ∈ marks ↔ m ∈ marks')) :
    filing marks p = filing marks' p := by
  have hmem : ∀ m, m ∈ filedUnder p marks ↔ m ∈ filedUnder p marks' := by
    intro m
    simp only [mem_filedUnder]
    exact ⟨fun ⟨hm, hf⟩ => ⟨(h m hf.1).1 hm, hf⟩, fun ⟨hm, hf⟩ => ⟨(h m hf.1).2 hm, hf⟩⟩
  have hnil : filedUnder p marks = [] ↔ filedUnder p marks' = [] := by
    simp only [List.eq_nil_iff_forall_not_mem, hmem]
  have hset : SortedSet.ofList (filedUnder p marks) = SortedSet.ofList (filedUnder p marks') := by
    ext m
    simp only [SortedSet.mem_ofList, hmem]
  rw [filing, filing, hset]
  simp only [hnil]

/-- A mark that is added joins those on its subnode, and no others. -/
theorem filing_append (marks : List Mark) (m : Mark) (p : Subnode) : filing (marks ++ [m]) p =
    if m.isZero = false ∧ p = m.subnode then some (((filing marks p).getD ∅).insert m)
    else filing marks p := by
  have hfiled : filedUnder p (marks ++ [m]) = filedUnder p marks ++ filedUnder p [m] :=
    List.filter_append ..
  split <;> rename_i hm
  · have hone : filedUnder p [m] = [m] := by simp [filedUnder, hm.1, hm.2]
    rw [filing_eq_some, hfiled, hone]
    refine ⟨by simp, ?_⟩
    ext x
    rw [filing]
    split <;> simp_all [or_comm]
  · have hnone : filedUnder p [m] = [] := by
      rw [List.eq_nil_iff_forall_not_mem]
      rintro x hx
      obtain ⟨hx, hzero, hp⟩ := mem_filedUnder.1 hx
      obtain rfl := List.mem_singleton.1 hx
      exact hm ⟨hzero, hp.symm⟩
    rw [filing, filing, hfiled, hnone, List.append_nil]

end Filing

namespace Marked

variable {ε : Type} {d d' : Marked ε} {marks marks' : List Mark}

/-- An entry has the marks of a list, each on its own subnode. -/
def Files (d : Marked ε) (marks : List Mark) : Prop :=
  ∀ p, d.marks.get? p = filing marks p

theorem files_unmarked (e : ε) : (unmarked e).Files [] := fun _ => rfl

theorem Files.add (h : d.Files marks) (m : Mark) : (d.add m).Files (marks ++ [m]) := by
  intro p
  rw [filing_append, Marked.add]
  by_cases hm : m.isZero
  · simp [hm, h p]
  · by_cases hp : p = m.subnode
    · subst hp
      simp [hm, h m.subnode]
    · simp [hm, hp, h p]

theorem Files.addAll (h : d.Files marks) (more : List Mark) :
    (d.addAll more).Files (marks ++ more) :=
  foldl_prefix (P := fun met d => Files d met) (fun h m => h.add m) h more

theorem files_ofMarks (e : ε) (marks : List Mark) : (ofMarks e marks).Files marks :=
  (files_unmarked e).addAll marks

/-- What is filed does not depend on the element. -/
theorem marks_ofMarks {ε' : Type} (e : ε) (e' : ε') (marks : List Mark) :
    (ofMarks e marks).marks = (ofMarks e' marks).marks :=
  SortedMap.ext fun p => (files_ofMarks e marks p).trans (files_ofMarks e' marks p).symm

/-- Which marks are filed counts, not how they are listed, and those that are zero do not count. -/
theorem Files.congr (h : d.Files marks) (hm : ∀ m, m.isZero = false → (m ∈ marks ↔ m ∈ marks')) :
    d.Files marks' :=
  fun p => (h p).trans (filing_congr hm)

theorem Files.mem_allMarks (h : d.Files marks) {m : Mark} :
    m ∈ d.allMarks ↔ m ∈ marks ∧ m.isZero = false := by
  have hentries : m ∈ d.allMarks ↔ ∃ p ms, d.marks.get? p = some ms ∧ m ∈ ms := by
    simp only [allMarks, SortedMap.values, List.mem_flatMap, List.mem_map,
      SortedMap.get?_eq_some_iff]
    constructor
    · rintro ⟨_, ⟨⟨p, ms⟩, hp, rfl⟩, hm⟩
      exact ⟨p, ms, hp, hm⟩
    · rintro ⟨p, ms, hp, hm⟩
      exact ⟨ms, ⟨_, hp, rfl⟩, hm⟩
  simp only [hentries, h _, filing_eq_some]
  constructor
  · rintro ⟨p, _, ⟨-, rfl⟩, hm⟩
    obtain ⟨hm, hzero, -⟩ := mem_filedUnder.1 (SortedSet.mem_ofList.1 hm)
    exact ⟨hm, hzero⟩
  · rintro ⟨hm, hzero⟩
    have hfiled : m ∈ filedUnder m.subnode marks := mem_filedUnder.2 ⟨hm, hzero, rfl⟩
    exact ⟨m.subnode, _, ⟨List.ne_nil_of_mem hfiled, rfl⟩, SortedSet.mem_ofList.2 hfiled⟩

theorem Files.ext (h : d.Files marks) (h' : d'.Files marks') (he : d.element = d'.element)
    (hm : ∀ m, m.isZero = false → (m ∈ marks ↔ m ∈ marks')) : d = d' := by
  have hmarks : d.marks = d'.marks := SortedMap.ext fun p => by rw [h p, h' p, filing_congr hm]
  obtain ⟨e, ms⟩ := d
  obtain ⟨e', ms'⟩ := d'
  obtain rfl : e = e' := he
  obtain rfl : ms = ms' := hmarks
  rfl

/-- Marks that an entry has already change nothing. -/
theorem Files.addAll_allMarks (h : d.Files marks) : d.addAll d.allMarks = d := by
  refine (h.addAll d.allMarks).ext h (element_addAll d _) fun m hm => ?_
  rw [List.mem_append, h.mem_allMarks, or_iff_left_iff_imp]
  exact And.left

end Marked

namespace Markup

variable {ε : Type} [DecidableEq ε] {m : Markup ε}

/-- A new element comes after those that were judged before. -/
theorem map_element_insert {judged : List ε} (h : m.entries.map (·.element) = judged.eraseDups)
    (e : ε) (marks : List Mark) :
    (m.insert (.ofMarks e marks)).entries.map (·.element) = (judged ++ [e]).eraseDups := by
  rw [eraseDups_concat, insert, map_element_insertInto, Marked.element_ofMarks, h]
  simp only [List.mem_eraseDups]

theorem get?_of_mem (h : (m.entries.map (·.element)).Nodup) {d : Marked ε} (hd : d ∈ m.entries) :
    m.get? d.element = some d := by
  rw [get?]
  generalize m.entries = l at h hd
  induction l with
  | nil => cases hd
  | cons c l ih =>
    rw [List.map_cons, List.nodup_cons] at h
    rcases List.mem_cons.1 hd with rfl | hd
    · simp
    · have hne : c.element ≠ d.element := fun hc => h.1 (hc ▸ List.mem_map_of_mem hd)
      rw [List.find?_cons_of_neg (by simpa using hne), ih h.2 hd]

end Markup

namespace Evaluator

variable {ε : Type} [DecidableEq ε] (v : Evaluator ε)

theorem insertInto_mark (e : ε) (l : List ε) : Markup.insertInto (v.mark e) (l.map v.mark) =
    (if e ∈ l then l else l ++ [e]).map v.mark := by
  induction l with
  | nil => rfl
  | cons a l ih =>
    have helement : ∀ x, (v.mark x).element = x := fun x => Marked.element_ofMarks x _
    rw [List.map_cons, Markup.insertInto, helement, helement]
    split <;> rename_i ha
    · subst ha
      have hself : (v.mark a).addAll (v.mark a).allMarks = v.mark a :=
        (Marked.files_ofMarks a (v.battery.marks a)).addAll_allMarks
      simp [hself]
    · rw [ih]
      have hne : e ≠ a := fun h => ha h.symm
      by_cases hl : e ∈ l <;> simp [hl, hne]

theorem file_mark (l : List ε) :
    Markup.file [] (l.map v.mark) = l.eraseDups.map v.mark := by
  induction l using List.reverseRecOn with
  | nil => rfl
  | append_singleton l e ih =>
    rw [List.map_append, Markup.file, List.foldl_append]
    refine (congrArg (Markup.insertInto (v.mark e)) ih).trans ?_
    rw [insertInto_mark, eraseDups_concat]
    by_cases he : e ∈ l <;> simp [he]

/-- Each element that is not ignored has one entry, in the place where it is first met, with the
marks that it has on its own. -/
theorem entries_eval_eraseDups (l : List ε) :
    (v.eval l).entries = (l.filter (! v.ignores ·)).eraseDups.map v.mark := by
  rw [eval_eq, filterMap_mark?, file_mark]

end Evaluator

end Violable
