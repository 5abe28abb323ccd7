import Violable.Proofs.Index
import Violable.Proofs.Reordering

/-!
# What a markup holds

A markup holds what was filed in it: it has an entry for each element, in the place where the
element was first filed, with the marks that were filed for the element in all. Each filing keeps it
so (`Holds.insert`), whether it begins an entry or adds to one. So what is counted and listed over
the entries can be told from what was filed (`markCount_eq`, `markedCount_eq`,
`mem_constraintNames`).
-/

namespace Violable

variable {ε : Type}

theorem Marked.markCount_eq_length (d : Marked ε) : d.markCount = d.allMarks.length := by
  rw [allMarks, List.length_flatMap]
  rfl

namespace Marked.Files

variable {d : Marked ε} {marks : List Mark} (h : d.Files marks)

include h

/-- Marks are under their own subnode, and no subnode is without marks. -/
theorem on_subnode {p : Subnode} {ms : SortedSet Mark} (hms : d.marks.get? p = some ms) :
    ms.toList ≠ [] ∧ ∀ y ∈ ms, y.isZero = false ∧ y.subnode = p := by
  rw [h p, filing_eq_some] at hms
  obtain ⟨hne, rfl⟩ := hms
  refine ⟨?_, fun y hy => (mem_filedUnder.1 (SortedSet.mem_ofList.1 hy)).2⟩
  obtain ⟨y, hy⟩ := List.exists_mem_of_ne_nil _ hne
  exact List.ne_nil_of_mem (SortedSet.mem_def.1 (SortedSet.mem_ofList.2 hy))

theorem on_entry {e : Subnode × SortedSet Mark} (he : e ∈ d.marks.entries) :
    e.2.toList ≠ [] ∧ ∀ y ∈ e.2, y.isZero = false ∧ y.subnode = e.1 :=
  h.on_subnode (SortedMap.get?_eq_some_iff.2 he)

theorem nodup_allMarks : d.allMarks.Nodup := by
  rw [allMarks, List.nodup_flatMap, SortedMap.values, List.pairwise_map]
  refine ⟨fun ms _ => ms.nodup, d.marks.increasing.imp_of_mem fun {e e'} he he' hlt => ?_⟩
  intro y hy hy'
  have hp := ((h.on_entry he).2 y hy).2
  have hp' := ((h.on_entry he').2 y hy').2
  exact ne_of_compare_lt hlt (hp.symm.trans hp')

/-- No mark is held twice, so the marks are counted as a set. -/
theorem markCount_eq {s : SortedSet Mark} (hs : ∀ y, y ∈ d.allMarks ↔ y ∈ s) :
    d.markCount = s.size := by
  rw [markCount_eq_length, SortedSet.size]
  exact ((List.perm_ext_iff_of_nodup h.nodup_allMarks s.nodup).2 hs).length_eq

theorem isUnmarked_eq {s : SortedSet Mark} (hs : ∀ y, y ∈ d.allMarks ↔ y ∈ s) :
    d.isUnmarked = s.isEmpty := by
  rw [Bool.eq_iff_iff, isUnmarked, SortedMap.isEmpty, SortedSet.isEmpty, List.isEmpty_iff,
    List.isEmpty_iff]
  constructor
  · intro hnil
    refine List.eq_nil_iff_forall_not_mem.2 fun y hy => ?_
    have hmem := (hs y).2 hy
    simp [allMarks, SortedMap.values, hnil] at hmem
  · intro hnil
    refine List.eq_nil_iff_forall_not_mem.2 fun e he => ?_
    obtain ⟨y, hy⟩ := List.exists_mem_of_ne_nil _ (h.on_entry he).1
    have hmem := (hs y).1 (Marked.mem_allMarks.2 ⟨e.2, List.mem_map_of_mem he, hy⟩)
    rw [SortedSet.mem_def, hnil] at hmem
    cases hmem

end Marked.Files

variable [DecidableEq ε]

/-- All that was filed for an element, as it was filed. -/
def filedFor (filed : List (ε × List Mark)) (e : ε) : List Mark :=
  (filed.filter (·.1 = e)).flatMap (·.2)

/-- The marks that an element was given: all that were filed for it, but those that are zero. -/
def given (filed : List (ε × List Mark)) (e : ε) : SortedSet Mark :=
  SortedSet.ofList ((filedFor filed e).filter (! ·.isZero))

section Given

variable {filed : List (ε × List Mark)} {e : ε} {y : Mark}

theorem mem_filedFor : y ∈ filedFor filed e ↔ ∃ marks, (e, marks) ∈ filed ∧ y ∈ marks := by
  simp only [filedFor, List.mem_flatMap, List.mem_filter, decide_eq_true_iff, Prod.exists]
  constructor
  · rintro ⟨_, marks, ⟨hf, rfl⟩, hy⟩
    exact ⟨marks, hf, hy⟩
  · rintro ⟨marks, hf, hy⟩
    exact ⟨e, marks, ⟨hf, rfl⟩, hy⟩

theorem mem_given : y ∈ given filed e ↔ y ∈ filedFor filed e ∧ y.isZero = false := by
  rw [given, SortedSet.mem_ofList, List.mem_filter, Bool.not_eq_true']

theorem filedFor_concat (marks : List Mark) (a : ε) : filedFor (filed ++ [(a, marks)]) e =
    if a = e then filedFor filed e ++ marks else filedFor filed e := by
  rw [filedFor, List.filter_append, List.flatMap_append]
  by_cases ha : a = e <;> simp [filedFor, ha]

end Given

namespace Markup

variable {m : Markup ε} {filed : List (ε × List Mark)}

theorem mem_insertInto {c d : Marked ε} {l : List (Marked ε)}
    (h : (l.map (·.element)).Nodup) (hc : c ∈ insertInto d l) :
    c.element ≠ d.element ∧ c ∈ l ∨ (∃ b ∈ l, b.element = d.element ∧ c = b.addAll d.allMarks) ∨
      c = d ∧ d.element ∉ l.map (·.element) := by
  induction l with
  | nil => exact .inr (.inr ⟨List.mem_singleton.1 hc, List.not_mem_nil⟩)
  | cons b l ih =>
    rw [List.map_cons, List.nodup_cons] at h
    unfold insertInto at hc
    split at hc <;> rename_i hb
    · rcases List.mem_cons.1 hc with rfl | hc
      · exact .inr (.inl ⟨b, List.mem_cons_self, hb, rfl⟩)
      · refine .inl ⟨fun hne => h.1 ?_, List.mem_cons_of_mem _ hc⟩
        rw [hb, ← hne]
        exact List.mem_map_of_mem hc
    · rcases List.mem_cons.1 hc with rfl | hc
      · exact .inl ⟨hb, List.mem_cons_self⟩
      · rcases ih h.2 hc with ⟨hne, hc⟩ | ⟨a, ha, hea, rfl⟩ | ⟨rfl, hnew⟩
        · exact .inl ⟨hne, List.mem_cons_of_mem _ hc⟩
        · exact .inr (.inl ⟨a, List.mem_cons_of_mem _ ha, hea, rfl⟩)
        · refine .inr (.inr ⟨rfl, ?_⟩)
          rw [List.map_cons, List.mem_cons, not_or]
          exact ⟨fun he => hb he.symm, hnew⟩

/-- Each element that was filed has one entry, in the place where it was first filed, with all marks
that were filed for it. -/
structure Holds (filed : List (ε × List Mark)) (m : Markup ε) : Prop where
  elements : m.entries.map (·.element) = (filed.map (·.1)).eraseDups
  files : ∀ d ∈ m.entries, d.Files (filedFor filed d.element)

theorem holds_empty : Holds [] (empty : Markup ε) :=
  ⟨rfl, fun _ hd => absurd hd List.not_mem_nil⟩

namespace Holds

variable (h : Holds filed m)

include h

theorem nodup : (m.entries.map (·.element)).Nodup :=
  h.elements ▸ nodup_eraseDups _

theorem insert (e : ε) (marks : List Mark) :
    Holds (filed ++ [(e, marks)]) (m.insert (.ofMarks e marks)) := by
  have helement : (Marked.ofMarks e marks).element = e := Marked.element_ofMarks e marks
  refine ⟨?_, fun c hc => ?_⟩
  · rw [List.map_append, List.map_singleton]
    exact map_element_insert h.elements e marks
  rcases mem_insertInto h.nodup hc with ⟨hne, hc⟩ | ⟨b, hb, hbe, rfl⟩ | ⟨rfl, hnew⟩
  · rw [helement] at hne
    rw [filedFor_concat, if_neg hne.symm]
    exact h.files c hc
  · rw [helement] at hbe
    rw [Marked.element_addAll, filedFor_concat, if_pos hbe.symm]
    refine ((h.files b hb).addAll _).congr fun y hy => ?_
    rw [List.mem_append, List.mem_append, (Marked.files_ofMarks e marks).mem_allMarks,
      and_iff_left hy]
  -- nothing was filed so far for an element that has no entry
  · rw [helement, h.elements, List.mem_eraseDups] at hnew
    have hnone : filedFor filed e = [] := by
      refine List.eq_nil_iff_forall_not_mem.2 fun y hy => hnew ?_
      obtain ⟨more, hf, -⟩ := mem_filedFor.1 hy
      exact List.mem_map_of_mem (f := Prod.fst) hf
    rw [helement, filedFor_concat, if_pos rfl, hnone]
    exact Marked.files_ofMarks e marks

theorem foldl (more : List (ε × List Mark)) :
    Holds (filed ++ more) (more.foldl (fun m f => m.insert (.ofMarks f.1 f.2)) m) :=
  foldl_prefix (fun h f => h.insert f.1 f.2) h more

theorem mem_allMarks {d : Marked ε} (hd : d ∈ m.entries) {y : Mark} :
    y ∈ d.allMarks ↔ y ∈ given filed d.element := by
  rw [mem_given, (h.files d hd).mem_allMarks]

theorem exists_entry {e : ε} : (∃ d ∈ m.entries, d.element = e) ↔ e ∈ filed.map (·.1) := by
  rw [← List.mem_eraseDups, ← h.elements, List.mem_map]

theorem get?_eq_some_iff {e : ε} {d : Marked ε} :
    m.get? e = some d ↔ d ∈ m.entries ∧ d.element = e := by
  constructor
  · intro hd
    unfold get? at hd
    exact ⟨List.mem_of_find?_eq_some hd, by simpa using List.find?_some hd⟩
  · rintro ⟨hd, rfl⟩
    exact get?_of_mem h.nodup hd

theorem isSome_get?_iff {e : ε} : (m.get? e).isSome ↔ ∃ marks, (e, marks) ∈ filed := by
  simp only [Option.isSome_iff_exists, h.get?_eq_some_iff, h.exists_entry, List.mem_map,
    Prod.exists, exists_and_right, exists_eq_right]

theorem markCount_eq : m.markCount =
    ((filed.map (·.1)).eraseDups.map fun e => (given filed e).size).sum := by
  rw [← h.elements, List.map_map, markCount]
  exact congrArg List.sum (List.map_congr_left fun d hd =>
    (h.files d hd).markCount_eq fun y => h.mem_allMarks hd)

theorem markedCount_eq : m.markedCount =
    ((filed.map (·.1)).eraseDups.filter fun e => ! (given filed e).isEmpty).length := by
  rw [← h.elements, List.filter_map, List.length_map, markedCount]
  refine congrArg List.length (List.filter_congr fun d hd => congrArg not ?_)
  exact (h.files d hd).isUnmarked_eq fun y => h.mem_allMarks hd

theorem mem_constraintNames {c : String} :
    c ∈ m.constraintNames ↔ ∃ e, ∃ y ∈ given filed e, y.constraint = c := by
  simp only [constraintNames, SortedSet.mem_ofList, List.mem_map, List.mem_flatMap]
  constructor
  · rintro ⟨y, ⟨d, hd, hy⟩, rfl⟩
    exact ⟨d.element, y, (h.mem_allMarks hd).1 hy, rfl⟩
  · rintro ⟨e, y, hy, rfl⟩
    obtain ⟨marks, hf, -⟩ := mem_filedFor.1 (mem_given.1 hy).1
    obtain ⟨d, hd, rfl⟩ := h.exists_entry.2 (List.mem_map_of_mem (f := Prod.fst) hf)
    exact ⟨y, ⟨d, hd, (h.mem_allMarks hd).2 hy⟩, rfl⟩

end Holds

theorem holds_ofList (l : List (ε × List Mark)) :
    Holds l (ofList (l.map fun f => .ofMarks f.1 f.2)) := by
  rw [ofList, List.foldl_map]
  exact holds_empty.foldl l

end Markup

/-- What an evaluator files for elements that it judges. -/
def Evaluator.judgements (v : Evaluator ε) (l : List ε) : List (ε × List Mark) :=
  (l.filter (! v.ignores ·)).map fun e => (e, v.battery.marks e)

theorem Evaluator.holds_eval (v : Evaluator ε) (l : List ε) :
    Markup.Holds (v.judgements l) (v.eval l) := by
  have hfiled : (v.judgements l).map (fun f => Marked.ofMarks f.1 f.2) = l.filterMap v.mark? := by
    rw [judgements, List.map_map, filterMap_mark?]
    rfl
  have hholds := Markup.holds_ofList (v.judgements l)
  rw [hfiled, Markup.ofList, Markup.foldl_insert] at hholds
  rw [eval_eq]
  exact ⟨hholds.elements, hholds.files⟩

variable [Hashable ε]

/-- What was filed, with the indexed markup and the plain one that came of it. Markups are empty, or
put together from a list, or come from an evaluator; and then entries are inserted in them. An entry
has marks added to it one by one, beginning with none. -/
inductive Filed : List (ε × List Mark) → IndexedMarkup ε → Markup ε → Prop
  | empty : Filed [] .empty .empty
  | collect (l : List (ε × List Mark)) : Filed l
      (.ofList (l.map fun f => .ofMarks f.1 f.2)) (.ofList (l.map fun f => .ofMarks f.1 f.2))
  | eval (v : Evaluator ε) (l : List ε) : Filed (v.judgements l) (v.evalIndexed l) (v.eval l)
  | insert {filed : List (ε × List Mark)} {x : IndexedMarkup ε} {m : Markup ε} (e : ε)
      (marks : List Mark) : Filed filed x m →
      Filed (filed ++ [(e, marks)]) (x.insert (.ofMarks e marks)) (m.insert (.ofMarks e marks))

namespace Filed

variable {filed : List (ε × List Mark)} {x : IndexedMarkup ε} {m : Markup ε}

theorem holds (h : Filed filed x m) : m.Holds filed := by
  induction h with
  | empty => exact Markup.holds_empty
  | collect l => exact Markup.holds_ofList l
  | eval v l => exact v.holds_eval l
  | insert e marks _ ih => exact ih.insert e marks

theorem indexed (h : Filed filed x m) : x.Indexed ∧ x.toMarkup = m := by
  induction h with
  | empty => exact ⟨IndexedMarkup.indexed_empty, rfl⟩
  | collect l => exact ⟨IndexedMarkup.indexed_ofList _, IndexedMarkup.toMarkup_ofList _⟩
  | eval v l => exact ⟨v.indexed_evalIndexed l, v.toMarkup_evalIndexed l⟩
  | insert e marks _ ih =>
    obtain ⟨hindexed, rfl⟩ := ih
    exact ⟨hindexed.insert _, hindexed.toMarkup_insert _⟩

end Filed

/-- However a markup comes about, its index has each element of an entry at its own place and
nothing else; each element that was filed has one entry, in the order of their first filings; and
marks are not zero, are under their own subnode, leave no subnode empty, and are together those that
were filed for the element. So entries are found for the elements that were filed, and marks, marked
elements and constraints are counted and listed as they were filed. -/
theorem contents_of_filed {filed : List (ε × List Mark)} {x : IndexedMarkup ε} {m : Markup ε}
    (h : Filed filed x m) :
    x.toMarkup = m ∧
      (∀ (e : ε) (i : Nat), x.index[e]? = some i ↔ (m.entries.map (·.element))[i]? = some e) ∧
      m.entries.map (·.element) = (filed.map (·.1)).eraseDups ∧
      (∀ d ∈ m.entries,
        (∀ p ms, d.marks.get? p = some ms →
          ms.toList ≠ [] ∧ ∀ y ∈ ms, y.isZero = false ∧ y.subnode = p) ∧
        ∀ y, y ∈ d.allMarks ↔ y ∈ given filed d.element) ∧
      (∀ e d, x.get? e = some d ↔ d ∈ m.entries ∧ d.element = e) ∧
      (∀ e, (x.get? e).isSome ↔ ∃ marks, (e, marks) ∈ filed) ∧
      (∀ e, x.contains e = (x.get? e).isSome) ∧
      m.markCount = ((filed.map (·.1)).eraseDups.map fun e => (given filed e).size).sum ∧
      m.markedCount =
        ((filed.map (·.1)).eraseDups.filter fun e => ! (given filed e).isEmpty).length ∧
      ∀ c, c ∈ m.constraintNames ↔ ∃ e, ∃ y ∈ given filed e, y.constraint = c := by
  have hholds := h.holds
  obtain ⟨hindexed, rfl⟩ := h.indexed
  refine ⟨rfl, fun e i => ?_, hholds.elements, fun d hd => ⟨fun p ms => ?_, fun y => ?_⟩,
    fun e d => ?_, fun e => ?_, fun e => ?_, hholds.markCount_eq, hholds.markedCount_eq,
    fun c => hholds.mem_constraintNames⟩
  · rw [hindexed e, Markup.position?_eq_some_iff hholds.nodup]
  · exact (hholds.files d hd).on_subnode
  · exact hholds.mem_allMarks hd
  · rw [hindexed.get?_eq, hholds.get?_eq_some_iff]
  · rw [hindexed.get?_eq, hholds.isSome_get?_iff]
  · rw [hindexed.contains_eq, hindexed.get?_eq]
    rfl

/-- Letters are judged, and later one of them has a mark in its coda and a zero mark added. -/
theorem contents_of_filed_coda :
    let v : Evaluator String := ⟨[Toy.onB "NoB" (-1)], (· = "c")⟩
    let more : List Mark := [⟨"Coda", -1, .named "coda"⟩, ⟨"NoA", 0, .named "coda"⟩]
    let filed := v.judgements ["b", "c", "a", "b"] ++ [("b", more)]
    let x := (v.evalIndexed ["b", "c", "a", "b"]).insert (.ofMarks "b" more)
    let m := (v.eval ["b", "c", "a", "b"]).insert (.ofMarks "b" more)
    Filed filed x m ∧ x.toMarkup = m ∧ m.entries.map (·.element) = ["b", "a"] ∧
      m.markCount = 2 ∧ m.markedCount = 1 ∧ x.index["a"]? = some 1 ∧ x.contains "c" = false := by
  intro v more filed x m
  have h : Filed filed x m := .insert "b" more (.eval v ["b", "c", "a", "b"])
  obtain ⟨hsame, hindex, helements, -, -, hsome, hcontains, hmarks, hmarked, -⟩ :=
    contents_of_filed h
  have hfiled : filed.map (·.1) = ["b", "a", "b", "b"] := by cbv
  have hdedup : (filed.map (·.1)).eraseDups = ["b", "a"] := by rw [hfiled]; decide
  rw [hdedup] at helements hmarks hmarked
  refine ⟨h, hsame, helements, hmarks.trans ?_, hmarked.trans ?_, (hindex "a" 1).2 ?_, ?_⟩
  · cbv
  · cbv
  · rw [helements]
    rfl
  · rw [hcontains, Bool.eq_false_iff, Ne, hsome]
    rintro ⟨marks, hc⟩
    have hc : "c" ∈ filed.map (·.1) := List.mem_map_of_mem (f := Prod.fst) hc
    rw [hfiled] at hc
    revert hc
    decide

end Violable
