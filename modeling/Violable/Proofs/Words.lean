import Violable.Acceptor.Arc

/-!
# The words of a label

What is joined by spaces has the words of each of its parts (`words_intercalate_eq_flatMap`), so
words that are joined are read back as they were (`words_intercalate`). Nothing but words is read
back, whatever the text (`isWord_of_mem_words`). So the label of a state tells the context that it
remembers exactly if the symbols of the context are words (`symbols_ofContext_iff`), and different
contexts of this kind have different states (`ofContext_inj`).
-/

namespace Violable

namespace Text

/-- A text that is a single word: it is not empty, and none of its characters is blank. -/
structure IsWord (s : String) : Prop where
  ne_empty : s ≠ ""
  notBlank : ∀ c ∈ s.toList, isBlank c = false

instance (s : String) : Decidable (IsWord s) :=
  decidable_of_iff (s ≠ "" ∧ s.toList.all (!isBlank ·) = true)
    ⟨fun h => ⟨h.1, by simpa using h.2⟩, fun h => ⟨h.ne_empty, by simpa using h.notBlank⟩⟩

theorem isBlank_space : isBlank ' ' = true := by decide

theorem wordsAfter_append {cs : List Char} (h : ∀ c ∈ cs, isBlank c = false)
    (word rest : List Char) :
    wordsAfter word (cs ++ rest) = wordsAfter (cs.reverse ++ word) rest := by
  induction cs generalizing word with
  | nil => rfl
  | cons c cs ih =>
    rw [List.forall_mem_cons] at h
    rw [List.cons_append, wordsAfter, h.1, if_neg Bool.false_ne_true, ih h.2, List.reverse_cons,
      List.append_assoc, List.singleton_append]

theorem wordsAfter_last {cs : List Char} (hne : cs ≠ []) (h : ∀ c ∈ cs, isBlank c = false) :
    wordsAfter [] cs = [cs] := by
  have := wordsAfter_append h [] []
  rw [List.append_nil, List.append_nil] at this
  rw [this, wordsAfter]
  simp [hne]

/-- A space ends the word before it. -/
theorem wordsAfter_space (word cs rest : List Char) :
    wordsAfter word (cs ++ ' ' :: rest) = wordsAfter word cs ++ wordsAfter [] rest := by
  induction cs generalizing word with
  | nil =>
    rw [List.nil_append, wordsAfter.eq_2, if_pos isBlank_space, wordsAfter.eq_1]
    split <;> rfl
  | cons c cs ih =>
    rw [List.cons_append, wordsAfter, wordsAfter, ih, ih]
    split
    · split <;> rfl
    · rfl

theorem wordsAfter_intercalate (l : List (List Char)) :
    wordsAfter [] ([' '].intercalate l) = l.flatMap (wordsAfter []) := by
  induction l with
  | nil => rfl
  | cons cs l ih =>
    by_cases hl : l = []
    · subst hl
      simp
    · rw [List.intercalate_cons_of_ne_nil hl, List.append_assoc, List.singleton_append,
        wordsAfter_space, ih, List.flatMap_cons]

/-- What is joined by spaces has the words of each of its parts. -/
theorem words_intercalate_eq_flatMap (ws : List String) :
    words (" ".intercalate ws) = ws.flatMap words := by
  have hspace : " ".toList = [' '] := by decide
  rw [words, String.toList_intercalate, hspace, wordsAfter_intercalate, List.flatMap_map,
    List.map_flatMap]
  rfl

theorem IsWord.words_eq {s : String} (h : IsWord s) : words s = [s] := by
  have hne : s.toList ≠ [] := fun he => h.ne_empty (String.toList_eq_nil_iff.1 he)
  rw [words, wordsAfter_last hne h.notBlank, List.map_singleton, String.ofList_toList]

/-- Words that are joined by spaces can be told apart again. -/
theorem words_intercalate {ws : List String} (h : ∀ s ∈ ws, IsWord s) :
    words (" ".intercalate ws) = ws := by
  rw [words_intercalate_eq_flatMap, List.flatMap_def,
    List.map_congr_left fun s hs => (h s hs).words_eq, ← List.flatMap_def, List.flatMap_singleton']

theorem forall_mem_wordsAfter {word : List Char} (hword : ∀ c ∈ word, isBlank c = false)
    (cs : List Char) : ∀ w ∈ wordsAfter word cs, w ≠ [] ∧ ∀ c ∈ w, isBlank c = false := by
  induction cs generalizing word with
  | nil =>
    intro w hw
    rw [wordsAfter] at hw
    split at hw <;> rename_i hne
    · cases hw
    · obtain rfl := List.mem_singleton.1 hw
      simpa using ⟨by simpa using hne, hword⟩
  | cons c cs ih =>
    have hnone : ∀ c ∈ ([] : List Char), isBlank c = false := List.forall_mem_nil _
    intro w hw
    rw [wordsAfter] at hw
    split at hw <;> rename_i hc
    · split at hw <;> rename_i hne
      · exact ih hnone w hw
      · rcases List.mem_cons.1 hw with rfl | hw
        · simpa using ⟨by simpa using hne, hword⟩
        · exact ih hnone w hw
    · exact ih (List.forall_mem_cons.2 ⟨by simpa using hc, hword⟩) w hw

/-- Whatever the text, what is found in it are words. -/
theorem isWord_of_mem_words {s w : String} (h : w ∈ words s) : IsWord w := by
  obtain ⟨cs, hcs, rfl⟩ := List.mem_map.1 h
  obtain ⟨hne, hblank⟩ := forall_mem_wordsAfter (List.forall_mem_nil _) s.toList cs hcs
  exact ⟨fun he => hne (by simpa using he), by simpa using hblank⟩

theorem space_mem_intercalate {ws : List String} (h : 2 ≤ ws.length) :
    ' ' ∈ (" ".intercalate ws).toList := by
  rcases ws with _ | ⟨s, _ | ⟨t, ws⟩⟩
  · simp at h
  · simp at h
  · simp [String.toList_intercalate]

/-- Only nothing and a single empty text are joined to an empty text. -/
theorem intercalate_eq_empty_iff {ws : List String} :
    " ".intercalate ws = "" ↔ ws = [] ∨ ws = [""] := by
  refine ⟨fun h => ?_, ?_⟩
  · rcases ws with _ | ⟨s, _ | ⟨t, ws⟩⟩
    · exact .inl rfl
    · simp_all
    · have hspace := space_mem_intercalate (by simp : 2 ≤ (s :: t :: ws).length)
      simp [h] at hspace
  · rintro (rfl | rfl) <;> simp

end Text

namespace State

open Text

theorem symbols_ofContext {ws : List String} (h : ∀ s ∈ ws, IsWord s) :
    (ofContext ws).symbols = ws :=
  words_intercalate h

/-- A state remembers one context only. -/
theorem ofContext_inj {ws ws' : List String} (h : ∀ s ∈ ws, IsWord s)
    (h' : ∀ s ∈ ws', IsWord s) (he : ofContext ws = ofContext ws') : ws = ws' := by
  rw [← symbols_ofContext h, ← symbols_ofContext h', he]

/-- A label tells the words of each symbol of its context. That is the context itself exactly if no
symbol is empty or has a blank in it. The first and the last symbol are then those of the context,
if it has any, and among such contexts no other one has the same state. -/
theorem symbols_ofContext_iff (ws : List String) :
    (ofContext ws).symbols = ws.flatMap words ∧
      ((ofContext ws).symbols = ws ↔ ∀ s ∈ ws, IsWord s) ∧
      ((∀ s ∈ ws, IsWord s) →
        (ofContext ws).first? = ws.head? ∧ (ofContext ws).last? = ws.getLast? ∧
        ∀ ws' : List String, (∀ s ∈ ws', IsWord s) →
          (ofContext ws = ofContext ws' ↔ ws = ws')) := by
  refine ⟨words_intercalate_eq_flatMap ws, ⟨fun h s hs => ?_, symbols_ofContext⟩,
    fun h => ⟨?_, ?_, fun ws' h' => ⟨ofContext_inj h h', congrArg ofContext⟩⟩⟩
  · rw [← h] at hs
    exact isWord_of_mem_words hs
  · rw [first?, symbols_ofContext h]
  · rw [last?, symbols_ofContext h]

theorem symbols_ofContext_iff_syllable :
    (∀ s ∈ [">", "σ", "a"], IsWord s) ∧ (ofContext [">", "σ", "a"]).symbols = [">", "σ", "a"] ∧
      (ofContext [">", "σ", "a"]).first? = some ">" ∧
      (ofContext [">", "σ", "a"]).last? = some "a" ∧
      ofContext [">", "σ", "a"] ≠ ofContext [">", "σ"] := by
  have h : ∀ s ∈ [">", "σ", "a"], IsWord s := by decide
  have h' : ∀ s ∈ [">", "σ"], IsWord s := by decide
  obtain ⟨-, hsymbols, hends⟩ := symbols_ofContext_iff [">", "σ", "a"]
  obtain ⟨hfirst, hlast, hinj⟩ := hends h
  exact ⟨h, hsymbols.2 h, hfirst, hlast, fun he => absurd ((hinj _ h').1 he) (by decide)⟩

/-- An empty symbol is lost, and one with a no-break space in it falls apart. -/
example : (ofContext ["", "a\u00a0b", "c"]).symbols = ["a", "b", "c"] := by decide

end State

end Violable
