import Violable.Proofs.ReadBack
import Violable.Proofs.Slices

/-!
# The lexemes of a text

What is a lexeme is said by `IsLexeme`, of the text before it, its own characters and the text after
it: a parenthesis, or a run of plain characters that is as long as can be. While a text is read it
is in three parts: what is done, the run that is being read, and the rest. The slices that are cut
out are the lexemes that end within what is done (`Lists`), and the pass knows where the run began
(`Sound`). This is kept by each step, and none asks for a slice that there is not (`Sound.step`). So
the pass comes to the end of any text (`Sound.finish`). What is cut out then are all the lexemes,
and they are the tokens that are scanned (`lexemes_exact`).
-/

namespace Violable.Cutting

open Token

section Steps

variable {s : String} {l : String.Slice} {i j : String.Pos.Raw} {k : Cutting} {c : Char}

theorem cut_eq (h : slice? s i j = some l) :
    k.cut s i j = some { k with lexemes := k.lexemes ++ [l] } := by
  rw [cut, h]
  rfl

theorem flush_eq_self (h : k.start = none) : k.flush s j = some k := by
  rw [flush, h]

theorem flush_eq (h : k.start = some i) :
    k.flush s j = cut s i j { k with start := none } := by
  rw [flush, h]

theorem step_of_isPlain (h : isPlain c = true) :
    k.step s i c = if k.start.isNone then some { k with start := some i } else some k := by
  obtain ⟨ho, hc, hb⟩ := isPlain_iff.1 h
  rw [step, if_neg (by simp [ho, hc, hb])]

theorem step_of_isBlank (h : Text.isBlank c = true) :
    k.step s i c = k.flush s i := by
  simp [step, h]

theorem step_of_paren (h : c = '(' ∨ c = ')') :
    k.step s i c = (k.flush s i).bind (·.cut s i i.inc) := by
  have hb : Text.isBlank c = false := by rcases h with rfl | rfl <;> rfl
  rw [step, if_pos (h.imp_right .inl)]
  simp [hb]

end Steps

/-- Between `before` and `after` there is a parenthesis, or a run of plain characters that is as
long as can be. -/
inductive IsLexeme (before : List Char) : List Char → List Char → Prop
  | opening {after} : IsLexeme before ['('] after
  | closing {after} : IsLexeme before [')'] after
  | atom {word after} : word ≠ [] → (∀ c ∈ word, isPlain c = true) → Breaks before.reverse →
      Breaks after → IsLexeme before word after

section Words

variable {b w a done run rest : List Char} {c : Char}

theorem eq_nil_of_breaks (h : Breaks (run ++ rest)) (hrun : ∀ c ∈ run, isPlain c = true) :
    run = [] := by
  rcases run with _ | ⟨c, run⟩
  · rfl
  · have hc := breaks_cons.1 h
    rw [hrun c List.mem_cons_self] at hc
    cases hc

theorem eq_nil_of_breaks_reverse (h : Breaks (done ++ run).reverse)
    (hrun : ∀ c ∈ run, isPlain c = true) : run = [] := by
  rw [List.reverse_append] at h
  exact List.reverse_eq_nil_iff.1
    (eq_nil_of_breaks h fun c hc => hrun c (List.mem_reverse.1 hc))

theorem exists_mem_both (h : b ++ w = done ++ run) (hw : w ≠ []) (hrun : run ≠ []) :
    ∃ c ∈ w, c ∈ run := by
  have hlast : (b ++ w).getLast? = (done ++ run).getLast? := by rw [h]
  rw [List.getLast?_append_of_ne_nil _ hw, List.getLast?_append_of_ne_nil _ hrun,
    List.getLast?_eq_some_getLast hw] at hlast
  exact ⟨w.getLast hw, List.getLast_mem hw, List.mem_of_getLast? hlast.symm⟩

namespace IsLexeme

theorem ne_nil (h : IsLexeme b w a) : w ≠ [] := by
  cases h with
  | opening => exact List.cons_ne_nil _ _
  | closing => exact List.cons_ne_nil _ _
  | atom hne => exact hne

theorem of_isPlain (h : IsLexeme b w a) (hc : c ∈ w) (hplain : isPlain c = true) :
    (∀ c ∈ w, isPlain c = true) ∧ Breaks b.reverse ∧ Breaks a := by
  cases h with
  | opening =>
    rw [List.mem_singleton.1 hc, isPlain_opening] at hplain
    cases hplain
  | closing =>
    rw [List.mem_singleton.1 hc, isPlain_closing] at hplain
    cases hplain
  | atom _ hw hb ha => exact ⟨hw, hb, ha⟩

theorem of_not_isPlain (h : IsLexeme b w a) (hc : c ∈ w) (hplain : isPlain c = false) :
    w = [c] ∧ (c = '(' ∨ c = ')') := by
  cases h with
  | opening =>
    obtain rfl := List.mem_singleton.1 hc
    exact ⟨rfl, .inl rfl⟩
  | closing =>
    obtain rfl := List.mem_singleton.1 hc
    exact ⟨rfl, .inr rfl⟩
  | atom _ hw =>
    rw [hw c hc] at hplain
    cases hplain

/-- The only lexeme that ends within a run is all of the run. -/
theorem eq_run (h : IsLexeme b w a) (hs : b ++ w ++ a = done ++ run ++ rest)
    (hrun : ∀ c ∈ run, isPlain c = true) (hdone : Breaks done.reverse)
    (hlt : done.length < (b ++ w).length) (hle : (b ++ w).length ≤ (done ++ run).length) :
    b = done ∧ w = run := by
  obtain ⟨v, hv⟩ : b ++ w <+: done ++ run :=
    List.prefix_of_prefix_length_le ⟨a, rfl⟩ ⟨rest, hs.symm⟩ hle
  obtain ⟨u, hu⟩ : done <+: b ++ w :=
    List.prefix_of_prefix_length_le ⟨run ++ rest, by rw [hs, List.append_assoc]⟩ ⟨a, rfl⟩
      (Nat.le_of_lt hlt)
  obtain rfl : u ++ v = run := by
    rw [← hu, List.append_assoc] at hv
    exact List.append_cancel_left hv
  obtain rfl : a = v ++ rest := by
    rw [← hv, List.append_assoc (b ++ w)] at hs
    exact List.append_cancel_left hs
  have hne : u ≠ [] := by
    rintro rfl
    rw [← hu, List.append_nil] at hlt
    exact Nat.lt_irrefl _ hlt
  obtain ⟨c, hcw, hcu⟩ := exists_mem_both hu.symm h.ne_nil hne
  obtain ⟨hw, hb, ha⟩ := h.of_isPlain hcw (hrun c (List.mem_append_left v hcu))
  obtain rfl := eq_nil_of_breaks ha fun c hc => hrun c (List.mem_append_right u hc)
  rw [List.append_nil] at hrun ⊢
  -- neither of the two begins within the other one
  obtain ⟨x, rfl, rfl⟩ | ⟨x, rfl, rfl⟩ := List.append_eq_append_iff.1 hu
  · obtain rfl := eq_nil_of_breaks_reverse hb fun c hc => hrun c (List.mem_append_left w hc)
    exact ⟨List.append_nil done, rfl⟩
  · obtain rfl := eq_nil_of_breaks_reverse hdone fun c hc => hw c (List.mem_append_left u hc)
    exact ⟨(List.append_nil b).symm, rfl⟩

/-- The only lexeme that ends with a character that is not plain is that character. -/
theorem eq_singleton (h : IsLexeme b w a) (hs : b ++ w ++ a = done ++ [c] ++ rest)
    (hc : isPlain c = false) (hlt : done.length < (b ++ w).length)
    (hle : (b ++ w).length ≤ (done ++ [c]).length) :
    b = done ∧ w = [c] ∧ (c = '(' ∨ c = ')') := by
  have hlen : (b ++ w).length = (done ++ [c]).length := by
    simp only [List.length_append, List.length_singleton] at hlt hle ⊢
    omega
  have heq : b ++ w = done ++ [c] := List.append_inj_left hs hlen
  obtain ⟨d, hd, hdc⟩ := exists_mem_both heq h.ne_nil (List.cons_ne_nil c [])
  obtain rfl := List.mem_singleton.1 hdc
  obtain ⟨rfl, hparen⟩ := h.of_not_isPlain hd hc
  exact ⟨List.append_cancel_right heq, rfl, hparen⟩

end IsLexeme

end Words

/-- The slices `ls` are, in order, the lexemes of `s` that end within its beginning `done`. -/
structure Lists (s : String) (done : List Char) (ls : List String.Slice) : Prop where
  mem : ∀ l, l ∈ ls ↔ l.str = s ∧ IsLexeme (before l) (word l) (after l) ∧
    (before l ++ word l).length ≤ done.length
  ordered : ls.Pairwise fun l l' => l.endExclusive.offset ≤ l'.startInclusive.offset

namespace Lists

variable {s : String} {done x rest : List Char} {ls : List String.Slice} {l : String.Slice}

theorem nil : Lists s [] [] where
  mem l := by
    refine iff_of_false List.not_mem_nil ?_
    rintro ⟨-, h, hlen⟩
    exact h.ne_nil (List.append_eq_nil_iff.1 (List.length_eq_zero_iff.1 (Nat.le_zero.1 hlen))).2
  ordered := .nil

theorem le_offset (h : Lists s done ls) (hs : s.toList = done ++ rest) (hl : l ∈ ls) :
    l.endExclusive.offset ≤ offset done := by
  obtain ⟨rfl, -, hlen⟩ := (h.mem l).1 hl
  obtain ⟨v, rfl⟩ : before l ++ word l <+: done :=
    List.prefix_of_prefix_length_le ⟨after l, (toList_str l).symm⟩ ⟨rest, hs.symm⟩ hlen
  rw [offset_end]
  exact offset_le _ v

/-- No lexeme ends within `x`. -/
theorem skip (h : Lists s done ls) (hs : s.toList = done ++ x ++ rest)
    (hnone : ∀ b w a, b ++ w ++ a = done ++ x ++ rest → IsLexeme b w a →
      done.length < (b ++ w).length → ¬ (b ++ w).length ≤ (done ++ x).length) :
    Lists s (done ++ x) ls where
  mem l := by
    rw [h.mem]
    refine and_congr_right fun hl => and_congr_right fun hlex => ⟨fun hle => ?_, fun hle => ?_⟩
    · exact Nat.le_trans hle (List.prefix_append done x).length_le
    · subst hl
      rw [toList_str] at hs
      exact Nat.le_of_not_lt fun hlt => hnone _ _ _ hs hlex hlt hle
  ordered := h.ordered

/-- The only lexeme that ends within `x` is all of `x`, and it can be cut out. -/
theorem cut (h : Lists s done ls) (hs : s.toList = done ++ x ++ rest) (hx : IsLexeme done x rest)
    (honly : ∀ b w a, b ++ w ++ a = done ++ x ++ rest → IsLexeme b w a →
      done.length < (b ++ w).length → (b ++ w).length ≤ (done ++ x).length → b = done ∧ w = x) :
    ∃ l, slice? s (offset done) (offset (done ++ x)) = some l ∧ Lists s (done ++ x) (ls ++ [l]) ∧
      l.copy = String.ofList x := by
  obtain ⟨l, hcut, hl, rfl, rfl, rfl⟩ := exists_slice? hs
  refine ⟨l, hcut, ⟨fun l' => ?_, ?_⟩, String.ofList_toList.symm⟩
  · rw [List.mem_append, List.mem_singleton, h.mem]
    constructor
    · rintro (⟨hl', hlex, hle⟩ | rfl)
      · exact ⟨hl', hlex, Nat.le_trans hle (List.prefix_append _ _).length_le⟩
      · exact ⟨hl, hx, Nat.le_refl _⟩
    · rintro ⟨hl', hlex, hle⟩
      by_cases hlt : (before l).length < (before l' ++ word l').length
      · obtain ⟨hb, hw⟩ := honly _ _ _ (by rw [← toList_str, hl', hs]) hlex hlt hle
        exact .inr (slice_ext (hl'.trans hl.symm) hb hw)
      · exact .inl ⟨hl', hlex, Nat.le_of_not_lt hlt⟩
  · refine List.pairwise_append.2 ⟨h.ordered, List.pairwise_singleton _ l, fun l' hl' m hm => ?_⟩
    rw [List.mem_singleton.1 hm, offset_start]
    exact h.le_offset (hs.trans (List.append_assoc _ _ _)) hl'

end Lists

/-- The text `s` is read up to `rest`, and all of it before `run` is done. -/
structure Sound (s : String) (done run rest : List Char) (k : Cutting) : Prop where
  text : s.toList = done ++ run ++ rest
  plain : ∀ c ∈ run, isPlain c = true
  -- what is done does not end within an atom
  apart : Breaks done.reverse ∨ Breaks (run ++ rest)
  start : k.start = if run = [] then none else some (offset done)
  lists : Lists s done k.lexemes
  scanned : k.lexemes.map String.Slice.copy ++ (scanAfter run.reverse rest).map Token.text =
    (scan s).map Token.text

namespace Sound

variable {s : String} {done run rest : List Char} {c : Char} {k : Cutting}

theorem initial (s : String) : Sound s [] [] s.toList initial where
  text := rfl
  plain := List.forall_mem_nil _
  apart := .inl breaks_nil
  start := rfl
  lists := .nil
  scanned := rfl

/-- The run is over, and what is read then is done. -/
theorem flush (h : Sound s done run rest k) (hrest : Breaks rest) :
    ∃ k', k.flush s (offset (done ++ run)) = some k' ∧ Sound s (done ++ run) [] rest k' := by
  have hstart := h.start
  by_cases hrun : run = []
  · subst hrun
    refine ⟨k, flush_eq_self hstart, ?_⟩
    rw [List.append_nil]
    exact { h with apart := .inr hrest }
  · rw [if_neg hrun] at hstart
    -- the run is not empty, so it goes on on neither side
    have hdone : Breaks done.reverse :=
      h.apart.resolve_right fun hb => hrun (eq_nil_of_breaks hb h.plain)
    obtain ⟨l, hcut, hls, hcopy⟩ := h.lists.cut h.text (.atom hrun h.plain hdone hrest)
      fun b w a hs hlex => hlex.eq_run hs h.plain hdone
    refine ⟨_, (flush_eq hstart).trans (cut_eq hcut), ?_⟩
    exact {
      text := by rw [h.text, List.append_nil]
      plain := List.forall_mem_nil _
      apart := .inr hrest
      start := rfl
      lists := hls
      scanned := by
        rw [← h.scanned, scanAfter_of_breaks hrest run.reverse, ofRun, if_neg (by simpa using hrun)]
        simp [hcopy, Token.text] }

theorem text_cons (h : Sound s done [] (c :: rest) k) : s.toList = done ++ [c] ++ rest := by
  rw [h.text, List.append_nil, List.append_assoc, List.singleton_append]

/-- A character that no atom has is done as soon as it is read. -/
theorem separator (h : Sound s done [] (c :: rest) k) (hc : isPlain c = false)
    {ls : List String.Slice} (hls : Lists s (done ++ [c]) ls)
    (hscan : ls.map String.Slice.copy ++ (scanAfter [] rest).map Token.text =
      (scan s).map Token.text) :
    Sound s (done ++ [c]) [] rest { k with lexemes := ls } where
  text := by rw [h.text_cons, List.append_nil]
  plain := List.forall_mem_nil _
  apart := by
    rw [List.reverse_append]
    exact .inl (breaks_cons.2 hc)
  start := h.start
  lists := hls
  scanned := hscan

theorem paren (h : Sound s done [] (c :: rest) k) (hc : c = '(' ∨ c = ')') :
    ∃ k', k.cut s (offset done) (offset done).inc = some k' ∧
      Sound s (done ++ [c]) [] rest k' := by
  have hplain : isPlain c = false := by
    rcases hc with rfl | rfl
    exacts [isPlain_opening, isPlain_closing]
  have hinc : (offset done).inc = offset (done ++ [c]) := by
    rw [offset_concat]
    rcases hc with rfl | rfl <;> rfl
  have hlex : IsLexeme done [c] rest := by
    rcases hc with rfl | rfl
    exacts [.opening, .closing]
  obtain ⟨l, hcut, hls, hcopy⟩ := h.lists.cut h.text_cons hlex fun b w a hs hlex hlt hle =>
    have heq := hlex.eq_singleton hs hplain hlt hle
    ⟨heq.1, heq.2.1⟩
  refine ⟨_, cut_eq (hinc ▸ hcut), h.separator hplain hls ?_⟩
  rw [← h.scanned]
  rcases hc with rfl | rfl <;> simp [scanAfter, ofRun, hcopy, Token.text]

theorem blank (h : Sound s done [] (c :: rest) k) (hc : Text.isBlank c = true) :
    Sound s (done ++ [c]) [] rest k := by
  have hplain : isPlain c = false := isPlain_of_isBlank hc
  have hscan := h.scanned
  rw [List.reverse_nil, scanAfter_blank hc] at hscan
  refine h.separator hplain (h.lists.skip h.text_cons fun b w a hs hlex hlt hle => ?_) hscan
  obtain ⟨ho, hcl⟩ := ne_paren_of_isBlank hc
  exact (hlex.eq_singleton hs hplain hlt hle).2.2.elim ho hcl

/-- The run goes on. -/
theorem more (h : Sound s done run (c :: rest) k) (hc : isPlain c = true) :
    ∃ k', k.step s (offset (done ++ run)) c = some k' ∧ Sound s done (run ++ [c]) rest k' := by
  have hplain : ∀ d ∈ run ++ [c], isPlain d = true := by
    rw [List.forall_mem_append, List.forall_mem_singleton]
    exact ⟨h.plain, hc⟩
  have hmove : run ++ c :: rest = run ++ [c] ++ rest := by
    rw [List.append_assoc, List.singleton_append]
  have hne : run ++ [c] ≠ [] := List.append_ne_nil_of_right_ne_nil run (List.cons_ne_nil c [])
  have hdone : Breaks done.reverse :=
    h.apart.resolve_right fun hb => hne (eq_nil_of_breaks (hmove ▸ hb) hplain)
  refine ⟨⟨some (offset done), k.lexemes⟩, ?_, ?_⟩
  · have hstart := h.start
    obtain ⟨start, lexemes⟩ := k
    rw [step_of_isPlain hc]
    by_cases hrun : run = []
    · rw [if_pos hrun] at hstart
      rw [hstart, hrun, List.append_nil]
      rfl
    · rw [if_neg hrun] at hstart
      obtain rfl : start = some (offset done) := hstart
      rfl
  · exact {
      text := by rw [h.text, List.append_assoc, hmove, ← List.append_assoc]
      plain := hplain
      apart := .inl hdone
      start := (if_neg hne).symm
      lists := h.lists
      scanned := by
        have hscan : scanAfter run.reverse (c :: rest) = scanAfter (run ++ [c]).reverse rest := by
          rw [List.reverse_append]
          exact scanAfter_append (List.forall_mem_singleton.2 hc) run.reverse rest
        rw [← h.scanned, hscan] }

theorem step (h : Sound s done run (c :: rest) k) : ∃ k' done' run',
    k.step s (offset (done ++ run)) c = some k' ∧ done' ++ run' = done ++ run ++ [c] ∧
      Sound s done' run' rest k' := by
  by_cases hc : isPlain c = true
  · obtain ⟨k', hk', hsound⟩ := h.more hc
    exact ⟨k', done, run ++ [c], hk', (List.append_assoc _ _ _).symm, hsound⟩
  · obtain ⟨k', hflush, hk'⟩ := h.flush (breaks_cons.2 (eq_false_of_ne_true hc))
    by_cases hb : Text.isBlank c = true
    · exact ⟨k', _, [], (step_of_isBlank hb).trans hflush, List.append_nil _, hk'.blank hb⟩
    · have hparen : c = '(' ∨ c = ')' := by
        by_contra hne
        rw [not_or] at hne
        exact hc (isPlain_iff.2 ⟨hne.1, hne.2, eq_false_of_ne_true hb⟩)
      obtain ⟨k'', hcut, hk''⟩ := hk'.paren hparen
      refine ⟨k'', _, [], ?_, List.append_nil _, hk''⟩
      rw [step_of_paren hparen, hflush, Option.bind_some, hcut]

theorem finish (h : Sound s done run rest k) : ∃ k',
    k.run s (offset (done ++ run)) rest = some k' ∧ Sound s s.toList [] [] k' := by
  induction rest generalizing done run k with
  | nil =>
    have htext : s.toList = done ++ run := by rw [h.text, List.append_nil]
    rw [Cutting.run, ← offset_toList, htext]
    exact h.flush breaks_nil
  | cons c rest ih =>
    obtain ⟨k', done', run', hstep, hmove, hk'⟩ := h.step
    obtain ⟨k'', hrun, hk''⟩ := ih hk'
    refine ⟨k'', ?_, hk''⟩
    rw [Cutting.run, hstep, ← offset_concat, ← hmove]
    exact hrun

end Sound

theorem exists_lexemes? (s : String) : ∃ ls, lexemes? s = some ls ∧ Lists s s.toList ls ∧
    ls.map String.Slice.copy = (scan s).map Token.text := by
  obtain ⟨k, hrun, hk⟩ := (Sound.initial s).finish
  refine ⟨k.lexemes, ?_, hk.lists, ?_⟩
  · exact congrArg (Option.map (·.lexemes)) hrun
  · rw [← hk.scanned]
    simp [scanAfter, ofRun]

/-- Any text can be cut into lexemes, and every slice is made between characters. In order, these
are just the parentheses of the text and its runs of plain characters that are as long as can be.
They are the tokens that are scanned, and together they are the text without its blanks. -/
theorem lexemes_exact (s : String) : ∃ ls, lexemes? s = some ls ∧
    (∀ l, l ∈ ls ↔ l.str = s ∧ IsLexeme (before l) (word l) (after l)) ∧
    (ls.Pairwise fun l l' => l.endExclusive.offset ≤ l'.startInclusive.offset) ∧
    ls.map String.Slice.copy = (scan s).map Token.text ∧
    (∀ t ∈ scan s, t = .opening ∨ t = .closing ∨
      ∃ a, t = .atom a ∧ a ≠ "" ∧ ∀ c ∈ a.toList, c ≠ '(' ∧ c ≠ ')' ∧ Text.isBlank c = false) ∧
    String.join (ls.map String.Slice.copy) =
      String.ofList (s.toList.filter fun c => !Text.isBlank c) := by
  have hlexes : Lexes s.toList (scan s) := lexes_iff.2 rfl
  obtain ⟨ls, hls, hlists, hcopy⟩ := exists_lexemes? s
  refine ⟨ls, hls, fun l => ?_, hlists.ordered, hcopy, fun t ht => ?_, ?_⟩
  · rw [hlists.mem]
    refine and_congr_right fun hl => and_iff_left ?_
    rw [← hl, toList_str]
    exact (List.prefix_append _ _).length_le
  · cases t with
    | opening => exact .inl rfl
    | closing => exact .inr (.inl rfl)
    | atom a =>
      obtain ⟨hne, hplain⟩ := hlexes.mem_atoms a (List.mem_filterMap.2 ⟨.atom a, ht, rfl⟩)
      exact .inr (.inr ⟨a, rfl, hne, fun c hc => isPlain_iff.1 (hplain c hc)⟩)
  · rw [hcopy, ← hlexes.flatMap_text, ← String.toList_inj, String.toList_join,
      String.toList_ofList, List.flatMap_map]

/-- Two of these characters have more than one byte. -/
example : (lexemes? "(Syll (s0\u2003\"σ\")x").map (·.map String.Slice.copy) =
    some ["(", "Syll", "(", "s0", "\"σ\"", ")", "x"] := by cbv

end Violable.Cutting
