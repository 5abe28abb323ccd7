import Mathlib.Tactic.SplitIfs
import Violable.Tree.Token

/-!
# The tokens of a text

What the tokens of a text are is said by `Lexes`, one token at a time: blank characters are
skipped, a parenthesis is a token, and so is a run of other characters that is not followed by
one more of them. Every text has just one such list of tokens, which is the one that is scanned
(`lexes_iff`). Together the tokens have all characters of the text save the blank ones
(`Lexes.flatMap_text`).
-/

namespace Violable.Token

/-- The characters that atoms are made of. -/
def isPlain (c : Char) : Bool := c != '(' && c != ')' && !Text.isBlank c

theorem isPlain_iff {c : Char} : isPlain c = true ↔ c ≠ '(' ∧ c ≠ ')' ∧ Text.isBlank c = false := by
  simp [isPlain, and_assoc]

theorem isPlain_of_isBlank {c : Char} (h : Text.isBlank c = true) : isPlain c = false := by
  simp [isPlain, h]

theorem isPlain_opening : isPlain '(' = false := by decide

theorem isPlain_closing : isPlain ')' = false := by decide

/-- No atom goes on at the beginning of `cs`. -/
def Breaks (cs : List Char) : Prop := ∀ c, cs.head? = some c → isPlain c = false

theorem breaks_nil : Breaks [] := by simp [Breaks]

theorem breaks_cons {c : Char} {cs : List Char} : Breaks (c :: cs) ↔ isPlain c = false := by
  simp [Breaks]

/-- A text has these tokens. Atoms are as long as can be. -/
inductive Lexes : List Char → List Token → Prop
  | done : Lexes [] []
  | blank {c cs ts} : Text.isBlank c = true → Lexes cs ts → Lexes (c :: cs) ts
  | opening {cs ts} : Lexes cs ts → Lexes ('(' :: cs) (opening :: ts)
  | closing {cs ts} : Lexes cs ts → Lexes (')' :: cs) (closing :: ts)
  | atom {run cs ts} : run ≠ [] → (∀ c ∈ run, isPlain c = true) → Breaks cs → Lexes cs ts →
      Lexes (run ++ cs) (atom (String.ofList run) :: ts)

/-- The tokens of a text that begins with a run that was read, backwards, and is now over. -/
theorem Lexes.ofRun {run cs : List Char} {ts : List Token} (h : ∀ c ∈ run, isPlain c = true)
    (hb : Breaks cs) (hl : Lexes cs ts) : Lexes (run.reverse ++ cs) (ofRun run ++ ts) := by
  by_cases hrun : run = []
  · subst hrun
    exact hl
  · rw [Token.ofRun, if_neg (by simpa using hrun), List.singleton_append]
    exact .atom (by simpa using hrun) (by simpa using h) hb hl

theorem lexes_scanAfter {run : List Char} (h : ∀ c ∈ run, isPlain c = true) (cs : List Char) :
    Lexes (run.reverse ++ cs) (scanAfter run cs) := by
  induction cs generalizing run with
  | nil => simpa [scanAfter] using Lexes.done.ofRun h breaks_nil
  | cons c cs ih =>
    have hnil : Lexes cs (scanAfter [] cs) := ih (List.forall_mem_nil _)
    rw [scanAfter]
    split_ifs with ho hc hb
    · subst ho
      exact hnil.opening.ofRun h (breaks_cons.2 isPlain_opening)
    · subst hc
      exact hnil.closing.ofRun h (breaks_cons.2 isPlain_closing)
    · exact (hnil.blank hb).ofRun h (breaks_cons.2 (isPlain_of_isBlank hb))
    · have hplain : isPlain c = true := isPlain_iff.2 ⟨ho, hc, by simpa using hb⟩
      have := @ih (c :: run) (List.forall_mem_cons.2 ⟨hplain, h⟩)
      rwa [List.reverse_cons, List.append_assoc, List.singleton_append] at this

theorem scanAfter_append {cs : List Char} (h : ∀ c ∈ cs, isPlain c = true)
    (run rest : List Char) : scanAfter run (cs ++ rest) = scanAfter (cs.reverse ++ run) rest := by
  induction cs generalizing run with
  | nil => rfl
  | cons c cs ih =>
    rw [List.forall_mem_cons] at h
    obtain ⟨ho, hc, hb⟩ := isPlain_iff.1 h.1
    rw [List.cons_append, scanAfter, if_neg ho, if_neg hc, if_neg (by simp [hb]), ih h.2,
      List.reverse_cons, List.append_assoc, List.singleton_append]

/-- Where a run is over it makes its token, whatever comes next. -/
theorem scanAfter_of_breaks {cs : List Char} (h : Breaks cs) (run : List Char) :
    scanAfter run cs = ofRun run ++ scanAfter [] cs := by
  rcases cs with _ | ⟨c, cs⟩
  · simp [scanAfter, Token.ofRun]
  · have hc := breaks_cons.1 h
    simp only [isPlain, Bool.and_eq_false_iff, bne_eq_false_iff_eq, Bool.not_eq_false'] at hc
    rw [scanAfter, scanAfter]
    split_ifs <;> simp_all [Token.ofRun]

/-- Only the blank characters of a text are not in its tokens. -/
theorem Lexes.flatMap_text {cs : List Char} {ts : List Token} (h : Lexes cs ts) :
    (ts.flatMap fun t => t.text.toList) = cs.filter fun c => !Text.isBlank c := by
  induction h with
  | done => rfl
  | blank hb _ ih => rw [ih, List.filter_cons_of_neg (by simp [hb])]
  | opening _ ih =>
    rw [List.flatMap_cons, ih, List.filter_cons_of_pos (by decide)]
    rfl
  | closing _ ih =>
    rw [List.flatMap_cons, ih, List.filter_cons_of_pos (by decide)]
    rfl
  | @atom run cs ts _ hrun _ _ ih =>
    have hkept : run.filter (fun c => !Text.isBlank c) = run :=
      List.filter_eq_self.2 fun c hc => by simp [(isPlain_iff.1 (hrun c hc)).2.2]
    rw [List.flatMap_cons, ih, List.filter_append, hkept, text, String.toList_ofList]

theorem ne_paren_of_isBlank {c : Char} (h : Text.isBlank c = true) : c ≠ '(' ∧ c ≠ ')' := by
  constructor <;> rintro rfl <;> exact absurd h (by decide)

theorem scanAfter_blank {c : Char} (h : Text.isBlank c = true) (cs : List Char) :
    scanAfter [] (c :: cs) = scanAfter [] cs := by
  obtain ⟨ho, hc⟩ := ne_paren_of_isBlank h
  rw [scanAfter, if_neg ho, if_neg hc, if_pos h]
  rfl

theorem Lexes.eq_scanAfter {cs : List Char} {ts : List Token} (h : Lexes cs ts) :
    ts = scanAfter [] cs := by
  induction h with
  | done => rfl
  | blank hb _ ih => rw [scanAfter_blank hb, ih]
  | opening _ ih => simp [scanAfter, Token.ofRun, ih]
  | closing _ ih => simp [scanAfter, Token.ofRun, ih]
  | @atom run cs ts hne hrun hb _ ih =>
    rw [scanAfter_append hrun, scanAfter_of_breaks hb, ← ih, List.append_nil, Token.ofRun,
      if_neg (by simpa using hne), List.reverse_reverse, List.singleton_append]

theorem lexes_iff {s : String} {ts : List Token} : Lexes s.toList ts ↔ ts = scan s := by
  constructor
  · exact Lexes.eq_scanAfter
  · rintro rfl
    exact lexes_scanAfter (List.forall_mem_nil _) s.toList

end Violable.Token
