import Violable.Proofs.Brackets
import Violable.Proofs.Parts

/-!
# Reading back what was written

The text of a branch whose labels are free of parentheses and blanks has the tokens that one would
expect, save that empty labels leave no trace (`lexes_text`). If no label is empty these tokens
are a tree by the grammar, and if none stands between double quotes it is the same tree
(`isTree_tokens`). Conversely, the labels of a tree that is read are the atoms of its text in
order (`labels_of_isTree`), so a label that is lost or altered shows, and just the trees that are
written without loss are read back (`read_text`).
-/

namespace Violable

namespace Token

/-- What a label leaves in the tokens of a text. -/
def ofLabel (l : String) : List Token := if l = "" then [] else [atom l]

/-- The atoms among the tokens. -/
def atoms (ts : List Token) : List String :=
  ts.filterMap fun
    | atom s => some s
    | _ => none

theorem atoms_append (ts us : List Token) : atoms (ts ++ us) = atoms ts ++ atoms us :=
  List.filterMap_append

theorem atoms_ofLabel (l : String) : atoms (ofLabel l) = [l].filter (· ≠ "") := by
  by_cases h : l = "" <;> simp [ofLabel, atoms, h]

/-- Atoms are not empty, and all their characters are plain. -/
theorem Lexes.mem_atoms {cs : List Char} {ts : List Token} (h : Lexes cs ts) :
    ∀ s ∈ atoms ts, s ≠ "" ∧ ∀ c ∈ s.toList, isPlain c = true := by
  induction h with
  | done => simp [atoms]
  | blank _ _ ih => exact ih
  | opening _ ih => simpa [atoms] using ih
  | closing _ ih => simpa [atoms] using ih
  | @atom run cs ts hne hrun _ _ ih =>
    intro s hs
    rcases List.mem_cons.1 hs with rfl | hs
    · exact ⟨by simpa using hne, by simpa using hrun⟩
    · exact ih s hs

theorem Lexes.label {l : String} {cs : List Char} {ts : List Token}
    (h : ∀ c ∈ l.toList, isPlain c = true) (hb : Breaks cs) (hl : Lexes cs ts) :
    Lexes (l.toList ++ cs) (ofLabel l ++ ts) := by
  by_cases hne : l = ""
  · subst hne
    exact hl
  · rw [ofLabel, if_neg hne]
    have hrun : l.toList ≠ [] := by simpa using hne
    have := Lexes.atom hrun h hb hl
    rwa [String.ofList_toList] at this

end Token

namespace Branch

open Token

mutual

/-- The tokens of the text of a branch. -/
def tokens : Branch → List Token
  | node l [] => ofLabel l
  | node l (d :: ds) => .opening :: (ofLabel l ++ (tokensOf (d :: ds) ++ [.closing]))

def tokensOf : List Branch → List Token
  | [] => []
  | b :: bs => tokens b ++ tokensOf bs

end

/-- No label has a parenthesis or a blank. -/
def IsPlain (b : Branch) : Prop := ∀ l ∈ b.labels, ∀ c ∈ l.toList, isPlain c = true

theorem isPlain_node {l : String} {ds : List Branch} :
    (node l ds).IsPlain ↔ (∀ c ∈ l.toList, isPlain c = true) ∧ ∀ d ∈ ds, d.IsPlain :=
  forall_mem_labels_node

theorem breaks_textOf {bs : List Branch} {cs : List Char} (h : Breaks cs) :
    Breaks ((textOf bs).toList ++ cs) := by
  rcases bs with _ | ⟨b, bs⟩
  · simpa [textOf] using h
  · have hspace : " ".toList = [' '] := by decide
    have hplain : isPlain ' ' = false := by decide
    simp [textOf, hspace, Breaks, hplain]

mutual

theorem lexes_text {b : Branch} (h : b.IsPlain) {cs : List Char} {ts : List Token}
    (hb : Breaks cs) (hl : Lexes cs ts) : Lexes (b.text.toList ++ cs) (b.tokens ++ ts) := by
  match b with
  | node l [] =>
    rw [text, tokens]
    exact hl.label (isPlain_node.1 h).1 hb
  | node l (d :: ds) =>
    have ho : "(".toList = ['('] := by decide
    have hc : ")".toList = [')'] := by decide
    obtain ⟨hplain, hds⟩ := isPlain_node.1 h
    have hbreak : Breaks (')' :: cs) := breaks_cons.2 isPlain_closing
    have := (((lexes_textOf hds hbreak hl.closing).label hplain (breaks_textOf hbreak))).opening
    rw [text, tokens]
    simpa [ho, hc] using this

theorem lexes_textOf {bs : List Branch} (h : ∀ b ∈ bs, b.IsPlain) {cs : List Char}
    {ts : List Token} (hb : Breaks cs) (hl : Lexes cs ts) :
    Lexes ((textOf bs).toList ++ cs) (tokensOf bs ++ ts) := by
  match bs with
  | [] => simpa [textOf, tokensOf] using hl
  | b :: bs =>
    have hs : " ".toList = [' '] := by decide
    have hblank : Text.isBlank ' ' = true := by decide
    obtain ⟨hplain, hbs⟩ := List.forall_mem_cons.1 h
    have := (lexes_text hplain (breaks_textOf hb) (lexes_textOf hbs hb hl)).blank hblank
    rw [textOf, tokensOf]
    simpa [hs] using this

end

theorem scan_text {b : Branch} (h : b.IsPlain) : scan b.text = b.tokens := by
  have := lexes_text h breaks_nil .done
  rw [List.append_nil, List.append_nil] at this
  exact (lexes_iff.1 this).symm

mutual

theorem atoms_tokens (b : Branch) : atoms b.tokens = b.labels.filter (· ≠ "") := by
  match b with
  | node l [] => rw [tokens, atoms_ofLabel, labels_node, List.flatMap_nil]
  | node l (d :: ds) =>
    have hlabels : (node l (d :: ds)).labels = [l] ++ (d :: ds).flatMap labels := labels_node l _
    rw [tokens, hlabels, List.filter_append, ← atoms_ofLabel, ← atoms_tokensOf]
    simp [atoms]

theorem atoms_tokensOf (bs : List Branch) :
    atoms (tokensOf bs) = (bs.flatMap labels).filter (· ≠ "") := by
  match bs with
  | [] => rfl
  | b :: bs =>
    rw [tokensOf, atoms_append, atoms_tokens b, atoms_tokensOf bs, List.flatMap_cons,
      List.filter_append]

end

end Branch

section Grammar

open Token Branch

mutual

theorem labels_of_isTree {ts : List Token} {b : Branch} (h : IsTree ts b) :
    b.labels = (atoms ts).map unquote := by
  cases h with
  | @node s l ts bs hs hts =>
    rw [labels_node, labels_of_areItems hts, ← denotes_iff.1 hs]
    simp [atoms]

theorem labels_of_areItems {ts : List Token} {bs : List Branch} (h : AreItems ts bs) :
    bs.flatMap labels = (atoms ts).map unquote := by
  cases h with
  | nil => rfl
  | @atom s l ts bs hs hts =>
    rw [List.flatMap_cons, labels_of_areItems hts, Branch.leaf, labels_node, List.flatMap_nil,
      ← denotes_iff.1 hs]
    rfl
  | tree ht hus =>
    rw [List.flatMap_cons, labels_of_isTree ht, labels_of_areItems hus, atoms_append,
      List.map_append]

end

theorem Denotes.mem_toList {s l : String} (h : Denotes s l) {c : Char} (hc : c ∈ l.toList) :
    c ∈ s.toList := by
  cases h with
  | quoted => simp [hc]
  | bare => exact hc

/-- What is read has no parentheses and no blanks in its labels. -/
theorem isPlain_of_isTree {s : String} {b : Branch} (h : IsTree (scan s) b) : b.IsPlain := by
  intro l hl c hc
  rw [labels_of_isTree h] at hl
  obtain ⟨a, ha, rfl⟩ := List.mem_map.1 hl
  exact ((lexes_iff.2 rfl).mem_atoms a ha).2 c ((denotes_iff.2 rfl).mem_toList hc)

end Grammar

/-- A label that is written without loss. -/
structure Writable (l : String) : Prop where
  ne_empty : l ≠ ""
  plain : ∀ c ∈ l.toList, c ≠ '(' ∧ c ≠ ')' ∧ Text.isBlank c = false
  bare : ∀ m, l ≠ "\"" ++ m ++ "\""

/-- All labels of the branch are written without loss. -/
def Branch.IsWritable (b : Branch) : Prop := ∀ l ∈ b.labels, Writable l

namespace Branch

open Token

theorem isWritable_node {l : String} {ds : List Branch} :
    (node l ds).IsWritable ↔ Writable l ∧ ∀ d ∈ ds, d.IsWritable :=
  forall_mem_labels_node

theorem IsWritable.isPlain {b : Branch} (h : b.IsWritable) : b.IsPlain :=
  fun l hl c hc => isPlain_iff.2 ((h l hl).plain c hc)

theorem isTree_of_areItems {l : String} {d : Branch} {ds : List Branch} (hl : Writable l)
    (h : AreItems (tokensOf (d :: ds)) (d :: ds)) :
    IsTree (node l (d :: ds)).tokens (node l (d :: ds)) := by
  rw [tokens, ofLabel, if_neg hl.ne_empty]
  exact .node (.bare hl.bare) h

mutual

theorem areItems_tokens {b : Branch} (h : b.IsWritable) {ts : List Token} {bs : List Branch}
    (hts : AreItems ts bs) : AreItems (b.tokens ++ ts) (b :: bs) := by
  match b with
  | node l [] =>
    obtain ⟨hl, -⟩ := isWritable_node.1 h
    rw [tokens, ofLabel, if_neg hl.ne_empty]
    exact .atom (.bare hl.bare) hts
  | node l (d :: ds) =>
    obtain ⟨hl, hds⟩ := isWritable_node.1 h
    exact .tree (isTree_of_areItems hl (areItems_tokensOf hds)) hts

theorem areItems_tokensOf {bs : List Branch} (h : ∀ b ∈ bs, b.IsWritable) :
    AreItems (tokensOf bs) bs := by
  match bs with
  | [] => exact .nil
  | b :: bs =>
    obtain ⟨hb, hbs⟩ := List.forall_mem_cons.1 h
    rw [tokensOf]
    exact areItems_tokens hb (areItems_tokensOf hbs)

end

theorem isTree_tokens {b : Branch} (hb : b.daughters ≠ []) (h : b.IsWritable) :
    IsTree b.tokens b := by
  rcases b with ⟨l, _ | ⟨d, ds⟩⟩
  · exact absurd rfl hb
  · obtain ⟨hl, hds⟩ := isWritable_node.1 h
    exact isTree_of_areItems hl (areItems_tokensOf hds)

theorem not_isTree_ofLabel {l : String} {b : Branch} : ¬ IsTree (ofLabel l) b := by
  rw [ofLabel]
  split <;> rintro ⟨-, -⟩

/-- If the text of a branch reads as the branch, no label was lost or altered. -/
theorem isWritable_of_isTree {b : Branch} (h : IsTree (scan b.text) b) :
    b.daughters ≠ [] ∧ b.IsWritable := by
  have hplain := isPlain_of_isTree h
  rw [scan_text hplain] at h
  have hlabels := labels_of_isTree h
  rw [atoms_tokens] at hlabels
  -- as many labels are read as are not empty, and the empty ones would be missing
  have hne : ∀ l ∈ b.labels, l ≠ "" := by
    have hlength := congrArg List.length hlabels
    rw [List.length_map, eq_comm, List.length_filter_eq_length_iff] at hlength
    simpa using hlength
  have hbare : ∀ l ∈ b.labels, unquote l = l := by
    rw [List.filter_eq_self.2 (by simpa using hne)] at hlabels
    exact List.map_inj_left.1 (hlabels.symm.trans (List.map_id _).symm)
  refine ⟨?_, fun l hl => ⟨hne l hl, fun c hc => isPlain_iff.1 (hplain l hl c hc), ?_⟩⟩
  · rcases b with ⟨l, _ | ⟨d, ds⟩⟩
    · rw [tokens] at h
      exact absurd h not_isTree_ofLabel
    · exact List.cons_ne_nil d ds
  · rintro m rfl
    have hlength := congrArg String.length (hbare _ hl)
    rw [unquote_quoted, String.length_append, String.length_append] at hlength
    have hquote : "\"".length = 1 := by decide
    omega

end Branch

/-- A tree is read back from its text exactly if its top has daughters and all its labels can be
written: they are not empty, they have no parentheses or blanks, and they do not stand between
double quotes. -/
theorem Tree.read_text (t : Tree) : read t.text = .ok t ↔
    ∃ b, t.top? = some b ∧ b.daughters ≠ [] ∧ ∀ l ∈ b.labels, Writable l := by
  rw [read_eq_ok]
  constructor
  · rintro ⟨b, hb, rfl⟩
    exact ⟨b, rfl, Branch.isWritable_of_isTree hb⟩
  · rintro ⟨b, ht, hne, hb⟩
    obtain ⟨top?⟩ := t
    obtain rfl : top? = some b := ht
    have hwritable : b.IsWritable := hb
    refine ⟨b, ?_, rfl⟩
    show IsTree (Token.scan b.text) b
    rw [Branch.scan_text hwritable.isPlain]
    exact Branch.isTree_tokens hne hwritable

end Violable
