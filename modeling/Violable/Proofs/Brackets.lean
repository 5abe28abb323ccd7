import Mathlib.Tactic.Push
import Mathlib.Tactic.SplitIfs
import Violable.Proofs.Tokens
import Violable.Tree.Notation

/-!
# The grammar of bracket notation

A list of tokens is a tree by the rules of `IsTree`: a parenthesis, an atom, any number of atoms
and trees, and a parenthesis. The reader holds the nodes that are open and closes them one after
another. What the rest of the tokens has to be for them all to be closed is said by `Closes`, and
the reader finds a tree just where that is so (`readInside_eq_ok`). So it accepts the texts whose
tokens are a tree by the rules, and returns that tree (`read_eq_ok`).
-/

namespace Violable

/-- The label that an atom stands for: what is between its double quotes, if it has a pair of them,
and else the atom itself. -/
inductive Denotes : String → String → Prop
  | quoted (l : String) : Denotes ("\"" ++ l ++ "\"") l
  | bare {s : String} : (∀ l, s ≠ "\"" ++ l ++ "\"") → Denotes s s

mutual

/-- The tokens of a tree. -/
inductive IsTree : List Token → Branch → Prop
  | node {s l : String} {ts : List Token} {bs : List Branch} : Denotes s l → AreItems ts bs →
      IsTree (.opening :: .atom s :: (ts ++ [.closing])) (.node l bs)

/-- The tokens of any number of atoms and trees. -/
inductive AreItems : List Token → List Branch → Prop
  | nil : AreItems [] []
  | atom {s l : String} {ts : List Token} {bs : List Branch} : Denotes s l → AreItems ts bs →
      AreItems (.atom s :: ts) (.leaf l :: bs)
  | tree {ts us : List Token} {b : Branch} {bs : List Branch} : IsTree ts b → AreItems us bs →
      AreItems (ts ++ us) (b :: bs)

end

section Unquote

theorem toList_quote : "\"".toList = ['"'] := by decide

theorem unquote_quoted (l : String) : unquote ("\"" ++ l ++ "\"") = l := by
  simp [unquote, toList_quote]

theorem unquote_of_bare {s : String} (h : ∀ l, s ≠ "\"" ++ l ++ "\"") : unquote s = s := by
  rw [unquote]
  split
  · rename_i cs hs
    split_ifs with hlast
    · obtain ⟨body, rfl⟩ := List.getLast?_eq_some_iff.1 hlast
      refine absurd (String.toList_inj.1 ?_) (h (String.ofList body))
      simp [hs, toList_quote]
    · rfl
  · rfl

theorem denotes_iff {s l : String} : Denotes s l ↔ unquote s = l := by
  constructor
  · rintro (_ | hbare)
    · exact unquote_quoted l
    · exact unquote_of_bare hbare
  · rintro rfl
    by_cases h : ∃ l, s = "\"" ++ l ++ "\""
    · obtain ⟨l, rfl⟩ := h
      rw [unquote_quoted]
      exact .quoted l
    · push Not at h
      rw [unquote_of_bare h]
      exact .bare h

end Unquote

namespace Tree

/-- The node `o` with more daughters. -/
theorem close_foldl_add (bs : List Branch) (o : OpenNode) :
    (bs.foldl .add o).close = .node o.label (o.daughters.reverse ++ bs) := by
  induction bs generalizing o with
  | nil => simp [OpenNode.close]
  | cons b bs ih => simp [ih, OpenNode.add]

/-- What the rest of the tokens has to be for the open nodes to be closed with the result `b`:
items of the innermost one, its parenthesis, and what the nodes around it demand after that. -/
def Closes (b : Branch) (o : OpenNode) : List OpenNode → List Token → Prop
  | [], ts => ∃ us bs, AreItems us bs ∧ ts = us ++ [.closing] ∧ b = (bs.foldl .add o).close
  | p :: outer, ts => ∃ us bs vs, AreItems us bs ∧ ts = us ++ .closing :: vs ∧
      Closes b (p.add (bs.foldl .add o).close) outer vs

/-- Tokens that stand for one more daughter can be put in front. -/
theorem Closes.item {b b' : Branch} {o : OpenNode} {outer : List OpenNode} {us : List Token}
    (ts : List Token) (hitem : ∀ vs bs, AreItems vs bs → AreItems (ts ++ vs) (b' :: bs))
    (h : Closes b (o.add b') outer us) : Closes b o outer (ts ++ us) := by
  rcases outer with _ | ⟨p, outer⟩
  · obtain ⟨vs, bs, hvs, rfl, rfl⟩ := h
    exact ⟨_, _, hitem vs bs hvs, by simp, rfl⟩
  · obtain ⟨vs, bs, ws, hvs, rfl, h⟩ := h
    exact ⟨_, _, ws, hitem vs bs hvs, by simp, h⟩

theorem Closes.atom {b : Branch} {o : OpenNode} {outer : List OpenNode} {ts : List Token}
    (s : String) (h : Closes b (o.add (.leaf (unquote s))) outer ts) :
    Closes b o outer (.atom s :: ts) :=
  h.item [.atom s] fun _ _ hvs => .atom (denotes_iff.2 rfl) hvs

theorem Closes.tree {b b' : Branch} {o : OpenNode} {outer : List OpenNode} {ts us : List Token}
    (ht : IsTree ts b') (h : Closes b (o.add b') outer us) : Closes b o outer (ts ++ us) :=
  h.item ts fun _ _ hvs => .tree ht hvs

theorem closes_of_readInside {position : Nat} {o : OpenNode} {outer : List OpenNode}
    {ts : List Token} {b : Branch} (h : readInside position o outer ts = .ok b) :
    Closes b o outer ts := by
  fun_induction readInside position o outer ts with
  | case1 => cases h
  | case2 position o outer s ts ih => exact (ih h).atom s
  | case3 position o outer s ts ih =>
    obtain ⟨us, bs, vs, hus, rfl, hvs⟩ := ih h
    rw [close_foldl_add] at hvs
    have ht : IsTree (.opening :: .atom s :: (us ++ [.closing])) (.node (unquote s) bs) :=
      .node (denotes_iff.2 rfl) hus
    simpa using Closes.tree ht hvs
  | case4 => cases h
  | case5 position o ts p outer ih => exact ⟨[], [], ts, .nil, rfl, ih h⟩
  | case6 position o ts hts =>
    cases h
    exact ⟨[], [], .nil, by simpa using hts, rfl⟩
  | case7 => cases h

mutual

/-- A tree inside the node `o` is read to its end and becomes the next daughter. -/
theorem readInside_tree {ts : List Token} {b : Branch} (h : IsTree ts b) (position : Nat)
    (o : OpenNode) (outer : List OpenNode) (rest : List Token) :
    readInside position o outer (ts ++ rest) =
      readInside (position + ts.length) (o.add b) outer rest := by
  cases h with
  | @node s l ts bs hs hts =>
    have hread := readInside_items hts (position + 2) ⟨l, []⟩ (o :: outer) (.closing :: rest)
    rw [readInside, close_foldl_add] at hread
    have hlen : position + (Token.opening :: .atom s :: (ts ++ [.closing])).length =
        position + 2 + ts.length + 1 := by
      simp only [List.length_cons, List.length_append, List.length_nil]
      omega
    rw [hlen, List.cons_append, List.cons_append, List.append_assoc, List.singleton_append,
      readInside, denotes_iff.1 hs, hread]
    rfl

theorem readInside_items {ts : List Token} {bs : List Branch} (h : AreItems ts bs)
    (position : Nat) (o : OpenNode) (outer : List OpenNode) (rest : List Token) :
    readInside position o outer (ts ++ rest) =
      readInside (position + ts.length) (bs.foldl .add o) outer rest := by
  cases h with
  | nil => rfl
  | @atom s l ts bs hs hts =>
    rw [List.cons_append, readInside, denotes_iff.1 hs, readInside_items hts, List.foldl_cons,
      List.length_cons, Nat.add_assoc, Nat.add_comm 1]
  | tree ht hus =>
    rw [List.append_assoc, readInside_tree ht, readInside_items hus, List.foldl_cons,
      List.length_append, Nat.add_assoc]

end

theorem readInside_of_closes {b : Branch} {position : Nat} {o : OpenNode} {outer : List OpenNode}
    {ts : List Token} (h : Closes b o outer ts) : readInside position o outer ts = .ok b := by
  induction outer generalizing position o ts with
  | nil =>
    obtain ⟨us, bs, hus, rfl, rfl⟩ := h
    rw [readInside_items hus, readInside]
    rfl
  | cons p outer ih =>
    obtain ⟨us, bs, vs, hus, rfl, h⟩ := h
    rw [readInside_items hus, readInside, ih h]

theorem readInside_eq_ok {b : Branch} {position : Nat} {o : OpenNode} {outer : List OpenNode}
    {ts : List Token} : readInside position o outer ts = .ok b ↔ Closes b o outer ts :=
  ⟨closes_of_readInside, readInside_of_closes⟩

theorem readTokens_eq_ok {ts : List Token} {b : Branch} : readTokens ts = .ok b ↔ IsTree ts b := by
  constructor
  · intro h
    unfold readTokens at h
    split at h
    · cases h
    · rename_i s ts
      obtain ⟨us, bs, hus, rfl, rfl⟩ := readInside_eq_ok.1 h
      rw [close_foldl_add]
      exact .node (denotes_iff.2 rfl) hus
    · cases h
    · cases h
  · rintro ⟨hs, hts⟩
    rw [readTokens, readInside_eq_ok]
    refine ⟨_, _, hts, rfl, ?_⟩
    rw [close_foldl_add, denotes_iff.1 hs]
    rfl

theorem read_eq_ok {s : String} {t : Tree} :
    read s = .ok t ↔ ∃ b, IsTree (Token.scan s) b ∧ t = ⟨some b⟩ := by
  simp only [← readTokens_eq_ok]
  rw [read]
  cases readTokens (Token.scan s) <;> simp [Except.map, eq_comm]

theorem exists_append {p s : String} (h : ∃ m, s = p ++ m) (u : String) : ∃ m, s ++ u = p ++ m := by
  obtain ⟨m, rfl⟩ := h
  exact ⟨m ++ u, String.append_assoc⟩

theorem exists_message (e : ReadError) : ∃ m, e.message = "Parse error: " ++ m := by
  cases e with
  | empty => exact ⟨"empty tree", rfl⟩
  | notOpened found =>
    exact exists_append (exists_append ⟨"expected '(' but found '", by decide⟩ _) _
  | noLabel position => exact exists_append ⟨"missing node label at token ", by decide⟩ _
  | unbalanced label =>
    exact exists_append (exists_append ⟨"unbalanced parentheses in node '", by decide⟩ _) _
  | trailing position => exact exists_append ⟨"trailing input after tree at token ", by decide⟩ _

/-- A text is read as a tree exactly if its tokens are a tree by the grammar, and it is read as
the tree that they denote. Any other text is an error. Nothing but its tokens counts. -/
theorem read_by_grammar (s : String) : ∃ ts : List Token,
    (∀ us, Token.Lexes s.toList us ↔ us = ts) ∧
    (∀ t, read s = .ok t ↔ ∃ b, IsTree ts b ∧ t = ⟨some b⟩) ∧
    ((∀ b, ¬ IsTree ts b) → ∃ e m, read s = .error e ∧ e.message = "Parse error: " ++ m) ∧
    ∀ s' : String, Token.Lexes s'.toList ts → read s' = read s := by
  refine ⟨Token.scan s, fun us => Token.lexes_iff, fun t => read_eq_ok, fun h => ?_,
    fun s' hs' => ?_⟩
  · rcases hr : read s with e | t
    · obtain ⟨m, hm⟩ := exists_message e
      exact ⟨e, m, rfl, hm⟩
    · obtain ⟨b, hb, -⟩ := read_eq_ok.1 hr
      exact absurd hb (h b)
  · rw [read, read, Token.lexes_iff.1 hs']

end Tree

end Violable
