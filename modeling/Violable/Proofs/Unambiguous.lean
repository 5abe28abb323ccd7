import Violable.Proofs.ReadBack
import Violable.Proofs.Survivors

/-!
# Trees told by their texts

Not every text reads back, but no two trees that were read have the same text. The text of a branch
whose labels are free of parentheses and blanks can be told from what follows it, as that is
nothing, a space or the parenthesis that closes the mother (`text_append_inj`): a label ends where
the first character comes that is in no label, and an empty label is what stands between two such
characters. Removals leave the labels as they are, so this is true of what is left as well
(`text_inj`).
-/

namespace Violable

open Token

/-- What may follow the text of a branch. -/
def Follows (cs : List Char) : Prop := ∀ c, cs.head? = some c → c = ' ' ∨ c = ')'

theorem Follows.breaks {cs : List Char} (h : Follows cs) : Breaks cs := by
  intro c hc
  rcases h c hc with rfl | rfl <;> decide

theorem follows_nil : Follows [] := by simp [Follows]

theorem follows_closing (cs : List Char) : Follows (')' :: cs) := by simp [Follows]

theorem takeWhile_isPlain {run cs : List Char} (h : ∀ c ∈ run, isPlain c = true) (hb : Breaks cs) :
    (run ++ cs).takeWhile isPlain = run := by
  rw [List.takeWhile_append_of_pos h]
  rcases cs with _ | ⟨c, cs⟩
  · simp
  · rw [List.takeWhile_cons_of_neg (by simp [breaks_cons.1 hb]), List.append_nil]

/-- A label ends where the first character comes that is in no label. -/
theorem label_append_inj {l l' : String} {cs cs' : List Char}
    (h : ∀ c ∈ l.toList, isPlain c = true) (h' : ∀ c ∈ l'.toList, isPlain c = true)
    (hb : Breaks cs) (hb' : Breaks cs') (heq : l.toList ++ cs = l'.toList ++ cs') :
    l = l' ∧ cs = cs' := by
  have hlabel : l.toList = l'.toList := by
    rw [← takeWhile_isPlain h hb, heq, takeWhile_isPlain h' hb']
  exact ⟨String.toList_inj.1 hlabel, List.append_cancel_left (hlabel ▸ heq)⟩

namespace Branch

theorem toList_text_node (l : String) (d : Branch) (ds : List Branch) :
    (node l (d :: ds)).text.toList = '(' :: (l.toList ++ ((textOf (d :: ds)).toList ++ [')'])) := by
  have ho : "(".toList = ['('] := by decide
  have hc : ")".toList = [')'] := by decide
  simp [text, ho, hc]

theorem toList_textOf_cons (b : Branch) (bs : List Branch) :
    (textOf (b :: bs)).toList = ' ' :: (b.text.toList ++ (textOf bs).toList) := by
  have hs : " ".toList = [' '] := by decide
  simp [textOf, hs]

theorem follows_textOf (bs : List Branch) (cs : List Char) :
    Follows ((textOf bs).toList ++ ')' :: cs) := by
  rcases bs with _ | ⟨b, bs⟩
  · exact follows_closing cs
  · rw [toList_textOf_cons]
    simp [Follows]

/-- The text of a leaf does not begin with a parenthesis, nor does what follows it. -/
theorem label_append_ne_opening {l : String} (h : ∀ c ∈ l.toList, isPlain c = true) {cs : List Char}
    (hf : Follows cs) (rest : List Char) : l.toList ++ cs ≠ '(' :: rest := by
  intro heq
  rcases hl : l.toList with _ | ⟨c, run⟩ <;> rw [hl] at heq h
  · rcases hf '(' (by simp_all) with hc | hc <;> cases hc
  · obtain ⟨rfl, -⟩ := List.cons.inj heq
    exact absurd (h '(' List.mem_cons_self) (by decide)

mutual

theorem text_append_inj {b b' : Branch} (h : b.IsPlain) (h' : b'.IsPlain) {cs cs' : List Char}
    (hf : Follows cs) (hf' : Follows cs') (heq : b.text.toList ++ cs = b'.text.toList ++ cs') :
    b = b' ∧ cs = cs' := by
  -- an opening parenthesis tells an inner branch from a leaf, whose label may be empty
  match b, b' with
  | node l [], node l' [] =>
    obtain ⟨rfl, rfl⟩ :=
      label_append_inj (isPlain_node.1 h).1 (isPlain_node.1 h').1 hf.breaks hf'.breaks heq
    exact ⟨rfl, rfl⟩
  | node l [], node l' (d' :: ds') =>
    rw [toList_text_node] at heq
    exact absurd heq (label_append_ne_opening (isPlain_node.1 h).1 hf _)
  | node l (d :: ds), node l' [] =>
    rw [toList_text_node] at heq
    exact absurd heq.symm (label_append_ne_opening (isPlain_node.1 h').1 hf' _)
  | node l (d :: ds), node l' (d' :: ds') =>
    obtain ⟨hl, hds⟩ := isPlain_node.1 h
    obtain ⟨hl', hds'⟩ := isPlain_node.1 h'
    simp only [toList_text_node, List.cons_append, List.append_assoc, List.nil_append,
      List.cons.injEq, true_and] at heq
    obtain ⟨rfl, hrest⟩ := label_append_inj hl hl' (follows_textOf _ cs).breaks
      (follows_textOf _ cs').breaks heq
    obtain ⟨hds, rfl⟩ := textOf_append_inj hds hds' hrest
    exact ⟨hds ▸ rfl, rfl⟩

theorem textOf_append_inj {bs bs' : List Branch} (h : ∀ b ∈ bs, b.IsPlain)
    (h' : ∀ b ∈ bs', b.IsPlain) {cs cs' : List Char}
    (heq : (textOf bs).toList ++ ')' :: cs = (textOf bs').toList ++ ')' :: cs') :
    bs = bs' ∧ cs = cs' := by
  -- a space tells a branch from the end of the list
  match bs, bs' with
  | [], [] => exact ⟨rfl, (List.cons.inj heq).2⟩
  | [], b' :: bs' =>
    rw [toList_textOf_cons] at heq
    cases (List.cons.inj heq).1
  | b :: bs, [] =>
    rw [toList_textOf_cons] at heq
    cases (List.cons.inj heq).1
  | b :: bs, b' :: bs' =>
    obtain ⟨hb, hbs⟩ := List.forall_mem_cons.1 h
    obtain ⟨hb', hbs'⟩ := List.forall_mem_cons.1 h'
    simp only [toList_textOf_cons, List.cons_append, List.append_assoc, List.cons.injEq,
      true_and] at heq
    obtain ⟨rfl, hrest⟩ :=
      text_append_inj hb hb' (follows_textOf bs cs) (follows_textOf bs' cs') heq
    obtain ⟨rfl, rfl⟩ := textOf_append_inj hbs hbs' hrest
    exact ⟨rfl, rfl⟩

end

/-- An empty pair of parentheses is the text of no branch. -/
theorem text_ne_empty {b : Branch} (h : b.IsPlain) : b.text ≠ Tree.empty.text := by
  have hempty : Tree.empty.text.toList = ['(', ')'] := by decide
  intro heq
  have heq := congrArg String.toList heq
  rw [hempty] at heq
  rcases b with ⟨l, _ | ⟨d, ds⟩⟩
  · have hl := (isPlain_node.1 h).1
    have heq : l.toList ++ [] = ['(', ')'] := (List.append_nil _).trans heq
    exact label_append_ne_opening hl follows_nil _ heq
  · have hl := (isPlain_node.1 h).1
    rw [toList_text_node, toList_textOf_cons] at heq
    rcases hrun : l.toList with _ | ⟨c, run⟩ <;> rw [hrun] at heq hl
    · cases (List.cons.inj (List.cons.inj heq).2).1
    · obtain ⟨rfl, -⟩ := List.cons.inj (List.cons.inj heq).2
      exact absurd (hl ')' List.mem_cons_self) (by decide)

end Branch

namespace Tree

open Branch

/-- The trees that are read, and what is left of them after any removals and prunings. -/
inductive Obtained : Tree → Prop
  | empty : Obtained .empty
  | read {s : String} {t : Tree} : Tree.read s = .ok t → Obtained t
  | remove {t : Tree} (indices : List Nat) : Obtained t → Obtained (t.remove indices)
  | prune {t : Tree} (c : Nat) (illFormed : List Node) : Obtained t →
      Obtained (t.pruneIn c illFormed)

/-- No label has a parenthesis or a blank. -/
def IsPlain (t : Tree) : Prop := ∀ n ∈ t.nodes 0, ∀ c ∈ n.label.toList, isPlain c = true

theorem isPlain_some {b : Branch} : IsPlain ⟨some b⟩ ↔ b.IsPlain := by
  rw [Branch.IsPlain, labels, ← map_branch_nodesIn 0 [] 0 b, List.map_map, List.forall_mem_map]
  rfl

theorem isPlain_remove {t : Tree} (h : t.IsPlain) (indices : List Nat) :
    (t.remove indices).IsPlain := by
  intro m hm
  obtain ⟨hlength, hall⟩ := List.forall₂_iff_get.1 (forall₂_nodes_remove t 0 0 indices)
  obtain ⟨i, hi, rfl⟩ := List.mem_iff_getElem.1 hm
  have hlabel := (hall i hi (hlength ▸ hi)).label
  rw [List.get_eq_getElem, List.get_eq_getElem] at hlabel
  rw [hlabel]
  exact h _ (List.mem_filter.1 (List.getElem_mem _)).1

theorem Obtained.isPlain {t : Tree} (h : t.Obtained) : t.IsPlain := by
  induction h with
  | empty => exact fun n hn => absurd hn List.not_mem_nil
  | read hread =>
    obtain ⟨b, hb, rfl⟩ := read_eq_ok.1 hread
    exact isPlain_some.2 (isPlain_of_isTree hb)
  | remove indices _ ih => exact isPlain_remove ih indices
  | prune c illFormed _ ih => exact isPlain_remove ih _

theorem text_inj {t u : Tree} (ht : t.IsPlain) (hu : u.IsPlain) (h : t.text = u.text) : t = u := by
  rcases t with ⟨_ | b⟩ <;> rcases u with ⟨_ | b'⟩
  · rfl
  · exact absurd h.symm (text_ne_empty (isPlain_some.1 hu))
  · exact absurd h (text_ne_empty (isPlain_some.1 ht))
  · have heq : b.text.toList ++ [] = b'.text.toList ++ [] := by
      rw [List.append_nil, List.append_nil]
      exact congrArg String.toList h
    rw [(text_append_inj (isPlain_some.1 ht) (isPlain_some.1 hu) follows_nil follows_nil heq).1]

/-- Trees that were read, and what is left of them after removals and prunings, are told by their
texts. -/
theorem eq_of_text_eq {t u : Tree} (ht : t.Obtained) (hu : u.Obtained) (h : t.text = u.text) :
    t = u :=
  text_inj ht.isPlain hu.isPlain h

/-- One tree is read as it is, and the other one is left when a word is pruned. One of their labels
is empty, and one is a pair of quotes. -/
theorem eq_of_text_eq_quotes : ∃ t u : Tree, t.Obtained ∧ u.Obtained ∧
    t.text = "(S  \"\")" ∧ u.text = "(S  \"\")" ∧ t = u := by
  have ht : read "(S \"\" \"\"\"\")" = .ok (.node "S" [.leaf "", .leaf "\"\""]) := by cbv
  have hu : read "(S \"\" (A \"a\") \"\"\"\")" =
      .ok (.node "S" [.leaf "", .node "A" [.leaf "a"], .leaf "\"\""]) := by cbv
  have hu' := (Obtained.read hu).remove [3]
  have htext : text (.node "S" [.leaf "", .leaf "\"\""]) = "(S  \"\")" := by decide
  exact ⟨_, _, .read ht, hu', htext, htext, eq_of_text_eq (.read ht) hu' htext⟩

end Tree

end Violable
