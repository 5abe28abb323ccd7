import Mathlib
import Violable.Acceptor.Traversal
import Violable.Acceptor.Trim
import Violable.Proofs.Worklist
import Violable.Sample.Toy

/-!
# A traversal finds the closure

Whatever is noted or on the stack comes after a root, every root is noted or on the stack, and so is
every neighbour of what is noted (`Sound`). That is kept by each step, so when the stack is empty
what is noted is just what comes after the roots (`Sound.mem_noted`). The stack may grow with a
step, but what it holds together with the edges that may still be put on it becomes one less
(`Sound.left_step`). So a traversal ends, after as many steps as there are roots and edges from what
comes after them, whatever cycles there are (`stack_iterate_eq_nil_iff`). Two traversals find what
is useful in an acceptor (`useful_eq_noted`).
-/

namespace Violable

variable {α : Type} [Ord α] [DecidableEq α] [Std.TransOrd α]

namespace Neighbours

variable {g : Neighbours α} {a b : α}

omit [Ord α] [Std.TransOrd α] in
theorem successors_append (l l' : List (α × α)) (a : α) :
    successors (l ++ l') a = successors l a ++ successors l' a := by
  simp [successors]

omit [Ord α] [Std.TransOrd α] in
theorem successors_flatMap {l : List (α × List α)} (h : (l.map (·.1)).Nodup) (a : α) :
    successors (l.flatMap fun e => e.2.map (e.1, ·)) a = (SortedMap.seek a l).getD [] := by
  induction l with
  | nil => rfl
  | cons e l ih =>
    obtain ⟨b, next⟩ := e
    rw [List.map_cons, List.nodup_cons] at h
    rw [List.flatMap_cons, successors_append, ih h.2, SortedMap.seek]
    split_ifs with hab
    · subst hab
      have hnone : SortedMap.seek a l = none := Option.eq_none_iff_forall_ne_some.2 fun v hv =>
        h.1 (List.mem_map.2 ⟨(a, v), (SortedMap.seek_of_nodup h.2).1 hv, rfl⟩)
      simp [successors, hnone, List.filter_map, Function.comp_def]
    · simp [successors, List.filter_map, Function.comp_def, Ne.symm hab]

theorem successors_edges (g : Neighbours α) (a : α) : successors g.edges a = g.next a :=
  successors_flatMap (List.pairwise_map.2 (g.increasing.imp ne_of_compare_lt)) a

theorem mem_next : b ∈ g.next a ↔ (a, b) ∈ g.edges := by
  rw [← successors_edges, mem_successors]

/-- A table of edges has for each thing its successors. -/
theorem next_ofEdges [Std.LawfulEqOrd α] (l : List (α × α)) (a : α) :
    (ofEdges l).next a = successors l a := by
  have hfold : ∀ g : Neighbours α, (l.foldl add g).next a = g.next a ++ successors l a := by
    induction l with
    | nil => simp [successors]
    | cons e l ih =>
      intro g
      rw [List.foldl_cons, ih, ← List.singleton_append, successors_append, ← List.append_assoc]
      congr 1
      rw [next, next, add, SortedMap.get?_alter]
      by_cases ha : a = e.1
      · simp [successors, ha]
      · simp [successors, ha, Ne.symm ha]
  exact hfold ∅

end Neighbours

open Neighbours

namespace Traversal

variable {g : Neighbours α} {roots : List α} {s : Traversal α} {a b : α}

/-- Met so far: noted, or on the stack. -/
def Met (s : Traversal α) (b : α) : Prop := b ∈ s.noted ∨ b ∈ s.stack

/-- All that is met comes after a root, and nothing is lost that comes next. -/
structure Sound (g : Neighbours α) (roots : List α) (s : Traversal α) : Prop where
  met : ∀ b, s.Met b → ∃ a ∈ roots, Leads g.edges a b
  first : ∀ a ∈ roots, s.Met a
  next : ∀ a ∈ s.noted, ∀ b ∈ g.next a, s.Met b

section Initial

omit [Std.TransOrd α]

theorem sound_initial : Sound g roots (initial roots) where
  met b hb := ⟨b, by simpa [Met, initial] using hb, .refl⟩
  first a ha := by simpa [Met, initial] using ha
  next a ha := absurd ha SortedSet.not_mem_empty

/-- The thing on top is noted already, so it is enough to take it off. -/
theorem Sound.skip {rest : List α} {noted : SortedSet α} (h : Sound g roots ⟨a :: rest, noted⟩)
    (ha : a ∈ noted) : Sound g roots ⟨rest, noted⟩ := by
  have hmet : ∀ b, Met ⟨a :: rest, noted⟩ b → Met ⟨rest, noted⟩ b := by
    rintro b (hb | hb)
    · exact .inl hb
    · rcases List.mem_cons.1 hb with rfl | hb
      · exact .inl ha
      · exact .inr hb
  exact ⟨fun b hb => h.met b (hb.imp_right (List.mem_cons_of_mem a)),
    fun b hb => hmet b (h.first b hb), fun b hb c hc => hmet c (h.next b hb c hc)⟩

end Initial

/-- When the stack is empty, just what comes after a root is noted. -/
theorem Sound.mem_noted (h : Sound g roots s) (hs : s.stack = []) :
    b ∈ s.noted ↔ ∃ a ∈ roots, Leads g.edges a b := by
  have hnoted : ∀ b, s.Met b → b ∈ s.noted := fun b hb => hb.resolve_right (by simp [hs])
  refine ⟨fun hb => h.met b (.inl hb), ?_⟩
  rintro ⟨a, ha, hab⟩
  induction hab with
  | refl => exact hnoted a (h.first a ha)
  | tail _ hbc ih => exact hnoted _ (h.next _ ih _ (mem_next.2 hbc))

section Left

/-- The edges from what comes after the roots. -/
def edgesAfter (g : Neighbours α) (roots : List α) : List (α × α) :=
  g.edges.filter (·.1 ∈ reachable g.edges roots)

/-- How often something is still to be taken off, with what is not on the stack yet. -/
def left (g : Neighbours α) (roots : List α) (s : Traversal α) : Nat :=
  s.stack.length + ((edgesAfter g roots).filter (·.1 ∉ s.noted)).length

omit [Std.TransOrd α] in
theorem left_initial :
    (initial roots).left g roots = roots.length + (edgesAfter g roots).length := by
  simp [left, initial]

theorem successors_edgesAfter (ha : a ∈ reachable g.edges roots) :
    successors (edgesAfter g roots) a = g.next a := by
  rw [← successors_edges, successors, edgesAfter, List.filter_filter]
  refine congrArg (List.map Prod.snd) (List.filter_congr fun e _ => ?_)
  by_cases he : e.1 = a <;> simp [he, ha]

theorem Sound.left_eq_zero_iff (h : Sound g roots s) : s.left g roots = 0 ↔ s.stack = [] := by
  refine ⟨fun hleft => ?_, fun hs => ?_⟩
  · unfold left at hleft
    exact List.eq_nil_of_length_eq_zero (by omega)
  · have hnone : (edgesAfter g roots).filter (·.1 ∉ s.noted) = [] := by
      refine List.filter_eq_nil_iff.2 fun e he => ?_
      have hafter := (List.mem_filter.1 he).2
      simpa [h.mem_noted hs, mem_reachable] using hafter
    rw [left, hs, hnone]
    rfl

end Left

variable [Std.LawfulEqOrd α]

theorem Sound.note {rest : List α} {noted : SortedSet α} (h : Sound g roots ⟨a :: rest, noted⟩) :
    Sound g roots ⟨(g.next a).reverse ++ rest, noted.insert a⟩ := by
  have hmet : ∀ b, Met ⟨a :: rest, noted⟩ b →
      Met ⟨(g.next a).reverse ++ rest, noted.insert a⟩ b := by
    intro b hb
    simp only [Met, List.mem_cons, List.mem_append, SortedSet.mem_insert] at hb ⊢
    tauto
  obtain ⟨r, hr, hra⟩ := h.met a (.inr List.mem_cons_self)
  refine ⟨fun b hb => ?_, fun b hb => hmet b (h.first b hb), fun b hb c hc => ?_⟩
  · simp only [Met, List.mem_append, List.mem_reverse, SortedSet.mem_insert] at hb
    rcases hb with (rfl | hb) | hb | hb
    · exact ⟨r, hr, hra⟩
    · exact h.met b (.inl hb)
    · exact ⟨r, hr, hra.tail (mem_next.1 hb)⟩
    · exact h.met b (.inr (List.mem_cons_of_mem a hb))
  · rcases SortedSet.mem_insert.1 hb with rfl | hb
    · exact .inr (List.mem_append_left rest (List.mem_reverse.2 hc))
    · exact hmet c (h.next b hb c hc)

theorem Sound.step (h : Sound g roots s) : Sound g roots (step g s) := by
  obtain ⟨_ | ⟨a, rest⟩, noted⟩ := s
  · exact h
  rw [Traversal.step]
  split_ifs with ha
  · exact h.skip ha
  · exact h.note

/-- A thing that is noted takes its edges with it. -/
theorem length_filter_insert {noted : SortedSet α} (ha : a ∉ noted) (l : List (α × α)) :
    (l.filter (·.1 ∉ noted.insert a)).length + (successors l a).length =
      (l.filter (·.1 ∉ noted)).length := by
  induction l with
  | nil => rfl
  | cons e l ih =>
    rw [← List.singleton_append, successors_append, List.filter_append, List.filter_append]
    simp only [List.length_append]
    have hone : ([e].filter (·.1 ∉ noted.insert a)).length + (successors [e] a).length =
        ([e].filter (·.1 ∉ noted)).length := by
      by_cases he : e.1 = a <;> simp [successors, List.filter_singleton, he, ha]
    omega

/-- Each step takes one thing off, for good. -/
theorem Sound.left_step (h : Sound g roots s) :
    (Traversal.step g s).left g roots = s.left g roots - 1 := by
  obtain ⟨_ | ⟨a, rest⟩, noted⟩ := s
  · have hzero := h.left_eq_zero_iff.2 rfl
    rw [Traversal.step, hzero]
  rw [Traversal.step]
  split_ifs with ha
  · simp only [left, List.length_cons]
    omega
  -- the edges from the thing are on the stack now, and none of them is put there again
  · have hcount := length_filter_insert ha (edgesAfter g roots)
    rw [successors_edgesAfter (mem_reachable.2 (h.met a (.inr List.mem_cons_self)))] at hcount
    simp only [left, List.length_append, List.length_reverse, List.length_cons]
    omega

theorem Sound.iterate (h : Sound g roots s) (n : Nat) :
    Sound g roots ((Traversal.step g)^[n] s) ∧
      ((Traversal.step g)^[n] s).left g roots = s.left g roots - n :=
  iterate_of_step (fun _ hs => ⟨hs.step, hs.left_step⟩) h n

theorem stack_iterate_eq_nil_iff (g : Neighbours α) (roots : List α) (n : Nat) :
    ((Traversal.step g)^[n] (initial roots)).stack = [] ↔
      roots.length + (edgesAfter g roots).length ≤ n := by
  have hinitial : Sound g roots (initial roots) := sound_initial
  obtain ⟨hsound, hleft⟩ := hinitial.iterate n
  rw [← hsound.left_eq_zero_iff, hleft, left_initial]
  omega

/-- A traversal ends whatever the table is, and after exactly as many steps as there are roots and
edges from what they lead to. When its stack is empty, just what some edges or none lead to from a
root is noted, and this is what is reachable. -/
theorem closure_exact (g : Neighbours α) (roots : List α) :
    (∀ n, ((Traversal.step g)^[n] (initial roots)).stack = [] ↔
      roots.length + (g.edges.filter (·.1 ∈ reachable g.edges roots)).length ≤ n) ∧
    (∀ n, ((Traversal.step g)^[n] (initial roots)).stack = [] →
      ∀ b, b ∈ ((Traversal.step g)^[n] (initial roots)).noted ↔
        ∃ a ∈ roots, Relation.ReflTransGen (fun a b => b ∈ g.next a) a b) ∧
    ∀ b, b ∈ reachable g.edges roots ↔
      ∃ a ∈ roots, Relation.ReflTransGen (fun a b => b ∈ g.next a) a b := by
  have hnext : (fun a b => b ∈ g.next a) = fun a b => (a, b) ∈ g.edges := by
    funext a b
    exact propext mem_next
  rw [hnext]
  refine ⟨stack_iterate_eq_nil_iff g roots, fun n hn b => ?_, fun b => mem_reachable⟩
  exact (sound_initial.iterate n).1.mem_noted hn

/-- A table with a cycle, a loop, two edges alike, and something that leads into the cycle. -/
def Toy.ring : Neighbours Nat := .ofEdges [(0, 1), (1, 0), (1, 1), (0, 1), (2, 0)]

theorem closure_exact_ring :
    ((Traversal.step Toy.ring)^[6] (initial [0, 0])).stack = [] ∧
      ((Traversal.step Toy.ring)^[5] (initial [0, 0])).stack ≠ [] ∧
      (∃ a ∈ [0, 0], Relation.ReflTransGen (fun a b => b ∈ Toy.ring.next a) a 1) ∧
      2 ∉ reachable Toy.ring.edges [0, 0] := by
  have hends : ((Traversal.step Toy.ring)^[6] (initial [0, 0])).stack = [] := by decide
  obtain ⟨-, hnoted, hreachable⟩ := closure_exact Toy.ring [0, 0]
  refine ⟨hends, by decide, (hnoted 6 hends 1).1 (by decide), fun h => ?_⟩
  exact absurd ((hnoted 6 hends 2).2 ((hreachable 2).1 h)) (by decide)

/-- In a table of edges a traversal notes what is reachable along the edges. -/
theorem mem_noted_ofEdges {edges : List (α × α)} {n : Nat}
    (h : ((Traversal.step (ofEdges edges))^[n] (initial roots)).stack = []) :
    b ∈ ((Traversal.step (ofEdges edges))^[n] (initial roots)).noted ↔
      b ∈ reachable edges roots := by
  have hedges : (fun a b => (a, b) ∈ (ofEdges edges).edges) = fun a b => (a, b) ∈ edges := by
    funext a b
    rw [← mem_next, next_ofEdges, mem_successors]
  rw [(sound_initial.iterate n).1.mem_noted h, mem_reachable, Leads, hedges]

end Traversal

/-- The useful states are those that a traversal along the arcs notes from the start, and one
against the arcs from the final states. -/
theorem Acceptor.useful_eq_noted (m : Acceptor) :
    let forward := ofEdges (m.arcs.toList.map fun t => (t.src, t.dest))
    let backward := ofEdges (m.arcs.toList.map fun t => (t.dest, t.src))
    ∃ n k, ((Traversal.step forward)^[n] (.initial [m.start])).stack = [] ∧
      ((Traversal.step backward)^[k] (.initial m.finals.toList)).stack = [] ∧
      ∀ q, q ∈ m.useful ↔ q ∈ ((Traversal.step forward)^[n] (.initial [m.start])).noted ∧
        q ∈ ((Traversal.step backward)^[k] (.initial m.finals.toList)).noted := by
  intro forward backward
  have hn := (Traversal.stack_iterate_eq_nil_iff forward [m.start] _).2 le_rfl
  have hk := (Traversal.stack_iterate_eq_nil_iff backward m.finals.toList _).2 le_rfl
  refine ⟨_, _, hn, hk, fun q => ?_⟩
  rw [Traversal.mem_noted_ofEdges hn, Traversal.mem_noted_ofEdges hk]
  exact SortedSet.mem_filter.trans (and_congr SortedSet.mem_ofList decide_eq_true_iff)

end Violable
