/-!
# Reachability

What can be reached from some roots along edges is found by taking one thing after another from a
list of things to visit. A thing met for the first time is noted, and its successors are put on
the list. The search ends because a thing with successors is noted only once.
-/

namespace Violable

variable {α : Type} [DecidableEq α]

/-- The targets of the edges from `a`. -/
def successors (edges : List (α × α)) (a : α) : List α :=
  (edges.filter (·.1 = a)).map (·.2)

/-- The edges from things that are not noted yet. -/
def openEdges (edges : List (α × α)) (seen : List α) : List (α × α) :=
  edges.filter (·.1 ∉ seen)

theorem openEdges_cons (edges : List (α × α)) (seen : List α) (a : α) :
    openEdges edges (a :: seen) = (openEdges edges seen).filter (·.1 ≠ a) := by
  rw [openEdges, openEdges, List.filter_filter]
  exact List.filter_congr fun e _ => by simp [List.mem_cons, not_or]

theorem length_openEdges_cons_le (edges : List (α × α)) (seen : List α) (a : α) :
    (openEdges edges (a :: seen)).length ≤ (openEdges edges seen).length := by
  rw [openEdges_cons]
  exact List.length_filter_le _ _

theorem length_openEdges_cons_lt {edges : List (α × α)} {seen : List α} {a b : α}
    (ha : a ∉ seen) (hb : b ∈ successors edges a) :
    (openEdges edges (a :: seen)).length < (openEdges edges seen).length := by
  obtain ⟨e, he, rfl⟩ := List.mem_map.1 hb
  obtain ⟨he, hea⟩ := List.mem_filter.1 he
  have hea : e.1 = a := by simpa using hea
  rw [openEdges_cons, List.length_filter_lt_length_iff_exists]
  exact ⟨e, by simp [openEdges, he, hea, ha], by simp [hea]⟩

/-- Notes what is to be visited and what can be reached from it, after what is noted already. -/
def visit (edges : List (α × α)) (seen : List α) : List α → List α
  | [] => seen
  | a :: rest =>
    if a ∈ seen then visit edges seen rest
    else visit edges (a :: seen) (successors edges a ++ rest)
termination_by rest => ((openEdges edges seen).length, rest.length)
decreasing_by
  · exact Prod.Lex.right _ (by simp)
  · rename_i ha
    cases h : successors edges a with
    | nil =>
      rcases Nat.lt_or_eq_of_le (length_openEdges_cons_le edges seen a) with hlt | heq
      · exact Prod.Lex.left _ _ hlt
      · rw [heq]
        exact Prod.Lex.right _ (by simp)
    | cons b l => exact Prod.Lex.left _ _ (length_openEdges_cons_lt ha (h ▸ List.mem_cons_self))

/-- All that can be reached from the roots by following edges, the roots included. -/
def reachable (edges : List (α × α)) (roots : List α) : List α :=
  visit edges [] roots

end Violable
