import Mathlib
import Violable.Acceptor.Search
import Violable.Proofs.Path
import Violable.Proofs.Worklist
import Violable.Sample.Toy

/-!
# What the search finds

A path on the stack promises what can be spelled by going on from it within the bound. A step takes
nothing away from what is found or promised, and adds nothing to it (`promises_step`), while one
path fewer is left to look at (`left_step`). So the search is over after as many steps as there are
paths within the bound, whatever cycles there are, and has found the bounded language by then
(`iterate_step_initial`).
-/

namespace Violable.Acceptor

variable {m : Acceptor} {n : Nat} {x : String}

/-- Going on from the path leads to a final state and spells `x`, with at most `n` arcs in all. -/
def Pending.Promises (m : Acceptor) (n : Nat) (p : Pending) (x : String) : Prop :=
  ∃ ts, m.AcceptsFrom p.state ts ∧ p.labels.length + ts.length ≤ n ∧
    " ".intercalate (p.labels ++ ts.map Arc.label) = x

/-- How many paths of at most `n` arcs begin at a state. -/
def pathCount (m : Acceptor) : Nat → State → Nat
  | 0, _ => 1
  | n + 1, q => ((m.arcsFrom q).map fun t => m.pathCount n t.dest).sum + 1

theorem pathCount_pos : ∀ (n : Nat) (q : State), 0 < m.pathCount n q
  | 0, _ => Nat.one_pos
  | _ + 1, _ => Nat.succ_pos _

namespace Search

/-- What is found already, or promised by a path on the stack. -/
def Promises (m : Acceptor) (n : Nat) (s : Search) (x : String) : Prop :=
  x ∈ s.found ∨ ∃ p ∈ s.stack, p.Promises m n x

/-- No path on the stack is too long. One that is would not be stopped, as lengths are compared with
the bound for equality only. -/
def Bounded (n : Nat) (s : Search) : Prop := ∀ p ∈ s.stack, p.labels.length ≤ n

/-- How many paths are still to be looked at, those included that are not yet on the stack. -/
def left (m : Acceptor) (n : Nat) (s : Search) : Nat :=
  (s.stack.map fun p => m.pathCount (n - p.labels.length) p.state).sum

section Step

variable {p : Pending} {s : Search}

theorem mem_longer {r : Pending} : r ∈ longer m n p ↔
    p.labels.length ≠ n ∧ ∃ t ∈ m.arcs, t.src = p.state ∧ p.goOn t = r := by
  unfold longer
  split_ifs with h <;> simp [h, arcsFrom, SortedSet.mem_def, and_assoc]

theorem length_goOn (t : Arc) : (p.goOn t).labels.length = p.labels.length + 1 := by
  simp [Pending.goOn]

/-- What a path promises it spells itself, or one of the longer paths promises it. -/
theorem promises_iff (hp : p.labels.length ≤ n) : p.Promises m n x ↔
    (p.state ∈ m.finals ∧ " ".intercalate p.labels = x) ∨ ∃ r ∈ longer m n p, r.Promises m n x := by
  have hspell : ∀ (t : Arc) (ts : List Arc), p.labels ++ (t :: ts).map Arc.label =
      (p.goOn t).labels ++ ts.map Arc.label := fun t ts => by simp [Pending.goOn]
  refine ⟨?_, ?_⟩
  · rintro ⟨_ | ⟨t, ts⟩, hts, hn, rfl⟩
    · exact .inl ⟨acceptsFrom_nil.1 hts, by simp⟩
    · obtain ⟨⟨ht, hs⟩, hts⟩ := acceptsFrom_cons.1 hts
      rw [List.length_cons] at hn
      refine .inr ⟨p.goOn t, mem_longer.2 ⟨by omega, t, ht, hs, rfl⟩, ts, hts, ?_, by rw [hspell]⟩
      rw [length_goOn]
      omega
  · rintro (⟨hfinal, rfl⟩ | ⟨r, hr, ts, hts, hn, rfl⟩)
    · exact ⟨[], acceptsFrom_nil.2 hfinal, hp, by simp⟩
    · obtain ⟨-, t, ht, hs, rfl⟩ := mem_longer.1 hr
      rw [length_goOn] at hn
      refine ⟨t :: ts, acceptsFrom_cons.2 ⟨⟨ht, hs⟩, hts⟩, ?_, by rw [hspell]⟩
      rw [List.length_cons]
      omega

theorem bounded_step (hs : s.Bounded n) : (step m n s).Bounded n := by
  obtain ⟨_ | ⟨p, rest⟩, found⟩ := s
  · exact hs
  intro r hr
  have hp := hs p List.mem_cons_self
  rcases List.mem_append.1 hr with hr | hr
  · obtain ⟨hne, t, -, -, rfl⟩ := mem_longer.1 (List.mem_reverse.1 hr)
    rw [length_goOn]
    omega
  · exact hs r (List.mem_cons_of_mem _ hr)

theorem mem_found_step {rest : List Pending} {found : SortedSet String} :
    x ∈ (step m n ⟨p :: rest, found⟩).found ↔
      (p.state ∈ m.finals ∧ " ".intercalate p.labels = x) ∨ x ∈ found := by
  by_cases hfinal : p.state ∈ m.finals <;> simp [step, isFinal, hfinal, eq_comm]

/-- What is found or promised stays so, and nothing comes to it. -/
theorem promises_step (hs : s.Bounded n) : (step m n s).Promises m n x ↔ s.Promises m n x := by
  obtain ⟨_ | ⟨p, rest⟩, found⟩ := s
  · rfl
  have hp := promises_iff (m := m) (x := x) (hs p List.mem_cons_self)
  have hstack : (step m n ⟨p :: rest, found⟩).stack = (longer m n p).reverse ++ rest := rfl
  -- what the path on top promised is now partly found, and partly promised by the longer paths
  simp only [Promises, mem_found_step, hstack, List.mem_append, List.mem_reverse, List.mem_cons,
    or_and_right, exists_or, exists_eq_left, hp]
  rw [or_or_or_comm, or_left_comm]

theorem sum_longer (hp : p.labels.length ≤ n) :
    ((longer m n p).map fun r => m.pathCount (n - r.labels.length) r.state).sum + 1 =
      m.pathCount (n - p.labels.length) p.state := by
  unfold longer
  split_ifs with h
  · simp [h, pathCount]
  · obtain ⟨d, hd⟩ : ∃ d, n - p.labels.length = d + 1 := ⟨n - p.labels.length - 1, by omega⟩
    have hd' : n - (p.labels.length + 1) = d := by omega
    simp [hd, hd', pathCount, Pending.goOn, Function.comp_def]

/-- Each step takes one path off, for good. -/
theorem left_step (hs : s.Bounded n) : (step m n s).left m n = s.left m n - 1 := by
  obtain ⟨_ | ⟨p, rest⟩, found⟩ := s
  · rfl
  have hp := sum_longer (m := m) (hs p List.mem_cons_self)
  simp only [left, step, List.map_append, List.map_reverse, List.sum_append, List.sum_reverse,
    List.map_cons, List.sum_cons]
  omega

theorem stack_eq_nil (h : s.left m n = 0) : s.stack = [] := by
  obtain ⟨_ | ⟨p, rest⟩, found⟩ := s
  · rfl
  have hpos := pathCount_pos (m := m) (n - p.labels.length) p.state
  simp only [left, List.map_cons, List.sum_cons] at h
  omega

end Step

/-- A search is over after as many steps as there are paths left to look at, and by then all is
found that it promised. -/
theorem iterate_step {s : Search} (hs : s.Bounded n) :
    let s' := (step m n)^[s.left m n] s
    s'.stack = [] ∧ ∀ x, x ∈ s'.found ↔ s.Promises m n x := by
  intro s'
  have hkeeps : ∀ r : Search, (r.Bounded n ∧ ∀ x, r.Promises m n x ↔ s.Promises m n x) →
      ((step m n r).Bounded n ∧ ∀ x, (step m n r).Promises m n x ↔ s.Promises m n x) ∧
        (step m n r).left m n = r.left m n - 1 := by
    rintro r ⟨hr, hsame⟩
    exact ⟨⟨bounded_step hr, fun x => (promises_step hr).trans (hsame x)⟩, left_step hr⟩
  obtain ⟨⟨-, hsame⟩, hleft⟩ := iterate_of_step hkeeps ⟨hs, fun _ => Iff.rfl⟩ (s.left m n)
  have hstack : s'.stack = [] := stack_eq_nil (hleft.trans (Nat.sub_self _))
  refine ⟨hstack, fun x => ?_⟩
  rw [← hsame]
  simp [Promises, s', hstack]

theorem iterate_step_initial :
    (step m n)^[m.pathCount n m.start] (initial m) = ⟨[], m.accepted n⟩ := by
  have hbounded : (initial m).Bounded n := by simp [Bounded, initial]
  have hleft : (initial m).left m n = m.pathCount n m.start := by simp [left, initial]
  obtain ⟨hstack, hfound⟩ := iterate_step (m := m) hbounded
  rw [hleft] at hstack hfound
  have hpromises : ∀ x, (initial m).Promises m n x ↔ x ∈ m.accepted n := fun x => by
    simp [Promises, Pending.Promises, initial, mem_accepted, Accepts]
  have haccepted : ((step m n)^[m.pathCount n m.start] (initial m)).found = m.accepted n := by
    ext x
    rw [hfound, hpromises]
  rw [← hstack, ← haccepted]

end Search

section Bound

theorem accepted_mono {k : Nat} (h : n ≤ k) (hx : x ∈ m.accepted n) : x ∈ m.accepted k := by
  obtain ⟨ts, hts, hn, rfl⟩ := mem_accepted.1 hx
  exact mem_accepted.2 ⟨ts, hts, hn.trans h, rfl⟩

theorem mem_accepted_zero : x ∈ m.accepted 0 ↔ m.start ∈ m.finals ∧ x = "" := by
  rw [mem_accepted]
  refine ⟨?_, ?_⟩
  · rintro ⟨ts, hts, hn, rfl⟩
    obtain rfl := List.eq_nil_of_length_eq_zero (Nat.le_zero.1 hn)
    exact ⟨acceptsFrom_nil.1 hts, rfl⟩
  · rintro ⟨hfinal, rfl⟩
    exact ⟨[], acceptsFrom_nil.2 hfinal, Nat.le_refl 0, rfl⟩

/-- The lengths of the accepted paths that spell `x`. -/
def lengths (m : Acceptor) (x : String) : Set Nat :=
  {k | ∃ ts, m.Accepts ts ∧ ts.length = k ∧ " ".intercalate (ts.map Arc.label) = x}

theorem first_accepted_iff :
    (x ∈ m.accepted n ∧ ∀ k < n, x ∉ m.accepted k) ↔ IsLeast (m.lengths x) n := by
  refine ⟨?_, ?_⟩
  · rintro ⟨hx, hfirst⟩
    have hle : ∀ k ∈ m.lengths x, n ≤ k := by
      rintro k ⟨ts, hts, rfl, hspell⟩
      by_contra hlt
      exact hfirst _ (by omega) (mem_accepted.2 ⟨ts, hts, Nat.le_refl _, hspell⟩)
    obtain ⟨ts, hts, hn, hspell⟩ := mem_accepted.1 hx
    have hlength := hle ts.length ⟨ts, hts, rfl, hspell⟩
    exact ⟨⟨ts, hts, by omega, hspell⟩, hle⟩
  · rintro ⟨⟨ts, hts, rfl, hspell⟩, hle⟩
    refine ⟨mem_accepted.2 ⟨ts, hts, Nat.le_refl _, hspell⟩, fun k hk hx => ?_⟩
    obtain ⟨us, hus, hn, hspell⟩ := mem_accepted.1 hx
    have hlength := hle ⟨us, hus, rfl, hspell⟩
    omega

end Bound

/-- The search ends, and with the strings that the accepted paths within the bound spell, the empty
path included. They become more with the bound, and a string is first among them at the length of
the shortest path that spells it. -/
theorem accepted_exact (m : Acceptor) (n : Nat) :
    (Search.step m n)^[m.pathCount n m.start] (.initial m) = ⟨[], m.accepted n⟩ ∧
    (∀ x, x ∈ m.accepted n ↔
      ∃ ts, m.Accepts ts ∧ ts.length ≤ n ∧ " ".intercalate (ts.map Arc.label) = x) ∧
    (∀ x, x ∈ m.accepted 0 ↔ m.start ∈ m.finals ∧ x = "") ∧
    (∀ k, n ≤ k → ∀ x ∈ m.accepted n, x ∈ m.accepted k) ∧
    ∀ x, (x ∈ m.accepted n ∧ ∀ k < n, x ∉ m.accepted k) ↔ IsLeast (m.lengths x) n :=
  ⟨Search.iterate_step_initial, fun _ => mem_accepted, fun _ => mem_accepted_zero,
    fun _ h _ => accepted_mono h, fun _ => first_accepted_iff⟩

theorem accepted_exact_twoStates :
    let m := Toy.twoStates
    (Search.step m 2)^[7] (.initial m) = ⟨[], m.accepted 2⟩ ∧
    (m.accepted 2).toList = ["", "a", "a a", "a b", "b", "b a", "b b"] ∧
    "a b" ∈ m.accepted 3 ∧ IsLeast (m.lengths "a b") 2 := by
  intro m
  have hcount : m.pathCount 2 m.start = 7 := by cbv
  have haccepted : (m.accepted 2).toList = ["", "a", "a a", "a b", "b", "b a", "b b"] := by cbv
  have hone : (m.accepted 1).toList = ["", "a", "b"] := by cbv
  have hmem : "a b" ∈ m.accepted 2 := by
    rw [SortedSet.mem_def, haccepted]
    decide
  obtain ⟨hends, -, -, hmono, hfirst⟩ := accepted_exact m 2
  refine ⟨hcount ▸ hends, haccepted, hmono 3 (by decide) _ hmem,
    (hfirst "a b").1 ⟨hmem, fun k hk hx => ?_⟩⟩
  have hx : "a b" ∈ m.accepted 1 := accepted_mono (by omega) hx
  rw [SortedSet.mem_def, hone] at hx
  exact absurd hx (by decide)

end Violable.Acceptor
