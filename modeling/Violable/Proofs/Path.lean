import Mathlib.Data.Set.Basic
import Mathlib.Logic.Relation
import Mathlib.Tactic.Tauto
import Violable.Acceptor.Language

/-!
# Paths

A path is a list of arcs, each of which leaves the state that the one before enters. A path from
the start to a final state is accepted, and the words of the language are what the accepted paths
spell. The bounded language is what the accepted paths of bounded length spell (`mem_accepted`).
-/

namespace Violable.Acceptor

/-- Where the arcs lead that begin at `q`. -/
def target : State → List Arc → State
  | q, [] => q
  | _, t :: ts => target t.dest ts

/-- The states that are met along arcs that begin at `q`. -/
def statesOn : State → List Arc → List State
  | q, [] => [q]
  | q, t :: ts => q :: statesOn t.dest ts

/-- The arcs of the acceptor lead one after another from `q` to `r`. -/
def Path (m : Acceptor) : State → List Arc → State → Prop
  | q, [], r => q = r
  | q, t :: ts, r => (t ∈ m.arcs ∧ t.src = q) ∧ Path m t.dest ts r

/-- A path that is accepted when it is begun at `q`. -/
def AcceptsFrom (m : Acceptor) (q : State) (ts : List Arc) : Prop :=
  ∃ r ∈ m.finals, m.Path q ts r

/-- A path from the start to a final state. -/
def Accepts (m : Acceptor) (ts : List Arc) : Prop := m.AcceptsFrom m.start ts

/-- The label sequences of the accepted paths. -/
def language (m : Acceptor) : Set (List String) :=
  {w | ∃ ts, m.Accepts ts ∧ ts.map Arc.label = w}

variable {m : Acceptor}

theorem Path.target_eq {ts : List Arc} {q r : State} (h : m.Path q ts r) : target q ts = r := by
  induction ts generalizing q with
  | nil => exact h
  | cons t ts ih => exact ih h.2

/-- A state that is met is where some first part of the arcs leads. -/
theorem mem_statesOn {ts : List Arc} {q r : State} :
    r ∈ statesOn q ts ↔ ∃ us vs, us ++ vs = ts ∧ target q us = r := by
  induction ts generalizing q with
  | nil => simp [statesOn, target, eq_comm]
  | cons t ts ih =>
    rw [statesOn, List.mem_cons, ih]
    refine ⟨?_, ?_⟩
    · rintro (rfl | ⟨us, vs, rfl, rfl⟩)
      · exact ⟨[], _, rfl, rfl⟩
      · exact ⟨t :: us, vs, rfl, rfl⟩
    · rintro ⟨_ | ⟨u, us⟩, vs, h, rfl⟩
      · exact .inl rfl
      · obtain ⟨rfl, rfl⟩ := List.cons.inj h
        exact .inr ⟨us, vs, rfl, rfl⟩

theorem Path.mem_arcs : ∀ {ts : List Arc} {q r : State}, m.Path q ts r → ∀ t ∈ ts, t ∈ m.arcs
  | t :: ts, _, _, h, u, hu => by
    rcases List.mem_cons.1 hu with rfl | hu
    · exact h.1.1
    · exact Path.mem_arcs h.2 u hu

theorem path_append {ts us : List Arc} {q r : State} :
    m.Path q (ts ++ us) r ↔ ∃ p, m.Path q ts p ∧ m.Path p us r := by
  induction ts generalizing q with
  | nil => simp [Path]
  | cons t ts ih =>
    simp only [List.cons_append, Path, ih]
    constructor
    · rintro ⟨h, p, h₁, h₂⟩
      exact ⟨p, ⟨h, h₁⟩, h₂⟩
    · rintro ⟨p, ⟨h, h₁⟩, h₂⟩
      exact ⟨h, p, h₁, h₂⟩

/-- If the arcs of one acceptor are those of another that pass a test, then so are its paths. -/
theorem path_of_arcs {n : Acceptor} {p : Arc → Prop} (h : ∀ t, t ∈ n.arcs ↔ t ∈ m.arcs ∧ p t)
    {ts : List Arc} {q r : State} : n.Path q ts r ↔ m.Path q ts r ∧ ∀ t ∈ ts, p t := by
  induction ts generalizing q with
  | nil => simp [Path]
  | cons t ts ih =>
    simp only [Path, h, ih, List.forall_mem_cons]
    tauto

/-- Whether there is a path depends only on which states are joined by an arc. -/
theorem exists_path_iff {q r : State} :
    (∃ ts, m.Path q ts r) ↔
      Relation.ReflTransGen (fun q r => ∃ t ∈ m.arcs, t.src = q ∧ t.dest = r) q r := by
  constructor
  · rintro ⟨ts, h⟩
    induction ts generalizing q with
    | nil => exact h ▸ .refl
    | cons t ts ih => exact (ih h.2).head ⟨t, h.1.1, h.1.2, rfl⟩
  · intro h
    induction h using Relation.ReflTransGen.head_induction_on with
    | refl => exact ⟨[], rfl⟩
    | head h _ ih =>
      obtain ⟨t, ht, hs, rfl⟩ := h
      obtain ⟨ts, hts⟩ := ih
      exact ⟨t :: ts, ⟨ht, hs⟩, hts⟩

theorem acceptsFrom_cons {q : State} {t : Arc} {ts : List Arc} :
    m.AcceptsFrom q (t :: ts) ↔ (t ∈ m.arcs ∧ t.src = q) ∧ m.AcceptsFrom t.dest ts := by
  constructor
  · rintro ⟨r, hr, ht, h⟩
    exact ⟨ht, r, hr, h⟩
  · rintro ⟨ht, r, hr, h⟩
    exact ⟨r, hr, ht, h⟩

theorem acceptsFrom_nil {q : State} : m.AcceptsFrom q [] ↔ q ∈ m.finals := by
  simp [AcceptsFrom, Path]

theorem mem_spellings : ∀ {n : Nat} {q : State} {w : List String}, w ∈ m.spellings n q ↔
    ∃ ts, m.AcceptsFrom q ts ∧ ts.length ≤ n ∧ ts.map Arc.label = w
  | n, q, [] => by
    have hq : [] ∈ m.spellings n q ↔ q ∈ m.finals := by
      cases n <;> simp [spellings, isFinal]
    simp [hq, acceptsFrom_nil]
  | 0, q, a :: w => by
    by_cases hq : q ∈ m.finals <;> simp_all [spellings, isFinal]
  | n + 1, q, a :: w => by
    have hw : a :: w ∈ m.spellings (n + 1) q ↔
        ∃ t ∈ m.arcs, t.src = q ∧ w ∈ m.spellings n t.dest ∧ t.label = a := by
      by_cases hq : q ∈ m.finals <;>
        simp [spellings, isFinal, arcsFrom, hq, SortedSet.mem_def, and_assoc]
    rw [hw]
    constructor
    · rintro ⟨t, ht, hs, h, rfl⟩
      obtain ⟨ts, hts, hn, rfl⟩ := mem_spellings.1 h
      exact ⟨t :: ts, acceptsFrom_cons.2 ⟨⟨ht, hs⟩, hts⟩, Nat.succ_le_succ hn, rfl⟩
    · rintro ⟨ts, hts, hn, h⟩
      obtain ⟨t, us, rfl, rfl, hus⟩ := List.map_eq_cons_iff.1 h
      obtain ⟨ht, hacc⟩ := acceptsFrom_cons.1 hts
      exact ⟨t, ht.1, ht.2, mem_spellings.2 ⟨us, hacc, Nat.le_of_succ_le_succ hn, hus⟩, rfl⟩

theorem mem_accepted {n : Nat} {s : String} : s ∈ m.accepted n ↔
    ∃ ts, m.Accepts ts ∧ ts.length ≤ n ∧ " ".intercalate (ts.map Arc.label) = s := by
  simp only [accepted, SortedSet.mem_ofList, List.mem_map, mem_spellings]
  constructor
  · rintro ⟨_, ⟨ts, hts, hn, rfl⟩, rfl⟩
    exact ⟨ts, hts, hn, rfl⟩
  · rintro ⟨ts, hts, hn, rfl⟩
    exact ⟨_, ⟨ts, hts, hn, rfl⟩, rfl⟩

end Violable.Acceptor
