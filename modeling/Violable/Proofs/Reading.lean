import Mathlib
import Violable.Proofs.Construction
import Violable.Proofs.Windows

/-!
# Reading through any alphabet

Whatever the alphabet, even if windows cannot be told from their labels, the begin delimiter and any
symbols after it can be read (`exists_path_read`), and so can the end delimiter after these. Hence
every state that there is lies on the way from the start to the end (`mem_useful_ofWindows`), and
nothing is left to be trimmed.
-/

namespace Violable.Acceptor

variable {m : Acceptor} {a : Alphabet} {size : Nat}

theorem mem_states_ofArcs {start q : State} {finals : List State} {arcs : List Arc} :
    q ∈ (ofArcs start finals arcs).states ↔ q = start ∨ q ∈ (ofArcs start finals arcs).finals ∨
      ∃ t ∈ (ofArcs start finals arcs).arcs, q = t.src ∨ q = t.dest := by
  simp [ofArcs]

/-- An acceptor without useless states has nothing to be trimmed. -/
theorem Closed.trim_eq_self (h : m.Closed) (huseful : ∀ q ∈ m.states, q ∈ m.useful) :
    m.trim = m := by
  ext q
  · rfl
  · rw [mem_states_trim_iff_useful]
    refine ⟨?_, fun hq => .inr (huseful q hq)⟩
    rintro (rfl | hq)
    · exact h.start
    · exact h.trim_within.states q (mem_states_trim_iff_useful.2 (.inr hq))
  · rw [mem_finals_trim_iff_useful]
    exact and_iff_left_of_imp fun hq => huseful q (h.finals q hq)
  · rw [mem_arcs_trim_iff_useful]
    exact and_iff_left_of_imp fun ht => ⟨huseful _ (h.src _ ht), huseful _ (h.dest _ ht)⟩

theorem beginArc_mem (a : Alphabet) (size : Nat) : a.beginArc ∈ (ofWindows a size).arcs :=
  mem_arcs_ofWindows.2 (.inl rfl)

section Symbols

variable {xs : List String} (hxs : ∀ x ∈ xs, x ∈ a.symbols)

include hxs

theorem endArc_mem (size : Nat) : a.endArc (max size 1) xs ∈ (ofWindows a size).arcs :=
  mem_arcs_ofWindows.2 (.inr ⟨xs, hxs, .inl rfl⟩)

theorem readArc_mem (size : Nat) {x : String} (hx : x ∈ a.symbols) :
    a.readArc (max size 1) xs x ∈ (ofWindows a size).arcs :=
  mem_arcs_ofWindows.2 (.inr ⟨xs, hxs, .inr ⟨x, hx, rfl⟩⟩)

/-- The state after some symbols can be reached by reading them. -/
theorem exists_path_read (size : Nat) : ∃ ts,
    (ofWindows a size).Path ⟨""⟩ ts (a.stateAfter (max size 1) xs) ∧
      ts.map Arc.label = a.bos :: xs := by
  induction xs using List.reverseRecOn with
  | nil =>
    refine ⟨[a.beginArc], ⟨⟨beginArc_mem a size, rfl⟩, ?_⟩, rfl⟩
    rw [Alphabet.stateAfter_nil (window_pos size)]
    rfl
  | append_singleton xs x ih =>
    simp only [List.forall_mem_append, List.forall_mem_singleton] at hxs
    obtain ⟨ts, hts, hlabels⟩ := ih hxs.1
    refine ⟨ts ++ [a.readArc (max size 1) xs x], path_append.2 ⟨_, hts, ?_⟩, ?_⟩
    · exact ⟨⟨readArc_mem hxs.1 size hxs.2, rfl⟩, rfl⟩
    · rw [List.map_append, hlabels]
      rfl

theorem acceptsFrom_endArc (size : Nat) :
    (ofWindows a size).AcceptsFrom (a.stateAfter (max size 1) xs) [a.endArc (max size 1) xs] :=
  acceptsFrom_cons.2 ⟨⟨endArc_mem hxs size, rfl⟩, acceptsFrom_nil.2 (mem_finals_ofWindows.2 rfl)⟩

/-- The begin delimiter, any symbols and the end delimiter are accepted. -/
theorem exists_accepts_read (size : Nat) :
    ∃ ts, (ofWindows a size).Accepts ts ∧ ts.map Arc.label = a.bos :: xs ++ [a.eos] := by
  obtain ⟨ts, hts, hlabels⟩ := exists_path_read hxs size
  refine ⟨ts ++ [a.endArc (max size 1) xs], ?_, ?_⟩
  · exact accepts_append.2 ⟨_, hts, acceptsFrom_endArc hxs size⟩
  · rw [List.map_append, hlabels]
    rfl

theorem stateAfter_mem_useful (size : Nat) :
    a.stateAfter (max size 1) xs ∈ (ofWindows a size).useful := by
  obtain ⟨ts, hts, -⟩ := exists_path_read hxs size
  exact mem_useful.2 ⟨ts, _, hts, acceptsFrom_endArc hxs size⟩

end Symbols

theorem start_mem_useful (a : Alphabet) (size : Nat) : ⟨""⟩ ∈ (ofWindows a size).useful := by
  obtain ⟨ts, hts, -⟩ := exists_accepts_read (List.forall_mem_nil (· ∈ a.symbols)) size
  exact mem_useful.2 ⟨[], ts, rfl, hts⟩

theorem end_mem_useful (a : Alphabet) (size : Nat) : ⟨a.eos⟩ ∈ (ofWindows a size).useful := by
  obtain ⟨ts, ⟨r, hr, hts⟩, -⟩ := exists_accepts_read (List.forall_mem_nil (· ∈ a.symbols)) size
  obtain rfl := mem_finals_ofWindows.1 hr
  exact mem_useful.2 ⟨ts, [], hts, acceptsFrom_nil.2 hr⟩

/-- The ends of an arc are the start, the end or the states after some symbols. -/
theorem mem_useful_of_arc {t : Arc} (ht : t ∈ (ofWindows a size).arcs) :
    t.src ∈ (ofWindows a size).useful ∧ t.dest ∈ (ofWindows a size).useful := by
  rcases mem_arcs_ofWindows.1 ht with rfl | ⟨xs, hxs, rfl | ⟨x, hx, rfl⟩⟩
  · have hfirst := stateAfter_mem_useful (List.forall_mem_nil (· ∈ a.symbols)) size
    rw [Alphabet.stateAfter_nil (window_pos size)] at hfirst
    exact ⟨start_mem_useful a size, hfirst⟩
  · exact ⟨stateAfter_mem_useful hxs size, end_mem_useful a size⟩
  · have hnext : ∀ y ∈ xs ++ [x], y ∈ a.symbols :=
      List.forall_mem_append.2 ⟨hxs, List.forall_mem_singleton.2 hx⟩
    exact ⟨stateAfter_mem_useful hxs size, stateAfter_mem_useful hnext size⟩

theorem mem_useful_ofWindows {q : State} (hq : q ∈ (ofWindows a size).states) :
    q ∈ (ofWindows a size).useful := by
  rcases mem_states_ofArcs.1 hq with rfl | hfinal | ⟨t, ht, rfl | rfl⟩
  · exact start_mem_useful a size
  · obtain rfl := mem_finals_ofWindows.1 hfinal
    exact end_mem_useful a size
  · exact (mem_useful_of_arc ht).1
  · exact (mem_useful_of_arc ht).2

/-- An acceptor that remembers a window has no useless states, whatever its alphabet. -/
theorem trim_ofWindows (a : Alphabet) (size : Nat) : (ofWindows a size).trim = ofWindows a size :=
  (Built.ofWindows a size).closed.trim_eq_self fun _ => mem_useful_ofWindows

end Violable.Acceptor
