import Mathlib
import Violable.Acceptor.Window
import Violable.Proofs.Trimming
import Violable.Sample.Toy

/-!
# Acceptors as they are built

An acceptor that is built from its start by the operations on acceptors has its start, its final
states and the ends of its arcs among its states (`Built.closed`). Pruning then only takes away
(`prune_within`), also where a first arc is removed and the acceptor is trimmed. So the more arcs
are removed the less is left (`prune_within_prune`), and the less is accepted. Adding an arc that is
there already changes nothing (`Closed.addArc_eq_self_iff`), as its ends are there with it.
-/

namespace Violable.Acceptor

/-- The acceptors that there are. -/
inductive Built : Acceptor → Prop
  | ofStart (q : State) : Built (.ofStart q)
  | ofWindows (a : Alphabet) (size : Nat) : Built (.ofWindows a size)
  | addState {m : Acceptor} (q : State) : Built m → Built (m.addState q).2
  | addFinal {m : Acceptor} (q : State) : Built m → Built (m.addFinal q)
  | addArc {m : Acceptor} (t : Arc) : Built m → Built (m.addArc t).2
  | without {m : Acceptor} (dead : List Arc) : Built m → Built (m.without dead)
  | trim {m : Acceptor} : Built m → Built m.trim
  | prune {m : Acceptor} (dead : List Arc) : Built m → Built (m.prune dead)

/-- All states that an acceptor mentions are among its states. -/
structure Closed (m : Acceptor) : Prop where
  start : m.start ∈ m.states
  finals : ∀ q ∈ m.finals, q ∈ m.states
  src : ∀ t ∈ m.arcs, t.src ∈ m.states
  dest : ∀ t ∈ m.arcs, t.dest ∈ m.states

/-- What there is of the first acceptor is there of the second one. -/
structure Within (n m : Acceptor) : Prop where
  start : n.start = m.start
  states : ∀ q ∈ n.states, q ∈ m.states
  finals : ∀ q ∈ n.finals, q ∈ m.finals
  arcs : ∀ t ∈ n.arcs, t ∈ m.arcs

section Closed

variable {m : Acceptor}

theorem closed_ofStart (q : State) : (ofStart q).Closed := by
  refine ⟨by simp [ofStart], ?_, ?_, ?_⟩ <;> simp [ofStart]

theorem closed_ofArcs (start : State) (finals : List State) (arcs : List Arc) :
    (ofArcs start finals arcs).Closed := by
  have hends : ∀ t ∈ (ofArcs start finals arcs).arcs,
      t.src ∈ (ofArcs start finals arcs).states ∧ t.dest ∈ (ofArcs start finals arcs).states := by
    intro t ht
    have ht : t ∈ arcs := SortedSet.mem_ofList.1 ht
    simp only [ofArcs, SortedSet.mem_ofList, List.mem_append, List.mem_flatMap]
    exact ⟨.inr ⟨t, ht, by simp⟩, .inr ⟨t, ht, by simp⟩⟩
  refine ⟨by simp [ofArcs], fun q hq => ?_, fun t ht => (hends t ht).1, fun t ht => (hends t ht).2⟩
  have hq : q ∈ finals := SortedSet.mem_ofList.1 hq
  simp [ofArcs, hq]

theorem closed_trim : m.trim.Closed := by
  have huseful : ∀ q ∈ m.useful, q ∈ m.trim.states :=
    fun q hq => mem_states_trim_iff_useful.2 (.inr hq)
  refine ⟨by simp [trim], fun q hq => ?_, fun t ht => ?_, fun t ht => ?_⟩
  · exact huseful q (mem_finals_trim_iff_useful.1 hq).2
  · exact huseful t.src (mem_arcs_trim_iff_useful.1 ht).2.1
  · exact huseful t.dest (mem_arcs_trim_iff_useful.1 ht).2.2

namespace Closed

variable (h : m.Closed)

include h

theorem addState (q : State) : (m.addState q).2.Closed where
  start := by simp [Acceptor.addState, h.start]
  finals r hr := by simp [Acceptor.addState, h.finals r hr]
  src t ht := by simp [Acceptor.addState, h.src t ht]
  dest t ht := by simp [Acceptor.addState, h.dest t ht]

theorem addFinal (q : State) : (m.addFinal q).Closed where
  start := by simp [Acceptor.addFinal, h.start]
  finals r hr := by
    rcases SortedSet.mem_insert.1 hr with rfl | hr
    · simp [Acceptor.addFinal]
    · simp [Acceptor.addFinal, h.finals r hr]
  src t ht := by simp [Acceptor.addFinal, h.src t ht]
  dest t ht := by simp [Acceptor.addFinal, h.dest t ht]

theorem addArc (t : Arc) : (m.addArc t).2.Closed where
  start := by simp [Acceptor.addArc, h.start]
  finals r hr := by simp [Acceptor.addArc, h.finals r hr]
  src u hu := by
    rcases SortedSet.mem_insert.1 hu with rfl | hu
    · simp [Acceptor.addArc]
    · simp [Acceptor.addArc, h.src u hu]
  dest u hu := by
    rcases SortedSet.mem_insert.1 hu with rfl | hu
    · simp [Acceptor.addArc]
    · simp [Acceptor.addArc, h.dest u hu]

theorem without (dead : List Arc) : (m.without dead).Closed where
  start := h.start
  finals := h.finals
  src t ht := h.src t (SortedSet.mem_filter.1 ht).1
  dest t ht := h.dest t (SortedSet.mem_filter.1 ht).1

theorem prune (dead : List Arc) : (m.prune dead).Closed := by
  rcases eq_or_ne dead [] with rfl | hne
  · exact h
  · rw [prune_of_ne_nil hne]
    exact closed_trim

/-- A path does not leave the states. -/
theorem path_mem : ∀ {ts : List Arc} {q r : State}, m.Path q ts r → q ∈ m.states → r ∈ m.states
  | [], _, _, rfl, hq => hq
  | t :: _, _, _, ⟨⟨ht, _⟩, hts⟩, _ => path_mem hts (h.dest t ht)

end Closed

theorem Built.closed (h : m.Built) : m.Closed := by
  induction h with
  | ofStart q => exact closed_ofStart q
  | ofWindows a size => exact closed_ofArcs _ _ _
  | addState q _ ih => exact ih.addState q
  | addFinal q _ ih => exact ih.addFinal q
  | addArc t _ ih => exact ih.addArc t
  | without dead _ ih => exact ih.without dead
  | trim _ _ => exact closed_trim
  | prune dead _ ih => exact ih.prune dead

end Closed

section Within

variable {n m : Acceptor}

theorem Within.refl (m : Acceptor) : m.Within m := ⟨rfl, fun _ => id, fun _ => id, fun _ => id⟩

theorem Within.trans {k : Acceptor} (h : k.Within n) (h' : n.Within m) : k.Within m :=
  ⟨h.start.trans h'.start, fun q hq => h'.states q (h.states q hq),
    fun q hq => h'.finals q (h.finals q hq), fun t ht => h'.arcs t (h.arcs t ht)⟩

theorem Within.path (h : n.Within m) : ∀ {ts : List Arc} {q r : State},
    n.Path q ts r → m.Path q ts r
  | [], _, _, hr => hr
  | t :: _, _, _, ⟨⟨ht, hs⟩, hts⟩ => ⟨⟨h.arcs t ht, hs⟩, h.path hts⟩

theorem Within.accepts (h : n.Within m) {ts : List Arc} (hts : n.Accepts ts) : m.Accepts ts := by
  obtain ⟨r, hr, hpath⟩ := hts
  exact ⟨r, h.finals r hr, h.start ▸ h.path hpath⟩

/-- Within any bound no more strings are accepted. -/
theorem Within.accepted (h : n.Within m) (k : Nat) {s : String} (hs : s ∈ n.accepted k) :
    s ∈ m.accepted k := by
  obtain ⟨ts, hts, hk, rfl⟩ := mem_accepted.1 hs
  exact mem_accepted.2 ⟨ts, h.accepts hts, hk, rfl⟩

theorem Closed.trim_within (h : m.Closed) : m.trim.Within m where
  start := rfl
  states q hq := by
    rcases mem_states_trim_iff_useful.1 hq with rfl | hq
    · exact h.start
    · obtain ⟨ts, -, hts, -⟩ := mem_useful.1 hq
      exact h.path_mem hts h.start
  finals q hq := (mem_finals_trim_iff_useful.1 hq).1
  arcs t ht := (mem_arcs_trim_iff_useful.1 ht).1

theorem without_within (dead : List Arc) : (m.without dead).Within m :=
  ⟨rfl, fun _ => id, fun _ => id, fun _ ht => (SortedSet.mem_filter.1 ht).1⟩

theorem Closed.prune_within (h : m.Closed) (dead : List Arc) : (m.prune dead).Within m := by
  rcases eq_or_ne dead [] with rfl | hne
  · exact .refl m
  · rw [prune_of_ne_nil hne]
    exact (h.without dead).trim_within.trans (without_within dead)

/-- Removing more arcs can be done by removing the first of them before the others. -/
theorem Closed.prune_within_prune (h : m.Closed) {dead dead' : List Arc} (hsub : dead ⊆ dead') :
    (m.prune dead').Within (m.prune dead) := by
  have hunion : m.prune dead' = (m.prune dead).prune dead' := by
    rw [prune_prune]
    refine prune_congr fun t => ?_
    rw [List.mem_append, or_iff_right_of_imp fun ht => hsub ht]
  rw [hunion]
  exact (h.prune dead).prune_within dead'

end Within

section Adding

variable {m : Acceptor}

theorem addState_eq_self_iff {q : State} : (m.addState q).2 = m ↔ q ∈ m.states := by
  refine ⟨fun h => ?_, fun h => ?_⟩
  · have hq : q ∈ (m.addState q).2.states := SortedSet.mem_insert.2 (.inl rfl)
    rwa [h] at hq
  · rw [addState, SortedSet.insert_of_mem h]

/-- An arc that is there already has its ends among the states already. -/
theorem Closed.addArc_eq_self_iff (hm : m.Closed) {t : Arc} : (m.addArc t).2 = m ↔ t ∈ m.arcs := by
  refine ⟨fun h => ?_, fun h => ?_⟩
  · have ht : t ∈ (m.addArc t).2.arcs := SortedSet.mem_insert.2 (.inl rfl)
    rwa [h] at ht
  · rw [Acceptor.addArc, SortedSet.insert_of_mem (hm.src t h),
      SortedSet.insert_of_mem (hm.dest t h), SortedSet.insert_of_mem h]

/-- However an acceptor is built, it is closed. Adding a state or an arc says that it is new, and
changes the acceptor, exactly if it is not there yet, and what removes arcs or trims never adds. -/
theorem operations_of_built (h : m.Built) :
    m.Closed ∧
    (∀ q, ((m.addState q).1 = true ↔ q ∉ m.states) ∧ ((m.addState q).2 = m ↔ q ∈ m.states)) ∧
    (∀ t, ((m.addArc t).1 = true ↔ t ∉ m.arcs) ∧ ((m.addArc t).2 = m ↔ t ∈ m.arcs)) ∧
    (∀ dead, (m.without dead).Within m) ∧ m.trim.Within m ∧ ∀ dead, (m.prune dead).Within m :=
  ⟨h.closed, fun _ => ⟨decide_eq_true_iff, addState_eq_self_iff⟩,
    fun _ => ⟨decide_eq_true_iff, h.closed.addArc_eq_self_iff⟩, without_within,
    h.closed.trim_within, h.closed.prune_within⟩

/-- Without its first arc the acceptor keeps no more than its start. -/
theorem operations_of_built_cutOff :
    let t : Arc := ⟨⟨""⟩, ">", ⟨">"⟩⟩
    let m := Toy.contextAcceptor.prune [t]
    m.Built ∧ m.Closed ∧ m.states.toList = [⟨""⟩] ∧ m.finals.toList = [] ∧
      (m.addState ⟨""⟩).2 = m ∧ (m.addState ⟨">"⟩).1 = true ∧ (m.addArc t).1 = true ∧
      (m.addArc t).2 ≠ m ∧ (m.without [t]).Within m ∧ m.trim.Within m ∧ (m.prune [t]).Within m := by
  intro t m
  have hm : m.Built := .prune _ (.ofWindows _ _)
  have hstates : m.states.toList = [⟨""⟩] := by cbv
  have hfinals : m.finals.toList = [] := by cbv
  have harcs : m.arcs.toList = [] := by cbv
  have ht : t ∉ m.arcs := by simp [SortedSet.mem_def, harcs]
  have hq : ⟨">"⟩ ∉ m.states := by simp [SortedSet.mem_def, hstates]
  obtain ⟨hclosed, hstate, harc, hwithout, htrim, hprune⟩ := operations_of_built hm
  exact ⟨hm, hclosed, hstates, hfinals, (hstate _).2.2 hclosed.start, (hstate _).1.2 hq,
    (harc t).1.2 ht, fun h => ht ((harc t).2.1 h), hwithout [t], htrim, hprune [t]⟩

end Adding

end Violable.Acceptor
