import Mathlib
import Violable.Proofs.Construction

/-!
# Testing whether anything is accepted

A path that comes back to a state can leave out what lies between, so where a path leads, one leads
that meets no state twice (`Path.exists_nodup`). In an acceptor that is closed such a path has
fewer arcs than there are states. So if anything is accepted at all, something is accepted within
that bound (`Closed.exists_short`), and the test by reachability says what a bounded enumeration
would say.
-/

namespace Violable

namespace Acceptor

variable {m : Acceptor}

theorem length_statesOn (ts : List Arc) (q : State) : (statesOn q ts).length = ts.length + 1 := by
  induction ts generalizing q with
  | nil => rfl
  | cons t ts ih => rw [statesOn, List.length_cons, ih, List.length_cons]

/-- What is met after the first arcs is the last of what is met. -/
theorem statesOn_suffix (us vs : List Arc) (q : State) :
    statesOn (target q us) vs <:+ statesOn q (us ++ vs) := by
  induction us generalizing q with
  | nil => exact List.suffix_rfl
  | cons u us ih => exact (ih u.dest).trans (List.suffix_cons q _)

/-- Where a path leads, a path leads that meets no state twice. -/
theorem Path.exists_nodup : ∀ {ts : List Arc} {q r : State}, m.Path q ts r →
    ∃ us, m.Path q us r ∧ (statesOn q us).Nodup
  | [], q, _, h => ⟨[], h, List.pairwise_singleton _ q⟩
  | t :: _, q, _, ⟨ht, hts⟩ => by
    obtain ⟨us, hus, hnodup⟩ := hts.exists_nodup
    by_cases hq : q ∈ statesOn t.dest us
    -- the path comes back to `q`, from where its last part is enough
    · obtain ⟨vs, ws, rfl, rfl⟩ := mem_statesOn.1 hq
      obtain ⟨p, hvs, hws⟩ := path_append.1 hus
      rw [hvs.target_eq]
      exact ⟨ws, hws, hvs.target_eq ▸ hnodup.sublist (statesOn_suffix vs ws t.dest).sublist⟩
    · exact ⟨t :: us, ⟨ht, hus⟩, List.nodup_cons.2 ⟨hq, hnodup⟩⟩

namespace Closed

theorem mem_statesOn (h : m.Closed) {ts : List Arc} {q r : State} (hts : m.Path q ts r)
    (hq : q ∈ m.states) : ∀ p ∈ statesOn q ts, p ∈ m.states := by
  intro p hp
  obtain ⟨us, vs, rfl, rfl⟩ := Acceptor.mem_statesOn.1 hp
  obtain ⟨p, hus, -⟩ := path_append.1 hts
  exact hus.target_eq.symm ▸ h.path_mem hus hq

/-- If anything is accepted, then along a path with fewer arcs than there are states. -/
theorem exists_short (h : m.Closed) {ts : List Arc} (hts : m.Accepts ts) :
    ∃ us, m.Accepts us ∧ us.length < m.states.size := by
  obtain ⟨r, hr, hpath⟩ := hts
  obtain ⟨us, hus, hnodup⟩ := hpath.exists_nodup
  refine ⟨us, ⟨r, hr, hus⟩, ?_⟩
  have hlength := (List.Nodup.subperm hnodup (h.mem_statesOn hus h.start)).length_le
  rw [length_statesOn] at hlength
  exact hlength

theorem size_pos (h : m.Closed) : 0 < m.states.size := List.length_pos_of_mem h.start

end Closed

theorem accepted_eq_empty_iff {n : Nat} :
    m.accepted n = ∅ ↔ ∀ ts, m.Accepts ts → n < ts.length := by
  rw [SortedSet.eq_empty_iff]
  refine ⟨fun h ts hts => ?_, fun h x hx => ?_⟩
  · by_contra hn
    exact h _ (mem_accepted.2 ⟨ts, hts, by omega, rfl⟩)
  · obtain ⟨ts, hts, hn, -⟩ := mem_accepted.1 hx
    have hlt := h ts hts
    omega

/-- An acceptor that is built accepts nothing, by either test, exactly if no string is accepted
within any bound, and it is enough to look at the paths with fewer arcs than there are states. -/
theorem acceptsNothing_iff_accepted (h : m.Built) :
    0 < m.states.size ∧ Candidate.isEmpty m = m.acceptsNothing ∧
    (m.acceptsNothing = true ↔ ∀ n, m.accepted n = ∅) ∧
    (m.acceptsNothing = true ↔ m.accepted (m.states.size - 1) = ∅) := by
  have hpos := h.closed.size_pos
  refine ⟨hpos, rfl, ?_, ?_⟩
  · rw [acceptsNothing_iff]
    simp only [accepted_eq_empty_iff]
    exact ⟨fun hnone _ ts hts => absurd hts (hnone ts),
      fun hlong ts hts => absurd (hlong ts.length ts hts) (Nat.lt_irrefl _)⟩
  · rw [acceptsNothing_iff, accepted_eq_empty_iff]
    refine ⟨fun hnone ts hts => absurd hts (hnone ts), fun hlong ts hts => ?_⟩
    obtain ⟨us, hus, hshort⟩ := h.closed.exists_short hts
    have hlt := hlong us hus
    omega

end Acceptor

/-- To be accepted a string has to meet every state. -/
def Toy.chain : Acceptor :=
  let arc (src : Nat) (label : String) (dest : Nat) : Arc := ⟨.ofNumber src, label, .ofNumber dest⟩
  (((((Acceptor.ofStart (.ofNumber 0)).addFinal (.ofNumber 2)).addArc (arc 0 "b" 0)).2.addArc
    (arc 0 "a" 1)).2.addArc (arc 1 "c" 2)).2

theorem Acceptor.acceptsNothing_iff_accepted_chain :
    let m := Toy.chain
    let cut := m.without [⟨.ofNumber 1, "c", .ofNumber 2⟩]
    m.Built ∧ m.states.size = 3 ∧ (m.accepted 2).toList = ["a c"] ∧ (m.accepted 1).toList = [] ∧
      m.acceptsNothing = false ∧ Candidate.isEmpty m = false ∧
      cut.Built ∧ cut.acceptsNothing = true ∧ ∀ n, cut.accepted n = ∅ := by
  intro m cut
  have hm : m.Built := .addArc _ (.addArc _ (.addArc _ (.addFinal _ (.ofStart _))))
  have hcut : cut.Built := .without _ hm
  have hsize : m.states.size = 3 := by cbv
  have htwo : (m.accepted 2).toList = ["a c"] := by cbv
  have hone : (m.accepted 1).toList = [] := by cbv
  have hnone : (cut.accepted 2).toList = [] := by cbv
  obtain ⟨-, hempty, -, hsome⟩ := acceptsNothing_iff_accepted hm
  obtain ⟨-, -, hall, hcutNone⟩ := acceptsNothing_iff_accepted hcut
  have haccepts : m.acceptsNothing = false := by
    refine Bool.eq_false_iff.2 fun h => ?_
    have hshort := hsome.1 h
    rw [hsize] at hshort
    rw [hshort] at htwo
    exact absurd htwo (by decide)
  have hnothing : cut.acceptsNothing = true :=
    hcutNone.2 (SortedSet.eq_empty_iff.2 fun x hx => by
      have hcutSize : cut.states.size = 3 := hsize
      rw [hcutSize, SortedSet.mem_def, hnone] at hx
      exact List.not_mem_nil hx)
  exact ⟨hm, hsize, htwo, hone, haccepts, hempty.trans haccepts, hcut, hnothing, hall.1 hnothing⟩

end Violable
