import Mathlib.Tactic.Tauto
import Violable.Acceptor.Trim
import Violable.Proofs.Path
import Violable.Proofs.Worklist
import Violable.Sample.Toy

/-!
# What trimming and pruning leave

A trimmed acceptor has just what lies on the accepted paths: their arcs, the states where they
end, and the states that they meet besides the start. So it is determined by its start and its
accepted paths (`trim_congr`), and since it accepts the same paths (`accepts_trim`), an equation
between trimmed acceptors follows from an equivalence between accepted paths. If there are none,
the start is all that is left (`trim_eq_ofStart_iff`). Pruning keeps the accepted paths without a
removed arc (`accepts_prune`), which no order of removal can change.
-/

namespace Violable.Acceptor

attribute [ext] Acceptor

variable {m : Acceptor}

section Useful

theorem mem_accessible {q : State} : q ∈ m.accessible ↔ ∃ ts, m.Path m.start ts q := by
  have hedge : (fun a b => (a, b) ∈ m.arcs.toList.map fun t => (t.src, t.dest)) =
      fun q r => ∃ t ∈ m.arcs, t.src = q ∧ t.dest = r := by
    funext a b
    simp [SortedSet.mem_def]
  rw [accessible, mem_reachable, exists_path_iff, Leads, hedge]
  simp

theorem mem_coaccessible {q : State} : q ∈ m.coaccessible ↔ ∃ ts, m.AcceptsFrom q ts := by
  have hedge : (fun a b => (a, b) ∈ m.arcs.toList.map fun t => (t.dest, t.src)) =
      Function.swap fun q r => ∃ t ∈ m.arcs, t.src = q ∧ t.dest = r := by
    funext a b
    simp [SortedSet.mem_def, Function.swap, and_comm]
  rw [coaccessible, mem_reachable, Leads, hedge]
  constructor
  · rintro ⟨r, hr, h⟩
    obtain ⟨ts, hts⟩ := exists_path_iff.2 (Relation.reflTransGen_swap.1 h)
    exact ⟨ts, r, hr, hts⟩
  · rintro ⟨ts, r, hr, hts⟩
    exact ⟨r, hr, Relation.reflTransGen_swap.2 (exists_path_iff.1 ⟨ts, hts⟩)⟩

theorem mem_useful {q : State} :
    q ∈ m.useful ↔ ∃ ts us, m.Path m.start ts q ∧ m.AcceptsFrom q us := by
  simp [useful, mem_accessible, mem_coaccessible]

theorem accepts_append {ts us : List Arc} :
    m.Accepts (ts ++ us) ↔ ∃ q, m.Path m.start ts q ∧ m.AcceptsFrom q us := by
  constructor
  · rintro ⟨r, hr, h⟩
    obtain ⟨q, h₁, h₂⟩ := path_append.1 h
    exact ⟨q, h₁, r, hr, h₂⟩
  · rintro ⟨q, h₁, r, hr, h₂⟩
    exact ⟨r, hr, path_append.2 ⟨q, h₁, h₂⟩⟩

/-- An arc has useful ends exactly if it lies on an accepted path. -/
theorem useful_ends_iff {t : Arc} (ht : t ∈ m.arcs) :
    (t.src ∈ m.useful ∧ t.dest ∈ m.useful) ↔ ∃ ts, m.Accepts ts ∧ t ∈ ts := by
  constructor
  · rintro ⟨hs, hd⟩
    obtain ⟨ts, -, hts, -⟩ := mem_useful.1 hs
    obtain ⟨-, us, -, hus⟩ := mem_useful.1 hd
    refine ⟨ts ++ t :: us, accepts_append.2 ⟨t.src, hts, ?_⟩, by simp⟩
    exact acceptsFrom_cons.2 ⟨⟨ht, rfl⟩, hus⟩
  · rintro ⟨ts, hts, hmem⟩
    obtain ⟨u, v, rfl⟩ := List.append_of_mem hmem
    obtain ⟨q, hu, hv⟩ := accepts_append.1 hts
    obtain ⟨⟨-, rfl⟩, hv'⟩ := acceptsFrom_cons.1 hv
    refine ⟨mem_useful.2 ⟨u, t :: v, hu, hv⟩, mem_useful.2 ⟨u ++ [t], v, ?_, hv'⟩⟩
    exact path_append.2 ⟨t.src, hu, ⟨ht, rfl⟩, rfl⟩

end Useful

section Trim

theorem mem_arcs_trim_iff_useful {t : Arc} :
    t ∈ m.trim.arcs ↔ t ∈ m.arcs ∧ t.src ∈ m.useful ∧ t.dest ∈ m.useful := by
  simp [trim]

theorem mem_finals_trim_iff_useful {q : State} :
    q ∈ m.trim.finals ↔ q ∈ m.finals ∧ q ∈ m.useful := by
  simp [trim]

theorem mem_states_trim_iff_useful {q : State} :
    q ∈ m.trim.states ↔ q = m.start ∨ q ∈ m.useful := by
  simp [trim]

theorem mem_arcs_trim {t : Arc} : t ∈ m.trim.arcs ↔ ∃ ts, m.Accepts ts ∧ t ∈ ts := by
  rw [mem_arcs_trim_iff_useful]
  constructor
  · rintro ⟨h, hu⟩
    exact (useful_ends_iff h).1 hu
  · rintro ⟨ts, ⟨r, hr, hts⟩, hmem⟩
    have h := hts.mem_arcs t hmem
    exact ⟨h, (useful_ends_iff h).2 ⟨ts, ⟨r, hr, hts⟩, hmem⟩⟩

theorem mem_finals_trim {q : State} :
    q ∈ m.trim.finals ↔ ∃ ts, m.Accepts ts ∧ target m.start ts = q := by
  rw [mem_finals_trim_iff_useful]
  constructor
  · rintro ⟨hf, hu⟩
    obtain ⟨ts, -, hts, -⟩ := mem_useful.1 hu
    exact ⟨ts, ⟨q, hf, hts⟩, hts.target_eq⟩
  · rintro ⟨ts, ⟨r, hr, hts⟩, rfl⟩
    rw [hts.target_eq]
    exact ⟨hr, mem_useful.2 ⟨ts, [], hts, acceptsFrom_nil.2 hr⟩⟩

theorem mem_states_trim {q : State} :
    q ∈ m.trim.states ↔ q = m.start ∨ ∃ ts us, m.Accepts (ts ++ us) ∧ target m.start ts = q := by
  rw [mem_states_trim_iff_useful, mem_useful]
  refine or_congr_right ⟨?_, ?_⟩
  · rintro ⟨ts, us, hts, hus⟩
    exact ⟨ts, us, accepts_append.2 ⟨q, hts, hus⟩, hts.target_eq⟩
  · rintro ⟨ts, us, h, rfl⟩
    obtain ⟨q, hts, hus⟩ := accepts_append.1 h
    exact ⟨ts, us, hts.target_eq.symm ▸ hts, hts.target_eq.symm ▸ hus⟩

/-- Trimmed acceptors with the same start and the same accepted paths are the same. -/
theorem trim_congr {n : Acceptor} (hs : m.start = n.start)
    (h : ∀ ts, m.Accepts ts ↔ n.Accepts ts) : m.trim = n.trim := by
  have hstates : m.trim.states = n.trim.states := by
    ext q
    simp only [mem_states_trim, hs, h]
  have hfinals : m.trim.finals = n.trim.finals := by
    ext q
    simp only [mem_finals_trim, hs, h]
  have harcs : m.trim.arcs = n.trim.arcs := by
    ext t
    simp only [mem_arcs_trim, h]
  exact Acceptor.ext hs hstates hfinals harcs

/-- Trimming neither loses nor gains an accepted path. -/
theorem accepts_trim {ts : List Arc} : m.trim.Accepts ts ↔ m.Accepts ts := by
  have hpath : ∀ {r : State}, m.trim.Path m.start ts r ↔
      m.Path m.start ts r ∧ ∀ t ∈ ts, t.src ∈ m.useful ∧ t.dest ∈ m.useful :=
    path_of_arcs fun _ => mem_arcs_trim_iff_useful
  constructor
  · rintro ⟨r, hr, h⟩
    exact ⟨r, (mem_finals_trim_iff_useful.1 hr).1, (hpath.1 h).1⟩
  · rintro ⟨r, hr, h⟩
    have hts : m.Accepts ts := ⟨r, hr, h⟩
    refine ⟨r, mem_finals_trim.2 ⟨ts, hts, h.target_eq⟩, hpath.2 ⟨h, fun t ht => ?_⟩⟩
    exact (useful_ends_iff (h.mem_arcs t ht)).2 ⟨ts, hts, ht⟩

theorem acceptsNothing_iff : m.acceptsNothing = true ↔ ∀ ts, ¬ m.Accepts ts := by
  rw [acceptsNothing, SortedSet.isEmpty_iff]
  refine ⟨fun h ts hts => h _ (mem_finals_trim.2 ⟨ts, hts, rfl⟩), fun h q hq => ?_⟩
  obtain ⟨ts, hts, -⟩ := mem_finals_trim.1 hq
  exact h ts hts

theorem trim_eq_ofStart_iff : m.trim = ofStart m.start ↔ ∀ ts, ¬ m.Accepts ts := by
  refine ⟨fun h ts hts => ?_, fun h => ?_⟩
  · have hfinal : target m.start ts ∈ m.trim.finals := mem_finals_trim.2 ⟨ts, hts, rfl⟩
    rw [h] at hfinal
    exact SortedSet.not_mem_empty hfinal
  · ext q
    · rfl
    · simp [mem_states_trim, h, ofStart]
    · simp [mem_finals_trim, h, ofStart]
    · simp [mem_arcs_trim, h, ofStart]

/-- Of the final states those are left to which a path leads from the start. -/
theorem mem_finals_trim_iff_path {q : State} :
    q ∈ m.trim.finals ↔ q ∈ m.finals ∧ ∃ ts, m.Path m.start ts q := by
  rw [mem_finals_trim]
  refine ⟨?_, ?_⟩
  · rintro ⟨ts, ⟨r, hr, hts⟩, rfl⟩
    rw [hts.target_eq]
    exact ⟨hr, ts, hts⟩
  · rintro ⟨hq, ts, hts⟩
    exact ⟨ts, ⟨q, hq, hts⟩, hts.target_eq⟩

theorem mem_states_trim_iff_statesOn {q : State} :
    q ∈ m.trim.states ↔ q = m.start ∨ ∃ ts, m.Accepts ts ∧ q ∈ statesOn m.start ts := by
  rw [mem_states_trim]
  refine or_congr_right ⟨?_, ?_⟩
  · rintro ⟨ts, us, h, rfl⟩
    exact ⟨_, h, mem_statesOn.2 ⟨ts, us, rfl, rfl⟩⟩
  · rintro ⟨_, h, hq⟩
    obtain ⟨ts, us, rfl, rfl⟩ := mem_statesOn.1 hq
    exact ⟨ts, us, h, rfl⟩

theorem accepted_trim (n : Nat) : m.trim.accepted n = m.accepted n := by
  ext x
  simp only [mem_accepted, accepts_trim]

/-- Trimming leaves exactly the arcs and states on accepted paths, besides the start, and the final
states to which a path leads. So the same is accepted, nothing is left to be trimmed, and where no
final state can be reached the start is alone. -/
theorem trim_exact (m : Acceptor) :
    m.trim.start = m.start ∧
    (∀ t, t ∈ m.trim.arcs ↔ ∃ ts, m.Accepts ts ∧ t ∈ ts) ∧
    (∀ q, q ∈ m.trim.finals ↔ q ∈ m.finals ∧ ∃ ts, m.Path m.start ts q) ∧
    (∀ q, q ∈ m.trim.states ↔ q = m.start ∨ ∃ ts, m.Accepts ts ∧ q ∈ statesOn m.start ts) ∧
    (∀ ts, m.trim.Accepts ts ↔ m.Accepts ts) ∧
    (∀ n, m.trim.accepted n = m.accepted n) ∧
    m.trim.trim = m.trim ∧
    ((∀ q ∈ m.finals, ∀ ts, ¬ m.Path m.start ts q) ↔ m.trim = ofStart m.start) := by
  have hnone : (∀ q ∈ m.finals, ∀ ts, ¬ m.Path m.start ts q) ↔ ∀ ts, ¬ m.Accepts ts :=
    ⟨fun h ts ⟨q, hq, hts⟩ => h q hq ts hts, fun h q hq ts hts => h ts ⟨q, hq, hts⟩⟩
  exact ⟨rfl, fun _ => mem_arcs_trim, fun _ => mem_finals_trim_iff_path,
    fun _ => mem_states_trim_iff_statesOn, fun _ => accepts_trim, accepted_trim,
    trim_congr rfl fun _ => accepts_trim, hnone.trans trim_eq_ofStart_iff.symm⟩

end Trim

section Prune

theorem accepts_without {dead : List Arc} {ts : List Arc} :
    (m.without dead).Accepts ts ↔ m.Accepts ts ∧ ∀ t ∈ ts, t ∉ dead := by
  have harcs : ∀ t, t ∈ (m.without dead).arcs ↔ t ∈ m.arcs ∧ t ∉ dead :=
    fun t => by simp [without]
  constructor
  · rintro ⟨r, hr, h⟩
    obtain ⟨h, hdead⟩ := (path_of_arcs harcs).1 h
    exact ⟨⟨r, hr, h⟩, hdead⟩
  · rintro ⟨⟨r, hr, h⟩, hdead⟩
    exact ⟨r, hr, (path_of_arcs harcs).2 ⟨h, hdead⟩⟩

theorem prune_nil : m.prune [] = m := rfl

theorem prune_of_ne_nil {dead : List Arc} (h : dead ≠ []) :
    m.prune dead = (m.without dead).trim := by
  simp [prune, h]

theorem accepts_prune {dead : List Arc} {ts : List Arc} :
    (m.prune dead).Accepts ts ↔ m.Accepts ts ∧ ∀ t ∈ ts, t ∉ dead := by
  rcases eq_or_ne dead [] with rfl | h
  · simp [prune_nil]
  · rw [prune_of_ne_nil h, accepts_trim, accepts_without]

/-- An arc that is left was there and is not one of those to be removed. -/
theorem mem_arcs_of_mem_arcs_prune {dead : List Arc} {t : Arc} (h : t ∈ (m.prune dead).arcs) :
    t ∈ m.arcs ∧ t ∉ dead := by
  rcases eq_or_ne dead [] with rfl | hne
  · exact ⟨h, List.not_mem_nil⟩
  · rw [prune_of_ne_nil hne] at h
    have ht : t ∈ (m.without dead).arcs := (mem_arcs_trim_iff_useful.1 h).1
    simpa [without] using ht

theorem start_prune {dead : List Arc} : (m.prune dead).start = m.start := by
  rcases eq_or_ne dead [] with rfl | h
  · rfl
  · rw [prune_of_ne_nil h]
    rfl

/-- Which arcs are removed counts, not how they are listed. -/
theorem prune_congr {dead dead' : List Arc} (h : ∀ t, t ∈ dead ↔ t ∈ dead') :
    m.prune dead = m.prune dead' := by
  rcases eq_or_ne dead [] with rfl | hne
  · have hnil : dead' = [] := List.eq_nil_iff_forall_not_mem.2 fun t ht =>
      List.not_mem_nil ((h t).2 ht)
    rw [hnil]
  · have hne' : dead' ≠ [] := by
      obtain ⟨t, ht⟩ := List.exists_mem_of_ne_nil dead hne
      exact List.ne_nil_of_mem ((h t).1 ht)
    rw [prune_of_ne_nil hne, prune_of_ne_nil hne']
    exact trim_congr rfl fun ts => by simp only [accepts_without, h]

/-- Of two prunings in a row neither leaves anything that a single one would not. Where nothing is
removed nothing is trimmed either, so the cases without arcs stand apart. -/
theorem prune_prune {dead dead' : List Arc} :
    (m.prune dead).prune dead' = m.prune (dead ++ dead') := by
  rcases eq_or_ne dead [] with rfl | h
  · rw [prune_nil, List.nil_append]
  rcases eq_or_ne dead' [] with rfl | h'
  · rw [prune_nil, List.append_nil]
  rw [prune_of_ne_nil h', prune_of_ne_nil (List.append_ne_nil_of_left_ne_nil h dead')]
  refine trim_congr start_prune fun ts => ?_
  rw [accepts_without, accepts_prune, accepts_without, and_assoc]
  refine and_congr_right fun _ => ?_
  simp only [List.mem_append, not_or, forall_and]

theorem foldl_prune {batches : List (List Arc)} :
    batches.foldl prune m = m.prune batches.flatten := by
  induction batches generalizing m with
  | nil => rfl
  | cons dead batches ih => rw [List.foldl_cons, ih, prune_prune, List.flatten_cons]

/-- Pruning by one set of arcs and then by another is pruning by their union. So in which order
and in which batches arcs are removed makes no difference, and neither does doing it twice. -/
theorem prune_any_order (m : Acceptor) (A B : List Arc) :
    (∀ C : List Arc, (∀ t, t ∈ C ↔ t ∈ A ∨ t ∈ B) → (m.prune A).prune B = m.prune C) ∧
    (∀ batches batches' : List (List Arc),
      (∀ t, t ∈ batches.flatten ↔ t ∈ batches'.flatten) →
        batches.foldl prune m = batches'.foldl prune m) ∧
    (m.prune A).prune A = m.prune A := by
  refine ⟨fun C hC => ?_, fun batches batches' h => ?_, ?_⟩
  · rw [prune_prune]
    exact prune_congr fun t => by rw [List.mem_append, hC]
  · rw [foldl_prune, foldl_prune]
    exact prune_congr h
  · rw [prune_prune]
    exact prune_congr fun t => by rw [List.mem_append, or_self]

theorem prune_any_order_twoStates :
    let b (n : Nat) : Arc := ⟨.ofNumber n, "b", .ofNumber 1⟩
    (Toy.twoStates.prune [b 0]).prune [b 1, b 7] = Toy.twoStates.prune [b 7, b 1, b 0] ∧
    [[b 0], [], [b 1, b 7]].foldl prune Toy.twoStates =
      [[b 1], [b 7, b 0, b 1]].foldl prune Toy.twoStates ∧
    (Toy.twoStates.prune [b 0]).prune [b 0] = Toy.twoStates.prune [b 0] := by
  intro b
  obtain ⟨hunion, hbatches, htwice⟩ := prune_any_order Toy.twoStates [b 0] [b 1, b 7]
  refine ⟨hunion _ fun t => ?_, hbatches _ _ fun t => ?_, htwice⟩
  · simp only [List.mem_cons, List.not_mem_nil, or_false]
    tauto
  · simp only [List.flatten_cons, List.flatten_nil, List.append_nil, List.nil_append,
      List.cons_append, List.mem_cons, List.not_mem_nil, or_false]
    tauto

end Prune

end Violable.Acceptor
