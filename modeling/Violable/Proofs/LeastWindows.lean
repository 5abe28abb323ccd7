import Mathlib
import Violable.Acceptor.Expansion
import Violable.Proofs.Trimming
import Violable.Proofs.Windows

/-!
# What the expansion of windows ends in

The windows are the least set that has the first window and with each window those after it
(`isLeast_windows`). While windows are expanded, every window after one that is expanded is
expanded too or waits, and the arcs of the expanded windows are built (`Sound.step`). Each step
takes one window off the queue, and only the first expansion of a window puts others on it, one for
each symbol. So the queue is empty after as many steps as that amounts to, and not before
(`queue_iterate_eq_nil_iff`). What is expanded by then has all windows, since it is closed.
-/

namespace Violable.Acceptor

variable {a : Alphabet} {k : Nat} {w : List String}

section OfArcs

variable {start : State} {finals : List State} {arcs arcs' : List Arc}

theorem ofArcs_congr (h : ∀ t, t ∈ arcs ↔ t ∈ arcs') :
    ofArcs start finals arcs = ofArcs start finals arcs' := by
  ext q <;> simp [ofArcs, h]

theorem addArc_ofArcs (t : Arc) :
    ((ofArcs start finals arcs).addArc t).2 = ofArcs start finals (arcs ++ [t]) := by
  ext q <;> simp [ofArcs, addArc] <;> grind

theorem foldl_addArc_ofArcs (ts : List Arc) :
    ts.foldl (fun m t => (m.addArc t).2) (ofArcs start finals arcs) =
      ofArcs start finals (arcs ++ ts) := by
  induction ts generalizing arcs with
  | nil => simp
  | cons t ts ih =>
    rw [List.foldl_cons, addArc_ofArcs, ih, List.append_assoc, List.singleton_append]

end OfArcs

section Least

/-- The first window is there, and with each window those after it. -/
structure SlideClosed (a : Alphabet) (k : Nat) (C : Set (List String)) : Prop where
  first : [a.bos] ∈ C
  next : ∀ w ∈ C, ∀ x ∈ a.symbols, lastItems k (w ++ [x]) ∈ C

theorem SlideClosed.lastItems_mem {C : Set (List String)} (hC : SlideClosed a k C) (hk : 0 < k)
    {xs : List String} (hxs : ∀ x ∈ xs, x ∈ a.symbols) : lastItems k (a.bos :: xs) ∈ C := by
  induction xs using List.reverseRecOn with
  | nil =>
    rw [lastItems_of_length_le (Nat.succ_le_of_lt hk)]
    exact hC.first
  | append_singleton xs x ih =>
    simp only [List.forall_mem_append, List.forall_mem_singleton] at hxs
    rw [← List.cons_append, ← lastItems_lastItems_append]
    exact hC.next _ (ih hxs.1) x hxs.2

theorem isLeast_windows (hk : 0 < k) :
    IsLeast {C | SlideClosed a k C} {w | w ∈ windows a k} := by
  refine ⟨⟨?_, fun w hw x hx => ?_⟩, fun C hC w hw => ?_⟩
  · exact (mem_windows hk).2 ⟨[], by simp, lastItems_of_length_le (Nat.succ_le_of_lt hk)⟩
  · obtain ⟨xs, hxs, rfl⟩ := (mem_windows hk).1 hw
    refine (mem_windows hk).2 ⟨xs ++ [x], ?_, ?_⟩
    · exact List.forall_mem_append.2 ⟨hxs, List.forall_mem_singleton.2 hx⟩
    · rw [lastItems_lastItems_append, List.cons_append]
  · obtain ⟨xs, hxs, rfl⟩ := (mem_windows hk).1 hw
    exact hC.lastItems_mem hk hxs

theorem length_le_of_mem_windows (hk : 0 < k) (hw : w ∈ windows a k) : w.length ≤ k := by
  obtain ⟨xs, -, rfl⟩ := (mem_windows hk).1 hw
  exact length_lastItems_le _

end Least

/-- As long as no window is longer than `k`, at most its first symbol has to go. -/
theorem shift_eq_slide (hw : w.length ≤ k) (x : String) : shift k w x = slide k w x := by
  unfold shift slide lastItems
  simp only [List.length_append, List.length_singleton]
  split_ifs with hfull
  · rw [show w.length + 1 - k = 1 by omega, List.drop_one]
  · rw [show w.length + 1 - k = 0 by omega, List.drop_zero]

namespace Expansion

variable {e : Expansion}

theorem newArcs_eq (hw : w.length ≤ k) : newArcs a k w = windowArcs a k w := by
  simp [newArcs, windowArcs, shift_eq_slide hw]

/-- The arcs that are built if the given windows are expanded. -/
def arcsOf (a : Alphabet) (k : Nat) (expanded : List (List String)) : List Arc :=
  ⟨⟨""⟩, a.bos, .ofContext [a.bos]⟩ :: expanded.flatMap (windowArcs a k)

/-- Only windows wait or are expanded, none is lost that comes after one that is expanded, and the
arcs of what is expanded are built. -/
structure Sound (a : Alphabet) (k : Nat) (e : Expansion) : Prop where
  queue : ∀ w ∈ e.queue, w ∈ windows a k
  expanded : ∀ w ∈ e.expanded, w ∈ windows a k
  first : [a.bos] ∈ e.expanded ∨ [a.bos] ∈ e.queue
  next : ∀ w ∈ e.expanded, ∀ x ∈ a.symbols, slide k w x ∈ e.expanded ∨ slide k w x ∈ e.queue
  built : e.built = ofArcs ⟨""⟩ [⟨a.eos⟩] (arcsOf a k e.expanded)

theorem sound_initial (hk : 0 < k) : Sound a k (initial a) := by
  refine ⟨fun w hw => ?_, by simp [initial], .inr (by simp [initial]), by simp [initial], ?_⟩
  · obtain rfl := List.mem_singleton.1 hw
    exact (isLeast_windows hk).1.first
  · ext q <;> simp [initial, arcsOf, ofArcs, ofStart, addFinal, addArc]
    tauto

/-- The window in front was expanded before, so it is enough to take it off. -/
theorem Sound.skip {rest : List (List String)} {expanded : List (List String)} {built : Acceptor}
    (h : Sound a k ⟨w :: rest, expanded, built⟩) (hw : w ∈ expanded) :
    Sound a k ⟨rest, expanded, built⟩ := by
  have hqueue : ∀ v, v ∈ expanded ∨ v ∈ w :: rest → v ∈ expanded ∨ v ∈ rest := by
    rintro v (hv | hv)
    · exact .inl hv
    · rcases List.mem_cons.1 hv with rfl | hv
      · exact .inl hw
      · exact .inr hv
  exact ⟨fun v hv => h.queue v (List.mem_cons_of_mem _ hv), h.expanded, hqueue _ h.first,
    fun v hv x hx => hqueue _ (h.next v hv x hx), h.built⟩

theorem Sound.expand (hk : 0 < k) {rest : List (List String)} {expanded : List (List String)}
    {built : Acceptor} (h : Sound a k ⟨w :: rest, expanded, built⟩) :
    Sound a k ⟨rest ++ a.symbols.map (shift k w), w :: expanded,
      (newArcs a k w).foldl (fun m t => (m.addArc t).2) built⟩ := by
  have hw : w ∈ windows a k := h.queue w List.mem_cons_self
  have hlength := length_le_of_mem_windows hk hw
  have hqueue : ∀ v, v ∈ expanded ∨ v ∈ w :: rest →
      v ∈ w :: expanded ∨ v ∈ rest ++ a.symbols.map (shift k w) := by
    intro v hv
    simp only [List.mem_cons, List.mem_append] at hv ⊢
    tauto
  refine ⟨fun v hv => ?_, fun v hv => ?_, hqueue _ h.first, fun v hv x hx => ?_, ?_⟩
  · rcases List.mem_append.1 hv with hv | hv
    · exact h.queue v (List.mem_cons_of_mem _ hv)
    · obtain ⟨x, hx, rfl⟩ := List.mem_map.1 hv
      rw [shift_eq_slide hlength]
      exact (isLeast_windows hk).1.next w hw x hx
  · rcases List.mem_cons.1 hv with rfl | hv
    · exact hw
    · exact h.expanded v hv
  · rcases List.mem_cons.1 hv with rfl | hv
    · rw [← shift_eq_slide hlength]
      exact .inr (List.mem_append_right _ (List.mem_map_of_mem hx))
    · exact hqueue _ (h.next v hv x hx)
  · have hbuilt : built = ofArcs ⟨""⟩ [⟨a.eos⟩] (arcsOf a k expanded) := h.built
    rw [hbuilt, foldl_addArc_ofArcs, newArcs_eq hlength]
    refine ofArcs_congr fun t => ?_
    simp only [arcsOf, List.cons_append, List.mem_cons, List.mem_append, List.flatMap_cons]
    tauto

theorem Sound.step (hk : 0 < k) (h : Sound a k e) : Sound a k (step a k e) := by
  obtain ⟨_ | ⟨w, rest⟩, expanded, built⟩ := e
  · exact h
  rw [Expansion.step]
  split_ifs with hw
  · exact h.skip hw
  · exact h.expand hk

/-- When no window waits, all windows are expanded. -/
theorem Sound.mem_expanded (hk : 0 < k) (h : Sound a k e) (hq : e.queue = []) :
    w ∈ e.expanded ↔ w ∈ windows a k := by
  have hclosed : SlideClosed a k {w | w ∈ e.expanded} := by
    refine ⟨h.first.resolve_right (by simp [hq]), fun w hw x hx => ?_⟩
    exact (h.next w hw x hx).resolve_right (by simp [hq])
  exact ⟨h.expanded w, fun hw => (isLeast_windows hk).2 hclosed hw⟩

theorem Sound.built_eq {size : Nat} (h : Sound a (max size 1) e) (hq : e.queue = []) :
    e.built = ofWindows a size := by
  rw [h.built]
  refine ofArcs_congr fun t => ?_
  simp only [arcsOf, List.mem_cons, List.mem_flatMap, h.mem_expanded (window_pos size) hq]

section Left

/-- How many windows are still to be taken off, those included that do not wait yet. -/
def left (a : Alphabet) (k : Nat) (e : Expansion) : Nat :=
  e.queue.length + ((windows a k).toFinset \ e.expanded.toFinset).card * a.symbols.length

theorem Sound.left_eq_zero_iff (hk : 0 < k) (h : Sound a k e) : e.left a k = 0 ↔ e.queue = [] := by
  refine ⟨fun hleft => ?_, fun hq => ?_⟩
  · unfold left at hleft
    exact List.eq_nil_of_length_eq_zero (by omega)
  · have hnone : (windows a k).toFinset \ e.expanded.toFinset = ∅ := by
      ext w
      simp [h.mem_expanded hk hq]
    simp [left, hq, hnone]

/-- Each step takes one window off, for good. -/
theorem Sound.left_step (hk : 0 < k) (h : Sound a k e) :
    (Expansion.step a k e).left a k = e.left a k - 1 := by
  obtain ⟨_ | ⟨w, rest⟩, expanded, built⟩ := e
  · have hzero := (h.left_eq_zero_iff hk).2 rfl
    rw [Expansion.step, hzero]
  rw [Expansion.step]
  split_ifs with hw
  · simp only [left, List.length_cons]
    omega
  -- one window fewer is left to be expanded, and what comes after it waits now
  · have hmem : w ∈ (windows a k).toFinset \ expanded.toFinset := by
      simp [hw, h.queue w List.mem_cons_self]
    have hcard := Finset.card_erase_add_one hmem
    simp only [left, List.length_append, List.length_map, List.length_cons, List.toFinset_cons,
      Finset.sdiff_insert, ← hcard, Nat.add_mul, Nat.one_mul]
    omega

theorem Sound.iterate (hk : 0 < k) (h : Sound a k e) (n : Nat) :
    Sound a k ((Expansion.step a k)^[n] e) ∧
      ((Expansion.step a k)^[n] e).left a k = e.left a k - n :=
  iterate_of_step (fun _ he => ⟨he.step hk, he.left_step hk⟩) h n

theorem left_initial :
    (initial a).left a k = (windows a k).toFinset.card * a.symbols.length + 1 := by
  simp [left, initial, Nat.add_comm]

theorem queue_iterate_eq_nil_iff (hk : 0 < k) (n : Nat) :
    ((Expansion.step a k)^[n] (initial a)).queue = [] ↔
      (windows a k).toFinset.card * a.symbols.length < n := by
  obtain ⟨hsound, hleft⟩ := (sound_initial hk).iterate hk n
  rw [← hsound.left_eq_zero_iff hk, hleft, left_initial]
  omega

end Left

end Expansion

theorem mem_arcs_ofWindows_iff {size : Nat} {t : Arc} : t ∈ (ofWindows a size).arcs ↔
    t = ⟨⟨""⟩, a.bos, .ofContext [a.bos]⟩ ∨ ∃ w ∈ windows a (max size 1),
      t = ⟨.ofContext w, a.eos, ⟨a.eos⟩⟩ ∨ ∃ x ∈ a.symbols,
        t = ⟨.ofContext w, x, .ofContext (lastItems (max size 1) (w ++ [x]))⟩ := by
  simp only [ofWindows, ofArcs, SortedSet.mem_ofList, List.mem_cons, List.mem_flatMap, windowArcs,
    List.mem_map, slide, eq_comm]

/-- The expansion ends, and after exactly one step more than there are windows and symbols for each.
By then the acceptor that remembers a window is built. It has one arc for the begin delimiter, and
arcs for the end delimiter and for each symbol after each window, where the windows are the least
set that has the first one and with each one those after it. -/
theorem ofWindows_exact (a : Alphabet) (size : Nat) :
    let k := max size 1
    ∃ C : Set (List String), IsLeast {D | SlideClosed a k D} C ∧ C.Finite ∧
      (∀ n, ((Expansion.step a k)^[n] (.initial a)).queue = [] ↔
        C.ncard * a.symbols.length < n) ∧
      (∀ n, ((Expansion.step a k)^[n] (.initial a)).queue = [] →
        ((Expansion.step a k)^[n] (.initial a)).built = ofWindows a size) ∧
      ∀ t, t ∈ (ofWindows a size).arcs ↔
        t = ⟨⟨""⟩, a.bos, .ofContext [a.bos]⟩ ∨ ∃ w ∈ C,
          t = ⟨.ofContext w, a.eos, ⟨a.eos⟩⟩ ∨ ∃ x ∈ a.symbols,
            t = ⟨.ofContext w, x, .ofContext (lastItems k (w ++ [x]))⟩ := by
  intro k
  have hk : 0 < k := window_pos size
  have hwindows : {w | w ∈ windows a k} = ((windows a k).toFinset : Set (List String)) := by
    ext w
    simp
  refine ⟨{w | w ∈ windows a k}, isLeast_windows hk, List.finite_toSet _, fun n => ?_,
    fun n hq => ?_, fun t => mem_arcs_ofWindows_iff⟩
  · rw [hwindows, Set.ncard_coe_finset]
    exact Expansion.queue_iterate_eq_nil_iff hk n
  · exact ((Expansion.sound_initial hk).iterate hk n).1.built_eq hq

end Violable.Acceptor
