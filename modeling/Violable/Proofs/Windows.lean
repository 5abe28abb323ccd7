import Mathlib.Data.Set.Basic
import Mathlib.Tactic.Cases
import Violable.Acceptor.Window
import Violable.Proofs.Path
import Violable.Proofs.Words

/-!
# Reading through a window

The windows of an acceptor are the last symbols of what can be read after the begin delimiter
(`mem_windows`): past `k` symbols the delimiter is forgotten, so no later layer brings a new one.
If windows can be told from their labels (`Alphabet.Readable`), every accepted path reads the begin
delimiter, some symbols and the end delimiter, and is in the state of the last symbols read all
the way (`accepts_ofWindows`).
-/

namespace Violable

section LastItems

variable {α : Type} {k : Nat}

theorem lastItems_of_length_le {l : List α} (h : l.length ≤ k) : lastItems k l = l := by
  rw [lastItems, Nat.sub_eq_zero_of_le h, List.drop_zero]

theorem lastItems_append {l l' : List α} (h : k ≤ l'.length) :
    lastItems k (l ++ l') = lastItems k l' := by
  have hlen : (l ++ l').length - k = l.length + (l'.length - k) := by
    rw [List.length_append]
    omega
  rw [lastItems, hlen, List.drop_append, lastItems]
  have hdrop : l.drop (l.length + (l'.length - k)) = [] := List.drop_eq_nil_of_le (by omega)
  rw [hdrop, List.nil_append, Nat.add_sub_cancel_left]

theorem length_lastItems (l : List α) : (lastItems k l).length = min k l.length := by
  rw [lastItems, List.length_drop]
  omega

theorem length_lastItems_le (l : List α) : (lastItems k l).length ≤ k :=
  (length_lastItems l).le.trans (Nat.min_le_left _ _)

theorem mem_of_mem_lastItems {l : List α} {x : α} (h : x ∈ lastItems k l) : x ∈ l :=
  List.mem_of_mem_drop h

theorem lastItems_lastItems_append (l l' : List α) :
    lastItems k (lastItems k l ++ l') = lastItems k (l ++ l') := by
  rcases Nat.le_total l.length k with h | h
  · rw [lastItems_of_length_le h]
  · have hsplit : l = l.take (l.length - k) ++ lastItems k l := (List.take_append_drop _ l).symm
    have hlen : k ≤ (lastItems k l ++ l').length := by
      rw [List.length_append, length_lastItems]
      omega
    conv_rhs => rw [hsplit, List.append_assoc, lastItems_append hlen]

end LastItems

namespace Acceptor

variable {a : Alphabet} {k : Nat}

theorem foldl_slide (l xs : List String) :
    xs.foldl (slide k) (lastItems k l) = lastItems k (l ++ xs) := by
  induction xs generalizing l with
  | nil => rw [List.foldl_nil, List.append_nil]
  | cons x xs ih =>
    rw [List.foldl_cons, slide, lastItems_lastItems_append, ih, List.append_assoc,
      List.singleton_append]

theorem mem_windowsWithin {symbols : List String} {n : Nat} {layer : List (List String)}
    {w : List String} : w ∈ windowsWithin symbols k n layer ↔
      ∃ v ∈ layer, ∃ xs : List String, xs.length ≤ n ∧ (∀ x ∈ xs, x ∈ symbols) ∧
        xs.foldl (slide k) v = w := by
  induction n generalizing layer with
  | zero =>
    have hlayer : windowsWithin symbols k 0 layer = layer := by cases layer <;> rfl
    simp [hlayer]
  | succ n ih =>
    have hlayer : windowsWithin symbols k (n + 1) layer =
        layer ++ windowsWithin symbols k n (layer.flatMap fun v => symbols.map (slide k v)) := by
      cases layer with
      | nil => cases n <;> rfl
      | cons v layer => rfl
    rw [hlayer, List.mem_append, ih]
    constructor
    · rintro (h | ⟨v', hv', xs, hn, hxs, rfl⟩)
      · exact ⟨w, h, [], Nat.zero_le _, by simp, rfl⟩
      · obtain ⟨v, hv, hx⟩ := List.mem_flatMap.1 hv'
        obtain ⟨x, hxsym, rfl⟩ := List.mem_map.1 hx
        exact ⟨v, hv, x :: xs, Nat.succ_le_succ hn, List.forall_mem_cons.2 ⟨hxsym, hxs⟩, rfl⟩
    · rintro ⟨v, hv, xs, hn, hxs, rfl⟩
      cases xs with
      | nil => exact .inl hv
      | cons x xs =>
        rw [List.forall_mem_cons] at hxs
        refine .inr ⟨slide k v x, ?_, xs, Nat.le_of_succ_le_succ hn, hxs.2, rfl⟩
        exact List.mem_flatMap.2 ⟨v, hv, List.mem_map_of_mem hxs.1⟩

theorem mem_windows (hk : 0 < k) {w : List String} : w ∈ windows a k ↔
    ∃ xs : List String, (∀ x ∈ xs, x ∈ a.symbols) ∧ lastItems k (a.bos :: xs) = w := by
  have hbos : lastItems k [a.bos] = [a.bos] := lastItems_of_length_le hk
  have hfold : ∀ xs : List String, xs.foldl (slide k) [a.bos] = lastItems k (a.bos :: xs) := by
    intro xs
    rw [← hbos, foldl_slide, List.singleton_append]
  simp only [windows, mem_windowsWithin, List.mem_singleton, exists_eq_left, hfold,
    List.mem_eraseDups]
  constructor
  · rintro ⟨xs, -, hxs, h⟩
    exact ⟨xs, hxs, h⟩
  · rintro ⟨xs, hxs, h⟩
    rcases Nat.le_total xs.length k with hlen | hlen
    · exact ⟨xs, hlen, hxs, h⟩
    -- the delimiter has left the window, so the last `k` symbols alone lead to the same one
    · have hlast : k ≤ (lastItems k xs).length := by
        rw [length_lastItems]
        omega
      refine ⟨lastItems k xs, length_lastItems_le xs,
        fun x hx => hxs x (mem_of_mem_lastItems hx), ?_⟩
      rw [← h, ← List.singleton_append, lastItems_append hlast,
        lastItems_of_length_le (length_lastItems_le xs), ← List.singleton_append,
        lastItems_append hlen]

end Acceptor

namespace Alphabet

variable {a : Alphabet} {k : Nat} {xs ys : List String}

/-- The symbols and the delimiters are words, and the delimiters are different and no symbols. So
a context can be read back from its label, and no context is taken for the end. -/
structure Readable (a : Alphabet) : Prop where
  isWord_symbol : ∀ x ∈ a.symbols, Text.IsWord x
  isWord_bos : Text.IsWord a.bos
  isWord_eos : Text.IsWord a.eos
  bos_ne_eos : a.bos ≠ a.eos
  bos_notMem : a.bos ∉ a.symbols
  eos_notMem : a.eos ∉ a.symbols

/-- The state that remembers the last `k` symbols after the begin delimiter and `xs` are read. -/
def stateAfter (a : Alphabet) (k : Nat) (xs : List String) : State :=
  .ofContext (lastItems k (a.bos :: xs))

/-- The arc from the start that reads the begin delimiter. -/
def beginArc (a : Alphabet) : Arc := ⟨⟨""⟩, a.bos, .ofContext [a.bos]⟩

/-- The arc that reads `x` after `xs`. -/
def readArc (a : Alphabet) (k : Nat) (xs : List String) (x : String) : Arc :=
  ⟨a.stateAfter k xs, x, a.stateAfter k (xs ++ [x])⟩

/-- The arc that reads the end delimiter after `xs`. -/
def endArc (a : Alphabet) (k : Nat) (xs : List String) : Arc := ⟨a.stateAfter k xs, a.eos, ⟨a.eos⟩⟩

/-- The arcs that read some symbols and the end delimiter after the symbols `read`. -/
def readArcs (a : Alphabet) (k : Nat) : List String → List String → List Arc
  | read, [] => [a.endArc k read]
  | read, x :: xs => a.readArc k read x :: readArcs a k (read ++ [x]) xs

theorem stateAfter_nil (hk : 0 < k) : a.stateAfter k [] = .ofContext [a.bos] := by
  have hlast : lastItems k [a.bos] = [a.bos] := lastItems_of_length_le hk
  rw [stateAfter, hlast]

theorem readArc_congr (h : lastItems k (a.bos :: xs) = lastItems k (a.bos :: ys)) (x : String) :
    a.readArc k xs x = a.readArc k ys x := by
  have hnext : lastItems k (a.bos :: (xs ++ [x])) = lastItems k (a.bos :: (ys ++ [x])) := by
    rw [← List.cons_append, ← List.cons_append, ← lastItems_lastItems_append, h,
      lastItems_lastItems_append]
  simp only [readArc, stateAfter, h, hnext]

theorem endArc_congr (h : lastItems k (a.bos :: xs) = lastItems k (a.bos :: ys)) :
    a.endArc k xs = a.endArc k ys := by
  simp only [endArc, stateAfter, h]

/-- The start, the end and the states between them have different labels. -/
structure Apart (a : Alphabet) (k : Nat) : Prop where
  eos_ne_empty : a.eos ≠ ""
  ne_start : ∀ xs : List String, (∀ x ∈ xs, x ∈ a.symbols) → a.stateAfter k xs ≠ ⟨""⟩
  ne_end : ∀ xs : List String, (∀ x ∈ xs, x ∈ a.symbols) → a.stateAfter k xs ≠ ⟨a.eos⟩

namespace Readable

variable (ha : a.Readable)

include ha

theorem isWord_window (hxs : ∀ x ∈ xs, x ∈ a.symbols) :
    ∀ s ∈ lastItems k (a.bos :: xs), Text.IsWord s := by
  intro s hs
  rcases List.mem_cons.1 (mem_of_mem_lastItems hs) with rfl | hs
  · exact ha.isWord_bos
  · exact ha.isWord_symbol s (hxs s hs)

theorem stateAfter_inj (hxs : ∀ x ∈ xs, x ∈ a.symbols) (hys : ∀ y ∈ ys, y ∈ a.symbols)
    (h : a.stateAfter k xs = a.stateAfter k ys) :
    lastItems k (a.bos :: xs) = lastItems k (a.bos :: ys) :=
  State.ofContext_inj (ha.isWord_window hxs) (ha.isWord_window hys) h

theorem stateAfter_ne_start (hk : 0 < k) (hxs : ∀ x ∈ xs, x ∈ a.symbols) :
    a.stateAfter k xs ≠ ⟨""⟩ := by
  intro h
  have hnil : lastItems k (a.bos :: xs) = [] :=
    State.ofContext_inj (ha.isWord_window hxs) (by simp) h
  have hlen := length_lastItems (k := k) (a.bos :: xs)
  rw [hnil, List.length_nil, List.length_cons] at hlen
  omega

theorem stateAfter_ne_end (hxs : ∀ x ∈ xs, x ∈ a.symbols) : a.stateAfter k xs ≠ ⟨a.eos⟩ := by
  intro h
  have heos : lastItems k (a.bos :: xs) = [a.eos] :=
    State.ofContext_inj (ha.isWord_window hxs) (by simp [ha.isWord_eos])
      (h.trans (by simp [State.ofContext]))
  have hmem : a.eos ∈ a.bos :: xs := mem_of_mem_lastItems (heos ▸ List.mem_singleton_self _)
  rcases List.mem_cons.1 hmem with h | h
  · exact ha.bos_ne_eos h.symm
  · exact ha.eos_notMem (hxs _ h)

theorem apart (hk : 0 < k) : a.Apart k :=
  ⟨ha.isWord_eos.ne_empty, fun _ => ha.stateAfter_ne_start hk, fun _ => ha.stateAfter_ne_end⟩

end Readable

end Alphabet

namespace Acceptor

variable {a : Alphabet} {size k : Nat}

theorem window_pos (size : Nat) : 0 < max size 1 :=
  Nat.lt_of_lt_of_le Nat.one_pos (Nat.le_max_right size 1)

theorem mem_windowArcs {xs : List String} {t : Arc} :
    t ∈ windowArcs a k (lastItems k (a.bos :: xs)) ↔
      t = a.endArc k xs ∨ ∃ x ∈ a.symbols, a.readArc k xs x = t := by
  have hnext : ∀ x, slide k (lastItems k (a.bos :: xs)) x = lastItems k (a.bos :: (xs ++ [x])) :=
    fun x => by rw [slide, lastItems_lastItems_append, List.cons_append]
  simp only [windowArcs, List.mem_cons, List.mem_map, hnext]
  rfl

/-- The arcs read the begin delimiter at the start, and anything after each context. -/
theorem mem_arcs_ofWindows {t : Arc} : t ∈ (ofWindows a size).arcs ↔ t = a.beginArc ∨
    ∃ xs : List String, (∀ x ∈ xs, x ∈ a.symbols) ∧ (t = a.endArc (max size 1) xs ∨
      ∃ x ∈ a.symbols, a.readArc (max size 1) xs x = t) := by
  simp only [ofWindows, ofArcs, SortedSet.mem_ofList, List.mem_cons, List.mem_flatMap,
    mem_windows (window_pos size)]
  refine or_congr_right ⟨?_, ?_⟩
  · rintro ⟨w, ⟨xs, hxs, rfl⟩, ht⟩
    exact ⟨xs, hxs, mem_windowArcs.1 ht⟩
  · rintro ⟨xs, hxs, ht⟩
    exact ⟨_, ⟨xs, hxs, rfl⟩, mem_windowArcs.2 ht⟩

theorem mem_finals_ofWindows {q : State} : q ∈ (ofWindows a size).finals ↔ q = ⟨a.eos⟩ := by
  simp [ofWindows, ofArcs]

section Apart

variable (ha : a.Apart (max size 1))

include ha

theorem src_ne_end {t : Arc} (ht : t ∈ (ofWindows a size).arcs) : t.src ≠ ⟨a.eos⟩ := by
  rcases mem_arcs_ofWindows.1 ht with rfl | ⟨xs, hxs, rfl | ⟨x, -, rfl⟩⟩
  · intro h
    exact ha.eos_ne_empty (congrArg State.label h).symm
  · exact ha.ne_end xs hxs
  · exact ha.ne_end xs hxs

theorem acceptsFrom_end {ts : List Arc} :
    (ofWindows a size).AcceptsFrom ⟨a.eos⟩ ts ↔ ts = [] := by
  cases ts with
  | nil => simp [acceptsFrom_nil, mem_finals_ofWindows]
  | cons t ts =>
    simp only [acceptsFrom_cons, reduceCtorEq, iff_false]
    rintro ⟨⟨ht, hs⟩, -⟩
    exact src_ne_end ha ht hs

theorem src_eq_start_iff {t : Arc} :
    t ∈ (ofWindows a size).arcs ∧ t.src = ⟨""⟩ ↔ t = a.beginArc := by
  constructor
  · rintro ⟨ht, hs⟩
    rcases mem_arcs_ofWindows.1 ht with rfl | ⟨xs, hxs, rfl | ⟨x, -, rfl⟩⟩
    · rfl
    · exact absurd hs (ha.ne_start xs hxs)
    · exact absurd hs (ha.ne_start xs hxs)
  · rintro rfl
    exact ⟨mem_arcs_ofWindows.2 (.inl rfl), rfl⟩

end Apart

section Readable

variable (ha : a.Readable)

include ha

/-- The state after some symbols is left by reading one more or by reading the end, and in one way
only. -/
theorem src_eq_stateAfter_iff {read : List String} (hread : ∀ x ∈ read, x ∈ a.symbols) {t : Arc} :
    t ∈ (ofWindows a size).arcs ∧ t.src = a.stateAfter (max size 1) read ↔
      t = a.endArc (max size 1) read ∨ ∃ x ∈ a.symbols, a.readArc (max size 1) read x = t := by
  constructor
  · rintro ⟨ht, hs⟩
    rcases mem_arcs_ofWindows.1 ht with rfl | ⟨xs, hxs, rfl | ⟨x, hx, rfl⟩⟩
    · exact absurd hs.symm (ha.stateAfter_ne_start (window_pos size) hread)
    · exact .inl (Alphabet.endArc_congr (ha.stateAfter_inj hxs hread hs))
    · exact .inr ⟨x, hx, (Alphabet.readArc_congr (ha.stateAfter_inj hxs hread hs) x).symm⟩
  · rintro (rfl | ⟨x, hx, rfl⟩)
    · exact ⟨mem_arcs_ofWindows.2 (.inr ⟨read, hread, .inl rfl⟩), rfl⟩
    · exact ⟨mem_arcs_ofWindows.2 (.inr ⟨read, hread, .inr ⟨x, hx, rfl⟩⟩), rfl⟩

theorem acceptsFrom_stateAfter {read : List String} (hread : ∀ x ∈ read, x ∈ a.symbols)
    {ts : List Arc} : (ofWindows a size).AcceptsFrom (a.stateAfter (max size 1) read) ts ↔
      ∃ xs : List String, (∀ x ∈ xs, x ∈ a.symbols) ∧ a.readArcs (max size 1) read xs = ts := by
  induction ts generalizing read with
  | nil =>
    have hnil : ∀ xs : List String, a.readArcs (max size 1) read xs ≠ [] := by
      intro xs
      cases xs <;> simp [Alphabet.readArcs]
    simp [acceptsFrom_nil, mem_finals_ofWindows, ha.stateAfter_ne_end hread, hnil]
  | cons t ts ih =>
    rw [acceptsFrom_cons, src_eq_stateAfter_iff ha hread]
    have hsnoc : ∀ x ∈ a.symbols, ∀ y ∈ read ++ [x], y ∈ a.symbols := fun x hx =>
      List.forall_mem_append.2 ⟨hread, List.forall_mem_singleton.2 hx⟩
    constructor
    · rintro ⟨rfl | ⟨x, hx, rfl⟩, hts⟩
      · obtain rfl := (acceptsFrom_end (ha.apart (window_pos size))).1 hts
        exact ⟨[], by simp, rfl⟩
      · obtain ⟨xs, hxs, rfl⟩ := (ih (hsnoc x hx)).1 hts
        exact ⟨x :: xs, List.forall_mem_cons.2 ⟨hx, hxs⟩, rfl⟩
    · rintro ⟨xs, hxs, h⟩
      cases xs with
      | nil =>
        obtain ⟨rfl, rfl⟩ := List.cons.inj h
        exact ⟨.inl rfl, (acceptsFrom_end (ha.apart (window_pos size))).2 rfl⟩
      | cons x xs =>
        rw [List.forall_mem_cons] at hxs
        obtain ⟨rfl, rfl⟩ := List.cons.inj h
        exact ⟨.inr ⟨x, hxs.1, rfl⟩, (ih (hsnoc x hxs.1)).2 ⟨xs, hxs.2, rfl⟩⟩

theorem accepts_ofWindows {ts : List Arc} : (ofWindows a size).Accepts ts ↔
    ∃ xs : List String, (∀ x ∈ xs, x ∈ a.symbols) ∧
      a.beginArc :: a.readArcs (max size 1) [] xs = ts := by
  have hfirst : a.beginArc.dest = a.stateAfter (max size 1) [] :=
    (Alphabet.stateAfter_nil (window_pos size)).symm
  have hstart : (ofWindows a size).start = ⟨""⟩ := rfl
  rw [Accepts, hstart]
  cases ts with
  | nil =>
    have hne : (⟨""⟩ : State) ≠ ⟨a.eos⟩ := fun h =>
      ha.isWord_eos.ne_empty (congrArg State.label h).symm
    simp [acceptsFrom_nil, mem_finals_ofWindows, hne]
  | cons t ts =>
    rw [acceptsFrom_cons, src_eq_start_iff (ha.apart (window_pos size))]
    constructor
    · rintro ⟨rfl, hts⟩
      rw [hfirst] at hts
      obtain ⟨xs, hxs, rfl⟩ := (acceptsFrom_stateAfter ha (by simp)).1 hts
      exact ⟨xs, hxs, rfl⟩
    · rintro ⟨xs, hxs, h⟩
      obtain ⟨rfl, rfl⟩ := List.cons.inj h
      rw [hfirst]
      exact ⟨rfl, (acceptsFrom_stateAfter ha (by simp)).2 ⟨xs, hxs, rfl⟩⟩

end Readable

end Acceptor

end Violable
