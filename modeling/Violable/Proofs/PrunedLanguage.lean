import Mathlib
import Violable.Acceptor.Trim
import Violable.Proofs.Judging
import Violable.Proofs.Trimming
import Violable.Proofs.Windows
import Violable.Sample.Toy

/-!
# The language of a pruned acceptor

A grammar prunes an acceptor by its ill-formed arcs, which are those that do not pass on their own.
So the paths that are left are the accepted paths on which every arc passes
(`accepts_candidate`): pruning decides by each arc alone, and what it removes besides is on no
such path. On an acceptor that remembers a window, an arc shows the symbols before the one that
it reads, so the language that is left is settled by looking at each symbol with the last symbols
before it.
-/

namespace Violable

/-- The grammar that rules out `b` after `b`, and ignores the delimiters. -/
def Toy.oneB : Grammar Arc Rat :=
  (Grammar.ofBattery [Toy.noBB] (.weighted ⟨SortedMap.insert ∅ "NoBB" 1⟩)).ignoring
    (.boundaries Toy.alphabet)

namespace Grammar

variable {H : Type} [Scale H] {g : Grammar Arc H} {m : Acceptor} {p : Pruned Acceptor Arc H}

theorem accepts_candidate (h : g.prune m = .ok p) {ts : List Arc} :
    p.candidate.Accepts ts ↔ m.Accepts ts ∧ ∀ t ∈ ts, g.Passes t := by
  obtain ⟨r, hr, rfl⟩ := candidate_of_prune h
  have hill : ∀ t, t ∈ r.illFormed ↔ t ∈ m.arcs ∧ ¬ g.Passes t := fun t =>
    mem_illFormed m.arcs.nodup hr
  refine Acceptor.accepts_prune.trans (and_congr_right fun hts => ?_)
  obtain ⟨q, -, hpath⟩ := hts
  refine forall₂_congr fun t ht => ?_
  rw [hill]
  simp [hpath.mem_arcs t ht]

/-- What is left of the language is what the accepted paths spell on which every arc passes, and
what is left of it within a bound is what such paths spell within the bound. -/
theorem language_prune (h : g.prune m = .ok p) :
    p.candidate.language =
        {w | ∃ ts, m.Accepts ts ∧ (∀ t ∈ ts, g.Passes t) ∧ ts.map Arc.label = w} ∧
      ∀ n s, s ∈ p.candidate.accepted n ↔ ∃ ts, m.Accepts ts ∧ (∀ t ∈ ts, g.Passes t) ∧
        ts.length ≤ n ∧ " ".intercalate (ts.map Arc.label) = s := by
  constructor
  · ext w
    simp only [Acceptor.language, accepts_candidate h, and_assoc]
  · intro n s
    simp only [Acceptor.mem_accepted, accepts_candidate h, and_assoc]

theorem language_prune_oneB :
    ∃ p, Toy.oneB.prune Toy.contextAcceptor = .ok p ∧
      p.result.illFormed = [⟨⟨"b"⟩, "b", ⟨"b"⟩⟩] ∧
      (p.candidate.language = {w | ∃ ts, Toy.contextAcceptor.Accepts ts ∧
        (∀ t ∈ ts, Toy.oneB.Passes t) ∧ ts.map Arc.label = w}) ∧
      ∀ n s, s ∈ p.candidate.accepted n ↔ ∃ ts, Toy.contextAcceptor.Accepts ts ∧
        (∀ t ∈ ts, Toy.oneB.Passes t) ∧ ts.length ≤ n ∧
          " ".intercalate (ts.map Arc.label) = s := by
  have h : Toy.oneB.evaluate Toy.contextAcceptor = .ok ⟨-1, [⟨⟨"b"⟩, "b", ⟨"b"⟩⟩], 6⟩ := by cbv
  have hp := prune_of_evaluate h
  exact ⟨_, hp, rfl, language_prune hp⟩

section Windows

variable {a : Alphabet} {k : Nat}

theorem map_label_readArcs (read xs : List String) :
    (a.readArcs k read xs).map Arc.label = xs ++ [a.eos] := by
  induction xs generalizing read with
  | nil => rfl
  | cons x xs ih => rw [Alphabet.readArcs, List.map_cons, ih, List.cons_append]; rfl

/-- A path through the windows reads each symbol after those before it. -/
theorem forall_mem_readArcs {P : Arc → Prop} (read xs : List String) :
    (∀ t ∈ a.readArcs k read xs, P t) ↔
      (∀ i (hi : i < xs.length), P (a.readArc k (read ++ xs.take i) xs[i])) ∧
        P (a.endArc k (read ++ xs)) := by
  induction xs generalizing read with
  | nil => simp [Alphabet.readArcs]
  | cons x xs ih =>
    rw [Alphabet.readArcs, List.forall_mem_cons, ih]
    constructor
    · rintro ⟨hx, hxs, hend⟩
      refine ⟨fun i hi => ?_, by simpa using hend⟩
      cases i with
      | zero => simpa using hx
      | succ i => simpa using hxs i (Nat.lt_of_succ_lt_succ hi)
    · rintro ⟨h, hend⟩
      refine ⟨by simpa using h 0 (Nat.zero_lt_succ _), fun i hi => ?_, by simpa using hend⟩
      simpa using h (i + 1) (Nat.succ_lt_succ hi)

/-- On an acceptor that remembers a window a grammar decides symbol by symbol: what is left is
each string whose symbols, and whose end, pass after the last symbols before them. -/
theorem language_prune_ofWindows (ha : a.Readable) (size : Nat)
    (h : g.prune (Acceptor.ofWindows a size) = .ok p) :
    p.candidate.language = {w | ∃ xs : List String, (∀ x ∈ xs, x ∈ a.symbols) ∧
      w = a.bos :: xs ++ [a.eos] ∧ g.Passes a.beginArc ∧
      (∀ i (hi : i < xs.length), g.Passes (a.readArc (max size 1) (xs.take i) xs[i])) ∧
      g.Passes (a.endArc (max size 1) xs)} := by
  ext w
  have hlabel : a.beginArc.label = a.bos := rfl
  simp only [Acceptor.language, accepts_candidate h, Acceptor.accepts_ofWindows ha]
  constructor
  · rintro ⟨_, ⟨⟨xs, hxs, rfl⟩, hpass⟩, rfl⟩
    rw [List.forall_mem_cons, forall_mem_readArcs] at hpass
    refine ⟨xs, hxs, ?_, hpass⟩
    rw [List.map_cons, map_label_readArcs, hlabel, List.cons_append]
  · rintro ⟨xs, hxs, rfl, hpass⟩
    refine ⟨_, ⟨⟨xs, hxs, rfl⟩, ?_⟩, ?_⟩
    · rw [List.forall_mem_cons, forall_mem_readArcs]
      exact hpass
    · rw [List.map_cons, map_label_readArcs, hlabel, List.cons_append]

theorem language_prune_ofWindows_oneB :
    let a : Alphabet := .ofSymbols ["b"]
    a.Readable ∧ ∃ p, Toy.oneB.prune (Acceptor.ofWindows a 2) = .ok p ∧
      p.result.illFormed = [⟨⟨"> b"⟩, "b", ⟨"b b"⟩⟩, ⟨⟨"b b"⟩, "b", ⟨"b b"⟩⟩] ∧
      p.candidate.language = {w | ∃ xs : List String, (∀ x ∈ xs, x ∈ a.symbols) ∧
        w = a.bos :: xs ++ [a.eos] ∧ Toy.oneB.Passes a.beginArc ∧
        (∀ i (hi : i < xs.length), Toy.oneB.Passes (a.readArc (max 2 1) (xs.take i) xs[i])) ∧
        Toy.oneB.Passes (a.endArc (max 2 1) xs)} := by
  intro a
  have ha : a.Readable := by
    refine ⟨?_, ?_, ?_, ?_, ?_, ?_⟩ <;> decide
  have h : Toy.oneB.evaluate (Acceptor.ofWindows (.ofSymbols ["b"]) 2) = .ok
      ⟨-2, [⟨⟨"> b"⟩, "b", ⟨"b b"⟩⟩, ⟨⟨"b b"⟩, "b", ⟨"b b"⟩⟩], 3⟩ := by cbv
  have hp := prune_of_evaluate h
  exact ⟨ha, _, hp, rfl, language_prune_ofWindows ha 2 hp⟩

end Windows

end Grammar

end Violable
