import Mathlib
import Violable.Proofs.Delimited

/-!
# What a state remembers

If contexts can be told from their labels, no state is left in two ways with one label
(`deterministic_ofWindows`). So what is read leads to one state only (`Deterministic.path_unique`),
and this is the state that is labelled with the last symbols that were read
(`exists_path_iff_stateAfter`). Nothing but the begin delimiter, symbols and the end delimiter is
accepted, since the states are apart, and all of that is.
-/

namespace Violable.Acceptor

variable {m : Acceptor} {a : Alphabet} {size : Nat}

/-- At most one arc with a given label leaves a state. -/
def Deterministic (m : Acceptor) : Prop :=
  ∀ t ∈ m.arcs, ∀ u ∈ m.arcs, t.src = u.src → t.label = u.label → t = u

theorem Deterministic.path_unique (hm : m.Deterministic) : ∀ {ts us : List Arc} {q r p : State},
    m.Path q ts r → m.Path q us p → ts.map Arc.label = us.map Arc.label → ts = us
  | [], [], _, _, _, _, _, _ => rfl
  | [], _ :: _, _, _, _, _, _, h => by simp at h
  | _ :: _, [], _, _, _, _, _, h => by simp at h
  | t :: ts, u :: us, _, _, _, ⟨⟨ht, hs⟩, hts⟩, ⟨⟨hu, hs'⟩, hus⟩, h => by
    obtain ⟨hlabel, hlabels⟩ := List.cons.inj h
    obtain rfl := hm t ht u hu (hs.trans hs'.symm) hlabel
    rw [hm.path_unique hts hus hlabels]

section Readable

variable (ha : a.Readable)

include ha

theorem deterministic_ofWindows : (ofWindows a size).Deterministic := by
  intro t ht u hu hsrc hlabel
  rcases mem_arcs_ofWindows.1 ht with rfl | ⟨xs, hxs, hread⟩
  · exact ((src_eq_start_iff (ha.apart (window_pos size))).1 ⟨hu, hsrc.symm⟩).symm
  have ht' : t.src = a.stateAfter (max size 1) xs := by
    rcases hread with rfl | ⟨x, -, rfl⟩ <;> rfl
  have hu' := (src_eq_stateAfter_iff ha hxs).1 ⟨hu, hsrc.symm.trans ht'⟩
  rcases hread with rfl | ⟨x, hx, rfl⟩ <;> rcases hu' with rfl | ⟨y, hy, rfl⟩
  · rfl
  · obtain rfl : a.eos = y := hlabel
    exact absurd hy ha.eos_notMem
  · obtain rfl : x = a.eos := hlabel
    exact absurd hx ha.eos_notMem
  · obtain rfl : x = y := hlabel
    rfl

/-- What is read leads to the state after it and to no other. -/
theorem exists_path_iff_stateAfter {xs : List String} (hxs : ∀ x ∈ xs, x ∈ a.symbols) {r : State} :
    (∃ ts, (ofWindows a size).Path ⟨""⟩ ts r ∧ ts.map Arc.label = a.bos :: xs) ↔
      r = a.stateAfter (max size 1) xs := by
  obtain ⟨us, hus, hlabels⟩ := exists_path_read hxs size
  refine ⟨?_, ?_⟩
  · rintro ⟨ts, hts, hlabels'⟩
    obtain rfl := (deterministic_ofWindows ha).path_unique hts hus (hlabels'.trans hlabels.symm)
    rw [← hts.target_eq, hus.target_eq]
  · rintro rfl
    exact ⟨us, hus, hlabels⟩

theorem language_ofWindows : (ofWindows a size).language =
    {w | ∃ xs : List String, (∀ x ∈ xs, x ∈ a.symbols) ∧ w = a.bos :: xs ++ [a.eos]} := by
  ext w
  refine ⟨?_, ?_⟩
  · rintro ⟨ts, hts, rfl⟩
    exact delimits_of_apart (ha.apart (window_pos size)) hts
  · rintro ⟨xs, hxs, rfl⟩
    exact exists_accepts_read hxs size

theorem mem_accepted_ofWindows {n : Nat} {s : String} : s ∈ (ofWindows a size).accepted n ↔
    ∃ xs : List String, (∀ x ∈ xs, x ∈ a.symbols) ∧ xs.length + 2 ≤ n ∧
      " ".intercalate (a.bos :: xs ++ [a.eos]) = s := by
  have hlength : ∀ {ts : List Arc} {xs : List String},
      ts.map Arc.label = a.bos :: xs ++ [a.eos] → ts.length = xs.length + 2 := by
    intro ts xs h
    simpa using congrArg List.length h
  rw [mem_accepted]
  refine ⟨?_, ?_⟩
  · rintro ⟨ts, hts, hn, rfl⟩
    obtain ⟨xs, hxs, hlabels⟩ := delimits_of_apart (ha.apart (window_pos size)) hts
    exact ⟨xs, hxs, hlength hlabels ▸ hn, by rw [hlabels]⟩
  · rintro ⟨xs, hxs, hn, rfl⟩
    obtain ⟨ts, hts, hlabels⟩ := exists_accepts_read hxs size
    exact ⟨ts, hts, (hlength hlabels).le.trans hn, by rw [hlabels]⟩

end Readable

/-- Where contexts can be told from their labels, each step is determined, and what is read from the
start leads to one state, whose label holds the last symbols, as many as there are or as the window
takes. What is accepted is the begin delimiter, any symbols and the end delimiter. -/
theorem remembers_last (ha : a.Readable) (size : Nat) :
    (ofWindows a size).Deterministic ∧
    (∀ xs : List String, (∀ x ∈ xs, x ∈ a.symbols) → ∃ q : State,
      (∀ r, (∃ ts, (ofWindows a size).Path (ofWindows a size).start ts r ∧
        ts.map Arc.label = a.bos :: xs) ↔ r = q) ∧
      q.symbols <:+ a.bos :: xs ∧ q.symbols.length = min (max size 1) (xs.length + 1) ∧
      q.last? = (a.bos :: xs).getLast?) ∧
    (ofWindows a size).language =
      {w | ∃ xs : List String, (∀ x ∈ xs, x ∈ a.symbols) ∧ w = a.bos :: xs ++ [a.eos]} ∧
    ∀ n s, s ∈ (ofWindows a size).accepted n ↔
      ∃ xs : List String, (∀ x ∈ xs, x ∈ a.symbols) ∧ xs.length + 2 ≤ n ∧
        " ".intercalate (a.bos :: xs ++ [a.eos]) = s := by
  refine ⟨deterministic_ofWindows ha, fun xs hxs => ?_, language_ofWindows ha,
    fun n s => mem_accepted_ofWindows ha⟩
  have hsymbols : (a.stateAfter (max size 1) xs).symbols = lastItems (max size 1) (a.bos :: xs) :=
    State.symbols_ofContext (ha.isWord_window hxs)
  have hlength := length_lastItems (k := max size 1) (a.bos :: xs)
  have hsuffix : lastItems (max size 1) (a.bos :: xs) <:+ a.bos :: xs := List.drop_suffix _ _
  refine ⟨a.stateAfter (max size 1) xs, fun r => exists_path_iff_stateAfter ha hxs, ?_, ?_, ?_⟩
  · rwa [hsymbols]
  · rw [hsymbols, hlength, List.length_cons]
  · have hne : lastItems (max size 1) (a.bos :: xs) ≠ [] := by
      rw [← List.length_pos_iff, hlength, List.length_cons]
      omega
    obtain ⟨older, holder⟩ := hsuffix
    rw [State.last?, hsymbols, ← holder, List.getLast?_append_of_ne_nil _ hne, holder]

theorem remembers_last_letters :
    let m := ofWindows Toy.alphabet 2
    Toy.alphabet.Readable ∧ m.Deterministic ∧
      (∃ q : State, (∀ r, (∃ ts, m.Path m.start ts r ∧ ts.map Arc.label = [">", "a", "b", "a"]) ↔
        r = q) ∧ q.symbols = ["b", "a"] ∧ q.last? = some "a") ∧
      [">", "a", "b", "<"] ∈ m.language ∧ "> a b <" ∈ m.accepted 4 ∧ "> a b <" ∉ m.accepted 3 := by
  intro m
  have ha : Toy.alphabet.Readable := by refine ⟨?_, ?_, ?_, ?_, ?_, ?_⟩ <;> decide
  obtain ⟨hdeterministic, hstate, hlanguage, haccepted⟩ := remembers_last ha 2
  have hab : ∀ x ∈ ["a", "b"], x ∈ Toy.alphabet.symbols := by decide
  refine ⟨ha, hdeterministic, ?_, ?_, (haccepted 4 _).2 ⟨["a", "b"], hab, by decide, rfl⟩, ?_⟩
  · obtain ⟨q, hpath, hsuffix, hlength, hlast⟩ := hstate ["a", "b", "a"] (by decide)
    refine ⟨q, hpath, ?_, hlast⟩
    rw [List.suffix_iff_eq_drop.1 hsuffix, hlength]
    rfl
  · rw [hlanguage]
    exact ⟨["a", "b"], hab, rfl⟩
  · intro hshort
    obtain ⟨xs, hxs, hlength, hspell⟩ := (haccepted 3 _).1 hshort
    rcases xs with _ | ⟨x, _ | ⟨y, xs⟩⟩
    · exact absurd hspell (by decide)
    · have hx : x ∈ ["a", "b"] := hxs x List.mem_cons_self
      simp only [List.mem_cons, List.not_mem_nil, or_false] at hx
      rcases hx with rfl | rfl <;> exact absurd hspell (by decide)
    · simp only [List.length_cons] at hlength
      omega

end Violable.Acceptor
