import Mathlib
import Violable.Config.Basic
import Violable.Proofs.Reading
import Violable.Sample.Toy

/-!
# Delimiters at the ends

An acceptor that remembers a window is meant to read the begin delimiter first, then symbols, and
the end delimiter last. It does if the start, the end and the states between them have different
labels (`delimits_of_apart`), and only then: a state between them that is the start lets the begin
delimiter be read again, and one that is the end accepts too early (`apart_of_delimits`). Validation
compares the delimiters with each other and with the symbols, but not with the labels of states. So
of the alphabets that pass it, just those keep to their delimiters in which no delimiter is empty,
no symbol that fills the window is, and no joined window is the end delimiter
(`apart_iff_separated`).
-/

namespace Violable

namespace Alphabet

variable {a : Alphabet} {k : Nat} {xs : List String}

/-- The delimiters are different, and neither is a symbol. -/
structure ClashFree (a : Alphabet) : Prop where
  bos_ne_eos : a.bos ≠ a.eos
  bos_notMem : a.bos ∉ a.symbols
  eos_notMem : a.eos ∉ a.symbols

/-- The arcs read the begin delimiter, then symbols, and then the end delimiter. -/
def Delimits (a : Alphabet) (ts : List Arc) : Prop :=
  ∃ xs : List String, (∀ x ∈ xs, x ∈ a.symbols) ∧ ts.map Arc.label = a.bos :: xs ++ [a.eos]

/-- No delimiter is empty, no symbol that fills a window alone is, and no window of several symbols
is joined to the end delimiter. -/
structure Separated (a : Alphabet) (k : Nat) : Prop where
  bos_ne_empty : a.bos ≠ ""
  eos_ne_empty : a.eos ≠ ""
  empty_notMem : k = 1 → "" ∉ a.symbols
  joined_ne_eos : ∀ w ∈ Acceptor.windows a k, 2 ≤ w.length → " ".intercalate w ≠ a.eos

theorem ClashFree.ne_of_delimits (ha : a.ClashFree) {ts : List Arc} (h : a.Delimits ts) :
    (∀ t ∈ ts.tail, t.label ≠ a.bos) ∧ ∀ t ∈ ts.dropLast, t.label ≠ a.eos := by
  obtain ⟨xs, hxs, hlabels⟩ := h
  refine ⟨fun t ht heq => ?_, fun t ht heq => ?_⟩
  · have hmem : t.label ∈ (ts.map Arc.label).tail := by
      rw [← List.map_tail]
      exact List.mem_map_of_mem ht
    rw [hlabels, heq, List.cons_append, List.tail_cons, List.mem_append, List.mem_singleton] at hmem
    rcases hmem with hmem | hmem
    · exact ha.bos_notMem (hxs _ hmem)
    · exact ha.bos_ne_eos hmem
  · have hmem : t.label ∈ (ts.map Arc.label).dropLast := by
      rw [← List.map_dropLast]
      exact List.mem_map_of_mem ht
    rw [hlabels, heq, List.dropLast_concat, List.mem_cons] at hmem
    rcases hmem with hmem | hmem
    · exact ha.bos_ne_eos hmem.symm
    · exact ha.eos_notMem (hxs _ hmem)

/-- Between the delimiters a state is labelled with the begin delimiter, with a symbol that fills
the window, or with a joined window. -/
theorem stateAfter_cases (hk : 0 < k) (hxs : ∀ x ∈ xs, x ∈ a.symbols) :
    a.stateAfter k xs = ⟨a.bos⟩ ∨ (k = 1 ∧ ∃ x ∈ a.symbols, a.stateAfter k xs = ⟨x⟩) ∨
      ∃ w ∈ Acceptor.windows a k, 2 ≤ w.length ∧ a.stateAfter k xs = .ofContext w := by
  rcases xs with _ | ⟨x, xs⟩
  · refine .inl ?_
    rw [stateAfter_nil hk]
    simp [State.ofContext]
  have hlength := length_lastItems (k := k) (a.bos :: x :: xs)
  rw [List.length_cons, List.length_cons] at hlength
  rcases Nat.lt_or_ge 1 k with hlong | hshort
  · refine .inr (.inr ⟨_, (Acceptor.mem_windows hk).2 ⟨_, hxs, rfl⟩, ?_, rfl⟩)
    omega
  · obtain rfl : k = 1 := by omega
    obtain ⟨y, hy⟩ := List.length_eq_one_iff.1 (hlength.trans (by omega))
    have hmem : y ∈ x :: xs := by
      rw [← List.singleton_append, lastItems_append (by simp)] at hy
      exact mem_of_mem_lastItems (hy ▸ List.mem_singleton_self y)
    refine .inr (.inl ⟨rfl, y, hxs y hmem, ?_⟩)
    rw [stateAfter, hy]
    simp [State.ofContext]

/-- The start, the end and the states between them differ exactly in separated alphabets. -/
theorem ClashFree.apart_iff_separated (ha : a.ClashFree) (hk : 0 < k) :
    a.Apart k ↔ a.Separated k := by
  refine ⟨fun h => ⟨fun hbos => ?_, h.eos_ne_empty, fun hone hempty => ?_, fun w hw _ heos => ?_⟩,
    fun h => ⟨h.eos_ne_empty, fun xs hxs hstart => ?_, fun xs hxs hend => ?_⟩⟩
  · refine h.ne_start [] (by simp) ?_
    rw [stateAfter_nil hk, hbos]
    simp [State.ofContext]
  · subst hone
    exact h.ne_start [""] (by simpa using hempty) (by simp [stateAfter, lastItems, State.ofContext])
  · obtain ⟨xs, hxs, rfl⟩ := (Acceptor.mem_windows hk).1 hw
    exact h.ne_end xs hxs (congrArg State.mk heos)
  · rcases stateAfter_cases hk hxs with heq | ⟨hone, x, hx, heq⟩ | ⟨w, -, hw, heq⟩ <;>
      rw [heq] at hstart
    · exact h.bos_ne_empty (congrArg State.label hstart)
    · obtain rfl : x = "" := congrArg State.label hstart
      exact h.empty_notMem hone hx
    · rcases Text.intercalate_eq_empty_iff.1 (congrArg State.label hstart) with rfl | rfl <;>
        simp at hw
  · rcases stateAfter_cases hk hxs with heq | ⟨-, x, hx, heq⟩ | ⟨w, hmem, hw, heq⟩ <;>
      rw [heq] at hend
    · exact ha.bos_ne_eos (congrArg State.label hend)
    · obtain rfl : x = a.eos := congrArg State.label hend
      exact ha.eos_notMem hx
    · exact h.joined_ne_eos w hmem hw (congrArg State.label hend)

/-- Without empty texts, it is enough that there is no space in the end delimiter. -/
theorem separated_of_no_space (hbos : a.bos ≠ "") (heos : a.eos ≠ "") (hempty : "" ∉ a.symbols)
    (hspace : ' ' ∉ a.eos.toList) (k : Nat) : a.Separated k :=
  ⟨hbos, heos, fun _ => hempty, fun _ _ hw h => hspace (h ▸ Text.space_mem_intercalate hw)⟩

end Alphabet

namespace Config

variable {H : Type} {a : Alphabet}

theorem alphabetFault?_eq_none : (alphabetFault? a : Option (Fault H)) = none ↔ a.ClashFree := by
  unfold alphabetFault?
  split_ifs with hsame
  · simp only [false_iff]
    exact fun h => h.bos_ne_eos hsame
  · simp only [Option.map_eq_none_iff, List.find?_eq_none, Alphabet.isDelimiter, Bool.or_eq_true,
      beq_iff_eq, not_or]
    exact ⟨fun h => ⟨hsame, fun hmem => (h _ hmem).1 rfl, fun hmem => (h _ hmem).2 rfl⟩,
      fun h x hx => ⟨fun heq => h.bos_notMem (heq ▸ hx), fun heq => h.eos_notMem (heq ▸ hx)⟩⟩

theorem clashFree_of_validate [Scale H] {c : Config H} (h : c.validate = .ok ())
    (ha : c.alphabet = some a) : a.ClashFree := by
  unfold validate at h
  rcases hf : c.fault? with _ | f <;> rw [hf] at h
  · have halphabet := (Option.or_eq_none_iff.1 (Option.or_eq_none_iff.1 hf).2).1
    rw [ha] at halphabet
    exact alphabetFault?_eq_none.1 halphabet
  · cases h

end Config

namespace Acceptor

variable {a : Alphabet} {size : Nat}

theorem labels_of_acceptsFrom (ha : a.Apart (max size 1)) {read : List String}
    (hread : ∀ x ∈ read, x ∈ a.symbols) {ts : List Arc}
    (hts : (ofWindows a size).AcceptsFrom (a.stateAfter (max size 1) read) ts) :
    ∃ xs : List String, (∀ x ∈ xs, x ∈ a.symbols) ∧ ts.map Arc.label = xs ++ [a.eos] := by
  induction ts generalizing read with
  | nil => exact absurd (mem_finals_ofWindows.1 (acceptsFrom_nil.1 hts)) (ha.ne_end read hread)
  | cons t ts ih =>
    obtain ⟨⟨ht, hs⟩, hts⟩ := acceptsFrom_cons.1 hts
    rcases mem_arcs_ofWindows.1 ht with rfl | ⟨ys, hys, rfl | ⟨x, hx, rfl⟩⟩
    · exact absurd hs.symm (ha.ne_start read hread)
    · obtain rfl := (acceptsFrom_end ha).1 hts
      exact ⟨[], by simp, rfl⟩
    · have hnext : ∀ y ∈ ys ++ [x], y ∈ a.symbols :=
        List.forall_mem_append.2 ⟨hys, List.forall_mem_singleton.2 hx⟩
      obtain ⟨xs, hxs, hlabels⟩ := ih hnext hts
      refine ⟨x :: xs, List.forall_mem_cons.2 ⟨hx, hxs⟩, ?_⟩
      rw [List.map_cons, hlabels, List.cons_append]
      rfl

theorem delimits_of_apart (ha : a.Apart (max size 1)) {ts : List Arc}
    (hts : (ofWindows a size).Accepts ts) : a.Delimits ts := by
  rcases ts with _ | ⟨t, ts⟩
  · have hend : (⟨""⟩ : State) = ⟨a.eos⟩ := mem_finals_ofWindows.1 (acceptsFrom_nil.1 hts)
    exact absurd (congrArg State.label hend).symm ha.eos_ne_empty
  · obtain ⟨ht, hts⟩ := acceptsFrom_cons.1 hts
    obtain rfl := (src_eq_start_iff ha).1 ht
    have hfirst : a.beginArc.dest = a.stateAfter (max size 1) [] :=
      (Alphabet.stateAfter_nil (window_pos size)).symm
    rw [hfirst] at hts
    obtain ⟨xs, hxs, hlabels⟩ := labels_of_acceptsFrom ha (by simp) hts
    refine ⟨xs, hxs, ?_⟩
    rw [List.map_cons, hlabels, List.cons_append]
    rfl

/-- Where two of the states coincide, the delimiters do not stay at the ends. -/
theorem apart_of_delimits (ha : a.ClashFree)
    (h : ∀ ts, (ofWindows a size).Accepts ts → a.Delimits ts) : a.Apart (max size 1) := by
  refine ⟨fun heos => ?_, fun xs hxs hstart => ?_, fun xs hxs hend => ?_⟩
  · have hnil : (ofWindows a size).Accepts [] :=
      acceptsFrom_nil.2 (mem_finals_ofWindows.2 (congrArg State.mk heos.symm))
    obtain ⟨ys, -, hlabels⟩ := h [] hnil
    simp at hlabels
  -- what is read back to the start can be followed by the two delimiters
  · obtain ⟨ts, hts, hlabels⟩ := exists_path_read hxs size
    obtain ⟨us, hus, hlabels'⟩ := exists_accepts_read (List.forall_mem_nil (· ∈ a.symbols)) size
    rw [hstart] at hts
    obtain ⟨ys, hys, heq⟩ := h (ts ++ us) (accepts_append.2 ⟨_, hts, hus⟩)
    rw [List.map_append, hlabels, hlabels', List.cons_append, List.cons_append, List.cons_append,
      List.nil_append, List.cons_inj_right, List.append_cons] at heq
    have hbos : a.bos ∈ ys := by
      rw [← (List.append_inj' heq rfl).1]
      simp
    exact ha.bos_notMem (hys _ hbos)
  -- what is read to the end ends with a symbol
  · obtain ⟨ts, hts, hlabels⟩ := exists_path_read hxs size
    obtain ⟨ys, hys, heq⟩ := h ts ⟨_, mem_finals_ofWindows.2 hend, hts⟩
    rw [hlabels, List.cons_append, List.cons_inj_right] at heq
    exact ha.eos_notMem (hxs _ (heq ▸ List.mem_append_right _ (List.mem_singleton_self _)))

/-- An alphabet that passes validation keeps its delimiters at the ends exactly if it is separated,
for which it is enough that no text is empty and that the end delimiter has no space. Where they
are kept at the ends, the begin delimiter is read only first and the end delimiter only last. -/
theorem delimits_iff_separated {H : Type} [Scale H] {c : Config H} (hc : c.validate = .ok ())
    (ha : c.alphabet = some a) (size : Nat) :
    ((∀ ts, (ofWindows a size).Accepts ts → a.Delimits ts) ↔ a.Separated (max size 1)) ∧
      (a.bos ≠ "" → a.eos ≠ "" → "" ∉ a.symbols → ' ' ∉ a.eos.toList →
        ∀ ts, (ofWindows a size).Accepts ts → a.Delimits ts) ∧
      ∀ ts, a.Delimits ts →
        (∀ t ∈ ts.tail, t.label ≠ a.bos) ∧ ∀ t ∈ ts.dropLast, t.label ≠ a.eos := by
  have hclash := Config.clashFree_of_validate hc ha
  have hiff : (∀ ts, (ofWindows a size).Accepts ts → a.Delimits ts) ↔ a.Separated (max size 1) := by
    rw [← hclash.apart_iff_separated (window_pos size)]
    exact ⟨apart_of_delimits hclash, fun h _ => delimits_of_apart h⟩
  refine ⟨hiff, fun hbos heos hempty hspace => ?_, fun ts => hclash.ne_of_delimits⟩
  exact hiff.2 (Alphabet.separated_of_no_space hbos heos hempty hspace _)

end Acceptor

/-- A configuration without constraints. -/
def Toy.over (a : Alphabet) : Config Float := ⟨none, .ranking [], some a, .usual⟩

/-- The begin delimiter is empty. -/
def Toy.unbegun : Alphabet := (Alphabet.ofSymbols ["a"]).withDelimiters "" "<"

/-- The end delimiter is the label of a window. -/
def Toy.joined : Alphabet := (Alphabet.ofSymbols ["a"]).withDelimiters ">" "> a"

namespace Acceptor

theorem delimits_iff_separated_letters :
    (Toy.over Toy.alphabet).validate = .ok () ∧ Toy.alphabet.Separated (max 2 1) ∧
      ∀ ts, (ofWindows Toy.alphabet 2).Accepts ts → Toy.alphabet.Delimits ts ∧
        ∀ t ∈ ts.dropLast, t.label ≠ "<" := by
  have hvalid : (Toy.over Toy.alphabet).validate = .ok () := rfl
  obtain ⟨hiff, hplain, hends⟩ := delimits_iff_separated hvalid rfl 2
  have hdelimits := hplain (by decide) (by decide) (by decide) (by decide)
  exact ⟨hvalid, hiff.1 hdelimits, fun ts hts =>
    ⟨hdelimits ts hts, (hends ts (hdelimits ts hts)).2⟩⟩

/-- Validation passes alphabets over which the end delimiter alone is accepted, without the begin
delimiter, or a string without the end delimiter is. -/
theorem not_delimits_of_validate :
    (Toy.over Toy.unbegun).validate = .ok () ∧
      (ofWindows Toy.unbegun 1).Accepts [⟨⟨""⟩, "<", ⟨"<"⟩⟩] ∧
      ¬ Toy.unbegun.Delimits [⟨⟨""⟩, "<", ⟨"<"⟩⟩] ∧
    (Toy.over Toy.joined).validate = .ok () ∧
      (ofWindows Toy.joined 2).Accepts [⟨⟨""⟩, ">", ⟨">"⟩⟩, ⟨⟨">"⟩, "a", ⟨"> a"⟩⟩] ∧
      ¬ Toy.joined.Delimits [⟨⟨""⟩, ">", ⟨">"⟩⟩, ⟨⟨">"⟩, "a", ⟨"> a"⟩⟩] := by
  refine ⟨rfl, ?_, ?_, rfl, ?_, ?_⟩
  · exact acceptsFrom_endArc (List.forall_mem_nil (· ∈ Toy.unbegun.symbols)) 1
  · rintro ⟨xs, -, hlabels⟩
    simp at hlabels
  · have ha : "a" ∈ Toy.joined.symbols := by decide
    have hread := readArc_mem (List.forall_mem_nil (· ∈ Toy.joined.symbols)) 2 ha
    exact acceptsFrom_cons.2 ⟨⟨beginArc_mem Toy.joined 2, rfl⟩,
      acceptsFrom_cons.2 ⟨⟨hread, rfl⟩, acceptsFrom_nil.2 (mem_finals_ofWindows.2 rfl)⟩⟩
  · rintro ⟨xs, -, hlabels⟩
    have hlast := congrArg List.getLast? hlabels
    rw [List.getLast?_concat] at hlast
    exact absurd (Option.some.inj hlast) (by decide)

end Acceptor

end Violable
