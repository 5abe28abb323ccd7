import Mathlib
import Violable.Proofs.Coverage
import Violable.Proofs.Dominance

/-!
# Grammars made of configurations

A configuration has no fault only if its weights are valid and its ranking names nothing twice
(`harmonyFault?_eq_none`). Its table is then taken over as it is into the semantics of the grammar
(`exists_semanticsOf`): the same constraints are covered, and since ranks are counted down along the
ranking, no two of them are equal (`not_tied_ofDominanceOrder`). So a grammar that is made of a
configuration can only fail for lack of coverage (`ofConfig_sound`).
-/

namespace Violable

theorem SortedMap.ofList_entries {κ ν : Type} [Ord κ] [DecidableEq κ] [Std.TransOrd κ]
    [Std.LawfulEqOrd κ] (m : SortedMap κ ν) : ofList m.entries = m := by
  have hkeys : (m.entries.reverse.map (·.1)).Nodup := by
    rw [List.map_reverse, List.nodup_reverse]
    exact List.pairwise_map.2 (m.increasing.imp ne_of_compare_lt)
  refine ext fun k => Option.ext fun v => ?_
  rw [get?_ofList, seek_of_nodup hkeys, List.mem_reverse, get?_eq_some_iff]

namespace Ranks

variable {l : List String}

/-- A ranking can be read off the ranks that it gives. -/
theorem dominanceOrder_ofDominanceOrder (h : l.Nodup) :
    (ofDominanceOrder l).dominanceOrder = l := by
  rw [dominanceOrder_ofDominanceOrder_dedup, h.dedup]

theorem not_tied_ofDominanceOrder (h : l.Nodup) (n : Nat) (tied : List String) :
    ¬ (ofDominanceOrder l).Tied n tied := by
  rintro ⟨⟨a, ha, b, hb, hne⟩, hrank⟩
  have hmem := fun a ha => (get?_ofDominanceOrder h).1 (hrank a ha)
  exact hne (eq_of_mem_descending (hmem a ha) (hmem b hb))

theorem contains_ofDominanceOrder (h : l.Nodup) (a : String) :
    (ofDominanceOrder l).contains a = l.contains a := by
  rw [Bool.eq_iff_iff, List.contains_iff_mem]
  constructor
  · intro hranked
    obtain ⟨n, hn⟩ := Option.isSome_iff_exists.1 hranked
    exact (rank_le_of_mem_descending ((get?_ofDominanceOrder h).1 hn)).1
  · intro ha
    obtain ⟨n, hn⟩ := exists_mem_descending ha
    exact Option.isSome_iff_exists.2 ⟨n, (get?_ofDominanceOrder h).2 hn⟩

end Ranks

section Table

variable {H : Type} [Scale H]

theorem Weights.ofPairs_eq_ok {pairs : List (String × H)}
    (h : ∀ p ∈ pairs, isValid p.2 = true) : ofPairs pairs = .ok ⟨SortedMap.ofList pairs⟩ := by
  have hfold : ∀ w : Weights H, pairs.foldlM (fun w p => (w.insert p.1 p.2).map (·.2)) w =
      .ok ⟨pairs.foldl (fun m p => m.insert p.1 p.2) w.table⟩ := by
    induction pairs with
    | nil => exact fun w => rfl
    | cons p pairs ih =>
      obtain ⟨hp, hpairs⟩ := List.forall_mem_cons.1 h
      intro w
      rw [List.foldlM_cons, insert, if_pos hp]
      exact ih hpairs _
  exact hfold empty

/-- All weights are valid, or nothing is ranked twice. -/
def HarmonyTable.Faultless : HarmonyTable H → Prop
  | weights table => ∀ e ∈ table.entries, Weights.isValid e.2 = true
  | ranking names => names.Nodup

namespace Config

theorem firstRepeat?_eq_none {seen l : List String} :
    firstRepeat? seen l = none ↔ l.Nodup ∧ ∀ a ∈ l, a ∉ seen := by
  induction l generalizing seen with
  | nil => simp [firstRepeat?]
  | cons b l ih =>
    rw [firstRepeat?, List.nodup_cons, List.forall_mem_cons]
    split <;> rename_i hseen
    · simp [hseen]
    · rw [ih]
      simp only [List.mem_cons, not_or, hseen, not_false_eq_true, true_and]
      constructor
      · rintro ⟨hl, hnew⟩
        exact ⟨⟨fun hb => (hnew b hb).1 rfl, hl⟩, fun a ha => (hnew a ha).2⟩
      · rintro ⟨⟨hb, hl⟩, hnew⟩
        exact ⟨hl, fun a ha => ⟨fun hab => hb (hab ▸ ha), hnew a ha⟩⟩

theorem harmonyFault?_eq_none {t : HarmonyTable H} : harmonyFault? t = none ↔ t.Faultless := by
  rcases t with table | names
  · simp [harmonyFault?, HarmonyTable.Faultless]
  · simp [harmonyFault?, HarmonyTable.Faultless, firstRepeat?_eq_none]

theorem faultless_of_validate {c : Config H} (h : c.validate = .ok ()) : c.harmony.Faultless := by
  unfold validate at h
  rcases hf : c.fault? with _ | f <;> rw [hf] at h
  · exact harmonyFault?_eq_none.1 (Option.or_eq_none_iff.1 hf).1
  · cases h

end Config

namespace Semantics

/-- The constraints with a weight in alphabetical order, or those with a rank in the order of their
ranks. -/
def constraintNames : Semantics H → List String
  | weighted w => w.names
  | ranked r => r.dominanceOrder

/-- The semantics has the constraints of the table and leaves no ties between them. -/
structure Represents (s : Semantics H) (t : HarmonyTable H) : Prop where
  name : s.name = t.semantics
  names : s.constraintNames = t.constraintNames
  covers : ∀ a, s.covers a = t.covers a
  untied : ∀ r, s = .ranked r → ∀ n tied, ¬ r.Tied n tied
  bounded : ∀ r, s = .ranked r → ∃ names, t = .ranking names ∧
    ∀ a n, r.get? a = some n → n ≤ names.length

end Semantics

theorem Grammar.exists_semanticsOf {t : HarmonyTable H} (h : t.Faultless) :
    ∃ s, semanticsOf t = .ok s ∧ s.Represents t := by
  rcases t with table | names
  · refine ⟨.weighted ⟨table⟩, ?_, rfl, rfl, fun _ => rfl, nofun, nofun⟩
    rw [semanticsOf, Weights.ofPairs_eq_ok h, SortedMap.ofList_entries]
    rfl
  · refine ⟨.ranked (.ofDominanceOrder names), rfl, rfl, Ranks.dominanceOrder_ofDominanceOrder h,
      Ranks.contains_ofDominanceOrder h, ?_, ?_⟩
    · rintro _ ⟨⟩ n tied
      exact Ranks.not_tied_ofDominanceOrder h n tied
    · rintro _ ⟨⟩
      refine ⟨names, rfl, fun a n hn => ?_⟩
      exact (Ranks.rank_le_of_mem_descending ((Ranks.get?_ofDominanceOrder h).1 hn)).2

end Table

namespace Grammar

variable {σ ε H : Type} [Scale H]

theorem ofConfig_of_validate_error {b : Battery ε} {c : Config H} {f : Config.Fault H}
    (h : c.validate = .error f) : ofConfig b c = .error (.fault f) := by
  rw [ofConfig, h]

theorem exists_ofConfig (b : Battery ε) {c : Config H} (h : c.validate = .ok ()) :
    ∃ g, ofConfig b c = .ok g ∧ g.battery = b ∧ g.semantics.Represents c.harmony := by
  obtain ⟨s, hs, hrepresents⟩ := exists_semanticsOf (Config.faultless_of_validate h)
  exact ⟨_, by rw [ofConfig, h, hs], rfl, hrepresents⟩

variable [Element ε] [DecidableEq ε] [Candidate σ ε]

omit [Scale H] [Element ε] [DecidableEq ε] in
theorem checkCoverage_iff {g : Grammar ε H} {t : HarmonyTable H} (h : g.semantics.Represents t) :
    g.checkCoverage = .ok () ↔ ∀ a ∈ g.battery.names, t.covers a := by
  simp only [checkCoverage, Semantics.ensureCovers_eq_ok, h.covers]

/-- With the table of a configuration, coverage is all that judging takes. -/
theorem succeeds_of_represents {g : Grammar ε H} {t : HarmonyTable H} (hb : g.battery.Signed)
    (h : g.semantics.Represents t) (hg : g.checkCoverage = .ok ()) (s : σ) : g.Succeeds s := by
  rcases succeeds_or_tied hb (Semantics.ensureCovers_eq_ok.1 hg) s
    with hok | ⟨r, n, tied, hr, htied, -⟩
  · exact hok
  · exact absurd htied (h.untied r hr n tied)

/-- A grammar is made of every configuration without faults, and of no other. It has the constraints
of the configuration, and if these cover its battery, every candidate can be judged. -/
theorem ofConfig_sound (cs : List (Constraint ε)) (c : Config Float)
    (hsize : ∀ names, c.harmony = .ranking names → names.length < UInt32.size) :
    (∀ e, ofConfig (cs.map (·.toJudge)) c = .error e ↔
      ∃ f, c.validate = .error f ∧ e = .fault f ∧
        e.message = "Configuration error: " ++ f.message) ∧
    ∀ g, ofConfig (cs.map (·.toJudge)) c = .ok g →
      g.battery = cs.map (·.toJudge) ∧
      g.semantics.name = c.harmony.semantics ∧ g.semantics.constraintNames = c.constraintNames ∧
      (∀ r, g.semantics = .ranked r → ∀ a n, r.get? a = some n → n < UInt32.size) ∧
      (g.checkCoverage = .ok () ↔ ∀ a ∈ cs.map (·.name), c.harmony.covers a) ∧
      (g.checkCoverage = .ok () → ∀ s : σ, g.Succeeds s) := by
  rcases hv : c.validate with f | u
  · have hfails := ofConfig_of_validate_error (b := cs.map (·.toJudge)) hv
    refine ⟨fun e => ?_, fun g hg => ?_⟩
    · rw [hfails]
      constructor
      · rintro ⟨⟩
        exact ⟨f, rfl, rfl, rfl⟩
      · rintro ⟨_, ⟨⟩, rfl, -⟩
        rfl
    · cases hfails.symm.trans hg
  · obtain ⟨g, hg, hbattery, hrepresents⟩ := exists_ofConfig (cs.map (·.toJudge)) hv
    refine ⟨fun e => ?_, fun g' hg' => ?_⟩
    · rw [hg]
      exact ⟨nofun, nofun⟩
    · obtain rfl : g = g' := Except.ok.inj (hg.symm.trans hg')
      have hsigned : g.battery.Signed := hbattery ▸ Battery.signed_constraints cs
      have hnames : g.battery.names = cs.map (·.name) := by
        rw [hbattery, Battery.names, List.map_map]
        rfl
      refine ⟨hbattery, hrepresents.name, hrepresents.names, fun r hr a n hn => ?_,
        hnames ▸ checkCoverage_iff hrepresents, succeeds_of_represents hsigned hrepresents⟩
      obtain ⟨names, hnames, hle⟩ := hrepresents.bounded r hr
      exact Nat.lt_of_le_of_lt (hle a n hn) (hsize names hnames)

end Grammar

def Toy.ranked (names : List String) : Config Float := ⟨none, .ranking names, none, .usual⟩

/-- The second configuration ranks a constraint twice, so no grammar is made of it. -/
theorem Grammar.ofConfig_sound_toy :
    let b : Battery Arc := [Toy.preferB, Toy.noB].map (·.toJudge)
    (∃ g, ofConfig b (Toy.ranked ["NoB", "PreferB"]) = .ok g ∧
      g.semantics.constraintNames = ["NoB", "PreferB"] ∧ g.Succeeds Toy.contextAcceptor) ∧
    ∃ e, ofConfig b (Toy.ranked ["NoB", "NoB"]) = .error e ∧ e.message =
      "Configuration error: Invalid configuration: constraint 'NoB' is ranked more than once" := by
  intro b
  constructor
  · have hsize : ∀ names, (Toy.ranked ["NoB", "PreferB"]).harmony = .ranking names →
        names.length < UInt32.size := by
      rintro _ ⟨⟩
      decide
    obtain ⟨-, hsound⟩ := ofConfig_sound (σ := Acceptor) [Toy.preferB, Toy.noB]
      (Toy.ranked ["NoB", "PreferB"]) hsize
    obtain ⟨g, hg, -⟩ := exists_ofConfig b (c := Toy.ranked ["NoB", "PreferB"]) rfl
    obtain ⟨-, -, hnames, -, hcoverage, hsucceeds⟩ := hsound g hg
    exact ⟨g, hg, hnames, hsucceeds (hcoverage.2 (by decide)) Toy.contextAcceptor⟩
  · have hsize : ∀ names, (Toy.ranked ["NoB", "NoB"]).harmony = .ranking names →
        names.length < UInt32.size := by
      rintro _ ⟨⟩
      decide
    have hfault : (Toy.ranked ["NoB", "NoB"]).validate = .error (.rankedTwice "NoB") := by rfl
    have he := ((ofConfig_sound (σ := Acceptor) [Toy.preferB, Toy.noB] (Toy.ranked ["NoB", "NoB"])
      hsize).1 (.fault (.rankedTwice "NoB"))).2 ⟨_, hfault, rfl, rfl⟩
    exact ⟨_, he, by decide⟩

end Violable
