/-
  Engram.Proofs.Control.Readers — two states that pass for one reader.

  A layer that is selected on belongs to one state, and the sequencer knows that state by its
  hidden bits. Composed states are not at the saturation levels, and what two tokens compose one
  after the other has the same bits in either order, though not the same vector. A fresh state
  takes over the vector of a composed one if that one was given its name before. So two states can
  have different vectors and the same bits, and both may select on one layer. Their inputs then
  differ by the same amount for two tokens, while their targets are free: nothing linear realizes
  them (`two_readers_unrealizable`). With one of the two readers the same automaton is realizable
  (`one_reader_realizable`).

  The recordings are made in millionths and read off over the real numbers.
-/

import Engram.Proofs.Control.Realizing
import Mathlib.Tactic.FinCases

namespace Engram

open LayerId

/-! ## Vectors in thirds of the upper level -/

namespace Fixed

/-- A number of thirds of the upper level. -/
def thirds (k : Int) : Fixed := ⟨333000 * k⟩

theorem real_thirds_neg (k : Int) : (thirds (-k)).real = -(thirds k).real := by
  unfold real thirds Activator.squash
  show Real.tanh _ = -Real.tanh _
  rw [← Real.tanh_neg]
  congr 1
  push_cast
  ring

theorem real_thirds_lt {j k : Int} (h : j < k) : (thirds j).real < (thirds k).real := by
  have hdepth := Activator.proper_standard.depth_pos
  refine lt_of_not_ge fun hle => ?_
  have hquotient := le_of_mul_le_mul_left ((Activator.proper_standard.squash_le_squash _ _).mp hle) hdepth
  unfold thirds at hquotient
  push_cast at hquotient
  have hcast : (k : ℝ) ≤ j := by linarith
  exact absurd (Int.cast_le.mp hcast) (not_le.mpr h)

theorem real_third_pos : 0 < (thirds 1).real := by
  have hzero : (thirds 0).real = 0 := embeds_real.zero
  exact hzero ▸ real_thirds_lt (by decide)

theorem real_top_ne_zero : (thirds 3).real ≠ 0 := (real_third_pos.trans (real_thirds_lt (by decide))).ne'

theorem real_top (b : Bool) : (thirds (if b then 3 else -3)).real = (Activator.standard : Activator ℝ).level b := by
  rw [← embeds_real.level]
  cases b
  · exact congrArg real (by decide +kernel)
  · exact congrArg real (by decide +kernel)

end Fixed

open Fixed (thirds)

namespace Sequencer

/-- Vectors are independent over the real numbers if no combination of them vanishes at some of their units. -/
theorem linearIndepOn_of_columns {l : List (Pattern Fixed)} {k : Nat} (hl : l.length = k) {units : List Nat}
    {columns : List (List Int)} (hcolumns : units.map (fun j => l.map (·.entry j)) = columns.map (·.map thirds))
    (h : ∀ g : Fin k → ℝ, (∀ column ∈ columns, ∑ i : Fin k, g i * (thirds (column.getD i 0)).real = 0) → ∀ i, g i = 0) :
    LinearIndepOn ℝ Pattern.entry {x | ∃ p ∈ l, x = p.map Fixed.real} := by
  have hindependent : LinearIndepOn ℝ (fun p : Pattern Fixed => Pattern.entry (p.map Fixed.real)) {p | p ∈ l} := by
    refine linearIndepOn_of_list #[] hl (fun p => p) (fun x hx => hx) fun g hg => h g fun column hcolumn => ?_
    have hmem : column.map thirds ∈ units.map fun j => l.map (·.entry j) := hcolumns ▸ List.mem_map_of_mem hcolumn
    obtain ⟨j, -, hj⟩ := List.mem_map.mp hmem
    refine (Finset.sum_congr rfl fun i _ => ?_).trans (hg j)
    have hi : (i : Nat) < l.length := hl ▸ i.2
    have hwidth : l.length = column.length := by simpa using congrArg List.length hj
    have hentry : (l[(i : Nat)]).entry j = thirds column[(i : Nat)] := by
      have hget := List.getElem_of_eq hj (i := i) (by rw [List.length_map]; exact hi)
      rwa [List.getElem_map, List.getElem_map] at hget
    rw [List.getD_eq_getElem l #[] hi, List.getD_eq_getElem column 0 (hwidth ▸ hi), hentry]
  refine (LinearIndepOn.image_of_comp (fun p : Pattern Fixed => p.map Fixed.real) Pattern.entry hindependent).mono ?_
  rintro x ⟨p, hp, rfl⟩
  exact ⟨p, hp, rfl⟩

/-- Patterns at the levels are independent if their signs at some units have an inverse, up to a factor. -/
theorem linearIndepOn_of_signs {ι : Type} {l : List ι} (d : ι) {k : Nat} (hl : l.length = k) (p : ι → Pattern Fixed)
    (units : Fin k → Nat) (signs inverse : Fin k → Fin k → ℤ) (hsigns : ∀ i j, signs i j = 1 ∨ signs i j = -1)
    (hunits : ∀ i j : Fin k, (p (l.getD i d)).entry (units j) = thirds (3 * signs i j)) {factor : ℤ} (hfactor : factor ≠ 0)
    (hinverse : ∀ i i', ∑ j, signs i j * inverse j i' = if i = i' then factor else 0) :
    LinearIndepOn ℝ (fun x => Pattern.entry ((p x).map Fixed.real)) {x | x ∈ l} := by
  have hreal : ∀ i j : Fin k, ((p (l.getD i d)).entry (units j)).real = (thirds 3).real * signs i j := by
    intro i j
    rw [hunits]
    rcases hsigns i j with h | h
    · rw [h, mul_one, Int.cast_one, mul_one]
    · rw [h, Int.cast_neg, Int.cast_one, mul_neg_one, mul_neg_one, Fixed.real_thirds_neg]
  refine linearIndepOn_of_list d hl p (fun x hx => hx) fun g hg i' => ?_
  have hcolumn : ∀ j, ∑ i, g i * signs i j = 0 := by
    intro j
    refine (mul_eq_zero.mp (Eq.trans ?_ (hg (units j)))).resolve_left Fixed.real_top_ne_zero
    rw [Finset.mul_sum]
    exact Finset.sum_congr rfl fun i _ => by rw [hreal]; ring
  have hproduct : ∑ i, g i * ∑ j, (signs i j : ℝ) * inverse j i' = 0 := by
    calc ∑ i, g i * ∑ j, (signs i j : ℝ) * inverse j i'
        = ∑ i, ∑ j, g i * signs i j * inverse j i' :=
          Finset.sum_congr rfl fun i _ => by rw [Finset.mul_sum]; exact Finset.sum_congr rfl fun j _ => by ring
      _ = ∑ j, (∑ i, g i * signs i j) * inverse j i' := by
          rw [Finset.sum_comm]
          exact Finset.sum_congr rfl fun j _ => (Finset.sum_mul ..).symm
      _ = 0 := Finset.sum_eq_zero fun j _ => by rw [hcolumn, zero_mul]
  have hrow : ∀ i, ∑ j, (signs i j : ℝ) * inverse j i' = if i = i' then (factor : ℝ) else 0 := fun i => by
    exact_mod_cast hinverse i i'
  rw [Finset.sum_congr rfl fun i _ => by rw [hrow i], Finset.sum_eq_single_of_mem i' (Finset.mem_univ i')
    fun i _ hne => by rw [if_neg hne, mul_zero], if_pos rfl] at hproduct
  exact (mul_eq_zero.mp hproduct).resolve_right (Int.cast_ne_zero.mpr hfactor)

/-! ## The recordings -/

/-- Three states dispatch on the first operand, two of them with the vectors of composed states;
a fourth has the vector of a state composed from there, and selects on the second operand. -/
def oneReader : List Call := [
  .initial "start",
  .transit (Microcode.read opc) 0 none none,
  .transit (Microcode.read op1) 1 (some ⟨opc, "a"⟩) none,
  .dispatch 2 op1 "x",
  .dispatch 2 op1 "y",
  .label 3 "control.5",
  .transit (Microcode.read op1) 1 (some ⟨opc, "b"⟩) none,
  .label 4 "control.6",
  .transit (Microcode.read op1) 1 (some ⟨opc, "c"⟩) none,
  .dispatch 5 op1 "y",
  .dispatch 6 op1 "x",
  .label 7 "control.9",
  .transit (Microcode.read op2) 1 (some ⟨opc, "d"⟩) none,
  .transit [] 9 (some ⟨op2, "p"⟩) none,
  .transit [] 9 (some ⟨op2, "q"⟩) none,
  .transit [] 9 (some ⟨op2, "r"⟩) (some 11)]

/-- A second state selects on the second operand. It has the vector that the two tokens compose in
the other order, opens one gate more, and has its branches the other way round. -/
def secondReader : List Call := [
  .label 8 "control.12",
  .transit (Microcode.read op2 ++ [.copy ip op1]) 1 (some ⟨opc, "e"⟩) none,
  .transit [] 13 (some ⟨op2, "p"⟩) (some 11),
  .transit [] 13 (some ⟨op2, "q"⟩) (some 10),
  .transit [] 13 (some ⟨op2, "r"⟩) (some 10)]

/-- The first reader alone. -/
def alone : Recording Fixed := (⟨.new smallNetwork, []⟩ : Recording Fixed).calls oneReader

/-- Both readers. -/
def together : Recording Fixed := alone.calls secondReader

/-- The hidden vectors of the source states, each once. -/
def sources (s : Sequencer Fixed) : List (Pattern Fixed) := (s.transits.map (·.source s.network)).dedup

/-- The source vectors at some of their units, in thirds of the upper level. -/
def sourceColumns : List (List Int) := [
  [3, 3, 3, 3, 3, 3, 3],
  [-3, 3, 3, 3, 3, 3, 3],
  [-3, 3, 1, 1, 1, -3, 1],
  [-3, 3, 1, 1, 1, 3, 1],
  [-3, 3, 3, 1, 1, 3, 3],
  [-3, 3, 1, -1, -1, -3, -1],
  [-3, 3, -1, 1, -1, 3, -1]]

/-- The tokens of a layer that transits are keyed on. -/
def keyedTokens (l : LayerId) : List String :=
  if l = opc then ["a", "b", "c", "d", "e"] else if l = op1 then ["y", "x"] else if l = op2 then ["p", "q", "r"] else []

/-- Signs of the tokens at some of their units. -/
def opcodeSigns : Fin 5 → Fin 5 → ℤ :=
  ![![1, 1, 1, 1, -1], ![-1, 1, 1, -1, -1], ![-1, -1, -1, 1, -1], ![-1, -1, 1, 1, 1], ![1, 1, -1, -1, 1]]

def firstSigns : Fin 2 → Fin 2 → ℤ := ![![1, 1], ![-1, 1]]

def secondSigns : Fin 3 → Fin 3 → ℤ := ![![-1, 1, -1], ![-1, -1, 1], ![1, 1, 1]]

/-- Whether four inputs agree in pairs at every unit, so that two differences of them are one. -/
def crossed (a b c d : Pattern Fixed) : Bool :=
  (List.range (a.size + b.size + c.size + d.size)).all fun j =>
    (a.entry j == b.entry j && c.entry j == d.entry j) || (a.entry j == c.entry j && b.entry j == d.entry j)

/-- Whether the branches of the two readers have crossed inputs, and targets on either side at one unit. -/
def branchesCross (transits : List (Transit Fixed)) : Bool :=
  match transits[9]?, transits[10]?, transits[13]?, transits[14]? with
  | some a, some b, some c, some d => crossed a.input b.input c.input d.input &&
    [a, b, c, d].map (·.target.hidden.entry 4) == [3, -3, -3, 3].map thirds
  | _, _, _, _ => false

/-- What is to be read off the recordings. -/
theorem recorded_readers :
    ([26, 11, 7, 8, 5, 1, 3].map fun j => (sources together.sequencer).map fun x => x.entry j) =
      sourceColumns.map (·.map thirds) ∧
    (∀ s ∈ [alone.sequencer, together.sequencer], (∀ t ∈ s.transits, t.source s.network ∈ sources together.sequencer ∧
      ∀ c ∈ t.key.condition, c.token ∈ keyedTokens c.layer ∧
        s.network.tokenPattern c = together.sequencer.network.tokenPattern c) ∧
      ∀ t ∈ s.transits, ∀ u ∈ s.transits, t.source s.network = u.source s.network → t.key.gates = u.key.gates) ∧
    (∀ i j : Fin 5, (together.sequencer.network.tokenPattern ⟨opc, (keyedTokens opc).getD i ""⟩).entry
      (![0, 1, 3, 4, 6] j) = thirds (3 * opcodeSigns i j)) ∧
    (∀ i j : Fin 2, (together.sequencer.network.tokenPattern ⟨op1, (keyedTokens op1).getD i ""⟩).entry
      (![1, 7] j) = thirds (3 * firstSigns i j)) ∧
    (∀ i j : Fin 3, (together.sequencer.network.tokenPattern ⟨op2, (keyedTokens op2).getD i ""⟩).entry
      (![1, 4, 6] j) = thirds (3 * secondSigns i j)) ∧
    branchesCross together.sequencer.transits = true ∧
    (∀ t ∈ alone.sequencer.transits, ∀ u ∈ alone.sequencer.transits, t.key.hidden = u.key.hidden →
      t.source alone.sequencer.network = u.source alone.sequencer.network) := by
  decide +kernel

/-! ## Independent vectors -/

/-- The source vectors at the units that `recorded_readers` lists. -/
theorem sources_independent (g : Fin 7 → ℝ)
    (h : ∀ column ∈ sourceColumns, ∑ i : Fin 7, g i * (thirds (column.getD i 0)).real = 0) : ∀ i, g i = 0 := by
  have hthird := Fixed.real_third_pos
  have hlt : (thirds 1).real < (thirds 3).real := Fixed.real_thirds_lt (by decide)
  generalize htop : (thirds 3).real = top at hlt
  generalize hthird' : (thirds 1).real = third at hthird hlt
  simp only [sourceColumns, List.forall_mem_cons, Fin.sum_univ_seven, Fin.coe_ofNat_eq_mod, Nat.zero_mod, Nat.one_mod,
    Nat.reduceMod, Nat.mod_succ, List.getD_cons_zero, List.getD_cons_succ, Fixed.real_thirds_neg, htop, hthird'] at h
  obtain ⟨h₁, h₂, h₃, h₄, h₅, h₆, h₇, -⟩ := h
  have htop₀ : top ≠ 0 := (hthird.trans hlt).ne'
  have cancel {a x : ℝ} (ha : a ≠ 0) (hx : a * x = 0) : x = 0 := (mul_eq_zero.mp hx).resolve_left ha
  have g₀ : g 0 = 0 := cancel htop₀ (by linear_combination (h₁ - h₂) / 2)
  have g₅ : g 5 = 0 := cancel htop₀ (by linear_combination (h₄ - h₃) / 2)
  have hsum : g 1 + (g 2 + g 3 + g 4 + g 6) = 0 := cancel htop₀ (by linear_combination h₁ - top * g₀ - top * g₅)
  have g₁ : g 1 = 0 := cancel (sub_ne_zero.mpr hlt.ne') (by
    linear_combination h₃ + top * g₀ + top * g₅ - third * hsum)
  have h₂₆ : g 2 + g 6 = 0 := cancel (sub_ne_zero.mpr hlt.ne') (by
    linear_combination h₅ + top * g₀ - top * g₅ - top * g₁ - third * hsum + third * g₁)
  have g₂ : g 2 = 0 := cancel hthird.ne' (by
    linear_combination (h₆ + top * g₀ + top * g₅ - top * g₁ + third * hsum - third * g₁) / 2)
  have g₃ : g 3 = 0 := cancel hthird.ne' (by
    linear_combination (h₇ + top * g₀ - top * g₅ - top * g₁ + third * hsum - third * g₁) / 2)
  have g₄ : g 4 = 0 := by linear_combination hsum - g₁ - g₃ - h₂₆
  have g₆ : g 6 = 0 := by linear_combination h₂₆ - g₂
  intro i
  fin_cases i
  exacts [g₀, g₁, g₂, g₃, g₄, g₅, g₆]

/-- The source vectors of both readers, over the real numbers. -/
theorem linearIndepOn_sources :
    LinearIndepOn ℝ Pattern.entry {x | ∃ p ∈ sources together.sequencer, x = p.map Fixed.real} := by
  have hcolumns := recorded_readers.1
  have hlength : (sources together.sequencer).length = 7 := by
    have h := congrArg (fun columns => (columns.map List.length).head?) hcolumns
    simpa [sourceColumns] using h
  exact linearIndepOn_of_columns hlength hcolumns sources_independent

/-- The tokens that transits are keyed on, over the real numbers. -/
theorem linearIndepOn_tokens (l : LayerId) : LinearIndepOn ℝ
    (fun token => Pattern.entry ((together.sequencer.network.tokenPattern ⟨l, token⟩).map Fixed.real))
    {token | token ∈ keyedTokens l} := by
  obtain ⟨-, -, hopcodes, hfirst, hsecond, -⟩ := recorded_readers
  by_cases hopc : l = opc
  · subst hopc
    exact linearIndepOn_of_signs (k := 5) "" rfl _ _ opcodeSigns
      ![![0, -1, -1, -1, -1], ![1, 1, 1, 1, 2], ![0, 0, -1, 0, -1], ![1, 0, 1, 1, 1], ![0, 0, 0, 1, 1]] (by decide) hopcodes
      two_ne_zero (by decide)
  by_cases hop1 : l = op1
  · subst hop1
    exact linearIndepOn_of_signs (k := 2) "" rfl _ _ firstSigns ![![1, -1], ![1, 1]] (by decide) hfirst two_ne_zero (by decide)
  by_cases hop2 : l = op2
  · subst hop2
    exact linearIndepOn_of_signs (k := 3) "" rfl _ _ secondSigns ![![-1, -1, 0], ![1, 0, 1], ![0, 1, 1]] (by decide) hsecond
      two_ne_zero (by decide)
  · refine (linearIndepOn_empty ℝ _).mono fun token h => ?_
    rw [Set.mem_ofPred_eq, keyedTokens, if_neg hopc, if_neg hop1, if_neg hop2] at h
    exact (List.not_mem_nil h).elim

/-! ## Over the real numbers -/

theorem calls_oneReader : ((⟨.new (smallNetwork.image Fixed.real), []⟩ : Recording ℝ).calls oneReader).sequencer =
    alone.sequencer.image Fixed.real := by
  rw [calls_real, Recording.sequencer_image, alone]

theorem calls_bothReaders : ((⟨.new (smallNetwork.image Fixed.real), []⟩ : Recording ℝ).calls
    (oneReader ++ secondReader)).sequencer = together.sequencer.image Fixed.real := by
  rw [calls_real, Recording.sequencer_image, together, alone, Recording.calls, Recording.calls, Recording.calls, List.foldl_append]

theorem admitted_real (cs : List Call) : ((⟨.new (smallNetwork.image Fixed.real), []⟩ : Recording ℝ).calls cs).Admitted
    (smallNetwork.image Fixed.real) :=
  Recording.admitted_of_build build_realConfig (.refl _) (Network.builtFrom_of_build build_realConfig).sound
    (fun _ h => (List.not_mem_nil h).elim) cs

variable {s : Sequencer Fixed}

theorem independent_image (hs : s ∈ [alone.sequencer, together.sequencer]) : (s.image Fixed.real).Independent := by
  obtain ⟨hwithin, -⟩ := recorded_readers.2.1 s hs
  constructor
  · refine linearIndepOn_sources.mono ?_
    rintro x ⟨t', ht', rfl⟩
    obtain ⟨t, ht, rfl⟩ := List.mem_map.mp ht'
    exact ⟨_, (hwithin t ht).1, source_image s.network t⟩
  · intro l hl
    refine ((linearIndepOn_tokens l).mono ?_).congr ?_
    all_goals
      rintro token ⟨t', ht', hc⟩
      obtain ⟨t, ht, rfl⟩ := List.mem_map.mp ht'
      obtain ⟨htoken, hpattern⟩ := (hwithin t ht).2 ⟨l, token⟩ hc
    · exact htoken
    · show Pattern.entry _ = Pattern.entry ((s.network.image Fixed.real).tokenPattern ⟨l, token⟩)
      rw [tokenPattern_image, hpattern]

theorem distinct_image (hs : s ∈ [alone.sequencer, together.sequencer]) : (s.image Fixed.real).Distinct := by
  intro t' ht' u' hu' hsource
  obtain ⟨t, ht, rfl⟩ := List.mem_map.mp ht'
  obtain ⟨u, hu, rfl⟩ := List.mem_map.mp hu'
  exact (recorded_readers.2.1 s hs).2 t ht u hu (source_injective hsource)

theorem distinctReaders_image
    (h : ∀ t ∈ s.transits, ∀ u ∈ s.transits, t.key.hidden = u.key.hidden → t.source s.network = u.source s.network) :
    (s.image Fixed.real).DistinctReaders := by
  intro t' ht' u' hu' c _ d _ _ _ hhidden
  obtain ⟨t, ht, rfl⟩ := List.mem_map.mp ht'
  obtain ⟨u, hu, rfl⟩ := List.mem_map.mp hu'
  exact (source_image _ t).trans ((congrArg (Array.map Fixed.real) (h t ht u hu hhidden)).trans (source_image _ u).symm)

/-- The automaton with one reader is realizable. -/
theorem one_reader_realizable :
    ((⟨.new (smallNetwork.image Fixed.real), []⟩ : Recording ℝ).calls oneReader).sequencer.Realizable := by
  obtain ⟨-, -, -, -, -, -, halone⟩ := recorded_readers
  refine realizable_of_calls build_realConfig (.refl _) (Network.builtFrom_of_build build_realConfig).sound
    (fun _ h => (List.not_mem_nil h).elim) oneReader ?_ ?_ ?_
  · rw [calls_oneReader]
    exact independent_image List.mem_cons_self
  · rw [calls_oneReader]
    exact distinct_image List.mem_cons_self
  · rw [calls_oneReader]
    exact distinctReaders_image halone

theorem sub_eq_sub_of_crossed {a b c d : Pattern Fixed} (h : crossed a b c d = true) (j : Nat) :
    (a.entry j).real - (b.entry j).real = (c.entry j).real - (d.entry j).real := by
  by_cases hj : j < a.size + b.size + c.size + d.size
  · have hentries := List.all_eq_true.mp h j (List.mem_range.mpr hj)
    simp only [Bool.or_eq_true, Bool.and_eq_true, beq_iff_eq] at hentries
    rcases hentries with ⟨hab, hcd⟩ | ⟨hac, hbd⟩
    · rw [hab, hcd, sub_self, sub_self]
    · rw [hac, hbd]
  · rw [Pattern.entry_of_le (x := a) (by omega), Pattern.entry_of_le (x := b) (by omega),
      Pattern.entry_of_le (x := c) (by omega), Pattern.entry_of_le (x := d) (by omega)]

/-- Nothing linear realizes the branches: one difference of inputs would go to two differences. -/
theorem not_realizable_of_branchesCross (hs : Admitting (smallNetwork.image Fixed.real) (s.image Fixed.real))
    (h : branchesCross s.transits = true) : ¬ (s.image Fixed.real).Realizable := by
  unfold branchesCross at h
  split at h
  next a b c d ha hb hc hd =>
    obtain ⟨hinputs, htargets⟩ := Bool.and_eq_true_iff.mp h
    have hentries : a.target.hidden.entry 4 = thirds 3 ∧ b.target.hidden.entry 4 = thirds (-3) ∧
        c.target.hidden.entry 4 = thirds (-3) ∧ d.target.hidden.entry 4 = thirds 3 := by
      simpa using eq_of_beq htargets
    obtain ⟨ha₄, hb₄, hc₄, hd₄⟩ := hentries
    have hinverse : ∀ (t : Transit Fixed) (bit : Bool), t.target.hidden.entry 4 = thirds (if bit then 3 else -3) →
        ((smallNetwork.image Fixed.real).activator gh).inverse ((t.image Fixed.real).target.hidden.entry 4) =
          Activator.sign bit * (Activator.standard : Activator ℝ).depth := by
      intro t bit ht
      show Activator.inverse _ (Pattern.entry (t.target.hidden.map Fixed.real) 4) = _
      rw [entry_image Fixed.embeds_real, ht, Fixed.real_top, Network.activator_image,
        Activator.proper_standard.inverse_level]
    refine not_realizable_of_crossed hs (a := a.image Fixed.real) (b := b.image Fixed.real)
      (c := c.image Fixed.real) (d := d.image Fixed.real) ?_ (fun j => ?_) (i := 4) ?_ (fun t => rfl) ?_
    · intro t ht
      simp only [List.mem_cons, List.not_mem_nil, or_false] at ht
      rcases ht with rfl | rfl | rfl | rfl
      · exact List.mem_map_of_mem (List.mem_of_getElem? ha)
      · exact List.mem_map_of_mem (List.mem_of_getElem? hb)
      · exact List.mem_map_of_mem (List.mem_of_getElem? hc)
      · exact List.mem_map_of_mem (List.mem_of_getElem? hd)
    · show Pattern.entry (a.input.map Fixed.real) j - Pattern.entry (b.input.map Fixed.real) j =
        Pattern.entry (c.input.map Fixed.real) j - Pattern.entry (d.input.map Fixed.real) j
      simpa only [entry_image Fixed.embeds_real] using sub_eq_sub_of_crossed hinputs j
    · have hsize : 4 < smallNetwork.size gh := by decide +kernel
      rwa [Network.size_image]
    · rw [hinverse a true ha₄, hinverse b false hb₄, hinverse c false hc₄, hinverse d true hd₄]
      have hdepth := Activator.proper_standard.depth_pos
      norm_num
      linarith
  · cases h

/-- The automaton with two readers is not realizable, although its source states have different and
independent vectors and its tokens are independent. -/
theorem two_readers_unrealizable :
    (Network.build (smallConfig.image : Config ℝ)).value = .ok (smallNetwork.image Fixed.real) ∧
      ((⟨.new (smallNetwork.image Fixed.real), []⟩ : Recording ℝ).calls (oneReader ++ secondReader)).sequencer.Independent ∧
      ((⟨.new (smallNetwork.image Fixed.real), []⟩ : Recording ℝ).calls (oneReader ++ secondReader)).sequencer.Distinct ∧
      ¬ ((⟨.new (smallNetwork.image Fixed.real), []⟩ : Recording ℝ).calls (oneReader ++ secondReader)).sequencer.Realizable := by
  have hadmitted := (admitted_real (oneReader ++ secondReader)).sequencer
  rw [calls_bothReaders] at hadmitted ⊢
  have hmem : together.sequencer ∈ [alone.sequencer, together.sequencer] := List.mem_cons_of_mem _ List.mem_cons_self
  obtain ⟨-, -, -, -, -, hcross, -⟩ := recorded_readers
  exact ⟨build_realConfig, independent_image hmem, distinct_image hmem, not_realizable_of_branchesCross hadmitted hcross⟩

end Sequencer

end Engram
