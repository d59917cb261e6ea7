/-
  Engram.Proofs.Data.Namespaces — no program takes a token of another.

  What a program has on the instruction pointer are its entry, a token for each line, and its
  labels under its name. A token tells the program it is of, and each of them what it is for, so
  the tokens of one program are as many as they are meant to be, and those of two programs do not
  meet (`disjoint_ownTokens`, `nodup_ownTokens`). Only labels are bound to patterns that others
  have already. So a call that adds a program leaves the instruction pointer as it was but for the
  tokens of this program, whatever comes of the call, and of these it rebinds no entry and no line
  (`apart_after`); and so do all calls of a session (`Onward`).
-/

import Engram.Proofs.Data.Failing
import Engram.Proofs.Data.Retention

namespace Engram.Session

open LayerId

/-! ## The tokens of a program -/

/-- The labels of a program, as the instruction pointer has them. -/
def labelTokens (p : Program) (name : String) : List String := (p.withScope name).labels.map (·.1)

/-- The tokens that a program has on the instruction pointer. -/
def ownTokens (p : Program) (name : String) : List String := pointerTokens name p.size ++ labelTokens p name

section

variable {p q : Program} {name name' token : String}

theorem mem_labelTokens : token ∈ labelTokens p name ↔ ∃ l ∈ p.labels, token = labelToken name l.1 := by
  simp only [labelTokens, Program.labels_withScope, List.map_map, List.mem_map, Function.comp_apply]
  exact ⟨fun ⟨l, hl, h⟩ => ⟨l, hl, h.symm⟩, fun ⟨l, hl, h⟩ => ⟨l, hl, h.symm⟩⟩

theorem mem_ownTokens : token ∈ ownTokens p name ↔ token ∈ pointerTokens name p.size ∨ token ∈ labelTokens p name :=
  List.mem_append

theorem length_ownTokens (p : Program) (name : String) :
    (ownTokens p name).length = 1 + p.size + p.labels.length := by
  rw [ownTokens, List.length_append, length_pointerTokens, labelTokens, List.length_map, Program.labels_withScope,
    List.length_map, Nat.add_comm p.size 1]

/-- The entry and the lines of a program are no labels, of this or of another one. -/
theorem not_mem_labelTokens {lines : Nat} (hname : isProgramName name = true) (h : token ∈ pointerTokens name lines)
    (q : Program) (name' : String) : token ∉ labelTokens q name' := by
  intro hlabel
  obtain ⟨l, hl, rfl⟩ := List.mem_map.mp hlabel
  exact label_not_mem_pointerTokens hname hl h

/-- Programs of different names have no token in common. -/
theorem disjoint_ownTokens (hname : isProgramName name = true) (hname' : isProgramName name' = true) (hne : name ≠ name')
    (p q : Program) : (ownTokens p name).Disjoint (ownTokens q name') := by
  intro t h h'
  rcases mem_ownTokens.mp h with hp | hl <;> rcases mem_ownTokens.mp h' with hp' | hl'
  · exact hne (name_eq_of_pointerToken hname hname' hp hp')
  · exact not_mem_labelTokens hname hp q name' hl'
  · exact not_mem_labelTokens hname' hp' p name hl
  · obtain ⟨l, -, rfl⟩ := mem_labelTokens.mp hl
    obtain ⟨l', -, heq⟩ := mem_labelTokens.mp hl'
    exact hne (scope_eq_of_labelToken hname hname' heq)

/-- No two tokens of a program are the same. -/
theorem nodup_ownTokens (hp : p.Labelled) (hname : isProgramName name = true) : (ownTokens p name).Nodup :=
  (nodup_pointerTokens _ _).append (hp.withScope name).nodup fun _ h => not_mem_labelTokens hname h p name

end

/-! ## One call -/

variable {α : Type} [Scalar α]

/-- The session after a call, whatever came of it. -/
def after (s : Session α) (c : Call) : Session α :=
  ((assemble c.program c.name c.orthogonal c.verbose).run.run s).value.2

/-- A session in which only the tokens of a program are new, and only its labels were bound. -/
structure Apart (s : Session α) (p : Program) (name : String) (t : Session α) : Prop where
  keeps : s.network.Keeps (fun l x => ¬ (l = ip ∧ x ∈ labelTokens p name)) t.network
  fresh : ∀ x, (t.network.layer ip).knows x = true → (s.network.layer ip).knows x = true ∨ x ∈ ownTokens p name

section

variable {s t : Session α} {p : Program} {name : String}

theorem Apart.refl (s : Session α) (p : Program) (name : String) : Apart s p name s := ⟨.refl _, fun _ => .inl⟩

/-- What is not a token of the program is known by the same pattern, or is not known still. -/
theorem Apart.pattern?_eq (h : Apart s p name t) {x : String} (hx : x ∉ ownTokens p name) :
    (t.network.layer ip).pattern? x = (s.network.layer ip).pattern? x := by
  cases hpattern : (s.network.layer ip).pattern? x with
  | some q => exact h.keeps.pattern ip x q (fun hl => hx (mem_ownTokens.mpr (.inr hl.2))) hpattern
  | none =>
    refine Option.not_isSome_iff_eq_none.mp fun hsome => ?_
    rcases h.fresh x hsome with hknown | hown
    · have hsome' : ((s.network.layer ip).pattern? x).isSome = true := hknown
      rw [hpattern] at hsome'
      cases hsome'
    · exact hx hown

/-- Every step of adding a program leaves the tokens of others. -/
theorem endures_apart (hn : s.network.Numbered) (p : Program) (name : String) :
    Endures (p.withScope name) name s.network.registers (Apart s p name) where
  pointer hip := absurd (hn.registers ip hip).1 (by decide)
  registers t ht := ht.keeps.registers
  encode t ht l orthogonal tokens htokens := by
    have hgrows := t.network.grows_encodeAll l orthogonal tokens
    refine ⟨ht.keeps.trans (hgrows.mono fun _ _ _ => trivial), fun x hx => ?_⟩
    rcases t.network.of_knows_encodeAll l orthogonal tokens hx with hknown | ⟨rfl, hmem⟩
    · exact ht.fresh x hknown
    · refine (htokens rfl x hmem).elim (fun hpointer => .inr ?_) (ht.fresh x)
      rw [Program.size_withScope] at hpointer
      exact mem_ownTokens.mpr (.inl hpointer)
  bind t ht l hl pattern := by
    have hlabel : l.1 ∈ labelTokens p name := List.mem_map_of_mem hl
    refine ⟨ht.keeps.trans ((t.network.keeps_bindToken ip l.1 pattern).mono ?_), fun x hx => ?_⟩
    · rintro _ _ hother ⟨rfl, rfl⟩
      exact hother ⟨rfl, hlabel⟩
    · by_cases hxl : x = l.1
      · exact .inr (mem_ownTokens.mpr (.inr (hxl ▸ hlabel)))
      · exact ht.fresh x (t.network.of_knows_bindToken ip l.1 pattern hx hxl)
  learn t ht _ _ _ _ _ _ := ⟨ht.keeps, ht.fresh⟩

/-- A call leaves the tokens of other programs, also when it fails. -/
theorem apart_after (hn : s.network.Numbered) (c : Call) : Apart s c.program c.name (s.after c) := by
  have hsecures : Secures (Apart s c.program c.name) (assemble c.program c.name c.orthogonal c.verbose) fun _ => True :=
    (endures_apart hn c.program c.name).secures_assemble (fun t ht _ => ⟨ht.keeps, ht.fresh⟩) _ _
  exact (hsecures s (.refl _ _ _)).1

/-- A call under a name that no program can have changes nothing. -/
theorem after_of_not_isProgramName {c : Call} (h : ¬ isProgramName c.name = true) (s : Session α) : s.after c = s := by
  unfold after assemble
  rw [if_neg h]
  rfl

end

/-! ## A session -/

/-- What becomes of a session in the given calls, with tokens encoded at will between them, whatever
came of the calls. -/
inductive Onward (s : Session α) : List Call → Session α → Prop
  | start : Onward s [] s
  | encode {calls : List Call} {t : Session α} {later : Network α} (h : Onward s calls t)
      (hgrows : t.network.Grows later) : Onward s calls { t with network := later }
  | call {calls : List Call} {t : Session α} (h : Onward s calls t) (c : Call) : Onward s (calls ++ [c]) (t.after c)

/-- The token is bound as a label in one of the calls. -/
def Rebound (calls : List Call) (token : String) : Prop :=
  ∃ c ∈ calls, isProgramName c.name = true ∧ token ∈ labelTokens c.program c.name

section

variable {s t : Session α} {calls : List Call} {p : Program} {name : String}

/-- In a session tokens keep their patterns, but for the labels that are bound in it. -/
theorem Onward.keeps (hn : s.network.Numbered) (h : Onward s calls t) :
    s.network.Keeps (fun l x => ¬ (l = ip ∧ Rebound calls x)) t.network := by
  induction h with
  | start => exact .refl _
  | encode _ hgrows ih => exact ih.trans (hgrows.mono fun _ _ _ => trivial)
  | @call calls t _ c ih =>
    have hbefore : ∀ {x}, Rebound calls x → Rebound (calls ++ [c]) x := fun ⟨d, hd, h⟩ => ⟨d, List.mem_append_left _ hd, h⟩
    refine (ih.mono fun l x hx hl => hx ⟨hl.1, hbefore hl.2⟩).trans ?_
    by_cases hname : isProgramName c.name = true
    · refine (apart_after (ih.numbered hn) c).keeps.mono fun l x hx hl => hx ⟨hl.1, c, ?_, hname, hl.2⟩
      exact List.mem_append_right _ List.mem_cons_self
    · rw [after_of_not_isProgramName hname]
      exact .refl _

/-- No entry and no line is ever bound as a label. -/
theorem not_rebound_pointer {lines : Nat} {x : String} (hname : isProgramName name = true)
    (hx : x ∈ pointerTokens name lines) : ¬ Rebound calls x := by
  rintro ⟨c, -, -, hlabel⟩
  exact not_mem_labelTokens hname hx c.program c.name hlabel

/-- No token of a program is bound as a label under another name. -/
theorem not_rebound_of_names {x : String} (hname : isProgramName name = true) (hcalls : ∀ c ∈ calls, c.name ≠ name)
    (hx : x ∈ ownTokens p name) : ¬ Rebound calls x := by
  rintro ⟨c, hc, hvalid, hlabel⟩
  exact disjoint_ownTokens hvalid hname (hcalls c hc) c.program p (mem_ownTokens.mpr (.inr hlabel)) hx

end

/-- Programs that were read, under different names, have tokens apart on the instruction pointer,
each as many as its lines and labels and one for the entry; the labels that are bound for one are no
token of the other, and not its own entry or lines. In every session over a network, adding
one leaves what the tokens of the other stand for, known or not, whatever comes of it; calls under
other names leave the patterns of all its tokens, and no call at all gives its entry or a line
another pattern. -/
theorem namespaces_apart {config : Config α} {n : Network α} (hbuild : (Network.build config).value = .ok n)
    {registers registers' : List String} {source source' : String} {p q : Program}
    (hp : Program.parse registers source = .ok p) (hq : Program.parse registers' source' = .ok q) {name name' : String}
    (hname : isProgramName name = true) (hname' : isProgramName name' = true) (hne : name ≠ name') :
    (ownTokens p name).Disjoint (ownTokens q name') ∧
    (ownTokens p name).Nodup ∧ (ownTokens p name).length = 1 + p.size + p.labels.length ∧
    (ownTokens q name').Nodup ∧ (ownTokens q name').length = 1 + q.size + q.labels.length ∧
    (∀ token ∈ labelTokens q name', token ∉ ownTokens p name ∧ token ∉ pointerTokens name' q.size) ∧
    ∀ earlier s, Onward (Session.new n) earlier s →
      (∀ orthogonal verbose, ∀ x ∈ ownTokens p name,
        ((s.after ⟨q, name', orthogonal, verbose⟩).network.layer ip).pattern? x = (s.network.layer ip).pattern? x) ∧
      ∀ calls t, Onward s calls t → ∀ x y, (s.network.layer ip).pattern? x = some y →
        ((x ∈ ownTokens p name ∧ ∀ c ∈ calls, c.name ≠ name) ∨ x ∈ pointerTokens name p.size →
          (t.network.layer ip).pattern? x = some y) := by
  have hdisjoint := disjoint_ownTokens hname hname' hne p q
  refine ⟨hdisjoint, nodup_ownTokens (Program.labelled_of_parse hp) hname, length_ownTokens p name,
    nodup_ownTokens (Program.labelled_of_parse hq) hname', length_ownTokens q name', fun token htoken => ⟨?_, ?_⟩,
    fun earlier s hs => ?_⟩
  · exact fun hown => hdisjoint hown (mem_ownTokens.mpr (.inr htoken))
  · exact fun hpointer => not_mem_labelTokens hname' hpointer q name' htoken
  have hnumbered : s.network.Numbered := (hs.keeps (Network.builtFrom_of_build hbuild).numbered).numbered
    (Network.builtFrom_of_build hbuild).numbered
  refine ⟨fun _ _ x hx => (apart_after hnumbered _).pattern?_eq (hdisjoint hx), fun calls t ht x y hy hx => ?_⟩
  refine (ht.keeps hnumbered).pattern ip x y (fun hrebound => ?_) hy
  rcases hx with ⟨hx, hcalls⟩ | hx
  · exact not_rebound_of_names hname hcalls hx hrebound.2
  · exact not_rebound_pointer hname hx hrebound.2

/-- Beside a program with a label, another one. -/
theorem namespaces_apart_small :
    (ownTokens labelledCall.program "a").Disjoint (ownTokens secondCall.program "b") ∧
    ownTokens labelledCall.program "a" = ["a", "a.0", "a:t"] ∧ ownTokens secondCall.program "b" = ["b", "b.0"] ∧
    (((Session.new smallNetwork).after labelledCall).network.layer ip).knows "a:t" = true ∧
    ((((Session.new smallNetwork).after labelledCall).after secondCall).network.layer ip).pattern? "a:t" =
      (((Session.new smallNetwork).after labelledCall).network.layer ip).pattern? "a:t" := by
  have hparse : Program.parse smallNetwork.registerNames "t: nop" = .ok labelledCall.program := by decide +kernel
  have hparse' : Program.parse smallNetwork.registerNames "exit" = .ok secondCall.program := by decide +kernel
  obtain ⟨hdisjoint, -, -, -, -, -, hsession⟩ := namespaces_apart build_smallConfig hparse hparse'
    (by decide +kernel : isProgramName "a" = true) (by decide +kernel : isProgramName "b" = true) (by decide)
  have hbefore : Onward (Session.new smallNetwork) ([] ++ [labelledCall]) ((Session.new smallNetwork).after labelledCall) :=
    .call .start _
  refine ⟨hdisjoint, by decide +kernel, by decide +kernel, by decide +kernel, ?_⟩
  exact (hsession _ _ hbefore).1 true false "a:t" (by decide +kernel)

end Engram.Session
