/-
  Engram.Proofs.Data.Retention — no program is lost or altered by adding others.

  A session is a history of calls, one for each time a program was added, with tokens encoded at
  will between them. What it holds of a program is `Holds`: the chain of patterns that its tokens
  have, as far as the pathways are told to follow it and to load each line. The pathways store
  associations by the key alone, so this lasts as long as no later call stores another one under
  the same key. Keys are the patterns of entry and line tokens; those of programs with different
  names differ, labels are never among them, and so only adding the same name again replaces a
  program (`holds_latest`).
-/

import Engram.Proofs.Exact.Numbers
import Engram.Proofs.Data.Assembling
import Engram.Proofs.Network.Built
import Engram.Proofs.Scalar.Fixed

namespace Engram.Session

open LayerId

/-- A call that adds a program. -/
structure Call where
  program : Program
  name : String
  orthogonal : Bool
  verbose : Bool

/-- The entry and line tokens of the program of a call. -/
def Call.tokens (c : Call) : List String := pointerTokens c.name c.program.size

/-- The call is the last one with its name. -/
def Latest (calls : List Call) (c : Call) : Prop :=
  ∃ before after, calls = before ++ c :: after ∧ ∀ d ∈ after, d.name ≠ c.name

variable {α : Type} [Scalar α]

/-- Entry and line tokens are told apart by their patterns. -/
def Distinct (calls : List Call) (n : Network α) : Prop :=
  ∀ c ∈ calls, ∀ c' ∈ calls, ∀ t ∈ c.tokens, ∀ t' ∈ c'.tokens, ∀ p p', (n.layer ip).pattern? t = some p →
    (n.layer ip).pattern? t' = some p' → Pairs.samePattern p p' = true → t = t'

/-- What a session holds of a program whose tokens have the patterns `ps`. -/
structure Holds (s : Session α) (c : Call) (ps : List (Pattern α)) : Prop where
  pointers : List.Forall₂ (fun t p => (s.network.layer ip).pattern? t = some p) c.tokens ps
  next : ∀ l, l < c.program.size → s.pairs.target? ⟨ip, ip⟩ (ps.getD l #[]) = some (ps.getD (l + 1) #[])
  fields : ∀ l i, (c.program.withScope c.name).instructions[l]? = some i → ∀ f layer, (f, layer) ∈ fieldLayers →
    ∃ q, (s.network.layer layer).pattern? (i.field f) = some q ∧
      s.pairs.target? ⟨layer, ip⟩ (ps.getD l #[]) = some q
  labels : ∀ l ∈ c.program.labels, (s.network.layer ip).pattern? (labelToken c.name l.1) = some (ps.getD l.2 #[])

/-- The sessions over a network after the given calls, all of which succeeded. -/
inductive Reach (n : Network α) : List Call → Session α → Prop
  | start : Reach n [] (Session.new n)
  | encode {calls : List Call} {s : Session α} {later : Network α} (h : Reach n calls s)
      (hgrows : s.network.Grows later) (hsound : later.Sound) : Reach n calls { s with network := later }
  | call {calls : List Call} {s later : Session α} {c : Call} {source : String} {a : Assembly α} (h : Reach n calls s)
      (hparse : Program.parse n.registerNames source = .ok c.program)
      (hdoes : Does (assemble c.program c.name c.orthogonal c.verbose) s a later) : Reach n (calls ++ [c]) later

/-! ## One call -/

theorem does_flash {s later : Session α} {name : String} {verbose : Bool} {a : Assembly α}
    (h : Does (flash name verbose) s a later) : later = s ∧ ∃ warning : Pathway → Nat → Nat → String,
      a.weights = (s.pairs.flash s.network warning).value.1 ∧ a.errors = (s.pairs.flash s.network warning).value.2 := by
  obtain ⟨t, s₁, hget, hrest⟩ := does_bind h
  obtain ⟨rfl, rfl⟩ := does_get hget
  obtain ⟨w, s₂, hflash, hrest⟩ := does_bind hrest
  obtain ⟨rfl, rfl⟩ := does_note hflash
  obtain ⟨u, s₃, hnote, hpure⟩ := does_bind hrest
  obtain ⟨-, rfl⟩ := does_note hnote
  obtain ⟨rfl, rfl⟩ := does_pure hpure
  exact ⟨rfl, _, rfl, rfl⟩

omit [Scalar α] in
theorem does_enrol {s later : Session α} {name : String} {u : Unit} (h : Does (enrol name) s u later) :
    later.network = s.network ∧ later.pairs = s.pairs := by
  obtain ⟨t, s₁, hget, hrest⟩ := does_bind h
  obtain ⟨rfl, rfl⟩ := does_get hget
  by_cases hknown : s₁.programs.contains name = true
  · rw [if_pos hknown] at hrest
    obtain ⟨-, rfl⟩ := does_note hrest
    exact ⟨rfl, rfl⟩
  · rw [if_neg hknown] at hrest
    obtain rfl := does_set hrest
    exact ⟨rfl, rfl⟩

/-- The parts of a call that succeeds. -/
theorem of_assemble {s later : Session α} {program : Program} {name : String} {orthogonal verbose : Bool} {a : Assembly α}
    (h : Does (assemble program name orthogonal verbose) s a later) :
    isProgramName name = true ∧ program.isEmpty = false ∧ ∃ t u v, Does (enrol name) s u t ∧
      Does (learnProgram (program.withScope name) name orthogonal) t v later ∧ Does (flash name verbose) later a later := by
  unfold assemble at h
  by_cases hname : isProgramName name = true
  swap
  · rw [if_neg hname] at h
    obtain ⟨u, t, hthrow, -⟩ := does_bind h
    exact absurd hthrow not_does_throw
  rw [if_pos hname] at h
  by_cases hempty : program.isEmpty = true
  · rw [if_pos hempty] at h
    obtain ⟨u, t, hthrow, -⟩ := does_bind h
    exact absurd hthrow not_does_throw
  rw [if_neg hempty] at h
  obtain ⟨u, t, henrol, hrest⟩ := does_bind h
  obtain ⟨v, t', hlearn, hflash⟩ := does_bind hrest
  obtain rfl := (does_flash hflash).1
  exact ⟨hname, Bool.eq_false_iff.mpr hempty, t, u, v, henrol, hlearn, hflash⟩

/-- A call that succeeds writes every pathway over all that the session then stores. -/
theorem weights_of_assemble {s later : Session α} {program : Program} {name : String} {orthogonal verbose : Bool} {a : Assembly α}
    (h : Does (assemble program name orthogonal verbose) s a later) :
    ∃ warning : Pathway → Nat → Nat → String, a.weights = (later.pairs.flash later.network warning).value.1 := by
  obtain ⟨-, -, t, u, v, -, -, hflash⟩ := of_assemble h
  obtain ⟨-, warning, hweights, -⟩ := does_flash hflash
  exact ⟨warning, hweights⟩

/-- What a call that succeeds does. -/
theorem does_assemble [SameLaws α] {s later : Session α} (hs : s.Good) {c : Call} (hp : c.program.Labelled)
    {a : Assembly α} (h : Does (assemble c.program c.name c.orthogonal c.verbose) s a later) :
    isProgramName c.name = true ∧ (∃ ps, Taught s later (c.program.withScope c.name) c.name ps) ∧
      ∃ warning : Pathway → Nat → Nat → String, a.weights = (later.pairs.flash later.network warning).value.1 ∧
        a.errors = (later.pairs.flash later.network warning).value.2 := by
  obtain ⟨hname, -, t, u, v, henrol, hlearn, hflash⟩ := of_assemble h
  obtain ⟨-, warning, hweights, herrors⟩ := does_flash hflash
  obtain ⟨hnet, hpairs⟩ := does_enrol henrol
  have hgood : t.Good := ⟨by rw [hnet]; exact hs.sound, by rw [hnet]; exact hs.numbered, by rw [hnet, hpairs]; exact hs.sized⟩
  obtain ⟨ps, hps⟩ := does_learnProgram hgood (hp.withScope c.name) (fun l => label_not_mem_pointerTokens hname) hlearn
  refine ⟨hname, ⟨ps, ⟨hps.good, ?_, hps.pointers, hps.labels, ?_, ?_, hps.shared, hps.literals⟩⟩, warning, hweights, herrors⟩
  · rw [← hnet]
    exact hps.keeps
  · rw [← hpairs]
    exact hps.next
  · rw [← hpairs]
    exact hps.fields

/-! ## What is held -/

section

variable {s later : Session α} {c d : Call} {ps qs : List (Pattern α)}

theorem length_of_pointers {n : Network α} (h : List.Forall₂ (fun t p => (n.layer ip).pattern? t = some p) c.tokens ps) :
    ps.length = c.program.size + 1 := by
  rw [← h.length_eq, Call.tokens, length_pointerTokens]

/-- The pattern of a token. -/
theorem pattern_of_pointers {n : Network α} (h : List.Forall₂ (fun t p => (n.layer ip).pattern? t = some p) c.tokens ps)
    {l : Nat} (hl : l < ps.length) : ∃ t ∈ c.tokens, (n.layer ip).pattern? t = some ps[l] := by
  have hl' : l < c.tokens.length := by rw [h.length_eq]; exact hl
  exact ⟨c.tokens[l], List.getElem_mem hl', (List.forall₂_iff_get.mp h).2 l hl' hl⟩

theorem Distinct.eq_of_same {calls : List Call} {n : Network α} (h : Distinct calls n) (hc : c ∈ calls)
    (hps : List.Forall₂ (fun t p => (n.layer ip).pattern? t = some p) c.tokens ps) {i l : Nat} (hi : i < ps.length)
    (hl : l < ps.length) (hsame : Pairs.samePattern ps[i] ps[l] = true) : i = l := by
  have hi' : i < c.tokens.length := by rw [hps.length_eq]; exact hi
  have hl' : l < c.tokens.length := by rw [hps.length_eq]; exact hl
  have heq := h c hc c hc _ (List.getElem_mem hi') _ (List.getElem_mem hl') _ _ ((List.forall₂_iff_get.mp hps).2 i hi' hi)
    ((List.forall₂_iff_get.mp hps).2 l hl' hl) hsame
  exact (List.Nodup.getElem_inj_iff (nodup_pointerTokens _ _)).mp heq

/-- A session holds the program that was added last. -/
theorem holds_of_taught [SameLaws α] (h : Taught s later (c.program.withScope c.name) c.name ps) {calls : List Call}
    (hc : c ∈ calls) (hdistinct : Distinct calls later.network) : Holds later c ps := by
  have hpointers : List.Forall₂ (fun t p => (later.network.layer ip).pattern? t = some p) c.tokens ps := by
    have := h.pointers
    rwa [Program.size_withScope] at this
  have hlen := length_of_pointers hpointers
  -- the key of a line among the keys of all lines
  have hkey : ∀ l (hl : l < c.program.size), ∃ hl' : l < (ps.take c.program.size).length,
      (ps.take c.program.size)[l] = ps.getD l #[] ∧ ∀ i (hi : i < (ps.take c.program.size).length),
        Pairs.samePattern (ps.take c.program.size)[i] (ps.take c.program.size)[l] = true → i = l := by
    intro l hl
    have hl' : l < (ps.take c.program.size).length := by rw [List.length_take]; omega
    refine ⟨hl', ?_, fun i hi hsame => ?_⟩
    · rw [List.getElem_take, List.getD_eq_getElem]
    · rw [List.getElem_take, List.getElem_take] at hsame
      rw [List.length_take] at hi
      exact hdistinct.eq_of_same hc hpointers (by omega) (by omega) hsame
  refine ⟨hpointers, fun l hl => ?_, fun l i hi f layer hf => ?_, fun l hl => ?_⟩
  · obtain ⟨hl', hget, huniq⟩ := hkey l hl
    have hl₂ : l < (ps.drop 1).length := by rw [List.length_drop]; omega
    rw [h.next, Program.size_withScope, ← hget, Pairs.targetIn_zip_self hl' hl₂ huniq, Option.some_or,
      List.getElem_drop, List.getD_eq_getElem _ _ (by omega)]
    congr 2
    omega
  · have hl : l < c.program.size := by
      rw [← Program.size_withScope c.program c.name]
      exact (List.getElem?_eq_some_iff.mp hi).1
    obtain ⟨ts, hts, htarget⟩ := h.fields f layer hf
    obtain ⟨hl', hget, huniq⟩ := hkey l hl
    have hl₁ : l < ((c.program.withScope c.name).instructions.map (·.field f)).length := by
      rw [List.length_map]
      exact (List.getElem?_eq_some_iff.mp hi).1
    have hl₂ : l < ts.length := by rw [← hts.length_eq]; exact hl₁
    refine ⟨ts[l], ?_, ?_⟩
    · have := (List.forall₂_iff_get.mp hts).2 l hl₁ hl₂
      simp only [List.get_eq_getElem, List.getElem_map, (List.getElem?_eq_some_iff.mp hi).2] at this
      exact this
    · rw [htarget, Program.size_withScope, ← hget, Pairs.targetIn_zip_self hl' hl₂ huniq, Option.some_or]
  · have := h.labels (labelToken c.name l.1, l.2) (by
      rw [Program.labels_withScope]
      exact List.mem_map_of_mem (f := fun l => (c.name ++ ":" ++ l.1, l.2)) hl)
    exact this

/-- Encoding tokens takes nothing from what is held. -/
theorem Holds.of_grows (h : Holds s c ps) {n : Network α} (hn : s.network.Grows n) : Holds { s with network := n } c ps := by
  refine ⟨h.pointers.imp fun t p hp => hn.pattern _ t p trivial hp, h.next, fun l i hi f layer hf => ?_, fun l hl => ?_⟩
  · obtain ⟨q, hq, htarget⟩ := h.fields l i hi f layer hf
    exact ⟨q, hn.pattern _ _ q trivial hq, htarget⟩
  · exact hn.pattern _ _ _ trivial (h.labels l hl)

/-- No entry or line token is a label of a program. -/
theorem Taught.keeps_pointer (h : Taught s later (d.program.withScope d.name) d.name qs) (hc : isProgramName c.name = true)
    {t : String} (ht : t ∈ c.tokens) {p : Pattern α} (hp : (s.network.layer ip).pattern? t = some p) :
    (later.network.layer ip).pattern? t = some p := by
  refine h.keeps.pattern ip t p ?_ hp
  rintro ⟨-, hmem⟩
  rw [Program.labels_withScope, List.map_map] at hmem
  obtain ⟨q, -, heq⟩ := List.mem_map.mp hmem
  exact labelToken_ne_pointerToken hc ht d.name q.1 heq.symm

/-- Adding a program of another name takes nothing from what is held. -/
theorem Holds.of_taught (h : Holds s c ps) (hc : isProgramName c.name = true) (hd : isProgramName d.name = true)
    (hname : d.name ≠ c.name) (ht : Taught s later (d.program.withScope d.name) d.name qs) {calls : List Call}
    (hcmem : c ∈ calls) (hdmem : d ∈ calls) (hdistinct : Distinct calls later.network) : Holds later c ps := by
  have hpointers : List.Forall₂ (fun t p => (later.network.layer ip).pattern? t = some p) c.tokens ps := by
    rw [List.forall₂_iff_get]
    refine ⟨h.pointers.length_eq, fun i h₁ h₂ => ?_⟩
    exact ht.keeps_pointer hc (List.get_mem _ _) ((List.forall₂_iff_get.mp h.pointers).2 i h₁ h₂)
  have hqs : List.Forall₂ (fun t p => (later.network.layer ip).pattern? t = some p) d.tokens qs := by
    have := ht.pointers
    rwa [Program.size_withScope] at this
  -- no key of the new program is one of this program
  have hother : ∀ l, l < c.program.size → ∀ q ∈ qs.take d.program.size, Pairs.samePattern q (ps.getD l #[]) = false := by
    intro l hl q hq
    have hlt : l < ps.length := by rw [length_of_pointers hpointers]; omega
    rw [List.getD_eq_getElem _ _ hlt, Bool.eq_false_iff]
    intro hsame
    obtain ⟨i, hi, rfl⟩ := List.getElem_of_mem (List.mem_of_mem_take hq)
    obtain ⟨t, htmem, htp⟩ := pattern_of_pointers hqs hi
    obtain ⟨t', htmem', htp'⟩ := pattern_of_pointers hpointers hlt
    obtain rfl := hdistinct d hdmem c hcmem t htmem t' htmem' _ _ htp htp' hsame
    exact hname (name_eq_of_pointerToken hd hc htmem htmem')
  refine ⟨hpointers, fun l hl => ?_, fun l i hi f layer hf => ?_, fun l hl => ?_⟩
  · rw [ht.next, Program.size_withScope, Pairs.targetIn_zip_none (hother l hl), Option.none_or]
    exact h.next l hl
  · have hl : l < c.program.size := by
      rw [← Program.size_withScope c.program c.name]
      exact (List.getElem?_eq_some_iff.mp hi).1
    obtain ⟨q, hq, htarget⟩ := h.fields l i hi f layer hf
    obtain ⟨ts, -, hnew⟩ := ht.fields f layer hf
    refine ⟨q, ht.keeps.pattern layer _ q ?_ hq, ?_⟩
    · intro hlabel
      exact (of_mem_fieldLayers ht.good.numbered hf).2 hlabel.1
    · rw [hnew, Program.size_withScope, Pairs.targetIn_zip_none (hother l hl), Option.none_or]
      exact htarget
  · refine ht.keeps.pattern ip _ _ ?_ (h.labels l hl)
    rintro ⟨-, hmem⟩
    rw [Program.labels_withScope, List.map_map] at hmem
    obtain ⟨q, -, heq⟩ := List.mem_map.mp hmem
    exact hname (scope_eq_of_labelToken hd hc heq)

end

/-! ## Histories -/

/-- What is known of a session after any history. -/
structure Known (calls : List Call) (s : Session α) : Prop where
  good : s.Good
  names : ∀ c ∈ calls, isProgramName c.name = true
  tokens : ∀ c ∈ calls, ∀ t ∈ c.tokens, ∃ p, (s.network.layer ip).pattern? t = some p
  holds : Distinct calls s.network → ∀ c, Latest calls c → ∃ ps, Holds s c ps

theorem latest_append {calls : List Call} {c d : Call} (h : Latest (calls ++ [d]) c) :
    c = d ∨ (Latest calls c ∧ d.name ≠ c.name) := by
  obtain ⟨before, after, heq, hne⟩ := h
  rcases List.eq_nil_or_concat after with rfl | ⟨rest, e, rfl⟩
  · left
    have := List.append_inj_right' heq rfl
    exact (List.cons.inj this).1.symm
  · right
    have heq : calls ++ [d] = (before ++ c :: rest) ++ [e] := by rw [heq]; simp
    have h₁ := List.append_inj_left' heq rfl
    have h₂ := (List.cons.inj (List.append_inj_right' heq rfl)).1
    refine ⟨⟨before, rest, h₁, fun x hx => hne x (by simp [hx])⟩, ?_⟩
    rw [h₂]
    exact hne e (by simp)

theorem Latest.mem {calls : List Call} {c : Call} (h : Latest calls c) : c ∈ calls := by
  obtain ⟨before, after, rfl, -⟩ := h
  simp

/-- What one more call makes known. -/
theorem Known.call [SameLaws α] {calls : List Call} {s later : Session α} {c : Call} {ps : List (Pattern α)}
    (h : Known calls s) (hname : isProgramName c.name = true)
    (ht : Taught s later (c.program.withScope c.name) c.name ps) : Known (calls ++ [c]) later := by
  have hps : List.Forall₂ (fun t p => (later.network.layer ip).pattern? t = some p) c.tokens ps := by
    have := ht.pointers
    rwa [Program.size_withScope] at this
  have hnames : ∀ d ∈ calls ++ [c], isProgramName d.name = true := by
    intro d hd
    rcases List.mem_append.mp hd with hd | hd
    · exact h.names d hd
    · rw [List.mem_singleton.mp hd]; exact hname
  refine ⟨ht.good, hnames, fun d hd t htmem => ?_, fun hdistinct d hlatest => ?_⟩
  · rcases List.mem_append.mp hd with hd | hd
    · obtain ⟨p, hp⟩ := h.tokens d hd t htmem
      exact ⟨p, ht.keeps_pointer (h.names d hd) htmem hp⟩
    · rw [List.mem_singleton.mp hd] at htmem
      obtain ⟨i, hi, rfl⟩ := List.getElem_of_mem htmem
      have hi' : i < ps.length := by rw [← hps.length_eq]; exact hi
      exact ⟨ps[i], (List.forall₂_iff_get.mp hps).2 i hi hi'⟩
  · rcases latest_append hlatest with rfl | ⟨hbefore, hne⟩
    · exact ⟨ps, holds_of_taught ht (by simp) hdistinct⟩
    · have hearlier : Distinct calls s.network := by
        intro e he e' he' t htm t' htm' p p' hp hp' hsame
        exact hdistinct e (by simp [he]) e' (by simp [he']) t htm t' htm' p p'
          (ht.keeps_pointer (h.names e he) htm hp) (ht.keeps_pointer (h.names e' he') htm' hp') hsame
      obtain ⟨qs, hqs⟩ := h.holds hearlier d hbefore
      exact ⟨qs, hqs.of_taught (h.names d hbefore.mem) hname hne ht (by simp [hbefore.mem]) (by simp) hdistinct⟩

theorem known_of_reach [SameLaws α] {n : Network α} (hn : n.Sound) (hnum : n.Numbered) {calls : List Call} {s : Session α}
    (h : Reach n calls s) : Known calls s := by
  induction h with
  | start =>
    refine ⟨⟨hn, hnum, PairMap.sized_empty n⟩, fun c hc => ?_, fun c hc => ?_, fun _ c hc => ?_⟩
    · cases hc
    · cases hc
    · exact absurd hc.mem List.not_mem_nil
  | @encode calls s later _ hgrows hsound ih =>
    refine ⟨⟨hsound, hgrows.numbered ih.good.numbered, sized_of_keeps ih.good.sized hgrows⟩, ih.names, ?_, ?_⟩
    · intro c hc t ht
      obtain ⟨p, hp⟩ := ih.tokens c hc t ht
      exact ⟨p, hgrows.pattern _ _ p trivial hp⟩
    · intro hdistinct c hc
      have hearlier : Distinct calls s.network := fun e he e' he' t htm t' htm' p p' hp hp' hsame =>
        hdistinct e he e' he' t htm t' htm' p p' (hgrows.pattern _ _ p trivial hp) (hgrows.pattern _ _ p' trivial hp') hsame
      obtain ⟨ps, hps⟩ := ih.holds hearlier c hc
      exact ⟨ps, hps.of_grows hgrows⟩
  | call _ hparse hdoes ih =>
    obtain ⟨hname, ⟨ps, hps⟩, -⟩ := does_assemble ih.good (Program.labelled_of_parse hparse) hdoes
    exact ih.call hname hps

/-- After any history of programs added to a network, whose entry and line tokens are told apart,
the session holds every program as it was last added; the data pathways are told to recall every
token that both of their layers know, where the tokens of the source are told apart; and when the
last call missed nothing, exact numbers recall all that the session is told to. -/
theorem programs_retained [SameLaws α] {config : Config α} {n : Network α} (hbuild : (Network.build config).value = .ok n)
    {calls : List Call} {s : Session α} (h : Reach n calls s) {c : Call} {source : String}
    (hparse : Program.parse n.registerNames source = .ok c.program) {a : Assembly α} {later : Session α}
    (hdoes : Does (assemble c.program c.name c.orthogonal c.verbose) s a later)
    (hdistinct : Distinct (calls ++ [c]) later.network) :
    (∀ d, Latest (calls ++ [c]) d → ∃ ps, Holds later d ps) ∧
    (∀ p ∈ dataPathways later.network.registers,
      (∀ t t' x x', (later.network.layer p.source).pattern? t = some x →
        (later.network.layer p.source).pattern? t' = some x' → Pairs.samePattern x x' = true → t = t') →
      ∀ t x y, (later.network.layer p.source).pattern? t = some x →
        (later.network.layer p.target).pattern? t = some y → later.pairs.target? p x = some y) ∧
    ((∀ x y : α, Scalar.same x y = true → x = y) → a.errors = 0 →
      ∀ p x y, later.pairs.target? p x = some y → ∃ connection, a.weights[p]? = some connection ∧
        (later.network.activator p.target).bits (connection.recalled (later.network.activator p.target) x) =
          (later.network.activator p.target).bits y) := by
  have hbuilt := Network.builtFrom_of_build hbuild
  have hknown := known_of_reach hbuilt.sound hbuilt.numbered h
  obtain ⟨hname, ⟨ps, hps⟩, warning, hweights, herrors⟩ :=
    does_assemble hknown.good (Program.labelled_of_parse hparse) hdoes
  have hafter := hknown.call hname hps
  refine ⟨hafter.holds hdistinct, fun p hp huniq t x y hx hy => ?_, fun hexact hzero p x y htarget => ?_⟩
  · exact hps.shared p hp t x y hx hy fun t' x' hx' hsame => huniq t' t x' x hx' hx hsame
  · unfold PairMap.target? at htarget
    obtain ⟨pairs, hpairs, htarget⟩ := Option.bind_eq_some_iff.mp htarget
    obtain ⟨x', hmem, hsame⟩ := Pairs.exists_mem_of_targetIn htarget
    have heq : x' = x := by
      obtain ⟨hsize, hall⟩ := Pairs.samePattern_iff.mp hsame
      exact Array.ext hsize fun i h₁ h₂ => hexact _ _ (hall i h₁ h₂)
    subst heq
    rw [herrors] at hzero
    obtain ⟨hweight, hmissed⟩ := PairMap.flash_spec _ _ warning hzero hpairs
    have hbits := Pairs.bits_recalled_flash (hafter.good.sized p pairs hpairs).1 hmissed hmem
    exact ⟨_, by rw [hweights]; exact hweight, hbits⟩

/-! ## A session of two programs -/

/-- A program with a label. -/
def labelledCall : Call := ⟨⟨[⟨.nop, "null", "null", 1⟩], [("t", 0)]⟩, "a", true, false⟩

def secondCall : Call := ⟨⟨[⟨.exit, "null", "null", 1⟩], []⟩, "b", true, false⟩

/-- Whether tokens of the instruction pointer are told apart by their patterns. -/
def toldApart (n : Network α) (tokens : List String) : Bool :=
  tokens.all fun t => tokens.all fun t' => t == t' ||
    match (n.layer ip).pattern? t, (n.layer ip).pattern? t' with
    | some p, some p' => !Pairs.samePattern p p'
    | _, _ => true

theorem distinct_of_toldApart {n : Network α} {calls : List Call} (h : toldApart n (calls.flatMap Call.tokens) = true) :
    Distinct calls n := by
  intro c hc c' hc' t ht t' ht' p p' hp hp' hsame
  unfold toldApart at h
  rw [List.all_eq_true] at h
  have h₁ := h t (List.mem_flatMap.mpr ⟨c, hc, ht⟩)
  rw [List.all_eq_true] at h₁
  have h₂ := h₁ t' (List.mem_flatMap.mpr ⟨c', hc', ht'⟩)
  rw [hp, hp'] at h₂
  simpa [hsame] using h₂

/-- Whether two programs can be added to a network, with their tokens told apart and nothing missed. -/
def addsBoth (n : Network α) (c d : Call) : Bool :=
  match ((assemble c.program c.name c.orthogonal c.verbose).run.run (Session.new n)).value with
  | (.error _, _) => false
  | (.ok _, s) => match ((assemble d.program d.name d.orthogonal d.verbose).run.run s).value with
    | (.error _, _) => false
    | (.ok a, s) => toldApart s.network ([c, d].flatMap Call.tokens) && decide (a.errors = 0)

theorem does_of_addsBoth {n : Network α} {c d : Call} (h : addsBoth n c d = true) :
    ∃ a₁ s a later, Does (assemble c.program c.name c.orthogonal c.verbose) (Session.new n) a₁ s ∧
      Does (assemble d.program d.name d.orthogonal d.verbose) s a later ∧ Distinct [c, d] later.network ∧ a.errors = 0 := by
  unfold addsBoth at h
  rcases hfirst : ((assemble c.program c.name c.orthogonal c.verbose).run.run (Session.new n)).value with ⟨e | a₁, s⟩
  · rw [hfirst] at h
    cases h
  rw [hfirst] at h
  dsimp only at h
  rcases hsecond : ((assemble d.program d.name d.orthogonal d.verbose).run.run s).value with ⟨e | a, later⟩
  · rw [hsecond] at h
    cases h
  rw [hsecond] at h
  dsimp only at h
  rw [Bool.and_eq_true, decide_eq_true_iff] at h
  exact ⟨a₁, s, a, later, hfirst, hsecond, distinct_of_toldApart h.1, h.2⟩

theorem addsBoth_smallNetwork : addsBoth smallNetwork labelledCall secondCall = true := by decide +kernel

/-- Two programs on a small network: both are held, and everything the session holds is recalled. -/
theorem two_programs_retained :
    ∃ later : Session Fixed, ∃ a : Assembly Fixed, a.errors = 0 ∧
      (∃ ps, Holds later labelledCall ps) ∧ (∃ ps, Holds later secondCall ps) ∧
      ∀ p x y, later.pairs.target? p x = some y → ∃ connection, a.weights[p]? = some connection ∧
        (later.network.activator p.target).bits (connection.recalled (later.network.activator p.target) x) =
          (later.network.activator p.target).bits y := by
  obtain ⟨a₁, s, a, later, hfirst, hsecond, hdistinct, hzero⟩ := does_of_addsBoth addsBoth_smallNetwork
  have hparse₁ : Program.parse smallNetwork.registerNames "t: nop" = .ok labelledCall.program := by decide +kernel
  have hparse₂ : Program.parse smallNetwork.registerNames "exit" = .ok secondCall.program := by decide +kernel
  obtain ⟨hheld, -, hrecalled⟩ := programs_retained build_smallConfig (.call .start hparse₁ hfirst) hparse₂ hsecond hdistinct
  have hlabelled : Latest [labelledCall, secondCall] labelledCall := ⟨[], [secondCall], rfl, by decide⟩
  have hother : Latest [labelledCall, secondCall] secondCall := ⟨[labelledCall], [], rfl, fun d hd => by cases hd⟩
  exact ⟨later, a, hzero, hheld labelledCall hlabelled, hheld secondCall hother,
    hrecalled (fun x y => (Fixed.same_iff x y).mp) hzero⟩

end Engram.Session
