/-
  Engram.Proofs.Data.Assembling — what adding one program does to a session.

  Each part of adding a program either gives patterns to tokens, and then no associations change,
  or stores associations, and then no pattern does (`does_encode`, `does_learn`); only the labels
  of the program itself are bound anew (`does_bindLabels`). What comes of it is put together in
  `Taught`: the patterns that the tokens of the program have afterwards, and what the pathways are
  told to recall for them.
-/

import Engram.Data.Session
import Engram.Proofs.Data.Pathways
import Engram.Proofs.Network.Books
import Engram.Proofs.Program.Labels
import Engram.Proofs.Program.Tokens
import Mathlib.Data.List.GetD

namespace Engram.Session

open LayerId

variable {α β γ : Type}

/-! ## Operations that succeed -/

/-- The operation succeeds with a result and leaves a session. -/
def Does (x : Assembling α β) (s : Session α) (b : β) (later : Session α) : Prop :=
  (x.run.run s).value = (.ok b, later)

theorem does_bind {x : Assembling α β} {f : β → Assembling α γ} {s later : Session α} {c : γ}
    (h : Does (x >>= f) s c later) : ∃ b t, Does x s b t ∧ Does (f b) t c later := by
  unfold Does at h ⊢
  have hbind : ((x >>= f).run.run s).value =
      ((ExceptT.bindCont f (x.run.run s).value.1).run (x.run.run s).value.2).value := rfl
  rw [hbind] at h
  rcases hx : (x.run.run s).value with ⟨e | b, t⟩
  · rw [hx] at h
    cases h
  · rw [hx] at h
    exact ⟨b, t, rfl, h⟩

theorem does_pure {s later : Session α} {b c : β} (h : Does (pure b) s c later) : c = b ∧ later = s := by
  cases h
  exact ⟨rfl, rfl⟩

theorem does_get {s t later : Session α} (h : Does get s t later) : t = s ∧ later = s := by
  cases h
  exact ⟨rfl, rfl⟩

theorem does_set {s t later : Session α} {u : PUnit} (h : Does (set t) s u later) : later = t := by
  cases h
  rfl

theorem does_lift {r : Except (Fault α) β} {s later : Session α} {b : β} (h : Does (liftM r) s b later) :
    r = .ok b ∧ later = s := by
  cases r with
  | error e => cases h
  | ok c => cases h; exact ⟨rfl, rfl⟩

theorem does_note {x : Noted β} {s later : Session α} {b : β} (h : Does (liftM x) s b later) :
    b = x.value ∧ later = s := by
  cases h
  exact ⟨rfl, rfl⟩

theorem not_does_throw {e : Fault α} {s later : Session α} {b : β} : ¬ Does (throw e) s b later := by
  intro h
  cases h

/-- Doing something for every element of a list keeps what doing it for each of them keeps. -/
theorem does_forM {l : List γ} {f : γ → Assembling α Unit} {I : Session α → Prop}
    (hI : ∀ x ∈ l, ∀ t t' u, I t → Does (f x) t u t' → I t') {s later : Session α} {u : Unit} (hs : I s)
    (h : Does (l.forM f) s u later) : I later := by
  induction l generalizing s with
  | nil => rw [(does_pure h).2]; exact hs
  | cons x rest ih =>
    obtain ⟨v, t, hx, hrest⟩ := does_bind h
    exact ih (fun y hy => hI y (List.mem_cons_of_mem _ hy)) (hI x List.mem_cons_self _ _ _ hs hx) hrest

variable [Scalar α]

/-- What every state of a session is like. -/
structure Good (s : Session α) : Prop where
  sound : s.network.Sound
  numbered : s.network.Numbered
  sized : s.pairs.Sized s.network

theorem Good.position_lt {s : Session α} (hs : s.Good) {l : LayerId} (hl : l.position < controlNames.length) :
    l.position < s.network.layers.size :=
  Nat.lt_of_lt_of_le hl hs.numbered.control

theorem sized_of_keeps {m : PairMap α} {n later : Network α} {keep : LayerId → String → Prop} (hm : m.Sized n)
    (h : n.Keeps keep later) : m.Sized later := by
  intro p s hp
  rw [h.size, h.size]
  exact hm p s hp

/-! ## The parts -/

theorem does_encode {s later : Session α} (hs : s.Good) {l : LayerId} (hl : l.position < s.network.layers.size)
    {orthogonal : Bool} {tokens : List String} {columns : Columns α}
    (h : Does (encode l orthogonal tokens) s columns later) :
    later.Good ∧ s.network.Encoded l tokens columns later.network ∧ later.pairs = s.pairs := by
  obtain ⟨t, s₁, hget, hrest⟩ := does_bind h
  obtain ⟨rfl, rfl⟩ := does_get hget
  rcases hall : s₁.network.encodeAll l orthogonal tokens with ⟨r, network⟩
  rw [hall] at hrest
  obtain ⟨u, s₂, hset, hlift⟩ := does_bind hrest
  obtain rfl := does_set hset
  obtain ⟨rfl, rfl⟩ := does_lift hlift
  have henc := Network.encodeAll_spec hs.sound hl orthogonal tokens hall
  exact ⟨⟨henc.sound, henc.grows.numbered hs.numbered, sized_of_keeps hs.sized henc.grows⟩, henc, rfl⟩

theorem does_learn {s later : Session α} {p : Pathway} {x y : Columns α} {u : Unit}
    (h : Does (learn p x y) s u later) : later.network = s.network ∧ s.pairs.add? s.network p x y = .ok later.pairs := by
  obtain ⟨t, s₁, hget, hrest⟩ := does_bind h
  obtain ⟨rfl, rfl⟩ := does_get hget
  rcases hadd : s₁.pairs.add? s₁.network p x y with e | pairs
  · rw [hadd] at hrest
    exact absurd hrest not_does_throw
  · rw [hadd] at hrest
    obtain rfl := does_set hrest
    exact ⟨rfl, rfl⟩

theorem Good.learn {s later : Session α} (hs : s.Good) {p : Pathway} {x y : Columns α} (hx : x.Sized) (hy : y.Sized)
    {u : Unit} (h : Does (Session.learn p x y) s u later) : later.Good := by
  obtain ⟨hn, hadd⟩ := does_learn h
  have hsized := hs.sized.add hx hy hadd
  exact ⟨by rw [hn]; exact hs.sound, by rw [hn]; exact hs.numbered, by rw [hn]; exact hsized⟩

/-- Giving patterns to the same tokens on several layers. -/
theorem does_encodeEach {layers : List γ} {l : γ → LayerId} {orthogonal : Bool} {f : γ → List String}
    {s later : Session α} (hs : s.Good) (hl : ∀ x ∈ layers, (l x).position < s.network.layers.size) {u : Unit}
    (h : Does (layers.forM fun x => do let _ ← encode (l x) orthogonal (f x)) s u later) :
    later.Good ∧ s.network.Grows later.network ∧ later.pairs = s.pairs := by
  refine does_forM (I := fun t => t.Good ∧ s.network.Grows t.network ∧ t.pairs = s.pairs) ?_
    ⟨hs, .refl _, rfl⟩ h
  rintro x hx t t' v ⟨ht, hgrows, hpairs⟩ hdoes
  obtain ⟨columns, t₁, henc, hpure⟩ := does_bind hdoes
  obtain ⟨-, rfl⟩ := does_pure hpure
  obtain ⟨hgood, hencoded, hsame⟩ := does_encode ht (by rw [hgrows.count]; exact hl x hx) henc
  exact ⟨hgood, hgrows.trans hencoded.grows, hsame.trans hpairs⟩

/-- Giving patterns to tokens on several layers, they come to know them. -/
theorem knows_encodeEach {layers : List γ} {l : γ → LayerId} {orthogonal : Bool} {f : γ → List String}
    {s later : Session α} (hs : s.Good) (hl : ∀ x ∈ layers, (l x).position < s.network.layers.size) {u : Unit}
    (h : Does (layers.forM fun x => do let _ ← encode (l x) orthogonal (f x)) s u later) :
    ∀ x ∈ layers, ∀ t ∈ f x, (later.network.layer (l x)).knows t = true := by
  induction layers generalizing s with
  | nil => exact fun x hx => (List.not_mem_nil hx).elim
  | cons y rest ih =>
    obtain ⟨v, t₁, hdoes, hrest⟩ := does_bind h
    obtain ⟨columns, t₂, henc, hpure⟩ := does_bind hdoes
    obtain ⟨-, rfl⟩ := does_pure hpure
    obtain ⟨hgood, hencoded, -⟩ := does_encode hs (hl y List.mem_cons_self) henc
    have hlayers : ∀ x ∈ rest, (l x).position < t₁.network.layers.size := by
      rw [hencoded.grows.count]
      exact fun x hx => hl x (List.mem_cons_of_mem _ hx)
    intro x hx token htoken
    rcases List.mem_cons.mp hx with rfl | hx
    · exact (does_encodeEach hgood hlayers hrest).2.1.knows trivial ((hencoded.knows _ _).mpr (.inr ⟨rfl, htoken⟩))
    · exact ih hgood hlayers hrest x hx token htoken

/-- Binding labels changes the patterns of the labels and no others. -/
theorem does_bindLabels {columns : Columns α} {labels : List (String × Nat)} (hnodup : (labels.map (·.1)).Nodup)
    {s later : Session α} (hs : s.Good) (hsize : ∀ l ∈ labels, (columns.patterns.getD l.2 #[]).size = s.network.size ip)
    {u : Unit} (h : Does (labels.forM (bindLabel columns)) s u later) :
    later.Good ∧ s.network.Keeps (fun l t => ¬ (l = ip ∧ t ∈ labels.map (·.1))) later.network ∧ later.pairs = s.pairs ∧
      ∀ l ∈ labels, (later.network.layer ip).pattern? l.1 = some (columns.patterns.getD l.2 #[]) := by
  induction labels generalizing s with
  | nil =>
    rw [(does_pure h).2]
    exact ⟨hs, .refl _, rfl, fun l hl => by cases hl⟩
  | cons label rest ih =>
    obtain ⟨v, t, hbind, hrest⟩ := does_bind h
    rw [List.map_cons, List.nodup_cons] at hnodup
    obtain rfl : t = { s with network := s.network.bindToken ip label.1 (columns.patterns.getD label.2 #[]) } := by
      cases hbind
      rfl
    have hip : ip.position < s.network.layers.size := hs.position_lt (by decide)
    have hkeeps := Network.keeps_bindToken s.network ip label.1 (columns.patterns.getD label.2 #[])
    have hgood : Good { s with network := s.network.bindToken ip label.1 (columns.patterns.getD label.2 #[]) } :=
      ⟨hs.sound.bindToken ip label.1 (hsize label List.mem_cons_self), hkeeps.numbered hs.numbered,
        sized_of_keeps hs.sized hkeeps⟩
    obtain ⟨h₁, h₂, h₃, h₄⟩ := ih hnodup.2 hgood
      (fun l hl => by rw [hkeeps.size]; exact hsize l (List.mem_cons_of_mem _ hl)) hrest
    refine ⟨h₁, ?_, h₃, fun l hl => ?_⟩
    · refine (hkeeps.mono ?_).trans (h₂.mono ?_)
      · rintro l t hk ⟨rfl, rfl⟩
        exact hk ⟨rfl, by simp⟩
      · rintro l t hk ⟨rfl, ht⟩
        exact hk ⟨rfl, by simp [ht]⟩
    · rcases List.mem_cons.mp hl with rfl | hl
      · refine h₂.pattern ip l.1 _ ?_ (Network.pattern?_bindToken_self _ hip _ _)
        rintro ⟨-, hmem⟩
        exact hnodup.1 hmem
      · exact h₄ l hl

/-- Storing the tokens of one field of a program, line by line. -/
theorem does_learnField [SameLaws α] {s later : Session α} (hs : s.Good) {layer : LayerId}
    (hl : layer.position < s.network.layers.size) {current : Columns α} (hcurrent : current.Sized)
    {tokens : List String} {u : Unit}
    (h : Does (do let targets ← encode layer false tokens; learn ⟨layer, ip⟩ current targets) s u later) :
    later.Good ∧ s.network.Grows later.network ∧
      (∀ q, q ≠ ⟨layer, ip⟩ → ∀ k, later.pairs.target? q k = s.pairs.target? q k) ∧
      ∃ ts, List.Forall₂ (fun t p => (later.network.layer layer).pattern? t = some p) tokens ts ∧
        ∀ k, later.pairs.target? ⟨layer, ip⟩ k =
          (Pairs.targetIn (current.patterns.zip ts).reverse k).or (s.pairs.target? ⟨layer, ip⟩ k) := by
  obtain ⟨targets, t, henc, hlearn⟩ := does_bind h
  obtain ⟨hgood, hencoded, hsame⟩ := does_encode hs hl henc
  obtain ⟨hnet, hadd⟩ := does_learn hlearn
  refine ⟨hgood.learn hcurrent hencoded.size_of_mem hlearn, by rw [hnet]; exact hencoded.grows, ?_, targets.patterns, ?_, ?_⟩
  · intro q hq k
    rw [PairMap.target?_add hadd, if_neg hq, hsame]
  · rw [hnet]
    exact hencoded.patterns
  · intro k
    rw [PairMap.target?_add hadd, if_pos rfl, hsame]

/-- Storing every field of a program, each on a layer of its own. -/
theorem does_learnFields [SameLaws α] {fields : List (Field × LayerId)} (hnodup : (fields.map (·.2)).Nodup)
    {s later : Session α} (hs : s.Good) (hl : ∀ x ∈ fields, x.2.position < s.network.layers.size) {current : Columns α}
    (hcurrent : current.Sized) {p : Program} {u : Unit}
    (h : Does (fields.forM fun (f, layer) => do
      let targets ← encode layer false (p.instructions.map (·.field f))
      learn ⟨layer, ip⟩ current targets) s u later) :
    later.Good ∧ s.network.Grows later.network ∧
      (∀ q, (∀ x ∈ fields, q ≠ ⟨x.2, ip⟩) → ∀ k, later.pairs.target? q k = s.pairs.target? q k) ∧
      ∀ x ∈ fields, ∃ ts,
        List.Forall₂ (fun t q => (later.network.layer x.2).pattern? t = some q) (p.instructions.map (·.field x.1)) ts ∧
        ∀ k, later.pairs.target? ⟨x.2, ip⟩ k =
          (Pairs.targetIn (current.patterns.zip ts).reverse k).or (s.pairs.target? ⟨x.2, ip⟩ k) := by
  induction fields generalizing s with
  | nil =>
    rw [(does_pure h).2]
    exact ⟨hs, .refl _, fun _ _ _ => rfl, fun x hx => by cases hx⟩
  | cons x rest ih =>
    obtain ⟨v, t, hx, hrest⟩ := does_bind h
    rw [List.map_cons, List.nodup_cons] at hnodup
    obtain ⟨h₁, h₂, h₃, ts, hts, htarget⟩ := does_learnField hs (hl x List.mem_cons_self) hcurrent hx
    obtain ⟨i₁, i₂, i₃, i₄⟩ := ih hnodup.2 h₁ (fun y hy => by rw [h₂.count]; exact hl y (List.mem_cons_of_mem _ hy)) hrest
    have hother : ∀ y ∈ rest, (⟨y.2, ip⟩ : Pathway) ≠ ⟨x.2, ip⟩ := by
      intro y hy heq
      apply hnodup.1
      have htarget : y.2 = x.2 := congrArg Pathway.target heq
      rw [← htarget]
      exact List.mem_map_of_mem hy
    refine ⟨i₁, h₂.trans i₂, fun q hq k => ?_, fun y hy => ?_⟩
    · rw [i₃ q (fun y hy => hq y (List.mem_cons_of_mem _ hy)), h₃ q (hq x List.mem_cons_self)]
    · rcases List.mem_cons.mp hy with rfl | hy
      · refine ⟨ts, hts.imp fun t q hq => i₂.pattern _ t q trivial hq, fun k => ?_⟩
        rw [i₃ _ fun z hz heq => hother z hz heq.symm]
        exact htarget k
      · obtain ⟨us, hus, htarget'⟩ := i₄ y hy
        exact ⟨us, hus, fun k => by rw [htarget', h₃ _ (hother y hy)]⟩

/-! ## Shared tokens -/

/-- Every layer gives every token the pattern it had. -/
structure Settled (n later : Network α) : Prop where
  grows : n.Grows later
  pattern : ∀ l t, (later.layer l).pattern? t = (n.layer l).pattern? t

theorem Settled.refl (n : Network α) : Settled n n := ⟨.refl n, fun _ _ => rfl⟩

theorem Settled.trans {a b c : Network α} (h : Settled a b) (h' : Settled b c) : Settled a c :=
  ⟨h.grows.trans h'.grows, fun l t => (h'.pattern l t).trans (h.pattern l t)⟩

/-- Encoding what is known settles nothing new. -/
theorem settled_of_encoded {n later : Network α} {l : LayerId} {tokens : List String} {columns : Columns α}
    (h : n.Encoded l tokens columns later) (hknown : ∀ t ∈ tokens, (n.layer l).knows t = true) : Settled n later := by
  refine ⟨h.grows, fun other t => ?_⟩
  cases hp : (n.layer other).pattern? t with
  | some p => exact h.grows.pattern other t p trivial hp
  | none =>
    have hnew : ¬ (n.layer other).knows t = true := by
      show ¬ ((n.layer other).pattern? t).isSome = true
      rw [hp]
      simp
    have hlater : ¬ (later.layer other).knows t = true := by
      rw [h.knows]
      rintro (hk | ⟨rfl, ht⟩)
      · exact hnew hk
      · exact hnew (hknown t ht)
    exact Option.not_isSome_iff_eq_none.mp hlater

/-- A pathway is told to recall every token that both of its layers know, unless another token has
the pattern that is to lead to it. -/
def HoldsShared (n : Network α) (m : PairMap α) (p : Pathway) : Prop :=
  ∀ t x y, (n.layer p.source).pattern? t = some x → (n.layer p.target).pattern? t = some y →
    (∀ t' x', (n.layer p.source).pattern? t' = some x' → Pairs.samePattern x' x = true → t' = t) →
      m.target? p x = some y

theorem HoldsShared.of_settled {n later : Network α} {m m' : PairMap α} {p : Pathway} (h : HoldsShared n m p)
    (hn : Settled n later) (hm : ∀ k, m'.target? p k = m.target? p k) : HoldsShared later m' p := by
  intro t x y hx hy huniq
  rw [hm]
  rw [hn.pattern] at hx hy
  exact h t x y hx hy fun t' x' hx' hsame => huniq t' x' (by rw [hn.pattern]; exact hx') hsame

theorem mem_shared {n : Network α} {p : Pathway} {t : String} :
    t ∈ shared n p ↔ (n.layer p.source).knows t = true ∧ (n.layer p.target).knows t = true := by
  rw [shared, List.mem_filter]
  exact and_congr_left' (CodeBook.mem_tokens_iff _ _)

theorem does_learnShared [SameLaws α] {s later : Session α} (hs : s.Good) {p : Pathway}
    (hsource : p.source.position < s.network.layers.size) (htarget : p.target.position < s.network.layers.size)
    {u : Unit} (h : Does (learnShared p) s u later) :
    later.Good ∧ Settled s.network later.network ∧
      (∀ q, q ≠ p → ∀ k, later.pairs.target? q k = s.pairs.target? q k) ∧
      HoldsShared later.network later.pairs p := by
  obtain ⟨t, s₁, hget, hrest⟩ := does_bind h
  obtain ⟨rfl, rfl⟩ := does_get hget
  by_cases hempty : (shared s₁.network p).isEmpty = true
  · rw [if_pos hempty] at hrest
    obtain ⟨-, rfl⟩ := does_pure hrest
    refine ⟨hs, .refl _, fun _ _ _ => rfl, fun t x y hx hy _ => ?_⟩
    have hmem : t ∈ shared later.network p := mem_shared.mpr
      ⟨Option.isSome_iff_exists.mpr ⟨x, hx⟩, Option.isSome_iff_exists.mpr ⟨y, hy⟩⟩
    rw [List.isEmpty_iff.mp hempty] at hmem
    cases hmem
  · rw [if_neg hempty] at hrest
    obtain ⟨xs, s₂, hxs, hrest⟩ := does_bind hrest
    obtain ⟨ys, s₃, hys, hlearn⟩ := does_bind hrest
    obtain ⟨hgood₂, henc₂, hsame₂⟩ := does_encode hs hsource hxs
    obtain ⟨hgood₃, henc₃, hsame₃⟩ := does_encode hgood₂ (by rw [henc₂.grows.count]; exact htarget) hys
    obtain ⟨hnet, hadd⟩ := does_learn hlearn
    have hset₂ : Settled s₁.network s₂.network := settled_of_encoded henc₂ fun t ht => (mem_shared.mp ht).1
    have hset₃ : Settled s₂.network s₃.network := settled_of_encoded henc₃ fun t ht => by
      show ((s₂.network.layer p.target).pattern? t).isSome = true
      rw [hset₂.pattern]
      exact (mem_shared.mp ht).2
    have hset : Settled s₁.network later.network := by
      rw [hnet]
      exact hset₂.trans hset₃
    refine ⟨hgood₃.learn ?_ ?_ hlearn, hset, fun q hq k => ?_, fun t x y hx hy huniq => ?_⟩
    · exact henc₂.size_of_mem
    · exact henc₃.size_of_mem
    · rw [PairMap.target?_add hadd, if_neg hq, hsame₃, hsame₂]
    -- every pair of the batch is the two patterns of one token
    have hbatch : ∀ q ∈ xs.patterns.zip ys.patterns, ∃ t', (later.network.layer p.source).pattern? t' = some q.1 ∧
        (later.network.layer p.target).pattern? t' = some q.2 := by
      intro q hq
      obtain ⟨i, hi, rfl⟩ := List.getElem_of_mem hq
      rw [List.length_zip, henc₂.length, henc₃.length] at hi
      have hi' : i < (shared s₁.network p).length := by omega
      have h₁ := henc₂.pattern hi' (by rw [henc₂.length]; exact hi')
      have h₂ := henc₃.pattern hi' (by rw [henc₃.length]; exact hi')
      refine ⟨(shared s₁.network p)[i], ?_, ?_⟩
      · rw [hset.pattern, ← hset₂.pattern, List.getElem_zip]
        exact h₁
      · rw [hnet, List.getElem_zip]
        exact h₂
    have hmem : t ∈ shared s₁.network p := by
      rw [hset.pattern] at hx hy
      exact mem_shared.mpr ⟨Option.isSome_iff_exists.mpr ⟨x, hx⟩, Option.isSome_iff_exists.mpr ⟨y, hy⟩⟩
    rw [PairMap.target?_add hadd, if_pos rfl, Pairs.targetIn_of_forall (y := y), Option.some_or]
    · obtain ⟨i, hi, rfl⟩ := List.getElem_of_mem hmem
      have hi₁ : i < xs.patterns.length := by rw [henc₂.length]; exact hi
      have hi₂ : i < ys.patterns.length := by rw [henc₃.length]; exact hi
      have hfirst := henc₂.pattern hi hi₁
      rw [hset₂.pattern, ← hset.pattern, hx, Option.some_inj] at hfirst
      have hzip : (xs.patterns[i], ys.patterns[i]) ∈ xs.patterns.zip ys.patterns :=
        List.mem_iff_getElem.mpr ⟨i, by rw [List.length_zip]; omega, List.getElem_zip⟩
      refine ⟨_, List.mem_reverse.mpr hzip, ?_⟩
      rw [hfirst]
      exact Pairs.samePattern_refl _
    · intro q hq hsame
      obtain ⟨t', hx', hy'⟩ := hbatch q (List.mem_reverse.mp hq)
      obtain rfl := huniq t' q.1 hx' hsame
      exact Option.some_inj.mp (hy'.symm.trans hy)

theorem does_learnEachShared [SameLaws α] {ps : List Pathway} {s later : Session α} (hs : s.Good)
    (hps : ∀ p ∈ ps, p.source.position < s.network.layers.size ∧ p.target.position < s.network.layers.size)
    {u : Unit} (h : Does (ps.forM learnShared) s u later) :
    later.Good ∧ Settled s.network later.network ∧
      (∀ q, q ∉ ps → ∀ k, later.pairs.target? q k = s.pairs.target? q k) ∧
      ∀ p ∈ ps, HoldsShared later.network later.pairs p := by
  induction ps generalizing s with
  | nil =>
    rw [(does_pure h).2]
    exact ⟨hs, .refl _, fun _ _ _ => rfl, fun p hp => by cases hp⟩
  | cons p rest ih =>
    obtain ⟨v, t, hp, hrest⟩ := does_bind h
    obtain ⟨hsource, htarget⟩ := hps p List.mem_cons_self
    obtain ⟨h₁, h₂, h₃, h₄⟩ := does_learnShared hs hsource htarget hp
    obtain ⟨i₁, i₂, i₃, i₄⟩ := ih h₁ (fun q hq => by rw [h₂.grows.count]; exact hps q (List.mem_cons_of_mem _ hq)) hrest
    refine ⟨i₁, h₂.trans i₂, fun q hq k => ?_, fun q hq => ?_⟩
    · rw [List.mem_cons, not_or] at hq
      rw [i₃ q hq.2, h₃ q hq.1]
    · by_cases hmem : q ∈ rest
      · exact i₄ q hmem
      · rcases List.mem_cons.mp hq with rfl | hq
        · exact h₄.of_settled i₂ (i₃ q hmem)
        · exact absurd hq hmem

omit [Scalar α] in
/-- The data pathways connect layers that are there, and none comes from the instruction pointer. -/
theorem of_mem_dataPathways {n : Network α} (hn : n.Numbered) {p : Pathway} (hp : p ∈ dataPathways n.registers) :
    p.source.position < n.layers.size ∧ p.target.position < n.layers.size ∧ p.source ≠ ip := by
  have hcontrol : ∀ l : LayerId, l.position < controlNames.length → l.position < n.layers.size :=
    fun l hl => Nat.lt_of_lt_of_le hl hn.control
  have hregister : ∀ r ∈ n.registers, r ≠ ip := by
    rintro r hr rfl
    exact absurd (hn.registers ip hr).1 (by decide)
  simp only [dataPathways, List.mem_append, List.mem_flatMap, List.mem_map, List.mem_cons, List.not_mem_nil,
    or_false] at hp
  rcases hp with ⟨r, hr, ⟨r', hr', rfl⟩ | rfl | rfl | rfl⟩ | rfl | rfl
  · exact ⟨(hn.registers r' hr').2, (hn.registers r hr).2, hregister r' hr'⟩
  · exact ⟨hcontrol op2 (by decide), (hn.registers r hr).2, show op2 ≠ ip by decide⟩
  · exact ⟨(hn.registers r hr).2, hcontrol ci (by decide), hregister r hr⟩
  · exact ⟨(hn.registers r hr).2, hcontrol ip (by decide), hregister r hr⟩
  · exact ⟨hcontrol op2 (by decide), hcontrol ci (by decide), by decide⟩
  · exact ⟨hcontrol op1 (by decide), hcontrol ip (by decide), by decide⟩

omit [Scalar α] in
/-- The literals of a program are given to the registers and to the comparison input. -/
theorem of_mem_literalLayers {n : Network α} (hn : n.Numbered) {l : LayerId} (hl : l ∈ ci :: n.registers) :
    l.position < n.layers.size ∧ l ≠ ip := by
  rcases List.mem_cons.mp hl with rfl | hl
  · exact ⟨Nat.lt_of_lt_of_le (by decide) hn.control, by decide⟩
  · refine ⟨(hn.registers l hl).2, ?_⟩
    rintro rfl
    exact absurd (hn.registers ip hl).1 (by decide)

omit [Scalar α] in
/-- The fields of an instruction are loaded into control layers. -/
theorem of_mem_fieldLayers {n : Network α} (hn : n.Numbered) {x : Field × LayerId} (hx : x ∈ fieldLayers) :
    x.2.position < n.layers.size ∧ x.2 ≠ ip := by
  have hall : ∀ x ∈ fieldLayers, x.2.position < controlNames.length ∧ x.2 ≠ ip := by decide
  exact ⟨Nat.lt_of_lt_of_le (hall x hx).1 hn.control, (hall x hx).2⟩

theorem mem_fieldLayers_of_operand {x : Field × LayerId} (hx : x ∈ [(Field.first, op1), (.second, op2)]) : x ∈ fieldLayers :=
  List.mem_cons_of_mem _ hx

/-! ## One program -/

omit [Scalar α] in
/-- The labels of a program under a scope are no entry and no lines, of this or of another one. -/
theorem label_not_mem_pointerTokens {p : Program} {name scope : String} {lines : Nat} (hname : isProgramName name = true)
    {l : String × Nat} (hl : l ∈ (p.withScope scope).labels) : l.1 ∉ pointerTokens name lines := by
  rw [Program.labels_withScope, List.mem_map] at hl
  obtain ⟨q, -, rfl⟩ := hl
  intro hmem
  exact labelToken_ne_pointerToken hname hmem scope q.1 rfl

/-- What a session holds of a program, given the patterns of its tokens. -/
structure Taught (s later : Session α) (p : Program) (name : String) (ps : List (Pattern α)) : Prop where
  good : later.Good
  keeps : s.network.Keeps (fun l t => ¬ (l = ip ∧ t ∈ p.labels.map (·.1))) later.network
  pointers : List.Forall₂ (fun t q => (later.network.layer ip).pattern? t = some q) (pointerTokens name p.size) ps
  labels : ∀ l ∈ p.labels, (later.network.layer ip).pattern? l.1 = some (ps.getD l.2 #[])
  next : ∀ k, later.pairs.target? ⟨ip, ip⟩ k =
    (Pairs.targetIn ((ps.take p.size).zip (ps.drop 1)).reverse k).or (s.pairs.target? ⟨ip, ip⟩ k)
  fields : ∀ f layer, (f, layer) ∈ fieldLayers → ∃ ts,
    List.Forall₂ (fun t q => (later.network.layer layer).pattern? t = some q) (p.instructions.map (·.field f)) ts ∧
      ∀ k, later.pairs.target? ⟨layer, ip⟩ k =
        (Pairs.targetIn ((ps.take p.size).zip ts).reverse k).or (s.pairs.target? ⟨layer, ip⟩ k)
  shared : ∀ q ∈ dataPathways later.network.registers, HoldsShared later.network later.pairs q
  literals : ∀ l ∈ ci :: later.network.registers, ∀ t ∈ p.literals later.network.registerNames,
    (later.network.layer l).knows t = true

theorem does_learnProgram [SameLaws α] {s later : Session α} (hs : s.Good) {p : Program} (hp : p.Labelled) {name : String}
    (hlabels : ∀ l ∈ p.labels, l.1 ∉ pointerTokens name p.size) {orthogonal : Bool} {u : Unit}
    (h : Does (learnProgram p name orthogonal) s u later) : ∃ ps, Taught s later p name ps := by
  obtain ⟨t, s₁, hget, hrest⟩ := does_bind h
  obtain ⟨rfl, rfl⟩ := does_get hget
  -- the tokens of the operands get patterns
  obtain ⟨_, s₂, hliterals, hrest⟩ := does_bind hrest
  have hlayers : ∀ l ∈ ci :: s₁.network.registers, l.position < s₁.network.layers.size :=
    fun l hl => (of_mem_literalLayers hs.numbered hl).1
  obtain ⟨hgood₂, hgrows₂, hpairs₂⟩ := does_encodeEach (l := id) hs hlayers hliterals
  have hknown₂ := knows_encodeEach (l := id) hs hlayers hliterals
  obtain ⟨_, s₃, hoperands, hrest⟩ := does_bind hrest
  obtain ⟨hgood₃, hgrows₃, hpairs₃⟩ := does_encodeEach (l := Prod.snd) (f := fun x => p.fieldTokens x.1) hgood₂
    (fun x hx => (of_mem_fieldLayers hgood₂.numbered (mem_fieldLayers_of_operand hx)).1) hoperands
  -- then those of the lines, which the labels share
  obtain ⟨pointers, s₄, hpointers, hrest⟩ := does_bind hrest
  obtain ⟨hgood₄, henc₄, hpairs₄⟩ := does_encode hgood₃ (hgood₃.position_lt (by decide)) hpointers
  have hlen : pointers.patterns.length = p.size + 1 := by rw [henc₄.length, length_pointerTokens]
  obtain ⟨_, s₅, hbind, hrest⟩ := does_bind hrest
  obtain ⟨hgood₅, hkeeps₅, hpairs₅, hlabels₅⟩ := does_bindLabels hp.nodup_sorted hgood₄ (fun l hl => by
    have hline := hp.inside l (Program.mem_sortedLabels.mp hl)
    have hlt : l.2 < pointers.patterns.length := by omega
    rw [List.getD_eq_getElem _ _ hlt, henc₄.size_of_mem _ (List.getElem_mem hlt), henc₄.height, henc₄.grows.size]) hbind
  -- and the lines follow each other
  obtain ⟨_, s₆, hnext, hrest⟩ := does_bind hrest
  obtain ⟨hnet₆, hadd₆⟩ := does_learn hnext
  have hsized : pointers.Sized := henc₄.size_of_mem
  have hcurrent : Columns.Sized { pointers with patterns := pointers.patterns.take p.size } :=
    fun q hq => hsized q (List.mem_of_mem_take hq)
  have hfollowing : Columns.Sized { pointers with patterns := pointers.patterns.drop 1 } :=
    fun q hq => hsized q (List.mem_of_mem_drop hq)
  have hgood₆ := hgood₅.learn hcurrent hfollowing hnext
  obtain ⟨_, s₇, hfields, hshared⟩ := does_bind hrest
  obtain ⟨hgood₇, hgrows₇, hother₇, hfields₇⟩ := does_learnFields (by decide) hgood₆
    (fun x hx => (of_mem_fieldLayers hgood₆.numbered hx).1) hcurrent hfields
  have hregisters : s₇.network.registers = s₁.network.registers := by
    rw [hgrows₇.registers, hnet₆, hkeeps₅.registers, henc₄.grows.registers, hgrows₃.registers, hgrows₂.registers]
  rw [← hregisters] at hshared
  obtain ⟨hgood₈, hset₈, hother₈, hshared₈⟩ := does_learnEachShared hgood₇
    (fun q hq => ⟨(of_mem_dataPathways hgood₇.numbered hq).1, (of_mem_dataPathways hgood₇.numbered hq).2.1⟩) hshared
  have hfrom : ∀ l, (⟨l, ip⟩ : Pathway) ∉ dataPathways s₇.network.registers :=
    fun l hl => (of_mem_dataPathways hgood₇.numbered hl).2.2 rfl
  have hlater : s₅.network.Grows later.network := by
    have := hgrows₇.trans hset₈.grows
    rwa [hnet₆] at this
  have hpairs : s₅.pairs = s₁.pairs := by rw [hpairs₅, hpairs₄, hpairs₃, hpairs₂]
  -- only the instruction pointer has tokens bound anew
  have hsince : s₂.network.Keeps (fun l _ => l ≠ ip) later.network :=
    ((hgrows₃.trans henc₄.grows).mono fun _ _ _ => trivial).trans
      ((hkeeps₅.mono fun l _ hl h => hl h.1).trans (hlater.mono fun _ _ _ => trivial))
  refine ⟨pointers.patterns, hgood₈, ?_, ?_, fun l hl => ?_, fun k => ?_, fun f layer hf => ?_, ?_, fun l hl t ht => ?_⟩
  · have hbefore := (hgrows₂.trans hgrows₃).trans henc₄.grows
    refine ((hbefore.mono fun _ _ _ => trivial).trans (hkeeps₅.mono ?_)).trans (hlater.mono fun _ _ _ => trivial)
    rintro l t hk ⟨rfl, ht⟩
    refine hk ⟨rfl, ?_⟩
    obtain ⟨q, hq, rfl⟩ := List.mem_map.mp ht
    exact List.mem_map_of_mem (Program.mem_sortedLabels.mp hq)
  · have hkept : ∀ t ∈ pointerTokens name p.size, ¬ (ip = ip ∧ t ∈ p.sortedLabels.map (·.1)) := by
      rintro t ht ⟨-, hmem⟩
      obtain ⟨q, hq, rfl⟩ := List.mem_map.mp hmem
      exact hlabels q (Program.mem_sortedLabels.mp hq) ht
    rw [List.forall₂_iff_get]
    refine ⟨by rw [hlen, length_pointerTokens], fun i h₁ h₂ => ?_⟩
    exact hlater.pattern _ _ _ trivial (hkeeps₅.pattern _ _ _ (hkept _ (List.get_mem _ _)) (henc₄.pattern h₁ h₂))
  · exact hlater.pattern _ _ _ trivial (hlabels₅ l (Program.mem_sortedLabels.mpr hl))
  · rw [hother₈ _ (hfrom ip), hother₇ _ (by decide), PairMap.target?_add hadd₆, if_pos rfl, hpairs]
  · obtain ⟨ts, hts, htarget⟩ := hfields₇ (f, layer) hf
    refine ⟨ts, hts.imp fun t q hq => hset₈.grows.pattern _ t q trivial hq, fun k => ?_⟩
    have hne : (⟨layer, ip⟩ : Pathway) ≠ ⟨ip, ip⟩ :=
      fun heq => (of_mem_fieldLayers hgood₇.numbered hf).2 (congrArg Pathway.target heq)
    rw [hother₈ _ (hfrom layer), htarget, PairMap.target?_add hadd₆, if_neg hne, hpairs]
  · rw [hset₈.grows.registers]
    exact hshared₈
  · rw [hsince.registers, hgrows₂.registers] at hl
    rw [hsince.registerNames, hgrows₂.registerNames] at ht
    exact hsince.knows (of_mem_literalLayers hs.numbered hl).2 (hknown₂ l hl t ht)

end Engram.Session
