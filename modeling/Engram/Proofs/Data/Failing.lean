/-
  Engram.Proofs.Data.Failing — where adding a program can fail, and what it leaves then.

  After the name and the program have passed, tokens are given patterns layer by layer, the
  instruction pointer last. Only this can fail, and only for want of orthogonal patterns
  (`learnProgram_cases`): everything that follows is about tokens that have patterns, and fits the
  layers it is for (`runs_rest`). So a call that fails has stored no association; it leaves the
  session with some tokens that are known now, and the name of the program enrolled.
-/

import Engram.Proofs.Data.Enduring
import Engram.Proofs.Layer.Exhausting

namespace Engram.Session

open LayerId

variable {α β γ : Type}

/-! ## Operations that succeed, and operations that fail -/

/-- The operation fails, and leaves a session. -/
def Fails (x : Assembling α β) (s : Session α) (e : Fault α) (later : Session α) : Prop :=
  (x.run.run s).value = (.error e, later)

/-- The operation succeeds, and its result and what it leaves are as required. -/
def Runs (x : Assembling α β) (s : Session α) (Q : β → Session α → Prop) : Prop := ∃ b later, Does x s b later ∧ Q b later

section

variable {x : Assembling α β} {f : β → Assembling α γ} {s t later : Session α} {b : β} {c : γ} {e : Fault α}
  {Q : β → Session α → Prop}

theorem does_of_bind (hx : Does x s b t) (hf : Does (f b) t c later) : Does (x >>= f) s c later := by
  have hbind : ((x >>= f).run.run s).value =
      ((ExceptT.bindCont f (x.run.run s).value.1).run (x.run.run s).value.2).value := rfl
  unfold Does at *
  rw [hbind, hx]
  exact hf

theorem fails_of_bind (hx : Does x s b t) (hf : Fails (f b) t e later) : Fails (x >>= f) s e later := by
  have hbind : ((x >>= f).run.run s).value =
      ((ExceptT.bindCont f (x.run.run s).value.1).run (x.run.run s).value.2).value := rfl
  unfold Does at hx
  unfold Fails at *
  rw [hbind, hx]
  exact hf

theorem of_fails_bind (h : Fails (x >>= f) s e later) : Fails x s e later ∨ ∃ b t, Does x s b t ∧ Fails (f b) t e later := by
  have hbind : ((x >>= f).run.run s).value =
      ((ExceptT.bindCont f (x.run.run s).value.1).run (x.run.run s).value.2).value := rfl
  unfold Does Fails at *
  rw [hbind] at h
  rcases hx : (x.run.run s).value with ⟨e' | b, t⟩
  · rw [hx] at h
    cases h
    exact .inl rfl
  · rw [hx] at h
    exact .inr ⟨b, t, rfl, h⟩

theorem Fails.bind (hx : Fails x s e later) : Fails (x >>= f) s e later := by
  have hbind : ((x >>= f).run.run s).value =
      ((ExceptT.bindCont f (x.run.run s).value.1).run (x.run.run s).value.2).value := rfl
  unfold Fails at *
  rw [hbind, hx]
  rfl

theorem Runs.bind {R : γ → Session α → Prop} (hx : Runs x s Q) (hf : ∀ b t, Q b t → Runs (f b) t R) :
    Runs (x >>= f) s R := by
  obtain ⟨b, t, hdoes, hq⟩ := hx
  obtain ⟨c, later, hrest, hr⟩ := hf b t hq
  exact ⟨c, later, does_of_bind hdoes hrest, hr⟩

theorem Runs.mono {Q' : β → Session α → Prop} (hx : Runs x s Q) (h : ∀ b t, Q b t → Q' b t) : Runs x s Q' := by
  obtain ⟨b, t, hdoes, hq⟩ := hx
  exact ⟨b, t, hdoes, h b t hq⟩

theorem runs_pure (h : Q b s) : Runs (pure b) s Q := ⟨b, s, rfl, h⟩

theorem runs_get_bind {f : Session α → Assembling α γ} {R : γ → Session α → Prop} (h : Runs (f s) s R) :
    Runs (get >>= f) s R := by
  obtain ⟨c, later, hdoes, hr⟩ := h
  exact ⟨c, later, does_of_bind (t := s) (b := s) rfl hdoes, hr⟩

theorem runs_forM {I : Session α → Prop} {l : List γ} {f : γ → Assembling α Unit}
    (h : ∀ x ∈ l, ∀ t, I t → Runs (f x) t fun _ t' => I t') (hs : I s) : Runs (l.forM f) s fun _ t => I t := by
  induction l generalizing s with
  | nil => exact runs_pure hs
  | cons x rest ih =>
    exact (h x List.mem_cons_self s hs).bind fun _ t ht => ih (fun y hy => h y (List.mem_cons_of_mem _ hy)) ht

end

variable [Scalar α]

/-! ## Giving patterns to tokens -/

section

variable {s later : Session α} {l : LayerId} {orthogonal : Bool} {tokens : List String}

theorem value_encode (s : Session α) (l : LayerId) (orthogonal : Bool) (tokens : List String) :
    ((encode l orthogonal tokens).run.run s).value = ((s.network.encodeAll l orthogonal tokens).1,
      { s with network := (s.network.encodeAll l orthogonal tokens).2 }) := by
  have hrun : ((encode l orthogonal tokens).run.run s).value =
      (((liftM (s.network.encodeAll l orthogonal tokens).1 : Assembling α (Columns α)).run.run
        { s with network := (s.network.encodeAll l orthogonal tokens).2 })).value := rfl
  rw [hrun]
  cases (s.network.encodeAll l orthogonal tokens).1 with
  | error e => rfl
  | ok columns => rfl

theorem Good.of_encodeAll (hs : s.Good) (l : LayerId) (orthogonal : Bool) (tokens : List String) :
    Good { s with network := (s.network.encodeAll l orthogonal tokens).2 } :=
  have hgrows := s.network.grows_encodeAll l orthogonal tokens
  ⟨hs.sound.encodeAll l orthogonal tokens, hgrows.numbered hs.numbered, sized_of_keeps hs.sized hgrows⟩

/-- What is left of a session in which not all tokens of a layer could be given patterns. -/
structure Stuck (s : Session α) (l : LayerId) (tokens : List String) (later : Session α) : Prop where
  good : later.Good
  session : later = { s with network := later.network }
  grows : s.network.Grows later.network
  others : ∀ other, other ≠ l → later.network.layer other = s.network.layer other
  exhausts : (s.network.layer l).book.Exhausts tokens (later.network.layer l).book

/-- Tokens are given patterns, unless there are not orthogonal ones enough. -/
theorem encode_cases (orthogonal : Bool) (hs : s.Good) (hl : l.position < s.network.layers.size)
    (hsize : orthogonal = true → Sylvester.isPowerOfTwo (s.network.size l) = true) (tokens : List String) :
    Runs (encode l orthogonal tokens) s (fun columns t =>
      t.Good ∧ s.network.Encoded l tokens columns t.network ∧ t = { s with network := t.network } ∧
        ∀ other, other ≠ l → t.network.layer other = s.network.layer other) ∨
    (orthogonal = true ∧ ∃ needed later, Stuck s l tokens later ∧
      Fails (encode l orthogonal tokens) s (.exhausted (s.network.name l) needed (s.network.size l)) later) := by
  have hvalue := value_encode s l orthogonal tokens
  have hgood := hs.of_encodeAll l orthogonal tokens
  have hgrows := s.network.grows_encodeAll l orthogonal tokens
  have hothers : ∀ other, other ≠ l → (s.network.encodeAll l orthogonal tokens).2.layer other = s.network.layer other :=
    fun other hne => s.network.layer_encodeAll_of_ne hne orthogonal tokens
  rcases hall : s.network.encodeAll l orthogonal tokens with ⟨e | columns, network⟩
  · rw [hall] at hvalue hgood hgrows hothers
    unfold Network.encodeAll Layer.encodeAll at hall
    rcases hbook : (s.network.layer l).book.encodeAll orthogonal (s.network.layer l).name tokens with ⟨e' | ps, book⟩
    · rw [hbook] at hall
      cases hall
      obtain ⟨horthogonal, ⟨needed, rfl⟩, hexhausts⟩ := CodeBook.exhausts_of_encodeAll (hs.sound l) hsize hbook
      refine .inr ⟨horthogonal, needed, _, ⟨hgood, rfl, hgrows, hothers, ?_⟩, hvalue⟩
      rw [Network.layer_modifyLayer, if_pos ⟨rfl, hl⟩]
      exact hexhausts
    · rw [hbook] at hall
      cases hall
  · rw [hall] at hvalue hgood hothers
    exact .inl ⟨columns, _, hvalue, hgood, Network.encodeAll_spec hs.sound hl orthogonal tokens hall, rfl, hothers⟩

/-- Random patterns do not run out. -/
theorem runs_encode (hs : s.Good) (hl : l.position < s.network.layers.size) (tokens : List String) :
    Runs (encode l false tokens) s fun columns t =>
      t.Good ∧ s.network.Encoded l tokens columns t.network ∧ t = { s with network := t.network } := by
  rcases encode_cases false hs hl (fun h => by cases h) tokens with hruns | ⟨h, -⟩
  · exact hruns.mono fun _ _ ht => ⟨ht.1, ht.2.1, ht.2.2.1⟩
  · cases h

/-- A session after tokens of other layers than the instruction pointer were given patterns. -/
structure Primed (s t : Session α) : Prop where
  good : t.Good
  session : t = { s with network := t.network }
  grows : s.network.Grows t.network
  pointer : t.network.layer ip = s.network.layer ip

theorem Primed.trans {s t later : Session α} (h : Primed s t) (h' : Primed t later) : Primed s later :=
  ⟨h'.good, h'.session.trans (by rw [h.session]), h.grows.trans h'.grows, h'.pointer.trans h.pointer⟩

/-- Giving patterns to tokens of several layers other than the instruction pointer. -/
theorem encodeEach_cases (orthogonal : Bool) (layers : List γ) {l : γ → LayerId} {f : γ → List String} (hs : s.Good)
    (hl : ∀ x ∈ layers, (l x).position < s.network.layers.size ∧ l x ≠ ip)
    (hsize : orthogonal = true → ∀ x ∈ layers, Sylvester.isPowerOfTwo (s.network.size (l x)) = true) :
    Runs (layers.forM fun x => do let _ ← encode (l x) orthogonal (f x)) s (fun _ t => Primed s t) ∨
    (orthogonal = true ∧ ∃ x ∈ layers, ∃ needed later, Primed s later ∧
      Fails (layers.forM fun x => do let _ ← encode (l x) orthogonal (f x)) s
        (.exhausted (s.network.name (l x)) needed (s.network.size (l x))) later) := by
  induction layers generalizing s with
  | nil => exact .inl (runs_pure ⟨hs, rfl, .refl _, rfl⟩)
  | cons x rest ih =>
    obtain ⟨hposition, hne⟩ := hl x List.mem_cons_self
    rcases encode_cases orthogonal hs hposition (fun h => hsize h x List.mem_cons_self) (f x) with hruns | ⟨ho, needed, later, hstuck, hfails⟩
    · obtain ⟨columns, t, hdoes, hgood, hencoded, hsession, hothers⟩ := hruns
      have hprimed : Primed s t := ⟨hgood, hsession, hencoded.grows, hothers ip hne.symm⟩
      have hfirst : Does (do let _ ← encode (l x) orthogonal (f x)) s () t := does_of_bind hdoes rfl
      rcases ih hgood (fun y hy => by rw [hencoded.grows.count]; exact hl y (List.mem_cons_of_mem _ hy))
        (fun h y hy => by rw [hencoded.grows.size]; exact hsize h y (List.mem_cons_of_mem _ hy)) with
        ⟨u, later, hrest, hlater⟩ | ⟨ho, y, hy, needed, later, hlater, hfails⟩
      · exact .inl ⟨u, later, does_of_bind hfirst hrest, hprimed.trans hlater⟩
      · refine .inr ⟨ho, y, List.mem_cons_of_mem _ hy, needed, later, hprimed.trans hlater, ?_⟩
        rw [← hencoded.grows.size, Network.name, ← hencoded.grows.name]
        exact fails_of_bind hfirst hfails
    · exact .inr ⟨ho, x, List.mem_cons_self, needed, later,
        ⟨hstuck.good, hstuck.session, hstuck.grows, hstuck.others ip hne.symm⟩, hfails.bind.bind⟩

end

/-! ## What follows cannot fail -/

section

variable {n : Network α} {s : Session α} {name : String}

theorem runs_learn (hs : s.Good) {p : Pathway} {x y : Columns α} (hx : x.Sized) (hy : y.Sized)
    (hsource : x.height = s.network.size p.source) (htarget : y.height = s.network.size p.target)
    (hcount : x.patterns.length = y.patterns.length) :
    Runs (learn p x y) s fun _ t => t.Good ∧ t.network = s.network := by
  obtain ⟨pairs, hadd, -⟩ := PairMap.exists_add (fun q m hm => (hs.sized q m hm).2) hsource htarget hcount
  have hdoes : Does (learn p x y) s () { s with pairs } := by
    refine does_of_bind (t := s) (b := s) rfl ?_
    rw [hadd]
    rfl
  exact ⟨(), _, hdoes, hs.learn hx hy hdoes, rfl⟩

/-- A session over a later state of a network, in which the entry of the program has the pattern
it had. -/
structure Standing (n : Network α) (name : String) (t : Session α) : Prop where
  good : t.Good
  keeps : n.Keeps (fun l token => l = ip ∧ token = name) t.network

theorem Standing.of_grows (h : Standing n name s) {t : Session α} (ht : t.Good) (hgrows : s.network.Grows t.network) :
    Standing n name t := ⟨ht, h.keeps.trans (hgrows.mono fun _ _ _ => trivial)⟩

theorem Standing.position_lt (h : Standing n name s) {l : LayerId} (hl : l.position < n.layers.size) :
    l.position < s.network.layers.size := by
  rw [h.keeps.count]
  exact hl

theorem runs_bindLabels {columns : Columns α} {labels : List (String × Nat)} (hname : ∀ l ∈ labels, l.1 ≠ name)
    (hsize : ∀ l ∈ labels, (columns.patterns.getD l.2 #[]).size = n.size ip) (hs : Standing n name s) :
    Runs (labels.forM (bindLabel columns)) s fun _ t => Standing n name t := by
  refine runs_forM (fun label hlabel t ht => ?_) hs
  have hkeeps := Network.keeps_bindToken t.network ip label.1 (columns.patterns.getD label.2 #[])
  refine ⟨(), _, rfl, ⟨ht.good.sound.bindToken ip label.1 ?_, hkeeps.numbered ht.good.numbered, sized_of_keeps ht.good.sized hkeeps⟩,
    ht.keeps.trans (hkeeps.mono ?_)⟩
  · rw [hsize label hlabel, ht.keeps.size]
  · rintro l token ⟨-, rfl⟩ ⟨-, heq⟩
    exact hname label hlabel heq.symm

theorem runs_learnField {layer : LayerId} (hlayer : layer.position < n.layers.size) {current : Columns α}
    (hcurrent : current.Sized) (hheight : current.height = n.size ip) {tokens : List String}
    (hcount : current.patterns.length = tokens.length) (hs : Standing n name s) :
    Runs (do let targets ← encode layer false tokens; learn ⟨layer, ip⟩ current targets) s fun _ t => Standing n name t := by
  refine (runs_encode hs.good (hs.position_lt hlayer) tokens).bind fun targets t ht => ?_
  obtain ⟨hgood, hencoded, -⟩ := ht
  have ht := hs.of_grows hgood hencoded.grows
  refine (runs_learn hgood hcurrent hencoded.size_of_mem ?_ ?_ ?_).mono fun _ u hu => ⟨hu.1, by rw [hu.2]; exact ht.keeps⟩
  · rw [hheight, ht.keeps.size]
  · rw [hencoded.height, hencoded.grows.size]
  · rw [hencoded.length, hcount]

theorem runs_learnShared {p : Pathway} (hsource : p.source.position < n.layers.size)
    (htarget : p.target.position < n.layers.size) (hs : Standing n name s) :
    Runs (learnShared p) s fun _ t => Standing n name t := by
  refine runs_get_bind ?_
  dsimp only
  split
  · exact runs_pure hs
  refine (runs_encode hs.good (hs.position_lt hsource) _).bind fun x t ht => ?_
  obtain ⟨hgood₁, hencoded₁, -⟩ := ht
  have ht := hs.of_grows hgood₁ hencoded₁.grows
  refine (runs_encode hgood₁ (ht.position_lt htarget) _).bind fun y u hu => ?_
  obtain ⟨hgood₂, hencoded₂, -⟩ := hu
  have hu := ht.of_grows hgood₂ hencoded₂.grows
  refine (runs_learn hgood₂ hencoded₁.size_of_mem hencoded₂.size_of_mem ?_ ?_ ?_).mono fun _ v hv =>
    ⟨hv.1, by rw [hv.2]; exact hu.keeps⟩
  · rw [hencoded₁.height, hencoded₂.grows.size, hencoded₁.grows.size]
  · rw [hencoded₂.height, hencoded₂.grows.size]
  · rw [hencoded₁.length, hencoded₂.length]

/-- Once the lines of a program have patterns, the rest of it is stored. -/
theorem runs_rest {program : Program} (hp : program.Labelled) (hname : ∀ l ∈ program.labels, l.1 ≠ name)
    {pointers : Columns α} (hpointers : pointers.Sized) (hheight : pointers.height = n.size ip)
    (hlength : pointers.patterns.length = program.size + 1) (hs : Standing n name s) :
    Runs (do
      program.sortedLabels.forM (bindLabel pointers)
      let current := { pointers with patterns := pointers.patterns.take program.size }
      learn ⟨ip, ip⟩ current { pointers with patterns := pointers.patterns.drop 1 }
      fieldLayers.forM fun (f, layer) => do
        let targets ← encode layer false (program.instructions.map (·.field f))
        learn ⟨layer, ip⟩ current targets
      (dataPathways n.registers).forM learnShared) s fun _ t => Standing n name t := by
  have hnumbered : n.Numbered := by
    have h := hs.good.numbered
    refine ⟨by rw [← hs.keeps.count]; exact h.control, fun r hr => ?_⟩
    rw [← hs.keeps.count]
    exact h.registers r (by rw [hs.keeps.registers]; exact hr)
  have hcurrent : Columns.Sized { pointers with patterns := pointers.patterns.take program.size } :=
    fun q hq => hpointers q (List.mem_of_mem_take hq)
  have hfollowing : Columns.Sized { pointers with patterns := pointers.patterns.drop 1 } :=
    fun q hq => hpointers q (List.mem_of_mem_drop hq)
  have hnext : ∀ t, Standing n name t → Runs (learn ⟨ip, ip⟩ { pointers with patterns := pointers.patterns.take program.size }
      { pointers with patterns := pointers.patterns.drop 1 }) t fun _ u => Standing n name u := by
    intro t ht
    have hsize : pointers.height = t.network.size ip := by rw [hheight, ht.keeps.size]
    refine (runs_learn ht.good hcurrent hfollowing hsize hsize ?_).mono fun _ u hu => ⟨hu.1, by rw [hu.2]; exact ht.keeps⟩
    dsimp only
    rw [List.length_take, List.length_drop]
    omega
  refine (runs_bindLabels (fun l hl => hname l (Program.mem_sortedLabels.mp hl)) (fun l hl => ?_) hs).bind fun _ t ht => ?_
  · have hline := hp.inside l (Program.mem_sortedLabels.mp hl)
    have hlt : l.2 < pointers.patterns.length := by omega
    rw [List.getD_eq_getElem _ _ hlt, hpointers _ (List.getElem_mem hlt), hheight]
  refine (hnext t ht).bind fun _ u hu => ?_
  refine Runs.bind (runs_forM (fun x hx t ht => ?_) hu) fun _ v hv => runs_forM (fun p hp t ht => ?_) hv
  · refine runs_learnField (of_mem_fieldLayers hnumbered hx).1 hcurrent hheight ?_ ht
    rw [List.length_take, List.length_map, hlength]
    exact Nat.min_eq_left (Nat.le_succ _)
  · obtain ⟨hsource, htarget, -⟩ := of_mem_dataPathways hnumbered hp
    exact runs_learnShared hsource htarget ht

end

/-! ## A whole program -/

/-- The layers that hold the operands of a program. -/
def operandLayers (registers : List LayerId) : List LayerId := ci :: registers ++ [op1, op2]

/-- What is left of a session when some layer had no orthogonal pattern left for a token of a
program: either that was the instruction pointer, with its tokens of the program, or the
instruction pointer is as it was. -/
structure Halfway (s : Session α) (name : String) (lines : Nat) (l : LayerId) (later : Session α) : Prop where
  good : later.Good
  session : later = { s with network := later.network }
  grows : s.network.Grows later.network
  layer : (l = ip ∧ (s.network.layer ip).book.Exhausts (pointerTokens name lines) (later.network.layer ip).book) ∨
    (l ∈ operandLayers s.network.registers ∧ later.network.layer ip = s.network.layer ip)

theorem Primed.halfway {s t later : Session α} (h : Primed s t) (h' : Primed t later) {l : LayerId}
    (hl : l ∈ operandLayers s.network.registers) (name : String) (lines : Nat) : Halfway s name lines l later :=
  have hlater := h.trans h'
  ⟨hlater.good, hlater.session, hlater.grows, .inr ⟨hl, hlater.pointer⟩⟩

/-- The tokens of a program are given patterns, and the rest is stored, unless some layer has not
enough orthogonal patterns left. -/
theorem learnProgram_cases {s : Session α} (hs : s.Good) {program : Program} (hp : program.Labelled) {name : String}
    (hname : ∀ l ∈ program.labels, l.1 ≠ name) {orthogonal : Bool}
    (hsize : orthogonal = true → ∀ l ∈ ip :: operandLayers s.network.registers,
      Sylvester.isPowerOfTwo (s.network.size l) = true) :
    Runs (learnProgram program name orthogonal) s (fun _ t => t.Good ∧ (t.network.layer ip).knows name = true) ∨
    (orthogonal = true ∧ ∃ l needed later, Halfway s name program.size l later ∧
      Fails (learnProgram program name orthogonal) s (.exhausted (s.network.name l) needed (s.network.size l)) later) := by
  have hget : Does get s s s := rfl
  -- the operands as tokens of the comparison input and the registers
  rcases encodeEach_cases orthogonal (ci :: s.network.registers) (l := id) (f := fun _ => program.literals s.network.registerNames) hs
    (fun l hl => of_mem_literalLayers hs.numbered hl)
    (fun h l hl => hsize h l (List.mem_cons_of_mem _ (List.mem_append_left _ hl))) with
    ⟨u₁, s₁, hdoes₁, h₁⟩ | ⟨ho, l, hl, needed, later, hlater, hfails⟩
  swap
  · exact .inr ⟨ho, l, needed, later, (Primed.mk hs rfl (.refl _) rfl : Primed s s).halfway hlater (List.mem_append_left _ hl) _ _,
      fails_of_bind hget hfails.bind⟩
  -- and of the operand layers
  rcases encodeEach_cases orthogonal [(Field.first, op1), (.second, op2)] (l := Prod.snd)
    (f := fun x => program.fieldTokens x.1) h₁.good
    (fun x hx => of_mem_fieldLayers h₁.good.numbered (mem_fieldLayers_of_operand hx))
    (fun h x hx => by
      rw [h₁.grows.size]
      refine hsize h x.2 (List.mem_cons_of_mem _ (List.mem_append_right _ ?_))
      rcases List.mem_pair.mp hx with rfl | rfl <;> simp) with
    ⟨u₂, s₂, hdoes₂, h₂⟩ | ⟨ho, x, hx, needed, later, hlater, hfails⟩
  swap
  · refine .inr ⟨ho, x.2, needed, later, h₁.halfway hlater (List.mem_append_right _ ?_) _ _, ?_⟩
    · rcases List.mem_pair.mp hx with rfl | rfl <;> simp
    · rw [← h₁.grows.size, Network.name, ← h₁.grows.name]
      exact fails_of_bind hget (fails_of_bind hdoes₁ hfails.bind)
  have hprimed := h₁.trans h₂
  -- then the lines
  rcases encode_cases orthogonal h₂.good (h₂.good.position_lt (l := ip) (by decide))
    (fun h => by rw [hprimed.grows.size]; exact hsize h ip List.mem_cons_self) (pointerTokens name program.size) with
    ⟨pointers, s₃, hdoes₃, hgood₃, hencoded, -, -⟩ | ⟨ho, needed, later, hlater, hfails⟩
  swap
  · refine .inr ⟨ho, ip, needed, later, ⟨hlater.good, ?_, hprimed.grows.trans hlater.grows, .inl ⟨rfl, ?_⟩⟩, ?_⟩
    · rw [hlater.session, hprimed.session]
    · rw [← hprimed.pointer]
      exact hlater.exhausts
    · rw [← hprimed.grows.size, Network.name, ← hprimed.grows.name]
      exact fails_of_bind hget (fails_of_bind hdoes₁ (fails_of_bind hdoes₂ hfails.bind))
  have hregisters : s₃.network.registers = s.network.registers := by
    rw [hencoded.grows.registers, hprimed.grows.registers]
  obtain ⟨u, later, hrest, hlater⟩ := runs_rest (n := s₃.network) hp hname hencoded.size_of_mem
    (by rw [hencoded.height, hencoded.grows.size]) (by rw [hencoded.length, length_pointerTokens])
    (⟨hgood₃, .refl _⟩ : Standing s₃.network name s₃)
  rw [hregisters] at hrest
  refine .inl ⟨u, later, does_of_bind hget (does_of_bind hdoes₁ (does_of_bind hdoes₂ (does_of_bind hdoes₃ hrest))), hlater.good, ?_⟩
  exact hlater.keeps.knows ⟨rfl, rfl⟩ ((hencoded.knows ip name).mpr (.inr ⟨rfl, List.mem_cons_self⟩))

/-! ## A call -/

/-- A session with one more name among its programs. -/
def enrolled (s : Session α) (name : String) : Session α :=
  { s with programs := if s.programs.contains name then s.programs else s.programs ++ [name] }

omit [Scalar α] in
theorem does_enrol_enrolled (s : Session α) (name : String) :
    Does (enrol name) s () (s.enrolled name) := by
  have hrun : (enrol name).run.run s = (if s.programs.contains name then
      liftM (Noted.warn ("program " ++ name ++ " assembled again, earlier pairs are overridden"))
      else set { s with programs := s.programs ++ [name] } : Assembling α Unit).run.run s := rfl
  unfold Does enrolled
  rw [hrun]
  split
  · rfl
  · rfl

theorem Good.enrolled {s : Session α} (hs : s.Good) (name : String) : (s.enrolled name).Good :=
  ⟨hs.sound, hs.numbered, hs.sized⟩

omit [Scalar α] in
theorem mem_enrolled {s : Session α} {name x : String} : x ∈ (s.enrolled name).programs ↔ x ∈ s.programs ∨ x = name := by
  unfold enrolled
  dsimp only
  split
  · next h =>
    refine ⟨.inl, fun hx => hx.elim id ?_⟩
    rintro rfl
    exact List.contains_iff_mem.mp h
  · rw [List.mem_append, List.mem_singleton]

theorem runs_flash (s : Session α) (name : String) (verbose : Bool) : Runs (flash name verbose) s fun _ t => t = s :=
  ⟨_, _, rfl, rfl⟩

/-- The session after a call that is not refused, without the weights that the call writes at its end. -/
def learned? (s : Session α) (program : Program) (name : String) (orthogonal : Bool) : Option (Session α) :=
  match ((learnProgram (program.withScope name) name orthogonal).run.run (s.enrolled name)).value with
  | (.error _, _) => none
  | (.ok _, later) => some later

/-- Whether such a call succeeds, and what it leaves, does not depend on the weights. -/
theorem assemble_learned? (s : Session α) {program : Program} {name : String} (hname : isProgramName name = true)
    (hempty : program.isEmpty = false) (orthogonal verbose : Bool) :
    (s.learned? program name orthogonal = none ∧ ∃ e later, Fails (assemble program name orthogonal verbose) s e later) ∨
    ∃ a later, s.learned? program name orthogonal = some later ∧ Does (assemble program name orthogonal verbose) s a later := by
  have henrol := does_enrol_enrolled s name
  unfold assemble learned?
  rw [if_pos hname, hempty, if_neg Bool.false_ne_true]
  rcases hlearn : ((learnProgram (program.withScope name) name orthogonal).run.run (s.enrolled name)).value with
    ⟨e | u, later⟩
  · have hfails : Fails (learnProgram (program.withScope name) name orthogonal) (s.enrolled name) e later := hlearn
    exact .inl ⟨rfl, e, later, fails_of_bind henrol hfails.bind⟩
  · have hdoes : Does (learnProgram (program.withScope name) name orthogonal) (s.enrolled name) u later := hlearn
    obtain ⟨a, t, hflash, rfl⟩ := runs_flash later name verbose
    exact .inr ⟨a, t, rfl, does_of_bind henrol (does_of_bind hdoes hflash)⟩

/-- No label of a program under its scope is the name of a program. -/
theorem label_ne_of_isProgramName {program : Program} {name token : String} (htoken : isProgramName token = true)
    {l : String × Nat} (hl : l ∈ (program.withScope name).labels) : l.1 ≠ token := by
  rintro rfl
  have hentry : l.1 ∈ pointerTokens l.1 0 := List.mem_cons_self
  exact label_not_mem_pointerTokens htoken hl hentry

/-- What a call that is not refused comes to: it succeeds, and the entry of the program is known;
or it fails for want of orthogonal patterns. -/
theorem assemble_cases_of_valid {s : Session α} (hs : s.Good) {program : Program} (hp : program.Labelled) {name : String}
    (hname : isProgramName name = true) (hempty : ¬ program.isEmpty = true) {orthogonal : Bool}
    (hsize : orthogonal = true → ∀ l ∈ ip :: operandLayers s.network.registers,
      Sylvester.isPowerOfTwo (s.network.size l) = true) (verbose : Bool) :
    (∃ learning, Does (learnProgram (program.withScope name) name orthogonal) (s.enrolled name) () learning ∧
      Runs (assemble program name orthogonal verbose) s fun _ t =>
        t = learning ∧ t.Good ∧ (t.network.layer ip).knows name = true) ∨
    (orthogonal = true ∧ ∃ l needed later,
      Halfway (s.enrolled name) name program.size l later ∧
      Fails (learnProgram (program.withScope name) name orthogonal) (s.enrolled name)
        (.exhausted (s.network.name l) needed (s.network.size l)) later ∧
      Fails (assemble program name orthogonal verbose) s (.exhausted (s.network.name l) needed (s.network.size l)) later) := by
  unfold assemble
  rw [if_pos hname, if_neg hempty]
  have henrol := does_enrol_enrolled s name
  have hcases := learnProgram_cases (hs.enrolled name) (hp.withScope name)
    (fun l hl => label_ne_of_isProgramName hname hl) hsize
  rw [Program.size_withScope] at hcases
  rcases hcases with ⟨u, learning, hdoes, hgood, hknows⟩ | ⟨ho, l, needed, later, hhalfway, hfails⟩
  · obtain ⟨a, t, hflash, rfl⟩ := runs_flash learning name verbose
    exact .inl ⟨t, hdoes, a, t, does_of_bind henrol (does_of_bind hdoes hflash), rfl, hgood, hknows⟩
  · exact .inr ⟨ho, l, needed, later, hhalfway, hfails, fails_of_bind henrol hfails.bind⟩

/-- What a call that adds a program comes to: it is refused and changes nothing; or it succeeds,
and the entry of the program is known; or it fails for want of orthogonal patterns. -/
theorem assemble_cases {s : Session α} (hs : s.Good) {program : Program} (hp : program.Labelled) (name : String)
    {orthogonal : Bool} (hsize : orthogonal = true → ∀ l ∈ ip :: operandLayers s.network.registers,
      Sylvester.isPowerOfTwo (s.network.size l) = true) (verbose : Bool) :
    (∃ cause, Fails (assemble program name orthogonal verbose) s (.config cause) s) ∨
    (isProgramName name = true ∧ ∃ learning, Does (learnProgram (program.withScope name) name orthogonal)
        (s.enrolled name) () learning ∧
      Runs (assemble program name orthogonal verbose) s fun _ t =>
        t = learning ∧ t.Good ∧ (t.network.layer ip).knows name = true) ∨
    (isProgramName name = true ∧ orthogonal = true ∧ ∃ l needed later,
      Halfway (s.enrolled name) name program.size l later ∧
      Fails (learnProgram (program.withScope name) name orthogonal) (s.enrolled name)
        (.exhausted (s.network.name l) needed (s.network.size l)) later ∧
      Fails (assemble program name orthogonal verbose) s (.exhausted (s.network.name l) needed (s.network.size l)) later) := by
  by_cases hname : isProgramName name = true
  swap
  · unfold assemble
    rw [if_neg hname]
    exact .inl ⟨_, rfl⟩
  by_cases hempty : program.isEmpty = true
  · unfold assemble
    rw [if_pos hname, if_pos hempty]
    exact .inl ⟨_, rfl⟩
  rcases assemble_cases_of_valid hs hp hname hempty hsize verbose with hruns | hfails
  · exact .inr (.inl ⟨hname, hruns⟩)
  · exact .inr (.inr ⟨hname, hfails⟩)

/-- A session in which the instruction pointer knows the same names of programs as before, but for
the given one. -/
structure Confined (s : Session α) (name : String) (t : Session α) : Prop where
  keeps : s.network.Keeps (fun _ _ => False) t.network
  names : t.network.layers.map (·.name) = s.network.layers.map (·.name)
  programs : t.programs = s.programs
  knows : ∀ x, isProgramName x = true → x ≠ name →
    ((t.network.layer ip).knows x = true ↔ (s.network.layer ip).knows x = true)

theorem endures_confined {s : Session α} (hn : s.network.Numbered) (program : Program) {name : String}
    (hname : isProgramName name = true) :
    Endures (program.withScope name) name s.network.registers (Confined s name) where
  pointer hip := absurd (hn.registers ip hip).1 (by decide)
  registers t ht := ht.keeps.registers
  encode t ht l orthogonal tokens htokens := by
    have hgrows := t.network.grows_encodeAll l orthogonal tokens
    refine ⟨ht.keeps.trans (hgrows.mono fun _ _ _ => trivial), ?_, ht.programs, fun x hx hne => ?_⟩
    · exact (Network.names_encodeAll _ _ _ _).trans ht.names
    · rw [← ht.knows x hx hne]
      refine ⟨fun h => ?_, hgrows.knows trivial⟩
      rcases t.network.of_knows_encodeAll l orthogonal tokens h with h | ⟨rfl, hmem⟩
      · exact h
      · exact (htokens rfl x hmem).resolve_left fun hpointer => hne (eq_of_isProgramName hname hx hpointer)
  bind t ht l hl p := by
    have hkeeps := Network.keeps_bindToken t.network ip l.1 p
    refine ⟨ht.keeps.trans (hkeeps.mono fun _ _ h => h.elim), ?_, ht.programs, fun x hx hne => ?_⟩
    · exact (Network.names_bindToken _ _ _ _).trans ht.names
    · rw [← ht.knows x hx hne]
      have hlabel := label_ne_of_isProgramName hx hl
      exact ⟨fun h => t.network.of_knows_bindToken ip l.1 p h hlabel.symm, hkeeps.knows fun h => hlabel h.2.symm⟩
  learn t ht _ _ _ _ _ _ := ⟨ht.keeps, ht.names, ht.programs, ht.knows⟩

/-- Adding a program tells the instruction pointer the name of no other one, also when it fails. -/
theorem confined_learnProgram {s : Session α} (hn : s.network.Numbered) (program : Program) {name : String}
    (hname : isProgramName name = true) (orthogonal : Bool) :
    Confined s name ((learnProgram (program.withScope name) name orthogonal).run.run s).value.2 :=
  ((endures_confined hn program hname).secures_learnProgram orthogonal s ⟨.refl _, rfl, rfl, fun _ _ _ => Iff.rfl⟩).1

end Engram.Session
