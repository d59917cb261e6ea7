/-
  Engram.Proofs.Data.Checking — adding a program with every position and every dimension checked.

  Adding a program looks up layers by their numbers, takes columns out of batches by their
  positions, and writes pathways over batches whose dimensions have to fit. The operations here
  check each of these and refuse with a breach; where nothing is refused they are the operations
  themselves. On a session as they come about no check is ever against it, so that adding a program
  with the checks is adding it (`run_checked`).
-/

import Engram.Proofs.Data.Failing
import Engram.Proofs.Data.Families
import Engram.Proofs.Machine.Later

namespace Engram

open LayerId

/-- Both ends of every pathway with associations are layers. -/
def PairMap.Wired {α : Type} (m : PairMap α) (n : Network α) : Prop :=
  ∀ (p : Pathway) (s : Pairs α), m[p]? = some s → p.source.position < n.layers.size ∧ p.target.position < n.layers.size

namespace Session

variable {α β γ : Type}

/-- Refuses what is not so. -/
def ensure (p : Prop) [Decidable p] : Assembling α Unit := if p then pure () else throw (.breach .dimensions)

/-! ## Operations that check -/

section

variable [Scalar α]

/-- `encode`, for a layer that is there. -/
def encode? (layer : LayerId) (orthogonal : Bool) (tokens : List String) : Assembling α (Columns α) := do
  let s ← get
  ensure (layer.position < s.network.layers.size)
  encode layer orthogonal tokens

/-- `bindLabel`, for a line of which there is a column. -/
def bindLabel? (patterns : Columns α) (label : String × Nat) : Assembling α Unit := do
  let s ← get
  ensure (ip.position < s.network.layers.size ∧ label.2 < patterns.count)
  bindLabel patterns label

/-- `learnShared`, between layers that are there. -/
def learnShared? (p : Pathway) : Assembling α Unit := do
  let s ← get
  ensure (p.source.position < s.network.layers.size ∧ p.target.position < s.network.layers.size)
  learnShared p

/-- Whether a pathway can be written over its associations: its layers are there, every input and
every target has as many entries as the matrix that it becomes a column of, and the dimensions of
the batch fit the connection. -/
def writable (n : Network α) (p : Pathway) (s : Pairs α) : Bool :=
  decide (p.source.position < n.layers.size ∧ p.target.position < n.layers.size) &&
  s.pairs.all (fun (x, y) => x.size == s.sourceSize && y.size == s.targetSize) &&
  Association.fits (Connection.zero s.targetSize s.sourceSize) s.inputs s.targets

/-- `flash`, where every pathway can be written. -/
def flash? (name : String) (verbose : Bool) : Assembling α (Assembly α) := do
  let s ← get
  ensure (∀ x ∈ s.pairs.toList, writable s.network x.1 x.2 = true)
  flash name verbose

/-- `learnProgram`, with the checks. -/
def learnProgram? (program : Program) (name : String) (orthogonal : Bool) : Assembling α Unit := do
  let n := (← get).network
  let literals := program.literals n.registerNames
  (ci :: n.registers).forM fun layer => do
    let _ ← encode? layer orthogonal literals
  [(Field.first, op1), (.second, op2)].forM fun (f, layer) => do
    let _ ← encode? layer orthogonal (program.fieldTokens f)
  let pointers ← encode? ip orthogonal (pointerTokens name program.size)
  program.sortedLabels.forM (bindLabel? pointers)
  ensure (1 ≤ pointers.count ∧ program.size ≤ pointers.count)
  let current := { pointers with patterns := pointers.patterns.take program.size }
  learn ⟨ip, ip⟩ current { pointers with patterns := pointers.patterns.drop 1 }
  fieldLayers.forM fun (f, layer) => do
    let targets ← encode? layer false (program.instructions.map (·.field f))
    learn ⟨layer, ip⟩ current targets
  (dataPathways n.registers).forM learnShared?

/-- `assemble`, with the checks. -/
def assemble? (program : Program) (name : String) (orthogonal verbose : Bool) : Assembling α (Assembly α) := do
  unless isProgramName name do throw (.config (.programName name))
  if program.isEmpty then throw (.config (.emptyProgram name))
  enrol name
  learnProgram? (program.withScope name) name orthogonal
  flash? name verbose

end

/-! ## Operations that agree -/

/-- On a session with the invariant both operations are the same. -/
def Agree (I : Session α → Prop) (x y : Assembling α β) : Prop := ∀ s, I s → x.run.run s = y.run.run s

section

variable {I : Session α → Prop} {Q : β → Prop} {x y : Assembling α β} {f g : β → Assembling α γ}

theorem Agree.refl (x : Assembling α β) : Agree I x x := fun _ _ => rfl

theorem run_throw_bind (e : Fault α) (f : β → Assembling α γ) (s : Session α) :
    (throw e >>= f).run.run s = pure (.error e, s) := rfl

/-- The rest of a composite has to agree on what its first part leaves. -/
theorem run_bind_congr {s : Session α} (hx : x.run.run s = y.run.run s)
    (hf : ∀ b t, (y.run.run s).value = (.ok b, t) → (f b).run.run t = (g b).run.run t) :
    (x >>= f).run.run s = (y >>= g).run.run s := by
  have hbind : ∀ (z : Assembling α β) (h : β → Assembling α γ), (z >>= h).run.run s =
      (z.run.run s >>= fun r => (ExceptT.bindCont h r.1).run r.2) := fun _ _ => rfl
  have hrest : (ExceptT.bindCont f (y.run.run s).value.1).run (y.run.run s).value.2 =
      (ExceptT.bindCont g (y.run.run s).value.1).run (y.run.run s).value.2 := by
    rcases hrun : (y.run.run s).value with ⟨e | b, t⟩
    · rfl
    · exact hf b t hrun
  have hnoted : ∀ {δ ε : Type} (z : Noted δ) (h h' : δ → Noted ε), h z.value = h' z.value → (z >>= h) = (z >>= h') := by
    intro δ ε z h h' heq
    show (⟨(h z.value).value, z.notices ++ (h z.value).notices⟩ : Noted ε) = ⟨(h' z.value).value, z.notices ++ (h' z.value).notices⟩
    rw [heq]
  rw [hbind, hbind, hx]
  exact hnoted _ _ _ hrest

theorem Agree.bind (hx : Agree I x y) (hsecures : Secures I y Q) (hf : ∀ b, Q b → Agree I (f b) (g b)) :
    Agree I (x >>= f) (y >>= g) := by
  intro s hs
  obtain ⟨hlater, hresult⟩ := hsecures s hs
  refine run_bind_congr (hx s hs) fun b t hrun => hf b (hresult b ?_) t ?_
  · rw [hrun]
  · rw [hrun] at hlater
    exact hlater

theorem Agree.forM {l : List γ} {f g : γ → Assembling α Unit} (h : ∀ x ∈ l, Agree I (f x) (g x))
    (hsecures : ∀ x ∈ l, Secures I (g x) fun _ => True) : Agree I (l.forM f) (l.forM g) := by
  induction l with
  | nil => exact .refl _
  | cons x rest ih =>
    refine (h x List.mem_cons_self).bind (hsecures x List.mem_cons_self) fun _ _ => ?_
    exact ih (fun y hy => h y (List.mem_cons_of_mem _ hy)) fun y hy => hsecures y (List.mem_cons_of_mem _ hy)

/-- A check that is never against it can be left out. -/
theorem agree_ensure {c : Session α → Prop} [∀ s, Decidable (c s)] (h : ∀ s, I s → c s) (x : Assembling α β) :
    Agree I (do let s ← get; ensure (c s); x) x := by
  intro s hs
  have hrun : (do let s ← get; ensure (c s); x : Assembling α β).run.run s = (ensure (c s) >>= fun _ => x).run.run s := rfl
  rw [hrun, ensure, if_pos (h s hs)]
  rfl

end

/-! ## Adding a program passes the checks -/

variable [Scalar α] {n : Network α}

/-- The sessions over a network. -/
abbrev Over (n : Network α) (s : Session α) : Prop := Spares n (fun _ => False) s

theorem Over.position_lt {s : Session α} (h : Over n s) {l : LayerId} (hl : l.position < n.layers.size) :
    l.position < s.network.layers.size := by
  rw [h.network.count]
  exact hl

theorem agree_encode {l : LayerId} (hl : l.position < n.layers.size) (orthogonal : Bool) (tokens : List String) :
    Agree (Over n) (encode? l orthogonal tokens) (encode l orthogonal tokens) :=
  agree_ensure (fun _ hs => Over.position_lt hs hl) _

/-- There is a column for every token. -/
theorem count_of_encode {s later : Session α} {l : LayerId} {orthogonal : Bool} {tokens : List String} {columns : Columns α}
    (h : Does (encode l orthogonal tokens) s columns later) : columns.count = tokens.length := by
  have hbook : ∀ (tokens : List String) (b : CodeBook α) (ps : List (Pattern α)),
      (b.encodeAll orthogonal (s.network.layer l).name tokens).1 = .ok ps → ps.length = tokens.length := by
    intro tokens
    induction tokens with
    | nil =>
      intro b ps hps
      cases hps
      rfl
    | cons token rest ih =>
      intro b ps hps
      unfold CodeBook.encodeAll at hps
      rcases hfrom : b.encodeFrom orthogonal (s.network.layer l).name token with ⟨e | p, b₁⟩
      · rw [hfrom] at hps
        cases hps
      rw [hfrom] at hps
      dsimp only at hps
      rcases hcolumn : CodeBook.column b₁.size p with e | p'
      · rw [hcolumn] at hps
        cases hps
      rw [hcolumn] at hps
      dsimp only at hps
      rcases hall : b₁.encodeAll orthogonal (s.network.layer l).name rest with ⟨e | ps', b₂⟩
      · rw [hall] at hps
        cases hps
      · rw [hall] at hps
        cases hps
        rw [List.length_cons, List.length_cons, ih b₁ ps' (by rw [hall])]
  have hvalue := value_encode s l orthogonal tokens
  unfold Does at h
  rw [h] at hvalue
  have hcolumns : (s.network.encodeAll l orthogonal tokens).1 = .ok columns := (Prod.mk.inj hvalue).1.symm
  unfold Network.encodeAll Layer.encodeAll at hcolumns
  rcases hps : (s.network.layer l).book.encodeAll orthogonal (s.network.layer l).name tokens with ⟨e | ps, book⟩
  · rw [hps] at hcolumns
    cases hcolumns
  · rw [hps] at hcolumns
    cases hcolumns
    exact hbook tokens _ ps (by rw [hps])

theorem agree_learnProgram (hn : n.Numbered) {program : Program} (hp : program.Labelled) (name : String) (orthogonal : Bool) :
    Agree (Over n) (learnProgram? program name orthogonal) (learnProgram program name orthogonal) := by
  have havoid : ∀ p ∈ learnedPathways n.registers, ¬ False := fun _ _ h => h
  have hendures := endures_spares hn havoid program name
  have hcontrol : ∀ l : LayerId, l.position < controlNames.length → l.position < n.layers.size :=
    fun l hl => Nat.lt_of_lt_of_le hl hn.control
  have hdiscard {l : LayerId} (hl : l.position < n.layers.size ∧ l ≠ ip) (tokens : List String) :
      Agree (Over n) (do let _ ← encode? l orthogonal tokens) (do let _ ← encode l orthogonal tokens) ∧
        Secures (Over n) (do let _ ← encode l orthogonal tokens) fun _ => True :=
    ⟨(agree_encode hl.1 orthogonal tokens).bind (hendures.secures_encode_of_ne hl.2 orthogonal tokens) fun _ _ => .refl _,
      (hendures.secures_encode_of_ne hl.2 orthogonal tokens).bind fun _ _ => .pure trivial⟩
  refine Agree.bind (.refl _) Secures.get fun s hs => ?_
  -- the operands, on the layers that hold them
  have hfirst : ∀ l ∈ ci :: s.network.registers, l.position < n.layers.size ∧ l ≠ ip :=
    fun l hl => of_mem_literalLayers hn (hs.network.registers ▸ hl)
  refine Agree.bind (.forM (fun l hl => (hdiscard (hfirst l hl) _).1) fun l hl => (hdiscard (hfirst l hl) _).2)
    (.forM fun l hl => (hdiscard (hfirst l hl) _).2) fun _ _ => ?_
  have hsecond : ∀ x ∈ [(Field.first, op1), (.second, op2)], x.2.position < n.layers.size ∧ x.2 ≠ ip :=
    fun x hx => of_mem_fieldLayers hn (mem_fieldLayers_of_operand hx)
  refine Agree.bind (.forM (fun x hx => (hdiscard (hsecond x hx) _).1) fun x hx => (hdiscard (hsecond x hx) _).2)
    (.forM fun x hx => (hdiscard (hsecond x hx) _).2) fun _ _ => ?_
  -- the lines, a column for each and one for the entry
  have hpointers : Secures (Over n) (encode ip orthogonal (pointerTokens name program.size))
      fun pointers => pointers.count = program.size + 1 := by
    intro t ht
    refine ⟨((secures_encode fun t ht => hendures.encode t ht ip _ _ fun _ token htoken => .inl htoken) t ht).1, fun b hb => ?_⟩
    rw [← length_pointerTokens name program.size]
    have hdoes : Does (encode ip orthogonal (pointerTokens name program.size)) t b
        ((encode ip orthogonal (pointerTokens name program.size)).run.run t).value.2 := Prod.ext hb rfl
    exact count_of_encode hdoes
  refine Agree.bind (agree_encode (hcontrol ip (by decide)) _ _) hpointers fun pointers hcount => ?_
  refine Agree.bind (.forM (fun label hlabel => ?_) fun label hlabel => ?_) (.forM fun label hlabel => ?_) fun _ _ => ?_
  · have hline := hp.inside label (Program.mem_sortedLabels.mp hlabel)
    exact agree_ensure (fun _ ht => ⟨Over.position_lt ht (hcontrol ip (by decide)), by omega⟩) _
  · exact .modify fun t ht => hendures.bind t ht label (Program.mem_sortedLabels.mp hlabel) _
  · exact .modify fun t ht => hendures.bind t ht label (Program.mem_sortedLabels.mp hlabel) _
  have hensure : ensure (1 ≤ pointers.count ∧ program.size ≤ pointers.count) = (pure () : Assembling α Unit) :=
    if_pos (by omega)
  rw [hensure, pure_bind]
  refine Agree.bind (.refl _) (secures_learn fun t ht => hendures.learn t ht _ (by simp [learnedPathways]) _ _) fun _ _ => ?_
  -- the fields of the lines, and the tokens that pathways share
  have hfield : ∀ x ∈ fieldLayers, (⟨x.2, ip⟩ : Pathway) ∈ learnedPathways n.registers := fun x hx =>
    List.mem_append_left _ (List.mem_cons_of_mem _ (List.mem_map_of_mem (f := fun x => (⟨x.2, ip⟩ : Pathway)) hx))
  have hsecures : ∀ x ∈ fieldLayers, Secures (Over n) (do
      let targets ← encode x.2 false (program.instructions.map (·.field x.1))
      learn ⟨x.2, ip⟩ { pointers with patterns := pointers.patterns.take program.size } targets) fun _ => True := fun x hx =>
    (hendures.secures_encode_of_ne (of_mem_fieldLayers hn hx).2 _ _).bind fun _ _ =>
      secures_learn fun t ht => hendures.learn t ht _ (hfield x hx) _ _
  refine Agree.bind (.forM (fun x hx => ?_) hsecures) (.forM hsecures) fun _ _ => .forM (fun p hp => ?_) fun p hp => ?_
  · exact (agree_encode (of_mem_fieldLayers hn hx).1 _ _).bind
      (hendures.secures_encode_of_ne (of_mem_fieldLayers hn hx).2 _ _) fun _ _ => .refl _
  · rw [hs.network.registers] at hp
    obtain ⟨hsource, htarget, -⟩ := of_mem_dataPathways hn hp
    exact agree_ensure (fun _ ht => ⟨Over.position_lt ht hsource, Over.position_lt ht htarget⟩) _
  · rw [hs.network.registers] at hp
    exact hendures.secures_learnShared hp

/-- A pathway whose associations have the sizes of its layers can be written. -/
theorem writable_of_sized {s : Session α} (hsized : s.pairs.Sized s.network) (hwired : s.pairs.Wired s.network)
    {p : Pathway} {pairs : Pairs α} (h : s.pairs[p]? = some pairs) : writable s.network p pairs = true := by
  have hall : (pairs.pairs.all fun (x, y) => x.size == pairs.sourceSize && y.size == pairs.targetSize) = true := by
    rw [List.all_eq_true]
    intro pair hpair
    obtain ⟨hinput, htarget⟩ := (hsized p pairs h).1 pair hpair
    simp [hinput, htarget]
  have hfits : Association.fits (Connection.zero pairs.targetSize pairs.sourceSize) pairs.inputs pairs.targets = true := by
    simp [Association.fits, Connection.zero, Pairs.inputs, Pairs.targets, Columns.count, Pattern.zero]
  unfold writable
  rw [decide_eq_true (hwired p pairs h), hall, hfits]
  rfl

/-- Adding a program with the checks is adding it: no layer, no line and no dimension is missed. And
what is answered is no breach. -/
theorem run_checked {s : Session α} (hs : s.Good) (hpairs : ∀ p, p ∉ learnedPathways s.network.registers → s.pairs[p]? = none)
    {program : Program} (hp : program.Labelled) (name : String) {orthogonal : Bool}
    (hsize : orthogonal = true → ∀ l ∈ ip :: operandLayers s.network.registers,
      Sylvester.isPowerOfTwo (s.network.size l) = true) (verbose : Bool) :
    (assemble? program name orthogonal verbose).run.run s = (assemble program name orthogonal verbose).run.run s ∧
      ∀ b, ((assemble program name orthogonal verbose).run.run s).value.1 ≠ .error (.breach b) := by
  have hcases := assemble_cases hs hp name hsize verbose
  constructor
  swap
  · intro b hb
    rcases hcases with ⟨cause, hfails⟩ | ⟨-, learning, -, a, t, hdoes, -⟩ | ⟨-, -, l, needed, later, -, -, hfails⟩
    · cases hb.symm.trans (congrArg Prod.fst hfails)
    · cases hb.symm.trans (congrArg Prod.fst hdoes)
    · cases hb.symm.trans (congrArg Prod.fst hfails)
  unfold assemble? assemble
  by_cases hname : isProgramName name = true
  swap
  · rw [if_neg hname, if_neg hname, run_throw_bind, run_throw_bind]
  rw [if_pos hname, if_pos hname]
  by_cases hempty : program.isEmpty = true
  · rw [if_pos hempty, if_pos hempty, run_throw_bind, run_throw_bind]
  rw [if_neg hempty, if_neg hempty]
  refine run_bind_congr rfl fun u t henrol => ?_
  obtain rfl : t = s.enrolled name := (Prod.mk.inj (henrol.symm.trans (does_enrol_enrolled s name))).2
  have hgood := hs.enrolled name
  have hspares : Spares s.network (· ∉ learnedPathways s.network.registers) (s.enrolled name) := ⟨.refl _, hpairs⟩
  refine run_bind_congr (agree_learnProgram hgood.numbered (hp.withScope name) name orthogonal _ ⟨.refl _, fun _ h => h.elim⟩)
    fun v later hlearn => ?_
  -- what was learned fits, so that every pathway can be written
  have hlater : later.Good := by
    rcases learnProgram_cases hgood (hp.withScope name) (fun l hl => label_ne_of_isProgramName hname hl)
      hsize with ⟨w, other, hdoes, hlater, -⟩ | ⟨-, l, needed, other, -, hfails⟩
    · cases hlearn.symm.trans hdoes
      exact hlater
    · cases hlearn.symm.trans hfails
  have hlearned := ((endures_spares hgood.numbered (fun _ hp hnot => hnot hp) (program.withScope name) name).secures_learnProgram
    orthogonal _ hspares).1
  rw [hlearn] at hlearned
  have hregisters : later.network.registers = s.network.registers := hlearned.network.registers
  have hwired : later.pairs.Wired later.network := by
    intro p pairs hp
    have hmem : p ∈ learnedPathways later.network.registers := by
      by_contra hnot
      have hnone := hlearned.pairs p (hregisters ▸ hnot)
      rw [hp] at hnone
      cases hnone
    exact hlater.numbered.ends_of_flow (Family.flow (f := .program) hmem)
  refine agree_ensure (I := (· = later)) (fun s hs => ?_) _ later rfl
  rintro ⟨p, pairs⟩ hmem
  subst hs
  exact writable_of_sized hlater.sized hwired (Std.TreeMap.mem_toList_iff_getElem?_eq_some.mp hmem)

end Session

end Engram
