/-
  Engram.Proofs.Machine.Checking — calls on a machine with every position and every dimension checked.

  A tick looks up layers, activities and the units of gates by their numbers, multiplies and adds
  arrays, and writes associations into connections; loading and adding programs look up layers and
  put activities in their places. The operations here check each of these and refuse with a breach;
  where nothing is refused they are the operations themselves. A machine that was built has the
  dimensions that they ask for (`Formed`), and keeps them; so no call is ever refused
  (`no_call_breaches`).
-/

import Engram.Proofs.Machine.Shapes

namespace Engram

open LayerId

variable {α : Type}

/-- The value, where the condition is met. -/
def checked {β : Type} (p : Prop) [Decidable p] (b : β) : Except Breach β := if p then .ok b else .error .dimensions

theorem checked_of {β : Type} {p : Prop} [Decidable p] (hp : p) (b : β) : checked p b = .ok b := if_pos hp

/-- Steps of which none is refused, from what each of them keeps. -/
theorem foldlM_ok {β γ : Type} {I : β → Prop} {f? : β → γ → Except Breach β} {f : β → γ → β} {l : List γ}
    (h : ∀ b, I b → ∀ x ∈ l, f? b x = .ok (f b x) ∧ I (f b x)) {b : β} (hb : I b) : l.foldlM f? b = .ok (l.foldl f b) := by
  induction l generalizing b with
  | nil => rfl
  | cons x rest ih =>
    obtain ⟨heq, hkept⟩ := h b hb x List.mem_cons_self
    rw [List.foldlM_cons, heq]
    exact ih (fun c hc y hy => h c hc y (List.mem_cons_of_mem _ hy)) hkept

theorem mapM_ok {β γ : Type} {f? : β → Except Breach γ} {f : β → γ} {l : List β} (h : ∀ x ∈ l, f? x = .ok (f x)) :
    l.mapM f? = .ok (l.map f) := by
  induction l with
  | nil => rfl
  | cons x rest ih =>
    rw [List.mapM_cons, h x List.mem_cons_self, ih fun y hy => h y (List.mem_cons_of_mem _ hy)]
    rfl

variable [Scalar α]

/-! ## Operations that check -/

/-- `add`, for patterns of one size. -/
def Pattern.add? (x y : Pattern α) : Except Breach (Pattern α) := checked (x.size = y.size) (x.add y)

/-- `drive`, for an input as wide as the weights, and with a bias for each row. -/
def Connection.drive? (c : Connection α) (x : Pattern α) : Except Breach (Pattern α) :=
  checked (x.size = c.weights.width ∧ c.bias.size = c.weights.height) (c.drive x)

/-- `write`, for an association that fits what is written. -/
def Plasticity.write? (r : Plasticity α) (rule : Rule) (c : Connection α) (x y : Pattern α) (source target : Activator α) :
    Except Breach (Flash α) :=
  match r with
  | .store => checked (Association.fits c (.single x) (.single y)) (r.write rule c x y source target)
  | .dipole on off =>
    let cleared : Connection α := ⟨.zero c.weights.height c.weights.width, off.map target.inverse⟩
    checked (Association.fits cleared (.single x) (.single on)) (r.write rule c x y source target)

/-- An association of patterns of the sizes that are joined can be written. -/
theorem Plasticity.Fits.write?_eq {r : Plasticity α} {height width : Nat} (hr : r.Fits height) {rule : Rule} {w : Connection α}
    (hw : w.Spans height width) {x y : Pattern α} (hx : x.size = width) (hy : y.size = height) (source target : Activator α) :
    r.write? rule w x y source target = .ok (r.write rule w x y source target) := by
  cases r with
  | store =>
    refine checked_of ?_ _
    simp [Association.fits, Columns.single, Columns.count, hw.rows, hw.columns, hw.bias, hx, hy]
  | dipole on off =>
    have hr : on.size = height ∧ off.size = height := hr
    refine checked_of ?_ _
    simp [Association.fits, Columns.single, Columns.count, hw.rows, hw.columns, hx, hr.1, hr.2]

namespace Machine

/-- The layer is there, and has an activity. -/
def Has (m : Machine α) (l : LayerId) : Prop := l.position < m.network.layers.size ∧ l.position < m.activity.size

instance (m : Machine α) (l : LayerId) : Decidable (m.Has l) := inferInstanceAs (Decidable (_ ∧ _))

def active? (m : Machine α) (l : LayerId) : Except Breach (Pattern α) := checked (m.Has l) (m.active l)

/-- Whether the control layer holds a state. -/
def controls? (m : Machine α) (state : String) : Except Breach Bool := do
  let p ← m.active? gh
  return (m.network.layer gh).decode p == state

/-- Whether a gate is open: the gate has a unit, and the gate layer has that unit. -/
def isOpen? (m : Machine α) (g : Gate) : Except Breach Bool := do
  let p ← m.active? go
  match m.network.gates.unit? g with
  | some u => checked (u < p.size) ((m.network.activator go).isOn (p.entry u))
  | none => .error .dimensions

/-- What a layer takes up, with one flow more. -/
def carry (m : Machine α) (sum : Pattern α) (p : Pathway) : Pattern α :=
  match m.weights[p]? with
  | some c => sum.add (c.drive (m.active p.source))
  | none => sum

/-- `carry`, if the gate of the flow is open. -/
def carry? (m : Machine α) (sum : Pattern α) (p : Pathway) : Except Breach (Pattern α) := do
  if ← m.isOpen? (.copy p.target p.source) then
    match m.weights[p]? with
    | some c =>
      let x ← m.active? p.source
      let carried ← c.drive? x
      sum.add? carried
    | none => return sum
  else return sum

def next? (m : Machine α) (l : LayerId) : Except Breach (Pattern α) := do
  let held ← m.active? l
  let own := if ← m.isOpen? (.decay l) then Pattern.zero (m.network.size l) else held.map (m.network.activator l).recurrent
  let input ← (m.network.flows.filter (·.target == l)).foldlM m.carry? own
  return input.map (m.network.activator l).squash

def learnPathway? (m : Machine α) (w : Weights α) (p : Pathway) : Except Breach (Weights α) := do
  if ← m.isOpen? (.learn p.target p.source) then
    match m.plasticity[p]?, w[p]? with
    | some r, some c =>
      let x ← m.active? p.source
      let y ← m.active? p.target
      let f ← r.write? m.network.rule c x y (m.network.activator p.source) (m.network.activator p.target)
      return w.insert p f.connection
    | _, _ => return w
  else return w

/-- `tick`, with the checks. -/
def tick? (m : Machine α) : Except Breach (Machine α) := do
  let next ← m.network.layerIds.mapM m.next?
  let weights ← m.network.plastic.foldlM m.learnPathway? m.weights
  return { m with weights, activity := next.toArray, ticks := m.ticks + 1 }

def stepFrom? (m : Machine α) (done : Nat) : Nat → Except Breach (StepOutcome × Machine α)
  | 0 => do
    let _ ← m.active? gh
    return (.stalled done, m)
  | budget + 1 => do
    let m ← m.tick?
    if ← m.controls? "exit" then return (.exited (done + 1), m)
    else if ← m.controls? "start" then return (.completed (done + 1), m)
    else m.stepFrom? (done + 1) budget

def runFrom? (m : Machine α) (done : Nat) : Nat → Except Breach (RunOutcome × Machine α)
  | 0 => return (.stepLimit done, m)
  | budget + 1 => do
    let (outcome, m) ← m.stepFrom? 0 m.config.maxTicks
    match outcome with
    | .exited _ => return (.exited (done + 1), m)
    | .stalled _ => return (.stalled (done + 1), m)
    | .completed _ => m.runFrom? (done + 1) budget

/-- `run`, with the checks. -/
def run? (m : Machine α) (maxSteps : Nat) : Except Breach (RunOutcome × Machine α) := do
  if ← m.controls? "exit" then return (.exited 0, m) else m.runFrom? 0 maxSteps

def setActive? (m : Machine α) (l : LayerId) (p : Pattern α) : Except Breach (Machine α) := checked (m.Has l) (m.setActive l p)

def hold? (m : Machine α) (l : LayerId) (token : String) : Except Breach (Machine α) := checked (m.Has l) (m.hold l token)

def rewind? (m : Machine α) (entry : Pattern α) : Except Breach (Machine α) := do
  let m ← checked (m.activity.size = m.network.layers.size) { m with activity := blank m.network }
  let m ← m.setActive? gh m.automaton.start.hidden
  let m ← m.setActive? go m.automaton.start.gates
  let m ← m.setActive? ip entry
  let m ← m.hold? co falseToken
  Pointer.layers.foldlM (fun m l => m.hold? l (Pointer.slotToken 0)) m

def holdRegisters? (m : Machine α) : List (String × String) → Except Breach (Except (Fault α) Unit × Machine α)
  | [] => .ok (.ok (), m)
  | (register, token) :: rest =>
    match m.network.id? register with
    | some l =>
      if m.network.registers.contains l then do
        let m ← m.hold? l token
        m.holdRegisters? rest
      else .ok (.error (.unknownLayer register), m)
    | none => .ok (.error (.unknownLayer register), m)

/-- `load`, with the checks. -/
def load? (m : Machine α) (program : String) (registers : List (String × String)) :
    Except Breach (Except (Fault α) Unit × Machine α) := do
  let _ ← m.active? ip
  match m.entry? program with
  | none => return (.error (.unknownProgram program), m)
  | some entry =>
    let m ← m.rewind? entry
    let (r, m) ← m.holdRegisters? registers
    match r with
    | .error e => return (.error e, m)
    | .ok () =>
      let weights ← checked (∀ x ∈ m.plasticity.toList, m.Has x.1.source ∧ m.Has x.1.target)
        (m.network.resetPlastic m.plasticity m.weights)
      return (.ok (), { m with weights, ticks := 0 })

/-- `assemble`, with the checks of the session. -/
def assemble? (m : Machine α) (source name : String) : Except Breach (Except (Fault α) Nat × Machine α) :=
  match Program.parse m.network.registerNames source with
  | .error e => .ok (.error (.program e), m)
  | .ok program =>
    match ((Session.assemble? program name m.config.orthogonal false).run.run m.session).value with
    | (.error (.breach b), _) => .error b
    | (.error e, session) => .ok (.error e, { m with session })
    | (.ok a, session) => .ok (.ok a.errors, { m with session, weights := m.weights.extend a.weights })

/-- `setActivity`, with the checks. -/
def setActivity? (m : Machine α) (layer : String) (p : Pattern α) : Except Breach (Except (Fault α) Unit × Machine α) :=
  match m.network.id layer with
  | .error e => .ok (.error e, m)
  | .ok l => do
    let held ← m.active? l
    if p.size = held.size then return (.ok (), m.setActive l p)
    else return (.error (.shapeMismatch [held.size] [p.size]), m)

/-- `move`, with the checks. -/
def move? (m : Machine α) : Motion α → Except Breach (Answer α × Machine α)
  | .tick => do return (.done (.ok ()), ← m.tick?)
  | .step maxTicks => do return (← m.stepFrom? 0 maxTicks).map .stepped id
  | .run maxSteps => do return (← m.run? maxSteps).map .ran id
  | .setActivity layer p => do return (← m.setActivity? layer p).map .done id

/-- `perform`, with the checks. -/
def perform? (m : Machine α) : Operation α → Except Breach (Answer α × Machine α)
  | .assemble source name => do return (← m.assemble? source name).map .assembled id
  | .load program registers => do return (← m.load? program registers).map .done id
  | .move motion => m.move? motion

/-- `performAll`, with the checks. -/
def performAll? (m : Machine α) : List (Operation α) → Except Breach (List (Answer α) × Machine α)
  | [] => return ([], m)
  | o :: rest => do
    let (answer, m) ← m.perform? o
    let (answers, m) ← m.performAll? rest
    return (answer :: answers, m)

/-! ## Nothing is refused -/

omit [Scalar α] in
/-- A name is that of a layer. -/
theorem mem_layerIds_of_id {n : Network α} {name : String} {l : LayerId} (h : n.id name = .ok l) : l ∈ n.layerIds := by
  unfold Network.id Network.id? at h
  cases hfind : n.layers.findIdx? (·.name == name) with
  | none =>
    rw [hfind] at h
    cases h
  | some i =>
    rw [hfind] at h
    cases h
    rw [Array.findIdx?_eq_some_iff_getElem] at hfind
    exact List.mem_map_of_mem (List.mem_range.mpr hfind.1)

namespace Formed

variable {c : Config α} {m : Machine α} (h : m.Formed c)
include h

theorem has {l : LayerId} (hl : l.position < m.network.layers.size) : m.Has l := ⟨hl, by rw [h.shaped.count]; exact hl⟩

theorem has_control {l : LayerId} (hl : l.position < controlNames.length) : m.Has l := h.has (h.founded.position_lt hl)

omit [Scalar α] h in
theorem active?_eq {l : LayerId} (hl : m.Has l) : m.active? l = .ok (m.active l) := checked_of hl _

theorem controls?_eq (state : String) : m.controls? state = .ok (m.holding gh == state) := by
  unfold controls?
  rw [active?_eq (h.has_control (by decide))]
  rfl

/-- Every gate that a machine looks at has a unit of the gate layer. -/
theorem isOpen?_eq {g : Gate} (hg : g ∈ neededGates m.network) : m.isOpen? g = .ok (m.openGates.contains g) := by
  obtain ⟨u, hu⟩ := h.founded.needed g hg
  have hgo : m.Has go := h.has_control (by decide)
  have hsize : (m.active go).size = m.network.gates.size := (h.shaped.activities go hgo.1).trans h.founded.gates
  have hlt : u < (m.active go).size := by
    rw [hsize]
    exact GateMap.lt_of_unit? hu
  unfold isOpen?
  rw [active?_eq hgo]
  show (match m.network.gates.unit? g with
    | some u => checked (u < (m.active go).size) ((m.network.activator go).isOn ((m.active go).entry u))
    | none => .error .dimensions) = _
  rw [hu]
  dsimp only
  rw [checked_of hlt]
  congr 1
  rw [Bool.eq_iff_iff, List.contains_iff_mem, openGates, Network.openGates, GateMap.mem_openGates (by simpa using hsize)]
  have hbit : ((m.network.activator go).bits (m.active go))[u]? = some ((m.network.activator go).isOn ((m.active go).entry u)) := by
    unfold Activator.bits Pattern.entry
    rw [List.getElem?_map, Array.getElem?_toList, Array.getElem?_eq_getElem hlt, Array.getD_eq_getD_getElem?,
      Array.getElem?_eq_getElem hlt]
    rfl
  constructor
  · intro hon
    exact ⟨u, hu, by rw [hbit, hon]⟩
  · rintro ⟨u', hu', hon⟩
    obtain rfl := Option.some.inj (hu.symm.trans hu')
    rw [hbit] at hon
    exact Option.some.inj hon

theorem carry?_eq {p : Pathway} (hp : p ∈ m.network.flows) {sum : Pattern α} (hsum : sum.size = m.network.size p.target) :
    m.carry? sum p = .ok (if m.openGates.contains (.copy p.target p.source) then m.carry sum p else sum) := by
  have hneeded : Gate.copy p.target p.source ∈ neededGates m.network :=
    List.mem_append_left _ (List.mem_append_left _ (List.mem_map_of_mem (f := fun p => Gate.copy p.target p.source) hp))
  have hsource := h.has (h.founded.ready.good.numbered.ends_of_flow hp).1
  unfold carry? carry
  rw [h.isOpen?_eq hneeded]
  show (if m.openGates.contains _ then _ else _) = _
  cases m.openGates.contains (.copy p.target p.source) with
  | false => rfl
  | true =>
    cases hw : m.weights[p]? with
    | none => rfl
    | some w =>
      have hspans := (h.shaped.connections p w hw).2
      have hdrive : w.drive? (m.active p.source) = .ok (w.drive (m.active p.source)) := by
        refine checked_of ⟨?_, ?_⟩ _
        · rw [h.shaped.activities _ hsource.1, hspans.columns]
        · rw [hspans.bias, hspans.rows]
      have hadd : sum.add? (w.drive (m.active p.source)) = .ok (sum.add (w.drive (m.active p.source))) := by
        refine checked_of ?_ _
        rw [hsum, Connection.size_drive hspans.fits, hspans.rows]
      show (m.active? p.source >>= fun x => w.drive? x >>= fun carried => sum.add? carried) = _
      rw [active?_eq hsource]
      show (w.drive? (m.active p.source) >>= fun carried => sum.add? carried) = _
      rw [hdrive]
      exact hadd

theorem next?_eq {l : LayerId} (hl : l ∈ m.network.layerIds) : m.next? l = .ok (m.next m.openGates l) := by
  have hlayer := h.has ((Network.mem_layerIds h.founded.room).mp hl)
  have hneeded : Gate.decay l ∈ neededGates m.network :=
    List.mem_append_left _ (List.mem_append_right _ (List.mem_map_of_mem hl))
  let own : Pattern α := if m.openGates.contains (.decay l) then Pattern.zero (m.network.size l)
    else (m.active l).map (m.network.activator l).recurrent
  have hown : own.size = m.network.size l := by
    dsimp only [own]
    split
    · exact Array.size_replicate
    · exact Array.size_map.trans (h.shaped.activities l hlayer.1)
  let step (sum : Pattern α) (p : Pathway) : Pattern α :=
    if m.openGates.contains (.copy p.target p.source) then m.carry sum p else sum
  have hstep : ∀ sum : Pattern α, sum.size = m.network.size l → ∀ p ∈ m.network.flows.filter (·.target == l),
      m.carry? sum p = .ok (step sum p) ∧ (step sum p).size = m.network.size l := by
    intro sum hsum p hp
    rw [List.mem_filter, beq_iff_eq] at hp
    obtain ⟨hp, rfl⟩ := hp
    refine ⟨h.carry?_eq hp hsum, ?_⟩
    dsimp only [step]
    split
    · unfold carry
      split
      next w hw => exact h.size_add_drive hw hsum _
      next => exact hsum
    · exact hsum
  have hinput : m.input m.openGates l = (m.network.flows.filter (·.target == l)).foldl step own := by
    rw [← List.foldl_filter, List.filter_filter]
    simp only [Bool.and_comm]
    rfl
  unfold next?
  rw [active?_eq hlayer]
  show (m.isOpen? (.decay l) >>= _) = _
  rw [h.isOpen?_eq hneeded]
  show ((m.network.flows.filter (·.target == l)).foldlM m.carry? own >>= _) = _
  rw [foldlM_ok hstep hown, ← hinput]
  rfl

/-- The weights that learning goes on from have their dimensions. -/
theorem learnPathway?_eq {w : Weights α} (hw : w.Placed m.network) {p : Pathway} (hp : p ∈ m.network.plastic) :
    m.learnPathway? w p = .ok (if m.openGates.contains (.learn p.target p.source) then (m.learnPathway w p).value else w) := by
  have hneeded : Gate.learn p.target p.source ∈ neededGates m.network :=
    List.mem_append_right _ (List.mem_map_of_mem (f := fun p => Gate.learn p.target p.source) hp)
  unfold learnPathway?
  rw [h.isOpen?_eq hneeded]
  show (if m.openGates.contains _ then _ else _) = _
  cases m.openGates.contains (.learn p.target p.source) with
  | false => rfl
  | true =>
    show _ = Except.ok (m.learnPathway w p).value
    unfold learnPathway
    cases hr : m.plasticity[p]? with
    | none => rfl
    | some r =>
      cases hc : w[p]? with
      | none => rfl
      | some connection =>
        obtain ⟨⟨hsource, htarget⟩, hfits⟩ := h.founded.plasticity p r hr
        show (m.active? p.source >>= fun x => m.active? p.target >>= fun y => r.write? _ _ x y _ _ >>= _) = _
        rw [active?_eq (h.has hsource)]
        show (m.active? p.target >>= fun y => r.write? _ _ _ y _ _ >>= _) = _
        rw [active?_eq (h.has htarget)]
        show (r.write? _ _ _ _ _ _ >>= _) = _
        rw [hfits.write?_eq (hw p connection hc).2 (h.shaped.activities _ hsource) (h.shaped.activities _ htarget)]
        rfl

theorem tick?_eq : m.tick? = .ok m.tick.value := by
  have hlearn : ∀ w : Weights α, w.Placed m.network → ∀ p ∈ m.network.plastic, m.learnPathway? w p =
      .ok (if m.openGates.contains (.learn p.target p.source) then (m.learnPathway w p).value else w) ∧
      Weights.Placed (if m.openGates.contains (.learn p.target p.source) then (m.learnPathway w p).value else w) m.network := by
    intro w hw p hp
    refine ⟨h.learnPathway?_eq hw hp, ?_⟩
    split
    · exact h.placed_learnPathway hw p
    · exact hw
  have hlearned : (m.learned m.openGates).value = m.network.plastic.foldl
      (fun w p => if m.openGates.contains (.learn p.target p.source) then (m.learnPathway w p).value else w) m.weights := by
    unfold learned
    rw [Noted.value_foldlM, List.foldl_filter]
  unfold tick?
  rw [mapM_ok fun l hl => h.next?_eq hl]
  show (m.network.plastic.foldlM m.learnPathway? m.weights >>= _) = _
  rw [foldlM_ok hlearn h.shaped.connections, ← hlearned]
  rfl

theorem stepFrom?_eq (done budget : Nat) : m.stepFrom? done budget = .ok (m.stepFrom done budget).value := by
  induction budget generalizing m done with
  | zero =>
    unfold stepFrom?
    rw [active?_eq (h.has_control (by decide))]
    rfl
  | succ budget ih =>
    unfold stepFrom? stepFrom
    rw [Noted.value_bind, h.tick?_eq]
    show (m.tick.value.controls? "exit" >>= _) = _
    rw [h.tick.controls?_eq]
    show (if (m.tick.value.holding gh == "exit") then _ else _) = _
    unfold atExit atStart
    split
    · rfl
    · show (m.tick.value.controls? "start" >>= _) = _
      rw [h.tick.controls?_eq]
      show (if (m.tick.value.holding gh == "start") then _ else _) = _
      split
      · rfl
      · exact ih h.tick (done + 1)

theorem runFrom?_eq (done budget : Nat) : m.runFrom? done budget = .ok (m.runFrom done budget).value := by
  induction budget generalizing m done with
  | zero => rfl
  | succ budget ih =>
    have hstep := h.perform (.move (.step m.config.maxTicks))
    unfold runFrom? runFrom
    rw [Noted.value_bind, h.stepFrom?_eq]
    rcases hrun : (m.step m.config.maxTicks).value with ⟨outcome, later⟩
    have hlater : later.Formed c := by
      have heq : (m.perform (.move (.step m.config.maxTicks))).2 = (m.step m.config.maxTicks).value.2 := rfl
      rw [heq, hrun] at hstep
      exact hstep
    rw [show m.stepFrom 0 m.config.maxTicks = m.step m.config.maxTicks from rfl, hrun]
    cases outcome with
    | exited ticks => rfl
    | stalled ticks => rfl
    | completed ticks => exact ih hlater (done + 1)

theorem run?_eq (maxSteps : Nat) : m.run? maxSteps = .ok (m.run maxSteps).value := by
  unfold run? run
  rw [h.controls?_eq]
  show (if (m.holding gh == "exit") then _ else _) = _
  unfold atExit
  split
  · rfl
  · exact h.runFrom?_eq 0 maxSteps

theorem holdAll?_eq {layers : List LayerId} (hlayers : ∀ l ∈ layers, l.position < controlNames.length) (token : String) :
    layers.foldlM (fun m l => m.hold? l token) m = .ok (layers.foldl (fun m l => m.hold l token) m) :=
  foldlM_ok (I := Formed c) (fun _ hm l hl => ⟨checked_of (hm.has_control (hlayers l hl)) _, hm.hold l token⟩) h

theorem rewind?_eq {entry : Pattern α} (hentry : entry.size = m.network.size ip) : m.rewind? entry = .ok (m.rewind entry) := by
  have hlayers : ∀ l ∈ Pointer.layers, l.position < controlNames.length := by decide
  let hidden := { m with activity := blank m.network }.setActive gh m.automaton.start.hidden
  let gates := hidden.setActive go m.automaton.start.gates
  let pointer := gates.setActive ip entry
  have hrest : Formed c { m with activity := blank m.network } := h.rest
  have hhidden : hidden.Formed c := hrest.setActive h.founded.start.1
  have hgates : gates.Formed c := hhidden.setActive h.founded.start.2
  have hpointer : pointer.Formed c := hgates.setActive hentry
  unfold rewind?
  rw [checked_of h.shaped.count]
  show (Machine.setActive? _ gh _ >>= _) = _
  unfold setActive?
  rw [checked_of (hrest.has_control (by decide))]
  show (checked (hidden.Has go) gates >>= _) = _
  rw [checked_of (hhidden.has_control (by decide))]
  show (checked (gates.Has ip) pointer >>= _) = _
  rw [checked_of (hgates.has_control (by decide))]
  show (pointer.hold? co falseToken >>= _) = _
  rw [show pointer.hold? co falseToken = .ok (pointer.hold co falseToken) from checked_of (hpointer.has_control (by decide)) _]
  exact (hpointer.hold co falseToken).holdAll?_eq hlayers _

theorem holdRegisters?_eq (registers : List (String × String)) : m.holdRegisters? registers = .ok (m.holdRegisters registers) := by
  induction registers generalizing m with
  | nil => rfl
  | cons r rest ih =>
    unfold holdRegisters? Machine.holdRegisters
    cases m.network.id? r.1 with
    | none => rfl
    | some l =>
      dsimp only
      split
      next hl =>
        have hlayer : m.Has l := h.has (h.founded.ready.good.numbered.registers l (List.contains_iff_mem.mp hl)).2
        show (m.hold? l r.2 >>= _) = _
        rw [show m.hold? l r.2 = .ok (m.hold l r.2) from checked_of hlayer _]
        exact ih (h.hold l r.2)
      next => rfl

theorem load?_eq (program : String) (registers : List (String × String)) :
    m.load? program registers = .ok (m.load program registers).value := by
  unfold load? Machine.load
  rw [active?_eq (h.has_control (by decide))]
  cases hentry : m.entry? program with
  | none => rfl
  | some entry =>
    have hrewound := h.rewind (h.entry hentry)
    have hheld := hrewound.holdRegisters registers
    show (m.rewind? entry >>= _) = _
    rw [h.rewind?_eq (h.entry hentry)]
    show ((m.rewind entry).holdRegisters? registers >>= _) = _
    rw [hrewound.holdRegisters?_eq]
    dsimp only
    rcases hrun : (m.rewind entry).holdRegisters registers with ⟨e | u, held⟩
    · rfl
    · rw [hrun] at hheld
      have hplastic : ∀ x ∈ held.plasticity.toList, held.Has x.1.source ∧ held.Has x.1.target := by
        rintro ⟨p, r⟩ hx
        obtain ⟨⟨hsource, htarget⟩, -⟩ := hheld.founded.plasticity p r (Std.TreeMap.mem_toList_iff_getElem?_eq_some.mp hx)
        exact ⟨hheld.has hsource, hheld.has htarget⟩
      show (checked (∀ x ∈ held.plasticity.toList, held.Has x.1.source ∧ held.Has x.1.target) _ >>= _) = _
      rw [checked_of hplastic]
      rfl

theorem assemble?_eq (source name : String) : m.assemble? source name = .ok (m.assemble source name).value := by
  unfold assemble? Machine.assemble
  cases hparse : Program.parse m.network.registerNames source with
  | error e => rfl
  | ok program =>
    have hready := h.founded.ready
    have hsize : m.config.orthogonal = true → ∀ l ∈ ip :: Session.operandLayers m.session.network.registers,
        Sylvester.isPowerOfTwo (m.session.network.size l) = true := fun _ l hl => (hready.size l hl).symm ▸ hready.valid
    obtain ⟨hchecked, hbreach⟩ := Session.run_checked hready.good h.founded.learned (Program.labelled_of_parse hparse) name
      hsize false
    dsimp only
    unfold Machine.assembleProgram
    rw [hchecked, Noted.value_bind]
    rcases hrun : ((Session.assemble program name m.config.orthogonal false).run.run m.session).value with ⟨e | a, session⟩
    · rw [hrun] at hbreach
      cases e with
      | breach b => exact (hbreach b rfl).elim
      | _ => rfl
    · rfl

theorem setActivity?_eq (layer : String) (p : Pattern α) : m.setActivity? layer p =
    .ok (match m.setActivity layer p with
      | .ok later => (.ok (), later)
      | .error e => (.error e, m)) := by
  unfold setActivity?
  cases hid : m.network.id layer with
  | error e =>
    rw [setActivity_of_error hid]
  | ok l =>
    have hlayer : m.Has l := h.has ((Network.mem_layerIds h.founded.room).mp (mem_layerIds_of_id hid))
    show (m.active? l >>= _) = _
    rw [active?_eq hlayer, setActivity_of_id hid, ← h.shaped.activities l hlayer.1]
    show (if p.size = (m.active l).size then _ else _) = _
    split
    · rfl
    · rfl

theorem move?_eq (motion : Motion α) : m.move? motion = .ok (m.move motion) := by
  cases motion with
  | tick =>
    show (m.tick? >>= _) = _
    rw [h.tick?_eq]
    rfl
  | step maxTicks =>
    show (m.stepFrom? 0 maxTicks >>= _) = _
    rw [h.stepFrom?_eq]
    rfl
  | run maxSteps =>
    show (m.run? maxSteps >>= _) = _
    rw [h.run?_eq]
    rfl
  | setActivity layer p =>
    show (m.setActivity? layer p >>= _) = _
    rw [h.setActivity?_eq]
    unfold move
    dsimp only
    cases m.setActivity layer p with
    | error e => rfl
    | ok later => rfl

theorem perform?_eq (o : Operation α) : m.perform? o = .ok (m.perform o) := by
  cases o with
  | assemble source name =>
    show (m.assemble? source name >>= _) = _
    rw [h.assemble?_eq]
    rfl
  | load program registers =>
    show (m.load? program registers >>= _) = _
    rw [h.load?_eq]
    rfl
  | move motion => exact h.move?_eq motion

theorem performAll?_eq (operations : List (Operation α)) : m.performAll? operations = .ok (m.performAll operations) := by
  induction operations generalizing m with
  | nil => rfl
  | cons o rest ih =>
    unfold performAll?
    rw [h.perform?_eq]
    show ((m.perform o).2.performAll? rest >>= _) = _
    rw [ih (h.perform o)]
    rfl

end Formed

/-- No reachable call hits a shape or an index out of place. Let a machine be built over as many
registers as there are numbers for. Then any calls one after the other, whether they succeed or fail
and whatever texts, names and patterns they are given, come to the same with every position and
every dimension checked; and they leave a machine in which every connection has a row for each unit
of its target layer, a column for each unit of its source layer and a bias for each row, every
activity has the size of its layer, and the associations of every pathway have the sizes of its
layers. -/
theorem no_call_breaches {c : Config α} {m₀ : Machine α} (hroom : c.registers.length ≤ 65522)
    (hbuild : (build c).value = .ok m₀) (operations : List (Operation α)) :
    m₀.performAll? operations = .ok (m₀.performAll operations) ∧ (m₀.performAll operations).2.Shaped := by
  have h := formed_of_build hbuild hroom
  exact ⟨h.performAll?_eq operations, (h.performAll operations).shaped⟩

/-- Calls on the small machine. -/
theorem small_no_call_breaches : ∃ m₀ : Machine Fixed, smallConfig.registers.length ≤ 65522 ∧ (build smallConfig).value = .ok m₀ ∧
    ∀ operations : List (Operation Fixed),
      m₀.performAll? operations = .ok (m₀.performAll operations) ∧ (m₀.performAll operations).2.Shaped := by
  have hroom : smallConfig.registers.length ≤ 65522 := by decide
  obtain ⟨m₀, hbuild⟩ := exists_small
  exact ⟨m₀, hroom, hbuild, no_call_breaches hroom hbuild⟩

end Machine

end Engram
