/-
  Engram.Proofs.Data.Enduring — what adding a program keeps, whether it succeeds or not.

  An operation on a session `Secures` an invariant if it keeps it also when it fails. Adding a
  program takes steps of three kinds: tokens are given patterns, labels are bound, and associations
  of a data pathway are stored. What all of these keep (`Endures`) is kept by the whole
  (`secures_learnProgram`).
-/

import Engram.Proofs.Data.Assembling

namespace Engram

open LayerId

namespace Session

variable {α β γ : Type}

/-! ## Operations that keep an invariant -/

/-- The operation keeps the invariant, also when it fails, and what it returns has the property. -/
def Secures (I : Session α → Prop) (x : Assembling α β) (Q : β → Prop) : Prop :=
  ∀ s, I s → I (x.run.run s).value.2 ∧ ∀ b, (x.run.run s).value.1 = .ok b → Q b

section

variable {I : Session α → Prop} {Q : β → Prop}

theorem Secures.pure {b : β} (h : Q b) : Secures I (pure b) Q := by
  intro s hs
  exact ⟨hs, fun c hc => by cases hc; exact h⟩

theorem Secures.throw (e : Fault α) : Secures I (throw e) Q := by
  intro s hs
  exact ⟨hs, fun c hc => by cases hc⟩

theorem Secures.get : Secures I get I := by
  intro s hs
  exact ⟨hs, fun c hc => by cases hc; exact hs⟩

theorem Secures.set {t : Session α} (h : I t) : Secures I (set t) fun _ => True := by
  intro s _
  exact ⟨h, fun _ _ => trivial⟩

theorem Secures.modify {f : Session α → Session α} (h : ∀ s, I s → I (f s)) :
    Secures I (modify f) fun _ => True := by
  intro s hs
  exact ⟨h s hs, fun _ _ => trivial⟩

theorem Secures.lift {r : Except (Fault α) β} (h : ∀ b, r = .ok b → Q b) : Secures I (liftM r) Q := by
  intro s hs
  cases r with
  | error e => exact ⟨hs, fun c hc => by cases hc⟩
  | ok b => exact ⟨hs, fun c hc => by cases hc; exact h b rfl⟩

theorem Secures.note {x : Noted β} (h : Q x.value) : Secures I (liftM x) Q := by
  intro s hs
  exact ⟨hs, fun c hc => by cases hc; exact h⟩

theorem Secures.bind {R : γ → Prop} {x : Assembling α β} {f : β → Assembling α γ} (hx : Secures I x Q)
    (hf : ∀ b, Q b → Secures I (f b) R) : Secures I (x >>= f) R := by
  intro s hs
  obtain ⟨h₁, h₂⟩ := hx s hs
  have hbind : ((x >>= f).run.run s).value =
      ((ExceptT.bindCont f (x.run.run s).value.1).run (x.run.run s).value.2).value := rfl
  rw [hbind]
  rcases hrun : (x.run.run s).value with ⟨e | b, t⟩
  · rw [hrun] at h₁
    exact ⟨h₁, fun c hc => by cases hc⟩
  · rw [hrun] at h₁ h₂
    exact hf b (h₂ b rfl) t h₁

theorem secures_throw_bind (e : Fault α) (f : γ → Assembling α β) : Secures I (throw e >>= f) Q :=
  (Secures.throw (Q := fun _ => False) e).bind fun _ h => h.elim

theorem Secures.ite {c : Prop} [Decidable c] {x y : Assembling α β} (hx : Secures I x Q) (hy : Secures I y Q) :
    Secures I (if c then x else y) Q := by
  split
  · exact hx
  · exact hy

theorem Secures.forM {l : List γ} {f : γ → Assembling α Unit} (h : ∀ x ∈ l, Secures I (f x) fun _ => True) :
    Secures I (l.forM f) fun _ => True := by
  induction l with
  | nil => exact .pure trivial
  | cons x rest ih =>
    exact (h x List.mem_cons_self).bind fun _ _ => ih fun y hy => h y (List.mem_cons_of_mem _ hy)

end

/-! ## Adding a program -/

variable [Scalar α]

/-- The pathways of which a program stores associations. -/
def learnedPathways (registers : List LayerId) : List Pathway :=
  ⟨ip, ip⟩ :: fieldLayers.map (fun x => ⟨x.2, ip⟩) ++ dataPathways registers

/-- Every step of adding a program keeps the invariant: giving patterns to tokens, of which the
instruction pointer knows those that are not its lines; binding its labels; and storing
associations. -/
structure Endures (program : Program) (name : String) (layers : List LayerId) (I : Session α → Prop) : Prop where
  pointer : ip ∉ layers
  registers : ∀ s, I s → s.network.registers = layers
  encode : ∀ s, I s → ∀ (l : LayerId) (orthogonal : Bool) (tokens : List String),
    (l = ip → ∀ t ∈ tokens, t ∈ pointerTokens name program.size ∨ (s.network.layer ip).knows t = true) →
      I { s with network := (s.network.encodeAll l orthogonal tokens).2 }
  bind : ∀ s, I s → ∀ l ∈ program.labels, ∀ p, I { s with network := s.network.bindToken ip l.1 p }
  learn : ∀ s, I s → ∀ p ∈ learnedPathways layers, ∀ x y pairs, s.pairs.add? s.network p x y = .ok pairs →
    I { s with pairs }

section

variable {I : Session α → Prop} {program : Program} {name : String} {layers : List LayerId}

/-- Giving patterns to tokens keeps what it keeps of the network. -/
theorem secures_encode {l : LayerId} {orthogonal : Bool} {tokens : List String}
    (h : ∀ s, I s → I { s with network := (s.network.encodeAll l orthogonal tokens).2 }) :
    Secures I (encode l orthogonal tokens) fun _ => True :=
  Secures.get.bind fun s hs => (Secures.set (h s hs)).bind fun _ _ => .lift fun _ _ => trivial

theorem secures_learn {p : Pathway} {x y : Columns α}
    (h : ∀ s, I s → ∀ pairs, s.pairs.add? s.network p x y = .ok pairs → I { s with pairs }) :
    Secures I (learn p x y) fun _ => True := by
  refine Secures.get.bind fun s hs => ?_
  cases hadd : s.pairs.add? s.network p x y with
  | error e => exact .throw _
  | ok pairs => exact .set (h s hs pairs hadd)

namespace Endures

variable (h : Endures program name layers I)

include h

theorem secures_encode_of_ne {l : LayerId} (hl : l ≠ ip) (orthogonal : Bool) (tokens : List String) :
    Secures I (Session.encode l orthogonal tokens) fun _ => True :=
  secures_encode fun s hs => h.encode s hs l orthogonal tokens fun heq => (hl heq).elim

theorem secures_learnShared {p : Pathway} (hp : p ∈ dataPathways layers) :
    Secures I (learnShared p) fun _ => True := by
  intro s hs
  -- the tokens to be encoded are known from the start
  let tokens := shared s.network p
  let J := fun t : Session α => I t ∧ ∀ token ∈ tokens,
    (t.network.layer p.source).knows token = true ∧ (t.network.layer p.target).knows token = true
  have hencode : ∀ l, l = p.source ∨ l = p.target → Secures J (Session.encode l false tokens) fun _ => True := by
    refine fun l hl => secures_encode fun t ht => ⟨h.encode t ht.1 l false tokens fun hip token htoken => .inr ?_, fun token htoken => ?_⟩
    · subst hip
      rcases hl with hl | hl
      · rw [hl]; exact (ht.2 token htoken).1
      · rw [hl]; exact (ht.2 token htoken).2
    · have hgrows := t.network.grows_encodeAll l false tokens
      exact ⟨hgrows.knows trivial (ht.2 token htoken).1, hgrows.knows trivial (ht.2 token htoken).2⟩
  have hlearn : ∀ x y, Secures J (Session.learn p x y) fun _ => True := fun x y =>
    secures_learn fun t ht pairs hadd =>
      ⟨h.learn t ht.1 p (List.mem_append_right _ hp) x y pairs hadd, ht.2⟩
  have hrest : Secures J (unless tokens.isEmpty do
      let x ← Session.encode p.source false tokens
      let y ← Session.encode p.target false tokens
      Session.learn p x y) fun _ => True :=
    .ite (.pure trivial) ((hencode _ (.inl rfl)).bind fun x _ => (hencode _ (.inr rfl)).bind fun y _ => hlearn x y)
  have hrun := hrest s ⟨hs, fun token htoken => mem_shared.mp htoken⟩
  exact ⟨hrun.1.1, hrun.2⟩

theorem secures_learnProgram (orthogonal : Bool) :
    Secures I (learnProgram program name orthogonal) fun _ => True := by
  have hcontrol : ci ≠ ip ∧ op1 ≠ ip ∧ op2 ≠ ip ∧ ∀ x ∈ fieldLayers, x.2 ≠ ip := by decide
  refine Secures.get.bind fun s hs => ?_
  refine (Secures.forM fun l hl => (h.secures_encode_of_ne ?_ _ _).bind fun _ _ => .pure trivial).bind fun _ _ => ?_
  · rcases List.mem_cons.mp hl with rfl | hl
    · exact hcontrol.1
    · rintro rfl
      exact h.pointer (h.registers s hs ▸ hl)
  refine (Secures.forM fun x hx => (h.secures_encode_of_ne ?_ _ _).bind fun _ _ => .pure trivial).bind fun _ _ => ?_
  · rcases List.mem_pair.mp hx with rfl | rfl
    · exact hcontrol.2.1
    · exact hcontrol.2.2.1
  refine (secures_encode fun t ht => h.encode t ht ip _ _ fun _ token htoken => .inl htoken).bind fun pointers _ => ?_
  refine (Secures.forM fun l hl => .modify fun t ht => h.bind t ht l (Program.mem_sortedLabels.mp hl) _).bind fun _ _ => ?_
  refine (secures_learn fun t ht => h.learn t ht _ (by simp [learnedPathways]) _ _).bind fun _ _ => ?_
  refine (Secures.forM fun x hx => (h.secures_encode_of_ne (hcontrol.2.2.2 x hx) _ _).bind fun _ _ =>
    secures_learn fun t ht => h.learn t ht _ ?_ _ _).bind fun _ _ => .forM fun p hp => ?_
  · exact List.mem_append_left _ (List.mem_cons_of_mem _ (List.mem_map_of_mem (f := fun x => (⟨x.2, ip⟩ : Pathway)) hx))
  · rw [h.registers s hs] at hp
    exact h.secures_learnShared hp

end Endures

omit [Scalar α] in
theorem secures_enrol (name : String) (h : ∀ s, I s → I { s with programs := s.programs ++ [name] }) :
    Secures I (enrol name) fun _ => True := by
  refine Secures.get.bind fun s hs => ?_
  split
  · exact .note trivial
  · exact .set (h s hs)

/-- Adding a program under a name keeps what its steps keep, whatever comes of it. -/
theorem Endures.secures_assemble (h : Endures (program.withScope name) name layers I)
    (henrol : ∀ s, I s → ∀ programs, I { s with programs }) (orthogonal verbose : Bool) :
    Secures I (assemble program name orthogonal verbose) fun _ => True := by
  unfold assemble
  by_cases hname : isProgramName name = true
  swap
  · rw [if_neg hname]
    exact secures_throw_bind _ _
  rw [if_pos hname]
  by_cases hempty : program.isEmpty = true
  · rw [if_pos hempty]
    exact secures_throw_bind _ _
  rw [if_neg hempty]
  refine (secures_enrol name fun s hs => henrol s hs _).bind fun _ _ => ?_
  refine (h.secures_learnProgram orthogonal).bind fun _ _ => ?_
  refine Secures.get.bind fun _ _ => (Secures.note (Q := fun _ => True) trivial).bind fun _ _ => ?_
  exact (Secures.note (Q := fun _ => True) trivial).bind fun _ _ => .pure trivial

end

end Session

end Engram
