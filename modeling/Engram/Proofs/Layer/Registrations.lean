/-
  Engram.Proofs.Layer.Registrations — what a code book goes by.

  A token is registered when it is encoded first, and whenever it is bound to a pattern. Of the
  registrations of a run, in their order, nothing is lost (`Registered`): the known tokens are those
  that were registered, the pattern of a token is that of its latest registration, and an activity
  decodes to the token of the latest registration with the same bits (`book_of_calls`). Calls that
  fail partway register what they encoded before.

  A registration is not taken back when its token is bound to another pattern. So an activity may
  decode to a token that had these bits and has others now (`represents_or_rebound`); and a token
  that is spelled like the sign for no token cannot be told from none. That is all that keeps
  decoding from being the inverse of the present patterns (`decode_unless_rebound`).
-/

import Engram.Proofs.Exact.Activator
import Engram.Proofs.Layer.Bindings

namespace Engram

theorem eraseDups_concat {β : Type} [BEq β] [LawfulBEq β] [DecidableEq β] (l : List β) (x : β) :
    (l ++ [x]).eraseDups = if x ∈ l then l.eraseDups else l.eraseDups ++ [x] := by
  have hremove : [x].removeAll l = if x ∈ l then [] else [x] := by
    rw [List.removeAll, List.filter_singleton, List.elem_eq_mem]
    by_cases h : x ∈ l
    · simp [h]
    · simp [h]
  rw [List.eraseDups_append, hremove]
  by_cases h : x ∈ l
  · rw [if_pos h, if_pos h, List.eraseDups_nil, List.append_nil]
  · rw [if_neg h, if_neg h]
    rfl

namespace CodeBook

/-- A call on a code book. -/
inductive Call (α : Type) where
  | encode (token : String)
  | encodeAll (orthogonal : Bool) (layer : String) (tokens : List String)
  | bind (token : String) (p : Pattern α)

/-- A token and the pattern that it was bound to. -/
structure Registration (α : Type) where
  token : String
  pattern : Pattern α

section

variable {α : Type}

/-- The latest of some registrations with a property. -/
def latest? (rs : List (Registration α)) (q : Registration α → Bool) : Option (Registration α) := rs.reverse.find? q

theorem latest?_concat (rs : List (Registration α)) (r : Registration α) (q : Registration α → Bool) :
    latest? (rs ++ [r]) q = if q r then some r else latest? rs q := by
  unfold latest?
  rw [List.reverse_append, List.reverse_singleton, List.singleton_append, List.find?_cons]
  cases q r with
  | true => rfl
  | false => rfl

theorem mem_of_latest? {rs : List (Registration α)} {r : Registration α} {q : Registration α → Bool}
    (h : latest? rs q = some r) : r ∈ rs ∧ q r = true :=
  ⟨List.mem_reverse.mp (List.mem_of_find?_eq_some h), List.find?_some h⟩

theorem latest?_eq_none {rs : List (Registration α)} {q : Registration α → Bool} :
    latest? rs q = none ↔ ∀ r ∈ rs, ¬ q r = true := by
  unfold latest?
  rw [List.find?_eq_none]
  exact ⟨fun h r hr => h r (List.mem_reverse.mpr hr), fun h r hr => h r (List.mem_reverse.mp hr)⟩

variable [Scalar α]

/-! ## Calls and what they register -/

/-- The code book after a call, also one that fails. -/
def call (b : CodeBook α) : Call α → CodeBook α
  | .encode token => (b.encode token).2
  | .encodeAll orthogonal layer tokens => (b.encodeAll orthogonal layer tokens).2
  | .bind token p => b.bind token p

def calls (b : CodeBook α) (cs : List (Call α)) : CodeBook α := cs.foldl call b

/-- A token that is encoded is registered if it is new. -/
def encoding (b : CodeBook α) (token : String) (p : Pattern α) : List (Registration α) :=
  if b.knows token then [] else [⟨token, p⟩]

/-- What encoding several tokens registers, up to the first that fails. -/
def encodings (b : CodeBook α) (orthogonal : Bool) (layer : String) : List String → List (Registration α)
  | [] => []
  | token :: rest =>
    match b.encodeFrom orthogonal layer token with
    | (.error _, _) => []
    | (.ok p, later) => b.encoding token p ++
      match column later.size p with
      | .error _ => []
      | .ok _ => later.encodings orthogonal layer rest

/-- What a call registers. -/
def registered (b : CodeBook α) : Call α → List (Registration α)
  | .encode token => b.encoding token (b.encode token).1
  | .encodeAll orthogonal layer tokens => b.encodings orthogonal layer tokens
  | .bind token p => [⟨token, p⟩]

/-- What a run of calls registers, in order. -/
def registrations (b : CodeBook α) : List (Call α) → List (Registration α)
  | [] => []
  | c :: cs => b.registered c ++ (b.call c).registrations cs

/-- A token alone is encoded from random patterns. -/
theorem encodeFrom_false (b : CodeBook α) (layer token : String) :
    b.encodeFrom false layer token = (.ok (b.encode token).1, (b.encode token).2) := by
  unfold encodeFrom encode
  cases b.pattern? token with
  | some p => rfl
  | none => rfl

/-! ## Registrations are all there is -/

/-- What a code book has after some registrations. -/
structure Registered (b : CodeBook α) (rs : List (Registration α)) : Prop where
  tokens : b.tokens = (rs.map (·.token)).eraseDups
  nodup : b.tokens.Nodup
  pattern : ∀ t, b.pattern? t = (latest? rs (·.token == t)).map (·.pattern)
  history : b.history = (rs.map fun r => (b.activator.bits r.pattern, r.token)).reverse

theorem registered_new (size : Nat) (a : Activator α) (seed : UInt64) : (CodeBook.new size a seed).Registered [] :=
  ⟨rfl, List.nodup_nil, fun _ => rfl, rfl⟩

namespace Registered

variable {b : CodeBook α} {rs : List (Registration α)}

/-- What was drawn does not matter. -/
theorem of_draws (h : b.Registered rs) (s : Random.Stream) (f : Option OrthogonalFamily) :
    Registered { b with stream := s, family := f } rs := ⟨h.tokens, h.nodup, h.pattern, h.history⟩

theorem bind (h : b.Registered rs) (token : String) (p : Pattern α) : (b.bind token p).Registered (rs ++ [⟨token, p⟩]) := by
  have htokens : (b.bind token p).tokens = if token ∈ b.tokens then b.tokens else b.tokens ++ [token] :=
    keys_bindKey token p b.bindings
  have hmem : token ∈ b.tokens ↔ token ∈ rs.map (·.token) := by rw [h.tokens, List.mem_eraseDups]
  refine ⟨?_, ?_, fun t => ?_, ?_⟩
  · rw [htokens, List.map_append, List.map_singleton, eraseDups_concat, ← h.tokens]
    exact if_congr hmem rfl rfl
  · rw [htokens]
    split
    · exact h.nodup
    next hnew => exact List.nodup_append.mpr ⟨h.nodup, List.nodup_singleton _, fun t ht u hu => by
        rw [List.mem_singleton.mp hu]
        rintro rfl
        exact hnew ht⟩
  · rw [pattern?_bind, latest?_concat, h.pattern]
    by_cases ht : t = token
    · subst ht
      simp
    · rw [if_neg ht, if_neg (by simpa using fun heq : token = t => ht heq.symm)]
  · show (b.activator.bits p, token) :: b.history = _
    rw [h.history, List.map_append, List.reverse_append]
    rfl

/-- Encoding a token registers it if it is new and gets a pattern. -/
theorem encodeFrom (h : b.Registered rs) (orthogonal : Bool) (layer token : String) :
    (b.encodeFrom orthogonal layer token).2.Registered (rs ++
      match (b.encodeFrom orthogonal layer token).1 with
      | .ok p => b.encoding token p
      | .error _ => []) := by
  unfold encoding
  cases hp : b.pattern? token with
  | some p =>
    rw [encodeFrom_of_known hp, knows, hp]
    dsimp only
    rw [Option.isSome_some, if_pos rfl, List.append_nil]
    exact h
  | none =>
    rw [encodeFrom_of_new hp, knows, hp]
    obtain ⟨s, f, hsnd⟩ := b.draw_snd orthogonal layer
    rcases hdraw : b.draw orthogonal layer with ⟨e | p, later⟩
    · rw [hdraw] at hsnd
      dsimp only at hsnd ⊢
      rw [hsnd, List.append_nil]
      exact h.of_draws s f
    · rw [hdraw] at hsnd
      dsimp only at hsnd ⊢
      rw [hsnd]
      exact (h.of_draws s f).bind token p

theorem encodeAll (h : b.Registered rs) (orthogonal : Bool) (layer : String) (tokens : List String) :
    (b.encodeAll orthogonal layer tokens).2.Registered (rs ++ b.encodings orthogonal layer tokens) := by
  induction tokens generalizing b rs with
  | nil =>
    rw [encodings, List.append_nil]
    exact h
  | cons token rest ih =>
    have hfrom := h.encodeFrom orthogonal layer token
    unfold CodeBook.encodeAll encodings
    rcases hb : b.encodeFrom orthogonal layer token with ⟨e | p, later⟩
    · rw [hb] at hfrom
      exact hfrom
    · rw [hb] at hfrom
      dsimp only at hfrom ⊢
      cases hcolumn : column later.size p with
      | error e =>
        dsimp only
        rw [List.append_nil]
        exact hfrom
      | ok p' =>
        have hrest := ih hfrom
        rw [List.append_assoc] at hrest
        dsimp only
        rcases hall : later.encodeAll orthogonal layer rest with ⟨e | ps, last⟩
        · rw [hall] at hrest
          exact hrest
        · rw [hall] at hrest
          exact hrest

theorem call (h : b.Registered rs) (c : Call α) : (b.call c).Registered (rs ++ b.registered c) := by
  cases c with
  | encode token =>
    have hfrom := h.encodeFrom false "" token
    rw [encodeFrom_false] at hfrom
    exact hfrom
  | encodeAll orthogonal layer tokens => exact h.encodeAll orthogonal layer tokens
  | bind token p => exact h.bind token p

theorem calls (h : b.Registered rs) (cs : List (Call α)) : (b.calls cs).Registered (rs ++ b.registrations cs) := by
  induction cs generalizing b rs with
  | nil =>
    rw [registrations, List.append_nil]
    exact h
  | cons c cs ih =>
    rw [registrations, ← List.append_assoc]
    exact ih (h.call c)

/-- An activity decodes to the token of the latest registration with its bits. -/
theorem lookup_history (h : b.Registered rs) (bits : Bits) :
    b.history.lookup bits = (latest? rs fun r => b.activator.bits r.pattern == bits).map (·.token) := by
  rw [h.history, ← List.map_reverse, latest?]
  induction rs.reverse with
  | nil => rfl
  | cons r rest ih =>
    rw [List.map_cons, List.lookup_cons, List.find?_cons, ih, BEq.comm]
    cases b.activator.bits r.pattern == bits with
    | true => rfl
    | false => rfl

end Registered

/-! ## Runs of calls -/

theorem activator_call (b : CodeBook α) (c : Call α) : (b.call c).activator = b.activator := by
  cases c with
  | encode token => exact (extends_encode b token).activator
  | encodeAll orthogonal layer tokens => exact (extends_encodeAll orthogonal layer tokens b).activator
  | bind token p => rfl

theorem activator_calls (b : CodeBook α) (cs : List (Call α)) : (b.calls cs).activator = b.activator := by
  induction cs generalizing b with
  | nil => rfl
  | cons c cs ih => exact (ih (b.call c)).trans (b.activator_call c)

theorem calls_concat (b : CodeBook α) (cs : List (Call α)) (c : Call α) : b.calls (cs ++ [c]) = (b.calls cs).call c := by
  unfold calls
  rw [List.foldl_append]
  rfl

/-- Only binding a token changes its pattern. -/
theorem pattern?_call {b : CodeBook α} {c : Call α} {t : String} {p : Pattern α} (h : b.pattern? t = some p)
    (hc : ∀ q, c ≠ .bind t q) : (b.call c).pattern? t = some p := by
  cases c with
  | encode token => exact (extends_encode b token).pattern t p h
  | encodeAll orthogonal layer tokens => exact (extends_encodeAll orthogonal layer tokens b).pattern t p h
  | bind token q =>
    have hne : t ≠ token := by
      rintro rfl
      exact hc q rfl
    exact (pattern?_bind b token q t).trans ((if_neg hne).trans h)

theorem pattern?_calls {t : String} {p : Pattern α} (cs : List (Call α)) (hcs : ∀ q, .bind t q ∉ cs) {b : CodeBook α}
    (h : b.pattern? t = some p) : (b.calls cs).pattern? t = some p := by
  induction cs generalizing b with
  | nil => exact h
  | cons c cs ih =>
    refine ih (fun q hq => hcs q (List.mem_cons_of_mem _ hq)) (pattern?_call h fun q heq => hcs q ?_)
    rw [heq]
    exact List.mem_cons_self

/-- Tokens that are known are not drawn for. -/
theorem encodeAll_of_known (orthogonal : Bool) (layer : String) (tokens : List String) {b : CodeBook α}
    (h : ∀ t ∈ tokens, b.knows t = true) : (b.encodeAll orthogonal layer tokens).2 = b := by
  induction tokens with
  | nil => rfl
  | cons token rest ih =>
    obtain ⟨p, hp⟩ := Option.isSome_iff_exists.mp (h token List.mem_cons_self)
    have hrest := ih fun t ht => h t (List.mem_cons_of_mem _ ht)
    unfold encodeAll
    rw [encodeFrom_of_known hp]
    dsimp only
    cases column b.size p with
    | error e => rfl
    | ok p' =>
      dsimp only
      rcases hall : b.encodeAll orthogonal layer rest with ⟨e | ps, later⟩
      · rw [hall] at hrest
        exact hrest
      · rw [hall] at hrest
        exact hrest

/-- A code book after any calls, those that fail partway included. The known tokens are those that
were registered, each once and in the order of their first registrations. A token keeps its pattern
until it is bound again, whatever else is called. Nothing is drawn for a known token. An activity
decodes to the token of the latest registration with its bits. -/
theorem book_of_calls (size : Nat) (a : Activator α) (seed : UInt64) (cs : List (Call α)) :
    let b := (CodeBook.new size a seed).calls cs
    let rs := (CodeBook.new size a seed).registrations cs
    b.tokens = (rs.map (·.token)).eraseDups ∧ b.tokens.Nodup ∧ (∀ t, t ∈ b.tokens ↔ (b.pattern? t).isSome = true) ∧
    (∀ t p, b.pattern? t = some p → ∀ later : List (Call α), (∀ q, .bind t q ∉ later) →
      (b.calls later).pattern? t = some p) ∧
    (∀ t p, b.pattern? t = some p → b.encode t = (p, b) ∧
      ∀ orthogonal layer, b.encodeFrom orthogonal layer t = (.ok p, b)) ∧
    (∀ orthogonal layer tokens, (∀ t ∈ tokens, b.knows t = true) → (b.encodeAll orthogonal layer tokens).2 = b) ∧
    ∀ p, b.decode p = ((latest? rs fun r => a.bits r.pattern == a.bits p).map (·.token)).getD unknownToken := by
  have hregistered := (registered_new size a seed).calls cs
  rw [List.nil_append] at hregistered
  refine ⟨hregistered.tokens, hregistered.nodup, mem_tokens_iff _, fun t p hp later hlater => pattern?_calls later hlater hp,
    fun t p hp => ⟨encode_of_known hp, encodeFrom_of_known hp⟩, fun o l ts h => encodeAll_of_known o l ts h, fun p => ?_⟩
  rw [decode, decodeBits, hregistered.lookup_history, activator_calls]
  rfl

/-! ## Decoding and the present patterns -/

/-- The pattern of a token has the given bits. -/
def Represents (b : CodeBook α) (t : String) (bits : Bits) : Prop := ∃ q, b.pattern? t = some q ∧ b.activator.bits q = bits

theorem Represents.extends {b later : CodeBook α} (hext : b.Extends later) {t : String} {bits : Bits}
    (h : b.Represents t bits) : later.Represents t bits := by
  obtain ⟨q, hq, hbits⟩ := h
  exact ⟨q, hext.pattern t q hq, hext.activator.symm ▸ hbits⟩

theorem lookup_history_bind (b : CodeBook α) (token : String) (p : Pattern α) (bits : Bits) :
    (b.bind token p).history.lookup bits =
      if bits = b.activator.bits p then some token else b.history.lookup bits := by
  unfold bind
  rw [List.lookup_cons]
  by_cases h : bits = b.activator.bits p
  · rw [if_pos h, h, beq_self_eq_true]
  · rw [if_neg h, beq_false_of_ne h]

theorem decode_bind (b : CodeBook α) (token : String) (p q : Pattern α) :
    (b.bind token p).decode q = if b.activator.bits q = b.activator.bits p then token else b.decode q := by
  unfold decode decodeBits
  rw [lookup_history_bind, activator_bind]
  split
  · rfl
  · rfl

/-- What is decoded after encoding was decoded before, or is a new token with its pattern. -/
theorem lookup_encodeFrom {b : CodeBook α} {orthogonal : Bool} {layer token t : String} {bits : Bits}
    (h : (b.encodeFrom orthogonal layer token).2.history.lookup bits = some t) :
    b.history.lookup bits = some t ∨ (b.encodeFrom orthogonal layer token).2.Represents t bits := by
  cases hp : b.pattern? token with
  | some p =>
    rw [encodeFrom_of_known hp] at h
    exact .inl h
  | none =>
    rw [encodeFrom_of_new hp] at h ⊢
    obtain ⟨s, f, hsnd⟩ := b.draw_snd orthogonal layer
    rcases hdraw : b.draw orthogonal layer with ⟨e | p, later⟩
    · rw [hdraw] at hsnd h
      dsimp only at hsnd h
      rw [hsnd] at h
      exact .inl h
    · rw [hdraw] at hsnd h
      dsimp only at hsnd h ⊢
      rw [hsnd, lookup_history_bind] at h
      rw [hsnd]
      split at h
      next hbits =>
        obtain rfl := Option.some.inj h
        exact .inr ⟨p, pattern?_bind_self _ _ _, hbits.symm⟩
      next => exact .inl h

theorem lookup_encodeAll {orthogonal : Bool} {layer t : String} {bits : Bits} {tokens : List String} {b : CodeBook α}
    (h : (b.encodeAll orthogonal layer tokens).2.history.lookup bits = some t) :
    b.history.lookup bits = some t ∨ (b.encodeAll orthogonal layer tokens).2.Represents t bits := by
  induction tokens generalizing b with
  | nil => exact .inl h
  | cons token rest ih =>
    have hfrom : (b.encodeFrom orthogonal layer token).2.history.lookup bits = some t →
        b.history.lookup bits = some t ∨ (b.encodeFrom orthogonal layer token).2.Represents t bits := lookup_encodeFrom
    unfold encodeAll at h ⊢
    rcases hb : b.encodeFrom orthogonal layer token with ⟨e | p, later⟩
    · rw [hb] at h hfrom
      exact hfrom h
    · rw [hb] at h hfrom
      dsimp only at h hfrom ⊢
      cases hcolumn : column later.size p with
      | error e =>
        rw [hcolumn] at h
        exact hfrom h
      | ok p' =>
        have hrest := ih (b := later)
        have hext := extends_encodeAll orthogonal layer rest later
        rw [hcolumn] at h
        dsimp only at h ⊢
        rcases hall : later.encodeAll orthogonal layer rest with ⟨e | ps, last⟩ <;> rw [hall] at h hrest hext <;>
          exact (hrest h).elim (fun hlater => (hfrom hlater).imp_right (.extends hext)) .inr

/-- A token that an activity decodes to has its bits, or had them until it was bound to others. -/
theorem represents_or_rebound (size : Nat) (a : Activator α) (seed : UInt64) (cs : List (Call α)) {bits : Bits} {t : String}
    (h : ((CodeBook.new size a seed).calls cs).history.lookup bits = some t) :
    ((CodeBook.new size a seed).calls cs).Represents t bits ∨
      ∃ before q after, cs = before ++ .bind t q :: after ∧ ((CodeBook.new size a seed).calls before).Represents t bits ∧
        a.bits q ≠ bits := by
  induction cs using List.reverseRecOn with
  | nil => cases h
  | append_singleton cs c ih =>
    have hactivator := (CodeBook.new size a seed).activator_calls cs
    -- what was bound to others before the last call still was
    have hkeep : (∃ before q after, cs = before ++ .bind t q :: after ∧
        ((CodeBook.new size a seed).calls before).Represents t bits ∧ a.bits q ≠ bits) →
        ∃ before q after, cs ++ [c] = before ++ .bind t q :: after ∧
          ((CodeBook.new size a seed).calls before).Represents t bits ∧ a.bits q ≠ bits := by
      rintro ⟨before, q, after, rfl, hrest⟩
      exact ⟨before, q, after ++ [c], by rw [List.append_assoc]; rfl, hrest⟩
    rw [calls_concat] at h ⊢
    generalize hb : (CodeBook.new size a seed).calls cs = b at h ih hactivator ⊢
    have hencoding (hext : b.Extends (b.call c)) (hlookup : b.history.lookup bits = some t ∨ (b.call c).Represents t bits) :
        (b.call c).Represents t bits ∨ ∃ before q after, cs ++ [c] = before ++ .bind t q :: after ∧
          ((CodeBook.new size a seed).calls before).Represents t bits ∧ a.bits q ≠ bits :=
      hlookup.elim (fun h => (ih h).imp (.extends hext) hkeep) .inl
    cases c with
    | encode token =>
      refine hencoding (extends_encode b token) ?_
      have hfrom : (b.encodeFrom false "" token).2.history.lookup bits = some t →
          b.history.lookup bits = some t ∨ (b.encodeFrom false "" token).2.Represents t bits := lookup_encodeFrom
      rw [encodeFrom_false] at hfrom
      exact hfrom h
    | encodeAll orthogonal layer tokens =>
      exact hencoding (extends_encodeAll orthogonal layer tokens b) (lookup_encodeAll h)
    | bind token p =>
      have hlookup := (lookup_history_bind b token p bits).symm.trans h
      split at hlookup
      next hbits =>
        obtain rfl := Option.some.inj hlookup
        exact .inl ⟨p, pattern?_bind_self b token p, hbits.symm⟩
      next hbits =>
        rcases ih hlookup with hrepresents | hrebound
        · by_cases ht : t = token
          · subst ht
            exact .inr ⟨cs, p, [], rfl, hb.symm ▸ hrepresents, fun heq => hbits (hactivator ▸ heq.symm)⟩
          · obtain ⟨q, hq, hqbits⟩ := hrepresents
            exact .inl ⟨q, (pattern?_bind b token p t).trans ((if_neg ht).trans hq), hqbits⟩
        · exact .inr (hkeep hrebound)

/-- No token is bound to other bits than it has. -/
def NeverRebound (b : CodeBook α) (cs : List (Call α)) : Prop :=
  ∀ before t q after, cs = before ++ .bind t q :: after →
    ∀ q', (b.calls before).pattern? t = some q' → b.activator.bits q = b.activator.bits q'

/-- A code book after any calls. What an activity decodes to, unless that is the sign for no token,
is a known token, and its pattern has these bits if they were not taken from it by binding it to
others. The sign for no token is what an activity decodes to whose bits were never registered, or
for a token that is spelled like it. Where no token is bound to other bits than it has, and none is
spelled like the sign, an activity decodes to a token with its bits whenever there is one. -/
theorem decode_unless_rebound (size : Nat) (a : Activator α) (seed : UInt64) (cs : List (Call α)) (p : Pattern α) :
    let new := CodeBook.new size a seed
    let b := new.calls cs
    (b.decode p ≠ unknownToken → b.knows (b.decode p) = true ∧ (b.Represents (b.decode p) (a.bits p) ∨
      ∃ before q after, cs = before ++ .bind (b.decode p) q :: after ∧
        (new.calls before).Represents (b.decode p) (a.bits p) ∧ a.bits q ≠ a.bits p)) ∧
    (b.decode p = unknownToken ↔ (∀ r ∈ new.registrations cs, a.bits r.pattern ≠ a.bits p) ∨
      ∃ r, latest? (new.registrations cs) (fun r => a.bits r.pattern == a.bits p) = some r ∧ r.token = unknownToken) ∧
    (new.NeverRebound cs → b.knows unknownToken = false →
      (b.decode p ≠ unknownToken → b.Represents (b.decode p) (a.bits p)) ∧
      (b.decode p = unknownToken ↔ ∀ t, ¬ b.Represents t (a.bits p))) := by
  intro new b
  have hregistered : b.Registered (new.registrations cs) := (registered_new size a seed).calls cs
  have hactivator : b.activator = a := activator_calls new cs
  have hlookup := hregistered.lookup_history (a.bits p)
  rw [hactivator] at hlookup
  have hdecode : b.decode p = (b.history.lookup (a.bits p)).getD unknownToken := by rw [decode, decodeBits, hactivator]
  have hstands : ∀ t, b.history.lookup (a.bits p) = some t → b.knows t = true ∧ (b.Represents t (a.bits p) ∨
      ∃ before q after, cs = before ++ .bind t q :: after ∧ (new.calls before).Represents t (a.bits p) ∧
        a.bits q ≠ a.bits p) := by
    intro t ht
    refine ⟨?_, represents_or_rebound size a seed cs ht⟩
    rw [hlookup, Option.map_eq_some_iff] at ht
    obtain ⟨r, hr, rfl⟩ := ht
    rw [← mem_tokens_iff, hregistered.tokens, List.mem_eraseDups]
    exact List.mem_map_of_mem (mem_of_latest? hr).1
  have hunregistered : b.history.lookup (a.bits p) = none ↔ ∀ r ∈ new.registrations cs, a.bits r.pattern ≠ a.bits p := by
    rw [hlookup, Option.map_eq_none_iff, latest?_eq_none]
    simp only [beq_iff_eq, ne_eq]
  refine ⟨fun hne => ?_, ?_, fun hnever hspelled => ?_⟩
  · rw [hdecode] at hne ⊢
    cases ht : b.history.lookup (a.bits p) with
    | none =>
      rw [ht] at hne
      exact absurd rfl hne
    | some t => exact hstands t ht
  · rw [hdecode, ← hunregistered, hlookup]
    cases latest? (new.registrations cs) fun r => a.bits r.pattern == a.bits p with
    | none => exact iff_of_true rfl (.inl rfl)
    | some r => exact ⟨fun h => .inr ⟨r, rfl, h⟩, fun h => h.elim (fun h => by cases h) fun ⟨_, heq, h⟩ => by cases heq; exact h⟩
  · -- what an activity decodes to has its bits
    have hrepresents : ∀ t, b.history.lookup (a.bits p) = some t → b.Represents t (a.bits p) := by
      intro t ht
      rcases (hstands t ht).2 with h | ⟨before, q, after, hcs, ⟨q', hq', hbits⟩, hne⟩
      · exact h
      · rw [activator_calls] at hbits
        exact absurd ((hnever before t q after hcs q' hq').trans hbits) hne
    have hsign : b.decode p = unknownToken ↔ b.history.lookup (a.bits p) = none := by
      rw [hdecode]
      refine ⟨fun h => ?_, fun h => by rw [h]; rfl⟩
      cases ht : b.history.lookup (a.bits p) with
      | none => rfl
      | some t =>
        rw [ht] at h
        obtain rfl : t = unknownToken := h
        rw [(hstands _ ht).1] at hspelled
        cases hspelled
    refine ⟨fun hne => ?_, hsign.trans ⟨fun hnone t => ?_, fun hall => ?_⟩⟩
    · cases ht : b.history.lookup (a.bits p) with
      | none => exact absurd (hsign.mpr ht) hne
      | some t =>
        rw [hdecode, ht]
        exact hrepresents t ht
    · rintro ⟨q, hq, hbits⟩
      rw [hregistered.pattern, Option.map_eq_some_iff] at hq
      obtain ⟨r, hr, rfl⟩ := hq
      exact hunregistered.mp hnone r (mem_of_latest? hr).1 (hactivator ▸ hbits)
    · exact Option.eq_none_iff_forall_ne_some.mpr fun t ht => hall t (hrepresents t ht)

end

/-- A token that is bound to other bits is still what its former bits decode to, though no token has
them any more; and a token that is spelled like the sign for no token decodes like none. -/
theorem former_bits_decode :
    let a : Activator ℝ := .standard
    let rebound := (CodeBook.new 2 a 0).calls [.bind "A" (a.pattern [true, false]), .bind "A" (a.pattern [false, true])]
    let spelled := (CodeBook.new 2 a 0).calls [.bind "?" (a.pattern [true, false])]
    (rebound.decode (a.pattern [true, false]) = "A" ∧ rebound.pattern? "A" = some (a.pattern [false, true]) ∧
      ∀ t, ¬ rebound.Represents t (a.bits (a.pattern [true, false]))) ∧
    spelled.decode (a.pattern [true, false]) = "?" ∧ spelled.Represents "?" (a.bits (a.pattern [true, false])) := by
  intro a rebound spelled
  have hproper : a.Proper := Activator.proper_standard
  have hbits : ∀ b, a.bits (a.pattern b) = b := hproper.bits_pattern
  have hpattern : ∀ t, rebound.pattern? t = if t = "A" then some (a.pattern [false, true]) else none := by
    intro t
    refine (pattern?_bind _ _ _ t).trans (if_ctx_congr Iff.rfl (fun _ => rfl) fun h => ?_)
    exact (pattern?_bind _ _ _ t).trans (if_neg h)
  refine ⟨⟨?_, (hpattern "A").trans (if_pos rfl), fun t => ?_⟩, ?_, _, pattern?_bind_self _ _ _, rfl⟩
  · refine (decode_bind _ _ _ _).trans ((if_neg fun heq => ?_).trans ((decode_bind _ _ _ _).trans (if_pos rfl)))
    have heq : a.bits (a.pattern [true, false]) = a.bits (a.pattern [false, true]) := heq
    rw [hbits, hbits] at heq
    exact absurd heq (by decide)
  · rintro ⟨q, hq, hqbits⟩
    rw [hpattern] at hq
    split at hq
    · cases hq
      have heq : a.bits (a.pattern [false, true]) = a.bits (a.pattern [true, false]) := hqbits
      rw [hbits, hbits] at heq
      exact absurd heq (by decide)
    · cases hq
  · exact (decode_bind _ _ _ _).trans (if_pos rfl)

end CodeBook

end Engram
