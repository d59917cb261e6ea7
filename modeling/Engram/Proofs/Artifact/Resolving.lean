/-
  Engram.Proofs.Artifact.Resolving — which artifacts are read.

  An artifact of the current version is read when the layers of every entry are found and its
  connection has their sizes (`WellFormed`). Otherwise the fault is about the first entry that is
  not so (`Tells`): a name of the entry that is no layer's, or the sizes of the layers beside the
  dimensions of the weights.

  The dimensions of the weights are reported also when it is the bias that does not fit. Of an entry
  whose weights fit, the fault then states the same sizes twice (`misfit_bias_not_told`).
-/

import Engram.Artifact.Basic
import Engram.Proofs.Machine.Shapes

namespace Engram

open LayerId

variable {α : Type}

theorem Network.id_of_some {n : Network α} {name : String} {l : LayerId} (h : n.id? name = some l) : n.id name = .ok l := by
  simp only [id, h]

theorem Network.id_of_none {n : Network α} {name : String} (h : n.id? name = none) :
    n.id name = .error (.unknownLayer name) := by
  simp only [id, h]

namespace Artifact

variable [Scalar α] {n : Network α}

/-- The layers of the entry are found, and its connection has their sizes. -/
def WellFormed (n : Network α) (e : NamedConnection α) : Prop := ∃ target source,
  n.id? e.target = some target ∧ n.id? e.source = some source ∧ e.connection.Spans (n.size target) (n.size source)

/-- The fault is about what is wrong with the entry: a name that is not found, or weights and bias that do
not both have the sizes of the layers. Only the dimensions of the weights are reported, so they may be the
expected ones where the bias does not fit. -/
def Tells (n : Network α) (e : NamedConnection α) : Fault α → Prop
  | .unknownLayer name => (name = e.target ∨ name = e.source) ∧ n.id? name = none
  | .shapeMismatch expected actual => ∃ target source,
      n.id? e.target = some target ∧ n.id? e.source = some source ∧
      expected = [n.size target, n.size source] ∧
      actual = [e.connection.weights.height, e.connection.weights.width] ∧
      (actual = expected → e.connection.bias.size ≠ n.size target)
  | _ => False

/-! ## One entry -/

theorem resolve_of_some {e : NamedConnection α} {target source : LayerId} (htarget : n.id? e.target = some target)
    (hsource : n.id? e.source = some source) :
    resolve n e = if e.connection.weights.height = n.size target ∧ e.connection.weights.width = n.size source ∧
        e.connection.bias.size = n.size target then .ok ⟨target, source⟩
      else .error (.shapeMismatch [n.size target, n.size source] [e.connection.weights.height, e.connection.weights.width]) := by
  simp only [resolve, Network.id_of_some htarget, Network.id_of_some hsource]
  rfl

/-- An entry is resolved if it is well formed; if not, the fault tells why. -/
theorem resolve_cases (n : Network α) (e : NamedConnection α) :
    (WellFormed n e ∧ ∃ p, resolve n e = .ok p) ∨ (¬WellFormed n e ∧ ∃ fault, resolve n e = .error fault ∧ Tells n e fault) := by
  cases htarget : n.id? e.target with
  | none =>
    refine .inr ⟨fun ⟨target, _, hfound, _⟩ => ?_, .unknownLayer e.target, ?_, .inl rfl, htarget⟩
    · simp [htarget] at hfound
    · simp only [resolve, Network.id_of_none htarget]
      rfl
  | some target =>
    cases hsource : n.id? e.source with
    | none =>
      refine .inr ⟨fun ⟨_, source, _, hfound, _⟩ => ?_, .unknownLayer e.source, ?_, .inr rfl, hsource⟩
      · simp [hsource] at hfound
      · simp only [resolve, Network.id_of_some htarget, Network.id_of_none hsource]
        rfl
    | some source =>
      rw [resolve_of_some htarget hsource]
      by_cases hspans : e.connection.weights.height = n.size target ∧ e.connection.weights.width = n.size source ∧
          e.connection.bias.size = n.size target
      · exact .inl ⟨⟨target, source, htarget, hsource, hspans.1, hspans.2.1, hspans.2.2⟩, _, if_pos hspans⟩
      · refine .inr ⟨?_, _, if_neg hspans, target, source, htarget, hsource, rfl, rfl, ?_⟩
        · intro ⟨target', source', htarget', hsource', hspans'⟩
          obtain rfl : target = target' := by simpa [htarget] using htarget'
          obtain rfl : source = source' := by simpa [hsource] using hsource'
          exact hspans ⟨hspans'.rows, hspans'.columns, hspans'.bias⟩
        · intro heq hbias
          simp only [List.cons.injEq, and_true] at heq
          exact hspans ⟨heq.1, heq.2, hbias⟩

/-! ## The entries of an artifact -/

/-- Entries are added to weights if all are well formed; if not, the fault is about the first that is not. -/
theorem resolveAll_cases (entries : List (NamedConnection α)) (w : Weights α) :
    ((∀ e ∈ entries, WellFormed n e) ∧ ∃ later, resolveAll n w entries = .ok later) ∨
    ∃ before e after fault, entries = before ++ e :: after ∧ (∀ d ∈ before, WellFormed n d) ∧ ¬WellFormed n e ∧
      resolveAll n w entries = .error fault ∧ Tells n e fault := by
  induction entries generalizing w with
  | nil => exact .inl ⟨by simp, w, rfl⟩
  | cons e rest ih =>
    obtain ⟨hgood, p, hresolve⟩ | ⟨hbad, fault, hresolve, htells⟩ := resolve_cases n e
    · have hstep : resolveAll n w (e :: rest) = resolveAll n (w.insert p e.connection) rest := by
        simp only [resolveAll, hresolve]
        rfl
      rw [hstep]
      obtain ⟨hall, hok⟩ | ⟨before, d, after, fault, rfl, hbefore, hd⟩ := ih (w.insert p e.connection)
      · exact .inl ⟨by simpa using ⟨hgood, hall⟩, hok⟩
      · exact .inr ⟨e :: before, d, after, fault, rfl, by simpa using ⟨hgood, hbefore⟩, hd⟩
    · refine .inr ⟨[], e, rest, fault, rfl, by simp, hbad, ?_, htells⟩
      simp only [resolveAll, hresolve]
      rfl

/-- An artifact is read exactly if its version is the current one and every entry is well formed. If the
version is the current one and the artifact is not read, the fault is about its first entry that is not
well formed: it names a layer of the entry that is not found, or reports dimensions that differ from the
expected ones, except where the weights of the entry fit and only its bias does not. -/
theorem reads_or_tells (n : Network α) (a : Artifact α) :
    ((∃ w, a.toWeights n = .ok w) ↔ a.version = currentVersion ∧ ∀ e ∈ a.entries, WellFormed n e) ∧
    ∀ fault, a.version = currentVersion → a.toWeights n = .error fault → ∃ before e after,
      a.entries = before ++ e :: after ∧ (∀ d ∈ before, WellFormed n d) ∧ ¬WellFormed n e ∧ Tells n e fault := by
  by_cases hversion : a.version = currentVersion
  · have hread : a.toWeights n = resolveAll n {} a.entries := if_pos hversion
    rw [hread]
    obtain ⟨hall, hok⟩ | ⟨before, e, after, fault, heq, hbefore, hbad, herror, htells⟩ := resolveAll_cases (n := n) a.entries {}
    · refine ⟨iff_of_true hok ⟨hversion, hall⟩, fun fault _ herror => ?_⟩
      obtain ⟨w, hw⟩ := hok
      simp [hw] at herror
    · refine ⟨iff_of_false ?_ ?_, fun fault' _ herror' => ⟨before, e, after, heq, hbefore, hbad, ?_⟩⟩
      · simp [herror]
      · intro ⟨_, hall⟩
        exact hbad (hall e (by simp [heq]))
      · obtain rfl : fault = fault' := by simpa [herror] using herror'
        exact htells
  · have hread : a.toWeights n = .error (.config (.artifactVersion a.version)) := if_neg hversion
    refine ⟨iff_of_false ?_ fun h => hversion h.1, fun _ h => absurd h hversion⟩
    simp [hread]

/-! ## Entries that do not fit -/

/-- An artifact whose second entry is for a layer that is not there. -/
def misnamed (n : Network Fixed) : Artifact Fixed :=
  let zero := Connection.zero (n.size go) (n.size gh)
  ⟨currentVersion, [⟨"go", "gh", zero⟩, ⟨"go", "nowhere", zero⟩]⟩

/-- The small network does not read the second entry, and is told so. -/
theorem small_tells_second : ∃ fault, (misnamed smallNetwork).version = currentVersion ∧
    (misnamed smallNetwork).toWeights smallNetwork = .error fault ∧ ∃ before e after,
      (misnamed smallNetwork).entries = before ++ e :: after ∧ (∀ d ∈ before, WellFormed smallNetwork d) ∧
        ¬WellFormed smallNetwork e ∧ Tells smallNetwork e fault := by
  have hfails : ((misnamed smallNetwork).toWeights smallNetwork).toOption.isSome = false := by decide +kernel
  cases hread : (misnamed smallNetwork).toWeights smallNetwork with
  | ok w => simp [hread, Except.toOption] at hfails
  | error fault => exact ⟨fault, rfl, rfl, (reads_or_tells smallNetwork _).2 fault rfl hread⟩

/-- Of an entry whose weights fit and whose bias does not, the dimensions that are reported are the expected
ones. -/
theorem resolve_misfit_bias {e : NamedConnection α} {target source : LayerId} (htarget : n.id? e.target = some target)
    (hsource : n.id? e.source = some source) (hrows : e.connection.weights.height = n.size target)
    (hcolumns : e.connection.weights.width = n.size source) (hbias : e.connection.bias.size ≠ n.size target) :
    resolve n e = .error (.shapeMismatch [n.size target, n.size source] [n.size target, n.size source]) := by
  rw [resolve_of_some htarget hsource, if_neg fun h => hbias h.2.2, hrows, hcolumns]

/-- The weights of the entry join `gh` to `go`; there is no bias. -/
def unbiased (n : Network Fixed) : NamedConnection Fixed :=
  ⟨"go", "gh", { Connection.zero (n.size go) (n.size gh) with bias := #[] }⟩

/-- The small network does not read the entry without a bias, and tells two equal lists of sizes. -/
theorem misfit_bias_not_told : ¬WellFormed smallNetwork (unbiased smallNetwork) ∧ ∃ sizes,
    toWeights ⟨currentVersion, [unbiased smallNetwork]⟩ smallNetwork = .error (.shapeMismatch sizes sizes) := by
  have hgo : smallNetwork.id? "go" = some go := by decide +kernel
  have hgh : smallNetwork.id? "gh" = some gh := by decide +kernel
  have hsize : 0 ≠ smallNetwork.size go := by decide +kernel
  constructor
  · intro ⟨target, _, htarget, _, hspans⟩
    obtain rfl : go = target := Option.some.inj (hgo.symm.trans htarget)
    exact hsize hspans.bias
  · have hresolve := resolve_misfit_bias (e := unbiased smallNetwork) hgo hgh rfl rfl hsize
    refine ⟨[smallNetwork.size go, smallNetwork.size gh], ?_⟩
    simp only [toWeights, resolveAll, hresolve]
    rfl

end Artifact

end Engram
