/-
  Engram.Proofs.Artifact.Roundtrip — weights as artifacts and back.

  The layers of a network are found by their names, and no two have the same one (`Found`). So the
  entries that weights are written as stand for their pathways, one each, and are read back as the
  same weights. An artifact may list a pathway more than once; it is read as the weights that the
  latest entries give. Written again, it has these entries alone, in the order of the pathways
  (`read_and_written`).
-/

import Engram.Proofs.Artifact.Reordering
import Engram.Proofs.Machine.Loading

namespace Engram

open LayerId

variable {α : Type}

/-- After inserting values under pathways, the latest one counts. -/
theorem Pathway.getElem?_foldl_insert {β : Type} (l : List (Pathway × β)) (m : Std.TreeMap Pathway β) (p : Pathway) :
    (l.foldl (fun m x => m.insert x.1 x.2) m)[p]? = ((l.reverse.find? (·.1 == p)).map (·.2)).or m[p]? := by
  induction l using List.reverseRecOn with
  | nil => rfl
  | append_singleton l x ih =>
    rw [List.foldl_append, List.reverse_append, List.reverse_singleton, List.singleton_append, List.find?_cons]
    show (Std.TreeMap.insert _ x.1 x.2)[p]? = _
    rw [Std.TreeMap.getElem?_insert]
    by_cases hx : x.1 = p
    · rw [if_pos (by rw [hx]; exact Std.ReflCmp.compare_self), beq_iff_eq.mpr hx]
      rfl
    · rw [if_neg fun heq => hx (Std.LawfulEqCmp.eq_of_compare heq), beq_false_of_ne hx]
      exact ih

/-- The pathway is before another in weights: its target has a lower number, or the same one and its
source a lower. -/
def Pathway.Before (p q : Pathway) : Prop :=
  p.target.position < q.target.position ∨ p.target = q.target ∧ p.source.position < q.source.position

theorem Pathway.before_of_compare {p q : Pathway} (h : compare p q = .lt) : p.Before q := by
  have h : (compare p.target.index q.target.index).then (compare p.source.index q.source.index) = .lt := h
  rcases Ordering.then_eq_lt.mp h with hlt | ⟨heq, hlt⟩
  · exact .inl (UInt16.lt_iff_toNat_lt.mp (compareOfLessAndEq_eq_lt.mp hlt))
  · exact .inr ⟨congrArg LayerId.mk (Std.LawfulEqCmp.eq_of_compare heq),
      UInt16.lt_iff_toNat_lt.mp (compareOfLessAndEq_eq_lt.mp hlt)⟩

variable [Scalar α]

namespace Network

/-! ## Layers that are found by their names -/

/-- Every layer is found by its name. -/
structure Found (n : Network α) : Prop where
  room : n.layers.size ≤ 65536
  id_name : ∀ l : LayerId, l.position < n.layers.size → n.id (n.name l) = .ok l

variable {n : Network α}

/-- The layers of a network that was built are found by their names, whatever was encoded since. -/
theorem found_of_keeps {c : Config α} {bare : Network α} {keep : LayerId → String → Prop} (h : bare.BuiltFrom c)
    (hroom : c.registers.length ≤ 65522) (hkeeps : bare.Keeps keep n) : n.Found := by
  have hlayers : bare.layers.size ≤ 65536 := by
    have hnames : controlNames.length = 13 := rfl
    rw [h.size_layers]
    omega
  refine ⟨hkeeps.count ▸ hlayers, fun l hl => ?_⟩
  have hid : n.id = bare.id := by
    funext name
    unfold Network.id
    rw [id?_congr (hkeeps.names hlayers)]
  have hname : n.name l = bare.name l := hkeeps.name l
  rw [hid, hname]
  exact h.id_name (hkeeps.count ▸ hl)

namespace Found

variable (h : n.Found)

include h

theorem of_id {name : String} {l : LayerId} (hid : n.id name = .ok l) : l.position < n.layers.size ∧ n.name l = name := by
  unfold Network.id at hid
  cases hid? : n.id? name with
  | none =>
    rw [hid?] at hid
    cases hid
  | some l' =>
    rw [hid?] at hid
    obtain rfl := Except.ok.inj hid
    refine ⟨?_, name_of_id? h.room hid?⟩
    obtain ⟨i, hfind, rfl⟩ := Option.map_eq_some_iff.mp hid?
    obtain ⟨hi, -⟩ := Array.findIdx?_eq_some_iff_getElem.mp hfind
    have hposition : LayerId.position ⟨UInt16.ofNat i⟩ = i :=
      (UInt16.toNat_ofNat' ..).trans (Nat.mod_eq_of_lt (Nat.lt_of_lt_of_le hi h.room))
    rw [hposition]
    exact hi

theorem eq_of_name {l l' : LayerId} (hl : l.position < n.layers.size) (hl' : l'.position < n.layers.size)
    (hname : n.name l = n.name l') : l = l' :=
  Except.ok.inj ((h.id_name l hl).symm.trans ((congrArg n.id hname).trans (h.id_name l' hl')))

end Found

end Network

namespace Artifact

variable {n : Network α} {a : Artifact α} {w : Weights α}

/-- A connection under the names of its layers. -/
def named (n : Network α) (x : Pathway × Connection α) : NamedConnection α := ⟨n.name x.1.target, n.name x.1.source, x.2⟩

/-- Whether two entries are for layers of the same names. -/
def sameNames (e d : NamedConnection α) : Bool := d.target == e.target && d.source == e.source

section

variable (h : n.Found)

include h

/-- An entry is read as the pathway that it is written for. -/
theorem resolve_eq_ok_iff {e : NamedConnection α} {p : Pathway} : resolve n e = .ok p ↔
    n.Joins p ∧ e.connection.Spans (n.size p.target) (n.size p.source) ∧ e = named n (p, e.connection) := by
  constructor
  · intro hresolve
    unfold resolve at hresolve
    cases htarget : n.id e.target with
    | error fault =>
      rw [htarget] at hresolve
      cases hresolve
    | ok target =>
      cases hsource : n.id e.source with
      | error fault =>
        rw [htarget, hsource] at hresolve
        cases hresolve
      | ok source =>
        rw [htarget, hsource] at hresolve
        obtain ⟨htarget, htargetName⟩ := h.of_id htarget
        obtain ⟨hsource, hsourceName⟩ := h.of_id hsource
        change (if _ then _ else _) = _ at hresolve
        split at hresolve
        next hfits =>
          cases hresolve
          refine ⟨⟨hsource, htarget⟩, ⟨hfits.1, hfits.2.1, hfits.2.2⟩, ?_⟩
          unfold named
          rw [htargetName, hsourceName]
        next => cases hresolve
  · rintro ⟨⟨hsource, htarget⟩, hspans, he⟩
    rw [he]
    unfold resolve named
    rw [h.id_name p.target htarget, h.id_name p.source hsource]
    exact if_pos ⟨hspans.rows, hspans.columns, hspans.bias⟩

/-- An artifact that is read lists pathways of the network by their names, and is read as what the
entries give one after the other. -/
theorem exists_of_toWeights (hread : a.toWeights n = .ok w) : ∃ l : List (Pathway × Connection α),
    (∀ x ∈ l, resolve n (named n x) = .ok x.1) ∧ a.entries = l.map (named n) ∧
      w = l.foldl (fun w x => w.insert x.1 x.2) {} := by
  have hall : ∀ (entries : List (NamedConnection α)) (v : Weights α), resolveAll n v entries = .ok w →
      ∃ l : List (Pathway × Connection α), (∀ x ∈ l, resolve n (named n x) = .ok x.1) ∧ entries = l.map (named n) ∧
        w = l.foldl (fun w x => w.insert x.1 x.2) v := by
    intro entries
    induction entries with
    | nil =>
      intro v hv
      cases hv
      exact ⟨[], fun _ hx => (List.not_mem_nil hx).elim, rfl, rfl⟩
    | cons e rest ih =>
      intro v hv
      unfold resolveAll at hv
      cases hresolve : resolve n e with
      | error fault =>
        rw [hresolve] at hv
        cases hv
      | ok p =>
        rw [hresolve] at hv
        obtain ⟨-, -, he⟩ := (resolve_eq_ok_iff h).mp hresolve
        obtain ⟨l, hl, rfl, hw⟩ := ih _ hv
        refine ⟨(p, e.connection) :: l, fun x hx => ?_, congrArg (· :: l.map (named n)) he, hw⟩
        rcases List.mem_cons.mp hx with rfl | hx
        · exact he ▸ hresolve
        · exact hl x hx
  unfold toWeights at hread
  split at hread
  next => exact hall a.entries {} hread
  next => cases hread

/-- Weights are read as they were written. -/
theorem toWeights_ofWeights (hw : w.Placed n) : ∃ v, (ofWeights n w).toWeights n = .ok v ∧ v.Equiv w := by
  have hresolves : List.Forall₂ (fun e x => resolve n e = .ok x.1 ∧ e.connection = x.2) (ofWeights n w).entries w.toList := by
    rw [ofWeights, List.forall₂_map_left_iff, List.forall₂_same]
    rintro ⟨p, c⟩ hmem
    obtain ⟨hjoins, hspans⟩ := hw p c (Std.TreeMap.mem_toList_iff_getElem?_eq_some.mp hmem)
    exact ⟨(resolve_eq_ok_iff h).mpr ⟨hjoins, hspans, rfl⟩, rfl⟩
  refine ⟨_, (if_pos rfl).trans (resolveAll_of_resolves hresolves {}), Pathway.equiv_of_getElem? fun p => ?_⟩
  cases hp : w[p]? with
  | some c =>
    have hmem := Std.TreeMap.mem_toList_iff_getElem?_eq_some.mpr hp
    exact Pathway.getElem?_foldl_insert_of_mem (Pathway.nodup_keys_toList w) {} hmem
  | none =>
    rw [Pathway.getElem?_foldl_insert_of_not_mem (Pathway.not_mem_keys_toList hp)]
    exact Std.TreeMap.getElem?_emptyc

/-- Among entries, the latest one of some names is the latest one of their pathway. -/
theorem find?_named {l : List (Pathway × Connection α)} (hl : ∀ x ∈ l, n.Joins x.1) {x : Pathway × Connection α}
    (hx : n.Joins x.1) : (l.map (named n)).reverse.find? (sameNames (named n x)) =
      (l.reverse.find? (·.1 == x.1)).map (named n) := by
  rw [← List.map_reverse, List.find?_map]
  refine congrArg (Option.map (named n)) (List.find?_congr fun y hy => ?_)
  have hy := hl y (List.mem_reverse.mp hy)
  rw [Function.comp_apply, Bool.eq_iff_iff, beq_iff_eq]
  unfold sameNames named
  rw [Bool.and_eq_true, beq_iff_eq, beq_iff_eq]
  constructor
  · rintro ⟨htarget, hsource⟩
    have htarget := h.eq_of_name hy.2 hx.2 htarget
    have hsource := h.eq_of_name hy.1 hx.1 hsource
    rcases y with ⟨⟨_, _⟩, _⟩
    rcases x with ⟨⟨_, _⟩, _⟩
    exact congrArg₂ Pathway.mk htarget hsource
  · intro heq
    rw [heq]
    exact ⟨rfl, rfl⟩

end

/-- Weights are written as an artifact that is read as the same weights. An artifact that is read is
written again with the entries of all its pathways, in their order: of each pathway the latest entry. -/
theorem read_and_written {c : Config α} {bare : Network α} {keep : LayerId → String → Prop}
    (hbuild : (Network.build c).value = .ok bare) (hroom : c.registers.length ≤ 65522) (hkeeps : bare.Keeps keep n) :
    (∀ w : Weights α, w.Placed n → ∃ v, (ofWeights n w).toWeights n = .ok v ∧ v.Equiv w) ∧
    ∀ (a : Artifact α) (w : Weights α), a.toWeights n = .ok w →
      (∃ ps : List Pathway, ps.Pairwise Pathway.Before ∧ List.Forall₂ (fun e p => resolve n e = .ok p) (ofWeights n w).entries ps) ∧
      ∀ e, e ∈ (ofWeights n w).entries ↔ a.entries.reverse.find? (sameNames e) = some e := by
  have h := Network.found_of_keeps (Network.builtFrom_of_build hbuild) hroom hkeeps
  refine ⟨fun w hw => toWeights_ofWeights h hw, fun a w hread => ?_⟩
  obtain ⟨l, hresolves, hentries, hw⟩ := exists_of_toWeights h hread
  have hl : ∀ x ∈ l, n.Joins x.1 := fun x hx => ((resolve_eq_ok_iff h).mp (hresolves x hx)).1
  have hlatest (p : Pathway) : w[p]? = (l.reverse.find? (·.1 == p)).map (·.2) := by
    rw [hw, Pathway.getElem?_foldl_insert, Std.TreeMap.getElem?_emptyc, Option.or_none]
  have hread (p : Pathway) (c : Connection α) : w[p]? = some c → resolve n (named n (p, c)) = .ok p := by
    rw [hw]
    exact Pathway.forall_foldl_insert (P := fun p c => resolve n (named n (p, c)) = .ok p) hresolves (fun p c hc => by simp at hc) p c
  refine ⟨⟨w.toList.map (·.1), ?_, ?_⟩, fun e => ?_⟩
  · rw [List.pairwise_map]
    exact Std.TreeMap.ordered_keys_toList.imp Pathway.before_of_compare
  · rw [ofWeights, List.forall₂_map_left_iff, List.forall₂_map_right_iff, List.forall₂_same]
    exact fun x hx => hread x.1 x.2 (Std.TreeMap.mem_toList_iff_getElem?_eq_some.mp hx)
  have hpathway {q : Pathway} {x : Pathway × Connection α} (hx : l.reverse.find? (·.1 == q) = some x) : x.1 = q :=
    beq_iff_eq.mp (List.find?_some (p := fun x : Pathway × Connection α => x.1 == q) hx)
  rw [hentries]
  constructor
  · intro he
    obtain ⟨⟨p, c⟩, hmem, rfl⟩ := List.mem_map.mp he
    have hp := Std.TreeMap.mem_toList_iff_getElem?_eq_some.mp hmem
    rw [hlatest] at hp
    obtain ⟨x, hx, rfl⟩ := Option.map_eq_some_iff.mp hp
    obtain rfl := hpathway hx
    refine (find?_named h hl (x := x) (hl x (List.mem_reverse.mp (List.mem_of_find?_eq_some hx)))).trans ?_
    rw [hx]
    rfl
  · intro hfind
    obtain ⟨x, hx, rfl⟩ := List.mem_map.mp (List.mem_reverse.mp (List.mem_of_find?_eq_some hfind))
    rw [find?_named h hl (hl x hx)] at hfind
    obtain ⟨y, hy, hsame⟩ := Option.map_eq_some_iff.mp hfind
    refine List.mem_map.mpr ⟨y, Std.TreeMap.mem_toList_iff_getElem?_eq_some.mpr ?_, hsame⟩
    rw [hlatest, hpathway hy, hy]
    rfl

/-- An artifact that lists a pathway twice. -/
def repeated (n : Network Fixed) : Artifact Fixed :=
  let zero := Connection.zero (n.size go) (n.size gh)
  ⟨currentVersion, [⟨"go", "gh", { zero with bias := Array.replicate (n.size go) 1 }⟩, ⟨"go", "gh", zero⟩]⟩

/-- The small network reads back the weights of one pathway; and of an artifact that lists it twice it
writes the second entry. -/
theorem small_read_and_written : (Network.build smallConfig).value = .ok smallNetwork ∧ smallConfig.registers.length ≤ 65522 ∧
    (∃ v, (ofWeights smallNetwork (gateWeights smallNetwork)).toWeights smallNetwork = .ok v ∧ v.Equiv (gateWeights smallNetwork)) ∧
    ∃ w, (repeated smallNetwork).toWeights smallNetwork = .ok w ∧ ∀ e, e ∈ (ofWeights smallNetwork w).entries ↔
      e = ⟨"go", "gh", .zero (smallNetwork.size go) (smallNetwork.size gh)⟩ := by
  have hroom : smallConfig.registers.length ≤ 65522 := by decide
  have hkeeps : smallNetwork.Keeps (fun _ _ => True) smallNetwork := .refl smallNetwork
  obtain ⟨hwritten, hread⟩ := read_and_written build_smallConfig hroom hkeeps
  have hok : ((repeated smallNetwork).toWeights smallNetwork).toOption.isSome = true := by decide +kernel
  cases hw : (repeated smallNetwork).toWeights smallNetwork with
  | error e =>
    rw [hw] at hok
    cases hok
  | ok w =>
    refine ⟨build_smallConfig, hroom, hwritten _ (placed_gateWeights (Network.builtFrom_of_build build_smallConfig)), w, rfl, fun e => ?_⟩
    rw [(hread _ w hw).2 e]
    -- both entries have the names, or neither has
    have hsame : ∀ c : Connection Fixed, sameNames e ⟨"go", "gh", c⟩ = ("go" == e.target && "gh" == e.source) := fun _ => rfl
    show List.find? (sameNames e) [_, _] = some e ↔ _
    rw [List.find?_cons, List.find?_singleton, hsame, hsame]
    cases hnames : ("go" == e.target && "gh" == e.source) with
    | true => exact Option.some_inj.trans eq_comm
    | false =>
      refine iff_of_false (fun hnone => by cases hnone) ?_
      rintro rfl
      cases hnames

end Artifact

end Engram
