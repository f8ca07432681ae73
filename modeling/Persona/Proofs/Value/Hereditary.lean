import Persona.Proofs.Builtin.Call
import Persona.Proofs.Session.Every

/-! Properties that values hand on.

All values of a run are made out of others by operators, literals, loops and built-ins. A
property is *hereditary* if each of these makes values with the property out of values with the
property; whatever a run does, its values then have the property if its literals and functions
have it. Two hereditary properties together are one. -/
namespace Persona

open Effect (Keeps)

/-- What operations on values with the property give has it as well. An array is made of a
literal where it is no longer than the limit. -/
structure Value.Hereditary (h : Host) (V : Value → Prop) : Prop where
  null : V .null
  bool : ∀ b, V (.bool b)
  number : ∀ x, V (.number x)
  builtin : ∀ b, V (.builtin b)
  binary : ∀ {op a b v}, V a → V b → Value.binary h.limits op a b = .ok v → V v
  unary : ∀ {op a v}, V a → Value.unary op a = .ok v → V v
  index : ∀ {object key v}, V object → V key → Value.index object key = .ok v → V v
  items : ∀ {v items}, V v → v.items = .ok items → ∀ item ∈ items, V item
  extend : ∀ {head tail v}, V head → V tail → Value.extend h.limits head tail = .ok v → V v
  array : ∀ {items : Array Value}, (∀ v ∈ items, V v) → items.size ≤ h.limits.maxArrayLength → V (.array items)
  map : ∀ {entries}, (∀ e ∈ entries, V (.string e.1) ∧ V e.2) → V (.map entries)
  call : ∀ {b : Builtin} {vs : List Value} {s t : Session} {v}, (∀ v ∈ vs, V v) → s.Every V →
    b.call h vs s = (.ok v, t) → V v

namespace Value.Hereditary

variable {h : Host} {V W : Value → Prop}

theorem and (hV : Hereditary h V) (hW : Hereditary h W) : Hereditary h fun v => V v ∧ W v where
  null := ⟨hV.null, hW.null⟩
  bool b := ⟨hV.bool b, hW.bool b⟩
  number x := ⟨hV.number x, hW.number x⟩
  builtin b := ⟨hV.builtin b, hW.builtin b⟩
  binary ha hb hv := ⟨hV.binary ha.1 hb.1 hv, hW.binary ha.2 hb.2 hv⟩
  unary ha hv := ⟨hV.unary ha.1 hv, hW.unary ha.2 hv⟩
  index ho hk hv := ⟨hV.index ho.1 hk.1 hv, hW.index ho.2 hk.2 hv⟩
  items hv hi item hitem := ⟨hV.items hv.1 hi item hitem, hW.items hv.2 hi item hitem⟩
  extend ha hb hv := ⟨hV.extend ha.1 hb.1 hv, hW.extend ha.2 hb.2 hv⟩
  array hitems hsize := ⟨hV.array (fun v hv => (hitems v hv).1) hsize, hW.array (fun v hv => (hitems v hv).2) hsize⟩
  map hes := ⟨hV.map fun e he => ⟨(hes e he).1.1, (hes e he).2.1⟩, hW.map fun e he => ⟨(hes e he).1.2, (hes e he).2.2⟩⟩
  call hvs hs hv := ⟨hV.call (fun v hv => (hvs v hv).1) (hs.imp fun _ hv => hv.1) hv,
    hW.call (fun v hv => (hvs v hv).2) (hs.imp fun _ hv => hv.2) hv⟩

theorem keeps_call (hV : Hereditary h V) (b : Builtin) {vs : List Value} (hvs : ∀ v ∈ vs, V v) :
    Keeps (Session.Every V) Fault.Plain V (b.call h vs) := by
  intro s hs
  obtain ⟨hsession, -, hfaults⟩ := Builtin.plain_call (Session.inert_every V) h b vs s hs
  refine ⟨hsession, fun v hv => ?_, hfaults⟩
  exact hV.call hvs hs (Prod.ext hv rfl)

end Value.Hereditary

/-- No operation makes functions. -/
theorem Value.hereditary_holdsOnly (h : Host) (sort : Function → Prop) : Hereditary h (HoldsOnly sort) where
  null _ hg := absurd hg List.not_mem_nil
  bool _ _ hg := absurd hg List.not_mem_nil
  number _ _ hg := absurd hg List.not_mem_nil
  builtin _ _ hg := absurd hg List.not_mem_nil
  binary ha hb hv := holds_binary ha hb hv
  unary ha hv := holds_unary ha hv
  index ho hk hv := holds_index ho hk hv
  items hv hi := holds_items.1 (holds_of_items hv hi)
  extend ha hb hv := holds_extend ha hb hv
  array hitems _ := holds_items.2 hitems
  map hes := holds_map.2 fun e he => (hes e he).2
  call {b _ s _ v} hvs hs hv := by
    obtain ⟨-, hresult, -⟩ := Builtin.keeps_call (h := h) b hvs s (Session.every_holdsOnly.1 hs)
    exact hresult v (congrArg Prod.fst hv)

end Persona
