import Mathlib.Data.Fintype.Order
import Mathlib.Data.Set.Finite.Basic
import Mathlib.Logic.Relation
import Mathlib.Order.WellFounded

/-!
# Descending in a graph

A recursion that goes from a vertex of a graph to its successors ends exactly
when it cannot come back to a vertex it is in, provided that only finitely many
vertices can be reached.
-/

namespace EsNotebook

open Relation

variable {α : Type*} {r : α → α → Prop} {a b : α}

/-- No vertex that can be reached from `a` can be reached from itself. -/
def NoCycle (r : α → α → Prop) (a : α) : Prop := ∀ b, ReflTransGen r a b → ¬TransGen r b b

theorem not_transGen_self_of_acc (h : Acc (fun c b ↦ r b c) a) : ¬TransGen r a a := by
  have htrans : Acc (TransGen fun c b ↦ r b c) a := h.transGen
  intro hcycle
  have hback : TransGen (fun c b ↦ r b c) a a := transGen_swap.mp hcycle
  clear hcycle h
  induction htrans with
  | intro a _ ih => exact ih a hback hback

theorem acc_of_reflTransGen (h : Acc (fun c b ↦ r b c) a) (hab : ReflTransGen r a b) :
    Acc (fun c b ↦ r b c) b := by
  induction hab with
  | refl => exact h
  | tail _ hstep ih => exact ih.inv hstep

/-- On finitely many vertices, the descent from `a` ends if there is no cycle. -/
theorem NoCycle.acc (h : NoCycle r a) (hfinite : {b | ReflTransGen r a b}.Finite) :
    Acc (fun c b ↦ r b c) a := by
  have : Finite {b // ReflTransGen r a b} := hfinite
  let down (x y : {b // ReflTransGen r a b}) : Prop := r y.1 x.1
  have hlift (x y : {b // ReflTransGen r a b}) (hxy : TransGen down x y) : TransGen r y.1 x.1 := by
    induction hxy with
    | single hstep => exact .single hstep
    | tail _ hstep ih => exact .head hstep ih
  have hwf : WellFounded down := by
    have htrans : IsTrans _ (TransGen down) := ⟨fun _ _ _ ↦ TransGen.trans⟩
    have hirrefl : Std.Irrefl (TransGen down) := ⟨fun x hx ↦ h x.1 x.2 (hlift x x hx)⟩
    have hclosure := Finite.wellFounded_of_trans_of_irrefl (TransGen down)
    exact Subrelation.wf (fun hstep ↦ TransGen.single hstep) hclosure
  have hall (x : {b // ReflTransGen r a b}) : Acc (fun c b ↦ r b c) x.1 := by
    induction x using hwf.induction with
    | h x ih =>
        constructor
        intro y hy
        exact ih ⟨y, x.2.tail hy⟩ hy
  exact hall ⟨a, .refl⟩

theorem acc_iff_noCycle (hfinite : {b | ReflTransGen r a b}.Finite) :
    Acc (fun c b ↦ r b c) a ↔ NoCycle r a :=
  ⟨fun h _ hab ↦ not_transGen_self_of_acc (acc_of_reflTransGen h hab), fun h ↦ h.acc hfinite⟩

end EsNotebook
