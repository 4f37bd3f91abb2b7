import Mathlib.Data.List.Basic
import ThreeAddress.Code.Formula

/-!
The formulas that straight code provides: those that it computes, with none of their variables
assigned afterwards, nor by the computation itself.
-/

namespace ThreeAddress

/-- The action assigns no variable that the formula reads. -/
def Action.Spares (a : Action) (f : Formula) : Prop :=
  ∀ v, a.targetVar = some v → f.reads v = false

namespace Listing

variable {l : Listing} {f : Formula} {x : Instr} {xs ys : List Instr}

/-- Some instruction computes the formula, and neither it nor a later one assigns a variable that
the formula reads. -/
def Provides (l : Listing) (f : Formula) (xs : List Instr) : Prop :=
  ∃ front x back, xs = front ++ x :: back ∧ Formula.ofAction l x.action = some f ∧
    ∀ y ∈ x :: back, y.action.Spares f

@[simp] lemma not_provides_nil : ¬l.Provides f [] := by
  rintro ⟨front, x, back, heq, -⟩
  simp at heq

@[simp] lemma provides_singleton :
    l.Provides f [x] ↔ Formula.ofAction l x.action = some f ∧ x.action.Spares f := by
  constructor
  · rintro ⟨front, y, back, heq, hy, hback⟩
    obtain ⟨rfl, rfl, rfl⟩ : front = [] ∧ y = x ∧ back = [] := by
      cases front <;> simp_all
    exact ⟨hy, hback y List.mem_cons_self⟩
  · rintro ⟨hx, hspares⟩
    exact ⟨[], x, [], rfl, hx, by simpa using hspares⟩

/-- The later code provides the formula, or the earlier code does and the later one spares it. -/
lemma provides_append : l.Provides f (xs ++ ys) ↔
    l.Provides f ys ∨ l.Provides f xs ∧ ∀ y ∈ ys, y.action.Spares f := by
  constructor
  · rintro ⟨front, x, back, heq, hx, hback⟩
    obtain ⟨mid, rfl, rfl⟩ | ⟨mid, rfl, hmid⟩ := List.append_eq_append_iff.1 heq
    · exact .inl ⟨mid, x, back, rfl, hx, hback⟩
    · cases mid with
      | nil => exact .inl ⟨[], x, back, hmid.symm, hx, hback⟩
      | cons z mid =>
        obtain ⟨rfl, rfl⟩ := List.cons.inj hmid
        refine .inr ⟨⟨front, x, mid, rfl, hx, fun y hy => hback y ?_⟩, fun y hy => hback y ?_⟩
        · exact List.mem_append_left ys hy
        · exact List.mem_cons_of_mem _ (List.mem_append_right _ hy)
  · rintro (⟨front, x, back, rfl, hx, hback⟩ | ⟨⟨front, x, back, rfl, hx, hback⟩, hys⟩)
    · exact ⟨xs ++ front, x, back, by simp, hx, hback⟩
    · refine ⟨front, x, back ++ ys, by simp, hx, fun y hy => ?_⟩
      rw [← List.cons_append, List.mem_append] at hy
      exact hy.elim (hback y) (hys y)

lemma provides_concat : l.Provides f (xs ++ [x]) ↔
    (l.Provides f xs ∨ Formula.ofAction l x.action = some f) ∧ x.action.Spares f := by
  rw [provides_append, provides_singleton, List.forall_mem_singleton]
  tauto

lemma Provides.exists_mem (h : l.Provides f xs) : ∃ x ∈ xs, Formula.ofAction l x.action = some f := by
  obtain ⟨front, x, back, rfl, hx, -⟩ := h
  exact ⟨x, List.mem_append_cons_self, hx⟩

end Listing

end ThreeAddress
