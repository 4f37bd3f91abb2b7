import Mathlib
import ThreeAddress.Code.Variable

/-!
Families of variables, in the order in which their members are made.

A family begins with its declaration, at generation zero. A rename through any member goes on
from the last one, so the generations count up by one and the newest member, which is kept apart
in a table, is the last of the family.
-/

namespace ThreeAddress

/-- How many renames after its declaration a named variable was made. -/
def Variable.generation? (x : Variable) : Option Nat :=
  match x.kind with
  | .named _ _ generation _ => some generation
  | .temporary _ => none

namespace Variables

/-- The family of a variable that was declared. -/
def family (s : Variables) (root : VarId) : List Variable :=
  s.vars.toList.filter fun x => x.root? = some root

/-- What creation keeps of the numbers, the generations and the table of the newest. -/
structure Ordered (s : Variables) : Prop where
  ids : s.vars.toList.map Variable.id = List.range s.size
  generations (root : VarId) : (s.family root).map Variable.generation? =
    (List.range (s.family root).length).map some
  newest (root : VarId) : s.newest root = ((s.family root).getLast?.map Variable.id).getD root

variable {s : Variables} {root v : VarId} {x : Variable}

lemma ordered_empty : Ordered .empty := by
  refine ⟨rfl, fun root => ?_, fun root => ?_⟩ <;> rfl

lemma mem_family : x ∈ s.family root ↔ x ∈ s.vars.toList ∧ x.root? = some root := by
  simp [family]

lemma toList_push (s : Variables) (kind : VarKind) (ty : Ty) (marks : Marks) :
    (s.push kind ty marks).vars.toList = s.vars.toList ++ [⟨s.size, kind, ty, marks⟩] := by
  simp [push]

lemma family_push (s : Variables) (kind : VarKind) (ty : Ty) (marks : Marks) (root : VarId) :
    (s.push kind ty marks).family root = s.family root ++
      if (Variable.mk s.size kind ty marks).root? = some root then [⟨s.size, kind, ty, marks⟩]
      else [] := by
  rw [family, toList_push, List.filter_append, family]
  split <;> simp_all

/-! ### Numbers -/

lemma Ordered.get?_eq_some (h : s.Ordered) : s.get? v = some x ↔ x ∈ s.vars.toList ∧ x.id = v := by
  have hid {i : Nat} {y : Variable} (hy : s.vars.toList[i]? = some y) : y.id = i := by
    have hi := congrArg (·[i]?) h.ids
    obtain ⟨hlt, -⟩ := List.getElem?_eq_some_iff.1 hy
    simp only [List.getElem?_map, hy, Option.map_some] at hi
    rw [List.getElem?_range (by simpa [size] using hlt)] at hi
    exact Option.some.inj hi
  rw [get?, ← Array.getElem?_toList]
  refine ⟨fun hx => ⟨List.mem_of_getElem? hx, hid hx⟩, fun ⟨hx, hv⟩ => ?_⟩
  obtain ⟨i, hi⟩ := List.getElem?_of_mem hx
  rw [← hv, hid hi]
  exact hi

/-- A variable is known to belong to a family by its number. -/
lemma Ordered.root?_eq_some (h : s.Ordered) :
    (s.get? v).bind Variable.root? = some root ↔ ∃ x ∈ s.family root, x.id = v := by
  simp only [Option.bind_eq_some_iff, h.get?_eq_some, mem_family]
  exact ⟨fun ⟨x, ⟨hx, hv⟩, hr⟩ => ⟨x, ⟨hx, hr⟩, hv⟩, fun ⟨x, ⟨hx, hr⟩, hv⟩ => ⟨x, ⟨hx, hv⟩, hr⟩⟩

lemma Ordered.ascending (h : s.Ordered) (root : VarId) :
    ((s.family root).map Variable.id).Pairwise (· < ·) := by
  have hall : (s.vars.toList.map Variable.id).Pairwise (· < ·) := by
    rw [h.ids]
    exact List.pairwise_lt_range
  exact hall.sublist (List.filter_sublist.map _)

lemma Ordered.ids_push (h : s.Ordered) (kind : VarKind) (ty : Ty) (marks : Marks) :
    (s.push kind ty marks).vars.toList.map Variable.id =
      List.range (s.push kind ty marks).size := by
  have hsize : (s.push kind ty marks).size = s.size + 1 := by simp [push, size]
  rw [toList_push, List.map_append, h.ids, hsize, List.range_succ]
  rfl

/-! ### The newest member -/

lemma Ordered.getLast?_family (h : s.Ordered) (hx : x ∈ s.family root) :
    ∃ last ∈ s.family root, (s.family root).getLast? = some last ∧ last.id = s.newest root ∧
      ∀ y ∈ s.family root, y.id ≤ last.id := by
  have hne := List.ne_nil_of_mem hx
  refine ⟨_, List.getLast_mem hne, List.getLast?_eq_some_getLast hne, ?_, fun y hy => ?_⟩
  · rw [h.newest, List.getLast?_eq_some_getLast hne]
    rfl
  · have hasc := h.ascending root
    rw [← List.dropLast_append_getLast hne, List.map_append, List.pairwise_append] at hasc
    rw [← List.dropLast_append_getLast hne, List.mem_append, List.mem_singleton] at hy
    rcases hy with hy | rfl
    · exact (hasc.2.2 _ (List.mem_map_of_mem hy) _ (by simp)).le
    · exact le_rfl

lemma Ordered.current_eq (h : s.Ordered) (hx : x ∈ s.family root) :
    s.current x.id = s.newest root := by
  rw [current, h.root?_eq_some.2 ⟨x, hx, rfl⟩]

/-! ### Creation -/

lemma Ordered.temporary (h : s.Ordered) (ty : Ty) (marks : Marks) :
    (s.temporary ty marks).1.Ordered := by
  have hfamily (root : VarId) : (s.temporary ty marks).1.family root = s.family root := by
    refine (family_push s (.temporary s.nextSerial) ty marks root).trans ?_
    simp [Variable.root?]
  refine ⟨h.ids_push _ ty marks, fun root => ?_, fun root => ?_⟩
  · rw [hfamily]
    exact h.generations root
  · rw [hfamily]
    exact h.newest root

/-- A family goes on with a variable one generation younger than its last one. -/
lemma Ordered.extend {t : Variables} {name : String} {scope : Scope} {ty : Ty} {marks : Marks}
    (h : s.Ordered)
    (hvars : t.vars = (s.push (.named name scope (s.family root).length root) ty marks).vars)
    (hroot : t.newest root = s.size) (hother : ∀ r, r ≠ root → t.newest r = s.newest r) :
    t.Ordered := by
  have hfamily (r : VarId) : t.family r = s.family r ++ if root = r then
      [⟨s.size, .named name scope (s.family root).length root, ty, marks⟩] else [] := by
    rw [family, hvars]
    refine (family_push s _ ty marks r).trans ?_
    simp [Variable.root?]
  refine ⟨?_, fun r => ?_, fun r => ?_⟩
  · rw [size, hvars]
    exact h.ids_push _ ty marks
  · rw [hfamily]
    split
    · rename_i heq
      subst heq
      simp [h.generations, List.range_succ, Variable.generation?]
    · simpa using h.generations r
  · rw [hfamily]
    split
    · rename_i heq
      subst heq
      simp [hroot]
    · rename_i hne
      simpa [hother r (Ne.symm hne)] using h.newest r

lemma Ordered.declare (h : s.Ordered) (hfree : s.family s.size = []) (name : String) (ty : Ty)
    (scope : Scope) (marks : Marks) : (s.declare name ty scope marks).1.Ordered := by
  have hnewest : s.newest s.size = s.size := by simp [h.newest, hfree]
  have hvars : (s.declare name ty scope marks).1.vars =
      (s.push (.named name scope (s.family s.size).length s.size) ty marks).vars := by
    rw [hfree]
    rfl
  exact h.extend hvars hnewest fun _ _ => rfl

/-- A rename through any member makes one that follows the last of the family. -/
lemma Ordered.rename_eq (h : s.Ordered) (hv : (s.get? v).bind Variable.root? = some root) :
    ∃ name scope ty marks, s.rename v =
      .ok ({ s.push (.named name scope (s.family root).length root) ty marks with
        latest := (root, s.size) :: s.latest }, s.size) := by
  obtain ⟨x, hx, hxr⟩ := Option.bind_eq_some_iff.1 hv
  obtain ⟨_, hmem, -⟩ := h.root?_eq_some.1 hv
  obtain ⟨last, hlast, hgetLast, hid, -⟩ := h.getLast?_family hmem
  obtain ⟨hall, hroot⟩ := mem_family.1 hlast
  have hget := h.get?_eq_some.2 ⟨hall, hid⟩
  -- the last member stands at the end of the generations
  have hgeneration : last.generation? = some ((s.family root).length - 1) := by
    have hend := congrArg List.getLast? (h.generations root)
    have hlen : (s.family root).length ≠ 0 := by
      rw [Ne, List.length_eq_zero_iff]
      exact List.ne_nil_of_mem hlast
    simpa [hgetLast, List.getLast?_range, hlen] using hend
  have hpos : 0 < (s.family root).length := List.length_pos_of_mem hlast
  obtain ⟨id, kind, ty, marks⟩ := last
  cases kind with
  | temporary serial => simp [Variable.root?] at hroot
  | named name scope generation r =>
    obtain rfl : generation = (s.family root).length - 1 := Option.some.inj hgeneration
    obtain ⟨xid, xkind, xty, xmarks⟩ := x
    cases xkind with
    | temporary serial => simp [Variable.root?] at hxr
    | named xname xscope xgeneration xr =>
      obtain rfl : xr = root := Option.some.inj hxr
      refine ⟨name, scope, ty, marks, ?_⟩
      simp only [rename, get, hx, hget, bind, Except.bind, pure, Except.pure]
      rw [Nat.sub_add_cancel hpos]

lemma Ordered.renamed (h : s.Ordered) (name : String) (scope : Scope) (ty : Ty) (marks : Marks) :
    Ordered { s.push (.named name scope (s.family root).length root) ty marks with
      latest := (root, s.size) :: s.latest } := by
  refine h.extend rfl ?_ fun r hr => ?_
  · simp [Variables.newest]
  · have hne : (r == root) = false := beq_false_of_ne hr
    simp [Variables.newest, List.lookup_cons, hne]

end Variables

end ThreeAddress
