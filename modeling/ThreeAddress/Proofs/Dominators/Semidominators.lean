import Mathlib

/-!
Semidominators and dominators in a depth-first tree.

The numbers of a depth-first search make dominators computable: the semidominator of `w` is
the least number from which a path leads to `w` through higher numbers only, and it is an
ancestor of `w` in the tree. The immediate dominator of `w` is its semidominator, unless a
node between the two has a smaller semidominator; then the one of these with the least
semidominator has the same immediate dominator.
-/

namespace ThreeAddress.Dominators

variable {E : Nat → Nat → Prop}

/-- A walk from `a` to `b` along edges that does not meet `z`. -/
inductive Avoiding (E : Nat → Nat → Prop) (z b : Nat) : Nat → Prop
  | refl : b ≠ z → Avoiding E z b b
  | head {a a' : Nat} : a ≠ z → E a a' → Avoiding E z b a' → Avoiding E z b a

namespace Avoiding

variable {z a b c : Nat}

lemma right_ne (h : Avoiding E z b a) : b ≠ z := by
  induction h with
  | refl h => exact h
  | head _ _ _ ih => exact ih

lemma trans (h : Avoiding E z b a) (h' : Avoiding E z c b) : Avoiding E z c a := by
  induction h with
  | refl _ => exact h'
  | head ha he _ ih => exact .head ha he ih

lemma tail (h : Avoiding E z b a) (he : E b c) (hc : c ≠ z) : Avoiding E z c a :=
  h.trans (.head h.right_ne he (.refl hc))

/-- A walk avoids a further node or comes to it. -/
lemma split (h : Avoiding E z c a) (b : Nat) : Avoiding E b c a ∨ Avoiding E z b a := by
  induction h with
  | refl hc =>
    by_cases hcb : c = b
    · subst hcb
      exact .inr (.refl hc)
    · exact .inl (.refl hcb)
  | @head a a' ha he _ ih =>
    by_cases hab : a = b
    · subst hab
      exact .inr (.refl ha)
    · exact ih.imp (.head hab he) (.head ha he)

end Avoiding

/-- The tree order of the nodes that have a number. -/
inductive Ancestor (root : Nat) (num parent : Nat → Nat) (a : Nat) : Nat → Prop
  | refl : 0 < num a → Ancestor root num parent a a
  | step {b : Nat} : b ≠ root → 0 < num b → Ancestor root num parent a (parent b) →
    Ancestor root num parent a b

lemma Ancestor.left_pos {root : Nat} {num parent : Nat → Nat} {a b : Nat}
    (h : Ancestor root num parent a b) : 0 < num a := by
  induction h with
  | refl h => exact h
  | step _ _ _ ih => exact ih

/-- The tree of a depth-first search: parents come before their children, the numbers of the
descendants of a node have no gaps, and an edge leads to a descendant or to a smaller
number. Nodes with the number 0 are not reached. -/
structure DepthFirst (E : Nat → Nat → Prop) where
  root : Nat
  num : Nat → Nat
  parent : Nat → Nat
  root_pos : 0 < num root
  closed : ∀ {a b}, 0 < num a → E a b → 0 < num b
  num_inj : ∀ {a b}, 0 < num a → num a = num b → a = b
  parent_spec : ∀ {b}, b ≠ root → 0 < num b →
    E (parent b) b ∧ 0 < num (parent b) ∧ num (parent b) < num b
  interval : ∀ {m a b}, Ancestor root num parent m a → num m ≤ num b → num b ≤ num a →
    Ancestor root num parent m b
  descend : ∀ {m a b}, Ancestor root num parent m a → E a b → num m ≤ num b →
    Ancestor root num parent m b

namespace DepthFirst

variable (T : DepthFirst E)

def Anc (a b : Nat) : Prop := Ancestor T.root T.num T.parent a b

variable {T} {a b c m s u v w x z : Nat}

lemma Anc.right_pos (h : T.Anc a b) : 0 < T.num b := by
  cases h with
  | refl h => exact h
  | step _ h _ => exact h

lemma Anc.num_le (h : T.Anc a b) : T.num a ≤ T.num b := by
  induction h with
  | refl _ => exact le_rfl
  | step hne hpos _ ih => exact ih.trans (T.parent_spec hne hpos).2.2.le

lemma Anc.left_pos (h : T.Anc a b) : 0 < T.num a := Ancestor.left_pos h

lemma Anc.trans (h : T.Anc a b) (h' : T.Anc b c) : T.Anc a c := by
  induction h' with
  | refl _ => exact h
  | step hne hpos _ ih => exact .step hne hpos ih

lemma Anc.num_lt (h : T.Anc a b) (hne : a ≠ b) : T.num a < T.num b :=
  lt_of_le_of_ne h.num_le fun heq => hne (T.num_inj h.left_pos heq)

lemma Anc.eq (h : T.Anc a b) (hle : T.num b ≤ T.num a) : a = b :=
  T.num_inj h.left_pos (le_antisymm h.num_le hle)

/-- The ancestors of a node are in line. -/
lemma Anc.linear (ha : T.Anc a c) (hb : T.Anc b c) (hle : T.num a ≤ T.num b) : T.Anc a b := by
  induction hb with
  | refl _ => exact ha
  | @step c hne hpos hb ih =>
    cases ha with
    | refl _ =>
      have hlt := (T.parent_spec hne hpos).2.2
      have hle' : T.num b ≤ T.num (T.parent a) := Anc.num_le hb
      omega
    | step _ _ ha => exact ih ha

/-- The first step from a node down to a descendant. -/
lemma Anc.child (h : T.Anc a b) (hne : a ≠ b) :
    ∃ c, c ≠ T.root ∧ T.parent c = a ∧ T.Anc c b := by
  induction h with
  | refl _ => exact absurd rfl hne
  | @step b hroot hpos _ ih =>
    by_cases hab : a = T.parent b
    · exact ⟨b, hroot, hab.symm, .refl hpos⟩
    · obtain ⟨c, hc, hca, hcb⟩ := ih hab
      exact ⟨c, hc, hca, .step hroot hpos hcb⟩

lemma root_anc (hv : 0 < T.num v) : T.Anc T.root v := by
  induction hn : T.num v using Nat.strong_induction_on generalizing v with
  | _ n ih =>
    by_cases hroot : v = T.root
    · subst hroot
      exact .refl hv
    · obtain ⟨-, hpos, hlt⟩ := T.parent_spec hroot hv
      exact .step hroot hv (ih _ (hn ▸ hlt) hpos rfl)

/-- The way down the tree. -/
lemma Anc.avoiding (h : T.Anc a b) (hz : ∀ x, T.Anc a x → T.Anc x b → x ≠ z) :
    Avoiding E z b a := by
  induction h with
  | refl hpos => exact .refl (hz a (.refl hpos) (.refl hpos))
  | @step b hne hpos h ih =>
    have hb : T.Anc a b := .step hne hpos h
    have hup := ih fun x hax hxb => hz x hax (.step hne hpos hxb)
    exact hup.tail (T.parent_spec hne hpos).1 (hz b hb (.refl hpos))

lemma Anc.avoiding_below (h : T.Anc a b) (hz : T.num z < T.num a) : Avoiding E z b a := by
  refine h.avoiding fun x hx _ => ?_
  rintro rfl
  exact absurd hx.num_le (by omega)

lemma Anc.avoiding_above (h : T.Anc a b) (hz : T.num b < T.num z) : Avoiding E z b a := by
  refine h.avoiding fun x _ hx => ?_
  rintro rfl
  exact absurd hx.num_le (by omega)

/-! ### Semidominators -/

/-- A path from the argument to `w` whose inner nodes have numbers above that of `w`. -/
inductive HighPath (T : DepthFirst E) (w : Nat) : Nat → Prop
  | edge {v : Nat} : E v w → HighPath T w v
  | cons {v x : Nat} : E v x → T.num w < T.num x → HighPath T w x → HighPath T w v

/-- The node with the least number from which a high path leads to `w`. -/
structure IsSemi (T : DepthFirst E) (s w : Nat) : Prop where
  pos : 0 < T.num s
  path : T.HighPath w s
  lt : T.num s < T.num w
  least : ∀ {x}, 0 < T.num x → T.HighPath w x → T.num s ≤ T.num x

/-- A high path that starts below a node of smaller number stays below it. -/
lemma HighPath.anc (h : T.HighPath w a) (hm : T.Anc m a) (hle : T.num m ≤ T.num w) :
    T.Anc m w := by
  induction h with
  | edge he => exact T.descend hm he hle
  | cons he hlt _ ih => exact ih (T.descend hm he (hle.trans hlt.le))

/-- The least inner node of a high path is above the last one. -/
lemma HighPath.split (h : T.HighPath w v) (hv : 0 < T.num v) :
    E v w ∨ ∃ m y, T.HighPath m v ∧ T.num w < T.num m ∧ T.Anc m y ∧ E y w := by
  induction h with
  | edge he => exact .inl he
  | @cons v x he hlt h ih =>
    have hx := T.closed hv he
    refine .inr ?_
    obtain hedge | ⟨m, y, hm, hwm, hmy, hy⟩ := ih hx
    · exact ⟨x, x, .edge he, hlt, .refl hx, hedge⟩
    · by_cases hxm : T.num m < T.num x
      · exact ⟨m, y, .cons he hxm hm, hwm, hmy, hy⟩
      · have hanc : T.Anc x m := hm.anc (.refl hx) (not_lt.1 hxm)
        exact ⟨x, y, .edge he, hlt, hanc.trans hmy, hy⟩

lemma HighPath.up (h : T.HighPath w v) (ha : T.Anc u v) (hlt : T.num w < T.num u) :
    T.HighPath w u := by
  induction ha with
  | refl _ => exact h
  | @step b hne hpos ha ih =>
    have hb : T.num u ≤ T.num b := Anc.num_le (.step hne hpos ha)
    exact ih (.cons (T.parent_spec hne hpos).1 (hlt.trans_le hb) h)

/-- A high path to `u` goes on below `u` to a predecessor of `w`, and to `w`. -/
lemma HighPath.extend (h : T.HighPath u x) (hlt : T.num w < T.num u) (ha : T.Anc u v)
    (he : E v w) : T.HighPath w x := by
  have htree : T.HighPath w u := HighPath.up (.edge he) ha hlt
  induction h with
  | edge he' => exact .cons he' hlt htree
  | cons he' hlt' _ ih => exact .cons he' (hlt.trans hlt') ih

lemma IsSemi.anc (h : T.IsSemi s w) : T.Anc s w := h.path.anc (.refl h.pos) h.lt.le

lemma HighPath.avoiding (h : T.HighPath w v) (hv : v ≠ z) (hw : w ≠ z)
    (hz : T.num z ≤ T.num w) : Avoiding E z w v := by
  induction h with
  | edge he => exact .head hv he (.refl hw)
  | @cons v x he hlt _ ih =>
    have hx : x ≠ z := by
      rintro rfl
      omega
    exact .head hv he (ih hx)

/-- A walk to `w` that avoids its ancestor `z` comes from a smaller number than that of `z` by
a high path to a node between the two. -/
lemma detour (hz : T.Anc z w) (hne : w ≠ z) (h : Avoiding E z w b) (hb : 0 < T.num b) :
    (∃ x y, 0 < T.num x ∧ T.num x < T.num z ∧ T.Anc z y ∧ y ≠ z ∧ T.Anc y w ∧ T.HighPath y x) ∨
      (T.num z < T.num b ∧ ∃ y, T.Anc z y ∧ y ≠ z ∧ T.Anc y w ∧
        (b = y ∨ (T.num y < T.num b ∧ T.HighPath y b))) := by
  induction h with
  | refl _ => exact .inr ⟨hz.num_lt hne.symm, w, hz, hne, .refl hz.right_pos, .inl rfl⟩
  | @head b c hbz he hc ih =>
    obtain hfound | ⟨hzc, y, hzy, hyz, hyw, hcy⟩ := ih (T.closed hb he)
    · exact .inl hfound
    · have hpath : T.HighPath y b := by
        obtain rfl | ⟨hlt, hcy⟩ := hcy
        · exact .edge he
        · exact .cons he hlt hcy
      by_cases hbz' : T.num b < T.num z
      · exact .inl ⟨b, y, hb, hbz', hzy, hyz, hyw, hpath⟩
      have hzb : T.num z < T.num b :=
        lt_of_le_of_ne (not_lt.1 hbz') fun heq => hbz (T.num_inj hz.left_pos heq).symm
      refine .inr ⟨hzb, ?_⟩
      by_cases hyb : T.num y < T.num b
      · exact ⟨y, hzy, hyz, hyw, .inr ⟨hyb, hpath⟩⟩
      · -- the walk stays below `b`, which is then between `z` and `w` itself
        have hbw : T.Anc b w := (hpath.anc (.refl hb) (not_lt.1 hyb)).trans hyw
        exact ⟨b, hz.linear hbw hzb.le, hbz, hbw, .inl rfl⟩

/-! ### Dominators -/

/-- Every walk from the root to `b`, which is reached, meets `a`. -/
def Dom (T : DepthFirst E) (a b : Nat) : Prop := 0 < T.num b ∧ ¬Avoiding E a b T.root

/-- The dominator next above `w`. -/
structure IsIdom (T : DepthFirst E) (d w : Nat) : Prop where
  dom : T.Dom d w
  ne : d ≠ w
  below : ∀ {a}, T.Dom a w → a ≠ w → T.Dom a d

lemma Dom.anc (h : T.Dom a b) : T.Anc a b := by
  by_contra hab
  refine h.2 ((root_anc h.1).avoiding fun x _ hxb => ?_)
  rintro rfl
  exact hab hxb

lemma Dom.refl (hb : 0 < T.num b) : T.Dom b b := ⟨hb, fun h => h.right_ne rfl⟩

lemma Dom.trans (h : T.Dom a b) (h' : T.Dom b c) : T.Dom a c := by
  refine ⟨h'.1, fun hac => ?_⟩
  obtain hbc | hab := hac.split b
  · exact h'.2 hbc
  · exact h.2 hab

/-- The strict dominators of a node are above its semidominator. -/
lemma IsSemi.anc_of_dom (hs : T.IsSemi s w) (hd : T.Dom a w) (hne : a ≠ w) : T.Anc a s := by
  by_contra has
  have hroot : Avoiding E a s T.root := by
    refine (root_anc hs.pos).avoiding fun x _ hxs => ?_
    rintro rfl
    exact has hxs
  exact hd.2 (hroot.trans (hs.path.avoiding hroot.right_ne hne.symm hd.anc.num_le))

/-- If no node between has a smaller one, the semidominator is the immediate dominator. -/
theorem IsSemi.isIdom (hs : T.IsSemi s w)
    (hle : ∀ {u x}, T.Anc u w → T.num s < T.num u → 0 < T.num x → T.HighPath u x →
      T.num s ≤ T.num x) : T.IsIdom s w := by
  have hne : s ≠ w := by
    rintro rfl
    exact lt_irrefl _ hs.lt
  refine ⟨⟨hs.anc.right_pos, fun h => ?_⟩, hne, fun {a} ha haw => ⟨hs.pos, fun h => ?_⟩⟩
  · obtain ⟨x, y, hx, hxs, hsy, hys, hyw, hyx⟩ | ⟨hlt, -⟩ := detour hs.anc hne.symm h T.root_pos
    · exact absurd (hle hyw (hsy.num_lt hys.symm) hx hyx) (by omega)
    · exact absurd (root_anc hs.pos).num_le (by omega)
  · exact ha.2 (h.trans (hs.path.avoiding h.right_ne haw.symm ha.anc.num_le))

/-- The node with the least semidominator between `w` and its semidominator has the same
strict dominators as `w`. -/
lemma IsSemi.dom_iff (hs : T.IsSemi s w) (hu : T.Anc u w) (hsu : T.num s < T.num u)
    {r : Nat} (hr : T.IsSemi r u)
    (hle : ∀ {u' x}, T.Anc u' w → T.num s < T.num u' → 0 < T.num x → T.HighPath u' x →
      T.num r ≤ T.num x) : (T.Dom a w ∧ a ≠ w) ↔ (T.Dom a u ∧ a ≠ u) := by
  have hsu' : T.Anc s u := hs.anc.linear hu hsu.le
  constructor
  · rintro ⟨ha, hne⟩
    have has := hs.anc_of_dom ha hne
    have hau : T.num a < T.num u := has.num_le.trans_lt hsu
    refine ⟨⟨hu.left_pos, fun h => ?_⟩, fun heq => absurd hau (by rw [heq]; exact lt_irrefl _)⟩
    exact ha.2 (h.trans (hu.avoiding_below hau))
  · rintro ⟨ha, hne⟩
    have har := hr.anc_of_dom ha hne
    have hau := ha.anc.num_lt hne
    have haw : w ≠ a := by
      rintro rfl
      exact absurd hu.num_le (by omega)
    refine ⟨⟨hu.right_pos, fun h => ?_⟩, haw.symm⟩
    obtain ⟨x, y, hx, hxa, hay, hya, hyw, hyx⟩ | ⟨hlt, -⟩ :=
      detour (ha.anc.trans hu) haw h T.root_pos
    · -- `y` is above the semidominator of `w`, so it is a way to `u` that avoids `a`
      have hys : T.num y ≤ T.num s := by
        by_contra hsy
        have := hle hyw (not_le.1 hsy) hx hyx
        have := har.num_le
        omega
      have hyu : T.Anc y u := (hyw.linear hs.anc hys).trans hsu'
      have hax : Avoiding E a x T.root := (root_anc hx).avoiding_above hxa
      have hxy : Avoiding E a y x := hyx.avoiding hax.right_ne hya hay.num_le
      exact ha.2 (hax.trans (hxy.trans (hyu.avoiding_below (hay.num_lt hya.symm))))
    · exact absurd (root_anc ha.anc.left_pos).num_le (by omega)

theorem IsIdom.of_least (h : T.IsIdom z u) (hs : T.IsSemi s w) (hu : T.Anc u w)
    (hsu : T.num s < T.num u) {r : Nat} (hr : T.IsSemi r u)
    (hle : ∀ {u' x}, T.Anc u' w → T.num s < T.num u' → 0 < T.num x → T.HighPath u' x →
      T.num r ≤ T.num x) : T.IsIdom z w := by
  have hiff {a : Nat} : (T.Dom a w ∧ a ≠ w) ↔ (T.Dom a u ∧ a ≠ u) := hs.dom_iff hu hsu hr hle
  obtain ⟨hdom, hne⟩ := hiff.2 ⟨h.dom, h.ne⟩
  exact ⟨hdom, hne, fun ha haw => (hiff.1 ⟨ha, haw⟩).elim h.below⟩

end DepthFirst

end ThreeAddress.Dominators
