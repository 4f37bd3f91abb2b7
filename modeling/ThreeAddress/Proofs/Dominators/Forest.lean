import ThreeAddress.Proofs.Dominators.DepthFirst

/-!
The link forest finds what is least on the way up the tree.

Some of the nodes are linked. The forest may skip nodes on the way up, but the best node that it
keeps for a link stands for all the nodes that the link skips. Compression only makes links
longer.
-/

namespace ThreeAddress.Dominators

variable {E : Nat → Nat → Prop}

/-- A link from `v` up to `a` along linked nodes, of which `best` has the least rank. -/
structure Skips (T : DepthFirst E) (rank : Nat → Nat) (linked : Nat → Prop) (v a best : Nat) :
    Prop where
  anc : T.Anc a v
  lt : T.num a < T.num v
  linked : ∀ {x}, T.Anc x v → T.num a < T.num x → linked x
  best_anc : T.Anc best v
  best_lt : T.num a < T.num best
  least : ∀ {x}, T.Anc x v → T.num a < T.num x → rank best ≤ rank x

/-- Two links, one above the other, make one link. -/
lemma Skips.trans {T : DepthFirst E} {rank : Nat → Nat} {linked : Nat → Prop}
    {v a r best best' : Nat} (h : Skips T rank linked v a best)
    (h' : Skips T rank linked a r best') :
    Skips T rank linked v r (if rank best' < rank best then best' else best) := by
  have hcases {x : Nat} (hx : T.Anc x v) : T.num a < T.num x ∨ T.Anc x a := by
    by_cases hlt : T.num a < T.num x
    · exact .inl hlt
    · exact .inr (hx.linear h.anc (not_lt.1 hlt))
  refine ⟨h'.anc.trans h.anc, h'.lt.trans h.lt, fun hx hlt => ?_, ?_, ?_, fun {x} hx hlt => ?_⟩
  · obtain hax | hxa := hcases hx
    · exact h.linked hx hax
    · exact h'.linked hxa hlt
  · split
    · exact h'.best_anc.trans h.anc
    · exact h.best_anc
  · split
    · exact h'.best_lt
    · exact h'.lt.trans h.best_lt
  · have hmin : rank (if rank best' < rank best then best' else best) ≤ rank best ∧
        rank (if rank best' < rank best then best' else best) ≤ rank best' := by
      split <;> omega
    obtain hax | hxa := hcases hx
    · exact hmin.1.trans (h.least hx hax)
    · exact hmin.2.trans (h'.least hxa hlt)

/-- The forest holds the linked nodes. -/
structure Represents (T : DepthFirst E) (rank : Nat → Nat) (size : Nat) (linked : Nat → Prop)
    (f : LinkForest) : Prop where
  ancestor_size : f.ancestor.size = size
  best_size : f.best.size = size
  bound : ∀ {v}, 0 < T.num v → v < size ∧ T.num v ≤ size
  reached : ∀ {v}, linked v → 0 < T.num v
  free : ∀ {v}, 0 < T.num v → ¬linked v → f.ancestorOf v = none ∧ f.bestOf v = v
  link : ∀ {v}, linked v → ∃ a, f.ancestorOf v = some a ∧ Skips T rank linked v a (f.bestOf v)

section

variable {T : DepthFirst E} {rank rank' : Nat → Nat} {size : Nat} {linked linked' : Nat → Prop}
  {f : LinkForest} {v w a : Nat}

lemma Represents.ofSize (hbound : ∀ {v}, 0 < T.num v → v < size ∧ T.num v ≤ size)
    (hnone : ∀ v, ¬linked v) : Represents T rank size linked (.ofSize size) := by
  refine ⟨by simp [LinkForest.ofSize], by simp [LinkForest.ofSize], hbound,
    fun {v} hv => absurd hv (hnone v), fun {v} hv _ => ?_, fun {v} hv => absurd hv (hnone v)⟩
  have hlt := (hbound hv).1
  simp [LinkForest.ofSize, LinkForest.ancestorOf, LinkForest.bestOf, hlt]

lemma Represents.congr (h : Represents T rank size linked f) (hiff : ∀ v, linked' v ↔ linked v) :
    Represents T rank size linked' f := by
  obtain rfl : linked' = linked := funext fun v => propext (hiff v)
  exact h

/-- Only the ranks of linked nodes matter. -/
lemma Represents.of_rank (h : Represents T rank size linked f)
    (hr : ∀ x, linked x → rank' x = rank x) : Represents T rank' size linked f := by
  refine ⟨h.ancestor_size, h.best_size, h.bound, h.reached, h.free, fun hv => ?_⟩
  obtain ⟨a, ha, hs⟩ := h.link hv
  refine ⟨a, ha, hs.anc, hs.lt, hs.linked, hs.best_anc, hs.best_lt, fun hx hlt => ?_⟩
  rw [hr _ (hs.linked hs.best_anc hs.best_lt), hr _ (hs.linked hx hlt)]
  exact hs.least hx hlt

lemma ancestorOf_link (a : Nat) (hv : v < f.ancestor.size) (x : Nat) :
    (f.link v a).ancestorOf x = if x = v then some a else f.ancestorOf x :=
  getD_setIfInBounds hv _ _ x

/-- One more node is linked. -/
lemma Represents.add (h : Represents T rank size linked f) (hpos : 0 < T.num w) (hw : ¬linked w)
    (hne : w ≠ T.root) :
    Represents T rank size (fun x => x = w ∨ linked x) (f.link w (T.parent w)) := by
  obtain ⟨-, hparent, hlt⟩ := T.parent_spec hne hpos
  have hlink := ancestorOf_link (f := f) (T.parent w)
    (by rw [h.ancestor_size]; exact (h.bound hpos).1)
  have hbest (x : Nat) : (f.link w (T.parent w)).bestOf x = f.bestOf x := rfl
  have hself {x : Nat} (hx : T.Anc x w) (hpx : T.num (T.parent w) < T.num x) : x = w := by
    cases hx with
    | refl _ => rfl
    | step _ _ hx =>
      have hle : T.num x ≤ T.num (T.parent w) := DepthFirst.Anc.num_le hx
      omega
  refine ⟨?_, h.best_size, h.bound, ?_, fun {v} hv hnot => ?_, fun {v} hv => ?_⟩
  · exact Array.size_setIfInBounds.trans h.ancestor_size
  · rintro v (rfl | hv)
    · exact hpos
    · exact h.reached hv
  · rw [not_or] at hnot
    rw [hlink, if_neg hnot.1]
    exact h.free hv hnot.2
  · by_cases hvw : v = w
    · subst hvw
      refine ⟨T.parent v, by rw [hlink, if_pos rfl], ?_⟩
      rw [hbest, (h.free hpos hw).2]
      refine ⟨.step hne hpos (.refl hparent), hlt, fun hx hpx => .inl (hself hx hpx), .refl hpos,
        hlt, fun hx hpx => ?_⟩
      rw [hself hx hpx]
    · obtain ⟨a, ha, hs⟩ := h.link (hv.resolve_left hvw)
      exact ⟨a, by rw [hlink, if_neg hvw, ha], hs.anc, hs.lt,
        fun hx hax => .inr (hs.linked hx hax), hs.best_anc, hs.best_lt, hs.least⟩

lemma ancestorOf_skip (rank : Nat → Nat) (a : Nat) (hv : v < f.ancestor.size) (x : Nat) :
    (f.skip rank v a).ancestorOf x = if x = v then f.ancestorOf a else f.ancestorOf x :=
  getD_setIfInBounds hv _ _ x

lemma bestOf_skip (rank : Nat → Nat) (a : Nat) (hv : v < f.best.size) (x : Nat) :
    (f.skip rank v a).bestOf x =
      if x = v then if rank (f.bestOf a) < rank (f.bestOf v) then f.bestOf a else f.bestOf v
      else f.bestOf x := by
  by_cases hlt : rank (f.bestOf a) < rank (f.bestOf v)
  · have hbest : (f.skip rank v a).best = f.best.setIfInBounds v (f.bestOf a) := if_pos hlt
    rw [LinkForest.bestOf, hbest, getD_setIfInBounds hv, if_pos hlt]
    rfl
  · have hbest : (f.skip rank v a).best = f.best := if_neg hlt
    rw [LinkForest.bestOf, hbest, if_neg hlt]
    split
    · subst x
      rfl
    · rfl

/-- A node may skip the node above it. -/
lemma Represents.skip (h : Represents T rank size linked f) (hv : linked v)
    (ha : f.ancestorOf v = some a) (halinked : linked a) :
    Represents T rank size linked (f.skip rank v a) := by
  have hlt := (h.bound (h.reached hv)).1
  have hanc := ancestorOf_skip rank a (h.ancestor_size.symm ▸ hlt)
  have hbest := bestOf_skip rank a (h.best_size.symm ▸ hlt)
  refine ⟨?_, ?_, h.bound, h.reached, fun {x} hx hnot => ?_, fun {x} hx => ?_⟩
  · exact Array.size_setIfInBounds.trans h.ancestor_size
  · unfold LinkForest.skip
    dsimp only
    split
    · exact Array.size_setIfInBounds.trans h.best_size
    · exact h.best_size
  · have hxv : x ≠ v := by
      rintro rfl
      exact hnot hv
    rw [hanc, hbest, if_neg hxv, if_neg hxv]
    exact h.free hx hnot
  · rw [hanc, hbest]
    by_cases hxv : x = v
    · subst hxv
      rw [if_pos rfl, if_pos rfl]
      obtain ⟨a', ha', hs⟩ := h.link hv
      obtain rfl : a = a' := Option.some.inj (ha.symm.trans ha')
      obtain ⟨r, hr, hs'⟩ := h.link halinked
      exact ⟨r, hr, hs.trans hs'⟩
    · rw [if_neg hxv, if_neg hxv]
      exact h.link hx

lemma Represents.linked_iff (h : Represents T rank size linked f) (hv : 0 < T.num v) :
    linked v ↔ ∃ a, f.ancestorOf v = some a := by
  refine ⟨fun hlinked => ?_, fun ⟨a, ha⟩ => ?_⟩
  · obtain ⟨a, ha, -⟩ := h.link hlinked
    exact ⟨a, ha⟩
  · by_contra hnot
    simp [(h.free hv hnot).1] at ha

/-- A compressed way leads to a free node at once. Nothing changes below its start. -/
lemma Represents.compress (h : Represents T rank size linked f) (fuel : Nat)
    (hv : linked v) (hfuel : T.num v ≤ fuel) :
    Represents T rank size linked (f.compress rank fuel v) ∧
      (∃ r, (f.compress rank fuel v).ancestorOf v = some r ∧ ¬linked r) ∧
      ∀ x, T.num v < T.num x → (f.compress rank fuel v).ancestorOf x = f.ancestorOf x := by
  induction fuel generalizing v with
  | zero =>
    have hpos := h.reached hv
    omega
  | succ fuel ih =>
    obtain ⟨a, ha, hs⟩ := h.link hv
    rw [LinkForest.compress, ha]
    dsimp only
    cases haa : f.ancestorOf a with
    | none =>
      refine ⟨h, ⟨a, ha, fun hlinked => ?_⟩, fun _ _ => rfl⟩
      obtain ⟨r, hr⟩ := (h.linked_iff hs.anc.left_pos).1 hlinked
      simp [haa] at hr
    | some r =>
      have halinked : linked a := (h.linked_iff hs.anc.left_pos).2 ⟨r, haa⟩
      have hlt := hs.lt
      obtain ⟨h₁, ⟨r', hr', hfree⟩, hkept⟩ := ih halinked (by omega)
      have ha₁ := (hkept v hs.lt).trans ha
      have hanc := ancestorOf_skip rank a
        (h₁.ancestor_size.symm ▸ (h.bound (h.reached hv)).1)
      refine ⟨h₁.skip hv ha₁ halinked, ⟨r', by rw [hanc, if_pos rfl, hr'], hfree⟩,
        fun x hx => ?_⟩
      have hxv : x ≠ v := by
        rintro rfl
        omega
      rw [hanc, if_neg hxv, hkept x (by omega)]

/-- A query answers with a node of least rank among the linked ones on the way up to the first
free node. -/
lemma Represents.eval (h : Represents T rank size linked f) (hv : 0 < T.num v) :
    Represents T rank size linked (f.eval rank v).1 ∧
      (¬linked v → f.eval rank v = (f, v)) ∧
      (linked v → ∃ r, ¬linked r ∧ Skips T rank linked v r (f.eval rank v).2) := by
  unfold LinkForest.eval
  cases ha : f.ancestorOf v with
  | none =>
    refine ⟨h, fun _ => rfl, fun hlinked => ?_⟩
    obtain ⟨a, ha'⟩ := (h.linked_iff hv).1 hlinked
    simp [ha] at ha'
  | some a =>
    have hlinked : linked v := (h.linked_iff hv).2 ⟨a, ha⟩
    obtain ⟨h₁, ⟨r, hr, hfree⟩, -⟩ := h.compress f.ancestor.size hlinked
      (h.ancestor_size.symm ▸ (h.bound hv).2)
    obtain ⟨r', hr', hs⟩ := h₁.link hlinked
    obtain rfl : r = r' := Option.some.inj (hr.symm.trans hr')
    exact ⟨h₁, fun hnot => absurd hlinked hnot, fun _ => ⟨r, hfree, hs⟩⟩

end

end ThreeAddress.Dominators
