import ThreeAddress.Proofs.Dominators.Forest

/-!
The search finds the immediate dominators.

Nodes are processed from the highest number down. When `w` is processed the semidominators of
all higher nodes are known, and the link forest gives the least of them above each
predecessor of `w`. A node waits at its semidominator until all the nodes between the two are
linked. Then it gets the semidominator or, if some node between has a smaller one, the best
of these nodes as its dominator for now. The last sweep replaces the latter from the top
down.
-/

namespace ThreeAddress.Dominators

variable {E : Nat → Nat → Prop}

/-- The tree belongs to the numbering. -/
structure Matches (T : DepthFirst E) (dfs : Numbering) (size : Nat) : Prop where
  num : T.num = dfs.num
  parent : T.parent = dfs.par
  valid : dfs.Valid size

/-- The node that a node gets as its dominator before the last sweep. -/
def Implicit (T : DepthFirst E) (semi : Nat → Nat) (v d : Nat) : Prop :=
  (d = semi v ∧ ∀ {u}, T.Anc u v → T.num (semi v) < T.num u →
      T.num (semi v) ≤ T.num (semi u)) ∨
    (T.Anc d v ∧ T.num (semi v) < T.num d ∧ T.num (semi d) < T.num (semi v) ∧
      ∀ {u}, T.Anc u v → T.num (semi v) < T.num u → T.num (semi d) ≤ T.num (semi u))

lemma Implicit.congr {T : DepthFirst E} {semi semi' : Nat → Nat} {v d : Nat}
    (h : Implicit T semi v d) (hv : semi' v = semi v)
    (hu : ∀ {u}, T.Anc u v → T.num (semi v) < T.num u → semi' u = semi u) :
    Implicit T semi' v d := by
  obtain ⟨rfl, hle⟩ | ⟨hd, hlt, hsemi, hle⟩ := h
  · refine .inl ⟨hv.symm, fun hanc hlt => ?_⟩
    rw [hv] at hlt ⊢
    rw [hu hanc hlt]
    exact hle hanc hlt
  · refine .inr ⟨hd, hv ▸ hlt, ?_, fun hanc hlt' => ?_⟩
    · rw [hv, hu hd hlt]
      exact hsemi
    · rw [hv] at hlt'
      rw [hu hd hlt, hu hanc hlt']
      exact hle hanc hlt'

namespace Search

def bucketOf (s : Search) (p : Nat) : List Nat := s.bucket.getD p []

variable {T : DepthFirst E} {dfs : Numbering} {size : Nat} {s s' : Search} {p u v w : Nat}

lemma rank_eq (hT : Matches T dfs size) (s : Search) (v : Nat) :
    s.rank dfs v = T.num (s.semiOf v) := by
  rw [hT.num]
  rfl

/-- What holds when the nodes with numbers above `limit` have been processed. -/
structure Searched (T : DepthFirst E) (dfs : Numbering) (size limit : Nat) (s : Search) :
    Prop where
  semi_size : s.semi.size = size
  bucket_size : s.bucket.size = size
  idom_size : s.idom.size = size
  forest : Represents T (s.rank dfs) size (limit < T.num ·) s.forest
  semi : ∀ {v}, limit < T.num v → T.IsSemi (s.semiOf v) v
  fresh : ∀ {v}, 0 < T.num v → T.num v ≤ limit → s.semiOf v = v
  waiting : ∀ {p v}, v ∈ s.bucketOf p → limit < T.num v ∧ s.semiOf v = p
  settled : ∀ {v}, limit < T.num v →
    (v ∈ s.bucketOf (s.semiOf v) ∧
      ∀ {w}, limit < T.num w → T.parent w = s.semiOf v → T.num v < T.num w) ∨
    (Implicit T s.semiOf v (s.idomOf v) ∧
      ∀ {u}, T.Anc u v → T.num (s.semiOf v) < T.num u → limit < T.num u)

/-! ### Semidominators -/

/-- What holds while `w` is processed and the predecessors in `seen` have been looked at. -/
structure Relaxing (T : DepthFirst E) (dfs : Numbering) (size limit w : Nat) (s₀ : Search)
    (seen : List Nat) (s : Search) : Prop where
  semi_size : s.semi.size = size
  bucket : s.bucket = s₀.bucket
  idom : s.idom = s₀.idom
  forest : Represents T (s.rank dfs) size (limit < T.num ·) s.forest
  other : ∀ {x}, x ≠ w → s.semiOf x = s₀.semiOf x
  pos : 0 < T.num (s.semiOf w)
  le : T.num (s.semiOf w) ≤ T.num w
  path : s.semiOf w = w ∨ T.HighPath w (s.semiOf w)
  below : ∀ {v}, v ∈ seen → 0 < T.num v → T.num v ≤ T.num w →
    T.num (s.semiOf w) ≤ T.num v
  above : ∀ {v x}, v ∈ seen → T.num w < T.num x → T.Anc x v →
    T.num (s.semiOf w) ≤ T.num (s.semiOf x)

lemma semiOf_set {w : Nat} (hw : w < s.semi.size) (y x : Nat) :
    semiOf { s with semi := s.semi.setIfInBounds w y } x = if x = w then y else s.semiOf x :=
  getD_setIfInBounds hw _ _ x

/-- The forest may change without the semidominators. -/
lemma eval_spec (hT : Matches T dfs size) {limit : Nat}
    (h : Represents T (s.rank dfs) size (limit < T.num ·) s.forest) (hv : 0 < T.num v) :
    ∃ f u, s.eval dfs v = ({ s with forest := f }, u) ∧
      Represents T (s.rank dfs) size (limit < T.num ·) f ∧ (T.num v ≤ limit → u = v) ∧
      (limit < T.num v → T.Anc u v ∧ limit < T.num u ∧
        ∀ {x}, T.Anc x v → limit < T.num x → T.num (s.semiOf u) ≤ T.num (s.semiOf x)) := by
  obtain ⟨hf, hfree, hlinked⟩ := h.eval hv
  refine ⟨_, _, rfl, hf, fun hle => congrArg Prod.snd (hfree hle.not_gt), fun hlt => ?_⟩
  obtain ⟨r, hr, hskips⟩ := hlinked hlt
  refine ⟨hskips.best_anc, hskips.linked hskips.best_anc hskips.best_lt, fun hx hxl => ?_⟩
  rw [← rank_eq hT, ← rank_eq hT]
  exact hskips.least hx ((not_lt.1 hr).trans_lt hxl)

section

variable {limit : Nat} {s₀ : Search} {seen : List Nat}

lemma Relaxing.semi (h : Relaxing T dfs size (limit + 1) w s₀ seen s)
    (h₀ : Searched T dfs size (limit + 1) s₀) (hw : T.num w = limit + 1) {x : Nat}
    (hx : T.num w < T.num x) : T.IsSemi (s.semiOf x) x := by
  have hne : x ≠ w := by
    rintro rfl
    exact lt_irrefl _ hx
  rw [h.other hne]
  exact h₀.semi (hw ▸ hx)

/-- What a predecessor `v` of `w` has to offer, where `u` is the answer of the forest. -/
lemma Relaxing.offer (h : Relaxing T dfs size (limit + 1) w s₀ seen s)
    (h₀ : Searched T dfs size (limit + 1) s₀) (hw : T.num w = limit + 1) (hv : E v w)
    (hpos : 0 < T.num v) (hfree : T.num v ≤ limit + 1 → u = v)
    (hlinked : limit + 1 < T.num v → T.Anc u v ∧ limit + 1 < T.num u) :
    0 < T.num (s.semiOf u) ∧ (u ≠ w → T.HighPath w (s.semiOf u)) ∧
      (T.num v ≤ T.num w → T.num (s.semiOf u) ≤ T.num v) := by
  by_cases hle : T.num v ≤ limit + 1
  · obtain rfl := hfree hle
    by_cases huw : u = w
    · subst huw
      exact ⟨h.pos, fun hne => absurd rfl hne, fun _ => h.le⟩
    · rw [h.other huw, h₀.fresh hpos hle]
      exact ⟨hpos, fun _ => .edge hv, fun _ => le_rfl⟩
  · obtain ⟨huv, hu⟩ := hlinked (not_le.1 hle)
    have hsemi := h.semi h₀ hw (x := u) (by omega)
    refine ⟨hsemi.pos, fun _ => hsemi.path.extend (by omega) huv hv, fun hvw => ?_⟩
    omega

/-- The semidominator of `w` is lowered to `y`, or stays. -/
lemma Relaxing.lower (h : Relaxing T dfs size (limit + 1) w s₀ seen s) (hT : Matches T dfs size)
    (hw : T.num w = limit + 1) {y : Nat} (hsize : s'.semi.size = size)
    (hbucket : s'.bucket = s.bucket) (hidom : s'.idom = s.idom)
    (hforest : Represents T (s.rank dfs) size (limit + 1 < T.num ·) s'.forest)
    (hsemi : ∀ x, s'.semiOf x = if x = w then y else s.semiOf x) (hpos : 0 < T.num y)
    (hle : T.num y ≤ T.num (s.semiOf w)) (hpath : y = w ∨ T.HighPath w y)
    (hbelow : T.num v ≤ T.num w → T.num y ≤ T.num v)
    (habove : ∀ {x}, T.num w < T.num x → T.Anc x v → T.num y ≤ T.num (s.semiOf x)) :
    Relaxing T dfs size (limit + 1) w s₀ (v :: seen) s' := by
  have hself : s'.semiOf w = y := (hsemi w).trans (if_pos rfl)
  have hother {x : Nat} (hx : x ≠ w) : s'.semiOf x = s.semiOf x := (hsemi x).trans (if_neg hx)
  have hhigh {x : Nat} (hx : T.num w < T.num x) : s'.semiOf x = s.semiOf x :=
    hother fun heq => lt_irrefl _ (heq ▸ hx)
  refine ⟨hsize, hbucket.trans h.bucket, hidom.trans h.idom, ?_, ?_, ?_, ?_, ?_, ?_, ?_⟩
  · refine hforest.of_rank fun x hx => ?_
    rw [rank_eq hT, rank_eq hT, hhigh (hw ▸ hx)]
  · exact fun hx => (hother hx).trans (h.other hx)
  · rwa [hself]
  · rw [hself]
    exact hle.trans h.le
  · rwa [hself]
  · intro x hx hxpos hxw
    rw [hself]
    obtain rfl | hx := List.mem_cons.1 hx
    · exact hbelow hxw
    · exact hle.trans (h.below hx hxpos hxw)
  · intro x x' hx hx' hanc
    rw [hself, hhigh hx']
    obtain rfl | hx := List.mem_cons.1 hx
    · exact habove hx' hanc
    · exact hle.trans (h.above hx hx' hanc)

/-- One more predecessor is looked at. -/
lemma relax_step (hT : Matches T dfs size) (h₀ : Searched T dfs size (limit + 1) s₀)
    (hw : T.num w = limit + 1) (hv : 0 < T.num v → E v w)
    (h : Relaxing T dfs size (limit + 1) w s₀ seen s) :
    Relaxing T dfs size (limit + 1) w s₀ (v :: seen) (s.relax dfs w v) := by
  unfold relax
  split
  · rename_i hreached
    have hpos : 0 < T.num v := by
      rw [hT.num]
      exact Numbering.reached_iff.1 hreached
    obtain ⟨f, u, he, hf, hfree, hlinked⟩ := eval_spec hT h.forest hpos
    obtain ⟨hupos, hupath, hule⟩ := h.offer h₀ hw (hv hpos) hpos hfree
      fun hlt => ⟨(hlinked hlt).1, (hlinked hlt).2.1⟩
    have habove {x : Nat} (hwx : T.num w < T.num x) (hxv : T.Anc x v) :
        T.num (s.semiOf u) ≤ T.num (s.semiOf x) := by
      have hle := hxv.num_le
      exact (hlinked (by omega)).2.2 hxv (by omega)
    rw [he]
    dsimp only
    have hrank (x : Nat) : rank dfs { s with forest := f } x = T.num (s.semiOf x) :=
      rank_eq hT _ x
    rw [hrank, hrank]
    split
    · rename_i hlt
      have huw : u ≠ w := by
        rintro rfl
        exact lt_irrefl _ hlt
      have hwsize : w < s.semi.size := by
        rw [h.semi_size]
        exact (h.forest.bound (by omega)).1
      exact h.lower hT hw (Array.size_setIfInBounds.trans h.semi_size) rfl rfl hf
        (semiOf_set hwsize _) hupos hlt.le (.inr (hupath huw)) hule habove
    · rename_i hle
      have hle := not_lt.1 hle
      refine h.lower hT hw h.semi_size rfl rfl hf (fun x => ?_) h.pos le_rfl h.path
        (fun hvw => hle.trans (hule hvw)) (fun hx hanc => hle.trans (habove hx hanc))
      split
      · subst x
        rfl
      · rfl
  · rename_i hreached
    have hzero : ¬0 < T.num v := by
      rw [hT.num, ← Numbering.reached_iff]
      exact hreached
    refine ⟨h.semi_size, h.bucket, h.idom, h.forest, h.other, h.pos, h.le, h.path,
      fun {x} hx hpos => ?_, fun {x y} hx hlt hanc => ?_⟩
    · obtain rfl | hx := List.mem_cons.1 hx
      · exact absurd hpos hzero
      · exact h.below hx hpos
    · obtain rfl | hx := List.mem_cons.1 hx
      · exact absurd hanc.right_pos hzero
      · exact h.above hx hlt hanc

lemma relax_foldl (hT : Matches T dfs size) (h₀ : Searched T dfs size (limit + 1) s₀)
    (hw : T.num w = limit + 1) (vs : List Nat) (hvs : ∀ v ∈ vs, 0 < T.num v → E v w)
    (h : Relaxing T dfs size (limit + 1) w s₀ seen s) :
    Relaxing T dfs size (limit + 1) w s₀ (vs.reverse ++ seen) (vs.foldl (relax dfs w) s) := by
  induction vs generalizing s seen with
  | nil => exact h
  | cons v vs ih =>
    have hstep := relax_step hT h₀ hw (hvs v (by simp)) h
    have hrest := ih (fun v' hv' => hvs v' (by simp [hv'])) hstep
    simpa using hrest

lemma Searched.relaxing (h : Searched T dfs size (limit + 1) s) (hw : T.num w = limit + 1) :
    Relaxing T dfs size (limit + 1) w s [] s := by
  have hsemi := h.fresh (v := w) (by omega) hw.le
  refine ⟨h.semi_size, rfl, rfl, h.forest, fun _ => rfl, ?_, ?_, .inl hsemi, by simp, by simp⟩
  · rw [hsemi]
    omega
  · rw [hsemi]

/-- All predecessors together give the semidominator. -/
lemma Relaxing.isSemi (h : Relaxing T dfs size (limit + 1) w s₀ seen s)
    (h₀ : Searched T dfs size (limit + 1) s₀) (hw : T.num w = limit + 1) (hne : w ≠ T.root)
    (hseen : ∀ {v}, 0 < T.num v → E v w → v ∈ seen) : T.IsSemi (s.semiOf w) w := by
  obtain ⟨hedge, hppos, hplt⟩ := T.parent_spec hne (by omega : 0 < T.num w)
  have hlt : T.num (s.semiOf w) < T.num w :=
    (h.below (hseen hppos hedge) hppos hplt.le).trans_lt hplt
  refine ⟨h.pos, h.path.resolve_left fun heq => ?_, hlt, fun {x} hx hpath => ?_⟩
  · rw [heq] at hlt
    exact lt_irrefl _ hlt
  · obtain hxw | ⟨m, y, hmx, hwm, hmy, hyw⟩ := hpath.split hx
    · by_cases hle : T.num x ≤ T.num w
      · exact h.below (hseen hx hxw) hx hle
      · have hsemi := h.semi h₀ hw (not_le.1 hle)
        exact (h.above (hseen hx hxw) (not_le.1 hle) (.refl hx)).trans hsemi.lt.le
    · have hsemi := h.semi h₀ hw hwm
      exact (h.above (hseen hmy.right_pos hyw) hwm hmy).trans (hsemi.least hx hmx)

end

/-! ### Waiting nodes -/

section

variable {limit : Nat}

/-- All the nodes between a waiting node and the parent `p` of `w` are linked. -/
lemma linked_between (hw : T.num w = limit + 1) (hv : limit < T.num v)
    {x : Nat} (hx : T.Anc x v) (hp : T.num (T.parent w) < T.num x) : limit < T.num x := by
  by_contra hle
  have hxw : T.Anc x w := T.interval hx (by omega) (by omega)
  cases hxw with
  | refl _ => omega
  | step _ _ hxp =>
    have hxp : T.num x ≤ T.num (T.parent w) := DepthFirst.Anc.num_le hxp
    omega

/-- What a node gets when it is settled. -/
lemma implicit_of_eval (hw : T.num w = limit + 1) (hne : w ≠ T.root) {semi : Nat → Nat}
    (hsemi : ∀ {v}, limit < T.num v → T.IsSemi (semi v) v) (hv : limit < T.num v)
    (hvp : semi v = T.parent w) (huv : T.Anc u v) (hu : limit < T.num u)
    (hleast : ∀ {x}, T.Anc x v → limit < T.num x → T.num (semi u) ≤ T.num (semi x)) :
    Implicit T semi v (if semi u = semi v then T.parent w else u) := by
  obtain ⟨-, -, hplt⟩ := T.parent_spec hne (by omega : 0 < T.num w)
  have hlinked {x : Nat} (hx : T.Anc x v) (hvx : T.num (semi v) < T.num x) :=
    linked_between hw hv hx (hvp ▸ hvx)
  split
  · rename_i heq
    refine .inl ⟨hvp.symm, fun hx hvx => ?_⟩
    rw [← heq]
    exact hleast hx (hlinked hx hvx)
  · rename_i hne'
    have hle := hleast (.refl huv.right_pos) hv
    refine .inr ⟨huv, ?_, ?_, fun hx hvx => hleast hx (hlinked hx hvx)⟩
    · rw [hvp]
      omega
    · exact lt_of_le_of_ne hle fun heq => hne' (T.num_inj (hsemi hu).pos heq)

/-- What holds while the nodes that wait at `p` are settled. -/
structure Settling (T : DepthFirst E) (dfs : Numbering) (size limit : Nat) (s₀ : Search)
    (done : List Nat) (s : Search) : Prop where
  semi : s.semi = s₀.semi
  bucket : s.bucket = s₀.bucket
  idom_size : s.idom.size = size
  forest : Represents T (s.rank dfs) size (limit < T.num ·) s.forest
  implicit : ∀ {v}, v ∈ done → Implicit T s₀.semiOf v (s.idomOf v)
  kept : ∀ {v}, v ∉ done → s.idomOf v = s₀.idomOf v

lemma settle_step {s₀ : Search} {done : List Nat} (hT : Matches T dfs size)
    (hw : T.num w = limit + 1) (hne : w ≠ T.root)
    (hsemi : ∀ {v}, limit < T.num v → T.IsSemi (s₀.semiOf v) v) (hv : limit < T.num v)
    (hvp : s₀.semiOf v = T.parent w) (h : Settling T dfs size limit s₀ done s) :
    Settling T dfs size limit s₀ (v :: done) (s.settle dfs (T.parent w) v) := by
  have hpos : 0 < T.num v := by omega
  obtain ⟨f, u, he, hf, -, hlinked⟩ := eval_spec hT h.forest hpos
  obtain ⟨huv, hu, hleast⟩ := hlinked hv
  have hsame : s.semiOf = s₀.semiOf := by
    unfold semiOf
    rw [h.semi]
  rw [hsame] at hleast
  have himplicit := implicit_of_eval hw hne hsemi hv hvp huv hu hleast
  have hsize : v < s.idom.size := by
    rw [h.idom_size]
    exact (h.forest.bound hpos).1
  have hidom (x : Nat) : (s.settle dfs (T.parent w) v).idomOf x =
      if x = v then if s₀.semiOf u = s₀.semiOf v then T.parent w else u else s.idomOf x := by
    rw [settle, he, ← hsame]
    exact getD_setIfInBounds hsize _ _ x
  have hrest : (s.settle dfs (T.parent w) v).semi = s.semi ∧
      (s.settle dfs (T.parent w) v).bucket = s.bucket ∧
      (s.settle dfs (T.parent w) v).forest = f ∧
      (s.settle dfs (T.parent w) v).idom.size = s.idom.size := by
    rw [settle, he]
    exact ⟨rfl, rfl, rfl, Array.size_setIfInBounds⟩
  obtain ⟨hs, hb, hforest, hi⟩ := hrest
  refine ⟨hs.trans h.semi, hb.trans h.bucket, hi.trans h.idom_size, ?_, fun {x} hx => ?_,
    fun {x} hx => ?_⟩
  · rw [hforest]
    refine hf.of_rank fun x _ => ?_
    rw [rank_eq hT, rank_eq hT, semiOf, hs]
    rfl
  · rw [hidom]
    split
    · rename_i heq
      exact heq ▸ himplicit
    · rename_i hxv
      exact h.implicit ((List.mem_cons.1 hx).resolve_left hxv)
  · rw [List.mem_cons, not_or] at hx
    rw [hidom, if_neg hx.1]
    exact h.kept hx.2

lemma settle_foldl {s₀ : Search} {done : List Nat} (hT : Matches T dfs size)
    (hw : T.num w = limit + 1) (hne : w ≠ T.root)
    (hsemi : ∀ {v}, limit < T.num v → T.IsSemi (s₀.semiOf v) v) (vs : List Nat)
    (hvs : ∀ v ∈ vs, limit < T.num v ∧ s₀.semiOf v = T.parent w)
    (h : Settling T dfs size limit s₀ done s) :
    Settling T dfs size limit s₀ (vs.reverse ++ done) (vs.foldl (settle dfs (T.parent w)) s) := by
  induction vs generalizing s done with
  | nil => exact h
  | cons v vs ih =>
    obtain ⟨hv, hvp⟩ := hvs v (by simp)
    have hrest := ih (fun v' hv' => hvs v' (by simp [hv'])) (settle_step hT hw hne hsemi hv hvp h)
    simpa using hrest

lemma bucketOf_defer (h : s.semiOf w < s.bucket.size) (q : Nat) :
    (s.defer w).bucketOf q = if q = s.semiOf w then s.bucketOf q ++ [w] else s.bucketOf q := by
  unfold defer bucketOf
  by_cases hq : q = s.semiOf w
  · subst hq
    simp [h, Array.getElem_modify]
  · simp [Array.getElem?_modify, hq, Ne.symm hq]

/-- The state of the search when `w` has been linked, before nodes are settled. -/
def linkUp (dfs : Numbering) (pred : Nat → List Nat) (s : Search) (w : Nat) : Search :=
  let s := ((pred w).foldl (relax dfs w) s).defer w
  { s with forest := s.forest.link w (dfs.par w) }

lemma process_eq (dfs : Numbering) (pred : Nat → List Nat) (s : Search) (w : Nat) :
    s.process dfs pred w = ((s.linkUp dfs pred w).bucketOf (dfs.par w)).foldl
      (settle dfs (dfs.par w))
      { s.linkUp dfs pred w with
        bucket := (s.linkUp dfs pred w).bucket.setIfInBounds (dfs.par w) [] } := rfl

/-- What holds when `w` has been linked. -/
structure Linked (T : DepthFirst E) (dfs : Numbering) (size limit w : Nat) (s s' : Search) :
    Prop where
  semi_size : s'.semi.size = size
  bucket_size : s'.bucket.size = size
  idom : s'.idom = s.idom
  forest : Represents T (s'.rank dfs) size (limit < T.num ·) s'.forest
  semi : ∀ {v}, limit < T.num v → T.IsSemi (s'.semiOf v) v
  other : ∀ {v}, v ≠ w → s'.semiOf v = s.semiOf v
  bucketOf : ∀ q, s'.bucketOf q =
    if q = s'.semiOf w then s.bucketOf q ++ [w] else s.bucketOf q

lemma Searched.linkUp {pred : Nat → List Nat} (hT : Matches T dfs size)
    (h : Searched T dfs size (limit + 1) s) (hw : T.num w = limit + 1) (hne : w ≠ T.root)
    (hpred : ∀ {v}, 0 < T.num v → (v ∈ pred w ↔ E v w)) :
    Linked T dfs size limit w s (s.linkUp dfs pred w) := by
  have hrelax := relax_foldl hT h hw (pred w) (fun v hv hpos => (hpred hpos).1 hv) (h.relaxing hw)
  set s₁ := (pred w).foldl (relax dfs w) s with hs₁
  have hsemi : T.IsSemi (s₁.semiOf w) w :=
    hrelax.isSemi h hw hne fun hpos he => by simpa using (hpred hpos).2 he
  have hlt : s₁.semiOf w < s₁.bucket.size := by
    rw [hrelax.bucket, h.bucket_size]
    exact (hrelax.forest.bound hsemi.pos).1
  refine ⟨hrelax.semi_size, ?_, hrelax.idom, ?_, fun {v} hv => ?_, hrelax.other, fun q => ?_⟩
  · exact Array.size_modify.trans (by rw [hrelax.bucket, h.bucket_size])
  · have hadd := hrelax.forest.add (by omega) (by omega) hne
    rw [hT.parent] at hadd
    refine hadd.congr fun v => ⟨fun hv => ?_, ?_⟩
    · by_cases heq : T.num v = T.num w
      · exact .inl (T.num_inj (by omega) heq)
      · exact .inr (by omega)
    · rintro (rfl | hv) <;> omega
  · by_cases hvw : v = w
    · rw [hvw]
      exact hsemi
    · have hne' : T.num v ≠ T.num w := fun heq => hvw (T.num_inj (by omega) heq)
      exact hrelax.semi h hw (by omega)
  · refine (bucketOf_defer hlt q).trans ?_
    have hb : s₁.bucketOf q = s.bucketOf q := by
      rw [Search.bucketOf, hrelax.bucket, Search.bucketOf]
    rw [hb]
    rfl

lemma Linked.waiting (hl : Linked T dfs size limit w s s')
    (h : Searched T dfs size (limit + 1) s) (hw : T.num w = limit + 1)
    (hv : v ∈ s'.bucketOf p) : limit < T.num v ∧ s'.semiOf v = p := by
  have hbefore (hv : v ∈ s.bucketOf p) : limit < T.num v ∧ s'.semiOf v = p := by
    obtain ⟨hlt, hsemi⟩ := h.waiting hv
    refine ⟨by omega, (hl.other ?_).trans hsemi⟩
    rintro rfl
    omega
  rw [hl.bucketOf] at hv
  split at hv
  · rename_i hp
    obtain hv | hv := List.mem_append.1 hv
    · exact hbefore hv
    · obtain rfl := List.mem_singleton.1 hv
      exact ⟨by omega, hp.symm⟩
  · exact hbefore hv

/-- `w` itself is the only node that comes to wait. -/
lemma Linked.settled (hl : Linked T dfs size limit w s s')
    (h : Searched T dfs size (limit + 1) s) (hw : T.num w = limit + 1) (hv : limit < T.num v) :
    (v ∈ s'.bucketOf (s'.semiOf v) ∧
      ∀ {x}, limit < T.num x → x ≠ w → T.parent x = s'.semiOf v → T.num v < T.num x) ∨
    (Implicit T s'.semiOf v (s'.idomOf v) ∧
      ∀ {u}, T.Anc u v → T.num (s'.semiOf v) < T.num u → limit < T.num u) := by
  have hnext {x : Nat} (hx : limit < T.num x) (hxw : x ≠ w) : limit + 1 < T.num x := by
    have hne : T.num x ≠ T.num w := fun heq => hxw (T.num_inj (by omega) heq)
    omega
  by_cases hvw : v = w
  · subst hvw
    refine .inl ⟨?_, fun hx hxv _ => hw ▸ hnext hx hxv⟩
    rw [hl.bucketOf, if_pos rfl]
    simp
  · rw [hl.other hvw]
    obtain ⟨hmem, hlast⟩ | ⟨himp, hlinked⟩ := h.settled (hnext hv hvw)
    · refine .inl ⟨?_, fun hx hxw hpar => hlast (hnext hx hxw) hpar⟩
      rw [hl.bucketOf]
      split
      · exact List.mem_append_left _ hmem
      · exact hmem
    · have hkept {x : Nat} (hx : limit + 1 < T.num x) : s'.semiOf x = s.semiOf x := by
        refine hl.other ?_
        rintro rfl
        omega
      have hidom : s'.idomOf v = s.idomOf v := by
        rw [idomOf, hl.idom, idomOf]
      rw [hidom]
      refine .inr ⟨himp.congr (hl.other hvw) fun hanc hlt => hkept (hlinked hanc hlt), ?_⟩
      intro x hanc hlt
      exact (Nat.lt_succ_self _).trans (hlinked hanc hlt)

/-- One more node is processed. -/
theorem Searched.process {pred : Nat → List Nat} (hT : Matches T dfs size)
    (h : Searched T dfs size (limit + 1) s) (hw : T.num w = limit + 1) (hne : w ≠ T.root)
    (hpred : ∀ {v}, 0 < T.num v → (v ∈ pred w ↔ E v w)) :
    Searched T dfs size limit (s.process dfs pred w) := by
  have hl := h.linkUp hT hw hne hpred
  obtain ⟨-, hppos, -⟩ := T.parent_spec hne (by omega : 0 < T.num w)
  rw [process_eq, ← hT.parent]
  set s₁ := s.linkUp dfs pred w
  set p := T.parent w
  have hpsize : p < s₁.bucket.size := by
    rw [hl.bucket_size]
    exact (hl.forest.bound hppos).1
  -- The nodes that wait at `p` are taken out before they are settled.
  set s₂ : Search := { s₁ with bucket := s₁.bucket.setIfInBounds p [] }
  have hbucket (q : Nat) : s₂.bucketOf q = if q = p then [] else s₁.bucketOf q :=
    getD_setIfInBounds hpsize _ _ q
  have hstart : Settling T dfs size limit s₂ [] s₂ := by
    refine ⟨rfl, rfl, ?_, hl.forest, by simp, fun _ => rfl⟩
    exact (congrArg Array.size hl.idom).trans h.idom_size
  have hsemi₂ {v : Nat} (hv : limit < T.num v) : T.IsSemi (s₂.semiOf v) v := hl.semi hv
  have hend := settle_foldl hT hw hne hsemi₂ (s₁.bucketOf p)
    (fun v hv => hl.waiting h hw hv) hstart
  set s₃ := (s₁.bucketOf p).foldl (settle dfs p) s₂
  have hsemi : s₃.semiOf = s₁.semiOf := by
    unfold semiOf
    rw [hend.semi]
  have hbucketOf (q : Nat) : s₃.bucketOf q = if q = p then [] else s₁.bucketOf q := by
    rw [← hbucket, bucketOf, hend.bucket]
    rfl
  refine ⟨?_, ?_, hend.idom_size, hend.forest, ?_, fun {v} hpos hle => ?_, fun {q v} hv => ?_,
    fun {v} hv => ?_⟩
  · rw [hend.semi]
    exact hl.semi_size
  · rw [hend.bucket]
    exact Array.size_setIfInBounds.trans hl.bucket_size
  · rw [hsemi]
    exact hl.semi
  · have hvw : v ≠ w := by
      rintro rfl
      omega
    rw [hsemi, hl.other hvw]
    exact h.fresh hpos (by omega)
  · rw [hbucketOf] at hv
    rw [hsemi]
    split at hv
    · simp at hv
    · exact hl.waiting h hw hv
  · rw [hsemi]
    by_cases hvp : v ∈ s₁.bucketOf p
    · have hsv : s₁.semiOf v = p := (hl.waiting h hw hvp).2
      refine .inr ⟨hend.implicit (by simpa using hvp), fun hanc hlt => ?_⟩
      rw [hsv] at hlt
      exact linked_between hw hv hanc hlt
    · have hidom : s₃.idomOf v = s₁.idomOf v := hend.kept (by simpa using hvp)
      rw [hidom]
      refine (hl.settled h hw hv).imp_left fun ⟨hmem, hlast⟩ => ?_
      have hne : s₁.semiOf v ≠ p := fun heq => hvp (heq ▸ hmem)
      rw [hbucketOf, if_neg hne]
      refine ⟨hmem, fun {x} hx hpar => hlast hx ?_ hpar⟩
      rintro rfl
      exact hne hpar.symm

end

end Search

end ThreeAddress.Dominators
