import ThreeAddress.Proofs.Dominators.Immediate

/-!
Path compression cannot be noticed.

Beside the forest of a search stands a second one, which is linked in the same way and never
compressed. Links, changes of semidominators and queries may come in any order, as long as the
numbers of the linked nodes go down and the semidominator of a linked node stays. Then a query of
the compressed forest answers with a node of the same rank as a walk all the way up the other one,
and this is the least rank on the way up the tree to the first node that is not linked.
-/

namespace ThreeAddress

namespace LinkForest

/-- The nodes that a climb from `v` leaves behind until it stands right below a node that is not
linked. -/
inductive Climbs (f : LinkForest) : Nat → List Nat → Prop
  | stop {v a : Nat} : f.ancestorOf v = some a → f.ancestorOf a = none → Climbs f v []
  | up {v a b : Nat} {path : List Nat} : f.ancestorOf v = some a → f.ancestorOf a = some b →
    Climbs f a path → Climbs f v (v :: path)

/-- Lets `v` skip the node that stands right above it. -/
def shorten (rank : Nat → Nat) (v : Nat) (f : LinkForest) : LinkForest :=
  match f.ancestorOf v with
  | some a => f.skip rank v a
  | none => f

/-- A node of least rank on the way up from `v`, found by walking all the way. -/
def walk (rank : Nat → Nat) (f : LinkForest) : (fuel : Nat) → Nat → Nat
  | 0, v => v
  | fuel + 1, v =>
    match f.ancestorOf v with
    | none => v
    | some a =>
      match f.ancestorOf a with
      | none => v
      | some _ =>
        let u := walk rank f fuel a
        if rank u < rank v then u else v

end LinkForest

namespace Dominators

open LinkForest

/-! ### The way up the tree -/

/-- `x` stands on the way up the tree from `v`, and all the nodes from `v` to `x` are linked. -/
def Numbering.OnWay (dfs : Numbering) (linked : List Nat) (v x : Nat) : Prop :=
  ∃ k, dfs.par^[k] v = x ∧ ∀ j ≤ k, dfs.par^[j] v ∈ linked

namespace Numbering

variable {dfs : Numbering} {linked : List Nat} {v x : Nat}

lemma OnWay.mem (h : dfs.OnWay linked v x) : x ∈ linked := by
  obtain ⟨k, rfl, hk⟩ := h
  exact hk k le_rfl

lemma OnWay.start_mem (h : dfs.OnWay linked v x) : v ∈ linked := by
  obtain ⟨k, -, hk⟩ := h
  exact hk 0 (Nat.zero_le k)

lemma OnWay.refl (hv : v ∈ linked) : dfs.OnWay linked v v := by
  refine ⟨0, rfl, fun j hj => ?_⟩
  obtain rfl := Nat.le_zero.1 hj
  exact hv

/-- A linked node stands on its own way, and the rest is the way of its parent. -/
lemma onWay_iff (hv : v ∈ linked) :
    dfs.OnWay linked v x ↔ x = v ∨ dfs.OnWay linked (dfs.par v) x := by
  constructor
  · rintro ⟨k, rfl, hk⟩
    cases k with
    | zero => exact .inl rfl
    | succ k => exact .inr ⟨k, rfl, fun j hj => hk (j + 1) (Nat.succ_le_succ hj)⟩
  · rintro (rfl | ⟨k, rfl, hk⟩)
    · exact .refl hv
    · refine ⟨k + 1, rfl, fun j hj => ?_⟩
      cases j with
      | zero => exact hv
      | succ j => exact hk j (Nat.le_of_succ_le_succ hj)

end Numbering

/-! ### Two forests -/

/-- What may happen to a search and to a forest that is never compressed. The nodes in `linked`
are linked, the last one first. -/
inductive Interleaves (dfs : Numbering) (size root : Nat) :
    List Nat → Search → LinkForest → Prop
  | start : Interleaves dfs size root [] (.ofSize size root) (.ofSize size)
  | link {linked : List Nat} {s : Search} {plain : LinkForest} {w : Nat} :
    Interleaves dfs size root linked s plain → dfs.reached w → w ≠ root →
    (∀ x ∈ linked, dfs.num w < dfs.num x) →
    Interleaves dfs size root (w :: linked) { s with forest := s.forest.link w (dfs.par w) }
      (plain.link w (dfs.par w))
  | semi {linked : List Nat} {s : Search} {plain : LinkForest} {w : Nat} (x : Nat) :
    Interleaves dfs size root linked s plain → w ∉ linked →
    Interleaves dfs size root linked { s with semi := s.semi.setIfInBounds w x } plain
  | eval {linked : List Nat} {s : Search} {plain : LinkForest} {v : Nat} :
    Interleaves dfs size root linked s plain → dfs.reached v →
    Interleaves dfs size root linked (s.eval dfs v).1 plain
  | record {linked : List Nat} {s : Search} {plain : LinkForest} (bucket : Array (List Nat))
    (idom : Array Nat) : Interleaves dfs size root linked s plain →
    Interleaves dfs size root linked { s with bucket, idom } plain

variable {E : Nat → Nat → Prop} {T : DepthFirst E} {dfs : Numbering} {size : Nat}
  {linked : List Nat} {s : Search} {plain : LinkForest} {v w x : Nat}

/-- One forest holds the linked nodes, with links that may be long, and the other one links each
of them to its parent. -/
structure Mirrors (T : DepthFirst E) (dfs : Numbering) (size : Nat) (linked : List Nat)
    (s : Search) (plain : LinkForest) : Prop where
  forest : Represents T (s.rank dfs) size (· ∈ linked) s.forest
  proper : ∀ {w}, w ∈ linked → w ≠ T.root
  plain_size : plain.ancestor.size = size
  parents : ∀ {v}, 0 < T.num v →
    plain.ancestorOf v = if v ∈ linked then some (T.parent v) else none

lemma Mirrors.start (hT : Matches T dfs size) (root : Nat) :
    Mirrors T dfs size [] (.ofSize size root) (.ofSize size) := by
  refine ⟨.ofSize hT.bound (by simp), by simp, by simp [LinkForest.ofSize], fun {v} hv => ?_⟩
  simp [LinkForest.ofSize, LinkForest.ancestorOf, (hT.bound hv).1]

lemma Mirrors.link (h : Mirrors T dfs size linked s plain) (hT : Matches T dfs size)
    (hpos : 0 < T.num w) (hne : w ≠ T.root) (hw : w ∉ linked) :
    Mirrors T dfs size (w :: linked) { s with forest := s.forest.link w (dfs.par w) }
      (plain.link w (dfs.par w)) := by
  rw [← hT.parent]
  refine ⟨?_, ?_, ?_, fun {v} hv => ?_⟩
  · exact (h.forest.add hpos hw hne).congr fun v => List.mem_cons
  · intro v hv
    rcases List.mem_cons.1 hv with rfl | hv
    · exact hne
    · exact h.proper hv
  · exact Array.size_setIfInBounds.trans h.plain_size
  · have hlt : w < plain.ancestor.size := h.plain_size.symm ▸ (hT.bound hpos).1
    rw [ancestorOf_link _ hlt, h.parents hv]
    by_cases hvw : v = w
    · simp [hvw]
    · simp [hvw]

/-- The semidominator of a node that is not linked plays no part. -/
lemma Mirrors.semi (h : Mirrors T dfs size linked s plain) (hw : w ∉ linked) (x : Nat) :
    Mirrors T dfs size linked { s with semi := s.semi.setIfInBounds w x } plain := by
  refine ⟨h.forest.of_rank fun v hv => ?_, h.proper, h.plain_size, h.parents⟩
  have hne : w ≠ v := fun heq => hw (heq ▸ hv)
  simp [Search.rank, Search.semiOf, Array.getElem?_setIfInBounds_ne hne]

lemma Mirrors.eval (h : Mirrors T dfs size linked s plain) (hv : 0 < T.num v) :
    Mirrors T dfs size linked (s.eval dfs v).1 plain :=
  ⟨(h.forest.eval hv).1, h.proper, h.plain_size, h.parents⟩

/-! ### The compressed forest -/

/-- A link up to a free node leaves out the nodes on the way. -/
lemma Skips.onWay_iff {rank : Nat → Nat} {r best : Nat} (hT : Matches T dfs size)
    (h : Skips T rank (· ∈ linked) v r best) (hr : r ∉ linked)
    (hproper : ∀ {w}, w ∈ linked → w ≠ T.root) :
    dfs.OnWay linked v x ↔ T.Anc x v ∧ T.num r < T.num x := by
  rw [Numbering.OnWay, ← hT.parent]
  constructor
  · rintro ⟨k, rfl, hk⟩
    induction k with
    | zero => exact ⟨.refl h.anc.right_pos, h.lt⟩
    | succ k ih =>
      -- The node below is linked, so it is not the root, and its parent is not `r`.
      obtain ⟨hanc, hlt⟩ := ih fun j hj => hk j (hj.trans k.le_succ)
      have hmem := hk (k + 1) le_rfl
      have hne := hproper (hk k k.le_succ)
      rw [Function.iterate_succ_apply'] at hmem ⊢
      generalize T.parent^[k] v = y at *
      obtain ⟨-, hpos, -⟩ := T.parent_spec hne hanc.left_pos
      refine ⟨(DepthFirst.Anc.trans (.step hne hanc.left_pos (.refl hpos)) hanc), ?_⟩
      have hry : T.Anc r y := h.anc.linear hanc hlt.le
      cases hry with
      | refl => exact absurd hlt (lt_irrefl _)
      | step _ _ hrp =>
        exact DepthFirst.Anc.num_lt hrp fun heq => hr (heq ▸ hmem)
  · rintro ⟨hanc, hlt⟩
    have hlinked : ∀ {z}, T.Anc z v → T.num r < T.num z → z ∈ linked := h.linked
    clear h
    induction hanc with
    | refl hpos =>
      refine ⟨0, rfl, fun j hj => ?_⟩
      obtain rfl := Nat.le_zero.1 hj
      exact hlinked (.refl hpos) hlt
    | @step b hne hpos hx ih =>
      obtain ⟨k, rfl, hk⟩ := ih fun hz => hlinked (.step hne hpos hz)
      refine ⟨k + 1, rfl, fun j hj => ?_⟩
      cases j with
      | zero =>
        have hle := DepthFirst.Anc.num_le (.step hne hpos hx)
        exact hlinked (.refl hpos) (hlt.trans_le hle)
      | succ j => exact hk j (Nat.le_of_succ_le_succ hj)

/-- Compression climbs first, and then lets the nodes that it left behind skip one node each, the
uppermost first. -/
lemma Represents.compress_eq {rank : Nat → Nat} {f : LinkForest} {linked : Nat → Prop}
    (h : Represents T rank size linked f) (fuel : Nat) (hv : linked v) (hfuel : T.num v ≤ fuel) :
    ∃ path, f.Climbs v path ∧ f.compress rank fuel v = path.foldr (shorten rank) f := by
  induction fuel generalizing v with
  | zero =>
    have hpos := h.reached hv
    omega
  | succ fuel ih =>
    obtain ⟨a, ha, hs⟩ := h.link hv
    have hlt := hs.lt
    cases haa : f.ancestorOf a with
    | none => exact ⟨[], .stop ha haa, by simp [LinkForest.compress, ha, haa]⟩
    | some b =>
      have halinked : linked a := (h.linked_iff hs.anc.left_pos).2 ⟨b, haa⟩
      obtain ⟨path, hclimbs, heq⟩ := ih halinked (by omega)
      obtain ⟨-, -, hkept⟩ := h.compress fuel halinked (by omega)
      refine ⟨v :: path, .up ha haa hclimbs, ?_⟩
      have hav : (path.foldr (shorten rank) f).ancestorOf v = some a := by
        rw [← heq, hkept v hlt, ha]
      simp [LinkForest.compress, ha, haa, heq, shorten, hav]

/-! ### The forest that is never compressed -/

lemma Mirrors.walk (h : Mirrors T dfs size linked s plain) (hT : Matches T dfs size)
    (rank : Nat → Nat) (fuel : Nat) (hv : v ∈ linked) (hfuel : T.num v ≤ fuel) :
    dfs.OnWay linked v (plain.walk rank fuel v) ∧
      ∀ x, dfs.OnWay linked v x → rank (plain.walk rank fuel v) ≤ rank x := by
  induction fuel generalizing v with
  | zero =>
    have hpos := h.forest.reached hv
    omega
  | succ fuel ih =>
    obtain ⟨-, hpos, hlt⟩ := T.parent_spec (h.proper hv) (h.forest.reached hv)
    have hup := h.parents (h.forest.reached hv)
    have hup' := h.parents hpos
    rw [if_pos hv] at hup
    rw [LinkForest.walk, hup]
    dsimp only
    by_cases hparent : T.parent v ∈ linked
    · rw [if_pos hparent] at hup'
      obtain ⟨hon, hleast⟩ := ih hparent (by omega)
      rw [hup']
      dsimp only
      set u := plain.walk rank fuel (T.parent v)
      rw [hT.parent] at hon hleast
      refine ⟨?_, fun x hx => ?_⟩
      · rw [Numbering.onWay_iff hv]
        split
        · exact .inr hon
        · exact .inl rfl
      · have hmin : rank (if rank u < rank v then u else v) ≤ rank u ∧
            rank (if rank u < rank v then u else v) ≤ rank v := by
          split <;> omega
        rcases (Numbering.onWay_iff hv).1 hx with rfl | hx
        · exact hmin.2
        · exact hmin.1.trans (hleast x hx)
    · rw [if_neg hparent] at hup'
      rw [hup']
      refine ⟨.refl hv, fun x hx => ?_⟩
      rcases (Numbering.onWay_iff hv).1 hx with rfl | hx
      · exact le_rfl
      · rw [← hT.parent] at hx
        exact absurd hx.start_mem hparent

/-! ### The search itself -/

section

variable {root : Nat} {pred : Nat → List Nat}

/-- The nodes that wait have been reached. -/
def Search.WaitsReached (dfs : Numbering) (s : Search) : Prop :=
  ∀ {p v}, v ∈ s.bucketOf p → dfs.reached v

lemma Interleaves.relax (h : Interleaves dfs size root linked s plain) (hw : w ∉ linked)
    (v : Nat) : Interleaves dfs size root linked (s.relax dfs w v) plain := by
  unfold Search.relax
  split
  · rename_i hv
    dsimp only
    split
    · exact (h.eval hv).semi _ hw
    · exact h.eval hv
  · exact h

lemma Search.bucket_relax (dfs : Numbering) (w : Nat) (s : Search) (v : Nat) :
    (s.relax dfs w v).bucket = s.bucket := by
  unfold Search.relax
  split
  · dsimp only
    split <;> rfl
  · rfl

lemma Interleaves.relaxAll (h : Interleaves dfs size root linked s plain) (hw : w ∉ linked)
    (vs : List Nat) :
    Interleaves dfs size root linked (vs.foldl (Search.relax dfs w) s) plain ∧
      (vs.foldl (Search.relax dfs w) s).bucket = s.bucket := by
  induction vs generalizing s with
  | nil => exact ⟨h, rfl⟩
  | cons v vs ih =>
    obtain ⟨hrest, hbucket⟩ := ih (h.relax hw v)
    exact ⟨hrest, hbucket.trans (Search.bucket_relax dfs w s v)⟩

lemma Interleaves.settleAll (h : Interleaves dfs size root linked s plain) (p : Nat)
    {vs : List Nat} (hvs : ∀ v ∈ vs, dfs.reached v) :
    Interleaves dfs size root linked (vs.foldl (Search.settle dfs p) s) plain ∧
      (vs.foldl (Search.settle dfs p) s).bucket = s.bucket := by
  induction vs generalizing s with
  | nil => exact ⟨h, rfl⟩
  | cons v vs ih =>
    have hv := h.eval (hvs v (by simp))
    obtain ⟨hrest, hbucket⟩ := ih (s := s.settle dfs p v) (hv.record _ _)
      fun x hx => hvs x (by simp [hx])
    exact ⟨hrest, hbucket⟩

lemma Search.mem_bucketOf_modify {bucket : Array (List Nat)} {q r : Nat}
    (hv : v ∈ ((bucket.modify r (· ++ [w])).getD q [])) : v ∈ bucket.getD q [] ∨ v = w := by
  simp only [Array.getD_eq_getD_getElem?, Array.getElem?_modify] at hv ⊢
  split at hv
  · cases hq : bucket[q]? with
    | none => simp [hq] at hv
    | some vs => simpa [hq] using hv
  · exact .inl hv

/-- A node is processed by queries, changes of its own semidominator, and its link. -/
lemma Interleaves.process (h : Interleaves dfs size root linked s plain)
    (hwaits : s.WaitsReached dfs) (hw : dfs.reached w) (hne : w ≠ root)
    (hbelow : ∀ x ∈ linked, dfs.num w < dfs.num x) :
    Interleaves dfs size root (w :: linked) (s.process dfs pred w)
        (plain.link w (dfs.par w)) ∧
      (s.process dfs pred w).WaitsReached dfs := by
  have hnot : w ∉ linked := fun hmem => lt_irrefl _ (hbelow w hmem)
  obtain ⟨h₁, hbucket₁⟩ := h.relaxAll hnot (pred w)
  have hwaits' : (s.linkUp dfs pred w).WaitsReached dfs := by
    intro p v hv
    rcases Search.mem_bucketOf_modify hv with hv | rfl
    · exact hwaits (p := p) (by rwa [hbucket₁] at hv)
    · exact hw
  have h₂ : Interleaves dfs size root (w :: linked) (s.linkUp dfs pred w)
      (plain.link w (dfs.par w)) :=
    (h₁.link hw hne hbelow).record (((pred w).foldl (Search.relax dfs w) s).defer w).bucket
      ((pred w).foldl (Search.relax dfs w) s).idom
  rw [Search.process_eq]
  obtain ⟨h₃, hbucket₃⟩ := (h₂.record
    ((s.linkUp dfs pred w).bucket.setIfInBounds (dfs.par w) [])
    (s.linkUp dfs pred w).idom).settleAll (dfs.par w) fun v hv => hwaits' hv
  refine ⟨h₃, fun {p v} hv => ?_⟩
  rw [Search.bucketOf, hbucket₃, Array.getD_eq_getD_getElem?, Array.getElem?_setIfInBounds] at hv
  split at hv
  · split at hv <;> simp at hv
  · exact hwaits' (p := p) (by rwa [Search.bucketOf, Array.getD_eq_getD_getElem?])

/-- All that the search does to the nodes `ws`, which are last in the order. -/
theorem search_interleaves (hT : Matches T dfs size) {before ws : List Nat} (hbefore : before ≠ [])
    (horder : dfs.order.toList = before ++ ws) :
    ∃ plain, Interleaves dfs size T.root ws
        (ws.foldr (fun w s => Search.process dfs pred s w) (.ofSize size T.root)) plain ∧
      (ws.foldr (fun w s => Search.process dfs pred s w)
        (Search.ofSize size T.root)).WaitsReached dfs := by
  induction ws generalizing before with
  | nil =>
    refine ⟨_, .start, fun {p v} hv => ?_⟩
    simp [Search.bucketOf_ofSize] at hv
  | cons w ws ih =>
    have hnonempty : before ++ [w] ≠ [] := by simp
    obtain ⟨plain, hinter, hwaits⟩ := ih hnonempty (by simpa using horder)
    have hw := hT.num_of_order before horder
    have hlen := List.length_pos_iff.2 hbefore
    refine ⟨_, hinter.process hwaits ?_ ?_ fun x hx => ?_⟩
    · rw [Numbering.reached_iff, ← hT.num]
      omega
    · rintro rfl
      have hroot := hT.num_root
      omega
    · obtain ⟨ws₁, ws₂, rfl⟩ := List.append_of_mem hx
      have hx := hT.num_of_order (before ++ w :: ws₁) (by simpa using horder)
      rw [← hT.num, hw, hx]
      simp only [List.length_append, List.length_cons]
      omega

end

/-! ### Queries -/

section

variable {succ : Nat → List Nat} {root : Nat}

lemma number_matches (hsucc : ∀ a b, b ∈ succ a → b < size) (hroot : root < size) :
    Matches (depthFirst hsucc hroot) (number size succ root) size :=
  ⟨rfl, rfl, number_valid hsucc hroot⟩

lemma Interleaves.mirrors (hsucc : ∀ a b, b ∈ succ a → b < size) (hroot : root < size)
    (h : Interleaves (number size succ root) size root linked s plain) :
    Mirrors (depthFirst hsucc hroot) (number size succ root) size linked s plain := by
  have hT := number_matches hsucc hroot
  induction h with
  | start => exact .start hT root
  | link _ hw hne hbelow ih =>
    refine ih.link hT (Numbering.reached_iff.1 hw) hne fun hmem => ?_
    exact lt_irrefl _ (hbelow _ hmem)
  | semi x _ hw ih => exact ih.semi hw x
  | eval _ hv ih => exact ih.eval (Numbering.reached_iff.1 hv)
  | record bucket idom _ ih => exact ⟨ih.forest, ih.proper, ih.plain_size, ih.parents⟩

/-- **Path compression answers the least rank**, however links, changes of semidominators and other
queries have come before a query: a node that is not linked answers for itself; from a linked node
the climb ends, the answer is a node of least rank on the way up the tree to the first node that is
not linked, and a forest that is never compressed yields the same rank. -/
theorem Interleaves.eval_least (hsucc : ∀ a b, b ∈ succ a → b < size) (hroot : root < size)
    (h : Interleaves (number size succ root) size root linked s plain)
    (hv : (number size succ root).reached v) :
    (v ∉ linked → s.eval (number size succ root) v = (s, v)) ∧
      (v ∈ linked →
        (∃ path, s.forest.Climbs v path ∧ (s.eval (number size succ root) v).1.forest =
          path.foldr (shorten (s.rank (number size succ root))) s.forest) ∧
        (number size succ root).OnWay linked v (s.eval (number size succ root) v).2 ∧
        (∀ x, (number size succ root).OnWay linked v x →
          s.rank (number size succ root) (s.eval (number size succ root) v).2 ≤
            s.rank (number size succ root) x) ∧
        s.rank (number size succ root) (s.eval (number size succ root) v).2 =
          s.rank (number size succ root)
            (plain.walk (s.rank (number size succ root)) size v)) := by
  have hT := number_matches hsucc hroot
  have hmirrors := h.mirrors hsucc hroot
  have hpos : 0 < (number size succ root).num v := Numbering.reached_iff.1 hv
  obtain ⟨-, hfree, hlinked⟩ := hmirrors.forest.eval hpos
  refine ⟨fun hnot => ?_, fun hmem => ?_⟩
  · rw [Search.eval, hfree hnot]
  · obtain ⟨r, hr, hskips⟩ := hlinked hmem
    have hway {x : Nat} := hskips.onWay_iff (x := x) hT hr hmirrors.proper
    have hon := hway.2 ⟨hskips.best_anc, hskips.best_lt⟩
    have hleast (x : Nat) (hx : (number size succ root).OnWay linked v x) :=
      hskips.least (hway.1 hx).1 (hway.1 hx).2
    obtain ⟨hwalk, hwalkleast⟩ := hmirrors.walk hT (s.rank (number size succ root)) size hmem
      (hT.bound hpos).2
    refine ⟨?_, hon, hleast, le_antisymm (hleast _ hwalk) (hwalkleast _ hon)⟩
    obtain ⟨path, hclimbs, heq⟩ := hmirrors.forest.compress_eq size hmem (hT.bound hpos).2
    refine ⟨path, hclimbs, ?_⟩
    obtain ⟨a, ha, -⟩ := hmirrors.forest.link hmem
    rw [Search.eval, LinkForest.eval, ha, hmirrors.forest.ancestor_size]
    exact heq

/-- A way of six nodes; the first is the root. -/
def lineOfSix (v : Nat) : List Nat := if v < 5 then [v + 1] else []

/-- The search after the last three nodes of `lineOfSix` have been linked and asked for, the third
node has been found to have the root as its semidominator, and it has been linked as well. -/
def compressedLine : Search :=
  let dfs := number 6 lineOfSix 0
  let s := Search.ofSize 6 0
  let s := { s with forest := ((s.forest.link 5 4).link 4 3).link 3 2 }
  let s := (s.eval dfs 5).1
  let s := { s with semi := s.semi.setIfInBounds 2 0 }
  { s with forest := s.forest.link 2 1 }

/-- The last node has come to stand below the third one by then, and the node in between is
skipped by a later query. -/
theorem Interleaves.eval_least_lineOfSix :
    compressedLine.forest.ancestorOf 5 = some 2 ∧
      (compressedLine.eval (number 6 lineOfSix 0) 5).1.forest.ancestorOf 5 = some 1 ∧
      (compressedLine.eval (number 6 lineOfSix 0) 5).2 = 2 ∧
      (number 6 lineOfSix 0).OnWay [2, 3, 4, 5] 5 2 ∧
      ∀ x, (number 6 lineOfSix 0).OnWay [2, 3, 4, 5] 5 x →
        1 ≤ compressedLine.rank (number 6 lineOfSix 0) x := by
  have hsucc : ∀ a b, b ∈ lineOfSix a → b < 6 := by
    intro a b hb
    unfold lineOfSix at hb
    split at hb
    · obtain rfl := List.mem_singleton.1 hb
      omega
    · simp at hb
  have h₀ : Interleaves (number 6 lineOfSix 0) 6 0 [] _ _ := .start
  have h₁ := (h₀.link (w := 5) (by decide +kernel) (by decide) (by simp)).link
    (w := 4) (by decide +kernel) (by decide) (by decide +kernel)
  have h₂ := (h₁.link (w := 3) (by decide +kernel) (by decide) (by decide +kernel)).eval
    (v := 5) (by decide +kernel)
  have h₃ := (h₂.semi (w := 2) 0 (by decide)).link
    (w := 2) (by decide +kernel) (by decide) (by decide +kernel)
  have hs : compressedLine.rank (number 6 lineOfSix 0)
      (compressedLine.eval (number 6 lineOfSix 0) 5).2 = 1 := by decide +kernel
  have hu : (compressedLine.eval (number 6 lineOfSix 0) 5).2 = 2 := by decide +kernel
  obtain ⟨-, hon, hleast, -⟩ :=
    (Interleaves.eval_least hsucc (by decide) h₃ (v := 5) (by decide +kernel)).2 (by decide)
  refine ⟨by decide +kernel, by decide +kernel, hu, ?_, fun x hx => ?_⟩
  · rw [← hu]
    exact hon
  · rw [← hs]
    exact hleast x hx

end

end Dominators

end ThreeAddress
