import ThreeAddress.Proofs.Dominators.Search

/-!
The whole search: nodes are processed from the last in the order to the second, and the sweep
goes from the second to the last. When it meets a node, the nodes above have their immediate
dominators already.
-/

namespace ThreeAddress.Dominators

variable {E : Nat → Nat → Prop} {T : DepthFirst E} {dfs : Numbering} {size root : Nat}
  {pred : Nat → List Nat}

lemma Matches.bound (hT : Matches T dfs size) {v : Nat} (hv : 0 < T.num v) :
    v < size ∧ T.num v ≤ size := by
  rw [hT.num] at hv ⊢
  refine ⟨hT.valid.lt hv, ?_⟩
  have hsub : dfs.order.toList ⊆ List.range size := fun x hx =>
    List.mem_range.2 (hT.valid.lt (hT.valid.pos_of_mem hx))
  have hle := (hT.valid.nodup.subperm hsub).length_le
  exact (hT.valid.num_le v).trans (by simpa using hle)

/-- The number of a node is its place in the order. -/
lemma Matches.num_of_order (hT : Matches T dfs size) (before : List Nat) {ws : List Nat}
    {w : Nat} (h : dfs.order.toList = before ++ w :: ws) : T.num w = before.length + 1 := by
  rw [hT.num]
  refine hT.valid.order_iff.1 ?_
  rw [← Array.getElem?_toList, h]
  simp

lemma Matches.num_root (hT : Matches T dfs size) : T.num T.root = 1 := by
  have hpos := T.root_pos
  have hne : dfs.order.toList ≠ [] := by
    intro hnil
    have hle := hT.valid.num_le T.root
    rw [← hT.num, ← Array.length_toList, hnil] at hle
    exact absurd hle (by simpa using hpos.ne')
  obtain ⟨v, vs, hv⟩ := List.exists_cons_of_ne_nil hne
  have hone : T.num v = 1 := hT.num_of_order [] hv
  have hle := (DepthFirst.root_anc (T := T) (v := v) (by omega)).num_le
  omega

namespace Search

lemma semiOf_ofSize (size root v : Nat) : (ofSize size root).semiOf v = v := by
  by_cases hv : v < size <;> simp [ofSize, semiOf, hv]

lemma bucketOf_ofSize (size root p : Nat) : (ofSize size root).bucketOf p = [] := by
  by_cases hp : p < size <;> simp [ofSize, bucketOf, hp]

lemma searched_ofSize (hT : Matches T dfs size) (root : Nat) :
    Searched T dfs size dfs.order.size (ofSize size root) := by
  have hle (v : Nat) : T.num v ≤ dfs.order.size := by
    rw [hT.num]
    exact hT.valid.num_le v
  refine ⟨by simp [ofSize], by simp [ofSize], by simp [ofSize], .ofSize hT.bound fun v => (hle v).not_gt,
    fun {v} hv => absurd (hle v) (not_le.2 hv), fun _ _ => semiOf_ofSize size root _,
    fun {p v} hv => ?_, fun {v} hv => absurd (hle v) (not_le.2 hv)⟩
  rw [bucketOf_ofSize] at hv
  simp at hv

/-- The nodes `ws`, which are last in the order, have been processed. -/
lemma searched_foldr (root : Nat) (hT : Matches T dfs size)
    (hpred : ∀ {v w}, 0 < T.num v → 0 < T.num w → (v ∈ pred w ↔ E v w))
    (before ws : List Nat) (hbefore : before ≠ [])
    (horder : dfs.order.toList = before ++ ws) :
    Searched T dfs size before.length
      (ws.foldr (fun w s => s.process dfs pred w) (ofSize size root)) := by
  induction ws generalizing before with
  | nil =>
    have hsize : before.length = dfs.order.size := by
      rw [← Array.length_toList, horder, List.append_nil]
    rw [hsize]
    exact searched_ofSize hT root
  | cons w ws ih =>
    have hw := hT.num_of_order before horder
    have hrest := ih (before ++ [w]) (by simp) (by simpa using horder)
    rw [List.length_append, List.length_singleton] at hrest
    refine hrest.process hT hw ?_ fun hv => hpred hv (by omega)
    rintro rfl
    have hlen := List.length_pos_iff.2 hbefore
    have hroot := hT.num_root
    omega

/-- At the end no node waits. -/
lemma Searched.implicit {s : Search} (h : Searched T dfs size 1 s) {v : Nat}
    (hv : 1 < T.num v) : Implicit T s.semiOf v (s.idomOf v) := by
  obtain ⟨-, hlast⟩ | ⟨himp, -⟩ := h.settled hv
  · have hsemi := h.semi hv
    have hne : s.semiOf v ≠ v := fun heq => absurd hsemi.lt (by rw [heq]; exact lt_irrefl _)
    obtain ⟨c, hc, hpar, hcv⟩ := hsemi.anc.child hne
    obtain ⟨-, hpos, hlt⟩ := T.parent_spec hc hcv.left_pos
    have hvc : T.num v < T.num c := hlast (by omega) hpar
    exact absurd hcv.num_le (not_le.2 hvc)
  · exact himp

/-! ### The sweep -/

/-- What holds when the sweep has passed the nodes with numbers up to `limit`. -/
structure Swept (T : DepthFirst E) (size limit : Nat) (s : Search) : Prop where
  idom_size : s.idom.size = size
  semi : ∀ {v}, 1 < T.num v → T.IsSemi (s.semiOf v) v
  idom : ∀ {v}, 1 < T.num v → T.num v ≤ limit → T.IsIdom (s.idomOf v) v
  implicit : ∀ {v}, limit < T.num v → Implicit T s.semiOf v (s.idomOf v)

lemma Searched.swept {s : Search} (h : Searched T dfs size 1 s) : Swept T size 1 s :=
  ⟨h.idom_size, h.semi, fun hv hle => absurd hv (not_lt.2 hle), h.implicit⟩

section

variable {limit w : Nat} {s s' : Search}

/-- `d` is found for `w`. -/
lemma Swept.next (h : Swept T size limit s) (hw : T.num w = limit + 1)
    (hsize : s'.idom.size = size) (hsemi : s'.semiOf = s.semiOf) {d : Nat}
    (hidom : ∀ x, s'.idomOf x = if x = w then d else s.idomOf x) (hd : T.IsIdom d w) :
    Swept T size (limit + 1) s' := by
  have hother {x : Nat} (hx : x ≠ w) : s'.idomOf x = s.idomOf x := (hidom x).trans (if_neg hx)
  refine ⟨hsize, fun hv => hsemi ▸ h.semi hv, fun {v} hv hle => ?_, fun {v} hv => ?_⟩
  · by_cases hvw : v = w
    · rw [hidom, if_pos hvw, hvw]
      exact hd
    · have hne : T.num v ≠ T.num w := fun heq => hvw (T.num_inj (by omega) heq)
      rw [hother hvw]
      exact h.idom hv (by omega)
  · have hvw : v ≠ w := by
      rintro rfl
      omega
    rw [hsemi, hother hvw]
    exact h.implicit (by omega)

/-- One more node is swept. -/
lemma Swept.finish (hT : Matches T dfs size) (hlimit : 0 < limit) (h : Swept T size limit s)
    (hw : T.num w = limit + 1) : Swept T size (limit + 1) (s.finish w) := by
  have hsemi := h.semi (v := w) (by omega)
  have hpos := hsemi.pos
  have hleast {u x : Nat} (hu : T.num (s.semiOf w) < T.num u) (hx : 0 < T.num x)
      (hpath : T.HighPath u x) : T.num (s.semiOf u) ≤ T.num x :=
    (h.semi (by omega)).least hx hpath
  obtain ⟨heq, hle⟩ | ⟨hd, hlt, hdlt, hle⟩ := h.implicit (v := w) (by omega)
  · have hfinish : s.finish w = s := if_pos heq
    rw [hfinish]
    refine h.next hw h.idom_size rfl (d := s.idomOf w) (fun x => ?_) ?_
    · split
      · rename_i hx
        rw [hx]
      · rfl
    · rw [heq]
      exact hsemi.isIdom fun hu hsu hx hpath => (hle hu hsu).trans (hleast hsu hx hpath)
  · set d := s.idomOf w with hd'
    have hne : s.idomOf w ≠ s.semiOf w := by
      intro heq
      rw [hd', heq] at hlt
      exact lt_irrefl _ hlt
    have hfinish : s.finish w = { s with idom := s.idom.setIfInBounds w (s.idomOf d) } :=
      if_neg hne
    rw [hfinish]
    have hwsize : w < s.idom.size := by
      rw [h.idom_size]
      exact (hT.bound (by omega)).1
    have hdw : d ≠ w := by
      intro heq
      rw [heq] at hdlt
      exact lt_irrefl _ hdlt
    have hdnum := hd.num_lt hdw
    refine h.next hw (Array.size_setIfInBounds.trans h.idom_size) rfl
      (fun x => getD_setIfInBounds hwsize _ _ x) ?_
    exact (h.idom (by omega) (by omega)).of_least hsemi hd hlt (h.semi (by omega))
      fun hu hsu hx hpath => (hle hu hsu).trans (hleast hsu hx hpath)

lemma Swept.foldl (hT : Matches T dfs size) (before ws : List Nat) (hbefore : before ≠ [])
    (horder : dfs.order.toList = before ++ ws)
    (h : Swept T size before.length s) :
    Swept T size dfs.order.size (ws.foldl Search.finish s) := by
  induction ws generalizing before s with
  | nil =>
    rw [← Array.length_toList, horder, List.append_nil]
    exact h
  | cons w ws ih =>
    have hstep := h.finish hT (List.length_pos_iff.2 hbefore) (hT.num_of_order before horder)
    exact ih (before ++ [w]) (by simp) (by simpa using horder) (by simpa using hstep)

end

end Search

/-- The search finds the immediate dominator of each node below the root. -/
theorem search_isIdom (hT : Matches T dfs size)
    (hpred : ∀ {v w}, 0 < T.num v → 0 < T.num w → (v ∈ pred w ↔ E v w)) {v : Nat}
    (hne : v ≠ T.root) (hv : 0 < T.num v) :
    T.IsIdom ((search size dfs pred root).idomOf v) v := by
  have hone := hT.num_root
  have hlt : 1 < T.num v := by
    have hne' : T.num T.root ≠ T.num v := fun heq => hne (T.num_inj T.root_pos heq).symm
    omega
  have hle : T.num v ≤ dfs.order.size := by
    rw [hT.num]
    exact hT.valid.num_le v
  have horder : dfs.order.toList = dfs.order.toList.take 1 ++ dfs.order.toList.drop 1 :=
    (List.take_append_drop 1 _).symm
  have hlen : (dfs.order.toList.take 1).length = 1 := by
    rw [List.length_take, Array.length_toList]
    omega
  have hbefore : dfs.order.toList.take 1 ≠ [] := List.ne_nil_of_length_pos (by omega)
  have hsearched := Search.searched_foldr root hT hpred _ _ hbefore horder
  rw [hlen] at hsearched
  have hstart := hsearched.swept
  nth_rewrite 1 [← hlen] at hstart
  have hswept := Search.Swept.foldl hT _ _ hbefore horder hstart
  dsimp only [search]
  rw [List.foldl_reverse]
  exact hswept.idom hlt hle

end ThreeAddress.Dominators
