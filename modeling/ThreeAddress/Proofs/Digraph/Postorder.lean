import ThreeAddress.Proofs.Digraph.Reachable

/-!
The postorder is that of a depth-first search.

The search keeps a stack of tasks, where a node may stand more than once. What it does until a
task and all that comes of it are done is a visit of the node, which calls itself for the
successors. A visit finishes a node when it has entered all that the node leads to, except what
was entered before. So an edge from a finished node leads to one that was finished earlier, or to
one that was open at the time and leads back.
-/

namespace ThreeAddress

namespace Traversal

variable {succ : Nat → List Nat} {n fuel node a b : Nat} {w w' w'' : Walk}
  {tops tops' added added' : List Nat}

/-- Visits `node` and what it leads to among the nodes not yet entered. At most `fuel`
nodes are open at a time, which the number of nodes bounds. -/
def visit (succ : Nat → List Nat) : (fuel : Nat) → Walk → Nat → Walk
  | 0, w, _ => w
  | fuel + 1, w, node =>
    if w.entered.domain ≤ node ∨ w.entered.contains node then w
    else
      let inner := (succ node).foldl (visit succ fuel)
        { w with entered := w.entered.insert node }
      { inner with finished := inner.finished.push node }

/-- Successors lead from `a` to `b`. -/
abbrev LeadsTo (succ : Nat → List Nat) : Nat → Nat → Prop :=
  Relation.ReflTransGen fun a b => b ∈ succ a

/-- Visits of the nodes `tops` have taken the search from `w` to `w'`. They have finished the
nodes `added`, in this order, and no others were entered. -/
structure Explores (succ : Nat → List Nat) (n : Nat) (tops added : List Nat) (w w' : Walk) :
    Prop where
  within : w'.entered.Over n
  finished : w'.finished.toList = w.finished.toList ++ added
  entered : ∀ b, w'.entered.contains b = true ↔ w.entered.contains b = true ∨ b ∈ added
  fresh : ∀ b ∈ added, w.entered.contains b = false
  nodup : added.Nodup
  reached : ∀ b ∈ added, ∃ a ∈ tops, LeadsTo succ a b
  closed : ∀ a ∈ added, ∀ b ∈ succ a, w'.entered.contains b = true
  order : added.Pairwise fun a b => b ∈ succ a → LeadsTo succ b a

lemma Explores.none (hw : w.entered.Over n) : Explores succ n tops [] w w where
  within := hw
  finished := by simp
  entered := by simp
  fresh := by simp
  nodup := .nil
  reached := by simp
  closed := by simp
  order := .nil

lemma Explores.trans (h : Explores succ n tops added w w')
    (h' : Explores succ n tops' added' w' w'') :
    Explores succ n (tops ++ tops') (added ++ added') w w'' where
  within := h'.within
  finished := by rw [h'.finished, h.finished, List.append_assoc]
  entered b := by rw [h'.entered, h.entered, List.mem_append, or_assoc]
  fresh b hb := by
    obtain hb | hb := List.mem_append.1 hb
    · exact h.fresh b hb
    · have hnot := h'.fresh b hb
      rw [← Bool.not_eq_true, h.entered, not_or] at hnot
      exact Bool.not_eq_true _ ▸ hnot.1
  nodup := by
    refine List.nodup_append.2 ⟨h.nodup, h'.nodup, ?_⟩
    rintro b hb _ hb' rfl
    have hin := (h.entered b).2 (.inr hb)
    rw [h'.fresh b hb'] at hin
    cases hin
  reached b hb := by
    obtain hb | hb := List.mem_append.1 hb
    · obtain ⟨a, ha, hab⟩ := h.reached b hb
      exact ⟨a, List.mem_append_left _ ha, hab⟩
    · obtain ⟨a, ha, hab⟩ := h'.reached b hb
      exact ⟨a, List.mem_append_right _ ha, hab⟩
  closed a ha b hb := by
    obtain ha | ha := List.mem_append.1 ha
    · exact (h'.entered b).2 (.inl (h.closed a ha b hb))
    · exact h'.closed a ha b hb
  order := by
    refine List.pairwise_append.2 ⟨h.order, h'.order, fun a ha b hb hab => ?_⟩
    -- the first visits have entered all that their nodes lead to
    have hin := h.closed a ha b hab
    rw [h'.fresh b hb] at hin
    cases hin

lemma Explores.card_le (hw : w.entered.Over n) (h : Explores succ n tops added w w') :
    (w.entered.elements n).card ≤ (w'.entered.elements n).card := by
  refine Finset.card_le_card fun b hb => ?_
  rw [h.within.mem_elements, h.entered]
  exact .inl ((hw.mem_elements b).1 hb)

/-- A new node is finished behind all that its successors lead to. -/
lemma Explores.enter (hw : w.entered.Over n) (hnode : node < n)
    (hnew : w.entered.contains node = false)
    (h : Explores succ n (succ node) added { w with entered := w.entered.insert node } w')
    (hsucc : ∀ b ∈ succ node, w'.entered.contains b = true) :
    Explores succ n [node] (added ++ [node]) w
      { w' with finished := w'.finished.push node } := by
  have hinsert (b : Nat) :
      (w.entered.insert node).contains b = true ↔ w.entered.contains b = true ∨ b = node := by
    rw [BitSet.contains_insert hw, and_iff_left hnode]
  have hleads : ∀ b ∈ added, LeadsTo succ node b := fun b hb => by
    obtain ⟨a, ha, hab⟩ := h.reached b hb
    exact .head ha hab
  refine ⟨h.within, ?_, fun b => ?_, fun b hb => ?_, ?_, fun b hb => ?_, fun a ha b hb => ?_, ?_⟩
  · rw [Array.toList_push, h.finished, List.append_assoc]
  · rw [h.entered, hinsert, List.mem_append, List.mem_singleton, or_assoc, or_comm (a := b = node)]
  · obtain hb | hb := List.mem_append.1 hb
    · have hnot := h.fresh b hb
      rw [← Bool.not_eq_true, hinsert, not_or] at hnot
      exact Bool.not_eq_true _ ▸ hnot.1
    · exact List.mem_singleton.1 hb ▸ hnew
  · refine List.nodup_append.2 ⟨h.nodup, List.nodup_singleton _, ?_⟩
    rintro b hb _ hb' rfl
    have hnot := h.fresh b hb
    rw [(hinsert b).2 (.inr (List.mem_singleton.1 hb'))] at hnot
    cases hnot
  · refine ⟨node, List.mem_singleton_self _, ?_⟩
    obtain hb | hb := List.mem_append.1 hb
    · exact hleads b hb
    · rw [List.mem_singleton.1 hb]
  · obtain ha | ha := List.mem_append.1 ha
    · exact h.closed a ha b hb
    · exact hsucc b (List.mem_singleton.1 ha ▸ hb)
  · refine List.pairwise_append.2 ⟨h.order, List.pairwise_singleton _ _, fun a ha b hb _ => ?_⟩
    exact List.mem_singleton.1 hb ▸ hleads a ha

lemma foldl_explores
    (hvisit : ∀ node {w : Walk}, w.entered.Over n → n ≤ (w.entered.elements n).card + fuel →
      (∃ added, Explores succ n [node] added w (visit succ fuel w node)) ∧
        (node < n → (visit succ fuel w node).entered.contains node = true))
    (nodes : List Nat) (hw : w.entered.Over n) (hfuel : n ≤ (w.entered.elements n).card + fuel) :
    (∃ added, Explores succ n nodes added w (nodes.foldl (visit succ fuel) w)) ∧
      ∀ b ∈ nodes, b < n → (nodes.foldl (visit succ fuel) w).entered.contains b = true := by
  induction nodes generalizing w with
  | nil => exact ⟨⟨[], .none hw⟩, by simp⟩
  | cons node nodes ih =>
    obtain ⟨⟨added, hnode⟩, hin⟩ := hvisit node hw hfuel
    have hcard := hnode.card_le hw
    obtain ⟨⟨added', hnodes⟩, hin'⟩ := ih hnode.within (by omega)
    refine ⟨⟨_, hnode.trans hnodes⟩, fun b hb hlt => ?_⟩
    obtain rfl | hb := List.mem_cons.1 hb
    · exact (hnodes.entered b).2 (.inl (hin hlt))
    · exact hin' b hb hlt

/-- With as many elements as there are nodes, a set has every node. -/
lemma contains_of_card {s : BitSet} (hs : s.Over n) (hcard : n ≤ (s.elements n).card)
    (ha : a < n) : s.contains a = true := by
  have hsub : s.elements n ⊆ Finset.range n := Finset.filter_subset _ _
  have heq := Finset.eq_of_subset_of_card_le hsub (by rwa [Finset.card_range])
  rw [← hs.mem_elements, heq, Finset.mem_range]
  exact ha

section

variable (hsucc : ∀ a, ∀ b ∈ succ a, b < n)

include hsucc

lemma visit_explores (fuel node : Nat) {w : Walk} (hw : w.entered.Over n)
    (hfuel : n ≤ (w.entered.elements n).card + fuel) :
    (∃ added, Explores succ n [node] added w (visit succ fuel w node)) ∧
      (node < n → (visit succ fuel w node).entered.contains node = true) := by
  induction fuel generalizing node w with
  | zero => exact ⟨⟨[], .none hw⟩, contains_of_card hw hfuel⟩
  | succ fuel ih =>
    rw [visit]
    split
    · rename_i hskip
      rw [hw.domain] at hskip
      exact ⟨⟨[], .none hw⟩, fun hlt => hskip.resolve_left (not_le.2 hlt)⟩
    · rename_i hskip
      rw [hw.domain, not_or, not_le, Bool.not_eq_true] at hskip
      obtain ⟨hnode, hnew⟩ := hskip
      have hcard := card_elements_insert hw hnode hnew
      obtain ⟨⟨added, hfold⟩, hin⟩ := foldl_explores (fun node _ => ih node) (succ node)
        (w := { w with entered := w.entered.insert node }) (hw.insert node) (by simp only; omega)
      have henter := hfold.enter hw hnode hnew fun b hb => hin b hb (hsucc node b hb)
      exact ⟨⟨_, henter⟩, fun _ => (henter.entered node).2 (.inr (by simp))⟩

end

/-! ### The stack of tasks -/

/-- The tasks are all done, which takes the search from `w` to `w'`. -/
inductive Runs (succ : Nat → List Nat) : Walk → List Task → Walk → Prop
  | nil {w : Walk} : Runs succ w [] w
  | cons {w w' : Walk} {task : Task} {tasks : List Task} :
    Runs succ (w.perform succ task).1 ((w.perform succ task).2 ++ tasks) w' →
    Runs succ w (task :: tasks) w'

/-- The tasks at hand and those that nodes not yet entered can lead to. -/
def effort (succ : Nat → List Nat) (n : Nat) (w : Walk) (tasks : List Task) : Nat :=
  tasks.length +
    ∑ node ∈ Finset.range n with w.entered.contains node = false, ((succ node).length + 1)

lemma perform_skip (h : w.entered.domain ≤ node ∨ w.entered.contains node = true) :
    w.perform succ (.enter node) = (w, []) := by
  rw [Walk.perform, if_pos h]

lemma perform_enter (h : ¬(w.entered.domain ≤ node ∨ w.entered.contains node = true)) :
    w.perform succ (.enter node) = ({ w with entered := w.entered.insert node },
      ((succ node).filter fun next => !(w.entered.insert node).contains next).map .enter ++
        [.finish node]) := by
  rw [Walk.perform, if_neg h]

lemma perform_over (hw : w.entered.Over n) (task : Task) :
    (w.perform succ task).1.entered.Over n := by
  cases task with
  | finish node => exact hw
  | enter node =>
    by_cases hskip : w.entered.domain ≤ node ∨ w.entered.contains node = true
    · rw [perform_skip hskip]
      exact hw
    · rw [perform_enter hskip]
      exact hw.insert node

/-- A node that is entered gives its part of the effort away. -/
lemma effort_perform (hw : w.entered.Over n) (task : Task) (tasks : List Task) :
    effort succ n (w.perform succ task).1 ((w.perform succ task).2 ++ tasks) <
      effort succ n w (task :: tasks) := by
  cases task with
  | finish node => exact Nat.add_lt_add_right (Nat.lt_succ_self tasks.length) _
  | enter node =>
    by_cases hskip : w.entered.domain ≤ node ∨ w.entered.contains node = true
    · rw [perform_skip hskip]
      exact Nat.add_lt_add_right (Nat.lt_succ_self tasks.length) _
    · rw [perform_enter hskip]
      rw [hw.domain, not_or, not_le, Bool.not_eq_true] at hskip
      obtain ⟨hnode, hnew⟩ := hskip
      have hmem : node ∈ (Finset.range n).filter (w.entered.contains · = false) :=
        Finset.mem_filter.2 ⟨Finset.mem_range.2 hnode, hnew⟩
      have herase : (Finset.range n).filter ((w.entered.insert node).contains · = false) =
          ((Finset.range n).filter (w.entered.contains · = false)).erase node := by
        ext b
        simp only [Finset.mem_filter, Finset.mem_erase, ← Bool.not_eq_true,
          BitSet.contains_insert hw, and_iff_left hnode, not_or]
        tauto
      have hsum := Finset.add_sum_erase _ (fun node => (succ node).length + 1) hmem
      have hlength := List.length_filter_le (fun next => !(w.entered.insert node).contains next)
        (succ node)
      simp only [effort, herase, List.length_append, List.length_map, List.length_cons,
        List.length_nil] at hsum ⊢
      omega

lemma search_nil (fuel : Nat) (w : Walk) : search succ fuel w [] = w := by
  cases fuel <;> rfl

/-- The search does all tasks if its fuel is not less than the effort. -/
lemma Runs.search_eq {tasks : List Task} (h : Runs succ w tasks w') (hw : w.entered.Over n)
    (hfuel : effort succ n w tasks ≤ fuel) : search succ fuel w tasks = w' := by
  induction h generalizing fuel with
  | nil => exact search_nil fuel _
  | @cons w w' task tasks _ ih =>
    have hless : effort succ n _ _ < effort succ n w (task :: tasks) :=
      effort_perform hw task tasks
    obtain ⟨fuel, rfl⟩ := Nat.exists_eq_add_one_of_ne_zero (n := fuel) (by omega)
    exact ih (perform_over hw task) (by omega)

lemma visit_of_entered (h : w.entered.contains node = true) : visit succ fuel w node = w := by
  cases fuel with
  | zero => rfl
  | succ fuel => rw [visit, if_pos (.inr h)]

lemma foldl_runs
    (hvisit : ∀ node {w w' : Walk} {tasks : List Task}, w.entered.Over n →
      n ≤ (w.entered.elements n).card + fuel → Runs succ (visit succ fuel w node) tasks w' →
      Runs succ w (.enter node :: tasks) w')
    (hexplores : ∀ node {w : Walk}, w.entered.Over n → n ≤ (w.entered.elements n).card + fuel →
      ∃ added, Explores succ n [node] added w (visit succ fuel w node))
    (nodes : List Nat) {tasks : List Task} (hw : w.entered.Over n)
    (hfuel : n ≤ (w.entered.elements n).card + fuel)
    (h : Runs succ (nodes.foldl (visit succ fuel) w) tasks w') :
    Runs succ w (nodes.map .enter ++ tasks) w' := by
  induction nodes generalizing w with
  | nil => exact h
  | cons node nodes ih =>
    obtain ⟨added, hnode⟩ := hexplores node hw hfuel
    have hcard := hnode.card_le hw
    exact hvisit node hw hfuel (ih hnode.within (by omega) h)

section

variable (hsucc : ∀ a, ∀ b ∈ succ a, b < n)

include hsucc

/-- What was entered before the successors are visited may be left out. -/
lemma foldl_visit_filter {old : BitSet} (nodes : List Nat) (hw : w.entered.Over n)
    (hfuel : n ≤ (w.entered.elements n).card + fuel)
    (hold : ∀ b, old.contains b = true → w.entered.contains b = true) :
    (nodes.filter fun next => !old.contains next).foldl (visit succ fuel) w =
      nodes.foldl (visit succ fuel) w := by
  induction nodes generalizing w with
  | nil => rfl
  | cons node nodes ih =>
    cases hcontains : old.contains node with
    | true =>
      rw [List.filter_cons_of_neg (by simp [hcontains]), List.foldl_cons,
        visit_of_entered (hold node hcontains)]
      exact ih hw hfuel hold
    | false =>
      rw [List.filter_cons_of_pos (by simp [hcontains]), List.foldl_cons, List.foldl_cons]
      obtain ⟨⟨added, hnode⟩, -⟩ := visit_explores hsucc fuel node hw hfuel
      have hcard := hnode.card_le hw
      exact ih hnode.within (by omega) fun b hb => (hnode.entered b).2 (.inl (hold b hb))

/-- The task to enter a node, with all that comes of it, is a visit. -/
lemma visit_runs (fuel node : Nat) {w w' : Walk} {tasks : List Task} (hw : w.entered.Over n)
    (hfuel : n ≤ (w.entered.elements n).card + fuel)
    (h : Runs succ (visit succ fuel w node) tasks w') : Runs succ w (.enter node :: tasks) w' := by
  induction fuel generalizing node w w' tasks with
  | zero =>
    refine .cons ?_
    rw [perform_skip]
    · exact h
    · rw [hw.domain]
      exact (le_or_gt n node).imp_right (contains_of_card hw hfuel)
  | succ fuel ih =>
    refine .cons ?_
    by_cases hskip : w.entered.domain ≤ node ∨ w.entered.contains node = true
    · rw [visit, if_pos hskip] at h
      rw [perform_skip hskip]
      exact h
    · rw [visit, if_neg hskip] at h
      rw [perform_enter hskip, List.append_assoc]
      rw [hw.domain, not_or, not_le, Bool.not_eq_true] at hskip
      have hcard := card_elements_insert hw hskip.1 hskip.2
      have hw' := hw.insert node
      have hfuel' : n ≤ ((w.entered.insert node).elements n).card + fuel := by omega
      rw [← foldl_visit_filter hsucc (w := ⟨w.entered.insert node, w.finished⟩) (succ node) hw'
        hfuel' fun _ hb => hb] at h
      exact foldl_runs (fun node _ _ _ hw hfuel h => ih node hw hfuel h)
        (fun node _ hw hfuel => (visit_explores hsucc fuel node hw hfuel).1) _ hw' hfuel' (.cons h)

lemma postorder_eq_visit (start : Nat) :
    postorder n succ start = (visit succ n ⟨BitSet.empty n, #[]⟩ start).finished.toList := by
  have hw := BitSet.empty_over n
  have hruns := visit_runs hsucc n start (w := ⟨BitSet.empty n, #[]⟩) hw (by simp) .nil
  have heffort : effort succ n ⟨BitSet.empty n, #[]⟩ [.enter start] ≤
      n + ((List.range n).flatMap succ).length + 1 := by
    have hall : (Finset.range n).filter ((BitSet.empty n).contains · = false) = Finset.range n :=
      Finset.filter_true_of_mem fun b _ => BitSet.contains_empty n b
    have hedges : ∑ node ∈ Finset.range n, (succ node).length =
        ((List.range n).flatMap succ).length := List.length_flatMap.symm
    have hnodes : ∑ _node ∈ Finset.range n, 1 = n := by simp
    rw [effort, hall, Finset.sum_add_distrib, hedges, hnodes, List.length_singleton]
    omega
  rw [postorder, hruns.search_eq hw heffort]

/-- The postorder is what a visit of the start finishes, and it ends with the start. -/
lemma postorder_explores {start : Nat} (hstart : start < n) :
    ∃ rest w, postorder n succ start = rest ++ [start] ∧
      Explores succ n [start] (rest ++ [start]) ⟨BitSet.empty n, #[]⟩ w := by
  obtain ⟨fuel, rfl⟩ := Nat.exists_eq_add_one_of_ne_zero (Nat.ne_zero_of_lt hstart)
  have hw := BitSet.empty_over (fuel + 1)
  have hcard := card_elements_insert hw hstart (BitSet.contains_empty _ start)
  obtain ⟨⟨added, hfold⟩, hin⟩ := foldl_explores (fun node _ => visit_explores hsucc fuel node)
    (succ start) (w := ⟨(BitSet.empty (fuel + 1)).insert start, #[]⟩) (hw.insert start)
    (by simp only; omega)
  have henter := Explores.enter (w := ⟨BitSet.empty (fuel + 1), #[]⟩) hw hstart
    (BitSet.contains_empty _ start) hfold fun b hb => hin b hb (hsucc start b hb)
  refine ⟨added, _, ?_, henter⟩
  have hskip : ¬((BitSet.empty (fuel + 1)).domain ≤ start ∨
      (BitSet.empty (fuel + 1)).contains start = true) := by
    rw [BitSet.contains_empty, hw.domain]
    simpa using hstart
  rw [postorder_eq_visit hsucc, visit, if_neg hskip, henter.finished]
  rfl

lemma mem_postorder {start : Nat} (hstart : start < n) :
    b ∈ postorder n succ start ↔ LeadsTo succ start b := by
  obtain ⟨rest, w, heq, h⟩ := postorder_explores hsucc hstart
  rw [heq]
  have hentered (b : Nat) : w.entered.contains b = true ↔ b ∈ rest ++ [start] := by
    rw [h.entered, BitSet.contains_empty]
    simp
  constructor
  · intro hb
    obtain ⟨a, ha, hab⟩ := h.reached b hb
    rwa [List.mem_singleton.1 ha] at hab
  · intro hb
    induction hb with
    | refl => simp
    | tail _ hab ih => exact (hentered _).1 (h.closed _ ih _ hab)

end

lemma postorder_of_le {start : Nat} (hstart : n ≤ start) : postorder n succ start = [] := by
  rw [postorder, search, perform_skip (.inl hstart)]
  exact congrArg (fun w : Walk => w.finished.toList) (search_nil _ _)

end Traversal

namespace Digraph

variable {α β : Type} {g : Digraph α β} {start : Nat}

/-- The order lists the nodes that `start` leads to, each once and `start` last. The target of an
edge is listed before its source, unless it leads back to the source. -/
structure Postorder (g : Digraph α β) (start : Nat) (order : List Nat) : Prop where
  mem : ∀ v, v ∈ order ↔ ∃ ns, g.Path start v ns
  nodup : order.Nodup
  last : order.getLast? = some start
  edges : ∀ {u v}, u ∈ order → v ∈ order → g.Joined u v →
    order.idxOf v < order.idxOf u ∨ ∃ ns, g.Path v u ns

/-- No edge among the nodes that `start` leads to is part of a cycle. -/
def AcyclicFrom (g : Digraph α β) (start : Nat) : Prop :=
  ∀ {u v}, (∃ ns, g.Path start u ns) → g.Joined u v → ¬∃ ns, g.Path v u ns

/-- Of two items of a list in which earlier ones are related to later ones, the first is behind
the second or related to it. -/
lemma idxOf_lt_or {R : Nat → Nat → Prop} {l : List Nat} (h : l.Pairwise R) {a b : Nat}
    (ha : a ∈ l) (hb : b ∈ l) (hne : a ≠ b) : l.idxOf b < l.idxOf a ∨ R a b := by
  obtain hlt | heq | hlt := lt_trichotomy (l.idxOf a) (l.idxOf b)
  · have hR := List.pairwise_iff_getElem.1 h _ _ (List.idxOf_lt_length_of_mem ha)
      (List.idxOf_lt_length_of_mem hb) hlt
    rw [List.getElem_idxOf, List.getElem_idxOf] at hR
    exact .inr hR
  · exact absurd ((List.idxOf_inj ha).1 heq) hne
  · exact .inl hlt

lemma leadsTo_iff {a b : Nat} : Traversal.LeadsTo g.succ a b ↔ ∃ ns, g.Path a b ns := by
  rw [exists_path_iff]
  simp only [Traversal.LeadsTo, mem_succ]

lemma succ_lt (hg : g.Built) : ∀ a, ∀ b ∈ g.succ a, b < g.nodeCount := fun _ _ h =>
  (hg.lt (mem_succ.1 h)).2

lemma mem_postorder (hg : g.Built) (hstart : start < g.nodeCount) (v : Nat) :
    v ∈ g.postorder start ↔ ∃ ns, g.Path start v ns :=
  (Traversal.mem_postorder (succ_lt hg) hstart).trans leadsTo_iff

/-- Where an edge leads forward in the order, its target leads back. -/
lemma postorder_pairwise (hg : g.Built) (hstart : start < g.nodeCount) :
    (g.postorder start).Pairwise fun u v => g.Joined u v → ∃ ns, g.Path v u ns := by
  obtain ⟨rest, w, heq, h⟩ := Traversal.postorder_explores (succ_lt hg) hstart
  rw [postorder, heq]
  exact h.order.imp fun huv hjoined => leadsTo_iff.1 (huv (mem_succ.2 hjoined))

lemma postorder_spec (hg : g.Built) (hstart : start < g.nodeCount) :
    g.Postorder start (g.postorder start) := by
  obtain ⟨rest, w, heq, h⟩ := Traversal.postorder_explores (succ_lt hg) hstart
  refine ⟨mem_postorder hg hstart, ?_, ?_, fun {u v} hu hv huv => ?_⟩
  · rw [postorder, heq]
    exact h.nodup
  · rw [postorder, heq, List.getLast?_concat]
  · by_cases hne : u = v
    · subst hne
      exact .inr ⟨_, .single u⟩
    · exact (idxOf_lt_or (postorder_pairwise hg hstart) hu hv hne).imp_right fun h => h huv

/-- The set of the listed nodes is the one that the search for reachable nodes finds. -/
lemma ofList_postorder (hg : g.Built) (hstart : start < g.nodeCount) :
    BitSet.ofList g.nodeCount (g.postorder start) = g.reachable start := by
  have hempty := BitSet.empty_over g.nodeCount
  refine (hempty.insertAll _).ext (reachable_over hg start) fun v => ?_
  rw [Bool.eq_iff_iff, BitSet.contains_insertAll hempty, contains_reachable hg,
    mem_postorder hg hstart, BitSet.contains_empty]
  refine ⟨fun h => ⟨hstart, (h.resolve_left Bool.false_ne_true).1⟩, fun h => .inr ⟨h.2, ?_⟩⟩
  obtain ⟨ns, hpath⟩ := h.2
  exact hpath.lt hg hstart v hpath.right_mem

/-- Without cycles each edge leads forward in the reversed order. -/
lemma reversePostorder_edges (hg : g.Built) (hstart : start < g.nodeCount)
    (hacyclic : g.AcyclicFrom start) {u v : Nat} (hu : u ∈ g.reversePostorder start)
    (huv : g.Joined u v) : v ∈ g.reversePostorder start ∧
      (g.reversePostorder start).idxOf u < (g.reversePostorder start).idxOf v := by
  have hmem (x : Nat) : x ∈ g.reversePostorder start ↔ ∃ ns, g.Path start x ns :=
    List.mem_reverse.trans (mem_postorder hg hstart x)
  have hpath := (hmem u).1 hu
  have hv : v ∈ g.reversePostorder start := by
    rw [hmem, exists_path_iff]
    exact (exists_path_iff.1 hpath).tail huv
  have hne : v ≠ u := by
    rintro rfl
    exact hacyclic hpath huv ⟨_, .single v⟩
  have hpairwise := List.pairwise_reverse.2 (postorder_pairwise hg hstart)
  exact ⟨hv, (idxOf_lt_or hpairwise hv hu hne).resolve_right fun h => hacyclic hpath huv (h huv)⟩

/-- **The postorder is one.** From a node of the graph it lists what the node leads to, as a set
the same as the search for reachable nodes finds. Reversed it begins with the node, and it is a
topological order if there are no cycles. From a number that is no node, nothing is reached. -/
theorem traversal_orders (hg : g.Built) (start : Nat) :
    (start < g.nodeCount →
      g.Postorder start (g.postorder start) ∧
      BitSet.ofList g.nodeCount (g.postorder start) = g.reachable start ∧
      (g.reversePostorder start).head? = some start ∧
      (g.AcyclicFrom start → ∀ u ∈ g.reversePostorder start, ∀ v, g.Joined u v →
        v ∈ g.reversePostorder start ∧
          (g.reversePostorder start).idxOf u < (g.reversePostorder start).idxOf v)) ∧
    (g.nodeCount ≤ start → g.postorder start = [] ∧ g.reversePostorder start = [] ∧
      g.reachable start = BitSet.empty g.nodeCount) := by
  refine ⟨fun hstart => ?_, fun hstart => ?_⟩
  · have hpost := postorder_spec hg hstart
    refine ⟨hpost, ofList_postorder hg hstart, ?_, fun hacyclic u hu v huv => ?_⟩
    · rw [reversePostorder, Traversal.reversePostorder, List.head?_reverse]
      exact hpost.last
    · exact reversePostorder_edges hg hstart hacyclic hu huv
  · have hnil : g.postorder start = [] := Traversal.postorder_of_le hstart
    refine ⟨hnil, ?_, ?_⟩
    · rw [reversePostorder, Traversal.reversePostorder, ← postorder, hnil]
      rfl
    · rw [reachable, Traversal.reachable, if_neg (not_lt.2 hstart)]

/-- A loop with two ways out of it that are the same, and beside it a fork without a loop. -/
def loopBesideFork : Digraph Unit Unit :=
  (addEdges ⟨#[(), (), (), (), (), ()], #[]⟩
    [(0, 1), (1, 2), (2, 1), (1, 3), (1, 3), (4, 3), (4, 5), (5, 3)] ()).1

lemma loopBesideFork_built : loopBesideFork.Built := by
  have hthree : (⟨#[(), (), ()], #[]⟩ : Digraph Unit Unit).Built :=
    ((Built.empty.addNode ()).addNode ()).addNode ()
  exact (((hthree.addNode ()).addNode ()).addNode ()).addEdges _ ()

lemma loopBesideFork_acyclic : loopBesideFork.AcyclicFrom 4 := by
  have hsucc : ∀ u < 6, (loopBesideFork.reachable 4).contains u = true →
      ∀ v ∈ loopBesideFork.succ u, (loopBesideFork.reachable v).contains u = false := by
    decide +kernel
  intro u v hu huv hback
  obtain ⟨hlt, hlt'⟩ := loopBesideFork_built.lt huv
  have hnot := hsucc u hlt ((contains_reachable loopBesideFork_built 4 u).2 ⟨by decide, hu⟩) v
    (mem_succ.2 huv)
  rw [(contains_reachable loopBesideFork_built v u).2 ⟨hlt', hback⟩] at hnot
  cases hnot

theorem traversal_orders_loopBesideFork : loopBesideFork.Built ∧
    loopBesideFork.Postorder 0 [2, 3, 1, 0] ∧
    loopBesideFork.AcyclicFrom 4 ∧ loopBesideFork.reversePostorder 4 = [4, 5, 3] ∧
    (∀ v, loopBesideFork.Joined 5 v → v ∈ loopBesideFork.reversePostorder 4) ∧
    loopBesideFork.postorder 6 = [] := by
  have h₀ := (traversal_orders loopBesideFork_built 0).1 (by decide)
  have h₄ := (traversal_orders loopBesideFork_built 4).1 (by decide)
  have h₆ := (traversal_orders loopBesideFork_built 6).2 (by decide)
  have hpost : loopBesideFork.postorder 0 = [2, 3, 1, 0] := by decide +kernel
  have hrev : loopBesideFork.reversePostorder 4 = [4, 5, 3] := by decide +kernel
  refine ⟨loopBesideFork_built, hpost ▸ h₀.1, loopBesideFork_acyclic, hrev, fun v hv => ?_, h₆.1⟩
  exact (h₄.2.2.2 loopBesideFork_acyclic 5 (by simp [hrev]) v hv).1

end Digraph

end ThreeAddress
