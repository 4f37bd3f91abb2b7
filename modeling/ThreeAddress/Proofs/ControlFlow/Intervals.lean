import ThreeAddress.Proofs.ControlFlow.Edges
import ThreeAddress.Proofs.Digraph.Reachable
import ThreeAddress.Proofs.Dominators.Tree

/-!
The intervals of the control-flow graph. Its entries cut the blocks into intervals, one for each
function that is defined. The entry of an interval leads to all its blocks, and nothing leads
from one interval to another, so that there is no dead block and the entry of an interval
dominates exactly the blocks of the interval.
-/

namespace ThreeAddress

/-! ### Dominators by paths -/

namespace Digraph

variable {α β : Type} {g : Digraph α β} {roots : List Nat} {a b : Nat}

lemma Path.left_mem {ns : List Nat} (h : g.Path a b ns) : a ∈ ns := by
  cases h <;> exact List.mem_cons_self

lemma nodeCount_dominators (g : Digraph α β) (roots : List Nat) :
    (g.dominators roots).nodeCount = g.nodeCount := by
  simp [dominators, DomForest.ofRoots, DomForest.nodeCount]

section

variable (hg : g.Built)

include hg

/-- The roots of the forest are the nodes that nothing else dominates. -/
lemma isRoot_dominators (h : g.Reached roots b) :
    (g.dominators roots).isRoot b = true ↔ ∀ a, g.Dominates roots a b → a = b := by
  rw [DomForest.isRoot, beq_iff_eq]
  obtain ⟨hd, hidom, -⟩ | ⟨d, hroot, hd, hidom, -⟩ := immediate?_cases hg h
  · exact iff_of_true hidom fun a => eq_of_dominates hg hd
  · have hdb : g.Dominates roots d b := (dominates_iff hg).2 ⟨hroot, (h.lt hg).ne, hd.dom⟩
    rw [hidom]
    exact ⟨fun heq => absurd (Option.some.inj heq) hd.ne, fun hall => congrArg some (hall d hdb)⟩

end

end Digraph

/-! ### Sections and their entries -/

namespace Listing

variable {l : Listing} {a b c e : BlockId}

lemma SameSection.symm (h : l.SameSection a b) : l.SameSection b a := fun _ he => (h he).symm

lemma SameSection.trans (h : l.SameSection a b) (hbc : l.SameSection b c) : l.SameSection a c :=
  fun _ he => (h he).trans (hbc he)

/-- An entry is the only one of its section. -/
lemma SameSection.eq_of_entry (h : l.SameSection a b) (ha : l.Entry a) (hb : l.Entry b) :
    a = b :=
  Nat.le_antisymm ((h ha).1 le_rfl) ((h hb).2 le_rfl)

lemma Coherent.entry_lt (h : l.Coherent) (he : l.Entry e) (hpos : 0 < l.blockCount) :
    e < l.blockCount := by
  obtain rfl | ⟨name, f, -, hb⟩ := he
  · exact hpos
  · exact h.labelBlock?_lt hb

/-- Each block is led to by the entry of its section. The induction is on the block: one that is
no entry is entered from a smaller one. -/
lemma Sectioned.exists_entry (hs : l.Sectioned) (h : l.Coherent) (hb : b < l.blockCount) :
    ∃ e, l.Entry e ∧ l.SameSection e b ∧ Relation.ReflTransGen l.Flows e b := by
  induction b using Nat.strong_induction_on with
  | _ b ih =>
    by_cases he : l.Entry b
    · exact ⟨b, he, .refl l b, .refl⟩
    · obtain ⟨a, hlt, hf⟩ := hs.entered (h.bears_iff_lt.2 hb) he
      obtain ⟨e, he, hsame, hleads⟩ := ih a hlt (h.flows_source_lt hf)
      exact ⟨e, he, hsame.trans (hs.flows hf), hleads.tail hf⟩

end Listing

namespace FlowGraph

open Listing ControlFlow

/-- The block `b` lies in the interval of the entry `e`, which is the last entry up to it. -/
def InInterval (g : FlowGraph) (e b : BlockId) : Prop :=
  e ∈ g.entries ∧ e ≤ b ∧ b < g.blockCount ∧ ∀ e' ∈ g.entries, e' ≤ b → e' ≤ e

/-- The entries cut the blocks into intervals that have nothing to do with each other. -/
structure Isolated (g : FlowGraph) : Prop where
  entries : ∀ e, e ∈ g.entries ↔ e = 0 ∨ ∃ name f, g.listing.functions.get? name = some f ∧
    f.defined = true ∧ g.listing.labelBlock? f.label = some e
  placed : ∀ name f, g.listing.functions.get? name = some f → f.defined = true →
    ∃ e, g.listing.labelBlock? f.label = some e
  nonempty : ∀ e ∈ g.entries, g.InInterval e e
  cut : ∀ b < g.blockCount, ∃! e, g.InInterval e b
  contiguous : ∀ e a b c, g.InInterval e a → g.InInterval e c → a ≤ b → b ≤ c → g.InInterval e b
  edges : ∀ edge ∈ g.edges, ∀ e, g.InInterval e edge.source ↔ g.InInterval e edge.target
  reached : ∀ e b, g.InInterval e b → ∃ ns, g.graph.Path e b ns
  vars : ∀ i j x y v, g.listing.instr? i = some x → g.listing.instr? j = some y →
    g.listing.Mentions x.action v → g.listing.Mentions y.action v →
    ∀ e, g.InInterval e x.block ↔ g.InInterval e y.block
  arrays : ∀ i j x y a, g.listing.instr? i = some x → g.listing.instr? j = some y →
    a ∈ x.action.arrayIds → a ∈ y.action.arrayIds →
    ∀ e, g.InInterval e x.block ↔ g.InInterval e y.block

variable {l : Listing} {settings : AnalysisSettings} {b c e : Nat}

lemma mem_entries (hs : l.Sectioned) : e ∈ (drawn l settings).entries ↔ l.Entry e := by
  show e ∈ entriesOf l ↔ _
  rw [entriesOf, Ascending.mem_ofList, List.mem_cons, List.mem_filterMap, Entry]
  refine or_congr Iff.rfl ⟨?_, ?_⟩
  · rintro ⟨⟨name, f⟩, hmem, hb⟩
    exact ⟨name, f, hs.distinct.mem_iff.1 hmem, hb⟩
  · rintro ⟨name, f, hf, hb⟩
    exact ⟨(name, f), hs.distinct.mem_iff.2 hf, hb⟩

section

variable (h : l.Coherent) (hs : l.Sectioned)

include h hs

/-- An interval is a section. -/
lemma inInterval_iff : (drawn l settings).InInterval e b ↔
    l.Entry e ∧ l.SameSection e b ∧ b < l.blockCount := by
  rw [InInterval, blockCount_drawn h, mem_entries hs]
  constructor
  · rintro ⟨he, hle, hb, hlast⟩
    refine ⟨he, fun e' he' => ⟨fun h' => h'.trans hle, ?_⟩, hb⟩
    exact hlast e' ((mem_entries hs).2 he')
  · rintro ⟨he, hsame, hb⟩
    exact ⟨he, (hsame he).1 le_rfl, hb, fun e' he' => (hsame ((mem_entries hs).1 he')).2⟩

lemma inInterval_congr (hsame : l.SameSection b c) (hb : b < l.blockCount)
    (hc : c < l.blockCount) (e : Nat) :
    (drawn l settings).InInterval e b ↔ (drawn l settings).InInterval e c := by
  rw [inInterval_iff h hs, inInterval_iff h hs]
  exact and_congr_right fun _ => ⟨fun ⟨he, _⟩ => ⟨he.trans hsame, hc⟩,
    fun ⟨he, _⟩ => ⟨he.trans hsame.symm, hb⟩⟩

lemma exists_interval (settings : AnalysisSettings) (hb : b < l.blockCount) :
    ∃ e, (drawn l settings).InInterval e b ∧ ∃ ns, (drawn l settings).graph.Path e b ns := by
  obtain ⟨e, he, hsame, hleads⟩ := hs.exists_entry h hb
  refine ⟨e, (inInterval_iff h hs).2 ⟨he, hsame, hb⟩, Digraph.exists_path_iff.2 ?_⟩
  exact Relation.ReflTransGen.mono (fun _ _ => (joined_iff h hs settings).2) _ _ hleads

lemma interval_unique {e' : Nat} (he : (drawn l settings).InInterval e b)
    (he' : (drawn l settings).InInterval e' b) : e' = e := by
  obtain ⟨hentry, hsame, -⟩ := (inInterval_iff h hs).1 he
  obtain ⟨hentry', hsame', -⟩ := (inInterval_iff h hs).1 he'
  exact (hsame'.trans hsame.symm).eq_of_entry hentry' hentry

lemma interval_path (he : (drawn l settings).InInterval e b) :
    ∃ ns, (drawn l settings).graph.Path e b ns := by
  obtain ⟨-, -, hb⟩ := (inInterval_iff h hs).1 he
  obtain ⟨e', he', hpath⟩ := exists_interval h hs settings hb
  exact interval_unique h hs he he' ▸ hpath

/-- A path stays in its section. -/
lemma path_section {ns : List Nat} (hpath : (drawn l settings).graph.Path b c ns) :
    ∀ a ∈ ns, l.SameSection a c := by
  induction hpath with
  | single c => simpa using SameSection.refl l c
  | @cons b c d ns hbd hpath ih =>
    have hdc := ih d hpath.left_mem
    have hbc := (hs.flows ((joined_iff h hs settings).1 hbd)).trans hdc
    intro a ha
    obtain rfl | ha := List.mem_cons.1 ha
    · exact hbc
    · exact ih a ha

theorem drawn_isolated (hpos : 0 < l.blockCount) : (drawn l settings).Isolated where
  entries e := by
    rw [mem_entries hs]
    refine or_congr Iff.rfl ⟨?_, ?_⟩
    · rintro ⟨name, f, hf, hb⟩
      exact ⟨name, f, hf, (hs.defined hf).2 ⟨e, hb⟩, hb⟩
    · rintro ⟨name, f, hf, -, hb⟩
      exact ⟨name, f, hf, hb⟩
  placed name f hf hdef := (hs.defined hf).1 hdef
  nonempty e he := by
    rw [mem_entries hs] at he
    exact (inInterval_iff h hs).2 ⟨he, .refl l e, h.entry_lt he hpos⟩
  cut b hb := by
    rw [blockCount_drawn h] at hb
    obtain ⟨e, he, -⟩ := exists_interval h hs settings hb
    exact ⟨e, he, fun e' he' => interval_unique h hs he he'⟩
  contiguous e a b c ha hc hab hbc := by
    obtain ⟨he, hle, -, -⟩ := ha
    obtain ⟨-, -, hlt, hlast⟩ := hc
    exact ⟨he, hle.trans hab, hbc.trans_lt hlt, fun e' he' h' => hlast e' he' (h'.trans hbc)⟩
  edges edge hedge e := by
    obtain ⟨block, -, hedge⟩ := List.mem_flatMap.1 hedge
    obtain ⟨stored, hstored, rfl⟩ := List.mem_map.1 hedge
    have hjoined : (drawn l settings).graph.Joined stored.source stored.target :=
      ⟨stored, Array.mem_def.2 (List.mem_filter.1 hstored).1, rfl, rfl⟩
    have hf := (joined_iff h hs settings).1 hjoined
    exact inInterval_congr h hs (hs.flows hf) (h.flows_source_lt hf) (h.flows_lt hf) e
  reached e b he := interval_path h hs he
  vars i j x y v hx hy hxv hyv e :=
    inInterval_congr h hs (hs.vars hx hy hxv hyv) (h.bears_iff_lt.1 ⟨i, x, hx, rfl⟩)
      (h.bears_iff_lt.1 ⟨j, y, hy, rfl⟩) e
  arrays i j x y a hx hy hxa hya e :=
    inInterval_congr h hs (hs.arrays hx hy hxa hya) (h.bears_iff_lt.1 ⟨i, x, hx, rfl⟩)
      (h.bears_iff_lt.1 ⟨j, y, hy, rfl⟩) e

/-! ### No dead blocks -/

lemma reached (settings : AnalysisSettings) (hb : b < l.blockCount) :
    (drawn l settings).graph.Reached (drawn l settings).entries b := by
  obtain ⟨e, he, hpath⟩ := exists_interval h hs settings hb
  exact ⟨e, he.1, (he.2.1.trans_lt hb).trans_eq (nodeCount_drawn l settings).symm, hpath⟩

omit h hs in
lemma contains_foldl_union {n : Nat} {sets : Nat → BitSet} (hsets : ∀ e, (sets e).Over n)
    (es : List Nat) {s : BitSet} (hs : s.Over n) :
    (es.foldl (fun s e => s.union (sets e)) s).Over n ∧
      ∀ b, (es.foldl (fun s e => s.union (sets e)) s).contains b = true ↔
        s.contains b = true ∨ ∃ e ∈ es, (sets e).contains b = true := by
  induction es generalizing s with
  | nil => exact ⟨hs, by simp⟩
  | cons e es ih =>
    obtain ⟨hover, hiff⟩ := ih (hs.union (hsets e))
    refine ⟨hover, fun b => ?_⟩
    rw [List.foldl_cons, hiff, BitSet.contains_union hs (hsets e)]
    simp [or_assoc]

/-- Some entry leads to each block. -/
lemma reachable_eq : (drawn l settings).reachable = BitSet.full (drawn l settings).blockCount := by
  have hg := built h hs settings
  have hover (e : Nat) : ((drawn l settings).graph.reachable e).Over l.blockCount :=
    nodeCount_drawn l settings ▸ Digraph.reachable_over hg e
  obtain ⟨hreach, hcontains⟩ :=
    contains_foldl_union hover (drawn l settings).entries (BitSet.empty_over l.blockCount)
  rw [reachable, blockCount_drawn h]
  refine hreach.ext (BitSet.full_over _) fun b => ?_
  rw [Bool.eq_iff_iff, hcontains, BitSet.contains_full, decide_eq_true_iff]
  simp only [BitSet.contains_empty, Bool.false_eq_true, false_or, Digraph.contains_reachable hg]
  constructor
  · rintro ⟨e, he, hlt, hpath⟩
    rw [← nodeCount_drawn l settings]
    exact Digraph.Reached.lt hg ⟨e, he, hlt, hpath⟩
  · intro hb
    obtain ⟨e, he, hlt, hpath⟩ := reached h hs settings hb
    exact ⟨e, he, hlt, hpath⟩

/-- The entry of an interval dominates exactly the blocks of the interval. -/
lemma entry_dominates (he : e ∈ (drawn l settings).entries) :
    (drawn l settings).graph.Dominates (drawn l settings).entries e b ↔
      (drawn l settings).InInterval e b := by
  constructor
  · rintro ⟨hreached, hall⟩
    have hb : b < l.blockCount := by
      rw [← nodeCount_drawn l settings]
      exact hreached.lt (built h hs settings)
    obtain ⟨e', he', ns, hpath⟩ := exists_interval h hs settings hb
    have hlt : e' < (drawn l settings).graph.nodeCount := by
      rw [nodeCount_drawn]
      exact he'.2.1.trans_lt hb
    have hmem := hall e' he'.1 hlt ns hpath
    exact (inInterval_iff h hs).2 ⟨(mem_entries hs).1 he, path_section h hs hpath e hmem, hb⟩
  · intro hin
    obtain ⟨hentry, hsame, hb⟩ := (inInterval_iff h hs).1 hin
    refine ⟨reached h hs settings hb, fun r hr _ ns hpath => ?_⟩
    have hrb := path_section h hs hpath r hpath.left_mem
    obtain rfl := (hrb.trans hsame.symm).eq_of_entry ((mem_entries hs).1 hr) hentry
    exact hpath.left_mem

lemma roots_eq (hpos : 0 < l.blockCount) :
    (drawn l settings).dominators.roots = (drawn l settings).entries := by
  have hg := built h hs settings
  have hsorted : (drawn l settings).dominators.roots.Pairwise (· < ·) :=
    List.pairwise_lt_range.filter _
  refine hsorted.eq_of_mem_iff (Ascending.ofList_sorted _) fun b => ?_
  rw [DomForest.roots, List.mem_filter, List.mem_range, dominators, Digraph.nodeCount_dominators,
    nodeCount_drawn]
  constructor
  · rintro ⟨hb, hroot⟩
    obtain ⟨e, he, -⟩ := exists_interval h hs settings hb
    rw [Digraph.isRoot_dominators hg (reached h hs settings hb)] at hroot
    exact hroot e ((entry_dominates h hs he.1).2 he) ▸ he.1
  · intro he
    have hb := h.entry_lt ((mem_entries hs).1 he) hpos
    rw [Digraph.isRoot_dominators hg (reached h hs settings hb)]
    refine ⟨hb, fun a ha => ?_⟩
    have hmem := ha.2 b he (by rwa [nodeCount_drawn]) [b] (.single b)
    exact List.mem_singleton.1 hmem

end

end FlowGraph

namespace Listing

open Source

variable {l : Listing}

open FlowGraph ControlFlow in
/-- **Functions are isolated**, and there is no dead block. So every block has its dominators, the
roots are the entries, and an entry dominates the blocks of its interval. -/
theorem Reachable.isolated (h : l.Reachable) (hne : l.stream ≠ []) (settings : AnalysisSettings) :
    ∃ g, FlowGraph.ofListing l settings = .ok g ∧ g.listing = l ∧ g.Isolated ∧
      g.reachable = BitSet.full g.blockCount ∧
      (∀ b < g.blockCount, (∃ d, g.dominators.idomOf b = .ok d) ∧
        ∃ ds, g.dominators.dominatorsOf b = .ok ds) ∧
      g.dominators.roots = g.entries ∧
      ∀ e ∈ g.entries, ∀ b, g.dominators.dominates e b = true ↔ g.InInterval e b := by
  have hc := h.coherent
  have hs := h.sectioned
  have hpos : 0 < l.blockCount := by
    rw [hc.blockCount_eq hne]
    omega
  have hg := built hc hs settings
  refine ⟨drawn l settings, ofListing_eq hc hs hne settings, rfl, drawn_isolated hc hs hpos,
    reachable_eq hc hs, fun b hb => ?_, roots_eq hc hs hpos, fun e he b => ?_⟩
  · rw [blockCount_drawn hc] at hb
    have hb := (Digraph.isReachable_dominators hg).2 (reached hc hs settings hb)
    rw [FlowGraph.dominators, DomForest.dominatorsOf, if_pos hb]
    refine ⟨?_, _, rfl⟩
    obtain ⟨d, hd⟩ := Option.isSome_iff_exists.1 hb
    exact ⟨d, by rw [DomForest.idomOf, hd]; rfl⟩
  · rw [FlowGraph.dominators, Digraph.dominates_dominators hg, entry_dominates hc hs he]

/-- `int odd(int n); int even(int n) { if (n < 1) return 1; return odd(n - 1); }
int odd(int n) { while (n < 1) n = n + 2; return even(n - 1); }` -/
def parityProgram : Program :=
  .items [.prototype ⟨"odd", .int, [⟨.int, "n"⟩]⟩,
    .function ⟨"even", .int, [⟨.int, "n"⟩]⟩ (.compound [
      .ifThen (.binary .lt (.var "n") (.int 1)) (.ret (some (.int 1))),
      .ret (some (.call "odd" [.binary .sub (.var "n") (.int 1)]))]),
    .function ⟨"odd", .int, [⟨.int, "n"⟩]⟩ (.compound [
      .while (.binary .lt (.var "n") (.int 1))
        (.expr (.assign (.var "n") (.binary .add (.var "n") (.int 2)))),
      .ret (some (.call "even" [.binary .sub (.var "n") (.int 1)]))])]

/-- Two functions: the blocks from 3 on are those of the second. -/
theorem Reachable.isolated_parity : ∃ l g, Listing.ofProgram parityProgram = .ok l ∧
    FlowGraph.ofListing (ValueNumbering.run .standard l).1 .standard = .ok g ∧
    g.entries = [0, 3] ∧ g.Isolated ∧ g.dominators.roots = g.entries := by
  have hok : ((Listing.ofProgram parityProgram).toOption.map fun l =>
      ((ValueNumbering.run .standard l).1.stream.isEmpty,
        (FlowGraph.ofListing (ValueNumbering.run .standard l).1 .standard).toOption.map
          (·.entries))) = some (false, some [0, 3]) := by
    decide +kernel
  obtain ⟨l, hl, hok⟩ := toOption_map_eq_some.1 hok
  simp only [Prod.mk.injEq] at hok
  obtain ⟨hne, hentries⟩ := hok
  have hne : (ValueNumbering.run .standard l).1.stream ≠ [] := by simpa using hne
  obtain ⟨g, hg, -, hisolated, -, -, hroots, -⟩ :=
    Reachable.isolated (.numbered .standard (.lowered hl)) hne .standard
  rw [hg, Except.toOption, Option.map_some, Option.some.injEq] at hentries
  exact ⟨l, g, hl, hg, hentries, hisolated, hroots⟩

end Listing

end ThreeAddress
