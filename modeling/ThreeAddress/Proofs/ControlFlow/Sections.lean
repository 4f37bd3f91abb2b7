import ThreeAddress.Proofs.Lowering.Segments
import ThreeAddress.Proofs.Numbering.Meaning

/-!
The blocks of a listing form sections, one for each function that is defined.

The stamps tell the blocks apart. A section starts at an entry, which is block 0 or the block of
a function's label. Control stays in its section, each block that is no entry is entered from a
smaller one, and no two sections mention a common variable or array. Lowering makes such
listings, and value numbering keeps them so.
-/

namespace ThreeAddress

namespace Listing

/-- Some instruction bears the stamp. -/
def Bears (l : Listing) (b : BlockId) : Prop := ∃ i x, l.instr? i = some x ∧ x.block = b

/-- Control can pass from a block to another: to the next one unless the path ends, and to the
block of a label that a branch goes to. -/
inductive Flows (l : Listing) : BlockId → BlockId → Prop
  | fall {a : BlockId} : l.Bears (a + 1) →
    (∀ {i x}, l.instr? i = some x → x.block = a → x.action.operator.endsPath = false) →
    Flows l a (a + 1)
  | branch {i : InstrId} {x : Instr} {label : LabelId} {b : BlockId} : l.instr? i = some x →
    x.action.branchTarget = some label → l.labelBlock? label = some b → Flows l x.block b

/-- Control enters at block 0 and at the label of each function that has code. -/
def Entry (l : Listing) (e : BlockId) : Prop :=
  e = 0 ∨ ∃ name f, l.functions.get? name = some f ∧ l.labelBlock? f.label = some e

/-- No entry lies between two blocks. -/
def SameSection (l : Listing) (a b : BlockId) : Prop := ∀ ⦃e⦄, l.Entry e → (e ≤ a ↔ e ≤ b)

structure Sectioned (l : Listing) : Prop where
  label : ∀ {i x label}, l.instr? i = some x → x.action = .label label →
    ∃ info, l.labels.get? label = some info ∧ info.site = some i
  branch : ∀ {i x label}, l.instr? i = some x → x.action.branchTarget = some label →
    (∃ info, l.labels.get? label = some info ∧ info.isFunction = false) ∧
      ∃ b, l.labelBlock? label = some b ∧ l.SameSection x.block b
  later : ∀ {i x cond label b}, l.instr? i = some x → x.action = .jumpFalse cond label →
    l.labelBlock? label = some b → x.block < b
  entered : ∀ {b}, l.Bears b → ¬l.Entry b → ∃ a < b, l.Flows a b
  closed : ∀ {a}, l.Entry (a + 1) → ∃ i x, l.instr? i = some x ∧ x.block = a ∧
    x.action.operator.endsPath = true
  vars : ∀ {i j x y v}, l.instr? i = some x → l.instr? j = some y → l.Mentions x.action v →
    l.Mentions y.action v → l.SameSection x.block y.block
  arrays : ∀ {i j x y a}, l.instr? i = some x → l.instr? j = some y → a ∈ x.action.arrayIds →
    a ∈ y.action.arrayIds → l.SameSection x.block y.block
  param : ∀ {i x v}, l.instr? i = some x → x.action = .param v → ∀ a, ¬l.Flows a x.block
  defined : ∀ {name f}, l.functions.get? name = some f →
    (f.defined = true ↔ ∃ b, l.labelBlock? f.label = some b)
  distinct : l.functions.Distinct

lemma SameSection.refl (l : Listing) (a : BlockId) : l.SameSection a a := fun _ _ => Iff.rfl

lemma labelBlock?_eq_some {l : Listing} {label : LabelId} {b : BlockId} :
    l.labelBlock? label = some b ↔ ∃ info site x, l.labels.get? label = some info ∧
      info.site = some site ∧ l.instr? site = some x ∧ x.block = b := by
  unfold labelBlock?
  constructor
  · intro h
    obtain ⟨info, hinfo, h⟩ := Option.bind_eq_some_iff.1 h
    obtain ⟨site, hsite, h⟩ := Option.bind_eq_some_iff.1 h
    obtain ⟨x, hx, h⟩ := Option.bind_eq_some_iff.1 h
    exact ⟨info, site, x, hinfo, hsite, hx, Option.some.inj h⟩
  · rintro ⟨info, site, x, hinfo, hsite, hx, rfl⟩
    simp [hinfo, hsite, hx]

lemma labelBlock?_bears {l : Listing} {label : LabelId} {b : BlockId}
    (h : l.labelBlock? label = some b) : l.Bears b := by
  obtain ⟨info, site, x, -, -, hx, hb⟩ := labelBlock?_eq_some.1 h
  exact ⟨site, x, hx, hb⟩

/-- Control stays in its section. -/
lemma Sectioned.flows {l : Listing} (h : l.Sectioned) {a b : BlockId} (hf : l.Flows a b) :
    l.SameSection a b := by
  cases hf with
  | fall hb hpath =>
    intro e he
    refine ⟨fun hle => hle.trans (Nat.le_succ _), fun hle => ?_⟩
    by_contra hlt
    obtain rfl : e = a + 1 := Nat.le_antisymm hle (Nat.lt_of_not_le hlt)
    obtain ⟨i, x, hx, hblock, hends⟩ := h.closed he
    rw [hpath hx hblock] at hends
    cases hends
  | branch hx ht hb =>
    obtain ⟨-, b', hb', hsame⟩ := h.branch hx ht
    obtain rfl : b' = b := Option.some.inj (hb'.symm.trans hb)
    exact hsame

end Listing

/-! ### Listings that lowering makes -/

namespace Lower

open Lowering Source Listing

lemma instr?_pred {l : Listing} {i : Nat} {y : Instr} (hy : l.instr? (i + 1) = some y) :
    ∃ x, l.instr? i = some x :=
  Option.isSome_iff_exists.1 (instr?_isSome_iff.2 ((Nat.lt_succ_self i).trans (instr?_lt hy)))

section

variable {s : Lowering} (hs : s.Sound)

include hs

/-- Instructions follow each other in the order of their numbers. -/
lemma sound_follows {i : Nat} {x y : Instr} (hx : s.listing.instr? i = some x)
    (hy : s.listing.instr? (i + 1) = some y) : x.Follows y := by
  have hat {j : Nat} {z : Instr} (hz : s.listing.instr? j = some z) :
      s.listing.stream[j]? = some j := by
    rw [hs.stream, List.getElem?_range (instr?_lt hz)]
  exact hs.coherent.follows (hat hx) (hat hy) hx hy

lemma block_le_succ {i : Nat} {x y : Instr} (hx : s.listing.instr? i = some x)
    (hy : s.listing.instr? (i + 1) = some y) : x.block ≤ y.block ∧ y.block ≤ x.block + 1 := by
  have h := sound_follows hs hx hy
  unfold Instr.Follows at h
  rw [h]
  split
  · exact ⟨Nat.le_succ _, le_rfl⟩
  · exact ⟨le_rfl, Nat.le_succ _⟩

lemma block_mono {i j : Nat} {x y : Instr} (hij : i ≤ j) (hx : s.listing.instr? i = some x)
    (hy : s.listing.instr? j = some y) : x.block ≤ y.block := by
  induction j, hij using Nat.le_induction generalizing y with
  | base =>
    obtain rfl : x = y := Option.some.inj (hx.symm.trans hy)
    exact le_rfl
  | succ j hij ih =>
    obtain ⟨z, hz⟩ := instr?_pred hy
    exact (ih hz).trans (block_le_succ hs hz hy).1

/-- A label starts a block. -/
lemma block_lt_label {i j : Nat} {x y : Instr} {label : LabelId} (hij : i < j)
    (hx : s.listing.instr? i = some x) (hy : s.listing.instr? j = some y)
    (hlabel : y.action = .label label) : x.block < y.block := by
  obtain ⟨k, rfl⟩ : ∃ k, j = k + 1 := Nat.exists_eq_succ_of_ne_zero (Nat.ne_zero_of_lt hij)
  obtain ⟨z, hz⟩ := instr?_pred hy
  have hle := block_mono hs (Nat.lt_succ_iff.1 hij) hx hz
  have h := sound_follows hs hz hy
  rw [Instr.Follows, Instr.cuts, hlabel] at h
  simp only [Action.definedLabel, Option.isSome_some, Bool.or_true, if_true] at h
  rw [h]
  exact Nat.lt_succ_of_le hle

lemma block_zero {x : Instr} (hx : s.listing.instr? 0 = some x) : x.block = 0 := by
  refine hs.coherent.first x ?_
  rw [instrs_eq_toList hs.stream, List.head?_eq_getElem?]
  simpa [instr?] using hx

omit hs in
lemma placed_labelBlock {label : LabelId} {site : Nat} {x : Instr} (hp : Placed s label site)
    (hx : s.listing.instr? site = some x) : s.listing.labelBlock? label = some x.block := by
  obtain ⟨info, hinfo, hsite⟩ := hp
  exact labelBlock?_eq_some.2 ⟨info, site, x, hinfo, hsite, hx, rfl⟩

lemma labelBlock_placed {label : LabelId} {b : BlockId}
    (h : s.listing.labelBlock? label = some b) :
    ∃ (site : Nat) (x : Instr), Placed s label site ∧ s.listing.instr? site = some x ∧
      x.action = .label label ∧ x.block = b := by
  obtain ⟨info, site, x, hinfo, hsite, hx, hb⟩ := labelBlock?_eq_some.1 h
  obtain ⟨y, hy, hact⟩ := hs.coherent.sites hinfo hsite
  obtain rfl : x = y := Option.some.inj (hx.symm.trans hy)
  exact ⟨site, x, ⟨info, hinfo, hsite⟩, hx, hact, hb⟩

/-- The entries are the blocks where segments start. -/
lemma entry_starts {e : BlockId} (he : s.listing.Entry e) :
    e = 0 ∨ ∃ (p : Nat) (x : Instr) (label : LabelId), Starts s p ∧
      s.listing.instr? p = some x ∧ x.action = .label label ∧ x.block = e := by
  obtain rfl | ⟨name, f, hf, hb⟩ := he
  · exact .inl rfl
  · obtain ⟨site, x, hp, hx, hact, hb⟩ := labelBlock_placed hs hb
    exact .inr ⟨site, x, f.label, .inr ⟨name, f, hf, hp⟩, hx, hact, hb⟩

lemma starts_entry {p : Nat} {x : Instr} (hp : Starts s p) (hx : s.listing.instr? p = some x) :
    s.listing.Entry x.block := by
  obtain rfl | ⟨name, f, hf, hp⟩ := hp
  · exact .inl (block_zero hs hx)
  · exact .inr ⟨name, f, hf, placed_labelBlock hp hx⟩

lemma together_section {i j : Nat} {x y : Instr} (h : Together s i j)
    (hx : s.listing.instr? i = some x) (hy : s.listing.instr? j = some y) :
    s.listing.SameSection x.block y.block := by
  intro e he
  obtain rfl | ⟨p, z, label, hp, hz, hact, rfl⟩ := entry_starts hs he
  · exact iff_of_true (Nat.zero_le _) (Nat.zero_le _)
  · have hle {k : Nat} {w : Instr} (hw : s.listing.instr? k = some w) :
        z.block ≤ w.block ↔ p ≤ k := by
      refine ⟨fun hb => ?_, fun hk => block_mono hs hk hz hw⟩
      by_contra hlt
      exact (block_lt_label hs (Nat.lt_of_not_le hlt) hw hz hact).not_ge hb
    rw [hle hx, hle hy]
    exact h hp

/-- A path ends only at the end of a block. -/
lemma endsPath_interior {i : Nat} {x y : Instr} (hx : s.listing.instr? i = some x)
    (hy : s.listing.instr? (i + 1) = some y) (hb : x.block = y.block) :
    x.action.operator.endsPath = false := by
  have hcuts := (sound_follows hs hx hy).cuts_eq_false hb
  rw [Instr.cuts, Bool.or_eq_false_iff] at hcuts
  cases hact : x.action <;> simp_all [Action.operator, Operator.endsBlock, Operator.endsPath]

/-- The block before that of `y` ends where `x` stands. -/
lemma endsPath_block {i j : Nat} {x y z : Instr} (hx : s.listing.instr? i = some x)
    (hy : s.listing.instr? (i + 1) = some y) (hz : s.listing.instr? j = some z)
    (hxy : x.block < y.block) (hzx : z.block = x.block)
    (hends : x.action.operator.endsPath = false) : z.action.operator.endsPath = false := by
  obtain hlt | rfl | hgt := Nat.lt_trichotomy j i
  · obtain ⟨w, hw⟩ := Option.isSome_iff_exists.1 (instr?_isSome_iff.2
      ((Nat.succ_le_of_lt hlt).trans_lt (instr?_lt hx)))
    have hle := block_mono hs (Nat.succ_le_of_lt hlt) hw hx
    refine endsPath_interior hs hz hw (Nat.le_antisymm (block_le_succ hs hz hw).1 ?_)
    rw [hzx]
    exact hle
  · obtain rfl : x = z := Option.some.inj (hx.symm.trans hz)
    exact hends
  · have hle := block_mono hs (Nat.succ_le_of_lt hgt) hy hz
    rw [hzx] at hle
    exact absurd hle hxy.not_ge

lemma Segmented.entered (h : Segmented s) {b : Nat} (hb : s.listing.Bears b)
    (hentry : ¬s.listing.Entry b) : ∃ a < b, s.listing.Flows a b := by
  classical
  -- the first instruction of the block
  have hex : ∃ i, ∃ x, s.listing.instr? i = some x ∧ x.block = b := hb
  obtain ⟨y, hy, rfl⟩ := Nat.find_spec hex
  have hmin {i : Nat} (hi : i < Nat.find hex) := Nat.find_min hex hi
  generalize Nat.find hex = j at hy hmin
  cases j with
  | zero => exact absurd (.inl (block_zero hs hy)) hentry
  | succ i =>
    obtain ⟨x, hx⟩ := instr?_pred hy
    obtain ⟨hle, hsucc⟩ := block_le_succ hs hx hy
    have hlt : x.block < y.block :=
      Nat.lt_of_le_of_ne hle fun heq => hmin (Nat.lt_succ_self i) ⟨x, hx, heq⟩
    have hnext : y.block = x.block + 1 := Nat.le_antisymm hsucc hlt
    cases hends : x.action.operator.endsPath with
    | false =>
      refine ⟨x.block, hlt, ?_⟩
      rw [hnext]
      exact .fall ⟨_, y, hy, hnext⟩ fun hz hzx => endsPath_block hs hx hy hz hlt hzx hends
    | true =>
      have hstart : ¬Starts s (i + 1) := fun hp => hentry (starts_entry hs hp hy)
      obtain ⟨label, hlabel, q, z, hq, hz, ht⟩ := h.reached hx hy hends hstart
      exact ⟨z.block, (block_mono hs hq hz hx).trans_lt hlt,
        .branch hz ht (placed_labelBlock (h.label hy hlabel) hy)⟩

lemma Segmented.entry_closed (h : Segmented s) {a : Nat} (he : s.listing.Entry (a + 1)) :
    ∃ i x, s.listing.instr? i = some x ∧ x.block = a ∧ x.action.operator.endsPath = true := by
  obtain he | ⟨p, y, label, hp, hy, hact, hb⟩ := entry_starts hs he
  · cases he
  · cases p with
    | zero =>
      rw [block_zero hs hy] at hb
      cases hb
    | succ i =>
      obtain ⟨x, hx⟩ := instr?_pred hy
      have hlt := block_lt_label hs (Nat.lt_succ_self i) hx hy hact
      have hsucc := (block_le_succ hs hx hy).2
      rw [hb] at hlt hsucc
      exact ⟨i, x, hx, Nat.le_antisymm (Nat.lt_succ_iff.1 hlt) (Nat.succ_le_succ_iff.1 hsucc),
        h.closed hx hp⟩

/-- Parameters stand at the start of a segment. -/
lemma Segmented.param_block (h : Segmented s) {i : Nat} {x : Instr} {v : VarId}
    (hx : s.listing.instr? i = some x) (hv : x.action = .param v) :
    ∃ (e : Nat) (y : Instr), Starts s e ∧ s.listing.instr? e = some y ∧ y.block = x.block ∧
      (Heads s e y.action ∨ ∃ w, y.action = .param w) := by
  obtain ⟨e, y, hstart, hle, hy, hhead, hall⟩ := h.param hx hv
  refine ⟨e, y, hstart, hy, ?_, hhead⟩
  have hy' : y.action.operator.endsBlock = false := by
    obtain ⟨label, -, hact, -⟩ | ⟨w, hact⟩ := hhead <;> rw [hact] <;> rfl
  -- no block ends from the start up to the parameter
  induction i, hle using Nat.le_induction generalizing x v with
  | base => rw [Option.some.inj (hy.symm.trans hx)]
  | succ k hek ih =>
    obtain ⟨z, hz⟩ := instr?_pred hx
    have hends : z.action.operator.endsBlock = false ∧ y.block = z.block := by
      obtain rfl | hlt := hek.eq_or_lt
      · rw [Option.some.inj (hz.symm.trans hy)]
        exact ⟨hy', rfl⟩
      · obtain ⟨z', w, hz', hw⟩ := hall k hlt (Nat.le_succ k)
        obtain rfl : z = z' := Option.some.inj (hz.symm.trans hz')
        refine ⟨by rw [hw]; rfl, ih hz hw fun j hj hjk => hall j hj (Nat.le_succ_of_le hjk)⟩
    have hfollows := sound_follows hs hz hx
    rw [Instr.Follows, Instr.cuts, hends.1, hv] at hfollows
    exact hends.2.trans hfollows.symm

lemma Segmented.param_unreached (h : Segmented s) {i : Nat} {x : Instr} {v : VarId}
    (hx : s.listing.instr? i = some x) (hv : x.action = .param v) (a : Nat) :
    ¬s.listing.Flows a x.block := by
  obtain ⟨e, y, hstart, hy, hb, hhead⟩ := h.param_block hs hx hv
  have hentry := starts_entry hs hstart hy
  rw [← hb]
  generalize hto : y.block = b
  intro hf
  cases hf with
  | fall _ hpath =>
    obtain ⟨j, z, hz, hza, hends⟩ := h.entry_closed hs (hto ▸ hentry)
    rw [hpath hz hza] at hends
    cases hends
  | branch hz ht hlabel =>
    -- the branch would have to go to the instruction that starts the segment
    obtain ⟨⟨info, hinfo, hname⟩, -⟩ := h.branch hz ht
    obtain ⟨site, w, hp, hw, hact, hwb⟩ := labelBlock_placed hs hlabel
    have hsite : site = e := by
      obtain hlt | heq | hgt := Nat.lt_trichotomy site e
      · obtain rfl | ⟨name, f, hf, hpe⟩ := hstart
        · exact absurd hlt (Nat.not_lt_zero _)
        · obtain ⟨info', hinfo', hsite'⟩ := hpe
          obtain ⟨y', hy', hact'⟩ := hs.coherent.sites hinfo' hsite'
          obtain rfl : y = y' := Option.some.inj (hy.symm.trans hy')
          exact absurd (hwb.trans hto.symm) (block_lt_label hs hlt hw hy hact').ne
      · exact heq
      · exact absurd (hto.trans hwb.symm) (block_lt_label hs hgt hy hw hact).ne
    subst hsite
    obtain rfl : y = w := Option.some.inj (hy.symm.trans hw)
    obtain ⟨label', info', hact', hinfo', -, hname'⟩ | ⟨w', hact'⟩ := hhead
    · obtain rfl : label' = _ := Action.label.inj (hact'.symm.trans hact)
      obtain rfl : info = info' := Option.some.inj (hinfo.symm.trans hinfo')
      rw [hname] at hname'
      cases hname'
    · rw [hact] at hact'
      cases hact'

/-- The segments of the code are the sections of its blocks. -/
lemma Segmented.sectioned (h : Segmented s) : s.listing.Sectioned where
  label hx hl := h.label hx hl
  branch hx ht := by
    obtain ⟨hname, site, hp, hto⟩ := h.branch hx ht
    obtain ⟨info, hinfo, hsite⟩ := hp
    obtain ⟨y, hy, -⟩ := hs.coherent.sites hinfo hsite
    exact ⟨hname, y.block, placed_labelBlock ⟨info, hinfo, hsite⟩ hy, together_section hs hto hx hy⟩
  later hx hj hb := by
    obtain ⟨site, y, hp, hy, hact, rfl⟩ := labelBlock_placed hs hb
    exact block_lt_label hs (h.later hx hj hp) hx hy hact
  entered hb he := h.entered hs hb he
  closed he := h.entry_closed hs he
  vars hx hy hmx hmy := together_section hs (h.vars hx hy hmx hmy) hx hy
  arrays hx hy hax hay := together_section hs (h.arrays hx hy hax hay) hx hy
  param hx hv a := h.param_unreached hs hx hv a
  defined {name f} hf := by
    rw [h.defined hf]
    refine ⟨fun ⟨site, hp⟩ => ?_, fun ⟨b, hb⟩ => ?_⟩
    · obtain ⟨info, hinfo, hsite⟩ := hp
      obtain ⟨y, hy, -⟩ := hs.coherent.sites hinfo hsite
      exact ⟨y.block, placed_labelBlock ⟨info, hinfo, hsite⟩ hy⟩
    · obtain ⟨site, -, hp, -⟩ := labelBlock_placed hs hb
      exact ⟨site, hp⟩
  distinct := h.distinct

end

end Lower

/-- The listing of a program has sections. -/
theorem Listing.ofProgram_sectioned {p : Source.Program} {l : Listing}
    (h : Listing.ofProgram p = .ok l) : l.Sectioned := by
  obtain ⟨s, hp, rfl⟩ := ofProgram_ok h
  exact (Lower.program_segmented hp).sectioned
    ((Lower.program_extends hp).sound Lowering.sound_start)

/-! ### Listings that value numbering makes -/

namespace Listing

/-- Only the block `b` has changed: some of its computations have become copies, and other
copies are new. What is read there was assigned in the block or is a new variable. -/
structure Retouched (b : BlockId) (l l' : Listing) : Prop where
  labels : l'.labels = l.labels
  functions : l'.functions = l.functions
  old : l.Reshaped l'
  cases : ∀ {i y}, l'.instr? i = some y → (∃ x, l.instr? i = some x ∧ x.Reshaped y) ∨
    ((∃ source target, y.action = .copy (.var source) (.var target)) ∧ l.Bears y.block)
  vars : ∀ {i y v}, l'.instr? i = some y → l'.Mentions y.action v →
    (∃ j x, l.instr? j = some x ∧ x.block = y.block ∧ l.Mentions x.action v) ∨
      (l.vars.size ≤ v ∧ y.block = b)
  arrays : ∀ {i y a}, l'.instr? i = some y → a ∈ y.action.arrayIds →
    ∃ x, l.instr? i = some x ∧ x.block = y.block ∧ a ∈ x.action.arrayIds

namespace Retouched

variable {b : BlockId} {l l' : Listing} (h : Retouched b l l')

include h

lemma bears (c : BlockId) : l'.Bears c ↔ l.Bears c := by
  refine ⟨fun ⟨i, y, hy, hb⟩ => ?_, fun ⟨i, x, hx, hb⟩ => ?_⟩
  · obtain ⟨x, hx, hr⟩ | ⟨-, hbears⟩ := h.cases hy
    · exact ⟨i, x, hx, hr.block.symm.trans hb⟩
    · exact hb ▸ hbears
  · obtain ⟨y, hy, hr⟩ := h.old hx
    exact ⟨i, y, hy, hr.block.trans hb⟩

/-- What is not a copy was there before. -/
lemma before {i : InstrId} {y : Instr} (hy : l'.instr? i = some y)
    (hcopy : ∀ o target, y.action ≠ .copy o target) :
    ∃ x, l.instr? i = some x ∧ x.block = y.block ∧ x.action = y.action := by
  obtain ⟨x, hx, hr⟩ | ⟨⟨source, target, hact⟩, -⟩ := h.cases hy
  · obtain hact | ⟨_, _, _, w, o, -, hact⟩ := hr.action
    · exact ⟨x, hx, hr.block.symm, hact.symm⟩
    · exact absurd hact (hcopy _ _)
  · exact absurd hact (hcopy _ _)

/-- What is not a computation stays. -/
lemma after {i : InstrId} {x : Instr} (hx : l.instr? i = some x)
    (hcompute : ∀ op lhs rhs w, x.action ≠ .compute op lhs rhs w) :
    ∃ y, l'.instr? i = some y ∧ y.block = x.block ∧ y.action = x.action := by
  obtain ⟨y, hy, hr⟩ := h.old hx
  obtain hact | ⟨op, lhs, rhs, w, o, hact, -⟩ := hr.action
  · exact ⟨y, hy, hr.block, hact⟩
  · exact absurd hact (hcompute op lhs rhs w)

lemma labelBlock?_iff (hl : l.Coherent) {label : LabelId} {c : BlockId} :
    l'.labelBlock? label = some c ↔ l.labelBlock? label = some c := by
  rw [labelBlock?_eq_some, labelBlock?_eq_some, h.labels]
  refine ⟨fun ⟨info, site, y, hinfo, hsite, hy, hb⟩ => ?_,
    fun ⟨info, site, x, hinfo, hsite, hx, hb⟩ => ?_⟩
  · obtain ⟨x, hx, -⟩ := hl.sites hinfo hsite
    obtain ⟨y', hy', hr⟩ := h.old hx
    obtain rfl : y = y' := Option.some.inj (hy.symm.trans hy')
    exact ⟨info, site, x, hinfo, hsite, hx, hr.block.symm.trans hb⟩
  · obtain ⟨y, hy, hr⟩ := h.old hx
    exact ⟨info, site, y, hinfo, hsite, hy, hr.block.trans hb⟩

lemma entry_iff (hl : l.Coherent) {e : BlockId} : l'.Entry e ↔ l.Entry e := by
  unfold Entry
  simp only [h.functions, h.labelBlock?_iff hl]

lemma sameSection (hl : l.Coherent) {a c : BlockId} (hs : l.SameSection a c) :
    l'.SameSection a c :=
  fun _ he => hs ((h.entry_iff hl).1 he)

lemma flows_iff (hl : l.Coherent) {a c : BlockId} : l'.Flows a c ↔ l.Flows a c := by
  constructor
  · rintro (⟨hb, hpath⟩ | ⟨hy, ht, hb⟩)
    · refine .fall ((h.bears _).1 hb) fun {i x} hx hxa => ?_
      obtain ⟨y, hy, hr⟩ := h.old hx
      rw [← hpath hy (hr.block.trans hxa)]
      obtain hact | ⟨op, lhs, rhs, w, o, hact, hact'⟩ := hr.action
      · rw [hact]
      · rw [hact, hact']
        rfl
    · obtain ⟨x, hx, hblock, hact⟩ := h.before hy fun o target hc => by
        simp [hc, Action.branchTarget] at ht
      rw [← hblock]
      exact .branch hx (hact ▸ ht) ((h.labelBlock?_iff hl).1 hb)
  · rintro (⟨hb, hpath⟩ | ⟨hx, ht, hb⟩)
    · refine .fall ((h.bears _).2 hb) fun {i y} hy hya => ?_
      obtain ⟨x, hx, hr⟩ | ⟨⟨source, target, hact⟩, -⟩ := h.cases hy
      · rw [← hpath hx (hr.block.symm.trans hya)]
        obtain hact | ⟨op, lhs, rhs, w, o, hact, hact'⟩ := hr.action
        · rw [hact]
        · rw [hact, hact']
          rfl
      · rw [hact]
        rfl
    · obtain ⟨y, hy, hblock, hact⟩ := h.after hx fun op lhs rhs w hc => by
        simp [hc, Action.branchTarget] at ht
      rw [← hblock]
      exact .branch hy (hact ▸ ht) ((h.labelBlock?_iff hl).2 hb)

/-- A change within one block keeps the sections. -/
lemma sectioned (hl : l.Coherent) (hs : l.Sectioned) : l'.Sectioned where
  label hy hact := by
    obtain ⟨x, hx, -, hact'⟩ := h.before hy fun o target hc => by simp [hc] at hact
    rw [h.labels]
    exact hs.label hx (hact'.trans hact)
  branch hy ht := by
    obtain ⟨x, hx, hblock, hact⟩ := h.before hy fun o target hc => by
      simp [hc, Action.branchTarget] at ht
    obtain ⟨hname, c, hc, hsame⟩ := hs.branch hx (hact ▸ ht)
    rw [h.labels, ← hblock]
    exact ⟨hname, c, (h.labelBlock?_iff hl).2 hc, h.sameSection hl hsame⟩
  later hy hj hb := by
    obtain ⟨x, hx, hblock, hact⟩ := h.before hy fun o target hc => by simp [hc] at hj
    rw [← hblock]
    exact hs.later hx (hact.trans hj) ((h.labelBlock?_iff hl).1 hb)
  entered hb he := by
    obtain ⟨a, hlt, hf⟩ := hs.entered ((h.bears _).1 hb) (mt (h.entry_iff hl).2 he)
    exact ⟨a, hlt, (h.flows_iff hl).2 hf⟩
  closed he := by
    obtain ⟨i, x, hx, hblock, hends⟩ := hs.closed ((h.entry_iff hl).1 he)
    obtain ⟨y, hy, hblock', hact⟩ := h.after hx fun op lhs rhs w hc => by
      simp [hc, Action.operator, Operator.endsPath] at hends
    exact ⟨i, y, hy, hblock'.trans hblock, by rw [hact, hends]⟩
  vars hx hy hmx hmy := by
    obtain ⟨j, x', hx', hb, hm⟩ | ⟨hv, hb⟩ := h.vars hx hmx
    · obtain ⟨j', y', hy', hb', hm'⟩ | ⟨hv, -⟩ := h.vars hy hmy
      · rw [← hb, ← hb']
        exact h.sameSection hl (hs.vars hx' hy' hm hm')
      · exact absurd (hl.mentions_lt hx' hm) hv.not_gt
    · obtain ⟨j', y', hy', hb', hm'⟩ | ⟨-, hb'⟩ := h.vars hy hmy
      · exact absurd (hl.mentions_lt hy' hm') hv.not_gt
      · rw [hb, hb']
        exact .refl _ _
  arrays hx hy hax hay := by
    obtain ⟨x', hx', hb, hax⟩ := h.arrays hx hax
    obtain ⟨y', hy', hb', hay⟩ := h.arrays hy hay
    rw [← hb, ← hb']
    exact h.sameSection hl (hs.arrays hx' hy' hax hay)
  param hy hv a hf := by
    obtain ⟨x, hx, hblock, hact⟩ := h.before hy fun o target hc => by simp [hc] at hv
    rw [← hblock, h.flows_iff hl] at hf
    exact hs.param hx (hact.trans hv) a hf
  defined hf := by
    rw [h.functions] at hf
    simpa only [h.labelBlock?_iff hl] using hs.defined hf
  distinct := h.functions ▸ hs.distinct

end Retouched

end Listing

namespace ValueNumbering

open Listing

variable {l : Listing} {block : Block} {pre post : List InstrId}

/-- The variables of a copy. -/
lemma mentions_copy {m : Listing} {o : Operand} {w v : VarId}
    (h : m.Mentions (.copy o (.var w)) v) : v = w ∨ v ∈ m.operandUses o := by
  obtain h | h := h
  · right
    simpa [uses, Action.args, Action.arg1, Action.arg2, Action.target, Place.operand,
      targetUses] using h
  · left
    simpa [Place.var?, eq_comm] using h

lemma targetAt_mentions (h : l.HasBlock block pre post) {j : Nat} {v : VarId}
    (hv : targetAt l block.instrs j = some v) :
    ∃ i x, l.instr? i = some x ∧ x.block = block.id ∧ l.Mentions x.action v := by
  obtain ⟨i, hi, hv⟩ := Option.bind_eq_some_iff.1 hv
  obtain ⟨x, hx, hv⟩ := Option.bind_eq_some_iff.1 hv
  exact ⟨i, x, hx, h.stamped (List.mem_of_getElem? hi) hx, .inr hv⟩

/-- What is read in place of a computation is a literal, a variable that the block assigns, or a
new variable. -/
lemma Numbered.source {formula : Action → Option Formula} {fresh j : Nat} {table table' : Table}
    {p p' : List CopyOrder} {a : Action} {o : Operand} {w : VarId} {body : List InstrId}
    (hn : Numbered formula fresh j table p a table' p' (.copy o (.var w)))
    (hne : a ≠ .copy o (.var w)) (ht : ∀ {f h}, (f, h) ∈ table → h.Placed l body j p) :
    o.isLiteral = true ∨
      ∃ v, o = .var v ∧ ((∃ k, targetAt l body k = some v) ∨ ∃ c ∈ p', c.temp = v) := by
  have hliteral {value : Atom} (h : value.var? = none) : value.operand.isLiteral = true := by
    cases value with
    | var v => simp [Atom.var?] at h
    | _ => rfl
  cases hn with
  | skip => exact absurd rfl hne
  | assign => exact absurd rfl hne
  | miss => exact absurd rfl hne
  | reuse _ _ hm ho =>
    rename_i f h _ _
    have hp := ht hm
    cases h with
    | literal value =>
      obtain rfl := Option.some.inj ho
      exact .inl (hliteral hp)
    | live v origin =>
      obtain rfl := Option.some.inj ho
      exact .inr ⟨v, rfl, .inl ⟨origin, hp.2⟩⟩
    | materialized v origin temp =>
      obtain rfl := Option.some.inj ho
      exact .inr ⟨temp, rfl, .inr ⟨_, hp, rfl⟩⟩
    | detached v origin => simp [Holding.operand?] at ho
  | materialize => exact .inr ⟨fresh, rfl, .inr ⟨_, CopyOrder.mem_enqueue.2 (.inl rfl), rfl⟩⟩
  | fold _ _ hlit => exact .inl (hliteral (var?_of_fold? hlit))

section

variable (h : l.HasBlock block pre post) (t : Toggles) (events : Log)

include h

lemma bears_block : l.Bears block.id := by
  obtain ⟨i, rest, hinstrs⟩ := List.exists_cons_of_ne_nil h.nonempty
  obtain ⟨x, hx, hb⟩ := h.exists_instr (j := 0) (i := i) (by rw [hinstrs]; rfl)
  exact ⟨i, x, hx, hb⟩

/-- A computation that has become a copy stands in the block. -/
lemma scanBlock_copied {i : InstrId} {x y : Instr} {o : Operand} {w : VarId}
    (hx : l.instr? i = some x) (hy : (scanBlock t (l, events) block).1.instr? i = some y)
    (hact : y.action = .copy o (.var w)) (hne : x.action ≠ .copy o (.var w)) :
    x.block = block.id ∧ (o.isLiteral = true ∨ ∃ v, o = .var v ∧
      ((∃ k, targetAt l block.instrs k = some v) ∨
        ∃ c ∈ (finished t block l events).pending, c.temp = v)) := by
  have hmem : i ∈ block.instrs := by
    by_contra hnot
    rw [scanBlock_untouched h t events (Lower.instr?_lt hx) hnot, hx] at hy
    exact hne (by rw [Option.some.inj hy, hact])
  obtain ⟨j, hj, hi⟩ := List.getElem_of_mem hmem
  have hi : block.instrs[j]? = some i := by rw [List.getElem?_eq_getElem hj, hi]
  obtain ⟨fresh, a', hn, hsub, hy'⟩ := scanBlock_numbered h t events hi hx
  obtain rfl := Option.some.inj (hy.symm.trans hy')
  obtain rfl : a' = .copy o (.var w) := hact
  have hs := Scan.scanned_sound h.coherent h.nodup (fun _ hi => h.mem_stream hi) t events hj.le
  refine ⟨h.stamped hmem hx, (hn.source hne hs.table).imp_right ?_⟩
  rintro ⟨v, rfl, hk | ⟨c, hc, hv⟩⟩
  · exact ⟨v, rfl, .inl hk⟩
  · exact ⟨v, rfl, .inr ⟨c, hsub hc, hv⟩⟩

/-- The variables that a block mentions after the scan. -/
lemma scanBlock_mentions {i : InstrId} {y : Instr} {v : VarId}
    (hy : (scanBlock t (l, events) block).1.instr? i = some y)
    (hm : (scanBlock t (l, events) block).1.Mentions y.action v) :
    (∃ j x, l.instr? j = some x ∧ x.block = y.block ∧ l.Mentions x.action v) ∨
      (l.vars.size ≤ v ∧ y.block = block.id) := by
  have hpending {c : CopyOrder} (hc : c ∈ (finished t block l events).pending) :=
    ((finished_sound h t events).pending c hc).1
  obtain ⟨x, hx, hr⟩ | ⟨n, c, ty, hc, -, rfl⟩ := scanBlock_cases h t events hy
  · obtain hact | ⟨op, lhs, rhs, w, o, hact, hact'⟩ := hr.action
    · rw [hact] at hm
      have hresolve {o : Operand} (ho : o.InScope l) :=
        (scanBlock_reshaped h t events).resolve_eq ho
      exact .inl ⟨i, x, hx, hr.block.symm, (Mentions.congr (h.coherent.inScope hx) hresolve).1 hm⟩
    · obtain ⟨hblock, hsource⟩ := scanBlock_copied h t events hx hy hact' (by rw [hact]; simp)
      rw [hact'] at hm
      rw [hr.block]
      obtain rfl | hv := mentions_copy hm
      · exact .inl ⟨i, x, hx, rfl, .inr (by rw [hact]; rfl)⟩
      · obtain hlit | ⟨v', rfl, hv'⟩ := hsource
        · cases o <;> simp_all [Operand.isLiteral, operandUses, resolve]
        · obtain rfl : v = v' := by simpa [operandUses, resolve] using hv
          rw [hblock]
          obtain ⟨k, hk⟩ | ⟨c, hc, rfl⟩ := hv'
          · exact .inl (targetAt_mentions h hk)
          · exact .inr ⟨(hpending hc).temp, rfl⟩
  · have hp := hpending (List.mem_of_getElem? hc)
    obtain rfl | hv := mentions_copy hm
    · exact .inr ⟨hp.temp, rfl⟩
    · obtain rfl : v = c.source := by simpa [operandUses, resolve] using hv
      exact .inl (targetAt_mentions h hp.source)

lemma scanBlock_retouched :
    Retouched block.id l (scanBlock t (l, events) block).1 where
  labels := by
    obtain ⟨arena, stream, vars, heq⟩ := scanBlock_tables h t events
    rw [heq]
  functions := by
    obtain ⟨arena, stream, vars, heq⟩ := scanBlock_tables h t events
    rw [heq]
  old := scanBlock_reshaped h t events
  cases hy := by
    obtain hold | ⟨n, c, ty, -, -, rfl⟩ := scanBlock_cases h t events hy
    · exact .inl hold
    · exact .inr ⟨⟨c.source, c.temp, rfl⟩, bears_block h⟩
  vars hy hm := scanBlock_mentions h t events hy hm
  arrays hy ha := by
    obtain ⟨x, hx, hr⟩ | ⟨n, c, ty, -, -, rfl⟩ := scanBlock_cases h t events hy
    · obtain hact | ⟨op, lhs, rhs, w, o, hact, hact'⟩ := hr.action
      · exact ⟨x, hx, hr.block.symm, hact ▸ ha⟩
      · obtain ⟨-, hsource⟩ := scanBlock_copied h t events hx hy hact' (by rw [hact]; simp)
        have hnone : o.arrayIds = [] := by
          obtain hlit | ⟨v, rfl, -⟩ := hsource
          · cases o <;> simp_all [Operand.isLiteral, Operand.arrayIds]
          · rfl
        rw [hact'] at ha
        simp [Action.arrayIds, Action.args, Action.arg1, Action.arg2, Action.target,
          Place.operand, Operand.arrayIds, hnone] at ha
    · simp [Action.arrayIds, Action.args, Action.arg1, Action.arg2, Action.target, Place.operand,
        Operand.arrayIds] at ha

end

end ValueNumbering

open ValueNumbering in
/-- Every listing that lowering and value numbering make has sections. -/
theorem Listing.Reachable.sectioned {l : Listing} (h : l.Reachable) : l.Sectioned :=
  h.invariant Listing.ofProgram_sectioned fun hb t events =>
    (scanBlock_retouched hb t events).sectioned hb.coherent

end ThreeAddress
