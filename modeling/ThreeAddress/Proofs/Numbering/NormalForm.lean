import ThreeAddress.Compilation
import ThreeAddress.Proofs.Numbering.Analyses
import ThreeAddress.Proofs.Numbering.Typing
import ThreeAddress.Proofs.Provided

/-!
Value numbering reaches its normal form in one run. A listing is in normal form when no block
computes a formula that it carries already, and nothing is computed from two literals that folds.
The table of the scan knows a formula exactly where the block carries it, so the scan of a block
in normal form changes nothing; and what is computed after the scan was computed before it where
it was not carried, so it is not carried now.
-/

namespace ThreeAddress

open Machine

/-- Some instruction of the block before the position computes the formula, and from it up to the
position none assigns a variable that the formula reads. -/
def Listing.Carries (l : Listing) (b : BlockId) (f : Formula) (q : Nat) : Prop :=
  ∃ p < q, ∃ x, instrAt? l p = some x ∧ x.block = b ∧ Formula.ofAction l x.action = some f ∧
    ∀ r y, p ≤ r → r < q → instrAt? l r = some y → y.action.Spares f

lemma Listing.instr?_replaceByCopy {l : Listing} {i : InstrId} {x : Instr} (hx : l.instr? i = some x)
    (w : VarId) (o : Operand) :
    (l.replaceByCopy i w o).instr? i = some { x with action := .copy o (.var w) } := by
  have hx : l.arena[i]? = some x := hx
  simp [replaceByCopy, instr?, Array.getElem?_modify, hx]

/-- The block has all instructions with its stamp. -/
def Listing.Whole (l : Listing) (block : Block) : Prop :=
  ∀ ⦃i x⦄, l.instr? i = some x → x.block = block.id → i ∈ block.instrs

/-- A division of integers that has no quotient. -/
def BinaryOp.Fails (op : BinaryOp) (lhs rhs : Operand) : Prop :=
  op = .div ∧ ∃ a b, lhs = .int a ∧ rhs = .int b ∧ (b = 0 ∨ a = Int32.minValue ∧ b = -1)

namespace ValueNumbering

open Listing

/-- The normal form of a block: it computes no formula that it carries already, and nothing from
two literals but a division that has no quotient. -/
structure NormalAt (t : Toggles) (l : Listing) (b : BlockId) : Prop where
  eliminated : t.eliminate = true → ∀ {q x f}, instrAt? l q = some x → x.block = b →
    Formula.ofAction l x.action = some f → ¬l.Carries b f q
  folded : t.fold = true → ∀ {q x op lhs rhs w}, instrAt? l q = some x → x.block = b →
    x.action = .compute op lhs rhs w → lhs.isLiteral = true → rhs.isLiteral = true →
    op.Fails lhs rhs

/-- All blocks are in normal form. -/
def Normal (t : Toggles) (l : Listing) : Prop := ∀ b, NormalAt t l b

/-- A computation of the formula at the position can be done without. -/
def Due (t : Toggles) (l : Listing) (b : BlockId) (f : Formula) (q : Nat) : Prop :=
  t.eliminate = true ∧ l.Carries b f q ∨ t.fold = true ∧ ∃ value, f.fold? = some value

lemma eval_eq_none_iff (op : BinaryOp) (a b : Int32) : Int32Arith.eval op a b = none ↔
    op = .div ∧ (b = 0 ∨ a = Int32.minValue ∧ b = -1) := by
  cases op with
  | div =>
    rw [Int32Arith.eval, Int32Arith.div?]
    split <;> simp_all
  | _ => simp [Int32Arith.eval]

lemma isLiteral_of_ofOperand {l : Listing} {o : Operand} {a : Atom}
    (h : Atom.ofOperand l o = some a) (ha : a.var? = none) : o.isLiteral = true := by
  cases o with
  | int n => rfl
  | float x => rfl
  | var v =>
    obtain rfl := Option.some.inj h
    cases ha
  | instr i =>
    obtain ⟨v, -, rfl⟩ := Option.map_eq_some_iff.1 h
    cases ha
  | _ => cases h

/-- What folds is computed from literals. -/
lemma isLiteral_of_fold? {l : Listing} {op : BinaryOp} {lhs rhs : Operand} {w : VarId}
    {f : Formula} {value : Atom} (hf : Formula.ofAction l (.compute op lhs rhs w) = some f)
    (hfold : f.fold? = some value) : lhs.isLiteral = true ∧ rhs.isLiteral = true := by
  obtain ⟨op', lhs', rhs', w', left, right, hact, hleft, hright, rfl⟩ := ofAction_eq_some hf
  obtain ⟨rfl, rfl, rfl, rfl⟩ := Action.compute.inj hact
  have hnone (v : VarId) : left.var? ≠ some v ∧ right.var? ≠ some v := by
    simpa [Formula.reads] using Formula.reads_of_fold? hfold v
  exact ⟨isLiteral_of_ofOperand hleft (Option.eq_none_iff_forall_ne_some.2 fun v => (hnone v).1),
    isLiteral_of_ofOperand hright (Option.eq_none_iff_forall_ne_some.2 fun v => (hnone v).2)⟩

/-- On typed literals the fold fails only where there is no quotient. -/
lemma fold?_eq_none_iff {l : Listing} {op : BinaryOp} {lhs rhs : Operand} {w : VarId} {ty : Ty}
    (h : (Action.compute op lhs rhs w).HasTy l ty) (hl : lhs.isLiteral = true)
    (hr : rhs.isLiteral = true) : ∃ f, Formula.ofAction l (.compute op lhs rhs w) = some f ∧
      (f.fold? = none ↔ op.Fails lhs rhs) := by
  cases h with
  | compute _ hlhs hrhs _ =>
    cases hlhs with
    | int a =>
      cases hrhs with
      | int b =>
        refine ⟨⟨.int a, .binary op, .int b⟩, rfl, ?_⟩
        rw [Formula.fold?, Option.map_eq_none_iff, eval_eq_none_iff]
        simp [BinaryOp.Fails]
      | _ => cases hr
    | float a =>
      cases hrhs with
      | float b =>
        exact ⟨⟨.float a, .binary op, .float b⟩, rfl, by simp [Formula.fold?, BinaryOp.Fails]⟩
      | _ => cases hr
    | _ => cases hl

/-- In a typed listing the blocks in normal form are those without a computation that is due. -/
lemma normalAt_iff {t : Toggles} {l : Listing} {b : BlockId} (hl : l.WellTyped) :
    NormalAt t l b ↔ ∀ q x f, instrAt? l q = some x → x.block = b →
      Formula.ofAction l x.action = some f → ¬Due t l b f q := by
  have htyped {q : Nat} {x : Instr} (hx : instrAt? l q = some x) : x.action.HasTy l x.ty := by
    obtain ⟨i, -, hx⟩ := Option.bind_eq_some_iff.1 hx
    exact hl.instrs hx
  constructor
  · rintro hn q x f hx hb hf (⟨helim, hcarries⟩ | ⟨hfold, value, hvalue⟩)
    · exact hn.eliminated helim hx hb hf hcarries
    · obtain ⟨op, lhs, rhs, w, hact⟩ := compute_of_ofAction hf
      rw [hact] at hf
      obtain ⟨hleft, hright⟩ := isLiteral_of_fold? hf hvalue
      obtain ⟨g, hg, hiff⟩ := fold?_eq_none_iff (hact ▸ htyped hx) hleft hright
      obtain rfl := Option.some.inj (hf.symm.trans hg)
      rw [hiff.2 (hn.folded hfold hx hb hact hleft hright)] at hvalue
      cases hvalue
  · intro hdue
    refine ⟨fun helim q x f hx hb hf hcarries => hdue q x f hx hb hf (.inl ⟨helim, hcarries⟩),
      fun hfold q x op lhs rhs w hx hb hact hleft hright => ?_⟩
    obtain ⟨f, hf, hiff⟩ := fold?_eq_none_iff (hact ▸ htyped hx) hleft hright
    refine hiff.1 (Option.eq_none_iff_forall_ne_some.2 fun value hvalue => ?_)
    exact hdue q x f hx hb (hact ▸ hf) (.inr ⟨hfold, value, hvalue⟩)

/-! ### One instruction -/

/-- The scan puts a copy in the place of a computation of the formula. -/
def Replaces (t : Toggles) (table : Table) (f : Formula) : Prop :=
  t.eliminate = true ∧ (∃ h, (f, h) ∈ table) ∨ t.fold = true ∧ ∃ value, f.fold? = some value

lemma Table.exists_mem_assign {table : Table} {w : VarId} {keeps : Bool} {f : Formula} :
    (∃ h, (f, h) ∈ table.assign w keeps) ↔ (∃ h, (f, h) ∈ table) ∧ f.reads w = false := by
  constructor
  · rintro ⟨h, hm⟩
    obtain ⟨old, hold, hreads, -⟩ := mem_of_mem_assign hm
    exact ⟨⟨old, hold⟩, hreads⟩
  · rintro ⟨⟨h, hm⟩, hreads⟩
    have hforget : (f, h) ∈ table.forget w := mem_forget.2 ⟨hm, hreads⟩
    cases keeps with
    | true => exact ⟨h, hforget⟩
    | false => exact ⟨h.detach w, mem_detach.2 ⟨h, hforget, rfl⟩⟩

lemma Table.exists_mem_insert {table : Table} {f g : Formula} {h' : Holding} :
    (∃ h, (f, h) ∈ table.insert g h') ↔ f = g ∨ ∃ h, (f, h) ∈ table := by
  simp only [mem_insert]
  by_cases hfg : f = g <;> simp [hfg]

lemma spares_iff {a : Action} {w : VarId} {f : Formula} (hw : a.targetVar = some w) :
    a.Spares f ↔ f.reads w = false := by
  simp [Action.Spares, hw]

/-- The table knows what it knew and what is computed now, except what reads the target. -/
lemma Numbered.known {l : Listing} {fresh j : Nat} {table table' : Table} {p p' : List CopyOrder}
    {a a' : Action} (h : Numbered (Formula.ofAction l) fresh j table p a table' p' a')
    {g : Formula} : (∃ h, (g, h) ∈ table') ↔
      ((∃ h, (g, h) ∈ table) ∨ Formula.ofAction l a = some g) ∧ a.Spares g := by
  cases h with
  | skip hw =>
    have hnone : Formula.ofAction l a ≠ some g := by
      intro hf
      obtain ⟨op, lhs, rhs, w, rfl⟩ := compute_of_ofAction hf
      cases hw
    simp [hnone, Action.Spares, hw]
  | assign hw hf => simp [Table.exists_mem_assign, spares_iff hw, hf]
  | @reuse w f h o hw hf hm _ =>
    rw [Table.exists_mem_assign, spares_iff hw, hf]
    grind
  | @materialize w f v origin hw hf hm =>
    rw [Table.exists_mem_assign, Table.exists_mem_insert, spares_iff hw, hf]
    grind
  | @fold w f literal hw hf hlit =>
    have hreads := Formula.reads_of_fold? hlit w
    rw [Table.exists_mem_insert, Table.exists_mem_assign, spares_iff hw, hf]
    grind
  | @miss w f hw hf =>
    rw [spares_iff hw, hf]
    split
    · rw [Table.exists_mem_assign]
      grind
    · rw [Table.exists_mem_insert, Table.exists_mem_assign]
      grind

namespace Scan

/-- What a step does at an instruction that exists: it only learns from it, or it puts a copy in
its place and reports a change. -/
lemma step_cases {s : Scan} {i : InstrId} {x : Instr} (t : Toggles) (block : Block) (j : Nat)
    (hx : s.listing.instr? i = some x) :
    ((∀ f, Formula.ofAction s.listing x.action = some f → ¬Replaces t s.table f) ∧
      ∃ table, s.step t block (i, j) = { s with table }) ∨
    ∃ f w o, Formula.ofAction s.listing x.action = some f ∧ Replaces t s.table f ∧
      (s.step t block (i, j)).changed = true ∧
      (s.step t block (i, j)).listing.instr? i = some { x with action := .copy o (.var w) } := by
  have hcopy (vars : Variables) (o : Operand) (w : VarId) :=
    instr?_replaceByCopy (l := { s.listing with vars }) hx w o
  have hstep := step_stepped t block j hx
  generalize s.step t block (i, j) = s' at hstep ⊢
  cases hstep with
  | skip hw =>
    refine .inl ⟨fun f hf => ?_, s.table, rfl⟩
    obtain ⟨op, lhs, rhs, w, hact⟩ := compute_of_ofAction hf
    rw [hact] at hw
    cases hw
  | assign hw hf => exact .inl ⟨by simp [hf], _, rfl⟩
  | @reuse w f h o hw hf helim hmem ho =>
    exact .inr ⟨f, w, o, hf, .inl ⟨helim, h, hmem⟩, rfl, hcopy s.listing.vars o w⟩
  | @materialize w f v origin hw hf helim hmem =>
    exact .inr ⟨f, w, _, hf, .inl ⟨helim, _, hmem⟩, rfl, hcopy _ _ w⟩
  | @fold w f literal hw hf hfold hlit =>
    exact .inr ⟨f, w, _, hf, .inr ⟨hfold, literal, hlit⟩, rfl, hcopy s.listing.vars _ w⟩
  | @miss w f hw hf hunknown hunfolded =>
    refine .inl ⟨fun g hg => ?_, by split <;> exact ⟨_, rfl⟩⟩
    obtain rfl := Option.some.inj (hf.symm.trans hg)
    rintro (⟨helim, h, hmem⟩ | ⟨hfold, literal, hsome⟩)
    · exact hunknown helim h hmem
    · simp [hunfolded hfold] at hsome

end Scan

/-! ### One block -/

section

variable {l : Listing}

lemma carries_succ {b : BlockId} {f : Formula} {q : Nat} {x : Instr} (hx : instrAt? l q = some x)
    (hb : x.block = b) : l.Carries b f (q + 1) ↔
      (l.Carries b f q ∨ Formula.ofAction l x.action = some f) ∧ x.action.Spares f := by
  constructor
  · rintro ⟨p, hp, y, hy, hyb, hf, hspares⟩
    refine ⟨?_, hspares q x (Nat.le_of_lt_succ hp) (Nat.lt_succ_self q) hx⟩
    obtain hlt | rfl := Nat.lt_succ_iff_lt_or_eq.1 hp
    · exact .inl ⟨p, hlt, y, hy, hyb, hf, fun r z hr hrq => hspares r z hr (Nat.lt_succ_of_lt hrq)⟩
    · exact .inr (Option.some.inj (hy.symm.trans hx) ▸ hf)
  · rintro ⟨⟨p, hp, y, hy, hyb, hf, hspares⟩ | hf, hx'⟩
    · refine ⟨p, Nat.lt_succ_of_lt hp, y, hy, hyb, hf, fun r z hr hrq hz => ?_⟩
      obtain hlt | rfl := Nat.lt_succ_iff_lt_or_eq.1 hrq
      · exact hspares r z hr hlt hz
      · exact Option.some.inj (hx.symm.trans hz) ▸ hx'
    · refine ⟨q, Nat.lt_succ_self q, x, hx, hb, hf, fun r z hr hrq hz => ?_⟩
      obtain rfl := Nat.le_antisymm hr (Nat.le_of_lt_succ hrq)
      exact Option.some.inj (hx.symm.trans hz) ▸ hx'

variable {block : Block} {pre post : List InstrId} (h : l.HasBlock block pre post)
  (t : Toggles) (events : Log)

include h

/-- A computation of the new code is one of the old code. -/
lemma computed_before {q : Nat} {y : Instr} {f : Formula}
    (hy : instrAt? (scanBlock t (l, events) block).1 q = some y)
    (hf : Formula.ofAction (scanBlock t (l, events) block).1 y.action = some f) :
    ∃ pc x, instrAt? l pc = some x ∧ q = moved t block l events pre pc ∧ x.block = y.block ∧
      Formula.ofAction l x.action = some f := by
  obtain ⟨op, lhs, rhs, w, hact⟩ := compute_of_ofAction hf
  obtain ⟨pc, x, hx, hq, hr⟩ | ⟨c, -, hcopy, -⟩ := scanBlock_at_cases h t events hy
  · obtain hsame | ⟨_, _, _, _, _, -, hcopy⟩ := hr.action
    · obtain ⟨i, -, hinstr⟩ := Option.bind_eq_some_iff.1 hx
      have hformula := (scanBlock_reshaped h t events).ofAction_eq (h.coherent.inScope hinstr)
      exact ⟨pc, x, hx, hq, hr.block.symm, by rw [← hformula, ← hsame, hf]⟩
    · rw [hact] at hcopy
      cases hcopy
  · rw [hact] at hcopy
    cases hcopy

/-- What the new code carries the old one has carried. -/
lemma carries_before {b : BlockId} {f : Formula} {pc : Nat} (hpc : pc ≤ l.stream.length)
    (hc : (scanBlock t (l, events) block).1.Carries b f (moved t block l events pre pc)) :
    l.Carries b f pc := by
  obtain ⟨q, hlt, y, hy, hb, hf, hspares⟩ := hc
  obtain ⟨p, x, hx, rfl, hxb, hfx⟩ := computed_before h t events hy hf
  refine ⟨p, lt_of_moved_lt h t events (at_lt hx).le hlt, x, hx, hxb.trans hb, hfx, ?_⟩
  intro r z hr hrpc hz
  obtain ⟨z', hz', hreshaped⟩ := reshaped_at h t events hz
  have hle : moved t block l events pre p ≤ moved t block l events pre r := by
    obtain rfl | hlt := hr.eq_or_lt
    · exact le_rfl
    · exact (moved_lt h t events hlt (at_lt hz).le).le
  have := hspares _ z' hle (moved_lt h t events hrpc hpc) hz'
  rwa [Action.Spares, hreshaped.targetVar] at this

/-- What is due in the new code was due in the old one. -/
lemma due_before {b : BlockId} {f : Formula} {q : Nat} {y : Instr}
    (hy : instrAt? (scanBlock t (l, events) block).1 q = some y) (hb : y.block = b)
    (hf : Formula.ofAction (scanBlock t (l, events) block).1 y.action = some f)
    (hdue : Due t (scanBlock t (l, events) block).1 b f q) :
    ∃ pc x, instrAt? l pc = some x ∧ q = moved t block l events pre pc ∧ x.block = b ∧
      Formula.ofAction l x.action = some f ∧ Due t l b f pc := by
  obtain ⟨pc, x, hx, rfl, hxb, hfx⟩ := computed_before h t events hy hf
  refine ⟨pc, x, hx, rfl, hxb.trans hb, hfx, hdue.imp_left fun hc => ⟨hc.1, ?_⟩⟩
  exact carries_before h t events (at_lt hx).le hc.2

omit t events in
lemma HasBlock.instrAt? {j : Nat} {i : InstrId} {x : Instr} (hi : block.instrs[j]? = some i)
    (hx : l.instr? i = some x) : Machine.instrAt? l (pre.length + j) = some x := by
  rw [Machine.instrAt?, (h.getElem? (List.getElem?_eq_some_iff.1 hi).1).trans hi,
    Option.bind_some, hx]

variable (hw : l.Whole block)

include hw

/-- The table knows the formulas that the block carries. -/
lemma scanned_known {j : Nat} (hj : j ≤ block.instrs.length) {f : Formula} :
    (∃ h, (f, h) ∈ (scanned t block l events j).table) ↔
      l.Carries block.id f (pre.length + j) := by
  induction j with
  | zero =>
    refine iff_of_false (by simp [scanned]) ?_
    rintro ⟨p, hp, x, hx, hb, -⟩
    obtain ⟨i, hi, hx⟩ := Option.bind_eq_some_iff.1 hx
    obtain ⟨k, -, hk⟩ := exists_position h hi (hw hx hb)
    omega
  | succ j ih =>
    have hi : block.instrs[j]? = some block.instrs[j] := List.getElem?_eq_getElem hj
    obtain ⟨x, hx, hb⟩ := h.exists_instr hi
    obtain ⟨fresh, a', hn, -⟩ := scanned_numbered h t events hi hx
    rw [hn.known, ih (Nat.le_of_succ_le hj), ← Nat.add_assoc,
      carries_succ (HasBlock.instrAt? h hi hx) hb]

/-- What the scan does at a position: nothing to the code, or it puts a copy in the place of a
computation that is due, and reports a change. -/
lemma scanned_cases {j : Nat} {i : InstrId} {x : Instr} (hi : block.instrs[j]? = some i)
    (hx : l.instr? i = some x) :
    ((∀ f, Formula.ofAction l x.action = some f → ¬Due t l block.id f (pre.length + j)) ∧
      ∃ table, scanned t block l events (j + 1) = { scanned t block l events j with table }) ∨
    ∃ f w o, Formula.ofAction l x.action = some f ∧ Due t l block.id f (pre.length + j) ∧
      (scanned t block l events (j + 1)).changed = true ∧
      (scanBlock t (l, events) block).1.instr? i =
        some { x with action := .copy o (.var w) } := by
  have hlt : j < block.instrs.length := (List.getElem?_eq_some_iff.1 hi).1
  have hs := Scan.scanned_sound h.coherent h.nodup (fun _ hi => h.mem_stream hi) t events hlt.le
  have hxs := (scanned_instr? h t events hi).trans hx
  have hformula := hs.reshaped.ofAction_eq (h.coherent.inScope hx)
  have hdue (f : Formula) : Replaces t (scanned t block l events j).table f ↔
      Due t l block.id f (pre.length + j) := by
    rw [Replaces, Due, scanned_known h t events hw hlt.le]
  obtain ⟨hkept, table, hstep⟩ | ⟨f, w, o, hf, hreplaces, hchanged, hcopy⟩ :=
    Scan.step_cases t block j hxs
  · refine .inl ⟨fun f hf => ?_, table, by rw [scanned_succ hi, hstep]⟩
    rw [← hdue]
    exact hkept f (hformula.trans hf)
  · refine .inr ⟨f, w, o, hformula.symm.trans hf, (hdue f).1 hreplaces, ?_, ?_⟩
    · rwa [scanned_succ hi]
    · rw [scanBlock_instr? h t events (instr?_isSome_iff.1 (by rw [hx]; rfl)), finished,
        (scanned_stable h t events hi hlt le_rfl).1, scanned_succ hi, hcopy]

/-- A change stays reported. -/
lemma scanned_changed {j k : Nat} (hjk : j ≤ k) (hk : k ≤ block.instrs.length)
    (hj : (scanned t block l events j).changed = true) :
    (scanned t block l events k).changed = true := by
  induction k, hjk using Nat.le_induction with
  | base => exact hj
  | succ k _ ih =>
    have hi : block.instrs[k]? = some block.instrs[k] := List.getElem?_eq_getElem hk
    obtain ⟨x, hx, -⟩ := h.exists_instr hi
    obtain ⟨-, table, heq⟩ | ⟨f, w, o, -, -, hchanged, -⟩ := scanned_cases h t events hw hi hx
    · rw [heq]
      exact ih (Nat.le_of_succ_le hk)
    · exact hchanged

omit h hw in
/-- The insertion of the copies adds nothing to what the scan has told. -/
lemma scanBlock_reports (t : Toggles) (events : Log) :
    (scanBlock t (l, events) block).2 =
      ((finished t block l events).events, (finished t block l events).changed) := by
  rw [finished, scanned_length, scanBlock]
  split <;> rfl

variable (hl : l.WellTyped)

include hl

/-- The scan of a block in normal form changes nothing. -/
lemma scanBlock_eq_self (hn : NormalAt t l block.id) :
    scanBlock t (l, events) block = (l, events, false) := by
  have hscanned {j : Nat} (hj : j ≤ block.instrs.length) :
      ∃ table, scanned t block l events j = { Scan.start l events with table } := by
    induction j with
    | zero => exact ⟨[], rfl⟩
    | succ j ih =>
      have hi : block.instrs[j]? = some block.instrs[j] := List.getElem?_eq_getElem hj
      obtain ⟨x, hx, hb⟩ := h.exists_instr hi
      obtain ⟨table, heq⟩ := ih (Nat.le_of_succ_le hj)
      obtain ⟨-, table', hnext⟩ | ⟨f, w, o, hf, hdue, -⟩ := scanned_cases h t events hw hi hx
      · exact ⟨table', by rw [hnext, heq]⟩
      · exact absurd hdue ((normalAt_iff hl).1 hn _ x f (HasBlock.instrAt? h hi hx) hb hf)
  obtain ⟨table, heq⟩ := hscanned le_rfl
  rw [scanned_length] at heq
  rw [scanBlock, heq]
  simp only
  split <;> rfl

/-- The scan of any other block reports a change. -/
lemma normalAt_or_changed : NormalAt t l block.id ∨
    (scanBlock t (l, events) block).2.2 = true := by
  by_contra hnot
  rw [not_or, scanBlock_reports] at hnot
  refine hnot.1 ((normalAt_iff hl).2 fun q x f hx hb hf hdue => hnot.2 ?_)
  obtain ⟨i, hi, hinstr⟩ := Option.bind_eq_some_iff.1 hx
  obtain ⟨j, hj, rfl⟩ := exists_position h hi (hw hinstr hb)
  have hlt : j < block.instrs.length := (List.getElem?_eq_some_iff.1 hj).1
  obtain ⟨hkept, -⟩ | ⟨-, -, -, -, -, hchanged, -⟩ := scanned_cases h t events hw hj hinstr
  · exact absurd hdue (hkept f hf)
  · exact scanned_changed h t events hw hlt le_rfl hchanged

/-- What is computed in the block after the scan is not due: the scan has seen it, and what was
due has become a copy. -/
lemma scanBlock_normalAt : NormalAt t (scanBlock t (l, events) block).1 block.id := by
  rw [normalAt_iff (scanBlock_wellTyped h t events hl)]
  intro q y f hy hb hf hdue
  obtain ⟨pc, x, hx, rfl, hxb, hfx, hdue⟩ := due_before h t events hy hb hf hdue
  obtain ⟨i, hi, hinstr⟩ := Option.bind_eq_some_iff.1 hx
  obtain ⟨j, hj, rfl⟩ := exists_position h hi (hw hinstr hxb)
  obtain ⟨hkept, -⟩ | ⟨-, w, o, -, -, -, hcopy⟩ := scanned_cases h t events hw hj hinstr
  · exact hkept f hfx hdue
  · rw [instrAt?_moved h, hi, Option.bind_some, hcopy] at hy
    obtain rfl := Option.some.inj hy
    cases hf

omit hw in
/-- The scan keeps the normal form of all blocks. -/
lemma NormalAt.scanBlock {b : BlockId} (hn : NormalAt t l b) :
    NormalAt t (scanBlock t (l, events) block).1 b := by
  rw [normalAt_iff (scanBlock_wellTyped h t events hl)]
  intro q y f hy hb hf hdue
  obtain ⟨pc, x, hx, -, hxb, hfx, hdue⟩ := due_before h t events hy hb hf hdue
  exact (normalAt_iff hl).1 hn pc x f hx hxb hfx hdue

end

/-! ### All blocks -/

/-- The blocks that are still to be scanned have all instructions with their stamps. -/
structure Unscanned (blocks : List Block) (l : Listing) : Prop extends Remaining blocks l where
  whole : ∀ {block}, block ∈ blocks → l.Whole block
  distinct : blocks.Pairwise fun b c => b.id ≠ c.id

lemma Unscanned.start {l : Listing} (hl : l.Coherent) : Unscanned l.blocks l where
  toRemaining := .start hl
  whole {block} hmem i x hx hb := by
    obtain ⟨b, hget⟩ := List.mem_iff_getElem?.1 hmem
    obtain ⟨hlt, rfl⟩ := hl.eq_of_getElem?_blocks hget
    rw [hl.ofInstrs_id hlt] at hb
    exact List.mem_map.2 ⟨x, hl.mem_stamped.2 ⟨⟨i, hx⟩, hb⟩, hl.ids hx⟩
  distinct := by
    have hids : l.blocks.map (·.id) = List.range l.blockCount := FlowGraph.ids_drawn hl .standard
    rw [← List.pairwise_map, hids]
    exact List.nodup_range

lemma Unscanned.step {block : Block} {blocks : List Block} {l : Listing}
    (h : Unscanned (block :: blocks) l) (t : Toggles) (events : Log) :
    Unscanned blocks (scanBlock t (l, events) block).1 where
  toRemaining := h.toRemaining.step t events
  whole {c} hc i y hy hb := by
    obtain ⟨done, hblock⟩ := h.toRemaining.hasBlock
    obtain ⟨x, hx, hr⟩ | ⟨n, order, ty, -, -, rfl⟩ := scanBlock_cases hblock t events hy
    · exact h.whole (List.mem_cons_of_mem _ hc) hx (hr.block.symm.trans hb)
    · exact absurd hb ((List.pairwise_cons.1 h.distinct).1 c hc)
  distinct := (List.pairwise_cons.1 h.distinct).2

/-- The instructions that the listing has with the stamp of a whole block are those of the block. -/
lemma map_id_stamped {l : Listing} {block : Block} {pre post : List InstrId}
    (hw : l.Whole block) (h : l.HasBlock block pre post) :
    (l.stamped block.id).map (·.id) = block.instrs := by
  have hmem : ∀ x ∈ l.instrs, (x.block == block.id) = decide (x.id ∈ block.instrs) := by
    intro x hx
    obtain ⟨i, hx⟩ := h.coherent.mem_instrs.1 hx
    obtain rfl : x.id = i := h.coherent.ids hx
    rw [Bool.eq_iff_iff, beq_iff_eq, decide_eq_true_iff]
    exact ⟨hw hx, fun hi => h.stamped hi hx⟩
  have hnodup := h.coherent.nodup
  rw [h.stream] at hnodup
  have hpre : pre.filter (fun i => decide (i ∈ block.instrs)) = [] := by
    refine List.filter_eq_nil_iff.2 fun i hi hin => ?_
    exact (List.nodup_append.1 hnodup.of_append_left).2.2 i hi i (of_decide_eq_true hin) rfl
  have hpost : post.filter (fun i => decide (i ∈ block.instrs)) = [] := by
    refine List.filter_eq_nil_iff.2 fun i hi hin => ?_
    exact (List.nodup_append.1 hnodup).2.2 i
      (List.mem_append_right _ (of_decide_eq_true hin)) i hi rfl
  have hself : block.instrs.filter (fun i => decide (i ∈ block.instrs)) = block.instrs :=
    List.filter_eq_self.2 fun i hi => decide_eq_true hi
  calc (l.stamped block.id).map (·.id)
      = (l.instrs.map (·.id)).filter (fun i => decide (i ∈ block.instrs)) := by
        rw [stamped, List.filter_congr hmem, List.filter_map]
        rfl
    _ = block.instrs := by
        rw [map_id_instrs h.coherent, h.stream, List.filter_append, List.filter_append, hpre,
          hself, hpost, List.nil_append, List.append_nil]

/-- What is still to be scanned are blocks of the listing as it is by now. -/
lemma Unscanned.getElem?_blocks {block : Block} {blocks : List Block} {l : Listing}
    (h : Unscanned (block :: blocks) l) :
    ∃ c, l.blocks[block.id]? = some c ∧ c.id = block.id ∧ c.instrs = block.instrs := by
  obtain ⟨done, hb⟩ := h.toRemaining.hasBlock
  obtain ⟨i, hi⟩ := List.exists_mem_of_ne_nil _ hb.nonempty
  obtain ⟨x, hx⟩ := h.coherent.exists_instr (hb.mem_stream hi)
  have hlt : block.id < l.blockCount := by
    rw [← hb.stamped hi hx]
    exact h.coherent.lt_blockCount (h.coherent.mem_instrs.2 ⟨i, hx⟩)
  exact ⟨_, h.coherent.getElem?_blocks hlt, h.coherent.ofInstrs_id hlt,
    map_id_stamped (h.whole List.mem_cons_self) hb⟩

/-- A scan reads the number and the instructions of its block, not its sets. -/
lemma scanNext_congr {block c : Block} (hid : c.id = block.id) (hinstrs : c.instrs = block.instrs)
    (t : Toggles) (state : Listing × Log × Bool) : scanNext t state c = scanNext t state block := by
  obtain ⟨b, instrs, defs, exposed⟩ := c
  obtain ⟨b', instrs', defs', exposed'⟩ := block
  obtain rfl : b = b' := hid
  obtain rfl : instrs = instrs' := hinstrs
  rfl

/-- Scans the block with the number, as the listing is divided by now. -/
def scanAt (t : Toggles) (state : Listing × Log × Bool) (b : BlockId) : Listing × Log × Bool :=
  state.1.blocks[b]?.elim state (scanNext t state)

lemma Unscanned.foldl_scanAt {blocks : List Block} {l : Listing} (h : Unscanned blocks l)
    (t : Toggles) (events : Log) (changed : Bool) :
    (blocks.map (·.id)).foldl (scanAt t) (l, events, changed) =
      blocks.foldl (scanNext t) (l, events, changed) := by
  induction blocks generalizing l events changed with
  | nil => rfl
  | cons block blocks ih =>
    obtain ⟨c, hget, hid, hinstrs⟩ := h.getElem?_blocks
    have hhead : scanAt t (l, events, changed) block.id = scanNext t (l, events, changed) block := by
      rw [scanAt, hget, Option.elim_some, scanNext_congr hid hinstrs]
    rw [List.map_cons, List.foldl_cons, List.foldl_cons, hhead]
    exact ih (h.step t events) _ _

/-- **A run may divide the listing once.** The copies of a block go into the block itself, so to
divide the listing anew after each block, and to go on with the next number while there is a block
of it, scans the same blocks. -/
theorem run_eq_foldl_scanAt {l : Listing} (hl : l.Coherent) (t : Toggles) :
    run t l = (List.range l.blocks.length).foldl (scanAt t) (l, [], false) ∧
      (run t l).1.blocks.length = l.blocks.length := by
  have hids : l.blocks.map (·.id) = List.range l.blockCount := FlowGraph.ids_drawn hl .standard
  have hcoherent : (run t l).1.Coherent := ((Remaining.start hl).scan t [] false).1
  have hsame : l.SameBlocks (run t l).1 := (Remaining.start hl).sameBlocks t [] false
  constructor
  · rw [hl.length_blocks, ← hids, (Unscanned.start hl).foldl_scanAt, run]
  · rw [hcoherent.length_blocks, hl.length_blocks, hsame.count]

/-- What a run has changed, later blocks do not undo. -/
lemma foldl_scanNext_changed (t : Toggles) (blocks : List Block) (l : Listing) (events : Log) :
    (blocks.foldl (scanNext t) (l, events, true)).2.2 = true := by
  induction blocks generalizing l events with
  | nil => rfl
  | cons block blocks ih => exact ih _ _

/-- The scan of all the blocks that remain: it changes nothing where they are in normal form, it
reports a change where they are not, and they are in normal form afterwards. -/
lemma Unscanned.scan {blocks : List Block} {l : Listing} (h : Unscanned blocks l)
    (hl : l.WellTyped) (t : Toggles) (events : Log) (changed : Bool) :
    ((∀ block ∈ blocks, NormalAt t l block.id) →
      blocks.foldl (scanNext t) (l, events, changed) = (l, events, changed)) ∧
    ((∀ block ∈ blocks, NormalAt t l block.id) ∨
      (blocks.foldl (scanNext t) (l, events, changed)).2.2 = true) ∧
    ∀ b, NormalAt t l b ∨ (∃ block ∈ blocks, block.id = b) →
      NormalAt t (blocks.foldl (scanNext t) (l, events, changed)).1 b := by
  induction blocks generalizing l events changed with
  | nil => exact ⟨fun _ => rfl, .inl (by simp), fun b hb => by simpa using hb⟩
  | cons block blocks ih =>
    obtain ⟨done, hb⟩ := h.toRemaining.hasBlock
    have hw : l.Whole block := h.whole List.mem_cons_self
    obtain ⟨hsame, hchanged, hnormal⟩ := ih (h.step t events) (scanBlock_wellTyped hb t events hl)
      (scanBlock t (l, events) block).2.1 (changed || (scanBlock t (l, events) block).2.2)
    rw [List.foldl_cons, scanNext_eq]
    refine ⟨fun hall => ?_, ?_, fun b hb' => hnormal b ?_⟩
    · obtain ⟨hhead, hrest⟩ := List.forall_mem_cons.1 hall
      rw [scanBlock_eq_self hb t events hw hl hhead] at hsame ⊢
      simpa only [Bool.or_false] using hsame hrest
    · obtain hhead | hflag := normalAt_or_changed hb t events hw hl
      · rw [scanBlock_eq_self hb t events hw hl hhead] at hchanged ⊢
        exact hchanged.imp_left fun hrest => List.forall_mem_cons.2 ⟨hhead, hrest⟩
      · refine .inr ?_
        rw [hflag, Bool.or_true]
        exact foldl_scanNext_changed t blocks _ _
    · obtain hn | ⟨c, hc, rfl⟩ := hb'
      · exact .inl (hn.scanBlock hb t events hl)
      · obtain rfl | hc := List.mem_cons.1 hc
        · exact .inl (scanBlock_normalAt hb t events hw hl)
        · exact .inr ⟨c, hc, rfl⟩

/-- A stamp that no block has is in normal form. -/
lemma normalAt_or_exists_block {l : Listing} (hl : l.Coherent) (t : Toggles) (b : BlockId) :
    NormalAt t l b ∨ ∃ block ∈ l.blocks, block.id = b := by
  by_cases hb : b < l.blockCount
  · exact .inr ⟨_, List.mem_of_getElem? (hl.getElem?_blocks hb), hl.ofInstrs_id hb⟩
  · have hnot {q : Nat} {x : Instr} (hx : instrAt? l q = some x) : x.block ≠ b := by
      rintro rfl
      exact hb (hl.block_lt_at hx)
    exact .inl ⟨fun _ _ _ _ hx hxb => absurd hxb (hnot hx),
      fun _ _ _ _ _ _ _ hx hxb => absurd hxb (hnot hx)⟩

section

variable {l : Listing} (h : l.Reachable) (t : Toggles)

include h

lemma run_of_normal (hn : Normal t l) : run t l = (l, [], false) :=
  ((Unscanned.start h.coherent).scan h.wellTyped t [] false).1 fun block _ => hn block.id

lemma normal_of_run (hrun : (run t l).2.2 = false) : Normal t l := by
  intro b
  obtain hn | ⟨block, hblock, rfl⟩ := normalAt_or_exists_block h.coherent t b
  · exact hn
  · obtain hall | hchanged := ((Unscanned.start h.coherent).scan h.wellTyped t [] false).2.1
    · exact hall block hblock
    · rw [← run, hrun] at hchanged
      cases hchanged

lemma run_normal : Normal t (run t l).1 := fun b =>
  ((Unscanned.start h.coherent).scan h.wellTyped t [] false).2.2 b
    (normalAt_or_exists_block h.coherent t b)

/-- The second run finds the normal form that the first one has made. -/
lemma run_run : run t (run t l).1 = ((run t l).1, [], false) :=
  run_of_normal (.numbered t h) t (run_normal h t)

end

/-! ### Rounds -/

open Schedule

lemma runRound_pass {σ : Type} (t : Toggles) (p : Progress σ) : ∃ log,
    runRound [pass t] false p =
      (⟨p.state, (run t p.listing).1, log⟩, .ok (run t p.listing).2.2) :=
  ⟨_, rfl⟩

/-- Two rounds are enough, and a higher limit makes no difference. -/
lemma runRounds_pass {σ : Type} (t : Toggles) {p : Progress σ} (h : p.listing.Reachable) :
    ∃ log, ∃ rounds ≤ 2, ∀ limit ≥ 2, runRounds [pass t] limit 0 p =
      (⟨p.state, (run t p.listing).1, log⟩, .ok rounds) := by
  obtain ⟨log, hfirst⟩ := runRound_pass t p
  cases hchanged : (run t p.listing).2.2 with
  | false =>
    rw [hchanged] at hfirst
    refine ⟨log, 1, by decide, fun limit hlimit => ?_⟩
    obtain ⟨n, rfl⟩ := Nat.exists_eq_add_of_le' hlimit
    simp only [runRounds, hfirst]
  | true =>
    rw [hchanged] at hfirst
    obtain ⟨log', hsecond⟩ := runRound_pass t ⟨p.state, (run t p.listing).1, log⟩
    rw [run_run h t] at hsecond
    refine ⟨log', 2, le_rfl, fun limit hlimit => ?_⟩
    obtain ⟨n, rfl⟩ := Nat.exists_eq_add_of_le' hlimit
    simp only [runRounds, hfirst, hsecond]

/-- **Value numbering normalizes in one run**: it reports no change exactly on listings in normal
form, leaves these as they are, and makes all others so. Hence a compilation that optimizes ends
after at most two rounds with the code that the first one has made, whatever higher limit there is.
-/
theorem run_normalizes :
    (∀ (l : Listing) (t : Toggles) {σ : Type} (state : σ), l.Reachable →
      (((pass t).run state l).result = .ok false ↔ Normal t l) ∧
      (Normal t l → (pass t).run state l = ⟨state, l, [], .ok false⟩) ∧
      Normal t ((pass t).run state l).listing) ∧
    ∀ (program : Source.Program) (l : Listing) (settings : Settings),
      Listing.ofProgram program = .ok l → settings.optimize = true →
      ∃ c : Compiled, c.rounds ≤ 2 ∧ c.listing = (run settings.numbering l).1 ∧
        ∀ limit ≥ 2, compile { settings with maxRounds := limit } program = .ok c := by
  refine ⟨fun l t σ state h => ⟨⟨fun hresult => ?_, fun hn => ?_⟩, fun hn => ?_, run_normal h t⟩,
    fun program l settings hl hopt => ?_⟩
  · refine normal_of_run h t ?_
    simpa [pass] using hresult
  · simp [pass, run_of_normal h t hn]
  · simp [pass, run_of_normal h t hn]
  · obtain ⟨log, rounds, hrounds, hall⟩ := runRounds_pass settings.numbering
      (p := (⟨(), l, []⟩ : Progress Unit)) (.lowered hl)
    refine ⟨⟨(run settings.numbering l).1, log, rounds⟩, hrounds, rfl, fun limit hlimit => ?_⟩
    have hpasses : Settings.passes { settings with maxRounds := limit } =
        ([pass settings.numbering] : List (Pass Unit)) := by
      rw [Settings.passes, if_pos hopt]
    have hrun : Schedule.run [pass settings.numbering] limit (⟨(), l, []⟩ : Progress Unit) =
        (⟨(), (run settings.numbering l).1, log⟩, .ok rounds) := hall limit hlimit
    rw [compile, hl, hpasses]
    simp only [hrun, bind, Except.bind, pure, Except.pure]

/-- One of the two quotients can be done without, and after the run none can. So the second round
is the last one, also where ten are allowed. -/
theorem run_normalizes_twoQuotients : ∃ l c, Listing.ofProgram twoQuotients = .ok l ∧
    ¬Normal .standard l ∧ Normal .standard (run .standard l).1 ∧
    compile .standard twoQuotients = .ok c ∧ c.listing = (run .standard l).1 ∧ c.rounds = 2 := by
  have hok : ((Listing.ofProgram twoQuotients).toOption.map fun l =>
      ((run .standard l).2.2, (compile .standard twoQuotients).toOption.map (·.rounds))) =
      some (true, some 2) := by decide +kernel
  obtain ⟨l, hl, hok⟩ := toOption_map_eq_some.1 hok
  simp only [Prod.mk.injEq] at hok
  obtain ⟨hchanged, hrounds⟩ := hok
  obtain ⟨hreports, -, hnormal⟩ := run_normalizes.1 l .standard () (.lowered hl)
  obtain ⟨c, -, hlisting, hcompile⟩ := run_normalizes.2 twoQuotients l .standard hl rfl
  have hcompile : compile .standard twoQuotients = .ok c := hcompile 10 (by decide)
  refine ⟨l, c, hl, fun hn => ?_, hnormal, hcompile, hlisting, ?_⟩
  · have hresult := hreports.2 hn
    simp [pass, hchanged] at hresult
  · rw [hcompile] at hrounds
    exact Option.some.inj hrounds

end ValueNumbering

end ThreeAddress
