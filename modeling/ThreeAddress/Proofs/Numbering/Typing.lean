import ThreeAddress.Proofs.Lowering.Issues
import ThreeAddress.Proofs.Numbering.Meaning
import ThreeAddress.Proofs.Numbering.Origins

/-!
Types are sound. Lowering breaks no precondition and makes well-typed listings, and value
numbering keeps them well typed: computations of one formula have one type, so a computation may
become a copy of an earlier one, of a temporary that took over its value, or of the literal that
its formula folds to.
-/

namespace ThreeAddress

/-- Every instruction is typed, the types of variables and arrays have values, and a label tells
which function is called. -/
structure Listing.WellTyped (l : Listing) : Prop where
  instrs : ∀ {i x}, l.instr? i = some x → x.action.HasTy l x.ty
  vars : ∀ {v ty}, l.typeOf? (.var v) = some ty → ty.isValue
  arrays : ∀ {a ty}, l.typeOf? (.array a) = some ty → ty.isValue
  callees : ∀ {name name' f f'}, l.functions.get? name = some f →
    l.functions.get? name' = some f' → f.label = f'.label → name = name'

/-! ### Lowering -/

namespace Lowering

variable {s s' : Lowering}

/-- All instructions so far are typed. -/
def Typed (s : Lowering) : Prop :=
  ∀ ⦃i x⦄, s.listing.instr? i = some x → x.action.HasTy s.listing x.ty

lemma Issue.typed (h : Issue s s') (hs : s.Typed) : s'.Typed := by
  intro i x hx
  have hold (hx : s.listing.instr? i = some x) : x.action.HasTy s'.listing x.ty :=
    (hs hx).mono h.extends.keepsTypes
  obtain ⟨y, hadded⟩ | hdeclares := h.cases
  · simp only [Listing.instr?, hadded.arena, Array.getElem?_push] at hx
    split at hx
    · exact Option.some.inj hx ▸ hadded.typed
    · exact hold hx
  · exact hold (by simpa only [Listing.instr?, hdeclares.arena] using hx)

lemma Issues.typed (h : Issues s s') (hs : s.Typed) : s'.Typed := by
  induction h with
  | refl => exact hs
  | tail _ hstep ih => exact hstep.typed ih

end Lowering

/-- Lowering gives a listing or a diagnostic: no precondition is ever broken. -/
lemma Listing.ofProgram_cases (p : Source.Program) :
    (∃ l, Listing.ofProgram p = .ok l) ∨ ∃ d, Listing.ofProgram p = .error (.refused d) := by
  have hdecides := Lower.program_decides p
  unfold Listing.ofProgram StateT.run
  unfold Lower.Decides at hdecides
  split at hdecides
  · obtain ⟨u, s, hs, -⟩ := hdecides
    exact .inl ⟨s.listing, by rw [hs]; rfl⟩
  · obtain ⟨d, hd⟩ := hdecides
    exact .inr ⟨d, by rw [hd]; rfl⟩

lemma Lower.program_tabled {p : Source.Program} {s : Lowering} {u : Unit}
    (h : Lower.program p .start = .ok (u, s)) : ∃ done, Lower.Tabled done s := by
  cases p with
  | stmt body => exact ⟨[], Lower.tabled_start.reaches (Lower.stmt_reaches body le_rfl h)⟩
  | items is => exact ⟨_, (Lower.items_divided Lower.divided_start h).tabled⟩

lemma Listing.ofProgram_wellTyped {p : Source.Program} {l : Listing}
    (h : Listing.ofProgram p = .ok l) : l.WellTyped := by
  obtain ⟨s, hp, rfl⟩ := ofProgram_ok h
  have hissues := Lower.program_issues hp
  have hregular := hissues.regular Lowering.regular_start
  obtain ⟨done, htabled⟩ := Lower.program_tabled hp
  have hstart : Lowering.Typed .start := fun i x hx => by
    simp [Lowering.start, Listing.empty, Listing.instr?] at hx
  exact ⟨fun hx => hissues.typed hstart hx, hregular.vars, hregular.arrays, htabled.inj⟩

/-! ### Formulas -/

section

variable {l : Listing} {a a' : Action} {f : Formula} {o : Operand} {atom : Atom} {v : VarId}
  {ty ty' : Ty}

/-- What an action assigns has its type. -/
lemma Action.HasTy.target (h : a.HasTy l ty) (hv : a.targetVar = some v) :
    l.typeOf? (.var v) = some ty := by
  cases h with
  | compute _ _ _ hw => exact Option.some.inj hv ▸ hw
  | apply _ _ hw => exact Option.some.inj hv ▸ hw
  | @copy value place _ _ _ hp =>
    cases place with
    | var w => exact Option.some.inj hv ▸ hp.typeOf?
    | elem b index => cases hv
  | callInto _ _ _ hw => exact Option.some.inj hv ▸ hw
  | param _ hw => exact Option.some.inj hv ▸ hw
  | _ => cases hv

/-- An operand with a value has the type of its atom. -/
lemma Operand.HasTy.ofOperand (h : o.HasTy l ty) (hvalue : ty.isValue)
    (ha : Atom.ofOperand l o = some atom) : atom.operand.HasTy l ty := by
  cases h with
  | int n => exact Option.some.inj ha ▸ .int n
  | float x => exact Option.some.inj ha ▸ .float x
  | var hv => exact Option.some.inj ha ▸ .var hv
  | elem => cases ha
  | instr => cases hvalue

/-- A computation has a type that its formula tells. -/
lemma Action.HasTy.formula (h : a.HasTy l ty) (hf : Formula.ofAction l a = some f) :
    ∃ op operandTy, f.op = .binary op ∧ ty = op.resultTy operandTy ∧ ty.isValue ∧
      f.lhs.operand.HasTy l operandTy := by
  obtain ⟨op, lhs, rhs, w, left, right, rfl, hleft, -, rfl⟩ := ValueNumbering.ofAction_eq_some hf
  cases h with
  | compute hvalue hl _ _ =>
    exact ⟨op, _, rfl, rfl, op.isValue_resultTy hvalue, hl.ofOperand hvalue hleft⟩

/-- Computations of one formula have one type. -/
lemma Action.HasTy.formula_unique (h : a.HasTy l ty) (h' : a'.HasTy l ty')
    (hf : Formula.ofAction l a = some f) (hf' : Formula.ofAction l a' = some f) : ty = ty' := by
  obtain ⟨op, t, hop, rfl, -, hleft⟩ := h.formula hf
  obtain ⟨op', t', hop', rfl, -, hleft'⟩ := h'.formula hf'
  obtain rfl : op = op' := Operator.binary.inj (hop.symm.trans hop')
  obtain rfl : t = t' := Option.some.inj (hleft.typeOf?.symm.trans hleft'.typeOf?)
  rfl

/-- Integers fold to integers, floats to floats, and comparisons of either to integers. -/
lemma Action.HasTy.fold (h : a.HasTy l ty) (hf : Formula.ofAction l a = some f)
    (hfold : f.fold? = some atom) : atom.operand.HasTy l ty := by
  obtain ⟨op, t, hop, rfl, -, hleft⟩ := h.formula hf
  unfold Formula.fold? at hfold
  rw [hop] at hfold
  split at hfold
  · rename_i n op' m hlhs heq hrhs
    obtain rfl : op = op' := Operator.binary.inj heq
    obtain ⟨k, -, rfl⟩ := Option.map_eq_some_iff.1 hfold
    rw [hlhs] at hleft
    cases hleft
    have hint : op.resultTy .int = .int := by cases op <;> rfl
    rw [hint]
    exact .int k
  · rename_i x op' y hlhs heq hrhs
    obtain rfl : op = op' := Operator.binary.inj heq
    obtain rfl := Option.some.inj hfold
    rw [hlhs] at hleft
    cases hleft
    cases op <;> constructor
  · cases hfold

end

/-! ### Value numbering -/

namespace ValueNumbering

open Listing

/-- The computation that a value is taken from has the type of the one that takes it. -/
lemma Origin.typeOf? (hl : l.WellTyped) {l' : Listing} {body : List InstrId} {j k : Nat}
    {f : Formula} {v : VarId} (horigin : Origin l l' body j f k v) {a : Action} {ty : Ty}
    (ha : a.HasTy l ty) (hf : Formula.ofAction l a = some f) :
    l.typeOf? (.var v) = some ty := by
  obtain ⟨i, x, -, hx, -, hfx, htarget⟩ := horigin.kept
  have hxty := hl.instrs hx
  rw [ha.formula_unique hxty hf hfx]
  exact hxty.target htarget

section

variable {l : Listing} {block : Block} {pre post : List InstrId}
  (h : l.HasBlock block pre post) (t : Toggles) (events : Log)

include h

/-- What the scan makes of an instruction. -/
lemma scanBlock_instr {i : InstrId} {x : Instr} (hx : l.instr? i = some x) :
    (scanBlock t (l, events) block).1.instr? i = some x ∨
      ∃ j f w o, Formula.ofAction l x.action = some f ∧ x.action.targetVar = some w ∧
        (scanBlock t (l, events) block).1.instr? i =
          some { x with action := .copy o (.var w) } ∧
        Supplies l (scanBlock t (l, events) block).1 block.instrs
          (finished t block l events).pending j f o := by
  by_cases hmem : i ∈ block.instrs
  · obtain ⟨j, hj⟩ := List.mem_iff_getElem?.1 hmem
    obtain hkept | ⟨f, w, o, hrest⟩ := scanBlock_supplied h t events hj hx
    · exact .inl hkept
    · exact .inr ⟨j, f, w, o, hrest⟩
  · rw [scanBlock_untouched h t events (instr?_isSome_iff.1 (by rw [hx]; rfl)) hmem]
    exact .inl hx

lemma scanBlock_keepsTypes : l.KeepsTypes (scanBlock t (l, events) block).1 := by
  obtain ⟨arena, stream, vars, heq⟩ := scanBlock_tables h t events
  refine ⟨fun {o ty} ho => ?_, fun {name f} hf => ⟨f, by rwa [heq], rfl, rfl⟩⟩
  cases o with
  | var v =>
    simpa only [typeOf?, scanBlock_vars_old h t events (Lower.typeOf?_var ho)] using ho
  | instr i =>
    obtain ⟨x, hx, rfl⟩ := Option.map_eq_some_iff.1 ho
    obtain hkept | ⟨j, f, w, o, -, -, hcopy, -⟩ := scanBlock_instr h t events hx
    · rw [typeOf?, hkept]
      rfl
    · rw [typeOf?, hcopy]
      rfl
  | array a | elem a index =>
    rw [heq]
    exact ho
  | _ => exact ho

/-- What stands for the value of a computation has its type. -/
lemma supplies_hasTy (hl : l.WellTyped) {j : Nat} {f : Formula} {o : Operand}
    (hsupplies : Supplies l (scanBlock t (l, events) block).1 block.instrs
      (finished t block l events).pending j f o) {a : Action} {ty : Ty} (ha : a.HasTy l ty)
    (hf : Formula.ofAction l a = some f) : o.HasTy (scanBlock t (l, events) block).1 ty := by
  have hkeeps := scanBlock_keepsTypes h t events
  cases hsupplies with
  | literal hlit => exact (ha.fold hf hlit).mono hkeeps
  | holder horigin => exact .var (hkeeps.types (horigin.typeOf? hl ha hf))
  | copied horigin hc =>
    obtain ⟨y, hy, -, -, hty⟩ := scanBlock_temp h t events hc
    rw [horigin.typeOf? hl ha hf] at hty
    exact .var (Option.map_eq_some_iff.2 ⟨y, hy, hty⟩)

/-- A new temporary has the type of what it copies. -/
lemma pending_typeOf? (hl : l.WellTyped) {c : CopyOrder}
    (hc : c ∈ (finished t block l events).pending) :
    ∃ ty, ty.isValue ∧ l.typeOf? (.var c.source) = some ty ∧
      (scanBlock t (l, events) block).1.typeOf? (.var c.temp) = some ty := by
  obtain ⟨x, hx, -, htarget⟩ := pending_source h t events hc
  obtain ⟨i, -, hx⟩ := Option.bind_eq_some_iff.1 hx
  have hsource := (hl.instrs hx).target htarget
  obtain ⟨z, hz, -, -, hty⟩ := scanBlock_temp h t events hc
  rw [hsource] at hty
  exact ⟨x.ty, hl.vars hsource, hsource, Option.map_eq_some_iff.2 ⟨z, hz, hty⟩⟩

/-- A copy that is spliced in is typed. -/
lemma scanBlock_copy_hasTy (hl : l.WellTyped) {n : Nat} {c : CopyOrder} {y : Instr}
    (hc : (finished t block l events).pending[n]? = some c)
    (hy : (scanBlock t (l, events) block).1.instr? (l.arena.size + n) = some y) :
    y.action.HasTy (scanBlock t (l, events) block).1 y.ty := by
  obtain ⟨ty, hvalue, hsource, htemp⟩ := pending_typeOf? h t events hl (List.mem_of_getElem? hc)
  have hsource' := (scanBlock_keepsTypes h t events).types hsource
  have hcopy := (scanBlock_spliced h t events).new hc
  have hty : (finished t block l events).listing.typeOf? (.var c.source) = some ty := by
    rwa [typeOf?, ← scanBlock_vars h t events]
  rw [(finished_sound h t events).size, hy, hty] at hcopy
  obtain rfl := Option.some.inj hcopy
  exact .copy hvalue (.var hsource') (.var htemp)

lemma scanBlock_wellTyped (hl : l.WellTyped) : (scanBlock t (l, events) block).1.WellTyped := by
  have hkeeps := scanBlock_keepsTypes h t events
  obtain ⟨arena, stream, vars, heq⟩ := scanBlock_tables h t events
  refine ⟨fun {i y} hy => ?_, fun {v ty} hv => ?_, ?_, ?_⟩
  · obtain ⟨x, hx, -⟩ | ⟨n, c, ty, hc, rfl, -⟩ := scanBlock_cases h t events hy
    · have hty := hl.instrs hx
      obtain hkept | ⟨j, f, w, o, hf, hw, hcopy, hsupplies⟩ := scanBlock_instr h t events hx
      · obtain rfl := Option.some.inj (hkept.symm.trans hy)
        exact hty.mono hkeeps
      · obtain rfl := Option.some.inj (hcopy.symm.trans hy)
        exact .copy (hl.vars (hty.target hw)) (supplies_hasTy h t events hl hsupplies hty hf)
          (.var (hkeeps.types (hty.target hw)))
    · exact scanBlock_copy_hasTy h t events hl hc hy
  · by_cases hlt : v < l.vars.size
    · exact hl.vars (v := v) (by
        simpa only [typeOf?, scanBlock_vars_old h t events hlt] using hv)
    · obtain ⟨c, hc, rfl⟩ := scanBlock_vars_new h t events (Nat.le_of_not_lt hlt)
        (Lower.typeOf?_var hv)
      obtain ⟨ty', hvalue, -, htemp⟩ := pending_typeOf? h t events hl hc
      exact Option.some.inj (htemp.symm.trans hv) ▸ hvalue
  · rw [heq]
    exact hl.arrays
  · rw [heq]
    exact hl.callees

end

end ValueNumbering

namespace Listing

/-- Every listing that lowering and value numbering make is typed. -/
theorem Reachable.wellTyped {l : Listing} (h : l.Reachable) : l.WellTyped :=
  h.invariant ofProgram_wellTyped ValueNumbering.scanBlock_wellTyped

/-- **Type soundness**: no program makes lowering break a precondition, and all that lowering and
value numbering make is well typed. -/
theorem types_sound :
    (∀ p, (∃ l, Listing.ofProgram p = .ok l) ∨ ∃ d, Listing.ofProgram p = .error (.refused d)) ∧
      ∀ l : Listing, l.Reachable → l.WellTyped := by
  refine ⟨ofProgram_cases, fun l h => ?_⟩
  exact h.invariant ofProgram_wellTyped ValueNumbering.scanBlock_wellTyped

/-- `float x; int v[4]; int k = x < 1.5; v[v[0]] = x < 1.5;` -/
def repeatedTest : Source.Program :=
  .stmt (.compound [
    .decl .float "x" none,
    .array .int "v" 4,
    .decl .int "k" (some (.binary .lt (.var "x") (.float ⟨0x3FC00000⟩))),
    .expr (.assign (.elem "v" (.elem "v" (.int 0)))
      (.binary .lt (.var "x") (.float ⟨0x3FC00000⟩)))])

/-- The second comparison of floats becomes a copy of an integer, and the element that serves as
an index is copied first. -/
theorem types_sound_repeatedTest : ∃ l, Listing.ofProgram repeatedTest = .ok l ∧
    (ValueNumbering.run .standard l).1.WellTyped ∧
    (ValueNumbering.run .standard l).1.instrs.map (fun x => (x.action, x.ty)) =
      [(.compute .lt (.var 0) (.float ⟨0x3FC00000⟩) 1, .int),
        (.copy (.var 1) (.var 2), .int),
        (.copy (.elem 0 (.int 0)) (.var 3), .int),
        (.copy (.var 2) (.elem 0 (.var 3)), .int)] := by
  have hok : ((Listing.ofProgram repeatedTest).toOption.map fun l =>
      (ValueNumbering.run .standard l).1.instrs.map fun x => (x.action, x.ty)) =
      some [(.compute .lt (.var 0) (.float ⟨0x3FC00000⟩) 1, .int),
        (.copy (.var 1) (.var 2), .int),
        (.copy (.elem 0 (.int 0)) (.var 3), .int),
        (.copy (.var 2) (.elem 0 (.var 3)), .int)] := by decide +kernel
  obtain ⟨l, hl, hok⟩ := toOption_map_eq_some.1 hok
  exact ⟨l, hl, types_sound.2 _ (.numbered .standard (.lowered hl)), hok⟩

end Listing

end ThreeAddress
