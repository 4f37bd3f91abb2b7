import ThreeAddress.Proofs.Numbering.Analyses
import ThreeAddress.Proofs.Numbering.Typing

/-!
The calling sequence. A call stands directly behind the pushes of its arguments, in one block with
them, and every push belongs to one call. Lowering has evaluated all the arguments of a call before
it pushes the first one, so the calls in the arguments are over by then. Value numbering inserts
copies behind computations only, so never behind a push.
-/

namespace ThreeAddress

open Machine

/-- From position `p` on the code pushes operands of the types of the parameters, one after the
other, and then it calls the function, all in one block. -/
structure Calls (l : Listing) (code : Nat → Option Instr) (callee : LabelId) (params : List Ty)
    (p : Nat) : Prop where
  declared : ∃ name f, l.functions.get? name = some f ∧ f.label = callee ∧ f.params = params
  sequence : ∃ x target, code (p + params.length) = some x ∧ x.action = .call callee target ∧
    ∀ {k ty}, params[k]? = some ty → ∃ y value, code (p + k) = some y ∧ y.action = .push value ∧
      y.block = x.block ∧ l.typeOf? value = some ty

/-- Every call and every push of the code is part of a calling sequence. -/
structure Sequenced (l : Listing) (code : Nat → Option Instr) : Prop where
  calls : ∀ {q x callee target}, code q = some x → x.action = .call callee target →
    ∃ params p, q = p + params.length ∧ Calls l code callee params p
  pushes : ∀ {r y value}, code r = some y → y.action = .push value →
    ∃ callee params p, Calls l code callee params p ∧ p ≤ r ∧ r < p + params.length

/-- The functions keep their labels and parameters. -/
def Listing.KeepsParams (l l' : Listing) : Prop :=
  ∀ {name f}, l.functions.get? name = some f →
    ∃ f', l'.functions.get? name = some f' ∧ f'.label = f.label ∧ f'.params = f.params

section

variable {l l' : Listing} {code code' : Nat → Option Instr} {callee callee' : LabelId}
  {params params' : List Ty} {p p' r : Nat}

namespace Calls

lemma push_at (h : Calls l code callee params p) (hle : p ≤ r) (hlt : r < p + params.length) :
    ∃ y value, code r = some y ∧ y.action = .push value := by
  obtain ⟨k, rfl⟩ := Nat.exists_eq_add_of_le hle
  have hk : params[k]? = some params[k] := List.getElem?_eq_getElem (Nat.lt_of_add_lt_add_left hlt)
  obtain ⟨x, -, -, -, hpushes⟩ := h.sequence
  obtain ⟨y, value, hy, hact, -⟩ := hpushes hk
  exact ⟨y, value, hy, hact⟩

/-- A call does not stand among the pushes of another one. -/
lemma end_le (h : Calls l code callee params p) (h' : Calls l code callee' params' p')
    (hr : r < p + params.length) (hr' : p' ≤ r) : p' + params'.length ≤ p + params.length := by
  by_contra hlt
  obtain ⟨x, target, hx, hact, -⟩ := h.sequence
  obtain ⟨y, value, hy, hact'⟩ := h'.push_at (hr'.trans hr.le) (Nat.lt_of_not_le hlt)
  obtain rfl := Option.some.inj (hx.symm.trans hy)
  rw [hact] at hact'
  cases hact'

/-- A push belongs to one call. -/
lemma end_unique (h : Calls l code callee params p) (h' : Calls l code callee' params' p')
    (hle : p ≤ r) (hlt : r < p + params.length) (hle' : p' ≤ r) (hlt' : r < p' + params'.length) :
    p' + params'.length = p + params.length :=
  Nat.le_antisymm (h.end_le h' hlt hle') (h'.end_le h hlt' hle)

/-- A calling sequence may be elsewhere in other code. -/
lemma transfer (h : Calls l code callee params p) (hparams : l.KeepsParams l')
    (htypes : ∀ {o ty}, l.typeOf? o = some ty → l'.typeOf? o = some ty)
    (hcode : ∀ {k x}, k ≤ params.length → code (p + k) = some x → x.action.inCall = true →
      code' (p' + k) = some x) : Calls l' code' callee params p' := by
  obtain ⟨name, f, hf, hlabel, hps⟩ := h.declared
  obtain ⟨f', hf', hlabel', hps'⟩ := hparams hf
  obtain ⟨x, target, hx, hact, hpushes⟩ := h.sequence
  refine ⟨⟨name, f', hf', hlabel'.trans hlabel, hps'.trans hps⟩, x, target,
    hcode le_rfl hx (by rw [hact]; rfl), hact, fun {k ty} hk => ?_⟩
  obtain ⟨y, value, hy, hact', hblock, hty⟩ := hpushes hk
  have hlt : k < params.length := (List.getElem?_eq_some_iff.1 hk).1
  exact ⟨y, value, hcode hlt.le hy (by rw [hact']; rfl), hact', hblock, htypes hty⟩

end Calls

/-- The code grows by actions that neither push nor call, and by whole calling sequences. -/
lemma Sequenced.grow (h : Sequenced l code) (hparams : l.KeepsParams l')
    (htypes : ∀ {o ty}, l.typeOf? o = some ty → l'.typeOf? o = some ty)
    (hold : ∀ {q x}, code q = some x → code' q = some x)
    (hnew : ∀ {q x}, code' q = some x → x.action.inCall = true → code q = some x ∨
      ∃ callee params p, Calls l' code' callee params p ∧ p ≤ q ∧ q ≤ p + params.length) :
    Sequenced l' code' := by
  refine ⟨fun {q x callee target} hx hact => ?_, fun {q x value} hx hact => ?_⟩
  · obtain hx' | ⟨callee', params, p, hcalls, hle, hle'⟩ := hnew hx (by rw [hact]; rfl)
    · obtain ⟨params, p, rfl, hcalls⟩ := h.calls hx' hact
      exact ⟨params, p, rfl, hcalls.transfer hparams htypes fun _ hx _ => hold hx⟩
    · obtain hlt | rfl := hle'.lt_or_eq
      · obtain ⟨y, value, hy, hact'⟩ := hcalls.push_at hle hlt
        obtain rfl := Option.some.inj (hx.symm.trans hy)
        rw [hact] at hact'
        cases hact'
      · obtain ⟨y, target', hy, hact', -⟩ := hcalls.sequence
        obtain rfl := Option.some.inj (hx.symm.trans hy)
        obtain ⟨rfl, -⟩ := Action.call.inj (hact.symm.trans hact')
        exact ⟨params, p, rfl, hcalls⟩
  · obtain hx' | ⟨callee', params, p, hcalls, hle, hle'⟩ := hnew hx (by rw [hact]; rfl)
    · obtain ⟨callee, params, p, hcalls, hle, hlt⟩ := h.pushes hx' hact
      exact ⟨callee, params, p, hcalls.transfer hparams htypes fun _ hx _ => hold hx, hle, hlt⟩
    · refine ⟨callee', params, p, hcalls, hle, hle'.lt_of_ne ?_⟩
      rintro rfl
      obtain ⟨y, target', hy, hact', -⟩ := hcalls.sequence
      obtain rfl := Option.some.inj (hx.symm.trans hy)
      rw [hact] at hact'
      cases hact'

end

/-! ### Lowering -/

lemma Functions.declare_params {t t' : Functions} {labels labels' : Labels} {name : String}
    {f old : Signature} {returns : Ty} {params : List Ty} {define : Bool}
    (h : t.declare labels name returns params define = .ok (t', labels', f))
    (hold : t.get? name = some old) : f.params = old.params := by
  obtain ⟨old', hold', -, rfl, -⟩ | ⟨hnone, -⟩ := declare_cases h
  · obtain rfl := Option.some.inj (hold.symm.trans hold')
    rfl
  · rw [hold] at hnone
    cases hnone

namespace Lowering

variable {s t s' : Lowering}

lemma ItemStep.keepsParams (h : ItemStep s s') : s.listing.KeepsParams s'.listing := by
  intro name g hg
  cases h with
  | step hs => exact ⟨g, hs.reaches.carries.functions.symm ▸ hg, rfl, rfl⟩
  | context => exact ⟨g, hg, rfl, rfl⟩
  | declareFunction hd =>
    obtain ⟨functions, labels, hdeclare, rfl⟩ := declareFunction_eq hd
    obtain ⟨hget, -, -, hcases⟩ := Functions.declare_spec hdeclare
    simp only [hget]
    split
    · rename_i hname
      subst hname
      obtain ⟨-, old, hold, -, hlabel, -⟩ | ⟨-, hnone, -⟩ := hcases
      · obtain rfl := Option.some.inj (hold.symm.trans hg)
        exact ⟨_, rfl, hlabel, Functions.declare_params hdeclare hold⟩
      · rw [hnone] at hg
        cases hg
    · exact ⟨g, hg, rfl, rfl⟩

lemma Extends.keepsParams (h : Extends s s') : s.listing.KeepsParams s'.listing := by
  induction h with
  | refl => exact fun hf => ⟨_, hf, rfl, rfl⟩
  | tail _ hstep ih =>
    intro name f hf
    obtain ⟨g, hg, hlabel, hparams⟩ := ih hf
    obtain ⟨g', hg', hlabel', hparams'⟩ := hstep.keepsParams hg
    exact ⟨g', hg', hlabel'.trans hlabel, hparams'.trans hparams⟩

/-- Where the pushes of arguments stand. -/
lemma pushes_instr {args : List Operand} {s s' : Lowering} (h : Lower.Pushes args s s') :
    s'.listing.arena.size = s.listing.arena.size + args.length ∧ s'.block = s.block ∧
      (∀ i < s.listing.arena.size, s'.listing.instr? i = s.listing.instr? i) ∧
      ∀ {k o}, args[k]? = some o → ∃ y, s'.listing.instr? (s.listing.arena.size + k) = some y ∧
        y.action = .push o ∧ y.block = s.block := by
  induction h with
  | nil => exact ⟨rfl, rfl, fun _ _ => rfl, by simp⟩
  | @cons o rest s t s' id he _ ih =>
    obtain ⟨hsize, hblock, hkept, hpushes⟩ := ih
    have hblock' : t.block = s.block := emit_block he rfl
    obtain ⟨rfl, ty, -, hl, -⟩ := emit_eq he
    have hsize' : t.listing.arena.size = s.listing.arena.size + 1 := by simp [hl]
    refine ⟨by rw [hsize, hsize', List.length_cons]; omega, hblock.trans hblock',
      fun i hi => ?_, fun {k o'} hk => ?_⟩
    · rw [hkept i (by omega)]
      simp [Listing.instr?, hl, Array.getElem?_push, hi.ne]
    · cases k with
      | zero =>
        obtain rfl := Option.some.inj hk
        refine ⟨⟨s.listing.arena.size, .push o, ty, s.block⟩, ?_, rfl, rfl⟩
        rw [Nat.add_zero, hkept _ (by omega)]
        simp [Listing.instr?, hl]
      | succ k =>
        obtain ⟨y, hy, hact, hb⟩ := hpushes hk
        rw [hsize', Nat.add_right_comm] at hy
        exact ⟨y, hy, hact, hb.trans hblock'⟩

/-- The instructions of a call phrase. -/
lemma calls_phrase {name : String} {f : Signature} {args : List Operand} {target : Option VarId}
    (hf : s.listing.functions.get? name = some f) (hargs : List.Forall₂ s.Yields args f.params)
    (hpush : Lower.Pushes args s t) (hcall : Performs t (.call f.label target) s')
    (hextends : Extends s s') :
    s'.listing.arena.size = s.listing.arena.size + f.params.length + 1 ∧
      Calls s'.listing s'.listing.instr? f.label f.params s.listing.arena.size := by
  obtain ⟨hsize, hblock, -, hpushes⟩ := pushes_instr hpush
  rw [hargs.length_eq] at hsize
  obtain ⟨i, ty, harena⟩ := hcall.arena
  obtain ⟨f', hf', hlabel, hparams⟩ := hextends.keepsParams hf
  refine ⟨by rw [harena, Array.size_push, hsize], ⟨name, f', hf', hlabel, hparams⟩, _, target,
    by rw [Listing.instr?, harena, ← hsize, Array.getElem?_push_size], rfl, fun {k ty} hk => ?_⟩
  have hlt : k < args.length := hargs.length_eq ▸ (List.getElem?_eq_some_iff.1 hk).1
  obtain ⟨y, hy, hact, hb⟩ := hpushes (List.getElem?_eq_getElem hlt)
  have hyields : s.Yields args[k] ty := by
    obtain ⟨hlt', rfl⟩ := List.getElem?_eq_some_iff.1 hk
    exact (List.forall₂_iff_get.1 hargs).2 k hlt hlt'
  refine ⟨y, args[k], ?_, hact, hb.trans hblock.symm,
    hextends.keepsTypes.types hyields.typed.typeOf?⟩
  rw [Listing.instr?, harena, Array.getElem?_push, if_neg (Lower.instr?_lt hy).ne]
  exact hy

lemma Phrase.sequenced (h : Phrase s s') (hs : Sequenced s.listing s.listing.instr?) :
    Sequenced s'.listing s'.listing.instr? := by
  have hextends := h.issues.extends
  have hkept {q : InstrId} (hq : q < s.listing.arena.size) :
      s'.listing.instr? q = s.listing.instr? q := hextends.kept.instr q hq
  refine hs.grow hextends.keepsParams hextends.keepsTypes.types
    (fun hx => (hkept (Lower.instr?_lt hx)).trans hx) fun {q x} hx hcall => ?_
  cases h with
  | declare _ harena => exact .inl (by rwa [Listing.instr?, harena] at hx)
  | plain _ harena hplain =>
    rw [Listing.instr?, harena, Array.getElem?_push] at hx
    split at hx
    · obtain rfl := Option.some.inj hx
      rw [hplain] at hcall
      cases hcall
    · exact .inl hx
  | call hf hargs hpush hperforms =>
    obtain ⟨hsize, hcalls⟩ := calls_phrase hf hargs hpush hperforms hextends
    by_cases hlt : q < s.listing.arena.size
    · exact .inl ((hkept hlt).symm.trans hx)
    · have hq := Lower.instr?_lt hx
      rw [hsize] at hq
      exact .inr ⟨_, _, _, hcalls, Nat.le_of_not_lt hlt, Nat.le_of_lt_succ hq⟩

lemma Phrases.sequenced (h : Phrases s s') (hs : Sequenced s.listing s.listing.instr?) :
    Sequenced s'.listing s'.listing.instr? := by
  induction h with
  | refl => exact hs
  | tail _ hstep ih => exact hstep.sequenced ih

end Lowering

lemma Listing.ofProgram_sequenced {p : Source.Program} {l : Listing}
    (h : Listing.ofProgram p = .ok l) : Sequenced l (instrAt? l) := by
  obtain ⟨s, hp, rfl⟩ := ofProgram_ok h
  have hphrases := Lower.program_phrases hp
  have hstream := (hphrases.issues.extends.sound Lowering.sound_start).stream
  have hcode : instrAt? s.listing = s.listing.instr? := by
    funext q
    by_cases hq : q < s.listing.arena.size
    · rw [instrAt?, hstream, List.getElem?_range hq, Option.bind_some]
    · rw [instrAt?, hstream, List.getElem?_eq_none (by simpa using hq), Listing.instr?,
        Array.getElem?_eq_none (Nat.le_of_not_lt hq)]
      rfl
  rw [hcode]
  refine hphrases.sequenced ⟨fun hx => ?_, fun hx => ?_⟩ <;>
    simp [Lowering.start, Listing.empty, Listing.instr?] at hx

/-! ### Value numbering -/

namespace ValueNumbering

variable {l : Listing} {block : Block} {pre post : List InstrId}
  (h : l.HasBlock block pre post) (t : Toggles) (events : Log)

include h

/-- Pushes and calls are not rewritten. -/
lemma instrAt?_inCall {pc : Nat} {x : Instr} (hx : instrAt? l pc = some x)
    (hcall : x.action.inCall = true) :
    instrAt? (scanBlock t (l, events) block).1 (moved t block l events pre pc) = some x := by
  obtain hkept | ⟨j, f, w, o, -, -, -, hf, -⟩ := scanBlock_at h t events hx
  · exact hkept
  · obtain ⟨op, lhs, rhs, w, hact⟩ := compute_of_ofAction hf
    rw [hact] at hcall
    cases hcall

/-- The pushes and calls of the new code are those of the old one. -/
lemma inCall_before {q : Nat} {y : Instr}
    (hy : instrAt? (scanBlock t (l, events) block).1 q = some y) (hcall : y.action.inCall = true) :
    ∃ pc, q = moved t block l events pre pc ∧ instrAt? l pc = some y := by
  obtain ⟨pc, x, hx, rfl, hr⟩ | ⟨c, -, hact, -⟩ := scanBlock_at_cases h t events hy
  · refine ⟨pc, rfl, ?_⟩
    obtain hact | ⟨op, lhs, rhs, w, o, -, hact⟩ := hr.action
    · have hkept := instrAt?_inCall h t events hx (by rwa [← hact])
      rw [hx, Option.some.inj (hkept.symm.trans hy)]
    · rw [hact] at hcall
      cases hcall
  · rw [hact] at hcall
    cases hcall

/-- Nothing is inserted behind a push. -/
lemma moved_push {pc : Nat} {x : Instr} {value : Operand} (hx : instrAt? l pc = some x)
    (hact : x.action = .push value) :
    moved t block l events pre (pc + 1) = moved t block l events pre pc + 1 := by
  have horders : ordersAt t block l events pre pc = [] := by
    rw [List.eq_nil_iff_forall_not_mem]
    intro c hc
    obtain ⟨hmem, rfl⟩ := (mem_ordersAt t events).1 hc
    obtain ⟨y, hy, -, htarget⟩ := pending_source h t events hmem
    obtain rfl := Option.some.inj (hx.symm.trans hy)
    rw [hact] at htarget
    cases htarget
  obtain ⟨i, hi, -⟩ := Option.bind_eq_some_iff.1 hx
  rw [moved_succ h t events hi, horders]
  rfl

/-- A calling sequence moves as a whole. -/
lemma moved_calls {callee : LabelId} {params : List Ty} {p k : Nat}
    (hcalls : Calls l (instrAt? l) callee params p) (hk : k ≤ params.length) :
    moved t block l events pre (p + k) = moved t block l events pre p + k := by
  induction k with
  | zero => rfl
  | succ k ih =>
    obtain ⟨y, value, hy, hact⟩ := hcalls.push_at (Nat.le_add_right p k) (Nat.add_lt_add_left hk p)
    rw [← Nat.add_assoc, moved_push h t events hy hact, ih (Nat.le_of_succ_le hk), Nat.add_assoc]

lemma calls_scanBlock {callee : LabelId} {params : List Ty} {p : Nat}
    (hcalls : Calls l (instrAt? l) callee params p) :
    Calls (scanBlock t (l, events) block).1 (instrAt? (scanBlock t (l, events) block).1) callee
      params (moved t block l events pre p) := by
  refine hcalls.transfer (fun {name f} hf => ⟨f, ?_, rfl, rfl⟩)
    (scanBlock_keepsTypes h t events).types fun {k x} hk hx hcall => ?_
  · obtain ⟨arena, stream, vars, heq⟩ := scanBlock_tables h t events
    rwa [heq]
  · rw [← moved_calls h t events hcalls hk]
    exact instrAt?_inCall h t events hx hcall

lemma scanBlock_sequenced (hl : Sequenced l (instrAt? l)) :
    Sequenced (scanBlock t (l, events) block).1 (instrAt? (scanBlock t (l, events) block).1) := by
  refine ⟨fun {q x callee target} hx hact => ?_, fun {r y value} hy hact => ?_⟩
  · obtain ⟨pc, rfl, hx'⟩ := inCall_before h t events hx (by rw [hact]; rfl)
    obtain ⟨params, p, rfl, hcalls⟩ := hl.calls hx' hact
    exact ⟨params, _, moved_calls h t events hcalls le_rfl, calls_scanBlock h t events hcalls⟩
  · obtain ⟨pc, rfl, hy'⟩ := inCall_before h t events hy (by rw [hact]; rfl)
    obtain ⟨callee, params, p, hcalls, hle, hlt⟩ := hl.pushes hy' hact
    obtain ⟨k, rfl⟩ := Nat.exists_eq_add_of_le hle
    have hk : k < params.length := Nat.lt_of_add_lt_add_left hlt
    refine ⟨callee, params, _, calls_scanBlock h t events hcalls, ?_, ?_⟩ <;>
      rw [moved_calls h t events hcalls hk.le]
    · exact Nat.le_add_right _ _
    · exact Nat.add_lt_add_left hk _

end ValueNumbering

lemma Listing.Reachable.sequenced {l : Listing} (h : l.Reachable) : Sequenced l (instrAt? l) :=
  h.invariant ofProgram_sequenced fun hb t events =>
    ValueNumbering.scanBlock_sequenced hb t events

/-- **The calling sequence**, after lowering and after any number of runs of value numbering. Each
call refers to a function of the table, and the instructions directly before it push one operand
for each parameter, of its type and in the block of the call. Each push belongs to exactly one call
in this way. -/
theorem Listing.Reachable.calling_sequence {l : Listing} (h : l.Reachable) :
    (∀ q x callee target, instrAt? l q = some x → x.action = .call callee target →
      ∃ params p, q = p + params.length ∧ Calls l (instrAt? l) callee params p) ∧
    ∀ r y value, instrAt? l r = some y → y.action = .push value →
      ∃! q, ∃ callee params p, q = p + params.length ∧ Calls l (instrAt? l) callee params p ∧
        p ≤ r ∧ r < q := by
  refine ⟨fun q x callee target hx hact => h.sequenced.calls hx hact,
    fun r y value hy hact => ?_⟩
  obtain ⟨callee, params, p, hcalls, hle, hlt⟩ := h.sequenced.pushes hy hact
  refine ⟨p + params.length, ⟨callee, params, p, rfl, hcalls, hle, hlt⟩, ?_⟩
  rintro q ⟨callee', params', p', rfl, hcalls', hle', hlt'⟩
  exact hcalls.end_unique hcalls' hle hlt hle' hlt'

/-- `int g(int x); int f(int x, int y); void h() { f(g(1), 2); }` -/
def nestedCall : Source.Program :=
  .items [
    .prototype ⟨"g", .int, [⟨.int, "x"⟩]⟩,
    .prototype ⟨"f", .int, [⟨.int, "x"⟩, ⟨.int, "y"⟩]⟩,
    .function ⟨"h", .void, []⟩ (.compound [
      .expr (.call "f" [.call "g" [.int 1], .int 2])])]

/-- The call at position 5 has two pushes right before it. The push at position 1 belongs to one
call only, to the one at position 2 that makes the first argument. -/
theorem Listing.Reachable.calling_sequence_nestedCall : ∃ l,
    Listing.ofProgram nestedCall = .ok l ∧
    (∃ params p, 5 = p + params.length ∧ Calls l (instrAt? l) 1 params p) ∧
    ∃! q, ∃ callee params p, q = p + params.length ∧ Calls l (instrAt? l) callee params p ∧
      p ≤ 1 ∧ 1 < q := by
  have hok : ((Listing.ofProgram nestedCall).toOption.map fun l =>
      decide ((instrAt? l 5).map (·.action) = some (.call 1 (some 1)) ∧
        (instrAt? l 1).map (·.action) = some (.push (.int 1)))) = some true := by decide +kernel
  obtain ⟨l, hl, hok⟩ := toOption_map_eq_some.1 hok
  obtain ⟨hcall, hpush⟩ := of_decide_eq_true hok
  obtain ⟨x, hx, hact⟩ := Option.map_eq_some_iff.1 hcall
  obtain ⟨y, hy, hact'⟩ := Option.map_eq_some_iff.1 hpush
  obtain ⟨hcalls, hpushes⟩ := Reachable.calling_sequence (.lowered hl)
  exact ⟨l, hl, hcalls 5 x 1 (some 1) hx hact, hpushes 1 y (.int 1) hy hact'⟩

end ThreeAddress
