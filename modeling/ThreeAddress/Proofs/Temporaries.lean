import ThreeAddress.Proofs.Lowering.Issues
import ThreeAddress.Proofs.Numbering.Analyses

/-!
Temporaries are local. One instruction assigns a temporary, and those that read it come behind
this one in its block, so that no temporary is exposed by a block or live at its ends.

Lowering makes a temporary together with the instruction that assigns it and reads it only while
it stays in the block. Value numbering moves instructions apart but not past each other; what it
reads instead of computing has been assigned before, in the same block.
-/

namespace ThreeAddress

open Machine ControlFlow DataFlow

namespace Listing

variable {l : Listing} {v : VarId} {pc : Nat} {x : Instr}

/-- The instruction at `pc` is the only one that assigns the variable, and what reads it comes
behind in the same block. -/
structure LocalTo (l : Listing) (v : VarId) (pc : Nat) (x : Instr) : Prop where
  found : instrAt? l pc = some x
  assigns : x.action.targetVar = some v
  unique : ∀ {q y}, instrAt? l q = some y → y.action.targetVar = some v → q = pc
  read : ∀ {q y}, instrAt? l q = some y → v ∈ l.uses y.action → pc < q ∧ y.block = x.block

/-- Each temporary has an instruction that it is local to. -/
def LocalTemporaries (l : Listing) : Prop :=
  ∀ ⦃v y⦄, l.vars.get? v = some y → y.isTemporary = true → ∃ pc x, l.LocalTo v pc x

/-- The instruction that assigns the variable is the one at `pc`. -/
lemma LocalTo.eq (h : l.LocalTo v pc x) {q : Nat} {y : Instr} (hy : instrAt? l q = some y)
    (hv : y.action.targetVar = some v) : q = pc ∧ y = x := by
  obtain rfl := h.unique hy hv
  exact ⟨rfl, Option.some.inj (hy.symm.trans h.found)⟩

/-- What is local is not read before it is assigned. -/
lemma LocalTo.not_exposes (h : l.LocalTo v pc x) (b : BlockId) : ¬l.Exposes b v := by
  rintro ⟨q, y, hy, rfl, hv, hbefore⟩
  obtain ⟨hlt, hblock⟩ := h.read hy hv
  exact hbefore pc x hlt h.found hblock.symm h.assigns

lemma LocalTo.not_live (h : l.LocalTo v pc x) (b : BlockId) : ¬l.Live v b := by
  intro hlive
  induction hlive with
  | here hexposes => exact h.not_exposes _ hexposes
  | later _ _ _ ih => exact ih

lemma LocalTo.not_liveAfter (h : l.LocalTo v pc x) (b : BlockId) : ¬l.LiveAfter v b := by
  rintro ⟨c, -, hlive⟩
  exact h.not_live c hlive

end Listing

/-! ### Lowering -/

namespace Lowering

variable {s s' : Lowering}

lemma Sound.instrAt? (h : s.Sound) (i : Nat) :
    Machine.instrAt? s.listing i = s.listing.instr? i := by
  rw [Machine.instrAt?, h.stream]
  by_cases hi : i < s.listing.arena.size
  · rw [List.getElem?_range hi, Option.bind_some]
  · rw [List.getElem?_eq_none (by simpa using hi), Option.bind_none, Listing.instr?,
      Array.getElem?_eq_none (Nat.le_of_not_lt hi)]

/-- A variable with a name is no temporary. -/
lemma not_temporary {l : Listing} {v : VarId} {y : Variable} (hv : v ∈ l.named)
    (hy : l.vars.get? v = some y) : y.isTemporary = false := by
  obtain ⟨z, hz, htemp⟩ := Listing.mem_named.1 hv
  exact Option.some.inj (hz.symm.trans hy) ▸ htemp

lemma Added.cases {x : Instr} (h : Added s x s') {q : Nat} {z : Instr}
    (hz : s'.listing.instr? q = some z) :
    s.listing.instr? q = some z ∨ q = s.listing.arena.size ∧ z = x := by
  simp only [Listing.instr?, h.arena, Array.getElem?_push] at hz
  split at hz
  · rename_i hq
    exact .inr ⟨hq, (Option.some.inj hz).symm⟩
  · exact .inl hz

section

variable (hs : s.Sound) (hs' : s'.Sound) (hkept : Kept s s') {v : VarId} {pc : Nat} {x z : Instr}

include hs hkept

/-- Old instructions read what they have read before. -/
lemma uses_kept {q : Nat} (hz : s.listing.instr? q = some z) :
    s'.listing.uses z.action = s.listing.uses z.action :=
  Listing.uses_congr (hs.coherent.inScope hz) hkept.resolve_eq

include hs'

lemma Declares.localTo (hd : Declares s s') (h : s.listing.LocalTo v pc x) :
    s'.listing.LocalTo v pc x := by
  have hat (q : Nat) : Machine.instrAt? s'.listing q = Machine.instrAt? s.listing q := by
    simp only [hs.instrAt?, hs'.instrAt?, Listing.instr?, hd.arena]
  refine ⟨by rw [hat, h.found], h.assigns, fun {q y} hy => h.unique (hat q ▸ hy), ?_⟩
  intro q y hy hv
  rw [hat] at hy
  rw [uses_kept hs hkept (hs.instrAt? q ▸ hy)] at hv
  exact h.read hy hv

/-- What was local stays so: the new instruction does not assign it, and if it reads it, it is in
the block where it was assigned. -/
lemma Added.localTo (ha : Added s z s') (h : s.listing.LocalTo v pc x)
    (hv : v < s.listing.vars.size) (hnamed : v ∉ s.listing.named) :
    s'.listing.LocalTo v pc x := by
  have hfound := h.found
  rw [hs.instrAt?] at hfound
  have hlt := Lower.instr?_lt hfound
  refine ⟨?_, h.assigns, fun {q y} hy htarget => ?_, fun {q y} hy hread => ?_⟩
  · rw [hs'.instrAt?, hkept.instr pc hlt, hfound]
  · rw [hs'.instrAt?] at hy
    obtain hy | ⟨rfl, rfl⟩ := ha.cases hy
    · exact h.unique ((hs.instrAt? q).trans hy) htarget
    · obtain hv' | hv' := ha.target v htarget
      · exact absurd hv' hnamed
      · exact absurd hv hv'.not_gt
  · rw [hs'.instrAt?] at hy
    obtain hy | ⟨rfl, rfl⟩ := ha.cases hy
    · rw [uses_kept hs hkept hy] at hread
      exact h.read ((hs.instrAt? q).trans hy) hread
    · obtain ⟨hv' | ⟨i, w, hw, htarget, hblock⟩, hblock'⟩ := ha.reads v hread
      · exact absurd hv' hnamed
      · obtain ⟨rfl, rfl⟩ := h.eq ((hs.instrAt? i).trans hw) htarget
        exact ⟨hlt, hblock'.trans hblock.symm⟩

/-- A new temporary is local to the new instruction. -/
lemma Added.localTo_new (ha : Added s z s') (hv : s.listing.vars.size ≤ v)
    (hlt : v < s'.listing.vars.size) : s'.listing.LocalTo v s.listing.arena.size z := by
  have hassigned {i : Nat} {y : Instr} (hy : s.listing.instr? i = some y)
      (htarget : y.action.targetVar = some v) : False :=
    hv.not_gt ((hs.coherent.inScope hy).targetVar_lt htarget)
  refine ⟨?_, ha.fresh v hv hlt, fun {q y} hy htarget => ?_, fun {q y} hy hread => ?_⟩
  · rw [hs'.instrAt?, Listing.instr?, ha.arena, Array.getElem?_push_size]
  · rw [hs'.instrAt?] at hy
    obtain hy | ⟨rfl, -⟩ := ha.cases hy
    · exact (hassigned hy htarget).elim
    · rfl
  · rw [hs'.instrAt?] at hy
    exfalso
    obtain hy | ⟨-, rfl⟩ := ha.cases hy
    · rw [uses_kept hs hkept hy] at hread
      exact hv.not_gt (hs.coherent.mentions_lt hy (.inl hread))
    · obtain ⟨hnamed | ⟨i, w, hw, htarget, -⟩, -⟩ := ha.reads v hread
      · obtain ⟨w, hw, -⟩ := Listing.mem_named.1 hnamed
        exact hv.not_gt (Array.getElem?_eq_some_iff.1 hw).1
      · exact hassigned hw htarget

end

lemma Issue.localTemporaries (h : Issue s s') (hs : s.Sound)
    (hl : s.listing.LocalTemporaries) : s'.listing.LocalTemporaries := by
  intro v y hy htemp
  have hs' := h.extends.sound hs
  have hkept := h.extends.kept
  have hlt' : v < s'.listing.vars.size := (Array.getElem?_eq_some_iff.1 hy).1
  by_cases hlt : v < s.listing.vars.size
  · rw [hkept.vars v hlt] at hy
    obtain ⟨pc, x, hlocal⟩ := hl hy htemp
    have hnamed : v ∉ s.listing.named := fun hv => by
      rw [not_temporary hv hy] at htemp
      cases htemp
    obtain ⟨z, hadded⟩ | hdeclares := h.cases
    · exact ⟨pc, x, hadded.localTo hs hs' hkept hlocal hlt hnamed⟩
    · exact ⟨pc, x, hdeclares.localTo hs hs' hkept hlocal⟩
  · have hle := Nat.le_of_not_lt hlt
    obtain ⟨z, hadded⟩ | hdeclares := h.cases
    · exact ⟨_, z, hadded.localTo_new hs hs' hkept hle hlt'⟩
    · rw [not_temporary (hdeclares.named v hle hlt') hy] at htemp
      cases htemp

lemma Issues.localTemporaries (h : Issues s s') (hs : s.Sound)
    (hl : s.listing.LocalTemporaries) : s'.listing.LocalTemporaries := by
  induction h with
  | refl => exact hl
  | tail hsteps hstep ih => exact hstep.localTemporaries ((Issues.extends hsteps).sound hs) ih

end Lowering

lemma Listing.ofProgram_localTemporaries {p : Source.Program} {l : Listing}
    (h : Listing.ofProgram p = .ok l) : l.LocalTemporaries := by
  obtain ⟨s, hp, rfl⟩ := ofProgram_ok h
  refine (Lower.program_issues hp).localTemporaries Lowering.sound_start fun v y hy => ?_
  simp [Lowering.start, Listing.empty, Variables.empty, Variables.get?] at hy

/-! ### Value numbering -/

namespace ValueNumbering

open Listing

section

variable {l : Listing} {block : Block} {pre post : List InstrId}
  (h : l.HasBlock block pre post) (t : Toggles) (events : Log) {v : VarId} {pc : Nat} {x : Instr}

include h

/-- It is enough to look at the reads that were there before and at those of the copies that are
spliced in. -/
lemma scanBlock_localTo_of {q : Nat} {x' : Instr}
    (hx' : instrAt? (scanBlock t (l, events) block).1 q = some x')
    (hassigns : x'.action.targetVar = some v)
    (hunique : ∀ {q' y}, instrAt? (scanBlock t (l, events) block).1 q' = some y →
      y.action.targetVar = some v → q' = q)
    (hkept : ∀ {pc y}, instrAt? l pc = some y → v ∈ l.uses y.action →
      q < moved t block l events pre pc ∧ y.block = x'.block)
    (hcopies : ∀ {c}, c ∈ (finished t block l events).pending → c.source = v →
      q ≤ moved t block l events pre (pre.length + c.origin) ∧ x'.block = block.id) :
    (scanBlock t (l, events) block).1.LocalTo v q x' := by
  refine ⟨hx', hassigns, hunique, fun {q' y} hy hread => ?_⟩
  obtain ⟨pc, z, hz, rfl, hr⟩ | ⟨c, hc, hact, hb, hlow, -⟩ := scanBlock_at_cases h t events hy
  · obtain hsame | ⟨j, f, w, o, rfl, hj, hb, -, -, hcopy, hsupplies⟩ := scanBlock_at h t events hz
    · obtain rfl := Option.some.inj (hsame.symm.trans hy)
      obtain ⟨i, -, hinstr⟩ := Option.bind_eq_some_iff.1 hz
      rw [scanBlock_uses h t events hinstr] at hread
      exact hkept hz hread
    · -- what is copied in the place of a computation was assigned before, in the block
      obtain rfl := Option.some.inj (hcopy.symm.trans hy)
      have hread : v ∈ (scanBlock t (l, events) block).1.operandUses o := by
        simpa [uses_eq, Place.operand, targetUses] using hread
      obtain ⟨q', y, hlt, hy, hyb, htarget⟩ := supplied_assigned h t events hj hsupplies hread
      obtain rfl := hunique hy htarget
      obtain rfl := Option.some.inj (hy.symm.trans hx')
      exact ⟨hlt, hb.trans hyb.symm⟩
  · obtain rfl : v = c.source := by
      simpa [hact, uses_eq, Place.operand, targetUses, operandUses, resolve] using hread
    obtain ⟨hle, hblock⟩ := hcopies hc rfl
    exact ⟨hle.trans_lt hlow, hb.trans hblock.symm⟩

/-- What was local is local at its new position. -/
lemma scanBlock_localTo (hv : v < l.vars.size) (hl : l.LocalTo v pc x) :
    ∃ x', (scanBlock t (l, events) block).1.LocalTo v (moved t block l events pre pc) x' := by
  obtain ⟨x', hx', hr⟩ := reshaped_at h t events hl.found
  refine ⟨x', scanBlock_localTo_of h t events hx' (hr.targetVar.trans hl.assigns) ?_ ?_ ?_⟩
  · intro q y hy htarget
    obtain ⟨pc', z, hz, rfl, hrz⟩ | ⟨c, hc, hact, -⟩ := scanBlock_at_cases h t events hy
    · rw [hl.unique hz (hrz.targetVar.symm.trans htarget)]
    · obtain rfl : c.temp = v := by simpa [hact, Place.var?] using htarget
      exact absurd hv ((finished_sound h t events).pending c hc).1.temp.not_gt
  · intro pc' y hy hread
    obtain ⟨hlt, hblock⟩ := hl.read hy hread
    exact ⟨moved_lt h t events hlt (at_lt hy).le, hblock.trans hr.block.symm⟩
  · rintro c hc rfl
    obtain ⟨y, hy, hb, htarget⟩ := pending_source h t events hc
    obtain ⟨hpc, rfl⟩ := hl.eq hy htarget
    exact ⟨by rw [hpc], hr.block.trans hb⟩

/-- A new temporary is local to the copy that fills it. -/
lemma scanBlock_localTo_new (hv : l.vars.size ≤ v)
    (hlt : v < (scanBlock t (l, events) block).1.vars.size) :
    ∃ q x', (scanBlock t (l, events) block).1.LocalTo v q x' := by
  obtain ⟨c, hc, rfl⟩ := scanBlock_vars_new h t events hv hlt
  obtain ⟨n, hn⟩ := List.mem_iff_getElem?.1 hc
  obtain ⟨q, hq, -⟩ := scanBlock_copy_at h t events hn
  obtain ⟨ty, hcopy⟩ := scanBlock_copy h t events hn
  refine ⟨q, _, scanBlock_localTo_of h t events (by rw [instrAt?, hq, Option.bind_some, hcopy])
    rfl ?_ ?_ ?_⟩
  · intro q' y hy htarget
    obtain ⟨i, hi, hy⟩ := Option.bind_eq_some_iff.1 hy
    obtain rfl := scanBlock_assigns_temp h t events hy hn htarget
    exact (List.getElem?_inj (List.getElem?_eq_some_iff.1 hi).1
      (scanBlock_coherent h t events).nodup).1 (hi.trans hq.symm)
  · intro pc y hy hread
    obtain ⟨i, -, hy⟩ := Option.bind_eq_some_iff.1 hy
    exact absurd (h.coherent.mentions_lt hy (.inl hread)) hv.not_gt
  · intro c' hc' hsource
    obtain ⟨y, hy, -, htarget⟩ := pending_source h t events hc'
    obtain ⟨i, -, hy⟩ := Option.bind_eq_some_iff.1 hy
    rw [hsource] at htarget
    exact absurd ((h.coherent.inScope hy).targetVar_lt htarget) hv.not_gt

lemma scanBlock_localTemporaries (hl : l.LocalTemporaries) :
    (scanBlock t (l, events) block).1.LocalTemporaries := by
  intro v y hy htemp
  by_cases hlt : v < l.vars.size
  · rw [scanBlock_vars_old h t events hlt] at hy
    obtain ⟨pc, x, hlocal⟩ := hl hy htemp
    obtain ⟨x', hlocal'⟩ := scanBlock_localTo h t events hlt hlocal
    exact ⟨_, x', hlocal'⟩
  · exact scanBlock_localTo_new h t events (Nat.le_of_not_lt hlt)
      (Array.getElem?_eq_some_iff.1 hy).1

end

end ValueNumbering

namespace Listing

open ValueNumbering FlowGraph

variable {l : Listing}

lemma Reachable.localTemporaries (h : l.Reachable) : l.LocalTemporaries :=
  h.invariant ofProgram_localTemporaries scanBlock_localTemporaries

/-- **Temporaries are local.** A temporary is assigned by one instruction and read only behind it
in its block. So it is in no block's sets: neither exposed nor live before or after the block. -/
theorem Reachable.temporaries (h : l.Reachable) {v : VarId} {y : Variable}
    (hy : l.vars.get? v = some y) (htemp : y.isTemporary = true) (settings : AnalysisSettings) :
    (∃ pc x, l.LocalTo v pc x) ∧ ∃ g, ofListing l settings = .ok g ∧ g.listing = l ∧
      (∀ block ∈ g.blocks, block.exposed.contains v = false) ∧
      ∃ live : Liveness, g.liveness = .ok live ∧
        (∀ strategy, g.livenessBy strategy = .ok live) ∧
        ∀ b < g.blockCount, ∃ liveIn liveOut, live.liveIn[b]? = some liveIn ∧
          live.liveOut[b]? = some liveOut ∧ liveIn.contains v = false ∧
          liveOut.contains v = false := by
  have hl := h.coherent
  have hs := h.sectioned
  obtain ⟨pc, x, hlocal⟩ := h.localTemporaries hy htemp
  have hne : l.stream ≠ [] := fun hnil => by
    have hfound := hlocal.found
    rw [instrAt?, hnil] at hfound
    cases hfound
  refine ⟨⟨pc, x, hlocal⟩, _, ofListing_eq hl hs hne settings, rfl, fun block hblock => ?_, ?_⟩
  · obtain ⟨b, hb⟩ := List.mem_iff_getElem?.1 (by simpa [drawn] using hblock : block ∈ l.blocks)
    obtain ⟨-, rfl⟩ := hl.eq_of_getElem?_blocks hb
    rw [← Bool.not_eq_true, hl.contains_exposed]
    exact hlocal.not_exposes b
  · obtain ⟨live, hlive, hby, hsets⟩ := liveness_eq hl hs settings
    refine ⟨live, hlive, hby, fun b hb => ?_⟩
    rw [blockCount_drawn hl] at hb
    obtain ⟨liveIn, liveOut, hin, hout, hmem⟩ := hsets b hb
    refine ⟨liveIn, liveOut, hin, hout, ?_, ?_⟩
    · rw [← Bool.not_eq_true, (hmem v).1]
      exact hlocal.not_live b
    · rw [← Bool.not_eq_true, (hmem v).2]
      exact hlocal.not_liveAfter b

/-- The temporary that keeps the first quotient is local to a copy that was spliced in. -/
theorem Reachable.temporaries_twoQuotients : ∃ l pc x g,
    Listing.ofProgram twoQuotients = .ok l ∧
    (ValueNumbering.run .standard l).1.LocalTo 4 pc x ∧
    ofListing (ValueNumbering.run .standard l).1 .standard = .ok g ∧
    ∀ block ∈ g.blocks, block.exposed.contains 4 = false := by
  have hok : ((Listing.ofProgram twoQuotients).toOption.map fun l =>
      ((ValueNumbering.run .standard l).1.vars.get? 4).map (·.isTemporary)) =
      some (some true) := by decide +kernel
  obtain ⟨l, hl, hok⟩ := toOption_map_eq_some.1 hok
  obtain ⟨y, hy, htemp⟩ := Option.map_eq_some_iff.1 hok
  obtain ⟨⟨pc, x, hlocal⟩, g, hg, -, hexposed, -⟩ :=
    Reachable.temporaries (.numbered .standard (.lowered hl)) hy htemp .standard
  exact ⟨l, pc, x, g, hl, hlocal, hg, hexposed⟩

end Listing

end ThreeAddress
