import Mathlib
import ThreeAddress.Pass.ValueNumbering

/-!
What value numbering does at one instruction. `Stepped` lists the cases with the state that
each of them leads to. `Numbered` is what they come to where the block is concerned: how the
table and the pending copies change, and which action stands in the place of the old one. Every
proof about the scan of a block goes by these cases.
-/

namespace ThreeAddress.ValueNumbering

namespace Table

variable {t : Table} {f g : Formula} {h h' : Holding} {v : VarId}

lemma mem_insert : (f, h) ∈ t.insert g h' ↔ (f = g ∧ h = h') ∨ ((f, h) ∈ t ∧ f ≠ g) := by
  simp [insert]

lemma mem_forget : (f, h) ∈ t.forget v ↔ (f, h) ∈ t ∧ f.reads v = false := by
  simp [forget]

lemma mem_detach : (f, h) ∈ t.detach v ↔ ∃ old, (f, old) ∈ t ∧ old.detach v = h := by
  simp [detach]

lemma mem_of_lookup (hl : List.lookup f t = some h) : (f, h) ∈ t := by
  induction t with
  | nil => simp at hl
  | cons e rest ih =>
    obtain ⟨g, k⟩ := e
    rw [List.lookup_cons] at hl
    split at hl
    · rename_i heq
      obtain rfl : f = g := by simpa using heq
      obtain rfl : k = h := Option.some.inj hl
      exact List.mem_cons_self
    · exact List.mem_cons_of_mem _ (ih hl)

/-- The table after `v` got a new value, or its own value once more. -/
def assign (t : Table) (v : VarId) (keeps : Bool) : Table :=
  if keeps then t.forget v else (t.forget v).detach v

lemma mem_of_mem_assign {keeps : Bool} (hm : (f, h) ∈ t.assign v keeps) :
    ∃ old, (f, old) ∈ t ∧ f.reads v = false ∧ (h = old ∨ h = old.detach v) := by
  unfold assign at hm
  split at hm
  · exact ⟨h, (mem_forget.1 hm).1, (mem_forget.1 hm).2, .inl rfl⟩
  · obtain ⟨old, hold, rfl⟩ := mem_detach.1 hm
    exact ⟨old, (mem_forget.1 hold).1, (mem_forget.1 hold).2, .inr rfl⟩

end Table

lemma CopyOrder.enqueue_perm (order : CopyOrder) (p : List CopyOrder) :
    (order.enqueue p).Perm (order :: p) := by
  induction p with
  | nil => exact .refl _
  | cons first rest ih =>
    rw [enqueue]
    split
    · exact (ih.cons first).trans (.swap order first rest)
    · exact .refl _

lemma CopyOrder.mem_enqueue {order c : CopyOrder} {p : List CopyOrder} :
    c ∈ order.enqueue p ↔ c = order ∨ c ∈ p := by
  rw [(enqueue_perm order p).mem_iff, List.mem_cons]

lemma CopyOrder.sorted_enqueue (order : CopyOrder) {p : List CopyOrder}
    (hp : p.Pairwise fun c c' => c.origin ≤ c'.origin) :
    (order.enqueue p).Pairwise fun c c' => c.origin ≤ c'.origin := by
  induction p with
  | nil => simp [enqueue]
  | cons first rest ih =>
    obtain ⟨hfirst, hrest⟩ := List.pairwise_cons.1 hp
    rw [enqueue]
    split
    · rename_i hle
      refine List.pairwise_cons.2 ⟨fun c hc => ?_, ih hrest⟩
      obtain rfl | hc := mem_enqueue.1 hc
      · exact hle
      · exact hfirst c hc
    · rename_i hgt
      refine List.pairwise_cons.2 ⟨fun c hc => ?_, hp⟩
      obtain rfl | hc := List.mem_cons.1 hc
      · omega
      · exact (Nat.le_of_not_le hgt).trans (hfirst c hc)

/-- Only computations have formulas. -/
lemma compute_of_ofAction {l : Listing} {a : Action} {f : Formula}
    (h : Formula.ofAction l a = some f) : ∃ op lhs rhs w, a = .compute op lhs rhs w := by
  cases a with
  | compute op lhs rhs w => exact ⟨op, lhs, rhs, w, rfl⟩
  | _ => simp [Formula.ofAction] at h

lemma var?_of_fold? {f : Formula} {literal : Atom} (h : f.fold? = some literal) :
    literal.var? = none := by
  unfold Formula.fold? at h
  split at h
  · obtain ⟨n, -, rfl⟩ := Option.map_eq_some_iff.1 h
    rfl
  · rename_i op _ _ _ _
    obtain rfl : _ = literal := Option.some.inj h
    cases op <;> rfl
  · simp at h

/-- Where a value is found that is not detached. -/
def Holding.operand? : Holding → Option Operand
  | literal value => some value.operand
  | live v _ => some (.var v)
  | materialized _ _ temp => some (.var temp)
  | detached _ _ => none

/-- The change at position `j` of a block from a table and pending copies to others, while
an action is replaced by another one. The next new variable is `fresh`. -/
inductive Numbered (formula : Action → Option Formula) (fresh j : Nat) :
    Table → List CopyOrder → Action → Table → List CopyOrder → Action → Prop
  | skip {t p a} : a.targetVar = none → Numbered formula fresh j t p a t p a
  | assign {t p a w} : a.targetVar = some w → formula a = none →
    Numbered formula fresh j t p a (t.assign w false) p a
  | reuse {t p a w f h o} : a.targetVar = some w → formula a = some f → (f, h) ∈ t →
    h.operand? = some o →
    Numbered formula fresh j t p a (t.assign w (o = .var w)) p (.copy o (.var w))
  | materialize {t p a w f v origin} : a.targetVar = some w → formula a = some f →
    (f, .detached v origin) ∈ t →
    Numbered formula fresh j t p a
      (Table.assign (t.insert f (.materialized v origin fresh)) w (Operand.var fresh = .var w))
      (CopyOrder.enqueue ⟨origin, fresh, v⟩ p) (.copy (.var fresh) (.var w))
  | fold {t p a w f literal} : a.targetVar = some w → formula a = some f →
    f.fold? = some literal →
    Numbered formula fresh j t p a ((t.assign w false).insert f (.literal literal)) p
      (.copy literal.operand (.var w))
  | miss {t p a w f} : a.targetVar = some w → formula a = some f →
    Numbered formula fresh j t p a
      (if f.reads w then t.assign w false else (t.assign w false).insert f (.live w j)) p a

namespace Scan

variable {t : Toggles} {block : Block} {s : Scan} {i : InstrId} {j : Nat} {x : Instr}

/-- The listing after an instruction got another action. -/
def rewritten (l : Listing) (i : InstrId) (a : Action) : Listing :=
  { l with arena := l.arena.modify i fun x => { x with action := a } }

lemma rewritten_self {l : Listing} (hx : l.instr? i = some x) : rewritten l i x.action = l := by
  have harena : l.arena.modify i (fun y => { y with action := x.action }) = l.arena := by
    apply Array.ext_getElem?
    intro k
    rw [Array.getElem?_modify]
    split
    · rename_i hk
      subst hk
      have hx' : l.arena[i]? = some x := hx
      rw [hx']
      rfl
    · rfl
  rw [rewritten, harena]

/-- All that a step of the scan can do at the instruction `x`, which has number `i` and stands at
position `j` of the block. -/
inductive Stepped (t : Toggles) (block : Block) (j : Nat) (i : InstrId) (x : Instr) (s : Scan) :
    Scan → Prop
  | skip : x.action.targetVar = none → Stepped t block j i x s s
  | assign {w} : x.action.targetVar = some w → Formula.ofAction s.listing x.action = none →
    Stepped t block j i x s (s.assign w false)
  | reuse {w f h o} : x.action.targetVar = some w →
    Formula.ofAction s.listing x.action = some f → t.eliminate = true → (f, h) ∈ s.table →
    h.operand? = some o →
    Stepped t block j i x s ((s.replace .expressionEliminated block.id i w f " replaced by "
      o).assign w (o = .var w))
  | materialize {w f v origin} : x.action.targetVar = some w →
    Formula.ofAction s.listing x.action = some f → t.eliminate = true →
    (f, .detached v origin) ∈ s.table →
    Stepped t block j i x s
      (((s.materialize block.id f v origin (block.instrs.getD origin 0)).1.replace
        .expressionEliminated block.id i w f " replaced by " (.var s.listing.vars.size)).assign w
          (Operand.var s.listing.vars.size = .var w))
  | fold {w f literal} : x.action.targetVar = some w →
    Formula.ofAction s.listing x.action = some f → t.fold = true → f.fold? = some literal →
    Stepped t block j i x s (((s.replace .constantFolded block.id i w f " folded to "
      literal.operand).assign w false).remember f (.literal literal))
  | miss {w f} : x.action.targetVar = some w → Formula.ofAction s.listing x.action = some f →
    (t.eliminate = true → ∀ h, (f, h) ∉ s.table) → (t.fold = true → f.fold? = none) →
    Stepped t block j i x s
      (if f.reads w then s.assign w false else (s.assign w false).remember f (.live w j))

lemma step_stepped (t : Toggles) (block : Block) (j : Nat) (hx : s.listing.instr? i = some x) :
    Stepped t block j i x s (s.step t block (i, j)) := by
  unfold step
  simp only [hx]
  cases hw : x.action.targetVar with
  | none => cases Formula.ofAction s.listing x.action <;> exact .skip hw
  | some w =>
    cases hf : Formula.ofAction s.listing x.action with
    | none => exact .assign hw hf
    | some f =>
      simp only [compute]
      split
      · rename_i h hlookup
        obtain ⟨helim, hmem⟩ : t.eliminate = true ∧ (f, h) ∈ s.table := by
          split at hlookup
          · exact ⟨‹_›, Table.mem_of_lookup hlookup⟩
          · cases hlookup
        cases h with
        | detached v origin => exact .materialize hw hf helim hmem
        | literal value => exact .reuse hw hf helim hmem rfl
        | live v origin => exact .reuse hw hf helim hmem rfl
        | materialized v origin temp => exact .reuse hw hf helim hmem rfl
      · rename_i hlookup
        split
        · rename_i literal hlit
          obtain ⟨hfold, hlit⟩ : t.fold = true ∧ f.fold? = some literal := by
            split at hlit
            · exact ⟨‹_›, hlit⟩
            · cases hlit
          exact .fold hw hf hfold hlit
        · rename_i hlit
          refine .miss hw hf (fun helim h hmem => ?_) fun hfold => by simpa [hfold] using hlit
          rw [if_pos helim, List.lookup_eq_none_iff] at hlookup
          simpa using hlookup _ hmem

/-- What a step does to the table, the pending copies and the instruction. -/
theorem step_numbered (t : Toggles) (block : Block) (j : Nat) (hx : s.listing.instr? i = some x) :
    ∃ a' vars, Numbered (Formula.ofAction s.listing) s.listing.vars.size j s.table s.pending
        x.action (s.step t block (i, j)).table (s.step t block (i, j)).pending a' ∧
      (s.step t block (i, j)).listing = rewritten { s.listing with vars } i a' ∧
      vars.size + s.pending.length =
        s.listing.vars.size + (s.step t block (i, j)).pending.length := by
  have hstep := step_stepped t block j hx
  generalize s.step t block (i, j) = s' at hstep ⊢
  cases hstep with
  | skip hw => exact ⟨x.action, s.listing.vars, .skip hw, (rewritten_self hx).symm, rfl⟩
  | assign hw hf => exact ⟨x.action, s.listing.vars, .assign hw hf, (rewritten_self hx).symm, rfl⟩
  | reuse hw hf _ hmem ho => exact ⟨_, s.listing.vars, .reuse hw hf hmem ho, rfl, rfl⟩
  | @materialize w _ _ _ hw hf _ hmem =>
    refine ⟨.copy (.var s.listing.vars.size) (.var w), _, .materialize hw hf hmem, rfl, ?_⟩
    simp [materialize, replace, assign, record, (CopyOrder.enqueue_perm _ _).length_eq,
      Variables.temporary, Variables.push, Variables.size]
    omega
  | fold hw hf _ hlit => exact ⟨_, s.listing.vars, .fold hw hf hlit, rfl, rfl⟩
  | @miss w f hw hf =>
    refine ⟨x.action, s.listing.vars, ?_, ?_, ?_⟩
    · convert (Numbered.miss hw hf : Numbered (Formula.ofAction s.listing) s.listing.vars.size j
        s.table s.pending x.action _ _ _) using 1 <;> split <;> rfl
    · rw [rewritten_self (l := { s.listing with vars := s.listing.vars }) hx]
      split <;> rfl
    · split <;> rfl

end Scan

end ThreeAddress.ValueNumbering
