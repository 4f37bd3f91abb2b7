import ThreeAddress.Proofs.Lowering.Following

/-!
The code of an expression follows its evaluation. A value that has been computed is kept in
a variable without name, which no code but that of its own expression assigns, until it is
used; a variable or an element is read only then.
-/

namespace ThreeAddress.Lower

open Machine Structured Lowering Source

variable {W : Type}

/-- Run and execution have the same data. The named variable with the number `hole` is left
out, as it may have got its initial value already. -/
structure Related (l : Listing) (hole : Option Nat) (m : Store W) (c : Config W) : Prop where
  running : c.running = true
  vars : ∀ {x v}, l.named[x]? = some v → hole ≠ some x → c.data.vars v = m.vars x
  arrays : c.data.arrays = m.arrays
  world : c.data.world = m.world
  pushed : c.data.pushed = []
  trace : c.trace = m.trace

/-- The operand stands for a scalar. A value is in a variable without name below `limit`, or
in `dest`; a variable is one of the first `n` named ones. -/
def StandsFor (l : Listing) (limit n : Nat) (dest : Option VarId) (d : Data W) :
    Operand → Scalar → Prop
  | .int k, .value v => v = .int k
  | .float x, .value v => v = .float x
  | .var t, .value v => d.vars t = v ∧ (dest = some t ∨ (t < limit ∧ t ∉ l.named))
  | .var t, .var x => l.named[x]? = some t ∧ x < n
  | .instr i, .value v => l.resolve (.instr i) = none ∧ v = .void
  | _, _ => False

def Denotes (l : Listing) (limit n : Nat) (dest : Option VarId) (d : Data W) (o : Operand) :
    Denoted → Prop
  | .scalar s => StandsFor l limit n dest d o s
  | .elem a j => ∃ i, o = .elem a i ∧ StandsFor l limit n none d i j

/-- The place is what the target of an assignment denotes. -/
def IsTarget (l : Listing) (limit n : Nat) (d : Data W) (place : Place) : Denoted → Prop
  | .scalar (.var x) => ∃ v, place = .var v ∧ l.named[x]? = some v ∧ x < n
  | .scalar (.value _) => False
  | .elem a j => ∃ i, place = .elem a i ∧ StandsFor l limit n none d i j

/-- The code changes no variable without name below `limit`. -/
def Framed (l : Listing) (limit : Nat) (d d' : Data W) : Prop :=
  ∀ t < limit, t ∉ l.named → d'.vars t = d.vars t

section

variable {l : Listing} {limit limit' n : Nat} {dest : Option VarId} {hole : Option Nat}
  {d d' d'' : Data W} {m : Store W} {c : Config W} {o : Operand}

lemma Framed.refl (l : Listing) (limit : Nat) (d : Data W) : Framed l limit d d :=
  fun _ _ _ => rfl

lemma Framed.trans (h : Framed l limit d d') (hle : limit ≤ limit')
    (h' : Framed l limit' d' d'') : Framed l limit d d'' :=
  fun t ht hn => (h' t (Nat.lt_of_lt_of_le ht hle) hn).trans (h t ht hn)

lemma StandsFor.mono {s : Scalar} (h : StandsFor l limit n none d o s)
    (hd : Framed l limit d d') (hle : limit ≤ limit') : StandsFor l limit' n none d' o s := by
  cases o <;> cases s <;> try exact h
  rename_i t v
  obtain ⟨hv, hdest | ⟨hlt, hn⟩⟩ := h
  · simp at hdest
  · exact ⟨(hd t hlt hn).trans hv, .inr ⟨Nat.lt_of_lt_of_le hlt hle, hn⟩⟩

lemma Denotes.mono {D : Denoted} (h : Denotes l limit n none d o D)
    (hd : Framed l limit d d') (hle : limit ≤ limit') : Denotes l limit' n none d' o D := by
  cases D with
  | scalar s => exact StandsFor.mono h hd hle
  | elem a j =>
    obtain ⟨i, rfl, hi⟩ := h
    exact ⟨i, rfl, hi.mono hd hle⟩

lemma IsTarget.mono {place : Place} {D : Denoted} (h : IsTarget l limit n d place D)
    (hd : Framed l limit d d') (hle : limit ≤ limit') : IsTarget l limit' n d' place D := by
  match D with
  | .scalar (.var x) => exact h
  | .elem a j =>
    obtain ⟨i, rfl, hi⟩ := h
    exact ⟨i, rfl, hi.mono hd hle⟩

lemma StandsFor.read {s : Scalar} (h : StandsFor l limit n dest c.data o s)
    (hr : Related l hole m c) (hn : ∀ x ∈ hole, n ≤ x) : c.data.read l o = s.read m := by
  cases s with
  | value v =>
    cases o with
    | int k => exact (Eq.symm h)
    | float x => exact (Eq.symm h)
    | var t => exact h.1
    | instr i =>
      rw [Data.read, h.1]
      exact h.2.symm
    | _ => exact h.elim
  | var x =>
    cases o with
    | var t =>
      refine hr.vars h.1 fun hx => ?_
      exact absurd (hn x hx) (Nat.not_le_of_lt h.2)
    | _ => exact h.elim

lemma Denotes.read {D : Denoted} (h : Denotes l limit n dest c.data o D)
    (hr : Related l hole m c) (hn : ∀ x ∈ hole, n ≤ x) : c.data.read l o = D.read m := by
  cases D with
  | scalar s => exact StandsFor.read h hr hn
  | elem a j =>
    obtain ⟨i, rfl, hi⟩ := h
    rw [Data.read, hi.read hr hn, hr.arrays]
    rfl

lemma StandsFor.isScalar {s : Scalar} (h : StandsFor l limit n dest d o s) :
    o.isScalar = true := by
  cases o <;> first | rfl | (cases s <;> exact h.elim)

lemma IsTarget.denotes {place : Place} {D : Denoted} (h : IsTarget l limit n d place D) :
    Denotes l limit n none d place.operand D := by
  match D with
  | .scalar (.var x) =>
    obtain ⟨v, rfl, hv⟩ := h
    exact hv
  | .elem a j =>
    obtain ⟨i, rfl, hi⟩ := h
    exact ⟨i, rfl, hi⟩

end

/-- The run has come to the end of the code that was lowered from `s` to `s'`, starting with
`d`. -/
structure Arrived (l : Listing) (hole : Option Nat) (s s' : Lowering) (d : Data W)
    (m' : Store W) (c' : Config W) : Prop where
  pc : c'.pc = s'.listing.arena.size
  related : Related l hole m' c'
  framed : Framed l s.listing.vars.size d c'.data

/-- The operand stands for what the expression denotes, now that its code has been run. -/
structure Evaluated (l : Listing) (ctx : Context) (hole : Option Nat) (dest : Option VarId)
    (s s' : Lowering) (d : Data W) (o : Operand) (D : Denoted) (m' : Store W)
    (c' : Config W) : Prop extends Arrived l hole s s' d m' c' where
  denotes : Denotes l s'.listing.vars.size ctx.vars dest c'.data o D

/-- Calls of the functions in the table are calls by name, of the type that the text says. -/
def Callable (l : Listing) (returns : String → Ty) (t : Functions) : Prop :=
  ∀ ⦃name f⦄, t.get? name = some f → functionOf l f.label = name ∧ f.returns = returns name

/-- What the code of an expression relies on. -/
structure Ready (l : Listing) (returns : String → Ty) (ctx : Context) (hole : Option Nat)
    (s : Lowering) : Prop where
  binds : Binds ctx s
  plain : s.listing.vars.Plain
  callable : Callable l returns s.listing.functions
  hole : ∀ x ∈ hole, ctx.vars ≤ x

lemma Ready.computes {l : Listing} {returns : String → Ty} {ctx : Context} {hole : Option Nat}
    {s s' : Lowering} (h : Ready l returns ctx hole s) (hs : Computes s s') :
    Ready l returns ctx hole s' := by
  have hu := hs.unmoved
  refine ⟨h.binds.mono rfl (by rw [hu.scopes]) le_rfl (by rw [hu.named]),
    (hs.reaches (k := 0)).extends.plain h.plain, fun _ _ hf => h.callable ?_, h.hole⟩
  rwa [← (hs.reaches (k := 0)).functions]

/-- The destination is the variable that is left out. -/
def Reserved (l : Listing) (hole : Option Nat) (dest : Option VarId) (s : Lowering) : Prop :=
  ∀ v ∈ dest, v < s.listing.vars.size ∧ ∃ x, hole = some x ∧ l.named[x]? = some v

lemma Reserved.grows {l : Listing} {hole : Option Nat} {dest : Option VarId} {s s' : Lowering}
    (h : Reserved l hole dest s) (hs : Computes s s') : Reserved l hole dest s' :=
  fun v hv => ⟨Nat.lt_of_lt_of_le (h v hv).1 hs.grows.vars, (h v hv).2⟩

lemma reserved_none (l : Listing) (hole : Option Nat) (s : Lowering) :
    Reserved l hole none s := by
  simp [Reserved]

/-- Where the result of an operation goes: to `dest`, the variable left out, or to a new
variable without name. -/
def Slot (l : Listing) (hole : Option Nat) (dest : Option VarId) (s s' : Lowering) (v : VarId) :
    Prop :=
  (dest = some v ∧ ∃ x, hole = some x ∧ l.named[x]? = some v) ∨
    (s.listing.vars.size ≤ v ∧ v < s'.listing.vars.size ∧ v ∉ l.named)

section

variable {l : Listing} {ctx : Context} {hole : Option Nat} {dest : Option VarId}
  {s s' : Lowering} {v : VarId} {d : Data W}

lemma slot_of_freshTemporary {ty : Ty} (h : s.freshTemporary ty = (s', v)) (hw : Within l s') :
    s.listing.vars.size ≤ v ∧ v < s'.listing.vars.size ∧ v ∉ l.named := by
  have hv : v = s.listing.vars.size := congrArg Prod.snd h.symm
  have hlt := (freshTemporary_computes h).2
  refine ⟨hv.ge, hlt, hw.not_mem_named hlt ?_⟩
  have hs : s' = (s.freshTemporary ty).1 := by rw [h]
  rw [hs, named_freshTemporary, hv, Listing.mem_named, Variables.get?_size]
  simp

lemma slot_of_destination {ty : Ty} (h : destination dest ty s = .ok (v, s'))
    (hw : Within l s') (hdest : Reserved l hole dest s) : Slot l hole dest s s' v := by
  obtain ⟨rfl, rfl⟩ | ⟨-, h⟩ := destination_ok h
  · exact .inl ⟨rfl, (hdest v rfl).2⟩
  · exact .inr (slot_of_freshTemporary h hw)

lemma destination_size {ty : Ty} (h : destination dest ty s = .ok (v, s')) :
    s'.listing.arena.size = s.listing.arena.size := by
  obtain ⟨-, rfl⟩ | ⟨-, h⟩ := destination_ok h
  · rfl
  · rw [show s' = (s.freshTemporary ty).1 by rw [h]]
    rfl

lemma destination_kept {ty : Ty} (h : destination dest ty s = .ok (v, s')) : Kept s s' := by
  obtain ⟨-, rfl⟩ | ⟨-, h⟩ := destination_ok h
  · exact .refl _
  · exact ((freshTemporary_computes h).1.reaches (k := 0)).kept

/-- A result is put where it goes. -/
lemma Slot.framed (h : Slot l hole dest s s' v) (x : Value) :
    Framed l s.listing.vars.size d (d.set v x) := by
  intro t ht hn
  refine Function.update_of_ne ?_ _ _
  rintro rfl
  obtain ⟨-, y, -, hy⟩ | ⟨hle, -, -⟩ := h
  · exact hn (List.mem_of_getElem? hy)
  · exact absurd ht (Nat.not_lt_of_le hle)

lemma Slot.denotes {n : Nat} (h : Slot l hole dest s s' v) (x : Value) :
    Denotes l s'.listing.vars.size n dest (d.set v x) (.var v) (value x) := by
  refine ⟨Function.update_self _ _ _, ?_⟩
  obtain ⟨hdest, -⟩ | ⟨-, hlt, hn⟩ := h
  · exact .inl hdest
  · exact .inr ⟨hlt, hn⟩

lemma Slot.ne_named (h : Slot l hole dest s s' v) {y : Nat} {w : VarId}
    (hw : l.named[y]? = some w) (hy : hole ≠ some y) : w ≠ v := by
  rintro rfl
  obtain ⟨-, z, hz, hz'⟩ | ⟨-, -, hn⟩ := h
  · exact hy (l.named_inj hw hz' ▸ hz)
  · exact hn (List.mem_of_getElem? hw)

/-- A new variable, or the one left out, may be set. -/
lemma Slot.related {m : Store W} {c c' : Config W} (h : Slot l hole dest s s' v)
    (hr : Related l hole m c) {x : Value} (hrun : c'.running = true)
    (hdata : c'.data = c.data.set v x) (htrace : c'.trace = c.trace) : Related l hole m c' := by
  refine ⟨hrun, fun {y w} hw hy => ?_, ?_, ?_, ?_, htrace.trans hr.trace⟩
  · rw [hdata, ← hr.vars hw hy]
    exact Function.update_of_ne (h.ne_named hw hy) _ _
  · rw [hdata]
    exact hr.arrays
  · rw [hdata]
    exact hr.world
  · rw [hdata]
    exact hr.pushed

end

/-! ### Operations -/

section

variable {l : Listing} {env : Environment W} {turns : Nat} {ctx : Context}
  {hole hole' : Option Nat} {dest : Option VarId} {s t s' : Lowering} {v : VarId}
  {d : Data W} {m : Store W} {c c' : Config W}

lemma Framed.of_eq (h : d.vars = c.data.vars) (limit : Nat) : Framed l limit d c.data :=
  fun _ _ _ => by rw [h]

/-- A named variable is set on both sides. If it was left out, it need not be any more. -/
lemma Related.set (hr : Related l hole m c) {x : Nat} (hx : l.named[x]? = some v)
    (hhole : ∀ y, hole = some y → hole' = some y ∨ y = x) {u : Value}
    (hrun : c'.running = true) (hdata : c'.data = c.data.set v u)
    (htrace : c'.trace = c.trace) : Related l hole' (m.set x u) c' := by
  refine ⟨hrun, fun {y w} hw hy => ?_, ?_, ?_, ?_, htrace.trans hr.trace⟩
  · rw [hdata]
    by_cases hyx : y = x
    · subst hyx
      obtain rfl : w = v := Option.some.inj (hw.symm.trans hx)
      simp only [Data.set, Store.set, Function.update_self]
    · have hne : w ≠ v := fun hwv => hyx (l.named_inj hw (hwv ▸ hx))
      have hold := hr.vars hw fun hh => (hhole y hh).elim hy hyx
      exact (Function.update_of_ne hne _ _).trans
        (hold.trans (Function.update_of_ne hyx _ _).symm)
  · rw [hdata]
    exact hr.arrays
  · rw [hdata]
    exact hr.world
  · rw [hdata]
    exact hr.pushed

lemma Related.store (hr : Related l hole m c) {a : ArrayId} {i : Int32} {u : Value}
    (hrun : c'.running = true) (hdata : c'.data = c.data.store a i u)
    (htrace : c'.trace = c.trace ++ [.store a i u]) :
    Related l hole ((m.store a i u).record (.store a i u)) c' := by
  refine ⟨hrun, fun hw hy => ?_, ?_, ?_, ?_, ?_⟩
  · rw [hdata]
    exact hr.vars hw hy
  · rw [hdata, Data.store, hr.arrays]
    rfl
  · rw [hdata]
    exact hr.world
  · rw [hdata]
    exact hr.pushed
  · rw [htrace, hr.trace]
    rfl

lemma Slot.emitted {t' : Lowering} {action : Action} (h : Slot l hole dest t t' v)
    (he : Emitted t' action s') : Slot l hole dest t s' v := by
  unfold Slot
  rw [he.vars]
  exact h

/-- The result of an operation is put where it goes. -/
lemma Slot.evaluated (h : Slot l hole dest t s' v) (hst : s.listing.vars.size ≤ t.listing.vars.size)
    {d' : Data W} (hframed : Framed l s.listing.vars.size d d') {u : Value}
    (hpc : c'.pc = s'.listing.arena.size) (hdata : c'.data = d'.set v u)
    (hr : Related l hole m { c' with data := d' }) :
    Evaluated l ctx hole dest s s' d (.var v) (value u) m c' where
  pc := hpc
  related := h.related hr hr.running hdata rfl
  framed := hdata ▸ hframed.trans hst (h.framed u)
  denotes := hdata ▸ h.denotes u

/-- The code of an assignment. -/
lemma assign_follows {place : Place} {o : Operand} {T D : Denoted}
    (he : Emitted t (.copy o place) s') (hw : Within l s') (hn : ∀ x ∈ hole, ctx.vars ≤ x)
    (hst : s.listing.vars.size ≤ t.listing.vars.size) (hc : Arrived l hole s t d m c)
    (hT : IsTarget l t.listing.vars.size ctx.vars c.data place T)
    (hD : Denotes l t.listing.vars.size ctx.vars none c.data o D) :
    Follows l env turns c
      (fun _ m' c' => Evaluated l ctx hole none s s' d place.operand T m' c')
      (result (Structured.assign T D) m) := by
  have hread := hD.read hc.related hn
  have hdenotes {c' : Config W} (hd : Framed l t.listing.vars.size c.data c'.data) :
      Denotes l s'.listing.vars.size ctx.vars none c'.data place.operand T :=
    (hT.mono hd (by rw [he.vars])).denotes
  unfold Structured.assign
  rw [result_get_bind]
  match T with
  | .scalar (.var x) =>
    obtain ⟨v, rfl, hv, -⟩ := hT
    obtain ⟨c', hlead, hpc, hrun, hdata, htrace⟩ :=
      he.fall hw env hc.pc hc.related.running rfl
    have hdata : c'.data = c.data.set v (D.read m) := by rw [hdata, ← hread]; rfl
    have hset : Framed l t.listing.vars.size c.data c'.data := by
      intro w _ hnamed
      rw [hdata]
      refine Function.update_of_ne ?_ _ _
      rintro rfl
      exact hnamed (List.mem_of_getElem? hv)
    have hrel : Related l hole (m.set x (D.read m)) c' :=
      hc.related.set hv (fun _ => .inl) hrun hdata (htrace.trans (List.append_nil _))
    exact ⟨c', hlead.mono (Nat.zero_le _), ⟨hpc, hrel, hc.framed.trans hst hset⟩, hdenotes hset⟩
  | .elem a j =>
    obtain ⟨i, rfl, hi⟩ := hT
    obtain ⟨c', hlead, hpc, hrun, hdata, htrace⟩ :=
      he.fall hw env hc.pc hc.related.running rfl
    have hindex := hi.read hc.related hn
    have hdata : c'.data = c.data.store a (j.read m).index (D.read m) := by
      rw [hdata, ← hread, ← hindex]
      rfl
    have hkept : Framed l t.listing.vars.size c.data c'.data := .of_eq (by rw [hdata]; rfl) _
    have hrel := hc.related.store hrun hdata (by rw [htrace, ← hread, ← hindex]; rfl)
    rw [result_get_bind]
    exact ⟨c', hlead.mono (Nat.zero_le _), ⟨hpc, hrel, hc.framed.trans hst hkept⟩, hdenotes hkept⟩

/-- The code of an operation that yields a value, once its operands have been evaluated. -/
lemma fall_evaluated {action : Action} {t' : Lowering} {u : Value}
    (hslot : Slot l hole dest t t' v) (ht : t'.listing.arena.size = t.listing.arena.size)
    (he : Emitted t' action s') (hw : Within l s')
    (hst : s.listing.vars.size ≤ t.listing.vars.size) (hc : Arrived l hole s t d m c)
    (hperform : perform l env c.data action = ⟨c.data.set v u, [], .fall⟩) :
    ∃ c', Leads l env 0 c c' ∧ Evaluated l ctx hole dest s s' d (.var v) (value u) m c' := by
  obtain ⟨c', hlead, hpc, hrun, hdata, htrace⟩ :=
    he.fall hw env (hc.pc.trans ht.symm) hc.related.running (by rw [hperform])
  rw [hperform] at hdata htrace
  refine ⟨c', hlead.mono (Nat.zero_le _), (hslot.emitted he).evaluated hst hc.framed hpc hdata ?_⟩
  have hr := hc.related
  exact ⟨hrun, hr.vars, hr.arrays, hr.world, hr.pushed,
    (htrace.trans (List.append_nil _)).trans hr.trace⟩

lemma binary_follows {op : BinaryOp} {lhs rhs r : Lowered} {L R : Denoted}
    (h : binary op lhs rhs dest t = .ok (r, s')) (hw : Within l s')
    (hdest : Reserved l hole dest t) (hn : ∀ x ∈ hole, ctx.vars ≤ x)
    (hst : s.listing.vars.size ≤ t.listing.vars.size) (hc : Arrived l hole s t d m c)
    (hL : Denotes l t.listing.vars.size ctx.vars none c.data lhs.operand L)
    (hR : Denotes l t.listing.vars.size ctx.vars none c.data rhs.operand R) :
    Follows l env turns c (Evaluated l ctx hole dest s s' d r.operand)
      (result (Structured.binary op L R) m) := by
  obtain ⟨-, -, v, t', id, hd, he, rfl⟩ := binary_ok h
  have hemit := (emit_emitted he).1
  have hsize := destination_size hd
  have hslot := slot_of_destination hd (hw.back (emit_kept he)) hdest
  unfold Structured.binary
  rw [result_get_bind, ← hL.read hc.related hn, ← hR.read hc.related hn]
  cases hv : Value.binary op (c.data.read l lhs.operand) (c.data.read l rhs.operand) with
  | some u => exact fall_evaluated hslot hsize hemit hw hst hc (by simp only [perform, hv])
  | none =>
    obtain ⟨c', hlead, -, hrun, -, htrace⟩ :=
      hemit.step hw env (hc.pc.trans hsize.symm) hc.related.running
    simp only [perform, hv] at hrun htrace
    refine ⟨c', hlead.mono (Nat.zero_le _), hrun, ?_⟩
    rw [htrace, hc.related.trace]
    rfl

lemma unary_follows {op : UnaryOp} {operand r : Lowered} {D : Denoted}
    (h : unary op operand dest t = .ok (r, s')) (hw : Within l s')
    (hdest : Reserved l hole dest t) (hn : ∀ x ∈ hole, ctx.vars ≤ x)
    (hst : s.listing.vars.size ≤ t.listing.vars.size) (hc : Arrived l hole s t d m c)
    (hD : Denotes l t.listing.vars.size ctx.vars none c.data operand.operand D) :
    Follows l env turns c (Evaluated l ctx hole dest s s' d r.operand)
      (result (Structured.unary op D) m) := by
  obtain ⟨-, v, t', id, hd, he, rfl⟩ := unary_ok h
  have hslot := slot_of_destination hd (hw.back (emit_kept he)) hdest
  unfold Structured.unary
  rw [result_get_bind, ← hD.read hc.related hn]
  exact fall_evaluated hslot (destination_size hd) (emit_emitted he).1 hw hst hc rfl

/-- The code that forms an element. -/
lemma element_follows {name : String} {a : ArrayId} {index : Lowered} {o : Operand}
    {D : Denoted} (h : Lower.index name index t = .ok (o, s')) (hw : Within l s')
    (hname : ctx.names.lookup name = some (.array a)) (hn : ∀ x ∈ hole, ctx.vars ≤ x)
    (hst : s.listing.vars.size ≤ t.listing.vars.size)
    (hc : Evaluated l ctx hole none s t d index.operand D m c) :
    Follows l env turns c
      (fun D' m' c' => Arrived l hole s s' d m' c' ∧ ∃ j, D' = .elem a j ∧
        StandsFor l s'.listing.vars.size ctx.vars none c'.data o j)
      (result (element ctx name D) m) := by
  obtain ⟨-, h⟩ := index_ok h
  unfold element
  rw [result_get_bind]
  simp only [hname]
  match D with
  | .scalar j =>
    have hj : StandsFor l t.listing.vars.size ctx.vars none c.data index.operand j := hc.denotes
    rw [if_pos hj.isScalar] at h
    obtain ⟨rfl, rfl⟩ := h
    exact .pure ⟨hc.toArrived, j, rfl, hj⟩
  | .elem b j =>
    obtain ⟨i, ho, -⟩ := hc.denotes
    have hread := hc.denotes.read hc.related hn
    rw [ho, if_neg (by simp [Operand.isScalar])] at h
    obtain ⟨t', v, id, ht, he, rfl⟩ := h
    have hslot := slot_of_freshTemporary ht (hw.back (emit_kept he))
    have hsize : t'.listing.arena.size = t.listing.arena.size := by
      rw [show t' = (t.freshTemporary .int).1 by rw [ht]]
      rfl
    have hslot : Slot l hole none t t' v := .inr hslot
    obtain ⟨c', hlead, (hev : Evaluated l ctx _ _ _ _ _ _ _ _ _)⟩ :=
      fall_evaluated hslot hsize (emit_emitted he).1 hw hst hc.toArrived rfl
    rw [← ho, hread] at hev
    exact ⟨c', hlead, hev.toArrived, _, rfl, hev.denotes⟩

lemma read_pushed (l : Listing) (d : Data W) (values : List Value) (o : Operand) :
    Data.read l { d with pushed := values } o = d.read l o := by
  induction o with
  | elem a i ih => rw [Data.read, Data.read, ih]
  | _ => rfl

lemma pushes_kept {args : List Operand} {s s' : Lowering} (h : Pushes args s s') :
    Kept s s' ∧ s'.listing.vars = s.listing.vars := by
  induction h with
  | nil s => exact ⟨.refl s, rfl⟩
  | cons he _ ih =>
    exact ⟨(emit_kept he).trans ih.1, ih.2.trans (emit_emitted he).1.vars⟩

/-- The arguments of a call are pushed. -/
lemma pushes_lead (env : Environment W) {args : List Operand} {s s' : Lowering}
    (h : Pushes args s s') (hw : Within l s') {c : Config W}
    (hpc : c.pc = s.listing.arena.size) (hrun : c.running = true) :
    ∃ c', Leads l env 0 c c' ∧ c'.pc = s'.listing.arena.size ∧ c'.running = true ∧
      c'.data = { c.data with pushed := c.data.pushed ++ args.map (c.data.read l) } ∧
      c'.trace = c.trace := by
  induction h generalizing c with
  | nil s => exact ⟨c, .refl l env c, hpc, hrun, by simp, rfl⟩
  | @cons o rest s t s' id he hrest ih =>
    have ht := hw.back (pushes_kept hrest).1
    obtain ⟨c₁, hlead, hpc, hrun, hdata, htrace⟩ := (emit_emitted he).1.fall ht env hpc hrun rfl
    obtain ⟨c₂, hlead', hpc', hrun', hdata', htrace'⟩ := ih hw hpc hrun
    refine ⟨c₂, (hlead.trans hlead').mono (Nat.zero_le _), hpc', hrun', ?_, ?_⟩
    · rw [hdata', hdata]
      simp [perform, read_pushed]
    · rw [htrace', htrace]
      exact List.append_nil _

lemma reads_eq {args : List Operand} {Ds : List Denoted} {limit : Nat}
    (h : List.Forall₂ (Denotes l limit ctx.vars none c.data) args Ds)
    (hr : Related l hole m c) (hn : ∀ x ∈ hole, ctx.vars ≤ x) :
    args.map (c.data.read l) = Ds.map (·.read m) := by
  induction h with
  | nil => rfl
  | cons hD _ ih => rw [List.map_cons, List.map_cons, hD.read hr hn, ih]

lemma Related.call (hr : Related l hole m c) {function : String} {values : List Value}
    {answer : W × Value × ArrayStore} (hrun : c'.running = true)
    (hdata : c'.data =
      { c.data with world := answer.1, arrays := answer.2.2, pushed := [] })
    (htrace : c'.trace = c.trace ++ [.call function values]) :
    Related l hole
      ({ m with world := answer.1, arrays := answer.2.2 }.record (.call function values)) c' := by
  refine ⟨hrun, fun hw hy => ?_, by rw [hdata]; rfl, by rw [hdata]; rfl, by rw [hdata], ?_⟩
  · rw [hdata]
    exact hr.vars hw hy
  · rw [htrace, hr.trace]
    rfl

lemma call_follows {returns : String → Ty} {name : String} {f : Signature} {r : Lowered}
    {args : List Operand} {Ds : List Denoted} (h : call f args dest t = .ok (r, s'))
    (hw : Within l s') (hdest : Reserved l hole dest t) (hn : ∀ x ∈ hole, ctx.vars ≤ x)
    (hf : functionOf l f.label = name ∧ f.returns = returns name)
    (hst : s.listing.vars.size ≤ t.listing.vars.size) (hc : Arrived l hole s t d m c)
    (hDs : List.Forall₂ (Denotes l t.listing.vars.size ctx.vars none c.data) args Ds) :
    Follows l env turns c (Evaluated l ctx hole dest s s' d r.operand)
      (result (Structured.call env name (returns name) Ds) m) := by
  obtain ⟨rfl, hreturns⟩ := hf
  obtain ⟨t₁, hpush, h⟩ := call_ok h
  obtain ⟨-, hvars⟩ := pushes_kept hpush
  unfold Structured.call
  rw [result_get_bind, result_update_bind, ← hreturns, ← reads_eq hDs hc.related hn]
  set answer := env.call m.world (functionOf l f.label) (args.map (c.data.read l)) m.arrays
    with hanswer
  -- whatever the call does with its result, the other data are those of the answer
  have hcall {c₁ c₂ : Config W} {target : Option VarId}
      (hdata : c₁.data = { c.data with pushed := c.data.pushed ++ args.map (c.data.read l) })
      (htrace : c₁.trace = c.trace)
      (hdata' : c₂.data = (perform l env c₁.data (.call f.label target)).data)
      (htrace' : c₂.trace = c₁.trace ++
        (perform l env c₁.data (.call f.label target)).seen.filter Observation.visible) :
      c₂.data = target.elim { c.data with world := answer.1, arrays := answer.2.2, pushed := [] }
        (Data.set { c.data with world := answer.1, arrays := answer.2.2, pushed := [] } ·
          answer.2.1) ∧
      c₂.trace = c.trace ++ [.call (functionOf l f.label) (args.map (c.data.read l))] := by
    rw [hdata', htrace', htrace, hdata, hanswer, ← hc.related.world, ← hc.related.arrays]
    simp [perform, hc.related.pushed, Observation.visible]
  split at h
  · rename_i hvalue
    obtain ⟨v, t', id, hd, he, rfl⟩ := h
    have hw' := hw.back (emit_kept he)
    have hslot := slot_of_destination hd hw' (fun v hv => by rw [hvars]; exact hdest v hv)
    have hkept := destination_kept hd
    obtain ⟨c₁, hlead, hpc, hrun, hdata, htrace⟩ :=
      pushes_lead env hpush (hw'.back hkept) hc.pc hc.related.running
    obtain ⟨c₂, hlead', hpc', hrun', hdata', htrace'⟩ :=
      (emit_emitted he).1.fall hw env (hpc.trans (destination_size hd).symm) hrun rfl
    refine ⟨c₂, hlead.trans (hlead'.mono (Nat.zero_le _)), ?_⟩
    rw [if_pos hvalue]
    obtain ⟨hafter, hseen⟩ := hcall hdata htrace hdata' htrace'
    have hframed : Framed l s.listing.vars.size d
      { c.data with world := answer.1, arrays := answer.2.2, pushed := [] } := hc.framed
    exact (hslot.emitted (emit_emitted he).1).evaluated (hvars ▸ hst) hframed hpc' hafter
      (hc.related.call hrun' rfl hseen)
  · rename_i hvalue
    obtain ⟨id, he, rfl⟩ := h
    obtain ⟨c₁, hlead, hpc, hrun, hdata, htrace⟩ :=
      pushes_lead env hpush (hw.back (emit_kept he)) hc.pc hc.related.running
    obtain ⟨c₂, hlead', hpc', hrun', hdata', htrace'⟩ :=
      (emit_emitted he).1.fall hw env hpc hrun rfl
    refine ⟨c₂, hlead.trans (hlead'.mono (Nat.zero_le _)), ?_⟩
    rw [if_neg hvalue]
    obtain ⟨hafter, hseen⟩ := hcall hdata htrace hdata' htrace'
    have hframed : Framed l t.listing.vars.size c.data c₂.data := .of_eq (by rw [hafter]; rfl) _
    refine ⟨⟨hpc', hc.related.call hrun' hafter hseen, hc.framed.trans hst hframed⟩, ?_, rfl⟩
    obtain ⟨x, hx, haction⟩ := (emit_emitted he).1.instr
    rw [(emit_emitted he).2.2, Listing.resolve,
      hw.instr? ((emit_emitted he).1.size ▸ Nat.lt_succ_self _), hx]
    simp [haction, Action.targetVar, Action.target]

end

/-! ### Expressions -/

section

variable {s s' : Lowering} {dest : Option VarId} {r : Lowered}

lemma binary_kept {op : BinaryOp} {lhs rhs : Lowered}
    (h : binary op lhs rhs dest s = .ok (r, s')) : Kept s s' := by
  obtain ⟨-, -, v, t, id, hd, he, -⟩ := binary_ok h
  exact (destination_kept hd).trans (emit_kept he)

lemma unary_kept {op : UnaryOp} {operand : Lowered} (h : unary op operand dest s = .ok (r, s')) :
    Kept s s' := by
  obtain ⟨-, v, t, id, hd, he, -⟩ := unary_ok h
  exact (destination_kept hd).trans (emit_kept he)

lemma index_kept {name : String} {o : Operand} (h : index name r s = .ok (o, s')) :
    Kept s s' := by
  obtain ⟨-, h⟩ := index_ok h
  split at h
  · exact h.2 ▸ .refl s
  · obtain ⟨t, v, id, ht, he, -⟩ := h
    exact ((freshTemporary_computes ht).1.reaches (k := 0)).kept.trans (emit_kept he)

lemma call_kept {f : Signature} {args : List Operand} (h : call f args dest s = .ok (r, s')) :
    Kept s s' := by
  obtain ⟨t, hpush, h⟩ := call_ok h
  refine (pushes_kept hpush).1.trans ?_
  split at h
  · obtain ⟨v, t', id, hd, he, -⟩ := h
    exact (destination_kept hd).trans (emit_kept he)
  · obtain ⟨id, he, -⟩ := h
    exact emit_kept he

end

section

variable {l : Listing} {env : Environment W} {returns : String → Ty} {turns : Nat}
  {ctx : Context} {hole : Option Nat}

lemma StandsFor.weaken {limit n : Nat} {d : Data W} {o : Operand} {s : Scalar}
    (h : StandsFor l limit n none d o s) (dest : Option VarId) :
    StandsFor l limit n dest d o s := by
  cases o <;> cases s <;> try exact h
  exact ⟨h.1, .inr (h.2.resolve_left (by simp))⟩

lemma Denotes.weaken {limit n : Nat} {d : Data W} {o : Operand} {D : Denoted}
    (h : Denotes l limit n none d o D) (dest : Option VarId) : Denotes l limit n dest d o D := by
  cases D with
  | scalar s => exact StandsFor.weaken h dest
  | elem a j => exact h

lemma Evaluated.weaken {s s' : Lowering} {d : Data W} {o : Operand} {D : Denoted}
    {m : Store W} {c : Config W} (h : Evaluated l ctx hole none s s' d o D m c)
    (dest : Option VarId) : Evaluated l ctx hole dest s s' d o D m c :=
  ⟨h.toArrived, h.denotes.weaken dest⟩

lemma Arrived.refl {s : Lowering} {m : Store W} {c : Config W}
    (hpc : c.pc = s.listing.arena.size) (hr : Related l hole m c) :
    Arrived l hole s s c.data m c :=
  ⟨hpc, hr, .refl l _ _⟩

/-- A name is what the context says, and its operand stands for it. -/
lemma scalarNamed_denotes {s : Lowering} {name : String} {v : VarId}
    (hready : Ready l returns ctx hole s) (hw : Within l s)
    (h : s.scopes.lookup s.listing.vars name = some (.var v)) :
    ∃ x, scalarNamed ctx name = .scalar (.var x) ∧ l.named[x]? = some v ∧ x < ctx.vars := by
  obtain ⟨symbol, hsymbol, hbound⟩ := hready.binds.lookup hready.plain h
  cases symbol with
  | var x => exact ⟨x, by rw [scalarNamed, hsymbol], hw.named_eq hbound.2, hbound.1⟩
  | array a => exact hbound.elim

lemma arrayNamed_lookup {s : Lowering} {name : String} {a : ArrayId}
    (hready : Ready l returns ctx hole s)
    (h : s.scopes.lookup s.listing.vars name = some (.array a)) :
    ctx.names.lookup name = some (.array a) := by
  obtain ⟨symbol, hsymbol, hbound⟩ := hready.binds.lookup hready.plain h
  cases symbol with
  | var x => exact hbound.elim
  | array b =>
    obtain rfl : b = a := hbound
    exact hsymbol

mutual

/-- The code of an expression follows its evaluation. -/
theorem expr_follows (e : Expr) {dest : Option VarId} {s s' : Lowering} {r : Lowered}
    {m : Store W} {c : Config W} (h : expr dest e s = .ok (r, s')) (hw : Within l s')
    (hready : Ready l returns ctx hole s) (hdest : Reserved l hole dest s)
    (hpc : c.pc = s.listing.arena.size) (hr : Related l hole m c) :
    Follows l env turns c (Evaluated l ctx hole dest s s' c.data r.operand)
      (result (eval env returns ctx e) m) := by
  match e with
  | .int n | .float n =>
    obtain ⟨rfl, rfl⟩ := pure_ok.1 h
    exact .pure ⟨.refl hpc hr, rfl⟩
  | .var name =>
    obtain ⟨v, ty, hv, -, rfl, rfl⟩ := scalar_ok h
    obtain ⟨x, hx, hnamed, hlt⟩ := scalarNamed_denotes hready hw hv
    rw [eval, hx]
    exact .pure ⟨.refl hpc hr, hnamed, hlt⟩
  | .elem name inner =>
    obtain ⟨a, v, t, o, ty, ha, he, hi, hty, rfl⟩ := expr_elem_ok h
    have hname := arrayNamed_lookup hready ha
    have hst := (expr_computes inner (by simp) he).1
    have hinner := expr_follows inner he (hw.back (index_kept hi)) hready
      (reserved_none l hole _) hpc hr
    rw [eval]
    refine hinner.bind fun D m' c' hev => ?_
    refine (element_follows hi hw hname hready.hole hst.grows.vars hev).mono ?_
    rintro D' m₂ c₂ ⟨harrived, j, rfl, hj⟩
    exact ⟨harrived, o, rfl, hj⟩
  | .paren inner =>
    exact expr_follows inner (expr_paren ▸ h) hw hready hdest hpc hr
  | .assign lhs rhs =>
    obtain ⟨v, t, target, t', he, hp, h⟩ := expr_assign_ok h
    obtain ⟨-, id, hcopy, rfl⟩ := assign_ok h
    have hw' := hw.back (emit_kept hcopy)
    have hst := (expr_computes rhs (by simp) he).1
    have htt' := (place_computes lhs hp).1
    have hrhs := expr_follows rhs he (hw'.back htt'.kept) hready
      (reserved_none l hole s) hpc hr
    rw [eval]
    refine hrhs.bind fun D m₁ c₁ hD => ?_
    refine (place_follows lhs hp hw' (hready.computes hst) hD.pc hD.related).bind ?_
    rintro T m₂ c₂ ⟨hT, htarget⟩
    have harrived : Arrived l hole s t' c.data m₂ c₂ :=
      ⟨hT.pc, hT.related, hD.framed.trans hst.grows.vars hT.framed⟩
    refine (assign_follows (emit_emitted hcopy).1 hw hready.hole (hst.trans htt').grows.vars
      harrived htarget (hD.denotes.mono hT.framed htt'.grows.vars)).bind ?_
    exact fun _ _ _ hev => .pure (hev.weaken dest)
  | .binary op lhs rhs =>
    obtain ⟨left, t, right, t', hl, hright, h⟩ := expr_binary_ok h
    have hw' := hw.back (binary_kept h)
    have hst := (expr_computes lhs (by simp) hl).1
    have htt' := (expr_computes rhs (by simp) hright).1
    have hlhs := expr_follows lhs hl (hw'.back htt'.kept) hready
      (reserved_none l hole s) hpc hr
    rw [eval]
    refine hlhs.bind fun L m₁ c₁ hL => ?_
    refine (expr_follows rhs hright hw' (hready.computes hst) (reserved_none l hole t) hL.pc
      hL.related).bind fun R m₂ c₂ hR => ?_
    have harrived : Arrived l hole s t' c.data m₂ c₂ :=
      ⟨hR.pc, hR.related, hL.framed.trans hst.grows.vars hR.framed⟩
    exact binary_follows h hw (hdest.grows (hst.trans htt')) hready.hole
      (hst.trans htt').grows.vars harrived (hL.denotes.mono hR.framed htt'.grows.vars) hR.denotes
  | .unary op operand =>
    obtain ⟨value, t, hv, h⟩ := expr_unary_ok h
    have hst := (expr_computes operand (by simp) hv).1
    have hoperand := expr_follows operand hv (hw.back (unary_kept h))
      hready (reserved_none l hole s) hpc hr
    rw [eval]
    refine hoperand.bind fun D m₁ c₁ hD => ?_
    exact unary_follows h hw (hdest.grows hst) hready.hole hst.grows.vars hD.toArrived hD.denotes
  | .call function args =>
    obtain ⟨f, values, t, hfunction, -, ha, h⟩ := expr_call_ok h
    have hst := (arguments_computes args ha).1
    have hargs := arguments_follow args ha (hw.back (call_kept h))
      hready hpc hr
    rw [eval]
    refine hargs.bind ?_
    rintro Ds m₁ c₁ ⟨harrived, hDs⟩
    exact call_follows h hw (hdest.grows hst) hready.hole (hready.callable hfunction)
      hst.grows.vars harrived hDs

theorem place_follows (e : Expr) {s s' : Lowering} {target : Target} {m : Store W}
    {c : Config W} (h : place e s = .ok (target, s')) (hw : Within l s')
    (hready : Ready l returns ctx hole s) (hpc : c.pc = s.listing.arena.size)
    (hr : Related l hole m c) :
    Follows l env turns c
      (fun D m' c' => Arrived l hole s s' c.data m' c' ∧
        IsTarget l s'.listing.vars.size ctx.vars c'.data target.place D)
      (result (Structured.place env returns ctx e) m) := by
  match e with
  | .paren inner =>
    exact place_follows inner (place_paren ▸ h) hw hready hpc hr
  | .var name =>
    obtain ⟨v, ty, hv, -, rfl, rfl⟩ := place_var_ok h
    obtain ⟨x, hx, hnamed, hlt⟩ := scalarNamed_denotes hready hw hv
    rw [Structured.place, hx]
    exact .pure ⟨.refl hpc hr, v, rfl, hnamed, hlt⟩
  | .elem name inner =>
    obtain ⟨a, v, t, o, ty, ha, he, hi, hty, rfl⟩ := place_elem_ok h
    have hname := arrayNamed_lookup hready ha
    have hst := (expr_computes inner (by simp) he).1
    have hinner := expr_follows inner he (hw.back (index_kept hi)) hready
      (reserved_none l hole _) hpc hr
    rw [Structured.place]
    refine hinner.bind fun D m' c' hev => ?_
    refine (element_follows hi hw hname hready.hole hst.grows.vars hev).mono ?_
    rintro D' m₂ c₂ ⟨harrived, j, rfl, hj⟩
    exact ⟨harrived, o, rfl, hj⟩
  | .int _ | .float _ | .binary _ _ _ | .assign _ _ | .unary _ _ | .call _ _ =>
    exact (refuse_ok.1 h).elim

theorem arguments_follow (args : List Expr) {function : String} {position : Nat}
    {params : List Ty} {s s' : Lowering} {values : List Operand} {m : Store W} {c : Config W}
    (h : arguments function position params args s = .ok (values, s')) (hw : Within l s')
    (hready : Ready l returns ctx hole s) (hpc : c.pc = s.listing.arena.size)
    (hr : Related l hole m c) :
    Follows l env turns c
      (fun Ds m' c' => Arrived l hole s s' c.data m' c' ∧
        List.Forall₂ (Denotes l s'.listing.vars.size ctx.vars none c'.data) values Ds)
      (result (evalAll env returns ctx args) m) := by
  match args with
  | [] =>
    obtain ⟨rfl, rfl⟩ := pure_ok.1 h
    exact .pure ⟨.refl hpc hr, .nil⟩
  | arg :: rest =>
    obtain ⟨v, t, vs, he, -, hrest, rfl⟩ := arguments_cons_ok h
    have hst := (expr_computes arg (by simp) he).1
    have hts := (arguments_computes rest hrest).1
    have harg := expr_follows arg he (hw.back hts.kept) hready
      (reserved_none l hole s) hpc hr
    rw [evalAll]
    refine harg.bind fun D m₁ c₁ hD => ?_
    refine (arguments_follow rest hrest hw (hready.computes hst) hD.pc hD.related).bind ?_
    rintro Ds m₂ c₂ ⟨harrived, hDs⟩
    refine .pure ⟨⟨harrived.pc, harrived.related, ?_⟩, .cons ?_ hDs⟩
    · exact hD.framed.trans hst.grows.vars harrived.framed
    · exact hD.denotes.mono harrived.framed hts.grows.vars

end

end

end ThreeAddress.Lower
