import ThreeAddress.Proofs.Lowering.Statements

/-!
The code of a function follows its execution.

A function is known to its callers by its label, and the label gets its place when the
function is defined. As this happens once, the label keeps its place; and the table of
functions always has the types that the first declaration of each function gives.
-/

namespace ThreeAddress

/-! ### The table of functions -/

namespace Functions

lemma get?_update (t : Functions) (name other : String) (f : Signature) :
    (t.update name f).get? other =
      if other = name then (t.get? name).map fun _ => f else t.get? other := by
  obtain ⟨entries⟩ := t
  unfold update get?
  induction entries with
  | nil => simp
  | cons entry rest ih =>
    obtain ⟨n, g⟩ := entry
    simp only [List.map_cons, beq_iff_eq] at ih ⊢
    split <;> grind

lemma get?_append {t : Functions} {name : String} (h : t.get? name = none) (other : String)
    (f : Signature) : Functions.get? ⟨t.entries ++ [(name, f)]⟩ other =
      if other = name then some f else t.get? other := by
  unfold get? at *
  rw [List.lookup_append]
  by_cases hother : other = name
  · subst hother
    simp [h]
  · simp [hother, List.lookup_cons, beq_eq_false_iff_ne.2 hother]

/-- What a declaration does to the table. -/
lemma declare_spec {t t' : Functions} {labels labels' : Labels} {name : String} {f : Signature}
    {returns : Ty} {params : List Ty} {define : Bool}
    (h : t.declare labels name returns params define = .ok (t', labels', f)) :
    (∀ other, t'.get? other = if other = name then some f else t.get? other) ∧
      f.returns = returns ∧ (define = true → f.defined = true) ∧
      ((labels' = labels ∧ ∃ old, t.get? name = some old ∧ old.returns = returns ∧
          f.label = old.label ∧ (f.defined = false → old.defined = false) ∧
          (define = true → old.defined = false)) ∨
        (labels' = labels.push (.function name) ∧ t.get? name = none ∧
          f.label = labels.size)) := by
  obtain ⟨old, hold, ⟨hreturns, -, hdefined⟩, rfl, rfl, rfl⟩ | ⟨hnone, rfl, rfl, rfl⟩ :=
    declare_cases h
  · refine ⟨fun other => by rw [get?_update, hold]; rfl, hreturns, ?_,
      .inl ⟨rfl, old, hold, hreturns, rfl, ?_, ?_⟩⟩
    · simp +contextual
    · simp +contextual
    · simpa using hdefined
  · exact ⟨fun other => get?_append hnone other _, rfl, id, .inr ⟨rfl, hnone, rfl⟩⟩

end Functions

namespace Lower

open Machine Structured Lowering Source

variable {W : Type}

/-- The table of functions after some items. A function that is not defined has a label
without place. -/
structure Tabled (done : List Item) (s : Lowering) : Prop where
  label : ∀ {name f}, s.listing.functions.get? name = some f →
    ∃ info, s.listing.labels.get? f.label = some info ∧ info.name = .function name
  undefined : ∀ {name f}, s.listing.functions.get? name = some f → f.defined = false →
    Unplaced s f.label
  returns : ∀ name, (s.listing.functions.get? name).map (·.returns) =
    ((done.map Item.signature).find? (·.name = name)).map (·.returns.ty)

section

variable {done : List Item} {l : Listing} {s s' : Lowering}

lemma Tabled.inj (h : Tabled done s) {name name' : String} {f f' : Signature}
    (hf : s.listing.functions.get? name = some f)
    (hf' : s.listing.functions.get? name' = some f') (heq : f.label = f'.label) :
    name = name' := by
  obtain ⟨info, hinfo, hname⟩ := h.label hf
  obtain ⟨info', hinfo', hname'⟩ := h.label hf'
  rw [heq, hinfo'] at hinfo
  obtain rfl := Option.some.inj hinfo
  exact LabelName.function.inj (hname.symm.trans hname')

lemma Tabled.lt (h : Tabled done s) {name : String} {f : Signature}
    (hf : s.listing.functions.get? name = some f) : f.label < s.listing.labels.size := by
  obtain ⟨info, hinfo, -⟩ := h.label hf
  exact (Array.getElem?_eq_some_iff.1 hinfo).1

lemma Tabled.of_listing (h : Tabled done s) (hs : s'.listing = s.listing) : Tabled done s' := by
  refine ⟨?_, ?_, ?_⟩ <;> simp only [hs, Unplaced, Placed]
  · exact h.label
  · exact h.undefined
  · exact h.returns

/-- Statements do not touch the labels of functions. -/
lemma Tabled.reaches (h : Tabled done s) (hs : Reaches s.listing.labels.size s s') :
    Tabled done s' := by
  have hfun := hs.functions
  refine ⟨fun {name f} hf => ?_, fun {name f} hf hd => ?_, fun name => ?_⟩
  · rw [hfun] at hf
    rw [hs.label_eq (h.lt hf) le_rfl]
    exact h.label hf
  · rw [hfun] at hf
    exact (h.undefined hf hd).reaches hs (h.lt hf) le_rfl
  · rw [hfun]
    exact h.returns name

/-- A function that is defined now gets its place. -/
lemma Tabled.startAt (h : Tabled done s) {name : String} {f : Signature}
    (hf : s.listing.functions.get? name = some f) (hd : f.defined = true)
    (hs : s.startAt f.label = .ok s') : Tabled done s' := by
  obtain ⟨he, -, hother⟩ := startAt_emitted hs
  have hkept := startAt_kept hs
  refine ⟨fun {name' g} hg => ?_, fun {name' g} hg hdg => ?_, fun name' => ?_⟩
  · rw [he.functions] at hg
    obtain ⟨info, hinfo, hname⟩ := h.label hg
    obtain ⟨info', hinfo', hname'⟩ := hkept.names hinfo
    exact ⟨info', hinfo', hname'.trans hname⟩
  · rw [he.functions] at hg
    refine (h.undefined hg hdg).startAt hs fun heq => ?_
    obtain rfl := h.inj hg hf heq
    rw [Option.some.inj (hf.symm.trans hg)] at hd
    simp [hdg] at hd
  · rw [he.functions]
    exact h.returns name'

lemma placed_push {t : Lowering} {label : LabelId} {site : InstrId} {name : LabelName}
    (hl : t.listing.labels = s.listing.labels.push name) :
    Placed t label site ↔ Placed s label site := by
  constructor
  · rintro ⟨info, hinfo, hsite⟩
    rw [hl] at hinfo
    exact ⟨info, get?_push hinfo hsite, hsite⟩
  · rintro ⟨info, hinfo, hsite⟩
    exact ⟨info, by rw [hl]; exact get?_push_of_some hinfo, hsite⟩

/-- A declaration moves no label. -/
lemma declareFunction_placed {p : Prototype} {define : Bool} {f : Signature}
    (h : s.declareFunction p define = .ok (s', f)) (label : LabelId) (site : InstrId) :
    Placed s' label site ↔ Placed s label site := by
  obtain ⟨functions, labels, hd, rfl⟩ := declareFunction_eq h
  obtain rfl | rfl := declare_labels hd
  · rfl
  · exact placed_push rfl

lemma declareFunction_tabled {p : Prototype} {define : Bool} {f : Signature} {i : Item}
    (h : s.declareFunction p define = .ok (s', f)) (hp : i.signature = p) (ht : Tabled done s) :
    Tabled (done ++ [i]) s' := by
  have hplaced := declareFunction_placed h
  have hkept : Kept s s' := (ItemStep.declareFunction h).kept
  obtain ⟨functions, labels, hd, rfl⟩ := declareFunction_eq h
  obtain ⟨hget, hreturns, -, hcases⟩ := Functions.declare_spec hd
  have hold {name : String} {g : Signature} (hg : s.listing.functions.get? name = some g) :
      ∃ info, labels.get? g.label = some info ∧ info.name = .function name := by
    obtain ⟨info, hinfo, hname⟩ := ht.label hg
    obtain ⟨info', hinfo', hname'⟩ := hkept.names hinfo
    exact ⟨info', hinfo', hname'.trans hname⟩
  refine ⟨fun {name g} hg => ?_, fun {name g} hg hdefined site hp => ?_, fun name => ?_⟩
  · rw [hget] at hg
    split at hg
    · rename_i heq
      obtain rfl := Option.some.inj hg
      subst heq
      obtain ⟨-, old, hgold, -, hlabel, -⟩ | ⟨rfl, -, hlabel⟩ := hcases
      · rw [hlabel]
        exact hold hgold
      · refine ⟨⟨.function p.name, none⟩, ?_, rfl⟩
        simp [hlabel, Labels.push, Labels.get?, Labels.size]
    · exact hold hg
  · rw [hget] at hg
    rw [hplaced] at hp
    split at hg
    · obtain rfl := Option.some.inj hg
      obtain ⟨-, old, hgold, -, hlabel, hundefined, -⟩ | ⟨-, -, hlabel⟩ := hcases
      · exact ht.undefined hgold (hundefined hdefined) site (hlabel ▸ hp)
      · exact absurd hp.lt (by rw [hlabel]; exact lt_irrefl _)
    · exact ht.undefined hg hdefined site hp
  · have hdone := ht.returns name
    rw [List.map_append, List.find?_append, List.map_singleton, hp]
    change (functions.get? name).map _ = _
    rw [hget]
    split
    · rename_i heq
      subst heq
      obtain ⟨-, old, hgold, hreturns', -⟩ | ⟨-, hnone, -⟩ := hcases
      · rw [hgold] at hdone
        obtain ⟨q, hq, hqr⟩ := Option.map_eq_some_iff.1 hdone.symm
        rw [hq]
        simp [hreturns, hqr, hreturns']
      · rw [hnone] at hdone
        rw [Option.map_eq_none_iff.1 hdone.symm]
        simp [hreturns]
    · rename_i hne
      rw [hdone]
      simp [Ne.symm hne]

/-- A function that is defined has had no place before. -/
lemma declareFunction_define {p : Prototype} {f : Signature}
    (h : s.declareFunction p true = .ok (s', f)) (ht : Tabled done s) :
    s'.listing.functions.get? p.name = some f ∧ f.defined = true ∧ Unplaced s' f.label := by
  have hplaced := declareFunction_placed h
  obtain ⟨functions, labels, hd, rfl⟩ := declareFunction_eq h
  obtain ⟨hget, -, hdefined, hcases⟩ := Functions.declare_spec hd
  refine ⟨(hget p.name).trans (if_pos rfl), hdefined rfl, fun site hp => ?_⟩
  rw [hplaced] at hp
  obtain ⟨-, old, hgold, -, hlabel, -, hundefined⟩ | ⟨-, -, hlabel⟩ := hcases
  · exact ht.undefined hgold (hundefined rfl) site (hlabel ▸ hp)
  · exact absurd hp.lt (by rw [hlabel]; exact lt_irrefl _)

end

/-! ### Parameters -/

section

variable {l : Listing} {env : Environment W} {ctx : Context} {s s' : Lowering}
  {m : Store W} {c : Config W}

lemma param_after {p : Param} {u : Unit} (h : param p s = .ok (u, s')) (hf : Fits ctx s) :
    After (ctx.declareVar p.name) false s s' := by
  obtain ⟨-, t, v, scopes, id, hv, hb, he⟩ := param_ok h
  have ht : t = (s.freshVariable p.name p.ty.ty s.scopes.current .ofParameter).1 := by rw [hv]
  have hplain : t.listing.vars.Plain := by
    rw [ht]
    exact hf.plain.declare _ _ _ _
  have hscopes : t.scopes = s.scopes := by rw [ht]; rfl
  have hfits := hf.declareVar hscopes (named_freshVariable hv) (by rw [ht]; rfl) hplain hb
  have hafter := emitted_after (emit_emitted he).1 hfits
  refine ⟨hafter.fits, hafter.unreachable, SameOuter.trans ?_ hafter.outer⟩
  rw [← hscopes]
  exact (bind_spec hb).2

lemma params_after {ps : List Param} (h : Params ps s s') (hf : Fits ctx s)
    (hreached : s.unreachable = false) : After (ctx.declareParams ps) false s s' := by
  induction h generalizing ctx with
  | nil s => exact ⟨hf, hreached, .refl _⟩
  | cons hp _ ih =>
    have h₁ := param_after hp hf
    exact h₁.trans (ih h₁.fits h₁.unreachable)

/-- A parameter takes the next argument. -/
lemma param_leads (env : Environment W) {p : Param} {u : Unit} (h : param p s = .ok (u, s'))
    (hw : Within l s') (hf : Fits ctx s) (hpc : c.pc = s.listing.arena.size)
    (hr : Related l none m c) :
    ∃ c', Leads l env 0 c c' ∧ c'.pc = s'.listing.arena.size ∧
      Related l none (m.passArgs ctx.vars [p] c.data.incoming) c' ∧
      c'.data.incoming = c.data.incoming.tail := by
  obtain ⟨-, t, v, scopes, id, hv, -, he⟩ := param_ok h
  have ht : t = (s.freshVariable p.name p.ty.ty s.scopes.current .ofParameter).1 := by rw [hv]
  have hemit := (emit_emitted he).1
  have hnamed : l.named[ctx.vars]? = some v := by
    refine (hw.back (emit_kept he)).named_eq ?_
    change t.listing.named[ctx.vars]? = some v
    rw [named_freshVariable hv, ← hf.vars]
    simp
  have hpct : c.pc = t.listing.arena.size := by rw [hpc, ht]; rfl
  obtain ⟨c', hlead, hpc', hrun, hdata, htrace⟩ := hemit.fall hw env hpct hr.running rfl
  refine ⟨c', hlead.mono (Nat.zero_le _), hpc', ?_⟩
  have hdata : c'.data = c.data.bindParam v := hdata
  have htrace : c'.trace = c.trace := htrace.trans (List.append_nil _)
  have hset : Related l none (m.set ctx.vars (c.data.incoming.headD .void))
      { c' with data := c.data.set v (c.data.incoming.headD .void) } :=
    hr.set hnamed (by simp) hrun rfl htrace
  refine ⟨⟨hrun, ?_, ?_, ?_, ?_, hset.trace⟩, by rw [hdata]; rfl⟩
  · rw [hdata]
    exact hset.vars
  · rw [hdata]
    exact hset.arrays
  · rw [hdata]
    exact hset.world
  · rw [hdata]
    exact hset.pushed

lemma params_kept {ps : List Param} (h : Params ps s s') : Kept s s' :=
  (params_reaches (k := 0) h).kept

lemma params_lead (env : Environment W) {ps : List Param} (h : Params ps s s')
    (hw : Within l s') (hf : Fits ctx s) (hpc : c.pc = s.listing.arena.size)
    (hr : Related l none m c) :
    ∃ c', Leads l env 0 c c' ∧ c'.pc = s'.listing.arena.size ∧
      Related l none (m.passArgs ctx.vars ps c.data.incoming) c' := by
  induction h generalizing ctx m c with
  | nil s => exact ⟨c, .refl l env c, hpc, hr⟩
  | @cons p rest s t s' hp hrest ih =>
    obtain ⟨c₁, hlead, hpc₁, hr₁, hin⟩ :=
      param_leads env hp (hw.back (params_kept hrest)) hf hpc hr
    obtain ⟨c₂, hlead', hpc₂, hr₂⟩ := ih hw (param_after hp hf).fits hpc₁ hr₁
    refine ⟨c₂, hlead.trans hlead', hpc₂, ?_⟩
    rw [hin] at hr₂
    exact hr₂

end

/-! ### Items -/

section

variable {l : Listing} {done : List Item} {ctx : Context} {s s' : Lowering}

lemma functionEnd_after {t t' : Lowering} (h : FunctionEnd t t') (hf : Fits ctx t) :
    Fits ctx t' ∧ SameOuter t.scopes t'.scopes := by
  unfold FunctionEnd at h
  split at h
  · subst h
    exact ⟨hf, .refl _⟩
  · obtain ⟨id, he⟩ := h
    have hafter := emitted_after (emit_emitted he).1 hf
    exact ⟨hafter.fits, hafter.outer⟩

lemma declareFunction_fits {p : Prototype} {define : Bool} {f : Signature}
    (h : s.declareFunction p define = .ok (s', f)) (hf : Fits ctx s) : Fits ctx s' := by
  obtain ⟨functions, labels, -, rfl⟩ := declareFunction_eq h
  exact hf.of_eq rfl rfl rfl

/-- The state at the start of the body of a function. -/
lemma function_body_fits {p : Prototype} {f : Signature} {t₁ t₂ t₃ : Lowering}
    (hd : s.declareFunction p true = .ok (t₁, f)) (hs : t₁.startAt f.label = .ok t₂)
    (hp : Params p.params { t₂ with scopes := t₂.scopes.push } t₃) (hf : Fits ctx s) :
    Fits ctx { t₂ with scopes := t₂.scopes.push } ∧
      After (ctx.declareParams p.params) false { t₂ with scopes := t₂.scopes.push } t₃ := by
  have h₂ := emitted_after (startAt_emitted hs).1 (declareFunction_fits hd hf)
  have hpush : Fits ctx { t₂ with scopes := t₂.scopes.push } :=
    ⟨h₂.fits.binds.mono rfl (bindings_push _) le_rfl List.prefix_rfl, h₂.fits.vars,
      h₂.fits.arrays, h₂.fits.plain⟩
  exact ⟨hpush, params_after hp hpush h₂.unreachable⟩

/-- The scopes follow the text through an item. -/
lemma item_fits {i : Item} {u : Unit} (h : item i s = .ok (u, s')) (hf : Fits ctx s) :
    Fits (i.context ctx) s' := by
  have hkept := (item_extends h).kept
  cases i with
  | prototype p =>
    obtain ⟨f, hd⟩ := item_prototype_ok h
    exact declareFunction_fits hd hf
  | function p body =>
    obtain ⟨f, t₁, t₂, t₃, t₄, t₅, hd, hs, hp, hb, he, rfl⟩ := function_ok h
    obtain ⟨hpush, h₃⟩ := function_body_fits hd hs hp hf
    have hf₃ : Fits (ctx.declareParams p.params)
        { t₃ with function := some ⟨p.name, p.returns.ty⟩ } := h₃.fits.of_eq rfl rfl rfl
    have h₄ := stmt_after body hb hf₃ h₃.unreachable
    obtain ⟨hf₅, houter⟩ := functionEnd_after he h₄.fits
    have hsame := h₃.outer.trans (h₄.outer.trans houter)
    have hscopes : t₂.scopes = s.scopes := by
      obtain ⟨functions, labels, -, rfl⟩ := declareFunction_eq hd
      exact (startAt_emitted hs).1.scopes
    obtain ⟨-, htail⟩ := hsame (by simp [Scopes.push])
    have hframes : t₅.scopes.pop.frames = s.scopes.frames := by
      rw [← hscopes]
      exact htail
    refine ⟨?_, hf₅.vars, hf₅.arrays, hf₅.plain⟩
    refine hf.binds.mono rfl ?_ ?_ hkept.named
    · change bindings t₅.scopes.pop = bindings s.scopes
      unfold bindings
      rw [hframes]
    · rw [← hf.vars]
      exact hkept.named.length_le.trans (le_of_eq hf₅.vars)

lemma item_tabled {i : Item} {u : Unit} (h : item i s = .ok (u, s')) (ht : Tabled done s) :
    Tabled (done ++ [i]) s' := by
  cases i with
  | prototype p =>
    obtain ⟨f, hd⟩ := item_prototype_ok h
    exact declareFunction_tabled hd rfl ht
  | function p body =>
    obtain ⟨f, t₁, t₂, t₃, t₄, t₅, hd, hs, hp, hb, he, rfl⟩ := function_ok h
    obtain ⟨hget, hdefined, -⟩ := declareFunction_define hd ht
    have h₂ := (declareFunction_tabled (i := .function p body) hd rfl ht).startAt hget hdefined hs
    have h₂' : Tabled (done ++ [.function p body]) { t₂ with scopes := t₂.scopes.push } :=
      h₂.of_listing rfl
    have h₃ : Tabled (done ++ [.function p body])
        { t₃ with function := some ⟨p.name, p.returns.ty⟩ } :=
      (h₂'.reaches (params_reaches hp)).of_listing rfl
    have h₄ := h₃.reaches (stmt_reaches body le_rfl hb)
    exact (h₄.reaches (functionEnd_reaches he)).of_listing rfl

/-- The labels are settled all along the code of a function. -/
lemma function_settled {p : Prototype} {body : Stmt} {f : Signature} {u : Unit}
    {t₁ t₂ t₃ t₄ t₅ : Lowering} (hd : s.declareFunction p true = .ok (t₁, f))
    (hs : t₁.startAt f.label = .ok t₂)
    (hp : Params p.params { t₂ with scopes := t₂.scopes.push } t₃)
    (hb : stmt body { t₃ with function := some ⟨p.name, p.returns.ty⟩ } = .ok (u, t₄))
    (he : FunctionEnd t₄ t₅) (ht : Tabled done s) (hl : Settled l t₅) :
    Settled l t₄ ∧ Settled l t₂ ∧ Settled l s := by
  have hl₄ := hl.back (functionEnd_reaches he)
  have hl₃ : Settled l { t₃ with function := some ⟨p.name, p.returns.ty⟩ } :=
    hl₄.back (stmt_reaches body le_rfl hb)
  have hl₃' : Settled l t₃ := hl₃
  have hl₂ : Settled l { t₂ with scopes := t₂.scopes.push } := hl₃'.back (params_reaches hp)
  have hl₂' : Settled l t₂ := hl₂
  have hl₁ := hl₂'.back_startAt hs (declareFunction_define hd ht).2.2
  exact ⟨hl₄, hl₂', fun label site hp => hl₁ ((declareFunction_placed hd label site).2 hp)⟩

lemma item_settled {i : Item} {u : Unit} (h : item i s = .ok (u, s')) (ht : Tabled done s)
    (hl : Settled l s') : Settled l s := by
  cases i with
  | prototype p =>
    obtain ⟨f, hd⟩ := item_prototype_ok h
    exact fun label site hp => hl ((declareFunction_placed hd label site).2 hp)
  | function p body =>
    obtain ⟨f, t₁, t₂, t₃, t₄, t₅, hd, hs, hp, hb, he, rfl⟩ := function_ok h
    exact (function_settled hd hs hp hb he ht hl).2.2

/-- A function keeps its label. -/
lemma item_function {i : Item} {u : Unit} (h : item i s = .ok (u, s')) {name : String}
    {f : Signature} (hf : s.listing.functions.get? name = some f) :
    ∃ f', s'.listing.functions.get? name = some f' ∧ f'.label = f.label := by
  have hdeclare {p : Prototype} {define : Bool} {g : Signature} {t : Lowering}
      (hd : s.declareFunction p define = .ok (t, g)) :
      ∃ f', t.listing.functions.get? name = some f' ∧ f'.label = f.label := by
    obtain ⟨functions, labels, hdeclare, rfl⟩ := declareFunction_eq hd
    obtain ⟨hget, -, -, hcases⟩ := Functions.declare_spec hdeclare
    by_cases hname : name = p.name
    · subst hname
      obtain ⟨-, old, hold, -, hlabel, -⟩ | ⟨-, hnone, -⟩ := hcases
      · obtain rfl := Option.some.inj (hf.symm.trans hold)
        exact ⟨g, (hget p.name).trans (if_pos rfl), hlabel⟩
      · simp [hf] at hnone
    · exact ⟨f, (hget name).trans ((if_neg hname).trans hf), rfl⟩
  cases i with
  | prototype p =>
    obtain ⟨g, hd⟩ := item_prototype_ok h
    exact hdeclare hd
  | function p body =>
    obtain ⟨g, t₁, t₂, t₃, t₄, t₅, hd, hs, hp, hb, he, rfl⟩ := function_ok h
    have hfun : t₅.listing.functions = t₁.listing.functions := by
      rw [(functionEnd_reaches (k := 0) he).functions,
        (stmt_reaches body (Nat.zero_le _) hb).functions]
      exact (params_reaches (k := 0) hp).functions.trans (startAt_emitted hs).1.functions
    obtain ⟨f', hf', hlabel⟩ := hdeclare hd
    exact ⟨f', by rw [← hf', ← hfun], hlabel⟩

end

/-! ### Functions -/

section

variable {l : Listing} {env : Environment W} {returns : String → Ty} {fuel : Nat}
  {done : List Item} {ctx : Context} {s s' : Lowering} {m : Store W} {c : Config W}

/-- The types of calls are those of the first declarations. -/
def Announced (returns : String → Ty) (done : List Item) : Prop :=
  ∀ ⦃name q⦄, (done.map Item.signature).find? (·.name = name) = some q →
    returns name = q.returns.ty

lemma Tabled.callable (h : Tabled done s) (hw : Within l s) (hreturns : Announced returns done) :
    Callable l returns s.listing.functions := by
  intro name f hf
  obtain ⟨info, hinfo, hname⟩ := h.label hf
  obtain ⟨⟨name', site⟩, hinfo', hname'⟩ := hw.label_name hinfo
  obtain rfl : name' = .function name := hname'.trans hname
  refine ⟨by rw [functionOf, hinfo'], ?_⟩
  have hdone := h.returns name
  rw [hf] at hdone
  obtain ⟨q, hq, hqr⟩ := Option.map_eq_some_iff.1 hdone.symm
  rw [hreturns hq, hqr]

/-- The place of a function is where its code starts. -/
lemma function_position {p : Prototype} {body : Stmt} {u : Unit}
    (h : function p body s = .ok (u, s')) (ht : Tabled done s) (hl : Settled l s') :
    ∃ f, s'.listing.functions.get? p.name = some f ∧
      position l f.label = s.listing.arena.size := by
  obtain ⟨f, t₁, t₂, t₃, t₄, t₅, hd, hs, hp, hb, he, rfl⟩ := function_ok h
  have hfun : t₅.listing.functions = t₁.listing.functions := by
    rw [(functionEnd_reaches (k := 0) he).functions,
      (stmt_reaches body (Nat.zero_le _) hb).functions]
    exact (params_reaches (k := 0) hp).functions.trans (startAt_emitted hs).1.functions
  obtain ⟨-, hl₂, -⟩ := function_settled hd hs hp hb he ht hl
  refine ⟨f, by rw [← (declareFunction_define hd ht).1, ← hfun], ?_⟩
  rw [hl₂ (startAt_placed hs)]
  obtain ⟨functions, labels, -, rfl⟩ := declareFunction_eq hd
  rfl

/-- The code of a function follows its execution. -/
theorem function_follows {p : Prototype} {body : Stmt} {u : Unit}
    {post : Unit → Store W → Config W → Prop} (h : function p body s = .ok (u, s'))
    (hw : Within l s') (hl : Settled l s') (hf : Fits ctx s) (ht : Tabled done s)
    (hreturns : Announced returns (done ++ [.function p body]))
    (hpc : c.pc = s.listing.arena.size) (hr : Related l none m c) :
    Follows l env fuel c post
      (result (invoke env returns fuel ⟨ctx, p, body⟩ c.data.incoming) m) := by
  obtain ⟨f, t₁, t₂, t₃, t₄, t₅, hd, hs, hp, hb, he, rfl⟩ := function_ok h
  obtain ⟨hpush, h₃⟩ := function_body_fits hd hs hp hf
  obtain ⟨hl₄, -, -⟩ := function_settled hd hs hp hb he ht hl
  have hw₅ : Within l t₅ := hw.back
    ((ItemStep.context t₅ none).kept.trans (Step.scopes (k := 0) _ t₅.scopes.pop).kept)
  have hw₄ := hw₅.back (functionEnd_reaches (k := 0) he).kept
  have hw₃ : Within l { t₃ with function := some ⟨p.name, p.returns.ty⟩ } :=
    hw₄.back (stmt_reaches body (Nat.zero_le _) hb).kept
  have hw₃' : Within l t₃ := hw₃.back (ItemStep.context t₃ _).kept
  have hw₂ : Within l { t₂ with scopes := t₂.scopes.push } := hw₃'.back (params_kept hp)
  have hw₂' : Within l t₂ := hw₂.back (Step.scopes (k := 0) t₂ t₂.scopes.push).kept
  have hf₃ : Fits (ctx.declareParams p.params)
      { t₃ with function := some ⟨p.name, p.returns.ty⟩ } := h₃.fits.of_eq rfl rfl rfl
  have hcall : Callable l returns t₃.listing.functions := by
    have h₁ := declareFunction_tabled (i := .function p body) hd rfl ht
    obtain ⟨hget, hdefined, -⟩ := declareFunction_define hd ht
    have hcall₂ := (h₁.startAt hget hdefined hs).callable hw₂' hreturns
    rw [(params_reaches (k := 0) hp).functions]
    exact hcall₂
  have hpc₁ : c.pc = t₁.listing.arena.size := by
    obtain ⟨functions, labels, -, rfl⟩ := declareFunction_eq hd
    exact hpc
  obtain ⟨c₁, hlead₁, hpc₁, hrun, hdata, htrace⟩ :=
    (startAt_emitted hs).1.fall hw₂' env hpc₁ hr.running rfl
  have hdata : c₁.data = c.data := hdata
  have hr₁ := hr.moved hrun hdata (htrace.trans (List.append_nil _))
  obtain ⟨c₂, hlead₂, hpc₂, hr₂⟩ := params_lead env hp hw₃' hpush hpc₁ hr₁
  rw [hdata] at hr₂
  unfold invoke
  rw [result_update_bind]
  refine Follows.lead (hlead₁.trans hlead₂) ?_ (Nat.le_add_left fuel _)
  refine (stmt_follows body hb hw₄ hl₄ hf₃ hcall h₃.unreachable hpc₂ hr₂).bind ?_
  intro _ m' c' hdone
  rw [FunctionEnd, if_neg (by simp [hdone.reached])] at he
  obtain ⟨id, he⟩ := he
  exact ret_follows he hw₅ hdone.pc hdone.related rfl

end

end Lower

end ThreeAddress
