import ThreeAddress.Proofs.Lowering.Functions

/-!
Lowering preserves meaning. The executions of a program with ever more turns of its loops
and the runs of its listing with ever more steps show the same, and the ones come to an end
if and only if the others do.
-/

namespace ThreeAddress

open Machine Structured Source

variable {W : Type}

/-! ### What is seen in the end -/

/-- What is seen of the beginnings of an execution. -/
def Structured.traces (code : Nat → Exec W Unit) (m : Store W) : Set (List Observation) :=
  {t | ∃ fuel, t <+: (result (code fuel) m).2.trace}

/-- The execution ends after it has shown `t`. -/
def Structured.Ends (code : Nat → Exec W Unit) (m : Store W) (t : List Observation) : Prop :=
  ∃ fuel, (result (code fuel) m).1 ≠ .error .exhausted ∧ (result (code fuel) m).2.trace = t

/-- What is seen of the beginnings of a run. -/
def Machine.traces (l : Listing) (env : Environment W) (entry : Entry) (d : Data W) :
    Set (List Observation) :=
  {t | ∃ n, t <+: (run l env n (start l entry d)).trace}

/-- The run ends after it has shown `t`. -/
def Machine.Ends (l : Listing) (env : Environment W) (entry : Entry) (d : Data W)
    (t : List Observation) : Prop :=
  ∃ n, (run l env n (start l entry d)).running = false ∧
    (run l env n (start l entry d)).trace = t

/-- The data that a run starts with: the values of variables, the arrays, the state of the
world, and the arguments. -/
def Machine.Data.start (vars : VarId → Value) (arrays : ArrayStore) (world : W)
    (args : List Value) : Data W :=
  { vars, arrays, world, pushed := [], incoming := args }

/-- The same data for an execution, where declared variables have numbers. -/
def Structured.Store.start (l : Listing) (vars : VarId → Value) (arrays : ArrayStore)
    (world : W) : Store W :=
  { vars := fun x => (l.named[x]?).elim .void vars, arrays, world, trace := [] }

section

variable {l : Listing} {env : Environment W} {c : Config W}

lemma trace_step (l : Listing) (env : Environment W) (c : Config W) :
    c.trace <+: (step l env c).trace := by
  unfold Config.trace
  refine List.IsPrefix.filter _ ?_
  unfold step
  split
  · split <;> exact List.prefix_append _ _
  · exact List.prefix_rfl

lemma trace_run (l : Listing) (env : Environment W) {n n' : Nat} (h : n ≤ n') (c : Config W) :
    (run l env n c).trace <+: (run l env n' c).trace := by
  obtain ⟨k, rfl⟩ := Nat.exists_eq_add_of_le h
  induction k with
  | zero => exact List.prefix_rfl
  | succ k ih =>
    rw [← Nat.add_assoc, run_add, run_one]
    exact (ih (Nat.le_add_right n k)).trans (trace_step l env _)

/-- A run that has stopped stays as it is. -/
lemma run_of_stopped (h : c.running = false) (n : Nat) : run l env n c = c := by
  induction n with
  | zero => rfl
  | succ n ih => rw [run_succ, step_of_stopped h, ih]

lemma run_of_le {n n' : Nat} (h : (run l env n c).running = false) (hle : n ≤ n') :
    run l env n' c = run l env n c := by
  obtain ⟨k, rfl⟩ := Nat.exists_eq_add_of_le hle
  rw [run_add, run_of_stopped h]

/-- Where an execution ends the run stops, and where it is cut off the run goes on. -/
def Stops (_ : Unit) (m : Store W) (c : Config W) : Prop :=
  c.running = false ∧ c.trace = m.trace

lemma Structured.Follows.seen {turns : Nat} {r : Except Stop Unit × Store W}
    (h : Follows l env turns c Stops r) :
    ∃ n, (run l env n c).trace = r.2.trace ∧
      ((r.1 = .error .exhausted ∧ turns ≤ n ∧ (run l env n c).running = true) ∨
        (r.1 ≠ .error .exhausted ∧ (run l env n c).running = false)) := by
  match r with
  | (.error .exhausted, m) =>
    obtain ⟨c', ⟨n, hn, rfl⟩, hrun, htrace⟩ := h
    exact ⟨n, htrace, .inl ⟨rfl, hn, hrun⟩⟩
  | (.ok (), m) | (.error .returned, m) | (.error .trapped, m) =>
    obtain ⟨c', ⟨n, -, rfl⟩, hrun, htrace⟩ := h
    exact ⟨n, htrace, .inr ⟨by simp, hrun⟩⟩

/-- A run that follows an execution, however often its loops may turn, shows the same. -/
lemma traces_eq {entry : Entry} {d : Data W} {code : Nat → Exec W Unit} {m : Store W}
    (h : ∀ fuel, Follows l env fuel (start l entry d) Stops (result (code fuel) m)) :
    Structured.traces code m = Machine.traces l env entry d ∧
      ∀ t, Structured.Ends code m t ↔ Machine.Ends l env entry d t := by
  refine ⟨?_, fun t => ⟨?_, ?_⟩⟩
  · ext t
    constructor
    · rintro ⟨fuel, ht⟩
      obtain ⟨n, htrace, -⟩ := (h fuel).seen
      exact ⟨n, htrace ▸ ht⟩
    · rintro ⟨n, ht⟩
      -- loops that turn `n` times show at least what `n` steps show
      obtain ⟨n', htrace, hcases⟩ := (h n).seen
      refine ⟨n, ht.trans ?_⟩
      rw [← htrace]
      obtain hle | hle := Nat.le_total n n'
      · exact trace_run l env hle _
      · obtain ⟨-, hn, -⟩ | ⟨-, hstopped⟩ := hcases
        · exact trace_run l env hn _
        · rw [run_of_le hstopped hle]
  · rintro ⟨fuel, hended, rfl⟩
    obtain ⟨n, htrace, ⟨hexhausted, -⟩ | ⟨-, hstopped⟩⟩ := (h fuel).seen
    · exact absurd hexhausted hended
    · exact ⟨n, hstopped, htrace⟩
  · rintro ⟨n, hstopped, rfl⟩
    obtain ⟨n', htrace, ⟨-, hn, hrun⟩ | ⟨hended, hstopped'⟩⟩ := (h n).seen
    · rw [run_of_le hstopped hn, hstopped] at hrun
      simp at hrun
    · refine ⟨n, hended, ?_⟩
      rw [← htrace]
      obtain hle | hle := Nat.le_total n n'
      · rw [run_of_le hstopped hle]
      · rw [run_of_le hstopped' hle]

end

/-! ### Programs -/

namespace Lower

open Lowering

/-- A listing keeps all its labels. -/
lemma settled_listing {s : Lowering} (h : s.Sound) : Settled s.listing s := by
  rintro label site ⟨info, hinfo, hsite⟩
  obtain ⟨x, hx, -⟩ := h.coherent.sites hinfo hsite
  have hlt : site < s.listing.arena.size := (Array.getElem?_eq_some_iff.1 hx).1
  rw [position, hinfo, h.stream]
  have hidx := List.nodup_range.idxOf_getElem site (by simpa using hlt)
  rw [List.getElem_range] at hidx
  simpa [hsite] using hidx

lemma items_settled {is : List Item} {done : List Item} {l : Listing} {s s' : Lowering} {u : Unit}
    (h : is.forM item s = .ok (u, s')) (ht : Tabled done s) (hl : Settled l s') :
    Settled l s := by
  induction is generalizing done s with
  | nil =>
    obtain ⟨-, rfl⟩ := pure_ok.1 h
    exact hl
  | cons i rest ih =>
    obtain ⟨t, hi, hrest⟩ := forM_cons_ok.1 h
    exact item_settled hi ht (ih hrest (item_tabled hi ht))

lemma items_function {is : List Item} {s s' : Lowering} {u : Unit}
    (h : is.forM item s = .ok (u, s')) {name : String} {f : Signature}
    (hf : s.listing.functions.get? name = some f) :
    ∃ f', s'.listing.functions.get? name = some f' ∧ f'.label = f.label := by
  induction is generalizing s f with
  | nil =>
    obtain ⟨-, rfl⟩ := pure_ok.1 h
    exact ⟨f, hf, rfl⟩
  | cons i rest ih =>
    obtain ⟨t, hi, hrest⟩ := forM_cons_ok.1 h
    obtain ⟨g, hg, hlabel⟩ := item_function hi hf
    obtain ⟨f', hf', hlabel'⟩ := ih hrest hg
    exact ⟨f', hf', hlabel'.trans hlabel⟩

/-- The definition of a function is lowered in the context that it stands in. -/
lemma items_definition {is : List Item} {done : List Item} {ctx : Context} {s s' : Lowering}
    {u : Unit} (h : is.forM item s = .ok (u, s')) (hf : Fits ctx s) (ht : Tabled done s)
    {name : String} {d : Definition} (hd : findDefinition name ctx is = some d) :
    ∃ before after s₁ s₂, is = before ++ .function d.signature d.body :: after ∧
      function d.signature d.body s₁ = .ok ((), s₂) ∧ after.forM item s₂ = .ok (u, s') ∧
      Fits d.context s₁ ∧ Tabled (done ++ before) s₁ ∧ d.signature.name = name := by
  induction is generalizing done ctx s with
  | nil => simp [findDefinition] at hd
  | cons i rest ih =>
    obtain ⟨t, hi, hrest⟩ := forM_cons_ok.1 h
    have hfits := item_fits hi hf
    have htabled := item_tabled hi ht
    have hskip (hd : findDefinition name (i.context ctx) rest = some d) :
        ∃ before after s₁ s₂, i :: rest = before ++ .function d.signature d.body :: after ∧
          function d.signature d.body s₁ = .ok ((), s₂) ∧
          List.forM after item s₂ = .ok (u, s') ∧
          Fits d.context s₁ ∧ Tabled (done ++ before) s₁ ∧ d.signature.name = name := by
      obtain ⟨before, after, s₁, s₂, rfl, hrun⟩ := ih hrest hfits htabled hd
      refine ⟨i :: before, after, s₁, s₂, rfl, ?_⟩
      rwa [List.append_assoc] at hrun
    cases i with
    | prototype p => exact hskip hd
    | function p body =>
      rw [findDefinition] at hd
      split at hd
      · rename_i hname
        obtain rfl := Option.some.inj hd
        refine ⟨[], rest, s, t, rfl, hi, hrest, hf, ?_, hname⟩
        rwa [List.append_nil]
      · exact hskip hd

lemma fits_start : Fits .start .start := by
  refine ⟨?_, rfl, rfl, ?_⟩
  · exact .nil
  · refine ⟨rfl, fun hx _ => ?_⟩
    simp [Lowering.start, Listing.empty, Variables.empty, Variables.get?] at hx

lemma tabled_start : Tabled [] .start := by
  refine ⟨fun hf => ?_, fun hf => ?_, fun name => rfl⟩ <;>
    simp [Lowering.start, Listing.empty, Functions.empty, Functions.get?] at hf

lemma announced_append (before after : List Item) :
    Announced (Program.returns (.items (before ++ after))) before := by
  intro name q hq
  rw [Program.returns, List.map_append, List.find?_append, hq]
  rfl

lemma related_start (l : Listing) (entry : Entry) (vars : VarId → Value) (arrays : ArrayStore)
    (world : W) (args : List Value) :
    Related l none (.start l vars arrays world)
      (Machine.start l entry (.start vars arrays world args)) := by
  refine ⟨rfl, fun {x v} hv _ => ?_, rfl, rfl, rfl, rfl⟩
  simp [Store.start, Machine.start, Data.start, hv]

end Lower

open Lower Lowering in
/-- The listing of a program follows the execution of each of its parts. -/
theorem Listing.code_follows {p : Program} {l : Listing} (h : Listing.ofProgram p = .ok l)
    {env : Environment W} {args : List Value} {entry : Entry} {code : Nat → Exec W Unit}
    (hcode : p.code env args entry = some code) (vars : VarId → Value) (arrays : ArrayStore)
    (world : W) (fuel : Nat) :
    Follows l env fuel (Machine.start l entry (.start vars arrays world args)) Stops
      (result (code fuel) (.start l vars arrays world)) := by
  obtain ⟨s', hp, rfl⟩ := ofProgram_ok h
  have hsound := (program_extends hp).sound sound_start
  have hw : Within s'.listing s' := ⟨s', .refl s', hsound, rfl⟩
  have hl := settled_listing hsound
  have hr := related_start s'.listing entry vars arrays world args
  cases p with
  | stmt body =>
    cases entry with
    | function name => simp [Program.code] at hcode
    | first =>
      obtain rfl := Option.some.inj hcode
      have hcall : Callable s'.listing (Program.returns (.stmt body))
          Lowering.start.listing.functions := by
        intro name f hf
        simp [Lowering.start, Listing.empty, Functions.empty, Functions.get?] at hf
      refine (stmt_follows body hp hw hl fits_start hcall rfl rfl hr).bind ?_
      intro _ m c hdone
      have hnone : instrAt? s'.listing c.pc = none := by
        rw [instrAt?, hsound.stream, hdone.pc]
        simp
      refine ⟨_, (Leads.step s'.listing env c).mono (Nat.zero_le _), ?_⟩
      rw [step_of_none hdone.related.running hnone]
      have htrace := hdone.related.trace
      refine ⟨rfl, ?_⟩
      simp only [Config.trace, List.filter_append] at htrace ⊢
      rw [htrace]
      rfl
  | items all =>
    cases entry with
    | first => simp [Program.code] at hcode
    | function name =>
      obtain ⟨f, hf, rfl⟩ := Option.map_eq_some_iff.1 hcode
      obtain ⟨before, after, s₁, s₂, rfl, hfun, hafter, hfits, htabled, hname⟩ :=
        items_definition hp fits_start tabled_start hf
      obtain ⟨ctx, p, body⟩ := f
      have htabled₂ := item_tabled (i := .function p body) hfun htabled
      have hl₂ := items_settled hafter htabled₂ hl
      have hw₂ := hw.back (items_extends hafter).kept
      obtain ⟨g, hg, hposition⟩ := function_position hfun htabled hl₂
      obtain ⟨g', hg', hlabel⟩ := items_function hafter hg
      have hpc : entryPosition s'.listing (.function name) = s₁.listing.arena.size := by
        simp only [entryPosition, ← hname, hg', Option.elim_some, hlabel, hposition]
      have hreturns := announced_append (before ++ [.function p body]) after
      rw [List.append_assoc, List.singleton_append] at hreturns
      exact function_follows hfun hw₂ hl₂ hfits htabled hreturns hpc hr

/-- **Lowering preserves meaning**: an execution and a run that start with the same values show the
same, and end, if at all, after showing the same. -/
theorem Listing.ofProgram_traces {p : Program} {l : Listing} (h : Listing.ofProgram p = .ok l)
    (env : Environment W) (vars : VarId → Value) (arrays : ArrayStore) (world : W)
    (args : List Value) {entry : Entry} {code : Nat → Exec W Unit}
    (hcode : p.code env args entry = some code) :
    Structured.traces code (.start l vars arrays world) =
        Machine.traces l env entry (.start vars arrays world args) ∧
      ∀ t, Structured.Ends code (.start l vars arrays world) t ↔
        Machine.Ends l env entry (.start vars arrays world args) t :=
  traces_eq fun fuel => Listing.code_follows h hcode vars arrays world fuel

/-- `int fill(int n) { int a[4]; int i = 0; while (i < n) { a[i] = fill(i); i = i + 1; }
return i; }` -/
def fillProgram : Program :=
  .items [.function ⟨"fill", .int, [⟨.int, "n"⟩]⟩ (.compound [
    .array .int "a" 4,
    .decl .int "i" (some (.int 0)),
    .while (.binary .lt (.var "i") (.var "n")) (.compound [
      .expr (.assign (.elem "a" (.var "i")) (.call "fill" [.var "i"])),
      .expr (.assign (.var "i") (.binary .add (.var "i") (.int 1)))]),
    .ret (some (.var "i"))])]

/-- A loop with a call and a store in each turn; the calls answer with what they counted. -/
theorem Listing.ofProgram_traces_fill :
    ∃ l code, Listing.ofProgram fillProgram = .ok l ∧
      fillProgram.code (⟨fun n _ _ arrays => (n + 1, .int n, arrays)⟩ : Environment Int32)
        [.int 2] (.function "fill") = some code ∧
      Structured.traces code (.start l (fun _ => .int 5) (fun _ _ => .void) 7) =
        Machine.traces l ⟨fun n _ _ arrays => (n + 1, .int n, arrays)⟩ (.function "fill")
          (.start (fun _ => .int 5) (fun _ _ => .void) 7 [.int 2]) := by
  have hok : (Listing.ofProgram fillProgram).toOption.map (·.stream.isEmpty) = some false := by
    decide +kernel
  obtain ⟨l, hl, -⟩ := toOption_map_eq_some.1 hok
  exact ⟨l, _, hl, rfl, (Listing.ofProgram_traces hl _ _ _ _ _ rfl).1⟩

end ThreeAddress
