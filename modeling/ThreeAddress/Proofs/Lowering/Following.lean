import ThreeAddress.Proofs.Lowering.Context

/-!
A run of a listing that follows a structured execution. Where the execution comes to its
end, the run comes to the end of the code; where the execution stops, the run stops; and
where a loop of the execution is cut off, the run has taken at least as many steps as the
loop was allowed turns. Both have shown the same by then.
-/

namespace ThreeAddress

open Machine

/-- What is seen of an execution; its branches, pushes and blocks are its own affair. -/
def Machine.Observation.visible : Observation → Bool
  | store _ _ _ | call _ _ | ret _ | trap | finished => true
  | branch _ | push _ | left _ _ => false

/-- What is visible of a run. -/
def Machine.Config.trace {W : Type} (c : Config W) : List Observation :=
  c.log.filter Observation.visible

namespace Structured

variable {W α β : Type}

/-! ### Results of executions -/

lemma result_bind (x : Exec W α) (f : α → Exec W β) (m : Store W) :
    result (x >>= f) m = match result x m with
      | (.ok a, m') => result (f a) m'
      | (.error e, m') => (.error e, m') := by
  unfold result
  rw [ExceptT.run_bind, StateT.run_bind]
  change (match StateT.run (ExceptT.run x) m with | (a, s) => _) = _
  cases StateT.run (ExceptT.run x) m with
  | mk r m' => cases r <;> rfl

lemma result_get_bind (f : Store W → Exec W α) (m : Store W) :
    result (get >>= f) m = result (f m) m := by
  rw [result_bind]
  rfl

lemma result_update (f : Store W → Store W) (m : Store W) :
    result (update f) m = (.ok (), f m) := rfl

lemma result_update_bind (f : Store W → Store W) (g : Unit → Exec W α) (m : Store W) :
    result (update f >>= g) m = result (g ()) (f m) := by
  rw [result_bind, result_update]

/-! ### Runs -/

/-- The run takes `n` steps or more to get from one configuration to the other. -/
def Leads (l : Listing) (env : Environment W) (n : Nat) (c c' : Config W) : Prop :=
  ∃ k, n ≤ k ∧ run l env k c = c'

section

variable {l : Listing} {env : Environment W} {n n' : Nat} {c c' c'' : Config W}

lemma Leads.refl (l : Listing) (env : Environment W) (c : Config W) : Leads l env 0 c c :=
  ⟨0, le_rfl, rfl⟩

lemma Leads.trans (h : Leads l env n c c') (h' : Leads l env n' c' c'') :
    Leads l env (n + n') c c'' := by
  obtain ⟨k, hk, rfl⟩ := h
  obtain ⟨k', hk', rfl⟩ := h'
  exact ⟨k + k', Nat.add_le_add hk hk', run_add l env k k' c⟩

lemma Leads.mono (h : Leads l env n c c') (hn : n' ≤ n) : Leads l env n' c c' := by
  obtain ⟨k, hk, rfl⟩ := h
  exact ⟨k, hn.trans hk, rfl⟩

lemma Leads.step (l : Listing) (env : Environment W) (c : Config W) :
    Leads l env 1 c (step l env c) :=
  ⟨1, le_rfl, rfl⟩

end

/-- The run from `c` follows an execution with this result. `post` tells how run and
execution are related at the end, `turns` is how often loops may turn. -/
def Follows (l : Listing) (env : Environment W) (turns : Nat) (c : Config W)
    (post : α → Store W → Config W → Prop) : Except Stop α × Store W → Prop
  | (.ok a, m) => ∃ c', Leads l env 0 c c' ∧ post a m c'
  | (.error .exhausted, m) =>
    ∃ c', Leads l env turns c c' ∧ c'.running = true ∧ c'.trace = m.trace
  | (.error .returned, m) | (.error .trapped, m) =>
    ∃ c', Leads l env 0 c c' ∧ c'.running = false ∧ c'.trace = m.trace

section

variable {l : Listing} {env : Environment W} {turns : Nat} {c c' : Config W}
  {post : α → Store W → Config W → Prop} {post' : β → Store W → Config W → Prop}

lemma Follows.pure {a : α} {m : Store W} (h : post a m c) :
    Follows l env turns c post (.ok a, m) :=
  ⟨c, .refl l env c, h⟩

/-- The run may take steps before it follows. -/
lemma Follows.lead {n turns' : Nat} {r : Except Stop α × Store W} (hc : Leads l env n c c')
    (h : Follows l env turns c' post r) (hle : turns' ≤ n + turns) :
    Follows l env turns' c post r := by
  match r with
  | (.error .exhausted, m) =>
    obtain ⟨c'', hc'', h⟩ := h
    exact ⟨c'', (hc.trans hc'').mono hle, h⟩
  | (.ok _, m) | (.error .returned, m) | (.error .trapped, m) =>
    obtain ⟨c'', hc'', h⟩ := h
    exact ⟨c'', (hc.trans hc'').mono (Nat.zero_le _), h⟩

lemma Follows.anti {turns' : Nat} {r : Except Stop α × Store W}
    (h : Follows l env turns c post r) (hle : turns' ≤ turns) : Follows l env turns' c post r :=
  h.lead (.refl l env c) (by omega)

lemma Follows.bind {x : Exec W α} {f : α → Exec W β} {m : Store W}
    (hx : Follows l env turns c post (result x m))
    (hf : ∀ a m' c', post a m' c' → Follows l env turns c' post' (result (f a) m')) :
    Follows l env turns c post' (result (x >>= f) m) := by
  rw [result_bind]
  match hr : result x m with
  | (.ok a, m') =>
    rw [hr] at hx
    obtain ⟨c', hc', h⟩ := hx
    exact (hf a m' c' h).lead hc' (by omega)
  | (.error .exhausted, m') | (.error .returned, m') | (.error .trapped, m') =>
    rw [hr] at hx
    exact hx

/-- The run may take steps after it has followed. -/
lemma Follows.further {post₂ : α → Store W → Config W → Prop} {r : Except Stop α × Store W}
    (h : Follows l env turns c post r)
    (hpost : ∀ a m' c', post a m' c' → ∃ c'', Leads l env 0 c' c'' ∧ post₂ a m' c'') :
    Follows l env turns c post₂ r := by
  match r with
  | (.ok a, m) =>
    obtain ⟨c', hc', h⟩ := h
    obtain ⟨c'', hc'', h⟩ := hpost a m c' h
    exact ⟨c'', hc'.trans hc'', h⟩
  | (.error .exhausted, m) | (.error .returned, m) | (.error .trapped, m) => exact h

lemma Follows.mono {post₂ : α → Store W → Config W → Prop} {r : Except Stop α × Store W}
    (h : Follows l env turns c post r)
    (hpost : ∀ a m' c', post a m' c' → post₂ a m' c') : Follows l env turns c post₂ r :=
  h.further fun a m' c' hc' => ⟨c', .refl l env c', hpost a m' c' hc'⟩

end

end Structured

namespace Lowering

open Structured

variable {W : Type}

/-! ### Code in a listing -/

/-- Lowering goes on from `s` to a state with the listing `l`. -/
def Within (l : Listing) (s : Lowering) : Prop := ∃ t, Kept s t ∧ t.Sound ∧ t.listing = l

section

variable {l : Listing} {s s' : Lowering}

lemma Within.back (h : Within l s') (hs : Kept s s') : Within l s := by
  obtain ⟨t, ht, hsound, hl⟩ := h
  exact ⟨t, hs.trans ht, hsound, hl⟩

lemma Within.instr? (h : Within l s) {i : InstrId} (hi : i < s.listing.arena.size) :
    l.instr? i = s.listing.instr? i := by
  obtain ⟨t, ht, -, rfl⟩ := h
  exact ht.instr i hi

lemma Within.size (h : Within l s) : s.listing.arena.size ≤ l.arena.size := by
  obtain ⟨t, ht, -, rfl⟩ := h
  exact ht.grows.arena

lemma Within.named (h : Within l s) : s.listing.named <+: l.named := by
  obtain ⟨t, ht, -, rfl⟩ := h
  exact ht.named

lemma Within.named_eq (h : Within l s) {x : Nat} {v : VarId}
    (hx : s.listing.named[x]? = some v) : l.named[x]? = some v := by
  obtain ⟨rest, hrest⟩ := h.named
  rw [← hrest, List.getElem?_append_left (List.getElem?_eq_some_iff.1 hx).1, hx]

lemma Within.stream (h : Within l s) : l.stream = List.range l.arena.size := by
  obtain ⟨t, -, hsound, rfl⟩ := h
  exact hsound.stream

/-- A variable that is not named now is not named later. -/
lemma Within.not_mem_named (h : Within l s) {v : VarId} (hv : v < s.listing.vars.size)
    (hn : v ∉ s.listing.named) : v ∉ l.named := by
  obtain ⟨t, ht, -, rfl⟩ := h
  rw [Listing.mem_named, ht.vars v hv, ← Listing.mem_named]
  exact hn

lemma Within.label_name (h : Within l s) {label : LabelId} {info : Label}
    (hinfo : s.listing.labels.get? label = some info) :
    ∃ info', l.labels.get? label = some info' ∧ info'.name = info.name := by
  obtain ⟨t, ht, -, rfl⟩ := h
  exact ht.names hinfo

/-- The stream holds instructions in the order of their numbers. -/
lemma Within.instrAt? (h : Within l s) {i : InstrId} (hi : i < s.listing.arena.size) :
    instrAt? l i = s.listing.instr? i := by
  rw [Machine.instrAt?, h.stream, List.getElem?_range (Nat.lt_of_lt_of_le hi h.size)]
  exact h.instr? hi

/-- A step at an instruction that was emitted in the state `s`. -/
lemma Emitted.step {action : Action} (he : Emitted s action s') (hw : Within l s')
    (env : Environment W) {c : Config W} (hpc : c.pc = s.listing.arena.size)
    (hrun : c.running = true) :
    ∃ c', Leads l env 1 c c' ∧
      c'.pc = nextPc l c.pc (perform l env c.data action).transfer ∧
      c'.running = (perform l env c.data action).transfer.continues ∧
      c'.data = (perform l env c.data action).data ∧
      c'.trace = c.trace ++ (perform l env c.data action).seen.filter Observation.visible := by
  obtain ⟨x, hx, rfl⟩ := he.instr
  have hinstr : Machine.instrAt? l c.pc = some x := by
    rw [hpc, hw.instrAt? (by rw [he.size]; exact Nat.lt_succ_self _), hx]
  refine ⟨Machine.step l env c, .step l env c, ?_⟩
  rw [step_eq env hrun hinstr]
  refine ⟨rfl, rfl, rfl, ?_⟩
  have hleaving : (leaving l c.pc x (perform l env c.data x.action)).filter
      Observation.visible = [] := by
    unfold leaving
    split <;> simp [Observation.visible]
  simp only [Config.trace, List.filter_append, hleaving, List.append_nil]

/-- A step after which control goes on at a label. -/
lemma Emitted.goto {action : Action} {label : LabelId} (he : Emitted s action s')
    (hw : Within l s') (env : Environment W) {c : Config W} (hpc : c.pc = s.listing.arena.size)
    (hrun : c.running = true) (hgoto : (perform l env c.data action).transfer = .goto label) :
    ∃ c', Leads l env 1 c c' ∧ c'.pc = position l label ∧ c'.running = true ∧
      c'.data = (perform l env c.data action).data ∧
      c'.trace = c.trace ++ (perform l env c.data action).seen.filter Observation.visible := by
  obtain ⟨c', hc', hpc', hrun', hdata, htrace⟩ := he.step hw env hpc hrun
  rw [hgoto] at hpc' hrun'
  exact ⟨c', hc', hpc', hrun', hdata, htrace⟩

/-- A step after which control goes on with the next instruction. -/
lemma Emitted.fall {action : Action} (he : Emitted s action s') (hw : Within l s')
    (env : Environment W) {c : Config W} (hpc : c.pc = s.listing.arena.size)
    (hrun : c.running = true) (hfall : (perform l env c.data action).transfer = .fall) :
    ∃ c', Leads l env 1 c c' ∧ c'.pc = s'.listing.arena.size ∧ c'.running = true ∧
      c'.data = (perform l env c.data action).data ∧
      c'.trace = c.trace ++ (perform l env c.data action).seen.filter Observation.visible := by
  obtain ⟨c', hc', hpc', hrun', hdata, htrace⟩ := he.step hw env hpc hrun
  rw [hfall] at hpc' hrun'
  exact ⟨c', hc', by rw [hpc', he.size, hpc]; rfl, hrun', hdata, htrace⟩

end

end Lowering

end ThreeAddress
