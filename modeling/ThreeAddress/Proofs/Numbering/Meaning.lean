import ThreeAddress.Proofs.Lowering.Coherence
import ThreeAddress.Proofs.Numbering.Simulation

/-!
Value numbering preserves the meaning of a listing: whatever is decided, stored, pushed,
called, returned or trapped on stays the same, and so do the variables whenever control
leaves a block.
-/

namespace ThreeAddress

open Machine

/-- The listings that lowering and value numbering make. -/
inductive Listing.Reachable : Listing → Prop
  | lowered {p : Source.Program} {l : Listing} : Listing.ofProgram p = .ok l → Reachable l
  | numbered (t : ValueNumbering.Toggles) {l : Listing} :
    Reachable l → Reachable (ValueNumbering.run t l).1

namespace ValueNumbering

/-- The last blocks of a listing are still to be scanned. -/
structure Remaining (blocks : List Block) (l : Listing) : Prop where
  coherent : l.Coherent
  stream : ∃ done, l.stream = done ++ blocks.flatMap (·.instrs)
  nonempty : ∀ {block}, block ∈ blocks → block.instrs ≠ []
  stamped : ∀ {block i x}, block ∈ blocks → i ∈ block.instrs → l.instr? i = some x →
    x.block = block.id

lemma Remaining.start {l : Listing} (hl : l.Coherent) : Remaining l.blocks l where
  coherent := hl
  stream := ⟨[], hl.flatMap_blocks.symm⟩
  nonempty hb := (hl.mem_blocks hb).1
  stamped hb hi hx := (hl.mem_blocks hb).2 hi hx

lemma Remaining.hasBlock {block : Block} {blocks : List Block} {l : Listing}
    (h : Remaining (block :: blocks) l) :
    ∃ done, l.HasBlock block done (blocks.flatMap (·.instrs)) := by
  obtain ⟨done, hstream⟩ := h.stream
  refine ⟨done, h.coherent, ?_, h.nonempty List.mem_cons_self, fun hi hx => ?_⟩
  · rw [hstream, List.flatMap_cons, List.append_assoc]
  · exact h.stamped List.mem_cons_self hi hx

/-- The scan of a block leaves the blocks behind it as they are. -/
lemma Remaining.step {block : Block} {blocks : List Block} {l : Listing}
    (h : Remaining (block :: blocks) l) (t : Toggles) (events : Log) :
    Remaining blocks (scanBlock t (l, events) block).1 := by
  obtain ⟨done, hb⟩ := h.hasBlock
  refine ⟨scanBlock_coherent hb t events, ?_, fun hm => h.nonempty (List.mem_cons_of_mem _ hm), ?_⟩
  · have hlt : ∀ e ∈ numberedFrom done.length l.arena.size (finished t block l events).pending,
        e.1 < 0 + (done ++ block.instrs).length := by
      intro e he
      obtain ⟨x, c, hx, rfl⟩ := mem_numberedFrom.1 he
      have hlt := ((finished_sound hb t events).pending c (List.mem_of_getElem? hx)).1.origin
      simp only [List.length_append]
      omega
    rw [scanBlock_stream hb, hb.stream, weave_append, weave_of_lt hlt]
    exact ⟨_, rfl⟩
  · intro b i x hm hi hx
    have hpost : i ∈ blocks.flatMap (·.instrs) := List.mem_flatMap.2 ⟨b, hm, hi⟩
    have hmem : i ∈ l.stream := by
      rw [hb.stream]
      exact List.mem_append_right _ hpost
    have hnot : i ∉ block.instrs := by
      have hnodup := h.coherent.nodup
      rw [hb.stream, List.append_assoc] at hnodup
      exact fun hin => (List.nodup_append.1 hnodup.of_append_right).2.2 i hin i hpost rfl
    rw [scanBlock_untouched hb t events (h.coherent.mem_stream.1 hmem) hnot] at hx
    exact h.stamped (List.mem_cons_of_mem _ hm) hi hx

lemma scanNext_eq (t : Toggles) (l : Listing) (events : Log) (changed : Bool) (block : Block) :
    scanNext t (l, events, changed) block =
      ((scanBlock t (l, events) block).1, (scanBlock t (l, events) block).2.1,
        changed || (scanBlock t (l, events) block).2.2) := rfl

/-- What the scan of one block keeps, the scan of all the blocks that remain keeps. -/
lemma Remaining.invariant {P : Listing → Prop} {t : Toggles}
    (hscan : ∀ {l block pre post}, l.HasBlock block pre post → ∀ events, P l →
      P (scanBlock t (l, events) block).1)
    {blocks : List Block} {l : Listing} (h : Remaining blocks l) (events : Log) (changed : Bool)
    (hl : P l) : P (blocks.foldl (scanNext t) (l, events, changed)).1 := by
  induction blocks generalizing l events changed with
  | nil => exact hl
  | cons block blocks ih =>
    obtain ⟨done, hb⟩ := h.hasBlock
    exact ih (h.step t events) _ _ (hscan hb events hl)

/-- The scan of all the blocks that remain. -/
lemma Remaining.scan {blocks : List Block} {l : Listing} (h : Remaining blocks l) (t : Toggles)
    (events : Log) (changed : Bool) :
    (blocks.foldl (scanNext t) (l, events, changed)).1.Coherent ∧
      ∀ {W : Type} (env : Environment W) (entry : Entry) {d d' : Data W},
        d.Agree l.vars.size d' →
        logs (blocks.foldl (scanNext t) (l, events, changed)).1 env l.vars.size entry d' =
          logs l env l.vars.size entry d := by
  induction blocks generalizing l events changed with
  | nil => exact ⟨h.coherent, fun env entry _ _ hd => logs_agree h.coherent env entry hd⟩
  | cons block blocks ih =>
    obtain ⟨done, hb⟩ := h.hasBlock
    obtain ⟨hcoherent, hlogs⟩ := ih (h.step t events) (scanBlock t (l, events) block).2.1
      (changed || (scanBlock t (l, events) block).2.2)
    refine ⟨hcoherent, fun env entry d d' hd => ?_⟩
    have hle := scanBlock_vars_le hb t events
    rw [List.foldl_cons, scanNext_eq, logs_mono hle, hlogs env entry (.refl _ d'), ← logs_mono hle]
    exact scanBlock_logs hb t events env entry hd

end ValueNumbering

open ValueNumbering in
lemma Listing.Reachable.coherent {l : Listing} (h : l.Reachable) : l.Coherent := by
  induction h with
  | lowered hp => exact Listing.ofProgram_coherent hp
  | numbered t _ ih => exact ((Remaining.start ih).scan t [] false).1

open ValueNumbering in
/-- What holds of lowered listings and is kept by the scan of a block holds of all the listings
that lowering and value numbering make. -/
lemma Listing.Reachable.invariant {P : Listing → Prop}
    (hlowered : ∀ {p l}, Listing.ofProgram p = .ok l → P l)
    (hscan : ∀ {l block pre post}, l.HasBlock block pre post → ∀ t events, P l →
      P (scanBlock t (l, events) block).1)
    {l : Listing} (h : l.Reachable) : P l := by
  induction h with
  | lowered hp => exact hlowered hp
  | numbered t hl ih =>
    exact (Remaining.start hl.coherent).invariant (fun hb => hscan hb t) [] false ih

namespace ValueNumbering

/-- **Value numbering preserves meaning.** Nothing tells a run of a listing from one after value
numbering: from the same values of the variables and arrays and with the same answers to calls,
both have the same logs. -/
theorem run_logs {l : Listing} (hl : l.Reachable) (t : Toggles) {W : Type} (env : Environment W)
    (entry : Entry) {d d' : Data W} (hd : d.Agree l.vars.size d') :
    logs (run t l).1 env l.vars.size entry d' = logs l env l.vars.size entry d :=
  ((Remaining.start hl.coherent).scan t [] false).2 env entry hd

/-- `int a; int c; int b = a / c; b = a; int e = a / c;` -/
def twoQuotients : Source.Program :=
  .stmt (.compound [
    .decl .int "a" none,
    .decl .int "c" none,
    .decl .int "b" (some (.binary .div (.var "a") (.var "c"))),
    .expr (.assign (.var "b") (.var "a")),
    .decl .int "e" (some (.binary .div (.var "a") (.var "c")))])

/-- The second quotient is taken from a copy of the first one, made in a new variable. -/
theorem run_logs_twoQuotients : ∃ l, Listing.ofProgram twoQuotients = .ok l ∧
    logs (run .standard l).1 ⟨fun w _ _ arrays => (w, .void, arrays)⟩ l.vars.size .first
        (⟨fun v => if v < 4 then .int 6 else .int 1, fun _ _ => .void, (), [], []⟩ : Data Unit) =
      logs l ⟨fun w _ _ arrays => (w, .void, arrays)⟩ l.vars.size .first
        (⟨fun v => if v < 4 then .int 6 else .void, fun _ _ => .void, (), [], []⟩ : Data Unit) := by
  have hsize : (Listing.ofProgram twoQuotients).toOption.map (·.vars.size) = some 4 := by
    decide +kernel
  obtain ⟨l, hl, hsize⟩ := toOption_map_eq_some.1 hsize
  refine ⟨l, hl, run_logs (.lowered hl) .standard _ .first ⟨fun v hv => ?_, rfl, rfl, rfl, rfl⟩⟩
  have hv : v < 4 := hsize ▸ hv
  simp [hv]

end ValueNumbering

end ThreeAddress
