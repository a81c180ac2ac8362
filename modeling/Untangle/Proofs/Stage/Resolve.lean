/-
  Untangle.Proofs.Stage.Resolve

  Resolving dispatches. Where the stack in front of a block is described by what an analysis
  knows of it, a dispatch with a proven selector takes that selector off the stack and goes
  to the chosen target. The branch that takes its place does the same, whether the producer
  of the selector goes away or a discard comes in.
-/
import Untangle.Proofs.Graph.Rewritten
import Untangle.Proofs.Stage.Work
import Untangle.Proofs.Validate
import Untangle.Stage.Resolve

namespace Untangle

/-- What takes the place of an instruction leads where that one did, so its targets can be
    looked up as well. -/
theorem Instruction.Rewritten.checkTargets {fresh : Int} {ins : Instruction}
    {js : List Instruction} (h : ins.Rewritten fresh js) (hcheck : ins.checkTargets = .ok ()) :
    ∀ j ∈ js, j.checkTargets = .ok () := by
  have hbranch (t : Value) (ht : t ∈ ins.aims) :
      (ins.become .branch (.value t)).checkTargets = .ok () := by
    obtain ⟨ts, hts, hkeys⟩ := checkTargets_eq_ok.mp hcheck
    rw [aims_eq hts] at ht
    obtain ⟨ts', hts', hall⟩ := Edit.become_targets ins t
    exact checkTargets_eq_ok.mpr ⟨ts', hts', fun t' ht' => hall t' ht' ▸ hkeys t ht⟩
  cases h with
  | kept => exact List.forall_mem_singleton.mpr hcheck
  | dropped h => exact List.forall_mem_nil _
  | constant v h => exact List.forall_mem_singleton.mpr rfl
  | branch t h ht => exact List.forall_mem_singleton.mpr (hbranch t ht)
  | discard t u h ht hu =>
    exact List.forall_mem_cons.mpr ⟨rfl, List.forall_mem_singleton.mpr (hbranch t ht)⟩

/-- Targets can still be looked up when instructions are rewritten in place. -/
theorem Graph.edited_checkTargets {g : Graph} (h : g.Numbered) {edits : Block → List Edit}
    (hwithin : ∀ b ∈ g.blocks, ∀ e ∈ edits b, e.Within b)
    (hgentle : ∀ b ∈ g.blocks, ∀ ins ∈ b.code, Edit.Gentle (edits b) ins)
    (hcheck : ∀ ins ∈ g.code, ins.checkTargets = .ok ()) :
    ∀ j ∈ (g.edited (g.blocks.flatMap edits)).graph.code, j.checkTargets = .ok () := by
  obtain ⟨-, number, hfresh, hblocks⟩ := edited_blocks h hwithin
  intro j hj
  obtain ⟨b', hb', hj⟩ := List.mem_flatMap.mp hj
  obtain ⟨b, hb, -, hcode⟩ := exists_of_forall₂ hblocks hb'
  rw [hcode] at hj
  obtain ⟨ins, hins, hj⟩ := List.mem_flatMap.mp hj
  exact ((hgentle b hb ins hins).rewritten hfresh).checkTargets
    (hcheck ins (List.mem_flatMap.mpr ⟨b, hb, hins⟩)) j hj

/-- The selector of a dispatch is known where the dispatch takes it. Where it is not, it is known
    where it is stored, if it is stored and loaded again directly in front of the dispatch. -/
theorem Block.selector?_eq_some {facts : Facts} {b : Block} {init : List Instruction}
    {switch : Instruction} (hcode : b.code = init ++ [switch]) {k : Int} :
    b.selector? facts = some k ↔ facts.knownInt? switch.uid = some k
      ∨ facts.knownInt? switch.uid = none ∧ ∃ before store load, init = before ++ [store, load]
        ∧ store.opcode = some .storeLocal ∧ load.opcode = some .loadLocal
        ∧ store.operand.toValue.equal load.operand.toValue = true
        ∧ facts.knownInt? store.uid = some k := by
  unfold selector?
  rw [hcode, List.reverse_append, List.reverse_singleton, List.singleton_append]
  dsimp only
  cases hknown : facts.knownInt? switch.uid with
  | some n => simp
  | none =>
    constructor
    · intro h
      split at h
      · rename_i heq
        cases heq
      · rename_i load store before _ hreverse
        split at h
        · rename_i hpair
          simp only [Bool.and_eq_true, beq_iff_eq] at hpair
          refine Or.inr ⟨rfl, before.reverse, store, load, ?_, hpair.1.1, hpair.1.2, hpair.2, h⟩
          rw [← List.reverse_reverse init, hreverse]
          simp
        · cases h
      · cases h
    · rintro (hk | ⟨-, before, store, load, rfl, hstore, hload, hname, hk⟩)
      · cases hk
      · simp [hstore, hload, hname, hk]
namespace Dispatch

/-! ## The edits of a block -/

/-- The edits that resolve the dispatch of a block, if it is chosen where it goes. -/
def editsOf (facts : Facts) (b : Block) : List Edit :=
  match b.last?, ofBlock b facts with
  | some switch, .chosen n t => edits b switch n t
  | _, _ => []

/-- Whether it is chosen where the dispatch of a block goes. -/
def isChosen (facts : Facts) (b : Block) : Bool :=
  match ofBlock b facts with
  | .chosen _ _ => true
  | _ => false

/-- A dispatch whose selector is proven and in range. -/
structure Proven (facts : Facts) (b : Block) (init : List Instruction) (switch : Instruction)
    (n : Nat) (t : Value) : Prop where
  code : b.code = init ++ [switch]
  opcode : switch.opcode = some .switch
  selector : b.selector? facts = some (n : Int)
  target : switch.aims[n]? = some t

theorem ofBlock_eq_chosen {facts : Facts} {b : Block} {n : Nat} {t : Value}
    (h : ofBlock b facts = .chosen n t) : ∃ init switch, Proven facts b init switch n t := by
  unfold ofBlock at h
  split at h
  · cases h
  · rename_i switch hlast
    split at h
    · cases h
    · rename_i hop
      obtain ⟨init, hcode⟩ := List.getLast?_eq_some_iff.mp hlast
      refine ⟨init, switch, hcode, by simpa using hop, ?_, ?_⟩
      · unfold choose at h
        split at h
        · cases h
        · rename_i k hk
          split at h
          · cases h
          · rename_i hneg
            split at h
            · cases h
              rw [hk]
              congr 1
              omega
            · cases h
      · unfold choose at h
        split at h
        · cases h
        · split at h
          · cases h
          · split at h
            · rename_i ht
              cases h
              exact ht
            · cases h

theorem editsOf_within {facts : Facts} {b : Block} : ∀ e ∈ editsOf facts b, e.Within b := by
  intro e he
  unfold editsOf at he
  split at he
  · rename_i switch n t hlast hchosen
    have hswitch : switch ∈ b.code := List.mem_of_getLast? hlast
    rcases List.mem_cons.mp he with rfl | he
    · unfold selectorEdit
      dsimp only
      split
      · rename_i producer hproducer
        split
        · exact Edit.within_ofInstruction
            (List.dropLast_subset _ (List.mem_of_getLast? hproducer)) _ _
        · exact Edit.within_ofInstruction hswitch _ _
      · exact Edit.within_ofInstruction hswitch _ _
    · rw [List.mem_singleton.mp he]
      exact Edit.within_ofInstruction hswitch _ _
  · cases he

theorem Proven.editsOf_eq {facts : Facts} {b : Block} {init : List Instruction}
    {switch : Instruction} {n : Nat} {t : Value} (h : Proven facts b init switch n t)
    (hchosen : ofBlock b facts = .chosen n t) : editsOf facts b = edits b switch n t := by
  unfold editsOf
  rw [Block.last?, h.code, List.getLast?_concat, hchosen]

/-- The edits of a chosen dispatch: the dispatch becomes a branch, and what only pushes the
    selector goes, or a discard comes in. -/
theorem Proven.mem_editsOf {facts : Facts} {b : Block} {init : List Instruction}
    {switch : Instruction} {n : Nat} {t : Value} (h : Proven facts b init switch n t)
    (hchosen : ofBlock b facts = .chosen n t) {e : Edit} (he : e ∈ editsOf facts b) :
    e.uid = .int switch.uid ∧ (e.change = .toBranch t ∨ e.change = .insertBefore .pop)
      ∨ ∃ producer ∈ init, producer.opcode.any pureProducers.contains = true
        ∧ e.uid = .int producer.uid ∧ e.change = .remove := by
  rw [h.editsOf_eq hchosen] at he
  rcases List.mem_cons.mp he with rfl | he
  · unfold selectorEdit
    dsimp only
    split
    · rename_i producer hproducer
      rw [h.code, List.dropLast_concat] at hproducer
      split
      · rename_i hpure
        exact Or.inr ⟨producer, List.mem_of_getLast? hproducer, hpure, rfl, rfl⟩
      · exact Or.inl ⟨rfl, Or.inr rfl⟩
    · exact Or.inl ⟨rfl, Or.inr rfl⟩
  · rw [List.mem_singleton.mp he]
    exact Or.inl ⟨rfl, Or.inl rfl⟩

/-- What only pushes the selector goes. -/
theorem Proven.dropped_code {facts : Facts} {b : Block} {before : List Instruction}
    {producer switch : Instruction} {n : Nat} {t : Value}
    (h : Proven facts b (before ++ [producer]) switch n t)
    (hchosen : ofBlock b facts = .chosen n t) (hnodup : (b.code.map (·.uid)).Nodup)
    (hpure : producer.opcode.any pureProducers.contains = true) (number : Int → Int) :
    b.code.flatMap (Edit.outcome (editsOf facts b) number)
      = before ++ [switch.become .branch (.value t)] := by
  have hselector : selectorEdit b switch
      = Edit.ofInstruction .remove b producer ("selector producer " ++ producer.describe) := by
    unfold selectorEdit
    rw [h.code, List.dropLast_concat, List.getLast?_concat]
    dsimp only
    rw [if_pos hpure]
  rw [h.code, List.map_append, List.map_append, List.nodup_append, List.nodup_append] at hnodup
  obtain ⟨⟨-, -, hapart⟩, -, hlast⟩ := hnodup
  have hproducer : producer.uid ≠ switch.uid :=
    hlast _ (List.mem_append_right _ (List.mem_singleton_self _)) _ (List.mem_singleton_self _)
  rw [h.code, List.flatMap_append, List.flatMap_append, h.editsOf_eq hchosen, edits, hselector,
    Edit.flatMap_self fun ins hins => Edit.outcome_of_not_named (fun e he => ?_) number]
  · rw [List.append_assoc]
    congr 1
    simp [Edit.outcome, Edit.turned, Change.opcode?, Change.target?, Change.constant?,
      Change.removal?, hproducer]
  · have hne : ins.uid ≠ producer.uid :=
      hapart _ (List.mem_map_of_mem hins) _ (List.mem_singleton_self _)
    have hne' : ins.uid ≠ switch.uid :=
      hlast _ (List.mem_append_left _ (List.mem_map_of_mem hins)) _ (List.mem_singleton_self _)
    rcases List.mem_cons.mp he with rfl | he
    · rw [Edit.names_ofInstruction]; simpa using hne.symm
    · rw [List.mem_singleton.mp he, Edit.names_ofInstruction]; simpa using hne'.symm

/-- A discard comes in. -/
theorem Proven.discarded_code {facts : Facts} {b : Block} {init : List Instruction}
    {switch : Instruction} {n : Nat} {t : Value} (h : Proven facts b init switch n t)
    (hchosen : ofBlock b facts = .chosen n t) (hnodup : (b.code.map (·.uid)).Nodup)
    (hselector : selectorEdit b switch
      = Edit.ofInstruction (.insertBefore .pop) b switch "discard selector")
    (number : Int → Int) : b.code.flatMap (Edit.outcome (editsOf facts b) number)
      = init ++ [{ opcode := some .pop, uid := number switch.uid },
          switch.become .branch (.value t)] := by
  rw [h.code, List.map_append, List.nodup_append] at hnodup
  rw [h.code, List.flatMap_append, h.editsOf_eq hchosen, edits, hselector,
    Edit.flatMap_self fun ins hins => Edit.outcome_of_not_named (fun e he => ?_) number]
  · congr 1
    simp [Edit.outcome, Edit.turned, Change.opcode?, Change.target?, Change.constant?,
      Change.removal?]
  · have hne : ins.uid ≠ switch.uid :=
      hnodup.2.2 _ (List.mem_map_of_mem hins) _ (List.mem_singleton_self _)
    rcases List.mem_cons.mp he with rfl | he
    · rw [Edit.names_ofInstruction]; simpa using hne.symm
    · rw [List.mem_singleton.mp he, Edit.names_ofInstruction]; simpa using hne.symm

/-- The code of a block whose dispatch is resolved: the producer of the selector goes, or a
    discard comes in. -/
theorem Proven.resolved_code {facts : Facts} {b : Block} {init : List Instruction}
    {switch : Instruction} {n : Nat} {t : Value} (h : Proven facts b init switch n t)
    (hchosen : ofBlock b facts = .chosen n t) (hnodup : (b.code.map (·.uid)).Nodup)
    (number : Int → Int) :
    (∃ before producer, init = before ++ [producer]
        ∧ producer.opcode.any pureProducers.contains = true
        ∧ b.code.flatMap (Edit.outcome (editsOf facts b) number)
          = before ++ [switch.become .branch (.value t)])
      ∨ b.code.flatMap (Edit.outcome (editsOf facts b) number)
        = init ++ [{ opcode := some .pop, uid := number switch.uid },
            switch.become .branch (.value t)] := by
  have hinit : b.code.dropLast = init := by rw [h.code, List.dropLast_concat]
  rcases List.eq_nil_or_concat init with hnil | ⟨before, producer, hconcat⟩
  · refine Or.inr (h.discarded_code hchosen hnodup ?_ number)
    unfold selectorEdit
    rw [hinit, hnil]
    rfl
  · rw [List.concat_eq_append] at hconcat
    subst hconcat
    by_cases hpure : producer.opcode.any pureProducers.contains = true
    · exact Or.inl ⟨before, producer, rfl, hpure, h.dropped_code hchosen hnodup hpure number⟩
    · refine Or.inr (h.discarded_code hchosen hnodup ?_ number)
      unfold selectorEdit
      rw [hinit, List.getLast?_concat]
      dsimp only
      rw [if_neg hpure]

/-! ## Running a dispatch -/

/-- An instruction that only pushes. -/
theorem act_of_pure (P : Platform) {ins : Instruction}
    (h : ins.opcode.any pureProducers.contains = true) (σ : Moment) :
    ∃ v, ins.act P σ = .next (σ.push v) := by
  unfold Instruction.act Instruction.perform
  rw [Instruction.copy_opcode]
  cases hop : ins.opcode with
  | none => rw [hop] at h; cases h
  | some op =>
    rw [hop] at h
    cases op with
    | pushConst => exact ⟨_, rfl⟩
    | loadLocal => exact ⟨_, rfl⟩
    | sizeOf =>
      dsimp only
      split
      · exact ⟨_, rfl⟩
      · exact ⟨_, rfl⟩
    | _ => cases h

/-- A dispatch on a selector in range goes to its target. -/
theorem act_switch (P : Platform) {switch : Instruction} (hop : switch.opcode = some .switch)
    {n : Nat} {t : Value} (ht : switch.aims[n]? = some t) {σ : Moment} {stack : List Value}
    (hstack : σ.stack = .int n :: stack) :
    switch.act P σ = .jump t { σ with stack } := by
  obtain ⟨values, locals, seen⟩ := σ
  cases hstack
  unfold Instruction.act Instruction.perform
  rw [Instruction.copy_opcode, hop]
  dsimp only [Moment.pop?_cons]
  have hchosen : switch.copy.chosen? (.int n) = some t := by
    unfold Instruction.chosen?
    rw [Instruction.aims_copy_of_switch hop]
    show (if (0 : Int) ≤ n then switch.aims[(n : Int).toNat]? else none) = some t
    rw [if_pos (Int.natCast_nonneg n), Int.toNat_natCast, ht]
  rw [hchosen]

theorem act_switch_nil (P : Platform) {switch : Instruction}
    (hop : switch.opcode = some .switch) {σ : Moment} (hstack : σ.stack = []) :
    switch.act P σ = .halted .underflow σ := by
  obtain ⟨values, locals, seen⟩ := σ
  cases hstack
  unfold Instruction.act Instruction.perform
  rw [Instruction.copy_opcode, hop]
  rfl

/-- A branch to a number goes there. -/
theorem act_become (P : Platform) (ins : Instruction) {t : Value}
    (ht : t.wholeNumber?.isSome) (σ : Moment) :
    (ins.become .branch (.value t)).act P σ = .jump t σ := by
  cases t with
  | bool b => rfl
  | int n => rfl
  | float x => rfl
  | _ => cases ht

/-- A discard takes off the top of the stack. -/
theorem act_pop (P : Platform) (u : Int) {σ : Moment} {v : Value} {stack : List Value}
    (hstack : σ.stack = v :: stack) :
    ({ opcode := some .pop, uid := u } : Instruction).act P σ = .next { σ with stack } := by
  obtain ⟨values, locals, seen⟩ := σ
  cases hstack
  rfl

theorem act_pop_nil (P : Platform) (u : Int) {σ : Moment} (hstack : σ.stack = []) :
    ({ opcode := some .pop, uid := u } : Instruction).act P σ = .halted .underflow σ := by
  obtain ⟨values, locals, seen⟩ := σ
  cases hstack
  rfl

/-- Equal values stay equal when they are fixed. -/
theorem equal_fixed {a b : Value} (h : a.equal b = true) : a.fixed.equal b.fixed = true := by
  cases a with
  | list xs =>
    cases b with
    | list ys =>
      unfold Value.equal at h
      show Value.equal (.tuple xs) (.tuple ys) = true
      unfold Value.equal
      exact h
    | _ => simp [Value.equal, Value.wholeNumber?, Value.asInt?] at h
  | _ =>
    cases b with
    | list ys => simp [Value.equal, Value.wholeNumber?, Value.asInt?] at h
    | _ => exact h

/-- A value that is stored and loaded again is at the top of the stack. -/
theorem stored_and_loaded {P : Platform} {store load : Instruction}
    (hstore : store.opcode = some .storeLocal) (hload : load.opcode = some .loadLocal)
    (hname : store.operand.toValue.equal load.operand.toValue = true) {σ τ : Moment}
    (hrun : Instruction.actAll P [store, load] σ = .next τ) :
    ∃ v stack, σ.stack = v :: stack ∧ τ.stack = v :: stack := by
  obtain ⟨values, locals, seen⟩ := σ
  rw [Instruction.actAll_cons] at hrun
  obtain ⟨ρ, hfirst, hsecond⟩ := Turn.andThen_eq_next hrun
  rw [Instruction.actAll_singleton] at hsecond
  unfold Instruction.act Instruction.perform at hfirst hsecond
  rw [Instruction.copy_opcode, hstore] at hfirst
  rw [Instruction.copy_opcode, hload] at hsecond
  cases values with
  | nil => cases hfirst
  | cons v stack =>
    cases hfirst
    cases hsecond
    refine ⟨v, stack, rfl, ?_⟩
    rw [Moment.push_stack, Instruction.copy_operand_toValue, Instruction.copy_operand_toValue]
    dsimp only
    rw [Locals.write_of_equal _ _ (equal_fixed hname)]

/-- The proven selector is at the top of the stack in front of the dispatch. -/
theorem Proven.top {facts : Facts} {b : Block} {init : List Instruction} {switch : Instruction}
    {n : Nat} {t : Value} (h : Proven facts b init switch n t) {m : Machine} {g : Graph}
    {stackAt? : Int → Option AbstractStack} (hfrom : facts.From m g stackAt?) (hformed : g.Formed)
    (hb : b ∈ g.blocks) {P : Platform} (hP : P.machine = m) {σ τ : Moment}
    (henters : Enters stackAt? b.label σ) (hrun : Instruction.actAll P init σ = .next τ)
    {v : Value} {stack : List Value} (hv : τ.stack = v :: stack) : v = .int n := by
  rcases (Block.selector?_eq_some h.code).mp h.selector with
    hknown | ⟨-, before, store, load, rfl, hstore, hload, hname, hknown⟩
  · exact hfrom.top hformed hb h.code (Or.inr h.opcode) hknown hP henters hrun hv
  · rw [Instruction.actAll_append] at hrun
    obtain ⟨ρ, hfirst, hrest⟩ := Turn.andThen_eq_next hrun
    obtain ⟨w, rest, hw, hτ⟩ := stored_and_loaded hstore hload hname hrest
    rw [hv] at hτ
    cases hτ
    have hcode : b.code = before ++ store :: [load, switch] := by
      rw [h.code]
      simp
    exact hfrom.top hformed hb hcode (Or.inl hstore) hknown hP henters hfirst hw

/-- A resolved dispatch shows what the dispatch shows, where the stack in front of the block
    is described by what is known of it. -/
theorem Proven.shows {facts : Facts} {b : Block} {init : List Instruction} {switch : Instruction}
    {n : Nat} {t : Value} (h : Proven facts b init switch n t)
    (hchosen : ofBlock b facts = .chosen n t) {m : Machine} {g : Graph}
    {stackAt? : Int → Option AbstractStack} (hfrom : facts.From m g stackAt?) (hformed : g.Formed)
    (hb : b ∈ g.blocks) {P : Platform} (hP : P.machine = m) {σ : Moment}
    (henters : Enters stackAt? b.label σ) (number : Int → Int) :
    Instruction.actAll P b.code σ
      = Instruction.actAll P (b.code.flatMap (Edit.outcome (editsOf facts b) number)) σ := by
  have hmem := Graph.mem_outline_of_mem hb
  have hswitch : switch ∈ b.code := h.code ▸ List.mem_append_right _ (List.mem_singleton_self _)
  have hnodup := hformed.block_uids_nodup hb
  have ht : t.wholeNumber?.isSome := by
    obtain ⟨l, -, hl⟩ := hformed.aims (Graph.mem_code_of_mem hmem hswitch)
      (List.mem_of_getElem? h.target)
    rw [hl]
    rfl
  have htop {τ : Moment} (hrun : Instruction.actAll P init σ = .next τ) {v : Value}
      {stack : List Value} (hv : τ.stack = v :: stack) : v = .int n :=
    h.top hfrom hformed hb hP henters hrun hv
  rcases h.resolved_code hchosen hnodup number with ⟨before, producer, hinit, hpure, hcode⟩ | hcode
  · -- The producer of the selector goes.
    rw [hcode, h.code]
    rw [hinit, Instruction.actAll_append] at htop
    rw [hinit, Instruction.actAll_append, Instruction.actAll_append, Instruction.actAll_append,
      Turn.andThen_assoc]
    cases hbefore : Instruction.actAll P before σ with
    | jump t' ρ => rfl
    | halted how ρ => rfl
    | next ρ =>
      obtain ⟨v, hv⟩ := act_of_pure P hpure ρ
      rw [hbefore] at htop
      rw [Turn.andThen_next, Turn.andThen_next, Instruction.actAll_singleton,
        Instruction.actAll_singleton, hv, Turn.andThen_next, Instruction.actAll_singleton,
        act_become P switch ht]
      have hint : v = .int n := by
        refine htop (τ := ρ.push v) ?_ (Moment.push_stack ρ v)
        rw [Turn.andThen_next, Instruction.actAll_singleton, hv]
      exact act_switch P h.opcode h.target (by rw [Moment.push_stack, hint])
  · -- A discard comes in.
    rw [hcode, h.code, Instruction.actAll_append, Instruction.actAll_append]
    cases hrun : Instruction.actAll P init σ with
    | jump t' ρ => rfl
    | halted how ρ => rfl
    | next ρ =>
      rw [Turn.andThen_next, Turn.andThen_next, Instruction.actAll_singleton,
        Instruction.actAll_cons]
      cases hstack : ρ.stack with
      | nil =>
        rw [act_switch_nil P h.opcode hstack, act_pop_nil P _ hstack]
        rfl
      | cons v stack =>
        rw [htop hrun hstack] at hstack
        rw [act_switch P h.opcode h.target hstack, act_pop P _ hstack, Turn.andThen_next,
          Instruction.actAll_singleton]
        exact (act_become P switch ht _).symm

/-! ## Resolving all dispatches -/

theorem isChosen_iff {facts : Facts} {b : Block} :
    isChosen facts b = true ↔ ∃ n t, ofBlock b facts = .chosen n t := by
  unfold isChosen
  constructor
  · intro h
    split at h
    · rename_i n t hchosen
      exact ⟨n, t, hchosen⟩
    · cases h
  · rintro ⟨n, t, hchosen⟩
    rw [hchosen]

theorem editsOf_eq_nil {facts : Facts} {b : Block} :
    editsOf facts b = [] ↔ isChosen facts b = false := by
  unfold editsOf isChosen
  constructor
  · intro h
    split at h
    · cases h
    · rename_i hnone
      split
      · rename_i n t hchosen
        obtain ⟨init, switch, hproven⟩ := ofBlock_eq_chosen hchosen
        refine absurd hchosen (hnone switch n t ?_)
        rw [Block.last?, hproven.code, List.getLast?_concat]
      · rfl
  · intro h
    split at h
    · cases h
    · rename_i hnone
      split
      · rename_i n t hlast hchosen
        exact absurd hchosen (hnone n t)
      · rfl

/-- A block whose dispatch is not chosen stays as it is. -/
theorem code_of_not_chosen {facts : Facts} {b : Block} (h : isChosen facts b = false)
    (number : Int → Int) : b.code.flatMap (Edit.outcome (editsOf facts b) number) = b.code := by
  rw [editsOf_eq_nil.mpr h]
  exact Edit.flatMap_self fun ins _ =>
    Edit.outcome_of_not_named (fun e he => absurd he List.not_mem_nil) number

/-- The edits that resolve a dispatch leave its graph well-formed. -/
theorem editsOf_mild {facts : Facts} {g : Graph} (h : g.Formed) {b : Block} (hb : b ∈ g.blocks)
    {ins : Instruction} (hins : ins ∈ b.code) : Edit.Mild (editsOf facts b) ins := by
  cases hchosen : isChosen facts b with
  | false =>
    rw [editsOf_eq_nil.mpr hchosen]
    exact ⟨(fun _ ht => by cases ht), (fun _ hv => by cases hv), fun _ hop => by cases hop⟩
  | true =>
    obtain ⟨n, t, hof⟩ := isChosen_iff.mp hchosen
    obtain ⟨init, switch, hproven⟩ := ofBlock_eq_chosen hof
    have hswitch : switch ∈ b.code := by rw [hproven.code]; simp
    constructor
    · intro t' ht'
      obtain ⟨e, he, hnames, hpick⟩ := Edit.exists_of_asked ht'
      rcases hproven.mem_editsOf hof he with ⟨huid, hbranch | hpop⟩ | ⟨-, -, -, -, hremove⟩
      · rw [hbranch] at hpick
        cases hpick
        rw [Edit.names_eq huid] at hnames
        rw [← List.inj_on_of_nodup_map (h.block_uids_nodup hb) hswitch hins (eq_of_beq hnames),
          hproven.opcode]
        exact ⟨List.mem_of_getElem? hproven.target, by decide⟩
      · rw [hpop] at hpick; cases hpick
      · rw [hremove] at hpick; cases hpick
    all_goals
      intro a ha
      obtain ⟨e, he, -, hpick⟩ := Edit.exists_of_asked ha
      rcases hproven.mem_editsOf hof he with ⟨-, hchange | hchange⟩ | ⟨-, -, -, -, hchange⟩ <;>
        rw [hchange] at hpick <;> cases hpick <;> rfl

/-- Resolving a dispatch drops what pushes its selector, or discards the selector, and turns
    the dispatch into a branch to one of its targets. -/
theorem gentle {facts : Facts} {b : Block} (hnodup : (b.code.map (·.uid)).Nodup)
    {ins : Instruction} (hins : ins ∈ b.code) : Edit.Gentle (editsOf facts b) ins := by
  cases hchosen : isChosen facts b with
  | false =>
    rw [editsOf_eq_nil.mpr hchosen]
    exact ⟨(fun h => by cases h), (fun _ hv => by cases hv), (fun _ ht => by cases ht),
      fun _ hop => by cases hop⟩
  | true =>
    obtain ⟨n, t, hof⟩ := isChosen_iff.mp hchosen
    obtain ⟨init, switch, hproven⟩ := ofBlock_eq_chosen hof
    have hswitch : switch ∈ b.code := by rw [hproven.code]; simp
    have hsame {i : Instruction} (hi : i ∈ b.code) {e : Edit} (huid : e.uid = .int i.uid)
        (hnames : e.names ins.uid = true) : i = ins := by
      rw [Edit.names_eq huid] at hnames
      exact List.inj_on_of_nodup_map hnodup hi hins (eq_of_beq hnames)
    constructor
    · intro hsome
      obtain ⟨u, hasked⟩ := Option.isSome_iff_exists.mp hsome
      obtain ⟨e, he, hnames, hpick⟩ := Edit.exists_of_asked hasked
      rcases hproven.mem_editsOf hof he with ⟨-, hchange | hchange⟩ | ⟨i, hi, hpure, huid, -⟩
      · rw [hchange] at hpick; cases hpick
      · rw [hchange] at hpick; cases hpick
      · rw [← hsame (hproven.code ▸ List.mem_append_left _ hi) huid hnames]
        unfold Instruction.isDroppable
        cases hop : i.opcode with
        | none => rw [hop] at hpure; cases hpure
        | some op =>
          rw [hop] at hpure
          cases op <;> first | rfl | cases hpure
    · intro v hv
      obtain ⟨e, he, -, hpick⟩ := Edit.exists_of_asked hv
      rcases hproven.mem_editsOf hof he with ⟨-, hchange | hchange⟩ | ⟨-, -, -, -, hchange⟩ <;>
        rw [hchange] at hpick <;> cases hpick
    · intro t' ht'
      obtain ⟨e, he, hnames, hpick⟩ := Edit.exists_of_asked ht'
      rcases hproven.mem_editsOf hof he with ⟨huid, hchange | hchange⟩ | ⟨-, -, -, -, hchange⟩
      · rw [hchange] at hpick
        cases hpick
        rw [← hsame hswitch huid hnames]
        exact ⟨hproven.opcode, List.mem_of_getElem? hproven.target⟩
      · rw [hchange] at hpick; cases hpick
      · rw [hchange] at hpick; cases hpick
    · intro op hop
      obtain ⟨e, he, hnames, hpick⟩ := Edit.exists_of_asked hop
      rcases hproven.mem_editsOf hof he with ⟨huid, hchange | hchange⟩ | ⟨-, -, -, -, hchange⟩
      · rw [hchange] at hpick; cases hpick
      · rw [hchange] at hpick
        cases hpick
        refine ⟨rfl, ?_⟩
        rw [← hsame hswitch huid hnames, hproven.editsOf_eq hof, edits, Edit.asked_cons,
          Edit.asked_ofInstruction, if_pos rfl]
        cases (if (selectorEdit b switch).names switch.uid then
          Change.target? (selectorEdit b switch).change else none) <;> rfl
      · rw [hchange] at hpick; cases hpick

/-- The edits that resolve dispatches suit every well-formed graph. -/
theorem suits (facts : Facts) {g : Graph} (h : g.Formed) : Edit.Suits g (editsOf facts) :=
  ⟨fun _ _ => editsOf_within, fun _ hb _ hins => editsOf_mild h hb hins⟩

/-- How many dispatches can be resolved. -/
def chosenCount (facts : Facts) (g : Graph) : Nat := g.blocks.countP (isChosen facts)

/-- The graph with all dispatches resolved whose selector is proven. -/
def resolved (facts : Facts) (g : Graph) : Graph :=
  (g.edited (g.blocks.flatMap (editsOf facts))).graph

variable {facts : Facts} {g : Graph}

theorem resolved_of_count (hcount : chosenCount facts g = 0) : resolved facts g = g := by
  have hnil : g.blocks.flatMap (editsOf facts) = [] :=
    List.flatMap_eq_nil_iff.mpr fun b hb => editsOf_eq_nil.mpr
      (Bool.eq_false_iff.mpr (List.countP_eq_zero.mp hcount b hb))
  rw [resolved, hnil]
  rfl

/-- Block by block, each instruction makes way for what its own edits put in its place. -/
theorem resolved_blocks (facts : Facts) (h : g.Numbered) :
    Graph.Reworked g (resolved facts g) ∧ ∃ number, (∀ v, g.fresh ≤ number v)
      ∧ List.Forall₂ (fun b b' : Block => b'.label = b.label
        ∧ b'.code = b.code.flatMap (Edit.outcome (editsOf facts b) number))
          g.blocks (resolved facts g).blocks :=
  Graph.edited_blocks h fun _ _ => editsOf_within

/-- Targets can still be looked up when dispatches are resolved. -/
theorem resolved_checkTargets (facts : Facts) (h : g.Numbered)
    (hcheck : ∀ ins ∈ g.code, ins.checkTargets = .ok ()) :
    ∀ j ∈ (resolved facts g).code, j.checkTargets = .ok () :=
  Graph.edited_checkTargets h (fun _ _ => editsOf_within)
    (fun _ hb _ hins => gentle (h.block_uids_nodup hb) hins) hcheck

/-- Resolving dispatches changes nothing that a run can show. -/
theorem resolved_kept (h : g.Formed) (hlinked : g.Linked) {P : Platform}
    (hP : P.terminators = g.terminators) {m : Machine} (hmachine : P.machine = m)
    {stackAt? : Int → Option AbstractStack} (hfrom : facts.From m g stackAt?) :
    g.Kept P (resolved facts g) := by
  obtain ⟨number, hchanged⟩ := h.changed hlinked (suits facts h)
  refine hchanged.kept h (suits facts h) (hfrom.1.keeps h hlinked hP hmachine) ?_
    fun l hl σ => hfrom.1.enters_root hl σ
  intro b hb σ henters
  cases hchosen : isChosen facts b with
  | false =>
    rw [code_of_not_chosen hchosen]
    exact .same _
  | true =>
    obtain ⟨n, t, hof⟩ := isChosen_iff.mp hchosen
    obtain ⟨init, switch, hproven⟩ := ofBlock_eq_chosen hof
    rw [← hproven.shows hof hfrom h hb hmachine henters number]
    exact .same _

/-- What comes in front of an instruction comes in front of the dispatch. -/
theorem names_of_front {b : Block} {switch : Instruction} {n : Nat} {t : Value} {e : Edit}
    (he : e ∈ edits b switch n t) {op : Opcode} (hop : Change.opcode? e.change = some op)
    (u : Int) :
    e.names u = (switch.uid == u) := by
  rcases List.mem_cons.mp he with rfl | he
  · unfold selectorEdit at hop ⊢
    dsimp only at hop ⊢
    split at hop
    · split at hop
      · cases hop
      · rename_i hpure
        rw [if_neg hpure]
        exact Edit.names_ofInstruction _ _ _ _ u
    · exact Edit.names_ofInstruction _ _ _ _ u
  · rw [List.mem_singleton.mp he] at hop
    cases hop

/-- At the start of a handler nothing is known of the stack, so a dispatch there is not
    resolved by itself. -/
theorem resolved_headed (h : g.Headed) (hformed : g.Formed) (hlinked : g.Linked) {m : Machine}
    {stackAt? : Int → Option AbstractStack} (hfrom : facts.From m g stackAt?) :
    (resolved facts g).Headed := by
  obtain ⟨number, hchanged⟩ := hformed.changed hlinked (suits facts hformed)
  refine h.changed hformed (suits facts hformed) hchanged fun b hb hroot ins hhead => ?_
  cases hasked : Edit.asked (editsOf facts b) Change.opcode? ins.uid with
  | none => rfl
  | some op =>
    exfalso
    cases hchosen : isChosen facts b with
    | false => rw [editsOf_eq_nil.mpr hchosen] at hasked; cases hasked
    | true =>
      obtain ⟨n, t, hof⟩ := isChosen_iff.mp hchosen
      obtain ⟨init, switch, hproven⟩ := ofBlock_eq_chosen hof
      have hnodup := hformed.block_uids_nodup hb
      cases init with
      | cons first init =>
        -- A discard comes in front of the end of the block, and that is not its start.
        have hlast : b.last? = some switch := by
          rw [Block.last?, hproven.code, List.getLast?_concat]
        obtain ⟨e, he, hnames, hpick⟩ := Edit.exists_of_asked hasked
        unfold editsOf at he
        rw [hlast, hof] at he
        rw [names_of_front he hpick] at hnames
        rw [hproven.code, List.cons_append] at hhead hnodup
        cases hhead
        exact (List.nodup_cons.mp hnodup).1 (List.mem_map.mpr
          ⟨switch, List.mem_append_right _ (List.mem_singleton_self _), eq_of_beq hnames⟩)
      | nil =>
        obtain ⟨s, hs, hunknown⟩ := hfrom.1.root b.label (List.mem_append_right _ hroot)
        have hcode : b.code = [] ++ switch :: [] := hproven.code
        have hknown := hfrom.knownInt?_eq hformed hb hcode (Or.inr hproven.opcode)
        rw [hs, Option.getD_some] at hknown
        have hnone : facts.knownInt? switch.uid = none := by
          rw [hknown, AbstractStack.transfer, List.foldl_nil, AbstractStack.pop_fst, hunknown 0]
          rfl
        rcases (Block.selector?_eq_some hproven.code).mp hproven.selector with
          hsome | ⟨-, before, store, load, hinit, -⟩
        · rw [hnone] at hsome
          cases hsome
        · exact absurd hinit (by simp)

/-- Whether an instruction is a dispatch. -/
def isDispatch (ins : Instruction) : Bool := ins.opcode == some .switch

variable {b : Block}

/-- Resolving a dispatch leaves less of them in its block. -/
theorem countP_outcome (facts : Facts) (hnodup : (b.code.map (·.uid)).Nodup) (number : Int → Int) :
    (b.code.flatMap (Edit.outcome (editsOf facts b) number)).countP isDispatch
        + (if isChosen facts b then 1 else 0)
      = b.code.countP isDispatch := by
  cases hchosen : isChosen facts b with
  | false =>
    rw [code_of_not_chosen hchosen]
    rfl
  | true =>
    obtain ⟨n, t, hof⟩ := isChosen_iff.mp hchosen
    obtain ⟨init, switch, hproven⟩ := ofBlock_eq_chosen hof
    have hswitch : isDispatch switch = true := by
      rw [isDispatch, hproven.opcode]
      rfl
    have hbranch : isDispatch (switch.become .branch (.value t)) = false := rfl
    rcases hproven.resolved_code hof hnodup number with
      ⟨before, producer, hinit, hpure, hnew⟩ | hnew
    · have hproducer : isDispatch producer = false := by
        unfold isDispatch
        cases hop : producer.opcode with
        | none => rfl
        | some op =>
          rw [hop] at hpure
          cases op <;> first | rfl | cases hpure
      rw [hnew, hproven.code, hinit]
      simp [List.countP_append, hswitch, hbranch, hproducer]
    · have hpop : isDispatch { opcode := some .pop, uid := number switch.uid } = false := rfl
      rw [hnew, hproven.code]
      simp [List.countP_append, hswitch, hbranch, hpop]

/-- Each dispatch that is resolved is one less. -/
theorem resolved_fewer (h : g.Formed) (hlinked : g.Linked) :
    (resolved facts g).code.countP isDispatch + chosenCount facts g
      = g.code.countP isDispatch := by
  obtain ⟨number, hchanged⟩ := h.changed hlinked (suits facts h)
  rw [show (resolved facts g).code = _ from hchanged.code, Graph.code, chosenCount]
  have hblocks : ∀ b ∈ g.blocks, (b.code.map (·.uid)).Nodup := fun b hb => h.block_uids_nodup hb
  generalize g.blocks = blocks at hblocks
  induction blocks with
  | nil => rfl
  | cons b blocks ih =>
    have hfirst := countP_outcome facts (hblocks b List.mem_cons_self) number
    have hrest := ih fun c hc => hblocks c (List.mem_cons_of_mem _ hc)
    rw [List.flatMap_cons, List.flatMap_cons, List.countP_append, List.countP_append,
      List.countP_cons]
    omega

end Dispatch

/-! ## The stage -/

namespace Stage

/-- What the walk over the blocks has queued and counted after one more block. -/
def tally (facts : Facts) (done : List Edit × Nat) (b : Block) : List Edit × Nat :=
  (done.1 ++ Dispatch.editsOf facts b, done.2 + if Dispatch.isChosen facts b then 1 else 0)

theorem foldl_tally (facts : Facts) (blocks : List Block) (done : List Edit × Nat) :
    blocks.foldl (tally facts) done
      = (done.1 ++ blocks.flatMap (Dispatch.editsOf facts),
          done.2 + blocks.countP (Dispatch.isChosen facts)) := by
  induction blocks generalizing done with
  | nil => simp
  | cons b blocks ih =>
    rw [List.foldl_cons, ih]
    simp only [tally, List.flatMap_cons, List.append_assoc, List.countP_cons, Nat.add_assoc,
      Nat.add_comm (blocks.countP _)]

/-- In a block that does not end with a dispatch nothing is chosen. -/
theorem isChosen_of_not_switch {facts : Facts} {b : Block}
    (h : ∀ ins, b.last? = some ins → ins.opcode ≠ some .switch) :
    Dispatch.isChosen facts b = false := by
  unfold Dispatch.isChosen Dispatch.ofBlock
  cases hlast : b.last? with
  | none => rfl
  | some ins =>
    dsimp only
    rw [if_pos (by simpa using h ins hlast)]

theorem tally_of_not_chosen {facts : Facts} {b : Block}
    (h : Dispatch.isChosen facts b = false) (done : List Edit × Nat) :
    tally facts done b = done := by
  unfold tally
  rw [Dispatch.editsOf_eq_nil.mpr h, h, List.append_nil]
  rfl

/-- Resolving dispatches succeeds when targets can be looked up and the facts can be had. -/
theorem resolveSwitches_checked {w w₁ : Workbench} {facts : Facts} (h : w.graph.Numbered)
    (hcheck : ∀ ins ∈ w.graph.code, ins.checkTargets = .ok ())
    (hfacts : Work.facts.run w = .ok facts w₁) :
    ∃ w', resolveSwitches.run w = .ok (Dispatch.chosenCount facts w.graph) w'
      ∧ ({ w₁ with graph := Dispatch.resolved facts w.graph } : Workbench).Alike w' := by
  have hgraph : w₁.graph = w.graph := (Work.facts_eq_ok hfacts).1
  refine Work.andThen_of_ok hfacts ?_
  simp only [Work.get_bind, hgraph]
  refine Work.Says.andThen
    (Work.says_forIn (tally facts) (fun b hb done => ?_) ([], 0)) fun w₂ halike => ?_
  · cases hlast : b.last? with
    | none =>
      rw [tally_of_not_chosen (isChosen_of_not_switch fun _ hins => nomatch hlast.symm.trans hins)]
      exact Work.says_pure _
    | some switch =>
      dsimp only
      by_cases hop : switch.opcode = some .switch
      · rw [if_neg (by simpa using hop)]
        have htargets : (switch.targets.map fun _ => ()) = .ok () := by
          rw [Instruction.targets_of_check (hcheck switch
            (List.mem_flatMap.mpr ⟨b, hb, List.mem_of_getLast? hlast⟩))]
          rfl
        refine (Work.says_check htargets).bind ?_
        cases hof : Dispatch.ofBlock b facts with
        | unproven =>
          rw [tally_of_not_chosen (by unfold Dispatch.isChosen; rw [hof])]
          exact Work.says_pure _
        | outOfRange n =>
          rw [tally_of_not_chosen (by unfold Dispatch.isChosen; rw [hof])]
          exact (Work.says_log _ _ _).bind (Work.says_pure _)
        | chosen n t =>
          have htally : tally facts done b
              = (done.1 ++ Dispatch.edits b switch n t, done.2 + 1) := by
            unfold tally Dispatch.editsOf Dispatch.isChosen
            rw [hlast, hof]
            rfl
          rw [htally]
          exact (Work.says_forM fun e _ => Work.says_logQueued e).bind (Work.says_pure _)
      · have hnot : Dispatch.isChosen facts b = false := isChosen_of_not_switch fun ins hins => by
          cases hlast.symm.trans hins
          exact hop
        rw [if_pos (by simpa using hop), tally_of_not_chosen hnot]
        exact Work.says_pure _
  · rw [foldl_tally, List.nil_append, Nat.zero_add]
    change ∃ w', EStateM.run (if 0 < Dispatch.chosenCount facts w.graph then _ else _) w₂ = _ ∧ _
    have hgraph₂ : w₂.graph = w.graph := halike.graph.trans hgraph
    by_cases hcount : Dispatch.chosenCount facts w.graph = 0
    · rw [if_neg (by omega)]
      refine ⟨w₂, rfl, ?_⟩
      rw [Dispatch.resolved_of_count hcount, ← hgraph]
      exact halike
    · rw [if_pos (by omega)]
      obtain ⟨w₃, hedits, halike₃⟩ := Work.applyEdits_within (w := w₂)
        (Dispatch.editsOf facts) (hgraph₂ ▸ h) (fun _ _ => Dispatch.editsOf_within) (by
          rw [hgraph₂]
          exact Graph.checkLasts_of_code (Dispatch.resolved_checkTargets facts h hcheck))
      rw [hgraph₂] at hedits halike₃
      refine Work.andThen_of_ok hedits
        (Work.Says.andThen (Work.says_log _ _ _) fun w₄ halike₄ => ?_)
      exact ⟨w₄, rfl, ((halike.setGraph _).trans halike₃).trans halike₄⟩

/-- Resolving dispatches succeeds on a well-formed graph when the facts can be had. -/
theorem resolveSwitches_run {w w₁ : Workbench} {facts : Facts} (h : w.graph.Formed)
    (hfacts : Work.facts.run w = .ok facts w₁) :
    ∃ w', resolveSwitches.run w = .ok (Dispatch.chosenCount facts w.graph) w'
      ∧ ({ w₁ with graph := Dispatch.resolved facts w.graph } : Workbench).Alike w' :=
  resolveSwitches_checked h.numbered (fun _ hins => h.checkTargets hins) hfacts

end Stage

end Untangle
