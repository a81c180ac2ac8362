/-
  Untangle.Proofs.Abstract.Depth

  Depths that were found. Where the depth of an abstract stack is known, an instruction keeps
  it the depth of the real one (`Measures.may`), and so does an edge to a block that is no
  root. Roots are another matter: the stack of a root is set beforehand and stays what it is,
  whatever comes in along the edges. So a walk may come back to the entry, or jump to the
  start of a handler, with a stack of another depth, and what is found from there on is not
  true of it until it leaves the region or comes to a root with the depth that the root has
  (`Level`).
-/
import Untangle.Proofs.Abstract.Truth

namespace Untangle

open AbstractStack

variable {m : Machine} {g : Graph}

/-! ## One instruction -/

namespace AbstractStack

/-- If the depth of a stack is known, it is that of the real one. -/
def Measures (s : AbstractStack) (stack : List Value) : Prop :=
  s.depthKnown = true → s.values.length = stack.length

theorem measures_iff {s : AbstractStack} {stack : List Value} :
    s.Measures stack ↔ ∀ n, s.depth? = some n → stack.length = n := by
  unfold Measures depth?
  cases s.depthKnown <;> simp [eq_comm]

theorem unknown_measures (stack : List Value) : unknown.Measures stack := nofun

theorem Under.measures {s t : AbstractStack} (h : Under s t) {stack : List Value}
    (ht : t.Measures stack) : s.Measures stack := fun hs =>
  (h.depth hs).2.trans (ht (h.depth hs).1)

/-- Behind an exit from a region the stack is empty. -/
theorem step_leave {ins : Instruction} (hop : ins.opcode = some .leave) (s : AbstractStack) :
    (AbstractStack.step m ins s).1 = .empty := by
  unfold AbstractStack.step
  rw [hop]

namespace Measures

variable {s : AbstractStack} {stack : List Value}

theorem push (h : s.Measures stack) (a : AbstractValue) (v : Value) :
    (s.push a).Measures (v :: stack) :=
  fun hs => congrArg (· + 1) (h hs)

theorem pop {v : Value} (h : s.Measures (v :: stack)) : s.pop.2.Measures stack := fun hs => by
  rw [depthKnown_pop, Bool.and_eq_true] at hs
  rw [length_pop, h hs.1, List.length_cons, Nat.add_sub_cancel]

theorem popMany {front : List Value} {n : Nat} (h : s.Measures (front ++ stack))
    (hn : front.length = n) : (s.popMany n).2.Measures stack := by
  induction n generalizing s front with
  | zero =>
    rw [List.length_eq_zero_iff.mp hn] at h
    exact h
  | succ n ih =>
    obtain ⟨v, front, rfl⟩ := List.exists_cons_of_length_eq_add_one hn
    exact ih h.pop (Nat.succ.inj hn)

theorem pushUnknown (h : s.Measures stack) (pushed : List Value) :
    (s.pushUnknown pushed.length).Measures (pushed ++ stack) := fun hs => by
  show (List.replicate pushed.length _ ++ s.values).length = _
  rw [List.length_append, List.length_replicate, List.length_append, h hs]

/-- However an instruction runs, a known depth stays that of the real stack. -/
theorem may {ins : Instruction} {stack' : List Value} {v : Option Value} (h : s.Measures stack)
    (hmay : ins.May m stack stack' v) : (AbstractStack.step m ins s).1.Measures stack' := by
  unfold AbstractStack.step
  cases hmay with
  | constant _ hop => rw [hop]; exact h.push _ _
  | load v _ hop => rw [hop]; exact h.push _ _
  | take v _ hop => rcases hop with hop | hop <;> rw [hop] <;> exact h.pop
  | arith operands v _ hop hoperand harity _ =>
    rw [hop, hoperand]
    exact (h.popMany (List.length_reverse.trans harity)).push _ _
  | dup v _ hop => rw [hop]; exact (h.pop.push _ _).push _ _
  | pop v _ hop => rw [hop]; exact h.pop
  | stay _ hop => rcases hop with hop | hop <;> rw [hop] <;> exact h
  | test _ _ hop harity => rw [hop]; exact h.popMany harity
  | leave _ hop => rw [hop]; exact fun _ => rfl
  | size v _ hop _ => rw [hop]; exact h.push _ _
  | effect _ pushed _ hop heffect hpops hpushes =>
    have heffected := (h.popMany hpops).pushUnknown pushed
    rw [hpushes] at heffected
    rcases hop with hop | hop <;> rw [hop, heffect] <;> exact heffected
  | unknown _ _ _ hop heffect =>
    rcases hop with hop | hop <;> rw [hop, heffect] <;> exact unknown_measures _

end Measures

end AbstractStack

/-! ## Walks that keep to the depths of the roots -/

namespace Spot

/-- A walk comes to a spot, and when it last was at a root, the stack was as deep as that of
    the root, or the walk has left a region since. -/
inductive Level (m : Machine) (g : Graph) : Spot → Prop where
  | root {σ : Spot} {r : AbstractStack} (hcomes : σ.Comes m g) (hplace : σ.place = 0)
      (hr : g.rootStacks.lookup σ.block.label = some r) (hdepth : r.depth? = some σ.stack.length) :
      Level m g σ
  | leave {σ τ : Spot} {ins : Instruction} (hcomes : σ.Comes m g) (hins : σ.front? = some ins)
      (hop : ins.opcode = some .leave) (hnext : σ.Next m g τ) : Level m g τ
  | next {σ τ : Spot} (h : Level m g σ) (hnext : σ.Next m g τ)
      (hinner : τ.place = 0 → g.rootStacks.lookup τ.block.label = none) : Level m g τ

theorem Comes.next {σ τ : Spot} (h : σ.Comes m g) (hnext : σ.Next m g τ) : τ.Comes m g := by
  obtain ⟨σ₀, hstarts, hwalk⟩ := h
  exact ⟨σ₀, hstarts, hwalk.tail hnext⟩

theorem Level.comes {σ : Spot} (h : σ.Level m g) : σ.Comes m g := by
  induction h with
  | root hcomes => exact hcomes
  | leave hcomes _ _ hnext => exact hcomes.next hnext
  | next _ hnext _ ih => exact ih.next hnext

end Spot

namespace Solution

variable {stackAt? : Int → Option AbstractStack} {σ : Spot}

/-- Wherever a walk comes that keeps to the depths of the roots, the known depth is that of
    the real stack. -/
theorem measures (h : Solution m g stackAt?) (hσ : σ.Level m g) :
    ∃ s, σ.found? m stackAt? = some s ∧ s.Measures σ.stack := by
  -- A root has the right depth and an exit empties the stack; every other step comes to no root.
  induction hσ with
  | @root σ r hcomes hplace hr hdepth =>
    obtain ⟨b, place, stack⟩ := σ
    obtain rfl : place = 0 := hplace
    refine ⟨r, h.found?_root hcomes.mem hr stack, measures_iff.mpr fun n hn => ?_⟩
    exact Option.some.inj (hdepth.symm.trans hn)
  | @leave σ τ ins hcomes hins hop hnext =>
    obtain ⟨s, hs, -⟩ := h.describes hcomes
    cases hnext with
    | within hfront hmay =>
      obtain rfl := Option.some.inj (hins.symm.trans hfront)
      refine ⟨_, Spot.found?_succ hfront hs _, ?_⟩
      rw [step_leave hop]
      have hempty := (unknown_measures _).may hmay
      rwa [step_leave hop] at hempty
    | along =>
      -- Behind a block there is no instruction.
      rw [Spot.front?, List.getElem?_eq_none (Nat.le_refl _)] at hins
      cases hins
  | @next σ τ hlevel hnext hinner ih =>
    obtain ⟨s, hs, hmeasures⟩ := ih
    have hσ := hlevel.comes.mem
    cases hnext with
    | within hfront hmay => exact ⟨_, Spot.found?_succ hfront hs _, hmeasures.may hmay⟩
    | along hc hedge =>
      obtain ⟨t, ht, hunder⟩ := h.found?_along hσ hedge (hinner rfl) hs
      exact ⟨t, ht, hunder.measures hmeasures⟩

/-- A depth that was found is that of the real stack. -/
theorem depth_eq (h : Solution m g stackAt?) (hnodup : (g.code.map (·.uid)).Nodup)
    (hσ : σ.Level m g) {ins : Instruction} (hins : σ.front? = some ins) {n : Nat}
    (hn : (Arrival.facts m (arrivalsOf g stackAt?)).depthBefore? ins.uid = some n) :
    σ.stack.length = n := by
  obtain ⟨s, hs, hmeasures⟩ := h.measures hσ
  rw [Facts.depthBefore?, find?_front hnodup hσ.comes.mem hins hs] at hn
  exact measures_iff.mp hmeasures n hn

end Solution

/-! ## The two analyses -/

/-- The courses of the two analyses, of the solver for any order of successors. -/
inductive Course.OfAnalysis (m : Machine) (g : Graph) : Course → Prop where
  | forward : OfAnalysis m g (Analysis.course { kind := .forward, machine := m } g)
  | worklist (schedule : Schedule) : OfAnalysis m g (Solver.course m g schedule)

/-- A course ends with a solution, if nothing ends it before. -/
theorem Course.OfAnalysis.solution {c : Course} (h : c.OfAnalysis m g) (hwired : g.Wired)
    (hstop : c.stop = none) :
    ∃ stackAt?, Solution m g stackAt? ∧ c.arrivals = arrivalsOf g stackAt? := by
  cases h with
  | forward => exact ⟨_, Forward.solution hwired, Forward.arrivals_eq hwired.labels_nodup⟩
  | worklist => exact ⟨_, Solver.solution hwired hstop, rfl⟩

/-- Depths that were found are true of the walks that keep to the depths of the roots. Over
    any graph that is built of a method, and for both analyses: wherever such a walk comes, a
    depth that was found in front of an instruction is the number of values on the stack; and
    in front of an instruction to which such walks come with different depths none was
    found. -/
theorem Course.depth_true {body : Method} {terminators : List Value}
    (hbuild : Graph.build body terminators = .ok g) (hnodup : (body.code.map (·.uid)).Nodup)
    {c : Course} (hc : c.OfAnalysis m g) {f : Facts} (hf : c.outcome m = .ok f) {σ : Spot}
    (hσ : σ.Level m g) {ins : Instruction} (hins : σ.front? = some ins) :
    (∀ n, f.depthBefore? ins.uid = some n → σ.stack.length = n)
      ∧ ∀ τ : Spot, τ.Level m g → τ.front? = some ins → τ.stack.length ≠ σ.stack.length →
        f.depthBefore? ins.uid = none := by
  obtain ⟨hformed, hlinked⟩ := Graph.build_formed hbuild hnodup
  obtain ⟨hstop, -, rfl⟩ := Course.outcome_eq_ok.mp hf
  obtain ⟨stackAt?, hsolution, harrivals⟩ := hc.solution (hformed.wired hlinked) hstop
  rw [harrivals]
  have hdepth (τ : Spot) (hτ : τ.Level m g) (hfront : τ.front? = some ins) (n : Nat)
      (hn : (Arrival.facts m (arrivalsOf g stackAt?)).depthBefore? ins.uid = some n) :
      τ.stack.length = n :=
    hsolution.depth_eq hformed.uids_nodup hτ hfront hn
  -- A depth that was found would be that of both walks.
  refine ⟨hdepth σ hσ hins, fun τ hτ hfront hne => ?_⟩
  refine Option.eq_none_iff_forall_ne_some.mpr fun n hn => hne ?_
  exact (hdepth τ hτ hfront n hn).trans (hdepth σ hσ hins n hn).symm

namespace Method

/-- A loop that leaves a value on the stack each time round. -/
def unbalancedLoop : Method where
  code :=
    [{ opcode := some .nop, uid := 0 },
     { opcode := some .pushConst, operand := .value (.int 7), uid := 1 },
     { opcode := some .loadLocal, operand := .value (.str "c"), uid := 2 },
     { opcode := some .condBranch, operand := .value (.int 1), uid := 3,
       mnemonic := .str "brtrue" },
     { opcode := some .other, uid := 4, mnemonic := .str "ret" }]

/-- Its three blocks. -/
def unbalancedGraph : Graph where
  blocks :=
    [{ label := 0, code := unbalancedLoop.code.take 1, succs := [1], isEntry := true },
     { label := 1, code := (unbalancedLoop.code.drop 1).take 3, preds := [0, 1], succs := [1, 4] },
     { label := 4, code := unbalancedLoop.code.drop 4, preds := [1] }]
  terminators := Graph.usualTerminators
  fresh := 5

theorem build_unbalancedLoop :
    Graph.build unbalancedLoop Graph.usualTerminators = .ok unbalancedGraph := rfl

/-- Walks come to the loop with an empty stack and with a value on it. -/
theorem unbalancedLoop_level :
    (Spot.mk unbalancedGraph.blocks[1] 0 []).Level {} unbalancedGraph
      ∧ (Spot.mk unbalancedGraph.blocks[1] 0 [.int 7]).Level {} unbalancedGraph := by
  have hstart : (Spot.mk unbalancedGraph.blocks[0] 0 []).Level {} unbalancedGraph :=
    .root ⟨_, .entry rfl, .refl⟩ rfl (r := .empty) rfl rfl
  have hfirst : (Spot.mk unbalancedGraph.blocks[1] 0 []).Level {} unbalancedGraph := by
    refine .next (.next hstart (.within rfl (.stay _ (Or.inl rfl))) nofun) ?_ fun _ => rfl
    exact .along (List.getElem_mem _) (by decide)
  refine ⟨hfirst, ?_⟩
  have hpushed := Spot.Level.next hfirst (.within rfl (.constant _ rfl)) nofun
  have hloaded := Spot.Level.next hpushed (.within rfl (.load (.int 1) _ rfl)) nofun
  have htested := Spot.Level.next hloaded (.within rfl (.test [.int 1] _ rfl rfl)) nofun
  exact .next htested (.along (List.getElem_mem _) (by decide)) fun _ => rfl

/-- The depth that is found at the entry is that of the empty stack there, and no depth is found
    in front of the loop. -/
theorem unbalancedLoop_depth : ∃ f, (Solver.course {} unbalancedGraph .plain).outcome {} = .ok f
    ∧ f.depthBefore? 0 = some 0
    ∧ (∀ σ : Spot, σ.Level {} unbalancedGraph → σ.front?.map (·.uid) = some 0 → σ.stack = [])
    ∧ f.depthBefore? 1 = none := by
  have hrun : ((Solver.course {} unbalancedGraph .plain).outcome {}).toOption.any (fun f =>
      f.depthBefore? 0 == some 0) = true := by
    decide +kernel
  obtain ⟨f, hf, hfound⟩ := exists_ok_of_any hrun
  rw [beq_iff_eq] at hfound
  refine ⟨f, hf, hfound, fun σ hσ hfront => ?_, ?_⟩
  · obtain ⟨ins, hins, huid⟩ := Option.map_eq_some_iff.mp hfront
    have hdepth := (Course.depth_true build_unbalancedLoop (by decide) (.worklist .plain) hf hσ
      hins).1 0
    rw [huid] at hdepth
    exact List.eq_nil_of_length_eq_zero (hdepth hfound)
  · obtain ⟨hempty, hpushed⟩ := unbalancedLoop_level
    have hdepth := Course.depth_true build_unbalancedLoop (by decide) (.worklist .plain) hf
      hempty rfl
    exact hdepth.2 _ hpushed rfl (by decide)

/-- A loop back to the entry that leaves a value on the stack each time round. -/
def entryLoop : Method where
  code :=
    [{ opcode := some .pushConst, operand := .value (.int 1), uid := 0 },
     { opcode := some .branch, operand := .value (.int 0), uid := 1 }]

/-- Its block. -/
def entryGraph : Graph where
  blocks := [{ label := 0, code := entryLoop.code, preds := [0], succs := [0], isEntry := true }]
  terminators := Graph.usualTerminators
  fresh := 2

/-- Both analyses find that the stack is empty at the entry, and a walk comes there again with
    a value on the stack. -/
theorem entryLoop_deeper : Graph.build entryLoop Graph.usualTerminators = .ok entryGraph
    ∧ (∀ kind, ∃ f, (Analysis.findings { kind } entryGraph).facts = .ok f
      ∧ f.depthBefore? 0 = some 0)
    ∧ ∃ σ : Spot, σ.Comes {} entryGraph ∧ σ.front?.map (·.uid) = some 0 ∧ σ.stack.length = 1 := by
  refine ⟨rfl, fun kind => ?_, ⟨entryGraph.blocks[0], 0, [.int 1]⟩, ?_, rfl, rfl⟩
  · have hrun : (Analysis.findings { kind } entryGraph).facts.toOption.any (fun f =>
        f.depthBefore? 0 == some 0) = true := by
      cases kind <;> decide +kernel
    obtain ⟨f, hf, hn⟩ := exists_ok_of_any hrun
    exact ⟨f, hf, eq_of_beq hn⟩
  · refine ⟨⟨entryGraph.blocks[0], 0, []⟩, .entry rfl, ?_⟩
    refine .head (.within rfl (.constant _ rfl)) ?_
    refine .head (.within rfl (.stay _ (Or.inr rfl))) ?_
    exact .single (.along (List.getElem_mem _) (by decide))

end Method

end Untangle
