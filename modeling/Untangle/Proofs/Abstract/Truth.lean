/-
  Untangle.Proofs.Abstract.Truth

  Facts are true of the stack machine with nothing known of the world. A solution of the flow
  of stacks describes the stack at every spot that a walk comes to (`Solution.describes`), so
  an integer that is known of an instruction is the one that the instruction produces or
  consumes there. Both analyses end with a solution.
-/
import Untangle.Proofs.Abstract.Analysis
import Untangle.Proofs.Graph.Build
import Untangle.Proofs.Graph.Current

namespace Untangle

open AbstractStack

variable {m : Machine} {g : Graph}

/-! ## Spots -/

namespace Spot

/-- The abstract stack at a spot: that in front of the block, after the code on the way. -/
def found? (m : Machine) (stackAt? : Int → Option AbstractStack) (σ : Spot) :
    Option AbstractStack :=
  (stackAt? σ.block.label).map (transfer m (σ.block.code.take σ.place))

variable {stackAt? : Int → Option AbstractStack}

/-- In front of a block. -/
theorem found?_zero (b : Block) (stack : List Value) :
    found? m stackAt? ⟨b, 0, stack⟩ = stackAt? b.label :=
  Option.map_id' ..

/-- Behind a block. -/
theorem found?_length (b : Block) (stack : List Value) :
    found? m stackAt? ⟨b, b.code.length, stack⟩ = (stackAt? b.label).map (transfer m b.code) := by
  rw [found?, List.take_length]

/-- Behind an instruction. -/
theorem found?_succ {b : Block} {place : Nat} {ins : Instruction}
    (hfront : b.code[place]? = some ins) {stack : List Value} {s : AbstractStack}
    (hs : found? m stackAt? ⟨b, place, stack⟩ = some s) (stack' : List Value) :
    found? m stackAt? ⟨b, place + 1, stack'⟩ = some (AbstractStack.step m ins s).1 := by
  obtain ⟨e, he, rfl⟩ := Option.map_eq_some_iff.mp hs
  unfold found?
  rw [he, Option.map_some, List.take_add_one, hfront]
  exact congrArg some List.foldl_append

end Spot

namespace Solution

variable {stackAt? : Int → Option AbstractStack} {σ : Spot}

/-- Where control comes in, the abstract stack is that of the root. -/
theorem found?_root (h : Solution m g stackAt?) {b : Block} (hb : b ∈ g.blocks)
    {r : AbstractStack} (hr : g.rootStacks.lookup b.label = some r) (stack : List Value) :
    Spot.found? m stackAt? ⟨b, 0, stack⟩ = some r :=
  (Spot.found?_zero b stack).trans (h.root b hb r hr)

/-- Behind an edge to a block that is no root, no more is known than in front of it. -/
theorem found?_along (h : Solution m g stackAt?) {b c : Block} (hb : b ∈ g.blocks)
    (hedge : c.label ∈ b.succs) (hinner : g.rootStacks.lookup c.label = none)
    {stack : List Value} {s : AbstractStack}
    (hs : Spot.found? m stackAt? ⟨b, b.code.length, stack⟩ = some s) :
    ∃ s', Spot.found? m stackAt? ⟨c, 0, stack⟩ = some s' ∧ Under s' s := by
  rw [Spot.found?_length] at hs
  obtain ⟨e, he, rfl⟩ := Option.map_eq_some_iff.mp hs
  rw [Spot.found?_zero]
  exact h.flow b hb e he c.label hedge hinner

/-- A walk comes in at a root. -/
theorem exists_root {σ : Spot} (h : σ.Starts g) :
    σ.place = 0 ∧ ∃ r, g.rootStacks.lookup σ.block.label = some r := by
  cases h with
  | entry hb =>
    refine ⟨rfl, Graph.rootStacks_isSome (List.mem_append_left _ (Option.mem_toList.mpr ?_))⟩
    exact congrArg (Option.map (·.label)) hb
  | handler hspan _ hfirst =>
    refine ⟨rfl, Graph.rootStacks_isSome (List.mem_append_right _ ?_)⟩
    exact List.mem_filterMap.mpr ⟨_, hspan, hfirst⟩

/-- Nothing is known where control comes in. -/
theorem describes_root {l : Int} {r : AbstractStack} (hr : g.rootStacks.lookup l = some r)
    (stack : List Value) : r.Describes stack :=
  describes_of_forall (Graph.mem_rootStacks (mem_of_lookup hr)).2 stack

/-- One step of a walk keeps the description. -/
theorem describes_next (h : Solution m g stackAt?) {σ τ : Spot} (hσ : σ.block ∈ g.blocks)
    (hnext : σ.Next m g τ) {s : AbstractStack} (hs : σ.found? m stackAt? = some s)
    (hdescribes : s.Describes σ.stack) :
    ∃ t, τ.found? m stackAt? = some t ∧ t.Describes τ.stack := by
  cases hnext with
  | within hfront hmay => exact ⟨_, Spot.found?_succ hfront hs _, (hdescribes.may hmay).1⟩
  | @along b c stack hc hedge =>
    -- Nothing is known on the stack of a root, whatever comes in there along the edges.
    cases hroot : g.rootStacks.lookup c.label with
    | some r => exact ⟨r, h.found?_root hc hroot stack, describes_root hroot stack⟩
    | none =>
      obtain ⟨t, ht, hunder⟩ := h.found?_along hσ hedge hroot hs
      have hwithin : Within t s := fun i => (hunder.values i).within
      exact ⟨t, ht, hwithin.describes hdescribes⟩

/-- Wherever a walk comes, the abstract stack describes the real one. -/
theorem describes (h : Solution m g stackAt?) (hσ : σ.Comes m g) :
    ∃ s, σ.found? m stackAt? = some s ∧ s.Describes σ.stack := by
  obtain ⟨σ₀, hstarts, hwalk⟩ := hσ
  induction hwalk with
  | refl =>
    obtain ⟨hplace, r, hr⟩ := exists_root hstarts
    obtain ⟨b, place, stack⟩ := σ₀
    obtain rfl : place = 0 := hplace
    exact ⟨r, h.found?_root hstarts.mem hr stack, describes_root hr stack⟩
  | tail hbefore hnext ih =>
    obtain ⟨s, hs, hdescribes⟩ := ih
    exact h.describes_next (Spot.Comes.mem ⟨σ₀, hstarts, hbefore⟩) hnext hs hdescribes

/-- What is found about the instruction in front of which a spot is. -/
theorem find?_front (hnodup : (g.code.map (·.uid)).Nodup) (hσ : σ.block ∈ g.blocks)
    {ins : Instruction} (hins : σ.front? = some ins) {s : AbstractStack}
    (hs : σ.found? m stackAt? = some s) :
    (Arrival.facts m (arrivalsOf g stackAt?)).find? ins.uid
      = some ⟨ins.uid, (AbstractStack.step m ins s).2, s.depth?⟩ := by
  have hblocks : (arrivalsOf g stackAt?).map (·.1) = g.blocks := by
    unfold arrivalsOf
    rw [List.map_map]
    exact List.map_id _
  obtain ⟨e, he, rfl⟩ := Option.map_eq_some_iff.mp hs
  have hfind := Arrival.find?_facts hblocks hnodup (m := m)
    (List.mem_map_of_mem (f := fun b => (b, (stackAt? b.label).getD .unknown)) hσ)
    (Spot.split_of_front hins)
  rwa [he] at hfind

/-- Wherever a walk comes, a known integer is the one that the instruction there produces or
    consumes. -/
theorem tells (h : Solution m g stackAt?) (hnodup : (g.code.map (·.uid)).Nodup)
    (hσ : σ.Comes m g) {ins : Instruction} (hins : σ.front? = some ins) {stack : List Value}
    {v : Option Value} (hmay : ins.May m σ.stack stack v) {n : Int}
    (hn : (Arrival.facts m (arrivalsOf g stackAt?)).knownInt? ins.uid = some n) :
    v = some (.int n) := by
  obtain ⟨s, hs, hdescribes⟩ := h.describes hσ
  rw [Facts.knownInt?, find?_front hnodup hσ.mem hins hs] at hn
  exact (hdescribes.may hmay).2 n hn

end Solution

/-! ## The two analyses -/

namespace Forward

/-- The facts of the single pass are true. Over any graph whose edges are up to date, and in
    every walk that comes in at the entry or at the start of a handler: where an integer was
    found of an instruction, it is what the instruction produces, or consumes if it is a store
    or a dispatch. -/
theorem facts_true (hg : g.Current) {f : Facts}
    (hf : (Analysis.findings { kind := .forward, machine := m } g).facts = .ok f) {σ : Spot}
    (hσ : σ.Comes m g) {ins : Instruction} (hins : σ.front? = some ins) {stack : List Value}
    {v : Option Value} (hmay : ins.May m σ.stack stack v) {n : Int}
    (hn : f.knownInt? ins.uid = some n) : v = some (.int n) := by
  obtain rfl := Analysis.findings_eq_ok hf
  change (Arrival.facts m (arrivals m g)).knownInt? ins.uid = some n at hn
  rw [arrivals_eq hg.labels_nodup] at hn
  exact (solution hg.wired).tells hg.uids_nodup hσ hins hmay hn

end Forward

namespace Method

/-- A constant that is carried over an edge and doubled there. -/
def doubled : Method where
  code :=
    [{ opcode := some .pushConst, operand := .value (.int 20), uid := 0 },
     { opcode := some .branch, operand := .value (.int 2), uid := 1 },
     { opcode := some .dup, uid := 2 },
     { opcode := some .arith, operand := .operation .add, uid := 3 },
     { opcode := some .storeLocal, operand := .value (.str "z"), uid := 4 },
     { opcode := some .other, uid := 5, mnemonic := .str "ret" }]

/-- Its two blocks. -/
def doubledGraph : Graph where
  blocks :=
    [{ label := 0, code := doubled.code.take 2, succs := [2], isEntry := true },
     { label := 2, code := doubled.code.drop 2, preds := [0] }]
  terminators := Graph.usualTerminators
  fresh := 6

theorem build_doubled : Graph.build doubled Graph.usualTerminators = .ok doubledGraph := rfl

/-- The walk to the store. -/
theorem doubled_comes :
    (Spot.mk doubledGraph.blocks[1] 2 [.int 40]).Comes {} doubledGraph := by
  refine ⟨⟨doubledGraph.blocks[0], 0, []⟩, .entry rfl, ?_⟩
  refine .head (.within rfl (.constant _ rfl)) ?_
  refine .head (.within rfl (.stay _ (Or.inr rfl))) ?_
  refine .head (.along (c := doubledGraph.blocks[1]) (List.getElem_mem _) (by decide)) ?_
  refine .head (.within rfl (.dup (.int 20) [] rfl)) ?_
  refine .single (.within rfl (.arith [.int 20, .int 20] (.int 40) [] rfl rfl rfl ?_))
  intro n hn
  cases hn
  rfl

/-- The single pass knows what is stored, and nothing else is. -/
theorem doubled_true : ∃ f, (Analysis.findings { kind := .forward } doubledGraph).facts = .ok f
    ∧ ∃ ins, (Spot.mk doubledGraph.blocks[1] 2 [.int 40]).front? = some ins
      ∧ f.knownInt? ins.uid = some 40
      ∧ ∀ stack v, ins.May {} [.int 40] stack v → v = some (.int 40) := by
  have hrun : (Analysis.findings { kind := .forward } doubledGraph).facts.toOption.any (fun f =>
      f.knownInt? 4 == some 40) = true := by
    decide +kernel
  obtain ⟨f, hf, hn⟩ := exists_ok_of_any hrun
  have hcurrent : doubledGraph.Current := by
    obtain ⟨hformed, hlinked⟩ := Graph.build_formed build_doubled (by decide)
    exact hformed.current hlinked
  refine ⟨f, hf, _, rfl, eq_of_beq hn, fun stack v hmay => ?_⟩
  exact Forward.facts_true hcurrent hf doubled_comes rfl hmay (eq_of_beq hn)

end Method

namespace AbstractStack

/-- A stack has every integer that is known, each at its place from the top. -/
def Matches (s : AbstractStack) (stack : List Value) : Prop :=
  ∀ i n, s.valueAt i = .known (.int n) → stack[i]? = some (.int n)

theorem Within.matches {s t : AbstractStack} (h : Within s t) {stack : List Value}
    (ht : t.Matches stack) : s.Matches stack :=
  fun i n hn => ht i n (h i n hn)

end AbstractStack

namespace Solver

/-- If nothing has ended the solver, every block that has been visited has a stack after it. -/
theorem exists_exit (hwired : g.Wired) {schedule : Schedule}
    (hstop : (solve m g schedule).stop = none) {b : Block} (hb : b ∈ g.blocks)
    (hvisited : 0 < (solve m g schedule).visits b.label) :
    ∃ out, (solve m g schedule).exits.lookup b.label = some out := by
  obtain ⟨hc, hbounded, hempty⟩ := solve_spec (m := m) hwired schedule
  -- A visit leaves a stack in front of the block, and the block does not wait for another one.
  obtain ⟨a, ha, hlabel⟩ := List.countP_pos_iff.mp hvisited
  have hsome := (hbounded.visited a ha).2
  rw [eq_of_beq hlabel] at hsome
  obtain ⟨e, he⟩ := Option.isSome_iff_exists.mp hsome
  obtain ⟨out, hout, -⟩ :=
    hc.settled hstop b hb (by rw [hempty]; exact List.not_mem_nil) e he
  exact ⟨out, hout⟩

/-- What is known in front of a block that is no root is known behind every block that leads
    to it. -/
theorem within_exit (hwired : g.Wired) {schedule : Schedule} {b : Block} (hb : b ∈ g.blocks)
    {out : AbstractStack} (hout : (solve m g schedule).exits.lookup b.label = some out) {l : Int}
    (hl : l ∈ b.succs) (hinner : l ∉ g.roots) :
    ∃ t, (solve m g schedule).entries.lookup l = some t ∧ Within t out := by
  -- What is known behind a block has been carried to its successors, roots apart.
  rcases exit_covers hwired hb hout hl with hroot | ⟨t, ht, hunder⟩
  · obtain ⟨r, hr⟩ := Option.isSome_iff_exists.mp hroot
    exact absurd (Graph.mem_rootStacks (mem_of_lookup hr)).1 hinner
  · exact ⟨t, ht, fun i => (hunder.values i).within⟩

/-- The facts of the fixed-point solver are true. Over any graph whose edges are up to date,
    and whatever the order of successors, the solver ends with an empty queue. Whatever real
    stack is matched by the stack that it keeps behind a block is matched in front of the blocks
    that the block leads to, roots apart. If no fault has ended the solver there is such a stack
    behind every block that has been visited, and a fault that has ended it is what the analysis
    ends with. If the analysis ends with facts, then in every walk that comes in at the entry or at
    the start of a handler, an integer that was found of an instruction is what the instruction
    produces, or consumes if it is a store or a dispatch. -/
theorem solve_true (hg : g.Current) (schedule : Schedule) :
    (solve m g schedule).queue = []
      ∧ (∀ b ∈ g.blocks, ∀ out, (solve m g schedule).exits.lookup b.label = some out →
        ∀ l ∈ b.succs, l ∉ g.roots → ∃ t, (solve m g schedule).entries.lookup l = some t
          ∧ ∀ stack, out.Matches stack → t.Matches stack)
      ∧ ((solve m g schedule).stop = none →
        ∀ b ∈ g.blocks, 0 < (solve m g schedule).visits b.label →
          ∃ out, (solve m g schedule).exits.lookup b.label = some out)
      ∧ (∀ fault, (solve m g schedule).stop = some fault →
        (course m g schedule).outcome m = .error fault)
      ∧ ∀ f, (course m g schedule).outcome m = .ok f → ∀ σ : Spot, σ.Comes m g →
        ∀ ins, σ.front? = some ins → ∀ stack v, ins.May m σ.stack stack v →
          ∀ n, f.knownInt? ins.uid = some n → v = some (.int n) := by
  refine ⟨(solve_spec hg.wired schedule).2.2, ?_,
    fun hstop b hb hvisited => exists_exit hg.wired hstop hb hvisited,
    fun fault hstop => outcome_of_stop hg.labels_nodup hstop, ?_⟩
  · intro b hb out hout l hl hinner
    obtain ⟨t, ht, hwithin⟩ := within_exit hg.wired hb hout hl hinner
    exact ⟨t, ht, fun stack hstack => hwithin.matches hstack⟩
  · intro f hf σ hσ ins hins stack v hmay n hn
    obtain ⟨hstop, -, rfl⟩ := Course.outcome_eq_ok.mp hf
    exact (solution hg.wired hstop).tells hg.uids_nodup hσ hins hmay hn

end Solver

namespace Method

/-- A constant that stays on the stack through a loop. -/
def heldConstant : Method where
  code :=
    [{ opcode := some .pushConst, operand := .value (.int 20), uid := 0 },
     { opcode := some .loadLocal, operand := .value (.str "c"), uid := 1 },
     { opcode := some .condBranch, operand := .value (.int 1), uid := 2,
       mnemonic := .str "brtrue" },
     { opcode := some .storeLocal, operand := .value (.str "z"), uid := 3 },
     { opcode := some .other, uid := 4, mnemonic := .str "ret" }]

/-- Its three blocks. -/
def heldGraph : Graph where
  blocks :=
    [{ label := 0, code := heldConstant.code.take 1, succs := [1], isEntry := true },
     { label := 1, code := (heldConstant.code.drop 1).take 2, preds := [0, 1], succs := [1, 3] },
     { label := 3, code := heldConstant.code.drop 3, preds := [1] }]
  terminators := Graph.usualTerminators
  fresh := 5

theorem build_heldConstant :
    Graph.build heldConstant Graph.usualTerminators = .ok heldGraph := rfl

/-- A walk that goes round the loop once. -/
theorem heldConstant_comes :
    (Spot.mk heldGraph.blocks[2] 0 [.int 20]).Comes {} heldGraph := by
  refine ⟨⟨heldGraph.blocks[0], 0, []⟩, .entry rfl, ?_⟩
  refine .head (.within rfl (.constant _ rfl)) ?_
  refine .head (.along (c := heldGraph.blocks[1]) (List.getElem_mem _) (by decide)) ?_
  refine .head (.within rfl (.load (.int 1) _ rfl)) ?_
  refine .head (.within rfl (.test [.int 1] _ rfl rfl)) ?_
  refine .head (.along (c := heldGraph.blocks[1]) (List.getElem_mem _) (by decide)) ?_
  refine .head (.within rfl (.load (.int 0) _ rfl)) ?_
  refine .head (.within rfl (.test [.int 0] _ rfl rfl)) ?_
  exact .single (.along (List.getElem_mem _) (by decide))

/-- The solver knows what is stored behind the loop, and nothing else is. -/
theorem heldConstant_true : ∃ f, (Solver.course {} heldGraph .plain).outcome {} = .ok f
    ∧ (Solver.solve {} heldGraph .plain).queue = []
    ∧ (∃ out t, (Solver.solve {} heldGraph .plain).exits.lookup 1 = some out
      ∧ (Solver.solve {} heldGraph .plain).entries.lookup 3 = some t
      ∧ ∀ stack, out.Matches stack → t.Matches stack)
    ∧ ∃ ins, (Spot.mk heldGraph.blocks[2] 0 [.int 20]).front? = some ins
      ∧ f.knownInt? ins.uid = some 20
      ∧ ∀ stack v, ins.May {} [.int 20] stack v → v = some (.int 20) := by
  have hrun : ((Solver.course {} heldGraph .plain).outcome {}).toOption.any (fun f =>
      f.knownInt? 3 == some 20) = true := by
    decide +kernel
  have hvisited : 0 < (Solver.solve {} heldGraph .plain).visits 1 := by decide +kernel
  obtain ⟨f, hf, hn⟩ := exists_ok_of_any hrun
  have hcurrent : heldGraph.Current := by
    obtain ⟨hformed, hlinked⟩ := Graph.build_formed build_heldConstant (by decide)
    exact hformed.current hlinked
  have hstop : (Solver.solve {} heldGraph .plain).stop = none := (Course.outcome_eq_ok.mp hf).1
  obtain ⟨hqueue, hclosed, hexits, -, htrue⟩ := Solver.solve_true (m := {}) hcurrent .plain
  have hmem : heldGraph.blocks[1] ∈ heldGraph.blocks := List.getElem_mem _
  obtain ⟨out, hout⟩ := hexits hstop heldGraph.blocks[1] hmem hvisited
  obtain ⟨t, ht, hmatches⟩ := hclosed heldGraph.blocks[1] hmem out hout 3 (by decide) (by decide)
  refine ⟨f, hf, hqueue, ⟨out, t, hout, ht, hmatches⟩, _, rfl, eq_of_beq hn, fun stack v hmay => ?_⟩
  exact htrue f hf _ heldConstant_comes _ rfl stack v hmay 20 (eq_of_beq hn)

end Method

end Untangle
