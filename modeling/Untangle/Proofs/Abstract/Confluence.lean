/-
  Untangle.Proofs.Abstract.Confluence

  Whether what the fixed-point solver finds depends on the order in which it takes the
  successors of a block. Entry stacks that one run ends with fit together, so another run
  cannot fall below them (`Floor.under`), as long as no join gives up on its own account: a
  join of two stacks of unknown depth knows nothing, even if it is the same stack twice, and a
  block that is visited too often is given up whatever comes in. Where two runs end with
  stacks of known depth, or knowing nothing, and keep to the limit, each is above the other,
  and they find the same.
-/
import Untangle.Proofs.Abstract.Course
import Untangle.Proofs.Graph.Build
import Mathlib.Logic.Relation

namespace Untangle

open AbstractStack

/-! ## Facts that agree -/

/-- Two values that agree: a constant that is known on one side is known on the other, up to
    equality. -/
def AbstractValue.Agrees (a b : AbstractValue) : Prop := a.Under b ∧ b.Under a

/-- Two facts that agree about an instruction: the depth of the stack in front of it is the
    same, and the values agree. -/
structure Fact.Agrees (x y : Fact) : Prop where
  uid : x.uid = y.uid
  depth : x.depth = y.depth
  value : Option.Rel AbstractValue.Agrees x.value y.value

/-- Facts that agree have the same integer. -/
theorem Fact.Agrees.integer {x y : Fact} (h : x.Agrees y) :
    x.value.bind AbstractValue.integer? = y.value.bind AbstractValue.integer? := by
  obtain ⟨-, -, hvalue⟩ := h
  generalize x.value = a at hvalue ⊢
  generalize y.value = b at hvalue ⊢
  cases hvalue with
  | none => rfl
  | some hagrees =>
    refine Option.ext fun n => ?_
    show AbstractValue.integer? _ = some n ↔ AbstractValue.integer? _ = some n
    rw [integer?_eq_some, integer?_eq_some]
    exact ⟨hagrees.1.within n, hagrees.2.within n⟩

namespace AbstractStack

/-- Two stacks each of which is under the other have the same depth. -/
theorem depth?_eq {s t : AbstractStack} (h : Under s t) (h' : Under t s) : s.depth? = t.depth? := by
  unfold depth?
  cases hs : s.depthKnown with
  | true =>
    obtain ⟨ht, hlength⟩ := h.depth hs
    rw [ht, hlength]
  | false =>
    cases ht : t.depthKnown with
    | true => cases hs.symm.trans (h'.depth ht).1
    | false => rfl

/-- From stacks each of which is under the other an instruction has facts that agree. -/
theorem fact_agrees (m : Machine) {s t : AbstractStack} (h : Under s t) (h' : Under t s)
    (before : List Instruction) (ins : Instruction) :
    Fact.Agrees
      ⟨ins.uid, (step m ins (transfer m before s)).2, (transfer m before s).depth?⟩
      ⟨ins.uid, (step m ins (transfer m before t)).2, (transfer m before t).depth?⟩ := by
  have hR := under_congruent m
  have hbefore := hR.transfer before h
  have hbefore' := hR.transfer before h'
  refine ⟨rfl, depth?_eq hbefore hbefore', ?_⟩
  have hfacts := (hR.step ins hbefore).2
  have hfacts' := (hR.step ins hbefore').2
  dsimp only
  generalize (step m ins (transfer m before s)).2 = a at hfacts hfacts' ⊢
  generalize (step m ins (transfer m before t)).2 = b at hfacts hfacts' ⊢
  cases hfacts with
  | none => exact .none
  | some hunder =>
    cases hfacts' with
    | some hunder' => exact .some ⟨hunder, hunder'⟩

/-- Whether the depth of a stack is known, or nothing of it is. -/
def isDefinite (s : AbstractStack) : Bool := s.depthKnown || s.values.isEmpty

/-- What is known of a definite stack is known of a join if it is known of both sides. -/
theorem Under.join_of_isDefinite {r s t : AbstractStack} (hr : r.isDefinite = true)
    (hs : Under r s) (ht : Under r t) : Under r (s.join t) := by
  rcases Weakens.join AbstractValue.under_joins hs ht with hjoin | ⟨hgives, hdepth⟩
  · exact hjoin
  · have hunknown : r = unknown := by
      obtain ⟨values, depthKnown⟩ := r
      cases hdepth
      cases values with
      | nil => rfl
      | cons v values => cases hr
    rw [hunknown]
    exact unknown_under _

end AbstractStack

/-! ## One run over the stacks of another -/

namespace Solver

variable {m : Machine} {g : Graph}

/-- Entry stacks that a run of the solver cannot fall below, at labels to which nothing leads
    from other labels. -/
structure Floor (m : Machine) (g : Graph) (A : Int → Prop) (E : Int → Option AbstractStack) : Prop
    extends Solution m g E where
  back : ∀ b ∈ g.blocks, ∀ l ∈ b.succs, A l → A b.label
  definite : ∀ l, A l → ∀ t, E l = some t → t.isDefinite = true

/-- A run has kept to the limit so far. -/
def WithinLimit (A : Int → Prop) (s : Solver) : Prop := ∀ l, A l → s.load l ≤ visitLimit

/-- A run has not fallen below entry stacks, if it has kept to the limit. -/
def Above (A : Int → Prop) (E : Int → Option AbstractStack) (s : Solver) : Prop :=
  WithinLimit A s → ∀ l, A l → ∀ e, s.entries.lookup l = some e →
    ∃ t, E l = some t ∧ Under t e

/-- What holds besides while the edges of a block are followed that was entered with a stack. -/
def AboveMid (A : Int → Prop) (E : Int → Option AbstractStack) (b : Block) (e : AbstractStack)
    (s : Solver) : Prop :=
  WithinLimit A s → A b.label → ∃ t, E b.label = some t ∧ Under t e

theorem WithinLimit.of_flow {A : Int → Prop} {roots : List (Int × AbstractStack)}
    {out : AbstractStack} {s : Solver} {l : Int} (h : WithinLimit A (s.flow roots out l)) :
    WithinLimit A s := by
  intro l' hl'
  have hload := h l' hl'
  rcases flow_cases roots out s l with ⟨hstays, -⟩ | ⟨-, new, henters, -⟩
  · rwa [hstays] at hload
  · rw [henters] at hload
    exact Nat.le_trans (load_le_enter s l l' new) hload

theorem WithinLimit.of_popped {A : Int → Prop} {s : Solver} {b : Block} {rest : List Int}
    (hready : Ready m g s b rest) (h : WithinLimit A (s.popped b rest)) : WithinLimit A s :=
  fun l hl => load_popped hready.consistent.queue_nodup hready.queue l ▸ h l hl

/-- Following an edge does not make a run fall below entry stacks. -/
theorem Above.flow {A : Int → Prop} {E : Int → Option AbstractStack} (hfloor : Floor m g A E)
    {s : Solver} {b : Block} {e : AbstractStack} {l : Int} (hb : b ∈ g.blocks) (hl : l ∈ b.succs)
    (hmid : AboveMid A E b e s) (h : Above A E s) :
    Above A E (s.flow g.rootStacks (transfer m b.code e) l) := by
  intro hlimit l' hl' e' he'
  have hbefore := hlimit.of_flow
  rcases flow_cases g.rootStacks (transfer m b.code e) s l with
    ⟨hstays, -⟩ | ⟨hinner, new, henters, harrives⟩
  · rw [hstays] at he'
    exact h hbefore l' hl' e' he'
  · rw [henters] at he'
    by_cases hne : l' = l
    · subst hne
      rw [enter_entry_self] at he'
      obtain rfl := Option.some.inj he'
      obtain ⟨t, ht, hunder⟩ := hmid hbefore (hfloor.back b hb l' hl hl')
      obtain ⟨t', ht', hflow⟩ := hfloor.flow b hb t ht l' hl hinner
      have hout := hflow.trans ((under_congruent m).transfer b.code hunder)
      refine ⟨t', ht', ?_⟩
      -- The limit is kept, so the new stack is what came in or a join.
      have hfew : s.visits l' < visitLimit := by
        have hload := hlimit l' hl'
        rw [henters, load_enter_self] at hload
        omega
      cases hold : s.entries.lookup l' with
      | none =>
        rw [harrives.first hold hfew]
        exact hout
      | some old =>
        rw [harrives.joined old hold hfew]
        obtain ⟨t'', ht'', hunder'⟩ := h hbefore l' hl' old hold
        obtain rfl := Option.some.inj (ht'.symm.trans ht'')
        exact Under.join_of_isDefinite (hfloor.definite l' hl' t' ht') hunder' hout
    · rw [enter_entry_of_ne s new hne] at he'
      exact h hbefore l' hl' e' he'

/-- A run that keeps to the limit ends above entry stacks that it cannot fall below. -/
theorem Floor.under {A : Int → Prop} {E : Int → Option AbstractStack} (hfloor : Floor m g A E)
    (hformed : g.Formed) (hlinked : g.Linked) {schedule : Schedule}
    (hstop : (solve m g schedule).stop = none)
    (hfew : ∀ l, A l → (solve m g schedule).visits l ≤ visitLimit) {l : Int} (hl : A l)
    {e : AbstractStack} (he : (solve m g schedule).entries.lookup l = some e) :
    ∃ t, E l = some t ∧ Under t e := by
  have hkept : Kept m g (Above A E) fun b e s => AboveMid A E b e s ∧ Above A E s := by
    have hpopped (s : Solver) (b : Block) (rest : List Int) (hready : Ready m g s b rest)
        (h : Above A E s) : Above A E (s.popped b rest) :=
      fun hlimit => h (hlimit.of_popped hready)
    refine ⟨hpopped, fun s b rest hready h => ⟨fun hlimit hb => ?_, ?_⟩,
      fun s b e l hb hl h => ⟨fun hlimit => h.1 hlimit.of_flow, h.2.flow hfloor hb hl h.1⟩,
      fun s b e h => h.2⟩
    · exact h (WithinLimit.of_popped hready hlimit) b.label hb _ hready.entry
    · exact hpopped s b rest hready h
  refine hkept.solve (hformed.wired hlinked) (fun _ l _ e he => ?_) hstop (fun l hl => ?_) l hl e
    he
  · obtain ⟨hroot, -⟩ := Graph.mem_rootStacks (mem_of_lookup he)
    obtain ⟨b, hb, rfl⟩ := List.mem_map.mp (hformed.roots_subset hroot)
    exact ⟨e, hfloor.root b hb e he, Under.refl e⟩
  · rw [load_solve (hformed.wired hlinked)]
    exact hfew l hl

/-- A run treats a label as it should: it visits the block within the limit, and ends entering
    it with a known depth or knowing nothing. -/
structure Tame (m : Machine) (g : Graph) (schedule : Schedule) (l : Int) : Prop where
  few : (solve m g schedule).visits l ≤ visitLimit
  definite : ∀ e, (solve m g schedule).entries.lookup l = some e → e.isDefinite = true

/-- The entry stacks that one run ends with are such that other runs cannot fall below them. -/
theorem floor {A : Int → Prop} (hback : ∀ b ∈ g.blocks, ∀ l ∈ b.succs, A l → A b.label)
    (hformed : g.Formed) (hlinked : g.Linked) {schedule : Schedule}
    (hstop : (solve m g schedule).stop = none)
    (htame : ∀ l, A l → Tame m g schedule l) :
    Floor m g A fun l => (solve m g schedule).entries.lookup l where
  toSolution := solution (hformed.wired hlinked) hstop
  back := hback
  definite l hl := (htame l hl).definite

/-- Two runs that treat all labels as they should that lead to a block enter it alike. -/
theorem stackOf_under {σ τ : Schedule} (hσ : (solve m g σ).stop = none)
    (hτ : (solve m g τ).stop = none) (hformed : g.Formed) (hlinked : g.Linked) {l : Int}
    (htame : ∀ k, Relation.ReflTransGen g.Leads k l → Tame m g σ k ∧ Tame m g τ k) :
    Under ((solve m g σ).stackOf l) ((solve m g τ).stackOf l) := by
  have hback : ∀ b ∈ g.blocks, ∀ k ∈ b.succs, Relation.ReflTransGen g.Leads k l →
      Relation.ReflTransGen g.Leads b.label l := fun b hb k hk hchain =>
    hchain.head ((hlinked.succs b hb k).mp hk)
  have hfloor := floor hback hformed hlinked hσ fun k hk => (htame k hk).1
  unfold stackOf
  cases he : (solve m g τ).entries.lookup l with
  | some e =>
    obtain ⟨t, ht, hunder⟩ := hfloor.under hformed hlinked hτ (fun k hk => (htame k hk).2.few)
      .refl he
    rw [show (solve m g σ).entries.lookup l = some t from ht]
    exact hunder
  | none =>
    -- What one run does not come to, the other does not come to either.
    have hfloor' := floor hback hformed hlinked hτ fun k hk => (htame k hk).2
    cases ht : (solve m g σ).entries.lookup l with
    | none => exact Under.refl _
    | some t =>
      obtain ⟨e, he', -⟩ := hfloor'.under hformed hlinked hσ (fun k hk => (htame k hk).1.few)
        .refl ht
      cases he.symm.trans he'

/-- The order of successors does not matter to what is found about a block, if both orders
    treat as they should the block and those that lead to it. Over any graph that is built of a
    method, one order ends with facts if another one does, and the two agree about every
    instruction of such a block: on the depth of the stack in front of it, on whether there is
    a value, and up to equality on the constant that it is. -/
theorem solve_any_order {body : Method} {terminators : List Value}
    (hbuild : Graph.build body terminators = .ok g) (hnodup : (body.code.map (·.uid)).Nodup)
    {w : Width} (hw : m.width = .whole w) {σ : Schedule} {f : Facts}
    (hf : (course m g σ).outcome m = .ok f) (τ : Schedule) :
    ∃ f', (course m g τ).outcome m = .ok f' ∧ ∀ b ∈ g.blocks,
      (∀ l, Relation.ReflTransGen g.Leads l b.label → Tame m g σ l ∧ Tame m g τ l) →
        ∀ ins ∈ b.code, ∃ x y, f.find? ins.uid = some x ∧ f'.find? ins.uid = some y
          ∧ x.Agrees y := by
  obtain ⟨hformed, hlinked⟩ := Graph.build_formed hbuild hnodup
  have hblocks (schedule : Schedule) :
      ((solve m g schedule).arrivals g).map (·.1) = g.blocks := by
    unfold arrivals
    rw [List.map_map]
    exact List.map_id _
  have hruns : g.Runs m := Graph.runs_of_outcome hw (hblocks σ) hf
  obtain rfl := (Course.outcome_eq_ok.mp hf).2.2
  have hstop (schedule : Schedule) : (solve m g schedule).stop = none :=
    hruns.stop hformed hlinked schedule
  refine ⟨_, hruns.outcome hformed hlinked τ, fun b hb htame ins hins => ?_⟩
  obtain ⟨before, rest, hsplit⟩ := List.append_of_mem hins
  have hfact (schedule : Schedule) :=
    Arrival.find?_facts (hblocks schedule) hformed.uids_nodup (m := m)
      (List.mem_map_of_mem hb) hsplit
  refine ⟨_, _, hfact σ, hfact τ, fact_agrees m ?_ ?_ before ins⟩
  · exact stackOf_under (hstop σ) (hstop τ) hformed hlinked htame
  · exact stackOf_under (hstop τ) (hstop σ) hformed hlinked fun l hl => (htame l hl).symm

/-- A short run that ends with definite stacks only treats all labels as it should. -/
theorem tame_of_all {schedule : Schedule}
    (hfew : (solve m g schedule).history.length ≤ visitLimit)
    (hdefinite : ∀ e ∈ (solve m g schedule).entries, e.2.isDefinite = true) (l : Int) :
    Tame m g schedule l where
  few := Nat.le_trans List.countP_le_length hfew
  definite _ he := hdefinite _ (mem_of_lookup he)

end Solver

/-- The successors in the opposite order. -/
def Schedule.reversed : Schedule where
  order _ succs := succs.reverse
  full _ _ _ := List.mem_reverse

namespace Method

/-- Two ways to a store, on both of which the same constant is put on the stack. -/
def agreedConstant : Method where
  code :=
    [{ opcode := some .loadLocal, operand := .value (.str "c"), uid := 0 },
     { opcode := some .condBranch, operand := .value (.int 4), uid := 1,
       mnemonic := .str "brtrue" },
     { opcode := some .pushConst, operand := .value (.int 7), uid := 2 },
     { opcode := some .branch, operand := .value (.int 5), uid := 3 },
     { opcode := some .pushConst, operand := .value (.int 7), uid := 4 },
     { opcode := some .storeLocal, operand := .value (.str "z"), uid := 5 },
     { opcode := some .other, uid := 6, mnemonic := .str "ret" }]

/-- Both orders find the constant. -/
theorem agreedConstant_any_order :
    ∃ g f f', Graph.build agreedConstant Graph.usualTerminators = .ok g
      ∧ (Solver.course {} g .plain).outcome {} = .ok f ∧ f.knownInt? 5 = some 7
      ∧ (Solver.course {} g .reversed).outcome {} = .ok f' ∧ f'.knownInt? 5 = some 7 := by
  have hrun : (Graph.build agreedConstant Graph.usualTerminators).toOption.any (fun g =>
      decide ((Solver.solve {} g .plain).history.length ≤ Solver.visitLimit)
        && (Solver.solve {} g .plain).entries.all (·.2.isDefinite)
        && decide ((Solver.solve {} g .reversed).history.length ≤ Solver.visitLimit)
        && (Solver.solve {} g .reversed).entries.all (·.2.isDefinite)
        && g.blocks.any (fun b => b.code.any fun ins => ins.uid == 5)
        && ((Solver.course {} g .plain).outcome {}).toOption.any fun f =>
          f.knownInt? 5 == some 7) = true := by
    decide +kernel
  obtain ⟨g, hbuild, hall⟩ := exists_ok_of_any hrun
  simp only [Bool.and_eq_true, decide_eq_true_eq, List.all_eq_true, List.any_eq_true,
    beq_iff_eq] at hall
  obtain ⟨⟨⟨⟨⟨hfew, hplain⟩, hfew'⟩, hreversed⟩, b, hb, ins, hins, huid⟩, hfacts⟩ := hall
  obtain ⟨f, hf, hn⟩ := exists_ok_of_any hfacts
  rw [beq_iff_eq] at hn
  obtain ⟨f', hf', hagrees⟩ := Solver.solve_any_order hbuild (by decide)
    (show ({} : Machine).width = .whole .four from rfl) hf .reversed
  obtain ⟨x, y, hx, hy, hxy⟩ := hagrees b hb
    (fun l _ => ⟨Solver.tame_of_all hfew hplain l, Solver.tame_of_all hfew' hreversed l⟩) ins hins
  refine ⟨g, f, f', hbuild, hf, hn, hf', ?_⟩
  rw [← huid] at hn ⊢
  rw [Facts.knownInt?, hx] at hn
  rw [Facts.knownInt?, hy]
  exact hxy.integer ▸ hn

/-- Two ways to a block, with a call of which nothing is known on each, and one way longer than
    the other; in front some instructions that do nothing. -/
def twoCalls : Method where
  code :=
    [{ opcode := some .nop, uid := 0 },
     { opcode := some .nop, uid := 1 },
     { opcode := some .nop, uid := 2 },
     { opcode := some .nop, uid := 3 },
     { opcode := some .nop, uid := 4 },
     { opcode := some .loadLocal, operand := .value (.str "c"), uid := 5 },
     { opcode := some .condBranch, operand := .value (.int 10), uid := 6,
       mnemonic := .str "brtrue" },
     { opcode := some .other, operand := .value (.str "X"), uid := 7, mnemonic := .str "call" },
     { opcode := some .pushConst, operand := .value (.int 1), uid := 8 },
     { opcode := some .branch, operand := .value (.int 13), uid := 9 },
     { opcode := some .other, operand := .value (.str "X"), uid := 10, mnemonic := .str "call" },
     { opcode := some .branch, operand := .value (.int 12), uid := 11 },
     { opcode := some .pushConst, operand := .value (.int 2), uid := 12 },
     { opcode := some .pushConst, operand := .value (.int 5), uid := 13 },
     { opcode := some .branch, operand := .value (.int 15), uid := 14 },
     { opcode := some .storeLocal, operand := .value (.str "z"), uid := 15 },
     { opcode := some .other, uid := 16, mnemonic := .str "ret" }]

/-- In one order the block where the ways meet is visited once, and what it leaves is known
    behind it; in the other one it is visited twice, and that is given up. -/
theorem twoCalls_order_matters : ∃ g, Graph.build twoCalls Graph.usualTerminators = .ok g
    ∧ (∃ f, (Solver.course {} g .plain).outcome {} = .ok f ∧ f.knownInt? 15 = some 5)
    ∧ ∃ f, (Solver.course {} g .reversed).outcome {} = .ok f ∧ f.knownInt? 15 = none := by
  have hrun : (Graph.build twoCalls Graph.usualTerminators).toOption.any (fun g =>
      ((Solver.course {} g .plain).outcome {}).toOption.any (fun f => f.knownInt? 15 == some 5)
        && ((Solver.course {} g .reversed).outcome {}).toOption.any fun f =>
          f.knownInt? 15 == none) = true := by
    decide +kernel
  obtain ⟨g, hbuild, hall⟩ := exists_ok_of_any hrun
  obtain ⟨hplain, hreversed⟩ := Bool.and_eq_true _ _ ▸ hall
  obtain ⟨f, hf, hn⟩ := exists_ok_of_any hplain
  obtain ⟨f', hf', hn'⟩ := exists_ok_of_any hreversed
  exact ⟨g, hbuild, ⟨f, hf, eq_of_beq hn⟩, f', hf', eq_of_beq hn'⟩

end Method

end Untangle
