/-
  Untangle.Proofs.Stage.Foreseen

  The folder and the analyses agree. The folder evaluates an operation over the constants that
  stand directly in front of it in its view, after the folds that it has queued. An analysis
  runs the block as it is, from whatever stack it is entered with. The integers in a row at the
  top of the view are on top of that stack and known there (`Folding.Foreseen`); one more
  instruction keeps this. So what the folder finds is what the analysis has proven of the
  operation, and no fold is ever turned down.
-/
import Untangle.Proofs.Abstract.Analysis
import Untangle.Proofs.Stage.Fold

namespace Untangle

namespace AbstractStack

/-- The values that are taken off the top, from the top down. -/
theorem popMany_fst (n : Nat) (s : AbstractStack) :
    (s.popMany n).1 = ((List.range n).map s.valueAt).reverse := by
  induction n generalizing s with
  | zero => rfl
  | succ n ih =>
    have hbelow : s.pop.2.valueAt = s.valueAt ∘ Nat.succ := funext fun i => valueAt_pop s i
    rw [popMany_succ, ih, hbelow, pop_fst, List.range_succ_eq_map, List.map_cons, List.map_map,
      List.reverse_cons]

end AbstractStack

/-! ## Constants in a row -/

/-- The constants in a row at the top of a view, the last one first. -/
def FoldEntry.row : List FoldEntry → List Value
  | [] => []
  | ⟨_, some c⟩ :: rest => c :: row rest
  | ⟨_, none⟩ :: _ => []

namespace FoldEntry

@[simp] theorem row_constant (ins : Instruction) (c : Value) (rest : List FoldEntry) :
    row (⟨ins, some c⟩ :: rest) = c :: row rest := rfl

/-- Entries that are all constants are in the row, and it goes on below them. -/
theorem row_append {top : List FoldEntry} {cs : List Value}
    (h : top.map (·.constant) = cs.map some) (rest : List FoldEntry) :
    row (top ++ rest) = cs ++ row rest := by
  induction top generalizing cs with
  | nil => simp_all
  | cons entry top ih =>
    obtain ⟨ins, constant⟩ := entry
    obtain ⟨c, cs, rfl, rfl, hrest⟩ := List.map_eq_cons_iff.mp h.symm
    simp [ih hrest.symm]

end FoldEntry

namespace Folding

variable {f : Folding} {s : AbstractStack}

/-- The integers in a row at the top of the view are known on an abstract stack. -/
def Foreseen (f : Folding) (s : AbstractStack) : Prop :=
  ∀ (i : Nat) (n : Int), (FoldEntry.row f.view)[i]? = some (.int n) → s.valueAt i = .known (.int n)

/-- An empty view says nothing. -/
theorem foreseen_start (s : AbstractStack) : Foreseen {} s := nofun

/-- Behind what is no constant no row is left. -/
theorem foreseen_other (ins : Instruction) (events : List FoldEvent) (s : AbstractStack) :
    Foreseen ((f.report events).see ins none) s := nofun

/-- The row goes on with a constant that is on top of the stack. -/
theorem Foreseen.push (h : f.Foreseen s) {ins : Instruction} {f' : Folding} {c : Value}
    {a : AbstractValue} (hview : f'.view = ⟨ins, some c⟩ :: f.view)
    (htop : ∀ n, c = .int n → a = .known (.int n)) : f'.Foreseen (s.push a) := by
  intro i n hi
  rw [hview, FoldEntry.row_constant] at hi
  cases i with
  | zero => exact htop n (by simpa using hi)
  | succ i => exact h i n (by simpa using hi)

/-- What is below the operands stays below what takes their place. -/
theorem Foreseen.drop (h : f.Foreseen s) {f' : Folding} {top : List FoldEntry} {cs : List Value}
    (hview : f.view = top ++ f'.view) (hcs : top.map (·.constant) = cs.map some) :
    f'.Foreseen (s.popMany cs.length).2 := by
  intro i n hi
  rw [AbstractStack.valueAt_popMany]
  apply h
  rw [hview, FoldEntry.row_append hcs, List.getElem?_append_right (by omega)]
  simpa using hi

/-- The operands in view, all integers, are those that are taken off the stack. -/
theorem Foreseen.operands (h : f.Foreseen s) {top rest : List FoldEntry} {cs : List Value}
    (hview : f.view = top ++ rest) (hcs : top.map (·.constant) = cs.map some)
    (hints : ∀ c ∈ cs, ∃ k, c = .int k) :
    (s.popMany cs.length).1 = (cs.map AbstractValue.known).reverse := by
  rw [AbstractStack.popMany_fst]
  congr 1
  apply List.ext_getElem (by simp)
  intro i hi hi'
  have hi : i < cs.length := by simpa using hi
  obtain ⟨k, hk⟩ := hints _ (List.getElem_mem hi)
  have hrow : (FoldEntry.row f.view)[i]? = some (.int k) := by
    rw [hview, FoldEntry.row_append hcs, List.getElem?_append_left hi,
      List.getElem?_eq_getElem hi, hk]
  simp [h i k hrow, hk]

end Folding

/-! ## What the folder finds -/

namespace Folder

variable {folder : Folder} {b : Block} {f : Folding} {ins : Instruction} {op : ArithOp}
  {vs : List Value} {n : Int} {s : AbstractStack}

/-- Constants stand directly in front of an operation in view, and give a result. -/
structure Finds (folder : Folder) (f : Folding) (ins : Instruction) (op : ArithOp)
    (vs : List Value) (n : Int) : Prop where
  opcode : ins.opcode = some .arith
  operand : ins.operand = .operation op
  constants : ((f.view.take op.arity).reverse).mapM (·.constant) = some vs
  enough : op.arity ≤ f.view.length
  result : op.evaluateAt vs folder.machine.width folder.machine.policy = .ok (some n)

theorem Folds.finds (h : folder.Folds f ins op vs n) : folder.Finds f ins op vs n :=
  ⟨h.opcode, h.operand, h.constants, h.enough, h.result⟩

namespace Finds

/-- The operands, from the top down. -/
theorem top_constants (h : folder.Finds f ins op vs n) :
    (f.view.take op.arity).map (·.constant) = vs.reverse.map some := by
  have hmap := Folding.Tracks.mapM_constant h.constants
  rw [List.map_reverse] at hmap ⊢
  rw [← hmap, List.reverse_reverse]

theorem length_eq (h : folder.Finds f ins op vs n) : vs.reverse.length = op.arity := by
  have hlength := congrArg List.length h.top_constants
  simp only [List.length_map, List.length_take, List.length_reverse] at hlength ⊢
  have := h.enough
  omega

/-- The result is what an abstract stack that knows the row makes of the operation. -/
theorem resultOf_eq (h : folder.Finds f ins op vs n) (hf : f.Foreseen s) :
    AbstractStack.resultOf folder.machine op (s.popMany op.arity).1 = .known (.int n) := by
  have hints : ∀ c ∈ vs.reverse, ∃ k, c = .int k := fun c hc =>
    AbstractStack.integers_of_evaluateAt h.result c (List.mem_reverse.mp hc)
  have hoperands := hf.operands (List.take_append_drop op.arity f.view).symm h.top_constants hints
  rw [h.length_eq, List.map_reverse, List.reverse_reverse] at hoperands
  refine AbstractStack.resultOf_eq_known.mpr ⟨vs, n, ?_, h.result, rfl⟩
  rw [hoperands]
  exact List.forall₂_map_left_iff.mpr (List.forall₂_same.mpr fun _ _ => rfl)

/-- What an abstract stack makes of the operation. -/
theorem step_eq (h : folder.Finds f ins op vs n) (m : Machine) (s : AbstractStack) :
    AbstractStack.step m ins s
      = ((s.popMany op.arity).2.push (AbstractStack.resultOf m op (s.popMany op.arity).1),
        some (AbstractStack.resultOf m op (s.popMany op.arity).1)) := by
  simp only [AbstractStack.step, h.opcode, h.operand]
  rfl

/-- If the facts know the result, the operation folds. -/
theorem arithmeticResult_eq (h : folder.Finds f ins op vs n)
    (hproven : folder.facts.knownInt? ins.uid = some n) :
    folder.arithmeticResult f ins op = (some n, [.consult]) := by
  unfold arithmeticResult
  simp [h.constants, Nat.not_lt.mpr h.enough, h.result, hproven]

/-- Below the operands the row stays known, and the result is on top of it. -/
theorem operated (h : folder.Finds f ins op vs n) (hf : f.Foreseen s) :
    (Folder.operated b f ins op n).Foreseen (AbstractStack.step folder.machine ins s).1 := by
  have hbelow : ({ f with view := f.view.drop op.arity } : Folding).Foreseen
      (s.popMany vs.reverse.length).2 :=
    hf.drop (List.take_append_drop op.arity f.view).symm h.top_constants
  rw [h.length_eq] at hbelow
  rw [h.step_eq, h.resultOf_eq hf]
  exact hbelow.push (c := .int n) rfl fun k hk => congrArg _ hk

end Finds

/-- A size in the table is known to the analyses if it is an integer. -/
theorem size?_of_sizeOf? {type : String} {k : Int}
    (hsize : folder.sizeOf? ins = some (type, .int k)) :
    ins.operand.text?.bind folder.machine.size? = some (.int k) := by
  unfold sizeOf? at hsize
  obtain ⟨text, htext, hfound⟩ := Option.bind_eq_some_iff.mp hsize
  obtain ⟨found, hget, heq⟩ := Option.map_eq_some_iff.mp hfound
  cases heq
  simp [htext, Machine.size?, hget]

/-- One more instruction keeps the row known, whatever it is. -/
theorem foreseen_step (folder : Folder) (b : Block) (ins : Instruction) (h : f.Foreseen s) :
    (folder.step b f ins).Foreseen (AbstractStack.step folder.machine ins s).1 := by
  rcases folder.step_cases b f ins with ⟨events, constant, -, hconstant, hstep⟩
    | ⟨type, size, hop, hsize, hstep⟩ | ⟨op, vs, n, hfolds, hstep⟩
  · rw [hstep]
    cases constant with
    | none => exact Folding.foreseen_other ins events _
    | some c =>
      obtain ⟨hop, hoperand⟩ := hconstant c rfl
      simp only [AbstractStack.step, hop, hoperand, Operand.toValue]
      exact h.push rfl fun n hn => congrArg _ hn
  · rw [hstep]
    simp only [AbstractStack.step, hop]
    refine h.push rfl fun k hk => ?_
    rw [size?_of_sizeOf? (hk ▸ hsize)]
  · rw [hstep]
    exact hfolds.finds.operated h

/-- So the row is known after any number of instructions, from whatever stack they start. -/
theorem foreseen_foldl (folder : Folder) (b : Block) (code : List Instruction) (s : AbstractStack) :
    (code.foldl (folder.step b) {}).Foreseen (AbstractStack.transfer folder.machine code s) := by
  induction code using List.reverseRecOn with
  | nil => exact Folding.foreseen_start s
  | append_singleton code ins ih =>
    rw [AbstractStack.transfer, List.foldl_append, List.foldl_append]
    exact foreseen_step folder b ins ih

end Folder

/-! ## Facts -/

namespace Analysis

theorem arrivals_blocks (a : Analysis) (g : Graph) :
    (a.course g).arrivals.map (·.1) = g.blocks := by
  unfold course
  cases a.kind with
  | forward => exact Forward.arrivals_blocks a.machine g
  | worklist => exact (List.map_map).trans (List.map_id g.blocks)

/-- What the folder finds of an operation is proven of it by either analysis. -/
theorem knownInt?_of_finds (a : Analysis) {g : Graph} (huids : (g.code.map (·.uid)).Nodup)
    {folder : Folder} (hm : folder.machine = a.machine) {b : Block} (hb : b ∈ g.blocks)
    {front back : List Instruction} {ins : Instruction} (hsplit : b.code = front ++ ins :: back)
    {op : ArithOp} {vs : List Value} {n : Int}
    (h : folder.Finds (front.foldl (folder.step b) {}) ins op vs n) :
    (a.facts g).knownInt? ins.uid = some n := by
  obtain ⟨⟨b', s⟩, harrival, rfl⟩ := List.mem_map.mp ((a.arrivals_blocks g).symm ▸ hb)
  have hresult := h.resultOf_eq (folder.foreseen_foldl b' front s)
  rw [facts, knownInt?_eq (a.arrivals_blocks g) huids harrival hsplit, ← hm, h.step_eq, hresult]
  rfl

end Analysis

namespace Folder

/-- With the facts of the graph no fold is turned down: an operation that has a result in view is
    folded to it. -/
theorem arithmeticResult_of_finds (a : Analysis) {g : Graph} (huids : (g.code.map (·.uid)).Nodup)
    {folder : Folder} (hm : folder.machine = a.machine) (hfacts : folder.facts = a.facts g)
    {b : Block} (hb : b ∈ g.blocks) {front back : List Instruction} {ins : Instruction}
    (hsplit : b.code = front ++ ins :: back) {op : ArithOp} {vs : List Value} {n : Int}
    (h : folder.Finds (front.foldl (folder.step b) {}) ins op vs n) :
    folder.arithmeticResult (front.foldl (folder.step b) {}) ins op = (some n, [.consult]) :=
  h.arithmeticResult_eq (hfacts ▸ a.knownInt?_of_finds huids hm hb hsplit h)

end Folder

namespace Stage

/-- However much of the folding has been carried out, facts that are looked at next are those of
    the graph as it stands, and those that are folded with. -/
theorem facts_consulted (s : Stage) {w w₁ w₂ : Workbench} (hw : w.Informed)
    {events : List FoldEvent} {edits : List (List Edit)}
    (hevents : (events.mapM foldEvent).run w = .ok edits w₁) {facts : Facts}
    (hfacts : Work.facts.run w₁ = .ok facts w₂) :
    w₁.graph = w.graph ∧ (w₁.analysis.findings w₁.graph).facts = .ok facts
      ∧ (s.folder w).facts = facts := by
  obtain ⟨-, hgraph, hanalysis, -, hinformed⟩ := foldEvents_eq_ok hevents
  have hfound := (hinformed hw).found hfacts
  refine ⟨hgraph, hfound, ?_⟩
  rw [s.folder_facts hw, Analysis.findings_eq_ok hfound, hgraph, hanalysis]

end Stage

end Untangle
