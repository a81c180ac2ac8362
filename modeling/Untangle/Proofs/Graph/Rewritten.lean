/-
  Untangle.Proofs.Graph.Rewritten

  What can take the place of an instruction. Stages leave an instruction as it is, drop it,
  put the constant in its place that it computes, or turn a dispatch into a branch to one of
  its targets. `Instruction.Rewritten` lists these, and nothing else comes of rewriting over and
  over (`Rewritten.trans`). Edits that ask for nothing else are `Edit.Gentle`.
-/
import Untangle.Proofs.Graph.Kept

namespace Untangle

namespace Instruction

/-- Instructions that do nothing but work on the top of the stack. -/
def isDroppable (ins : Instruction) : Bool :=
  match ins.opcode with
  | some .nop | some .dup | some .pop | some .pushConst | some .loadLocal | some .sizeOf
  | some .arith => true
  | _ => false

/-- Instructions that compute a value from what is known before a run, perhaps. -/
def IsFoldable (ins : Instruction) : Prop :=
  ins.opcode = some .sizeOf ∨ ins.opcode = some .arith

theorem IsFoldable.isDroppable {ins : Instruction} (h : ins.IsFoldable) :
    ins.isDroppable = true := by
  unfold Instruction.isDroppable
  rcases h with h | h <;> rw [h]

/-- What can take the place of an instruction: itself; nothing; the constant that it computes; or,
    for a dispatch, a branch to one of its targets, with a new discard in front of it or not. -/
inductive Rewritten (fresh : Int) (ins : Instruction) : List Instruction → Prop where
  | kept : Rewritten fresh ins [ins]
  | dropped (h : ins.isDroppable = true) : Rewritten fresh ins []
  | constant (v : Value) (h : ins.IsFoldable) :
      Rewritten fresh ins [ins.become .pushConst (.value v)]
  | branch (t : Value) (h : ins.opcode = some .switch) (ht : t ∈ ins.aims) :
      Rewritten fresh ins [ins.become .branch (.value t)]
  | discard (t : Value) (u : Int) (h : ins.opcode = some .switch) (ht : t ∈ ins.aims)
      (hu : fresh ≤ u) : Rewritten fresh ins
        [{ opcode := some .pop, uid := u }, ins.become .branch (.value t)]

namespace Rewritten

variable {fresh fresh' : Int} {ins : Instruction} {js : List Instruction}

/-- What takes the place of a constant, a discard or a branch. -/
theorem of_made {j : Instruction} (hj : j.IsMade) (h : Rewritten fresh j js) :
    js = [j] ∨ js = [] ∧ j.isDroppable = true := by
  cases h with
  | kept => exact Or.inl rfl
  | dropped h => exact Or.inr ⟨rfl, h⟩
  | constant v h =>
    unfold IsMade at hj
    rcases h with h | h <;> rw [h] at hj <;> simp at hj
  | branch t h =>
    unfold IsMade at hj
    rw [h] at hj
    simp at hj
  | discard t u h =>
    unfold IsMade at hj
    rw [h] at hj
    simp at hj

/-- A branch stays. -/
theorem of_branch {j : Instruction} (hj : j.opcode = some .branch) (h : Rewritten fresh j js) :
    js = [j] := by
  rcases of_made (Or.inr (Or.inr hj)) h with hsame | ⟨-, hdrop⟩
  · exact hsame
  · unfold isDroppable at hdrop
    rw [hj] at hdrop
    cases hdrop

/-- Rewriting goes on in place. -/
theorem trans (h : Rewritten fresh ins js) (hfresh : fresh ≤ fresh')
    {out : Instruction → List Instruction} (hout : ∀ j ∈ js, Rewritten fresh' j (out j)) :
    Rewritten fresh ins (js.flatMap out) := by
  cases h with
  | kept =>
    have hone := hout ins List.mem_cons_self
    rw [List.flatMap_singleton]
    generalize out ins = js at hone
    cases hone with
    | kept => exact .kept
    | dropped h => exact .dropped h
    | constant v h => exact .constant v h
    | branch t h ht => exact .branch t h ht
    | discard t u h ht hu => exact .discard t u h ht (Int.le_trans hfresh hu)
  | dropped h => exact .dropped h
  | constant v h =>
    rw [List.flatMap_singleton]
    rcases of_made (Or.inl rfl) (hout _ List.mem_cons_self) with hsame | ⟨hnone, -⟩
    · rw [hsame]
      exact .constant v h
    · rw [hnone]
      exact .dropped h.isDroppable
  | branch t h ht =>
    rw [List.flatMap_singleton, of_branch rfl (hout _ List.mem_cons_self)]
    exact .branch t h ht
  | discard t u h ht hu =>
    have hbranch := of_branch rfl (hout _ (List.mem_cons_of_mem _ List.mem_cons_self))
    rw [List.flatMap_cons, List.flatMap_singleton, hbranch]
    rcases of_made (Or.inr (Or.inl rfl)) (hout _ List.mem_cons_self) with hsame | ⟨hnone, -⟩
    · rw [hsame]
      exact .discard t u h ht hu
    · rw [hnone]
      exact .branch t h ht

theorem straight_of_droppable (h : ins.isDroppable = true) (terminators : List Value) :
    ins.endsRun terminators = false := by
  unfold isDroppable at h
  unfold endsRun isBranch fallsThrough
  split at h <;> simp_all [Opcode.isBranch, Opcode.isUnconditional]

/-- In the place of an instruction that control runs through there are such instructions. -/
theorem straight (h : Rewritten fresh ins js) {terminators : List Value}
    (hins : ins.endsRun terminators = false) : ∀ j ∈ js, j.endsRun terminators = false := by
  have hnot : ins.opcode ≠ some .switch := by
    intro hop
    rw [endsRun, Bool.or_eq_false_iff, isBranch, hop] at hins
    exact absurd hins.1 (by decide)
  cases h with
  | kept => simpa using hins
  | dropped h => simp
  | constant v h => simp [endsRun, isBranch, fallsThrough, become, Opcode.isBranch,
      Opcode.isUnconditional]
  | branch t h => exact absurd h hnot
  | discard t u h => exact absurd h hnot

/-- In the place of an instruction that ends a run there is one last, and it ends the run. -/
theorem last (h : Rewritten fresh ins js) {terminators : List Value}
    (hins : ins.endsRun terminators = true) :
    ∃ front j, js = front ++ [j] ∧ j.uid = ins.uid ∧ j.endsRun terminators = true
      ∧ (j = ins ∨ ins.opcode = some .switch
        ∧ ∃ t ∈ ins.aims, j = ins.become .branch (.value t)) := by
  cases h with
  | kept => exact ⟨[], ins, rfl, rfl, hins, Or.inl rfl⟩
  | dropped h => rw [straight_of_droppable h] at hins; cases hins
  | constant v h =>
    exact absurd (straight_of_droppable h.isDroppable terminators) (by rw [hins]; decide)
  | branch t h ht => exact ⟨[], _, rfl, rfl, rfl, Or.inr ⟨h, t, ht, rfl⟩⟩
  | discard t u h ht hu => exact ⟨[_], _, rfl, rfl, rfl, Or.inr ⟨h, t, ht, rfl⟩⟩

end Rewritten

/-- What an instruction has become, where it may have become a branch. -/
def settled (f : Instruction → List Instruction) (ins : Instruction) : Instruction :=
  ((f ins).getLast?).getD ins

namespace Rewritten

variable {fresh fresh' : Int} {ins : Instruction} {f out : Instruction → List Instruction}

/-- Control runs through what an instruction has become if it runs through the instruction. -/
theorem settled_straight (h : ins.Rewritten fresh (f ins)) {terminators : List Value}
    (hins : ins.endsRun terminators = false) : (settled f ins).endsRun terminators = false := by
  unfold settled
  cases hlast : (f ins).getLast? with
  | none => exact hins
  | some j => exact h.straight hins j (List.mem_of_getLast? hlast)

/-- A dispatch does not become something that control falls out of. -/
theorem settled_falls (h : ins.Rewritten fresh (f ins))
    (hout : ∀ j ∈ f ins, j.Rewritten fresh' (out j)) {terminators : List Value}
    (hfalls : (settled (fun i => (f i).flatMap out) ins).fallsThrough terminators = true) :
    (settled f ins).fallsThrough terminators = true := by
  by_cases hends : ins.endsRun terminators = true
  · obtain ⟨front, j, hj, -, -, hkind⟩ := h.last hends
    have hnow : settled f ins = j := by rw [settled, hj, List.getLast?_concat]; rfl
    have hrewritten := hout j (by rw [hj]; simp)
    have hlater (front' : List Instruction) (j' : Instruction) (hj' : out j = front' ++ [j']) :
        settled (fun i => (f i).flatMap out) ins = j' := by
      rw [settled, hj, List.flatMap_append, List.flatMap_singleton, hj', ← List.append_assoc,
        List.getLast?_concat]
      rfl
    rw [hnow]
    rcases hkind with rfl | ⟨-, t, -, rfl⟩
    · obtain ⟨front', j', hj', -, -, rfl | ⟨-, t, -, rfl⟩⟩ := hrewritten.last hends
      · rwa [hlater front' j' hj'] at hfalls
      · rw [hlater front' _ hj'] at hfalls
        cases hfalls
    · rw [hlater [] _ (hrewritten.of_branch rfl)] at hfalls
      cases hfalls
  · have hstraight := h.settled_straight (Bool.eq_false_iff.mpr hends)
    rw [endsRun, Bool.or_eq_false_iff, Bool.not_eq_false'] at hstraight
    exact hstraight.2

end Rewritten

end Instruction

namespace Edit

/-- Edits ask of an instruction no more than what rewriting allows. -/
structure Gentle (edits : List Edit) (ins : Instruction) : Prop where
  removal : (asked edits Change.removal? ins.uid).isSome = true → ins.isDroppable = true
  constant : ∀ v, asked edits Change.constant? ins.uid = some v → ins.IsFoldable
  target : ∀ t, asked edits Change.target? ins.uid = some t →
    ins.opcode = some .switch ∧ t ∈ ins.aims
  /-- A discard comes in front of a dispatch that becomes a branch. -/
  opcode : ∀ op, asked edits Change.opcode? ins.uid = some op → op = .pop
    ∧ (asked edits Change.target? ins.uid).isSome = true

theorem Gentle.rewritten {edits : List Edit} {ins : Instruction} (h : Gentle edits ins)
    {fresh : Int} {number : Int → Int} (hnumber : ∀ v, fresh ≤ number v) :
    ins.Rewritten fresh (outcome edits number ins) := by
  have hnot : ins.IsFoldable → ins.opcode ≠ some .switch := by
    rintro (hop | hop) <;> rw [hop] <;> decide
  unfold outcome turned
  cases htarget : asked edits Change.target? ins.uid with
  | some t =>
    obtain ⟨hop, ht⟩ := h.target t htarget
    have hconstant : asked edits Change.constant? ins.uid = none :=
      Option.eq_none_iff_forall_ne_some.mpr fun v hv => hnot (h.constant v hv) hop
    have hremoval : asked edits Change.removal? ins.uid = none := by
      refine Option.not_isSome_iff_eq_none.mp fun hsome => ?_
      have hdrop := h.removal hsome
      unfold Instruction.isDroppable at hdrop
      rw [hop] at hdrop
      cases hdrop
    rw [hconstant, hremoval]
    cases hopcode : asked edits Change.opcode? ins.uid with
    | none => exact .branch t hop ht
    | some op =>
      obtain ⟨rfl, -⟩ := h.opcode op hopcode
      exact .discard t _ hop ht (hnumber _)
  | none =>
    have hopcode : asked edits Change.opcode? ins.uid = none := by
      refine Option.eq_none_iff_forall_ne_some.mpr fun op hop => ?_
      have := (h.opcode op hop).2
      rw [htarget] at this
      cases this
    rw [hopcode, List.nil_append]
    cases hremoval : asked edits Change.removal? ins.uid with
    | some u => exact .dropped (h.removal (by rw [hremoval]; rfl))
    | none =>
      rw [if_neg (by decide)]
      cases hconstant : asked edits Change.constant? ins.uid with
      | some v => exact .constant v (h.constant v hconstant)
      | none => exact .kept

end Edit

namespace Graph

open Instruction (Rewritten)

/-- Control goes nowhere from a rewritten block where it did not go before. -/
theorem Changed.leads_back {g g' : Graph} {edits : Block → List Edit} {number : Int → Int}
    (h : Changed g g' edits number) (hformed : g.Formed)
    (hgentle : ∀ b ∈ g.blocks, ∀ ins ∈ b.code, Edit.Gentle (edits b) ins) {a l : Int}
    (hleads : g'.Leads a l) : g.Leads a l := by
  obtain ⟨before', c', rest', hsplit', hway⟩ := hleads
  rw [h.outline] at hsplit'
  obtain ⟨before, behind, hsplit, -, hbehind⟩ := List.map_eq_append_iff.mp hsplit'
  obtain ⟨⟨a', c⟩, rest, rfl, he, rfl⟩ := List.map_eq_cons_iff.mp hbehind
  obtain ⟨rfl, rfl⟩ := Prod.mk.inj he
  have hmem : (a', c) ∈ g.outline := hsplit ▸ List.mem_append_right _ List.mem_cons_self
  refine ⟨before, c, rest, hsplit, ?_⟩
  rw [h.reworked.terminators, show Outline.labels (List.map _ rest) = Outline.labels rest from
    Outline.labels_replace rest _] at hway
  obtain ⟨b, hb, rfl, rfl⟩ := exists_block_of_mem hmem
  have hrewritten : ∀ ins ∈ b.code, ins.Rewritten g.fresh (Edit.outcome (edits b) number ins) :=
    fun ins hins => (hgentle b hb ins hins).rewritten h.fresh
  dsimp only at hway ⊢
  rw [h.blocks hb] at hway
  rcases List.eq_nil_or_concat b.code with hnil | ⟨init, last, hcode⟩
  · rw [hnil] at hway ⊢
    exact hway
  rw [List.concat_eq_append] at hcode
  rw [hcode] at hrewritten hway ⊢
  have hlast := hrewritten last (List.mem_append_right _ (List.mem_singleton_self _))
  by_cases hends : last.endsRun g.terminators = true
  · obtain ⟨front, j, hj, -, -, hkind⟩ := hlast.last hends
    rw [List.flatMap_append, List.flatMap_singleton, hj, ← List.append_assoc] at hway
    simp only [fallsOut, List.getLast?_concat] at hway ⊢
    rcases hkind with rfl | ⟨-, t, ht, rfl⟩
    · exact hway
    · -- A dispatch has become a branch to one of its targets.
      rcases hway with ⟨j, hj, t', ht', hl⟩ | ⟨hfalls, -⟩
      · cases hj
        obtain ⟨ts, hts, hall⟩ := Edit.become_targets last t
        rw [Instruction.aims, hts] at ht'
        exact Or.inl ⟨last, rfl, t, ht, hall t' ht' ▸ hl⟩
      · cases hfalls
  · -- Control runs through all of the code, before and after.
    have hstraight : ∀ j ∈ (init ++ [last]).flatMap (Edit.outcome (edits b) number),
        j.endsRun g.terminators = false := by
      intro j hj
      obtain ⟨ins, hins, hj⟩ := List.mem_flatMap.mp hj
      refine (hrewritten ins hins).straight ?_ j hj
      rcases List.mem_append.mp hins with hin | hin
      · have := hformed.straight _ hmem ins
        rw [hcode, List.dropLast_concat] at this
        exact this hin
      · rw [List.mem_singleton.mp hin]
        exact Bool.eq_false_iff.mpr hends
    rcases hway with ⟨j, hj, t, ht, -⟩ | ⟨-, hnext⟩
    · have := hstraight j (List.mem_of_getLast? hj)
      rw [Instruction.endsRun, Instruction.isBranch_of_mem_aims ht] at this
      cases this
    · rw [Bool.not_eq_true, Instruction.endsRun, Bool.or_eq_false_iff,
        Bool.not_eq_false'] at hends
      exact Or.inr ⟨by rw [fallsOut, List.getLast?_concat]; exact hends.2, hnext⟩

end Graph

end Untangle
