/-
  Untangle.Proofs.Stage.Dispatches

  What becomes of dispatches on the way through the stages. A dispatch that is gone has been
  resolved, or was pruned with its block: dropping junk and folding constants touch no dispatch,
  and writing a graph out keeps every opcode.
-/
import Untangle.Proofs.Pipeline.Work
import Untangle.Proofs.Stage.Weight

namespace Untangle

open Dispatch Pipeline

theorem Instruction.IsFoldable.not_dispatch {ins : Instruction} (h : ins.IsFoldable) :
    isDispatch ins = false := by
  unfold isDispatch
  rcases h with hop | hop <;> rw [hop] <;> rfl

/-- Code of the same opcodes has as many dispatches. -/
theorem Dispatch.countP_map {f : Instruction → Instruction}
    (hf : ∀ ins, (f ins).opcode = ins.opcode) (code : List Instruction) :
    (code.map f).countP isDispatch = code.countP isDispatch := by
  rw [List.countP_map]
  refine List.countP_congr fun ins _ => ?_
  rw [Function.comp_apply, isDispatch, isDispatch, hf]

/-! ## Edits that make no branch -/

namespace Edit

variable {edits : List Edit} {ins : Instruction}

/-- Without a branch to be made, what takes the place of an instruction is a dispatch if that one
    is. -/
theorem Gentle.countP_outcome (h : Gentle edits ins)
    (hnone : asked edits Change.target? ins.uid = none) (number : Int → Int) :
    (outcome edits number ins).countP isDispatch = if isDispatch ins then 1 else 0 := by
  have hopcode : asked edits Change.opcode? ins.uid = none := by
    refine Option.eq_none_iff_forall_ne_some.mpr fun op hop => ?_
    have hsome := (h.opcode op hop).2
    rw [hnone] at hsome
    cases hsome
  unfold outcome
  rw [hopcode, List.nil_append]
  split
  · -- What goes can be dropped, and a dispatch cannot.
    rename_i hremoved
    have hdrop := h.removal hremoved
    have hnot : isDispatch ins = false := by
      unfold Instruction.isDroppable at hdrop
      unfold isDispatch
      cases hop : ins.opcode with
      | none => rfl
      | some op =>
        rw [hop] at hdrop
        cases op <;> first | rfl | cases hdrop
    rw [hnot]
    rfl
  · rw [List.countP_singleton]
    rcases turned_cases edits ins with ⟨v, hconstant, hturned⟩ | ⟨t, htarget, -⟩ | hturned
    · rw [hturned, (h.constant v hconstant).not_dispatch]
      rfl
    · rw [hnone] at htarget
      cases htarget
    · rw [hturned]

/-- A graph that is changed without making a branch keeps all dispatches. -/
theorem Changed.dispatchCount_eq {g g' : Graph} {edits : Block → List Edit} {number : Int → Int}
    (h : Graph.Changed g g' edits number)
    (hgentle : ∀ b ∈ g.blocks, ∀ ins ∈ b.code, Gentle (edits b) ins
      ∧ asked (edits b) Change.target? ins.uid = none) :
    dispatchCount g' = dispatchCount g := by
  show g'.code.countP isDispatch = g.code.countP isDispatch
  have hcode (code : List Instruction) (edits : List Edit) (hcode : ∀ ins ∈ code,
      Gentle edits ins ∧ asked edits Change.target? ins.uid = none) :
      (code.flatMap (outcome edits number)).countP isDispatch = code.countP isDispatch := by
    induction code with
    | nil => rfl
    | cons ins code ih =>
      obtain ⟨hins, hnone⟩ := hcode ins List.mem_cons_self
      rw [List.flatMap_cons, List.countP_append, hins.countP_outcome hnone,
        ih fun i hi => hcode i (List.mem_cons_of_mem _ hi), List.countP_cons, Nat.add_comm]
  rw [h.code, Graph.code, List.countP_flatMap, List.countP_flatMap]
  exact congrArg List.sum (List.map_congr_left fun b hb => hcode b.code (edits b) (hgentle b hb))

end Edit

namespace Graph

variable {g : Graph}

/-! ## Reading in and writing out -/

/-- A method that is written out has the dispatches of its graph. -/
theorem Written.dispatches {m : Method} (h : g.Written m) :
    m.code.countP isDispatch = dispatchCount g := by
  rw [h.code]
  exact Dispatch.countP_map (fun ins => g.relinkInstruction_opcode ins) g.code

/-- A graph has the dispatches of the method that it is built of. -/
theorem dispatchCount_built {m : Method} {terminators : List Value}
    (h : Graph.build m.copy terminators = .ok g) :
    dispatchCount g = m.code.countP isDispatch := by
  show g.code.countP isDispatch = _
  rw [Graph.build_code h]
  exact Dispatch.countP_map Instruction.copy_opcode m.code

end Graph

/-! ## The stages -/

theorem Junk.dispatchCount_removed {g : Graph} (h : g.Formed) (hlinked : g.Linked) :
    dispatchCount (Junk.removed g) = dispatchCount g := by
  obtain ⟨number, hchanged⟩ := h.changed hlinked (Junk.suits g)
  refine Edit.Changed.dispatchCount_eq hchanged fun b hb ins hins =>
    ⟨Junk.gentle (h.block_uids_nodup hb) hins, Edit.asked_of_changes (fun e he => ?_) ins.uid⟩
  rw [Junk.changes_of_edits e he]
  rfl

theorem Folder.dispatchCount_folded (folder : Folder) {g : Graph} (h : g.Formed)
    (hlinked : g.Linked) : dispatchCount (folder.folded g) = dispatchCount g := by
  obtain ⟨number, hchanged⟩ := h.changed hlinked (Folder.suits folder h)
  refine Edit.Changed.dispatchCount_eq hchanged fun b hb ins hins =>
    ⟨Folder.gentle folder (h.block_uids_nodup hb) hins, ?_⟩
  refine Option.eq_none_iff_forall_ne_some.mpr fun t ht => ?_
  obtain ⟨e, he, hnames, hpick⟩ := Edit.exists_of_asked ht
  rcases (Folder.computes_of_named (h.block_uids_nodup hb) hins he hnames).2 with
    hchange | ⟨-, v, hchange⟩ <;> rw [hchange] at hpick <;> cases hpick

namespace Stage

variable {P : Platform} {g₀ : Graph} {w w' : Workbench} {n : Nat}

/-- Dropping junk and folding constants touch no dispatch. -/
theorem dispatchCount_run {s : Stage} (hkind : s.kind ≠ .exceptionReconciler)
    (hother : s.kind ≠ .switchResolver) (hw : w.Ready P g₀) (hrun : s.run.run w = .ok n w') :
    dispatchCount w'.graph = dispatchCount w.graph := by
  have hformed := hw.sound.formed
  have hlinked := hw.sound.linked
  rcases run_eq_ok hkind hformed hlinked hrun with ⟨hs, -⟩ | ⟨-, hgraph, -⟩ | ⟨-, hgraph, -⟩
  · exact absurd hs hother
  · rw [hgraph]
    exact Junk.dispatchCount_removed hformed hlinked
  · rw [hgraph]
    exact (s.folder w).dispatchCount_folded hformed hlinked

end Stage

end Untangle
