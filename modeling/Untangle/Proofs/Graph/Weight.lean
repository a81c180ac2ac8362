/-
  Untangle.Proofs.Graph.Weight

  The weight of code: its instructions, where a dispatch counts three times and a size query
  twice. A dispatch that is resolved may leave two instructions behind and a size query one, so
  both are lighter afterwards. Removing blocks makes code lighter by one at least for each
  block, because no block is empty before the first instruction goes (`Graph.Filled`).
-/
import Untangle.Proofs.Graph.Build
import Untangle.Proofs.Graph.Kept
import Untangle.Proofs.Graph.Merge

namespace Untangle

namespace Instruction

/-- What an instruction weighs. -/
def weight (ins : Instruction) : Nat :=
  match ins.opcode with
  | some .switch => 3
  | some .sizeOf => 2
  | _ => 1

theorem weight_pos (ins : Instruction) : 1 ≤ ins.weight := by
  unfold weight
  split <;> decide

/-- What code weighs. -/
def weightOf (code : List Instruction) : Nat := Number.totalSize (code.map weight)

@[simp] theorem weightOf_nil : weightOf [] = 0 := rfl

@[simp] theorem weightOf_cons (ins : Instruction) (code : List Instruction) :
    weightOf (ins :: code) = ins.weight + weightOf code := rfl

@[simp] theorem weightOf_append (code more : List Instruction) :
    weightOf (code ++ more) = weightOf code + weightOf more := by
  unfold weightOf
  rw [List.map_append, Number.totalSize_append]

@[simp] theorem weightOf_reverse (code : List Instruction) :
    weightOf code.reverse = weightOf code := by
  unfold weightOf
  rw [List.map_reverse, Number.totalSize_reverse]

/-- Code of the same opcodes weighs the same. -/
theorem weightOf_map {f : Instruction → Instruction} (hf : ∀ ins, (f ins).opcode = ins.opcode)
    (code : List Instruction) : weightOf (code.map f) = weightOf code := by
  unfold weightOf
  rw [List.map_map]
  refine congrArg Number.totalSize (List.map_congr_left fun ins _ => ?_)
  show (f ins).weight = ins.weight
  unfold weight
  rw [hf]

/-- The weight counts a dispatch twice more and a size query once more. -/
theorem weightOf_eq (code : List Instruction) :
    weightOf code = code.length + 2 * code.countP (·.opcode == some .switch)
      + code.countP (·.opcode == some .sizeOf) := by
  induction code with
  | nil => rfl
  | cons ins code ih =>
    rw [weightOf_cons, ih, List.length_cons, List.countP_cons, List.countP_cons]
    unfold weight
    split
    · rename_i hop
      simp only [hop]
      simp
      omega
    · rename_i hop
      simp only [hop]
      simp
      omega
    · rename_i hswitch hsize
      rw [if_neg (by simpa using hswitch), if_neg (by simpa using hsize)]
      omega

theorem length_le_weightOf (code : List Instruction) : code.length ≤ weightOf code := by
  rw [weightOf_eq]
  omega

theorem weightOf_pos {code : List Instruction} (h : code ≠ []) : 1 ≤ weightOf code :=
  (List.length_pos_of_ne_nil h).trans_le (length_le_weightOf code)

end Instruction

open Instruction

/-- What a method weighs: its instructions, a dispatch three times and a size query twice. -/
def Method.weight (m : Method) : Nat :=
  m.code.length + 2 * m.code.countP (·.opcode == some .switch)
    + m.code.countP (·.opcode == some .sizeOf)

theorem Method.weight_eq (m : Method) : m.weight = weightOf m.code :=
  (weightOf_eq m.code).symm

/-- Code block by block is lighter by as much as its blocks are. -/
theorem weightOf_blocks {blocks : List Block} {f : Block → List Instruction} {n : Block → Nat}
    (h : ∀ b ∈ blocks, weightOf (f b) + n b ≤ weightOf b.code) :
    weightOf (blocks.flatMap f) + Number.totalSize (blocks.map n)
      ≤ weightOf (blocks.flatMap (·.code)) := by
  induction blocks with
  | nil => exact Nat.le_refl _
  | cons b blocks ih =>
    have hfirst := h b List.mem_cons_self
    have hrest := ih fun c hc => h c (List.mem_cons_of_mem _ hc)
    rw [List.flatMap_cons, List.flatMap_cons, weightOf_append, weightOf_append, List.map_cons,
      Number.totalSize_cons]
    omega

/-- A changed graph is lighter by as much as its blocks are. -/
theorem Edit.Changed.weightOf_le {g g' : Graph} {edits : Block → List Edit}
    {number : Int → Int} (h : Graph.Changed g g' edits number) {n : Block → Nat}
    (hblocks : ∀ b ∈ g.blocks,
      weightOf (b.code.flatMap (Edit.outcome (edits b) number)) + n b ≤ weightOf b.code) :
    weightOf g'.code + Number.totalSize (g.blocks.map n) ≤ weightOf g.code := by
  rw [h.code]
  exact weightOf_blocks hblocks

namespace Graph

variable {g : Graph}

/-- No block is empty. -/
def Filled (g : Graph) : Prop := ∀ b ∈ g.blocks, b.code ≠ []

theorem FirstLabels.filled (h : g.FirstLabels) : g.Filled := by
  intro b hb hnil
  obtain ⟨first, rest, hcode, -⟩ := h _ (mem_outline_of_mem hb)
  rw [show b.code = first :: rest from hcode] at hnil
  cases hnil

/-- Removing blocks out of reach leaves the others filled. -/
theorem Filled.removeUnreachable (h : g.Filled) : g.removeUnreachable.Filled := by
  intro b hb
  rw [removeUnreachable_blocks] at hb
  obtain ⟨c, hc, rfl⟩ := List.mem_map.mp hb
  exact h c (List.mem_of_mem_filter hc)

/-- Joining blocks only adds to them. -/
theorem Grouped.filled {blocks joined : List Block} (h : Grouped g blocks joined)
    (hblocks : ∀ b ∈ blocks, b.code ≠ []) : ∀ b ∈ joined, b.code ≠ [] := by
  induction h with
  | nil => exact hblocks
  | @run b bs rest joined _ _ ih =>
    intro c hc
    rcases List.mem_cons.mp hc with rfl | hc
    · have hfirst := hblocks b (List.mem_append_left _ List.mem_cons_self)
      exact List.append_ne_nil_of_left_ne_nil hfirst _
    · exact ih (fun d hd => hblocks d (List.mem_append_right _ hd)) c hc

theorem Filled.of_outline {g' : Graph} (h : g.Filled) (houtline : g'.outline = g.outline) :
    g'.Filled := by
  intro b hb
  obtain ⟨c, hc, -, hcode⟩ := exists_block_of_mem (houtline ▸ mem_outline_of_mem hb)
  rw [show b.code = c.code from hcode.symm]
  exact h c hc

theorem Filled.merged (h : g.Filled) : g.merged.Filled := by
  rw [merged_eq]
  split
  · exact h
  · refine Filled.of_outline (g := g.rejoined) ?_ (connected_outline _)
    exact (joinedBlocks_grouped g).filled h

theorem Filled.pruned (h : g.Filled) : g.pruned.Filled := by
  unfold Graph.pruned
  split
  · exact h
  · exact h.removeUnreachable.merged

/-- Blocks that are left and those that are not share the weight. -/
theorem weightOf_filter {blocks : List Block} (h : ∀ b ∈ blocks, b.code ≠ []) (p : Block → Bool) :
    weightOf ((blocks.filter p).flatMap (·.code)) + (blocks.filter fun b => !p b).length
      ≤ weightOf (blocks.flatMap (·.code)) := by
  induction blocks with
  | nil => exact Nat.le_refl _
  | cons b blocks ih =>
    have hrest := ih fun c hc => h c (List.mem_cons_of_mem _ hc)
    have hpos := weightOf_pos (h b List.mem_cons_self)
    rw [List.flatMap_cons, weightOf_append]
    cases hp : p b with
    | true =>
      rw [List.filter_cons_of_pos hp, List.filter_cons_of_neg (by rw [hp]; decide),
        List.flatMap_cons, weightOf_append]
      omega
    | false =>
      rw [List.filter_cons_of_neg (by rw [hp]; decide), List.filter_cons_of_pos (by rw [hp]; rfl),
        List.length_cons]
      omega

/-- Each block that is pruned makes the graph lighter. -/
theorem Filled.weightOf_pruned (h : g.Filled) :
    weightOf g.pruned.code + g.unreachable.length ≤ weightOf g.code := by
  unfold Graph.pruned
  split
  · rename_i hnone
    rw [List.isEmpty_iff.mp hnone]
    exact Nat.le_refl _
  · rw [merged_code]
    have hcode : g.removeUnreachable.code
        = (g.blocks.filter fun b => g.isLive b.label).flatMap (·.code) := by
      rw [Graph.code, removeUnreachable_blocks, List.flatMap_map]
    rw [hcode]
    exact weightOf_filter h fun b => g.isLive b.label

end Graph

end Untangle
