/-
  Untangle.Proofs.Graph.Narrowed

  Which blocks are never lost. In the first graph, narrowed to what its dispatches have been
  resolved to, control reaches some blocks from the entry and the handlers. All of these are
  still part of what the stages have left (`Traced.survives`).
-/
import Untangle.Proofs.Graph.Relinked
import Untangle.Proofs.Graph.Traced

namespace Untangle

namespace Instruction

variable {f : Instruction → List Instruction} {ins : Instruction} {fresh : Int}

/-- Where a dispatch has been resolved to go. -/
def turn? (f : Instruction → List Instruction) (ins : Instruction) : Option Value :=
  if ins.opcode == some .switch && (settled f ins).opcode == some .branch then
    some (settled f ins).operand.toValue
  else none

/-- What has become of an instruction that ends a run. -/
theorem Rewritten.settled_eq (h : ins.Rewritten fresh (f ins)) {terminators : List Value}
    (hends : ins.endsRun terminators = true) :
    settled f ins = ((turn? f ins).map fun t => ins.become .branch (.value t)).getD ins := by
  obtain ⟨front, j, hj, -, -, hkind⟩ := h.last hends
  have hnow : settled f ins = j := by rw [settled, hj, List.getLast?_concat]; rfl
  unfold turn?
  rw [hnow]
  rcases hkind with rfl | ⟨hop, t, -, rfl⟩
  · rw [if_neg]
    · rfl
    · intro hboth
      rw [Bool.and_eq_true, beq_iff_eq, beq_iff_eq] at hboth
      rw [hboth.1] at hboth
      exact absurd hboth.2 (by decide)
  · rw [hop, if_pos (by rfl)]
    rfl

/-- A dispatch is resolved to go to one of its targets. -/
theorem Rewritten.of_turn? (h : ins.Rewritten fresh (f ins)) {t : Value}
    (ht : turn? f ins = some t) : ins.opcode = some .switch ∧ t ∈ ins.aims
      ∧ settled f ins = ins.become .branch (.value t) := by
  unfold turn? at ht
  split at ht
  · rename_i hboth
    rw [Bool.and_eq_true, beq_iff_eq, beq_iff_eq] at hboth
    have hends : ins.endsRun [] = true := by
      unfold endsRun isBranch
      rw [hboth.1]
      rfl
    obtain ⟨front, j, hj, -, -, hkind⟩ := h.last hends
    have hnow : settled f ins = j := by rw [settled, hj, List.getLast?_concat]; rfl
    rw [hnow] at ht hboth
    rcases hkind with rfl | ⟨hop, t', ht', rfl⟩
    · rw [hboth.1] at hboth
      exact absurd hboth.2 (by decide)
    · cases ht
      exact ⟨hop, ht', hnow⟩
  · cases ht

end Instruction

namespace Graph

open Instruction (settled turn?)

/-- What an instruction leads to when a choice says where dispatches go. -/
def chosen (choice : Int → Option Value) (ins : Instruction) : Instruction :=
  ((choice ins.uid).map fun t => ins.become .branch (.value t)).getD ins

/-- The graph in which a dispatch leads only where a choice says, if it says anything. -/
def narrowed (g : Graph) (choice : Int → Option Value) : Graph :=
  g.mapCode (chosen choice)

/-- Control reaches the block with a label, when dispatches go where a choice says. -/
def Survives (g : Graph) (choice : Int → Option Value) (l : Int) : Prop :=
  ∃ root ∈ g.roots, Relation.ReflTransGen (g.narrowed choice).Leads root l

/-- Where the dispatches of some stretches have been resolved to go. -/
def choice (T : List Stretch) (f : Instruction → List Instruction) (u : Int) : Option Value :=
  ((T.flatMap Stretch.code).find? fun ins => ins.uid == u).bind (turn? f)

namespace Traced

variable {g₀ g : Graph} {T : List Stretch} {f : Instruction → List Instruction}

theorem code_sublist (h : Traced g₀ g T f) : (T.flatMap Stretch.code).Sublist g₀.code := by
  have := h.sublist.flatMap (fun e : Int × List Instruction => e.2)
  rw [List.flatMap_assoc] at this
  rw [← Outline.code_outline]
  exact this

theorem choice_eq (h : Traced g₀ g T f) (h₀ : g₀.Formed) {r : Stretch} (hr : r ∈ T)
    {ins : Instruction} (hins : ins ∈ r.code) : choice T f ins.uid = turn? f ins := by
  have hnodup : ((T.flatMap Stretch.code).map (·.uid)).Nodup :=
    h₀.uids_nodup.sublist (h.code_sublist.map _)
  unfold choice
  rw [find?_of_nodup (·.uid) hnodup (List.mem_flatMap.mpr ⟨r, hr, hins⟩)]
  rfl

theorem chosen_eq (h : Traced g₀ g T f) (h₀ : g₀.Formed) {r : Stretch} (hr : r ∈ T)
    {ins : Instruction} (hins : ins ∈ r.code) (hends : ins.endsRun g₀.terminators = true) :
    chosen (choice T f) ins = settled f ins := by
  rw [chosen, h.choice_eq h₀ hr hins, (h.rewritten r hr ins hins).settled_eq hends]

/-- What ends a run is the end of its stretch. -/
theorem eq_last (h : Traced g₀ g T f) {r : Stretch} (hr : r ∈ T) {ins : Instruction}
    (hins : ins ∈ r.code) (hends : ins.endsRun g₀.terminators = true) :
    r.code.getLast? = some ins :=
  getLast?_of_mem (h.straight r hr) hins hends

/-- From a block that is part of what is left control comes to such blocks only. -/
theorem survives_step (h : Traced g₀ g T f) (h₀ : g₀.Formed) (hfirst : g₀.FirstLabels)
    {a l : Int} (ha : a ∈ Outline.labels (T.flatMap Stretch.blocks))
    (hleads : (g₀.narrowed (choice T f)).Leads a l) :
    l ∈ Outline.labels (T.flatMap Stretch.blocks) := by
  obtain ⟨before₀, c', rest₀, hsplit₀, hleads⟩ := hleads
  rw [narrowed, mapCode_outline] at hsplit₀
  obtain ⟨front₀, behind₀, houtline₀, -, hbehind₀⟩ := List.map_eq_append_iff.mp hsplit₀
  obtain ⟨⟨a', c⟩, rest₀', rfl, he, rfl⟩ := List.map_eq_cons_iff.mp hbehind₀
  obtain ⟨rfl, rfl⟩ := Prod.mk.inj he
  -- The block has a last instruction, which is in some stretch.
  obtain ⟨first, others, hcode, -⟩ := hfirst (a', c) (by rw [houtline₀]; simp)
  obtain ⟨last, hlast⟩ := Option.isSome_iff_exists.mp
    (List.getLast?_isSome.mpr (show c ≠ [] by rw [show c = _ from hcode]; simp))
  obtain ⟨e, he, hlabel⟩ := List.mem_map.mp ha
  obtain ⟨r, hr, her⟩ := List.mem_flatMap.mp he
  obtain rfl : e = (a', c) := by
    obtain ⟨b, d, hsplit⟩ := List.append_of_mem (h.mem_outline₀ hr her)
    obtain ⟨a'', c''⟩ := e
    obtain rfl : a'' = a' := hlabel
    rw [(split_unique h₀.outline_nodup houtline₀ hsplit).1]
  have hin : last ∈ r.code := List.mem_flatMap.mpr ⟨_, her, List.mem_of_getLast? hlast⟩
  have hrewritten := h.rewritten r hr last hin
  rw [List.getLast?_map, hlast] at hleads
  rcases hleads with ⟨j, hj, t, ht, hl⟩ | ⟨hfalls, hnext⟩
  · -- A branch, which is the end of its stretch.
    cases hj
    have hends : last.endsRun g₀.terminators = true := by
      unfold chosen at ht
      cases hchoice : choice T f last.uid with
      | none =>
        rw [hchoice] at ht
        have ht' : t ∈ last.aims := ht
        rw [Instruction.endsRun, Instruction.isBranch_of_mem_aims ht', Bool.true_or]
      | some t' =>
        rw [h.choice_eq h₀ hr hin] at hchoice
        unfold Instruction.endsRun Instruction.isBranch
        rw [(hrewritten.of_turn? hchoice).1]
        rfl
    have hend := h.eq_last hr hin hends
    rw [h.chosen_eq h₀ hr hin hends] at ht
    have hlabels := h.formed.mem_labels_of_leads (h.leads_of_aims hr hend ht hl)
    rw [h.labels] at hlabels
    obtain ⟨r', hr', rfl⟩ := List.mem_map.mp hlabels
    exact List.mem_map.mpr ⟨r'.first, List.mem_flatMap.mpr ⟨r', hr', List.mem_cons_self⟩, rfl⟩
  · -- Control falls out of the block, and the block that came next is still next.
    rw [fallsOut, List.getLast?_map, hlast] at hfalls
    change (chosen (choice T f) last).fallsThrough g₀.terminators = true at hfalls
    have hsettled : (settled f last).fallsThrough g₀.terminators = true := by
      cases hends : last.endsRun g₀.terminators with
      | true => rwa [← h.chosen_eq h₀ hr hin hends]
      | false =>
        have := hrewritten.settled_straight hends
        rw [Instruction.endsRun, Bool.or_eq_false_iff, Bool.not_eq_false'] at this
        exact this.2
    obtain ⟨before, rest, hsplit⟩ := List.append_of_mem he
    have hl : (Outline.labels rest₀').head? = some l := by
      rw [← hnext, Outline.labels, Outline.labels, List.map_map]
      rfl
    have := h.next _ _ _ _ _ _ _ houtline₀ hsplit hlast hsettled hl
    rw [hsplit, Outline.labels, List.map_append, List.map_cons]
    exact List.mem_append_right _ (List.mem_cons_of_mem _ (List.mem_of_mem_head? this))

/-- Every block that control still reaches is part of what is left. -/
theorem survives (h : Traced g₀ g T f) (h₀ : g₀.Formed) (hfirst : g₀.FirstLabels) {l : Int}
    (hl : g₀.Survives (choice T f) l) : l ∈ Outline.labels (T.flatMap Stretch.blocks) := by
  obtain ⟨root, hroot, hreach⟩ := hl
  induction hreach with
  | refl =>
    rw [← h.roots] at hroot
    have hlabels := h.formed.roots_subset hroot
    rw [h.labels] at hlabels
    obtain ⟨r, hr, rfl⟩ := List.mem_map.mp hlabels
    exact List.mem_map.mpr ⟨r.first, List.mem_flatMap.mpr ⟨r, hr, List.mem_cons_self⟩, rfl⟩
  | tail _ hleads ih => exact h.survives_step h₀ hfirst ih hleads

end Traced

end Graph

end Untangle
