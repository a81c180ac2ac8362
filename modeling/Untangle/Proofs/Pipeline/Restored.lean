/-
  Untangle.Proofs.Pipeline.Restored

  A method that is cut into blocks and written out again (`Graph.build_exact`). In a graph that
  was just built, every branch already leads to a live instruction, so pointing branches there
  changes nothing that a document shows.
-/
import Untangle.Proofs.Encoding
import Untangle.Proofs.Graph.Partition
import Untangle.Proofs.Listing
import Untangle.Proofs.Pipeline.Behaviour
import Untangle.Proofs.Pipeline.Defects

namespace Untangle

/-! ## Targets that stay as they are -/

namespace Instruction

/-- A dispatch has a sequence of targets. -/
def Routed (ins : Instruction) : Prop :=
  ins.opcode = some .switch →
    ∃ ts, ins.operand = .value (.tuple ts) ∨ ins.operand = .value (.list ts)

/-- The instruction with the targets of a dispatch as a sequence, whatever its operand is. -/
def listed (ins : Instruction) : Instruction :=
  if ins.opcode == some .switch then { ins with operand := .value (.tuple ins.aims) } else ins

/-- The targets of a dispatch are the items of its operand. -/
theorem targets_switch {ins : Instruction} {ts : List Value} (hop : ins.opcode = some .switch)
    (hoperand : ins.operand = .value (.tuple ts) ∨ ins.operand = .value (.list ts)) :
    ins.targets = .ok ts := by
  have hbranch : ins.isBranch = true := by rw [isBranch, hop]; rfl
  rw [targets, hbranch, hop]
  rcases hoperand with hoperand | hoperand <;> rw [hoperand] <;> cases ts <;> rfl

/-- A dispatch with a sequence of targets is shown as it was. -/
theorem Routed.encoding_listed {ins : Instruction} (h : ins.Routed) :
    Encoding.instruction ins.listed = Encoding.instruction ins := by
  unfold listed
  split
  · rename_i hop
    obtain ⟨ts, hoperand⟩ := h (eq_of_beq hop)
    have haims : ins.aims = ts := aims_eq (targets_switch (eq_of_beq hop) hoperand)
    -- Tuples are shown as lists.
    have hshown : Encoding.operandValue (.value (.tuple ins.aims))
        = Encoding.operandValue ins.operand := by
      rw [haims]
      rcases hoperand with hoperand | hoperand
      · rw [hoperand]
      · rw [hoperand]
        rfl
    unfold Encoding.instruction
    rw [hshown]
  · rfl

/-- A branch whose targets stay is shown with these as its operand. -/
theorem encoding_retarget {ins : Instruction} {rename : Value → Value} {ts : List Value}
    (hts : ins.targets = .ok ts) (hsame : ∀ t ∈ ts, rename t = t) :
    Encoding.instruction (ins.retarget rename) = Encoding.instruction ins.listed := by
  unfold listed retarget
  split
  · rename_i hbranch
    have hop : (ins.opcode == some .switch) = false := Bool.eq_false_iff.mpr fun hop => by
      rw [isBranch_of_opcode (eq_of_beq hop)] at hbranch
      cases hbranch
    rw [hop]
    rfl
  rename_i hbranch
  split
  · -- The same targets come back as a tuple.
    rw [hts, aims_eq hts]
    dsimp only
    rw [(List.map_congr_left hsame).trans (List.map_id ts)]
  rename_i hop
  split
  · rfl
  · rename_i hoperand
    rw [targets, if_neg hbranch, if_neg hop, if_neg hoperand] at hts
    cases hts
    rw [hsame _ (List.mem_singleton_self _)]
    have hshown : Encoding.operandValue (.value ins.operand.toValue)
        = Encoding.operandValue ins.operand := by
      cases ins.operand <;> rfl
    unfold Encoding.instruction
    rw [hshown]

end Instruction

/-- The method with the targets of each dispatch as a sequence. -/
def Method.listed (m : Method) : Method := { m with code := m.code.map Instruction.listed }

/-- A method whose dispatches have sequences of targets is shown as it was. -/
theorem Method.encoding_listed {m : Method} (h : ∀ ins ∈ m.code, ins.Routed) :
    Encoding.method m.listed = Encoding.method m := by
  have hcode : m.listed.code.map Encoding.instruction = m.code.map Encoding.instruction := by
    show (m.code.map Instruction.listed).map _ = _
    rw [List.map_map]
    exact List.map_congr_left fun ins hins => (h ins hins).encoding_listed
  unfold Encoding.method
  rw [hcode]
  rfl

namespace Graph

variable {m : Method} {terminators : List Value} {g : Graph}

/-- Every target in a graph that was just built is the first instruction of its block. -/
theorem Partition.relinkTarget_eq (h : Partition m terminators g) (hformed : g.Formed)
    {ins : Instruction} (hins : ins ∈ g.code) {t : Value} (ht : t ∈ ins.aims) :
    g.relinkTarget t = t := by
  obtain ⟨l, hl, hnames⟩ := hformed.aims hins ht
  obtain ⟨b, hb, rfl⟩ := List.mem_map.mp hl
  obtain ⟨first, rest, hcode, hlabel⟩ := h.first b hb
  -- The live instruction has the number that is already there, so the target is not replaced.
  unfold relinkTarget
  rw [hnames, Option.bind_some, hformed.liveTarget?_first hb hcode, hlabel]
  exact if_pos (beq_self_eq_true _)

theorem build_name (h : build m terminators = .ok g) : g.name = m.name ∧ g.locals = m.locals := by
  obtain ⟨ranges, exits, -, rfl⟩ := build_eq_ok.mp h
  exact ⟨rfl, rfl⟩

/-- A graph that was just built is written out as the method that it was built of, with the
    targets of each dispatch as a sequence. -/
theorem build_restored (hbuild : build m terminators = .ok g)
    (hnodup : (m.code.map (·.uid)).Nodup) {w : Workbench} (hw : w.graph = g) :
    ∃ m' w', Work.reconstruct.run w = .ok m' w'
      ∧ Encoding.method m' = Encoding.method m.listed := by
  subst hw
  have hformed := (build_formed hbuild hnodup).1
  obtain ⟨w', hmade⟩ := Pipeline.reconstruct_ok hformed.checkAll
  refine ⟨_, w', hmade, ?_⟩
  have hrelinked := relinked_eq fun ins hins => hformed.checkTargets hins
  have hcode : (w.graph.relinked.toMethod.code).map Encoding.instruction
      = m.listed.code.map Encoding.instruction := by
    show w.graph.relinked.code.map Encoding.instruction = (m.code.map _).map _
    rw [hrelinked, mapCode_code, build_code hbuild, List.map_map, List.map_map]
    refine List.map_congr_left fun ins hins => ?_
    have hin : ins ∈ w.graph.code := (build_code hbuild).symm ▸ hins
    exact Instruction.encoding_retarget (hformed.targets_ok hin) fun t ht =>
      (build_parted hbuild hnodup).relinkTarget_eq hformed hin ht
  have hregions : w.graph.relinked.toMethod.regions = m.regions := by
    show w.graph.spans.map (·.region) = _
    exact build_regions hbuild
  obtain ⟨hname, hlocals⟩ := build_name hbuild
  unfold Encoding.method
  rw [hcode, hregions, show w.graph.relinked.toMethod.name = m.name from hname,
    show w.graph.relinked.toMethod.locals = m.locals from hlocals]
  rfl

end Graph

/-! ## Methods whose dispatches have sequences of targets -/

/-- The dispatches of a method that is read have sequences of targets. -/
theorem Encoding.readMethod_routed {data : Value} {m : Method} (h : readMethod data = .ok m) :
    ∀ ins ∈ m.code, ins.Routed := by
  intro ins hins hop
  -- The code is what was read, numbered, and both leave operands that suit their opcodes.
  obtain ⟨entries, m₀, rfl, -, htells, rfl⟩ := readMethod_eq_ok.mp h
  obtain ⟨items, -, hcode⟩ := htells.code
  obtain ⟨i, hi, hsame⟩ := exists_of_forall₂ htells.numbered.1 hins
  rw [hsame.same] at hop ⊢
  obtain ⟨item, -, hread⟩ := exists_of_mapM hcode hi
  obtain ⟨parts, rfl, htold⟩ := readInstruction_eq_ok.mp hread
  have hoperand := htold.operand
  rw [show i.opcode = some .switch from hop] at hoperand
  exact (operand_switch hoperand).imp fun _ => Or.inl

/-- The dispatches of a method that a listing gives have sequences of targets. -/
theorem Method.Assembled.routed {m : Method} (h : m.Assembled) :
    ∀ ins ∈ m.code, ins.Routed := fun ins hins hop =>
  ((h.runnable ins hins).dispatch hop).imp fun _ => Or.inl

/-! ## Cutting and writing out -/

/-- Cutting a method into blocks is exact and can be undone. The blocks are a partition of it, and
    the coarsest of its kind. The graph is written out as a method that is shown as the same
    document, with the targets of each dispatch as a sequence; and so it is the very same document
    if the operands of dispatches are sequences, as the operands of all that are read are. -/
theorem Graph.build_exact {m : Method} {terminators : List Value} {g : Graph}
    (hbuild : build m terminators = .ok g) (hnodup : (m.code.map (·.uid)).Nodup) :
    Partition m terminators g
      ∧ Parts m terminators (g.blocks.map (·.code))
      ∧ (∀ parts, Parts m terminators parts → ∃ groups : List (List (List Instruction)),
          groups.flatten = parts ∧ groups.map List.flatten = g.blocks.map (·.code))
      ∧ ∀ w : Workbench, w.graph = g → ∃ m' w', Work.reconstruct.run w = .ok m' w'
        ∧ Encoding.method m' = Encoding.method m.listed
        ∧ ((∀ ins ∈ m.code, ins.Routed) → Encoding.method m' = Encoding.method m) := by
  have hparted := build_parted hbuild hnodup
  refine ⟨hparted, hparted.parts, fun parts hparts => hparted.coarsest hnodup hparts, ?_⟩
  intro w hw
  obtain ⟨m', w', hrun, hshown⟩ := build_restored hbuild hnodup hw
  exact ⟨m', w', hrun, hshown, fun hrouted => hshown.trans (Method.encoding_listed hrouted)⟩

theorem Method.knownDispatch_exact : ∃ g, Graph.build knownDispatch [.str "ret"] = .ok g
    ∧ g.blocks.length = 5 ∧ Graph.Partition knownDispatch [.str "ret"] g
    ∧ Graph.Parts knownDispatch [.str "ret"] (g.blocks.map (·.code))
    ∧ (∀ parts, Graph.Parts knownDispatch [.str "ret"] parts →
        ∃ groups : List (List (List Instruction)),
          groups.flatten = parts ∧ groups.map List.flatten = g.blocks.map (·.code))
    ∧ ∀ w : Workbench, w.graph = g → ∃ m' w', Work.reconstruct.run w = .ok m' w'
        ∧ Encoding.method m' = Encoding.method knownDispatch := by
  have hbuilt :
      (Graph.build knownDispatch [.str "ret"]).toOption.map (·.blocks.length) = some 5 := by
    decide +kernel
  have hrouted : ∀ ins ∈ knownDispatch.code, ins.Routed := by
    intro ins hins hop
    simp only [knownDispatch, List.mem_cons, List.not_mem_nil, or_false] at hins
    rcases hins with rfl | rfl | rfl | rfl | rfl | rfl | rfl | rfl <;> cases hop
    exact ⟨_, Or.inl rfl⟩
  cases hbuild : Graph.build knownDispatch [.str "ret"] with
  | error f =>
    rw [hbuild] at hbuilt
    cases hbuilt
  | ok g =>
    rw [hbuild] at hbuilt
    obtain ⟨hparted, hparts, hcoarsest, hrestored⟩ := Graph.build_exact hbuild (by decide)
    refine ⟨g, rfl, Option.some.inj hbuilt, hparted, hparts, hcoarsest, fun w hw => ?_⟩
    obtain ⟨m', w', hrun, -, hsame⟩ := hrestored w hw
    exact ⟨m', w', hrun, hsame hrouted⟩

/-- A dispatch that has no operand, and so no targets. -/
def Method.bareDispatch : Method where
  code :=
    [ { opcode := some .switch, uid := 0 },
      { opcode := some .other, uid := 1, mnemonic := .str "ret" } ]

/-- A dispatch without an operand is written out with an empty sequence, which a document
    shows. -/
theorem Method.bareDispatch_listed : (bareDispatch.code.map (·.uid)).Nodup
    ∧ ∃ g m' w', Graph.build bareDispatch Graph.usualTerminators = .ok g
      ∧ Work.reconstruct.run { graph := g, analysis := {} } = .ok m' w'
      ∧ Encoding.method m' ≠ Encoding.method bareDispatch := by
  refine ⟨by decide, _, _, _, rfl, rfl, fun hsame => ?_⟩
  cases hsame

end Untangle
