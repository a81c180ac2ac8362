/-
  Untangle.Proofs.Renaming.Build

  Cutting a method with another numbering into blocks. Blocks start at the same places, so the
  graphs differ by their numbering only; and where one method is refused the other is too, over
  defects of the same kinds. The number of the next new instruction is not a renamed one: it comes
  after all that are there.
-/
import Untangle.Proofs.Graph.Build
import Untangle.Proofs.Renaming.Reconcile

namespace Untangle

/-- The kinds of the defects that a fault is over, if it is over defects. -/
def Fault.kinds : Fault → Option (List IssueKind)
  | .inconsistent issues => some (issues.map (·.kind))
  | _ => none

/-- Two results that are related, or two failures over defects of the same kinds. -/
inductive Coincide {α β : Type} (R : α → β → Prop) : Except Fault α → Except Fault β → Prop where
  | ok {a : α} {b : β} (h : R a b) : Coincide R (.ok a) (.ok b)
  | error {f f' : Fault} (h : f'.kinds = f.kinds) : Coincide R (.error f) (.error f')

namespace Coincide

variable {α β γ δ : Type} {P : α → β → Prop} {R : γ → δ → Prop}

theorem refl (x : Except Fault α) : Coincide (· = ·) x x := by
  cases x with
  | ok a => exact .ok rfl
  | error f => exact .error rfl

theorem bind {x : Except Fault α} {y : Except Fault β} {f : α → Except Fault γ}
    {f' : β → Except Fault δ} (h : Coincide P x y)
    (hf : ∀ a b, P a b → Coincide R (f a) (f' b)) : Coincide R (x >>= f) (y >>= f') := by
  cases h with
  | ok h => exact hf _ _ h
  | error h => exact .error h

theorem forM {items : List α} {items' : List β} {f : α → Except Fault Unit}
    {f' : β → Except Fault Unit} (h : List.Forall₂ P items items')
    (hf : ∀ a b, P a b → Coincide (· = ·) (f a) (f' b)) :
    Coincide (· = ·) (items.forM f) (items'.forM f') := by
  induction h with
  | nil => exact .ok rfl
  | cons hab _ ih => exact (hf _ _ hab).bind fun _ _ _ => ih

theorem mapM {items : List α} {items' : List β} {f : α → Except Fault γ} {f' : β → Except Fault δ}
    (h : List.Forall₂ P items items') (hf : ∀ a b, P a b → Coincide R (f a) (f' b)) :
    Coincide (List.Forall₂ R) (items.mapM f) (items'.mapM f') := by
  induction h with
  | nil => exact .ok .nil
  | cons hab _ ih =>
    rw [List.mapM_cons, List.mapM_cons]
    exact (hf _ _ hab).bind fun _ _ hr => ih.bind fun _ _ hrest => .ok (.cons hr hrest)

theorem filterMapM {items : List α} {items' : List β} {f : α → Except Fault (Option γ)}
    {f' : β → Except Fault (Option δ)} (h : List.Forall₂ P items items')
    (hf : ∀ a b, P a b → Coincide (Option.Rel R) (f a) (f' b)) :
    Coincide (List.Forall₂ R) (items.filterMapM f) (items'.filterMapM f') := by
  induction h with
  | nil => exact .ok .nil
  | cons hab _ ih =>
    rw [List.filterMapM_cons, List.filterMapM_cons]
    refine (hf _ _ hab).bind fun _ _ hr => ?_
    cases hr with
    | none => exact ih
    | some hr => exact ih.bind fun _ _ hrest => .ok (.cons hr hrest)

end Coincide

namespace Renaming

open Graph

variable (σ : Renaming) {code : List Instruction}

/-! ## What is refused -/

/-- A value is looked up, or it cannot be, under its other number too. -/
theorem asKey (v : Value) : Coincide (fun w w' => w = v ∧ w' = σ.value v) (Fault.lift v.asKey)
    (Fault.lift (σ.value v).asKey) := by
  rw [value_asKey]
  unfold Value.asKey
  split
  · exact .ok ⟨rfl, rfl⟩
  · exact .error rfl

theorem boundaryPlace {v : Value} (h : v.Follows σ) (index : Nat) (name : String) :
    Coincide (· = ·) (Graph.boundaryPlace code index name v)
      (Graph.boundaryPlace (code.map σ.instruction) index name (σ.value v)) := by
  unfold Graph.boundaryPlace
  refine (σ.asKey v).bind ?_
  rintro _ _ ⟨rfl, rfl⟩
  rw [σ.placeOf? h]
  cases Method.placeOf? code _ with
  | none => exact .error rfl
  | some p => exact .ok rfl

theorem regionRange {r : Region} (h : r.Follows σ) (index : Nat) :
    Coincide (· = ·) (Graph.regionRange code index r)
      (Graph.regionRange (code.map σ.instruction) index (σ.region r)) := by
  obtain ⟨hts, hte, hhs, hhe⟩ := h.boundaries
  unfold Graph.regionRange
  refine (σ.boundaryPlace hts index _).bind fun a _ ha => ?_
  refine (σ.boundaryPlace hte index _).bind fun b _ hb => ?_
  refine (σ.boundaryPlace hhs index _).bind fun c _ hc => ?_
  refine (σ.boundaryPlace hhe index _).bind fun d _ hd => ?_
  subst ha hb hc hd
  exact .refl _

/-- A target that is refused is refused under its other number. -/
theorem checkTarget {t : Value} (h : t.Follows σ) (ins : Instruction) :
    Coincide (· = ·)
      (do let t ← t.asKey
          if (Method.placeOf? code t).isNone then throw (danglingBranch ins) : Except Fault Unit)
      (do let t ← (σ.value t).asKey
          if (Method.placeOf? (code.map σ.instruction) t).isNone then
            throw (danglingBranch (σ.instruction ins))) := by
  refine (σ.asKey t).bind ?_
  rintro _ _ ⟨rfl, rfl⟩
  rw [σ.placeOf? h]
  split
  · exact .error rfl
  · exact .ok rfl

theorem checkFlow {ins : Instruction} (h : ins.Follows σ) :
    Coincide (· = ·) (Graph.checkFlow code ins)
      (Graph.checkFlow (code.map σ.instruction) (σ.instruction ins)) := by
  have htargets : Coincide (List.Forall₂ fun t t' => t.Follows σ ∧ t' = σ.value t)
      (Fault.lift ins.targets) (Fault.lift (σ.instruction ins).targets) := by
    rw [instruction_targets]
    cases hts : ins.targets with
    | error e => exact .error rfl
    | ok ts =>
      refine .ok (List.forall₂_map_right_iff.mpr (List.forall₂_same.mpr fun t ht => ⟨?_, rfl⟩))
      refine h t ?_
      rw [Instruction.aims, hts]
      exact ht
  unfold Graph.checkFlow
  refine htargets.bind fun ts ts' hts => ?_
  refine Coincide.bind (.forM hts fun t t' ht => ?_) fun _ _ _ => .refl _
  rw [ht.2]
  exact σ.checkTarget ht.1 ins

/-- The same exits are recorded. -/
theorem exitRecord (ranges : List RegionRange) (ins : Instruction) (place : Nat) :
    Coincide (Option.Rel fun e e' => e' = σ.exit e) (Graph.exitRecord code ranges ins place)
      (Graph.exitRecord (code.map σ.instruction) ranges (σ.instruction ins) place) := by
  unfold Graph.exitRecord
  rw [instruction_opcode]
  split
  · exact .ok .none
  rename_i hop
  rw [bne_iff_ne, ne_eq, Decidable.not_not] at hop
  cases RegionRange.innermost? place ranges with
  | none => exact .ok .none
  | some index =>
    have htarget : (σ.instruction ins).operand.toValue.asInt?.bind
          (Method.place? (code.map σ.instruction))
        = ins.operand.toValue.asInt?.bind (Method.place? code) := by
      rw [σ.leave_operand hop, value_asInt?]
      cases ins.operand.toValue.asInt? with
      | none => rfl
      | some u => exact σ.place? code u
    dsimp only
    rw [htarget]
    cases ins.operand.toValue.asInt?.bind (Method.place? code) with
    | none => exact .error rfl
    | some target =>
      cases ranges[index]? with
      | none => exact .error rfl
      | some r => exact .ok (.some rfl)

/-! ## Where blocks start -/

theorem blockStarts (h : ∀ ins ∈ code, ins.Follows σ) (ranges : List RegionRange)
    (terminators : List Value) :
    Graph.blockStarts (code.map σ.instruction) ranges terminators
      = Graph.blockStarts code ranges terminators := by
  have htargets : ((code.map σ.instruction).flatMap fun ins =>
        ins.targetUids.filterMap (Method.place? (code.map σ.instruction)))
      = code.flatMap fun ins => ins.targetUids.filterMap (Method.place? code) := by
    rw [List.flatMap_map]
    refine List.flatMap_congr fun ins hins => ?_
    rw [σ.instruction_targetUids (h ins hins), List.filterMap_map]
    exact List.filterMap_congr fun u _ => σ.place? code u
  have hends (p : Nat) : ((code.map σ.instruction)[p - 1]?).any (fun ins => ins.endsRun terminators)
      = (code[p - 1]?).any fun ins => ins.endsRun terminators := by
    rw [List.getElem?_map]
    cases code[p - 1]? <;> rfl
  unfold Graph.blockStarts
  rw [htargets, List.length_map]
  refine List.filter_congr fun p _ => ?_
  unfold Graph.isStart
  rw [hends]

theorem runsFrom (code : List Instruction) (starts : List Nat) :
    Graph.runsFrom (code.map σ.instruction) starts
      = (Graph.runsFrom code starts).map fun run => (run.1, run.2.map σ.instruction) := by
  induction starts with
  | nil => rfl
  | cons start rest ih =>
    rw [Graph.runsFrom, Graph.runsFrom, List.map_cons, ih, List.length_map, List.map_take,
      List.map_drop]

theorem blockOf (run : Nat × List Instruction) :
    Graph.blockOf (run.1, run.2.map σ.instruction) = (Graph.blockOf run).map σ.block := by
  unfold Graph.blockOf
  dsimp only
  rw [List.head?_map]
  cases run.2.head? <;> rfl

theorem labelsWithin (code : List Instruction) (starts : List Nat) (range : Int × Int) :
    Graph.labelsWithin (code.map σ.instruction) starts range
      = (Graph.labelsWithin code starts range).map σ := by
  unfold Graph.labelsWithin
  rw [List.map_filterMap]
  refine List.filterMap_congr fun p _ => ?_
  rw [List.getElem?_map]
  cases code[p]? <;> rfl

/-! ## The graph -/

/-- The graph of a method with another numbering. New instructions are numbered on from what is
    there. -/
def rebuilt (m : Method) (g : Graph) : Graph :=
  { σ.graph g with fresh := Method.freshUid (m.code.map σ.instruction) }

theorem spanOf (code : List Instruction) (starts : List Nat) (r : Region) (range : RegionRange) :
    Graph.spanOf (code.map σ.instruction) starts (σ.region r) range
      = σ.span (Graph.spanOf code starts r range) := by
  unfold Graph.spanOf
  rw [labelsWithin, labelsWithin]
  rfl

theorem cut {m : Method} (h : m.Follows σ) (terminators : List Value) (ranges : List RegionRange)
    (exits : List ExitRecord) :
    Graph.cut (σ.method m) terminators ranges (exits.map σ.exit)
      = σ.rebuilt m (Graph.cut m terminators ranges exits) := by
  have hstarts := σ.blockStarts h.code ranges terminators
  have hblocks : (Graph.runsFrom (m.code.map σ.instruction)
        (Graph.blockStarts m.code ranges terminators)).filterMap Graph.blockOf
      = ((Graph.runsFrom m.code (Graph.blockStarts m.code ranges terminators)).filterMap
          Graph.blockOf).map σ.block := by
    rw [runsFrom, List.filterMap_map, List.map_filterMap]
    exact List.filterMap_congr fun run _ => σ.blockOf run
  have hspans (starts : List Nat) :
      ((m.regions.map σ.region).zip ranges).map (fun r =>
          Graph.spanOf (m.code.map σ.instruction) starts r.1 r.2)
        = ((m.regions.zip ranges).map fun r =>
            Graph.spanOf m.code starts r.1 r.2).map σ.span := by
    rw [List.zip_map_left, List.map_map, List.map_map]
    exact List.map_congr_left fun r _ => σ.spanOf m.code starts r.1 r.2
  show Graph.mk _ _ _ _ _ _ _ = Graph.mk _ _ _ _ _ _ _
  rw [show (σ.method m).code = m.code.map σ.instruction from rfl, hstarts, hblocks]
  exact congrArg (fun spans => { σ.rebuilt m (Graph.cut m terminators ranges exits) with spans })
    (hspans _)

theorem follows_cut {m : Method} (h : m.Follows σ) {terminators : List Value}
    {ranges : List RegionRange} {exits : List ExitRecord} :
    (Graph.cut m terminators ranges exits).Follows σ := by
  refine ⟨fun ins hins => h.code ins (cut_code m terminators ranges exits ▸ hins), fun s hs => ?_⟩
  obtain ⟨e, he, rfl⟩ := List.mem_map.mp hs
  exact h.regions e.1 (List.of_mem_zip he).1

/-- Both methods are cut into blocks alike, or both are refused. -/
theorem build {m : Method} (h : m.Follows σ) (terminators : List Value) :
    Coincide (fun g g' => g' = σ.rebuilt m g) (Graph.build m terminators)
      (Graph.build (σ.method m) terminators) := by
  have hregions : List.Forall₂ (fun e e' : Region × Nat => e.1.Follows σ ∧ e' = (σ.region e.1, e.2))
      m.regions.zipIdx (m.regions.map σ.region).zipIdx := by
    rw [List.zipIdx_map, List.forall₂_map_right_iff]
    exact List.forall₂_same.mpr fun e he => ⟨h.regions e.1 (List.fst_mem_of_mem_zipIdx he), rfl⟩
  have hcode : List.Forall₂ (fun i i' => i.Follows σ ∧ i' = σ.instruction i) m.code
      (m.code.map σ.instruction) :=
    List.forall₂_map_right_iff.mpr (List.forall₂_same.mpr fun i hi => ⟨h.code i hi, rfl⟩)
  have hplaces : List.Forall₂ (fun e e' : Instruction × Nat => e' = (σ.instruction e.1, e.2))
      m.code.zipIdx (m.code.map σ.instruction).zipIdx := by
    rw [List.zipIdx_map, List.forall₂_map_right_iff]
    exact List.forall₂_same.mpr fun _ _ => rfl
  unfold Graph.build
  refine (Coincide.refl _).bind fun _ _ _ => ?_
  refine (Coincide.mapM (R := (· = ·)) hregions fun e e' he => ?_).bind
    fun ranges ranges' hranges => ?_
  · rw [he.2]
    exact σ.regionRange he.1 e.2
  rw [List.forall₂_eq_eq_eq] at hranges
  subst hranges
  refine (Coincide.forM hcode fun i i' hi => ?_).bind fun _ _ _ => ?_
  · rw [hi.2]
    exact σ.checkFlow hi.1
  refine (Coincide.filterMapM (R := fun e e' => e' = σ.exit e) hplaces fun e e' he => ?_).bind
    fun exits exits' hexits => ?_
  · rw [he]
    exact σ.exitRecord ranges e.1 e.2
  have hexits : exits' = exits.map σ.exit := by
    induction hexits with
    | nil => rfl
    | cons he _ ih => rw [he, ih, List.map_cons]
  subst hexits
  refine .ok ?_
  show (Graph.cut (σ.method m) terminators ranges (exits.map σ.exit)).connected
    = σ.rebuilt m (Graph.cut m terminators ranges exits).connected
  rw [σ.cut h]
  exact congrArg (fun c => { c with fresh := Method.freshUid (m.code.map σ.instruction) })
    (σ.graph_connected (σ.follows_cut h))

end Renaming

end Untangle
