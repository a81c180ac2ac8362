/-
  Untangle.Proofs.Graph.Formed

  What holds of every graph on the way from a method to its replacement. Labels and uids
  are unique, blocks are straight-line code, branches name blocks, the first block is the
  entry, and handlers are runs of blocks. Everything is said about the outline and does not
  mention edges; that the stored edges are those of the outline is a property of its own.
-/
import Untangle.Proofs.Execution.Outline
import Untangle.Proofs.Lists

namespace Untangle

/-! ## Edges of an outline -/

/-- Whether code is left through its end: it is empty, or control can fall through its last
    instruction. -/
def fallsOut (terminators : List Value) (code : List Instruction) : Bool :=
  code.getLast?.all fun last => last.fallsThrough terminators

namespace Graph

/-- Control can go from the block with one label to the block with another: by a branch, or
    through the end of the block. -/
def Leads (g : Graph) (a l : Int) : Prop :=
  ∃ before c rest, g.outline = before ++ (a, c) :: rest
    ∧ ((∃ last, c.getLast? = some last ∧ ∃ t ∈ last.aims, t.wholeNumber? = some l)
      ∨ (fallsOut g.terminators c = true ∧ (Outline.labels rest).head? = some l))

/-- An edge comes from a label. -/
theorem Leads.mem_labels {g : Graph} {a l : Int} (h : g.Leads a l) : a ∈ g.labels := by
  obtain ⟨before, c, rest, hsplit, -⟩ := h
  rw [← Outline.labels_outline, hsplit, Outline.labels, List.map_append]
  exact List.mem_append_right _ List.mem_cons_self

/-- The stored edges are those of the outline. -/
structure Linked (g : Graph) : Prop where
  succs : ∀ b ∈ g.blocks, ∀ l, l ∈ b.succs ↔ g.Leads b.label l
  preds : ∀ b ∈ g.blocks, ∀ l, l ∈ b.preds ↔ g.Leads l b.label

/-- Labels are unique, and the stored edges lead to blocks, which say in turn where the edges
    come from. -/
structure Wired (g : Graph) : Prop where
  labels_nodup : g.labels.Nodup
  succs : ∀ b ∈ g.blocks, b.succs ⊆ g.labels
  preds : ∀ b ∈ g.blocks, ∀ c ∈ g.blocks, c.label ∈ b.succs → b.label ∈ c.preds

/-- What holds of every graph on the way from a method to its replacement. -/
structure Formed (g : Graph) : Prop where
  labels_nodup : g.labels.Nodup
  uids_nodup : (g.code.map (·.uid)).Nodup
  labels_fresh : ∀ l ∈ g.labels, l < g.fresh
  uids_fresh : ∀ ins ∈ g.code, ins.uid < g.fresh
  /-- An instruction that gives a label its number is in the block of the label. -/
  own : ∀ e ∈ g.outline, ∀ ins ∈ e.2, ins.uid ∈ g.labels → ins.uid = e.1
  straight : ∀ e ∈ g.outline, ∀ ins ∈ e.2.dropLast, ins.endsRun g.terminators = false
  targets : ∀ ins ∈ g.code, ∃ ts, ins.targets = .ok ts
    ∧ ∀ t ∈ ts, ∃ l ∈ g.labels, t.wholeNumber? = some l
  entry : ∀ b rest, g.blocks = b :: rest → b.isEntry = true ∧ ∀ c ∈ rest, c.isEntry = false
  handlers : ∀ s ∈ g.spans, s.handlerBlocks <:+: g.labels
  starts : ∀ s ∈ g.spans, ∃ l, s.handlerBlocks.head? = some l
    ∧ s.region.handlerStart.wholeNumber? = some l
  exits : ∀ r ∈ g.exits, r.uid < g.fresh
    ∧ ∀ ins ∈ g.code, ins.uid = r.uid → ins.opcode = some .leave

/-- A value that names a block or an instruction can be looked up. -/
theorem isKey_of_wholeNumber? {v : Value} {n : Int} (h : v.wholeNumber? = some n) :
    v.isKey = true := by
  cases v with
  | list items => cases h
  | tuple items => cases h
  | dict entries => cases h
  | _ => rfl

/-- A whole number that is no fraction is one. -/
theorem wholeNumber?_of_asInt? {v : Value} {n : Int} (h : v.asInt? = some n) :
    v.wholeNumber? = some n := by
  cases v with
  | float x => cases h
  | _ => exact h

/-! ## Blocks and the outline -/

theorem mem_outline_of_mem {g : Graph} {b : Block} (h : b ∈ g.blocks) :
    (b.label, b.code) ∈ g.outline :=
  List.mem_map_of_mem h

theorem mem_code_of_mem {g : Graph} {e : Int × List Instruction} (he : e ∈ g.outline)
    {ins : Instruction} (hins : ins ∈ e.2) : ins ∈ g.code := by
  rw [← Outline.code_outline]
  exact List.mem_flatMap.mpr ⟨e, he, hins⟩

theorem exists_block_of_mem {g : Graph} {e : Int × List Instruction} (h : e ∈ g.outline) :
    ∃ b ∈ g.blocks, b.label = e.1 ∧ b.code = e.2 := by
  obtain ⟨b, hb, rfl⟩ := List.mem_map.mp h
  exact ⟨b, hb, rfl, rfl⟩

theorem mem_labels_of_mem {g : Graph} {b : Block} (h : b ∈ g.blocks) : b.label ∈ g.labels :=
  List.mem_map_of_mem h

theorem hasBlock_iff {g : Graph} {label : Int} : g.hasBlock label = true ↔ label ∈ g.labels := by
  simp only [hasBlock, labels, List.any_eq_true, beq_iff_eq, List.mem_map]

/-- The block with a label is the one that is found. -/
theorem block?_of_mem {g : Graph} (hnodup : g.labels.Nodup) {b : Block} (h : b ∈ g.blocks) :
    g.block? b.label = some b :=
  find?_of_nodup (fun b : Block => b.label) hnodup h

/-- Blocks with one label are one. -/
theorem eq_of_label {g : Graph} (hnodup : g.labels.Nodup) {b c : Block} (hb : b ∈ g.blocks)
    (hc : c ∈ g.blocks) (h : b.label = c.label) : b = c :=
  List.inj_on_of_nodup_map hnodup hb hc h

theorem block?_eq_some {g : Graph} {label : Int} {b : Block} (h : g.block? label = some b) :
    b ∈ g.blocks ∧ b.label = label := by
  refine ⟨List.mem_of_find?_eq_some h, ?_⟩
  have := List.find?_some h
  simpa using this

/-- Labels in a row are those of blocks in a row. -/
theorem exists_row {g : Graph} (hnodup : g.labels.Nodup) {labels : List Int}
    (hrow : labels <:+: g.labels) :
    ∃ front run back, g.blocks = front ++ run ++ back ∧ run.map (·.label) = labels
      ∧ labels.filterMap g.block? = run := by
  obtain ⟨before, behind, hinfix⟩ := hrow
  rw [Graph.labels] at hinfix
  obtain ⟨blocks, back, hblocks, hleft, -⟩ := List.map_eq_append_iff.mp hinfix.symm
  obtain ⟨front, run, rfl, -, rfl⟩ := List.map_eq_append_iff.mp hleft
  refine ⟨front, run, back, hblocks, rfl, ?_⟩
  rw [List.filterMap_map]
  refine (List.filterMap_congr fun b hb => ?_).trans List.filterMap_some
  exact block?_of_mem hnodup (hblocks ▸ List.mem_append_left _ (List.mem_append_right _ hb))

/-- A graph with another outline of the same kind and all else as it was. -/
theorem Formed.congr {g g' : Graph} (h : g.Formed) (houtline : g'.outline = g.outline)
    (hentry : g'.blocks.map (·.isEntry) = g.blocks.map (·.isEntry))
    (hspans : g'.spans = g.spans) (hexits : g'.exits = g.exits)
    (hterminators : g'.terminators = g.terminators) (hfresh : g'.fresh = g.fresh) :
    g'.Formed := by
  have hlabels : g'.labels = g.labels := by
    rw [← Outline.labels_outline, houtline, Outline.labels_outline]
  have hcode : g'.code = g.code := by
    rw [← Outline.code_outline, houtline, Outline.code_outline]
  constructor
  · exact hlabels ▸ h.labels_nodup
  · exact hcode ▸ h.uids_nodup
  · rw [hlabels, hfresh]; exact h.labels_fresh
  · rw [hcode, hfresh]; exact h.uids_fresh
  · rw [houtline, hlabels]; exact h.own
  · rw [houtline, hterminators]; exact h.straight
  · rw [hcode, hlabels]; exact h.targets
  · intro b' rest' hblocks'
    rw [hblocks'] at hentry
    cases hblocks : g.blocks with
    | nil => rw [hblocks] at hentry; cases hentry
    | cons b rest =>
      rw [hblocks, List.map_cons, List.map_cons] at hentry
      obtain ⟨hb, hrest⟩ := List.cons.inj hentry
      obtain ⟨hfirst, hothers⟩ := h.entry b rest hblocks
      refine ⟨hb.trans hfirst, fun c' hc' => ?_⟩
      have hflag : c'.isEntry ∈ rest.map (·.isEntry) := hrest ▸ List.mem_map_of_mem hc'
      obtain ⟨c, hc, hsame⟩ := List.mem_map.mp hflag
      exact hsame ▸ hothers c hc
  · rw [hspans, hlabels]; exact h.handlers
  · rw [hspans]; exact h.starts
  · rw [hexits, hcode, hfresh]; exact h.exits

/-- The blocks of a place are found by the label of the first one. -/
theorem from?_of_split {o before rest : Outline} {e : Int × List Instruction}
    (hnodup : o.labels.Nodup) (hsplit : o = before ++ e :: rest) :
    o.from? e.1 = some (e :: rest) := by
  rw [hsplit] at hnodup ⊢
  refine Outline.from?_append e.2 fun hmem => ?_
  rw [Outline.labels, List.map_append, List.nodup_append] at hnodup
  exact hnodup.2.2 _ hmem _ List.mem_cons_self rfl

/-- An outline is cut in one way only at a label. -/
theorem split_unique {o before before' rest rest' : Outline} {a : Int}
    {c c' : List Instruction} (hnodup : o.labels.Nodup) (heq : o = before ++ (a, c) :: rest)
    (heq' : o = before' ++ (a, c') :: rest') : c = c' ∧ rest = rest' := by
  have := (from?_of_split (e := (a, c)) hnodup heq).symm.trans
    (from?_of_split (e := (a, c')) hnodup heq')
  simp only [Option.some.injEq, List.cons.injEq, Prod.mk.injEq, true_and] at this
  exact this

/-- Where control can go from a block that is known. -/
theorem leads_iff {g : Graph} (hnodup : g.outline.labels.Nodup) {before rest : Outline}
    {a : Int} {c : List Instruction} (hsplit : g.outline = before ++ (a, c) :: rest) (l : Int) :
    g.Leads a l
      ↔ (∃ last, c.getLast? = some last ∧ ∃ t ∈ last.aims, t.wholeNumber? = some l)
        ∨ (fallsOut g.terminators c = true ∧ (Outline.labels rest).head? = some l) := by
  constructor
  · rintro ⟨before', c', rest', hsplit', hway⟩
    obtain ⟨rfl, rfl⟩ := split_unique hnodup hsplit hsplit'
    exact hway
  · exact fun hway => ⟨before, c, rest, hsplit, hway⟩

namespace Formed

variable {g : Graph}

theorem outline_nodup (h : g.Formed) : g.outline.labels.Nodup := by
  rw [Outline.labels_outline]
  exact h.labels_nodup

theorem block_uids_nodup (h : g.Formed) {b : Block} (hb : b ∈ g.blocks) :
    (b.code.map (·.uid)).Nodup :=
  h.uids_nodup.sublist ((List.sublist_flatten_of_mem (List.mem_map_of_mem hb)).map _)

theorem targets_ok (h : g.Formed) {ins : Instruction} (hins : ins ∈ g.code) :
    ins.targets = .ok ins.aims := by
  obtain ⟨ts, hts, -⟩ := h.targets ins hins
  simp [Instruction.aims, hts, Except.toOption]

/-- Every target is the label of a block. -/
theorem aims (h : g.Formed) {ins : Instruction} (hins : ins ∈ g.code) {t : Value}
    (ht : t ∈ ins.aims) : ∃ l ∈ g.labels, t.wholeNumber? = some l := by
  obtain ⟨ts, hts, htargets⟩ := h.targets ins hins
  rw [h.targets_ok hins] at hts
  cases hts
  exact htargets t ht

/-- Targets are numbers, so a copy of an instruction has the same. -/
theorem aims_copy (h : g.Formed) {ins : Instruction} (hins : ins ∈ g.code) :
    ins.copy.aims = ins.aims := by
  refine Instruction.aims_copy (Or.inl fun t ht => ?_)
  obtain ⟨l, -, hl⟩ := h.aims hins ht
  rw [hl]
  rfl

theorem checkTargets (h : g.Formed) {ins : Instruction} (hins : ins ∈ g.code) :
    ins.checkTargets = .ok () := by
  have hkey (t : Value) (ht : t ∈ ins.aims) : t.asKey = .ok t := by
    obtain ⟨l, -, hl⟩ := h.aims hins ht
    rw [Value.asKey, if_pos (isKey_of_wholeNumber? hl)]
  unfold Instruction.checkTargets
  rw [h.targets_ok hins]
  have hall : ins.aims.mapM Value.asKey = .ok ins.aims :=
    mapM_eq_ok.mpr (List.forall₂_same.mpr hkey)
  show (do let _ ← ins.aims.mapM Value.asKey; pure ()) = _
  rw [hall]
  rfl

/-- Only the last instruction of a block has targets. -/
theorem eq_last (h : g.Formed) {e : Int × List Instruction} (he : e ∈ g.outline)
    {ins : Instruction} (hins : ins ∈ e.2) (hends : ins.endsRun g.terminators = true) :
    e.2.getLast? = some ins :=
  getLast?_of_mem (h.straight e he) hins hends

/-- An edge leads to a label. -/
theorem mem_labels_of_leads (h : g.Formed) {a l : Int} (hl : g.Leads a l) : l ∈ g.labels := by
  obtain ⟨before, c, rest, hsplit, ⟨last, hlast, t, ht, htl⟩ | ⟨-, hhead⟩⟩ := hl
  · have hin : last ∈ g.code := mem_code_of_mem (e := (a, c))
      (hsplit ▸ List.mem_append_right _ List.mem_cons_self) (List.mem_of_getLast? hlast)
    obtain ⟨l', hl', htl'⟩ := h.aims hin ht
    rw [htl] at htl'
    cases htl'
    exact hl'
  · rw [← Outline.labels_outline, hsplit, Outline.labels, List.map_append]
    exact List.mem_append_right _ (List.mem_cons_of_mem _ (List.mem_of_mem_head? hhead))

/-- Stored edges that are those of the outline lead to blocks. -/
theorem wired (h : g.Formed) (hlinked : g.Linked) : g.Wired where
  labels_nodup := h.labels_nodup
  succs b hb l hl := h.mem_labels_of_leads ((hlinked.succs b hb l).mp hl)
  preds b hb c hc hl := (hlinked.preds c hc b.label).mpr ((hlinked.succs b hb c.label).mp hl)

/-- The labels that a block is computed to lead to. -/
theorem mem_successors (h : g.Formed) {b : Block} (hb : b ∈ g.blocks) (l : Int) :
    l ∈ g.successors b ↔ g.Leads b.label l := by
  have hmem := mem_outline_of_mem hb
  obtain ⟨before, rest, hsplit⟩ := List.append_of_mem hmem
  -- What a branch at the end names, and what comes behind the end.
  have hbranch (last : Instruction) (hlast : b.code.getLast? = some last) :
      l ∈ last.targetUids.filterMap g.landing? ↔ ∃ t ∈ last.aims, t.wholeNumber? = some l := by
    have hin := mem_code_of_mem hmem (List.mem_of_getLast? hlast)
    have hlanding (t : Value) (ht : t ∈ last.aims) (n : Int) (hn : t.wholeNumber? = some n) :
        g.landing? n = some n := by
      obtain ⟨l', hl', htl'⟩ := h.aims hin ht
      rw [hn] at htl'
      cases htl'
      rw [landing?, hasBlock_iff.mpr hl']
      rfl
    unfold Instruction.targetUids
    rw [h.targets_ok hin]
    simp only [List.mem_filterMap]
    constructor
    · rintro ⟨n, ⟨t, ht, hn⟩, hl⟩
      rw [hlanding t ht n hn] at hl
      cases hl
      exact ⟨t, ht, hn⟩
    · rintro ⟨t, ht, hn⟩
      exact ⟨l, ⟨t, ht, hn⟩, hlanding t ht l hn⟩
  have hnext : g.nextLabel? b.label = some l ↔ (Outline.labels rest).head? = some l := by
    have hlabels : g.labels = Outline.labels before ++ b.label :: Outline.labels rest := by
      rw [← Outline.labels_outline, hsplit, Outline.labels, List.map_append]
      rfl
    rw [nextLabel?, labelAfter?_eq_some h.labels_nodup]
    constructor
    · rintro ⟨pre, post, heq⟩
      have hnodup := h.labels_nodup
      rw [hlabels] at heq hnodup
      rw [(append_cons_inj_of_nodup hnodup heq).2]
      rfl
    · intro hhead
      obtain ⟨post, hpost⟩ := List.head?_eq_some_iff.mp hhead
      exact ⟨Outline.labels before, post, by rw [hlabels, hpost]⟩
  rw [leads_iff h.outline_nodup hsplit]
  unfold successors Block.last?
  rw [mem_distinct, List.mem_append]
  cases hlast : b.code.getLast? with
  | none =>
    have hfalls : fallsOut g.terminators b.code = true := by simp [fallsOut, hlast]
    simp [hfalls, hnext]
  | some last =>
    have hfalls : fallsOut g.terminators b.code = last.fallsThrough g.terminators := by
      simp [fallsOut, hlast]
    rw [hfalls]
    dsimp only
    rw [hbranch last hlast]
    refine or_congr ⟨fun hway => ⟨last, rfl, hway⟩, ?_⟩ ?_
    · rintro ⟨last', hlast', hway⟩
      cases hlast'
      exact hway
    · by_cases hthrough : last.fallsThrough g.terminators = true
      · simp [hthrough, hnext]
      · simp [hthrough]

/-- Where code is run through to its end, an edge leads to the block behind it. -/
theorem leads_of_next {P : Platform} (hP : P.terminators = g.terminators)
    {before rest : Outline} {e e' : Int × List Instruction}
    (hsplit : g.outline = before ++ e :: e' :: rest) {σ τ : Moment}
    (hall : Instruction.actAll P e.2 σ = .next τ) : g.Leads e.1 e'.1 := by
  refine ⟨before, e.2, e' :: rest, hsplit, Or.inr ⟨?_, rfl⟩⟩
  unfold fallsOut
  cases hlast : e.2.getLast? with
  | none => rfl
  | some last =>
    rw [← hP]
    exact Instruction.fallsThrough_of_actAll hall hlast

/-- Where code is left by a jump, an edge leads to the block that the target labels. -/
theorem leads_of_jump (h : g.Formed) {P : Platform} {e : Int × List Instruction}
    (he : e ∈ g.outline) {σ τ : Moment} {t : Value}
    (hall : Instruction.actAll P e.2 σ = .jump t τ) :
    ∃ l ∈ g.labels, t.wholeNumber? = some l ∧ g.Leads e.1 l := by
  obtain ⟨ins, hins, hbranch, ht⟩ := Instruction.mem_aims_of_actAll hall
  have hcode := mem_code_of_mem he hins
  rw [h.aims_copy hcode] at ht
  obtain ⟨l, hl, htl⟩ := h.aims hcode ht
  have hlast := h.eq_last he hins (by simp [Instruction.endsRun, hbranch])
  obtain ⟨before, rest, hsplit⟩ := List.append_of_mem he
  exact ⟨l, hl, htl, before, e.2, rest, hsplit, Or.inl ⟨ins, hlast, t, ht, htl⟩⟩

/-- A property of the states in front of the blocks that goes along the edges. -/
theorem keeps (h : g.Formed) {P : Platform} (hP : P.terminators = g.terminators)
    {inv : Int → Moment → Prop}
    (hinv : ∀ e ∈ g.outline, ∀ l, g.Leads e.1 l → ∀ σ τ, inv e.1 σ →
      (Instruction.actAll P e.2 σ = .next τ ∨ ∃ t, Instruction.actAll P e.2 σ = .jump t τ) →
      inv l τ) : Outline.Keeps P g.outline inv where
  next before e e' rest hsplit σ τ hσ hall :=
    hinv e (hsplit ▸ List.mem_append_right _ List.mem_cons_self) e'.1
      (leads_of_next hP hsplit hall) σ τ hσ (Or.inl hall)
  jump e he σ t τ l hσ hall ht _ := by
    obtain ⟨l', -, ht', hleads⟩ := h.leads_of_jump he hall
    rw [ht] at ht'
    cases ht'
    exact hinv e he l hleads σ τ hσ (Or.inr ⟨t, hall⟩)

/-! ## Edges computed afresh -/

theorem followable_eq (h : g.Formed) : g.followable = g.blocks := by
  unfold followable
  rw [List.takeWhile_eq_self_iff]
  intro b hb
  unfold Block.last?
  cases hlast : b.code.getLast? with
  | none => rfl
  | some last =>
    have hin := mem_code_of_mem (mem_outline_of_mem hb) (List.mem_of_getLast? hlast)
    show last.checkTargets.isOk = true
    rw [h.checkTargets hin]
    rfl

end Formed

@[simp] theorem connected_outline (g : Graph) : g.connected.outline = g.outline := by
  simp [connected, withEdges, outline, Function.comp_def]

@[simp] theorem connected_labels (g : Graph) : g.connected.labels = g.labels := by
  simp [connected, withEdges, labels, Function.comp_def]

@[simp] theorem connected_code (g : Graph) : g.connected.code = g.code := by
  rw [← Outline.code_outline, connected_outline, Outline.code_outline]

/-- The targets of all blocks can be looked up if those of all instructions can. -/
theorem checkLasts_of_code {g : Graph} (h : ∀ ins ∈ g.code, ins.checkTargets = .ok ()) :
    g.checkLasts = .ok () := by
  refine forM_eq_ok.mpr fun b hb => ?_
  unfold Block.last?
  cases hlast : b.code.getLast? with
  | none => rfl
  | some last => exact h last (mem_code_of_mem (mem_outline_of_mem hb) (List.mem_of_getLast? hlast))

/-- The edges of a well-formed graph can be looked up. -/
theorem Formed.checkLasts {g : Graph} (h : g.Formed) : g.checkLasts = .ok () :=
  checkLasts_of_code fun _ hins => h.checkTargets hins

theorem Formed.checkAll {g : Graph} (h : g.Formed) : g.checkTargets = .ok () :=
  forM_eq_ok.mpr fun _ hins => h.checkTargets hins

theorem Formed.connected {g : Graph} (h : g.Formed) : g.connected.Formed := by
  refine h.congr (connected_outline g) ?_ rfl rfl rfl rfl
  simp [Graph.connected, withEdges, Function.comp_def]

/-- Whether an edge leads from one label to another depends on the outline only. -/
theorem leads_congr {g g' : Graph} (houtline : g'.outline = g.outline)
    (hterminators : g'.terminators = g.terminators) (a l : Int) :
    g'.Leads a l ↔ g.Leads a l := by
  unfold Leads
  rw [houtline, hterminators]

/-- Edges computed afresh are those of the outline. -/
theorem Formed.linked {g : Graph} (h : g.Formed) : g.connected.Linked := by
  have hlinks : g.connected = g.withEdges (g.blocks.map fun b => (b.label, g.successors b)) := by
    rw [Graph.connected, h.followable_eq]
  have hleads := leads_congr (connected_outline g) (show g.connected.terminators = _ from rfl)
  constructor
  · intro b' hb' l
    rw [hlinks] at hb'
    obtain ⟨b, hb, rfl⟩ := List.mem_map.mp hb'
    rw [hleads]
    dsimp only
    rw [lookup_map_of_nodup _ _ h.labels_nodup hb]
    exact h.mem_successors hb l
  · intro b' hb' l
    rw [hlinks] at hb'
    obtain ⟨b, hb, rfl⟩ := List.mem_map.mp hb'
    rw [hleads]
    dsimp only
    simp only [List.mem_map, List.mem_filter, List.contains_iff_mem]
    constructor
    · rintro ⟨_, ⟨⟨c, hc, rfl⟩, hin⟩, rfl⟩
      exact (h.mem_successors hc b.label).mp hin
    · intro hl
      obtain ⟨before, code, rest, hsplit, -⟩ := id hl
      have hmem : (l, code) ∈ g.outline := hsplit ▸ List.mem_append_right _ List.mem_cons_self
      obtain ⟨c, hc, rfl, -⟩ := exists_block_of_mem hmem
      exact ⟨_, ⟨⟨c, hc, rfl⟩, (h.mem_successors hc b.label).mpr hl⟩, rfl⟩

end Graph

end Untangle
