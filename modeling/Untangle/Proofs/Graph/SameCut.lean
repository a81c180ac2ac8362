/-
  Untangle.Proofs.Graph.SameCut

  A graph and the graph that its own method is cut into. When the blocks of a graph are cut
  where its code calls for it, the two hold the same code block by block, the same blocks in each
  range and the same edges, and differ in the names of the blocks only (`SameCut`,
  `Formed.sameCut`). Joining leaves the method of a graph as it is (`Formed.merged_tightMethod`).
-/
import Untangle.Proofs.Graph.Apart
import Untangle.Proofs.Graph.WellCut
import Untangle.Proofs.Graph.Relinked

namespace Untangle

namespace Graph

variable {g r : Graph}

/-- Two graphs are cut in the same places, up to the names of blocks. -/
structure SameCut (name : Int → Int) (g r : Graph) : Prop where
  /-- Names tell blocks apart. -/
  distinct : ∀ a ∈ g.labels, ∀ b ∈ g.labels, name a = name b → a = b
  outline : r.outline = g.outline.map fun e => (name e.1, e.2)
  entries : r.blocks.map (·.isEntry) = g.blocks.map (·.isEntry)
  succs : ∀ b ∈ g.blocks, ∀ c ∈ r.blocks, c.label = name b.label →
    ∀ l, l ∈ c.succs ↔ ∃ k ∈ b.succs, name k = l
  preds : ∀ b ∈ g.blocks, ∀ c ∈ r.blocks, c.label = name b.label →
    ∀ l, l ∈ c.preds ↔ ∃ k ∈ b.preds, name k = l
  spans : List.Forall₂ (fun s t => t.handlerBlocks = s.handlerBlocks.map name
    ∧ (s.tryBlocks ≠ [] → t.tryBlocks = s.tryBlocks.map name)) g.spans r.spans

/-! ## Branches pointed at live instructions -/

/-- The uid of the instruction that is live behind a label. -/
def liveUid (g : Graph) (l : Int) : Int := (g.liveTarget? l).getD l

theorem Formed.liveUid_eq (h : g.Formed) {b : Block} (hb : b ∈ g.blocks) {first : Instruction}
    {rest : List Instruction} (hcode : b.code = first :: rest) :
    g.liveUid b.label = first.uid := by
  rw [liveUid, h.liveTarget?_first hb hcode]
  rfl

/-- A target is pointed at what is live behind the label that it names. -/
theorem Formed.relinkTarget_names (h : g.Formed) (hfilled : g.Filled) {ins : Instruction}
    (hins : ins ∈ g.code) {t : Value} (ht : t ∈ ins.aims) :
    ∃ l ∈ g.labels, t.wholeNumber? = some l
      ∧ (g.relinkTarget t).wholeNumber? = some (g.liveUid l) := by
  obtain ⟨l, hl, hnames⟩ := h.aims hins ht
  obtain ⟨b, hb, rfl⟩ := List.mem_map.mp hl
  obtain ⟨first, rest, hcode⟩ := List.exists_cons_of_ne_nil (hfilled b hb)
  refine ⟨b.label, hl, hnames, ?_⟩
  rw [h.liveUid_eq hb hcode]
  exact relinkTarget_of_live hnames (h.liveTarget?_first hb hcode)

/-- A relinked target names the first instruction of a relinked block. -/
theorem Formed.relinkTarget_first (h : g.Formed) (hfilled : g.Filled) {t : Value} {b : Block}
    (hb : b ∈ g.blocks) (hnames : t.wholeNumber? = some b.label) :
    ∃ first rest, b.code.map g.relinkInstruction = first :: rest
      ∧ (g.relinkTarget t).wholeNumber? = some first.uid := by
  obtain ⟨first, rest, hfirst⟩ := List.exists_cons_of_ne_nil (hfilled b hb)
  refine ⟨g.relinkInstruction first, rest.map g.relinkInstruction, by rw [hfirst]; rfl, ?_⟩
  rw [relinkInstruction_uid]
  exact relinkTarget_of_live hnames (h.liveTarget?_first hb hfirst)

/-- The target of a relinked exit is an integer, if it was one. -/
theorem relinkInstruction_leave {ins : Instruction} (hop : ins.opcode = some .leave)
    (hint : ins.operand.toValue.asInt?.isSome) :
    (g.relinkInstruction ins).operand.toValue.asInt?.isSome := by
  have hbranch : ins.isBranch = true := by unfold Instruction.isBranch; rw [hop]; rfl
  rw [show (g.relinkInstruction ins).operand = _ from
    Instruction.retarget_single _ hbranch (by rw [hop]; decide)]
  split
  · exact hint
  · exact relinkTarget_asInt? hint

theorem relinkInstruction_endsRun (g : Graph) (ins : Instruction) :
    (g.relinkInstruction ins).endsRun g.terminators = ins.endsRun g.terminators :=
  Instruction.retarget_endsRun _ _ _

/-- What keeps two neighbours apart does so in the relinked blocks, where a branch names the
    first instruction of a block and not its label. -/
theorem Formed.apart_relinked (h : g.Formed) (hfilled : g.Filled) {x y : Block}
    (hy : y ∈ g.blocks) (hapart : g.Apart x y) :
    (∃ last, (x.code.map g.relinkInstruction).getLast? = some last
        ∧ last.endsRun g.terminators = true)
      ∨ (∃ ins ∈ g.code.map g.relinkInstruction, ∃ t ∈ ins.aims, ∃ first,
          (y.code.map g.relinkInstruction).head? = some first ∧ t.wholeNumber? = some first.uid)
      ∨ ¬g.Together x.label y.label := by
  cases hapart with
  | @ends last hlast hends =>
    refine Or.inl ⟨g.relinkInstruction last, ?_, (g.relinkInstruction_endsRun last).trans hends⟩
    rw [List.getLast?_map, hlast]
    rfl
  | @named ins t hins ht hnames =>
    obtain ⟨first, more, hfirst, hlive⟩ := h.relinkTarget_first hfilled hy hnames
    refine Or.inr (Or.inl ⟨g.relinkInstruction ins, List.mem_map_of_mem hins, g.relinkTarget t,
      ?_, first, ?_, hlive⟩)
    · rw [h.aims_relink hins]
      exact List.mem_map_of_mem ht
    · rw [hfirst]
      rfl
  | regions hregions => exact Or.inr (Or.inr hregions)

/-- Relinked blocks are cut where the code calls for it, if the blocks are. -/
theorem Formed.relinked_wellCut (h : g.Formed) (hfilled : g.Filled)
    (hkeys : ∀ t ∈ g.terminators, t.isKey = true)
    (hmnemonics : ∀ ins ∈ g.code, ins.opcode = some .other → ins.mnemonic.isKey = true)
    (htries : ∀ s ∈ g.spans, s.tryBlocks <:+: g.labels)
    (hleaves : ∀ b ∈ g.blocks, ∀ ins ∈ b.code, ins.opcode = some .leave → ∀ s ∈ g.spans,
      b.label ∈ s.tryBlocks ∨ b.label ∈ s.handlerBlocks → ins.operand.toValue.asInt?.isSome)
    (hapart : ∀ before x y rest, g.blocks = before ++ x :: y :: rest → g.Apart x y) :
    g.relinked.WellCut := by
  rw [relinked_eq fun ins hins => h.checkTargets hins]
  have hcode := g.mapCode_code g.relinkInstruction
  have hlabels := g.mapCode_labels g.relinkInstruction
  constructor
  case labels_nodup => rw [hlabels]; exact h.labels_nodup
  case uids_nodup => rw [hcode, relinked_uids]; exact h.uids_nodup
  case filled =>
    exact List.forall_mem_map.mpr fun b hb hnil => hfilled b hb (List.map_eq_nil_iff.mp hnil)
  case keys => exact hkeys
  case mnemonics =>
    rw [hcode]
    refine List.forall_mem_map.mpr fun ins hins hop => ?_
    rw [show (g.relinkInstruction ins).mnemonic = _ from Instruction.retarget_mnemonic _ _]
    exact hmnemonics ins hins ((g.relinkInstruction_opcode ins).symm.trans hop)
  case targets =>
    rw [hcode]
    refine List.forall_mem_map.mpr fun ins hins => ⟨_, Instruction.targets_of_check
      (Instruction.checkTargets_retarget g.relinkTarget_isKey (h.checkTargets hins)), ?_⟩
    rw [h.aims_relink hins]
    refine List.forall_mem_map.mpr fun t ht => ?_
    obtain ⟨l, hl, hnames⟩ := h.aims hins ht
    obtain ⟨b, hb, rfl⟩ := List.mem_map.mp hl
    exact ⟨_, List.mem_map_of_mem hb, h.relinkTarget_first hfilled hb hnames⟩
  case straight =>
    refine List.forall_mem_map.mpr fun b hb => ?_
    dsimp only
    rw [← List.map_dropLast]
    exact List.forall_mem_map.mpr fun ins hins =>
      (g.relinkInstruction_endsRun ins).trans (h.straight _ (mem_outline_of_mem hb) ins hins)
  case tries => rw [hlabels]; exact htries
  case handlers =>
    rw [hlabels]
    intro s hs
    obtain ⟨l, hl, -⟩ := h.starts s hs
    exact ⟨h.handlers s hs, List.ne_nil_of_mem (List.mem_of_mem_head? hl)⟩
  case leaves =>
    refine List.forall_mem_map.mpr fun b hb => List.forall_mem_map.mpr fun ins hins hop s hs hin => ?_
    rw [relinkInstruction_opcode] at hop
    exact relinkInstruction_leave hop (hleaves b hb ins hins hop s hs hin)
  case apart =>
    intro before x y rest hblocks
    obtain ⟨front, behind, hsplit, -, hbehind⟩ := List.map_eq_append_iff.mp hblocks
    obtain ⟨x, tail, rfl, rfl, htail⟩ := List.map_eq_cons_iff.mp hbehind
    obtain ⟨y, last, rfl, rfl, -⟩ := List.map_eq_cons_iff.mp htail
    rw [hcode]
    exact h.apart_relinked hfilled (by rw [hsplit]; simp) (hapart front x y last hsplit)

/-! ## The graph of the method of a graph -/

theorem fallsOut_relink (g : Graph) (terminators : List Value) (c : List Instruction) :
    fallsOut terminators (c.map g.relinkInstruction) = fallsOut terminators c := by
  unfold fallsOut
  rw [List.getLast?_map, Option.all_map]
  exact congrArg (Option.all · _) (funext fun ins => Instruction.retarget_fallsThrough _ ins _)

/-- A relinked branch at the end of a block names the same blocks, by their live instructions. -/
theorem Formed.branch_relink (h : g.Formed) (hfilled : g.Filled) {a l : Int}
    {c : List Instruction} (hin : (a, c) ∈ g.outline) :
    (∃ last, (c.map g.relinkInstruction).getLast? = some last
        ∧ ∃ t ∈ last.aims, t.wholeNumber? = some l)
      ↔ ∃ k, (∃ last, c.getLast? = some last ∧ ∃ t ∈ last.aims, t.wholeNumber? = some k)
        ∧ g.liveUid k = l := by
  cases hlast : c.getLast? with
  | none => simp [List.getLast?_map, hlast]
  | some last =>
    have hmem : last ∈ g.code := mem_code_of_mem hin (List.mem_of_getLast? hlast)
    rw [List.getLast?_map, hlast]
    constructor
    · rintro ⟨_, hrelinked, t, ht, hnames⟩
      cases hrelinked
      rw [h.aims_relink hmem] at ht
      obtain ⟨t₀, ht₀, rfl⟩ := List.mem_map.mp ht
      obtain ⟨k, -, hk, hlive⟩ := h.relinkTarget_names hfilled hmem ht₀
      rw [hnames] at hlive
      exact ⟨k, ⟨last, rfl, t₀, ht₀, hk⟩, (Option.some.inj hlive).symm⟩
    · rintro ⟨k, ⟨_, hsame, t, ht, hk⟩, rfl⟩
      cases hsame
      obtain ⟨k', -, hk', hlive⟩ := h.relinkTarget_names hfilled hmem ht
      rw [hk] at hk'
      cases hk'
      exact ⟨_, rfl, g.relinkTarget t, h.aims_relink hmem ▸ List.mem_map_of_mem ht, hlive⟩

/-- Which blocks are entries depends on how many there are only. -/
theorem Formed.entries_eq (h : r.Formed) (h' : g.Formed)
    (hlength : r.blocks.length = g.blocks.length) :
    r.blocks.map (·.isEntry) = g.blocks.map (·.isEntry) := by
  cases hr : r.blocks with
  | nil =>
    rw [hr] at hlength
    rw [List.length_eq_zero_iff.mp hlength.symm]
  | cons b rest =>
    cases hg : g.blocks with
    | nil => rw [hr, hg] at hlength; cases hlength
    | cons b' rest' =>
      rw [hr, hg] at hlength
      obtain ⟨hb, hrest⟩ := h.entry b rest hr
      obtain ⟨hb', hrest'⟩ := h'.entry b' rest' hg
      rw [List.map_cons, List.map_cons, hb, hb', List.map_congr_left hrest,
        List.map_congr_left hrest', List.map_const', List.map_const', Nat.succ.inj hlength]

theorem mapCode_blocks_code (g : Graph) (f : Instruction → Instruction) :
    (g.mapCode f).blocks.map (·.code) = g.blocks.map fun b => b.code.map f := by
  rw [mapCode, List.map_map]
  rfl

section Rebuilt

variable (h : g.Formed) (hfilled : g.Filled) (hwell : g.relinked.WellCut)
  (hbuild : build g.relinked.tightMethod g.terminators = .ok r)
include h hfilled hwell hbuild

/-- Cutting the method gives the code of the blocks under the uids of their first
    instructions. -/
theorem Formed.rebuilt_outline :
    r.outline = g.relinked.outline.map fun e => (g.liveUid e.1, e.2) := by
  have hcodes := hwell.rebuilt hbuild
  rw [relinked_eq fun ins hins => h.checkTargets hins, mapCode_blocks_code] at hcodes
  rw [relinked_eq fun ins hins => h.checkTargets hins, mapCode_outline, List.map_map]
  -- Either name is the uid of the first instruction.
  let named (code : List Instruction) : Int × List Instruction :=
    ((code.head?.map (·.uid)).getD 0, code)
  calc r.outline = (r.blocks.map (·.code)).map named := by
        rw [outline, List.map_map]
        refine List.map_congr_left fun c hc => ?_
        obtain ⟨first, rest, hfirst, hlabel⟩ := build_firstLabels hbuild _ (mem_outline_of_mem hc)
        change c.code = first :: rest at hfirst
        change first.uid = c.label at hlabel
        show (c.label, c.code) = named c.code
        rw [← hlabel, hfirst]
        rfl
    _ = (g.blocks.map fun b => b.code.map g.relinkInstruction).map named := by rw [hcodes]
    _ = _ := by
        rw [outline, List.map_map, List.map_map]
        refine List.map_congr_left fun b hb => ?_
        obtain ⟨first, rest, hfirst⟩ := List.exists_cons_of_ne_nil (hfilled b hb)
        show named (b.code.map g.relinkInstruction)
          = (g.liveUid b.label, b.code.map g.relinkInstruction)
        rw [h.liveUid_eq hb hfirst, hfirst]
        exact congrArg (·, _) (g.relinkInstruction_uid first)

theorem Formed.rebuilt_labels : r.labels = g.labels.map g.liveUid := by
  rw [← Outline.labels_outline, h.rebuilt_outline hfilled hwell hbuild,
    ← mapCode_labels g g.relinkInstruction, ← relinked_eq fun ins hins => h.checkTargets hins,
    ← Outline.labels_outline, Outline.labels, Outline.labels, List.map_map, List.map_map]
  rfl

/-- The two outlines side by side. -/
theorem Formed.rebuilt_names : r.outline
    = g.outline.map fun e => (g.liveUid e.1, e.2.map g.relinkInstruction) := by
  rw [h.rebuilt_outline hfilled hwell hbuild, relinked_eq fun ins hins => h.checkTargets hins,
    mapCode_outline, List.map_map]
  rfl

/-- Different blocks have different first instructions. -/
theorem Formed.liveUid_inj :
    ∀ a ∈ g.labels, ∀ b ∈ g.labels, g.liveUid a = g.liveUid b → a = b := by
  have hnodup := (build_formed hbuild hwell.uids_nodup).1.labels_nodup
  rw [h.rebuilt_labels hfilled hwell hbuild] at hnodup
  exact fun a ha b hb => List.inj_on_of_nodup_map hnodup ha hb

/-- The edges are the same, up to the names of blocks. -/
theorem Formed.rebuilt_leads {a : Int} (ha : a ∈ g.labels) (l : Int) :
    r.Leads (g.liveUid a) l ↔ ∃ k, g.Leads a k ∧ g.liveUid k = l := by
  have hrebuilt := (build_formed hbuild hwell.uids_nodup).1
  rw [← Outline.labels_outline] at ha
  obtain ⟨before, c, rest, hsplit, -⟩ := Outline.split_at_label ha
  have hsplit' := h.rebuilt_names hfilled hwell hbuild
  rw [hsplit, List.map_append, List.map_cons] at hsplit'
  have hin : (a, c) ∈ g.outline := hsplit ▸ List.mem_append_right _ List.mem_cons_self
  -- A branch at the end names the same block, and the same block comes next.
  have hnext : (Outline.labels (rest.map fun e => (g.liveUid e.1, e.2.map g.relinkInstruction))).head?
        = some l ↔ ∃ k, (Outline.labels rest).head? = some k ∧ g.liveUid k = l := by
    cases rest <;> simp [Outline.labels]
  rw [leads_iff hrebuilt.outline_nodup hsplit', build_terminators hbuild,
    h.branch_relink hfilled hin, hnext, fallsOut_relink]
  simp only [leads_iff h.outline_nodup hsplit]
  constructor
  · rintro (⟨k, hk, hl⟩ | ⟨hfalls, k, hk, hl⟩)
    · exact ⟨k, Or.inl hk, hl⟩
    · exact ⟨k, Or.inr ⟨hfalls, hk⟩, hl⟩
  · rintro ⟨k, hk | ⟨hfalls, hk⟩, hl⟩
    · exact Or.inl ⟨k, hk, hl⟩
    · exact Or.inr ⟨hfalls, k, hk, hl⟩

/-- Cutting the method of a graph whose blocks are cut where its code calls for it gives the
    graph back, up to the names of blocks. -/
theorem Formed.sameCut (hlinked : g.Linked) : SameCut g.liveUid g.relinked r := by
  obtain ⟨hrebuilt, hlinked'⟩ := build_formed hbuild hwell.uids_nodup
  have hinj := h.liveUid_inj hfilled hwell hbuild
  have hlabels : r.labels = g.labels.map g.liveUid := h.rebuilt_labels hfilled hwell hbuild
  have houtline := h.rebuilt_outline hfilled hwell hbuild
  have hrelinked := relinked_eq fun ins hins => h.checkTargets hins
  have hspans := hwell.rebuilt_spans hbuild
    (show r.labels = g.relinked.labels.map g.liveUid by rw [hrelinked, mapCode_labels, hlabels])
  have hentries : r.blocks.map (·.isEntry) = g.blocks.map (·.isEntry) :=
    hrebuilt.entries_eq h (by simpa [labels] using congrArg List.length hlabels)
  rw [hrelinked] at hspans houtline ⊢
  refine ⟨?_, houtline, ?_, ?_, ?_, ?_⟩
  · rw [mapCode_labels]
    exact hinj
  · rw [hentries, mapCode, List.map_map]
    rfl
  · refine List.forall_mem_map.mpr fun b hb c hc hname l => ?_
    rw [hlinked'.succs c hc, hname]
    refine (h.rebuilt_leads hfilled hwell hbuild (mem_labels_of_mem hb) l).trans ?_
    simp only [hlinked.succs b hb]
  · refine List.forall_mem_map.mpr fun b hb c hc hname l => ?_
    rw [hlinked'.preds c hc, hname]
    simp only [hlinked.preds b hb]
    constructor
    · intro hleads
      obtain ⟨a, ha, rfl⟩ := List.mem_map.mp (hlabels ▸ hleads.mem_labels)
      obtain ⟨k, hk, hsame⟩ := (h.rebuilt_leads hfilled hwell hbuild ha _).mp hleads
      obtain rfl := hinj k (h.mem_labels_of_leads hk) b.label (mem_labels_of_mem hb) hsame
      exact ⟨a, hk, rfl⟩
    · rintro ⟨a, ha, rfl⟩
      exact (h.rebuilt_leads hfilled hwell hbuild ha.mem_labels _).mpr ⟨b.label, ha, rfl⟩
  · exact hspans

end Rebuilt

/-! ## Joining leaves the method as it is -/

theorem code_only (blocks : List Block) (live : Int → Bool) :
    Outline.code (Outline.only (blocks.map fun b => (b.label, b.code)) live)
      = (blocks.filter fun b => live b.label).flatMap (·.code) := by
  rw [Outline.only, List.filter_map, Outline.code, List.flatMap_map]
  rfl

/-- What labels cover is the code of the blocks that have them. -/
theorem covered_eq (hnodup : g.labels.Nodup) {labels : List Int} (hsub : labels.Sublist g.labels) :
    (labels.filterMap g.block?).flatMap (·.code)
      = Outline.code (g.outline.only labels.contains) := by
  have hblocks : labels.filterMap g.block? = g.blocks.filter fun b => labels.contains b.label := by
    conv_lhs => rw [← filter_mem_of_sublist hnodup hsub, Graph.labels, List.filter_map,
      List.filterMap_map]
    refine (List.filterMap_congr fun b hb => ?_).trans List.filterMap_some
    exact block?_of_mem hnodup (List.mem_of_mem_filter hb)
  rw [hblocks, outline, code_only]

/-- Which instructions bound a range depends on the uids only. -/
theorem spanBounds?_mapCode (hnodup : g.labels.Nodup) {labels : List Int}
    (hsub : labels.Sublist g.labels) {f : Instruction → Instruction}
    (hf : ∀ ins, (f ins).uid = ins.uid) :
    (g.mapCode f).spanBounds? labels = g.spanBounds? labels := by
  have hcode : Outline.code ((g.mapCode f).outline.only labels.contains)
      = (Outline.code (g.outline.only labels.contains)).map f := by
    rw [mapCode_outline, Outline.only, List.filter_map, Outline.code, List.flatMap_map,
      Outline.code, List.map_flatMap]
    rfl
  have hlabels := g.mapCode_labels f
  unfold spanBounds?
  dsimp only
  rw [covered_eq (hlabels ▸ hnodup) (hlabels ▸ hsub), covered_eq hnodup hsub, hcode,
    List.head?_map, List.getLast?_map]
  cases (Outline.code (g.outline.only labels.contains)).head? with
  | none => rfl
  | some first =>
    cases (Outline.code (g.outline.only labels.contains)).getLast? with
    | none => rfl
    | some last => simp [hf]

/-- A choice of blocks that takes blocks of the same regions together has the same code after
    joining. -/
theorem Grouped.filter_code {blocks joined : List Block} (h : Grouped g blocks joined)
    {live : Int → Bool} (hlive : ∀ a b, g.Together a b → live a = live b) :
    (joined.filter fun b => live b.label).flatMap (·.code)
      = (blocks.filter fun b => live b.label).flatMap (·.code) := by
  induction h with
  | nil => rfl
  | @run b bs rest joined hrun hrest ih =>
    have hsame : ∀ c ∈ b :: bs, live c.label = live b.label := by
      refine List.forall_mem_cons.mpr ⟨rfl, fun c hc => ?_⟩
      obtain ⟨before, after, rfl⟩ := List.append_of_mem hc
      obtain ⟨-, -, -, -, -, hregions⟩ := hrun before c after rfl
      exact (hlive _ _ (sameRegions_iff.mp hregions)).symm
    have hglued : (glued b bs).label = b.label := rfl
    rw [List.filter_append, List.flatMap_append, List.filter_cons, hglued, ← ih]
    cases hb : live b.label with
    | true =>
      rw [List.filter_eq_self.mpr fun c hc => (hsame c hc).trans hb]
      rfl
    | false =>
      rw [List.filter_eq_nil_iff.mpr fun c hc hkept =>
        absurd ((hsame c hc).symm.trans hkept) (by rw [hb]; decide)]
      rfl

/-- Joining takes the labels of joined blocks out of the ranges. -/
theorem merged_spans (g : Graph) :
    g.merged.spans = g.spans.map fun s => s.without g.joinedLabels := by
  rw [merged_eq]
  split
  · rename_i hnone
    rw [List.isEmpty_iff.mp hnone]
    refine (List.map_id'' (fun s => ?_) _).symm
    simp [Span.without]
  · rfl

section Merged

variable (h : g.Formed)
include h

theorem Formed.merged_labels : g.merged.labels = g.rejoined.labels := by
  rw [← Outline.labels_outline, merged_outline h.labels_nodup, Outline.labels_outline]

/-- What branches name is live after joining where it was before. -/
theorem Formed.merged_liveTarget? {l : Int} (hl : l ∈ g.labels) (htargeted : l ∈ g.targeted) :
    g.merged.liveTarget? l = g.liveTarget? l := by
  have hleft := mem_rejoined_of_targeted g hl htargeted
  have hmerged : l ∈ g.merged.labels := by rw [h.merged_labels]; exact hleft
  obtain ⟨place, hplace⟩ := exists_place hl
  obtain ⟨place', hplace'⟩ := exists_place hmerged
  have hcode := g.joinedBlocks_grouped.from?_code h.labels_nodup hleft
  rw [show Outline.from? (g.joinedBlocks.map _) l = g.rejoined.outline.from? l from rfl,
    show Outline.from? (g.blocks.map _) l = g.outline.from? l from rfl,
    ← merged_outline h.labels_nodup, hplace, hplace'] at hcode
  rw [liveTarget?_of_label hmerged hplace', liveTarget?_of_label hl hplace,
    Option.some.inj hcode]

theorem Formed.merged_relinkInstruction {ins : Instruction} (hins : ins ∈ g.code) :
    g.merged.relinkInstruction ins = g.relinkInstruction ins := by
  refine Instruction.retarget_congr fun t ht => ?_
  obtain ⟨l, hl, hnames⟩ := h.aims hins ht
  unfold relinkTarget
  rw [hnames, Option.bind_some, Option.bind_some,
    h.merged_liveTarget? hl (h.mem_targeted hins ht hnames)]

/-- What joining leaves of labels is in the order of those of the blocks. -/
theorem Formed.left_sublist {labels : List Int} (hsub : labels.Sublist g.labels) :
    (labels.filter fun l => !g.joinedLabels.contains l).Sublist g.merged.labels := by
  have hleft : labels.filter (fun l => !g.joinedLabels.contains l)
      = labels.filter g.rejoined.labels.contains :=
    List.filter_congr fun l hl => contains_joinedLabels g (hsub.subset hl)
  have hkept := hsub.filter g.rejoined.labels.contains
  rwa [← hleft, filter_mem_of_sublist h.labels_nodup g.rejoined_labels_sublist,
    ← h.merged_labels] at hkept

/-- A range that takes blocks of the same regions together has the same bounds after joining. -/
theorem Formed.merged_spanBounds? {labels : List Int} (hsub : labels.Sublist g.labels)
    (htogether : ∀ a b, g.Together a b → (a ∈ labels ↔ b ∈ labels)) :
    g.merged.spanBounds? (labels.filter fun l => !g.joinedLabels.contains l)
      = g.spanBounds? labels := by
  have hnodup : g.merged.labels.Nodup := by
    rw [h.merged_labels]
    exact h.rejoined.labels_nodup
  have honly : g.rejoined.outline.only
        (labels.filter fun l => !g.joinedLabels.contains l).contains
      = g.rejoined.outline.only labels.contains :=
    List.filter_congr fun e he => by
      have hin : e.1 ∈ g.rejoined.labels := by
        rw [← Outline.labels_outline]
        exact List.mem_map_of_mem he
      have hkept := contains_joinedLabels g (g.rejoined_labels_sublist.subset hin)
      rw [List.contains_iff_mem.mpr hin] at hkept
      rw [Bool.eq_iff_iff, List.contains_iff_mem, List.contains_iff_mem, List.mem_filter]
      exact and_iff_left hkept
  have hcode : Outline.code (g.rejoined.outline.only labels.contains)
      = Outline.code (g.outline.only labels.contains) := by
    rw [outline, outline, code_only, code_only]
    refine g.joinedBlocks_grouped.filter_code fun a b hab => ?_
    rw [Bool.eq_iff_iff, List.contains_iff_mem, List.contains_iff_mem]
    exact htogether a b hab
  unfold spanBounds?
  rw [covered_eq hnodup (h.left_sublist hsub), covered_eq h.labels_nodup hsub,
    merged_outline h.labels_nodup, honly, hcode]

/-- Joining leaves the method of a graph as it is. -/
theorem Formed.merged_tightMethod (hformed : g.merged.Formed)
    (htries : ∀ s ∈ g.spans, s.tryBlocks <:+: g.labels) :
    g.merged.relinked.tightMethod = g.relinked.tightMethod := by
  have hrelinked := relinked_eq fun ins hins => h.checkTargets hins
  have hrelinked' := relinked_eq fun ins hins => hformed.checkTargets hins
  have hcode : g.merged.relinked.code = g.relinked.code := by
    rw [hrelinked, hrelinked', mapCode_code, mapCode_code, merged_code]
    exact List.map_congr_left fun ins hins => h.merged_relinkInstruction hins
  -- Both ranges of a region take blocks of the same regions together.
  have hbounds {labels : List Int} (hrow : labels <:+: g.labels)
      (htogether : ∀ a b, g.Together a b → (a ∈ labels ↔ b ∈ labels)) :
      g.merged.relinked.spanBounds? (labels.filter fun l => !g.joinedLabels.contains l)
        = g.relinked.spanBounds? labels := by
    rw [hrelinked, hrelinked', spanBounds?_mapCode hformed.labels_nodup
        (h.left_sublist hrow.sublist) (relinkInstruction_uid _),
      spanBounds?_mapCode h.labels_nodup hrow.sublist (relinkInstruction_uid _),
      h.merged_spanBounds? hrow.sublist htogether]
  have hregion {s : Span} (hs : s ∈ g.spans) :
      g.merged.relinked.tightRegion (s.without g.joinedLabels) = g.relinked.tightRegion s := by
    have hboth : Reconcile.boundsOf g.merged.relinked (s.without g.joinedLabels)
        = Reconcile.boundsOf g.relinked s :=
      congrArg₂ Prod.mk (hbounds (htries s hs) fun a b hab => (hab s hs).1)
        (hbounds (h.handlers s hs) fun a b hab => (hab s hs).2)
    unfold tightRegion
    rw [hboth]
    rfl
  have hspans : g.merged.relinked.spans.map g.merged.relinked.tightRegion
      = g.relinked.spans.map g.relinked.tightRegion := by
    rw [show g.merged.relinked.spans = g.merged.spans from rfl, merged_spans, List.map_map]
    exact List.map_congr_left fun s hs => hregion hs
  have hlocals : g.merged.locals = g.locals ∧ g.merged.name = g.name := by
    rw [merged_eq]
    split <;> exact ⟨rfl, rfl⟩
  unfold tightMethod toMethod
  rw [hspans, hcode, show g.merged.relinked.locals = g.relinked.locals from hlocals.1,
    show g.merged.relinked.name = g.relinked.name from hlocals.2]

end Merged

end Graph

end Untangle
