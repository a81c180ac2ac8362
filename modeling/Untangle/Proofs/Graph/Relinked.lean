/-
  Untangle.Proofs.Graph.Relinked

  From a graph back to a method. A label leads to the first instruction that stands at its
  block or behind it; pointing every branch there gives a stream that shows what the blocks
  show (`Formed.relinks`), as long as every branch leads to some instruction.
-/
import Untangle.Proofs.Graph.Edit
import Untangle.Proofs.Graph.Refined

namespace Untangle

/-- Code is entered at the instruction that has the uid. -/
theorem Method.enter?_of_split {code before rest : List Instruction} {ins : Instruction}
    (hnodup : (code.map (·.uid)).Nodup) (hsplit : code = before ++ ins :: rest) {v : Value}
    (hv : v.wholeNumber? = some ins.uid) : enter? code v = some (ins :: rest) := by
  subst hsplit
  rw [List.map_append, List.nodup_append] at hnodup
  have hplace : place? (before ++ ins :: rest) ins.uid = some before.length := by
    unfold place?
    rw [List.findIdx?_append, List.findIdx?_eq_none_iff.mpr, List.findIdx?_cons]
    · simp
    · intro i hi
      have hne := hnodup.2.2 _ (List.mem_map_of_mem hi) _ List.mem_cons_self
      simpa using hne
  unfold enter? placeOf?
  rw [hv, Option.bind_some, hplace, Option.map_some, List.drop_left]

/-- An instruction that a value names is one of the code. -/
theorem Method.exists_of_placeOf? {code : List Instruction} {v : Value}
    (h : (placeOf? code v).isSome) : ∃ ins ∈ code, v.wholeNumber? = some ins.uid := by
  obtain ⟨p, hp⟩ := Option.isSome_iff_exists.mp h
  obtain ⟨uid, hv, hplace⟩ := Option.bind_eq_some_iff.mp hp
  obtain ⟨hlt, huid, -⟩ := List.findIdx?_eq_some_iff_getElem.mp hplace
  refine ⟨code[p], List.getElem_mem hlt, ?_⟩
  rw [hv, eq_of_beq huid]

namespace Graph

variable {g : Graph}

/-! ## The first instruction behind a label -/

theorem firstUid?_eq (blocks : List Block) :
    firstUid? blocks = (blocks.flatMap (·.code)).head?.map (·.uid) := by
  induction blocks with
  | nil => rfl
  | cons b blocks ih =>
    unfold firstUid?
    rw [List.flatMap_cons]
    cases b.code with
    | nil => exact ih
    | cons ins code => rfl

/-- What a label leads to is the first instruction of the blocks from there on. -/
theorem resolveTarget?_eq (g : Graph) {label : Int} {place : Outline}
    (hplace : g.outline.from? label = some place) :
    g.resolveTarget? label = (Outline.code place).head?.map (·.uid) := by
  have hdrop : place = (g.blocks.dropWhile fun b => b.label != label).map
      fun b => (b.label, b.code) := by
    unfold Outline.from? outline at hplace
    rw [List.dropWhile_map] at hplace
    split at hplace
    · cases hplace
    · rename_i e rest heq
      cases hplace
      exact heq.symm
  rw [resolveTarget?, firstUid?_eq, hdrop, Outline.code, List.flatMap_map]

theorem exists_place {label : Int} (h : label ∈ g.labels) :
    ∃ place, g.outline.from? label = some place := by
  rw [← Outline.labels_outline] at h
  obtain ⟨before, c, rest, hsplit, hnot⟩ := Outline.split_at_label h
  exact ⟨_, hsplit ▸ Outline.from?_append c hnot⟩

theorem liveTarget?_of_label {label : Int} (h : label ∈ g.labels) {place : Outline}
    (hplace : g.outline.from? label = some place) :
    g.liveTarget? label = (Outline.code place).head?.map (·.uid) := by
  unfold liveTarget?
  rw [hasBlock_iff.mpr h, if_pos rfl]
  exact resolveTarget?_eq g hplace

/-- A label with code of its own leads to the first instruction there. -/
theorem Formed.liveTarget?_first (h : g.Formed) {b : Block} (hb : b ∈ g.blocks)
    {first : Instruction} {rest : List Instruction} (hcode : b.code = first :: rest) :
    g.liveTarget? b.label = some first.uid := by
  obtain ⟨before, behind, hsplit⟩ := List.append_of_mem (mem_outline_of_mem hb)
  rw [liveTarget?_of_label (List.mem_map_of_mem hb) (from?_of_split h.outline_nodup hsplit),
    Outline.code_cons, hcode]
  rfl

/-- The code from a place on is the end of all code. -/
theorem code_of_suffix {place : Outline} (h : place <:+ g.outline) :
    ∃ before, g.code = before ++ Outline.code place := by
  obtain ⟨before, hbefore⟩ := h
  exact ⟨Outline.code before, by rw [← Outline.code_outline, ← hbefore, Outline.code_append]⟩

/-- A label whose number an instruction has leads to code. -/
theorem Formed.code_ne_nil (h : g.Formed) {ins : Instruction} (hins : ins ∈ g.code)
    (hlabel : ins.uid ∈ g.labels) {place : Outline}
    (hplace : g.outline.from? ins.uid = some place) : Outline.code place ≠ [] := by
  rw [← Outline.code_outline] at hins
  obtain ⟨e, he, hin⟩ := List.mem_flatMap.mp hins
  have hown := h.own e he ins hin hlabel
  obtain ⟨before, rest, hsplit⟩ := List.append_of_mem he
  obtain ⟨hsuffix, c, rest', rfl⟩ := Outline.from?_eq_some hplace
  obtain ⟨before', hsplit'⟩ := hsuffix
  rw [hown] at hsplit'
  obtain ⟨hcode, -⟩ := split_unique h.outline_nodup hsplit hsplit'.symm
  rw [Outline.code_cons, ← hcode]
  exact List.append_ne_nil_of_left_ne_nil (List.ne_nil_of_mem hin) _

/-- The uid of an instruction that is no label leads to the instruction. -/
theorem liveTarget?_of_uid {ins : Instruction} (hins : ins ∈ g.code)
    (hlabel : ins.uid ∉ g.labels) : g.liveTarget? ins.uid = some ins.uid := by
  unfold liveTarget?
  rw [if_neg fun hb => hlabel (hasBlock_iff.mp hb)]
  have howner : (g.owner? ins.uid).isSome := by
    obtain ⟨b, hb, hin⟩ := List.mem_flatMap.mp hins
    unfold owner?
    rw [Option.isSome_map, List.find?_isSome]
    exact ⟨b, hb, List.any_eq_true.mpr ⟨ins, hin, beq_self_eq_true _⟩⟩
  rw [if_pos howner]

/-- Where instructions that give labels their numbers are in the blocks of the labels, the first
    instruction behind a label is the first one behind its own. -/
theorem liveTarget?_live (hnodup : g.labels.Nodup)
    (howns : ∀ e ∈ g.outline, ∀ ins ∈ e.2, ins.uid ∈ g.labels → ins.uid = e.1) {label live : Int}
    (hlabel : label ∈ g.labels) (hlive : g.liveTarget? label = some live) :
    g.liveTarget? live = some live := by
  obtain ⟨place, hplace⟩ := exists_place hlabel
  rw [liveTarget?_of_label hlabel hplace] at hlive
  obtain ⟨ins, hfirst, rfl⟩ := Option.map_eq_some_iff.mp hlive
  obtain ⟨before, hbefore⟩ := (Outline.from?_eq_some hplace).1
  by_cases hin : ins.uid ∈ g.labels
  · -- The instruction is in the block of its label, and only empty blocks come before that.
    have hsplit : ∃ e c rest empties, place = empties ++ e :: rest ∧ Outline.code empties = []
        ∧ e.2 = ins :: c := by
      clear hplace hbefore hlive
      induction place with
      | nil => cases hfirst
      | cons e rest ih =>
        rw [Outline.code_cons] at hfirst
        cases hc : e.2 with
        | nil =>
          rw [hc, List.nil_append] at hfirst
          obtain ⟨e', c, rest', empties, rfl, hempty, he'⟩ := ih hfirst
          exact ⟨e', c, rest', e :: empties, rfl, by rw [Outline.code_cons, hc, hempty]; rfl, he'⟩
        | cons i c =>
          rw [hc] at hfirst
          cases hfirst
          exact ⟨e, c, rest, [], rfl, rfl, hc⟩
    obtain ⟨e, c, rest, empties, rfl, hempty, he⟩ := hsplit
    have houtline : g.outline = (before ++ empties) ++ e :: rest := by
      rw [← hbefore, List.append_assoc]
    have hown : ins.uid = e.1 := howns e (houtline ▸ List.mem_append_right _ List.mem_cons_self)
      ins (he ▸ List.mem_cons_self) hin
    have hfrom : g.outline.from? ins.uid = some (e :: rest) := by
      rw [hown]
      exact from?_of_split (Outline.labels_outline g ▸ hnodup) houtline
    rw [liveTarget?_of_label hin hfrom, Outline.code_cons, he]
    rfl
  · have hcode : ins ∈ g.code := by
      rw [← Outline.code_outline, ← hbefore, Outline.code_append]
      exact List.mem_append_right _ (List.mem_of_mem_head? hfirst)
    exact liveTarget?_of_uid hcode hin

/-! ## Code changed instruction by instruction -/

/-- The graph with each instruction sent through a function. -/
def mapCode (g : Graph) (f : Instruction → Instruction) : Graph :=
  { g with blocks := g.blocks.map fun b => { b with code := b.code.map f } }

/-- Code is changed to its end when all of it passes. -/
theorem changedWhile_eq {passes : Instruction → Bool} {f : Instruction → Instruction}
    {blocks : List Block} (h : ∀ b ∈ blocks, ∀ ins ∈ b.code, passes ins = true) :
    changedWhile passes f blocks = blocks.map fun b => { b with code := b.code.map f } := by
  induction blocks with
  | nil => rfl
  | cons b rest ih =>
    have hall : b.code.all passes = true :=
      List.all_eq_true.mpr fun ins hins => h b List.mem_cons_self ins hins
    have hpass : b.code.takeWhile passes = b.code := by
      rw [List.takeWhile_eq_self_iff]
      exact fun ins hins => h b List.mem_cons_self ins hins
    have hrest : b.code.dropWhile passes = [] := by
      rw [List.dropWhile_eq_nil_iff]
      exact fun ins hins => h b List.mem_cons_self ins hins
    unfold changedWhile
    dsimp only
    rw [hall, if_pos rfl, hpass, hrest, List.append_nil,
      ih fun c hc => h c (List.mem_cons_of_mem _ hc)]
    rfl

variable {f : Instruction → Instruction}

@[simp] theorem mapCode_code (g : Graph) (f : Instruction → Instruction) :
    (g.mapCode f).code = g.code.map f := by
  simp [code, mapCode, List.flatMap_map, List.map_flatMap]

@[simp] theorem mapCode_labels (g : Graph) (f : Instruction → Instruction) :
    (g.mapCode f).labels = g.labels := by
  simp [labels, mapCode, Function.comp_def]

@[simp] theorem mapCode_outline (g : Graph) (f : Instruction → Instruction) :
    (g.mapCode f).outline = g.outline.map fun e => (e.1, e.2.map f) := by
  simp [outline, mapCode, Function.comp_def]

/-- Where a label leads depends on the uids only. -/
theorem liveTarget?_mapCode (hf : ∀ ins, (f ins).uid = ins.uid) (uid : Int) :
    (g.mapCode f).liveTarget? uid = g.liveTarget? uid := by
  have hhas : (g.mapCode f).hasBlock uid = g.hasBlock uid := by
    rw [Bool.eq_iff_iff, hasBlock_iff, hasBlock_iff, mapCode_labels]
  have howner : ((g.mapCode f).owner? uid).isSome = (g.owner? uid).isSome := by
    unfold owner? mapCode
    rw [Option.isSome_map, Option.isSome_map, Bool.eq_iff_iff, List.find?_isSome,
      List.find?_isSome]
    simp [hf]
  have hfirst : (g.mapCode f).resolveTarget? uid = g.resolveTarget? uid := by
    unfold resolveTarget? mapCode
    rw [firstUid?_eq, firstUid?_eq, List.dropWhile_map, List.flatMap_map]
    show ((List.flatMap (fun b : Block => b.code.map f) _).head?).map _ = _
    rw [← List.map_flatMap, List.head?_map, Option.map_map]
    congr 1
    exact funext fun ins => hf ins
  unfold liveTarget?
  rw [hhas, howner, hfirst]

theorem relinkInstruction_mapCode (hf : ∀ ins, (f ins).uid = ins.uid) (ins : Instruction) :
    (g.mapCode f).relinkInstruction ins = g.relinkInstruction ins := by
  have hrename : (g.mapCode f).relinkTarget = g.relinkTarget := by
    funext v
    unfold relinkTarget
    rw [show (g.mapCode f).liveTarget? = g.liveTarget? from funext (liveTarget?_mapCode hf)]
  unfold relinkInstruction
  rw [hrename]

/-- Branches that can be followed are pointed at live instructions throughout. -/
theorem relinked_eq (h : ∀ ins ∈ g.code, ins.checkTargets = .ok ()) :
    g.relinked = g.mapCode g.relinkInstruction :=
  congrArg (fun blocks => { g with blocks }) (changedWhile_eq fun b hb ins hins => by
    rw [h ins (mem_code_of_mem (mem_outline_of_mem hb) hins)]
    rfl)

/-! ## Targets pointed there -/

@[simp] theorem relinkInstruction_uid (g : Graph) (ins : Instruction) :
    (g.relinkInstruction ins).uid = ins.uid := Instruction.retarget_uid _ ins

@[simp] theorem relinked_uids (g : Graph) (code : List Instruction) :
    (code.map g.relinkInstruction).map (·.uid) = code.map (·.uid) := by
  rw [List.map_map]
  exact List.map_congr_left fun ins _ => g.relinkInstruction_uid ins

@[simp] theorem relinkInstruction_opcode (g : Graph) (ins : Instruction) :
    (g.relinkInstruction ins).opcode = ins.opcode := Instruction.retarget_opcode _ ins

theorem relinkTarget_of_live {v : Value} {label live : Int} (hv : v.wholeNumber? = some label)
    (hlive : g.liveTarget? label = some live) : (g.relinkTarget v).wholeNumber? = some live := by
  unfold relinkTarget
  rw [hv, Option.bind_some, hlive]
  dsimp only
  split
  · rename_i hsame
    rw [hv]
    exact eq_of_beq hsame
  · rfl

theorem relinkTarget_of_lost {v : Value} {label : Int} (hv : v.wholeNumber? = some label)
    (hlive : g.liveTarget? label = none) : g.relinkTarget v = v := by
  unfold relinkTarget
  rw [hv, Option.bind_some, hlive]

theorem relinkTarget_isSome {v : Value} (hv : v.wholeNumber?.isSome) :
    (g.relinkTarget v).wholeNumber?.isSome := by
  obtain ⟨label, hlabel⟩ := Option.isSome_iff_exists.mp hv
  cases hlive : g.liveTarget? label with
  | none => rw [relinkTarget_of_lost hlabel hlive]; exact hv
  | some live => rw [relinkTarget_of_live hlabel hlive]; rfl

/-- Integers stay integers when targets are pointed at live instructions. -/
theorem relinkTarget_asInt? {v : Value} (hv : v.asInt?.isSome) :
    (g.relinkTarget v).asInt?.isSome := by
  unfold relinkTarget
  split
  · split
    · exact hv
    · rfl
  · exact hv

/-- What branches of a graph name are numbers, before and after. -/
theorem Formed.aims_relink (h : g.Formed) {ins : Instruction} (hins : ins ∈ g.code) :
    (g.relinkInstruction ins).aims = ins.aims.map g.relinkTarget := by
  refine Instruction.aims_retarget fun t ht => relinkTarget_isSome ?_
  obtain ⟨l, -, hl⟩ := h.aims hins ht
  rw [hl]
  rfl

/-- Every branch of a graph that leads to some instruction once it is relinked leads to the first
    instruction behind the label that it names. -/
theorem Formed.exists_live (h : g.Formed)
    (hvalid : ∀ ins ∈ g.code, ∀ t ∈ (g.relinkInstruction ins).aims,
      (Method.placeOf? (g.code.map g.relinkInstruction) t).isSome)
    {ins : Instruction} (hins : ins ∈ g.code) {t : Value} (ht : t ∈ ins.aims) :
    ∃ l place first rest, t.wholeNumber? = some l ∧ l ∈ g.labels ∧ g.outline.from? l = some place
      ∧ Outline.code place = first :: rest
      ∧ (g.relinkTarget t).wholeNumber? = some first.uid := by
  obtain ⟨l, hlabel, hl⟩ := h.aims hins ht
  obtain ⟨place, hplace⟩ := exists_place hlabel
  cases hlive : g.liveTarget? l with
  | some live =>
    have hrename := relinkTarget_of_live hl hlive
    rw [liveTarget?_of_label hlabel hplace] at hlive
    obtain ⟨first, hfirst, rfl⟩ := Option.map_eq_some_iff.mp hlive
    obtain ⟨rest, hrest⟩ := List.head?_eq_some_iff.mp hfirst
    exact ⟨l, place, first, rest, hl, hlabel, hplace, hrest, hrename⟩
  | none =>
    -- The target would have to be there under its own number.
    have hmem : g.relinkTarget t ∈ (g.relinkInstruction ins).aims := by
      rw [h.aims_relink hins]
      exact List.mem_map_of_mem ht
    obtain ⟨j, hj, hname⟩ := Method.exists_of_placeOf? (hvalid ins hins _ hmem)
    obtain ⟨i, hi, rfl⟩ := List.mem_map.mp hj
    rw [relinkTarget_of_lost hl hlive, hl, relinkInstruction_uid] at hname
    cases hname
    rw [liveTarget?_of_label hlabel hplace, Option.map_eq_none_iff, List.head?_eq_none_iff]
      at hlive
    exact absurd hlive (h.code_ne_nil hi hlabel hplace)

/-- The stream of a graph whose branches lead to instructions shows what the graph shows. -/
theorem Formed.relinks (h : g.Formed) (P : Platform)
    (hvalid : ∀ ins ∈ g.code, ∀ t ∈ (g.relinkInstruction ins).aims,
      (Method.placeOf? (g.code.map g.relinkInstruction) t).isSome) :
    Redirects P g.outline.code g.outline.codeAt?
      (Method.enter? (g.outline.code.map g.relinkInstruction)) g.relinkInstruction := by
  have huid := g.relinkInstruction_uid
  rw [Outline.code_outline]
  refine ⟨fun t p hp => Outline.code_outline g ▸ Outline.codeAt?_subset hp, fun ins hins σ => ?_⟩
  have hnumbers : ∀ t ∈ ins.aims, t.wholeNumber?.isSome
      ∧ (g.relinkTarget t).wholeNumber?.isSome := by
    intro t ht
    obtain ⟨l, -, hl⟩ := h.aims hins ht
    have hsome : t.wholeNumber?.isSome := by rw [hl]; rfl
    exact ⟨hsome, relinkTarget_isSome hsome⟩
  have hact : (g.relinkInstruction ins).act P σ = (ins.act P σ).redirect g.relinkTarget :=
    Instruction.act_retarget P hnumbers σ
  cases hturn : ins.act P σ with
  | next τ => rw [hact, hturn]; exact Or.inr ⟨rfl, by simp⟩
  | halted how τ => rw [hact, hturn]; exact Or.inr ⟨rfl, by simp⟩
  | jump t τ =>
    rw [hact, hturn]
    refine Or.inl ⟨t, τ, g.relinkTarget t, rfl, rfl, ?_⟩
    have ht := (Instruction.mem_aims_of_act hturn).2
    rw [h.aims_copy hins] at ht
    obtain ⟨l, place, first, rest, hl, -, hplace, hcode, hrename⟩ := h.exists_live hvalid hins ht
    have hcodeAt : g.outline.codeAt? t = some (Outline.code place) := by
      rw [Outline.codeAt?, Outline.enter?, hl, Option.bind_some, hplace]
      rfl
    rw [hcodeAt, Method.enter?_map _ _ huid]
    congr 1
    obtain ⟨before, hbefore⟩ := code_of_suffix (Outline.from?_eq_some hplace).1
    rw [hcode] at hbefore ⊢
    exact Method.enter?_of_split h.uids_nodup hbefore hrename

/-- The method from the instruction on that a value names shows what the blocks of a place
    show, when it is their first instruction. -/
theorem Formed.refines_relinked (h : g.Formed) (P : Platform)
    (hvalid : ∀ ins ∈ g.code, ∀ t ∈ (g.relinkInstruction ins).aims,
      (Method.placeOf? (g.code.map g.relinkInstruction) t).isSome)
    {place : Outline} (hplace : place <:+ g.outline) (σ : Moment) :
    Process.Refines (g.outline.process P) place
      (Method.stream P (g.code.map g.relinkInstruction))
      ((Outline.code place).map g.relinkInstruction) σ := by
  have := (Outline.refines_stream P (h.relinks P hvalid) hplace σ).1
  rwa [Outline.code_outline] at this

end Graph

end Untangle
