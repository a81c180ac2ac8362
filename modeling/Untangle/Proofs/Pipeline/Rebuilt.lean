/-
  Untangle.Proofs.Pipeline.Rebuilt

  The method that a graph is written out as can be cut into blocks again. The new blocks need
  not be the old ones: blocks that nothing leads to any more are run together, and emptied ones
  are gone. What carries over is where control comes: `Entered` says it of an instruction, and
  it goes on from one instruction to the next, and along branches.
-/
import Untangle.Proofs.Graph.Accepted
import Untangle.Proofs.Pipeline.Behaviour

namespace Untangle

namespace Graph

/-! ## Instructions that control comes to -/

/-- The instruction is in a block that is reached. -/
def Entered (g : Graph) (ins : Instruction) : Prop :=
  ∃ e ∈ g.outline, g.Reached e.1 ∧ ins ∈ e.2

/-- Along an edge control comes to another block. -/
theorem Reached.leads {g : Graph} (hlinked : g.Linked) {a l : Int} (h : g.Reached a)
    (hl : g.Leads a l) : g.Reached l := by
  obtain ⟨b, hb, rfl⟩ := List.mem_map.mp hl.mem_labels
  exact .edge hb h ((hlinked.succs b hb l).mpr hl)

namespace Entered

variable {g : Graph} {i j : Instruction}

/-- A reached label is the uid of an instruction that control comes to. -/
theorem of_label (hfirst : g.FirstLabels) (h : g.Formed) {l : Int} (hl : l ∈ g.labels)
    (hreached : g.Reached l) (hj : j ∈ g.code) (huid : j.uid = l) : g.Entered j := by
  rw [← Outline.labels_outline] at hl
  obtain ⟨e, he, rfl⟩ := List.mem_map.mp hl
  obtain ⟨first, rest, hcode, hlabel⟩ := hfirst e he
  have hin : first ∈ e.2 := hcode ▸ List.mem_cons_self
  have hsame : first = j := List.inj_on_of_nodup_map h.uids_nodup (mem_code_of_mem he hin) hj
    (hlabel.trans huid.symm)
  exact ⟨e, he, hreached, hsame ▸ hin⟩

/-- Control goes on from an instruction that it can fall through to the one behind it. -/
theorem next (hentered : g.Entered i) (hfirst : g.FirstLabels) (h : g.Formed)
    (hlinked : g.Linked) {before rest : List Instruction}
    (hcode : g.code = before ++ i :: j :: rest) (hfalls : i.fallsThrough g.terminators = true) :
    g.Entered j := by
  obtain ⟨⟨l, c⟩, he, hreached, hin⟩ := hentered
  obtain ⟨front, behind, hsplit⟩ := List.append_of_mem he
  obtain ⟨init, more, hc⟩ := List.append_of_mem hin
  change c = init ++ i :: more at hc
  -- The instruction stands in one place only.
  have hbehind : j :: rest = more ++ Outline.code behind := by
    have hcode' : g.code = (Outline.code front ++ init) ++ i :: (more ++ Outline.code behind) := by
      rw [← Outline.code_outline, hsplit, Outline.code_append, Outline.code_cons, hc]
      simp
    have hnodup : g.code.Nodup := List.Nodup.of_map _ h.uids_nodup
    rw [hcode] at hnodup hcode'
    exact (append_cons_inj_of_nodup hnodup hcode').2
  cases more with
  | cons k more =>
    cases hbehind
    exact ⟨(l, c), he, hreached, by rw [hc]; simp⟩
  | nil =>
    cases behind with
    | nil => cases hbehind
    | cons e' behind =>
      have he' : e' ∈ g.outline := by rw [hsplit]; simp
      obtain ⟨first, others, hfirst', -⟩ := hfirst e' he'
      rw [List.nil_append, Outline.code_cons, hfirst'] at hbehind
      cases hbehind
      have hleads : g.Leads l e'.1 := by
        refine ⟨front, c, e' :: behind, hsplit, Or.inr ⟨?_, rfl⟩⟩
        rw [fallsOut, hc, List.getLast?_concat]
        exact hfalls
      exact ⟨e', he', hreached.leads hlinked hleads, by rw [hfirst']; exact List.mem_cons_self⟩

/-- Control goes on from a branch to the instructions that it names. -/
theorem jump (hentered : g.Entered i) (hfirst : g.FirstLabels) (h : g.Formed)
    (hlinked : g.Linked) {t : Value} (ht : t ∈ i.aims) (hj : j ∈ g.code)
    (huid : t.wholeNumber? = some j.uid) : g.Entered j := by
  obtain ⟨⟨l, c⟩, he, hreached, hin⟩ := hentered
  obtain ⟨front, behind, hsplit⟩ := List.append_of_mem he
  have hends : i.endsRun g.terminators = true := by
    unfold Instruction.endsRun
    rw [Instruction.isBranch_of_mem_aims ht, Bool.true_or]
  have hleads : g.Leads l j.uid :=
    ⟨front, c, behind, hsplit, Or.inl ⟨i, h.eq_last he hin hends, t, ht, huid⟩⟩
  exact of_label hfirst h (h.mem_labels_of_leads hleads) (hreached.leads hlinked hleads) hj rfl

/-- Control goes on through code that has no branch and no stop before its end. -/
theorem along (hfirst : g.FirstLabels) (h : g.Formed) (hlinked : g.Linked)
    {before c rest : List Instruction} (hcode : g.code = before ++ c ++ rest)
    (hstraight : ∀ ins ∈ c.dropLast, ins.endsRun g.terminators = false)
    (hhead : ∀ ins, c.head? = some ins → g.Entered ins) : ∀ ins ∈ c, g.Entered ins := by
  induction c generalizing before with
  | nil => exact fun _ hins => absurd hins List.not_mem_nil
  | cons first c ih =>
    have hentered : g.Entered first := hhead first rfl
    intro ins hins
    rcases List.mem_cons.mp hins with rfl | hins
    · exact hentered
    cases c with
    | nil => exact absurd hins List.not_mem_nil
    | cons second c =>
      rw [List.dropLast_cons_cons] at hstraight
      have hruns := hstraight first List.mem_cons_self
      rw [Instruction.endsRun, Bool.or_eq_false_iff, Bool.not_eq_false'] at hruns
      have hnext : g.code = before ++ first :: second :: (c ++ rest) := by
        rw [hcode, List.append_assoc]
        rfl
      have hafter : g.code = (before ++ [first]) ++ (second :: c) ++ rest := by
        rw [hnext]
        simp
      refine ih hafter (fun j hj => hstraight j (List.mem_cons_of_mem _ hj)) (fun j hj => ?_)
        ins hins
      cases hj
      exact hentered.next hfirst h hlinked hnext hruns.2

end Entered

/-- Blocks that control comes to an instruction of are reached. -/
theorem reached_of_entered {g : Graph} (h : g.Formed) (hfirst : g.FirstLabels)
    (hall : ∀ ins ∈ g.code, g.Entered ins) : g.AllReached := by
  intro l hl
  rw [← Outline.labels_outline] at hl
  obtain ⟨e, he, rfl⟩ := List.mem_map.mp hl
  obtain ⟨first, rest, hcode, hlabel⟩ := hfirst e he
  have hin : first ∈ e.2 := hcode ▸ List.mem_cons_self
  obtain ⟨e', he', hreached, hin'⟩ := hall first (mem_code_of_mem he hin)
  have hown := h.own e' he' first hin'
    (hlabel ▸ Outline.labels_outline g ▸ List.mem_map_of_mem he)
  rw [← hlabel, hown]
  exact hreached

end Graph

/-! ## The code of a graph cut into blocks anew -/

/-- A graph holds the code of another one, relinked, and is cut where the code calls for it. -/
structure Graph.Recut (g r : Graph) : Prop where
  formed : r.Formed
  linked : r.Linked
  firstLabels : r.FirstLabels
  terminators : r.terminators = g.terminators
  code : r.code = g.code.map g.relinkInstruction

namespace Graph.Recut

variable {g r : Graph}

/-- Control goes on to the end of a block of the first graph from its start. -/
theorem entered_block (hr : g.Recut r) (h : g.Formed) {before rest : Outline} {l : Int}
    {c : List Instruction} (hsplit : g.outline = before ++ (l, c) :: rest)
    (hhead : ∀ ins, c.head? = some ins → r.Entered (g.relinkInstruction ins)) :
    ∀ ins ∈ c, r.Entered (g.relinkInstruction ins) := by
  have hstraight := h.straight (l, c) (by rw [hsplit]; simp)
  have hcut : r.code = (Outline.code before).map g.relinkInstruction
      ++ c.map g.relinkInstruction ++ (Outline.code rest).map g.relinkInstruction := by
    rw [hr.code, ← Outline.code_outline, hsplit, Outline.code_append, Outline.code_cons]
    simp
  have hall := Entered.along hr.firstLabels hr.formed hr.linked hcut
    (fun j hj => by
      rw [← List.map_dropLast] at hj
      obtain ⟨ins, hins, rfl⟩ := List.mem_map.mp hj
      rw [hr.terminators]
      exact (Instruction.retarget_endsRun _ _ _).trans (hstraight ins hins))
    (fun j hj => by
      rw [List.head?_map] at hj
      obtain ⟨ins, hins, rfl⟩ := Option.map_eq_some_iff.mp hj
      exact hhead ins hins)
  exact fun ins hins => hall _ (List.mem_map_of_mem hins)

/-- Both graphs start with the first instruction. -/
theorem entered_entry (hr : g.Recut r) {ins : Instruction} (hhead : g.code.head? = some ins) :
    r.Entered (g.relinkInstruction ins) := by
  have hhead' : r.code.head? = some (g.relinkInstruction ins) := by
    rw [hr.code, List.head?_map, hhead]
    rfl
  cases houtline : r.outline with
  | nil =>
    rw [← Outline.code_outline, houtline] at hhead'
    cases hhead'
  | cons e rest =>
    have he : e ∈ r.outline := houtline ▸ List.mem_cons_self
    obtain ⟨first, others, hfirst, -⟩ := hr.firstLabels e he
    rw [← Outline.code_outline, houtline, Outline.code_cons, hfirst] at hhead'
    cases hhead'
    refine ⟨e, he, .root ?_, hfirst ▸ List.mem_cons_self⟩
    rw [hr.formed.roots_eq, ← Outline.labels_outline, houtline]
    exact List.mem_append_left _ List.mem_cons_self

/-- A branch comes to the first instruction at the label that it names. -/
theorem entered_target (hr : g.Recut r) (h : g.Formed) {last : Instruction}
    (hlast : r.Entered (g.relinkInstruction last)) (hmem : last ∈ g.code) {t : Value}
    (ht : t ∈ last.aims) {l : Int} (hl : l ∈ g.labels) (htl : t.wholeNumber? = some l)
    {place : Outline} (hplace : g.outline.from? l = some place) {ins : Instruction}
    (hhead : (Outline.code place).head? = some ins) : r.Entered (g.relinkInstruction ins) := by
  have hlive : g.liveTarget? l = some ins.uid := by
    rw [liveTarget?_of_label hl hplace, hhead]
    rfl
  have hins : ins ∈ g.code := by
    obtain ⟨front, hfront⟩ := code_of_suffix (Outline.from?_eq_some hplace).1
    rw [hfront]
    exact List.mem_append_right _ (List.mem_of_mem_head? hhead)
  refine hlast.jump hr.firstLabels hr.formed hr.linked (t := g.relinkTarget t) ?_ ?_ ?_
  · rw [h.aims_relink hmem]
    exact List.mem_map_of_mem ht
  · rw [hr.code]
    exact List.mem_map_of_mem hins
  · rw [relinkTarget_of_live htl hlive, relinkInstruction_uid]

/-- Control that falls out of a block comes to the code behind it. -/
theorem entered_behind (hr : g.Recut r) {before rest : Outline} {l : Int}
    {init : List Instruction} {last ins : Instruction}
    (hsplit : g.outline = before ++ (l, init ++ [last]) :: rest)
    (hlast : r.Entered (g.relinkInstruction last))
    (hfalls : last.fallsThrough g.terminators = true)
    (hhead : (Outline.code rest).head? = some ins) : r.Entered (g.relinkInstruction ins) := by
  obtain ⟨more, hmore⟩ := List.head?_eq_some_iff.mp hhead
  have hcut : r.code = (Outline.code before ++ init).map g.relinkInstruction
      ++ g.relinkInstruction last :: g.relinkInstruction ins
        :: more.map g.relinkInstruction := by
    rw [hr.code, ← Outline.code_outline, hsplit, Outline.code_append, Outline.code_cons, hmore]
    simp
  refine hlast.next hr.firstLabels hr.formed hr.linked hcut ?_
  rw [← hr.terminators] at hfalls
  unfold Instruction.fallsThrough relinkInstruction
  rw [Instruction.retarget_opcode, Instruction.retarget_mnemonic]
  exact hfalls

end Graph.Recut

/-- The place of the entry is the whole outline. -/
theorem Graph.Formed.from?_entry {g : Graph} (h : g.Formed) {l : Int}
    (hl : l ∈ (g.entry?.map (·.label)).toList) {place : Outline}
    (hplace : g.outline.from? l = some place) : place = g.outline := by
  rw [h.entry?_eq, Option.mem_toList, ← List.head?_map] at hl
  have hlabel : g.outline.labels.head? = some l := by
    rw [Outline.labels_outline]
    exact hl
  rw [Outline.labels, List.head?_map] at hlabel
  obtain ⟨⟨l', c⟩, he, rfl⟩ := Option.map_eq_some_iff.mp hlabel
  obtain ⟨rest, hrest⟩ := List.head?_eq_some_iff.mp he
  have hsplit : g.outline = [] ++ (l', c) :: rest := hrest
  rw [from?_of_split h.outline_nodup hsplit] at hplace
  rw [hrest]
  exact (Option.some.inj hplace).symm

namespace Graph.Written

variable {g r : Graph} {m : Method} {terminators : List Value}

/-! ## The written method cut into blocks -/

/-- The blocks that a written method is cut into hold its instructions. -/
theorem rebuilt_code (hwritten : g.Written m) (hbuild : build m terminators = .ok r) :
    r.code = g.code.map g.relinkInstruction :=
  (build_code hbuild).trans hwritten.code

theorem recut (hwritten : g.Written m) (h : g.Formed) (hbuild : build m g.terminators = .ok r) :
    g.Recut r where
  formed := (build_formed hbuild (hwritten.uids_nodup h)).1
  linked := (build_formed hbuild (hwritten.uids_nodup h)).2
  firstLabels := build_firstLabels hbuild
  terminators := build_terminators hbuild
  code := hwritten.rebuilt_code hbuild

/-- The handlers of the method that is written out are entered in its blocks. -/
theorem entered_handler (hwritten : g.Written m) (h : g.Formed) (hheaded : g.Headed)
    (hbuild : build m terminators = .ok r) {s : Span} (hs : s ∈ g.spans) {l : Int}
    (hl : s.handlerBlocks.head? = some l) {place : Outline}
    (hplace : g.outline.from? l = some place) {ins : Instruction}
    (hhead : (Outline.code place).head? = some ins) : r.Entered (g.relinkInstruction ins) := by
  have hnodup := hwritten.uids_nodup h
  obtain ⟨hr, -⟩ := build_formed hbuild hnodup
  obtain ⟨index, hindex⟩ := List.mem_iff_getElem?.mp hs
  have hplace' : g.handlerPlace? index = some place := by
    rw [handlerPlace?, hindex, Option.bind_some, hl, Option.bind_some, hplace]
  obtain ⟨region, hregion, -, -, henter⟩ := hwritten.enter?_handler h hheaded hindex hplace'
  have hfirst := build_firstLabels hbuild
  obtain ⟨ranges, exits, haccepts, hcut⟩ := build_eq_ok.mp hbuild
  obtain ⟨s', c, hs', -, hstart, -, hc⟩ := haccepts.span_of_region hnodup hregion
  rw [Method.enter?, hc, Option.map_some] at henter
  have hins : m.code[c]? = some (g.relinkInstruction ins) := by
    rw [← List.head?_drop, Option.some.inj henter, List.head?_map, hhead]
    rfl
  have hroot : (g.relinkInstruction ins).uid ∈ r.roots := by
    rw [← labelAt_eq hins]
    refine List.mem_append_right _ (List.mem_filterMap.mpr ⟨s', ?_, hstart⟩)
    rw [hcut]
    exact List.mem_of_getElem? hs'
  have hmem : g.relinkInstruction ins ∈ r.code := by
    rw [hwritten.rebuilt_code hbuild, ← hwritten.code]
    exact List.mem_of_getElem? hins
  exact .of_label hfirst hr (hr.roots_subset hroot) (.root hroot) hmem rfl

/-- Where control reaches a label of the graph, it comes to the first instruction there in the
    blocks of the written method. -/
theorem entered_label (hwritten : g.Written m) (h : g.Formed) (hlinked : g.Linked)
    (hheaded : g.Headed) (hbuild : build m g.terminators = .ok r) {l : Int} (hl : g.Reached l) :
    ∀ place, g.outline.from? l = some place → ∀ ins,
      (Outline.code place).head? = some ins → r.Entered (g.relinkInstruction ins) := by
  have hr := hwritten.recut h hbuild
  induction hl with
  | @root l hroot =>
    intro place hplace ins hhead
    rcases List.mem_append.mp hroot with hentry | hhandler
    · rw [h.from?_entry hentry hplace, Outline.code_outline] at hhead
      exact hr.entered_entry hhead
    · obtain ⟨s, hs, hl⟩ := List.mem_filterMap.mp hhandler
      exact hwritten.entered_handler h hheaded hbuild hs hl hplace hhead
  | @edge b l hb hreached hsucc ih =>
    intro place hplace ins hhead
    have hleads := (hlinked.succs b hb l).mp hsucc
    have hlabel := h.mem_labels_of_leads hleads
    obtain ⟨before, c, rest, hsplit, hway⟩ := hleads
    have hfrom := from?_of_split h.outline_nodup hsplit
    have hblock : ∀ i ∈ c, r.Entered (g.relinkInstruction i) := by
      refine hr.entered_block h hsplit fun i hi => ih _ hfrom i ?_
      obtain ⟨more, hmore⟩ := List.head?_eq_some_iff.mp hi
      rw [Outline.code_cons, hmore]
      rfl
    rcases hway with ⟨last, hlast, t, ht, htl⟩ | ⟨hfalls, hnext⟩
    · have hin := List.mem_of_getLast? hlast
      have hmem : last ∈ g.code :=
        mem_code_of_mem (hsplit ▸ List.mem_append_right _ List.mem_cons_self) hin
      exact hr.entered_target h (hblock last hin) hmem ht hlabel htl hplace hhead
    · have hsplit' : g.outline = (before ++ [(b.label, c)]) ++ rest := by
        rw [hsplit, List.append_assoc, List.singleton_append]
      have hrest : place = rest := by
        cases rest with
        | nil => cases hnext
        | cons e rest =>
          obtain rfl : e.1 = l := Option.some.inj hnext
          rw [from?_of_split h.outline_nodup hsplit'] at hplace
          exact (Option.some.inj hplace).symm
      subst hrest
      -- An empty block hands on what comes to it.
      rcases List.eq_nil_or_concat c with rfl | ⟨init, last, rfl⟩
      · exact ih _ hfrom ins (by rw [Outline.code_cons]; exact hhead)
      · rw [List.concat_eq_append] at hsplit hfalls hblock
        rw [fallsOut, List.getLast?_concat] at hfalls
        exact hr.entered_behind hsplit (hblock last (by simp)) hfalls hhead

/-- When every block of the graph is reached, every block is that the written method is cut
    into. -/
theorem rebuilt_reached (hwritten : g.Written m) (h : g.Formed) (hlinked : g.Linked)
    (hheaded : g.Headed) (hall : g.AllReached) (hbuild : build m g.terminators = .ok r) :
    r.AllReached := by
  have hr := hwritten.recut h hbuild
  refine reached_of_entered hr.formed hr.firstLabels fun j hj => ?_
  rw [hr.code] at hj
  obtain ⟨ins, hins, rfl⟩ := List.mem_map.mp hj
  rw [← Outline.code_outline] at hins
  obtain ⟨⟨l, c⟩, he, hin⟩ := List.mem_flatMap.mp hins
  have hl : l ∈ g.labels := Outline.labels_outline g ▸ List.mem_map_of_mem he
  obtain ⟨before, rest, hsplit⟩ := List.append_of_mem he
  have hfrom := from?_of_split h.outline_nodup hsplit
  refine hr.entered_block h hsplit (fun i hi => ?_) ins hin
  refine hwritten.entered_label h hlinked hheaded hbuild (hall l hl) _ hfrom i ?_
  obtain ⟨more, hmore⟩ := List.head?_eq_some_iff.mp hi
  rw [Outline.code_cons, hmore]
  rfl

end Graph.Written

/-! ## A written method is accepted -/

namespace Method

/-- The target of every exit from a region is an integer or missing. -/
def ExitsByNumber (m : Method) : Prop :=
  ∀ ins ∈ m.code, ins.opcode = some .leave →
    ins.operand.isNone = true ∨ ∃ n : Int, ins.operand = .value (.int n)

variable {m : Method} {settings : Settings}

/-- A method that is not rewritten stays the method that was given. -/
theorem normalize_kept (hnodup : (m.code.map (·.uid)).Nodup)
    (h : (m.normalize settings).rewritten = false) : (m.normalize settings).body = m := by
  cases hbuild : Graph.build m.copy settings.terminators with
  | error f => rw [normalize_of_refused hbuild, Outcome.revert_body]
  | ok g =>
    obtain ⟨hdone, hfailed⟩ := normalize_of_build hbuild
    cases hwork : m.workOn settings g with
    | error f w => rw [hfailed f w hwork, Outcome.revert_body]
    | ok o w =>
      rw [hdone o w hwork] at h ⊢
      obtain ⟨hformed, hlinked⟩ := Graph.build_formed hbuild (copy_nodup hnodup)
      obtain ⟨changes, w₂, -, ⟨-, -, hbody, -⟩ | ⟨-, hrewritten, -⟩⟩ :=
        Pipeline.work_eq_ok hformed hlinked hwork
      · exact hbody
      · exact absurd (hrewritten.symm.trans h) (by decide)

/-- What is looked up when a written method is cut into blocks can be looked up. -/
theorem build_written {P : Platform} {g₀ g : Graph} {new : Method} (hexits : m.ExitsByNumber)
    (hbuild : Graph.build m.copy settings.terminators = .ok g₀) (hsound : g₀.Sound P g)
    (hwritten : g.Written new) : ∃ r, Graph.build new settings.terminators = .ok r := by
  obtain ⟨ranges, exits, haccepts, -⟩ := Graph.build_eq_ok.mp hbuild
  have hcode : g₀.code = m.copy.code := Graph.build_code hbuild
  -- Instructions of kinds that stages do not make come from the method.
  have hdrawn : ∀ ins ∈ new.code, ins.opcode = some .leave ∨ ins.opcode = some .other →
      ∃ i ∈ m.code, ins = g.relinkInstruction i.copy ∧ ins.opcode = i.opcode := by
    intro ins hins hop
    rw [hwritten.code] at hins
    obtain ⟨j, hj, rfl⟩ := List.mem_map.mp hins
    have hsame := g.relinkInstruction_opcode j
    rw [hsame] at hop
    rcases hsound.kept.drawn j hj with hold | hmade
    · obtain ⟨i, hi, rfl⟩ := List.mem_map.mp (hcode ▸ hold)
      refine ⟨i, hi, rfl, hsame.trans ?_⟩
      unfold Instruction.copy
      split <;> rfl
    · unfold Instruction.IsMade at hmade
      rcases hop with hop | hop <;> rw [hop] at hmade <;> simp at hmade
  refine Graph.exists_build hwritten.valid.targets hwritten.valid.regions haccepts.keys
    (fun ins hins hop => ?_) fun place ins hplace hop _ => ?_
  · obtain ⟨i, hi, rfl, -⟩ := hdrawn ins hins (Or.inr hop)
    have hmnemonic : (g.relinkInstruction i.copy).mnemonic = i.copy.mnemonic :=
      Instruction.retarget_mnemonic _ _
    have hopcode := g.relinkInstruction_opcode i.copy
    rw [hmnemonic]
    exact (Graph.checkFlow_eq_ok.mp (haccepts.flows _ (List.mem_map_of_mem hi))).2
      (hopcode.symm.trans hop)
  · have hins := List.mem_of_getElem? hplace
    obtain ⟨i, hi, rfl, hsame⟩ := hdrawn ins hins (Or.inl hop)
    have hleave : i.opcode = some .leave := hsame.symm.trans hop
    have hoperand : i.operand.isNone = true ∨ ∃ n : Int, i.operand = .value (.int n) :=
      hexits i hi hleave
    have hcopy : i.copy = i := by
      unfold Instruction.copy
      rcases hoperand with hnone | ⟨n, hn⟩
      · rw [Operand.eq_of_isNone hnone]
      · rw [hn]
    rw [hcopy] at hins hop ⊢
    have hbranch : i.isBranch = true := by unfold Instruction.isBranch; rw [hleave]; rfl
    have hrelinked := Instruction.retarget_single g.relinkTarget hbranch
      (by rw [hleave]; decide)
    have hsome := hwritten.valid.operands _ hins (by unfold Instruction.isBranch; rw [hop]; rfl)
    rcases hoperand with hnone | ⟨n, hn⟩
    · rw [if_pos hnone] at hrelinked
      rw [show (g.relinkInstruction i).operand = i.operand from hrelinked, hnone] at hsome
      cases hsome
    · rw [hn] at hrelinked
      rw [show (g.relinkInstruction i).operand = _ from hrelinked]
      exact Graph.relinkTarget_asInt? rfl

/-- Normalizing is all or nothing. Either the method stays as it was, or it is replaced by one
    that is whole: it has no defects, its uids are distinct, and it can be cut into blocks
    again, all of which control can reach from the entry or from the start of a handler. -/
theorem normalize_all_or_nothing (m : Method) (settings : Settings)
    (hnodup : (m.code.map (·.uid)).Nodup) (hexits : m.ExitsByNumber) :
    ((m.normalize settings).rewritten = false ∧ (m.normalize settings).body = m)
      ∨ ((m.normalize settings).rewritten = true ∧ (m.normalize settings).body.Valid
        ∧ ((m.normalize settings).body.code.map (·.uid)).Nodup
        ∧ ∃ r, Graph.build (m.normalize settings).body settings.terminators = .ok r
          ∧ r.AllReached) := by
  cases hrewritten : (m.normalize settings).rewritten with
  | false => exact Or.inl ⟨rfl, normalize_kept hnodup hrewritten⟩
  | true =>
    refine Or.inr ⟨rfl, ?_⟩
    obtain ⟨M, hmachine⟩ := machine_of_rewritten hnodup hrewritten
    obtain ⟨g₀, g, hbuild, hsound, hreached, hwritten, -⟩ :=
      normalize_written (P := ⟨M, default, settings.terminators⟩) hnodup hmachine rfl hrewritten
    obtain ⟨r, hr⟩ := build_written hexits hbuild hsound hwritten
    have hterminators : g.terminators = settings.terminators :=
      hsound.kept.terminators.trans (Graph.build_terminators hbuild)
    exact ⟨hwritten.valid, hwritten.uids_nodup hsound.formed, r, hr,
      hwritten.rebuilt_reached hsound.formed hsound.linked hsound.headed hreached
        (hterminators ▸ hr)⟩

theorem knownDispatch_all_or_nothing :
    ((knownDispatch.normalize {}).rewritten = false
        ∧ (knownDispatch.normalize {}).body = knownDispatch)
      ∨ ((knownDispatch.normalize {}).rewritten = true ∧ (knownDispatch.normalize {}).body.Valid
        ∧ ((knownDispatch.normalize {}).body.code.map (·.uid)).Nodup
        ∧ ∃ r, Graph.build (knownDispatch.normalize {}).body ({} : Settings).terminators = .ok r
          ∧ r.AllReached) :=
  normalize_all_or_nothing knownDispatch {} (by decide) fun ins hins hleave => by
    simp only [knownDispatch, List.mem_cons, List.not_mem_nil, or_false] at hins
    rcases hins with rfl | rfl | rfl | rfl | rfl | rfl | rfl | rfl
    all_goals first | exact Or.inr ⟨7, rfl⟩ | cases hleave

end Method

end Untangle
