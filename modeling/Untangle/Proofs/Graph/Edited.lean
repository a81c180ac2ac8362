/-
  Untangle.Proofs.Graph.Edited

  A well-formed graph stays so when the code of its blocks is reworked with care: branches
  go where the block already went, only the end of a block may leave the straight line, and
  recorded exits stay exits (`Formed.reworked`). The edits of the stages are of that kind
  (`Edit.Mild`). Where the ends of blocks are kept too, control goes where it went
  (`Formed.reached_of_ends`).
-/
import Untangle.Proofs.Graph.Reach
import Untangle.Proofs.Graph.Sweep

namespace Untangle

namespace Graph

/-- Code put in place of the code of a block. -/
structure Fits (terminators : List Value) (fresh : Int) (old new : List Instruction) : Prop where
  uids : ∀ j ∈ new, j.uid ∈ old.map (·.uid) ∨ fresh ≤ j.uid
  straight : ∀ j ∈ new.dropLast, j.endsRun terminators = false
  targets : ∀ j ∈ new, ∃ ts, j.targets = .ok ts ∧ ∀ t ∈ ts, ∃ ins ∈ old, t ∈ ins.aims
  exits : ∀ j ∈ new, ∀ ins ∈ old, j.uid = ins.uid → ins.opcode = some .leave →
    j.opcode = some .leave

/-- A graph is well-formed when its code is put in place of that of a well-formed one. -/
theorem Formed.reworked {g g' : Graph} (h : g.Formed) (hnumbered : g'.Numbered)
    (hreworked : Reworked g g') {F : Int × List Instruction → List Instruction}
    (houtline : g'.outline = g.outline.replace F)
    (hfits : ∀ e ∈ g.outline, Fits g.terminators g.fresh e.2 (F e)) : g'.Formed := by
  -- Where an instruction of the new code comes from.
  have hfrom : ∀ j ∈ g'.code, ∃ e ∈ g.outline, j ∈ F e := by
    intro j hj
    rw [← Outline.code_outline, houtline] at hj
    obtain ⟨e', he', hj⟩ := List.mem_flatMap.mp hj
    obtain ⟨e, he, rfl⟩ := List.mem_map.mp he'
    exact ⟨e, he, hj⟩
  constructor
  case labels_nodup => exact hnumbered.labels_nodup
  case uids_nodup => exact hnumbered.uids_nodup
  case labels_fresh =>
    rw [hreworked.labels]
    exact fun l hl => Int.lt_of_lt_of_le (h.labels_fresh l hl) hreworked.fresh
  case uids_fresh => exact hnumbered.uids_fresh
  case own =>
    rw [houtline, hreworked.labels]
    intro e' he' j hj hlabel
    obtain ⟨e, he, rfl⟩ := List.mem_map.mp he'
    rcases (hfits e he).uids j hj with hold | hnew
    · obtain ⟨ins, hins, hsame⟩ := List.mem_map.mp hold
      rw [← hsame] at hlabel ⊢
      exact h.own e he ins hins hlabel
    · exact absurd (h.labels_fresh _ hlabel) (by omega)
  case straight =>
    rw [houtline, hreworked.terminators]
    intro e' he'
    obtain ⟨e, he, rfl⟩ := List.mem_map.mp he'
    exact (hfits e he).straight
  case targets =>
    rw [hreworked.labels]
    intro j hj
    obtain ⟨e, he, hje⟩ := hfrom j hj
    obtain ⟨ts, hts, haims⟩ := (hfits e he).targets j hje
    refine ⟨ts, hts, fun t ht => ?_⟩
    obtain ⟨ins, hins, htins⟩ := haims t ht
    exact h.aims (mem_code_of_mem he hins) htins
  case entry =>
    intro b' rest' hblocks'
    have hentries := hreworked.entries
    rw [hblocks', List.map_cons] at hentries
    cases hblocks : g.blocks with
    | nil => rw [hblocks] at hentries; cases hentries
    | cons b rest =>
      rw [hblocks, List.map_cons] at hentries
      obtain ⟨hb, hrest⟩ := List.cons.inj hentries
      obtain ⟨hfirst, hothers⟩ := h.entry b rest hblocks
      refine ⟨hb.trans hfirst, fun c' hc' => ?_⟩
      have hflag : c'.isEntry ∈ rest.map (·.isEntry) := hrest ▸ List.mem_map_of_mem hc'
      obtain ⟨c, hc, hsame⟩ := List.mem_map.mp hflag
      exact hsame ▸ hothers c hc
  case handlers =>
    rw [hreworked.spans, hreworked.labels]
    exact h.handlers
  case starts =>
    rw [hreworked.spans]
    exact h.starts
  case exits =>
    rw [hreworked.exits]
    intro r hr
    obtain ⟨hfresh, hleave⟩ := h.exits r hr
    refine ⟨Int.lt_of_lt_of_le hfresh hreworked.fresh, fun j hj huid => ?_⟩
    obtain ⟨e, he, hje⟩ := hfrom j hj
    rcases (hfits e he).uids j hje with hold | hnew
    · obtain ⟨ins, hins, hsame⟩ := List.mem_map.mp hold
      exact (hfits e he).exits j hje ins hins hsame.symm
        (hleave ins (mem_code_of_mem he hins) (hsame.trans huid))
    · omega

/-- The end of a block is kept: an instruction that leaves the straight line stays last, and
    none comes in. -/
structure KeepsEnd (terminators : List Value) (old new : List Instruction) : Prop where
  stays : ∀ last, old.getLast? = some last → last.endsRun terminators = true →
    new.getLast? = some last
  comes : (∀ last, old.getLast? = some last → last.endsRun terminators = false) →
    ∀ j ∈ new, j.endsRun terminators = false

/-- Where the ends of blocks are kept, the edges are kept. -/
theorem leads_of_ends {g g' : Graph} {F : Int × List Instruction → List Instruction}
    (hreworked : Reworked g g') (houtline : g'.outline = g.outline.replace F)
    (hends : ∀ e ∈ g.outline, KeepsEnd g.terminators e.2 (F e)) {a l : Int} (h : g.Leads a l) :
    g'.Leads a l := by
  obtain ⟨before, c, rest, hsplit, hway⟩ := h
  have hkeeps := hends (a, c) (hsplit ▸ List.mem_append_right _ List.mem_cons_self)
  refine ⟨Outline.replace before F, F (a, c), Outline.replace rest F, ?_, ?_⟩
  · rw [houtline, hsplit, Outline.replace, List.map_append]
    rfl
  · rw [Outline.labels_replace, hreworked.terminators]
    rcases hway with ⟨last, hlast, t, ht, htl⟩ | ⟨hfalls, hnext⟩
    · have hbranch := Instruction.isBranch_of_mem_aims ht
      refine Or.inl ⟨last, hkeeps.stays last hlast ?_, t, ht, htl⟩
      rw [Instruction.endsRun, hbranch, Bool.true_or]
    · refine Or.inr ⟨?_, hnext⟩
      unfold fallsOut at hfalls ⊢
      cases hlast' : (F (a, c)).getLast? with
      | none => rfl
      | some last' =>
        show last'.fallsThrough g.terminators = true
        cases hlast : c.getLast? with
        | none =>
          have hstraight := hkeeps.comes (fun last h => by rw [hlast] at h; cases h) last'
            (List.mem_of_getLast? hlast')
          rw [Instruction.endsRun, Bool.or_eq_false_iff, Bool.not_eq_false'] at hstraight
          exact hstraight.2
        | some last =>
          cases hend : last.endsRun g.terminators with
          | true =>
            have hsame := hkeeps.stays last hlast hend
            rw [hlast'] at hsame
            cases hsame
            rw [hlast] at hfalls
            exact hfalls
          | false =>
            have hstraight := hkeeps.comes (fun last' h => by
              rw [hlast] at h
              cases h
              exact hend) last' (List.mem_of_getLast? hlast')
            rw [Instruction.endsRun, Bool.or_eq_false_iff, Bool.not_eq_false'] at hstraight
            exact hstraight.2

/-- Where the ends of blocks are kept, every block stays reached. -/
theorem Formed.reached_of_ends {g g' : Graph} (h : g.Formed) (hlinked : g.Linked)
    (h' : g'.Formed) (hlinked' : g'.Linked) (hreworked : Reworked g g')
    {F : Int × List Instruction → List Instruction} (houtline : g'.outline = g.outline.replace F)
    (hends : ∀ e ∈ g.outline, KeepsEnd g.terminators e.2 (F e)) (hall : g.AllReached) :
    g'.AllReached := by
  have hroots : g'.roots = g.roots :=
    h.roots_congr h' (by rw [hreworked.labels]) (by rw [hreworked.spans])
  intro l hl
  rw [hreworked.labels] at hl
  have hreached := hall l hl
  clear hl
  induction hreached with
  | root hroot => exact .root (hroots ▸ hroot)
  | edge hb _ hsucc ih =>
    have hleads := leads_of_ends hreworked houtline hends ((hlinked.succs _ hb _).mp hsucc)
    obtain ⟨b', hb', hlabel⟩ := List.mem_map.mp hleads.mem_labels
    rw [← hlabel] at ih hleads
    exact .edge hb' ih ((hlinked'.succs b' hb' _).mpr hleads)

end Graph

/-! ## Mild edits -/

/-- Edits of an instruction that leave its graph well-formed. -/
structure Edit.Mild (edits : List Edit) (ins : Instruction) : Prop where
  target : ∀ t, asked edits Change.target? ins.uid = some t →
    t ∈ ins.aims ∧ ins.opcode ≠ some .leave
  constant : ∀ v, asked edits Change.constant? ins.uid = some v → ins.opcode ≠ some .leave
  opcode : ∀ op, asked edits Change.opcode? ins.uid = some op → op = .pop

namespace Edit

variable {edits : List Edit} {ins : Instruction}

theorem mem_dropLast_outcome {number : Int → Int} {j : Instruction}
    (hj : j ∈ (outcome edits number ins).dropLast) :
    ∃ op, asked edits Change.opcode? ins.uid = some op
      ∧ j = { opcode := some op, uid := number ins.uid } := by
  unfold outcome at hj
  cases hop : asked edits Change.opcode? ins.uid with
  | none =>
    rw [hop] at hj
    by_cases hgone : (asked edits Change.removal? ins.uid).isSome
    · rw [if_pos hgone] at hj; cases hj
    · rw [if_neg hgone] at hj; cases hj
  | some op =>
    rw [hop] at hj
    by_cases hgone : (asked edits Change.removal? ins.uid).isSome
    · rw [if_pos hgone] at hj; cases hj
    · rw [if_neg hgone] at hj
      exact ⟨op, rfl, List.mem_singleton.mp hj⟩

/-- An instruction after its edits is as it was, pushes a constant, or is a branch. -/
theorem turned_cases (edits : List Edit) (ins : Instruction) :
    (∃ v, asked edits Change.constant? ins.uid = some v
        ∧ turned edits ins = ins.become .pushConst (.value v))
      ∨ (∃ t, asked edits Change.target? ins.uid = some t
        ∧ turned edits ins = ins.become .branch (.value t))
      ∨ turned edits ins = ins := by
  unfold turned
  cases asked edits Change.constant? ins.uid with
  | some v => exact Or.inl ⟨v, rfl, rfl⟩
  | none =>
    cases asked edits Change.target? ins.uid with
    | some t => exact Or.inr (Or.inl ⟨t, rfl, rfl⟩)
    | none => exact Or.inr (Or.inr rfl)

theorem become_targets (ins : Instruction) (t : Value) :
    ∃ ts, (ins.become .branch (.value t)).targets = .ok ts ∧ ∀ t' ∈ ts, t' = t := by
  unfold Instruction.targets
  show ∃ ts, (if (Operand.value t).isNone then (.ok [] : Except Misuse (List Value))
    else .ok [t]) = .ok ts ∧ _
  split
  · exact ⟨[], rfl, fun t' ht' => absurd ht' List.not_mem_nil⟩
  · exact ⟨[t], rfl, fun t' ht' => List.mem_singleton.mp ht'⟩

theorem Mild.turned_straight (h : Mild edits ins) {terminators : List Value}
    (hins : ins.endsRun terminators = false) : (turned edits ins).endsRun terminators = false := by
  rcases turned_cases edits ins with ⟨v, -, hv⟩ | ⟨t, ht, -⟩ | hsame
  · rw [hv]; rfl
  · have hbranch := Instruction.isBranch_of_mem_aims (h.target t ht).1
    rw [Instruction.endsRun, hbranch] at hins
    cases hins
  · rw [hsame]; exact hins

theorem Mild.front_straight (h : Mild edits ins) {op : Opcode}
    (hop : asked edits Change.opcode? ins.uid = some op) (u : Int) (terminators : List Value) :
    ({ opcode := some op, uid := u } : Instruction).endsRun terminators = false := by
  rw [h.opcode op hop]
  rfl

theorem mem_dropLast_flatMap {α β : Type} {f : α → List β} {l : List α} {b : β}
    (hb : b ∈ (l.flatMap f).dropLast) :
    (∃ a ∈ l.dropLast, b ∈ f a) ∨ ∃ a, l.getLast? = some a ∧ b ∈ (f a).dropLast := by
  rcases List.eq_nil_or_concat l with rfl | ⟨init, last, rfl⟩
  · cases hb
  · rw [List.concat_eq_append] at hb ⊢
    rw [List.flatMap_append, List.flatMap_cons, List.flatMap_nil, List.append_nil] at hb
    rw [List.dropLast_concat, List.getLast?_concat]
    by_cases hnil : f last = []
    · rw [hnil, List.append_nil] at hb
      exact Or.inl (List.mem_flatMap.mp (List.dropLast_subset _ hb))
    · rw [List.dropLast_append_of_ne_nil hnil] at hb
      rcases List.mem_append.mp hb with hb | hb
      · exact Or.inl (List.mem_flatMap.mp hb)
      · exact Or.inr ⟨last, rfl, hb⟩

/-- What mild edits put in place of the code of a block fits. -/
theorem fits_outcome {g : Graph} (h : g.Formed) {e : Int × List Instruction} (he : e ∈ g.outline)
    (hmild : ∀ ins ∈ g.code, Mild edits ins) {number : Int → Int}
    (hnew : ∀ v, g.fresh ≤ number v) :
    Graph.Fits g.terminators g.fresh e.2 (e.2.flatMap (outcome edits number)) := by
  have hmild' : ∀ ins ∈ e.2, Mild edits ins := fun ins hins =>
    hmild ins (Graph.mem_code_of_mem he hins)
  constructor
  · intro j hj
    obtain ⟨ins, hins, hj⟩ := List.mem_flatMap.mp hj
    rcases mem_outcome hj with rfl | ⟨op, -, rfl⟩
    · rw [turned_uid]
      exact Or.inl (List.mem_map_of_mem hins)
    · exact Or.inr (hnew ins.uid)
  · intro j hj
    rcases mem_dropLast_flatMap hj with ⟨ins, hins, hj⟩ | ⟨last, hlast, hj⟩
    · have hm := hmild' ins (List.dropLast_subset _ hins)
      rcases mem_outcome hj with rfl | ⟨op, hop, rfl⟩
      · exact hm.turned_straight (h.straight e he ins hins)
      · exact hm.front_straight hop _ _
    · -- Only what is put in front of the last instruction comes before the end.
      have hm := hmild' last (List.mem_of_getLast? hlast)
      obtain ⟨op, hop, rfl⟩ := mem_dropLast_outcome hj
      exact hm.front_straight hop _ _
  · intro j hj
    obtain ⟨ins, hins, hj⟩ := List.mem_flatMap.mp hj
    rcases mem_outcome hj with rfl | ⟨op, hop, rfl⟩
    · rcases turned_cases edits ins with ⟨v, -, hv⟩ | ⟨t, ht, hbranch⟩ | hsame
      · rw [hv]
        exact ⟨[], rfl, fun t ht => absurd ht List.not_mem_nil⟩
      · rw [hbranch]
        obtain ⟨ts, hts, hall⟩ := become_targets ins t
        refine ⟨ts, hts, fun t' ht' => ⟨ins, hins, ?_⟩⟩
        rw [hall t' ht']
        exact ((hmild' ins hins).target t ht).1
      · rw [hsame]
        exact ⟨_, h.targets_ok (Graph.mem_code_of_mem he hins), fun t ht => ⟨ins, hins, ht⟩⟩
    · rw [(hmild' ins hins).opcode op hop]
      exact ⟨[], rfl, fun t ht => absurd ht List.not_mem_nil⟩
  · intro j hj ins hins huid hleave
    obtain ⟨i, hi, hj⟩ := List.mem_flatMap.mp hj
    rcases mem_outcome hj with rfl | ⟨op, -, rfl⟩
    · rw [turned_uid] at huid
      have hsame : i = ins := List.inj_on_of_nodup_map h.uids_nodup
        (Graph.mem_code_of_mem he hi) (Graph.mem_code_of_mem he hins) huid
      subst hsame
      rcases turned_cases edits i with ⟨v, hv, -⟩ | ⟨t, ht, -⟩ | hsame
      · exact absurd hleave ((hmild' i hi).constant v hv)
      · exact absurd hleave ((hmild' i hi).target t ht).2
      · rw [hsame]; exact hleave
    · have hold := h.uids_fresh ins (Graph.mem_code_of_mem he hins)
      have hge := hnew i.uid
      have heq : number i.uid = ins.uid := huid
      omega

/-! ## Edits block by block -/

/-- An edit names an instruction of a block. -/
def Within (e : Edit) (b : Block) : Prop :=
  e.block = .int b.label ∧ ∃ ins ∈ b.code, e.uid = .int ins.uid

theorem within_ofInstruction {b : Block} {ins : Instruction} (hins : ins ∈ b.code)
    (change : Change) (note : String) : (ofInstruction change b ins note).Within b :=
  ⟨rfl, ins, hins, rfl⟩

theorem Within.about {g : Graph} {e : Edit} {b : Block} (h : e.Within b) (hb : b ∈ g.blocks) :
    ∃ l u, e.About g l u := by
  obtain ⟨hblock, ins, hins, huid⟩ := h
  exact ⟨b.label, ins.uid, hblock, huid, b.code, Graph.mem_outline_of_mem hb,
    List.mem_map_of_mem hins⟩

theorem names_ofInstruction (change : Change) (b : Block) (ins : Instruction) (note : String)
    (u : Int) : (ofInstruction change b ins note).names u = (ins.uid == u) :=
  names_eq rfl u

/-- What an edit of an instruction asks for counts before what the others ask for. -/
@[simp] theorem asked_ofInstruction {α : Type} (change : Change) (b : Block) (ins : Instruction)
    (note : String) (rest : List Edit) (pick : Change → Option α) (u : Int) :
    asked (ofInstruction change b ins note :: rest) pick u
      = (if ins.uid = u then pick change else none).or (asked rest pick u) := by
  rw [asked_cons, names_ofInstruction]
  by_cases h : ins.uid = u
  · rw [if_pos h, if_pos (by simpa using h)]
    rfl
  · rw [if_neg h, if_neg (by simpa using h)]

theorem asked_of_changes {α : Type} {edits : List Edit} {pick : Change → Option α}
    (h : ∀ e ∈ edits, pick e.change = none) (u : Int) : asked edits pick u = none := by
  refine List.findSome?_eq_none_iff.mpr fun e he => ?_
  rw [h e he, ite_self]

/-- When each block has edits of its own, only those matter for its instructions. -/
theorem asked_blocks {α : Type} {g : Graph} (h : g.Numbered) {edits : Block → List Edit}
    (hwithin : ∀ b ∈ g.blocks, ∀ e ∈ edits b, e.Within b) {b : Block} (hb : b ∈ g.blocks)
    {ins : Instruction} (hins : ins ∈ b.code) (pick : Change → Option α) :
    asked (g.blocks.flatMap edits) pick ins.uid = asked (edits b) pick ins.uid := by
  obtain ⟨before, behind, hsplit⟩ := List.append_of_mem hb
  have hlabels := h.labels_nodup
  rw [Graph.labels, hsplit, List.map_append, List.map_cons] at hlabels
  have hnot := List.nodup_middle.mp hlabels
  -- The edits of another block name other instructions.
  have hother (c : Block) (hc : c ∈ g.blocks) (hne : c ≠ b) (e : Edit) (he : e ∈ edits c) :
      e.names ins.uid = false := by
    obtain ⟨-, i, hi, huid⟩ := hwithin c hc e he
    rw [names_eq huid]
    refine Bool.eq_false_iff.mpr fun heq => hne ?_
    refine h.eq_of_uid hc hb (List.mem_map_of_mem hi) ?_
    rw [eq_of_beq heq]
    exact List.mem_map_of_mem hins
  have houtside (blocks : List Block) (hsub : ∀ c ∈ blocks, c ∈ g.blocks ∧ c ≠ b) :
      asked (blocks.flatMap edits) pick ins.uid = none := by
    refine asked_eq_none (fun e he => ?_) pick
    obtain ⟨c, hc, he⟩ := List.mem_flatMap.mp he
    exact hother c (hsub c hc).1 (hsub c hc).2 e he
  have hne (c : Block) (hc : c ∈ before ++ behind) : c ≠ b := by
    rintro rfl
    refine (List.nodup_cons.mp hnot).1 ?_
    rw [← List.map_append]
    exact List.mem_map_of_mem hc
  rw [hsplit, List.flatMap_append, List.flatMap_cons, asked_append, asked_append,
    houtside before fun c hc => ⟨hsplit ▸ List.mem_append_left _ hc,
      hne c (List.mem_append_left _ hc)⟩,
    houtside behind fun c hc => ⟨hsplit ▸ List.mem_append_right _ (List.mem_cons_of_mem _ hc),
      hne c (List.mem_append_right _ hc)⟩, Option.or_none]
  rfl

theorem outcome_blocks {g : Graph} (h : g.Numbered) {edits : Block → List Edit}
    (hwithin : ∀ b ∈ g.blocks, ∀ e ∈ edits b, e.Within b) {b : Block} (hb : b ∈ g.blocks)
    {ins : Instruction} (hins : ins ∈ b.code) (number : Int → Int) :
    outcome (g.blocks.flatMap edits) number ins = outcome (edits b) number ins := by
  unfold outcome turned
  rw [asked_blocks h hwithin hb hins, asked_blocks h hwithin hb hins,
    asked_blocks h hwithin hb hins, asked_blocks h hwithin hb hins]

theorem mild_blocks {g : Graph} (h : g.Numbered) {edits : Block → List Edit}
    (hwithin : ∀ b ∈ g.blocks, ∀ e ∈ edits b, e.Within b)
    (hmild : ∀ b ∈ g.blocks, ∀ ins ∈ b.code, Mild (edits b) ins) :
    ∀ ins ∈ g.code, Mild (g.blocks.flatMap edits) ins := by
  intro ins hins
  obtain ⟨b, hb, hin⟩ := List.mem_flatMap.mp hins
  have hm := hmild b hb ins hin
  constructor
  · intro t ht
    rw [asked_blocks h hwithin hb hin] at ht
    exact hm.target t ht
  · intro v hv
    rw [asked_blocks h hwithin hb hin] at hv
    exact hm.constant v hv
  · intro op hop
    rw [asked_blocks h hwithin hb hin] at hop
    exact hm.opcode op hop

/-- An instruction that no edit names is as it was. -/
theorem turned_of_not_named (h : ∀ e ∈ edits, e.names ins.uid = false) :
    turned edits ins = ins := by
  unfold turned
  rw [asked_eq_none h, asked_eq_none h]

/-- An instruction that no edit names is left in place. -/
theorem outcome_of_not_named (h : ∀ e ∈ edits, e.names ins.uid = false) (number : Int → Int) :
    outcome edits number ins = [ins] := by
  unfold outcome
  rw [asked_eq_none h, asked_eq_none h, turned_of_not_named h]
  rfl

/-- Whether an instruction is not removed. -/
def isLeft (edits : List Edit) (ins : Instruction) : Bool :=
  (asked edits Change.removal? ins.uid).isNone

/-- An instruction is left by more edits if it is left by each part of them. -/
theorem isLeft_append (edits more : List Edit) (ins : Instruction) :
    isLeft (edits ++ more) ins = (isLeft more ins && isLeft edits ins) := by
  unfold isLeft
  rw [asked_append]
  cases asked edits Change.removal? ins.uid <;> cases asked more Change.removal? ins.uid <;> rfl

/-- An instruction that no edit of the first part names becomes what the rest makes of it. -/
theorem turned_append_of_not_named (h : ∀ e ∈ edits, e.names ins.uid = false)
    (more : List Edit) : turned (edits ++ more) ins = turned more ins := by
  unfold turned
  rw [asked_append, asked_append, asked_eq_none h, asked_eq_none h, Option.none_or, Option.none_or]

/-- What becomes of code when nothing new comes in. -/
theorem flatMap_outcome (h : ∀ e ∈ edits, Change.opcode? e.change = none)
    (code : List Instruction) (number : Int → Int) :
    code.flatMap (outcome edits number) = (code.filter (isLeft edits)).map (turned edits) := by
  have houtcome (ins : Instruction) : outcome edits number ins
      = (if isLeft edits ins then [ins] else []).map (turned edits) := by
    unfold outcome isLeft
    rw [asked_of_changes h]
    cases asked edits Change.removal? ins.uid <;> rfl
  rw [← flatMap_ite, List.map_flatMap]
  exact List.flatMap_congr fun ins _ => houtcome ins

/-! ## Edits that only remove -/

/-- To remove an instruction takes no new uid. -/
theorem apply_refreshed {e : Edit} (h : e.change = .remove) (g : Graph) (n : Int) :
    e.apply { g with fresh := n } = { e.apply g with fresh := n } := by
  have hplace : e.place? { g with fresh := n } = e.place? g := rfl
  unfold apply
  rw [hplace]
  cases e.place? g with
  | none => rfl
  | some place =>
    unfold replacement
    rw [h]
    rfl

theorem applyAll_refreshed (h : ∀ e ∈ edits, e.change = .remove) (g : Graph) (n : Int) :
    applyAll { g with fresh := n } edits
      = ({ (applyAll g edits).1 with fresh := n }, (applyAll g edits).2) := by
  induction edits generalizing g with
  | nil => rfl
  | cons e rest ih =>
    unfold applyAll
    rw [apply_refreshed (h e List.mem_cons_self) g n,
      ih (fun e' he' => h e' (List.mem_cons_of_mem _ he')) (e.apply g)]
    rfl

end Edit

namespace Graph

theorem edited_refreshed {edits : List Edit} (h : ∀ e ∈ edits, e.change = .remove) (g : Graph)
    (n : Int) : ({ g with fresh := n } : Graph).edited edits
      = { g.edited edits with graph := { (g.edited edits).graph with fresh := n } } := by
  have hremove : ∀ e ∈ Edit.inOrder (Edit.coalesced edits), e.change = .remove := by
    intro e he
    obtain ⟨k, -, hek⟩ := List.mem_flatMap.mp he
    exact h e (Edit.coalesced_subset edits (List.mem_of_mem_filter hek))
  unfold edited
  dsimp only
  rw [Edit.applyAll_refreshed hremove]
  dsimp only
  split <;> rfl

/-- When each block has edits of its own, each instruction makes way for what those put in its
    place. -/
theorem edited_blocks {g : Graph} (h : g.Numbered) {edits : Block → List Edit}
    (hwithin : ∀ b ∈ g.blocks, ∀ e ∈ edits b, e.Within b) :
    Reworked g (g.edited (g.blocks.flatMap edits)).graph ∧ ∃ number, (∀ v, g.fresh ≤ number v)
      ∧ List.Forall₂ (fun b b' : Block => b'.label = b.label
        ∧ b'.code = b.code.flatMap (Edit.outcome (edits b) number))
          g.blocks (g.edited (g.blocks.flatMap edits)).graph.blocks := by
  by_cases hsome : g.blocks.flatMap edits = []
  · rw [hsome]
    refine ⟨.refl g, fun _ => g.fresh, fun _ => Int.le_refl _,
      List.forall₂_same.mpr fun b hb => ⟨rfl, ?_⟩⟩
    rw [List.flatMap_eq_nil_iff.mp hsome b hb]
    exact (List.flatMap_singleton' _).symm
  · have habout : ∀ e ∈ g.blocks.flatMap edits, ∃ l u, e.About g l u := fun e he => by
      obtain ⟨b, hb, he⟩ := List.mem_flatMap.mp he
      exact (hwithin b hb e he).about hb
    obtain ⟨-, -, -, hreworked, -, number, hfresh, houtline⟩ := edited_spec h habout hsome
    refine ⟨hreworked, number, hfresh, ?_⟩
    have hpairs : (g.edited (g.blocks.flatMap edits)).graph.blocks.map (fun b => (b.label, b.code))
        = g.blocks.map fun b => (b.label, b.code.flatMap (Edit.outcome (edits b) number)) := by
      refine (houtline.trans (List.map_map ..)).trans (List.map_congr_left fun b hb => ?_)
      exact congrArg (Prod.mk b.label) (List.flatMap_congr fun ins hins =>
        Edit.outcome_blocks h hwithin hb hins number)
    rw [← List.forall₂_eq_eq_eq, List.forall₂_map_left_iff, List.forall₂_map_right_iff] at hpairs
    exact hpairs.flip.imp fun b b' hsame => Prod.mk.inj hsame

/-- A graph after mild edits is well-formed, and its edges are those of its outline. -/
theorem Formed.edited {g : Graph} (h : g.Formed) {edits : List Edit}
    (habout : ∀ e ∈ edits, ∃ l u, e.About g l u) (hsome : edits ≠ [])
    (hmild : ∀ ins ∈ g.code, Edit.Mild edits ins) :
    (g.edited edits).graph.Formed ∧ (g.edited edits).graph.Linked := by
  obtain ⟨-, -, hnumbered, hreworked, ⟨changed, hchanged⟩, number, hnew, houtline⟩ :=
    edited_spec h.numbered habout hsome
  have hformed := h.reworked hnumbered hreworked houtline fun e he =>
    Edit.fits_outcome h he hmild hnew
  refine ⟨hformed, ?_⟩
  rw [hchanged] at hformed ⊢
  refine Formed.linked (hformed.congr (connected_outline changed).symm ?_ rfl rfl rfl rfl)
  simp [Graph.connected, withEdges, Function.comp_def]

end Graph

end Untangle
