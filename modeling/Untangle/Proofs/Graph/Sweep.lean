/-
  Untangle.Proofs.Graph.Sweep

  Queued edits are made one by one, kind after kind, and each looks for its instruction in code
  that others have changed already. All the same they come to one sweep over the blocks as they
  were (`Graph.edited_eq_sweep`): each edit that is kept and whose block holds its instruction
  counts, and in the place of each instruction comes what the edits that count make of it. The
  order in which they were queued shows in the numbers of new instructions only
  (`Rearranged.sweep_eq`).

  The argument goes edit by edit: what has been made so far is a sweep, and making one more edit
  of a kind that is not earlier is a sweep with that edit among the others (`apply_swept`).
-/
import Untangle.Proofs.Graph.Edit

namespace Untangle

namespace Edit

open Graph

variable {edits made : List Edit} {e : Edit} {u v : Int} {code : List Instruction}

/-! ## Replacing at the first place of a uid -/

theorem replaceFirst_append {front : List Instruction} (h : ∀ i ∈ front, i.uid ≠ u)
    (f : Instruction → List Instruction) (rest : List Instruction) :
    replaceFirst u f (front ++ rest) = front ++ replaceFirst u f rest := by
  induction front with
  | nil => rfl
  | cons i front ih =>
    rw [List.cons_append, replaceFirst, if_neg (by simpa using h i List.mem_cons_self),
      ih fun j hj => h j (List.mem_cons_of_mem _ hj), List.cons_append]

theorem replaceFirst_of_not_mem (h : ∀ i ∈ code, i.uid ≠ u) (f : Instruction → List Instruction) :
    replaceFirst u f code = code := by
  have happend := replaceFirst_append h f []
  rwa [List.append_nil, replaceFirst, List.append_nil] at happend

theorem replaceFirst_append_of_mem {front : List Instruction} (h : ∃ i ∈ front, i.uid = u)
    (f : Instruction → List Instruction) (rest : List Instruction) :
    replaceFirst u f (front ++ rest) = replaceFirst u f front ++ rest := by
  induction front with
  | nil => simp at h
  | cons i front ih =>
    rw [List.cons_append, replaceFirst, replaceFirst]
    by_cases hi : i.uid = u
    · rw [if_pos (by simpa using hi), if_pos (by simpa using hi), List.append_assoc]
    · obtain ⟨j, hj, hju⟩ := h
      have hin : j ∈ front := (List.mem_cons.mp hj).resolve_left fun heq => hi (heq ▸ hju)
      rw [if_neg (by simpa using hi), if_neg (by simpa using hi), ih ⟨j, hin, hju⟩,
        List.cons_append]

/-- Where a uid is found in what one instruction has become and nowhere else, only that is
    replaced. -/
theorem replaceFirst_flatMap (hnodup : (code.map (·.uid)).Nodup)
    {S : Instruction → List Instruction}
    (hfound : ∀ ins ∈ code, ins.uid = u → ∃ j ∈ S ins, j.uid = u)
    (hother : ∀ ins ∈ code, ins.uid ≠ u → ∀ j ∈ S ins, j.uid ≠ u)
    (f : Instruction → List Instruction) :
    replaceFirst u f (code.flatMap S)
      = code.flatMap fun ins => if ins.uid = u then replaceFirst u f (S ins) else S ins := by
  induction code with
  | nil => rfl
  | cons ins code ih =>
    obtain ⟨hnot, hrest⟩ := List.nodup_cons.mp hnodup
    rw [List.flatMap_cons, List.flatMap_cons]
    by_cases hu : ins.uid = u
    · rw [if_pos hu, replaceFirst_append_of_mem (hfound ins List.mem_cons_self hu)]
      refine congrArg _ (List.flatMap_congr fun i hi => (if_neg fun heq => hnot ?_).symm)
      exact List.mem_map.mpr ⟨i, hi, heq.trans hu.symm⟩
    · rw [if_neg hu, replaceFirst_append (hother ins List.mem_cons_self hu),
        ih hrest (fun i hi => hfound i (List.mem_cons_of_mem _ hi))
          fun i hi => hother i (List.mem_cons_of_mem _ hi)]

/-! ## The numbers of new instructions -/

/-- The edits that put something in front of an instruction. -/
def insertions (edits : List Edit) : List Edit := edits.filter fun e => e.kind == .insertBefore

/-- New instructions are numbered one by one, in the order of the edits that make them. -/
def numbers (start : Int) (edits : List Edit) (u : Int) : Int :=
  start + ((insertions edits).findIdx fun e => e.names u : Nat)

theorem exists_insertion (h : (asked edits Change.opcode? u).isSome) :
    ∃ e ∈ insertions edits, e.names u = true := by
  obtain ⟨op, hop⟩ := Option.isSome_iff_exists.mp h
  obtain ⟨e, he, hnames, hpick⟩ := exists_of_asked hop
  have hkind : e.kind = .insertBefore := (Change.opcode?_picks e.change).mp (by rw [hpick]; rfl)
  exact ⟨e, List.mem_filter.mpr ⟨he, by rw [hkind]; rfl⟩, hnames⟩

/-- New instructions have new numbers, the next ones. -/
theorem numbers_lt (start : Int) (h : (asked edits Change.opcode? u).isSome) :
    numbers start edits u < start + (insertions edits).length := by
  have := List.findIdx_lt_length_of_exists (exists_insertion h)
  unfold numbers
  omega

theorem le_numbers (start : Int) (edits : List Edit) (u : Int) : start ≤ numbers start edits u := by
  unfold numbers
  omega

/-- No two new instructions have one number. -/
theorem numbers_inj (hints : ∀ e ∈ edits, ∃ u, e.uid = .int u) (start : Int)
    (hu : (asked edits Change.opcode? u).isSome) (hv : (asked edits Change.opcode? v).isSome)
    (h : numbers start edits u = numbers start edits v) : u = v := by
  have hlt := List.findIdx_lt_length_of_exists (exists_insertion hu)
  have hlt' := List.findIdx_lt_length_of_exists (exists_insertion hv)
  have hsame : (insertions edits).findIdx (fun e => e.names u)
      = (insertions edits).findIdx fun e => e.names v := by
    unfold numbers at h
    omega
  have hnames := List.findIdx_getElem (w := hlt)
  have hnames' := List.findIdx_getElem (w := hlt')
  simp only [← hsame] at hnames'
  obtain ⟨w, hw⟩ := hints _ (List.mem_of_mem_filter (List.getElem_mem hlt))
  exact ((names_iff hw u).mp hnames).symm.trans ((names_iff hw v).mp hnames')

theorem numbers_concat (start : Int) (h : (asked made Change.opcode? u).isSome) (e : Edit) :
    numbers start (made ++ [e]) u = numbers start made u := by
  obtain ⟨op, hop⟩ := Option.isSome_iff_exists.mp h
  obtain ⟨d, hd, hnames, hpick⟩ := exists_of_asked hop
  have hkind : d.kind = .insertBefore := (Change.opcode?_picks d.change).mp (by rw [hpick]; rfl)
  have hin : d ∈ insertions made := List.mem_filter.mpr ⟨hd, by rw [hkind]; rfl⟩
  rw [numbers, numbers, insertions, List.filter_append, ← insertions, ← insertions,
    List.findIdx_append, if_pos (List.findIdx_lt_length_of_exists ⟨d, hin, hnames⟩)]

theorem numbers_concat_new (start : Int) (h : asked made Change.opcode? u = none)
    (hkind : e.kind = .insertBefore) (hnames : e.names u = true) :
    numbers start (made ++ [e]) u = start + (insertions made).length := by
  have hnone : ∀ d ∈ insertions made, ¬ d.names u = true := by
    intro d hd hnames
    obtain ⟨hd, hk⟩ := List.mem_filter.mp hd
    have hpick := List.findSome?_eq_none_iff.mp h d hd
    rw [if_pos hnames, ← Option.not_isSome_iff_eq_none, Change.opcode?_picks] at hpick
    exact hpick (eq_of_beq hk)
  have hlast : insertions [e] = [e] := List.filter_cons_of_pos (by rw [hkind]; rfl)
  have hlen : (insertions made).findIdx (fun e => e.names u) = (insertions made).length := by
    rw [List.findIdx_eq_length]
    exact fun d hd => by simpa using hnone d hd
  have hfirst : [e].findIdx (fun e => e.names u) = 0 := by
    rw [List.findIdx_cons, hnames]; rfl
  rw [numbers, insertions, List.filter_append, ← insertions, ← insertions, hlast,
    List.findIdx_append, hlen, hfirst, if_neg (Nat.lt_irrefl _), Nat.zero_add]

/-! ## One more edit of an instruction -/

/-- The edits made so far come before one more: those of the same instruction are of earlier
    kinds. -/
def Behind (made : List Edit) (e : Edit) (u : Int) : Prop :=
  ∀ d ∈ made, d.names u = true → d.kind.priority < e.kind.priority

theorem Behind.unasked {α : Type} {pick : Change → Option α} {k : ChangeKind}
    (h : Behind made e u) (hpick : Change.Picks pick k) (hk : e.kind.priority ≤ k.priority) :
    asked made pick u = none := by
  refine List.findSome?_eq_none_iff.mpr fun d hd => ?_
  by_cases hnames : d.names u = true
  · rw [if_pos hnames, ← Option.not_isSome_iff_eq_none]
    intro hsome
    have hlt := h d hd hnames
    have hkind : d.kind = k := (hpick d.change).mp hsome
    rw [hkind] at hlt
    omega
  · rw [if_neg hnames]

theorem Behind.removal (h : Behind made e u) : asked made Change.removal? u = none :=
  h.unasked Change.removal?_picks (by cases e.kind <;> decide)

/-- Edits of other instructions do not matter. -/
theorem outcome_concat_other {start : Int} {ins : Instruction} (hnames : e.names ins.uid = false) :
    outcome (made ++ [e]) (numbers start (made ++ [e])) ins
      = outcome made (numbers start made) ins :=
  outcome_congr (fun _ => asked_concat_other hnames _) fun h => numbers_concat start h e

theorem replaceFirst_front {ins : Instruction} {number : Int → Int}
    (hgone : asked made Change.removal? ins.uid = none)
    (hnew : number ins.uid ≠ ins.uid) (f : Instruction → List Instruction) :
    replaceFirst ins.uid f (outcome made number ins)
      = front made number ins.uid ++ f (turned made ins) := by
  have hfront : ∀ j ∈ front made number ins.uid, j.uid ≠ ins.uid := by
    intro j hj
    obtain ⟨op, -, rfl⟩ := mem_front hj
    exact hnew
  rw [outcome_eq_front, hgone, replaceFirst_append hfront]
  show _ ++ (if (turned made ins).uid == ins.uid then f (turned made ins) ++ [] else _) = _
  rw [if_pos (by rw [turned_uid]; exact beq_self_eq_true _), List.append_nil]

theorem outcome_concat {start : Int} {ins : Instruction} (hnames : e.names ins.uid = true)
    (hbehind : Behind made e ins.uid) (hold : ins.uid < start) :
    replaceFirst ins.uid (e.replacement (start + (insertions made).length))
        (outcome made (numbers start made) ins)
      = outcome (made ++ [e]) (numbers start (made ++ [e])) ins := by
  have hnone {α : Type} {pick : Change → Option α} {k : ChangeKind}
      (hpick : Change.Picks pick k) (hk : e.kind.priority ≤ k.priority) :
      asked made pick ins.uid = none := hbehind.unasked hpick hk
  have hnew : numbers start made ins.uid ≠ ins.uid := by
    unfold numbers
    omega
  have hgone := hbehind.removal
  -- An edit of another kind leaves what is in front of the instruction.
  have hfront (hpick : Change.opcode? e.change = none) :
      front (made ++ [e]) (numbers start (made ++ [e])) ins.uid
        = front made (numbers start made) ins.uid := by
    unfold front
    rw [asked_concat hnames, hpick, Option.or_none]
    cases hop : asked made Change.opcode? ins.uid with
    | none => rfl
    | some op => rw [numbers_concat start (by rw [hop]; rfl)]
  have hturned (hconstant : Change.constant? e.change = none)
      (htarget : Change.target? e.change = none) : turned (made ++ [e]) ins = turned made ins := by
    unfold turned
    rw [asked_concat hnames, asked_concat hnames, hconstant, htarget, Option.or_none,
      Option.or_none]
  rw [replaceFirst_front hgone hnew, outcome_eq_front, asked_concat hnames, hgone]
  unfold replacement
  cases hchange : e.change with
  | toBranch t =>
    have hkind : e.kind = .toBranch := congrArg Change.kind hchange
    rw [hfront (congrArg _ hchange)]
    unfold turned
    rw [asked_concat hnames, asked_concat hnames, hchange,
      hnone Change.target?_picks (by rw [hkind]),
      hnone Change.constant?_picks (by rw [hkind]; decide)]
    rfl
  | toConstant v =>
    have hkind : e.kind = .toConstant := congrArg Change.kind hchange
    rw [hfront (congrArg _ hchange)]
    unfold turned
    rw [asked_concat hnames, asked_concat hnames, hchange,
      hnone Change.constant?_picks (by rw [hkind])]
    cases asked made Change.target? ins.uid <;> rfl
  | insertBefore op =>
    have hkind : e.kind = .insertBefore := congrArg Change.kind hchange
    have hfirst := hnone Change.opcode?_picks (by rw [hkind])
    rw [hturned (congrArg _ hchange) (congrArg _ hchange)]
    unfold front
    rw [asked_concat hnames, hchange, hfirst, numbers_concat_new start hfirst hkind hnames]
    rfl
  | remove =>
    rw [hfront (congrArg _ hchange)]
    rfl

end Edit

namespace Graph

open Edit

/-- One sweep over the blocks: in the place of each instruction comes what the edits make of it. -/
def swept (g : Graph) (edits : List Edit) (number : Int → Int) : Graph :=
  { g with
    blocks := g.blocks.map fun b => { b with code := b.code.flatMap (outcome edits number) }
    fresh := g.fresh + (insertions edits).length }

end Graph

namespace Edit

open Graph

variable {g : Graph} {edits made : List Edit} {e : Edit} {l u : Int}

/-! ## One more edit of a graph -/

theorem place?_eq (g : Graph) (hblock : e.block = .int l) (huid : e.uid = .int u) :
    e.place? g = (g.block? l).bind fun b =>
      if b.code.any (fun ins => ins.uid == u) then some (l, u) else none := by
  unfold place?
  rw [hblock, huid]
  rfl

/-- An edit applies where its block holds its instruction. -/
theorem applies_iff (g : Graph) (hblock : e.block = .int l) (huid : e.uid = .int u) :
    e.applies g = true ↔ ∃ b, g.block? l = some b ∧ u ∈ b.code.map (·.uid) := by
  have hany (code : List Instruction) :
      (code.any fun ins => ins.uid == u) = true ↔ u ∈ code.map (·.uid) := by
    rw [List.any_eq_true, List.mem_map]
    simp only [beq_iff_eq]
  rw [applies, place?_eq g hblock huid]
  cases g.block? l with
  | none => simp
  | some b =>
    show (if _ then _ else _ : Option (Int × Int)).isSome = true ↔ _
    simp [hany]

theorem place?_of_applies (hblock : e.block = .int l) (huid : e.uid = .int u)
    (h : e.applies g = true) : e.place? g = some (l, u) := by
  rw [applies, place?_eq g hblock huid] at h
  rw [place?_eq g hblock huid]
  cases hb : g.block? l with
  | none => rw [hb] at h; cases h
  | some b =>
    rw [hb, Option.bind_some] at h
    rw [Option.bind_some]
    split at h
    · rw [if_pos ‹_›]
    · cases h

theorem block?_swept (g : Graph) (edits : List Edit) (number : Int → Int) (l : Int) :
    (g.swept edits number).block? l
      = (g.block? l).map fun b => { b with code := b.code.flatMap (outcome edits number) } := by
  unfold block? swept
  rw [List.find?_map]
  rfl

theorem mem_outcome_uids {number : Int → Int} {ins j : Instruction}
    (hj : j ∈ outcome edits number ins) : j.uid = ins.uid
      ∨ ((asked edits Change.opcode? ins.uid).isSome ∧ j.uid = number ins.uid) := by
  rcases mem_outcome hj with rfl | ⟨op, hop, rfl⟩
  · exact Or.inl (turned_uid edits ins)
  · exact Or.inr ⟨by rw [hop]; rfl, rfl⟩

theorem mem_outcome_uid (number : Int → Int) {ins : Instruction}
    (h : asked edits Change.removal? ins.uid = none) :
    ∃ j ∈ outcome edits number ins, j.uid = ins.uid := by
  refine ⟨turned edits ins, ?_, turned_uid edits ins⟩
  rw [outcome_eq_front, h]
  exact List.mem_append_right _ (List.mem_singleton_self _)

/-- An edit finds its instruction after those before it as if nothing had been done yet. -/
theorem place?_swept (hblock : e.block = .int l) (huid : e.uid = .int u) (hold : u < g.fresh)
    (hbehind : Behind made e u) :
    e.place? (g.swept made (numbers g.fresh made)) = e.place? g := by
  have hany (code : List Instruction) :
      ((code.flatMap (outcome made (numbers g.fresh made))).any fun ins => ins.uid == u)
        = code.any fun ins => ins.uid == u := by
    rw [Bool.eq_iff_iff, List.any_eq_true, List.any_eq_true]
    simp only [beq_iff_eq]
    constructor
    · rintro ⟨j, hj, hju⟩
      obtain ⟨ins, hins, hj⟩ := List.mem_flatMap.mp hj
      have hnew := le_numbers g.fresh made ins.uid
      rcases mem_outcome_uids hj with hsame | ⟨-, hnumber⟩
      · exact ⟨ins, hins, hsame.symm.trans hju⟩
      · omega
    · rintro ⟨ins, hins, rfl⟩
      obtain ⟨j, hj, hju⟩ := mem_outcome_uid (numbers g.fresh made) hbehind.removal
      exact ⟨j, List.mem_flatMap.mpr ⟨ins, hins, hj⟩, hju⟩
  rw [place?_eq _ hblock huid, place?_eq _ hblock huid, block?_swept, Option.bind_map]
  refine congrArg _ (funext fun b => ?_)
  show (if (b.code.flatMap _).any _ then _ else _) = _
  rw [hany]

/-- An edit that names an instruction applies. -/
theorem About.applies (hlabels : g.labels.Nodup) {e : Edit} {l u : Int} (he : e.About g l u) :
    e.applies g = true := by
  obtain ⟨hblock, huid, c, hc, hu⟩ := he
  obtain ⟨b, hb, rfl, rfl⟩ := exists_block_of_mem hc
  exact (applies_iff g hblock huid).mpr ⟨b, block?_of_mem hlabels hb, hu⟩

/-- Making an edit that applies: a new instruction uses up a number. -/
theorem apply_eq (hplace : e.place? g = some (l, u)) :
    e.apply g = { g.setBlock l fun b =>
        { b with code := replaceFirst u (e.replacement g.fresh) b.code } with
      fresh := g.fresh + (insertions [e]).length } := by
  have hone (h : e.kind = .insertBefore) : (insertions [e]).length = 1 := by
    rw [insertions, List.filter_cons_of_pos (by rw [h]; rfl)]
    rfl
  have hnone (h : e.kind ≠ .insertBefore) : (insertions [e]).length = 0 := by
    rw [insertions, List.filter_cons_of_neg (by simpa using h)]
    rfl
  unfold apply
  rw [hplace]
  cases hchange : e.change with
  | insertBefore op =>
    rw [hone (congrArg Change.kind hchange)]
    rfl
  | _ =>
    rw [hnone (by rw [kind, hchange]; exact nofun)]
    show _ = ({ g.setBlock l _ with fresh := g.fresh + 0 } : Graph)
    rw [Int.add_zero]
    rfl

/-- Making one more edit after a sweep is a sweep with that edit among the others. -/
theorem apply_swept (huids : (g.code.map (·.uid)).Nodup)
    (hblock : e.block = .int l) (huid : e.uid = .int u) (hold : u < g.fresh)
    (hbehind : Behind made e u) (happlies : e.applies g = true) :
    e.apply (g.swept made (numbers g.fresh made))
      = g.swept (made ++ [e]) (numbers g.fresh (made ++ [e])) := by
  obtain ⟨b, hb, hbu⟩ := (applies_iff g hblock huid).mp happlies
  have hplace : e.place? (g.swept made (numbers g.fresh made)) = some (l, u) := by
    rw [place?_swept hblock huid hold hbehind]
    exact place?_of_applies hblock huid happlies
  have hnames := names_eq huid
  set S := outcome made (numbers g.fresh made) with hS
  set f := e.replacement (g.fresh + (insertions made).length) with hf
  -- In what any other instruction becomes the uid is not to be found.
  have hother (ins : Instruction) (hne : ins.uid ≠ u) : ∀ j ∈ S ins, j.uid ≠ u := by
    intro j hj
    have hnew := le_numbers g.fresh made ins.uid
    rcases mem_outcome_uids hj with hsame | ⟨-, hnumber⟩ <;> omega
  have hcode (d : Block) (hd : d ∈ g.blocks) : replaceFirst u f (d.code.flatMap S)
      = d.code.flatMap (outcome (made ++ [e]) (numbers g.fresh (made ++ [e]))) := by
    rw [replaceFirst_flatMap (block_uids_nodup huids hd)
      (fun ins _ heq => heq ▸ mem_outcome_uid _ (heq ▸ hbehind.removal)) fun ins _ => hother ins]
    refine List.flatMap_congr fun ins _ => ?_
    by_cases heq : ins.uid = u
    · subst heq
      rw [if_pos rfl]
      exact outcome_concat (by rw [hnames]; exact beq_self_eq_true _) hbehind hold
    · rw [if_neg heq]
      exact (outcome_concat_other (by rw [hnames]; simpa using Ne.symm heq)).symm
  have hblocks : ((g.swept made (numbers g.fresh made)).setBlock l fun d =>
        { d with code := replaceFirst u f d.code }).blocks
      = (g.swept (made ++ [e]) (numbers g.fresh (made ++ [e]))).blocks := by
    show (g.blocks.map _).map _ = g.blocks.map _
    rw [List.map_map]
    refine List.map_congr_left fun d hd => ?_
    rw [← hcode d hd]
    show (if d.label == l then ({ d with code := replaceFirst u f (d.code.flatMap S) } : Block)
      else { d with code := d.code.flatMap S }) = _
    by_cases hlabel : d.label = l
    · rw [if_pos (by simpa using hlabel)]
    · rw [if_neg (by simpa using hlabel), replaceFirst_of_not_mem]
      intro j hj
      obtain ⟨ins, hins, hj⟩ := List.mem_flatMap.mp hj
      refine hother ins (fun heq => hlabel ?_) j hj
      have := eq_of_uid huids hd (List.mem_of_find?_eq_some hb)
        (List.mem_map.mpr ⟨ins, hins, heq⟩) hbu
      rw [this]
      simpa using List.find?_some hb
  have hcount : (insertions (made ++ [e])).length
      = (insertions made).length + (insertions [e]).length := by
    rw [insertions, List.filter_append, List.length_append]
    rfl
  rw [apply_eq hplace]
  show ({ g with
      blocks := ((g.swept made (numbers g.fresh made)).setBlock l fun d =>
        { d with code := replaceFirst u f d.code }).blocks
      fresh := g.fresh + (insertions made).length + (insertions [e]).length } : Graph) = _
  rw [hblocks, Int.add_assoc, ← Int.natCast_add, ← hcount]
  rfl

/-! ## All edits, kind after kind -/

/-- Of two edits of one instruction, this one is of an earlier kind. -/
def Precedes (d e : Edit) : Prop := d.uid == e.uid → d.kind.priority < e.kind.priority

/-- An edit that names a block and an instruction by their numbers, and no instruction that the
    graph has still to make. -/
def Addressed (e : Edit) (g : Graph) : Prop :=
  ∃ l u : Int, e.block = .int l ∧ e.uid = .int u ∧ u < g.fresh

theorem Addressed.ints (h : e.Addressed g) : ∃ u, e.uid = .int u := by
  obtain ⟨l, u, -, huid, -⟩ := h
  exact ⟨u, huid⟩

theorem swept_nil (g : Graph) (number : Int → Int) : g.swept [] number = g := by
  have hblocks : g.blocks.map (fun b => { b with code := b.code.flatMap (outcome [] number) })
      = g.blocks := by
    refine (List.map_congr_left fun b _ => ?_).trans (List.map_id _)
    show ({ b with code := b.code.flatMap fun ins => [ins] } : Block) = b
    rw [flatMap_self fun _ _ => rfl]
  show { g with blocks := _, fresh := g.fresh + 0 } = g
  rw [hblocks, Int.add_zero]

theorem About.addressed (h : g.Numbered) {e : Edit} {l u : Int} (he : e.About g l u) :
    e.Addressed g := by
  obtain ⟨hblock, huid, c, hc, hu⟩ := he
  obtain ⟨ins, hins, rfl⟩ := List.mem_map.mp hu
  exact ⟨l, _, hblock, huid, h.uids_fresh ins (mem_code_of_mem hc hins)⟩

/-- Edits made one after the other, those of one instruction kind after kind, are one sweep. By
    induction on the edits from the end: what has been made so far is a sweep already. -/
theorem applyAll_swept (huids : (g.code.map (·.uid)).Nodup)
    (haddressed : ∀ e ∈ edits, e.Addressed g) (horder : edits.Pairwise Precedes) :
    applyAll g edits
      = (g.swept (edits.filter (·.applies g)) (numbers g.fresh (edits.filter (·.applies g))),
          edits.filter fun e => !e.applies g) := by
  induction edits using List.reverseRecOn with
  | nil => exact congrArg (·, []) (swept_nil g _).symm
  | append_singleton edits e ih =>
    obtain ⟨hinit, -, hbefore⟩ := List.pairwise_append.mp horder
    obtain ⟨l, u, hblock, huid, hold⟩ := haddressed e (List.mem_append_right _ List.mem_cons_self)
    have hbehind : Behind (edits.filter (·.applies g)) e u := fun d hd hnames =>
      hbefore d (List.mem_of_mem_filter hd) e List.mem_cons_self (by rw [huid]; exact hnames)
    have happlies : e.applies (g.swept (edits.filter (·.applies g))
        (numbers g.fresh (edits.filter (·.applies g)))) = e.applies g := by
      rw [applies, place?_swept hblock huid hold hbehind, applies]
    rw [applyAll_append, ih (fun d hd => haddressed d (List.mem_append_left _ hd)) hinit,
      List.filter_append, List.filter_append]
    dsimp only [applyAll]
    rw [happlies]
    cases hmade : e.applies g with
    | true =>
      rw [apply_swept huids hblock huid hold hbehind hmade, List.filter_singleton,
        List.filter_singleton, hmade]
      rfl
    | false =>
      have hnone : (e.place? (g.swept (edits.filter (·.applies g))
          (numbers g.fresh (edits.filter (·.applies g))))) = none := by
        rw [place?_swept hblock huid hold hbehind]
        exact Option.not_isSome_iff_eq_none.mp (by rw [← applies, hmade]; decide)
      rw [List.filter_singleton, List.filter_singleton, hmade]
      unfold apply
      rw [hnone]
      exact congrArg₂ Prod.mk (by rw [cond_false, List.append_nil]) rfl

theorem inOrder_filter (p : Edit → Bool) (edits : List Edit) :
    (inOrder edits).filter p = inOrder (edits.filter p) := by
  unfold inOrder
  rw [List.filter_flatMap]
  refine List.flatMap_congr fun k _ => ?_
  rw [List.filter_filter, List.filter_filter]
  exact List.filter_congr fun e _ => Bool.and_comm _ _

/-- Edits of one kind stay in their order. -/
theorem filter_inOrder (edits : List Edit) (k : ChangeKind) :
    (inOrder edits).filter (fun e => e.kind == k) = edits.filter fun e => e.kind == k := by
  have hsame : (edits.filter fun e => e.kind == k).filter (fun e => e.kind == k)
      = edits.filter fun e => e.kind == k := List.filter_filter ..|>.trans (by simp)
  have hother (k' : ChangeKind) (h : k' ≠ k) :
      (edits.filter fun e => e.kind == k').filter (fun e => e.kind == k) = [] := by
    rw [List.filter_filter, List.filter_eq_nil_iff]
    intro e _ hand
    simp only [Bool.and_eq_true, beq_iff_eq] at hand
    exact h (hand.2.symm.trans hand.1)
  unfold inOrder ChangeKind.all
  simp only [List.flatMap_cons, List.flatMap_nil, List.filter_append, List.append_nil]
  cases k <;> simp [hsame, hother]

theorem inOrder_length (edits : List Edit) : (inOrder edits).length = edits.length := by
  induction edits with
  | nil => rfl
  | cons e edits ih =>
    simp only [inOrder, ChangeKind.all, List.flatMap_cons, List.flatMap_nil, List.filter_cons,
      List.length_append] at ih ⊢
    cases hkind : e.kind <;> simp at ih ⊢ <;> omega

theorem mem_inOrder (edits : List Edit) (e : Edit) : e ∈ inOrder edits ↔ e ∈ edits := by
  unfold inOrder
  rw [List.mem_flatMap]
  constructor
  · rintro ⟨k, -, he⟩
    exact List.mem_of_mem_filter he
  · intro he
    exact ⟨e.kind, by cases e.kind <;> decide, List.mem_filter.mpr ⟨he, by simp⟩⟩

/-- Edits that are kept are made in such an order. -/
theorem inOrder_precedes (edits : List Edit) : (inOrder (firsts edits)).Pairwise Precedes := by
  refine List.pairwise_flatMap.mpr ⟨fun k _ => ?_, ?_⟩
  · refine ((firsts_apart edits).filter _).imp_of_mem fun {a b} ha hb hkey huid => ?_
    -- Edits of one kind that are both kept name different instructions.
    obtain ⟨ha, hka⟩ := List.mem_filter.mp ha
    obtain ⟨hb, hkb⟩ := List.mem_filter.mp hb
    rw [sameKey, huid, eq_of_beq hka, eq_of_beq hkb] at hkey
    simp at hkey
  · have hkinds : ChangeKind.all.Pairwise fun k k' => k.priority < k'.priority := by decide
    refine hkinds.imp fun {k k'} hlt d hd e he _ => ?_
    have hd := (List.mem_filter.mp hd).2
    have he := (List.mem_filter.mp he).2
    rw [beq_iff_eq] at hd he
    rw [hd, he]
    exact hlt

theorem asked_inOrder {α : Type} {pick : Change → Option α} {k : ChangeKind}
    (hpick : Change.Picks pick k) (edits : List Edit) (u : Int) :
    asked (inOrder edits) pick u = asked edits pick u := by
  rw [← asked_filter hpick, filter_inOrder, asked_filter hpick]

theorem insertions_inOrder (edits : List Edit) : insertions (inOrder edits) = insertions edits :=
  filter_inOrder edits .insertBefore

theorem swept_congr {g : Graph} {edits edits' : List Edit} {number number' : Int → Int}
    (hasked : ∀ {α : Type} {pick : Change → Option α} {k : ChangeKind} (u : Int),
      Change.Picks pick k → asked edits pick u = asked edits' pick u)
    (hlength : (insertions edits).length = (insertions edits').length)
    (hnumber : ∀ u, (asked edits' Change.opcode? u).isSome → number u = number' u) :
    g.swept edits number = g.swept edits' number' := by
  have houtcome : outcome edits number = outcome edits' number' := funext fun ins =>
    outcome_congr (fun hpick => hasked ins.uid hpick) (hnumber ins.uid)
  unfold swept
  rw [houtcome, hlength]

/-- The order in which edits are made does not show in a sweep. -/
theorem swept_inOrder (g : Graph) (edits : List Edit) :
    g.swept (inOrder edits) (numbers g.fresh (inOrder edits))
      = g.swept edits (numbers g.fresh edits) := by
  have hsame := insertions_inOrder edits
  refine swept_congr (fun u hpick => asked_inOrder hpick edits u) (by rw [hsame]) fun u _ => ?_
  rw [numbers, numbers, hsame]

/-- The edits that count: the first of each kind to each instruction, if the block that it names
    holds the instruction. -/
def counted (g : Graph) (edits : List Edit) : List Edit :=
  (firsts edits).filter fun e => e.applies g

end Edit

namespace Graph

open Edit

variable {g : Graph} {edits : List Edit}

/-- The graph after all edits that count, in one sweep. Edges are computed afresh if any counts. -/
def sweep (g : Graph) (edits : List Edit) (number : Int → Int) : Graph :=
  if (counted g edits).isEmpty then g else (g.swept (counted g edits) number).connected

/-- Edits that are kept, made in their order, are one sweep with those that count. -/
theorem applyAll_firsts (huids : (g.code.map (·.uid)).Nodup)
    (haddressed : ∀ e ∈ edits, e.Addressed g) :
    applyAll g (inOrder (firsts edits))
      = (g.swept (counted g edits) (numbers g.fresh (counted g edits)),
          inOrder ((firsts edits).filter fun e => !e.applies g)) := by
  rw [applyAll_swept huids
    (fun e he => haddressed e (firsts_subset edits ((mem_inOrder _ e).mp he)))
    (inOrder_precedes edits), inOrder_filter, inOrder_filter, swept_inOrder, counted]

/-- Deferred edits are one sweep over the blocks, and no edit makes another fail. -/
theorem edited_eq_sweep (huids : (g.code.map (·.uid)).Nodup)
    (haddressed : ∀ e ∈ edits, e.Addressed g) :
    (g.edited edits).graph = g.sweep edits (numbers g.fresh (counted g edits))
      ∧ (g.edited edits).count = (counted g edits).length
      ∧ ∀ e ∈ (g.edited edits).failed, e ∈ edits ∧ e.applies g = false := by
  have hkept := coalesced_eq_firsts fun e he => (haddressed e he).ints
  have hall := applyAll_firsts huids haddressed
  have hfailed : (g.edited edits).failed
      = inOrder ((firsts edits).filter fun e => !e.applies g) := by
    show (applyAll g (inOrder (coalesced edits))).2 = _
    rw [hkept, hall]
  have hlengths : (firsts edits).length
      = (counted g edits).length + (g.edited edits).failed.length := by
    have hsplit := List.length_eq_length_filter_add (l := firsts edits) (·.applies g)
    rwa [hfailed, inOrder_length]
  refine ⟨?_, ?_, fun e he => ?_⟩
  · show (if (g.edited edits).failed.length < (coalesced edits).length then
        (applyAll g (inOrder (coalesced edits))).1.connected
      else (applyAll g (inOrder (coalesced edits))).1) = _
    rw [hkept, hall, sweep]
    cases hcounted : counted g edits with
    | nil =>
      rw [hcounted, List.length_nil, Nat.zero_add] at hlengths
      rw [if_neg (by omega), swept_nil]
      rfl
    | cons e rest =>
      rw [hcounted, List.length_cons] at hlengths
      rw [if_pos (by omega)]
      rfl
  · show (coalesced edits).length - (g.edited edits).failed.length = _
    rw [hkept]
    omega
  · rw [hfailed, mem_inOrder] at he
    obtain ⟨hfirst, hnot⟩ := List.mem_filter.mp he
    exact ⟨firsts_subset edits hfirst, by simpa using hnot⟩

end Graph

namespace Edit

open Graph

variable {g : Graph} {edits edits' : List Edit}

/-! ## Queued in another order -/

/-- The same edits queued in another order, those of one kind to one instruction in the same. -/
structure Rearranged (edits edits' : List Edit) : Prop where
  perm : edits.Perm edits'
  each : ∀ k u, edits.filter (keyed k u) = edits'.filter (keyed k u)

/-- Two edits one after the other may change places when they are of different kinds or to
    different instructions. -/
theorem Rearranged.swap {a b : Edit} (ha : ∃ u, a.uid = .int u) (hb : ∃ u, b.uid = .int u)
    (h : a.sameKey b = false) (before behind : List Edit) :
    Rearranged (before ++ a :: b :: behind) (before ++ b :: a :: behind) := by
  refine ⟨(List.Perm.swap b a behind).append_left before, fun k u => ?_⟩
  obtain ⟨v, hv⟩ := ha
  obtain ⟨w, hw⟩ := hb
  have hnot : ¬ (keyed k u a = true ∧ keyed k u b = true) := by
    rintro ⟨hka, hkb⟩
    rw [keyed, Bool.and_eq_true, beq_iff_eq, names_iff hv] at hka
    rw [keyed, Bool.and_eq_true, beq_iff_eq, names_iff hw] at hkb
    rw [(sameKey_iff hv hw).mpr ⟨hka.1.trans hkb.1.symm, hka.2.trans hkb.2.symm⟩] at h
    cases h
  rw [List.filter_append, List.filter_append]
  refine congrArg _ ?_
  cases hka : keyed k u a <;> cases hkb : keyed k u b <;> simp [hka, hkb] at hnot ⊢

theorem filter_counted (hints : ∀ e ∈ edits, ∃ u, e.uid = .int u) (k : ChangeKind) (u : Int) :
    (counted g edits).filter (keyed k u)
      = ((edits.filter (keyed k u)).take 1).filter fun e => e.applies g := by
  rw [counted, List.filter_filter, ← filter_firsts hints, List.filter_filter]
  exact List.filter_congr fun e _ => Bool.and_comm _ _

namespace Rearranged

variable (h : Rearranged edits edits') (hints : ∀ e ∈ edits, ∃ u, e.uid = .int u)

include h hints

theorem ints : ∀ e ∈ edits', ∃ u, e.uid = .int u := fun e he => hints e (h.perm.mem_iff.mpr he)

theorem asked_counted {α : Type} {pick : Change → Option α} {k : ChangeKind}
    (hpick : Change.Picks pick k) (u : Int) :
    asked (counted g edits) pick u = asked (counted g edits') pick u := by
  rw [← asked_keyed hpick, filter_counted hints, h.each, ← filter_counted (h.ints hints),
    asked_keyed hpick]

theorem mem_counted {e : Edit} (he : e ∈ counted g edits) : e ∈ counted g edits' := by
  obtain ⟨u, hu⟩ := hints e (firsts_subset _ (List.mem_of_mem_filter he))
  have hkeyed : keyed e.kind u e = true := by
    rw [keyed, beq_self_eq_true, Bool.true_and, names_iff hu]
  have hin := List.mem_filter.mpr ⟨he, hkeyed⟩
  rw [filter_counted hints, h.each, ← filter_counted (h.ints hints)] at hin
  exact List.mem_of_mem_filter hin

omit hints in
theorem symm : Rearranged edits' edits := ⟨h.perm.symm, fun k u => (h.each k u).symm⟩

omit h in
theorem counted_nodup : (counted g edits).Nodup := by
  refine List.Nodup.filter _ ((firsts_apart edits).imp_of_mem fun {a b} ha _ hkey hab => ?_)
  obtain ⟨u, hu⟩ := hints a (firsts_subset edits ha)
  rw [← hab, (sameKey_iff hu hu).mpr ⟨rfl, rfl⟩] at hkey
  cases hkey

/-- The same edits count. -/
theorem counted_perm : (counted g edits).Perm (counted g edits') :=
  (List.perm_ext_iff_of_nodup (counted_nodup hints) (counted_nodup (h.ints hints))).mpr fun _ =>
    ⟨h.mem_counted hints, h.symm.mem_counted (h.ints hints)⟩

/-- The order in which edits are queued does not show in the sweep, besides the numbers of new
    instructions. -/
theorem sweep_eq (number : Int → Int) : g.sweep edits number = g.sweep edits' number := by
  have hperm := h.counted_perm (g := g) hints
  unfold sweep
  rw [hperm.isEmpty_eq, swept_congr (fun u hpick => h.asked_counted hints hpick u)
    (hperm.filter _).length_eq fun _ _ => rfl]

end Rearranged

end Edit

namespace Graph

open Edit

variable {g : Graph} {edits : List Edit}

theorem outline_swept (g : Graph) (edits : List Edit) (number : Int → Int) :
    (g.swept edits number).outline
      = g.outline.replace fun b => b.2.flatMap (outcome edits number) := by
  unfold swept outline Outline.replace
  rw [List.map_map, List.map_map]
  rfl

theorem code_swept (g : Graph) (edits : List Edit) (number : Int → Int) :
    (g.swept edits number).code = g.code.flatMap (outcome edits number) := by
  rw [← Outline.code_outline, outline_swept, code_replace, Outline.code_outline]

theorem swept_reworked (g : Graph) (edits : List Edit) (number : Int → Int) :
    Reworked g (g.swept edits number) := by
  refine ⟨?_, ?_, rfl, rfl, rfl, rfl, rfl, ?_⟩
  · simp [labels, swept, Function.comp_def]
  · simp [swept, Function.comp_def]
  · show g.fresh ≤ g.fresh + _
    omega

/-- A sweep leaves uids that can be told apart. -/
theorem Numbered.swept (h : g.Numbered) (hints : ∀ e ∈ edits, ∃ u, e.uid = .int u) :
    (g.swept edits (numbers g.fresh edits)).Numbered := by
  refine ⟨(swept_reworked g edits _).labels ▸ h.labels_nodup, ?_, fun j hj => ?_⟩
  · rw [code_swept, List.map_flatMap, List.nodup_flatMap]
    refine ⟨fun ins hins => ?_, ?_⟩
    · have hold := h.uids_fresh ins hins
      have hnew := le_numbers g.fresh edits ins.uid
      unfold outcome
      cases asked edits Change.opcode? ins.uid with
      | none =>
        dsimp only
        split <;> simp
      | some op =>
        have hne : numbers g.fresh edits ins.uid ≠ ins.uid := by omega
        dsimp only
        split <;> simp [turned_uid, hne]
    · refine (List.pairwise_map.mp h.uids_nodup).imp_of_mem fun {a b} ha hb hne x hxa hxb => ?_
      obtain ⟨i, hi, rfl⟩ := List.mem_map.mp hxa
      obtain ⟨j, hj, hij⟩ := List.mem_map.mp hxb
      have ha := h.uids_fresh a ha
      have hb := h.uids_fresh b hb
      have hna := le_numbers g.fresh edits a.uid
      have hnb := le_numbers g.fresh edits b.uid
      rcases mem_outcome_uids hi with hia | ⟨hsa, hia⟩ <;>
        rcases mem_outcome_uids hj with hjb | ⟨hsb, hjb⟩
      · exact hne (by rw [← hia, ← hij, hjb])
      · omega
      · omega
      · exact hne (numbers_inj hints g.fresh hsa hsb (by rw [← hia, ← hij, hjb]))
  · rw [code_swept] at hj
    obtain ⟨ins, hins, hj⟩ := List.mem_flatMap.mp hj
    have hold := h.uids_fresh ins hins
    show j.uid < g.fresh + (insertions edits).length
    rcases mem_outcome_uids hj with hsame | ⟨hsome, hnew⟩
    · omega
    · have := numbers_lt g.fresh hsome
      omega

/-- All queued edits apply, and what takes the place of an instruction depends on its own
    edits only. -/
theorem edited_spec (h : g.Numbered) (habout : ∀ e ∈ edits, ∃ l u, e.About g l u)
    (hsome : edits ≠ []) :
    (g.edited edits).failed = [] ∧ 0 < (g.edited edits).count
      ∧ (g.edited edits).graph.Numbered ∧ Reworked g (g.edited edits).graph
      ∧ (∃ changed : Graph, (g.edited edits).graph = changed.connected)
      ∧ ∃ number, (∀ v, g.fresh ≤ number v) ∧ (g.edited edits).graph.outline
          = g.outline.replace fun b => b.2.flatMap (outcome edits number) := by
  have haddressed : ∀ e ∈ edits, e.Addressed g := fun e he => by
    obtain ⟨l, u, hlu⟩ := habout e he
    exact hlu.addressed h
  have happlies : ∀ e ∈ edits, e.applies g = true := fun e he => by
    obtain ⟨l, u, hlu⟩ := habout e he
    exact hlu.applies h.labels_nodup
  have hints : ∀ e ∈ edits, ∃ u, e.uid = .int u := fun e he => (haddressed e he).ints
  have hcounted : counted g edits = firsts edits :=
    List.filter_eq_self.mpr fun e he => happlies e (firsts_subset edits he)
  have hne : firsts edits ≠ [] := by
    rw [← coalesced_eq_firsts hints]
    exact coalesced_ne_nil hsome
  obtain ⟨hgraph, hcount, hfailed⟩ := edited_eq_sweep h.uids_nodup haddressed
  have hswept : (g.edited edits).graph
      = (g.swept (firsts edits) (numbers g.fresh (firsts edits))).connected := by
    rw [hgraph, sweep, hcounted, if_neg (by simpa using hne)]
  have houtcome : outcome (firsts edits) (numbers g.fresh (firsts edits))
      = outcome edits (numbers g.fresh (firsts edits)) := funext fun ins =>
    outcome_congr (fun hpick => asked_firsts hpick hints ins.uid) fun _ => rfl
  refine ⟨List.eq_nil_iff_forall_not_mem.mpr fun e he => ?_, ?_, ?_, ?_, ⟨_, hswept⟩,
    numbers g.fresh (firsts edits), le_numbers g.fresh _, ?_⟩
  · obtain ⟨he, hnot⟩ := hfailed e he
    rw [happlies e he] at hnot
    cases hnot
  · rw [hcount, hcounted]
    exact List.length_pos_of_ne_nil hne
  · rw [hswept]
    exact (h.swept fun e he => hints e (firsts_subset edits he)).connected
  · rw [hswept]
    exact (swept_reworked g _ _).trans (connected_reworked _)
  · rw [hswept, connected_outline, outline_swept, houtcome]

end Graph

end Untangle
