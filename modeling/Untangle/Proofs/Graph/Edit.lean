/-
  Untangle.Proofs.Graph.Edit

  Lists of edits. What takes the place of an instruction depends on the edits of that instruction
  only (`Edit.outcome`); of two edits of one kind the first counts (`Edit.firsts`). New
  instructions are numbered in the order of the edits that make them (`Edit.numbers`). An edited
  graph has the blocks that it had, with other code in them (`Graph.Reworked`).
-/
import Mathlib.Data.List.Pairwise
import Untangle.Edit
import Untangle.Proofs.Graph.Formed

namespace Untangle

namespace Graph

/-- Labels and uids that can be told apart. -/
structure Numbered (g : Graph) : Prop where
  labels_nodup : g.labels.Nodup
  uids_nodup : (g.code.map (·.uid)).Nodup
  uids_fresh : ∀ ins ∈ g.code, ins.uid < g.fresh

theorem Formed.numbered {g : Graph} (h : g.Formed) : g.Numbered :=
  ⟨h.labels_nodup, h.uids_nodup, h.uids_fresh⟩

theorem block_uids_nodup {g : Graph} (huids : (g.code.map (·.uid)).Nodup) {b : Block}
    (hb : b ∈ g.blocks) : (b.code.map (·.uid)).Nodup :=
  huids.sublist ((List.sublist_flatten_of_mem (List.mem_map_of_mem hb)).map _)

/-- Instructions with one uid are in one block. -/
theorem eq_of_uid {g : Graph} (huids : (g.code.map (·.uid)).Nodup) {b d : Block}
    (hb : b ∈ g.blocks) (hd : d ∈ g.blocks) {u : Int} (hbu : u ∈ b.code.map (·.uid))
    (hdu : u ∈ d.code.map (·.uid)) : b = d := by
  rw [code, List.map_flatMap, List.nodup_flatMap] at huids
  by_contra hne
  have hsymm : Std.Symm (Function.onFun List.Disjoint fun b : Block => b.code.map (·.uid)) :=
    ⟨fun _ _ hapart _ ha hb => hapart hb ha⟩
  exact huids.2.forall hb hd hne hbu hdu

theorem Numbered.block_uids_nodup {g : Graph} (h : g.Numbered) {b : Block} (hb : b ∈ g.blocks) :
    (b.code.map (·.uid)).Nodup := Graph.block_uids_nodup h.uids_nodup hb

theorem Numbered.eq_of_uid {g : Graph} (h : g.Numbered) {b d : Block} (hb : b ∈ g.blocks)
    (hd : d ∈ g.blocks) {u : Int} (hbu : u ∈ b.code.map (·.uid)) (hdu : u ∈ d.code.map (·.uid)) :
    b = d := Graph.eq_of_uid h.uids_nodup hb hd hbu hdu

/-- Blocks of an outline that share a number are one. -/
theorem Formed.eq_of_shared {g : Graph} (h : g.Formed) {e e' : Int × List Instruction}
    (he : e ∈ g.outline) (he' : e' ∈ g.outline) {ins ins' : Instruction} (hins : ins ∈ e.2)
    (hins' : ins' ∈ e'.2) (huid : ins.uid = ins'.uid) : e = e' := by
  obtain ⟨b, hb, hlabel, hcode⟩ := exists_block_of_mem he
  obtain ⟨b', hb', hlabel', hcode'⟩ := exists_block_of_mem he'
  have hsame : b = b' := eq_of_uid h.uids_nodup hb hb' (hcode ▸ List.mem_map_of_mem hins)
    (huid ▸ hcode' ▸ List.mem_map_of_mem hins')
  rw [← hsame] at hlabel' hcode'
  exact Prod.ext (hlabel.symm.trans hlabel') (hcode.symm.trans hcode')

/-- The second graph has the blocks of the first one with other code in them. -/
structure Reworked (g g' : Graph) : Prop where
  labels : g'.labels = g.labels
  entries : g'.blocks.map (·.isEntry) = g.blocks.map (·.isEntry)
  spans : g'.spans = g.spans
  exits : g'.exits = g.exits
  locals : g'.locals = g.locals
  name : g'.name = g.name
  terminators : g'.terminators = g.terminators
  fresh : g.fresh ≤ g'.fresh

namespace Reworked

variable {g g' g'' : Graph}

theorem refl (g : Graph) : Reworked g g := ⟨rfl, rfl, rfl, rfl, rfl, rfl, rfl, Int.le_refl _⟩

theorem trans (h : Reworked g g') (h' : Reworked g' g'') : Reworked g g'' where
  labels := h'.labels.trans h.labels
  entries := h'.entries.trans h.entries
  spans := h'.spans.trans h.spans
  exits := h'.exits.trans h.exits
  locals := h'.locals.trans h.locals
  name := h'.name.trans h.name
  terminators := h'.terminators.trans h.terminators
  fresh := Int.le_trans h.fresh h'.fresh

end Reworked

theorem Numbered.connected {g : Graph} (h : g.Numbered) : g.connected.Numbered := by
  refine ⟨?_, ?_, ?_⟩
  · rw [connected_labels]; exact h.labels_nodup
  · rw [connected_code]; exact h.uids_nodup
  · rw [connected_code]; exact h.uids_fresh

theorem connected_reworked (g : Graph) : Reworked g g.connected :=
  ⟨connected_labels g, by simp [connected, withEdges, Function.comp_def], rfl, rfl, rfl, rfl, rfl,
    Int.le_refl _⟩

end Graph

namespace Edit

open Graph

/-! ## One edit -/

/-- An edit names the instruction with a uid in the block with a label. -/
def About (e : Edit) (g : Graph) (l u : Int) : Prop :=
  e.block = .int l ∧ e.uid = .int u ∧ ∃ c, (l, c) ∈ g.outline ∧ u ∈ c.map (·.uid)

/-- Code is as it was when each instruction is left in place. -/
theorem flatMap_self {code : List Instruction} {f : Instruction → List Instruction}
    (h : ∀ ins ∈ code, f ins = [ins]) : code.flatMap f = code := by
  induction code with
  | nil => rfl
  | cons ins code ih =>
    rw [List.flatMap_cons, h ins List.mem_cons_self, ih fun i hi => h i (List.mem_cons_of_mem _ hi)]
    rfl

/-- Whether an edit names a uid. -/
def names (e : Edit) (u : Int) : Bool := e.uid == .int u

theorem names_eq {e : Edit} {u : Int} (h : e.uid = .int u) (v : Int) : e.names v = (u == v) := by
  rw [names, h]
  show Value.same (.int u) (.int v) = _
  simp [Value.same, Value.sameThing, Value.equal, Value.wholeNumber?, Value.asInt?]

theorem names_iff {e : Edit} {u : Int} (h : e.uid = .int u) (v : Int) :
    e.names v = true ↔ u = v := by
  rw [names_eq h, beq_iff_eq]

theorem code_replace (o : Outline) (f : Instruction → List Instruction) :
    (o.replace fun b => b.2.flatMap f).code = o.code.flatMap f := by
  unfold Outline.code Outline.replace
  rw [List.flatMap_map, List.flatMap_assoc]

end Edit

/-! ## Queued edits -/

namespace Change

/-- The target that an instruction is to be a branch to. -/
def target? : Change → Option Value
  | .toBranch t => some t
  | _ => none

/-- The constant that an instruction is to push. -/
def constant? : Change → Option Value
  | .toConstant v => some v
  | _ => none

/-- What is to be put in front of an instruction. -/
def opcode? : Change → Option Opcode
  | .insertBefore op => some op
  | _ => none

/-- Whether an instruction is to go. -/
def removal? : Change → Option Unit
  | .remove => some ()
  | _ => none

/-- A function picks the changes of one kind. -/
def Picks {α : Type} (pick : Change → Option α) (k : ChangeKind) : Prop :=
  ∀ c : Change, (pick c).isSome ↔ c.kind = k

theorem target?_picks : Picks target? .toBranch := fun c => by
  cases c <;> simp [target?, kind]

theorem constant?_picks : Picks constant? .toConstant := fun c => by
  cases c <;> simp [constant?, kind]

theorem opcode?_picks : Picks opcode? .insertBefore := fun c => by
  cases c <;> simp [opcode?, kind]

theorem removal?_picks : Picks removal? .remove := fun c => by
  cases c <;> simp [removal?, kind]

end Change

namespace Edit

open Graph

variable {α : Type} {edits edits' made : List Edit} {e d : Edit} {u v : Int} {ins : Instruction}

/-- What the first edit of an instruction that has something to pick asks for. -/
def asked (edits : List Edit) (pick : Change → Option α) (u : Int) : Option α :=
  edits.findSome? fun e => if e.names u then pick e.change else none

@[simp] theorem asked_nil (pick : Change → Option α) (u : Int) :
    asked [] pick u = none := rfl

theorem asked_cons (e : Edit) (edits : List Edit) (pick : Change → Option α) (u : Int) :
    asked (e :: edits) pick u
      = (if e.names u then pick e.change else none).or (asked edits pick u) := by
  unfold asked
  rw [List.findSome?_cons]
  split <;> rename_i h <;> rw [h] <;> rfl

theorem asked_append (edits more : List Edit) (pick : Change → Option α) (u : Int) :
    asked (edits ++ more) pick u = (asked edits pick u).or (asked more pick u) :=
  List.findSome?_append

theorem exists_of_asked {pick : Change → Option α} {a : α} (h : asked edits pick u = some a) :
    ∃ e ∈ edits, e.names u = true ∧ pick e.change = some a := by
  obtain ⟨e, he, hpick⟩ := List.exists_of_findSome?_eq_some h
  split at hpick
  · exact ⟨e, he, ‹_›, hpick⟩
  · cases hpick

theorem asked_eq_none (h : ∀ e ∈ edits, e.names u = false) (pick : Change → Option α) :
    asked edits pick u = none := by
  refine List.findSome?_eq_none_iff.mpr fun e he => ?_
  rw [h e he]
  rfl

theorem asked_concat (hnames : e.names u = true) (pick : Change → Option α) :
    asked (made ++ [e]) pick u = (asked made pick u).or (pick e.change) := by
  rw [asked_append, asked_cons, if_pos hnames, asked_nil, Option.or_none]

theorem asked_concat_other (hnames : e.names u = false) (pick : Change → Option α) :
    asked (made ++ [e]) pick u = asked made pick u := by
  rw [asked_append, asked_cons, hnames, asked_nil]
  exact Option.or_none

/-- Edits of other kinds do not matter. -/
theorem asked_filter {pick : Change → Option α} {k : ChangeKind} (hpick : Change.Picks pick k)
    (edits : List Edit) (u : Int) :
    asked (edits.filter fun e => e.kind == k) pick u = asked edits pick u := by
  induction edits with
  | nil => rfl
  | cons e edits ih =>
    by_cases hkind : e.kind = k
    · rw [List.filter_cons_of_pos (by simpa using hkind), asked_cons, asked_cons, ih]
    · rw [List.filter_cons_of_neg (by simpa using hkind), asked_cons, ih]
      have hnone : pick e.change = none :=
        Option.not_isSome_iff_eq_none.mp fun h => hkind ((hpick e.change).mp h)
      rw [hnone, ite_self]
      rfl

/-- Whether an edit is of a kind and names a uid. -/
def keyed (k : ChangeKind) (u : Int) (e : Edit) : Bool := e.kind == k && e.names u

theorem asked_keyed {pick : Change → Option α} {k : ChangeKind} (hpick : Change.Picks pick k)
    (edits : List Edit) (u : Int) :
    asked (edits.filter (keyed k u)) pick u = asked edits pick u := by
  rw [← asked_filter hpick edits]
  induction edits with
  | nil => rfl
  | cons e edits ih =>
    rw [List.filter_cons, List.filter_cons]
    by_cases hkind : (e.kind == k) = true
    · rw [if_pos hkind, asked_cons, keyed, hkind, Bool.true_and]
      by_cases hnames : e.names u = true
      · rw [if_pos hnames, if_pos hnames, asked_cons, if_pos hnames, ih]
      · rw [if_neg hnames, if_neg hnames, ih]
        rfl
    · rw [if_neg hkind, keyed, Bool.eq_false_iff.mpr hkind, Bool.false_and, ← ih]
      rfl

/-! ### Which edits are kept -/

/-- The first edit of each kind to each instruction. -/
def firsts : List Edit → List Edit
  | [] => []
  | e :: rest => e :: (firsts rest).filter fun d => !e.sameKey d

theorem firsts_subset (edits : List Edit) : firsts edits ⊆ edits := by
  induction edits with
  | nil => exact List.Subset.refl _
  | cons e edits ih =>
    refine List.cons_subset_cons _ fun d hd => ih (List.mem_of_mem_filter hd)

/-- No two of the edits that are kept are of one kind and to one instruction. -/
theorem firsts_apart (edits : List Edit) :
    (firsts edits).Pairwise fun a b => a.sameKey b = false := by
  induction edits with
  | nil => exact List.Pairwise.nil
  | cons e edits ih =>
    refine List.pairwise_cons.mpr ⟨fun d hd => ?_, ih.filter _⟩
    simpa using (List.mem_filter.mp hd).2

theorem coalesced_concat (edits : List Edit) (e : Edit) :
    coalesced (edits ++ [e])
      = if (coalesced edits).any e.sameKey then coalesced edits else coalesced edits ++ [e] := by
  unfold coalesced
  rw [List.foldl_append]
  rfl

theorem coalesced_subset (edits : List Edit) : coalesced edits ⊆ edits := by
  induction edits using List.reverseRecOn with
  | nil => exact List.Subset.refl _
  | append_singleton edits e ih =>
    rw [coalesced_concat]
    split
    · exact fun a ha => List.mem_append_left _ (ih ha)
    · intro a ha
      rcases List.mem_append.mp ha with ha | ha
      · exact List.mem_append_left _ (ih ha)
      · exact List.mem_append_right _ ha

theorem coalesced_ne_nil (h : edits ≠ []) : coalesced edits ≠ [] := by
  induction edits using List.reverseRecOn with
  | nil => exact absurd rfl h
  | append_singleton edits e _ =>
    rw [coalesced_concat]
    split
    · rename_i hany
      intro hnil
      rw [hnil] at hany
      cases hany
    · exact List.append_ne_nil_of_right_ne_nil _ (List.cons_ne_nil _ _)

theorem sameKey_iff (he : e.uid = .int u) (hd : d.uid = .int v) :
    e.sameKey d = true ↔ e.kind = d.kind ∧ u = v := by
  have huids : (e.uid == d.uid) = true ↔ u = v := by
    rw [hd]
    exact names_iff he v
  rw [sameKey, Bool.and_eq_true, beq_iff_eq, huids]

/-- Of the edits of one kind to one instruction only the first is kept. -/
theorem filter_firsts (hints : ∀ e ∈ edits, ∃ u, e.uid = .int u) (k : ChangeKind) (u : Int) :
    (firsts edits).filter (keyed k u) = (edits.filter (keyed k u)).take 1 := by
  induction edits with
  | nil => rfl
  | cons e edits ih =>
    have hrest := ih fun d hd => hints d (List.mem_cons_of_mem _ hd)
    obtain ⟨v, hv⟩ := hints e List.mem_cons_self
    have hkeyed : keyed k u e = true ↔ e.kind = k ∧ v = u := by
      rw [keyed, Bool.and_eq_true, beq_iff_eq, names_iff hv]
    rw [firsts, List.filter_cons, List.filter_cons, List.filter_filter]
    by_cases he : keyed k u e = true
    · rw [if_pos he, if_pos he, List.take_succ_cons, List.take_zero]
      refine congrArg _ (List.filter_eq_nil_iff.mpr fun d hd hboth => ?_)
      obtain ⟨w, hw⟩ := hints d (List.mem_cons_of_mem _ (firsts_subset _ hd))
      obtain ⟨hkind, hvu⟩ := hkeyed.mp he
      obtain ⟨hd, hne⟩ := Bool.and_eq_true _ _ ▸ hboth
      rw [keyed, Bool.and_eq_true, beq_iff_eq, names_iff hw] at hd
      rw [(sameKey_iff hv hw).mpr ⟨hkind.trans hd.1.symm, hvu.trans hd.2.symm⟩] at hne
      cases hne
    · rw [if_neg he, if_neg he, ← hrest]
      refine List.filter_congr fun d hd => ?_
      obtain ⟨w, hw⟩ := hints d (List.mem_cons_of_mem _ (firsts_subset _ hd))
      cases hd : keyed k u d with
      | false => rfl
      | true =>
        rw [keyed, Bool.and_eq_true, beq_iff_eq, names_iff hw] at hd
        have hnot : e.sameKey d = false := Bool.eq_false_iff.mpr fun hsame => he (hkeyed.mpr (by
          obtain ⟨hkind, hvw⟩ := (sameKey_iff hv hw).mp hsame
          exact ⟨hkind.trans hd.1, hvw.trans hd.2⟩))
        rw [hnot]
        rfl

theorem sameKey_comm (he : ∃ u, e.uid = .int u) (hd : ∃ u, d.uid = .int u) :
    e.sameKey d = d.sameKey e := by
  obtain ⟨u, hu⟩ := he
  obtain ⟨v, hv⟩ := hd
  rw [Bool.eq_iff_iff, sameKey_iff hu hv, sameKey_iff hv hu, eq_comm, @eq_comm _ u]

theorem sameKey_trans {a : Edit} (he : ∃ u, e.uid = .int u) (hd : ∃ u, d.uid = .int u)
    (ha : ∃ u, a.uid = .int u) (hed : e.sameKey d = true) (hda : d.sameKey a = true) :
    e.sameKey a = true := by
  obtain ⟨u, hu⟩ := he
  obtain ⟨v, hv⟩ := hd
  obtain ⟨w, hw⟩ := ha
  rw [sameKey_iff hu hv] at hed
  rw [sameKey_iff hv hw] at hda
  exact (sameKey_iff hu hw).mpr ⟨hed.1.trans hda.1, hed.2.trans hda.2⟩

/-- Going through the edits with those kept so far adds the first ones of other kinds or to other
    instructions. -/
theorem foldl_kept {kept : List Edit} (hkept : ∀ e ∈ kept, ∃ u, e.uid = .int u)
    (hints : ∀ e ∈ edits, ∃ u, e.uid = .int u) :
    edits.foldl (fun kept e => if kept.any e.sameKey then kept else kept ++ [e]) kept
      = kept ++ (firsts edits).filter fun e => !kept.any e.sameKey := by
  induction edits generalizing kept with
  | nil => exact (List.append_nil kept).symm
  | cons e edits ih =>
    have he := hints e List.mem_cons_self
    have hrest : ∀ d ∈ edits, ∃ u, d.uid = .int u := fun d hd => hints d (List.mem_cons_of_mem _ hd)
    rw [List.foldl_cons, firsts, List.filter_cons, List.filter_filter]
    by_cases hany : kept.any e.sameKey = true
    · rw [if_pos hany, ih hkept hrest, hany]
      refine congrArg _ (List.filter_congr fun d hd => ?_)
      -- What is like the dropped edit is like the one that was kept before it.
      cases hsame : e.sameKey d with
      | false => exact (Bool.and_true _).symm
      | true =>
        have hdints := hrest d (firsts_subset _ hd)
        obtain ⟨a, ha, hea⟩ := List.any_eq_true.mp hany
        have hda : d.sameKey a = true :=
          sameKey_trans hdints he (hkept a ha) (by rw [sameKey_comm hdints he, hsame]) hea
        rw [List.any_eq_true.mpr ⟨a, ha, hda⟩]
        rfl
    · rw [if_neg hany, ih ?_ hrest, Bool.eq_false_iff.mpr hany, List.append_assoc]
      · refine congrArg (fun l => kept ++ e :: l) (List.filter_congr fun d hd => ?_)
        rw [List.any_append, List.any_cons, List.any_nil, Bool.or_false, Bool.not_or,
          sameKey_comm (hrest d (firsts_subset _ hd)) he]
      · intro d hd
        rcases List.mem_append.mp hd with hd | hd
        · exact hkept d hd
        · exact List.mem_singleton.mp hd ▸ he

/-- The edits that are kept are the first ones. -/
theorem coalesced_eq_firsts (hints : ∀ e ∈ edits, ∃ u, e.uid = .int u) :
    coalesced edits = firsts edits := by
  refine (foldl_kept (fun e he => absurd he List.not_mem_nil) hints).trans ?_
  rw [List.nil_append, List.filter_eq_self]
  exact fun _ _ => rfl

/-- Only the first edit of a kind to an instruction matters. -/
theorem asked_firsts {pick : Change → Option α} {k : ChangeKind} (hpick : Change.Picks pick k)
    (hints : ∀ e ∈ edits, ∃ u, e.uid = .int u) (u : Int) :
    asked (firsts edits) pick u = asked edits pick u := by
  rw [← asked_keyed hpick (firsts edits), filter_firsts hints, ← asked_keyed hpick edits]
  cases hkeyed : edits.filter (keyed k u) with
  | nil => rfl
  | cons e rest =>
    have he := (List.mem_filter.mp (hkeyed ▸ List.mem_cons_self : e ∈ edits.filter (keyed k u))).2
    rw [keyed, Bool.and_eq_true, beq_iff_eq] at he
    obtain ⟨a, ha⟩ := Option.isSome_iff_exists.mp ((hpick e.change).mpr he.1)
    rw [List.take_succ_cons, List.take_zero, asked_cons, asked_cons, if_pos he.2, ha]
    rfl

theorem applyAll_append (g : Graph) (edits more : List Edit) :
    applyAll g (edits ++ more)
      = ((applyAll (applyAll g edits).1 more).1,
          (applyAll g edits).2 ++ (applyAll (applyAll g edits).1 more).2) := by
  induction edits generalizing g with
  | nil => rfl
  | cons e edits ih =>
    show ((applyAll (e.apply g) (edits ++ more)).1, _) = _
    rw [ih]
    show (_, if e.applies g then (applyAll (e.apply g) (edits ++ more)).2
      else e :: (applyAll (e.apply g) (edits ++ more)).2) = (_, (if e.applies g then
        (applyAll (e.apply g) edits).2 else e :: (applyAll (e.apply g) edits).2) ++ _)
    rw [ih]
    split <;> rfl

/-- An instruction after the edits that change it in place: a constant counts over a
    branch. -/
def turned (edits : List Edit) (ins : Instruction) : Instruction :=
  match asked edits Change.constant? ins.uid with
  | some v => ins.become .pushConst (.value v)
  | none =>
    match asked edits Change.target? ins.uid with
    | some t => ins.become .branch (.value t)
    | none => ins

/-- What takes the place of an instruction when all edits are made. -/
def outcome (edits : List Edit) (number : Int → Int) (ins : Instruction) : List Instruction :=
  (match asked edits Change.opcode? ins.uid with
    | some op => [{ opcode := some op, uid := number ins.uid }]
    | none => [])
  ++ if (asked edits Change.removal? ins.uid).isSome then [] else [turned edits ins]

theorem turned_uid (edits : List Edit) (ins : Instruction) :
    (turned edits ins).uid = ins.uid := by
  unfold turned
  split
  · rfl
  · split <;> rfl

theorem mem_outcome {number : Int → Int} {j : Instruction} (hj : j ∈ outcome edits number ins) :
    j = turned edits ins ∨ ∃ op, asked edits Change.opcode? ins.uid = some op
      ∧ j = { opcode := some op, uid := number ins.uid } := by
  unfold outcome at hj
  rcases List.mem_append.mp hj with hj | hj
  · cases hop : asked edits Change.opcode? ins.uid with
    | none => rw [hop] at hj; cases hj
    | some op => rw [hop] at hj; exact Or.inr ⟨op, rfl, List.mem_singleton.mp hj⟩
  · split at hj
    · cases hj
    · exact Or.inl (List.mem_singleton.mp hj)

theorem outcome_congr {number number' : Int → Int}
    (hasked : ∀ {α : Type} {pick : Change → Option α} {k : ChangeKind}, Change.Picks pick k →
      asked edits pick ins.uid = asked edits' pick ins.uid)
    (hnumber : (asked edits' Change.opcode? ins.uid).isSome → number ins.uid = number' ins.uid) :
    outcome edits number ins = outcome edits' number' ins := by
  unfold outcome turned
  rw [hasked Change.opcode?_picks, hasked Change.removal?_picks, hasked Change.constant?_picks,
    hasked Change.target?_picks]
  cases hop : asked edits' Change.opcode? ins.uid with
  | none => rfl
  | some op => rw [hnumber (by rw [hop]; rfl)]

/-- What is put in front of an instruction. -/
def front (edits : List Edit) (number : Int → Int) (u : Int) : List Instruction :=
  match asked edits Change.opcode? u with
  | some op => [{ opcode := some op, uid := number u }]
  | none => []

theorem outcome_eq_front (edits : List Edit) (number : Int → Int) (ins : Instruction) :
    outcome edits number ins = front edits number ins.uid
      ++ if (asked edits Change.removal? ins.uid).isSome then [] else [turned edits ins] := rfl

theorem mem_front {number : Int → Int} {j : Instruction} (hj : j ∈ front edits number u) :
    ∃ op, asked edits Change.opcode? u = some op ∧ j = { opcode := some op, uid := number u } := by
  unfold front at hj
  cases hop : asked edits Change.opcode? u with
  | none => rw [hop] at hj; cases hj
  | some op => rw [hop] at hj; exact ⟨op, rfl, List.mem_singleton.mp hj⟩

end Edit

end Untangle
