/-
  Untangle.Proofs.Pipeline.Stream

  What becomes of the stream of instructions (`Method.normalize_derives`). The instructions that
  are left stand in their order, and each is what it was, up to the few rewrites there are
  (`Method.Becomes`). New are only discards in front of resolved dispatches. What control can
  still reach is lost only where it works on the top of the stack.
-/
import Untangle.Encoding.Encode
import Untangle.Proofs.Graph.Narrowed
import Untangle.Proofs.Pipeline.Behaviour

namespace Untangle

namespace Instruction.Rewritten

variable {fresh : Int} {ins j : Instruction} {js : List Instruction}

/-- In the place of an instruction stands an instruction of its number, but for a discard in front
    of a resolved dispatch. -/
theorem uid_cases (h : Rewritten fresh ins js) (hj : j ∈ js) :
    j.uid = ins.uid ∨ fresh ≤ j.uid ∧ j.opcode = some .pop ∧ ins.opcode = some .switch
      ∧ ∃ t, js = [j, ins.become .branch (.value t)] := by
  cases h with
  | kept => exact Or.inl (congrArg _ (List.mem_singleton.mp hj))
  | dropped h => cases hj
  | constant v h => exact Or.inl (List.mem_singleton.mp hj ▸ rfl)
  | branch t h => exact Or.inl (List.mem_singleton.mp hj ▸ rfl)
  | discard t u h ht hu =>
    rcases List.mem_cons.mp hj with rfl | hj
    · exact Or.inr ⟨hu, rfl, h, t, rfl⟩
    · exact Or.inl (List.mem_singleton.mp hj ▸ rfl)

/-- Of an instruction that is not dropped there is one with its number, at the end. -/
theorem exists_last (h : Rewritten fresh ins js) :
    js = [] ∧ ins.isDroppable = true ∨ ∃ front j, js = front ++ [j] ∧ j.uid = ins.uid := by
  cases h with
  | kept => exact Or.inr ⟨[], ins, rfl, rfl⟩
  | dropped h => exact Or.inl ⟨rfl, h⟩
  | constant v h => exact Or.inr ⟨[], _, rfl, rfl⟩
  | branch t h => exact Or.inr ⟨[], _, rfl, rfl⟩
  | discard t u h ht hu => exact Or.inr ⟨[_], _, rfl, rfl⟩

/-- Among the numbers that are not new there is at most that of the instruction. -/
theorem uids_sublist (h : Rewritten fresh ins js) {known : Int → Bool}
    (hknown : ∀ u, fresh ≤ u → known u = false) :
    ((js.map (·.uid)).filter known).Sublist [ins.uid] := by
  cases h with
  | kept => exact List.filter_sublist
  | dropped h => exact List.nil_sublist _
  | constant v h => exact List.filter_sublist
  | branch t h => exact List.filter_sublist
  | discard t u h ht hu =>
    rw [List.map_cons, List.filter_cons_of_neg (by rw [hknown u hu]; decide)]
    exact List.filter_sublist

end Instruction.Rewritten

/-- Instructions are written down as their copies are. -/
theorem Encoding.instruction_copy (ins : Instruction) :
    Encoding.instruction ins.copy = Encoding.instruction ins := by
  obtain ⟨opcode, operand, uid, mnemonic, effect⟩ := ins
  cases operand with
  | operation op => rfl
  | value v => cases v <;> rfl

/-- Renaming the targets of a copy of a branch is renaming those of the branch. -/
theorem Instruction.retarget_copy {ins : Instruction} (hb : ins.isBranch = true)
    (hnumbers : ∀ t ∈ ins.copy.aims, t.wholeNumber?.isSome) (rename : Value → Value) :
    ins.copy.retarget rename = ins.retarget rename := by
  by_cases hs : ins.opcode = some .switch
  · obtain ⟨opcode, operand, uid, mnemonic, effect⟩ := ins
    obtain rfl : opcode = some .switch := hs
    cases operand with
    | operation op => rfl
    | value v =>
      cases v with
      | list items => cases items <;> rfl
      | _ => rfl
  · rw [copy_eq_self hb hs (Or.inr hnumbers)]

namespace Method

/-- Of two values the first names an instruction of a stream, and the second the first one that
    stands in the place of it or of what came behind it, in what is left of the stream. -/
def Relinks (uids uids' : List Int) (v w : Value) : Prop :=
  ∃ before i rest before' j rest', uids = before ++ i :: rest ∧ uids' = before' ++ j :: rest'
    ∧ v.wholeNumber? = some i ∧ w.wholeNumber? = some j
    ∧ (∀ u ∈ before', u ∈ uids → u ∈ before) ∧ (∀ u ∈ j :: rest', u ∈ uids → u ∈ i :: rest)
    -- What is new in front of `j` belongs to an instruction in front of `j`.
    ∧ ∀ u, before'.getLast? = some u → u ∈ uids

/-- What an instruction can become. -/
inductive Becomes (uids uids' : List Int) (ins : Instruction) : Instruction → Prop where
  /-- It stays, in the form in which it is written down. -/
  | same {j : Instruction} (hins : ins.isBranch = false)
      (h : Encoding.instruction j = Encoding.instruction ins) : Becomes uids uids' ins j
  /-- A branch stays, with its targets renamed to what is left there. -/
  | relinked {j : Instruction} (rename : Value → Value) (hins : ins.isBranch = true)
      (hrename : ∀ t ∈ ins.aims, Relinks uids uids' t (rename t))
      (h : Encoding.instruction j = Encoding.instruction (ins.retarget rename)) :
      Becomes uids uids' ins j
  /-- A dispatch becomes a branch to one of its targets. -/
  | branch (t v : Value) (hins : ins.opcode = some .switch) (ht : t ∈ ins.aims)
      (h : Relinks uids uids' t v) : Becomes uids uids' ins (ins.become .branch (.value v))
  /-- What computes a value becomes the value. -/
  | constant (v : Value) (hins : ins.IsFoldable) :
      Becomes uids uids' ins (ins.become .pushConst (.value v))

/-- One stream is what is left of another one that is cut into the blocks of a graph, with some of
    its dispatches resolved. -/
structure Derives (g : Graph) (choice : Int → Option Value) (code code' : List Instruction) :
    Prop where
  /-- What is left stands in its order. -/
  order : ((code'.map (·.uid)).filter (code.map (·.uid)).contains).Sublist (code.map (·.uid))
  /-- What is new has a new number, and discards the selector of a resolved dispatch. -/
  inserted : ∀ j ∈ code', j.uid ∉ code.map (·.uid) → (∀ i ∈ code, i.uid < j.uid)
    ∧ j.opcode = some .pop ∧ ∃ before branch rest, code' = before ++ j :: branch :: rest
      ∧ branch.opcode = some .branch
      ∧ ∃ i ∈ code, i.uid = branch.uid ∧ i.opcode = some .switch
  becomes : ∀ i ∈ code, ∀ j ∈ code', j.uid = i.uid →
    Becomes (code.map (·.uid)) (code'.map (·.uid)) i j
  /-- Only dispatches that have become branches go where the choice says. -/
  resolved : ∀ u t, choice u = some t → ∃ i ∈ code, i.uid = u ∧ i.opcode = some .switch
    ∧ t ∈ i.aims ∧ ∃ v, Relinks (code.map (·.uid)) (code'.map (·.uid)) t v
      ∧ i.become .branch (.value v) ∈ code'
  /-- Of a block that control reaches only what works on the top of the stack is lost, and of
      another block that, or all. -/
  dropped : ∀ e ∈ g.outline,
    (∀ i ∈ e.2, i.uid ∈ code'.map (·.uid) ∨ i.isDroppable = true)
      ∨ ¬ g.Survives choice e.1 ∧ ∀ i ∈ e.2, i.uid ∉ code'.map (·.uid)

end Method

/-- The branch that a dispatch becomes, with its target renamed. -/
theorem Graph.relink_become {g : Graph} (ins : Instruction) {t : Value}
    (ht : t.wholeNumber?.isSome) : t ∈ (ins.become .branch (.value t)).aims
      ∧ g.relinkInstruction (ins.become .branch (.value t))
        = ins.become .branch (.value (g.relinkTarget t)) := by
  have hsome : (Operand.value t).isNone = false := by
    cases t <;> first | rfl | cases ht
  constructor
  · rw [Instruction.aims_of_not_switch rfl fun hop => by cases hop]
    show t ∈ if (Operand.value t).isNone then [] else [t]
    rw [hsome]
    exact List.mem_singleton_self t
  · unfold relinkInstruction Instruction.retarget Instruction.become Instruction.isBranch
    dsimp only
    rw [hsome]
    rfl

namespace Graph.Traced

open Instruction (settled)
open Method (Relinks Becomes)

variable {g₀ g : Graph} {T : List Stretch} {f : Instruction → List Instruction}

/-- The numbers that are left stand in their order. -/
theorem order (h : Traced g₀ g T f) {known : Int → Bool}
    (hknown : ∀ u, g₀.fresh ≤ u → known u = false) :
    ((g.code.map (·.uid)).filter known).Sublist (g₀.code.map (·.uid)) := by
  have hall : ∀ ins ∈ T.flatMap Stretch.code, ins.Rewritten g₀.fresh (f ins) := by
    intro ins hins
    obtain ⟨r, hr, hin⟩ := List.mem_flatMap.mp hins
    exact h.rewritten r hr ins hin
  refine List.Sublist.trans ?_ (h.code_sublist.map _)
  rw [h.code]
  generalize T.flatMap Stretch.code = code at hall
  induction code with
  | nil => exact List.Sublist.refl _
  | cons ins code ih =>
    rw [List.flatMap_cons, List.map_append, List.filter_append, List.map_cons,
      ← List.singleton_append]
    exact ((hall ins List.mem_cons_self).uids_sublist hknown).append
      (ih fun i hi => hall i (List.mem_cons_of_mem _ hi))

/-- Numbers of the first graph that are left are those of the same instruction. -/
theorem uid_of_known (h : Traced g₀ g T f) (h₀ : g₀.Formed) {stretches : List Stretch}
    (hsub : ∀ r ∈ stretches, r ∈ T) {u : Int}
    (hu : u ∈ ((stretches.flatMap Stretch.code).flatMap f).map (·.uid))
    (hknown : u ∈ g₀.code.map (·.uid)) : u ∈ (stretches.flatMap Stretch.code).map (·.uid) := by
  obtain ⟨j, hj, rfl⟩ := List.mem_map.mp hu
  obtain ⟨ins, hins, hj⟩ := List.mem_flatMap.mp hj
  obtain ⟨r, hr, hin⟩ := List.mem_flatMap.mp hins
  rcases (h.rewritten r (hsub r hr) ins hin).uid_cases hj with huid | ⟨hfresh, -⟩
  · exact huid ▸ List.mem_map_of_mem hins
  · obtain ⟨i, hi, huid⟩ := List.mem_map.mp hknown
    have := h₀.uids_fresh i hi
    omega

/-- The last instruction that is left of some stretches is not new. -/
theorem last_known (h : Traced g₀ g T f) {stretches : List Stretch}
    (hsub : ∀ r ∈ stretches, r ∈ T) {u : Int}
    (hu : (((stretches.flatMap Stretch.code).flatMap f).map (·.uid)).getLast? = some u) :
    u ∈ g₀.code.map (·.uid) := by
  have hall : ∀ ins ∈ stretches.flatMap Stretch.code, ins.Rewritten g₀.fresh (f ins)
      ∧ ins ∈ g₀.code := by
    intro ins hins
    obtain ⟨r, hr, hin⟩ := List.mem_flatMap.mp hins
    exact ⟨h.rewritten r (hsub r hr) ins hin, h.mem_code₀ (hsub r hr) hin⟩
  generalize stretches.flatMap Stretch.code = code at hall hu
  induction code using List.reverseRecOn with
  | nil => cases hu
  | append_singleton code ins ih =>
    obtain ⟨hrewritten, hmem⟩ := hall ins (by simp)
    rw [List.flatMap_append, List.flatMap_singleton, List.map_append] at hu
    rcases hrewritten.exists_last with ⟨hnil, -⟩ | ⟨front, j, hj, huid⟩
    · rw [hnil, List.map_nil, List.append_nil] at hu
      exact ih (fun i hi => hall i (List.mem_append_left _ hi)) hu
    · rw [hj, List.map_append, ← List.append_assoc, List.map_singleton,
        List.getLast?_concat] at hu
      rw [← Option.some.inj hu, huid]
      exact List.mem_map_of_mem hmem

/-- Relinking renames the targets of branches to what is left there. -/
theorem relinks (h : Traced g₀ g T f) (h₀ : g₀.Formed) (hfirst : g₀.FirstLabels)
    (hvalid : ∀ ins ∈ g.code, ∀ t ∈ (g.relinkInstruction ins).aims,
      (Method.placeOf? (g.code.map g.relinkInstruction) t).isSome)
    {j : Instruction} (hj : j ∈ g.code) {t : Value} (ht : t ∈ j.aims) :
    Relinks (g₀.code.map (·.uid)) (g.code.map (·.uid)) t (g.relinkTarget t) := by
  obtain ⟨l, place, first, rest', hl, hlabel, hplace, hcode, hlive⟩ :=
    h.formed.exists_live hvalid hj ht
  -- The label names a stretch, and cuts both graphs.
  rw [h.labels] at hlabel
  obtain ⟨r, hr, rfl⟩ := List.mem_map.mp hlabel
  obtain ⟨T₁, T₂, rfl⟩ := List.append_of_mem hr
  have houtline : g.outline
      = T₁.map (Stretch.image f) ++ r.image f :: T₂.map (Stretch.image f) := by
    rw [h.outline, List.map_append, List.map_cons]
  obtain rfl : r.image f :: T₂.map (Stretch.image f) = place :=
    Option.some.inj ((from?_of_split h.formed.outline_nodup houtline).symm.trans hplace)
  obtain ⟨before₀, rest₀, hsplit₀⟩ := List.append_of_mem (h.mem_outline₀ hr List.mem_cons_self)
  have hsublist := h.sublist
  rw [hsplit₀, List.flatMap_append, List.flatMap_cons] at hsublist
  have hnodup₀ : (before₀ ++ r.first :: rest₀).Nodup := by
    rw [← hsplit₀]
    exact h₀.outline_nodup.of_map _
  obtain ⟨hbefore, hrest⟩ := sublist_around hnodup₀ hsublist
  obtain ⟨i, others, hfirst, hi⟩ := hfirst r.first (by rw [hsplit₀]; simp)
  have hcode₀ : g₀.code = Outline.code before₀ ++ i :: (others ++ Outline.code rest₀) := by
    rw [← Outline.code_outline, hsplit₀, Outline.code_append, Outline.code_cons, hfirst]
    rfl
  have hblocks (stretches : List Stretch) :
      stretches.flatMap Stretch.code = Outline.code (stretches.flatMap Stretch.blocks) := by
    rw [Outline.code, List.flatMap_assoc]
    rfl
  have himage (stretches : List Stretch) : Outline.code (stretches.map (Stretch.image f))
      = (stretches.flatMap Stretch.code).flatMap f := by
    rw [Outline.code, List.flatMap_map, List.flatMap_assoc]
    rfl
  have hcut : g.code = (T₁.flatMap Stretch.code).flatMap f
      ++ ((r :: T₂).flatMap Stretch.code).flatMap f := by
    rw [h.code, List.flatMap_append, List.flatMap_append]
  have hfrom : ((r :: T₂).flatMap Stretch.code).flatMap f = first :: rest' := by
    rw [← himage]
    exact hcode
  refine ⟨(Outline.code before₀).map (·.uid), i.uid, (others ++ Outline.code rest₀).map (·.uid),
    ((T₁.flatMap Stretch.code).flatMap f).map (·.uid), first.uid, rest'.map (·.uid), ?_, ?_, ?_,
    hlive, fun u hu hknown => ?_, fun u hu hknown => ?_, fun u hu => ?_⟩
  · rw [hcode₀, List.map_append, List.map_cons]
  · rw [hcut, hfrom, List.map_append, List.map_cons]
  · rw [hl, hi]
    rfl
  · have := h.uid_of_known h₀ (fun s hs => List.mem_append_left _ hs) hu hknown
    rw [hblocks] at this
    exact ((hbefore.flatMap _).map _).subset this
  · rw [← List.map_cons, ← hfrom] at hu
    have := h.uid_of_known h₀ (fun s hs => List.mem_append_right _ hs) hu hknown
    have htail : ((r :: T₂).flatMap Stretch.blocks).Sublist (r.first :: rest₀) := by
      exact hrest.cons_cons _
    rw [hblocks] at this
    have hin := ((htail.flatMap fun e : Int × List Instruction => e.2).map (·.uid)).subset this
    rw [List.flatMap_cons, hfirst] at hin
    exact hin
  · exact h.last_known (fun s hs => List.mem_append_left _ hs) hu

/-- What is left with the number of an instruction stands in the place of its copy. -/
theorem place_of_uid (h : Traced g₀ g T f) (h₀ : g₀.Formed) {i : Instruction}
    (hi : i.copy ∈ g₀.code) {j : Instruction} (hj : j ∈ g.code) (huid : j.uid = i.uid) :
    j ∈ f i.copy ∧ i.copy.Rewritten g₀.fresh (f i.copy) := by
  obtain ⟨r, hr, ins, hins, hin, hrewritten⟩ := h.exists_source hj
  have hsame : ins = i.copy := by
    refine List.inj_on_of_nodup_map h₀.uids_nodup (h.mem_code₀ hr hins) hi ?_
    rcases hrewritten.uid_cases hin with hsame | ⟨hfresh, -⟩
    · rw [← hsame, huid, Instruction.copy_uid]
    · have hold := h₀.uids_fresh _ hi
      rw [Instruction.copy_uid, ← huid] at hold
      omega
  subst hsame
  exact ⟨hin, hrewritten⟩

/-- A branch that is left in the place of an instruction, and the instruction. -/
theorem becomes (h : Traced g₀ g T f) (h₀ : g₀.Formed) {uids uids' : List Int}
    (hrelinks : ∀ j ∈ g.code, ∀ t ∈ j.aims, Relinks uids uids' t (g.relinkTarget t))
    {i : Instruction} (hi : i.copy ∈ g₀.code) {j : Instruction} (hj : j ∈ g.code)
    (huid : j.uid = i.uid) : Becomes uids uids' i (g.relinkInstruction j) := by
  have hnumbers : ∀ t ∈ i.copy.aims, t.wholeNumber?.isSome := fun t ht => by
    obtain ⟨l, -, hl⟩ := h₀.aims hi ht
    rw [hl]
    rfl
  have haims : i.copy.aims = i.aims := Instruction.aims_copy (Or.inr hnumbers)
  obtain ⟨hin, hrewritten⟩ := h.place_of_uid h₀ hi hj huid
  have hbecome (op : Opcode) (o : Operand) : i.copy.become op o = i.become op o := by
    unfold Instruction.become
    rw [Instruction.copy_uid]
  have hbranch (t : Value) (hop : i.copy.opcode = some .switch) (ht : t ∈ i.copy.aims)
      (hleft : i.copy.become .branch (.value t) ∈ g.code) :
      Becomes uids uids' i (g.relinkInstruction (i.copy.become .branch (.value t))) := by
    obtain ⟨haim, hoperand⟩ := relink_become (g := g) i.copy (hnumbers t ht)
    rw [hoperand, hbecome]
    rw [Instruction.copy_opcode] at hop
    exact .branch t _ hop (haims ▸ ht) (hrelinks _ hleft t haim)
  generalize f i.copy = js at hin hrewritten
  cases hrewritten with
  | kept =>
    obtain rfl := List.mem_singleton.mp hin
    cases hb : i.isBranch with
    | false =>
      have hb' : i.copy.isBranch = false := by
        unfold Instruction.isBranch
        rw [Instruction.copy_opcode]
        exact hb
      refine .same hb ?_
      rw [relinkInstruction, Instruction.retarget_of_not_branch _ hb']
      exact Encoding.instruction_copy i
    | true =>
      refine .relinked g.relinkTarget hb (fun t ht => hrelinks _ hj t (haims ▸ ht)) ?_
      rw [relinkInstruction, Instruction.retarget_copy hb hnumbers]
  | dropped => cases hin
  | constant v hfolds =>
    obtain rfl := List.mem_singleton.mp hin
    have hstays : g.relinkInstruction (i.copy.become .pushConst (.value v))
        = i.become .pushConst (.value v) := by
      rw [← hbecome]
      exact Instruction.retarget_of_not_branch _ rfl
    rw [hstays]
    refine .constant v ?_
    unfold Instruction.IsFoldable at hfolds ⊢
    rwa [Instruction.copy_opcode] at hfolds
  | branch t hop ht =>
    obtain rfl := List.mem_singleton.mp hin
    exact hbranch t hop ht hj
  | discard t u hop ht hu =>
    rcases List.mem_cons.mp hin with rfl | hin
    · have := h₀.uids_fresh _ hi
      rw [Instruction.copy_uid, ← huid] at this
      exact absurd hu (by dsimp only at this ⊢; omega)
    · obtain rfl := List.mem_singleton.mp hin
      exact hbranch t hop ht hj

section Written

variable {code : List Instruction} {new : Method}

/-- An instruction that is left comes from one of the method that the first graph is cut from. -/
theorem exists_origin (h : Traced g₀ g T f) (hcode₀ : g₀.code = code.map Instruction.copy)
    {j : Instruction} (hj : j ∈ g.code) : ∃ i ∈ code, i.copy ∈ T.flatMap Stretch.code
      ∧ j ∈ f i.copy ∧ i.copy.Rewritten g₀.fresh (f i.copy) := by
  obtain ⟨r, hr, ins, hins, hin, hrewritten⟩ := h.exists_source hj
  obtain ⟨i, hi, rfl⟩ := List.mem_map.mp (hcode₀ ▸ h.mem_code₀ hr hins)
  exact ⟨i, hi, List.mem_flatMap.mpr ⟨r, hr, hins⟩, hin, hrewritten⟩

/-- What is new is a discard in front of a branch that was a dispatch. -/
theorem inserted (h : Traced g₀ g T f) (hcode₀ : g₀.code = code.map Instruction.copy)
    (hwritten : g.Written new) {j' : Instruction} (hj' : j' ∈ new.code)
    (hnew : j'.uid ∉ code.map (·.uid)) : g₀.fresh ≤ j'.uid ∧ j'.opcode = some .pop
      ∧ ∃ before branch rest, new.code = before ++ j' :: branch :: rest
        ∧ branch.opcode = some .branch
        ∧ ∃ i ∈ code, i.uid = branch.uid ∧ i.opcode = some .switch := by
  rw [hwritten.code] at hj'
  obtain ⟨j, hj, rfl⟩ := List.mem_map.mp hj'
  obtain ⟨i, hi, hin, hjin, hrewritten⟩ := h.exists_origin hcode₀ hj
  rw [relinkInstruction_uid] at hnew ⊢
  rcases hrewritten.uid_cases hjin with hsame | ⟨hfresh, hpop, hswitch, t, hpair⟩
  · rw [hsame, Instruction.copy_uid] at hnew
    exact absurd (List.mem_map_of_mem hi) hnew
  · obtain ⟨front, behind, hsplit⟩ := List.append_of_mem hin
    refine ⟨hfresh, (g.relinkInstruction_opcode j).trans hpop, (front.flatMap f).map
      g.relinkInstruction, g.relinkInstruction (i.copy.become .branch (.value t)),
      (behind.flatMap f).map g.relinkInstruction, ?_, g.relinkInstruction_opcode _, i, hi, ?_,
      (Instruction.copy_opcode i).symm.trans hswitch⟩
    · rw [hwritten.code, h.code, hsplit, List.flatMap_append, List.flatMap_cons, hpair]
      simp
    · rw [relinkInstruction_uid]
      exact (Instruction.copy_uid i).symm

/-- Where a dispatch has been resolved to go, a branch goes. -/
theorem resolved (h : Traced g₀ g T f) (h₀ : g₀.Formed)
    (hcode₀ : g₀.code = code.map Instruction.copy) {u : Int} {t : Value}
    (hchoice : choice T f u = some t) : ∃ i ∈ code, i.uid = u ∧ i.opcode = some .switch
      ∧ t ∈ i.aims ∧ t.wholeNumber?.isSome ∧ i.become .branch (.value t) ∈ g.code := by
  obtain ⟨ins, hfound, hturn⟩ := Option.bind_eq_some_iff.mp hchoice
  have hins := List.mem_of_find?_eq_some hfound
  obtain ⟨r, hr, hin⟩ := List.mem_flatMap.mp hins
  have hmem := h.mem_code₀ hr hin
  have hrewritten := h.rewritten r hr ins hin
  obtain ⟨hop, ht, hsettled⟩ := hrewritten.of_turn? hturn
  obtain ⟨l, -, hl⟩ := h₀.aims hmem ht
  -- The branch is the last of what stands in the place of the dispatch.
  have hends : ins.endsRun [] = true := by
    unfold Instruction.endsRun Instruction.isBranch
    rw [hop]
    rfl
  obtain ⟨front, j, hj, -⟩ := hrewritten.last hends
  rw [settled, hj, List.getLast?_concat] at hsettled
  obtain rfl : j = ins.become .branch (.value t) := hsettled
  have hleft : ins.become .branch (.value t) ∈ g.code := by
    rw [h.code]
    exact List.mem_flatMap.mpr ⟨ins, hins, by rw [hj]; simp⟩
  have huid := List.find?_some hfound
  obtain ⟨i, hi, rfl⟩ := List.mem_map.mp (hcode₀ ▸ hmem)
  have hop' := (Instruction.copy_opcode i).symm.trans hop
  refine ⟨i, hi, (Instruction.copy_uid i).symm.trans (eq_of_beq huid), hop', ?_, ?_, ?_⟩
  · rwa [Instruction.aims_copy_of_switch hop'] at ht
  · rw [hl]
    rfl
  · unfold Instruction.become at hleft ⊢
    rwa [Instruction.copy_uid] at hleft

/-- Of a block that is left only what works on the top of the stack can be missing. Blocks that are
    not left are out of reach. -/
theorem dropped (h : Traced g₀ g T f) (h₀ : g₀.Formed) (hfirst : g₀.FirstLabels)
    {e : Int × List Instruction} (he : e ∈ g₀.outline) :
    (∀ i ∈ e.2, i.uid ∈ g.code.map (·.uid) ∨ i.isDroppable = true)
      ∨ ¬ g₀.Survives (choice T f) e.1 ∧ ∀ i ∈ e.2, i.uid ∉ g.code.map (·.uid) := by
  by_cases hleft : e ∈ T.flatMap Stretch.blocks
  · left
    intro i hi
    obtain ⟨r, hr, her⟩ := List.mem_flatMap.mp hleft
    have hin : i ∈ r.code := List.mem_flatMap.mpr ⟨e, her, hi⟩
    rcases (h.rewritten r hr i hin).exists_last with ⟨-, hdrop⟩ | ⟨front, j, hj, huid⟩
    · exact Or.inr hdrop
    · refine Or.inl (List.mem_map.mpr ⟨j, ?_, huid⟩)
      rw [h.code]
      exact List.mem_flatMap.mpr ⟨i, List.mem_flatMap.mpr ⟨r, hr, hin⟩, by rw [hj]; simp⟩
  · right
    refine ⟨fun hsurvives => hleft ?_, fun i hi hu => hleft ?_⟩
    · obtain ⟨e', he', hlabel⟩ := List.mem_map.mp (h.survives h₀ hfirst hsurvives)
      rwa [← List.inj_on_of_nodup_map h₀.outline_nodup (h.sublist.subset he') he hlabel]
    · obtain ⟨j, hj, huid⟩ := List.mem_map.mp hu
      obtain ⟨r, hr, ins, hins, hin, hrewritten⟩ := h.exists_source hj
      have hsame : ins.uid = i.uid := by
        rcases hrewritten.uid_cases hin with hsame | ⟨hfresh, -⟩
        · rw [← hsame, huid]
        · have := h₀.uids_fresh i (mem_code_of_mem he hi)
          omega
      obtain ⟨e', he', hin'⟩ := List.mem_flatMap.mp hins
      rw [← h₀.eq_of_shared (h.mem_outline₀ hr he') he hin' hi hsame]
      exact List.mem_flatMap.mpr ⟨r, hr, he'⟩

/-- The method that is written out of what is left derives from the method that the first graph
    is cut from. -/
theorem derives (h : Traced g₀ g T f) (h₀ : g₀.Formed) (hfirst : g₀.FirstLabels)
    (hcode₀ : g₀.code = code.map Instruction.copy) (hwritten : g.Written new) :
    Method.Derives g₀ (choice T f) code new.code := by
  have huids₀ : g₀.code.map (·.uid) = code.map (·.uid) := by
    rw [hcode₀, Instruction.copy_uids]
  have huids := hwritten.uids
  have hold : ∀ u ∈ code.map (·.uid), u < g₀.fresh := fun u hu => by
    obtain ⟨i, hi, rfl⟩ := List.mem_map.mp (huids₀ ▸ hu)
    exact h₀.uids_fresh i hi
  have hrelinks : ∀ j ∈ g.code, ∀ t ∈ j.aims,
      Relinks (code.map (·.uid)) (new.code.map (·.uid)) t (g.relinkTarget t) := by
    intro j hj t ht
    rw [← huids₀, huids]
    exact h.relinks h₀ hfirst hwritten.leads hj ht
  refine ⟨?_, ?_, ?_, ?_, ?_⟩
  · rw [huids, ← huids₀]
    refine h.order fun u hu => Bool.eq_false_iff.mpr fun hc => ?_
    have := hold u (huids₀ ▸ List.contains_iff_mem.mp hc)
    omega
  · intro j hj hnew
    obtain ⟨hfresh, hinserted⟩ := h.inserted hcode₀ hwritten hj hnew
    exact ⟨fun i hi => Int.lt_of_lt_of_le (hold _ (List.mem_map_of_mem hi)) hfresh, hinserted⟩
  · intro i hi j' hj' huid
    rw [hwritten.code] at hj'
    obtain ⟨j, hj, rfl⟩ := List.mem_map.mp hj'
    have hi₀ : i.copy ∈ g₀.code := hcode₀ ▸ List.mem_map_of_mem hi
    exact h.becomes h₀ hrelinks hi₀ hj ((g.relinkInstruction_uid j).symm.trans huid)
  · intro u t hchoice
    obtain ⟨i, hi, huid, hop, ht, hnumber, hleft⟩ := h.resolved h₀ hcode₀ hchoice
    obtain ⟨haim, hoperand⟩ := relink_become (g := g) i hnumber
    refine ⟨i, hi, huid, hop, ht, g.relinkTarget t, hrelinks _ hleft t haim, ?_⟩
    rw [hwritten.code, ← hoperand]
    exact List.mem_map_of_mem hleft
  · intro e he
    rw [huids]
    exact h.dropped h₀ hfirst he

end Written

end Graph.Traced

namespace Method

/-- Nothing but the rewrites there are happens to the stream of a method that is rewritten. -/
theorem normalize_derives (m : Method) (settings : Settings)
    (hnodup : (m.code.map (·.uid)).Nodup) (h : (m.normalize settings).rewritten = true) :
    ∃ g choice, Graph.build m.copy settings.terminators = .ok g
      ∧ Derives g choice m.code (m.normalize settings).body.code := by
  obtain ⟨M, hmachine⟩ := machine_of_rewritten hnodup h
  obtain ⟨g₀, g, hbuild, hsound, -, hwritten, -⟩ :=
    normalize_written (P := ⟨M, default, settings.terminators⟩) hnodup hmachine rfl h
  obtain ⟨T, f, htraced⟩ := hsound.traced
  have hcode : g₀.code = m.code.map Instruction.copy := Graph.build_code hbuild
  exact ⟨g₀, Graph.choice T f, hbuild, htraced.derives
    (Graph.build_formed hbuild (copy_nodup hnodup)).1 (Graph.build_firstLabels hbuild) hcode
    hwritten⟩

theorem knownDispatch_derives : ∃ g choice,
    Graph.build knownDispatch.copy ({} : Settings).terminators = .ok g
      ∧ Derives g choice knownDispatch.code (knownDispatch.normalize {}).body.code :=
  normalize_derives knownDispatch {} (by decide) (by decide +kernel)

end Method

end Untangle
