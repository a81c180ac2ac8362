/-
  Untangle.Proofs.Renaming.Edit

  Edits of a graph with another numbering. Edits that name the same instructions and change them
  alike make graphs that differ by their numbering only, if the renaming goes on with the numbers
  of new instructions one by one.
-/
import Untangle.Proofs.Graph.Edit
import Untangle.Proofs.Renaming.Graph

namespace Untangle

/-- A change that names nothing but what follows a renaming. -/
def Change.Follows (c : Change) (σ : Renaming) : Prop :=
  match c with
  | .toBranch t => t.Follows σ
  | _ => True

namespace Renaming

variable (σ : Renaming)

def change : Change → Change
  | .toBranch t => .toBranch (σ.value t)
  | c => c

@[simp] theorem change_kind (c : Change) : (σ.change c).kind = c.kind := by
  cases c <;> rfl

/-- Two edits that change the same instruction alike, the one before renaming and the other after
    it. What they are for is told in other words. -/
structure Alters (e e' : Edit) : Prop where
  change : e'.change = σ.change e.change
  follows : e.change.Follows σ
  named : ∃ l u, e.block = .int l ∧ e.uid = .int u ∧ e'.block = .int (σ l) ∧ e'.uid = .int (σ u)

/-- A renaming that goes with a graph: it goes on with the numbers of new instructions one by
    one. -/
structure Fits (g : Graph) : Prop where
  follows : g.Follows σ
  counts : ∀ n, g.fresh ≤ n → σ (n + 1) = σ n + 1

variable {σ}

theorem Fits.pruned {g : Graph} (h : σ.Fits g) : σ.Fits g.pruned := by
  refine ⟨h.follows.pruned, ?_⟩
  unfold Graph.pruned
  split
  · exact h.counts
  · rw [Graph.merged_eq]
    split <;> exact h.counts

variable {e e' : Edit} {edits edits' : List Edit}

theorem Alters.ofInstruction (c : Change) (h : c.Follows σ) (b : Block) (ins : Instruction)
    (note note' : String) :
    σ.Alters (.ofInstruction c b ins note)
      (.ofInstruction (σ.change c) (σ.block b) (σ.instruction ins) note') :=
  ⟨rfl, h, b.label, ins.uid, rfl, rfl, rfl, rfl⟩

theorem Alters.kind (h : σ.Alters e e') : e'.kind = e.kind := by
  rw [Edit.kind, h.change, change_kind]
  rfl

theorem Alters.sameKey {d d' : Edit} (h : σ.Alters e e') (hd : σ.Alters d d') :
    e'.sameKey d' = e.sameKey d := by
  obtain ⟨-, u, -, hu, -, hu'⟩ := h.named
  obtain ⟨-, v, -, hv, -, hv'⟩ := hd.named
  have huids : (e'.uid == d'.uid) = (e.uid == d.uid) := by
    rw [hu, hv, hu', hv']
    exact σ.beq_eq u v
  rw [Edit.sameKey, h.kind, hd.kind, huids]
  rfl

/-! ## Which edits are made -/

theorem Alters.place? (h : σ.Alters e e') (g : Graph) :
    e'.place? (σ.graph g) = (e.place? g).map fun place => (σ place.1, σ place.2) := by
  obtain ⟨l, u, hl, hu, hl', hu'⟩ := h.named
  have hholds (b : Block) : ((σ.block b).code.any fun ins => ins.uid == σ u)
      = b.code.any fun ins => ins.uid == u := by
    show (b.code.map σ.instruction).any _ = _
    rw [List.any_map]
    exact congrArg b.code.any (funext fun ins => σ.beq_eq ins.uid u)
  have hplain (e : Edit) (g : Graph) {l u : Int} (hl : e.block = .int l) (hu : e.uid = .int u) :
      e.place? g = (g.block? l).bind fun b =>
        if b.code.any (fun ins => ins.uid == u) = true then some (l, u) else none := by
    unfold Edit.place?
    rw [hl, hu]
    rfl
  rw [hplain e' _ hl' hu', hplain e g hl hu, graph_block?]
  cases g.block? l with
  | none => rfl
  | some b =>
    show (if ((σ.block b).code.any fun ins => ins.uid == σ u) = true then _ else _)
      = Option.map _ (if _ then _ else _)
    rw [hholds]
    split <;> rfl

theorem Alters.applies (h : σ.Alters e e') (g : Graph) :
    e'.applies (σ.graph g) = e.applies g := by
  rw [Edit.applies, h.place?, Option.isSome_map]
  rfl

/-- A new instruction has nothing to rename but its uid. -/
theorem instruction_inserted (opcode : Opcode) (u : Int) :
    σ.instruction { opcode := some opcode, uid := u } = { opcode := some opcode, uid := σ u } := by
  cases opcode <;> rfl

theorem Alters.replacement (h : σ.Alters e e') (fresh : Int) (ins : Instruction) :
    e'.replacement (σ fresh) (σ.instruction ins)
      = (e.replacement fresh ins).map σ.instruction := by
  unfold Edit.replacement
  rw [h.change]
  cases e.change with
  | insertBefore opcode => exact congrArg (· :: _) (instruction_inserted opcode fresh).symm
  | _ => rfl

theorem replaceFirst {f f' : Instruction → List Instruction}
    (hf : ∀ ins, f' (σ.instruction ins) = (f ins).map σ.instruction) (u : Int)
    (code : List Instruction) :
    Edit.replaceFirst (σ u) f' (code.map σ.instruction)
      = (Edit.replaceFirst u f code).map σ.instruction := by
  induction code with
  | nil => rfl
  | cons ins rest ih =>
    rw [List.map_cons, Edit.replaceFirst, Edit.replaceFirst, instruction_uid, beq_eq, hf, ih]
    split
    · exact List.map_append.symm
    · rfl

theorem mem_replaceFirst {f : Instruction → List Instruction} {u : Int} {code : List Instruction}
    {ins : Instruction} (h : ins ∈ Edit.replaceFirst u f code) :
    ins ∈ code ∨ ∃ j ∈ code, ins ∈ f j := by
  induction code with
  | nil => cases h
  | cons j rest ih =>
    rw [Edit.replaceFirst] at h
    split at h
    · rcases List.mem_append.mp h with h | h
      · exact Or.inr ⟨j, List.mem_cons_self, h⟩
      · exact Or.inl (List.mem_cons_of_mem _ h)
    · rcases List.mem_cons.mp h with rfl | h
      · exact Or.inl List.mem_cons_self
      · rcases ih h with h | ⟨k, hk, h⟩
        · exact Or.inl (List.mem_cons_of_mem _ h)
        · exact Or.inr ⟨k, List.mem_cons_of_mem _ hk, h⟩

/-- What is put in place of an instruction follows the renaming. -/
theorem follows_replacement (hchange : e.change.Follows σ) {fresh : Int} {ins j : Instruction}
    (hins : ins.Follows σ) (h : j ∈ e.replacement fresh ins) : j.Follows σ := by
  unfold Edit.replacement at h
  cases hc : e.change with
  | toBranch target =>
    rw [hc] at h hchange
    rw [List.mem_singleton.mp h]
    intro t ht
    have hbranch : (ins.become .branch (.value target)).isBranch = true := rfl
    rw [Instruction.aims_of_not_switch hbranch (fun hop => nomatch hop)] at ht
    split at ht
    · cases ht
    · rw [List.mem_singleton.mp ht]
      exact hchange
  | toConstant v =>
    rw [hc] at h
    rw [List.mem_singleton.mp h]
    exact fun t ht => nomatch ht
  | insertBefore opcode =>
    rw [hc] at h
    rcases List.mem_cons.mp h with rfl | h
    · intro t ht
      cases opcode <;> cases ht
    · rw [List.mem_singleton.mp h]
      exact hins
  | remove =>
    rw [hc] at h
    cases h

variable {g : Graph}

theorem graph_setBlock {f f' : Block → Block} (hf : ∀ b, f' (σ.block b) = σ.block (f b)) (g : Graph)
    (l : Int) : (σ.graph g).setBlock (σ l) f' = σ.graph (g.setBlock l f) := by
  refine congrArg (fun blocks => { σ.graph g with blocks }) ?_
  show (g.blocks.map σ.block).map _ = (g.blocks.map _).map σ.block
  rw [List.map_map, List.map_map]
  refine List.map_congr_left fun b _ => ?_
  show (if σ b.label == σ l then f' (σ.block b) else σ.block b) = σ.block (if _ then _ else _)
  rw [beq_eq, hf]
  split <;> rfl

/-- So does a graph once instructions are changed where an edit asks for it. -/
theorem follows_setBlock (hg : g.Follows σ) (hchange : e.change.Follows σ) (l u : Int) :
    (g.setBlock l fun b =>
      { b with code := Edit.replaceFirst u (e.replacement g.fresh) b.code }).Follows σ := by
  refine ⟨fun ins hins => ?_, hg.regions⟩
  obtain ⟨d, hd, hins⟩ := List.mem_flatMap.mp hins
  obtain ⟨b, hb, rfl⟩ := List.mem_map.mp hd
  have hcode : ∀ j ∈ b.code, j.Follows σ := fun j hj => hg.code j (List.mem_flatMap.mpr ⟨b, hb, hj⟩)
  split at hins
  · rcases mem_replaceFirst hins with hins | ⟨j, hj, hins⟩
    · exact hcode ins hins
    · exact follows_replacement hchange (hcode j hj) hins
  · exact hcode ins hins

theorem Alters.apply (h : σ.Alters e e') (hfits : σ.Fits g) :
    e'.apply (σ.graph g) = σ.graph (e.apply g) ∧ σ.Fits (e.apply g) := by
  unfold Edit.apply
  rw [h.place?, h.change]
  cases e.place? g with
  | none => exact ⟨rfl, hfits⟩
  | some place =>
    have hblocks : (σ.graph g).setBlock (σ place.1) (fun b =>
          { b with code := Edit.replaceFirst (σ place.2) (e'.replacement (σ g.fresh)) b.code })
        = σ.graph (g.setBlock place.1 fun b =>
            { b with code := Edit.replaceFirst place.2 (e.replacement g.fresh) b.code }) :=
      graph_setBlock (fun b => congrArg (fun code => { σ.block b with code })
        (replaceFirst (h.replacement g.fresh) place.2 b.code)) g place.1
    have hfollows := follows_setBlock hfits.follows h.follows place.1 place.2
    cases e.change with
    | insertBefore opcode =>
      have hfresh := hfits.counts g.fresh (Int.le_refl _)
      refine ⟨congrArg₂ (fun (c : Graph) fresh => { c with fresh }) hblocks hfresh.symm,
        ⟨hfollows.code, hfollows.regions⟩, fun n hn => hfits.counts n ?_⟩
      exact Int.le_trans (Int.le_of_lt (Int.lt_add_one_of_le (Int.le_refl _))) hn
    | _ => exact ⟨hblocks, hfollows, hfits.counts⟩

end Renaming

end Untangle
