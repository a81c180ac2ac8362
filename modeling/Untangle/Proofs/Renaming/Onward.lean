/-
  Untangle.Proofs.Renaming.Onward

  From the uids of a method on. New instructions are numbered after those that are there, before
  a renaming and after it alike. So a renaming of the uids that are there is read as one that goes
  on with the numbers of new instructions. A method that is cut into blocks names nothing but its
  own instructions, and cannot tell the two.
-/
import Untangle.Proofs.Renaming.Build
import Untangle.Proofs.Renaming.Edit
import Untangle.Proofs.Validate

namespace Untangle

open Graph

/-- A method that names nothing but instructions of its own. -/
structure Method.Named (m : Method) : Prop where
  code : ∀ ins ∈ m.code, ∀ t ∈ ins.aims, (Method.placeOf? m.code t).isSome
  regions : ∀ r ∈ m.regions, ∀ v ∈ r.boundaries, (Method.placeOf? m.code v).isSome

theorem placeOf?_copy (code : List Instruction) (v : Value) :
    Method.placeOf? (code.map Instruction.copy) v = Method.placeOf? code v := by
  unfold Method.placeOf? Method.place?
  refine congrArg v.wholeNumber?.bind (funext fun u => ?_)
  rw [List.findIdx?_map]
  exact congrArg (List.findIdx? · code) (funext fun ins =>
    congrArg (· == u) (Instruction.copy_uid ins))

/-- What a copy names is named by the method. -/
theorem Method.Named.of_copy {m : Method} (h : m.copy.Named) : m.Named := by
  refine ⟨fun ins hins t ht => ?_, fun r hr v hv => ?_⟩
  · have hnamed : ∀ t ∈ ins.copy.aims, (Method.placeOf? m.code t).isSome := fun t ht =>
      placeOf?_copy m.code t ▸ h.code ins.copy (List.mem_map_of_mem hins) t ht
    have haims : ins.copy.aims = ins.aims := Instruction.aims_copy (Or.inr fun t ht => by
      obtain ⟨u, hu, -⟩ := wholeNumber?_of_placeOf? (Option.get_mem (hnamed t ht))
      rw [hu]
      rfl)
    exact hnamed t (haims ▸ ht)
  · exact placeOf?_copy m.code v ▸ h.regions r hr v hv

namespace Renaming

variable (ρ : Renaming) (code : List Instruction)

variable {code}

/-- Two renamings that take what some code can name to the same. -/
structure SameOn (σ ρ : Renaming) (code : List Instruction) : Prop where
  uid : ∀ ins ∈ code, σ ins.uid = ρ ins.uid
  fraction : σ.fraction = ρ.fraction

variable {ρ} {σ : Renaming} {m : Method}

theorem SameOn.of_copy {code : List Instruction} (h : σ.SameOn ρ (code.map Instruction.copy)) :
    σ.SameOn ρ code :=
  ⟨fun ins hins => Instruction.copy_uid ins ▸ h.uid ins.copy (List.mem_map_of_mem hins),
    h.fraction⟩

/-- They take a name of an instruction to the same, and it follows both or neither. -/
theorem SameOn.value {code : List Instruction} (h : σ.SameOn ρ code) {v : Value}
    (hv : (Method.placeOf? code v).isSome) :
    σ.value v = ρ.value v ∧ v.wholeNumber?.map σ = v.wholeNumber?.map ρ := by
  obtain ⟨ins, hins, hname⟩ := Method.exists_of_placeOf? hv
  have huid := h.uid ins hins
  refine ⟨?_, by rw [hname, Option.map_some, Option.map_some, huid]⟩
  cases v with
  | float x => exact congrArg (fun f => Value.float (f x)) h.fraction
  | bool b =>
    have hname : (if b then 1 else 0) = ins.uid := Option.some.inj hname
    exact congrArg Value.int (hname ▸ huid)
  | int n =>
    cases hname
    exact congrArg Value.int huid
  | _ => rfl

theorem SameOn.follows {code : List Instruction} (h : σ.SameOn ρ code) {v : Value}
    (hv : (Method.placeOf? code v).isSome) (hfollows : v.Follows ρ) : v.Follows σ := by
  obtain ⟨hvalue, hname⟩ := h.value hv
  rw [Value.Follows, hvalue, hname]
  exact hfollows

theorem dispatch_congr {v : Value}
    (h : ∀ t ∈ if v.truthy then v.items.toOption.getD [] else [], σ.value t = ρ.value t) :
    σ.dispatch v = ρ.dispatch v := by
  cases v with
  | list ts =>
    cases ts with
    | nil => rfl
    | cons t rest => exact congrArg Value.list (List.map_congr_left h)
  | tuple ts =>
    cases ts with
    | nil => rfl
    | cons t rest => exact congrArg Value.tuple (List.map_congr_left h)
  | _ => rfl

theorem instruction_congr {ins : Instruction} (huid : σ ins.uid = ρ ins.uid)
    (haims : ∀ t ∈ ins.aims, σ.value t = ρ.value t) : σ.instruction ins = ρ.instruction ins := by
  have hoperand : σ.operand ins = ρ.operand ins := by
    unfold operand
    cases hop : ins.operand with
    | operation op => rfl
    | value v =>
      have hv : ins.operand.toValue = v := by rw [hop]; rfl
      dsimp only
      split
      · rfl
      rename_i hb
      rw [Bool.not_eq_true', Bool.not_eq_false] at hb
      split
      · rename_i hs
        rw [Instruction.aims_of_switch (beq_iff_eq.mp hs), hv] at haims
        exact congrArg Operand.value (dispatch_congr haims)
      · rename_i hs
        rw [Instruction.aims_of_not_switch hb fun h => hs (beq_iff_eq.mpr h), hv, hop] at haims
        cases v with
        | null => rfl
        | _ => exact congrArg Operand.value (haims _ (List.mem_singleton_self _))
  exact congrArg₂ (fun uid operand => { ins with uid, operand }) huid hoperand

theorem region_congr {r : Region} (h : ∀ v ∈ r.boundaries, σ.value v = ρ.value v) :
    σ.region r = ρ.region r := by
  simp only [Region.boundaries, List.forall_mem_cons] at h
  obtain ⟨hts, hte, hhs, hhe, -⟩ := h
  unfold region
  rw [hts, hte, hhs, hhe]

/-- A method that names nothing else is renamed alike by renamings that agree on its uids. -/
theorem SameOn.method (h : σ.SameOn ρ m.code) (hnamed : m.Named) : σ.method m = ρ.method m := by
  have hcode : m.code.map σ.instruction = m.code.map ρ.instruction :=
    List.map_congr_left fun ins hins =>
      instruction_congr (h.uid ins hins) fun t ht => (h.value (hnamed.code ins hins t ht)).1
  have hregions : m.regions.map σ.region = m.regions.map ρ.region :=
    List.map_congr_left fun r hr => region_congr fun v hv => (h.value (hnamed.regions r hr v hv)).1
  exact congrArg₂ (fun code regions => { m with code, regions }) hcode hregions

end Renaming

end Untangle
