/-
  Untangle.Proofs.Listing

  What a listing is read as (`Listing.parseMethod_assembled`). The instructions of a method that is
  read are numbered in stream order. Each has an operand that fits its opcode, and targets and
  boundaries are numbers.
-/
import Untangle.Abstract.Step
import Untangle.Listing.Parser
import Untangle.Proofs.Lists

namespace Untangle

/-- An instruction whose parts are of the kinds that its opcode asks for. -/
structure Instruction.Runnable (ins : Instruction) : Prop where
  targets : ins.checkTargets = .ok ()
  mnemonic : ins.opcode = some .other → ins.mnemonic.isKey = true
  condition : ins.opcode = some .condBranch → ins.mnemonic.isText = true
  operation : ins.opcode = some .arith → ∃ op, ins.operand = .operation op
  effect : Report.ofEffect? ins = none
  /-- The operand is no list, which could change. -/
  fixed : ∀ items, ins.operand ≠ .value (.list items)
  dispatch : ins.opcode = some .switch → ∃ items, ins.operand = .value (.tuple items)

namespace Instruction.Runnable

theorem withUid {ins : Instruction} (h : ins.Runnable) (uid : Int) :
    ({ ins with uid } : Instruction).Runnable :=
  ⟨h.targets, h.mnemonic, h.condition, h.operation, h.effect, h.fixed, h.dispatch⟩

/-- An instruction with no more than an operand, of an opcode that neither branches nor computes. -/
theorem plain {opcode : Opcode} {operand : Value} (hbranch : opcode.isBranch = false)
    (hother : opcode ≠ .other) (harith : opcode ≠ .arith) (hfixed : ∀ items, operand ≠ .list items) :
    ({ opcode := some opcode, operand := .value operand } : Instruction).Runnable where
  targets := by
    unfold checkTargets Instruction.targets isBranch
    rw [Option.any_some, hbranch]
    rfl
  mnemonic h := absurd (Option.some.inj h) hother
  condition h := by
    rw [Option.some.inj h] at hbranch
    cases hbranch
  operation h := absurd (Option.some.inj h) harith
  effect := rfl
  fixed items h := hfixed items (Operand.value.inj h)
  dispatch h := by
    rw [Option.some.inj h] at hbranch
    cases hbranch

end Instruction.Runnable

/-- A method as a listing gives it. -/
structure Method.Assembled (m : Method) : Prop where
  uids : (m.code.map (·.uid)).Nodup
  runnable : ∀ ins ∈ m.code, ins.Runnable
  boundaries : ∀ r ∈ m.regions, ∀ v ∈ r.boundaries, v.isKey = true

namespace Listing

/-! ## Instructions -/

/-- An instruction with the targets that its labels stand for. -/
def withTargets (ins : Instruction) : List Value → Instruction
  | [] => ins
  | first :: rest =>
    { ins with
      operand := .value (if ins.opcode == some .switch then .tuple (first :: rest) else first) }

theorem withTargets_uid (ins : Instruction) (vs : List Value) :
    (withTargets ins vs).uid = ins.uid := by
  cases vs <;> rfl

/-- An instruction is runnable once the labels that it names are resolved. -/
def Linkable (ins : Instruction) (names : List String) : Prop :=
  ∀ vs : List Value, vs.length = names.length → (∀ v ∈ vs, ∃ n, v = .int n) →
    (withTargets ins vs).Runnable

theorem Linkable.of_runnable {ins : Instruction} (h : ins.Runnable) : Linkable ins [] := by
  intro vs hlength _
  rw [List.eq_nil_of_length_eq_zero hlength]
  exact h

theorem areKeys_of_ints {vs : List Value} (h : ∀ v ∈ vs, ∃ n, v = .int n) :
    vs.mapM Value.asKey = .ok vs := by
  refine mapM_eq_ok.mpr (List.forall₂_same.mpr fun v hv => ?_)
  obtain ⟨n, rfl⟩ := h v hv
  rfl

/-- A dispatch names any number of targets. -/
theorem linkable_switch (names : List String) :
    Linkable { opcode := some .switch, operand := .value (.tuple []) } names := by
  intro vs _ hints
  have htargets : ∀ items : List Value, (∀ v ∈ items, ∃ n, v = .int n) →
      ({ opcode := some .switch, operand := .value (.tuple items) } : Instruction).Runnable := by
    intro items hitems
    refine ⟨?_, nofun, nofun, nofun, rfl, nofun, fun _ => ⟨items, rfl⟩⟩
    refine bind_eq_ok.mpr ⟨items, ?_, bind_eq_ok.mpr ⟨items, areKeys_of_ints hitems, rfl⟩⟩
    cases items <;> rfl
  cases vs with
  | nil => exact htargets [] nofun
  | cons first rest => exact htargets (first :: rest) hints

/-- A branch names one target. -/
theorem linkable_branch {opcode : Opcode} {mnemonic : String} {name shown}
    (h : branchOpcode? mnemonic = some opcode)
    (hshown : shown = if opcode == .condBranch then Value.str mnemonic else .null) :
    Linkable { opcode := some opcode, mnemonic := shown } [name] := by
  intro vs hlength hints
  obtain ⟨v, rfl⟩ := List.length_eq_one_iff.mp hlength
  obtain ⟨n, rfl⟩ := hints v List.mem_cons_self
  have hop : opcode = .branch ∨ opcode = .leave ∨ opcode = .condBranch := by
    unfold branchOpcode? at h
    split at h
    · exact Or.inl (Option.some.inj h).symm
    split at h
    · exact Or.inr (Or.inl (Option.some.inj h).symm)
    split at h
    · exact Or.inr (Or.inr (Option.some.inj h).symm)
    · cases h
  subst hshown
  rcases hop with rfl | rfl | rfl
  · exact ⟨rfl, nofun, nofun, nofun, rfl, nofun, nofun⟩
  · exact ⟨rfl, nofun, nofun, nofun, rfl, nofun, nofun⟩
  · exact ⟨rfl, nofun, fun _ => rfl, nofun, rfl, nofun, nofun⟩

/-- A declared effect is two counts. -/
theorem splitEffect_cases (cs : List Char) :
    (splitEffect cs).2 = none ∨ ∃ pops pushes : Nat,
      (splitEffect cs).2 = some [.int pops, .int pushes] := by
  unfold splitEffect
  split
  · dsimp only
    split
    · split
      · exact Or.inr ⟨_, _, rfl⟩
      · exact Or.inl rfl
    · exact Or.inl rfl
  · exact Or.inl rfl

theorem runnable_other (mnemonic : String) {operand : Value} (cs : List Char)
    (hfixed : ∀ items, operand ≠ .list items) :
    ({ opcode := some .other, operand := .value operand, mnemonic := .str mnemonic
       effect := (splitEffect cs).2 } : Instruction).Runnable where
  targets := rfl
  mnemonic _ := rfl
  condition := nofun
  operation := nofun
  effect := by
    unfold Report.ofEffect? Instruction.declaredEffect
    rcases splitEffect_cases cs with hnone | ⟨pops, pushes, hsome⟩
    · rw [hnone]
    · rw [hsome]
      rfl
  fixed items h := hfixed items (Operand.value.inj h)
  dispatch := nofun

/-- A literal is no list. -/
theorem parseLiteral_fixed {text : String} {v : Value} (h : parseLiteral text = .ok v) :
    ∀ items, v ≠ .list items := by
  rintro items rfl
  unfold parseLiteral at h
  dsimp only at h
  split at h
  · cases h
  split at h
  · cases h
  split at h
  · split at h <;> cases h
  split at h
  · have hfloat := Except.ok.inj h
    unfold Value.ofFloat at hfloat
    split at hfloat <;> cases hfloat
  · cases h

/-- Nor is the name or number of a local. -/
theorem localOperand_fixed {text : String} {v : Value} (h : localOperand text = .ok v) :
    ∀ items, v ≠ .list items := by
  rintro items rfl
  unfold localOperand at h
  split at h
  · obtain ⟨n, -, h⟩ := bind_eq_ok.mp h
    cases h
  · cases h

theorem localOpcode?_cases {mnemonic : String} {opcode : Opcode}
    (h : localOpcode? mnemonic = some opcode) : opcode = .loadLocal ∨ opcode = .storeLocal := by
  unfold localOpcode? at h
  split at h
  · exact Or.inl (Option.some.inj h).symm
  split at h
  · exact Or.inr (Option.some.inj h).symm
  · cases h

theorem shortLocal?_cases {mnemonic : String} {opcode : Opcode} {n : Int}
    (h : shortLocal? mnemonic = some (opcode, n)) : opcode = .loadLocal ∨ opcode = .storeLocal := by
  have hnumbered {opcode' : Opcode} {number : Option Nat}
      (h : number.map (fun n => (opcode', (n : Int))) = some (opcode, n)) : opcode = opcode' := by
    obtain ⟨_, -, heq⟩ := Option.map_eq_some_iff.mp h
    exact (Prod.mk.inj heq).1.symm
  unfold shortLocal? at h
  dsimp only at h
  split at h
  · split at h
    · exact Or.inl (hnumbered h)
    · cases h
  · split at h
    · exact Or.inr (hnumbered h)
    · cases h
  · cases h

/-- An instruction on a local. -/
theorem linkable_local {opcode : Opcode} {operand : Value}
    (hop : opcode = .loadLocal ∨ opcode = .storeLocal) (hfixed : ∀ items, operand ≠ .list items) :
    Linkable { opcode := some opcode, operand := .value operand } [] := by
  rcases hop with rfl | rfl <;>
    exact .of_runnable (.plain rfl (by decide) (by decide) hfixed)

/-- Every line that is read as an instruction can be linked. -/
theorem readInstruction_linkable {text : String} {line : Nat} {ins : Instruction}
    {names : List String} (h : readInstruction text line = .ok (ins, names)) :
    Linkable ins names := by
  have hplain {opcode : Opcode} {operand : Value} (hbranch : opcode.isBranch = false)
      (hother : opcode ≠ .other) (harith : opcode ≠ .arith) (hfixed : ∀ items, operand ≠ .list items)
      (h : (Except.ok ({ opcode := some opcode, operand := .value operand }, []) : Except Fault _)
        = .ok (ins, names)) : Linkable ins names := by
    cases h
    exact .of_runnable (.plain hbranch hother harith hfixed)
  unfold readInstruction at h
  dsimp only at h
  generalize (splitEffect text.toList).1 = body at h
  generalize Text.lower (String.ofList (body.takeWhile (· != ' '))) = mnemonic at h
  generalize Text.trim (String.ofList (body.dropWhile (· != ' '))) = rest at h
  split at h
  · exact hplain rfl (by decide) (by decide) (by nofun) h
  · exact hplain rfl (by decide) (by decide) (by nofun) h
  · exact hplain rfl (by decide) (by decide) (by nofun) h
  · split at h
    · cases h
    · exact hplain rfl (by decide) (by decide) (by nofun) h
  · cases h
    exact linkable_switch _
  split at h
  · split at h
    · cases h
    · obtain ⟨v, hv, h⟩ := bind_eq_ok.mp h
      exact hplain rfl (by decide) (by decide) (parseLiteral_fixed hv) h
  split at h
  · obtain ⟨n, -, h⟩ := bind_eq_ok.mp h
    exact hplain rfl (by decide) (by decide) (by nofun) h
  split at h
  · rename_i opcode hop
    split at h
    · cases h
    · obtain ⟨v, hv, h⟩ := bind_eq_ok.mp h
      cases h
      refine linkable_local (localOpcode?_cases hop) ?_
      cases hoperand : localOperand rest with
      | error e =>
        rw [hoperand] at hv
        cases hv
      | ok u =>
        rw [hoperand] at hv
        cases hv
        exact localOperand_fixed hoperand
  split at h
  · rename_i opcode n hshort
    cases h
    exact linkable_local (shortLocal?_cases hshort) nofun
  split at h
  · cases h
    exact .of_runnable ⟨rfl, nofun, nofun, fun _ => ⟨_, rfl⟩, rfl, nofun, nofun⟩
  split at h
  · rename_i opcode hop
    split at h
    · cases h
      exact linkable_branch hop rfl
    · cases h
  · cases h
    refine .of_runnable (runnable_other mnemonic _ ?_)
    split
    · exact nofun
    · exact nofun

/-! ## Methods -/

/-- A draft whose instructions are numbered as they come, and can be linked. -/
structure Draft.Sound (d : Draft) : Prop where
  uids : d.code.reverse.map (·.1.uid) = (List.range d.code.length).map Int.ofNat
  linkable : ∀ e ∈ d.code, Linkable e.1 e.2.names

namespace Draft

variable {d d' : Draft} {line : Nat}

theorem sound_new (name : String) : Sound { name } := ⟨rfl, fun _ he => nomatch he⟩

theorem Sound.addLabel (h : d.Sound) {label : String} (hadd : d.addLabel label line = .ok d') :
    d'.Sound := by
  unfold Draft.addLabel at hadd
  split at hadd
  · cases hadd
  · cases hadd
    exact ⟨h.uids, h.linkable⟩

theorem Sound.addLabels (h : d.Sound) {labels : List String}
    (hadd : labels.foldlM (fun d label => d.addLabel label line) d = .ok d') : d'.Sound := by
  induction labels generalizing d with
  | nil =>
    cases hadd
    exact h
  | cons label labels ih =>
    rw [List.foldlM_cons] at hadd
    obtain ⟨d₁, hfirst, hadd⟩ := bind_eq_ok.mp hadd
    exact ih (h.addLabel hfirst) hadd

theorem Sound.addInstruction (h : d.Sound) {ins : Instruction} {names : List String}
    (hlinkable : Linkable ins names) : (d.addInstruction ins names line).Sound := by
  constructor
  · unfold Draft.addInstruction
    rw [List.reverse_cons, List.map_append, h.uids, List.length_cons, List.range_succ,
      List.map_append]
    rfl
  · intro e he
    rcases List.mem_cons.mp he with rfl | he
    · intro vs hlength hints
      have := (hlinkable vs hlength hints).withUid d.code.length
      cases vs <;> exact this
    · exact h.linkable e he

/-- A label stands for a number. -/
theorem resolve_eq_ok {label : String} {v : Value} (h : d.resolve line label = .ok v) :
    ∃ n, v = .int n := by
  unfold resolve at h
  split at h
  · cases h
    exact ⟨_, rfl⟩
  · cases h

theorem link_eq_ok {ins j : Instruction} {ref : Reference} (h : d.link (ins, ref) = .ok j) :
    ∃ vs : List Value, vs.length = ref.names.length ∧ (∀ v ∈ vs, ∃ n, v = .int n)
      ∧ j = withTargets ins vs := by
  obtain ⟨vs, hvs, h⟩ := bind_eq_ok.mp h
  refine ⟨vs, (mapM_eq_ok.mp hvs).length_eq.symm, fun v hv => ?_, ?_⟩
  · obtain ⟨label, -, hlabel⟩ := exists_of_mapM hvs hv
    exact resolve_eq_ok hlabel
  · cases vs <;> cases h <;> rfl

theorem link_uids {entries : List (Instruction × Reference)} {code : List Instruction}
    (h : entries.mapM d.link = .ok code) : code.map (·.uid) = entries.map (·.1.uid) := by
  have hall := mapM_eq_ok.mp h
  clear h
  induction hall with
  | nil => rfl
  | cons hlink _ ih =>
    obtain ⟨vs, -, -, rfl⟩ := link_eq_ok hlink
    rw [List.map_cons, List.map_cons, ih, withTargets_uid]

theorem region_eq_ok {ref : Reference} {r : Region} (h : d.region ref = .ok r) :
    ∀ v ∈ r.boundaries, v.isKey = true := by
  have hbuild {kind : RegionKind} {a b c e : String} {type : Value}
      (h : (do
        return {
          kind := kind
          tryStart := ← d.resolve ref.line a
          tryEnd := ← d.resolve ref.line b
          handlerStart := ← d.resolve ref.line c
          handlerEnd := ← d.resolve ref.line e
          catchType := type } : Except Fault Region) = .ok r) :
      ∀ v ∈ r.boundaries, v.isKey = true := by
    obtain ⟨v₁, h₁, h⟩ := bind_eq_ok.mp h
    obtain ⟨v₂, h₂, h⟩ := bind_eq_ok.mp h
    obtain ⟨v₃, h₃, h⟩ := bind_eq_ok.mp h
    obtain ⟨v₄, h₄, h⟩ := bind_eq_ok.mp h
    cases h
    obtain ⟨n₁, rfl⟩ := resolve_eq_ok h₁
    obtain ⟨n₂, rfl⟩ := resolve_eq_ok h₂
    obtain ⟨n₃, rfl⟩ := resolve_eq_ok h₃
    obtain ⟨n₄, rfl⟩ := resolve_eq_ok h₄
    simp [Region.boundaries, Value.isKey]
  unfold region at h
  dsimp only at h
  split at h
  · split at h
    · cases h
    · exact hbuild h
  · split at h
    · cases h
    · exact hbuild h
  · cases h

/-- A draft is finished as a method whose instructions are numbered and fit their opcodes. -/
theorem Sound.finish (h : d.Sound) {m : Method} (hfinish : d.finish = .ok m) : m.Assembled := by
  unfold Draft.finish at hfinish
  have hdone {code : List Instruction} {regions : List Region}
      (hcode : d.code.reverse.mapM d.link = .ok code)
      (hregions : d.regions.reverse.mapM d.region = .ok regions)
      (hm : m = { code, regions, locals := d.locals.map .str, name := .str d.name }) :
      m.Assembled := by
    subst hm
    refine ⟨?_, fun ins hins => ?_, fun r hr => ?_⟩
    · show (code.map (·.uid)).Nodup
      rw [link_uids hcode, h.uids]
      exact List.nodup_range.map fun _ _ => Int.ofNat.inj
    · obtain ⟨e, he, hlink⟩ := exists_of_mapM hcode hins
      obtain ⟨vs, hlength, hints, rfl⟩ := link_eq_ok hlink
      exact h.linkable e (List.mem_reverse.mp he) vs hlength hints
    · obtain ⟨ref, -, hregion⟩ := exists_of_mapM hregions hr
      exact region_eq_ok hregion
  split at hfinish
  · cases hfinish
  · obtain ⟨code, hcode, hfinish⟩ := bind_eq_ok.mp hfinish
    obtain ⟨regions, hregions, hfinish⟩ := bind_eq_ok.mp hfinish
    exact hdone hcode hregions (Except.ok.inj hfinish).symm

end Draft

/-- What has been read so far: methods that have ended, and a draft. -/
structure Progress.Sound (p : Progress) : Prop where
  ended : ∀ m ∈ p.ended, m.Assembled
  current : ∀ d, p.current = some d → d.Sound

namespace Progress.Sound

variable {p p' : Progress}

theorem close (h : p.Sound) (hclose : p.close = .ok p') : p'.Sound := by
  unfold Progress.close at hclose
  split at hclose
  · cases hclose
    exact h
  · rename_i d hd
    obtain ⟨m, hm, hclose⟩ := bind_eq_ok.mp hclose
    cases hclose
    refine ⟨fun m' hm' => ?_, nofun⟩
    rcases List.mem_append.mp hm' with hm' | hm'
    · exact h.ended m' hm'
    · rw [List.mem_singleton.mp hm']
      exact (h.current d hd).finish hm

theorem step (h : p.Sound) {line : Line} {number : Nat}
    (hstep : p.step line number = .ok p') : p'.Sound := by
  have hdraft : (p.current.getD { name := "<method>" }).Sound := by
    cases hcurrent : p.current with
    | none => exact Draft.sound_new _
    | some d => exact h.current d hcurrent
  have hput {d : Draft} (hd : d.Sound) : ({ p with current := some d } : Progress).Sound :=
    ⟨h.ended, fun d' h' => Option.some.inj h' ▸ hd⟩
  unfold Progress.step at hstep
  dsimp only at hstep
  generalize p.current.getD { name := "<method>" } = draft at hdraft hstep
  split at hstep
  · cases hstep
    exact h
  · obtain ⟨p₁, hclose, hstep⟩ := bind_eq_ok.mp hstep
    cases hstep
    exact ⟨(h.close hclose).ended, fun d hd => Option.some.inj hd ▸ Draft.sound_new _⟩
  · cases hstep
    exact hput ⟨hdraft.uids, hdraft.linkable⟩
  · cases hstep
    exact hput ⟨hdraft.uids, hdraft.linkable⟩
  · obtain ⟨draft', hlabels, hstep⟩ := bind_eq_ok.mp hstep
    have hdraft' := hdraft.addLabels hlabels
    split at hstep
    · cases hstep
      exact hput hdraft'
    · obtain ⟨⟨ins, names⟩, hread, hstep⟩ := bind_eq_ok.mp hstep
      cases hstep
      exact hput (hdraft'.addInstruction (readInstruction_linkable hread))

/-- By induction on the lines. -/
theorem run (h : p.Sound) {numbered : List (String × Nat)}
    (hrun : numbered.foldlM (fun p line => Progress.step p (Line.read line.1) line.2) p = .ok p') :
    p'.Sound := by
  induction numbered generalizing p with
  | nil =>
    cases hrun
    exact h
  | cons line numbered ih =>
    rw [List.foldlM_cons] at hrun
    obtain ⟨p₁, hstep, hrun⟩ := bind_eq_ok.mp hrun
    exact ih (h.step hstep) hrun

end Progress.Sound

end Listing

end Untangle
