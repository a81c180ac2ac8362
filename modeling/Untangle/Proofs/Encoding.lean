/-
  Untangle.Proofs.Encoding

  Documents of methods are faithful (`Encoding.readMethod_faithful`). What is read of a document is
  encoded as a document that is read as the same method, part by part. Documents are made without
  tuples, so the only tuples in what is read are the targets of dispatches, and those are what a
  dispatch reads of a list again.
-/
import Untangle.Encoding.Decode
import Untangle.Encoding.Encode
import Untangle.Proofs.Graph.Build

namespace Untangle

/-! ## Values of documents -/

namespace Value

mutual

/-- Whether a value can be written in a document: it is made without tuples. -/
def isDocument : Value → Bool
  | .tuple _ => false
  | .list items => areDocuments items
  | .dict entries => holdDocuments entries
  | _ => true

/-- Whether all the values can be written in a document. -/
def areDocuments : List Value → Bool
  | [] => true
  | v :: rest => isDocument v && areDocuments rest

/-- Whether the values of all entries can be written in a document. -/
def holdDocuments : List (String × Value) → Bool
  | [] => true
  | (_, v) :: rest => isDocument v && holdDocuments rest

end

theorem isDocument_of_mem {items : List Value} (h : areDocuments items = true) :
    ∀ v ∈ items, v.isDocument = true := by
  induction items with
  | nil => exact nofun
  | cons first items ih =>
    rw [areDocuments, Bool.and_eq_true] at h
    exact List.forall_mem_cons.mpr ⟨h.1, ih h.2⟩

theorem isDocument_of_lookup {entries : List (String × Value)} {key : String} {v : Value}
    (h : holdDocuments entries = true) (hlookup : entries.lookup key = some v) :
    v.isDocument = true := by
  induction entries with
  | nil => cases hlookup
  | cons entry entries ih =>
    obtain ⟨k, w⟩ := entry
    rw [holdDocuments, Bool.and_eq_true] at h
    rw [List.lookup_cons] at hlookup
    split at hlookup
    · cases hlookup
      exact h.1
    · exact ih h.2 hlookup

/-- The items of a value of a document are values of documents. -/
theorem isDocument_of_items {v : Value} {items : List Value} (h : v.isDocument = true)
    (hitems : v.items = .ok items) : ∀ w ∈ items, w.isDocument = true := by
  cases v with
  | list vs =>
    cases hitems
    exact isDocument_of_mem h
  | str s =>
    cases hitems
    exact List.forall_mem_map.mpr fun _ _ => rfl
  | dict entries =>
    cases hitems
    exact List.forall_mem_map.mpr fun _ _ => rfl
  | tuple vs => cases h
  | _ => cases hitems

end Value

namespace Encoding

/-! ## Parts of a record -/

/-- The part of a record under a key, null where it is left out. -/
def field (entries : List (String × Value)) (key : String) : Value :=
  (entries.lookup key).getD .null

theorem isDocument_field {entries : List (String × Value)}
    (h : Value.holdDocuments entries = true) (key : String) :
    (field entries key).isDocument = true := by
  unfold field
  cases hlookup : entries.lookup key with
  | none => rfl
  | some v => exact Value.isDocument_of_lookup h hlookup

theorem lookup_unlessNull_of_ne {key other : String} (h : other ≠ key) (v : Value)
    (rest : List (String × Value)) :
    (unlessNull key v ++ rest).lookup other = rest.lookup other := by
  have hne : (other == key) = false := beq_eq_false_iff_ne.mpr h
  unfold unlessNull
  split
  · rfl
  · rw [List.singleton_append, List.lookup_cons, hne]

/-- A part that is left out for being null is read as null. -/
theorem field_unlessNull {key : String} {rest : List (String × Value)} (h : rest.lookup key = none)
    (v : Value) : field (unlessNull key v ++ rest) key = v := by
  unfold field unlessNull
  split
  · rw [List.nil_append, h]
    rfl
  · rw [List.singleton_append, List.lookup_cons_self]
    rfl

/-! ## Instructions -/

/-- A declared effect: null is none, and any other value is its items. -/
def effect? (v : Value) : Except Misuse (Option (List Value)) :=
  match v with
  | .null => .ok none
  | v => v.items.map some

theorem readInstruction_dict (entries : List (String × Value)) :
    readInstruction (.dict entries) = (do
      let op ← opcode (field entries "op")
      let operand ← operand op (field entries "operand")
      let uid ← Fault.lift (uidNumber ((entries.lookup "uid").getD (.int (-1))))
      let effect ← Fault.lift (effect? (field entries "stack_effect"))
      return { opcode := op, operand, uid, mnemonic := field entries "mnemonic", effect }) := by
  have hfield (key : String) : (do return (← Fault.lift (part? (.dict entries) key)).getD .null)
      = (.ok (field entries key) : Except Fault Value) := rfl
  unfold readInstruction
  dsimp only
  simp only [hfield]
  generalize field entries "stack_effect" = v
  cases v <;> rfl

/-- The entries of a record say what an instruction is. -/
structure Tells (entries : List (String × Value)) (ins : Instruction) : Prop where
  opcode : opcode (field entries "op") = .ok ins.opcode
  operand : operand ins.opcode (field entries "operand") = .ok ins.operand
  uid : uidNumber ((entries.lookup "uid").getD (.int (-1))) = .ok ins.uid
  mnemonic : ins.mnemonic = field entries "mnemonic"
  effect : effect? (field entries "stack_effect") = .ok ins.effect

/-- When an instruction is read. -/
theorem readInstruction_eq_ok {data : Value} {ins : Instruction} :
    readInstruction data = .ok ins ↔ ∃ entries, data = .dict entries ∧ Tells entries ins := by
  constructor
  · intro h
    cases data with
    | dict entries =>
      rw [readInstruction_dict] at h
      obtain ⟨op, hop, h⟩ := bind_eq_ok.mp h
      obtain ⟨o, ho, h⟩ := bind_eq_ok.mp h
      obtain ⟨uid, huid, h⟩ := bind_eq_ok.mp h
      obtain ⟨effect, heffect, h⟩ := bind_eq_ok.mp h
      cases h
      exact ⟨entries, rfl, hop, ho, Graph.lift_eq_ok.mp huid, rfl, Graph.lift_eq_ok.mp heffect⟩
    | _ => cases h
  · rintro ⟨entries, rfl, h⟩
    rw [readInstruction_dict]
    refine bind_eq_ok.mpr ⟨_, h.opcode, bind_eq_ok.mpr ⟨_, h.operand, bind_eq_ok.mpr
      ⟨_, Graph.lift_eq_ok.mpr h.uid, bind_eq_ok.mpr ⟨_, Graph.lift_eq_ok.mpr h.effect, ?_⟩⟩⟩⟩
    rw [← h.mnemonic]
    rfl

/-- An instruction of which documents tell all: its operand is an operation if it computes, a tuple
    of targets if it is a dispatch, and a value other than a tuple if it is anything else. -/
structure Told (ins : Instruction) : Prop where
  operation : ins.opcode = some .arith → ∃ op, ins.operand = .operation op
  dispatch : ins.opcode = some .switch → ∃ ts, ins.operand = .value (.tuple ts)
  plain : ins.opcode ≠ some .arith → ins.opcode ≠ some .switch →
    ∃ v, ins.operand = .value v ∧ ∀ ts, v ≠ .tuple ts

/-- An operation is read by its name. -/
theorem operand_arith {v : Value} {o : Operand} (h : operand (some .arith) v = .ok o) :
    ∃ op, o = .operation op := by
  obtain ⟨key, -, h⟩ := bind_eq_ok.mp h
  split at h
  · split at h
    · cases h
      exact ⟨_, rfl⟩
    · cases h
  · cases h

/-- A dispatch that is read has a sequence of targets, whatever stands there. -/
theorem operand_switch {v : Value} {o : Operand} (h : operand (some .switch) v = .ok o) :
    ∃ ts, o = .value (.tuple ts) := by
  unfold operand at h
  dsimp only at h
  split at h
  · obtain ⟨ts, -, h⟩ := bind_eq_ok.mp h
    cases h
    exact ⟨ts, rfl⟩
  · cases h
    exact ⟨[], rfl⟩

theorem operand_plain {op : Option Opcode} (harith : op ≠ some .arith) (hswitch : op ≠ some .switch)
    (v : Value) : operand op v = .ok (.value v) := by
  unfold operand
  split
  · exact absurd rfl harith
  · exact absurd rfl hswitch
  · rfl

/-- Documents tell all of the instructions that are read of them. -/
theorem told_of_read {data : Value} {ins : Instruction} (hdata : data.isDocument = true)
    (h : readInstruction data = .ok ins) : Told ins := by
  obtain ⟨entries, rfl, htells⟩ := readInstruction_eq_ok.mp h
  have hoperand := htells.operand
  refine ⟨fun hop => ?_, fun hop => ?_, fun harith hswitch => ?_⟩
  · rw [hop] at hoperand
    exact operand_arith hoperand
  · rw [hop] at hoperand
    exact operand_switch hoperand
  · rw [operand_plain harith hswitch] at hoperand
    refine ⟨_, (Except.ok.inj hoperand).symm, fun ts htuple => ?_⟩
    have hfield := isDocument_field hdata "operand"
    rw [htuple] at hfield
    cases hfield

/-- The opcode of an instruction as documents have it. -/
def opcodeValue : Option Opcode → Value
  | some op => .str op.key
  | none => .null

/-- What is written of an opcode is read as that opcode. -/
theorem opcode_opcodeValue (op : Option Opcode) : opcode (opcodeValue op) = .ok op := by
  cases op with
  | none => rfl
  | some op =>
    have hname : Opcode.ofKey? (Text.lower (Value.str op.key).display) = some op := by
      cases op <;> decide
    unfold opcodeValue opcode
    dsimp only
    rw [hname]

/-- What is written of the operand of an instruction is read as that operand. -/
theorem operand_operandValue {ins : Instruction} (h : Told ins) :
    operand ins.opcode (operandValue ins.operand) = .ok ins.operand := by
  by_cases harith : ins.opcode = some .arith
  · obtain ⟨op, hop⟩ := h.operation harith
    have hname : ArithOp.ofName? op.name = some op := by cases op <;> decide
    rw [harith, hop]
    refine bind_eq_ok.mpr ⟨.str op.name, rfl, ?_⟩
    dsimp only
    rw [hname]
    rfl
  by_cases hswitch : ins.opcode = some .switch
  · obtain ⟨ts, hts⟩ := h.dispatch hswitch
    rw [hswitch, hts]
    cases ts <;> rfl
  · obtain ⟨v, hv, hplain⟩ := h.plain harith hswitch
    rw [operand_plain harith hswitch, hv]
    cases v with
    | tuple ts => exact absurd rfl (hplain ts)
    | _ => rfl

/-- A declared effect as documents have it. -/
def effectValue : Option (List Value) → Value
  | some counts => .list counts
  | none => .null

theorem effect?_effectValue (effect : Option (List Value)) :
    effect? (effectValue effect) = .ok effect := by
  cases effect <;> rfl

theorem instruction_eq (ins : Instruction) :
    instruction ins = .dict (("uid", .int ins.uid) :: ("op", opcodeValue ins.opcode)
      :: (unlessNull "operand" (operandValue ins.operand) ++ (unlessNull "mnemonic" ins.mnemonic
        ++ (unlessNull "stack_effect" (effectValue ins.effect) ++ [])))) := by
  rw [List.append_nil, ← List.append_assoc]
  rfl

/-- What is written of an instruction is read as that instruction. -/
theorem readInstruction_instruction {ins : Instruction} (h : Told ins) :
    readInstruction (instruction ins) = .ok ins := by
  refine readInstruction_eq_ok.mpr ⟨_, instruction_eq ins, ?_⟩
  -- Uid and opcode are always there; the other parts are found where they are not left out.
  let effects := unlessNull "stack_effect" (effectValue ins.effect) ++ []
  let others := unlessNull "mnemonic" ins.mnemonic ++ effects
  have hoperand : field (unlessNull "operand" (operandValue ins.operand) ++ others) "operand"
      = operandValue ins.operand := by
    refine field_unlessNull ?_ _
    rw [lookup_unlessNull_of_ne (by decide), lookup_unlessNull_of_ne (by decide)]
    rfl
  have hmnemonic : field (unlessNull "operand" (operandValue ins.operand) ++ others) "mnemonic"
      = ins.mnemonic := by
    rw [field, lookup_unlessNull_of_ne (by decide)]
    refine field_unlessNull ?_ _
    rw [lookup_unlessNull_of_ne (by decide)]
    rfl
  have heffect : field (unlessNull "operand" (operandValue ins.operand) ++ others) "stack_effect"
      = effectValue ins.effect := by
    rw [field, lookup_unlessNull_of_ne (by decide), lookup_unlessNull_of_ne (by decide)]
    exact field_unlessNull rfl _
  exact {
    opcode := opcode_opcodeValue ins.opcode
    operand := (congrArg (operand ins.opcode) hoperand).trans (operand_operandValue h)
    uid := rfl
    mnemonic := hmnemonic.symm
    effect := (congrArg effect? heffect).trans (effect?_effectValue ins.effect) }

/-! ## Regions -/

theorem readRegion_dict {entries : List (String × Value)} {name : String} {kind : RegionKind}
    (hlookup : entries.lookup "kind" = some (.str name)) (hkind : RegionKind.ofName? name = some kind) :
    readRegion (.dict entries) = .ok {
      kind
      tryStart := field entries "try_start"
      tryEnd := field entries "try_end"
      handlerStart := field entries "handler_start"
      handlerEnd := field entries "handler_end"
      catchType := field entries "catch_type" } := by
  unfold readRegion
  dsimp only
  rw [hlookup]
  dsimp only
  rw [hkind]
  rfl

/-- What is written of a region is read as that region. -/
theorem readRegion_region (r : Region) : readRegion (region r) = .ok r := by
  have hkind : RegionKind.ofName? r.kind.name = some r.kind := by cases r.kind <;> decide
  have hcatch : field (unlessNull "catch_type" r.catchType ++ []) "catch_type" = r.catchType :=
    field_unlessNull rfl _
  rw [List.append_nil] at hcatch
  refine (readRegion_dict rfl hkind).trans (congrArg Except.ok ?_)
  -- Kind and boundaries are always there.
  show { r with catchType := field (unlessNull "catch_type" r.catchType) "catch_type" } = r
  rw [hcatch]

/-! ## Uids -/

theorem hasRepeats_eq_false {uids : List Int} : hasRepeats uids = false ↔ uids.Nodup := by
  induction uids with
  | nil => exact iff_of_true rfl List.nodup_nil
  | cons uid uids ih =>
    rw [hasRepeats, Bool.or_eq_false_iff, ih, List.nodup_cons, List.contains_eq_mem,
      decide_eq_false_iff_not]

theorem freshUid_nonneg (code : List Instruction) : 0 ≤ Method.freshUid code := by
  unfold Method.freshUid
  have key (n : Int) (hn : 0 ≤ n) : 0 ≤ code.foldl (fun n ins => max n (ins.uid + 1)) n := by
    induction code generalizing n with
    | nil => exact hn
    | cons ins code ih => exact ih _ (Int.le_trans hn (Int.le_max_left n _))
  exact key 0 (Int.le_refl 0)

/-- A numbered instruction has the uid that it had, or one from a number on if it had none. -/
structure NumberedFrom (next : Int) (i j : Instruction) : Prop where
  same : j = { i with uid := j.uid }
  uid : 0 ≤ i.uid ∧ j.uid = i.uid ∨ i.uid < 0 ∧ next ≤ j.uid

/-- Numbering gives every instruction a uid of its own. The induction is on the code, with uids
    given out above all that are there. -/
theorem numberFrom_spec {next : Int} {code : List Instruction} (hnext : 0 ≤ next)
    (hbelow : ∀ ins ∈ code, ins.uid < next)
    (hnodup : ((code.map (·.uid)).filter (0 ≤ ·)).Nodup) :
    List.Forall₂ (NumberedFrom next) code (Method.numberFrom next code)
      ∧ ((Method.numberFrom next code).map (·.uid)).Nodup := by
  induction code generalizing next with
  | nil => exact ⟨.nil, List.nodup_nil⟩
  | cons ins code ih =>
    obtain ⟨hfirst, hrest⟩ := List.forall_mem_cons.mp hbelow
    unfold Method.numberFrom
    split
    · rename_i hneg
      have hfilter : ((ins :: code).map (·.uid)).filter (0 ≤ ·)
          = (code.map (·.uid)).filter (0 ≤ ·) := by
        rw [List.map_cons, List.filter_cons_of_neg (by simpa using hneg)]
      have hnext' : 0 ≤ next + 1 := by omega
      obtain ⟨hall, hdistinct⟩ := ih hnext'
        (fun i hi => (hrest i hi).trans (by omega)) (hfilter ▸ hnodup)
      refine ⟨.cons ⟨rfl, Or.inr ⟨hneg, Int.le_refl next⟩⟩ (hall.imp fun i j hij => ?_), ?_⟩
      · exact ⟨hij.same, hij.uid.imp_right fun h => ⟨h.1, by omega⟩⟩
      · refine List.nodup_cons.mpr ⟨fun hmem => ?_, hdistinct⟩
        obtain ⟨j, hj, huid⟩ := List.mem_map.mp hmem
        obtain ⟨i, hi, hij⟩ := exists_of_forall₂ hall hj
        have hi' := hrest i hi
        change j.uid = next at huid
        rcases hij.uid with ⟨-, h⟩ | ⟨-, h⟩ <;> omega
    · rename_i hpos
      have hpos : 0 ≤ ins.uid := by omega
      rw [List.map_cons, List.filter_cons_of_pos (by simpa using hpos), List.nodup_cons] at hnodup
      obtain ⟨hall, hdistinct⟩ := ih hnext hrest hnodup.2
      refine ⟨.cons ⟨rfl, Or.inl ⟨hpos, rfl⟩⟩ hall, ?_⟩
      refine List.nodup_cons.mpr ⟨fun hmem => ?_, hdistinct⟩
      obtain ⟨j, hj, huid⟩ := List.mem_map.mp hmem
      obtain ⟨i, hi, hij⟩ := exists_of_forall₂ hall hj
      change j.uid = ins.uid at huid
      rcases hij.uid with ⟨hi', h⟩ | ⟨-, h⟩
      · refine hnodup.1 (List.mem_filter.mpr ⟨?_, by simpa using hpos⟩)
        exact List.mem_map.mpr ⟨i, hi, h.symm.trans huid⟩
      · omega

/-- Numbering leaves code alone in which every instruction has a uid. -/
theorem numberFrom_of_nonneg {code : List Instruction} (h : ∀ ins ∈ code, 0 ≤ ins.uid)
    (next : Int) : Method.numberFrom next code = code := by
  induction code with
  | nil => rfl
  | cons ins code ih =>
    obtain ⟨hfirst, hrest⟩ := List.forall_mem_cons.mp h
    rw [Method.numberFrom, if_neg (by omega), ih hrest]

/-! ## Methods -/

/-- The entries of a record say what a method is, before its instructions are numbered. -/
structure TellsMethod (entries : List (String × Value)) (m : Method) : Prop where
  code : ∃ items, (field entries "instructions").items = .ok items
    ∧ items.mapM readInstruction = .ok m.code
  distinct : ((m.code.map (·.uid)).filter (0 ≤ ·)).Nodup
  regions : ∃ items, ((entries.lookup "regions").getD (.list [])).items = .ok items
    ∧ items.mapM readRegion = .ok m.regions
  locals : ((entries.lookup "locals").getD (.list [])).items = .ok m.locals
  name : m.name = (entries.lookup "name").getD (.str "<method>")

/-- When a method is read. -/
theorem readMethod_eq_ok {data : Value} {m : Method} :
    readMethod data = .ok m ↔ ∃ entries m₀, data = .dict entries
      ∧ mentionsInstructions data = .ok true ∧ TellsMethod entries m₀ ∧ m = m₀.numbered := by
  unfold readMethod
  constructor
  · intro h
    obtain ⟨mentioned, hmentioned, h⟩ := bind_eq_ok.mp h
    dsimp only at h
    split at h
    · cases h
    rename_i hsome
    rw [Bool.not_eq_true', Bool.not_eq_false] at hsome
    subst hsome
    cases data with
    | dict entries =>
      obtain ⟨items, hitems, h⟩ := bind_eq_ok.mp h
      obtain ⟨code, hcode, h⟩ := bind_eq_ok.mp h
      split at h
      · cases h
      rename_i hdistinct
      obtain ⟨regionItems, hregionItems, h⟩ := bind_eq_ok.mp h
      obtain ⟨regions, hregions, h⟩ := bind_eq_ok.mp h
      obtain ⟨locals, hlocals, h⟩ := bind_eq_ok.mp h
      exact ⟨entries, { code, regions, locals, name := _ }, rfl, Graph.lift_eq_ok.mp hmentioned,
        ⟨⟨items, Graph.lift_eq_ok.mp hitems, hcode⟩,
          hasRepeats_eq_false.mp (Bool.eq_false_iff.mpr hdistinct),
          ⟨regionItems, Graph.lift_eq_ok.mp hregionItems, hregions⟩, Graph.lift_eq_ok.mp hlocals,
          rfl⟩, (Except.ok.inj h).symm⟩
    | _ => cases h
  · rintro ⟨entries, m₀, rfl, hmentioned, h, rfl⟩
    obtain ⟨items, hitems, hcode⟩ := h.code
    obtain ⟨regionItems, hregionItems, hregions⟩ := h.regions
    refine bind_eq_ok.mpr ⟨true, Graph.lift_eq_ok.mpr hmentioned, ?_⟩
    rw [if_neg (by decide)]
    refine bind_eq_ok.mpr ⟨items, Graph.lift_eq_ok.mpr hitems, bind_eq_ok.mpr ⟨_, hcode, ?_⟩⟩
    dsimp only
    rw [if_neg (Bool.eq_false_iff.mp (hasRepeats_eq_false.mpr h.distinct))]
    refine bind_eq_ok.mpr ⟨regionItems, Graph.lift_eq_ok.mpr hregionItems, bind_eq_ok.mpr
      ⟨_, hregions, bind_eq_ok.mpr ⟨_, Graph.lift_eq_ok.mpr h.locals, ?_⟩⟩⟩
    rw [← h.name]
    rfl

/-- The instructions of a method that is read are numbered. -/
theorem TellsMethod.numbered {entries : List (String × Value)} {m : Method}
    (h : TellsMethod entries m) :
    List.Forall₂ (NumberedFrom (Method.freshUid m.code)) m.code m.numbered.code
      ∧ (m.numbered.code.map (·.uid)).Nodup :=
  numberFrom_spec (freshUid_nonneg m.code) (fun _ hins => Graph.lt_freshUid hins) h.distinct

/-- What is written of a method is read as that method, if its instructions have uids of their own
    and documents tell all of them. -/
theorem readMethod_method {m : Method} (hcode : ∀ ins ∈ m.code, Told ins)
    (huids : ∀ ins ∈ m.code, 0 ≤ ins.uid) (hnodup : (m.code.map (·.uid)).Nodup) :
    readMethod (method m) = .ok m := by
  have hinstructions : (m.code.map instruction).mapM readInstruction = .ok m.code :=
    mapM_eq_ok.mpr (List.forall₂_map_left_iff.mpr (List.forall₂_same.mpr fun ins hins =>
      readInstruction_instruction (hcode ins hins)))
  have hregions : (m.regions.map region).mapM readRegion = .ok m.regions :=
    mapM_eq_ok.mpr (List.forall₂_map_left_iff.mpr (List.forall₂_same.mpr fun r _ =>
      readRegion_region r))
  refine readMethod_eq_ok.mpr ⟨_, m, rfl, rfl, ?_, ?_⟩
  · exact ⟨⟨_, rfl, hinstructions⟩, hnodup.filter _, ⟨_, rfl, hregions⟩, rfl, rfl⟩
  · unfold Method.numbered
    rw [numberFrom_of_nonneg huids]

/-- Documents are faithful. Every instruction that is read has a uid that is no negative number and
    its own, and it is the one that the document gives, if it gives such a uid. What is read is
    encoded as a document that is read as the same method, and encoded as the same document. -/
theorem readMethod_faithful {data : Value} {m : Method} (hdata : data.isDocument = true)
    (h : readMethod data = .ok m) :
    (∀ ins ∈ m.code, 0 ≤ ins.uid) ∧ (m.code.map (·.uid)).Nodup
      ∧ (∃ items, ((data.get? "instructions").getD .null).items = .ok items
        ∧ List.Forall₂ (fun item ins => ∀ v uid, item.get? "uid" = some v →
            uidNumber v = .ok uid → 0 ≤ uid → ins.uid = uid) items m.code)
      ∧ readMethod (method m) = .ok m
      ∧ (readMethod (method m)).map method = .ok (method m) := by
  obtain ⟨entries, m₀, rfl, -, htells, rfl⟩ := readMethod_eq_ok.mp h
  obtain ⟨items, hitems, hcode⟩ := htells.code
  have hread := mapM_eq_ok.mp hcode
  obtain ⟨hnumbered, hnodup⟩ := htells.numbered
  have huids : ∀ ins ∈ m₀.numbered.code, 0 ≤ ins.uid := by
    intro ins hins
    obtain ⟨i, -, hi⟩ := exists_of_forall₂ hnumbered hins
    have hfresh := freshUid_nonneg m₀.code
    rcases hi.uid with ⟨hpos, heq⟩ | ⟨-, hle⟩
    · exact heq ▸ hpos
    · exact hfresh.trans hle
  have htold : ∀ ins ∈ m₀.numbered.code, Told ins := by
    intro ins hins
    obtain ⟨i, hi, hsame⟩ := exists_of_forall₂ hnumbered hins
    obtain ⟨item, hitem, hfrom⟩ := exists_of_forall₂ hread hi
    have hdocument := Value.isDocument_of_items (isDocument_field hdata _) hitems item hitem
    have htold := told_of_read hdocument hfrom
    rw [hsame.same]
    exact ⟨htold.operation, htold.dispatch, htold.plain⟩
  have hkept : List.Forall₂ (fun item ins => ∀ v uid, item.get? "uid" = some v →
      uidNumber v = .ok uid → 0 ≤ uid → ins.uid = uid) items m₀.numbered.code := by
    refine (forall₂_comp hread hnumbered).imp ?_
    rintro item ins ⟨i, hfrom, hi⟩ v uid hgiven huid hpos
    obtain ⟨parts, rfl, htold⟩ := readInstruction_eq_ok.mp hfrom
    have hsame : i.uid = uid := by
      have hread := htold.uid
      rw [show parts.lookup "uid" = some v from hgiven, Option.getD_some, huid] at hread
      exact (Except.ok.inj hread).symm
    rcases hi.uid with ⟨-, heq⟩ | ⟨hneg, -⟩
    · exact heq.trans hsame
    · omega
  have hagain := readMethod_method htold huids hnodup
  exact ⟨huids, hnodup, ⟨items, hitems, hkept⟩, hagain, by rw [hagain]; rfl⟩

/-- A dispatch without a uid, a stop whose uid is a text, and an instruction of no opcode with a list
    for an operand and a uid that is no number of an instruction. -/
def mixedUids : Value :=
  .dict [
    ("name", .null),
    ("instructions", .list [
      .dict [("op", .str "SWITCH"), ("operand", .list [.int 7, .bool true])],
      .dict [("uid", .str " 7 "), ("op", .str "opaque"), ("mnemonic", .str "ret"),
        ("stack_effect", .list [])],
      .dict [("uid", .int (-3)), ("op", .null), ("operand", .list [.null])]]),
    ("regions", .list [.dict [("kind", .str "fault"), ("try_start", .int 7)]])]

theorem mixedUids_faithful : ∃ m, mixedUids.isDocument = true ∧ readMethod mixedUids = .ok m
    ∧ m.code.map (·.uid) = [8, 7, 9]
    ∧ (∀ ins ∈ m.code, 0 ≤ ins.uid) ∧ (m.code.map (·.uid)).Nodup
    ∧ (∃ items, ((mixedUids.get? "instructions").getD .null).items = .ok items
      ∧ List.Forall₂ (fun item ins => ∀ v uid, item.get? "uid" = some v →
          uidNumber v = .ok uid → 0 ≤ uid → ins.uid = uid) items m.code)
    ∧ readMethod (method m) = .ok m
    ∧ (readMethod (method m)).map method = .ok (method m) := by
  obtain ⟨m, hread, huids⟩ := exists_ok_of_any (x := readMethod mixedUids)
    (p := fun m => m.code.map (·.uid) == [8, 7, 9]) (by decide)
  exact ⟨m, by decide, hread, eq_of_beq huids, readMethod_faithful (by decide) hread⟩

end Encoding

end Untangle
