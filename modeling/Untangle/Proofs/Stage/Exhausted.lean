/-
  Untangle.Proofs.Stage.Exhausted

  Folding once folds all there is. The view that the folder ends with is the code that it
  leaves: what is marked as a constant there is a push of it. An instruction that did not fold
  stays in view, and nothing below it is touched afterwards, so that the same stands in front
  of it at the end. When the code is looked at again, each instruction in view therefore meets
  the view it was left with (`Folder.Settled`), and comes to the same.
-/
import Untangle.Proofs.Pipeline.Work
import Untangle.Proofs.Stage.Foreseen
import Untangle.Proofs.Stage.Total
import Untangle.Proofs.Stage.Underway

namespace Untangle

/-! ## The view as code -/

namespace FoldEntry

/-- The instruction of an entry as it will stand: what has a constant is a push of it. -/
def standing (entry : FoldEntry) : Instruction :=
  match entry.constant with
  | some c =>
    if entry.ins.opcode = some .pushConst then entry.ins
    else entry.ins.become .pushConst (.value c)
  | none => entry.ins

/-- The entry for the instruction as it stands. A constant that is no integer is not marked. -/
def again (entry : FoldEntry) : FoldEntry where
  ins := entry.standing
  constant := (entry.constant.bind Value.integer?).map .int

theorem standing_of_push {ins : Instruction} {c : Value} (hop : ins.opcode = some .pushConst) :
    standing ⟨ins, some c⟩ = ins := if_pos hop

theorem standing_of_made {ins : Instruction} {c : Value} (hop : ins.opcode ≠ some .pushConst) :
    standing ⟨ins, some c⟩ = ins.become .pushConst (.value c) := if_neg hop

theorem again_constant {entry : FoldEntry} {c : Value} (h : entry.again.constant = some c) :
    entry.constant = some c := by
  obtain ⟨k, hk, rfl⟩ := Option.map_eq_some_iff.mp h
  obtain ⟨v, hv, hint⟩ := Option.bind_eq_some_iff.mp hk
  cases v with
  | int n => cases hint; exact hv
  | _ => cases hint

/-- Constants that are marked again were marked before. -/
theorem mapM_again {entries : List FoldEntry} {vs : List Value}
    (h : (entries.map again).mapM (·.constant) = some vs) :
    entries.mapM (·.constant) = some vs := by
  induction entries generalizing vs with
  | nil => exact h
  | cons entry entries ih =>
    rw [List.map_cons, List.mapM_cons] at h
    obtain ⟨v, hv, h⟩ := Option.bind_eq_some_iff.mp h
    obtain ⟨rest, hrest, h⟩ := Option.bind_eq_some_iff.mp h
    rw [List.mapM_cons, again_constant hv, ih hrest]
    exact h

end FoldEntry

namespace Folding

variable {machine : Machine} {b : Block} {done : List Instruction} {f f' : Folding}
  {ins : Instruction}

/-- What the edits queued so far make of the instructions in view is how they will stand. -/
def Stands (f : Folding) : Prop :=
  ∀ entry ∈ f.view, Edit.turned f.edits entry.ins = entry.standing

open Tracks in
/-- One more instruction comes into view as its own edits make it; those below it stay. -/
theorem Stands.grow (hstands : f.Stands) (h : Tracks machine b done f)
    (hnew : ∀ i ∈ done, i.uid ≠ ins.uid) {top rest : List FoldEntry} {more : List Edit}
    {constant : Option Value} (hview : f.view = top ++ rest) (hmore : Grows b top ins more)
    (hedits : f'.edits = f.edits ++ more) (hview' : f'.view = ⟨ins, constant⟩ :: rest)
    (hturned : Edit.turned more ins = FoldEntry.standing ⟨ins, constant⟩) : f'.Stands := by
  intro entry hentry
  rw [hedits]
  rw [hview'] at hentry
  rcases List.mem_cons.mp hentry with rfl | hentry
  · rw [Edit.turned_append_of_not_named (h.not_named hnew)]
    exact hturned
  · have hold : entry ∈ f.view := hview ▸ List.mem_append_right _ hentry
    rw [hmore.turned_earlier f.edits (hnew _ (h.mem_done hold))]
    exact hstands entry hold

open Tracks in
theorem Stands.step {folder : Folder} (hstands : f.Stands) (h : Tracks folder.machine b done f)
    (hnew : ∀ i ∈ done, i.uid ≠ ins.uid) : (folder.step b f ins).Stands := by
  rcases folder.step_cases b f ins with ⟨events, constant, hevents, hconstant, hstep⟩
    | ⟨type, size, hop, -, hstep⟩ | ⟨op, vs, n, hfolds, hstep⟩
  · rw [hstep]
    have hedits : ((f.report events).see ins constant).edits = f.edits ++ [] := by
      rw [List.append_nil]
      exact edits_report_of_none hevents
    refine hstands.grow h hnew (List.nil_append f.view).symm (.nothing b ins) hedits rfl ?_
    cases constant with
    | none => rfl
    | some c => exact (FoldEntry.standing_of_push (hconstant c rfl).1).symm
  · rw [hstep]
    refine hstands.grow h hnew (List.nil_append f.view).symm (grows_size hop size _)
      (edits_report_queue f [] [_] nofun) rfl ?_
    rw [turned_constant, FoldEntry.standing_of_made (by rw [hop]; decide)]
  · rw [hstep]
    refine hstands.grow h hnew (List.take_append_drop op.arity f.view).symm
      (grows_operation hfolds.opcode n _ _)
      (edits_report_queue _ [.consult] _ (by simp [FoldEvent.edit?])) rfl ?_
    rw [turned_operation, FoldEntry.standing_of_made (by rw [hfolds.opcode]; decide)]

end Folding

namespace Folder

variable {folder other : Folder} {b b' : Block} {f g : Folding} {ins : Instruction}

/-- The code of a folded block is the view that the folder ends with. -/
theorem code_of_view (folder : Folder) (hnodup : (b.code.map (·.uid)).Nodup)
    (number : Int → Int) :
    b.code.flatMap (Edit.outcome (folder.edits b) number)
      = (folder.foldBlock b).view.reverse.map FoldEntry.standing := by
  have hstands : (folder.foldBlock b).Stands := by
    unfold foldBlock
    generalize b.code = code at hnodup
    induction code using List.reverseRecOn with
    | nil => exact fun entry hentry => absurd hentry List.not_mem_nil
    | append_singleton code ins ih =>
      rw [List.map_append, List.nodup_append] at hnodup
      obtain ⟨hcode, -, hapart⟩ := hnodup
      rw [List.foldl_append]
      exact (ih hcode).step (folder.tracks_foldl b hcode) fun i hi =>
        hapart _ (List.mem_map_of_mem hi) _ (List.mem_singleton_self _)
  refine ((folder.foldBlock_tracks hnodup).code number).trans
    (List.map_congr_left fun entry hentry => ?_)
  exact hstands entry (List.mem_reverse.mp hentry)

/-! ## Looking at the code again -/

/-- Two folders that go by the same, facts apart. -/
structure Agrees (folder other : Folder) : Prop where
  machine : other.machine = folder.machine
  sizeQueries : other.sizeQueries = folder.sizeQueries
  arithmetic : other.arithmetic = folder.arithmetic

/-- An instruction comes into view without being folded, with a constant or none, and at most
    leaves messages. -/
def Leaves (folder : Folder) (b : Block) (f : Folding) (ins : Instruction)
    (constant : Option Value) : Prop :=
  ∃ notes : List String,
    folder.step b f ins = (f.report (notes.map .note)).see ins constant

/-- Looked at again over the entries below it, an instruction in view comes to the same. -/
def Rests (folder : Folder) (b : Block) (below : List FoldEntry) (entry : FoldEntry) : Prop :=
  ∀ f : Folding, f.view = below.map FoldEntry.again →
    folder.Leaves b f entry.standing entry.again.constant

/-- Looked at again, all instructions in view come to the same. -/
def Settled (folder : Folder) (b : Block) : List FoldEntry → Prop
  | [] => True
  | entry :: below => folder.Settled b below ∧ folder.Rests b below entry

theorem Settled.below {top rest : List FoldEntry} (h : folder.Settled b (top ++ rest)) :
    folder.Settled b rest := by
  induction top with
  | nil => exact h
  | cons entry top ih => exact ih h.1

/-- Looking at a settled view again folds nothing and leaves messages only. -/
theorem Settled.foldl {view : List FoldEntry} (h : folder.Settled b view) :
    ∃ notes : List String, (view.reverse.map FoldEntry.standing).foldl (folder.step b) {}
      = { view := view.map FoldEntry.again, events := notes.map .note, count := 0 } := by
  induction view with
  | nil => exact ⟨[], rfl⟩
  | cons entry below ih =>
    obtain ⟨hbelow, hrests⟩ := h
    obtain ⟨notes, hfirst⟩ := ih hbelow
    obtain ⟨more, hstep⟩ := hrests
      { view := below.map FoldEntry.again, events := notes.map .note, count := 0 } rfl
    refine ⟨notes ++ more, ?_⟩
    rw [List.reverse_cons, List.map_append, List.foldl_append, hfirst, List.map_singleton,
      List.foldl_cons, hstep, List.map_append]
    rfl

/-- A push of a constant is left, and is marked if the constant is an integer. -/
theorem leaves_push (folder : Folder) (b : Block) (f : Folding) {c : Value}
    (hop : ins.opcode = some .pushConst) (hoperand : ins.operand = .value c) :
    folder.Leaves b f ins ((c.integer?).map .int) := by
  refine ⟨[], ?_⟩
  rw [List.map_nil, Folding.report_nil]
  unfold step
  rw [hop, hoperand]
  cases c <;> rfl

/-- So is what has become a push. -/
theorem rests_constant (folder : Folder) (b : Block) (below : List FoldEntry) {c : Value}
    (h : ins.opcode = some .pushConst → ins.operand = .value c) :
    folder.Rests b below ⟨ins, some c⟩ := by
  intro f _
  by_cases hop : ins.opcode = some .pushConst
  · show folder.Leaves b f (FoldEntry.standing _) ((c.integer?).map .int)
    rw [FoldEntry.standing_of_push hop]
    exact folder.leaves_push b f hop (h hop)
  · show folder.Leaves b f (FoldEntry.standing _) ((c.integer?).map .int)
    rw [FoldEntry.standing_of_made hop]
    exact folder.leaves_push b f rfl rfl

/-- An operation that had no result over the view has none over what is marked of it again. -/
theorem arithmeticResult_again (hsame : folder.Agrees other)
    (hview : g.view = f.view.map FoldEntry.again) {op : ArithOp}
    (hop : ins.opcode = some .arith) (hoperand : ins.operand = .operation op)
    (hsound : ∀ event ∈ (folder.arithmeticResult f ins op).2, event.IsSound)
    (hopen : ∀ vs n, ¬ folder.Finds f ins op vs n) :
    ∃ notes : List String, other.arithmeticResult g ins op = (none, notes.map .note) := by
  have hoperands : (g.view.take op.arity).reverse
      = ((f.view.take op.arity).reverse).map FoldEntry.again := by
    rw [hview, ← List.map_take, List.map_reverse]
  have hlength : g.view.length = f.view.length := by rw [hview, List.length_map]
  unfold arithmeticResult at hsound ⊢
  simp only [hoperands, hlength, hsame.machine]
  split
  · exact ⟨[], rfl⟩
  · rename_i vs hvs
    have hconstants := FoldEntry.mapM_again hvs
    simp only [hconstants] at hsound
    split
    · exact ⟨[], rfl⟩
    · rename_i hlong
      rw [if_neg hlong] at hsound
      split
      · -- The first time this would have been a fault.
        rename_i m hresult
        rw [hresult] at hsound
        exact absurd rfl (hsound (.fault m) (by simp) m)
      · exact ⟨[_], rfl⟩
      · exact ⟨[], rfl⟩
      · rename_i n hresult
        exact absurd ⟨hop, hoperand, hconstants, by omega, hresult⟩ (hopen vs n)

theorem sizeOf?_of_agrees (hsame : folder.Agrees other) (ins : Instruction) :
    (if other.sizeQueries then other.sizeOf? ins else none)
      = if folder.sizeQueries then folder.sizeOf? ins else none := by
  unfold sizeOf?
  rw [hsame.machine, hsame.sizeQueries]

/-- What was not folded is not folded again. -/
theorem rests_other (hsame : folder.Agrees other) (b' : Block)
    (hleft : (folder.step b f ins).view = ⟨ins, none⟩ :: f.view)
    (hsound : ∀ event ∈ (folder.step b f ins).events, event.IsSound)
    (hproven : ∀ op vs n, folder.Finds f ins op vs n → folder.facts.knownInt? ins.uid = some n) :
    other.Rests b' f.view ⟨ins, none⟩ := by
  intro g hview
  show other.Leaves b' g ins none
  have hseen : ∃ notes : List String,
      g.see ins none = (g.report (notes.map .note)).see ins none :=
    ⟨[], by rw [List.map_nil, Folding.report_nil]⟩
  unfold step at hleft hsound
  unfold Leaves step
  split
  · -- A push of an integer is marked.
    rename_i hop hoperand
    rw [hop, hoperand] at hleft
    simp [Folding.see] at hleft
  · rename_i hop
    simp only [hop] at hleft
    rw [sizeOf?_of_agrees hsame]
    split
    · -- A size in the table is marked.
      rename_i hsize
      rw [hsize] at hleft
      simp [foldSize, Folding.see] at hleft
    · exact ⟨[_], rfl⟩
  · rename_i op hop hoperand
    simp only [hop, hoperand] at hleft hsound
    rw [hsame.arithmetic]
    by_cases hon : folder.arithmetic = true
    · rw [if_pos hon] at hleft hsound ⊢
      unfold foldArithmetic at hleft hsound ⊢
      have hopen : ∀ vs n, ¬ folder.Finds f ins op vs n := by
        intro vs n hfinds
        rw [hfinds.arithmeticResult_eq (hproven op vs n hfinds)] at hleft
        simp [Folding.see] at hleft
      have hquiet : ∀ event ∈ (folder.arithmeticResult f ins op).2, event.IsSound := by
        intro event hevent
        apply hsound
        generalize folder.arithmeticResult f ins op = found at hevent
        obtain ⟨result, events⟩ := found
        cases result with
        | none => exact List.mem_append_right _ hevent
        | some n => exact List.mem_append_right _ (List.mem_append_left _ hevent)
      obtain ⟨notes, hresult⟩ :=
        arithmeticResult_again hsame hview hop hoperand hquiet hopen
      exact ⟨notes, by rw [hresult]⟩
    · rw [if_neg hon]
      exact hseen
  · rename_i v hop hoperand
    simp only [hop, hoperand] at hsound
    rw [hsame.arithmetic]
    by_cases hon : folder.arithmetic = true
    · -- The first time this would have been a fault.
      rw [if_pos hon] at hsound
      exact absurd rfl (hsound (.fault .noSuchPart) (by simp [Folding.see, Folding.report]) _)
    · rw [if_neg hon]
      exact hseen
  · exact hseen

/-! ## What a folded block leaves -/

theorem step_events (folder : Folder) (b : Block) (f : Folding) (ins : Instruction) :
    f.events ⊆ (folder.step b f ins).events := by
  rcases folder.step_cases b f ins with ⟨events, constant, -, -, hstep⟩
    | ⟨type, size, -, -, hstep⟩ | ⟨op, vs, n, -, hstep⟩
  all_goals
    rw [hstep]
    exact List.subset_append_left _ _

/-- One more instruction leaves a view that is settled. -/
theorem settled_step (hsame : folder.Agrees other) (b' : Block)
    (hsettled : other.Settled b' f.view)
    (hsound : ∀ event ∈ (folder.step b f ins).events, event.IsSound)
    (hproven : ∀ op vs n, folder.Finds f ins op vs n → folder.facts.knownInt? ins.uid = some n) :
    other.Settled b' (folder.step b f ins).view := by
  rcases folder.step_cases b f ins with ⟨events, constant, -, hconstant, hstep⟩
    | ⟨type, size, hop, -, hstep⟩ | ⟨op, vs, n, hfolds, hstep⟩
  · have hview : (folder.step b f ins).view = ⟨ins, constant⟩ :: f.view := by rw [hstep]; rfl
    rw [hview]
    refine ⟨hsettled, ?_⟩
    cases constant with
    | none => exact rests_other hsame b' hview hsound hproven
    | some c => exact rests_constant other b' f.view fun _ => (hconstant c rfl).2
  · rw [hstep]
    exact ⟨hsettled, rests_constant other b' f.view fun h => by rw [hop] at h; cases h⟩
  · rw [hstep]
    have hbelow : other.Settled b' (f.view.drop op.arity) := by
      rw [← List.take_append_drop op.arity f.view] at hsettled
      exact hsettled.below
    exact ⟨hbelow, rests_constant other b' _ fun h => by rw [hfolds.opcode] at h; cases h⟩

/-- So a folded block is settled, if nothing went wrong and all that was found was proven. -/
theorem settled_foldl (hsame : folder.Agrees other) (b b' : Block) {code : List Instruction}
    (hsound : ∀ event ∈ (code.foldl (folder.step b) {}).events, event.IsSound)
    (hproven : ∀ front ins back, code = front ++ ins :: back → ∀ op vs n,
      folder.Finds (front.foldl (folder.step b) {}) ins op vs n →
        folder.facts.knownInt? ins.uid = some n) :
    other.Settled b' (code.foldl (folder.step b) {}).view := by
  induction code using List.reverseRecOn with
  | nil => trivial
  | append_singleton code ins ih =>
    rw [List.foldl_append] at hsound ⊢
    refine settled_step hsame b' (ih (fun event hevent => ?_) fun front i back hsplit => ?_) hsound
      (hproven code ins [] rfl)
    · exact hsound event (folder.step_events b _ ins hevent)
    · exact hproven front i (back ++ [ins]) (by rw [hsplit]; simp)

end Folder

/-! ## The stage -/

namespace Stage

variable {s : Stage} {w w' : Workbench} {n : Nat}

/-- What has succeeded met no fault. -/
theorem sound_of_foldEvents {events : List FoldEvent} {edits : List (List Edit)}
    (h : (events.mapM foldEvent).run w = .ok edits w') : ∀ event ∈ events, event.IsSound := by
  induction events generalizing w w' edits with
  | nil => exact nofun
  | cons event events ih =>
    rw [List.mapM_cons] at h
    obtain ⟨first, w₁, hfirst, h⟩ := Work.bind_eq_ok.mp h
    obtain ⟨others, w₂, hothers, -⟩ := Work.bind_eq_ok.mp h
    refine List.forall_mem_cons.mpr ⟨?_, ih hothers⟩
    rintro m rfl
    exact Work.throw_ne_ok hfirst

/-- When folding succeeds no block has met a fault. -/
theorem sound_of_foldConstants (hrun : s.foldConstants.run w = .ok n w') {b : Block}
    (hb : b ∈ w.graph.blocks) :
    ∀ event ∈ ((s.folder w).foldBlock b).events, event.IsSound := by
  unfold foldConstants at hrun
  rw [Work.get_bind] at hrun
  obtain ⟨edits, w₁, hevents, -⟩ := Work.bind_eq_ok.mp hrun
  intro event hevent
  refine sound_of_foldEvents hevents event ?_
  rw [List.flatMap_map]
  exact List.mem_flatMap.mpr ⟨b, hb, hevent⟩

/-- Where blocks leave nothing but messages, the stage folds nothing. -/
theorem foldConstants_idle (h : ∀ b ∈ w.graph.blocks, ∃ (view : List FoldEntry)
      (notes : List String), (s.folder w).foldBlock b = ⟨view, notes.map .note, 0⟩) :
    ∃ w', s.foldConstants.run w = .ok 0 w' ∧ w.Alike w' := by
  have hnotes : ∀ event ∈ (w.graph.blocks.map (s.folder w).foldBlock).flatMap (·.events),
      Work.Says (foldEvent event) [] := by
    rw [List.flatMap_map]
    intro event hevent
    obtain ⟨b, hb, hevent⟩ := List.mem_flatMap.mp hevent
    obtain ⟨view, notes, heq⟩ := h b hb
    rw [heq] at hevent
    obtain ⟨text, -, rfl⟩ := List.mem_map.mp hevent
    exact (Work.says_log _ _ _).bind (Work.says_pure _)
  have hcount : (s.folder w).count w.graph = 0 := Folder.count_eq_zero.mpr fun b hb => by
    obtain ⟨view, notes, heq⟩ := h b hb
    rw [heq]
  obtain ⟨edits, hsays⟩ := Work.says_mapM fun event hevent => ⟨_, hnotes event hevent⟩
  obtain ⟨w₁, hevents, halike⟩ := hsays w
  refine ⟨w₁, ?_, halike⟩
  unfold foldConstants
  rw [Work.get_bind]
  refine (Work.bind_of_ok hevents).trans ?_
  change EStateM.run (do
    if 0 < (s.folder w).count w.graph then
      let _ ← Work.applyEdits edits.flatten
      Work.log "CFEX.pass.fold" Level.info
        ("Folded " ++ toString ((s.folder w).count w.graph) ++ " constant computation(s)")
    return (s.folder w).count w.graph) w₁ = _
  rw [hcount]
  rfl

/-- On every graph on the way to a replacement, with facts that are those of the graph: after
    folding, the code of each block is the view that the folder ended with; and the same folder,
    with whatever facts it is given then, folds nothing more. -/
theorem foldConstants_exhaustive {m : Method} {terminators : List Value} (s : Stage)
    (huids : (m.code.map (·.uid)).Nodup) (h : w.graph.Arrives m terminators)
    (hinformed : w.Informed) (hrun : s.foldConstants.run w = .ok n w') :
    List.Forall₂ (fun b b' : Block => b'.label = b.label
        ∧ b'.code = ((s.folder w).foldBlock b).view.reverse.map FoldEntry.standing)
      w.graph.blocks w'.graph.blocks
    ∧ ∀ w₁ : Workbench, w₁.graph = w'.graph → w₁.analysis = w'.analysis →
      ∃ w₂, s.foldConstants.run w₁ = .ok 0 w₂ ∧ w₂.graph = w₁.graph := by
  have hsturdy := h.sturdy huids
  have hwithin : ∀ b ∈ w.graph.blocks, ∀ e ∈ (s.folder w).edits b, e.Within b := fun b hb =>
    (s.folder w).edits_within (hsturdy.block_uids_nodup hb)
  have hlasts : ((s.folder w).folded w.graph).checkLasts = .ok () :=
    Graph.checkLasts_of_code (Graph.edited_checkTargets hsturdy.toNumbered hwithin
      (fun b hb ins hins => (s.folder w).gentle (hsturdy.block_uids_nodup hb) hins)
      hsturdy.followed)
  obtain ⟨-, hgraph, hanalysis, -⟩ := foldConstants_within hsturdy.toNumbered hlasts hrun
  obtain ⟨-, number, -, hedited⟩ := Graph.edited_blocks hsturdy.toNumbered hwithin
  have hblocks : List.Forall₂ (fun b b' : Block => b ∈ w.graph.blocks ∧ b'.label = b.label
      ∧ b'.code = ((s.folder w).foldBlock b).view.reverse.map FoldEntry.standing)
      w.graph.blocks w'.graph.blocks := by
    rw [hgraph]
    refine (forall₂_mem hedited).imp ?_
    rintro b b' ⟨hb, -, hlabel, hcode⟩
    exact ⟨hb, hlabel,
      hcode.trans ((s.folder w).code_of_view (hsturdy.block_uids_nodup hb) number)⟩
  refine ⟨hblocks.imp fun _ _ hb => hb.2, fun w₁ hgraph₁ hanalysis₁ => ?_⟩
  have hsame : (s.folder w).Agrees (s.folder w₁) :=
    ⟨congrArg Analysis.machine (hanalysis₁.trans hanalysis), rfl, rfl⟩
  obtain ⟨w₂, hagain, halike⟩ := foldConstants_idle (s := s) (w := w₁) fun b' hb' => by
    obtain ⟨b, -, hb, -, hcode⟩ := exists_of_forall₂ hblocks (hgraph₁ ▸ hb')
    have hsettled := Folder.settled_foldl hsame b b' (sound_of_foldConstants hrun hb)
      fun front ins back hsplit op vs k hfinds => by
        rw [s.folder_facts hinformed]
        exact w.analysis.knownInt?_of_finds hsturdy.uids_nodup rfl hb hsplit hfinds
    obtain ⟨notes, hfold⟩ := hsettled.foldl
    refine ⟨((s.folder w).foldBlock b).view.map FoldEntry.again, notes, ?_⟩
    rw [Folder.foldBlock, hcode]
    exact hfold
  exact ⟨w₂, hagain, halike.graph⟩

/-- Two and the product of three and four, added and stored. -/
def nested : Method where
  code :=
    [{ opcode := some .pushConst, operand := .value (.int 2), uid := 0 },
     { opcode := some .pushConst, operand := .value (.int 3), uid := 1 },
     { opcode := some .pushConst, operand := .value (.int 4), uid := 2 },
     { opcode := some .arith, operand := .operation .mul, uid := 3 },
     { opcode := some .arith, operand := .operation .add, uid := 4 },
     { opcode := some .storeLocal, operand := .value (.str "a"), uid := 5 },
     { opcode := some .other, uid := 6, mnemonic := .str "ret" }]

/-- Its one block. -/
def nestedGraph : Graph where
  blocks := [{ label := 0, code := nested.code, isEntry := true }]
  terminators := Graph.usualTerminators
  fresh := 7

/-- A folder with its usual options. -/
def usualFolder : Stage := { kind := .constantFolder }

theorem foldConstants_exhaustive_nested : ∃ w',
    usualFolder.foldConstants.run { graph := nestedGraph, analysis := {} } = .ok 2 w'
      ∧ ∃ w₂, usualFolder.foldConstants.run w' = .ok 0 w₂ ∧ w₂.graph = w'.graph := by
  have hbuild : Graph.build nested Graph.usualTerminators = .ok nestedGraph := rfl
  have hrun : ∃ w', usualFolder.foldConstants.run { graph := nestedGraph, analysis := {} }
      = .ok 2 w' := ⟨_, rfl⟩
  obtain ⟨w', hrun⟩ := hrun
  obtain ⟨-, hagain⟩ := foldConstants_exhaustive (m := nested) usualFolder (by decide)
    (.early (.built hbuild)) (Workbench.informed_of_none rfl) hrun
  exact ⟨w', hrun, hagain w' rfl rfl⟩

end Stage

end Untangle
