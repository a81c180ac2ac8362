/-
  Untangle.Proofs.Pipeline.Behaviour

  Normalizing keeps what a method shows (`Method.normalize_refines`). The chain of comparisons
  goes from the method to its copy, to the blocks that the copy is cut into, to the blocks that
  the stages leave, and to the method that these are written out as.
-/
import Untangle.Proofs.Graph.Covered
import Untangle.Proofs.Pipeline.Work

namespace Untangle

namespace Graph

variable {g : Graph} {m : Method}

namespace Written

theorem uids (hwritten : g.Written m) : m.code.map (·.uid) = g.code.map (·.uid) := by
  rw [hwritten.code, relinked_uids]

theorem uids_nodup (hwritten : g.Written m) (h : g.Formed) : (m.code.map (·.uid)).Nodup :=
  hwritten.uids ▸ h.uids_nodup

/-- A written instruction is one of the graph. -/
theorem mem_code (hwritten : g.Written m) {v : Value} (hv : (Method.placeOf? m.code v).isSome) :
    ∃ ins ∈ g.code, v.wholeNumber? = some ins.uid := by
  obtain ⟨j, hj, hname⟩ := Method.exists_of_placeOf? hv
  rw [hwritten.code] at hj
  obtain ⟨ins, hins, rfl⟩ := List.mem_map.mp hj
  exact ⟨ins, hins, by rw [hname, relinkInstruction_uid]⟩

/-- Every branch of the graph leads to some instruction once it is relinked. -/
theorem leads (hwritten : g.Written m) : ∀ ins ∈ g.code, ∀ t ∈ (g.relinkInstruction ins).aims,
    (Method.placeOf? (g.code.map g.relinkInstruction) t).isSome := by
  intro ins hins t ht
  have hmem : g.relinkInstruction ins ∈ m.code := by
    rw [hwritten.code]
    exact List.mem_map_of_mem hins
  obtain ⟨ts, hts, hplaces⟩ := hwritten.valid.targets _ hmem
  rw [Instruction.aims_eq hts] at ht
  rw [← hwritten.code]
  exact hplaces t ht

/-- Where blocks come first to an instruction, the method is entered there under its uid. -/
theorem enter? (hwritten : g.Written m) (h : g.Formed) {place : Outline}
    (hplace : place <:+ g.outline) {ins : Instruction}
    (hfirst : (Outline.code place).head? = some ins) {v : Value}
    (hv : v.wholeNumber? = some ins.uid) :
    Method.enter? m.code v = some ((Outline.code place).map g.relinkInstruction) := by
  obtain ⟨before, hbefore⟩ := code_of_suffix hplace
  obtain ⟨rest, hrest⟩ := List.head?_eq_some_iff.mp hfirst
  rw [hrest, List.map_cons]
  have hsplit : m.code = before.map g.relinkInstruction
      ++ g.relinkInstruction ins :: rest.map g.relinkInstruction := by
    rw [hwritten.code, hbefore, hrest, List.map_append, List.map_cons]
  refine Method.enter?_of_split (hwritten.uids_nodup h) hsplit ?_
  rw [hv, relinkInstruction_uid]

/-- The handler of each region of the method is entered where control enters the handler of
    the region of the graph. -/
theorem enter?_handler (hwritten : g.Written m) (h : g.Formed) (hheaded : g.Headed)
    {index : Nat} {s : Span} (hs : g.spans[index]? = some s) {place : Outline}
    (hplace : g.handlerPlace? index = some place) :
    ∃ r, m.regions[index]? = some r ∧ r.kind = s.region.kind
      ∧ r.catchType = s.region.catchType
      ∧ Method.enter? m.code r.handlerStart
          = some ((Outline.code place).map g.relinkInstruction) := by
  have hmem := List.mem_of_getElem? hs
  obtain ⟨l, c, rest, hhead, hl, hplace', hsuffix⟩ := h.handlerPlace?_eq hs
  rw [hplace] at hplace'
  cases hplace'
  rcases hwritten.regions with hsame | ⟨hdefects, hmoved⟩
  · -- The start of the handler is still there, and nothing has come in front of it.
    have hr : m.regions[index]? = some s.region := by
      rw [hsame, List.getElem?_map, hs]
      rfl
    obtain ⟨l', hhead', hl'⟩ := h.starts s hmem
    rw [hhead] at hhead'
    cases hhead'
    obtain ⟨a, b, c', d, hat⟩ := hwritten.valid.regions _ (List.mem_of_getElem? hr)
    obtain ⟨ins, hins, huid⟩ := hwritten.mem_code (by rw [hat.handlerStart]; rfl)
    rw [hl'] at huid
    have hlabel : ins.uid = l := (Option.some.inj huid).symm
    obtain ⟨e, he, hin⟩ := List.mem_flatMap.mp ((Outline.code_outline g).symm ▸ hins)
    have hown : e.1 = l := (h.own e he ins hin (hlabel ▸ hl)).symm.trans hlabel
    have hblock : e.2 = c := by
      obtain ⟨before, after, hsplit⟩ := List.append_of_mem he
      obtain ⟨before', hsplit'⟩ := hsuffix
      rw [← hown] at hsplit'
      exact (split_unique h.outline_nodup hsplit hsplit'.symm).1
    have hfirst := hheaded s hmem l hhead c
      (hsuffix.mem List.mem_cons_self) ins (hblock ▸ hin) hlabel
    have hcode : (Outline.code ((l, c) :: rest)).head? = some ins := by
      obtain ⟨more, hmore⟩ := List.head?_eq_some_iff.mp hfirst
      rw [Outline.code_cons, hmore]
      rfl
    exact ⟨s.region, hr, rfl, rfl, hwritten.enter? h hsuffix hcode (hlabel ▸ hl')⟩
  · -- The region has been moved to what is left of its blocks.
    have hr : m.regions[index]? = some ((Reconcile.moved? g s).getD s).region := by
      rw [hmoved, List.getElem?_map, hs]
      rfl
    have hnone : Reconcile.regionIssues g index s = [] :=
      List.flatMap_eq_nil_iff.mp hdefects (s, index) (List.mk_mem_zipIdx_iff_getElem?.mpr hs)
    obtain ⟨htries, hhandlers⟩ := Reconcile.bounds_of_regionIssues hnone
    obtain ⟨tries, htries⟩ := Option.isSome_iff_exists.mp htries
    obtain ⟨handlers, hhandlers⟩ := Option.isSome_iff_exists.mp hhandlers
    obtain ⟨-, hstart, -⟩ := Reconcile.moved_boundaries htries hhandlers rfl
    have hfrom : g.outline.from? l = some ((l, c) :: rest) := by
      rwa [handlerPlace?, hs, Option.bind_some, hhead, Option.bind_some] at hplace
    have hfirst := Reconcile.spanBounds?_first h hmem hhandlers hhead hfrom
    obtain ⟨ins, hins, huid⟩ := Option.map_eq_some_iff.mp hfirst
    obtain ⟨hkind, hcatch⟩ := Reconcile.moved_kind g s
    exact ⟨_, hr, hkind, hcatch, hwritten.enter? h hsuffix hins (huid ▸ hstart)⟩

end Written

end Graph

/-- The second method shows what the first one shows: run from the entry, and run from the
    start of each handler, whatever the stack and the locals are there. -/
structure Method.Refined (P : Platform) (m m' : Method) : Prop where
  entry : ∀ σ, Process.Refines (stream P m.code) m.code (stream P m'.code) m'.code σ
  /-- No region is lost, and none is made. -/
  length : m'.regions.length = m.regions.length
  handler : ∀ (index : Nat) (r : Region), m.regions[index]? = some r →
    ∃ r' : Region, m'.regions[index]? = some r' ∧ r'.kind = r.kind ∧ r'.catchType = r.catchType
      ∧ ∃ place place', enter? m.code r.handlerStart = some place
        ∧ enter? m'.code r'.handlerStart = some place'
        ∧ ∀ σ, Process.Refines (stream P m.code) place (stream P m'.code) place' σ

@[simp] theorem Outcome.revert_rewritten (m : Method) (f : Fault) :
    (revert m f).rewritten = false := by
  cases f <;> rfl

@[simp] theorem Outcome.revert_body (m : Method) (f : Fault) : (revert m f).body = m := by
  cases f <;> rfl

namespace Method

variable {m : Method} {settings : Settings}

/-- The work on a method that has been cut into blocks. -/
def workOn (m : Method) (settings : Settings) (g : Graph) :
    EStateM.Result Fault Workbench Outcome :=
  (Pipeline.work settings m).run { graph := g, analysis := {}, method := m.name }

theorem normalize_of_refused {f : Fault}
    (hbuild : Graph.build m.copy settings.terminators = .error f) :
    m.normalize settings = .revert m f := by
  unfold normalize Pipeline.run
  dsimp only
  rw [hbuild]

theorem normalize_of_build {g : Graph}
    (hbuild : Graph.build m.copy settings.terminators = .ok g) :
    (∀ o w, m.workOn settings g = .ok o w → m.normalize settings = o)
      ∧ ∀ f w, m.workOn settings g = .error f w → m.normalize settings = .revert m f := by
  unfold workOn normalize Pipeline.run
  dsimp only
  rw [hbuild]
  dsimp only
  exact ⟨fun o w h => by rw [h], fun f w h => by rw [h]⟩

/-- A method that is rewritten was accepted, and the work on it succeeded. -/
theorem normalize_eq (h : (m.normalize settings).rewritten = true) :
    ∃ g w, Graph.build m.copy settings.terminators = .ok g
      ∧ (Pipeline.work settings m).run { graph := g, analysis := {}, method := m.name }
          = .ok (m.normalize settings) w := by
  cases hbuild : Graph.build m.copy settings.terminators with
  | error f =>
    rw [normalize_of_refused hbuild, Outcome.revert_rewritten] at h
    cases h
  | ok g =>
    obtain ⟨hdone, hfailed⟩ := normalize_of_build hbuild
    cases hwork : m.workOn settings g with
    | error f w =>
      rw [hfailed f w hwork, Outcome.revert_rewritten] at h
      cases h
    | ok o w => exact ⟨g, w, rfl, (hdone o w hwork).symm ▸ hwork⟩

theorem copy_nodup (h : (m.code.map (·.uid)).Nodup) : (m.copy.code.map (·.uid)).Nodup := by
  show ((m.code.map Instruction.copy).map (·.uid)).Nodup
  rw [Instruction.copy_uids]
  exact h

/-- The settings of a run that rewrites a method describe a machine. -/
theorem machine_of_rewritten (hnodup : (m.code.map (·.uid)).Nodup)
    (h : (m.normalize settings).rewritten = true) : ∃ M, settings.machine = .ok M := by
  obtain ⟨g, w, hbuild, hwork⟩ := normalize_eq h
  obtain ⟨hformed, hlinked⟩ := Graph.build_formed hbuild (copy_nodup hnodup)
  obtain ⟨changes, w₂, ⟨⟨analysis, -, -, hanalysis, -⟩, -⟩, -⟩ :=
    Pipeline.work_eq_ok hformed hlinked hwork
  exact ⟨analysis.machine, Pipeline.machine_of_analysisOf hanalysis⟩

/-- The graph that is built of a method is sound. -/
theorem build_sound (P : Platform) {terminators : List Value} {g : Graph}
    (hbuild : Graph.build m terminators = .ok g) (hnodup : (m.code.map (·.uid)).Nodup) :
    g.Sound P g := by
  obtain ⟨hformed, hlinked⟩ := Graph.build_formed hbuild hnodup
  have hranged := Graph.build_ranged hbuild hnodup
  exact .start hformed hlinked (Graph.build_headed hbuild hnodup)
    fun s hs => ⟨(hranged s hs).1.subset, (hranged s hs).2.subset⟩

/-- A method that is rewritten is written out from a graph that shows what the one shows that
    is built of its copy. -/
theorem normalize_written {P : Platform} (hnodup : (m.code.map (·.uid)).Nodup)
    (hmachine : settings.machine = .ok P.machine) (hP : P.terminators = settings.terminators)
    (h : (m.normalize settings).rewritten = true) :
    ∃ g₀ g, Graph.build m.copy settings.terminators = .ok g₀ ∧ g₀.Sound P g ∧ g.AllReached
      ∧ g.Written (m.normalize settings).body
      ∧ (.exceptionReconciler ∈ settings.activeKinds
        → g.RegionsMoved (m.normalize settings).body) := by
  obtain ⟨g₀, w, hbuild, hwork⟩ := normalize_eq h
  have hstart : g₀.Sound P g₀ := build_sound P hbuild (copy_nodup hnodup)
  have hP' : P.terminators = g₀.terminators := hP.trans (Graph.build_terminators hbuild).symm
  obtain ⟨g, hsound, hreached, hwritten⟩ :=
    Pipeline.work_rewritten hstart rfl hmachine hP' hwork h
  exact ⟨g₀, g, hbuild, hsound, hreached, hwritten⟩

/-- Normalizing keeps what a method shows, on the machine that the settings describe and in
    every world. -/
theorem normalize_refines (m : Method) (settings : Settings)
    (hnodup : (m.code.map (·.uid)).Nodup) (h : (m.normalize settings).rewritten = true) :
    ∃ M, settings.machine = .ok M
      ∧ ∀ W, Refined ⟨M, W, settings.terminators⟩ m (m.normalize settings).body := by
  obtain ⟨M, hmachine⟩ := machine_of_rewritten hnodup h
  refine ⟨M, hmachine, fun W => ?_⟩
  let P : Platform := ⟨M, W, settings.terminators⟩
  let new := (m.normalize settings).body
  show Refined P m new
  obtain ⟨g₀, g, hbuild, hsound, -, hwritten, -⟩ :=
    normalize_written (P := P) hnodup hmachine rfl h
  have hformed := hsound.formed
  obtain ⟨hheaded, hkept, -⟩ := hsound
  have hcopy := copy_nodup hnodup
  have hcode : new.code = g.code.map g.relinkInstruction := hwritten.code
  have hregions : g.spans.map (·.region) = m.regions :=
    hkept.regions.trans (Graph.build_regions (m := m.copy) hbuild)
  refine ⟨fun σ => ?_, ?_, fun index r hr => ?_⟩
  · have hout := hformed.refines_relinked P hwritten.leads (List.suffix_refl _) σ
    rw [Outline.code_outline] at hout
    rw [hcode]
    exact (stream_copy P m.code (List.Subset.refl _) σ).trans
      ((Graph.build_refines hbuild hcopy P σ).trans ((hkept.refined.entry σ).trans hout))
  · rw [← hregions, List.length_map]
    rcases hwritten.regions with hsame | ⟨-, hsame⟩
    · rw [hsame, List.length_map]
    · rw [hsame, List.length_map]
  · obtain ⟨place₁, place₂, henter, hplace₂, href₁⟩ :=
      Graph.build_refines_handler (m := m.copy) hbuild hcopy P hr
    obtain ⟨place, hplace, href⟩ := hkept.refined.handler index place₂ hplace₂
    have hspan : (g.spans.map (·.region))[index]? = some r := hregions ▸ hr
    rw [List.getElem?_map] at hspan
    obtain ⟨s, hs, rfl⟩ := Option.map_eq_some_iff.mp hspan
    obtain ⟨r', hr', hkind, hcatch, henter'⟩ := hwritten.enter?_handler hformed hheaded hs hplace
    obtain ⟨l, c, rest, -, -, hplace', hsuffix⟩ := hformed.handlerPlace?_eq hs
    rw [hplace] at hplace'
    cases hplace'
    change enter? (m.code.map Instruction.copy) _ = _ at henter
    rw [enter?_map _ _ Instruction.copy_uid] at henter
    obtain ⟨place₀, henter₀, rfl⟩ := Option.map_eq_some_iff.mp henter
    refine ⟨r', hr', hkind, hcatch, place₀, _, henter₀, henter', fun σ => ?_⟩
    have hout := hformed.refines_relinked P hwritten.leads hsuffix σ
    rw [hcode]
    exact (stream_copy P m.code (enter?_subset henter₀) σ).trans
      ((href₁ σ).trans ((href σ).trans hout))

/-- A protected dispatch on a constant of which a copy is kept, with two ways on: a call, and
    the exit from the region. -/
def knownDispatch : Method where
  code :=
    [{ opcode := some .pushConst, operand := .value (.int 1), uid := 0 },
     { opcode := some .dup, uid := 1 },
     { opcode := some .storeLocal, operand := .value (.str "a"), uid := 2 },
     { opcode := some .switch, operand := .value (.tuple [.int 4, .int 5]), uid := 3 },
     { opcode := some .other, operand := .value (.str "F"), uid := 4, mnemonic := .str "call" },
     { opcode := some .leave, operand := .value (.int 7), uid := 5 },
     { opcode := some .other, uid := 6, mnemonic := .str "endfinally" },
     { opcode := some .other, uid := 7, mnemonic := .str "ret" }]
  regions :=
    [{ kind := .finally, tryStart := .int 0, tryEnd := .int 5, handlerStart := .int 6
       handlerEnd := .int 6 }]

theorem knownDispatch_refined : ∃ M, ({} : Settings).machine = .ok M
    ∧ ∀ W, Refined ⟨M, W, ({} : Settings).terminators⟩ knownDispatch
        (knownDispatch.normalize {}).body :=
  normalize_refines knownDispatch {} (by decide) (by decide +kernel)

end Method

end Untangle
