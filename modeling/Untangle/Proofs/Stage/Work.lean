/-
  Untangle.Proofs.Stage.Work

  How work on a method is taken apart. Messages do not matter: an action is silent when it
  always succeeds and leaves everything but the journal as it was. What the other actions do
  when they succeed is said by one lemma each.
-/
import Untangle.Proofs.Abstract.Analysis
import Untangle.Proofs.Graph.Headed
import Untangle.Stage.Work

namespace Untangle

/-- Two workbenches that differ in the messages only. -/
structure Workbench.Alike (w w' : Workbench) : Prop where
  graph : w'.graph = w.graph
  analysis : w'.analysis = w.analysis
  facts : w'.facts = w.facts
  issues : w'.issues = w.issues

namespace Workbench.Alike

variable {w w' w'' : Workbench}

theorem refl (w : Workbench) : w.Alike w := ⟨rfl, rfl, rfl, rfl⟩

theorem trans (h : w.Alike w') (h' : w'.Alike w'') : w.Alike w'' :=
  ⟨h'.graph.trans h.graph, h'.analysis.trans h.analysis, h'.facts.trans h.facts,
    h'.issues.trans h.issues⟩

theorem setGraph (h : w.Alike w') (g : Graph) :
    ({ w with graph := g } : Workbench).Alike { w' with graph := g } :=
  ⟨rfl, h.analysis, h.facts, h.issues⟩

end Workbench.Alike

/-- Facts that are there are those that the analysis finds about the graph. -/
def Workbench.Informed (w : Workbench) : Prop :=
  ∀ f, w.facts = some f → (w.analysis.findings w.graph).facts = .ok f

theorem Workbench.informed_of_none {w : Workbench} (h : w.facts = none) : w.Informed := by
  intro f hf
  rw [h] at hf
  cases hf

theorem Workbench.Alike.informed {w w' : Workbench} (h : w.Alike w') (hw : w.Informed) :
    w'.Informed := by
  intro f hf
  rw [h.facts] at hf
  rw [h.analysis, h.graph]
  exact hw f hf

namespace Work

variable {α β : Type} {w w' : Workbench}

/-! ## Taking actions apart -/

/-- Two actions one after the other succeed when both do. -/
theorem bind_eq_ok {x : Work α} {f : α → Work β} {b : β} :
    (x >>= f).run w = .ok b w' ↔ ∃ a w₁, x.run w = .ok a w₁ ∧ (f a).run w₁ = .ok b w' := by
  show EStateM.bind x f w = _ ↔ ∃ a w₁, x w = _ ∧ f a w₁ = _
  unfold EStateM.bind
  cases hx : x w with
  | ok a w₁ =>
    refine ⟨fun h => ⟨a, w₁, rfl, h⟩, ?_⟩
    rintro ⟨a', w₁', heq, h⟩
    cases heq
    exact h
  | error e w₁ => exact ⟨(nomatch ·), fun ⟨_, _, heq, _⟩ => nomatch heq⟩

theorem bind_of_ok {x : Work α} {f : α → Work β} {w w' : Workbench} {a : α}
    (h : x.run w = .ok a w') : (x >>= f).run w = (f a).run w' := by
  change x w = _ at h
  show EStateM.bind x f w = _
  unfold EStateM.bind
  rw [h]
  rfl

theorem bind_of_error {x : Work α} {f : α → Work β} {w w' : Workbench} {e : Fault}
    (h : x.run w = .error e w') : (x >>= f).run w = .error e w' := by
  change x w = _ at h
  show EStateM.bind x f w = _
  unfold EStateM.bind
  rw [h]

theorem get_bind (f : Workbench → Work α) : (get >>= f).run w = (f w).run w := rfl

theorem pure_eq_ok {a b : α} : (pure a : Work α).run w = .ok b w' ↔ a = b ∧ w = w' := by
  constructor
  · intro h
    cases h
    exact ⟨rfl, rfl⟩
  · rintro ⟨rfl, rfl⟩
    rfl

theorem throw_ne_ok {e : Fault} {a : α} : (throw e : Work α).run w ≠ .ok a w' := nofun

theorem check_eq_ok {r : Except Misuse Unit} {u : Unit} :
    (check r).run w = .ok u w' ↔ r = .ok () ∧ w = w' := by
  cases r with
  | ok v => exact pure_eq_ok.trans ⟨fun h => ⟨rfl, h.2⟩, fun h => ⟨rfl, h.2⟩⟩
  | error m => exact ⟨(nomatch ·), fun h => nomatch h.1⟩

theorem setGraph_bind (g : Graph) (x : Work α) :
    (setGraph g >>= fun _ => x).run w = x.run { w with graph := g } := rfl

theorem invalidate_bind (x : Work α) :
    (invalidate >>= fun _ => x).run w = x.run { w with facts := none } := rfl

/-! ## Messages -/

/-- An action that always gives one result and otherwise only leaves messages. -/
def Says (x : Work α) (a : α) : Prop := ∀ w, ∃ w', x.run w = .ok a w' ∧ w.Alike w'

theorem Says.alike {x : Work α} {a b : α} (hx : Says x a) (h : x.run w = .ok b w') :
    b = a ∧ w.Alike w' := by
  obtain ⟨w₁, hok, halike⟩ := hx w
  rw [hok] at h
  cases h
  exact ⟨rfl, halike⟩

theorem says_pure (a : α) : Says (pure a) a := fun w => ⟨w, rfl, .refl w⟩

theorem Says.bind {x : Work α} {f : α → Work β} {a : α} {b : β} (hx : Says x a)
    (hf : Says (f a) b) : Says (x >>= f) b := by
  intro w
  obtain ⟨w₁, hok, halike⟩ := hx w
  obtain ⟨w₂, hok', halike'⟩ := hf w₁
  exact ⟨w₂, bind_eq_ok.mpr ⟨a, w₁, hok, hok'⟩, halike.trans halike'⟩

/-- After an action that has succeeded the rest goes on from there. -/
theorem andThen_of_ok {x : Work α} {f : α → Work β} {a : α} {b : β} {w₁ : Workbench}
    {post : Workbench → Prop} (hok : x.run w = .ok a w₁)
    (hf : ∃ w', (f a).run w₁ = .ok b w' ∧ post w') :
    ∃ w', (x >>= f).run w = .ok b w' ∧ post w' := by
  obtain ⟨w', hok', hpost⟩ := hf
  exact ⟨w', bind_eq_ok.mpr ⟨a, w₁, hok, hok'⟩, hpost⟩

/-- After an action that only leaves messages the rest succeeds as it does without. -/
theorem Says.andThen {x : Work α} {f : α → Work β} {a : α} {b : β} {post : Workbench → Prop}
    (hx : Says x a)
    (hf : ∀ w₁, w.Alike w₁ → ∃ w', (f a).run w₁ = .ok b w' ∧ post w') :
    ∃ w', (x >>= f).run w = .ok b w' ∧ post w' := by
  obtain ⟨w₁, hok, halike⟩ := hx w
  obtain ⟨w', hok', hpost⟩ := hf w₁ halike
  exact ⟨w', bind_eq_ok.mpr ⟨a, w₁, hok, hok'⟩, hpost⟩

theorem says_forM {f : α → Work Unit} {items : List α} (hf : ∀ a ∈ items, Says (f a) ()) :
    Says (items.forM f) () := by
  induction items with
  | nil => exact says_pure ()
  | cons a items ih =>
    exact (hf a List.mem_cons_self).bind (ih fun b hb => hf b (List.mem_cons_of_mem _ hb))

/-- A loop whose body only leaves messages computes a fold. -/
theorem says_forIn {f : α → β → Work (ForInStep β)} (next : β → α → β) {items : List α}
    (hf : ∀ a ∈ items, ∀ b, Says (f a b) (.yield (next b a))) (b : β) :
    Says (forIn items b f) (items.foldl next b) := by
  induction items generalizing b with
  | nil => exact says_pure b
  | cons a items ih =>
    rw [List.forIn_cons]
    exact (hf a List.mem_cons_self b).bind (ih (fun c hc => hf c (List.mem_cons_of_mem _ hc)) _)

theorem says_log (logger : String) (level : Level) (text : String) :
    Says (log logger level text) () := fun _ => ⟨_, rfl, rfl, rfl, rfl, rfl⟩

theorem says_logQueued (e : Edit) : Says (logQueued e) () := says_log _ _ _

theorem says_warnOfUid (e : Edit) (before after : String) :
    Says (warnOfUid e before after) () := by
  unfold warnOfUid
  split
  · exact says_log _ _ _
  · exact says_pure ()

theorem says_warnFailed (e : Edit) : Says (warnFailed e) () := says_warnOfUid e _ _

theorem says_check {r : Except Misuse Unit} (h : r = .ok ()) : Says (check r) () := by
  rw [h]
  exact says_pure ()

/-- An action that always gives one result and otherwise only notes defects and leaves
    messages. -/
def Flags (x : Work α) (a : α) (issues : List Issue) : Prop :=
  ∀ w, ∃ w', x.run w = .ok a w'
    ∧ ({ w with issues := w.issues ++ issues } : Workbench).Alike w'

theorem Says.flags {x : Work α} {a : α} (h : Says x a) : Flags x a [] := fun w => by
  obtain ⟨w', hok, halike⟩ := h w
  refine ⟨w', hok, ?_⟩
  rw [List.append_nil]
  exact halike

theorem Flags.bind {x : Work α} {f : α → Work β} {a : α} {b : β} {issues more : List Issue}
    (hx : Flags x a issues) (hf : Flags (f a) b more) : Flags (x >>= f) b (issues ++ more) := by
  intro w
  obtain ⟨w₁, hok, halike⟩ := hx w
  obtain ⟨w₂, hok', halike'⟩ := hf w₁
  refine ⟨w₂, bind_eq_ok.mpr ⟨a, w₁, hok, hok'⟩, ?_⟩
  refine ⟨halike'.graph.trans halike.graph, halike'.analysis.trans halike.analysis,
    halike'.facts.trans halike.facts, ?_⟩
  rw [halike'.issues]
  show w₁.issues ++ more = w.issues ++ (issues ++ more)
  rw [halike.issues, List.append_assoc]

theorem Flags.andSays {x : Work α} {f : α → Work β} {a : α} {b : β} {issues : List Issue}
    (hx : Flags x a issues) (hf : Says (f a) b) : Flags (x >>= f) b issues := by
  have := hx.bind hf.flags
  rwa [List.append_nil] at this

/-- What comes of an action that goes on from one that notes defects. -/
theorem Flags.exists_bind {x : Work α} {f : α → Work β} {a : α} {b : β} {issues : List Issue}
    {p : Workbench → Prop} (hx : Flags x a issues)
    (hf : ∀ w₁, ({ w with issues := w.issues ++ issues } : Workbench).Alike w₁ →
      ∃ w', (f a).run w₁ = .ok b w' ∧ p w') : ∃ w', (x >>= f).run w = .ok b w' ∧ p w' := by
  obtain ⟨w₁, hok, halike⟩ := hx w
  obtain ⟨w', hok', hp⟩ := hf w₁ halike
  exact ⟨w', bind_eq_ok.mpr ⟨a, w₁, hok, hok'⟩, hp⟩

theorem flags_flag (issue : Issue) : Flags (flag issue) () [issue] := fun _ =>
  ⟨_, rfl, rfl, rfl, rfl, rfl⟩

theorem flags_forM (issues : List Issue) : Flags (issues.forM flag) () issues := by
  induction issues with
  | nil => exact (says_pure ()).flags
  | cons issue issues ih => exact (flags_flag issue).bind ih

/-- A loop that notes defects at each item. -/
theorem flags_forIn {f : α → PUnit → Work (ForInStep PUnit)} (defects : α → List Issue)
    {items : List α} (hf : ∀ a ∈ items, Flags (f a ⟨⟩) (.yield ⟨⟩) (defects a)) :
    Flags (forIn items ⟨⟩ f) ⟨⟩ (items.flatMap defects) := by
  induction items with
  | nil => exact (says_pure _).flags
  | cons a items ih =>
    rw [List.forIn_cons, List.flatMap_cons]
    exact (hf a List.mem_cons_self).bind (ih fun b hb => hf b (List.mem_cons_of_mem _ hb))

/-! ## Facts -/

/-- Facts about a graph are those that are there, or are found then. -/
theorem facts_eq_ok {f : Facts} (h : facts.run w = .ok f w') :
    w'.graph = w.graph ∧ w'.analysis = w.analysis ∧ w'.issues = w.issues ∧ w'.facts = some f
      ∧ (w.facts = some f ∨ w.facts = none ∧ (w.analysis.findings w.graph).facts = .ok f) := by
  unfold facts at h
  rw [get_bind] at h
  cases hfacts : w.facts with
  | some f' =>
    rw [hfacts] at h
    obtain ⟨rfl, rfl⟩ := pure_eq_ok.mp h
    exact ⟨rfl, rfl, rfl, hfacts, Or.inl rfl⟩
  | none =>
    rw [hfacts] at h
    obtain ⟨_, w₂, hnotes, h⟩ := bind_eq_ok.mp h
    have halike := (says_forM fun a _ => says_log "CFEX.analysis" Level.debug a).alike hnotes |>.2
    cases hfound : (w.analysis.findings w.graph).facts with
    | error m => rw [hfound] at h; cases h
    | ok f' =>
      rw [hfound] at h
      cases h
      exact ⟨halike.graph, halike.analysis, halike.issues, rfl, Or.inr ⟨rfl, rfl⟩⟩

/-! ## Pruning -/

theorem checkEdges_eq_ok {g : Graph} (h : g.Wired) : g.checkEdges = .ok () := by
  unfold Graph.checkEdges
  have hall : (g.blocks.all fun b => !g.reachable.contains b.label || b.succs.all g.hasBlock)
      = true := by
    refine List.all_eq_true.mpr fun b hb => ?_
    have hsuccs : b.succs.all g.hasBlock = true := List.all_eq_true.mpr fun l hl =>
      Graph.hasBlock_iff.mpr (h.succs b hb hl)
    rw [hsuccs, Bool.or_true]
  dsimp only
  rw [hall]
  rfl

/-- Removing the blocks out of reach succeeds where all edges lead to blocks. -/
theorem removeUnreachable_wired (h : w.graph.Wired) :
    ∃ w', removeUnreachable.run w = .ok (w.graph.unreachable.map (·.label)) w'
      ∧ ({ w with graph := if w.graph.unreachable.isEmpty then w.graph
            else w.graph.removeUnreachable } : Workbench).Alike w' := by
  unfold removeUnreachable
  rw [get_bind]
  obtain ⟨w₁, hcheck, halike⟩ := says_check (checkEdges_eq_ok h) w
  by_cases hdead : w.graph.unreachable.isEmpty
  · refine ⟨w₁, bind_eq_ok.mpr ⟨(), w₁, hcheck, ?_⟩, ?_⟩
    · rw [if_pos hdead, List.isEmpty_iff.mp hdead]
      rfl
    · rw [if_pos hdead]
      exact halike
  · obtain ⟨w₂, hlogs, halike₂⟩ := says_forIn
      (f := fun (b : Block) (_ : PUnit) => do
        log "CFEX.cfg" Level.debug
          ("Removing unreachable block " ++ toString b.label ++ " (" ++ toString b.code.length
            ++ " instruction(s))")
        pure (ForInStep.yield PUnit.unit))
      (fun _ _ => PUnit.unit)
      (fun b (_ : b ∈ w.graph.unreachable) _ => (says_log _ _ _).bind (says_pure _)) PUnit.unit w₁
    refine ⟨{ w₂ with graph := w.graph.removeUnreachable }, ?_, ?_⟩
    · refine bind_eq_ok.mpr ⟨(), w₁, hcheck, ?_⟩
      rw [if_neg hdead]
      exact bind_eq_ok.mpr ⟨_, w₂, hlogs, rfl⟩
    · rw [if_neg hdead]
      exact (halike.trans halike₂).setGraph _

/-- Removing the blocks out of reach succeeds on a well-formed graph. -/
theorem removeUnreachable_run (h : w.graph.Formed) (hlinked : w.graph.Linked) :
    ∃ w', removeUnreachable.run w = .ok (w.graph.unreachable.map (·.label)) w'
      ∧ ({ w with graph := if w.graph.unreachable.isEmpty then w.graph
            else w.graph.removeUnreachable } : Workbench).Alike w' :=
  removeUnreachable_wired (h.wired hlinked)

/-- Joining blocks succeeds where targets can be looked up. -/
theorem merge_checked (h : w.graph.checkTargets = .ok ()) :
    ∃ w', merge.run w = .ok w.graph.joinedLabels w'
      ∧ ({ w with graph := w.graph.merged } : Workbench).Alike w' := by
  unfold merge
  rw [get_bind]
  obtain ⟨w₁, hcheck, halike⟩ := says_check h w
  by_cases hgone : w.graph.joinedLabels.isEmpty
  · refine ⟨w₁, bind_eq_ok.mpr ⟨(), w₁, hcheck, ?_⟩, ?_⟩
    · rw [if_pos hgone, List.isEmpty_iff.mp hgone]
      rfl
    · rw [Graph.merged_eq, if_pos hgone]
      exact halike
  · obtain ⟨w₂, hlog, halike₂⟩ := says_log "CFEX.cfg" Level.debug
      ("Merged " ++ toString w.graph.joinedLabels.length ++ " fall-through block(s)")
      { w₁ with graph := w.graph.merged }
    refine ⟨w₂, bind_eq_ok.mpr ⟨(), w₁, hcheck, ?_⟩, ?_⟩
    · rw [if_neg hgone]
      exact bind_eq_ok.mpr ⟨(), _, rfl, bind_eq_ok.mpr ⟨(), w₂, hlog, rfl⟩⟩
    · exact (halike.setGraph _).trans halike₂

/-- Joining blocks succeeds on a well-formed graph. -/
theorem merge_run (h : w.graph.Formed) :
    ∃ w', merge.run w = .ok w.graph.joinedLabels w'
      ∧ ({ w with graph := w.graph.merged } : Workbench).Alike w' :=
  merge_checked h.checkAll

/-- Pruning succeeds where all edges lead to blocks and targets can be looked up. -/
theorem prune_wired (h : w.graph.Wired)
    (hcheck : ∀ ins ∈ w.graph.code, ins.checkTargets = .ok ()) :
    ∃ w', prune.run w = .ok (w.graph.unreachable.map (·.label)) w'
      ∧ ({ w with graph := w.graph.pruned } : Workbench).Alike w' := by
  obtain ⟨w₁, hremove, halike⟩ := removeUnreachable_wired h
  by_cases hdead : w.graph.unreachable.isEmpty
  · refine ⟨w₁, bind_eq_ok.mpr ⟨_, w₁, hremove, ?_⟩, ?_⟩
    · rw [List.isEmpty_iff.mp hdead]
      rfl
    · rw [if_pos hdead] at halike
      rw [Graph.pruned, if_pos hdead]
      exact halike
  · rw [if_neg hdead] at halike
    have hchecked : w₁.graph.checkTargets = .ok () := by
      rw [halike.graph]
      exact forM_eq_ok.mpr fun ins hins =>
        hcheck ins ((Graph.removeUnreachable_code_sublist w.graph).subset hins)
    obtain ⟨w₂, hmerge, halike₂⟩ := merge_checked hchecked
    refine ⟨w₂, bind_eq_ok.mpr ⟨_, w₁, hremove, ?_⟩, ?_⟩
    · have hmap : (w.graph.unreachable.map (·.label)).isEmpty = false := by
        rw [List.isEmpty_map]
        exact Bool.eq_false_iff.mpr hdead
      rw [hmap]
      exact bind_eq_ok.mpr ⟨_, w₂, hmerge, rfl⟩
    · rw [Graph.pruned, if_neg hdead]
      refine ⟨?_, halike₂.analysis.trans halike.analysis, halike₂.facts.trans halike.facts,
        halike₂.issues.trans halike.issues⟩
      rw [halike₂.graph]
      show w₁.graph.merged = w.graph.removeUnreachable.merged
      rw [halike.graph]

/-- Pruning succeeds on a well-formed graph. -/
theorem prune_run (h : w.graph.Formed) (hlinked : w.graph.Linked) :
    ∃ w', prune.run w = .ok (w.graph.unreachable.map (·.label)) w'
      ∧ ({ w with graph := w.graph.pruned } : Workbench).Alike w' :=
  prune_wired (h.wired hlinked) fun _ hins => h.checkTargets hins

/-! ## Edits -/

/-- Messages about edits that do not count never fail when uids are numbers. -/
theorem says_logCoalesced {edits : List Edit} (hints : ∀ e ∈ edits, ∃ u, e.uid = .int u) :
    Says (logCoalesced edits) (edits.length - (Edit.coalesced edits).length) := by
  have hsound : (edits.takeWhile (·.uid.isKey)) = edits := by
    rw [List.takeWhile_eq_self_iff]
    intro e he
    obtain ⟨u, hu⟩ := hints e he
    rw [hu]
    rfl
  unfold logCoalesced
  rw [hsound]
  refine (says_forIn (fun _ _ => PUnit.unit) (fun a _ _ => ?_) _).bind ?_
  · exact (says_warnOfUid _ _ _).bind (says_pure _)
  · rw [if_neg (Nat.lt_irrefl _)]
    dsimp only
    split
    · exact (says_log _ _ _).bind (says_pure _)
    · exact says_pure _

/-- Edits that name blocks and instructions by their numbers are made. After any of them the
    targets at the ends of blocks are looked up, and a target that cannot be is refused. -/
theorem applyEdits_ends {edits : List Edit}
    (hnames : ∀ e ∈ edits, ∃ l u : Int, e.block = .int l ∧ e.uid = .int u) :
    ∃ w', ({ w with graph := (w.graph.edited edits).graph } : Workbench).Alike w'
      ∧ (applyEdits edits).run w
        = match (if 0 < (w.graph.edited edits).count then (w.graph.edited edits).graph.checkLasts
            else .ok ()) with
          | .ok _ => .ok (w.graph.edited edits).count w'
          | .error m => .error (.misuse m) w' := by
  by_cases hsome : edits = []
  · subst hsome
    exact ⟨w, .refl w, rfl⟩
  have hints : ∀ e ∈ edits, ∃ u, e.uid = .int u := fun e he => by
    obtain ⟨l, u, -, huid⟩ := hnames e he
    exact ⟨u, huid⟩
  have hkeys : (Edit.inOrder (Edit.coalesced edits)).all (·.block.isKey) = true := by
    refine List.all_eq_true.mpr fun e he => ?_
    obtain ⟨k, -, hek⟩ := List.mem_flatMap.mp he
    obtain ⟨l, u, hblock, -⟩ := hnames e (Edit.coalesced_subset edits (List.mem_of_mem_filter hek))
    rw [hblock]
    rfl
  obtain ⟨w₁, hcoalesced, halike₁⟩ := says_logCoalesced hints w
  obtain ⟨w₂, hfailed, halike₂⟩ := says_forM
    (fun e (_ : e ∈ (w.graph.edited edits).failed) => says_warnFailed e) w₁
  have hwarned := (halike₁.trans halike₂).setGraph (w.graph.edited edits).graph
  have hstart : (applyEdits edits).run w
      = (do
          if 0 < (w.graph.edited edits).count then check (w.graph.edited edits).graph.checkLasts
          log "CFEX.pass" Level.debug
            ("Applied " ++ toString (w.graph.edited edits).count ++ "/"
              ++ toString (w.graph.edited edits).kept.length ++ " modifications")
          return (w.graph.edited edits).count : Work Nat).run
        { w₂ with graph := (w.graph.edited edits).graph } := by
    unfold applyEdits
    rw [if_neg (by rw [List.isEmpty_iff]; exact hsome), bind_of_ok hcoalesced]
    dsimp only
    rw [hkeys, if_neg (by decide), get_bind, halike₁.graph, bind_of_ok hfailed, setGraph_bind]
  obtain ⟨w₃, hlog, halike₃⟩ := says_log "CFEX.pass" Level.debug
    ("Applied " ++ toString (w.graph.edited edits).count ++ "/"
      ++ toString (w.graph.edited edits).kept.length ++ " modifications")
    { w₂ with graph := (w.graph.edited edits).graph }
  rw [hstart]
  by_cases hcount : 0 < (w.graph.edited edits).count
  · rw [if_pos hcount, if_pos hcount]
    cases hlasts : (w.graph.edited edits).graph.checkLasts with
    | ok u =>
      have hcheck := (check_eq_ok (u := u)
        (w := { w₂ with graph := (w.graph.edited edits).graph })).mpr ⟨rfl, rfl⟩
      exact ⟨w₃, hwarned.trans halike₃, (bind_of_ok hcheck).trans (bind_of_ok hlog)⟩
    | error m => exact ⟨_, hwarned, rfl⟩
  · rw [if_neg hcount, if_neg hcount]
    exact ⟨w₃, hwarned.trans halike₃, bind_of_ok hlog⟩

/-- Edits are made, if any of them is and targets can be looked up after it. -/
theorem applyEdits_run {edits : List Edit}
    (hnames : ∀ e ∈ edits, ∃ l u : Int, e.block = .int l ∧ e.uid = .int u)
    (hcount : 0 < (w.graph.edited edits).count)
    (hlasts : (w.graph.edited edits).graph.checkLasts = .ok ()) :
    ∃ w', (applyEdits edits).run w = .ok (w.graph.edited edits).count w'
      ∧ ({ w with graph := (w.graph.edited edits).graph } : Workbench).Alike w' := by
  obtain ⟨w', halike, hrun⟩ := applyEdits_ends (w := w) hnames
  rw [if_pos hcount, hlasts] at hrun
  exact ⟨w', hrun, halike⟩

/-- Edits that name instructions of their own blocks are all made. -/
theorem applyEdits_within (edits : Block → List Edit) (hnumbered : w.graph.Numbered)
    (hwithin : ∀ b ∈ w.graph.blocks, ∀ e ∈ edits b, e.Within b)
    (hlasts : (w.graph.edited (w.graph.blocks.flatMap edits)).graph.checkLasts = .ok ()) :
    ∃ w', (applyEdits (w.graph.blocks.flatMap edits)).run w
        = .ok (w.graph.edited (w.graph.blocks.flatMap edits)).count w'
      ∧ ({ w with graph := (w.graph.edited (w.graph.blocks.flatMap edits)).graph } :
          Workbench).Alike w' := by
  by_cases hsome : w.graph.blocks.flatMap edits = []
  · rw [hsome]
    exact ⟨w, rfl, .refl w⟩
  · have habout : ∀ e ∈ w.graph.blocks.flatMap edits, ∃ l u, e.About w.graph l u := fun e he => by
      obtain ⟨b, hb, he⟩ := List.mem_flatMap.mp he
      exact (hwithin b hb e he).about hb
    refine applyEdits_run (fun e he => ?_) (Graph.edited_spec hnumbered habout hsome).2.1 hlasts
    obtain ⟨l, u, hblock, huid, -⟩ := habout e he
    exact ⟨l, u, hblock, huid⟩

/-- Edits that suit a well-formed graph are all made. -/
theorem applyEdits_suits (edits : Block → List Edit) (h : w.graph.Formed)
    (hlinked : w.graph.Linked) (hsuits : Edit.Suits w.graph edits) :
    ∃ w', (applyEdits (w.graph.blocks.flatMap edits)).run w
        = .ok (w.graph.edited (w.graph.blocks.flatMap edits)).count w'
      ∧ ({ w with graph := (w.graph.edited (w.graph.blocks.flatMap edits)).graph } :
          Workbench).Alike w' := by
  obtain ⟨number, hchanged⟩ := h.changed hlinked hsuits
  exact applyEdits_within edits h.numbered hsuits.within hchanged.formed.checkLasts

/-! ## Relinking -/

/-- Relinking points every branch at a live instruction. -/
theorem relink_eq_ok {n : Nat} (h : relink.run w = .ok n w') : w'.graph = w.graph.relinked := by
  unfold relink at h
  rw [get_bind, setGraph_bind] at h
  obtain ⟨_, w₁, hcheck, h⟩ := bind_eq_ok.mp h
  obtain ⟨-, rfl⟩ := check_eq_ok.mp hcheck
  dsimp only at h
  split at h
  · obtain ⟨_, w₂, hlog, h⟩ := bind_eq_ok.mp h
    obtain ⟨-, rfl⟩ := pure_eq_ok.mp h
    exact ((says_log _ _ _).alike hlog).2.graph
  · obtain ⟨-, rfl⟩ := pure_eq_ok.mp h
    rfl

/-- Relinking succeeds where targets can be looked up. -/
theorem relink_checked (h : w.graph.checkTargets = .ok ()) :
    ∃ w', relink.run w = .ok w.graph.relinkCount w' ∧ w'.graph = w.graph.relinked := by
  unfold relink
  rw [get_bind, setGraph_bind]
  obtain ⟨w₁, hcheck, halike⟩ := says_check h { w with graph := w.graph.relinked }
  by_cases hsome : 0 < w.graph.relinkCount
  · obtain ⟨w₂, hlog, halike₂⟩ := says_log "CFEX.reconstruct" Level.debug
      ("Relinked " ++ toString w.graph.relinkCount ++ " branch operand(s)") w₁
    refine ⟨w₂, bind_eq_ok.mpr ⟨(), w₁, hcheck, ?_⟩, (halike.trans halike₂).graph⟩
    dsimp only
    rw [if_pos hsome]
    exact bind_eq_ok.mpr ⟨(), w₂, hlog, rfl⟩
  · refine ⟨w₁, bind_eq_ok.mpr ⟨(), w₁, hcheck, ?_⟩, halike.graph⟩
    dsimp only
    rw [if_neg hsome]
    rfl

/-- Relinking succeeds on a well-formed graph. -/
theorem relink_run (h : w.graph.Formed) :
    ∃ w', relink.run w = .ok w.graph.relinkCount w' ∧ w'.graph = w.graph.relinked :=
  relink_checked h.checkAll

end Work

/-- Facts that were looked at are those that the analysis finds. -/
theorem Workbench.Informed.found {w w' : Workbench} (hw : w.Informed) {f : Facts}
    (h : Work.facts.run w = .ok f w') :
    (w.analysis.findings w.graph).facts = .ok f := by
  rcases (Work.facts_eq_ok h).2.2.2.2 with hhad | ⟨-, hfound⟩
  · exact hw f hhad
  · exact hfound

theorem Workbench.Informed.facts {w w' : Workbench} (hw : w.Informed) {f : Facts}
    (h : Work.facts.run w = .ok f w') :
    w'.Informed := by
  obtain ⟨hgraph, hanalysis, -, hsome, -⟩ := Work.facts_eq_ok h
  intro f' hf'
  rw [hsome] at hf'
  cases hf'
  rw [hgraph, hanalysis]
  exact hw.found h

end Untangle
