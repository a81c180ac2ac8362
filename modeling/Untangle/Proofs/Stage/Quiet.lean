/-
  Untangle.Proofs.Stage.Quiet

  Actions that note no defects. Only the stage that brings regions and exits up to date does,
  and only what writes the method out fails over defects. All other actions leave the notes as
  they are, also where they fail.
-/
import Untangle.Pipeline
import Untangle.Proofs.Stage.Work

namespace Untangle

namespace Work

variable {α β : Type}

/-- An action that notes no defect, and that fails over misuse alone. -/
def Quiet (x : Work α) : Prop :=
  ∀ w, match x.run w with
    | .ok _ w' => w'.issues = w.issues
    | .error f w' => w'.issues = w.issues ∧ ∃ e, f = .misuse e

theorem Quiet.ok {x : Work α} {w w' : Workbench} {a : α} (hx : Quiet x)
    (h : x.run w = .ok a w') : w'.issues = w.issues := by
  have hquiet := hx w
  rw [h] at hquiet
  exact hquiet

theorem Quiet.error {x : Work α} {w w' : Workbench} {f : Fault} (hx : Quiet x)
    (h : x.run w = .error f w') : w'.issues = w.issues ∧ ∃ e, f = .misuse e := by
  have hquiet := hx w
  rw [h] at hquiet
  exact hquiet

/-! ## Parts of actions -/

theorem Quiet.bind {x : Work α} {f : α → Work β} (hx : Quiet x) (hf : ∀ a, Quiet (f a)) :
    Quiet (x >>= f) := by
  intro w
  cases h : x.run w with
  | error e w' =>
    rw [bind_of_error h]
    exact hx.error h
  | ok a w' =>
    rw [bind_of_ok h, ← hx.ok h]
    exact hf a w'

theorem quiet_pure (a : α) : Quiet (pure a : Work α) := fun _ => rfl

theorem quiet_get : Quiet (get : Work Workbench) := fun _ => rfl

theorem quiet_modify {f : Workbench → Workbench} (hf : ∀ w, (f w).issues = w.issues) :
    Quiet (modify f) := fun w => hf w

theorem quiet_misuse (e : Misuse) : Quiet (throw (.misuse e) : Work α) := fun _ => ⟨rfl, e, rfl⟩

theorem quiet_check (r : Except Misuse Unit) : Quiet (check r) := by
  cases r with
  | ok _ => exact quiet_pure _
  | error e => exact quiet_misuse e

theorem quiet_log (logger : String) (level : Level) (text : String) :
    Quiet (log logger level text) :=
  quiet_modify fun _ => rfl

theorem quiet_setGraph (g : Graph) : Quiet (setGraph g) := quiet_modify fun _ => rfl

theorem quiet_invalidate : Quiet invalidate := quiet_modify fun _ => rfl

theorem quiet_forM {f : α → Work Unit} (hf : ∀ a, Quiet (f a)) (items : List α) :
    Quiet (items.forM f) := by
  induction items with
  | nil => exact quiet_pure _
  | cons a items ih => exact (hf a).bind fun _ => ih

theorem quiet_forIn {f : α → β → Work (ForInStep β)} (hf : ∀ a b, Quiet (f a b)) (items : List α)
    (b : β) : Quiet (forIn items b f) := by
  induction items generalizing b with
  | nil => exact quiet_pure b
  | cons a items ih =>
    rw [List.forIn_cons]
    refine (hf a b).bind fun step => ?_
    cases step with
    | done b => exact quiet_pure b
    | yield b => exact ih b

theorem quiet_mapM {f : α → Work β} (hf : ∀ a, Quiet (f a)) (items : List α) :
    Quiet (items.mapM f) := by
  induction items with
  | nil => exact quiet_pure _
  | cons a items ih =>
    rw [List.mapM_cons]
    exact (hf a).bind fun _ => ih.bind fun _ => quiet_pure _

theorem quiet_foldlM {f : β → α → Work β} {items : List α}
    (hf : ∀ b, ∀ a ∈ items, Quiet (f b a)) (b : β) : Quiet (items.foldlM f b) := by
  induction items generalizing b with
  | nil => exact quiet_pure b
  | cons a items ih =>
    rw [List.foldlM_cons]
    exact (hf b a List.mem_cons_self).bind fun c =>
      ih (fun b' a' ha' => hf b' a' (List.mem_cons_of_mem _ ha')) c

/-! ## Facts, pruning and edits -/

theorem quiet_facts : Quiet facts := by
  unfold facts
  refine quiet_get.bind fun w => ?_
  dsimp only
  split
  · exact quiet_pure _
  · refine (quiet_forM (fun _ => quiet_log _ _ _) _).bind fun _ => ?_
    split
    · refine Quiet.bind (quiet_modify fun _ => ?_) fun _ => quiet_pure _
      rfl
    · exact quiet_misuse _

theorem quiet_prune : Quiet prune := by
  unfold prune removeUnreachable merge
  refine (quiet_get.bind fun w => (quiet_check _).bind fun _ => ?_).bind fun dead => ?_
  · dsimp only
    split
    · exact quiet_pure _
    · refine (quiet_forIn (fun _ _ => (quiet_log _ _ _).bind fun _ => quiet_pure _) _ _).bind
        fun _ => ?_
      exact (quiet_setGraph _).bind fun _ => quiet_pure _
  · dsimp only
    split
    · refine (quiet_get.bind fun w => (quiet_check _).bind fun _ => ?_).bind
        fun _ => quiet_pure _
      split
      · exact quiet_pure _
      · exact (quiet_setGraph _).bind fun _ => (quiet_log _ _ _).bind fun _ => quiet_pure _
    · exact quiet_pure _

theorem quiet_warnOfUid (e : Edit) (before after : String) : Quiet (warnOfUid e before after) := by
  unfold warnOfUid
  split
  · exact quiet_log _ _ _
  · exact quiet_pure _

theorem quiet_logQueued (e : Edit) : Quiet (logQueued e) := quiet_log _ _ _

theorem quiet_warnFailed (e : Edit) : Quiet (warnFailed e) := quiet_warnOfUid e _ _

theorem quiet_logCoalesced (edits : List Edit) : Quiet (logCoalesced edits) := by
  unfold logCoalesced
  refine (quiet_forIn (fun _ _ => (quiet_warnOfUid _ _ _).bind fun _ => quiet_pure _) _ _).bind
    fun _ => ?_
  have hcount (dropped : Nat) (text : String) : Quiet (do
      if 0 < dropped then log "CFEX.pass" Level.debug text
      return dropped : Work Nat) := by
    split
    · exact (quiet_log _ _ _).bind fun _ => quiet_pure _
    · exact quiet_pure _
  dsimp only
  split
  · exact (quiet_misuse _).bind fun _ => hcount _ _
  · exact hcount _ _

theorem quiet_applySound (edits : List Edit) : Quiet (applySound edits) := by
  unfold applySound
  refine quiet_get.bind fun w => ?_
  dsimp only
  refine (quiet_forM quiet_warnFailed _).bind fun _ => ?_
  exact (quiet_setGraph _).bind fun _ => quiet_misuse _

theorem quiet_applyEdits (edits : List Edit) : Quiet (applyEdits edits) := by
  have hmake : Quiet (do
      let outcome := (← get).graph.edited edits
      outcome.failed.forM warnFailed
      setGraph outcome.graph
      if 0 < outcome.count then check outcome.graph.checkLasts
      log "CFEX.pass" Level.debug
        ("Applied " ++ toString outcome.count ++ "/" ++ toString outcome.kept.length
          ++ " modifications")
      return outcome.count : Work Nat) := by
    refine quiet_get.bind fun w => (quiet_forM quiet_warnFailed _).bind fun _ => ?_
    refine (quiet_setGraph _).bind fun _ => ?_
    split
    · exact (quiet_check _).bind fun _ => (quiet_log _ _ _).bind fun _ => quiet_pure _
    · exact (quiet_log _ _ _).bind fun _ => quiet_pure _
  unfold applyEdits
  dsimp only
  split
  · exact quiet_pure _
  · refine (quiet_logCoalesced edits).bind fun _ => ?_
    split
    · exact (quiet_applySound _).bind fun _ => hmake
    · exact hmake

theorem quiet_relink : Quiet relink := by
  unfold relink
  refine quiet_get.bind fun w => (quiet_setGraph _).bind fun _ => (quiet_check _).bind fun _ => ?_
  dsimp only
  split
  · exact (quiet_log _ _ _).bind fun _ => quiet_pure _
  · exact quiet_pure _

theorem quiet_reconstruct : Quiet reconstruct :=
  quiet_relink.bind fun _ => quiet_get.bind fun _ => quiet_pure _

end Work

open Work

/-! ## The stages -/

namespace Stage

theorem quiet_resolveSwitches : Quiet resolveSwitches := by
  unfold resolveSwitches
  refine quiet_facts.bind fun facts => quiet_get.bind fun w => ?_
  dsimp only
  refine Quiet.bind (quiet_forIn (fun b r => ?_) _ _) fun r => ?_
  · split
    · split
      · exact quiet_pure _
      · refine (quiet_check _).bind fun _ => ?_
        split
        · exact quiet_pure _
        · exact (quiet_log _ _ _).bind fun _ => quiet_pure _
        · exact (quiet_forM quiet_logQueued _).bind fun _ => quiet_pure _
    · exact quiet_pure _
  · split
    · exact (quiet_applyEdits _).bind fun _ => (quiet_log _ _ _).bind fun _ => quiet_pure _
    · exact quiet_pure _

theorem quiet_eliminateJunk : Quiet eliminateJunk := by
  unfold eliminateJunk
  refine quiet_get.bind fun w => ?_
  dsimp only
  refine (quiet_forM quiet_logQueued _).bind fun _ => (quiet_applyEdits _).bind fun _ => ?_
  split
  · exact (quiet_log _ _ _).bind fun _ => quiet_pure _
  · exact quiet_pure _

theorem quiet_foldEvent (event : FoldEvent) : Quiet (foldEvent event) := by
  unfold foldEvent
  split
  · exact (quiet_logQueued _).bind fun _ => quiet_pure _
  · exact quiet_facts.bind fun _ => quiet_pure _
  · exact (quiet_log _ _ _).bind fun _ => quiet_pure _
  · exact quiet_misuse _

theorem quiet_foldConstants (s : Stage) : Quiet s.foldConstants := by
  unfold foldConstants
  refine quiet_get.bind fun w => ?_
  dsimp only
  refine (quiet_mapM quiet_foldEvent _).bind fun _ => ?_
  split
  · exact (quiet_applyEdits _).bind fun _ => (quiet_log _ _ _).bind fun _ => quiet_pure _
  · exact quiet_pure _

/-- All stages but the last note no defects. -/
theorem quiet_run {s : Stage} (hs : s.kind ≠ .exceptionReconciler) : Quiet s.run := by
  unfold run
  split
  · exact quiet_resolveSwitches
  · exact quiet_eliminateJunk
  · exact quiet_foldConstants s
  · rename_i hkind
    exact absurd hkind hs

theorem quiet_warnUnknown (s : Stage) : Quiet s.warnUnknown :=
  quiet_forM (fun _ => quiet_log _ _ _) _

end Stage

namespace Pipeline

theorem quiet_resolveAgain {s : Stage} (hs : Quiet s.run) (rounds : Nat)
    (changes : List (String × Nat)) : Quiet (resolveAgain s rounds changes) := by
  induction rounds generalizing changes with
  | zero => exact quiet_pure _
  | succ rounds ih =>
    unfold resolveAgain
    refine quiet_prune.bind fun dead => quiet_invalidate.bind fun _ => hs.bind fun count => ?_
    dsimp only
    split
    · exact quiet_pure _
    · exact ih _

theorem quiet_runStage {s : Stage} (hs : s.kind ≠ .exceptionReconciler)
    (changes : List (String × Nat)) : Quiet (runStage changes s) := by
  unfold runStage
  refine (Stage.quiet_run hs).bind fun count => ?_
  dsimp only
  split
  · exact quiet_pure _
  · refine (quiet_log _ _ _).bind fun _ => quiet_invalidate.bind fun _ => ?_
    split
    · exact quiet_get.bind fun _ => quiet_resolveAgain (Stage.quiet_run hs) _ _
    · exact quiet_pure _

theorem quiet_countLoops : Quiet countLoops := by
  unfold countLoops
  refine quiet_get.bind fun w => (quiet_check _).bind fun _ => ?_
  dsimp only
  split
  · exact (quiet_log _ _ _).bind fun _ => quiet_pure _
  · exact quiet_pure _

theorem quiet_prepare (settings : Settings) (kind : StageKind) :
    Quiet (prepare settings kind) := by
  unfold prepare
  split
  · exact (Stage.quiet_warnUnknown _).bind fun _ => quiet_pure _
  · exact quiet_misuse _

end Pipeline

end Untangle
