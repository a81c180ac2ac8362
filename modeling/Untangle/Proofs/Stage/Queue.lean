/-
  Untangle.Proofs.Stage.Queue

  Edits that are queued on a session and made when they are asked for. Queueing changes nothing
  but the queue, and making the edits leaves the graph that one sweep over its blocks gives
  (`Session.queued_sweep`), whatever order they were queued in.
-/
import Untangle.Proofs.Graph.Sweep
import Untangle.Proofs.Stage.Work
import Untangle.Stage.Session

namespace Untangle

/-! ## Targets after a sweep -/

namespace Edit

variable {edits : List Edit} {number : Int → Int} {ins j : Instruction}

/-- What takes the place of an instruction has targets that can be looked up, if the instruction
    has and the edits name numbers. -/
theorem checkTargets_outcome (hins : ins.checkTargets = .ok ())
    (htargets : ∀ e ∈ edits, ∀ t, e.change = .toBranch t → ∃ n, t = .int n)
    (hj : j ∈ outcome edits number ins) : j.checkTargets = .ok () := by
  rcases mem_outcome hj with rfl | ⟨op, -, rfl⟩
  · unfold turned
    split
    · rfl
    · split
      · rename_i t ht
        obtain ⟨e, he, -, hpick⟩ := exists_of_asked ht
        have hchange : e.change = .toBranch t := by
          cases hc : e.change <;> rw [hc] at hpick <;> cases hpick
          rfl
        obtain ⟨n, rfl⟩ := htargets e he t hchange
        rfl
      · exact hins
  · cases op <;> rfl

end Edit

namespace Graph

open Edit

variable {g : Graph} {edits : List Edit}

theorem checkLasts_sweep (hcheck : g.checkTargets = .ok ())
    (htargets : ∀ e ∈ edits, ∀ t, e.change = .toBranch t → ∃ n, t = .int n)
    (number : Int → Int) : (g.sweep edits number).checkLasts = .ok () := by
  have hcode : ∀ ins ∈ g.code, ins.checkTargets = .ok () := forM_eq_ok.mp hcheck
  refine checkLasts_of_code fun j hj => ?_
  unfold sweep at hj
  split at hj
  · exact hcode j hj
  · rw [connected_code, code_swept] at hj
    obtain ⟨ins, hins, hj⟩ := List.mem_flatMap.mp hj
    exact checkTargets_outcome (hcode ins hins) (fun e he =>
      htargets e (firsts_subset edits (List.mem_of_mem_filter he))) hj

end Graph

namespace Session

open Edit Graph

variable {s s' : Session} {e : Edit} {edits edits' : List Edit}

/-- Queues edits one after the other. -/
def queueAll (edits : List Edit) : Act Unit :=
  edits.forM fun e => do let _ ← queueEdit e

/-- Queueing an edit leaves the graph alone. -/
theorem queueEdit_run (s : Session) (e : Edit) :
    ∃ bench n, (queueEdit e).run s
        = .ok n ⟨bench, { s.queue with edits := s.queue.edits ++ [e] }⟩ ∧ s.bench.Alike bench :=
  ⟨_, _, rfl, rfl, rfl, rfl, rfl⟩

theorem bind_of_ok {α β : Type} {x : Act α} {f : α → Act β} {a : α} (h : x.run s = .ok a s') :
    (x >>= f).run s = (f a).run s' := by
  change x s = _ at h
  show EStateM.bind x f s = _
  unfold EStateM.bind
  rw [h]
  rfl

/-- The edits of a run of calls wait in the order of the calls. -/
theorem queueAll_run (s : Session) (edits : List Edit) :
    ∃ bench, (queueAll edits).run s
        = .ok () ⟨bench, { s.queue with edits := s.queue.edits ++ edits }⟩
      ∧ s.bench.Alike bench := by
  induction edits generalizing s with
  | nil =>
    refine ⟨s.bench, ?_, .refl _⟩
    rw [List.append_nil]
    rfl
  | cons e edits ih =>
    obtain ⟨bench₁, n, hfirst, halike₁⟩ := queueEdit_run s e
    obtain ⟨bench₂, hrest, halike₂⟩ := ih ⟨bench₁, { s.queue with edits := s.queue.edits ++ [e] }⟩
    refine ⟨bench₂, ?_, halike₁.trans halike₂⟩
    have hone : (do let _ ← queueEdit e : Act Unit).run s
        = .ok () ⟨bench₁, { s.queue with edits := s.queue.edits ++ [e] }⟩ := bind_of_ok hfirst
    show ((do let _ ← queueEdit e : Act Unit) >>= fun _ => queueAll edits).run s = _
    rw [bind_of_ok hone, hrest, List.append_assoc]
    rfl

/-- Making the edits of a queue once is making them on the bench. -/
theorem applyQueue_run (hnames : ∀ e ∈ edits, ∃ l u : Int, e.block = .int l ∧ e.uid = .int u)
    (hqueue : s.queue = { edits }) :
    ∃ s', s'.bench.graph = (s.bench.graph.edited edits).graph
      ∧ applyQueue.run s
        = match (if 0 < (s.bench.graph.edited edits).count
            then (s.bench.graph.edited edits).graph.checkLasts else .ok ()) with
          | .ok _ => .ok (s.bench.graph.edited edits).count s'
          | .error m => .error (.misuse m) s' := by
  obtain ⟨bench, halike, hrun⟩ := Work.applyEdits_ends (w := s.bench) hnames
  refine ⟨⟨bench, ⟨coalesced edits, true⟩⟩, halike.graph, ?_⟩
  have hkeys : (edits.all (·.uid.isKey)) = true := List.all_eq_true.mpr fun e he => by
    obtain ⟨l, u, -, huid⟩ := hnames e he
    rw [huid]
    rfl
  have hstart : applyQueue.run s
      = (onBench (Work.applyEdits edits)).run ⟨s.bench, ⟨coalesced edits, true⟩⟩ := by
    obtain ⟨w, q⟩ := s
    cases hqueue
    show ((if edits.all (·.uid.isKey) = true then do
        modify fun s => { s with queue := ⟨coalesced edits, true⟩ }
        onBench (Work.applyEdits edits)
      else onBench (Work.applyEdits edits) : Act Nat)).run ⟨w, ⟨edits, true⟩⟩ = _
    rw [if_pos hkeys]
    rfl
  rw [hstart]
  show onBench (Work.applyEdits edits) _ = _
  unfold onBench
  dsimp only
  rw [hrun]
  cases (if 0 < (s.bench.graph.edited edits).count
    then (s.bench.graph.edited edits).graph.checkLasts else .ok ()) <;> rfl

/-- Edits queued one after the other and then made once are one sweep over the blocks by the edits
    that count, and their number is the result. Edits queued in another order, with those of one
    kind to one instruction as before, come to the same, besides the numbers of new instructions.
    Only a target that cannot be looked up at the end of a block is refused, after the sweep; there
    is none if there was none and branches are made to numbers. -/
theorem queued_sweep (hqueue : s.queue = {}) (huids : (s.bench.graph.code.map (·.uid)).Nodup)
    (haddressed : ∀ e ∈ edits, e.Addressed s.bench.graph)
    (hrearranged : Rearranged edits edits') :
    ∃ s', s'.bench.graph = s.bench.graph.sweep edits
          (numbers s.bench.graph.fresh (counted s.bench.graph edits'))
      ∧ (do queueAll edits'; applyQueue : Act Nat).run s
        = (match (if (counted s.bench.graph edits).isEmpty then .ok ()
            else s'.bench.graph.checkLasts) with
          | .ok _ => .ok (counted s.bench.graph edits).length s'
          | .error m => .error (.misuse m) s')
      ∧ (s.bench.graph.checkTargets = .ok () →
          (∀ e ∈ edits, ∀ t, e.change = .toBranch t → ∃ n, t = .int n) →
          (do queueAll edits'; applyQueue : Act Nat).run s
            = .ok (counted s.bench.graph edits).length s') := by
  have hints : ∀ e ∈ edits, ∃ u, e.uid = .int u := fun e he => (haddressed e he).ints
  have haddressed' : ∀ e ∈ edits', e.Addressed s.bench.graph := fun e he =>
    haddressed e (hrearranged.perm.mem_iff.mpr he)
  -- Queueing leaves the graph alone.
  obtain ⟨bench, hqueued, halike⟩ := queueAll_run s edits'
  rw [hqueue] at hqueued
  obtain ⟨s', hgraph, hrun⟩ := applyQueue_run (s := ⟨bench, { edits := edits' }⟩) (fun e he => by
    obtain ⟨l, u, hblock, huid, -⟩ := haddressed' e he
    exact ⟨l, u, hblock, huid⟩) rfl
  -- Making the edits is a sweep, the same for both orders.
  obtain ⟨hswept, hcount, -⟩ := edited_eq_sweep huids haddressed'
  have hlength := (hrearranged.counted_perm (g := s.bench.graph) hints).length_eq
  rw [← hrearranged.sweep_eq hints] at hswept
  rw [← hlength] at hcount
  rw [halike.graph] at hgraph hrun
  have hall : (do queueAll edits'; applyQueue : Act Nat).run s
      = (match (if (counted s.bench.graph edits).isEmpty then .ok ()
          else s'.bench.graph.checkLasts) with
        | .ok _ => .ok (counted s.bench.graph edits).length s'
        | .error m => .error (.misuse m) s') := by
    rw [bind_of_ok hqueued]
    refine hrun.trans ?_
    rw [← hgraph, hcount]
    cases counted s.bench.graph edits with
    | nil => rfl
    | cons e rest => rfl
  refine ⟨s', hgraph.trans hswept, hall, fun hcheck htargets => ?_⟩
  have hlasts := checkLasts_sweep hcheck htargets
    (numbers s.bench.graph.fresh (counted s.bench.graph edits'))
  rw [hall, hgraph, hswept, hlasts, ite_self]

/-- An addition of two constants, in front of the end of the method. -/
def summing : Session where
  bench := {
    analysis := {}
    graph := {
      blocks :=
        [{ label := 0
           code :=
            [{ opcode := some .pushConst, operand := .value (.int 1), uid := 0 },
             { opcode := some .pushConst, operand := .value (.int 2), uid := 1 },
             { opcode := some .arith, operand := .operation .add, uid := 2 }]
           succs := [3]
           isEntry := true },
         { label := 3, code := [{ opcode := some .other, uid := 3, mnemonic := .str "ret" }]
           preds := [0] }]
      terminators := Graph.usualTerminators
      fresh := 4 } }

/-- Edits that overlap, two of them given: an instruction is removed that another edit changes
    first, a second constant comes too late, and the last edit names the wrong block. -/
def overlapping (second third : Edit) : List Edit :=
  { change := .remove, block := .int 0, uid := .int 1 } :: second :: third ::
    [{ change := .toConstant (.int 9), block := .int 0, uid := .int 2 },
     { change := .toBranch (.int 3), block := .int 0, uid := .int 2 },
     { change := .toConstant (.int 4), block := .int 0, uid := .int 2 },
     { change := .remove, block := .int 3, uid := .int 0 }]

theorem queued_sweep_overlapping :
    let before : Edit := { change := .insertBefore .dup, block := .int 0, uid := .int 1 }
    let behind : Edit := { change := .insertBefore .nop, block := .int 0, uid := .int 2 }
    summing.queue = {} ∧ (summing.bench.graph.code.map (·.uid)).Nodup
      ∧ (∀ e ∈ overlapping before behind, e.Addressed summing.bench.graph)
      ∧ Rearranged (overlapping before behind) (overlapping behind before)
      ∧ ∃ s', (do queueAll (overlapping behind before); applyQueue : Act Nat).run summing = .ok 5 s'
        ∧ s'.bench.graph.code.map (fun ins => (ins.opcode, ins.uid))
          = [(some .pushConst, 0), (some .dup, 5), (some .nop, 4), (some .pushConst, 2),
              (some .other, 3)] := by
  intro before behind
  have huids : (summing.bench.graph.code.map (·.uid)).Nodup := by decide
  have haddressed : ∀ e ∈ overlapping before behind, e.Addressed summing.bench.graph := by
    intro e he
    simp only [overlapping, List.mem_cons, List.not_mem_nil, or_false] at he
    rcases he with rfl | rfl | rfl | rfl | rfl | rfl | rfl <;>
      exact ⟨_, _, rfl, rfl, by decide⟩
  have hrearranged : Rearranged (overlapping before behind) (overlapping behind before) :=
    .swap ⟨1, rfl⟩ ⟨2, rfl⟩ rfl [_] _
  refine ⟨rfl, huids, haddressed, hrearranged, ?_⟩
  obtain ⟨s', hgraph, hrun, -⟩ := queued_sweep rfl huids haddressed hrearranged
  rw [hgraph] at hrun
  refine ⟨s', hrun, ?_⟩
  rw [hgraph]
  rfl

end Session

end Untangle
