/-
  Untangle.Proofs.Abstract.Closed

  Entry stacks that fit together: the stack after a block knows every integer that is known
  in front of the blocks it leads to. Wherever such stacks come from, they describe the
  real stack in front of every block that a run comes to, and the facts found with them are
  true of the run. What an analysis ends with is more, a solution of the flow of stacks
  (`Solution`): roots have their own stacks, and behind an edge to another block no more is
  known, of the depth either, than in front of it.
-/
import Untangle.Abstract.Analysis
import Untangle.Proofs.Abstract.Join
import Untangle.Proofs.Graph.Reach

namespace Untangle

open AbstractStack

/-- Entry stacks by label that fit together. -/
structure Closed (m : Machine) (g : Graph) (stackAt? : Int → Option AbstractStack) : Prop where
  root : ∀ l ∈ g.roots, ∃ s, stackAt? l = some s ∧ ∀ i, s.valueAt i = .unknown
  flow : ∀ b ∈ g.blocks, ∀ s, stackAt? b.label = some s → ∀ l ∈ b.succs,
    ∃ s', stackAt? l = some s' ∧ Within s' (AbstractStack.transfer m b.code s)

/-- Entry stacks by label that solve the flow of stacks. -/
structure Solution (m : Machine) (g : Graph) (stackAt? : Int → Option AbstractStack) :
    Prop where
  root : ∀ b ∈ g.blocks, ∀ r, g.rootStacks.lookup b.label = some r → stackAt? b.label = some r
  flow : ∀ b ∈ g.blocks, ∀ s, stackAt? b.label = some s → ∀ l ∈ b.succs,
    g.rootStacks.lookup l = none →
      ∃ s', stackAt? l = some s' ∧ Under s' (AbstractStack.transfer m b.code s)

/-- A block is entered with a stack that its entry stack describes. -/
def Enters (stackAt? : Int → Option AbstractStack) (l : Int) (σ : Moment) : Prop :=
  ∃ s, stackAt? l = some s ∧ s.Describes σ.stack

/-! ## Where control comes in -/

namespace Graph

/-- The stacks where control comes in are those of the entry and of the handlers. -/
theorem mem_rootStacks {g : Graph} {l : Int} {s : AbstractStack} (h : (l, s) ∈ g.rootStacks) :
    l ∈ g.roots ∧ ∀ i, s.valueAt i = .unknown := by
  rcases List.mem_append.mp h with h | h
  · obtain ⟨span, hspan, heq⟩ := List.mem_filterMap.mp (List.mem_reverse.mp h)
    obtain ⟨l', hl', hpair⟩ := Option.map_eq_some_iff.mp heq
    cases hpair
    refine ⟨List.mem_append_right _ (List.mem_filterMap.mpr ⟨span, hspan, hl'⟩), fun i => ?_⟩
    cases span.region.kind <;> cases i <;> rfl
  · obtain ⟨b, hb, hpair⟩ := Option.map_eq_some_iff.mp (Option.mem_toList.mp h)
    cases hpair
    refine ⟨List.mem_append_left _ (Option.mem_toList.mpr ?_), fun i => rfl⟩
    show g.entry?.map (·.label) = some b.label
    rw [hb]
    rfl

/-- There is a stack for every place where control comes in. -/
theorem rootStacks_isSome {g : Graph} {l : Int} (h : l ∈ g.roots) :
    ∃ s, g.rootStacks.lookup l = some s := by
  have hkey : ∃ s, (l, s) ∈ g.rootStacks := by
    rcases List.mem_append.mp h with h | h
    · obtain ⟨b, hb, hl⟩ := Option.map_eq_some_iff.mp (Option.mem_toList.mp h)
      refine ⟨.empty, List.mem_append_right _ (Option.mem_toList.mpr ?_)⟩
      show g.entry?.map (fun b => (b.label, AbstractStack.empty)) = _
      rw [hb, ← hl]
      rfl
    · obtain ⟨span, hspan, hl⟩ := List.mem_filterMap.mp h
      refine ⟨span.region.kind.entryStack, List.mem_append_left _ (List.mem_reverse.mpr ?_)⟩
      exact List.mem_filterMap.mpr ⟨span, hspan, by rw [hl]; rfl⟩
  obtain ⟨s, hs⟩ := hkey
  cases hlookup : g.rootStacks.lookup l with
  | some s => exact ⟨s, rfl⟩
  | none =>
    have := List.lookup_eq_none_iff.mp hlookup (l, s) hs
    simp at this

end Graph

/-- The entry stacks of a solution fit together. -/
theorem Solution.closed {m : Machine} {g : Graph} {stackAt? : Int → Option AbstractStack}
    (h : Solution m g stackAt?) (hformed : g.Formed) : Closed m g stackAt? := by
  have hroot (l : Int) (r : AbstractStack) (hr : g.rootStacks.lookup l = some r) :
      stackAt? l = some r ∧ ∀ i, r.valueAt i = .unknown := by
    obtain ⟨hl, hnone⟩ := Graph.mem_rootStacks (mem_of_lookup hr)
    obtain ⟨b, hb, rfl⟩ := List.mem_map.mp (hformed.roots_subset hl)
    exact ⟨h.root b hb r hr, hnone⟩
  constructor
  case root =>
    intro l hl
    obtain ⟨r, hr⟩ := Graph.rootStacks_isSome hl
    exact ⟨r, hroot l r hr⟩
  case flow =>
    intro b hb s hs l hl
    cases hr : g.rootStacks.lookup l with
    | some r =>
      refine ⟨r, (hroot l r hr).1, fun i n hn => ?_⟩
      rw [(hroot l r hr).2 i] at hn
      cases hn
    | none =>
      obtain ⟨s', hs', hunder⟩ := h.flow b hb s hs l hl hr
      exact ⟨s', hs', fun i => (hunder.values i).within⟩

/-- The blocks of a graph with entry stacks; nothing is known where there is none. -/
def arrivalsOf (g : Graph) (stackAt? : Int → Option AbstractStack) : List Arrival :=
  g.blocks.map fun b => (b, (stackAt? b.label).getD .unknown)

namespace Graph.Formed

variable {g : Graph}

/-- No instruction of a block but the last is a branch. -/
theorem isBranch_dropLast (h : g.Formed) {e : Int × List Instruction} (he : e ∈ g.outline)
    {ins : Instruction} (hins : ins ∈ e.2.dropLast) : ins.isBranch = false := by
  have := h.straight e he ins hins
  rw [Instruction.endsRun, Bool.or_eq_false_iff] at this
  exact this.1

end Graph.Formed

namespace Closed

variable {m : Machine} {g : Graph} {stackAt? : Int → Option AbstractStack}

/-- Any run may come in at a root. -/
theorem enters_root (h : Closed m g stackAt?) {l : Int} (hl : l ∈ g.roots) (σ : Moment) :
    Enters stackAt? l σ := by
  obtain ⟨s, hs, hnone⟩ := h.root l hl
  exact ⟨s, hs, describes_of_forall hnone σ.stack⟩

/-- Wherever a run goes, the entry stacks describe the real stack. -/
theorem keeps (h : Closed m g stackAt?) (hformed : g.Formed) (hlinked : g.Linked) {P : Platform}
    (hP : P.terminators = g.terminators) (hmachine : P.machine = m) :
    Outline.Keeps P g.outline (Enters stackAt?) := by
  refine hformed.keeps hP fun e he l hleads σ τ henters hgoes => ?_
  obtain ⟨s, hs, hdescribes⟩ := henters
  obtain ⟨b, hb, hlabel, hcode⟩ := Graph.exists_block_of_mem he
  rw [← hlabel] at hs hleads
  obtain ⟨s', hs', hwithin⟩ := h.flow b hb s hs l ((hlinked.succs b hb l).mpr hleads)
  refine ⟨s', hs', hwithin.describes ?_⟩
  rw [hcode, ← hmachine]
  exact (hdescribes.transfer P fun ins hins => hformed.isBranch_dropLast he hins).describes hgoes

end Closed

/-! ## Facts -/

namespace Arrival

theorem factsOf_uids (m : Machine) (code : List Instruction) (s : AbstractStack) :
    (factsOf m code s).map (·.uid) = code.map (·.uid) := by
  induction code generalizing s with
  | nil => rfl
  | cons ins code ih =>
    show ins.uid :: (factsOf m code _).map _ = _
    rw [ih]
    rfl

/-- The fact about an instruction comes from running the code in front of it. -/
theorem mem_factsOf (m : Machine) (before : List Instruction) (ins : Instruction)
    (rest : List Instruction) (s : AbstractStack) :
    (⟨ins.uid, (AbstractStack.step m ins (AbstractStack.transfer m before s)).2,
      (AbstractStack.transfer m before s).depth?⟩ : Fact)
      ∈ factsOf m (before ++ ins :: rest) s := by
  induction before generalizing s with
  | nil => exact List.mem_cons_self
  | cons i before ih => exact List.mem_cons_of_mem _ (ih _)

/-- The fact that is found about an instruction. -/
theorem find?_facts {g : Graph} {arrivals : List Arrival} (hblocks : arrivals.map (·.1) = g.blocks)
    (hnodup : (g.code.map (·.uid)).Nodup) {m : Machine} {b : Block} {s : AbstractStack}
    (hb : (b, s) ∈ arrivals) {before rest : List Instruction} {ins : Instruction}
    (hsplit : b.code = before ++ ins :: rest) :
    (facts m arrivals).find? ins.uid
      = some ⟨ins.uid, (AbstractStack.step m ins (AbstractStack.transfer m before s)).2,
          (AbstractStack.transfer m before s).depth?⟩ := by
  have huids : (facts m arrivals).entries.map (·.uid) = g.code.map (·.uid) := by
    unfold facts Graph.code
    rw [← hblocks, List.map_flatMap, List.map_flatMap, List.flatMap_map]
    congr 1
    funext a
    exact factsOf_uids m a.1.code a.2
  have hmem : (⟨ins.uid, (AbstractStack.step m ins (AbstractStack.transfer m before s)).2,
      (AbstractStack.transfer m before s).depth?⟩ : Fact) ∈ (facts m arrivals).entries := by
    refine List.mem_flatMap.mpr ⟨(b, s), hb, ?_⟩
    show _ ∈ factsOf m b.code s
    rw [hsplit]
    exact mem_factsOf m before ins rest s
  rw [← huids] at hnodup
  exact find?_of_nodup (fun f : Fact => f.uid) hnodup hmem

end Arrival

/-- The integer that is known of an instruction. -/
theorem knownInt?_eq {g : Graph} {arrivals : List Arrival}
    (hblocks : arrivals.map (·.1) = g.blocks) (hnodup : (g.code.map (·.uid)).Nodup) {m : Machine}
    {b : Block} {s : AbstractStack} (hb : (b, s) ∈ arrivals)
    {before rest : List Instruction} {ins : Instruction}
    (hsplit : b.code = before ++ ins :: rest) :
    (Arrival.facts m arrivals).knownInt? ins.uid
      = (AbstractStack.step m ins (AbstractStack.transfer m before s)).2.bind
          AbstractValue.integer? := by
  rw [Facts.knownInt?, Arrival.find?_facts hblocks hnodup hb hsplit]
  rfl

end Untangle
