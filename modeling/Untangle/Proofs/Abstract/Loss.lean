/-
  Untangle.Proofs.Abstract.Loss

  What the fixed-point solver can lose to the single pass. The single pass carries a stack
  from a block into the next one if nothing else leads there. The solver visits such a block
  again whenever it visits the one before again, and joins the stacks that come in; and a join
  gives up when the depth of a stack is not known. That is the only way to lose something
  (`Solver.known_or_given_up`): where the single pass knows the depth, the solver visits a
  block once only (`Once`), and where the solver has not given up, it knows the integers that
  the single pass knows.
-/
import Untangle.Proofs.Abstract.Analysis
import Untangle.Proofs.Graph.Build
import Untangle.Proofs.Graph.Merge
import Mathlib.Logic.Relation

namespace Untangle

open AbstractStack

/-! ## How the depth comes to be known -/

namespace AbstractStack

variable {m : Machine}

theorem depthKnown_of_popMany {n : Nat} {s : AbstractStack}
    (h : (s.popMany n).2.depthKnown = true) : s.depthKnown = true := by
  induction n generalizing s with
  | zero => exact h
  | succ n ih =>
    have hpop := ih (s := s.pop.2) h
    rw [depthKnown_pop, Bool.and_eq_true] at hpop
    exact hpop.1

/-- Only leaving a region makes a depth known that was not. -/
theorem step_depthKnown {ins : Instruction} {s : AbstractStack}
    (h : (step m ins s).1.depthKnown = true) :
    s.depthKnown = true ∨ ins.opcode = some .leave := by
  have hpop (h : s.pop.2.depthKnown = true) : s.depthKnown = true :=
    depthKnown_of_popMany (n := 1) h
  unfold step at h
  cases hop : ins.opcode with
  | none =>
    rw [hop] at h
    dsimp only at h
    cases heffect : ins.declaredEffect with
    | none => rw [heffect] at h; cases h
    | some effect => rw [heffect] at h; exact Or.inl (depthKnown_of_popMany h)
  | some op =>
    rw [hop] at h
    cases op with
    | pushConst => exact Or.inl h
    | loadLocal => exact Or.inl h
    | storeLocal => exact Or.inl (hpop h)
    | switch => exact Or.inl (hpop h)
    | arith =>
      dsimp only at h
      cases hoperand : ins.operand with
      | value v => rw [hoperand] at h; cases h
      | operation op => rw [hoperand] at h; exact Or.inl (depthKnown_of_popMany h)
    | dup => exact Or.inl (hpop h)
    | pop => exact Or.inl (hpop h)
    | nop => exact Or.inl h
    | branch => exact Or.inl h
    | condBranch => exact Or.inl (depthKnown_of_popMany h)
    | leave => exact Or.inr rfl
    | sizeOf => exact Or.inl h
    | other =>
      dsimp only at h
      cases heffect : ins.declaredEffect with
      | none => rw [heffect] at h; cases h
      | some effect => rw [heffect] at h; exact Or.inl (depthKnown_of_popMany h)

/-- After a block the depth is known if it was in front of it, or because the block leaves a
    region: then the stack is empty, whatever it was. -/
theorem transfer_depthKnown {code : List Instruction} {s : AbstractStack}
    (hstraight : ∀ ins ∈ code.dropLast, ins.isBranch = false)
    (h : (transfer m code s).depthKnown = true) :
    s.depthKnown = true ∨ ∀ t, transfer m code t = empty := by
  induction code generalizing s with
  | nil => exact Or.inl h
  | cons ins code ih =>
    cases code with
    | nil =>
      refine (step_depthKnown h).imp_right fun hleave t => ?_
      show (step m ins t).1 = empty
      unfold step
      rw [hleave]
    | cons j code =>
      rcases ih (fun i hi => hstraight i (List.mem_cons_of_mem _ hi)) h with hknown | hempty
      · refine (step_depthKnown hknown).imp_right fun hleave => ?_
        have hbranch := hstraight ins List.mem_cons_self
        cases (Instruction.isBranch_of_opcode hleave).symm.trans hbranch
      · exact Or.inr fun t => hempty _

end AbstractStack

/-! ## What the single pass carries -/

namespace Forward

/-- The single pass carries its stack from one block into another: they are next to each
    other, nothing else leads to the second, and control does not come in there. -/
structure Carries (g : Graph) (p c : Block) : Prop where
  mem : p ∈ g.blocks
  only : isOnly p.label c.preds = true
  inner : g.rootStacks.lookup c.label = none
  next : ∃ front rest, g.blocks = front ++ p :: c :: rest

variable {m : Machine} {g : Graph}

/-- The single pass enters a block with the stack of a root, or knowing nothing, or with what
    it carries there. -/
theorem stackAt?_cases (hnodup : g.labels.Nodup) {c : Block} (hc : c ∈ g.blocks)
    {s : AbstractStack} (h : stackAt? m g c.label = some s) :
    g.rootStacks.lookup c.label = some s ∨ s = .unknown
      ∨ ∃ p sp, Carries g p c ∧ stackAt? m g p.label = some sp ∧ s = transfer m p.code sp := by
  obtain ⟨s', hs'⟩ := exists_arrival (m := m) hc
  rw [entry?_of_mem hnodup hs'] at h
  cases h
  rcases arrivals_cases hs' with hroot | ⟨-, hs⟩
    | ⟨hnone, front, p, sp, rest, hsplit, hp, honly, hs⟩
  · exact Or.inl hroot
  · exact Or.inr (Or.inl hs)
  · have hmem : p ∈ g.blocks := hsplit ▸ List.mem_append_right _ List.mem_cons_self
    exact Or.inr (Or.inr ⟨p, sp, ⟨hmem, honly, hnone, front, rest, hsplit⟩,
      entry?_of_mem hnodup hp, hs⟩)

theorem Carries.mem_right {p c : Block} (h : Carries g p c) : c ∈ g.blocks := by
  obtain ⟨front, rest, hsplit⟩ := h.next
  rw [hsplit]
  exact List.mem_append_right _ (List.mem_cons_of_mem _ List.mem_cons_self)

/-- Nothing else leads to a block into which the single pass carries its stack. -/
theorem Carries.eq_of_mem_succs {p c : Block} (h : Carries g p c) (hformed : g.Formed)
    (hlinked : g.Linked) {b : Block} (hb : b ∈ g.blocks) (hsucc : c.label ∈ b.succs) : b = p := by
  have hpred := (hlinked.preds c h.mem_right b.label).mpr ((hlinked.succs b hb c.label).mp hsucc)
  exact Graph.eq_of_label hformed.labels_nodup hb h.mem ((isOnly_iff.mp h.only).2 _ hpred)

/-- The single pass knows how deep the stack is that a block is entered with. -/
def Sure (m : Machine) (g : Graph) (c : Block) : Prop :=
  ∃ s, stackAt? m g c.label = some s ∧ s.depthKnown = true

/-- A block empties the stack. -/
def Empties (m : Machine) (b : Block) : Prop := ∀ t, transfer m b.code t = .empty

/-- Where control does not come in, the depth is known from the block before, or because that
    one empties the stack. -/
theorem Sure.cases (hformed : g.Formed) {c : Block} (hc : c ∈ g.blocks) (h : Sure m g c)
    (hinner : g.rootStacks.lookup c.label = none) :
    ∃ p, Carries g p c ∧ (Sure m g p ∨ Empties m p) := by
  obtain ⟨s, hs, hknown⟩ := h
  rcases stackAt?_cases hformed.labels_nodup hc hs with hroot | rfl | ⟨p, sp, hcarries, hp, rfl⟩
  · rw [hinner] at hroot
    cases hroot
  · cases hknown
  · have hstraight : ∀ ins ∈ p.code.dropLast, ins.isBranch = false := fun ins hins =>
      hformed.isBranch_dropLast (Graph.mem_outline_of_mem hcarries.mem) hins
    exact ⟨p, hcarries, (transfer_depthKnown hstraight hknown).imp_left fun hsp => ⟨sp, hp, hsp⟩⟩

end Forward

open Forward (Carries Sure Empties)

namespace Solver

variable {m : Machine} {g : Graph}

/-! ## Blocks of known depth are visited once -/

/-- What keeps the solver from visiting a block twice whose depth the single pass knows. -/
structure Once (m : Machine) (g : Graph) (s : Solver) : Prop where
  fresh : ∀ l, s.entries.lookup l = none → s.visits l = 0
  load : ∀ c ∈ g.blocks, Sure m g c → s.load c.label ≤ 1
  /-- A block is entered only after the one has been visited that its stack comes from. -/
  after : ∀ p c, Carries g p c → Sure m g p → (s.entries.lookup c.label).isSome →
    1 ≤ s.visits p.label
  empty : ∀ p c, Carries g p c → Empties m p → ∀ e, s.entries.lookup c.label = some e → e = .empty

/-- What holds besides while the edges of a block are followed: if its depth is known, this is
    its first visit, and the block that its stack is carried into has not been visited. -/
structure OnceMid (m : Machine) (g : Graph) (b : Block) (s : Solver) : Prop where
  once : Once m g s
  visited : 1 ≤ s.visits b.label
  ahead : Sure m g b → ∀ c, Carries g b c → s.visits c.label = 0

theorem Once.popped {s : Solver} {b : Block} {rest : List Int} (hready : Ready m g s b rest)
    (h : Once m g s) : Once m g (s.popped b rest) where
  fresh l hl := by
    have hne : b.label ≠ l := by
      rintro rfl
      cases hready.entry.symm.trans hl
    rw [visits_popped, if_neg hne]
    exact h.fresh l hl
  load c hc hsure := by
    rw [load_popped hready.consistent.queue_nodup hready.queue]
    exact h.load c hc hsure
  after p c hcarries hsure hsome := by
    rw [visits_popped]
    exact Nat.le_add_right_of_le (h.after p c hcarries hsure hsome)
  empty := h.empty

theorem Once.advanced {s : Solver} {b : Block} {rest : List Int} (hready : Ready m g s b rest)
    (h : Once m g s) : OnceMid m g b (s.advanced m b rest) := by
  have hpopped := h.popped hready
  refine ⟨⟨hpopped.fresh, hpopped.load, hpopped.after, hpopped.empty⟩, ?_, fun hsure c hc => ?_⟩
  · show 1 ≤ (s.popped b rest).visits b.label
    rw [visits_popped, if_pos rfl]
    omega
  · -- The block waits, so it has not been visited, and has told nothing to anyone.
    have hload := h.load b hready.mem hsure
    rw [load_of_mem (by rw [hready.queue]; exact List.mem_cons_self)] at hload
    have hnone : s.entries.lookup c.label = none := by
      refine Option.not_isSome_iff_eq_none.mp fun hsome => ?_
      have := h.after b c hc hsure hsome
      omega
    exact hpopped.fresh c.label hnone

theorem OnceMid.flow (hformed : g.Formed) (hlinked : g.Linked) {s : Solver} {b : Block}
    {e : AbstractStack} {l : Int} (hb : b ∈ g.blocks) (hl : l ∈ b.succs) (h : OnceMid m g b s) :
    OnceMid m g b (s.flow g.rootStacks (transfer m b.code e) l) := by
  rcases flow_cases g.rootStacks (transfer m b.code e) s l with
    ⟨hstays, -⟩ | ⟨hinner, new, henters, harrives⟩
  · rw [hstays]
    exact h
  · rw [henters]
    -- A block behind one that empties the stack is entered once only: with the empty stack.
    have hfirst (hempties : Empties m b) {c : Block} (hc : Carries g b c) (hcl : c.label = l) :
        s.entries.lookup l = none := by
      cases hold : s.entries.lookup l with
      | none => rfl
      | some old =>
        have hchanged := harrives.changed old hold
        rw [h.once.empty b c hc hempties old (hcl ▸ hold), hempties e] at hchanged
        cases hchanged
    refine ⟨⟨fun l' hl' => ?_, fun c hc hsure => ?_, fun p c hc hsure hsome => ?_,
      fun p c hc hempties e' he' => ?_⟩, ?_, fun hsure c hc => ?_⟩
    · rw [enter_visits]
      by_cases hne : l' = l
      · rw [hne, enter_entry_self] at hl'
        cases hl'
      · rw [enter_entry_of_ne s new hne] at hl'
        exact h.once.fresh l' hl'
    · by_cases hcl : c.label = l
      · obtain ⟨p, hcarries, hwhy⟩ := hsure.cases hformed hc (hcl ▸ hinner)
        obtain rfl := hcarries.eq_of_mem_succs hformed hlinked hb (hcl ▸ hl)
        have hunvisited : s.visits l = 0 := by
          rcases hwhy with hsure | hempties
          · exact hcl ▸ h.ahead hsure c hcarries
          · exact h.once.fresh l (hfirst hempties hcarries hcl)
        rw [hcl, load_enter_self, hunvisited]
      · rw [load_enter_of_ne s hcl]
        exact h.once.load c hc hsure
    · rw [enter_visits]
      by_cases hcl : c.label = l
      · obtain rfl := hc.eq_of_mem_succs hformed hlinked hb (hcl ▸ hl)
        exact h.visited
      · rw [enter_entry_of_ne s new hcl] at hsome
        exact h.once.after p c hc hsure hsome
    · by_cases hcl : c.label = l
      · obtain rfl := hc.eq_of_mem_succs hformed hlinked hb (hcl ▸ hl)
        have hnone := hfirst hempties hc hcl
        rw [hcl, enter_entry_self] at he'
        cases he'
        rw [harrives.first hnone (by rw [h.once.fresh l hnone]; decide), hempties]
      · rw [enter_entry_of_ne s new hcl] at he'
        exact h.once.empty p c hc hempties e' he'
    · rw [enter_visits]
      exact h.visited
    · rw [enter_visits]
      exact h.ahead hsure c hc

theorem start_once (m : Machine) (g : Graph) : Once m g (start g) where
  fresh _ _ := rfl
  load c _ _ := by
    show 0 + (if _ then 1 else 0) ≤ 1
    split <;> omega
  after p c hc _ hsome := by
    change (g.rootStacks.lookup c.label).isSome at hsome
    rw [hc.inner] at hsome
    cases hsome
  empty p c hc _ e he := by
    change g.rootStacks.lookup c.label = some e at he
    rw [hc.inner] at he
    cases he

/-! ## Knowing what the single pass knows -/

/-- The solver has given up a block that the single pass enters with an integer that it knows,
    without knowing the depth: it enters the block knowing nothing. -/
def GivenUp (m : Machine) (g : Graph) (s : Solver) (c : Block) : Prop :=
  (∃ F, Forward.stackAt? m g c.label = some F ∧ F.depthKnown = false
    ∧ ∃ i n, F.valueAt i = .known (.int n))
  ∧ s.entries.lookup c.label = some .unknown

/-- The solver has given up a block, or one from which the single pass carries its stack
    there. -/
def Lost (m : Machine) (g : Graph) (s : Solver) (b : Block) : Prop :=
  ∃ c, Relation.ReflTransGen (Carries g) c b ∧ GivenUp m g s c

/-- The solver knows the integers that the single pass knows, or has lost them. -/
def Knows (m : Machine) (g : Graph) (s : Solver) : Prop :=
  ∀ c ∈ g.blocks, ∀ F e, Forward.stackAt? m g c.label = some F →
    s.entries.lookup c.label = some e → Weakens AbstractValue.Within F e ∨ Lost m g s c

/-- What holds besides while the edges of a block are followed that was entered with a stack. -/
def KnowsMid (m : Machine) (g : Graph) (b : Block) (e : AbstractStack) (s : Solver) : Prop :=
  ∀ F, Forward.stackAt? m g b.label = some F →
    Weakens AbstractValue.Within F e ∨ Lost m g s b

/-- A block that is entered knowing nothing stays so. -/
theorem flow_blank {roots : List (Int × AbstractStack)} {out : AbstractStack} {s : Solver}
    {l l' : Int} (h : s.entries.lookup l' = some .unknown) :
    (s.flow roots out l).entries.lookup l' = some .unknown := by
  rcases flow_cases roots out s l with ⟨hstays, -⟩ | ⟨-, new, henters, harrives⟩
  · rw [hstays]
    exact h
  · rw [henters]
    by_cases hl : l' = l
    · cases harrives.changed _ (hl ▸ h)
    · rw [enter_entry_of_ne s new hl]
      exact h

theorem Lost.flow {roots : List (Int × AbstractStack)} {out : AbstractStack} {s : Solver}
    {l : Int} {c : Block} (h : Lost m g s c) : Lost m g (s.flow roots out l) c := by
  obtain ⟨c', hchain, hgiven⟩ := h
  exact ⟨c', hchain, hgiven.1, flow_blank hgiven.2⟩

/-- The solver enters a block knowing nothing: then it has given it up, or there was nothing
    to know. -/
theorem within_or_lost {s : Solver} {c : Block} {F : AbstractStack}
    (hF : Forward.stackAt? m g c.label = some F) (hdepth : F.depthKnown = false)
    (hblank : s.entries.lookup c.label = some .unknown) :
    Weakens AbstractValue.Within F .unknown ∨ Lost m g s c := by
  by_cases hknows : ∃ i n, F.valueAt i = .known (.int n)
  · exact Or.inr ⟨c, .refl, ⟨F, hF, hdepth, hknows⟩, hblank⟩
  · refine Or.inl ⟨fun h => absurd (hdepth.symm.trans h) Bool.false_ne_true, fun i n hn => ?_⟩
    exact absurd ⟨i, n, hn⟩ hknows

/-- Following an edge, the solver keeps what the single pass knows. -/
theorem Knows.flow (hformed : g.Formed) (hlinked : g.Linked) {s : Solver} {b : Block}
    {e : AbstractStack} {l : Int} (hb : b ∈ g.blocks) (hl : l ∈ b.succs)
    (honce : OnceMid m g b s) (hmid : KnowsMid m g b e s) (h : Knows m g s) :
    Knows m g (s.flow g.rootStacks (transfer m b.code e) l) := by
  rcases flow_cases g.rootStacks (transfer m b.code e) s l with
    ⟨hstays, -⟩ | ⟨hinner, new, henters, harrives⟩
  · rw [hstays]
    exact h
  · intro c hc F e' hF he'
    by_cases hcl : c.label = l
    · rw [henters, hcl, enter_entry_self] at he'
      obtain rfl := Option.some.inj he'
      rcases Forward.stackAt?_cases hformed.labels_nodup hc hF with
        hroot | rfl | ⟨p, Fp, hcarries, hFp, rfl⟩
      · rw [hcl, hinner] at hroot
        cases hroot
      · exact Or.inl (unknown_weakens AbstractValue.unknown_within _)
      · obtain rfl := hcarries.eq_of_mem_succs hformed hlinked hb (hcl ▸ hl)
        rcases hmid Fp hFp with hwithin | ⟨c', hchain, hgiven⟩
        · have hout := (within_congruent m).transfer b.code hwithin
          -- Whatever makes the solver give up, the depth is not known to the single pass.
          have hblank (hdepth : (transfer m b.code Fp).depthKnown = false) (hnew : new = .unknown) :
              Weakens AbstractValue.Within (transfer m b.code Fp) new
                ∨ Lost m g (s.flow g.rootStacks (transfer m b.code e) l) c := by
            rw [hnew]
            refine within_or_lost hF hdepth ?_
            rw [henters, hcl, enter_entry_self, hnew]
          by_cases htired : visitLimit ≤ s.visits l
          · refine hblank (Bool.eq_false_iff.mpr fun hknown => ?_) (harrives.tired htired).1
            have hload := honce.once.load c hc ⟨_, hF, hknown⟩
            have hvisits := visits_le_load s c.label
            rw [hcl] at hload hvisits
            have : visitLimit = 64 := rfl
            omega
          · have hfew := Nat.lt_of_not_le htired
            cases hold : s.entries.lookup l with
            | none =>
              rw [harrives.first hold hfew]
              exact Or.inl hout
            | some old =>
              rcases h c hc _ old hF (hcl ▸ hold) with hbefore | hlost
              · rcases Weakens.join AbstractValue.within_joins hbefore hout with hjoin | hgives
                · rw [harrives.joined old hold hfew]
                  exact Or.inl hjoin
                · exact hblank hgives.2 ((harrives.joined old hold hfew).trans hgives.1)
              · exact Or.inr hlost.flow
        · exact Or.inr (Lost.flow ⟨c', hchain.tail hcarries, hgiven⟩)
    · rw [henters, enter_entry_of_ne s new hcl] at he'
      exact (h c hc F e' hF he').imp_right Lost.flow

/-- In the end the solver knows what the single pass knows, or has lost it. -/
theorem solve_knows (hformed : g.Formed) (hlinked : g.Linked) {schedule : Schedule}
    (hstop : (solve m g schedule).stop = none) : Knows m g (solve m g schedule) := by
  have hkept : Kept m g (fun s => Once m g s ∧ Knows m g s)
      (fun b e s => OnceMid m g b s ∧ KnowsMid m g b e s ∧ Knows m g s) := by
    refine ⟨fun s b rest hready h => ⟨h.1.popped hready, h.2⟩,
      fun s b rest hready h => ⟨h.1.advanced hready, fun F hF => ?_, h.2⟩,
      fun s b e l hb hl h => ⟨h.1.flow hformed hlinked hb hl, fun F hF => ?_,
        h.2.2.flow hformed hlinked hb hl h.1 h.2.1⟩,
      fun s b e h => ⟨h.1.once, h.2.2⟩⟩
    · exact h.2 b hready.mem F _ hF hready.entry
    · exact (h.2.1 F hF).imp_right Lost.flow
  refine (hkept.solve (hformed.wired hlinked) ⟨start_once m g, fun c hc F e hF he => ?_⟩
    hstop).2
  -- In the beginning only roots have a stack, and of that no value is known.
  have hnone := (Graph.mem_rootStacks (mem_of_lookup he)).2
  rcases Forward.stackAt?_cases hformed.labels_nodup hc hF with
    hroot | rfl | ⟨p, Fp, hcarries, -, -⟩
  · obtain rfl := Option.some.inj (hroot.symm.trans he)
    exact Or.inl ((within_congruent m).weakens_refl _)
  · exact Or.inl (unknown_weakens AbstractValue.unknown_within _)
  · cases hcarries.inner.symm.trans he

end Solver

/-! ## Facts -/

theorem Closed.exists_stack {m : Machine} {g : Graph} {stackAt? : Int → Option AbstractStack}
    (h : Closed m g stackAt?) {l : Int} (hl : g.Reached l) : ∃ s, stackAt? l = some s := by
  induction hl with
  | root hroot =>
    obtain ⟨s, hs, -⟩ := h.root _ hroot
    exact ⟨s, hs⟩
  | edge hb _ hsucc ih =>
    obtain ⟨s, hs⟩ := ih
    obtain ⟨s', hs', -⟩ := h.flow _ hb s hs _ hsucc
    exact ⟨s', hs'⟩

/-- An integer that is known of an instruction with less known of the stack is known with
    more. -/
theorem AbstractStack.fact_of_within {m : Machine} {s t : AbstractStack}
    (h : Weakens AbstractValue.Within s t) {before : List Instruction} {ins : Instruction} {n : Int}
    (hn : (step m ins (transfer m before s)).2.bind AbstractValue.integer? = some n) :
    (step m ins (transfer m before t)).2.bind AbstractValue.integer? = some n := by
  have hR := within_congruent m
  have hfacts := (hR.step ins (hR.transfer before h)).2
  obtain ⟨a, ha, hint⟩ := Option.bind_eq_some_iff.mp hn
  rw [ha] at hfacts
  generalize (step m ins (transfer m before t)).2 = fact at hfacts ⊢
  cases hfacts with
  | some hwithin => exact integer?_eq_some.mpr (hwithin n (integer?_eq_some.mp hint))

/-- What is found if every block is entered knowing nothing. -/
def Facts.blockwise (m : Machine) (g : Graph) : Facts :=
  Arrival.facts m (arrivalsOf g fun _ => none)

namespace Solver

variable {m : Machine} {g : Graph}

/-- An integer that the single pass knows of an instruction is known to the solver, unless it
    takes more than the block of the instruction to know it and the solver has lost the stack
    that the single pass carries there. -/
theorem known_or_lost (hformed : g.Formed) (hlinked : g.Linked) (hreached : g.AllReached)
    {schedule : Schedule} (hstop : (solve m g schedule).stop = none) {b : Block}
    (hb : b ∈ g.blocks) {ins : Instruction} (hins : ins ∈ b.code) {n : Int}
    (hn : (Arrival.facts m (Forward.arrivals m g)).knownInt? ins.uid = some n) :
    (Arrival.facts m ((solve m g schedule).arrivals g)).knownInt? ins.uid = some n
      ∨ ((Facts.blockwise m g).knownInt? ins.uid ≠ some n
        ∧ Lost m g (solve m g schedule) b) := by
  obtain ⟨F, hF⟩ := Forward.exists_arrival (m := m) hb
  obtain ⟨e, he⟩ := (closed hformed hlinked hstop).exists_stack
    (hreached b.label (Graph.mem_labels_of_mem hb))
  obtain ⟨before, rest, hsplit⟩ := List.append_of_mem hins
  have hblocks (stackAt? : Int → Option AbstractStack) :
      (arrivalsOf g stackAt?).map (·.1) = g.blocks := by
    unfold arrivalsOf
    rw [List.map_map]
    exact List.map_id _
  have hfacts (stackAt? : Int → Option AbstractStack) :
      (Arrival.facts m (arrivalsOf g stackAt?)).knownInt? ins.uid
        = (step m ins (transfer m before ((stackAt? b.label).getD .unknown))).2.bind
            AbstractValue.integer? :=
    knownInt?_eq (hblocks stackAt?) hformed.uids_nodup (List.mem_map_of_mem hb) hsplit
  have hsolver := hfacts fun l => (solve m g schedule).entries.lookup l
  rw [he] at hsolver
  change (Arrival.facts m ((solve m g schedule).arrivals g)).knownInt? ins.uid = _ at hsolver
  rw [knownInt?_eq (Forward.arrivals_blocks m g) hformed.uids_nodup hF hsplit] at hn
  rw [hsolver]
  rcases solve_knows hformed hlinked hstop b hb F e
    (Forward.entry?_of_mem hformed.labels_nodup hF) he with hwithin | hlost
  · exact Or.inl (fact_of_within hwithin hn)
  · by_cases hblock : (Facts.blockwise m g).knownInt? ins.uid = some n
    · left
      rw [Facts.blockwise, hfacts] at hblock
      exact fact_of_within (unknown_weakens AbstractValue.unknown_within e) hblock
    · exact Or.inr ⟨hblock, hlost⟩

/-- Nothing is lost where the single pass knows all depths. -/
theorem not_lost (h : ∀ a ∈ Forward.arrivals m g, a.2.depthKnown = true) (s : Solver) (b : Block) :
    ¬Lost m g s b := by
  rintro ⟨c, -, ⟨F, hF, hdepth, -⟩, -⟩
  obtain ⟨a, ha, rfl⟩ := Option.map_eq_some_iff.mp hF
  rw [h a (List.mem_of_find?_eq_some ha)] at hdepth
  cases hdepth

/-- The solver knows what the single pass knows, unless a join has given it up. Over any graph
    that is built of a method, all of whose blocks are reached or left after pruning, and
    whatever the order of successors: if the single pass ends with facts then so does the
    solver, and an integer that the single pass knows of an instruction is then known to the
    solver, or else it takes more than the block of the instruction to know it, and the solver
    enters this block, or one from which the single pass carries its stack there, knowing
    nothing, while the single pass enters it knowing an integer but not the depth. -/
theorem solve_keeps_known {body : Method} {terminators : List Value} {g₀ : Graph}
    (hbuild : Graph.build body terminators = .ok g₀) (hnodup : (body.code.map (·.uid)).Nodup)
    (hg : g = g₀ ∨ g = g₀.pruned) (hreached : g.unreachable = []) {w : Width}
    (hw : m.width = .whole w) {f : Facts}
    (hf : (Analysis.findings { kind := .forward, machine := m } g).facts = .ok f)
    (schedule : Schedule) :
    ∃ f', (course m g schedule).outcome m = .ok f'
      ∧ ∀ b ∈ g.blocks, ∀ ins ∈ b.code, ∀ n, f.knownInt? ins.uid = some n →
        f'.knownInt? ins.uid = some n
          ∨ ((Facts.blockwise m g).knownInt? ins.uid ≠ some n
            ∧ ∃ c, Relation.ReflTransGen (Carries g) c b ∧ GivenUp m g (solve m g schedule) c) := by
  obtain ⟨hformed₀, hlinked₀⟩ := Graph.build_formed hbuild hnodup
  have hpruned := hformed₀.pruned hlinked₀
  have hwell : g.Formed ∧ g.Linked := by
    rcases hg with rfl | rfl
    · exact ⟨hformed₀, hlinked₀⟩
    · exact ⟨hpruned.formed, hpruned.linked⟩
  obtain ⟨hformed, hlinked⟩ := hwell
  rw [Analysis.facts_eq_outcome] at hf
  have hruns : g.Runs m := Graph.runs_of_outcome hw (Forward.arrivals_blocks m g) hf
  obtain rfl := (Course.outcome_eq_ok.mp hf).2.2
  refine ⟨_, hruns.outcome hformed hlinked schedule, fun b hb ins hins n hn => ?_⟩
  exact known_or_lost hformed hlinked ((Graph.unreachable_eq_nil_iff hformed hlinked).mp hreached)
    (hruns.stop hformed hlinked schedule) hb hins hn

end Solver

namespace Method

/-- A constant that a block leaves on the stack for the next one. -/
def carriedConstant : Method where
  code :=
    [{ opcode := some .pushConst, operand := .value (.int 7), uid := 0 },
     { opcode := some .branch, operand := .value (.int 2), uid := 1 },
     { opcode := some .storeLocal, operand := .value (.str "z"), uid := 2 },
     { opcode := some .other, uid := 3, mnemonic := .str "ret" }]

/-- The single pass carries the constant into the second block, and the solver knows it
    there. -/
theorem carriedConstant_kept :
    ∃ g f f', Graph.build carriedConstant Graph.usualTerminators = .ok g
      ∧ (Analysis.findings { kind := .forward } g).facts = .ok f ∧ f.knownInt? 2 = some 7
      ∧ (Solver.course {} g .hashed).outcome {} = .ok f' ∧ f'.knownInt? 2 = some 7 := by
  have hrun : (Graph.build carriedConstant Graph.usualTerminators).toOption.any (fun g =>
      g.unreachable.isEmpty
        && (Forward.arrivals {} g).all (·.2.depthKnown)
        && g.blocks.any (fun b => b.code.any fun ins => ins.uid == 2)
        && (Analysis.findings { kind := .forward } g).facts.toOption.any fun f =>
          f.knownInt? 2 == some 7) = true := by
    decide +kernel
  obtain ⟨g, hbuild, hall⟩ := exists_ok_of_any hrun
  simp only [Bool.and_eq_true, List.isEmpty_iff, List.all_eq_true, List.any_eq_true,
    beq_iff_eq] at hall
  obtain ⟨⟨⟨hreached, hknown⟩, b, hb, ins, hins, huid⟩, hforward⟩ := hall
  obtain ⟨f, hf, hn⟩ := exists_ok_of_any hforward
  rw [beq_iff_eq] at hn
  obtain ⟨f', hf', hkept⟩ := Solver.solve_keeps_known hbuild (by decide) (Or.inl rfl) hreached
    (show ({} : Machine).width = .whole .four from rfl) hf .hashed
  refine ⟨g, f, f', hbuild, hf, hn, hf', ?_⟩
  rw [← huid] at hn ⊢
  exact (hkept b hb ins hins 7 hn).resolve_right fun hlost =>
    Solver.not_lost hknown _ b hlost.2

/-- A loop behind a call of which nothing is known: each time round the loop a constant is
    left on the stack for what comes behind it. -/
def callLoop : Method where
  code :=
    [{ opcode := some .other, operand := .value (.str "X"), uid := 0, mnemonic := .str "call" },
     { opcode := some .pushConst, operand := .value (.int 1), uid := 1 },
     { opcode := some .pushConst, operand := .value (.int 5), uid := 2 },
     { opcode := some .loadLocal, operand := .value (.str "c"), uid := 3 },
     { opcode := some .condBranch, operand := .value (.int 2), uid := 4,
       mnemonic := .str "brtrue" },
     { opcode := some .storeLocal, operand := .value (.str "z"), uid := 5 },
     { opcode := some .other, uid := 6, mnemonic := .str "ret" }]

/-- All blocks of the loop are reached, and the single pass knows the constant behind it. The
    solver visits the loop twice, with different stacks of unknown depth, and gives up what
    comes behind it. -/
theorem callLoop_given_up : ∃ g, Graph.build callLoop Graph.usualTerminators = .ok g
    ∧ g.unreachable = []
    ∧ (∃ f, (Analysis.findings { kind := .forward } g).facts = .ok f ∧ f.knownInt? 5 = some 5)
    ∧ ∃ f, (Analysis.findings { kind := .worklist } g).facts = .ok f ∧ f.knownInt? 5 = none := by
  have hrun : (Graph.build callLoop Graph.usualTerminators).toOption.any (fun g =>
      g.unreachable.isEmpty
        && (Analysis.findings { kind := .forward } g).facts.toOption.any (fun f =>
          f.knownInt? 5 == some 5)
        && (Analysis.findings { kind := .worklist } g).facts.toOption.any fun f =>
          f.knownInt? 5 == none) = true := by
    decide +kernel
  obtain ⟨g, hbuild, hall⟩ := exists_ok_of_any hrun
  simp only [Bool.and_eq_true, List.isEmpty_iff] at hall
  obtain ⟨⟨hreached, hforward⟩, hworklist⟩ := hall
  obtain ⟨f, hf, hn⟩ := exists_ok_of_any hforward
  obtain ⟨f', hf', hn'⟩ := exists_ok_of_any hworklist
  exact ⟨g, hbuild, hreached, ⟨f, hf, eq_of_beq hn⟩, f', hf', eq_of_beq hn'⟩

end Method

end Untangle
