/-
  Untangle.Proofs.Abstract.Forward

  The entry stacks of the single pass fit together: a block goes on with the stack after the
  block before it only if nothing else leads to it, and knows nothing otherwise.
-/
import Untangle.Abstract.Forward
import Untangle.Proofs.Abstract.Closed

namespace Untangle

open AbstractStack

namespace Forward

variable {m : Machine} {g : Graph}

theorem arrivalsFrom_blocks (m : Machine) (roots : List (Int × AbstractStack))
    (before : Option (Int × AbstractStack)) (blocks : List Block) :
    (arrivalsFrom m roots before blocks).map (·.1) = blocks := by
  induction blocks generalizing before with
  | nil => rfl
  | cons b rest ih =>
    show b :: (arrivalsFrom m roots _ rest).map _ = _
    rw [ih]

theorem arrivals_blocks (m : Machine) (g : Graph) : (arrivals m g).map (·.1) = g.blocks :=
  arrivalsFrom_blocks m _ _ _

/-- The stack in front of a block depends on the block before it. -/
theorem mem_arrivalsFrom {roots : List (Int × AbstractStack)}
    {before : Option (Int × AbstractStack)} {blocks : List Block} {b : Block}
    {s : AbstractStack} (h : (b, s) ∈ arrivalsFrom m roots before blocks) :
    (∃ rest, blocks = b :: rest ∧ s = entryOf roots before b)
      ∨ ∃ front p sp rest, blocks = front ++ p :: b :: rest
        ∧ (p, sp) ∈ arrivalsFrom m roots before blocks
        ∧ s = entryOf roots (some (p.label, transfer m p.code sp)) b := by
  induction blocks generalizing before with
  | nil => cases h
  | cons c blocks ih =>
    rcases List.mem_cons.mp h with heq | h
    · cases heq
      exact Or.inl ⟨blocks, rfl, rfl⟩
    · right
      rcases ih h with ⟨rest, rfl, hs⟩ | ⟨front, p, sp, rest, rfl, hp, hs⟩
      · exact ⟨[], c, _, rest, rfl, List.mem_cons_self, hs⟩
      · exact ⟨c :: front, p, sp, rest, rfl, List.mem_cons_of_mem _ hp, hs⟩

/-- A block is entered with the stack of a root, or knowing nothing, or with the stack after
    the block before it if nothing else leads to it. -/
theorem arrivals_cases {b : Block} {s : AbstractStack} (h : (b, s) ∈ arrivals m g) :
    g.rootStacks.lookup b.label = some s
      ∨ (g.rootStacks.lookup b.label = none ∧ s = .unknown)
      ∨ (g.rootStacks.lookup b.label = none ∧ ∃ front p sp rest,
          g.blocks = front ++ p :: b :: rest ∧ (p, sp) ∈ arrivals m g
            ∧ isOnly p.label b.preds = true ∧ s = transfer m p.code sp) := by
  cases hroot : g.rootStacks.lookup b.label with
  | some r =>
    left
    have hs : ∃ before, s = entryOf g.rootStacks before b := by
      rcases mem_arrivalsFrom h with ⟨rest, -, hs⟩ | ⟨front, p, sp, rest, -, -, hs⟩
      · exact ⟨_, hs⟩
      · exact ⟨_, hs⟩
    obtain ⟨before, rfl⟩ := hs
    unfold entryOf
    rw [hroot]
  | none =>
    right
    rcases mem_arrivalsFrom h with ⟨rest, -, hs⟩ | ⟨front, p, sp, rest, hsplit, hp, hs⟩
    · left
      unfold entryOf at hs
      rw [hroot] at hs
      exact ⟨rfl, hs⟩
    · unfold entryOf at hs
      rw [hroot] at hs
      dsimp only at hs
      split at hs
      · exact Or.inr ⟨rfl, front, p, sp, rest, hsplit, hp, ‹_›, hs⟩
      · exact Or.inl ⟨rfl, hs⟩

/-- The stack in front of the block with a label. -/
def stackAt? (m : Machine) (g : Graph) (label : Int) : Option AbstractStack :=
  ((arrivals m g).find? fun a => a.1.label == label).map (·.2)

theorem entry?_of_mem (hnodup : g.labels.Nodup) {b : Block} {s : AbstractStack}
    (h : (b, s) ∈ arrivals m g) : stackAt? m g b.label = some s := by
  have hkeys : (arrivals m g).map (fun a => a.1.label) = g.labels := by
    rw [Graph.labels, ← arrivals_blocks m g, List.map_map]
    rfl
  rw [← hkeys] at hnodup
  rw [stackAt?, find?_of_nodup (fun a : Arrival => a.1.label) hnodup h]
  rfl

theorem exists_arrival {b : Block} (hb : b ∈ g.blocks) : ∃ s, (b, s) ∈ arrivals m g := by
  rw [← arrivals_blocks m g] at hb
  obtain ⟨⟨b', s⟩, h, rfl⟩ := List.mem_map.mp hb
  exact ⟨s, h⟩

theorem arrivals_eq (hnodup : g.labels.Nodup) :
    arrivals m g = arrivalsOf g (stackAt? m g) := by
  unfold arrivalsOf
  conv_rhs => rw [← arrivals_blocks m g]
  rw [List.map_map]
  refine (List.map_id _).symm.trans (List.map_congr_left fun a ha => ?_)
  show a = (a.1, (stackAt? m g a.1.label).getD .unknown)
  rw [entry?_of_mem hnodup ha]
  rfl

/-- A label is all there is in a list when it is there, and nothing else is. -/
theorem isOnly_iff {label : Int} {labels : List Int} :
    isOnly label labels = true ↔ label ∈ labels ∧ ∀ l ∈ labels, l = label := by
  rw [isOnly, Bool.and_eq_true, List.all_eq_true, Bool.not_eq_true',
    List.isEmpty_eq_false_iff_exists_mem]
  constructor
  · rintro ⟨⟨l, hl⟩, hall⟩
    exact ⟨eq_of_beq (hall l hl) ▸ hl, fun l' hl' => eq_of_beq (hall l' hl')⟩
  · rintro ⟨hmem, hall⟩
    exact ⟨⟨label, hmem⟩, fun l hl => beq_iff_eq.mpr (hall l hl)⟩

/-- The entry stacks of the single pass are a solution. -/
theorem solution (hwired : g.Wired) : Solution m g (stackAt? m g) where
  root b hb r hr := by
    obtain ⟨s, hs⟩ := exists_arrival (m := m) hb
    rw [entry?_of_mem hwired.labels_nodup hs]
    rcases arrivals_cases hs with hroot | ⟨hnone, -⟩ | ⟨hnone, -⟩
    · exact hroot.symm.trans hr
    · cases hr.symm.trans hnone
    · cases hr.symm.trans hnone
  flow b hb s hs l hl hinner := by
    obtain ⟨c, hc, rfl⟩ := List.mem_map.mp (hwired.succs b hb hl)
    obtain ⟨s', hs'⟩ := exists_arrival (m := m) hc
    refine ⟨s', entry?_of_mem hwired.labels_nodup hs', ?_⟩
    rcases arrivals_cases hs' with hroot | ⟨-, rfl⟩
      | ⟨-, front, p, sp, rest, hsplit, hp, honly, rfl⟩
    · cases hroot.symm.trans hinner
    · exact unknown_under _
    · -- Nothing but `p` leads to `c`, so `b` is `p`.
      have hpred : b.label ∈ c.preds := hwired.preds b hb c hc hl
      have hpmem : p ∈ g.blocks := hsplit ▸ List.mem_append_right _ List.mem_cons_self
      cases Graph.eq_of_label hwired.labels_nodup hb hpmem ((isOnly_iff.mp honly).2 _ hpred)
      rw [entry?_of_mem hwired.labels_nodup hp] at hs
      cases hs
      exact Under.refl _

/-- The entry stacks of the single pass fit together. -/
theorem closed (hformed : g.Formed) (hlinked : g.Linked) : Closed m g (stackAt? m g) :=
  (solution (hformed.wired hlinked)).closed hformed

end Forward

end Untangle
