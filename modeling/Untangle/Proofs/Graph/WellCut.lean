/-
  Untangle.Proofs.Graph.WellCut

  Graphs whose blocks are those that their own method is cut into. The method of a graph has the
  regions of the graph, with the bounds of the instructions that they still cover
  (`Graph.tightMethod`). If branches name first instructions of blocks, and blocks next to each
  other are apart for a reason (`WellCut`), then the method can be cut into blocks, and cutting
  it gives the code of each block and the blocks of each range back (`WellCut.rebuilt`).
-/
import Untangle.Proofs.Graph.Accepted
import Untangle.Proofs.Graph.Partition
import Untangle.Proofs.Graph.Traced
import Untangle.Proofs.Graph.Weight
import Untangle.Proofs.Validate
import Untangle.Stage.Reconcile

namespace Untangle

namespace Graph

variable {g : Graph}

/-! ## The method of a graph -/

/-- The region of a span with the bounds of the instructions that it covers. A range that covers
    none is given the bounds of the other range, which adds no bound to those that there are. -/
def tightRegion (g : Graph) (s : Span) : Region :=
  match Reconcile.boundsOf g s with
  | (some tries, some handlers) => Reconcile.withBounds s.region tries handlers
  | (some both, none) | (none, some both) => Reconcile.withBounds s.region both both
  | (none, none) => s.region

/-- The method of a graph, with regions around the instructions that they cover. -/
def tightMethod (g : Graph) : Method :=
  { g.toMethod with regions := g.spans.map g.tightRegion }

/-- The blocks of a graph are cut where the code of the graph calls for it, and nowhere else. -/
structure WellCut (g : Graph) : Prop where
  labels_nodup : g.labels.Nodup
  uids_nodup : (g.code.map (·.uid)).Nodup
  filled : g.Filled
  keys : ∀ t ∈ g.terminators, t.isKey = true
  mnemonics : ∀ ins ∈ g.code, ins.opcode = some .other → ins.mnemonic.isKey = true
  /-- Branches name the first instructions of blocks. -/
  targets : ∀ ins ∈ g.code, ∃ ts, ins.targets = .ok ts ∧ ∀ t ∈ ts, ∃ b ∈ g.blocks,
    ∃ first rest, b.code = first :: rest ∧ t.wholeNumber? = some first.uid
  straight : ∀ b ∈ g.blocks, ∀ ins ∈ b.code.dropLast, ins.endsRun g.terminators = false
  tries : ∀ s ∈ g.spans, s.tryBlocks <:+: g.labels
  handlers : ∀ s ∈ g.spans, s.handlerBlocks <:+: g.labels ∧ s.handlerBlocks ≠ []
  /-- Exits from regions have integers for targets. -/
  leaves : ∀ b ∈ g.blocks, ∀ ins ∈ b.code, ins.opcode = some .leave → ∀ s ∈ g.spans,
    b.label ∈ s.tryBlocks ∨ b.label ∈ s.handlerBlocks → ins.operand.toValue.asInt?.isSome
  /-- Between two blocks control leaves the code, or a branch leads to the second, or a range
      of a region starts or ends. -/
  apart : ∀ before x y rest, g.blocks = before ++ x :: y :: rest →
    (∃ last, x.code.getLast? = some last ∧ last.endsRun g.terminators = true)
      ∨ (∃ ins ∈ g.code, ∃ t ∈ ins.aims, ∃ first, y.code.head? = some first
          ∧ t.wholeNumber? = some first.uid)
      ∨ ¬g.Together x.label y.label

/-! ## Ranges -/

theorem placeOf?_labelAt {code : List Instruction} (hnodup : (code.map (·.uid)).Nodup) {p : Nat}
    (hp : p < code.length) : Method.placeOf? code (.int (labelAt code p)) = some p :=
  (place?_eq_some hnodup).mpr ⟨hp, rfl⟩

theorem placeOf?_isSome {code : List Instruction} {ins : Instruction} (hins : ins ∈ code)
    {v : Value} (hv : v.wholeNumber? = some ins.uid) : (Method.placeOf? code v).isSome := by
  rw [Method.placeOf?, hv, Option.bind_some, Method.place?, List.findIdx?_isSome]
  exact List.any_eq_true.mpr ⟨ins, hins, beq_self_eq_true _⟩

namespace WellCut

/-- Blocks in a row are the code between their bounds. -/
theorem exists_holds (h : g.WellCut) {labels : List Int} (hrow : labels <:+: g.labels)
    (hne : labels ≠ []) :
    ∃ a b, a ≤ b ∧ b < g.code.length ∧ g.Holds g.code a b labels
      ∧ g.spanBounds? labels = some (labelAt g.code a, labelAt g.code b) := by
  obtain ⟨front, run, back, hblocks, hlabels, hfound⟩ := exists_row h.labels_nodup hrow
  have hcode : g.code = front.flatMap (·.code)
      ++ (run.flatMap (·.code) ++ back.flatMap (·.code)) := by
    rw [code, hblocks, List.flatMap_append, List.flatMap_append, List.append_assoc]
  have hrun : run.flatMap (·.code) ≠ [] := by
    cases run with
    | nil => exact absurd hlabels.symm hne
    | cons b run =>
      have hb : b.code ≠ [] := h.filled b (by rw [hblocks]; simp)
      exact List.append_ne_nil_of_left_ne_nil hb _
  obtain ⟨first, more, hfirst⟩ := List.exists_cons_of_ne_nil hrun
  obtain ⟨init, last, hlast⟩ : ∃ init last, run.flatMap (·.code) = init ++ [last] :=
    ⟨_, _, (List.dropLast_concat_getLast hrun).symm⟩
  have hlength : (run.flatMap (·.code)).length = init.length + 1 := by
    rw [hlast, List.length_append, List.length_singleton]
  refine ⟨(front.flatMap (·.code)).length, (front.flatMap (·.code)).length + init.length,
    Nat.le_add_right _ _, ?_, ⟨front, run, back, hblocks, hlabels, ?_, ?_⟩, ?_⟩
  · rw [hcode, List.length_append, List.length_append]
    omega
  · rw [hcode, List.take_left' rfl]
  · rw [hcode, List.drop_left' rfl, List.take_left' (by omega)]
  · have hstart := hcode
    rw [hfirst, List.cons_append] at hstart
    have hend := hcode
    rw [hlast, List.append_assoc, ← List.append_assoc, List.singleton_append] at hend
    have hat := (place_of_front hend).1
    rw [List.length_append] at hat
    rw [labelAt_eq (place_of_front hstart).1, labelAt_eq hat]
    unfold spanBounds?
    dsimp only
    rw [hfound]
    have hhead : (run.flatMap (·.code)).head? = some first := by rw [hfirst]; rfl
    have hfinal : (run.flatMap (·.code)).getLast? = some last := by
      rw [hlast, List.getLast?_concat]
    rw [hhead, hfinal]

/-- The bounds of a region are the places between which its blocks hold the code. -/
theorem exists_range (h : g.WellCut) {s : Span} (hs : s ∈ g.spans) :
    ∃ a b c d, RangeOf g.code (g.tightRegion s) a b c d ∧ g.Holds g.code c d s.handlerBlocks
      ∧ (g.Holds g.code a b s.tryBlocks ∨ s.tryBlocks = [] ∧ a = c ∧ b = d) := by
  obtain ⟨hrow, hne⟩ := h.handlers s hs
  obtain ⟨c, d, hcd, hd, hhandler, hhandlers⟩ := h.exists_holds hrow hne
  have hat {p : Nat} (hp : p < g.code.length) := placeOf?_labelAt h.uids_nodup hp
  by_cases hnone : s.tryBlocks = []
  · have htries : g.spanBounds? s.tryBlocks = none := by rw [hnone]; rfl
    refine ⟨c, d, c, d, ?_, hhandler, Or.inr ⟨hnone, rfl, rfl⟩⟩
    unfold tightRegion Reconcile.boundsOf
    rw [htries, hhandlers]
    exact ⟨hat (by omega), hat hd, hat (by omega), hat hd, hcd, hcd⟩
  · obtain ⟨a, b, hab, hb, htry, htries⟩ := h.exists_holds (h.tries s hs) hnone
    refine ⟨a, b, c, d, ?_, hhandler, Or.inl htry⟩
    unfold tightRegion Reconcile.boundsOf
    rw [htries, hhandlers]
    exact ⟨hat (by omega), hat hb, hat (by omega), hat hd, hab, hcd⟩

/-- The regions of the method have ranges. -/
theorem regions (h : g.WellCut) : ∀ r ∈ g.tightMethod.regions, ∃ a b c d,
    RangeOf g.tightMethod.code r a b c d := by
  intro r hr
  obtain ⟨s, hs, rfl⟩ := List.mem_map.mp hr
  obtain ⟨a, b, c, d, hat, -⟩ := h.exists_range hs
  exact ⟨a, b, c, d, hat⟩

/-! ## The blocks are parts of the method -/

theorem aims (h : g.WellCut) {ins : Instruction} (hins : ins ∈ g.code) {t : Value}
    (ht : t ∈ ins.aims) : ∃ b ∈ g.blocks, ∃ first rest, b.code = first :: rest
      ∧ t.wholeNumber? = some first.uid := by
  obtain ⟨ts, hts, htargets⟩ := h.targets ins hins
  rw [Instruction.aims_eq hts] at ht
  exact htargets t ht

theorem parts (h : g.WellCut) :
    Parts g.tightMethod g.terminators (g.blocks.map (·.code)) where
  code := (List.flatMap_def ..).symm
  nonempty := List.forall_mem_map.mpr h.filled
  targets ins hins t ht := by
    obtain ⟨b, hb, first, rest, hcode, hnames⟩ := h.aims hins ht
    exact ⟨first, rest, hcode ▸ List.mem_map_of_mem hb, hnames⟩
  ends := List.forall_mem_map.mpr h.straight
  ranges r hr a b c d hat := by
    obtain ⟨s, hs, rfl⟩ := List.mem_map.mp hr
    obtain ⟨a', b', c', d', hat', hhandler, htry⟩ := h.exists_range hs
    obtain ⟨rfl, rfl, rfl, rfl⟩ := hat.unique hat'
    rcases htry with htry | ⟨-, rfl, rfl⟩
    · exact ⟨htry.whole, hhandler.whole⟩
    · exact ⟨hhandler.whole, hhandler.whole⟩

end WellCut

/-! ## Where a range starts and ends between two blocks -/

namespace Holds

variable {code : List Instruction} {a b : Nat} {labels : List Int} {before rest : List Block}
  {x y : Block}

/-- A range that holds a block but not the one in front of it starts between them. -/
theorem starts (h : g.Holds code a b labels) (hnodup : g.labels.Nodup)
    (hblocks : g.blocks = before ++ x :: y :: rest) (hx : x.label ∉ labels)
    (hy : y.label ∈ labels) : code.take a = (before ++ [x]).flatMap (·.code) := by
  obtain ⟨front, run, back, hsplit, rfl, hfront, -⟩ := h
  obtain ⟨z, hz, hlabel⟩ := List.mem_map.mp hy
  obtain rfl : z = y := eq_of_label hnodup (by rw [hsplit]; simp [hz]) (by rw [hblocks]; simp) hlabel
  obtain ⟨init, more, rfl⟩ := List.append_of_mem hz
  have hcut : (before ++ [x]) ++ z :: rest = (front ++ init) ++ z :: (more ++ back) := by
    rw [List.append_assoc, List.singleton_append, ← hblocks, hsplit]
    simp
  have hdistinct : ((before ++ [x]) ++ z :: rest).Nodup := by
    rw [List.append_assoc, List.singleton_append, ← hblocks]
    exact hnodup.of_map
  obtain ⟨hbefore, -⟩ := append_cons_inj_of_nodup hdistinct hcut
  -- If the range started further in front, it would hold the other block.
  rcases List.eq_nil_or_concat init with rfl | ⟨init, w, rfl⟩
  · rw [← hfront, hbefore, List.append_nil]
  · rw [List.concat_eq_append, ← List.append_assoc] at hbefore
    obtain rfl : x = w := (List.cons.inj (List.append_inj' hbefore rfl).2).1
    exact absurd (List.mem_map_of_mem (by simp)) hx

/-- A range that holds a block but not the one behind it ends between them. -/
theorem ends (h : g.Holds code a b labels) (hnodup : g.labels.Nodup)
    (hblocks : g.blocks = before ++ x :: y :: rest) (hx : x.label ∈ labels)
    (hy : y.label ∉ labels) (hab : a ≤ b) :
    code.take (b + 1) = (before ++ [x]).flatMap (·.code) := by
  obtain ⟨front, run, back, hsplit, rfl, hfront, hrun⟩ := h
  obtain ⟨z, hz, hlabel⟩ := List.mem_map.mp hx
  obtain rfl : z = x := eq_of_label hnodup (by rw [hsplit]; simp [hz]) (by rw [hblocks]; simp) hlabel
  obtain ⟨init, more, rfl⟩ := List.append_of_mem hz
  have hcut : before ++ z :: (y :: rest) = (front ++ init) ++ z :: (more ++ back) := by
    rw [← hblocks, hsplit]
    simp
  have hdistinct : (before ++ z :: (y :: rest)).Nodup := hblocks ▸ hnodup.of_map
  obtain ⟨rfl, hbehind⟩ := append_cons_inj_of_nodup hdistinct hcut
  cases more with
  | cons w more =>
    obtain rfl : y = w := (List.cons.inj hbehind).1
    exact absurd (List.mem_map_of_mem (by simp)) hy
  | nil =>
    rw [show b + 1 = a + (b + 1 - a) by omega, List.take_add, ← hfront, ← hrun,
      ← List.flatMap_append, ← List.append_assoc]

/-- An instruction in a range is in a block of the range. -/
theorem exists_mem (h : g.Holds code a b labels) {p : Nat} (hap : a ≤ p) (hpb : p ≤ b)
    {ins : Instruction} (hins : code[p]? = some ins) :
    ∃ c ∈ g.blocks, c.label ∈ labels ∧ ins ∈ c.code := by
  obtain ⟨front, run, back, hsplit, rfl, -, hrun⟩ := h
  have hmem : ins ∈ run.flatMap (·.code) := by
    rw [hrun]
    refine List.mem_of_getElem? (i := p - a) ?_
    rw [List.getElem?_take_of_lt (by omega), List.getElem?_drop, Nat.add_sub_cancel' hap]
    exact hins
  obtain ⟨c, hc, hin⟩ := List.mem_flatMap.mp hmem
  exact ⟨c, by rw [hsplit]; simp [hc], List.mem_map_of_mem hc, hin⟩

/-- A range that holds one of two blocks next to each other starts with the second or ends with
    the first. -/
theorem bounds (h : g.Holds g.code a b labels) (hnodup : g.labels.Nodup)
    (hblocks : g.blocks = before ++ x :: y :: rest) (hab : a ≤ b) (hb : b < g.code.length)
    (hone : ¬(x.label ∈ labels ↔ y.label ∈ labels)) {first : Instruction}
    {more : List Instruction} (hy : y.code = first :: more) :
    labelAt g.code a = first.uid
      ∨ ∃ last, ((before ++ [x]).flatMap (·.code)).getLast? = some last
          ∧ labelAt g.code b = last.uid := by
  have hcode : g.code = (before ++ [x]).flatMap (·.code)
      ++ first :: (more ++ rest.flatMap (·.code)) := by
    rw [Graph.code, hblocks, List.append_cons, List.flatMap_append, List.flatMap_cons, hy]
    rfl
  by_cases hx : x.label ∈ labels
  · have hend := h.ends hnodup hblocks hx (fun hy => hone (iff_of_true hx hy)) hab
    refine Or.inr ⟨g.code[b], ?_, labelAt_eq (List.getElem?_eq_getElem hb)⟩
    rw [← hend, getLast?_take_succ]
  · have hstart := h.starts hnodup hblocks hx
      (by by_contra hy; exact hone (iff_of_false hx hy))
    have ha : a = ((before ++ [x]).flatMap (·.code)).length := by
      rw [← hstart, List.length_take, Nat.min_eq_left (by omega)]
    rw [ha]
    exact Or.inl (labelAt_eq (place_of_front hcode).1)

end Holds

namespace WellCut

/-- A block that is not the first has a reason to start where it does. -/
theorem begins (h : g.WellCut) {before rest : List Block} {x y : Block}
    (hblocks : g.blocks = before ++ x :: y :: rest) {first : Instruction}
    {more : List Instruction} (hy : y.code = first :: more) :
    Begins g.tightMethod g.terminators ((before ++ [x]).flatMap (·.code)) first.uid := by
  rcases h.apart before x y rest hblocks with ⟨last, hlast, hends⟩ |
    ⟨ins, hins, t, ht, first', hfirst', hnames⟩ | hregions
  · have hlast' : ((before ++ [x]).flatMap (·.code)).getLast? = some last := by
      rw [List.flatMap_append, List.flatMap_singleton, List.getLast?_append, hlast]
      rfl
    exact .behind hlast' hends
  · rw [hy] at hfirst'
    cases hfirst'
    exact .target hins ht hnames
  · -- One of the blocks is in a range that the other is not in.
    obtain ⟨s, hs, hone⟩ : ∃ s ∈ g.spans, ¬(x.label ∈ s.tryBlocks ↔ y.label ∈ s.tryBlocks)
        ∨ ¬(x.label ∈ s.handlerBlocks ↔ y.label ∈ s.handlerBlocks) := by
      by_contra hnone
      refine hregions fun s hs => ⟨?_, ?_⟩
      · exact by_contra fun hone => hnone ⟨s, hs, Or.inl hone⟩
      · exact by_contra fun hone => hnone ⟨s, hs, Or.inr hone⟩
    have hr : g.tightRegion s ∈ g.tightMethod.regions := List.mem_map_of_mem hs
    obtain ⟨a, b, c, d, hat, hhandler, htry⟩ := h.exists_range hs
    have hname {v : Value} {p : Nat} (hv : Method.placeOf? g.code v = some p) :=
      names_place h.uids_nodup hv
    rcases hone with hone | hone
    · rcases htry with htry | ⟨hnone, -⟩
      swap
      · exact absurd (by rw [hnone]; simp) hone
      rcases htry.bounds h.labels_nodup hblocks hat.tryOrder (hname hat.tryEnd).1 hone hy with
        hstart | ⟨last, hlast, hend⟩
      · exact .range hr (Or.inl (hstart ▸ (hname hat.tryStart).2))
      · exact .behindRange hr hlast (Or.inl (hend ▸ (hname hat.tryEnd).2))
    · rcases hhandler.bounds h.labels_nodup hblocks hat.handlerOrder (hname hat.handlerEnd).1
        hone hy with hstart | ⟨last, hlast, hend⟩
      · exact .range hr (Or.inr (hstart ▸ (hname hat.handlerStart).2))
      · exact .behindRange hr hlast (Or.inr (hend ▸ (hname hat.handlerEnd).2))

/-! ## Cutting the method -/

/-- The method of the graph can be cut into blocks. -/
theorem exists_build (h : g.WellCut) : ∃ r, build g.tightMethod g.terminators = .ok r := by
  refine Graph.exists_build (fun ins hins => ?_) h.regions h.keys h.mnemonics
    fun place ins hplace hop hinside => ?_
  · obtain ⟨ts, hts, htargets⟩ := h.targets ins hins
    refine ⟨ts, hts, fun t ht => ?_⟩
    obtain ⟨b, hb, first, rest, hcode, hnames⟩ := htargets t ht
    refine placeOf?_isSome (List.mem_flatMap.mpr ⟨b, hb, ?_⟩) hnames
    rw [hcode]
    exact List.mem_cons_self
  · -- The exit is in a block of the region, so its target is an integer.
    obtain ⟨r, hr, a, b, c, d, hat, hin⟩ := hinside
    obtain ⟨s, hs, rfl⟩ := List.mem_map.mp hr
    obtain ⟨a', b', c', d', hat', hhandler, htry⟩ := h.exists_range hs
    obtain ⟨rfl, rfl, rfl, rfl⟩ := hat.unique hat'
    obtain ⟨y, hy, hlabel, hmem⟩ : ∃ y ∈ g.blocks,
        (y.label ∈ s.tryBlocks ∨ y.label ∈ s.handlerBlocks) ∧ ins ∈ y.code := by
      rcases hin with ⟨hlow, hhigh⟩ | ⟨hlow, hhigh⟩
      · rcases htry with htry | ⟨-, rfl, rfl⟩
        · obtain ⟨y, hy, hlabel, hmem⟩ := htry.exists_mem hlow hhigh hplace
          exact ⟨y, hy, Or.inl hlabel, hmem⟩
        · obtain ⟨y, hy, hlabel, hmem⟩ := hhandler.exists_mem hlow hhigh hplace
          exact ⟨y, hy, Or.inr hlabel, hmem⟩
      · obtain ⟨y, hy, hlabel, hmem⟩ := hhandler.exists_mem hlow hhigh hplace
        exact ⟨y, hy, Or.inr hlabel, hmem⟩
    exact h.leaves y hy ins hmem hop s hs hlabel

variable {r : Graph}

/-- Cutting the method gives the code of each block back. -/
theorem rebuilt (h : g.WellCut) (hbuild : build g.tightMethod g.terminators = .ok r) :
    r.blocks.map (·.code) = g.blocks.map (·.code) := by
  have hnodup : (g.tightMethod.code.map (·.uid)).Nodup := h.uids_nodup
  have hparted := build_parted hbuild hnodup
  -- Each of the two is the other, cut further.
  refine eq_of_groups hparted.parts.nonempty h.parts.nonempty ?_ (hparted.coarsest hnodup h.parts)
  refine hparted.parts.grouped hnodup h.regions h.parts.code h.parts.nonempty
    fun before first more rest hsplit hne => ?_
  obtain ⟨front, back, hblocks, rfl, hback⟩ := List.map_eq_append_iff.mp hsplit
  obtain ⟨y, back, rfl, hy, -⟩ := List.map_eq_cons_iff.mp hback
  rcases List.eq_nil_or_concat front with rfl | ⟨front, x, rfl⟩
  · exact absurd rfl hne
  · rw [List.concat_eq_append] at hblocks ⊢
    rw [List.append_assoc] at hblocks
    rw [← List.flatMap_def]
    exact h.begins hblocks hy

end WellCut

/-! ## The same ranges -/

/-- Parts in front that are the same code are the same parts. -/
theorem front_eq_of_flatten {front back front' back' : List (List Instruction)}
    (heq : front ++ back = front' ++ back') (hnonempty : ∀ part ∈ front ++ back, part ≠ [])
    (hcode : front.flatten = front'.flatten) : front = front' ∧ back = back' := by
  have hnil {more : List (List Instruction)} (hmore : ∀ part ∈ more, part ≠ [])
      (hflat : more.flatten = []) : more = [] :=
    List.eq_nil_iff_forall_not_mem.mpr fun part hpart =>
      hmore part hpart (List.flatten_eq_nil_iff.mp hflat part hpart)
  rcases List.append_eq_append_iff.mp heq with ⟨more, rfl, rfl⟩ | ⟨more, rfl, rfl⟩
  · rw [List.flatten_append] at hcode
    obtain rfl := hnil (fun part hpart => hnonempty part (by simp [hpart]))
      (List.self_eq_append_right.mp hcode)
    simp
  · rw [List.flatten_append] at hcode
    obtain rfl := hnil (fun part hpart => hnonempty part (by simp [hpart]))
      (List.self_eq_append_right.mp hcode.symm)
    simp

/-- Blocks with the same code that hold the same range go by the names of each other. -/
theorem Holds.labels_eq {g r : Graph} {code : List Instruction} {a b : Nat}
    {labels labels' : List Int} {name : Int → Int} (h : g.Holds code a b labels)
    (h' : r.Holds code a b labels') (hfilled : g.Filled)
    (hcode : r.blocks.map (·.code) = g.blocks.map (·.code))
    (hname : r.labels = g.labels.map name) : labels' = labels.map name := by
  obtain ⟨front, run, back, hsplit, rfl, hfront, hrun⟩ := h
  obtain ⟨front', run', back', hsplit', rfl, hfront', hrun'⟩ := h'
  have hparts : front.map (·.code) ++ (run.map (·.code) ++ back.map (·.code))
      = front'.map (·.code) ++ (run'.map (·.code) ++ back'.map (·.code)) := by
    rw [hsplit, hsplit'] at hcode
    simpa using hcode.symm
  have hnonempty : ∀ part ∈ front.map (·.code) ++ (run.map (·.code) ++ back.map (·.code)),
      part ≠ [] := by
    rw [← List.map_append, ← List.map_append, ← List.append_assoc, ← hsplit]
    exact List.forall_mem_map.mpr hfilled
  obtain ⟨hlength, hbehind⟩ := front_eq_of_flatten hparts hnonempty (by
    rw [← List.flatMap_def, ← List.flatMap_def, hfront, hfront'])
  obtain ⟨hlength', -⟩ := front_eq_of_flatten hbehind
    (fun part hpart => hnonempty part (List.mem_append_right _ hpart)) (by
      rw [← List.flatMap_def, ← List.flatMap_def, hrun, hrun'])
  -- So the labels stand at the same places of all labels.
  have hfronts : (front'.map (·.label)).length = ((front.map (·.label)).map name).length := by
    simpa using (congrArg List.length hlength).symm
  have hruns : (run'.map (·.label)).length = ((run.map (·.label)).map name).length := by
    simpa using (congrArg List.length hlength').symm
  have hlabels : front'.map (·.label) ++ (run'.map (·.label) ++ back'.map (·.label))
      = (front.map (·.label)).map name ++ ((run.map (·.label)).map name
        ++ (back.map (·.label)).map name) := by
    unfold labels at hname
    rw [hsplit, hsplit'] at hname
    simpa using hname
  exact (List.append_inj (List.append_inj hlabels hfronts).2 hruns).1

/-- Cutting the method gives the blocks of each range back, under their new names. -/
theorem WellCut.rebuilt_spans (h : g.WellCut) {r : Graph}
    (hbuild : build g.tightMethod g.terminators = .ok r) {name : Int → Int}
    (hname : r.labels = g.labels.map name) :
    List.Forall₂ (fun s t => t.handlerBlocks = s.handlerBlocks.map name
      ∧ (s.tryBlocks ≠ [] → t.tryBlocks = s.tryBlocks.map name)) g.spans r.spans := by
  have hranges := (build_parted hbuild h.uids_nodup).ranges
  rw [show g.tightMethod.regions = g.spans.map g.tightRegion from rfl,
    List.forall₂_map_left_iff] at hranges
  have hboth := (List.forall₂_and_left _ _).mpr ⟨fun s (hs : s ∈ g.spans) => hs, hranges⟩
  refine hboth.imp ?_
  rintro s t ⟨hs, -, a, b, c, d, hat, htry', hhandler'⟩
  obtain ⟨a', b', c', d', hat', hhandler, htry⟩ := h.exists_range hs
  obtain ⟨rfl, rfl, rfl, rfl⟩ := hat.unique hat'
  refine ⟨hhandler.labels_eq hhandler' h.filled (h.rebuilt hbuild) hname, fun hne => ?_⟩
  rcases htry with htry | ⟨hnone, -⟩
  · exact htry.labels_eq htry' h.filled (h.rebuilt hbuild) hname
  · exact absurd hnone hne

end Graph

end Untangle
