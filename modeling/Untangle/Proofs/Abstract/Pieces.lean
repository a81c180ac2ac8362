/-
  Untangle.Proofs.Abstract.Pieces

  What the single pass knows when blocks go or are joined. The stack after a block is handed on
  to the next one only if nothing else leads there. When blocks go that are not reached, a block
  that is left has been handed its stack by a block that is left, too (`arrivals_left`). When
  blocks are joined, the code of each block is a row of pieces that were blocks, and in front of
  each piece no less is known than the block was entered with (`pieced_merged`).
-/
import Untangle.Proofs.Graph.Joined

namespace Untangle

open AbstractStack

/-! ## Where control comes in -/

namespace Graph

variable {g g' : Graph}

/-- Control comes in as before when blocks go from the spans, but not the first of a handler. -/
theorem rootStacks_without {gone : List Int}
    (hspans : g'.spans = g.spans.map fun s => s.without gone)
    (hheads : ∀ s ∈ g.spans, ∀ l, s.handlerBlocks.head? = some l → gone.contains l = false)
    (hentry : g'.entry?.map (·.label) = g.entry?.map (·.label)) :
    g'.rootStacks = g.rootStacks := by
  have hfirst (g : Graph) : g.entry?.map (fun b => (b.label, AbstractStack.empty))
      = (g.entry?.map (·.label)).map fun l => (l, AbstractStack.empty) := by
    rw [Option.map_map]
    rfl
  unfold rootStacks
  rw [hfirst, hfirst, hentry, hspans, List.filterMap_map]
  dsimp only
  congr 2
  refine List.filterMap_congr fun s hs => ?_
  show ((s.handlerBlocks.filter fun l => !gone.contains l).head?).map _ = _
  cases hblocks : s.handlerBlocks with
  | nil => rfl
  | cons l rest =>
    rw [List.filter_cons_of_pos (by rw [hheads s hs l (by rw [hblocks]; rfl)]; rfl)]
    rfl

/-- Where control comes in is reached. -/
theorem isLive_of_root (hwired : g.Wired) (hroots : g.roots ⊆ g.labels) {l : Int}
    (hl : l ∈ g.roots) : g.isLive l = true :=
  (hwired.isLive_iff hroots l).mpr (.root hl)

/-- A block that is reached and where control does not come in has a block before it that is
    reached. -/
theorem exists_live_pred (hwired : g.Wired) (hroots : g.roots ⊆ g.labels) {c : Block}
    (hc : c ∈ g.blocks) (hlive : g.isLive c.label = true)
    (hnone : g.rootStacks.lookup c.label = none) : ∃ l ∈ c.preds, g.isLive l = true := by
  have hreached := (hwired.isLive_iff hroots _).mp hlive
  generalize hl : c.label = l at hreached hnone
  cases hreached with
  | root hroot =>
    obtain ⟨s, hs⟩ := rootStacks_isSome hroot
    cases hs.symm.trans hnone
  | @edge b _ hb hreached hsucc =>
    exact ⟨b.label, hwired.preds b hb c hc (hl ▸ hsucc),
      (hwired.isLive_iff hroots _).mpr hreached⟩

theorem removeUnreachable_rootStacks (hwired : g.Wired) (hroots : g.roots ⊆ g.labels) :
    g.removeUnreachable.rootStacks = g.rootStacks := by
  refine rootStacks_without rfl (fun s hs l hl => ?_) ?_
  · have hroot : l ∈ g.roots := List.mem_append_right _ (List.mem_filterMap.mpr ⟨s, hs, hl⟩)
    rw [mem_gone_iff (hroots hroot), isLive_of_root hwired hroots hroot]
    rfl
  · have hfind : g.removeUnreachable.entry?.map (·.label)
        = ((g.blocks.filter fun b => g.isLive b.label).find? (·.isEntry)).map (·.label) := by
      unfold entry?
      rw [removeUnreachable_blocks, List.find?_map, Option.map_map]
      rfl
    rw [hfind, entry?]
    cases hentry : g.blocks.find? (·.isEntry) with
    | some b =>
      have hroot : b.label ∈ g.roots := by
        rw [roots, entry?, hentry]
        exact List.mem_append_left _ (List.mem_singleton_self _)
      rw [find?_filter_of_some hentry (isLive_of_root hwired hroots hroot)]
    | none =>
      rw [List.find?_eq_none.mpr fun b hb =>
        List.find?_eq_none.mp hentry b (List.mem_of_mem_filter hb)]

theorem rejoined_rootStacks (hnodup : g.labels.Nodup)
    (hrows : ∀ s ∈ g.spans, s.handlerBlocks <:+: g.labels) :
    g.rejoined.connected.rootStacks = g.rootStacks := by
  refine rootStacks_without rfl (fun s hs l hl => ?_) ?_
  · have hmem := (hrows s hs).subset (List.mem_of_mem_head? hl)
    have hkept := contains_joinedLabels g hmem
    rwa [List.contains_iff_mem.mpr (mem_rejoined_of_head hnodup hs (hrows s hs) hl),
      Bool.not_eq_true'] at hkept
  · rw [← g.rejoined_entry?_label, entry?, entry?, connected, withEdges, List.find?_map,
      Option.map_map]
    rfl

end Graph

namespace Forward

variable {m : Machine} {g : Graph} {roots : List (Int × AbstractStack)}
  {before before' : Option (Int × AbstractStack)}

/-- A block is entered knowing no less, if what has been handed to it still is. -/
theorem entryOf_lower {b b' : Block} (hlabel : b'.label = b.label)
    (h : roots.lookup b.label = none → ∀ p out, before = some (p, out) →
      isOnly p b.preds = true →
        ∃ p' out', before' = some (p', out') ∧ isOnly p' b'.preds = true ∧ Lower out out') :
    Lower (entryOf roots before b) (entryOf roots before' b') := by
  unfold entryOf
  rw [hlabel]
  cases hroot : roots.lookup b.label with
  | some s => exact .refl s
  | none =>
    cases before with
    | none => exact unknown_lower _
    | some handed =>
      obtain ⟨p, out⟩ := handed
      dsimp only
      split
      · rename_i honly
        obtain ⟨p', out', rfl, honly', hout⟩ := h hroot p out rfl honly
        dsimp only
        rw [if_pos honly']
        exact hout
      · exact unknown_lower _

/-! ## Blocks that go -/

/-- A block in the place of another one: nothing more leads to it, and from no less its code
    leads to no less. -/
structure Narrows (m : Machine) (b c : Block) : Prop where
  label : c.label = b.label
  preds : c.preds ⊆ b.preds
  transfer : ∀ {s t}, Lower s t → Lower (transfer m b.code s) (transfer m c.code t)

theorem Narrows.refl (m : Machine) (b : Block) : Narrows m b b :=
  ⟨rfl, fun _ => id, (noMore_congruent m).transfer b.code⟩

/-- A block without the blocks before it that are not live. -/
structure Trimmed (live : Int → Bool) (c c' : Block) : Prop where
  label : c'.label = c.label
  code : c'.code = c.code
  preds : ∀ l, l ∈ c'.preds ↔ l ∈ c.preds ∧ live l = true

/-- A live block hands on no less than before. -/
def HandsOn (live : Int → Bool) (before before' : Option (Int × AbstractStack)) : Prop :=
  ∀ p out, before = some (p, out) → live p = true →
    ∃ out', before' = some (p, out') ∧ Lower out out'

theorem entryOf_trimmed {live : Int → Bool} {b c c' : Block}
    (hbefore : HandsOn live before before') (hb : Narrows m b c) (hc : Trimmed live c c')
    (hfrom : roots.lookup c.label = none → ∃ l ∈ c.preds, live l = true) :
    Lower (entryOf roots before b) (entryOf roots before' c') := by
  refine entryOf_lower (hc.label.trans hb.label) fun hroot p out heq honly => ?_
  -- What leads to the block is the block before it, so that one is live.
  obtain ⟨l, hl, hlive⟩ := hfrom (hb.label ▸ hroot)
  have hall {l : Int} (hl : l ∈ c.preds) : l = p := (isOnly_iff.mp honly).2 l (hb.preds hl)
  obtain rfl := hall hl
  obtain ⟨out', hbefore', hout⟩ := hbefore l out heq hlive
  exact ⟨l, out', hbefore', isOnly_iff.mpr
    ⟨(hc.preds l).mpr ⟨hl, hlive⟩, fun k hk => hall ((hc.preds k).mp hk).1⟩, hout⟩

/-- Of blocks in the place of others the live ones are entered knowing no less. -/
theorem arrivalsFrom_trimmed {R : Block → Block → Prop} (hR : ∀ b c, R b c → Narrows m b c)
    {live : Int → Bool} {cut : Block → Block} {blocks changed : List Block}
    (h : List.Forall₂ R blocks changed) (hcut : ∀ c ∈ changed, Trimmed live c (cut c))
    (hfrom : ∀ c ∈ changed, live c.label = true → roots.lookup c.label = none →
      ∃ l ∈ c.preds, live l = true)
    (hbefore : HandsOn live before before') :
    ∀ a' ∈ arrivalsFrom m roots before' ((changed.filter fun c => live c.label).map cut),
      ∃ a ∈ arrivalsFrom m roots before blocks,
        Lower a.2 a'.2 ∧ ∃ c, R a.1 c ∧ Trimmed live c a'.1 := by
  induction h generalizing before before' with
  | nil => exact fun a' ha' => absurd ha' List.not_mem_nil
  | @cons b c blocks changed hbc _ ih =>
    have hnarrows := hR b c hbc
    have htrimmed := hcut c List.mem_cons_self
    have ih {before' : Option (Int × AbstractStack)} := @ih
      (some (b.label, transfer m b.code (entryOf roots before b))) before'
      (fun d hd => hcut d (List.mem_cons_of_mem _ hd))
      (fun d hd => hfrom d (List.mem_cons_of_mem _ hd))
    intro a' ha'
    by_cases hlive : live c.label = true
    · rw [List.filter_cons_of_pos (by exact hlive), List.map_cons] at ha'
      have hentry : Lower (entryOf roots before b) (entryOf roots before' (cut c)) :=
        entryOf_trimmed hbefore hnarrows htrimmed (hfrom c List.mem_cons_self hlive)
      rcases List.mem_cons.mp ha' with rfl | ha'
      · exact ⟨_, List.mem_cons_self, hentry, c, hbc, htrimmed⟩
      · obtain ⟨a, ha, hrest⟩ := ih (fun p out heq _ => by
          cases heq
          refine ⟨_, by rw [htrimmed.label, hnarrows.label], ?_⟩
          rw [htrimmed.code]
          exact hnarrows.transfer hentry) a' ha'
        exact ⟨a, List.mem_cons_of_mem _ ha, hrest⟩
    · rw [List.filter_cons_of_neg (by exact hlive)] at ha'
      obtain ⟨a, ha, hrest⟩ := ih (fun p out heq hp => by
        cases heq
        exact absurd (hnarrows.label ▸ hp) hlive) a' ha'
      exact ⟨a, List.mem_cons_of_mem _ ha, hrest⟩

/-- A block that is left is entered knowing no less than the block was that it has the place
    of. -/
theorem arrivals_left {g₁ : Graph} (hcurrent : g₁.Current) (hroots : g₁.roots ⊆ g₁.labels)
    (hstacks : g₁.rootStacks = g.rootStacks) {R : Block → Block → Prop}
    (hR : ∀ b c, R b c → Narrows m b c) (hblocks : List.Forall₂ R g.blocks g₁.blocks) :
    ∀ a' ∈ arrivals m g₁.removeUnreachable, ∃ a ∈ arrivals m g,
      Lower a.2 a'.2 ∧ ∃ c, R a.1 c ∧ a'.1.label = c.label ∧ a'.1.code = c.code := by
  have hwired := hcurrent.wired
  have hcut : ∀ c ∈ g₁.blocks, Trimmed g₁.isLive c { c with
      preds := c.preds.filter fun l => !(g₁.unreachable.map (·.label)).contains l
      succs := c.succs.filter fun l => !(g₁.unreachable.map (·.label)).contains l } := by
    refine fun c hc => ⟨rfl, rfl, fun l => ?_⟩
    rw [List.mem_filter]
    refine and_congr_right fun hl => ?_
    obtain ⟨d, hd, rfl, -⟩ := (hcurrent.preds c hc l).mp hl
    rw [Graph.mem_gone_iff (Graph.mem_labels_of_mem hd), Bool.not_not]
  intro a' ha'
  rw [arrivals, Graph.removeUnreachable_rootStacks hwired hroots, hstacks,
    Graph.removeUnreachable_blocks] at ha'
  have hstart : HandsOn g₁.isLive none none := fun _ _ heq => nomatch heq
  obtain ⟨a, ha, hlower, c, hRc, htrimmed⟩ :=
    arrivalsFrom_trimmed hR hblocks hcut (fun c hc hlive hnone =>
      Graph.exists_live_pred hwired hroots hc hlive (hstacks ▸ hnone)) hstart a' ha'
  exact ⟨a, ha, hlower, c, hRc, htrimmed.label, htrimmed.code⟩

/-! ## Blocks that are joined -/

/-- Code put together of the code of blocks. Where each of these starts, no less is known than
    the block was entered with. -/
inductive Pieced (m : Machine) (arrivals : List Arrival) :
    List Instruction → AbstractStack → Prop where
  | nil {s : AbstractStack} : Pieced m arrivals [] s
  | cons {a : Arrival} {code : List Instruction} {s : AbstractStack} (ha : a ∈ arrivals)
      (hentry : Lower a.2 s) (hrest : Pieced m arrivals code (transfer m a.1.code s)) :
      Pieced m arrivals (a.1.code ++ code) s

namespace Pieced

variable {arrivals arrivals' : List Arrival} {code : List Instruction} {s : AbstractStack}

theorem single {a : Arrival} (ha : a ∈ arrivals) (hentry : Lower a.2 s) :
    Pieced m arrivals a.1.code s := by
  have := Pieced.cons (m := m) ha hentry .nil
  rwa [List.append_nil] at this

/-- The blocks may be blocks with the same code that were entered knowing no more. -/
theorem mono (h : Pieced m arrivals code s)
    (hsub : ∀ a ∈ arrivals, ∃ a' ∈ arrivals', a'.1.code = a.1.code ∧ Lower a'.2 a.2) :
    Pieced m arrivals' code s := by
  induction h with
  | nil => exact .nil
  | @cons a code s ha hentry _ ih =>
    obtain ⟨a', ha', hcode, hlower⟩ := hsub a ha
    rw [← hcode] at ih ⊢
    exact .cons ha' (hlower.trans hentry) ih

theorem of_subset (h : Pieced m arrivals code s) (hsub : arrivals ⊆ arrivals') :
    Pieced m arrivals' code s :=
  h.mono fun a ha => ⟨a, hsub ha, rfl, .refl _⟩

/-- Each instruction stands in one of the pieces. -/
theorem split (h : Pieced m arrivals code s) {front' back' : List Instruction}
    {ins : Instruction} (hsplit : code = front' ++ ins :: back') :
    ∃ a ∈ arrivals, ∃ pre front back post, front' = pre ++ front ∧ back' = back ++ post
      ∧ a.1.code = front ++ ins :: back ∧ Lower a.2 (transfer m pre s) := by
  induction h generalizing front' with
  | nil => exact absurd hsplit (by simp)
  | @cons a code s ha hentry _ ih =>
    rcases List.append_eq_append_iff.mp hsplit with ⟨more, rfl, hcode⟩ | ⟨more, hcode, hmore⟩
    · obtain ⟨a', ha', pre, front, back, post, rfl, rfl, hcode', hlower⟩ := ih hcode
      refine ⟨a', ha', a.1.code ++ pre, front, back, post, ?_, rfl, hcode', ?_⟩
      · rw [List.append_assoc]
      · rwa [transfer_append]
    · rcases List.cons_eq_append_iff.mp hmore with ⟨rfl, hcode'⟩ | ⟨rest, rfl, rfl⟩
      · -- The piece ends in front of the instruction.
        rw [List.append_nil] at hcode
        obtain ⟨a', ha', pre, front, back, post, hnil, rfl, hfound, hlower⟩ := @ih [] hcode'
        obtain ⟨rfl, rfl⟩ := List.append_eq_nil_iff.mp hnil.symm
        refine ⟨a', ha', a.1.code, [], back, post, ?_, rfl, hfound, hlower⟩
        rw [hcode, List.append_nil]
      · exact ⟨a, ha, [], front', rest, code, rfl, rfl, hcode, hentry⟩

end Pieced

/-- A block that is no root is entered knowing no more than what is handed to it. -/
theorem entryOf_inside {c : Block} (hnone : roots.lookup c.label = none) (p : Int)
    {out s : AbstractStack} (hout : Lower out s) :
    Lower (entryOf roots (some (p, out)) c) s := by
  unfold entryOf
  rw [hnone]
  dsimp only
  split
  · exact hout
  · exact unknown_lower _

/-- The blocks of a run are pieces of the joined run, if control comes in at its start only, and
    the joined run hands on no less than the last of them. -/
theorem pieced_run {b : Block} {bs : List Block}
    (hothers : ∀ c ∈ bs, roots.lookup c.label = none) {s : AbstractStack}
    (hentry : Lower (entryOf roots before b) s) (rest : List Block) :
    Pieced m (arrivalsFrom m roots before (b :: bs ++ rest)) ((b :: bs).flatMap (·.code)) s
      ∧ ∃ p x out, b :: bs = p ++ [x]
        ∧ Lower out (transfer m ((b :: bs).flatMap (·.code)) s)
        ∧ arrivalsFrom m roots (some (x.label, out)) rest
          ⊆ arrivalsFrom m roots before (b :: bs ++ rest) := by
  have hout := (noMore_congruent m).transfer b.code hentry
  induction bs generalizing b before s with
  | nil =>
    rw [List.flatMap_singleton]
    exact ⟨.single List.mem_cons_self hentry, [], b, _, rfl, hout, List.subset_cons_self _ _⟩
  | cons c bs ih =>
    have hnext := entryOf_inside (hothers c List.mem_cons_self) b.label hout
    obtain ⟨hpieced, p, x, out, hpx, hlower, hsub⟩ := ih
      (fun d hd => hothers d (List.mem_cons_of_mem _ hd)) hnext
      ((noMore_congruent m).transfer c.code hnext)
    have hlater : arrivalsFrom m roots
        (some (b.label, transfer m b.code (entryOf roots before b))) (c :: bs ++ rest)
          ⊆ arrivalsFrom m roots before (b :: c :: bs ++ rest) := List.subset_cons_self _ _
    rw [List.flatMap_cons]
    refine ⟨.cons List.mem_cons_self hentry (hpieced.of_subset hlater),
      b :: p, x, out, by rw [hpx]; rfl, ?_, List.Subset.trans hsub hlater⟩
    rwa [transfer_append]

/-- The blocks that are left are put together of those before joining, from any run on. -/
theorem pieced_joined (hcurrent : g.Current) (hjoined : g.rejoined.connected.Current)
    (hrows : ∀ s ∈ g.spans, s.handlerBlocks <:+: g.labels) {edges : Block → Block}
    (hedges : g.rejoined.connected.blocks = g.joinedBlocks.map edges)
    (hsame : ∀ b, (edges b).label = b.label ∧ (edges b).code = b.code)
    {blocks joined : List Block} (h : Graph.Grouped g blocks joined)
    {done doneJoined : List Block} (hdone : Graph.Grouped g done doneJoined)
    (hsplit : g.blocks = done ++ blocks) (hsplit' : g.joinedBlocks = doneJoined ++ joined)
    (hentry : ∀ b ∈ blocks.head?, ∀ j ∈ joined.head?,
      Lower (entryOf g.rootStacks before b) (entryOf g.rootStacks before' (edges j))) :
    ∀ a' ∈ arrivalsFrom m g.rootStacks before' (joined.map edges),
      Pieced m (arrivalsFrom m g.rootStacks before blocks) a'.1.code a'.2 := by
  induction h generalizing done doneJoined before before' with
  | nil => exact fun a' ha' => absurd ha' List.not_mem_nil
  | @run b bs rest joined hrun hrest ih =>
    let r : g.Run := ⟨b, bs, done, rest, doneJoined, joined, hsplit, hsplit', hrun, hdone, hrest⟩
    have hnodup := hcurrent.labels_nodup
    have hothers : ∀ c ∈ bs, g.rootStacks.lookup c.label = none := by
      intro c hc
      by_contra hsome
      obtain ⟨s, hs⟩ := Option.ne_none_iff_exists'.mp hsome
      exact r.not_root hnodup hrows hc (Graph.mem_rootStacks (mem_of_lookup hs)).1
    have hfirst := hentry b rfl (Graph.glued b bs) rfl
    obtain ⟨hpieced, p, x, out, hpx, hout, hsub⟩ := pieced_run (m := m) hothers hfirst rest
    have hcode : (edges (Graph.glued b bs)).code = (b :: bs).flatMap (·.code) := (hsame _).2
    intro a' ha'
    rcases List.mem_cons.mp ha' with rfl | ha'
    · rw [hcode]
      exact hpieced
    · have hdone' : Graph.Grouped g (done ++ (b :: bs)) (doneJoined ++ [Graph.glued b bs]) := by
        have := hdone.append (.run hrun .nil)
        rwa [List.append_nil] at this
      refine (ih hdone' ?_ ?_ (fun c hc j hj => ?_) a' ha').of_subset hsub
      · rw [hsplit, List.append_assoc]
      · rw [hsplit', List.append_assoc]
        rfl
      · -- The next run starts with a block that the joined run is followed by.
        obtain ⟨rest, rfl⟩ := List.head?_eq_some_iff.mp hc
        obtain ⟨joined, rfl⟩ := List.head?_eq_some_iff.mp hj
        have hlabel : (edges j).label = c.label :=
          (hsame j).1.trans (Option.some.inj hrest.labels_head)
        refine entryOf_lower hlabel fun _ p' out' heq honly => ?_
        cases heq
        refine ⟨_, _, rfl, ?_, hcode ▸ hout⟩
        rw [(hsame _).1]
        exact r.isOnly_first hcurrent hjoined hpx (by rw [hsplit]; simp)
          (by rw [hedges, hsplit']; simp) hlabel honly

/-- The code of each block after joining is put together of blocks, which were entered knowing no
    more. -/
theorem pieced_merged (hcurrent : g.Current)
    (hcheck : ∀ ins ∈ g.code, ins.checkTargets = .ok ())
    (hrows : ∀ s ∈ g.spans, s.handlerBlocks <:+: g.labels) :
    ∀ a' ∈ arrivals m g.merged, Pieced m (arrivals m g) a'.1.code a'.2 := by
  have hmerged := hcurrent.merged hcheck
  rw [Graph.merged_eq] at hmerged ⊢
  split at hmerged
  · rename_i hnone
    rw [if_pos hnone]
    exact fun a' ha' => .single ha' (.refl _)
  · rename_i hsome
    rw [if_neg hsome]
    unfold arrivals
    rw [Graph.rejoined_rootStacks hcurrent.labels_nodup hrows]
    refine pieced_joined hcurrent hmerged hrows rfl (fun b => ⟨rfl, rfl⟩) g.joinedBlocks_grouped
      .nil rfl rfl fun b hb j hj => ?_
    have hlabel := g.joinedBlocks_grouped.labels_head
    rw [List.head?_map, List.head?_map, hb, show g.joinedBlocks.head? = some j from hj] at hlabel
    exact entryOf_lower (Option.some.inj hlabel) fun _ _ _ heq => nomatch heq

end Forward

end Untangle
