/-
  Untangle.Proofs.Stage.Exposed

  Pruning loses nothing that the single pass has found out. An instruction that is left stands in
  a piece of its block that was a block before, and the pass comes to that piece knowing no less
  (`Forward.exists_source`). Nor does a round of resolving dispatches and pruning lose anything:
  a resolved dispatch leads to the stack that the dispatch led to, and to no block that it did
  not lead to. So the selector of a dispatch that is left is known if it was (`Work.prune_exposes`).
-/
import Untangle.Proofs.Abstract.Pieces
import Untangle.Proofs.Stage.Total
import Untangle.Proofs.Stage.Undisturbed

namespace Untangle

open AbstractStack

/-! ## Facts -/

/-- What is known of an instruction stays known. -/
structure Facts.Keeps (f f' : Facts) (uid : Int) : Prop where
  value : ∀ n, f.knownInt? uid = some n → f'.knownInt? uid = some n
  depth : ∀ d, f.depthBefore? uid = some d → f'.depthBefore? uid = some d

/-- What is found about an instruction stays known, if the pass comes to it knowing no less. -/
theorem Arrival.keeps {m : Machine} {g g' : Graph} {arrivals arrivals' : List Arrival}
    (hblocks : arrivals.map (·.1) = g.blocks) (hblocks' : arrivals'.map (·.1) = g'.blocks)
    (huids : (g.code.map (·.uid)).Nodup) (huids' : (g'.code.map (·.uid)).Nodup)
    {a a' : Arrival} (ha : a ∈ arrivals) (ha' : a' ∈ arrivals') {ins : Instruction}
    {front back front' back' : List Instruction} (hsplit : a.1.code = front ++ ins :: back)
    (hsplit' : a'.1.code = front' ++ ins :: back')
    (hlower : Lower (transfer m front a.2) (transfer m front' a'.2)) :
    (facts m arrivals).Keeps (facts m arrivals') ins.uid where
  value n hn := by
    rw [knownInt?_eq hblocks huids ha hsplit] at hn
    rw [knownInt?_eq hblocks' huids' ha' hsplit']
    have hvalue := ((noMore_congruent m).step ins hlower).2
    generalize (step m ins (transfer m front a.2)).2 = value at hn hvalue
    generalize (step m ins (transfer m front' a'.2)).2 = value' at hvalue
    cases hvalue with
    | none => cases hn
    | some hv =>
      have hknown := integer?_eq_some.mp hn
      exact integer?_eq_some.mpr (hv _ hknown)
  depth d hd := by
    rw [Facts.depthBefore?, find?_facts hblocks huids ha hsplit] at hd
    rw [Facts.depthBefore?, find?_facts hblocks' huids' ha' hsplit']
    exact hlower.depth? hd

/-- What the single pass has found out about a graph it finds out about another one, too, as far
    as instructions are in both. -/
structure Facts.Persist (f : Facts) (m : Machine) (g g' : Graph) : Prop where
  found : ∀ width, m.width = .whole width →
    ∃ f', (Analysis.findings { kind := .forward, machine := m } g').facts = .ok f'
  kept : ∀ f', (Analysis.findings { kind := .forward, machine := m } g').facts = .ok f' →
    ∀ ins ∈ g'.code, ins ∈ g.code → f.Keeps f' ins.uid

namespace Forward

variable {m : Machine} {g g₁ : Graph}

/-- Facts can be had when no instructions come in but those that stages make. -/
theorem found_of_made {f : Facts}
    (hf : (Analysis.findings { kind := .forward, machine := m } g).facts = .ok f)
    {g' : Graph} (hdrawn : ∀ ins ∈ g'.code, ins ∈ g.code ∨ ins.IsMade) (width : Width)
    (hwidth : m.width = .whole width) :
    ∃ f', (Analysis.findings { kind := .forward, machine := m } g').facts = .ok f' := by
  rw [Analysis.facts_eq_outcome] at hf
  have hruns : g.Runs m := Graph.runs_of_outcome hwidth (arrivals_blocks m g) hf
  refine ⟨_, Analysis.forward_total ((Graph.runs_iff hwidth).mpr fun ins hins s fault => ?_)⟩
  rcases hdrawn ins hins with hold | hmade
  · exact (Graph.runs_iff hwidth).mp hruns ins hold s fault
  · rw [Graph.of?_of_made hmade]
    exact nofun

/-- An instruction that pruning leaves comes from a block to which the pass came knowing no
    more, if the blocks that are pruned are in the place of others. -/
theorem exists_source (hcurrent : g₁.Current) (hleft : g₁.removeUnreachable.Current)
    (hroots : g₁.roots ⊆ g₁.labels) (hcheck : ∀ ins ∈ g₁.code, ins.checkTargets = .ok ())
    (hrows : ∀ s ∈ g₁.spans, s.handlerBlocks <:+: g₁.labels)
    (hstacks : g₁.rootStacks = g.rootStacks) {R : Block → Block → Prop}
    (hR : ∀ b c, R b c → Narrows m b c) (hblocks : List.Forall₂ R g.blocks g₁.blocks)
    {a' : Arrival} (ha' : a' ∈ arrivals m g₁.pruned) {front' back' : List Instruction}
    {ins : Instruction} (hsplit : a'.1.code = front' ++ ins :: back') :
    ∃ a ∈ arrivals m g, ∃ c, R a.1 c ∧ ∃ pre front back post,
      front' = pre ++ front ∧ back' = back ++ post ∧ c.code = front ++ ins :: back
        ∧ Lower a.2 (transfer m pre a'.2) := by
  have hpieced : ∀ a' ∈ arrivals m g₁.pruned,
      Pieced m (arrivals m g₁.removeUnreachable) a'.1.code a'.2 := by
    intro a' ha'
    unfold Graph.pruned at ha'
    split at ha'
    · rename_i hnone
      rw [← Graph.removeUnreachable_eq_self (List.isEmpty_iff.mp hnone)] at ha'
      exact .single ha' (.refl _)
    · exact pieced_merged hleft (fun ins hins => hcheck ins
        ((Graph.removeUnreachable_code_sublist g₁).subset hins))
        (Graph.removeUnreachable_handlers hrows) a' ha'
  obtain ⟨a₁, ha₁, pre, front, back, post, hfront, hback, hcode, hlower₁⟩ :=
    (hpieced a' ha').split hsplit
  obtain ⟨a, ha, hlower, c, hRc, -, hsame⟩ :=
    arrivals_left hcurrent hroots hstacks hR hblocks a₁ ha₁
  exact ⟨a, ha, c, hRc, pre, front, back, post, hfront, hback, hsame ▸ hcode,
    hlower.trans hlower₁⟩

end Forward

/-! ## Resolved dispatches -/

namespace Dispatch

variable {facts : Facts} {g : Graph} {b : Block} {number : Int → Int}

/-- An instruction that only pushes. -/
theorem step_of_pure (m : Machine) {ins : Instruction}
    (h : ins.opcode.any pureProducers.contains = true) (s : AbstractStack) :
    ∃ v, (step m ins s).1 = s.push v := by
  unfold step
  cases hop : ins.opcode with
  | none => rw [hop] at h; cases h
  | some op =>
    rw [hop] at h
    cases op with
    | pushConst => exact ⟨_, rfl⟩
    | loadLocal => exact ⟨_, rfl⟩
    | sizeOf => exact ⟨_, rfl⟩
    | _ => cases h

/-- A resolved dispatch leads to the stack that the dispatch led to. -/
theorem resolved_transfer (facts : Facts) (hnodup : (b.code.map (·.uid)).Nodup)
    (number : Int → Int) (m : Machine) (s : AbstractStack) :
    transfer m (b.code.flatMap (Edit.outcome (editsOf facts b) number)) s
      = transfer m b.code s := by
  cases hchosen : isChosen facts b with
  | false => rw [code_of_not_chosen hchosen]
  | true =>
    obtain ⟨n, t, hof⟩ := isChosen_iff.mp hchosen
    obtain ⟨init, switch, hproven⟩ := ofBlock_eq_chosen hof
    have hswitch (s : AbstractStack) : (step m switch s).1 = s.pop.2 := by
      unfold step
      rw [hproven.opcode]
    rcases hproven.resolved_code hof hnodup number with
      ⟨before, producer, rfl, hpure, hnew⟩ | hnew
    · rw [hnew, hproven.code, transfer_append, transfer_append, transfer_append]
      obtain ⟨v, hv⟩ := step_of_pure m hpure (transfer m before s)
      show transfer m before s = (step m switch (step m producer (transfer m before s)).1).1
      rw [hv, hswitch]
      rfl
    · rw [hnew, hproven.code, transfer_append, transfer_append]
      exact (hswitch _).symm

/-- Blocks with their dispatches resolved are in the place of the blocks. -/
theorem resolved_narrows (facts : Facts) (h : g.Formed) (hlinked : g.Linked) :
    ∃ number, (∀ v, g.fresh ≤ number v) ∧ List.Forall₂ (fun b c : Block => b ∈ g.blocks
      ∧ c.code = b.code.flatMap (Edit.outcome (editsOf facts b) number)
      ∧ ∀ m, Forward.Narrows m b c) g.blocks (resolved facts g).blocks := by
  obtain ⟨_, hchanged⟩ := h.changed hlinked (suits facts h)
  obtain ⟨-, number, hfresh, hblocks⟩ := resolved_blocks facts h.numbered
  refine ⟨number, hfresh, (forall₂_mem hblocks).imp ?_⟩
  rintro b c ⟨hb, hc, hlabel, hcode⟩
  refine ⟨hb, hcode, fun m => ⟨hlabel, fun l hl => ?_, fun {s t} hst => ?_⟩⟩
  · have hleads := hchanged.leads_back h (fun b hb _ hins => gentle (h.block_uids_nodup hb) hins)
      ((hchanged.linked.preds c hc l).mp hl)
    exact (hlinked.preds b hb l).mpr (hlabel ▸ hleads)
  · rw [hcode, resolved_transfer facts (h.block_uids_nodup hb)]
    exact (noMore_congruent m).transfer b.code hst

/-- An instruction that stands in a resolved block as it was before has the same code in front
    of it. -/
theorem split_of_resolved (h : g.Formed) (hfresh : ∀ v, g.fresh ≤ number v) (hb : b ∈ g.blocks)
    {ins : Instruction} (hins : ins ∈ g.code) {front back : List Instruction}
    (hnew : b.code.flatMap (Edit.outcome (editsOf facts b) number) = front ++ ins :: back) :
    ∃ more, b.code = front ++ ins :: more := by
  cases hchosen : isChosen facts b with
  | false => exact ⟨back, (code_of_not_chosen hchosen number).symm.trans hnew⟩
  | true =>
    obtain ⟨n, t, hof⟩ := isChosen_iff.mp hchosen
    obtain ⟨init, switch, hproven⟩ := ofBlock_eq_chosen hof
    have hswitch : switch ∈ g.code := Graph.mem_code_of_mem (Graph.mem_outline_of_mem hb)
      (hproven.code ▸ List.mem_append_right _ (List.mem_singleton_self _))
    have hbranch : ins ≠ switch.become .branch (.value t) := by
      rintro rfl
      have hsame := List.inj_on_of_nodup_map h.uids_nodup hins hswitch rfl
      have hop := hproven.opcode
      rw [← hsame] at hop
      cases hop
    have hdiscard : ins ≠ { opcode := some .pop, uid := number switch.uid } := by
      rintro rfl
      have hold : number switch.uid < g.fresh := h.uids_fresh _ hins
      have := hfresh switch.uid
      omega
    rcases hproven.resolved_code hof (h.block_uids_nodup hb) number with
      ⟨before, producer, rfl, -, hcode⟩ | hcode
    · rw [hcode] at hnew
      rcases split_of_append hnew with ⟨more, rfl⟩ | hin
      · exact ⟨more ++ [producer, switch], by rw [hproven.code]; simp⟩
      · exact absurd (List.mem_singleton.mp hin) hbranch
    · rw [hcode] at hnew
      rcases split_of_append hnew with ⟨more, rfl⟩ | hin
      · exact ⟨more ++ [switch], by rw [hproven.code]; simp⟩
      · rcases List.mem_cons.mp hin with hin | hin
        · exact absurd hin hdiscard
        · exact absurd (List.mem_singleton.mp hin) hbranch

/-- A block that ends with a dispatch after resolving is as it was before. -/
theorem eq_of_resolved (hnodup : (b.code.map (·.uid)).Nodup) {front : List Instruction}
    {switch : Instruction} (hop : switch.opcode = some .switch)
    (hnew : b.code.flatMap (Edit.outcome (editsOf facts b) number) = front ++ [switch]) :
    b.code = front ++ [switch] := by
  cases hchosen : isChosen facts b with
  | false => exact (code_of_not_chosen hchosen number).symm.trans hnew
  | true =>
    obtain ⟨n, t, hof⟩ := isChosen_iff.mp hchosen
    obtain ⟨init, switch', hproven⟩ := ofBlock_eq_chosen hof
    have hlast : (front ++ [switch]).getLast? = some (switch'.become .branch (.value t)) := by
      rw [← hnew]
      rcases hproven.resolved_code hof hnodup number with ⟨_, _, -, -, hcode⟩ | hcode
      · rw [hcode, List.getLast?_concat]
      · rw [hcode, List.append_cons, List.getLast?_concat]
    rw [List.getLast?_concat] at hlast
    rw [Option.some.inj hlast] at hop
    cases hop

end Dispatch

/-! ## Selectors -/

/-- Nothing is known of what a dispatch takes that has just been loaded. -/
theorem Forward.knownInt?_of_loaded {m : Machine} {g : Graph}
    (huids : (g.code.map (·.uid)).Nodup) {b : Block} (hb : b ∈ g.blocks)
    {front : List Instruction} {load switch : Instruction}
    (hcode : b.code = front ++ [load, switch]) (hload : load.opcode = some .loadLocal)
    (hswitch : switch.opcode = some .switch) :
    (Arrival.facts m (arrivals m g)).knownInt? switch.uid = none := by
  obtain ⟨s, hs⟩ := exists_arrival (m := m) hb
  have hsplit : b.code = (front ++ [load]) ++ switch :: [] := by rw [hcode]; simp
  rw [knownInt?_eq (arrivals_blocks m g) huids hs hsplit, transfer_append]
  have hpushed : transfer m [load] (transfer m front s) = (transfer m front s).push .unknown := by
    show (step m load _).1 = _
    unfold step
    rw [hload]
  rw [hpushed]
  unfold step
  rw [hswitch]
  rfl

/-- A selector that is known stays known, when the block comes to stand behind other code. -/
theorem Block.selector?_of_keeps {f f' : Facts} {b b' : Block} {pre init : List Instruction}
    {switch : Instruction} (hcode : b.code = init ++ [switch]) (hcode' : b'.code = pre ++ b.code)
    (hkeeps : ∀ ins ∈ b.code, f.Keeps f' ins.uid)
    (hloaded : ∀ front load, b'.code = front ++ [load, switch] → load.opcode = some .loadLocal →
      f'.knownInt? switch.uid = none) {k : Int} (hk : b.selector? f = some k) :
    b'.selector? f' = some k := by
  have hbehind : b'.code = pre ++ init ++ [switch] := by
    rw [hcode', hcode, List.append_assoc]
  have hswitch : switch ∈ b.code := hcode ▸ List.mem_append_right _ (List.mem_singleton_self _)
  rcases (selector?_eq_some hcode).mp hk with
    hknown | ⟨-, before, store, load, rfl, hstore, hload, hname, hknown⟩
  · exact (selector?_eq_some hbehind).mpr (Or.inl ((hkeeps switch hswitch).value k hknown))
  · have hpair : b'.code = (pre ++ before ++ [store]) ++ [load, switch] := by
      rw [hbehind]
      simp
    have hmem : store ∈ b.code := by
      rw [hcode]
      simp
    refine (selector?_eq_some hbehind).mpr (Or.inr ⟨hloaded _ load hpair hload, pre ++ before,
      store, load, (List.append_assoc _ _ _).symm, hstore, hload, hname, ?_⟩)
    exact (hkeeps store hmem).value k hknown

/-! ## Rounds -/

namespace Forward

variable {m : Machine} {g : Graph} {f : Facts}

/-- Facts persist when each instruction that is in both graphs comes from a block to which the
    pass came knowing no more. -/
theorem persist_of_source {g' : Graph} (huids : (g.code.map (·.uid)).Nodup)
    (huids' : (g'.code.map (·.uid)).Nodup)
    (hf : (Analysis.findings { kind := .forward, machine := m } g).facts = .ok f)
    (hdrawn : ∀ ins ∈ g'.code, ins ∈ g.code ∨ ins.IsMade)
    (hsource : ∀ a' ∈ arrivals m g', ∀ front' ins back', a'.1.code = front' ++ ins :: back' →
      ins ∈ g.code → ∃ a ∈ arrivals m g, ∃ front back, a.1.code = front ++ ins :: back
        ∧ Lower (transfer m front a.2) (transfer m front' a'.2)) :
    f.Persist m g g' where
  found := found_of_made hf hdrawn
  kept f' hf' ins hins hold := by
    obtain ⟨b', hb', hin⟩ := List.mem_flatMap.mp hins
    obtain ⟨front', back', hsplit'⟩ := List.append_of_mem hin
    obtain ⟨s', ha'⟩ := exists_arrival (m := m) hb'
    obtain ⟨a, ha, front, back, hsplit, hlower⟩ :=
      hsource (b', s') ha' front' ins back' hsplit' hold
    rw [Analysis.findings_eq_ok hf, Analysis.findings_eq_ok hf']
    exact Arrival.keeps (arrivals_blocks m g) (arrivals_blocks m g') huids huids' ha ha' hsplit
      hsplit' hlower

end Forward

namespace Graph

variable {m : Machine} {g : Graph} {f : Facts}

/-- Facts persist through pruning. -/
theorem Sturdy.persist_pruned (h : g.Sturdy) (hcurrent : g.Current)
    (hf : (Analysis.findings { kind := .forward, machine := m } g).facts = .ok f) :
    f.Persist m g g.pruned := by
  have hdrawn : ∀ ins ∈ g.pruned.code, ins ∈ g.code := by
    rw [pruned_code]
    exact (List.filter_sublist.flatMap _).subset
  refine Forward.persist_of_source hcurrent.uids_nodup (h.current_pruned hcurrent).uids_nodup hf
    (fun ins hins => Or.inl (hdrawn ins hins)) fun a' ha' front' ins back' hsplit' _ => ?_
  obtain ⟨a, ha, c, rfl, pre, front, back, post, rfl, -, hsplit, hlower⟩ :=
    Forward.exists_source (R := Eq) hcurrent (h.current_removeUnreachable hcurrent)
      h.roots_subset h.followed h.handlers rfl (fun b c hbc => hbc ▸ .refl m b)
      (List.forall₂_same.mpr fun _ _ => rfl) ha' hsplit'
  refine ⟨a, ha, front, back, hsplit, ?_⟩
  rw [transfer_append]
  exact (noMore_congruent m).transfer front hlower

/-- An instruction that is left after dispatches have been resolved and the graph has been
    pruned comes from a block to which the pass came knowing no more. -/
theorem Formed.exists_source (facts : Facts) (h : g.Formed) (hlinked : g.Linked) :
    ∃ number, (∀ v, g.fresh ≤ number v)
      ∧ ∀ a' ∈ Forward.arrivals m (Dispatch.resolved facts g).pruned, ∀ front' ins back',
        a'.1.code = front' ++ ins :: back' → ∃ a ∈ Forward.arrivals m g, a.1 ∈ g.blocks
          ∧ ∃ pre front back post, front' = pre ++ front ∧ back' = back ++ post
            ∧ a.1.code.flatMap (Edit.outcome (Dispatch.editsOf facts a.1) number)
              = front ++ ins :: back
            ∧ Lower a.2 (transfer m pre a'.2) := by
  obtain ⟨_, hchanged⟩ := h.changed hlinked (Dispatch.suits facts h)
  obtain ⟨number, hfresh, hblocks⟩ := Dispatch.resolved_narrows facts h hlinked
  have hformed := hchanged.formed
  refine ⟨number, hfresh, fun a' ha' front' ins back' hsplit' => ?_⟩
  obtain ⟨a, ha, c, ⟨hb, hcode, -⟩, pre, front, back, post, hfront, hback, hsplit, hlower⟩ :=
    Forward.exists_source (hformed.current hchanged.linked)
      ((hformed.removeUnreachable hchanged.linked).current
        (hformed.removeUnreachable_linked hchanged.linked))
      hformed.roots_subset (fun _ hins => hformed.checkTargets hins) hformed.handlers
      hchanged.reworked.rootStacks (fun b c hbc => hbc.2.2 m) hblocks ha' hsplit'
  exact ⟨a, ha, hb, pre, front, back, post, hfront, hback, hcode ▸ hsplit, hlower⟩

/-- Facts persist through a round of resolving dispatches and pruning. -/
theorem Formed.persist_round (facts : Facts) (h : g.Formed) (hlinked : g.Linked)
    (hf : (Analysis.findings { kind := .forward, machine := m } g).facts = .ok f) :
    f.Persist m g (Dispatch.resolved facts g).pruned := by
  obtain ⟨_, hchanged⟩ := h.changed hlinked (Dispatch.suits facts h)
  obtain ⟨number, hfresh, hsource⟩ := Formed.exists_source (m := m) facts h hlinked
  have hdrawn : ∀ ins ∈ (Dispatch.resolved facts g).pruned.code, ins ∈ g.code ∨ ins.IsMade := by
    intro ins hins
    rw [pruned_code] at hins
    replace hins : ins ∈ (Dispatch.resolved facts g).code :=
      (List.filter_sublist.flatMap _).subset hins
    rw [show (Dispatch.resolved facts g).code = _ from hchanged.code] at hins
    obtain ⟨b, hb, hins⟩ := List.mem_flatMap.mp hins
    obtain ⟨old, hold, hins⟩ := List.mem_flatMap.mp hins
    rcases Edit.mem_outcome_drawn ((Dispatch.suits facts h).mild b hb old hold) hins with
      rfl | hmade
    · exact Or.inl (List.mem_flatMap.mpr ⟨b, hb, hold⟩)
    · exact Or.inr hmade
  refine Forward.persist_of_source h.uids_nodup
    (hchanged.formed.pruned hchanged.linked).formed.uids_nodup hf hdrawn
    fun a' ha' front' ins back' hsplit' hins => ?_
  obtain ⟨a, ha, hb, pre, front, back, post, rfl, -, hnew, hlower⟩ :=
    hsource a' ha' front' ins back' hsplit'
  obtain ⟨more, hsplit⟩ := Dispatch.split_of_resolved h hfresh hb hins hnew
  refine ⟨a, ha, front, more, hsplit, ?_⟩
  rw [transfer_append]
  exact (noMore_congruent m).transfer front hlower

/-- A dispatch that is left after a round was there before, and its selector is still known if it
    was known. -/
theorem Formed.selectors_round (facts : Facts) (h : g.Formed) (hlinked : g.Linked)
    (hf : (Analysis.findings { kind := .forward, machine := m } g).facts = .ok f) {f' : Facts}
    (hf' : (Analysis.findings { kind := .forward, machine := m }
      (Dispatch.resolved facts g).pruned).facts = .ok f')
    {b' : Block} (hb' : b' ∈ (Dispatch.resolved facts g).pruned.blocks) {switch : Instruction}
    (hlast : b'.last? = some switch) (hop : switch.opcode = some .switch) :
    ∃ b ∈ g.blocks, b.last? = some switch
      ∧ ∀ k, b.selector? f = some k → b'.selector? f' = some k := by
  obtain ⟨_, hchanged⟩ := h.changed hlinked (Dispatch.suits facts h)
  obtain ⟨number, -, hsource⟩ := Formed.exists_source (m := m) facts h hlinked
  have huids' := (hchanged.formed.pruned hchanged.linked).formed.uids_nodup
  obtain ⟨s', ha'⟩ := Forward.exists_arrival (m := m) hb'
  obtain ⟨front', hcode'⟩ := List.getLast?_eq_some_iff.mp hlast
  obtain ⟨a, -, hb, pre, front, back, post, rfl, hnil, hnew, -⟩ :=
    hsource (b', s') ha' front' switch [] hcode'
  obtain ⟨rfl, rfl⟩ := List.append_eq_nil_iff.mp hnil.symm
  have hcode := Dispatch.eq_of_resolved (h.block_uids_nodup hb) hop hnew
  refine ⟨a.1, hb, by rw [Block.last?, hcode, List.getLast?_concat], fun k hk => ?_⟩
  have hbehind : b'.code = pre ++ a.1.code := by
    rw [hcode, ← List.append_assoc]
    exact hcode'
  refine Block.selector?_of_keeps hcode hbehind (fun ins hins => ?_) (fun front load hpair hload =>
    ?_) hk
  · have hold : ins ∈ g.code := List.mem_flatMap.mpr ⟨_, hb, hins⟩
    refine (h.persist_round facts hlinked hf).kept f' hf' ins ?_ hold
    exact List.mem_flatMap.mpr ⟨b', hb', hbehind ▸ List.mem_append_right _ hins⟩
  · rw [Analysis.findings_eq_ok hf']
    exact Forward.knownInt?_of_loaded huids' hb' hpair hload hop

end Graph

namespace Work

variable {m : Method} {terminators : List Value} {w : Workbench}

/-- On every graph on the way to a replacement whose edges are up to date, pruning loses no fact of
    the single pass: an integer that is known of an instruction, or the depth of the stack in front
    of it, is the same afterwards, if the instruction is left. Up to the last stage no fact about
    an instruction is lost when dispatches are resolved, with whatever facts, and the graph is
    pruned. So a dispatch that is left was there before, and its selector is known if it was. -/
theorem prune_exposes (huids : (m.code.map (·.uid)).Nodup) (h : w.graph.Arrives m terminators)
    (hcurrent : w.graph.Current) {machine : Machine} {f : Facts}
    (hf : (Analysis.findings { kind := .forward, machine } w.graph).facts = .ok f) :
    (∃ dead w', prune.run w = .ok dead w' ∧ f.Persist machine w.graph w'.graph)
      ∧ (w.graph.Underway m terminators Deed.IsEarly →
        ∀ proven w₁, Work.facts.run w = .ok proven w₁ →
          ∃ n w₂ dead w₃, Stage.resolveSwitches.run w = .ok n w₂ ∧ prune.run w₂ = .ok dead w₃
            ∧ f.Persist machine w.graph w₃.graph
            ∧ ∀ f₃, (Analysis.findings { kind := .forward, machine } w₃.graph).facts = .ok f₃ →
              ∀ b₃ ∈ w₃.graph.blocks, ∀ switch, b₃.last? = some switch →
                switch.opcode = some .switch →
                  ∃ b ∈ w.graph.blocks, b.last? = some switch
                    ∧ ∀ k, b.selector? f = some k → b₃.selector? f₃ = some k) := by
  have hsturdy := h.sturdy huids
  constructor
  · obtain ⟨w', hrun, halike⟩ := prune_wired hcurrent.wired hsturdy.followed
    have hgraph : w'.graph = w.graph.pruned := halike.graph
    exact ⟨_, w', hrun, hgraph ▸ hsturdy.persist_pruned hcurrent hf⟩
  · intro hearly proven w₁ hproven
    obtain ⟨_, -, ⟨_, _, htraced⟩, -⟩ := hearly.traced (fun _ => id) huids
    have hformed := htraced.formed
    obtain ⟨w₂, hresolve, halike₂⟩ := Stage.resolveSwitches_run hformed hproven
    have hgraph₂ : w₂.graph = Dispatch.resolved proven w.graph := halike₂.graph
    obtain ⟨_, hchanged⟩ := hformed.changed htraced.linked (Dispatch.suits proven hformed)
    obtain ⟨w₃, hprune, halike₃⟩ := prune_run (w := w₂) (hgraph₂ ▸ hchanged.formed)
      (hgraph₂ ▸ hchanged.linked)
    have hgraph₃ : w₃.graph = (Dispatch.resolved proven w.graph).pruned := by
      rw [← hgraph₂]
      exact halike₃.graph
    refine ⟨_, w₂, _, w₃, hresolve, hprune, ?_, fun f₃ hf₃ b₃ hb₃ switch hlast hop => ?_⟩
    · rw [hgraph₃]
      exact hformed.persist_round proven htraced.linked hf
    · rw [hgraph₃] at hf₃ hb₃
      exact hformed.selectors_round proven htraced.linked hf hf₃ hb₃ hlast hop

/-- A dispatch to another one. What is between them leads to the second one, too, so nothing is
    known of its selector while that is there. -/
def chained : Method where
  code :=
    [{ opcode := some .pushConst, operand := .value (.int 0), uid := 0 },
     { opcode := some .pushConst, operand := .value (.int 0), uid := 1 },
     { opcode := some .switch, operand := .value (.tuple [.int 4]), uid := 2 },
     { opcode := some .nop, uid := 3 },
     { opcode := some .switch, operand := .value (.tuple [.int 6]), uid := 4 },
     { opcode := some .nop, uid := 5 },
     { opcode := some .other, uid := 6, mnemonic := .str "ret" }]

/-- Its five blocks. -/
def chainedGraph : Graph where
  blocks :=
    [{ label := 0, code := chained.code.take 3, succs := [4, 3], isEntry := true },
     { label := 3, code := [chained.code[3]], preds := [0], succs := [4] },
     { label := 4, code := [chained.code[4]], preds := [0, 3], succs := [6, 5] },
     { label := 5, code := [chained.code[5]], preds := [4], succs := [6] },
     { label := 6, code := [chained.code[6]], preds := [4, 5] }]
  terminators := Graph.usualTerminators
  fresh := 7

theorem prune_exposes_chained : ∃ f w₂ w₃ f₃,
    (Analysis.findings { kind := .forward } chainedGraph).facts = .ok f
      ∧ Stage.resolveSwitches.run { graph := chainedGraph, analysis := {} } = .ok 1 w₂
      ∧ prune.run w₂ = .ok [3] w₃
      ∧ (Analysis.findings { kind := .forward } w₃.graph).facts = .ok f₃
      ∧ f.knownInt? 0 = some 0 ∧ f.knownInt? 4 = none ∧ f₃.knownInt? 4 = some 0
      ∧ ∀ ins ∈ w₃.graph.code, ins ∈ chainedGraph.code → f.Keeps f₃ ins.uid := by
  have hbuild : Graph.build chained Graph.usualTerminators = .ok chainedGraph := rfl
  have huids : (chained.code.map (·.uid)).Nodup := by decide
  have hfound : ∃ f, (Analysis.findings { kind := .forward } chainedGraph).facts = .ok f
      ∧ f.knownInt? 0 = some 0 ∧ f.knownInt? 4 = none := ⟨_, rfl, rfl, rfl⟩
  have hround : (match Stage.resolveSwitches.run { graph := chainedGraph, analysis := {} } with
      | .ok n w₂ =>
        match prune.run w₂ with
        | .ok dead w₃ => some (n, dead,
            (Analysis.findings { kind := .forward } w₃.graph).facts.toOption.bind (·.knownInt? 4))
        | .error _ _ => none
      | .error _ _ => none) = some (1, [3], some 0) := by decide +kernel
  obtain ⟨f, hf, hfirst, hsecond⟩ := hfound
  obtain ⟨hformed, hlinked⟩ := Graph.build_formed hbuild huids
  obtain ⟨proven, w₁, hproven⟩ :=
    Stage.exists_facts (w := { graph := chainedGraph, analysis := {} }) hf
  obtain ⟨-, hrounds⟩ := prune_exposes (w := { graph := chainedGraph, analysis := {} }) huids
    (.early (.built hbuild)) (hformed.current hlinked) hf
  obtain ⟨n, w₂, dead, w₃, hresolve, hprune, hpersist, -⟩ :=
    hrounds (.built hbuild) proven w₁ hproven
  obtain ⟨f₃, hf₃⟩ := hpersist.found .four rfl
  rw [hresolve] at hround
  dsimp only at hround
  rw [hprune] at hround
  dsimp only at hround
  rw [hf₃] at hround
  obtain ⟨rfl, hrest⟩ := Prod.mk.inj (Option.some.inj hround)
  obtain ⟨rfl, hknown⟩ := Prod.mk.inj hrest
  exact ⟨f, w₂, w₃, f₃, hf, hresolve, hprune, hf₃, hfirst, hsecond, hknown, hpersist.kept f₃ hf₃⟩

end Work

end Untangle
