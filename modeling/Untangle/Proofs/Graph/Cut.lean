/-
  Untangle.Proofs.Graph.Cut

  Cutting code into runs. For places in rising order, the runs from each place up to the
  next are not empty, start with the instruction at the place, have no other of the places
  inside, and are all of the code from the first place on when written one behind the other.
-/
import Mathlib.Data.List.Pairwise
import Untangle.Graph.Build
import Untangle.Proofs.Graph.Refined

namespace Untangle

namespace Graph

/-- The uid of the instruction at a place. -/
def labelAt (code : List Instruction) (p : Nat) : Int := ((code[p]?).map (·.uid)).getD 0

theorem labelAt_eq {code : List Instruction} {p : Nat} {ins : Instruction}
    (h : code[p]? = some ins) : labelAt code p = ins.uid := by
  simp [labelAt, h]

/-- Places with the same uid are the same. -/
theorem labelAt_inj {code : List Instruction} (hnodup : (code.map (·.uid)).Nodup) {p q : Nat}
    (hp : p < code.length) (hq : q < code.length) (h : labelAt code p = labelAt code q) :
    p = q := by
  rw [labelAt_eq (List.getElem?_eq_getElem hp), labelAt_eq (List.getElem?_eq_getElem hq)] at h
  have hp' : p < (code.map (·.uid)).length := by rwa [List.length_map]
  have hq' : q < (code.map (·.uid)).length := by rwa [List.length_map]
  have hsame : (code.map (·.uid))[p] = (code.map (·.uid))[q] := by simpa using h
  exact hnodup.getElem_inj_iff.mp hsame

/-- The place of a uid. -/
theorem place?_eq_some {code : List Instruction} (hnodup : (code.map (·.uid)).Nodup) {uid : Int}
    {p : Nat} : Method.place? code uid = some p ↔ p < code.length ∧ labelAt code p = uid := by
  unfold Method.place?
  rw [List.findIdx?_eq_some_iff_getElem]
  constructor
  · rintro ⟨hp, huid, -⟩
    exact ⟨hp, (labelAt_eq (List.getElem?_eq_getElem hp)).trans (eq_of_beq huid)⟩
  · rintro ⟨hp, rfl⟩
    refine ⟨hp, ?_, fun q hq hsame => ?_⟩
    · rw [labelAt_eq (List.getElem?_eq_getElem hp)]
      exact beq_self_eq_true _
    · have hq' : q < code.length := by omega
      have := labelAt_inj hnodup hq' hp (by
        rw [labelAt_eq (List.getElem?_eq_getElem hq')]
        exact eq_of_beq (by simpa using hsame))
      omega

/-- Places in rising order inside of code. -/
structure Places (code : List Instruction) (starts : List Nat) : Prop where
  rising : starts.Pairwise (· < ·)
  inside : ∀ p ∈ starts, p < code.length

namespace Places

variable {code : List Instruction} {starts : List Nat}

theorem tail {s : Nat} (h : Places code (s :: starts)) : Places code starts :=
  ⟨(List.pairwise_cons.mp h.rising).2, fun p hp => h.inside p (List.mem_cons_of_mem _ hp)⟩

/-- Where the run that starts at a place ends. -/
theorem next_bounds {s : Nat} (h : Places code (s :: starts)) :
    s < starts.head?.getD code.length ∧ starts.head?.getD code.length ≤ code.length := by
  cases starts with
  | nil => exact ⟨h.inside s List.mem_cons_self, Nat.le_refl _⟩
  | cons t rest =>
    refine ⟨(List.pairwise_cons.mp h.rising).1 t List.mem_cons_self, ?_⟩
    exact Nat.le_of_lt (h.inside t (List.mem_cons_of_mem _ List.mem_cons_self))

/-- Each place starts a run. -/
theorem runs_places (code : List Instruction) (starts : List Nat) :
    (runsFrom code starts).map (·.1) = starts := by
  induction starts with
  | nil => rfl
  | cons s rest ih => rw [runsFrom, List.map_cons, ih]

/-- The runs are the code from the first place on. -/
theorem runs_code {s : Nat} (h : Places code (s :: starts)) :
    (runsFrom code (s :: starts)).flatMap (·.2) = code.drop s := by
  induction starts generalizing s with
  | nil =>
    have hall : (code.drop s).take (code.length - s) = code.drop s :=
      List.take_of_length_le (by rw [List.length_drop])
    simp [runsFrom, hall]
  | cons t rest ih =>
    have hlt : s < t := (List.pairwise_cons.mp h.rising).1 t List.mem_cons_self
    rw [runsFrom, List.flatMap_cons, ih h.tail]
    show (code.drop s).take (t - s) ++ code.drop t = code.drop s
    have hdrop : code.drop t = (code.drop s).drop (t - s) := by
      rw [List.drop_drop]
      congr 1
      omega
    rw [hdrop, List.take_append_drop]

/-- The instructions of a run are those from its place on, and no other place is inside. -/
theorem run_getElem? (h : Places code starts) {s : Nat} {run : List Instruction}
    (hrun : (s, run) ∈ runsFrom code starts) :
    s ∈ starts ∧ 0 < run.length ∧ ∀ i, i < run.length →
      run[i]? = code[s + i]? ∧ s + i < code.length ∧ (0 < i → s + i ∉ starts) := by
  induction starts with
  | nil => cases hrun
  | cons t rest ih =>
    obtain ⟨hnext, hbound⟩ := h.next_bounds
    rcases List.mem_cons.mp hrun with heq | hin
    · obtain ⟨rfl, rfl⟩ := Prod.mk.inj heq
      have hlength : ((code.drop s).take (rest.head?.getD code.length - s)).length
          = rest.head?.getD code.length - s := by
        rw [List.length_take, List.length_drop]
        omega
      refine ⟨List.mem_cons_self, by rw [hlength]; omega, fun i hi => ?_⟩
      rw [hlength] at hi
      refine ⟨?_, by omega, fun hpos hmem => ?_⟩
      · rw [List.getElem?_take_of_lt hi, List.getElem?_drop]
      · rcases List.mem_cons.mp hmem with heq' | hmem
        · omega
        · -- Places behind are at the end of the run or later.
          cases rest with
          | nil => cases hmem
          | cons u rest =>
            have hu : i < u - s := hi
            have hrising := (List.pairwise_cons.mp h.tail.rising).1
            rcases List.mem_cons.mp hmem with heq' | hmem
            · omega
            · have := hrising _ hmem
              omega
    · obtain ⟨hs, hpos, hget⟩ := ih h.tail hin
      have hlt := (List.pairwise_cons.mp h.rising).1 s hs
      refine ⟨List.mem_cons_of_mem _ hs, hpos, fun i hi => ?_⟩
      obtain ⟨hc, hlen, hnot⟩ := hget i hi
      refine ⟨hc, hlen, fun h0 hmem => ?_⟩
      rcases List.mem_cons.mp hmem with heq | hmem
      · omega
      · exact hnot h0 hmem

/-- Each run becomes a block. -/
theorem blocks_eq (h : Places code starts) :
    (runsFrom code starts).filterMap blockOf
      = (runsFrom code starts).map fun run =>
          { label := labelAt code run.1, code := run.2, isEntry := run.1 == 0 } := by
  rw [List.filterMap_eq_map_iff_forall_eq_some]
  rintro ⟨s, c⟩ hrun
  obtain ⟨-, hpos, hget⟩ := h.run_getElem? hrun
  obtain ⟨hc, hlen, -⟩ := hget 0 hpos
  obtain ⟨first, rest, rfl⟩ := List.exists_cons_of_length_pos hpos
  rw [Nat.add_zero] at hc
  rw [blockOf, labelAt_eq hc.symm]
  rfl

end Places

/-! ## The places where blocks start -/

theorem mem_blockStarts {code : List Instruction} {ranges : List RegionRange}
    {terminators : List Value} {p : Nat} :
    p ∈ blockStarts code ranges terminators
      ↔ p < code.length ∧ isStart code ranges terminators
          (code.flatMap fun ins => ins.targetUids.filterMap (Method.place? code)) p = true := by
  rw [blockStarts, List.mem_filter, List.mem_range]

theorem blockStarts_places (code : List Instruction) (ranges : List RegionRange)
    (terminators : List Value) : Places code (blockStarts code ranges terminators) where
  rising := List.pairwise_lt_range.filter _
  inside _ hp := (mem_blockStarts.mp hp).1

/-- A block starts where a branch leads. -/
theorem mem_blockStarts_of_target {code : List Instruction} {ranges : List RegionRange}
    {terminators : List Value} {ins : Instruction} (hins : ins ∈ code) {uid : Int}
    (hu : uid ∈ ins.targetUids) {p : Nat} (hp : Method.place? code uid = some p) :
    p ∈ blockStarts code ranges terminators := by
  have hlt : p < code.length := by
    obtain ⟨hlt, -⟩ := List.findIdx?_eq_some_iff_getElem.mp hp
    exact hlt
  refine mem_blockStarts.mpr ⟨hlt, ?_⟩
  have hmem : p ∈ code.flatMap fun ins => ins.targetUids.filterMap (Method.place? code) :=
    List.mem_flatMap.mpr ⟨ins, hins, List.mem_filterMap.mpr ⟨uid, hu, hp⟩⟩
  simp only [isStart, List.contains_iff_mem.mpr hmem, Bool.or_true, Bool.true_or]

/-- A block starts behind an instruction that ends a run. -/
theorem mem_blockStarts_of_end {code : List Instruction} {ranges : List RegionRange}
    {terminators : List Value} {p : Nat} {ins : Instruction} (hins : code[p]? = some ins)
    (hends : ins.endsRun terminators = true) (hp : p + 1 < code.length) :
    p + 1 ∈ blockStarts code ranges terminators := by
  refine mem_blockStarts.mpr ⟨hp, ?_⟩
  simp [isStart, hins, hends]

/-- A block starts at each boundary of a range, and behind its end. -/
theorem mem_blockStarts_of_range {code : List Instruction} {ranges : List RegionRange}
    {terminators : List Value} {r : RegionRange} (hr : r ∈ ranges) {start finish : Int}
    (hpart : (start, finish) ∈ r.parts) {p : Nat} (hp : p < code.length)
    (h : start = p ∨ finish + 1 = p) : p ∈ blockStarts code ranges terminators := by
  refine mem_blockStarts.mpr ⟨hp, ?_⟩
  unfold isStart
  rw [Bool.or_eq_true]
  refine Or.inr (List.any_eq_true.mpr ⟨r, hr, List.any_eq_true.mpr ⟨(start, finish), hpart, ?_⟩⟩)
  simpa using h

/-- The first instruction starts a block. -/
theorem blockStarts_head {code : List Instruction} (hne : code ≠ []) (ranges : List RegionRange)
    (terminators : List Value) : (blockStarts code ranges terminators).head? = some 0 := by
  obtain ⟨ins, rest, rfl⟩ := List.exists_cons_of_ne_nil hne
  rw [blockStarts, List.length_cons, List.range_succ_eq_map, List.filter_cons_of_pos (by rfl)]
  rfl

/-! ## The blocks of cut code -/

/-- The outline of code that is cut at places. -/
def cutOutline (code : List Instruction) (starts : List Nat) : Outline :=
  (runsFrom code starts).map fun run => (labelAt code run.1, run.2)

namespace Places

variable {code : List Instruction} {starts : List Nat}

theorem labels_cut (code : List Instruction) (starts : List Nat) :
    (cutOutline code starts).labels = starts.map (labelAt code) := by
  rw [Outline.labels, cutOutline, List.map_map]
  conv => rhs; rw [← runs_places code starts, List.map_map]
  rfl

theorem labels_nodup (h : Places code starts) (hnodup : (code.map (·.uid)).Nodup) :
    (cutOutline code starts).labels.Nodup := by
  rw [labels_cut]
  refine List.Nodup.map_on (fun p hp q hq heq => ?_) ?_
  · exact labelAt_inj hnodup (h.inside p hp) (h.inside q hq) heq
  · exact h.rising.imp fun hlt => Nat.ne_of_lt hlt

/-- The code from a block on is the code from its place on. -/
theorem from?_cut (h : Places code starts) (hnodup : (code.map (·.uid)).Nodup) {p : Nat}
    (hp : p ∈ starts) :
    ((cutOutline code starts).from? (labelAt code p)).map Outline.code = some (code.drop p) := by
  induction starts with
  | nil => cases hp
  | cons s rest ih =>
    by_cases hs : p = s
    · subst hs
      have hcode := h.runs_code
      rw [cutOutline, runsFrom, List.map_cons, Outline.from?]
      simp only [List.dropWhile_cons, bne_self_eq_false, Bool.false_eq_true, if_false,
        Option.map_some]
      rw [runsFrom, List.flatMap_cons] at hcode
      rw [Outline.code_cons, Outline.code, List.flatMap_map]
      exact congrArg some hcode
    · have hin : p ∈ rest := by
        rcases List.mem_cons.mp hp with heq | hin
        · exact absurd heq hs
        · exact hin
      have hne : labelAt code s ≠ labelAt code p := fun heq =>
        hs (labelAt_inj hnodup (h.inside p hp) (h.inside s List.mem_cons_self) heq.symm)
      rw [cutOutline, runsFrom, List.map_cons, Outline.from?_cons_of_ne _ (by exact hne)]
      exact ih h.tail hin

/-- A block that is cut starts with the instruction that labels it. -/
theorem first_of_mem (h : Places code starts) {e : Int × List Instruction}
    (he : e ∈ cutOutline code starts) : ∃ first rest, e.2 = first :: rest ∧ first.uid = e.1 := by
  obtain ⟨⟨s, c⟩, hrun, rfl⟩ := List.mem_map.mp he
  obtain ⟨-, hpos, hget⟩ := h.run_getElem? hrun
  cases c with
  | nil => cases hpos
  | cons first rest =>
    refine ⟨first, rest, rfl, ?_⟩
    have hfirst := (hget 0 hpos).1
    rw [List.getElem?_cons_zero, Nat.add_zero] at hfirst
    exact (labelAt_eq hfirst.symm).symm

/-- The places inside a range of labels are a run of the places. -/
theorem infix_within (h : Places code starts) (first last : Int) :
    (starts.filter fun (p : Nat) => first ≤ (p : Int) && (p : Int) ≤ last) <:+: starts := by
  have hrising := h.rising
  clear h
  induction starts with
  | nil => exact List.infix_refl _
  | cons s rest ih =>
    obtain ⟨hs, hrest⟩ := List.pairwise_cons.mp hrising
    by_cases hin : (first ≤ (s : Int) && (s : Int) ≤ last) = true
    · -- From the first place inside on, the places inside are those up to the last.
      rw [List.filter_cons_of_pos (by exact hin)]
      refine List.IsPrefix.isInfix ?_
      have hfront (ps : List Nat) (hps : ps.Pairwise (· < ·)) (hall : ∀ p ∈ ps, s < p) :
          (ps.filter fun (p : Nat) => first ≤ (p : Int) && (p : Int) ≤ last) <+: ps := by
        induction ps with
        | nil => exact List.prefix_refl _
        | cons p ps ihp =>
          obtain ⟨hp, hps'⟩ := List.pairwise_cons.mp hps
          simp only [Bool.and_eq_true, decide_eq_true_eq] at hin
          have hsp := hall p List.mem_cons_self
          by_cases hle : (p : Int) ≤ last
          · rw [List.filter_cons_of_pos (by simp; omega)]
            refine List.prefix_cons_inj p |>.mpr (ihp hps' fun q hq => ?_)
            exact hall q (List.mem_cons_of_mem _ hq)
          · have hnil : (p :: ps).filter (fun (p : Nat) =>
                first ≤ (p : Int) && (p : Int) ≤ last) = [] := by
              rw [List.filter_eq_nil_iff]
              intro q hq
              have hpq : p ≤ q := by
                rcases List.mem_cons.mp hq with rfl | hq
                · exact Nat.le_refl _
                · exact Nat.le_of_lt (hp q hq)
              simp
              omega
            rw [hnil]
            exact List.nil_prefix
      exact List.prefix_cons_inj s |>.mpr (hfront rest hrest hs)
    · rw [List.filter_cons_of_neg (by exact hin)]
      exact (ih hrest).trans (List.suffix_cons s rest).isInfix

end Places

end Graph

end Untangle
