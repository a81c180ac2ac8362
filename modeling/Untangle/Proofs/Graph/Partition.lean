/-
  Untangle.Proofs.Graph.Partition

  The blocks that a method is cut into. They are the code of the method, part by part; branches
  lead to their starts and stand at their ends only, and no range of a region starts or ends
  inside one (`Parts`). Every block has a reason to start where it does (`Begins`), so there is
  no coarser way to write the code in such parts: any other one comes from cutting blocks
  further (`Partition.coarsest`).
-/
import Untangle.Proofs.Graph.Covered

namespace Untangle

namespace Graph

/-! ## Cutting code at some places and then at others -/

namespace Places

variable {code : List Instruction} {front back : List Nat}

/-- Where the run in front of some places ends. -/
def stop (code : List Instruction) (back : List Nat) : Nat := back.head?.getD code.length

theorem right (h : Places code (front ++ back)) : Places code back :=
  ⟨(List.pairwise_append.mp h.rising).2.1, fun p hp => h.inside p (List.mem_append_right _ hp)⟩

theorem stop_le (h : Places code back) : stop code back ≤ code.length := by
  cases back with
  | nil => exact Nat.le_refl _
  | cons p back => exact Nat.le_of_lt (h.inside p List.mem_cons_self)

theorem lt_stop (h : Places code (front ++ back)) {p : Nat} (hp : p ∈ front) :
    p < stop code back := by
  cases back with
  | nil => exact h.inside p (List.mem_append_left _ hp)
  | cons q back => exact (List.pairwise_append.mp h.rising).2.2 p hp q List.mem_cons_self

/-- The places in front cut the code in front. -/
theorem left (h : Places code (front ++ back)) : Places (code.take (stop code back)) front where
  rising := (List.pairwise_append.mp h.rising).1
  inside p hp := by
    rw [List.length_take, Nat.min_eq_left h.right.stop_le]
    exact h.lt_stop hp

/-- The runs in front are those of the code in front. -/
theorem runsFrom_append (h : Places code (front ++ back)) :
    runsFrom code (front ++ back)
      = runsFrom (code.take (stop code back)) front ++ runsFrom code back := by
  induction front with
  | nil => rfl
  | cons s front ih =>
    have htail : Places code (front ++ back) := h.tail
    rw [List.cons_append, runsFrom, ih htail, runsFrom, List.cons_append]
    congr 2
    -- The run ends where the next one starts, and the last run in front where its code ends.
    have hstop : stop code (front ++ back) ≤ stop code back
        ∧ stop (code.take (stop code back)) front = stop code (front ++ back) := by
      cases front with
      | nil =>
        refine ⟨Nat.le_refl _, ?_⟩
        show (code.take (stop code back)).length = _
        rw [List.length_take, Nat.min_eq_left htail.right.stop_le]
        rfl
      | cons t front => exact ⟨Nat.le_of_lt (htail.lt_stop List.mem_cons_self), rfl⟩
    show (code.drop s).take (stop code (front ++ back) - s)
      = ((code.take (stop code back)).drop s).take (stop (code.take (stop code back)) front - s)
    rw [hstop.2, List.drop_take, List.take_take, Nat.min_eq_left (by omega)]

/-- The runs in front are the code in front. -/
theorem front_code (h : Places code (front ++ back)) (hzero : (front ++ back).head? = some 0) :
    (runsFrom (code.take (stop code back)) front).flatMap (·.2) = code.take (stop code back) := by
  cases front with
  | nil =>
    have hstop : stop code back = 0 := by
      rw [List.nil_append] at hzero
      rw [stop, hzero]
      rfl
    rw [hstop]
    rfl
  | cons s front =>
    obtain rfl : s = 0 := Option.some.inj hzero
    rw [h.left.runs_code, List.drop_zero]

end Places

/-! ## The code in front of a block -/

namespace Places

variable {code : List Instruction} {starts : List Nat}

/-- A block starts at a place, and the blocks in front of it are the code in front of the
    place. -/
theorem place_of_split (h : Places code starts) (hzero : starts.head? = some 0)
    {before rest : Outline} {e : Int × List Instruction}
    (hsplit : cutOutline code starts = before ++ e :: rest) :
    ∃ p ∈ starts, e.1 = labelAt code p ∧ before.code = code.take p ∧ (before ≠ [] → p ≠ 0) := by
  obtain ⟨front, back, hruns, rfl, hback⟩ := List.map_eq_append_iff.mp hsplit
  obtain ⟨⟨p, c⟩, back, rfl, rfl, -⟩ := List.map_eq_cons_iff.mp hback
  have hstarts : starts = front.map (·.1) ++ p :: back.map (·.1) := by
    rw [← runs_places code starts, hruns, List.map_append, List.map_cons]
  have hplaces := hstarts ▸ h
  have hfront : front = runsFrom (code.take p) (front.map (·.1)) := by
    rw [hstarts, hplaces.runsFrom_append] at hruns
    refine (List.append_inj_left hruns ?_).symm
    rw [← List.length_map (f := (·.1)), runs_places, List.length_map]
  refine ⟨p, hstarts ▸ List.mem_append_right _ List.mem_cons_self, rfl, ?_, fun hne => ?_⟩
  · have hcode := hplaces.front_code (hstarts ▸ hzero)
    rw [Outline.code, List.flatMap_map, hfront]
    exact hcode
  · obtain ⟨run, front, rfl⟩ := List.exists_cons_of_ne_nil (show front ≠ [] by
      rintro rfl
      exact hne rfl)
    have hlt : run.1 < p := hplaces.lt_stop List.mem_cons_self
    omega

/-- What starts behind a range starts directly behind it. -/
theorem stop_behind {front run back : List Nat} {a b : Nat}
    (h : Places code (front ++ (a :: run ++ back))) (hb : b < code.length)
    (hin : ∀ p, p ∈ a :: run ↔ p ∈ front ++ (a :: run ++ back) ∧ a ≤ p ∧ p ≤ b)
    (hbehind : b + 1 < code.length → b + 1 ∈ front ++ (a :: run ++ back)) :
    stop code back = b + 1 := by
  have hrising := List.pairwise_append.mp h.right.rising
  have hbeyond (p : Nat) (hp : p ∈ back) : b < p := by
    by_contra hle
    have hmem := (hin p).mpr ⟨List.mem_append_right _ (List.mem_append_right _ hp),
      Nat.le_of_lt (hrising.2.2 a List.mem_cons_self p hp), Nat.le_of_not_lt hle⟩
    exact Nat.lt_irrefl p (hrising.2.2 p hmem p hp)
  have hnext (hlt : b + 1 < code.length) : b + 1 ∈ back := by
    rcases List.mem_append.mp (hbehind hlt) with hfront | hmem
    · have hbefore := (List.pairwise_append.mp h.rising).2.2 _ hfront a List.mem_cons_self
      have hab := (hin a).mp List.mem_cons_self
      omega
    · refine (List.mem_append.mp hmem).resolve_left fun hrun => ?_
      have := (hin (b + 1)).mp hrun
      omega
  cases back with
  | nil => exact Nat.le_antisymm (Nat.le_of_not_lt fun hlt => nomatch hnext hlt) hb
  | cons q back =>
    have hq := hbeyond q List.mem_cons_self
    have hlt := h.right.right.inside q List.mem_cons_self
    rcases List.mem_cons.mp (hnext (by omega)) with heq | hmem
    · exact heq.symm
    · have := (List.pairwise_cons.mp h.right.right.rising).1 _ hmem
      show q = b + 1
      omega

/-- The blocks that start inside a range are the code of the range, and those in front of them
    the code in front of it, if blocks start with the range and behind it. -/
theorem exists_range (h : Places code starts) (hzero : starts.head? = some 0) {a b : Nat}
    (ha : a ∈ starts) (hab : a ≤ b) (hb : b < code.length)
    (hbehind : b + 1 < code.length → b + 1 ∈ starts) :
    ∃ front run back : Outline, cutOutline code starts = front ++ run ++ back
      ∧ run.labels = (starts.filter fun (p : Nat) =>
          (a : Int) ≤ (p : Int) && (p : Int) ≤ (b : Int)).map (labelAt code)
      ∧ front.code = code.take a ∧ run.code = (code.drop a).take (b + 1 - a) := by
  obtain ⟨front, back, hstarts⟩ := h.infix_within a b
  have hhead := head_within h.rising ha hab
  have hin (p : Nat) : p ∈ (starts.filter fun (p : Nat) =>
      (a : Int) ≤ (p : Int) && (p : Int) ≤ (b : Int)) ↔ p ∈ starts ∧ a ≤ p ∧ p ≤ b := by
    simp
  generalize (starts.filter fun (p : Nat) =>
    (a : Int) ≤ (p : Int) && (p : Int) ≤ (b : Int)) = run at *
  obtain ⟨run, rfl⟩ := List.head?_eq_some_iff.mp hhead
  rw [List.append_assoc] at hstarts
  subst hstarts
  have hstop : stop code back = b + 1 := h.stop_behind hb hin hbehind
  have hruns : runsFrom code (front ++ (a :: run ++ back))
      = runsFrom (code.take a) front
        ++ (runsFrom (code.take (b + 1)) (a :: run) ++ runsFrom code back) := by
    rw [h.runsFrom_append, h.right.runsFrom_append, hstop]
    rfl
  refine ⟨(runsFrom (code.take a) front).map fun r => (labelAt code r.1, r.2),
    (runsFrom (code.take (b + 1)) (a :: run)).map fun r => (labelAt code r.1, r.2),
    (runsFrom code back).map fun r => (labelAt code r.1, r.2), ?_, ?_, ?_, ?_⟩
  · rw [cutOutline, hruns, List.map_append, List.map_append, List.append_assoc]
  · rw [Outline.labels, List.map_map]
    conv => rhs; rw [← runs_places (code.take (b + 1)) (a :: run), List.map_map]
    rfl
  · rw [Outline.code, List.flatMap_map]
    exact h.front_code hzero
  · have hleft := h.right.left
    rw [hstop] at hleft
    rw [Outline.code, List.flatMap_map]
    exact hleft.runs_code.trans (List.drop_take ..)

end Places

/-! ## Why a block starts where it does -/

/-- Why a block with a label starts behind some code: a branch leads there, control leaves the
    code through its end, a range of a region starts there, or one ends with the code. -/
inductive Begins (m : Method) (terminators : List Value) (before : List Instruction)
    (label : Int) : Prop where
  | target {ins : Instruction} {t : Value} (hins : ins ∈ m.code) (ht : t ∈ ins.aims)
      (hnames : t.wholeNumber? = some label)
  | behind {last : Instruction} (hlast : before.getLast? = some last)
      (hends : last.endsRun terminators = true)
  | range {r : Region} (hr : r ∈ m.regions)
      (hstart : r.tryStart.wholeNumber? = some label ∨ r.handlerStart.wholeNumber? = some label)
  | behindRange {r : Region} {last : Instruction} (hr : r ∈ m.regions)
      (hlast : before.getLast? = some last)
      (hend : r.tryEnd.wholeNumber? = some last.uid ∨ r.handlerEnd.wholeNumber? = some last.uid)

/-- A value that names the instruction at a place. -/
theorem names_place {code : List Instruction} (hnodup : (code.map (·.uid)).Nodup) {v : Value}
    {p : Nat} (h : Method.placeOf? code v = some p) :
    p < code.length ∧ v.wholeNumber? = some (labelAt code p) := by
  obtain ⟨uid, huid, hplace⟩ := wholeNumber?_of_placeOf? h
  obtain ⟨hlt, rfl⟩ := (place?_eq_some hnodup).mp hplace
  exact ⟨hlt, huid⟩

/-- The last instruction in front of a place. -/
theorem getLast?_take_succ (code : List Instruction) {p : Nat} (hp : p < code.length) :
    (code.take (p + 1)).getLast? = some code[p] := by
  rw [List.take_add_one, List.getElem?_eq_getElem hp]
  exact List.getLast?_concat ..

namespace Accepts

variable {m : Method} {terminators : List Value} {ranges : List RegionRange}
  {exits : List ExitRecord}

/-- A range belongs to a region. -/
theorem exists_region (h : Accepts m terminators ranges exits) {range : RegionRange}
    (hrange : range ∈ ranges) :
    ∃ r ∈ m.regions, ∃ a b c d : Nat, range = ⟨a, b, c, d⟩ ∧ RangeOf m.code r a b c d := by
  obtain ⟨i, hi⟩ := List.mem_iff_getElem?.mp hrange
  obtain ⟨⟨r, j⟩, hr, hok⟩ := forall₂_getElem? h.fits.flip hi
  obtain ⟨a, b, c, d, heq, hat⟩ := regionRange_eq_ok.mp hok
  refine ⟨r, ?_, a, b, c, d, heq, hat⟩
  have := (List.mem_zipIdx' (List.mem_of_getElem? hr)).2
  exact this ▸ List.getElem_mem _

/-- There is a reason for each place but the first where a block starts. -/
theorem begins (h : Accepts m terminators ranges exits) (hnodup : (m.code.map (·.uid)).Nodup)
    {p : Nat} (hp : p ∈ blockStarts m.code ranges terminators) (hne : p ≠ 0) :
    Begins m terminators (m.code.take p) (labelAt m.code p) := by
  obtain ⟨hlt, hstart⟩ := mem_blockStarts.mp hp
  obtain ⟨q, rfl⟩ := Nat.exists_eq_succ_of_ne_zero hne
  have hlast : (m.code.take (q + 1)).getLast? = some m.code[q] :=
    getLast?_take_succ m.code (by omega)
  unfold isStart at hstart
  simp only [Bool.or_eq_true, beq_iff_eq, Nat.succ_ne_zero, false_or, Nat.succ_sub_one] at hstart
  -- What is left are the reasons of a place that is not the first.
  rcases hstart with (htarget | hend) | hrange
  · obtain ⟨ins, hins, huids⟩ := List.mem_flatMap.mp (List.contains_iff_mem.mp htarget)
    obtain ⟨uid, huid, hplace⟩ := List.mem_filterMap.mp huids
    obtain ⟨ts, hts, -⟩ := h.target hnodup hins
    rw [Instruction.targetUids, hts] at huid
    obtain ⟨t, ht, hnames⟩ := List.mem_filterMap.mp huid
    obtain ⟨-, rfl⟩ := (place?_eq_some hnodup).mp hplace
    refine .target hins (t := t) ?_ hnames
    rw [Instruction.aims, hts]
    exact ht
  · rw [List.getElem?_eq_getElem (show q < m.code.length by omega)] at hend
    exact .behind hlast hend
  · obtain ⟨range, hmem, hpart⟩ := List.any_eq_true.mp hrange
    obtain ⟨r, hr, a, b, c, d, rfl, hat⟩ := h.exists_region hmem
    have hbehind (e : Nat) (he : (e : Int) + 1 = ((q + 1 : Nat) : Int)) :
        m.code[q].uid = labelAt m.code e := by
      obtain rfl : e = q := by omega
      exact (labelAt_eq (List.getElem?_eq_getElem _)).symm
    simp only [RegionRange.parts, List.any_cons, List.any_nil, Bool.or_false, Bool.or_eq_true,
      beq_iff_eq] at hpart
    rcases hpart with (hstart | hend) | (hstart | hend)
    · obtain rfl : a = q + 1 := by omega
      exact .range hr (Or.inl (names_place hnodup hat.tryStart).2)
    · refine .behindRange hr hlast (Or.inl ?_)
      rw [hbehind b hend]
      exact (names_place hnodup hat.tryEnd).2
    · obtain rfl : c = q + 1 := by omega
      exact .range hr (Or.inr (names_place hnodup hat.handlerStart).2)
    · refine .behindRange hr hlast (Or.inr ?_)
      rw [hbehind d hend]
      exact (names_place hnodup hat.handlerEnd).2

end Accepts

/-! ## Other ways to write code in parts -/

/-- Some parts in a row are the code from one place to another, both included. -/
def Whole (parts : List (List Instruction)) (code : List Instruction) (a b : Nat) : Prop :=
  ∃ front run back, parts = front ++ run ++ back ∧ front.flatten = code.take a
    ∧ run.flatten = (code.drop a).take (b + 1 - a)

/-- A way to write the code of a method in parts that could be its blocks: no part is empty,
    branches lead to the starts of parts, control leaves a part through its end only, and the
    ranges of regions are parts in a row. -/
structure Parts (m : Method) (terminators : List Value) (parts : List (List Instruction)) :
    Prop where
  code : parts.flatten = m.code
  nonempty : ∀ part ∈ parts, part ≠ []
  targets : ∀ ins ∈ m.code, ∀ t ∈ ins.aims, ∃ first rest, first :: rest ∈ parts
    ∧ t.wholeNumber? = some first.uid
  ends : ∀ part ∈ parts, ∀ ins ∈ part.dropLast, ins.endsRun terminators = false
  ranges : ∀ r ∈ m.regions, ∀ a b c d, RangeOf m.code r a b c d →
    Whole parts m.code a b ∧ Whole parts m.code c d

/-- A part ends where some code does. -/
def EndsWith (parts : List (List Instruction)) (before : List Instruction) : Prop :=
  ∃ front back, parts = front ++ back ∧ front.flatten = before

namespace Whole

variable {parts : List (List Instruction)} {code : List Instruction} {a b : Nat}

theorem start (h : Whole parts code a b) : EndsWith parts (code.take a) := by
  obtain ⟨front, run, back, rfl, hfront, -⟩ := h
  exact ⟨front, run ++ back, List.append_assoc .., hfront⟩

theorem finish (h : Whole parts code a b) (hab : a ≤ b) : EndsWith parts (code.take (b + 1)) := by
  obtain ⟨front, run, back, rfl, hfront, hrun⟩ := h
  refine ⟨front ++ run, back, rfl, ?_⟩
  rw [List.flatten_append, hfront, hrun, ← List.take_add]
  congr 1
  omega

end Whole

/-- Where an instruction stands that has some code in front of it. -/
theorem place_of_front {code front more : List Instruction} {first : Instruction}
    (h : code = front ++ first :: more) :
    code[front.length]? = some first ∧ code.take front.length = front := by
  subst h
  refine ⟨?_, List.take_left' rfl⟩
  rw [List.getElem?_append_right (Nat.le_refl _), Nat.sub_self]
  rfl

/-- A value that names the last instruction in front of a place. -/
theorem names_behind {code : List Instruction} (hnodup : (code.map (·.uid)).Nodup) {v : Value}
    {p q : Nat} {last : Instruction} (hp : p < code.length) (hv : Method.placeOf? code v = some q)
    (hlast : (code.take p).getLast? = some last) (hnames : v.wholeNumber? = some last.uid) :
    q + 1 = p := by
  obtain ⟨hq, hlabel⟩ := names_place hnodup hv
  cases p with
  | zero => cases hlast
  | succ p =>
    have hlt : p < code.length := Nat.lt_of_succ_lt hp
    rw [getLast?_take_succ code hlt] at hlast
    cases hlast
    have huid := labelAt_eq (List.getElem?_eq_getElem hlt)
    rw [labelAt_inj hnodup hq hlt ((Option.some.inj (hlabel.symm.trans hnames)).trans huid.symm)]

namespace Parts

variable {m : Method} {terminators : List Value} {parts : List (List Instruction)}

/-- A part ends in front of the first instruction of another. -/
theorem endsWith_first (h : Parts m terminators parts) (hnodup : (m.code.map (·.uid)).Nodup)
    {first : Instruction} {rest : List Instruction} (hpart : first :: rest ∈ parts) {p : Nat}
    (hp : p < m.code.length) (hlabel : labelAt m.code p = first.uid) :
    EndsWith parts (m.code.take p) := by
  obtain ⟨front, back, rfl⟩ := List.append_of_mem hpart
  have hcode : m.code = front.flatten ++ first :: (rest ++ back.flatten) := by
    rw [← h.code, List.flatten_append, List.flatten_cons]
    rfl
  obtain ⟨hplace, hfront⟩ := place_of_front hcode
  have hlt := (List.getElem?_eq_some_iff.mp hplace).1
  obtain rfl := labelAt_inj hnodup hlt hp ((labelAt_eq hplace).trans hlabel.symm)
  exact ⟨front, _, rfl, hfront.symm⟩

/-- A part ends behind an instruction after which control does not go straight on. -/
theorem endsWith_last (h : Parts m terminators parts) {init more : List Instruction}
    {last : Instruction} (hcode : m.code = init ++ last :: more)
    (hends : last.endsRun terminators = true) : EndsWith parts (init ++ [last]) := by
  rw [← h.code, ← List.flatMap_id] at hcode
  obtain ⟨front, part, back, inner, rest, rfl, hpart, rfl, -⟩ := flatMap_eq_append_cons hcode
  cases rest with
  | nil =>
    refine ⟨front ++ [part], back, by simp, ?_⟩
    rw [List.flatten_append, List.flatten_singleton, List.append_assoc, List.flatMap_id]
    exact congrArg (front.flatten ++ ·) hpart
  | cons next rest =>
    -- Control would leave the part through its end before that.
    have hinside : last ∈ part.dropLast := by
      rw [show part = inner ++ last :: next :: rest from hpart,
        List.dropLast_append_of_ne_nil (List.cons_ne_nil _ _)]
      exact List.mem_append_right _ List.mem_cons_self
    have hpart := h.ends part (List.mem_append_right _ List.mem_cons_self) last hinside
    rw [hends] at hpart
    cases hpart

/-- A part ends in front of every place where a block has a reason to start. -/
theorem endsWith (h : Parts m terminators parts) (hnodup : (m.code.map (·.uid)).Nodup)
    (hat : ∀ r ∈ m.regions, ∃ a b c d, RangeOf m.code r a b c d) {p : Nat}
    (hp : p < m.code.length) (hbegins : Begins m terminators (m.code.take p) (labelAt m.code p)) :
    EndsWith parts (m.code.take p) := by
  have hsame {v : Value} {q : Nat} (hv : Method.placeOf? m.code v = some q)
      (hnames : v.wholeNumber? = some (labelAt m.code p)) : q = p := by
    obtain ⟨hq, hlabel⟩ := names_place hnodup hv
    exact labelAt_inj hnodup hq hp (Option.some.inj (hlabel.symm.trans hnames))
  cases hbegins with
  | target hins ht hnames =>
    obtain ⟨first, rest, hpart, hfirst⟩ := h.targets _ hins _ ht
    exact h.endsWith_first hnodup hpart hp (Option.some.inj (hnames.symm.trans hfirst))
  | @behind last hlast hends =>
    obtain ⟨init, hinit⟩ := List.getLast?_eq_some_iff.mp hlast
    have hcode : m.code = init ++ last :: m.code.drop p := by
      rw [List.append_cons, ← hinit, List.take_append_drop]
    rw [hinit]
    exact h.endsWith_last hcode hends
  | range hr hstart =>
    obtain ⟨a, b, c, d, hrange⟩ := hat _ hr
    obtain ⟨htry, hhandler⟩ := h.ranges _ hr a b c d hrange
    rcases hstart with hstart | hstart
    · exact hsame hrange.tryStart hstart ▸ htry.start
    · exact hsame hrange.handlerStart hstart ▸ hhandler.start
  | behindRange hr hlast hend =>
    obtain ⟨a, b, c, d, hrange⟩ := hat _ hr
    obtain ⟨htry, hhandler⟩ := h.ranges _ hr a b c d hrange
    rcases hend with hend | hend
    · have hfinish := htry.finish hrange.tryOrder
      rwa [names_behind hnodup hp hrange.tryEnd hlast hend] at hfinish
    · have hfinish := hhandler.finish hrange.handlerOrder
      rwa [names_behind hnodup hp hrange.handlerEnd hlast hend] at hfinish

end Parts

/-- Parts that end in front of each piece but the first of a list are the pieces, cut further. -/
theorem exists_groups {pieces parts : List (List Instruction)}
    (hcode : parts.flatten = pieces.flatten) (hnonempty : ∀ part ∈ parts, part ≠ [])
    (hends : ∀ before c rest, pieces = before ++ c :: rest → before ≠ [] →
      EndsWith parts before.flatten) :
    ∃ groups : List (List (List Instruction)), groups.flatten = parts
      ∧ groups.map List.flatten = pieces := by
  -- The first group is the parts up to the end of the first piece; the parts behind it are parts
  -- of the other pieces in the same way.
  induction pieces generalizing parts with
  | nil =>
    have hparts : parts = [] := by
      refine List.eq_nil_iff_forall_not_mem.mpr fun part hpart => hnonempty part hpart ?_
      exact List.flatten_eq_nil_iff.mp hcode part hpart
    exact ⟨[], hparts.symm, rfl⟩
  | cons c pieces ih =>
    cases pieces with
    | nil => exact ⟨[parts], by simp, by simpa using hcode⟩
    | cons c' pieces =>
      obtain ⟨front, back, rfl, hfront⟩ := hends [c] c' pieces rfl (List.cons_ne_nil _ _)
      rw [List.flatten_singleton] at hfront
      have hback : back.flatten = (c' :: pieces).flatten := by
        rw [List.flatten_append, hfront, List.flatten_cons] at hcode
        exact List.append_cancel_left hcode
      obtain ⟨groups, hgroups, hpieces⟩ := ih hback
        (fun part hpart => hnonempty part (List.mem_append_right _ hpart))
        fun before d rest hsplit hne => by
          obtain ⟨front', back', heq, hfront'⟩ := hends (c :: before) d rest
            (by rw [hsplit]; rfl) (List.cons_ne_nil _ _)
          rw [List.flatten_cons] at hfront'
          rcases List.append_eq_append_iff.mp heq with ⟨more, rfl, rfl⟩ | ⟨more, rfl, -⟩
          · rw [List.flatten_append, hfront] at hfront'
            exact ⟨more, back', rfl, List.append_cancel_left hfront'⟩
          · -- The parts up to the end of `c` go on behind it only if nothing comes there.
            rw [List.flatten_append, hfront', List.append_assoc] at hfront
            have hnil := List.append_eq_nil_iff.mp (List.self_eq_append_right.mp hfront.symm)
            exact ⟨[], back, rfl, hnil.1.symm⟩
      exact ⟨front :: groups, by rw [List.flatten_cons, hgroups],
        by rw [List.map_cons, hfront, hpieces]⟩

/-- Cutting pieces further gives no fewer of them, and just as many only where none is cut. -/
theorem flatten_eq_of_length_le {groups : List (List (List Instruction))}
    (hnonempty : ∀ group ∈ groups, group.flatten ≠ [])
    (hle : groups.flatten.length ≤ groups.length) : groups.map List.flatten = groups.flatten := by
  have hmore {groups : List (List (List Instruction))}
      (hnonempty : ∀ group ∈ groups, group.flatten ≠ []) :
      groups.length ≤ groups.flatten.length := by
    induction groups with
    | nil => exact Nat.le_refl _
    | cons group groups ih =>
      have hfirst : 0 < group.length := by
        refine List.length_pos_of_ne_nil ?_
        rintro rfl
        exact hnonempty [] List.mem_cons_self rfl
      have hrest := ih fun g hg => hnonempty g (List.mem_cons_of_mem _ hg)
      rw [List.length_cons, List.flatten_cons, List.length_append]
      omega
  induction groups with
  | nil => rfl
  | cons group groups ih =>
    have hrest : ∀ g ∈ groups, g.flatten ≠ [] := fun g hg =>
      hnonempty g (List.mem_cons_of_mem _ hg)
    have hlength := hmore hrest
    rw [List.length_cons, List.flatten_cons, List.length_append] at hle
    cases group with
    | nil => exact absurd rfl (hnonempty [] List.mem_cons_self)
    | cons part group =>
      rw [List.length_cons] at hle
      obtain rfl : group = [] := List.length_eq_zero_iff.mp (by omega)
      rw [List.map_cons, ih hrest (by omega), List.flatten_singleton]
      rfl

/-- Two ways to write code in parts, each of which comes from cutting the other further, are
    the same. -/
theorem eq_of_groups {parts pieces : List (List Instruction)}
    (hnonempty : ∀ part ∈ parts, part ≠ []) (hnonempty' : ∀ piece ∈ pieces, piece ≠ [])
    (h : ∃ groups : List (List (List Instruction)), groups.flatten = parts
      ∧ groups.map List.flatten = pieces)
    (h' : ∃ groups : List (List (List Instruction)), groups.flatten = pieces
      ∧ groups.map List.flatten = parts) : parts = pieces := by
  obtain ⟨groups, hparts, hpieces⟩ := h
  obtain ⟨groups', hpieces', hparts'⟩ := h'
  have hfull {groups : List (List (List Instruction))} {pieces : List (List Instruction)}
      (hpieces : groups.map List.flatten = pieces) (hnonempty : ∀ piece ∈ pieces, piece ≠ []) :
      ∀ group ∈ groups, group.flatten ≠ [] := fun group hgroup =>
    hnonempty _ (hpieces ▸ List.mem_map_of_mem hgroup)
  have hlength : groups.length = pieces.length := by rw [← hpieces, List.length_map]
  have hlength' : groups'.length = parts.length := by rw [← hparts', List.length_map]
  rcases Nat.le_total parts.length pieces.length with hle | hle
  · rw [← hparts, ← hpieces]
    exact (flatten_eq_of_length_le (hfull hpieces hnonempty') (by rw [hparts]; omega)).symm
  · rw [← hparts', ← hpieces']
    exact flatten_eq_of_length_le (hfull hparts' hnonempty) (by rw [hpieces']; omega)

/-- Parts of a method cut further any way to write its code each of whose pieces but the first
    has a reason to start. -/
theorem Parts.grouped {m : Method} {terminators : List Value}
    {parts pieces : List (List Instruction)} (h : Parts m terminators parts)
    (hnodup : (m.code.map (·.uid)).Nodup)
    (hat : ∀ r ∈ m.regions, ∃ a b c d, RangeOf m.code r a b c d)
    (hcode : pieces.flatten = m.code) (hnonempty : ∀ piece ∈ pieces, piece ≠ [])
    (hbegins : ∀ before first more rest, pieces = before ++ (first :: more) :: rest →
      before ≠ [] → Begins m terminators before.flatten first.uid) :
    ∃ groups : List (List (List Instruction)), groups.flatten = parts
      ∧ groups.map List.flatten = pieces := by
  refine exists_groups (h.code.trans hcode.symm) h.nonempty fun before piece rest hsplit hne => ?_
  cases piece with
  | nil =>
    exact absurd rfl (hnonempty [] (hsplit ▸ List.mem_append_right _ List.mem_cons_self))
  | cons first more =>
    have hbegins := hbegins before first more rest hsplit hne
    have hcut : m.code = before.flatten ++ first :: (more ++ rest.flatten) := by
      rw [← hcode, hsplit, List.flatten_append, List.flatten_cons]
      rfl
    obtain ⟨hplace, htake⟩ := place_of_front hcut
    rw [← htake]
    refine h.endsWith hnodup hat (List.getElem?_eq_some_iff.mp hplace).1 ?_
    rw [htake, labelAt_eq hplace]
    exact hbegins

/-! ## The graph that is built -/

/-- The blocks with some labels stand in a row and are the code of a range, from one place to
    another, both included. -/
def Holds (g : Graph) (code : List Instruction) (a b : Nat) (labels : List Int) : Prop :=
  ∃ front run back, g.blocks = front ++ run ++ back ∧ run.map (·.label) = labels
    ∧ front.flatMap (·.code) = code.take a ∧ run.flatMap (·.code) = (code.drop a).take (b + 1 - a)

/-- The blocks of a range are parts in a row. -/
theorem Holds.whole {g : Graph} {code : List Instruction} {a b : Nat} {labels : List Int}
    (h : g.Holds code a b labels) : Whole (g.blocks.map (·.code)) code a b := by
  obtain ⟨front, run, back, hblocks, -, hfront, hrun⟩ := h
  refine ⟨front.map (·.code), run.map (·.code), back.map (·.code), ?_, ?_, ?_⟩
  · rw [hblocks, List.map_append, List.map_append]
  · rw [← List.flatMap_def, hfront]
  · rw [← List.flatMap_def, hrun]

/-- The blocks of a graph are the exact partition of a method. -/
structure Partition (m : Method) (terminators : List Value) (g : Graph) : Prop where
  code : g.blocks.flatMap (·.code) = m.code
  /-- A block is labelled by the uid of its first instruction. -/
  first : ∀ b ∈ g.blocks, ∃ ins rest, b.code = ins :: rest ∧ b.label = ins.uid
  /-- The first block is the entry, and no other one is. -/
  entry : ∀ i b, g.blocks[i]? = some b → (b.isEntry = true ↔ i = 0)
  targets : ∀ ins ∈ m.code, ∃ ts, ins.targets = .ok ts
    ∧ ∀ t ∈ ts, ∃ b ∈ g.blocks, t.wholeNumber? = some b.label
  ends : ∀ b ∈ g.blocks, ∀ ins ∈ b.code.dropLast,
    ins.isBranch = false ∧ ins.fallsThrough terminators = true
  /-- The spans are those of the regions in order, and the blocks of each are its ranges. -/
  ranges : List.Forall₂ (fun r s => s.region = r ∧ ∃ a b c d, RangeOf m.code r a b c d
    ∧ g.Holds m.code a b s.tryBlocks ∧ g.Holds m.code c d s.handlerBlocks) m.regions g.spans
  starts : ∀ before b rest, g.blocks = before ++ b :: rest → before ≠ [] →
    Begins m terminators (before.flatMap (·.code)) b.label
  edges : ∀ b ∈ g.blocks, b.succs ⊆ g.labels ∧ b.preds ⊆ g.labels
    ∧ ∀ c ∈ g.blocks, c.label ∈ b.succs ↔ b.label ∈ c.preds

namespace Partition

variable {m : Method} {terminators : List Value} {g : Graph}

/-- The two ranges of a region are blocks in a row. -/
theorem exists_span (h : Partition m terminators g) {r : Region} (hr : r ∈ m.regions) :
    ∃ s a b c d, RangeOf m.code r a b c d
      ∧ g.Holds m.code a b (Span.tryBlocks s) ∧ g.Holds m.code c d s.handlerBlocks := by
  obtain ⟨i, hi⟩ := List.mem_iff_getElem?.mp hr
  obtain ⟨s, -, -, a, b, c, d, hat, hholds⟩ := forall₂_getElem? h.ranges hi
  exact ⟨s, a, b, c, d, hat, hholds⟩

/-- The blocks are parts of the method. -/
theorem parts (h : Partition m terminators g) : Parts m terminators (g.blocks.map (·.code)) where
  code := (List.flatMap_def ..).symm.trans h.code
  nonempty part hpart := by
    obtain ⟨b, hb, rfl⟩ := List.mem_map.mp hpart
    obtain ⟨ins, rest, hcode, -⟩ := h.first b hb
    rw [hcode]
    exact List.cons_ne_nil _ _
  targets ins hins t ht := by
    obtain ⟨ts, hts, htargets⟩ := h.targets ins hins
    rw [Instruction.aims, hts] at ht
    obtain ⟨b, hb, hnames⟩ := htargets t ht
    obtain ⟨first, rest, hcode, hlabel⟩ := h.first b hb
    exact ⟨first, rest, List.mem_map.mpr ⟨b, hb, hcode⟩, hlabel ▸ hnames⟩
  ends part hpart ins hins := by
    obtain ⟨b, hb, rfl⟩ := List.mem_map.mp hpart
    obtain ⟨hbranch, hfalls⟩ := h.ends b hb ins hins
    rw [Instruction.endsRun, hbranch, hfalls]
    rfl
  ranges r hr a b c d hat := by
    obtain ⟨s, a', b', c', d', hat', htry, hhandler⟩ := h.exists_span hr
    obtain ⟨rfl, rfl, rfl, rfl⟩ := hat.unique hat'
    exact ⟨htry.whole, hhandler.whole⟩

/-- Any other parts of the method come from cutting the blocks further. -/
theorem coarsest (h : Partition m terminators g) (hnodup : (m.code.map (·.uid)).Nodup)
    {parts : List (List Instruction)} (hparts : Parts m terminators parts) :
    ∃ groups : List (List (List Instruction)), groups.flatten = parts
      ∧ groups.map List.flatten = g.blocks.map (·.code) := by
  -- A block that is not the first has a reason to start, for which a part has to end there.
  refine hparts.grouped hnodup (fun r hr => ?_) h.parts.code h.parts.nonempty
    fun before first more rest hsplit hne => ?_
  · obtain ⟨-, a, b, c, d, hat, -⟩ := h.exists_span hr
    exact ⟨a, b, c, d, hat⟩
  · obtain ⟨front, back, hblocks, rfl, hback⟩ := List.map_eq_append_iff.mp hsplit
    obtain ⟨b, back, rfl, hcode, -⟩ := List.map_eq_cons_iff.mp hback
    obtain ⟨ins, others, hfirst, hlabel⟩ :=
      h.first b (hblocks ▸ List.mem_append_right _ List.mem_cons_self)
    obtain ⟨rfl, -⟩ := List.cons.inj (hcode.symm.trans hfirst)
    rw [← List.flatMap_def, ← hlabel]
    exact h.starts front b back hblocks (by rintro rfl; exact hne rfl)

end Partition

/-! ### Building it -/

/-- Blocks are in the outline with their code. -/
theorem code_of_blocks (blocks : List Block) :
    Outline.code (blocks.map fun b => (b.label, b.code)) = blocks.flatMap (·.code) :=
  List.flatMap_map ..

/-- The blocks of a range, in a graph whose outline is cut code. -/
theorem holds_of_cut {g : Graph} {code : List Instruction} {starts : List Nat}
    (houtline : g.outline = cutOutline code starts) (h : Places code starts)
    (hzero : starts.head? = some 0) {a b : Nat} (ha : a ∈ starts) (hab : a ≤ b)
    (hb : b < code.length) (hbehind : b + 1 < code.length → b + 1 ∈ starts) :
    g.Holds code a b (labelsWithin code starts (a, b)) := by
  obtain ⟨front, run, back, hsplit, hlabels, hfront, hrun⟩ := h.exists_range hzero ha hab hb hbehind
  rw [← houtline] at hsplit
  obtain ⟨both, back, hblocks, hboth, rfl⟩ := List.map_eq_append_iff.mp hsplit
  obtain ⟨front, run, rfl, rfl, rfl⟩ := List.map_eq_append_iff.mp hboth
  rw [code_of_blocks] at hfront hrun
  -- The span has its blocks by label, those of the starts within the range.
  refine ⟨front, run, back, hblocks, ?_, hfront, hrun⟩
  rw [labelsWithin_eq h, ← hlabels, Outline.labels, List.map_map]
  rfl

namespace Accepts

variable {m : Method} {terminators : List Value} {ranges : List RegionRange}
  {exits : List ExitRecord}

/-- The spans are those of the regions, and their blocks are the ranges. -/
theorem holds (h : Accepts m terminators ranges exits) (hnodup : (m.code.map (·.uid)).Nodup)
    {s : Span} (hs : s ∈ (cut m terminators ranges exits).connected.spans) :
    ∃ a b c d, RangeOf m.code s.region a b c d
      ∧ (cut m terminators ranges exits).connected.Holds m.code a b s.tryBlocks
      ∧ (cut m terminators ranges exits).connected.Holds m.code c d s.handlerBlocks := by
  obtain ⟨⟨r, range⟩, hmem, rfl⟩ := List.mem_map.mp hs
  obtain ⟨hrange, a, b, c, d, rfl, hat⟩ := h.range_of_mem hmem
  have houtline : (cut m terminators ranges exits).connected.outline
      = cutOutline m.code (blockStarts m.code ranges terminators) := by
    rw [connected_outline, cut_outline]
  have hplaces := blockStarts_places m.code ranges terminators
  have hb := (names_place hnodup hat.tryEnd).1
  have hd := (names_place hnodup hat.handlerEnd).1
  have hzero := blockStarts_head (List.ne_nil_of_length_pos (Nat.zero_lt_of_lt hb))
    ranges terminators
  have htry : ((a : Int), (b : Int)) ∈ (⟨a, b, c, d⟩ : RegionRange).parts := List.mem_cons_self
  have hhandler := mem_parts_handler a b c d
  refine ⟨a, b, c, d, hat, ?_, ?_⟩
  · refine holds_of_cut houtline hplaces hzero ?_ hat.tryOrder hb fun hlt => ?_
    · exact mem_blockStarts_of_range hrange htry (names_place hnodup hat.tryStart).1 (Or.inl rfl)
    · exact mem_blockStarts_of_range hrange htry hlt (Or.inr rfl)
  · refine holds_of_cut houtline hplaces hzero ?_ hat.handlerOrder hd fun hlt => ?_
    · exact mem_blockStarts_of_range hrange hhandler (names_place hnodup hat.handlerStart).1
        (Or.inl rfl)
    · exact mem_blockStarts_of_range hrange hhandler hlt (Or.inr rfl)

/-- Each block but the first has a reason to start. -/
theorem starts (h : Accepts m terminators ranges exits) (hnodup : (m.code.map (·.uid)).Nodup)
    {before rest : List Block} {b : Block}
    (hblocks : (cut m terminators ranges exits).connected.blocks = before ++ b :: rest)
    (hne : before ≠ []) : Begins m terminators (before.flatMap (·.code)) b.label := by
  have hplaces := blockStarts_places m.code ranges terminators
  have hsplit : cutOutline m.code (blockStarts m.code ranges terminators)
      = before.map (fun b => (b.label, b.code)) ++ (b.label, b.code)
        :: rest.map fun b => (b.label, b.code) := by
    rw [← cut_outline m terminators ranges exits, ← connected_outline, outline, hblocks,
      List.map_append, List.map_cons]
  have hcode : m.code ≠ [] := by
    intro hnil
    rw [hnil] at hsplit
    exact absurd hsplit (by simp [cutOutline, blockStarts, runsFrom])
  obtain ⟨p, hp, hlabel, hfront, hpos⟩ :=
    hplaces.place_of_split (blockStarts_head hcode ranges terminators) hsplit
  rw [code_of_blocks] at hfront
  rw [hfront, show b.label = labelAt m.code p from hlabel]
  exact h.begins hnodup hp (hpos (by simpa using hne))

end Accepts

/-- The blocks that a method is cut into are its exact partition. -/
theorem build_parted {m : Method} {terminators : List Value} {g : Graph}
    (hbuild : build m terminators = .ok g) (hnodup : (m.code.map (·.uid)).Nodup) :
    Partition m terminators g := by
  obtain ⟨hformed, hlinked⟩ := build_formed hbuild hnodup
  have hterminators := build_terminators hbuild
  constructor
  case code => exact build_code hbuild
  case first =>
    intro b hb
    obtain ⟨ins, rest, hcode, huid⟩ := build_firstLabels hbuild _ (mem_outline_of_mem hb)
    exact ⟨ins, rest, hcode, huid.symm⟩
  case entry =>
    intro i b hi
    cases hblocks : g.blocks with
    | nil => rw [hblocks] at hi; cases hi
    | cons c rest =>
      obtain ⟨hentry, hother⟩ := hformed.entry c rest hblocks
      rw [hblocks] at hi
      cases i with
      | zero =>
        cases hi
        simp [hentry]
      | succ i => simp [hother b (List.mem_of_getElem? hi)]
  case targets =>
    intro ins hins
    rw [← build_code hbuild] at hins
    obtain ⟨ts, hts, htargets⟩ := hformed.targets ins hins
    refine ⟨ts, hts, fun t ht => ?_⟩
    obtain ⟨l, hl, hnames⟩ := htargets t ht
    obtain ⟨b, hb, rfl⟩ := List.mem_map.mp hl
    exact ⟨b, hb, hnames⟩
  case ends =>
    intro b hb ins hins
    have hends := hformed.straight _ (mem_outline_of_mem hb) ins hins
    rw [hterminators, Instruction.endsRun, Bool.or_eq_false_iff, Bool.not_eq_false'] at hends
    exact hends
  case ranges =>
    rw [← build_regions hbuild, List.forall₂_map_left_iff, List.forall₂_same]
    obtain ⟨ranges, exits, haccepts, rfl⟩ := build_eq_ok.mp hbuild
    exact fun s hs => ⟨rfl, haccepts.holds hnodup hs⟩
  case starts =>
    obtain ⟨ranges, exits, haccepts, rfl⟩ := build_eq_ok.mp hbuild
    exact fun before b rest hblocks hne => haccepts.starts hnodup hblocks hne
  case edges =>
    intro b hb
    refine ⟨(hformed.wired hlinked).succs b hb, fun l hl => ?_, fun c hc => ?_⟩
    · exact ((hlinked.preds b hb l).mp hl).mem_labels
    · rw [hlinked.succs b hb, hlinked.preds c hc]

end Graph

end Untangle
