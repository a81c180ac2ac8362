/-
  Untangle.Proofs.Listing.Faults

  How the reading of a listing fails (`Listing.parseMethods_total`). What cannot be read is
  reported as malformed, with one exception: a numeral that looks like a number and spells none.
  That is a decimal literal with a zero in front, or a word of digits some of which have no place
  value. For one instruction the exception is exact (`Listing.readInstruction_reads`); a listing
  ends at the first line that fails.
-/
import Untangle.Proofs.Listing

namespace Untangle.Listing

open Untangle.Text

/-! ## Numerals that spell no number -/

/-- A decimal literal with a zero in front. -/
def padded (text : String) : Bool :=
  ((Number.splitSign (trimChars text.toList)).2.mapM digitValue?).any fun digits =>
    digits.head? == some 0 && digits.any (· != 0)

/-- A word of digits of which some have no place value. -/
def placeless (cs : List Char) : Bool :=
  !cs.isEmpty && cs.all isDigit && (cs.mapM digitValue?).isNone

@[simp] theorem padded_empty : padded "" = false := rfl

@[simp] theorem placeless_nil : placeless [] = false := rfl

/-- An instruction with such a numeral: a literal, a local or the ending of a short form. -/
def oddNumeral (text : String) : Bool :=
  let body := (splitEffect text.toList).1
  let mnemonic := lower (String.ofList (body.takeWhile (· != ' ')))
  let rest := trim (String.ofList (body.dropWhile (· != ' ')))
  literalMnemonics.contains mnemonic && padded rest
    || (afterWord? "ldc.i4." mnemonic.toList).any placeless
    || (localOpcode? mnemonic).isSome && placeless rest.toList

/-! ## Results -/

variable {α β : Type} {odd odd' : Prop}

/-- What is read where a condition says exactly whether a numeral fails. -/
inductive Reads (odd : Prop) : Except Fault α → Prop where
  | ok (a : α) (h : ¬ odd) : Reads odd (.ok a)
  | malformed (line : Option Nat) (cause : MalformedCause) (h : ¬ odd) :
    Reads odd (.error (.malformed line cause))
  | numeral (h : odd) : Reads odd (.error (.misuse .badNumeral))

theorem Reads.of_iff {x : Except Fault α} (h : Reads odd x) (hodd : odd ↔ odd') : Reads odd' x := by
  rw [← propext hodd]
  exact h

theorem Reads.map {x : Except Fault α} (h : Reads odd x) (g : α → β) :
    Reads odd (x >>= fun a => .ok (g a)) := by
  cases h with
  | ok a h => exact .ok (g a) h
  | malformed line cause h => exact .malformed line cause h
  | numeral h => exact .numeral h

/-- There is a result, or a text is reported as malformed; only under a condition may a numeral
    fail instead. -/
def Reported (odd : Prop) (x : Except Fault α) : Prop :=
  ∀ f, x = .error f → (∃ line cause, f = .malformed line cause) ∨ f = .misuse .badNumeral ∧ odd

namespace Reported

theorem of_reads {x : Except Fault α} (h : Reads odd x) : Reported odd x := by
  rintro f rfl
  cases h with
  | malformed line cause h => exact Or.inl ⟨line, cause, rfl⟩
  | numeral h => exact Or.inr ⟨rfl, h⟩

theorem ok (a : α) : Reported odd (.ok a) := nofun

theorem malformed (line : Option Nat) (cause : MalformedCause) :
    Reported odd (.error (.malformed line cause) : Except Fault α) :=
  fun _ hf => Or.inl ⟨line, cause, (Except.error.inj hf).symm⟩

theorem mono {x : Except Fault α} (h : Reported odd x) (hodd : odd → odd') : Reported odd' x :=
  fun f hf => (h f hf).imp_right fun ⟨hmisuse, ho⟩ => ⟨hmisuse, hodd ho⟩

theorem bind {x : Except Fault α} {g : α → Except Fault β} (hx : Reported odd x)
    (hg : ∀ a, Reported odd (g a)) : Reported odd (x >>= g) := by
  intro f hf
  rcases bind_eq_error.mp hf with hf | ⟨a, -, hf⟩
  · exact hx f hf
  · exact hg a f hf

theorem mapM {g : α → Except Fault β} {items : List α} (h : ∀ a ∈ items, Reported odd (g a)) :
    Reported odd (items.mapM g) := by
  intro f hf
  obtain ⟨a, ha, hfail⟩ := mapM_eq_error hf
  exact h a ha f hfail

/-- By induction on the items. -/
theorem foldlM {g : β → α → Except Fault β} {items : List α}
    (h : ∀ b, ∀ a ∈ items, Reported odd (g b a)) (b : β) : Reported odd (items.foldlM g b) := by
  induction items generalizing b with
  | nil => exact ok b
  | cons a items ih =>
    rw [List.foldlM_cons]
    exact (h b a List.mem_cons_self).bind fun b' =>
      ih (fun b a ha => h b a (List.mem_cons_of_mem _ ha)) b'

end Reported

/-! ## Literals and locals -/

/-- A word of decimal digits begins with one. -/
theorem exists_digit {c : Char} {cs : List Char} {digits : List Nat}
    (h : (c :: cs).mapM digitValue? = some digits) :
    (∃ d, digitValue? c = some d) ∧ ∃ ds, cs.mapM digitValue? = some ds := by
  rw [List.mapM_cons] at h
  obtain ⟨d, hd, h⟩ := Option.bind_eq_some_iff.mp h
  obtain ⟨ds, hds, -⟩ := Option.bind_eq_some_iff.mp h
  exact ⟨⟨d, hd⟩, ds, hds⟩

/-- A word of decimal digits is recognised as one. -/
theorem magnitude?_decimal {cs : List Char} {digits : List Nat}
    (h : cs.mapM digitValue? = some digits) (hcs : cs ≠ []) :
    magnitude? cs = some (.decimal digits) := by
  have hhex (x : Char) (rest : List Char) (heq : cs = '0' :: x :: rest) :
      (x == 'x' || x == 'X') = false := by
    subst heq
    obtain ⟨-, ds, hrest⟩ := exists_digit h
    obtain ⟨⟨d, hd⟩, -⟩ := exists_digit hrest
    by_contra hx
    rw [Bool.not_eq_false, Bool.or_eq_true, beq_iff_eq, beq_iff_eq] at hx
    rcases hx with rfl | rfl <;> cases hd
  unfold magnitude?
  split
  · rename_i x rest
    rw [hhex x rest rfl, h]
    rfl
  · rw [h]
    simp [hcs]

theorem magnitude?_eq_decimal {cs : List Char} {digits : List Nat}
    (h : magnitude? cs = some (.decimal digits)) : cs.mapM digitValue? = some digits := by
  unfold magnitude? at h
  dsimp only at h
  split at h
  · cases h
  split at h
  · cases h
  · obtain ⟨_, hdigits, heq⟩ := Option.map_eq_some_iff.mp h
    rw [hdigits, Magnitude.decimal.inj heq]

/-- A literal fails as a numeral when it has a zero in front. -/
theorem parseLiteral_reads (text : String) : Reads (padded text = true) (parseLiteral text) := by
  unfold parseLiteral padded
  dsimp only
  generalize trimChars text.toList = cs
  rw [Option.any_eq_true]
  -- A digit or a sign stands in front of a decimal, so it is neither a text nor null.
  have hfront {digits : List Nat} (c : Char) (rest : List Char) (hcs : cs = c :: rest)
      (hsign : Number.splitSign cs = (false, cs))
      (hdigits : (Number.splitSign cs).2.mapM digitValue? = some digits) :
      ∃ d, digitValue? c = some d := by
    rw [hsign] at hdigits
    exact (exists_digit (hcs ▸ hdigits)).1
  have hdecimal {digits : List Nat} (hdigits : (Number.splitSign cs).2.mapM digitValue? = some digits)
      (hodd : (digits.head? == some 0 && digits.any (· != 0)) = true) :
      magnitude? (Number.splitSign cs).2 = some (.decimal digits) := by
    refine magnitude?_decimal hdigits fun hnil => ?_
    rw [hnil] at hdigits
    cases hdigits
    cases hodd
  split
  · rename_i inner hquoted
    refine .ok _ fun ⟨digits, hdigits, _⟩ => ?_
    split at hquoted
    · obtain ⟨d, hd⟩ := hfront _ _ rfl rfl hdigits
      cases hd
    · cases hquoted
  split
  · rename_i hnull
    refine .ok _ fun ⟨digits, hdigits, _⟩ => ?_
    have hcs : cs = "null".toList := by
      rw [← beq_iff_eq.mp hnull, String.toList_ofList]
    subst hcs
    obtain ⟨d, hd⟩ := hfront 'n' ['u', 'l', 'l'] rfl rfl hdigits
    cases hd
  split
  · rename_i m hm
    cases m with
    | hex digits =>
      refine .ok _ fun ⟨digits', hdigits, hodd⟩ => ?_
      rw [hdecimal hdigits hodd] at hm
      cases hm
    | decimal digits =>
      have hdigits := magnitude?_eq_decimal hm
      by_cases hodd : (digits.head? == some 0 && digits.any (· != 0)) = true
      · rw [Magnitude.value, if_pos hodd]
        exact .numeral ⟨digits, hdigits, hodd⟩
      · rw [Magnitude.value, if_neg hodd]
        refine .ok _ fun ⟨digits', hdigits', hodd'⟩ => hodd ?_
        rw [hdigits] at hdigits'
        cases hdigits'
        exact hodd'
  · rename_i hnone
    have hnot : ¬ ∃ digits, (Number.splitSign cs).2.mapM digitValue? = some digits
        ∧ (digits.head? == some 0 && digits.any (· != 0)) = true := by
      rintro ⟨digits, hdigits, hodd⟩
      rw [hdecimal hdigits hodd] at hnone
      cases hnone
    split
    · exact .ok _ hnot
    · exact .malformed _ _ hnot

/-- A word of digits spells a number when all of them have a place value. -/
theorem localNumber_reads (digits : List Char) :
    Reads ((digits.mapM digitValue?).isNone = true) (Fault.lift (localNumber digits)) := by
  unfold localNumber
  cases digits.mapM digitValue? with
  | none => exact .numeral rfl
  | some ds => exact .ok _ nofun

theorem localOperand_reads (text : String) :
    Reads (placeless text.toList = true) (Fault.lift (localOperand text)) := by
  have hempty : text.toList.isEmpty = text.isEmpty := by
    rw [Bool.eq_iff_iff, List.isEmpty_iff, String.toList_eq_nil_iff, String.isEmpty_iff]
  unfold localOperand placeless
  rw [hempty]
  split
  · rename_i hword
    rw [hword, Bool.true_and]
    have hreads := localNumber_reads text.toList
    cases hnumber : localNumber text.toList with
    | ok n => exact (hnumber ▸ hreads).map Value.int
    | error e => exact (hnumber ▸ hreads).map Value.int
  · rename_i hword
    rw [Bool.eq_false_iff.mpr hword]
    exact .ok _ nofun

theorem shortConstant_reads (mnemonic : String) (ending : List Char) (line : Nat) :
    Reads (placeless ending = true) (shortConstant mnemonic ending line) := by
  unfold shortConstant placeless
  split
  · rename_i hone
    rw [beq_iff_eq.mp hone]
    exact .ok _ (by decide)
  split
  · rename_i hword
    rw [hword, Bool.true_and]
    exact localNumber_reads ending
  · rename_i hword
    rw [Bool.eq_false_iff.mpr hword]
    exact .malformed _ _ nofun

/-! ## Instructions -/

theorem literal_apart {word : String} (h : literalMnemonics.contains word = true) :
    (afterWord? "ldc.i4." word.toList).any placeless = false ∧ localOpcode? word = none := by
  rw [List.contains_iff_mem] at h
  simp only [literalMnemonics, List.mem_cons, List.not_mem_nil, or_false] at h
  rcases h with rfl | rfl | rfl | rfl | rfl | rfl | rfl
  all_goals exact ⟨rfl, rfl⟩

theorem short_apart {word : String} {ending : List Char}
    (h : afterWord? "ldc.i4." word.toList = some ending) : localOpcode? word = none := by
  have hother (other : String) (hnone : afterWord? "ldc.i4." other.toList = none) :
      (word == other) = false := by
    refine beq_eq_false_iff_ne.mpr fun heq => ?_
    rw [heq, hnone] at h
    cases h
  unfold localOpcode?
  rw [hother _ rfl, hother _ rfl, hother _ rfl, hother _ rfl]
  rfl

/-- An instruction fails as a numeral exactly when it has one that spells no number. -/
theorem readInstruction_reads (text : String) (line : Nat) :
    Reads (oddNumeral text = true) (readInstruction text line) := by
  unfold readInstruction oddNumeral
  dsimp only
  generalize (splitEffect text.toList).1 = body
  generalize lower (String.ofList (body.takeWhile (· != ' '))) = word
  generalize trim (String.ofList (body.dropWhile (· != ' '))) = rest
  have hempty (h : rest.isEmpty = true) : rest = "" := String.isEmpty_iff.mp h
  split
  · exact .ok _ nofun
  · exact .ok _ nofun
  · exact .ok _ nofun
  · split
    · exact .malformed _ _ nofun
    · exact .ok _ nofun
  · exact .ok _ nofun
  split
  · rename_i hliteral
    obtain ⟨hshort, hlocal⟩ := literal_apart hliteral
    rw [hliteral, hshort, hlocal]
    split
    · rename_i hnone
      rw [hempty hnone]
      exact .malformed _ _ (by simp)
    · exact ((parseLiteral_reads rest).map _).of_iff (by simp)
  rename_i hliteral
  rw [Bool.not_eq_true] at hliteral
  split
  · rename_i ending hshort
    rw [hliteral, hshort, short_apart hshort]
    exact ((shortConstant_reads word ending line).map _).of_iff (by simp)
  rename_i hnot
  have hshort := Option.eq_none_iff_forall_ne_some.mpr hnot
  split
  · rename_i opcode hlocal
    rw [hliteral, hshort, hlocal]
    split
    · rename_i hnone
      rw [hempty hnone]
      exact .malformed _ _ (by simp)
    · exact ((localOperand_reads rest).map _).of_iff (by simp)
  rename_i hnot
  have hlocal := Option.eq_none_iff_forall_ne_some.mpr hnot
  -- No other instruction has a numeral.
  have hplain : ¬ (literalMnemonics.contains word && padded rest
      || (afterWord? "ldc.i4." word.toList).any placeless
      || (localOpcode? word).isSome && placeless rest.toList) = true := by
    rw [hliteral, hshort, hlocal]
    nofun
  split
  · exact .ok _ hplain
  split
  · exact .ok _ hplain
  split
  · split
    · exact .ok _ hplain
    · exact .malformed _ _ hplain
  · exact .ok _ hplain

example : readInstruction "ldc 007" 1 = .error (.misuse .badNumeral) := by rfl

/-! ## Methods -/

namespace Draft

variable (d : Draft) (line : Nat)

theorem addLabel_reported (label : String) : Reported odd (d.addLabel label line) := by
  unfold addLabel
  split
  · exact .malformed _ _
  · exact .ok _

theorem resolve_reported (label : String) : Reported odd (d.resolve line label) := by
  unfold resolve
  split
  · exact .ok _
  · exact .malformed _ _

theorem link_reported (entry : Instruction × Reference) : Reported odd (d.link entry) := by
  refine Reported.bind (.mapM fun label _ => d.resolve_reported entry.2.line label) fun uids => ?_
  cases uids <;> exact .ok _

theorem region_reported (ref : Reference) : Reported odd (d.region ref) := by
  have hbuild (kind : RegionKind) (a b c e : String) (type : Value) : Reported odd (do
      return {
        kind := kind
        tryStart := ← d.resolve ref.line a
        tryEnd := ← d.resolve ref.line b
        handlerStart := ← d.resolve ref.line c
        handlerEnd := ← d.resolve ref.line e
        catchType := type } : Except Fault Region) :=
    (d.resolve_reported _ a).bind fun _ => (d.resolve_reported _ b).bind fun _ =>
      (d.resolve_reported _ c).bind fun _ => (d.resolve_reported _ e).bind fun _ => .ok _
  unfold region
  dsimp only
  split
  · split
    · exact .malformed _ _
    · exact hbuild _ _ _ _ _ _
  · split
    · exact .malformed _ _
    · exact hbuild _ _ _ _ _ _
  · exact .malformed _ _

/-- A method that cannot be finished is reported. -/
theorem finish_reported : Reported odd d.finish := by
  unfold finish
  split
  · exact .malformed _ _
  · exact (Reported.mapM fun e _ => d.link_reported e).bind fun _ =>
      (Reported.mapM fun ref _ => d.region_reported ref).bind fun _ => .ok _

end Draft

/-- A line of an instruction with a numeral that spells no number. -/
def Line.oddNumeral : Line → Bool
  | .code _ text => Listing.oddNumeral text
  | _ => false

namespace Progress

theorem close_reported (p : Progress) : Reported odd p.close := by
  unfold close
  split
  · exact .ok _
  · rename_i d hd
    exact d.finish_reported.bind fun _ => .ok _

theorem step_reported (p : Progress) (line : Line) (number : Nat) :
    Reported (line.oddNumeral = true) (p.step line number) := by
  unfold step
  dsimp only
  generalize p.current.getD { name := "<method>" } = draft
  split
  · exact .ok _
  · exact p.close_reported.bind fun _ => .ok _
  · exact .ok _
  · exact .ok _
  · rename_i labels text
    refine (Reported.foldlM (fun d label _ => d.addLabel_reported number label) draft).bind
      fun d => ?_
    split
    · exact .ok _
    · exact (Reported.of_reads (readInstruction_reads text number)).bind fun _ => .ok _

end Progress

/-- A listing is read as methods, or reported as malformed. The exception are listings in which a
    line has a numeral that looks like a number and spells none. -/
theorem parseMethods_total (text : String) :
    (∃ ms, parseMethods text = .ok ms)
      ∨ (∃ line cause, parseMethods text = .error (.malformed line cause))
      ∨ parseMethods text = .error (.misuse .badNumeral)
        ∧ ∃ line ∈ Text.lines text, (Line.read line).oddNumeral = true := by
  have hreported : Reported (∃ line ∈ Text.lines text, (Line.read line).oddNumeral = true)
      (parseMethods text) := by
    refine Reported.bind (Reported.foldlM (fun p numbered hnumbered => ?_) _) fun p =>
      p.close_reported.bind fun _ => .ok _
    exact (p.step_reported _ _).mono fun hodd =>
      ⟨numbered.1, List.fst_mem_of_mem_zipIdx hnumbered, hodd⟩
  cases hread : parseMethods text with
  | ok ms => exact Or.inl ⟨ms, rfl⟩
  | error f =>
    rcases hreported f hread with ⟨line, cause, rfl⟩ | ⟨rfl, hodd⟩
    · exact Or.inr (Or.inl ⟨line, cause, rfl⟩)
    · exact Or.inr (Or.inr ⟨rfl, hodd⟩)

end Untangle.Listing
