import SegKernel.Proofs.Evaluation.Words
import SegKernel.Proofs.Reading.Words

/-! # Literals

Booleans and integers are written as words, an integer with the name of its type. The word of a negative
integer begins with its sign. Each word is read back as the value, as a literal, as a literal of its
declared type and as an operand. -/

namespace SegKernel
open SegKernel.Syntax SegKernel.Syntax.Parser

/-! ### The words of values -/

/-- The digits of an integer, after a sign and before a suffix. -/
def integerWord (i : Int) (suffix : String) : String :=
  (if i < 0 then "-" else "") ++ toString i.natAbs ++ suffix

/-- The literal of a Boolean or an integer. -/
def Value.word : Value → String
  | .bool b => if b then "true" else "false"
  | .i32 v => integerWord v.toInt ScalarType.i32.name
  | .i64 v => integerWord v.toInt ScalarType.i64.name
  | .u32 v => integerWord v.toNat ScalarType.u32.name
  | .u64 v => integerWord v.toNat ScalarType.u64.name
  | .f32 _ | .f64 _ => ""

/-- A Boolean or an integer. -/
def Value.IsDiscrete (v : Value) : Prop := v.type.isFloat = false

/-- A Boolean or an integer that is not negative. -/
def Value.IsUnsigned : Value → Prop
  | .bool _ | .u32 _ | .u64 _ => True
  | .i32 v => 0 ≤ v.toInt
  | .i64 v => 0 ≤ v.toInt
  | .f32 _ | .f64 _ => False

instance : DecidablePred Value.IsDiscrete := fun v => inferInstanceAs (Decidable (v.type.isFloat = false))

instance : DecidablePred Value.IsUnsigned := fun v => by
  cases v <;> unfold Value.IsUnsigned <;> infer_instance

theorem Value.IsUnsigned.isDiscrete {v : Value} (h : v.IsUnsigned) : v.IsDiscrete := by
  cases v <;> first | rfl | exact h.elim

theorem Value.IsUnsigned.nonneg {v : Value} (h : v.IsUnsigned) {i : Int} (hi : v.integer? = some i) : 0 ≤ i := by
  cases v <;> cases hi
  · exact h
  · exact h
  · exact Int.natCast_nonneg _
  · exact Int.natCast_nonneg _

/-- The word of an operand. -/
def Operand.word : Operand → String
  | .const v => v.word
  | .var name => name

/-- A constant that is no floating-point number, or a name. -/
def Operand.IsPlain : Operand → Prop
  | .const v => v.IsDiscrete
  | .var name => IsName name

instance : DecidablePred Operand.IsPlain := fun o => by
  cases o <;> unfold Operand.IsPlain <;> infer_instance

namespace Syntax
variable {ts : List String} {v : String} {c : Char} {w gap : List Char}

/-! ### Digits -/

theorem isDigit_of_mem_digits {n : Nat} (h : c ∈ Nat.toDigits 10 n) : isDigit c = true := by
  have := Nat.isDigit_of_mem_toDigits (by decide) (by decide) h
  simpa [isDigit, Char.isDigit, Char.le_def] using this

theorem ofDecimalDigits_toDigits (n : Nat) : ofDecimalDigits (Nat.toDigits 10 n) = n := by
  have := Nat.ofDigitChars_toDigits (b := 10) (n := n) (by decide) (by decide)
  rw [Nat.ofDigitChars_eq_foldl] at this
  simpa only [ofDecimalDigits, Nat.mul_comm] using this

theorem toDigits_cons (n : Nat) : ∃ c w, Nat.toDigits 10 n = c :: w ∧ isDigit c = true := by
  cases h : Nat.toDigits 10 n with
  | nil => exact absurd h Nat.toDigits_ne_nil
  | cons c w => exact ⟨c, w, rfl, isDigit_of_mem_digits (h ▸ List.mem_cons_self)⟩

/-! ### Numbers -/

/-- The suffix of a number, if it has one. -/
def suffixWord (s : Option ScalarType) : String := (s.map ScalarType.name).getD ""

theorem suffixAt_word {s : Option ScalarType} (hs : ∀ t ∈ s, t.isIntegral = true) (hgap : Trail ts gap) :
    Numeral.suffixAt ((suffixWord s).toList ++ gap) = s.map fun t => (t.name.toList, t) := by
  cases s with
  | none =>
    cases gap with
    | nil => rfl
    | cons b gap =>
      have hb := hgap.head_blank b rfl
      change Numeral.suffixAt (b :: gap) = none
      unfold Numeral.suffixAt
      split <;> simp_all [isBlank]
  | some t =>
    have := hs t rfl
    cases t <;> first | rfl | simp [ScalarType.isIntegral] at this

theorem fractionAt_word (s : Option ScalarType) (hgap : Trail ts gap) :
    Numeral.fractionAt ((suffixWord s).toList ++ gap) = none := by
  cases s with
  | none =>
    cases gap with
    | nil => rfl
    | cons b gap =>
      have hb := hgap.head_blank b rfl
      change Numeral.fractionAt (b :: gap) = none
      unfold Numeral.fractionAt
      split <;> simp_all [isBlank]
  | some t => cases t <;> rfl

theorem takeWhile_digits (s : Option ScalarType) (hgap : Trail ts gap) (n : Nat) :
    (Nat.toDigits 10 n ++ ((suffixWord s).toList ++ gap)).takeWhile isDigit = Nat.toDigits 10 n := by
  rw [List.takeWhile_append_of_pos fun _ => isDigit_of_mem_digits]
  have hnil : ((suffixWord s).toList ++ gap).takeWhile isDigit = [] := by
    cases s with
    | none => exact takeWhile_word (w := []) (by simp) (fun _ => not_isDigit_of_blank) hgap
    | some t => cases t <;> rfl
  rw [hnil, List.append_nil]

theorem toList_integerWord (i : Int) (suffix : String) :
    (integerWord i suffix).toList =
      (if i < 0 then ['-'] else []) ++ (Nat.toDigits 10 i.natAbs ++ suffix.toList) := by
  unfold integerWord
  split <;> simp [Nat.toList_repr]

theorem integerWord_natCast (n : Nat) : integerWord n (suffixWord none) = toString n := by
  have hneg : ¬ (n : Int) < 0 := by omega
  simp [integerWord, suffixWord, hneg]

theorem at?_integerWord (i : Int) {s : Option ScalarType} (hs : ∀ t ∈ s, t.isIntegral = true) (hgap : Trail ts gap) :
    Numeral.at? ((integerWord i (suffixWord s)).toList ++ gap) =
      some (⟨i < 0, Nat.toDigits 10 i.natAbs, none, s⟩, gap) := by
  have htake := takeWhile_digits s hgap i.natAbs
  have hfrac := fractionAt_word s hgap
  have hsuffix := suffixAt_word hs hgap
  have htype : (s.map fun t => (t.name.toList, t)).map (·.2) = s := by
    rw [Option.map_map]
    exact Option.map_id'
  obtain ⟨d, ds, hdigits, hd⟩ := toDigits_cons i.natAbs
  have hminus : d ≠ '-' := by
    rintro rfl
    simp [isDigit] at hd
  rw [toList_integerWord, List.append_assoc, List.append_assoc]
  unfold Numeral.at?
  by_cases hneg : i < 0
  · simp only [hneg, if_true, List.cons_append, List.nil_append, htake, List.drop_left, hfrac, hsuffix, htype]
    simp only [hdigits, List.isEmpty_cons, Bool.false_eq_true, if_false, decide_true, Option.some.injEq,
      Prod.mk.injEq, true_and]
    -- Only the text of the suffix is left in front of the gap.
    cases s with
    | none => rfl
    | some t => exact List.drop_left
  · simp only [hneg, if_false, List.nil_append]
    split
    · rename_i cs hcs
      rw [hdigits, List.cons_append, List.cons.injEq] at hcs
      exact absurd hcs.1 hminus
    · simp only [htake, List.drop_left, hfrac, hsuffix, htype]
      simp only [hdigits, List.isEmpty_cons, Bool.false_eq_true, if_false, decide_false, Option.some.injEq,
        Prod.mk.injEq, true_and]
      cases s with
      | none => rfl
      | some t => exact List.drop_left

/-- An integer with or without a suffix is read as its digits. -/
theorem reads_numeral (i : Int) {s : Option ScalarType} (hs : ∀ t ∈ s, t.isIntegral = true) :
    Reads numeral (before (integerWord i (suffixWord s) :: ts))
      (· = ⟨i < 0, Nat.toDigits 10 i.natAbs, none, s⟩) (after ts) := by
  rintro ⟨cs, o⟩ hcs
  obtain ⟨gap, rfl, hgap⟩ := within_of_before hcs
  have hend : (gap.head?.map isIdentChar).getD false = false := by
    cases gap with
    | nil => rfl
    | cons b gap => exact not_isIdentChar_of_blank (hgap.1.head_blank b rfl)
  refine ⟨_, ⟨gap, o + Cursor.byteLength (integerWord i (suffixWord s)).toList⟩, ?_, hgap, rfl⟩
  simp only [numeral, at?_integerWord i hs hgap.1, hend, Bool.false_eq_true, if_false, Cursor.advance,
    List.length_append, Nat.add_sub_cancel, List.take_left, List.drop_left]

theorem refuses_numeral (hdigit : isDigit c = false) (hminus : c ≠ '-') : Refuses numeral (within (c :: w) ts) := by
  rintro ⟨cs, o⟩ ⟨gap, rfl, -⟩
  have hnone : Numeral.at? (c :: (w ++ gap)) = none := by
    unfold Numeral.at?
    split
    rename_i negative cs hsign
    split at hsign
    · rename_i hcs
      exact absurd (List.cons.inj hcs).1 hminus
    · obtain ⟨-, rfl⟩ := Prod.mk.inj hsign
      simp [hdigit]
  simp only [numeral, List.cons_append, hnone]

/-! ### Values -/

theorem integer_of_digits (i : Int) (s : Option ScalarType) :
    (⟨i < 0, Nat.toDigits 10 i.natAbs, none, s⟩ : Numeral).integer = i := by
  simp only [Numeral.integer, ofDecimalDigits_toDigits, decide_eq_true_eq]
  split <;> omega

theorem within_eq {n : Numeral} {signed : Bool} {lo hi : Int} {t : ScalarType}
    (hsign : signed = true ∨ n.negative = false) (hlo : lo ≤ n.integer) (hhi : n.integer ≤ hi) :
    n.within signed lo hi t = .ok n.integer := if_pos ⟨hsign, hlo, hhi⟩

theorem uint32_ofInt_toNat (v : UInt32) : UInt32.ofInt v.toNat = v := by
  have hlt := v.toNat_lt
  have hmod : ((v.toNat : Int) % 2 ^ 32).toNat = v.toNat := by omega
  rw [UInt32.ofInt, hmod, UInt32.ofNat_toNat]

theorem uint64_ofInt_toNat (v : UInt64) : UInt64.ofInt v.toNat = v := by
  have hlt := v.toNat_lt
  have hmod : ((v.toNat : Int) % 2 ^ 64).toNat = v.toNat := by omega
  rw [UInt64.ofInt, hmod, UInt64.ofNat_toNat]

/-- A number denotes the value of its type with its integer. -/
theorem value_eq {v : Value} {n : Numeral} {e : Option ScalarType} (hv : v.integer? = some n.integer)
    (hsign : n.negative = true → n.integer < 0) (hwhole : n.fraction = none) (htype : n.typeOf e = .ok v.type) :
    n.value e = .ok v := by
  unfold Numeral.value
  rw [htype, hwhole]
  cases v with
  | bool b => cases hv
  | f32 bits => cases hv
  | f64 bits => cases hv
  | i32 v =>
    have hint : v.toInt = n.integer := Option.some.inj hv
    change (n.within true _ _ _ >>= fun i => Except.ok (Value.i32 (Int32.ofInt i))) = _
    rw [within_eq (.inl rfl) (hint ▸ v.minValue_le_toInt) (hint ▸ v.toInt_le), ← hint]
    exact congrArg (fun v => Except.ok (Value.i32 v)) (Int32.ofInt_toInt v)
  | i64 v =>
    have hint : v.toInt = n.integer := Option.some.inj hv
    change (n.within true _ _ _ >>= fun i => Except.ok (Value.i64 (Int64.ofInt i))) = _
    rw [within_eq (.inl rfl) (hint ▸ v.minValue_le_toInt) (hint ▸ v.toInt_le), ← hint]
    exact congrArg (fun v => Except.ok (Value.i64 v)) (Int64.ofInt_toInt v)
  -- The types without sign: a number below zero has no value in them.
  | u32 v =>
    have hint : (v.toNat : Int) = n.integer := Option.some.inj hv
    have hpos : n.negative = false := by
      by_contra h
      have := hsign (by simpa using h)
      omega
    have hlt := v.toNat_lt
    change (n.within false _ _ _ >>= fun i => Except.ok (Value.u32 (UInt32.ofInt i))) = _
    rw [within_eq (.inr hpos) (by omega) (by rw [← hint, UInt32.size]; omega), ← hint]
    exact congrArg (fun v => Except.ok (Value.u32 v)) (uint32_ofInt_toNat v)
  | u64 v =>
    have hint : (v.toNat : Int) = n.integer := Option.some.inj hv
    have hpos : n.negative = false := by
      by_contra h
      have := hsign (by simpa using h)
      omega
    have hlt := v.toNat_lt
    change (n.within false _ _ _ >>= fun i => Except.ok (Value.u64 (UInt64.ofInt i))) = _
    rw [within_eq (.inr hpos) (by omega) (by rw [← hint, UInt64.size]; omega), ← hint]
    exact congrArg (fun v => Except.ok (Value.u64 v)) (uint64_ofInt_toNat v)

/-- The word of a value that is no Boolean is that of its integer. -/
theorem word_eq {v : Value} {i : Int} (h : v.integer? = some i) :
    v.word = integerWord i (suffixWord (some v.type)) := by
  cases v with
  | bool b => cases h
  | f32 bits => cases h
  | f64 bits => cases h
  | i32 v | i64 v | u32 v | u64 v =>
    obtain rfl := Option.some.inj h
    rfl

theorem type_isIntegral {v : Value} {i : Int} (h : v.integer? = some i) : v.type.isIntegral = true := by
  cases v <;> first | rfl | cases h

/-- A value that is no floating-point number is a Boolean or an integer. -/
theorem bool_or_integer {v : Value} (hv : v.IsDiscrete) : (∃ b, v = .bool b) ∨ ∃ i, v.integer? = some i := by
  cases v with
  | bool b => exact .inl ⟨b, rfl⟩
  | i32 v | i64 v | u32 v | u64 v => exact .inr ⟨_, rfl⟩
  | f32 bits | f64 bits => cases hv

/-- The integer of a value is read where its own type, or no type, is expected. -/
theorem reads_integer {v : Value} {i : Int} (hv : v.integer? = some i) {e : Option ScalarType}
    (he : ∀ t ∈ e, t = v.type) :
    Reads (numeral >>= fun n => accept (n.value e)) (before (v.word :: ts)) (· = v) (after ts) := by
  rw [word_eq hv]
  refine (reads_numeral i fun t ht => ?_).bind_eq ?_
  · obtain rfl := Option.some.inj ht
    exact type_isIntegral hv
  · have hvalue : (⟨i < 0, Nat.toDigits 10 i.natAbs, none, some v.type⟩ : Numeral).value e = .ok v := by
      refine value_eq (by rw [integer_of_digits, hv]) (by rw [integer_of_digits]; simp) rfl ?_
      cases e with
      | none => rfl
      | some t => simp [Numeral.typeOf, he t rfl]
    rw [hvalue]
    exact .pure rfl

/-! ### Booleans -/

theorem reads_boolean (b : Bool) : Reads boolean (before ((Value.bool b).word :: ts)) (· = b) (after ts) := by
  cases b with
  | true => exact .orElse_left (passes_word.then fun _ => .pure rfl)
  | false =>
    refine .orElse_right (refuses_word (refuses_token (by decide))).bind ?_
    exact passes_word.then fun _ => .pure rfl

theorem refuses_boolean {s : Spot} (htrue : Refuses (token "true") s) (hfalse : Refuses (token "false") s) :
    Refuses boolean s :=
  .orElse (refuses_word htrue).bind (refuses_word hfalse).bind

/-- The first character of the word of an integer. -/
theorem integerWord_cons (i : Int) (suffix : String) :
    ∃ c w, (integerWord i suffix).toList = c :: w ∧ (c = '-' ∨ isDigit c = true) ∧ (0 ≤ i → isDigit c = true) := by
  obtain ⟨d, ds, hdigits, hd⟩ := toDigits_cons i.natAbs
  rw [toList_integerWord, hdigits]
  by_cases h : i < 0
  · exact ⟨'-', d :: (ds ++ suffix.toList), by simp [h], .inl rfl, fun h' => absurd h (by omega)⟩
  · exact ⟨d, ds ++ suffix.toList, by simp [h], .inr hd, fun _ => hd⟩

theorem misses_integer {m : String} {i : Int} {suffix : String}
    (hm : (m.toList.all (!isBlank ·) && m.toList.head?.any fun c => !(c == '-' || isDigit c)) = true) :
    misses m (integerWord i suffix).toList = true := by
  obtain ⟨c, w, htl, hc, -⟩ := integerWord_cons i suffix
  rw [htl]
  exact misses_of_class (fun c => c == '-' || isDigit c) (by simpa using hc) hm

/-! ### Literals -/

theorem refuses_boolean_integer {i : Int} {suffix : String} :
    Refuses boolean (before (integerWord i suffix :: ts)) :=
  refuses_boolean (refuses_token (misses_integer (by decide))) (refuses_token (misses_integer (by decide)))

theorem reads_literal {v : Value} (hv : v.IsDiscrete) : Reads literal (before (v.word :: ts)) (· = v) (after ts) := by
  obtain ⟨b, rfl⟩ | ⟨i, hi⟩ := bool_or_integer hv
  · exact .orElse_left ((reads_boolean b).bind_eq (.pure rfl))
  · refine .orElse_right (Refuses.bind ?_) (reads_integer hi (by simp))
    rw [word_eq hi]
    exact refuses_boolean_integer

/-- A number without a suffix is an `i64`. -/
theorem reads_literal_plain (v : Int64) :
    Reads literal (before (integerWord v.toInt "" :: ts)) (· = .i64 v) (after ts) := by
  refine .orElse_right refuses_boolean_integer.bind ?_
  refine (reads_numeral (s := none) v.toInt (by simp)).bind_eq ?_
  have hvalue : (⟨v.toInt < 0, Nat.toDigits 10 v.toInt.natAbs, none, none⟩ : Numeral).value none = .ok (.i64 v) :=
    value_eq (by rw [integer_of_digits]; rfl) (by rw [integer_of_digits]; simp) rfl rfl
  rw [hvalue]
  exact .pure rfl

theorem reads_typedLiteral {v : Value} (hv : v.IsDiscrete) :
    Reads (typedLiteral v.type) (before (v.word :: ts)) (· = v) (after ts) := by
  obtain ⟨b, rfl⟩ | ⟨i, hi⟩ := bool_or_integer hv
  · refine .orElse_left ?_
    have hword : Reads ((do token "true"; return true) <|> (do token "false"; return false))
        (before ((Value.bool b).word :: ts)) (· = b) (after ts) := by
      cases b with
      | true => exact .orElse_left (passes_token.then fun _ => .pure rfl)
      | false => exact .orElse_right (refuses_token (by decide)).bind (passes_token.then fun _ => .pure rfl)
    exact hword.bind_eq (passes_wordEnd.then fun _ => .pure rfl)
  · refine .orElse_right (Refuses.bind ?_) (reads_integer hi (by simp))
    rw [word_eq hi]
    exact .orElse (refuses_token (misses_integer (by decide))).bind (refuses_token (misses_integer (by decide))).bind

theorem refuses_literal_name (hv : IsName v) : Refuses literal (before (v :: ts)) := by
  refine .orElse (.bind (.orElse (refuses_word_name (by decide) hv).bind (refuses_word_name (by decide) hv).bind)) ?_
  obtain ⟨c, w, htl, hc, -⟩ := hv.cons
  refine Refuses.bind (Refuses.from (refuses_numeral (c := c) (w := w) (not_isDigit_of_start hc) ?_) fun _ h =>
    htl ▸ within_of_before h)
  rintro rfl
  simp [isIdentStart] at hc

/-- A mark is no literal. -/
theorem refuses_literal_mark (hc : isIdentChar c = false) (hminus : c ≠ '-') :
    Refuses literal (within (c :: w) ts) := by
  have hdigit : isDigit c = false := (Bool.or_eq_false_iff.mp hc).2
  refine .orElse (.bind (refuses_boolean ?_ ?_)) (refuses_numeral hdigit hminus).bind
  all_goals exact refuses_token_within (misses_of_class (fun c => !isIdentChar c) (by simp [hc]) (by decide))

theorem refuses_identifier_number {i : Int} (hi : 0 ≤ i) (suffix : String) :
    Refuses identifier (before (integerWord i suffix :: ts)) := by
  obtain ⟨c, w, htl, -, hc⟩ := integerWord_cons i suffix
  exact (refuses_identifier (not_isIdentStart_of_digit (hc hi))).from fun _ h => htl ▸ within_of_before h

/-! ### Operands -/

/-- What begins with a mark other than a sign does not begin an operand. -/
theorem misses_operand {o : Operand} (ho : o.IsPlain) {m : String}
    (hm : (m.toList.all (!isBlank ·) && m.toList.head?.any fun c => !(isIdentChar c || c == '-')) = true) :
    misses m o.word.toList = true := by
  have hhead : ∃ c w, o.word.toList = c :: w ∧ (isIdentChar c || c == '-') = true := by
    cases o with
    | var name =>
      obtain ⟨c, w, htl, hc, -⟩ := IsName.cons ho
      exact ⟨c, w, htl, by simp [isIdentChar, hc]⟩
    | const v =>
      obtain ⟨b, rfl⟩ | ⟨i, hi⟩ := bool_or_integer ho
      · cases b
        · exact ⟨'f', ['a', 'l', 's', 'e'], rfl, rfl⟩
        · exact ⟨'t', ['r', 'u', 'e'], rfl, rfl⟩
      · obtain ⟨c, w, htl, hc, -⟩ := integerWord_cons i (suffixWord (some v.type))
        refine ⟨c, w, (congrArg String.toList (word_eq hi)).trans htl, ?_⟩
        obtain rfl | hc := hc
        · rfl
        · simp [isIdentChar, hc]
  obtain ⟨c, w, htl, hc⟩ := hhead
  rw [htl]
  exact misses_of_class (fun c => isIdentChar c || c == '-') hc hm

theorem reads_operand {o : Operand} (ho : o.IsPlain) :
    Reads simpleOperand (before (o.word :: ts)) (· = o) (after ts) := by
  cases o with
  | const v => exact .orElse_left ((reads_literal ho).bind_eq (.pure rfl))
  | var name => exact .orElse_right (refuses_literal_name ho).bind ((reads_identifier ho).bind_eq (.pure rfl))

/-- A mark other than a sign is no operand. -/
theorem refuses_operand_mark {t : String} (h : t.toList.head?.any (fun c => !isIdentChar c && c != '-') = true) :
    Refuses simpleOperand (before (t :: ts)) := by
  cases htl : t.toList with
  | nil => simp [htl] at h
  | cons c w =>
    obtain ⟨hc, hminus⟩ : isIdentChar c = false ∧ c ≠ '-' := by simpa [htl] using h
    have hrefuses : Refuses simpleOperand (within (c :: w) ts) :=
      .orElse (refuses_literal_mark hc hminus).bind (refuses_identifier (Bool.or_eq_false_iff.mp hc).1).bind
    exact hrefuses.from fun _ hcs => htl ▸ within_of_before hcs

end Syntax
end SegKernel
