import Mathlib.Data.List.Infix
import Mathlib.Data.List.TakeWhile
import Mathlib.Data.Nat.Digits.Defs
import SegKernel.Proofs.Reading.Literals

/-! # Numbers

The texts that are numbers, and the values that they denote. A number of an integer type denotes the integer that its
digits spell in positional notation, or it is refused. -/

namespace SegKernel

/-- The least integer of a type. -/
def ScalarType.least : ScalarType → Int
  | .i32 => -2 ^ 31
  | .i64 => -2 ^ 63
  | _ => 0

/-- The greatest integer of a type. -/
def ScalarType.greatest : ScalarType → Int
  | .i32 => 2 ^ 31 - 1
  | .i64 => 2 ^ 63 - 1
  | .u32 => 2 ^ 32 - 1
  | .u64 => 2 ^ 64 - 1
  | _ => 0

/-- The value of an integer type that an integer between the ends of the type is. -/
def Value.ofInteger (t : ScalarType) (i : Int) : Value :=
  match t with
  | .i32 => .i32 (Int32.ofInt i)
  | .u32 => .u32 (UInt32.ofInt i)
  | .u64 => .u64 (UInt64.ofInt i)
  | _ => .i64 (Int64.ofInt i)

namespace Value
variable {v w : Value} {t : ScalarType} {i : Int}

theorem eq_of_integer? (hv : v.integer? = some i) (hw : w.integer? = some i) (h : v.type = w.type) : v = w := by
  cases v <;> cases w <;> cases h <;> cases hv <;> have hi := Option.some.inj hw
  · exact congrArg i32 (Int32.toInt_inj.mp hi.symm)
  · exact congrArg i64 (Int64.toInt_inj.mp hi.symm)
  · exact congrArg u32 (UInt32.toNat_inj.mp (Int.ofNat_inj.mp hi.symm))
  · exact congrArg u64 (UInt64.toNat_inj.mp (Int.ofNat_inj.mp hi.symm))

/-- The integer of a value lies between the ends of its type. -/
theorem bounds_of_integer? (h : v.integer? = some i) : v.type.least ≤ i ∧ i ≤ v.type.greatest := by
  cases v with
  | bool b => cases h
  | f32 b => cases h
  | f64 b => cases h
  | i32 v =>
    cases h
    exact ⟨v.le_toInt, Int.le_sub_one_of_lt v.toInt_lt⟩
  | i64 v =>
    cases h
    exact ⟨v.le_toInt, Int.le_sub_one_of_lt v.toInt_lt⟩
  | u32 v =>
    cases h
    exact ⟨Int.natCast_nonneg _, Int.le_sub_one_of_lt (Int.ofNat_lt.mpr v.toNat_lt)⟩
  | u64 v =>
    cases h
    exact ⟨Int.natCast_nonneg _, Int.le_sub_one_of_lt (Int.ofNat_lt.mpr v.toNat_lt)⟩

theorem ofInteger_spec (ht : t.isIntegral = true) (hlo : t.least ≤ i) (hhi : i ≤ t.greatest) :
    (ofInteger t i).type = t ∧ (ofInteger t i).integer? = some i := by
  cases t with
  | bool => cases ht
  | f32 => cases ht
  | f64 => cases ht
  | i32 => exact ⟨rfl, congrArg some (Int32.toInt_ofInt_of_le hlo (Int.lt_of_le_sub_one hhi))⟩
  | i64 => exact ⟨rfl, congrArg some (Int64.toInt_ofInt_of_le hlo (Int.lt_of_le_sub_one hhi))⟩
  | u32 =>
    obtain ⟨k, rfl⟩ := Int.eq_ofNat_of_zero_le hlo
    have hk : (UInt32.ofNat k).toNat = k := UInt32.toNat_ofNat_of_lt' (Int.ofNat_lt.mp (Int.lt_of_le_sub_one hhi))
    have hword := Syntax.uint32_ofInt_toNat (UInt32.ofNat k)
    rw [hk] at hword
    exact ⟨rfl, congrArg some (congrArg Int.ofNat ((congrArg UInt32.toNat hword).trans hk))⟩
  | u64 =>
    obtain ⟨k, rfl⟩ := Int.eq_ofNat_of_zero_le hlo
    have hk : (UInt64.ofNat k).toNat = k := UInt64.toNat_ofNat_of_lt' (Int.ofNat_lt.mp (Int.lt_of_le_sub_one hhi))
    have hword := Syntax.uint64_ofInt_toNat (UInt64.ofNat k)
    rw [hk] at hword
    exact ⟨rfl, congrArg some (congrArg Int.ofNat ((congrArg UInt64.toNat hword).trans hk))⟩

/-- The ends of an integer type are the right ones: just the integers between them are those of values of the type,
    one each. -/
theorem existsUnique_integer?_iff (ht : t.isIntegral = true) :
    (∃! v : Value, v.type = t ∧ v.integer? = some i) ↔ t.least ≤ i ∧ i ≤ t.greatest := by
  constructor
  · rintro ⟨v, ⟨rfl, hi⟩, -⟩
    exact bounds_of_integer? hi
  · rintro ⟨hlo, hhi⟩
    obtain ⟨htype, hi⟩ := ofInteger_spec ht hlo hhi
    exact ⟨_, ⟨htype, hi⟩, fun w hw => eq_of_integer? hw.2 hi (hw.1.trans htype.symm)⟩

end Value

namespace Syntax
namespace Numeral
variable {n : Numeral} {cs ds rest : List Char}

/-- The characters of a number. -/
def text (n : Numeral) : List Char :=
  (if n.negative then ['-'] else []) ++
    (n.whole ++ (n.fraction.elim [] ('.' :: ·) ++ n.suffix.elim [] (·.name.toList)))

/-- Digits, at least one. -/
def AreDigits (ds : List Char) : Prop := ds ≠ [] ∧ ∀ c ∈ ds, isDigit c = true

/-- A number that can be written: digits stand before the point, and after it if there is one, and the suffix is a
    type of numbers. -/
structure IsWritten (n : Numeral) : Prop where
  whole : AreDigits n.whole
  fraction : ∀ ds ∈ n.fraction, AreDigits ds
  suffix : n.suffix ≠ some .bool

/-- The integer that the digits before the point spell, each of them counting ten times as much as the next, with the
    sign. -/
def decimal (n : Numeral) : Int :=
  (if n.negative then -1 else 1) * (Nat.ofDigits 10 (n.whole.reverse.map fun c => c.toNat - '0'.toNat) : Nat)

/-- The type that a number has: that of the suffix, else the expected one, else the one that its form suggests. -/
def target (n : Numeral) (expected : Option ScalarType) : ScalarType :=
  (n.suffix <|> expected).getD (if n.fraction.isSome then .f64 else .i64)

/-! ### Texts -/

theorem areDigits_takeWhile (h : (cs.takeWhile isDigit).isEmpty = false) : AreDigits (cs.takeWhile isDigit) :=
  ⟨fun hnil => by simp [hnil] at h, fun _ hc => List.mem_takeWhile_imp hc⟩

theorem takeWhile_append_drop (cs : List Char) : cs = cs.takeWhile isDigit ++ cs.drop (cs.takeWhile isDigit).length :=
  List.prefix_append_drop (List.takeWhile_prefix isDigit)

theorem fractionAt_eq_some (h : fractionAt cs = some ds) :
    AreDigits ds ∧ cs = '.' :: (ds ++ cs.drop (ds.length + 1)) := by
  unfold fractionAt at h
  split at h
  · dsimp only at h
    split at h
    · cases h
    · rename_i cs hsome
      obtain rfl := Option.some.inj h
      refine ⟨areDigits_takeWhile (by simpa using hsome), ?_⟩
      rw [List.drop_succ_cons, ← takeWhile_append_drop]
  · cases h

theorem suffixAt_eq_some {w : List Char} {t : ScalarType} (h : suffixAt cs = some (w, t)) :
    t ≠ .bool ∧ w = t.name.toList ∧ cs = w ++ cs.drop w.length := by
  unfold suffixAt at h
  split at h <;> cases h <;> exact ⟨by decide, rfl, rfl⟩

/-- What is read is the text of a number. -/
theorem at?_sound (h : at? cs = some (n, rest)) : n.IsWritten ∧ cs = n.text ++ rest := by
  unfold at? at h
  split at h
  rename_i negative body hsign
  have hcs : cs = (if negative then ['-'] else []) ++ body := by
    split at hsign <;> cases hsign <;> rfl
  dsimp only at h
  split at h
  · cases h
  rename_i hwhole
  obtain ⟨rfl, rfl⟩ := Prod.mk.inj (Option.some.inj h)
  -- What follows the sign is cut three times: digits, a fraction, and a suffix.
  have hbody := takeWhile_append_drop body
  generalize htail : body.drop (body.takeWhile isDigit).length = tail at hbody ⊢
  have hfraction : tail = (fractionAt tail).elim [] ('.' :: ·) ++
      (fractionAt tail).elim tail (fun digits => tail.drop (digits.length + 1)) := by
    cases hf : fractionAt tail with
    | none => rfl
    | some ds => exact (fractionAt_eq_some hf).2
  generalize hlast : (fractionAt tail).elim tail (fun digits => tail.drop (digits.length + 1)) = last at hfraction
  have hsuffix : last = ((suffixAt last).map (·.2)).elim [] (·.name.toList) ++
      (suffixAt last).elim last (fun suffix => last.drop suffix.1.length) := by
    cases hs : suffixAt last with
    | none => rfl
    | some p =>
      obtain ⟨-, hname, hdrop⟩ := suffixAt_eq_some hs
      simpa only [Option.map_some, Option.elim_some, ← hname] using hdrop
  refine ⟨⟨areDigits_takeWhile (by simpa using hwhole), fun ds hds => (fractionAt_eq_some hds).1, fun hbool => ?_⟩, ?_⟩
  · obtain ⟨⟨w, t⟩, hw, rfl⟩ := Option.map_eq_some_iff.mp hbool
    exact (suffixAt_eq_some hw).1 rfl
  · rw [text, List.append_assoc, List.append_assoc, List.append_assoc]
    calc cs = (if negative then ['-'] else []) ++ (body.takeWhile isDigit ++ tail) := by rw [hcs, ← hbody]
      _ = (if negative then ['-'] else []) ++
        (body.takeWhile isDigit ++ ((fractionAt tail).elim [] ('.' :: ·) ++ last)) := by
        rw [← hfraction]
      _ = (if negative then ['-'] else []) ++ (body.takeWhile isDigit ++ ((fractionAt tail).elim [] ('.' :: ·) ++
          (((suffixAt last).map (·.2)).elim [] (·.name.toList) ++
            (suffixAt last).elim last (fun suffix => last.drop suffix.1.length)))) := by rw [← hsuffix]
      _ = _ := by
        subst hlast
        cases fractionAt tail with
        | none => cases hs : suffixAt tail <;> simp [hs]
        | some ds => cases hs : suffixAt (tail.drop (ds.length + 1)) <;> simp [hs]

theorem takeWhile_areDigits (h : AreDigits ds) (hrest : ∀ c ∈ rest.head?, isDigit c = false) :
    (ds ++ rest).takeWhile isDigit = ds := by
  rw [List.takeWhile_append_of_pos h.2]
  cases rest with
  | nil => simp
  | cons c rest => simp [hrest c rfl]

theorem suffixAt_text {s : Option ScalarType} (hs : s ≠ some .bool) :
    suffixAt (s.elim [] (·.name.toList)) = s.map fun t => (t.name.toList, t) := by
  cases s with
  | none => rfl
  | some t => cases t <;> first | rfl | exact absurd rfl hs

/-- The text of a number is read as this number. -/
theorem IsWritten.at?_text (h : n.IsWritten) : at? n.text = some (n, []) := by
  obtain ⟨negative, whole, fraction, suffix⟩ := n
  obtain ⟨hwhole, hfraction, hsuffix⟩ := h
  dsimp only at hwhole hfraction hsuffix
  have hhead : ∀ c ∈ (suffix.elim [] (·.name.toList)).head?, isDigit c = false ∧ c ≠ '.' := by
    cases suffix with
    | none => simp
    | some t =>
      have hall : t.name.toList.head?.all (fun c => decide (isDigit c = false ∧ c ≠ '.')) = true := by
        cases t <;> decide
      exact fun c hc => of_decide_eq_true ((Option.all_eq_true _ _).mp hall c hc)
  -- No part begins as the one before it could go on.
  have htail : ∀ c ∈ (fraction.elim [] ('.' :: ·) ++ suffix.elim [] (·.name.toList)).head?, isDigit c = false := by
    cases fraction with
    | none => exact fun c hc => (hhead c hc).1
    | some ds =>
      rintro c ⟨⟩
      decide
  have hpoint : fractionAt (fraction.elim [] ('.' :: ·) ++ suffix.elim [] (·.name.toList)) = fraction := by
    cases fraction with
    | none =>
      dsimp only [Option.elim_none, List.nil_append]
      unfold fractionAt
      split
      · rename_i hcs
        exact absurd rfl (hhead '.' (by rw [Option.mem_def, hcs]; rfl)).2
      · rfl
    | some ds =>
      have hds := hfraction ds rfl
      change (if ((ds ++ _).takeWhile isDigit).isEmpty then none else some ((ds ++ _).takeWhile isDigit)) = some ds
      rw [takeWhile_areDigits hds fun c hc => (hhead c hc).1, if_neg (by simpa using hds.1)]
  obtain ⟨d, w, rfl⟩ := List.exists_cons_of_ne_nil hwhole.1
  have hminus : d ≠ '-' := by
    rintro rfl
    exact absurd (hwhole.2 '-' List.mem_cons_self) (by decide)
  unfold at?
  rw [text]
  split
  rename_i negative' body hsign
  obtain ⟨rfl, rfl⟩ : negative = negative' ∧
      body = d :: w ++ (fraction.elim [] ('.' :: ·) ++ suffix.elim [] (·.name.toList)) := by
    split at hsign <;> rename_i hcs <;> cases negative <;> cases hsign <;> simp_all
  dsimp only
  rw [takeWhile_areDigits hwhole htail, List.drop_left, hpoint, if_neg (by simp)]
  have hlast : suffixAt (suffix.elim [] (·.name.toList)) = suffix.map fun t => (t.name.toList, t) :=
    suffixAt_text hsuffix
  cases fraction with
  | none =>
    dsimp only [Option.elim_none, List.nil_append]
    rw [hlast]
    cases suffix <;> simp
  | some ds =>
    dsimp only [Option.elim_some, List.cons_append]
    rw [List.drop_succ_cons, List.drop_left, hlast]
    cases suffix <;> simp

/-! ### Values -/

theorem ofDecimalDigits_eq (cs : List Char) :
    ofDecimalDigits cs = Nat.ofDigits 10 (cs.reverse.map fun c => c.toNat - '0'.toNat) := by
  induction cs using List.reverseRecOn with
  | nil => rfl
  | append_singleton cs c ih =>
    rw [ofDecimalDigits, List.foldl_append, List.foldl_cons, List.foldl_nil, List.reverse_append,
      List.reverse_singleton,
      List.singleton_append, List.map_cons, Nat.ofDigits_cons, ← ih, ofDecimalDigits]
    omega

theorem integer_eq_decimal (n : Numeral) : n.integer = n.decimal := by
  rw [integer, decimal, ofDecimalDigits_eq]
  cases n.negative <;> simp

theorem typeOf_of_agree {e : Option ScalarType} (h : ∀ s ∈ n.suffix, ∀ u ∈ e, s = u) :
    n.typeOf e = .ok (n.target e) := by
  obtain ⟨negative, whole, fraction, suffix⟩ := n
  cases suffix with
  | none => cases e <;> rfl
  | some s =>
    cases e with
    | none => rfl
    | some u => exact if_pos (h s rfl u rfl)

theorem typeOf_of_not_agree {e : Option ScalarType} (h : ¬∀ s ∈ n.suffix, ∀ u ∈ e, s = u) :
    ∃ m, n.typeOf e = .error m := by
  obtain ⟨negative, whole, fraction, suffix⟩ := n
  cases suffix with
  | none => exact absurd (by simp) h
  | some s =>
    cases e with
    | none => exact absurd (by simp) h
    | some u => exact ⟨_, if_neg fun hu => h (by simpa using hu)⟩

/-- A number of an integer type has no digits after the point, and lies between the ends of the type. -/
theorem value_of_integral {e : Option ScalarType} (hagree : ∀ s ∈ n.suffix, ∀ u ∈ e, s = u)
    (ht : (n.target e).isIntegral = true) :
    n.value e = if n.fraction.isSome then .error "fractional literal of an integer type"
      else (n.within (n.target e).isSigned (n.target e).least (n.target e).greatest (n.target e)).map
        (Value.ofInteger (n.target e)) := by
  unfold value
  rw [typeOf_of_agree hagree]
  generalize n.target e = t at *
  cases n.fraction <;> cases t <;> first | rfl | cases ht

/-- A number of an integer type has a value just if it has no point, does not contradict the expected type, has a sign
    only with a signed type, and lies between the ends of its type. -/
theorem value_eq_ok {e : Option ScalarType} (ht : (n.target e).isIntegral = true) {v : Value} :
    n.value e = .ok v ↔ (n.fraction = none ∧ (∀ s ∈ n.suffix, ∀ u ∈ e, s = u) ∧
      (n.negative = true → (n.target e).isSigned = true) ∧ (n.target e).least ≤ n.decimal ∧
        n.decimal ≤ (n.target e).greatest) ∧
      v = Value.ofInteger (n.target e) n.decimal := by
  by_cases hagree : ∀ s ∈ n.suffix, ∀ u ∈ e, s = u
  · rw [value_of_integral hagree ht, within, integer_eq_decimal]
    cases hf : n.fraction with
    | some ds => simp
    | none =>
      by_cases hwithin : ((n.target e).isSigned = true ∨ n.negative = false) ∧
        (n.target e).least ≤ n.decimal ∧ n.decimal ≤ (n.target e).greatest
      · have hsign : n.negative = true → (n.target e).isSigned = true := fun hneg =>
          hwithin.1.resolve_right fun h => Bool.noConfusion (hneg.symm.trans h)
        rw [if_pos hwithin]
        exact ⟨fun h => ⟨⟨rfl, hagree, hsign, hwithin.2⟩, (Except.ok.inj h).symm⟩, fun h => congrArg Except.ok h.2.symm⟩
      · rw [if_neg hwithin]
        refine ⟨nofun, fun h => absurd ⟨?_, h.1.2.2.2⟩ hwithin⟩
        cases hneg : n.negative with
        | false => exact .inr rfl
        | true => exact .inl (h.1.2.2.1 hneg)
  · obtain ⟨m, hm⟩ := typeOf_of_not_agree hagree
    refine ⟨fun h => ?_, fun h => absurd h.1.2.1 hagree⟩
    rw [value, hm] at h
    cases h

end Numeral

open Numeral in
/-- What is read as a number is the text of one. A number whose type is an integer type denotes the integer that its
    digits spell, as a value of this type, if it has no point, agrees with the expected type, has a sign only with a
    signed type, and lies between the ends of the type; otherwise it is refused. Each text of a number is read as this
    number, and each value of an integer type has a number that denotes it. -/
theorem numeral_exact :
    (∀ c d n expectations, numeral c = ⟨some (n, d), expectations⟩ → n.IsWritten ∧ c.rest = n.text ++ d.rest ∧
      ∀ expected, (n.target expected).isIntegral = true →
        ((∃ v, n.value expected = .ok v) ↔ n.fraction = none ∧ (∀ s ∈ n.suffix, ∀ e ∈ expected, s = e) ∧
          (n.negative = true → (n.target expected).isSigned = true) ∧
          (n.target expected).least ≤ n.decimal ∧ n.decimal ≤ (n.target expected).greatest) ∧
        ∀ v, n.value expected = .ok v → v.type = n.target expected ∧ v.integer? = some n.decimal) ∧
    (∀ n : Numeral, n.IsWritten → ∀ offset,
      numeral ⟨n.text, offset⟩ = ⟨some (n, ⟨[], offset + Cursor.byteLength n.text⟩), {}⟩) ∧
    ∀ v : Value, v.type.isIntegral = true →
      ∃ n : Numeral, n.IsWritten ∧ n.value none = .ok v ∧ n.value (some v.type) = .ok v := by
  refine ⟨fun c d n expectations h => ?_, fun n hn offset => ?_, fun v hv => ?_⟩
  · obtain ⟨rest, hat, rfl⟩ : ∃ rest, at? c.rest = some (n, rest) ∧
        d = c.advance (c.rest.take (c.rest.length - rest.length)) := by
      unfold numeral at h
      split at h
      · rename_i n' rest hat
        split at h
        · cases h
        · cases h
          exact ⟨rest, hat, rfl⟩
      · cases h
    obtain ⟨hwritten, hrest⟩ := at?_sound hat
    refine ⟨hwritten, ?_, fun expected ht =>
      ⟨⟨?_, fun hvalue => ⟨_, (value_eq_ok ht).mpr ⟨hvalue, rfl⟩⟩⟩, fun v hv => ?_⟩⟩
    · rw [Cursor.advance, hrest]
      simp
    · rintro ⟨v, hv⟩
      exact ((value_eq_ok ht).mp hv).1
    · obtain ⟨⟨-, -, -, hlo, hhi⟩, rfl⟩ := (value_eq_ok ht).mp hv
      exact Value.ofInteger_spec ht hlo hhi
  · simp only [numeral, hn.at?_text, List.head?_nil, Option.map_none, Option.getD_none, Bool.false_eq_true, if_false,
      Cursor.advance,
      List.length_nil, Nat.sub_zero, List.take_length, List.drop_length]
  -- The number to write has the digits of the value and the suffix of its type.
  · obtain ⟨i, hi⟩ : ∃ i, v.integer? = some i := by
      cases v <;> first | exact ⟨_, rfl⟩ | cases hv
    have hdigits : AreDigits (Nat.toDigits 10 i.natAbs) := ⟨Nat.toDigits_ne_nil, fun _ => isDigit_of_mem_digits⟩
    have hsuffix : some v.type ≠ some .bool := by
      intro h
      rw [Option.some.inj h] at hv
      cases hv
    refine ⟨⟨i < 0, Nat.toDigits 10 i.natAbs, none, some v.type⟩,
      ⟨hdigits, fun _ h => (Option.not_mem_none _ h).elim, hsuffix⟩, ?_, ?_⟩
    all_goals
      refine value_eq (by rw [integer_of_digits, hi]) (by rw [integer_of_digits]; simp) rfl ?_
      simp [typeOf]

/-- The least integer of 32 bits has a literal, and with its sign taken away it has none. -/
theorem numeral_exact_least :
    (∃ v, (⟨true, "2147483648".toList, none, some .i32⟩ : Numeral).value none = .ok v ∧
      v.integer? = some (-2147483648)) ∧
      ¬∃ v, (⟨false, "2147483648".toList, none, some .i32⟩ : Numeral).value none = .ok v := by
  obtain ⟨hexact, -, -⟩ := numeral_exact
  obtain ⟨-, -, hsigned⟩ := hexact ⟨"-2147483648i32".toList, 0⟩ _ _ _ rfl
  obtain ⟨-, -, hplain⟩ := hexact ⟨"2147483648i32".toList, 0⟩ _ _ _ rfl
  obtain ⟨hvalue, hdenotes⟩ := hsigned none rfl
  obtain ⟨v, hv⟩ := hvalue.mpr (by decide +kernel)
  refine ⟨⟨v, hv, (hdenotes v hv).2.trans (by decide +kernel)⟩, fun h => ?_⟩
  exact absurd ((hplain none rfl).1.mp h) (by decide +kernel)

end Syntax
end SegKernel
