import Mathlib.Data.Nat.Digits.Defs
import SegKernel.Proofs.Reading.Spots
import SegKernel.Syntax.Descriptor

/-! # Punctuation and lists

The rules for marks, brackets and lists of elements. The words of a list are those of its elements with
the separator between them; a list is read to its end when what follows is not a separator. -/

namespace SegKernel.Syntax
open SegKernel.Syntax.Parser

variable {α β ι : Type}

/-- The first of some words, if there is one. -/
def firstWord : List String → List Char
  | [] => []
  | t :: _ => t.toList

theorem within_firstWord {ts : List String} {cs : List Char} (h : before ts cs) :
    within (firstWord ts) ts.tail cs := by
  cases ts with
  | nil =>
    obtain ⟨rfl, -⟩ := h
    exact ⟨[], rfl, .nil, by simp⟩
  | cons t ts => exact within_of_before h

theorem refuses_token_first {m : String} {ts : List String} (h : misses m (firstWord ts) = true) :
    Refuses (token m) (before ts) := (refuses_token_within h).from fun _ => within_firstWord

/-! ### Marks and brackets -/

theorem passes_mark {m : String} {ts : List String} : Passes (mark m) (near (m :: ts)) (before ts) :=
  passes_skip.then fun _ => passes_token.then fun _ => passes_skip_after

theorem passes_mark_after {m : String} {ts : List String} : Passes (mark m) (after (m :: ts)) (before ts) :=
  passes_mark.from fun _ h => .inr h

theorem refuses_mark {m : String} {ts : List String} (h : misses m (firstWord ts) = true) :
    Refuses (mark m) (near ts) := passes_skip.refuses fun _ _ => (refuses_token_first h).bind

section Brackets
variable {p : Parser α} {ts rest : List String} {Q : α → Prop}

theorem reads_parenthesized (h : Reads p (before ts) Q (near (")" :: rest))) :
    Reads (parenthesized p) (before ("(" :: ts)) Q (after rest) :=
  passes_token.then fun _ => passes_skip_after.then fun _ => h.bind fun _ ha =>
    passes_skip.then fun _ => passes_token.then fun _ => .pure ha

theorem reads_bracketed (h : Reads p (before ts) Q (near ("]" :: rest))) :
    Reads (bracketed p) (before ("[" :: ts)) Q (after rest) :=
  passes_token.then fun _ => passes_skip_after.then fun _ => h.bind fun _ ha =>
    passes_skip.then fun _ => passes_token.then fun _ => .pure ha

theorem refuses_parenthesized {s : Spot} (h : Refuses (token "(") s) : Refuses (parenthesized p) s := h.bind

theorem refuses_bracketed {s : Spot} (h : Refuses (token "[") s) : Refuses (bracketed p) s := h.bind

theorem reads_call {name : String} (h : Reads p (before ts) Q (near (")" :: rest))) :
    Reads (call name p) (before (name :: "(" :: ts)) Q (after rest) :=
  passes_token.then fun _ => passes_skip_after.then fun _ => reads_parenthesized h

end Brackets

/-! ### Lists -/

theorem Refuses.bind_bind {γ : Type} {p : Parser α} {f : α → Parser β} {g : β → Parser γ} {s : Spot}
    (h : Refuses (p >>= f) s) : Refuses (p >>= fun a => f a >>= g) s := by
  intro c hc
  have hnone := h c hc
  rw [bind_value] at hnone ⊢
  cases hv : (p c).value with
  | none => rfl
  | some x =>
    rw [hv, Option.bind_some] at hnone
    rw [Option.bind_some, bind_value, hnone]
    rfl

theorem length_le_flatMap {as : List ι} {f : ι → List β} (h : ∀ a ∈ as, f a ≠ []) :
    as.length ≤ (as.flatMap f).length := by
  induction as with
  | nil => simp
  | cons a as ih =>
    have hpos := List.length_pos_iff.mpr (h a List.mem_cons_self)
    have hrest := ih fun b hb => h b (List.mem_cons_of_mem _ hb)
    simp only [List.flatMap_cons, List.length_append, List.length_cons]
    omega

/-- What the elements of a list and its separator are to a parser of lists: where the element `a` stands,
    `p` reads a value with `Q a` and stops at `stop`, and `sep` reads on to the next element. After the
    last element no further one is found. -/
structure Listed (p : Parser α) (sep : Parser Unit) (mid : List String) (write : ι → List String)
    (stop : List String → Spot) (Q : ι → α → Prop) (as : List ι) (rest : List String) : Prop where
  elem : ∀ a ∈ as, ∀ ts, (∃ us, ts = mid ++ us) ∨ ts = rest → Reads p (before (write a ++ ts)) (Q a) (stop ts)
  next : ∀ ts, Passes sep (stop (mid ++ ts)) (before ts)
  last : Refuses (sep >>= fun _ => p) (stop rest)
  words : ∀ a ∈ as, mid ++ write a ≠ []
  near : ∀ ts cs, stop ts cs → Syntax.near ts cs

section Listed
variable {p : Parser α} {sep : Parser Unit} {mid : List String} {write : ι → List String} {a : ι} {as : List ι}
  {stop : List String → Spot} {Q : ι → α → Prop} {rest : List String}

theorem Listed.tail (h : Listed p sep mid write stop Q (a :: as) rest) : Listed p sep mid write stop Q as rest where
  elem b hb := h.elem b (List.mem_cons_of_mem _ hb)
  next := h.next
  last := h.last
  words b hb := h.words b (List.mem_cons_of_mem _ hb)
  near := h.near

/-- What follows an element of a list: a separator, or what follows the list. -/
theorem follows_elem (as : List ι) (write : ι → List String) (mid rest : List String) :
    (∃ us, as.flatMap (fun a => mid ++ write a) ++ rest = mid ++ us) ∨
      as.flatMap (fun a => mid ++ write a) ++ rest = rest := by
  cases as with
  | nil => exact .inr rfl
  | cons a as => exact .inl ⟨write a ++ (as.flatMap (fun a => mid ++ write a) ++ rest), by simp⟩

theorem Listed.moreSeparated (h : Listed p sep mid write stop Q as rest) {n : Nat} (hn : as.length ≤ n) :
    Reads (moreSeparated p sep n) (stop (as.flatMap (fun a => mid ++ write a) ++ rest)) (List.Forall₂ Q as)
      (stop rest) := by
  induction as generalizing n with
  | nil =>
    cases n with
    | zero => exact .pure .nil
    | succ n => exact .orElse_right h.last.bind_bind (.pure .nil)
  | cons a as ih =>
    obtain ⟨n, rfl⟩ : ∃ m, n = m + 1 := ⟨n - 1, by simp at hn; omega⟩
    have htail := ih h.tail (n := n) (by simpa using hn)
    refine Reads.orElse_left ?_
    rw [List.flatMap_cons, List.append_assoc, List.append_assoc]
    refine (h.next _).then fun _ => ?_
    refine (h.elem a List.mem_cons_self _ (follows_elem as write mid rest)).bind fun b hb => ?_
    exact htail.bind fun bs hbs => .pure (.cons hb hbs)

theorem Listed.separated1 (h : Listed p sep mid write stop Q (a :: as) rest) :
    Reads (separated1 p sep) (before (joined mid ((a :: as).map write) ++ rest)) (List.Forall₂ Q (a :: as))
      (stop rest) := by
  have hlen := length_le_flatMap fun b hb => h.words b (List.mem_cons_of_mem a hb)
  rw [List.map_cons, joined, List.flatMap_map, List.append_assoc]
  refine (h.elem a List.mem_cons_self _ (follows_elem as write mid rest)).bind fun b hb => ?_
  refine (Reads.withFuel (h.near _) fun n hn => ?_).bind fun bs hbs => .pure (.cons hb hbs)
  rw [List.length_append] at hn
  exact h.tail.moreSeparated (by omega)

theorem Listed.separated {s : Spot} (h : Listed p sep mid write stop Q as rest)
    (hempty : as = [] → Refuses p (before rest)) (hstop : ∀ cs, stop rest cs → s cs)
    (hbefore : ∀ cs, before rest cs → s cs) :
    Reads (separated p sep) (before (joined mid (as.map write) ++ rest)) (List.Forall₂ Q as) s := by
  cases as with
  | nil => exact .orElse_right (hempty rfl).bind ((Reads.pure .nil).to hbefore)
  | cons a as => exact .orElse_left (h.separated1.to hstop)

/-- A parenthesis with a list of two or more elements refuses a single one. -/
theorem refuses_separated2 {b : α} {s s' : Spot} (h : Reads (separated p sep) s (· = [b]) s') :
    Refuses (separated2 p sep) s :=
  h.refuses fun bs hbs => by
    subst hbs
    exact refuses_fail

theorem Listed.separated2 {b : ι} (h : Listed p sep mid write stop Q (a :: b :: as) rest) :
    Reads (separated2 p sep) (before (joined mid ((a :: b :: as).map write) ++ rest))
      (List.Forall₂ Q (a :: b :: as)) (stop rest) := by
  refine Reads.bind (.orElse_left h.separated1) fun bs hbs => ?_
  cases hbs with
  | cons ha hbs =>
    cases hbs with
    | cons hb hbs => exact .pure (.cons ha (.cons hb hbs))

end Listed

theorem joined_nil (f : ι → List String) (as : List ι) : joined [] (as.map f) = as.flatMap f := by
  cases as with
  | nil => rfl
  | cons a as => simp [joined, List.flatMap_map]

/-! ### Lists with commas -/

theorem eq_of_forall₂ {as bs : List α} (h : List.Forall₂ (fun a b => b = a) as bs) : bs = as := by
  induction h with
  | nil => rfl
  | cons h _ ih => rw [h, ih]

theorem map_eq_of_forall₂ {f : α → β} {as bs : List α} (h : List.Forall₂ (fun a b => f b = f a) as bs) :
    bs.map f = as.map f := by
  induction h with
  | nil => rfl
  | cons h _ ih => rw [List.map_cons, List.map_cons, h, ih]

section Commas
variable {p : Parser α} {write : ι → List String} {as : List ι} {Q : ι → α → Prop} {rest : List String}

/-- The words of a list with commas. -/
def commas (ts : List (List String)) : List String := joined [","] ts

theorem listed_commas
    (elem : ∀ a ∈ as, ∀ ts, (∃ us, ts = "," :: us) ∨ ts = rest → Reads p (before (write a ++ ts)) (Q a) (after ts))
    (hlast : misses "," (firstWord rest) = true) : Listed p (mark ",") [","] write after Q as rest where
  elem := elem
  next _ := passes_mark_after
  last := ((refuses_mark hlast).from fun _ h => .inr h).bind
  words := by simp
  near _ _ h := .inr h

theorem reads_commas
    (elem : ∀ a ∈ as, ∀ ts, (∃ us, ts = "," :: us) ∨ ts = rest → Reads p (before (write a ++ ts)) (Q a) (after ts))
    (hlast : misses "," (firstWord rest) = true) (hempty : as = [] → Refuses p (before rest)) :
    Reads (commaSeparated p) (before (commas (as.map write) ++ rest)) (List.Forall₂ Q as) (near rest) :=
  (listed_commas elem hlast).separated hempty (fun _ h => .inr h) fun _ h => .inl h

theorem reads_commas1 (hne : as ≠ [])
    (elem : ∀ a ∈ as, ∀ ts, (∃ us, ts = "," :: us) ∨ ts = rest → Reads p (before (write a ++ ts)) (Q a) (after ts))
    (hlast : misses "," (firstWord rest) = true) :
    Reads (separated1 p (mark ",")) (before (commas (as.map write) ++ rest)) (List.Forall₂ Q as) (after rest) := by
  cases as with
  | nil => exact absurd rfl hne
  | cons a as => exact (listed_commas elem hlast).separated1

/-- A list of known elements. -/
theorem reads_commas_eq {p : Parser ι}
    (elem : ∀ a ∈ as, ∀ ts, (∃ us, ts = "," :: us) ∨ ts = rest → Reads p (before (write a ++ ts)) (· = a) (after ts))
    (hlast : misses "," (firstWord rest) = true) (hempty : as = [] → Refuses p (before rest)) :
    Reads (commaSeparated p) (before (commas (as.map write) ++ rest)) (· = as) (near rest) :=
  (reads_commas (Q := fun a b => b = a) elem hlast hempty).mono fun _ => eq_of_forall₂

theorem reads_commas1_eq {p : Parser ι} (hne : as ≠ [])
    (elem : ∀ a ∈ as, ∀ ts, (∃ us, ts = "," :: us) ∨ ts = rest → Reads p (before (write a ++ ts)) (· = a) (after ts))
    (hlast : misses "," (firstWord rest) = true) :
    Reads (separated1 p (mark ",")) (before (commas (as.map write) ++ rest)) (· = as) (after rest) :=
  (reads_commas1 (Q := fun a b => b = a) hne elem hlast).mono fun _ => eq_of_forall₂

end Commas

/-! ## Words

How names, types and literals are written, and that each is read back. A keyword may be the beginning of
a name; where a rule reads a keyword there, what follows it refuses the rest of the name. -/
open SegKernel.Syntax.Parser

variable {α β ι : Type} {ts : List String} {v k : String} {c : Char} {w : List Char}

/-! ### Names -/

/-- An identifier that is no keyword. -/
def IsName (v : Ident) : Prop :=
  v.toList.head?.any isIdentStart = true ∧ v.toList.all isIdentChar = true ∧ v ∉ keywords

instance : DecidablePred IsName := fun _ => inferInstanceAs (Decidable (_ ∧ _ ∧ _))

theorem isIdentChar_of_start (h : isIdentStart c = true) : isIdentChar c = true := by
  simp [isIdentChar, h]

theorem not_isIdentChar_of_blank {b : Char} (h : isBlank b = true) : isIdentChar b = false := by
  simp only [isBlank, Bool.or_eq_true, beq_iff_eq] at h
  rcases h with ((rfl | rfl) | rfl) | rfl <;> decide

theorem not_isDigit_of_start (h : isIdentStart c = true) : isDigit c = false := by
  simp only [isIdentStart, Bool.or_eq_true, Bool.and_eq_true, decide_eq_true_eq, beq_iff_eq, Char.le_def,
    UInt32.le_iff_toNat_le] at h
  have hupper : ¬ c ≤ '9' := by
    rw [Char.le_def, UInt32.le_iff_toNat_le]
    rcases h with (⟨h, -⟩ | ⟨h, -⟩) | rfl
    · change 97 ≤ c.val.toNat at h
      change ¬ c.val.toNat ≤ 57
      omega
    · change 65 ≤ c.val.toNat at h
      change ¬ c.val.toNat ≤ 57
      omega
    · decide
  simp [isDigit, hupper]

theorem not_isIdentStart_of_digit (h : isDigit c = true) : isIdentStart c = false := by
  by_contra hstart
  rw [Bool.not_eq_false] at hstart
  rw [not_isDigit_of_start hstart] at h
  cases h

theorem not_isDigit_of_blank {b : Char} (h : isBlank b = true) : isDigit b = false := by
  have := not_isIdentChar_of_blank h
  simp only [isIdentChar, Bool.or_eq_false_iff] at this
  exact this.2

theorem not_isBlank_of_identChar (h : isIdentChar c = true) : isBlank c = false := by
  by_contra hb
  rw [Bool.not_eq_false] at hb
  simp [not_isIdentChar_of_blank hb] at h

theorem IsName.cons (h : IsName v) : ∃ c w, v.toList = c :: w ∧ isIdentStart c = true ∧
    ∀ d ∈ c :: w, isIdentChar d = true := by
  obtain ⟨hhead, hall, -⟩ := h
  cases hv : v.toList with
  | nil => simp [hv] at hhead
  | cons c w =>
    rw [hv] at hhead hall
    exact ⟨c, w, rfl, by simpa using hhead, by simpa using hall⟩

theorem solid_of_identChar (h : v.toList = c :: w) (hc : isIdentChar c = true) : Solid v := by
  unfold Solid
  rw [h]
  refine ⟨not_isBlank_of_identChar hc, ?_⟩
  rintro rfl
  simp [isIdentChar, isIdentStart, isDigit] at hc

theorem IsName.solid (h : IsName v) : Solid v := by
  obtain ⟨c, w, hv, hc, -⟩ := h.cons
  exact solid_of_identChar hv (isIdentChar_of_start hc)

/-- What begins with a mark does not begin a name. -/
theorem misses_name {m : String} (hv : IsName v)
    (hm : (m.toList.all (!isBlank ·) && m.toList.head?.any (!isIdentChar ·)) = true) : misses m v.toList = true := by
  obtain ⟨c, w, htl, hc, -⟩ := hv.cons
  rw [htl]
  exact misses_of_class isIdentChar (isIdentChar_of_start hc) hm

/-- A word ends where the blanks begin. -/
theorem takeWhile_word {f : Char → Bool} {gap : List Char} (hw : ∀ c ∈ w, f c = true)
    (hf : ∀ b, isBlank b = true → f b = false) (hgap : Trail ts gap) : (w ++ gap).takeWhile f = w := by
  rw [List.takeWhile_append_of_pos hw]
  cases gap with
  | nil => simp
  | cons b gap => simp [hf b (hgap.head_blank b rfl)]

theorem reads_identifier (hv : IsName v) : Reads identifier (before (v :: ts)) (· = v) (after ts) := by
  rintro ⟨cs, o⟩ hcs
  obtain ⟨gap, rfl, hgap⟩ := within_of_before hcs
  obtain ⟨c, w, htl, hstart, hall⟩ := hv.cons
  have hword : identifierAt (v.toList ++ gap) = some v.toList := by
    have htake : (c :: (w ++ gap)).takeWhile isIdentChar = c :: w :=
      takeWhile_word hall (fun _ => not_isIdentChar_of_blank) hgap.1
    have hkey : keywords.contains (String.ofList (c :: w)) = false := by
      rw [← htl, String.ofList_toList]
      simpa using hv.2.2
    rw [htl, List.cons_append]
    simp only [identifierAt, htake, hstart, hkey, Bool.not_false, Bool.and_self, if_true]
  refine ⟨v, ⟨gap, o + Cursor.byteLength v.toList⟩, ?_, hgap, rfl⟩
  simp [identifier, hword, Cursor.advance, String.ofList_toList]

theorem refuses_identifier (hc : isIdentStart c = false) : Refuses identifier (within (c :: w) ts) := by
  rintro ⟨cs, o⟩ ⟨gap, rfl, -⟩
  simp [identifier, identifierAt, hc]

/-- A mark is no name. -/
theorem refuses_identifier_mark {t : String} (h : t.toList.head?.any (!isIdentStart ·) = true) :
    Refuses identifier (before (t :: ts)) := by
  cases htl : t.toList with
  | nil => simp [htl] at h
  | cons c w =>
    have hc : isIdentStart c = false := by simpa [htl] using h
    exact (refuses_identifier hc).from fun _ hcs => htl ▸ within_of_before hcs

theorem keywords_identChars : ∀ k ∈ keywords, k.toList.all isIdentChar = true := by decide

theorem refuses_identifier_keyword (hk : k ∈ keywords) : Refuses identifier (before (k :: ts)) := by
  rintro ⟨cs, o⟩ hcs
  obtain ⟨gap, rfl, hgap⟩ := within_of_before hcs
  have hall : ∀ c ∈ k.toList, isIdentChar c = true := by simpa using keywords_identChars k hk
  have htake : (k.toList ++ gap).takeWhile isIdentChar = k.toList :=
    takeWhile_word hall (fun _ => not_isIdentChar_of_blank) hgap.1
  have hnone : identifierAt (k.toList ++ gap) = none := by
    unfold identifierAt
    split
    · rw [htake]
      simp [String.ofList_toList, hk]
    · rfl
  simp [identifier, hnone]

/-! ### Keywords -/

theorem passes_wordEnd : Passes wordEnd (after ts) (after ts) :=
  .notAhead (refuses_char_after fun _ => not_isIdentChar_of_blank)

theorem reads_char {f : Char → Bool} (h : f c = true) : Reads (char f) (within (c :: w) ts) (· = c) (within w ts) := by
  rintro ⟨cs, o⟩ ⟨gap, rfl, hgap⟩
  exact ⟨c, ⟨w ++ gap, o + Cursor.byteLength [c]⟩, by simp [char, h, Cursor.advance], ⟨gap, rfl, hgap⟩, rfl⟩

theorem refuses_wordEnd (h : isIdentChar c = true) : Refuses wordEnd (within (c :: w) ts) :=
  .notAhead (reads_char h)

theorem passes_word : Passes (word k) (before (k :: ts)) (after ts) :=
  passes_token.then fun _ => passes_wordEnd

theorem refuses_word {s : Spot} (h : Refuses (token k) s) : Refuses (word k) s := h.bind

/-- A rule that begins with a keyword refuses a name, also one that begins with the keyword, if it does
    not go on with the characters of names. -/
theorem refuses_keyword_led {p : Unit → Parser α} (hk : k ∈ keywords) (hv : IsName v)
    (hp : ∀ c w, isIdentChar c = true → Refuses (p ()) (within (c :: w) ts)) :
    Refuses (token k >>= p) (before (v :: ts)) := by
  by_cases hpre : k.toList <+: v.toList
  · obtain ⟨w, hw⟩ := hpre
    cases w with
    | nil =>
      have heq : k = v := String.toList_inj.mp (by simpa using hw)
      exact absurd (heq ▸ hk) hv.2.2
    | cons c w =>
      have hc : isIdentChar c = true := by
        have := List.all_eq_true.mp hv.2.1 c (by rw [← hw]; simp)
        exact this
      exact (passes_token_part hw.symm).refuses fun _ _ => hp c w hc
  · refine (refuses_token ?_).bind
    have hall : ∀ c ∈ k.toList, isIdentChar c = true := by simpa using keywords_identChars k hk
    simp only [misses, Bool.and_eq_true, List.all_eq_true, Bool.not_eq_true']
    refine ⟨fun c hc => not_isBlank_of_identChar (hall c hc), ?_⟩
    rwa [← Bool.not_eq_true, List.isPrefixOf_iff_prefix]

theorem refuses_word_name (hk : k ∈ keywords) (hv : IsName v) : Refuses (word k) (before (v :: ts)) :=
  refuses_keyword_led hk hv fun _ _ => refuses_wordEnd

/-- What begins with a character that no blank or name begins with. -/
theorem refuses_punctuation {m : String}
    (hm : (m.toList.all (!isBlank ·) && m.toList.head?.any (!isIdentChar ·)) = true) (hc : isIdentChar c = true) :
    Refuses (token m) (within (c :: w) ts) :=
  refuses_token_within (misses_of_class isIdentChar hc hm)

theorem refuses_skip_then {p : Unit → Parser α} (hc : isIdentChar c = true)
    (hp : Refuses (p ()) (within (c :: w) ts)) : Refuses (skip >>= p) (within (c :: w) ts) := by
  rintro ⟨cs, o⟩ hcs
  obtain ⟨gap, rfl, hgap⟩ := hcs
  have hskip : afterBlanks o (c :: w ++ gap) = ⟨c :: w ++ gap, o⟩ := by
    rw [List.cons_append, afterBlanks.eq_3]
    · simp [not_isBlank_of_identChar hc]
    all_goals
      rintro ds rfl
      simp [isIdentChar, isIdentStart, isDigit] at hc
  rw [bind_value]
  change (p () (afterBlanks o (c :: w ++ gap))).value = none
  rw [hskip]
  exact hp _ ⟨gap, rfl, hgap⟩

theorem refuses_call_name {name : String} {p : Parser α} (hk : name ∈ keywords) (hv : IsName v) :
    Refuses (call name p) (before (v :: ts)) :=
  refuses_keyword_led hk hv fun _ _ hc => refuses_skip_then hc (refuses_punctuation (by decide) hc).bind

/-! ### Types -/

theorem name_mem_keywords (t : ScalarType) : t.name ∈ keywords := by cases t <;> decide

theorem types_pairwise : ScalarType.all.Pairwise fun t u => misses t.name u.name.toList = true := by decide

theorem reads_scalarType (t : ScalarType) : Reads scalarType (before (t.name :: ts)) (· = t) (after ts) := by
  have hfirst : Reads (firstOf (ScalarType.all.map fun t => (do token t.name; return t)))
      (before (t.name :: ts)) (· = t) (after ts) :=
    reads_firstOf_map (ScalarType.mem_all t) types_pairwise (fun u hu => (refuses_token hu).bind)
      (passes_token.then fun _ => .pure rfl)
  exact hfirst.bind_eq (passes_wordEnd.then fun _ => .pure rfl)

/-- No type begins where none of its names does. -/
theorem refuses_scalarType {s : Spot} (h : ∀ t : ScalarType, Refuses (token t.name) s) : Refuses scalarType s := by
  refine (refuses_firstOf ?_).bind
  intro p hp
  obtain ⟨t, -, rfl⟩ := List.mem_map.mp hp
  exact (h t).bind

theorem refuses_bind_pure {p : Parser α} {f : β → Parser ι} {b : β} {s : Spot} (h : Refuses (p >>= fun _ => f b) s) :
    Refuses ((p >>= fun _ => pure b) >>= f) s := by
  intro c hc
  have hnone := h c hc
  rw [bind_value] at hnone ⊢
  rw [bind_value]
  cases hv : (p c).value with
  | none => rfl
  | some r =>
    rw [hv] at hnone
    exact hnone

theorem refuses_scalarType_name (hv : IsName v) : Refuses scalarType (before (v :: ts)) := by
  refine refuses_firstOf_bind ?_
  intro p hp
  obtain ⟨t, -, rfl⟩ := List.mem_map.mp hp
  exact refuses_bind_pure (refuses_keyword_led (name_mem_keywords t) hv fun _ _ h => (refuses_wordEnd h).bind)

end SegKernel.Syntax
