import SegKernel.Proofs.Reading.Expressions
import SegKernel.Proofs.Reading.Writing

/-! # The parts of an operation are read back

Patterns, grids, spaces, operators and results: each is read as what its words write. -/

namespace SegKernel
namespace Syntax
open SegKernel.Syntax.Parser

variable {α ι : Type} {ts rest : List String}

/-! ### Lists of operands -/

theorem Operand.isPlain {o : Operand} (h : o.isWritable = true) : o.IsPlain := of_decide_eq_true h

theorem reads_brackets {p : Parser α} {Q : α → Prop} {ws : List (List String)}
    (h : Reads p (before (commas ws ++ "]" :: rest)) Q (near ("]" :: rest))) :
    Reads (bracketed p) (before (bracketWords ws ++ rest)) Q (after rest) := by
  rw [bracketWords, List.cons_append, List.append_assoc]
  exact reads_bracketed h

theorem reads_operands {os : List Operand} (h : os.all Operand.isWritable = true) :
    Reads (commaSeparated simpleOperand) (before (commas (operandWords os) ++ "]" :: rest)) (· = os)
      (near ("]" :: rest)) := by
  rw [List.all_eq_true] at h
  exact reads_commas_eq (fun o ho _ _ => reads_operand (Operand.isPlain (h o ho))) rfl
    fun _ => refuses_operand_mark (by decide)

theorem reads_bracketed_operands {os : List Operand} (h : os.all Operand.isWritable = true) :
    Reads (bracketed (commaSeparated simpleOperand)) (before (bracketWords (operandWords os) ++ rest)) (· = os)
      (after rest) := reads_brackets (reads_operands h)

/-! ### Patterns -/

/-- The extents of a shape, each in brackets, in whatever way they are written. -/
theorem reads_shape {os : List Operand} {write : Operand → String} {t : String}
    (h : ∀ o ∈ os, ∀ ts, Reads simpleOperand (before (write o :: ts)) (· = o) (after ts))
    (ht : misses "[" t.toList = true) :
    Reads shape (before (os.flatMap (fun o => ["[", write o, "]"]) ++ t :: rest)) (· = os) (before (t :: rest)) := by
  have hlisted : Listed (do token "["; skip; let d ← simpleOperand; skip; token "]"; skip; return d) (pure ()) []
      (fun o : Operand => ["[", write o, "]"]) before (fun a b => b = a) os (t :: rest) :=
    { elem := fun o ho _ _ => passes_token.then fun _ => passes_skip_after.then fun _ => (h o ho _).bind_eq <|
        passes_skip_after.then fun _ => passes_token.then fun _ => passes_skip_after.then fun _ => .pure rfl
      next := fun _ => .pure trivial
      last := Reads.refuses (P := fun _ => True) (.pure trivial) fun _ _ => (refuses_token ht).bind
      words := by simp
      near := fun _ _ h => .inl h }
  rw [← joined_nil]
  exact (hlisted.separated (fun _ => (refuses_token ht).bind) (fun _ h => h) fun _ h => h).mono fun _ => eq_of_forall₂

theorem misses_bracket_type (t : ScalarType) : misses "[" t.name.toList = true := by cases t <;> decide

theorem reads_patElem {name : Ident} {os : List Operand} {write : Operand → String} {type : ScalarType}
    (hname : IsName name) (h : ∀ o ∈ os, ∀ ts, Reads simpleOperand (before (write o :: ts)) (· = o) (after ts)) :
    Reads patElem (before (name :: ":" :: (os.flatMap (fun o => ["[", write o, "]"]) ++ type.name :: rest)))
      (· = ⟨name, type, os⟩) (after rest) :=
  (reads_identifier hname).bind_eq <| passes_mark_after.then fun _ =>
    (reads_shape h (misses_bracket_type type)).bind_eq <| (reads_scalarType type).bind_eq (.pure rfl)

theorem reads_pattern {ps : List PatElem} (h : patternIsWritable ps = true) :
    Reads pattern (before (patternWords ps ++ "=" :: rest)) (· = ps) (after ("=" :: rest)) := by
  simp only [patternIsWritable, Bool.and_eq_true, Bool.not_eq_true', List.isEmpty_eq_false_iff, List.all_eq_true] at h
  refine reads_commas1_eq h.1 (fun p hp us _ => ?_) rfl
  obtain ⟨hname, hshape⟩ := Bool.and_eq_true _ _ ▸ h.2 p hp
  rw [List.all_eq_true] at hshape
  simp only [PatElem.words, shapeWords, List.cons_append, List.append_assoc, List.nil_append]
  exact reads_patElem (of_decide_eq_true hname) fun o ho _ => reads_operand (Operand.isPlain (hshape o ho))

/-- One binding is a pattern where the right side follows. -/
theorem reads_pattern_single {p : PatElem} {ws : List String}
    (h : Reads patElem (before (ws ++ "=" :: rest)) (· = p) (after ("=" :: rest))) :
    Reads pattern (before (ws ++ "=" :: rest)) (· = [p]) (after ("=" :: rest)) := by
  refine h.bind_eq <| (Reads.withFuel (fun _ h => .inr h) fun n _ => ?_).bind_eq (.pure rfl)
  have hlisted : Listed patElem (mark ",") [","] PatElem.words after (fun a b => b = a) [] ("=" :: rest) :=
    listed_commas (by simp) rfl
  exact (hlisted.moreSeparated (Nat.zero_le n)).mono fun _ => eq_of_forall₂

/-! ### Grids and spaces -/

theorem reads_level (l : Level) : Reads level (within l.word.toList ts) (· = l) (after ts) := by
  cases l with
  | thread => exact .orElse_left (passes_token_rest.then fun _ => .pure rfl)
  | group =>
    refine .orElse_right (refuses_token_within (by decide)).bind ?_
    exact passes_token_rest.then fun _ => .pure rfl

/-- A space follows the coverage of a grid. -/
theorem reads_coverage (c : Coverage) {flat : Ident} (hflat : IsName flat) :
    Reads (optional (do blank; coverage)) (after (c.words ++ flat :: ts)) (fun r => r.getD .direct = c)
      (after (flat :: ts)) := by
  cases c with
  | direct =>
    refine (Reads.optional_none ?_).mono fun r hr => hr ▸ rfl
    refine passes_blank.refuses fun _ _ => ?_
    exact .orElse (refuses_word_name (by decide) hflat).bind (refuses_word_name (by decide) hflat).bind
  | virtualize =>
    have hread : Reads coverage (before ("virtualize" :: flat :: ts)) (· = .virtualize) (after (flat :: ts)) :=
      .orElse_left (passes_word.then fun _ => .pure rfl)
    exact (Reads.optional_some (passes_blank.then fun _ => hread)).mono fun r ⟨_, hr, hc⟩ => hr ▸ hc
  | full =>
    have hread : Reads coverage (before ("full" :: flat :: ts)) (· = .full) (after (flat :: ts)) :=
      .orElse_right (refuses_word (refuses_token (by decide))).bind (passes_word.then fun _ => .pure rfl)
    exact (Reads.optional_some (passes_blank.then fun _ => hread)).mono fun r ⟨_, hr, hc⟩ => hr ▸ hc

theorem reads_grid {g : Grid} (h : g.isWritable = true) {flat : Ident} (hflat : IsName flat) :
    Reads grid (within g.level.word.toList (g.words ++ flat :: ts)) (· = g) (after (flat :: ts)) := by
  rw [Grid.isWritable, Bool.and_eq_true] at h
  have hsizes : Reads (do skip; parenthesized (do
        let numGroups ← simpleOperand
        mark ","
        return (numGroups, ← simpleOperand)))
      (after (g.words ++ flat :: ts)) (· = (g.numGroups, g.groupSize)) (after (g.coverage.words ++ flat :: ts)) :=
    passes_skip_after.then fun _ => reads_parenthesized <| .to_near <|
      (reads_operand (Operand.isPlain h.1)).bind_eq <| passes_mark_after.then fun _ =>
      (reads_operand (Operand.isPlain h.2)).bind_eq (.pure rfl)
  refine (reads_level g.level).bind_eq <| (Reads.optional_some hsizes).bind ?_
  rintro _ ⟨_, rfl, rfl⟩
  refine (reads_coverage g.coverage hflat).bind fun r hr => ?_
  refine .pure ?_
  rw [hr]

theorem reads_space {s : IterationSpace} (h : s.isWritable = true) :
    Reads space (before (s.words ++ rest)) (· = s) (after rest) := by
  simp only [IterationSpace.isWritable, Bool.and_eq_true, List.all_eq_true] at h
  rw [IterationSpace.words, List.cons_append, List.cons_append, List.append_assoc]
  have hdims : Reads (commaSeparated dim) (before (commas (s.dims.map dimWords) ++ ")" :: rest)) (· = s.dims)
      (near (")" :: rest)) := by
    refine reads_commas_eq (fun d hd us _ => ?_) rfl fun _ => (refuses_identifier_mark (by decide)).bind
    obtain ⟨hname, hextent⟩ := h.2 d hd
    exact (reads_identifier (of_decide_eq_true hname)).bind_eq <| passes_mark_after.then fun _ =>
      (reads_operand (Operand.isPlain hextent)).bind_eq (.pure rfl)
  exact (reads_identifier (of_decide_eq_true h.1)).bind_eq <| passes_skip_after.then fun _ =>
    (reads_parenthesized hdims).bind_eq (.pure rfl)

/-! ### The first words of expressions -/

/-- The words with which operations begin. -/
def kindWords : List String := ["segmap", "segred", "segscan", "seghist"]

theorem name_mem_kindWords (k : SegKind) : k.name ∈ kindWords := by cases k <;> simp [SegKind.name, kindWords]

/-- A word with which neither a name nor a parenthesis, a list or an operation begins. -/
def leads (t : String) : Bool :=
  (keywords.contains t || t.toList.head?.any (!isIdentStart ·)) &&
    ("(" :: "[" :: kindWords).all fun m => misses m t.toList

theorem leads_value {v : Value} (hv : v.IsUnsigned) : leads v.word = true := by
  obtain ⟨b, rfl⟩ | ⟨i, hi⟩ := bool_or_integer hv.isDiscrete
  · cases b <;> decide
  · obtain ⟨c, w, htl, -, hc⟩ := integerWord_cons i (suffixWord (some v.type))
    have hdigit : isDigit c = true := hc (hv.nonneg hi)
    have hstart := not_isIdentStart_of_digit hdigit
    have hheads : ∀ m ∈ "(" :: "[" :: kindWords, (m.toList.all (!isBlank ·) && m.toList.head?.any (!isDigit ·)) =
      true := by decide
    rw [word_eq hi, leads, Bool.and_eq_true, List.all_eq_true, htl]
    refine ⟨by simp [hstart], fun m hm => misses_of_class isDigit hdigit (hheads m hm)⟩

theorem leads_type (t : ScalarType) : leads t.name = true := by cases t <;> decide

/-- A fully parenthesized expression is a variable, stands in parentheses, or begins with a word that
    shows what it is. -/
theorem words_full_cases (e : Exp) (he : e.isWritable = true) :
    (∃ v, e = .var v ∧ IsName v) ∨ (∃ us, e.words true 0 = "(" :: (us ++ [")"]) ∧ e.Written 0 us) ∨
      ∃ t us, e.words true 0 = t :: us ∧ leads t = true := by
  cases e with
  | var v => exact .inl ⟨v, rfl, of_decide_eq_true he⟩
  | const v => exact .inr (.inr ⟨_, [], rfl, leads_value (of_decide_eq_true he)⟩)
  | binary op x y =>
    cases hop : op.level? with
    | none =>
      refine .inr (.inr ⟨op.symbol, _, by rw [Exp.words, hop], ?_⟩)
      cases op <;> decide
    | some l =>
      refine .inr (.inl ⟨x.words true l ++ op.symbol :: y.words true (l + 1), ?_, ?_⟩)
      · simp only [Exp.words, hop, Bool.true_or, Exp.enclosed, if_true]
      · exact .binary hop (Nat.zero_le l) (x.written_words true l) (y.written_words true (l + 1))
  | compare op x y =>
    exact .inr (.inl ⟨_, rfl, .compare (Nat.zero_le _) (x.written_words true _) (y.written_words true _)⟩)
  | unary op x =>
    cases op with
    | neg => exact .inr (.inl ⟨_, rfl, .neg (x.written_words true _)⟩)
    | not => exact .inr (.inl ⟨_, rfl, .not (x.written_words true _)⟩)
    | abs => exact .inr (.inr ⟨_, _, rfl, by decide⟩)
  | convert type x => exact .inr (.inr ⟨_, _, rfl, leads_type type⟩)
  | bitcast type x => exact .inr (.inr ⟨_, _, rfl, by decide⟩)
  | select c t e => exact .inr (.inr ⟨_, _, rfl, by decide⟩)

theorem misses_of_leads {t m : String} (h : leads t = true)
    (hm : m ∈ ("(" :: "[" :: kindWords)) : misses m t.toList = true := by
  rw [leads, Bool.and_eq_true, List.all_eq_true] at h
  exact h.2 m hm

theorem refuses_identifier_leads {t : String} (h : leads t = true) : Refuses identifier (before (t :: ts)) := by
  rw [leads, Bool.and_eq_true, Bool.or_eq_true] at h
  obtain hk | hmark := h.1
  · exact refuses_identifier_keyword (by simpa using hk)
  · exact refuses_identifier_mark hmark

/-- The end of a list in brackets is no expression. -/
theorem refuses_expression_close : Refuses expression (before ("]" :: ts)) := by
  have hmark {β : Type} {f : Unit → Parser β} (m : String) (hm : misses m "]".toList = true) :
      Refuses (token m >>= f) (before ("]" :: ts)) := (refuses_token hm).bind
  have htype : Refuses scalarType (before ("]" :: ts)) :=
    refuses_scalarType fun t => refuses_token (by cases t <;> decide)
  have hliteral : Refuses literal (before ("]" :: ts)) :=
    (refuses_literal_mark (c := ']') (w := []) (by decide) (by decide)).from fun _ => within_of_before
  have hoperand (self : Nat → Parser Exp) : Refuses (operand self) (before ("]" :: ts)) := by
    refine refuses_firstOf ?_
    simp only [List.forall_mem_cons, List.not_mem_nil, false_implies, implies_true, and_true]
    exact ⟨hmark "-" (by decide), hmark "!" (by decide), hmark "(" (by decide), hmark "min" (by decide),
      hmark "max" (by decide), hmark "abs" (by decide), hmark "select" (by decide), hmark "bitcast" (by decide),
      htype.bind, hliteral.bind, (refuses_identifier_mark (by decide)).bind⟩
  refine .withFuel fun n => ?_
  cases n with
  | zero => exact refuses_fail
  | succ n => exact (hoperand _).bind

/-! ### Tuples -/

/-- Two or more elements stand in parentheses, where one of them does not. -/
theorem reads_tuple {p : Parser α} {write : ι → List String} {as : List ι} {Q : ι → α → Prop} (hne : as ≠ [])
    (elem : ∀ a ∈ as, ∀ ts, (∃ us, ts = "," :: us) ∨ (∃ us, ts = ")" :: us) ∨ ts = rest →
      Reads p (before (write a ++ ts)) (Q a) (after ts))
    (single : ∀ a ∈ as, Refuses (parenthesized (separated2 p (mark ","))) (before (write a ++ rest))) :
    Reads (tuple p) (before (tupleWords (as.map write) ++ rest)) (List.Forall₂ Q as) (after rest) := by
  obtain ⟨a, as, rfl⟩ := List.exists_cons_of_ne_nil hne
  cases as with
  | nil =>
    refine .orElse_right (single a (by simp)) ?_
    exact (elem a (by simp) rest (.inr (.inr rfl))).bind fun b hb => .pure (.cons hb .nil)
  | cons a' as =>
    refine .orElse_left ?_
    have hlisted : Listed p (mark ",") [","] write after Q (a :: a' :: as) (")" :: rest) :=
      listed_commas (fun b hb ts hts => elem b hb ts (hts.imp_right fun h => .inl ⟨rest, h⟩)) rfl
    have hwords : tupleWords ((a :: a' :: as).map write) ++ rest =
        "(" :: (joined [","] ((a :: a' :: as).map write) ++ ")" :: rest) := by
      simp [tupleWords, commas]
    rw [hwords]
    exact reads_parenthesized (.to_near hlisted.separated2)

theorem reads_tuple_operands {os : List Operand} (hne : os ≠ []) (h : os.all Operand.isWritable = true) :
    Reads neutral (before (tupleWords (operandWords os) ++ rest)) (· = os) (after rest) := by
  rw [List.all_eq_true] at h
  refine (reads_tuple (Q := fun a b => b = a) hne (fun o ho us _ => reads_operand (Operand.isPlain (h o ho))) ?_).mono
    fun _ => eq_of_forall₂
  exact fun o ho => refuses_parenthesized (refuses_token (misses_operand (Operand.isPlain (h o ho)) (by decide)))

theorem reads_tuple_expressions {es : List Exp} (hne : es ≠ []) (h : es.all Exp.isWritable = true) :
    Reads (tuple expression) (before (tupleWords (es.map fun e => e.words true 0) ++ ";" :: rest)) (· = es)
      (after (";" :: rest)) := by
  rw [List.all_eq_true] at h
  have elem : ∀ e ∈ es, ∀ ts, (∃ us, ts = "," :: us) ∨ (∃ us, ts = ")" :: us) ∨ ts = ";" :: rest →
      Reads expression (before (e.words true 0 ++ ts)) (· = e) (after ts) := by
    rintro e he _ (⟨us, rfl⟩ | ⟨us, rfl⟩ | rfl)
    all_goals exact (e.written_words true 0).reads (h e he) (closed_mark (by decide))
  refine (reads_tuple (Q := fun a b => b = a) hne elem ?_).mono fun _ => eq_of_forall₂
  intro e he
  obtain ⟨v, rfl, hv⟩ | ⟨us, hwords, hwritten⟩ | ⟨t, us, hwords, ht⟩ := words_full_cases e (h e he)
  · exact refuses_parenthesized (refuses_token (misses_name hv (by decide)))
  · -- The parenthesis holds a single expression.
    rw [hwords, List.cons_append, List.append_assoc]
    have hlisted : Listed expression (mark ",") [","] (fun _ : Exp => us) after (fun a b => b = a) [e]
        (")" :: ";" :: rest) := by
      refine listed_commas ?_ rfl
      rintro a ha _ (⟨vs, rfl⟩ | rfl)
      all_goals
        rw [List.mem_singleton.mp ha]
        exact hwritten.reads (h e he) (closed_mark (by decide))
    have hone : Reads (separated expression (mark ",")) (before (us ++ ")" :: ";" :: rest)) (· = [e])
        (after (")" :: ";" :: rest)) := by
      have hread := hlisted.separated1
      rw [List.map_singleton, joined, List.flatMap_nil, List.append_nil] at hread
      exact .orElse_left (hread.mono fun _ => eq_of_forall₂)
    exact passes_token.refuses fun _ _ => passes_skip_after.refuses fun _ _ => (refuses_separated2 hone).bind
  · rw [hwords]
    exact refuses_parenthesized (refuses_token (misses_of_leads ht (by decide)))

end Syntax

/-! ## Operators and results

The operators of reductions, scans and histograms are read up to the places of their lambdas; the four
forms of results as they are. The forms are told apart by their keywords, which may also begin names. -/
namespace Syntax
open SegKernel.Syntax.Parser

variable {ts rest : List String}

/-! ### Lambdas -/

theorem reads_params {ps : List Param} (h : ∀ p ∈ ps, IsName p.name) :
    Reads (commaSeparated param) (before (commas (ps.map Param.words) ++ "->" :: rest)) (· = ps)
      (near ("->" :: rest)) :=
  reads_commas_eq
    (fun p hp _ _ => (reads_identifier (h p hp)).bind_eq <| passes_mark_after.then fun _ =>
      (reads_scalarType p.type).bind_eq (.pure rfl))
    rfl fun _ => (refuses_identifier_mark (by decide)).bind

theorem reads_lambda {l : Lambda} (h : l.isWritable = true) :
    Reads lambda (before (l.words ++ ";" :: rest)) (fun l' => l'.unplaced = l.unplaced) (after (";" :: rest)) := by
  simp only [Lambda.isWritable, Bool.and_eq_true, Bool.not_eq_true', List.isEmpty_eq_false_iff, List.all_eq_true,
    decide_eq_true_eq] at h
  obtain ⟨⟨hparams, hne⟩, hresults⟩ := h
  rw [Lambda.words, List.cons_append, List.append_assoc, List.cons_append]
  refine passes_offset.then fun _ => passes_token.then fun _ => passes_skip_after.then fun _ => ?_
  refine (reads_params hparams).bind_eq <| passes_mark.then fun _ => ?_
  refine (reads_tuple_expressions hne (List.all_eq_true.mpr hresults)).bind_eq <| passes_offset.then fun _ => ?_
  exact .pure rfl

/-! ### Operators -/

/-- A shape is left out when it is empty; a parenthesis follows. -/
theorem reads_optionalShape {os : List Operand} (h : os.all Operand.isWritable = true) :
    Reads optionalShape (after (optionalShapeWords os ++ "(" :: rest)) (· = os) (after ("(" :: rest)) := by
  unfold optionalShape optionalShapeWords
  split
  · next hempty =>
    have hrefuses : Refuses (do skip; bracketed (commaSeparated simpleOperand)) (after ("(" :: rest)) :=
      passes_skip_after.refuses fun _ _ => refuses_bracketed (refuses_token (by decide))
    exact (Reads.optional_none hrefuses).bind_eq (.pure (List.isEmpty_iff.mp hempty).symm)
  · refine (Reads.optional_some (passes_skip_after.then fun _ => reads_bracketed_operands h)).bind ?_
    rintro _ ⟨_, rfl, rfl⟩
    exact .pure rfl

/-- The end of an operator: its lambda and its neutral elements. -/
theorem reads_operator {l : Lambda} {os : List Operand} (hl : l.isWritable = true) (hne : os ≠ [])
    (hos : os.all Operand.isWritable = true) {α : Type} {build : Lambda → List Operand → α} {Q : α → Prop}
    (hQ : ∀ l', l'.unplaced = l.unplaced → Q (build l' os)) :
    Reads (do let lambda ← lambda; mark ";"; let neutral ← neutral; return build lambda neutral)
      (before (l.words ++ ";" :: (tupleWords (operandWords os) ++ ")" :: rest))) Q (near (")" :: rest)) :=
  .to_near <| (reads_lambda hl).bind fun l' hl' => passes_mark_after.then fun _ =>
    (reads_tuple_operands hne hos).bind_eq (.pure (hQ l' hl'))

theorem reads_combiner {c : Combiner} (h : c.isWritable = true) :
    Reads combiner (before (c.words ++ rest)) (fun c' => c'.unplaced = c.unplaced) (after rest) := by
  simp only [Combiner.isWritable, Bool.and_eq_true, Bool.not_eq_true', List.isEmpty_eq_false_iff] at h
  obtain ⟨⟨⟨hlambda, hne⟩, hneutral⟩, hshape⟩ := h
  have hcommutative {us : List String} :
      Reads (optional (do token "commutative"; blank))
        (before ((if c.commutative then ["commutative"] else []) ++ "op" :: us)) (fun r => r.isSome = c.commutative)
        (before ("op" :: us)) := by
    cases hc : c.commutative with
    | false =>
      refine (Reads.optional_none (refuses_token (by decide)).bind).mono fun r hr => ?_
      rw [hr]
      rfl
    | true =>
      refine (Reads.optional_some (passes_token.then fun _ => passes_blank)).mono fun r hr => ?_
      obtain ⟨_, rfl, -⟩ := hr
      rfl
  simp only [Combiner.words, List.append_assoc, List.cons_append, List.nil_append]
  refine hcommutative.bind fun r hr => passes_token.then fun _ => ?_
  refine (reads_optionalShape hshape).bind_eq <| passes_skip_after.then fun _ => reads_parenthesized ?_
  refine reads_operator hlambda hne hneutral fun l' hl' => ?_
  simp only [Combiner.unplaced, hl', hr]

theorem reads_histogram {g : Histogram} (h : g.isWritable = true) :
    Reads histogram (before (g.words ++ rest)) (fun g' => g'.unplaced = g.unplaced) (after rest) := by
  simp only [Histogram.isWritable, Bool.and_eq_true, Bool.not_eq_true', List.isEmpty_eq_false_iff] at h
  obtain ⟨⟨⟨⟨⟨⟨hwidth, hshape⟩, hne⟩, hneutral⟩, hlambda⟩, hdests⟩, hnames⟩ := h
  rw [List.all_eq_true] at hnames
  have hread : Reads (separated1 identifier (mark ",")) (before (commas (g.dests.map fun d => [d]) ++
      ";" :: (g.lambda.words ++ ";" :: (tupleWords (operandWords g.neutral) ++ ")" :: rest)))) (· = g.dests)
      (after (";" :: (g.lambda.words ++ ";" :: (tupleWords (operandWords g.neutral) ++ ")" :: rest)))) :=
    reads_commas1_eq hdests (fun d hd _ _ => reads_identifier (of_decide_eq_true (hnames d hd))) rfl
  simp only [Histogram.words, List.append_assoc, List.cons_append, List.nil_append]
  refine passes_token.then fun _ => (reads_optionalShape hshape).bind_eq <| passes_skip_after.then fun _ => ?_
  refine reads_parenthesized <| (reads_operand (Operand.isPlain hwidth)).bind_eq <| passes_mark_after.then fun _ => ?_
  refine hread.bind_eq <| passes_mark_after.then fun _ => reads_operator hlambda hne hneutral fun l' hl' => ?_
  simp only [Histogram.unplaced, hl']

/-- The operators of an operation and the blanks after them. -/
theorem reads_operators {α β : Type} {p : Parser α} {write : α → List String} {f : α → β} {kind : List α → SegKind}
    {as : List α} {t : String} (elem : ∀ a ∈ as, ∀ ts, Reads p (before (write a ++ ts)) (fun b => f b = f a) (after ts))
    (hempty : Refuses p (before ("]" :: t :: rest)))
    (hkind : ∀ bs : List α, bs.map f = as.map f → (kind bs).unplaced = (kind as).unplaced) :
    Reads (operators p kind) (before (bracketWords (as.map write) ++ t :: rest))
      (fun k => k.unplaced = (kind as).unplaced) (before (t :: rest)) := by
  have hlist : Reads (commaSeparated p) (before (commas (as.map write) ++ "]" :: t :: rest))
      (fun bs => bs.map f = as.map f) (near ("]" :: t :: rest)) :=
    (reads_commas (fun a ha ts _ => elem a ha ts) rfl fun _ => hempty).mono fun _ => map_eq_of_forall₂
  exact (reads_brackets hlist).bind fun bs hbs => passes_skip_after.then fun _ => .pure (hkind bs hbs)

theorem reads_combiners {cs : List Combiner} (h : cs.all Combiner.isWritable = true) {kind : List Combiner → SegKind}
    {t : String} (hkind : ∀ bs : List Combiner, bs.map Combiner.unplaced = cs.map Combiner.unplaced →
      (kind bs).unplaced = (kind cs).unplaced) :
    Reads (operators combiner kind) (before (bracketWords (cs.map Combiner.words) ++ t :: rest))
      (fun k => k.unplaced = (kind cs).unplaced) (before (t :: rest)) := by
  rw [List.all_eq_true] at h
  refine reads_operators (fun c hc _ => reads_combiner (h c hc)) ?_ hkind
  exact (Reads.optional_none (refuses_token (by decide)).bind).refuses fun _ _ => (refuses_token (by decide)).bind

theorem reads_histograms {gs : List Histogram} (h : gs.all Histogram.isWritable = true) {t : String} :
    Reads (operators histogram .histogram) (before (bracketWords (gs.map Histogram.words) ++ t :: rest))
      (fun k => k.unplaced = (SegKind.histogram gs).unplaced) (before (t :: rest)) := by
  rw [List.all_eq_true] at h
  refine reads_operators (fun g hg _ => reads_histogram (h g hg)) (refuses_token (by decide)).bind fun bs hbs => ?_
  simp only [SegKind.unplaced, hbs]

/-! ### Results -/

theorem reads_split {sp : Split} (h : sp.isWritable = true) :
    Reads split (before (sp.words ++ rest)) (· = sp) (after rest) := by
  cases sp with
  | contiguous => exact .orElse_left (passes_word.then fun _ => .pure rfl)
  | strided stride =>
    refine .orElse_right (refuses_word (refuses_token (by decide))).bind ?_
    exact (reads_call (.to_near (reads_operand (Operand.isPlain h)))).bind_eq (.pure rfl)

/-- A result that is an operand begins with no keyword of the other forms, or with a longer word. -/
theorem reads_returns {o : Operand} (h : o.isWritable = true) :
    Reads result (before (o.word :: rest)) (· = .returns o) (after rest) := by
  have ho := Operand.isPlain h
  have hread : Reads (do return BodyResult.returns (← simpleOperand)) (before (o.word :: rest)) (· = .returns o)
      (after rest) := (reads_operand ho).bind_eq (.pure rfl)
  cases o with
  | var name =>
    refine .next (refuses_call_name (by decide) ho) <| .next ?_ <| .next (refuses_call_name (by decide) ho) <|
      .found hread
    exact refuses_keyword_led (by decide) ho fun _ _ hc =>
      refuses_skip_then hc (refuses_bracketed (refuses_punctuation (by decide) hc)).bind
  | const v =>
    have hheads : ∀ m ∈ ["tile", "write", "concat"],
        (m.toList.all (!isBlank ·) && m.toList.head?.any fun c => !(c == '-' || isDigit c)) = true := by decide
    have hmisses : ∀ m ∈ ["tile", "write", "concat"], misses m v.word.toList = true := by
      obtain ⟨b, rfl⟩ | ⟨i, hi⟩ := bool_or_integer ho
      · cases b <;> decide
      · rw [word_eq hi]
        exact fun m hm => misses_integer (hheads m hm)
    exact .next (refuses_token (hmisses "tile" (by decide))).bind <|
      .next (refuses_token (hmisses "write" (by decide))).bind <|
      .next (refuses_token (hmisses "concat" (by decide))).bind <| .found hread

theorem reads_result {r : BodyResult} (h : r.isWritable = true) :
    Reads result (before (r.words ++ rest)) (· = r) (after rest) := by
  -- A result is told by its first word, and the forms before it refuse that word.
  cases r with
  | returns value => exact reads_returns h
  | tile tiles array =>
    simp only [BodyResult.isWritable, Bool.and_eq_true, List.all_eq_true, decide_eq_true_eq] at h
    simp only [BodyResult.words, List.cons_append, List.append_assoc, List.nil_append]
    have hread : Reads (commaSeparated tileDim) (before (commas (tiles.map tileWords) ++ ";" :: array :: ")" :: rest))
        (· = tiles) (near (";" :: array :: ")" :: rest)) := by
      refine reads_commas_eq (fun t ht us _ => ?_) rfl fun _ => (refuses_operand_mark (by decide)).bind
      obtain ⟨hextent, hsize⟩ := h.1 t ht
      exact (reads_operand (Operand.isPlain hextent)).bind_eq <| passes_mark_after.then fun _ =>
        (reads_operand (Operand.isPlain hsize)).bind_eq (.pure rfl)
    refine .found <| reads_call <| .to_near <| hread.bind_eq <| passes_mark.then fun _ => ?_
    exact (reads_identifier h.2).bind_eq (.pure rfl)
  | write shape writes =>
    simp only [BodyResult.isWritable, Bool.and_eq_true] at h
    obtain ⟨hshape, hwrites⟩ := h
    rw [List.all_eq_true] at hwrites
    simp only [BodyResult.words, List.cons_append, List.append_assoc, List.nil_append]
    have hread : Reads (commaSeparated writeTarget) (before (commas (writes.map writeWords) ++ ")" :: rest))
        (· = writes) (near (")" :: rest)) := by
      refine reads_commas_eq (fun w hw us _ => ?_) rfl fun _ => (refuses_bracketed (refuses_token (by decide))).bind
      obtain ⟨hindex, hvalue⟩ := Bool.and_eq_true _ _ ▸ hwrites w hw
      rw [writeWords, List.append_assoc]
      exact (reads_bracketed_operands hindex).bind_eq <| passes_mark_after.then fun _ =>
        (reads_operand (Operand.isPlain hvalue)).bind_eq (.pure rfl)
    refine .next (refuses_token (by decide)).bind <| .found <| passes_token.then fun _ =>
      passes_skip_after.then fun _ =>
      (reads_bracketed_operands hshape).bind_eq <| passes_skip_after.then fun _ => ?_
    exact (reads_parenthesized hread).bind_eq (.pure rfl)
  | concat split perThread array =>
    simp only [BodyResult.isWritable, Bool.and_eq_true, decide_eq_true_eq] at h
    obtain ⟨⟨hsplit, hper⟩, harray⟩ := h
    simp only [BodyResult.words, List.cons_append, List.append_assoc, List.nil_append]
    refine .next (refuses_token (by decide)).bind <| .next (refuses_token (by decide)).bind <| .found <| reads_call <|
      .to_near <| (reads_split hsplit).bind_eq <| passes_mark_after.then fun _ => ?_
    exact (reads_operand (Operand.isPlain hper)).bind_eq <| passes_mark_after.then fun _ =>
      (reads_identifier harray).bind_eq (.pure rfl)

end Syntax
end SegKernel
