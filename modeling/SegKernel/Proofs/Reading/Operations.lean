import SegKernel.Proofs.Reading.Parts

/-! # Bodies and operations are read back

A statement of a body is found among four forms that begin alike: a binding whose right side is an
operation, an element of an array, a list or an expression. Each form that is tried before the right
one fails at the first word that tells them apart. Operations are read by induction on their nesting;
the fuel of the reader exceeds the number of their words. -/

namespace SegKernel
namespace Syntax
open SegKernel.Syntax.Parser

variable {ts us rest : List String} {self : Parser SegOp} {name : Ident} {type : ScalarType}

/-! ### Where no operation begins -/

theorem refuses_segOp {s : Spot} {n : Nat}
    (h : ∀ k ∈ kindWords, ∀ {β : Type} {f : Unit → Parser β}, Refuses (token k >>= fun _ => token "@" >>= f) s) :
    Refuses (segOpWithin n) s := by
  cases n with
  | zero => exact refuses_fail
  | succ n =>
    refine passes_offset.refuses fun _ _ => Refuses.bind (refuses_firstOf ?_)
    simp only [List.forall_mem_cons, List.not_mem_nil, false_implies, implies_true, and_true]
    exact ⟨h "segmap" (by decide), h "segred" (by decide), h "segscan" (by decide), h "seghist" (by decide)⟩

theorem refuses_segOp_missed {t : String} {n : Nat} (h : ∀ k ∈ kindWords, misses k t.toList = true) :
    Refuses (segOpWithin n) (before (t :: ts)) :=
  refuses_segOp fun k hk _ _ => (refuses_token (h k hk)).bind

theorem refuses_segOp_name {n : Nat} (hv : IsName name) : Refuses (segOpWithin n) (before (name :: ts)) := by
  have hkeywords : ∀ k ∈ kindWords, k ∈ keywords := by decide
  exact refuses_segOp fun k hk _ _ =>
    refuses_keyword_led (hkeywords k hk) hv fun _ _ hc => (refuses_punctuation (by decide) hc).bind

theorem refuses_segOp_expression {n : Nat} {e : Exp} (he : e.isWritable = true) :
    Refuses (segOpWithin n) (before (e.words true 0 ++ rest)) := by
  obtain ⟨v, rfl, hv⟩ | ⟨us, hwords, -⟩ | ⟨t, us, hwords, ht⟩ := words_full_cases e he
  · exact refuses_segOp_name hv
  · rw [hwords]
    exact refuses_segOp_missed (by decide)
  · rw [hwords]
    exact refuses_segOp_missed fun k hk =>
      misses_of_leads ht (List.mem_cons_of_mem _ (List.mem_cons_of_mem _ hk))

/-! ### Statements -/

theorem reads_binding (hname : IsName name) :
    Reads binding (before ("let" :: name :: ":" :: us)) (· = name) (before us) :=
  passes_token.then fun _ => passes_blank.then fun _ => (reads_identifier hname).bind_eq <|
    passes_mark_after.then fun _ => .pure rfl

/-- Where no operation stands on the right side of a pattern, there is no nested operation. -/
theorem refuses_nested {β : Type} {f : List PatElem → SegOp → Parser β} (hname : IsName name)
    (hself : Refuses self (before us)) :
    Refuses (token "let" >>= fun _ => blank >>= fun _ => pattern >>= fun p => mark "=" >>= fun _ => self >>= f p)
      (before ("let" :: name :: ":" :: type.name :: "=" :: us)) := by
  have hpattern : Reads pattern (before ([name, ":", type.name] ++ "=" :: us)) (· = [⟨name, type, []⟩])
      (after ("=" :: us)) := reads_pattern_single (@reads_patElem _ name [] Operand.word type hname (by simp))
  exact passes_token.refuses fun _ _ => passes_blank.refuses fun _ _ => hpattern.refuses fun _ _ =>
    passes_mark_after.refuses fun _ _ => hself.bind

theorem reads_compute {e : Exp} (hname : IsName name) (he : e.isWritable = true) {n : Nat} :
    Reads (bodyStm (segOpWithin n))
      (before ("let" :: name :: ":" :: type.name :: "=" :: (e.words true 0 ++ ";" :: rest)))
      (· = .compute name type e) (after rest) := by
  refine .next (refuses_nested hname (refuses_segOp_expression he)) <| .next ?_ <| .next ?_ <| .found ?_
  · -- No name and list in brackets.
    refine (reads_binding hname).refuses fun _ _ => (reads_scalarType type).refuses fun _ _ =>
      passes_mark_after.refuses fun _ _ => ?_
    obtain ⟨v, rfl, hv⟩ | ⟨us, hwords, -⟩ | ⟨t, us, hwords, ht⟩ := words_full_cases e he
    · exact (reads_identifier hv).refuses fun _ _ => passes_skip_after.refuses fun _ _ =>
        (refuses_bracketed (refuses_token (by decide))).bind
    · rw [hwords]
      exact (refuses_identifier_mark (by decide)).bind
    · rw [hwords]
      exact (refuses_identifier_leads ht).bind
  · -- No length in brackets.
    refine (reads_binding hname).refuses fun _ _ => ?_
    exact (refuses_bracketed (refuses_token (misses_bracket_type type))).bind
  · refine (reads_binding hname).bind_eq <| (reads_scalarType type).bind_eq <| passes_mark_after.then fun _ => ?_
    refine ((e.written_words true 0).reads he (closed_mark (by decide))).bind_eq <| passes_skip_after.then fun _ => ?_
    exact passes_token.then fun _ => .pure rfl

theorem reads_index {array : Ident} {index : List Exp} (hname : IsName name) (harray : IsName array)
    (hindex : index.all Exp.isWritable = true) {n : Nat} :
    Reads (bodyStm (segOpWithin n))
      (before ("let" :: name :: ":" :: type.name :: "=" :: array ::
        (bracketWords (index.map fun e => e.words true 0) ++ ";" :: rest)))
      (· = .index name type array index) (after rest) := by
  rw [List.all_eq_true] at hindex
  have hlist : Reads (commaSeparated expression)
      (before (commas (index.map fun e => e.words true 0) ++ "]" :: ";" :: rest)) (· = index)
      (near ("]" :: ";" :: rest)) := by
    refine reads_commas_eq ?_ rfl fun _ => refuses_expression_close
    rintro e he _ (⟨us, rfl⟩ | rfl)
    all_goals exact (e.written_words true 0).reads (hindex e he) (closed_mark (by decide))
  refine .next (refuses_nested hname (refuses_segOp_name harray)) <| .found ?_
  refine (reads_binding hname).bind_eq <| (reads_scalarType type).bind_eq <| passes_mark_after.then fun _ => ?_
  refine (reads_identifier harray).bind_eq <| passes_skip_after.then fun _ => (reads_brackets hlist).bind_eq ?_
  exact passes_skip_after.then fun _ => passes_token.then fun _ => .pure rfl

/-- A number without suffix is an operand, or is too large to be one. -/
theorem number_or_none (n : Nat) : (∃ o, ∀ ts, Reads simpleOperand (before (toString n :: ts)) (· = o) (after ts)) ∨
    ∀ ts, Refuses simpleOperand (before (toString n :: ts)) := by
  rw [← integerWord_natCast]
  have hnumeral {ts : List String} : Reads numeral (before (integerWord n (suffixWord none) :: ts))
      (· = ⟨decide ((n : Int) < 0), Nat.toDigits 10 (n : Int).natAbs, none, none⟩) (after ts) :=
    reads_numeral n (by simp)
  have hboolean {ts : List String} : Refuses boolean (before (integerWord n (suffixWord none) :: ts)) :=
    refuses_boolean_integer
  cases hvalue : (⟨decide ((n : Int) < 0), Nat.toDigits 10 (n : Int).natAbs, none, none⟩ : Numeral).value none with
  | ok v =>
    refine .inl ⟨.const v, fun ts => .orElse_left ?_⟩
    refine Reads.bind_eq (a := v) (.orElse_right hboolean.bind ?_) (.pure rfl)
    exact hnumeral.bind_eq (hvalue ▸ .pure rfl)
  | error message =>
    refine .inr fun ts => .orElse (.bind (.orElse hboolean.bind ?_)) ?_
    · exact hnumeral.refuses fun m hm => by
        rw [hm, hvalue]
        exact fun _ _ => rfl
    · exact (refuses_identifier_number (Int.natCast_nonneg n) _).bind

theorem reads_digits (n : Nat) :
    Reads bodyStm.digits (before (toString n :: ts)) (· = Nat.toDigits 10 n) (after ts) := by
  rintro ⟨cs, o⟩ hcs
  obtain ⟨gap, rfl, hgap⟩ := within_of_before hcs
  have hword : (toString n).toList = Nat.toDigits 10 n := Nat.toList_repr
  have htake : ((toString n).toList ++ gap).takeWhile isDigit = Nat.toDigits 10 n := by
    rw [hword]
    exact takeWhile_word (fun _ => isDigit_of_mem_digits) (fun _ => not_isDigit_of_blank) hgap.1
  obtain ⟨d, ds, hdigits, -⟩ := toDigits_cons n
  refine ⟨_, ⟨gap, o + Cursor.byteLength (Nat.toDigits 10 n)⟩, ?_, hgap, rfl⟩
  simp only [bodyStm.digits, htake, hdigits, List.isEmpty_cons, Bool.false_eq_true, if_false, Cursor.advance]
  rw [← hdigits, ← hword, List.drop_left]

/-- Where a list stands on the right side, there is no nested operation, whatever the extent is. -/
theorem refuses_nested_array {β : Type} {f : List PatElem → SegOp → Parser β} (hname : IsName name) {n : Nat}
    (hself : Refuses self (before us)) :
    Refuses (token "let" >>= fun _ => blank >>= fun _ => pattern >>= fun p => mark "=" >>= fun _ => self >>= f p)
      (before ("let" :: name :: ":" :: "[" :: toString n :: "]" :: type.name :: "=" :: us)) := by
  refine passes_token.refuses fun _ _ => passes_blank.refuses fun _ _ => ?_
  obtain ⟨o, ho⟩ | hnone := number_or_none n
  · have hpattern : Reads pattern (before ([name, ":", "[", toString n, "]", type.name] ++ "=" :: us))
        (· = [⟨name, type, [o]⟩]) (after ("=" :: us)) := by
      refine reads_pattern_single (@reads_patElem _ name [o] (fun _ => toString n) type hname ?_)
      simpa using ho
    exact hpattern.refuses fun _ _ => passes_mark_after.refuses fun _ _ => hself.bind
  · -- The extents end before the bracket, where no type begins.
    have hshape : Reads shape (before ("[" :: toString n :: "]" :: type.name :: "=" :: us)) (· = [])
        (before ("[" :: toString n :: "]" :: type.name :: "=" :: us)) := by
      refine .orElse_right (Refuses.bind ?_) (.pure rfl)
      exact passes_token.refuses fun _ _ => passes_skip_after.refuses fun _ _ => (hnone _).bind
    refine Refuses.bind (Refuses.bind ?_)
    refine (reads_identifier hname).refuses fun _ _ => passes_mark_after.refuses fun _ _ => ?_
    refine hshape.refuses fun _ _ => Refuses.bind (refuses_scalarType fun t => refuses_token ?_)
    cases t <;> decide

theorem reads_arrayLit {elems : List Operand} (hname : IsName name) (helems : elems.all Operand.isWritable = true)
    {n : Nat} :
    Reads (bodyStm (segOpWithin n))
      (before ("let" :: name :: ":" :: "[" :: toString elems.length :: "]" :: type.name :: "=" ::
        (bracketWords (operandWords elems) ++ ";" :: rest)))
      (· = .arrayLit name type elems) (after rest) := by
  have hself : Refuses (segOpWithin n) (before (bracketWords (operandWords elems) ++ ";" :: rest)) :=
    refuses_segOp_missed (by decide)
  refine .next (refuses_nested_array hname hself) <| .next ?_ <| .found ?_
  · -- No type.
    refine (reads_binding hname).refuses fun _ _ => Refuses.bind (refuses_scalarType fun t => refuses_token ?_)
    cases t <;> decide
  · refine (reads_binding hname).bind_eq <| (reads_bracketed (.to_near (reads_digits _))).bind_eq <|
      passes_skip_after.then fun _ => (reads_scalarType type).bind_eq <| passes_mark_after.then fun _ =>
      (reads_bracketed_operands helems).bind_eq <| passes_skip_after.then fun _ => passes_token.then fun _ => ?_
    rw [ofDecimalDigits_toDigits, if_pos rfl]
    exact .pure rfl

theorem reads_nested {pattern : List PatElem} {op : SegOp} (hpattern : patternIsWritable pattern = true)
    (hself : ∀ ts, Reads self (before (op.words ++ ts)) (fun o => o.unplaced = op.unplaced) (after ts)) :
    Reads (bodyStm self) (before ("let" :: (patternWords pattern ++ "=" :: (op.words ++ ";" :: rest))))
      (fun b => b.unplaced = (BodyStm.nested pattern op).unplaced) (after rest) := by
  refine .found <| passes_token.then fun _ => (passes_blank_of_ne (by simp)).then fun _ =>
    (reads_pattern hpattern).bind_eq <| passes_mark_after.then fun _ => (hself _).bind fun o ho =>
      passes_skip_after.then fun _ => passes_token.then fun _ => ?_
  refine .pure ?_
  simp only [BodyStm.unplaced, ho]

/-- Every statement begins with `let`. -/
theorem refuses_bodyStm {t : String} (ht : misses "let" t.toList = true) :
    Refuses (bodyStm self) (before (t :: ts)) := by
  have hlet {β : Type} {f : Unit → Parser β} : Refuses (token "let" >>= f) (before (t :: ts)) := (refuses_token ht).bind
  refine refuses_firstOf ?_
  simp only [List.forall_mem_cons, List.not_mem_nil, false_implies, implies_true, and_true]
  exact ⟨hlet, Refuses.bind hlet, Refuses.bind hlet, Refuses.bind hlet⟩

/-! ### Bodies -/

theorem allWords_eq (bs : List BodyStm) : BodyStm.allWords bs = bs.flatMap BodyStm.words := by
  induction bs with
  | nil => rfl
  | cons b bs ih => rw [BodyStm.allWords, ih, List.flatMap_cons]

theorem allUnplaced_eq (bs : List BodyStm) : BodyStm.allUnplaced bs = bs.map BodyStm.unplaced := by
  induction bs with
  | nil => rfl
  | cons b bs ih => rw [BodyStm.allUnplaced, ih, List.map_cons]

theorem words_ne_nil (b : BodyStm) : b.words ≠ [] := by
  cases b <;> simp [BodyStm.words]

theorem reads_stms {bs : List BodyStm}
    (h : ∀ b ∈ bs, ∀ ts, Reads (bodyStm self) (before (b.words ++ ts)) (fun c => c.unplaced = b.unplaced) (after ts)) :
    Reads (separated (bodyStm self) skip) (before (BodyStm.allWords bs ++ "return" :: rest))
      (fun cs => BodyStm.allUnplaced cs = BodyStm.allUnplaced bs) (near ("return" :: rest)) := by
  have hreturn : Refuses (bodyStm self) (before ("return" :: rest)) := refuses_bodyStm (by decide)
  have hlisted : Listed (bodyStm self) skip [] BodyStm.words after (fun b c => c.unplaced = b.unplaced) bs
      ("return" :: rest) :=
    { elem := fun b hb ts _ => h b hb ts
      next := fun _ => passes_skip_after
      last := passes_skip_after.refuses fun _ _ => hreturn
      words := fun b _ => words_ne_nil b
      near := fun _ _ h => .inr h }
  rw [allWords_eq, ← joined_nil]
  refine (hlisted.separated (fun _ => hreturn) (fun _ h => .inr h) fun _ h => .inl h).mono fun cs hcs => ?_
  rw [allUnplaced_eq, allUnplaced_eq, map_eq_of_forall₂ hcs]

theorem refuses_result_close : Refuses result (before ("\x7d" :: ts)) := by
  refine refuses_firstOf ?_
  simp only [List.forall_mem_cons, List.not_mem_nil, false_implies, implies_true, and_true]
  exact ⟨(refuses_token (by decide)).bind, (refuses_token (by decide)).bind, (refuses_token (by decide)).bind,
    (refuses_operand_mark (by decide)).bind⟩

theorem reads_body {bs : List BodyStm} {results : List BodyResult}
    (h : ∀ b ∈ bs, ∀ ts, Reads (bodyStm self) (before (b.words ++ ts)) (fun c => c.unplaced = b.unplaced) (after ts))
    (hresults : results.all BodyResult.isWritable = true) :
    Reads (body self)
      (before ("\x7b" :: (BodyStm.allWords bs ++
        "return" :: (commas (results.map BodyResult.words) ++ "\x7d" :: rest))))
      (fun r => BodyStm.allUnplaced r.1 = BodyStm.allUnplaced bs ∧ r.2 = results) (after rest) := by
  rw [List.all_eq_true] at hresults
  have hlist : Reads (commaSeparated result) (before (commas (results.map BodyResult.words) ++ "\x7d" :: rest))
      (· = results) (near ("\x7d" :: rest)) :=
    reads_commas_eq (fun r hr _ _ => reads_result (hresults r hr)) rfl fun _ => refuses_result_close
  have hend : Refuses (do token ";"; skip) (before ("\x7d" :: rest)) := (refuses_token (by decide)).bind
  refine passes_token.then fun _ => passes_skip_after.then fun _ => (reads_stms h).bind fun cs hcs => ?_
  refine passes_skip.then fun _ => passes_word.then fun _ => passes_skip_after.then fun _ => hlist.bind_eq ?_
  refine passes_skip.then fun _ => (Reads.optional_none hend).bind fun _ _ => passes_token.then fun _ => ?_
  exact .pure ⟨hcs, rfl⟩

/-! ### Operations -/

/-- One kind of operations is read with its operators. -/
theorem reads_segOpOf {kind : SegKind} {kindName : String} {ops : Parser SegKind} {g : Grid} {s : IterationSpace}
    {bs : List BodyStm} {results : List BodyResult} {span : Option Span}
    (hg : g.isWritable = true) (hs : s.isWritable = true) (hresults : results.all BodyResult.isWritable = true)
    (hops : ∀ ts, Reads ops (before (kind.words ++ "\x7b" :: ts)) (fun k => k.unplaced = kind.unplaced)
      (before ("\x7b" :: ts)))
    (hbody : ∀ b ∈ bs, ∀ ts,
      Reads (bodyStm self) (before (b.words ++ ts)) (fun c => c.unplaced = b.unplaced) (after ts)) :
    Reads (segOpOf kindName ops self)
      (before ((kindName ++ "@" ++ g.level.word) :: (g.words ++ (s.words ++ (kind.words ++ "\x7b" ::
        (BodyStm.allWords bs ++ "return" :: (commas (results.map BodyResult.words) ++ "\x7d" :: rest)))))))
      (fun o => o.unplaced = Segmented.unplaced ⟨kind, g, s, bs, results, span⟩) (after rest) := by
  have hword : (kindName ++ "@" ++ g.level.word).toList = kindName.toList ++ ("@".toList ++ g.level.word.toList) := by
    simp
  have hflat : IsName s.flat := by
    rw [IterationSpace.isWritable, Bool.and_eq_true] at hs
    exact of_decide_eq_true hs.1
  refine (passes_token_part hword).then fun _ => passes_token_within.then fun _ => ?_
  refine (reads_grid hg hflat).bind_eq <| passes_skip_after.then fun _ => (reads_space hs).bind_eq ?_
  refine passes_skip_after.then fun _ => (hops _).bind fun k hk => (reads_body hbody hresults).bind ?_
  rintro ⟨cs, _⟩ ⟨hcs, rfl⟩
  refine .pure ?_
  simp only [Segmented.unplaced, hk, hcs]

theorem unplaced_span (o : SegOp) (span : Option Span) : Segmented.unplaced { o with span } = o.unplaced := by
  cases o
  rfl

/-- The word of a kind and a level begins with no other kind. -/
theorem refuses_kind {β : Type} {f : Unit → Parser β} {k : String} (kind : SegKind) (l : Level) (hk : k ∈ kindWords)
    (hne : k ≠ kind.name) : Refuses (token k >>= f) (before ((kind.name ++ "@" ++ l.word) :: ts)) := by
  have hkinds : ∀ k ∈ kindWords, ∀ k' ∈ kindWords, k ≠ k' → ∀ l ∈ [Level.thread, Level.group],
      misses k (k' ++ "@" ++ l.word).toList = true := by decide
  exact (refuses_token (hkinds k hk kind.name (name_mem_kindWords kind) hne l (by cases l <;> decide))).bind

theorem Segmented.length_words (op : SegOp) :
    (BodyStm.allWords op.stms).length + 1 ≤ op.words.length := by
  cases op
  simp only [Segmented.words, List.length_cons, List.length_append]
  omega

mutual

/-- An operation is read where the fuel is not less than the number of its words. -/
theorem reads_segOpWithin (op : SegOp) (h : op.isWritable = true) {n : Nat} (hn : op.words.length ≤ n)
    (ts : List String) :
    Reads (segOpWithin n) (before (op.words ++ ts)) (fun o => o.unplaced = op.unplaced) (after ts) := by
  match op, h, hn with
  | ⟨kind, grid, space, stms, results, span⟩, h, hn =>
    have hlen := Segmented.length_words ⟨kind, grid, space, stms, results, span⟩
    obtain ⟨n, rfl⟩ : ∃ k, n = k + 1 := ⟨n - 1, by omega⟩
    simp only [Segmented.isWritable, Bool.and_eq_true] at h
    obtain ⟨⟨⟨⟨hkind, hgrid⟩, hspace⟩, hstms⟩, hresults⟩ := h
    have hbody := reads_bodyStms stms hstms (n := n) (by simp only at hlen; omega)
    have hread : Reads (firstOf [
        segOpOf "segmap" (pure .map) (segOpWithin n),
        segOpOf "segred" (operators combiner .reduce) (segOpWithin n),
        segOpOf "segscan" (operators combiner .scan) (segOpWithin n),
        segOpOf "seghist" (operators histogram .histogram) (segOpWithin n)])
        (before (Segmented.words ⟨kind, grid, space, stms, results, span⟩ ++ ts))
        (fun o => o.unplaced = Segmented.unplaced ⟨kind, grid, space, stms, results, span⟩) (after ts) := by
      simp only [Segmented.words, List.cons_append, List.append_assoc, List.nil_append]
      -- The kinds are told apart by their first word.
      have hother {k : String} (hk : k ∈ kindWords) (hne : k ≠ kind.name) {us : List String} {β : Type}
          {f : Unit → Parser β} : Refuses (token k >>= f) (before ((kind.name ++ "@" ++ grid.level.word) :: us)) :=
        refuses_kind kind grid.level hk hne
      cases kind with
      | map => exact .found (reads_segOpOf hgrid hspace hresults (fun _ => .pure rfl) hbody)
      | reduce ops =>
        have hops (us : List String) : Reads (operators combiner .reduce)
            (before (bracketWords (ops.map Combiner.words) ++ "\x7b" :: us))
            (fun k => k.unplaced = (SegKind.reduce ops).unplaced) (before ("\x7b" :: us)) :=
          reads_combiners hkind fun bs hbs => by simp only [SegKind.unplaced, hbs]
        exact .next (hother (by decide) (by simp [SegKind.name])) <|
          .found (reads_segOpOf hgrid hspace hresults hops hbody)
      | scan ops =>
        have hops (us : List String) : Reads (operators combiner .scan)
            (before (bracketWords (ops.map Combiner.words) ++ "\x7b" :: us))
            (fun k => k.unplaced = (SegKind.scan ops).unplaced) (before ("\x7b" :: us)) :=
          reads_combiners hkind fun bs hbs => by simp only [SegKind.unplaced, hbs]
        exact .next (hother (by decide) (by simp [SegKind.name])) <|
          .next (hother (by decide) (by simp [SegKind.name])) <|
          .found (reads_segOpOf hgrid hspace hresults hops hbody)
      | histogram ops =>
        exact .next (hother (by decide) (by simp [SegKind.name])) <|
          .next (hother (by decide) (by simp [SegKind.name])) <|
          .next (hother (by decide) (by simp [SegKind.name])) <|
          .found (reads_segOpOf hgrid hspace hresults (fun _ => reads_histograms hkind) hbody)
    exact passes_offset.then fun _ => hread.bind fun o ho => passes_offset.then fun _ => .pure <|
      (unplaced_span o _).trans ho

theorem reads_bodyStms (bs : List BodyStm) (h : BodyStm.allWritable bs = true) {n : Nat}
    (hn : (BodyStm.allWords bs).length ≤ n) :
    ∀ b ∈ bs, ∀ ts,
      Reads (bodyStm (segOpWithin n)) (before (b.words ++ ts)) (fun c => c.unplaced = b.unplaced) (after ts) := by
  match bs, h, hn with
  | [], _, _ => simp
  | b :: bs, h, hn =>
    rw [BodyStm.allWritable, Bool.and_eq_true] at h
    rw [BodyStm.allWords, List.length_append] at hn
    rw [List.forall_mem_cons]
    exact ⟨fun ts => reads_bodyStm b h.1 (by omega) ts, reads_bodyStms bs h.2 (by omega)⟩

theorem reads_bodyStm (b : BodyStm) (h : b.isWritable = true) {n : Nat} (hn : b.words.length ≤ n) (ts : List String) :
    Reads (bodyStm (segOpWithin n)) (before (b.words ++ ts)) (fun c => c.unplaced = b.unplaced) (after ts) := by
  match b, h, hn with
  | .compute name type value, h, _ =>
    simp only [BodyStm.isWritable, Bool.and_eq_true, decide_eq_true_eq] at h
    simp only [BodyStm.words, List.cons_append, List.append_assoc, List.nil_append]
    exact (reads_compute h.1 h.2).mono fun c hc => hc ▸ rfl
  | .index name type array index, h, _ =>
    simp only [BodyStm.isWritable, Bool.and_eq_true, decide_eq_true_eq] at h
    simp only [BodyStm.words, List.cons_append, List.append_assoc, List.nil_append]
    exact (reads_index h.1.1 h.1.2 h.2).mono fun c hc => hc ▸ rfl
  | .arrayLit name type elems, h, _ =>
    simp only [BodyStm.isWritable, Bool.and_eq_true, decide_eq_true_eq] at h
    simp only [BodyStm.words, List.cons_append, List.append_assoc, List.nil_append]
    exact (reads_arrayLit h.1 h.2).mono fun c hc => hc ▸ rfl
  | .nested pattern op, h, hn =>
    simp only [BodyStm.isWritable, Bool.and_eq_true] at h
    simp only [BodyStm.words, List.length_cons, List.length_append] at hn
    simp only [BodyStm.words, List.cons_append, List.append_assoc, List.nil_append]
    exact reads_nested h.1 fun ts => reads_segOpWithin op h.2 (by omega) ts

end

end Syntax
end SegKernel
