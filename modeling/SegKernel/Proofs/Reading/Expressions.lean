import SegKernel.Proofs.Reading.Literals
import SegKernel.Syntax.Expression

/-! # How expressions are written

Infix operators bind by level and associate to the left. An operand stands at a position that allows
operators of at least some level: the left operand of an operator at the level of the operator, the
right one above it. An operator that binds looser is put in parentheses, and parentheses may stand
around every expression. -/

namespace SegKernel
open SegKernel.Syntax

/-- How tight an infix operator binds. The minimum and the maximum are written as functions. -/
def BinaryOp.level? : BinaryOp → Option Nat
  | .logOr => some 0
  | .logAnd => some 1
  | .or | .xor => some 3
  | .and => some 4
  | .shl | .shr => some 5
  | .add | .sub => some 6
  | .mul | .div | .mod => some 7
  | .min | .max => none

/-- How tight a comparison binds. -/
def Comparison.level : Nat := 2

namespace Exp

/-- Whether the variables are names and the constants Booleans or integers that are not negative. -/
def isWritable : Exp → Bool
  | var name => decide (IsName name)
  | const v => decide v.IsUnsigned
  | binary _ x y | compare _ x y => x.isWritable && y.isWritable
  | unary _ x | convert _ x | bitcast _ x => x.isWritable
  | select c t e => c.isWritable && t.isWritable && e.isWritable

/-- The words `ts` write the expression at a position that allows infix operators of at least the level
    `min`. Parentheses stand where they have to, and may stand everywhere. -/
inductive Written : (min : Nat) → Exp → List String → Prop
  | var {min : Nat} (name : Ident) : Written min (.var name) [name]
  | const {min : Nat} (v : Value) : Written min (.const v) [v.word]
  /-- An `i64` needs no suffix. -/
  | int {min : Nat} (v : Int64) : Written min (.const (.i64 v)) [integerWord v.toInt ""]
  | binary {min l : Nat} {op : BinaryOp} {x y : Exp} {ts us : List String} (hop : op.level? = some l) (hmin : min ≤ l)
      (hx : Written l x ts) (hy : Written (l + 1) y us) : Written min (.binary op x y) (ts ++ op.symbol :: us)
  | compare {min : Nat} {op : Comparison} {x y : Exp} {ts us : List String} (hmin : min ≤ Comparison.level)
      (hx : Written Comparison.level x ts) (hy : Written (Comparison.level + 1) y us) :
      Written min (.compare op x y) (ts ++ op.symbol :: us)
  | neg {min : Nat} {x : Exp} {ts : List String} (hx : Written tightest x ts) : Written min (.unary .neg x) ("-" :: ts)
  | not {min : Nat} {x : Exp} {ts : List String} (hx : Written tightest x ts) : Written min (.unary .not x) ("!" :: ts)
  | extremum {min : Nat} {op : BinaryOp} {x y : Exp} {ts us : List String} (hop : op.level? = none)
    (hx : Written 0 x ts)
      (hy : Written 0 y us) : Written min (.binary op x y) (op.symbol :: "(" :: (ts ++ "," :: (us ++ [")"])))
  | abs {min : Nat} {x : Exp} {ts : List String} (hx : Written 0 x ts) :
      Written min (.unary .abs x) ("abs" :: "(" :: (ts ++ [")"]))
  | convert {min : Nat} {type : ScalarType} {x : Exp} {ts : List String} (hx : Written 0 x ts) :
      Written min (.convert type x) (type.name :: "(" :: (ts ++ [")"]))
  | bitcast {min : Nat} {type : ScalarType} {x : Exp} {ts : List String} (hx : Written 0 x ts) :
      Written min (.bitcast type x) ("bitcast" :: "<" :: type.name :: ">" :: "(" :: (ts ++ [")"]))
  | select {min : Nat} {c t e : Exp} {ts us vs : List String} (hc : Written 0 c ts) (ht : Written 0 t us)
      (he : Written 0 e vs) :
      Written min (.select c t e) ("select" :: "(" :: (ts ++ "," :: (us ++ "," :: (vs ++ [")"]))))
  | parentheses {min : Nat} {x : Exp} {ts : List String} (hx : Written 0 x ts) : Written min x ("(" :: (ts ++ [")"]))

/-- The words, in parentheses under a condition. -/
def enclosed (b : Bool) (ts : List String) : List String := if b then "(" :: (ts ++ [")"]) else ts

/-- The words of an expression at a position that allows infix operators of at least the level `min`.
    An operator stands in parentheses when it binds looser, and with `full` always. -/
def words (full : Bool) : Exp → (min : Nat) → List String
  | var name, _ => [name]
  | const v, _ => [v.word]
  | binary op x y, min =>
    match op.level? with
    | some l => enclosed (full || l < min) (words full x l ++ op.symbol :: words full y (l + 1))
    | none => op.symbol :: "(" :: (words full x 0 ++ "," :: (words full y 0 ++ [")"]))
  | compare op x y, min =>
    enclosed (full || Comparison.level < min)
      (words full x Comparison.level ++ op.symbol :: words full y (Comparison.level + 1))
  | unary .neg x, _ => enclosed full ("-" :: words full x tightest)
  | unary .not x, _ => enclosed full ("!" :: words full x tightest)
  | unary .abs x, _ => "abs" :: "(" :: (words full x 0 ++ [")"])
  | convert type x, _ => type.name :: "(" :: (words full x 0 ++ [")"])
  | bitcast type x, _ => "bitcast" :: "<" :: type.name :: ">" :: "(" :: (words full x 0 ++ [")"])
  | select c t e, _ =>
    "select" :: "(" :: (words full c 0 ++ "," :: (words full t 0 ++ "," :: (words full e 0 ++ [")"])))

theorem Written.enclosed {min : Nat} {x : Exp} {b : Bool} {ts : List String} (hloose : Written 0 x ts)
    (htight : b = false → Written min x ts) : Written min x (enclosed b ts) := by
  cases b with
  | false => exact htight rfl
  | true => exact .parentheses hloose

/-- The words of an expression write it. -/
theorem written_words (full : Bool) (x : Exp) (min : Nat) : x.Written min (x.words full min) := by
  -- An operation stands in parentheses if all do, or if it binds less than its place asks for.
  induction x generalizing min with
  | var name => exact .var name
  | const v => exact .const v
  | binary op x y ihx ihy =>
    unfold words
    split
    · rename_i l hop
      refine .enclosed (.binary hop (Nat.zero_le l) (ihx l) (ihy (l + 1))) fun h => ?_
      have hmin : min ≤ l := by
        simp only [Bool.or_eq_false_iff, decide_eq_false_iff_not] at h
        omega
      exact .binary hop hmin (ihx l) (ihy (l + 1))
    · rename_i hop
      exact .extremum hop (ihx 0) (ihy 0)
  | compare op x y ihx ihy =>
    refine .enclosed (.compare (Nat.zero_le _) (ihx _) (ihy _)) fun h => ?_
    have hmin : min ≤ Comparison.level := by
      simp only [Bool.or_eq_false_iff, decide_eq_false_iff_not] at h
      omega
    exact .compare hmin (ihx _) (ihy _)
  | unary op x ih =>
    cases op with
    | neg => exact .enclosed (.neg (ih _)) fun _ => .neg (ih _)
    | not => exact .enclosed (.not (ih _)) fun _ => .not (ih _)
    | abs => exact .abs (ih 0)
  | convert type x ih => exact .convert (ih 0)
  | bitcast type x ih => exact .bitcast (ih 0)
  | select c t e ihc iht ihe => exact .select (ihc 0) (iht 0) (ihe 0)

end Exp

/-! ## Expressions are read back

Every way to write an expression is read as that expression. The reader takes an operand and then infix
operators with their right operands, as long as they bind tight enough. It climbs: when it has read the
words of an expression at some level, it stands where it would stand had it taken the whole expression
as one operand (`Climbs`). What follows an expression is no operator of its level or a higher one. -/
namespace Syntax
open SegKernel.Syntax.Parser

variable {self : Nat → Parser Exp} {x y : Exp} {l m n : Nat} {ts us rest : List String} {o : InfixOp}

/-! ### Infix operators -/

/-- No text that goes on with the word `w` begins with the operator. -/
def InfixOp.missesAt (o : InfixOp) (w : List Char) : Bool :=
  misses o.symbol w ||
    (o.symbol.toList.isPrefixOf w && o.notBefore != "" && o.notBefore.toList.isPrefixOf (w.drop o.symbol.toList.length))

/-- The words begin with no operator of at least the level. -/
def Closed (l : Nat) (ts : List String) : Prop := ∀ o ∈ infixOps, l ≤ o.level → o.missesAt (firstWord ts) = true

theorem Closed.mono (h : Closed l ts) (hl : l ≤ m) : Closed m ts := fun o ho hm => h o ho (by omega)

theorem closed_tightest : Closed tightest ts := by
  have hlevels : ∀ o ∈ infixOps, o.level < tightest := by decide
  intro o ho hl
  have := hlevels o ho
  omega

/-- No operator begins like a closing bracket or a separator. -/
theorem closed_mark {t : String} (h : t ∈ [")", ",", ";", "]", "\x7d"]) : Closed l (t :: ts) := by
  have hmarks : ∀ t ∈ [")", ",", ";", "]", "\x7d"], ∀ o ∈ infixOps, o.missesAt t.toList = true := by decide
  exact fun o ho _ => hmarks t h o ho

theorem closed_nil : Closed l [] := by
  have hnil : ∀ o ∈ infixOps, o.missesAt [] = true := by decide
  exact fun o ho _ => hnil o ho

/-- An operator begins with no operator that binds tighter. -/
theorem closed_symbol (ho : o ∈ infixOps) : Closed (o.level + 1) (o.symbol :: ts) := by
  have hsymbols : ∀ o ∈ infixOps, ∀ p ∈ infixOps, o.level + 1 ≤ p.level → p.missesAt o.symbol.toList = true := by decide
  exact fun p hp hl => hsymbols o ho p hp hl

theorem infixOps_pairwise : infixOps.Pairwise fun o p => o.missesAt p.symbol.toList = true := by decide

theorem refuses_infixOp (h : o.missesAt (firstWord ts) = true) : Refuses (o.parse self x) (after ts) := by
  refine passes_skip_after.refuses fun _ _ => ?_
  unfold InfixOp.missesAt at h
  rw [Bool.or_eq_true] at h
  obtain h | h := h
  · exact (refuses_token_first h).bind
  · simp only [Bool.and_eq_true, bne_iff_ne] at h
    obtain ⟨⟨hsymbol, hne⟩, hnext⟩ := h
    obtain ⟨w, hw⟩ := List.isPrefixOf_iff_prefix.mp hsymbol
    rw [← hw, List.drop_left] at hnext
    obtain ⟨w', rfl⟩ := List.isPrefixOf_iff_prefix.mp hnext
    have hspot : Passes (token o.symbol) (before ts) (within (o.notBefore.toList ++ w') ts.tail) :=
      passes_token_within.from fun _ hcs => hw ▸ within_firstWord hcs
    refine hspot.refuses fun _ _ => ?_
    rw [if_pos hne]
    exact (Refuses.notAhead passes_token_within).bind

/-- An operator is read with its right operand. -/
theorem reads_infixOp (ho : o ∈ infixOps) (hy : Reads (self (o.level + 1)) (before ts) (· = y) (after rest)) :
    Reads (o.parse self x) (after (o.symbol :: ts)) (· = o.make x y) (after rest) := by
  have hends : ∀ o ∈ infixOps, o.notBefore ≠ "" → misses o.notBefore [] = true := by decide
  have hrest : Reads (skip >>= fun _ => self (o.level + 1) >>= fun y => pure (o.make x y)) (after ts)
      (· = o.make x y) (after rest) := passes_skip_after.then fun _ => hy.bind_eq (.pure rfl)
  refine passes_skip_after.then fun _ => passes_token.then fun _ => ?_
  by_cases hne : o.notBefore ≠ ""
  · rw [if_pos hne]
    exact (Passes.notAhead (refuses_token_after (hends o ho hne))).then fun _ => hrest
  · rw [if_neg hne]
    exact hrest

/-- Where no operator of the level follows, none is read. -/
theorem reads_infixTail_closed (h : Closed m rest) (k : Nat) :
    Reads (infixTail self m k x) (after rest) (· = x) (after rest) := by
  cases k with
  | zero => exact .pure rfl
  | succ k =>
    refine .orElse_right (.bind (refuses_firstOf ?_)) (.pure rfl)
    intro p hp
    obtain ⟨o, ho, rfl⟩ := List.mem_map.mp hp
    obtain ⟨ho, hl⟩ := List.mem_filter.mp ho
    exact refuses_infixOp (h o ho (by simpa using hl))

/-- One operator is read, and then what the rest of the text allows. -/
theorem Reads.infixTail {Q : Exp → Prop} {s : Spot} {k : Nat} (ho : o ∈ infixOps) (hm : m ≤ o.level)
    (hy : Reads (self (o.level + 1)) (before ts) (· = y) (after rest))
    (htail : Reads (infixTail self m k (o.make x y)) (after rest) Q s) :
    Reads (infixTail self m (k + 1) x) (after (o.symbol :: ts)) Q s := by
  refine Reads.orElse_left (Reads.bind_eq ?_ htail)
  refine reads_firstOf_map (List.mem_filter.mpr ⟨ho, by simpa using hm⟩) (infixOps_pairwise.filter _) ?_
    (reads_infixOp ho hy)
  exact fun p hp => refuses_infixOp hp

/-! ### Climbing -/

/-- Reading the words of `x` at a position of the level `l` comes to where reading an operand `x` would:
    whatever the infix operators after `x` then give is the result. -/
def Climbs (l : Nat) (x : Exp) (ts : List String) : Prop :=
  ∀ (m n k₀ : Nat) (rest : List String) (Q : Exp → Prop) (s : Spot), m ≤ l → Closed (l + 1) rest → ts.length ≤ n →
    (∀ k, k₀ ≤ k → Reads (infixTail (expressionFrom n) m k x) (after rest) Q s) →
    ∀ k, k₀ + ts.length ≤ k →
      Reads (operand (expressionFrom n) >>= infixTail (expressionFrom n) m k) (before (ts ++ rest)) Q s

theorem Climbs.reads (h : Climbs l x ts) (hm : m ≤ l) (hclosed : Closed m rest) (hn : ts.length < n) :
    Reads (expressionFrom n m) (before (ts ++ rest)) (· = x) (after rest) := by
  obtain ⟨n, rfl⟩ : ∃ k, n = k + 1 := ⟨n - 1, by omega⟩
  have hle : ts.length ≤ n := by omega
  exact h m n 0 rest _ _ hm (hclosed.mono (by omega)) hle (fun k _ => reads_infixTail_closed hclosed k) n (by omega)

/-- What is read as an operand climbs. -/
theorem Climbs.of_operand
    (h : ∀ n rest, ts.length ≤ n → Reads (operand (expressionFrom n)) (before (ts ++ rest)) (· = x) (after rest)) :
    Climbs l x ts := by
  intro m n k₀ rest Q s _ _ hn htail k hk
  exact (h n rest hn).bind_eq (htail k (by omega))

/-- An infix operator climbs from its left operand. -/
theorem Climbs.infixOp (ho : o ∈ infixOps) (hl : l ≤ o.level) (hx : Climbs o.level x ts)
    (hy : Climbs (o.level + 1) y us) : Climbs l (o.make x y) (ts ++ o.symbol :: us) := by
  intro m n k₀ rest Q s hm hclosed hn htail k hk
  rw [List.length_append, List.length_cons] at hn hk
  rw [List.append_assoc, List.cons_append]
  refine hx m n (k₀ + us.length + 1) _ _ _ (by omega) (closed_symbol ho) (by omega) ?_ k (by omega)
  intro k hk
  obtain ⟨k, rfl⟩ : ∃ j, k = j + 1 := ⟨k - 1, by omega⟩
  exact .infixTail ho (by omega) (hy.reads (Nat.le_refl _) (hclosed.mono (by omega)) (by omega)) (htail k (by omega))

/-! ### Operands -/

/-- The keywords and marks with which an operand may begin, other than types and literals. -/
def operandMarks : List String := ["-", "!", "(", "min", "max", "abs", "select", "bitcast"]

/-- Where no mark begins, an operand is a conversion, a literal or a variable. -/
theorem Reads.operand_unmarked {s s' : Spot} {Q : Exp → Prop} (hmarks : ∀ t ∈ operandMarks, Refuses (token t) s)
    (h : Reads (firstOf [
      (do
        let type ← scalarType
        skip
        return .convert type (← parenthesized (self 0))),
      (do return .const (← literal)),
      (do return .var (← identifier))]) s Q s') : Reads (operand self) s Q s' := by
  have hmark {β : Type} {f : Unit → Parser β} (t : String) (ht : t ∈ operandMarks) : Refuses (token t >>= f) s :=
    (hmarks t ht).bind
  unfold operand
  refine .next (hmark "-" (by decide)) <| .next (hmark "!" (by decide)) <| .next (hmark "(" (by decide)) <|
    .next (hmark "min" (by decide)) <| .next (hmark "max" (by decide)) <| .next (hmark "abs" (by decide)) <|
    .next (hmark "select" (by decide)) <| .next (hmark "bitcast" (by decide)) h

/-- A literal is read as a constant where no mark and no type begins. -/
theorem reads_operand_literal {t : String} {v : Value} (hread : Reads literal (before (t :: rest)) (· = v) (after rest))
    (h : ∀ m ∈ operandMarks ++ ScalarType.all.map ScalarType.name, misses m t.toList = true) :
    Reads (operand self) (before (t :: rest)) (· = .const v) (after rest) := by
  refine .operand_unmarked (fun m hm => refuses_token (h m (List.mem_append_left _ hm))) <| .next ?_ <| .found ?_
  · refine (refuses_scalarType fun u => refuses_token (h u.name ?_)).bind
    exact List.mem_append_right _ (List.mem_map_of_mem (ScalarType.mem_all u))
  · exact hread.bind_eq (.pure rfl)

theorem misses_number {i : Int} (hi : 0 ≤ i) (suffix : String) :
    ∀ m ∈ operandMarks ++ ScalarType.all.map ScalarType.name, misses m (integerWord i suffix).toList = true := by
  have hheads : ∀ m ∈ operandMarks ++ ScalarType.all.map ScalarType.name,
      (m.toList.all (!isBlank ·) && m.toList.head?.any (!isDigit ·)) = true := by decide
  obtain ⟨c, w, htl, -, hc⟩ := integerWord_cons i suffix
  intro m hm
  rw [htl]
  exact misses_of_class isDigit (hc hi) (hheads m hm)

theorem reads_operand_const {v : Value} (hv : v.IsUnsigned) :
    Reads (operand self) (before (v.word :: rest)) (· = .const v) (after rest) := by
  refine reads_operand_literal (reads_literal hv.isDiscrete) ?_
  obtain ⟨b, rfl⟩ | ⟨i, hi⟩ := bool_or_integer hv.isDiscrete
  · cases b <;> decide
  · rw [word_eq hi]
    exact misses_number (hv.nonneg hi) _

theorem reads_operand_var {name : Ident} (hv : IsName name) :
    Reads (operand self) (before (name :: rest)) (· = .var name) (after rest) := by
  obtain ⟨c, w, htl, hc, -⟩ := hv.cons
  have hmark {β : Type} {f : Unit → Parser β} (t : String)
      (ht : (t.toList.all (!isBlank ·) && t.toList.head?.any (!isIdentChar ·)) = true) :
      Refuses (token t >>= f) (before (name :: rest)) := by
    refine (refuses_token ?_).bind
    rw [htl]
    exact misses_of_class isIdentChar (isIdentChar_of_start hc) ht
  have hcall {β : Type} {p : Parser β} (k : String) (hk : k ∈ keywords) :
      Refuses (call k p) (before (name :: rest)) := refuses_call_name hk hv
  have hbitcast {β : Type} {f : Unit → Parser β} :
      Refuses (token "bitcast" >>= fun _ => mark "<" >>= f) (before (name :: rest)) :=
    refuses_keyword_led (by decide) hv fun _ _ h =>
      .bind (refuses_skip_then h (refuses_punctuation (by decide) h).bind)
  unfold operand
  refine .next (hmark "-" (by decide)) <| .next (hmark "!" (by decide)) <| .next (hmark "(" (by decide)) <|
    .next (hcall "min" (by decide)) <| .next (hcall "max" (by decide)) <| .next (hcall "abs" (by decide)) <|
    .next (hcall "select" (by decide)) <| .next hbitcast <| .next (refuses_scalarType_name hv).bind <|
    .next (refuses_literal_name hv).bind <| .found ((reads_identifier hv).bind_eq (.pure rfl))

theorem reads_operand_neg (hx : Reads (self tightest) (before ts) (· = x) (after rest)) :
    Reads (operand self) (before ("-" :: ts)) (· = .unary .neg x) (after rest) :=
  .found <| passes_token.then fun _ => passes_skip_after.then fun _ => hx.bind_eq (.pure rfl)

theorem reads_operand_not (hx : Reads (self tightest) (before ts) (· = x) (after rest)) :
    Reads (operand self) (before ("!" :: ts)) (· = .unary .not x) (after rest) :=
  .next (refuses_token (by decide)).bind <|
    .found <| passes_token.then fun _ => passes_skip_after.then fun _ => hx.bind_eq (.pure rfl)

theorem reads_operand_parentheses (hx : Reads (self 0) (before ts) (· = x) (after (")" :: rest))) :
    Reads (operand self) (before ("(" :: ts)) (· = x) (after rest) :=
  .next (refuses_token (by decide)).bind <| .next (refuses_token (by decide)).bind <|
    .found <| reads_parenthesized hx.to_near

theorem reads_operand_extremum {op : BinaryOp} (hop : op.level? = none)
    (hx : Reads (self 0) (before ts) (· = x) (after ("," :: us)))
    (hy : Reads (self 0) (before us) (· = y) (after (")" :: rest))) :
    Reads (operand self) (before (op.symbol :: "(" :: ts)) (· = .binary op x y) (after rest) := by
  have hcall (name : String) :
      Reads (call name (do let x ← self 0; mark ","; return Exp.binary op x (← self 0)))
        (before (name :: "(" :: ts)) (· = Exp.binary op x y) (after rest) :=
    reads_call <| .to_near <| hx.bind_eq <| passes_mark_after.then fun _ => hy.bind_eq <| .pure rfl
  cases op with
  | min =>
    exact .next (refuses_token (by decide)).bind <| .next (refuses_token (by decide)).bind <|
      .next (refuses_token (by decide)).bind <| .found (hcall "min")
  | max =>
    exact .next (refuses_token (by decide)).bind <| .next (refuses_token (by decide)).bind <|
      .next (refuses_token (by decide)).bind <| .next (refuses_token (by decide)).bind <| .found (hcall "max")
  | _ => cases hop

theorem reads_operand_abs (hx : Reads (self 0) (before ts) (· = x) (after (")" :: rest))) :
    Reads (operand self) (before ("abs" :: "(" :: ts)) (· = .unary .abs x) (after rest) :=
  .next (refuses_token (by decide)).bind <| .next (refuses_token (by decide)).bind <|
    .next (refuses_token (by decide)).bind <| .next (refuses_token (by decide)).bind <|
    .next (refuses_token (by decide)).bind <| .found <| reads_call <| .to_near <| hx.bind_eq (.pure rfl)

theorem reads_operand_select {c t e : Exp} {vs : List String}
    (hc : Reads (self 0) (before ts) (· = c) (after ("," :: us)))
    (ht : Reads (self 0) (before us) (· = t) (after ("," :: vs)))
    (he : Reads (self 0) (before vs) (· = e) (after (")" :: rest))) :
    Reads (operand self) (before ("select" :: "(" :: ts)) (· = .select c t e) (after rest) :=
  .next (refuses_token (by decide)).bind <| .next (refuses_token (by decide)).bind <|
    .next (refuses_token (by decide)).bind <| .next (refuses_token (by decide)).bind <|
    .next (refuses_token (by decide)).bind <| .next (refuses_token (by decide)).bind <| .found <| reads_call <|
    .to_near <| hc.bind_eq <| passes_mark_after.then fun _ => ht.bind_eq <| passes_mark_after.then fun _ =>
    he.bind_eq (.pure rfl)

theorem reads_operand_bitcast {type : ScalarType} (hx : Reads (self 0) (before ts) (· = x) (after (")" :: rest))) :
    Reads (operand self) (before ("bitcast" :: "<" :: type.name :: ">" :: "(" :: ts)) (· = .bitcast type x)
      (after rest) :=
  .next (refuses_token (by decide)).bind <| .next (refuses_token (by decide)).bind <|
    .next (refuses_token (by decide)).bind <| .next (refuses_token (by decide)).bind <|
    .next (refuses_token (by decide)).bind <| .next (refuses_token (by decide)).bind <|
    .next (refuses_token (by decide)).bind <| .found <| passes_token.then fun _ => passes_mark_after.then fun _ =>
    (reads_scalarType type).bind_eq <| passes_mark_after.then fun _ =>
    (reads_parenthesized hx.to_near).bind_eq (.pure rfl)

theorem reads_operand_convert {type : ScalarType} (hx : Reads (self 0) (before ts) (· = x) (after (")" :: rest))) :
    Reads (operand self) (before (type.name :: "(" :: ts)) (· = .convert type x) (after rest) := by
  have hmarks : ∀ type : ScalarType, ∀ t ∈ operandMarks, misses t type.name.toList = true := by
    intro type
    cases type <;> decide
  refine .operand_unmarked (fun t ht => refuses_token (hmarks type t ht)) <| .found ?_
  exact (reads_scalarType type).bind_eq <| passes_skip_after.then fun _ =>
    (reads_parenthesized hx.to_near).bind_eq (.pure rfl)

/-! ### All ways to write an expression -/

theorem infixOp_of_level {op : BinaryOp} (h : op.level? = some l) :
    ∃ o ∈ infixOps, o.level = l ∧ o.symbol = op.symbol ∧ o.make = .binary op := by
  cases op with
  | min | max => cases h
  | logOr => exact ⟨infixOps[0], List.getElem_mem _, Option.some.inj h, rfl, rfl⟩
  | logAnd => exact ⟨infixOps[1], List.getElem_mem _, Option.some.inj h, rfl, rfl⟩
  | or => exact ⟨infixOps[8], List.getElem_mem _, Option.some.inj h, rfl, rfl⟩
  | xor => exact ⟨infixOps[9], List.getElem_mem _, Option.some.inj h, rfl, rfl⟩
  | and => exact ⟨infixOps[10], List.getElem_mem _, Option.some.inj h, rfl, rfl⟩
  | shl => exact ⟨infixOps[11], List.getElem_mem _, Option.some.inj h, rfl, rfl⟩
  | shr => exact ⟨infixOps[12], List.getElem_mem _, Option.some.inj h, rfl, rfl⟩
  | add => exact ⟨infixOps[13], List.getElem_mem _, Option.some.inj h, rfl, rfl⟩
  | sub => exact ⟨infixOps[14], List.getElem_mem _, Option.some.inj h, rfl, rfl⟩
  | mul => exact ⟨infixOps[15], List.getElem_mem _, Option.some.inj h, rfl, rfl⟩
  | div => exact ⟨infixOps[16], List.getElem_mem _, Option.some.inj h, rfl, rfl⟩
  | mod => exact ⟨infixOps[17], List.getElem_mem _, Option.some.inj h, rfl, rfl⟩

theorem infix_of_comparison (op : Comparison) :
    ∃ o ∈ infixOps, o.level = Comparison.level ∧ o.symbol = op.symbol ∧ o.make = .compare op := by
  cases op with
  | eq => exact ⟨infixOps[2], List.getElem_mem _, rfl, rfl, rfl⟩
  | ne => exact ⟨infixOps[3], List.getElem_mem _, rfl, rfl, rfl⟩
  | le => exact ⟨infixOps[4], List.getElem_mem _, rfl, rfl, rfl⟩
  | ge => exact ⟨infixOps[5], List.getElem_mem _, rfl, rfl, rfl⟩
  | lt => exact ⟨infixOps[6], List.getElem_mem _, rfl, rfl, rfl⟩
  | gt => exact ⟨infixOps[7], List.getElem_mem _, rfl, rfl, rfl⟩

theorem solid_symbol (op : BinaryOp) : Solid op.symbol := by cases op <;> decide

theorem solid_comparison (op : Comparison) : Solid op.symbol := by cases op <;> decide

theorem solid_type (t : ScalarType) : Solid t.name := by cases t <;> decide

theorem solid_integer (i : Int) (suffix : String) : Solid (integerWord i suffix) := by
  obtain ⟨c, w, htl, rfl | hc, -⟩ := integerWord_cons i suffix
  · unfold Solid
    rw [htl]
    exact ⟨by decide, fun h => absurd h (by decide)⟩
  · exact solid_of_identChar htl (by simp [isIdentChar, hc])

theorem solid_number (n : Nat) : Solid (toString n) := integerWord_natCast n ▸ solid_integer _ _

theorem solid_value {v : Value} (hv : v.IsDiscrete) : Solid v.word := by
  obtain ⟨b, rfl⟩ | ⟨i, hi⟩ := bool_or_integer hv
  · cases b <;> decide
  · exact word_eq hi ▸ solid_integer i _

end Syntax

namespace Exp.Written
open SegKernel.Syntax SegKernel.Syntax.Parser

variable {x : Exp} {l m n : Nat} {ts rest : List String}

/-- The words of an expression begin no blank and no comment. -/
theorem solid (h : Written m x ts) (hx : x.isWritable = true) : ∀ t ∈ ts, Solid t := by
  induction h with
  | var name => simpa using (of_decide_eq_true hx : IsName name).solid
  | const v => simpa using solid_value (of_decide_eq_true hx : v.IsUnsigned).isDiscrete
  | int v => simpa using solid_integer _ _
  | @binary _ _ op _ _ _ _ _ _ _ _ ihx ihy =>
    rw [isWritable, Bool.and_eq_true] at hx
    simp only [List.forall_mem_append, List.forall_mem_cons]
    exact ⟨ihx hx.1, solid_symbol op, ihy hx.2⟩
  | @compare _ op _ _ _ _ _ _ _ ihx ihy =>
    rw [isWritable, Bool.and_eq_true] at hx
    simp only [List.forall_mem_append, List.forall_mem_cons]
    exact ⟨ihx hx.1, solid_comparison op, ihy hx.2⟩
  | neg _ ih | not _ ih =>
    rw [List.forall_mem_cons]
    exact ⟨by decide, ih hx⟩
  | @extremum _ op _ _ _ _ _ _ _ ihx ihy =>
    rw [isWritable, Bool.and_eq_true] at hx
    simp only [List.forall_mem_append, List.forall_mem_cons]
    exact ⟨solid_symbol op, by decide, ihx hx.1, by decide, ihy hx.2, by decide⟩
  | abs _ ih =>
    simp only [List.forall_mem_append, List.forall_mem_cons]
    exact ⟨by decide, by decide, ih hx, by decide⟩
  | @convert _ type _ _ _ ih =>
    simp only [List.forall_mem_append, List.forall_mem_cons]
    exact ⟨solid_type type, by decide, ih hx, by decide⟩
  | @bitcast _ type _ _ _ ih =>
    simp only [List.forall_mem_append, List.forall_mem_cons]
    exact ⟨by decide, by decide, solid_type type, by decide, by decide, ih hx, by decide⟩
  | select _ _ _ ihc iht ihe =>
    rw [isWritable, Bool.and_eq_true, Bool.and_eq_true] at hx
    simp only [List.forall_mem_append, List.forall_mem_cons]
    exact ⟨by decide, by decide, ihc hx.1.1, by decide, iht hx.1.2, by decide, ihe hx.2, by decide⟩
  | parentheses _ ih =>
    simp only [List.forall_mem_append, List.forall_mem_cons]
    exact ⟨by decide, ih hx, by decide⟩

/-- A part of an expression that stands in a call is read up to the mark behind it. -/
theorem reads_part (h : Climbs 0 x ts) {t : String} (ht : t ∈ [")", ",", ";", "]", "\x7d"]) (hn : ts.length < n) :
    Reads (expressionFrom n 0) (before (ts ++ t :: rest)) (· = x) (after (t :: rest)) :=
  h.reads (Nat.le_refl 0) (closed_mark ht) hn

theorem climbs (h : Written l x ts) (hx : x.isWritable = true) : Climbs l x ts := by
  -- On the way of writing: an operator climbs, and anything else is an operand.
  induction h with
  | var name => exact .of_operand fun n rest _ => reads_operand_var (of_decide_eq_true hx)
  | const v => exact .of_operand fun n rest _ => reads_operand_const (of_decide_eq_true hx)
  | int v =>
    have hv : (Value.i64 v).IsUnsigned := of_decide_eq_true hx
    exact .of_operand fun n rest _ => reads_operand_literal (reads_literal_plain v) (misses_number hv _)
  | binary hop hmin _ _ ihx ihy =>
    rw [isWritable, Bool.and_eq_true] at hx
    obtain ⟨o, ho, rfl, hsymbol, hmake⟩ := infixOp_of_level hop
    rw [← hmake, ← hsymbol]
    exact .infixOp ho hmin (ihx hx.1) (ihy hx.2)
  | compare hmin _ _ ihx ihy =>
    rw [isWritable, Bool.and_eq_true] at hx
    obtain ⟨o, ho, hl, hsymbol, hmake⟩ := infix_of_comparison _
    rw [← hmake, ← hsymbol]
    exact .infixOp ho (by omega) (hl ▸ ihx hx.1) (hl ▸ ihy hx.2)
  | neg _ ih =>
    exact .of_operand fun n rest hn => reads_operand_neg ((ih hx).reads (Nat.le_refl _) closed_tightest hn)
  | not _ ih =>
    exact .of_operand fun n rest hn => reads_operand_not ((ih hx).reads (Nat.le_refl _) closed_tightest hn)
  | extremum hop _ _ ihx ihy =>
    rw [isWritable, Bool.and_eq_true] at hx
    refine .of_operand fun n rest hn => ?_
    simp only [List.length_cons, List.length_append, List.length_nil] at hn
    simp only [List.cons_append, List.append_assoc, List.nil_append]
    exact reads_operand_extremum hop (reads_part (ihx hx.1) (by decide) (by omega))
      (reads_part (ihy hx.2) (by decide) (by omega))
  | abs _ ih =>
    refine .of_operand fun n rest hn => ?_
    simp only [List.length_cons, List.length_append, List.length_nil] at hn
    simp only [List.cons_append, List.append_assoc, List.nil_append]
    exact reads_operand_abs (reads_part (ih hx) (by decide) (by omega))
  | convert _ ih =>
    refine .of_operand fun n rest hn => ?_
    simp only [List.length_cons, List.length_append, List.length_nil] at hn
    simp only [List.cons_append, List.append_assoc, List.nil_append]
    exact reads_operand_convert (reads_part (ih hx) (by decide) (by omega))
  | bitcast _ ih =>
    refine .of_operand fun n rest hn => ?_
    simp only [List.length_cons, List.length_append, List.length_nil] at hn
    simp only [List.cons_append, List.append_assoc, List.nil_append]
    exact reads_operand_bitcast (reads_part (ih hx) (by decide) (by omega))
  | select _ _ _ ihc iht ihe =>
    rw [isWritable, Bool.and_eq_true, Bool.and_eq_true] at hx
    refine .of_operand fun n rest hn => ?_
    simp only [List.length_cons, List.length_append, List.length_nil] at hn
    simp only [List.cons_append, List.append_assoc, List.nil_append]
    exact reads_operand_select (reads_part (ihc hx.1.1) (by decide) (by omega))
      (reads_part (iht hx.1.2) (by decide) (by omega)) (reads_part (ihe hx.2) (by decide) (by omega))
  | parentheses _ ih =>
    refine .of_operand fun n rest hn => ?_
    simp only [List.length_cons, List.length_append, List.length_nil] at hn
    simp only [List.cons_append, List.append_assoc, List.nil_append]
    exact reads_operand_parentheses (reads_part (ih hx) (by decide) (by omega))

/-- An expression is read where no infix operator follows it. -/
theorem reads (h : Written 0 x ts) (hx : x.isWritable = true) (hclosed : Closed 0 rest) :
    Reads expression (before (ts ++ rest)) (· = x) (after rest) := by
  refine Reads.withFuel (fun _ h => .inl h) fun n hn => ?_
  rw [List.length_append] at hn
  exact (h.climbs hx).reads (Nat.le_refl 0) hclosed (by omega)

end Exp.Written

namespace Exp
open SegKernel.Syntax SegKernel.Syntax.Parser

/-- Reading is the inverse of writing. Every text that spells an expression, with the parentheses that it
    needs or with more of them, is read to its end, as that expression. -/
theorem expression_reads_back (x : Exp) (hx : x.isWritable = true) :
    x.Written 0 (x.words false 0) ∧
      ∀ ts cs, x.Written 0 ts → Spells ts cs → ∃ c, (expression ⟨cs, 0⟩).value = some (x, c) ∧ c.rest = [] := by
  refine ⟨x.written_words false 0, fun ts cs hts hcs => ?_⟩
  have hreads : Reads expression (before (ts ++ [])) (· = x) (after []) := hts.reads hx closed_nil
  rw [List.append_nil] at hreads
  obtain ⟨y, c, hvalue, ⟨hend, -⟩, rfl⟩ := hreads ⟨cs, 0⟩ ⟨hcs, hts.solid hx⟩
  refine ⟨c, hvalue, ?_⟩
  cases hrest : c.rest with
  | nil => rfl
  | cons d ds => rw [hrest] at hend; cases hend

/-- A difference whose right operand is a difference needs parentheses. -/
theorem difference_reads_back :
    let difference : Exp := .binary .sub (.var "a") (.binary .sub (.var "b") (.const (.i32 1)))
    difference.isWritable = true ∧
      ∃ c, (expression ⟨"a - ( b - 1i32 )".toList, 0⟩).value = some (difference, c) ∧ c.rest = [] := by
  intro difference
  have hwritable : difference.isWritable = true := by decide
  have htext : "a - ( b - 1i32 )".toList = spaced (difference.words false 0) := by decide +kernel
  obtain ⟨hwritten, hreads⟩ := expression_reads_back difference hwritable
  exact ⟨hwritable, hreads _ _ hwritten (htext ▸ spells_spaced _)⟩

end Exp
end SegKernel
