import SegKernel.Proofs.Reading.Operations
import SegKernel.Proofs.Reading.Solid

/-! # Files are read back

A module is written as its declarations and then its operations, and is read back as the module, up to
the places in the text. Items are told apart by their keywords, or, for the built-in operations, by the
name of the operation; reading them in order rebuilds the tables of the module. -/

namespace SegKernel
namespace Syntax
open SegKernel.Syntax.Parser

variable {ts rest : List String}

/-- An item without the places in an operation. -/
def Item.unplaced : Item → Item
  | .op o => .op o.unplaced
  | i => i

/-! ### Items -/

theorem passes_semicolon : Passes semicolon (after (";" :: rest)) (after rest) :=
  passes_skip_after.then fun _ => passes_token

theorem reads_declaration {keyword : String} {name : Ident} (hname : IsName name) :
    Reads (declaration keyword) (before (keyword :: name :: ":" :: rest)) (· = name) (before rest) :=
  passes_token.then fun _ => passes_blank.then fun _ => (reads_identifier hname).bind_eq <|
    passes_mark_after.then fun _ => .pure rfl

theorem refuses_declaration {keyword t : String} (h : misses keyword t.toList = true) :
    Refuses (declaration keyword) (before (t :: ts)) := (refuses_token h).bind

/-- A declaration begins with a keyword and a blank, which no name begins with. -/
theorem refuses_declaration_name {keyword : String} {name : Ident} (hk : keyword ∈ keywords) (hname : IsName name) :
    Refuses (declaration keyword) (before (name :: ts)) :=
  refuses_keyword_led hk hname fun _ _ hc => (refuses_blank (not_isBlank_of_identChar hc)).bind

theorem reads_builtin {name : String} {arguments : Ident → Parser HostOp} {dest : Ident} {o : HostOp}
    (hdest : IsName dest) (h : Reads (arguments dest) (before ts) (· = o) (after (")" :: ";" :: rest))) :
    Reads (builtin name arguments) (before (dest :: "=" :: name :: "(" :: ts)) (· = .op o) (after rest) :=
  (reads_identifier hdest).bind_eq <| passes_mark_after.then fun _ => (reads_call h.to_near).bind_eq <|
    passes_semicolon.then fun _ => .pure rfl

theorem refuses_builtin {name t : String} {arguments : Ident → Parser HostOp} {dest : Ident} (hdest : IsName dest)
    (h : misses name t.toList = true) : Refuses (builtin name arguments) (before (dest :: "=" :: t :: ts)) :=
  (reads_identifier hdest).refuses fun _ _ => passes_mark_after.refuses fun _ _ => (refuses_token h).bind.bind

theorem refuses_builtin_keyword {name k : String} {arguments : Ident → Parser HostOp} (hk : k ∈ keywords) :
    Refuses (builtin name arguments) (before (k :: ts)) := (refuses_identifier_keyword hk).bind

/-- Where a built-in operation stands, no declaration does. -/
theorem Reads.item_builtin {dest : Ident} {Q : Item → Prop} {s : Spot} (hdest : IsName dest)
    (h : Reads (firstOf [
      builtin "replicate" (fun dest => return .replicate dest (← simpleOperand)),
      builtin "iota" (fun dest => do
        let start ← simpleOperand
        mark ","
        return .iota dest start (← simpleOperand)),
      builtin "copy" (fun dest => return .copy dest (← identifier)),
      (do
        token "let"
        blank
        let pattern ← pattern
        mark "="
        let op ← segOp
        semicolon
        return .op (.seg pattern op))]) (before (dest :: ts)) Q s) : Reads item (before (dest :: ts)) Q s :=
  .next (refuses_declaration_name (by decide) hdest).bind <|
    .next (refuses_declaration_name (by decide) hdest).bind <|
    .next (refuses_declaration_name (by decide) hdest).bind h

theorem reads_item {i : Item} (h : i.isWritable = true) :
    Reads item (before (i.words ++ rest)) (fun j => j.unplaced = i.unplaced) (after rest) := by
  -- The forms are tried in order, and the ones before refuse the first word.
  cases i with
  | array name type shape =>
    simp only [Item.isWritable, Bool.and_eq_true, decide_eq_true_eq, List.all_eq_true] at h
    simp only [Item.words, shapeWords, List.cons_append, List.append_assoc, List.nil_append]
    refine .found <| (reads_declaration h.1).bind_eq <|
      (reads_shape (fun o ho _ => reads_operand (Operand.isPlain (h.2 o ho))) (misses_bracket_type type)).bind_eq ?_
    exact (reads_scalarType type).bind_eq <| passes_semicolon.then fun _ => .pure rfl
  | scalar name type =>
    simp only [Item.isWritable, decide_eq_true_eq] at h
    refine .next (refuses_declaration (by decide)).bind <| .found <| (reads_declaration h).bind_eq ?_
    exact (reads_scalarType type).bind_eq <| passes_semicolon.then fun _ => .pure rfl
  | constant name value =>
    simp only [Item.isWritable, Bool.and_eq_true, decide_eq_true_eq] at h
    refine .next (refuses_declaration (by decide)).bind <| .next (refuses_declaration (by decide)).bind <| .found <|
      (reads_declaration h.1).bind_eq <| (reads_scalarType value.type).bind_eq <| passes_mark_after.then fun _ => ?_
    exact (reads_typedLiteral h.2).bind_eq <| passes_semicolon.then fun _ => .pure rfl
  | op o =>
    cases o with
    | replicate dest value =>
      simp only [Item.isWritable, HostOp.isWritable, Bool.and_eq_true, decide_eq_true_eq] at h
      refine .item_builtin h.1 <| .found <|
        (reads_builtin (o := .replicate dest value) h.1 ?_).mono fun _ hi => hi ▸ rfl
      exact (reads_operand (Operand.isPlain h.2)).bind_eq (.pure rfl)
    | iota dest start step =>
      simp only [Item.isWritable, HostOp.isWritable, Bool.and_eq_true, decide_eq_true_eq] at h
      refine .item_builtin h.1.1 <| .next (refuses_builtin h.1.1 (by decide)) <| .found <|
        (reads_builtin (o := .iota dest start step) h.1.1 ?_).mono fun _ hi => hi ▸ rfl
      exact (reads_operand (Operand.isPlain h.1.2)).bind_eq <| passes_mark_after.then fun _ =>
        (reads_operand (Operand.isPlain h.2)).bind_eq (.pure rfl)
    | copy dest source =>
      simp only [Item.isWritable, HostOp.isWritable, Bool.and_eq_true, decide_eq_true_eq] at h
      refine .item_builtin h.1 <| .next (refuses_builtin h.1 (by decide)) <| .next (refuses_builtin h.1 (by decide)) <|
        .found <| (reads_builtin (o := .copy dest source) h.1 ?_).mono fun _ hi => hi ▸ rfl
      exact (reads_identifier h.2).bind_eq (.pure rfl)
    | seg pattern op =>
      simp only [Item.isWritable, HostOp.isWritable, Bool.and_eq_true] at h
      simp only [Item.words, HostOp.words, List.cons_append, List.append_assoc, List.nil_append]
      have hop : Reads segOp (before (op.words ++ ";" :: rest)) (fun o => o.unplaced = op.unplaced)
          (after (";" :: rest)) := by
        refine Reads.withFuel (fun _ h => .inl h) fun n hn => reads_segOpWithin op h.2 ?_ _
        rw [List.length_append] at hn
        omega
      refine .next (refuses_declaration (by decide)).bind <| .next (refuses_declaration (by decide)).bind <|
        .next (refuses_declaration (by decide)).bind <| .next (refuses_builtin_keyword (by decide)) <|
        .next (refuses_builtin_keyword (by decide)) <| .next (refuses_builtin_keyword (by decide)) <| .found ?_
      refine passes_token.then fun _ => (passes_blank_of_ne (by simp)).then fun _ => (reads_pattern h.1).bind_eq ?_
      refine passes_mark_after.then fun _ => hop.bind fun o ho => passes_semicolon.then fun _ => .pure ?_
      simp only [Item.unplaced, HostOp.unplaced, ho]

theorem refuses_identifier_end : Refuses identifier (before []) := by
  rintro ⟨cs, o⟩ ⟨rfl, -⟩
  rfl

/-- At the end of the text there is no item. -/
theorem refuses_item_end : Refuses item (before []) := by
  have hkeyword {β : Type} {k : String} {f : Ident → Parser β} (hk : misses k [] = true) :
      Refuses (declaration k >>= f) (before []) := (refuses_token_first hk).bind.bind
  have hbuiltin {name : String} {arguments : Ident → Parser HostOp} : Refuses (builtin name arguments) (before []) :=
    refuses_identifier_end.bind
  refine refuses_firstOf ?_
  simp only [List.forall_mem_cons, List.not_mem_nil, false_implies, implies_true, and_true]
  exact ⟨hkeyword (by decide), hkeyword (by decide), hkeyword (by decide), hbuiltin, hbuiltin, hbuiltin,
    (refuses_token_first (by decide)).bind⟩

theorem item_words_ne_nil (i : Item) : i.words ≠ [] := by
  cases i with
  | op o => cases o <;> simp [Item.words, HostOp.words]
  | _ => simp [Item.words]

theorem reads_items {is : List Item} (h : is.all Item.isWritable = true) :
    Reads (separated item skip) (before (is.flatMap Item.words)) (fun js => js.map Item.unplaced = is.map Item.unplaced)
      (near []) := by
  rw [List.all_eq_true] at h
  have hlisted : Listed item skip [] Item.words after (fun i j => j.unplaced = i.unplaced) is [] :=
    { elem := fun i hi _ _ => reads_item (h i hi)
      next := fun _ => passes_skip_after
      last := passes_skip_after.refuses fun _ _ => refuses_item_end
      words := fun i _ => item_words_ne_nil i
      near := fun _ _ h => .inr h }
  have hread := hlisted.separated (fun _ => refuses_item_end) (fun _ h => Or.inr h) fun _ h => Or.inl h
  rw [joined_nil, List.append_nil] at hread
  exact hread.mono fun _ => map_eq_of_forall₂

theorem reads_module {is : List Item} (h : is.all Item.isWritable = true) :
    Reads module (before (is.flatMap Item.words))
      (fun m => ∃ js : List Item, js.map Item.unplaced = is.map Item.unplaced ∧ m = js.foldl Item.addTo {})
        (before []) := by
  have hend : Refuses (char fun _ => true) (before []) := by
    rintro ⟨cs, o⟩ ⟨rfl, -⟩
    rfl
  refine passes_skip_before.then fun _ => (reads_items h).bind fun js hjs => passes_skip.then fun _ => ?_
  exact (Passes.notAhead hend).then fun _ => .pure ⟨js, hjs, rfl⟩

/-! ### Rebuilding a module -/

theorem addTo_unplaced (m : Module) (i : Item) : (Item.addTo m i).unplaced = Item.addTo m.unplaced i.unplaced := by
  cases i with
  | op o => cases o <;> simp [Item.addTo, Module.unplaced, Item.unplaced, HostOp.unplaced]
  | _ => rfl

theorem foldl_addTo_unplaced (is : List Item) (m : Module) :
    (is.foldl Item.addTo m).unplaced = (is.map Item.unplaced).foldl Item.addTo m.unplaced := by
  induction is generalizing m with
  | nil => rfl
  | cons i is ih => rw [List.foldl_cons, ih, addTo_unplaced, List.map_cons, List.foldl_cons]

end Syntax

/-- The entries of a table, entered in order, are the table. -/
theorem Table.foldl_insert_toList {α : Type} (t : Table α) :
    t.toList.foldl (fun u e => u.insert e.1 e.2) (∅ : Table α) = t := by
  rw [← Std.ExtTreeMap.insertMany_list_eq_foldl]
  refine Std.ExtTreeMap.ext_getElem? fun k => ?_
  cases hk : t[k]? with
  | some v =>
    exact Std.ExtTreeMap.getElem?_insertMany_list_of_mem (by simp) Std.ExtTreeMap.distinct_keys_toList
      (Std.ExtTreeMap.mem_toList_iff_getElem?_eq_some.mpr hk)
  | none =>
    have hkeys : (t.toList.map Prod.fst).contains k = false := by
      rw [List.contains_eq_mem, decide_eq_false_iff_not]
      intro hmem
      obtain ⟨⟨_, v⟩, hv, rfl⟩ := List.mem_map.mp hmem
      rw [Std.ExtTreeMap.mem_toList_iff_getElem?_eq_some, hk] at hv
      cases hv
    rw [Std.ExtTreeMap.getElem?_insertMany_list_of_contains_eq_false hkeys]
    exact Std.ExtTreeMap.getElem?_empty

namespace Module
open SegKernel.Syntax

theorem foldl_arrays (es : List (Ident × ScalarType × List Operand)) (m : Module) :
    (es.map fun (name, type, shape) => Item.array name type shape).foldl Item.addTo m =
      { m with env := { m.env with arrays := es.foldl (fun u e => u.insert e.1 e.2) m.env.arrays } } := by
  induction es generalizing m with
  | nil => rfl
  | cons e es ih => exact ih _

theorem foldl_scalars (es : List (Ident × ScalarType)) (m : Module) :
    (es.map fun (name, type) => Item.scalar name type).foldl Item.addTo m =
      { m with env := { m.env with scalars := es.foldl (fun u e => u.insert e.1 e.2) m.env.scalars } } := by
  induction es generalizing m with
  | nil => rfl
  | cons e es ih => exact ih _

theorem foldl_constants (es : List (Ident × Value)) (m : Module) :
    (es.map fun (name, value) => Item.constant name value).foldl Item.addTo m =
      { m with env := { m.env with constants := es.foldl (fun u e => u.insert e.1 e.2) m.env.constants } } := by
  induction es generalizing m with
  | nil => rfl
  | cons e es ih => exact ih _

/-- What is declared is not declared anew. -/
theorem foldl_insertIfNew {α : Type} {t : Table α} {ps : List PatElem} {f : PatElem → α}
    (h : ∀ p ∈ ps, t.contains p.name = true) : ps.foldl (fun u p => u.insertIfNew p.name (f p)) t = t := by
  induction ps with
  | nil => rfl
  | cons p ps ih =>
    rw [List.forall_mem_cons] at h
    have hsame : t.insertIfNew p.name (f p) = t := by
      refine Std.ExtTreeMap.ext_getElem? fun k => ?_
      rw [Std.ExtTreeMap.getElem?_insertIfNew, if_neg]
      rintro ⟨-, hnot⟩
      exact hnot (Std.ExtTreeMap.contains_iff_mem.mp h.1)
    rw [List.foldl_cons, hsame, ih h.2]

theorem foldl_ops (ops : List HostOp) (m : Module)
    (h : ∀ pattern op, .seg pattern op ∈ ops → ∀ p ∈ pattern, m.env.arrays.contains p.name = true) :
    (ops.map Item.op).foldl Item.addTo m = { m with ops := m.ops ++ ops } := by
  induction ops generalizing m with
  | nil => simp
  | cons o ops ih =>
    have hstep : Item.addTo m (.op o) = { m with ops := m.ops ++ [o] } := by
      cases o with
      | seg pattern op =>
        have harrays := foldl_insertIfNew (f := fun p => (p.type, p.shape)) (h pattern op List.mem_cons_self)
        simp only [Item.addTo, harrays]
      | _ => rfl
    rw [List.map_cons, List.foldl_cons, hstep]
    refine (ih { m with ops := m.ops ++ [o] } fun pattern op hop => h pattern op (List.mem_cons_of_mem _ hop)).trans ?_
    simp

/-- The items of a module, added one after another, are the module. -/
theorem foldl_items (m : Module) (h : m.declaresDests = true) : m.items.foldl Item.addTo {} = m := by
  rw [declaresDests, List.all_eq_true] at h
  simp only [items, List.foldl_append, foldl_arrays, foldl_scalars, foldl_constants]
  rw [foldl_ops]
  · simp only [Table.foldl_insert_toList, List.nil_append]
  · intro pattern op hop p hp
    simp only [Table.foldl_insert_toList]
    exact List.all_eq_true.mp (h _ hop) p hp

theorem words_solid {m : Module} (h : m.isWritable = true) : AllSolid m.words := by
  rw [isWritable, Bool.and_eq_true, List.all_eq_true] at h
  exact .flatMap fun i hi => Item.solid (h.1 i hi)

/-- Reading is the inverse of writing. Every text that spells the declarations and operations of a module
    is read as the module, up to the places in the text. -/
theorem parse_words (m : Module) (h : m.isWritable = true) {text : String} (path : Option String)
    (htext : Spells m.words text.toList) :
    ∃ m', Module.parse ⟨text, path⟩ = .ok m' ∧ m'.unplaced = m.unplaced := by
  have hbefore : before m.words text.toList := ⟨htext, words_solid h⟩
  rw [isWritable, Bool.and_eq_true] at h
  obtain ⟨m', c, hvalue, -, js, hjs, rfl⟩ := reads_module h.1 ⟨text.toList, 0⟩ hbefore
  refine ⟨js.foldl Item.addTo {}, ?_, ?_⟩
  · unfold Module.parse
    rcases hmodule : Syntax.module ⟨text.toList, 0⟩ with ⟨value, expected⟩
    rw [hmodule] at hvalue
    obtain rfl : value = _ := hvalue
    rfl
  · calc (js.foldl Item.addTo {}).unplaced
        = (js.map Item.unplaced).foldl Item.addTo {} := foldl_addTo_unplaced js {}
      _ = (m.items.map Item.unplaced).foldl Item.addTo {} := by rw [hjs]
      _ = (m.items.foldl Item.addTo {}).unplaced := (foldl_addTo_unplaced m.items {}).symm
      _ = m.unplaced := by rw [foldl_items m h.2]

/-- The sum of an array. -/
def summation : Module where
  env :=
    { arrays := .ofList [("xs", .i32, [.var "n"]), ("sum", .i32, [.int 1])]
      scalars := .ofList [("n", .i64)] }
  ops := [.seg [⟨"sum", .i32, [.int 1]⟩]
    { kind := .reduce [{
        lambda := { params := [⟨"x", .i32⟩, ⟨"y", .i32⟩], results := [.binary .add (.var "x") (.var "y")] }
        neutral := [.const (.i32 0)]
        commutative := true }]
      grid := { level := .thread, numGroups := .int 4, groupSize := .int 64, coverage := .virtualize }
      space := { flat := "flat", dims := [("i", .var "n")] }
      stms := [.index "x" .i32 "xs" [.var "i"]]
      results := [.returns (.var "x")] }]

def summationText : String :=
  "array sum : [ 1i64 ] i32 ; array xs : [ n ] i32 ; scalar n : i64 ; " ++
  "let sum : [ 1i64 ] i32 = segred@thread ( 4i64 , 64i64 ) virtualize flat ( i < n ) " ++
  "[ commutative op ( \\ x : i32 , y : i32 -> ( x + y ) ; 0i32 ) ] " ++
  "\x7b let x : i32 = xs [ i ] ; return x \x7d ;"

theorem summation_parses :
    summation.isWritable = true ∧ ∃ m, Module.parse ⟨summationText, none⟩ = .ok m ∧
      m.unplaced = summation.unplaced := by
  have hwritable : summation.isWritable = true := by decide +kernel
  have htext : summationText.toList = spaced summation.words := by
    unfold summationText
    rw [String.toList_append, String.toList_append, String.toList_append, String.toList_ofList, String.toList_ofList,
      String.toList_ofList, String.toList_ofList]
    decide +kernel
  exact ⟨hwritable, parse_words summation hwritable none (htext ▸ spells_spaced _)⟩

end Module
end SegKernel
