import SegKernel.Proofs.Reading.Parts

/-! # The words of descriptors are solid

No word of a descriptor begins with a blank or a comment, so the blanks between the words are all the
blanks of its text. -/

namespace SegKernel
open SegKernel.Syntax

/-- All words begin with neither a blank nor a comment. -/
def AllSolid (ts : List String) : Prop := ∀ t ∈ ts, Solid t

namespace AllSolid
variable {t : String} {ts us : List String} {wss : List (List String)}

theorem nil : AllSolid [] := by simp [AllSolid]

theorem cons (ht : Solid t) (hts : AllSolid ts) : AllSolid (t :: ts) := List.forall_mem_cons.mpr ⟨ht, hts⟩

theorem append (hts : AllSolid ts) (hus : AllSolid us) : AllSolid (ts ++ us) := List.forall_mem_append.mpr ⟨hts, hus⟩

theorem flatMap {α : Type} {as : List α} {f : α → List String} (h : ∀ a ∈ as, AllSolid (f a)) :
    AllSolid (as.flatMap f) := by
  intro t ht
  obtain ⟨a, ha, hta⟩ := List.mem_flatMap.mp ht
  exact h a ha t hta

theorem commas {α : Type} {as : List α} {f : α → List String} (h : ∀ a ∈ as, AllSolid (f a)) :
    AllSolid (commas (as.map f)) := by
  cases as with
  | nil => exact nil
  | cons a as =>
    refine (h a List.mem_cons_self).append (flatMap fun ws hws => cons (by decide) ?_)
    obtain ⟨b, hb, rfl⟩ := List.mem_map.mp hws
    exact h b (List.mem_cons_of_mem _ hb)

theorem brackets {α : Type} {as : List α} {f : α → List String} (h : ∀ a ∈ as, AllSolid (f a)) :
    AllSolid (bracketWords (as.map f)) := cons (by decide) ((commas h).append (cons (by decide) nil))

theorem tuple {α : Type} {as : List α} {f : α → List String} (h : ∀ a ∈ as, AllSolid (f a)) :
    AllSolid (tupleWords (as.map f)) := by
  have hlist : AllSolid ("(" :: (Syntax.commas (as.map f) ++ [")"])) :=
    cons (by decide) ((commas h).append (cons (by decide) nil))
  match as, h, hlist with
  | [], _, hlist => exact hlist
  | [a], h, _ => exact h a List.mem_cons_self
  | _ :: _ :: _, _, hlist => exact hlist

end AllSolid

/-! ### Parts -/

theorem Operand.solid {o : Operand} (h : o.isWritable = true) : Solid o.word := by
  have ho : o.IsPlain := of_decide_eq_true h
  cases o with
  | const v => exact solid_value ho
  | var name => exact IsName.solid ho

theorem operands_solid {os : List Operand} (h : os.all Operand.isWritable = true) :
    ∀ o ∈ os, AllSolid [o.word] :=
  fun o ho => .cons (Operand.solid (List.all_eq_true.mp h o ho)) .nil

theorem shape_solid {os : List Operand} (h : os.all Operand.isWritable = true) : AllSolid (shapeWords os) :=
  .flatMap fun o ho => .cons (by decide) (.cons (Operand.solid (List.all_eq_true.mp h o ho)) (.cons (by decide) .nil))

theorem pattern_solid {ps : List PatElem} (h : patternIsWritable ps = true) : AllSolid (patternWords ps) := by
  rw [patternIsWritable, Bool.and_eq_true, List.all_eq_true] at h
  refine .commas fun p hp => ?_
  obtain ⟨hname, hshape⟩ := Bool.and_eq_true _ _ ▸ h.2 p hp
  exact .cons (of_decide_eq_true hname : IsName p.name).solid <| .cons (by decide) <| (shape_solid hshape).append <|
    .cons (solid_type _) .nil

theorem Grid.solid {g : Grid} (h : g.isWritable = true) : AllSolid g.words := by
  rw [Grid.isWritable, Bool.and_eq_true] at h
  have hcoverage : AllSolid g.coverage.words := by
    cases g.coverage with
    | direct => exact .nil
    | virtualize | full => exact .cons (by decide) .nil
  exact .cons (by decide) <| .cons (Operand.solid h.1) <| .cons (by decide) <| .cons (Operand.solid h.2) <|
    .cons (by decide) hcoverage

theorem IterationSpace.solid {s : IterationSpace} (h : s.isWritable = true) : AllSolid s.words := by
  simp only [IterationSpace.isWritable, Bool.and_eq_true, List.all_eq_true, decide_eq_true_eq] at h
  refine .cons h.1.solid <| .cons (by decide) <| .append (.commas fun d hd => ?_) (.cons (by decide) .nil)
  exact .cons (h.2 d hd).1.solid <| .cons (by decide) <| .cons (Operand.solid (h.2 d hd).2) .nil

theorem Lambda.solid {l : Lambda} (h : l.isWritable = true) : AllSolid l.words := by
  simp only [Lambda.isWritable, Bool.and_eq_true, List.all_eq_true, decide_eq_true_eq] at h
  refine .cons (by decide) <| .append (.commas fun p hp => ?_) (.cons (by decide) (.tuple fun e he => ?_))
  · exact .cons (h.1.1 p hp).solid <| .cons (by decide) <| .cons (solid_type _) .nil
  · exact (e.written_words true 0).solid (h.2 e he)

theorem optionalShape_solid {os : List Operand} (h : os.all Operand.isWritable = true) :
    AllSolid (optionalShapeWords os) := by
  unfold optionalShapeWords
  split
  · exact .nil
  · exact .brackets (operands_solid h)

theorem Combiner.solid {c : Combiner} (h : c.isWritable = true) : AllSolid c.words := by
  simp only [Combiner.isWritable, Bool.and_eq_true] at h
  obtain ⟨⟨⟨hlambda, -⟩, hneutral⟩, hshape⟩ := h
  have hcommutative : AllSolid (if c.commutative then ["commutative"] else []) := by
    split
    · exact .cons (by decide) .nil
    · exact .nil
  exact hcommutative.append <| .cons (by decide) <| (optionalShape_solid hshape).append <| .cons (by decide) <|
    (Lambda.solid hlambda).append <| .cons (by decide) <|
      .append (.tuple (operands_solid hneutral)) (.cons (by decide) .nil)

theorem Histogram.solid {g : Histogram} (h : g.isWritable = true) : AllSolid g.words := by
  simp only [Histogram.isWritable, Bool.and_eq_true] at h
  obtain ⟨⟨⟨⟨⟨⟨hwidth, hshape⟩, -⟩, hneutral⟩, hlambda⟩, -⟩, hnames⟩ := h
  rw [List.all_eq_true] at hnames
  have hdests : AllSolid (commas (g.dests.map fun d => [d])) :=
    .commas fun d hd => .cons (of_decide_eq_true (hnames d hd) : IsName d).solid .nil
  exact .cons (by decide) <| (optionalShape_solid hshape).append <| .cons (by decide) <| .cons (Operand.solid hwidth) <|
    .cons (by decide) <| hdests.append <| .cons (by decide) <| (Lambda.solid hlambda).append <| .cons (by decide) <|
    .append (.tuple (operands_solid hneutral)) (.cons (by decide) .nil)

theorem SegKind.solid {k : SegKind} (h : k.isWritable = true) : AllSolid k.words := by
  cases k with
  | map => exact .nil
  | scan ops | reduce ops => exact .brackets fun c hc => Combiner.solid (List.all_eq_true.mp h c hc)
  | histogram ops => exact .brackets fun c hc => Histogram.solid (List.all_eq_true.mp h c hc)

theorem BodyResult.solid {r : BodyResult} (h : r.isWritable = true) : AllSolid r.words := by
  cases r with
  | returns value => exact .cons (Operand.solid h) .nil
  | tile tiles array =>
    simp only [BodyResult.isWritable, Bool.and_eq_true, List.all_eq_true, decide_eq_true_eq] at h
    refine .cons (by decide) <| .cons (by decide) <| .append (.commas fun t ht => ?_) <| .cons (by decide) <|
      .cons h.2.solid <| .cons (by decide) .nil
    exact .cons (Operand.solid (h.1 t ht).1) <| .cons (by decide) <| .cons (Operand.solid (h.1 t ht).2) .nil
  | write shape writes =>
    rw [BodyResult.isWritable, Bool.and_eq_true, List.all_eq_true (l := writes)] at h
    refine .cons (by decide) <| .append (.brackets (operands_solid h.1)) <| .cons (by decide) <|
      .append (.commas fun w hw => ?_) (.cons (by decide) .nil)
    obtain ⟨hindex, hvalue⟩ := Bool.and_eq_true _ _ ▸ h.2 w hw
    exact .append (.brackets (operands_solid hindex)) <| .cons (by decide) <| .cons (Operand.solid hvalue) .nil
  | concat split perThread array =>
    simp only [BodyResult.isWritable, Bool.and_eq_true, decide_eq_true_eq] at h
    obtain ⟨⟨hsplit, hper⟩, harray⟩ := h
    have hwords : AllSolid split.words := by
      cases split with
      | contiguous => exact .cons (by decide) .nil
      | strided stride =>
        exact .cons (by decide) <| .cons (by decide) <| .cons (Operand.solid hsplit) <| .cons (by decide) .nil
    exact .cons (by decide) <| .cons (by decide) <| hwords.append <| .cons (by decide) <| .cons (Operand.solid hper) <|
      .cons (by decide) <| .cons harray.solid <| .cons (by decide) .nil

/-! ### Operations and items -/

theorem solid_kind (k : SegKind) (l : Level) : Solid (k.name ++ "@" ++ l.word) := by
  have hkinds : ∀ name ∈ kindWords, ∀ l ∈ [Level.thread, Level.group], Solid (name ++ "@" ++ l.word) := by decide
  exact hkinds k.name (name_mem_kindWords k) l (by cases l <;> decide)

mutual

theorem Segmented.solid (op : SegOp) (h : op.isWritable = true) : AllSolid op.words := by
  match op, h with
  | ⟨kind, grid, space, stms, results, _⟩, h =>
    simp only [Segmented.isWritable, Bool.and_eq_true] at h
    obtain ⟨⟨⟨⟨hkind, hgrid⟩, hspace⟩, hstms⟩, hresults⟩ := h
    rw [List.all_eq_true] at hresults
    exact .cons (solid_kind kind grid.level) <| (Grid.solid hgrid).append <| (IterationSpace.solid hspace).append <|
      (SegKind.solid hkind).append <| .cons (by decide) <| (BodyStm.solid_all stms hstms).append <| .cons (by decide) <|
      .append (.commas fun r hr => BodyResult.solid (hresults r hr)) (.cons (by decide) .nil)

theorem BodyStm.solid_all (bs : List BodyStm) (h : BodyStm.allWritable bs = true) : AllSolid (BodyStm.allWords bs) := by
  match bs, h with
  | [], _ => exact .nil
  | b :: bs, h =>
    rw [BodyStm.allWritable, Bool.and_eq_true] at h
    exact (BodyStm.solid b h.1).append (BodyStm.solid_all bs h.2)

theorem BodyStm.solid (b : BodyStm) (h : b.isWritable = true) : AllSolid b.words := by
  match b, h with
  | .compute name type value, h =>
    simp only [BodyStm.isWritable, Bool.and_eq_true, decide_eq_true_eq] at h
    exact .cons (by decide) <| .cons h.1.solid <| .cons (by decide) <| .cons (solid_type type) <| .cons (by decide) <|
      .append ((value.written_words true 0).solid h.2) (.cons (by decide) .nil)
  | .index name type array index, h =>
    simp only [BodyStm.isWritable, Bool.and_eq_true, decide_eq_true_eq, List.all_eq_true] at h
    exact .cons (by decide) <| .cons h.1.1.solid <| .cons (by decide) <| .cons (solid_type type) <| .cons (by decide) <|
      .cons h.1.2.solid <| .append (.brackets fun e he => (e.written_words true 0).solid (h.2 e he)) <|
      .cons (by decide) .nil
  | .arrayLit name type elems, h =>
    simp only [BodyStm.isWritable, Bool.and_eq_true, decide_eq_true_eq] at h
    exact .cons (by decide) <| .cons h.1.solid <| .cons (by decide) <| .cons (by decide) <| .cons (solid_number _) <|
      .cons (by decide) <| .cons (solid_type type) <| .cons (by decide) <|
      .append (.brackets (operands_solid h.2)) (.cons (by decide) .nil)
  | .nested pattern op, h =>
    simp only [BodyStm.isWritable, Bool.and_eq_true] at h
    exact .cons (by decide) <| (pattern_solid h.1).append <| .cons (by decide) <| (Segmented.solid op h.2).append <|
      .cons (by decide) .nil

end

theorem HostOp.solid {o : HostOp} (h : o.isWritable = true) : AllSolid o.words := by
  cases o with
  | seg pattern op =>
    rw [HostOp.isWritable, Bool.and_eq_true] at h
    exact .cons (by decide) <| (pattern_solid h.1).append <| .cons (by decide) <| (Segmented.solid op h.2).append <|
      .cons (by decide) .nil
  | replicate dest value =>
    simp only [HostOp.isWritable, Bool.and_eq_true, decide_eq_true_eq] at h
    exact .cons h.1.solid <| .cons (by decide) <| .cons (by decide) <| .cons (by decide) <|
      .cons (Operand.solid h.2) <| .cons (by decide) <| .cons (by decide) .nil
  | iota dest start step =>
    simp only [HostOp.isWritable, Bool.and_eq_true, decide_eq_true_eq] at h
    exact .cons h.1.1.solid <| .cons (by decide) <| .cons (by decide) <| .cons (by decide) <|
      .cons (Operand.solid h.1.2) <| .cons (by decide) <| .cons (Operand.solid h.2) <| .cons (by decide) <|
      .cons (by decide) .nil
  | copy dest source =>
    simp only [HostOp.isWritable, Bool.and_eq_true, decide_eq_true_eq] at h
    exact .cons h.1.solid <| .cons (by decide) <| .cons (by decide) <| .cons (by decide) <| .cons h.2.solid <|
      .cons (by decide) <| .cons (by decide) .nil

theorem Syntax.Item.solid {i : Item} (h : i.isWritable = true) : AllSolid i.words := by
  cases i with
  | array name type shape =>
    simp only [Item.isWritable, Bool.and_eq_true, decide_eq_true_eq] at h
    exact .cons (by decide) <| .cons h.1.solid <| .cons (by decide) <| (shape_solid h.2).append <|
      .cons (solid_type type) <| .cons (by decide) .nil
  | scalar name type =>
    exact .cons (by decide) <| .cons (of_decide_eq_true h : IsName name).solid <| .cons (by decide) <|
      .cons (solid_type type) <| .cons (by decide) .nil
  | constant name value =>
    simp only [Item.isWritable, Bool.and_eq_true, decide_eq_true_eq] at h
    exact .cons (by decide) <| .cons h.1.solid <| .cons (by decide) <| .cons (solid_type _) <| .cons (by decide) <|
      .cons (solid_value h.2) <| .cons (by decide) .nil
  | op o => exact HostOp.solid h

end SegKernel
