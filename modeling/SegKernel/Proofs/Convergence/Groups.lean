import SegKernel.Proofs.Convergence.Hoisted
import SegKernel.Proofs.Convergence.Nested

/-! The bodies that groups run. Their own statements bind common names, and operations inside them do
    not. A small array becomes common where all threads have made it. -/

namespace SegKernel
open Fresh Exp Lowering Run GroupState

namespace Common

/-- The threads agree on one array more. -/
def withArray (U : Common) (name : Ident) (h : U name) : Common where
  scalar := U.scalar
  array x := U.array x ∨ x = name
  scalar_of_array x hx := hx.elim (U.scalar_of_array x) fun e => e ▸ h

/-- The threads agree on no array. -/
def withoutArrays (U : Common) : Common where
  scalar := U.scalar
  array _ := False
  scalar_of_array _ hx := hx.elim

theorem withoutArrays_le {U V : Common} (h : V.scalar = U.scalar) : U.withoutArrays ≤ V :=
  ⟨fun _ hx => h ▸ hx, fun _ hx => hx.elim⟩

end Common

section
variable {U V : Common} {n : Nat}

theorem Exp.Over.of_scalar {x : Exp} (h : x.Over U) (e : V.scalar = U.scalar) : x.Over V := fun y hy => e ▸ h y hy

theorem NewNames.of_scalar (N : NewNames U n) (e : V.scalar = U.scalar) : NewNames V n where
  uniform stem hs k hk := e ▸ N.uniform stem hs k hk
  own stem hs k hk := e ▸ N.own stem hs k hk

theorem Launch.Fits.of_scalar {l : Launch} (L : l.Fits U) (e : V.scalar = U.scalar) : l.Fits V where
  groupId := e ▸ L.groupId
  wave := e ▸ L.wave
  numGroups := L.numGroups.of_scalar e
  groupSize := L.groupSize.of_scalar e
  chunkCounts p hp := (L.chunkCounts p hp).of_scalar e

end

/-- The arrays of a scope are named by what is bound, their extents are common, and so are those of
    them that each thread has for itself. -/
structure BodyScope.Fits (U : Common) (bound : Ident → Prop) (scope : BodyScope) : Prop where
  launch : scope.launch.Fits U
  named : ∀ name a, scope.kernelArray? name = some a → bound name
  shapes : ∀ name a, scope.kernelArray? name = some a → ∀ d ∈ a.shape, d.Over U
  own : ∀ name a, scope.kernelArray? name = some a → a.view.space = .thread → U.array a.view.array

/-- The names of a body that a group runs: what its statements bind is common, and what is bound inside
    them is not. No array that it reads has a new name. -/
structure GroupBody (U : Common) (stms : List BodyStm) : Prop where
  binds : ∀ x ∈ stms.flatMap BodyStm.binds, U x
  inner : ∀ pattern op, BodyStm.nested pattern op ∈ stms → ∀ x ∈ op.names, ¬U x
  arrays : ∀ name type array is, BodyStm.index name type array is ∈ stms → ¬Generated array

section
variable {U : Common} {setting : Setting} {n : Nat} {scope : BodyScope} {bound : Ident → Prop}

theorem BodyScope.Fits.mono (S : scope.Fits U bound) (names : List Ident) : scope.Fits U (scopeWith names bound) where
  launch := S.launch
  named name a h := Or.inr (S.named name a h)
  shapes := S.shapes
  own := S.own

theorem generated_of_array {stem : String} (h : stem ∈ arrayStems) (k : Nat) : Generated (numbered stem k) :=
  ⟨stem, by simp [h], k, rfl⟩

/-- An array that code reads is common, if its name is not new. -/
theorem array_common (S : scope.Fits U bound) (henv : ∀ x, setting.env.HasName x → U x) {name : Ident}
    (hname : ¬Generated name) :
    Yields setting n (scope.array name) fun a => (∀ d ∈ a.shape, d.Over U) ∧
      (a.view.space = .thread → U.array a.view.array) := by
  refine Yields.bind (P := fun a? => ∀ a ∈ a?, (∀ d ∈ a.shape, d.Over U) ∧
    (a.view.space = .thread → U.array a.view.array))
    ?_ fun a? h => Yields.require.imp fun a ha => h a ha
  unfold BodyScope.array?
  split
  · rename_i a ha
    refine .pure fun b hb => ?_
    obtain rfl := Option.mem_some_iff.mp hb
    exact ⟨S.shapes name a ha, S.own name a ha⟩
  · refine Yields.globalArray?.imp fun a? h a ha => ?_
    obtain ⟨hspace, ⟨type, shape, henv', hshape⟩ | ⟨stem, hstem, k, rfl⟩⟩ := h a ha
    · refine ⟨fun d hd => ?_, fun hs => absurd hspace (by simp [hs])⟩
      obtain ⟨o, ho, rfl⟩ := List.mem_map.mp (hshape ▸ hd)
      refine Operand.over_toExp fun x hx => henv x (Or.inr (Or.inr (Or.inr ⟨name, type, shape, henv', o, ho, hx⟩)))
    · exact absurd (generated_of_array hstem k) hname

theorem indicesInBounds_over {shape indices : List Exp} (hs : ∀ d ∈ shape, d.Over U) (hi : ∀ i ∈ indices, i.Over U) :
    (indicesInBounds shape indices).Over U := by
  refine over_all fun c hc => ?_
  obtain ⟨⟨d, i⟩, hmem, rfl⟩ := List.mem_map.mp hc
  have hi' := hi i (List.of_mem_zip hmem).2
  exact over_both (over_test (over_int 0) hi') (over_test hi' (hs d (List.of_mem_zip hmem).1))

theorem readCode_uniform (S : scope.Fits U bound) (henv : ∀ x, setting.env.HasName x → U x) (name : Ident)
    (type : ScalarType) {array : Ident} (harray : ¬Generated array) {index : List Exp}
    (hindex : ∀ i ∈ index, i.Over U) :
    Yields setting n (BodyStm.readCode scope name type array index) (Uniform U) := by
  refine (array_common S henv harray).bind fun a ⟨hshape, hown⟩ => Yields.check.bind fun _ _ => ?_
  refine Yields.check.bind fun _ _ => Yields.read.bind fun s _ => .pure (.block ?_)
  simp only [List.forall_mem_cons, List.not_mem_nil, false_imp_iff, implies_true, and_true]
  have reads : Uniform U (.read name a.view (.flatten a.shape index)) :=
    .read fun _ => ⟨over_flatten hshape hindex, hown⟩
  refine ⟨.declare, ?_⟩
  split
  · exact .when (indicesInBounds_over hshape hindex) reads
  · exact reads

/-- An array that all threads make of common elements is common from then on. -/
theorem arrayCode_leads {name : Ident} (hname : U name) (type : ScalarType) {elems : List Operand}
    (helems : ∀ e ∈ elems, ∀ x ∈ e.vars, U x) :
    Leads U (U.withArray name hname) (BodyStm.arrayCode name type elems).1 := by
  have declares : Leads U (U.withArray name hname)
      (.declareArray name type (.int (Int64.ofNat elems.length)) .thread) := by
    intro ctx order hne s hs
    rw [Stmt.dropShared, if_neg (by simp)]
    have notEmpty : order.isEmpty = false := by simpa using hne
    unfold Run.trace Run.exec
    rw [notEmpty, if_neg Bool.false_ne_true, if_neg Bool.false_ne_true]
    refine ⟨by simp, fun s' hs' => hs.forM (I := fun _ => True)
      (Q := fun _ a b => ∃ n, arrayLength name (Int64.ofNat elems.length) = .ok n ∧
        b = { a with arrays := a.arrays.insert name (.zeroed type n) }) trivial ?_ ?_ hs'⟩
    · rintro t a b ht - hab
      obtain ⟨i, n, hi, hn, ⟨hspace, -⟩ | ⟨-, rfl⟩⟩ := declareArray_ok hab
      · cases hspace
      · cases hi
        exact ⟨trivial, onlyThread_modifyThread t a _, n, hn, thread_modifyThread_self _ ht⟩
    · rintro t t' a a' b b' hagree ⟨n, hn, rfl⟩ ⟨n', hn', rfl⟩
      rw [hn] at hn'
      cases hn'
      refine ⟨hagree.scalars, fun x hx => ?_⟩
      simp only [Table.getElem?_insert]
      split
      · rfl
      · rename_i hne
        exact hagree.arrays x (hx.resolve_right fun e => hne e.symm)
  -- The writes that follow store common values at common positions.
  refine .block (.cons declares (.of_uniform fun s hs => ?_))
  obtain ⟨i, hi, rfl⟩ := List.mem_mapIdx.mp hs
  exact .write fun _ _ => ⟨over_int _, Operand.over_toExp (helems _ (List.getElem_mem hi))⟩

/-! ### Statements -/

theorem patternArrays_mem {pattern : List PatElem} {name : Ident} {a : ArrayInfo}
    (h : (name, a) ∈ patternArrays pattern) :
    ∃ p ∈ pattern, p.shape ≠ [] ∧ p.name = name ∧
      a = ⟨⟨p.name, p.type, .shared, false⟩, p.shape.map Operand.toExp⟩ := by
  obtain ⟨p, hp, e⟩ := List.mem_map.mp h
  obtain ⟨hp, hshape⟩ := List.mem_filter.mp hp
  cases e
  exact ⟨p, hp, by simpa using hshape, rfl, rfl⟩

/-- The results of a nested operation are shared arrays of common extents. -/
theorem addPattern_fits (S : scope.Fits U bound) {pattern : List PatElem}
    (hshapes : ∀ p ∈ pattern, ∀ d ∈ p.shape, ∀ x ∈ d.vars, U x) :
    (scope.addArrays (patternArrays pattern)).Fits U (scopeWith (pattern.map (·.name)) bound) := by
  refine ⟨S.launch, fun name a h => ?_, fun name a h => ?_, fun name a h => ?_⟩
  all_goals
    rcases kernelArray?_addArrays h with hmem | ⟨-, h⟩
  · obtain ⟨p, hp, -, rfl, -⟩ := patternArrays_mem hmem
    exact Or.inl (List.mem_map_of_mem hp)
  · exact Or.inr (S.named name a h)
  · obtain ⟨p, hp, -, -, rfl⟩ := patternArrays_mem hmem
    intro d hd
    obtain ⟨o, ho, rfl⟩ := List.mem_map.mp hd
    exact Operand.over_toExp (hshapes p hp o ho)
  · exact S.shapes name a h
  · obtain ⟨p, hp, -, -, rfl⟩ := patternArrays_mem hmem
    exact fun hspace => by cases hspace
  · exact S.own name a h

theorem nested_fits (S : scope.Fits U bound) (hbound : ∀ x, bound x → U x) {pattern : List PatElem} {op : SegOp}
    (hscoped : BodyStm.Scoped bound (.nested pattern op)) (hnames : ∀ x ∈ op.names, ¬U x) :
    Nested.Context.Fits U pattern ⟨scope.addArrays (patternArrays pattern), op⟩ := by
  rw [BodyStm.Scoped] at hscoped
  obtain ⟨hpattern, hop⟩ := hscoped
  have S' := addPattern_fits S fun p hp d hd x hx => hbound x ((hpattern p hp).2 d hd x hx)
  refine ⟨S'.launch, S'.shapes, fun p hp a h => ?_, hnames, fun x hx => ?_⟩
  · rcases kernelArray?_addArrays h with hmem | ⟨-, h⟩
    · obtain ⟨q, -, -, -, rfl⟩ := patternArrays_mem hmem
      rfl
    · exact absurd (S.named p.name a h) (hpattern p hp).1
  · refine hbound x (((Segmented.scoped_def op).mp hop).1 x ?_)
    rw [List.append_assoc]
    exact List.mem_append_right _ hx

/-- A statement of a group leads to agreement on what it binds. -/
theorem code_leads (N : NewNames U n) (S : scope.Fits U bound) (hbound : ∀ x, bound x → U x)
    (henv : ∀ x, setting.env.HasName x → U x) {stm : BodyStm} (hbody : GroupBody U [stm]) (hscoped : stm.Scoped bound) :
    Yields setting n (stm.code Nested.code scope) fun (code, inner) =>
      ∃ V : Common, V.scalar = U.scalar ∧ Leads U V code ∧ inner.Fits V (scopeWith stm.binds bound) := by
  cases stm with
  | compute name type value =>
    rw [BodyStm.Scoped] at hscoped
    refine .pure ⟨U, rfl, (Uniform.declareInit fun _ x hx => hbound x (hscoped x hx)).leads, S.mono _⟩
  | index name type array is =>
    rw [BodyStm.Scoped] at hscoped
    refine (readCode_uniform S henv name type (hbody.arrays _ _ _ _ List.mem_cons_self)
      fun i hi x hx => hbound x (hscoped i hi x hx)).bind fun code hcode => .pure ⟨U, rfl, hcode.leads, S.mono _⟩
  | arrayLit name type elems =>
    rw [BodyStm.Scoped] at hscoped
    have hname : U name := hbody.binds name (by simp [BodyStm.binds])
    refine .pure ⟨U.withArray name hname, rfl,
      arrayCode_leads hname type fun e he x hx => hbound x (hscoped e he x hx), ?_⟩
    refine ⟨S.launch.of_scalar rfl, fun x a h => ?_, fun x a h => ?_, fun x a h => ?_⟩
    all_goals
      rcases kernelArray?_addArrays h with hmem | ⟨-, h⟩
      · cases List.mem_singleton.mp hmem
        simp [BodyStm.binds, scopeWith, Common.withArray, over_int]
    · exact Or.inr (S.named x a h)
    -- An array of the body's own: its extents are over agreed variables as before.
    · exact fun d hd => (S.shapes x a h d hd).of_scalar rfl
    · exact fun hspace => Or.inl (S.own x a h hspace)
  | nested pattern op =>
    have F := nested_fits S hbound hscoped (hbody.inner pattern op List.mem_cons_self)
    rw [BodyStm.Scoped] at hscoped
    refine (Nested.code_uniform N F).imp fun _ ⟨hcode, hinner⟩ => ⟨U, rfl, hcode.leads, ?_⟩
    rw [hinner]
    exact addPattern_fits S fun p hp d hd x hx => hbound x ((hscoped.1 p hp).2 d hd x hx)

theorem codeAll_leads {n : Nat} : ∀ {stms : List BodyStm} {U : Common} {bound : Ident → Prop} {scope : BodyScope},
    NewNames U n → scope.Fits U bound → (∀ x, bound x → U x) → (∀ x, setting.env.HasName x → U x) →
    GroupBody U stms → BodyStm.ScopedAll bound stms →
    Yields setting n (BodyStm.codeAll Nested.code scope stms) fun (code, inner) =>
      ∃ V : Common, V.scalar = U.scalar ∧ LeadsAll U V code ∧ ∃ bound', inner.Fits V bound'
  | [], U, bound, scope, _, S, _, _, _, _ => .pure ⟨U, rfl, .nil, bound, S⟩
  | stm :: stms, U, bound, scope, N, S, hbound, henv, hbody, hscoped => by
    rw [BodyStm.ScopedAll] at hscoped
    have hfirst : GroupBody U [stm] := ⟨fun x hx => hbody.binds x (by simp_all),
      fun pattern op h => hbody.inner pattern op (by simp_all), fun name type array is h =>
        hbody.arrays name type array is (by simp_all)⟩
    refine (code_leads N S hbound henv hfirst hscoped.1).bind fun (first, mid) ⟨V, hV, hcode, hmid⟩ => ?_
    have hbound' : ∀ x, scopeWith stm.binds bound x → V x := by
      rintro x (hx | hx)
      · exact hV ▸ hbody.binds x (by simp [hx])
      · exact hV ▸ hbound x hx
    have hrest : GroupBody V stms :=
      ⟨fun x hx => hV ▸ hbody.binds x (by rw [List.flatMap_cons]; exact List.mem_append_right _ hx),
      fun pattern op h => hV ▸ hbody.inner pattern op (List.mem_cons_of_mem _ h), fun name type array is h =>
        hbody.arrays name type array is (List.mem_cons_of_mem _ h)⟩
    refine (codeAll_leads (N.of_scalar hV) hmid hbound' (fun x hx => hV ▸ henv x hx) hrest hscoped.2).bind
      fun (rest, inner) ⟨W, hW, hcodes, hinner⟩ => .pure ⟨W, hW.trans hV, .cons hcode hcodes, hinner⟩

theorem groupBody_leads (N : NewNames U n) (S : scope.Fits U bound) (hbound : ∀ x, bound x → U x)
    (henv : ∀ x, setting.env.HasName x → U x) {stms : List BodyStm} (hbody : GroupBody U stms)
    (hscoped : BodyStm.ScopedAll bound stms) :
    Yields setting n (BodyStm.groupBody scope stms) fun (code, inner) =>
      ∃ V : Common, V.scalar = U.scalar ∧ Leads U V code ∧ ∃ bound', inner.Fits V bound' :=
  (codeAll_leads N S hbound henv hbody hscoped).bind fun _ ⟨V, hV, hcode, hinner⟩ => .pure ⟨V, hV, .block hcode, hinner⟩

/-! ### Results -/

/-- Where the threads agree on no array, storing is quiet. -/
theorem array_quiet_withoutArrays (scope : BodyScope) (name : Ident) :
    Yields setting n (scope.array name) (ArrayInfo.Quiet U.withoutArrays) :=
  array_quiet fun _ _ _ h => h

theorem storeOfGroup_uniform (N : NewNames U n) (L : scope.launch.Fits U)
    (hshapes : ∀ name a, scope.kernelArray? name = some a → ∀ d ∈ a.shape, d.Over U) (indices : List Exp)
    {dest : ArrayInfo} (hdest : dest.Quiet U) (value : Operand) :
    Yields setting n (scope.storeOfGroup indices dest value) (Uniform U) := by
  unfold BodyScope.storeOfGroup
  split
  · rename_i source hsource
    obtain ⟨hsource, -⟩ := Option.filter_eq_some_iff.mp hsource
    have hlength : source.length.Over U := by
      cases value with
      | const v => cases hsource
      | var name => exact over_product (hshapes name source hsource)
    refine Yields.check.bind fun _ _ => ?_
    refine (Yields.lift (coverNumbers_uniform N L hlength)).bind fun (i, nest) hnest => ?_
    refine (Yields.lift (N.fresh_own (by decide))).bind fun v hv => .pure (hnest _ ?_)
    exact moveElement_quiet hdest hv _ _
  · exact (store_quiet N scope hdest _ _).bind fun code hcode => .pure (.quiet (.when hcode))

theorem assembleTile_uniform (N : NewNames U n) (L : scope.launch.Fits U) (indices : List Exp) {dest : ArrayInfo}
    (hdest : dest.Quiet U) {tiles : List (Operand × Operand)} (htiles : ∀ t ∈ tiles, ∀ x ∈ t.2.vars, U x)
    (array : Ident) : Yields setting n (scope.assembleTile indices dest tiles array) (Uniform U) := by
  have found : Yields setting n (scope.array array) fun _ => True := by
    refine Yields.bind (P := fun _ => True) ?_ fun _ _ => Yields.require.imp fun _ _ => trivial
    unfold BodyScope.array?
    split
    · exact .pure trivial
    · exact Yields.globalArray?.imp fun _ _ => trivial
  refine Yields.check.bind fun _ _ => found.bind fun source _ => ?_
  refine (Yields.lift (N.freshFor_own (by decide) _)).bind fun ids hids => ?_
  refine (Yields.lift (N.fresh_own (by decide))).bind fun flat hflat => ?_
  refine (Yields.lift (N.fresh_own (by decide))).bind fun v hv => ?_
  refine (Yields.lift (coverSpace_uniform N L _ ?_ ?_)).bind fun nest hnest => .pure (hnest _ (.when ?_))
  · intro x hx
    rcases List.mem_cons.mp hx with rfl | hx
    · exact hflat
    · obtain ⟨d, hd, rfl⟩ := List.mem_map.mp hx
      obtain ⟨⟨i, tile⟩, hmem, rfl⟩ := List.mem_map.mp hd
      exact hids i (List.of_mem_zip hmem).1
  · intro x hx
    obtain ⟨d, hd, hx⟩ := List.mem_flatMap.mp hx
    obtain ⟨⟨i, tile⟩, hmem, rfl⟩ := List.mem_map.mp hd
    exact htiles tile (List.of_mem_zip hmem).2 x hx
  · exact moveElement_quiet hdest hv _ _

/-- Storing what a group has made is uniform. After it the threads need not agree on their own arrays. -/
theorem groupResults_uniform (N : NewNames U n) (S : scope.Fits U bound) (indices : List Exp) {results : BoundResults}
    (hresults : ∀ r ∈ results, ∀ x ∈ r.2.vars, U x) :
    Yields setting n (scope.groupResults indices results) (Uniform U.withoutArrays) := by
  have N' : NewNames U.withoutArrays n := N.of_scalar rfl
  have L' : scope.launch.Fits U.withoutArrays := S.launch.of_scalar rfl
  refine (Yields.mapM (Q := Uniform U.withoutArrays) ?_).bind fun code hcode => .pure (.block hcode)
  rintro ⟨p, result⟩ hmem
  refine (array_quiet_withoutArrays (U := U) scope p.name).bind fun dest hdest => ?_
  cases result with
  | returns value =>
    exact storeOfGroup_uniform N' L' (fun x a h d hd => (S.shapes x a h d hd).of_scalar rfl) indices hdest value
  | tile tiles array =>
    refine assembleTile_uniform N' L' indices hdest (fun t ht x hx => hresults _ hmem x ?_) array
    exact List.mem_flatMap.mpr ⟨t, ht, List.mem_append_right _ hx⟩
  | write => exact .limitation
  | concat => exact .limitation

end
end SegKernel
