import SegKernel.Proofs.Execution.Arriving
import SegKernel.Proofs.Execution.Turns
import SegKernel.Proofs.Hoisting.Launches
import SegKernel.Proofs.Maps.Launches
import SegKernel.Proofs.Races.Checking

/-! Reads whose indices are tested. Whatever the indices are, such a read does not leave its array: a thread gets the
    element, or zero if there is none. This does not depend on what the variable of the thread held before, so it is so
    wherever and however often a run comes to the read, as long as the thread finds the array as it was declared. -/

namespace SegKernel
open Exp

/-- What a read gives whose indices are tested: the element at the row-major position of the indices, or zero. -/
def Buffer.elementOrZero (b : Buffer) (type : ScalarType) (extents indices : List Int) : Value :=
  if Inside extents indices then .ofBits type (b.bits.getD (rowMajor extents indices).toNat 0) else .zero type

/-- A thread finds an array as it was declared: its extents have values of which 64 bits can hold the product, and
    there are as many elements. -/
structure GroupState.Finds (s : GroupState) (ctx : GroupContext) (t : Nat) (a : ArrayInfo) (es : List Int)
    (b : Buffer) :
    Prop where
  buffer : s.buffer? t a.view = some b
  type : b.type.bitWidth = a.view.type.bitWidth
  extents : List.Forall₂ (IsInt (s.scope ctx t)) a.shape es
  fits : Fits es.prod
  length : (b.bits.size : Int) = es.prod

/-- A thread that sees the variables of a host finds the arrays of the host, if they have the declared lengths. -/
theorem GroupState.finds_host {s : GroupState} {ctx : GroupContext} {t : Nat} {H : Surroundings} {array : Ident}
    {type : ScalarType} {shape : List Operand} {es : List Int} {b : Buffer} (hsees : H.scope.Le (s.scope ctx t))
    (hshape : List.Forall₂ (IsInt H.scope) (shape.map Operand.toExp) es) (hfits : Fits es.prod)
    (hb : s.global[array]? = some b) (htype : b.type = type) (hlength : (b.bits.size : Int) = es.prod) :
    s.Finds ctx t ⟨⟨array, type, .global, false⟩, shape.map Operand.toExp⟩ es b :=
  ⟨hb, congrArg ScalarType.bitWidth htype, hshape.imp fun _ _ h => h.mono hsees, hfits, hlength⟩

/-- A thread finds an array that is laid out as its extents say. -/
theorem GroupState.finds_of_layout {s : GroupState} {ctx : GroupContext} {t : Nat} {a : ArrayInfo} {ds : List Nat}
    (hlayout : s.layout? t a.view = some (a.view.type, ds.prod))
    (hshape : List.Forall₂ (IsInt (s.scope ctx t)) a.shape (ints ds)) (hfits : Fits ds.prod) :
    ∃ b, s.Finds ctx t a (ints ds) b := by
  obtain ⟨b, hb, hsame⟩ := Option.map_eq_some_iff.mp hlayout
  obtain ⟨htype, hsize⟩ := Prod.mk.inj hsame
  exact ⟨b, hb, congrArg ScalarType.bitWidth htype, hshape, prod_ints ds ▸ hfits, by rw [hsize, prod_ints]⟩

/-- A thread that finds an array finds it later too, if its extents have kept their values and, where the thread has
    the array for itself, it is laid out as before. -/
theorem GroupState.Finds.leaves {s r : GroupState} {ctx : GroupContext} {t : Nat} {a : ArrayInfo} {es : List Int}
    {b : Buffer} {K L : Ident → Prop} (h : s.Finds ctx t a es b) (hleaves : s.Leaves K L r)
    (hshape : ∀ x ∈ a.shape, ∀ y ∈ x.occurrences, K y) (hown : a.view.space = .thread → L a.view.array) :
    ∃ b', r.Finds ctx t a es b' := by
  have hlayout := hleaves.layouts t a.view b.layout hown (by rw [GroupState.layout?, h.buffer, Option.map_some])
  obtain ⟨b', hbuffer, hsame⟩ := Option.map_eq_some_iff.mp hlayout
  obtain ⟨htype, hsize⟩ := Prod.mk.inj hsame
  exact ⟨b', hbuffer, htype ▸ h.type, Solo.isInts_congr h.extents fun x hx y hy =>
    hleaves.scope ctx (hshape x hx y hy), h.fits,
    hsize ▸ h.length⟩

/-- Some threads have read values into a variable, and nothing else has changed but the record of accesses. -/
structure GroupState.ReadInto (s s' : GroupState) (active : List Nat) (name : Ident) (v : Nat → Value) : Prop where
  memory : s'.store = s.store
  stats : s'.stats = s.stats
  values : ∀ t ∈ active, s'.thread t = (s.thread t).bind name (v t)
  others : ∀ t, t ∉ active → s'.thread t = s.thread t

/-- Indices inside the extents of an array are those of one of its elements. -/
theorem Buffer.load_of_inside {b : Buffer} {view : View} {es is : List Int}
    (htype : b.type.bitWidth = view.type.bitWidth) (hfits : Fits es.prod) (hlength : (b.bits.size : Int) = es.prod)
    (hin : Inside es is) :
    b.load view (Int64.ofInt (rowMajor es is)) = .ok (b.elementOrZero view.type es is) := by
  have hbounds := hin.rowMajor_bounds
  have hint : (Int64.ofInt (rowMajor es is)).toInt = rowMajor es is := toInt_ofInt_of_fits (by unfold Fits at *; omega)
  unfold load position elementOrZero
  rw [if_neg (fun h => h htype), hint, if_pos ⟨hbounds.1, hlength ▸ hbounds.2⟩, if_pos hin]
  rfl

namespace Solo
variable {E : Solo} {th : Thread} {ws : List Write} {Q : Claim} {name : Ident} {a : ArrayInfo} {es iv : List Int}
  {v : Value} {is : List Exp}

/-- A thread that tests its indices gets the element, or zero, and reads nothing else. -/
theorem ensures_testedRead (hshape : List.Forall₂ (IsInt (E.scope th)) a.shape es)
    (his : List.Forall₂ (IsInt (E.scope th)) is iv) (hrank : a.shape.length = is.length)
    (hself : ∀ x ∈ a.shape ++ is, name ∉ x.occurrences) (hfits : Fits es.prod)
    (hload : Inside es iv → E.Loads a.view (Int64.ofInt (rowMajor es iv)) v (th.bind name (.zero a.view.type)) ws)
    (htype : v.type = a.view.type) (hout : ¬Inside es iv → v = .zero a.view.type) (h : Q (th.bind name v) ws) :
    E.Ensures (.block [.declare name a.view.type false,
      .when (indicesInBounds a.shape is) (.read name a.view (.flatten a.shape is))]) Q th ws := by
  rw [ensures_block, ensuresAll_cons, ensuresAll_singleton]
  refine ensures_declare ?_
  have scope : E.scope (th.bind name (.zero a.view.type)) = (E.scope th).set name (.zero a.view.type) :=
    funext fun y => th.scope_bind E.ctx.captured name _ y
  have hshape' : List.Forall₂ (IsInt (E.scope (th.bind name (.zero a.view.type)))) a.shape es :=
    scope ▸ isInts_set_of_not_mem hshape fun x hx => hself x (List.mem_append_left _ hx)
  have his' : List.Forall₂ (IsInt (E.scope (th.bind name (.zero a.view.type)))) is iv :=
    scope ▸ isInts_set_of_not_mem his fun x hx => hself x (List.mem_append_right _ hx)
  have hlength : es.length = iv.length := hshape.length_eq.symm.trans (hrank.trans his.length_eq)
  refine ensures_when (isBool_indicesInBounds hshape' his' hlength) (fun hin => ?_) fun hnot => ?_
  · have hin := of_decide_eq_true hin
    have hindex : (Exp.flatten a.shape is).evalInt (E.scope (th.bind name (.zero a.view.type))) =
        .ok (Int64.ofInt (rowMajor es iv)) := by
      rw [Exp.evalInt, (isInt_flatten hshape' his' hin hfits).eval]
    rw [Ensures]
    refine ⟨_, v, hindex, hload hin, ⟨.zero a.view.type, by simp [Thread.bind], by simp [htype]⟩, ?_⟩
    rwa [Thread.bind_bind]
  · rwa [← hout (of_decide_eq_false hnot)]

end Solo

namespace Run
variable {ctx : GroupContext} {s : GroupState} {active : List Nat} {name : Ident} {a : ArrayInfo} {is : List Exp}
  {es iv : Nat → List Int} {b : Nat → Buffer}

/-- Without checks for races, the threads read their elements. -/
theorem exec_testedRead (hoff : ctx.checkRaces = false) (hnodup : active.Nodup)
    (hsize : ∀ t ∈ active, t < s.threads.size) (hfinds : ∀ t ∈ active, s.Finds ctx t a (es t) (b t))
    (his : ∀ t ∈ active, List.Forall₂ (IsInt (s.scope ctx t)) is (iv t)) (hrank : a.shape.length = is.length)
    (hself : ∀ x ∈ a.shape ++ is, name ∉ x.occurrences) :
    ∃ s', exec ctx (.block [.declare name a.view.type false,
        .when (indicesInBounds a.shape is) (.read name a.view (.flatten a.shape is))]) active s = .ok () s' ∧
      s.ReadInto s' active name fun t => (b t).elementOrZero a.view.type (es t) (iv t) := by
  let C : Crowd := ⟨ctx, s.store, fun _ _ => False, s.threads.size, fun h => absurd (hoff.symm.trans h) (by decide)⟩
  let v (t : Nat) : Value := (b t).elementOrZero a.view.type (es t) (iv t)
  have reached : C.Reached [] s := ⟨rfl, nofun, rfl, fun h => absurd (hoff.symm.trans h) (by decide)⟩
  have htype : ∀ t, (v t).type = a.view.type := by
    intro t
    show (Buffer.elementOrZero _ _ _ _).type = _
    unfold Buffer.elementOrZero
    split
    · exact Value.type_ofBits _ _
    · exact Value.type_zero _
  have loads : ∀ t ∈ active, Inside (es t) (iv t) →
      (C.solo t).Loads a.view (Int64.ofInt (rowMajor (es t) (iv t))) (v t)
        ((s.thread t).bind name (.zero a.view.type)) [] := by
    intro t ht hin
    obtain ⟨hbuffer, hwidth, -, hfits, hlength⟩ := hfinds t ht
    have hload := Buffer.load_of_inside hwidth hfits hlength hin
    have memory : a.view.space ≠ .thread → (s.store.puts []).load a.view (Int64.ofInt (rowMajor (es t) (iv t))) =
      .ok (v t) := by
      intro hspace
      rw [GroupState.buffer?_of_shared hspace] at hbuffer
      unfold Store.load
      rw [Store.puts_nil, hbuffer]
      exact hload
    unfold Solo.Loads
    cases hspace : a.view.space with
    | thread =>
      unfold GroupState.buffer? at hbuffer
      rw [hspace] at hbuffer
      exact ⟨b t, hbuffer, hload⟩
    | _ => exact ⟨fun _ _ => id, memory (by simp [hspace])⟩
  obtain ⟨s', hexec, hreached, hwrites, hend, hframe⟩ := Crowd.Meets.exec (C := C) _ active
    (fun t th ws => th = (s.thread t).bind name (v t) ∧ ws = []) hnodup hsize [] s reached fun t ht =>
      Solo.ensures_testedRead (v := v t) (hfinds t ht).extents (his t ht) hrank hself (hfinds t ht).fits
        (loads t ht) (htype t)
        (fun hout => if_neg hout) ⟨rfl, rfl⟩
  refine ⟨s', hexec, ?_, hframe.stats, fun t ht => (hend t ht).1, hframe.others⟩
  -- A thread that had written something would be among the active ones, none of which has.
  have none : trace writesAt ctx _ active s = [] := List.eq_nil_iff_forall_not_mem.mpr fun e he => by
    have hown := (hend e.1 (hwrites e he)).2
    refine List.not_mem_nil (hown ▸ ?_ : e.2 ∈ [])
    exact List.mem_map.mpr ⟨e, List.mem_filter.mpr ⟨he, beq_self_eq_true e.1⟩, rfl⟩
  rw [hreached.store, List.nil_append, none]
  rfl

/-- The code of a statement that reads an element, where indices are tested. Whatever values the indices have, and
    whatever the variable that gets the element held before, each thread that runs it gets the element at its indices,
    or zero if one of them lies outside of its extent, and nothing else changes. Only a check for races can stop it.
    -/
theorem exec_index {nestedCode : BodyStm.NestedCode} {scope scope' : BodyScope} {type : ScalarType} {array : Ident}
    {setting : Setting} {σ σ' : Session} {code : Stmt}
    (hcode : (BodyStm.index name type array is).code nestedCode scope setting σ = .ok ((code, scope'), σ'))
    (htested : setting.config.checkIndices = true) (ha : scope.array array setting σ = .ok (a, σ))
    (hnodup : active.Nodup) (hsize : ∀ t ∈ active, t < s.threads.size) (hlog : Logged ctx s)
    (hfinds : ∀ t ∈ active, s.Finds ctx t a (es t) (b t))
    (his : ∀ t ∈ active, List.Forall₂ (IsInt (s.scope ctx t)) is (iv t))
    (hself : ∀ x ∈ a.shape ++ is, name ∉ x.occurrences) :
    (∃ s', exec ctx code active s = .ok () s' ∧
      s.ReadInto s' active name fun t => (b t).elementOrZero type (es t) (iv t)) ∨
      ctx.checkRaces = true ∧ ∃ fault s', exec ctx code active s = .error fault s' ∧ fault.IsRace := by
  simp only [BodyStm.code, Lowering.bind_eq_ok, Lowering.pure_eq_ok] at hcode
  obtain ⟨code', σ₁, hread, he, -⟩ := hcode
  obtain ⟨rfl, rfl⟩ := Prod.mk.inj he
  obtain ⟨-, a', ha', hrank, rfl, rfl⟩ := Solo.readCode_eq_ok hread
  obtain rfl : a' = a := congrArg Prod.fst (Except.ok.inj (ha'.symm.trans ha))
  rw [htested, if_pos rfl]
  cases hchecks : ctx.checkRaces with
  | false => exact Or.inl (exec_testedRead hchecks hnodup hsize hfinds his hrank hself)
  | true =>
    have hunchecked : (ctx.checking false).checkRaces = false := rfl
    -- A run with checks follows the one without them, up to a race.
    obtain ⟨s₁, hexec, hread⟩ := exec_testedRead hunchecked hnodup hsize
      (fun t ht => ⟨(hfinds t ht).buffer, (hfinds t ht).type, (hfinds t ht).extents, (hfinds t ht).fits,
        (hfinds t ht).length⟩)
      his hrank hself
    obtain ⟨es₀, hes₀⟩ := hlog hchecks
    obtain ⟨m', -, hfollows⟩ | ⟨-, hrace⟩ := exec_checks hunchecked _ active es₀ s.races s hes₀
    · rw [hexec, GroupContext.checking_checking hchecks] at hfollows
      exact Or.inl ⟨_, hfollows, hread.memory, hread.stats, hread.values, hread.others⟩
    · rw [GroupContext.checking_checking hchecks] at hrace
      exact Or.inr ⟨rfl, hrace⟩

/-- Wherever a run comes to a statement that reads an element, where indices are tested, in whichever round of a loop,
    the threads that come get the elements at their indices, or zero where an index lies outside of its extent, and
    nothing else changes. Only a check for races can stop them. At the start of the run the threads have to find the
    array as it was declared, and the code of the run gives no variable of its extents another value. -/
theorem index_reads_wherever {nestedCode : BodyStm.NestedCode} {scope scope' : BodyScope} {type : ScalarType}
    {array : Ident} {setting : Setting} {σ σ' : Session} {code whole : Stmt} {live : List Nat} {r : GroupState}
    (hcode : (BodyStm.index name type array is).code nestedCode scope setting σ = .ok ((code, scope'), σ'))
    (htested : setting.config.checkIndices = true) (ha : scope.array array setting σ = .ok (a, σ))
    (hself : ∀ x ∈ a.shape ++ is, name ∉ x.occurrences)
    (hshape : ∀ x ∈ a.shape, ∀ y ∈ x.occurrences, y ∉ whole.declared ∧ y ∉ whole.assigned)
    (hown : a.view.space = .thread → a.view.array ∉ whole.declared) (hnodup : active.Nodup)
    (hsize : ∀ t ∈ active, t < s.threads.size) (hlog : Logged ctx s)
    (hfinds : ∀ t ∈ active, ∃ b, s.Finds ctx t a (es t) b) (hcomes : Comes ctx code whole active s live r)
    (his : ∀ t ∈ live, List.Forall₂ (IsInt (r.scope ctx t)) is (iv t)) :
    ∃ b : Nat → Buffer, (∀ t ∈ live, r.Finds ctx t a (es t) (b t)) ∧
      ((∃ r', exec ctx code live r = .ok () r' ∧ r.ReadInto r' live name fun t =>
        (b t).elementOrZero type (es t) (iv t)) ∨
        ctx.checkRaces = true ∧ ∃ fault r', exec ctx code live r = .error fault r' ∧ fault.IsRace) := by
  let K (y : Ident) : Prop := ∃ x ∈ a.shape, y ∈ x.occurrences
  let L (x : Ident) : Prop := a.view.space = .thread ∧ x = a.view.array
  have hwhole : whole.Leaves K L := {
    declared := fun y hy => ⟨fun ⟨x, hx, hyx⟩ => (hshape x hx y hyx).1 hy, fun hL => hown hL.1 (hL.2 ▸ hy)⟩
    assigned := fun y hy ⟨x, hx, hyx⟩ => (hshape x hx y hyx).2 hy }
  have hleaves := hcomes.leaves hwhole
  have hlive := hcomes.sublist
  have hlog' := hcomes.keeps (fun _ _ _ _ => exec_logged) (fun _ _ _ _ => id) hlog
  let b (t : Nat) : Buffer := (r.buffer? t a.view).getD ⟨type, #[]⟩
  have found : ∀ t ∈ live, r.Finds ctx t a (es t) (b t) := by
    intro t ht
    obtain ⟨b₀, hb₀⟩ := hfinds t (hlive.subset ht)
    obtain ⟨b', hb'⟩ := hb₀.leaves hleaves (fun x hx y hy => ⟨x, hx, hy⟩) fun hspace => ⟨hspace, rfl⟩
    have : b t = b' := by
      show Option.getD _ _ = b'
      rw [hb'.buffer, Option.getD_some]
    exact this ▸ hb'
  exact ⟨b, found, exec_index hcode htested ha (hlive.nodup hnodup)
    (fun t ht => hleaves.size ▸ hsize t (hlive.subset ht))
    hlog' found his hself⟩

/-! ### Arrays of a kernel -/

/-- Each thread that declares an array of its own has it, and keeps it when the others declare theirs. -/
theorem layout_of_declareOwn {array : Ident} {type : ScalarType} {n : Nat} {t : Nat} (hfits : Fits n) :
    ∀ {active : List Nat} {s s' : GroupState},
      (active.forM fun t => declareArray ctx t array type (.int (Int64.ofNat n)) .thread) s = .ok () s' →
        t < s.threads.size →
      t ∈ active ∨ s.layout? t ⟨array, type, .thread, false⟩ = some (type, n) →
        s'.layout? t ⟨array, type, .thread, false⟩ = some (type, n)
  | [], s, s', h, _, hlaid => by
    obtain ⟨-, rfl⟩ := pure_eq_ok.mp h
    exact hlaid.resolve_left List.not_mem_nil
  | u :: us, s, s', h, ht, hlaid => by
    obtain ⟨_, s₁, hfirst, hrest⟩ := bind_eq_ok.mp (forM_cons u us _ ▸ h)
    obtain ⟨i, m, hi, hm, ⟨hspace, -⟩ | ⟨-, rfl⟩⟩ := declareArray_ok hfirst
    · cases hspace
    obtain rfl : Int64.ofNat n = i := Except.ok.inj hi
    obtain rfl : n = m := by
      rw [arrayLength, toInt_ofNat_of_fits hfits, if_neg (by omega), Int.toNat_natCast] at hm
      exact Except.ok.inj hm
    refine layout_of_declareOwn hfits hrest (by rwa [GroupState.declareOwn, GroupState.size_modifyThread]) ?_
    show t ∈ us ∨ (((s.declareOwn u array type n).thread t).arrays[array]?).map Buffer.layout = some (type, n)
    rw [GroupState.declareOwn, GroupState.thread_modifyThread]
    by_cases hu : t = u
    · refine Or.inr ?_
      rw [if_pos ⟨hu, hu ▸ ht⟩]
      simp [Buffer.layout, Buffer.zeroed]
    · rw [if_neg fun h => hu h.1]
      exact hlaid.imp (fun h => (List.mem_cons.mp h).resolve_left hu) id

/-- Each thread that has made an array of given elements finds it. -/
theorem finds_literal {array : Ident} {type : ScalarType} {elems : List Operand} {s s' : GroupState} {t : Nat}
    (h : exec ctx (BodyStm.arrayCode array type elems).1 active s = .ok () s') (ht : t ∈ active)
    (hsize : t < s.threads.size) (hfits : Fits elems.length) :
    ∃ b, s'.Finds ctx t (BodyStm.arrayCode array type elems).2 [(elems.length : Int)] b := by
  have hne : active ≠ [] := List.ne_nil_of_mem ht
  obtain ⟨_, s₁, hdeclare, hwrites⟩ := bind_eq_ok.mp (execAll_cons _ _ ▸ exec_block _ ▸ h)
  rw [exec, if_neg (by simpa using hne)] at hdeclare
  have hlaid := layout_of_declareOwn hfits hdeclare hsize (Or.inl ht)
  -- The elements are written afterwards, which changes no layout.
  have hleaves : s₁.Leaves (fun _ => False) (fun _ => True) s' := execAll_leaves (fun stmt hstmt => by
    obtain ⟨i, hi, rfl⟩ := List.mem_mapIdx.mp hstmt
    exact ⟨nofun, nofun⟩) hwrites
  have hint : IsInt (s'.scope ctx t) (.int (Int64.ofNat elems.length)) elems.length := by
    have known : IsInt (s'.scope ctx t) (.int (Int64.ofNat elems.length)) _ := .int _
    rwa [toInt_ofNat_of_fits hfits] at known
  show ∃ b, s'.Finds ctx t _ (ints [elems.length]) b
  refine GroupState.finds_of_layout ?_ (.cons hint .nil) (by rwa [List.prod_singleton])
  rw [List.prod_singleton]
  exact hleaves.layouts t _ _ (fun _ => trivial) hlaid

/-- Threads that have made an array of given elements read it in whatever code they run afterwards. -/
theorem index_reads_literal {nestedCode : BodyStm.NestedCode} {scope scope' : BodyScope} {type : ScalarType}
    {array : Ident} {elems : List Operand} {setting : Setting} {σ σ' : Session} {code whole : Stmt} {live : List Nat}
    {s₁ r : GroupState}
    (hcode : (BodyStm.index name type array is).code nestedCode scope setting σ = .ok ((code, scope'), σ'))
    (htested : setting.config.checkIndices = true)
    (ha : scope.kernelArray? array = some (BodyStm.arrayCode array type elems).2)
    (hself : ∀ x ∈ is, name ∉ x.occurrences) (hown : array ∉ whole.declared) (hfits : Fits elems.length)
    (hnodup : active.Nodup) (hsize : ∀ t ∈ active, t < s.threads.size) (hlog : Logged ctx s)
    (hmade : exec ctx (BodyStm.arrayCode array type elems).1 active s = .ok () s₁)
    (hcomes : Comes ctx code whole active s₁ live r)
    (his : ∀ t ∈ live, List.Forall₂ (IsInt (r.scope ctx t)) is (iv t)) :
    ∃ b : Nat → Buffer, (∀ t ∈ live,
      r.Finds ctx t (BodyStm.arrayCode array type elems).2 [(elems.length : Int)] (b t)) ∧
      ((∃ r', exec ctx code live r = .ok () r' ∧
          r.ReadInto r' live name fun t => (b t).elementOrZero type [(elems.length : Int)] (iv t)) ∨
        ctx.checkRaces = true ∧ ∃ fault r', exec ctx code live r = .error fault r' ∧ fault.IsRace) := by
  have harray : scope.array array setting σ = .ok ((BodyStm.arrayCode array type elems).2, σ) := by
    unfold BodyScope.array BodyScope.array?
    rw [ha]
    rfl
  have hleaves : s.Leaves (fun _ => False) (fun _ => False) s₁ := exec_leaves ⟨fun _ _ => ⟨id, id⟩, fun _ _ => id⟩ hmade
  refine index_reads_wherever hcode htested harray ?_ ?_ (fun _ => hown) hnodup
    (fun t ht => hleaves.size ▸ hsize t ht) (exec_logged hlog hmade)
    (fun t ht => finds_literal hmade ht (hsize t ht) hfits) hcomes his
  · intro x hx
    obtain hx | hx := List.mem_append.mp hx
    · obtain rfl := List.mem_singleton.mp hx
      exact List.not_mem_nil
    · exact hself x hx
  · intro x hx
    obtain rfl := List.mem_singleton.mp hx
    exact fun y hy => absurd hy List.not_mem_nil

/-- An array of the device, or one that the threads of a group share. The host knows its extents. -/
structure Given (ctx : GroupContext) (arrays : List SharedArray) (memory : Memory) (a : ArrayInfo) (ds : List Nat) :
    Prop where
  extents : List.Forall₂ (IsInt (ctx.captured[·]?)) a.shape (ints ds)
  fits : Fits ds.prod
  laid : a.view.space = .global ∧ memory[a.view.array]?.map Buffer.layout = some (a.view.type, ds.prod) ∨
    a.view.space = .shared ∧ ⟨a.view.array, a.view.type, .product a.shape⟩ ∈ arrays

/-- Once a group has its shared arrays, its threads find each of them, and those of the device. -/
theorem Given.finds {arrays : List SharedArray} {s : GroupState} {shared : Memory} {ds : List Nat}
    (h : Given ctx arrays s.global a ds) (hstocks : Stocks ctx arrays s.shared shared)
    (hnew : ∀ a ∈ arrays, s.shared[a.name]? = none) {t : Nat} (ht : s.thread t = {}) :
    ∃ b, { s with shared }.Finds ctx t a (ints ds) b := by
  have hlaid : GroupState.layout? { s with shared } t a.view = some (a.view.type, ds.prod) := by
    unfold GroupState.layout? GroupState.buffer?
    obtain ⟨hspace, hlayout⟩ | ⟨hspace, hmem⟩ := h.laid
    · rwa [hspace]
    · rw [hspace]
      obtain ⟨i, hi, htoInt⟩ := (isInt_product (List.forall₂_map_right_iff.mp h.extents) h.fits).evalInt
      have hlength : Length ctx ⟨a.view.array, a.view.type, .product a.shape⟩ ds.prod := by
        refine ⟨i, hi, ?_⟩
        rw [arrayLength, htoInt, if_neg (by omega), Int.toNat_natCast]
      have hnone := hnew _ hmem
      show (shared[a.view.array]?).map Buffer.layout = _
      rw [hstocks.new _ hmem _ hlength hnone]
      simp [Buffer.layout, Buffer.zeroed]
  refine GroupState.finds_of_layout hlaid (Solo.isInts_congr h.extents fun x _ y _ => ?_) h.fits
  have hnew : (s.thread t).scalars[y]? = none := by
    rw [ht]
    exact Std.ExtTreeMap.getElem?_empty
  show (s.thread t).scope ctx.captured y = ctx.captured[y]?
  rw [Thread.scope, hnew]

/-- In a group that runs the body of a kernel with its shared arrays in front, threads that come to a statement that
    reads an element, where indices are tested, get the elements at their indices, or zero where an index lies outside
    of its extent. They do so for each array of the device or of the group whose extents the host knows and the body
    does not change. -/
theorem index_reads_in_group {nestedCode : BodyStm.NestedCode} {scope scope' : BodyScope} {type : ScalarType}
    {array : Ident} {setting : Setting} {σ σ' : Session} {code body hoisted : Stmt} {ds : List Nat}
    {schedule : Schedule} {p : Device.Progress} {live : List Nat} {r : GroupState}
    (hcode : (BodyStm.index name type array is).code nestedCode scope setting σ = .ok ((code, scope'), σ'))
    (htested : setting.config.checkIndices = true) (ha : scope.array array setting σ = .ok (a, σ))
    (hself : ∀ x ∈ a.shape ++ is, name ∉ x.occurrences) (hhoist : body.hoist = .ok hoisted)
    (hdistinct : (body.sharedArrays.map (·.name)).Nodup) (hlengths : ∀ a ∈ body.sharedArrays, ∃ n, Length ctx a n)
    (hgiven : Given ctx body.sharedArrays p.global a ds)
    (hshape : ∀ x ∈ a.shape, ∀ y ∈ x.occurrences, y ∉ hoisted.declared ∧ y ∉ hoisted.assigned)
    (hcomes : Comes ctx code hoisted (schedule.order ctx.groupSize.toInt.toNat) (Device.groupStart ctx p) live r)
    (his : ∀ t ∈ live, List.Forall₂ (IsInt (r.scope ctx t)) is (iv t)) :
    ∃ b : Nat → Buffer, (∀ t ∈ live, r.Finds ctx t a (ints ds) (b t)) ∧
      ((∃ r', exec ctx code live r = .ok () r' ∧ r.ReadInto r' live name fun t =>
        (b t).elementOrZero type (ints ds) (iv t)) ∨
        ctx.checkRaces = true ∧ ∃ fault r', exec ctx code live r = .error fault r' ∧ fault.IsRace) := by
  by_cases hlive : live = []
  · subst hlive
    exact ⟨fun _ => ⟨type, #[]⟩, nofun, Or.inl ⟨r, by rw [exec_nil]; rfl, rfl, rfl, nofun, fun _ _ => rfl⟩⟩
  have hne : schedule.order ctx.groupSize.toInt.toNat ≠ [] := fun h => hlive (List.sublist_nil.mp (h ▸ hcomes.sublist))
  -- The statement stands behind the declarations, which are no part of it.
  obtain ⟨rest, hpieces⟩ : ∃ rest, code.pieces = .declare name type false :: rest := by
    simp only [BodyStm.code, Lowering.bind_eq_ok, Lowering.pure_eq_ok] at hcode
    obtain ⟨code', σ₁, hread, he, -⟩ := hcode
    obtain ⟨rfl, -⟩ := Prod.mk.inj he
    obtain ⟨-, a', -, -, -, rfl⟩ := Solo.readCode_eq_ok hread
    rw [htested, if_pos rfl, Stmt.when]
    split <;> exact ⟨_, rfl⟩
  have behind := hcomes.pieces
  rw [Stmt.pieces_hoist hhoist] at behind
  obtain ⟨s₁, hfront, hcomes⟩ := behind.after_front (fun d hd active s live r hd' => by
      obtain ⟨b, -, rfl⟩ := List.mem_map.mp hd
      cases hd'
      cases hpieces) ⟨_, rest, hpieces, fun hmem => by
      obtain ⟨b, -, hb⟩ := List.mem_map.mp hmem
      cases hb⟩
  have threads : ∀ t, (Device.groupStart ctx p).thread t = {} := GroupState.thread_of_replicate rfl
  obtain ⟨shared, hcodes, hstocks⟩ := execAll_codes hne hlengths threads
  obtain ⟨-, rfl⟩ := EStateM.Result.ok.inj (hcodes.symm.trans hfront)
  have within : ∀ {f : Stmt → List Ident}, f .skip = [] → (∀ ss, f (.seq ss) = ss.flatMap f) →
      ∀ y ∈ f (.seq body.dropShared.pieces), y ∈ f hoisted := by
    intro f hskip hseq y hy
    rw [← Stmt.collect_pieces hskip hseq hoisted, Stmt.pieces_hoist hhoist, List.flatMap_append]
    exact List.mem_append_right _ (hseq _ ▸ hy)
  refine index_reads_wherever hcode htested ha hself (fun x hx y hy => ?_) (fun hspace => ?_) ?_
    (fun t ht => ?_) ?_ (fun t _ => hgiven.finds (hstocks hdistinct) (fun _ _ => rfl) (threads t)) hcomes his
  · exact ⟨fun h => (hshape x hx y hy).1 (within rfl (fun _ => Stmt.declaredAll_eq) y h),
      fun h => (hshape x hx y hy).2 (within rfl Stmt.assignedAll_eq y h)⟩
  · obtain ⟨hglobal, -⟩ | ⟨hshared, -⟩ := hgiven.laid
    · exact absurd (hglobal.symm.trans hspace) (by decide)
    · exact absurd (hshared.symm.trans hspace) (by decide)
  · exact schedule.nodup_order _
  · simpa [Device.groupStart] using (schedule.mem_order _ t).mp ht
  · exact fun _ => ⟨[], .start⟩

/-- Two threads look up the elements of an array of four, one after another. -/
def lookupEnv : HostEnv where
  arrays := ({} : Table _).insert "xs" (.i32, [.var "n"])
  scalars := ({} : Table _).insert "n" .i64

def lookupStm : BodyStm := .index "x" .i32 "xs" [.var "i"]

def lookupScope : BodyScope := ⟨((Launch.start (.int 1) (.int 2)).run 0).1.1, [], none⟩

def lookupSetting : Setting := ⟨{ checkIndices := true }, lookupEnv⟩

def lookupContext : GroupContext where
  captured := ({} : Table Value).insert "n" (.i64 4)
  group := 0
  groupSize := 2
  numGroups := 1
  wave := 1
  loopLimit := 100
  checkRaces := false

def lookupState : GroupState where
  threads := #[{}, {}]
  global := ({} : Memory).insert "xs" (.ofValues .i32 [.i32 10, .i32 20, .i32 30, .i32 40])
  stats := {}

def lookupHost : Surroundings := ⟨lookupEnv, (lookupContext.captured[·]?), lookupState.global⟩

/-- In the fifth round there is no element, and they lose the one that they had read in the round before. -/
theorem lookup_reads_again : ∃ code r r',
    lookupStm.code BodyStm.noNested lookupScope lookupSetting {} = .ok ((code, lookupScope), {}) ∧
      Comes lookupContext code (.loop "i" (.int 5) code) [0, 1] lookupState [0, 1] r ∧
      (r.thread 1).scalars["x"]? = some (.i32 40) ∧ exec lookupContext code [0, 1] r = .ok () r' ∧
      (r'.thread 1).scalars["x"]? = some (.i32 0) := by
  let b : Buffer := .ofValues .i32 [.i32 10, .i32 20, .i32 30, .i32 40]
  obtain ⟨code, hcode, hdeclared, hassigned⟩ : ∃ code,
      lookupStm.code BodyStm.noNested lookupScope lookupSetting {} = .ok ((code, lookupScope), {}) ∧
        (Stmt.loop "i" (.int 5) code).declared = ["i", "x"] ∧ (Stmt.loop "i" (.int 5) code).assigned = ["x"] :=
    ⟨_, rfl, rfl, rfl⟩
  -- The statement is reached in the fifth round, when both threads have gone through four.
  have comes : ∃ r, Comes lookupContext code (.loop "i" (.int 5) code) [0, 1] lookupState [0, 1] r ∧
      (r.thread 1).scalars["x"]? = some (.i32 40) ∧ r.scope lookupContext 0 "i" = some (.i64 4) ∧
      r.scope lookupContext 1 "i" = some (.i64 4) := by
    obtain ⟨rfl, -⟩ := Prod.mk.inj (Prod.mk.inj (Except.ok.inj hcode)).1
    exact ⟨_, .round (k := 4) rfl rfl rfl .here, rfl, rfl, rfl⟩
  obtain ⟨r, hcomes, hbefore, hfirst, hsecond⟩ := comes
  have threads : ∀ t ∈ [0, 1], t = 0 ∨ t = 1 := by decide
  have host : lookupHost.scope "n" = some (.i64 4) := by decide +kernel
  have sees : ∀ t ∈ [0, 1], lookupHost.scope.Le (lookupState.scope lookupContext t) := by
    intro t ht x v hx
    obtain rfl : x = "n" := by
      obtain h | h := Surroundings.known_of_scope hx
      · exact (show "n" = x by simpa [lookupHost, lookupEnv] using h).symm
      · simp [lookupHost, lookupEnv] at h
    rw [← hx, host]
    obtain rfl | rfl := threads t ht <;> decide +kernel
  have extent : List.Forall₂ (IsInt lookupHost.scope) ([Operand.var "n"].map Operand.toExp) [4] :=
    .cons (IsInt.var_nat (n := 4) host (by unfold Fits; decide)) .nil
  have finds : ∀ t ∈ [0, 1], ∃ b, lookupState.Finds lookupContext t ⟨⟨"xs", .i32, .global, false⟩, [.var "n"]⟩ [4] b :=
    fun t ht => ⟨b, GroupState.finds_host (sees t ht) extent (by unfold Fits; decide) rfl rfl rfl⟩
  have indices : ∀ t ∈ [0, 1], List.Forall₂ (IsInt (r.scope lookupContext t)) [.var "i"] [4] := by
    intro t ht
    obtain rfl | rfl := threads t ht
    · exact .cons (IsInt.var_nat (n := 4) hfirst (by unfold Fits; decide)) .nil
    · exact .cons (IsInt.var_nat (n := 4) hsecond (by unfold Fits; decide)) .nil
  obtain ⟨b', -, ⟨r', hexec, hread⟩ | ⟨hchecks, -⟩⟩ := index_reads_wherever hcode rfl rfl (by decide)
    (by rw [hdeclared, hassigned]; decide) (fun h => by cases h) (by decide) (by decide) (fun h => by cases h)
      finds hcomes indices
  · refine ⟨code, r, r', hcode, hcomes, hbefore, hexec, ?_⟩
    rw [hread.values 1 (by decide)]
    have outside : (b' 1).elementOrZero .i32 [4] [4] = .i32 0 := if_neg (by decide)
    rw [outside]
    simp [Thread.bind]
  · cases hchecks

end Run

namespace Device

/-- Two threads read past the end of an array, at tested indices, once their body may have given another value to the
    name of the extent. -/
def farReads (stms : List BodyStm) : Module where
  env := {
    arrays := (({} : Table _).insert "xs" (.i32, [.var "n"])).insert "ys" (.i32, [.int 2])
    scalars := ({} : Table _).insert "n" .i64 }
  ops := [.seg [⟨"ys", .i32, [.int 2]⟩] {
    kind := .map
    grid := ⟨.thread, .int 1, .int 2, .direct⟩
    space := ⟨"flat", [("i", .int 2)]⟩
    stms := stms ++ [.index "x" .i32 "xs" [.binary .add (.var "i") (.int 9)]]
    results := [.returns (.var "x")] }]

/-- An extent is looked up where the body stands, in which a variable of the body hides the one of the host. Indices
    that the array does not have then pass the test. -/
theorem hiddenExtent_goes_wrong :
    let d : Device := {
      wave := 1
      scalars := ({} : Table _).insert "n" (.i64 4)
      global := (({} : Memory).insert "xs" (.ofValues .i32 [.i32 1, .i32 2, .i32 3, .i32 4])).insert "ys"
        (.ofValues .i32 [.i32 9, .i32 9]) }
    (∃ p, (farReads []).lower { checkIndices := true } = .ok p ∧
      (d.run p).2.global["ys"]?.map Buffer.values = some [.i32 0, .i32 0]) ∧
    ∃ p, (farReads [.compute "n" .i64 (.int 100)]).lower { checkIndices := true } = .ok p ∧
      (d.run p).1 = .error (.outOfBounds "xs" 9 4) := by
  intro d
  constructor
  · obtain ⟨p, hp, hvalues⟩ : ∃ p ∈ ((farReads []).lower { checkIndices := true }).toOption,
        (d.run p).2.global["ys"]?.map Buffer.values = some [.i32 0, .i32 0] := by decide +kernel
    exact ⟨p, ok_of_toOption hp, hvalues⟩
  · obtain ⟨p, hp, hrun⟩ : ∃ p ∈ ((farReads [.compute "n" .i64 (.int 100)]).lower { checkIndices := true }).toOption,
        (d.run p).1 = .error (.outOfBounds "xs" 9 4) := by decide +kernel
    exact ⟨p, ok_of_toOption hp, hrun⟩

end Device
end SegKernel
