import SegKernel.Proofs.Lowering.Yields
import SegKernel.Proofs.Maps.Meaning

/-! The code of a body computes what the body means. A thread that knows what the body knew before a
    statement knows afterwards what the body knows then, and all that it knew besides. -/

namespace SegKernel
open Exp

/-! ### Arrays of a thread -/

/-- An element of an array that holds values. -/
theorem Buffer.load_ofValues (view : View) {vs : List Value} {a : Int64} {i : Nat} {v : Value} (ha : a.toInt = i)
    (hv : vs[i]? = some v) (htype : v.type = view.type) : (Buffer.ofValues view.type vs).load view a = .ok v := by
  obtain ⟨hi, rfl⟩ := List.getElem?_eq_some_iff.mp hv
  have hrange : 0 ≤ a.toInt ∧ a.toInt < (vs.map Value.toBits).toArray.size := by
    simp only [List.size_toArray, List.length_map]
    omega
  have hnat : a.toInt.toNat = i := by omega
  unfold Buffer.load Buffer.position Buffer.ofValues
  rw [if_neg (by simp), if_pos hrange]
  simp only [Except.map, hnat]
  rw [← htype]
  simp [hi, Value.ofBits_toBits]

/-- Storing the next value of an array that is filled from the front. -/
theorem Buffer.put_next (type : ScalarType) (vs : List Value) (v : Value) (n : Nat) :
    (⟨type, (vs.map Value.toBits ++ List.replicate (n + 1) 0).toArray⟩ : Buffer).put vs.length v.toBits =
      ⟨type, ((vs ++ [v]).map Value.toBits ++ List.replicate n 0).toArray⟩ := by
  unfold Buffer.put
  simp [List.replicate_succ]

theorem Buffer.zeroed_eq (type : ScalarType) (n : Nat) :
    Buffer.zeroed type n = ⟨type, (List.replicate n 0).toArray⟩ := by
  simp [Buffer.zeroed]

theorem Store.buffer?_puts_of_forall_ne {m : Store} {ws : List Write} {space : Space} {array : Ident}
    (h : ∀ w ∈ ws, w.slot.space = space → w.slot.array ≠ array) :
    (m.puts ws).buffer? space array = m.buffer? space array := by
  induction ws generalizing m with
  | nil => rfl
  | cons w ws ih =>
    rw [puts_cons, ih fun w' hw' => h w' (List.mem_cons_of_mem w hw'), buffer?_put,
      if_neg fun e => h w List.mem_cons_self e.1 e.2]

/-! ### What a thread knows -/

/-- The arrays of the kernel that code sees under some names are those that the body has made. -/
def Env.MatchesOn (ρ : Env) (K : Ident → Prop) (scope : BodyScope) : Prop :=
  ∀ name, K name → scope.kernelArray? name =
    (ρ.arrays name).map fun (type, vs) => ⟨⟨name, type, .thread, false⟩, [.int (Int64.ofNat vs.length)]⟩

/-- All arrays of the kernel that code sees are those that the body has made. -/
def Env.Matches (ρ : Env) (scope : BodyScope) : Prop :=
  ∀ name, scope.kernelArray? name =
    (ρ.arrays name).map fun (type, vs) => ⟨⟨name, type, .thread, false⟩, [.int (Int64.ofNat vs.length)]⟩

theorem Env.Matches.on {ρ : Env} {scope : BodyScope} {K : Ident → Prop} (h : ρ.Matches scope) : ρ.MatchesOn K scope :=
  fun name _ => h name

theorem Env.MatchesOn.all {ρ : Env} {scope : BodyScope} (h : ρ.MatchesOn (fun _ => True) scope) : ρ.Matches scope :=
  fun name => h name trivial

/-- The elements of the arrays of a body are of their types, and 64 bits can hold their numbers. -/
def Env.Typed (ρ : Env) : Prop :=
  ∀ name type vs, ρ.arrays name = some (type, vs) → (∀ v ∈ vs, v.type = type) ∧ Fits vs.length

/-- The statement can be compiled for a thread, does not read what it binds, and reads only some arrays. -/
def BodyStm.Plain (reads : Ident → Prop) : BodyStm → Prop
  | compute name _ x => name ∉ x.occurrences
  | index name _ array is => (∀ i ∈ is, name ∉ i.occurrences) ∧ reads array
  | arrayLit _ _ elems => Fits elems.length
  | nested .. => False

namespace Solo
variable (E : Solo)

/-- A thread knows some variables, and what a body knows. -/
structure Knows (B : Scope) (ρ : Env) (th : Thread) : Prop where
  base : B.Le (E.scope th)
  scalars : ρ.scalars.Le (E.scope th)
  arrays : ∀ name type vs, ρ.arrays name = some (type, vs) → th.arrays[name]? = some (Buffer.ofValues type vs)

/-- The thread may read some arrays of the host, whose sizes 64 bits can hold. -/
structure Sees (H : Surroundings) (B : Scope) (reads : Ident → Prop) : Prop where
  host : H.scope.Le B
  memory : ∀ array, reads array → E.store.buffer? .global array = H.memory[array]?
  keeps : ∀ array i, reads array → E.Keeps ⟨.global, array, i⟩
  fits : ∀ (array : Ident) (type : ScalarType) (shape : List Operand) (es : List Int),
    H.env.arrays[array]? = some (type, shape) →
    Exp.intsAt? H.scope (shape.map Operand.toExp) = some es → Fits es.prod

variable {E} {H : Surroundings} {B : Scope} {reads : Ident → Prop} {ρ ρ' : Env} {th : Thread} {ws : List Write}
  {Q : Claim} {name : Ident} {type : ScalarType} {v : Value}

theorem Knows.bind (h : E.Knows B ρ th) (hname : B name = none) (v : Value) :
    E.Knows B (ρ.bind name v) (th.bind name v) :=
  ⟨Thread.le_scope_bind h.base hname, Thread.set_le_scope_bind h.scalars, h.arrays⟩

theorem ensures_of_valueOf? (hk : E.Knows B ρ th) {x : Exp} (hv : ρ.valueOf? type x = some v) :
    x.eval (E.scope th) = .ok v ∧ v.type = type := by
  unfold Env.valueOf? at hv
  rw [Option.filter_eq_some_iff] at hv
  exact ⟨eval_mono hk.scalars (ok_of_toOption hv.1), by simpa using hv.2⟩

/-! ### Reading an element -/

theorem isInts_congr {σ τ : Scope} {xs : List Exp} {is : List Int} (h : List.Forall₂ (IsInt σ) xs is)
    (hsame : ∀ x ∈ xs, ∀ y ∈ x.occurrences, τ y = σ y) : List.Forall₂ (IsInt τ) xs is := by
  induction h with
  | nil => exact .nil
  | cons hx _ ih =>
    exact .cons (hx.congr (hsame _ List.mem_cons_self)) (ih fun x hmem => hsame x (List.mem_cons_of_mem _ hmem))

theorem isInts_set_of_not_mem {σ : Scope} {xs : List Exp} {is : List Int} (h : List.Forall₂ (IsInt σ) xs is)
    (hname : ∀ x ∈ xs, name ∉ x.occurrences) : List.Forall₂ (IsInt (σ.set name v)) xs is :=
  isInts_congr h fun x hx _ hy => Scope.set_of_ne fun e => hname x hx (e ▸ hy)

/-- An element is read into a new or an old variable, perhaps after a test of the indices. -/
theorem ensures_readElement {a : ArrayInfo} {is : List Exp} {es iv : List Int} (hk : E.Knows B ρ th)
    (hname : B name = none) (hshape : List.Forall₂ (IsInt B) a.shape es) (his : List.Forall₂ (IsInt ρ.scalars) is iv)
    (hself : ∀ i ∈ is, name ∉ i.occurrences) (hin : Inside es iv) (hfits : Fits es.prod)
    (hload : ∀ th', th'.arrays = th.arrays → E.Loads a.view (Int64.ofInt (rowMajor es iv)) v th' ws)
    (htype : v.type = type) (checked : Bool) (h : ∀ th', E.Knows B (ρ.bind name v) th' → Q th' ws) :
    E.Ensures (.block [.declare name type false,
      if checked then .when (indicesInBounds a.shape is) (.read name a.view (.flatten a.shape is))
      else .read name a.view (.flatten a.shape is)]) Q th ws := by
  rw [ensures_block, ensuresAll_cons, ensuresAll_singleton]
  refine ensures_declare ?_
  have hshape' : List.Forall₂ (IsInt (E.scope (th.bind name (.zero type)))) a.shape es :=
    hshape.imp fun x i hx => hx.mono (Thread.le_scope_bind hk.base hname)
  have his' : List.Forall₂ (IsInt (E.scope (th.bind name (.zero type)))) is iv := by
    have scope : E.scope (th.bind name (.zero type)) = (E.scope th).set name (.zero type) :=
      funext fun y => th.scope_bind E.ctx.captured name _ y
    rw [scope]
    exact isInts_set_of_not_mem (his.imp fun x i hx => hx.mono hk.scalars) hself
  have hflat := isInt_flatten hshape' his' hin hfits
  have hread : E.Ensures (.read name a.view (.flatten a.shape is)) Q (th.bind name (.zero type)) ws := by
    rw [Ensures]
    have hindex : (Exp.flatten a.shape is).evalInt (E.scope (th.bind name (.zero type))) =
        .ok (Int64.ofInt (rowMajor es iv)) := by
      rw [Exp.evalInt, hflat.eval]
    refine ⟨_, v, hindex, hload _ rfl, ⟨.zero type, by simp [Thread.bind], by simp [htype]⟩, ?_⟩
    rw [Thread.bind_bind]
    exact h _ (hk.bind hname v)
  cases checked with
  | false => exact hread
  | true =>
    have htest := isBool_indicesInBounds hshape' his' (List.Forall₂.length_eq hin)
    rw [decide_eq_true hin] at htest
    exact ensures_when htest (fun _ => hread) fun h => Bool.noConfusion h

/-- What a body reads from one of its arrays, or else from the host, its thread can load. -/
theorem loads_of_element? {scope : BodyScope} {setting : Setting} {s s' : Session} {array : Ident} {a : ArrayInfo}
    {iv : List Int} (hsees : E.Sees H B reads) (hk : E.Knows B ρ th) (hm : ρ.MatchesOn reads scope) (htyped : ρ.Typed)
    (henv : setting.env = H.env) (hreads : reads array) (hws : ∀ w ∈ ws, ¬reads w.slot.array)
    (ha : scope.array array setting s = .ok (a, s')) (hv : ρ.element? H array iv = some v) :
    ∃ es, List.Forall₂ (IsInt B) a.shape es ∧ Inside es iv ∧ Fits es.prod ∧ (v.type = a.view.type) ∧
      ∀ th', th'.arrays = th.arrays → E.Loads a.view (Int64.ofInt (rowMajor es iv)) v th' ws := by
  simp only [BodyScope.array, Lowering.bind_eq_ok, Lowering.require_eq_ok] at ha
  obtain ⟨a?, s₁, ha, rfl, -⟩ := ha
  unfold BodyScope.array? at ha
  rw [hm array hreads] at ha
  unfold Env.element? at hv
  -- An array of the body's own hides one of the host's.
  cases hρ : ρ.arrays array with
  | some entry =>
    obtain ⟨t, vs⟩ := entry
    obtain ⟨hall, hlength⟩ := htyped array t vs hρ
    rw [hρ] at ha hv
    obtain ⟨he, -⟩ := Lowering.pure_eq_ok.mp ha
    cases he
    simp only [Option.bind_eq_bind, Option.bind_eq_some_iff, Option.guard_eq_some'] at hv
    obtain ⟨-, hin, hv⟩ := hv
    have hint : IsInt B (.int (Int64.ofNat vs.length)) vs.length := by
      have : IsInt B (.int (Int64.ofNat vs.length)) (Int64.ofNat vs.length).toInt := IsInt.int _
      rwa [toInt_ofNat_of_fits hlength] at this
    have hbounds := hin.rowMajor_bounds
    have hfits : Fits [(vs.length : Int)].prod := by simpa using hlength
    refine ⟨[vs.length], .cons hint .nil, hin, hfits, hall v (List.mem_of_getElem? hv), fun th' harrays => ?_⟩
    refine ⟨_, by rw [harrays]; exact hk.arrays array t vs hρ, ?_⟩
    refine Buffer.load_ofValues ⟨array, t, .thread, false⟩ ?_ hv (hall v (List.mem_of_getElem? hv))
    rw [toInt_ofInt_of_fits (by unfold Fits at *; omega)]
    omega
  | none =>
    rw [hρ] at ha hv
    simp only [Option.map_none, Lowering.globalArray?, Lowering.bind_eq_ok, Lowering.read_eq_ok, Lowering.get_eq_ok,
      Lowering.pure_eq_ok] at ha
    obtain ⟨_, _, ⟨rfl, rfl⟩, _, _, ⟨rfl, rfl⟩, ha, -⟩ := ha
    simp only [Surroundings.element?, Option.bind_eq_bind, Option.bind_eq_some_iff, Option.guard_eq_some'] at hv
    obtain ⟨⟨t, shape⟩, harray, es, hes, -, hin, b, hb, hv⟩ := hv
    rw [SegKernel.globalArray?, henv, harray] at ha
    cases ha
    have hload := ok_of_toOption hv
    refine ⟨es, (intsAt?_eq_some.mp hes).imp fun x i hx => hx.mono hsees.host, hin,
      hsees.fits array t shape es harray hes, ?_, fun th' _ => ⟨hsees.keeps _ _ hreads, ?_⟩⟩
    · unfold Buffer.load at hload
      cases hp : b.position ⟨array, t, .global, false⟩ (Int64.ofInt (rowMajor es iv)) with
      | error e => simp [hp, Except.map] at hload
      | ok i =>
        simp only [hp, Except.map, Except.ok.injEq] at hload
        rw [← hload, Value.type_ofBits]
    · unfold Store.load
      rw [Store.buffer?_puts_of_forall_ne fun w hw _ e => hws w hw (e ▸ hreads), hsees.memory array hreads, hb]
      exact hload

/-! ### Small arrays -/

/-- The elements of a small array are stored one after another. -/
theorem ensures_elements {rest : List Stmt} : ∀ {elems : List Operand} {vs done : List Value} {th : Thread},
    th.arrays[name]? = some ⟨type, (done.map Value.toBits ++ List.replicate elems.length 0).toArray⟩ →
      Fits ((done.length + elems.length : Nat) : Int) →
      List.Forall₂ (fun e v => e.toExp.eval (E.scope th) = .ok v ∧ v.type = type) elems vs →
      (∀ th', th'.scalars = th.scalars → (∀ a, a ≠ name → th'.arrays[a]? = th.arrays[a]?) →
        th'.arrays[name]? = some (Buffer.ofValues type (done ++ vs)) → E.EnsuresAll rest Q th' ws) →
      E.EnsuresAll (elems.mapIdx (fun i e =>
        Stmt.write ⟨name, type, .thread, false⟩ (.int (Int64.ofNat (done.length + i))) e.toExp) ++ rest) Q th ws
  | [], _, done, th, hb, _, .nil, h => by
    refine h th rfl (fun _ _ => rfl) ?_
    rw [hb]
    simp [Buffer.ofValues]
  | e :: elems, _, done, th, hb, hfits, @List.Forall₂.cons _ _ _ _ v _ vs hv hvs, h => by
    have hlt : Fits (done.length : Int) := by
      rw [List.length_cons] at hfits
      unfold Fits at *
      omega
    rw [List.mapIdx_cons, List.cons_append, ensuresAll_cons, Ensures]
    have hposition : (⟨type, (done.map Value.toBits ++ List.replicate (e :: elems).length 0).toArray⟩ : Buffer).position
        ⟨name, type, .thread, false⟩ (Int64.ofNat done.length) = .ok done.length := by
      have hint := toInt_ofNat_of_fits hlt
      unfold Buffer.position
      have hlast : done.length < (done.map Value.toBits ++ List.replicate (e :: elems).length 0).toArray.size := by
        rw [List.size_toArray, List.length_append, List.length_map, List.length_replicate, List.length_cons]
        omega
      rw [if_neg (by simp), if_pos ⟨by omega, by rw [hint]; exact Int.ofNat_lt.mpr hlast⟩, hint, Int.toNat_natCast]
    refine ⟨Int64.ofNat done.length, v, rfl, hv.1, hv.2, _, done.length, hb, hposition, ?_⟩
    -- The elements that are left are written behind those that are done.
    have shift : (fun (i : Nat) (e : Operand) =>
        Stmt.write ⟨name, type, .thread, false⟩ (.int (Int64.ofNat (done.length + (i + 1)))) e.toExp) =
        fun (i : Nat) (e : Operand) =>
          Stmt.write ⟨name, type, .thread, false⟩ (.int (Int64.ofNat ((done ++ [v]).length + i))) e.toExp := by
      funext i e
      rw [List.length_append, List.length_singleton, Nat.add_assoc, Nat.add_comm 1 i]
    rw [shift]
    refine ensures_elements ?_ ?_ hvs fun th' hscalars hothers hname => ?_
    · rw [Table.getElem?_modify, if_pos rfl, hb, Option.map_some, List.length_cons, Buffer.put_next]
    · rw [List.length_append, List.length_singleton, Nat.add_assoc, Nat.add_comm 1]
      exact hfits
    · refine h th' hscalars (fun a ha => ?_) ?_
      · rw [hothers a ha, Table.getElem?_modify_of_ne _ _ (Ne.symm ha)]
      · rw [hname, List.append_assoc, List.singleton_append]

theorem ensures_arrayCode {elems : List Operand} {vs : List Value} (hk : E.Knows B ρ th) (hfits : Fits elems.length)
    (hvs : elems.mapM (fun e => ρ.valueOf? type e.toExp) = some vs)
    (h : ∀ th', E.Knows B (ρ.bindArray name type vs) th' → Q th' ws) :
    E.Ensures (BodyStm.arrayCode name type elems).1 Q th ws := by
  unfold BodyStm.arrayCode
  have hnat := toInt_ofNat_of_fits hfits
  rw [ensures_block, ensuresAll_cons, Ensures]
  refine ⟨Int64.ofNat elems.length, elems.length, rfl, ?_, ?_⟩
  · unfold arrayLength
    rw [hnat, if_neg (by omega), Int.toNat_natCast]
  · have hvs := mapM_eq_some.mp hvs
    rw [← List.append_nil (List.mapIdx _ _)]
    have offset : (fun (i : Nat) (e : Operand) =>
        Stmt.write ⟨name, type, .thread, false⟩ (.int (Int64.ofNat i)) e.toExp) =
        fun (i : Nat) (e : Operand) =>
          Stmt.write ⟨name, type, .thread, false⟩ (.int (Int64.ofNat (([] : List Value).length + i))) e.toExp := by
      funext i e
      rw [List.length_nil, Nat.zero_add]
    rw [offset]
    refine ensures_elements ?_ (by simpa using hfits) (hvs.imp fun e v hv => ensures_of_valueOf? hk hv)
      fun th' hscalars hothers hname => ?_
    · simp [Buffer.zeroed_eq]
    · rw [ensuresAll_nil]
      have hscope : E.scope th' = E.scope th := by
        unfold scope Thread.scope
        rw [hscalars]
      refine h th' ⟨hscope ▸ hk.base, hscope ▸ hk.scalars, fun a t ws ha => ?_⟩
      -- The new array hides an older one of its name, and leaves the others.
      by_cases hne : a = name
      · subst hne
        have : some (type, vs) = some (t, ws) := (if_pos rfl).symm.trans ha
        cases this
        simpa using hname
      · have : ρ.arrays a = some (t, ws) := (if_neg hne).symm.trans ha
        rw [hothers a hne, Table.getElem?_insert_of_ne _ _ (Ne.symm hne)]
        exact hk.arrays a t ws this

/-! ### Statements -/

section
variable {setting : Setting} {s s' : Session} {scope scope' : BodyScope} {stm : BodyStm} {code : Stmt}
  {K : Ident → Prop}

theorem kernelArray?_addArrays (a : ArrayInfo) (x : Ident) :
    (scope.addArrays [(name, a)]).kernelArray? x = if name = x then some a else scope.kernelArray? x := by
  unfold BodyScope.addArrays BodyScope.kernelArray?
  by_cases h : name = x <;> simp [h]

theorem session_of_array? {array : Ident} {a? : Option ArrayInfo} (h : scope.array? array setting s = .ok (a?, s')) :
    s' = s := by
  unfold BodyScope.array? at h
  cases hk : scope.kernelArray? array with
  | some a =>
    rw [hk] at h
    exact (Lowering.pure_eq_ok.mp h).2
  | none =>
    rw [hk] at h
    simp only [Lowering.globalArray?, Lowering.bind_eq_ok, Lowering.read_eq_ok, Lowering.get_eq_ok,
      Lowering.pure_eq_ok] at h
    obtain ⟨_, _, ⟨-, rfl⟩, _, _, ⟨-, rfl⟩, -, rfl⟩ := h
    rfl

theorem readCode_eq_ok {array : Ident} {is : List Exp}
    (h : BodyStm.readCode scope name type array is setting s = .ok (code, s')) :
    s' = s ∧ ∃ a, scope.array array setting s = .ok (a, s) ∧ a.shape.length = is.length ∧ a.view.type = type ∧
      code = .block [.declare name type false,
        if setting.config.checkIndices then
          .when (indicesInBounds a.shape is) (.read name a.view (.flatten a.shape is))
        else .read name a.view (.flatten a.shape is)] := by
  simp only [BodyStm.readCode, Lowering.bind_eq_ok, Lowering.check_eq_ok, Lowering.read_eq_ok] at h
  obtain ⟨a, s₁, ha, _, s₂, ⟨hrank, hs₂⟩, _, s₃, ⟨htype, hs₃⟩, _, s₄, ⟨rfl, hs₄⟩, h⟩ := h
  have hs₁ : s₁ = s := by
    simp only [BodyScope.array, Lowering.bind_eq_ok, Lowering.require_eq_ok] at ha
    obtain ⟨a?, s₅, ha?, -, rfl⟩ := ha
    exact session_of_array? ha?
  obtain ⟨rfl, rfl⟩ := Lowering.pure_eq_ok.mp h
  subst hs₁ hs₂ hs₃ hs₄
  exact ⟨rfl, a, ha, eq_of_beq hrank, eq_of_beq htype, rfl⟩

/-- The code of a statement takes no names, and sees the arrays that the body has. -/
theorem matches_of_code (hcode : stm.code BodyStm.noNested scope setting s = .ok ((code, scope'), s'))
    (heval : stm.eval H ρ = some ρ') (hplain : stm.Plain reads) (hm : ρ.MatchesOn K scope)
    (htyped : ρ.Typed) : s' = s ∧ ρ'.MatchesOn K scope' ∧ ρ'.Typed := by
  -- Only an array literal changes which arrays there are.
  cases stm with
  | compute name type x =>
    obtain ⟨he, rfl⟩ := Lowering.pure_eq_ok.mp hcode
    cases he
    simp only [BodyStm.eval, Option.bind_eq_bind, Option.bind_eq_some_iff, Option.pure_def, Option.some.injEq] at heval
    obtain ⟨v, -, rfl⟩ := heval
    exact ⟨rfl, hm, htyped⟩
  | index name type array is =>
    simp only [BodyStm.code, Lowering.bind_eq_ok, Lowering.pure_eq_ok] at hcode
    obtain ⟨code, s₁, hread, he, rfl⟩ := hcode
    cases he
    simp only [BodyStm.eval, Option.bind_eq_bind, Option.bind_eq_some_iff, Option.pure_def, Option.some.injEq] at heval
    obtain ⟨iv, -, v, -, -, -, rfl⟩ := heval
    exact ⟨(readCode_eq_ok hread).1, hm, htyped⟩
  | arrayLit name type elems =>
    obtain ⟨he, rfl⟩ := Lowering.pure_eq_ok.mp hcode
    cases he
    simp only [BodyStm.eval, Option.bind_eq_bind, Option.bind_eq_some_iff, Option.pure_def, Option.some.injEq] at heval
    obtain ⟨vs, hvs, rfl⟩ := heval
    have hvs := mapM_eq_some.mp hvs
    refine ⟨rfl, fun x hK => ?_, fun x t ws hx => ?_⟩
    · rw [kernelArray?_addArrays, hm x hK]
      unfold Env.bindArray
      by_cases h : name = x
      · subst h
        simp [List.Forall₂.length_eq hvs]
      · simp [h, Ne.symm h]
    · unfold Env.bindArray at hx
      dsimp only at hx
      split at hx
      · cases hx
        refine ⟨fun v hv => ?_, List.Forall₂.length_eq hvs ▸ hplain⟩
        obtain ⟨i, hi, rfl⟩ := List.mem_iff_getElem.mp hv
        have := List.Forall₂.get hvs (List.Forall₂.length_eq hvs ▸ hi) hi
        unfold Env.valueOf? at this
        rw [Option.filter_eq_some_iff] at this
        simpa using this.2
      · exact htyped x t ws hx
  | nested pattern op => exact hplain.elim

/-- A thread that runs the code of a statement knows afterwards what the body knows. -/
theorem ensures_code (hcode : stm.code BodyStm.noNested scope setting s = .ok ((code, scope'), s'))
    (heval : stm.eval H ρ = some ρ') (hplain : stm.Plain reads) (hbinds : ∀ x ∈ stm.binds, B x = none)
    (hsees : E.Sees H B reads) (henv : setting.env = H.env) (hws : ∀ w ∈ ws, ¬reads w.slot.array)
    (hm : ρ.MatchesOn reads scope) (htyped : ρ.Typed) (hk : E.Knows B ρ th) (h : ∀ th', E.Knows B ρ' th' → Q th' ws) :
    E.Ensures code Q th ws := by
  -- One case for each statement; a nested operation has no meaning here.
  cases stm with
  | compute name type x =>
    obtain ⟨he, rfl⟩ := Lowering.pure_eq_ok.mp hcode
    cases he
    simp only [BodyStm.eval, Option.bind_eq_bind, Option.bind_eq_some_iff, Option.pure_def, Option.some.injEq] at heval
    obtain ⟨v, hv, rfl⟩ := heval
    obtain ⟨hx, htype⟩ := ensures_of_valueOf? hk hv
    exact ensures_declareInit hplain hx htype (h _ (hk.bind (hbinds name (List.mem_singleton_self name)) v))
  | index name type array is =>
    simp only [BodyStm.code, Lowering.bind_eq_ok, Lowering.pure_eq_ok] at hcode
    obtain ⟨code, s₁, hread, he, rfl⟩ := hcode
    cases he
    simp only [BodyStm.eval, Option.bind_eq_bind, Option.bind_eq_some_iff, Option.guard_eq_some', Option.pure_def,
      Option.some.injEq] at heval
    obtain ⟨iv, hiv, v, hv, -, htype, rfl⟩ := heval
    obtain ⟨-, a, ha, -, -, rfl⟩ := readCode_eq_ok hread
    obtain ⟨es, hshape, hin, hfits, -, hload⟩ := loads_of_element? hsees hk hm htyped henv hplain.2 hws ha hv
    exact ensures_readElement hk (hbinds name (List.mem_singleton_self name)) hshape (intsAt?_eq_some.mp hiv)
      hplain.1 hin hfits hload htype setting.config.checkIndices h
  | arrayLit name type elems =>
    obtain ⟨he, rfl⟩ := Lowering.pure_eq_ok.mp hcode
    cases he
    simp only [BodyStm.eval, Option.bind_eq_bind, Option.bind_eq_some_iff, Option.pure_def, Option.some.injEq] at heval
    obtain ⟨vs, hvs, rfl⟩ := heval
    exact ensures_arrayCode hk hplain hvs h
  | nested pattern op => exact hplain.elim

/-- The same for a whole body. -/
theorem matches_of_codeAll : ∀ {stms : List BodyStm} {code : List Stmt} {scope scope' : BodyScope} {s s' : Session}
    {ρ ρ' : Env}, BodyStm.codeAll BodyStm.noNested scope stms setting s = .ok ((code, scope'), s') →
      BodyStm.evalAll H ρ stms = some ρ' → (∀ stm ∈ stms, stm.Plain reads) → ρ.MatchesOn K scope → ρ.Typed →
      s' = s ∧ ρ'.MatchesOn K scope' ∧ ρ'.Typed
  | [], _, _, _, _, _, _, _, hcode, heval, _, hm, htyped => by
    obtain ⟨he, rfl⟩ := Lowering.pure_eq_ok.mp hcode
    cases he
    cases heval
    exact ⟨rfl, hm, htyped⟩
  | stm :: stms, _, scope, scope', s, s', ρ, ρ', hcode, heval, hplain, hm, htyped => by
    simp only [BodyStm.codeAll, Lowering.bind_eq_ok, Lowering.pure_eq_ok] at hcode
    obtain ⟨⟨first, scope₁⟩, s₁, hfirst, ⟨rest, scope₂⟩, s₂, hrest, he, rfl⟩ := hcode
    cases he
    obtain ⟨ρ₁, hρ₁, hρ⟩ := BodyStm.evalAll_cons_eq_some.mp heval
    obtain ⟨rfl, hm₁, htyped₁⟩ := matches_of_code hfirst hρ₁ (hplain stm List.mem_cons_self) hm htyped
    exact matches_of_codeAll hrest hρ (fun stm' h => hplain stm' (List.mem_cons_of_mem stm h)) hm₁ htyped₁

theorem ensures_codeAll (hsees : E.Sees H B reads) (henv : setting.env = H.env) (hws : ∀ w ∈ ws, ¬reads w.slot.array) :
    ∀ {stms : List BodyStm} {code : List Stmt} {scope scope' : BodyScope} {s s' : Session} {ρ ρ' : Env} {th : Thread},
      BodyStm.codeAll BodyStm.noNested scope stms setting s = .ok ((code, scope'), s') →
      BodyStm.evalAll H ρ stms = some ρ' → (∀ stm ∈ stms, stm.Plain reads) →
      (∀ stm ∈ stms, ∀ x ∈ stm.binds, B x = none) → ρ.MatchesOn reads scope → ρ.Typed → E.Knows B ρ th →
      (∀ th', E.Knows B ρ' th' → Q th' ws) → E.EnsuresAll code Q th ws
  | [], _, _, _, _, _, _, _, _, hcode, heval, _, _, _, _, hk, h => by
    obtain ⟨he, rfl⟩ := Lowering.pure_eq_ok.mp hcode
    cases he
    cases heval
    rw [ensuresAll_nil]
    exact h _ hk
  | stm :: stms, _, scope, scope', s, s', ρ, ρ', th, hcode, heval, hplain, hbinds, hm, htyped, hk, h => by
    simp only [BodyStm.codeAll, Lowering.bind_eq_ok, Lowering.pure_eq_ok] at hcode
    obtain ⟨⟨first, scope₁⟩, s₁, hfirst, ⟨rest, scope₂⟩, s₂, hrest, he, rfl⟩ := hcode
    cases he
    obtain ⟨ρ₁, hρ₁, hρ⟩ := BodyStm.evalAll_cons_eq_some.mp heval
    obtain ⟨rfl, hm₁, htyped₁⟩ := matches_of_code hfirst hρ₁ (hplain stm List.mem_cons_self) hm htyped
    rw [ensuresAll_cons]
    exact ensures_code hfirst hρ₁ (hplain stm List.mem_cons_self) (hbinds stm List.mem_cons_self)
      hsees henv hws hm htyped
      hk fun th' hk' => ensures_codeAll hsees henv hws hrest hρ (fun stm' h => hplain stm' (List.mem_cons_of_mem stm h))
        (fun stm' h => hbinds stm' (List.mem_cons_of_mem stm h)) hm₁ htyped₁ hk' h

end

end Solo
end SegKernel
