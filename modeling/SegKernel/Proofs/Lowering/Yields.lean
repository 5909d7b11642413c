import SegKernel.Lowering.Session
import SegKernel.Proofs.Names.Scope

/-! What a lowering computation yields. A computation that only makes code takes new names and leaves
    the kernels of the program as they are. -/

namespace SegKernel.Lowering
variable {α β : Type} {setting : Setting} {σ σ' : Session} {n : Nat}

/-! ### Taking computations apart -/

theorem bind_apply (x : Lowering α) (f : α → Lowering β) :
    (x >>= f) setting σ = match x setting σ with
      | .ok (a, σ') => f a setting σ'
      | .error e => .error e := by
  show (x setting σ >>= fun (a, σ') => f a setting σ') = _
  cases x setting σ <;> rfl

theorem bind_eq_ok {x : Lowering α} {f : α → Lowering β} {b : β} :
    (x >>= f) setting σ = .ok (b, σ') ↔ ∃ a σ₁, x setting σ = .ok (a, σ₁) ∧ f a setting σ₁ = .ok (b, σ') := by
  rw [bind_apply]
  cases x setting σ with
  | ok p =>
    constructor
    · exact fun h => ⟨p.1, p.2, rfl, h⟩
    · rintro ⟨a, σ₁, h, hf⟩
      cases h
      exact hf
  | error e => simp

theorem pure_eq_ok {a b : α} : (pure a : Lowering α) setting σ = .ok (b, σ') ↔ b = a ∧ σ' = σ := by
  show Except.ok (a, σ) = Except.ok (b, σ') ↔ _
  simp [eq_comm]

theorem lift_eq_ok {f : Fresh α} {a : α} :
    (liftM f : Lowering α) setting σ = .ok (a, σ') ↔
      a = (f.run σ.names).1 ∧ σ' = { σ with names := (f.run σ.names).2 } := by
  show Except.ok ((f.run σ.names).1, { σ with names := (f.run σ.names).2 }) = Except.ok (a, σ') ↔ _
  simp [eq_comm]

theorem read_eq_ok {s : Setting} : (read : Lowering Setting) setting σ = .ok (s, σ') ↔ s = setting ∧ σ' = σ := by
  show Except.ok (setting, σ) = Except.ok (s, σ') ↔ _
  simp [eq_comm]

theorem get_eq_ok {s : Session} : (get : Lowering Session) setting σ = .ok (s, σ') ↔ s = σ ∧ σ' = σ := by
  show Except.ok (σ, σ) = Except.ok (s, σ') ↔ _
  simp [eq_comm]

theorem modify_eq_ok {f : Session → Session} {u : Unit} :
    (modify f : Lowering Unit) setting σ = .ok (u, σ') ↔ σ' = f σ := by
  show Except.ok ((), f σ) = Except.ok (u, σ') ↔ _
  simp [eq_comm]

theorem throw_ne_ok {e : LowerError} {a : α} : (throw e : Lowering α) setting σ = .ok (a, σ') ↔ False := by
  show Except.error e = Except.ok (a, σ') ↔ _
  simp

theorem check_eq_ok {c : Bool} {cause : Defect} {span : Option Span} {u : Unit} :
    check c cause span setting σ = .ok (u, σ') ↔ c = true ∧ σ' = σ := by
  unfold check
  cases c with
  | true => simp [pure_eq_ok]
  | false => simp [defect, throw_ne_ok]

theorem require_eq_ok {a? : Option α} {cause : Defect} {span : Option Span} {a : α} :
    require a? cause span setting σ = .ok (a, σ') ↔ a? = some a ∧ σ' = σ := by
  unfold require
  cases a? with
  | some b =>
    rw [pure_eq_ok]
    simp [eq_comm]
  | none => simp [defect, throw_ne_ok]

theorem inRange_eq_ok {taken available : Nat} {u : Unit} :
    inRange taken available setting σ = .ok (u, σ') ↔ taken ≤ available ∧ σ' = σ := by
  unfold inRange
  split
  · rename_i h
    simp [pure_eq_ok, h]
  · rename_i h
    simp [throw_ne_ok, h]

theorem globalArray_eq_ok {dest : Ident} {a : ArrayInfo} {place : String} {span : Option Span} :
    globalArray dest place span setting σ = .ok (a, σ') ↔
    SegKernel.globalArray? setting.env σ.program dest = some a ∧ σ' = σ := by
  simp only [globalArray, Lowering.globalArray?, bind_eq_ok, read_eq_ok, get_eq_ok, pure_eq_ok, require_eq_ok]
  constructor
  · rintro ⟨_, _, ⟨_, _, ⟨rfl, rfl⟩, _, _, ⟨rfl, rfl⟩, rfl, rfl⟩, h, rfl⟩
    exact ⟨h, rfl⟩
  · rintro ⟨h, rfl⟩
    exact ⟨_, _, ⟨_, _, ⟨rfl, rfl⟩, _, _, ⟨rfl, rfl⟩, rfl, rfl⟩, h, rfl⟩

/-- A computation for each element of a list leaves the session, if each of them does. -/
theorem session_of_mapM {g : α → Lowering β} (hg : ∀ a σ b σ', g a setting σ = .ok (b, σ') → σ' = σ) :
    ∀ {as : List α} {bs : List β} {σ σ' : Session}, as.mapM g setting σ = .ok (bs, σ') → σ' = σ
  | [], _, _, _, h => by
    rw [List.mapM_nil] at h
    exact (pure_eq_ok.mp h).2
  | a :: as, _, σ, σ', h => by
    rw [List.mapM_cons] at h
    simp only [bind_eq_ok, pure_eq_ok] at h
    obtain ⟨b, σ₁, ha, bs, σ₂, has, -, rfl⟩ := h
    exact (session_of_mapM hg has).trans (hg a σ b σ₁ ha)

theorem session_of_captures {kernel : String} {body : Stmt} {cs : List Capture}
    (h : captures kernel body setting σ = .ok (cs, σ')) : σ' = σ := by
  simp only [captures, bind_eq_ok, read_eq_ok, get_eq_ok, pure_eq_ok] at h
  obtain ⟨_, _, ⟨rfl, rfl⟩, _, _, ⟨rfl, rfl⟩, scalars, σ₁, hscalars, memory, σ₂, hmemory, -, rfl⟩ := h
  refine (session_of_mapM (fun _ _ _ _ hrun => ?_) hmemory).trans
    (session_of_mapM (fun _ _ _ _ hrun => (require_eq_ok.mp hrun).2) hscalars)
  simp only [bind_eq_ok, check_eq_ok, pure_eq_ok] at hrun
  obtain ⟨_, _, ⟨-, rfl⟩, -, rfl⟩ := hrun
  rfl

/-- The kernel that is added when code is finished. -/
theorem emitKernel_eq_ok {stem : String} {numGroups groupSize : Exp} {body : Stmt} {u : Unit}
    (h : emitKernel stem numGroups groupSize body setting σ = .ok (u, σ')) :
    ∃ k : Kernel, k.name = numbered stem σ.names ∧ k.numGroups = numGroups ∧ k.groupSize = groupSize ∧
      body.hoist = .ok k.body ∧
      captures k.name k.body setting { σ with names := σ.names + 1 } =
        .ok (k.captures, { σ with names := σ.names + 1 }) ∧
      σ' = { names := σ.names + 1, program := { σ.program with kernels := σ.program.kernels ++ [k] } } := by
  obtain ⟨name, σ₁, hname, h⟩ := bind_eq_ok.mp h
  obtain ⟨rfl, rfl⟩ := lift_eq_ok.mp hname
  cases hh : body.hoist with
  | error late =>
    rw [hh] at h
    obtain ⟨_, _, hlate, -⟩ := bind_eq_ok.mp h
    exact (throw_ne_ok.mp hlate).elim
  | ok hoisted =>
    rw [hh] at h
    obtain ⟨code, σ₂, hpure, h⟩ := bind_eq_ok.mp h
    obtain ⟨rfl, rfl⟩ := pure_eq_ok.mp hpure
    obtain ⟨cs, σ₃, hcs, h⟩ := bind_eq_ok.mp h
    obtain rfl := session_of_captures hcs
    obtain rfl := modify_eq_ok.mp h
    refine ⟨{ name := numbered stem σ.names, body := code, captures := cs, numGroups, groupSize
              failureTolerant := !code.usesAtomics && !σ.scatters }, rfl, rfl, rfl, rfl, hcs, rfl⟩

/-- Arrays of some types are allocated under new names, all of one length. -/
theorem mapM_allocate (setting : Setting) (stem : String) (length : Exp) : ∀ (types : List ScalarType) (σ : Session),
    ∃ views, (types.mapM fun type => allocate stem type length) setting σ = .ok (views, { σ with
        names := σ.names + types.length
        program := { σ.program with allocations := σ.program.allocations ++ views.map fun v => ⟨v.array, v.type, length⟩ } }) ∧
      views.map (·.type) = types ∧ views.map (·.array) = (List.range' σ.names types.length).map (numbered stem) ∧
      ∀ v ∈ views, v.space = .global
  | [], σ => ⟨[], by simp [pure_eq_ok], rfl, rfl, by simp⟩
  | type :: types, σ => by
    let view : View := ⟨numbered stem σ.names, type, .global, false⟩
    let σ₁ : Session := { σ with
      names := σ.names + 1
      program := { σ.program with allocations := σ.program.allocations ++ [⟨view.array, type, length⟩] } }
    have first : allocate stem type length setting σ = .ok (view, σ₁) := rfl
    obtain ⟨views, hrest, htypes, hnames, hglobal⟩ := mapM_allocate setting stem length types σ₁
    refine ⟨view :: views, ?_, by rw [List.map_cons, htypes], ?_, List.forall_mem_cons.mpr ⟨rfl, hglobal⟩⟩
    · rw [List.mapM_cons]
      refine bind_eq_ok.mpr ⟨view, σ₁, first, bind_eq_ok.mpr ⟨views, _, hrest, pure_eq_ok.mpr ⟨rfl, ?_⟩⟩⟩
      rw [List.map_cons, List.append_cons, List.length_cons, Nat.add_comm types.length, ← Nat.add_assoc]
    · rw [List.map_cons, hnames, List.length_cons, List.range'_succ, List.map_cons]

/-! ### What is yielded -/

/-- All arrays that the program allocates have new names. -/
def Allocated (σ : Session) : Prop :=
  ∀ a ∈ σ.program.allocations, ∃ stem ∈ arrayStems, ∃ k, a.name = numbered stem k

/-- A computation that takes new names from number `n` on, leaves the kernels, and has a result in `P`. -/
def Yields (setting : Setting) (n : Nat) (f : Lowering α) (P : α → Prop) : Prop :=
  ∀ σ a σ', n ≤ σ.names → Allocated σ → f setting σ = .ok (a, σ') →
    P a ∧ σ.names ≤ σ'.names ∧ Allocated σ' ∧ σ'.program.kernels = σ.program.kernels

namespace Yields
variable {f : Lowering α} {P : α → Prop}

theorem pure {a : α} (h : P a) : Yields setting n (Pure.pure a) P := by
  intro σ b σ' _ hσ hb
  obtain ⟨rfl, rfl⟩ := pure_eq_ok.mp hb
  exact ⟨h, Nat.le_refl _, hσ, rfl⟩

theorem bind {g : α → Lowering β} {Q : β → Prop} (hf : Yields setting n f P)
    (hg : ∀ a, P a → Yields setting n (g a) Q) : Yields setting n (f >>= g) Q := by
  intro σ b σ' hn hσ hb
  obtain ⟨a, σ₁, ha, hb⟩ := bind_eq_ok.mp hb
  obtain ⟨hP, hle, hσ₁, hk⟩ := hf σ a σ₁ hn hσ ha
  obtain ⟨hQ, hle', hσ', hk'⟩ := hg a hP σ₁ b σ' (Nat.le_trans hn hle) hσ₁ hb
  exact ⟨hQ, Nat.le_trans hle hle', hσ', hk'.trans hk⟩

theorem imp {Q : α → Prop} (hf : Yields setting n f P) (h : ∀ a, P a → Q a) : Yields setting n f Q :=
  fun σ a σ' hn hσ ha => ⟨h a (hf σ a σ' hn hσ ha).1, (hf σ a σ' hn hσ ha).2⟩

theorem and {Q : α → Prop} (hP : Yields setting n f P) (hQ : Yields setting n f Q) :
    Yields setting n f fun a => P a ∧ Q a :=
  fun σ a σ' hn hσ ha => ⟨⟨(hP σ a σ' hn hσ ha).1, (hQ σ a σ' hn hσ ha).1⟩, (hP σ a σ' hn hσ ha).2⟩

theorem lift {g : Fresh α} (h : Fresh.From n g P) : Yields setting n (liftM g) P := by
  intro σ a σ' hn hσ ha
  obtain ⟨rfl, rfl⟩ := lift_eq_ok.mp ha
  exact ⟨(h _ hn).1, (h _ hn).2, hσ, rfl⟩

/-- A computation that leaves the session. -/
theorem of_eq (h : ∀ σ a σ', f setting σ = .ok (a, σ') → P a ∧ σ' = σ) : Yields setting n f P := by
  intro σ a σ' _ hσ ha
  obtain ⟨hP, rfl⟩ := h σ a σ' ha
  exact ⟨hP, Nat.le_refl _, hσ, rfl⟩

theorem read : Yields setting n read (· = setting) := of_eq fun _ _ _ h => read_eq_ok.mp h

theorem throw {e : LowerError} : Yields setting n (throw e : Lowering α) P := fun _ _ _ _ _ h =>
  (throw_ne_ok.mp h).elim

theorem limitation {cause : Limitation} {span : Option Span} :
    Yields setting n (limitation cause span : Lowering α) P := throw

theorem defect {cause : Defect} {span : Option Span} : Yields setting n (defect cause span : Lowering α) P := throw

theorem check {c : Bool} {cause : Defect} {span : Option Span} :
    Yields setting n (check c cause span) fun _ => c = true := of_eq fun _ _ _ h => check_eq_ok.mp h

theorem require {a? : Option α} {cause : Defect} {span : Option Span} :
    Yields setting n (require a? cause span) fun a => a? = some a := of_eq fun _ _ _ h => require_eq_ok.mp h

theorem inRange {taken available : Nat} : Yields setting n (inRange taken available) fun _ => taken ≤ available :=
  of_eq fun _ _ _ h => inRange_eq_ok.mp h

theorem addTuning {param : TuningParam} : Yields setting n (addTuning param) fun _ => True := by
  intro σ a σ' _ hσ ha
  obtain rfl := modify_eq_ok.mp ha
  exact ⟨trivial, Nat.le_refl _, hσ, rfl⟩

theorem markScatter : Yields setting n markScatter fun _ => True := by
  intro σ a σ' _ hσ ha
  obtain rfl := modify_eq_ok.mp ha
  exact ⟨trivial, Nat.le_refl _, hσ, rfl⟩

/-- A global array has the extents that the host gives it, or it has a new name. -/
theorem globalArray? {name : Ident} :
    Yields setting n (globalArray? name) fun a? => ∀ a ∈ a?, a.view.space = .global ∧
      ((∃ type shape, setting.env.arrays[name]? = some (type, shape) ∧ a.shape = shape.map Operand.toExp) ∨
        ∃ stem ∈ arrayStems, ∃ k, name = numbered stem k) := by
  intro σ a? σ' _ hσ ha
  simp only [Lowering.globalArray?, bind_eq_ok, read_eq_ok, get_eq_ok, pure_eq_ok] at ha
  obtain ⟨_, _, ⟨rfl, rfl⟩, _, _, ⟨rfl, rfl⟩, rfl, rfl⟩ := ha
  refine ⟨fun a ha => ?_, Nat.le_refl _, hσ, rfl⟩
  unfold SegKernel.globalArray? at ha
  split at ha
  · rename_i type shape h
    cases ha
    exact ⟨rfl, Or.inl ⟨type, shape, h, rfl⟩⟩
  · obtain ⟨alloc, halloc, rfl⟩ := Option.map_eq_some_iff.mp ha
    obtain ⟨stem, hstem, k, hk⟩ := hσ alloc (List.mem_of_find?_eq_some halloc)
    have hname := List.find?_some halloc
    rw [beq_iff_eq] at hname
    exact ⟨rfl, Or.inr ⟨stem, hstem, k, hname.symm.trans hk⟩⟩

theorem globalArray {name : Ident} {place : String} {span : Option Span} :
    Yields setting n (globalArray name place span) fun a => a.view.space = .global :=
  globalArray?.bind fun _ h => require.imp fun a ha => (h a ha).1

theorem allocate {stem : String} (hstem : stem ∈ arrayStems) {type : ScalarType} {length : Exp} :
    Yields setting n (allocate stem type length) fun v => v.space = .global := by
  intro σ v σ' _ hσ hv
  simp only [Lowering.allocate, bind_eq_ok, lift_eq_ok, modify_eq_ok, pure_eq_ok] at hv
  obtain ⟨name, σ₁, ⟨rfl, rfl⟩, _, σ₂, rfl, rfl, rfl⟩ := hv
  refine ⟨rfl, Nat.le_succ _, fun a ha => ?_, rfl⟩
  rcases List.mem_append.mp ha with ha | ha
  · exact hσ a ha
  · obtain rfl := List.mem_singleton.mp ha
    exact ⟨stem, hstem, _, rfl⟩

theorem mapM {g : α → Lowering β} {Q : β → Prop} : ∀ {as : List α}, (∀ a ∈ as, Yields setting n (g a) Q) →
    Yields setting n (as.mapM g) fun bs => ∀ b ∈ bs, Q b
  | [], _ => by
    rw [List.mapM_nil]
    exact pure (by simp)
  | a :: as, h => by
    rw [List.mapM_cons]
    refine (h a List.mem_cons_self).bind fun b hb => ?_
    refine (mapM fun a' ha' => h a' (List.mem_cons_of_mem a ha')).bind fun bs hbs => ?_
    refine pure fun y hy => ?_
    rcases List.mem_cons.mp hy with rfl | hy
    · exact hb
    · exact hbs y hy

end Yields
end SegKernel.Lowering
