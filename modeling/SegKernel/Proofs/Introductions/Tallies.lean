import Mathlib.Algebra.BigOperators.Group.List.Basic
import Mathlib.Algebra.GroupWithZero.Nat
import SegKernel.Proofs.Lowering.Yields
import SegKernel.Proofs.Names.Declared

/-! How often code introduces a name. A tally counts names so that, of all new names, only those of one
    number count; a computation that takes new names takes at most one of this number. -/

namespace SegKernel

/-- A count of names in which the new names of one number count at most once, and no other new names. -/
structure Tally where
  number : Nat
  weight : Ident → Nat
  new : ∀ stem ∈ uniformStems ++ ownStems ++ arrayStems ++ kernelStems, ∀ n,
    weight (numbered stem n) ≤ if n = number then 1 else 0

namespace Tally
variable (t : Tally)

def sum (names : List Ident) : Nat := (names.map t.weight).sum

/-- The count of what code declares. -/
def of (s : Stmt) : Nat := t.sum s.declared

def ofAll (stmts : List Stmt) : Nat := (stmts.map t.of).sum

/-- One, if the number is taken when the numbers from `n` on below `m` are taken. -/
def within (n m : Nat) : Nat := if n ≤ t.number ∧ t.number < m then 1 else 0

/-- None of the names counts. -/
def Ignores (names : List Ident) : Prop := ∀ x ∈ names, t.weight x = 0

variable {t : Tally} {names : List Ident} {s : Stmt} {stmts : List Stmt}

theorem within_self (n : Nat) : t.within n n = 0 := by
  unfold within
  rw [if_neg (by omega)]

theorem within_add {n m l : Nat} (hn : n ≤ m) (hm : m ≤ l) : t.within n m + t.within m l = t.within n l := by
  unfold within
  split <;> split <;> split <;> omega

theorem within_le_one (n m : Nat) : t.within n m ≤ 1 := by
  unfold within
  split <;> omega

theorem weight_new {stem : String} (hstem : stem ∈ uniformStems ++ ownStems ++ arrayStems ++ kernelStems) (n : Nat) :
    t.weight (numbered stem n) ≤ t.within n (n + 1) := by
  refine Nat.le_trans (t.new stem hstem n) ?_
  unfold within
  split <;> split <;> omega

/-! ### Lists of names -/

@[simp] theorem sum_nil : t.sum [] = 0 := rfl

@[simp] theorem sum_cons {x : Ident} : t.sum (x :: names) = t.weight x + t.sum names := by
  rw [sum, List.map_cons, List.sum_cons]
  rfl

@[simp] theorem sum_append {names' : List Ident} : t.sum (names ++ names') = t.sum names + t.sum names' := by
  rw [sum, List.map_append, List.sum_append]
  rfl

theorem sum_perm {names' : List Ident} (h : names.Perm names') : t.sum names = t.sum names' := (h.map _).sum_eq

theorem Ignores.sum (h : t.Ignores names) : t.sum names = 0 := by
  induction names with
  | nil => rfl
  | cons x xs ih =>
    rw [sum_cons, h x List.mem_cons_self, ih fun y hy => h y (List.mem_cons_of_mem x hy)]

theorem Ignores.mono {names' : List Ident} (h : t.Ignores names) (hsub : names' ⊆ names) : t.Ignores names' :=
  fun x hx => h x (hsub hx)

/-- A name counts as often as it occurs. -/
theorem count_mul_le (x : Ident) : ∀ names : List Ident, names.count x * t.weight x ≤ t.sum names
  | [] => by simp
  | y :: ys => by
    have rest := count_mul_le x ys
    rw [List.count_cons, sum_cons]
    split
    · rename_i h
      obtain rfl : y = x := by simpa using h
      rw [Nat.add_mul, Nat.one_mul]
      omega
    · rw [Nat.add_zero]
      omega

/-- Names that come from a list which is cut to the length of another one. -/
theorem sum_map_zip_le {α β : Type} (name : α → Ident) : ∀ (as : List α) (bs : List β),
    t.sum ((as.zip bs).map fun p => name p.1) ≤ t.sum (as.map name)
  | [], _ => by simp
  | _ :: _, [] => by simp
  | a :: as, b :: bs => by
    have := sum_map_zip_le name as bs
    simpa using this

theorem sum_map_fst_zip_le {α : Type} (names : List Ident) (as : List α) :
    t.sum ((names.zip as).map (·.1)) ≤ t.sum names := by
  simpa using sum_map_zip_le id names as

theorem sum_map_fst_zip_zip_le {α β : Type} (names : List Ident) (as : List α) (bs : List β) :
    t.sum (((names.zip as).zip bs).map (·.1.1)) ≤ t.sum names :=
  Nat.le_trans (sum_map_zip_le (·.1) (names.zip as) bs) (sum_map_fst_zip_le names as)

theorem sum_map_snd_zip_le {α : Type} :
    ∀ (as : List α) (names : List Ident), t.sum ((as.zip names).map (·.2)) ≤ t.sum names
  | [], _ => by simp
  | _ :: _, [] => by simp
  | a :: as, x :: xs => by
    have := sum_map_snd_zip_le as xs
    simpa using this

/-! ### Code -/

@[simp] theorem ofAll_nil : t.ofAll [] = 0 := rfl

@[simp] theorem ofAll_cons : t.ofAll (s :: stmts) = t.of s + t.ofAll stmts := by
  rw [ofAll, List.map_cons, List.sum_cons]
  rfl

@[simp] theorem ofAll_append {stmts' : List Stmt} : t.ofAll (stmts ++ stmts') = t.ofAll stmts + t.ofAll stmts' := by
  rw [ofAll, List.map_append, List.sum_append]
  rfl

theorem ofAll_flatMap {α : Type} (f : α → List Stmt) : ∀ as : List α,
    t.ofAll (as.flatMap f) = (as.map fun a => t.ofAll (f a)).sum
  | [] => rfl
  | a :: as => by rw [List.flatMap_cons, ofAll_append, ofAll_flatMap f as, List.map_cons, List.sum_cons]

@[simp] theorem ofAll_flatten (code : List (List Stmt)) : t.ofAll code.flatten = (code.map t.ofAll).sum := by
  rw [← List.flatMap_id', ofAll_flatMap]

theorem sum_flatMap_declared (stmts : List Stmt) : t.sum (stmts.flatMap Stmt.declared) = t.ofAll stmts := by
  induction stmts with
  | nil => rfl
  | cons s ss ih =>
    rw [List.flatMap_cons, sum_append, ih, ofAll_cons]
    rfl

theorem of_eq_zero (h : s.declared = []) : t.of s = 0 := by rw [of, h, sum_nil]

@[simp] theorem of_skip : t.of .skip = 0 := of_eq_zero rfl
@[simp] theorem of_set {name : Ident} {x : Exp} : t.of (.set name x) = 0 := of_eq_zero rfl
@[simp] theorem of_read {dest : Ident} {view : View} {index : Exp} : t.of (.read dest view index) = 0 := of_eq_zero rfl
@[simp] theorem of_write {view : View} {index x : Exp} : t.of (.write view index x) = 0 := of_eq_zero rfl
@[simp] theorem of_query {which : Query} {dest : Ident} : t.of (.query which dest) = 0 := of_eq_zero rfl
@[simp] theorem of_barrier {fence : Fence} : t.of (.barrier fence) = 0 := of_eq_zero rfl
@[simp] theorem of_memFence {fence : Fence} : t.of (.memFence fence) = 0 := of_eq_zero rfl

@[simp] theorem of_update {op : AtomicOp} {old : Ident} {view : View} {index x : Exp} :
    t.of (.update op old view index x) = 0 := of_eq_zero rfl

@[simp] theorem of_compareSwap {old : Ident} {view : View} {index expected desired : Exp} :
    t.of (.compareSwap old view index expected desired) = 0 := of_eq_zero rfl

@[simp] theorem of_declare {name : Ident} {type : ScalarType} {volatile : Bool} :
    t.of (.declare name type volatile) = t.weight name := by
  simp [of, Stmt.declared]

@[simp] theorem of_declareArray {name : Ident} {type : ScalarType} {length : Exp} {space : Space} :
    t.of (.declareArray name type length space) = t.weight name := by
  simp [of, Stmt.declared]

@[simp] theorem of_seq : t.of (.seq stmts) = t.ofAll stmts := by
  rw [of, Stmt.declared, Stmt.declaredAll_eq, sum_flatMap_declared]

@[simp] theorem of_block : t.of (.block stmts) = t.ofAll stmts := by
  rw [of, Stmt.declared_block, sum_flatMap_declared]

@[simp] theorem of_declareInit {name : Ident} {type : ScalarType} {x : Exp} :
    t.of (.declareInit name type x) = t.weight name := by
  simp [Stmt.declareInit]

@[simp] theorem of_comment {text : String} : t.of (.comment text s) = t.of s := by rw [of, of, Stmt.declared]

@[simp] theorem of_branch {c : Exp} {ifTrue ifFalse : Stmt} :
    t.of (.branch c ifTrue ifFalse) = t.of ifTrue + t.of ifFalse := by
  simp [of, Stmt.declared]

@[simp] theorem of_loop {iter : Ident} {bound : Exp} : t.of (.loop iter bound s) = t.weight iter + t.of s := by
  simp [of, Stmt.declared]

@[simp] theorem of_repeatWhile {c : Exp} : t.of (.repeatWhile c s) = t.of s := by rw [of, of, Stmt.declared]

/-- A guard that is known may drop code. -/
theorem of_when_le (c : Exp) (s : Stmt) : t.of (.when c s) ≤ t.of s := by
  unfold Stmt.when
  split <;> simp

theorem of_when_of_zero {c : Exp} (h : t.of s = 0) : t.of (.when c s) = 0 :=
  Nat.le_zero.mp (h ▸ of_when_le c s)

theorem of_ask {which : Query} {name : Ident} : t.of (Launch.ask which name) = t.weight name := by simp [Launch.ask]

/-- Code for each element, in which only a name of the element counts. -/
theorem ofAll_map_le {α : Type} {f : α → Stmt} (name : α → Ident) : ∀ (as : List α),
    (∀ a ∈ as, t.of (f a) ≤ t.weight (name a)) → t.ofAll (as.map f) ≤ t.sum (as.map name)
  | [], _ => Nat.le_refl _
  | a :: as, h => by
    have first := h a List.mem_cons_self
    have rest := ofAll_map_le name as fun b hb => h b (List.mem_cons_of_mem a hb)
    simp only [List.map_cons, ofAll_cons, sum_cons]
    omega

theorem ofAll_flatMap_le {α : Type} {f : α → List Stmt} (name : α → Ident) : ∀ (as : List α),
    (∀ a ∈ as, t.ofAll (f a) ≤ t.weight (name a)) → t.ofAll (as.flatMap f) ≤ t.sum (as.map name)
  | [], _ => Nat.le_refl _
  | a :: as, h => by
    have first := h a List.mem_cons_self
    have rest := ofAll_flatMap_le name as fun b hb => h b (List.mem_cons_of_mem a hb)
    simp only [List.flatMap_cons, List.map_cons, ofAll_append, sum_cons]
    omega

theorem ofAll_eq_zero (h : ∀ s ∈ stmts, t.of s = 0) : t.ofAll stmts = 0 := by
  induction stmts with
  | nil => rfl
  | cons s ss ih =>
    rw [ofAll_cons, h s List.mem_cons_self, ih fun s' hs' => h s' (List.mem_cons_of_mem s hs')]

theorem ofAll_map_eq_zero {α : Type} {f : α → Stmt} {as : List α} (h : ∀ a, t.of (f a) = 0) : t.ofAll (as.map f) = 0 :=
  ofAll_eq_zero fun s hs => by
    obtain ⟨a, -, rfl⟩ := List.mem_map.mp hs
    exact h a

/-! ### Nests -/

/-- The count of what a nest declares, without its body. -/
def ofNest (t : Tally) (n : Nest) : Nat :=
  t.ofAll n.setup + t.sum (n.counted.toList.map (·.1)) + t.ofAll n.before + t.ofAll n.after

theorem of_wrap_le (n : Nest) (s : Stmt) : t.of (n.wrap s) ≤ t.ofNest n + t.of s := by
  have := of_when_le (t := t) n.guard s
  unfold Nest.wrap ofNest
  split
  · rename_i h
    simp only [h, Nest.inner, of_block, ofAll_append, ofAll_cons, ofAll_nil, of_loop, Option.toList_some, List.map_cons,
      List.map_nil, sum_cons, sum_nil]
    omega
  · rename_i h
    simp only [h, Nest.inner, of_block, ofAll_append, ofAll_cons, ofAll_nil, Option.toList_none, List.map_nil, sum_nil]
    omega

end Tally

/-! ### Computations that take new names -/

/-- What the result of a computation counts is `given`, or comes from the names that it takes. -/
def Fresh.Costs {α : Type} (t : Tally) (f : Fresh α) (given : Nat) (cost : α → Nat) : Prop :=
  ∀ n, n ≤ (f.run n).2 ∧ cost (f.run n).1 ≤ given + t.within n (f.run n).2

namespace Fresh.Costs
variable {α β : Type} {t : Tally} {f : Fresh α} {given given' : Nat} {c : α → Nat}

theorem pure {a : α} (h : c a ≤ given) : Costs t (Pure.pure a) given c := fun n =>
  ⟨Nat.le_refl n, by rw [run_pure, Tally.within_self]; exact h⟩

/-- What the first result counts is given to the rest, with what is kept for it. -/
theorem bindWith {g : α → Fresh β} {c' : β → Nat} (kept : Nat) (hf : Costs t f given c)
    (hg : ∀ a, Costs t (g a) (kept + c a) c') (hle : kept + given ≤ given') : Costs t (f >>= g) given' c' := by
  intro n
  obtain ⟨hn, hcost⟩ := hf n
  obtain ⟨hm, hcost'⟩ := hg (f.run n).1 (f.run n).2
  have := Tally.within_add (t := t) hn hm
  rw [run_bind]
  exact ⟨Nat.le_trans hn hm, by omega⟩

theorem bind {g : α → Fresh β} {c' : β → Nat} (hf : Costs t f 0 c)
    (hg : ∀ a, Costs t (g a) (given + c a) c') : Costs t (f >>= g) given c' :=
  bindWith given hf hg (Nat.le_refl _)

theorem fresh {stem : String} (hstem : stem ∈ uniformStems ++ ownStems ++ arrayStems ++ kernelStems) :
    Costs t (SegKernel.fresh stem) 0 t.weight := fun n =>
  ⟨Nat.le_succ n, Nat.le_trans (Tally.weight_new hstem n) (Nat.le_add_left _ _)⟩

theorem freshFor {stem : String} (hstem : stem ∈ uniformStems ++ ownStems ++ arrayStems ++ kernelStems) :
    ∀ as : List α, Costs t (SegKernel.freshFor stem as) 0 t.sum
  | [] => pure (Nat.le_refl _)
  | a :: as => by
    refine (fresh hstem).bind fun x => (freshFor hstem as).bind fun xs => pure ?_
    rw [Tally.sum_cons]
    omega

theorem mapM {g : α → Fresh β} {c : β → Nat} : ∀ {as : List α}, (∀ a ∈ as, Costs t (g a) 0 c) →
    Costs t (as.mapM g) 0 fun bs => (bs.map c).sum
  | [], _ => by
    rw [List.mapM_nil]
    exact pure (Nat.le_refl _)
  | a :: as, h => by
    rw [List.mapM_cons]
    refine (h a List.mem_cons_self).bind fun b => (mapM fun a' ha' => h a' (List.mem_cons_of_mem a ha')).bind fun bs =>
      pure ?_
    rw [List.map_cons, List.sum_cons]
    omega

/-- Each step of a fold adds names that it takes. -/
theorem foldlM {γ : Type} {g : β → γ → Fresh β} {c : β → Nat} : ∀ {as : List γ} {b : β},
    (∀ a ∈ as, ∀ b, Costs t (g b a) (c b) c) → Costs t (as.foldlM g b) (c b) c
  | [], b, _ => by
    rw [List.foldlM_nil]
    exact pure (Nat.le_refl _)
  | a :: as, b, h => by
    rw [List.foldlM_cons]
    refine bindWith 0 (h a List.mem_cons_self b) (fun b' => ?_) (by omega)
    rw [Nat.zero_add]
    exact foldlM fun a' ha' => h a' (List.mem_cons_of_mem a ha')

end Fresh.Costs
end SegKernel
