import SegKernel.Proofs.Evaluation.Folding
import SegKernel.Proofs.Evaluation.Variables
import SegKernel.Proofs.Execution.Threads
import SegKernel.Proofs.Names.Scope

/-! What is known of variables. A scope that knows some variables is part of every scope that knows more
    of them, and what an expression means in the first, it means in the second. Code that gives values
    to new names leaves what is known before. -/

namespace SegKernel

namespace Scope

/-- Every variable of `σ` has the same value in `τ`. -/
def Le (σ τ : Scope) : Prop := ∀ x v, σ x = some v → τ x = some v

/-- The scope in which a variable has a value. -/
def set (σ : Scope) (name : Ident) (v : Value) : Scope := fun x => if name = x then some v else σ x

variable {σ τ υ : Scope} {name : Ident} {v : Value}

theorem Le.refl (σ : Scope) : σ.Le σ := fun _ _ h => h

theorem Le.trans (h : σ.Le τ) (h' : τ.Le υ) : σ.Le υ := fun x v hx => h' x v (h x v hx)

@[simp] theorem set_self : σ.set name v name = some v := if_pos rfl

theorem set_of_ne {x : Ident} (h : name ≠ x) : σ.set name v x = σ x := if_neg h

/-- A new variable adds to what is known. -/
theorem le_set (h : σ name = none) : σ.Le (σ.set name v) := by
  intro x w hx
  rw [set_of_ne fun e => by rw [e, hx] at h; cases h]
  exact hx

theorem Le.set (h : σ.Le τ) : (σ.set name v).Le (τ.set name v) := by
  intro x w hx
  unfold Scope.set at *
  split
  · rwa [if_pos ‹_›] at hx
  · rw [if_neg ‹_›] at hx
    exact h x w hx

end Scope

namespace Exp
variable {σ τ : Scope} {x : Exp}

/-- An expression with a value keeps it when more is known. -/
theorem eval_mono (h : σ.Le τ) : ∀ {x : Exp} {v : Value}, x.eval σ = .ok v → x.eval τ = .ok v
  | .var name, v, hx => by
    cases hname : σ name with
    | none => simp [eval, hname] at hx
    | some w =>
      simp only [eval, hname] at hx
      simpa only [eval, h name w hname] using hx
  | .const _, v, hx => hx
  | .binary op x y, v, hxy => by
    cases hx : x.eval σ with
    | error fault =>
      simp only [eval, hx] at hxy
      cases hxy
    | ok a =>
      have hx' := eval_mono h hx
      cases hy : y.eval σ with
      | ok b =>
        have hy' := eval_mono h hy
        simp only [eval, hx, hy] at hxy
        simpa only [eval, hx', hy'] using hxy
      | error fault =>
        -- Without a second operand only a connective can have a value, and then the first one decides it.
        simp only [eval, hx, hy] at hxy
        simp only [eval, hx']
        cases op with
        | logAnd =>
          cases a with
          | bool b =>
            cases b with
            | true => cases hxy
            | false => exact hxy
          | _ => cases hxy
        | logOr =>
          cases a with
          | bool b =>
            cases b with
            | true => exact hxy
            | false => cases hxy
          | _ => cases hxy
        | _ =>
          cases a with
          | bool b => cases b <;> cases hxy
          | _ => cases hxy
  | .compare op x y, v, hxy => by
    cases hx : x.eval σ with
    | error fault =>
      simp only [eval, hx] at hxy
      cases hxy
    | ok a =>
      cases hy : y.eval σ with
      | error fault =>
        simp only [eval, hx, hy] at hxy
        cases hxy
      | ok b =>
        simp only [eval, hx, hy] at hxy
        simpa only [eval, eval_mono h hx, eval_mono h hy] using hxy
  | .unary op x, v, hxy => by
    cases hx : x.eval σ with
    | error fault =>
      simp only [eval, hx] at hxy
      cases hxy
    | ok a =>
      simp only [eval, hx] at hxy
      simpa only [eval, eval_mono h hx] using hxy
  | .convert type x, v, hxy => by
    cases hx : x.eval σ with
    | error fault =>
      simp only [eval, hx] at hxy
      cases hxy
    | ok a =>
      simp only [eval, hx] at hxy
      simpa only [eval, eval_mono h hx] using hxy
  | .bitcast type x, v, hxy => by
    cases hx : x.eval σ with
    | error fault =>
      simp only [eval, hx] at hxy
      cases hxy
    | ok a =>
      simp only [eval, hx] at hxy
      simpa only [eval, eval_mono h hx] using hxy
  | .select c t e, v, hcte => by
    cases hc : c.eval σ with
    | error fault =>
      simp only [eval, hc] at hcte
      cases hcte
    | ok a =>
      cases a with
      | bool b =>
        cases b with
        | true =>
          simp only [eval, hc] at hcte
          simpa only [eval, eval_mono h hc] using eval_mono h hcte
        | false =>
          simp only [eval, hc] at hcte
          simpa only [eval, eval_mono h hc] using eval_mono h hcte
      | _ =>
        simp only [eval, hc] at hcte
        cases hcte

theorem IsInt.mono {i : Int} (hx : IsInt σ x i) (h : σ.Le τ) : IsInt τ x i := by
  obtain ⟨a, ha, hi⟩ := hx
  exact ⟨a, eval_mono h ha, hi⟩

theorem IsBool.mono {b : Bool} (hx : IsBool σ x b) (h : σ.Le τ) : IsBool τ x b := eval_mono h hx

theorem Values.mono {xs : List Exp} {vs : List Value} (hx : Values σ xs vs) (h : σ.Le τ) : Values τ xs vs :=
  hx.imp fun _ _ => eval_mono h

end Exp

namespace Lambda
variable {σ τ : Scope} {l : Lambda} {xs ys zs : List Value}

theorem scope_mono (h : σ.Le τ) : (l.scope σ xs ys).Le (l.scope τ xs ys) := by
  intro name v hv
  unfold scope at *
  cases ha : l.argument xs ys name with
  | some w => rwa [ha] at hv
  | none =>
    rw [ha, Option.none_or] at hv
    exact h name v hv

theorem Combines.mono (hc : l.Combines σ xs ys zs) (h : σ.Le τ) : l.Combines τ xs ys zs :=
  Exp.Values.mono hc (scope_mono h)

end Lambda

namespace Thread
variable {σ : Scope} {captured : Table Value} {th : Thread} {name : Ident} {v : Value}

/-- A thread that gives a variable a value knows it then. -/
theorem set_le_scope_bind (h : σ.Le (th.scope captured)) : (σ.set name v).Le ((th.bind name v).scope captured) := by
  have e : (th.bind name v).scope captured = Scope.set (th.scope captured) name v :=
    funext fun y => th.scope_bind captured name v y
  rw [e]
  exact h.set

/-- What is known of other variables stays. -/
theorem le_scope_bind (h : σ.Le (th.scope captured)) (hname : σ name = none) :
    σ.Le ((th.bind name v).scope captured) :=
  (Scope.le_set hname).trans (set_le_scope_bind h)

/-- A variable that does not come from the host is the thread's own. -/
theorem own_of_known (h : σ.Le (th.scope captured)) (hcaptured : captured[name]? = none) (hv : σ name = some v) :
    th.scalars[name]? = some v := by
  have := h name v hv
  unfold scope at this
  split at this
  · rename_i w hw
    rwa [hw]
  · rw [hcaptured] at this
    cases this

end Thread

/-! ### New names -/

/-- A name that lowering can take when it has taken at least `n` names. -/
def New (n : Nat) (x : Ident) : Prop :=
  ∃ stem ∈ uniformStems ++ ownStems ++ arrayStems ++ kernelStems, ∃ k, n ≤ k ∧ x = numbered stem k

theorem new_numbered {stem : String} (h : stem ∈ uniformStems ++ ownStems ++ arrayStems ++ kernelStems) {n k : Nat}
    (hk : n ≤ k) : New n (numbered stem k) := ⟨stem, h, k, hk, rfl⟩

theorem New.mono {n m : Nat} {x : Ident} (h : New m x) (hn : n ≤ m) : New n x := by
  obtain ⟨stem, hstem, k, hk, rfl⟩ := h
  exact new_numbered hstem (Nat.le_trans hn hk)

theorem New.ne_numbered {n k : Nat} {x : Ident} {stem : String} (h : New n x) (hk : k < n) : numbered stem k ≠ x := by
  obtain ⟨stem', -, k', hk', rfl⟩ := h
  intro e
  have := (numbered_inj.mp e).2
  omega

theorem New.generated {n : Nat} {x : Ident} (h : New n x) : Generated x := by
  obtain ⟨stem, hstem, k, -, rfl⟩ := h
  exact ⟨stem, hstem, k, rfl⟩

/-- Nothing is known of the names that lowering can take when it has taken at least `n` names. -/
def Scope.Before (n : Nat) (σ : Scope) : Prop := ∀ x, New n x → σ x = none

namespace Scope.Before
variable {σ : Scope} {n m : Nat}

theorem mono (h : σ.Before n) (hm : n ≤ m) : σ.Before m := fun x hx => h x (hx.mono hm)

theorem fresh (h : σ.Before n) {stem : String} (hstem : stem ∈ uniformStems ++ ownStems ++ arrayStems ++ kernelStems)
    {k : Nat} (hk : n ≤ k) : σ (numbered stem k) = none := h _ (new_numbered hstem hk)

/-- A name that was taken may be known later. -/
theorem set (h : σ.Before n) {stem : String} {k : Nat} {v : Value} (hn : n ≤ m) (hk : k < m) :
    (σ.set (numbered stem k) v).Before m := by
  intro x hx
  rw [set_of_ne (hx.ne_numbered hk)]
  exact h x (hx.mono hn)

/-- A name that is not new may be known. -/
theorem set_of_not_new (h : σ.Before n) {name : Ident} {v : Value} (hname : ¬New n name) :
    (σ.set name v).Before n := by
  intro x hx
  have hne : name ≠ x := fun e => hname (e ▸ hx)
  rw [set_of_ne hne]
  exact h x hx

end Scope.Before

/-! ## Names in their order

The names that a computation takes, in their order. The next name has a number that no name before has. -/

/-- A name that was taken when between `n` and `m` names were taken. -/
def Taken (n m : Nat) (x : Ident) : Prop :=
  ∃ stem ∈ uniformStems ++ ownStems ++ arrayStems ++ kernelStems, ∃ k, n ≤ k ∧ k < m ∧ x = numbered stem k

namespace Taken
variable {n m n' m' : Nat} {x : Ident}

theorem new (h : Taken n m x) : New n x := by
  obtain ⟨stem, hstem, k, hk, -, rfl⟩ := h
  exact new_numbered hstem hk

theorem mono (h : Taken n m x) (hn : n' ≤ n) (hm : m ≤ m') : Taken n' m' x := by
  obtain ⟨stem, hstem, k, hk, hkm, rfl⟩ := h
  exact ⟨stem, hstem, k, Nat.le_trans hn hk, Nat.lt_of_lt_of_le hkm hm, rfl⟩

/-- A name that is taken later is another one. -/
theorem ne_numbered (h : Taken n m x) {stem : String} {k : Nat} (hk : m ≤ k) : numbered stem k ≠ x := by
  obtain ⟨stem', -, k', -, hkm, rfl⟩ := h
  intro e
  have := (numbered_inj.mp e).2
  omega

end Taken

/-- The result of a computation after `n` names were taken, with the number of names taken then. -/
def Fresh.At {α : Type} (n : Nat) (f : Fresh α) (P : Nat → α → Prop) : Prop :=
  n ≤ (f.run n).2 ∧ P (f.run n).2 (f.run n).1

namespace Fresh.At
variable {α β : Type} {n : Nat} {f : Fresh α} {P Q : Nat → α → Prop}

theorem pure {a : α} (h : P n a) : At n (Pure.pure a) P := ⟨Nat.le_refl _, h⟩

theorem bind {g : α → Fresh β} {Q : Nat → β → Prop} (hf : At n f P) (hg : ∀ m a, n ≤ m → P m a → At m (g a) Q) :
    At n (f >>= g) Q := by
  obtain ⟨hle, hP⟩ := hf
  obtain ⟨hle', hQ⟩ := hg _ _ hle hP
  exact ⟨Nat.le_trans hle hle', hQ⟩

theorem imp (hf : At n f P) (h : ∀ m a, n ≤ m → P m a → Q m a) : At n f Q := ⟨hf.1, h _ _ hf.1 hf.2⟩

theorem fresh (stem : String) : At n (SegKernel.fresh stem) fun m x => m = n + 1 ∧ x = numbered stem n :=
  ⟨Nat.le_succ n, rfl, rfl⟩

/-- A name is taken, and the rest goes on from the next number. -/
theorem take {stem : String} {g : Ident → Fresh β} {Q : Nat → β → Prop} (h : At (n + 1) (g (numbered stem n)) Q) :
    At n (SegKernel.fresh stem >>= g) Q := by
  refine (fresh stem).bind ?_
  rintro m x - ⟨rfl, rfl⟩
  exact h

theorem freshFor {stem : String} (hstem : stem ∈ uniformStems ++ ownStems ++ arrayStems ++ kernelStems) :
    ∀ {n : Nat} (as : List α), At n (SegKernel.freshFor stem as) fun m xs => ∀ x ∈ xs, Taken n m x
  | n, [] => pure (by simp)
  | n, a :: as => by
    refine take ?_
    refine (freshFor hstem as).bind fun m xs hm hxs => ?_
    refine pure fun x hx => ?_
    rcases List.mem_cons.mp hx with rfl | hx
    · exact ⟨stem, hstem, n, Nat.le_refl n, hm, rfl⟩
    · exact (hxs x hx).mono (Nat.le_succ n) (Nat.le_refl m)

/-- The same computation for each element of a list. -/
theorem mapM {g : α → Fresh β} {Q : β → Prop} : ∀ {as : List α} {n : Nat},
    (∀ a ∈ as, ∀ m, n ≤ m → At m (g a) fun _ b => Q b) → At n (as.mapM g) fun _ bs => ∀ b ∈ bs, Q b
  | [], n, _ => by
    rw [List.mapM_nil]
    exact pure (by simp)
  | a :: as, n, h => by
    rw [List.mapM_cons]
    refine (h a List.mem_cons_self n (Nat.le_refl n)).bind fun m b hm hb => ?_
    refine (mapM fun a' ha' k hk => h a' (List.mem_cons_of_mem a ha') k (Nat.le_trans hm hk)).bind fun k bs _ hbs => ?_
    refine pure fun y hy => ?_
    rcases List.mem_cons.mp hy with rfl | hy
    · exact hb
    · exact hbs y hy

/-- What each step of a fold preserves holds of its result. -/
theorem foldlM {γ : Type} {g : β → γ → Fresh β} {Q : Nat → β → Prop} : ∀ {cs : List γ} {n : Nat} {b : β}, Q n b →
    (∀ c ∈ cs, ∀ m b, n ≤ m → Q m b → At m (g b c) Q) → At n (cs.foldlM g b) Q
  | [], _, _, hb, _ => by
    rw [List.foldlM_nil]
    exact pure hb
  | c :: cs, n, b, hb, h => by
    rw [List.foldlM_cons]
    refine (h c List.mem_cons_self n b (Nat.le_refl n) hb).bind fun m b' hm hb' => ?_
    exact foldlM hb' fun c' hc' k b hk => h c' (List.mem_cons_of_mem c hc') k b (Nat.le_trans hm hk)

end Fresh.At

end SegKernel
