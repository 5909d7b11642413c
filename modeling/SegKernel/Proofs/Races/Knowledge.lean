import SegKernel.Proofs.Evaluation.Words
import SegKernel.Proofs.Races.Lockstep

/-! Code of a thread that heeds its rights, by what is known of the variables. Code gives values to
    variables of which nothing was known, so what is known stays, or grows by the values that matter. -/

namespace SegKernel

namespace Scope
variable {σ : Scope} {name : Ident} {v w : Value}

theorem set_set : (σ.set name v).set name w = σ.set name w := by
  funext x
  unfold set
  split <;> rfl

theorem set_comm {other : Ident} (h : name ≠ other) : (σ.set name v).set other w = (σ.set other w).set name v := by
  funext x
  unfold set
  split
  · rename_i hx
    rw [if_neg fun e => h (e.trans hx.symm)]
  · rfl

end Scope

namespace Watch

mutual

theorem Heeds.imp {W : Watch} {R : W.Rights} {t : Nat} {Q Q' : Scope → Prop} (h : ∀ σ, Q σ → Q' σ) :
    ∀ {stmt : Stmt} {σ : Scope}, W.Heeds R t stmt Q σ → W.Heeds R t stmt Q' σ
  | .skip, σ, hs | .memFence _, σ, hs | .declareArray .., σ, hs => by
    rw [Heeds] at *
    exact h σ hs
  | .seq stmts, σ, hs => by
    rw [Heeds] at *
    exact HeedsAll.imp h hs
  | .comment _ body, σ, hs => by
    rw [Heeds] at *
    exact Heeds.imp h hs
  | .declare .., σ, hs | .query .., σ, hs => by
    rw [Heeds] at *
    exact h _ hs
  | .set .., σ, hs => by
    rw [Heeds] at *
    exact fun v hv => h _ (hs v hv)
  | .read .., σ, hs => by
    rw [Heeds] at *
    exact fun i hi => ⟨(hs i hi).1, fun v => h _ ((hs i hi).2 v)⟩
  | .write .., σ, hs => by
    rw [Heeds] at *
    exact fun i hi => ⟨(hs i hi).1, h _ (hs i hi).2⟩
  | .branch .., σ, hs => by
    rw [Heeds] at *
    exact ⟨fun hc => Heeds.imp h (hs.1 hc), fun hc => Heeds.imp h (hs.2 hc)⟩
  | .loop .., σ, hs => by
    rw [Heeds] at *
    intro n hn
    obtain ⟨I, hI, hstep, hend⟩ := hs n hn
    exact ⟨I, hI, hstep, fun σ hσ => h σ (hend σ hσ)⟩
  | .repeatWhile .., σ, hs | .barrier _, σ, hs | .update .., σ, hs | .compareSwap .., σ, hs => by
    rw [Heeds] at hs
    exact hs.elim

theorem HeedsAll.imp {W : Watch} {R : W.Rights} {t : Nat} {Q Q' : Scope → Prop} (h : ∀ σ, Q σ → Q' σ) :
    ∀ {stmts : List Stmt} {σ : Scope}, W.HeedsAll R t stmts Q σ → W.HeedsAll R t stmts Q' σ
  | [], σ, hs => by
    rw [HeedsAll] at *
    exact h σ hs
  | stmt :: stmts, σ, hs => by
    rw [HeedsAll] at *
    exact Heeds.imp (fun σ hσ => HeedsAll.imp h hσ) hs

end

variable {W : Watch} {R : W.Rights} {t : Nat}

theorem heedsAll_append (as bs : List Stmt) (Q : Scope → Prop) :
    W.HeedsAll R t (as ++ bs) Q = W.HeedsAll R t as (W.HeedsAll R t bs Q) := by
  induction as with
  | nil => rw [List.nil_append, HeedsAll]
  | cons a as ih => rw [List.cons_append, HeedsAll, HeedsAll, ih]

theorem heedsAll_singleton (stmt : Stmt) (Q : Scope → Prop) : W.HeedsAll R t [stmt] Q = W.Heeds R t stmt Q := by
  rw [HeedsAll, HeedsAll]

theorem heedsAll_pieces (stmt : Stmt) (Q : Scope → Prop) : W.HeedsAll R t stmt.pieces Q = W.Heeds R t stmt Q := by
  cases stmt with
  | skip => rw [Stmt.pieces, HeedsAll, Heeds]
  | seq stmts => rw [Stmt.pieces, Heeds]
  | _ => rw [Stmt.pieces, heedsAll_singleton] <;> simp

theorem heedsAll_flatMap_pieces (stmts : List Stmt) (Q : Scope → Prop) :
    W.HeedsAll R t (stmts.flatMap Stmt.pieces) Q = W.HeedsAll R t stmts Q := by
  induction stmts with
  | nil => rfl
  | cons stmt stmts ih => rw [List.flatMap_cons, heedsAll_append, ih, heedsAll_pieces, HeedsAll]

theorem heeds_block (stmts : List Stmt) (Q : Scope → Prop) : W.Heeds R t (.block stmts) Q = W.HeedsAll R t stmts Q := by
  rw [← heedsAll_flatMap_pieces, Stmt.block]
  split
  · rename_i h
    rw [h, HeedsAll, Heeds]
  · rename_i stmt h
    rw [h, heedsAll_singleton]
  · rw [Heeds]

/-! ### From knowledge to knowledge -/

/-- A thread that knows `τ` heeds its rights, and knows `τ'` in the end. -/
def Obeys (W : Watch) (R : W.Rights) (t : Nat) (τ : Scope) (stmts : List Stmt) (τ' : Scope) : Prop :=
  ∀ σ, τ.Le σ → W.HeedsAll R t stmts τ'.Le σ

/-- A thread that knows `τ` has the right to an access of each view, wherever the index may be. -/
def Grants (W : Watch) (R : W.Rights) (t : Nat) (τ : Scope) (views : List View) (index : Exp) (isWrite : Bool) : Prop :=
  ∀ σ, τ.Le σ → ∀ i, index.evalInt σ = .ok i → ∀ view ∈ views, W.Permits R t view i isWrite

/-- A condition may hold for all that is known. -/
def May (τ : Scope) (c : Exp) : Prop := ∃ σ, τ.Le σ ∧ c.evalBool σ = .ok true

variable {τ τ' τ'' : Scope} {views : List View} {view : View} {index x c : Exp} {isWrite : Bool} {name : Ident}
  {v : Value} {stmt : Stmt} {stmts : List Stmt}

theorem Grants.of_eval {i : Int64} (hi : index.eval τ = .ok (.i64 i))
    (h : ∀ view ∈ views, W.Permits R t view i isWrite) : W.Grants R t τ views index isWrite := by
  intro σ hσ j hj
  rw [Exp.evalInt, Exp.eval_mono hσ hi] at hj
  cases hj
  exact h

theorem May.isBool {b : Bool} (h : May τ c) (hc : Exp.IsBool τ c b) : b = true := by
  obtain ⟨σ, hσ, hcσ⟩ := h
  rw [(hc.mono hσ).evalBool] at hcσ
  exact Except.ok.inj hcσ

namespace May
variable {y : Exp} {a b : Int64}

theorem both (h : May τ (x.both y)) : May τ x ∧ May τ y := by
  obtain ⟨σ, hσ, hxy⟩ := h
  obtain ⟨hx, hy⟩ := Exp.evalBool_both hxy
  exact ⟨⟨σ, hσ, hx⟩, σ, hσ, hy⟩

theorem lt (h : May τ (x.lt y)) (hx : x.eval τ = .ok (.i64 a)) (hy : y.eval τ = .ok (.i64 b)) : a.toInt < b.toInt :=
  of_decide_eq_true (h.isBool (.lt (Exp.isInt_of_eval hx) (Exp.isInt_of_eval hy)))

theorem le (h : May τ (x.le y)) (hx : x.eval τ = .ok (.i64 a)) (hy : y.eval τ = .ok (.i64 b)) : a.toInt ≤ b.toInt :=
  of_decide_eq_true (h.isBool (.le (Exp.isInt_of_eval hx) (Exp.isInt_of_eval hy)))

theorem equals (h : May τ (x.equals y)) (hx : x.eval τ = .ok (.i64 a)) (hy : y.eval τ = .ok (.i64 b)) : a = b :=
  Int64.toInt_inj.mp (of_decide_eq_true (h.isBool (.equals (Exp.isInt_of_eval hx) (Exp.isInt_of_eval hy))))

end May

namespace Obeys

theorem nil (τ : Scope) : W.Obeys R t τ [] τ := by
  intro σ hσ
  rwa [HeedsAll]

theorem append {as bs : List Stmt} (h : W.Obeys R t τ as τ') (h' : W.Obeys R t τ' bs τ'') :
    W.Obeys R t τ (as ++ bs) τ'' := by
  intro σ hσ
  rw [heedsAll_append]
  exact HeedsAll.imp h' (h σ hσ)

theorem cons (h : W.Obeys R t τ [stmt] τ') (h' : W.Obeys R t τ' stmts τ'') : W.Obeys R t τ (stmt :: stmts) τ'' :=
  append h h'

theorem forget (h : W.Obeys R t τ stmts τ') (hle : τ''.Le τ') : W.Obeys R t τ stmts τ'' := fun σ hσ =>
  HeedsAll.imp (fun _ hσ' => hle.trans hσ') (h σ hσ)

theorem block (h : W.Obeys R t τ stmts τ') : W.Obeys R t τ [.block stmts] τ' := by
  intro σ hσ
  rw [heedsAll_singleton, heeds_block]
  exact h σ hσ

theorem seq (h : W.Obeys R t τ stmts τ') : W.Obeys R t τ [.seq stmts] τ' := by
  intro σ hσ
  rw [heedsAll_singleton, Heeds]
  exact h σ hσ

/-- Code whose parts leave what is known. -/
theorem forall_mem : ∀ {stmts : List Stmt}, (∀ stmt ∈ stmts, W.Obeys R t τ [stmt] τ) → W.Obeys R t τ stmts τ
  | [], _ => nil τ
  | _ :: _, h => cons (h _ List.mem_cons_self) (forall_mem fun stmt hs => h stmt (List.mem_cons_of_mem _ hs))

theorem flatMap {α : Type} {f : α → List Stmt} : ∀ {as : List α}, (∀ a ∈ as, W.Obeys R t τ (f a) τ) →
    W.Obeys R t τ (as.flatMap f) τ
  | [], _ => nil τ
  | a :: as, h => by
    rw [List.flatMap_cons]
    exact append (h a List.mem_cons_self) (flatMap fun b hb => h b (List.mem_cons_of_mem a hb))

theorem declare (type : ScalarType) (volatile : Bool) (hname : τ name = none) :
    W.Obeys R t τ [.declare name type volatile] τ := by
  intro σ hσ
  rw [heedsAll_singleton, Heeds]
  exact (Scope.le_set hname).trans hσ.set

theorem set_of_known (hx : x.eval τ = .ok v) : W.Obeys R t τ [.set name x] (τ.set name v) := by
  intro σ hσ
  rw [heedsAll_singleton, Heeds]
  intro w hw
  rw [Exp.eval_mono hσ hx] at hw
  cases hw
  exact hσ.set

theorem set (x : Exp) (hname : τ name = none) : W.Obeys R t τ [.set name x] τ := by
  intro σ hσ
  rw [heedsAll_singleton, Heeds]
  exact fun v _ => (Scope.le_set hname).trans hσ.set

theorem declareInit_of_known (type : ScalarType) (hname : τ name = none) (hx : x.eval τ = .ok v) :
    W.Obeys R t τ [.declareInit name type x] (τ.set name v) :=
  seq (cons (declare type false hname) (set_of_known hx))

theorem declareInit (type : ScalarType) (x : Exp) (hname : τ name = none) :
    W.Obeys R t τ [.declareInit name type x] τ := seq (cons (declare type false hname) (set x hname))

theorem read (hname : τ name = none) (h : W.Grants R t τ [view] index false) :
    W.Obeys R t τ [.read name view index] τ := by
  intro σ hσ
  rw [heedsAll_singleton, Heeds]
  exact fun i hi => ⟨h σ hσ i hi view List.mem_cons_self, fun v => (Scope.le_set hname).trans hσ.set⟩

theorem write (x : Exp) (h : W.Grants R t τ [view] index true) : W.Obeys R t τ [.write view index x] τ := by
  intro σ hσ
  rw [heedsAll_singleton, Heeds]
  exact fun i hi => ⟨h σ hσ i hi view List.mem_cons_self, hσ⟩

theorem when (h : May τ c → W.Obeys R t τ [stmt] τ) : W.Obeys R t τ [.when c stmt] τ := by
  intro σ hσ
  rw [heedsAll_singleton]
  have body : c.evalBool σ = .ok true → W.Heeds R t stmt τ.Le σ := fun hc => by
    rw [← heedsAll_singleton]
    exact h ⟨σ, hσ, hc⟩ σ hσ
  unfold Stmt.when
  split
  · rename_i hc
    exact body (by rw [Exp.evalBool, Exp.eval_of_bool? hc])
  · rw [Heeds]
    exact hσ
  · rw [Heeds, Heeds]
    exact ⟨body, fun _ => hσ⟩

/-- A loop over what is left to the thread. -/
theorem loop {bound : Exp} {n : Int64} (hbound : bound.eval τ = .ok (.i64 n))
    (h : ∀ k < n.toInt.toNat, W.Obeys R t (τ.set name (.i64 (Int64.ofNat k))) [stmt] τ) :
    W.Obeys R t τ [.loop name bound stmt] τ := by
  intro σ hσ
  rw [heedsAll_singleton, Heeds]
  intro m hm
  rw [Exp.evalInt, Exp.eval_mono hσ hbound] at hm
  cases hm
  refine ⟨fun _ => τ.Le, hσ, fun k σ' hk hσ' => ?_, fun _ hσ' => hσ'⟩
  rw [← heedsAll_singleton]
  exact h k hk _ hσ'.set

end Obeys
end Watch
end SegKernel
