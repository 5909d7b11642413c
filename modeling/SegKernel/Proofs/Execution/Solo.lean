import SegKernel.Proofs.Evaluation.Folding
import SegKernel.Proofs.Evaluation.Variables
import SegKernel.Proofs.Execution.Stores

/-! What a thread does on its own. Code without barriers and atomic operations ensures a claim about the
    thread and its writes, if it cannot fail and the claim holds in the end. Each thread has slots that
    it may write, and it reads only slots that no other thread may write. A loop has an invariant. -/

namespace SegKernel

/-- A claim about a thread, and about what it has written to the memory that threads share. -/
abbrev Claim := Thread → List Write → Prop

/-- The claim holds when the thread has a new value in one of its variables. -/
def Claim.Assigns (name : Ident) (v : Value) (Q : Claim) : Claim := fun th ws =>
  (∃ old, th.scalars[name]? = some old ∧ old.type = v.type) ∧ Q (th.bind name v) ws

/-- A thread among the others of its group, from some memory on. -/
structure Solo where
  ctx : GroupContext
  /-- The memory at the start. -/
  store : Store
  /-- The slots that each thread may write. -/
  own : Nat → Slot → Prop
  /-- The thread. -/
  id : Nat

namespace Solo
variable (E : Solo)

/-- No other thread may write the slot. -/
def Keeps (p : Slot) : Prop := ∀ t, t ≠ E.id → ¬E.own t p

/-- The thread sees a value at an index of an array. -/
def Loads (view : View) (index : Int64) (v : Value) (th : Thread) (ws : List Write) : Prop :=
  match view.space with
  | .thread => ∃ b, th.arrays[view.array]? = some b ∧ b.load view index = .ok v
  | space => E.Keeps ⟨space, view.array, index.toInt.toNat⟩ ∧ (E.store.puts ws).load view index = .ok v

/-- The claim holds when the thread has stored a value. -/
def Stores (view : View) (index : Int64) (v : Value) (Q : Claim) : Claim := fun th ws =>
  v.type = view.type ∧
    match view.space with
    | .thread => ∃ b p, th.arrays[view.array]? = some b ∧ b.position view index = .ok p ∧
        Q { th with arrays := th.arrays.modify view.array (·.put p v.toBits) } ws
    | space => ∃ p, E.store.position view index = .ok p ∧ E.own E.id ⟨space, view.array, p⟩ ∧
        Q th (ws ++ [⟨⟨space, view.array, p⟩, v.toBits⟩])

def scope (th : Thread) : Scope := th.scope E.ctx.captured

mutual

/-- The code ends without a fault, and the claim holds then. -/
def Ensures : Stmt → Claim → Claim
  | .skip, Q => Q
  | .seq stmts, Q => EnsuresAll stmts Q
  | .comment _ body, Q => Ensures body Q
  | .declare name type _, Q => fun th ws => Q (th.bind name (.zero type)) ws
  | .declareArray name type length space, Q => fun th ws =>
    ∃ i n, length.evalInt (E.scope th) = .ok i ∧ arrayLength name i = .ok n ∧
      match space with
      | .thread => Q { th with arrays := th.arrays.insert name (.zeroed type n) } ws
      | .shared => (E.store.layout? .shared name).isSome = true ∧ Q th ws
      | .global => False
  | .set name x, Q => fun th ws => ∃ v, x.eval (E.scope th) = .ok v ∧ Claim.Assigns name v Q th ws
  | .read dest view index, Q => fun th ws =>
    ∃ i v, index.evalInt (E.scope th) = .ok i ∧ E.Loads view i v th ws ∧ Claim.Assigns dest v Q th ws
  | .write view index x, Q => fun th ws =>
    ∃ i v, index.evalInt (E.scope th) = .ok i ∧ x.eval (E.scope th) = .ok v ∧ E.Stores view i v Q th ws
  | .branch c ifTrue ifFalse, Q => fun th ws =>
    ∃ b, c.evalBool (E.scope th) = .ok b ∧ if b then Ensures ifTrue Q th ws else Ensures ifFalse Q th ws
  | .loop iter bound body, Q => fun th ws =>
    ∃ n, bound.evalInt (E.scope th) = .ok n ∧ n.toInt.toNat ≤ E.ctx.loopLimit ∧
      ∃ I : Nat → Claim, I 0 th ws ∧
        (∀ k th ws, k < n.toInt.toNat → I k th ws →
          Ensures body (I (k + 1)) (th.bind iter (.i64 (Int64.ofNat k))) ws) ∧
        ∀ th ws, I n.toInt.toNat th ws → Q th ws
  | .query which dest, Q => fun th ws => Q (th.bind dest (.i64 (Run.answer E.ctx E.id which))) ws
  | .memFence _, Q => Q
  | .repeatWhile .., _ | .barrier _, _ | .update .., _ | .compareSwap .., _ => fun _ _ => False

def EnsuresAll : List Stmt → Claim → Claim
  | [], Q => Q
  | stmt :: stmts, Q => Ensures stmt (EnsuresAll stmts Q)

end

variable {E}

/-! ### Equations -/

theorem ensures_seq (stmts : List Stmt) (Q : Claim) : E.Ensures (.seq stmts) Q = E.EnsuresAll stmts Q := by
  rw [Ensures]

theorem ensures_comment (text : String) (body : Stmt) (Q : Claim) :
    E.Ensures (.comment text body) Q = E.Ensures body Q := by
  rw [Ensures]

theorem ensuresAll_nil (Q : Claim) : E.EnsuresAll [] Q = Q := by
  rw [EnsuresAll]

theorem ensuresAll_cons (stmt : Stmt) (stmts : List Stmt) (Q : Claim) :
    E.EnsuresAll (stmt :: stmts) Q = E.Ensures stmt (E.EnsuresAll stmts Q) := by
  rw [EnsuresAll]

theorem ensuresAll_singleton (stmt : Stmt) (Q : Claim) : E.EnsuresAll [stmt] Q = E.Ensures stmt Q := by
  rw [ensuresAll_cons, ensuresAll_nil]

theorem ensuresAll_append (as bs : List Stmt) (Q : Claim) :
    E.EnsuresAll (as ++ bs) Q = E.EnsuresAll as (E.EnsuresAll bs Q) := by
  induction as with
  | nil => rw [List.nil_append, ensuresAll_nil]
  | cons a as ih => rw [List.cons_append, ensuresAll_cons, ensuresAll_cons, ih]

theorem ensuresAll_pieces (stmt : Stmt) (Q : Claim) : E.EnsuresAll stmt.pieces Q = E.Ensures stmt Q := by
  cases stmt with
  | skip => rw [Stmt.pieces, ensuresAll_nil, Ensures]
  | seq stmts => rw [Stmt.pieces, ensures_seq]
  | _ => rw [Stmt.pieces, ensuresAll_singleton] <;> simp

theorem ensuresAll_flatMap_pieces (stmts : List Stmt) (Q : Claim) :
    E.EnsuresAll (stmts.flatMap Stmt.pieces) Q = E.EnsuresAll stmts Q := by
  induction stmts with
  | nil => rfl
  | cons stmt stmts ih => rw [List.flatMap_cons, ensuresAll_append, ih, ensuresAll_pieces, ensuresAll_cons]

theorem ensures_block (stmts : List Stmt) (Q : Claim) : E.Ensures (.block stmts) Q = E.EnsuresAll stmts Q := by
  rw [← ensuresAll_flatMap_pieces, Stmt.block]
  split
  · rename_i h
    rw [h, ensuresAll_nil, Ensures]
  · rename_i stmt h
    rw [h, ensuresAll_singleton]
  · rw [ensures_seq]

/-! ### Weaker claims -/

theorem stores_imp {view : View} {i : Int64} {v : Value} {Q R : Claim} {th : Thread} {ws : List Write}
    (h : ∀ th ws, Q th ws → R th ws) (hs : E.Stores view i v Q th ws) : E.Stores view i v R th ws := by
  unfold Stores at *
  refine ⟨hs.1, ?_⟩
  have hs := hs.2
  split at hs
  · obtain ⟨b, p, hb, hp, hQ⟩ := hs
    exact ⟨b, p, hb, hp, h _ _ hQ⟩
  · obtain ⟨p, hp, hown, hQ⟩ := hs
    exact ⟨p, hp, hown, h _ _ hQ⟩

theorem assigns_imp {name : Ident} {v : Value} {Q R : Claim} {th : Thread} {ws : List Write}
    (h : ∀ th ws, Q th ws → R th ws) (ha : Claim.Assigns name v Q th ws) : Claim.Assigns name v R th ws :=
  ⟨ha.1, h _ _ ha.2⟩

mutual

/-- Code that ensures a claim ensures what follows from it. -/
theorem Ensures.imp {Q R : Claim} (h : ∀ th ws, Q th ws → R th ws) :
    ∀ {stmt : Stmt} {th : Thread} {ws : List Write}, E.Ensures stmt Q th ws → E.Ensures stmt R th ws
  | .skip, th, ws, he => by
    rw [Ensures] at *
    exact h _ _ he
  | .seq stmts, th, ws, he => by
    rw [ensures_seq] at *
    exact EnsuresAll.imp h he
  | .comment _ body, th, ws, he => by
    rw [ensures_comment] at *
    exact Ensures.imp h he
  | .declare .., th, ws, he => by
    rw [Ensures] at *
    exact h _ _ he
  | .declareArray name type length space, th, ws, he => by
    rw [Ensures] at *
    obtain ⟨i, n, hi, hn, hQ⟩ := he
    refine ⟨i, n, hi, hn, ?_⟩
    cases space with
    | thread => exact h _ _ hQ
    | shared => exact ⟨hQ.1, h _ _ hQ.2⟩
    | global => exact hQ
  | .set .., th, ws, he => by
    rw [Ensures] at *
    obtain ⟨v, hv, hQ⟩ := he
    exact ⟨v, hv, assigns_imp h hQ⟩
  | .read .., th, ws, he => by
    rw [Ensures] at *
    obtain ⟨i, v, hi, hv, hQ⟩ := he
    exact ⟨i, v, hi, hv, assigns_imp h hQ⟩
  | .write .., th, ws, he => by
    rw [Ensures] at *
    obtain ⟨i, v, hi, hv, hQ⟩ := he
    exact ⟨i, v, hi, hv, stores_imp h hQ⟩
  | .branch c ifTrue ifFalse, th, ws, he => by
    rw [Ensures] at *
    obtain ⟨b, hb, hQ⟩ := he
    refine ⟨b, hb, ?_⟩
    cases b with
    | true => exact (Ensures.imp h : E.Ensures ifTrue Q th ws → _) hQ
    | false => exact (Ensures.imp h : E.Ensures ifFalse Q th ws → _) hQ
  | .loop .., th, ws, he => by
    rw [Ensures] at *
    obtain ⟨n, hn, hle, I, hI, hstep, hend⟩ := he
    exact ⟨n, hn, hle, I, hI, hstep, fun th ws hth => h _ _ (hend th ws hth)⟩
  | .query .., th, ws, he => by
    rw [Ensures] at *
    exact h _ _ he
  | .memFence _, th, ws, he => by
    rw [Ensures] at *
    exact h _ _ he
  | .repeatWhile .., th, ws, he | .barrier _, th, ws, he | .update .., th, ws, he | .compareSwap .., th, ws, he => by
    rw [Ensures] at he
    exact he.elim

theorem EnsuresAll.imp {Q R : Claim} (h : ∀ th ws, Q th ws → R th ws) :
    ∀ {stmts : List Stmt} {th : Thread} {ws : List Write}, E.EnsuresAll stmts Q th ws → E.EnsuresAll stmts R th ws
  | [], th, ws, he => by
    rw [ensuresAll_nil] at *
    exact h _ _ he
  | stmt :: stmts, th, ws, he => by
    rw [ensuresAll_cons] at *
    exact Ensures.imp (fun th ws => EnsuresAll.imp h) he

end

/-! ### Rules -/

variable {Q : Claim} {th : Thread} {ws : List Write}

/-- One part after another. -/
theorem EnsuresAll.append {as bs : List Stmt} {R : Claim} (ha : E.EnsuresAll as R th ws)
    (hb : ∀ th ws, R th ws → E.EnsuresAll bs Q th ws) : E.EnsuresAll (as ++ bs) Q th ws := by
  rw [ensuresAll_append]
  exact ha.imp hb

theorem ensures_set {name : Ident} {x : Exp} {v old : Value} (hx : x.eval (E.scope th) = .ok v)
    (hold : th.scalars[name]? = some old) (htype : old.type = v.type) (h : Q (th.bind name v) ws) :
    E.Ensures (.set name x) Q th ws := by
  rw [Ensures]
  exact ⟨v, hx, ⟨old, hold, htype⟩, h⟩

/-- A new variable is not yet seen by the expression of its first value. -/
theorem ensures_declareInit {name : Ident} {type : ScalarType} {x : Exp} {v : Value} (hname : name ∉ x.occurrences)
    (hx : x.eval (E.scope th) = .ok v) (hv : v.type = type) (h : Q (th.bind name v) ws) :
    E.Ensures (.declareInit name type x) Q th ws := by
  rw [Stmt.declareInit, ensures_seq, ensuresAll_cons, ensuresAll_singleton, Ensures]
  refine ensures_set (v := v) ?_ (by simp [Thread.bind]; rfl) (by simp [hv]) (by rwa [Thread.bind_bind])
  rw [← hx]
  refine Exp.eval_congr fun y hy => ?_
  have hne : name ≠ y := fun e => hname (e ▸ hy)
  rw [scope, Thread.scope_bind, if_neg hne, scope]

theorem ensures_when {c : Exp} {body : Stmt} {b : Bool} (hc : Exp.IsBool (E.scope th) c b)
    (htrue : b = true → E.Ensures body Q th ws) (hfalse : b = false → Q th ws) :
    E.Ensures (.when c body) Q th ws := by
  unfold Stmt.when
  split
  · rename_i h
    exact htrue (Exp.IsBool.unique (Exp.eval_of_bool? h) hc).symm
  · rename_i h
    rw [Ensures]
    exact hfalse (Exp.IsBool.unique (Exp.eval_of_bool? h) hc).symm
  · rw [Ensures]
    refine ⟨b, hc.evalBool, ?_⟩
    cases b with
    | true => exact htrue rfl
    | false =>
      rw [if_neg Bool.false_ne_true, Ensures]
      exact hfalse rfl

end Solo
end SegKernel
