import SegKernel.Proofs.Evaluation.Variables
import SegKernel.Proofs.Execution.Launching
import SegKernel.Proofs.Execution.Questions
import SegKernel.Proofs.Hoisting.Form

/-! Runs of hoisted code. It has all shared arrays from the start on, where the original makes each one
    when it comes to its declaration. The lengths are the same at both places, because no variable of the
    kernel occurs in them, so a run that ends without a fault ends in the same way after hoisting. -/

namespace SegKernel
namespace Stmt

mutual

/-- The variables into which code reads its place in the launch, in textual order. -/
def asked : Stmt → List Ident
  | query _ dest => [dest]
  | seq stmts => askedAll stmts
  | comment _ body | loop _ _ body | repeatWhile _ body => body.asked
  | branch _ ifTrue ifFalse => ifTrue.asked ++ ifFalse.asked
  | skip | declare .. | declareArray .. | set .. | read .. | write .. | barrier _ | memFence _ | update ..
  | compareSwap .. => []

def askedAll : List Stmt → List Ident
  | [] => []
  | s :: ss => s.asked ++ askedAll ss

end
end Stmt

/-! ### With and without the arrays that are still to come -/

/-- The threads have no variables but those in `D`, and the states are the same, except that the second one
    has all arrays of `stock` that the first one does not have yet. -/
structure GroupState.Stocked (D : Ident → Prop) (stock : Memory) (a b : GroupState) : Prop where
  within : ∀ t x v, (a.thread t).scalars[x]? = some v → D x
  threads : b.threads = a.threads
  global : b.global = a.global
  races : b.races = a.races
  stats : b.stats = a.stats
  shared : ∀ x : Ident, b.shared[x]? = a.shared[x]?.or stock[x]?

namespace GroupState.Stocked
variable {D : Ident → Prop} {stock : Memory} {a b : GroupState} {t : Nat} {name : Ident} {v : Value}

theorem scope (h : Stocked D stock a b) (ctx : GroupContext) (t : Nat) : b.scope ctx t = a.scope ctx t :=
  scope_of_threads ctx h.threads t

theorem modifyThread (h : Stocked D stock a b) (t : Nat) (f : Thread → Thread)
    (hf : ∀ x v, (f (a.thread t)).scalars[x]? = some v → D x) :
    Stocked D stock (a.modifyThread t f) (b.modifyThread t f) where
  within t' x v hx := by
    rw [thread_modifyThread] at hx
    split at hx
    · exact hf x v hx
    · exact h.within t' x v hx
  threads := congrArg (·.modify t f) h.threads
  global := h.global
  races := h.races
  stats := h.stats
  shared := h.shared

theorem bind (h : Stocked D stock a b) (hname : D name) : Stocked D stock (a.bind t name v) (b.bind t name v) := by
  refine h.modifyThread t _ fun x w hx => ?_
  rw [Table.getElem?_insert] at hx
  split at hx
  · rename_i heq
    exact heq ▸ hname
  · exact h.within t x w hx

/-- Where the first state has an array, the second one has it with the same contents. -/
theorem buffer? (h : Stocked D stock a b) {view : View} {buffer : Buffer} (hb : a.buffer? t view = some buffer) :
    b.buffer? t view = some buffer := by
  unfold GroupState.buffer? at hb ⊢
  cases hs : view.space with
  | global =>
    rw [hs] at hb
    dsimp only at hb ⊢
    rw [h.global]
    exact hb
  | shared =>
    rw [hs] at hb
    dsimp only at hb ⊢
    rw [h.shared, hb]
    rfl
  | thread =>
    rw [hs] at hb
    dsimp only at hb ⊢
    rw [h.threads]
    exact hb

theorem modifyBuffer (h : Stocked D stock a b) {view : View} {buffer : Buffer} (hb : a.buffer? t view = some buffer)
    (f : Buffer → Buffer) : Stocked D stock (a.modifyBuffer t view f) (b.modifyBuffer t view f) := by
  unfold GroupState.buffer? at hb
  unfold GroupState.modifyBuffer
  cases hs : view.space with
  | global =>
    exact ⟨h.within, h.threads, congrArg (Std.ExtTreeMap.modify · view.array f) h.global, h.races, h.stats, h.shared⟩
  | shared =>
    rw [hs] at hb
    refine ⟨h.within, h.threads, h.global, h.races, h.stats, fun x => ?_⟩
    dsimp only at hb ⊢
    rw [Table.getElem?_modify, Table.getElem?_modify, h.shared]
    split
    · rename_i heq
      rw [← heq, hb]
      rfl
    · rfl
  | thread => exact h.modifyThread t _ (h.within t)

/-- The first state comes to an array of the stock. -/
theorem declareShared (h : Stocked D stock a b) {type : ScalarType} {n : Nat}
    (hstock : stock[name]? = some (.zeroed type n)) : Stocked D stock (a.declareShared name type n) b := by
  unfold GroupState.declareShared
  split
  · exact h
  · rename_i hnew
    refine ⟨h.within, h.threads, h.global, h.races, h.stats, fun x => ?_⟩
    dsimp only
    rw [Table.getElem?_insert, h.shared]
    split
    · rename_i heq
      rw [← heq, hstock, Std.ExtTreeMap.getElem?_eq_none hnew]
      rfl
    · rfl

end GroupState.Stocked

namespace Run
open GroupState
variable {α β : Type} {D : Ident → Prop} {stock : Memory}

/-- Where the first run ends without a fault, the second one, from a state with the whole stock, ends with
    the same result in such a state. -/
def Carried (D : Ident → Prop) (stock : Memory) (r r' : Run α) : Prop :=
  ∀ a b x a', Stocked D stock a b → r a = .ok x a' → ∃ b', r' b = .ok x b' ∧ Stocked D stock a' b'

namespace Carried

theorem pure (x : α) : Carried D stock (pure x) (pure x) := by
  intro a b y a' h hrun
  obtain ⟨rfl, rfl⟩ := pure_eq_ok.mp hrun
  exact ⟨b, rfl, h⟩

theorem throw (fault : Fault) (r : Run α) : Carried D stock (throw fault) r :=
  fun _ _ _ _ _ hrun => absurd hrun (by simp [throw_ne_ok])

theorem bind {r r' : Run α} {q q' : α → Run β} (h : Carried D stock r r') (h' : ∀ x, Carried D stock (q x) (q' x)) :
    Carried D stock (r >>= q) (r' >>= q') := by
  intro a b y a' hab hrun
  obtain ⟨x, a₁, hr, hq⟩ := bind_eq_ok.mp hrun
  obtain ⟨b₁, hr', h₁⟩ := h a b x a₁ hab hr
  obtain ⟨b', hq', hend⟩ := h' x a₁ b₁ y a' h₁ hq
  exact ⟨b', bind_eq_ok.mpr ⟨x, b₁, hr', hq'⟩, hend⟩

theorem evaluate {f : GroupState → Except Fault α} (h : ∀ a b x, Stocked D stock a b → f a = .ok x → f b = .ok x) :
    Carried D stock (evaluate f) (evaluate f) := by
  intro a b x a' hab hrun
  obtain ⟨hx, rfl⟩ := evaluate_eq_ok.mp hrun
  exact ⟨b, evaluate_eq_ok.mpr ⟨h a' b x hab hx, rfl⟩, hab⟩

theorem change {f : GroupState → GroupState} (h : ∀ a b, Stocked D stock a b → Stocked D stock (f a) (f b)) :
    Carried D stock (modify f) (modify f) := by
  intro a b x a' hab hrun
  obtain rfl := modify_eq_ok.mp hrun
  exact ⟨f b, rfl, h a b hab⟩

theorem forM {f f' : Nat → Run Unit} (h : ∀ t, Carried D stock (f t) (f' t)) :
    ∀ active : List Nat, Carried D stock (active.forM f) (active.forM f')
  | [] => pure ()
  | t :: ts => (h t).bind fun _ => forM h ts

/-- Turns in which nothing is left to do. -/
theorem forM_pure {f : Nat → Run Unit} (h : ∀ t, Carried D stock (f t) (Pure.pure ())) :
    ∀ active : List Nat, Carried D stock (active.forM f) (Pure.pure ())
  | [] => pure ()
  | t :: ts => (h t).bind fun _ => forM_pure h ts

theorem ask {f : Nat → Run α} (h : ∀ t, Carried D stock (f t) (f t)) :
    ∀ active : List Nat, Carried D stock (ask active f) (ask active f)
  | [] => pure []
  | t :: ts => by
    rw [Run.ask, List.mapM_cons]
    exact ((h t).bind fun a => pure (t, a)).bind fun _ => (ask h ts).bind fun _ => pure _

theorem countUp {body body' : Nat → Run Unit} (h : ∀ k, Carried D stock (body k) (body' k)) :
    ∀ count first : Nat, Carried D stock (countUp body count first) (countUp body' count first)
  | 0, _ => pure ()
  | n + 1, k => (h k).bind fun _ => countUp h n (k + 1)

theorem whileLive {test : List Nat → Run (List Nat)} {body body' : List Nat → Run Unit}
    (htest : ∀ live, Carried D stock (test live) (test live))
    (hbody : ∀ live, Carried D stock (body live) (body' live)) :
    ∀ (limit : Nat) (live : List Nat),
      Carried D stock (whileLive test body limit live) (whileLive test body' limit live)
  | 0, live => (htest live).bind fun live' => by
    split
    · exact pure ()
    · exact throw _ _
  | n + 1, live => (htest live).bind fun live' => by
    split
    · exact pure ()
    · exact (hbody live').bind fun _ => whileLive htest hbody n live'

/-! ### Steps of a thread -/

variable (ctx : GroupContext) (t : Nat)

theorem value (x : Exp) : Carried D stock (value ctx t x) (value ctx t x) :=
  evaluate fun _ _ _ h hx => by rwa [h.scope]

theorem int (x : Exp) : Carried D stock (int ctx t x) (int ctx t x) :=
  evaluate fun _ _ _ h hx => by rwa [h.scope]

theorem condition (x : Exp) : Carried D stock (condition ctx t x) (condition ctx t x) :=
  evaluate fun _ _ _ h hx => by rwa [h.scope]

theorem bindScalar {name : Ident} (hname : D name) (v : Value) :
    Carried D stock (modify fun s => s.bind t name v) (modify fun s => s.bind t name v) :=
  change fun _ _ h => h.bind hname

/-- Only a variable that a thread has is assigned. -/
theorem assign (name : Ident) (v : Value) : Carried D stock (assign t name v) (assign t name v) := by
  intro a b x a' h hrun
  obtain ⟨⟨old, hold, htype⟩, rfl⟩ := assign_eq_ok.mp hrun
  refine ⟨b.bind t name v, assign_eq_ok.mpr ⟨⟨old, ?_, htype⟩, rfl⟩, h.bind (h.within t name old hold)⟩
  rw [thread_of_threads h.threads]
  exact hold

theorem load (view : View) (index : Int64) : Carried D stock (load t view index) (load t view index) := by
  intro a b v a' h hrun
  obtain ⟨hv, rfl⟩ := load_eq_ok.mp hrun
  refine ⟨b, load_eq_ok.mpr ⟨?_, rfl⟩, h⟩
  unfold element at hv ⊢
  cases hb : a'.buffer? t view with
  | none =>
    rw [hb] at hv
    cases hv
  | some buffer =>
    rw [hb] at hv
    rw [h.buffer? hb]
    exact hv

theorem store (view : View) (index : Int64) (v : Value) :
    Carried D stock (store t view index v) (store t view index v) := by
  intro a b x a' h hrun
  obtain ⟨p, hp, rfl⟩ := store_eq_ok.mp hrun
  obtain ⟨htype, buffer, hb, hpos⟩ := storable_eq_ok.mp hp
  exact ⟨_, store_eq_ok.mpr ⟨p, storable_eq_ok.mpr ⟨htype, buffer, h.buffer? hb, hpos⟩, rfl⟩, h.modifyBuffer hb _⟩

theorem track (view : View) (index : Int64) (isWrite : Bool) :
    Carried D stock (track ctx t view index isWrite) (track ctx t view index isWrite) := by
  intro a b x a' h hrun
  unfold Run.track at hrun ⊢
  rw [h.races]
  split at hrun
  · rename_i hchecked
    rw [if_pos hchecked]
    dsimp only at hrun ⊢
    split at hrun
    · cases hrun
      exact ⟨_, rfl, h.within, h.threads, h.global, rfl, h.stats, h.shared⟩
    · cases hrun
  · rename_i hunchecked
    rw [if_neg hunchecked]
    cases hrun
    exact ⟨b, rfl, h⟩

theorem countAtomic : Carried D stock (modify GroupState.countAtomic) (modify GroupState.countAtomic) :=
  change fun _ _ h => ⟨h.within, h.threads, h.global, h.races,
    congrArg (fun stats : LaunchStats => { stats with atomics := stats.atomics + 1 }) h.stats, h.shared⟩

theorem countBarrier : Carried D stock (modify GroupState.countBarrier) (modify GroupState.countBarrier) :=
  change fun _ _ h => ⟨h.within, h.threads, h.global, congrArg RaceLog.nextEpoch h.races,
    congrArg (fun stats : LaunchStats => { stats with barriers := stats.barriers + 1 }) h.stats, h.shared⟩

theorem declareOwn (name : Ident) (type : ScalarType) (length : Exp) {space : Space} (hspace : space ≠ .shared) :
    Carried D stock (declareArray ctx t name type length space) (declareArray ctx t name type length space) := by
  refine (int ctx t length).bind fun i => (evaluate fun _ _ _ _ => id).bind fun n => ?_
  cases space with
  | shared => exact absurd rfl hspace
  | thread => exact change fun _ _ h => h.modifyThread t _ (h.within t)
  | global => exact throw _ _

theorem update (op : AtomicOp) (old : Ident) (view : View) (index x : Exp) :
    Carried D stock (update ctx t op old view index x) (update ctx t op old view index x) :=
  (int ctx t index).bind fun i => (value ctx t x).bind fun _ => (load t view i).bind fun current =>
    (evaluate fun _ _ _ _ => id).bind fun new => (store t view i new).bind fun _ =>
      (assign t old current).bind fun _ => countAtomic

theorem compareSwap (old : Ident) (view : View) (index expected desired : Exp) :
    Carried D stock (compareSwap ctx t old view index expected desired)
      (compareSwap ctx t old view index expected desired) := by
  refine (int ctx t index).bind fun i => (value ctx t expected).bind fun e => (value ctx t desired).bind fun d => ?_
  have last : ∀ current, Carried D stock (do Run.assign t old current; modify GroupState.countAtomic)
      (do Run.assign t old current; modify GroupState.countAtomic) := fun current =>
    (assign t old current).bind fun _ => countAtomic
  dsimp only
  split
  · exact (throw _ _).bind fun _ => (load t view i).bind fun current => by
      split
      · exact (store t view i d).bind fun _ => last current
      · exact last current
  · refine (load t view i).bind fun current => ?_
    split
    · exact (store t view i d).bind fun _ => last current
    · exact last current

end Carried

/-! ### Code -/

/-- The host knows the length of an array, no variable of the kernel occurs in it, and the stock has the
    array. -/
structure Supplied (ctx : GroupContext) (D : Ident → Prop) (stock : Memory) (a : SharedArray) : Prop where
  early : ∀ x ∈ a.length.vars, ¬D x
  stocked : ∃ i n, a.length.evalInt (ctx.captured[·]?) = .ok i ∧ arrayLength a.name i = .ok n ∧
    stock[a.name]? = some (.zeroed a.type n)

/-- Code whose shared arrays are supplied, and whose variables are all in `D`. -/
structure Provided (ctx : GroupContext) (D : Ident → Prop) (stock : Memory) (stmt : Stmt) : Prop where
  arrays : ∀ a ∈ stmt.sharedArrays, Supplied ctx D stock a
  declared : ∀ x ∈ stmt.dropShared.declared, D x
  asked : ∀ x ∈ stmt.asked, D x

variable {ctx : GroupContext}

/-- Until a thread has a variable that occurs in it, a length is what it is for the host. -/
theorem evalInt_early {s : GroupState} {t : Nat} {length : Exp}
    (h : ∀ x ∈ length.vars, (s.thread t).scalars[x]? = none) :
    length.evalInt (s.scope ctx t) = length.evalInt (ctx.captured[·]?) := by
  have agree : ∀ x ∈ length.occurrences, s.scope ctx t x = ctx.captured[x]? := by
    intro x hx
    rw [scope_eq, Thread.scope, h x (List.mem_eraseDups.mpr hx)]
  unfold Exp.evalInt
  rw [Exp.eval_congr agree]

theorem Supplied.declare {a : SharedArray} (h : Supplied ctx D stock a) (t : Nat) :
    Carried D stock (declareArray ctx t a.name a.type a.length .shared) (pure ()) := by
  intro s b u s' hs hrun
  obtain ⟨i, n, hi, hn, ⟨-, rfl⟩ | ⟨hspace, -⟩⟩ := declareArray_ok hrun
  · obtain ⟨i', n', hi', hn', hstock⟩ := h.stocked
    rw [evalInt_early fun x hx => Option.eq_none_iff_forall_ne_some.mpr fun v hv => h.early x hx (hs.within t x v hv),
      hi'] at hi
    cases hi
    rw [hn'] at hn
    cases hn
    exact ⟨b, rfl, hs.declareShared hstock⟩
  · cases hspace

mutual

/-- Code without its shared declarations, from a state with the whole stock, does what the code does. -/
theorem exec_carried : ∀ stmt : Stmt, Provided ctx D stock stmt → ∀ active : List Nat,
    Carried D stock (exec ctx stmt active) (exec ctx stmt.dropShared active) := by
  intro stmt h active
  by_cases hne : active = []
  · subst hne
    rw [exec_nil, exec_nil]
    exact .pure ()
  have hempty : ¬active.isEmpty = true := by simpa using hne
  obtain ⟨arrays, declared, asked⟩ := h
  -- On the statement: only a declaration of a shared array differs, and it finds its array in the stock.
  cases stmt with
  | skip =>
    show Carried D stock (exec ctx .skip active) (exec ctx .skip active)
    rw [exec_skip]
    exact .pure ()
  | seq stmts =>
    rw [Stmt.sharedArrays] at arrays
    rw [Stmt.dropShared, Stmt.declared_block, ← Stmt.declaredAll_eq] at declared
    rw [Stmt.asked] at asked
    rw [Stmt.dropShared, exec_seq_eq, exec_block]
    exact execAll_carried arrays declared asked active
  | comment text body =>
    rw [Stmt.dropShared, exec_comment, exec_comment]
    exact exec_carried body ⟨arrays, declared, asked⟩ active
  | branch c ifTrue ifFalse =>
    rw [Stmt.sharedArrays, List.forall_mem_append] at arrays
    rw [Stmt.dropShared, Stmt.declared, List.forall_mem_append] at declared
    rw [Stmt.asked, List.forall_mem_append] at asked
    rw [Stmt.dropShared, exec_branch hne, exec_branch hne]
    exact (Carried.ask (fun t => .condition ctx t c) active).bind fun answers =>
      (exec_carried ifTrue ⟨arrays.1, declared.1, asked.1⟩ _).bind fun _ =>
        exec_carried ifFalse ⟨arrays.2, declared.2, asked.2⟩ _
  | loop iter bound body =>
    rw [Stmt.dropShared, Stmt.declared, List.forall_mem_cons] at declared
    rw [Stmt.dropShared, exec_loop hne, exec_loop hne]
    refine (Carried.ask (fun t => .int ctx t bound) active).bind fun bounds => ?_
    have rounds : Carried D stock (countUp (loopStep ctx iter body bounds) (trips bounds) 0)
        (countUp (loopStep ctx iter body.dropShared bounds) (trips bounds) 0) :=
      .countUp (fun k => (Carried.forM (fun t => .bindScalar t declared.1 _) _).bind fun _ =>
        exec_carried body ⟨arrays, declared.2, asked⟩ _) _ _
    dsimp only
    split
    · exact (Carried.throw _ _).bind fun _ => rounds
    · exact rounds
  | repeatWhile c body =>
    rw [Stmt.dropShared, exec_repeatWhile hne, exec_repeatWhile hne]
    exact .whileLive (fun live => (Carried.ask (fun t => .condition ctx t c) live).bind fun _ => .pure _)
      (fun live => exec_carried body ⟨arrays, declared, asked⟩ live) _ _
  | declare name type volatile =>
    have hname : D name := declared name (List.mem_singleton_self name)
    show Carried D stock (exec ctx (.declare name type volatile) active) (exec ctx (.declare name type volatile) active)
    rw [exec, if_neg hempty]
    exact .forM (fun t => .bindScalar t hname _) active
  | declareArray name type length space =>
    rw [Stmt.dropShared]
    split
    · rename_i hspace
      subst hspace
      have supplied := arrays ⟨name, type, length⟩ (List.mem_singleton_self _)
      rw [exec_skip, exec, if_neg hempty]
      exact .forM_pure supplied.declare active
    · rename_i hspace
      rw [exec, if_neg hempty]
      exact .forM (fun t => .declareOwn ctx t name type length hspace) active
  | set name x =>
    show Carried D stock (exec ctx (.set name x) active) (exec ctx (.set name x) active)
    rw [exec, if_neg hempty]
    exact .forM (fun t => (Carried.value ctx t x).bind fun v => .assign t name v) active
  | read dest view index =>
    show Carried D stock (exec ctx (.read dest view index) active) (exec ctx (.read dest view index) active)
    rw [exec, if_neg hempty]
    exact .forM (fun t => (Carried.int ctx t index).bind fun i => (Carried.load t view i).bind fun v =>
      (Carried.track ctx t view i false).bind fun _ => .assign t dest v) active
  | write view index x =>
    show Carried D stock (exec ctx (.write view index x) active) (exec ctx (.write view index x) active)
    rw [exec, if_neg hempty]
    exact .forM (fun t => (Carried.int ctx t index).bind fun i => (Carried.value ctx t x).bind fun v =>
      (Carried.store t view i v).bind fun _ => .track ctx t view i true) active
  | query which dest =>
    have hdest : D dest := asked dest (List.mem_singleton_self dest)
    show Carried D stock (exec ctx (.query which dest) active) (exec ctx (.query which dest) active)
    rw [exec, if_neg hempty]
    exact .forM (fun t => .bindScalar t hdest _) active
  | barrier fence =>
    show Carried D stock (exec ctx (.barrier fence) active) (exec ctx (.barrier fence) active)
    rw [exec, if_neg hempty]
    exact .countBarrier
  | memFence fence =>
    show Carried D stock (exec ctx (.memFence fence) active) (exec ctx (.memFence fence) active)
    rw [exec, if_neg hempty]
    exact .pure ()
  | update op old view index x =>
    show Carried D stock (exec ctx (.update op old view index x) active) (exec ctx (.update op old view index x) active)
    rw [exec, if_neg hempty]
    exact .forM (fun t => .update ctx t op old view index x) active
  | compareSwap old view index expected desired =>
    show Carried D stock (exec ctx (.compareSwap old view index expected desired) active)
      (exec ctx (.compareSwap old view index expected desired) active)
    rw [exec, if_neg hempty]
    exact .forM (fun t => .compareSwap ctx t old view index expected desired) active

theorem execAll_carried : ∀ {stmts : List Stmt}, (∀ a ∈ Stmt.sharedArraysAll stmts, Supplied ctx D stock a) →
    (∀ x ∈ Stmt.declaredAll (Stmt.dropSharedAll stmts), D x) → (∀ x ∈ Stmt.askedAll stmts, D x) → ∀ active : List Nat,
      Carried D stock (execAll ctx stmts active) (execAll ctx (Stmt.dropSharedAll stmts) active)
  | [], _, _, _, _ => by
    rw [Stmt.dropSharedAll, execAll_nil]
    exact .pure ()
  | s :: ss, arrays, declared, asked, active => by
    rw [Stmt.sharedArraysAll, List.forall_mem_append] at arrays
    rw [Stmt.dropSharedAll, Stmt.declaredAll, List.forall_mem_append] at declared
    rw [Stmt.askedAll, List.forall_mem_append] at asked
    rw [Stmt.dropSharedAll, execAll_cons, execAll_cons]
    exact (exec_carried s ⟨arrays.1, declared.1, asked.1⟩ active).bind fun _ =>
      execAll_carried arrays.2 declared.2 asked.2 active

end
end Run
end SegKernel
