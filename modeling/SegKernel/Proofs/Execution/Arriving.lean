import SegKernel.Proofs.Names.Declared
import SegKernel.Proofs.Schedules.Runs

/-! How threads come to a part of some code. What they run before it leaves the variables that it neither declares nor
    assigns, and the sizes of the arrays, so what they find in them at the start they find there too, in whichever
    round of a loop they come. -/

namespace SegKernel

/-- The type and the number of the elements of an array. -/
def Buffer.layout (b : Buffer) : ScalarType × Nat := (b.type, b.bits.size)

namespace GroupState

/-- The layout of an array that a thread sees. -/
def layout? (s : GroupState) (t : Nat) (view : View) : Option (ScalarType × Nat) := (s.buffer? t view).map Buffer.layout

/-- All threads have in `b` what they had in `a` in the variables of `K`, and all arrays of `a` are laid out in `b` as
    before. Of the arrays that a thread has for itself this is said only if they are in `L`. -/
structure Leaves (K L : Ident → Prop) (a b : GroupState) : Prop where
  size : b.threads.size = a.threads.size
  scalars : ∀ t x, K x → (b.thread t).scalars[x]? = (a.thread t).scalars[x]?
  layouts : ∀ t view l, (view.space = .thread → L view.array) → a.layout? t view = some l → b.layout? t view = some l

namespace Leaves
variable {K L : Ident → Prop} {a b c : GroupState} {t : Nat} {name : Ident}

theorem refl (a : GroupState) : a.Leaves K L a := ⟨rfl, fun _ _ _ => rfl, fun _ _ _ _ => id⟩

theorem trans (h : a.Leaves K L b) (h' : b.Leaves K L c) : a.Leaves K L c :=
  ⟨h'.size.trans h.size, fun t x hx => (h'.scalars t x hx).trans (h.scalars t x hx),
    fun t view l hview hl => h'.layouts t view l hview (h.layouts t view l hview hl)⟩

/-- The threads have not changed, and all arrays that they share are laid out as before. -/
theorem of_shared (hthreads : b.threads = a.threads)
    (hshared : ∀ (x : Ident) l, a.shared[x]?.map Buffer.layout = some l → b.shared[x]?.map Buffer.layout = some l)
    (hglobal : ∀ (x : Ident) l, a.global[x]?.map Buffer.layout = some l → b.global[x]?.map Buffer.layout = some l) :
    a.Leaves K L b := by
  refine ⟨by rw [hthreads], fun t x _ => by rw [thread_of_threads hthreads], fun t view l _ hl => ?_⟩
  unfold layout? buffer? at hl ⊢
  cases hspace : view.space with
  | global => exact hglobal _ _ (by rwa [hspace] at hl)
  | shared => exact hshared _ _ (by rwa [hspace] at hl)
  | thread =>
    rw [hspace] at hl
    rwa [hthreads]

theorem of_eq (hthreads : b.threads = a.threads) (hshared : b.shared = a.shared) (hglobal : b.global = a.global) :
    a.Leaves K L b :=
  of_shared hthreads (fun _ _ => by rw [hshared]; exact id) fun _ _ => by rw [hglobal]; exact id

/-- A change of one thread. -/
theorem modifyThread {f : Thread → Thread} (hscalars : ∀ th : Thread, ∀ x, K x → (f th).scalars[x]? = th.scalars[x]?)
    (harrays : ∀ th : Thread, ∀ x, L x → (f th).arrays[x]?.map Buffer.layout = th.arrays[x]?.map Buffer.layout) :
    a.Leaves K L (a.modifyThread t f) := by
  refine ⟨size_modifyThread a t f, fun t' x hx => ?_, fun t' view l hview hl => ?_⟩
  · rw [thread_modifyThread]
    split
    · rename_i ht
      rw [hscalars _ x hx, ht.1]
    · rfl
  · unfold layout? buffer? at hl ⊢
    cases hspace : view.space with
    | thread =>
      rw [hspace] at hl
      change ((a.modifyThread t f).thread t').arrays[view.array]?.map Buffer.layout = some l
      rw [thread_modifyThread]
      split
      · rename_i ht
        rw [harrays _ _ (hview hspace), ← ht.1]
        exact hl
      · exact hl
    | _ => rwa [hspace] at hl

theorem bind {v : Value} (h : ¬K name) : a.Leaves K L (a.bind t name v) :=
  modifyThread (fun _ _ hx => Table.getElem?_insert_of_ne _ _ fun e => h (e ▸ hx)) fun _ _ _ => rfl

theorem declareOwn {type : ScalarType} {n : Nat} (h : ¬L name) : a.Leaves K L (a.declareOwn t name type n) :=
  modifyThread (fun _ _ _ => rfl) fun th _ hx => congrArg (Option.map Buffer.layout) <|
    Table.getElem?_insert_of_ne th.arrays _ fun e => h (e ▸ hx)

/-- A shared array that exists is kept. -/
theorem declareShared {type : ScalarType} {n : Nat} : a.Leaves K L (a.declareShared name type n) := by
  refine of_shared (declareShared_threads a name type n) (fun x l hl => ?_) fun x l hl => ?_
  · unfold GroupState.declareShared
    split
    · exact hl
    · rename_i hnew
      dsimp only
      rwa [Table.getElem?_insert_of_ne]
      rintro rfl
      rw [Std.ExtTreeMap.contains_eq_isSome_getElem?] at hnew
      rw [Option.not_isSome_iff_eq_none.mp hnew] at hl
      cases hl
  · unfold GroupState.declareShared
    split <;> exact hl

/-- An element of an array changes. -/
theorem put {view : View} {p : Nat} {bits : UInt64} : a.Leaves K L (a.modifyBuffer t view (·.put p bits)) := by
  have keeps : ∀ (m : Memory) (x : Ident),
      (m.modify view.array (·.put p bits))[x]?.map Buffer.layout = m[x]?.map Buffer.layout := by
    intro m x
    rw [Table.getElem?_modify]
    split
    · rw [Option.map_map]
      exact congrArg (Option.map · _) (funext fun b => by simp [Buffer.layout, Buffer.put])
    · rfl
  unfold modifyBuffer
  split
  · exact of_shared rfl (fun _ _ => id) fun x _ hl => (keeps a.global x).trans hl
  · exact of_shared rfl (fun x _ hl => (keeps a.shared x).trans hl) fun _ _ => id
  · exact modifyThread (fun _ _ _ => rfl) fun th x _ => keeps th.arrays x

/-- The scope of a thread is the same in the variables of `K`. -/
theorem scope (h : a.Leaves K L b) (ctx : GroupContext) {x : Ident} (hx : K x) : b.scope ctx t x = a.scope ctx t x := by
  have := h.scalars t x hx
  unfold GroupState.thread at this
  unfold GroupState.scope
  rw [this]

end Leaves
end GroupState

/-- The code gives no variable of `K` a value, and declares no array of `L`. -/
structure Stmt.Leaves (K L : Ident → Prop) (stmt : Stmt) : Prop where
  declared : ∀ x ∈ stmt.declared, ¬K x ∧ ¬L x
  assigned : ∀ x ∈ stmt.assigned, ¬K x

namespace Stmt
variable {K L : Ident → Prop}

theorem assignedAll_eq (stmts : List Stmt) : assignedAll stmts = stmts.flatMap assigned := by
  induction stmts with
  | nil => rfl
  | cons s ss ih => rw [assignedAll, ih, List.flatMap_cons]

theorem leaves_seq {stmts : List Stmt} (h : (seq stmts).Leaves K L) : ∀ s ∈ stmts, s.Leaves K L := by
  obtain ⟨hd, ha⟩ := h
  rw [Stmt.declared, declaredAll_eq] at hd
  rw [Stmt.assigned, assignedAll_eq] at ha
  exact fun s hs => ⟨fun x hx => hd x (List.mem_flatMap.mpr ⟨s, hs, hx⟩), fun x hx =>
    ha x (List.mem_flatMap.mpr ⟨s, hs, hx⟩)⟩

theorem leaves_comment {text : String} {body : Stmt} (h : (comment text body).Leaves K L) : body.Leaves K L := by
  obtain ⟨hd, ha⟩ := h
  rw [Stmt.declared] at hd
  rw [Stmt.assigned] at ha
  exact ⟨hd, ha⟩

theorem leaves_branch {c : Exp} {ifTrue ifFalse : Stmt} (h : (branch c ifTrue ifFalse).Leaves K L) :
    ifTrue.Leaves K L ∧ ifFalse.Leaves K L := by
  obtain ⟨hd, ha⟩ := h
  rw [Stmt.declared, List.forall_mem_append] at hd
  rw [Stmt.assigned, List.forall_mem_append] at ha
  exact ⟨⟨hd.1, ha.1⟩, ⟨hd.2, ha.2⟩⟩

theorem leaves_loop {iter : Ident} {bound : Exp} {body : Stmt} (h : (loop iter bound body).Leaves K L) :
    ¬K iter ∧ body.Leaves K L := by
  obtain ⟨hd, ha⟩ := h
  rw [Stmt.declared, List.forall_mem_cons] at hd
  rw [Stmt.assigned] at ha
  exact ⟨hd.1.1, hd.2, ha⟩

theorem leaves_repeatWhile {c : Exp} {body : Stmt} (h : (repeatWhile c body).Leaves K L) : body.Leaves K L := by
  obtain ⟨hd, ha⟩ := h
  rw [Stmt.declared] at hd
  rw [Stmt.assigned] at ha
  exact ⟨hd, ha⟩

end Stmt

namespace Run
open GroupState
variable {ctx : GroupContext} {K L : Ident → Prop} {active : List Nat} {a b : GroupState}

/-- If each turn of the threads leaves things as they were, so do all of them. -/
theorem forM_leaves {f : Nat → Run Unit} (step : ∀ t a b, f t a = .ok () b → a.Leaves K L b)
    (h : active.forM f a = .ok () b) :
    a.Leaves K L b :=
  forM_rel Leaves.refl Leaves.trans (fun t _ a b => step t a b) h

theorem loopStep_leaves {iter : Ident} {body : Stmt} {bounds : List (Nat × Int64)} (hiter : ¬K iter)
    (hbody : ∀ {active a b}, exec ctx body active a = .ok () b → a.Leaves K L b) {k : Nat}
    (h : loopStep ctx iter body bounds k a = .ok () b) : a.Leaves K L b := by
  obtain ⟨_, s, hbind, hrest⟩ := bind_eq_ok.mp h
  refine (forM_leaves (fun t c d hcd => ?_) hbind).trans (hbody hrest)
  obtain rfl := modify_eq_ok.mp hcd
  exact .bind hiter

mutual

/-- What code neither declares nor assigns it leaves as it was, whichever threads run it. -/
theorem exec_leaves :
    ∀ {stmt : Stmt}, stmt.Leaves K L → ∀ {active a b}, exec ctx stmt active a = .ok () b → a.Leaves K L b := by
  intro stmt hstmt active a b h
  by_cases hne : active = []
  · subst hne
    rw [exec_nil] at h
    obtain ⟨-, rfl⟩ := pure_eq_ok.mp h
    exact .refl _
  -- A statement that changes a variable or an array names it among what it declares or assigns.
  cases stmt with
  | skip =>
    rw [exec_skip] at h
    obtain ⟨-, rfl⟩ := pure_eq_ok.mp h
    exact .refl _
  | seq stmts =>
    rw [exec_seq_eq] at h
    exact execAll_leaves (Stmt.leaves_seq hstmt) h
  | comment text body =>
    rw [exec_comment] at h
    exact exec_leaves (Stmt.leaves_comment hstmt) h
  | branch c ifTrue ifFalse =>
    obtain ⟨answers, s, -, h₁, h₂⟩ := exec_branch_ok hne h
    exact (exec_leaves (Stmt.leaves_branch hstmt).1 h₁).trans (exec_leaves (Stmt.leaves_branch hstmt).2 h₂)
  | loop iter bound body =>
    obtain ⟨hiter, hbody⟩ := Stmt.leaves_loop hstmt
    obtain ⟨bounds, -, hrounds⟩ := exec_loop_ok hne h
    exact countUp_ok (P := fun _ c => a.Leaves K L c)
      (fun k c d hc hcd => hc.trans (loopStep_leaves hiter (exec_leaves hbody) hcd)) (.refl a) hrounds
  | repeatWhile c body =>
    have hbody := Stmt.leaves_repeatWhile hstmt
    rw [exec_repeatWhile hne] at h
    exact whileLive_ok (P := fun c => a.Leaves K L c) (fun live c live' d hc htest => (loopTest_ok htest).1 ▸ hc)
      (fun live c d hc hcd => hc.trans (exec_leaves hbody hcd)) (.refl a) h
  | declare name type volatile =>
    rw [exec, if_neg (by simpa using hne)] at h
    refine forM_leaves (fun t c d hcd => ?_) h
    obtain rfl := modify_eq_ok.mp hcd
    exact .bind (hstmt.declared name List.mem_cons_self).1
  | declareArray name type length space =>
    rw [exec, if_neg (by simpa using hne)] at h
    refine forM_leaves (fun t c d hcd => ?_) h
    obtain ⟨i, n, -, -, ⟨-, rfl⟩ | ⟨-, rfl⟩⟩ := declareArray_ok hcd
    · exact .declareShared
    · exact .declareOwn (hstmt.declared name List.mem_cons_self).2
  | set name x =>
    rw [exec, if_neg (by simpa using hne)] at h
    refine forM_leaves (fun t c d hcd => ?_) h
    obtain ⟨v, -, -, rfl⟩ := set_eq_ok.mp hcd
    exact .bind (hstmt.assigned name List.mem_cons_self)
  | read dest view index =>
    rw [exec, if_neg (by simpa using hne)] at h
    refine forM_leaves (fun t c d hcd => ?_) h
    obtain ⟨i, v, races, -, -, rfl⟩ := read_ok hcd
    exact Leaves.trans (b := { c with races }) (.of_eq rfl rfl rfl) (.bind (hstmt.assigned dest List.mem_cons_self))
  | write view index x =>
    rw [exec, if_neg (by simpa using hne)] at h
    refine forM_leaves (fun t c d hcd => ?_) h
    obtain ⟨i, v, p, races, -, -, -, rfl⟩ := write_ok hcd
    exact Leaves.put.trans (.of_eq rfl rfl rfl)
  | query which dest =>
    rw [exec, if_neg (by simpa using hne)] at h
    refine forM_leaves (fun t c d hcd => ?_) h
    obtain rfl := modify_eq_ok.mp hcd
    exact .bind (hstmt.assigned dest List.mem_cons_self)
  | barrier fence =>
    rw [exec, if_neg (by simpa using hne)] at h
    obtain rfl := modify_eq_ok.mp h
    exact .of_eq rfl rfl rfl
  | memFence fence =>
    rw [exec, if_neg (by simpa using hne)] at h
    obtain ⟨-, rfl⟩ := pure_eq_ok.mp h
    exact .refl _
  | update op old view index x =>
    rw [exec, if_neg (by simpa using hne)] at h
    refine forM_leaves (fun t c d hcd => ?_) h
    obtain ⟨p, v, current, rfl⟩ := update_ok hcd
    exact Leaves.put.trans (Leaves.trans (.bind (hstmt.assigned old List.mem_cons_self)) (.of_eq rfl rfl rfl))
  | compareSwap old view index expected desired =>
    rw [exec, if_neg (by simpa using hne)] at h
    refine forM_leaves (fun t c d hcd => ?_) h
    obtain ⟨current, rfl | ⟨p, v, rfl⟩⟩ := compareSwap_ok hcd
    · exact Leaves.trans (.bind (hstmt.assigned old List.mem_cons_self)) (.of_eq rfl rfl rfl)
    · exact Leaves.put.trans (Leaves.trans (.bind (hstmt.assigned old List.mem_cons_self)) (.of_eq rfl rfl rfl))

theorem execAll_leaves : ∀ {stmts : List Stmt}, (∀ s ∈ stmts, s.Leaves K L) → ∀ {active a b},
    execAll ctx stmts active a = .ok () b → a.Leaves K L b
  | [], _, active, a, b, h => by
    rw [execAll_nil] at h
    obtain ⟨-, rfl⟩ := pure_eq_ok.mp h
    exact .refl _
  | s :: ss, hstmts, active, a, b, h => by
    obtain ⟨_, c, hs, hss⟩ := bind_eq_ok.mp (execAll_cons s ss ▸ h)
    exact (exec_leaves (hstmts s List.mem_cons_self) hs).trans
      (execAll_leaves (fun s' hs' => hstmts s' (List.mem_cons_of_mem s hs')) hss)

end

/-! ### Coming to a part -/

/-- Threads that run code from one state come to a part of it in another one: `Comes part stmt active s live r` says
    that in the run of `stmt` by the threads `active` from `s`, the threads `live` start to run `part` in `r`. A part
    that is a sequence may have become a piece of a longer one. -/
inductive Comes (ctx : GroupContext) (part : Stmt) : Stmt → List Nat → GroupState → List Nat → GroupState → Prop
  | here {live : List Nat} {r : GroupState} : Comes ctx part part live r live r
  | amid {before after : List Stmt} {live : List Nat} {s r : GroupState} (run : execAll ctx before live s = .ok () r) :
    Comes ctx part (.seq (before ++ part.pieces ++ after)) live s live r
  | seq {before after : List Stmt} {stmt : Stmt} {active live : List Nat} {s s₁ r : GroupState}
    (run : execAll ctx before active s = .ok () s₁) (rest : Comes ctx part stmt active s₁ live r) :
    Comes ctx part (.seq (before ++ stmt :: after)) active s live r
  | comment {text : String} {body : Stmt} {active live : List Nat} {s r : GroupState}
    (rest : Comes ctx part body active s live r) : Comes ctx part (.comment text body) active s live r
  | ifTrue {c : Exp} {ifTrue ifFalse : Stmt} {answers : List (Nat × Bool)} {active live : List Nat} {s r : GroupState}
    (asked : ask active (fun t => condition ctx t c) s = .ok answers s)
    (rest : Comes ctx part ifTrue (those answers id) s live r) : Comes ctx part (.branch c ifTrue ifFalse)
      active s live r
  | ifFalse {c : Exp} {ifTrue ifFalse : Stmt} {answers : List (Nat × Bool)} {active live : List Nat}
    {s s₁ r : GroupState}
    (asked : ask active (fun t => condition ctx t c) s = .ok answers s)
    (run : exec ctx ifTrue (those answers id) s = .ok () s₁)
      (rest : Comes ctx part ifFalse (those answers not) s₁ live r) :
    Comes ctx part (.branch c ifTrue ifFalse) active s live r
  | round {iter : Ident} {bound : Exp} {body : Stmt} {bounds : List (Nat × Int64)} {k : Nat} {active live : List Nat}
    {s s₁ s₂ r : GroupState} (asked : ask active (fun t => int ctx t bound) s = .ok bounds s)
    (rounds : countUp (loopStep ctx iter body bounds) k 0 s = .ok () s₁)
    (count : ((those bounds fun b => k < b.toInt).forM fun t =>
      (modify fun s => s.bind t iter (.i64 (Int64.ofNat k)) : Run Unit)) s₁ = .ok () s₂)
    (rest : Comes ctx part body (those bounds fun b => k < b.toInt) s₂ live r) :
    Comes ctx part (.loop iter bound body) active s live r
  | first {c : Exp} {body : Stmt} {active passed live : List Nat} {s r : GroupState}
    (test : loopTest ctx c active s = .ok passed s) (rest : Comes ctx part body passed s live r) :
    Comes ctx part (.repeatWhile c body) active s live r
  | later {c : Exp} {body : Stmt} {active passed live : List Nat} {s s₁ r : GroupState}
    (test : loopTest ctx c active s = .ok passed s) (run : exec ctx body passed s = .ok () s₁)
    (rest : Comes ctx part (.repeatWhile c body) passed s₁ live r) : Comes ctx part (.repeatWhile c body)
      active s live r

namespace Comes
variable {part whole : Stmt} {live : List Nat} {s r : GroupState}

/-- The threads that come are some of those that started, in their order. -/
theorem sublist (h : Comes ctx part whole active s live r) : live.Sublist active := by
  have asked_sublist : ∀ {α : Type} {g : Nat → GroupState → Except Fault α} {answers : List (Nat × α)} {p : α → Bool}
      {active : List Nat} {s : GroupState}, ask active (fun t => evaluate (g t)) s = .ok answers s →
        (those answers p).Sublist active := by
    intro α g answers p active s hask
    obtain ⟨-, hthreads, -⟩ := ask_eq_ok hask
    exact hthreads ▸ those_sublist answers p
  induction h with
  | here => exact .refl _
  | amid _ => exact .refl _
  | seq _ _ ih => exact ih
  | comment _ ih => exact ih
  | ifTrue asked _ ih => exact ih.trans (asked_sublist asked)
  | ifFalse asked _ _ ih => exact ih.trans (asked_sublist asked)
  | round asked _ _ _ ih => exact ih.trans (asked_sublist asked)
  | first test _ ih =>
    obtain ⟨-, answers, hask, rfl⟩ := loopTest_ok test
    exact ih.trans (asked_sublist hask)
  | later test _ _ ih =>
    obtain ⟨-, answers, hask, rfl⟩ := loopTest_ok test
    exact ih.trans (asked_sublist hask)

/-- What all code keeps, and a new round of a loop too, holds where threads come to a part, if it holds at the start. -/
theorem keeps {P : GroupState → Prop} (hexec : ∀ stmt active a b, P a → exec ctx stmt active a = .ok () b → P b)
    (hbind : ∀ a t name v, P a → P (a.bind t name v)) (h : Comes ctx part whole active s live r) : P s → P r := by
  have hcount : ∀ {iter : Ident} {v : Value} {active : List Nat} {a b : GroupState}, P a →
      (active.forM fun t => (modify fun s => s.bind t iter v : Run Unit)) a = .ok () b → P b := by
    intro iter v active a b ha hab
    refine forM_rel (R := fun a b => P a → P b) (fun _ => id) (fun h h' => h' ∘ h) (fun t _ c d hcd hc => ?_) hab ha
    obtain rfl := modify_eq_ok.mp hcd
    exact hbind c t iter v hc
  induction h with
  | here => exact id
  | @amid before _ live _ _ run => exact fun hs => hexec (.seq before) live _ _ hs (exec_seq_eq before ▸ run)
  | @seq before _ _ active _ _ _ _ run _ ih =>
    exact fun hs => ih (hexec (.seq before) active _ _ hs (exec_seq_eq before ▸ run))
  | comment _ ih => exact ih
  | ifTrue _ _ ih => exact ih
  | ifFalse _ run _ ih => exact fun hs => ih (hexec _ _ _ _ hs run)
  | round _ rounds count _ ih =>
    intro hs
    refine ih (hcount (countUp_ok (P := fun _ c => P c) (fun k c d hc hcd => ?_) hs rounds) count)
    obtain ⟨_, c', hbinds, hbody⟩ := bind_eq_ok.mp hcd
    exact hexec _ _ _ _ (hcount hc hbinds) hbody
  | first _ _ ih => exact ih
  | later _ run _ ih => exact fun hs => ih (hexec _ _ _ _ hs run)

/-- Where threads come to a part, they find what the whole code neither declares nor assigns as it was at the start. -/
theorem leaves (h : Comes ctx part whole active s live r) (hwhole : whole.Leaves K L) : s.Leaves K L r := by
  induction h with
  | here => exact .refl _
  | amid run =>
    have hall := Stmt.leaves_seq hwhole
    exact execAll_leaves (fun s' hs' => hall s' (List.mem_append_left _ (List.mem_append_left _ hs'))) run
  | seq run _ ih =>
    have hall := Stmt.leaves_seq hwhole
    exact (execAll_leaves (fun s' hs' => hall s' (List.mem_append_left _ hs')) run).trans
      (ih (hall _ (List.mem_append_right _ List.mem_cons_self)))
  | comment _ ih => exact ih (Stmt.leaves_comment hwhole)
  | ifTrue _ _ ih => exact ih (Stmt.leaves_branch hwhole).1
  | ifFalse _ run _ ih =>
    obtain ⟨htrue, hfalse⟩ := Stmt.leaves_branch hwhole
    exact (exec_leaves htrue run).trans (ih hfalse)
  | @round iter bound body bounds k active live s s₁ s₂ r _ rounds count _ ih =>
    obtain ⟨hiter, hbody⟩ := Stmt.leaves_loop hwhole
    have hrounds : s.Leaves K L s₁ := countUp_ok (P := fun _ c => s.Leaves K L c)
      (fun k c d hc hcd => hc.trans (loopStep_leaves hiter (exec_leaves hbody) hcd)) (.refl s) rounds
    have hcount : s₁.Leaves K L s₂ := forM_leaves (fun t c d hcd => by
      obtain rfl := modify_eq_ok.mp hcd
      exact .bind hiter) count
    exact hrounds.trans (hcount.trans (ih hbody))
  | first _ _ ih => exact ih (Stmt.leaves_repeatWhile hwhole)
  | later _ run _ ih => exact (exec_leaves (Stmt.leaves_repeatWhile hwhole) run).trans (ih hwhole)

/-- Threads come to a part of a statement in the same way if the statement has become a piece of a sequence. -/
theorem pieces (h : Comes ctx part whole active s live r) : Comes ctx part (.seq whole.pieces) active s live r := by
  cases whole with
  | skip =>
    cases h
    exact @amid ctx .skip [] [] _ _ _ rfl
  | seq stmts => exact h
  | _ => exact @seq ctx part [] [] _ _ _ _ _ _ rfl h

/-- What stands in front of the place to which threads come, they have run. -/
theorem after_front {front tail : List Stmt}
    (hfront : ∀ d ∈ front, ∀ active s live r, ¬Comes ctx part d active s live r)
    (hpart : ∃ p rest, part.pieces = p :: rest ∧ p ∉ front)
    (h : Comes ctx part (.seq (front ++ tail)) active s live r) :
    ∃ s₁, execAll ctx front active s = .ok () s₁ ∧ Comes ctx part (.seq tail) active s₁ live r := by
  obtain ⟨p, rest, hpieces, hnew⟩ := hpart
  generalize hstmts : front ++ tail = stmts at h
  cases h with
  | here =>
    -- The part is the whole sequence, so nothing stands in front of it.
    cases front with
    | nil => exact ⟨_, rfl, hstmts ▸ .here⟩
    | cons d front =>
      have heads : p = d := by
        rw [← hstmts] at hpieces
        exact (List.cons.inj hpieces).1.symm
      exact absurd (heads ▸ List.mem_cons_self) hnew
  | @amid before after live _ _ run =>
    rw [hpieces, List.append_assoc] at hstmts
    obtain ⟨c, rfl, htail⟩ | ⟨c, rfl, hrest⟩ := List.append_eq_append_iff.mp hstmts
    · rw [execAll_append] at run
      obtain ⟨_, s₁, hrun, run⟩ := bind_eq_ok.mp run
      refine ⟨s₁, hrun, ?_⟩
      rw [htail, ← List.append_assoc, ← hpieces]
      exact .amid run
    · cases c with
      | nil =>
        refine ⟨_, by rwa [List.append_nil], ?_⟩
        rw [List.nil_append] at hrest
        rw [← hrest, ← hpieces]
        exact @amid ctx part [] after _ _ _ rfl
      | cons d c =>
        obtain rfl : p = d := (List.cons.inj hrest).1
        exact absurd (List.mem_append_right _ List.mem_cons_self) hnew
  | @seq before after stmt active live _ s₁ _ run rest =>
    obtain ⟨c, rfl, htail⟩ | ⟨c, rfl, hrest⟩ := List.append_eq_append_iff.mp hstmts
    · rw [execAll_append] at run
      obtain ⟨_, s₁, hrun, run⟩ := bind_eq_ok.mp run
      exact ⟨s₁, hrun, htail ▸ .seq run rest⟩
    · cases c with
      | nil =>
        refine ⟨_, by rwa [List.append_nil], ?_⟩
        rw [List.nil_append] at hrest
        exact hrest ▸ @seq ctx part [] after _ _ _ _ _ _ rfl rest
      | cons d c =>
        obtain rfl : stmt = d := (List.cons.inj hrest).1
        exact absurd rest (hfront stmt (List.mem_append_right _ List.mem_cons_self) _ _ _ _)

end Comes
end Run
end SegKernel
