import SegKernel.Proofs.Execution.Launching
import SegKernel.Proofs.Execution.Mimicry
import SegKernel.Proofs.Footprints.Runs
import SegKernel.Proofs.Names.Declared

/-! The free names of code determine what it does. Two launches that have the same values for the free
    scalars, and the same contents in the free arrays, go the same way to the end. -/

namespace SegKernel

/-- What a name stands for in code. -/
inductive Usage
  | scalar
  | memory (space : Space)
deriving DecidableEq

namespace Stmt

mutual

/-- The names that code declares, each with what it declares them as, in textual order. -/
def declarations : Stmt → List (Ident × Usage)
  | seq stmts => declarationsAll stmts
  | comment _ body | repeatWhile _ body => body.declarations
  | declare name _ _ => [(name, .scalar)]
  | declareArray name _ _ space => [(name, .memory space)]
  | branch _ ifTrue ifFalse => ifTrue.declarations ++ ifFalse.declarations
  | loop iter _ body => (iter, .scalar) :: body.declarations
  | skip | set .. | read .. | write .. | query .. | barrier _ | memFence _ | update .. | compareSwap .. => []

def declarationsAll : List Stmt → List (Ident × Usage)
  | [] => []
  | s :: ss => s.declarations ++ declarationsAll ss

end

/-- The names of code, each with what it stands for where it is declared or used. -/
def usages (stmt : Stmt) : List (Ident × Usage) :=
  stmt.declarations ++ (stmt.mentions.filter (·.role = .scalar)).map (fun m => (m.name, .scalar)) ++
    (stmt.loads ++ stmt.stores).map fun view => (view.array, .memory view.space)

/-- Each name stands for one thing throughout: a scalar, or an array of one space. -/
def SingleRoles (stmt : Stmt) : Prop := ∀ a ∈ stmt.usages, ∀ b ∈ stmt.usages, a.1 = b.1 → a.2 = b.2

instance (stmt : Stmt) : Decidable stmt.SingleRoles := inferInstanceAs (Decidable (∀ a ∈ stmt.usages, _))

/-- Code declares no array that lives on the device. -/
def DeclaresNoGlobal (stmt : Stmt) : Prop := ∀ a ∈ stmt.declarations, a.2 ≠ .memory .global

instance (stmt : Stmt) : Decidable stmt.DeclaresNoGlobal := inferInstanceAs (Decidable (∀ a ∈ stmt.declarations, _))

mutual

theorem declared_eq_map : ∀ stmt : Stmt, stmt.declared = stmt.declarations.map (·.1)
  | seq stmts => by rw [declared, declarations, declaredAll_eq_map stmts]
  | comment _ body | repeatWhile _ body => by rw [declared, declarations, declared_eq_map body]
  | branch _ ifTrue ifFalse => by
    rw [declared, declarations, List.map_append, declared_eq_map ifTrue, declared_eq_map ifFalse]
  | loop iter _ body => by rw [declared, declarations, List.map_cons, declared_eq_map body]
  | declare .. | declareArray .. | skip | set .. | read .. | write .. | query .. | barrier _ | memFence _ | update ..
  | compareSwap .. => by
    rw [declared, declarations]
    rfl

theorem declaredAll_eq_map (stmts : List Stmt) : declaredAll stmts = (declarationsAll stmts).map (·.1) := by
  cases stmts with
  | nil => rw [declaredAll, declarationsAll, List.map_nil]
  | cons s ss => rw [declaredAll, declarationsAll, List.map_append, declared_eq_map s, declaredAll_eq_map ss]

end

theorem exp_memory {x : Ident} {e : Exp} : ⟨x, .memory⟩ ∈ e.mentions ↔ False := by
  simp [Exp.mentions]

mutual

/-- The arrays that code mentions are those that it loads from and stores to. -/
theorem mentions_memory {x : Ident} : ∀ {stmt : Stmt}, ⟨x, .memory⟩ ∈ stmt.mentions ↔
    ∃ view, view.array = x ∧ (view ∈ stmt.loads ∨ view ∈ stmt.stores)
  | .seq stmts => by
    rw [mentions, loads, stores]
    exact mentionsAll_memory
  | .comment .. => by
    rw [mentions, loads, stores]
    exact mentions_memory
  | .branch _ ifTrue ifFalse => by
    have htrue : ⟨x, .memory⟩ ∈ ifTrue.mentions ↔ _ := mentions_memory
    have hfalse : ⟨x, .memory⟩ ∈ ifFalse.mentions ↔ _ := mentions_memory
    simp only [mentions, loads, stores, List.mem_append, exp_memory, htrue, hfalse]
    grind
  | .loop .. | .repeatWhile .. => by
    rw [mentions, loads, stores, List.mem_append]
    simp only [exp_memory, false_or]
    exact mentions_memory
  | .read .. | .write .. | .update .. | .compareSwap .. => by
    simp [mentions, loads, stores, exp_memory, eq_comm]
  | .skip | .declare .. | .declareArray .. | .set .. | .query .. | .barrier _ | .memFence _ => by
    simp [mentions, loads, stores, exp_memory]

theorem mentionsAll_memory {x : Ident} {stmts : List Stmt} : ⟨x, .memory⟩ ∈ mentionsAll stmts ↔
    ∃ view, view.array = x ∧ (view ∈ loadsAll stmts ∨ view ∈ storesAll stmts) := by
  cases stmts with
  | nil => simp [mentionsAll, loadsAll, storesAll]
  | cons s ss =>
    have hs : ⟨x, .memory⟩ ∈ s.mentions ↔ _ := mentions_memory
    have hss : ⟨x, .memory⟩ ∈ mentionsAll ss ↔ _ := mentionsAll_memory
    simp only [mentionsAll, loadsAll, storesAll, List.mem_append, hs, hss]
    grind

end

namespace SingleRoles
variable {stmt : Stmt} {x : Ident}

theorem not_both (h : stmt.SingleRoles) (hscalar : ⟨x, .scalar⟩ ∈ stmt.mentions) : ⟨x, .memory⟩ ∉ stmt.mentions := by
  intro hmemory
  obtain ⟨view, rfl, hview⟩ := mentions_memory.mp hmemory
  have asScalar : (view.array, Usage.scalar) ∈ stmt.usages := by
    refine List.mem_append_left _ (List.mem_append_right
      _ (List.mem_map.mpr ⟨_, List.mem_filter.mpr ⟨hscalar, ?_⟩, rfl⟩))
    exact decide_eq_true rfl
  have asMemory : (view.array, Usage.memory view.space) ∈ stmt.usages :=
    List.mem_append_right _ (List.mem_map_of_mem (List.mem_append.mpr hview))
  cases h _ asScalar _ asMemory rfl

/-- A global array that code accesses is free, unless the code declares it. -/
theorem freeMemory (h : stmt.SingleRoles) (hglobal : stmt.DeclaresNoGlobal) {view : View}
    (hview : view ∈ stmt.loads ∨ view ∈ stmt.stores) (hs : view.space = .global) : view.array ∈ stmt.freeMemory := by
  have hmention : ⟨view.array, .memory⟩ ∈ stmt.mentions := mentions_memory.mpr ⟨view, rfl, hview⟩
  have hdeclared : view.array ∉ stmt.declared := by
    intro hd
    rw [declared_eq_map] at hd
    obtain ⟨d, hd, hname⟩ := List.mem_map.mp hd
    have hrole := h d (List.mem_append_left _ (List.mem_append_left _ hd)) (view.array, .memory view.space)
      (List.mem_append_right _ (List.mem_map_of_mem (List.mem_append.mpr hview))) hname
    rw [hs] at hrole
    exact hglobal d hd hrole
  refine (free_of_mentions hmention hdeclared).resolve_left fun hscalar => ?_
  exact h.not_both (mentions_of_role hscalar) hmention

/-- A scalar that code uses is free, unless the code declares it. -/
theorem freeScalars (h : stmt.SingleRoles) (hx : ⟨x, .scalar⟩ ∈ stmt.mentions) (hdeclared : x ∉ stmt.declared) :
    x ∈ stmt.freeScalars :=
  (free_of_mentions hx hdeclared).resolve_right fun hmemory => h.not_both hx (mentions_of_role hmemory)

/-- Hosts that agree on the free scalars, and have nothing of the name of a declared one, agree on all that code
    uses. -/
theorem agrees (h : stmt.SingleRoles) {captured captured' : Table Value} (hown : ∀ y ∈ stmt.declared, y ∉ captured)
    (hown' : ∀ y ∈ stmt.declared, y ∉ captured') (hscalars : ∀ y ∈ stmt.freeScalars, captured[y]? = captured'[y]?) :
    stmt.Agrees captured captured' := by
  intro y hy
  by_cases hd : y ∈ stmt.declared
  · rw [Std.ExtTreeMap.getElem?_eq_none (hown y hd), Std.ExtTreeMap.getElem?_eq_none (hown' y hd)]
  · exact hscalars y (h.freeScalars hy hd)

end SingleRoles
end Stmt

namespace Device
open Run
variable {M : Ident → Prop} {ctx : GroupContext} {body : Stmt}

/-- The states are the same but for global arrays outside of `M`. -/
structure Progress.Sharing (M : Ident → Prop) (a b : Progress) : Prop where
  stats : b.stats = a.stats
  global : ∀ x, M x → b.global[x]? = a.global[x]?

/-- The launch depends on no global array outside of `M`, and changes none. -/
structure Launch.Confined (M : Ident → Prop) (r : Launch Unit) : Prop where
  same : ∀ a b, a.Sharing M b → SameEnd (Progress.Sharing M) (r a) (r b)
  frame : ∀ s x, ¬M x → (final (r s)).global[x]? = s.global[x]?

theorem runGroup_confined (h : ∀ active, Run.Confined M (exec ctx body active)) (schedule : Schedule) :
    Launch.Confined M (runGroup ctx schedule body) := by
  have confined := h (schedule.order ctx.groupSize.toInt.toNat)
  refine ⟨fun a b hab => ?_, fun s x hx => ?_⟩
  · rw [runGroup_eq, runGroup_eq]
    have hexec := confined.same (groupStart ctx a) (groupStart ctx b) ⟨rfl, rfl, rfl, hab.stats, hab.global⟩
    revert hexec
    generalize exec ctx body _ (groupStart ctx a) = ra
    generalize exec ctx body _ (groupStart ctx b) = rb
    rintro (⟨_, hs⟩ | ⟨fault, hs⟩)
    · exact .ok () ⟨hs.stats, hs.global⟩
    · exact .error fault ⟨hs.stats, hs.global⟩
  · rw [runGroup_eq]
    have hexec := confined.frame (groupStart ctx s) x hx
    revert hexec
    cases exec ctx body _ (groupStart ctx s) <;> exact id

theorem runGroups_confined (h : ∀ g active, Run.Confined M (exec { ctx with group := g } body active))
    (schedule : Schedule) :
    ∀ count first : Nat, Launch.Confined M (runGroups ctx schedule body count first)
  | 0, _ => ⟨fun _ _ hab => .ok () hab, fun _ _ _ => rfl⟩
  | n + 1, g => by
    have first := runGroup_confined (h (Int64.ofNat g)) schedule
    have rest := runGroups_confined h schedule n (g + 1)
    refine ⟨fun a b hab => ?_, fun s x hx => ?_⟩
    · rw [runGroups, bind_apply, bind_apply]
      have hfirst := first.same a b hab
      revert hfirst
      generalize runGroup _ schedule body a = ra
      generalize runGroup _ schedule body b = rb
      rintro (⟨_, hs⟩ | ⟨fault, hs⟩)
      · exact rest.same _ _ hs
      · exact .error fault hs
    · rw [runGroups, bind_apply]
      have hfirst := first.frame s x hx
      revert hfirst
      cases runGroup _ schedule body s with
      | ok _ s' => exact (rest.frame s' x hx).trans
      | error fault s' => exact id

/-- Where the host gives the scalars that the body uses the same values, the groups do the same. -/
theorem runGroups_capturing {captured : Table Value} (h : body.Agrees ctx.captured captured) (schedule : Schedule) :
    ∀ count first : Nat, runGroups (ctx.capturing captured) schedule body count first =
      runGroups ctx schedule body count first
  | 0, _ => rfl
  | n + 1, g => by
    have mimics : Mimics ({ ctx with group := Int64.ofNat g }.capturing captured) { ctx with group := Int64.ofNat g }
        body body := mimics_of_agrees h
    have hgroup : runGroup ({ ctx with group := Int64.ofNat g }.capturing captured) schedule body =
        runGroup { ctx with group := Int64.ofNat g } schedule body := runGroup_congr mimics.exec rfl schedule
    rw [runGroups, runGroups, runGroups_capturing h schedule n (g + 1)]
    exact congrArg (· >>= fun _ => runGroups ctx schedule body n (g + 1)) hgroup

/-- What a kernel captures determines what it does. Two launches of a body in the same geometry, which have
    the same values for its free scalars and the same contents in its free arrays, end with the same outcome,
    the same statistics and the same contents in these arrays, and change no other arrays. The body has one
    role for each name and declares no global array, and the host has nothing of the name of what it declares. -/
theorem runGroups_captured {captured : Table Value} {a b : Progress} (hroles : body.SingleRoles)
    (hglobal : body.DeclaresNoGlobal) (hown : ∀ x ∈ body.declared, x ∉ ctx.captured)
    (hown' : ∀ x ∈ body.declared, x ∉ captured)
    (hscalars : ∀ x ∈ body.freeScalars, ctx.captured[x]? = captured[x]?)
    (hmemory : ∀ x ∈ body.freeMemory, b.global[x]? = a.global[x]?) (hstats : b.stats = a.stats) (schedule : Schedule)
    (count first : Nat) :
    SameEnd (Progress.Sharing (· ∈ body.freeMemory)) (runGroups ctx schedule body count first a)
        (runGroups (ctx.capturing captured) schedule body count first b) ∧
      ∀ x ∉ body.freeMemory,
        (final (runGroups ctx schedule body count first a)).global[x]? = a.global[x]? ∧
          (final (runGroups (ctx.capturing captured) schedule body count first b)).global[x]? = b.global[x]? := by
  have confined : Launch.Confined (· ∈ body.freeMemory) (runGroups ctx schedule body count first) :=
    runGroups_confined (fun g => exec_confined { ctx with group := g } body fun _ => hroles.freeMemory hglobal) schedule
      count first
  rw [runGroups_capturing (hroles.agrees hown hown' hscalars)]
  exact ⟨confined.same a b ⟨hstats, hmemory⟩, fun x hx => ⟨confined.frame a x hx, confined.frame b x hx⟩⟩

/-- The launch of a kernel leaves the global arrays that the kernel does not access. -/
theorem runKernel_frame {d : Device} {host : Scope} {k : Kernel} {s s' : Progress}
    (haccess : ∀ view, view ∈ k.body.loads ∨ view ∈ k.body.stores → view.space = .global → M view.array)
    (h : d.runKernel host k s = .ok () s') {x : Ident} (hx : ¬M x) : s'.global[x]? = s.global[x]? := by
  unfold runKernel at h
  obtain ⟨ctx, s₁, hctx, hrest⟩ := Run.bind_eq_ok.mp h
  obtain ⟨_, s₂, hgroups, hcount⟩ := Run.bind_eq_ok.mp hrest
  obtain rfl : s₁ = s := by
    split at hctx <;> cases hctx
    rfl
  have hframe := (runGroups_confined (fun g => exec_confined { ctx with group := g } k.body haccess) d.schedule
    ctx.numGroups.toInt.toNat 0).frame s₁ x hx
  rw [hgroups] at hframe
  obtain rfl := Run.modify_eq_ok.mp hcount
  exact hframe

/-- So do the launches of several kernels. -/
theorem runKernels_frame {d : Device} {host : Scope} : ∀ {ks : List Kernel} {s s' : Progress},
    (∀ k ∈ ks, ∀ view, view ∈ k.body.loads ∨ view ∈ k.body.stores → M view.array) →
      ks.forM (d.runKernel host) s = .ok () s' → ∀ x, ¬M x → s'.global[x]? = s.global[x]?
  | [], _, _, _, h, _, _ => by
    cases h
    rfl
  | k :: ks, s, s', haccess, h, x, hx => by
    obtain ⟨_, s₁, hfirst, hrest⟩ :=
      Run.bind_eq_ok.mp (show (do d.runKernel host k; ks.forM (d.runKernel host)) s = _ from h)
    have hframe := runKernels_frame (fun k' hk' => haccess k' (List.mem_cons_of_mem k hk')) hrest x hx
    exact hframe.trans (runKernel_frame (fun view hview _ => haccess k List.mem_cons_self view hview) hfirst hx)

/-- Each thread adds `n` to its element of `xs`. -/
def shiftBody : Stmt :=
  .seq [.declare "i" .i64 false, .query .globalId "i", .declare "x" .i64 false,
    .read "x" ⟨"xs", .i64, .global, false⟩ (.var "i"),
    .write ⟨"xs", .i64, .global, false⟩ (.var "i") (.binary .add (.var "x") (.var "n"))]

/-- A group of two threads with the `n` that the body uses, and an `m` that it does not know. -/
def shiftContext (m : Value) : GroupContext where
  captured := (({} : Table Value).insert "n" (.i64 10)).insert "m" m
  group := 0
  groupSize := 2
  numGroups := 1
  wave := 1
  loopLimit := 8
  checkRaces := true

/-- Memory with the `xs` that the body uses, and `ys` that it does not know. -/
def shiftStart (ys : List Value) : Progress :=
  { global := (({} : Memory).insert "xs" (.ofValues .i64 [.i64 1, .i64 2])).insert "ys" (.ofValues .i64 ys) }

/-- Neither another `m` nor other `ys` are noticed. -/
theorem shift_captured :
    let r := runGroups (shiftContext (.i64 5)) .forward shiftBody 1 0 (shiftStart [.i64 7])
    let r' := runGroups (shiftContext (.bool true)) .forward shiftBody 1 0 (shiftStart [])
    SameEnd (Progress.Sharing (· ∈ shiftBody.freeMemory)) r r' ∧
      shiftBody.freeScalars = ["n"] ∧ shiftBody.freeMemory = ["xs"] ∧
      (reached? r).map (·.global["xs"]?.map Buffer.values) = some (some [.i64 11, .i64 12]) := by
  have hmemory : ∀ x ∈ shiftBody.freeMemory, (shiftStart []).global[x]? = (shiftStart [.i64 7]).global[x]? := by
    rw [show shiftBody.freeMemory = ["xs"] by decide +kernel, List.forall_mem_singleton]
    simp only [shiftStart, Table.getElem?_insert, String.reduceEq, if_true, if_false]
  have hscalars : ∀ x ∈ shiftBody.freeScalars,
      (shiftContext (.i64 5)).captured[x]? = (shiftContext (.bool true)).captured[x]? := by decide +kernel
  exact ⟨(runGroups_captured (by decide +kernel) (by decide +kernel) (by decide +kernel) (by decide +kernel) hscalars
    hmemory rfl .forward 1 0).1, by decide +kernel, by decide +kernel, by decide +kernel⟩

end Device
end SegKernel
