import SegKernel.Lowering.Fill
import SegKernel.Proofs.Convergence.Constructors
import SegKernel.Proofs.Evaluation.Words
import SegKernel.Proofs.Lowering.Growing
import SegKernel.Proofs.Maps.Kernels
import SegKernel.Proofs.Maps.Launches

/-! The code that makes an element of an array: it stores a value, a term of a progression, or an element
    of another array. A thread that runs it writes this element once and nothing else. -/

namespace SegKernel
open Exp

/-! ### Operands -/

/-- A variable that has a value is known. -/
theorem Surroundings.known_of_operand {H : Surroundings} {o : Operand} {v : Value} (h : o.toExp.eval H.scope = .ok v)
    {x : Ident} (hx : x ∈ o.toExp.occurrences) : H.env.Known x := by
  cases o with
  | const c => cases hx
  | var name =>
    obtain rfl := List.mem_singleton.mp hx
    cases hname : H.scope x with
    | none => simp [Operand.toExp, eval, hname] at h
    | some w => exact known_of_scope hname

theorem Exp.mem_occurrences_toType {x : Exp} {type : ScalarType} {y : Ident} (h : y ∈ (x.toType type).occurrences) :
    y ∈ x.occurrences := by
  unfold toType at h
  split at h
  · split at h
    · cases h
    · exact h
  · exact h

theorem Exp.mem_occurrences_apply {op : BinaryOp} {x y : Exp} {z : Ident} (h : z ∈ (apply op x y).occurrences) :
    z ∈ x.occurrences ∨ z ∈ y.occurrences := by
  let U : Common := {
    scalar := fun z => z ∈ x.occurrences ∨ z ∈ y.occurrences
    array := fun _ => False
    scalar_of_array := fun _ h => h.elim }
  have uses : (apply op x y).Over U := over_apply (fun _ => Or.inl) (fun _ => Or.inr)
  exact uses z h

namespace Fill
variable {H : Surroundings} {dest source : Ident} {type : ScalarType} {n : Nat} {v : Nat → Value}
  {element : Exp → Fresh Stmt}

/-- The write that gives an element its value. -/
def write (dest : Ident) (v : Nat → Value) (i : Nat) : Write := ⟨⟨.global, dest, i⟩, (v i).toBits⟩

/-- What a thread finds that makes element `i`: the elements there are those of the memory at the start, no other
    thread may write them, and it may write that of `dest`. -/
structure Finds (m : Memory) (dest : Ident) (i : Nat) (E : Solo) : Prop where
  layout : ∀ space array, E.store.layout? space array = (Store.ofGlobal m).layout? space array
  bits : ∀ array, E.store.bits? ⟨.global, array, i⟩ = (Store.ofGlobal m).bits? ⟨.global, array, i⟩
  own : E.own E.id ⟨.global, dest, i⟩
  keeps : ∀ array, E.Keeps ⟨.global, array, i⟩

/-- Code that gives each of the `n` elements of an array its value. It declares no variable of the host and uses
    only what is known there. -/
structure Element (H : Surroundings) (dest : Ident) (n : Nat) (v : Nat → Value) (element : Exp → Fresh Stmt) :
    Prop where
  isPrivate : ∀ names x, ((element x).run names).1.Private H.env.Known
  uses : ∀ names x, ∀ m ∈ ((element x).run names).1.mentions, m.name ∈ ((element x).run names).1.declared ∨
    m.role = .scalar ∧ (H.env.Known m.name ∨ m.name ∈ x.occurrences) ∨ m.role = .memory ∧ m.name ∈ H.env.arrays
  ensures : ∀ {names : Nat} {E : Solo} {σ : Scope} {x : Exp} {i : Nat} {th : Thread}, i < n → Finds H.memory dest i E →
    H.scope.Le σ → σ.Before names → IsInt σ x i → σ.Le (E.scope th) →
      E.Ensures ((element x).run names).1 (fun _ out => out = [write dest v i]) th []

/-- The array has elements of a type, of which there are `n`. -/
def HasLength (H : Surroundings) (array : Ident) (type : ScalarType) (n : Nat) : Prop :=
  (Store.ofGlobal H.memory).layout? .global array = some (type, n)

theorem reaches {E : Solo} {i : Nat} (hlength : HasLength H dest type n) (hi : i < n)
    (hE : ∀ space array, E.store.layout? space array = (Store.ofGlobal H.memory).layout? space array) :
    E.store.Reaches ⟨dest, type, .global, false⟩ i := ⟨type, n, (hE _ _).trans hlength, rfl, hi⟩

/-- The value of an expression of the index is stored. -/
theorem element_of_eval {f : Exp → Exp} (hdest : dest ∈ H.env.arrays) (hlength : HasLength H dest type n)
    (hf : ∀ {σ : Scope} {x : Exp} {i : Nat}, i < n → H.scope.Le σ → IsInt σ x i → (f x).eval σ = .ok (v i))
    (htype : ∀ i < n, (v i).type = type)
    (hknown : ∀ x, ∀ y ∈ (f x).occurrences, H.env.Known y ∨ y ∈ x.occurrences) :
    Element H dest n v fun i => pure (.write ⟨dest, type, .global, false⟩ i (f i)) where
  isPrivate _ _ := .write
  uses names x m hm := by
    rcases List.mem_cons.mp hm with rfl | hm
    · exact Or.inr (Or.inr ⟨rfl, hdest⟩)
    · refine Or.inr (Or.inl ?_)
      rcases List.mem_append.mp hm with hm | hm
      · obtain ⟨y, hy, rfl⟩ := List.mem_map.mp hm
        exact ⟨rfl, Or.inr hy⟩
      · obtain ⟨y, hy, rfl⟩ := List.mem_map.mp hm
        exact ⟨rfl, hknown x y hy⟩
  ensures hi hE hσ _ hx hth :=
    Solo.ensures_write hth hx (hf hi hσ hx) (htype _ hi) (reaches hlength hi hE.layout) hE.own rfl

/-- All elements get one value. -/
theorem element_value {value : Operand} {w : Value} (hdest : dest ∈ H.env.arrays) (hlength : HasLength H dest type n)
    (hvalue : value.toExp.eval H.scope = .ok w) (htype : w.type = type) :
    Element H dest n (fun _ => w) fun i => pure (.write ⟨dest, type, .global, false⟩ i value.toExp) :=
  element_of_eval hdest hlength (fun _ hσ _ => eval_mono hσ hvalue) (fun _ _ => htype) fun _ _ hy =>
    Or.inl (Surroundings.known_of_operand hvalue hy)

/-- Element `i` gets the start and `i` steps, computed in 64 bits and converted to the type. -/
theorem element_progression {start step : Operand} {u w : Value} {a b : Int} (hdest : dest ∈ H.env.arrays)
    (hlength : HasLength H dest type n) (hstart : start.toExp.eval H.scope = .ok u) (hu : u.integer? = some a)
    (hstep : step.toExp.eval H.scope = .ok w) (hw : w.integer? = some b) (htype : type.isIntegral = true) :
    Element H dest n (fun i => .ofInt type (Int64.ofInt (a + i * b)).toInt) fun i =>
      pure (.write ⟨dest, type, .global, false⟩ i
        ((start.toExp.toType .i64 + i * step.toExp.toType .i64).toType type)) := by
  refine element_of_eval hdest hlength (fun _ hσ hx => ?_) (fun i _ => (Value.wraps_ofInt_word htype _).1)
    fun x y hy => ?_
  · exact eval_toType_of_integer? (eval_progression (eval_mono hσ hstart) hu (eval_mono hσ hstep) hw hx) rfl type
  · rcases mem_occurrences_apply (mem_occurrences_toType hy) with hy | hy
    · exact Or.inl (Surroundings.known_of_operand hstart (mem_occurrences_toType hy))
    · rcases mem_occurrences_apply hy with hy | hy
      · exact Or.inr hy
      · exact Or.inl (Surroundings.known_of_operand hstep (mem_occurrences_toType hy))

/-- The element of another array is stored, by way of a variable of the thread. -/
theorem element_copy (hdest : dest ∈ H.env.arrays) (hsource : source ∈ H.env.arrays) (hlength : HasLength H dest type n)
    (hnames : ∀ x, H.env.Known x → ¬Generated x)
    (hvalues : ∀ i < n, (Store.ofGlobal H.memory).Holds ⟨source, type, .global, false⟩ i (v i)) :
    Element H dest n v fun i => do
      let name ← fresh "elem"
      return .block [.declare name type false, .read name ⟨source, type, .global, false⟩ i,
        .write ⟨dest, type, .global, false⟩ i (.var name)] := by
  have code : ∀ (names : Nat) (x : Exp), (Fresh.run (do
      let name ← fresh "elem"
      return .block [.declare name type false, .read name ⟨source, type, .global, false⟩ x,
        .write ⟨dest, type, .global, false⟩ x (.var name)]) names).1 =
      Stmt.block [.declare (numbered "elem" names) type false,
        .read (numbered "elem" names) ⟨source, type, .global, false⟩ x,
        .write ⟨dest, type, .global, false⟩ x (.var (numbered "elem" names))] := fun _ _ => rfl
  refine ⟨fun names x => ?_, fun names x m hm => ?_, fun {names E σ x i th} hi hE hσ hbefore hx hth => ?_⟩
  · rw [code]
    refine .block ?_
    simp only [List.forall_mem_cons, List.not_mem_nil, false_imp_iff, implies_true, and_true]
    exact ⟨.declare fun h => hnames _ h ⟨"elem", by decide, names, rfl⟩, .read, .write⟩
  · rw [code] at hm ⊢
    rw [Stmt.mentions_block] at hm
    simp only [List.flatMap_cons, List.flatMap_nil, Stmt.mentions, mentions, occurrences, List.mem_append,
      List.mem_cons,
      List.mem_map, List.not_mem_nil, or_false, false_or, List.map_cons, List.map_nil] at hm
    have own : numbered "elem" names ∈ (Stmt.block [.declare (numbered "elem" names) type false,
        .read (numbered "elem" names) ⟨source, type, .global, false⟩ x,
        .write ⟨dest, type, .global, false⟩ x (.var (numbered "elem" names))]).declared :=
      Stmt.mem_declared_block.mpr ⟨_, List.mem_cons_self, List.mem_singleton_self _⟩
    -- What the copy mentions is its own variable, an index, or one of the two arrays.
    rcases hm with ((rfl | ⟨y, hy, rfl⟩) | rfl) | (rfl | ⟨y, hy, rfl⟩) | rfl
    · exact Or.inr (Or.inr ⟨rfl, hsource⟩)
    · exact Or.inr (Or.inl ⟨rfl, Or.inr hy⟩)
    · exact Or.inl own
    · exact Or.inr (Or.inr ⟨rfl, hdest⟩)
    · exact Or.inr (Or.inl ⟨rfl, Or.inr hy⟩)
    · exact Or.inl own
  · have hname : σ (numbered "elem" names) = none := hbefore.fresh (by decide) (Nat.le_refl _)
    have held := (hvalues i hi).of_bits (hE.layout .global source) (hE.bits source)
    rw [code, Solo.ensures_block]
    refine Solo.ensures_load hth hname hx held rfl (hE.keeps source) fun th' hth' _ => ?_
    rw [Solo.ensuresAll_singleton]
    exact Solo.ensures_write hth' (hx.mono (Scope.le_set hname)) (eval_var Scope.set_self) (hvalues i hi).type
      (reaches hlength hi hE.layout) hE.own rfl

end Fill

/-! ## The kernel of an operation

The kernel of an operation that fills an array. It is added to those that are there, its code declares
no variable of the host, and the host finds the length and the group size with which to launch it. -/

/-! ### The host and its kernels -/

/-- The kernels of a program know the variables of a host as the host does, if they capture them. -/
theorem Device.hostEnv_eq_scope {d : Device} {env : HostEnv} {config : Config} {p q : Program} {k : Kernel} {m : Memory}
    (hp : p.Faithful ⟨config, env⟩) (hk : k ∈ p.kernels) {x : Ident} {c : Capture} (hc : c ∈ k.captures)
    (hx : scalarCapture? env q x = some c) (hknown : env.Known x) :
    (d.hostEnv p)[x]? = (⟨env, ((d.hostEnv p)[·]?), m⟩ : Surroundings).scope x := by
  rw [Surroundings.scope_eq]
  unfold scalarCapture? at hx
  dsimp only
  cases hconstant : env.constants[x]? with
  | some v =>
    rw [hconstant] at hx
    cases hx
    rw [Device.hostEnv_constant hp hk hc, Option.some_or]
  | none =>
    obtain ⟨type, hscalar⟩ : ∃ type, env.scalars[x]? = some type := by
      refine Option.isSome_iff_exists.mp (Std.ExtTreeMap.mem_iff_isSome_getElem?.mp (hknown.resolve_right fun h => ?_))
      rw [Std.ExtTreeMap.mem_iff_isSome_getElem?, hconstant] at h
      cases h
    rw [hscalar, Option.none_or, Option.bind_some]

namespace Fill
open Exp Lowering
variable {H : Surroundings} {setting : Setting} {dest : Ident} {n : Nat} {v : Nat → Value} {element : Exp → Fresh Stmt}
  {length : Exp} {kernel : String} {names : Nat} {σ σ' : Session} {u : Unit}

/-! ### The code -/

/-- The variable with the global index of a thread. -/
abbrev index (names : Nat) : Ident := numbered "global_tid" names

/-- The code with which the kernel starts. -/
def entry (kernel : String) (length : Exp) (names : Nat) : Stmt :=
  ((Launch.start (length.divUp (.var (Launch.sizeParam kernel))) (.var (Launch.sizeParam kernel))).run names).1.2

/-- The code of a kernel that fills an array, made when some names were taken. -/
def code (kernel : String) (length : Exp) (element : Exp → Fresh Stmt) (names : Nat) : Stmt :=
  .block [entry kernel length names,
    .when ((var (index names)).lt length) ((element (.var (index names))).run (names + 4)).1]

variable (length kernel names) in
theorem private_code (hnames : ∀ x, H.env.Known x → ¬Generated x) (hel : Element H dest n v element) :
    (code kernel length element names).Private H.env.Known :=
  .block (List.forall_mem_cons.mpr
    ⟨private_entry hnames _ _ _, List.forall_mem_singleton.mpr (.when (hel.isPrivate _ _))⟩)

/-- A condition on a variable is decided when the code runs. -/
theorem when_lt (x : Ident) (y : Exp) (body : Stmt) :
    Stmt.when ((var x).lt y) body = .branch (.compare .lt (var x) y) body .skip := rfl

theorem mentions_entry :
    (entry kernel length names).mentions = (entry kernel length names).declared.map (⟨·, .scalar⟩) := rfl

theorem index_mem_entry : index names ∈ (entry kernel length names).declared := List.mem_cons_self

/-- The code uses what it declares, variables of the host and arrays of the host. -/
theorem uses_code (hel : Element H dest n v element) (hlength : ∀ x ∈ length.occurrences, H.env.Known x) {m : Mention}
    (hm : m ∈ (code kernel length element names).mentions) : m.name ∈ (code kernel length element names).declared ∨
      m.role = .scalar ∧ H.env.Known m.name ∨ m.role = .memory ∧ m.name ∈ H.env.arrays := by
  have start : ∀ x ∈ (entry kernel length names).declared, x ∈ (code kernel length element names).declared :=
    fun x hx =>
    Stmt.mem_declared_block.mpr ⟨_, List.mem_cons_self, hx⟩
  rw [code, Stmt.mentions_block, List.flatMap_cons, List.flatMap_singleton, List.mem_append] at hm
  rcases hm with hm | hm
  · rw [mentions_entry] at hm
    obtain ⟨x, hx, rfl⟩ := List.mem_map.mp hm
    exact Or.inl (start x hx)
  · rw [when_lt, Stmt.mentions, Stmt.mentions, List.append_nil, List.mem_append] at hm
    rcases hm with hm | hm
    · obtain ⟨x, hx, rfl⟩ := List.mem_map.mp hm
      rcases List.mem_cons.mp hx with rfl | hx
      · exact Or.inl (start _ index_mem_entry)
      · exact Or.inr (Or.inl ⟨rfl, hlength x hx⟩)
    · rcases hel.uses _ _ m hm with hdeclared | ⟨hrole, hknown | hx⟩ | hmemory
      · refine Or.inl (Stmt.mem_declared_block.mpr ⟨_, List.mem_cons_of_mem _ (List.mem_singleton_self _), ?_⟩)
        exact Stmt.mem_declared_when (by rintro ⟨⟩) hdeclared
      · exact Or.inr (Or.inl ⟨hrole, hknown⟩)
      · exact Or.inl (List.mem_singleton.mp hx ▸ start _ index_mem_entry)
      · exact Or.inr (Or.inr hmemory)

variable (element kernel names) in
/-- The code uses the variables of the length. -/
theorem length_mem_mentions {x : Ident} (hx : x ∈ length.occurrences) :
    ⟨x, .scalar⟩ ∈ (code kernel length element names).mentions := by
  rw [code, Stmt.mentions_block, List.flatMap_cons, List.flatMap_singleton, List.mem_append]
  rw [when_lt, Stmt.mentions]
  refine Or.inr (List.mem_append_left _ ?_)
  exact (List.mem_append_left _ (List.mem_map_of_mem (List.mem_cons_of_mem _ hx)))

/-! ### The kernel -/

/-- A kernel that fills an array, with all that it needs from a host. -/
structure Runs (H : Surroundings) (kernel : String) (length : Exp) (element : Exp → Fresh Stmt) (k : Kernel) :
    Prop where
  codes : ∃ names, (code kernel length element names).Private H.env.Known ∧
    k.body = .block [(code kernel length element names).dropShared]
  numGroups : k.numGroups = length.divUp (.var (Launch.sizeParam kernel))
  groupSize : k.groupSize = .var (Launch.sizeParam kernel)
  captures : ∃ captured, k.captures.foldlM (Device.capture H.host H.memory) {} = .ok captured ∧
    k.body.Agrees captured (H.env.bindings H.host)

/-- The lowering of a fill adds a kernel, which captures the variables of the length, and its tuning parameter. -/
theorem runs_of_fill (hH : H.Complete) (henv : setting.env = H.env) (hnames : ∀ x, H.env.Known x → ¬Generated x)
    (hel : Element H dest n v element) (hlength : ∀ x ∈ length.occurrences, H.env.Known x)
    (h : fill kernel length element setting σ = .ok (u, σ')) :
    ∃ k, σ'.program.kernels = σ.program.kernels ++ [k] ∧ Runs H kernel length element k ∧
      (∃ t ∈ σ'.program.tuning, t.name = Launch.sizeParam kernel) ∧
      ∀ x ∈ length.occurrences, ∃ c ∈ k.captures, ∃ q, scalarCapture? H.env q x = some c := by
  simp only [fill, bind_eq_ok, read_eq_ok, lift_eq_ok] at h
  obtain ⟨s, σ₀, ⟨rfl, rfl⟩, r, _, ⟨hr, rfl⟩, _, σ₁, hparam, body, _, ⟨rfl, rfl⟩, h⟩ := h
  obtain ⟨rfl⟩ := hr
  obtain rfl := modify_eq_ok.mp hparam
  have hcode := private_code length kernel σ₀.names hnames hel
  -- Nothing that the kernel captures is declared in it, so it is the host's.
  have roles : ∀ {body : Stmt} {role : Role} {x : Ident}, (code kernel length element σ₀.names).hoist = .ok body →
      x ∈ (body.free.filter (·.role == role)).map (·.name) →
      role = .scalar ∧ H.env.Known x ∨ role = .memory ∧ x ∈ H.env.arrays := by
    intro body role x hbody hx
    have hm := (Stmt.mentions_hoist hbody).mem_iff.mp (Stmt.mentions_of_role hx)
    refine (uses_code hel hlength hm).resolve_left fun hdeclared => ?_
    exact name_not_declared hx ((Stmt.declared_hoist hbody).mem_iff.mpr hdeclared)
  have hscalar : ∀ {body : Stmt}, (code kernel length element σ₀.names).hoist = .ok body → ∀ x ∈ body.freeScalars,
    H.env.Known x :=
    fun hbody x hx => ((roles hbody hx).resolve_right fun hx => Role.noConfusion hx.1).2
  have hmemory : ∀ {body : Stmt}, (code kernel length element σ₀.names).hoist = .ok body → ∀ x ∈ body.freeMemory,
    x ∈ H.env.arrays :=
    fun hbody x hx => ((roles hbody hx).resolve_left fun hx => Role.noConfusion hx.1).2
  change emitKernel kernel _ _ (code kernel length element σ₀.names) _ _ = _ at h
  obtain ⟨k, hprogram, hcaptured, hhoist, hnum, hsize, hserved⟩ := Segmented.emitKernel_adds hH henv
    (fun _ hbody x hx => Or.inl (hscalar hbody x hx)) (fun _ hbody x hx => Or.inl (hmemory hbody x hx)) hcode.names h
  refine ⟨k, by rw [hprogram], ⟨⟨σ₀.names, hcode, (Except.ok.inj (hhoist.symm.trans hcode.hoist_eq))⟩, hnum, hsize, hserved⟩,
    ?_, fun x hx => ?_⟩
  · rw [hprogram]
    exact Grows.exists_mem_addTuning _ _
  · have hm := (Stmt.mentions_hoist hhoist).mem_iff.mpr (length_mem_mentions element kernel σ₀.names hx)
    have hdeclared : x ∉ k.body.declared :=
      fun h => hcode.names x ((Stmt.declared_hoist hhoist).mem_iff.mp h) (hlength x hx)
    rcases Stmt.free_of_mentions hm hdeclared with hfree | hfree
    · obtain ⟨c, hc, hfound⟩ := hcaptured x hfree
      exact ⟨c, hc, _, hfound⟩
    · exact absurd (hlength x hx) (hH.apart x (hmemory hhoist x hfree))

end Fill

/-! ## Launches

The launch of a kernel that fills an array. Thread `t` of group `g` makes the element of its global
index, if there is one, so all groups together make each element once. -/
open Exp

/-! ### Numbers by groups -/

/-- Of more numbers than there are, those below a bound. -/
theorem flatMap_range_lt {α : Type} (f : Nat → α) {n m : Nat} (h : n ≤ m) :
    (List.range m).flatMap (fun i => if i < n then [f i] else []) = (List.range n).map f := by
  obtain ⟨r, rfl⟩ := Nat.exists_eq_add_of_le h
  have below : (List.range n).flatMap (fun i => if i < n then [f i] else []) = (List.range n).map f := by
    rw [List.map_eq_flatMap]
    exact List.flatMap_congr fun i hi => if_pos (List.mem_range.mp hi)
  have above : ((List.range r).map (n + ·)).flatMap (fun i => if i < n then [f i] else []) = [] := by
    rw [List.flatMap_eq_nil_iff]
    intro i hi
    obtain ⟨j, -, rfl⟩ := List.mem_map.mp hi
    exact if_neg (Nat.not_lt.mpr (Nat.le_add_right n j))
  rw [List.range_add, List.flatMap_append, below, above, List.append_nil]

/-- The numbers of one more group. -/
theorem range_succ_mul (g G : Nat) :
    List.range ((g + 1) * G) = List.range (g * G) ++ (List.range G).map (g * G + ·) := by
  rw [Nat.succ_mul, List.range_add]

/-! ### The elements of an array -/

namespace Fill
variable {H : Surroundings} {dest : Ident} {type : ScalarType} {n : Nat} {v : Nat → Value} {element : Exp → Fresh Stmt}
  {d : Device} {length : Exp} {kernel : String} {k : Kernel} {P G g : Nat}

/-- The array when all its elements were written. -/
theorem global_puts_all (hlength : HasLength H dest type n) {out : List Write}
    (hout : out.Perm ((List.range n).map (write dest v))) :
    ((Store.ofGlobal H.memory).puts out).global = H.memory.insert dest (.ofValues type ((List.range n).map v)) := by
  obtain ⟨b, hb, hlayout⟩ := Option.map_eq_some_iff.mp hlength
  have hb : H.memory[dest]? = some b := hb
  obtain ⟨htype, hsize⟩ := Prod.mk.inj hlayout
  -- Different writes go to different elements.
  have same : ∀ w ∈ out, ∀ w' ∈ out, w.slot = w'.slot → w = w' := by
    intro w hw w' hw' hslot
    obtain ⟨i, -, rfl⟩ := List.mem_map.mp (hout.mem_iff.mp hw)
    obtain ⟨j, -, rfl⟩ := List.mem_map.mp (hout.mem_iff.mp hw')
    obtain rfl : i = j := congrArg Slot.position hslot
    rfl
  have elsewhere : ∀ p : Slot, ¬(p.space = .global ∧ p.array = dest ∧ p.position < n) → ∀ w ∈ out, w.slot ≠ p := by
    rintro p hp w hw rfl
    obtain ⟨i, hi, rfl⟩ := List.mem_map.mp (hout.mem_iff.mp hw)
    exact hp ⟨rfl, rfl, List.mem_range.mp hi⟩
  refine congrArg Store.global (Store.ext_bits?
    (m := .ofGlobal (H.memory.insert dest (.ofValues type ((List.range n).map v))))
    (fun space array => ?_) fun p => ?_)
  · rw [Store.layout?_puts]
    cases space with
    | shared | thread => rfl
    | global =>
      unfold Store.layout? Store.buffer? Store.ofGlobal
      dsimp only
      rw [Table.getElem?_insert]
      split
      · rename_i hdest
        rw [← hdest, hb, Option.map_some, Option.map_some, htype, hsize]
        simp [Buffer.ofValues]
      · rfl
  · obtain ⟨space, array, i⟩ := p
    by_cases hp : space = .global ∧ array = dest ∧ i < n
    · obtain ⟨rfl, rfl, hi⟩ := hp
      have hw : write array v i ∈ out := hout.mem_iff.mpr (List.mem_map.mpr ⟨i, List.mem_range.mpr hi, rfl⟩)
      have := Store.bits?_puts_of_mem (m := .ofGlobal H.memory) hw fun w' hw' => same w' hw' _ hw
      rw [show (⟨.global, array, i⟩ : Slot) = (write array v i).slot from rfl, this]
      unfold Store.bits? Store.buffer? Store.ofGlobal write
      dsimp only
      rw [hb, Table.getElem?_insert_self]
      simp [Buffer.ofValues, hsize, hi]
    · rw [Store.bits?_puts_of_forall_ne (elsewhere _ hp)]
      unfold Store.bits? Store.buffer? Store.ofGlobal
      cases space with
      | shared | thread => rfl
      | global =>
        dsimp only
        rw [Table.getElem?_insert]
        split
        · rename_i hdest
          have hi : ¬i < n := fun hi => hp ⟨rfl, hdest.symm, hi⟩
          rw [← hdest, hb]
          simp [Buffer.ofValues, hsize, hi]
        · rfl

/-! ### A group -/

/-- A group that fills an array: each thread may write the elements whose positions have its remainder. -/
def team (H : Surroundings) (d : Device) (dest : Ident) (P : Nat) {G : Nat} (hG : 0 < G) (g : Nat) : Team :=
  Segmented.groupOf H d P hG g (fun t p => p.space = .global ∧ p.array = dest ∧ p.position % G = t)
    fun t t' p _ _ h h' => by rw [← h.2.2, ← h'.2.2]

/-- The global index of a thread. -/
theorem isInt_globalId (hG : 0 < G) {names t : Nat} (hfits : Fits ((g * G + t : Nat) : Int)) :
    IsInt ((team H d dest P hG g).placed H.scope names t) (.var (index names)) ((g * G + t : Nat) : Int) := by
  refine .var_nat ?_ hfits
  simp only [Team.placed, Scope.set, numbered_inj, Run.answer]
  simp only [String.reduceEq, false_and, if_false, if_true]
  rw [Int64.ofNat_add, Int64.ofNat_mul]
  rfl

variable (kernel) in
/-- A group makes the elements of its threads, from a memory where these are as at the start. -/
theorem leads_code (hel : Element H dest n v element) (hnames : ∀ x, H.env.Known x → ¬Generated x) (hG : 0 < G)
    (hlength : IsInt H.scope length n) (hfits : Fits (((g + 1) * G : Nat) : Int)) {m : Store}
    (hlayout : ∀ space array, m.layout? space array = (Store.ofGlobal H.memory).layout? space array)
    (hbits : ∀ i, g * G ≤ i → ∀ array,
      m.bits? ⟨.global, array, i⟩ = (Store.ofGlobal H.memory).bits? ⟨.global, array, i⟩)
    (names : Nat) :
    (team H d dest P hG g).Leads (fun _ th => th = {}) m (code kernel length element names) (fun _ _ => True)
      ((team H d dest P hG g).Apiece fun t => if g * G + t < n then [write dest v (g * G + t)] else []) := by
  unfold code entry
  have start := Team.leads_start (G := team H d dest P hG g) (H := H) (m := m) (n := names) rfl
    (length.divUp (.var (Launch.sizeParam kernel))) (.var (Launch.sizeParam kernel))
  refine Team.leads_block.mpr (.after_silent start (Team.leadsAll_singleton.mpr (.apiece fun t ht th hth => ?_)))
  have ht : t < G := ht
  have unknown : ∀ x, Generated x → H.scope x = none := fun x hx => Surroundings.scope_eq_none fun h => hnames x h hx
  have before : H.scope.Before 0 := fun x hx => unknown x hx.generated
  let σ := (team H d dest P hG g).placed H.scope names t
  have hσbefore : σ.Before (names + 4) := ((((before.set (Nat.zero_le _) (Nat.lt_succ_self _)).set (Nat.le_succ _)
    (Nat.lt_succ_self _)).set (Nat.le_succ _) (Nat.lt_succ_self _)).set (Nat.le_succ _) (Nat.lt_succ_self _))
  have hσ : H.scope.Le σ := ((((Scope.Le.refl _).set_right (unknown _ ⟨_, by decide, _, rfl⟩)).set_right
    (unknown _ ⟨_, by decide, _, rfl⟩)).set_right (unknown _ ⟨_, by decide, _, rfl⟩)).set_right
      (unknown _ ⟨_, by decide, _, rfl⟩)
  have hindex : IsInt σ (.var (index names)) ((g * G + t : Nat) : Int) := by
    refine isInt_globalId hG ?_
    rw [Nat.succ_mul] at hfits
    unfold Fits at *
    omega
  refine Solo.ensures_when (IsBool.lt (hindex.mono hth) ((hlength.mono hσ).mono hth)) (fun hactive => ?_)
    fun hidle => ?_
  · have hi : g * G + t < n := by
      have := of_decide_eq_true hactive
      omega
    -- An element is its thread's own, so no other thread of the group can have written it.
    have finds : Finds H.memory dest (g * G + t) ((team H d dest P hG g).member m t) := by
      have hmod : (g * G + t) % G = t := by
        rw [Nat.mul_comm, Nat.mul_add_mod, Nat.mod_eq_of_lt ht]
      refine ⟨hlayout, hbits _ (Nat.le_add_right _ _), ⟨rfl, rfl, hmod⟩, fun array t' hne hown => hne ?_⟩
      rw [← hown.2.2, hmod]
      rfl
    rw [if_pos hi]
    exact (hel.ensures hi finds hσ hσbefore hindex hth).imp fun _ _ hout => ⟨trivial, hout⟩
  · have hi : ¬g * G + t < n := by
      have := of_decide_eq_false hidle
      omega
    rw [if_neg hi]
    exact ⟨trivial, rfl⟩

/-! ### The launch -/

/-- The launch writes each element once, in the group of its thread, and nothing else. -/
theorem runKernel_eq_ok (hk : Runs H kernel length element k) (hel : Element H dest n v element)
    (hnames : ∀ x, H.env.Known x → ¬Generated x) (hlength : IsInt H.scope length n) (hhost : IsInt H.host length n)
    (hsize : IsInt H.host (.var (Launch.sizeParam kernel)) G) (hG : 0 < G) (hfits : Fits ((n + G : Nat) : Int))
    (hdest : HasLength H dest type n) (stats : LaunchStats) :
    ∃ s', d.runKernel H.host k ⟨H.memory, stats⟩ = .ok () s' ∧
      (d.kernelWrites H.host k ⟨H.memory, stats⟩).Perm ((List.range n).map fun i => (i / G, write dest v i)) ∧
      s'.global = H.memory.insert dest (.ofValues type ((List.range n).map v)) := by
  obtain ⟨names, hprivate, hbody⟩ := hk.codes
  obtain ⟨captured, hcaptured, hagrees⟩ := hk.captures
  obtain ⟨P, hP⟩ : ∃ P, P = (n + G - 1) / G := ⟨_, rfl⟩
  have groups : IsInt H.host k.numGroups P := by
    rw [hk.numGroups, hP]
    exact hhost.divUp hsize hG (by exact_mod_cast hfits)
  have hroom : P * G ≤ n + G - 1 := hP ▸ Nat.div_mul_le_self _ _
  have henough : n ≤ P * G := by
    have := Nat.lt_mul_div_succ (n + G - 1) hG
    rw [← hP, Nat.mul_succ, Nat.mul_comm] at this
    omega
  have fitsG : Fits (G : Int) := hsize.fits
  have toG : (Int64.ofNat G).toInt = G := toInt_ofNat_of_fits fitsG
  have toP : (Int64.ofNat P).toInt = P := toInt_ofNat_of_fits groups.fits
  have hcontext : d.context H.host H.memory k = .ok { Segmented.contextOf H d P G 0 with captured } := by
    refine Device.context_eq_ok.mpr ⟨captured, Int64.ofNat P, Int64.ofNat G, hcaptured, ?_, ?_, by omega, by omega, rfl⟩
    · rw [evalInt, groups.eval_nat]
    · rw [hk.groupSize, evalInt, hsize.eval_nat]
  let turn : Nat → List (Nat × Write) := fun i => if i < n then [(i / G, write dest v i)] else []
  obtain ⟨s', hrun, hwrites, hglobal⟩ := Device.runKernel_of_groups stats hcontext toP
    (fun g past => past.Perm ((List.range (g * G)).flatMap turn)) (by simp) fun g hg past s hpast hs => by
      -- The groups before have written the elements before this group's first.
      have inside : ∀ w ∈ past.map (·.2), w.slot.position < g * G := by
        intro w hw
        obtain ⟨e, he, rfl⟩ := List.mem_map.mp hw
        obtain ⟨i, hi, he⟩ := List.mem_flatMap.mp (hpast.mem_iff.mp he)
        simp only [turn] at he
        split at he
        · obtain rfl := List.mem_singleton.mp he
          exact List.mem_range.mp hi
        · cases he
      have hglobals : ∀ w ∈ past.map (·.2), w.slot.space = .global := by
        intro w hw
        obtain ⟨e, he, rfl⟩ := List.mem_map.mp hw
        obtain ⟨i, hi, he⟩ := List.mem_flatMap.mp (hpast.mem_iff.mp he)
        simp only [turn] at he
        split at he
        · obtain rfl := List.mem_singleton.mp he
          rfl
        · cases he
      have hstore : Store.ofGlobal s.global = (Store.ofGlobal H.memory).puts (past.map (·.2)) := by
        rw [hs, Device.written, ← Store.puts_ofGlobal hglobals]
      have hgroup : (g + 1) * G ≤ P * G := Nat.mul_le_mul_right G hg
      have leads := leads_code kernel (d := d) (P := P) (g := g) hel hnames hG hlength (by unfold Fits at *; omega)
        (m := Store.ofGlobal s.global) (fun space array => by rw [hstore, Store.layout?_puts])
        (fun i hi array => by
          rw [hstore, Store.bits?_puts_of_forall_ne fun w hw e => ?_]
          have := inside w hw
          rw [e] at this
          exact absurd this (Nat.not_lt.mpr hi)) names
      obtain ⟨s', out, hrun, rfl, hout, hglobal⟩ :=
        Segmented.runGroup_of_leads rfl rfl rfl fitsG hprivate hbody hagrees leads
      refine ⟨s', hrun, ?_, ?_⟩
      · rw [range_succ_mul, List.flatMap_append]
        refine hpast.append ((hout.map _).trans (List.Perm.of_eq ?_))
        rw [List.map_flatMap, List.flatMap_map]
        refine List.flatMap_congr fun t ht => ?_
        have ht : t < G := List.mem_range.mp ht
        have hdiv : (g * G + t) / G = g := by
          rw [Nat.mul_comm, Nat.mul_add_div hG, Nat.div_eq_of_lt ht, Nat.add_zero]
        simp only [turn, hdiv]
        split <;> rfl
      · rw [hglobal, hstore, ← Store.puts_append, Device.written, List.map_append, List.map_map]
        simp [Function.comp_def]
        rfl
  rw [flatMap_range_lt (fun i => (i / G, write dest v i)) henough] at hwrites
  refine ⟨s', hrun, hwrites, hglobal.trans (global_puts_all hdest ?_)⟩
  have := hwrites.map (·.2)
  rwa [List.map_map] at this

end Fill
end SegKernel
