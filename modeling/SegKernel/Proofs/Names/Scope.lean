import SegKernel.Kernel.Fresh
import SegKernel.Proofs.Execution.Threads
import SegKernel.Seg.Basic

/-! New names. The number of a new name follows its last underscore, so a new name tells its stem and
    its number, and names of different stems or numbers differ. -/

namespace SegKernel

/-- The first place of an element parts a list in one way. -/
theorem append_cons_inj {α : Type} {a : α} :
    ∀ {xs ys zs ws : List α}, a ∉ xs → a ∉ ys → xs ++ a :: zs = ys ++ a :: ws → xs = ys ∧ zs = ws
  | [], [], _, _, _, _, h => ⟨rfl, (List.cons.inj h).2⟩
  | [], y :: ys, _, _, _, hy, h => absurd ((List.cons.inj h).1 ▸ List.mem_cons_self) hy
  | x :: xs, [], _, _, hx, _, h => absurd ((List.cons.inj h).1 ▸ List.mem_cons_self) hx
  | x :: xs, y :: ys, zs, ws, hx, hy, h => by
    obtain ⟨rfl, hrest⟩ := List.cons.inj h
    obtain ⟨rfl, hzs⟩ := append_cons_inj (fun m => hx (List.mem_cons_of_mem x m))
      (fun m => hy (List.mem_cons_of_mem x m)) hrest
    exact ⟨rfl, hzs⟩

theorem toList_numbered (stem : String) (n : Nat) :
    (numbered stem n).toList = stem.toList ++ '_' :: Nat.toDigits 10 n := by
  simp [numbered]

theorem numbered_inj {stem stem' : String} {n n' : Nat} :
    numbered stem n = numbered stem' n' ↔ stem = stem' ∧ n = n' := by
  constructor
  · intro h
    have hlist := congrArg (fun s : String => s.toList.reverse) h
    simp only [toList_numbered, List.reverse_append, List.reverse_cons, List.append_assoc, List.singleton_append]
      at hlist
    -- The digits hold no underscore, so the first one from the end parts them from the stem.
    have digits : ∀ k : Nat, '_' ∉ (Nat.toDigits 10 k).reverse := fun k h =>
      Nat.underscore_not_in_toDigits (List.mem_reverse.mp h)
    obtain ⟨hdigits, hstem⟩ := append_cons_inj (digits n) (digits n') hlist
    refine ⟨String.toList_inj.mp (List.reverse_inj.mp hstem), ?_⟩
    have := congrArg (Nat.ofDigitChars 10 · 0) (List.reverse_inj.mp hdigits)
    simpa only [Nat.ofDigitChars_ten_toDigits] using this
  · rintro ⟨rfl, rfl⟩
    rfl

/-! ### Stems -/

/-- The stems of the new names that all threads of a group give the same values. -/
def uniformStems : List String :=
  ["group_id", "wave_size", "phys_group_id", "iterations", "virt_group_id", "num_chunks", "chunk_i", "chunk_start",
    "chunk_size", "chunk_iters", "wave", "num_waves", "offset", "skip_waves", "skip_threads"]

/-- The stems of the new names of which each thread has its own value. -/
def ownStems : List String :=
  ["global_tid", "local_tid", "ltid_pre", "i", "lane", "x", "y", "v", "wave_id", "in_wave_id", "res", "block_id",
    "in_block_id", "ltid_in_bounds", "inactive", "own", "no_carry_in", "old", "old_bits", "run_loop", "continue",
    "released", "acc", "assumed", "j", "elem", "tile_i", "tile_flat", "total", "bin", "red_arr", "red_res",
    "elems_per_thread", "k", "partials_per_thread", "partial", "locks"]

/-- The stems of the names of the arrays that a program allocates. -/
def arrayStems : List String := ["segred_partials", "hist_locks", "group_scratch"]

/-- The stems of the names of kernels. -/
def kernelStems : List String :=
  ["segmap", "segmap_intragroup", "segred_stage1", "segred_stage2", "seghist", "replicate", "iota", "copy"]

/-- The form of the names that lowering takes. -/
def Generated (name : Ident) : Prop :=
  ∃ stem ∈ uniformStems ++ ownStems ++ arrayStems ++ kernelStems, ∃ n, name = numbered stem n

theorem not_generated {name : Ident} (h : '_' ∉ name.toList) : ¬Generated name := by
  rintro ⟨stem, -, n, rfl⟩
  rw [toList_numbered] at h
  simp at h

/-! ### What new names a computation takes -/

/-- Whatever names are taken from number `n` on, the result of a computation satisfies `P`. -/
def Fresh.From {α : Type} (n : Nat) (f : Fresh α) (P : α → Prop) : Prop :=
  ∀ m, n ≤ m → P (f.run m).1 ∧ m ≤ (f.run m).2

namespace Fresh.From
variable {α β : Type} {n : Nat} {f : Fresh α} {P : α → Prop}

theorem pure {a : α} (h : P a) : From n (Pure.pure a) P := fun _ _ => ⟨h, Nat.le_refl _⟩

theorem bind {g : α → Fresh β} {Q : β → Prop} (hf : From n f P) (hg : ∀ a, P a → From n (g a) Q) :
    From n (f >>= g) Q := by
  intro m hm
  obtain ⟨hP, hle⟩ := hf m hm
  obtain ⟨hQ, hle'⟩ := hg _ hP _ (Nat.le_trans hm hle)
  exact ⟨hQ, Nat.le_trans hle hle'⟩

theorem imp {Q : α → Prop} (hf : From n f P) (h : ∀ a, P a → Q a) : From n f Q := fun m hm =>
  ⟨h _ (hf m hm).1, (hf m hm).2⟩

theorem fresh (stem : String) : From n (SegKernel.fresh stem) fun x => ∃ k, n ≤ k ∧ x = numbered stem k :=
  fun m hm => ⟨⟨m, hm, rfl⟩, Nat.le_succ m⟩

/-- New names for the elements of a list. -/
theorem freshFor (stem : String) : ∀ as : List α,
    From n (SegKernel.freshFor stem as) fun names => ∀ x ∈ names, ∃ k, n ≤ k ∧ x = numbered stem k
  | [] => pure (by simp)
  | a :: as => by
    refine (fresh stem).bind fun x hx => ?_
    refine (freshFor stem as).bind fun xs hxs => ?_
    refine pure fun y hy => ?_
    rcases List.mem_cons.mp hy with rfl | hy
    · exact hx
    · exact hxs y hy

/-- The same computation for each element of a list. -/
theorem mapM {g : α → Fresh β} {Q : β → Prop} : ∀ {as : List α}, (∀ a ∈ as, From n (g a) Q) →
    From n (as.mapM g) fun bs => ∀ b ∈ bs, Q b
  | [], _ => by
    rw [List.mapM_nil]
    exact pure (by simp)
  | a :: as, h => by
    rw [List.mapM_cons]
    refine (h a List.mem_cons_self).bind fun b hb => ?_
    refine (mapM fun a' ha' => h a' (List.mem_cons_of_mem a ha')).bind fun bs hbs => ?_
    refine pure fun y hy => ?_
    rcases List.mem_cons.mp hy with rfl | hy
    · exact hb
    · exact hbs y hy

/-- What each step of a fold preserves holds of its result. -/
theorem foldlM {γ : Type} {g : β → γ → Fresh β} {Q : β → Prop} : ∀ {cs : List γ} {b : β}, Q b →
    (∀ c ∈ cs, ∀ b, Q b → From n (g b c) Q) → From n (cs.foldlM g b) Q
  | [], _, hb, _ => by
    rw [List.foldlM_nil]
    exact pure hb
  | c :: cs, b, hb, h => by
    rw [List.foldlM_cons]
    refine (h c List.mem_cons_self b hb).bind fun b' hb' => ?_
    exact foldlM hb' fun c' hc' => h c' (List.mem_cons_of_mem c hc')

end Fresh.From

/-! ## The scopes of a module

The scopes of a module. An operation binds its flat index, its indices and what the statements of its
body bind. Its extents and the operands of its operators are read around it, its statements and results
inside it. -/

namespace Operand

/-- The variable of an operand. -/
def vars : Operand → List Ident
  | const _ => []
  | var name => [name]

end Operand

/-! ### Names that are bound -/

def IterationSpace.names (s : IterationSpace) : List Ident := s.flat :: s.indices

def BodyStm.binds : BodyStm → List Ident
  | compute name .. | index name .. | arrayLit name .. => [name]
  | nested pattern _ => pattern.map (·.name)

/-- The names that an operation binds itself, without those of the operations in it. -/
def Segmented.names (op : SegOp) : List Ident := op.space.names ++ op.stms.flatMap BodyStm.binds

mutual

def BodyStm.innerNames : BodyStm → List Ident
  | .nested _ op => Segmented.allNames op
  | .index _ _ array _ => [array]
  | _ => []

/-- All names that an operation and the operations in it bind, and those of the arrays that they read. -/
def Segmented.allNames : SegOp → List Ident
  | ⟨_, _, space, stms, _, _⟩ => space.names ++ stms.flatMap BodyStm.binds ++ BodyStm.innerNamesAll stms

def BodyStm.innerNamesAll : List BodyStm → List Ident
  | [] => []
  | b :: bs => b.innerNames ++ BodyStm.innerNamesAll bs

end

/-- The names of a host: its scalars, constants and arrays, and the variables of their extents. -/
def HostEnv.HasName (env : HostEnv) (x : Ident) : Prop :=
  x ∈ env.scalars ∨ x ∈ env.constants ∨ x ∈ env.arrays ∨
    ∃ (array : Ident) (type : ScalarType) (shape : List Operand),
      env.arrays[array]? = some (type, shape) ∧ ∃ d ∈ shape, x ∈ d.vars

/-- A host whose only name is that of one array of known extents. -/
theorem HostEnv.eq_of_hasName {array : Ident} {type : ScalarType} {shape : List Operand}
    (hshape : shape.flatMap Operand.vars = []) {x : Ident}
    (h : HostEnv.HasName { arrays := ({} : Table (ScalarType × List Operand)).insert array (type, shape) } x) :
    x = array := by
  have found : ∀ y r, (({} : Table (ScalarType × List Operand)).insert array (type, shape))[y]? = some r →
      array = y ∧ (type, shape) = r := by
    intro y r hr
    have lookup : (({} : Table (ScalarType × List Operand)).insert array (type, shape))[y]? =
        if array = y then some (type, shape) else none := Table.getElem?_insert _ _ _ _
    rw [lookup] at hr
    split at hr
    · exact ⟨‹_›, Option.some.inj hr⟩
    · cases hr
  rcases h with h | h | h | ⟨y, type', shape', h, d, hd, hx⟩
  · simp at h
  · simp at h
  · exact (found x _ (Std.ExtTreeMap.getElem?_eq_some_getElem h)).1.symm
  · cases (found y _ h).2
    have : x ∈ shape.flatMap Operand.vars := List.mem_flatMap.mpr ⟨d, hd, hx⟩
    rw [hshape] at this
    cases this

/-- The variables that every operation may use. -/
def HostEnv.Known (env : HostEnv) (x : Ident) : Prop := x ∈ env.scalars ∨ x ∈ env.constants

/-- A module uses no name of the form of those that lowering takes. -/
def Module.AvoidsGenerated (m : Module) : Prop :=
  (∀ x, m.env.HasName x → ¬Generated x) ∧
    ∀ pattern op, HostOp.seg pattern op ∈ m.ops → ∀ x ∈ op.allNames, ¬Generated x

/-! ### Names that are used -/

def Split.vars : Split → List Ident
  | contiguous => []
  | strided stride => stride.vars

def BodyResult.vars : BodyResult → List Ident
  | returns value => value.vars
  | tile tiles _ => tiles.flatMap fun (extent, size) => extent.vars ++ size.vars
  | write shape writes =>
    shape.flatMap Operand.vars ++ writes.flatMap fun (indices, value) => indices.flatMap Operand.vars ++ value.vars
  | concat split perThread _ => split.vars ++ perThread.vars

def Combiner.vars (c : Combiner) : List Ident := c.neutral.flatMap Operand.vars ++ c.shape.flatMap Operand.vars

def Histogram.vars (h : Histogram) : List Ident :=
  h.width.vars ++ h.outerShape.flatMap Operand.vars ++ h.neutral.flatMap Operand.vars

/-- The variables of the operands of operators. -/
def SegKind.vars : SegKind → List Ident
  | map => []
  | scan ops | reduce ops => ops.flatMap Combiner.vars
  | histogram hs => hs.flatMap Histogram.vars

def SegKind.lambdas : SegKind → List Lambda
  | map => []
  | scan ops | reduce ops => ops.map (·.lambda)
  | histogram hs => hs.map (·.lambda)

def Grid.vars (g : Grid) : List Ident := g.numGroups.vars ++ g.groupSize.vars

def IterationSpace.vars (s : IterationSpace) : List Ident := s.dims.flatMap fun d => d.2.vars

/-- The scope with more names in it. -/
def scopeWith (names : List Ident) (scope : Ident → Prop) : Ident → Prop := fun x => x ∈ names ∨ scope x

mutual

/-- The variables of a statement are in scope, and an operation in it binds new names for its results. -/
def BodyStm.Scoped (scope : Ident → Prop) : BodyStm → Prop
  | .compute _ _ value => ∀ x ∈ value.occurrences, scope x
  | .index _ _ _ is => ∀ i ∈ is, ∀ x ∈ i.occurrences, scope x
  | .arrayLit _ _ elems => ∀ e ∈ elems, ∀ x ∈ e.vars, scope x
  | .nested pattern op =>
    (∀ p ∈ pattern, ¬scope p.name ∧ ∀ d ∈ p.shape, ∀ x ∈ d.vars, scope x) ∧ Segmented.Scoped scope op

/-- The variables of an operation are in scope where they stand. -/
def Segmented.Scoped (scope : Ident → Prop) : SegOp → Prop
  | ⟨kind, grid, space, stms, results, _⟩ =>
    (∀ x ∈ grid.vars ++ space.vars ++ kind.vars, scope x) ∧
      BodyStm.ScopedAll (scopeWith space.names scope) stms ∧
      (∀ r ∈ results, ∀ x ∈ r.vars, scopeWith (space.names ++ stms.flatMap BodyStm.binds) scope x) ∧
      ∀ l ∈ kind.lambdas, ∀ r ∈ l.results, ∀ x ∈ r.occurrences,
        x ∈ l.params.map (·.name) ∨ scopeWith (space.names ++ stms.flatMap BodyStm.binds) scope x

/-- Each statement is in the scope of those before it. -/
def BodyStm.ScopedAll (scope : Ident → Prop) : List BodyStm → Prop
  | [] => True
  | b :: bs => b.Scoped scope ∧ BodyStm.ScopedAll (scopeWith b.binds scope) bs

end

mutual

/-- Operations in a statement bind no name of `outer`. -/
def BodyStm.Apart (outer : Ident → Prop) : BodyStm → Prop
  | .nested _ op => Segmented.Apart outer op
  | _ => True

/-- An operation binds no name of `outer`, and those in it bind no name of `outer` or of it. -/
def Segmented.Apart (outer : Ident → Prop) : SegOp → Prop
  | ⟨_, _, space, stms, _, _⟩ =>
    (∀ x ∈ space.names ++ stms.flatMap BodyStm.binds, ¬outer x) ∧
      BodyStm.ApartAll (scopeWith (space.names ++ stms.flatMap BodyStm.binds) outer) stms

def BodyStm.ApartAll (outer : Ident → Prop) : List BodyStm → Prop
  | [] => True
  | b :: bs => b.Apart outer ∧ BodyStm.ApartAll outer bs

end

theorem Segmented.scoped_def {scope : Ident → Prop} (op : SegOp) :
    Segmented.Scoped scope op ↔ (∀ x ∈ op.grid.vars ++ op.space.vars ++ op.kind.vars, scope x) ∧
      BodyStm.ScopedAll (scopeWith op.space.names scope) op.stms ∧
      (∀ r ∈ op.results, ∀ x ∈ r.vars, scopeWith op.names scope x) ∧
      ∀ l ∈ op.kind.lambdas, ∀ r ∈ l.results, ∀ x ∈ r.occurrences,
        x ∈ l.params.map (·.name) ∨ scopeWith op.names scope x := by
  obtain ⟨kind, grid, space, stms, results, span⟩ := op
  rw [Segmented.Scoped]
  rfl

theorem Segmented.apart_def {outer : Ident → Prop} (op : SegOp) :
    Segmented.Apart outer op ↔ (∀ x ∈ op.names, ¬outer x) ∧ BodyStm.ApartAll (scopeWith op.names outer) op.stms := by
  obtain ⟨kind, grid, space, stms, results, span⟩ := op
  rw [Segmented.Apart]
  rfl

theorem BodyStm.apart_of_mem {outer : Ident → Prop} : ∀ {stms : List BodyStm}, BodyStm.ApartAll outer stms →
    ∀ stm ∈ stms, stm.Apart outer
  | b :: bs, h, stm, hstm => by
    rw [BodyStm.ApartAll] at h
    rcases List.mem_cons.mp hstm with rfl | hstm
    · exact h.1
    · exact apart_of_mem h.2 stm hstm

theorem Segmented.allNames_def (op : SegOp) : op.allNames = op.names ++ BodyStm.innerNamesAll op.stms := by
  obtain ⟨kind, grid, space, stms, results, span⟩ := op
  rw [Segmented.allNames]
  rfl

theorem BodyStm.mem_innerNamesAll {x : Ident} : ∀ {stms : List BodyStm},
    x ∈ BodyStm.innerNamesAll stms ↔ ∃ stm ∈ stms, x ∈ stm.innerNames
  | [] => by simp [BodyStm.innerNamesAll]
  | b :: bs => by
    rw [BodyStm.innerNamesAll, List.mem_append, mem_innerNamesAll]
    simp

/-- All bodies of a module are well-scoped, and a nested operation binds no name of the host or of an
    operation around it. -/
def Module.WellScoped (m : Module) : Prop :=
  ∀ pattern op, HostOp.seg pattern op ∈ m.ops →
    op.Scoped m.env.Known ∧ BodyStm.ApartAll (scopeWith op.names m.env.HasName) op.stms

end SegKernel
