import SegKernel.Kernel.Names
import SegKernel.Proofs.Execution.Composing
import SegKernel.Proofs.Execution.Stores

/-! Memories that differ in stale elements. Some elements of global arrays hold what an earlier run has
    left in them; an element is not stale any more once it is written in both memories. -/

namespace SegKernel

/-- Elements of global arrays. -/
abbrev Elements := Ident → Nat → Prop

/-- All elements lie in arrays of `W`. -/
def Elements.Of (D : Elements) (W : Ident → Prop) : Prop := ∀ a i, D a i → W a

/-- The elements that an array has are told by its layout. -/
theorem Store.isSome_bits? (m : Store) (p : Slot) :
    (m.bits? p).isSome = (m.layout? p.space p.array).any fun l => p.position < l.2 := by
  unfold bits? layout?
  cases m.buffer? p.space p.array with
  | none => rfl
  | some b => by_cases h : p.position < b.bits.size <;> simp [h]

/-- The memories have the same arrays, which hold the same bits outside of `D`. -/
structure Memory.Differs (D : Elements) (m m' : Memory) : Prop where
  layout : ∀ a, (Store.ofGlobal m').layout? .global a = (Store.ofGlobal m).layout? .global a
  bits : ∀ a i, ¬D a i → (Store.ofGlobal m').bits? ⟨.global, a, i⟩ = (Store.ofGlobal m).bits? ⟨.global, a, i⟩

namespace Memory.Differs
variable {D D' : Elements} {m m' m'' : Memory} {a : Ident}

theorem refl (D : Elements) (m : Memory) : Differs D m m := ⟨fun _ => rfl, fun _ _ _ => rfl⟩

theorem symm (h : Differs D m m') : Differs D m' m :=
  ⟨fun a => (h.layout a).symm, fun a i hi => (h.bits a i hi).symm⟩

theorem trans (h : Differs D m m') (h' : Differs D m' m'') : Differs D m m'' :=
  ⟨fun a => (h'.layout a).trans (h.layout a), fun a i hi => (h'.bits a i hi).trans (h.bits a i hi)⟩

theorem mono (h : Differs D m m') (hle : ∀ a i, D a i → D' a i) : Differs D' m m' :=
  ⟨h.layout, fun a i hi => h.bits a i fun hd => hi (hle a i hd)⟩

/-- An array without stale elements is the same in both memories. -/
theorem buffer (h : Differs D m m') (hD : ∀ i, ¬D a i) : m'[a]? = m[a]? :=
  Store.buffer?_eq (h.layout a) fun i => h.bits a i (hD i)

/-- Memories without stale elements are equal. -/
theorem eq (h : Differs D m m') (hD : ∀ a i, ¬D a i) : m' = m :=
  Std.ExtTreeMap.ext_getElem? fun a => h.buffer (hD a)

theorem contains (h : Differs D m m') (a : Ident) : m'.contains a = m.contains a := by
  have hlayout := congrArg Option.isSome (h.layout a)
  change (m'[a]?.map _).isSome = (m[a]?.map _).isSome at hlayout
  rw [Option.isSome_map, Option.isSome_map] at hlayout
  rw [Std.ExtTreeMap.contains_eq_isSome_getElem?, Std.ExtTreeMap.contains_eq_isSome_getElem?, hlayout]

/-- An access addresses the same position in both memories. -/
theorem position (h : Differs D m m') (view : View) (index : Int64) :
    (Store.ofGlobal m').position view index = (Store.ofGlobal m).position view index := by
  refine Store.position_of_layout?_eq (fun space array => ?_) view index
  cases space with
  | global => exact h.layout array
  | shared => rfl
  | thread => rfl

/-- What is written to both memories is no longer stale. -/
theorem put (h : Differs D m m') (a : Ident) (i : Nat) (bits : UInt64) :
    Differs (fun n j => D n j ∧ ¬(n = a ∧ j = i)) (m.modify a (·.put i bits)) (m'.modify a (·.put i bits)) := by
  have written : ∀ m : Memory, Store.ofGlobal (m.modify a (·.put i bits)) =
    (Store.ofGlobal m).put ⟨⟨.global, a, i⟩, bits⟩ := fun _ => rfl
  refine ⟨fun n => ?_, fun n j hj => ?_⟩
  · rw [written, written, Store.layout?_put, Store.layout?_put, h.layout]
  · rw [written, written, Store.bits?_put, Store.bits?_put]
    by_cases e : n = a ∧ j = i
    · obtain ⟨rfl, rfl⟩ := e
      have hsome : ((Store.ofGlobal m').bits? ⟨.global, n, j⟩).isSome =
        ((Store.ofGlobal m).bits? ⟨.global, n, j⟩).isSome := by
        rw [Store.isSome_bits?, Store.isSome_bits?, h.layout]
      rw [if_pos rfl, if_pos rfl]
      cases hb : (Store.ofGlobal m).bits? ⟨.global, n, j⟩ with
      | none =>
        rw [hb] at hsome
        rw [Option.isSome_eq_false_iff.mp hsome |> Option.isNone_iff_eq_none.mp]
      | some _ =>
        rw [hb] at hsome
        obtain ⟨_, hb'⟩ := Option.isSome_iff_exists.mp hsome
        rw [hb']
        rfl
    · have ne : (⟨.global, a, i⟩ : Slot) ≠ ⟨.global, n, j⟩ := fun e' => e ⟨(congrArg Slot.array e').symm,
        (congrArg Slot.position e').symm⟩
      rw [if_neg ne, if_neg ne]
      exact h.bits n j fun hd => hj ⟨hd, e⟩

theorem of_put (m : Memory) (a : Ident) (i : Nat) (bits : UInt64) :
    Differs (fun n j => n = a ∧ j = i) m (m.modify a (·.put i bits)) := by
  have written : Store.ofGlobal (m.modify a (·.put i bits)) =
    (Store.ofGlobal m).put ⟨⟨.global, a, i⟩, bits⟩ := rfl
  refine ⟨fun n => ?_, fun n j hj => ?_⟩
  · rw [written, Store.layout?_put]
  · rw [written, Store.bits?_put, if_neg]
    exact fun e => hj ⟨(congrArg Slot.array e).symm, (congrArg Slot.position e).symm⟩

end Memory.Differs

/-! ## Two runs

Two runs of the same code, of which the second one starts from a memory with stale elements. If the code
reads no array that it writes, the second run goes as the first one does, and both write the same
elements. -/
namespace Stmt

/-- The array of a view, if it is a global one. -/
def globalOf (view : View) : List Ident := if view.space = .global then [view.array] else []

mutual

/-- The global arrays that code reads, in textual order. -/
def globalReads : Stmt → List Ident
  | read _ view _ | update _ _ view _ _ | compareSwap _ view _ _ _ => globalOf view
  | seq stmts => globalReadsAll stmts
  | comment _ body | loop _ _ body | repeatWhile _ body => body.globalReads
  | branch _ ifTrue ifFalse => ifTrue.globalReads ++ ifFalse.globalReads
  | skip | declare .. | declareArray .. | set .. | write .. | query .. | barrier _ | memFence _ => []

def globalReadsAll : List Stmt → List Ident
  | [] => []
  | s :: ss => s.globalReads ++ globalReadsAll ss

end

mutual

/-- The global arrays that code writes, in textual order. -/
def globalWrites : Stmt → List Ident
  | write view _ _ | update _ _ view _ _ | compareSwap _ view _ _ _ => globalOf view
  | seq stmts => globalWritesAll stmts
  | comment _ body | loop _ _ body | repeatWhile _ body => body.globalWrites
  | branch _ ifTrue ifFalse => ifTrue.globalWrites ++ ifFalse.globalWrites
  | skip | declare .. | declareArray .. | set .. | read .. | query .. | barrier _ | memFence _ => []

def globalWritesAll : List Stmt → List Ident
  | [] => []
  | s :: ss => s.globalWrites ++ globalWritesAll ss

end

/-- The code has no atomic operation, writes arrays of `W`, and reads no array of `W`. -/
structure Forgetful (W : Ident → Prop) (stmt : Stmt) : Prop where
  plain : stmt.usesAtomics = false
  writes : ∀ a ∈ stmt.globalWrites, W a
  reads : ∀ a ∈ stmt.globalReads, ¬W a

mutual

theorem mem_globalReads {view : View} (hs : view.space = .global) : ∀ {stmt : Stmt}, view ∈ stmt.loads →
    view.array ∈ stmt.globalReads
  | .read .., h | .update .., h | .compareSwap .., h => by
    rw [loads, List.mem_singleton] at h
    rw [globalReads, globalOf, ← h, if_pos hs, List.mem_singleton]
  | .seq _, h => by
    rw [loads] at h
    rw [globalReads]
    exact mem_globalReadsAll hs h
  | .comment .., h | .loop .., h | .repeatWhile .., h => by
    rw [loads] at h
    rw [globalReads]
    exact mem_globalReads hs h
  | .branch .., h => by
    rw [loads, List.mem_append] at h
    rw [globalReads, List.mem_append]
    exact h.imp (mem_globalReads hs) (mem_globalReads hs)
  | .skip, h | .declare .., h | .declareArray .., h | .set .., h | .write .., h | .query .., h | .barrier _, h
  | .memFence _, h => by
    rw [loads] at h
    cases h

theorem mem_globalReadsAll {view : View} (hs : view.space = .global) : ∀ {stmts : List Stmt}, view ∈ loadsAll stmts →
    view.array ∈ globalReadsAll stmts
  | [], h => by
    rw [loadsAll] at h
    cases h
  | _ :: _, h => by
    rw [loadsAll, List.mem_append] at h
    rw [globalReadsAll, List.mem_append]
    exact h.imp (mem_globalReads hs) (mem_globalReadsAll hs)

end

mutual

theorem mem_globalWrites {view : View} (hs : view.space = .global) : ∀ {stmt : Stmt}, view ∈ stmt.stores →
    view.array ∈ stmt.globalWrites
  | .write .., h | .update .., h | .compareSwap .., h => by
    rw [stores, List.mem_singleton] at h
    rw [globalWrites, globalOf, ← h, if_pos hs, List.mem_singleton]
  | .seq _, h => by
    rw [stores] at h
    rw [globalWrites]
    exact mem_globalWritesAll hs h
  | .comment .., h | .loop .., h | .repeatWhile .., h => by
    rw [stores] at h
    rw [globalWrites]
    exact mem_globalWrites hs h
  | .branch .., h => by
    rw [stores, List.mem_append] at h
    rw [globalWrites, List.mem_append]
    exact h.imp (mem_globalWrites hs) (mem_globalWrites hs)
  | .skip, h | .declare .., h | .declareArray .., h | .set .., h | .read .., h | .query .., h | .barrier _, h
  | .memFence _, h => by
    rw [stores] at h
    cases h

theorem mem_globalWritesAll {view : View} (hs : view.space = .global) : ∀ {stmts : List Stmt}, view ∈ storesAll stmts →
    view.array ∈ globalWritesAll stmts
  | [], h => by
    rw [storesAll] at h
    cases h
  | _ :: _, h => by
    rw [storesAll, List.mem_append] at h
    rw [globalWritesAll, List.mem_append]
    exact h.imp (mem_globalWrites hs) (mem_globalWritesAll hs)

end

end Stmt

/-- The second state is the first one with stale elements in its memory. What is counted does not matter. -/
structure GroupState.Beside (D : Elements) (a b : GroupState) : Prop where
  threads : b.threads = a.threads
  shared : b.shared = a.shared
  races : b.races = a.races
  global : a.global.Differs D b.global

namespace GroupState.Beside
variable {D D' : Elements} {a b : GroupState}

theorem mono (h : Beside D a b) (hle : ∀ n i, D n i → D' n i) : Beside D' a b :=
  ⟨h.threads, h.shared, h.races, h.global.mono hle⟩

theorem scope (h : Beside D a b) (ctx : GroupContext) (t : Nat) : b.scope ctx t = a.scope ctx t :=
  scope_of_threads ctx h.threads t

theorem modifyThread (h : Beside D a b) (t : Nat) (f : Thread → Thread) :
    Beside D (a.modifyThread t f) (b.modifyThread t f) :=
  ⟨congrArg (·.modify t f) h.threads, h.shared, h.races, h.global⟩

/-- Both states find the same element in an array without stale ones. -/
theorem element (h : Beside D a b) {view : View} (hview : view.space = .global → ∀ i, ¬D view.array i) (t : Nat)
    (index : Int64) : Run.element b t view index = Run.element a t view index := by
  have hbuffer : b.buffer? t view = a.buffer? t view := by
    unfold buffer?
    cases hs : view.space with
    | global => exact h.global.buffer (hview hs)
    | shared => exact congrArg (·[view.array]?) h.shared
    | thread => exact congrArg (fun ths : Array Thread => (ths.getD t {}).arrays[view.array]?) h.threads
  unfold Run.element
  rw [hbuffer]

/-- Both states accept a value at the same position. -/
theorem storable (h : Beside D a b) (t : Nat) (view : View) (index : Int64) (v : Value) :
    Run.storable b t view index v = Run.storable a t view index v := by
  unfold Run.storable
  split
  · rfl
  · unfold buffer?
    cases hs : view.space with
    | global =>
      have hposition := h.global.position view index
      unfold Store.position at hposition
      rw [hs] at hposition
      exact hposition
    | shared => rw [h.shared]
    | thread => rw [h.threads]

end GroupState.Beside

namespace Run
open GroupState
variable {α β : Type} {W : Ident → Prop}

/-- A run writes the same elements whatever the stale ones are, and ends with the same result. The elements
    that it writes are not stale afterwards, and no others have changed. -/
def Echoes (W : Ident → Prop) (r : Run α) : Prop :=
  ∀ a x a', r a = .ok x a' → ∃ U : Elements, U.Of W ∧ ∀ (D : Elements) b, D.Of W → Beside D a b →
    ∃ b', r b = .ok x b' ∧ Beside (fun n i => D n i ∧ ¬U n i) a' b' ∧ b.global.Differs U b'.global

namespace Echoes

/-- A run that writes nothing. -/
theorem of_silent {r : Run α} (h : ∀ a x a', r a = .ok x a' → ∀ (D : Elements) b, D.Of W → Beside D a b →
    ∃ b', r b = .ok x b' ∧ Beside D a' b' ∧ b'.global = b.global) : Echoes W r := by
  intro a x a' hrun
  refine ⟨fun _ _ => False, fun _ _ => False.elim, fun D b hD hab => ?_⟩
  obtain ⟨b', hb', hab', hglobal⟩ := h a x a' hrun D b hD hab
  exact ⟨b', hb', hab'.mono fun _ _ hd => ⟨hd, not_false⟩, hglobal ▸ .refl _ _⟩

theorem pure (x : α) : Echoes W (pure x : Run α) := of_silent fun a y a' hrun D b _ hab => by
  obtain ⟨rfl, rfl⟩ := pure_eq_ok.mp hrun
  exact ⟨b, rfl, hab, rfl⟩

theorem throw (fault : Fault) : Echoes W (throw fault : Run α) := fun _ _ _ hrun => (throw_ne_ok.mp hrun).elim

theorem bind {r : Run α} {q : α → Run β} (h : Echoes W r) (h' : ∀ x, Echoes W (q x)) : Echoes W (r >>= q) := by
  intro a y a'' hrun
  obtain ⟨x, a', hr, hq⟩ := bind_eq_ok.mp hrun
  obtain ⟨U, hU, hfirst⟩ := h a x a' hr
  obtain ⟨U', hU', hsecond⟩ := h' x a' y a'' hq
  refine ⟨fun n i => U n i ∨ U' n i, fun n i hn => hn.elim (hU n i) (hU' n i), fun D b hD hab => ?_⟩
  obtain ⟨b', hb', hab', hframe⟩ := hfirst D b hD hab
  obtain ⟨b'', hb'', hab'', hframe'⟩ := hsecond _ b' (fun n i hd => hD n i hd.1) hab'
  refine ⟨b'', bind_eq_ok.mpr ⟨x, b', hb', hb''⟩, hab''.mono fun n i hd => ⟨hd.1.1, ?_⟩, ?_⟩
  · exact fun hu => hu.elim hd.1.2 hd.2
  · exact (hframe.mono fun _ _ => Or.inl).trans (hframe'.mono fun _ _ => Or.inr)

theorem evaluate {f : GroupState → Except Fault α} (h : ∀ (D : Elements) a b, D.Of W → Beside D a b → f b = f a) :
    Echoes W (evaluate f) := of_silent fun a x a' hrun D b hD hab => by
  obtain ⟨hx, rfl⟩ := evaluate_eq_ok.mp hrun
  exact ⟨b, evaluate_eq_ok.mpr ⟨(h D a' b hD hab).trans hx, rfl⟩, hab, rfl⟩

theorem change {f : GroupState → GroupState} (h : ∀ (D : Elements) a b, Beside D a b → Beside D (f a) (f b))
    (hglobal : ∀ b, (f b).global = b.global) : Echoes W (modify f) := of_silent fun a x a' hrun D b _ hab => by
  obtain rfl := modify_eq_ok.mp hrun
  exact ⟨f b, rfl, h D a b hab, hglobal b⟩

theorem composable : Composable (Echoes W) := ⟨pure, throw _, bind⟩

/-! ### Steps of a thread -/

variable (ctx : GroupContext) (t : Nat)

theorem value (x : Exp) : Echoes W (value ctx t x) := evaluate fun _ _ _ _ h => by rw [h.scope]

theorem int (x : Exp) : Echoes W (int ctx t x) := evaluate fun _ _ _ _ h => by rw [h.scope]

theorem condition (x : Exp) : Echoes W (condition ctx t x) := evaluate fun _ _ _ _ h => by rw [h.scope]

theorem bindScalar (name : Ident) (v : Value) : Echoes W (modify fun s => s.bind t name v : Run Unit) :=
  change (fun _ _ _ h => h.modifyThread t _) fun _ => rfl

theorem assign (name : Ident) (v : Value) : Echoes W (assign t name v) := by
  refine bind (evaluate fun D a b _ h => ?_) fun _ => bindScalar t name v
  unfold assignable
  rw [h.threads]

theorem load {view : View} (hview : view.space = .global → ¬W view.array) (index : Int64) :
    Echoes W (load t view index) :=
  evaluate fun _ _ _ hD h => h.element (fun hs i hd => hview hs (hD _ i hd)) t index

theorem track (view : View) (index : Int64) (isWrite : Bool) : Echoes W (track ctx t view index isWrite) := by
  refine of_silent fun a x a' hrun D b _ hab => ?_
  unfold Run.track at *
  rw [hab.races]
  split at hrun
  · rename_i hc
    rw [if_pos hc]
    dsimp only at *
    split at hrun
    · cases hrun
      exact ⟨_, rfl, ⟨hab.threads, hab.shared, rfl, hab.global⟩, rfl⟩
    · cases hrun
  · rename_i hc
    rw [if_neg hc]
    cases hrun
    exact ⟨b, rfl, hab, rfl⟩

theorem store {view : View} (hview : view.space = .global → W view.array) (index : Int64) (v : Value) :
    Echoes W (store t view index v) := by
  unfold Run.store
  refine (evaluate fun D a b _ h => h.storable t view index v).bind fun p => ?_
  -- Only an element of an array of the host is stale before and fresh after.
  cases hs : view.space with
  | global =>
    intro a x a' hrun
    obtain rfl := modify_eq_ok.mp hrun
    refine ⟨fun n i => n = view.array ∧ i = p, fun n i hn => hn.1 ▸ hview hs, fun D b _ hab => ⟨_, rfl, ?_, ?_⟩⟩
    · unfold modifyBuffer
      rw [hs]
      exact ⟨hab.threads, hab.shared, hab.races, hab.global.put view.array p v.toBits⟩
    · unfold modifyBuffer
      rw [hs]
      exact .of_put b.global view.array p v.toBits
  | shared =>
    refine change (fun D a b h => ?_) fun b => ?_
    · unfold modifyBuffer
      rw [hs]
      exact ⟨h.threads, congrArg (Std.ExtTreeMap.modify · view.array _) h.shared, h.races, h.global⟩
    · unfold modifyBuffer
      rw [hs]
  | thread =>
    refine change (fun D a b h => ?_) fun b => ?_
    · unfold modifyBuffer
      rw [hs]
      exact h.modifyThread t _
    · unfold modifyBuffer
      rw [hs]
      rfl

theorem declareArray (name : Ident) (type : ScalarType) (length : Exp) (space : Space) :
    Echoes W (declareArray ctx t name type length space) := by
  refine (int ctx t length).bind fun i => (evaluate fun _ _ _ _ _ => rfl).bind fun n => ?_
  cases space with
  | shared =>
    refine change (fun D a b h => ?_) fun b => ?_
    · unfold declareShared
      rw [h.shared]
      split
      · exact h
      · exact ⟨h.threads, rfl, h.races, h.global⟩
    · unfold declareShared
      split <;> rfl
  | thread => exact change (fun _ _ _ h => h.modifyThread t _) fun _ => rfl
  | global => exact throw _

theorem steps : Composable.AllSteps (Echoes W) ctx (fun view => view.space = .global → ¬W view.array)
    fun view => view.space = .global → W view.array where
  toComposable := composable
  mismatch _ := throw _
  value := value ctx
  int := int ctx
  condition := condition ctx
  combine _ _ _ := evaluate fun _ _ _ _ _ => rfl
  bindScalar := bindScalar
  assign := assign
  declareArray := declareArray ctx
  load t _ hview := load t hview
  store t _ hview := store t hview
  track := track ctx
  countBarrier :=
    change (fun _ _ _ h => ⟨h.threads, h.shared, congrArg RaceLog.nextEpoch h.races, h.global⟩) fun _ => rfl
  countAtomic := change (fun _ _ _ h => ⟨h.threads, h.shared, h.races, h.global⟩) fun _ => rfl

end Echoes

/-- Code that reads no array that it writes takes no notice of what is stale in these arrays. -/
theorem exec_echoes (ctx : GroupContext) (stmt : Stmt) (hstmt : stmt.Forgetful W) (active : List Nat) :
    Echoes W (exec ctx stmt active) :=
  (Echoes.steps ctx).exec stmt
    (fun _ hview hs => hstmt.reads _ (Stmt.mem_globalReads hs hview))
    (fun _ hview hs => hstmt.writes _ (Stmt.mem_globalWrites hs hview)) active

end Run
end SegKernel
