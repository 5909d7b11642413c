import SegKernel.Proofs.Collectives.Registers
import SegKernel.Proofs.Convergence.Kernels
import SegKernel.Proofs.Coverage.Spaces

/-! What a kernel computes in advance for the spaces inside, and what it is good for: a group covers a space in
    the same way with it and without it. -/

namespace SegKernel
open Exp Run

/-- The names of `U` and those taken when between `n` and `m` names were taken. -/
def Common.taken (U : Common) (n m : Nat) : Common :=
  ⟨fun x => U x ∨ Taken n m x, U.array, fun x h => .inl (U.scalar_of_array x h)⟩

theorem Common.le_taken (U : Common) (n m : Nat) : U ≤ U.taken n m := ⟨fun _ => .inl, fun _ => id⟩

/-- Variables of different names have the values that they have got. -/
theorem Scope.sees_sets {σ : Scope} : ∀ {names : List Ident} {vs : List Value}, names.Nodup → names.length = vs.length →
    (σ.sets (names.zip vs)).Sees names vs
  | [], [], _, _ => .nil
  | x :: names, v :: vs, hnodup, hlength => by
    obtain ⟨hx, hnodup⟩ := List.nodup_cons.mp hnodup
    refine .cons ?_ (sees_sets hnodup (Nat.succ.inj hlength))
    have hlater : ∀ e ∈ names.zip vs, e.1 ≠ x := fun e he h => hx (h ▸ (List.of_mem_zip he).1)
    exact (sets_of_not_mem hlater).trans set_self

/-- Whatever was bound before, the names of a point are bound to its position and its coordinates. -/
theorem IterationSpace.Named.sees_point {s : IterationSpace} {U : Common} (h : s.Named U) {ds : List Nat}
    (hlength : s.indices.length = ds.length) (th : Thread) (captured : Table Value) (entries : List (Ident × Value))
    (f : Nat) :
    ((th.bindAll (entries ++ s.point ds f)).scope captured).Sees s.names (indexValues (f :: coords ds f)) := by
  rw [Thread.scope_bindAll, Scope.sets, List.foldl_append]
  have hvalues : s.names.length = (indexValues (f :: coords ds f)).length := by
    rw [names, indexValues, List.length_cons, List.length_map, List.length_cons, length_coords, hlength]
  exact Scope.sees_sets h.nodup hvalues

namespace Launch
variable {l : Launch} {ctx : GroupContext} {U V : Common} {order : List Nat} {G n m : Nat} {a b : GroupState}

namespace Ahead

theorem keeps (h : l.Ahead ctx U order G a) (hkeeps : Keeps U a b) : l.Ahead ctx U order G b where
  ids p hp := by
    obtain ⟨hshape, hover, hknown⟩ := h.ids p hp
    refine ⟨hshape, hover, fun t ht ds hds => hkeeps.isInts hover (hknown t ht ds ?_)⟩
    exact hkeeps.symm.isInts hshape hds
  counts p hp := by
    obtain ⟨hshape, hover, hknown⟩ := h.counts p hp
    refine ⟨hshape, hover, fun t ht ds hds => hkeeps.isInt hover (hknown t ht ds ?_)⟩
    exact hkeeps.symm.isInts hshape hds

theorem mono (h : l.Ahead ctx U order G a) (hV : ∀ x, U x → V x) : l.Ahead ctx V order G a where
  ids p hp := by
    obtain ⟨hshape, hover, hknown⟩ := h.ids p hp
    exact ⟨fun x hx y hy => hV y (hshape x hx y hy), fun x hx y hy => hV y (hover x hx y hy), hknown⟩
  counts p hp := by
    obtain ⟨hshape, hover, hknown⟩ := h.counts p hp
    exact ⟨fun x hx y hy => hV y (hshape x hx y hy), fun y hy => hV y (hover y hy), hknown⟩

end Ahead

/-- A launch that knows its sizes as another one, after code that all threads run to its end. What it knows in
    advance has names taken since `n`. -/
structure Prepares (l : Launch) (ctx : GroupContext) (U : Common) (order : List Nat) (G n : Nat) (a : GroupState)
    (m : Nat) (found : Launch × List Stmt) : Prop where
  localId : found.1.localId = l.localId
  groupSize : found.1.groupSize = l.groupSize
  runs : ∃ b, execAll ctx found.2 order a = .ok () b ∧ Keeps U a b ∧ found.1.Ahead ctx (U.taken n m) order G b

theorem not_taken (hnew : ∀ x, New n x → ¬U x) (hm : n ≤ m) {x : Ident} (hx : New m x) : ¬U.taken n m x := by
  rintro (h | h)
  · exact hnew x (hx.mono hm) h
  · obtain ⟨stem, -, k, hk, rfl⟩ := hx
    exact h.ne_numbered hk rfl

section Steps
variable {env : HostEnv} {s : IterationSpace} {ds : List Nat} {known : Launch} {code : List Stmt} (hnd : order.Nodup)
  (hmem : ∀ t ∈ order, t < G) (hsize : ∀ t ∈ order, t < a.threads.size) (hl : l.Numbers ctx U order G a)
  (hnew : ∀ x, New n x → ¬U x) (hm : n ≤ m)

namespace Prepares
variable (hfound : l.Prepares ctx U order G n a m (known, code)) (hs : s.Measured ctx U order ds a)
  (hfits : SegKernel.Fits ((ds.prod + G : Nat) : Int))

include hnew hm hfound in
/-- One more statement, which binds new names in all threads. What is known before is known after it, too. -/
theorem extend {k : Nat} (hk : m ≤ k) {next : Launch} {stmt : Stmt} (entries : Nat → List (Ident × Value))
    (hlocalId : next.localId = known.localId) (hgroupSize : next.groupSize = known.groupSize)
    (hentries : ∀ t, ∀ e ∈ entries t, New m e.1)
    (hrun : ∀ b, Keeps U a b → exec ctx stmt order b = .ok () (b.bindAll order entries))
    (hnext : ∀ b, Keeps U a b → Keeps U a (b.bindAll order entries) →
      known.Ahead ctx (U.taken n k) order G (b.bindAll order entries) →
        next.Ahead ctx (U.taken n k) order G (b.bindAll order entries)) :
    l.Prepares ctx U order G n a k (next, code ++ [stmt]) := by
  obtain ⟨b, hcode, hab, hahead⟩ := hfound.runs
  have hbefore : Keeps (U.taken n m) b (b.bindAll order entries) :=
    Keeps.bindAll fun t _ e he => not_taken hnew hm (hentries t e he)
  have hafter : Keeps U a (b.bindAll order entries) := hab.trans (hbefore.mono (U.le_taken n m))
  have hlater : ∀ x, U.taken n m x → U.taken n k x := fun x => Or.imp_right fun h => h.mono (Nat.le_refl n) hk
  refine ⟨hlocalId.trans hfound.localId, hgroupSize.trans hfound.groupSize, _, ?_, hafter,
    hnext b hab hafter ((hahead.keeps hbefore).mono hlater)⟩
  rw [execAll_append, bind_apply, hcode]
  exact (congrFun (execAll_singleton _) b).trans (hrun b hab)

include hnd hmem hsize hl hnew hm hfound hs hfits

/-- The number of chunks of a space. -/
theorem addCount : l.Prepares ctx U order G n a (m + 1)
    ({ known with chunkCounts := (s.shape, .var (numbered "chunk_iters" m)) :: known.chunkCounts },
      code ++ [.declareInit (numbered "chunk_iters" m) .i64
        ((Exp.product (s.shape.map Operand.toExp)).divUp known.groupSize)]) := by
  have hcount : New m (numbered "chunk_iters" m) := new_numbered (by decide) (Nat.le_refl m)
  have hsize' : ∀ {b}, Keeps U a b → ∀ t ∈ order, t < b.threads.size := fun hb t ht => hb.size ▸ hsize t ht
  have hchunks : ∀ {b}, Keeps U a b → ∀ t ∈ order,
      IsInt (b.scope ctx t) (s.size.divUp l.groupSize) (((ds.prod + G - 1) / G : Nat) : Int) := fun hb t ht =>
    (hl.keeps hb).isInt_chunks (hs.keeps hb) ht (Nat.zero_lt_of_lt (hmem t ht)) hfits
  rw [map_toExp_shape]
  refine hfound.extend hnew hm (Nat.le_succ m)
    (fun _ => [(numbered "chunk_iters" m, .i64 (Int64.ofNat ((ds.prod + G - 1) / G)))]) rfl rfl
    (fun t e he => List.mem_singleton.mp he ▸ hcount) (fun b hb => ?_)
    fun b hb hb' hold => ⟨hold.ids, List.forall_mem_cons.mpr ⟨⟨?_, ?_, fun t ht ds' hds' => ?_⟩, hold.counts⟩⟩
  · rw [show known.groupSize = l.groupSize from hfound.groupSize]
    exact exec_declareNat hnd (hsize' hb) (hnew _ (hcount.mono hm)) (over_divUp (over_product hs.uses) hl.uses)
      (hchunks hb)
  · rw [map_toExp_shape]
    exact fun x hx y hy => .inl (hs.uses x hx y hy)
  · exact over_var.mpr (.inr ⟨"chunk_iters", by decide, m, hm, Nat.lt_succ_self m, rfl⟩)
  · rw [map_toExp_shape] at hds'
    obtain rfl := isInts_unique hds' ((hs.keeps hb').extents t ht)
    refine .var_nat ?_ (hchunks hb t ht).fits
    rw [GroupState.scope_bindAll ht (hsize' hb t ht)]
    exact Scope.set_self

/-- The indices of the threads in a space. -/
theorem addIds {k : Nat} (hk : m ≤ k) {ids : List Ident} (hids : Registers m k s.shape.length ids) :
    l.Prepares ctx U order G n a k ({ known with pointIds := (s.shape, ids.map .var) :: known.pointIds },
      code ++ [.unflatten (ids.zip (s.shape.map Operand.toExp)) known.ltid]) := by
  have hnewIds : ∀ x ∈ ids, New m x := fun x hx => (hids.taken x hx).new
  have hsize' : ∀ {b}, Keeps U a b → ∀ t ∈ order, t < b.threads.size := fun hb t ht => hb.size ▸ hsize t ht
  have hlength : ids.length = s.dimExps.length := by rw [hids.length, ← map_toExp_shape, List.length_map]
  have hprod : SegKernel.Fits ds.prod := by
    unfold SegKernel.Fits at *
    omega
  have hfst : (ids.zip s.dimExps).map Prod.fst = ids := List.map_fst_zip (Nat.le_of_eq hlength)
  have hsnd : (ids.zip s.dimExps).map Prod.snd = s.dimExps := List.map_snd_zip (Nat.le_of_eq hlength.symm)
  rw [map_toExp_shape, show known.ltid = l.ltid from congrArg Exp.var hfound.localId]
  refine hfound.extend hnew hm hk (fun t => ids.zip (indexValues (coords ds t))) rfl rfl
    (fun t e he => hnewIds _ (List.of_mem_zip he).1) (fun b hb => ?_)
    fun b hb hb' hold => ⟨List.forall_mem_cons.mpr ⟨⟨?_, ?_, fun t ht ds' hds' => ?_⟩, hold.ids⟩, hold.counts⟩
  -- The indices are declared by their extents, which are still what they were.
  · have hdims : ∀ t ∈ order, List.Forall₂ (fun d (i : Nat) => IsInt (b.scope ctx t) d.2 i) (ids.zip s.dimExps) ds := by
      intro t ht
      have := (hs.keeps hb).extents t ht
      rw [← hsnd, List.forall₂_map_left_iff, ints, List.forall₂_map_right_iff] at this
      exact this
    have := exec_unflatten hnd (hsize' hb) (fun d hd => hnew _ ((hnewIds _ (List.of_mem_zip hd).1).mono hm))
      (fun d hd => hs.uses _ (List.of_mem_zip hd).2) hdims (fun i hi => hs.positive i (List.mem_of_mem_tail hi))
      (fits_prod_tail hs.positive hprod) (over_var.mpr hl.own) fun t ht => (hl.keeps hb).isInt_ltid ht (hmem t ht)
    rwa [hfst] at this
  · rw [map_toExp_shape]
    exact fun x hx y hy => .inl (hs.uses x hx y hy)
  · exact List.forall_mem_map.mpr fun x hx => over_var.mpr (.inr ((hids.taken x hx).mono hm (Nat.le_refl k)))
  · rw [map_toExp_shape] at hds'
    obtain rfl := isInts_unique hds' ((hs.keeps hb').extents t ht)
    rw [GroupState.scope_bindAll ht (hsize' hb t ht)]
    refine isInts_sets hids.nodup ?_ fun i hi => ?_
    · have := (hs.extents t ht).length_eq
      rw [length_coords, hlength, this, ints, List.length_map]
    · have := coords_le i hi
      have := hmem t ht
      unfold SegKernel.Fits at *
      omega

end Prepares

include hnd hmem hsize hl hnew hm

/-- What is computed for one statement. -/
theorem precomputeStep_prepares {stm : BodyStm} (hstm : ∀ pattern op, stm = .nested pattern op →
      op.space.shape.all env.isInvariant = true →
        ∃ ds : List Nat, op.space.Measured ctx U order ds a ∧ SegKernel.Fits ((ds.prod + G : Nat) : Int))
    {found : Launch × List Stmt} (hfound : l.Prepares ctx U order G n a m found) :
    Fresh.At m (precomputeStep env found stm) (l.Prepares ctx U order G n a) := by
  obtain ⟨known, code⟩ := found
  cases stm with
  | nested pattern op =>
    unfold precomputeStep
    dsimp only
    split
    · exact .pure hfound
    rename_i hshape
    obtain ⟨ds, hs, hfits⟩ := hstm pattern op rfl (by simpa using hshape)
    split
    · split
      · exact .pure hfound
      exact .take <| .pure (hfound.addCount hnd hmem hsize hl hnew hm hs hfits)
    · split
      · exact .pure hfound
      exact (Fresh.At.registers (by decide) _).bind fun k ids hk hids =>
        .pure (hfound.addIds hnd hmem hsize hl hnew hm hs hfits hk hids)
  | _ => exact .pure hfound

omit hm in
/-- What is computed for the statements of a body. -/
theorem precompute_prepares {stms : List BodyStm} (hstms : ∀ pattern op, .nested pattern op ∈ stms →
      op.space.shape.all env.isInvariant = true →
        ∃ ds : List Nat, op.space.Measured ctx U order ds a ∧ SegKernel.Fits ((ds.prod + G : Nat) : Int)) :
    Fresh.At n (l.precompute env stms) fun m (known, code) => known.localId = l.localId ∧
      known.groupSize = l.groupSize ∧
      ∃ b, exec ctx code order a = .ok () b ∧ Keeps U a b ∧ known.Ahead ctx (U.taken n m) order G b := by
  have start : l.Prepares ctx U order G n a n ({ l with pointIds := [], chunkCounts := [] }, []) :=
    ⟨rfl, rfl, a, rfl, Keeps.refl a, by simp, by simp⟩
  refine (Fresh.At.foldlM start fun stm hmem' m found hm hfound => precomputeStep_prepares hnd hmem hsize hl hnew hm
    (fun pattern op e => hstms pattern op (e ▸ hmem')) hfound).bind fun m (known, code) _ hfound => .pure ?_
  obtain ⟨b, hrun, hkeeps, hahead⟩ := hfound.runs
  refine ⟨hfound.localId, hfound.groupSize, b, ?_, hkeeps, hahead⟩
  split
  · rename_i hempty
    rw [List.isEmpty_iff.mp hempty, execAll_nil] at hrun
    rwa [exec_skip]
  · rwa [exec_comment, exec_block]

end Steps

/-- A group covers a space of some indices whose extents are positive: without virtualization if there are no more
    points than threads, in a full space if there are as many, and otherwise in as many rounds as the device admits.
    In round `j` thread `t` takes the point at position `j * G + t`, if there is one; its position and its indices
    are bound then, and it runs the body. So each point is visited once, by the thread whose number is its position
    modulo `G`. This is so with what the kernel computed in advance for all operations inside, or for none. -/
theorem coverSpace_visits (l : Launch) (env : HostEnv) (stms : List BodyStm) (s : IterationSpace) (coverage : Coverage)
    (ctx : GroupContext) (schedule : Schedule) (ds : List Nat) (body : Stmt) (hsize : a.threads.size = G)
    (hl : l.Numbers ctx U (schedule.order G) G a) (hs : s.Measured ctx U (schedule.order G) ds a) (hrank : ds ≠ [])
    (hG : 0 < G) (hnames : s.Named U) (hcovers : coverage.Covers ds.prod G ctx.loopLimit)
    (hstms : ∀ pattern op, .nested pattern op ∈ stms → op.space.shape.all env.isInvariant = true →
      ∃ es : List Nat, op.space.Measured ctx U (schedule.order G) es a ∧ SegKernel.Fits ((es.prod + G : Nat) : Int))
    (hnew : ∀ x, New n x → ¬U x) (hold : ∀ x ∈ s.names, ¬New n x)
    (hbody : ∀ live b b', exec ctx body live b = .ok () b' → Keeps U b b') :
    let ((known, code), m) := (l.precompute env stms).run n
    ∃ b, exec ctx code (schedule.order G) a = .ok () b ∧ ∀ c, Keeps (U.taken n m) b c → ∀ k, m ≤ k →
      ∃ setup own, (∀ e ∈ setup, New k e.1) ∧ (∀ j t, ∀ e ∈ own j t, New k e.1) ∧
        exec ctx (((known.coverSpace coverage s).run k).1.wrap body) (schedule.order G) c =
          countUp (s.chunk ctx ds G (schedule.order G) own body) ((ds.prod + G - 1) / G) 0
            (c.bindAll (schedule.order G) fun _ => setup) ∧
        (∀ (f : Nat) (entries : List (Ident × Value)) (th : Thread),
          ((th.bindAll (entries ++ s.point ds f)).scope ctx.captured).Sees s.names (indexValues (f :: coords ds f))) ∧
        (∀ f < ds.prod, rowMajor (ints ds) (ints (coords ds f)) = f) ∧
        (visits (schedule.order G) ds.prod G).Perm ((List.range ds.prod).map fun f => (f % G, f)) := by
  have hnd := schedule.nodup_order G
  have hmem : ∀ t ∈ schedule.order G, t < G := fun t ht => (schedule.mem_order G t).mp ht
  have hne := schedule.order_ne_nil hG
  have hthreads : ∀ t ∈ schedule.order G, t < a.threads.size := fun t ht => hsize ▸ hmem t ht
  have hprepared := precompute_prepares (l := l) hnd hmem hthreads hl hnew hstms
  unfold Fresh.At at hprepared
  generalize (l.precompute env stms).run n = r at hprepared ⊢
  obtain ⟨⟨known, code⟩, m⟩ := r
  obtain ⟨hm, hlocal, hgroup, b, hrun, hab, hahead⟩ := hprepared
  refine ⟨b, hrun, fun c hbc k hk => ?_⟩
  have hac : Keeps U a c := hab.trans (hbc.mono (U.le_taken _ _))
  have hnamesV : s.Named (U.taken n m) :=
    ⟨hnames.nodup, fun x hx h => h.elim (hnames.own x hx) fun h => hold x hx h.new⟩
  have hnewk : ∀ {x}, New k x → New n x := fun hx => hx.mono (Nat.le_trans hm hk)
  obtain ⟨setup, own, hsetup, hown, hexec⟩ := exec_coverSpace (k := k) hnd hmem
    (fun t ht => hac.size ▸ hthreads t ht) ((hl.keeps hac).of_sizes hlocal hgroup) (hs.keeps hac) hne hnames
    (U.le_taken _ _).scalar hnamesV (hahead.keeps hbc) hrank hcovers (fun x hx => hnew x (hnewk hx))
    (fun x hx h => hold x hx (hnewk h)) hbody
  exact ⟨setup, own, hsetup, hown, hexec, fun f entries th => hnames.sees_point (hs.length_eq hne) th _ entries f,
    fun f hf => rowMajor_coords hf, visits_perm hnd (schedule.mem_order G) hG⟩

/-- Two rows of three. -/
def twoRows : IterationSpace := ⟨"flat", [("i", .var "rows"), ("j", .int 3)]⟩

/-- A launch of groups of two threads. -/
def inPairs : Launch where
  globalId := "gtid"
  localId := "ltid"
  groupId := "gid"
  waveWidth := "wave"
  numGroups := .int 1
  groupSize := .int 2
  numThreads := .int 2

def pairGroup : GroupContext where
  captured := .ofList [("rows", .i64 2)]
  group := 0
  groupSize := 2
  numGroups := 1
  wave := 1
  loopLimit := 100
  checkRaces := true

/-- The threads know their numbers, and there is a counter. -/
def pairStart : GroupState where
  threads := #[{ scalars := .ofList [("ltid", .i64 0)] }, { scalars := .ofList [("ltid", .i64 1)] }]
  global := ({} : Memory).insert "count" (.zeroed .i64 1)
  stats := {}

/-- A thread counts its visit. -/
def count :
    Stmt := .seq [.declare "old" .i64 false, .update .add "old" ⟨"count", .i64, .global, false⟩ (.int 0) (.int 1)]

/-- An operation over both rows, for which the number of chunks is computed in advance. -/
def overRows : BodyStm := .nested [] {
  kind := .map
  grid := ⟨.thread, .int 1, .int 2, .virtualize⟩
  space := twoRows
  stms := []
  results := [] }

theorem twoRows_visits :
    let ((known, code), m) := (inPairs.precompute { scalars := .ofList [("rows", .i64)] } [overRows]).run 0
    ∃ b, exec pairGroup code [0, 1] pairStart = .ok () b ∧ ∃ setup own,
      exec pairGroup (((known.coverSpace .virtualize twoRows).run m).1.wrap count) [0, 1] b =
        countUp (twoRows.chunk pairGroup [2, 3] 2 [0, 1] own count) 3 0 (b.bindAll [0, 1] fun _ => setup) ∧
      visits [0, 1] 6 2 = [(0, 0), (1, 1), (0, 2), (1, 3), (0, 4), (1, 5)] := by
  let U : Common := .scalars ["ltid", "rows"]
  have plain : ∀ {names : List Ident}, (∀ x ∈ names, '_' ∉ x.toList) → ∀ x ∈ names, ¬New 0 x := fun h x hx hnew =>
    not_generated (h x hx) hnew.generated
  have hlocal : ∀ t ∈ Schedule.forward.order 2, pairStart.scope pairGroup t "ltid" = some (.i64 (Int64.ofNat t)) := by
    decide +kernel
  have hrows : ∀ t ∈ Schedule.forward.order 2, pairStart.scope pairGroup t "rows" = some (.i64 2) := by decide +kernel
  have hl : inPairs.Numbers pairGroup U (Schedule.forward.order 2) 2 pairStart :=
    ⟨List.mem_cons_self, over_int 2, hlocal, fun _ _ => IsInt.int 2⟩
  have hs : twoRows.Measured pairGroup U (Schedule.forward.order 2) [2, 3] pairStart := {
    uses := List.forall_mem_cons.mpr ⟨over_var.mpr (List.mem_cons_of_mem _ List.mem_cons_self),
      List.forall_mem_singleton.mpr (over_int 3)⟩
    extents := fun t ht => .cons (IsInt.var (hrows t ht)) (.cons (IsInt.int 3) .nil)
    positive := by decide }
  have hnames : twoRows.Named U := ⟨by decide, (by decide : ∀ x ∈ twoRows.names, x ∉ ["ltid", "rows"])⟩
  have hold : "old" ∉ ["ltid", "rows"] := by decide
  have hcount : Quiet U count :=
    .seq (List.forall_mem_cons.mpr ⟨.declare hold, List.forall_mem_singleton.mpr (.update hold nofun)⟩)
  obtain ⟨b, hrun, hvisits⟩ := coverSpace_visits (n := 0) inPairs { scalars := .ofList [("rows", .i64)] }
    [overRows] twoRows
    .virtualize pairGroup .forward [2, 3] count (G := 2) rfl hl hs (by decide) (by decide) hnames
    ⟨⟨by decide, by decide⟩, by decide⟩
    (fun pattern op h _ => by
      obtain ⟨rfl, rfl⟩ := BodyStm.nested.inj (List.mem_singleton.mp h)
      exact ⟨[2, 3], hs, by decide, by decide⟩)
    (fun x hx hU => plain (by decide) x hU hx) (plain (by decide))
    (fun _ _ _ => hcount.keeps)
  obtain ⟨setup, own, -, -, hexec, -⟩ := hvisits b (Keeps.refl b) _ (Nat.le_refl _)
  exact ⟨b, hrun, setup, own, hexec, by decide⟩

/-- A space without indices has one point, which fits a group of two threads. But its guard tests no index, so both
    threads run the body for this point. Over a space of one index and one point one thread does. -/
theorem noIndices_goes_wrong :
    let counted (s : IterationSpace) :=
      match exec pairGroup (((inPairs.coverSpace .direct s).run 0).1.wrap count) [0, 1] pairStart with
      | .ok _ b => b.global["count"]?.map Buffer.values
      | .error .. => none
    Coverage.direct.Covers ([] : List Nat).prod 2 pairGroup.loopLimit ∧
      counted ⟨"flat", [("i", .int 1)]⟩ = some [.i64 1] ∧
      counted ⟨"flat", []⟩ = some [.i64 2] := by
  refine ⟨?_, ?_, ?_⟩
  · exact (by decide : 1 ≤ 2)
  · decide +kernel
  · decide +kernel

end Launch
end SegKernel
