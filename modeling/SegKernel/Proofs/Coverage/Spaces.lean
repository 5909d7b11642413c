import SegKernel.Launch.Nest
import SegKernel.Proofs.Coverage.Points
import SegKernel.Proofs.Maps.Covering

/-! How a group covers a space. Whether it goes in a loop over chunks or not, and whether it knows indices and
    numbers of chunks in advance or not, each point is visited once, by the thread whose number is the position
    of the point modulo the size of the group. -/

namespace SegKernel
open Exp Run

namespace IterationSpace

/-- The threads of a group know the extents of a space, by names in `U`. -/
structure Measured (s : IterationSpace) (ctx : GroupContext) (U : Common) (order : List Nat) (ds : List Nat)
    (a : GroupState) :
    Prop where
  uses : ∀ x ∈ s.dimExps, x.Over U
  extents : ∀ t ∈ order, List.Forall₂ (IsInt (a.scope ctx t)) s.dimExps (ints ds)
  positive : ∀ d ∈ ds, 0 < d

/-- The names of a space are different, and none of `U`. -/
structure Named (s : IterationSpace) (U : Common) : Prop where
  nodup : s.names.Nodup
  own : ∀ x ∈ s.names, ¬U x

variable {s : IterationSpace} {ctx : GroupContext} {U : Common} {order : List Nat} {ds : List Nat} {a b : GroupState}

theorem Measured.keeps (h : s.Measured ctx U order ds a) (hkeeps : Keeps U a b) : s.Measured ctx U order ds b where
  uses := h.uses
  extents t ht := hkeeps.isInts h.uses (h.extents t ht)
  positive := h.positive

theorem Measured.mono {V : Common} (h : s.Measured ctx U order ds a) (hV : ∀ x, U x → V x) :
    s.Measured ctx V order ds a where
  uses x hx y hy := hV y (h.uses x hx y hy)
  extents := h.extents
  positive := h.positive

theorem Measured.length_eq (h : s.Measured ctx U order ds a) (hne : order ≠ []) : s.indices.length = ds.length := by
  obtain ⟨t, ht⟩ := List.exists_mem_of_ne_nil _ hne
  have := (h.extents t ht).length_eq
  simpa [dimExps, indices, ints] using this

theorem Named.of_mem_point (h : s.Named U) {f : Nat} : ∀ e ∈ s.point ds f, ¬U e.1 := by
  intro e he
  rcases List.mem_cons.mp he with rfl | he
  · exact h.own _ List.mem_cons_self
  · exact h.own _ (List.mem_cons_of_mem _ (List.of_mem_zip he).1)

section Visits
variable {flat : Exp} {f : Nat → Nat} (hnd : order.Nodup) (hsize : ∀ t ∈ order, t < a.threads.size)
  (hs : s.Measured ctx U order ds a) (hnames : s.Named U)

include hnd hsize hs hnames in
/-- The threads declare the indices of their positions. -/
theorem exec_indices (hfits : Fits ds.prod) (hflat : flat.Over U)
    (hposition : ∀ t ∈ order, IsInt (a.scope ctx t) flat (f t)) :
    exec ctx (.unflatten s.extents flat) order a =
      .ok () (a.bindAll order fun t => s.indices.zip (indexValues (coords ds (f t)))) := by
  have hover : ∀ d ∈ s.extents, d.2.Over U := fun d hd => by
    obtain ⟨p, hp, rfl⟩ := List.mem_map.mp hd
    exact hs.uses _ (List.mem_map_of_mem hp)
  have howned : ∀ d ∈ s.extents, ¬U d.1 := fun d hd => by
    obtain ⟨p, hp, rfl⟩ := List.mem_map.mp hd
    exact hnames.own _ (List.mem_cons_of_mem _ (List.mem_map_of_mem hp))
  have hextents : ∀ t ∈ order, List.Forall₂ (fun d (n : Nat) => IsInt (a.scope ctx t) d.2 n) s.extents ds :=
    fun t ht => by
    have := hs.extents t ht
    rw [dimExps, List.forall₂_map_left_iff, ints, List.forall₂_map_right_iff] at this
    exact List.forall₂_map_left_iff.mpr this
  have := exec_unflatten hnd hsize howned hover hextents (fun n hn => hs.positive n (List.mem_of_mem_tail hn))
    (fits_prod_tail hs.positive hfits) hflat hposition
  rwa [extents, List.map_map] at this

include hsize hs hnames in
/-- A thread passes the guard if there is a point at its position. -/
theorem isBool_guard (hrank : ds ≠ []) {t : Nat} (ht : t ∈ order) (hf : Fits (f t : Int)) :
    IsBool ((a.bindAll order fun t => s.point ds (f t)).scope ctx t) s.isInside (decide (f t < ds.prod)) := by
  have hkeeps : Keeps U a (a.bindAll order fun t => s.point ds (f t)) := Keeps.bindAll fun t _ => hnames.of_mem_point
  have hextents := (hs.keeps hkeeps).extents t ht
  have hindices : List.Forall₂ (IsInt ((a.bindAll order fun t => s.point ds (f t)).scope ctx t)) s.indexExps
      (ints (coords ds (f t))) := by
    rw [GroupState.scope_bindAll ht (hsize t ht)]
    exact isInts_point (List.nodup_cons.mp hnames.nodup).2 hextents hf
  have := isBool_isInside hextents hindices
  rwa [decide_eq_decide.mpr (inside_coords_iff hrank hs.positive)] at this

include hnd hsize hnames in
/-- The threads take the points at their positions, and those for which there is one run the body. -/
theorem execAll_visit (hflat : flat.Over U) (hposition : ∀ t ∈ order, IsInt (a.scope ctx t) flat (f t))
    {indices guard : _} {body : Stmt}
    (hindices : ∀ b, Keeps U a b → exec ctx indices order b =
      .ok () (b.bindAll order fun t => s.indices.zip (indexValues (coords ds (f t)))))
    (hguard : ∀ t ∈ order, IsBool ((a.bindAll order fun t => s.point ds (f t)).scope ctx t) guard
      (decide (f t < ds.prod))) :
    execAll ctx [.declareInit s.flat .i64 flat, indices, .when guard body] order a =
      exec ctx body (order.filter fun t => f t < ds.prod) (a.bindAll order fun t => s.point ds (f t)) := by
  have hown : ¬U s.flat := hnames.own _ List.mem_cons_self
  rw [execAll_of_ok (exec_declareNat hnd hsize hown hflat hposition),
    execAll_of_ok (hindices _ (Keeps.bindAll fun t _ e he =>
    List.mem_singleton.mp he ▸ hown)), execAll_singleton, GroupState.bindAll_bindAll]
  exact exec_when hguard

end Visits

/-- A round of a group: the threads take the points of chunk `k`, after they bound some names of their own, and
    those for which there is a point run the body. -/
def chunk (s : IterationSpace) (ctx : GroupContext) (ds : List Nat) (G : Nat) (order : List Nat)
    (own : Nat → Nat → List (Ident × Value)) (body : Stmt) (k : Nat) : Run Unit := fun a =>
  exec ctx body (order.filter fun t => k * G + t < ds.prod) (a.bindAll order fun t => own k t ++ s.point ds (k * G + t))

end IterationSpace

/-- A group of `G` threads can cover `N` points. -/
def Coverage.Covers (c : Coverage) (N G limit : Nat) : Prop :=
  match c with
  | direct => N ≤ G
  | virtualize => Fits ((N + G : Nat) : Int) ∧ (N + G - 1) / G ≤ limit
  | full => N = G

theorem Coverage.Covers.fits {c : Coverage} {N G limit : Nat} (h : c.Covers N G limit) (hG : Fits G) : Fits N := by
  have hle : N ≤ G ∨ Fits ((N + G : Nat) : Int) := by
    cases c with
    | direct => exact .inl h
    | virtualize => exact .inr h.1
    | full => exact .inl (Nat.le_of_eq h)
  unfold Fits at *
  omega

/-- The names of `U` and another one. -/
def Common.insert (U : Common) (name : Ident) : Common :=
  ⟨fun x => U x ∨ x = name, U.array, fun x h => .inl (U.scalar_of_array x h)⟩

namespace Launch

/-- The threads of a group know their numbers, and how many they are. -/
structure Numbers (l : Launch) (ctx : GroupContext) (U : Common) (order : List Nat) (G : Nat) (a : GroupState) :
    Prop where
  own : U l.localId
  uses : l.groupSize.Over U
  localId : ∀ t ∈ order, a.scope ctx t l.localId = some (.i64 (Int64.ofNat t))
  groupSize : ∀ t ∈ order, IsInt (a.scope ctx t) l.groupSize G

variable {l : Launch} {s : IterationSpace} {ctx : GroupContext} {U : Common} {order : List Nat} {ds : List Nat}
  {G n : Nat} {a b : GroupState} {body : Stmt}

theorem Numbers.keeps (h : l.Numbers ctx U order G a) (hkeeps : Keeps U a b) : l.Numbers ctx U order G b where
  own := h.own
  uses := h.uses
  localId t ht := by
    rw [hkeeps.scope ctx h.own]
    exact h.localId t ht
  groupSize t ht := hkeeps.isInt h.uses (h.groupSize t ht)

/-- A launch with the same sizes knows them, too. -/
theorem Numbers.of_sizes {known : Launch} (h : l.Numbers ctx U order G a) (hlocalId : known.localId = l.localId)
    (hgroupSize : known.groupSize = l.groupSize) : known.Numbers ctx U order G a := by
  obtain ⟨hown, hover, hlocal, hgroup⟩ := h
  rw [← hlocalId] at hown hlocal
  rw [← hgroupSize] at hover hgroup
  exact ⟨hown, hover, hlocal, hgroup⟩

theorem Numbers.isInt_ltid (h : l.Numbers ctx U order G a) {t : Nat} (ht : t ∈ order) (hlt : t < G) :
    IsInt (a.scope ctx t) l.ltid t := by
  have := (h.groupSize t ht).fits
  refine .var_nat (h.localId t ht) ?_
  unfold SegKernel.Fits at *
  omega

/-- The position of a thread in chunk `k`. -/
theorem Numbers.isInt_position (h : l.Numbers ctx U order G a) {t : Nat} (ht : t ∈ order) (hlt : t < G) {chunk : Ident}
    {k : Nat} (hchunk : a.scope ctx t chunk = some (.i64 (Int64.ofNat k)))
    (hfits : SegKernel.Fits ((k * G + t : Nat) : Int)) :
    IsInt (a.scope ctx t) (.var chunk * l.groupSize + l.ltid) ((k * G + t : Nat) : Int) := by
  have hle : k ≤ k * G := Nat.le_mul_of_pos_right k (Nat.zero_lt_of_lt hlt)
  have fits : ∀ j : Nat, j ≤ k * G + t → SegKernel.Fits (j : Int) := by
    intro j hj
    unfold SegKernel.Fits at *
    omega
  have hstart : IsInt (a.scope ctx t) (.var chunk * l.groupSize) ((k * G : Nat) : Int) := by
    rw [Int.natCast_mul]
    exact (IsInt.var_nat hchunk (fits k (by omega))).mul (h.groupSize t ht)
      (Int.natCast_mul k G ▸ fits (k * G) (by omega))
  exact hstart.add (h.isInt_ltid ht hlt) hfits

/-- The number of chunks of a space. -/
theorem Numbers.isInt_chunks (h : l.Numbers ctx U order G a) (hs : s.Measured ctx U order ds a) {t : Nat}
    (ht : t ∈ order) (hG : 0 < G) (hfits : SegKernel.Fits ((ds.prod + G : Nat) : Int)) :
    IsInt (a.scope ctx t) (s.size.divUp l.groupSize) (((ds.prod + G - 1) / G : Nat) : Int) := by
  have hprod : SegKernel.Fits ds.prod := by
    unfold SegKernel.Fits at *
    omega
  exact (isInt_product (List.forall₂_map_right_iff.mp (hs.extents t ht)) hprod).divUp (h.groupSize t ht) hG
    (by exact_mod_cast hfits)

/-- What a group knows in advance: the indices of its threads in spaces of some shapes, and the numbers of chunks. -/
structure Ahead (l : Launch) (ctx : GroupContext) (U : Common) (order : List Nat) (G : Nat) (a : GroupState) :
    Prop where
  ids : ∀ p ∈ l.pointIds, (∀ x ∈ p.1.map Operand.toExp, x.Over U) ∧ (∀ x ∈ p.2, x.Over U) ∧
    ∀ t ∈ order, ∀ ds : List Nat, List.Forall₂ (IsInt (a.scope ctx t)) (p.1.map Operand.toExp) (ints ds) →
      List.Forall₂ (IsInt (a.scope ctx t)) p.2 (ints (coords ds t))
  counts : ∀ p ∈ l.chunkCounts, (∀ x ∈ p.1.map Operand.toExp, x.Over U) ∧ p.2.Over U ∧
    ∀ t ∈ order, ∀ ds : List Nat, List.Forall₂ (IsInt (a.scope ctx t)) (p.1.map Operand.toExp) (ints ds) →
      IsInt (a.scope ctx t) p.2 (((ds.prod + G - 1) / G : Nat) : Int)

theorem map_toExp_shape (s : IterationSpace) : s.shape.map Operand.toExp = s.dimExps := by
  simp [IterationSpace.shape, IterationSpace.dimExps]

namespace Ahead
variable {V : Common} (h : l.Ahead ctx V order G a) (hs : s.Measured ctx U order ds a)
include h hs

/-- The indices found for the shape of a space. -/
theorem pointIds? {ids : List Exp} (hids : l.pointIds? s.shape = some ids) :
    (∀ x ∈ ids, x.Over V) ∧ ∀ t ∈ order, List.Forall₂ (IsInt (a.scope ctx t)) ids (ints (coords ds t)) := by
  obtain ⟨p, hp, rfl⟩ := Option.map_eq_some_iff.mp hids
  obtain ⟨-, hover, hknown⟩ := h.ids p (List.mem_of_find?_eq_some hp)
  have hshape : p.1 = s.shape := by simpa using List.find?_some hp
  refine ⟨hover, fun t ht => hknown t ht ds ?_⟩
  rw [hshape, map_toExp_shape]
  exact hs.extents t ht

/-- The number of chunks found for the shape of a space. -/
theorem chunkCount? {count : Exp} (hcount : l.chunkCount? s.shape = some count) :
    ∀ t ∈ order, IsInt (a.scope ctx t) count (((ds.prod + G - 1) / G : Nat) : Int) := by
  obtain ⟨p, hp, rfl⟩ := Option.map_eq_some_iff.mp hcount
  obtain ⟨-, -, hknown⟩ := h.counts p (List.mem_of_find?_eq_some hp)
  have hshape : p.1 = s.shape := by simpa using List.find?_some hp
  intro t ht
  refine hknown t ht ds ?_
  rw [hshape, map_toExp_shape]
  exact hs.extents t ht

end Ahead

/-- The loop over chunks, with the names from number `k` on. -/
def chunkNest (l : Launch) (s : IterationSpace) (k : Nat) (setup : List Stmt) (count : Exp) : Nest where
  setup := setup
  counted := some (numbered "chunk_i" k, count)
  before := [.declareInit (numbered "i" (k + 1)) .i64 (.var (numbered "chunk_i" k) * l.groupSize + l.ltid),
    .declareInit s.flat .i64 (.var (numbered "i" (k + 1))), .unflatten s.extents (.var (numbered "i" (k + 1)))]
  guard := s.isInside

/-- The names that a round of it binds. -/
def chunkNames (k G j t : Nat) : List (Ident × Value) :=
  [(numbered "chunk_i" k, .i64 (Int64.ofNat j)), (numbered "i" (k + 1), .i64 (Int64.ofNat (j * G + t)))]

theorem new_of_mem_chunkNames {k j t : Nat} : ∀ e ∈ chunkNames k G j t, New k e.1 := by
  intro e he
  rcases List.mem_cons.mp he with rfl | he
  · exact new_numbered (by decide) (Nat.le_refl k)
  · exact List.mem_singleton.mp he ▸ new_numbered (by decide) (Nat.le_succ k)

/-- The number of chunks is known in advance or computed before the loop. -/
theorem coverSpace_virtualize (hvirtualize : s.size ≠ l.groupSize) (k : Nat) :
    ((l.coverSpace .virtualize s).run k).1 = match l.chunkCount? s.shape with
      | some count => l.chunkNest s k [] count
      | none => l.chunkNest s k [.declareInit (numbered "chunk_iters" (k + 2)) .i64 (s.size.divUp l.groupSize)]
          (.var (numbered "chunk_iters" (k + 2))) := by
  rw [coverSpace, if_neg hvirtualize]
  cases l.chunkCount? s.shape <;> rfl

section Nests
variable (hnd : order.Nodup) (hmem : ∀ t ∈ order, t < G) (hsize : ∀ t ∈ order, t < a.threads.size)
  (hl : l.Numbers ctx U order G a) (hs : s.Measured ctx U order ds a)
include hnd hmem hsize hl hs

/-- A round of a loop over chunks. -/
theorem round_eq_chunk (hnames : s.Named U) (hrank : ds ≠ []) {chunk i : Ident} (hchunk : ¬U chunk) (hi : ¬U i)
    (hdistinct : i ≠ chunk) (hfree : i ∉ s.names) (hfits : SegKernel.Fits ((ds.prod + G : Nat) : Int)) {k : Nat}
    (hk : k < (ds.prod + G - 1) / G) :
    loopRound ctx chunk (.block [.declareInit i .i64 (.var chunk * l.groupSize + l.ltid),
      .declareInit s.flat .i64 (.var i),
      .unflatten s.extents (.var i), .when s.isInside body]) order k a =
      s.chunk ctx ds G order (fun k t => [(chunk, .i64 (Int64.ofNat k)), (i, .i64 (Int64.ofNat (k * G + t)))])
        body k a := by
  have fits : ∀ j : Nat, j ≤ ds.prod + G → SegKernel.Fits (j : Int) := by
    intro j hj
    unfold SegKernel.Fits at *
    omega
  have hpoint : ∀ t ∈ order, k * G + t ≤ ds.prod + G := fun t ht => Nat.le_of_lt (Coverage.point_lt hk (hmem t ht))
  -- The counter of the round is known first, then the position.
  let b := a.bindAll order fun _ => [(chunk, .i64 (Int64.ofNat k))]
  let c := b.bindAll order fun t => [(i, .i64 (Int64.ofNat (k * G + t)))]
  have hb : Keeps U a b := Keeps.bindAll fun t _ e he => List.mem_singleton.mp he ▸ hchunk
  have hc : Keeps U b c := Keeps.bindAll fun t _ e he => List.mem_singleton.mp he ▸ hi
  have hsizeb : ∀ t ∈ order, t < b.threads.size := fun t ht => by
    rw [GroupState.size_bindAll]
    exact hsize t ht
  have hsizec : ∀ t ∈ order, t < c.threads.size := fun t ht => by
    rw [GroupState.size_bindAll]
    exact hsizeb t ht
  have hposition : ∀ t ∈ order, IsInt (b.scope ctx t) (.var chunk * l.groupSize + l.ltid)
    ((k * G + t : Nat) : Int) := by
    intro t ht
    refine (hl.keeps hb).isInt_position ht (hmem t ht) ?_ (fits _ (hpoint t ht))
    rw [GroupState.scope_bindAll ht (hsize t ht)]
    exact Scope.set_self
  have hi₁ : exec ctx (.declareInit i .i64 (.var chunk * l.groupSize + l.ltid)) order b = .ok () c :=
    exec_declareNat (U := U.insert chunk) hnd hsizeb (not_or.mpr ⟨hi, hdistinct⟩)
      (over_add (over_mul (over_var.mpr (.inr rfl)) fun y hy => .inl (hl.uses y hy)) (over_var.mpr (.inl hl.own)))
        hposition
  have hnames' : s.Named (U.insert i) :=
    ⟨hnames.nodup, fun x hx => not_or.mpr ⟨hnames.own x hx, fun e => hfree (e ▸ hx)⟩⟩
  have hs' : s.Measured ctx (U.insert i) order ds c := ((hs.keeps hb).keeps hc).mono fun _ => .inl
  have hflat : ∀ t ∈ order, IsInt (c.scope ctx t) (.var i) ((k * G + t : Nat) : Int) := fun t ht => by
    refine .var_nat ?_ (fits _ (hpoint t ht))
    rw [GroupState.scope_bindAll ht (hsizeb t ht)]
    exact Scope.set_self
  have hflatOver : (Exp.var i).Over (U.insert i) := over_var.mpr (.inr rfl)
  rw [loopRound, exec_block]
  refine (execAll_of_ok hi₁).trans ((IterationSpace.execAll_visit hnd hsizec hnames' hflatOver hflat
    (fun c' hc' => IterationSpace.exec_indices hnd (fun t ht => hc'.size ▸ hsizec t ht) (hs'.keeps hc') hnames'
      (fits _ (Nat.le_add_right _ _)) hflatOver fun t ht => hc'.isInt hflatOver (hflat t ht))
    fun t ht => IterationSpace.isBool_guard hsizec hs' hnames' hrank ht (fits _ (hpoint t ht))).trans ?_)
  rw [GroupState.bindAll_bindAll, GroupState.bindAll_bindAll]
  rfl

/-- A loop over chunks goes round by round, after a setup that computes how many there are. -/
theorem exec_chunkNest (hne : order ≠ []) (hnames : s.Named U) (hrank : ds ≠ []) {k : Nat} (hnew : ∀ x, New k x → ¬U x)
    (hold : ∀ x ∈ s.names, ¬New k x) {setup : List Stmt} {count : Exp}
    (hfits : SegKernel.Fits ((ds.prod + G : Nat) : Int)) (hlimit : (ds.prod + G - 1) / G ≤ ctx.loopLimit)
    (hbody : ∀ live b b', exec ctx body live b = .ok () b' → Keeps U b b') (hkeeps : Keeps U a b)
    (hsetup : ∀ rest : List Stmt, execAll ctx (setup ++ rest) order a = execAll ctx rest order b)
    (hcount : ∀ t ∈ order, IsInt (b.scope ctx t) count (((ds.prod + G - 1) / G : Nat) : Int)) :
    exec ctx ((l.chunkNest s k setup count).wrap body) order a =
      countUp (s.chunk ctx ds G order (chunkNames k G) body) ((ds.prod + G - 1) / G) 0 b := by
  have hchunk : ¬U (numbered "chunk_i" k) := hnew _ (new_numbered (by decide) (Nat.le_refl k))
  have hi : New k (numbered "i" (k + 1)) := new_numbered (by decide) (Nat.le_succ k)
  have hdistinct : numbered "i" (k + 1) ≠ numbered "chunk_i" k := fun e => Nat.succ_ne_self k (numbered_inj.mp e).2
  have hc : (Int64.ofNat ((ds.prod + G - 1) / G)).toInt.toNat = (ds.prod + G - 1) / G := by
    obtain ⟨t, ht⟩ := List.exists_mem_of_ne_nil _ hne
    rw [toInt_ofNat_of_fits (hcount t ht).fits, Int.toNat_natCast]
  have hbound : ∀ t ∈ order, count.evalInt (b.scope ctx t) = .ok (Int64.ofNat ((ds.prod + G - 1) / G)) := fun t ht => by
    rw [evalInt, (hcount t ht).eval_nat]
  rw [chunkNest, Nest.wrap, exec_block]
  refine (hsetup _).trans ?_
  rw [execAll_singleton, exec_loop_uniform hnd hne hbound (by rw [hc]; exact hlimit), hc]
  refine countUp_congr (P := fun c => Keeps U a c) (fun j _ hj c hac => ⟨?_, fun c' hc' => ?_⟩) hkeeps
  · exact round_eq_chunk hnd hmem (fun t ht => hac.size ▸ hsize t ht) (hl.keeps hac) (hs.keeps hac) hnames hrank
      hchunk (hnew _ hi) hdistinct (fun h => hold _ h hi) hfits (by omega)
  · refine (hac.trans (Keeps.bindAll fun t _ e he => ?_)).trans (hbody _ _ _ hc')
    rcases List.mem_append.mp he with he | he
    · exact hnew _ (new_of_mem_chunkNames e he)
    · exact hnames.of_mem_point e he

omit hs in
/-- Without a loop there is one round. -/
theorem exec_once (hnames : s.Named U) {indices guard : _}
    (hindices : ∀ b, Keeps U a b → exec ctx indices order b =
      .ok () (b.bindAll order fun t => s.indices.zip (indexValues (coords ds t))))
    (hguard : ∀ t ∈ order, IsBool ((a.bindAll order fun t => s.point ds t).scope ctx t) guard (decide (t < ds.prod))) :
    exec ctx (Nest.wrap { before := [.declareInit s.flat .i64 l.ltid, indices], guard } body) order a =
      s.chunk ctx ds G order (fun _ _ => []) body 0 a := by
  rw [Nest.wrap, exec_block]
  refine (IterationSpace.execAll_visit hnd hsize hnames (over_var.mpr hl.own)
    (fun t ht => hl.isInt_ltid ht (hmem t ht)) hindices
    hguard).trans ?_
  simp only [IterationSpace.chunk, Nat.zero_mul, Nat.zero_add, List.nil_append]

/-- The indices computed from the number of the thread. -/
theorem exec_localIndices (hnames : s.Named U) (hfits : SegKernel.Fits ds.prod) (hkeeps : Keeps U a b) :
    exec ctx (.unflatten s.extents l.ltid) order b =
      .ok () (b.bindAll order fun t => s.indices.zip (indexValues (coords ds t))) :=
  IterationSpace.exec_indices hnd (fun t ht => hkeeps.size ▸ hsize t ht) (hs.keeps hkeeps) hnames hfits
    (over_var.mpr hl.own)
    fun t ht => (hl.keeps hkeeps).isInt_ltid ht (hmem t ht)

/-- As many points as threads. -/
theorem exec_full (hnames : s.Named U) (hfits : SegKernel.Fits ds.prod) (hcovers : ds.prod = G) {coverage : Coverage}
    {k : Nat} (hfull : (if s.size = l.groupSize then .full else coverage) = Coverage.full) :
    exec ctx (((l.coverSpace coverage s).run k).1.wrap body) order a =
      s.chunk ctx ds G order (fun _ _ => []) body 0 a := by
  rw [coverSpace, hfull]
  refine exec_once hnd hmem hsize hl hnames (fun b hb => exec_localIndices hnd hmem hsize hl hs hnames hfits hb)
    fun t ht => ?_
  rw [hcovers, decide_eq_true (hmem t ht)]
  exact IsBool.bool true

/-- No more points than threads. The indices are known in advance or computed. -/
theorem exec_direct (hnames : s.Named U) (hahead : l.Ahead ctx U order G a) (hrank : ds ≠ [])
    (hfits : SegKernel.Fits ds.prod) (hG : SegKernel.Fits G) {k : Nat} (hdirect : s.size ≠ l.groupSize) :
    exec ctx (((l.coverSpace .direct s).run k).1.wrap body) order a =
      s.chunk ctx ds G order (fun _ _ => []) body 0 a := by
  have hguard : ∀ t ∈ order, IsBool ((a.bindAll order fun t => s.point ds t).scope ctx t) s.isInside
    (decide (t < ds.prod)) :=
    fun t ht => IterationSpace.isBool_guard hsize hs hnames hrank ht (by
      have := hmem t ht
      unfold SegKernel.Fits at *
      omega)
  rw [coverSpace, if_neg hdirect]
  cases hids : l.pointIds? s.shape with
  | none =>
    exact exec_once hnd hmem hsize hl hnames (fun b hb => exec_localIndices hnd hmem hsize hl hs hnames hfits hb) hguard
  | some ids =>
    obtain ⟨hover, hknown⟩ := hahead.pointIds? hs hids
    refine exec_once hnd hmem hsize hl hnames (fun b hb => ?_) hguard
    rw [exec_block]
    exact execAll_declareNats hnd (fun t ht => hb.size ▸ hsize t ht)
      (fun x hx => hnames.own x (List.mem_cons_of_mem _ hx)) hover
      fun t ht => hb.isInts hover (hknown t ht)

/-- Chunk after chunk, counted in advance or at the start. -/
theorem exec_virtualize (hne : order ≠ []) (hnames : s.Named U) {V : Common} (hahead : l.Ahead ctx V order G a)
    (hrank : ds ≠ []) (hfits : SegKernel.Fits ((ds.prod + G : Nat) : Int))
    (hlimit : (ds.prod + G - 1) / G ≤ ctx.loopLimit) {k : Nat} (hnew : ∀ x, New k x → ¬U x)
    (hold : ∀ x ∈ s.names, ¬New k x) (hvirtualize : s.size ≠ l.groupSize)
    (hbody : ∀ live b b', exec ctx body live b = .ok () b' → Keeps U b b') :
    ∃ setup own, (∀ e ∈ setup, New k e.1) ∧ (∀ j t, ∀ e ∈ own j t, New k e.1) ∧
      exec ctx (((l.coverSpace .virtualize s).run k).1.wrap body) order a =
        countUp (s.chunk ctx ds G order own body) ((ds.prod + G - 1) / G) 0 (a.bindAll order fun _ => setup) := by
  rw [coverSpace_virtualize hvirtualize]
  split
  · rename_i count hcount
    refine ⟨[], chunkNames k G, fun e he => (List.not_mem_nil he).elim, fun j t => new_of_mem_chunkNames, ?_⟩
    rw [GroupState.bindAll_nil fun _ _ => rfl]
    exact exec_chunkNest hnd hmem hsize hl hs hne hnames hrank hnew hold hfits hlimit hbody (Keeps.refl a)
      (fun _ => rfl)
      (hahead.chunkCount? hs hcount)
  · have hiters : New k (numbered "chunk_iters" (k + 2)) := new_numbered (by decide) (Nat.le_add_right k 2)
    have hcounted : ∀ t ∈ order, IsInt (a.scope ctx t) (s.size.divUp l.groupSize)
      (((ds.prod + G - 1) / G : Nat) : Int) :=
      fun t ht => hl.isInt_chunks hs ht (Nat.zero_lt_of_lt (hmem t ht)) hfits
    refine ⟨[(numbered "chunk_iters" (k + 2), .i64 (Int64.ofNat ((ds.prod + G - 1) / G)))], chunkNames k G,
      fun e he => List.mem_singleton.mp he ▸ hiters, fun j t => new_of_mem_chunkNames, ?_⟩
    refine exec_chunkNest hnd hmem hsize hl hs hne hnames hrank hnew hold hfits hlimit hbody
      (Keeps.bindAll fun t _ e he => List.mem_singleton.mp he ▸ hnew _ hiters)
      (fun rest => execAll_of_ok (exec_declareNat hnd hsize (hnew _ hiters) (over_divUp (over_product hs.uses) hl.uses)
        hcounted))
      fun t ht => .var_nat ?_ (hcounted t ht).fits
    rw [GroupState.scope_bindAll ht (hsize t ht)]
    exact Scope.set_self

/-- A group goes through the chunks of a space, whatever it knows in advance. -/
theorem exec_coverSpace (hne : order ≠ []) (hnames : s.Named U) {V : Common} (hV : ∀ x, U x → V x) (hnamesV : s.Named V)
    (hahead : l.Ahead ctx V order G a) (hrank : ds ≠ []) {coverage : Coverage}
    (hcovers : coverage.Covers ds.prod G ctx.loopLimit) {k : Nat} (hnew : ∀ x, New k x → ¬U x)
    (hold : ∀ x ∈ s.names, ¬New k x) (hbody : ∀ live b b', exec ctx body live b = .ok () b' → Keeps U b b') :
    ∃ setup own, (∀ e ∈ setup, New k e.1) ∧ (∀ j t, ∀ e ∈ own j t, New k e.1) ∧
      exec ctx (((l.coverSpace coverage s).run k).1.wrap body) order a =
        countUp (s.chunk ctx ds G order own body) ((ds.prod + G - 1) / G) 0 (a.bindAll order fun _ => setup) := by
  obtain ⟨t, ht⟩ := List.exists_mem_of_ne_nil _ hne
  have hG : SegKernel.Fits G := (hl.groupSize t ht).fits
  have hpos : 0 < ds.prod := prod_pos_of_forall hs.positive
  -- Without a loop there is one chunk.
  have once : ds.prod ≤ G → exec ctx (((l.coverSpace coverage s).run k).1.wrap body) order a =
      s.chunk ctx ds G order (fun _ _ => []) body 0 a →
      ∃ setup own, (∀ e ∈ setup, New k e.1) ∧ (∀ j t, ∀ e ∈ own j t, New k e.1) ∧
        exec ctx (((l.coverSpace coverage s).run k).1.wrap body) order a =
          countUp (s.chunk ctx ds G order own body) ((ds.prod + G - 1) / G) 0 (a.bindAll order fun _ => setup) := by
    intro hle h
    have hone : (ds.prod + G - 1) / G = 1 := Nat.div_eq_of_lt_le (by omega) (by omega)
    refine ⟨[], fun _ _ => [], fun e he => (List.not_mem_nil he).elim, fun _ _ e he => (List.not_mem_nil he).elim, ?_⟩
    rw [h, GroupState.bindAll_nil fun _ _ => rfl, hone, countUp_one]
  have hfits : SegKernel.Fits ds.prod := hcovers.fits hG
  by_cases hsame : s.size = l.groupSize
  · have hprod : ds.prod = G := by
      have hsizes := isInt_product (List.forall₂_map_right_iff.mp (hs.extents t ht)) hfits
      exact Int.ofNat_inj.mp (IsInt.unique (hsame ▸ hsizes : IsInt _ l.groupSize _) (hl.groupSize t ht))
    exact once (Nat.le_of_eq hprod) (exec_full hnd hmem hsize hl hs hnames hfits hprod (if_pos hsame))
  · cases coverage with
    | direct =>
      refine once hcovers ?_
      exact exec_direct hnd hmem hsize ⟨hV _ hl.own, fun y hy => hV y (hl.uses y hy), hl.localId, hl.groupSize⟩
        (hs.mono hV) hnamesV hahead hrank hfits hG hsame
    | virtualize =>
      exact exec_virtualize hnd hmem hsize hl hs hne hnames hahead hrank hcovers.1 hcovers.2 hnew hold hsame hbody
    | full => exact once (Nat.le_of_eq hcovers) (exec_full hnd hmem hsize hl hs hnames hfits hcovers (if_neg hsame))

end Nests

/-- The threads with the positions of the points that they visit, in their order. -/
def visits (order : List Nat) (N G : Nat) : List (Nat × Nat) :=
  (List.range ((N + G - 1) / G)).flatMap fun j => (order.filter fun t => j * G + t < N).map fun t => (t, j * G + t)

/-- Each point is visited once, by the thread whose number is the position of the point modulo the number of threads. -/
theorem visits_perm {N : Nat} (hnd : order.Nodup) (hmem : ∀ t, t ∈ order ↔ t < G) (hG : 0 < G) :
    (visits order N G).Perm ((List.range N).map fun f => (f % G, f)) := by
  unfold visits
  refine (List.perm_ext_iff_of_nodup (List.nodup_flatMap.mpr ⟨fun j _ => ?_, ?_⟩) ?_).mpr fun ⟨t, f⟩ => ?_
  · exact (hnd.filter _).map fun t t' h => (Prod.mk.inj h).1
  · refine List.pairwise_lt_range.imp fun {j j'} hlt => ?_
    intro p hp hp'
    obtain ⟨t, -, rfl⟩ := List.mem_map.mp hp
    obtain ⟨t', -, he⟩ := List.mem_map.mp hp'
    obtain ⟨rfl, he⟩ := Prod.mk.inj he
    have := Nat.mul_lt_mul_of_pos_right hlt hG
    omega
  · exact List.nodup_range.map fun f f' h => (Prod.mk.inj h).2
  · simp only [List.mem_flatMap, List.mem_map, List.mem_range, List.mem_filter, decide_eq_true_eq, Prod.mk.injEq]
    constructor
    · rintro ⟨j, -, t, ⟨ht, hlt⟩, rfl, rfl⟩
      refine ⟨_, hlt, ?_, rfl⟩
      rw [Nat.mul_comm, Nat.mul_add_mod, Nat.mod_eq_of_lt ((hmem t).mp ht)]
    · rintro ⟨f, hf, rfl, rfl⟩
      have hsplit := Nat.div_add_mod' f G
      refine ⟨f / G, ?_, f % G, ⟨(hmem _).mpr (Nat.mod_lt f hG), by omega⟩, rfl, hsplit⟩
      rw [← Nat.add_one_le_iff, Nat.le_div_iff_mul_le hG, Nat.succ_mul]
      omega

end Launch

end SegKernel
