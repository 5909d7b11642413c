import SegKernel.Collective.Scan
import SegKernel.Proofs.Collectives.Starting

/-! Operations on more elements than threads go chunk by chunk. A chunk is an area of its own among all
    elements: what is done to it leaves the others as they are. -/

namespace SegKernel.Collective
open Exp Team

variable {c : Collective} {base base' : Exp} {G : Team} {op : c.lambda.Tuple → c.lambda.Tuple → c.lambda.Tuple}
  {B : Nat → Scope} {n k cnt : Nat} {own : Nat → Memory} {m₀ m m' : Store}

/-- The same operation on scalars in shared memory from a position on. -/
abbrev onShared (c : Collective) (base : Exp) : Collective := ⟨c.launch, c.lambda, c.views, .shared base⟩

/-! ### Chunks of elements -/

namespace Area
variable {A : (c.onShared base).Area} {b : Int64} {f g : c.Contents} {f' : c.Contents} {K : Slot → Prop}
  {T T' : Nat → Thread → Prop} {stmt : Stmt}

/-- The elements from number `k` on, `cnt` of them. -/
def window (A : (c.onShared base).Area) (base' : Exp) {b : Int64} (hplace : A.place = .shared b) (k cnt : Nat)
    (hhas : ∀ e < cnt, A.has 0 (k + e)) : (c.onShared base').Area where
  place := .shared (b + Int64.ofNat k)
  has r e := r = 0 ∧ e < cnt
  valid h := h.1
  lt h := by
    have := A.lt (hhas _ h.2)
    omega
  nonneg := by
    rintro r e l ⟨-, he⟩ hl
    have := A.nonneg (l := 0) (hhas e he) (by rw [hplace]; exact Nat.one_pos)
    rw [hplace] at this
    show 0 ≤ (b + Int64.ofNat k + Int64.ofNat e).toInt
    rwa [Int64.add_assoc, ← Int64.ofNat_add]
  typed := ⟨A.typed.apart, A.typed.types⟩

section Window
variable {hplace : A.place = .shared b} {hhas : ∀ e < cnt, A.has 0 (k + e)}

theorem position_window (r : Int64) (e l : Nat) :
    (A.window base' hplace k cnt hhas).position r e l = A.position 0 (k + e) 0 := by
  unfold position
  rw [hplace]
  show (b + Int64.ofNat k + Int64.ofNat e).toInt.toNat = (b + Int64.ofNat (k + e)).toInt.toNat
  rw [Int64.add_assoc, ← Int64.ofNat_add]

theorem covers_of_window {p : Slot} (h : (A.window base' hplace k cnt hhas).covers p) : A.covers p := by
  obtain ⟨r, e, l, ⟨-, he⟩, -, hslot⟩ := h
  refine ⟨0, k + e, 0, hhas e he, by rw [hplace]; exact Nat.one_pos, ?_⟩
  unfold slots at hslot
  rwa [position_window] at hslot

/-- What all elements hold a chunk holds. -/
theorem Filled.window (hm : A.Filled m₀ f m) :
    (A.window base' hplace k cnt hhas).Filled m (fun _ e l => f 0 (k + e) l) m where
  layout _ _ := rfl
  holds := by
    rintro r e l ⟨-, he⟩ hl
    obtain rfl : l = 0 := Nat.lt_one_iff.mp hl
    rw [position_window]
    exact hm.holds (hhas e he) (by rw [hplace]; exact Nat.one_pos)
  frame _ _ := rfl

/-- What a chunk holds now and the other elements held before, all of them hold. -/
theorem Filled.of_window (hm : A.Filled m₀ f m) (hm' : (A.window base' hplace k cnt hhas).Filled m f' m')
    (hzero : ∀ r e, A.has r e → r = 0) (hin : ∀ e < cnt, g 0 (k + e) 0 = f' 0 e 0)
    (hout : ∀ i, A.has 0 i → (∀ e < cnt, i ≠ k + e) → g 0 i 0 = f 0 i 0) : A.Filled m₀ g m' := by
  have hlane : 0 < A.place.laneCount := by rw [hplace]; exact Nat.one_pos
  refine ⟨fun space array => (hm'.layout space array).trans (hm.layout space array), fun {r i l} h hl => ?_,
    fun p hp => ?_⟩
  · obtain rfl := hzero r i h
    obtain rfl : l = 0 := by rw [hplace] at hl; exact Nat.lt_one_iff.mp hl
    by_cases hi : ∃ e < cnt, i = k + e
    · obtain ⟨e, he, rfl⟩ := hi
      have := hm'.holds (r := 0) (e := e) (l := 0) ⟨rfl, he⟩ Nat.one_pos
      rw [position_window] at this
      rwa [hin e he]
    · rw [hout i h fun e he h => hi ⟨e, he, h⟩]
      refine (hm.holds h hl).of_bits hm'.layout fun p hp => hm'.frame p ?_
      -- A slot of this element belongs to none of the chunk.
      rintro ⟨r, e, l', ⟨-, he⟩, -, hslot⟩
      unfold slots at hslot
      rw [position_window] at hslot
      exact hi ⟨e, he, (slots_inj h (hhas e he) hl hlane hp hslot).2.1⟩
  · exact (hm'.frame p fun h => hp (covers_of_window h)).trans (hm.frame p hp)

/-- What is done to a chunk is done to all elements, of which the others stay as they are. -/
theorem does_of_window (base' : Exp) (hplace : A.place = .shared b) (hhas : ∀ e < cnt, A.has 0 (k + e))
    (f' : c.Contents) (hzero : ∀ r e, A.has r e → r = 0)
    (h : ∀ m, G.Does (A.window base' hplace k cnt hhas).covers T
      ((A.window base' hplace k cnt hhas).Filled m fun _ e l => f 0 (k + e) l) stmt T'
      ((A.window base' hplace k cnt hhas).Filled m f'))
    (hin : ∀ e < cnt, g 0 (k + e) 0 = f' 0 e 0) (hout : ∀ i, A.has 0 i → (∀ e < cnt, i ≠ k + e) → g 0 i 0 = f 0 i 0) :
    G.Does A.covers T (A.Filled m₀ f) stmt T' (A.Filled m₀ g) := by
  refine Does.of_forall fun m hm => ((h m).widen fun _ => covers_of_window).imp (fun _ _ _ => id) ?_ (fun _ _ _ => id)
    fun m' hm' => hm.of_window hm' hzero hin hout
  rintro _ rfl
  exact hm.window

/-- Who can work on all elements can work on a chunk, if he knows where it starts. -/
theorem Manned.window (h : A.Manned G op B n)
    (hbase : ∀ t < G.size, base'.eval (B t) = .ok (.i64 (b + Int64.ofNat k))) :
    (A.window base' hplace k cnt hhas).Manned G op B n where
  before := h.before
  lies := hbase
  computes := h.computes
  localId := h.localId
  wave := h.wave
  groupSize := h.groupSize
  size_eq := h.size_eq
  limit := by
    have := h.limit
    rwa [hplace] at this
  unchecked := h.unchecked
  free := h.free

end Window
end Area

/-! ### One chunk after another -/

theorem ofNat_min {a b : Nat} (ha : a < 2 ^ 63) (hb : b < 2 ^ 63) :
    min (Int64.ofNat a) (Int64.ofNat b) = Int64.ofNat (min a b) := by
  rw [← Int64.toInt_inj, toInt_min, Squad.toInt_ofNat ha, Squad.toInt_ofNat hb, Squad.toInt_ofNat (by omega)]
  omega

theorem lt_chunks {size : Nat} (hsize : 0 < size) : k < (cnt + size - 1) / size ↔ k * size < cnt := by
  rw [← Nat.add_one_le_iff, Nat.le_div_iff_mul_le hsize, Nat.succ_mul]
  omega

/-- The chunks reach up to the last element. -/
theorem le_chunks_mul {size : Nat} (hsize : 0 < size) : cnt ≤ (cnt + size - 1) / size * size := by
  have := Nat.lt_div_mul_add (a := cnt + size - 1) hsize
  omega

theorem chunks_le {size : Int} {width limit : Nat} (hwidth : size = width) (hpos : 0 < width)
    (h : (cnt + size - 1) / size ≤ limit) : (cnt + width - 1) / width ≤ limit := by
  rw [hwidth, show (cnt : Int) + width - 1 = ((cnt + width - 1 : Nat) : Int) by omega, ← Int.natCast_ediv] at h
  exact Int.ofNat_le.mp h

section Rounds
variable {A : c.Area} {w : Exp} (hA : A.Manned G op B n) (hfits : cnt + G.size < 2 ^ 63)
  (hw : ∀ t < G.size, w.eval (B t) = .ok (.i64 (Int64.ofNat cnt)))
include hA hfits hw

/-- How many chunks there are. -/
theorem eval_chunks {t : Nat} (ht : t < G.size) :
    (w.divUp c.launch.groupSize).eval (B t) = .ok (.i64 (Int64.ofNat ((cnt + G.size - 1) / G.size))) := by
  have hpos := G.pos
  have hne : G.ctx.groupSize ≠ 0 := fun h => by
    have hsize := hA.size_eq
    rw [h, Int64.toInt_zero] at hsize
    omega
  rw [eval_divUp (hw t ht) (hA.groupSize t ht) hne, hA.groupSize_eq, ← Int64.ofNat_add, Squad.ofNat_sub_one (by omega),
    Squad.ofNat_div (by omega) (by omega)]

/-- How many elements chunk `k` has. -/
theorem eval_chunkSize (hk : k * G.size < cnt) {t : Nat} (ht : t < G.size) {start : Exp}
    (hstart : start.eval (B t) = .ok (.i64 (Int64.ofNat (k * G.size)))) :
    (w.minimum (start + c.launch.groupSize) - start).eval (B t) =
      .ok (.i64 (Int64.ofNat (min G.size (cnt - k * G.size)))) := by
  have hend : min (Int64.ofNat cnt) (Int64.ofNat (k * G.size) + G.ctx.groupSize) =
      Int64.ofNat (min G.size (cnt - k * G.size)) + Int64.ofNat (k * G.size) := by
    rw [hA.groupSize_eq, ← Int64.ofNat_add, ofNat_min (by omega) (by omega), ← Int64.ofNat_add]
    congr 1
    omega
  have hsize := eval_sub (eval_min (hw t ht) (eval_add hstart (hA.groupSize t ht))) hstart
  rwa [hend, Int64.add_sub_cancel] at hsize

/-- A round finds out where its chunk starts and how many elements it has, and works on it. -/
theorem does_chunkRound (hk : k * G.size < cnt) {K : Slot → Prop} {M M' : Store → Prop} {body : Stmt}
    (hbody : ∀ σ, A.Manned G op σ (n + 3) → (∀ t < G.size, (B t).Le (σ t)) →
      (∀ t < G.size, (Exp.var (numbered "chunk_start" (n + 1))).eval (σ t) = .ok (.i64 (Int64.ofNat (k * G.size)))) →
      (∀ t < G.size, (Exp.var (numbered "chunk_size" (n + 2))).eval (σ t) =
        .ok (.i64 (Int64.ofNat (min G.size (cnt - k * G.size))))) →
        G.Does K (G.Knows σ own) M body (G.Knows σ own) M') :
    G.Does K (Given (G.Knows B own) (numbered "chunk_i" n) (.i64 (Int64.ofNat k))) M (.block [
      .declareInit (numbered "chunk_start" (n + 1)) .i64 (.var (numbered "chunk_i" n) * c.launch.groupSize),
      .declareInit (numbered "chunk_size" (n + 2)) .i64 (w.minimum (.var (numbered "chunk_start" (n + 1)) +
        c.launch.groupSize) - .var (numbered "chunk_start" (n + 1))),
      body]) (G.Knows B own) M' := by
  let σ₁ : Nat → Scope := fun t => (B t).set (numbered "chunk_i" n) (.i64 (Int64.ofNat k))
  let σ₂ : Nat → Scope := fun t => (σ₁ t).set (numbered "chunk_start" (n + 1)) (.i64 (Int64.ofNat (k * G.size)))
  let σ₃ : Nat → Scope := fun t =>
    (σ₂ t).set (numbered "chunk_size" (n + 2)) (.i64 (Int64.ofNat (min G.size (cnt - k * G.size))))
  have hA₁ : A.Manned G op σ₁ (n + 1) := hA.set (by decide)
  have hA₂ : A.Manned G op σ₂ (n + 2) := hA₁.set (by decide)
  have hA₃ : A.Manned G op σ₃ (n + 3) := hA₂.set (by decide)
  have le₁ : ∀ t < G.size, (B t).Le (σ₁ t) := hA.le_set (by decide)
  have le₂ : ∀ t < G.size, (σ₁ t).Le (σ₂ t) := hA₁.le_set (by decide)
  have le₃ : ∀ t < G.size, (σ₂ t).Le (σ₃ t) := hA₂.le_set (by decide)
  have le : ∀ t < G.size, (B t).Le (σ₃ t) := fun t ht => (le₁ t ht).trans ((le₂ t ht).trans (le₃ t ht))
  have hstart : ∀ t, (Exp.var (numbered "chunk_start" (n + 1))).eval (σ₂ t) = .ok (.i64 (Int64.ofNat (k * G.size))) :=
    fun t => eval_var Scope.set_self
  have declareStart : G.Does K (G.Knows σ₁ own) M (.declareInit (numbered "chunk_start" (n + 1)) .i64
      (.var (numbered "chunk_i" n) * c.launch.groupSize)) (G.Knows σ₂ own) M := by
    refine hA₁.declares (by decide) (fun t ht => ?_) fun _ _ => rfl
    rw [Int64.ofNat_mul, ← hA.groupSize_eq]
    exact eval_mul (eval_var Scope.set_self) (hA₁.groupSize t ht)
  have declareSize : G.Does K (G.Knows σ₂ own) M (.declareInit (numbered "chunk_size" (n + 2)) .i64
      (w.minimum (.var (numbered "chunk_start" (n + 1)) + c.launch.groupSize) - .var (numbered "chunk_start" (n + 1))))
      (G.Knows σ₃ own) M :=
    hA₂.declares (by decide) (fun t ht => eval_chunkSize hA₂ hfits
      (fun t ht => eval_mono ((le₁ t ht).trans (le₂ t ht)) (hw t ht)) hk ht (hstart t)) fun _ _ => rfl
  -- The body runs with the start and the size of its chunk.
  have main := hbody σ₃ hA₃ le (fun t ht => eval_mono (le₃ t ht) (hstart t)) fun t _ => eval_var Scope.set_self
  have given : ∀ t < G.size, ∀ th, Given (G.Knows B own) (numbered "chunk_i" n) (.i64 (Int64.ofNat k)) t th →
      G.Knows σ₁ own t th := by
    rintro t - _ ⟨th, hth, rfl⟩
    exact ⟨Thread.set_le_scope_bind hth.1, hth.2⟩
  exact (does_block.mpr (.cons declareStart (.cons declareSize (Does.single main)))).imp given (fun _ => id)
    (Knows.forget le) fun _ => id

end Rounds

/-- The code for a chunk takes the memory from one claim to the next. -/
theorem coverChunks_does (w : Exp) : Fresh.At n (c.launch.coverChunks w) fun n' r => n' = n + 4 ∧
    ∀ (body : Stmt) (A : c.Area) (G : Team) (op : c.lambda.Tuple → c.lambda.Tuple → c.lambda.Tuple) (B : Nat → Scope)
      (own : Nat → Memory) (K : Slot → Prop) (M : Nat → Store → Prop) (cnt : Nat), A.Manned G op B n →
      (∀ t < G.size, w.eval (B t) = .ok (.i64 (Int64.ofNat cnt))) → cnt + G.size < 2 ^ 63 →
      (cnt + G.size - 1) / G.size ≤ G.ctx.loopLimit →
      (∀ k σ, k * G.size < cnt → A.Manned G op σ (n + 4) → (∀ t < G.size, (B t).Le (σ t)) →
        (∀ t < G.size, r.1.eval (σ t) = .ok (.i64 (Int64.ofNat (k * G.size)))) →
        (∀ t < G.size, r.2.1.eval (σ t) = .ok (.i64 (Int64.ofNat (min G.size (cnt - k * G.size))))) →
          G.Does K (G.Knows σ own) (M k) body (G.Knows σ own) (M (k + 1))) →
      G.Does K (G.Knows B own) (M 0) (r.2.2.wrap body) (G.Knows B own) (M ((cnt + G.size - 1) / G.size)) := by
  refine .take (.take (.take (.take (.pure ⟨rfl, ?_⟩))))
  intro body A G op B own K M cnt hA hw hfits hlimit hbody
  let chunks := Int64.ofNat ((cnt + G.size - 1) / G.size)
  have hcount : chunks.toInt.toNat = (cnt + G.size - 1) / G.size := by
    have := Nat.div_le_self (cnt + G.size - 1) G.size
    rw [Squad.toInt_ofNat (by omega), Int.toNat_natCast]
  let σ : Nat → Scope := fun t => (B t).set (numbered "num_chunks" n) (.i64 chunks)
  have hσ : A.Manned G op σ (n + 1) := hA.set (by decide)
  have le : ∀ t < G.size, (B t).Le (σ t) := hA.le_set (by decide)
  have declareChunks : G.Does K (G.Knows B own) (M 0)
      (.declareInit (numbered "num_chunks" n) .i64 (w.divUp c.launch.groupSize)) (G.Knows σ own) (M 0) :=
    hA.declares (by decide) (fun t ht => eval_chunks hA hfits hw ht) fun _ _ => rfl
  have round := fun (k : Nat) (hk : k < chunks.toInt.toNat) =>
    have hk : k * G.size < cnt := (lt_chunks G.pos).mp (hcount ▸ hk)
    does_chunkRound hσ hfits (fun t ht => eval_mono (le t ht) (hw t ht)) hk fun σ' hσ' hle =>
      hbody k σ' hk hσ' fun t ht => (le t ht).trans (hle t ht)
  have loop : G.Does K (G.Knows σ own) (M 0) (.loop _ (.var (numbered "num_chunks" n)) _) (G.Knows σ own)
      (M chunks.toInt.toNat) :=
    Does.loop (fun _ => G.Knows σ own) M (by rwa [hcount])
      (fun t _ th hth => by rw [evalInt, eval_mono hth.1 (eval_var Scope.set_self)]) round
  rw [hcount] at loop
  exact does_block.mpr (.cons declareChunks
    (Does.single (loop.imp (fun _ _ _ => id) (fun _ => id) (Knows.forget le) fun _ => id)))

/-! ### Groups that work on chunks -/

section Groups
variable {ctx : GroupContext} {s : GroupState}

/-- Where the elements lie makes no difference to what a group has to know. -/
theorem Starts.onShared (h : c.Starts ctx s n op) (base : Exp) : (c.onShared base).Starts ctx s n op where
  threads := h.threads
  positive := h.positive
  unchecked := h.unchecked
  localId := h.localId
  wave := h.wave
  groupSize := h.groupSize
  free := h.free
  typed := ⟨h.typed.apart, h.typed.types⟩
  computes := h.computes

/-- The first elements of shared memory: one for each thread of a group, or more. -/
def bench (typed : c.Typed) {size : Nat} (hsize : size < 2 ^ 63) : c.Area where
  place := .shared 0
  has r e := r = 0 ∧ e < size
  valid h := h.1
  lt h := h.2.trans hsize
  nonneg := by
    rintro r e l ⟨-, he⟩ -
    show 0 ≤ (0 + Int64.ofNat e).toInt
    rw [Int64.zero_add, Squad.toInt_ofNat (he.trans hsize)]
    exact Int.natCast_nonneg e
  typed := typed

theorem bench_position {typed : c.Typed} {size : Nat} {hsize : size < 2 ^ 63} {r : Int64} {e l : Nat} (he : e < size) :
    (bench typed hsize).position r e l = e := by
  show (0 + Int64.ofNat e).toInt.toNat = e
  rw [Int64.zero_add, Squad.toInt_ofNat (he.trans hsize), Int.toNat_natCast]

/-- The elements of a collective that works on more elements than there are threads. -/
def Starts.scalars (h : c.Starts ctx s n op) (cnt : Nat) (hcnt : cnt < 2 ^ 63) : (c.onShared (.int 0)).Area :=
  bench ⟨h.typed.apart, h.typed.types⟩ hcnt

section Scalars
variable {hcnt : cnt < 2 ^ 63} (h : c.Starts ctx s n op)

/-- The memory is filled with what it shows. -/
theorem Starts.filled_scalars {a : Nat → c.lambda.Tuple}
    (ha : ∀ e < cnt, (Site.shared 0).Shows c.views s.store 0 e 0 (a e).1) :
    (h.scalars cnt hcnt).Filled s.store (fun _ e _ => a e) s.store where
  layout _ _ := rfl
  holds := by
    rintro r e l ⟨-, he⟩ hl
    obtain rfl : l = 0 := Nat.lt_one_iff.mp hl
    exact (ha e he).2
  frame _ _ := rfl

/-- The threads know what it takes to work on these elements. -/
theorem Starts.manned_scalars (schedule : Schedule) (hlimit : 1 ≤ ctx.loopLimit) :
    (h.scalars cnt hcnt).Manned (h.team schedule) op (knowledge s ctx n) n := by
  have hlies : (c.onShared (.int 0)).layout.LiesAt c.launch 1 ctx s n (.shared 0) := ⟨0, rfl, ⟨nofun, fun _ _ => rfl⟩⟩
  exact (h.onShared (.int 0)).manned schedule hlies hlimit

theorem Starts.covers_scalars {p : Slot} (hp : (h.scalars cnt hcnt).covers p) :
    ∃ e < cnt, tupleSlots c.views e p := by
  obtain ⟨r, e, l, ⟨-, he⟩, -, hslot⟩ := hp
  have hposition : (h.scalars cnt hcnt).position r e l = e := bench_position he
  rw [Area.slots, hposition] at hslot
  exact ⟨e, he, hslot⟩

end Scalars
end Groups

end SegKernel.Collective
