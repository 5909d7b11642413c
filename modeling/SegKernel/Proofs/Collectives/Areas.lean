import SegKernel.Proofs.Collectives.Combining
import SegKernel.Proofs.Execution.Triples
import SegKernel.Proofs.Races.Waves

/-! The elements that a collective operation works on, and what they hold. The elements lie at different
    positions, so an element that is stored changes no other one. A phase in which some threads store an
    element each changes just these elements. -/

namespace SegKernel

/-- The tuples that a lambda combines. -/
abbrev Lambda.Tuple (l : Lambda) : Type := { vs : List Value // vs.map Value.type = l.resultTypes }

/-- The lambda combines all tuples, as an operator on tuples does. -/
def Lambda.Computes (l : Lambda) (outer : Scope) (op : l.Tuple → l.Tuple → l.Tuple) : Prop :=
  ∀ x y, l.Combines outer x.1 y.1 (op x y).1

theorem Lambda.Computes.mono {l : Lambda} {σ τ : Scope} {op : l.Tuple → l.Tuple → l.Tuple} (h : l.Computes σ op)
    (hle : σ.Le τ) : l.Computes τ op := fun x y => (h x y).mono hle

namespace Site

/-- The number of lanes of an element. -/
def laneCount : Site → Nat
  | shared _ => 1
  | rows lanes _ _ => lanes.toInt.toNat

/-- The index of a lane of an element. -/
def spot (place : Site) (region : Int64) (element lane : Nat) : Int64 :=
  place.index region (Int64.ofNat element) (Int64.ofNat lane)

theorem lt_of_laneCount {place : Site} {l : Nat} (h : l < place.laneCount) : l < 2 ^ 63 := by
  cases place with
  | shared base =>
    have : l < 1 := h
    omega
  | rows lanes regionLength first =>
    have : l < lanes.toInt.toNat := h
    have := (fits_toInt lanes).2
    omega

theorem lane_ofNat {place : Site} {l : Nat} (h : l < place.laneCount) : place.Lane (Int64.ofNat l) := by
  have hl := Squad.toInt_ofNat (lt_of_laneCount h)
  cases place with
  | shared base => trivial
  | rows lanes regionLength first =>
    have : l < lanes.toInt.toNat := h
    exact ⟨by omega, by omega⟩

theorem ofNat_inj {a b : Nat} (ha : a < 2 ^ 63) (hb : b < 2 ^ 63) (h : Int64.ofNat a = Int64.ofNat b) : a = b := by
  have := congrArg Int64.toInt h
  rw [Squad.toInt_ofNat ha, Squad.toInt_ofNat hb] at this
  exact Int.ofNat_inj.mp this

/-- Different lanes of different elements have different indices. -/
theorem spot_inj {place : Site} {r r' : Int64} {e e' l l' : Nat} (hv : place.Valid r (Int64.ofNat e))
    (hv' : place.Valid r' (Int64.ofNat e')) (he : e < 2 ^ 63) (he' : e' < 2 ^ 63) (hl : l < place.laneCount)
    (hl' : l' < place.laneCount) (h : place.spot r e l = place.spot r' e' l') : r = r' ∧ e = e' ∧ l = l' := by
  obtain ⟨rfl, hee⟩ := reaches_inj hv hv' ⟨_, lane_ofNat hl, rfl⟩ ⟨_, lane_ofNat hl', h⟩
  refine ⟨rfl, ofNat_inj he he' hee, ?_⟩
  cases place with
  | shared base =>
    have h₁ : l < 1 := hl
    have h₂ : l' < 1 := hl'
    omega
  | rows lanes regionLength first =>
    unfold spot index at h
    rw [hee] at h
    exact ofNat_inj (lt_of_laneCount hl) (lt_of_laneCount hl') ((Int64.add_right_inj _).mp h)

end Site

/-- The memory shows a tuple at a lane of an element. -/
def Site.Shows (place : Site) (views : List View) (m : Store) (r : Int64) (e l : Nat) (vs : List Value) : Prop :=
  0 ≤ (place.spot r e l).toInt ∧ m.HoldsAll views (place.spot r e l).toInt.toNat vs

namespace Collective
open Exp Solo

/-- The value of an address. -/
theorem Lies.eval_address {c : Collective} {σ : Scope} {place : Site} (h : c.Lies σ place) {cell : Cell} {lane : Exp}
    {e l : Nat} (he : cell.element.eval σ = .ok (.i64 (Int64.ofNat e)))
    (hl : lane.eval σ = .ok (.i64 (Int64.ofNat l))) :
    (c.address cell lane).eval σ = .ok (.i64 (place.spot cell.region e l)) := by
  unfold Lies at h
  unfold address Layout.address
  split at h
  · rename_i hlayout
    rw [hlayout]
    exact eval_add h he
  · rename_i hlayout
    rw [hlayout]
    exact eval_add (eval_add (eval_mul rfl h.2.1) (eval_mul (eval_add h.2.2 he) h.1)) hl
  · exact h.elim

/-- Elements of regions that lie at different indices. -/
structure Area (c : Collective) where
  place : Site
  /-- Whether an element of a region is one of them. -/
  has : Int64 → Nat → Prop
  valid : ∀ {r e}, has r e → place.Valid r (Int64.ofNat e)
  lt : ∀ {r e}, has r e → e < 2 ^ 63
  nonneg : ∀ {r e l}, has r e → l < place.laneCount → 0 ≤ (place.spot r e l).toInt
  typed : c.Typed

/-- What the lanes of the elements of regions hold. -/
abbrev Contents (c : Collective) := Int64 → Nat → Nat → c.lambda.Tuple

namespace Area
variable {c : Collective} (A : c.Area)

/-- The position of a lane of an element. -/
def position (r : Int64) (e l : Nat) : Nat := (A.place.spot r e l).toInt.toNat

/-- The slots of a lane of an element. -/
def slots (r : Int64) (e l : Nat) : Slot → Prop := tupleSlots c.views (A.position r e l)

/-- The slots of all elements. -/
def covers (p : Slot) : Prop := ∃ r e l, A.has r e ∧ l < A.place.laneCount ∧ A.slots r e l p

/-- The memory holds some contents, and is otherwise what it was. -/
structure Filled (m₀ : Store) (f : c.Contents) (m : Store) : Prop where
  layout : ∀ space array, m.layout? space array = m₀.layout? space array
  holds : ∀ {r e l}, A.has r e → l < A.place.laneCount → m.HoldsAll c.views (A.position r e l) (f r e l).1
  frame : ∀ p, ¬A.covers p → m.bits? p = m₀.bits? p

/-- What is written when an element is stored. -/
def writes (r : Int64) (e : Nat) (vs : Nat → c.lambda.Tuple) : List Write :=
  (List.range A.place.laneCount).flatMap fun l => tupleWrites c.views (A.position r e l) (vs l).1

variable {A} {m m₀ : Store} {f f' : c.Contents} {r r' : Int64} {e e' l l' : Nat} {p : Slot}

theorem types (A : c.Area) (x : c.lambda.Tuple) : x.1.map Value.type = c.views.map (·.type) := x.2.trans A.typed.types

theorem isInt_position (h : A.has r e) (hl : l < A.place.laneCount) {σ : Scope} {x : Exp}
    (hx : x.eval σ = .ok (.i64 (A.place.spot r e l))) : IsInt σ x (A.position r e l) :=
  ⟨_, hx, by rw [position, Int.toNat_of_nonneg (A.nonneg h hl)]⟩

/-- A slot belongs to one lane of one element. -/
theorem slots_inj (h : A.has r e) (h' : A.has r' e') (hl : l < A.place.laneCount) (hl' : l' < A.place.laneCount)
    (hp : A.slots r e l p) (hp' : A.slots r' e' l' p) : r = r' ∧ e = e' ∧ l = l' := by
  have hposition := tupleSlots_unique hp hp'
  have hn := A.nonneg h hl
  have hn' := A.nonneg h' hl'
  refine Site.spot_inj (A.valid h) (A.valid h') (A.lt h) (A.lt h') hl hl' (Int64.toInt_inj.mp ?_)
  unfold position at hposition
  omega

theorem Filled.reaches (hm : A.Filled m₀ f m) (h : A.has r e) (hl : l < A.place.laneCount) :
    ∀ view ∈ c.views, m.Reaches view (A.position r e l) := (hm.holds h hl).reaches

/-- What the memory holds it shows. -/
theorem Filled.shows (hm : A.Filled m₀ f m) (h : A.has r e) (hl : l < A.place.laneCount) :
    A.place.Shows c.views m r e l (f r e l).1 := ⟨A.nonneg h hl, hm.holds h hl⟩

/-- An element that is stored is there then. -/
theorem Filled.holdsAll_puts_writes (hm : A.Filled m₀ f m) (h : A.has r e) (vs : Nat → c.lambda.Tuple)
    (hl : l < A.place.laneCount) : (m.puts (A.writes r e vs)).HoldsAll c.views (A.position r e l) (vs l).1 := by
  have upTo : ∀ k ≤ A.place.laneCount, ∀ l < k,
      (m.puts ((List.range k).flatMap fun l => tupleWrites c.views (A.position r e l) (vs l).1)).HoldsAll c.views
        (A.position r e l) (vs l).1 := by
    intro k
    induction k with
    | zero => exact fun _ l hl => by omega
    | succ k ih =>
      intro hk l hlk
      rw [List.range_succ, List.flatMap_append, List.flatMap_singleton, Store.puts_append]
      by_cases he : l = k
      · subst he
        exact Store.holdsAll_puts_tupleWrites A.typed.apart (fun view hview => (hm.reaches h hk view hview).puts _)
          (A.types _)
      · refine (ih (by omega) l (by omega)).puts_of_forall_not fun w hw hslot => he ?_
        exact (slots_inj h h (by omega) hk hslot (slot_of_mem_tupleWrites hw)).2.2
  exact upTo _ (Nat.le_refl _) l hl

/-- The elements that threads have stored, each its own one, are there then, and no others have changed. -/
theorem Filled.puts (hm : A.Filled m₀ f m) {size : Nat} {part : Nat → Bool} {dest : Nat → Int64 × Nat}
    {vs : Nat → Nat → c.lambda.Tuple} {es : List (Nat × Write)}
    (hhas : ∀ t < size, part t = true → A.has (dest t).1 (dest t).2)
    (hinj : ∀ t < size, ∀ t' < size, part t = true → part t' = true → dest t = dest t' → t = t')
    (hes : ∀ w ∈ es, w.1 < size ∧ part w.1 = true ∧ ∃ l < A.place.laneCount,
      A.slots (dest w.1).1 (dest w.1).2 l w.2.slot)
    (hwrites : ∀ t < size, writesOf t es = if part t = true then A.writes (dest t).1 (dest t).2 (vs t) else [])
    (hstored : ∀ t < size, part t = true → ∀ l < A.place.laneCount, f' (dest t).1 (dest t).2 l = vs t l)
    (hkept : ∀ r e, A.has r e → (∀ t < size, part t = true → dest t ≠ (r, e)) → ∀ l < A.place.laneCount,
      f' r e l = f r e l) :
    A.Filled m₀ f' (m.puts (es.map (·.2))) := by
  -- The thread that has written to the slots of an element is the one that has stored it.
  have writer : ∀ {w r e l}, w ∈ es → A.has r e → l < A.place.laneCount → A.slots r e l w.2.slot →
    dest w.1 = (r, e) := by
    intro w r e l hw h hl hslot
    obtain ⟨hsize, hpart, l', hl', hslot'⟩ := hes w hw
    obtain ⟨hr, he, -⟩ := slots_inj (hhas _ hsize hpart) h hl' hl hslot' hslot
    exact Prod.ext hr he
  refine ⟨fun space array => (Store.layout?_puts _ _ _).trans (hm.layout space array), fun {r e l} h hl => ?_,
    fun p hp => ?_⟩
  · by_cases hstore : ∃ t < size, part t = true ∧ dest t = (r, e)
    · obtain ⟨t, ht, hpart, hdest⟩ := hstore
      obtain ⟨rfl, rfl⟩ : (dest t).1 = r ∧ (dest t).2 = e := Prod.ext_iff.mp hdest
      have own := hm.holdsAll_puts_writes h (vs t) hl
      rw [hstored t ht hpart l hl]
      refine own.of_bits (fun space array => by rw [Store.layout?_puts, Store.layout?_puts]) fun p hp => ?_
      rw [← Store.bits?_puts_filter (fun w => w.1 == t) es fun w hw hslot => ?_]
      · have := hwrites t ht
        rw [if_pos hpart] at this
        exact congrArg (fun ws => (m.puts ws).bits? p) this
      · obtain ⟨hsize, hpart', -⟩ := hes w hw
        exact beq_iff_eq.mpr (hinj _ hsize t ht hpart' hpart (writer hw h hl (hslot ▸ hp)))
    · rw [hkept r e h (fun t ht hpart hdest => hstore ⟨t, ht, hpart, hdest⟩) l hl]
      refine (hm.holds h hl).puts_of_forall_not fun w hw hslot => hstore ?_
      obtain ⟨⟨t, w⟩, hmem, rfl⟩ := List.mem_map.mp hw
      obtain ⟨hsize, hpart, -⟩ := hes _ hmem
      exact ⟨t, hsize, hpart, writer hmem h hl hslot⟩
  · rw [Store.bits?_puts_of_forall_ne fun w hw hslot => hp ?_]
    · exact hm.frame p hp
    · obtain ⟨w, hmem, rfl⟩ := List.mem_map.mp hw
      obtain ⟨hsize, hpart, l, hl, hslot'⟩ := hes w hmem
      exact ⟨_, _, l, hhas _ hsize hpart, hl, hslot ▸ hslot'⟩

end Area
/-! ### Elementary steps -/

variable {c : Collective} {E : Solo} {σ : Scope} {th : Thread} {Q : Claim} {n : Nat}

/-- The lanes of an element, one after another. -/
theorem ensures_eachLane {body : Exp → Fresh Stmt} {place : Site} (ws : Nat → List Write) (hσ : σ.Before n)
    (hth : σ.Le (E.scope th)) (hlies : c.Lies σ place) (hlimit : place.laneCount ≤ E.ctx.loopLimit)
    (hbody : ∀ l < place.laneCount, ∀ lane m σ' th' (Q' : Claim), σ'.Before m → σ.Le σ' → σ'.Le (E.scope th') →
      lane.eval σ' = .ok (.i64 (Int64.ofNat l)) →
      (∀ th'', σ'.Le (E.scope th'') → th''.arrays = th'.arrays → Q' th'' ((List.range l).flatMap ws ++ ws l)) →
      E.Ensures ((body lane).run m).1 Q' th' ((List.range l).flatMap ws))
    (h : ∀ th', σ.Le (E.scope th') → th'.arrays = th.arrays → Q th' ((List.range place.laneCount).flatMap ws)) :
    E.Ensures ((c.layout.eachLane body).run n).1 Q th [] := by
  unfold Lies at hlies
  unfold Layout.eachLane
  split at hlies
  · rename_i hlayout
    rw [hlayout]
    refine hbody 0 Nat.zero_lt_one (.int 0) n σ th Q hσ (.refl σ) hth rfl fun th' hth' ha => ?_
    simpa [Site.laneCount] using h th' hth' ha
  · rename_i lanes regionLength count length first hlayout
    rw [hlayout]
    show E.Ensures (.loop (numbered "lane" n) lanes ((body (.var (numbered "lane" n))).run (n + 1)).1) Q th []
    have hnew : σ (numbered "lane" n) = none := hσ.fresh (by decide) (Nat.le_refl n)
    rw [Ensures]
    refine ⟨count, by rw [evalInt, eval_mono hth hlies.1], hlimit, fun k th' ws' => σ.Le (E.scope th') ∧
      th'.arrays = th.arrays ∧ ws' = (List.range k).flatMap ws, ⟨hth, rfl, rfl⟩, ?_, ?_⟩
    · rintro k th' ws' hk ⟨hth', ha, rfl⟩
      have hle : σ.Le (σ.set (numbered "lane" n) (.i64 (Int64.ofNat k))) := Scope.le_set hnew
      refine hbody k hk _ (n + 1) (σ.set (numbered "lane" n) (.i64 (Int64.ofNat k))) _ _
        (hσ.set (Nat.le_succ n) (Nat.lt_succ_self n)) hle (Thread.set_le_scope_bind hth') (eval_var Scope.set_self)
        fun th'' hth'' ha'' => ⟨hle.trans hth'', ha''.trans ha, ?_⟩
      rw [List.range_succ, List.flatMap_append, List.flatMap_singleton]
    · rintro th' ws' ⟨hth', ha, rfl⟩
      exact h th' hth' ha
  · exact hlies.elim

/-- The memory in which a thread works, and what it knows of its place. -/
structure Area.Worked (A : c.Area) (E : Solo) (m₀ : Store) (f : c.Contents) (σ : Scope) (n : Nat) : Prop where
  before : σ.Before n
  lies : c.Lies σ A.place
  limit : A.place.laneCount ≤ E.ctx.loopLimit
  filled : A.Filled m₀ f E.store

variable {A : c.Area} {m₀ : Store} {f : c.Contents} {dest left right source : Cell} {d l r : Nat}

/-- An element stays where lanes before another one are stored. -/
theorem Area.Worked.holdsAll (hw : A.Worked E m₀ f σ n) {rd re : Int64} {e k : Nat} {vs : Nat → c.lambda.Tuple}
    (hd : A.has rd d) (he : A.has re e) (hk : k < A.place.laneCount) :
    (E.store.puts ((List.range k).flatMap fun l => tupleWrites c.views (A.position rd d l) (vs l).1)).HoldsAll c.views
      (A.position re e k) (f re e k).1 := by
  refine (hw.filled.holds he hk).puts_of_forall_not fun w hw hslot => ?_
  obtain ⟨l, hl, hw⟩ := List.mem_flatMap.mp hw
  rw [List.mem_range] at hl
  have := (Area.slots_inj he hd hk (by omega) hslot (slot_of_mem_tupleWrites hw)).2.2
  omega

/-- Two elements are combined and stored. -/
theorem ensures_combine {op : c.lambda.Tuple → c.lambda.Tuple → c.lambda.Tuple} {keepRight : Option Exp}
    {keeps volatile : Bool} (hw : A.Worked E m₀ f σ n) (hth : σ.Le (E.scope th)) (hop : c.lambda.Computes σ op)
    (hd : dest.element.eval σ = .ok (.i64 (Int64.ofNat d))) (hl : left.element.eval σ = .ok (.i64 (Int64.ofNat l)))
    (hr : right.element.eval σ = .ok (.i64 (Int64.ofNat r))) (hasd : A.has dest.region d) (hasl : A.has left.region l)
    (hasr : A.has right.region r) (hkl : ∀ k < A.place.laneCount, ∀ p, A.slots left.region l k p → E.Keeps p)
    (hkr : ∀ k < A.place.laneCount, ∀ p, A.slots right.region r k p → E.Keeps p)
    (hown : ∀ k < A.place.laneCount, ∀ p, A.slots dest.region d k p → E.own E.id p) (hkeep : Keeping σ keepRight keeps)
    (h : ∀ th', σ.Le (E.scope th') → th'.arrays = th.arrays → Q th' (A.writes dest.region d fun k =>
      if keeps then f right.region r k else op (f left.region l k) (f right.region r k))) :
    E.Ensures ((c.combine dest left right keepRight volatile).run n).1 Q th [] := by
  refine ensures_eachLane _ hw.before hth hw.lies hw.limit
    (fun k hk lane m σ' th' Q' hσ' hle hth' hlane hQ' => ?_) h
  have hlies := hw.lies.mono hle
  refine ensures_combineLane A.typed hσ' hth'
    (Area.isInt_position hasd hk (hlies.eval_address (eval_mono hle hd) hlane))
    (Area.isInt_position hasl hk (hlies.eval_address (eval_mono hle hl) hlane))
    (Area.isInt_position hasr hk (hlies.eval_address (eval_mono hle hr) hlane)) (hw.holdsAll hasd hasl hk)
    (hw.holdsAll hasd hasr hk) (hkl k hk) (hkr k hk) (hw.filled.reaches hasd hk) (hown k hk)
    (hop.mono hle (f left.region l k) (f right.region r k)) (A.types _) (hkeep.mono hle) fun th'' hth'' ha'' => ?_
  have := hQ' th'' hth'' ha''
  dsimp only at this
  rwa [apply_ite Subtype.val] at this

/-- An element is copied. -/
theorem ensures_copy (hw : A.Worked E m₀ f σ n) (hth : σ.Le (E.scope th))
    (hd : dest.element.eval σ = .ok (.i64 (Int64.ofNat d))) (hl : source.element.eval σ = .ok (.i64 (Int64.ofNat l)))
    (hasd : A.has dest.region d) (hasl : A.has source.region l)
    (hkl : ∀ k < A.place.laneCount, ∀ p, A.slots source.region l k p → E.Keeps p)
    (hown : ∀ k < A.place.laneCount, ∀ p, A.slots dest.region d k p → E.own E.id p)
    (h : ∀ th', σ.Le (E.scope th') → th'.arrays = th.arrays → Q th' (A.writes dest.region d (f source.region l))) :
    E.Ensures ((c.copy dest source).run n).1 Q th [] := by
  refine ensures_eachLane _ hw.before hth hw.lies hw.limit
    (fun k hk lane m σ' th' Q' hσ' hle hth' hlane hQ' => ?_) h
  have hlies := hw.lies.mono hle
  exact ensures_copyLane A.typed hσ' hth' (Area.isInt_position hasd hk (hlies.eval_address (eval_mono hle hd) hlane))
    (Area.isInt_position hasl hk (hlies.eval_address (eval_mono hle hl) hlane)) (hw.holdsAll hasd hasl hk) (hkl k hk)
    (hw.filled.reaches hasd hk) (hown k hk) hQ'

/-! ### Phases -/

namespace Area

/-- In a phase a thread that takes part may write to the element that it stores. -/
def owns (A : c.Area) (size : Nat) (part : Nat → Bool) (dest : Nat → Int64 × Nat) (t : Nat) (p : Slot) : Prop :=
  t < size ∧ part t = true ∧ ∃ l < A.place.laneCount, A.slots (dest t).1 (dest t).2 l p

variable {G : Team} {part : Nat → Bool} {dest' : Nat → Int64 × Nat} {vs : Nat → Nat → c.lambda.Tuple} {f' : c.Contents}
  {T T' : Nat → Thread → Prop} {stmt : Stmt} {m : Store} {t : Nat}

/-- An element that no other thread stores can be read. -/
theorem keeps_of_others (hhas : ∀ t < G.size, part t = true → A.has (dest' t).1 (dest' t).2) {r : Int64} {e k : Nat}
    {p : Slot} (h : A.has r e) (hk : k < A.place.laneCount) (hp : A.slots r e k p)
    (hother : ∀ t' < G.size, part t' = true → t' ≠ t → dest' t' ≠ (r, e)) :
    (G.among A.covers (A.owns G.size part dest') m t).Keeps p := by
  refine Team.keeps_among ⟨r, e, k, h, hk, hp⟩ ?_
  rintro t' hne ⟨hsize, hpart, l, hl, hslot⟩
  obtain ⟨hr, he, -⟩ := slots_inj (hhas t' hsize hpart) h hl hk hslot hp
  exact hother t' hsize hpart hne (Prod.ext hr he)

variable (part dest' vs) in
/-- A phase in which threads store elements, each its own one. -/
theorem does_stores (hoff : G.ctx.checkRaces = false)
    (hhas : ∀ t < G.size, part t = true → A.has (dest' t).1 (dest' t).2)
    (hinj : ∀ t < G.size, ∀ t' < G.size, part t = true → part t' = true → dest' t = dest' t' → t = t')
    (hstart : ∀ m, A.Filled m₀ f m → ∀ t < G.size, ∀ th, T t th →
      (G.among A.covers (A.owns G.size part dest') m t).Ensures stmt
        (fun th' ws => T' t th' ∧ ws = if part t = true then A.writes (dest' t).1 (dest' t).2 (vs t) else []) th [])
    (hstored : ∀ t < G.size, part t = true → ∀ k < A.place.laneCount, f' (dest' t).1 (dest' t).2 k = vs t k)
    (hkept : ∀ r e, A.has r e → (∀ t < G.size, part t = true → dest' t ≠ (r, e)) →
      ∀ k < A.place.laneCount, f' r e k = f r e k) :
    G.Does A.covers T (A.Filled m₀ f) stmt T' (A.Filled m₀ f') := by
  refine Team.Does.of_forall fun m hm => Team.Does.phase hoff (A.owns G.size part dest') _ (hstart m hm)
    (fun _ _ _ _ hQ => hQ.1) fun es hes hQ => ?_
  refine hm.puts hhas hinj (fun w hw => (hes w hw).2) (fun t ht => ?_) hstored hkept
  obtain ⟨-, -, hws⟩ := hQ t ht
  exact hws

/-- What the threads of a group know when they work on an area with code that takes names from number
    `n` on. -/
structure Manned (A : c.Area) (G : Team) (op : c.lambda.Tuple → c.lambda.Tuple → c.lambda.Tuple) (B : Nat → Scope)
    (n : Nat) :
    Prop where
  before : ∀ t < G.size, (B t).Before n
  lies : ∀ t < G.size, c.Lies (B t) A.place
  computes : ∀ t < G.size, c.lambda.Computes (B t) op
  localId : ∀ t < G.size, c.launch.ltid.eval (B t) = .ok (.i64 (Int64.ofNat t))
  wave : ∀ t < G.size, c.launch.wave.eval (B t) = .ok (.i64 G.ctx.wave)
  groupSize : ∀ t < G.size, c.launch.groupSize.eval (B t) = .ok (.i64 G.ctx.groupSize)
  size_eq : G.ctx.groupSize.toInt = G.size
  limit : A.place.laneCount ≤ G.ctx.loopLimit
  unchecked : G.ctx.checkRaces = false
  free : ∀ x, New n x → G.ctx.captured[x]? = none

namespace Manned
variable {op : c.lambda.Tuple → c.lambda.Tuple → c.lambda.Tuple} {B B' : Nat → Scope} {n' : Nat} {v : Nat → Value}

/-- More may be known, if it is not known of names that are new then. -/
theorem mono (h : A.Manned G op B n) (hle : ∀ t < G.size, (B t).Le (B' t)) (hbefore : ∀ t < G.size, (B' t).Before n')
    (hn : n ≤ n') : A.Manned G op B' n' where
  before := hbefore
  lies t ht := (h.lies t ht).mono (hle t ht)
  computes t ht := (h.computes t ht).mono (hle t ht)
  localId t ht := eval_mono (hle t ht) (h.localId t ht)
  wave t ht := eval_mono (hle t ht) (h.wave t ht)
  groupSize t ht := eval_mono (hle t ht) (h.groupSize t ht)
  size_eq := h.size_eq
  limit := h.limit
  unchecked := h.unchecked
  free x hx := h.free x (hx.mono hn)

/-- Later names are new all the more. -/
theorem later (h : A.Manned G op B n) (hn : n ≤ n') : A.Manned G op B n' :=
  h.mono (fun _ _ => .refl _) (fun t ht => (h.before t ht).mono hn) hn

theorem size_lt (h : A.Manned G op B n) : G.size < 2 ^ 63 := by
  have := (fits_toInt G.ctx.groupSize).2
  have := h.size_eq
  omega

theorem groupSize_eq (h : A.Manned G op B n) : G.ctx.groupSize = Int64.ofNat G.size := by
  rw [← Int64.toInt_inj, h.size_eq, Squad.toInt_ofNat h.size_lt]

/-- The next new name can be given a value. -/
theorem set (h : A.Manned G op B n) {stem : String}
    (hstem : stem ∈ uniformStems ++ ownStems ++ arrayStems ++ kernelStems) :
    A.Manned G op (fun t => (B t).set (numbered stem n) (v t)) (n + 1) :=
  h.mono (fun t ht => Scope.le_set ((h.before t ht).fresh hstem (Nat.le_refl n)))
    (fun t ht => (h.before t ht).set (Nat.le_succ n) (Nat.lt_succ_self n)) (Nat.le_succ n)

theorem le_set (h : A.Manned G op B n) {stem : String}
    (hstem : stem ∈ uniformStems ++ ownStems ++ arrayStems ++ kernelStems) :
    ∀ t < G.size, (B t).Le ((B t).set (numbered stem n) (v t)) := fun t ht =>
  Scope.le_set ((h.before t ht).fresh hstem (Nat.le_refl n))

/-- The next new name is declared. -/
theorem declares (h : A.Manned G op B n) {own : Nat → Memory} {M : Store → Prop} {K : Slot → Prop} {stem : String}
    {x : Exp} (hstem : stem ∈ uniformStems ++ ownStems ++ arrayStems ++ kernelStems) {type : ScalarType}
    (hx : ∀ t < G.size, x.eval (B t) = .ok (v t)) (htype : ∀ t < G.size, (v t).type = type) :
    G.Does K (G.Knows B own) M (.declareInit (numbered stem n) type x)
      (G.Knows (fun t => (B t).set (numbered stem n) (v t)) own) M :=
  Team.Does.declareInit h.unchecked (fun t ht => (h.before t ht).fresh hstem (Nat.le_refl n)) hx htype

theorem worked (hA : A.Manned G op B n) (ht : t < G.size) (own : Nat → Slot → Prop) (hm : A.Filled m₀ f m) :
    A.Worked (G.among A.covers own m t) m₀ f (B t) n where
  before := hA.before t ht
  lies := hA.lies t ht
  limit := hA.limit
  filled := hm

variable {own : Nat → Memory} {cond : Exp} {d l r : Nat → Nat} {dest left right source : Cell}

variable (part d l r) in
/-- The threads for which a condition holds combine two elements each. No one stores what another one
    reads. -/
theorem does_combine (keeps : Nat → Bool) (hA : A.Manned G op B n) {keepRight : Option Exp} {volatile : Bool}
    (hcond : ∀ t < G.size, IsBool (B t) cond (part t))
    (hd : ∀ t < G.size, part t = true → dest.element.eval (B t) = .ok (.i64 (Int64.ofNat (d t))) ∧
      A.has dest.region (d t))
    (hl : ∀ t < G.size, part t = true → left.element.eval (B t) = .ok (.i64 (Int64.ofNat (l t))) ∧
      A.has left.region (l t))
    (hr : ∀ t < G.size, part t = true →
      right.element.eval (B t) = .ok (.i64 (Int64.ofNat (r t))) ∧ A.has right.region (r t))
    (hkeep : ∀ t < G.size, part t = true → Keeping (B t) keepRight (keeps t))
    (hinj : ∀ t < G.size, ∀ t' < G.size, part t = true → part t' = true → d t = d t' → t = t')
    (hleft : ∀ t < G.size, ∀ t' < G.size, part t = true → part t' = true → t' ≠ t →
      (dest.region, d t') ≠ (left.region, l t))
    (hright : ∀ t < G.size, ∀ t' < G.size, part t = true → part t' = true → t' ≠ t →
      (dest.region, d t') ≠ (right.region, r t))
    (hstored : ∀ t < G.size, part t = true → ∀ k < A.place.laneCount, f' dest.region (d t) k =
      if keeps t then f right.region (r t) k else op (f left.region (l t) k) (f right.region (r t) k))
    (hkept : ∀ r e, A.has r e → (∀ t < G.size, part t = true → (dest.region, d t) ≠ (r, e)) →
      ∀ k < A.place.laneCount, f' r e k = f r e k) :
    G.Does A.covers (G.Knows B own) (A.Filled m₀ f)
      (.when cond ((c.combine dest left right keepRight volatile).run n).1) (G.Knows B own) (A.Filled m₀ f') := by
  refine does_stores part (fun t => (dest.region, d t)) _ hA.unchecked (fun t ht hp => (hd t ht hp).2)
    (fun t ht t' ht' hp hp' h => hinj t ht t' ht' hp hp' (congrArg Prod.snd h)) (fun m hm t ht th hth => ?_)
      hstored hkept
  refine ensures_when ((hcond t ht).mono hth.1) (fun hp => ?_) fun hp => ⟨hth, by simp [hp]⟩
  have hhas : ∀ t < G.size, part t = true → A.has dest.region (d t) := fun t ht hp => (hd t ht hp).2
  refine ensures_combine (hA.worked ht _ hm) hth.1 (hA.computes t ht) (hd t ht hp).1 (hl t ht hp).1 (hr t ht hp).1
    (hd t ht hp).2
    (hl t ht hp).2 (hr t ht hp).2 (fun k hk p hslot => ?_) (fun k hk p hslot => ?_)
    (fun k hk p hslot => Team.own_among ⟨ht, hp, k, hk, hslot⟩) (hkeep t ht hp)
    fun th' hth' ha => ⟨⟨hth', ha.trans hth.2⟩, by rw [if_pos hp]⟩
  · exact keeps_of_others hhas (hl t ht hp).2 hk hslot fun t' ht' hp' hne => hleft t ht t' ht' hp hp' hne
  · exact keeps_of_others hhas (hr t ht hp).2 hk hslot fun t' ht' hp' hne => hright t ht t' ht' hp hp' hne

variable (part d l) in
/-- The threads for which a condition holds copy an element each. -/
theorem does_copy (hA : A.Manned G op B n) (hcond : ∀ t < G.size, IsBool (B t) cond (part t))
    (hd : ∀ t < G.size, part t = true → dest.element.eval (B t) = .ok (.i64 (Int64.ofNat (d t))) ∧
      A.has dest.region (d t))
    (hl : ∀ t < G.size, part t = true →
      source.element.eval (B t) = .ok (.i64 (Int64.ofNat (l t))) ∧ A.has source.region (l t))
    (hinj : ∀ t < G.size, ∀ t' < G.size, part t = true → part t' = true → d t = d t' → t = t')
    (hsource : ∀ t < G.size, ∀ t' < G.size, part t = true → part t' = true → t' ≠ t →
      (dest.region, d t') ≠ (source.region, l t))
    (hstored : ∀ t < G.size, part t = true → ∀ k < A.place.laneCount, f' dest.region (d t) k = f source.region (l t) k)
    (hkept : ∀ r e, A.has r e → (∀ t < G.size, part t = true → (dest.region, d t) ≠ (r, e)) →
      ∀ k < A.place.laneCount, f' r e k = f r e k) :
    G.Does A.covers (G.Knows B own) (A.Filled m₀ f) (.when cond ((c.copy dest source).run n).1) (G.Knows B own)
      (A.Filled m₀ f') := by
  refine does_stores part (fun t => (dest.region, d t)) _ hA.unchecked (fun t ht hp => (hd t ht hp).2)
    (fun t ht t' ht' hp hp' h => hinj t ht t' ht' hp hp' (congrArg Prod.snd h)) (fun m hm t ht th hth => ?_)
      hstored hkept
  refine ensures_when ((hcond t ht).mono hth.1) (fun hp => ?_) fun hp => ⟨hth, by simp [hp]⟩
  have hhas : ∀ t < G.size, part t = true → A.has dest.region (d t) := fun t ht hp => (hd t ht hp).2
  refine ensures_copy (hA.worked ht _ hm) hth.1 (hd t ht hp).1 (hl t ht hp).1 (hd t ht hp).2 (hl t ht hp).2
    (fun k hk p hslot => ?_) (fun k hk p hslot => Team.own_among ⟨ht, hp, k, hk, hslot⟩)
    fun th' hth' ha => ⟨⟨hth', ha.trans hth.2⟩, by rw [if_pos hp]⟩
  exact keeps_of_others hhas (hl t ht hp).2 hk hslot fun t' ht' hp' hne => hsource t ht t' ht' hp hp' hne

end Manned
end Area
end Collective
end SegKernel
