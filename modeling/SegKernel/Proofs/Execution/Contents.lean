import SegKernel.Proofs.Evaluation.Known
import SegKernel.Proofs.Execution.Solo

/-! The values in the memory that threads share, as a view shows them, and the accesses of a thread to
    them. -/

namespace SegKernel

namespace Store
variable {m m' : Store} {view : View} {i : Nat} {v : Value}

/-- An array has an element of the width of the view at a position. -/
def Reaches (m : Store) (view : View) (i : Nat) : Prop :=
  ∃ type n, m.layout? view.space view.array = some (type, n) ∧ type.bitWidth = view.type.bitWidth ∧ i < n

/-- A view shows a value at a position. -/
structure Holds (m : Store) (view : View) (i : Nat) (v : Value) : Prop where
  reaches : m.Reaches view i
  bits : ∃ bits, m.bits? ⟨view.space, view.array, i⟩ = some bits ∧ Value.ofBits view.type bits = v

theorem Reaches.of_layout (h : m.Reaches view i)
    (hlayout : m'.layout? view.space view.array = m.layout? view.space view.array) : m'.Reaches view i := by
  obtain ⟨type, n, hl, hw, hi⟩ := h
  exact ⟨type, n, hlayout.trans hl, hw, hi⟩

theorem Reaches.puts (h : m.Reaches view i) (ws : List Write) : (m.puts ws).Reaches view i :=
  h.of_layout (layout?_puts ws _ _)

theorem Reaches.mono {j : Nat} (h : m.Reaches view i) (hj : j ≤ i) : m.Reaches view j := by
  obtain ⟨type, n, hl, hw, hi⟩ := h
  exact ⟨type, n, hl, hw, Nat.lt_of_le_of_lt hj hi⟩

theorem Reaches.buffer (h : m.Reaches view i) : ∃ b, m.buffer? view.space view.array = some b ∧
    b.type.bitWidth = view.type.bitWidth ∧ i < b.bits.size := by
  obtain ⟨type, n, hl, hw, hi⟩ := h
  obtain ⟨b, hb, he⟩ := Option.map_eq_some_iff.mp hl
  cases he
  exact ⟨b, hb, hw, hi⟩

theorem Reaches.space_ne (h : m.Reaches view i) : view.space ≠ .thread := by
  obtain ⟨b, hb, -⟩ := h.buffer
  intro e
  rw [e] at hb
  cases hb

theorem Reaches.position (h : m.Reaches view i) {a : Int64} (ha : a.toInt = i) : m.position view a = .ok i := by
  obtain ⟨b, hb, hw, hi⟩ := h.buffer
  unfold Store.position
  rw [hb]
  dsimp only
  unfold Buffer.position
  rw [if_neg (by simp [hw]), if_pos ⟨by omega, by omega⟩, ha]
  rfl

theorem Reaches.isSome_bits? (h : m.Reaches view i) : (m.bits? ⟨view.space, view.array, i⟩).isSome = true := by
  obtain ⟨b, hb, -, hi⟩ := h.buffer
  unfold bits?
  rw [hb]
  simpa using hi

theorem Holds.type (h : m.Holds view i v) : v.type = view.type := by
  obtain ⟨bits, -, rfl⟩ := h.bits
  exact Value.type_ofBits _ _

theorem Holds.load (h : m.Holds view i v) {a : Int64} (ha : a.toInt = i) : m.load view a = .ok v := by
  obtain ⟨bits, hbits, rfl⟩ := h.bits
  exact load_eq_ok.mpr ⟨i, bits, h.reaches.position ha, hbits, rfl⟩

theorem Holds.unique {w : Value} (h : m.Holds view i v) (h' : m.Holds view i w) : v = w := by
  obtain ⟨bits, hbits, rfl⟩ := h.bits
  obtain ⟨bits', hbits', rfl⟩ := h'.bits
  rw [hbits] at hbits'
  cases hbits'
  rfl

/-- What a view shows depends on the layout of its array and on the bits at the position. -/
theorem Holds.of_bits (h : m.Holds view i v)
    (hlayout : m'.layout? view.space view.array = m.layout? view.space view.array)
    (hbits : m'.bits? ⟨view.space, view.array, i⟩ = m.bits? ⟨view.space, view.array, i⟩) : m'.Holds view i v :=
  ⟨h.reaches.of_layout hlayout, by rw [hbits]; exact h.bits⟩

theorem Reaches.holds_put (h : m.Reaches view i) (hv : v.type = view.type) :
    (m.put ⟨⟨view.space, view.array, i⟩, v.toBits⟩).Holds view i v := by
  refine ⟨h.of_layout (layout?_put _ _ _), v.toBits, ?_, by rw [← hv, Value.ofBits_toBits]⟩
  obtain ⟨bits, hbits⟩ := Option.isSome_iff_exists.mp h.isSome_bits?
  rw [bits?_put, if_pos rfl, hbits]
  rfl

theorem Holds.put_of_ne {w : Write} (h : m.Holds view i v) (hw : w.slot ≠ ⟨view.space, view.array, i⟩) :
    (m.put w).Holds view i v :=
  h.of_bits (layout?_put _ _ _) (by rw [bits?_put, if_neg hw])

theorem Holds.puts_of_forall_ne {ws : List Write} (h : m.Holds view i v)
    (hws : ∀ w ∈ ws, w.slot ≠ ⟨view.space, view.array, i⟩) : (m.puts ws).Holds view i v :=
  h.of_bits (layout?_puts _ _ _) (bits?_puts_of_forall_ne hws)

end Store

namespace Solo
open Exp
variable {E : Solo} {σ : Scope} {Q : Claim} {th : Thread} {ws : List Write} {view : View} {index x : Exp} {i : Nat}
  {v : Value} {name : Ident}

/-- The names that the host does not have. -/
def Free (E : Solo) (name : Ident) : Prop := E.ctx.captured[name]? = none

theorem ensures_declare {type : ScalarType} {volatile : Bool} (h : Q (th.bind name (.zero type)) ws) :
    E.Ensures (.declare name type volatile) Q th ws := by
  rwa [Ensures]

/-- A new variable gets its first value. -/
theorem ensures_declareInit_of_known {type : ScalarType} (hσ : σ.Le (E.scope th)) (hname : σ name = none)
    (hx : x.eval σ = .ok v) (hv : v.type = type)
    (h : ∀ th', (σ.set name v).Le (E.scope th') → th'.arrays = th.arrays → Q th' ws) :
    E.Ensures (.declareInit name type x) Q th ws := by
  rw [Stmt.declareInit, ensures_seq, ensuresAll_cons, ensuresAll_singleton]
  have hdeclared : (th.bind name (.zero type)).scalars[name]? = some (.zero type) := by simp [Thread.bind]
  refine ensures_declare (ensures_set (v := v) ?_ hdeclared
    (by simp [hv]) ?_)
  · exact eval_mono (Thread.le_scope_bind hσ hname) hx
  · rw [Thread.bind_bind]
    exact h _ (Thread.set_le_scope_bind hσ) rfl

/-- A variable of the thread gets another value. -/
theorem ensures_set_of_known {old : Value} (hσ : σ.Le (E.scope th)) (hfree : E.Free name) (hold : σ name = some old)
    (hx : x.eval σ = .ok v) (hv : old.type = v.type)
    (h : ∀ th', (σ.set name v).Le (E.scope th') → th'.arrays = th.arrays → Q th' ws) :
    E.Ensures (.set name x) Q th ws :=
  ensures_set (eval_mono hσ hx) (Thread.own_of_known hσ hfree hold) hv (h _ (Thread.set_le_scope_bind hσ) rfl)

/-- A new variable gets the value of an element. -/
theorem ensures_load {type : ScalarType} {volatile : Bool} {rest : List Stmt} (hσ : σ.Le (E.scope th))
    (hname : σ name = none) (hi : IsInt σ index i) (hv : (E.store.puts ws).Holds view i v) (htype : type = view.type)
    (hkeeps : E.Keeps ⟨view.space, view.array, i⟩)
    (h : ∀ th', (σ.set name v).Le (E.scope th') → th'.arrays = th.arrays → E.EnsuresAll rest Q th' ws) :
    E.EnsuresAll (.declare name type volatile :: .read name view index :: rest) Q th ws := by
  rw [ensuresAll_cons, ensuresAll_cons]
  refine ensures_declare ?_
  obtain ⟨a, ha, hi⟩ := (hi.mono (Thread.le_scope_bind (v := .zero type) hσ hname)).evalInt
  rw [Ensures]
  refine ⟨a, v, ha, ?_, ⟨.zero type, by simp [Thread.bind], by simp [htype, hv.type]⟩, ?_⟩
  · unfold Loads
    have hspace := hv.reaches.space_ne
    split
    · exact absurd ‹_› hspace
    · exact ⟨by rwa [hi], hv.load hi⟩
  · rw [Thread.bind_bind]
    exact h _ (Thread.set_le_scope_bind hσ) rfl

/-- An element gets a value. -/
theorem ensures_write (hσ : σ.Le (E.scope th)) (hi : IsInt σ index i) (hx : x.eval σ = .ok v) (hv : v.type = view.type)
    (hreaches : E.store.Reaches view i) (hown : E.own E.id ⟨view.space, view.array, i⟩)
    (h : Q th (ws ++ [⟨⟨view.space, view.array, i⟩, v.toBits⟩])) : E.Ensures (.write view index x) Q th ws := by
  obtain ⟨a, ha, hi⟩ := (hi.mono hσ).evalInt
  rw [Ensures]
  refine ⟨a, v, ha, eval_mono hσ hx, hv, ?_⟩
  have hspace := hreaches.space_ne
  split
  · exact absurd ‹_› hspace
  · exact ⟨i, hreaches.position hi, hown, h⟩

end Solo

/-! ## Tuples

Tuples in the memory that threads share. The components of a tuple lie at the same position of different
arrays. -/

namespace View

/-- Two views show one array. -/
def SameArray (v w : View) : Prop := v.space = w.space ∧ v.array = w.array

theorem slot_eq_iff {v w : View} {i j : Nat} : v.slot i = w.slot j ↔ v.SameArray w ∧ i = j := by
  simp [slot, SameArray, and_assoc]

end View

/-- No two of the views show one array. -/
abbrev ViewsApart (views : List View) : Prop := views.Pairwise fun v w => ¬v.SameArray w

/-- The slots of the tuple at a position. -/
def tupleSlots (views : List View) (i : Nat) (p : Slot) : Prop := ∃ view ∈ views, p = view.slot i

theorem tupleSlots_unique {views : List View} {i j : Nat} {p : Slot} (h : tupleSlots views i p)
    (h' : tupleSlots views j p) : i = j := by
  obtain ⟨v, -, rfl⟩ := h
  obtain ⟨w, -, e⟩ := h'
  exact (View.slot_eq_iff.mp e).2

/-- What is written when a tuple is stored. -/
def tupleWrites (views : List View) (i : Nat) (vs : List Value) : List Write :=
  (views.zip vs).map fun p => ⟨p.1.slot i, p.2.toBits⟩

theorem slot_of_mem_tupleWrites {views : List View} {i : Nat} {vs : List Value} {w : Write}
    (h : w ∈ tupleWrites views i vs) : tupleSlots views i w.slot := by
  obtain ⟨p, hp, rfl⟩ := List.mem_map.mp h
  exact ⟨p.1, (List.of_mem_zip hp).1, rfl⟩

namespace Store
variable {m : Store} {views : List View} {i : Nat} {vs : List Value}

/-- The views show a tuple at a position. -/
def HoldsAll (m : Store) (views : List View) (i : Nat) (vs : List Value) : Prop :=
  List.Forall₂ (fun view v => m.Holds view i v) views vs

theorem HoldsAll.length (h : m.HoldsAll views i vs) : vs.length = views.length := (List.Forall₂.length_eq h).symm

theorem HoldsAll.types (h : m.HoldsAll views i vs) : vs.map Value.type = views.map (·.type) := by
  induction h with
  | nil => rfl
  | cons hv _ ih => rw [List.map_cons, List.map_cons, hv.type, ih]

theorem HoldsAll.unique {ws : List Value} (h : m.HoldsAll views i vs) (h' : m.HoldsAll views i ws) : vs = ws := by
  unfold HoldsAll at h
  induction h generalizing ws with
  | nil =>
    cases h'
    rfl
  | cons hv _ ih =>
    cases h' with
    | cons hw hws => rw [hv.unique hw, ih hws]

theorem HoldsAll.reaches (h : m.HoldsAll views i vs) : ∀ view ∈ views, m.Reaches view i := by
  unfold HoldsAll at h
  induction h with
  | nil => simp
  | cons hv _ ih =>
    intro view hview
    rcases List.mem_cons.mp hview with rfl | hview
    · exact hv.reaches
    · exact ih view hview

/-- A tuple stays where nothing is written to its slots. -/
theorem HoldsAll.puts_of_forall_not {ws : List Write} (h : m.HoldsAll views i vs)
    (hws : ∀ w ∈ ws, ¬tupleSlots views i w.slot) : (m.puts ws).HoldsAll views i vs := by
  unfold HoldsAll at h
  induction h with
  | nil => exact .nil
  | @cons view v views vs hv _ ih =>
    refine .cons (hv.puts_of_forall_ne fun w hw e => hws w hw ⟨view, List.mem_cons_self, e⟩) (ih fun w hw => ?_)
    rintro ⟨view', hview', e⟩
    exact hws w hw ⟨view', List.mem_cons_of_mem _ hview', e⟩

/-- A tuple depends on the layouts of its arrays and on the bits of its slots. -/
theorem HoldsAll.of_views {m' : Store} (h : m.HoldsAll views i vs)
    (hlayout : ∀ view ∈ views, m'.layout? view.space view.array = m.layout? view.space view.array)
    (hbits : ∀ p, tupleSlots views i p → m'.bits? p = m.bits? p) : m'.HoldsAll views i vs := by
  unfold HoldsAll at h
  induction h with
  | nil => exact .nil
  | @cons view v views vs hv _ ih =>
    refine .cons (hv.of_bits (hlayout _ List.mem_cons_self) (hbits _ ⟨view, List.mem_cons_self, rfl⟩))
      (ih (fun view' hview' => hlayout view' (List.mem_cons_of_mem _ hview')) fun p hp => ?_)
    obtain ⟨view', hview', e⟩ := hp
    exact hbits p ⟨view', List.mem_cons_of_mem _ hview', e⟩

theorem HoldsAll.of_bits {m' : Store} (h : m.HoldsAll views i vs)
    (hlayout : ∀ space array, m'.layout? space array = m.layout? space array)
    (hbits : ∀ p, tupleSlots views i p → m'.bits? p = m.bits? p) : m'.HoldsAll views i vs :=
  h.of_views (fun _ _ => hlayout _ _) hbits

/-- A tuple that is stored is there then. -/
theorem holdsAll_puts_tupleWrites (happart : ViewsApart views) (hreaches : ∀ view ∈ views, m.Reaches view i)
    (htypes : vs.map Value.type = views.map (·.type)) : (m.puts (tupleWrites views i vs)).HoldsAll views i vs := by
  induction views generalizing m vs with
  | nil =>
    rw [List.map_nil, List.map_eq_nil_iff] at htypes
    rw [htypes]
    exact .nil
  | cons view views ih =>
    cases vs with
    | nil => simp at htypes
    | cons v vs =>
      rw [List.map_cons, List.map_cons, List.cons.injEq] at htypes
      obtain ⟨hne, happart⟩ := List.pairwise_cons.mp happart
      have writes : tupleWrites (view :: views) i (v :: vs) = ⟨view.slot i, v.toBits⟩ :: tupleWrites views i vs := rfl
      rw [writes, puts_cons]
      refine .cons (((hreaches view List.mem_cons_self).holds_put htypes.1).puts_of_forall_ne fun w hw e => ?_)
        (ih happart (fun view' h => ?_) htypes.2)
      · obtain ⟨view', hview', e'⟩ := slot_of_mem_tupleWrites hw
        exact hne view' hview' (View.slot_eq_iff.mp (e.symm.trans e')).1
      · exact (hreaches view' (List.mem_cons_of_mem _ h)).of_layout (layout?_put _ _ _)

end Store

namespace Solo
open Exp
variable {E : Solo} {σ : Scope} {Q : Claim} {th : Thread} {ws : List Write} {views : List View} {index : Exp} {i : Nat}

/-- The components of a tuple are stored, one after another. -/
theorem ensures_writes {xs : List Exp} {vs : List Value} {rest : List Stmt} (hσ : σ.Le (E.scope th))
    (hi : IsInt σ index i) (hxs : Values σ xs vs) (htypes : vs.map Value.type = views.map (·.type))
    (hreaches : ∀ view ∈ views, E.store.Reaches view i) (hown : ∀ p, tupleSlots views i p → E.own E.id p)
    (h : E.EnsuresAll rest Q th (ws ++ tupleWrites views i vs)) :
    E.EnsuresAll (((views.zip xs).map fun p => .write p.1 index p.2) ++ rest) Q th ws := by
  induction hxs generalizing views ws with
  | nil =>
    rw [List.map_nil, eq_comm, List.map_eq_nil_iff] at htypes
    simpa [htypes, tupleWrites] using h
  | @cons x v xs vs hv _ ih =>
    cases views with
    | nil => simp at htypes
    | cons view views =>
      rw [List.map_cons, List.map_cons, List.cons.injEq] at htypes
      rw [List.zip_cons_cons, List.map_cons, List.cons_append, ensuresAll_cons]
      refine ensures_write hσ hi hv htypes.1 (hreaches view List.mem_cons_self)
        (hown _ ⟨view, List.mem_cons_self, rfl⟩) ?_
      refine ih htypes.2 (fun view' h => hreaches view' (List.mem_cons_of_mem _ h)) (fun p hp => ?_) ?_
      · obtain ⟨view', hview', e⟩ := hp
        exact hown p ⟨view', List.mem_cons_of_mem _ hview', e⟩
      · rw [List.append_assoc]
        exact h

end Solo
end SegKernel
