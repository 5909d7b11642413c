import SegKernel.Atomic.Update
import SegKernel.Proofs.Evaluation.Known
import SegKernel.Proofs.Evaluation.Rebuilding
import SegKernel.Proofs.Execution.Contents
import SegKernel.Proofs.Races.Knowledge
import SegKernel.Proofs.Updates.Swapping

/-! Updates of single components, by hardware operations or by loops that compare and swap words. All threads
    that are left in a round of a loop assume the word that is there when the round starts: a thread that did not
    get its way has learnt it. Each component has its own array, so each has an order of its own in which the
    threads take their values into it. -/

namespace SegKernel

/-! ### Words -/

/-- The value of a type with the same bits. -/
def Value.recast (type : ScalarType) (v : Value) : Value := .ofBits type v.toBits

namespace Value
variable {type type' : ScalarType} {v : Value}

@[simp] theorem type_recast : (v.recast type).type = type := type_ofBits type _

theorem exists_i32 (h : v.type = .i32) : ∃ a, v = .i32 a := by
  cases v with
  | i32 a => exact ⟨a, rfl⟩
  | _ => cases h

theorem recast_self (h : v.type = type) : v.recast type = v := by
  rw [← h]
  exact ofBits_toBits v

theorem recast_ofBits (h : type.bitWidth = type'.bitWidth) (bits : UInt64) :
    (ofBits type' bits).recast type = ofBits type bits := by
  cases type <;> cases type' <;> first | exact absurd h (by decide) | skip
  case bool.bool =>
    simp only [recast, ofBits, toBits]
    cases bits &&& 0xff != 0 <;> rfl
  all_goals
    simp only [recast, ofBits, toBits, UInt32.toUInt32_toUInt64, UInt32.toUInt32_toInt32, UInt64.toUInt64_toInt64]

theorem recast_recast (h : type.bitWidth = v.type.bitWidth) : (v.recast type).recast v.type = v :=
  (recast_ofBits h.symm v.toBits).trans (ofBits_toBits v)

end Value

namespace ScalarType
variable {type : ScalarType} {σ : Scope} {x : Exp} {v : Value}

theorem eval_toWord (hwidth : type.wordType.bitWidth = type.bitWidth) (hx : x.eval σ = .ok v) (hv : v.type = type) :
    (type.toWord x).eval σ = .ok (v.recast type.wordType) := by
  unfold toWord
  split
  · rw [Value.recast_self (hv.trans ‹_›)]
    exact hx
  · refine Exp.eval_bitcast_eq_ok.mpr ⟨v, hx, ?_⟩
    rw [Value.bitcast, if_pos (by rw [hv, hwidth])]
    rfl

theorem eval_fromWord (hwidth : type.wordType.bitWidth = type.bitWidth) (hx : x.eval σ = .ok v)
    (hv : v.type = type.wordType) :
    (type.fromWord x).eval σ = .ok (v.recast type) := by
  unfold fromWord
  split
  · rw [Value.recast_self (hv.trans (Eq.symm ‹_›))]
    exact hx
  · refine Exp.eval_bitcast_eq_ok.mpr ⟨v, hx, ?_⟩
    rw [Value.bitcast, if_pos (by rw [hv, hwidth])]
    rfl

theorem wordType_eq_i32 (h : type.bitWidth = 32) : type.wordType = .i32 := by
  cases type <;> first | rfl | exact absurd h (by decide)

end ScalarType

theorem Store.Holds.recast {m : Store} {view : View} {i : Nat} {v : Value} {type : ScalarType} (h : m.Holds view i v)
    (hwidth : type.bitWidth = view.type.bitWidth) : m.Holds { view with type } i (v.recast type) := by
  obtain ⟨⟨type₀, n, hlayout, hw, hlt⟩, bits, hbits, rfl⟩ := h
  exact ⟨⟨type₀, n, hlayout, hw.trans hwidth.symm, hlt⟩, bits, hbits, (Value.recast_ofBits hwidth bits).symm⟩

theorem Binned.recast {view : View} {i : Nat → Nat} {all : List Nat} {m₀ m : Store} {x y : Nat → Value}
    {type : ScalarType} (h : Binned view i all m₀ x m) (hwidth : type.bitWidth = view.type.bitWidth)
    (hy : ∀ t ∈ all, y (i t) = (x (i t)).recast type) : Binned { view with type } i all m₀ y m where
  layout := h.layout
  holds t ht := by
    rw [hy t ht]
    exact (h.holds t ht).recast hwidth
  frame := h.frame

/-- Words are compared. -/
theorem Exp.IsBool.equals_words {σ : Scope} {x y : Exp} {a b : Int32} (hx : x.eval σ = .ok (.i32 a))
    (hy : y.eval σ = .ok (.i32 b)) : IsBool σ (x.equals y) (decide (a = b)) := by
  refine test_refines x y .eq σ _ (eval_compare_eq_ok.mpr ⟨_, _, hx, hy, ?_⟩)
  have hcompare : (Ord.compare a.toInt b.toInt == .eq) = decide (a = b) := by
    rw [Bool.eq_iff_iff, beq_iff_eq, Std.LawfulEqOrd.compare_eq_iff_eq, decide_eq_true_iff, Int32.toInt_inj]
  exact congrArg (fun c => Except.ok (Value.bool c)) hcompare

/-! ### Rounds -/

/-- What a thread knows in the loop: the word that it has seen, the word that it has assumed, and whether
    it goes on. -/
def Scope.inLoop (σ : Scope) (oldBits assumed runLoop : Ident) (seen tried : Value) (go : Bool) : Scope :=
  ((σ.set oldBits seen).set assumed tried).set runLoop (.bool go)

/-- Threads that replace elements of a view by what they compute from them. -/
structure Swappers (ctx : GroupContext) (all : List Nat) (dest : View) (index candidate : Exp)
    (oldBits assumed runLoop : Ident) (B : Nat → Scope) (i : Nat → Nat) (g : Nat → Value → Value) : Prop where
  off : ctx.checkRaces = false
  nodup : all.Nodup
  width : dest.type.bitWidth = 32
  apart : oldBits ≠ assumed ∧ oldBits ≠ runLoop ∧ assumed ≠ runLoop
  unknown : ∀ t ∈ all, B t oldBits = none ∧ B t assumed = none ∧ B t runLoop = none
  free : ctx.captured[oldBits]? = none ∧ ctx.captured[assumed]? = none ∧ ctx.captured[runLoop]? = none
  index : ∀ t ∈ all, Exp.IsInt (B t) index (i t)
  candidate : ∀ t ∈ all, ∀ τ v, (B t).Le τ → v.type = dest.type → τ assumed = some (v.recast dest.type.wordType) →
    candidate.eval τ = .ok (g t v)
  typed : ∀ t ∈ all, ∀ v, v.type = dest.type → (g t v).type = dest.type

namespace Scope
variable {σ : Scope} {oldBits assumed runLoop : Ident} {seen tried v : Value} {go b : Bool}

theorem inLoop_seen (h : oldBits ≠ assumed ∧ oldBits ≠ runLoop ∧ assumed ≠ runLoop) :
    σ.inLoop oldBits assumed runLoop seen tried go oldBits = some seen := by
  rw [inLoop, set_of_ne h.2.1.symm, set_of_ne h.1.symm, set_self]

theorem inLoop_tried (h : assumed ≠ runLoop) : σ.inLoop oldBits assumed runLoop seen tried go assumed = some tried := by
  rw [inLoop, set_of_ne h.symm, set_self]

theorem inLoop_go : σ.inLoop oldBits assumed runLoop seen tried go runLoop = some (.bool go) := set_self

theorem set_seen (h : oldBits ≠ assumed ∧ oldBits ≠ runLoop ∧ assumed ≠ runLoop) :
    (σ.inLoop oldBits assumed runLoop seen tried go).set oldBits v = σ.inLoop oldBits assumed runLoop v tried go := by
  rw [inLoop, set_comm h.2.1.symm, set_comm h.1.symm, set_set]
  rfl

theorem set_tried (h : assumed ≠ runLoop) :
    (σ.inLoop oldBits assumed runLoop seen tried go).set assumed v = σ.inLoop oldBits assumed runLoop seen v go := by
  rw [inLoop, set_comm h.symm, set_set]
  rfl

theorem set_go : (σ.inLoop oldBits assumed runLoop seen tried go).set runLoop (.bool b) =
    σ.inLoop oldBits assumed runLoop seen tried b := set_set

theorem le_inLoop (h : oldBits ≠ assumed ∧ oldBits ≠ runLoop ∧ assumed ≠ runLoop)
    (hσ : σ oldBits = none ∧ σ assumed = none ∧ σ runLoop = none) :
    σ.Le (σ.inLoop oldBits assumed runLoop seen tried go) :=
  (le_set hσ.1).trans <| (le_set (by rw [set_of_ne h.1, hσ.2.1])).trans <|
    le_set (by rw [set_of_ne h.2.2, set_of_ne h.2.1, hσ.2.2])

end Scope

namespace Swappers
open Run
variable {ctx : GroupContext} {all : List Nat} {dest : View} {index candidate : Exp} {oldBits assumed runLoop : Ident}
  {B : Nat → Scope} {i : Nat → Nat} {g : Nat → Value → Value} {own : Nat → Memory} {m₀ : Store}

/-- The view of the words. -/
abbrev words (dest : View) : View := { dest with type := dest.type.wordType }

/-- What a thread makes of a word. -/
def next (dest : View) (g : Nat → Value → Value) (t : Nat) (w : Value) : Value :=
  (g t (w.recast dest.type)).recast dest.type.wordType

/-- A thread in the loop. -/
structure In (ctx : GroupContext) (oldBits assumed runLoop : Ident) (B : Nat → Scope) (own : Nat → Memory)
    (seen tried : Value) (go : Bool) (t : Nat) (th : Thread) : Prop where
  knows : th.Knows ctx.captured ((B t).inLoop oldBits assumed runLoop seen tried go) (own t)
  type : tried.type = .i32

/-- A thread that goes on has seen the word that is there. -/
def Ready (ctx : GroupContext) (oldBits assumed runLoop : Ident) (B : Nat → Scope) (own : Nat → Memory) (i : Nat → Nat)
    (x : Nat → Value) (t : Nat) (th : Thread) : Prop :=
  ∃ tried, In ctx oldBits assumed runLoop B own (x (i t)) tried true t th

def Finished (ctx : GroupContext) (oldBits assumed runLoop : Ident) (B : Nat → Scope) (own : Nat → Memory) (t : Nat)
    (th : Thread) : Prop := ∃ seen tried, In ctx oldBits assumed runLoop B own seen tried false t th

section
variable (h : Swappers ctx all dest index candidate oldBits assumed runLoop B i g)
include h

theorem width_word : dest.type.wordType.bitWidth = dest.type.bitWidth := by
  rw [ScalarType.wordType_eq_i32 h.width, h.width]
  rfl

/-- A thread that has assumed the word that is there can replace it. -/
theorem canSwap {t : Nat} (ht : t ∈ all) {x : Nat → Value} {th : Thread}
    (hth : In ctx oldBits assumed runLoop B own (x (i t)) (x (i t)) true t th) :
    CanSwap ctx oldBits (words dest) index (.var assumed) (dest.type.toWord candidate) (i t) (x (i t))
      (next dest g t (x (i t))) th := by
  have hscope := hth.knows.scope
  have hx : (x (i t)).type = dest.type.wordType := hth.type.trans (ScalarType.wordType_eq_i32 h.width).symm
  have hle : (B t).Le ((B t).inLoop oldBits assumed runLoop (x (i t)) (x (i t)) true) :=
    Scope.le_inLoop h.apart (h.unknown t ht)
  have hcandidate := h.candidate t ht _ ((x (i t)).recast dest.type) hle Value.type_recast (by
    rw [Scope.inLoop_tried h.apart.2.2, ← hx, Value.recast_recast (by rw [hx, h.width_word])])
  refine ⟨((h.index t ht).mono hle).mono hscope, Exp.eval_mono hscope (Exp.eval_var (Scope.inLoop_tried h.apart.2.2)),
    Exp.eval_mono hscope (ScalarType.eval_toWord h.width_word hcandidate (h.typed t ht _ Value.type_recast)),
    ⟨hx, Value.type_recast⟩, x (i t), ?_, hx⟩
  exact Thread.own_of_known hscope h.free.1 (Scope.inLoop_seen h.apart)

/-- All threads that are left assume the word that they have seen, which is there. -/
theorem assume {todo : List Nat} (hnd : todo.Nodup) (hsub : ∀ t ∈ todo, t ∈ all) {x : Nat → Value} :
    Brings todo (Scene.of todo (Binned (words dest) i all m₀ x) (Ready ctx oldBits assumed runLoop B own i x))
      (exec ctx (.set assumed (.var oldBits)) todo)
      (Scene.of todo (Binned (words dest) i all m₀ x) fun t =>
        In ctx oldBits assumed runLoop B own (x (i t)) (x (i t)) true t) :=
  Brings.silent h.off hnd fun m hm t ht th hth => by
    obtain ⟨tried, hth⟩ := hth
    have hx : (x (i t)).type = .i32 := (hm.holds t (hsub t ht)).type.trans (ScalarType.wordType_eq_i32 h.width)
    exact Solo.ensures_set_of_known hth.knows.scope h.free.2.1 (Scope.inLoop_tried h.apart.2.2)
      (Exp.eval_var (Scope.inLoop_seen h.apart)) (hth.type.trans hx.symm) fun th' hth' ha =>
        ⟨⟨⟨Scope.set_tried h.apart.2.2 ▸ hth', ha.trans hth.knows.arrays⟩, hx⟩, rfl⟩

variable (own) in
/-- The threads that have seen what they have assumed leave the loop. -/
theorem leave {todo : List Nat} (hnd : todo.Nodup) {M : Store → Prop} (won : List Nat) (seen tried : Nat → Value)
    (htypes : ∀ t ∈ todo, (seen t).type = .i32) (hwon : ∀ t ∈ todo, seen t = tried t ↔ t ∈ won) :
    Brings todo (Scene.of todo M fun t => In ctx oldBits assumed runLoop B own (seen t) (tried t) true t)
      (exec ctx (.when ((Exp.var oldBits).equals (.var assumed)) (.set runLoop (.bool false))) todo)
      (Scene.of todo M fun t => In ctx oldBits assumed runLoop B own (seen t) (tried t) (decide (t ∉ won)) t) := by
  have hbody : Brings (todo.filter (decide <| · ∈ won))
    (Scene.of _ M fun t => In ctx oldBits assumed runLoop B own (seen t)
    (tried t) true t)
      (exec ctx (.set runLoop (.bool false)) _)
      (Scene.of _ M fun t => In ctx oldBits assumed runLoop B own (seen t) (tried t) false t) := Brings.silent h.off
      (hnd.filter _) fun m _ t _ th hth =>
      Solo.ensures_set_of_known hth.knows.scope h.free.2.2 Scope.inLoop_go rfl rfl fun th' hth' ha =>
        ⟨⟨⟨Scope.set_go ▸ hth', ha.trans hth.knows.arrays⟩, hth.type⟩, rfl⟩
  have hall := hbody.widen (fun t ht => (List.mem_filter.mp ht).1)
    fun t => In ctx oldBits assumed runLoop B own (seen t) (tried t) true t
  refine Brings.when (fun t => decide (t ∈ won)) (fun m th hth t ht => ?_)
    (hall.imp (fun m th hth => ?_) fun m th hth => ?_)
  · obtain ⟨a, ha⟩ := Value.exists_i32 (htypes t ht)
    obtain ⟨b, hb⟩ := Value.exists_i32 (hth.2 t ht).type
    have hscope := (hth.2 t ht).knows.scope
    have htest := Exp.IsBool.equals_words (a := a) (b := b)
      (Exp.eval_mono hscope (Exp.eval_var (by rw [Scope.inLoop_seen h.apart, ha])))
      (Exp.eval_mono hscope (Exp.eval_var (by rw [Scope.inLoop_tried h.apart.2.2, hb])))
    -- A thread has won if it saw the word that it had assumed.
    have hiff : a = b ↔ t ∈ won := by rw [← hwon t ht, ha, hb, Value.i32.injEq]
    rwa [decide_eq_decide.mpr hiff] at htest
  · exact ⟨⟨hth.1, fun t ht => hth.2 t (List.mem_filter.mp ht).1⟩, fun t ht _ => hth.2 t ht⟩
  · refine ⟨hth.1.1, fun t ht => ?_⟩
    dsimp only
    by_cases hmem : t ∈ won
    · rw [decide_eq_false (not_not_intro hmem)]
      exact hth.1.2 t (List.mem_filter.mpr ⟨ht, decide_eq_true hmem⟩)
    · rw [decide_eq_true hmem]
      exact hth.2 t ht fun hA => hmem (of_decide_eq_true (List.mem_filter.mp hA).2)

variable (own m₀) in
/-- In each round the first thread gets its way at least, and all that do not have seen the word that is
    there in the end. -/
theorem contends : Contends ctx all (.var runLoop) (.block [
      .set assumed (.var oldBits),
      .compareSwap oldBits (words dest) index (.var assumed) (dest.type.toWord candidate),
      .when ((Exp.var oldBits).equals (.var assumed)) (.set runLoop (.bool false))])
    (Binned (words dest) i all m₀) (Ready ctx oldBits assumed runLoop B own i)
    (Finished ctx oldBits assumed runLoop B own)
    (advance i (next dest g)) where
  ready _ hth := by
    obtain ⟨_, hth⟩ := hth
    exact Exp.IsBool.evalBool (Exp.eval_mono hth.knows.scope (Exp.eval_var Scope.inLoop_go))
  finished _ hth := by
    obtain ⟨_, _, hth⟩ := hth
    exact Exp.IsBool.evalBool (Exp.eval_mono hth.knows.scope (Exp.eval_var Scope.inLoop_go))
  round {todo x} hne hnd hsub := by
    have swaps := Brings.contest m₀ hnd hsub
      fun t ht th (hth : In ctx oldBits assumed runLoop B own (x (i t)) (x (i t)) true t th) =>
      h.canSwap (hsub t ht) hth
    refine Brings.block (Brings.cons (h.assume hnd hsub) (Brings.cons swaps (Brings.single ?_)))
    refine Brings.of_exists fun won => Brings.of_and fun hwon => ?_
    -- The words after those that won have stored theirs, one after another.
    let now := won.foldl (advance i (next dest g)) x
    let learnt (t : Nat) : Value := if t ∈ won then x (i t) else now (i t)
    have leaves := Brings.of_and (p := ∀ t ∈ todo, (learnt t).type = .i32) fun htypes =>
      h.leave own hnd (M := Binned (words dest) i all m₀ now) won learnt (fun t => x (i t)) htypes
        fun t ht => by
          by_cases hmem : t ∈ won
          · simp [learnt, hmem]
          · simpa [learnt, hmem] using hwon.lost t ht hmem
    refine leaves.imp (fun m th hm => ?_) fun m th hm =>
      ⟨won, todo.filter (· ∉ won), hwon.ne_nil hne, hwon.perm_filter hnd,
      hm.1, fun t ht => ?_, fun t ht => ?_⟩
    · obtain ⟨hm, hth⟩ := hm
      refine ⟨fun t ht => ?_, hm, fun t ht => ?_⟩
      · obtain ⟨_, hth₀, -⟩ := hth t ht
        have hnow := (hm.holds t (hsub t ht)).type.trans (ScalarType.wordType_eq_i32 h.width)
        dsimp only [learnt]
        split
        · exact hth₀.type
        · exact hnow
      · obtain ⟨th₀, hth₀, e⟩ := hth t ht
        have := hth₀.knows.bind oldBits (learnt t)
        rw [Scope.set_seen h.apart] at this
        exact ⟨e ▸ this, hth₀.type⟩
    · obtain ⟨ht, hmem⟩ := List.mem_filter.mp ht
      have hmem : t ∉ won := of_decide_eq_true hmem
      have := hm.2 t ht
      dsimp only [learnt] at this
      rw [if_neg hmem, decide_eq_true hmem] at this
      exact ⟨_, this⟩
    · have := hm.2 t (hwon.sublist.subset ht)
      dsimp only at this
      rw [decide_eq_false (not_not_intro ht)] at this
      exact ⟨_, _, this⟩

/-- A thread starts with the word that is there. -/
theorem start {old : Ident} (hne : old ≠ oldBits ∧ old ≠ assumed ∧ old ≠ runLoop) (hold : ∀ t ∈ all, B t old = none)
    {x : Nat → Value} :
    Brings all (Scene.of all (Binned dest i all m₀ x) fun t th => th.Knows ctx.captured (B t) (own t))
      (execAll ctx [
        .declare old dest.type false,
        .read old { dest with volatile := true } index,
        .declareInit oldBits dest.type.wordType (dest.type.toWord (.var old)),
        .declare assumed dest.type.wordType false,
        .declareInit runLoop .bool (.bool true)] all)
      (Scene.of all (Binned dest i all m₀ x)
        (Ready ctx oldBits assumed runLoop B own i fun n => (x n).recast dest.type.wordType)) :=
  Brings.silentAll h.off h.nodup fun m hm t ht th hth => by
    obtain ⟨hseen, htried, hgo⟩ := h.unknown t ht
    have hread : m.Holds { dest with volatile := true } (i t) (x (i t)) :=
      ⟨(hm.holds t ht).reaches, (hm.holds t ht).bits⟩
    refine Solo.ensures_load hth.scope (hold t ht) (h.index t ht) hread rfl (fun _ _ => id) fun th₁ h₁ ha₁ => ?_
    rw [Solo.ensuresAll_cons]
    refine Solo.ensures_declareInit_of_known h₁ (by rw [Scope.set_of_ne hne.1, hseen])
      (ScalarType.eval_toWord h.width_word (Exp.eval_var Scope.set_self) hread.type) Value.type_recast
        fun th₂ h₂ ha₂ => ?_
    rw [Solo.ensuresAll_cons]
    refine Solo.ensures_declare ?_
    rw [Solo.ensuresAll_singleton]
    refine Solo.ensures_declareInit_of_known (Thread.set_le_scope_bind h₂) ?_ rfl rfl fun th₄ h₄ ha₄ =>
      ⟨⟨.zero dest.type.wordType, ⟨?_, ?_⟩, ?_⟩, rfl⟩
    · rw [Scope.set_of_ne h.apart.2.2, Scope.set_of_ne h.apart.2.1, Scope.set_of_ne hne.2.2, hgo]
    · exact ((Scope.le_set (hold t ht)).set.set.set).trans h₄
    · exact ha₄.trans (ha₂.trans (ha₁.trans hth.arrays))
    · rw [Value.type_zero, ScalarType.wordType_eq_i32 h.width]

/-- The threads replace their elements one after another. -/
theorem loop_advances {old : Ident} (hlimit : all.length ≤ ctx.loopLimit)
    (hne : old ≠ oldBits ∧ old ≠ assumed ∧ old ≠ runLoop) (hold : ∀ t ∈ all, B t old = none) {x : Nat → Value} :
    Brings all (Scene.of all (Binned dest i all m₀ x) fun t th => th.Knows ctx.captured (B t) (own t))
      (exec ctx (.block [
        .declare old dest.type false,
        .read old { dest with volatile := true } index,
        .declareInit oldBits dest.type.wordType (dest.type.toWord (.var old)),
        .declare assumed dest.type.wordType false,
        .declareInit runLoop .bool (.bool true),
        .repeatWhile (.var runLoop) <| .block [
          .set assumed (.var oldBits),
          .compareSwap oldBits (words dest) index (.var assumed) (dest.type.toWord candidate),
          .when ((Exp.var oldBits).equals (.var assumed)) (.set runLoop (.bool false))]]) all)
      fun m th => ∃ order : List Nat, order.Perm all ∧ Binned dest i all m₀ (order.foldl (advance i g) x) m ∧
        ∀ t ∈ all, (th t).Knows ctx.captured (B t) (own t) := by
  let word (n : Nat) : Value := (x n).recast dest.type.wordType
  have loops := h.contends own m₀ |>.repeatWhile h.nodup hlimit word
  refine Brings.block <| Brings.append [_, _, _, _, _] (Q := fun m th => (∀ t ∈ all, (x (i t)).type = dest.type) ∧
    Scene.of all (Binned (words dest) i all m₀ word) (Ready ctx oldBits assumed runLoop B own i word) m th) ?_ <|
      Brings.single <| Brings.of_and fun htyped => loops.imp (fun m th hm => hm) fun m th hm => ?_
  · exact (h.start hne hold).imp (fun m th hm => hm) fun m th hm =>
      ⟨fun t ht => (hm.1.holds t ht).type, hm.1.recast h.width_word fun t _ => rfl, hm.2⟩
  · obtain ⟨order, hperm, hm, hfinished⟩ := hm
    have hrelated := foldl_advance_related (f := next dest g) (g := g) (x := word) (y := x)
      (R := fun w v => v.type = dest.type ∧ w = v.recast dest.type.wordType) (fun t ht w v hw => by
        obtain ⟨hv, rfl⟩ := hw
        refine ⟨h.typed t ht v hv, ?_⟩
        rw [next, ← hv, Value.recast_recast (by rw [hv, h.width_word]), hv])
      (fun t ht => hperm.mem_iff.mp ht) fun t ht => ⟨htyped t ht, rfl⟩
    refine ⟨order, hperm, hm.recast h.width_word.symm fun t ht => ?_, fun t ht => ?_⟩
    · obtain ⟨hv, e⟩ := hrelated t ht
      have hback : ((order.foldl (advance i g) x (i t)).recast dest.type.wordType).recast _ = _ :=
        Value.recast_recast (by rw [hv, h.width_word])
      rw [hv] at hback
      rw [e]
      exact hback.symm
    · obtain ⟨_, _, hth⟩ := hfinished t ht
      exact hth.knows.forget (Scope.le_inLoop h.apart (h.unknown t ht))

end

end Swappers

/-! ### Threads at their elements -/

open Run

/-- Threads that update elements, each at its own index. Names are taken from number `n` on. -/
structure Contenders (ctx : GroupContext) (all : List Nat) (index : Exp) (B : Nat → Scope) (b : Nat → Nat) (n : Nat) :
    Prop where
  off : ctx.checkRaces = false
  nodup : all.Nodup
  limit : all.length ≤ ctx.loopLimit
  before : ∀ t ∈ all, (B t).Before n
  free : ∀ name, New n name → ctx.captured[name]? = none
  index : ∀ t ∈ all, Exp.IsInt (B t) index (b t)

/-- The threads know what they knew. -/
abbrev Keeping (ctx : GroupContext) (B : Nat → Scope) (own : Nat → Memory) : Nat → Thread → Prop := fun t th =>
  th.Knows ctx.captured (B t) (own t)

/-- From one memory, the code takes the threads' values into the elements of a view in some order. -/
def Advances (ctx : GroupContext) (all : List Nat) (B : Nat → Scope) (b : Nat → Nat) (own : Nat → Memory) (dest : View)
    (g : Nat → Value → Value) (stmt : Stmt) : Prop :=
  ∀ m₀ x, Brings all (Scene.of all (Binned dest b all m₀ x) (Keeping ctx B own)) (exec ctx stmt all) fun m th =>
    ∃ order : List Nat, order.Perm all ∧ Binned dest b all m₀ (order.foldl (advance b g) x) m ∧
      ∀ t ∈ all, Keeping ctx B own t (th t)

variable {ctx : GroupContext} {all : List Nat} {index : Exp} {B : Nat → Scope} {b : Nat → Nat} {own : Nat → Memory}
  {n k : Nat}

variable (own) in
/-- A loop that computes what it stores from the word that it has assumed. -/
theorem Contenders.swapLoop_advances (h : Contenders ctx all index B b n) (hn : n ≤ k) {dest : View} {candidate : Exp}
    {g : Nat → Value → Value} (hwidth : dest.type.bitWidth = 32)
    (hcandidate : ∀ t ∈ all, ∀ τ v, (B t).Le τ → v.type = dest.type →
      (dest.type.fromWord (.var (numbered "assumed" k))).eval τ = .ok v → candidate.eval τ = .ok (g t v))
    (htyped : ∀ t ∈ all, ∀ v, v.type = dest.type → (g t v).type = dest.type) :
    Fresh.At (k + 1) (swapLoop dest index (numbered "assumed" k) candidate) fun _ stmt =>
      Advances ctx all B b own dest g stmt := by
  have hnew : ∀ {stem : String} {j : Nat}, stem ∈ uniformStems ++ ownStems ++ arrayStems ++ kernelStems → k ≤ j →
      New n (numbered stem j) := fun hstem hj => new_numbered hstem (Nat.le_trans hn hj)
  have hword : dest.type.wordType.bitWidth = dest.type.bitWidth := by
    rw [ScalarType.wordType_eq_i32 hwidth, hwidth]
    rfl
  refine Fresh.At.take <| Fresh.At.take <| Fresh.At.take <| Fresh.At.pure fun m₀ x => ?_
  -- The three variables of the loop are new, and none of them is in the lambda.
  have swappers : Swappers ctx all dest index candidate (numbered "old_bits" (k + 1 + 1)) (numbered "assumed" k)
      (numbered "run_loop" (k + 1 + 1 + 1)) B b g := {
    off := h.off
    nodup := h.nodup
    width := hwidth
    apart := by simp [numbered_inj]
    unknown := fun t ht => ⟨h.before t ht _ (hnew (by decide) (by omega)),
      h.before t ht _ (hnew (by decide) (by omega)),
      h.before t ht _ (hnew (by decide) (by omega))⟩
    free := ⟨h.free _ (hnew (by decide) (by omega)), h.free _ (hnew (by decide) (by omega)),
      h.free _ (hnew (by decide) (by omega))⟩
    index := h.index
    candidate := fun t ht τ v hτ hv hassumed => by
      have hval := ScalarType.eval_fromWord hword (Exp.eval_var hassumed) Value.type_recast
      rw [← hv, Value.recast_recast (by rw [hv, hword]), hv] at hval
      exact hcandidate t ht τ v hτ hv hval
    typed := htyped }
  exact swappers.loop_advances h.limit (by simp [numbered_inj]) fun t ht =>
    h.before t ht _ (hnew (by decide) (by omega))

/-! ### A component -/

/-- The update takes values in with an operator. -/
def ComponentUpdate.Applies (u : ComponentUpdate) (op : BinaryOp) : Prop :=
  (∃ a, u = .native a ∧ ∀ v w, combine a v w = Value.binary op v w) ∨ u = .swap op

/-- The update of a component that the hardware allows. -/
def ComponentUpdate.select (table : AtomicsTable) (c : BinaryOp × ScalarType) : ComponentUpdate :=
  match table.native c.1 c.2 with
  | some op => .native op
  | none => .swap c.1

/-- Where there is a hardware operation, it does what the operator does. -/
theorem ComponentUpdate.applies_select (table : AtomicsTable) (c : BinaryOp × ScalarType) :
    (select table c).Applies c.1 := by
  obtain ⟨op, type⟩ := c
  have hnative : ∀ a, table.native op type = some a → ∀ v w, combine a v w = Value.binary op v w := by
    intro a ha
    cases op <;> simp only [AtomicsTable.native, Option.ite_none_right_eq_some, Option.some.injEq, reduceCtorEq] at ha
    all_goals
      obtain ⟨-, rfl⟩ := ha
      exact fun _ _ => rfl
  unfold select
  split
  · exact Or.inl ⟨_, rfl, hnative _ ‹_›⟩
  · exact Or.inr rfl

/-- An operator on numbers is no connective. -/
theorem Value.not_connective {op : BinaryOp} {v w u : Value} (h : binary op v w = .ok u) (hv : v.type ≠ .bool) :
    op ≠ .logAnd ∧ op ≠ .logOr := by
  cases v with
  | bool _ => exact absurd rfl hv
  | _ => constructor <;> rintro rfl <;> cases w <;> cases h

/-- A component: how it is updated, where, and with what. -/
structure Part where
  update : ComponentUpdate
  dest : View
  value : Exp
  op : BinaryOp
  /-- What a thread makes of an element. -/
  next : Nat → Value → Value
  /-- What the elements are at first. -/
  first : Nat → Value

/-- The operator computes what each thread makes of an element. -/
structure Part.Fits (p : Part) (all : List Nat) (B : Nat → Scope) : Prop where
  applies : p.update.Applies p.op
  width : p.dest.type.bitWidth = 32
  operand : ∀ t ∈ all, ∃ w, p.value.eval (B t) = .ok w ∧ ∀ v, v.type = p.dest.type →
    Value.binary p.op v w = .ok (p.next t v) ∧ (p.next t v).type = p.dest.type

variable (own) in
theorem Contenders.native_advances (h : Contenders ctx all index B b n) (hn : n ≤ k) {p : Part} (hp : p.Fits all B)
    {a : AtomicOp} (ha : ∀ v w, combine a v w = Value.binary p.op v w) :
    Fresh.At k ((ComponentUpdate.native a).code p.dest index p.value) fun _ stmt =>
      Advances ctx all B b own p.dest p.next stmt := by
  have hold : ∀ t ∈ all, B t (numbered "old" k) = none := fun t ht => h.before t ht _ (new_numbered (by decide) hn)
  refine Fresh.At.take <| Fresh.At.pure fun m₀ x => ?_
  have declares : Brings all (Scene.of all (Binned p.dest b all m₀ x) (Keeping ctx B own))
      (exec ctx (.declare (numbered "old" k) p.dest.type false) all)
      (Scene.of all (Binned p.dest b all m₀ x)
        (Keeping ctx (fun t => (B t).set (numbered "old" k) (.zero p.dest.type)) own)) :=
    Brings.silent h.off h.nodup fun m _ t ht th hth => Solo.ensures_declare ⟨hth.bind _ _, rfl⟩
  have updates (t : Nat) (ht : t ∈ all) (th : Thread) (v : Value) (hv : v.type = p.dest.type)
      (hth : Keeping ctx (fun t => (B t).set (numbered "old" k) (.zero p.dest.type)) own t th) :
      CanUpdate ctx a (numbered "old" k) p.dest index p.value (b t) v (p.next t v) th := by
    obtain ⟨w, hw, hnext⟩ := hp.operand t ht
    have hle : (B t).Le (th.scope ctx.captured) := (Scope.le_set (hold t ht)).trans hth.scope
    exact ⟨(h.index t ht).mono hle, ⟨w, Exp.eval_mono hle hw, (ha v w).trans (hnext v hv).1⟩, (hnext v hv).2, _,
      Thread.own_of_known hth.scope (h.free _ (new_numbered (by decide) hn)) Scope.set_self, Value.type_zero _⟩
  refine Brings.block <| Brings.cons declares <| Brings.single <|
    (Brings.updates h.nodup (fun _ => id) updates).imp (fun m th => id) fun m th hm => ?_
  refine ⟨all, .refl all, hm.1, fun t ht => ?_⟩
  obtain ⟨th₀, v, hth₀, e⟩ := hm.2 t ht
  exact e ▸ ((hth₀.forget (Scope.le_set (hold t ht))).bind _ v).forget (Scope.le_set (hold t ht))

variable (own) in
theorem Contenders.code_advances (h : Contenders ctx all index B b n) (hn : n ≤ k) {p : Part} (hp : p.Fits all B) :
    Fresh.At k (p.update.code p.dest index p.value) fun _ stmt => Advances ctx all B b own p.dest p.next stmt := by
  rcases hp.applies with ⟨a, hupdate, ha⟩ | hupdate
  · rw [hupdate]
    exact h.native_advances own hn hp ha
  · rw [hupdate]
    refine Fresh.At.take (h.swapLoop_advances own hn hp.width (fun t ht τ v hτ hv hword => ?_) fun t ht v hv => ?_)
    · obtain ⟨w, hw, hnext⟩ := hp.operand t ht
      have hbool : v.type ≠ .bool := fun e => absurd (hp.width.symm.trans (congrArg _ (hv.symm.trans e))) (by decide)
      obtain ⟨hand, hor⟩ := Value.not_connective (hnext v hv).1 hbool
      exact Exp.apply_refines _ _ hand hor τ _
        ((Exp.eval_binary_eq_ok hand hor).mpr ⟨v, w, hword, Exp.eval_mono hτ hw, (hnext v hv).1⟩)
    · obtain ⟨w, -, hnext⟩ := hp.operand t ht
      exact (hnext v hv).2

/-! ### All components -/

/-- The threads' values are in the elements of all components, each in some order. -/
structure Part.Taken (parts : List Part) (all : List Nat) (b : Nat → Nat) (m₀ m : Store) : Prop where
  layout : ∀ space array, m.layout? space array = m₀.layout? space array
  holds : ∀ p ∈ parts, ∃ order : List Nat, order.Perm all ∧
    ∀ t ∈ all, m.Holds p.dest (b t) (order.foldl (advance b p.next) p.first (b t))
  frame : ∀ q, (∀ p ∈ parts, ∀ t ∈ all, q ≠ p.dest.slot (b t)) → m.bits? q = m₀.bits? q

/-- A component and then the others. -/
theorem Part.Taken.cons {p : Part} {parts : List Part} {m₀ m₁ m : Store} {order : List Nat} (hperm : order.Perm all)
    (hp : Binned p.dest b all m₀ (order.foldl (advance b p.next) p.first) m₁) (h : Taken parts all b m₁ m)
    (happart : ∀ q ∈ parts, ¬p.dest.SameArray q.dest) : Taken (p :: parts) all b m₀ m where
  layout space array := (h.layout space array).trans (hp.layout space array)
  holds := by
    rw [List.forall_mem_cons]
    refine ⟨⟨order, hperm, fun t ht => (hp.holds t ht).of_bits (h.layout _ _) (h.frame _ fun q hq t' _ e => ?_)⟩,
      h.holds⟩
    exact happart q hq (View.slot_eq_iff.mp e).1
  frame q hq := by
    rw [List.forall_mem_cons] at hq
    exact (h.frame q hq.2).trans (hp.frame q hq.1)

variable (own) in
theorem Contenders.codes_advance (h : Contenders ctx all index B b n) : ∀ {parts : List Part} {k : Nat}, n ≤ k →
    (∀ p ∈ parts, p.Fits all B) → ViewsApart (parts.map (·.dest)) →
      Fresh.At k ((parts.map fun p => ((p.update, p.dest), p.value)).mapM fun ((u, dest), value) =>
        u.code dest index value)
        fun _ stmts => ∀ m₀, (∀ p ∈ parts, ∀ t ∈ all, m₀.Holds p.dest (b t) (p.first (b t))) →
          Brings all (Scene.of all (· = m₀) (Keeping ctx B own)) (execAll ctx stmts all) fun m th =>
            Part.Taken parts all b m₀ m ∧ ∀ t ∈ all, Keeping ctx B own t (th t)
  | [], k, _, _, _ => by
    rw [List.map_nil, List.mapM_nil]
    refine Fresh.At.pure fun m₀ _ => Brings.nil rfl fun m th hm => ⟨?_, hm.2⟩
    rw [hm.1]
    exact ⟨fun _ _ => rfl, by simp, fun _ _ => rfl⟩
  | p :: parts, k, hn, hfits, happart => by
    rw [List.forall_mem_cons] at hfits
    obtain ⟨hfirst, hrest⟩ := List.pairwise_cons.mp happart
    rw [List.map_cons, List.mapM_cons]
    refine (h.code_advances own hn hfits.1).bind fun k₁ stmt hk₁ hstmt => ?_
    refine (h.codes_advance (Nat.le_trans hn hk₁) hfits.2 hrest).bind fun k₂ stmts _ hstmts => ?_
    refine Fresh.At.pure fun m₀ hm₀ => ?_
    rw [List.forall_mem_cons] at hm₀
    refine Brings.cons ((hstmt m₀ p.first).imp (fun m th hm => ?_) fun m th => id) ?_
    · rw [hm.1]
      exact ⟨⟨fun _ _ => rfl, hm₀.1, fun _ _ => rfl⟩, hm.2⟩
    · refine Brings.imp (P := fun m th => ∃ (order : List Nat) (m₁ : Store), (order.Perm all ∧ Binned p.dest b all m₀
          (order.foldl (advance b p.next) p.first) m₁) ∧ Scene.of all (· = m₁) (Keeping ctx B own) m th)
        (Brings.of_exists fun order => Brings.of_exists fun m₁ => Brings.of_and fun hm₁ => ?_) (fun m th hm => ?_)
          fun m th => id
      · have hapart : ∀ q ∈ parts, ¬p.dest.SameArray q.dest := fun q hq => hfirst q.dest (List.mem_map_of_mem hq)
        refine (hstmts m₁ fun q hq t ht =>
          (hm₀.2 q hq t ht).of_bits (hm₁.2.layout _ _) (hm₁.2.frame _ fun t' _ e => ?_)).imp
          (fun m th => id) fun m th hm => ⟨hm.1.cons hm₁.1 hm₁.2 hapart, hm.2⟩
        exact hapart q hq (View.slot_eq_iff.mp e.symm).1
      · obtain ⟨order, hperm, hm, hth⟩ := hm
        exact ⟨order, m, ⟨hperm, hm⟩, rfl, hth⟩

end SegKernel
