import SegKernel.Proofs.Execution.Contents
import SegKernel.Proofs.Updates.Components
import Mathlib.Data.List.Nodup
import Mathlib.Data.List.Pairwise

/-! Loops that update tuples under locks. Buckets share locks, so in a round a thread can fail although no
    other one wants its bucket. The threads that have got their locks have different ones, hence different
    buckets, so they can work side by side; and they release their locks before the round ends. -/

namespace SegKernel

/-! ### Tuples -/

namespace Solo
open Exp
variable {E : Solo} {Q : Claim} {ws : List Write} {index : Exp} {i : Nat}

/-- New variables get the components of a tuple. -/
theorem ensures_components {rest : List Stmt} :
    ∀ {places : List ((View × Param) × Ident)} {vs : List Value} {σ : Scope} {th : Thread}, σ.Le (E.scope th) →
      IsInt σ index i → (∀ p ∈ places, p.1.2.type = p.1.1.type) → (places.map (·.2)).Nodup →
      (∀ p ∈ places, σ p.2 = none) → (E.store.puts ws).HoldsAll (places.map (·.1.1)) i vs →
      (∀ p, tupleSlots (places.map (·.1.1)) i p → E.Keeps p) →
      (∀ σ' th', σ.Le σ' → σ'.Le (E.scope th') → th'.arrays = th.arrays →
        (∀ x, x ∉ places.map (·.2) → σ' x = σ x) → Values σ' (places.map fun p => .var p.2) vs →
          E.EnsuresAll rest Q th' ws) →
      E.EnsuresAll ((places.flatMap fun p => [.declare p.2 p.1.2.type false, .read p.2 p.1.1 index]) ++ rest) Q th ws
  | [], vs, σ, th, hth, _, _, _, _, hvs, _ => by
    cases hvs
    exact fun h => h σ th (Scope.Le.refl σ) hth rfl (fun _ _ => rfl) .nil
  | ((view, param), acc) :: places, _, σ, th, hth, hi, htypes, hnd, hnew, .cons (b := v) hv hvs, hkeeps => by
    obtain ⟨hacc, hnd⟩ := List.nodup_cons.mp hnd
    have hle : σ.Le (σ.set acc v) := Scope.le_set (hnew _ List.mem_cons_self)
    intro h
    refine ensures_load (v := v) hth (hnew _ List.mem_cons_self) hi hv (htypes _ List.mem_cons_self)
      (hkeeps _ ⟨view, List.mem_cons_self, rfl⟩) fun th₁ hth₁ ha₁ => ?_
    refine ensures_components hth₁ (hi.mono hle) (fun p hp => htypes p (List.mem_cons_of_mem _ hp)) hnd
      (fun p hp => ?_) hvs (fun p hp => hkeeps p ?_) fun σ' th' hle' hth' ha' hsame hvalues => ?_
    · have hne : acc ≠ p.2 := fun e => hacc (List.mem_map.mpr ⟨p, hp, e.symm⟩)
      rw [Scope.set_of_ne hne]
      exact hnew p (List.mem_cons_of_mem _ hp)
    · obtain ⟨view, hview, e⟩ := hp
      exact ⟨view, List.mem_cons_of_mem _ hview, e⟩
    · refine h σ' th' (hle.trans hle') hth' (ha'.trans ha₁) (fun x hx => ?_) (.cons (eval_var ?_) hvalues)
      · rw [List.map_cons, List.mem_cons, not_or] at hx
        rw [hsame x hx.2, Scope.set_of_ne (Ne.symm hx.1)]
      · exact hle' _ _ Scope.set_self

end Solo

namespace Store
variable {views : List View} {b : Nat → Nat} {A : List Nat} {m : Store} {es : List (Nat × Write)}
  {vs : Nat → List Value}

/-- Tuples that threads store at positions of their own are there then. -/
theorem holdsAll_puts_of_own (happart : ViewsApart views) (hinj : ∀ t ∈ A, ∀ t' ∈ A, b t = b t' → t = t')
    (hreaches : ∀ t ∈ A, ∀ view ∈ views, m.Reaches view (b t))
    (htypes : ∀ t ∈ A, (vs t).map Value.type = views.map (·.type))
    (hes : ∀ e ∈ es, e.1 ∈ A ∧ tupleSlots views (b e.1) e.2.slot)
    (hwrites : ∀ t ∈ A, writesOf t es = tupleWrites views (b t) (vs t)) {t : Nat} (ht : t ∈ A) :
    (m.puts (es.map (·.2))).HoldsAll views (b t) (vs t) := by
  have alone := holdsAll_puts_tupleWrites happart (hreaches t ht) (htypes t ht)
  refine alone.of_bits (fun space array => by rw [layout?_puts, layout?_puts]) fun p hp => ?_
  rw [← bits?_puts_filter (fun e => e.1 == t) es fun e he hslot => ?_, ← hwrites t ht]
  · rfl
  · obtain ⟨hmem, hslot'⟩ := hes e he
    exact beq_iff_eq.mpr (hinj _ hmem t ht (tupleSlots_unique hslot' (hslot ▸ hp)))

end Store

/-! ### Guarded tuples -/

/-- The threads have tuples at their buckets and the locks of these, and all else is what it was. -/
structure Guarded (views : List View) (locks : View) (b lk : Nat → Nat) (all : List Nat) (m₀ : Store)
    (x : Nat → List Value) (y : Nat → Value) (m : Store) : Prop where
  layout : ∀ space array, m.layout? space array = m₀.layout? space array
  holds : ∀ t ∈ all, m.HoldsAll views (b t) (x (b t))
  locked : ∀ t ∈ all, m.Holds locks (lk t) (y (lk t))
  frame : ∀ p, (∀ t ∈ all, ¬tupleSlots views (b t) p ∧ p ≠ locks.slot (lk t)) → m.bits? p = m₀.bits? p

namespace Guarded
variable {views : List View} {locks : View} {b lk : Nat → Nat} {all : List Nat} {m₀ m m' : Store} {x : Nat → List Value}
  {y y' : Nat → Value}

theorem binned (h : Guarded views locks b lk all m₀ x y m) : Binned locks lk all m y m := ⟨fun _ _ => rfl, h.locked,
    fun _ _ => rfl⟩

/-- Locks change, which are apart from the tuples. -/
theorem relock (h : Guarded views locks b lk all m₀ x y m) (hseparate : ∀ view ∈ views, ¬view.SameArray locks)
    (h' : Binned locks lk all m y' m') : Guarded views locks b lk all m₀ x y' m' where
  layout space array := (h'.layout space array).trans (h.layout space array)
  holds t ht := (h.holds t ht).of_bits h'.layout fun p hp => h'.frame p fun t' _ e => by
    obtain ⟨view, hview, e'⟩ := hp
    exact hseparate view hview (View.slot_eq_iff.mp (e'.symm.trans e)).1
  locked := h'.holds
  frame p hp := (h'.frame p fun t ht => (hp t ht).2).trans (h.frame p hp)

theorem congr (h : Guarded views locks b lk all m₀ x y m) (hy : ∀ t ∈ all, y' (lk t) = y (lk t)) :
    Guarded views locks b lk all m₀ x y' m :=
  ⟨h.layout, h.holds, fun t ht => hy t ht ▸ h.locked t ht, h.frame⟩

/-- Some threads replace their tuples. -/
theorem store {A : List Nat} {f : Nat → List Value → List Value} {es : List (Nat × Write)}
    (h : Guarded views locks b lk all m₀ x y m) (happart : ViewsApart views)
    (hseparate : ∀ view ∈ views, ¬view.SameArray locks) (hsub : ∀ t ∈ A, t ∈ all)
    (hinj : A.Pairwise fun t t' => b t ≠ b t') (htypes : ∀ t ∈ A, (f t (x (b t))).map Value.type = views.map (·.type))
    (hes : ∀ e ∈ es, e.1 ∈ A ∧ tupleSlots views (b e.1) e.2.slot)
    (hwrites : ∀ t ∈ A, writesOf t es = tupleWrites views (b t) (f t (x (b t)))) :
    Guarded views locks b lk all m₀ (A.foldl (advance b f) x) y (m.puts (es.map (·.2))) where
  layout space array := (Store.layout?_puts _ _ _).trans (h.layout space array)
  holds t ht := by
    by_cases hstored : ∃ t' ∈ A, b t' = b t
    · obtain ⟨t', ht', e⟩ := hstored
      rw [← e, foldl_advance_of_pairwise hinj ht']
      refine Store.holdsAll_puts_of_own happart (fun t₁ h₁ t₂ h₂ e => ?_)
        (fun t ht => (h.holds t (hsub t ht)).reaches) htypes hes hwrites ht'
      by_contra hne
      have : Std.Symm fun t t' => b t ≠ b t' := ⟨fun _ _ => Ne.symm⟩
      exact hinj.forall h₁ h₂ hne e
    · push Not at hstored
      rw [foldl_advance_of_forall_ne hstored]
      refine (h.holds t ht).puts_of_forall_not fun w hw hslot => ?_
      obtain ⟨e, he, rfl⟩ := List.mem_map.mp hw
      exact hstored _ (hes e he).1 (tupleSlots_unique (hes e he).2 hslot)
  locked t ht := (h.locked t ht).puts_of_forall_ne fun w hw hslot => by
    obtain ⟨e, he, rfl⟩ := List.mem_map.mp hw
    obtain ⟨view, hview, e'⟩ := (hes e he).2
    exact hseparate view hview (View.slot_eq_iff.mp (e'.symm.trans hslot)).1
  frame p hp := by
    rw [Store.bits?_puts_of_forall_ne fun w hw hslot => ?_]
    · exact h.frame p hp
    · obtain ⟨e, he, rfl⟩ := List.mem_map.mp hw
      exact (hp _ (hsub _ (hes e he).1)).1 (hslot ▸ (hes e he).2)

end Guarded

/-- The threads try to change their locks. -/
theorem Run.Brings.contest_locks {ctx : GroupContext} {all active : List Nat} {views : List View} {locks : View}
    {lk : Nat → Nat} {y : Nat → Value} {old : Ident} {slot : Exp} {e d : Int32} {T : Nat → Thread → Prop}
    (b : Nat → Nat) (m₀ : Store) (x : Nat → List Value) (hseparate : ∀ view ∈ views, ¬view.SameArray locks)
    (hnd : active.Nodup) (hsub : ∀ t ∈ active, t ∈ all) (hy : ∀ t ∈ active, y (lk t) = .i32 e)
    (hT : ∀ t ∈ active, ∀ th, T t th → CanSwap ctx old locks slot (.i32 e) (.i32 d) (lk t) (.i32 e) (.i32 d) th) :
    Run.Brings active (Scene.of active (Guarded views locks b lk all m₀ x y) T)
      (Run.exec ctx (.compareSwap old locks slot (.i32 e) (.i32 d)) active) fun m th => ∃ won,
        Won lk (fun _ _ => Value.i32 d) y active won ∧
          Guarded views locks b lk all m₀ x (won.foldl (advance lk fun _ _ => Value.i32 d) y) m ∧
            ∀ t ∈ active, ∃ th₀, T t th₀ ∧ th t = th₀.bind old
              (if t ∈ won then .i32 e else won.foldl (advance lk fun _ _ => Value.i32 d) y (lk t)) := by
  refine Run.Brings.imp (P := fun m th => ∃ m₁, Guarded views locks b lk all m₀ x y m₁ ∧
    Scene.of active (Binned locks lk all m₁ y) T m th) (Run.Brings.of_exists fun m₁ => Run.Brings.of_and fun hm₁ => ?_)
      (fun m th hm => ⟨m, hm.1, hm.1.binned, hm.2⟩) fun m th => id
  refine (contest m₁ (f := fun _ _ => Value.i32 d) hnd hsub fun t ht th hth => ?_).imp (fun m th => id)
    fun m th hm => ?_
  · rw [hy t ht]
    exact hT t ht th hth
  · obtain ⟨won, hwon, hm, hth⟩ := hm
    refine ⟨won, hwon, hm₁.relock hseparate hm, fun t ht => ?_⟩
    obtain ⟨th₀, hth₀, e'⟩ := hth t ht
    exact ⟨th₀, hth₀, by rw [e', hy t ht]⟩

/-! ### Critical sections -/

/-- The views of the components. -/
abbrev Lockers.views (places : List ((View × Param) × Ident)) : List View := places.map (·.1.1)

/-- The variables into which the components are read. -/
abbrev Lockers.accs (places : List ((View × Param) × Ident)) : List Ident := places.map (·.2)

open Lockers in
/-- Threads that update tuples, each under the lock of its bucket. The places of the components have the
    variables into which they are read. -/
structure Lockers (ctx : GroupContext) (all : List Nat) (places : List ((View × Param) × Ident)) (results : List Exp)
    (index slot : Exp) (locks : View) (continues old released : Ident) (B : Nat → Scope) (b lk : Nat → Nat)
    (f : Nat → List Value → List Value) : Prop where
  off : ctx.checkRaces = false
  nodup : all.Nodup
  apart : ViewsApart (views places)
  separate : ∀ view ∈ views places, ¬view.SameArray locks
  lockType : locks.type = .i32
  params : ∀ p ∈ places, p.1.2.type = p.1.1.type
  names : (continues :: old :: released :: accs places).Nodup
  unknown : ∀ t ∈ all, ∀ name ∈ continues :: old :: released :: accs places, B t name = none
  free : ∀ name ∈ continues :: old :: released :: accs places, ctx.captured[name]? = none
  index : ∀ t ∈ all, Exp.IsInt (B t) index (b t)
  slot : ∀ t ∈ all, Exp.IsInt (B t) slot (lk t)
  shared : ∀ t t', b t = b t' → lk t = lk t'
  results : ∀ t ∈ all, ∀ τ vs, (B t).Le τ → vs.map Value.type = (views places).map (·.type) →
    Exp.Values τ ((accs places).map .var) vs → Exp.Values τ results (f t vs)
  typed : ∀ t ∈ all, ∀ vs, vs.map Value.type = (views places).map (·.type) →
    (f t vs).map Value.type = (views places).map (·.type)

namespace Lockers
open Run
variable {ctx : GroupContext} {all A : List Nat} {places : List ((View × Param) × Ident)} {results : List Exp}
  {index slot : Exp} {locks : View} {continues old released : Ident} {B : Nat → Scope} {b lk : Nat → Nat}
  {f : Nat → List Value → List Value} {own : Nat → Memory} {m₀ : Store} {x : Nat → List Value} {y : Nat → Value}

/-- The statements that read the components and store the results. -/
def work (places : List ((View × Param) × Ident)) (results : List Exp) (index : Exp) (fence : Fence)
    (released : Ident) :
    List Stmt := [
  .comment "bind lhs" (.block (places.flatMap fun p => [.declare p.2 p.1.2.type false, .read p.2 p.1.1 index])),
  .comment "update result" (.block (((views places).zip results).map fun p => .write p.1 index p.2)),
  .memFence fence,
  .declare released .i32 false]

/-- The code under the lock. -/
def critical (places : List ((View × Param) × Ident)) (results : List Exp) (index slot : Exp) (locks : View)
    (fence : Fence) (continues released : Ident) : Stmt :=
  .block (work places results index fence released ++ [
    .compareSwap released locks slot (.i32 Locking.held) (.i32 Locking.unlocked),
    .set continues (.bool false)])

/-- What a thread knows in the loop, and whether it goes on. -/
def In (ctx : GroupContext) (continues : Ident) (B : Nat → Scope) (own : Nat → Memory) (go : Bool) (t : Nat)
    (th : Thread) :
    Prop := th.Knows ctx.captured ((B t).set continues (.bool go)) (own t)

/-- A thread in the loop that also has a variable for a lock. -/
def With (ctx : GroupContext) (continues : Ident) (B : Nat → Scope) (own : Nat → Memory) (name : Ident) (t : Nat)
    (th : Thread) :
    Prop := ∃ v : Value, v.type = .i32 ∧ th.Knows ctx.captured (((B t).set continues (.bool true)).set name v) (own t)

section
variable (h : Lockers ctx all places results index slot locks continues old released B b lk f)
include h

theorem unknown_of_ne {t : Nat} (ht : t ∈ all) {name : Ident} (hname : name ∈ old :: released :: accs places)
    (go : Bool) :
    (B t).set continues (.bool go) name = none := by
  have hne : continues ≠ name := fun e => (List.nodup_cons.mp h.names).1 (e ▸ hname)
  rw [Scope.set_of_ne hne]
  exact h.unknown t ht name (List.mem_cons_of_mem continues hname)

theorem nodup_accs : (accs places).Nodup :=
  (List.nodup_cons.mp (List.nodup_cons.mp (List.nodup_cons.mp h.names).2).2).2

/-- The variable of a lock can be forgotten. -/
theorem forget {t : Nat} (ht : t ∈ all) {name : Ident} (hname : name ∈ old :: released :: accs places) {th : Thread}
    (hth : With ctx continues B own name t th) : In ctx continues B own true t th := by
  obtain ⟨_, -, hth⟩ := hth
  exact hth.forget (Scope.le_set (h.unknown_of_ne ht hname true))

theorem canSwap {t : Nat} (ht : t ∈ all) {name : Ident} (hname : name ∈ old :: released :: accs places) {th : Thread}
    (hth : With ctx continues B own name t th) (e d : Int32) :
    CanSwap ctx name locks slot (.i32 e) (.i32 d) (lk t) (.i32 e) (.i32 d) th := by
  obtain ⟨v, hv, hth⟩ := hth
  have hle : (B t).Le (((B t).set continues (.bool true)).set name v) :=
    (Scope.le_set (h.unknown t ht _ List.mem_cons_self)).trans (Scope.le_set (h.unknown_of_ne ht hname true))
  exact ⟨((h.slot t ht).mono hle).mono hth.scope, rfl, rfl, ⟨h.lockType.symm, h.lockType.symm⟩, v,
    Thread.own_of_known hth.scope (h.free name (List.mem_cons_of_mem _ hname)) Scope.set_self, hv.trans h.lockType.symm⟩

/-- Threads with different locks update their tuples. -/
theorem works (hnd : A.Nodup) (hsub : ∀ t ∈ A, t ∈ all) (happart : A.Pairwise fun t t' => lk t ≠ lk t')
    (fence : Fence) :
    Brings A (Scene.of A (Guarded (views places) locks b lk all m₀ x y) (In ctx continues B own true))
      (execAll ctx (work places results index fence released) A)
      (Scene.of A (Guarded (views places) locks b lk all m₀ (A.foldl (advance b f) x) y)
        (With ctx continues B own released)) := by
  -- Threads with different locks have different buckets, so their updates do not meet.
  have hinj : A.Pairwise fun t t' => b t ≠ b t' := happart.imp fun hne e => hne (h.shared _ _ e)
  refine Brings.imp (P := fun m th => ∃ m₁, Guarded (views places) locks b lk all m₀ x y m₁ ∧
    Scene.of A (· = m₁) (In ctx continues B own true) m th) (Brings.of_exists fun m₁ => Brings.of_and fun hm₁ => ?_)
      (fun m th hm => ⟨m, hm.1, rfl, hm.2⟩) fun m th => id
  rw [← exec_seq_eq]
  refine (Brings.phase h.off hnd (fun t p => t ∈ A ∧ tupleSlots (views places) (b t) p)
    (fun t th ws => With ctx continues B own released t th ∧ ws = tupleWrites (views places) (b t) (f t (x (b t))))
    fun t ht th hth => ?_).imp (fun m th => id) fun m th hm => ?_
  · have hle : (B t).Le ((B t).set continues (.bool true)) :=
      Scope.le_set (h.unknown t (hsub t ht) _ List.mem_cons_self)
    have hx := hm₁.holds t (hsub t ht)
    have hi := (h.index t (hsub t ht)).mono hle
    rw [Solo.ensures_seq, work, Solo.ensuresAll_cons, Solo.ensures_comment, Solo.ensures_block,
      ← Solo.ensuresAll_append]
    refine Solo.ensures_components hth.scope hi h.params h.nodup_accs (fun p hp => ?_) hx (fun p hp t' hne hown => ?_)
      fun σ' th' hle' hth' ha _ hvalues => ?_
    · exact h.unknown_of_ne (hsub t ht) (by simp [accs, List.mem_map_of_mem hp]) true
    · have : Std.Symm fun t t' => b t ≠ b t' := ⟨fun _ _ => Ne.symm⟩
      exact hinj.forall hown.1 ht hne (tupleSlots_unique hown.2 hp)
    · rw [Solo.ensuresAll_cons, Solo.ensures_comment, Solo.ensures_block, ← Solo.ensuresAll_append]
      refine Solo.ensures_writes hth' (hi.mono hle') (h.results t (hsub t ht) σ' _ (hle.trans hle') hx.types ?_)
        (h.typed t (hsub t ht) _ hx.types) hx.reaches (fun p hp => ⟨ht, hp⟩) ?_
      · rwa [accs, List.map_map]
      · rw [Solo.ensuresAll_cons, Solo.ensuresAll_singleton, Solo.Ensures, Solo.Ensures]
        refine ⟨⟨.zero .i32, Value.type_zero .i32, ?_⟩, List.nil_append _⟩
        exact ⟨hle'.set.trans (Thread.set_le_scope_bind hth'), ha.trans hth.arrays⟩
  · obtain ⟨es, rfl, hes, hC⟩ := hm
    refine ⟨hm₁.store h.apart h.separate hsub hinj (fun t ht => ?_) (fun e he => (hes e he).2)
      fun t ht => (hC t ht).2, fun t ht => (hC t ht).1⟩
    exact h.typed t (hsub t ht) _ (hm₁.holds t (hsub t ht)).types

variable (own m₀) in
/-- Threads with different locks update their tuples and release their locks. -/
theorem enter (hnd : A.Nodup) (hsub : ∀ t ∈ A, t ∈ all) (happart : A.Pairwise fun t t' => lk t ≠ lk t') (fence : Fence)
    (hheld : ∀ t ∈ A, y (lk t) = .i32 Locking.held)
    (hothers : ∀ t ∈ all, (∀ t' ∈ A, lk t' ≠ lk t) → y (lk t) = .i32 Locking.unlocked) :
    Brings A (Scene.of A (Guarded (views places) locks b lk all m₀ x y) (In ctx continues B own true))
      (exec ctx (critical places results index slot locks fence continues released) A)
      (Scene.of A (Guarded (views places) locks b lk all m₀ (A.foldl (advance b f) x) fun _ => .i32 Locking.unlocked)
        (In ctx continues B own false)) := by
  have hreleased : released ∈ old :: released :: accs places := by simp
  have releases := Brings.contest_locks b m₀ (A.foldl (advance b f) x) h.separate hnd hsub hheld
    fun t ht th (hth : With ctx continues B own released t th) =>
      h.canSwap (hsub t ht) hreleased hth Locking.held Locking.unlocked
  refine Brings.block <| Brings.append _ (h.works hnd hsub happart fence) <| Brings.cons releases <| Brings.single ?_
  refine Brings.of_exists fun won => Brings.of_and fun hwon => ?_
  -- No two of the threads have the same lock, so all of them release theirs.
  have hall : ∀ t ∈ A, t ∈ won := fun t ht => by
    by_contra hnot
    obtain ⟨t', ht', e⟩ := hwon.exists_of_lost ht hnot
    have : Std.Symm fun t t' => lk t ≠ lk t' := ⟨fun _ _ => Ne.symm⟩
    exact happart.forall (hwon.sublist.subset ht') ht (fun e' => hnot (e' ▸ ht')) e
  have hwonapart : won.Pairwise fun t t' => lk t ≠ lk t' := happart.sublist hwon.sublist
  have hfree : ∀ t ∈ all, won.foldl (advance lk fun _ _ => Value.i32 Locking.unlocked) y (lk t) =
    .i32 Locking.unlocked := by
    intro t ht
    by_cases hmem : ∃ t' ∈ won, lk t' = lk t
    · obtain ⟨t', ht', e⟩ := hmem
      rw [← e, foldl_advance_of_pairwise hwonapart ht']
    · push Not at hmem
      rw [foldl_advance_of_forall_ne hmem]
      exact hothers t ht fun t' ht' => hmem t' (hall t' ht')
  refine (Brings.silent (T := In ctx continues B own true) h.off hnd fun m _ t ht th hth => ?_).imp (fun m th hm => ?_)
    fun m th => id
  · refine Solo.ensures_set_of_known hth.scope (h.free _ List.mem_cons_self) Scope.set_self rfl rfl
      fun th' hth' ha => ?_
    rw [Scope.set_set] at hth'
    exact ⟨⟨hth', ha.trans hth.arrays⟩, rfl⟩
  · refine ⟨hm.1.congr fun t ht => (hfree t ht).symm, fun t ht => ?_⟩
    obtain ⟨th₀, hth₀, e⟩ := hm.2 t ht
    exact e ▸ ((h.forget (hsub t ht) hreleased hth₀).bind released _).forget
      (Scope.le_set (h.unknown_of_ne (hsub t ht) hreleased true))

variable (own m₀) in
/-- The threads that have seen a free lock have got it. -/
theorem tries {todo won : List Nat} (seen : Nat → Value) (hnd : todo.Nodup) (hsub : ∀ t ∈ todo, t ∈ all)
    (hwon : ∀ t ∈ won, t ∈ todo) (happart : won.Pairwise fun t t' => lk t ≠ lk t') (fence : Fence)
    (hseen : ∀ t ∈ todo, (seen t).type = .i32 ∧ (seen t = .i32 Locking.unlocked ↔ t ∈ won))
    (hheld : ∀ t ∈ won, y (lk t) = .i32 Locking.held)
    (hothers : ∀ t ∈ all, (∀ t' ∈ won, lk t' ≠ lk t) → y (lk t) = .i32 Locking.unlocked) :
    Brings todo (Scene.of todo (Guarded (views places) locks b lk all m₀ x y) fun t th =>
        th.Knows ctx.captured (((B t).set continues (.bool true)).set old (seen t)) (own t))
      (exec ctx (.when ((Exp.var old).equals (.i32 Locking.unlocked))
        (critical places results index slot locks fence continues released)) todo)
      (Scene.of todo (Guarded (views places) locks b lk all m₀ ((todo.filter (decide <| · ∈ won)).foldl (advance b f) x)
        fun _ => .i32 Locking.unlocked) fun t th =>
          if t ∈ won then In ctx continues B own false t th else With ctx continues B own old t th) := by
  have hmem : ∀ t, t ∈ todo.filter (decide <| · ∈ won) ↔ t ∈ won := fun t => by
    rw [List.mem_filter, decide_eq_true_eq, and_iff_right_iff_imp]
    exact hwon t
  have hdiffer : (todo.filter (decide <| · ∈ won)).Pairwise fun t t' => lk t ≠ lk t' := by
    have : Std.Symm fun t t' => lk t ≠ lk t' := ⟨fun _ _ => Ne.symm⟩
    exact List.Nodup.pairwise_of_forall_ne (hnd.filter _) fun t ht t' ht' hne => happart.forall ((hmem t).mp ht)
      ((hmem t').mp ht') hne
  have enters := h.enter own m₀ (x := x) (y := y) (hnd.filter (decide <| · ∈ won))
    (fun t ht => hsub t (List.mem_filter.mp ht).1) hdiffer fence (fun t ht => hheld t ((hmem t).mp ht))
    fun t ht hne => hothers t ht fun t' ht' => hne t' ((hmem t').mpr ht')
  have others := enters.widen (fun t ht => (List.mem_filter.mp ht).1) (With ctx continues B own old)
  refine Brings.when (fun t => decide (t ∈ won)) (fun m th hm t ht => ?_)
    (others.imp (fun m th hm => ?_) fun m th hm => ?_)
  · obtain ⟨a, ha⟩ := Value.exists_i32 (hseen t ht).1
    have htest := Exp.IsBool.equals_words (y := .i32 Locking.unlocked) (b := Locking.unlocked)
      (Exp.eval_mono (hm.2 t ht).scope (Exp.eval_var (Scope.set_self.trans (congrArg some ha)))) rfl
    -- A thread has got its lock if it saw it free.
    have hiff : a = Locking.unlocked ↔ t ∈ won := by rw [← (hseen t ht).2, ha, Value.i32.injEq]
    rwa [decide_eq_decide.mpr hiff] at htest
  · refine ⟨⟨hm.1, fun t ht => ?_⟩, fun t ht _ => ⟨_, (hseen t ht).1, hm.2 t ht⟩⟩
    have ht := (List.mem_filter.mp ht).1
    exact h.forget (hsub t ht) List.mem_cons_self ⟨_, (hseen t ht).1, hm.2 t ht⟩
  · refine ⟨hm.1.1, fun t ht => ?_⟩
    dsimp only
    split
    · exact hm.1.2 t ((hmem t).mpr ‹_›)
    · exact hm.2 t ht (mt (hmem t).mp ‹_›)

variable (own m₀) in
/-- In each round all locks are free at first, so some threads get theirs, update their tuples and leave. The
    locks are free in the end, and the others try again. -/
theorem contends (fence fence' : Fence) : Contends ctx all (.var continues) (.block [
      .compareSwap old locks slot (.i32 Locking.unlocked) (.i32 Locking.held),
      .when ((Exp.var old).equals (.i32 Locking.unlocked))
        (critical places results index slot locks fence continues released),
      .memFence fence'])
    (fun x => Guarded (views places) locks b lk all m₀ x fun _ => .i32 Locking.unlocked)
    (fun _ => With ctx continues B own old) (In ctx continues B own false) (advance b f) where
  ready ht hth := Exp.IsBool.evalBool
    (Exp.eval_mono (h.forget ht List.mem_cons_self hth).scope (Exp.eval_var Scope.set_self))
  finished _ hth := Exp.IsBool.evalBool (Exp.eval_mono hth.scope (Exp.eval_var Scope.set_self))
  round {todo x} hne hnd hsub := by
    have takes := Brings.contest_locks b m₀ x (y := fun _ => .i32 Locking.unlocked) h.separate hnd hsub (fun _ _ => rfl)
      fun t ht th (hth : With ctx continues B own old t th) =>
        h.canSwap (hsub t ht) List.mem_cons_self hth Locking.unlocked Locking.held
    refine Brings.block <| Brings.cons takes <| Brings.of_exists fun won => Brings.of_and fun hwon => ?_
    let now := won.foldl (advance lk fun _ _ => Value.i32 Locking.held) fun _ => .i32 Locking.unlocked
    let seen (t : Nat) : Value := if t ∈ won then .i32 Locking.unlocked else now (lk t)
    -- Of several threads with one lock, a single one can get it.
    have hapart : won.Pairwise fun t t' => lk t ≠ lk t' := hwon.apart fun _ _ => by decide
    have tries := Brings.of_and (p := ∀ t ∈ todo, (seen t).type = .i32) fun htypes =>
      h.tries own m₀ (x := x) (y := now) seen hnd hsub hwon.sublist.subset hapart fence
        (fun t ht => ⟨htypes t ht, by
          by_cases hmem : t ∈ won
          · simp [seen, hmem]
          · simpa [seen, hmem] using hwon.lost t ht hmem⟩)
        (fun t ht => foldl_advance_of_pairwise hapart ht) fun t ht hne => foldl_advance_of_forall_ne hne
    refine Brings.cons (tries.imp (fun m th hm => ?_) fun m th => id)
      (Brings.single (Brings.memFence.imp (fun m th => id) fun m th hm => ?_))
    · refine ⟨fun t ht => ?_, hm.1, fun t ht => ?_⟩
      · dsimp only [seen]
        split
        · rfl
        · exact (hm.1.locked t (hsub t ht)).type.trans h.lockType
      · obtain ⟨th₀, hth₀, e⟩ := hm.2 t ht
        exact e ▸ (h.forget (hsub t ht) List.mem_cons_self hth₀).bind old (seen t)
    · refine ⟨todo.filter (decide <| · ∈ won), todo.filter (fun t => !decide (t ∈ won)), ?_,
        List.filter_append_perm _ _, hm.1,
        fun t ht => ?_, fun t ht => ?_⟩
      · obtain ⟨t, ht⟩ := List.exists_mem_of_ne_nil _ (hwon.ne_nil hne)
        exact List.ne_nil_of_mem (List.mem_filter.mpr ⟨hwon.sublist.subset ht, decide_eq_true ht⟩)
      · obtain ⟨ht, hnot⟩ := List.mem_filter.mp ht
        have := hm.2 t ht
        dsimp only at this
        rwa [if_neg (by simpa using hnot)] at this
      · obtain ⟨ht, hmem⟩ := List.mem_filter.mp ht
        have := hm.2 t ht
        dsimp only at this
        rwa [if_pos (of_decide_eq_true hmem)] at this

variable (own m₀ x) in
/-- The threads update their tuples one after another. -/
theorem loop_advances (hlimit : all.length ≤ ctx.loopLimit) (fence fence' : Fence) :
    Brings all (Scene.of all (Guarded (views places) locks b lk all m₀ x fun _ => .i32 Locking.unlocked) fun t th =>
        th.Knows ctx.captured (B t) (own t))
      (exec ctx (.block [
        .declareInit continues .bool (.bool true),
        .declare old .i32 false,
        .repeatWhile (.var continues) <| .block [
          .compareSwap old locks slot (.i32 Locking.unlocked) (.i32 Locking.held),
          .when ((Exp.var old).equals (.i32 Locking.unlocked))
            (critical places results index slot locks fence continues released),
          .memFence fence']]) all)
      fun m th => ∃ order : List Nat, order.Perm all ∧
        Guarded (views places) locks b lk all m₀ (order.foldl (advance b f) x) (fun _ => .i32 Locking.unlocked) m ∧
          ∀ t ∈ all, (th t).Knows ctx.captured (B t) (own t) := by
  have loops := (h.contends own m₀ fence fence').repeatWhile h.nodup hlimit x
  refine Brings.block <| Brings.append [_, _] (Brings.silentAll h.off h.nodup fun m _ t ht th hth => ?_) <|
    Brings.single <| loops.imp (fun m th => id) fun m th hm => ?_
  · rw [Solo.ensuresAll_cons]
    refine Solo.ensures_declareInit_of_known hth.scope (h.unknown t ht _ List.mem_cons_self) rfl rfl
      fun th₁ hth₁ ha₁ => ?_
    rw [Solo.ensuresAll_singleton]
    exact Solo.ensures_declare ⟨⟨.zero .i32, Value.type_zero .i32, Thread.set_le_scope_bind hth₁, ha₁.trans hth.arrays⟩,
      rfl⟩
  · obtain ⟨order, hperm, hm, hth⟩ := hm
    exact ⟨order, hperm, hm, fun t ht => (hth t ht).forget (Scope.le_set (h.unknown t ht _ List.mem_cons_self))⟩

end

end Lockers
end SegKernel
