import SegKernel.Proofs.Collectives.Starting
import SegKernel.Proofs.Updates.Linearizing
import Mathlib.Data.List.Permutation

/-! Threads of a group that take values into shared elements at the same time. Whatever the update, it ends, and
    its outcome is one of those that the threads have when they take turns. -/

namespace SegKernel
open Run Collective

namespace AtomicUpdate

/-- The slots of the locks that an update takes. -/
def takes (u : AtomicUpdate) (locking : Option Locking) (count : Nat) (p : Slot) : Prop :=
  u.needsLocks = true ∧ ∃ k ∈ locking, ∃ j < count, p = k.locks.slot j

theorem code_at {n : Nat} {update : AtomicUpdate} {l : Lambda} {locking : Option Locking} {dests : List View}
    {index : Exp} {values : List Exp} {P : Stmt → Prop} (hdests : dests.length = l.arity)
    (hvalues : values.length = l.arity) (h : Fresh.AtExcept n (update.body l locking dests index values) P) :
    Fresh.AtExcept n (update.code l locking dests index values) fun stmt =>
      ∃ body, stmt = .comment "atomic update" body ∧ P body := by
  unfold code
  rw [if_neg (by simp [hdests, hvalues])]
  exact h.map fun body hbody => ⟨body, rfl, hbody⟩

end AtomicUpdate

/-- Either each component is updated on its own, or all of them together. -/
theorem Lambda.atomicUpdate_cases (l : Lambda) (table : AtomicsTable) :
    (∃ cs, l.components? = some cs ∧ (∀ c ∈ cs, c.2.bitWidth = 32) ∧
      l.atomicUpdate table = .components (cs.map (ComponentUpdate.select table))) ∨
    (l.wholeUpdate = .swap ∧ l.atomicUpdate table = .swap) ∨ l.atomicUpdate table = .locked := by
  have whole : l.wholeUpdate = .swap ∨ l.wholeUpdate = .locked := by
    unfold wholeUpdate
    split
    · split
      · exact Or.inl rfl
      · exact Or.inr rfl
    · exact Or.inr rfl
  unfold atomicUpdate
  split
  · split
    · rename_i cs hcs hwidth
      exact Or.inl ⟨cs, hcs, fun c hc => beq_iff_eq.mp (List.all_eq_true.mp hwidth c hc), rfl⟩
    · exact Or.inr (whole.imp (fun h => ⟨h, h⟩) id)
  · exact Or.inr (whole.imp (fun h => ⟨h, h⟩) id)

theorem Linearizes.loosen {l : Lambda} {dests : List View} {all : List Nat} {b : Nat → Nat}
    {f : Nat → l.Tuple → l.Tuple} {found : Nat → l.Tuple} {loose loose' : Slot → Prop} {order : Nat → List Nat}
    {m₀ m : Store} (h : Linearizes dests all b f found loose order m₀ m) (hle : ∀ p, loose p → loose' p) :
    Linearizes dests all b f found loose' order m₀ m where
  permutes := h.permutes
  holds := h.holds
  others p hp hloose := h.others p hp (mt (hle p) hloose)
  layout := h.layout

namespace Updaters
variable {l : Lambda} {dests : List View} {index : Exp} {values : List Exp} {ctx : GroupContext} {all : List Nat}
  {B : Nat → Scope} {n count : Nat} {b : Nat → Nat} {op : Nat → l.Tuple → l.Tuple → l.Tuple}
  {taken found : Nat → l.Tuple} {m₀ : Store} {own : Nat → Memory} {locking : Option Locking}

variable (own) in
/-- Whatever update is selected, it takes the values in. -/
theorem body_linearizes (h : Updaters l dests index values ctx all B n b op taken found m₀) (table : AtomicsTable)
    (hlocks : (l.atomicUpdate table).needsLocks = true → ∃ k, locking = some k ∧ k.Free dests all B count m₀) :
    Fresh.AtExcept n ((l.atomicUpdate table).body l locking dests index values) fun stmt =>
      Brings all (Scene.of all (· = m₀) (Keeping ctx B own)) (exec ctx stmt all) fun m th =>
        (∃ order, Linearizes dests all b (fun t x => op t x (taken t)) found
          ((l.atomicUpdate table).takes locking count)
            order m₀ m ∧
          ((∀ us, l.atomicUpdate table ≠ .components us) → ∀ i, order i = order 0) ∧
          ((l.atomicUpdate table).needsLocks = true →
            ∀ k ∈ locking, ∀ j < count, m.Holds k.locks j (.i32 Locking.unlocked))) ∧
        ∀ t ∈ all, Keeping ctx B own t (th t) := by
  obtain ⟨cs, hcs, hwidth, hupdate⟩ | ⟨hswap, hupdate⟩ | hlocked := l.atomicUpdate_cases table
  · rw [hupdate]
    unfold AtomicUpdate.body
    refine (Fresh.AtExcept.mapM (fun _ => rfl) (h.components_linearize own hcs hwidth table)).map fun stmts hstmts =>
      (Brings.block hstmts).imp (fun m th => id) fun m th hm => ⟨?_, hm.2⟩
    obtain ⟨⟨order, horder⟩, -⟩ := hm
    exact ⟨order, horder.loosen fun _ => False.elim, fun hne => absurd rfl (hne _),
      fun hlocks => absurd hlocks (by simp [AtomicUpdate.needsLocks])⟩
  · rw [hupdate]
    refine (h.swap_linearizes own hswap locking).imp fun stmt hstmt =>
      hstmt.imp (fun m th => id) fun m th hm => ⟨?_, hm.2⟩
    obtain ⟨⟨order, horder⟩, -⟩ := hm
    exact ⟨fun _ => order, horder.loosen fun _ => False.elim, fun _ _ => rfl, fun hlocks => absurd hlocks (by decide)⟩
  · obtain ⟨k, rfl, hk⟩ := hlocks (by rw [hlocked]; rfl)
    rw [hlocked]
    refine (Fresh.AtExcept.lift (h.locked_linearizes own hk)).imp fun stmt hstmt =>
      hstmt.imp (fun m th => id) fun m th hm => ⟨?_, hm.2⟩
    obtain ⟨⟨order, horder, hfree⟩, -⟩ := hm
    refine ⟨fun _ => order, horder.loosen fun p hp => ⟨rfl, k, rfl, hp⟩, fun _ _ => rfl, fun _ k' hk' => ?_⟩
    obtain rfl := Option.some.inj hk'
    exact hfree

end Updaters

/-! ### Any threads of a group -/

/-- Threads of a group are to take values into elements, each at its own index, with code that takes names from
    number `n` on. The device does not check for races: plain reads and writes stand between the atomic steps of an
    update, which a check reports where two waves meet at an element. -/
structure Contention (l : Lambda) (dests : List View) (index : Exp) (values : List Exp) (ctx : GroupContext)
    (s : GroupState) (n : Nat) (active : List Nat) (b : Nat → Nat) (op : Nat → l.Tuple → l.Tuple → l.Tuple)
    (taken found : Nat → l.Tuple) : Prop where
  unchecked : ctx.checkRaces = false
  nodup : active.Nodup
  present : ∀ t ∈ active, t < s.threads.size
  free : ∀ name, New n name → ctx.captured[name]? = none
  wellFormed : l.isWellFormed = true
  distinct : (l.params.map (·.name)).Nodup
  types : dests.map (·.type) = l.resultTypes
  apart : ViewsApart dests
  arity : values.length = l.arity
  index : ∀ t ∈ active, Exp.IsInt (knowledge s ctx n t) index (b t)
  values : ∀ t ∈ active, Exp.Values (knowledge s ctx n t) values (taken t).1
  total : ∀ t ∈ active, l.Computes (knowledge s ctx n t) (op t)
  holds : ∀ t ∈ active, s.store.HoldsAll dests (b t) (found (b t)).1

section
variable {l : Lambda} {dests : List View} {index : Exp} {values : List Exp} {ctx : GroupContext} {s : GroupState}
  {n count : Nat} {active : List Nat} {b : Nat → Nat} {op : Nat → l.Tuple → l.Tuple → l.Tuple}
  {taken found : Nat → l.Tuple} {locking : Option Locking}

/-- The threads need no more rounds than there are threads. -/
theorem Contention.updaters (h : Contention l dests index values ctx s n active b op taken found) :
    Updaters l dests index values (ctx.withLimit active.length) active (knowledge s ctx n)
      n b op taken found s.store where
  contenders := ⟨h.unchecked, h.nodup, Nat.le_refl _, fun t _ => knowledge_before t, h.free, h.index⟩
  wellFormed := h.wellFormed
  distinct := h.distinct
  types := h.types
  apart := h.apart
  arity := h.arity
  values := h.values
  total := h.total
  holds := h.holds

/-- On a device without race checks, threads that take their values into shared elements at the same time end,
    each loop after as many rounds as there are threads at most. The elements hold what they would hold if the
    threads had taken turns, in some order; where each component is updated on its own, each one has an order.
    The locks are free in the end, and nothing else changes. -/
theorem AtomicUpdate.code_linearizes (h : Contention l dests index values ctx s n active b op taken found)
    (table : AtomicsTable) (hlocks : (l.atomicUpdate table).needsLocks = true →
      ∃ k, locking = some k ∧ k.Free dests active (knowledge s ctx n) count s.store) :
    ∃ code m, Fresh.run ((l.atomicUpdate table).code l locking dests index values).run n = (.ok code, m) ∧
      ∃ order s', (∀ limit, active.length ≤ limit → Run.exec (ctx.withLimit limit) code active s = .ok () s') ∧
        Linearizes dests active b (fun t x => op t x (taken t)) found ((l.atomicUpdate table).takes locking count) order
          s.store s'.store ∧
        ((∀ us, l.atomicUpdate table ≠ .components us) → ∀ i, order i = order 0) ∧
        ((l.atomicUpdate table).needsLocks = true → ∀ k ∈ locking, ∀ j < count,
          s'.store.Holds k.locks j (.i32 Locking.unlocked)) ∧
        s'.threads.size = s.threads.size ∧ (∀ t ∉ active, s'.thread t = s.thread t) ∧
        ∀ t ∈ active, (s'.thread t).Knows ctx.captured (knowledge s ctx n t) (s.thread t).arrays := by
  have hbody := h.updaters.body_linearizes (fun t => (s.thread t).arrays) table hlocks
  obtain ⟨-, code, hrun, body, rfl, hbrings⟩ := AtomicUpdate.code_at h.updaters.length_dests h.arity hbody
  obtain ⟨s', hexec, hsize, hframe, ⟨order, horder, hsingle, hfree⟩, hknows⟩ :=
    hbrings.comment s h.present ⟨rfl, fun t _ => ⟨knowledge_le t, rfl⟩⟩
  exact ⟨_, _, Prod.ext hrun rfl, order, s', fun limit hlimit => exec_follows_limit hlimit _ active s () s' hexec,
    horder, hsingle, hfree, hsize, hframe, hknows⟩

end

/-- Rows with one lock. -/
def guardedState : GroupState := { countedState with shared := ({} : Memory).insert "locks" (.zeroed .i32 1) }

def rowLock : Locking := ⟨⟨"locks", .i32, .shared, false⟩, .int 1⟩

theorem guarded_free :
    rowLock.Free pairRows.views [1, 0] (knowledge guardedState uncheckedContext 0) 1 guardedState.store where
  type := rfl
  separate view hview := by
    obtain rfl := List.mem_singleton.mp hview
    exact fun h => absurd h.1 (by decide)
  positive := Nat.one_pos
  counted _ _ := Exp.IsInt.int 1
  free j hj := by
    obtain rfl := Nat.lt_one_iff.mp hj
    refine ⟨⟨.i32, 1, ?_, rfl, Nat.one_pos⟩, 0, ?_, rfl⟩
    · simp [Store.layout?, Store.buffer?, guardedState, GroupState.store, rowLock, Buffer.zeroed]
    · simp [Store.bits?, Store.buffer?, guardedState, GroupState.store, rowLock, Buffer.zeroed]

theorem guarded_contention :
    Contention pairRows.lambda pairRows.views (.int 5) [.var "ltid"] uncheckedContext guardedState 0
    [1, 0] (fun _ => 5) (fun _ => sum) (fun t => single (Int64.ofNat t)) fun β => single (Int64.ofNat β) where
  unchecked := rfl
  nodup := by decide
  present := by decide
  free := counted_starts.free
  wellFormed := by decide
  distinct := by decide
  types := rfl
  apart := List.pairwise_singleton _ _
  arity := rfl
  index _ _ := Exp.IsInt.int 5
  values t ht := by
    have hknows : guardedState.Knows uncheckedContext 0 (.var "ltid") Int64.ofNat :=
      ⟨counted_starts.localId.old, counted_starts.localId.eval⟩
    exact .cons (eval_knowledge hknows (by revert t; decide)) .nil
  total _ _ := sum_computes.mono nofun
  holds _ _ := .cons (holds_numbers 36 id rfl (by simp [Store.buffer?, guardedState, countedState, GroupState.store])
    (by decide)) .nil

/-- Two threads add their numbers to one element, in either order. -/
theorem guarded_code_linearizes : ∃ code m s',
    Fresh.run ((pairRows.lambda.atomicUpdate .cuda).code pairRows.lambda (some rowLock) pairRows.views (.int 5)
      [.var "ltid"]).run 0 = (.ok code, m) ∧
    Run.exec (uncheckedContext.withLimit 2) code [1, 0] guardedState = .ok () s' ∧
    s'.store.HoldsAll pairRows.views 5 [.i64 6] ∧ s'.store.Holds rowLock.locks 0 (.i32 0) := by
  obtain ⟨code, m, hrun, order, s', hexec, horder, -, hfree, -⟩ :=
    AtomicUpdate.code_linearizes guarded_contention .cuda fun _ => ⟨rowLock, rfl, guarded_free⟩
  have hsum : ∀ order ∈ [1, 0].permutations',
    (order.foldl (advance (fun _ => 5) fun t x => sum x (single (Int64.ofNat t)))
      fun β => single (Int64.ofNat β)) 5 = single 6 := by decide
  obtain ⟨v, hv, hholds⟩ := horder.holds 0 _ rfl 1 List.mem_cons_self
  rw [hsum _ (List.mem_permutations'.mpr (horder.permutes 0))] at hv
  cases hv
  exact ⟨code, m, s', hrun, hexec 2 (Nat.le_refl 2), .cons hholds .nil, hfree (by decide) _ rfl 0 Nat.one_pos⟩

end SegKernel
