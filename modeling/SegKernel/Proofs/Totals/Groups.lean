import SegKernel.Proofs.Maps.Groups
import SegKernel.Proofs.Totals.Combining

/-! A group of a reduction, from its start to its end. Each of its threads folds its points, and then the group combines
    what its threads have. -/

namespace SegKernel
open Exp Accumulator

namespace Team
variable {G : Team} {K : Slot → Prop} {B : Nat → Scope} {T T' : Nat → Thread → Prop} {m : Store} {stmts : List Stmt}
  {R : List Write → Prop} {S : View → Prop} {M : Store → Prop}

/-- What a group makes of the memory, whatever arrays its threads have. -/
theorem leadsAll_of_does (h : ∀ own, G.DoesAll K (G.Knows B own) (· = m) stmts (G.Knows B own) M) :
    G.LeadsAll (G.Knowing B) m stmts (G.Knowing B) fun ws => M (m.puts ws) := fun s hs => by
  obtain ⟨s', hrun, hs', hM⟩ := (h (fun t => (s.thread t).arrays) m rfl).1 s
    ⟨hs.size, fun t ht => ⟨hs.threads t ht, rfl⟩, hs.store, hs.log⟩
  exact ⟨s', hrun, ⟨hs'.size, fun t ht => (hs'.threads t ht).1, hs'.store, hs'.log⟩, hM⟩

/-- All writes of code go to the arrays that it stores to. -/
theorem LeadsAll.hits (h : G.LeadsAll T m stmts T' R) (htargets : ∀ stmt ∈ stmts, stmt.Targets S) :
    G.LeadsAll T m stmts T' fun ws => R ws ∧ ∀ w ∈ ws, ∃ view, S view ∧ Run.Hits w view := fun s hs => by
  obtain ⟨s', hrun, hs', hR⟩ := h s hs
  refine ⟨s', hrun, hs', hR, fun w hw => ?_⟩
  obtain ⟨e, he, rfl⟩ := List.mem_map.mp hw
  obtain ⟨view, hview, hits⟩ := Run.hits_of_traceAll he
  rw [Stmt.storesAll_eq] at hview
  obtain ⟨stmt, hstmt, hview⟩ := List.mem_flatMap.mp hview
  exact ⟨view, (htargets stmt hstmt).stores view hview, hits⟩

/-! ### The fold of the threads -/

variable {op : SegOp} {H : Surroundings} {n n' k : Nat} {accs : List Accumulator} {Ts : List Total} {s : Sharing}
  {threads p N : Nat} {id : Nat → Nat} {stem text : String} {count point bound : Exp} {visit : Stmt}
  {W : Nat → List Write} {own : Nat → Slot → Prop}

/-- What a thread knows when it has found its place in the launch and has counted its turns. -/
def turning (G : Team) (σ : Scope) (n : Nat) (perThread : Ident) (p t : Nat) : Scope :=
  (G.placed σ n t).set perThread (.i64 (Int64.ofNat p))

/-- The code with which each thread folds its points. -/
def foldCode (accs : List Accumulator) (perThread k : Ident) (text : String) (count point bound : Exp) (visit : Stmt) :
    List Stmt :=
  accs.map Accumulator.declare ++ [.declareInit perThread .i64 count,
    .comment text (.loop k (.var perThread) (.when (point.lt bound) visit))]

/-- The threads of a group find their places, and fold the points that they have. -/
theorem leads_fold (s : Sharing) (threads : Nat) (id : Nat → Nat) (W : Nat → List Write) (own : Nat → Slot → Prop)
    (hop : op.WellNamed H.env) (hcaptured : G.ctx.captured = H.env.bindings H.host) {g : Nat}
    (hgroup : G.ctx.group = Int64.ofNat g) (hoff : G.ctx.checkRaces = false)
    (hstem : stem ∈ uniformStems ++ ownStems ++ arrayStems ++ kernelStems) (hserves : List.Forall₂ Serves accs Ts)
    (hlawful : ∀ T ∈ Ts, T.Lawful H.scope) (registers : Registers (n + 4) n' (names accs).length (names accs))
    (hn : n + 4 ≤ n') (hcount : IsInt H.scope count p) (hp : p ≤ G.ctx.loopLimit) (hbound : IsInt H.scope bound N)
    (hpoint : ∀ t < G.size, ∀ j < p, IsInt ((G.turning H.scope n (numbered stem n') p t).set (numbered "k" (n' + 1))
      (.i64 (Int64.ofNat j))) point (s.point threads p (id t) j : Nat))
    (hvisit : ∀ t < G.size, ∀ j < p, s.point threads p (id t) j < N → ∀ points th Q ws,
      ((G.turning H.scope n (numbered stem n') p t).set (numbered "k" (n' + 1)) (.i64 (Int64.ofNat j))).Le
        (th.scope G.ctx.captured) → (th.scope G.ctx.captured).Sees (names accs) (Total.allOver Ts points) →
      (∀ w ∈ ws, ∃ i, w ∈ W i) → (∀ th', (G.turning H.scope n (numbered stem n') p t).Le (th'.scope G.ctx.captured) →
        (th'.scope G.ctx.captured).Sees (names accs) (Total.allOver Ts (points ++ [s.point threads p (id t) j])) →
          Q th' (ws ++ W (s.point threads p (id t) j))) → (⟨G.ctx, m, own, t⟩ : Solo).Ensures visit Q th ws)
    (numGroups groupSize : Exp) :
    G.LeadsAll (fun _ th => th = {}) m (((Launch.start numGroups groupSize).run n).1.2 ::
        foldCode accs (numbered stem n') (numbered "k" (n' + 1)) text count point bound visit)
      (G.Knowing fun t => (G.turning H.scope n (numbered stem n') p t).withAll (names accs)
        (Total.allOver Ts (s.share threads p N (id t))))
      (G.Apiece fun t => (s.share threads p N (id t)).flatMap W) := by
  obtain ⟨entry, oriented⟩ := leads_entry (n := n) (m := m) hop hcaptured hgroup numGroups groupSize
  refine .after_silent entry (leads_block.mp (.apiece_of own (by simp [hoff]) fun t ht th hth => ?_))
  have around := oriented.around t ht
  let v : Value := .i64 (Int64.ofNat p)
  let σ := (G.placed H.scope n t).withAll (names accs) (Total.allOver Ts [])
  have hσ : (G.placed H.scope n t).Le σ := Scope.le_withAll registers.nodup (registers.unknown around.before)
  have before : σ.Before n' := registers.before_withAll (around.before.mono hn) (Nat.le_refl n')
  have hnew : σ (numbered stem n') = none := before.fresh hstem (Nat.le_refl n')
  -- The names of the loop come after those of the accumulators, and are new.
  have hplaced : (G.placed H.scope n t) (numbered stem n') = none :=
    (around.before.mono hn).fresh hstem (Nat.le_refl n')
  have hturning : (G.placed H.scope n t).Le (G.turning H.scope n (numbered stem n') p t) := Scope.le_set hplaced
  have hfits : Fits (p : Int) := hcount.fits
  rw [Solo.ensures_block, foldCode]
  refine Solo.ensures_declares hserves (fun T hT => (hlawful T hT).mono around.host) hth registers.nodup
    (registers.unknown around.before) fun th₁ hth₁ hsees₁ _ => ?_
  rw [Solo.ensuresAll_cons]
  refine Solo.ensures_declareInit_of_known (Scope.withAll_le hth₁ hsees₁) hnew
    (hcount.mono (around.host.trans hσ)).eval_nat rfl
    fun th₂ hth₂ _ => ?_
  have hsees₂ : (th₂.scope G.ctx.captured).Sees (names accs) (Total.allOver Ts []) :=
    (Scope.sees_withAll registers.nodup hsees₁.length_eq).mono ((Scope.le_set hnew).trans hth₂)
  rw [Solo.ensuresAll_singleton, Solo.ensures_comment]
  refine Solo.ensures_share W (hσ.set.trans hth₂) ?_ (registers.ne_numbered (Nat.le_succ n'))
    (.var_nat Scope.set_self hfits) hp
    (hbound.mono (around.host.trans hturning)) (hpoint t ht) hsees₂ (hvisit t ht) fun th₃ hth₃ hsees₃ =>
      ⟨Scope.withAll_le hth₃ hsees₃, rfl⟩
  have hne : numbered stem n' ≠ numbered "k" (n' + 1) := fun e => by
    have := (numbered_inj.mp e).2
    omega
  show ((G.placed H.scope n t).set (numbered stem n') _) (numbered "k" (n' + 1)) = none
  rw [Scope.set_of_ne hne]
  exact (around.before.mono hn).fresh (by decide) (Nat.le_succ n')

/-! ### The run of a group -/

/-- The threads of a group have written what each of them writes, and then the group has stored a tuple in global
    arrays. -/
def Folds (G : Team) (m : Memory) (ws : Nat → List Write) (dests : List View) (i : Nat) (vs : List Value)
    (out : List Write) :
    Prop :=
  ∃ first rest, out = first ++ rest ∧ G.Apiece ws first ∧
    ((Store.ofGlobal m).puts first).Stored dests i vs ((Store.ofGlobal m).puts out) ∧
    ∀ w ∈ rest, w.slot.space = .shared ∨ ∃ dest ∈ dests, Run.Hits w dest

/-- What is stored in global arrays does not depend on the shared ones. -/
theorem stored_ofGlobal (shared : Memory) {global : Memory} {first out : List Write} {dests : List View} {i : Nat}
    {vs : List Value} (hdests : ∀ dest ∈ dests, dest.space = .global)
    (h : ((⟨shared, global⟩ : Store).puts first).Stored dests i vs ((⟨shared, global⟩ : Store).puts out)) :
    ((Store.ofGlobal global).puts first).Stored dests i vs ((Store.ofGlobal global).puts out) := by
  have same := Store.bits?_puts_ofGlobal ⟨shared, global⟩
  refine ⟨fun space array => by rw [Store.layout?_puts, Store.layout?_puts], ?_, fun p hp hnot => ?_⟩
  · refine h.holds.of_views (fun dest hdest => ?_) ?_
    · rw [Store.layout?_puts, Store.layout?_puts, hdests dest hdest]
      rfl
    · rintro p ⟨dest, hdest, rfl⟩
      exact same out (hdests dest hdest)
  · rw [same out hp, same first hp]
    exact h.frame p hp hnot

variable {arrays : List SharedArray} {code store : List Stmt} {dests : List View} {i : Nat} {vs : List Value}
  {ws : Nat → List Write}

/-- A group whose threads fold their points, and which then combines what they have. -/
theorem leadsAll_folds {bare : List Stmt} {shared global : Memory} (hdests : ∀ dest ∈ dests, dest.space = .global)
    (hfold : G.LeadsAll T ⟨shared, global⟩ code (G.Knowing B) (G.Apiece ws))
    (htargets : ∀ stmt ∈ bare, stmt.Targets fun view => view.space = .shared ∨ view ∈ dests)
    (hdoes : ∀ own m, (∀ a ∈ arrays, m.layout? .shared a.name = some (a.type, G.size)) →
      (∀ dest ∈ dests, m.Reaches dest i) →
      G.DoesAll (fun _ => True) (G.Knows B own) (· = m) bare (G.Knows B own) (m.Stored dests i vs))
    (hroom : ∀ a ∈ arrays, Store.layout? ⟨shared, global⟩ .shared a.name = some (a.type, G.size))
    (hreaches : ∀ dest ∈ dests, (Store.ofGlobal global).Reaches dest i) :
    G.LeadsAll T ⟨shared, global⟩ (code ++ bare) (fun _ _ => True) (G.Folds global ws dests i vs) := by
  refine hfold.append fun first hfirst => ?_
  have reaches : ∀ dest ∈ dests, ((⟨shared, global⟩ : Store).puts first).Reaches dest i := fun dest hdest => by
    refine (hreaches dest hdest).of_layout ?_
    rw [Store.layout?_puts, hdests dest hdest]
    rfl
  have rest := (leadsAll_of_does fun own => hdoes own _ (fun a ha => (Store.layout?_puts _ _ _).trans (hroom a ha))
    reaches).hits htargets
  refine Takes.imp rest (fun _ _ _ => id) (fun _ _ _ _ => trivial) fun rest hrest =>
    ⟨first, rest, rfl, hfirst, ?_, fun w hw => ?_⟩
  · refine stored_ofGlobal shared hdests ?_
    rw [Store.puts_append]
    exact hrest.1
  · obtain ⟨view, hview | hview, hits⟩ := hrest.2 w hw
    · exact Or.inl (hits.1.trans hview)
    · exact Or.inr ⟨view, hview, hits⟩

end Team

namespace Segmented
variable {op : SegOp} {H : Surroundings} {d : Device} {k : Kernel} {P G g i : Nat} {B : Nat → Scope}
  {arrays : List SharedArray} {code store : List Stmt} {dests : List View} {vs : List Value} {ws : Nat → List Write}
  {captured : Table Value} {s : Device.Progress}

/-- A group runs a kernel in which threads fold their points, and then the group combines what they have. -/
theorem runGroup_folds (hG : 0 < G) (hwidth : IsInt H.scope op.grid.groupWidth G)
    (hhoist : (Stmt.block (code ++ store)).hoist = .ok k.body) (hcode : ∀ stmt ∈ code, stmt.sharedArrays = [])
    (harrays : store.flatMap Stmt.sharedArrays = arrays) (hlengths : ∀ a ∈ arrays, a.length = op.grid.groupWidth)
    (hnodup : (arrays.map (·.name)).Nodup) (hcaptured : k.body.Agrees captured (H.env.bindings H.host))
    (hdests : ∀ dest ∈ dests, dest.space = .global)
    (hfold : ∀ shared, (groupAt H d P hG g).LeadsAll (fun _ th => th = {}) ⟨shared, s.global⟩ code
      ((groupAt H d P hG g).Knowing B) ((groupAt H d P hG g).Apiece ws))
    (hdelivers : (groupAt H d P hG g).Delivers B arrays store dests i vs)
    (hreaches : ∀ dest ∈ dests, (Store.ofGlobal s.global).Reaches dest i) :
    ∃ s', Device.runGroup { contextOf H d P G g with captured } d.schedule k.body s = .ok () s' ∧
      (groupAt H d P hG g).Folds s.global ws dests i vs
        (Device.groupWrites { contextOf H d P G g with captured } d.schedule k.body s) ∧
      s'.global = ((Store.ofGlobal s.global).puts
        (Device.groupWrites { contextOf H d P G g with captured } d.schedule k.body s)).global := by
  obtain ⟨bare, hmimics, htargets, hdoes⟩ := hdelivers
  have unshared : code.flatMap Stmt.sharedArrays = [] := List.flatMap_eq_nil_iff.mpr hcode
  have whole : (Stmt.block (code ++ store)).sharedArrays = arrays := by
    rw [Stmt.sharedArrays_block, List.flatMap_append, unshared, List.nil_append, harrays]
  have hmem : ∀ a ∈ k.body.sharedArrays, a.length = op.grid.groupWidth := fun a ha => by
    rw [Stmt.sharedArrays_hoist hhoist, whole] at ha
    exact hlengths a ha
  refine runGroup_of_hoisted (T := groupAt H d P hG g) rfl rfl rfl hwidth.fits hhoist
    (fun a ha => ⟨G, hmem a ha ▸ hwidth⟩) hcaptured ?_ fun shared hstocks => Team.leads_block.mpr
      (Team.leadsAll_folds hdests (hfold shared) htargets hdoes (fun a ha => ?_) hreaches)
  · refine mimics_dropShared_block.trans (.block ?_)
    rw [List.map_append]
    exact (mimicsAll_map_dropShared unshared).append hmimics
  · rw [whole] at hstocks
    obtain ⟨b, hb, hvalue⟩ := hwidth.evalInt
    have length : Run.Length (groupAt H d P hG g).ctx a G := by
      refine ⟨b, by rw [hlengths a ha]; exact hb, ?_⟩
      rw [arrayLength, if_neg (by omega), hvalue, Int.toNat_natCast]
    have made := (hstocks hnodup).new a ha G length (by simp)
    show (shared[a.name]?).map _ = _
    rw [made]
    exact congrArg (fun n => some (a.type, n)) Array.size_replicate

end Segmented

/-! ## Launches

The launch of a kernel in which threads fold their points, and then each group stores what its threads
have combined. Its groups run one after another. In the end each of them has stored its tuple, and the
rest of the memory is as if the writes of the points had been the only ones. -/
open Exp

/-! ### What some groups have done -/

/-- Whether a write goes to a global array that none of the views shows. -/
def Write.avoids (dests : List View) (w : Write) :
    Bool := decide (w.slot.space = .global ∧ w.slot.array ∉ dests.map (·.array))

theorem Write.avoids_iff {dests : List View} {w : Write} :
    w.avoids dests = true ↔ w.slot.space = .global ∧ w.slot.array ∉ dests.map (·.array) := decide_eq_true_iff

/-- The first `n` groups of a launch have made the writes of their points once, and have stored their tuples. -/
structure Device.Folded (m : Memory) (dests : List View) (i : Nat → Nat) (vs : Nat → List Value) (ws : Nat → List Write)
    (n : Nat) (past : List Write) : Prop where
  apart : (past.filter (Write.avoids dests)).Perm ((List.range n).flatMap ws)
  holds : ∀ g < n, ((Store.ofGlobal m).puts past).HoldsAll dests (i g) (vs g)
  frame : ∀ p : Slot, p.space = .global → (∀ g < n, ¬tupleSlots dests (i g) p) →
    ((Store.ofGlobal m).puts past).bits? p = ((Store.ofGlobal m).puts (past.filter (Write.avoids dests))).bits? p

namespace Device.Folded
variable {m : Memory} {dests : List View} {i : Nat → Nat} {vs : Nat → List Value} {n : Nat} {past out : List Write}
  {G : Team} {ws : Nat → Nat → List Write}

theorem nil {ws : Nat → List Write} :
    Device.Folded m dests i vs ws 0 [] := ⟨.nil, fun _ h => absurd h (Nat.not_lt_zero _), fun _ _ _ => rfl⟩

/-- A group of which the points write to other arrays than it stores its tuple in. -/
theorem step (h : Device.Folded m dests i vs (fun g => (List.range G.size).flatMap (ws g)) n past)
    (hdests : ∀ dest ∈ dests, dest.space = .global) (hi : ∀ g < n, i g ≠ i n)
    (hws : ∀ t < G.size, ∀ w ∈ ws n t, w.avoids dests = true)
    (hout : G.Folds ((Store.ofGlobal m).puts past).global (ws n) dests (i n) (vs n) out) :
    Device.Folded m dests i vs (fun g => (List.range G.size).flatMap (ws g)) (n + 1) (past ++ out) := by
  obtain ⟨first, rest, rfl, hfirst, hstored, hrest⟩ := hout
  have avoiding : ∀ w ∈ first, w.avoids dests = true := fun w hw => by
    obtain ⟨t, ht, hw⟩ := List.mem_flatMap.mp (hfirst.mem_iff.mp hw)
    exact hws t (List.mem_range.mp ht) w hw
  have kept : (first ++ rest).filter (Write.avoids dests) = first := by
    rw [List.filter_append, List.filter_eq_self.mpr avoiding, List.filter_eq_nil_iff.mpr fun w hw hav => ?_,
      List.append_nil]
    obtain ⟨hspace, harray⟩ := Write.avoids_iff.mp hav
    rcases hrest w hw with hshared | ⟨dest, hdest, hits⟩
    · rw [hspace] at hshared
      cases hshared
    · exact harray (hits.2 ▸ List.mem_map_of_mem hdest)
  have layout : ∀ ws space array,
    ((Store.ofGlobal m).puts ws).layout? space array = (Store.ofGlobal m).layout? space array :=
    Store.layout?_puts
  -- What the group found is what the groups before it have left in the global arrays.
  have found : ∀ ws p, p.space = .global → ((Store.ofGlobal ((Store.ofGlobal m).puts past).global).puts ws).bits? p =
      ((Store.ofGlobal m).puts (past ++ ws)).bits? p := fun ws p hp => by
    rw [Store.puts_append]
    exact Store.bits?_puts_ofGlobal _ _ hp
  have global : ∀ {j : Nat} {p : Slot}, tupleSlots dests j p → p.space = .global := by
    rintro j p ⟨dest, hdest, rfl⟩
    exact hdests dest hdest
  refine ⟨?_, fun g hg => ?_, fun p hp hnot => ?_⟩
  · rw [List.filter_append, kept, List.range_succ, List.flatMap_append, List.flatMap_singleton]
    exact h.apart.append hfirst
  · rcases Nat.eq_or_lt_of_le (Nat.le_of_lt_succ hg) with rfl | hg
    · refine hstored.holds.of_views (fun dest hdest => ?_) fun p hp => (found _ p (global hp)).symm
      rw [layout, Store.layout?_puts, hdests dest hdest]
      exact (layout past .global dest.array).symm
    · have before : ((Store.ofGlobal m).puts (past ++ first)).HoldsAll dests (i g) (vs g) := by
        rw [Store.puts_append]
        refine (h.holds g hg).puts_of_forall_not fun w hw hslot => ?_
        obtain ⟨dest, hdest, he⟩ := hslot
        exact (Write.avoids_iff.mp (avoiding w hw)).2 (he ▸ List.mem_map_of_mem hdest)
      refine before.of_bits (fun space array => by rw [layout, layout]) fun p hp => ?_
      rw [← found _ p (global hp), ← found _ p (global hp)]
      exact hstored.frame p (global hp) fun hp' => hi g hg (tupleSlots_unique hp hp')
  · rw [← found _ p hp, hstored.frame p hp (hnot n (Nat.lt_succ_self n)), found _ p hp, List.filter_append, kept,
      Store.puts_append,
      Store.puts_append]
    exact Store.bits?_puts_congr (h.frame p hp fun g hg => hnot g (Nat.lt_succ_of_lt hg)) first

end Device.Folded

/-! ### The kernel -/

/-- What code may rely on in a memory that is not the one a kernel started from: some arrays, and the layout of all. -/
structure Memory.Retains (reads : Ident → Prop) (m m' : Memory) : Prop where
  arrays : ∀ array, reads array → m'[array]? = m[array]?
  layout : ∀ array, (Store.ofGlobal m').layout? .global array = (Store.ofGlobal m).layout? .global array

/-- A kernel of `P` groups of `G` threads. Thread `t` of group `g` folds some points and makes the writes `ws g t`,
    whatever has been written to arrays that are not read. Then the group stores the tuple `vs g` at index `i g`. -/
structure Segmented.Stage (op : SegOp) (H : Surroundings) (d : Device) (k : Kernel) (P : Nat) {G : Nat} (hG : 0 < G)
    (reads : Ident → Prop) (dests : List View) (i : Nat → Nat) (vs : Nat → List Value) (ws : Nat → Nat → List Write) :
    Prop where
  codes : ∃ code store, ∃ arrays : List SharedArray, (Stmt.block (code ++ store)).hoist = .ok k.body ∧
    (∀ stmt ∈ code, stmt.sharedArrays = []) ∧ store.flatMap Stmt.sharedArrays = arrays ∧
    (∀ a ∈ arrays, a.length = op.grid.groupWidth) ∧ (arrays.map (·.name)).Nodup ∧ ∀ g < P, ∃ B,
      (groupAt H d P hG g).Delivers B arrays store dests (i g) (vs g) ∧ ∀ shared global, H.memory.Retains reads global →
        (groupAt H d P hG g).LeadsAll (fun _ th => th = {}) ⟨shared, global⟩ code ((groupAt H d P hG g).Knowing B)
          ((groupAt H d P hG g).Apiece (ws g))
  numGroups : k.numGroups = op.grid.groupCount
  groupSize : k.groupSize = op.grid.groupWidth
  captures : ∃ captured, k.captures.foldlM (Device.capture H.host H.memory) {} = .ok captured ∧
    k.body.Agrees captured (H.env.bindings H.host)
  global : ∀ dest ∈ dests, dest.space = .global
  reaches : ∀ g < P, ∀ dest ∈ dests, (Store.ofGlobal H.memory).Reaches dest (i g)
  unread : ∀ dest ∈ dests, ¬reads dest.array
  apart : ∀ g < P, ∀ g' < g, i g' ≠ i g
  writes : ∀ g < P, ∀ t < G, ∀ w ∈ ws g t, w.avoids dests = true ∧ ¬reads w.slot.array

namespace Device.Folded
variable {m : Memory} {dests : List View} {i : Nat → Nat} {vs : Nat → List Value} {n : Nat} {past : List Write}
  {ws : Nat → List Write} {reads : Ident → Prop}

/-- What is not written by any group is there for the next one. -/
theorem retains (h : Device.Folded m dests i vs ws n past) (hws : ∀ g < n, ∀ w ∈ ws g, ¬reads w.slot.array)
    (hunread : ∀ dest ∈ dests, ¬reads dest.array) : m.Retains reads ((Store.ofGlobal m).puts past).global := by
  have layout : ∀ array, (Store.ofGlobal ((Store.ofGlobal m).puts past).global).layout? .global array =
      (Store.ofGlobal m).layout? .global array := Store.layout?_puts past .global
  refine ⟨fun array harray => ?_, layout⟩
  refine Store.buffer?_eq (m := .ofGlobal m) (layout array) fun j => ?_
  refine (h.frame ⟨.global, array, j⟩ rfl fun g _ hslot => ?_).trans
    (Store.bits?_puts_of_forall_ne fun w hw hslot => ?_)
  · obtain ⟨dest, hdest, he⟩ := hslot
    exact hunread dest hdest ((show array = dest.array from congrArg Slot.array he) ▸ harray)
  · obtain ⟨g, hg, hw⟩ := List.mem_flatMap.mp (h.apart.mem_iff.mp hw)
    exact hws g (List.mem_range.mp hg) w hw ((congrArg Slot.array hslot).symm ▸ harray)

end Device.Folded

namespace Segmented
variable {op : SegOp} {H : Surroundings} {d : Device} {k : Kernel} {P G : Nat} {reads : Ident → Prop}
  {dests : List View} {i : Nat → Nat} {vs : Nat → List Value} {ws : Nat → Nat → List Write}

/-- The launch of a kernel whose groups fold points and store tuples. -/
theorem runKernel_folds (hsized : op.Sized H P G) (S : op.Stage H d k P hsized.threads reads dests i vs ws)
    (stats : LaunchStats) :
    ∃ s', d.runKernel H.host k ⟨H.memory, stats⟩ = .ok () s' ∧
      Device.Folded H.memory dests i vs (fun g => (List.range G).flatMap (ws g)) P
        ((d.kernelWrites H.host k ⟨H.memory, stats⟩).map (·.2)) ∧
      s'.global = Device.written H.memory (d.kernelWrites H.host k ⟨H.memory, stats⟩) := by
  obtain ⟨captured, hcaptures, hagrees⟩ := S.captures
  obtain ⟨code, store, arrays, hhoist, hcode, harrays, hlengths, hnodup, hgroups⟩ := S.codes
  have hcontext := hsized.context_eq (d := d) S.numGroups S.groupSize hcaptures
  refine Device.runKernel_of_groups stats hcontext (toInt_ofNat_of_fits hsized.numGroups.fits)
    (fun g past => Device.Folded H.memory dests i vs (fun g => (List.range G).flatMap (ws g)) g (past.map (·.2))) .nil
    fun g hg past s hpast hs => ?_
  obtain ⟨B, hdelivers, hfold⟩ := hgroups g hg
  -- What the groups before have stored is nothing that this group reads.
  have retains : H.memory.Retains reads s.global := hs ▸ hpast.retains
    (fun g' hg' w hw => by
      obtain ⟨t, ht, hw⟩ := List.mem_flatMap.mp hw
      exact (S.writes g' (hg'.trans hg) t (List.mem_range.mp ht) w hw).2) S.unread
  obtain ⟨s', hrun, hfolds, hglobal⟩ :=
    runGroup_folds hsized.threads hsized.groupSize hhoist hcode harrays hlengths hnodup hagrees
    S.global (fun shared => hfold shared s.global retains) hdelivers fun dest hdest =>
      (S.reaches g hg dest hdest).of_layout (by
      rw [S.global dest hdest]
      exact retains.layout dest.array)
  refine ⟨s', hrun, ?_, ?_⟩
  · rw [List.map_append, List.map_map, show (Prod.snd ∘ fun w : Write => (g, w)) = id from rfl, List.map_id]
    refine hpast.step (G := groupAt H d P hsized.threads g) S.global (S.apart g hg)
      (fun t ht w hw => (S.writes g hg t ht w hw).1) ?_
    rw [hs] at hfolds
    exact hfolds
  · rw [hglobal, hs, Device.written, Device.written, List.map_append, List.map_map,
      show (Prod.snd ∘ fun w : Write => (g, w)) = id from rfl, List.map_id, Store.puts_append]
    exact (Store.global_puts _ _).symm

end Segmented
end SegKernel
