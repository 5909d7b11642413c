import SegKernel.Proofs.Collectives.Chunks
import SegKernel.Proofs.Collectives.Reducing
import SegKernel.Proofs.Maps.Frames
import SegKernel.Proofs.Totals.Folding
import SegKernel.Proofs.Totals.Targets

/-! A group combines what its threads have in variables. Each thread stores its tuple in shared arrays, the group
    reduces the elements there, and the first thread stores the result in global arrays. -/

namespace SegKernel
open Exp

/-- Where the views reach, they show something. -/
theorem Store.exists_holdsAll {m : Store} {i : Nat} : ∀ {views : List View}, (∀ view ∈ views, m.Reaches view i) →
    ∃ vs, m.HoldsAll views i vs
  | [], _ => ⟨[], .nil⟩
  | view :: views, h => by
    obtain ⟨vs, hvs⟩ := exists_holdsAll fun v hv => h v (List.mem_cons_of_mem view hv)
    have reaches := h view List.mem_cons_self
    obtain ⟨bits, hbits⟩ := Option.isSome_iff_exists.mp reaches.isSome_bits?
    exact ⟨.ofBits view.type bits :: vs, .cons ⟨reaches, bits, hbits, rfl⟩ hvs⟩

/-! ### Elements in shared arrays -/

namespace Collective
variable {c : Collective} {G : Team} {B : Nat → Scope} {own : Nat → Memory} {n : Nat} {m m₀ : Store} {f : c.Contents}
  {op : c.lambda.Tuple → c.lambda.Tuple → c.lambda.Tuple}

section Bench
variable {typed : c.Typed} {size : Nat} {hsize : size < 2 ^ 63}

/-- Memory that has room for the elements has something there. -/
theorem exists_filled_bench (typed : c.Typed) (hsize : size < 2 ^ 63)
    (hreaches : ∀ view ∈ c.views, ∀ e < size, m.Reaches view e) :
    ∃ f, (bench typed hsize).Filled m f m := by
  have shown : ∀ e : Nat, ∃ x : c.lambda.Tuple, e < size → m.HoldsAll c.views e x.1 := by
    intro e
    by_cases he : e < size
    · obtain ⟨vs, hvs⟩ := Store.exists_holdsAll fun view hview => hreaches view hview e he
      exact ⟨⟨vs, hvs.types.trans typed.types.symm⟩, fun _ => hvs⟩
    · exact ⟨⟨c.lambda.resultTypes.map .zero, by simp [Function.comp_def]⟩, fun h => absurd h he⟩
  choose f hf using shown
  refine ⟨fun _ e _ => f e, fun _ _ => rfl, ?_, fun _ _ => rfl⟩
  rintro r e l ⟨-, he⟩ -
  rw [bench_position he]
  exact hf e he

/-- The slots of the elements lie in the arrays of the collective. -/
theorem slot_of_bench {p : Slot} (h : (bench typed hsize).covers p) : ∃ view ∈ c.views, p.space = view.space := by
  obtain ⟨r, e, l, -, -, view, hview, rfl⟩ := h
  exact ⟨view, hview, rfl⟩

end Bench

end Collective

/-- What the threads of a group know when they combine something, with code that takes names from number `n` on. No one
    looks for races. -/
structure Team.Gathered (G : Team) (launch : Launch) (B : Nat → Scope) (n : Nat) : Prop where
  before : ∀ t < G.size, (B t).Before n
  localId : ∀ t < G.size, launch.ltid.eval (B t) = .ok (.i64 (Int64.ofNat t))
  wave : ∀ t < G.size, launch.wave.eval (B t) = .ok (.i64 G.ctx.wave)
  groupSize : ∀ t < G.size, launch.groupSize.eval (B t) = .ok (.i64 G.ctx.groupSize)
  size_eq : G.ctx.groupSize.toInt = G.size
  unchecked : G.ctx.checkRaces = false
  free : ∀ x, New n x → G.ctx.captured[x]? = none
  limit : 62 ≤ G.ctx.loopLimit
  waved : ∃ m, Collective.Waved G m

namespace Team.Gathered
variable {G : Team} {launch : Launch} {B : Nat → Scope} {n m : Nat}

theorem later (h : G.Gathered launch B n) (hn : n ≤ m) : G.Gathered launch B m :=
  { h with before := fun t ht => (h.before t ht).mono hn, free := fun x hx => h.free x (hx.mono hn) }

theorem size_lt (h : G.Gathered launch B n) : G.size < 2 ^ 63 := by
  have := (fits_toInt G.ctx.groupSize).2
  have := h.size_eq
  omega

theorem manned (h : G.Gathered launch B n) {lambda : Lambda} {views : List View}
    {op : lambda.Tuple → lambda.Tuple → lambda.Tuple}
    (typed : (Collective.mk launch lambda views (.shared (.int 0))).Typed)
    (hop : ∀ t < G.size, lambda.Computes (B t) op) :
    (Collective.bench typed h.size_lt).Manned G op B n where
  before := h.before
  lies _ _ := rfl
  computes := hop
  localId := h.localId
  wave := h.wave
  groupSize := h.groupSize
  size_eq := h.size_eq
  limit := (by decide : 1 ≤ 62).trans h.limit
  unchecked := h.unchecked
  free := h.free

end Team.Gathered

namespace Collective
variable {launch : Launch} {lambda : Lambda} {views : List View} {op : lambda.Tuple → lambda.Tuple → lambda.Tuple}
  {G : Team} {B : Nat → Scope} {own : Nat → Memory} {n : Nat} {m : Store}

/-- Each thread stores a tuple that it has in variables. -/
theorem does_put (own : Nat → Memory) (typed : (Collective.mk launch lambda views (.shared (.int 0))).Typed)
    (hG : G.Gathered launch B n) {vars : List Ident} {x : Nat → lambda.Tuple}
    (hvars : ∀ t < G.size, (B t).Sees vars (x t).1)
    {f : (Collective.mk launch lambda views (.shared (.int 0))).Contents} :
    G.Does (bench typed hG.size_lt).covers (G.Knows B own) ((bench typed hG.size_lt).Filled m f)
      (.block ((views.zip vars).map fun p => .write p.1 launch.ltid (.var p.2))) (G.Knows B own)
      ((bench typed hG.size_lt).Filled m fun _ e _ => x e) := by
  have position : ∀ {t}, t < G.size → (bench typed hG.size_lt).position 0 t 0 = t := fun ht => bench_position ht
  have code : ((views.zip vars).map fun p => Stmt.write p.1 launch.ltid (.var p.2)) =
      (views.zip (vars.map .var)).map fun p => .write p.1 launch.ltid p.2 := by
    rw [List.zip_map_right, List.map_map]
    rfl
  refine Area.does_stores (fun _ => true) (fun t => (0, t)) (fun t _ => x t) hG.unchecked (fun t ht _ => ⟨rfl, ht⟩)
    (fun t _ t' _ _ _ h => congrArg Prod.snd h) (fun m' hm' t ht th hth => ?_) (fun t _ _ k _ => rfl) ?_
  · have reaches := hm'.reaches (e := t) (l := 0) ⟨rfl, ht⟩ Nat.one_pos
    rw [position ht] at reaches
    rw [Solo.ensures_block, code, ← List.append_nil (List.map _ _)]
    refine Solo.ensures_writes hth.1 ⟨_, hG.localId t ht, Squad.toInt_ofNat (ht.trans hG.size_lt)⟩ (hvars t ht).values
      ((x t).2.trans typed.types) reaches (fun p hp => Team.own_among ⟨ht, rfl, 0, Nat.one_pos, ?_⟩) ?_
    · show tupleSlots views ((bench typed hG.size_lt).position 0 t 0) p
      rwa [position ht]
    · rw [Solo.ensuresAll_nil]
      refine ⟨hth, ?_⟩
      rw [if_pos rfl, Area.writes]
      show _ = (List.range 1).flatMap _
      rw [List.range_one, List.flatMap_singleton, position ht, List.nil_append]
  · rintro r e ⟨rfl, he⟩ hnot
    exact absurd rfl (hnot e he rfl)

/-- What the threads have is reduced to what the first ones of them have, combined in their order. -/
theorem does_reduction (own : Nat → Memory) (typed : (Collective.mk launch lambda views (.shared (.int 0))).Typed)
    (hG : G.Gathered launch B n) (hassoc : Std.Associative op) (hop : ∀ t < G.size, lambda.Computes (B t) op)
    (x : Nat → lambda.Tuple) :
    G.Does (bench typed hG.size_lt).covers (G.Knows B own) ((bench typed hG.size_lt).Filled m fun _ e _ => x e)
      (((Collective.mk launch lambda views (.shared (.int 0))).reduce launch.groupSize).run n).1 (G.Knows B own)
      fun m' => (∃ f, (bench typed hG.size_lt).Filled m f m') ∧
        m'.HoldsAll views 0 (foldSpan op x 0 (G.size - 1)).1 := by
  obtain ⟨w, hwaved⟩ := hG.waved
  have count : ∀ t < G.size, launch.groupSize.eval (B t) = .ok (.i64 (Int64.ofNat G.size)) := fun t ht => by
    rw [hG.groupSize t ht, ← (hG.manned typed hop).groupSize_eq]
  have does := (reduce_does (c := ⟨launch, lambda, views, .shared (.int 0)⟩) (m := w) launch.groupSize).2
    (bench typed hG.size_lt) G
    op B own m (fun _ e _ => x e) hwaved (Nat.le_refl _) (fun e he => ⟨rfl, he⟩) (hG.manned typed hop) count
    (hwaved.width.trans hG.limit) (hwaved.crossSteps_le.trans hG.limit)
  refine does.imp (fun _ _ _ => id) (fun _ => id) (fun _ _ _ => id) fun m' hm' => ⟨⟨_, hm'⟩, ?_⟩
  have first := hm'.holds (r := 0) (e := 0) (l := 0) ⟨rfl, G.pos⟩ Nat.one_pos
  rwa [bench_position G.pos, reduced, if_pos rfl,
    reduceSteps_zero hassoc G.pos (le_pow_crossSteps w G.size)] at first

end Collective

/-! ### The result -/

/-- The memory holds a tuple in global arrays. No other element of a global array has changed, and all arrays are there
    that were there. -/
structure Store.Stored (m : Store) (views : List View) (i : Nat) (vs : List Value) (m' : Store) : Prop where
  layout : ∀ space array, m'.layout? space array = m.layout? space array
  holds : m'.HoldsAll views i vs
  frame : ∀ p : Slot, p.space = .global → ¬tupleSlots views i p → m'.bits? p = m.bits? p

/-- The code that reads the components of a tuple in shared arrays, and stores them in other arrays. -/
def Accumulator.transfers (index : Exp) (pairs : List (View × View)) : Fresh (List (List Stmt)) :=
  pairs.mapM fun (view, dest) => do
    let v ← fresh "red_res"
    return [Stmt.declare v view.type false, .read v view (.int 0), .write dest index (.var v)]

open Accumulator

namespace Solo
variable {E : Solo} {Q : Claim} {index : Exp} {i : Nat}

/-- The components of a tuple in shared arrays are stored in global arrays, one after another. -/
theorem ensures_transfers :
    ∀ {pairs : List (View × View)} (vs : List Value) {n : Nat} {σ : Scope} {th : Thread} {ws : List Write},
    σ.Before n → σ.Le (E.scope th) → IsInt σ index i →
      (∀ p ∈ pairs, p.1.space = .shared ∧ p.2.space = .global ∧ p.2.type = p.1.type) →
      (E.store.puts ws).HoldsAll (pairs.map (·.1)) 0 vs → (∀ p, tupleSlots (pairs.map (·.1)) 0 p → E.Keeps p) →
      (∀ view ∈ pairs.map (·.2), E.store.Reaches view i) → (∀ p, tupleSlots (pairs.map (·.2)) i p → E.own E.id p) →
      (∀ th', σ.Le (E.scope th') → th'.arrays = th.arrays → Q th' (ws ++ tupleWrites (pairs.map (·.2)) i vs)) →
        E.EnsuresAll ((transfers index pairs).run n).1.flatten Q th ws
  | [], _, _, σ, th, ws, _, hth, _, _, .nil, _, _, _ => by
    intro h
    rw [show ((transfers index []).run _).1.flatten = [] from rfl, ensuresAll_nil]
    simpa [tupleWrites] using h th hth rfl
  | (view, dest) :: pairs, v :: vs, n, σ, th, ws, hσ, hth, hi, hpairs, .cons hv hvs, hkeeps, hreaches, hown => by
    obtain ⟨hshared, hglobal, htype⟩ := hpairs _ List.mem_cons_self
    have hnew : σ (numbered "red_res" n) = none := hσ.fresh (by decide) (Nat.le_refl n)
    have hle : σ.Le (σ.set (numbered "red_res" n) v) := Scope.le_set hnew
    have hbefore : (σ.set (numbered "red_res" n) v).Before (n + 1) := hσ.set (Nat.le_succ n) (Nat.lt_succ_self n)
    intro h
    have code : ((transfers index ((view, dest) :: pairs)).run n).1.flatten = .declare (numbered "red_res" n)
      view.type false ::
        .read (numbered "red_res" n) view (.int 0) :: .write dest index (.var (numbered "red_res" n)) ::
          ((transfers index pairs).run (n + 1)).1.flatten := by
      unfold transfers
      rw [List.mapM_cons]
      rfl
    rw [code]
    refine ensures_load (v := v) hth hnew ⟨0, rfl, rfl⟩ hv rfl (hkeeps _ ⟨view, List.mem_cons_self, rfl⟩)
      fun th₁ hth₁ ha₁ => ?_
    rw [ensuresAll_cons]
    refine ensures_write hth₁ (hi.mono hle) (v := v) (eval_var Scope.set_self) (hv.type.trans htype.symm)
      (hreaches dest List.mem_cons_self) (hown _ ⟨dest, List.mem_cons_self, rfl⟩) ?_
    refine ensures_transfers vs hbefore hth₁ (hi.mono hle) (fun p hp => hpairs p (List.mem_cons_of_mem _ hp)) ?_
      (fun p hp => hkeeps p (Collective.tupleSlots_cons_of_tail hp))
        (fun w hw => hreaches w (List.mem_cons_of_mem _ hw))
      (fun p hp => hown p (Collective.tupleSlots_cons_of_tail hp)) fun th' hth' ha' => ?_
    · rw [Store.puts_append]
      refine Store.HoldsAll.puts_of_forall_not hvs fun w hw hslot => ?_
      rw [List.mem_singleton.mp hw] at hslot
      obtain ⟨view', hview', e⟩ := hslot
      obtain ⟨p, hp, rfl⟩ := List.mem_map.mp hview'
      have spaces : dest.space = p.1.space := congrArg Slot.space e
      rw [show dest.space = _ from hglobal, (hpairs p (List.mem_cons_of_mem _ hp)).1] at spaces
      cases spaces
    · have := h th' (hle.trans hth') (ha'.trans ha₁)
      rwa [List.append_assoc]

end Solo

/-- Views that are paired are of one type, if the views before and after are. -/
theorem type_eq_of_mem_zip {views dests : List View} (h : views.map (·.type) = dests.map (·.type)) {p : View × View}
    (hp : p ∈ views.zip dests) : p.1.type = p.2.type := by
  induction views generalizing dests with
  | nil => exact absurd hp List.not_mem_nil
  | cons v views ih =>
    cases dests with
    | nil => exact absurd hp List.not_mem_nil
    | cons d dests =>
      rw [List.map_cons, List.map_cons, List.cons.injEq] at h
      rcases List.mem_cons.mp hp with rfl | hp
      · exact h.1
      · exact ih h.2 hp

namespace Team
variable {G : Team} {launch : Launch} {B : Nat → Scope} {own : Nat → Memory} {n i : Nat} {m : Store} {index : Exp}
  {views dests : List View} {vs : List Value}

/-- The first thread stores a tuple that is in shared arrays. -/
theorem does_transfers (own : Nat → Memory) (hG : G.Gathered launch B n) (hindex : IsInt (B 0) index i)
    (hviews : ∀ view ∈ views, view.space = .shared) (hdests : ∀ dest ∈ dests, dest.space = .global)
    (htypes : dests.map (·.type) = views.map (·.type)) (happart : ViewsApart dests) (hholds : m.HoldsAll views 0 vs)
    (hreaches : ∀ dest ∈ dests, m.Reaches dest i) :
    G.Does (fun _ => True) (G.Knows B own) (· = m)
      (.when (launch.ltid.equals (.int 0)) (.block ((transfers index (views.zip dests)).run n).1.flatten))
        (G.Knows B own) (m.Stored dests i vs) := by
  have hlength : views.length = dests.length := by simpa using (congrArg List.length htypes).symm
  have first : (views.zip dests).map (·.1) = views := List.map_fst_zip (by omega)
  have second : (views.zip dests).map (·.2) = dests := List.map_snd_zip (by omega)
  have types : vs.map Value.type = dests.map (·.type) := hholds.types.trans htypes.symm
  refine Does.phase hG.unchecked (fun t p => t = 0 ∧ tupleSlots dests i p)
    (fun t th ws => G.Knows B own t th ∧ ws = if t = 0 then tupleWrites dests i vs else []) (fun t ht th hth => ?_)
    (fun _ _ _ _ h => h.1) fun es hes hQ => ?_
  · have guard : IsBool (B t) (launch.ltid.equals (.int 0)) (decide (t = 0)) := by
      have hid : IsInt (B t) launch.ltid t := ⟨_, hG.localId t ht, Squad.toInt_ofNat (ht.trans hG.size_lt)⟩
      simpa using IsBool.equals hid (⟨0, rfl, rfl⟩ : IsInt (B t) (.int 0) 0)
    refine Solo.ensures_when (guard.mono hth.1) (fun hzero => ?_) fun hzero => ⟨hth, ?_⟩
    · obtain rfl : t = 0 := by simpa using hzero
      rw [Solo.ensures_block]
      refine Solo.ensures_transfers vs (hG.before 0 ht) hth.1 hindex (fun p hp => ?_) (first.symm ▸ hholds)
        (fun p hp => ?_)
        (second.symm ▸ hreaches) (fun p hp => Team.own_among ⟨rfl, second ▸ hp⟩) fun th' hth' ha =>
          ⟨⟨hth', ha.trans hth.2⟩, ?_⟩
      · obtain ⟨hview, hdest⟩ := List.of_mem_zip hp
        exact ⟨hviews _ hview, hdests _ hdest, (type_eq_of_mem_zip htypes.symm hp).symm⟩
      · rw [first] at hp
        obtain ⟨view, hview, rfl⟩ := hp
        refine Team.keeps_among trivial fun t' hne h => hne h.1
      · rw [second]
        rfl
    · rw [if_neg (by simpa using hzero)]
  · obtain ⟨-, -, hws⟩ := hQ 0 G.pos
    rw [if_pos rfl] at hws
    have all : es.map (·.2) = tupleWrites dests i vs := by
      rw [← hws, writesOf, List.filter_eq_self.mpr fun e he => by simpa using (hes e he).2.1]
    rw [all]
    refine ⟨fun _ _ => Store.layout?_puts _ _ _, Store.holdsAll_puts_tupleWrites happart hreaches types,
      fun p _ hp => ?_⟩
    exact Store.bits?_puts_of_forall_ne fun w hw hslot => hp (hslot ▸ slot_of_mem_tupleWrites hw)

end Team

namespace Store.Stored
variable {m m' m'' : Store} {views views' : List View} {i : Nat} {vs vs' : List Value}

theorem nil : m.Stored [] i [] m := ⟨fun _ _ => rfl, .nil, fun _ _ _ => rfl⟩

/-- A tuple stays there when another one is stored in other arrays. -/
theorem append (h : m.Stored views i vs m') (h' : m'.Stored views' i vs' m'')
    (hglobal : ∀ view ∈ views, view.space = .global) (happart : ViewsApart (views ++ views')) :
    m.Stored (views ++ views') i (vs ++ vs') m'' where
  layout space array := (h'.layout space array).trans (h.layout space array)
  holds := by
    refine List.rel_append (h.holds.of_bits h'.layout ?_) h'.holds
    rintro p ⟨view, hview, rfl⟩
    refine h'.frame _ (hglobal view hview) fun ⟨view', hview', e⟩ => ?_
    exact (List.pairwise_append.mp happart).2.2 view hview view' hview' (View.slot_eq_iff.mp e).1
  frame p hp hnot := (h'.frame p hp fun ⟨view, hview, e⟩ => hnot ⟨view, List.mem_append_right _ hview, e⟩).trans
    (h.frame p hp fun ⟨view, hview, e⟩ => hnot ⟨view, List.mem_append_left _ hview, e⟩)

end Store.Stored

/-! ### The code of a group -/

/-- The view of a shared array. -/
def SharedArray.view (a : SharedArray) : View := ⟨a.name, a.type, .shared, false⟩

/-- Code with which a group stores a tuple in global arrays, if some shared arrays have room for an element of each
    thread. -/
def Team.Delivers (G : Team) (B : Nat → Scope) (arrays : List SharedArray) (code : List Stmt) (dests : List View)
    (i : Nat) (vs : List Value) : Prop :=
  ∃ bare, MimicsAll G.ctx G.ctx (code.map Stmt.dropShared) bare ∧
    (∀ stmt ∈ bare, stmt.Targets fun view => view.space = .shared ∨ view ∈ dests) ∧
    ∀ own m, (∀ a ∈ arrays, m.layout? .shared a.name = some (a.type, G.size)) → (∀ dest ∈ dests, m.Reaches dest i) →
      G.DoesAll (fun _ => True) (G.Knows B own) (· = m) bare (G.Knows B own) (m.Stored dests i vs)

theorem MimicsAll.skip {ctx ctx' : GroupContext} {stmts stmts' : List Stmt} (h : MimicsAll ctx ctx' stmts stmts') :
    MimicsAll ctx ctx' (.skip :: stmts) stmts' := by
  refine ⟨fun active => ?_, fun active s => ?_⟩
  · rw [Run.execAll_cons, Run.exec_skip, ← h.exec]
    rfl
  · rw [Run.traceAll_cons, Run.trace_skip, Run.exec_skip, Run.after_pure, h.trace]
    rfl

namespace Team.Delivers
variable {G : Team} {B : Nat → Scope} {arrays arrays' : List SharedArray} {code code' : List Stmt}
  {dests dests' : List View} {i : Nat} {vs vs' : List Value}

theorem nil : G.Delivers B [] [] [] i [] :=
  ⟨[], .nil, by simp, fun own m _ _ => Team.doesAll_nil (fun _ _ _ => id) fun m' hm' => hm' ▸ .nil⟩

theorem append (h : G.Delivers B arrays code dests i vs) (h' : G.Delivers B arrays' code' dests' i vs')
    (hglobal : ∀ dest ∈ dests, dest.space = .global) (happart : ViewsApart (dests ++ dests')) :
    G.Delivers B (arrays ++ arrays') (code ++ code') (dests ++ dests') i (vs ++ vs') := by
  obtain ⟨bare, hmimics, htargets, hdoes⟩ := h
  obtain ⟨bare', hmimics', htargets', hdoes'⟩ := h'
  refine ⟨bare ++ bare', by rw [List.map_append]; exact hmimics.append hmimics', ?_, fun own m hroom hreaches => ?_⟩
  · refine List.forall_mem_append.mpr ⟨fun stmt hstmt => (htargets stmt hstmt).imp fun view => ?_,
      fun stmt hstmt => (htargets' stmt hstmt).imp fun view => ?_⟩
    · exact Or.imp id (List.mem_append_left _)
    · exact Or.imp id (List.mem_append_right _)
  · rw [List.forall_mem_append] at hroom hreaches
    refine (hdoes own m hroom.1 hreaches.1).append fun m' hm' => ?_
    have rest := hdoes' own m' (fun a ha => (hm'.layout _ _).trans (hroom.2 a ha))
      (fun dest hdest => (hreaches.2 dest hdest).of_layout (hm'.layout _ _))
    exact (rest.imp (fun _ _ _ => id) (fun _ => id) (fun _ _ _ => id) fun m'' hm'' => hm'.append hm'' hglobal happart)
      m' rfl

end Team.Delivers

namespace Accumulator
variable {launch : Launch} {index : Exp} {n i : Nat} {dests rest : List View} {a : Accumulator} {T : Total}

/-- The declarations of the shared arrays are hoisted from the code that stores to them. -/
theorem mimicsAll_put {ctx : GroupContext} {length : Exp} : ∀ pairs : List (View × Ident), MimicsAll ctx ctx
    ((pairs.flatMap fun p => [Stmt.declareArray p.1.array p.1.type length .shared,
      .write p.1 launch.ltid (.var p.2)]).map Stmt.dropShared)
    (pairs.map fun p => .write p.1 launch.ltid (.var p.2))
  | [] => .nil
  | _ :: pairs => .skip (.cons (.refl ctx _) (mimicsAll_put pairs))

theorem sharedArrays_put :
    ∀ {arrays : List SharedArray} {vars : List Ident}, (∀ a ∈ arrays, a.length = launch.groupSize) →
    arrays.length = vars.length → (((arrays.map SharedArray.view).zip vars).flatMap fun p => [
      Stmt.declareArray p.1.array p.1.type launch.groupSize .shared, .write p.1 launch.ltid (.var p.2)]).flatMap
        Stmt.sharedArrays =
        arrays
  | [], _, _, _ => rfl
  | a :: arrays, x :: vars, hlength, h => by
    have rest := sharedArrays_put (fun a' ha' => hlength a' (List.mem_cons_of_mem a ha')) (Nat.succ.inj h)
    rw [List.map_cons, List.zip_cons_cons, List.flatMap_cons, List.flatMap_append, rest, ← hlength a List.mem_cons_self]
    rfl

/-- The shared arrays in which the components of an accumulator are combined. -/
def arrays (launch : Launch) (names : List Ident) (types : List ScalarType) : List SharedArray :=
  (names.zip types).map fun p => ⟨p.1, p.2, launch.groupSize⟩

theorem map_name_arrays {names : List Ident} {types : List ScalarType} (h : names.length = types.length) :
    (arrays launch names types).map (·.name) = names := by
  unfold arrays
  rw [List.map_map]
  exact List.map_fst_zip (by omega)

theorem map_type_arrays {names : List Ident} {types : List ScalarType} (h : names.length = types.length) :
    (arrays launch names types).map (·.type) = types := by
  unfold arrays
  rw [List.map_map]
  exact List.map_snd_zip (by omega)

theorem le_transfers (index : Exp) (pairs : List (View × View)) (n : Nat) : n ≤ ((transfers index pairs).run n).2 := by
  have step : ∀ p ∈ pairs, ∀ m, n ≤ m → Fresh.At m (do
      let v ← fresh "red_res"
      return [Stmt.declare v p.1.type false, .read v p.1 (.int 0), .write p.2 index (.var v)]) fun _ _ => True :=
    fun _ _ m _ => ⟨Nat.le_succ m, trivial⟩
  exact (Fresh.At.mapM step).1

theorem targets_transfers {S : View → Prop} : ∀ {pairs : List (View × View)} {n : Nat}, (∀ p ∈ pairs, S p.2) →
    ∀ stmt ∈ ((transfers index pairs).run n).1.flatten, stmt.Targets S
  | [], _, _, _, hstmt => by cases hstmt
  | p :: pairs, n, h, stmt, hstmt => by
    unfold transfers at hstmt
    rw [List.mapM_cons] at hstmt
    rcases List.mem_append.mp hstmt with hstmt | hstmt
    · rcases List.mem_cons.mp hstmt with rfl | hstmt
      · exact .of_nil rfl rfl
      rcases List.mem_cons.mp hstmt with rfl | hstmt
      · exact .of_nil rfl rfl
      · rw [List.mem_singleton.mp hstmt]
        exact .write (h p List.mem_cons_self)
    · exact targets_transfers (fun p' hp' => h p' (List.mem_cons_of_mem p hp')) stmt hstmt

/-- The code with which a group combines what its threads have in variables, without the declarations of its arrays. -/
def combining (launch : Launch) (lambda : Lambda) (views : List View) (vars : List Ident) (index : Exp)
    (dests : List View) (n n' : Nat) : List Stmt :=
  (views.zip vars).map (fun p => Stmt.write p.1 launch.ltid (.var p.2)) ++ [.barrier .shared,
    (((Collective.mk launch lambda views (.shared (.int 0))).reduce launch.groupSize).run n).1, .barrier .shared,
    .when (launch.ltid.equals (.int 0)) (.block ((transfers index (views.zip dests)).run n').1.flatten)]

/-- A group combines what its threads have in the variables of one accumulator. -/
theorem does_combining {launch : Launch} {views dests : List View} {vars : List Ident} {index : Exp} {n n' i : Nat}
    {T : Total} {G : Team} {B : Nat → Scope} {own : Nat → Memory} {m : Store} (hn : n ≤ n')
    (typed : (Collective.mk launch T.combiner.lambda views (.shared (.int 0))).Typed)
    (hshared : ∀ view ∈ views, view.space = .shared) (hdests : dests.map (·.type) = views.map (·.type))
    (hglobal : ∀ dest ∈ dests, dest.space = .global) (happart : ViewsApart dests) (hG : G.Gathered launch B n)
    (hlawful : ∀ t < G.size, T.Lawful (B t)) (share : Nat → List Nat)
    (hvars : ∀ t < G.size, (B t).Sees vars (T.foldOver (share t)).1) (hindex : IsInt (B 0) index i)
    (hroom : ∀ view ∈ views, ∀ e < G.size, m.Reaches view e) (hreaches : ∀ dest ∈ dests, m.Reaches dest i) :
    G.DoesAll (fun _ => True) (G.Knows B own) (· = m) (combining launch T.combiner.lambda views vars index dests n n')
      (G.Knows B own) (m.Stored dests i (foldSpan T.op (fun t => T.foldOver (share t)) 0 (G.size - 1)).1) := by
  obtain ⟨f, hf⟩ := Collective.exists_filled_bench typed hG.size_lt hroom
  have put := (Collective.does_put own typed hG (m := m) (f := f) hvars).widen fun _ _ => (trivial : True)
  have reduction := (Collective.does_reduction own typed hG (m := m) (hlawful 0 G.pos).assoc
    (fun t ht => (hlawful t ht).computes) fun t => T.foldOver (share t)).widen fun _ _ => (trivial : True)
  refine (Team.does_block.mp (put.imp (fun _ _ _ => id) (fun m' (hm' : m' = m) => hm' ▸ hf) (fun _ _ _ => id) fun _ =>
    id)).append
    (.cons Team.does_barrier (.cons reduction
      (.cons Team.does_barrier (Team.Does.single (.of_forall fun m' hm' => ?_)))))
  obtain ⟨⟨f', hfilled⟩, hholds⟩ := hm'
  have stored := Team.does_transfers own (hG.later hn) hindex hshared hglobal hdests happart hholds fun dest hdest =>
    (hreaches dest hdest).of_layout (hfilled.layout _ _)
  refine stored.imp (fun _ _ _ => id) (fun _ => id) (fun _ _ _ => id) fun m'' hm'' =>
    ⟨fun space array => (hm''.layout space array).trans (hfilled.layout space array), hm''.holds, fun p hp hnot => ?_⟩
  refine (hm''.frame p hp hnot).trans (hfilled.frame p fun hcovers => ?_)
  obtain ⟨view, hview, hspace⟩ := Collective.slot_of_bench hcovers
  rw [hp, hshared view hview] at hspace
  cases hspace

/-- A group combines what its threads have in the variables of one accumulator. -/
theorem combineOne_delivers (hserves : a.Serves T) (hdests : dests.map (·.type) = T.combiner.lambda.resultTypes)
    (hglobal : ∀ dest ∈ dests, dest.space = .global) (happart : ViewsApart dests) :
    Fresh.At n (a.combineOne launch (dests ++ rest) index) fun m code => ∃ arrays : List SharedArray,
      (∀ b ∈ arrays, b.length = launch.groupSize) ∧ Registers n m arrays.length (arrays.map (·.name)) ∧
        code.sharedArrays = arrays ∧ ∀ (G : Team) (B : Nat → Scope) (share : Nat → List Nat) (i : Nat),
          G.Gathered launch B n →
          (∀ t < G.size, T.Lawful (B t)) → (∀ t < G.size, (B t).Sees a.vars (T.foldOver (share t)).1) →
            IsInt (B 0) index i →
            G.Delivers B arrays [code] dests i (foldSpan T.op (fun t => T.foldOver (share t)) 0 (G.size - 1)).1 := by
  obtain ⟨op, vars⟩ := a
  obtain ⟨rfl, hlength⟩ := hserves
  unfold combineOne
  refine Fresh.At.bind (Fresh.At.registers (by decide) _) fun n₁ names hn₁ hnames => ?_
  dsimp only at hlength hnames ⊢
  have hcount : names.length = T.combiner.lambda.resultTypes.length := by
    rw [hnames.length, List.length_zip, hlength, Nat.min_self]
  have views : ((names.zip T.combiner.lambda.resultTypes).map fun p => (⟨p.1, p.2, .shared, false⟩ : View)) =
      (arrays launch names T.combiner.lambda.resultTypes).map SharedArray.view := by
    rw [arrays, List.map_map]
    rfl
  have htypes : (arrays launch names T.combiner.lambda.resultTypes).map (·.type) = _ := map_type_arrays hcount
  have hnames' : (arrays launch names T.combiner.lambda.resultTypes).map (·.name) = _ := map_name_arrays hcount
  have hlengths : ∀ b ∈ arrays launch names T.combiner.lambda.resultTypes, b.length = launch.groupSize := fun b hb => by
    obtain ⟨p, -, rfl⟩ := List.mem_map.mp hb
    rfl
  rw [views]
  generalize arrays launch names T.combiner.lambda.resultTypes = arrays at htypes hnames' hlengths
  have harrays : arrays.length = vars.length := by
    rw [hlength, ← htypes, List.length_map]
  have pairs : (arrays.map SharedArray.view).zip (dests ++ rest) = (arrays.map SharedArray.view).zip dests := by
    have hdests' : (arrays.map SharedArray.view).length = dests.length := by
      rw [List.length_map, harrays, hlength, ← hdests, List.length_map]
    conv_lhs => rw [← List.append_nil (arrays.map SharedArray.view)]
    rw [List.zip_append hdests', List.zip_nil_left, List.append_nil]
  rw [pairs]
  refine Fresh.At.bind (P := fun _ code => code = _) ⟨(@Collective.reduce_does _ _ 0 0 launch.groupSize).1, rfl⟩
    fun n₂ reduction hn₂ hreduction => Fresh.At.bind (P := fun _ code => code = ((transfers index _).run n₂).1)
      ⟨le_transfers index _ n₂, rfl⟩ fun n₃ store hn₃ hstore => .pure ?_
  subst hreduction hstore
  have typed : (Collective.mk launch T.combiner.lambda (arrays.map SharedArray.view) (.shared (.int 0))).Typed := by
    refine ⟨List.pairwise_map.mpr (List.Pairwise.imp (fun hne h => hne h.2)
      (List.pairwise_map.mp (hnames' ▸ hnames.nodup))), ?_⟩
    show T.combiner.lambda.resultTypes = _
    rw [← htypes, List.map_map]
    rfl
  have hshared : ∀ view ∈ arrays.map SharedArray.view, view.space = .shared := fun view hview => by
    obtain ⟨b, -, rfl⟩ := List.mem_map.mp hview
    rfl
  have reduction := Collective.targets_reduce
    (c := ⟨launch, T.combiner.lambda, arrays.map SharedArray.view, .shared (.int 0)⟩)
    (n := n₁) (S := fun view => view.space = .shared ∨ view ∈ dests) rfl launch.groupSize fun view hview volatile =>
      Or.inl (hshared view hview)
  have store : ∀ stmt ∈ ((transfers index ((arrays.map SharedArray.view).zip dests)).run n₂).1.flatten,
      stmt.Targets fun view => view.space = .shared ∨ view ∈ dests :=
    targets_transfers fun p hp => Or.inr (List.of_mem_zip hp).2
  have rest : ∀ stmt ∈ [Stmt.barrier .shared, _, .barrier .shared, _], stmt.Targets fun view => view.space = .shared ∨
    view ∈ dests :=
    List.forall_mem_cons.mpr ⟨.of_nil rfl rfl,
      List.forall_mem_cons.mpr ⟨reduction, List.forall_mem_cons.mpr ⟨.of_nil rfl rfl,
      List.forall_mem_singleton.mpr (.when (c := launch.ltid.equals (.int 0)) (.block store))⟩⟩⟩
  have unshared := List.flatMap_eq_nil_iff.mpr fun stmt hstmt => (rest stmt hstmt).shared
  refine ⟨arrays, hlengths, ⟨?_, ?_, ?_⟩, ?_, fun G B share i hG hlawful hvars hindex =>
    ⟨[.block (combining launch T.combiner.lambda
    (arrays.map SharedArray.view) vars index dests n₁ n₂)], ?_, ?_, fun own m hroom hreaches => ?_⟩⟩
  · exact fun x hx => (hnames.taken x (hnames' ▸ hx)).mono (Nat.le_refl n) (hn₂.trans hn₃)
  · exact hnames' ▸ hnames.nodup
  · rw [List.length_map]
  · rw [Stmt.sharedArrays_block, List.flatMap_append, sharedArrays_put hlengths harrays]
    exact (congrArg (arrays ++ ·) unshared).trans (List.append_nil _)
  · refine .cons (mimics_dropShared_block.trans (.block ?_)) .nil
    rw [List.map_append]
    exact (mimicsAll_put _).append (mimicsAll_map_dropShared unshared)
  · refine List.forall_mem_singleton.mpr (.block (List.forall_mem_append.mpr ⟨fun stmt hstmt => ?_, rest⟩))
    obtain ⟨p, hp, rfl⟩ := List.mem_map.mp hstmt
    exact .write (Or.inl (hshared _ (List.of_mem_zip hp).1))
  · refine Team.Does.single (Team.does_block.mpr
      (does_combining hn₂ typed hshared ?_ hglobal happart (hG.later hn₁) hlawful share
      hvars hindex (fun view hview e he => ?_) hreaches))
    · rw [hdests, ← htypes, List.map_map]
      rfl
    · obtain ⟨b, hb, rfl⟩ := List.mem_map.mp hview
      exact ⟨b.type, G.size, hroom b hb, rfl, he⟩

/-- A group combines what its threads have in the variables of all accumulators. -/
theorem combineAll_delivers (launch : Launch) (index : Exp) :
    ∀ {accs : List Accumulator} {Ts : List Total} {dests : List View} {n : Nat},
    List.Forall₂ Serves accs Ts → dests.map (·.type) = Total.types Ts → (∀ dest ∈ dests, dest.space = .global) →
      ViewsApart dests →
      Fresh.At n (combineAll launch index accs dests) fun m code => ∃ arrays : List SharedArray,
        (∀ b ∈ arrays, b.length = launch.groupSize) ∧ Registers n m arrays.length (arrays.map (·.name)) ∧
          code.flatMap Stmt.sharedArrays = arrays ∧ ∀ (G : Team) (B : Nat → Scope) (share : Nat → List Nat) (i : Nat),
            G.Gathered launch B n → (∀ T ∈ Ts, ∀ t < G.size, T.Lawful (B t)) →
              (∀ t < G.size, (B t).Sees (names accs) (Total.allOver Ts (share t))) → IsInt (B 0) index i →
                G.Delivers B arrays code dests i (Total.combined Ts share (G.size - 1))
  | [], [], dests, n, .nil, hdests, _, _ => by
    obtain rfl : dests = [] := List.map_eq_nil_iff.mp hdests
    exact .pure ⟨[], by simp, ⟨by simp, .nil, rfl⟩, rfl, fun G B share i _ _ _ _ => .nil⟩
  | a :: accs, T :: Ts, dests, n, .cons hserves hrest, hdests, hglobal, happart => by
    obtain ⟨mine, others, rfl, hmine, hothers⟩ : ∃ mine others, dests = mine ++ others ∧
        mine.map (·.type) = T.combiner.lambda.resultTypes ∧ others.map (·.type) = Total.types Ts := by
      obtain ⟨mine, others, rfl, hmine, hothers⟩ := List.map_eq_append_iff.mp hdests
      exact ⟨mine, others, rfl, hmine, hothers⟩
    obtain ⟨hglobal, hglobal'⟩ := List.forall_mem_append.mp hglobal
    have hdrop : (mine ++ others).drop (min a.vars.length a.op.lambda.resultTypes.length) = others := by
      refine List.drop_left' ?_
      rw [hserves.length, hserves.op, Nat.min_self, ← hmine, List.length_map]
    unfold combineAll
    dsimp only
    rw [hdrop]
    refine Fresh.At.bind (combineOne_delivers hserves hmine hglobal (List.pairwise_append.mp happart).1)
      fun n₁ code hn₁ hcode => Fresh.At.bind
        (combineAll_delivers launch index hrest hothers hglobal' (List.pairwise_append.mp happart).2.1)
        fun n₂ codes hn₂ hcodes => .pure ?_
    obtain ⟨arrays, hlengths, hregisters, hshared, hdelivers⟩ := hcode
    obtain ⟨arrays', hlengths', hregisters', hshared', hdelivers'⟩ := hcodes
    refine ⟨arrays ++ arrays', List.forall_mem_append.mpr ⟨hlengths, hlengths'⟩, ?_, ?_,
      fun G B share i hG hlawful hsees hindex => ?_⟩
    · rw [List.map_append, List.length_append]
      exact hregisters.append hregisters' hn₁ hn₂
    · rw [List.flatMap_cons, hshared, hshared']
    · have lawful := List.forall_mem_cons.mp hlawful
      have split : ∀ t < G.size, (B t).Sees a.vars (T.foldOver (share t)).1 ∧
        (B t).Sees (names accs) (Total.allOver Ts (share t)) :=
        fun t ht => forall₂_of_append (hserves.length.trans (Lambda.length_tuple _).symm) (hsees t ht)
      exact (hdelivers G B share i hG lawful.1 (fun t ht => (split t ht).1) hindex).append
        (hdelivers' G B share i (hG.later hn₁) lawful.2 (fun t ht => (split t ht).2) hindex) hglobal happart

end Accumulator
end SegKernel
