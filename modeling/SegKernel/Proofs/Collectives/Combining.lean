import SegKernel.Collective.Layout
import SegKernel.Proofs.Execution.Contents

/-! The elementary steps of collectives: a thread combines two elements, or copies one. -/

namespace SegKernel

theorem Store.Holds.withVolatile {m : Store} {view : View} {i : Nat} {v : Value} (h : m.Holds view i v)
    (volatile : Bool) : m.Holds (view.withVolatile volatile) i v := ⟨h.reaches, h.bits⟩

namespace Collective
open Exp Solo
variable {c : Collective} {E : Solo} {Q : Claim} {ws : List Write} {lane : Exp} {volatile : Bool}

/-- Both operands of all components are read into new variables. -/
theorem ensures_loads {left right : Cell} {l r : Nat} {rest : List Stmt} :
    ∀ {pairs : List (View × Param)} {xs ys : List Value} {n : Nat} {σ : Scope} {th : Thread}, σ.Before n →
      σ.Le (E.scope th) → IsInt σ (c.address left lane) l → IsInt σ (c.address right lane) r →
      (∀ p ∈ pairs, p.2.type = p.1.type) →
      (E.store.puts ws).HoldsAll (pairs.map (·.1)) l xs → (E.store.puts ws).HoldsAll (pairs.map (·.1)) r ys →
      (∀ p, tupleSlots (pairs.map (·.1)) l p → E.Keeps p) → (∀ p, tupleSlots (pairs.map (·.1)) r p → E.Keeps p) →
      let loads := (pairs.mapM fun p => c.loadOperands volatile left right lane p.1 p.2).run n
      (∀ σ' th', σ.Le σ' → σ'.Before loads.2 → σ'.Le (E.scope th') → th'.arrays = th.arrays →
        Values σ' (loads.1.map (·.1)) xs → Values σ' (loads.1.map (·.2.1)) ys → E.EnsuresAll rest Q th' ws) →
      E.EnsuresAll (loads.1.flatMap (·.2.2) ++ rest) Q th ws
  | [], xs, ys, n, σ, th, hσ, hth, _, _, _, hx, hy, _, _ => by
    cases hx
    cases hy
    exact fun h => h σ th (Scope.Le.refl σ) hσ hth rfl .nil .nil
  | (view, param) :: pairs, _, _, n, σ, th, hσ, hth, hl, hr, htypes, .cons (b := x) hx hxs, .cons (b := y) hy hys,
      hkl, hkr => by
    have hnewx : σ (numbered "x" n) = none := hσ.fresh (by decide) (Nat.le_refl n)
    have hσx : (σ.set (numbered "x" n) x).Before (n + 1) := hσ.set (Nat.le_succ n) (Nat.lt_succ_self n)
    have hnewy : σ.set (numbered "x" n) x (numbered "y" (n + 1)) = none := hσx.fresh (by decide) (Nat.le_refl _)
    have hσy : ((σ.set (numbered "x" n) x).set (numbered "y" (n + 1)) y).Before (n + 2) :=
      hσx.set (Nat.le_succ _) (Nat.lt_succ_self _)
    have hlex : σ.Le (σ.set (numbered "x" n) x) := Scope.le_set hnewx
    have hley := hlex.trans (Scope.le_set (v := y) hnewy)
    have htype : param.type = view.type := htypes _ List.mem_cons_self
    rw [List.mapM_cons]
    intro loads h
    refine ensures_load (v := x) hth hnewx hl (hx.withVolatile volatile) htype (hkl _ ⟨view, List.mem_cons_self, rfl⟩)
      fun th₁ hth₁ ha₁ => ?_
    refine ensures_load (v := y) hth₁ hnewy (hr.mono hlex) (hy.withVolatile volatile) htype
      (hkr _ ⟨view, List.mem_cons_self, rfl⟩) fun th₂ hth₂ ha₂ => ?_
    refine ensures_loads hσy hth₂ (hl.mono hley) (hr.mono hley)
      (fun p hp => htypes p (List.mem_cons_of_mem _ hp)) hxs hys
      (fun p ⟨w, hw, e⟩ => hkl p ⟨w, List.mem_cons_of_mem _ hw, e⟩)
      (fun p ⟨w, hw, e⟩ => hkr p ⟨w, List.mem_cons_of_mem _ hw, e⟩) fun σ' th' hle hbefore hth' ha' hvx hvy => ?_
    refine h σ' th' (hley.trans hle) hbefore hth' (ha'.trans (ha₂.trans ha₁)) (.cons ?_ hvx) (.cons ?_ hvy)
    · refine eval_mono hle ?_
      rw [eval, Scope.le_set hnewy _ _ Scope.set_self]
    · refine eval_mono hle ?_
      rw [eval, Scope.set_self]

/-- The arrays of a collective hold tuples of the types of its operator, each component in another array. -/
structure Typed (c : Collective) : Prop where
  apart : ViewsApart c.views
  types : c.lambda.left.map (·.type) = c.views.map (·.type)

theorem Typed.map_fst_zip (ht : c.Typed) : (c.views.zip c.lambda.left).map (·.1) = c.views := by
  have hlength : c.lambda.left.length = c.views.length := by simpa using congrArg List.length ht.types
  exact List.map_fst_zip (by omega)

theorem Typed.type_eq (ht : c.Typed) : ∀ p ∈ c.views.zip c.lambda.left, p.2.type = p.1.type := by
  have agree : ∀ (views : List View) (params : List Param), params.map (·.type) = views.map (·.type) →
      ∀ p ∈ views.zip params, p.2.type = p.1.type := by
    intro views
    induction views with
    | nil => simp
    | cons view views ih =>
      intro params h p hp
      cases params with
      | nil => simp at hp
      | cons param params =>
        rw [List.map_cons, List.map_cons, List.cons.injEq] at h
        rcases List.mem_cons.mp hp with rfl | hp
        · exact h.1
        · exact ih params h.2 p hp
  exact agree _ _ ht.types

/-- The value that is stored: the combination, or the right operand. -/
def kept (keepRight : Option Exp) (result y : Exp) : Exp :=
  match keepRight with
  | some keep => .choose keep y result
  | none => result

/-- The condition under which the right operand is stored. -/
def Keeping (σ : Scope) (keepRight : Option Exp) (keeps : Bool) : Prop :=
  match keepRight with
  | some keep => IsBool σ keep keeps
  | none => keeps = false

theorem Keeping.mono {σ τ : Scope} {keepRight : Option Exp} {keeps : Bool} (h : Keeping σ keepRight keeps)
    (hle : σ.Le τ) : Keeping τ keepRight keeps := by
  cases keepRight with
  | some keep => exact IsBool.mono h hle
  | none => exact h

theorem values_kept {σ : Scope} {keepRight : Option Exp} {keeps : Bool} (hkeep : Keeping σ keepRight keeps)
    {xs es : List Exp} {zs ys : List Value} (hz : Values σ xs zs) (hy : Values σ es ys)
    (hlength : zs.length = ys.length) :
    Values σ ((xs.zip es).map fun p => kept keepRight p.1 p.2) (if keeps then ys else zs) := by
  induction hz generalizing es ys with
  | nil =>
    rw [List.length_nil, eq_comm, List.length_eq_zero_iff] at hlength
    subst hlength
    cases hy
    cases keeps <;> exact .nil
  | @cons x z xs zs hzv _ ih =>
    cases hy with
    | nil => simp at hlength
    | @cons e y es ys hyv hy =>
      have first : (kept keepRight x e).eval σ = .ok (if keeps then y else z) := by
        unfold kept
        cases keepRight with
        | none => rw [show keeps = false from hkeep]; exact hzv
        | some keep => exact eval_choose hkeep hyv hzv
      have rest := ih hy (Nat.succ.inj hlength)
      cases keeps with
      | true => exact .cons first rest
      | false => exact .cons first rest

theorem zip_stores (keepRight : Option Exp) (volatile : Bool) (index : Exp) (views : List View)
    (results ys : List Exp) :
    (((views.zip results).zip ys).map fun ((view, result), y) =>
      Stmt.write (view.withVolatile volatile) index (match keepRight with
        | some keep => .choose keep y result
        | none => result)) =
    (((views.map (·.withVolatile volatile)).zip ((results.zip ys).map fun p => kept keepRight p.1 p.2)).map fun p =>
      Stmt.write p.1 index p.2) := by
  induction views generalizing results ys with
  | nil => rfl
  | cons view views ih =>
    cases results with
    | nil => rfl
    | cons result results =>
      cases ys with
      | nil => rfl
      | cons y ys =>
        rw [List.zip_cons_cons, List.zip_cons_cons, List.map_cons, ih]
        rfl

theorem tupleWrites_withVolatile (volatile : Bool) (views : List View) (i : Nat) (vs : List Value) :
    tupleWrites (views.map (·.withVolatile volatile)) i vs = tupleWrites views i vs := by
  unfold tupleWrites
  rw [List.zip_map_left, List.map_map]
  rfl

/-- A lane of two elements is combined and stored. -/
theorem ensures_combineLane (ht : c.Typed) {dest left right : Cell} {d l r n : Nat} {keepRight : Option Exp}
    {keeps : Bool} {xs ys zs : List Value} {σ : Scope} {th : Thread} (hσ : σ.Before n) (hth : σ.Le (E.scope th))
    (hd : IsInt σ (c.address dest lane) d) (hl : IsInt σ (c.address left lane) l)
    (hr : IsInt σ (c.address right lane) r) (hx : (E.store.puts ws).HoldsAll c.views l xs)
    (hy : (E.store.puts ws).HoldsAll c.views r ys) (hkl : ∀ p, tupleSlots c.views l p → E.Keeps p)
    (hkr : ∀ p, tupleSlots c.views r p → E.Keeps p) (hreaches : ∀ view ∈ c.views, E.store.Reaches view d)
    (hown : ∀ p, tupleSlots c.views d p → E.own E.id p) (hz : c.lambda.Combines σ xs ys zs)
    (hzt : zs.map Value.type = c.views.map (·.type)) (hkeep : Keeping σ keepRight keeps)
    (h : ∀ th', σ.Le (E.scope th') → th'.arrays = th.arrays →
      Q th' (ws ++ tupleWrites c.views d (if keeps then ys else zs))) :
    E.Ensures ((c.combineLane dest left right keepRight volatile lane).run n).1 Q th ws := by
  unfold combineLane
  rw [Fresh.run_bind, Fresh.run_pure, ensures_block]
  have hfst := ht.map_fst_zip
  refine ensures_loads hσ hth hl hr ht.type_eq (hfst.symm ▸ hx) (hfst.symm ▸ hy) (hfst.symm ▸ hkl) (hfst.symm ▸ hkr)
    fun σ' th' hle hbefore hth' ha hvx hvy => ?_
  have hlength : zs.length = ys.length := by
    have := congrArg List.length (hzt.trans hy.types.symm)
    simpa using this
  refine (congrArg (fun code => E.EnsuresAll code Q th' ws) (zip_stores keepRight volatile _ c.views _ _)).mpr ?_
  rw [← List.append_nil (List.map _ _)]
  refine ensures_writes hth' (hd.mono hle) (values_kept (hkeep.mono hle) (Lambda.values_apply hvx hvy (hz.mono hle)) hvy
    hlength) ?_ ?_ ?_ ?_
  · rw [List.map_map]
    cases keeps with
    | true => exact hy.types
    | false => exact hzt
  · intro view hview
    obtain ⟨view', hview', rfl⟩ := List.mem_map.mp hview
    exact hreaches view' hview'
  · rintro p ⟨view, hview, rfl⟩
    obtain ⟨view', hview', rfl⟩ := List.mem_map.mp hview
    exact hown _ ⟨view', hview', rfl⟩
  · rw [ensuresAll_nil, tupleWrites_withVolatile]
    exact h th' (hle.trans hth') ha

theorem tupleSlots_cons_of_tail {view : View} {views : List View} {i : Nat} {p : Slot} (h : tupleSlots views i p) :
    tupleSlots (view :: views) i p :=
  h.imp fun _ h => ⟨List.mem_cons_of_mem view h.1, h.2⟩

/-- The components of a lane are read and stored, one after another. -/
theorem ensures_copies {dest source : Cell} {d l : Nat} :
    ∀ {pairs : List (View × Param)} (xs : List Value) {n : Nat} {σ : Scope} {th : Thread} {ws : List Write},
      σ.Before n →
      σ.Le (E.scope th) → IsInt σ (c.address dest lane) d → IsInt σ (c.address source lane) l →
      (∀ p ∈ pairs, p.2.type = p.1.type) → ViewsApart (pairs.map (·.1)) →
      (E.store.puts ws).HoldsAll (pairs.map (·.1)) l xs → (∀ p, tupleSlots (pairs.map (·.1)) l p → E.Keeps p) →
      (∀ view ∈ pairs.map (·.1), E.store.Reaches view d) → (∀ p, tupleSlots (pairs.map (·.1)) d p → E.own E.id p) →
      let parts := (pairs.mapM fun (p : View × Param) => (do
        let view := p.1.withVolatile volatile
        let v ← fresh "v"
        return view.load v p.2.type (c.address source lane) ++ [.write view (c.address dest lane) (.var v)] :
          Fresh (List Stmt))).run n
      (∀ th', σ.Le (E.scope th') → th'.arrays = th.arrays →
        Q th' (ws ++ tupleWrites (pairs.map (·.1)) d xs)) → E.EnsuresAll parts.1.flatten Q th ws
  | [], _, _, σ, th, ws, _, hth, _, _, _, _, .nil, _, _, _ => by
    intro parts h
    rw [show parts.1.flatten = [] from rfl, ensuresAll_nil]
    simpa [tupleWrites] using h th hth rfl
  | (view, param) :: pairs, x :: xs, n, σ, th, ws, hσ, hth, hd, hl, htypes, happart, .cons hx hxs, hkeeps, hreaches, hown => by
    have hnew : σ (numbered "v" n) = none := hσ.fresh (by decide) (Nat.le_refl n)
    have hle : σ.Le (σ.set (numbered "v" n) x) := Scope.le_set hnew
    have hbefore : (σ.set (numbered "v" n) x).Before (n + 1) := hσ.set (Nat.le_succ n) (Nat.lt_succ_self n)
    have htype : param.type = view.type := htypes _ List.mem_cons_self
    obtain ⟨hne, happart⟩ := List.pairwise_cons.mp happart
    rw [List.mapM_cons]
    intro parts h
    refine ensures_load (v := x) hth hnew hl (hx.withVolatile volatile) htype (hkeeps _ ⟨view, List.mem_cons_self, rfl⟩)
      fun th₁ hth₁ ha₁ => ?_
    show E.EnsuresAll (.write (view.withVolatile volatile) (c.address dest lane) (.var (numbered "v" n)) :: _) Q th₁ ws
    rw [ensuresAll_cons]
    refine ensures_write hth₁ (hd.mono hle) (v := x) (by rw [eval, Scope.set_self]) hx.type
      (hreaches view List.mem_cons_self)
      (hown _ ⟨view, List.mem_cons_self, rfl⟩) ?_
    refine ensures_copies xs hbefore hth₁ (hd.mono hle) (hl.mono hle)
      (fun p hp => htypes p (List.mem_cons_of_mem _ hp)) happart
      ?_ (fun p hp => hkeeps p (tupleSlots_cons_of_tail hp)) (fun w hw => hreaches w (List.mem_cons_of_mem _ hw))
      (fun p hp => hown p (tupleSlots_cons_of_tail hp))
      fun th' hth' ha' => ?_
    · rw [Store.puts_append]
      refine Store.HoldsAll.puts_of_forall_not hxs fun w hw hslot => ?_
      rw [List.mem_singleton.mp hw] at hslot
      obtain ⟨view', hview', e⟩ := hslot
      exact hne view' hview' (View.slot_eq_iff.mp e).1
    · have := h th' (hle.trans hth') (ha'.trans ha₁)
      rwa [List.append_assoc]

/-- A lane of an element is copied. -/
theorem ensures_copyLane (ht : c.Typed) {dest source : Cell} {d l n : Nat} {xs : List Value} {σ : Scope} {th : Thread}
    (hσ : σ.Before n) (hth : σ.Le (E.scope th)) (hd : IsInt σ (c.address dest lane) d)
    (hl : IsInt σ (c.address source lane) l) (hx : (E.store.puts ws).HoldsAll c.views l xs)
    (hkeeps : ∀ p, tupleSlots c.views l p → E.Keeps p) (hreaches : ∀ view ∈ c.views, E.store.Reaches view d)
    (hown : ∀ p, tupleSlots c.views d p → E.own E.id p)
    (h : ∀ th', σ.Le (E.scope th') → th'.arrays = th.arrays → Q th' (ws ++ tupleWrites c.views d xs)) :
    E.Ensures ((c.copyLane dest source lane).run n).1 Q th ws := by
  unfold copyLane
  rw [Fresh.run_bind, Fresh.run_pure, ensures_block]
  have hfst := ht.map_fst_zip
  exact ensures_copies xs hσ hth hd hl ht.type_eq (hfst.symm ▸ ht.apart) (hfst.symm ▸ hx) (hfst.symm ▸ hkeeps)
    (hfst.symm ▸ hreaches) (hfst.symm ▸ hown) (hfst.symm ▸ h)

end Collective
end SegKernel
