import SegKernel.Proofs.Coverage.Precomputing

/-! Applications of operators. A lambda that is applied to operands has the results that it has where its
    parameters are bound to the values of the operands. Code that assigns them takes all of them before it
    changes the first destination. -/

namespace SegKernel
open Exp Run

/-! ### Applications -/

/-- The last value that a name has got counts. -/
theorem Scope.sets_eq_find? {σ : Scope} {entries : List (Ident × Value)} {name : Ident} :
    σ.sets entries name = ((entries.reverse.find? (·.1 == name)).map (·.2)).or (σ name) := by
  induction entries generalizing σ with
  | nil => rfl
  | cons e entries ih =>
    rw [show σ.sets (e :: entries) = (σ.set e.1 e.2).sets entries from rfl, ih, List.reverse_cons, List.find?_append,
      Option.map_or, Option.or_assoc]
    congr 1
    by_cases h : e.1 = name
    · simp [h]
    · simp [h, set_of_ne h]

namespace Exp
variable {σ τ : Scope} {xs : List Exp} {vs : List Value}

theorem values_iff : Values σ xs vs ↔ xs.map (·.eval σ) = vs.map .ok := by
  rw [← List.forall₂_eq_eq_eq, List.forall₂_map_left_iff, List.forall₂_map_right_iff]

theorem Values.congr (h : Values σ xs vs) (hτ : ∀ x ∈ xs, ∀ y ∈ x.occurrences, σ y = τ y) : Values τ xs vs := by
  rw [values_iff] at h ⊢
  rw [← h]
  exact List.map_congr_left fun x hx => (eval_congr (hτ x hx)).symm

end Exp

namespace Lambda
variable {l : Lambda} {σ : Scope} {xs ys : List Exp} {vs ws zs : List Value}

/-- An environment, with the parameters bound to the values of two tuples. -/
def within (l : Lambda) (σ : Scope) (vs ws : List Value) : Scope := σ.sets ((l.params.map (·.name)).zip (vs ++ ws))

theorem scope_eq_within (hl : l.isWellFormed = true) (hvs : vs.length = l.arity) :
    l.scope σ vs ws = l.within σ vs ws := by
  funext name
  have params : l.left.zip vs ++ l.right.zip ws = l.params.zip (vs ++ ws) := by
    rw [← List.zip_append ((length_left hl).trans hvs.symm), left, right, List.take_append_drop]
  rw [within, Scope.sets_eq_find?, scope, argument, params, List.zip_map_left, ← List.map_reverse, List.find?_map,
    Option.map_map]
  rfl

/-- Replacing the parameters by operands is the same as binding them to the values of these, also where the operands
    mention variables with the names of parameters. -/
theorem eval_apply (hl : l.isWellFormed = true) (hxs : xs.length = l.arity) (hx : Values σ xs vs)
    (hy : Values σ ys ws) :
    (l.apply xs ys).map (·.eval σ) = l.results.map (·.eval (l.within σ vs ws)) := by
  rw [← scope_eq_within hl (hx.length_eq.symm.trans hxs), apply, List.map_map]
  exact List.map_congr_left fun r _ => eval_substitute (l.replaces_substitution hx hy) r

/-- On two tuples of values the results have these values, and the types that are declared for them. -/
def Produces (l : Lambda) (σ : Scope) (vs ws zs : List Value) : Prop :=
  Values (l.within σ vs ws) l.results zs ∧ zs.map Value.type = l.resultTypes

theorem produces_iff (hl : l.isWellFormed = true) (hxs : xs.length = l.arity) (hx : Values σ xs vs)
    (hy : Values σ ys ws) :
    l.Produces σ vs ws zs ↔ Values σ (l.apply xs ys) zs ∧ zs.map Value.type = l.resultTypes := by
  rw [Produces, values_iff, values_iff, eval_apply hl hxs hx hy]

end Lambda

/-! ### Assignments of all threads -/

/-- The variables are the thread's own, with values of these types. -/
def GroupState.Owns (s : GroupState) (t : Nat) (names : List Ident) (types : List ScalarType) : Prop :=
  List.Forall₂ (fun x type => ∃ old, (s.thread t).scalars[x]? = some old ∧ old.type = type) names types

namespace GroupState
variable {s : GroupState} {ctx : GroupContext} {active : List Nat} {t : Nat} {names : List Ident}
  {types : List ScalarType}

theorem scope_bindAll_one (ht : t ∈ active) (hsize : t < s.threads.size) {name : Ident} {v : Nat → Value} :
    (s.bindAll active fun t => [(name, v t)]).scope ctx t = (s.scope ctx t).set name (v t) := scope_bindAll ht hsize

theorem Owns.bindAll {entries : Nat → List (Ident × Value)} (h : s.Owns t names types) (ht : t ∈ active)
    (hsize : t < s.threads.size) (hentries : ∀ e ∈ entries t, e.1 ∉ names) :
    (s.bindAll active entries).Owns t names types := by
  have same : ∀ x ∈ names, ((s.bindAll active entries).thread t).scalars[x]? = (s.thread t).scalars[x]? :=
    fun x hx => by
    rw [GroupState.bindAll, thread_modifyAll ht hsize, Thread.scalars_bindAll fun e he e' => hentries e he (e' ▸ hx)]
  unfold Owns at *
  induction h with
  | nil => exact .nil
  | cons hown _ ih =>
    refine .cons ?_ (ih (fun e he hmem => hentries e he (List.mem_cons_of_mem _ hmem)) fun x hx =>
      same x (List.mem_cons_of_mem _ hx))
    rwa [same _ List.mem_cons_self]

/-- A variable of which a thread knows nothing is not its own. -/
theorem Owns.not_mem (h : s.Owns t names types) {x : Ident} (hx : s.scope ctx t x = none) : x ∉ names := by
  unfold Owns at h
  induction h with
  | nil => exact List.not_mem_nil
  | @cons y _ _ _ hown _ ih =>
    obtain ⟨old, hold, -⟩ := hown
    rw [List.mem_cons, not_or]
    refine ⟨fun e => ?_, ih⟩
    rw [e, scope_eq, Thread.scope, hold] at hx
    cases hx

end GroupState

namespace Run
open GroupState
variable {ctx : GroupContext} {s s' : GroupState} {active : List Nat} {name : Ident} {x : Exp}

/-! ### Several variables, one after another -/

variable {names sources : List Ident} {xs : List Exp} {types : List ScalarType} {zs : Nat → List Value}

/-- All threads declare variables of which they knew nothing. -/
theorem execAll_declareInits (hnd : active.Nodup) (hsize : ∀ t ∈ active, t < s.threads.size) (hnames : names.Nodup)
    (hnew : ∀ t ∈ active, ∀ x ∈ names, s.scope ctx t x = none) (hlength : names.length = xs.length)
    (htypes : types.length = xs.length)
    (h : ∀ t ∈ active, Values (s.scope ctx t) xs (zs t) ∧ (zs t).map Value.type = types) :
    execAll ctx (((names.zip xs).zip types).map fun p => .declareInit p.1.1 p.2 p.1.2) active s =
      .ok () (s.bindAll active fun t => names.zip (zs t)) := by
  induction names generalizing xs types zs s with
  | nil =>
    rw [bindAll_nil fun _ _ => List.zip_nil_left]
    rfl
  | cons name names ih =>
    obtain ⟨x, xs, rfl⟩ := List.exists_cons_of_length_eq_add_one hlength.symm
    obtain ⟨type, types, rfl⟩ := List.exists_cons_of_length_eq_add_one htypes
    obtain ⟨hname, hnames⟩ := List.nodup_cons.mp hnames
    have hvalues : ∀ t ∈ active, ∃ z rest, zs t = z :: rest ∧ (x.eval (s.scope ctx t) = .ok z ∧ z.type = type) ∧
        Values (s.scope ctx t) xs rest ∧ rest.map Value.type = types := fun t ht => by
      obtain ⟨hz, ht⟩ := h t ht
      obtain ⟨z, rest, hz, hrest, e⟩ := List.forall₂_cons_left_iff.mp hz
      rw [e, List.map_cons, List.cons.injEq] at ht
      exact ⟨z, rest, e, ⟨hz, ht.1⟩, hrest, ht.2⟩
    choose! v rest hzs hv hrest using hvalues
    have more : ∀ t ∈ active, ∀ w, (s.scope ctx t).Le ((s.scope ctx t).set name w) := fun t ht _ =>
      Scope.le_set (hnew t ht name List.mem_cons_self)
    have first : exec ctx (.declareInit name type x) active s = .ok () (s.bindAll active fun t => [(name, v t)]) :=
      (exec_declareInit_eq_ok hnd hsize).mpr
        ⟨v, fun t ht => ⟨eval_mono (more t ht (.zero type)) (hv t ht).1, (hv t ht).2⟩, rfl⟩
    rw [List.zip_cons_cons, List.zip_cons_cons, List.map_cons, execAll_of_ok first]
    -- The values of the rest are as before, since the new variable is unknown to them.
    have others : ∀ t ∈ active, Values ((s.bindAll active fun t => [(name, v t)]).scope ctx t) xs (rest t) ∧
        (rest t).map Value.type = types := fun t ht => by
      rw [scope_bindAll_one ht (hsize t ht)]
      exact ⟨(hrest t ht).1.mono (more t ht _), (hrest t ht).2⟩
    refine (ih (by simpa using hsize) hnames (fun t ht y hy => ?_) (Nat.succ.inj hlength) (Nat.succ.inj htypes)
      others).trans (congrArg _ ?_)
    · have hne : name ≠ y := fun e => hname (e ▸ hy)
      rw [scope_bindAll_one ht (hsize t ht), Scope.set_of_ne hne]
      exact hnew t ht y (List.mem_cons_of_mem name hy)
    · rw [bindAll_bindAll]
      refine bindAll_congr fun t ht => ?_
      rw [hzs t ht]
      rfl

/-- Where declarations succeed whose expressions do not mention the variables, the expressions have values of the
    types. -/
theorem values_of_declareInits (hnd : active.Nodup) (hsize : ∀ t ∈ active, t < s.threads.size)
    (hapart : ∀ x ∈ xs, ∀ y ∈ names, y ∉ x.occurrences) (hlength : names.length = xs.length)
    (htypes : types.length = xs.length)
    (h : execAll ctx (((names.zip xs).zip types).map fun p => .declareInit p.1.1 p.2 p.1.2) active s = .ok () s') :
    ∀ t ∈ active, ∃ zs, Values (s.scope ctx t) xs zs ∧ zs.map Value.type = types := by
  induction names generalizing xs types s with
  | nil =>
    intro t _
    obtain rfl := List.length_eq_zero_iff.mp hlength.symm
    obtain rfl := List.length_eq_zero_iff.mp htypes
    exact ⟨[], .nil, rfl⟩
  | cons name names ih =>
    obtain ⟨x, xs, rfl⟩ := List.exists_cons_of_length_eq_add_one hlength.symm
    obtain ⟨type, types, rfl⟩ := List.exists_cons_of_length_eq_add_one htypes
    rw [List.zip_cons_cons, List.zip_cons_cons, List.map_cons, execAll_cons] at h
    obtain ⟨_, s₁, hfirst, hrest⟩ := bind_eq_ok.mp h
    obtain ⟨v, hv, hs₁⟩ := (exec_declareInit_eq_ok hnd hsize).mp hfirst
    obtain rfl : s₁ = s.bindAll active fun t => [(name, v t)] := hs₁
    -- A variable that is bound first changes no expression after it.
    have same : ∀ {σ : Scope} {w : Value}, ∀ y ∈ x :: xs, ∀ z ∈ y.occurrences, (σ.set name w) z = σ z :=
      fun y hy z hz =>
      Scope.set_of_ne fun e => hapart y hy name List.mem_cons_self (e ▸ hz)
    intro t ht
    obtain ⟨zs, hzs, hzsTypes⟩ := ih (by simpa using hsize)
      (fun y hy z hz => hapart y (List.mem_cons_of_mem x hy) z (List.mem_cons_of_mem name hz))
      (Nat.succ.inj hlength) (Nat.succ.inj htypes) hrest t ht
    rw [scope_bindAll_one ht (hsize t ht)] at hzs
    refine ⟨v t :: zs, .cons ?_ (hzs.congr fun y hy => same y (List.mem_cons_of_mem x hy)), ?_⟩
    · rw [← (hv t ht).1]
      exact (eval_congr (same x List.mem_cons_self)).symm
    · rw [List.map_cons, (hv t ht).2, hzsTypes]

/-- All threads set variables to others. -/
theorem execAll_setVars (hnd : active.Nodup) (hsize : ∀ t ∈ active, t < s.threads.size) (hnames : names.Nodup)
    (hapart : ∀ x ∈ sources, x ∉ names) (hlength : names.length = sources.length)
    (h : ∀ t ∈ active, (s.scope ctx t).Sees sources (zs t) ∧ s.Owns t names ((zs t).map Value.type)) :
    execAll ctx ((names.zip sources).map fun p => .set p.1 (.var p.2)) active s =
      .ok () (s.bindAll active fun t => names.zip (zs t)) := by
  induction names generalizing sources zs s with
  | nil =>
    rw [bindAll_nil fun _ _ => List.zip_nil_left]
    rfl
  | cons name names ih =>
    obtain ⟨source, sources, rfl⟩ := List.exists_cons_of_length_eq_add_one hlength.symm
    obtain ⟨hname, hnames⟩ := List.nodup_cons.mp hnames
    have hvalues : ∀ t ∈ active, ∃ z rest, zs t = z :: rest ∧ (s.scope ctx t source = some z ∧
        ∃ old, (s.thread t).scalars[name]? = some old ∧ old.type = z.type) ∧
        (s.scope ctx t).Sees sources rest ∧ s.Owns t names (rest.map Value.type) := fun t ht => by
      obtain ⟨hz, hown⟩ := h t ht
      obtain ⟨z, rest, hz, hrest, e⟩ := List.forall₂_cons_left_iff.mp hz
      rw [e, List.map_cons] at hown
      obtain ⟨hfirst, hown⟩ := List.forall₂_cons.mp hown
      exact ⟨z, rest, e, ⟨hz, hfirst⟩, hrest, hown⟩
    choose! v rest hzs hv hrest using hvalues
    have first : exec ctx (.set name (.var source)) active s = .ok () (s.bindAll active fun t => [(name, v t)]) :=
      (exec_set_eq_ok hnd).mpr ⟨v, fun t ht => ⟨eval_var (hv t ht).1, (hv t ht).2⟩, rfl⟩
    rw [List.zip_cons_cons, List.map_cons, execAll_of_ok first]
    -- A variable that is set first is no source of the others.
    have others : ∀ t ∈ active, ((s.bindAll active fun t => [(name, v t)]).scope ctx t).Sees sources (rest t) ∧
        (s.bindAll active fun t => [(name, v t)]).Owns t names ((rest t).map Value.type) := fun t ht => by
      obtain ⟨hsees, hown⟩ := hrest t ht
      rw [scope_bindAll_one ht (hsize t ht)]
      refine ⟨hsees.imp fun y hy w hw => ?_, hown.bindAll ht (hsize t ht) fun e he => ?_⟩
      · have hne : name ≠ y := fun e => hapart y (List.mem_cons_of_mem source hy) (e ▸ List.mem_cons_self)
        rwa [Scope.set_of_ne hne]
      · rwa [List.mem_singleton.mp he]
    have apart : ∀ y ∈ sources, y ∉ names := fun y hy hmem =>
      hapart y (List.mem_cons_of_mem source hy) (List.mem_cons_of_mem name hmem)
    refine (ih (by simpa using hsize) hnames apart (Nat.succ.inj hlength) others).trans (congrArg _ ?_)
    rw [bindAll_bindAll]
    refine bindAll_congr fun t ht => ?_
    rw [hzs t ht]
    rfl

end Run

/-! ### Results of operators -/

theorem run_freshFor {α : Type} (stem : String) : ∀ (as : List α) (n : Nat),
    (freshFor stem as).run n = ((List.range' n as.length).map (numbered stem), n + as.length)
  | [], _ => rfl
  | _ :: as, n => by
    rw [freshFor, Fresh.run_bind, run_fresh, Fresh.run_bind, run_freshFor stem as, Fresh.run_pure, List.length_cons,
      List.range'_succ, List.map_cons, Nat.add_right_comm, Nat.add_assoc]

namespace Lambda
variable {l : Lambda} {xs ys : List Exp} {dests : List Ident} {n : Nat}

/-- The variables that hold the results of several components when `n` names were taken before. -/
def temporaries (l : Lambda) (n : Nat) : List Ident :=
  if l.arity = 1 then [] else (List.range' n l.arity).map (numbered "res")

theorem nodup_temporaries : (l.temporaries n).Nodup := by
  unfold temporaries
  split
  · exact List.nodup_nil
  · exact List.Nodup.map (fun _ _ h => (numbered_inj.mp h).2) List.nodup_range'

theorem length_temporaries (h : l.arity ≠ 1) : (l.temporaries n).length = l.arity := by
  rw [temporaries, if_neg h, List.length_map, List.length_range']

theorem length_apply : (l.apply xs ys).length = l.arity := List.length_map _

theorem run_assign_of_one (h : l.arity = 1) :
    ((l.assign xs ys dests).run n).1 = .block ((dests.zip (l.apply xs ys)).map fun p => .set p.1 p.2) := by
  rw [assign, if_pos (length_apply.trans h)]
  rfl

theorem run_assign (h : l.arity ≠ 1) :
    ((l.assign xs ys dests).run n).1 =
      .block ((((l.temporaries n).zip (l.apply xs ys)).zip l.resultTypes).map (fun p => .declareInit p.1.1 p.2 p.1.2) ++
        (dests.zip (l.temporaries n)).map fun p => .set p.1 (.var p.2)) := by
  rw [assign, if_neg fun e => h (length_apply.symm.trans e), Fresh.run_bind, run_freshFor, length_apply,
    temporaries, if_neg h]
  rfl

/-- Threads that assign the results of an operator on `xs` and `ys`, whose values are `vs` and `ws`. The variables for
    them are the threads' own, and the names that are taken are in no scope. -/
structure Assigns (l : Lambda) (ctx : GroupContext) (s : GroupState) (active : List Nat) (n : Nat) (xs ys : List Exp)
    (dests : List Ident) (vs ws : Nat → List Value) : Prop where
  threads : active.Nodup
  inGroup : ∀ t ∈ active, t < s.threads.size
  left : ∀ t ∈ active, Values (s.scope ctx t) xs (vs t)
  right : ∀ t ∈ active, Values (s.scope ctx t) ys (ws t)
  distinct : dests.Nodup
  own : ∀ t ∈ active, s.Owns t dests l.resultTypes
  unknown : ∀ t ∈ active, ∀ x ∈ l.temporaries n, s.scope ctx t x = none

/-- The code succeeds where the results have values of their types, and binds just the temporaries and the
    destinations. -/
theorem Assigns.exec {ctx : GroupContext} {s : GroupState} {active : List Nat} {vs ws zs : Nat → List Value}
    (h : l.Assigns ctx s active n xs ys dests vs ws) (hl : l.isWellFormed = true) (hxs : xs.length = l.arity)
    (hzs : ∀ t ∈ active, l.Produces (s.scope ctx t) (vs t) (ws t) (zs t)) :
    Run.exec ctx ((l.assign xs ys dests).run n).1 active s =
      .ok () (s.bindAll active fun t => (l.temporaries n).zip (zs t) ++ dests.zip (zs t)) := by
  by_cases hne : active = []
  · rw [hne, exec_nil, GroupState.bindAll_nil (by simp)]
    rfl
  obtain ⟨t₀, ht₀⟩ := List.exists_mem_of_ne_nil active hne
  have hdests : dests.length = l.arity := (h.own t₀ ht₀).length_eq.trans (length_resultTypes hl)
  have values : ∀ t ∈ active, Values (s.scope ctx t) (l.apply xs ys) (zs t) ∧ (zs t).map Value.type = l.resultTypes :=
    fun t ht => (produces_iff hl hxs (h.left t ht) (h.right t ht)).mp (hzs t ht)
  -- A single result goes to its destination at once; several go through temporaries.
  by_cases hone : l.arity = 1
  · obtain ⟨dest, rfl⟩ := List.length_eq_one_iff.mp (hdests.trans hone)
    obtain ⟨r, hr⟩ := List.length_eq_one_iff.mp ((@length_apply l xs ys).trans hone)
    have single : ∀ t ∈ active, ∃ z, zs t = [z] ∧ r.eval (s.scope ctx t) = .ok z ∧
        ∃ old, (s.thread t).scalars[dest]? = some old ∧ old.type = z.type := fun t ht => by
      obtain ⟨hvalues, htypes⟩ := values t ht
      rw [hr] at hvalues
      obtain ⟨z, rest, hz, hrest, e⟩ := List.forall₂_cons_left_iff.mp hvalues
      rw [List.forall₂_nil_left_iff.mp hrest] at e
      refine ⟨z, e, hz, ?_⟩
      rw [e] at htypes
      exact (List.forall₂_cons.mp ((show [z.type] = l.resultTypes from htypes) ▸ h.own t ht)).1
    choose! z e hz hown using single
    rw [run_assign_of_one hone, hr, exec_block, List.zip_cons_cons, List.zip_nil_left, List.map_singleton,
      execAll_singleton]
    have onlyDest : s.bindAll active (fun t => (l.temporaries n).zip (zs t) ++ [dest].zip (zs t)) =
        s.bindAll active fun t => [(dest, z t)] := GroupState.bindAll_congr fun t ht => by
      rw [e t ht, temporaries, if_pos hone]
      rfl
    rw [onlyDest]
    exact (exec_set_eq_ok h.threads).mpr ⟨z, fun t ht => ⟨hz t ht, hown t ht⟩, rfl⟩
  · have htemps : (l.temporaries n).length = l.arity := length_temporaries hone
    have lengths : ∀ t ∈ active, (zs t).length = l.arity :=
      fun t ht => ((values t ht).1.length_eq.symm).trans length_apply
    have apart : ∀ t ∈ active, ∀ x ∈ l.temporaries n, x ∉ dests :=
      fun t ht x hx => (h.own t ht).not_mem (h.unknown t ht x hx)
    rw [run_assign hone, exec_block, execAll_append, bind_apply,
      execAll_declareInits h.threads h.inGroup nodup_temporaries h.unknown (htemps.trans length_apply.symm)
        ((length_resultTypes hl).trans length_apply.symm) values]
    let s₁ := s.bindAll active fun t => (l.temporaries n).zip (zs t)
    have taken : ∀ t ∈ active, (s₁.scope ctx t).Sees (l.temporaries n) (zs t) ∧
      s₁.Owns t dests ((zs t).map Value.type) :=
        fun t ht => by
      rw [GroupState.scope_bindAll ht (h.inGroup t ht), (values t ht).2]
      exact ⟨Scope.sees_sets nodup_temporaries (htemps.trans (lengths t ht).symm),
        (h.own t ht).bindAll ht (h.inGroup t ht) fun e he => apart t ht _ (List.of_mem_zip he).1⟩
    have inGroup : ∀ t ∈ active, t < s₁.threads.size := fun t ht =>
      (h.inGroup t ht).trans_eq GroupState.size_bindAll.symm
    refine (execAll_setVars h.threads inGroup h.distinct (apart t₀ ht₀) (hdests.trans htemps.symm) taken).trans ?_
    rw [GroupState.bindAll_bindAll]

/-- Where the code succeeds and no result mentions a temporary, all results have values of their types. -/
theorem Assigns.produces {ctx : GroupContext} {s s' : GroupState} {active : List Nat} {vs ws : Nat → List Value}
    (h : l.Assigns ctx s active n xs ys dests vs ws) (hl : l.isWellFormed = true) (hxs : xs.length = l.arity)
    (hapart : ∀ r ∈ l.apply xs ys, ∀ x ∈ l.temporaries n, x ∉ r.occurrences)
    (hrun : Run.exec ctx ((l.assign xs ys dests).run n).1 active s = .ok () s') :
    ∀ t ∈ active, ∃ zs, l.Produces (s.scope ctx t) (vs t) (ws t) zs := by
  intro t ht
  have values : ∀ zs, l.Produces (s.scope ctx t) (vs t) (ws t) zs ↔
      Values (s.scope ctx t) (l.apply xs ys) zs ∧ zs.map Value.type = l.resultTypes := fun _ =>
    produces_iff hl hxs (h.left t ht) (h.right t ht)
  simp only [values]
  by_cases hone : l.arity = 1
  · obtain ⟨r, hr⟩ := List.length_eq_one_iff.mp ((@length_apply l xs ys).trans hone)
    obtain ⟨type, htype⟩ := List.length_eq_one_iff.mp ((length_resultTypes hl).trans hone)
    have hown := h.own t ht
    rw [htype] at hown ⊢
    obtain ⟨dest, rest, ⟨old, hold, htype'⟩, hrest, rfl⟩ := List.forall₂_cons_right_iff.mp hown
    obtain rfl := List.forall₂_nil_right_iff.mp hrest
    rw [run_assign_of_one hone, hr, exec_block, List.zip_cons_cons, List.zip_nil_left, List.map_singleton,
      execAll_singleton] at hrun
    obtain ⟨v, hv, -⟩ := (exec_set_eq_ok h.threads).mp hrun
    obtain ⟨hvalue, hassigned⟩ := hv t ht
    obtain ⟨old', hold', hassigned⟩ := hassigned
    obtain rfl := Option.some.inj (hold.symm.trans hold')
    rw [hr]
    exact ⟨[v t], .cons hvalue .nil, by rw [List.map_singleton, ← hassigned, htype']⟩
  · rw [run_assign hone, exec_block, execAll_append] at hrun
    obtain ⟨_, s₁, hdeclare, -⟩ := bind_eq_ok.mp hrun
    exact values_of_declareInits h.threads h.inGroup hapart ((length_temporaries hone).trans length_apply.symm)
      ((length_resultTypes hl).trans length_apply.symm) hdeclare t ht

/-- An application has the results of the lambda where the parameters are bound to the operands' values. The code that
    assigns them gives every destination the result from the state in which the code starts, in all threads, even if
    destinations are among the operands, and changes nothing else but its temporaries. It succeeds only where all
    results have values of their types. -/
theorem assign_simultaneous (hl : l.isWellFormed = true) (hxs : xs.length = l.arity) :
    (∀ (σ : Scope) (vs ws : List Value), Values σ xs vs → Values σ ys ws →
      (l.apply xs ys).map (·.eval σ) = l.results.map (·.eval (l.within σ vs ws))) ∧
    ∀ (ctx : GroupContext) (s : GroupState) (active : List Nat) (n : Nat) (dests : List Ident) (vs ws : Nat → List Value),
      l.Assigns ctx s active n xs ys dests vs ws →
        (∀ zs : Nat → List Value, (∀ t ∈ active, l.Produces (s.scope ctx t) (vs t) (ws t) (zs t)) →
          ∃ s', Run.exec ctx ((l.assign xs ys dests).run n).1 active s = .ok () s' ∧
            (∀ t ∈ active, (s'.scope ctx t).Sees dests (zs t)) ∧
            s' = s.bindAll active fun t => (l.temporaries n).zip (zs t) ++ dests.zip (zs t)) ∧
        ((∀ r ∈ l.apply xs ys, ∀ x ∈ l.temporaries n, x ∉ r.occurrences) →
          ∀ s', Run.exec ctx ((l.assign xs ys dests).run n).1 active s = .ok () s' →
            ∀ t ∈ active, ∃ zs, l.Produces (s.scope ctx t) (vs t) (ws t) zs) := by
  refine ⟨fun σ vs ws hx hy => eval_apply hl hxs hx hy, fun ctx s active n dests vs ws h =>
    ⟨fun zs hzs => ?_, fun hapart s' => h.produces hl hxs hapart⟩⟩
  refine ⟨_, h.exec hl hxs hzs, fun t ht => ?_, rfl⟩
  have hlength : dests.length = (zs t).length := by
    rw [(h.own t ht).length_eq, ← (hzs t ht).2, List.length_map]
  rw [GroupState.scope_bindAll ht (h.inGroup t ht), Scope.sets, List.foldl_append]
  exact Scope.sees_sets h.distinct hlength

/-- The names of its parameters are those of the variables below. -/
def twist : Lambda where
  params := [⟨"x", .i64⟩, ⟨"y", .i64⟩, ⟨"u", .i64⟩, ⟨"v", .i64⟩]
  results := [.binary .add (.var "y") (.var "u"), .binary .sub (.var "x") (.var "v")]

def twistContext : GroupContext where
  captured := {}
  group := 0
  groupSize := 2
  numGroups := 1
  wave := 2
  loopLimit := 8
  checkRaces := true

/-- Two threads, each with its own `x` and `y`. -/
def twistStart : GroupState where
  threads := #[⟨(({} : Table Value).insert "x" (.i64 5)).insert "y" (.i64 7), {}⟩,
    ⟨(({} : Table Value).insert "x" (.i64 2)).insert "y" (.i64 3), {}⟩]
  global := {}
  stats := {}

/-- Both variables are operands of both results. -/
theorem twist_simultaneous :
    ∃ s', Run.exec twistContext ((twist.assign [.var "y", .var "x"] [.var "x", .int 1] ["x", "y"]).run 4).1 [0, 1]
      twistStart =
        .ok () s' ∧ (s'.scope twistContext 0).Sees ["x", "y"] [.i64 10, .i64 6] ∧
      (s'.scope twistContext 1).Sees ["x", "y"] [.i64 4, .i64 2] := by
  have starts : twist.Assigns twistContext twistStart [0, 1] 4 [.var "y", .var "x"] [.var "x", .int 1] ["x", "y"]
      (fun t => if t = 0 then [.i64 7, .i64 5] else [.i64 3, .i64 2])
      (fun t => if t = 0 then [.i64 5, .i64 1] else [.i64 2, .i64 1]) := {
    threads := by decide
    inGroup := by decide
    left := fun t ht => values_iff.mpr (by revert t; decide)
    right := fun t ht => values_iff.mpr (by revert t; decide)
    distinct := by decide
    own := List.forall_mem_cons.mpr ⟨.cons ⟨.i64 5, by decide, rfl⟩ (.cons ⟨.i64 7, by decide, rfl⟩ .nil),
      List.forall_mem_singleton.mpr (.cons ⟨.i64 2, by decide, rfl⟩ (.cons ⟨.i64 3, by decide, rfl⟩ .nil))⟩
    unknown := by decide }
  obtain ⟨s', hrun, hsees, -⟩ := ((assign_simultaneous (by decide) (by decide)).2 _ _ _ _ _ _ _ starts).1
    (fun t => if t = 0 then [.i64 10, .i64 6] else [.i64 4, .i64 2]) fun t ht =>
      ⟨values_iff.mpr (by revert t; decide), by revert t; decide⟩
  exact ⟨s', hrun, hsees 0 (by decide), hsees 1 (by decide)⟩

end Lambda
end SegKernel
