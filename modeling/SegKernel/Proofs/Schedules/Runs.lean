import SegKernel.Kernel.Hoist
import SegKernel.Proofs.Schedules.Turns

/-! Code without atomic operations ends in the same state whatever the order of its threads' turns, if
    each thread is a wave of its own and no access races. The argument goes along the statements: each
    one is run by the same threads in both runs, perhaps in another order. -/

namespace SegKernel
namespace Stmt

mutual

/-- The scalars that code gives values to, other than where it declares them, in textual order. -/
def assigned : Stmt → List Ident
  | set name _ | read name _ _ | query _ name | update _ name _ _ _ | compareSwap name _ _ _ _ => [name]
  | seq stmts => assignedAll stmts
  | comment _ body | loop _ _ body | repeatWhile _ body => body.assigned
  | branch _ ifTrue ifFalse => ifTrue.assigned ++ ifFalse.assigned
  | skip | declare .. | declareArray .. | write .. | barrier _ | memFence _ => []

def assignedAll : List Stmt → List Ident
  | [] => []
  | s :: ss => s.assigned ++ assignedAll ss

end

/-- The code has no atomic operation, and neither declares nor assigns a name of `K`, of which the
    lengths of its shared arrays consist. -/
structure Fixed (K : Ident → Prop) (stmt : Stmt) : Prop where
  plain : stmt.usesAtomics = false
  declared : ∀ x ∈ stmt.declared, ¬K x
  assigned : ∀ x ∈ stmt.assigned, ¬K x
  lengths : ∀ a ∈ stmt.sharedArrays, ∀ x ∈ a.length.occurrences, K x

structure FixedAll (K : Ident → Prop) (stmts : List Stmt) : Prop where
  plain : usesAtomicsAny stmts = false
  declared : ∀ x ∈ declaredAll stmts, ¬K x
  assigned : ∀ x ∈ assignedAll stmts, ¬K x
  lengths : ∀ a ∈ sharedArraysAll stmts, ∀ x ∈ a.length.occurrences, K x

variable {K : Ident → Prop}

theorem fixed_seq {stmts : List Stmt} (h : (seq stmts).Fixed K) : FixedAll K stmts := by
  obtain ⟨hp, hd, ha, hl⟩ := h
  rw [usesAtomics] at hp
  rw [Stmt.declared] at hd
  rw [Stmt.assigned] at ha
  rw [sharedArrays] at hl
  exact ⟨hp, hd, ha, hl⟩

theorem fixed_cons {s : Stmt} {ss : List Stmt} (h : FixedAll K (s :: ss)) : s.Fixed K ∧ FixedAll K ss := by
  obtain ⟨hp, hd, ha, hl⟩ := h
  rw [usesAtomicsAny, Bool.or_eq_false_iff] at hp
  rw [declaredAll, List.forall_mem_append] at hd
  rw [assignedAll, List.forall_mem_append] at ha
  rw [sharedArraysAll, List.forall_mem_append] at hl
  exact ⟨⟨hp.1, hd.1, ha.1, hl.1⟩, ⟨hp.2, hd.2, ha.2, hl.2⟩⟩

theorem fixed_comment {text : String} {body : Stmt} (h : (comment text body).Fixed K) : body.Fixed K := by
  obtain ⟨hp, hd, ha, hl⟩ := h
  rw [usesAtomics] at hp
  rw [Stmt.declared] at hd
  rw [Stmt.assigned] at ha
  rw [sharedArrays] at hl
  exact ⟨hp, hd, ha, hl⟩

theorem fixed_branch {c : Exp} {ifTrue ifFalse : Stmt} (h : (branch c ifTrue ifFalse).Fixed K) :
    ifTrue.Fixed K ∧ ifFalse.Fixed K := by
  obtain ⟨hp, hd, ha, hl⟩ := h
  rw [usesAtomics, Bool.or_eq_false_iff] at hp
  rw [Stmt.declared, List.forall_mem_append] at hd
  rw [Stmt.assigned, List.forall_mem_append] at ha
  rw [sharedArrays, List.forall_mem_append] at hl
  exact ⟨⟨hp.1, hd.1, ha.1, hl.1⟩, ⟨hp.2, hd.2, ha.2, hl.2⟩⟩

theorem fixed_loop {iter : Ident} {bound : Exp} {body : Stmt} (h : (loop iter bound body).Fixed K) :
    ¬K iter ∧ body.Fixed K := by
  obtain ⟨hp, hd, ha, hl⟩ := h
  rw [usesAtomics] at hp
  rw [Stmt.declared, List.forall_mem_cons] at hd
  rw [Stmt.assigned] at ha
  rw [sharedArrays] at hl
  exact ⟨hd.1, hp, hd.2, ha, hl⟩

theorem fixed_repeatWhile {c : Exp} {body : Stmt} (h : (repeatWhile c body).Fixed K) : body.Fixed K := by
  obtain ⟨hp, hd, ha, hl⟩ := h
  rw [usesAtomics] at hp
  rw [Stmt.declared] at hd
  rw [Stmt.assigned] at ha
  rw [sharedArrays] at hl
  exact ⟨hp, hd, ha, hl⟩

end Stmt

namespace Run
open GroupState
variable {ctx : GroupContext} {N : Nat} {K : Ident → Prop}

/-- Where the first computation ends without a fault, so does the second one, in a state that is alike. -/
def Matches (K : Ident → Prop) (r r' : Run Unit) : Prop :=
  ∀ a b a', Lacks K a → Alike a b → r a = .ok () a' → Lacks K a' ∧ ∃ b', r' b = .ok () b' ∧ Alike a' b'

namespace Matches

theorem pure : Matches K (pure ()) (pure ()) := by
  intro a b a' ha hab h
  obtain ⟨-, rfl⟩ := pure_eq_ok.mp h
  exact ⟨ha, b, rfl, hab⟩

theorem bind {r r' q q' : Run Unit} (h : Matches K r r') (h' : Matches K q q') : Matches K (do r; q) (do r'; q') := by
  intro a b c ha hab hrun
  obtain ⟨_, a', hr, hq⟩ := bind_eq_ok.mp hrun
  obtain ⟨ha', b', hr', hab'⟩ := h a b a' ha hab hr
  obtain ⟨hc, c', hq', hcc⟩ := h' a' b' c ha' hab' hq
  exact ⟨hc, c', bind_eq_ok.mpr ⟨(), b', hr', hq'⟩, hcc⟩

theorem modify {f : GroupState → GroupState} (h : ∀ a b, Lacks K a → Alike a b → Lacks K (f a) ∧ Alike (f a) (f b)) :
    Matches K (modify f) (modify f) := by
  intro a b a' ha hab hrun
  obtain rfl := modify_eq_ok.mp hrun
  exact ⟨(h a b ha hab).1, f b, rfl, (h a b ha hab).2⟩

/-- The same turns in the same order. -/
theorem forM {turn : Nat → Run Unit} (h : Exchangeable N K turn) : ∀ active : List Nat,
    Matches K (active.forM turn) (active.forM turn)
  | [] => pure
  | t :: ts => by
    rw [forM_cons]
    refine bind (fun a b a' ha hab hrun => ?_) (forM h ts)
    exact ⟨h.keeps t a a' ha hrun, h.respects t a b a' ha hab hrun⟩

/-- The same turns in any order. -/
theorem forM_perm {turn : Nat → Run Unit} (h : Exchangeable N K turn) {active active' : List Nat}
    (hperm : active.Perm active') (hnd : active.Nodup) (hlt : ∀ t ∈ active, t < N) :
    Matches K (active.forM turn) (active'.forM turn) := by
  induction hperm with
  | nil => exact pure
  | cons t _ ih =>
    obtain ⟨-, hnd⟩ := List.nodup_cons.mp hnd
    rw [forM_cons, forM_cons]
    refine bind (fun a b a' ha hab hrun => ?_) (ih hnd fun t' ht' => hlt t' (List.mem_cons_of_mem t ht'))
    exact ⟨h.keeps t a a' ha hrun, h.respects t a b a' ha hab hrun⟩
  -- Two turns change places: the second state is as after the other order, but for the log.
  | swap t t' ts =>
    simp only [List.nodup_cons, List.mem_cons, not_or] at hnd
    have ht : t < N := hlt t (by simp)
    have ht' : t' < N := hlt t' (by simp)
    intro a b c ha hab hrun
    obtain ⟨_, a₁, h₁, hrun⟩ := bind_eq_ok.mp (forM_cons t' (t :: ts) turn ▸ hrun)
    obtain ⟨_, a₂, h₂, hrun⟩ := bind_eq_ok.mp (forM_cons t ts turn ▸ hrun)
    obtain ⟨d₁, d₂, hd₁, hd₂, halike⟩ := h.swaps t' ht' t ht a a₁ a₂ hnd.1.1 ha h₁ h₂
    have hd : Lacks K d₁ := h.keeps t a d₁ ha hd₁
    obtain ⟨b₁, hb₁, hdb₁⟩ := h.respects t a b d₁ ha hab hd₁
    obtain ⟨b₂, hb₂, hdb₂⟩ := h.respects t' d₁ b₁ d₂ hd hdb₁ hd₂
    have ha₂ : Lacks K a₂ := h.keeps t a₁ a₂ (h.keeps t' a a₁ ha h₁) h₂
    obtain ⟨hc, c', hc', hcc⟩ := forM h ts a₂ b₂ c ha₂ (halike.trans hdb₂) hrun
    refine ⟨hc, c', ?_, hcc⟩
    rw [forM_cons, forM_cons]
    exact bind_eq_ok.mpr ⟨(), b₁, hb₁, bind_eq_ok.mpr ⟨(), b₂, hb₂, hc'⟩⟩
  | trans hp hp' ih ih' =>
    intro a b c ha hab hrun
    obtain ⟨hc, c', hc', hcc⟩ := ih hnd hlt a a c ha (.refl a) hrun
    obtain ⟨-, d, hd, hcd⟩ := ih' (hp.nodup_iff.mp hnd) (fun t ht => hlt t (hp.mem_iff.mpr ht)) a b c' ha hab hc'
    exact ⟨hc, d, hd, hcc.trans hcd⟩

theorem countUp {body body' : Nat → Run Unit} (h : ∀ k, Matches K (body k) (body' k)) :
    ∀ count first : Nat, Matches K (countUp body count first) (countUp body' count first)
  | 0, _ => pure
  | n + 1, k => bind (h k) (countUp h n (k + 1))

end Matches

/-! ### Questions -/

/-- The answers to a question that depends on each thread alone are the same in any order. -/
theorem ask_perm {α : Type} [Inhabited α] {f : Scope → Except Fault α} {active active' : List Nat} {a b a' : GroupState}
    {answers : List (Nat × α)} (hperm : active.Perm active') (hab : Alike a b)
    (h : ask active (fun t => evaluate fun s => f (s.scope ctx t)) a = .ok answers a') :
    a' = a ∧ answers.map (·.1) = active ∧ ∃ answers', ask active' (fun t => evaluate fun s => f (s.scope ctx t)) b =
      .ok answers' b ∧ answers.Perm answers' := by
  obtain ⟨rfl, hactive, hanswers⟩ := ask_eq_ok h
  let answer : Nat → α := fun t => ((f (a'.scope ctx t)).toOption).getD default
  have hmap : answers = active.map fun t => (t, answer t) := by
    have same : answers.map id = answers.map fun p => (p.1, answer p.1) := by
      refine List.map_congr_left fun p hp => ?_
      simp [answer, hanswers p hp, Except.toOption]
    rw [List.map_id] at same
    rw [← hactive, List.map_map]
    exact same
  refine ⟨rfl, hactive, active'.map fun t => (t, answer t), ?_, hmap ▸ hperm.map _⟩
  refine ask_eq_of_forall fun t ht => ?_
  have hmem : (t, answer t) ∈ answers := by
    rw [hmap]
    exact List.mem_map_of_mem (hperm.mem_iff.mpr ht)
  rw [scope_of_threads ctx hab.threads]
  exact hanswers _ hmem

theorem those_perm {α : Type} {answers answers' : List (Nat × α)} (h : answers.Perm answers') (p : α → Bool) :
    (those answers p).Perm (those answers' p) := (h.filter _).map _

theorem those_sublist {α : Type} (answers : List (Nat × α)) (p : α → Bool) :
    (those answers p).Sublist (answers.map (·.1)) := List.filter_sublist.map _

theorem trips_perm {bounds bounds' : List (Nat × Int64)} (h : bounds.Perm bounds') : trips bounds = trips bounds' := by
  have le : ∀ {l l' : List (Nat × Int64)}, l.Perm l' → trips l ≤ trips l' := fun hl =>
    trips_le fun p hp => le_trips (hl.mem_iff.mp hp)
  exact Nat.le_antisymm (le h) (le h.symm)

/-- The threads that take part: different ones, among the first `N`. -/
def Among (N : Nat) (active : List Nat) : Prop := active.Nodup ∧ ∀ t ∈ active, t < N

theorem Among.those {α : Type} {active : List Nat} {answers : List (Nat × α)} (h : Among N active)
    (hanswers : answers.map (·.1) = active) (p : α → Bool) : Among N (those answers p) := by
  have hsub := those_sublist answers p
  rw [hanswers] at hsub
  exact ⟨h.1.sublist hsub, fun t ht => h.2 t (hsub.subset ht)⟩

theorem isEmpty_perm {active active' : List Nat} (h : active.Perm active') : active.isEmpty = active'.isEmpty := by
  rw [Bool.eq_iff_iff, List.isEmpty_iff_length_eq_zero, List.isEmpty_iff_length_eq_zero, h.length_eq]

theorem Matches.whileLive {c : Exp} {body : List Nat → Run Unit}
    (h : ∀ active active', active.Perm active' → Among N active → Matches K (body active) (body active')) :
    ∀ limit active active', active.Perm active' → Among N active →
      Matches K (whileLive (loopTest ctx c) body limit active) (whileLive (loopTest ctx c) body limit active') := by
  have test : ∀ {active active' live : List Nat} {a b a' : GroupState}, active.Perm active' → Among N active →
    Alike a b →
      loopTest ctx c active a = .ok live a' →
      a' = a ∧ Among N live ∧ ∃ live', loopTest ctx c active' b = .ok live' b ∧ live.Perm live' := by
    intro active active' live a b a' hperm hamong hab htest
    obtain ⟨rfl, answers, hask, rfl⟩ := loopTest_ok htest
    obtain ⟨-, hactive, answers', hask', hanswers⟩ := ask_perm (f := fun σ => c.evalBool σ) hperm hab hask
    exact ⟨rfl, hamong.those hactive id, _, bind_eq_ok.mpr ⟨answers', b, hask', rfl⟩, those_perm hanswers id⟩
  -- On the limit: both runs make the same test in each round.
  intro limit
  induction limit with
  | zero =>
    intro active active' hperm hamong a b a' ha hab hrun
    obtain ⟨live, a₁, htest, hrest⟩ := bind_eq_ok.mp hrun
    obtain ⟨rfl, -, live', htest', hlive⟩ := test hperm hamong hab htest
    split at hrest
    · rename_i hempty
      obtain ⟨-, rfl⟩ := pure_eq_ok.mp hrest
      refine ⟨ha, b, bind_eq_ok.mpr ⟨live', b, htest', ?_⟩, hab⟩
      rw [if_pos (isEmpty_perm hlive ▸ hempty)]
      rfl
    · exact absurd hrest (by simp [throw_ne_ok])
  | succ n ih =>
    intro active active' hperm hamong a b a' ha hab hrun
    obtain ⟨live, a₁, htest, hrest⟩ := bind_eq_ok.mp hrun
    obtain ⟨rfl, hamong', live', htest', hlive⟩ := test hperm hamong hab htest
    split at hrest
    · rename_i hempty
      obtain ⟨-, rfl⟩ := pure_eq_ok.mp hrest
      refine ⟨ha, b, bind_eq_ok.mpr ⟨live', b, htest', ?_⟩, hab⟩
      rw [if_pos (isEmpty_perm hlive ▸ hempty)]
      rfl
    · rename_i hempty
      obtain ⟨ha', b', hrun', hab'⟩ :=
        ((h live live' hlive hamong').bind (ih live live' hlive hamong')) _ b a' ha hab hrest
      refine ⟨ha', b', bind_eq_ok.mpr ⟨live', b, htest', ?_⟩, hab'⟩
      rw [if_neg (isEmpty_perm hlive ▸ hempty)]
      exact hrun'

/-! ### Statements -/

theorem Matches.branch {c : Exp} {ifTrue ifFalse : Stmt}
    (htrue : ∀ active active', active.Perm active' → Among N active →
      Matches K (exec ctx ifTrue active) (exec ctx ifTrue active'))
    (hfalse : ∀ active active', active.Perm active' → Among N active →
      Matches K (exec ctx ifFalse active) (exec ctx ifFalse active'))
    {active active' : List Nat} (hperm : active.Perm active') (hamong : Among N active) (hne : active ≠ []) :
    Matches K (exec ctx (.branch c ifTrue ifFalse) active) (exec ctx (.branch c ifTrue ifFalse) active') := by
  have hne' : active' ≠ [] := fun h => hne (List.perm_nil.mp (h ▸ hperm))
  intro a b a' ha hab hrun
  obtain ⟨answers, a₁, hask, h₁, h₂⟩ := exec_branch_ok hne hrun
  obtain ⟨-, hactive, answers', hask', hanswers⟩ := ask_perm (f := fun σ => c.evalBool σ) hperm hab hask
  obtain ⟨ha', b', hrun', hab'⟩ := ((htrue _ _ (those_perm hanswers id) (hamong.those hactive id)).bind
    (hfalse _ _ (those_perm hanswers not) (hamong.those hactive not))) a b a' ha hab (bind_eq_ok.mpr ⟨(), a₁, h₁, h₂⟩)
  refine ⟨ha', b', ?_, hab'⟩
  rw [exec_branch hne']
  exact bind_eq_ok.mpr ⟨answers', b, hask', hrun'⟩

theorem Matches.loop {iter : Ident} {bound : Exp} {body : Stmt} (hiter : ¬K iter)
    (hbody : ∀ active active', active.Perm active' → Among N active →
      Matches K (exec ctx body active) (exec ctx body active'))
    {active active' : List Nat} (hperm : active.Perm active') (hamong : Among N active) (hne : active ≠ []) :
    Matches K (exec ctx (.loop iter bound body) active) (exec ctx (.loop iter bound body) active') := by
  have hne' : active' ≠ [] := fun h => hne (List.perm_nil.mp (h ▸ hperm))
  intro a b a' ha hab hrun
  obtain ⟨bounds, hask, hcount⟩ := exec_loop_ok hne hrun
  obtain ⟨-, hactive, bounds', hask', hbounds⟩ := ask_perm (f := fun σ => bound.evalInt σ) hperm hab hask
  have hlimit : ¬ctx.loopLimit < trips bounds := by
    intro h
    rw [exec_loop hne] at hrun
    obtain ⟨bounds₁, a₁, hask₁, hrun⟩ := bind_eq_ok.mp hrun
    rw [hask] at hask₁
    cases hask₁
    rw [if_pos h] at hrun
    simp [bind_eq_ok, throw_ne_ok] at hrun
  have rounds : ∀ k, Matches K (loopStep ctx iter body bounds k) (loopStep ctx iter body bounds' k) := by
    intro k
    have hinner := those_perm hbounds fun b => k < b.toInt
    have hamong' := hamong.those hactive fun b => k < b.toInt
    exact (forM_perm (exchangeable_bind hiter _) hinner hamong'.1 hamong'.2).bind (hbody _ _ hinner hamong')
  obtain ⟨ha', b', hrun', hab'⟩ := countUp rounds (trips bounds) 0 a b a' ha hab hcount
  refine ⟨ha', b', ?_, hab'⟩
  rw [trips_perm hbounds] at hlimit hrun'
  rw [exec_loop hne']
  refine bind_eq_ok.mpr ⟨bounds', b, hask', ?_⟩
  rw [if_neg hlimit]
  exact hrun'

mutual

/-- Two runs of a statement by the same threads in any order match. -/
theorem exec_matches (hctx : Solitary ctx N) : ∀ stmt : Stmt, stmt.Fixed K → ∀ active active',
    active.Perm active' → Among N active → Matches K (exec ctx stmt active) (exec ctx stmt active') := by
  intro stmt hfixed active active' hperm hamong
  by_cases hne : active = []
  · subst hne
    obtain rfl := hperm.nil_eq
    rw [exec_nil]
    exact .pure
  have hne' : active' ≠ [] := fun h => hne (List.perm_nil.mp (h ▸ hperm))
  have turns : ∀ {turn : Nat → Run Unit}, Exchangeable N K turn → Matches K (active.forM turn) (active'.forM turn) :=
    fun h => .forM_perm h hperm hamong.1 hamong.2
  -- On the statement: one that all threads do in turn is exchanged, and others are made of such.
  cases stmt with
  | skip =>
    rw [exec_skip, exec_skip]
    exact .pure
  | seq stmts =>
    rw [exec_seq_eq, exec_seq_eq]
    exact execAll_matches hctx stmts (Stmt.fixed_seq hfixed) active active' hperm hamong
  | comment text body =>
    rw [exec_comment, exec_comment]
    exact exec_matches hctx body (Stmt.fixed_comment hfixed) active active' hperm hamong
  | branch c ifTrue ifFalse =>
    obtain ⟨htrue, hfalse⟩ := Stmt.fixed_branch hfixed
    exact .branch (exec_matches hctx ifTrue htrue) (exec_matches hctx ifFalse hfalse) hperm hamong hne
  | loop iter bound body =>
    obtain ⟨hiter, hbody⟩ := Stmt.fixed_loop hfixed
    exact .loop hiter (exec_matches hctx body hbody) hperm hamong hne
  | repeatWhile c body =>
    rw [exec_repeatWhile hne, exec_repeatWhile hne']
    exact .whileLive (exec_matches hctx body (Stmt.fixed_repeatWhile hfixed)) _ _ _ hperm hamong
  | declare name type volatile =>
    have hname : ¬K name := hfixed.declared name (by simp [Stmt.declared])
    rw [exec, exec, if_neg (by simpa using hne), if_neg (by simpa using hne')]
    exact turns (exchangeable_bind hname fun _ => .zero type)
  | declareArray name type length space =>
    have hlength : space = .shared → ∀ x ∈ length.occurrences, K x := by
      rintro rfl
      exact hfixed.lengths ⟨name, type, length⟩ (by simp [Stmt.sharedArrays])
    rw [exec, exec, if_neg (by simpa using hne), if_neg (by simpa using hne')]
    exact turns (exchangeable_declareArray hlength)
  | set name x =>
    have hname : ¬K name := hfixed.assigned name (by simp [Stmt.assigned])
    rw [exec, exec, if_neg (by simpa using hne), if_neg (by simpa using hne')]
    exact turns (exchangeable_set hname x)
  | read dest view index =>
    have hdest : ¬K dest := hfixed.assigned dest (by simp [Stmt.assigned])
    rw [exec, exec, if_neg (by simpa using hne), if_neg (by simpa using hne')]
    exact turns (exchangeable_read hctx view index hdest)
  | write view index x =>
    rw [exec, exec, if_neg (by simpa using hne), if_neg (by simpa using hne')]
    exact turns (exchangeable_write hctx view index x)
  | query which dest =>
    have hdest : ¬K dest := hfixed.assigned dest (by simp [Stmt.assigned])
    rw [exec, exec, if_neg (by simpa using hne), if_neg (by simpa using hne')]
    exact turns (exchangeable_bind hdest fun t => .i64 (answer ctx t which))
  | barrier fence =>
    rw [exec, exec, if_neg (by simpa using hne), if_neg (by simpa using hne')]
    refine .modify fun a b ha hab => ⟨lacks_of_threads rfl ha, ?_⟩
    obtain ⟨log, hlog, rfl⟩ := hab
    exact ⟨_, hlog.nextEpoch, rfl⟩
  | memFence fence =>
    rw [exec, exec, if_neg (by simpa using hne), if_neg (by simpa using hne')]
    exact .pure
  | update op old view index x => exact absurd hfixed.plain (by simp [Stmt.usesAtomics])
  | compareSwap old view index expected desired => exact absurd hfixed.plain (by simp [Stmt.usesAtomics])

theorem execAll_matches (hctx : Solitary ctx N) : ∀ stmts : List Stmt, Stmt.FixedAll K stmts → ∀ active active',
    active.Perm active' → Among N active → Matches K (execAll ctx stmts active) (execAll ctx stmts active')
  | [], _, active, active', _, _ => by
    rw [execAll_nil, execAll_nil]
    exact .pure
  | s :: ss, hfixed, active, active', hperm, hamong => by
    obtain ⟨hs, hss⟩ := Stmt.fixed_cons hfixed
    rw [execAll_cons, execAll_cons]
    exact (exec_matches hctx s hs active active' hperm hamong).bind
      (execAll_matches hctx ss hss active active' hperm hamong)

end

end Run
end SegKernel
