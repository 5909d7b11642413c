import SegKernel.Kernel.Hoist
import SegKernel.Kernel.Names
import SegKernel.Launch.Nest

/-! The names that code declares, and its shared arrays. Hoisting moves declarations; it adds and loses
    none. -/

namespace SegKernel

namespace Stmt
variable {name : Ident} {stmts : List Stmt}

/-- What is collected from the statements of a sequence is collected from the pieces of a statement. -/
theorem collect_pieces {α : Type} {f : Stmt → List α} (hskip : f skip = []) (hseq : ∀ ss, f (seq ss) = ss.flatMap f)
    (s : Stmt) :
    s.pieces.flatMap f = f s := by
  cases s with
  | skip => rw [pieces, hskip, List.flatMap_nil]
  | seq ss => rw [pieces, hseq]
  | _ => simp [pieces]

/-- It is collected from a block of them too. -/
theorem collect_block {α : Type} {f : Stmt → List α} (hskip : f skip = []) (hseq : ∀ ss, f (seq ss) = ss.flatMap f) :
    f (block stmts) = stmts.flatMap f := by
  have flat : (stmts.flatMap pieces).flatMap f = stmts.flatMap f := by
    rw [List.flatMap_assoc]
    simp only [collect_pieces hskip hseq]
  rw [← flat]
  unfold block
  split
  · rename_i h
    rw [h, hskip, List.flatMap_nil]
  · rename_i s h
    rw [h, List.flatMap_singleton]
  · rw [hseq]

/-! ### Declarations of blocks -/

theorem declaredAll_eq : declaredAll stmts = stmts.flatMap declared := by
  induction stmts with
  | nil => rfl
  | cons s ss ih => rw [declaredAll, List.flatMap_cons, ih]

theorem sharedArraysAll_eq : sharedArraysAll stmts = stmts.flatMap sharedArrays := by
  induction stmts with
  | nil => rfl
  | cons s ss ih => rw [sharedArraysAll, List.flatMap_cons, ih]

theorem dropSharedAll_eq_map (stmts : List Stmt) : dropSharedAll stmts = stmts.map dropShared := by
  induction stmts with
  | nil => rw [dropSharedAll, List.map_nil]
  | cons s ss ih => rw [dropSharedAll, List.map_cons, ih]

theorem mentionsAll_eq : mentionsAll stmts = stmts.flatMap mentions := by
  induction stmts with
  | nil => rfl
  | cons s ss ih => rw [mentionsAll, List.flatMap_cons, ih]

theorem mentions_block : (block stmts).mentions = stmts.flatMap mentions :=
  collect_block rfl fun _ => mentionsAll_eq

theorem declared_block : (block stmts).declared = stmts.flatMap declared :=
  collect_block rfl fun _ => declaredAll_eq

theorem sharedArrays_block : (block stmts).sharedArrays = stmts.flatMap sharedArrays :=
  collect_block rfl fun _ => sharedArraysAll_eq

theorem mem_declared_block : name ∈ (block stmts).declared ↔ ∃ s ∈ stmts, name ∈ s.declared := by
  rw [declared_block, List.mem_flatMap]

theorem mem_declared_declareInit {x : Ident} {type : ScalarType} {e : Exp} :
    name ∈ (declareInit x type e).declared ↔ name = x := by
  simp [declareInit, declared, declaredAll]

theorem mem_declared_when {c : Exp} {body : Stmt} (hc : c.bool? ≠ some false) (h : name ∈ body.declared) :
    name ∈ (when c body).declared := by
  unfold when
  split
  · exact h
  · exact absurd ‹_› hc
  · rw [declared]
    exact List.mem_append_left _ h

theorem mem_declared_inner {nest : Nest} {body : Stmt} (h : ∃ s ∈ nest.inner body, name ∈ s.declared) :
    name ∈ (nest.wrap body).declared := by
  unfold Nest.wrap
  split
  · rw [mem_declared_block]
    refine ⟨_, List.mem_append_right _ (List.mem_singleton_self _), ?_⟩
    rw [declared]
    exact List.mem_cons_of_mem _ (mem_declared_block.mpr h)
  · rw [mem_declared_block]
    obtain ⟨s, hs, hname⟩ := h
    exact ⟨s, List.mem_append_right _ hs, hname⟩

theorem mem_declared_innerIndices {flat : Exp} : ∀ {dims : List (Ident × Exp)}, name ∈ dims.map (·.1) →
    ∃ s ∈ innerIndices flat dims, name ∈ s.declared
  | d :: dims, h => by
    rw [innerIndices]
    rcases List.mem_cons.mp h with rfl | h
    · exact ⟨_, List.mem_cons_self, mem_declared_declareInit.mpr rfl⟩
    · obtain ⟨s, hs, hname⟩ := mem_declared_innerIndices h
      exact ⟨s, List.mem_cons_of_mem _ hs, hname⟩

theorem mem_declared_unflatten {flat : Exp} {dims : List (Ident × Exp)} (h : name ∈ dims.map (·.1)) :
    name ∈ (unflatten dims flat).declared := by
  unfold unflatten
  split
  · simp at h
  · rw [mem_declared_block]
    rcases List.mem_cons.mp h with rfl | h
    · exact ⟨_, List.mem_cons_self, mem_declared_declareInit.mpr rfl⟩
    · obtain ⟨s, hs, hname⟩ := mem_declared_innerIndices h
      exact ⟨s, List.mem_cons_of_mem _ hs, hname⟩

/-! ### Hoisting -/

theorem perm_append_append {α : Type} {as bs cs ds as' bs' : List α} (h : as.Perm (bs ++ cs))
    (h' : as'.Perm (bs' ++ ds)) :
    (as ++ as').Perm ((bs ++ bs') ++ (cs ++ ds)) := by
  refine (h.append h').trans ?_
  rw [List.append_assoc, List.append_assoc]
  exact (List.perm_append_comm_assoc cs bs' ds).append_left bs

mutual

/-- What code declares are its shared arrays, and what it declares without these. -/
theorem declared_perm : ∀ s : Stmt, s.declared.Perm (s.sharedArrays.map (·.name) ++ s.dropShared.declared)
  | skip | set .. | read .. | write .. | query .. | barrier _ | memFence _ | update .. | compareSwap .. => .nil
  | declare .. => .refl _
  | declareArray x type length space => by cases space <;> exact .refl _
  | seq stmts => by
    rw [declared, sharedArrays, dropShared, declared_block, ← declaredAll_eq]
    exact declaredAll_perm stmts
  | comment text body => declared_perm body
  | branch c ifTrue ifFalse => by
    rw [declared, sharedArrays, dropShared, declared, List.map_append]
    exact perm_append_append (declared_perm ifTrue) (declared_perm ifFalse)
  | loop iter bound body => ((declared_perm body).cons iter).trans List.perm_middle.symm
  | repeatWhile c body => declared_perm body

theorem declaredAll_perm : ∀ stmts : List Stmt,
    (declaredAll stmts).Perm ((sharedArraysAll stmts).map (·.name) ++ declaredAll (dropSharedAll stmts))
  | [] => .nil
  | s :: ss => by
    rw [declaredAll, sharedArraysAll, dropSharedAll, declaredAll, List.map_append]
    exact perm_append_append (declared_perm s) (declaredAll_perm ss)

end

theorem declared_hoist {stmt hoisted : Stmt} (h : stmt.hoist = .ok hoisted) : hoisted.declared.Perm stmt.declared := by
  unfold hoist at h
  dsimp only at h
  split at h
  · cases h
  · obtain rfl := Except.ok.inj h
    have arrays : (stmt.sharedArrays.map SharedArray.code).flatMap declared = stmt.sharedArrays.map (·.name) := by
      induction stmt.sharedArrays with
      | nil => rfl
      | cons a as ih => exact congrArg (a.name :: ·) ih
    rw [declared_block, List.flatMap_append, List.flatMap_singleton, arrays]
    exact (declared_perm stmt).symm

mutual

/-- What code mentions are the lengths of its shared arrays, and what it mentions without these. -/
theorem mentions_perm :
    ∀ s : Stmt, s.mentions.Perm (s.sharedArrays.flatMap (·.length.mentions) ++ s.dropShared.mentions)
  | skip | set .. | read .. | write .. | query .. | barrier _ | memFence _ | update .. | compareSwap .. | declare .. =>
    .refl _
  | declareArray x type length space => by
    cases space with
    | shared =>
      rw [mentions, sharedArrays, dropShared, if_pos rfl, mentions, List.flatMap_singleton, List.append_nil]
    | _ => exact .refl _
  | seq stmts => by
    rw [mentions, sharedArrays, dropShared, mentions_block, ← mentionsAll_eq]
    exact mentionsAll_perm stmts
  | comment text body => mentions_perm body
  | branch c ifTrue ifFalse => by
    rw [mentions, sharedArrays, dropShared, mentions, List.flatMap_append]
    refine perm_append_append ?_ (mentions_perm ifFalse)
    exact ((mentions_perm ifTrue).append_left _).trans (List.perm_append_comm_assoc _ _ _)
  | loop iter bound body => ((mentions_perm body).append_left _).trans (List.perm_append_comm_assoc _ _ _)
  | repeatWhile c body => ((mentions_perm body).append_left _).trans (List.perm_append_comm_assoc _ _ _)

theorem mentionsAll_perm : ∀ stmts : List Stmt,
    (mentionsAll stmts).Perm ((sharedArraysAll stmts).flatMap (·.length.mentions) ++ mentionsAll (dropSharedAll stmts))
  | [] => .nil
  | s :: ss => by
    rw [mentionsAll, sharedArraysAll, dropSharedAll, mentionsAll, List.flatMap_append]
    exact perm_append_append (mentions_perm s) (mentionsAll_perm ss)

end

theorem mentions_hoist {stmt hoisted : Stmt} (h : stmt.hoist = .ok hoisted) : hoisted.mentions.Perm stmt.mentions := by
  unfold hoist at h
  dsimp only at h
  split at h
  · cases h
  · obtain rfl := Except.ok.inj h
    rw [mentions_block, List.flatMap_append, List.flatMap_singleton, List.flatMap_map]
    exact (mentions_perm stmt).symm

end Stmt

/-! ## What code takes from its surroundings

The names that code takes from its surroundings: those that it uses and does not declare. Each of them
is free in the role of its first use. -/

theorem mem_of_mem_eraseDupsBy {α : Type} {r : α → α → Bool} {a : α} : ∀ (n : Nat) {as : List α}, as.length ≤ n →
    a ∈ as.eraseDupsBy r → a ∈ as
  | _, [], _, h => h
  | n + 1, b :: bs, hn, h => by
    rw [List.eraseDupsBy_cons] at h
    rcases List.mem_cons.mp h with rfl | h
    · exact List.mem_cons_self
    · have hlength := List.length_filter_le (fun c => decide (r c b = false)) bs
      rw [List.length_cons] at hn
      exact List.mem_cons_of_mem _ (List.mem_filter.mp (mem_of_mem_eraseDupsBy n (by omega) h)).1

theorem free_not_declared {stmt : Stmt} {m : Mention} (h : m ∈ stmt.free) : m.name ∉ stmt.declared := by
  simpa using (List.mem_filter.mp (mem_of_mem_eraseDupsBy _ (Nat.le_refl _) h)).2

theorem name_not_declared {stmt : Stmt} {role : Role} {name : Ident}
    (h : name ∈ (stmt.free.filter (·.role == role)).map (·.name)) : name ∉ stmt.declared := by
  obtain ⟨m, hm, rfl⟩ := List.mem_map.mp h
  exact free_not_declared (List.mem_filter.mp hm).1

theorem exists_mem_eraseDupsBy {α β : Type} [BEq β] [LawfulBEq β] (f : α → β) {a : α} : ∀ (n : Nat) {as : List α},
    as.length ≤ n → a ∈ as → ∃ b ∈ as.eraseDupsBy (f · == f ·), f b = f a
  | 0, [], _, ha => by cases ha
  | n + 1, c :: as, hn, ha => by
    rw [List.eraseDupsBy_cons]
    by_cases hc : f c = f a
    · exact ⟨c, List.mem_cons_self, hc⟩
    · have hmem : a ∈ as := (List.mem_cons.mp ha).resolve_left fun e => hc (e ▸ rfl)
      have hkept : a ∈ as.filter fun b => decide ((f b == f c) = false) :=
        List.mem_filter.mpr ⟨hmem, by simpa using fun e => hc e.symm⟩
      have hlength := List.length_filter_le (fun b => decide ((f b == f c) = false)) as
      rw [List.length_cons] at hn
      obtain ⟨b, hb, he⟩ := exists_mem_eraseDupsBy f n (by omega) hkept
      exact ⟨b, List.mem_cons_of_mem c hb, he⟩

/-- A name that code uses and does not declare is free. -/
theorem Stmt.free_of_mentions {stmt : Stmt} {m : Mention} (h : m ∈ stmt.mentions) (hdeclared : m.name ∉ stmt.declared) :
    m.name ∈ stmt.freeScalars ∨ m.name ∈ stmt.freeMemory := by
  have hkept : m ∈ stmt.mentions.filter fun m => !stmt.declared.contains m.name :=
    List.mem_filter.mpr ⟨h, by simpa using hdeclared⟩
  obtain ⟨b, hb, he⟩ := exists_mem_eraseDupsBy Mention.name _ (Nat.le_refl _) hkept
  have hfree : b ∈ stmt.free := hb
  rw [← he]
  cases hrole : b.role with
  | scalar => exact Or.inl (List.mem_map_of_mem (List.mem_filter.mpr ⟨hfree, by rw [hrole]; rfl⟩))
  | memory => exact Or.inr (List.mem_map_of_mem (List.mem_filter.mpr ⟨hfree, by rw [hrole]; rfl⟩))

/-- A free name is used in the role in which it is free. -/
theorem Stmt.mentions_of_role {stmt : Stmt} {role : Role} {name : Ident}
    (h : name ∈ (stmt.free.filter (·.role == role)).map (·.name)) : ⟨name, role⟩ ∈ stmt.mentions := by
  obtain ⟨m, hm, rfl⟩ := List.mem_map.mp h
  obtain ⟨hfree, hrole⟩ := List.mem_filter.mp hm
  rw [← eq_of_beq hrole]
  exact (List.mem_filter.mp (mem_of_mem_eraseDupsBy _ (Nat.le_refl _) hfree)).1

end SegKernel
