import SegKernel.Proofs.Names.Declared

/-! The form of hoisted code: the declarations of shared arrays in front, and behind them code without
    such declarations. All its sequences are flat, so hoisting it again changes nothing. -/

namespace SegKernel.Stmt
variable {s body hoisted : Stmt} {stmts : List Stmt}

/-! ### Flat sequences -/

theorem flatMap_pieces (h : ∀ s ∈ stmts, s.pieces = [s]) : stmts.flatMap pieces = stmts := by
  rw [List.flatMap_def, List.map_congr_left h, ← List.flatMap_def, List.flatMap_singleton']

/-- Statements that stand for themselves are the pieces of their block. -/
theorem pieces_block (h : ∀ s ∈ stmts.flatMap pieces, s.pieces = [s]) :
    (block stmts).pieces = stmts.flatMap pieces := by
  unfold block
  split
  · rename_i hnil
    rw [hnil]
    rfl
  · rename_i s hs
    rw [hs] at h ⊢
    exact h s (List.mem_singleton_self s)
  · rfl

theorem block_congr {stmts' : List Stmt} (h : stmts.flatMap pieces = stmts'.flatMap pieces) :
    block stmts = block stmts' := by
  unfold block
  rw [h]

/-- A statement in a flat sequence, from which nothing is dropped. -/
structure Settled (s : Stmt) : Prop where
  pieces : s.pieces = [s]
  dropShared : s.dropShared = s

/-- Code that is a flat sequence of statements from which nothing is dropped. -/
structure Flat (s : Stmt) : Prop where
  settled : ∀ p ∈ s.pieces, Settled p
  block : Stmt.block s.pieces = s

namespace Flat

theorem of_settled (h : Settled s) : Flat s where
  settled p hp := by
    rw [h.pieces, List.mem_singleton] at hp
    exact hp ▸ h
  block := by
    rw [h.pieces]
    unfold Stmt.block
    rw [List.flatMap_singleton, h.pieces]

theorem skip : Flat .skip := ⟨by simp [pieces], rfl⟩

theorem block_singleton (h : Flat s) : Stmt.block [s] = s := by
  have alone : [s].flatMap Stmt.pieces = s.pieces.flatMap Stmt.pieces := by
    rw [List.flatMap_singleton, flatMap_pieces fun p hp => (h.settled p hp).pieces]
  rw [block_congr alone, h.block]

/-- A block of flat code is flat. -/
theorem block_map (h : ∀ s ∈ stmts, Flat s) : Flat (.block stmts) := by
  have settled : ∀ p ∈ stmts.flatMap pieces, Settled p := by
    intro p hp
    obtain ⟨s, hs, hp⟩ := List.mem_flatMap.mp hp
    exact (h s hs).settled p hp
  have alone : ∀ p ∈ stmts.flatMap pieces, p.pieces = [p] := fun p hp => (settled p hp).pieces
  refine ⟨fun p hp => settled p (pieces_block alone ▸ hp), ?_⟩
  rw [pieces_block alone]
  exact block_congr (flatMap_pieces alone)

theorem dropShared (h : Flat s) : s.dropShared = s := by
  cases s with
  | skip => rfl
  | seq ps =>
    have same : ps.map Stmt.dropShared = ps :=
      (List.map_congr_left fun p hp => (h.settled p hp).dropShared).trans (List.map_id' ps)
    rw [Stmt.dropShared, dropSharedAll_eq_map, same]
    exact h.block
  | _ => exact (h.settled _ (List.mem_singleton_self _)).dropShared

end Flat

/-! ### Code without its shared arrays -/

mutual

/-- Code from which the declarations of shared arrays are dropped is flat. -/
theorem flat_dropShared : ∀ s : Stmt, Flat s.dropShared
  | .seq stmts => by
    rw [Stmt.dropShared]
    exact .block_map (flat_dropSharedAll stmts)
  | .comment text body => by
    rw [Stmt.dropShared]
    exact .of_settled ⟨rfl, by rw [Stmt.dropShared, (flat_dropShared body).dropShared]⟩
  | .branch c ifTrue ifFalse => by
    rw [Stmt.dropShared]
    refine .of_settled ⟨rfl, ?_⟩
    rw [Stmt.dropShared, (flat_dropShared ifTrue).dropShared, (flat_dropShared ifFalse).dropShared]
  | .loop iter bound body => by
    rw [Stmt.dropShared]
    exact .of_settled ⟨rfl, by rw [Stmt.dropShared, (flat_dropShared body).dropShared]⟩
  | .repeatWhile c body => by
    rw [Stmt.dropShared]
    exact .of_settled ⟨rfl, by rw [Stmt.dropShared, (flat_dropShared body).dropShared]⟩
  | .declareArray name type length space => by
    rw [Stmt.dropShared]
    split
    · exact .skip
    · rename_i hspace
      exact .of_settled ⟨rfl, by rw [Stmt.dropShared, if_neg hspace]⟩
  | .skip => .skip
  | .declare .. | .set .. | .read .. | .write .. | .query .. | .barrier _ | .memFence _ | .update ..
  | .compareSwap .. => .of_settled ⟨rfl, rfl⟩

theorem flat_dropSharedAll : ∀ stmts : List Stmt, ∀ s ∈ dropSharedAll stmts, Flat s
  | [], s, hs => by
    rw [dropSharedAll] at hs
    cases hs
  | s :: ss, r, hr => by
    rw [dropSharedAll, List.mem_cons] at hr
    rcases hr with rfl | hr
    · exact flat_dropShared s
    · exact flat_dropSharedAll ss r hr

end

mutual

theorem sharedArrays_dropShared : ∀ s : Stmt, s.dropShared.sharedArrays = []
  | .seq stmts => by
    rw [Stmt.dropShared, sharedArrays_block, ← sharedArraysAll_eq]
    exact sharedArrays_dropSharedAll stmts
  | .comment text body => by
    rw [Stmt.dropShared, sharedArrays]
    exact sharedArrays_dropShared body
  | .branch c ifTrue ifFalse => by
    rw [Stmt.dropShared, sharedArrays, sharedArrays_dropShared ifTrue, sharedArrays_dropShared ifFalse, List.append_nil]
  | .loop iter bound body => by
    rw [Stmt.dropShared, sharedArrays]
    exact sharedArrays_dropShared body
  | .repeatWhile c body => by
    rw [Stmt.dropShared, sharedArrays]
    exact sharedArrays_dropShared body
  | .declareArray name type length space => by cases space <;> rfl
  | .skip | .declare .. | .set .. | .read .. | .write .. | .query .. | .barrier _ | .memFence _ | .update ..
  | .compareSwap .. => rfl

theorem sharedArrays_dropSharedAll : ∀ stmts : List Stmt, sharedArraysAll (dropSharedAll stmts) = []
  | s :: ss => by
    rw [dropSharedAll, sharedArraysAll, sharedArrays_dropShared s, sharedArrays_dropSharedAll ss, List.append_nil]
  | [] => rfl

end

/-- Shared arrays are dropped from code as they are from its pieces. -/
theorem dropShared_eq_block (s : Stmt) : s.dropShared = block (s.pieces.map Stmt.dropShared) := by
  cases s with
  | skip => rfl
  | seq ps => rw [Stmt.dropShared, dropSharedAll_eq_map, pieces]
  | _ => exact (flat_dropShared _).block_singleton.symm

/-! ### Hoisted code -/

theorem hoist_eq_ok : body.hoist = .ok hoisted ↔
    (∀ a ∈ body.sharedArrays, ∀ x ∈ a.length.vars, x ∉ body.dropShared.declared) ∧
      hoisted = block (body.sharedArrays.map SharedArray.code ++ [body.dropShared]) := by
  have early : body.sharedArrays.findSome? (lateLength? body.dropShared.declared) = none ↔
      ∀ a ∈ body.sharedArrays, ∀ x ∈ a.length.vars, x ∉ body.dropShared.declared := by
    simp [lateLength?]
  unfold hoist
  dsimp only
  rw [← early]
  cases body.sharedArrays.findSome? (lateLength? body.dropShared.declared) with
  | some late => simp
  | none => simp [eq_comm]

/-- Hoisted code consists of the declarations of the shared arrays, in their order, and the other code. -/
theorem pieces_hoist (h : body.hoist = .ok hoisted) :
    hoisted.pieces = body.sharedArrays.map SharedArray.code ++ body.dropShared.pieces := by
  obtain ⟨-, rfl⟩ := hoist_eq_ok.mp h
  have codes : (body.sharedArrays.map SharedArray.code).flatMap pieces = body.sharedArrays.map SharedArray.code :=
    flatMap_pieces fun s hs => by
      obtain ⟨a, -, rfl⟩ := List.mem_map.mp hs
      rfl
  rw [pieces_block]
  · rw [List.flatMap_append, codes, List.flatMap_singleton]
  · intro s hs
    rw [List.flatMap_append, codes, List.flatMap_singleton, List.mem_append] at hs
    rcases hs with hs | hs
    · obtain ⟨a, -, rfl⟩ := List.mem_map.mp hs
      rfl
    · exact ((flat_dropShared body).settled s hs).pieces

theorem sharedArrays_hoist (h : body.hoist = .ok hoisted) : hoisted.sharedArrays = body.sharedArrays := by
  obtain ⟨-, rfl⟩ := hoist_eq_ok.mp h
  rw [sharedArrays_block, List.flatMap_append, List.flatMap_singleton, sharedArrays_dropShared, List.append_nil,
    List.flatMap_map]
  exact List.flatMap_singleton' _

theorem dropShared_hoist (h : body.hoist = .ok hoisted) : hoisted.dropShared = body.dropShared := by
  have settled : (body.dropShared.pieces.map Stmt.dropShared) = body.dropShared.pieces := by
    rw [List.map_congr_left fun p hp => ((flat_dropShared body).settled p hp).dropShared, List.map_id']
  have dropped : (body.sharedArrays.map SharedArray.code).map Stmt.dropShared = body.sharedArrays.map fun _ =>
    .skip := by
    rw [List.map_map]
    rfl
  rw [dropShared_eq_block, pieces_hoist h, List.map_append, settled, dropped, ← (flat_dropShared body).block]
  refine block_congr ?_
  rw [List.flatMap_append, List.flatMap_map, (flat_dropShared body).block]
  simp [pieces]

/-- Hoisting hoisted code again changes nothing. -/
theorem hoist_hoist (h : body.hoist = .ok hoisted) : hoisted.hoist = .ok hoisted := by
  obtain ⟨early, rfl⟩ := hoist_eq_ok.mp h
  rw [hoist_eq_ok, sharedArrays_hoist h, dropShared_hoist h]
  exact ⟨early, rfl⟩

end SegKernel.Stmt
