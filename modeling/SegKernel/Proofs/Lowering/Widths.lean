import SegKernel.Collective.Scan
import SegKernel.Proofs.Lowering.Growing

/-! The sizes of groups. A kernel has groups of just the size that its operation states, or, where it fills an array,
    of the size that a tuning parameter gives. No size is refused, also where a group holds more blocks than a scan
    carries over. -/

namespace SegKernel

namespace Stmt

mutual

/-- There is a comment of this text. -/
def hasComment (text : String) : Stmt → Bool
  | seq stmts => hasCommentAny text stmts
  | comment t body => t == text || body.hasComment text
  | branch _ ifTrue ifFalse => ifTrue.hasComment text || ifFalse.hasComment text
  | loop _ _ body | repeatWhile _ body => body.hasComment text
  | _ => false

/-- Some statement has a comment of this text. -/
def hasCommentAny (text : String) : List Stmt → Bool
  | [] => false
  | s :: ss => s.hasComment text || hasCommentAny text ss

end

end Stmt

namespace Lowering
open Program
variable {α : Type} {setting : Setting} {B : Exp → Prop} {f : Lowering α} {Q : α → Prop}

/-- A kernel is not new, or its groups have a size in `B` or that of a tuning parameter. -/
def WideFrom (B : Exp → Prop) (p q : Program) : Prop :=
  ∀ k ∈ q.kernels, k ∈ p.kernels ∨ B k.groupSize ∨ ∃ t ∈ q.tuning, k.groupSize = .var t.name

/-- A computation that gives the groups of new kernels sizes in `B` or those of tuning parameters, with results in
    `Q`. -/
def Widths (setting : Setting) (B : Exp → Prop) {α : Type} (f : Lowering α) (Q : α → Prop) : Prop :=
  ∀ σ a σ', f setting σ = .ok (a, σ') →
    WideFrom B σ.program σ'.program ∧ (∀ t ∈ σ.program.tuning, t ∈ σ'.program.tuning) ∧ Q a

namespace Widths

/-- A computation that leaves the kernels and the tuning parameters. -/
theorem of_same (h : ∀ σ a σ', f setting σ = .ok (a, σ') →
    (σ'.program.kernels = σ.program.kernels ∧ σ'.program.tuning = σ.program.tuning) ∧ Q a) : Widths setting B f Q := by
  intro σ a σ' hrun
  obtain ⟨⟨hkernels, htuning⟩, hQ⟩ := h σ a σ' hrun
  exact ⟨fun k hk => Or.inl (hkernels ▸ hk), fun t ht => htuning ▸ ht, hQ⟩

theorem composable : Composable (Widths setting B) where
  pure h := of_same fun σ a σ' hrun => by
    obtain ⟨rfl, rfl⟩ := pure_eq_ok.mp hrun
    exact ⟨⟨rfl, rfl⟩, h⟩
  -- A kernel is new to the first part, or to the second, or it was there.
  bind_of hf hg σ b σ' hrun := by
    obtain ⟨a, σ₁, ha, hb⟩ := bind_eq_ok.mp hrun
    obtain ⟨hwide, htuning, hQ⟩ := hf σ a σ₁ ha
    obtain ⟨hwide', htuning', hR⟩ := hg a hQ σ₁ b σ' hb
    refine ⟨fun k hk => ?_, fun t ht => htuning' t (htuning t ht), hR⟩
    rcases hwide' k hk with hk | hsize
    · exact (hwide k hk).imp id (Or.imp id fun ⟨t, ht, hsize⟩ => ⟨t, htuning' t ht, hsize⟩)
    · exact Or.inr hsize
  results hf hR σ a σ' hrun := ⟨(hf σ a σ' hrun).1, (hf σ a σ' hrun).2.1, hR hrun⟩
  report _ σ a σ' hrun := (throw_ne_ok.mp hrun).elim
  lift f := of_same fun σ a σ' hrun => by
    obtain ⟨-, rfl⟩ := lift_eq_ok.mp hrun
    exact ⟨⟨rfl, rfl⟩, trivial⟩
  liftExcept _ := of_same fun σ a σ' hrun => by
    simp only [liftM, monadLift, MonadLift.monadLift] at hrun
    split at hrun
    · cases hrun
      exact ⟨⟨rfl, rfl⟩, trivial⟩
    · cases hrun
  read := of_same fun σ a σ' hrun => ⟨(read_eq_ok.mp hrun).2 ▸ ⟨rfl, rfl⟩, trivial⟩
  get := of_same fun σ a σ' hrun => ⟨(get_eq_ok.mp hrun).2 ▸ ⟨rfl, rfl⟩, trivial⟩
  markScatter := of_same fun σ a σ' hrun => by
    obtain rfl := modify_eq_ok.mp hrun
    exact ⟨⟨rfl, rfl⟩, trivial⟩

theorem emitKernel (stem : String) {numGroups groupSize : Exp} (body : Stmt) (hsize : B groupSize) :
    Widths setting B (emitKernel stem numGroups groupSize body) fun _ => True := by
  intro σ u σ' hrun
  obtain ⟨k, -, -, rfl, -, -, rfl⟩ := emitKernel_eq_ok hrun
  refine ⟨fun l hl => ?_, fun t => id, trivial⟩
  rcases List.mem_append.mp hl with hl | hl
  · exact Or.inl hl
  · exact Or.inr (Or.inl (List.mem_singleton.mp hl ▸ hsize))

/-- The groups that fill an array have the size of a tuning parameter, which is added before the kernel. -/
theorem fill (kernel : String) {n : Exp} (element : Exp → Fresh Stmt) :
    Widths setting B (fill kernel n element) fun _ => True := by
  intro σ u σ' hrun
  simp only [Lowering.fill, bind_eq_ok, read_eq_ok, lift_eq_ok, Lowering.addTuning, modify_eq_ok] at hrun
  obtain ⟨_, _, ⟨rfl, rfl⟩, r, _, ⟨hr, rfl⟩, _, _, rfl, body, _, ⟨rfl, rfl⟩, hrun⟩ := hrun
  obtain ⟨rfl⟩ := hr
  obtain ⟨k, -, -, hsize, -, -, rfl⟩ := emitKernel_eq_ok hrun
  refine ⟨fun l hl => ?_, fun t => Grows.mem_addTuning_of_mem, trivial⟩
  rcases List.mem_append.mp hl with hl | hl
  · exact Or.inl hl
  · obtain ⟨t, ht, hname⟩ := List.mem_map.mp (Program.mem_addTuning.mpr (Or.inr rfl))
    exact Or.inr (Or.inr ⟨t, ht, (congrArg Kernel.groupSize (List.mem_singleton.mp hl)).trans
      (hsize.trans (congrArg Exp.var hname.symm))⟩)

theorem steps : Composable.Steps (Widths setting B) (fun _ => True) B where
  toComposable := composable
  sizing := ⟨fun _ => trivial, fun _ _ => trivial, fun _ _ => trivial, fun _ _ => trivial⟩
  globalArray? _ := composable.results (composable.bind composable.read fun _ => composable.bind composable.get fun _ =>
    composable.done) fun _ _ _ _ _ => trivial
  allocate stem type length _ := of_same fun σ v σ' hrun => by
    simp only [Lowering.allocate, bind_eq_ok, lift_eq_ok, modify_eq_ok, pure_eq_ok] at hrun
    obtain ⟨name, σ₁, ⟨rfl, rfl⟩, _, σ₂, rfl, -, rfl⟩ := hrun
    exact ⟨⟨rfl, rfl⟩, trivial⟩
  fill kernel _ element _ := fill kernel element
  emitKernel stem _ _ body _ _ hsize := emitKernel stem body hsize

end Widths

/-! ### Operations and their kernels -/

/-- An operation, lowered after others, adds a kernel to the program. -/
def Contributes (setting : Setting) (op : HostOp) (k : Kernel) : Prop :=
  ∃ σ σ', hostOp op setting σ = .ok ((), σ') ∧ k ∉ σ.program.kernels ∧ k ∈ σ'.program.kernels

/-- Each kernel that operations leave in a program is an old one, or one of them adds it. -/
theorem contributes_of_forM : ∀ {ops : List HostOp} {σ σ' : Session} {u : Unit},
    (ops.forM hostOp) setting σ = .ok (u, σ') → ∀ k ∈ σ'.program.kernels,
      k ∈ σ.program.kernels ∨ ∃ op ∈ ops, Contributes setting op k
  | [], σ, σ', u, h, k, hk => by
    obtain ⟨-, rfl⟩ := pure_eq_ok.mp h
    exact Or.inl hk
  | op :: ops, σ, σ', u, h, k, hk => by
    obtain ⟨_, σ₁, hop, hops⟩ := bind_eq_ok.mp (show (do hostOp op; ops.forM hostOp) setting σ = _ from h)
    rcases contributes_of_forM hops k hk with hk | ⟨op', hmem, hadds⟩
    · by_cases hold : k ∈ σ.program.kernels
      · exact Or.inl hold
      · exact Or.inr ⟨op, List.mem_cons_self, σ, σ₁, hop, hold, hk⟩
    · exact Or.inr ⟨op', List.mem_cons_of_mem op hmem, hadds⟩

/-- A kernel has groups of the size that its operation states, or of the size that a tuning parameter gives. -/
theorem Contributes.groupSize {op : HostOp} {k : Kernel} (h : Contributes setting op k) :
    (∃ pattern inner, op = .seg pattern inner ∧ k.groupSize = inner.grid.groupWidth) ∨ ∃ x, k.groupSize = .var x := by
  obtain ⟨σ, σ', hop, hnew, hk⟩ := h
  have sizes : Widths setting (fun size => ∃ pattern inner, op = .seg pattern inner ∧ size = inner.grid.groupWidth)
      (hostOp op) fun _ => True :=
    Widths.steps.hostOp (fun _ _ => trivial) (fun pattern inner e => ⟨pattern, inner, e, rfl⟩)
      (Or.inl fun _ _ _ _ _ hrun => (throw_ne_ok.mp hrun).elim)
  rcases (sizes σ () σ' hop).1 k hk with hold | hstated | ⟨t, -, hsize⟩
  · exact absurd hold hnew
  · exact Or.inl hstated
  · exact Or.inr ⟨t.name, hsize⟩

end Lowering

namespace Module
variable {m : Module} {config : Config} {p : Program}

/-- Each kernel of a program comes from an operation of the module. -/
theorem contributes_of_lower (h : m.lower config = .ok p) {k : Kernel} (hk : k ∈ p.kernels) :
    ∃ op ∈ m.ops, Lowering.Contributes ⟨config, m.env⟩ op k := by
  obtain ⟨σ, hrun, rfl⟩ := lower_eq_ok.mp h
  exact (Lowering.contributes_of_forM hrun k hk).resolve_left nofun

/-- A constant size of groups is stated by the operation that adds the kernel. No size is refused: if none of the
    operations whose kernels contain a group scan states a constant size of more threads than the square of the size
    of a block, then no kernel that contains a group scan has one, and the totals of all blocks of a group belong to
    its first block, where one level of carries suffices. -/
theorem scans_as_stated (h : m.lower config = .ok p) (hbound : ∀ pattern op k s, HostOp.seg pattern op ∈ m.ops →
      Lowering.Contributes ⟨config, m.env⟩ (.seg pattern op) k → k.body.hasComment "group scan" = true →
      op.grid.groupSize = .const (.i64 s) → s ≤ scanBlockSize * scanBlockSize)
    {k : Kernel} (hk : k ∈ p.kernels) (hscan : k.body.hasComment "group scan" = true) {size : Int64}
    (hsize : k.groupSize = .int size) :
    size ≤ scanBlockSize * scanBlockSize ∧
      ∀ t : Nat, (t : Int) < size.toInt → (t : Int) / scanBlockSize.toInt < scanBlockSize.toInt := by
  obtain ⟨op, hop, hadds⟩ := contributes_of_lower h hk
  obtain ⟨pattern, inner, rfl, hwidth⟩ | ⟨x, hvar⟩ := hadds.groupSize
  · have hstated : inner.grid.groupSize = .const (.i64 size) := by
      rw [hsize, Grid.groupWidth] at hwidth
      cases hgroup : inner.grid.groupSize with
      | var x =>
        rw [hgroup] at hwidth
        cases hwidth
      | const v =>
        rw [hgroup] at hwidth
        cases hwidth
        rfl
    have hle := hbound pattern inner k size hop hadds hscan hstated
    refine ⟨hle, fun t ht => ?_⟩
    have hsquare : size.toInt ≤ 1024 := Int64.le_iff_toInt_le.mp hle
    rw [show scanBlockSize.toInt = 32 from rfl]
    omega
  · -- A size that a tuning parameter gives is no constant.
    rw [hsize] at hvar
    cases hvar

/-- Rows of `n` ones in groups of `n` threads, and the scan of each row. -/
def rowScan (n : Int64) : Module where
  env := { arrays := ({} : Table _).insert "ys" (.i32, [.int 1, .int n]) }
  ops := [.seg [⟨"ys", .i32, [.int 1, .int n]⟩] {
    kind := .map
    grid := ⟨.group, .int 1, .int n, .direct⟩
    space := ⟨"g", [("r", .int 1)]⟩
    stms := [.nested [⟨"p", .i32, [.int n]⟩] {
      kind := .scan [{ lambda := .ofOperator .add .i32, neutral := [.const (.i32 0)] }]
      grid := ⟨.thread, .int 1, .int n, .direct⟩
      space := ⟨"l", [("c", .int n)]⟩
      stms := []
      results := [.returns (.const (.i32 1))] }]
    results := [.returns (.var "p")] }]

/-- Groups of 1024 threads scan 32 blocks. -/
theorem scans_as_stated_rowScan : ∃ p k, (rowScan 1024).lower {} = .ok p ∧ k ∈ p.kernels ∧ k.groupSize = .int 1024 ∧
    ∀ t : Nat, (t : Int) < 1024 → (t : Int) / scanBlockSize.toInt < scanBlockSize.toInt := by
  obtain ⟨p, hp, k, hk, hscan, hsize⟩ : ∃ p ∈ ((rowScan 1024).lower {}).toOption, ∃ k ∈ p.kernels,
      k.body.hasComment "group scan" = true ∧ k.groupSize = .int 1024 := by decide +kernel
  refine ⟨p, k, ok_of_toOption hp, hk, hsize, ?_⟩
  refine (scans_as_stated (ok_of_toOption hp) (fun pattern op _ s hop _ _ hs => ?_) hk hscan hsize).2
  obtain ⟨rfl, rfl⟩ : _ ∧ _ := by simpa [rowScan] using hop
  cases hs
  decide

/-- A scan of 64 blocks is lowered as well: the kernel has groups of 2048 threads, and the totals of its last 32
    blocks do not belong to the first block. -/
theorem rowScan_past_blocks :
    ∃ p k, (rowScan 2048).lower {} = .ok p ∧ k ∈ p.kernels ∧ k.body.hasComment "group scan" = true ∧
    k.groupSize = .int 2048 ∧ scanBlockSize * scanBlockSize < 2048 ∧
      ¬(1024 : Int) / scanBlockSize.toInt < scanBlockSize.toInt := by
  obtain ⟨p, hp, k, hk, hscan, hsize⟩ : ∃ p ∈ ((rowScan 2048).lower {}).toOption, ∃ k ∈ p.kernels,
      k.body.hasComment "group scan" = true ∧ k.groupSize = .int 2048 := by decide +kernel
  exact ⟨p, k, ok_of_toOption hp, hk, hscan, hsize, by decide, by decide⟩

end Module
end SegKernel
