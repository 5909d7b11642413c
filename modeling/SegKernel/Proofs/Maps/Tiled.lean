import SegKernel.Proofs.Maps.Tiling

/-! Programs of maps whose groups make tiles: the run of the whole program, and bodies of plain statements, of which
    every thread makes the small array that is the tile of its group. -/

namespace SegKernel
open Exp Lowering

/-! ### Bodies of plain statements -/

namespace BodyStm
variable {nestedCode : NestedCode} {setting : Setting} {reads : Ident → Prop}

/-- Statements without nested operations have the same code in a group as in a thread. -/
theorem codeAll_of_plain : ∀ {stms : List BodyStm} {scope : BodyScope}, (∀ stm ∈ stms, stm.Plain reads) →
    codeAll nestedCode scope stms = codeAll noNested scope stms
  | [], _, _ => rfl
  | stm :: stms, scope, h => by
    obtain ⟨hstm, hstms⟩ := List.forall_mem_cons.mp h
    have hcode : stm.code nestedCode scope = stm.code noNested scope := by
      cases stm with
      | nested pattern op => exact hstm.elim
      | _ => rfl
    rw [codeAll, codeAll, hcode]
    exact congrArg _ (funext fun r => congrArg (· >>= _) (codeAll_of_plain hstms))

theorem groupBody_of_plain {stms : List BodyStm} {scope : BodyScope} (h : ∀ stm ∈ stms, stm.Plain reads) :
    groupBody scope stms = threadBody scope stms := by
  rw [groupBody, threadBody, codeAll_of_plain h]

end BodyStm

/-- A body of plain statements makes the tile of a group: each of its threads makes the same small array. -/
theorem Segmented.makesTiles_of_plain {op : SegOp} {H : Surroundings} {setting : Setting} {d : Device} {P G : Nat}
    {hG : 0 < G} {arrays : List SharedArray} {e : PatElem} {tiles : List (Operand × Operand)} {ds : List Nat}
    {array : Ident} {type : ScalarType} {size : Nat} {tile : Nat → Nat → Value} (hop : op.Regular H.env [e])
    (henv : setting.env = H.env) (hflat : ∀ stm ∈ op.stms, op.space.flat ∉ stm.binds)
    (hsizes : ∀ (array : Ident) (type : ScalarType) (shape : List Operand) (es : List Int),
      H.env.arrays[array]? = some (type, shape) → Exp.intsAt? H.scope (shape.map Operand.toExp) = some es →
        Fits es.prod)
    (heval : ∀ q < ds.prod, ∃ ρ vs, BodyStm.evalAll H (op.start H ds q) op.stms = some ρ ∧
      ρ.arrays array = some (type, vs) ∧
      ∀ r < size, vs[r]? = some (tile q r)) :
    op.MakesTiles H setting d P hG arrays [(e, .tile tiles array)] ds e.name array type size tile
      fun m => ∀ a, a ≠ e.name → m.buffer? .global a = H.memory[a]? where
  start _ _ _ _ _ _ := rfl
  restart _ hfair _ _ _ _ := hfair
  body g hg launch n σ hσ hforesees hwidth s code scope s' hs hbody q hq := by
    obtain ⟨ρ, vs, hρ, harray, hvs⟩ := heval q hq
    let known := Team.arrived σ op.space ds q
    let left (t : Nat) (th : Thread) : Prop := (known t).Le (th.scope (contextOf H d P G g).captured) ∧
      th.arrays[array]? = some (Buffer.ofValues type vs)
    have named : ∀ {stm : BodyStm} {x : Ident}, stm ∈ op.stms → x ∈ stm.binds → x ∈ op.names := fun hstm hx =>
      List.mem_append_right _ (List.mem_flatMap.mpr ⟨_, hstm, hx⟩)
    -- A body binds neither the flat index nor an index of the space, so its threads keep them.
    have apart : ∀ stm ∈ op.stms, ∀ x ∈ stm.binds, ∀ e ∈ (op.space.point ds q), e.1 ≠ x := by
      rintro stm hstm x hx e he rfl
      obtain rfl | he := List.mem_cons.mp he
      · exact hflat stm hstm hx
      · exact hop.indices stm hstm _ hx (List.of_mem_zip he).1
    have hnew : ∀ t < G, ∀ stm ∈ op.stms, ∀ x ∈ stm.binds, known t x = none := fun t ht stm hstm x hx =>
      (Scope.sets_of_not_mem (apart stm hstm x hx)).trans ((hσ.around t ht).new hop.wellNamed x (named hstm hx))
    have hhost : ∀ t < G, (op.start H ds q).scalars.Le (known t) :=
      fun t ht => (hσ.around t ht).host.sets (op.space.point ds q)
    have hbefore : ∀ t < G, (known t).Before n := fun t ht => Team.before_arrived hop.wellNamed (hσ.around t ht).before
    rw [BodyStm.groupBody_of_plain hop.plain] at hbody
    have hshared := (Lowering.makes_threadBody (K := fun _ => False) (fun _ _ _ _ => id) _ _ _ hbody).1.shared
    simp only [BodyStm.threadBody, Lowering.bind_eq_ok, Lowering.pure_eq_ok] at hbody
    obtain ⟨⟨codes, scope'⟩, s₁, hcodes, he, rfl⟩ := hbody
    obtain ⟨rfl, rfl⟩ := Prod.mk.inj he
    have hstart : (op.start H ds q).Matches { launch, span := op.span } := fun _ => rfl
    have htyped : (op.start H ds q).Typed := fun _ _ _ h => by cases h
    obtain ⟨rfl, hmatches, htyped'⟩ := Solo.matches_of_codeAll hcodes hρ hop.plain hstart.on htyped
    have hdest : ρ.arrays e.name = none :=
      BodyStm.arrays_of_evalAll hρ fun stm hstm hlit => hop.literals stm hstm _ hlit List.mem_cons_self
    have makes : ∀ m : Store, (∀ a, a ≠ e.name → m.buffer? .global a = H.memory[a]?) → ∀ t < G, ∀ th,
      (known t).Le (th.scope
        (contextOf H d P G g).captured) → ((groupAt H d P hG g).member m t).Ensures (.block codes)
          (fun th' out => left t th' ∧ out = []) th [] := by
      intro m hm t ht th hth
      have sees : ((groupAt H d P hG g).member m t).Sees H (known t) (· ∉ [e].map (·.name)) := by
        refine ⟨(hσ.around t ht).host.trans (Team.le_arrived (G := groupAt H d P hG g) (fun x hx t ht => ?_) ht),
          fun a ha => hm a ?_, fun _ _ _ _ _ hown => hown.elim, hsizes⟩
        · exact (hσ.around t ht).new hop.wellNamed x (List.mem_append_left _ hx)
        · simpa using ha
      rw [Solo.ensures_block]
      exact Solo.ensures_codeAll sees henv (fun w hw => absurd hw List.not_mem_nil) hcodes hρ hop.plain (hnew t ht)
        hstart.on htyped
        ⟨hth, (hhost t ht).trans hth, fun _ _ _ h => by cases h⟩ fun th' hk => ⟨⟨hk.base, hk.arrays _ _ _ harray⟩, rfl⟩
    refine ⟨fun m => ∀ a, a ≠ e.name → m.buffer? .global a = H.memory[a]?, left, {
      body := fun m hm => ?_
      others := fun r hr hne => absurd (congrArg (·.1.name) (List.mem_singleton.mp hr)) hne
      knows := fun t _ th hth => hth.1
      shows := ⟨⟨⟨array, type, .thread, false⟩, [.int (Int64.ofNat vs.length)]⟩, Or.inl ?_, rfl, ?_,
        fun m _ t ht th hth => ?_⟩
      fair := fun _ hm => hm
      written := fun m ws hm hws a ha => ?_
      declared := fun t ht th th' hth harrays hle => ⟨(hth.1.old (hbefore t ht)).trans hle, harrays ▸ hth.2⟩
      dest := ?_ }⟩
    · refine ((Team.Leads.silent (makes m hm)).of_mimics (mimics_dropShared hshared)).imp (fun _ _ _ => id)
        (fun _ _ _ => id) ?_
      rintro ws rfl
      exact ⟨hm, List.forall_mem_nil _⟩
    · rw [hmatches.all array, harray]
      rfl
    · rintro ⟨h, -⟩
      cases h
    · refine ⟨_, hth.2, fun r hr a ha => Buffer.load_ofValues ⟨array, type, .thread, false⟩ ha (hvs r hr) ?_⟩
      exact (htyped' array type vs harray).1 _ (List.mem_of_getElem? (hvs r hr))
    · refine (Store.buffer?_puts_of_forall_ne fun w hw _ harray => ?_).trans (hm a ha)
      exact ha ((Write.goesTo_iff.mp (hws w hw)).2.symm.trans harray |>.symm)
    · rw [hmatches.all e.name, hdest]
      rfl

namespace Device

/-- A device that runs the program of a map by groups, of which one result is assembled from tiles, ends without a
    fault. Each element of the destination is written once, in the group that visits its tile, with the element of the
    tile, and no other element of the destination is written. The number of threads in a group has no part in this. -/
theorem run_tiled {m : Module} {config : Config} {prog : Program} {d : Device} {pattern : List PatElem} {op : SegOp}
    {H : Surroundings} {P G : Nat} {e : PatElem} {tiles : List (Operand × Operand)} {array : Ident} {es ts : List Nat}
    {type : ScalarType} {shape : List Operand} {tile : Nat → Nat → Value} {fair : Store → Prop} {memory : Memory}
    (hm : m.ops = [.seg pattern op]) (hkind : op.kind = .map) (hprog : m.lower config = .ok prog)
    (hallocate : prog.allocations.forM (allocate ((d.hostEnv prog)[·]?)) { global := d.global } =
      .ok () { global := memory })
    (hH : H = { d.surroundings m.env prog with memory }) (hhost : H.Complete)
    (hbound : ∀ x ∈ op.allNames, ¬H.env.Known x)
    (hstored : ∀ a ∈ prog.allocations, a.name ∈ memory) (hunchecked : d.checkRaces = false)
    (h : op.Assembles H pattern d P G e tiles array es ts type shape)
    (hmakes : ∀ k ∈ prog.kernels, op.MakesTiles H ⟨config, m.env⟩ d P h.sized.threads k.body.sharedArrays
      (pattern.zip op.results) (tileCounts es ts) e.name array type ts.prod tile fair)
    (hshares : ∀ k ∈ prog.kernels, Segmented.Shares H k)
    (hreaches : ∀ x < es.prod, (Store.ofGlobal memory).Reaches ⟨e.name, type, .global, false⟩ x) :
    ∃ k stats d', prog.kernels = [k] ∧ d.run prog = (.ok stats, d') ∧
      ((d.kernelWrites H.host k ⟨memory, {}⟩).filter (·.2.goesTo e.name)).Perm ((List.range es.prod).map fun x =>
        (tileOf es ts x % P, ⟨⟨.global, e.name, x⟩, (tile (tileOf es ts x) (spotOf es ts x)).toBits⟩)) ∧
      (∀ x < es.prod, (Store.ofGlobal d'.global).bits? ⟨.global, e.name, x⟩ =
        some (tile (tileOf es ts x) (spotOf es ts x)).toBits) ∧
      ∀ x, es.prod ≤ x →
        (Store.ofGlobal d'.global).bits? ⟨.global, e.name, x⟩ = (Store.ofGlobal memory).bits? ⟨.global, e.name, x⟩ := by
  subst hH
  obtain ⟨k, hkernels, hframes, hk⟩ := Module.groupKernel_of_lower hm hkind h.level rfl hbound
    (fun x hx => h.named.hostNames x (hx.imp id Or.inl)) hhost hstored hprog
  have hmem : k ∈ prog.kernels := by rw [hkernels]; exact List.mem_singleton_self k
  obtain ⟨s', hrun, hglobal, hperm⟩ :=
    Segmented.runKernel_tiles h hunchecked rfl hframes hk (hmakes k hmem) (hshares k hmem)
    hreaches {}
  have hprogram : d.runProgram prog { global := d.global } = .ok () s' := by
    unfold runProgram
    rw [hkernels]
    exact Run.bind_eq_ok.mpr ⟨(), _, hallocate, Run.bind_eq_ok.mpr ⟨(), s', hrun, rfl⟩⟩
  let ws := (d.kernelWrites ((d.hostEnv prog)[·]?) k ⟨memory, {}⟩).map (·.2)
  have placed : ∀ w, w ∈ ws ∧ w.goesTo e.name = true ↔
      ∃ x < es.prod, w = ⟨⟨.global, e.name, x⟩, (tile (tileOf es ts x) (spotOf es ts x)).toBits⟩ := by
    intro w
    constructor
    · rintro ⟨hw, hdest⟩
      obtain ⟨p, hp, rfl⟩ := List.mem_map.mp hw
      obtain ⟨x, hx, he⟩ := List.mem_map.mp (hperm.mem_iff.mp (List.mem_filter.mpr ⟨hp, hdest⟩))
      exact ⟨x, List.mem_range.mp hx, by rw [← he]⟩
    · rintro ⟨x, hx, rfl⟩
      have hmem := hperm.mem_iff.mpr (List.mem_map_of_mem (List.mem_range.mpr hx))
      exact ⟨List.mem_map.mpr ⟨_, (List.mem_filter.mp hmem).1, rfl⟩, Write.goesTo_iff.mpr ⟨rfl, rfl⟩⟩
  -- The other arrays play no part from here on.
  have bits : ∀ x, (Store.ofGlobal s'.global).bits? ⟨.global, e.name, x⟩ =
      ((Store.ofGlobal memory).puts ws).bits? ⟨.global, e.name, x⟩ := by
    intro x
    rw [hglobal]
    rfl
  refine ⟨k, s'.stats, { d with global := s'.global }, hkernels, ?_, hperm, fun x hx => ?_, fun x hx => ?_⟩
  · unfold run
    rw [hprogram]
  · obtain ⟨old, hold⟩ := Option.isSome_iff_exists.mp (hreaches x hx).isSome_bits?
    obtain ⟨hw, -⟩ := (placed _).mpr ⟨x, hx, rfl⟩
    refine (bits x).trans ((Store.bits?_puts_of_mem hw fun w' hw' hslot => ?_).trans ?_)
    · obtain ⟨y, -, rfl⟩ := (placed w').mp
        ⟨hw', Write.goesTo_iff.mpr ⟨congrArg Slot.space hslot, congrArg Slot.array hslot⟩⟩
      obtain rfl : y = x := congrArg Slot.position hslot
      rfl
    · rw [show (Store.ofGlobal memory).bits? _ = some old from hold, Option.map_some]
  · refine (bits x).trans (Store.bits?_puts_of_forall_ne fun w hw hslot => ?_)
    obtain ⟨y, hy, rfl⟩ := (placed w).mp
      ⟨hw, Write.goesTo_iff.mpr ⟨congrArg Slot.space hslot, congrArg Slot.array hslot⟩⟩
    exact absurd (congrArg Slot.position hslot) (Nat.ne_of_lt (Nat.lt_of_lt_of_le hy hx))

/-! ### Tiles of two rows and two columns -/

/-- Five columns in three rows, in tiles that hold the position and the indices of the tile. -/
def quiltOp : SegOp where
  kind := .map
  grid := ⟨.group, .int 4, .int 3, .virtualize⟩
  space := ⟨"g", [("r", .int 2), ("c", .int 3)]⟩
  stms := [.arrayLit "a" .i64 [.var "g", .var "r", .var "c", .int 7]]
  results := [.tile [(.int 3, .int 2), (.int 5, .int 2)] "a"]

def quiltDest : PatElem := ⟨"ys", .i64, [.int 3, .int 5]⟩

def quiltEnv : HostEnv where
  arrays := ({} : Table _).insert "ys" (.i64, [.int 3, .int 5])

def quiltMemory : Memory := ({} : Memory).insert "ys" (.zeroed .i64 15)

def quiltHost : Surroundings := ⟨quiltEnv, (({} : Table Value)[·]?), quiltMemory⟩

def quilt : Module := ⟨quiltEnv, [.seg [quiltDest] quiltOp]⟩

def quiltTile (q r : Nat) : Value := .i64 ([Int64.ofNat q, Int64.ofNat (q / 3), Int64.ofNat (q % 3), 7].getD r 0)

theorem quilt_arrays {x : Ident} {r : ScalarType × List Operand} (h : quiltEnv.arrays[x]? = some r) :
    x = "ys" ∧ r = (.i64, [.int 3, .int 5]) := by
  unfold quiltEnv at h
  dsimp only at h
  rw [Table.getElem?_insert] at h
  split at h
  · rename_i hx
    exact ⟨hx.symm, (Option.some.inj h).symm⟩
  · simp at h

theorem quilt_unknown (x : Ident) : ¬quiltEnv.Known x := by
  simp [HostEnv.Known, quiltEnv]

theorem quilt_regular : Segmented.Regular quiltOp quiltEnv [quiltDest] where
  nodup := by decide
  unknown := fun x _ => quilt_unknown x
  indices := by decide
  plain := by simp [quiltOp, BodyStm.Plain, Fits]
  literals := by simp [quiltOp, BodyStm.literal?, quiltDest]
  names := fun x hx => not_generated (by revert x; decide)
  hostNames := fun x hx => by
    obtain rfl := HostEnv.eq_of_hasName rfl hx
    exact not_generated (by decide)

theorem quilt_assembles (d : Device) (hlimit : 2 ≤ d.loopLimit) :
    Segmented.Assembles quiltOp quiltHost [quiltDest] d 4 3 quiltDest
    [(.int 3, .int 2), (.int 5, .int 2)] "a" [3, 5] [2, 2] .i64 [.int 3, .int 5] where
  named := quilt_regular.wellNamed
  level := rfl
  tiled := {
    space := .cons (IsInt.int 2) (.cons (IsInt.int 3) .nil)
    extents := .cons (IsInt.int 3) (.cons (IsInt.int 5) .nil)
    sizes := .cons (IsInt.int 2) (.cons (IsInt.int 2) .nil)
    rank := by decide
    extentsPositive := by decide
    sizesPositive := by decide
    fits := by unfold Fits; decide
    limit := hlimit }
  sized := ⟨by decide, by decide, IsInt.int 4, IsInt.int 3, IsInt.int 4, IsInt.int 3⟩
  covered := {
    points := by unfold Fits; decide
    groups := by unfold Fits; decide
    rounds := hlimit }
  precomputable := fun _ _ h => by simp [quiltOp] at h
  destinations := by decide
  result := List.mem_singleton_self _
  declared := rfl

/-- Each of the four groups visits its tiles, and the spots past the third row and the fifth column are left out. -/
theorem quilt_tiled :
    let d : Device := { wave := 1, global := quiltMemory }
    ∃ p stats d', quilt.lower {} = .ok p ∧ d.run p = (.ok stats, d') ∧
      ∀ x < 15, (Store.ofGlobal d'.global).bits? ⟨.global, "ys", x⟩ =
        some (quiltTile (x / 10 * 3 + x % 5 / 2) (x / 5 % 2 * 2 + x % 5 % 2)).toBits := by
  intro d
  obtain ⟨p, hlower, htuning, hconstants, hallocations, hshared⟩ : ∃ p ∈ (quilt.lower {}).toOption, p.tuning.isEmpty ∧
      (constants p).isEmpty ∧ p.allocations = [] ∧ ∀ k ∈ p.kernels, k.body.sharedArrays = [] := by decide +kernel
  have hp := ok_of_toOption hlower
  have hhost : quiltHost = { d.surroundings quilt.env p with memory := quiltMemory } := by
    unfold surroundings hostEnv
    rw [List.isEmpty_iff.mp htuning, List.isEmpty_iff.mp hconstants]
    rfl
  have complete : quiltHost.Complete := {
    scalars := fun x type h => by simp [quiltHost, quiltEnv] at h
    arrays := fun x hx => by
      obtain rfl := (quilt_arrays (Std.ExtTreeMap.getElem?_eq_some_getElem hx)).1
      decide +kernel
    apart := fun x _ => quilt_unknown x }
  have sizes : ∀ (array : Ident) (type : ScalarType) (shape : List Operand) (es : List Int),
      quiltHost.env.arrays[array]? = some (type, shape) →
        Exp.intsAt? quiltHost.scope (shape.map Operand.toExp) = some es →
        Fits es.prod := by
    intro array type shape es h hes
    cases (quilt_arrays h).2
    obtain rfl : es = [3, 5] := Option.some.inj
      (hes.symm.trans (intsAt?_eq_some.mpr (.cons (IsInt.int 3) (.cons (IsInt.int 5) .nil))))
    unfold Fits
    decide
  have tiles : ∀ q < 6, ∃ ρ vs, BodyStm.evalAll quiltHost (quiltOp.start quiltHost [2, 3] q) quiltOp.stms = some ρ ∧
      ρ.arrays "a" = some (.i64, vs) ∧ ∀ r < 4, vs[r]? = some (quiltTile q r) := by
    intro q hq
    match q, hq with
    | 0, _ | 1, _ | 2, _ | 3, _ | 4, _ | 5, _ => exact ⟨_, _, rfl, rfl, by decide⟩
  have makes : ∀ k ∈ p.kernels, quiltOp.MakesTiles quiltHost ⟨{}, quilt.env⟩ d 4
    (quilt_assembles d (by decide)).sized.threads
      k.body.sharedArrays ([quiltDest].zip quiltOp.results) (tileCounts [3, 5] [2, 2]) "ys" "a" .i64
        [2, 2].prod quiltTile _ :=
    fun k _ => Segmented.makesTiles_of_plain quilt_regular rfl (by decide) sizes tiles
  have reaches : ∀ x < [3, 5].prod, (Store.ofGlobal quiltMemory).Reaches ⟨"ys", .i64, .global, false⟩ x := fun x hx =>
    ⟨.i64, 15, by decide +kernel, rfl, hx⟩
  obtain ⟨k, stats, d', -, hrun, -, hwritten, -⟩ :=
    run_tiled (d := d) rfl rfl hp (by rw [hallocations]; rfl) hhost complete
    (fun x _ => quilt_unknown x) (by simp [hallocations]) rfl (quilt_assembles d (by decide)) makes
    (fun k hk => by simp [Segmented.Shares, hshared k hk]) reaches
  refine ⟨p, stats, d', hp, hrun, fun x hx => (hwritten x hx).trans ?_⟩
  have places : ∀ x < 15, tileOf [3, 5] [2, 2] x = x / 10 * 3 + x % 5 / 2 ∧
    spotOf [3, 5] [2, 2] x = x / 5 % 2 * 2 + x % 5 % 2 := by
    decide +kernel
  rw [(places x hx).1, (places x hx).2]

/-- Two groups that make tiles of two elements each. -/
def halves (flat : Ident) : Module where
  env := { arrays := ({} : Table _).insert "ys" (.i64, [.int 4]) }
  ops := [.seg [⟨"ys", .i64, [.int 4]⟩] {
    kind := .map
    grid := ⟨.group, .int 2, .int 2, .direct⟩
    space := ⟨flat, [("g", .int 2)]⟩
    stms := [.arrayLit "a" .i64 [.int 10, .int 20]]
    results := [.tile [(.int 4, .int 2)] "a"] }]

/-- An index that has the name of the flat index is reset before it is computed from itself, so both groups write the
    first tile, and nobody writes the second one. -/
theorem halves_go_wrong :
    let d : Device := { wave := 1, global := ({} : Memory).insert "ys" (.ofValues .i64 (List.replicate 4 (.i64 9))) }
    tileCounts [4] [2] = [2] ∧ ∃ p, (halves "g").lower {} = .ok p ∧ (d.run p).1.isOk = true ∧
      (d.run p).2.global["ys"]?.map Buffer.values = some ([10, 20, 9, 9].map Value.i64) := by
  intro d
  refine ⟨rfl, ?_⟩
  obtain ⟨p, hp, h⟩ : ∃ p ∈ ((halves "g").lower {}).toOption, (d.run p).1.isOk = true ∧
      (d.run p).2.global["ys"]?.map Buffer.values = some ([10, 20, 9, 9].map Value.i64) := by decide +kernel
  exact ⟨p, ok_of_toOption hp, h⟩

end Device
end SegKernel
