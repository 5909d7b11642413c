import SegKernel.Proofs.Fills.Launches

/-! Operations that fill an array: they set all elements to a value, to the terms of a progression, or to
    those of another array. Wherever such an operation stands in a module, its kernel does so, and does
    nothing else. -/

namespace SegKernel
open Lowering Exp

namespace Lowering
variable {setting : Setting} {σ σ' : Session} {u : Unit} {dest source : Ident} {a b : ArrayInfo}

/-- A defined array is filled with a value. -/
theorem fill_of_replicate {value : Operand} (ha : SegKernel.globalArray? setting.env σ.program dest = some a)
    (h : replicate dest value setting σ = .ok (u, σ')) :
    fill "replicate" a.length (fun i => pure (.write a.view i value.toExp)) setting σ = .ok (u, σ') := by
  obtain ⟨a', σ₁, ha', hrun⟩ := bind_eq_ok.mp h
  obtain ⟨ha', rfl⟩ := globalArray_eq_ok.mp ha'
  obtain rfl := Option.some.inj (ha.symm.trans ha')
  exact hrun

/-- A defined array is filled with a progression. -/
theorem fill_of_iota {start step : Operand} (ha : SegKernel.globalArray? setting.env σ.program dest = some a)
    (h : iota dest start step setting σ = .ok (u, σ')) :
    fill "iota" a.length (fun i => pure (.write a.view i
      ((start.toExp.toType .i64 + i * step.toExp.toType .i64).toType a.view.type))) setting σ = .ok (u, σ') := by
  obtain ⟨a', σ₁, ha', hrun⟩ := bind_eq_ok.mp h
  obtain ⟨ha', rfl⟩ := globalArray_eq_ok.mp ha'
  obtain rfl := Option.some.inj (ha.symm.trans ha')
  exact hrun

/-- A defined array is filled with the elements of another one. -/
theorem fill_of_copy (ha : SegKernel.globalArray? setting.env σ.program dest = some a)
    (hb : SegKernel.globalArray? setting.env σ.program source = some b) (h : copy dest source setting σ = .ok (u, σ')) :
    fill "copy" a.length (fun i => do
      let v ← fresh "elem"
      return .block [.declare v b.view.type false, .read v b.view i, .write a.view i (.var v)]) setting σ =
        .ok (u, σ') := by
  simp only [copy, bind_eq_ok, globalArray_eq_ok, check_eq_ok] at h
  obtain ⟨a', _, ⟨ha', rfl⟩, b', _, ⟨hb', rfl⟩, _, _, ⟨-, rfl⟩, h⟩ := h
  obtain rfl := Option.some.inj (ha.symm.trans ha')
  obtain rfl := Option.some.inj (hb.symm.trans hb')
  revert h
  generalize a.length.int? = x, b.length.int? = y
  rcases x with _ | x
  · exact id
  rcases y with _ | y
  · exact id
  intro h
  obtain ⟨_, _, hlengths, hfill⟩ := bind_eq_ok.mp h
  obtain ⟨-, rfl⟩ := check_eq_ok.mp hlengths
  exact hfill

end Lowering

namespace HostOp
variable {H : Surroundings} {dest : Ident} {type : ScalarType} {shape : List Operand} {n : Nat} {op : HostOp}
  {kernel : String} {P : Nat → Value → Prop}

/-- An operation that fills an array of `n` elements by a kernel of a name, and what element `i` is to be. -/
inductive Fills (H : Surroundings) (dest : Ident) (type : ScalarType) (n : Nat) :
    HostOp → String → (Nat → Value → Prop) → Prop
  | replicate {value : Operand} {w : Value} (hvalue : value.toExp.eval H.scope = .ok w) (htype : w.type = type) :
    Fills H dest type n (.replicate dest value) "replicate" fun _ v => v = w
  | iota {start step : Operand} {u w : Value} {a b : Int} (hstart : start.toExp.eval H.scope = .ok u)
    (hu : u.integer? = some a)
      (hstep : step.toExp.eval H.scope = .ok w) (hw : w.integer? = some b) (htype : type.isIntegral = true) :
    Fills H dest type n (.iota dest start step) "iota" fun i v => v.Wraps type (a + i * b)
  | copy {source : Ident} {shape : List Operand} {b : Buffer} (hsource : H.env.arrays[source]? = some (type, shape))
      (hbuffer : H.memory[source]? = some b) (htype : b.type = type) (hsize : b.bits.size = n) :
    Fills H dest type n (.copy dest source) "copy" fun i v => b.values[i]? = some v

/-- The code that makes an element does what the operation is to do. -/
theorem Fills.lowered (h : Fills H dest type n op kernel P) (hnames : ∀ x, H.env.Known x → ¬Generated x)
    (hshape : H.env.arrays[dest]? = some (type, shape)) (hlength : Fill.HasLength H dest type n) :
    ∃ element v, Fill.Element H dest n v element ∧ (∀ i < n, P i (v i)) ∧
      ∀ {setting : Setting} {σ σ' : Session} {u : Unit}, setting.env = H.env → hostOp op setting σ = .ok (u, σ') →
        fill kernel (.product (shape.map Operand.toExp)) element setting σ = .ok (u, σ') := by
  have hdest : dest ∈ H.env.arrays := Std.ExtTreeMap.mem_iff_isSome_getElem?.mpr (by rw [hshape, Option.isSome_some])
  have found : ∀ {x : Ident} {shape : List Operand} {setting : Setting} (q : Program), setting.env = H.env →
      H.env.arrays[x]? = some (type, shape) →
      SegKernel.globalArray? setting.env q x = some ⟨⟨x, type, .global, false⟩, shape.map Operand.toExp⟩ := by
    intro x shape setting q henv hx
    rw [henv, SegKernel.globalArray?, hx]
  -- Each kind of fill has its own element: a value, a number of a sequence, or one of another array.
  cases h with
  | replicate hvalue htype =>
    refine ⟨_, _, Fill.element_value hdest hlength hvalue htype, fun _ _ => rfl, fun henv hrun => ?_⟩
    exact (fill_of_replicate (found _ henv hshape) hrun :)
  | iota hstart hu hstep hw htype =>
    refine ⟨_, _, Fill.element_progression hdest hlength hstart hu hstep hw htype, fun i _ =>
      Value.wraps_ofInt_word htype _,
      fun henv hrun => ?_⟩
    exact (fill_of_iota (found _ henv hshape) hrun :)
  | @copy source shape' b hsource hbuffer htype hsize =>
    have horigin : source ∈ H.env.arrays :=
      Std.ExtTreeMap.mem_iff_isSome_getElem?.mpr (by rw [hsource, Option.isSome_some])
    refine ⟨_, fun i => Value.ofBits type (b.bits.getD i 0), Fill.element_copy hdest horigin hlength hnames ?_, ?_,
      fun henv hrun => ?_⟩
    · intro i hi
      have hi : i < b.bits.size := hsize ▸ hi
      refine ⟨⟨type, n, ?_, rfl, hsize ▸ hi⟩, b.bits[i], ?_, by simp [hi]⟩
      · exact Option.map_eq_some_iff.mpr ⟨b, hbuffer, by rw [htype, hsize]⟩
      · exact Option.bind_eq_some_iff.mpr ⟨b, hbuffer, by simp [hi]⟩
    · intro i hi
      simp [Buffer.values, htype, hsize, hi]
    · exact (fill_of_copy (found _ henv hshape) (found _ henv hsource) hrun :)

end HostOp

namespace Device

/-- The group size for which a device runs a kernel: the value that is bound to a tuning parameter, or its default. -/
def Tuned (d : Device) (sizes : SizeClasses) (param : Ident) (G : Nat) : Prop :=
  (d.scalars[param]?).getD (.i64 (sizes.sizeOf param)) = .i64 (Int64.ofNat G)

/-- The kernel that the lowering of a fill adds to a program writes each element once, in the group of its thread, and
    nothing else. -/
theorem run_loweredFill {env : HostEnv} {config : Config} {p : Program} {σ σ' : Session} {u : Unit} {op : HostOp}
    {d : Device} {dest : Ident} {type : ScalarType} {shape : List Operand} {ds : List Nat} {kernel : String}
    {P : Nat → Value → Prop} {G : Nat} (hop : hostOp op ⟨config, env⟩ σ = .ok (u, σ')) (hbegins : σ'.program.Begins p)
    (hfaithful : p.Faithful ⟨config, env⟩) (hhost : (d.surroundings env p).Complete)
    (hnames : ∀ x, env.Known x → ¬Generated x) (hparam : Launch.sizeParam kernel ∉ env.constants)
    (hfills : op.Fills (d.surroundings env p) dest type ds.prod kernel P)
    (hshape : env.arrays[dest]? = some (type, shape))
    (hextents : List.Forall₂ (fun o (n : Nat) => IsInt (d.surroundings env p).scope o.toExp n) shape ds)
    (hlength : Fill.HasLength (d.surroundings env p) dest type ds.prod)
    (hgroup : d.Tuned config.sizes (Launch.sizeParam kernel) G) (hG : 0 < G)
    (hfits : Fits ((ds.prod + G : Nat) : Int)) :
    ∃ k, σ'.program.kernels = σ.program.kernels ++ [k] ∧ ∀ stats, ∃ v s', (∀ i < ds.prod, P i (v i)) ∧
      d.runKernel ((d.hostEnv p)[·]?) k ⟨d.global, stats⟩ = .ok () s' ∧
      (d.kernelWrites ((d.hostEnv p)[·]?) k ⟨d.global, stats⟩).Perm
        ((List.range ds.prod).map fun i => (i / G, Fill.write dest v i)) ∧
      s'.global = d.global.insert dest (.ofValues type ((List.range ds.prod).map v)) := by
  obtain ⟨element, v, hel, hv, hlowered⟩ := hfills.lowered hnames hshape hlength
  have fitsLength : Fits (ds.prod : Nat) := by
    unfold Fits at *
    omega
  have fitsG : Fits (G : Int) := by
    unfold Fits at *
    omega
  have size : IsInt (d.surroundings env p).scope (.product (shape.map Operand.toExp)) ds.prod :=
    isInt_product (List.forall₂_map_left_iff.mpr hextents) fitsLength
  have known : ∀ x ∈ (Exp.product (shape.map Operand.toExp)).occurrences, env.Known x := by
    let U : Common := { scalar := env.Known, array := fun _ => False, scalar_of_array := fun _ h => h.elim }
    refine over_product (U := U) (List.forall_mem_map.mpr ?_)
    refine ((List.forall₂_and_left shape ds).mp (hextents.imp fun o n h => ⟨?_, h⟩)).1
    obtain ⟨a, ha, -⟩ := h
    exact fun x hx => Surroundings.known_of_operand ha hx
  obtain ⟨k, hkernels, hk, ⟨t, ht, hname⟩, hcaptured⟩ := Fill.runs_of_fill hhost rfl hnames hel known (hlowered rfl hop)
  refine ⟨k, hkernels, fun stats => ?_⟩
  have hmem : k ∈ p.kernels := hbegins.kernels.subset (hkernels ▸ List.mem_append_right _ (List.mem_singleton_self k))
  -- The launch evaluates the length on the host, from the scalars that the kernel captures.
  have hostSize : IsInt ((d.hostEnv p)[·]?) (.product (shape.map Operand.toExp)) ds.prod := by
    obtain ⟨a, ha, hvalue⟩ := size
    refine ⟨a, ?_, hvalue⟩
    rw [← ha]
    refine Exp.eval_congr fun x hx => ?_
    obtain ⟨c, hc, q, hfound⟩ := hcaptured x hx
    exact hostEnv_eq_scope hfaithful hmem hc hfound (known x hx)
  have hostGroup : IsInt ((d.hostEnv p)[·]?) (.var (Launch.sizeParam kernel)) G := by
    refine Exp.IsInt.var_nat ?_ fitsG
    rw [← hname, hostEnv_tuning hfaithful (hbegins.tuning t ht) (hname ▸ hparam), hname]
    exact congrArg some hgroup
  obtain ⟨s', hrun, hwrites, hglobal⟩ :=
    Fill.runKernel_eq_ok (d := d) hk hel hnames size hostSize hostGroup hG hfits hlength stats
  exact ⟨v, s', hv, hrun, hwrites, hglobal⟩

/-- The kernel of an operation that fills an array writes each element once, in the group of its thread, and nothing
    else. Each element is then what the operation is to make of it. -/
theorem run_fill {m : Module} {config : Config} {p : Program} {before after : List HostOp} {op : HostOp} {d : Device}
    {dest : Ident} {type : ScalarType} {shape : List Operand} {ds : List Nat} {kernel : String} {P : Nat → Value → Prop}
    {G : Nat} (hm : m.ops = before ++ op :: after) (hp : m.lower config = .ok p)
    (hhost : (d.surroundings m.env p).Complete) (hnames : ∀ x, m.env.Known x → ¬Generated x)
    (hparam : Launch.sizeParam kernel ∉ m.env.constants)
    (hfills : op.Fills (d.surroundings m.env p) dest type ds.prod kernel P)
    (hshape : m.env.arrays[dest]? = some (type, shape))
    (hextents : List.Forall₂ (fun o (n : Nat) => IsInt (d.surroundings m.env p).scope o.toExp n) shape ds)
    (hlength : Fill.HasLength (d.surroundings m.env p) dest type ds.prod)
    (hgroup : d.Tuned config.sizes (Launch.sizeParam kernel) G) (hG : 0 < G) (hfits : Fits ((ds.prod + G : Nat) : Int))
    (stats : LaunchStats) :
    ∃ p₀ k rest, ({ m with ops := before } : Module).lower config = .ok p₀ ∧ p.kernels = p₀.kernels ++ k :: rest ∧
      ∃ v s', (∀ i < ds.prod, P i (v i)) ∧ d.runKernel ((d.hostEnv p)[·]?) k ⟨d.global, stats⟩ = .ok () s' ∧
        (d.kernelWrites ((d.hostEnv p)[·]?) k ⟨d.global, stats⟩).Perm
          ((List.range ds.prod).map fun i => (i / G, Fill.write dest v i)) ∧
        s'.global = d.global.insert dest (.ofValues type ((List.range ds.prod).map v)) := by
  obtain ⟨σ, σ', hbefore, hop, hbegins, hfaithful⟩ := Module.lower_split hm hp
  obtain ⟨k, hkernels, hk⟩ := run_loweredFill hop hbegins hfaithful hhost hnames hparam hfills hshape hextents hlength
    hgroup hG hfits
  obtain ⟨rest, hrest⟩ := hbegins.kernels
  refine ⟨σ.program, k, rest, hbefore, ?_, hk stats⟩
  rw [← hrest, hkernels, List.append_assoc]
  rfl

/-- An array of unsigned integers is filled with sevens, and then counted down past zero. -/
def countdown : Module where
  env := {
    arrays := ({} : Table _).insert "xs" (.u32, [.var "n"])
    scalars := ({} : Table _).insert "n" .i64 }
  ops := [.replicate "xs" (.const (.u32 7)), .iota "xs" (.const (.i32 2)) (.const (.i64 (-1)))]

theorem countdown_filled :
    let d : Device := {
      wave := 1
      scalars := (({} : Table Value).insert "n" (.i64 5)).insert "builtin#iota.group_size" (.i64 2)
      global := ({} : Memory).insert "xs" (.zeroed .u32 5) }
    ∃ p k s', countdown.lower {} = .ok p ∧ k ∈ p.kernels ∧
      d.runKernel ((d.hostEnv p)[·]?) k ⟨d.global, {}⟩ = .ok () s' ∧
      s'.global["xs"]?.map Buffer.values = some [.u32 2, .u32 1, .u32 0, .u32 4294967295, .u32 4294967294] := by
  intro d
  obtain ⟨p, hp, hn⟩ : ∃ p ∈ (countdown.lower {}).toOption, (d.hostEnv p)["n"]? = some (.i64 5) := by decide +kernel
  have scalar : ∀ {x : Ident} {type : ScalarType}, countdown.env.scalars[x]? = some type → x = "n" ∧ type = .i64 := by
    intro x type h
    unfold countdown at h
    dsimp only at h
    rw [Table.getElem?_insert] at h
    split at h
    · rename_i hx
      exact ⟨hx.symm, (Option.some.inj h).symm⟩
    · simp at h
  have known : ∀ x, countdown.env.Known x → x = "n" := by
    rintro x (hx | hx)
    · exact (scalar (Std.ExtTreeMap.getElem?_eq_some_getElem hx)).1
    · simp [countdown] at hx
  have array : ∀ x ∈ countdown.env.arrays, x = "xs" := by
    intro x hx
    exact (show "xs" = x by simpa [countdown] using hx).symm
  have length : IsInt (d.surroundings countdown.env p).scope (.var "n") 5 := by
    refine IsInt.var_nat (n := 5) ?_ (by unfold Fits; decide)
    rw [Surroundings.scope_eq]
    show (none : Option Value).or ((some ScalarType.i64).bind fun _ => (d.hostEnv p)["n"]?) =
      some (.i64 (Int64.ofNat 5))
    rw [hn]
    rfl
  have complete : (d.surroundings countdown.env p).Complete :=
    ⟨fun x type h => (scalar h).1 ▸ (scalar h).2 ▸ ⟨_, hn, rfl⟩, fun x hx => array x hx ▸
      (show "xs" ∈ d.global by decide +kernel),
      fun x hx h => absurd ((array x hx).symm.trans (known x h)) (by decide)⟩
  have ops : countdown.ops = [.replicate "xs" (.const (.u32 7))] ++ .iota "xs" (.const (.i32 2)) (.const (.i64 (-1)))
    :: [] := rfl
  -- The second operation is the one that is run.
  have fills : HostOp.Fills (d.surroundings countdown.env p) "xs" .u32 ([5] : List Nat).prod
    (.iota "xs" (.const (.i32 2)) (.const (.i64 (-1)))) "iota" _ := .iota rfl rfl rfl rfl rfl
  obtain ⟨p₀, k, rest, -, hkernels, v, s', hv, hrun, -, hglobal⟩ :=
    run_fill (d := d) (G := 2) ops (ok_of_toOption hp) complete
    (fun x hx => known x hx ▸ not_generated (by decide)) (by simp [countdown]) fills rfl (.cons length .nil) rfl rfl
      (by decide)
    (by unfold Fits; decide) {}
  have value : ∀ i < 5, v i = .ofInt .u32 (2 + i * (-1)) := fun i hi => (hv i hi).unique (Value.wraps_ofInt rfl _)
  refine ⟨p, k, s', ok_of_toOption hp, hkernels ▸ List.mem_append_right _ List.mem_cons_self, hrun, ?_⟩
  have values : (List.range 5).map v = (List.range 5).map fun i => .ofInt .u32 (2 + i * (-1)) :=
    List.map_congr_left fun i hi => value i (List.mem_range.mp hi)
  rw [hglobal, Table.getElem?_insert_self, show [5].prod = 5 from rfl, values]
  decide

/-- An array is filled with a scalar that has the name of the first variable of the kernel. -/
def hidden : Module where
  env := {
    arrays := ({} : Table _).insert "ys" (.i64, [.int 4])
    scalars := ({} : Table _).insert "global_tid_0" .i64 }
  ops := [.replicate "ys" (.var "global_tid_0")]

/-- The threads store their indices instead of the value. -/
theorem hidden_goes_wrong :
    let d : Device := {
      wave := 1
      scalars := (({} : Table Value).insert "global_tid_0" (.i64 100)).insert "builtin#replicate.group_size" (.i64 4)
      global := ({} : Memory).insert "ys" (.zeroed .i64 4) }
    ∃ p, hidden.lower {} = .ok p ∧ (d.hostEnv p)["global_tid_0"]? = some (.i64 100) ∧ (d.run p).1.isOk = true ∧
      (d.run p).2.global["ys"]?.map Buffer.values = some [.i64 0, .i64 1, .i64 2, .i64 3] := by
  intro d
  obtain ⟨p, hp, h⟩ : ∃ p ∈ (hidden.lower {}).toOption, (d.hostEnv p)["global_tid_0"]? = some (.i64 100) ∧
      (d.run p).1.isOk = true ∧
      (d.run p).2.global["ys"]?.map Buffer.values = some [.i64 0, .i64 1, .i64 2, .i64 3] := by decide +kernel
  exact ⟨p, ok_of_toOption hp, h⟩

end Device
end SegKernel
