import SegKernel.Proofs.Convergence.Declared
import SegKernel.Proofs.Execution.Mimicry
import SegKernel.Proofs.Maps.Meaning

/-! What a kernel takes from the host. A host that has all it declares can serve every kernel, and the
    kernel then sees the variables of the host that its code uses as they are. -/

namespace SegKernel
open Lowering

/-! ### The host -/

/-- The host has a value for each scalar that it declares, and memory for each array. None of its arrays has
    the name of one of its variables. -/
structure Surroundings.Complete (H : Surroundings) : Prop where
  scalars : ∀ (x : Ident) (type : ScalarType), H.env.scalars[x]? = some type → ∃ v, H.host x = some v ∧ v.type = type
  arrays : ∀ x ∈ H.env.arrays, x ∈ H.memory
  apart : ∀ x ∈ H.env.arrays, ¬H.env.Known x

/-- The host can give a kernel what a capture names. -/
def Surroundings.Gives (H : Surroundings) : Capture → Prop
  | .scalar x type => ∃ v, H.host x = some v ∧ v.type = type ∧ H.scope x = some v
  | .memory x => x ∈ H.memory
  | .constant x v => H.scope x = some v

namespace Surroundings
variable {H : Surroundings} {c : Capture} {cs : List Capture} {before : Table Value} {x : Ident}

theorem scope_eq (H : Surroundings) (x : Ident) :
    H.scope x = (H.env.constants[x]?).or ((H.env.scalars[x]?).bind fun _ => H.host x) := by
  unfold scope HostEnv.bindings
  rw [Std.ExtTreeMap.getElem?_union, Std.ExtTreeMap.getElem?_filterMap']

/-- A kernel captures a scalar that the host has, in the way in which the host has it. -/
theorem Complete.gives_scalar (h : H.Complete) {program : Program}
    (hx : H.env.Known x ∨ ∀ t ∈ program.tuning, t.name ≠ x) (hc : scalarCapture? H.env program x = some c) :
    H.Gives c ∧ c ≠ .memory x := by
  unfold scalarCapture? at hc
  split at hc
  · rename_i v hv
    cases hc
    exact ⟨show H.scope x = some v by rw [scope_eq, hv, Option.some_or], by simp⟩
  · rename_i type hconstant hscalar
    cases hc
    obtain ⟨v, hv, htype⟩ := h.scalars x type hscalar
    have : H.scope x = some v := by rw [scope_eq, hconstant, hscalar, Option.none_or, Option.bind_some, hv]
    exact ⟨⟨v, hv, htype, this⟩, by simp⟩
  · rename_i hconstant hscalar
    -- A name that the host does not declare could only be that of a tuning parameter.
    split at hc
    · rename_i hany
      obtain ⟨t, ht, hname⟩ := List.any_eq_true.mp hany
      rcases hx with (hx | hx) | hx
      · simp [Std.ExtTreeMap.mem_iff_isSome_getElem?, hscalar] at hx
      · simp [Std.ExtTreeMap.mem_iff_isSome_getElem?, hconstant] at hx
      · exact absurd (eq_of_beq hname) (hx t ht)
    · cases hc

theorem mem_of_isSome_globalArray? {program : Program} (hx : (globalArray? H.env program x).isSome) :
    x ∈ H.env.arrays ∨ ∃ a ∈ program.allocations, a.name = x := by
  unfold globalArray? at hx
  split at hx
  · rename_i type shape harray
    exact Or.inl (Std.ExtTreeMap.mem_iff_isSome_getElem?.mpr (by rw [harray, Option.isSome_some]))
  · rw [Option.isSome_map, List.find?_isSome] at hx
    obtain ⟨a, ha, hname⟩ := hx
    exact Or.inr ⟨a, ha, eq_of_beq hname⟩

/-- What the host can give is captured as the host has it. -/
theorem Gives.capture (hc : H.Gives c) (hbefore : Scope.Le (before[·]?) H.scope) :
    ∃ after, Device.capture H.host H.memory before c = .ok after ∧ Scope.Le (after[·]?) H.scope ∧
      Scope.Le (before[·]?) (after[·]?) ∧ (c = .memory c.name ∨ (after[c.name]?).isSome) := by
  have insert : ∀ {x : Ident} {v : Value}, H.scope x = some v → Scope.Le ((before.insert x v)[·]?) H.scope ∧
      Scope.Le (before[·]?) ((before.insert x v)[·]?) := by
    intro x v hv
    refine ⟨fun y w hw => ?_, fun y w hw => ?_⟩
    · have hw : (before.insert x v)[y]? = some w := hw
      rw [Table.getElem?_insert] at hw
      split at hw
      · rename_i hxy
        rw [← hxy, hv, hw]
      · exact hbefore y w hw
    · show (before.insert x v)[y]? = some w
      rw [Table.getElem?_insert]
      split
      · rename_i hxy
        rw [← hv, hxy]
        exact hbefore y w hw
      · exact hw
  -- A scalar and a constant enter the table; an array has only to be there.
  cases c with
  | scalar x type =>
    obtain ⟨v, hv, htype, hscope⟩ := hc
    obtain ⟨hle, hadd⟩ := insert hscope
    refine ⟨before.insert x v, ?_, hle, hadd, Or.inr ?_⟩
    · unfold Device.capture
      dsimp only
      rw [hv]
      exact if_pos htype
    · rw [Capture.name, Table.getElem?_insert_self, Option.isSome_some]
  | memory x =>
    refine ⟨before, ?_, hbefore, .refl _, Or.inl rfl⟩
    unfold Device.capture
    exact if_pos (Std.ExtTreeMap.contains_iff_mem.mpr hc)
  | constant x v =>
    obtain ⟨hle, hadd⟩ := insert hc
    refine ⟨before.insert x v, rfl, hle, hadd, Or.inr ?_⟩
    rw [Capture.name, Table.getElem?_insert_self, Option.isSome_some]

theorem foldlM_capture (hcs : ∀ c ∈ cs, H.Gives c) (hbefore : Scope.Le (before[·]?) H.scope) :
    ∃ after, cs.foldlM (Device.capture H.host H.memory) before = .ok after ∧ Scope.Le (after[·]?) H.scope ∧
      Scope.Le (before[·]?) (after[·]?) ∧ ∀ c ∈ cs, c = .memory c.name ∨ (after[c.name]?).isSome := by
  induction cs generalizing before with
  | nil => exact ⟨before, rfl, hbefore, .refl _, by simp⟩
  | cons c cs ih =>
    obtain ⟨mid, hmid, hle, hadd, hfirst⟩ := Gives.capture (hcs c List.mem_cons_self) hbefore
    obtain ⟨after, hafter, hle', hadd', hrest⟩ := ih (fun c' hc' => hcs c' (List.mem_cons_of_mem c hc')) hle
    refine ⟨after, ?_, hle', hadd.trans hadd', fun c' hc' => ?_⟩
    · rw [List.foldlM_cons, hmid]
      exact hafter
    · rcases List.mem_cons.mp hc' with rfl | hc'
      · refine hfirst.imp_right fun hsome => ?_
        obtain ⟨v, hv⟩ := Option.isSome_iff_exists.mp hsome
        exact Option.isSome_iff_exists.mpr ⟨v, hadd' _ _ hv⟩
      · exact hrest c' hc'

end Surroundings

/-! ### Captures of a kernel -/

namespace Lowering
variable {H : Surroundings} {setting : Setting} {σ σ' : Session} {kernel : String} {body : Stmt} {cs : List Capture}

/-- The results of a computation that leaves the session, for the elements of a list. -/
theorem mapM_eq_ok {α β : Type} {f : α → Lowering β} {R : α → β → Prop} {as : List α}
    (hf : ∀ a b σ', f a setting σ = .ok (b, σ') → R a b ∧ σ' = σ) : ∀ {bs : List β},
    as.mapM f setting σ = .ok (bs, σ') → (∀ a ∈ as, ∃ b ∈ bs, R a b) ∧ (∀ b ∈ bs, ∃ a ∈ as, R a b) ∧ σ' = σ := by
  induction as with
  | nil =>
    intro bs h
    rw [List.mapM_nil] at h
    obtain ⟨rfl, rfl⟩ := pure_eq_ok.mp h
    exact ⟨by simp, by simp, rfl⟩
  | cons a as ih =>
    intro bs h
    rw [List.mapM_cons] at h
    obtain ⟨b, σ₁, hb, hmore⟩ := bind_eq_ok.mp h
    obtain ⟨bs', σ₂, hbs, hend⟩ := bind_eq_ok.mp hmore
    obtain ⟨rfl, rfl⟩ := pure_eq_ok.mp hend
    obtain ⟨hR, rfl⟩ := hf a b σ₁ hb
    obtain ⟨hleft, hright, hσ⟩ := ih hbs
    refine ⟨fun a' ha' => ?_, fun b' hb' => ?_, hσ⟩
    · rcases List.mem_cons.mp ha' with rfl | ha'
      · exact ⟨b, List.mem_cons_self, hR⟩
      · obtain ⟨b', hb', hR'⟩ := hleft a' ha'
        exact ⟨b', List.mem_cons_of_mem b hb', hR'⟩
    · rcases List.mem_cons.mp hb' with rfl | hb'
      · exact ⟨a, List.mem_cons_self, hR⟩
      · obtain ⟨a', ha', hR'⟩ := hright b' hb'
        exact ⟨a', List.mem_cons_of_mem a ha', hR'⟩

/-- A kernel takes each scalar from the host that its body uses and does not declare. -/
theorem exists_mem_captures (h : captures kernel body setting σ = .ok (cs, σ')) {x : Ident}
    (hx : x ∈ body.freeScalars) :
    ∃ c ∈ cs, scalarCapture? setting.env σ.program x = some c := by
  simp only [captures, bind_eq_ok, read_eq_ok, get_eq_ok, pure_eq_ok] at h
  obtain ⟨s, _, ⟨rfl, rfl⟩, _, σ₀, ⟨rfl, rfl⟩, scalars, σ₁, hfound, memory, σ₂, -, rfl, -⟩ := h
  obtain ⟨hscalar, -, -⟩ := mapM_eq_ok (R := fun name c => scalarCapture? s.env σ₀.program name = some c)
    (fun name c σ' hc => require_eq_ok.mp hc) hfound
  obtain ⟨c, hc, hname⟩ := hscalar x hx
  exact ⟨c, List.mem_append_left _ hc, hname⟩

/-- A kernel whose body declares no variable of the host takes what it uses from a host that is complete, and
    that has memory for the arrays of the program that it uses, and sees it as the host does. -/
theorem captures_served (hH : H.Complete) (henv : setting.env = H.env)
    (hscalars : ∀ x ∈ body.freeScalars, H.env.Known x ∨ ∀ t ∈ σ.program.tuning, t.name ≠ x)
    (hmemory : ∀ x ∈ body.freeMemory, x ∈ H.env.arrays ∨ ∀ a ∈ σ.program.allocations, a.name = x → x ∈ H.memory ∧
      ¬H.env.Known x)
    (hdeclared : ∀ x ∈ body.declared, ¬H.env.Known x) (h : captures kernel body setting σ = .ok (cs, σ')) :
    σ' = σ ∧ ∃ captured, cs.foldlM (Device.capture H.host H.memory) {} = .ok captured ∧
      body.Agrees captured (H.env.bindings H.host) := by
  simp only [captures, bind_eq_ok, read_eq_ok, get_eq_ok, pure_eq_ok] at h
  obtain ⟨setting, _, ⟨rfl, rfl⟩, _, σ, ⟨rfl, rfl⟩, scalars, σ₁, hfound, memory, σ₂, hfoundMemory, rfl, rfl⟩ := h
  rw [henv] at hfound hfoundMemory
  have arrays : ∀ name ∈ body.freeMemory, (SegKernel.globalArray? H.env σ.program name).isSome →
      name ∈ H.memory ∧ ¬H.env.Known name := by
    intro name hfree hname
    rcases hmemory name hfree with hmem | hallocations
    · exact ⟨hH.arrays name hmem, hH.apart name hmem⟩
    · rcases Surroundings.mem_of_isSome_globalArray? hname with hmem | ⟨a, ha, rfl⟩
      · exact ⟨hH.arrays name hmem, hH.apart name hmem⟩
      · exact hallocations a ha rfl
  obtain ⟨hscalar, hscalar', hσ₁⟩ := mapM_eq_ok (R := fun name c => scalarCapture? H.env σ.program name = some c)
    (fun name c σ' hc => require_eq_ok.mp hc) hfound
  rw [hσ₁] at hfoundMemory
  obtain ⟨harray, harray', hσ'⟩ := mapM_eq_ok
    (R := fun name c => (SegKernel.globalArray? H.env σ.program name).isSome ∧ c = .memory name)
    (fun name c σ' hc => by
      simp only [bind_eq_ok, check_eq_ok, pure_eq_ok] at hc
      obtain ⟨_, _, ⟨hsome, rfl⟩, rfl, rfl⟩ := hc
      exact ⟨⟨hsome, rfl⟩, rfl⟩) hfoundMemory
  -- Everything captured was found in what the body uses, where the host can give it.
  have gives : ∀ c ∈ scalars ++ memory, H.Gives c := by
    intro c hc
    rcases List.mem_append.mp hc with hc | hc
    · obtain ⟨name, hfree, hname⟩ := hscalar' c hc
      exact (hH.gives_scalar (hscalars name hfree) hname).1
    · obtain ⟨name, hfree, hsome, rfl⟩ := harray' c hc
      exact (arrays name hfree hsome).1
  have start : Scope.Le (({} : Table Value)[·]?) H.scope := fun x v hv => by simp at hv
  obtain ⟨captured, hcaptured, hle, -, hhas⟩ := Surroundings.foldlM_capture gives start
  refine ⟨hσ', captured, hcaptured, fun x hx => ?_⟩
  show captured[x]? = H.scope x
  have none_of_unknown : ¬H.env.Known x → captured[x]? = H.scope x := by
    intro hx
    rw [Surroundings.scope_eq_none hx]
    exact Option.eq_none_iff_forall_ne_some.mpr fun v hv => hx (Surroundings.known_of_scope (hle x v hv))
  by_cases hd : x ∈ body.declared
  · exact none_of_unknown (hdeclared x hd)
  rcases Stmt.free_of_mentions hx hd with hfree | hfree
  · obtain ⟨c, hc, hname⟩ := hscalar x hfree
    obtain rfl := scalarCapture?_name hname
    have hsome := (hhas c (List.mem_append_left _ hc)).resolve_left (hH.gives_scalar (hscalars _ hfree) hname).2
    obtain ⟨v, hv⟩ := Option.isSome_iff_exists.mp hsome
    rw [hv]
    exact (hle _ _ hv).symm
  · obtain ⟨c, -, hsome, -⟩ := harray x hfree
    exact none_of_unknown (arrays x hfree hsome).2

end Lowering
end SegKernel
