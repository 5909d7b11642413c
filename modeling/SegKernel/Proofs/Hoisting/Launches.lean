import SegKernel.Proofs.Hoisting.Runs

/-! Launches of hoisted code. The declarations in front give a group its whole stock of shared arrays, and
    from there on the code runs as the original does. -/

namespace SegKernel
namespace Run
open GroupState
variable {ctx : GroupContext} {t : Nat} {name : Ident} {type : ScalarType} {length : Exp} {n : Nat}

/-! ### The declarations in front -/

/-- The host knows how long an array is. -/
def Length (ctx : GroupContext) (a : SharedArray) (n : Nat) : Prop :=
  ∃ i, a.length.evalInt (ctx.captured[·]?) = .ok i ∧ arrayLength a.name i = .ok n

theorem declareShared_of_contains {s : GroupState} (h : s.shared.contains name) : s.declareShared name type n = s := by
  unfold GroupState.declareShared
  rw [if_pos h]

theorem contains_declareShared (s : GroupState) : (s.declareShared name type n).shared.contains name := by
  unfold GroupState.declareShared
  split
  · assumption
  · exact Std.ExtTreeMap.contains_insert_self

theorem Length.unique {a : SharedArray} {m : Nat} (h : Length ctx a m) (h' : Length ctx a n) : m = n := by
  obtain ⟨i, hi, hm⟩ := h
  obtain ⟨j, hj, hn⟩ := h'
  cases hi.symm.trans hj
  exact Except.ok.inj (hm.symm.trans hn)

theorem getElem?_declareShared_self {s : GroupState} (h : s.shared[name]? = none) :
    (s.declareShared name type n).shared[name]? = some (.zeroed type n) := by
  have new : ¬s.shared.contains name := by
    rw [Std.ExtTreeMap.contains_eq_isSome_getElem?, h]
    exact Bool.false_ne_true
  unfold GroupState.declareShared
  rw [if_neg new]
  exact Table.getElem?_insert_self _ _ _

theorem getElem?_declareShared_of_ne {s : GroupState} {x : Ident} (h : x ≠ name) :
    (s.declareShared name type n).shared[x]? = s.shared[x]? := by
  unfold GroupState.declareShared
  split
  · rfl
  · exact Table.getElem?_insert_of_ne _ _ (Ne.symm h)

/-- The first of the threads makes the array, and the others find it. -/
theorem declare_forM {a : SharedArray} (h : Length ctx a n) : ∀ {active : List Nat} {s : GroupState}, active ≠ [] →
    (∀ t, s.thread t = {}) →
      (active.forM fun t => declareArray ctx t a.name a.type a.length .shared) s =
        .ok () (s.declareShared a.name a.type n)
  | [], _, hne, _ => absurd rfl hne
  | t :: ts, s, _, hs => by
    obtain ⟨i, hi, hn⟩ := h
    have first : declareArray ctx t a.name a.type a.length .shared s = .ok () (s.declareShared a.name a.type n) := by
      have early : a.length.evalInt (s.scope ctx t) = .ok i := by
        rw [evalInt_early fun x _ => by rw [hs t]; exact Std.ExtTreeMap.getElem?_empty, hi]
      simp only [declareArray, bind_eq_ok, int_eq_ok, evaluate_eq_ok]
      exact ⟨i, s, ⟨early, rfl⟩, n, s, ⟨hn, rfl⟩, rfl⟩
    rw [forM_cons]
    refine bind_eq_ok.mpr ⟨(), _, first, ?_⟩
    by_cases hts : ts = []
    · rw [hts]
      rfl
    · have rest := declare_forM ⟨i, hi, hn⟩ hts
        fun t' => (thread_of_threads (declareShared_threads s a.name a.type n) t').trans (hs t')
      rwa [declareShared_of_contains (contains_declareShared s)] at rest

/-- The shared arrays of a state, once all of the given ones are declared. -/
structure Stocks (ctx : GroupContext) (arrays : List SharedArray) (before after : Memory) : Prop where
  new : ∀ a ∈ arrays, ∀ n, Length ctx a n → before[a.name]? = none → after[a.name]? = some (.zeroed a.type n)
  old : ∀ x, x ∉ arrays.map (·.name) → after[x]? = before[x]?

/-- The declarations make the arrays; where no two have one name, each is as it was declared. -/
theorem execAll_codes : ∀ {arrays : List SharedArray} {active : List Nat} {s : GroupState}, active ≠ [] →
    (∀ a ∈ arrays, ∃ n, Length ctx a n) → (∀ t, s.thread t = {}) →
      ∃ shared, execAll ctx (arrays.map SharedArray.code) active s = .ok () { s with shared } ∧
        ((arrays.map (·.name)).Nodup → Stocks ctx arrays s.shared shared)
  | [], _, s, _, _, _ => ⟨s.shared, rfl, fun _ => ⟨by simp, fun _ _ => rfl⟩⟩
  | a :: arrays, active, s, hne, hlengths, hs => by
    obtain ⟨n, hn⟩ := hlengths a List.mem_cons_self
    have first : exec ctx a.code active s = .ok () (s.declareShared a.name a.type n) := by
      rw [SharedArray.code, exec, if_neg (by simpa using hne)]
      exact declare_forM hn hne hs
    have threads := fun t => (thread_of_threads (declareShared_threads s a.name a.type n) t).trans (hs t)
    obtain ⟨shared, hrest, hstocks⟩ := execAll_codes hne (fun b hb => hlengths b (List.mem_cons_of_mem a hb)) threads
    refine ⟨shared, ?_, fun hnodup => ?_⟩
    · rw [List.map_cons, execAll_cons]
      refine bind_eq_ok.mpr ⟨(), _, first, ?_⟩
      rw [hrest]
      unfold GroupState.declareShared
      split <;> rfl
    obtain ⟨hnew, hnodup⟩ := List.nodup_cons.mp hnodup
    have hstocks := hstocks hnodup
    refine ⟨fun b hb m hm hnone => ?_, fun x hx => ?_⟩
    · rcases List.mem_cons.mp hb with rfl | hb
      · rw [hstocks.old b.name hnew, getElem?_declareShared_self hnone, hm.unique hn]
      · have hne : b.name ≠ a.name := fun e => hnew (List.mem_map.mpr ⟨b, hb, e⟩)
        exact hstocks.new b hb m hm ((getElem?_declareShared_of_ne hne).trans hnone)
    · rw [List.map_cons, List.mem_cons, not_or] at hx
      rw [hstocks.old x hx.2, getElem?_declareShared_of_ne hx.1]

/-- They write nothing. -/
theorem traceAll_codes (arrays : List SharedArray) (active : List Nat) :
    ∀ s : GroupState, traceAll writesAt ctx (arrays.map SharedArray.code) active s = [] := by
  induction arrays with
  | nil => exact fun s => traceAll_nil
  | cons a arrays ih =>
    intro s
    have first : trace writesAt ctx a.code active s = [] := by
      by_cases h : active = []
      · rw [h, trace_nil]
      · rw [SharedArray.code, trace_of_isStep h rfl]
        rfl
    rw [List.map_cons, traceAll_cons, first, List.nil_append, after]
    split
    · exact ih _
    · rfl

end Run

namespace Device
open Run GroupState
variable {body hoisted : Stmt}

/-- A group that runs hoisted code ends as it does with the original. -/
theorem runGroup_hoisted (hhoist : body.hoist = .ok hoisted) (hdistinct : (body.sharedArrays.map (·.name)).Nodup)
    (hasked : ∀ x ∈ body.asked, x ∈ body.dropShared.declared ∨ ∀ a ∈ body.sharedArrays, x ∉ a.length.vars)
    {ctx : GroupContext} {schedule : Schedule} {s s' : Progress}
    (hlengths : ∀ a ∈ body.sharedArrays, ∃ n, Length ctx a n) (hrun : runGroup ctx schedule body s = .ok () s') :
    runGroup ctx schedule hoisted s = .ok () s' := by
  obtain ⟨early, rfl⟩ := Stmt.hoist_eq_ok.mp hhoist
  rw [runGroup_eq] at hrun ⊢
  by_cases hne : schedule.order ctx.groupSize.toInt.toNat = []
  · rw [hne, exec_nil] at hrun ⊢
    exact hrun
  obtain ⟨stock, hcodes, hstock⟩ := execAll_codes (s := groupStart ctx s) hne hlengths (thread_of_replicate rfl)
  have hstock := hstock hdistinct
  -- The threads come to no other variables, and the lengths mention none of these.
  let D (x : Ident) : Prop := x ∈ body.dropShared.declared ∨ x ∈ body.asked
  have early' : ∀ a ∈ body.sharedArrays, ∀ x ∈ a.length.vars, ¬D x := by
    rintro a ha x hx (hdeclared | hasked')
    · exact early a ha x hx hdeclared
    · rcases hasked x hasked' with hdeclared | hnone
      · exact early a ha x hx hdeclared
      · exact hnone a ha hx
  have start : Stocked D stock (groupStart ctx s) { groupStart ctx s with shared := stock } :=
    { within := fun t x v hx => by
        rw [thread_of_replicate rfl] at hx
        cases hx
      threads := rfl
      global := rfl
      races := rfl
      stats := rfl
      shared := fun x => rfl }
  have provided : Provided ctx D stock body :=
    { arrays := fun a ha => by
        obtain ⟨n, hn⟩ := hlengths a ha
        obtain ⟨i, hi, hlength⟩ := id hn
        exact ⟨early' a ha, i, n, hi, hlength, hstock.new a ha n hn rfl⟩
      declared := fun _ => .inl
      asked := fun _ => .inr }
  cases hexec : exec ctx body (schedule.order ctx.groupSize.toInt.toNat) (groupStart ctx s) with
  | error fault t =>
    rw [hexec] at hrun
    cases hrun
  | ok u t =>
    obtain ⟨t', hexec', hend⟩ := exec_carried body provided _ _ _ _ _ start hexec
    rw [exec_block, execAll_append, execAll_singleton, bind_eq_ok.mpr ⟨(), _, hcodes, hexec'⟩]
    rw [hexec] at hrun
    rw [← hrun]
    unfold kept
    dsimp only
    rw [hend.global, hend.stats]

/-- Hoisting moves the declarations of shared arrays to the front, in their order, and takes them out of the rest;
    done again it changes nothing. If no two shared arrays have one name, and each variable into which code reads its
    place is declared otherwise than as a shared array, or mentioned by no length of one, then a group that ends
    without a fault ends with the same memory and the same statistics after hoisting, where the host knows the
    lengths. -/
theorem hoisting_changes_nothing_else (hhoist : body.hoist = .ok hoisted)
    (hdistinct : (body.sharedArrays.map (·.name)).Nodup)
    (hasked : ∀ x ∈ body.asked, x ∈ body.dropShared.declared ∨ ∀ a ∈ body.sharedArrays, x ∉ a.length.vars) :
    (hoisted.pieces = body.sharedArrays.map SharedArray.code ++ body.dropShared.pieces ∧
        body.dropShared.sharedArrays = []) ∧
      hoisted.hoist = .ok hoisted ∧
      ∀ (ctx : GroupContext) (schedule : Schedule) (s s' : Progress),
        (∀ a ∈ body.sharedArrays, ∃ n, a.length.evalInt (ctx.captured[·]?) = .ok n ∧ 0 ≤ n.toInt) →
          runGroup ctx schedule body s = .ok () s' → runGroup ctx schedule hoisted s = .ok () s' := by
  refine ⟨⟨Stmt.pieces_hoist hhoist, Stmt.sharedArrays_dropShared body⟩, Stmt.hoist_hoist hhoist,
    fun ctx schedule s s' hlengths hrun => runGroup_hoisted hhoist hdistinct hasked (fun a ha => ?_) hrun⟩
  obtain ⟨n, hn, hnonneg⟩ := hlengths a ha
  refine ⟨n.toInt.toNat, n, hn, ?_⟩
  unfold arrayLength
  rw [if_neg (by omega)]

/-- In each of two rounds the threads fill a row; the first one keeps a note; then each thread takes over the
    element of its opposite. -/
def relay : Stmt := .seq [
  .seq [.declare "t" .i64 false, .query .localId "t"],
  .loop "k" (.int 2) (.comment "fill" (.seq [
    .declareArray "row" .i64 (.var "n") .shared,
    .write ⟨"row", .i64, .shared, false⟩ (.var "t") (.binary .add (.var "t") (.var "k")),
    .barrier .shared])),
  .branch (.compare .lt (.var "t") (.int 1))
    (.seq [.declareArray "note" .i64 (.int 1) .shared, .write ⟨"note", .i64, .shared, false⟩ (.var "t") (.int 7)])
    .skip,
  .declare "x" .i64 false,
  .read "x" ⟨"row", .i64, .shared, false⟩ (.binary .sub (.binary .sub (.var "n") (.int 1)) (.var "t")),
  .write ⟨"out", .i64, .global, false⟩ (.var "t") (.var "x")]

def relayHoisted : Stmt := .seq [
  .declareArray "row" .i64 (.var "n") .shared,
  .declareArray "note" .i64 (.int 1) .shared,
  .declare "t" .i64 false,
  .query .localId "t",
  .loop "k" (.int 2) (.comment "fill" (.seq [
    .write ⟨"row", .i64, .shared, false⟩ (.var "t") (.binary .add (.var "t") (.var "k")),
    .barrier .shared])),
  .branch (.compare .lt (.var "t") (.int 1)) (.write ⟨"note", .i64, .shared, false⟩ (.var "t") (.int 7)) .skip,
  .declare "x" .i64 false,
  .read "x" ⟨"row", .i64, .shared, false⟩ (.binary .sub (.binary .sub (.var "n") (.int 1)) (.var "t")),
  .write ⟨"out", .i64, .global, false⟩ (.var "t") (.var "x")]

def relayContext : GroupContext where
  captured := ({} : Table Value).insert "n" (.i64 4)
  group := 0
  groupSize := 4
  numGroups := 1
  wave := 2
  loopLimit := 8
  checkRaces := true

def relayStart : Progress := ⟨({} : Memory).insert "out" (.zeroed .i64 4), {}⟩

/-- A declaration in a loop and one in a branch are hoisted, and the group ends as before. -/
theorem relay_hoisted : relay.hoist = .ok relayHoisted ∧ relayHoisted.hoist = .ok relayHoisted ∧
    ∃ s, runGroup relayContext .reverse relay relayStart = .ok () s ∧
      runGroup relayContext .reverse relayHoisted relayStart = .ok () s ∧
        s.global["out"]?.map Buffer.values = some [.i64 4, .i64 3, .i64 2, .i64 1] ∧ s.stats = ⟨0, 2, 0⟩ := by
  have hhoist : relay.hoist = .ok relayHoisted := by rfl
  have hkept := hoisting_changes_nothing_else hhoist (by decide) (by decide)
  have hend : (reached? (runGroup relayContext .reverse relay relayStart)).map
      (fun s => (s.global["out"]?.map Buffer.values, s.stats)) =
        some (some [.i64 4, .i64 3, .i64 2, .i64 1], ⟨0, 2, 0⟩) := by decide +kernel
  obtain ⟨s, hs, hend⟩ := Option.map_eq_some_iff.mp hend
  obtain ⟨hvalues, hstats⟩ := Prod.mk.inj hend
  have hrun := eq_ok_of_reached? hs
  have hlengths : ∀ a ∈ relay.sharedArrays, ∃ n, a.length.evalInt (relayContext.captured[·]?) = .ok n ∧
    0 ≤ n.toInt := by
    intro a ha
    rcases List.mem_cons.mp ha with rfl | ha
    · exact ⟨4, ok_of_toOption (by decide +kernel), by decide⟩
    · obtain rfl := List.mem_singleton.mp ha
      exact ⟨1, rfl, by decide⟩
  exact ⟨hhoist, hkept.2.1, s, hrun, hkept.2.2 _ _ _ _ hlengths hrun, hvalues, hstats⟩

/-- The thread reads the number of threads into a variable of the host, of which the length of `row` is computed. A
    shared array has the same name. -/
def resized : Stmt := .seq [
  .query .localSize "n",
  .declareArray "n" .i64 (.int 1) .shared,
  .declareArray "row" .i64 (.var "n") .shared,
  .write ⟨"row", .i64, .shared, false⟩ (.int 0) (.int 7),
  .declare "x" .i64 false,
  .read "x" ⟨"row", .i64, .shared, false⟩ (.int 0),
  .write ⟨"out", .i64, .global, false⟩ (.int 0) (.var "x")]

/-- One thread, and a host whose variable is zero. -/
def resizedContext : GroupContext where
  captured := ({} : Table Value).insert "n" (.i64 0)
  group := 0
  groupSize := 1
  numGroups := 1
  wave := 1
  loopLimit := 8
  checkRaces := true

/-- A declaration as a shared array is not enough. It is hoisted itself, so nothing tells that the variable is set
    before the length of `row` is computed, and in front the length is still that of the host. -/
theorem resized_differs :
    let s : Progress := ⟨({} : Memory).insert "out" (.zeroed .i64 1), {}⟩
    (resized.sharedArrays.map (·.name)).Nodup ∧ (∀ x ∈ resized.asked, x ∈ resized.declared) ∧
      (∀ a ∈ resized.sharedArrays, ∃ n, a.length.evalInt (resizedContext.captured[·]?) = .ok n ∧ 0 ≤ n.toInt) ∧
      ∃ hoisted s' fault t, resized.hoist = .ok hoisted ∧ runGroup resizedContext .forward resized s = .ok () s' ∧
        s'.global["out"]?.map Buffer.values = some [.i64 7] ∧
        runGroup resizedContext .forward hoisted s = .error fault t := by
  intro s
  refine ⟨by decide, by decide, ?_, ?_⟩
  · intro a ha
    rcases List.mem_cons.mp ha with rfl | ha
    · exact ⟨1, rfl, by decide⟩
    · obtain rfl := List.mem_singleton.mp ha
      exact ⟨0, ok_of_toOption (by decide +kernel), by decide⟩
  · obtain ⟨hoisted, hhoist⟩ : ∃ hoisted, resized.hoist = .ok hoisted := ⟨_, rfl⟩
    have hend : (reached? (runGroup resizedContext .forward resized s)).map (·.global["out"]?.map Buffer.values) =
        some (some [.i64 7]) := by decide +kernel
    obtain ⟨s', hs', hvalues⟩ := Option.map_eq_some_iff.mp hend
    have hfault : ∀ h ∈ resized.hoist.toOption, reached? (runGroup resizedContext .forward h s) = none := by
      decide +kernel
    have hnone := hfault hoisted (by rw [hhoist]; rfl)
    cases hrun : runGroup resizedContext .forward hoisted s with
    | ok _ t =>
      rw [hrun] at hnone
      cases hnone
    | error fault t => exact ⟨hoisted, s', fault, t, hhoist, eq_ok_of_reached? hs', hvalues, hrun⟩

end Device
end SegKernel
