import SegKernel.Proofs.Execution.Lockstep

/-! Code that a thread can run on its own can be run by many threads in lockstep, if no thread reads
    what another one may write. Each statement is one turn for each thread. -/

namespace SegKernel
namespace Run
open GroupState
variable {ctx : GroupContext} {t : Nat} {s s' : GroupState} {u : Unit}

/-- Without a check for races an access is not recorded. -/
theorem track_eq (h : ctx.checkRaces = false) (view : View) (i : Int64) (isWrite : Bool) :
    track ctx t view i isWrite s = .ok () s := by
  unfold track
  rw [if_neg (by simp [h])]

theorem read_eq_ok {dest : Ident} {view : View} {index : Exp} {i : Int64} {v old : Value} {races : RaceLog}
    (hi : index.evalInt (s.scope ctx t) = .ok i) (hv : element s t view i = .ok v)
    (htrack : track ctx t view i false s = .ok () { s with races })
    (hold : (s.thread t).scalars[dest]? = some old) (htype : old.type = v.type) :
    (do
      let i ← int ctx t index
      let v ← load t view i
      track ctx t view i false
      assign t dest v : Run Unit) s = .ok () ({ s with races }.bind t dest v) := by
  simp only [bind_eq_ok, int_eq_ok, load_eq_ok, assign_eq_ok]
  exact ⟨i, s, ⟨hi, rfl⟩, v, s, ⟨hv, rfl⟩, (), _, htrack, ⟨old, hold, htype⟩, rfl⟩

theorem write_eq_ok {view : View} {index x : Exp} {i : Int64} {v : Value} {p : Nat} {races : RaceLog}
    (hi : index.evalInt (s.scope ctx t) = .ok i) (hv : x.eval (s.scope ctx t) = .ok v)
    (hp : storable s t view i v = .ok p)
    (htrack : track ctx t view i true (s.modifyBuffer t view (·.put p v.toBits)) =
      .ok () { s.modifyBuffer t view (·.put p v.toBits) with races }) :
    (do
      let i ← int ctx t index
      let v ← value ctx t x
      store t view i v
      track ctx t view i true : Run Unit) s =
        .ok () { s.modifyBuffer t view (·.put p v.toBits) with races } := by
  simp only [bind_eq_ok, int_eq_ok, value_eq_ok, store_eq_ok]
  exact ⟨i, s, ⟨hi, rfl⟩, v, s, ⟨hv, rfl⟩, (), _, ⟨p, hp, rfl⟩, htrack⟩

theorem writeOf_eq {view : View} {index x : Exp} {i : Int64} {v : Value} {p : Nat} (hview : view.space ≠ .thread)
    (hi : index.evalInt (s.scope ctx t) = .ok i) (hv : x.eval (s.scope ctx t) = .ok v)
    (hp : storable s t view i v = .ok p) :
    writeOf ctx view index x t s = [(t, ⟨⟨view.space, view.array, p⟩, v.toBits⟩)] := by
  unfold writeOf
  rw [if_neg hview, hi, hv]
  dsimp only
  rw [hp]

/-- The answers to a question that all threads can answer. -/
theorem ask_eq_of_forall {α : Type} {g : Nat → GroupState → Except Fault α} {a : Nat → α} :
    ∀ {active : List Nat}, (∀ t ∈ active, g t s = .ok (a t)) →
      ask active (fun t => evaluate (g t)) s = .ok (active.map fun t => (t, a t)) s
  | [], _ => rfl
  | t :: ts, h => by
    have rest := ask_eq_of_forall fun t' ht' => h t' (List.mem_cons_of_mem t ht')
    rw [ask, List.mapM_cons]
    simp only [bind_eq_ok, evaluate_eq_ok, pure_eq_ok]
    exact ⟨(t, a t), s, ⟨a t, s, ⟨h t List.mem_cons_self, rfl⟩, rfl, rfl⟩, _, s, rest, rfl, rfl⟩

theorem mem_those {α : Type} {active : List Nat} {a : Nat → α} {p : α → Bool} {t : Nat} :
    t ∈ those (active.map fun t => (t, a t)) p ↔ t ∈ active ∧ p (a t) = true := by
  unfold those
  rw [List.filter_map, List.map_map]
  simp [Function.comp_def]

theorem nodup_those {α : Type} {active : List Nat} (a : Nat → α) (p : α → Bool) (h : active.Nodup) :
    (those (active.map fun t => (t, a t)) p).Nodup := by
  unfold those
  rw [List.filter_map, List.map_map]
  exact (List.map_id (α := Nat) _).symm ▸ h.filter _

theorem trips_le {bounds : List (Nat × Int64)} {n : Nat} (h : ∀ p ∈ bounds, p.2.toInt.toNat ≤ n) :
    trips bounds ≤ n := by
  have fold : ∀ (l : List (Nat × Int64)) (k : Nat), k ≤ n → (∀ p ∈ l, p.2.toInt.toNat ≤ n) →
      l.foldl (fun k b => max k b.2.toInt.toNat) k ≤ n := by
    intro l
    induction l with
    | nil => exact fun _ hk _ => hk
    | cons p l ih =>
      intro k hk hl
      exact ih _ (Nat.max_le.mpr ⟨hk, hl p List.mem_cons_self⟩) fun q hq => hl q (List.mem_cons_of_mem p hq)
  exact fold bounds 0 (Nat.zero_le n) h

theorem le_trips {bounds : List (Nat × Int64)} {p : Nat × Int64} (hp : p ∈ bounds) :
    p.2.toInt.toNat ≤ trips bounds := by
  have mono : ∀ (l : List (Nat × Int64)) (k : Nat), k ≤ l.foldl (fun k b => max k b.2.toInt.toNat) k := by
    intro l
    induction l with
    | nil => exact fun _ => Nat.le_refl _
    | cons q l ih => exact fun k => Nat.le_trans (Nat.le_max_left _ _) (ih _)
  have fold : ∀ (l : List (Nat × Int64)) (k : Nat), p ∈ l →
      p.2.toInt.toNat ≤ l.foldl (fun k b => max k b.2.toInt.toNat) k := by
    intro l
    induction l with
    | nil => simp
    | cons q l ih =>
      intro k hmem
      rcases List.mem_cons.mp hmem with rfl | hmem
      · exact Nat.le_trans (Nat.le_max_right _ _) (mono l _)
      · exact ih _ hmem
  exact fold bounds 0 hp

end Run

namespace Crowd
open GroupState
variable {C : Crowd} {t : Nat} {P Q : Nat → Claim}

theorem Reached.contains_shared {past : List (Nat × Write)} {s : GroupState} (h : C.Reached past s) {name : Ident}
    (hname : (C.store.layout? .shared name).isSome = true) : s.shared.contains name = true := by
  have e : s.store.layout? .shared name = C.store.layout? .shared name := by
    rw [h.store, Store.layout?_puts]
  rw [← e] at hname
  rw [Std.ExtTreeMap.contains_eq_isSome_getElem?]
  change (s.shared[name]?.map _).isSome = true at hname
  rwa [Option.isSome_map] at hname

/-- What a thread sees at a slot that no other thread writes is what it would see on its own. -/
theorem Reached.load {past : List (Nat × Write)} {s : GroupState} (h : C.Reached past s) {view : View} {i : Int64}
    {v : Value} (hkeeps : (C.solo t).Keeps ⟨view.space, view.array, i.toInt.toNat⟩)
    (hv : (C.store.puts (writesOf t past)).load view i = .ok v) : s.store.load view i = .ok v := by
  rw [Store.load_eq_ok] at *
  obtain ⟨p, bits, hp, hbits, rfl⟩ := hv
  rw [Store.position_puts] at hp
  refine ⟨p, bits, ?_, ?_, rfl⟩
  · rw [h.store, Store.position_puts, hp]
  · rw [h.store, ← hbits, writesOf]
    refine (Store.bits?_puts_filter (fun e => e.1 == t) past fun e he hslot => ?_).symm
    rw [beq_iff_eq]
    refine Classical.byContradiction fun hne => hkeeps e.1 hne ?_
    rw [← Store.position_eq_ok hp, ← hslot]
    exact h.owned e he

/-- An access within the rights of its thread is recorded, or not checked at all. -/
theorem Orderly.track {s : GroupState} (hlog : C.Orderly s.races) (ht : t < C.size) {view : View} {i : Int64}
    {isWrite : Bool} (hmay : view.space ≠ .thread → if isWrite then C.own t ⟨view.space, view.array, i.toInt.toNat⟩
      else (C.solo t).Keeps ⟨view.space, view.array, i.toInt.toNat⟩) :
    ∃ races, Run.track C.ctx t view i isWrite s = .ok () { s with races } ∧ C.Orderly races := by
  by_cases hspace : view.space = .thread
  · exact ⟨s.races, (Run.track_eq_ok_of_own hspace).mpr rfl, hlog⟩
  · by_cases hchecked : C.ctx.checkRaces = true
    · obtain ⟨log, hrecord, hrespected⟩ := (hlog hchecked).record (l := ⟨view.space, view.array, i⟩) ht (hmay hspace)
      exact ⟨log, (Run.track_eq_ok_of_checked hchecked hspace).mpr ⟨log, hrecord, rfl⟩, fun _ => hrespected⟩
    · exact ⟨s.races, Run.track_eq (by simpa using hchecked) view i isWrite, hlog⟩

namespace Meets

/-- A turn that changes only its thread and the record of accesses. -/
theorem change {P Q : Claim} {r : Run Unit} (ht : t < C.size)
    (h : ∀ past s, C.Reached past s → P (s.thread t) (writesOf t past) →
      ∃ f races, r s = .ok () ({ s with races }.modifyThread t f) ∧ C.Orderly races ∧
        Q (f (s.thread t)) (writesOf t past)) :
    C.Meets [t] (fun _ => P) (fun _ => Q) r fun _ => [] := by
  intro past s hs hP
  obtain ⟨f, races, hr, hlog, hQ⟩ := h past s hs (hP t (List.mem_singleton_self t))
  refine ⟨_, hr, ?_, by simp, ?_, ?_⟩
  · rw [List.append_nil]
    exact ⟨hs.store, hs.owned, (size_modifyThread _ t f).trans hs.size, hlog⟩
  · intro t' ht'
    rw [List.append_nil, List.mem_singleton.mp ht', thread_modifyThread_self f (hs.size ▸ ht)]
    exact hQ
  · exact ⟨fun t' ht' => thread_modifyThread_of_ne _ f (by simpa using ht'), rfl⟩

theorem declare (ht : t < C.size) (name : Ident) (v : Value) (Q : Claim) :
    C.Meets [t] (fun _ th ws => Q (th.bind name v) ws) (fun _ => Q) (modify fun s => s.bind t name v) fun _ => [] :=
  change ht fun _ s hs hQ => ⟨(·.bind name v), s.races, rfl, hs.log, hQ⟩

theorem write (ht : t < C.size) (view : View) (index x : Exp) (Q : Claim) :
    C.Meets [t] (fun _ => (C.solo t).Ensures (.write view index x) Q) (fun _ => Q) (do
      let i ← Run.int C.ctx t index
      let v ← Run.value C.ctx t x
      Run.store t view i v
      Run.track C.ctx t view i true) (Run.writeOf C.ctx view index x t) := by
  by_cases hspace : view.space = .thread
  · have none : Run.writeOf C.ctx view index x t = fun _ => [] := funext fun s => if_pos hspace
    rw [none]
    refine change ht fun past s hs hQ => ?_
    rw [Solo.Ensures] at hQ
    obtain ⟨i, v, hi, hv, htype, hstores⟩ := hQ
    rw [hspace] at hstores
    obtain ⟨b, p, hb, hp, hQ⟩ := hstores
    have own : s.modifyBuffer t view (·.put p v.toBits) =
        s.modifyThread t fun th => { th with arrays := th.arrays.modify view.array (·.put p v.toBits) } := by
      unfold modifyBuffer
      rw [hspace]
    refine ⟨fun th => { th with arrays := th.arrays.modify view.array (·.put p v.toBits) }, s.races, ?_, hs.log, hQ⟩
    have hstorable : Run.storable s t view i v = .ok p := by
      rw [Run.storable_eq_ok, buffer?_of_thread hspace]
      exact ⟨htype, b, hb, hp⟩
    have htrack : Run.track C.ctx t view i true (s.modifyBuffer t view (·.put p v.toBits)) =
        .ok () { s.modifyBuffer t view (·.put p v.toBits) with races := s.races } := by
      rw [Run.track_eq_ok_of_own hspace, own]
      rfl
    refine (Run.write_eq_ok hi hv hstorable htrack).trans ?_
    rw [own]
    rfl
  -- The other spaces are shared: the write is one of those that the claim counts.
  · intro past s hs hQ
    have hQ := hQ t (List.mem_singleton_self t)
    dsimp only at hQ
    rw [Solo.Ensures] at hQ
    obtain ⟨i, v, hi, hv, htype, hstores⟩ := hQ
    have hstores : ∃ p, C.store.position view i = .ok p ∧ C.own t ⟨view.space, view.array, p⟩ ∧
        Q (s.thread t) (writesOf t past ++ [⟨⟨view.space, view.array, p⟩, v.toBits⟩]) := by
      split at hstores
      · exact absurd ‹_› hspace
      · exact hstores
    obtain ⟨p, hp, hown, hQ⟩ := hstores
    have hposition : s.store.position view i = .ok p := by
      rw [hs.store, Store.position_puts, hp]
    have hstorable := storable_of_shared (t := t) hspace htype hposition
    have hwrite : Run.writeOf C.ctx view index x t s = [(t, ⟨⟨view.space, view.array, p⟩, v.toBits⟩)] :=
      Run.writeOf_eq hspace hi hv hstorable
    have hlog : C.Orderly (s.modifyBuffer t view (·.put p v.toBits)).races := by
      rw [races_modifyBuffer]
      exact hs.log
    obtain ⟨races, htrack, hlog⟩ : ∃ races, Run.track C.ctx t view i true _ = _ ∧ _ :=
      hlog.track ht fun _ => Store.position_eq_ok hp ▸ hown
    have same : ∀ t', ({ s.modifyBuffer t view (·.put p v.toBits) with races } : GroupState).thread t' = s.thread t' :=
      fun t' => thread_of_threads (a := s) (threads_modifyBuffer hspace _) t'
    refine ⟨_, Run.write_eq_ok hi hv hstorable htrack, ?_, ?_, ?_, ?_⟩
    · rw [hwrite]
      refine ⟨?_, ?_, ?_, hlog⟩
      · refine (store_modifyBuffer hspace p v.toBits).trans ?_
        rw [hs.store, List.map_append, Store.puts_append]
        rfl
      · intro e he
        rcases List.mem_append.mp he with he | he
        · exact hs.owned e he
        · rw [List.mem_singleton.mp he]
          exact hown
      · exact (congrArg Array.size (threads_modifyBuffer hspace _)).trans hs.size
    · rw [hwrite]
      simp
    · intro t' ht'
      rw [List.mem_singleton.mp ht', hwrite, writesOf_append, same]
      simpa [writesOf] using hQ
    · refine ⟨fun t' _ => same t', ?_⟩
      exact @stats_modifyBuffer s t view _

theorem read (ht : t < C.size) (dest : Ident) (view : View) (index : Exp) (Q : Claim) :
    C.Meets [t] (fun _ => (C.solo t).Ensures (.read dest view index) Q) (fun _ => Q) (do
      let i ← Run.int C.ctx t index
      let v ← Run.load t view i
      Run.track C.ctx t view i false
      Run.assign t dest v) fun _ => [] := by
  refine change ht fun past s hs hQ => ?_
  rw [Solo.Ensures] at hQ
  obtain ⟨i, v, hi, hv, ⟨old, hold, htype⟩, hQ⟩ := hQ
  unfold Solo.Loads at hv
  by_cases hspace : view.space = .thread
  · rw [hspace] at hv
    obtain ⟨b, hb, hload⟩ := hv
    refine ⟨(·.bind dest v), s.races, Run.read_eq_ok hi ?_ ((Run.track_eq_ok_of_own hspace).mpr rfl) hold htype,
      hs.log, hQ⟩
    unfold Run.element
    rw [buffer?_of_thread hspace, hb]
    exact hload
  · have hv : (C.solo t).Keeps ⟨view.space, view.array, i.toInt.toNat⟩ ∧
        (C.store.puts (writesOf t past)).load view i = .ok v := by
      split at hv
      · exact absurd ‹_› hspace
      · exact hv
    obtain ⟨races, htrack, hlog⟩ : ∃ races, Run.track C.ctx t view i false s = .ok () { s with races } ∧
      C.Orderly races :=
      hs.log.track ht fun _ => hv.1
    refine ⟨(·.bind dest v), races, Run.read_eq_ok hi ?_ htrack hold htype, hlog, hQ⟩
    rw [element_of_shared hspace]
    exact hs.load hv.1 hv.2

theorem set (ht : t < C.size) (name : Ident) (x : Exp) (Q : Claim) :
    C.Meets [t] (fun _ => (C.solo t).Ensures (.set name x) Q) (fun _ => Q) (do
      let v ← Run.value C.ctx t x
      Run.assign t name v) fun _ => [] := by
  refine change ht fun past s hs hQ => ?_
  rw [Solo.Ensures] at hQ
  obtain ⟨v, hv, hold, hQ⟩ := hQ
  exact ⟨(·.bind name v), s.races, Run.set_eq_ok.mpr ⟨v, hv, hold, rfl⟩, hs.log, hQ⟩

theorem declareArray (ht : t < C.size) (name : Ident) (type : ScalarType) (length : Exp) (space : Space) (Q : Claim) :
    C.Meets [t] (fun _ => (C.solo t).Ensures (.declareArray name type length space) Q) (fun _ => Q)
      (Run.declareArray C.ctx t name type length space) fun _ => [] := by
  refine change ht fun past s hs hQ => ?_
  rw [Solo.Ensures] at hQ
  obtain ⟨i, n, hi, hn, hQ⟩ := hQ
  simp only [Run.declareArray, Run.bind_eq_ok, Run.int_eq_ok, Run.evaluate_eq_ok]
  cases space with
  | thread =>
    exact ⟨fun th => { th with arrays := th.arrays.insert name (.zeroed type n) }, s.races,
      ⟨i, s, ⟨hi, rfl⟩, n, s, ⟨hn, rfl⟩, rfl⟩, hs.log, hQ⟩
  | shared =>
    refine ⟨id, s.races, ⟨i, s, ⟨hi, rfl⟩, n, s, ⟨hn, rfl⟩, Run.modify_eq_ok.mpr ?_⟩, hs.log, hQ.2⟩
    unfold declareShared
    rw [if_pos (hs.contains_shared hQ.1), modifyThread_id]
  | global => exact hQ.elim

end Meets
end Crowd

/-! ## Threads among others

Code that each of some threads could run on its own does the same when they run it together. What a
thread ensures on its own, it ensures among the others, and the writes of the run are theirs. -/
namespace Crowd
namespace Meets
open GroupState
variable {C : Crowd} {active : List Nat}

/-- Claims that differ from thread to thread can be made of each thread in turn. -/
theorem at_state {P Q : Nat → Claim} {r : Run Unit} {writes : GroupState → List (Nat × Write)}
    (h : ∀ past s, C.Reached past s → (∀ t ∈ active, P t (s.thread t) (writesOf t past)) →
      ∃ (P' : Nat → Claim) (r' : Run Unit) (writes' : GroupState → List (Nat × Write)),
        (∀ t ∈ active, P' t (s.thread t) (writesOf t past)) ∧ r s = r' s ∧ writes s = writes' s ∧
          C.Meets active P' Q r' writes') : C.Meets active P Q r writes := by
  intro past s hs hP
  obtain ⟨P', r', writes', hP', hr, hw, hmeets⟩ := h past s hs hP
  rw [hr, hw]
  exact hmeets past s hs hP'

/-- A claim that no thread can make beforehand. -/
theorem of_false {P Q : Nat → Claim} {r : Run Unit} {writes : GroupState → List (Nat × Write)} (hne : active ≠ [])
    (h : ∀ t th ws, ¬P t th ws) : C.Meets active P Q r writes := by
  intro past s _ hP
  obtain ⟨t, ht⟩ := List.exists_mem_of_ne_nil active hne
  exact absurd (hP t ht) (h t _ _)

variable (Q : Nat → Claim)

theorem branch {c : Exp} {ifTrue ifFalse : Stmt} (hne : active ≠ []) (hnd : active.Nodup)
    (htrue : ∀ A : List Nat, A.Nodup → (∀ t ∈ A, t ∈ active) → C.Meets A (fun t => (C.solo t).Ensures ifTrue (Q t)) Q
      (Run.exec C.ctx ifTrue A) (Run.trace Run.writesAt C.ctx ifTrue A))
    (hfalse : ∀ A : List Nat, A.Nodup → (∀ t ∈ A, t ∈ active) → C.Meets A (fun t => (C.solo t).Ensures ifFalse (Q t)) Q
      (Run.exec C.ctx ifFalse A) (Run.trace Run.writesAt C.ctx ifFalse A)) :
    C.Meets active (fun t => (C.solo t).Ensures (.branch c ifTrue ifFalse) (Q t)) Q
      (Run.exec C.ctx (.branch c ifTrue ifFalse) active)
      (Run.trace Run.writesAt C.ctx (.branch c ifTrue ifFalse) active) := by
  refine at_state fun past s hs hP => ?_
  simp only [Solo.Ensures] at hP
  choose! b hb hQ using hP
  have hask := Run.ask_eq_of_forall (g := fun t s => c.evalBool (s.scope C.ctx t)) hb
  -- Each thread takes its side; one that takes the other keeps what it knows in the meantime.
  refine ⟨fun t th ws => if b t then (C.solo t).Ensures ifTrue (Q t) th ws else (C.solo t).Ensures ifFalse (Q t) th ws,
    _, _, hQ, ?_, ?_, beside (htrue (Run.those (active.map fun t => (t, b t)) id) (Run.nodup_those b id hnd)
      ?_ |>.imp ?_ ?_)
      (hfalse (Run.those (active.map fun t => (t, b t)) not) (Run.nodup_those b not hnd) ?_ |>.imp ?_ ?_) ?_ ?_⟩
  · rw [Run.exec_branch hne, Run.bind_apply]
    unfold Run.condition
    rw [hask]
  · rw [Run.trace, if_neg (by simpa using hne)]
    unfold Run.condition
    rw [Run.after_ok hask]
  · exact fun t ht => (Run.mem_those.mp ht).1
  · intro t ht th ws h
    rwa [if_pos (show b t = true from (Run.mem_those.mp ht).2)] at h
  · exact fun _ _ _ _ h => h
  · exact fun t ht => (Run.mem_those.mp ht).1
  · intro t ht th ws h
    rwa [if_neg (by simpa using (Run.mem_those.mp ht).2)] at h
  · exact fun _ _ _ _ h => h
  · intro t
    rw [Run.mem_those, Run.mem_those]
    cases b t <;> simp
  · intro t ht ht'
    rw [Run.mem_those] at ht ht'
    simp [show b t = true from ht.2] at ht'

/-- One round of a loop, for the threads that have not reached their bounds. -/
theorem round {iter : Ident} {body : Stmt} {n : Nat → Int64} {I : Nat → Nat → Claim} (k : Nat) (hnd : active.Nodup)
    (hsize : ∀ t ∈ active, t < C.size)
    (hstep : ∀ t ∈ active, ∀ k th ws, k < (n t).toInt.toNat → I t k th ws →
      (C.solo t).Ensures body (I t (k + 1)) (th.bind iter (.i64 (Int64.ofNat k))) ws)
    (hbody : ∀ (A : List Nat) (Q : Nat → Claim), A.Nodup → (∀ t ∈ A, t ∈ active) →
      C.Meets A (fun t => (C.solo t).Ensures body (Q t)) Q (Run.exec C.ctx body A)
        (Run.trace Run.writesAt C.ctx body A)) :
    C.Meets active (fun t => I t (min k (n t).toInt.toNat)) (fun t => I t (min (k + 1) (n t).toInt.toNat))
      (Run.loopStep C.ctx iter body (active.map fun t => (t, n t)) k) fun s =>
        let inner := Run.those (active.map fun t => (t, n t)) fun b => k < b.toInt
        Run.after (inner.forM fun t => modify fun s => s.bind t iter (.i64 (Int64.ofNat k))) s fun _ s =>
          Run.trace Run.writesAt C.ctx body inner s := by
  have inner : ∀ t, t ∈ Run.those (active.map fun t => (t, n t)) (fun b => k < b.toInt) ↔
      t ∈ active ∧ k < (n t).toInt.toNat := by
    intro t
    rw [Run.mem_those, decide_eq_true_iff, Int.lt_toNat]
  have hnd' := Run.nodup_those (a := n) (p := fun b => k < b.toInt) hnd
  have sets := turns_silent (P := fun t th ws => (C.solo t).Ensures body (I t (k + 1))
      (th.bind iter (.i64 (Int64.ofNat k))) ws) (Q := fun t => (C.solo t).Ensures body (I t (k + 1)))
    (fun t ht => declare (hsize t ((inner t).mp ht).1) iter (.i64 (Int64.ofNat k)) _) hnd'
  refine (sets.bind (hbody _ (fun t => I t (k + 1)) hnd' fun t ht => ((inner t).mp ht).1)).widen ?_ ?_ ?_ ?_
  · exact fun t ht => ((inner t).mp ht).1
  · intro t ht th ws h
    obtain ⟨hmem, hlt⟩ := (inner t).mp ht
    rw [Nat.min_eq_left (Nat.le_of_lt hlt)] at h
    exact hstep t hmem k th ws hlt h
  · intro t ht th ws h
    rw [Nat.min_eq_left ((inner t).mp ht).2]
    exact h
  · intro t ht hnot th ws h
    have hle : (n t).toInt.toNat ≤ k := Nat.not_lt.mp fun hlt => hnot ((inner t).mpr ⟨ht, hlt⟩)
    rw [Nat.min_eq_right hle] at h
    rwa [Nat.min_eq_right (Nat.le_succ_of_le hle)]

theorem loop {iter : Ident} {bound : Exp} {body : Stmt} (hne : active ≠ []) (hnd : active.Nodup)
    (hsize : ∀ t ∈ active, t < C.size)
    (hbody : ∀ (A : List Nat) (Q : Nat → Claim), A.Nodup → (∀ t ∈ A, t ∈ active) →
      C.Meets A (fun t => (C.solo t).Ensures body (Q t)) Q (Run.exec C.ctx body A)
        (Run.trace Run.writesAt C.ctx body A)) :
    C.Meets active (fun t => (C.solo t).Ensures (.loop iter bound body) (Q t)) Q
      (Run.exec C.ctx (.loop iter bound body) active)
      (Run.trace Run.writesAt C.ctx (.loop iter bound body) active) := by
  refine at_state fun past s hs hP => ?_
  simp only [Solo.Ensures] at hP
  choose! n hn hlimit I hI hstep hend using hP
  have hask := Run.ask_eq_of_forall (g := fun t s => bound.evalInt (s.scope C.ctx t)) hn
  have hle : ¬C.ctx.loopLimit < Run.trips (active.map fun t => (t, n t)) := by
    refine Nat.not_lt.mpr (Run.trips_le fun p hp => ?_)
    obtain ⟨t, ht, rfl⟩ := List.mem_map.mp hp
    exact hlimit t ht
  -- A thread whose loop is over stays at its last round while others go on.
  have rounds : C.Meets active (fun t => I t (min 0 (n t).toInt.toNat))
      (fun t => I t (min (0 + Run.trips (active.map fun t => (t, n t))) (n t).toInt.toNat)) _ _ :=
    countUp (I := fun k t => I t (min k (n t).toInt.toNat)) fun k _ _ => round k hnd hsize hstep hbody
  refine ⟨fun t => I t 0, _, _, hI, ?_, ?_, rounds.imp ?_ ?_⟩
  · rw [Run.exec_loop hne, Run.bind_apply]
    unfold Run.int
    rw [hask]
    dsimp only
    rw [if_neg hle]
  · rw [Run.trace, if_neg (by simpa using hne)]
    dsimp only
    unfold Run.int
    rw [Run.after_ok hask, if_neg hle]
  · intro t _ th ws h
    rwa [Nat.zero_min]
  · intro t ht th ws h
    have : (n t).toInt.toNat ≤ Run.trips (active.map fun t => (t, n t)) :=
      Run.le_trips (p := (t, n t)) (List.mem_map.mpr ⟨t, ht, rfl⟩)
    rw [Nat.zero_add, Nat.min_eq_right this] at h
    exact hend t ht th ws h

mutual

/-- What each thread ensures on its own, the threads ensure together. -/
theorem exec : ∀ (stmt : Stmt) (active : List Nat) (Q : Nat → Claim),
    active.Nodup → (∀ t ∈ active, t < C.size) →
    C.Meets active (fun t => (C.solo t).Ensures stmt (Q t)) Q (Run.exec C.ctx stmt active)
      (Run.trace Run.writesAt C.ctx stmt active)
  | stmt, [], Q, _, _ => by
    rw [Run.exec_nil, show Run.trace Run.writesAt C.ctx stmt [] = fun _ => [] from funext fun s => Run.trace_nil stmt]
    exact (pure C [] Q).imp (by simp) fun _ _ _ _ h => h
  | .seq stmts, t :: ts, Q, hnd, hsize => by
    rw [Run.exec_seq_eq, show Run.trace Run.writesAt C.ctx (.seq stmts) (t :: ts) = _ from
      funext fun s => Run.trace_seq stmts]
    exact (execAll stmts (t :: ts) Q hnd hsize).imp (fun _ _ _ _ h => by rwa [Solo.ensures_seq] at h)
      fun _ _ _ _ h => h
  | .comment text body, t :: ts, Q, hnd, hsize => by
    rw [Run.exec_comment, show Run.trace Run.writesAt C.ctx (.comment text body) (t :: ts) = _ from
      funext fun s => Run.trace_comment text body]
    exact (exec body (t :: ts) Q hnd hsize).imp (fun _ _ _ _ h => by rwa [Solo.ensures_comment] at h)
      fun _ _ _ _ h => h
  | .branch c ifTrue ifFalse, t :: ts, Q, hnd, hsize =>
    branch Q (List.cons_ne_nil t ts) hnd
      (fun A hA hle => exec ifTrue A Q hA fun t ht => hsize t (hle t ht))
      (fun A hA hle => exec ifFalse A Q hA fun t ht => hsize t (hle t ht))
  | .loop iter bound body, t :: ts, Q, hnd, hsize =>
    loop Q (List.cons_ne_nil t ts) hnd hsize fun A Q hA hle => exec body A Q hA fun t ht => hsize t (hle t ht)
  | .skip, t :: ts, Q, _, _ => by
    exact (pure C (t :: ts) Q).imp (fun _ _ _ _ h => by rwa [Solo.Ensures] at h) fun _ _ _ _ h => h
  | .memFence scope, t :: ts, Q, _, _ => by
    exact (pure C (t :: ts) Q).imp (fun _ _ _ _ h => by rwa [Solo.Ensures] at h) fun _ _ _ _ h => h
  | .declare name type isConst, t :: ts, Q, hnd, hsize => by
    exact (turns_silent (fun t ht => declare (hsize t ht) name (.zero type) (Q t)) hnd).imp
      (fun _ _ _ _ h => by rwa [Solo.Ensures] at h) fun _ _ _ _ h => h
  | .query which dest, t :: ts, Q, hnd, hsize => by
    exact (turns_silent (fun t ht => declare (hsize t ht) dest (.i64 (Run.answer C.ctx t which)) (Q t)) hnd).imp
      (fun _ _ _ _ h => by rwa [Solo.Ensures] at h) fun _ _ _ _ h => h
  | .declareArray name type length space, t :: ts, Q, hnd, hsize =>
    turns_silent (fun t ht => declareArray (hsize t ht) name type length space (Q t)) hnd
  | .set name x, t :: ts, Q, hnd, hsize => turns_silent (fun t ht => set (hsize t ht) name x (Q t)) hnd
  | .read dest view index, t :: ts, Q, hnd, hsize =>
    turns_silent (fun t ht => read (hsize t ht) dest view index (Q t)) hnd
  | .write view index x, t :: ts, Q, hnd, hsize =>
    turns (fun t ht => write (hsize t ht) view index x (Q t)) hnd
  | .repeatWhile .., t :: ts, Q, _, _ | .barrier _, t :: ts, Q, _, _ | .update .., t :: ts, Q, _, _
  | .compareSwap .., t :: ts, Q, _, _ =>
    of_false (List.cons_ne_nil t ts) fun _ _ _ h => by rwa [Solo.Ensures] at h

theorem execAll : ∀ (stmts : List Stmt) (active : List Nat) (Q : Nat → Claim),
    active.Nodup → (∀ t ∈ active, t < C.size) → C.Meets active (fun t => (C.solo t).EnsuresAll stmts (Q t)) Q
      (Run.execAll C.ctx stmts active) (Run.traceAll Run.writesAt C.ctx stmts active)
  | [], active, Q, _, _ => by
    rw [Run.execAll_nil, show Run.traceAll Run.writesAt C.ctx [] active = fun _ => [] from
      funext fun s => Run.traceAll_nil]
    exact (pure C active Q).imp (fun _ _ _ _ h => by rwa [Solo.ensuresAll_nil] at h) fun _ _ _ _ h => h
  | stmt :: stmts, active, Q, hnd, hsize => by
    have first := exec stmt active (fun t => (C.solo t).EnsuresAll stmts (Q t)) hnd hsize
    have rest := execAll stmts active Q hnd hsize
    rw [Run.execAll_cons, show Run.traceAll Run.writesAt C.ctx (stmt :: stmts) active = _ from
      funext fun s => Run.traceAll_cons stmt stmts]
    exact (first.bind rest).imp (fun _ _ _ _ h => by rwa [Solo.ensuresAll_cons] at h) fun _ _ _ _ h => h

end

end Meets
end Crowd
end SegKernel
