import Mathlib.Tactic.Choose
import SegKernel.Proofs.Execution.Solo
import SegKernel.Proofs.Execution.Traces
import SegKernel.Proofs.Races.Rights

/-! Threads that run in lockstep. Where the threads of a group do not disturb each other, because each
    one reads only slots that no other may write, every one of them ends as it would on its own. -/

namespace SegKernel
namespace Run
open GroupState

/-! ### The writes of a run -/

/-- What a thread writes to the memory that threads share when it stores a value. -/
def writeOf (ctx : GroupContext) (view : View) (index x : Exp) (t : Nat) (s : GroupState) : List (Nat × Write) :=
  if view.space = .thread then []
  else
    match index.evalInt (s.scope ctx t), x.eval (s.scope ctx t) with
    | .ok i, .ok v =>
      match storable s t view i v with
      | .ok p => [(t, ⟨⟨view.space, view.array, p⟩, v.toBits⟩)]
      | .error _ => []
    | _, _ => []

/-- The writes of a statement to the memory that threads share, each with its thread. Atomic operations
    are not among them. -/
def writesAt : Events (Nat × Write) := fun ctx stmt active s =>
  match stmt with
  | .write view index x =>
    traceTurns (fun t => do
      let i ← int ctx t index
      let v ← value ctx t x
      store t view i v
      track ctx t view i true) (writeOf ctx view index x) active s
  | _ => []

end Run

/-- The writes of one thread. -/
def writesOf (t : Nat) (es : List (Nat × Write)) : List Write := (es.filter (·.1 == t)).map (·.2)

theorem writesOf_append (t : Nat) (es es' : List (Nat × Write)) :
    writesOf t (es ++ es') = writesOf t es ++ writesOf t es' := by
  simp [writesOf]

theorem writesOf_eq_nil {t : Nat} {es : List (Nat × Write)} (h : ∀ e ∈ es, e.1 ≠ t) : writesOf t es = [] := by
  simpa [writesOf] using h

/-- The slot of an element that is accessed. -/
def Location.slot (l : Location) : Slot := ⟨l.space, l.array, l.index.toInt.toNat⟩

/-- Threads that may write the same slot are of one wave. -/
def OneWave (ctx : GroupContext) (size : Nat) (own : Nat → Slot → Prop) : Prop :=
  ∀ t t' p, t < size → t' < size → own t p → own t' p → Run.waveOf ctx t' = Run.waveOf ctx t

/-- The threads of a group that start together, from some memory on. -/
structure Crowd where
  ctx : GroupContext
  /-- The memory at the start. -/
  store : Store
  /-- The slots that each thread may write. -/
  own : Nat → Slot → Prop
  /-- The number of threads of the group. -/
  size : Nat
  oneWave : ctx.checkRaces = true → OneWave ctx size own

namespace Crowd
open GroupState

/-- One of the threads. -/
def solo (C : Crowd) (t : Nat) : Solo := ⟨C.ctx, C.store, C.own, t⟩

def watch (C : Crowd) : Watch := ⟨C.ctx, C.size, fun _ => True⟩

/-- A thread may write what it owns, and read what no other thread may write. -/
def rights (C : Crowd) (hchecked : C.ctx.checkRaces = true) : C.watch.Rights where
  may t l isWrite := if isWrite then C.own t l.slot else (C.solo t).Keeps l.slot
  watched _ := trivial
  apart {t t' l isWrite} ht ht' hown hmay := by
    cases isWrite with
    | true => exact C.oneWave hchecked t t' l.slot ht ht' hown hmay
    | false =>
      by_cases e : t = t'
      · rw [e]
      · exact absurd hown (hmay t e)

/-- Where accesses are checked, those of this epoch were within the rights of the threads. -/
def Orderly (C : Crowd) (log : RaceLog) : Prop :=
  ∀ hchecked : C.ctx.checkRaces = true, C.watch.Respected (C.rights hchecked) log

/-- The state that the writes so far have led to. -/
structure Reached (C : Crowd) (past : List (Nat × Write)) (s : GroupState) : Prop where
  store : s.store = C.store.puts (past.map (·.2))
  owned : ∀ e ∈ past, C.own e.1 e.2.slot
  size : s.threads.size = C.size
  log : C.Orderly s.races

/-- Of the threads only some are different. -/
structure Frame (active : List Nat) (s s' : GroupState) : Prop where
  others : ∀ t, t ∉ active → s'.thread t = s.thread t
  stats : s'.stats = s.stats

theorem Frame.refl (active : List Nat) (s : GroupState) : Frame active s s := ⟨fun _ _ => rfl, rfl⟩

theorem Frame.trans {active : List Nat} {s s' s'' : GroupState} (h : Frame active s s') (h' : Frame active s' s'') :
    Frame active s s'' where
  others t ht := (h'.others t ht).trans (h.others t ht)
  stats := h'.stats.trans h.stats

theorem Frame.mono {active active' : List Nat} {s s' : GroupState} (h : Frame active s s')
    (hle : ∀ t ∈ active, t ∈ active') : Frame active' s s' where
  others t ht := h.others t fun h => ht (hle t h)
  stats := h.stats

/-- The computation takes the active threads from one claim to another, and its writes are theirs. -/
def Meets (C : Crowd) (active : List Nat) (P Q : Nat → Claim) (r : Run Unit)
    (writes : GroupState → List (Nat × Write)) : Prop :=
  ∀ past s, C.Reached past s → (∀ t ∈ active, P t (s.thread t) (writesOf t past)) →
    ∃ s', r s = .ok () s' ∧ C.Reached (past ++ writes s) s' ∧ (∀ e ∈ writes s, e.1 ∈ active) ∧
      (∀ t ∈ active, Q t (s'.thread t) (writesOf t (past ++ writes s))) ∧ Frame active s s'

variable {C : Crowd} {active : List Nat} {P Q R : Nat → Claim} {r r' : Run Unit}
  {writes writes' : GroupState → List (Nat × Write)}

namespace Meets

theorem pure (C : Crowd) (active : List Nat) (P : Nat → Claim) : C.Meets active P P (pure ()) fun _ => [] := by
  intro past s hs hP
  refine ⟨s, rfl, ?_, by simp, ?_, Frame.refl _ _⟩
  · rwa [List.append_nil]
  · rwa [List.append_nil]

theorem bind (h : C.Meets active P Q r writes) (h' : C.Meets active Q R r' writes') :
    C.Meets active P R (do r; r') fun s => writes s ++ Run.after r s fun _ s' => writes' s' := by
  intro past s hs hP
  obtain ⟨s₁, h₁, hs₁, hw₁, hQ, hf₁⟩ := h past s hs hP
  obtain ⟨s₂, h₂, hs₂, hw₂, hR, hf₂⟩ := h' _ s₁ hs₁ hQ
  dsimp only
  rw [Run.after_ok h₁, ← List.append_assoc]
  refine ⟨s₂, ?_, hs₂, ?_, hR, hf₁.trans hf₂⟩
  · rw [Run.bind_apply, h₁]
    exact h₂
  · intro e he
    rcases List.mem_append.mp he with he | he
    · exact hw₁ e he
    · exact hw₂ e he

theorem imp {P' Q' : Nat → Claim} (h : C.Meets active P Q r writes)
    (hP : ∀ t ∈ active, ∀ th ws, P' t th ws → P t th ws) (hQ : ∀ t ∈ active, ∀ th ws, Q t th ws → Q' t th ws) :
    C.Meets active P' Q' r writes := by
  intro past s hs hP'
  obtain ⟨s', h', hs', hw, hQ', hf⟩ := h past s hs fun t ht => hP t ht _ _ (hP' t ht)
  exact ⟨s', h', hs', hw, fun t ht => hQ t ht _ _ (hQ' t ht), hf⟩

/-- The threads that do not take part stay as they are. -/
theorem widen {active' : List Nat} {P' Q' : Nat → Claim} (h : C.Meets active P Q r writes)
    (hle : ∀ t ∈ active, t ∈ active') (hP : ∀ t ∈ active, ∀ th ws, P' t th ws → P t th ws)
    (hQ : ∀ t ∈ active, ∀ th ws, Q t th ws → Q' t th ws)
    (hrest : ∀ t ∈ active', t ∉ active → ∀ th ws, P' t th ws → Q' t th ws) : C.Meets active' P' Q' r writes := by
  intro past s hs hP'
  obtain ⟨s', h', hs', hw, hQ', hf⟩ := h past s hs fun t ht => hP t ht _ _ (hP' t (hle t ht))
  refine ⟨s', h', hs', fun e he => hle _ (hw e he), fun t ht => ?_, hf.mono hle⟩
  by_cases hmem : t ∈ active
  · exact hQ t hmem _ _ (hQ' t hmem)
  · have none : writesOf t (writes s) = [] := writesOf_eq_nil fun e he h => hmem (h ▸ hw e he)
    rw [writesOf_append, none, List.append_nil, hf.others t hmem]
    exact hrest t ht hmem _ _ (hP' t ht)

/-- Two sets of threads, one after the other. -/
theorem beside {active' all : List Nat} (h : C.Meets active P Q r writes) (h' : C.Meets active' P Q r' writes')
    (hall : ∀ t, t ∈ all ↔ t ∈ active ∨ t ∈ active') (hdisjoint : ∀ t ∈ active, t ∉ active') :
    C.Meets all P Q (do r; r') fun s => writes s ++ Run.after r s fun _ s' => writes' s' := by
  open Classical in
  refine bind (Q := fun t => if t ∈ active then Q t else P t) ?_ ?_
  · refine h.widen (fun t ht => (hall t).mpr (Or.inl ht)) (fun _ _ _ _ => id) (fun t ht th ws hQ => ?_)
      fun t _ ht th ws hP => ?_
    · rwa [if_pos ht]
    · rwa [if_neg ht]
  · refine h'.widen (fun t ht => (hall t).mpr (Or.inr ht)) (fun t ht th ws hP => ?_) (fun _ _ _ _ => id)
      fun t ht ht' th ws hQ => ?_
    · rwa [if_neg fun hmem => hdisjoint t hmem ht] at hP
    · rwa [if_pos (((hall t).mp ht).resolve_right ht')] at hQ

/-- The turns of the threads, one after another. -/
theorem turns {turn : Nat → Run Unit} {events : Nat → GroupState → List (Nat × Write)} :
    ∀ {active : List Nat}, (∀ t ∈ active, C.Meets [t] (fun _ => P t) (fun _ => Q t) (turn t) (events t)) →
      active.Nodup → C.Meets active P Q (active.forM turn) (Run.traceTurns turn events active)
  | [], _, _ => (pure C [] P).widen (by simp) (by simp) (by simp) (by simp)
  | t :: ts, h, hnd => by
    obtain ⟨hnt, hnd⟩ := List.nodup_cons.mp hnd
    have first : C.Meets [t] P Q (turn t) (events t) := (h t List.mem_cons_self).imp
      (fun t' ht' _ _ hP => by rwa [List.mem_singleton.mp ht'] at hP)
      fun t' ht' _ _ hQ => by rwa [List.mem_singleton.mp ht']
    exact first.beside (turns (fun t' ht' => h t' (List.mem_cons_of_mem t ht')) hnd) (by simp) (by simpa using hnt)

theorem turns_silent {turn : Nat → Run Unit}
    (h : ∀ t ∈ active, C.Meets [t] (fun _ => P t) (fun _ => Q t) (turn t) fun _ => [])
    (hnd : active.Nodup) : C.Meets active P Q (active.forM turn) fun _ => [] := by
  have := turns h hnd
  rwa [show Run.traceTurns turn (fun _ _ => []) active = fun _ => ([] : List (Nat × Write)) from
    funext fun s => Run.traceTurns_nil turn active s] at this

theorem countUp {body : Nat → Run Unit} {events : Nat → GroupState → List (Nat × Write)} {I : Nat → Nat → Claim} :
    ∀ {count first : Nat}, (∀ k, first ≤ k → k < first + count → C.Meets active (I k) (I (k + 1)) (body k) (events k)) →
      C.Meets active (I first) (I (first + count)) (Run.countUp body count first) (Run.traceUp body events count first)
  | 0, first, _ => pure C active (I first)
  | n + 1, first, h => by
    have rest : C.Meets active (I (first + 1)) (I (first + 1 + n)) _ _ :=
      countUp fun k hk hlt => h k (by omega) (by omega)
    rw [show first + 1 + n = first + (n + 1) by omega] at rest
    exact (h first (Nat.le_refl _) (by omega)).bind rest

end Meets
end Crowd
end SegKernel
