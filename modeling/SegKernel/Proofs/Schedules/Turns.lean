import SegKernel.Proofs.Execution.Turns
import SegKernel.Proofs.Schedules.Logs

/-! Turns of different threads can be exchanged where each thread is a wave of its own and no access
    races: what one thread does then depends on nothing that the other one changes. Only the log of
    accesses remembers the order of the turns. -/

namespace SegKernel

namespace Store

/-- Writes to different slots commute. -/
theorem put_comm (m : Store) {w w' : Write} (h : w.slot ≠ w'.slot) : (m.put w).put w' = (m.put w').put w := by
  have modify : ∀ (t : Memory) (a a' : Ident) (i i' : Nat) (x x' : UInt64), (a = a' → i ≠ i') →
      (t.modify a (·.put i x)).modify a' (·.put i' x') = (t.modify a' (·.put i' x')).modify a (·.put i x) := by
    intro t a a' i i' x x' hi
    refine Std.ExtTreeMap.ext_getElem? fun k => ?_
    simp only [Table.getElem?_modify]
    by_cases ha : a = k
    · by_cases ha' : a' = k
      · have hne := hi (ha.trans ha'.symm)
        simp [ha, ha', Function.comp_def, Buffer.put, Array.setIfInBounds_comm _ _ hne]
      · simp [ha, ha']
    · simp [ha]
  obtain ⟨⟨space, a, i⟩, x⟩ := w
  obtain ⟨⟨space', a', i'⟩, x'⟩ := w'
  have hi : space = space' → a = a' → i ≠ i' := by
    rintro rfl rfl rfl
    exact h rfl
  cases space <;> cases space' <;> simp only [put] <;> rw [modify _ _ _ _ _ _ _ (hi rfl)]

theorem position_inj {m : Store} {view : View} {a b : Int64} {p : Nat} (ha : m.position view a = .ok p)
    (hb : m.position view b = .ok p) : a = b := by
  unfold position at *
  split at ha
  · rename_i buffer hbuffer
    rw [hbuffer] at hb
    dsimp only at hb
    unfold Buffer.position at *
    split at ha
    · cases ha
    · rename_i hwidth
      rw [if_neg hwidth] at hb
      split at ha
      · rename_i hrange
        split at hb
        · rename_i hrange'
          cases ha
          have := Except.ok.inj hb
          exact Int64.toInt_inj.mp (by omega)
        · cases hb
      · cases ha
  · cases ha

end Store

namespace GroupState
variable {s : GroupState} {t t' : Nat} {f g : Thread → Thread}

/-- The group with another memory. -/
def withStore (s : GroupState) (m : Store) : GroupState := { s with shared := m.shared, global := m.global }

theorem modifyBuffer_eq_withStore {view : View} (h : view.space ≠ .thread) (i : Nat) (bits : UInt64) :
    s.modifyBuffer t view (·.put i bits) = s.withStore (s.store.put ⟨view.slot i, bits⟩) := by
  unfold modifyBuffer withStore Store.put store
  cases hs : view.space with
  | global => simp [hs]
  | shared => simp [hs]
  | thread => exact absurd hs h

theorem modifyThread_comm (h : t ≠ t') :
    (s.modifyThread t f).modifyThread t' g = (s.modifyThread t' g).modifyThread t f := by
  have threads : (s.threads.modify t f).modify t' g = (s.threads.modify t' g).modify t f := by
    refine Array.ext_getElem? fun i => ?_
    simp only [Array.getElem?_modify]
    by_cases ht : t = i
    · have ht' : t' ≠ i := fun e => h (ht.trans e.symm)
      simp [ht, ht']
    · simp [ht]
  unfold modifyThread
  dsimp only
  rw [threads]

/-- The same state, up to the order of readers in the log of accesses. -/
def Alike (a b : GroupState) : Prop := ∃ races, a.races.Alike races ∧ b = { a with races }

theorem Alike.refl (a : GroupState) : Alike a a := ⟨a.races, .refl _, rfl⟩

theorem Alike.trans {a b c : GroupState} (h : Alike a b) (h' : Alike b c) : Alike a c := by
  obtain ⟨m, hm, rfl⟩ := h
  obtain ⟨n, hn, rfl⟩ := h'
  exact ⟨n, hm.trans hn, rfl⟩

theorem Alike.threads {a b : GroupState} (h : Alike a b) : b.threads = a.threads := by
  obtain ⟨m, -, rfl⟩ := h
  rfl

end GroupState

namespace Run
open GroupState
variable {ctx : GroupContext} {s s' : GroupState} {t : Nat} {N : Nat} {K : Ident → Prop}

/-- Accesses are checked, and each of the first `N` threads is a wave of its own. -/
structure Solitary (ctx : GroupContext) (N : Nat) : Prop where
  checked : ctx.checkRaces = true
  waves : ∀ t < N, ∀ t' < N, t ≠ t' → waveOf ctx t ≠ waveOf ctx t'

/-- No thread has a variable of `K`. -/
def Lacks (K : Ident → Prop) (s : GroupState) : Prop := ∀ t x, K x → (s.thread t).scalars[x]? = none

/-- Turns whose order does not matter. -/
structure Exchangeable (N : Nat) (K : Ident → Prop) (turn : Nat → Run Unit) : Prop where
  keeps : ∀ t a a', Lacks K a → turn t a = .ok () a' → Lacks K a'
  respects : ∀ t a b a', Lacks K a → Alike a b → turn t a = .ok () a' → ∃ b', turn t b = .ok () b' ∧ Alike a' b'
  swaps : ∀ t < N, ∀ t' < N, ∀ a a₁ a₂, t ≠ t' → Lacks K a → turn t a = .ok () a₁ → turn t' a₁ = .ok () a₂ →
    ∃ b₁ b₂, turn t' a = .ok () b₁ ∧ turn t b₁ = .ok () b₂ ∧ Alike a₂ b₂

theorem lacks_of_threads {a b : GroupState} (h : b.threads = a.threads) (ha : Lacks K a) : Lacks K b := by
  intro t x hx
  rw [thread_of_threads h]
  exact ha t x hx

/-! ### Turns that concern one thread -/

/-- What a turn does depends on its thread alone, and changes nothing else. -/
def Own (turn : Nat → Run Unit) (F : Nat → Thread → Thread → Prop) : Prop :=
  ∀ t s s', turn t s = .ok () s' ↔ ∃ th, F t (s.thread t) th ∧ s' = s.modifyThread t fun _ => th

theorem Own.exchangeable {turn : Nat → Run Unit} {F : Nat → Thread → Thread → Prop} (h : Own turn F)
    (hnew : ∀ t th th' x, F t th th' → K x → th.scalars[x]? = none → th'.scalars[x]? = none) :
    Exchangeable N K turn where
  keeps t a a' ha hturn := by
    obtain ⟨th, hF, rfl⟩ := (h t a a').mp hturn
    intro t' x hx
    rw [thread_modifyThread]
    split
    · exact hnew t _ _ x hF hx (ha t x hx)
    · exact ha t' x hx
  respects t a b a' _ hab hturn := by
    obtain ⟨races, hraces, rfl⟩ := hab
    obtain ⟨th, hF, rfl⟩ := (h t a a').mp hturn
    exact ⟨_, (h t _ _).mpr ⟨th, hF, rfl⟩, races, hraces, rfl⟩
  swaps t _ t' _ a a₁ a₂ hne _ hturn hturn' := by
    obtain ⟨th, hF, rfl⟩ := (h t a a₁).mp hturn
    obtain ⟨th', hF', rfl⟩ := (h t' _ a₂).mp hturn'
    rw [thread_modifyThread_of_ne _ _ (Ne.symm hne)] at hF'
    refine ⟨_, _, (h t' _ _).mpr ⟨th', hF', rfl⟩, (h t _ _).mpr ⟨th, ?_, rfl⟩, ?_⟩
    · rwa [thread_modifyThread_of_ne _ _ hne]
    · rw [modifyThread_comm hne]
      exact .refl _

theorem modifyThread_const (s : GroupState) (t : Nat) (f : Thread → Thread) :
    s.modifyThread t f = s.modifyThread t fun _ => f (s.thread t) := by
  have threads : s.threads.modify t f = s.threads.modify t fun _ => f (s.thread t) := by
    refine Array.ext_getElem? fun i => ?_
    rw [Array.getElem?_modify, Array.getElem?_modify]
    split
    · rename_i h
      subst h
      unfold thread
      rw [Array.getD_eq_getD_getElem?]
      cases s.threads[t]? <;> rfl
    · rfl
  unfold modifyThread
  rw [threads]

theorem bind_const (s : GroupState) (t : Nat) (name : Ident) (v : Value) :
    s.bind t name v = s.modifyThread t fun _ => (s.thread t).bind name v := modifyThread_const s t _

theorem own_bind (f : Nat → Ident) (v : Nat → Value) :
    Own (fun t => modify fun s => s.bind t (f t) (v t)) fun t th th' => th' = th.bind (f t) (v t) := by
  intro t s s'
  rw [modify_eq_ok, bind_const]
  constructor
  · rintro rfl
    exact ⟨_, rfl, rfl⟩
  · rintro ⟨_, rfl, rfl⟩
    rfl

theorem lacks_bind {th : Thread} {name x : Ident} {v : Value} (hname : ¬K name) (hx : K x)
    (h : th.scalars[x]? = none) : (th.bind name v).scalars[x]? = none := by
  have hne : name ≠ x := fun e => hname (e ▸ hx)
  unfold Thread.bind
  dsimp only
  rw [Table.getElem?_insert_of_ne _ _ hne]
  exact h

/-- A variable of each thread gets a value. -/
theorem exchangeable_bind {name : Ident} (hname : ¬K name) (v : Nat → Value) :
    Exchangeable N K fun t => modify fun s => s.bind t name (v t) := by
  refine (own_bind (fun _ => name) v).exchangeable fun t th th' x hF hx hth => ?_
  subst hF
  exact lacks_bind hname hx hth

theorem exchangeable_set {name : Ident} (hname : ¬K name) (x : Exp) :
    Exchangeable N K fun t => (do let v ← value ctx t x; assign t name v : Run Unit) := by
  have own : Own (fun t => (do let v ← value ctx t x; assign t name v : Run Unit)) fun _ th th' =>
      ∃ v, x.eval (th.scope ctx.captured) = .ok v ∧
        (∃ old, th.scalars[name]? = some old ∧ old.type = v.type) ∧ th' = th.bind name v := by
    intro t s s'
    rw [set_eq_ok]
    constructor
    · rintro ⟨v, hv, hold, rfl⟩
      exact ⟨_, ⟨v, hv, hold, rfl⟩, bind_const _ _ _ _⟩
    · rintro ⟨_, ⟨v, hv, hold, rfl⟩, rfl⟩
      exact ⟨v, hv, hold, (bind_const _ _ _ _).symm⟩
  refine own.exchangeable fun t th th' y hF hy hth => ?_
  obtain ⟨v, -, -, rfl⟩ := hF
  exact lacks_bind hname hy hth

/-! ### Accesses -/

theorem exchangeable_read_own {dest : Ident} {view : View} {index : Exp} (hdest : ¬K dest) (h : view.space = .thread) :
    Exchangeable N K (readTurn ctx dest view index) := by
  have own : Own (readTurn ctx dest view index) fun _ th th' =>
      ∃ i b v, index.evalInt (th.scope ctx.captured) = .ok i ∧ th.arrays[view.array]? = some b ∧ b.load view i = .ok v ∧
        (∃ old, th.scalars[dest]? = some old ∧ old.type = v.type) ∧ th' = th.bind dest v := by
    intro t s s'
    simp only [readTurn, bind_eq_ok, int_eq_ok, load_eq_ok, track_eq_ok_of_own h, assign_eq_ok, element,
      buffer?_of_thread h]
    constructor
    · rintro ⟨i, s₁, ⟨hi, rfl⟩, v, s₂, ⟨hv, rfl⟩, -, s₃, rfl, hold, rfl⟩
      split at hv
      · rename_i b hb
        exact ⟨_, ⟨i, b, v, hi, hb, hv, hold, rfl⟩, bind_const _ _ _ _⟩
      · cases hv
    · rintro ⟨_, ⟨i, b, v, hi, hb, hv, hold, rfl⟩, rfl⟩
      exact ⟨i, s, ⟨hi, rfl⟩, v, s, ⟨by rwa [hb], rfl⟩, (), s, rfl, hold, (bind_const _ _ _ _).symm⟩
  refine own.exchangeable fun t th th' y hF hy hth => ?_
  obtain ⟨i, b, v, -, -, -, -, rfl⟩ := hF
  exact lacks_bind hdest hy hth

theorem exchangeable_write_own {view : View} {index x : Exp} (h : view.space = .thread) :
    Exchangeable N K (writeTurn ctx view index x) := by
  have own : Own (writeTurn ctx view index x) fun _ th th' =>
      ∃ i v b p, index.evalInt (th.scope ctx.captured) = .ok i ∧ x.eval (th.scope ctx.captured) = .ok v ∧
        v.type = view.type ∧ th.arrays[view.array]? = some b ∧ b.position view i = .ok p ∧
        th' = { th with arrays := th.arrays.modify view.array (·.put p v.toBits) } := by
    intro t s s'
    have modified : ∀ p bits, s.modifyBuffer t view (·.put p bits) =
        s.modifyThread t fun _ => { s.thread t with arrays := (s.thread t).arrays.modify view.array (·.put p bits) } := by
      intro p bits
      unfold modifyBuffer
      rw [h]
      dsimp only
      rw [modifyThread_const]
    simp only [writeTurn, bind_eq_ok, int_eq_ok, value_eq_ok, store_eq_ok, track_eq_ok_of_own h, storable_eq_ok,
      buffer?_of_thread h]
    constructor
    · rintro ⟨i, s₁, ⟨hi, rfl⟩, v, s₂, ⟨hv, rfl⟩, -, s₃, ⟨p, ⟨htype, b, hb, hp⟩, rfl⟩, rfl⟩
      exact ⟨_, ⟨i, v, b, p, hi, hv, htype, hb, hp, rfl⟩, modified p _⟩
    · rintro ⟨_, ⟨i, v, b, p, hi, hv, htype, hb, hp, rfl⟩, rfl⟩
      exact ⟨i, s, ⟨hi, rfl⟩, v, s, ⟨hv, rfl⟩, (), _, ⟨p, ⟨htype, b, hb, hp⟩, rfl⟩, (modified p _).symm⟩
  refine own.exchangeable fun t th th' y hF hy hth => ?_
  obtain ⟨i, v, b, p, -, -, -, -, -, rfl⟩ := hF
  exact hth

theorem readTurn_eq_ok {dest : Ident} {view : View} {index : Exp} (hchecked : ctx.checkRaces = true)
    (h : view.space ≠ .thread) : readTurn ctx dest view index t s = .ok () s' ↔
      ∃ i v races, index.evalInt ((s.thread t).scope ctx.captured) = .ok i ∧ s.store.load view i = .ok v ∧
        s.races.record ⟨view.space, view.array, i⟩ (waveOf ctx t) false = .ok races ∧
        (∃ old, (s.thread t).scalars[dest]? = some old ∧ old.type = v.type) ∧
        s' = { s with races }.modifyThread t (·.bind dest v) := by
  simp only [readTurn, bind_eq_ok, int_eq_ok, load_eq_ok, track_eq_ok_of_checked hchecked h, assign_eq_ok,
    element_of_shared h]
  constructor
  · rintro ⟨i, s₁, ⟨hi, rfl⟩, v, s₂, ⟨hv, rfl⟩, -, s₃, ⟨races, hraces, rfl⟩, hold, rfl⟩
    exact ⟨i, v, races, hi, hv, hraces, hold, rfl⟩
  · rintro ⟨i, v, races, hi, hv, hraces, hold, rfl⟩
    exact ⟨i, s, ⟨hi, rfl⟩, v, s, ⟨hv, rfl⟩, (), _, ⟨races, hraces, rfl⟩, hold, rfl⟩

theorem writeTurn_eq_ok {view : View} {index x : Exp} (hchecked : ctx.checkRaces = true) (h : view.space ≠ .thread) :
    writeTurn ctx view index x t s = .ok () s' ↔
      ∃ i v p races, index.evalInt ((s.thread t).scope ctx.captured) = .ok i ∧
        x.eval ((s.thread t).scope ctx.captured) = .ok v ∧ v.type = view.type ∧ s.store.position view i = .ok p ∧
        s.races.record ⟨view.space, view.array, i⟩ (waveOf ctx t) true = .ok races ∧
        s' = { s.withStore (s.store.put ⟨view.slot p, v.toBits⟩) with races } := by
  have hstorable : ∀ {s : GroupState} {i : Int64} {v : Value} {p : Nat},
      storable s t view i v = .ok p ↔ v.type = view.type ∧ s.store.position view i = .ok p := by
    intro s i v p
    rw [storable_eq_ok, buffer?_of_shared h]
    unfold Store.position
    cases s.store.buffer? view.space view.array <;> simp
  simp only [writeTurn, bind_eq_ok, int_eq_ok, value_eq_ok, store_eq_ok, track_eq_ok_of_checked hchecked h, hstorable,
    modifyBuffer_eq_withStore h]
  constructor
  · rintro ⟨i, s₁, ⟨hi, rfl⟩, v, s₂, ⟨hv, rfl⟩, -, s₃, ⟨p, ⟨htype, hp⟩, rfl⟩, races, hraces, rfl⟩
    exact ⟨i, v, p, races, hi, hv, htype, hp, hraces, rfl⟩
  · rintro ⟨i, v, p, races, hi, hv, htype, hp, hraces, rfl⟩
    exact ⟨i, s, ⟨hi, rfl⟩, v, s, ⟨hv, rfl⟩, (), _, ⟨p, ⟨htype, hp⟩, rfl⟩, races, hraces, rfl⟩

theorem exchangeable_read (hctx : Solitary ctx N) {dest : Ident} (view : View) (index : Exp) (hdest : ¬K dest) :
    Exchangeable N K (readTurn ctx dest view index) := by
  by_cases h : view.space = .thread
  · exact exchangeable_read_own hdest h
  -- Reads of one place commute in the log, since two waves may read it.
  have turn : ∀ {t s s'}, readTurn ctx dest view index t s = .ok () s' ↔ _ := readTurn_eq_ok hctx.checked h
  refine ⟨fun t a a' ha hturn => ?_, fun t a b a' _ hab hturn => ?_, fun t ht t' ht' a a₁ a₂ hne _ hturn hturn' => ?_⟩
  · obtain ⟨i, v, races, -, -, -, -, rfl⟩ := turn.mp hturn
    intro t' x hx
    rw [thread_modifyThread]
    split
    · exact lacks_bind hdest hx (ha t x hx)
    · exact ha t' x hx
  · obtain ⟨log, hlog, rfl⟩ := hab
    obtain ⟨i, v, races, hi, hv, hraces, hold, rfl⟩ := turn.mp hturn
    obtain ⟨races', hraces', halike⟩ := hlog.record hraces
    exact ⟨_, turn.mpr ⟨i, v, races', hi, hv, hraces', hold, rfl⟩, races', halike, rfl⟩
  · obtain ⟨i, v, races, hi, hv, hraces, hold, rfl⟩ := turn.mp hturn
    obtain ⟨i', v', races', hi', hv', hraces', hold', rfl⟩ := turn.mp hturn'
    rw [thread_modifyThread_of_ne _ _ (Ne.symm hne)] at hi' hold'
    obtain ⟨log, log', hlog, hlog', halike⟩ := RaceLog.record_swap (hctx.waves t ht t' ht' hne) hraces hraces'
    refine ⟨_, _, turn.mpr ⟨i', v', log, hi', hv', hlog, hold', rfl⟩, turn.mpr ⟨i, v, log', ?_, hv, hlog', ?_, rfl⟩, ?_⟩
    · rw [thread_modifyThread_of_ne _ _ hne]
      exact hi
    · rw [thread_modifyThread_of_ne _ _ hne]
      exact hold
    · refine ⟨log', halike, ?_⟩
      exact modifyThread_comm (s := { a with races := log' }) (f := (·.bind dest v')) (g := (·.bind dest v))
        (Ne.symm hne)

theorem exchangeable_write (hctx : Solitary ctx N) (view : View) (index x : Exp) :
    Exchangeable N K (writeTurn ctx view index x) := by
  by_cases h : view.space = .thread
  · exact exchangeable_write_own h
  have turn : ∀ {t s s'}, writeTurn ctx view index x t s = .ok () s' ↔ _ := writeTurn_eq_ok hctx.checked h
  refine ⟨fun t a a' ha hturn => ?_, fun t a b a' _ hab hturn => ?_, fun t ht t' ht' a a₁ a₂ hne _ hturn hturn' => ?_⟩
  · obtain ⟨i, v, p, races, -, -, -, -, -, rfl⟩ := turn.mp hturn
    exact lacks_of_threads rfl ha
  · obtain ⟨log, hlog, rfl⟩ := hab
    obtain ⟨i, v, p, races, hi, hv, htype, hp, hraces, rfl⟩ := turn.mp hturn
    obtain ⟨races', hraces', halike⟩ := hlog.record hraces
    exact ⟨_, turn.mpr ⟨i, v, p, races', hi, hv, htype, hp, hraces', rfl⟩, races', halike, rfl⟩
  · obtain ⟨i, v, p, races, hi, hv, htype, hp, hraces, rfl⟩ := turn.mp hturn
    obtain ⟨i', v', p', races', hi', hv', htype', hp', hraces', rfl⟩ := turn.mp hturn'
    have hwaves := hctx.waves t ht t' ht' hne
    obtain ⟨log, log', hlog, hlog', halike⟩ := RaceLog.record_swap hwaves hraces hraces'
    have position : ∀ (w : Write) (index : Int64), (a.store.put w).position view index = a.store.position view index :=
      fun w index => Store.position_puts [w] view index
    have hp' : a.store.position view i' = .ok p' := (position _ i').symm.trans hp'
    -- Where two waves write in one epoch, they write different elements.
    have hslots : (view.slot p) ≠ (view.slot p') := by
      intro e
      have hpp : p = p' := congrArg Slot.position e
      have hii : i = i' := Store.position_inj hp (hpp ▸ hp')
      exact RaceLog.record_write_ne hwaves hraces hraces' (by rw [hii])
    refine ⟨_, _, turn.mpr ⟨i', v', p', log, hi', hv', htype', hp', hlog, rfl⟩,
      turn.mpr ⟨i, v, p, log', hi, hv, htype, (position _ i).trans hp, hlog', rfl⟩, log', halike, ?_⟩
    have stores : (a.store.put ⟨view.slot p, v.toBits⟩).put ⟨view.slot p', v'.toBits⟩ =
        (a.store.put ⟨view.slot p', v'.toBits⟩).put ⟨view.slot p, v.toBits⟩ := a.store.put_comm hslots
    show ({ a.withStore ((a.store.put _).put _) with races := log' } : GroupState) =
      { a.withStore ((a.store.put _).put _) with races := log' }
    rw [← stores]

/-! ### Declarations of arrays -/

theorem exchangeable_declareArray {name : Ident} {type : ScalarType} {length : Exp} {space : Space}
    (hlength : space = .shared → ∀ x ∈ length.occurrences, K x) :
    Exchangeable N K fun t => declareArray ctx t name type length space := by
  cases space with
  | thread =>
    have own : Own (fun t => declareArray ctx t name type length .thread) fun _ th th' =>
        ∃ i n, length.evalInt (th.scope ctx.captured) = .ok i ∧ arrayLength name i = .ok n ∧
          th' = { th with arrays := th.arrays.insert name (.zeroed type n) } := by
      intro t s s'
      have declared : ∀ n, s.declareOwn t name type n = s.modifyThread t fun _ =>
          { s.thread t with arrays := (s.thread t).arrays.insert name (.zeroed type n) } := fun n =>
        modifyThread_const s t _
      simp only [declareArray, bind_eq_ok, int_eq_ok, evaluate_eq_ok, modify_eq_ok]
      constructor
      · rintro ⟨i, s₁, ⟨hi, rfl⟩, n, s₂, ⟨hn, rfl⟩, rfl⟩
        exact ⟨_, ⟨i, n, hi, hn, rfl⟩, declared n⟩
      · rintro ⟨_, ⟨i, n, hi, hn, rfl⟩, rfl⟩
        exact ⟨i, s, ⟨hi, rfl⟩, n, s, ⟨hn, rfl⟩, (declared n).symm⟩
    refine own.exchangeable fun t th th' y hF hy hth => ?_
    obtain ⟨i, n, -, -, rfl⟩ := hF
    exact hth
  | global =>
    have fails : ∀ t s s', declareArray ctx t name type length .global s ≠ .ok () s' := by
      intro t s s' h
      simp only [declareArray, bind_eq_ok, throw_ne_ok] at h
      simp at h
    exact ⟨fun t a a' _ h => absurd h (fails t a a'), fun t a b a' _ _ h => absurd h (fails t a a'),
      fun t _ t' _ a a₁ a₂ _ _ h => absurd h (fails t a a₁)⟩
  | shared =>
    -- No thread has a variable of the length, so all of them declare the same array.
    have turn : ∀ {t s s'}, Lacks K s → (declareArray ctx t name type length .shared s = .ok () s' ↔
        ∃ i n, length.evalInt (ctx.captured[·]?) = .ok i ∧ arrayLength name i = .ok n ∧
          s' = s.declareShared name type n) := by
      intro t s s' hs
      have hscope : length.evalInt (s.scope ctx t) = length.evalInt (ctx.captured[·]?) := by
        unfold Exp.evalInt
        rw [Exp.eval_congr fun y hy => ?_]
        rw [scope_eq, Thread.scope, hs t y (hlength rfl y hy)]
      simp only [declareArray, bind_eq_ok, int_eq_ok, evaluate_eq_ok, modify_eq_ok, hscope]
      constructor
      · rintro ⟨i, s₁, ⟨hi, rfl⟩, n, s₂, ⟨hn, rfl⟩, rfl⟩
        exact ⟨i, n, hi, hn, rfl⟩
      · rintro ⟨i, n, hi, hn, rfl⟩
        exact ⟨i, s, ⟨hi, rfl⟩, n, s, ⟨hn, rfl⟩, rfl⟩
    have keeps : ∀ t a a', Lacks K a → declareArray ctx t name type length .shared a = .ok () a' → Lacks K a' := by
      intro t a a' ha h
      obtain ⟨i, n, -, -, rfl⟩ := (turn ha).mp h
      exact lacks_of_threads (declareShared_threads _ _ _ _) ha
    refine ⟨keeps, fun t a b a' ha hab h => ?_, fun t _ t' _ a a₁ a₂ _ ha h h' => ?_⟩
    · obtain ⟨log, hlog, rfl⟩ := hab
      obtain ⟨i, n, hi, hn, rfl⟩ := (turn ha).mp h
      have hb : Lacks K { a with races := log } := lacks_of_threads rfl ha
      refine ⟨_, (turn hb).mpr ⟨i, n, hi, hn, rfl⟩, log, ?_, ?_⟩
      · unfold declareShared
        split <;> exact hlog
      · unfold declareShared
        dsimp only
        split <;> rfl
    · have ha₁ := keeps t a a₁ ha h
      obtain ⟨i, n, hi, hn, rfl⟩ := (turn ha).mp h
      exact ⟨_, a₂, (turn ha).mpr ⟨i, n, hi, hn, rfl⟩, (turn ha₁).mpr ((turn ha₁).mp h'), .refl _⟩

end Run
end SegKernel
