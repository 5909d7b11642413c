import SegKernel.Proofs.Execution.Steps
import SegKernel.Proofs.Execution.Threads

/-! The memory that the threads of a group share, as slots that hold bits. A write changes the bits of
    one slot, and no write changes the type or the length of an array. -/

namespace SegKernel

/-- An element of an array that threads share. -/
structure Slot where
  space : Space
  array : Ident
  position : Nat
deriving DecidableEq

/-- The slot of an element. -/
abbrev View.slot (view : View) (i : Nat) : Slot := ⟨view.space, view.array, i⟩

/-- New bits for a slot. -/
structure Write where
  slot : Slot
  bits : UInt64
deriving DecidableEq

/-- The memory that the threads of a group share. -/
structure Store where
  shared : Memory
  global : Memory

namespace Store

def buffer? (m : Store) (space : Space) (array : Ident) : Option Buffer :=
  match space with
  | .global => m.global[array]?
  | .shared => m.shared[array]?
  | .thread => none

def put (m : Store) (w : Write) : Store :=
  match w.slot.space with
  | .global => { m with global := m.global.modify w.slot.array (·.put w.slot.position w.bits) }
  | .shared => { m with shared := m.shared.modify w.slot.array (·.put w.slot.position w.bits) }
  | .thread => m

/-- The memory after some writes, one after another. -/
def puts (m : Store) (ws : List Write) : Store := ws.foldl put m

/-- The bits at a slot. -/
def bits? (m : Store) (p : Slot) : Option UInt64 := (m.buffer? p.space p.array).bind (·.bits[p.position]?)

/-- The type and the length of an array. -/
def layout? (m : Store) (space : Space) (array : Ident) : Option (ScalarType × Nat) :=
  (m.buffer? space array).map fun b => (b.type, b.bits.size)

/-- The position that an access through a view addresses. -/
def position (m : Store) (view : View) (index : Int64) : Except Fault Nat :=
  match m.buffer? view.space view.array with
  | some b => b.position view index
  | none => .error (.unknownArray view.array)

def load (m : Store) (view : View) (index : Int64) : Except Fault Value :=
  match m.buffer? view.space view.array with
  | some b => b.load view index
  | none => .error (.unknownArray view.array)

variable {m m' : Store}

@[simp] theorem puts_nil : m.puts [] = m := rfl

@[simp] theorem puts_cons (w : Write) (ws : List Write) : m.puts (w :: ws) = (m.put w).puts ws := rfl

theorem puts_append (ws ws' : List Write) : m.puts (ws ++ ws') = (m.puts ws).puts ws' := List.foldl_append

theorem buffer?_put (w : Write) (space : Space) (array : Ident) :
    (m.put w).buffer? space array =
      if w.slot.space = space ∧ w.slot.array = array then
        (m.buffer? space array).map (·.put w.slot.position w.bits)
      else m.buffer? space array := by
  obtain ⟨⟨wspace, warray, position⟩, bits⟩ := w
  cases wspace <;> cases space <;> simp [put, buffer?, Table.getElem?_modify]

theorem layout?_put (w : Write) (space : Space) (array : Ident) :
    (m.put w).layout? space array = m.layout? space array := by
  unfold layout?
  rw [buffer?_put]
  split
  · cases m.buffer? space array with
    | none => rfl
    | some b => simp [Buffer.put]
  · rfl

/-- Writes keep the types and the lengths of all arrays. -/
theorem layout?_puts (ws : List Write) (space : Space) (array : Ident) :
    (m.puts ws).layout? space array = m.layout? space array := by
  induction ws generalizing m with
  | nil => rfl
  | cons w ws ih => rw [puts_cons, ih, layout?_put]

theorem bits?_put (w : Write) (p : Slot) :
    (m.put w).bits? p = if w.slot = p then (m.bits? p).map fun _ => w.bits else m.bits? p := by
  obtain ⟨space, array, position⟩ := p
  unfold bits?
  rw [buffer?_put]
  by_cases h : w.slot.space = space ∧ w.slot.array = array
  · rw [if_pos h]
    obtain ⟨rfl, rfl⟩ := h
    dsimp only
    cases m.buffer? w.slot.space w.slot.array with
    | none => simp
    | some b =>
      by_cases hp : w.slot.position = position
      · subst hp
        by_cases hlt : w.slot.position < b.bits.size
        · simp [Buffer.put, hlt]
        · simp [Buffer.put, hlt]
      · have hne : w.slot ≠ ⟨w.slot.space, w.slot.array, position⟩ := fun e => hp (congrArg Slot.position e)
        simp [Buffer.put, hp, hne]
  · rw [if_neg h, if_neg]
    intro e
    exact h ⟨congrArg Slot.space e, congrArg Slot.array e⟩

/-- A slot to which nothing is written keeps its bits. -/
theorem bits?_puts_of_forall_ne {ws : List Write} {p : Slot} (h : ∀ w ∈ ws, w.slot ≠ p) :
    (m.puts ws).bits? p = m.bits? p := by
  induction ws generalizing m with
  | nil => rfl
  | cons w ws ih =>
    rw [puts_cons, ih fun w' hw' => h w' (List.mem_cons_of_mem w hw'), bits?_put, if_neg (h w List.mem_cons_self)]

/-- Only the writes to a slot decide its bits. -/
theorem bits?_puts_filter {ι : Type} (q : ι × Write → Bool) {p : Slot} (es : List (ι × Write))
    (h : ∀ e ∈ es, e.2.slot = p → q e = true) :
    (m.puts ((es.filter q).map (·.2))).bits? p = (m.puts (es.map (·.2))).bits? p := by
  have agree : ∀ (es : List (ι × Write)) (m m' : Store), m.bits? p = m'.bits? p →
      (∀ e ∈ es, e.2.slot = p → q e = true) →
      (m.puts ((es.filter q).map (·.2))).bits? p = (m'.puts (es.map (·.2))).bits? p := by
    intro es
    induction es with
    | nil => exact fun _ _ h _ => h
    | cons e es ih =>
      intro m m' hm h
      have hrest : ∀ e' ∈ es, e'.2.slot = p → q e' = true := fun e' he' => h e' (List.mem_cons_of_mem e he')
      rw [List.filter_cons, List.map_cons, puts_cons]
      split
      · rw [List.map_cons, puts_cons]
        exact ih _ _ (by rw [bits?_put, bits?_put, hm]) hrest
      · rename_i hq
        have hne : e.2.slot ≠ p := fun he => hq (h e List.mem_cons_self he)
        exact ih _ _ (by rw [bits?_put, if_neg hne, hm]) hrest
  exact agree es m m rfl h

/-- What writes leave at a slot depends on what was there before, and not on other slots. -/
theorem bits?_puts_congr {p : Slot} (h : m.bits? p = m'.bits? p) (ws : List Write) :
    (m.puts ws).bits? p = (m'.puts ws).bits? p := by
  induction ws generalizing m m' with
  | nil => exact h
  | cons w ws ih => exact ih (by rw [bits?_put, bits?_put, h])

/-- A slot to which one write goes holds its bits. -/
theorem bits?_puts_of_mem {ws : List Write} {w : Write} (hw : w ∈ ws) (hone : ∀ w' ∈ ws, w'.slot = w.slot → w' = w) :
    (m.puts ws).bits? w.slot = (m.bits? w.slot).map fun _ => w.bits := by
  induction ws generalizing m with
  | nil => cases hw
  | cons w₀ ws ih =>
    rw [puts_cons]
    by_cases hlater : ∃ w' ∈ ws, w'.slot = w.slot
    · obtain ⟨w', hw', hslot⟩ := hlater
      obtain rfl := hone w' (List.mem_cons_of_mem w₀ hw') hslot
      rw [ih hw' fun w hw => hone w (List.mem_cons_of_mem w₀ hw), bits?_put]
      split
      · rw [Option.map_map]
        rfl
      · rfl
    · have hother : ∀ w' ∈ ws, w'.slot ≠ w.slot := fun w' hw' e => hlater ⟨w', hw', e⟩
      rcases List.mem_cons.mp hw with rfl | hw
      · rw [bits?_puts_of_forall_ne hother, bits?_put, if_pos rfl]
      · exact absurd rfl (hother w hw)

/-- An array is what its layout and its bits say. -/
theorem buffer?_eq {space : Space} {array : Ident} (hlayout : m'.layout? space array = m.layout? space array)
    (hbits : ∀ i, m'.bits? ⟨space, array, i⟩ = m.bits? ⟨space, array, i⟩) :
    m'.buffer? space array = m.buffer? space array := by
  unfold layout? at hlayout
  unfold bits? at hbits
  cases hm : m.buffer? space array with
  | none =>
    rw [hm] at hlayout
    exact Option.map_eq_none_iff.mp hlayout
  | some b =>
    rw [hm] at hlayout
    dsimp only at hbits
    rw [hm] at hbits
    obtain ⟨b', hb', e⟩ := Option.map_eq_some_iff.mp hlayout
    rw [hb'] at hbits ⊢
    obtain ⟨type, bits⟩ := b
    obtain ⟨type', bits'⟩ := b'
    obtain rfl : type' = type := congrArg Prod.fst e
    exact congrArg (fun bits => some (Buffer.mk type' bits)) (Array.ext_getElem? hbits)

/-- Memories with the same layouts and bits are equal. -/
theorem ext_bits? (hlayout : ∀ space array, m'.layout? space array = m.layout? space array)
    (hbits : ∀ p, m'.bits? p = m.bits? p) : m' = m := by
  obtain ⟨shared, global⟩ := m
  obtain ⟨shared', global'⟩ := m'
  have hshared : shared' = shared := Std.ExtTreeMap.ext_getElem? fun array =>
    buffer?_eq (hlayout .shared array) fun i => hbits ⟨.shared, array, i⟩
  have hglobal : global' = global := Std.ExtTreeMap.ext_getElem? fun array =>
    buffer?_eq (hlayout .global array) fun i => hbits ⟨.global, array, i⟩
  rw [hshared, hglobal]

/-- The same writes leave the same memory in any order, if each slot is written in one way. -/
theorem puts_congr {ws ws' : List Write} (h : ∀ w, w ∈ ws ↔ w ∈ ws')
    (hone : ∀ w ∈ ws, ∀ w' ∈ ws, w.slot = w'.slot → w = w') :
    m.puts ws = m.puts ws' := by
  refine ext_bits? (fun space array => by rw [layout?_puts, layout?_puts]) fun p => ?_
  by_cases hp : ∃ w ∈ ws, w.slot = p
  · obtain ⟨w, hw, rfl⟩ := hp
    rw [bits?_puts_of_mem hw fun w' hw' => hone w' hw' w hw,
      bits?_puts_of_mem ((h w).mp hw) fun w' hw' => hone w' ((h w').mpr hw') w hw]
  · rw [bits?_puts_of_forall_ne fun w hw e => hp ⟨w, hw, e⟩,
      bits?_puts_of_forall_ne fun w hw e => hp ⟨w, (h w).mpr hw, e⟩]

/-- The store with these global arrays and no others. -/
def ofGlobal (m : Memory) : Store := ⟨{}, m⟩

/-- Writes to global arrays make no others. -/
theorem puts_ofGlobal {m : Memory} {ws : List Write} (h : ∀ w ∈ ws, w.slot.space = .global) :
    (ofGlobal m).puts ws = ofGlobal ((ofGlobal m).puts ws).global := by
  induction ws generalizing m with
  | nil => rfl
  | cons w ws ih =>
    have hput : (ofGlobal m).put w = ofGlobal (m.modify w.slot.array (·.put w.slot.position w.bits)) := by
      unfold put
      rw [h w List.mem_cons_self]
      rfl
    rw [puts_cons, hput]
    exact ih fun w' hw' => h w' (List.mem_cons_of_mem w hw')

/-- What becomes of the global arrays does not depend on the shared ones. -/
theorem global_puts (m : Store) (ws : List Write) : (m.puts ws).global = ((ofGlobal m.global).puts ws).global := by
  have step : ∀ {m m' : Store}, m.global = m'.global → ∀ w : Write, (m.put w).global = (m'.put w).global := by
    intro m m' h w
    unfold put
    split
    · rw [h]
    · exact h
    · exact h
  have all : ∀ (ws : List Write) {m m' : Store}, m.global = m'.global → (m.puts ws).global = (m'.puts ws).global := by
    intro ws
    induction ws with
    | nil => exact id
    | cons w ws ih => exact fun h => ih (step h w)
  exact all ws rfl

theorem bits?_puts_ofGlobal (m : Store) (ws : List Write) {p : Slot} (hp : p.space = .global) :
    ((ofGlobal m.global).puts ws).bits? p = (m.puts ws).bits? p := by
  obtain ⟨_, array, position⟩ := p
  subst hp
  simp only [bits?, buffer?]
  rw [← global_puts]

theorem position_of_layout?_eq (h : ∀ space array, m.layout? space array = m'.layout? space array) (view : View)
    (index : Int64) : m.position view index = m'.position view index := by
  have := h view.space view.array
  unfold layout? at this
  unfold position
  cases hb : m.buffer? view.space view.array with
  | none =>
    rw [hb] at this
    rw [Option.map_eq_none_iff.mp this.symm]
  | some b =>
    rw [hb] at this
    obtain ⟨b', hb', he⟩ := Option.map_eq_some_iff.mp this.symm
    obtain ⟨htype, hsize⟩ := Prod.mk.injEq .. ▸ he
    rw [hb']
    unfold Buffer.position
    dsimp only
    rw [htype, hsize]

@[simp] theorem position_puts (ws : List Write) (view : View) (index : Int64) :
    (m.puts ws).position view index = m.position view index :=
  position_of_layout?_eq (fun space array => layout?_puts ws space array) view index

theorem position_eq_ok {view : View} {index : Int64} {p : Nat} (h : m.position view index = .ok p) :
    p = index.toInt.toNat := by
  unfold position Buffer.position at h
  split at h
  · split at h
    · cases h
    · split at h
      · exact (Except.ok.inj h).symm
      · cases h
  · cases h

/-- What is loaded from an array are the bits at a position. -/
theorem load_eq_ok {view : View} {index : Int64} {v : Value} :
    m.load view index = .ok v ↔ ∃ i bits, m.position view index = .ok i ∧
      m.bits? ⟨view.space, view.array, i⟩ = some bits ∧ v = Value.ofBits view.type bits := by
  unfold load position bits? Buffer.load
  dsimp only
  cases m.buffer? view.space view.array with
  | none => simp
  | some b =>
    simp only [Option.bind_some]
    cases hp : b.position view index with
    | error e => simp [Except.map]
    | ok i =>
      have hlt : i < b.bits.size := by
        unfold Buffer.position at hp
        split at hp
        · cases hp
        · split at hp
          · rename_i h
            cases hp
            omega
          · cases hp
      simp only [Except.map, Except.ok.injEq, Array.getD_eq_getD_getElem?, Array.getElem?_eq_getElem hlt,
        Option.getD_some]
      constructor
      · rintro rfl
        exact ⟨i, b.bits[i], rfl, Array.getElem?_eq_getElem hlt, rfl⟩
      · rintro ⟨j, bits, rfl, hbits, rfl⟩
        rw [Array.getElem?_eq_getElem hlt] at hbits
        cases hbits
        rfl

end Store

namespace GroupState

/-- The memory that the threads of a group share. -/
def store (s : GroupState) : Store := ⟨s.shared, s.global⟩

variable {s : GroupState} {t : Nat} {view : View}

theorem buffer?_of_shared (h : view.space ≠ .thread) : s.buffer? t view = s.store.buffer? view.space view.array := by
  unfold buffer? Store.buffer?
  cases hs : view.space with
  | global => rfl
  | shared => rfl
  | thread => exact absurd hs h

theorem store_modifyBuffer (h : view.space ≠ .thread) (i : Nat) (bits : UInt64) :
    (s.modifyBuffer t view (·.put i bits)).store = s.store.put ⟨⟨view.space, view.array, i⟩, bits⟩ := by
  unfold modifyBuffer Store.put store
  dsimp only
  cases hs : view.space with
  | global => rfl
  | shared => rfl
  | thread => exact absurd hs h

theorem threads_modifyBuffer (h : view.space ≠ .thread) (f : Buffer → Buffer) :
    (s.modifyBuffer t view f).threads = s.threads := by
  unfold modifyBuffer
  cases hs : view.space with
  | global => rfl
  | shared => rfl
  | thread => exact absurd hs h

theorem races_modifyBuffer (f : Buffer → Buffer) : (s.modifyBuffer t view f).races = s.races := by
  unfold modifyBuffer
  split <;> rfl

theorem stats_modifyBuffer (f : Buffer → Buffer) : (s.modifyBuffer t view f).stats = s.stats := by
  unfold modifyBuffer
  split <;> rfl

theorem element_of_shared (h : view.space ≠ .thread) (index : Int64) :
    Run.element s t view index = s.store.load view index := by
  unfold Run.element Store.load
  cases hb : s.store.buffer? view.space view.array <;> simp [buffer?_of_shared h, hb]

theorem storable_of_shared (h : view.space ≠ .thread) {index : Int64} {v : Value} {i : Nat} (hv : v.type = view.type)
    (hi : s.store.position view index = .ok i) : Run.storable s t view index v = .ok i := by
  rw [Run.storable_eq_ok]
  refine ⟨hv, ?_⟩
  rw [buffer?_of_shared h]
  unfold Store.position at hi
  split at hi
  · rename_i b hb
    exact ⟨b, hb, hi⟩
  · cases hi

end GroupState
end SegKernel
