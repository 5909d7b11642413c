import SegKernel.Syntax.Lexeme
import Mathlib.Data.List.Basic

/-! # Reading a text word by word

A parser reads characters, a grammar is about words. A text spells words when it is the words one after
another with blanks between them. What a parser does at a place of such a text depends on the words
that are left: `Reads` says that it reads a value and leaves certain words, `Refuses` that it fails.
This file holds the rules of both for the combinators, so that a rule of the grammar is followed word
by word and never by its characters. -/

namespace SegKernel.Syntax
open SegKernel.Syntax.Parser

variable {α β ι : Type}

/-! ### Texts of words -/

/-- The text is the words one after another, each with blanks before it. -/
inductive Trail : List String → List Char → Prop
  | nil : Trail [] []
  | cons {t : String} {ts : List String} {blanks gap : List Char} (hne : blanks ≠ [])
      (hblank : ∀ b ∈ blanks, isBlank b = true) (h : Trail ts gap) :
      Trail (t :: ts) (blanks ++ (t.toList ++ gap))

/-- The text is the words with blanks between them. -/
def Spells : List String → List Char → Prop
  | [], cs => cs = []
  | t :: ts, cs => ∃ gap, cs = t.toList ++ gap ∧ Trail ts gap

/-- The words with one blank between them. -/
def spaced : List String → List Char
  | [] => []
  | t :: ts => t.toList ++ ts.flatMap fun u => ' ' :: u.toList

theorem trail_flatMap (ts : List String) : Trail ts (ts.flatMap fun u => ' ' :: u.toList) := by
  induction ts with
  | nil => exact .nil
  | cons t ts ih => exact @Trail.cons t ts [' '] _ (by simp) (by simp [isBlank]) ih

theorem spells_spaced (ts : List String) : Spells ts (spaced ts) := by
  cases ts with
  | nil => rfl
  | cons t ts => exact ⟨_, rfl, trail_flatMap ts⟩

/-- A word that begins with neither a blank nor a comment. -/
def Solid (t : String) : Prop :=
  match t.toList with
  | [] => False
  | c :: cs => isBlank c = false ∧ (c = '/' → cs = [])

instance : DecidablePred Solid := fun t => by
  unfold Solid
  split <;> infer_instance

/-- The words of a list of elements, with `sep` between them. -/
def joined (sep : List String) : List (List String) → List String
  | [] => []
  | t :: ts => t ++ ts.flatMap (sep ++ ·)

/-- After a blank no word goes on. -/
theorem Trail.head_blank {ts : List String} {gap : List Char} (h : Trail ts gap) :
    ∀ c ∈ gap.head?, isBlank c = true := by
  cases h with
  | nil => simp
  | @cons t ts blanks gap hne hblank h =>
    obtain ⟨b, bs, rfl⟩ := List.exists_cons_of_ne_nil hne
    simpa using hblank b List.mem_cons_self

theorem Trail.length_le {ts : List String} {gap : List Char} (h : Trail ts gap) : ts.length ≤ gap.length := by
  induction h with
  | nil => simp
  | @cons t ts blanks gap hne _ _ ih =>
    have hpos := List.length_pos_iff.mpr hne
    simp only [List.length_cons, List.length_append]
    omega

theorem Solid.ne_nil {t : String} (h : Solid t) : t.toList ≠ [] := by
  intro hnil
  simp [Solid, hnil] at h

/-! ### Spots -/

/-- A place in a text, by what is left of the text. -/
abbrev Spot := List Char → Prop

/-- The end of a word, with the words `ts` to follow. -/
def after (ts : List String) : Spot := fun cs => Trail ts cs ∧ ∀ t ∈ ts, Solid t

/-- The beginning of the first of the words `ts`. -/
def before (ts : List String) : Spot := fun cs => Spells ts cs ∧ ∀ t ∈ ts, Solid t

/-- A place inside a word, of which `w` is left. -/
def within (w : List Char) (ts : List String) : Spot := fun cs => ∃ gap, cs = w ++ gap ∧ after ts gap

/-- A place between words, before or after the blanks. -/
def near (ts : List String) : Spot := fun cs => before ts cs ∨ after ts cs

theorem within_of_before {t : String} {ts : List String} {cs : List Char} (h : before (t :: ts) cs) :
    within t.toList ts cs := by
  obtain ⟨⟨gap, rfl, htrail⟩, hsolid⟩ := h
  exact ⟨gap, rfl, htrail, fun u hu => hsolid u (List.mem_cons_of_mem _ hu)⟩

theorem within_nil {ts : List String} {cs : List Char} : within [] ts cs ↔ after ts cs := by
  simp [within]

/-- A text has at least as many characters as words. -/
theorem length_le_of_near {ts : List String} {cs : List Char} (h : near ts cs) : ts.length ≤ cs.length := by
  obtain ⟨hspells, hsolid⟩ | ⟨htrail, -⟩ := h
  · cases ts with
    | nil => simp
    | cons t ts =>
      obtain ⟨gap, rfl, htrail⟩ := hspells
      have hpos := List.length_pos_iff.mpr (hsolid t List.mem_cons_self).ne_nil
      have hgap := htrail.length_le
      simp only [List.length_cons, List.length_append]
      omega
  · exact htrail.length_le

/-! ### What a parser does at a spot -/

/-- From every text at `s` the parser reads a value with `Q`, and a text at `s'` is left. -/
def Reads (p : Parser α) (s : Spot) (Q : α → Prop) (s' : Spot) : Prop :=
  ∀ c : Cursor, s c.rest → ∃ a c', (p c).value = some (a, c') ∧ s' c'.rest ∧ Q a

/-- The parser reads something of no interest. -/
abbrev Passes (p : Parser α) (s s' : Spot) : Prop := Reads p s (fun _ => True) s'

/-- The parser fails at `s`. -/
def Refuses (p : Parser α) (s : Spot) : Prop := ∀ c : Cursor, s c.rest → (p c).value = none

section Rules
variable {p q : Parser α} {f : α → Parser β} {s s₁ s₂ : Spot} {P Q : α → Prop} {R : β → Prop}

theorem Reads.mono (h : Reads p s P s₁) (hPQ : ∀ a, P a → Q a) : Reads p s Q s₁ := by
  intro c hc
  obtain ⟨a, c', hv, hs, hP⟩ := h c hc
  exact ⟨a, c', hv, hs, hPQ a hP⟩

theorem Reads.from (h : Reads p s Q s₁) (hs : ∀ cs, s₂ cs → s cs) : Reads p s₂ Q s₁ :=
  fun c hc => h c (hs _ hc)

theorem Reads.to (h : Reads p s Q s₁) (hs : ∀ cs, s₁ cs → s₂ cs) : Reads p s Q s₂ := by
  intro c hc
  obtain ⟨a, c', hv, h₁, hQ⟩ := h c hc
  exact ⟨a, c', hv, hs _ h₁, hQ⟩

theorem Reads.to_near {ts : List String} (h : Reads p s Q (after ts)) : Reads p s Q (near ts) := h.to fun _ h => .inr h

theorem Refuses.from (h : Refuses p s) (hs : ∀ cs, s₂ cs → s cs) : Refuses p s₂ := fun c hc => h c (hs _ hc)

theorem Reads.pure {a : α} (h : Q a) : Reads (pure a) s Q s := fun c hc => ⟨a, c, rfl, hc, h⟩

theorem bind_value (p : Parser α) (f : α → Parser β) (c : Cursor) :
    ((p >>= f) c).value = (p c).value.bind fun x => (f x.1 x.2).value := by
  change (Parser.bind p f c).value = _
  unfold Parser.bind
  rcases p c with ⟨_ | ⟨a, c'⟩, e⟩ <;> rfl

theorem orElse_value (p q : Parser α) (c : Cursor) :
    ((p <|> q) c).value = (p c).value.or (q c).value := by
  change (Parser.orElse p (fun _ => q) c).value = _
  unfold Parser.orElse
  rcases p c with ⟨_ | r, e⟩ <;> rfl

theorem Reads.bind (hp : Reads p s P s₁) (hf : ∀ a, P a → Reads (f a) s₁ R s₂) : Reads (p >>= f) s R s₂ := by
  intro c hc
  obtain ⟨a, c₁, hv, hs, hP⟩ := hp c hc
  obtain ⟨b, c₂, hw, hs₂, hR⟩ := hf a hP c₁ hs
  exact ⟨b, c₂, by rw [bind_value, hv]; exact hw, hs₂, hR⟩

/-- Reading on after something of no interest. -/
theorem Reads.then (hp : Passes p s s₁) (hf : ∀ a, Reads (f a) s₁ R s₂) : Reads (p >>= f) s R s₂ :=
  hp.bind fun a _ => hf a

/-- Reading on after a known value. -/
theorem Reads.bind_eq {a : α} (hp : Reads p s (· = a) s₁) (hf : Reads (f a) s₁ R s₂) : Reads (p >>= f) s R s₂ :=
  hp.bind fun _ h => h ▸ hf

theorem Refuses.bind (hp : Refuses p s) : Refuses (p >>= f) s := by
  intro c hc
  rw [bind_value, hp c hc]
  rfl

theorem Reads.refuses (hp : Reads p s P s₁) (hf : ∀ a, P a → Refuses (f a) s₁) : Refuses (p >>= f) s := by
  intro c hc
  obtain ⟨a, c₁, hv, hs, hP⟩ := hp c hc
  rw [bind_value, hv]
  exact hf a hP c₁ hs

theorem refuses_fail : Refuses (fail : Parser α) s := fun _ _ => rfl

theorem Reads.orElse_left (hp : Reads p s Q s₁) : Reads (p <|> q) s Q s₁ := by
  intro c hc
  obtain ⟨a, c', hv, hs, hQ⟩ := hp c hc
  exact ⟨a, c', by rw [orElse_value, hv]; rfl, hs, hQ⟩

theorem Reads.orElse_right (hp : Refuses p s) (hq : Reads q s Q s₁) : Reads (p <|> q) s Q s₁ := by
  intro c hc
  obtain ⟨a, c', hv, hs, hQ⟩ := hq c hc
  exact ⟨a, c', by rw [orElse_value, hp c hc]; exact hv, hs, hQ⟩

theorem Refuses.orElse (hp : Refuses p s) (hq : Refuses q s) : Refuses (p <|> q) s := by
  intro c hc
  rw [orElse_value, hp c hc, hq c hc]
  rfl

theorem Reads.found {ps : List (Parser α)} (hp : Reads p s Q s₁) : Reads (firstOf (p :: ps)) s Q s₁ := hp.orElse_left

theorem Reads.next {ps : List (Parser α)} (hp : Refuses p s) (hps : Reads (firstOf ps) s Q s₁) :
    Reads (firstOf (p :: ps)) s Q s₁ := .orElse_right hp hps

theorem refuses_firstOf {ps : List (Parser α)} (h : ∀ p ∈ ps, Refuses p s) : Refuses (firstOf ps) s := by
  induction ps with
  | nil => exact refuses_fail
  | cons p ps ih =>
    exact (h p List.mem_cons_self).orElse (ih fun q hq => h q (List.mem_cons_of_mem _ hq))

/-- Of parsers that are tried in order, the one for `a` reads where those before it refuse. -/
theorem reads_firstOf_map {as : List ι} {g : ι → Parser α} {before : ι → ι → Prop} {a : ι} (ha : a ∈ as)
    (hsorted : as.Pairwise before) (hearlier : ∀ b, before b a → Refuses (g b) s)
    (hread : Reads (g a) s Q s₁) : Reads (firstOf (as.map g)) s Q s₁ := by
  induction as with
  | nil => cases ha
  | cons b as ih =>
    rw [List.pairwise_cons] at hsorted
    rcases List.mem_cons.mp ha with rfl | ha
    · exact hread.orElse_left
    · exact .orElse_right (hearlier b (hsorted.1 a ha)) (ih ha hsorted.2)

/-- A choice that goes on with `f` refuses when each of its parsers, going on with `f`, does. -/
theorem refuses_firstOf_bind {ps : List (Parser α)} (h : ∀ p ∈ ps, Refuses (p >>= f) s) :
    Refuses (firstOf ps >>= f) s := by
  induction ps with
  | nil => exact refuses_fail.bind
  | cons p ps ih =>
    intro c hc
    have hp := h p List.mem_cons_self c hc
    have hps := ih (fun q hq => h q (List.mem_cons_of_mem _ hq)) c hc
    rw [bind_value] at hp hps ⊢
    rw [firstOf, orElse_value]
    cases hv : (p c).value with
    | none => simpa [hv] using hps
    | some r => simpa [hv] using hp

theorem Reads.optional_some (h : Reads p s P s₁) : Reads (optional p) s (∃ a, · = some a ∧ P a) s₁ :=
  orElse_left (h.bind fun a ha => .pure ⟨a, rfl, ha⟩)

theorem Reads.optional_none (h : Refuses p s) : Reads (optional p) s (· = none) s :=
  orElse_right h.bind (.pure rfl)

theorem Passes.notAhead (h : Refuses p s) : Passes (notAhead p) s s := by
  intro c hc
  exact ⟨(), c, by simp [Parser.notAhead, h c hc], hc, trivial⟩

theorem Refuses.notAhead (h : Reads p s Q s₁) : Refuses (notAhead p) s := by
  intro c hc
  obtain ⟨a, c', hv, -⟩ := h c hc
  simp [Parser.notAhead, hv]

theorem passes_offset : Passes offset s s := fun c hc => ⟨_, c, rfl, hc, trivial⟩

/-- There is more fuel than words. -/
theorem Reads.withFuel {p : Nat → Parser α} {ts : List String} (hs : ∀ cs, s cs → near ts cs)
    (h : ∀ n, ts.length < n → Reads (p n) s Q s₁) : Reads (withFuel p) s Q s₁ := by
  intro c hc
  have hlen := length_le_of_near (hs _ hc)
  exact h (c.rest.length + 1) (by omega) c hc

theorem Refuses.withFuel {p : Nat → Parser α} (h : ∀ n, Refuses (p n) s) : Refuses (withFuel p) s :=
  fun c hc => h _ c hc

end Rules

/-! ### Blanks -/

/-- Blanks are skipped up to a word. -/
theorem afterBlanks_solid {t : String} (ht : Solid t) (o : Nat) {ts : List String} {gap : List Char}
    (hgap : Trail ts gap) : afterBlanks o (t.toList ++ gap) = ⟨t.toList ++ gap, o⟩ := by
  unfold Solid at ht
  split at ht
  · exact ht.elim
  · next c cs htl =>
    obtain ⟨hblank, hslash⟩ := ht
    rw [htl, List.cons_append]
    rw [afterBlanks.eq_3]
    · simp [hblank]
    -- A word that begins with a slash is the slash, and a blank follows it.
    all_goals
      rintro ds hc hds
      obtain rfl := hslash hc
      have := hgap.head_blank
      rw [List.nil_append] at hds
      rw [hds] at this
      simp [isBlank] at this

theorem afterBlanks_blank {b : Char} (hb : isBlank b = true) (o : Nat) (cs : List Char) :
    afterBlanks o (b :: cs) = afterBlanks (o + 1) cs := by
  rw [afterBlanks.eq_3]
  · simp [hb]
  all_goals
    rintro ds rfl
    simp [isBlank] at hb

theorem afterBlanks_append {blanks : List Char} (h : ∀ b ∈ blanks, isBlank b = true) (o : Nat) (cs : List Char) :
    afterBlanks o (blanks ++ cs) = afterBlanks (o + blanks.length) cs := by
  induction blanks generalizing o with
  | nil => rfl
  | cons b bs ih =>
    rw [List.cons_append, afterBlanks_blank (h b List.mem_cons_self),
      ih (fun d hd => h d (List.mem_cons_of_mem _ hd))]
    rw [List.length_cons, Nat.add_assoc, Nat.add_comm 1]

theorem afterBlanks_before {ts : List String} {cs : List Char} (h : before ts cs) (o : Nat) :
    afterBlanks o cs = ⟨cs, o⟩ := by
  obtain ⟨hspells, hsolid⟩ := h
  cases ts with
  | nil =>
    obtain rfl : cs = [] := hspells
    rw [afterBlanks]
  | cons t ts =>
    obtain ⟨gap, rfl, htrail⟩ := hspells
    exact afterBlanks_solid (hsolid t List.mem_cons_self) o htrail

theorem passes_skip {ts : List String} : Passes skip (near ts) (before ts) := by
  rintro ⟨cs, o⟩ (h | ⟨htrail, hsolid⟩)
  · exact ⟨(), ⟨cs, o⟩, by rw [skip, afterBlanks_before h], h, trivial⟩
  · cases htrail with
    | nil => exact ⟨(), ⟨[], o⟩, by simp [skip, afterBlanks], ⟨rfl, by simp⟩, trivial⟩
    | @cons t ts blanks gap hne hblank htrail =>
      have hbefore : before (t :: ts) (t.toList ++ gap) := ⟨⟨gap, rfl, htrail⟩, hsolid⟩
      refine ⟨(), ⟨t.toList ++ gap, o + blanks.length⟩, ?_, hbefore, trivial⟩
      change some ((), afterBlanks o (blanks ++ (t.toList ++ gap))) = _
      rw [afterBlanks_append hblank, afterBlanks_before hbefore]

theorem passes_skip_after {ts : List String} : Passes skip (after ts) (before ts) :=
  passes_skip.from fun _ h => .inr h

theorem passes_skip_before {ts : List String} : Passes skip (before ts) (before ts) :=
  passes_skip.from fun _ h => .inl h

theorem passes_blank {t : String} {ts : List String} : Passes blank (after (t :: ts)) (before (t :: ts)) := by
  rintro ⟨cs, o⟩ ⟨htrail, hsolid⟩
  cases htrail with
  | @cons _ _ blanks gap hne hblank htrail =>
    obtain ⟨b, bs, rfl⟩ := List.exists_cons_of_ne_nil hne
    have hb := hblank b List.mem_cons_self
    have hbs : ∀ d ∈ bs, isBlank d = true := fun d hd => hblank d (List.mem_cons_of_mem _ hd)
    have hbefore : before (t :: ts) (t.toList ++ gap) := ⟨⟨gap, rfl, htrail⟩, hsolid⟩
    have hchar : (char isBlank ⟨b :: (bs ++ (t.toList ++ gap)), o⟩).value =
        some (b, ⟨bs ++ (t.toList ++ gap), o + b.utf8Size⟩) := by
      simp [char, hb, Cursor.advance, Cursor.byteLength]
    refine ⟨(), ⟨t.toList ++ gap, o + b.utf8Size + bs.length⟩, ?_, hbefore, trivial⟩
    rw [blank, bind_value]
    change ((char isBlank ⟨b :: (bs ++ (t.toList ++ gap)), o⟩).value.bind fun x => (skip x.2).value) = _
    rw [hchar]
    change some ((), afterBlanks (o + b.utf8Size) (bs ++ (t.toList ++ gap))) = _
    rw [afterBlanks_append hbs, afterBlanks_before hbefore]

theorem passes_blank_of_ne {ts : List String} (h : ts ≠ []) : Passes blank (after ts) (before ts) := by
  obtain ⟨t, ts, rfl⟩ := List.exists_cons_of_ne_nil h
  exact passes_blank

/-! ### Words -/

/-- No text that goes on with the word `w` begins with the token. -/
def misses (token : String) (w : List Char) : Bool :=
  token.toList.all (!isBlank ·) && !token.toList.isPrefixOf w

theorem not_isPrefixOf_append {m w gap : List Char} (hm : ∀ c ∈ m, isBlank c = false)
    (hgap : ∀ c ∈ gap.head?, isBlank c = true) (h : ¬ m <+: w) : ¬ m <+: w ++ gap := by
  induction m generalizing w with
  | nil => exact absurd List.nil_prefix h
  | cons c m ih =>
    cases w with
    | nil =>
      cases gap with
      | nil => simp
      | cons b gap =>
        rw [List.nil_append, List.cons_prefix_cons]
        rintro ⟨rfl, -⟩
        have hb := hgap c rfl
        simp [hm c List.mem_cons_self] at hb
    | cons d w =>
      rw [List.cons_append, List.cons_prefix_cons]
      rintro ⟨rfl, hpre⟩
      refine ih (fun e he => hm e (List.mem_cons_of_mem _ he)) (fun hw => h ?_) hpre
      exact List.cons_prefix_cons.mpr ⟨rfl, hw⟩

theorem refuses_token_within {m : String} {w : List Char} {ts : List String} (h : misses m w = true) :
    Refuses (token m) (within w ts) := by
  rintro ⟨cs, o⟩ ⟨gap, rfl, htrail, -⟩
  simp only [misses, Bool.and_eq_true, List.all_eq_true, Bool.not_eq_true'] at h
  have hnot : ¬ m.toList <+: w ++ gap :=
    not_isPrefixOf_append h.1 htrail.head_blank (by rw [← List.isPrefixOf_iff_prefix, h.2]; exact Bool.false_ne_true)
  rw [← List.isPrefixOf_iff_prefix] at hnot
  simp [token, hnot]

theorem refuses_token {m t : String} {ts : List String} (h : misses m t.toList = true) :
    Refuses (token m) (before (t :: ts)) :=
  (refuses_token_within h).from fun _ => within_of_before

/-- A word of another class of beginnings is missed. -/
theorem misses_of_class (f : Char → Bool) {m : String} {c : Char} {w : List Char} (hc : f c = true)
    (hm : (m.toList.all (!isBlank ·) && m.toList.head?.any (!f ·)) = true) : misses m (c :: w) = true := by
  simp only [Bool.and_eq_true] at hm
  simp only [misses, Bool.and_eq_true, Bool.not_eq_true']
  refine ⟨hm.1, ?_⟩
  cases htl : m.toList with
  | nil => simp [htl] at hm
  | cons d ds =>
    have hd : f d = false := by simpa [htl] using hm.2
    have hne : (d == c) = false := by
      rw [beq_eq_false_iff_ne]
      rintro rfl
      simp [hc] at hd
    rw [List.isPrefixOf, hne, Bool.false_and]

theorem passes_token_within {m : String} {w : List Char} {ts : List String} :
    Passes (token m) (within (m.toList ++ w) ts) (within w ts) := by
  rintro ⟨cs, o⟩ ⟨gap, rfl, hgap⟩
  refine ⟨(), ⟨w ++ gap, o + Cursor.byteLength m.toList⟩, ?_, ⟨gap, rfl, hgap⟩, trivial⟩
  simp [token, Cursor.advance]

/-- The first part of a word is read. -/
theorem passes_token_part {m t : String} {w : List Char} {ts : List String} (h : t.toList = m.toList ++ w) :
    Passes (token m) (before (t :: ts)) (within w ts) :=
  passes_token_within.from fun _ hcs => h ▸ within_of_before hcs

theorem passes_token {t : String} {ts : List String} : Passes (token t) (before (t :: ts)) (after ts) :=
  (passes_token_part (w := []) (by simp)).to fun _ => within_nil.mp

/-- The end of the part of a word that is left. -/
theorem passes_token_rest {m : String} {ts : List String} : Passes (token m) (within m.toList ts) (after ts) :=
  (passes_token_within (w := [])).from (fun _ h => by simpa using h) |>.to fun _ => within_nil.mp

theorem refuses_token_after {m : String} {ts : List String} (h : misses m [] = true) :
    Refuses (token m) (after ts) := (refuses_token_within h).from fun _ => within_nil.mpr

theorem refuses_char {f : Char → Bool} {c : Char} {w : List Char} {ts : List String} (h : f c = false) :
    Refuses (char f) (within (c :: w) ts) := by
  rintro ⟨cs, o⟩ ⟨gap, rfl, -⟩
  simp [char, h]

theorem refuses_char_after {f : Char → Bool} {ts : List String} (h : ∀ b, isBlank b = true → f b = false) :
    Refuses (char f) (after ts) := by
  rintro ⟨cs, o⟩ ⟨htrail, -⟩
  cases cs with
  | nil => rfl
  | cons b cs => simp [char, h b (htrail.head_blank b rfl)]

theorem refuses_blank {c : Char} {w : List Char} {ts : List String} (h : isBlank c = false) :
    Refuses blank (within (c :: w) ts) := (refuses_char h).bind

end SegKernel.Syntax
