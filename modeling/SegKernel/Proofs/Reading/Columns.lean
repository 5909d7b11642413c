import Mathlib.Algebra.GroupWithZero.Nat
import Mathlib.Data.List.DropRight
import Mathlib.Data.String.Basic
import SegKernel.Syntax.Parse

/-! # Places of offsets

The lines and the columns of offsets in a text. The line of an offset is the same in bytes and in characters; the
columns are the same just if all characters of the line before the offset take one byte. -/

namespace SegKernel
open Syntax String

namespace Source
variable {l m cs pre post : List Char}

/-- The characters after the last newline. -/
def lastLine (cs : List Char) : List Char := cs.rtakeWhile (· ≠ '\n')

/-- The place after one more character, with columns counted by a weight of the characters. -/
def next (weight : Char → Nat) (p : Place) (c : Char) : Place :=
  if c = '\n' then ⟨p.line + 1, 1⟩ else ⟨p.line, p.column + weight c⟩

/-! ### Lines -/

/-- A split at newlines that has gone past `l`, to a line that begins with `m`. -/
theorem splitOnAux_newline (l m cs : List Char) (acc : List String) :
    (String.ofList (l ++ m ++ cs)).splitOnAux "\n" ⟨utf8Len l⟩ ⟨utf8Len l + utf8Len m⟩ 0 acc =
      acc.reverse ++ (List.splitOnPPrepend (· == '\n') cs m.reverse).map String.ofList := by
  -- On what is still to be split; `m` is the line that has been begun.
  induction cs generalizing l m acc with
  | nil =>
    have hend := (atEnd_of_valid (l ++ m) []).mpr rfl
    rw [utf8Len_append] at hend
    rw [splitOnAux.eq_def, if_pos hend, extract_of_valid]
    simp
  | cons c cs ih =>
    have hend := mt (atEnd_of_valid (l ++ m) (c :: cs)).mp (List.cons_ne_nil c cs)
    have hget := get_of_valid (l ++ m) (c :: cs)
    have hnext := next_of_valid (l ++ m) c cs
    rw [utf8Len_append] at hend hget hnext
    rw [splitOnAux.eq_def, if_neg hend, hget, List.headD_cons, List.splitOnPPrepend_cons_eq_if]
    by_cases hc : c = '\n'
    · subst hc
      have hline := extract_of_valid l m ('\n' :: cs)
      have htail := ih (l ++ m ++ ['\n']) [] (String.ofList m :: acc)
      rw [List.append_nil, List.append_assoc (l ++ m), List.singleton_append, utf8Len_append, utf8Len_append] at htail
      rw [if_pos (beq_self_eq_true '\n'), hnext, List.reverse_reverse, List.map_cons]
      refine Eq.trans ?_ (htail.trans (by simp))
      change splitOnAux _ _ _ _ _ (Pos.Raw.extract _ _ ⟨utf8Len l + utf8Len m + 1 - 1⟩ :: acc) = _
      rw [Nat.add_sub_cancel, hline]
      rfl
    · have htail := ih l (m ++ [c]) acc
      rw [List.append_assoc, List.append_assoc, List.singleton_append, ← List.append_assoc, utf8Len_append,
        List.reverse_append] at htail
      have hne : ¬(c == '\n') = true := by simpa using hc
      rw [if_neg (show ¬(c == Pos.Raw.get "\n" 0) = true from hne), if_neg hne]
      refine Eq.trans ?_ htail
      change splitOnAux _ _ _ (Pos.Raw.next _ ⟨utf8Len l + utf8Len m - 0⟩) _ _ = _
      rw [Nat.sub_zero, hnext, utf8Len_cons, utf8Len_nil, Nat.zero_add, Nat.add_assoc]

theorem lines_eq (s : Source) : s.lines = (s.text.toList.splitOnP (· == '\n')).map String.ofList := by
  have h := splitOnAux_newline [] [] s.text.toList []
  unfold lines splitOn
  rw [if_neg (by decide)]
  simpa using h

theorem splitOnPPrepend_cons (cs acc : List Char) :
    ∃ line lines, List.splitOnPPrepend (· == '\n') cs acc = (acc.reverse ++ line) :: lines := by
  induction cs generalizing acc with
  | nil => exact ⟨[], [], by simp⟩
  | cons c cs ih =>
    rw [List.splitOnPPrepend_cons_eq_if]
    split
    · exact ⟨[], _, by rw [List.append_nil]⟩
    · obtain ⟨line, lines, h⟩ := ih (c :: acc)
      exact ⟨c :: line, lines, by simpa using h⟩

theorem byteLength_eq (cs : List Char) : Cursor.byteLength cs = utf8Len cs := by
  have h (cs : List Char) (n : Nat) : cs.foldl (fun n c => n + c.utf8Size) n = n + utf8Len cs := by
    induction cs generalizing n with
    | nil => simp
    | cons c cs ih =>
      rw [List.foldl_cons, ih, utf8Len_cons]
      omega
  rw [Cursor.byteLength, h, Nat.zero_add]

/-! ### Places -/

theorem foldl_next (weight : Char → Nat) (pre : List Char) :
    pre.foldl (next weight) ⟨1, 1⟩ = ⟨1 + pre.count '\n', 1 + ((lastLine pre).map weight).sum⟩ := by
  induction pre using List.reverseRecOn with
  | nil => rfl
  | append_singleton pre c ih =>
    rw [List.foldl_append, ih, List.foldl_cons, List.foldl_nil, next]
    by_cases hc : c = '\n'
    · simp [hc, lastLine, Nat.add_assoc]
    · simp [hc, lastLine, Nat.add_assoc]

/-- A place in lines, of which the first one begins with `m`. -/
theorem placeIn_lines (n : Nat) (m pre post : List Char) :
    placeIn n ((List.splitOnPPrepend (· == '\n') (pre ++ post) m.reverse).map String.ofList) (utf8Len m + utf8Len pre) =
      pre.foldl (next Char.utf8Size) ⟨n, utf8Len m + 1⟩ := by
  -- On the text before the place: a newline begins the next line, anything else lengthens this one.
  induction pre generalizing n m with
  | nil =>
    obtain ⟨line, lines, h⟩ := splitOnPPrepend_cons post m.reverse
    rw [List.nil_append, h, List.reverse_reverse, List.map_cons, List.foldl_nil, utf8Len_nil, Nat.add_zero]
    cases lines with
    | nil => rfl
    | cons line' lines =>
      refine if_pos ?_
      rw [utf8ByteSize_ofList, utf8Len_append]
      exact Nat.le_add_right _ _
  | cons c pre ih =>
    rw [List.cons_append, List.splitOnPPrepend_cons_eq_if, List.foldl_cons, next]
    by_cases hc : c = '\n'
    · subst hc
      have htail := ih (n + 1) []
      obtain ⟨line, lines, h⟩ := splitOnPPrepend_cons (pre ++ post) []
      rw [List.reverse_nil, h, utf8Len_nil, Nat.zero_add, Nat.zero_add] at htail
      have hskip : ¬utf8Len m + (utf8Len pre + '\n'.utf8Size) ≤ (String.ofList m).utf8ByteSize := by
        rw [utf8ByteSize_ofList]
        have := '\n'.utf8Size_pos
        omega
      have hrest : utf8Len m + (utf8Len pre + '\n'.utf8Size) - ((String.ofList m).utf8ByteSize + 1) = utf8Len pre := by
        rw [utf8ByteSize_ofList, show '\n'.utf8Size = 1 from rfl]
        omega
      rw [if_pos (beq_self_eq_true '\n'), if_pos rfl, List.reverse_reverse, ← htail, utf8Len_cons]
      refine Eq.trans (congrArg (placeIn n · _) (congrArg _ (congrArg _ h))) ((if_neg hskip).trans ?_)
      rw [hrest]
      rfl
    · have htail := ih n (m ++ [c])
      rw [List.reverse_append, utf8Len_append, utf8Len_cons, utf8Len_nil, Nat.zero_add] at htail
      rw [if_neg (by simpa using hc), if_neg hc, utf8Len_cons, Nat.add_comm (utf8Len pre), ← Nat.add_assoc]
      rw [Nat.add_right_comm (utf8Len m) 1]
      exact htail

theorem charPlaceFrom_append (p : Place) (pre post : List Char) :
    charPlaceFrom p (pre ++ post) (utf8Len pre) = pre.foldl (next fun _ => 1) p := by
  induction pre generalizing p with
  | nil => cases post <;> rfl
  | cons c pre ih =>
    have hpos := c.utf8Size_pos
    rw [List.cons_append, charPlaceFrom, utf8Len_cons, if_neg (by omega), List.foldl_cons, next, ← ih]
    split
    · rename_i hc
      rw [hc]
      rfl
    · rw [Nat.add_sub_cancel]

/-- The place of an offset in bytes: its line, and one column for each byte since the last newline. -/
theorem bytePlace?_eq {s : Source} (h : s.text.toList = pre ++ post) :
    s.bytePlace? (Cursor.byteLength pre) = some ⟨1 + pre.count '\n', 1 + Cursor.byteLength (lastLine pre)⟩ := by
  have hbytes (cs : List Char) : (cs.map Char.utf8Size).sum = utf8Len cs := by
    induction cs with
    | nil => rfl
    | cons c cs ih => rw [List.map_cons, List.sum_cons, ih, utf8Len_cons, Nat.add_comm]
  have hle : ¬s.byteLength < utf8Len pre := by
    rw [byteLength, ← ofList_toList (s := s.text), h, utf8ByteSize_ofList, utf8Len_append]
    omega
  have hplace := placeIn_lines 1 [] pre post
  rw [utf8Len_nil, Nat.zero_add, Nat.zero_add, foldl_next, hbytes] at hplace
  rw [byteLength_eq, byteLength_eq, bytePlace?, if_neg hle, lines_eq, h]
  exact congrArg some hplace

/-- The place of an offset in characters: its line, and one column for each character since the last newline. -/
theorem charPlace_eq {s : Source} (h : s.text.toList = pre ++ post) :
    s.charPlace (Cursor.byteLength pre) = ⟨1 + pre.count '\n', 1 + (lastLine pre).length⟩ := by
  rw [charPlace, h, byteLength_eq, charPlaceFrom_append, foldl_next]
  simp

theorem byteLength_eq_length_iff (cs : List Char) : Cursor.byteLength cs = cs.length ↔ ∀ c ∈ cs, c.utf8Size = 1 := by
  have hle (cs : List Char) : cs.length ≤ utf8Len cs := by
    induction cs with
    | nil => rfl
    | cons c cs ih =>
      have := c.utf8Size_pos
      rw [List.length_cons, utf8Len_cons]
      omega
  rw [byteLength_eq]
  induction cs with
  | nil => simp
  | cons c cs ih =>
    have hpos := c.utf8Size_pos
    have := hle cs
    rw [List.length_cons, utf8Len_cons, List.forall_mem_cons]
    refine ⟨fun h => ⟨by omega, ih.mp (by omega)⟩, fun h => ?_⟩
    rw [h.1, ih.mpr h.2]

/-- Each offset between two characters of a text has the same line in bytes and in characters, one more than the
    newlines before it. Its column is one more than the bytes, or the characters, since the last newline; so both
    places are the same just if each of these characters takes one byte. -/
theorem places_agree_iff {s : Source} (h : s.text.toList = pre ++ post) :
    s.bytePlace? (Cursor.byteLength pre) = some ⟨1 + pre.count '\n', 1 + Cursor.byteLength (lastLine pre)⟩ ∧
    s.charPlace (Cursor.byteLength pre) = ⟨1 + pre.count '\n', 1 + (lastLine pre).length⟩ ∧
    (s.bytePlace? (Cursor.byteLength pre) = some (s.charPlace (Cursor.byteLength pre)) ↔ ∀ c ∈ lastLine pre,
      c.utf8Size = 1) := by
  refine ⟨bytePlace?_eq h, charPlace_eq h, ?_⟩
  rw [bytePlace?_eq h, charPlace_eq h, ← byteLength_eq_length_iff]
  simp

/-- Both places are the same in the second line of a text of plain characters. -/
theorem places_agree_plain : ("a\nbc".toList = "a\nb".toList ++ ['c']) ∧
    (⟨"a\nbc", none⟩ : Source).bytePlace? 3 = some ((⟨"a\nbc", none⟩ : Source).charPlace 3) := by
  have h : (⟨"a\nbc", none⟩ : Source).text.toList = "a\nb".toList ++ ['c'] := by decide
  have plain : (lastLine "a\nb".toList).all (·.utf8Size == 1) = true := by decide
  exact ⟨h, (places_agree_iff h).2.2.mpr fun c hc => beq_iff_eq.mp (List.all_eq_true.mp plain c hc)⟩

/-- After a character of two bytes the columns differ. -/
theorem places_differ_after_accent : ("/* é */ x\n".toList = "/* é".toList ++ " */ x\n".toList) ∧
    (⟨"/* é */ x\n", none⟩ : Source).bytePlace? 5 = some ⟨1, 6⟩ ∧
    (⟨"/* é */ x\n", none⟩ : Source).charPlace 5 = ⟨1, 5⟩ := by
  have h : (⟨"/* é */ x\n", none⟩ : Source).text.toList = "/* é".toList ++ " */ x\n".toList := by decide
  exact ⟨h, bytePlace?_eq h, charPlace_eq h⟩

end Source
end SegKernel
