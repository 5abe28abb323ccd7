import Mathlib.Tactic.SplitIfs
import Violable.Tree.Cutting

/-!
# Slices of a text

A slice has a text before it and one after it (`toList_str`), and the offsets of its ends are those
after the texts before them. So the offsets tell what the three texts are (`parts_eq`), and wherever
a text is taken apart between characters a slice can be cut out (`exists_slice?`).
-/

namespace Violable.Cutting

variable {s : String} {l l' : String.Slice} {i j : String.Pos.Raw}

/-- The text before a slice. -/
def before (l : String.Slice) : List Char := (l.str.sliceTo l.startInclusive).copy.toList

def word (l : String.Slice) : List Char := l.copy.toList

/-- The text after a slice. -/
def after (l : String.Slice) : List Char := (l.str.sliceFrom l.endExclusive).copy.toList

/-- The byte offset after the characters `cs`, if a text begins with them. -/
def offset (cs : List Char) : String.Pos.Raw := (String.ofList cs).rawEndPos

theorem offset_toList (s : String) : offset s.toList = s.rawEndPos := by
  rw [offset, String.ofList_toList]

theorem offset_concat (cs : List Char) (c : Char) : offset (cs ++ [c]) = offset cs + c := by
  simp [offset]

theorem offset_le (cs ds : List Char) : offset cs ≤ offset (cs ++ ds) := by
  rw [offset, offset, String.Pos.Raw.le_iff, String.ofList_append, String.byteIdx_rawEndPos,
    String.byteIdx_rawEndPos, String.utf8ByteSize_append]
  exact Nat.le_add_right _ _

theorem isValid_offset {cs ds : List Char} (hs : s.toList = cs ++ ds) : (offset cs).IsValid s :=
  String.Pos.Raw.isValid_iff_exists_append.2 ⟨String.ofList cs, String.ofList ds,
    by rw [← String.ofList_append, ← hs, String.ofList_toList], rfl⟩

theorem slice?_eq_some : slice? s i j = some l ↔
    l.str = s ∧ l.startInclusive.offset = i ∧ l.endExclusive.offset = j := by
  unfold slice?
  constructor
  · intro h
    split_ifs at h with hij
    cases h
    exact ⟨rfl, rfl, rfl⟩
  · rintro ⟨rfl, rfl, rfl⟩
    rw [dif_pos ⟨l.startInclusive.isValid, l.endExclusive.isValid,
      l.startInclusive_le_endExclusive⟩]
    rfl

theorem toList_sliceTo (l : String.Slice) :
    (l.str.sliceTo l.endExclusive).copy.toList = before l ++ word l := by
  have hle : l.startInclusive.offset.byteIdx ≤ l.endExclusive.offset.byteIdx :=
    l.startInclusive_le_endExclusive
  rw [before, word, ← String.toList_append, String.toList_inj, ← String.toByteArray_inj,
    String.toByteArray_append]
  simp only [String.Slice.toByteArray_copy, String.str_sliceTo, String.startInclusive_sliceTo,
    String.endExclusive_sliceTo, String.offset_startPos, String.Pos.Raw.byteIdx_zero]
  exact ByteArray.extract_eq_extract_append_extract _ (Nat.zero_le _) hle

theorem toList_str (l : String.Slice) : l.str.toList = before l ++ word l ++ after l := by
  rw [← toList_sliceTo, after, ← String.toList_append, String.sliceTo_append_sliceFrom]

theorem offset_start (l : String.Slice) : l.startInclusive.offset = offset (before l) := by
  rw [before, offset_toList]
  exact l.startInclusive.splits.offset_eq_rawEndPos

theorem offset_end (l : String.Slice) : l.endExclusive.offset = offset (before l ++ word l) := by
  rw [← toList_sliceTo, offset_toList]
  exact l.endExclusive.splits.offset_eq_rawEndPos

theorem toList_sliceTo_of_offset {p : s.Pos} {cs ds : List Char} (hs : s.toList = cs ++ ds)
    (hp : p.offset = offset cs) : (s.sliceTo p).copy.toList = cs := by
  have h : p.Splits (String.ofList cs) (String.ofList ds) :=
    ⟨by rw [← String.ofList_append, ← hs, String.ofList_toList], hp⟩
  rw [p.splits.eq_left h, String.toList_ofList]

/-- A slice is told by the offsets of its ends. -/
theorem parts_eq {b w a : List Char} (hs : l.str.toList = b ++ w ++ a)
    (hi : l.startInclusive.offset = offset b) (hj : l.endExclusive.offset = offset (b ++ w)) :
    before l = b ∧ word l = w ∧ after l = a := by
  have hb : before l = b := toList_sliceTo_of_offset (by rw [hs, List.append_assoc]) hi
  have hw : before l ++ word l = b ++ w := by
    rw [← toList_sliceTo]
    exact toList_sliceTo_of_offset hs hj
  have ha : before l ++ word l ++ after l = b ++ w ++ a := by rw [← toList_str, hs]
  rw [hb] at hw ha
  obtain rfl := List.append_cancel_left hw
  exact ⟨hb, rfl, List.append_cancel_left ha⟩

theorem slice_ext (hs : l.str = l'.str) (hb : before l = before l') (hw : word l = word l') :
    l = l' := by
  have h : slice? l'.str l'.startInclusive.offset l'.endExclusive.offset = some l :=
    slice?_eq_some.2 ⟨hs, by rw [offset_start, offset_start, hb],
      by rw [offset_end, offset_end, hb, hw]⟩
  rw [slice?_eq_some.2 ⟨rfl, rfl, rfl⟩] at h
  exact (Option.some_inj.1 h).symm

theorem exists_slice? {b w a : List Char} (hs : s.toList = b ++ w ++ a) :
    ∃ l, slice? s (offset b) (offset (b ++ w)) = some l ∧ l.str = s ∧
      before l = b ∧ word l = w ∧ after l = a := by
  have hb : (offset b).IsValid s := isValid_offset (by rw [hs, List.append_assoc])
  obtain ⟨l, hl⟩ : ∃ l, slice? s (offset b) (offset (b ++ w)) = some l :=
    ⟨_, dif_pos ⟨hb, isValid_offset hs, offset_le b w⟩⟩
  obtain ⟨rfl, hi, hj⟩ := slice?_eq_some.1 hl
  exact ⟨l, hl, rfl, parts_eq hs hi hj⟩

/-- Within a character no slice can end. -/
example : slice? "σ" 0 ⟨1⟩ = none := by decide

end Violable.Cutting
