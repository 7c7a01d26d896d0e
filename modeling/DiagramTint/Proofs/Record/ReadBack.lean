import DiagramTint.Proofs.Record.Columns
import Mathlib.Algebra.GroupWithZero.Nat

/-!
# Printed records read back

A printed record is a line with three numbers and a tag in front of its text.  The marks behind the
numbers and the tag do not occur in them, so a reader finds these parts from the left and takes the
rest of the line for the text, whatever it is made of.
-/

namespace DiagramTint

namespace Record

/-! ## A reader of printed records -/

/-- The number with these decimal digits. -/
def number? (cs : List Char) : Option Nat :=
  if cs ≠ [] ∧ cs.all Char.isDigit then some (Nat.ofDigitChars 10 cs 0) else none

/-- What stands in front of the first `mark` and what stands behind it. -/
def cut? (mark : Char) : List Char → Option (List Char × List Char)
  | [] => none
  | c :: cs =>
    if c = mark then some ([], cs)
    else (cut? mark cs).map fun parts => (c :: parts.1, parts.2)

theorem cut?_append {mark : Char} {front : List Char} (h : mark ∉ front) (back : List Char) :
    cut? mark (front ++ mark :: back) = some (front, back) := by
  induction front with
  | nil => rw [List.nil_append, cut?, if_pos rfl]
  | cons c front ih =>
      rw [List.mem_cons, not_or] at h
      rw [List.cons_append, cut?, if_neg (Ne.symm h.1), ih h.2, Option.map_some]

theorem isDigit_of_mem_toString {n : Nat} {c : Char} (h : c ∈ (toString n).toList) :
    c.isDigit = true := by
  rw [Nat.toString_eq_repr, Nat.toList_repr] at h
  exact Nat.isDigit_of_mem_toDigits (by decide) (by decide) h

theorem not_mem_toString {c : Char} (h : c.isDigit = false) (n : Nat) :
    c ∉ (toString n).toList := by
  intro hmem
  rw [isDigit_of_mem_toString hmem] at h
  cases h

theorem number?_toString (n : Nat) : number? (toString n).toList = some n := by
  have hdigits : (toString n).toList.all Char.isDigit = true :=
    List.all_eq_true.mpr fun _ hc => isDigit_of_mem_toString hc
  have hne : (toString n).toList ≠ [] := by
    rw [Nat.toString_eq_repr, Nat.toList_repr]
    exact Nat.toDigits_ne_nil
  rw [number?, if_pos ⟨hne, hdigits⟩, Nat.toString_eq_repr, Nat.toList_repr,
    Nat.ofDigitChars_toDigits (by decide) (by decide)]

/-- The printed line of a record without the line feed that ends it. -/
def body (r : Record) : List Char :=
  (toString r.line).toList ++ ':' :: ((toString r.start).toList ++ '-' ::
    ((toString r.stop).toList ++ ' ' :: (r.tag.name.toList ++ ' ' :: r.text)))

theorem not_mem_name {c : Char} (h : (c.isLower || c == '-') = false) (t : Tag) :
    c ∉ t.name.toList := by
  intro hmem
  rw [List.all_eq_true.mp t.all_name c hmem] at h
  cases h

end Record

end DiagramTint
