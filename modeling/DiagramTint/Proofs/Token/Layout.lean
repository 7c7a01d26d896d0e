import DiagramTint.Token

/-!
# Layout of tokens

The tokens of a source follow one another without overlap, each covers at least one byte, and each
starts and ends between two characters.
-/

namespace DiagramTint

/-- Spans that follow one another between the bytes `lo` and `hi`, none of them empty and both ends
of each where `P` holds. -/
def LaidOut (P : Nat → Prop) (lo hi : Nat) : List Span → Prop
  | [] => lo ≤ hi
  | s :: ss => lo ≤ s.start ∧ s.start < s.stop ∧ P s.start ∧ P s.stop ∧ LaidOut P s.stop hi ss

namespace LaidOut

variable {P : Nat → Prop} {lo hi mid : Nat} {spans later : List Span}

theorem append (h : LaidOut P lo mid spans) (hlater : LaidOut P mid hi later) :
    LaidOut P lo hi (spans ++ later) := by
  induction spans generalizing lo with
  | nil =>
      have hle : lo ≤ mid := h
      cases later with
      | nil => exact Nat.le_trans hle hlater
      | cons s ss =>
          obtain ⟨hstart, hrest⟩ := hlater
          exact ⟨Nat.le_trans hle hstart, hrest⟩
  | cons s ss ih =>
      obtain ⟨hstart, hlt, hs, hs', hss⟩ := h
      exact ⟨hstart, hlt, hs, hs', ih hss⟩

theorem nil (h : lo ≤ hi) : LaidOut P lo hi [] :=
  h

theorem single {s : Span} (hlo : lo ≤ s.start) (hlt : s.start < s.stop) (hstart : P s.start)
    (hstop : P s.stop) (hhi : s.stop ≤ hi) : LaidOut P lo hi [s] :=
  ⟨hlo, hlt, hstart, hstop, hhi⟩

theorem le (h : LaidOut P lo hi spans) : lo ≤ hi := by
  induction spans generalizing lo with
  | nil => exact h
  | cons s ss ih =>
      obtain ⟨hstart, hlt, -, -, hss⟩ := h
      have hle := ih hss
      omega

theorem of_mem {s : Span} (h : LaidOut P lo hi spans) (hs : s ∈ spans) :
    lo ≤ s.start ∧ s.start < s.stop ∧ P s.start ∧ P s.stop ∧ s.stop ≤ hi := by
  induction spans generalizing lo with
  | nil => cases hs
  | cons t ts ih =>
      obtain ⟨hstart, hlt, ht, ht', hts⟩ := h
      rcases List.mem_cons.mp hs with rfl | hs
      · exact ⟨hstart, hlt, ht, ht', hts.le⟩
      · obtain ⟨hle, hrest⟩ := ih hts hs
        exact ⟨by omega, hrest⟩

theorem of_append_left (h : LaidOut P lo hi (spans ++ later)) : LaidOut P lo hi spans := by
  induction spans generalizing lo with
  | nil => exact h.le
  | cons s ss ih =>
      obtain ⟨hstart, hlt, hs, hs', hss⟩ := h
      exact ⟨hstart, hlt, hs, hs', ih hss⟩

theorem of_append_right (h : LaidOut P lo hi (spans ++ later)) : LaidOut P lo hi later := by
  induction spans generalizing lo with
  | nil => exact h
  | cons s ss ih =>
      obtain ⟨hstart, hlt, -, -, hss⟩ := h
      have hle : lo ≤ s.stop := by omega
      have hlater := ih hss
      exact (LaidOut.nil hle).append hlater

theorem pairwise (h : LaidOut P lo hi spans) :
    spans.Pairwise fun s t => s.stop ≤ t.start := by
  induction spans generalizing lo with
  | nil => exact List.Pairwise.nil
  | cons s ss ih =>
      obtain ⟨-, -, -, -, hss⟩ := h
      exact List.Pairwise.cons (fun t ht => (hss.of_mem ht).1) (ih hss)

end LaidOut

namespace Text

/-- A byte offset that cuts no character of a text. -/
def IsBoundary (source : List Char) (byte : Nat) : Prop :=
  ∃ before, before <+: source ∧ byteLength before = byte

end Text

namespace Token

open Text

theorem laidOut_scan {source before cs : List Char} {pos : Nat} (hsource : before ++ cs = source)
    (hpos : byteLength before = pos) :
    LaidOut (IsBoundary source) pos (byteLength source) ((scan pos cs).map Token.span) := by
  fun_induction scan pos cs generalizing before with
  | case1 pos =>
      rw [List.append_nil] at hsource
      rw [← hpos, ← hsource]
      exact LaidOut.nil (Nat.le_refl _)
  | case2 pos c cs hblank ih =>
      have hone : (before ++ [c]) ++ cs = source := by
        rw [List.append_assoc, List.singleton_append, hsource]
      have htail := ih hone (by simp [hpos])
      exact LaidOut.append (LaidOut.nil (Nat.le_add_right pos c.utf8Size)) htail
  | case3 pos c cs hblank kind n hlexeme stop =>
      rename_i ih
      have hcut : (before ++ c :: cs.take n) ++ cs.drop n = source := by
        rw [List.append_assoc, List.cons_append, List.take_append_drop, hsource]
      have hstop : byteLength (before ++ c :: cs.take n) = stop := by
        rw [byteLength_append, hpos]
      have hlt : pos < stop := by
        have hc := c.utf8Size_pos
        simp only [stop, byteLength_cons]
        omega
      refine ⟨Nat.le_refl pos, hlt, ⟨before, ⟨_, hsource⟩, hpos⟩, ⟨_, ⟨_, hcut⟩, hstop⟩, ?_⟩
      exact ih hcut hstop

end Token

theorem laidOut_tokenize (source : List Char) :
    LaidOut (Text.IsBoundary source) 0 (Text.byteLength source)
      ((tokenize source).map Token.span) :=
  Token.laidOut_scan (List.nil_append source) rfl

end DiagramTint
