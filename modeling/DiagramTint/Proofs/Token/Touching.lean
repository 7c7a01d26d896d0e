import DiagramTint.Proofs.Token.Cutting
import DiagramTint.Proofs.Token.Layout
import Mathlib.Data.List.Chain

/-!
# Tokens in their text

Each token is a part of one line that does not begin with a blank, and of two tokens with nothing
between them not both are comments, names or keywords.
-/

namespace DiagramTint

namespace LaidOut

variable {α : Type} {P : Nat → Prop} {lo hi : Nat} {span : α → Span} {R : α → α → Prop}

/-- Things that touch are neighbours. -/
theorem pairwise_of_isChain {xs : List α} (h : LaidOut P lo hi (xs.map span))
    (hchain : xs.IsChain fun a b => (span a).stop = (span b).start → R a b) :
    xs.Pairwise fun a b => (span a).stop = (span b).start → R a b := by
  induction xs generalizing lo with
  | nil => exact List.Pairwise.nil
  | cons a xs ih =>
      obtain ⟨-, -, -, -, hxs⟩ := h
      obtain ⟨hnext, hrest⟩ := List.isChain_cons.mp hchain
      refine List.Pairwise.cons ?_ (ih hxs hrest)
      intro b hb htouch
      cases xs with
      | nil => cases hb
      | cons c cs =>
          rcases List.mem_cons.mp hb with rfl | hb
          · exact hnext b rfl htouch
          · -- The neighbour stands between them.
            obtain ⟨hle, hlt, -, -, hcs⟩ := hxs
            have hpast := (hcs.of_mem (List.mem_map_of_mem hb)).1
            omega

/-- Things that follow one another have different spans. -/
theorem eq_of_span_eq {xs : List α} {a b : α} (h : LaidOut P lo hi (xs.map span)) (ha : a ∈ xs)
    (hb : b ∈ xs) (hspan : span a = span b) : a = b := by
  induction xs generalizing lo with
  | nil => cases ha
  | cons x xs ih =>
      obtain ⟨-, hlt, -, -, hxs⟩ := h
      have hpast : ∀ y ∈ xs, span x ≠ span y := by
        intro y hy heq
        have hle := (hxs.of_mem (List.mem_map_of_mem hy)).1
        rw [heq] at hlt hle
        omega
      rcases List.mem_cons.mp ha with hax | hax
      · rcases List.mem_cons.mp hb with hbx | hbx
        · rw [hax, hbx]
        · rw [hax] at hspan
          exact absurd hspan (hpast b hbx)
      · rcases List.mem_cons.mp hb with hbx | hbx
        · rw [hbx] at hspan
          exact absurd hspan.symm (hpast a hax)
        · exact ih hxs hax hbx

end LaidOut

namespace Token

open Text

theorem exists_lexeme {pos : Nat} {cs : List Char} {t : Token} (h : t ∈ scan pos cs) :
    ∃ pre c text post, cs = pre ++ (c :: text ++ post) ∧
      t.span = ⟨pos + byteLength pre, pos + byteLength (pre ++ c :: text)⟩ ∧
      isBlank c = false ∧ lexeme c (text ++ post) = (t.kind, text.length) := by
  induction pos, cs using scanInduction with
  | nil pos => simp at h
  | blank pos c cs hblank ih =>
      rw [scan_blank hblank] at h
      obtain ⟨pre, d, text, post, rfl, hspan, hd, hlexeme⟩ := ih h
      refine ⟨c :: pre, d, text, post, rfl, ?_, hd, hlexeme⟩
      rw [hspan, List.cons_append, byteLength_cons, byteLength_cons, Nat.add_assoc, Nat.add_assoc]
  | token pos c text rest kind hblank hlexeme ih =>
      rw [scan_token hblank hlexeme, List.mem_cons] at h
      rcases h with rfl | h
      · exact ⟨[], c, text, rest, rfl, rfl, hblank, hlexeme⟩
      · obtain ⟨pre, d, text', post, rfl, hspan, hd, hlexeme'⟩ := ih h
        refine ⟨c :: text ++ pre, d, text', post, by simp, ?_, hd, hlexeme'⟩
        rw [hspan, List.append_assoc, byteLength_append (c :: text), byteLength_append (c :: text),
          Nat.add_assoc, Nat.add_assoc]

theorem exists_lexeme_of_tokenize {source : List Char} {t : Token} (h : t ∈ tokenize source) :
    ∃ pre c text post, source = pre ++ (c :: text ++ post) ∧
      t.span = ⟨byteLength pre, byteLength (pre ++ c :: text)⟩ ∧
      isBlank c = false ∧ lexeme c (text ++ post) = (t.kind, text.length) := by
  have hlexeme := exists_lexeme h
  simpa only [Nat.zero_add] using hlexeme

theorem exists_text {pos : Nat} {cs : List Char} {t : Token} (h : t ∈ scan pos cs) :
    ∃ pre c text post, cs = pre ++ (c :: text ++ post) ∧
      t.span = ⟨pos + byteLength pre, pos + byteLength (pre ++ c :: text)⟩ ∧
      isBlank c = false ∧ '\n' ∉ c :: text := by
  obtain ⟨pre, c, text, post, hcs, hspan, hblank, hlexeme⟩ := exists_lexeme h
  refine ⟨pre, c, text, post, hcs, hspan, hblank, ?_⟩
  have hc : '\n' ≠ c := by
    rintro rfl
    exact absurd hblank (by decide)
  rw [List.mem_cons, not_or]
  exact ⟨hc, newline_not_mem_of_lexeme hlexeme⟩

theorem kind_of_head {c : Char} (h : isBlank c = false) (pos : Nat) (cs : List Char) :
    ∀ t ∈ (scan pos (c :: cs)).head?, (lexeme c cs).1 = t.kind := by
  rw [scan.eq_def]
  simp [h]

/-- Two tokens that may stand next to one another with nothing between them. -/
def MayTouch (t u : Token) : Prop :=
  t.kind = u.kind → t.kind ≠ .lineComment ∧ t.kind ≠ .identifier ∧ t.kind ≠ .aliasKeyword

theorem mayTouch_of_lexeme {c : Char} {text rest : List Char} {kind : TokenKind} {stop : Nat}
    (h : lexeme c (text ++ rest) = (kind, text.length)) :
    ∀ u ∈ (scan stop rest).head?, stop = u.span.start → ∀ span, MayTouch ⟨kind, span⟩ u := by
  intro u hu htouch span hkind
  cases rest with
  | nil => simp at hu
  | cons d rest =>
      cases hd : isBlank d with
      | true =>
          -- A blank stands between the two.
          rw [scan_blank hd] at hu
          obtain ⟨pre, e, text, post, -, hspan, -, -⟩ := exists_text (List.mem_of_mem_head? hu)
          have hpos := d.utf8Size_pos
          rw [hspan] at htouch
          dsimp only at htouch
          omega
      | false =>
          have hnext := kind_of_head hd stop rest u hu
          exact kind_of_touching h hd (hnext.trans hkind.symm)

theorem isChain_scan (pos : Nat) (cs : List Char) :
    (scan pos cs).IsChain fun t u => t.span.stop = u.span.start → MayTouch t u := by
  induction pos, cs using scanInduction with
  | nil pos => simp
  | blank pos c cs hblank ih =>
      rw [scan_blank hblank]
      exact ih
  | token pos c text rest kind hblank hlexeme ih =>
      rw [scan_token hblank hlexeme]
      refine ih.cons ?_
      intro u hu htouch
      exact mayTouch_of_lexeme hlexeme u hu htouch _

end Token

end DiagramTint
