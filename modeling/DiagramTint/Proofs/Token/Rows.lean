import DiagramTint.Proofs.Text.Position
import DiagramTint.Proofs.Token.Cutting

/-!
# Tokens row by row

No token reaches past a line feed, and none depends on what stands behind the line feed that ends
its row.  A text can therefore be cut at any line feed, and its tokens are those of its rows, each
row read for itself and moved to where it stands.
-/

namespace DiagramTint

namespace Token

open Text

theorem lexeme_append_newline (c : Char) (cs ds : List Char) :
    lexeme c (cs ++ '\n' :: ds) = lexeme c cs := by
  rcases lexeme_append_cases c cs ('\n' :: ds) with hsame | ⟨hpast, -⟩
  · exact hsame
  · -- A token that runs past `cs` has the line feed among its characters.
    apply absurd _ (newline_not_mem_lexeme c (cs ++ '\n' :: ds))
    rw [List.mem_take_iff_getElem]
    refine ⟨cs.length, ?_, ?_⟩
    · simp only [List.length_append, List.length_cons]
      omega
    · simp

theorem scan_append_newline (pos : Nat) (a b : List Char) :
    scan pos (a ++ '\n' :: b) = scan pos a ++ scan (pos + byteLength a + 1) b := by
  induction pos, a using scanInduction with
  | nil pos =>
      rw [List.nil_append, scan_nil, List.nil_append]
      exact scan_blank (by decide) pos b
  | blank pos c cs hblank ih =>
      rw [List.cons_append, scan_blank hblank, scan_blank hblank, ih, byteLength_cons,
        Nat.add_assoc pos]
  | token pos c text rest kind hblank hlexeme ih =>
      have hlonger : lexeme c (text ++ (rest ++ '\n' :: b)) = (kind, text.length) := by
        rw [← List.append_assoc, lexeme_append_newline, hlexeme]
      have hlength : byteLength (c :: (text ++ rest)) = byteLength (c :: text) + byteLength rest :=
        byteLength_append (c :: text) rest
      rw [List.cons_append, List.append_assoc, scan_token hblank hlonger,
        scan_token hblank hlexeme, ih, hlength, Nat.add_assoc pos]
      rfl

/-- The tokens of rows that follow one another from the byte `start` on, with a line feed between
each row and the next; every row is read for itself. -/
def scanRows (start : Nat) : List (List Char) → List Token
  | [] => []
  | row :: rows => (tokenize row).map (shift start) ++ scanRows (start + byteLength row + 1) rows

theorem scan_eq_scanRows (start : Nat) (cs : List Char) :
    scan start cs = scanRows start (splitWhere (· == '\n') cs) := by
  have hrow : ∀ start row, scan start row = (tokenize row).map (shift start) := by
    intro start row
    rw [tokenize, ← scan_add, Nat.zero_add]
  induction cs using lineInduction generalizing start with
  | last row h => rw [splitWhere_of_not_mem h, scanRows, scanRows, List.append_nil, hrow]
  | cut row rest h ih =>
      rw [splitWhere_append_newline rest h, scanRows, scan_append_newline, ih, hrow]

end Token

/-- The tokens of two texts with a line feed between them are the tokens of the one followed by
those of the other, and so the tokens of any text are those of its rows. -/
theorem tokenize_row_by_row :
    (∀ a b : List Char, tokenize (a ++ '\n' :: b) =
      tokenize a ++ (tokenize b).map (Token.shift (Text.byteLength a + 1))) ∧
    ∀ source : List Char,
      tokenize source = Token.scanRows 0 (Text.splitWhere (· == '\n') source) := by
  refine ⟨fun a b => ?_, fun source => Token.scan_eq_scanRows 0 source⟩
  rw [tokenize, Token.scan_append_newline, Nat.add_assoc, Token.scan_add]
  rfl

-- A backslash at the end of a row does not carry over to the quote on the next one.
example : tokenize ['"', '\\', '\n', '"', '"'] =
    [⟨.string false, ⟨0, 2⟩⟩, ⟨.string true, ⟨3, 5⟩⟩] := by
  decide +kernel

end DiagramTint
