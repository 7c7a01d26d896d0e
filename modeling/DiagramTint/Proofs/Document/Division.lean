import DiagramTint.Proofs.Document.Shift

/-!
# Division into statements

The tokens of a document fall into chunks that are read one after the other: a comment, a semicolon
or a stray token of its own, or a statement from its first token to its last.  What is read from a
chunk does not depend on the tokens around it.
-/

namespace DiagramTint

/-- The classes of tokens with which neither a statement nor a comment starts. -/
def TokenKind.IsStray : TokenKind → Prop
  | .string _ | .arrow | .equals | .colon | .unknown => True
  | _ => False

theorem Stage.takes_semicolon (stage : Stage) : stage.takes .semicolon = none := by
  cases stage with
  | aliasText equals => cases equals <;> rfl
  | _ => rfl

namespace Document

theorem Output.append_assoc (a b c : Output) : a ++ b ++ c = a ++ (b ++ c) :=
  congrArg₂ Output.mk (List.append_assoc _ _ _) (List.append_assoc _ _ _)

@[simp]
theorem Output.empty_append (a : Output) : ({} : Output) ++ a = a := rfl

@[simp]
theorem Output.append_empty (a : Output) : a ++ ({} : Output) = a :=
  congrArg₂ Output.mk (List.append_nil _) (List.append_nil _)

/-- The tokens with which an open statement goes on to its end, and what is read from them; `last`
is the end of its last token so far. -/
inductive Completes : Statement → Nat → List Token → Output → Prop where
  | stops {s : Statement} {last : Nat} : Completes s last [] (abandon s last last)
  | semicolon {s : Statement} {last : Nat} {t : Token} (hkind : t.kind = .semicolon) :
      Completes s last [t] (abandon s last t.span.stop)
  | takes {s : Statement} {last : Nat} {t : Token} {ts : List Token} {o : Output}
      {r : Stage.Reaction} (htakes : s.stage.takes t.kind = some r)
      (hrest : Completes (taken s t r) t.span.stop ts o) :
      Completes s last (t :: ts)
        ({ diagnostics := r.fault.toList.map fun fault => ⟨fault, t.span⟩ } ++ o)

/-- Tokens that are read on their own, and what is read from them. -/
inductive Chunk : List Token → Output → Prop where
  | comment {t : Token} (hkind : t.kind = .lineComment) :
      Chunk [t] { nodes := [.leaf .lineComment t.span] }
  | empty {t : Token} (hkind : t.kind = .semicolon) : Chunk [t] {}
  | stray {t : Token} (hkind : t.kind.IsStray) :
      Chunk [t]
        { nodes := [.leaf .error t.span], diagnostics := [⟨.expectedStatement, t.span⟩] }
  | declaration {t : Token} {ts : List Token} {o : Output} (hkind : t.kind = .aliasKeyword)
      (hrest : Completes ⟨.alias, t.span.start, .aliasName, [.leaf .aliasKeyword t.span]⟩
        t.span.stop ts o) : Chunk (t :: ts) o
  | message {t : Token} {ts : List Token} {o : Output} (hkind : t.kind = .identifier)
      (hrest : Completes ⟨.message, t.span.start, .messageArrow, [.leaf .identifier t.span]⟩
        t.span.stop ts o) : Chunk (t :: ts) o

/-- Chunks that follow one another. -/
inductive Divides : List Token → Output → Prop where
  | nil : Divides [] {}
  | cons {ts us : List Token} {o p : Output} (hchunk : Chunk ts o) (hrest : Divides us p) :
      Divides (ts ++ us) (o ++ p)

/-! ## Reading chunk by chunk -/

theorem run_takes_eq {s : Statement} {t : Token} {r : Stage.Reaction}
    (h : s.stage.takes t.kind = some r) (last : Nat) (ts : List Token) :
    run ⟨last, some s⟩ (t :: ts) =
      { diagnostics := r.fault.toList.map fun fault => ⟨fault, t.span⟩ } ++
        run ⟨t.span.stop, some (taken s t r)⟩ ts := by
  rw [run, step]
  simp only [advance_takes h]

theorem run_semicolon_eq {t : Token} (hkind : t.kind = .semicolon) (s : Statement) (last : Nat)
    (ts : List Token) :
    run ⟨last, some s⟩ (t :: ts) = abandon s last t.span.stop ++ run {} ts := by
  have htakes : s.stage.takes t.kind = none := by
    rw [hkind, Stage.takes_semicolon]
  rw [run, step]
  simp only [advance_semicolon hkind htakes]
  rw [run_none]

theorem run_refuses_eq {s : Statement} {t : Token} (hkind : t.kind ≠ .semicolon)
    (h : s.stage.takes t.kind = none) (last : Nat) (ts : List Token) :
    run ⟨last, some s⟩ (t :: ts) = abandon s last last ++ run {} (t :: ts) := by
  rw [run, step, run, step]
  simp only [advance_refuses hkind h]
  rw [Output.append_assoc]

theorem Completes.run_eq {s : Statement} {last : Nat} {ts : List Token} {o : Output}
    (h : Completes s last ts o) : run ⟨last, some s⟩ ts = o := by
  induction h with
  | stops => rfl
  | semicolon hkind =>
      rw [run_semicolon_eq hkind]
      exact Output.append_empty _
  | takes htakes hrest ih => rw [run_takes_eq htakes, ih]

/-- An open statement goes on to some token, and reading starts afresh behind it. -/
theorem exists_completes (s : Statement) (last : Nat) (ts : List Token) :
    ∃ mid rest o, ts = mid ++ rest ∧ Completes s last mid o ∧
      run ⟨last, some s⟩ ts = o ++ run {} rest := by
  induction ts generalizing s last with
  | nil => exact ⟨[], [], _, rfl, .stops, (Output.append_empty _).symm⟩
  | cons t ts ih =>
      cases htakes : s.stage.takes t.kind with
      | some r =>
          obtain ⟨mid, rest, o, rfl, hmid, hrun⟩ := ih (taken s t r) t.span.stop
          refine ⟨t :: mid, rest, _, rfl, .takes htakes hmid, ?_⟩
          rw [run_takes_eq htakes, hrun, Output.append_assoc]
      | none =>
          by_cases hsemicolon : t.kind = .semicolon
          · exact ⟨[t], ts, _, rfl, .semicolon hsemicolon, run_semicolon_eq hsemicolon s last ts⟩
          · exact ⟨[], t :: ts, _, rfl, .stops, run_refuses_eq hsemicolon htakes last ts⟩

theorem start_stray {t : Token} (h : t.kind.IsStray) :
    start t =
      ({ nodes := [.leaf .error t.span], diagnostics := [⟨.expectedStatement, t.span⟩] },
        { last := t.span.stop }) := by
  unfold start
  cases hkind : t.kind <;> simp_all [TokenKind.IsStray]

theorem run_start_eq (t : Token) (ts : List Token) :
    run {} (t :: ts) = (start t).1 ++ run (start t).2 ts := rfl

theorem Chunk.run_eq {ts : List Token} {o : Output} (h : Chunk ts o) : run {} ts = o := by
  cases h with
  | comment hkind =>
      rw [run_start_eq, start, hkind]
      rfl
  | empty hkind =>
      rw [run_start_eq, start, hkind]
      rfl
  | stray hkind =>
      rw [run_start_eq, start_stray hkind]
      rfl
  | declaration hkind hrest =>
      rw [run_start_eq, start, hkind]
      simp only [hrest.run_eq, Output.empty_append]
  | message hkind hrest =>
      rw [run_start_eq, start, hkind]
      simp only [hrest.run_eq, Output.empty_append]

/-- Reading ends its first chunk somewhere and starts afresh behind it. -/
theorem exists_chunk (t : Token) (ts : List Token) :
    ∃ mid rest o, ts = mid ++ rest ∧ Chunk (t :: mid) o ∧
      run {} (t :: ts) = o ++ run {} rest := by
  have hstray : t.kind.IsStray → ∃ mid rest o, ts = mid ++ rest ∧ Chunk (t :: mid) o ∧
      run {} (t :: ts) = o ++ run {} rest := by
    intro hkind
    refine ⟨[], ts, _, rfl, .stray hkind, ?_⟩
    rw [run_start_eq, start_stray hkind, run_none]
  cases hkind : t.kind with
  | lineComment =>
      refine ⟨[], ts, _, rfl, .comment hkind, ?_⟩
      rw [run_start_eq, start, hkind]
      exact congrArg _ (run_none _ ts)
  | semicolon =>
      refine ⟨[], ts, _, rfl, .empty hkind, ?_⟩
      rw [run_start_eq, start, hkind]
      exact congrArg _ (run_none _ ts)
  | aliasKeyword =>
      obtain ⟨mid, rest, o, rfl, hmid, hrun⟩ :=
        exists_completes ⟨.alias, t.span.start, .aliasName, [.leaf .aliasKeyword t.span]⟩
          t.span.stop ts
      refine ⟨mid, rest, o, rfl, .declaration hkind hmid, ?_⟩
      rw [run_start_eq, start, hkind]
      exact hrun
  | identifier =>
      obtain ⟨mid, rest, o, rfl, hmid, hrun⟩ :=
        exists_completes ⟨.message, t.span.start, .messageArrow, [.leaf .identifier t.span]⟩
          t.span.stop ts
      refine ⟨mid, rest, o, rfl, .message hkind hmid, ?_⟩
      rw [run_start_eq, start, hkind]
      exact hrun
  | string terminated => exact hstray (by rw [hkind]; trivial)
  | arrow => exact hstray (by rw [hkind]; trivial)
  | equals => exact hstray (by rw [hkind]; trivial)
  | colon => exact hstray (by rw [hkind]; trivial)
  | unknown => exact hstray (by rw [hkind]; trivial)

/-- Reading goes chunk by chunk. -/
theorem divides_run (ts : List Token) : Divides ts (run {} ts) := by
  induction hn : ts.length using Nat.strongRecOn generalizing ts with
  | _ n ih =>
      cases ts with
      | nil => exact .nil
      | cons t ts =>
          obtain ⟨mid, rest, o, rfl, hchunk, hrun⟩ := exists_chunk t ts
          have hlt : rest.length < n := by
            rw [← hn, List.length_cons, List.length_append]
            omega
          rw [hrun]
          exact .cons hchunk (ih rest.length hlt rest rfl)

/-! ## The node of a chunk -/

theorem Completes.exists_node {s : Statement} {last : Nat} {ts : List Token} {o : Output}
    (h : Completes s last ts o) :
    ∃ n, o.nodes = [n] ∧ n.span = ⟨s.start, Token.endOf last ts⟩ := by
  induction h with
  | stops => exact ⟨_, rfl, rfl⟩
  | semicolon hkind => exact ⟨_, rfl, rfl⟩
  | takes htakes hrest ih => exact ih

/-- A chunk is a semicolon of its own, or its node covers it from its first token to its last. -/
theorem Chunk.exists_node {t : Token} {ts : List Token} {o : Output} (h : Chunk (t :: ts) o) :
    (t.kind = .semicolon ∧ ts = [] ∧ o = {}) ∨
      ∃ n, o.nodes = [n] ∧ n.span = ⟨t.span.start, Token.endOf t.span.stop ts⟩ := by
  cases h with
  | comment hkind => exact Or.inr ⟨_, rfl, rfl⟩
  | empty hkind => exact Or.inl ⟨hkind, rfl, rfl⟩
  | stray hkind => exact Or.inr ⟨_, rfl, rfl⟩
  | declaration hkind hrest => exact Or.inr hrest.exists_node
  | message hkind hrest => exact Or.inr hrest.exists_node

theorem Chunk.ne_nil {ts : List Token} {o : Output} (h : Chunk ts o) : ts ≠ [] := by
  cases h <;> simp

end Document

end DiagramTint
