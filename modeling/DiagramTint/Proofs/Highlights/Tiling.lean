import DiagramTint.Proofs.Highlights.Order
import DiagramTint.Proofs.Token.Touching

/-!
# Pieces that follow one another

The pieces of a well-nested tree stand in the order of the text and do not overlap, once those that
cover no byte are left out.  Joining them keeps this and leaves no two pieces that touch with the
same tag.
-/

namespace DiagramTint

namespace LaidOut

variable {P : Nat → Prop} {lo hi : Nat} {spans : List Span}

theorem eq_nil (h : LaidOut P lo hi spans) (hle : hi ≤ lo) : spans = [] := by
  cases spans with
  | nil => rfl
  | cons s ss =>
      obtain ⟨hstart, hlt, -, -, hss⟩ := h
      have hstop := hss.le
      omega

theorem of_concat {s : Span} (h : LaidOut P lo hi (spans ++ [s])) :
    LaidOut P lo s.start spans ∧ s.start < s.stop ∧ P s.start ∧ P s.stop ∧ s.stop ≤ hi := by
  induction spans generalizing lo with
  | nil =>
      obtain ⟨hlo, hs⟩ := h
      exact ⟨hlo, hs⟩
  | cons t ts ih =>
      obtain ⟨hstart, hlt, ht, ht', hts⟩ := h
      obtain ⟨hbefore, hs⟩ := ih hts
      exact ⟨⟨hstart, hlt, ht, ht', hbefore⟩, hs⟩

end LaidOut

/-! ## The pieces of a tree -/

namespace Paint

variable {P : Nat → Prop} {lo mid hi : Nat} {ps qs : List Piece}

/-- The pieces of a list that cover any byte follow one another between the bytes `lo` and `hi`. -/
def InOrder (P : Nat → Prop) (lo hi : Nat) (ps : List Piece) : Prop :=
  LaidOut P lo hi ((ps.filter fun p => p.span.start < p.span.stop).map Piece.span)

theorem InOrder.append (h : InOrder P lo mid ps) (hlater : InOrder P mid hi qs) :
    InOrder P lo hi (ps ++ qs) := by
  unfold InOrder at *
  rw [List.filter_append, List.map_append]
  exact LaidOut.append h hlater

theorem inOrder_gap {cursor start : Nat} (tag : Tag) (hcursor : P cursor) (hstart : P start) :
    InOrder P cursor (max cursor start) [⟨⟨cursor, start⟩, tag⟩] := by
  unfold InOrder
  by_cases hlt : cursor < start
  · rw [List.filter_cons_of_pos (by simpa using hlt), Nat.max_eq_right (Nat.le_of_lt hlt)]
    exact LaidOut.single (Nat.le_refl _) hlt hcursor hstart (Nat.le_refl _)
  · rw [List.filter_cons_of_neg (by simpa using hlt)]
    exact LaidOut.nil (Nat.le_max_left _ _)

/-- Pieces between `lo` and `hi` also follow what ends at `cursor`, if that is before `lo` or there
is no byte between the two. -/
theorem InOrder.behind (h : InOrder P lo hi ps) (cursor : Nat) (hcursor : lo < hi → cursor ≤ lo) :
    InOrder P cursor (max cursor hi) ps := by
  unfold InOrder at *
  by_cases hlt : lo < hi
  · have hle := hcursor hlt
    rw [Nat.max_eq_right (by omega)]
    exact LaidOut.append (LaidOut.nil hle) h
  · rw [h.eq_nil (Nat.le_of_not_lt hlt)]
    exact LaidOut.nil (Nat.le_max_left _ _)

end Paint

namespace Tree

variable {α : Type} {P : Nat → Prop} {limit stop cursor : Nat} {ts : List (Tree α)}

/-- Spans cut down to the first `limit` bytes that stand in order between `cursor` and `stop`. Those
without any byte may stand anywhere. -/
def Queued (P : Nat → Prop) (limit stop : Nat) : Nat → List (Tree α) → Prop
  | cursor, [] => cursor ≤ stop
  | cursor, t :: ts =>
    (t.span.clamp limit).start ≤ (t.span.clamp limit).stop ∧ (t.span.clamp limit).stop ≤ stop ∧
      ((t.span.clamp limit).start < (t.span.clamp limit).stop →
        cursor ≤ (t.span.clamp limit).start) ∧
      P (t.span.clamp limit).start ∧ P (t.span.clamp limit).stop ∧
      Queued P limit stop (max cursor (t.span.clamp limit).stop) ts

theorem queued_of_pairwise (hcursor : cursor ≤ stop)
    (hordered : ∀ t ∈ ts, t.span.start ≤ t.span.stop)
    (hstop : ∀ t ∈ ts, (t.span.clamp limit).stop ≤ stop)
    (hends : ∀ t ∈ ts, P (t.span.clamp limit).start ∧ P (t.span.clamp limit).stop)
    (hafter : ∀ t ∈ ts, (t.span.clamp limit).start < (t.span.clamp limit).stop →
      cursor ≤ (t.span.clamp limit).start)
    (hapart : ts.Pairwise fun a b =>
      a.span.start ≤ b.span.start ∧ ∀ byte, ¬ (a.span.Contains byte ∧ b.span.Contains byte)) :
    Queued P limit stop cursor ts := by
  induction ts generalizing cursor with
  | nil => exact hcursor
  | cons t ts ih =>
      obtain ⟨hordered, hordereds⟩ := List.forall_mem_cons.mp hordered
      obtain ⟨hstop, hstops⟩ := List.forall_mem_cons.mp hstop
      obtain ⟨hends, hendss⟩ := List.forall_mem_cons.mp hends
      obtain ⟨hafter, hafters⟩ := List.forall_mem_cons.mp hafter
      obtain ⟨hnext, hrest⟩ := List.pairwise_cons.mp hapart
      have hclamp : (t.span.clamp limit).start ≤ (t.span.clamp limit).stop := by
        simp only [Span.clamp]
        omega
      refine ⟨hclamp, hstop, hafter, hends.1, hends.2, ?_⟩
      refine ih (Nat.max_le.mpr ⟨hcursor, hstop⟩) hordereds hstops hendss ?_ hrest
      intro u hu hlt
      refine Nat.max_le.mpr ⟨hafters u hu hlt, ?_⟩
      -- The first byte of `u` is no byte of `t`, and `t` starts before it.
      obtain ⟨hle, hfree⟩ := hnext u hu
      have hfirst := hfree u.span.start
      simp only [Span.Contains, Span.clamp] at hfirst hlt ⊢
      omega

theorem NestsChildren.queued {t : Tree α} (h : t.NestsChildren)
    (hordered : ∀ c ∈ t.children, c.span.start ≤ c.span.stop)
    (hends : ∀ c ∈ t.children, P (c.span.clamp limit).start ∧ P (c.span.clamp limit).stop) :
    Queued P limit (t.span.clamp limit).stop (t.span.clamp limit).start t.children := by
  have hspan := h.ordered
  apply queued_of_pairwise
  · simp only [Span.clamp]
    omega
  · exact hordered
  · intro c hc
    have hinside := h.inside c hc
    simp only [Span.clamp]
    omega
  · exact hends
  · intro c hc _
    have hinside := h.inside c hc
    simp only [Span.clamp]
    omega
  · exact h.apart

variable {classify : α → List α → Option Tag} {chain : List α}

theorem inOrder_piecesUntagged (h : Queued P limit stop cursor ts)
    (hts : ∀ t ∈ ts, Paint.InOrder P (t.span.clamp limit).start (t.span.clamp limit).stop
      (t.pieces classify limit chain none)) :
    Paint.InOrder P cursor stop (piecesUntagged classify limit chain ts) := by
  induction ts generalizing cursor with
  | nil =>
      rw [piecesUntagged]
      exact LaidOut.nil h
  | cons t ts ih =>
      obtain ⟨-, -, hafter, -, -, hrest⟩ := h
      obtain ⟨ht, hts⟩ := List.forall_mem_cons.mp hts
      rw [piecesUntagged]
      exact (ht.behind cursor hafter).append (ih hrest hts)

theorem inOrder_piecesBetween {tag : Tag} (h : Queued P limit stop cursor ts)
    (hcursor : P cursor) (hstop : P stop)
    (hts : ∀ t ∈ ts, Paint.InOrder P (t.span.clamp limit).start (t.span.clamp limit).stop
      (t.pieces classify limit chain (some tag))) :
    Paint.InOrder P cursor stop (piecesBetween classify limit chain tag stop cursor ts) := by
  induction ts generalizing cursor with
  | nil =>
      have hgap := Paint.inOrder_gap tag hcursor hstop
      rw [piecesBetween]
      rwa [Nat.max_eq_right h] at hgap
  | cons t ts ih =>
      obtain ⟨hordered, hle, hafter, hfirst, hlast, hrest⟩ := h
      obtain ⟨ht, hts⟩ := List.forall_mem_cons.mp hts
      have hnext : P (max cursor (t.span.clamp limit).stop) := by
        rcases Nat.le_total cursor (t.span.clamp limit).stop with hmax | hmax
        · rwa [Nat.max_eq_right hmax]
        · rwa [Nat.max_eq_left hmax]
      have hgap := Paint.inOrder_gap tag hcursor hfirst
      have hchild := ht.behind (max cursor (t.span.clamp limit).start) (by omega)
      rw [Nat.max_assoc, Nat.max_eq_right hordered] at hchild
      rw [piecesBetween, Nat.min_eq_left hle, Nat.min_eq_left (Nat.le_trans hordered hle)]
      exact (hgap.append hchild).append (ih hrest hnext hts)

/-- The pieces of a well-nested tree follow one another inside its span. -/
theorem WellNested.inOrder_pieces {t : Tree α} (h : t.WellNested)
    (hends : ∀ n ∈ t.preorder, P (n.span.clamp limit).start ∧ P (n.span.clamp limit).stop)
    (inherited : Option Tag) :
    Paint.InOrder P (t.span.clamp limit).start (t.span.clamp limit).stop
      (t.pieces classify limit chain inherited) := by
  induction t generalizing chain inherited with
  | node label span children ih =>
      obtain ⟨hnode, hbelow⟩ := wellNested_node.mp h
      rw [preorder_node] at hends
      obtain ⟨hroot, hrest⟩ := List.forall_mem_cons.mp hends
      have hchild : ∀ c ∈ children, ∀ n ∈ c.preorder,
          P (n.span.clamp limit).start ∧ P (n.span.clamp limit).stop :=
        fun c hc n hn => hrest n (List.mem_flatMap.mpr ⟨c, hc, hn⟩)
      have hqueued : Queued P limit (span.clamp limit).stop (span.clamp limit).start children := by
        apply hnode.queued
        · intro c hc
          exact (hbelow c hc c c.self_mem_preorder).ordered
        · intro c hc
          exact hchild c hc c c.self_mem_preorder
      rw [pieces]
      cases (classify label chain).or inherited with
      | none =>
          apply inOrder_piecesUntagged hqueued
          intro c hc
          exact ih c hc (hbelow c hc) (hchild c hc) none
      | some tag =>
          apply inOrder_piecesBetween hqueued hroot.1 hroot.2
          intro c hc
          exact ih c hc (hbelow c hc) (hchild c hc) (some tag)

end Tree

/-! ## Joined pieces -/

namespace Paint

variable {P : Nat → Prop} {lo mid hi : Nat} {done : List Piece} {p : Piece}

theorem laidOut_join (h : LaidOut P lo mid (done.reverse.map Piece.span))
    (hmid : mid ≤ p.span.start) (hlt : p.span.start < p.span.stop) (hstart : P p.span.start)
    (hstop : P p.span.stop) :
    LaidOut P lo p.span.stop ((join done p).reverse.map Piece.span) := by
  have hlast : LaidOut P lo p.span.stop (done.reverse.map Piece.span ++ [p.span]) :=
    h.append (LaidOut.single hmid hlt hstart hstop (Nat.le_refl _))
  unfold join
  rw [if_neg (by omega)]
  cases done with
  | nil => exact hlast
  | cons last rest =>
      simp only
      split
      · rename_i htouch
        rw [List.reverse_cons, List.map_append] at h
        obtain ⟨hbefore, hlt', hstart', -, -⟩ := h.of_concat
        rw [List.reverse_cons, List.map_append]
        refine hbefore.append (LaidOut.single (Nat.le_refl _) ?_ hstart' hstop (Nat.le_refl _))
        simp only
        omega
      · rw [List.reverse_cons, List.map_append]
        exact hlast

theorem isChain_join (h : done.reverse.IsChain Apart) : (join done p).reverse.IsChain Apart := by
  unfold join
  split
  · exact h
  · cases done with
    | nil => simp
    | cons last rest =>
        simp only
        split
        · -- The joined piece starts where the last one did and has its tag.
          rename_i htouch
          rw [List.reverse_cons, List.isChain_append] at h ⊢
          obtain ⟨hrest, -, hlast⟩ := h
          refine ⟨hrest, List.isChain_singleton _, ?_⟩
          intro q hq r hr
          have hapart := hlast q hq last rfl
          rw [List.head?_cons, Option.mem_some_iff] at hr
          subst hr
          unfold Apart at *
          rwa [← htouch.1]
        · rename_i hapart
          rw [List.reverse_cons, List.isChain_append]
          refine ⟨h, List.isChain_singleton _, ?_⟩
          intro q hq r hr
          rw [List.getLast?_reverse, List.head?_cons, Option.mem_some_iff] at hq
          rw [List.head?_cons, Option.mem_some_iff] at hr
          subst hq hr
          exact hapart

theorem laidOut_foldl_join {ps : List Piece} (h : LaidOut P lo mid (done.reverse.map Piece.span))
    (hps : InOrder P mid hi ps) :
    LaidOut P lo hi ((ps.foldl join done).reverse.map Piece.span) := by
  induction ps generalizing done mid with
  | nil =>
      have hall := h.append hps
      rwa [List.filter_nil, List.map_nil, List.append_nil] at hall
  | cons p ps ih =>
      unfold InOrder at hps
      by_cases hlt : p.span.start < p.span.stop
      · rw [List.filter_cons_of_pos (by simpa using hlt)] at hps
        obtain ⟨hmid, -, hstart, hstop, hrest⟩ := hps
        exact ih (laidOut_join h hmid hlt hstart hstop) hrest
      · rw [List.filter_cons_of_neg (by simpa using hlt)] at hps
        have hjoin : join done p = done := if_pos (Nat.le_of_not_lt hlt)
        rw [List.foldl_cons, hjoin]
        exact ih h hps

theorem isChain_joinAll (ps : List Piece) : (joinAll ps).IsChain Apart := by
  unfold joinAll
  have hstart : ([] : List Piece).reverse.IsChain Apart := by simp
  generalize ([] : List Piece) = done at hstart
  induction ps generalizing done with
  | nil => exact hstart
  | cons p ps ih => exact ih (join done p) (isChain_join hstart)

theorem laidOut_joinAll {ps : List Piece} (h : InOrder P lo hi ps) :
    LaidOut P lo hi ((joinAll ps).map Piece.span) :=
  laidOut_foldl_join (LaidOut.nil (Nat.le_refl lo)) h

theorem pairwise_joinAll {ps : List Piece} (h : InOrder P lo hi ps) :
    (joinAll ps).Pairwise fun p q => p.span.stop = q.span.start → p.tag ≠ q.tag := by
  apply (laidOut_joinAll h).pairwise_of_isChain
  refine (isChain_joinAll ps).imp ?_
  intro p q hapart htouch htag
  exact hapart ⟨htag, htouch⟩

end Paint

end DiagramTint
