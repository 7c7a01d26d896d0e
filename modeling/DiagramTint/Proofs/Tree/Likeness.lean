import DiagramTint.Proofs.Document.Nesting
import Mathlib.Data.List.Forall2

/-!
# Trees that differ in their spans

Two trees are alike if they have the same shape and labels and their offsets are related one by one.
If the relation keeps the order of the offsets and a byte, the innermost node around that byte is in
the same place in both.
-/

namespace DiagramTint

theorem forall₂_imp_of_mem {α β : Type} {R S : α → β → Prop} {xs : List α} {ys : List β}
    (h : List.Forall₂ R xs ys) (himp : ∀ x ∈ xs, ∀ y ∈ ys, R x y → S x y) :
    List.Forall₂ S xs ys := by
  induction h with
  | nil => exact .nil
  | cons hhead _ ih =>
      refine .cons (himp _ List.mem_cons_self _ List.mem_cons_self hhead) (ih ?_)
      intro x hx y hy
      exact himp x (List.mem_cons_of_mem _ hx) y (List.mem_cons_of_mem _ hy)

theorem exists_mem_iff_of_forall₂ {α β : Type} {p : α → Prop} {q : β → Prop} {xs : List α}
    {ys : List β} (h : List.Forall₂ (fun x y => p x ↔ q y) xs ys) :
    (∃ x ∈ xs, p x) ↔ ∃ y ∈ ys, q y := by
  induction h with
  | nil => simp
  | cons hhead _ ih => simp only [List.exists_mem_cons_iff, hhead, ih]

namespace Tree

variable {α β : Type} {R : Nat → Nat → Prop}

inductive Alike (R : Nat → Nat → Prop) : Tree α → Tree α → Prop where
  | node {label : α} {span span' : Span} {children children' : List (Tree α)}
      (hstart : R span.start span'.start) (hstop : R span.stop span'.stop)
      (hchildren : List.Forall₂ (Alike R) children children') :
      Alike R (.node label span children) (.node label span' children')

theorem alike_leaf {span span' : Span} (label : α) (hstart : R span.start span'.start)
    (hstop : R span.stop span'.stop) : Alike R (leaf label span) (leaf label span') :=
  .node hstart hstop .nil

theorem alike_refl (hR : ∀ byte, R byte byte) (t : Tree α) : Alike R t t := by
  induction t with
  | node label span children ih => exact .node (hR _) (hR _) (List.forall₂_same.mpr ih)

theorem Alike.map {t u : Tree α} (h : Alike R t u) (f : α → β) : Alike R (t.map f) (u.map f) := by
  induction t generalizing u with
  | node label span children ih =>
      cases h with
      | node hstart hstop hchildren =>
          rw [map_node, map_node]
          refine .node hstart hstop ?_
          rw [List.forall₂_map_left_iff, List.forall₂_map_right_iff]
          exact forall₂_imp_of_mem hchildren fun c hc d _ hcd => ih c hc hcd

theorem Alike.contains_iff {t u : Tree α} {byte byte' : Nat} (h : Alike R t u)
    (hbyte : ∀ a b, R a b → (a ≤ byte ↔ b ≤ byte')) :
    t.span.Contains byte ↔ u.span.Contains byte' := by
  cases h with
  | @node label span span' children children' hstart hstop hchildren =>
      have hfirst := hbyte _ _ hstart
      have hlast := hbyte _ _ hstop
      simp only [Tree.span, Span.Contains]
      omega

theorem Alike.pathAt_iff {t u : Tree α} {chain path : List α} {byte byte' : Nat}
    (h : Alike R t u) (ht : t.WellNested) (hu : u.WellNested)
    (hbyte : ∀ a b, R a b → (a ≤ byte ↔ b ≤ byte')) :
    t.PathAt chain byte path ↔ u.PathAt chain byte' path := by
  induction t generalizing u chain with
  | node label span children ih =>
      have hroot := h.contains_iff hbyte
      cases h with
      | @node _ _ span' _ children' hstart hstop hchildren =>
          have htbelow := (wellNested_node.mp ht).2
          have hubelow := (wellNested_node.mp hu).2
          have hcovered : List.Forall₂ (fun c d : Tree α =>
              c.span.Contains byte ↔ d.span.Contains byte') children children' :=
            hchildren.imp fun c d hcd => hcd.contains_iff hbyte
          have hbelow : List.Forall₂ (fun c d : Tree α =>
              c.PathAt (label :: chain) byte path ↔ d.PathAt (label :: chain) byte' path)
              children children' := by
            apply forall₂_imp_of_mem hchildren
            intro c hc d hd hcd
            exact ih c hc hcd (htbelow c hc) (hubelow d hd)
          rw [pathAt_node ht, pathAt_node hu, exists_mem_iff_of_forall₂ hcovered,
            exists_mem_iff_of_forall₂ hbelow]
          exact or_congr_left (and_congr_right fun _ => and_congr_left fun _ => hroot)

end Tree

end DiagramTint
