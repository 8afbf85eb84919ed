import Mathlib.Data.List.Nodup
import ReversePolish.Evaluation
import ReversePolish.Proofs.Walk

/-! What a walk comes by and what a traversal writes. A place of a tree is the path to it from the root; the walk
takes every place once, the places of the left operand first and the root last. The transcript that a traversal
keeps on the way is the one that is kept without a visitor. -/
namespace ReversePolish
namespace Tree

inductive Side where
  | left
  | right

def at? : Tree → List Side → Option Tree
  | t, [] => some t
  | node _ lhs _, .left :: path => lhs.at? path
  | node _ _ rhs, .right :: path => rhs.at? path
  | leaf _, _ :: _ => none

def paths : Tree → List (List Side)
  | leaf _ => [[]]
  | node _ lhs rhs => lhs.paths.map (.left :: ·) ++ rhs.paths.map (.right :: ·) ++ [[]]

@[simp] theorem at?_nil (t : Tree) : t.at? [] = some t := by
  cases t <;> rfl

theorem mem_paths {t : Tree} {path : List Side} : path ∈ t.paths ↔ (t.at? path).isSome := by
  induction t generalizing path with
  | leaf text => cases path <;> simp [paths, at?]
  | node op lhs rhs ihlhs ihrhs =>
    rcases path with _ | ⟨_ | _, path⟩
    · simp [paths]
    · simp [paths, at?, ihlhs]
    · simp [paths, at?, ihrhs]

/-- No place comes twice: paths to different operands part at their first turn. -/
theorem nodup_paths (t : Tree) : t.paths.Nodup := by
  induction t with
  | leaf text => simp [paths]
  | node op lhs rhs ihlhs ihrhs =>
    have hlhs : (lhs.paths.map (Side.left :: ·)).Nodup := ihlhs.map List.cons_injective
    have hrhs : (rhs.paths.map (Side.right :: ·)).Nodup := ihrhs.map List.cons_injective
    have hturn : (lhs.paths.map (Side.left :: ·)).Disjoint (rhs.paths.map (Side.right :: ·)) := by
      simp [List.Disjoint]
    have hroot : [] ∉ lhs.paths.map (Side.left :: ·) ++ rhs.paths.map (Side.right :: ·) := by
      simp
    exact (hlhs.append hrhs hturn).append (List.nodup_singleton []) (List.disjoint_singleton.2 hroot)

theorem map_at?_paths (t : Tree) : t.paths.map t.at? = t.subtrees.map some := by
  induction t with
  | leaf text => rfl
  | node op lhs rhs ihlhs ihrhs =>
    simp only [paths, subtrees, List.map_append, List.map_map, ← ihlhs, ← ihrhs]
    rfl

end Tree

namespace Transcript

@[simp] theorem tokens_empty : empty.tokens = [] := rfl

@[simp] theorem tokens_submit (t : Transcript) (token : Text) :
    (t.submit token).tokens = t.tokens ++ [token.trim] := by
  simp [submit, tokens]

theorem tokens_foldl (tokens : List Text) (t : Transcript) :
    (tokens.foldl submit t).tokens = t.tokens ++ tokens.map Text.trim := by
  induction tokens generalizing t with
  | nil => simp
  | cons token tokens ih => simp [ih]

end Transcript

namespace Tree

theorem rpn_eq (t : Tree) : t.rpn = (Text.joined (t.postorder.map Text.trim)).trim := by
  simp [rpn, crawl_eq, Transcript.line, Transcript.tokens_foldl]

theorem map_token_paths (t : Tree) :
    t.paths.map (fun path => (t.at? path).map token) = t.postorder.map some := by
  calc t.paths.map (fun path => (t.at? path).map token)
      = (t.paths.map t.at?).map (Option.map token) := by simp
    _ = (t.subtrees.map some).map (Option.map token) := by rw [map_at?_paths]
    _ = t.postorder.map some := by simp [← map_token_subtrees]

/-- A walk feeds any sink the tokens of a tree in post-order: the text of a leaf; and for a node the tokens of the left
operand, those of the right operand and the symbol. Every place of the tree gives one of them. A traversal writes the
same line whatever its visitor, the trimmed tokens with single spaces between them, and leaves the visitor where a walk
by itself does. So a text has the same postfix line, or the same error, whether it is run or not. -/
theorem traverse_in_postorder :
    (∀ text, (leaf text).postorder = [text]) ∧
    (∀ op lhs rhs, (node op lhs rhs).postorder = lhs.postorder ++ rhs.postorder ++ [[op.symbol]]) ∧
    (∀ t : Tree,
      (∀ (σ : Type) (submit : σ → Text → σ) (sink : σ),
        t.crawl submit sink = t.postorder.foldl submit sink ∧
        t.traverse submit sink = (t.rpn, t.crawl submit sink)) ∧
      t.rpn = Text.trim (List.intercalate [' '] (t.postorder.map Text.trim)) ∧
      t.paths.Nodup ∧ (∀ path, path ∈ t.paths ↔ (t.at? path).isSome) ∧
      t.paths.map (fun path => (t.at? path).map token) = t.postorder.map some) ∧
    ∀ s, render s = (execute s).map Prod.fst := by
  refine ⟨postorder_leaf, postorder_node, fun t => ⟨fun σ submit sink => ⟨crawl_eq submit sink t,
    traverse_eq submit sink t⟩, t.rpn_eq, t.nodup_paths, fun path => mem_paths, t.map_token_paths⟩, fun s => ?_⟩
  cases hparse : parse s with
  | error e => simp [render, execute, hparse, Except.map]
  | ok t => simp [render, execute, hparse, Except.map, traverse_eq]

/-- The tokens keep the blanks of the leaves, the line does not. -/
theorem traverse_in_postorder_nested :
    (node .sub (leaf " 8".toList) (node .add (leaf "5\t".toList) (leaf ['2']))).crawl
        (fun seen token => seen ++ [token]) [] =
      [" 8".toList, "5\t".toList, ['2'], ['+'], ['-']] ∧
    (node .sub (leaf " 8".toList) (node .add (leaf "5\t".toList) (leaf ['2']))).traverse
        (fun count token => count + token.length) 0 = ("8 5 2 + -".toList, 7) := by
  obtain ⟨-, -, hwalk, -⟩ := traverse_in_postorder
  obtain ⟨hsinks, hline, -⟩ := hwalk (node .sub (leaf " 8".toList) (node .add (leaf "5\t".toList) (leaf ['2'])))
  refine ⟨(hsinks _ _ _).1, ?_⟩
  rw [(hsinks _ _ _).2, (hsinks _ _ _).1, hline]
  rfl

end Tree
end ReversePolish
