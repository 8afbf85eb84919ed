import ReversePolish.Tree.Walk
import ReversePolish.Transcript

/-! The walk by tasks visits the subtrees in post-order. So a sink is fed the left operand, the right operand
and the symbol, and two sinks fed side by side do not disturb each other. -/
namespace ReversePolish
namespace Tree

def Task.owed : Task → List Tree
  | enter t => t.subtrees
  | visit t => [t]

theorem perform_eq {σ : Type} (see : σ → Tree → σ) (tasks : List Task) (s : σ) :
    perform see tasks s = (tasks.flatMap Task.owed).foldl see s := by
  fun_induction perform see tasks s with
  | case1 => rfl
  | case2 s t tasks ih => simpa [Task.owed] using ih
  | case3 s text tasks ih => simpa [Task.owed, subtrees] using ih
  | case4 s op lhs rhs tasks ih => simpa [Task.owed, subtrees] using ih

theorem walk_eq {σ : Type} (see : σ → Tree → σ) (s : σ) (t : Tree) :
    t.walk see s = t.subtrees.foldl see s := by
  rw [walk, perform_eq, List.flatMap_singleton, Task.owed]

@[simp] theorem postorder_leaf (text : Text) : (leaf text).postorder = [text] := rfl

@[simp] theorem postorder_node (op : Operator) (lhs rhs : Tree) :
    (node op lhs rhs).postorder = lhs.postorder ++ rhs.postorder ++ [[op.symbol]] := rfl

theorem map_token_subtrees (t : Tree) : t.subtrees.map token = t.postorder := by
  induction t with
  | leaf text => rfl
  | node op lhs rhs ihlhs ihrhs =>
    rw [subtrees, List.map_append, List.map_append, ihlhs, ihrhs, postorder]
    rfl

theorem crawl_eq {σ : Type} (submit : σ → Text → σ) (s : σ) (t : Tree) :
    t.crawl submit s = t.postorder.foldl submit s := by
  rw [crawl, walk_eq, ← map_token_subtrees, List.foldl_map]

theorem tokens_eq (t : Tree) : t.tokens = t.postorder := by
  have hcons : ∀ (tokens met : List Text),
      tokens.foldl (fun met token => token :: met) met = tokens.reverse ++ met := by
    intro tokens
    induction tokens with
    | nil => exact fun met => rfl
    | cons token tokens ih => simp [ih]
  rw [tokens, crawl_eq, hcons, List.append_nil, List.reverse_reverse]

@[simp] theorem crawl_leaf {σ : Type} (submit : σ → Text → σ) (s : σ) (text : Text) :
    (leaf text).crawl submit s = submit s text := by
  rw [crawl_eq]
  rfl

@[simp] theorem crawl_node {σ : Type} (submit : σ → Text → σ) (s : σ) (op : Operator)
    (lhs rhs : Tree) :
    (node op lhs rhs).crawl submit s = submit (rhs.crawl submit (lhs.crawl submit s)) [op.symbol] := by
  simp [crawl_eq]

theorem forall_mem_leaves_node {p : Text → Prop} {op : Operator} {lhs rhs : Tree} :
    (∀ text ∈ (node op lhs rhs).leaves, p text) ↔
      (∀ text ∈ lhs.leaves, p text) ∧ ∀ text ∈ rhs.leaves, p text :=
  List.forall_mem_append

theorem crawl_prod {σ τ : Type} (f : σ → Text → σ) (g : τ → Text → τ) (a : σ) (b : τ) (t : Tree) :
    t.crawl (fun (a, b) token => (f a token, g b token)) (a, b) = (t.crawl f a, t.crawl g b) := by
  induction t generalizing a b with
  | leaf text => simp
  | node op lhs rhs ihlhs ihrhs => simp [ihlhs, ihrhs]

theorem traverse_eq {σ : Type} (submit : σ → Text → σ) (visitor : σ) (t : Tree) :
    t.traverse submit visitor = (t.rpn, t.crawl submit visitor) := by
  rw [traverse, crawl_prod, rpn]

end Tree
end ReversePolish
