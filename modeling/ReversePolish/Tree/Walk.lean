import ReversePolish.Tree

/-! The post-order walk: left operand, right operand, then the node itself. It is written twice, as a
recursive list of subtrees and as a loop over a list of tasks that visits them one by one. -/
namespace ReversePolish
namespace Tree

def subtrees : Tree → List Tree
  | leaf text => [leaf text]
  | node op lhs rhs => lhs.subtrees ++ rhs.subtrees ++ [node op lhs rhs]

/-- The tokens in post-order: those of the left operand, those of the right operand, and the symbol. -/
def postorder : Tree → List Text
  | leaf text => [text]
  | node op lhs rhs => lhs.postorder ++ rhs.postorder ++ [[op.symbol]]

/-- A tree still to be walked, or one whose operands are behind it. -/
inductive Task where
  | enter (t : Tree)
  | visit (t : Tree)

namespace Task

def weight : Task → Nat
  | enter t => 2 * t.size
  | visit _ => 1

def load : List Task → Nat
  | [] => 0
  | task :: tasks => task.weight + load tasks

end Task

/-- Performs the tasks in order, showing each visited tree to `see`. -/
def perform {σ : Type} (see : σ → Tree → σ) : List Task → σ → σ
  | [], s => s
  | .visit t :: tasks, s => perform see tasks (see s t)
  | .enter (leaf text) :: tasks, s => perform see tasks (see s (leaf text))
  | .enter (node op lhs rhs) :: tasks, s =>
    perform see (.enter lhs :: .enter rhs :: .visit (node op lhs rhs) :: tasks) s
termination_by tasks => Task.load tasks
decreasing_by all_goals simp only [Task.load, Task.weight, size]; omega

def walk {σ : Type} (see : σ → Tree → σ) (s : σ) (t : Tree) : σ := perform see [.enter t] s

def crawl {σ : Type} (submit : σ → Text → σ) (s : σ) (t : Tree) : σ :=
  t.walk (fun s u => submit s u.token) s

def tokens (t : Tree) : List Text := (t.crawl (fun met token => token :: met) []).reverse

end Tree
end ReversePolish
