import ReversePolish.Parse.Turn
import ReversePolish.Proofs.Traversal

/-! How deep the calls of the parser nest. Reading a text calls the parser for the left operands along the right edge of
its tree and for nothing else, so calls nest as deep as a path of the tree goes to the left. -/
namespace ReversePolish
namespace Tree

def lefts : Tree → List Tree
  | leaf _ => []
  | node _ lhs rhs => lhs :: rhs.lefts

def leftTurns : List Side → Nat
  | [] => 0
  | .left :: path => leftTurns path + 1
  | .right :: path => leftTurns path

def leftDepth : Tree → Nat
  | leaf _ => 0
  | node _ lhs rhs => max (lhs.leftDepth + 1) rhs.leftDepth

theorem leftTurns_le {t u : Tree} {path : List Side} (h : t.at? path = some u) :
    leftTurns path ≤ t.leftDepth := by
  induction t generalizing path with
  | leaf text =>
    cases path with
    | nil => exact Nat.zero_le _
    | cons side path => simp [at?] at h
  | node op lhs rhs ihlhs ihrhs =>
    rcases path with _ | ⟨_ | _, path⟩
    · exact Nat.zero_le _
    · have hlhs : lhs.at? path = some u := h
      have hle := ihlhs hlhs
      exact Nat.le_trans (Nat.succ_le_succ hle) (Nat.le_max_left _ _)
    · have hrhs : rhs.at? path = some u := h
      have hle := ihrhs hrhs
      exact Nat.le_trans hle (Nat.le_max_right _ _)

theorem exists_leftTurns_eq (t : Tree) :
    ∃ path text, t.at? path = some (.leaf text) ∧ leftTurns path = t.leftDepth := by
  induction t with
  | leaf text => exact ⟨[], text, rfl, rfl⟩
  | node op lhs rhs ihlhs ihrhs =>
    rcases Nat.le_total rhs.leftDepth (lhs.leftDepth + 1) with hle | hle
    · obtain ⟨path, text, hat, hturns⟩ := ihlhs
      exact ⟨.left :: path, text, hat, by rw [leftTurns, leftDepth, hturns, Nat.max_eq_left hle]⟩
    · obtain ⟨path, text, hat, hturns⟩ := ihrhs
      exact ⟨.right :: path, text, hat, by rw [leftTurns, leftDepth, hturns, Nat.max_eq_right hle]⟩

theorem lt_leftDepth_iff {t : Tree} {n : Nat} :
    n < t.leftDepth ↔ ∃ lhs ∈ t.lefts, n ≤ lhs.leftDepth := by
  induction t with
  | leaf text => simp [leftDepth, lefts]
  | node op lhs rhs ihlhs ihrhs =>
    simp only [leftDepth, lefts, List.mem_cons, exists_eq_or_imp, ← ihrhs]
    omega

end Tree

namespace Parse

/-- The texts for which the loop calls the parser on its way from a stage. It goes on only if the calls before have
succeeded. -/
inductive Stage.Calls : Stage → Text → Prop
  | now {stage : Stage} {turn : Turn} (hturn : stage.turn? = some turn) : Calls stage turn.operand
  | later {stage next : Stage} {turn : Turn} {lhs : Tree} {operand : Text}
    (hturn : stage.turn? = some turn) (hlhs : parse turn.operand = .ok lhs)
    (hnext : turn.next = .ok next) (hcalls : Calls next operand) : Calls stage operand

def Calls (s operand : Text) : Prop :=
  ∃ splits, prepare (bare s) = .ok splits ∧ Stage.Calls ⟨bare s, 0, splits⟩ operand

/-- `Nests s n`: reading `s` comes to calls that nest `n` deep. -/
inductive Nests : Text → Nat → Prop
  | here (s : Text) : Nests s 0
  | call {s operand : Text} {n : Nat} (hcall : Calls s operand) (h : Nests operand n) : Nests s (n + 1)

/-- The loop hangs the chain it has over a tree whose left operands are what it calls the parser for. -/
theorem Stage.calls_of_read {stage : Stage} {chain : List (Operator × Tree)} {t : Tree}
    (h : stage.read chain = .ok t) :
    ∃ last, t = join chain last ∧
      (∀ operand, stage.Calls operand → ∃ lhs ∈ last.lefts, parse operand = .ok lhs) ∧
      ∀ lhs ∈ last.lefts, ∃ operand, stage.Calls operand ∧ parse operand = .ok lhs := by
  induction stage using Stage.turn_induction generalizing chain with
  | leaf stage hturn =>
    rw [read_leaf hturn] at h
    cases h
    refine ⟨.ofText stage.rest, rfl, fun operand hcalls => ?_, fun lhs hlhs => ?_⟩
    · cases hcalls with
      | now hnow => simp [hturn] at hnow
      | later hnow => simp [hturn] at hnow
    · exact absurd hlhs List.not_mem_nil
  | turn stage turn hturn ih =>
    rw [read_turn hturn] at h
    obtain ⟨lhs, hlhs, hrest⟩ := bind_eq_ok_iff.1 h
    obtain ⟨next, hnext, hread⟩ := bind_eq_ok_iff.1 hrest
    obtain ⟨last, hlast, hcalled, hcalls⟩ := ih next hnext hread
    refine ⟨.node turn.op lhs last, hlast, fun operand hoperand => ?_, fun lhs' hlhs' => ?_⟩
    · cases hoperand with
      | now hnow =>
        cases hturn.symm.trans hnow
        exact ⟨lhs, List.mem_cons_self, hlhs⟩
      | later hnow _ hnext' hlater =>
        cases hturn.symm.trans hnow
        cases hnext.symm.trans hnext'
        obtain ⟨lhs', hmem, hparse⟩ := hcalled operand hlater
        exact ⟨lhs', List.mem_cons_of_mem _ hmem, hparse⟩
    · rcases List.mem_cons.1 hlhs' with rfl | hmem
      · exact ⟨turn.operand, .now hturn, hlhs⟩
      · obtain ⟨operand, hlater, hparse⟩ := hcalls lhs' hmem
        exact ⟨operand, .later hturn hlhs hnext hlater, hparse⟩

/-- Reading a text calls the parser for the left operands along the right edge of its tree. -/
theorem calls_of_parse {s : Text} {t : Tree} (h : parse s = .ok t) :
    (∀ operand, Calls s operand → ∃ lhs ∈ t.lefts, parse operand = .ok lhs) ∧
      ∀ lhs ∈ t.lefts, ∃ operand, Calls s operand ∧ parse operand = .ok lhs := by
  rw [parse_eq_read] at h
  obtain ⟨splits, hprepare, hread⟩ := bind_eq_ok_iff.1 h
  obtain ⟨last, rfl, hcalled, hcalls⟩ := Stage.calls_of_read hread
  constructor
  · rintro operand ⟨splits', hprepare', hoperand⟩
    cases hprepare.symm.trans hprepare'
    exact hcalled operand hoperand
  · intro lhs hlhs
    obtain ⟨operand, hoperand, hparse⟩ := hcalls lhs hlhs
    exact ⟨operand, ⟨splits, hprepare, hoperand⟩, hparse⟩

theorem nests_iff {s : Text} {t : Tree} (h : parse s = .ok t) {n : Nat} :
    Nests s n ↔ n ≤ t.leftDepth := by
  constructor
  · intro hnests
    induction hnests generalizing t with
    | here s => exact Nat.zero_le _
    | call hcall _ ih =>
      obtain ⟨lhs, hmem, hparse⟩ := (calls_of_parse h).1 _ hcall
      exact Tree.lt_leftDepth_iff.2 ⟨lhs, hmem, ih hparse⟩
  · intro hle
    induction n generalizing s t with
    | zero => exact .here s
    | succ n ih =>
      obtain ⟨lhs, hmem, hle⟩ := Tree.lt_leftDepth_iff.1 hle
      obtain ⟨operand, hcall, hparse⟩ := (calls_of_parse h).2 lhs hmem
      exact .call hcall (ih hparse hle)

end Parse
end ReversePolish
