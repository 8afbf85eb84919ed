import Mathlib.Data.List.Forall2
import ReversePolish.Proofs.Exposed

/-! The positions still ahead are as good as all positions. A search that only drops what lies behind its
leads finds what a search from scratch finds, as long as the leads never decrease. -/
namespace ReversePolish
namespace Nesting

def positions (s : Text) (op : Operator) : List Nat := (List.range s.length).filter (exposes s op)

/-- The scan of the rest of a text meets the operators exposed in it, counted from the level at which the
rest begins. -/
theorem filterMap_exposedFrom (op : Operator) (start : Nat) (l : Int) (s : Text) :
    ((exposedFrom start l s).filterMap fun hit => if hit.2 = op then some hit.1 else none) =
      ((List.range s.length).filter fun i =>
        s[i]? == some op.symbol && decide (l + level (s.take i) ≤ 0)).map (start + ·) := by
  induction s generalizing start l with
  | nil => rfl
  | cons c s ih =>
    have hshift : (start + ·) ∘ Nat.succ = (start + 1 + ·) := by
      funext i
      simp only [Function.comp_apply]
      omega
    have hrest := ih (start + 1) (l + shift c)
    unfold exposedFrom
    rw [List.length_cons, List.range_succ_eq_map, List.filter_cons, List.filter_map]
    simp only [Function.comp_def, Nat.succ_eq_add_one, List.getElem?_cons_succ, List.take_succ_cons,
      level_cons, ← Int.add_assoc]
    cases hc : Operator.ofSymbol? c with
    | none =>
      have hne : c ≠ op.symbol := by
        rintro rfl
        simp at hc
      simp [hne, hrest, hshift]
    | some f =>
      obtain rfl := Operator.symbol_of_ofSymbol? hc
      simp only [Operator.shift_symbol, Int.add_zero] at hrest ⊢
      by_cases hl : l ≤ 0 <;> by_cases hf : f = op <;> simp [hl, hf, hrest, hshift]

theorem filterMap_exposed (s : Text) (op : Operator) :
    ((exposed s).filterMap fun hit => if hit.2 = op then some hit.1 else none) = positions s op := by
  rw [exposed, collect_eq, List.reverse_nil, List.nil_append, filterMap_exposedFrom, positions]
  simp only [Int.zero_add, Nat.zero_add, List.map_id']
  refine List.filter_congr fun i _ => ?_
  rw [Bool.eq_iff_iff, exposes_iff, Bool.and_eq_true, beq_iff_eq, decide_eq_true_eq]

end Nesting

namespace Splits

theorem dropWhile_dropWhile {lead later : Nat} (h : lead ≤ later) (ahead : List Nat) :
    (ahead.dropWhile (· ≤ lead)).dropWhile (· ≤ later) = ahead.dropWhile (· ≤ later) := by
  induction ahead with
  | nil => rfl
  | cons i ahead ih =>
    by_cases hi : i ≤ lead
    · have hi' : i ≤ later := by omega
      simpa [List.dropWhile_cons, hi, hi'] using ih
    · simp [List.dropWhile_cons, hi]

theorem head?_dropWhile_le (lead : Nat) (positions : List Nat) :
    (positions.dropWhile (· ≤ lead)).head? = positions.find? (lead < ·) := by
  rw [← List.find?_not_eq_head?_dropWhile]
  refine congrArg (List.find? · positions) (funext fun i => ?_)
  rw [Bool.eq_iff_iff]
  simp

theorem find?_filter_range (n lead : Nat) (p : Nat → Bool) :
    ((List.range n).filter p).find? (lead < ·) = (List.range n).find? fun i => lead < i && p i := by
  rw [List.find?_filter]
  refine congrArg (List.find? · _) (funext fun i => ?_)
  simp [Bool.and_comm]

/-- An entry that may have dropped positions up to `lead`, and no others. -/
def AheadOf (s : Text) (lead : Nat) (op : Operator) (entry : Operator × List Nat) : Prop :=
  entry.1 = op ∧ ∀ later, lead ≤ later →
    entry.2.dropWhile (· ≤ later) = (Nesting.positions s op).dropWhile (· ≤ later)

theorem AheadOf.mono {s : Text} {lead lead' : Nat} {op : Operator} {entry : Operator × List Nat}
    (h : AheadOf s lead op entry) (hle : lead ≤ lead') : AheadOf s lead' op entry :=
  ⟨h.1, fun later hlater => h.2 later (hle.trans hlater)⟩

theorem AheadOf.dropWhile {s : Text} {lead lead' : Nat} {op : Operator}
    {entry : Operator × List Nat} (h : AheadOf s lead op entry) (hle : lead ≤ lead') :
    AheadOf s lead' op (op, entry.2.dropWhile (· ≤ lead')) :=
  ⟨rfl, fun later hlater => by rw [dropWhile_dropWhile hlater, h.2 later (hle.trans hlater)]⟩

/-- Cursors into a text, none of which has passed a position behind `lead`. -/
def Ahead (s : Text) (lead : Nat) (splits : Splits) : Prop :=
  List.Forall₂ (AheadOf s lead) Operator.splitOrder splits

theorem ahead_ofText (s : Text) : Ahead s 0 (ofText s) := by
  simp only [Ahead, ofText, List.forall₂_map_right_iff, Nesting.filterMap_exposed]
  exact List.forall₂_same.2 fun op _ => ⟨rfl, fun _ _ => rfl⟩

theorem Ahead.mono {s : Text} {lead lead' : Nat} {splits : Splits} (h : Ahead s lead splits)
    (hle : lead ≤ lead') : Ahead s lead' splits :=
  List.Forall₂.imp (fun _ _ hentry => hentry.mono hle) h

theorem head?_ahead {s : Text} {lead lead' : Nat} {op : Operator} {entry : Operator × List Nat}
    (h : AheadOf s lead op entry) (hle : lead ≤ lead') :
    (entry.2.dropWhile (· ≤ lead')).head? =
      (List.range s.length).find? fun i => lead' < i && Nesting.exposes s op i := by
  rw [h.2 lead' hle, head?_dropWhile_le, Nesting.positions, find?_filter_range]

/-- One call asks the operators in order and stops at the first that has a position behind the lead.
Whichever were asked, every cursor is still good for that lead and all later ones. -/
theorem next_forall₂ {s : Text} {lead lead' : Nat} (hle : lead ≤ lead') {ops : List Operator}
    {splits : Splits} (h : List.Forall₂ (AheadOf s lead) ops splits) :
    (splits.next lead').1 = ops.findSome? (fun op =>
        ((List.range s.length).find? fun i => lead' < i && Nesting.exposes s op i).map
          fun i => (i, op)) ∧
      List.Forall₂ (AheadOf s lead') ops (splits.next lead').2 := by
  induction h with
  | nil => exact ⟨rfl, .nil⟩
  | @cons op entry ops tighter hentry htighter ih =>
    obtain ⟨f, ahead⟩ := entry
    obtain rfl : f = op := hentry.1
    have hhead := head?_ahead hentry hle
    have hdrop := hentry.dropWhile hle
    simp only at hhead hdrop
    unfold next
    rw [List.findSome?_cons, ← hhead]
    cases hahead : ahead.dropWhile (· ≤ lead') with
    | nil =>
      rw [hahead] at hdrop
      exact ⟨ih.1, .cons hdrop ih.2⟩
    | cons i later =>
      rw [hahead] at hdrop
      exact ⟨rfl, .cons hdrop (htighter.imp fun _ _ hnext => hnext.mono hle)⟩

theorem Ahead.next {s : Text} {lead lead' : Nat} {splits : Splits} (h : Ahead s lead splits)
    (hle : lead ≤ lead') :
    (splits.next lead').1 = Nesting.firstAfter? lead' s ∧ Ahead s lead' (splits.next lead').2 :=
  next_forall₂ hle h

end Splits
end ReversePolish
