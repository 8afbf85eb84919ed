import ReversePolish.Proofs.Link
import ReversePolish.Proofs.Literals

/-! The grammar of the texts that have a value. A chain is a list of operands with an operator between
neighbours and blanks around it as one likes; an operand is an integer literal or a group, and a chain of
one operand is that operand. -/
namespace ReversePolish

inductive Front where
  | digit
  | sign (op : Operator)
  | group

/-- Chains by what they begin with and by whether they have `more` than one operand.

A group is not the whole inside of another group. An operand behind an operator has a sign only if the
operator is not ranked behind the sign, or else the sign would split first. -/
inductive Chain : Front → (more : Bool) → Text → Prop
  | unsigned {digits : Text} (hne : digits ≠ []) (hdigits : ∀ c ∈ digits, c.isDigit = true) :
    Chain .digit false digits
  | signed {sign : Operator} {digits : Text} (hsign : sign = .add ∨ sign = .sub) (hne : digits ≠ [])
    (hdigits : ∀ c ∈ digits, c.isDigit = true) : Chain (.sign sign) false (sign.symbol :: digits)
  | group {front : Front} {more : Bool} {before inner after : Text} (hbefore : Text.Blank before)
    (hafter : Text.Blank after) (hinner : Chain front more inner)
    (hlayer : ¬(front = .group ∧ more = false)) :
    Chain .group false ('(' :: (before ++ inner ++ after) ++ [')'])
  | link {front next : Front} {more : Bool} {operand before after rest : Text} {op : Operator}
    (hoperand : Chain front false operand) (hbefore : Text.Blank before) (hafter : Text.Blank after)
    (hrest : Chain next more rest) (hsign : ∀ sign, next = .sign sign → op.rank ≤ sign.rank) :
    Chain front true (operand ++ before ++ op.symbol :: (after ++ rest))

namespace Operator

theorem isDigit_symbol (op : Operator) : op.symbol.isDigit = false := by
  cases op <;> decide

theorem symbol_notMem_of_isDigit {digits : Text} (h : ∀ c ∈ digits, c.isDigit = true)
    (op : Operator) : op.symbol ∉ digits := by
  intro hmem
  have hdigit := h _ hmem
  rw [isDigit_symbol] at hdigit
  cases hdigit

end Operator

theorem shift_of_isDigit {c : Char} (h : c.isDigit = true) : Nesting.shift c = 0 := by
  unfold Nesting.shift
  split
  · cases h
  · cases h
  · rfl

namespace Chain

open Nesting (Nested Solid exposes)

theorem nested {front : Front} {more : Bool} {s : Text} (h : Chain front more s) : Nested s := by
  induction h with
  | unsigned hne hdigits => exact Nesting.nested_of_shift fun c hc => shift_of_isDigit (hdigits c hc)
  | signed hsign hne hdigits =>
    refine Nesting.nested_of_shift fun c hc => ?_
    rcases List.mem_cons.1 hc with rfl | hc
    · exact Operator.shift_symbol _
    · exact shift_of_isDigit (hdigits c hc)
  | group hbefore hafter hinner hlayer ih =>
    exact (ih.surround hbefore hafter).group
  | @link front next more operand before after rest op hoperand hbefore hafter hrest hsign ih ih' =>
    have hsymbol : Nested [op.symbol] := Nesting.nested_of_shift (by simp)
    exact (ih.append (Nesting.nested_blank hbefore)).append
      (hsymbol.append ((Nesting.nested_blank hafter).append ih'))

theorem ne_nil {front : Front} {more : Bool} {s : Text} (h : Chain front more s) : s ≠ [] := by
  cases h with
  | unsigned hne => exact hne
  | signed => exact List.cons_ne_nil _ _
  | group => exact List.cons_ne_nil _ _
  | link => simp

theorem trimmed {front : Front} {more : Bool} {s : Text} (h : Chain front more s) :
    Text.Trimmed s := by
  induction h with
  | unsigned hne hdigits =>
    exact ⟨fun c hc => isBlank_of_isDigit (hdigits c (List.mem_of_mem_head? hc)),
      fun c hc => isBlank_of_isDigit (hdigits c (List.mem_of_mem_getLast? hc))⟩
  | @signed sign digits hsign hne hdigits =>
    refine ⟨by simp, fun c hc => ?_⟩
    rw [Option.mem_def, List.getLast?_cons_of_ne_nil hne] at hc
    exact isBlank_of_isDigit (hdigits c (List.mem_of_mem_getLast? hc))
  | group => exact Nesting.trimmed_group _
  | @link front next more operand before after rest op hoperand hbefore hafter hrest hsign ih ih' =>
    have h := ih.surround hoperand.ne_nil ih' hrest.ne_nil (before ++ op.symbol :: after)
    simpa using h

/-- A chain shows an operator at its beginning only as the sign of its first literal. -/
theorem front_of_head {front : Front} {more : Bool} {s : Text} {op : Operator}
    (h : Chain front more s) (hhead : s.head? = some op.symbol) : front = .sign op := by
  induction h with
  | unsigned hne hdigits =>
    exact absurd (List.mem_of_mem_head? hhead) (op.symbol_notMem_of_isDigit hdigits)
  | signed =>
    rw [List.head?_cons, Option.some.injEq] at hhead
    rw [Operator.symbol_injective hhead]
  | group =>
    rw [List.cons_append, List.head?_cons, Option.some.injEq] at hhead
    cases op <;> cases hhead
  | link hoperand hbefore hafter hrest hsign ih ih' =>
    rw [List.append_assoc, List.head?_append_of_ne_nil _ hoperand.ne_nil] at hhead
    exact ih hhead

theorem head_of_sign {more : Bool} {s : Text} {op : Operator} (h : Chain (.sign op) more s) :
    s.head? = some op.symbol := by
  generalize hfront : Front.sign op = front at h
  induction h with
  | unsigned => cases hfront
  | signed =>
    cases hfront
    rfl
  | group => cases hfront
  | link hoperand hbefore hafter hrest hsign ih ih' =>
    rw [List.append_assoc, List.head?_append_of_ne_nil _ hoperand.ne_nil]
    exact ih hfront

theorem solid {front : Front} {s : Text} (h : Chain front false s) : Solid s := by
  cases h with
  | unsigned hne hdigits =>
    exact Nesting.solid_of_tail hne (fun c hc => shift_of_isDigit (hdigits c hc))
      fun op => op.symbol_notMem_of_isDigit fun c hc => hdigits c (List.mem_of_mem_tail hc)
  | signed hsign hne hdigits =>
    refine Nesting.solid_of_tail (List.cons_ne_nil _ _) (List.forall_mem_cons.2 ⟨by simp, ?_⟩)
      fun op => op.symbol_notMem_of_isDigit hdigits
    exact fun c hc => shift_of_isDigit (hdigits c hc)
  | group hbefore hafter hinner hlayer =>
    exact (hinner.nested.surround hbefore hafter).solid_group

/-- A chain of several operands splits between two of them: the search never takes a sign for the split
point, because the operator before a sign is found first. Both parts are chains. -/
theorem exists_split {front : Front} {more : Bool} {s : Text} (h : Chain front more s)
    (hmore : more = true) :
    ∃ x before op after y, ∃ more' next more'', s = x ++ before ++ Operator.symbol op :: (after ++ y) ∧
      Text.Blank before ∧ Text.Blank after ∧ Chain front more' x ∧ Chain next more'' y ∧
      Nesting.firstAfter? 0 s = some ((x ++ before).length, op) := by
  induction h with
  | unsigned => cases hmore
  | signed => cases hmore
  | group => cases hmore
  | @link front next more operand before after rest op hoperand hbefore hafter hrest hsign _ ih =>
    -- a sign at the front of the rest is not looser than the operator before it
    have hfront : ∀ other, exposes rest other 0 = true → op.rank ≤ other.rank := by
      intro other hother
      obtain ⟨hget, -⟩ := Nesting.exposes_iff.1 hother
      rw [← List.head?_eq_getElem?] at hget
      exact hsign other (hrest.front_of_head hget)
    cases more with
    | false =>
      refine ⟨operand, before, op, after, rest, false, next, false, rfl, hbefore, hafter, hoperand,
        hrest, hoperand.solid.firstAfter?_link hbefore hafter hfront fun i other hpos hi => ?_⟩
      rw [hrest.solid.hidden other i hpos] at hi
      cases hi
    | true =>
      obtain ⟨x, before', op', after', y, more', next', more'', hsplit, hbefore', hafter', hx, hy,
        hpoint⟩ := ih rfl
      by_cases hrank : op.rank ≤ op'.rank
      · refine ⟨operand, before, op, after, rest, false, next, true, rfl, hbefore, hafter, hoperand,
          hrest, hoperand.solid.firstAfter?_link hbefore hafter hfront fun i other hpos hi => ?_⟩
        exact hrank.trans ((Nesting.firstAfter?_spec hpoint).2.2 i other hpos hi).rank_le
      · have hlink := hoperand.solid.firstAfter?_link_rest hbefore hafter hpoint (Nat.lt_of_not_le hrank) hfront
        refine ⟨operand ++ before ++ op.symbol :: (after ++ x), before', op', after', y, true, next',
          more'', by simp [hsplit], hbefore', hafter', .link hoperand hbefore hafter hx hsign, hy, ?_⟩
        rw [hlink]
        simp only [List.length_append, List.length_cons]
        congr 2
        omega

end Chain
end ReversePolish
