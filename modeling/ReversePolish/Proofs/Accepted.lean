import ReversePolish.Proofs.Demand
import ReversePolish.Proofs.Grammar
import ReversePolish.Proofs.Reading

/-! The texts that have a value are the chains of the grammar. One layer of parentheses comes off per operand,
so a group that is all there is inside another group stays in a leaf, and no leaf with a parenthesis is a
literal. -/
namespace ReversePolish
namespace Chain

open Nesting (inside?)
open Parse (bare Reads)

theorem of_isLiteral {token : Text} (h : Literal.isLiteral token = true) :
    ∃ front, front ≠ .group ∧ Chain front false token := by
  obtain ⟨sign, digits, rfl, rfl | rfl | rfl, hne, hdigits⟩ := Literal.exists_spells h
  · exact ⟨.digit, Front.noConfusion, .unsigned hne hdigits⟩
  · exact ⟨.sign .add, Front.noConfusion, .signed (.inl rfl) hne hdigits⟩
  · exact ⟨.sign .sub, Front.noConfusion, .signed (.inr rfl) hne hdigits⟩

theorem isLiteral {front : Front} {s : Text} (h : Chain front false s) (hgroup : front ≠ .group) :
    Literal.isLiteral s = true := by
  rw [Literal.isLiteral_iff]
  cases h with
  | unsigned hne hdigits =>
    rw [Literal.unsigned_of_isDigit hdigits]
    exact ⟨hne, hdigits⟩
  | signed hsign hne hdigits =>
    rcases hsign with rfl | rfl
    · exact ⟨hne, hdigits⟩
    · exact ⟨hne, hdigits⟩
  | group => exact absurd rfl hgroup

/-- Two chains with an operator between them are a chain, if a sign of the second may stand there. -/
theorem join {front next : Front} {more more' : Bool} {s t before after : Text} {op : Operator}
    (hs : Chain front more s) (hbefore : Text.Blank before) (hafter : Text.Blank after)
    (ht : Chain next more' t) (hsign : ∀ sign, next = .sign sign → op.rank ≤ sign.rank) :
    Chain front true (s ++ before ++ op.symbol :: (after ++ t)) := by
  induction hs with
  | unsigned hne hdigits => exact .link (.unsigned hne hdigits) hbefore hafter ht hsign
  | signed hop hne hdigits => exact .link (.signed hop hne hdigits) hbefore hafter ht hsign
  | group hb ha hinner hlayer => exact .link (.group hb ha hinner hlayer) hbefore hafter ht hsign
  | link hoperand hb ha hrest hsign' _ ih =>
    have hlink := Chain.link hoperand hb ha ih hsign'
    simpa using hlink

theorem inside?_eq_none {front : Front} {more : Bool} {s : Text} (h : Chain front more s)
    (hgroup : ¬(front = .group ∧ more = false)) : inside? s = none := by
  cases h with
  | unsigned hne hdigits =>
    refine Nesting.inside?_eq_none_of_head fun hopen => ?_
    exact absurd (hdigits '(' (List.mem_of_mem_head? hopen)) (by decide)
  | @signed sign digits hsign hne hdigits =>
    refine Nesting.inside?_eq_none_of_head fun hopen => ?_
    cases sign <;> cases hopen
  | group => exact absurd ⟨rfl, rfl⟩ hgroup
  | link hoperand hbefore hafter hrest hsign =>
    rw [List.append_assoc]
    exact Nesting.inside?_append hoperand.ne_nil (by simp) hoperand.nested.level_eq

theorem bare_of_trim {front : Front} {more : Bool} {s : Text} (h : Chain front more s.trim) :
    ∃ front more, Chain front more (bare s) ∧ ¬(front = .group ∧ more = false) := by
  by_cases hgroup : front = .group ∧ more = false
  · obtain ⟨rfl, rfl⟩ := hgroup
    generalize htrim : s.trim = t at h
    cases h with
    | @group front more before inner after hbefore hafter hinner hlayer =>
      have hnested := hinner.nested.surround hbefore hafter
      rw [Parse.bare_of_inside (htrim ▸ Nesting.inside?_eq_some_iff.2 ⟨rfl, hnested.enclosable⟩),
        Text.trim_surrounded hbefore hafter hinner.trimmed]
      exact ⟨front, more, hinner, hlayer⟩
  · rw [Parse.bare_of_not_inside (h.inside?_eq_none hgroup)]
    exact ⟨front, more, h, hgroup⟩

theorem trim_of_bare {front : Front} {more : Bool} {s : Text} (h : Chain front more (bare s))
    (hgroup : ¬(front = .group ∧ more = false)) : ∃ front more, Chain front more s.trim := by
  cases hinside : inside? s.trim with
  | none =>
    rw [Parse.bare_of_not_inside hinside] at h
    exact ⟨front, more, h⟩
  | some inner =>
    rw [Parse.bare_of_inside hinside] at h
    obtain ⟨before, after, hbefore, hafter, hinner⟩ := Text.exists_trim inner
    rw [(Nesting.inside?_eq_some_iff.1 hinside).1, hinner]
    exact ⟨.group, false, .group hbefore hafter h hgroup⟩

theorem of_reads {s : Text} {t : Tree} (h : Reads s t)
    (hleaves : ∀ text ∈ t.leaves, Literal.isLiteral text.trim = true) :
    ∃ front more, Chain front more s.trim := by
  induction h with
  | @leaf s hlevel hpoint =>
    have hliteral := hleaves _ (List.mem_singleton_self _)
    rw [Text.trim_eq_self (Parse.trimmed_bare s)] at hliteral
    obtain ⟨front, hgroup, hchain⟩ := of_isLiteral hliteral
    exact hchain.trim_of_bare fun hlayer => hgroup hlayer.1
  | @node s x y op lhs rhs hbare hpoint hlhs hrhs ihlhs ihrhs =>
    obtain ⟨hlhsLeaves, hrhsLeaves⟩ := Tree.forall_mem_leaves_node.1 hleaves
    obtain ⟨front, more, hx⟩ := ihlhs hlhsLeaves
    obtain ⟨next, more', hy⟩ := ihrhs hrhsLeaves
    have htrimmed := hbare ▸ Parse.trimmed_bare s
    obtain ⟨before, hbefore, hleft⟩ := Text.exists_trim_of_head (Text.head_of_append htrimmed.first)
    obtain ⟨after, hafter, hright⟩ := Text.exists_trim_of_last
      (Text.last_of_append (List.append_cons x op.symbol y ▸ htrimmed.last))
    have hsign : ∀ sign, next = .sign sign → op.rank ≤ sign.rank := by
      rintro sign rfl
      -- the sign is exposed behind the split point, so its operator is not looser
      obtain ⟨digits, hdigits⟩ := List.head?_eq_some_iff.1 hy.head_of_sign
      have hexp : Nesting.exposes y sign after.length = true := by
        rw [hright, hdigits]
        exact Nesting.exposes_cons_symbol (Int.le_of_eq (Nesting.level_blank hafter))
      exact Nesting.rank_le_of_exposes_right (hbare ▸ hpoint) hlhs.level_eq hexp
    have hchain := hx.join hbefore hafter hy hsign
    rw [← hleft, ← hright, ← hbare] at hchain
    exact hchain.trim_of_bare fun hlayer => Bool.noConfusion hlayer.2

theorem exists_reads {front : Front} {more : Bool} {s : Text} (h : Chain front more s.trim) :
    ∃ t, Reads s t ∧ ∀ text ∈ t.leaves, Literal.isLiteral text.trim = true := by
  induction hn : s.length using Nat.strong_induction_on generalizing front more s with
  | h n ih =>
    obtain ⟨front, more, hbare, hlayer⟩ := h.bare_of_trim
    cases more with
    | false =>
      have hlevel := hbare.nested.level_eq
      rw [Parse.level_bare] at hlevel
      refine ⟨.leaf (bare s), .leaf hlevel ?_, ?_⟩
      · rw [Nesting.firstAfter?_eq_none_iff]
        exact fun position op hposition => hbare.solid.hidden op position hposition
      · intro text htext
        rw [List.mem_singleton.1 htext, Text.trim_eq_self hbare.trimmed]
        exact hbare.isLiteral fun hgroup => hlayer ⟨hgroup, rfl⟩
    | true =>
      obtain ⟨x, before, op, after, y, more', next, more'', hsplit, hbefore, hafter, hx, hy, hpoint⟩ :=
        hbare.exists_split rfl
      have hlength := congrArg List.length hsplit
      have hshort := Parse.length_bare_le s
      simp only [List.length_append, List.length_cons] at hlength
      obtain ⟨lhs, hlhs, hlhsLeaves⟩ := ih (x ++ before).length
        (by rw [List.length_append]; omega)
        (by rwa [Text.trim_append_blank hbefore, Text.trim_eq_self hx.trimmed]) rfl
      obtain ⟨rhs, hrhs, hrhsLeaves⟩ := ih (after ++ y).length
        (by rw [List.length_append]; omega)
        (by rwa [Text.trim_blank_append hafter, Text.trim_eq_self hy.trimmed]) rfl
      exact ⟨.node op lhs rhs, .node hsplit hpoint hlhs hrhs,
        Tree.forall_mem_leaves_node.2 ⟨hlhsLeaves, hrhsLeaves⟩⟩

end Chain

/-- A text has a value exactly if it is a chain, outer blanks aside; every other text has an error. -/
theorem evaluate_accepts_iff (s : Text) :
    ((∃ x, evaluate s = .ok x) ↔ ∃ front more, Chain front more s.trim) ∧
    ((∃ e, evaluate s = .error e) ↔ ¬∃ front more, Chain front more s.trim) := by
  have haccepts : (∃ x, evaluate s = .ok x) ↔ ∃ front more, Chain front more s.trim := by
    simp only [exists_evaluate_iff, Parse.parse_eq_ok_iff]
    constructor
    · rintro ⟨t, ht, hleaves⟩
      exact Chain.of_reads ht hleaves
    · rintro ⟨front, more, hchain⟩
      exact hchain.exists_reads
  refine ⟨haccepts, ?_⟩
  rw [← haccepts]
  cases evaluate s <;> simp

end ReversePolish
