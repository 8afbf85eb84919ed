import Mathlib.Data.List.Nodup
import Mathlib.Data.List.Perm.Subperm
import ReversePolish.Proofs.ByteScan
import ReversePolish.Proofs.Cursors
import ReversePolish.Splits.Cursors

/-! Searches that share their cursors. What the cursors have passed lies at or before some earlier lead; as long as the
leads never decrease it cannot be an answer, so every search finds what a search from scratch finds. What the cursors
pass in all searches together is, operator by operator, a front of its positions, so no position is passed twice. -/
namespace ReversePolish
namespace Cursors

def PassedUpTo (bound : Nat) (c : Cursors) : Prop :=
  ∀ op, ∀ position ∈ (c.hits op).take (c.cursor op), position ≤ bound

def afresh? (hits : Operator → List Nat) (ops : List Operator) (lead : Nat) : Option (Nat × Operator) :=
  ops.findSome? fun op => ((hits op).find? (lead < ·)).map fun position => (position, op)

theorem passedUpTo_ofHits (hits : List (Nat × Operator)) (bound : Nat) : PassedUpTo bound (ofHits hits) := by
  intro op position hposition
  rw [ofHits, List.take_zero] at hposition
  cases hposition

theorem PassedUpTo.mono {bound lead : Nat} {c : Cursors} (h : PassedUpTo bound c) (hle : bound ≤ lead) :
    PassedUpTo lead c :=
  fun op position hposition => (h op position hposition).trans hle

section Answers

variable {lead : Nat} {c : Cursors}

theorem PassedUpTo.pass (h : PassedUpTo lead c) (op : Operator) : PassedUpTo lead (c.pass lead op).2 := by
  intro f position hposition
  rw [hits_pass, take_pass, positionsOf_pass] at hposition
  rcases List.mem_append.1 hposition with hbefore | hnow
  · exact h f position hbefore
  · by_cases hop : op = f
    · rw [if_pos hop] at hnow
      exact le_of_mem_advance _ _ _ hnow
    · rw [if_neg hop] at hnow
      cases hnow

/-- A cursor stops at the first position behind the lead, if nothing it had passed before is behind it. -/
theorem PassedUpTo.at?_pass (h : PassedUpTo lead c) (op : Operator) :
    (c.pass lead op).2.at? op = (c.hits op).find? (lead < ·) := by
  have hpassed : ((c.hits op).take (c.cursor op)).find? (lead < ·) = none := by
    rw [List.find?_eq_none]
    intro position hposition
    simpa using h op position hposition
  calc (c.pass lead op).2.at? op
      = ((c.hits op).drop (c.cursor op)).find? (lead < ·) := by
        rw [Cursors.at?_pass, Splits.head?_dropWhile_le]
    _ = ((c.hits op).take (c.cursor op) ++ (c.hits op).drop (c.cursor op)).find? (lead < ·) := by
        rw [List.find?_append, hpassed, Option.none_or]
    _ = (c.hits op).find? (lead < ·) := by rw [List.take_append_drop]

theorem hits_ask (lead : Nat) (ops : List Operator) (c : Cursors) : (ask lead ops c).after.hits = c.hits := by
  induction ops generalizing c with
  | nil => rfl
  | cons op tighter ih =>
    cases hat : (c.pass lead op).2.at? op with
    | some position => rw [ask_of_some hat, hits_pass]
    | none => rw [ask_of_none hat, ih, hits_pass]

theorem PassedUpTo.ask (h : PassedUpTo lead c) (ops : List Operator) :
    PassedUpTo lead (ask lead ops c).after := by
  induction ops generalizing c with
  | nil => exact h
  | cons op tighter ih =>
    cases hat : (c.pass lead op).2.at? op with
    | some position =>
      rw [ask_of_some hat]
      exact h.pass op
    | none =>
      rw [ask_of_none hat]
      exact ih (h.pass op)

theorem PassedUpTo.found_ask (h : PassedUpTo lead c) (ops : List Operator) :
    (Cursors.ask lead ops c).found = afresh? c.hits ops lead := by
  induction ops generalizing c with
  | nil => rfl
  | cons op tighter ih =>
    rw [afresh?, List.findSome?_cons, ← h.at?_pass op]
    cases hat : (c.pass lead op).2.at? op with
    | some position =>
      rw [ask_of_some hat]
      rfl
    | none =>
      rw [ask_of_none hat]
      exact ih (h.pass op)

theorem found_searches {bound : Nat} (h : PassedUpTo bound c) {leads : List Nat}
    (hleads : (bound :: leads).Pairwise (· ≤ ·)) :
    (searches leads c).map (·.found) = leads.map (afresh? c.hits Operator.splitOrder) := by
  induction leads generalizing bound c with
  | nil => rfl
  | cons lead leads ih =>
    obtain ⟨hbound, hlater⟩ := List.pairwise_cons.1 hleads
    have hlead := h.mono (hbound lead List.mem_cons_self)
    have hfound := ih (hlead.ask Operator.splitOrder) hlater
    rw [hits_ask] at hfound
    rw [searches, List.map_cons, List.map_cons, next, hlead.found_ask, hfound]

end Answers

section Moves

variable (lead : Nat) (ops : List Operator) (c : Cursors)

theorem before_ask : (ask lead ops c).before = c := by
  cases ops with
  | nil => rfl
  | cons op tighter =>
    cases hat : (c.pass lead op).2.at? op with
    | some position => rw [ask_of_some hat]
    | none => rw [ask_of_none hat]

theorem cursor_ask (f : Operator) :
    (ask lead ops c).after.cursor f = c.cursor f + (positionsOf (ask lead ops c).passed f).length := by
  induction ops generalizing c with
  | nil => rfl
  | cons op tighter ih =>
    cases hat : (c.pass lead op).2.at? op with
    | some position => rw [ask_of_some hat, cursor_pass]
    | none =>
      rw [ask_of_none hat, ih, cursor_pass, positionsOf_append, List.length_append, Nat.add_assoc]

theorem take_ask (f : Operator) :
    (c.hits f).take ((ask lead ops c).after.cursor f) =
      (c.hits f).take (c.cursor f) ++ positionsOf (ask lead ops c).passed f := by
  induction ops generalizing c with
  | nil => exact (List.append_nil _).symm
  | cons op tighter ih =>
    cases hat : (c.pass lead op).2.at? op with
    | some position => rw [ask_of_some hat, take_pass]
    | none =>
      have hlater := ih (c.pass lead op).2
      rw [hits_pass, take_pass] at hlater
      rw [ask_of_none hat, hlater, positionsOf_append, List.append_assoc]

/-- Before and in the searches each cursor passes a front of its positions. -/
theorem positionsOf_searches (leads : List Nat) (f : Operator) :
    (c.hits f).take (c.cursor f) ++ positionsOf ((searches leads c).flatMap (·.passed)) f <+: c.hits f := by
  induction leads generalizing c with
  | nil =>
    rw [searches, List.flatMap_nil, positionsOf, List.filterMap_nil, List.append_nil]
    exact List.take_prefix _ _
  | cons lead leads ih =>
    have hlater := ih (c.next lead).after
    rw [next, hits_ask, take_ask, List.append_assoc, ← positionsOf_append] at hlater
    rw [searches, List.flatMap_cons]
    exact hlater

end Moves

section Stale

variable {lead : Nat} {ops : List Operator} {c : Cursors}

theorem mem_of_found {op : Operator} {position : Nat} (h : (ask lead ops c).found = some (position, op)) :
    op ∈ ops := by
  induction ops generalizing c with
  | nil => cases h
  | cons f tighter ih =>
    cases hat : (c.pass lead f).2.at? f with
    | some found =>
      rw [ask_of_some hat] at h
      cases h
      exact List.mem_cons_self
    | none =>
      rw [ask_of_none hat] at h
      exact List.mem_cons_of_mem _ (ih h)

theorem cursor_ask_of_notMem {f : Operator} (h : f ∉ ops) : (ask lead ops c).after.cursor f = c.cursor f := by
  induction ops generalizing c with
  | nil => rfl
  | cons op tighter ih =>
    rw [List.mem_cons, not_or] at h
    cases hat : (c.pass lead op).2.at? op with
    | some position => rw [ask_of_some hat, cursor_pass_of_ne lead op c h.1]
    | none => rw [ask_of_none hat, ih h.2, cursor_pass_of_ne lead op c h.1]

theorem cursor_ask_of_found {op f : Operator} {position : Nat}
    (hops : ops.Pairwise fun g g' => g.rank < g'.rank)
    (h : (ask lead ops c).found = some (position, op)) (hrank : op.rank < f.rank) :
    (ask lead ops c).after.cursor f = c.cursor f := by
  induction ops generalizing c with
  | nil => cases h
  | cons g tighter ih =>
    obtain ⟨hg, htighter⟩ := List.pairwise_cons.1 hops
    cases hat : (c.pass lead g).2.at? g with
    | some found =>
      rw [ask_of_some hat] at h ⊢
      cases h
      refine cursor_pass_of_ne lead op c ?_
      rintro rfl
      exact Nat.lt_irrefl _ hrank
    | none =>
      rw [ask_of_none hat] at h ⊢
      rw [ih htighter h]
      refine cursor_pass_of_ne lead g c ?_
      rintro rfl
      exact absurd (hg op (mem_of_found h)) (Nat.lt_asymm hrank)

theorem exists_of_mem_searches {leads : List Nat} {search : Search} (h : search ∈ searches leads c) :
    ∃ lead, search = search.before.next lead := by
  induction leads generalizing c with
  | nil => cases h
  | cons lead leads ih =>
    rcases List.mem_cons.1 h with rfl | hmem
    · exact ⟨lead, congrArg (next lead) (before_ask lead Operator.splitOrder c).symm⟩
    · exact ih hmem

end Stale

section Ahead

theorem next_map_drop (lead : Nat) {ops : List Operator} (hops : ops.Nodup) (c : Cursors) :
    Splits.next lead (ops.map fun op => (op, (c.hits op).drop (c.cursor op))) =
      ((ask lead ops c).found,
        ops.map fun op => (op, (c.hits op).drop ((ask lead ops c).after.cursor op))) := by
  induction ops generalizing c with
  | nil => rfl
  | cons op tighter ih =>
    obtain ⟨hop, htighter⟩ := List.nodup_cons.1 hops
    have hsame : (tighter.map fun f => (f, (c.hits f).drop (c.cursor f))) =
        tighter.map fun f => (f, ((c.pass lead op).2.hits f).drop ((c.pass lead op).2.cursor f)) := by
      refine List.map_congr_left fun f hf => ?_
      have hne : f ≠ op := fun heq => hop (heq ▸ hf)
      rw [hits_pass, cursor_pass_of_ne lead op c hne]
    have hdrop := drop_pass lead op c
    have hhead := at?_pass lead op c
    rw [List.map_cons, List.map_cons]
    cases hahead : ((c.hits op).drop (c.cursor op)).dropWhile (· ≤ lead) with
    | cons position later =>
      rw [hahead] at hhead hdrop
      rw [Splits.next_cons_of_dropWhile hahead, ask_of_some hhead]
      dsimp only
      rw [hdrop, hsame]
      rfl
    | nil =>
      rw [hahead] at hhead hdrop
      rw [Splits.next_cons_of_passed hahead, ask_of_none hhead, hsame, ih htighter]
      dsimp only
      rw [cursor_ask_of_notMem hop, hdrop]
      rfl

theorem next_ahead (lead : Nat) (c : Cursors) :
    c.ahead.next lead = ((c.next lead).found, (c.next lead).after.ahead) := by
  have hnodup : Operator.splitOrder.Nodup := by decide
  rw [ahead, next_map_drop lead hnodup, next, ahead, hits_ask]

theorem searches_ahead (leads : List Nat) (c : Cursors) :
    c.ahead.searches leads = (c.searches leads).map fun search => (search.found, search.after.ahead) := by
  induction leads generalizing c with
  | nil => rfl
  | cons lead leads ih => rw [Splits.searches, searches, List.map_cons, next_ahead, ih]

end Ahead

/-- What is to hold of searches with the leads in turn, all made on the split points of the operators `shown`, beside the
search `first?` that remembers nothing. -/
structure SearchesAfresh (shown : List (Nat × Operator)) (splits : Splits)
    (first? : Nat → Option (Nat × Operator)) (leads : List Nat) : Prop where
  /-- A search finds what it would find as the only one, whatever was searched before. -/
  found : (splits.searches leads).map (·.1) = leads.map first?
  /-- They are the searches that move cursors over the positions of `shown`. -/
  splits_eq : splits = (ofHits shown).ahead
  searches_eq : splits.searches leads =
    ((ofHits shown).searches leads).map fun search => (search.found, search.after.ahead)
  /-- The cursors of operators tighter than the one found stay where they are. -/
  stale : ∀ search ∈ (ofHits shown).searches leads, ∀ position op f,
    search.found = some (position, op) → op.rank < f.rank → search.after.cursor f = search.before.cursor f
  /-- A cursor moves on once for every position that it passes. -/
  cursor_eq : ∀ search ∈ (ofHits shown).searches leads, ∀ op,
    search.after.cursor op = search.before.cursor op + (positionsOf search.passed op).length
  /-- All searches together pass operators that are shown, and none of them twice. -/
  passed_subset : ((ofHits shown).searches leads).flatMap (·.passed) ⊆ shown
  passed_nodup : (((ofHits shown).searches leads).flatMap (·.passed)).Nodup
  length_passed_le : (((ofHits shown).searches leads).flatMap (·.passed)).length ≤ shown.length

section Passed

variable {shown : List (Nat × Operator)}

theorem passed_subperm (shown : List (Nat × Operator)) (leads : List Nat) :
    (((ofHits shown).searches leads).flatMap (·.passed)).Subperm shown := by
  rw [List.subperm_ext_iff]
  intro hit _
  have hfront := positionsOf_searches (ofHits shown) leads hit.2
  rw [ofHits, List.take_zero, List.nil_append] at hfront
  rw [← count_positionsOf, ← count_positionsOf]
  exact hfront.sublist.count_le hit.1

section Range

variable {size : Nat} {visible : Operator → Nat → Bool}
  (hshown : ∀ op, positionsOf shown op = (List.range size).filter (visible op))

include hshown

theorem nodup_of_positionsOf : shown.Nodup := by
  rw [List.nodup_iff_count_le_one]
  intro hit
  have hnodup : (positionsOf shown hit.2).Nodup := by
    rw [hshown]
    exact List.nodup_range.filter _
  rw [← count_positionsOf]
  exact List.nodup_iff_count_le_one.1 hnodup hit.1

theorem afresh?_positionsOf (lead : Nat) :
    afresh? (positionsOf shown) Operator.splitOrder lead =
      Operator.splitOrder.findSome? fun op =>
        ((List.range size).find? fun position =>
          lead < position && visible op position).map fun position => (position, op) := by
  refine congrArg (List.findSome? · _) (funext fun op => ?_)
  rw [hshown, Splits.find?_filter_range]

theorem searchesAfresh_of_positionsOf {leads : List Nat} (hleads : leads.Pairwise (· ≤ ·)) :
    SearchesAfresh shown (ofHits shown).ahead
      (fun lead => Operator.splitOrder.findSome? fun op =>
        ((List.range size).find? fun position =>
          lead < position && visible op position).map fun position => (position, op)) leads where
  found := by
    have hbound : (0 :: leads).Pairwise (· ≤ ·) :=
      List.pairwise_cons.2 ⟨fun lead _ => Nat.zero_le lead, hleads⟩
    rw [searches_ahead, List.map_map,
      List.map_congr_left fun lead _ => (afresh?_positionsOf hshown lead).symm]
    exact found_searches (passedUpTo_ofHits shown 0) hbound
  splits_eq := rfl
  searches_eq := searches_ahead leads _
  stale := by
    intro search hsearch position op f hfound hrank
    obtain ⟨lead, heq⟩ := exists_of_mem_searches hsearch
    rw [heq] at hfound ⊢
    rw [next, before_ask]
    exact cursor_ask_of_found Operator.rank_splitOrder hfound hrank
  cursor_eq := by
    intro search hsearch op
    obtain ⟨lead, heq⟩ := exists_of_mem_searches hsearch
    rw [heq, next, before_ask]
    exact cursor_ask lead Operator.splitOrder _ op
  passed_subset := (passed_subperm shown leads).subset
  passed_nodup := by
    have hnodup := nodup_of_positionsOf hshown
    rw [List.nodup_iff_count_le_one] at hnodup ⊢
    exact fun hit => ((passed_subperm shown leads).count_le hit).trans (hnodup hit)
  length_passed_le := (passed_subperm shown leads).length_le

end Range

end Passed

end Cursors

namespace Nesting

theorem positionsOf_exposed (s : Text) (op : Operator) : Cursors.positionsOf (exposed s) op = positions s op :=
  filterMap_exposed s op

end Nesting

namespace Bytes

def shows (s : Text) (op : Operator) (position : Nat) : Bool :=
  (mask 0 s.utf8)[position]? == some op.symbol.toUInt8

def firstAfter? (lead : Nat) (s : Text) : Option (Nat × Operator) :=
  Operator.splitOrder.findSome? fun op =>
    ((List.range s.size).find? fun position =>
      lead < position && shows s op position).map fun position => (position, op)

def exposed (s : Text) : List (Nat × Operator) := (Nesting.exposed s).map fun hit => (s.offset hit.1, hit.2)

theorem positions_eq (symbol : UInt8) (start : Nat) (bytes : List UInt8) :
    positions symbol start bytes =
      ((List.range bytes.length).filter fun i => bytes[i]? == some symbol).map (start + ·) := by
  induction bytes generalizing start with
  | nil => rfl
  | cons b bytes ih =>
    have hshift : (start + ·) ∘ Nat.succ = (start + 1 + ·) := by
      funext i
      simp only [Function.comp_apply]
      omega
    rw [positions, ih, List.length_cons, List.range_succ_eq_map, List.filter_cons, List.filter_map]
    by_cases hb : b = symbol <;> simp [hb, hshift, Function.comp_def]

theorem positions_mask (s : Text) (op : Operator) :
    positions op.symbol.toUInt8 0 (mask 0 s.utf8) = Cursors.positionsOf (exposed s) op := by
  have hoffset : ∀ i, s.offset (0 + i) = 0 + s.offset i := fun i => by rw [Nat.zero_add, Nat.zero_add]
  rw [positions_utf8 op s 0 0 0 hoffset, exposed, Nesting.exposed, Nesting.collect_eq, List.reverse_nil,
    List.nil_append, Cursors.positionsOf_map_fst]
  rfl

theorem positionsOf_exposed (s : Text) (op : Operator) :
    Cursors.positionsOf (exposed s) op = (List.range s.size).filter (shows s op) := by
  rw [← positions_mask, positions_eq, length_mask]
  simp only [Nat.zero_add, List.map_id']
  rfl

theorem prepare_eq_ahead {s : Text} (h : Nesting.level s = 0) :
    prepare s = .ok (Cursors.ofHits (exposed s)).ahead := by
  rw [prepare, level_utf8, if_pos h]
  exact congrArg Except.ok (List.map_congr_left fun op _ => Prod.ext rfl (positions_mask s op))

end Bytes

namespace Cursors

/-- The split points of a balanced text can be searched again and again with leads that never decrease. Every search finds
the loosest operator exposed behind its lead, and the leftmost of its kind, or nothing if none is exposed there, although
it leaves the cursors of tighter operators where they are. In all searches together the cursors move on at most once for
every exposed operator. The same holds of the split points that are read off the masked bytes of the text. -/
theorem searches_find_afresh {s : Text} {splits : Splits} {leads : List Nat}
    (hsplits : Parse.prepare s = .ok splits) (hleads : leads.Pairwise (· ≤ ·)) :
    SearchesAfresh (Nesting.exposed s) splits (Nesting.firstAfter? · s) leads ∧
      ∃ bytes, Bytes.prepare s = .ok bytes ∧
        SearchesAfresh (Bytes.exposed s) bytes (Bytes.firstAfter? · s) leads := by
  have hbalanced : Nesting.balanced s = true := by
    by_contra hnot
    rw [Parse.prepare, if_neg hnot] at hsplits
    cases hsplits
  obtain rfl : Splits.ofText s = splits := by
    rw [Parse.prepare, if_pos hbalanced] at hsplits
    exact Except.ok.inj hsplits
  refine ⟨?_, _, Bytes.prepare_eq_ahead (Nesting.balanced_iff.1 hbalanced), ?_⟩
  · exact searchesAfresh_of_positionsOf (Nesting.positionsOf_exposed s) hleads
  · exact searchesAfresh_of_positionsOf (Bytes.positionsOf_exposed s) hleads

/-- The first two searches leave the cursor of `*` at position 1; the third one moves it on to 9. Of the five operators
shown the cursors pass at most all. -/
theorem searches_find_afresh_late :
    Parse.prepare "1*2-3*4-5*6".toList = .ok (Splits.ofText "1*2-3*4-5*6".toList) ∧
    [0, 4, 8].Pairwise (· ≤ ·) ∧
    ((Splits.ofText "1*2-3*4-5*6".toList).searches [0, 4, 8]).map (·.1) =
      [some (3, .sub), some (7, .sub), some (9, .mul)] ∧
    (((ofHits (Nesting.exposed "1*2-3*4-5*6".toList)).searches [0, 4, 8]).flatMap (·.passed)).length ≤ 5 := by
  have hsplits : Parse.prepare "1*2-3*4-5*6".toList = .ok (Splits.ofText "1*2-3*4-5*6".toList) := rfl
  have hleads : [0, 4, 8].Pairwise (· ≤ ·) := by decide
  have hafresh := (searches_find_afresh hsplits hleads).1
  exact ⟨hsplits, hleads, hafresh.found.trans (by decide), hafresh.length_passed_le⟩

end Cursors
end ReversePolish
