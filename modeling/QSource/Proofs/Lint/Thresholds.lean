/-
**Thresholds only move their own rules.**

Five rules compare with a number.  One of them drops repeats of what it has just objected to, and the
other four stop counting for a scope once they have objected to it, so a lower number might displace an
objection, or hide it.  It does not: a long line stays long, and a count that has come to be above a
number was above every smaller one no later.

Main definitions:

* `QSource.Rule.limit?` — the number that a rule compares with;
* `QSource.Rule.subject`, `QSource.Finding.scope?` — the scope that a rule on the size of a lambda
  objects to;
* `QSource.Thresholds.AtMost` — no threshold is above that of another set.

Main results:

* `QSource.firstAbove_le` — a count comes to be above a smaller number no later;
* `QSource.longLinesFrom_sublist` — the lines that are longer than a larger number;
* `QSource.Rule.flagged_congr` — a rule sees its own number alone;
* `QSource.thresholds_move_own_rule` — **lower thresholds only add findings, and only of their own
  rules**.
-/

import QSource.Check
import QSource.Proofs.Lint.Constants
import QSource.Proofs.Lint.Limits
import QSource.Proofs.Lint.Order
import QSource.Proofs.Lint.Statements

set_option relaxedAutoImplicit false
set_option autoImplicit false

namespace QSource

/-! ### What a rule compares with -/

/-- The number that a rule compares with, if it compares with one. -/
def Rule.limit? (limits : Thresholds) : Rule → Option Nat
  | .lineLength => some limits.lineLength
  | .tooManyArguments => some limits.params
  | .tooManyConstants => some limits.constants
  | .tooManyGlobals => some limits.globals
  | .tooManyLocals => some limits.locals
  | _ => none

/-- The rule is about the size of a lambda. -/
def Rule.isOnSize : Rule → Bool
  | .tooManyArguments | .tooManyConstants | .tooManyGlobals | .tooManyLocals => true
  | _ => false

/-- The rule compares with a number. -/
def Rule.isLimited (rule : Rule) : Bool := rule == .lineLength || rule.isOnSize

theorem Rule.limit?_eq_none {limits : Thresholds} {rule : Rule} (h : rule.isLimited = false) :
    rule.limit? limits = none := by
  cases rule <;> simp_all [isLimited, isOnSize, limit?]

/-- The scope that a rule on the size of a lambda objects to, told by the token to blame: the one that
owns an assigned local, and otherwise the one around the token. -/
def Rule.subject (rule : Rule) (t : AnnotatedToken) : Option ScopeId :=
  if rule = .tooManyLocals then t.binding else t.scope

/-- The scope that a finding of such a rule is about. -/
def Finding.scope? (tokens : List AnnotatedToken) (f : Finding) : Option ScopeId :=
  tokens[f.index]?.bind f.rule.subject

/-- No threshold is above the other one of its kind. -/
structure Thresholds.AtMost (c d : Thresholds) : Prop where
  lineLength : c.lineLength ≤ d.lineLength
  constants : c.constants ≤ d.constants
  globals : c.globals ≤ d.globals
  locals : c.locals ≤ d.locals
  params : c.params ≤ d.params

/-- **A rule sees its own number alone.** -/
theorem Rule.flagged_congr {c d : Thresholds} {rule : Rule} (h : rule.limit? c = rule.limit? d)
    (tokens : List AnnotatedToken) : rule.flagged c tokens = rule.flagged d tokens := by
  cases rule <;> simp_all [Rule.limit?, Rule.flagged]

/-! ### Counts that come to be above a number -/

section

variable {α : Type} {limit limit' : Nat} {count : List α → Nat} {xs : List α} {x : α}

/-- **A count comes to be above a smaller number no later**: at the same entry, or at one before it. -/
theorem firstAbove_le (hnil : count [] ≤ limit) (hmono : ∀ ys zs, count ys ≤ count (ys ++ zs))
    (hle : limit ≤ limit') (h : firstAbove limit' count xs = some x) :
    ∃ before behind y, xs = before ++ x :: behind ∧ firstAbove limit count xs = some y ∧
      y ∈ before ++ [x] := by
  obtain ⟨before, behind, rfl, -, hlt⟩ := (firstAbove_eq_some (Nat.le_trans hnil hle) hmono).1 h
  have hsome : (firstAbove limit count (before ++ [x])).isSome :=
    (isSome_firstAbove_iff hnil hmono).2 (Nat.lt_of_le_of_lt hle hlt)
  obtain ⟨y, hy⟩ := Option.isSome_iff_exists.1 hsome
  refine ⟨before, behind, y, rfl, ?_, mem_of_firstAbove_eq_some hy⟩
  -- what is above the number before the end of a part is so in the whole
  obtain ⟨front, back, hsplit, hfront, hy⟩ := (firstAbove_eq_some hnil hmono).1 hy
  refine (firstAbove_eq_some hnil hmono).2 ⟨front, back ++ behind, ?_, hfront, hy⟩
  rw [← List.singleton_append, ← List.append_assoc, hsplit, List.append_assoc, List.cons_append]

end

/-- What is one too many of a scope for a number has a thing before it, or is itself one, that is one
too many of the same scope for a smaller number. -/
theorem exists_earlier_excess {κ : Type} [BEq κ] [LawfulBEq κ] [DecidableEq κ] {limit limit' : Nat}
    (hle : limit ≤ limit') {items : List (Counted κ)}
    (hordered : (items.map Counted.token).Pairwise fun t u => t.index ≤ u.index)
    {t : AnnotatedToken} (ht : t ∈ firstExcess limit' items) :
    ∃ item ∈ items, ∃ earlier ∈ items, item.token = t ∧ earlier.scope = item.scope ∧
      earlier.token ∈ firstExcess limit items ∧ earlier.token.index ≤ t.index := by
  obtain ⟨scope, item, hitem, rfl⟩ := mem_firstExcess_iff.1 ht
  obtain ⟨before, behind, earlier, rfl, hearlier, hmem⟩ :=
    firstAbove_le (Nat.zero_le limit) (card_keysOf_le_append scope) hle hitem
  have hscope : ∀ {limit : Nat} {found : Counted κ},
      firstAbove limit (fun items => (keysOf scope items).card) (before ++ item :: behind) =
        some found → found.scope = scope := by
    intro limit found hfound
    obtain ⟨front, back, -, hfront, hlt⟩ :=
      (firstAbove_eq_some (Nat.zero_le limit) (card_keysOf_le_append scope)).1 hfound
    exact (exceeds_of_card_lt hfront hlt).1
  refine ⟨item, by simp, earlier, mem_of_firstAbove_eq_some hearlier, rfl,
    (hscope hearlier).trans (hscope hitem).symm, mem_firstExcess_iff.2 ⟨scope, earlier, hearlier, rfl⟩,
    ?_⟩
  rw [List.map_append, List.map_cons, List.pairwise_append] at hordered
  rcases List.mem_append.1 hmem with hmem | hmem
  · exact hordered.2.2 _ (List.mem_map_of_mem hmem) _ (List.mem_cons_self ..)
  · rw [List.mem_singleton.1 hmem]

/-! ### Constants in the order of their tokens -/

/-- **Where quoted texts are closed, constants come in the order of their tokens.** -/
theorem token_constantsFrom_sublist {kinds : List Kind} (h : ClosedQuotes kinds)
    {tokens : List AnnotatedToken} (hkinds : tokens.map (·.kind) = kinds) :
    ((constantsFrom none tokens).map Counted.token).Sublist tokens := by
  induction h generalizing tokens with
  | nil =>
      rw [List.map_eq_nil_iff.1 hkinds]
      exact List.nil_sublist _
  | @plain kind kinds hkind _ ih =>
      obtain ⟨t, rest, rfl, rfl, hrest⟩ := List.map_eq_cons_iff.1 hkinds
      have htail := ih hrest
      rw [constantsFrom.eq_def]
      dsimp only
      split
      case h_5 =>
        have hliteral : ((if t.isAssignment then [] else constantAt t t.text).map
            Counted.token).Sublist [t] := by
          split
          · exact List.nil_sublist _
          · exact token_constantAt_sublist t t.text
        rw [List.map_append]
        exact hliteral.append htail
      case h_6 => exact htail.cons t
      all_goals
        next hquote => simp [hquote, Kind.ofQuote] at hkind
  | @quoted pieces kinds hpieces _ ih =>
      obtain ⟨first, rest, rfl, hfirst, hrest⟩ := List.map_eq_cons_iff.1 hkinds
      obtain ⟨content, closed, rfl, rfl, hclosed⟩ := List.map_eq_append_iff.1 hrest
      obtain ⟨last, behind, rfl, hlast, hbehind⟩ := List.map_eq_cons_iff.1 hclosed
      have hcontent : ∀ t ∈ content, t.kind = .quotedText ∨ t.kind = .quotedEscape := by
        intro t ht
        have hpiece := hpieces _ (List.mem_map_of_mem ht)
        cases hkind : t.kind <;> simp_all [Kind.isPiece]
      have hopen : constantsFrom none (first :: (content ++ last :: behind)) =
          constantsFrom (some (first, "\"")) (content ++ last :: behind) := by
        rw [constantsFrom.eq_def]
        simp [hfirst]
      rw [hopen, constantsFrom_pieces hcontent hlast, List.map_append]
      exact (token_constantAt_sublist first _).append
        (((ih hbehind).cons last).trans (List.sublist_append_right _ _))

/-! ### Long lines -/

/-- **The lines that are longer than a larger number** are among those longer than a smaller one. -/
theorem longLinesFrom_sublist {limit limit' : Nat} (hle : limit ≤ limit')
    (owner : Option AnnotatedToken) (prev : Option Char) (pieces : List LinePiece) :
    (longLinesFrom limit' owner prev pieces).Sublist (longLinesFrom limit owner prev pieces) := by
  induction pieces generalizing owner prev with
  | nil => exact List.Sublist.refl _
  | cons piece rest ih =>
      simp only [longLinesFrom]
      split
      · next length _ =>
          refine List.Sublist.append ?_ (ih none (some '\n'))
          by_cases hlong : limit' < length
          · rw [if_pos hlong, if_pos (Nat.lt_of_le_of_lt hle hlong)]
          · rw [if_neg hlong]
            exact List.nil_sublist _
      · exact ih _ _

/-- The tokens of long lines stay the tokens of long lines, although each is named once. -/
theorem mem_longLineOwners_of_le {limit limit' : Nat} (hle : limit ≤ limit')
    {tokens : List AnnotatedToken} (hordered : tokens.Pairwise fun t u => t.index < u.index)
    {t : AnnotatedToken} (ht : t ∈ longLineOwners limit' tokens) : t ∈ longLineOwners limit tokens := by
  have hlong : t ∈ longLinesFrom limit none none (tokens.flatMap AnnotatedToken.pieces) :=
    (longLinesFrom_sublist hle none none _).subset (mem_of_mem_dropRepeats ht)
  obtain ⟨u, hu, hindex⟩ := exists_mem_dropRepeats hlong
  have hut : u = t := AnnotatedToken.eq_of_index_eq hordered
    (mem_of_mem_longLinesFrom_pieces (mem_of_mem_dropRepeats hu))
    (mem_of_mem_longLineOwners ht) hindex
  rwa [hut] at hu

/-! ### Findings under two sets of thresholds -/

/-- The findings of rules that see the same numbers are the same. -/
theorem filter_findings_congr {c d : Thresholds} {tokens : List AnnotatedToken}
    (hnumbered : Token.Numbered (tokens.map (·.toToken))) {p : Rule → Bool}
    (h : ∀ rule, p rule = true → rule.limit? c = rule.limit? d) :
    (findings c tokens).filter (p ·.rule) = (findings d tokens).filter (p ·.rule) := by
  refine filter_findings_eq hnumbered (pairwise_before_filter hnumbered p) fun f => ?_
  rw [mem_filter_findings]
  refine exists_congr fun rule => and_congr_right fun hp => ?_
  rw [Rule.flagged_congr (h rule hp)]

section

variable {source : String} {nodes : List Node} (h : parseText source = .ok nodes)

include h

/-- **A scope that a rule objects to stays one for a smaller number**, and the token to blame is the same
or an earlier one. -/
theorem exists_earlier_flagged {c d : Thresholds} (hle : c.AtMost d) {rule : Rule}
    (hrule : rule.isOnSize = true) {t : AnnotatedToken}
    (ht : t ∈ rule.flagged d (analyze nodes).tokens) :
    ∃ scope, rule.subject t = some scope ∧ ∃ u ∈ rule.flagged c (analyze nodes).tokens,
      rule.subject u = some scope ∧ u.index ≤ t.index := by
  have hnumbered := numbered_of_tokenize (tokenize_of_parseText h)
  have hascending := pairwise_index_of_numbered (numbered_analyze hnumbered (parse_of_parseText h))
  have hfound : ∀ {κ : Type} [BEq κ] [LawfulBEq κ] [DecidableEq κ] {limit limit' : Nat}
      {items : List (Counted κ)}, limit ≤ limit' →
      (items.map Counted.token).Sublist (analyze nodes).tokens →
      (∀ item ∈ items, rule.subject item.token = some item.scope) → t ∈ firstExcess limit' items →
      ∃ scope, rule.subject t = some scope ∧ ∃ u ∈ firstExcess limit items,
        rule.subject u = some scope ∧ u.index ≤ t.index := by
    intro κ _ _ _ limit limit' items hlimit htokens hsubject hexcess
    have hordered := (hascending.sublist htokens).imp Nat.le_of_lt
    obtain ⟨item, hitem, earlier, hearlier, rfl, hscope, hmem, hindex⟩ :=
      exists_earlier_excess hlimit hordered hexcess
    exact ⟨item.scope, hsubject item hitem, earlier.token, hmem,
      hscope ▸ hsubject earlier hearlier, hindex⟩
  cases rule with
  | tooManyArguments =>
      exact hfound hle.params (token_filterMap_sublist _ _ _ _)
        (fun _ hitem => (of_mem_filterMap_counted hitem).2.2.1) ht
  | tooManyConstants =>
      have hclosed := closedQuotes_analyze hnumbered (parse_of_parseText h)
      exact hfound hle.constants (token_constantsFrom_sublist hclosed rfl)
        (fun _ hitem => scope_of_mem_constantsFrom hitem) ht
  | tooManyGlobals =>
      exact hfound hle.globals (token_filterMap_sublist _ _ _ _)
        (fun _ hitem => (of_mem_filterMap_counted hitem).2.2.1) ht
  | tooManyLocals =>
      exact hfound hle.locals (token_filterMap_sublist _ _ _ _)
        (fun _ hitem => (of_mem_filterMap_counted hitem).2.2.1) ht
  | _ => simp [Rule.isOnSize] at hrule

/-- The scope of a finding at a token of a tree is that of the token. -/
theorem scope?_ofToken {rule : Rule} {t : AnnotatedToken} (ht : t ∈ (analyze nodes).tokens) :
    (Finding.ofToken rule t).scope? (analyze nodes).tokens = rule.subject t := by
  have hplace := getElem?_index_of_mem_analyze (numbered_of_tokenize (tokenize_of_parseText h))
    (parse_of_parseText h) ht
  rw [Finding.scope?, Finding.ofToken, hplace, Option.bind_some]

end

/-- **Lower thresholds only add findings, and only of their own rules.**  Let no threshold of `c` be above
that of `d`.  Every long line that is found under `d` is found under `c`.  Each of the four rules on the
size of a lambda objects under `c` to every scope that it objects to under `d`, at the same token or at an
earlier one.  The findings of all other rules are the same.  And whatever two sets of thresholds are, if
they agree but for the number of one rule, then the findings of all other rules are the same. -/
theorem thresholds_move_own_rule {source : String} {nodes : List Node}
    (h : parseText source = .ok nodes) (c d : Thresholds) :
    let tokens := (analyze nodes).tokens
    (checkText c source = .ok (findings c tokens) ∧ checkText d source = .ok (findings d tokens)) ∧
    (c.AtMost d →
      (∀ f ∈ findings d tokens, f.rule = .lineLength → f ∈ findings c tokens) ∧
      (∀ f ∈ findings d tokens, f.rule.isOnSize = true →
        ∃ scope, f.scope? tokens = some scope ∧ ∃ g ∈ findings c tokens,
          g.rule = f.rule ∧ g.scope? tokens = some scope ∧ g.index ≤ f.index) ∧
      (findings c tokens).filter (!·.rule.isLimited) =
        (findings d tokens).filter (!·.rule.isLimited)) ∧
    ∀ rule : Rule, (∀ other, other ≠ rule → other.limit? c = other.limit? d) →
      (findings c tokens).filter (·.rule != rule) = (findings d tokens).filter (·.rule != rule) := by
  intro tokens
  have hnumbered := numbered_analyze (numbered_of_tokenize (tokenize_of_parseText h))
    (parse_of_parseText h)
  refine ⟨⟨by rw [checkText, h], by rw [checkText, h]⟩, fun hle => ⟨?_, ?_, ?_⟩, ?_⟩
  · rintro ⟨rule, index, span, position⟩ hf rfl
    obtain ⟨t, ht, hfinding⟩ := mem_findings_iff.1 hf
    exact mem_findings_iff.2 ⟨t, mem_longLineOwners_of_le hle.lineLength
      (pairwise_index_of_numbered hnumbered) ht, hfinding⟩
  · intro f hf hrule
    obtain ⟨t, ht, hfinding⟩ := mem_findings_iff.1 hf
    obtain ⟨scope, hscope, u, hu, huscope, hindex⟩ := exists_earlier_flagged h hle hrule ht
    have hgscope := (scope?_ofToken h (Rule.mem_of_mem_flagged hu)).trans huscope
    refine ⟨scope, ?_, .ofToken f.rule u, mem_findings_iff.2 ⟨u, hu, rfl⟩, rfl, hgscope, ?_⟩
    · rw [← hfinding]
      exact (scope?_ofToken h (Rule.mem_of_mem_flagged ht)).trans hscope
    · rw [← hfinding]
      exact hindex
  · refine filter_findings_congr (p := (!·.isLimited)) hnumbered fun rule hrule => ?_
    have hlimited : rule.isLimited = false := by simpa using hrule
    rw [Rule.limit?_eq_none hlimited, Rule.limit?_eq_none hlimited]
  · intro rule hagree
    refine filter_findings_congr (p := (· != rule)) hnumbered fun other hother => ?_
    exact hagree other (by simpa using hother)

/-- In `{[a;b;c]a+1;2;3}` the third parameter is one too many where two are allowed, and the second one
where one is allowed; the long line is found both times.  If only the number of parameters changes, all
other findings stay. -/
theorem thresholds_move_own_rule_lambda :
    let source := "\x7b[a;b;c]a+1;2;3\x7d\nx"
    let c : Thresholds := { lineLength := 5, constants := 0, params := 1 }
    let d : Thresholds := { lineLength := 10, constants := 1, params := 2 }
    let long : Finding := ⟨.lineLength, 0, ⟨0, 1⟩, ⟨0, 0⟩⟩
    let param : Finding := ⟨.tooManyArguments, 6, ⟨6, 7⟩, ⟨0, 6⟩⟩
    ∃ nodes, parseText source = .ok nodes ∧ c.AtMost d ∧
      long ∈ findings d (analyze nodes).tokens ∧ long ∈ findings c (analyze nodes).tokens ∧
      param ∈ findings d (analyze nodes).tokens ∧
      (∃ g ∈ findings c (analyze nodes).tokens, g.rule = .tooManyArguments ∧ g.index ≤ 6) ∧
      (findings c (analyze nodes).tokens).filter (·.rule != .tooManyArguments) =
        (findings { c with params := 2 } (analyze nodes).tokens).filter
          (·.rule != .tooManyArguments) := by
  intro source c d long param
  have hchecked : ∃ found, checkText d source = .ok found ∧ long ∈ found ∧ param ∈ found :=
    ⟨[long, ⟨.unusedParam, 4, ⟨4, 5⟩, ⟨0, 4⟩⟩, param, ⟨.unusedParam, 6, ⟨6, 7⟩, ⟨0, 6⟩⟩,
      ⟨.tooManyConstants, 12, ⟨12, 13⟩, ⟨0, 12⟩⟩], by decide +kernel, by decide, by decide⟩
  obtain ⟨found, hfound, hlong, hparam⟩ := hchecked
  cases hnodes : parseText source with
  | error e => simp [checkText, hnodes] at hfound
  | ok nodes =>
      obtain ⟨⟨-, hd⟩, hmono, -⟩ := thresholds_move_own_rule hnodes c d
      obtain ⟨-, -, hother⟩ := thresholds_move_own_rule hnodes c { c with params := 2 }
      obtain rfl := Except.ok.inj (hfound.symm.trans hd)
      have hle : c.AtMost d := ⟨by decide, by decide, by decide, by decide, by decide⟩
      obtain ⟨hlines, hsizes, -⟩ := hmono hle
      obtain ⟨scope, -, g, hg, hrule, -, hindex⟩ := hsizes param hparam rfl
      refine ⟨nodes, rfl, hle, hlong, hlines long hlong rfl, hparam, ⟨g, hg, hrule, hindex⟩, ?_⟩
      refine hother .tooManyArguments fun other hne => ?_
      cases other <;> first | rfl | exact absurd rfl hne

end QSource
