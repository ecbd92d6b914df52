/-
**The limit on constants.**

The rule on constants reads the annotated tokens one by one, so it has to put a quoted text together
again, and while it does so the text has no closing quote yet.  Here a constant is a node of the tree:
a literal that nothing is assigned to, or a quoted text, with what the source has from its first to its
last byte.  The two agree: what the rule collects for a quoted text differs from that of another just
if their texts in the source do, and it never is the text of a literal, because a literal does not
start with a quote.

Main definitions:

* `QSource.constants`, `QSource.Scope.constants` — **the constants of a tree and of a scope**;
* `QSource.Scope.excessConstant` — the constant with which a scope comes to have too many.

Main results:

* `QSource.countedConstants_analyze` — the rule counts the nodes of the tree that are constants;
* `QSource.card_keysOf_countedConstants` — it tells them apart by their texts in the source;
* `QSource.findings_excessConstant` — **the limit on constants agrees with the tree**.
-/

import QSource.Proofs.Check
import QSource.Proofs.Lint.Limits
import QSource.Proofs.Lint.Misassigned
import QSource.Proofs.Scope.Lambdas
import QSource.Proofs.Token.Quotes

set_option relaxedAutoImplicit false
set_option autoImplicit false

namespace QSource

open Text

/-! ### The constants of a tree -/

/-- A constant: its first token, and its text in the source. -/
structure Constant where
  first : Token
  text : List Char
deriving DecidableEq

/-- The constant from one token to another. -/
def Constant.between? (source : String) (first last : Token) : Option Constant :=
  (slice? source.toList first.span.start last.span.stop).map (⟨first, ·⟩)

/-- The constant that a node is, if it is one: a literal that nothing is assigned to, or a quoted text,
from its opening to its closing quote.  Assignment signs inside parameter lists do not count, so a literal
before one of them is a constant. -/
def Node.constant? (source : String) (nodes : List Node) : Node → Option Constant
  | .leaf .literal t => if IsWritten nodes t then none else Constant.between? source t t
  | .quoted first _ last => Constant.between? source first last
  | _ => none

/-- **The constants of a tree**, in their order.  They are all literals but the targets of assignments outside
parameter lists, and all quoted texts. -/
def constants (source : String) (nodes : List Node) : List Constant :=
  (Node.all nodes).filterMap (Node.constant? source nodes)

/-- The number of different texts of constants. -/
def distinctTexts (cs : List Constant) : Nat := (cs.map Constant.text).toFinset.card

/-- **The constants of a scope**: those whose innermost lambda is that of the scope. -/
def Scope.constants (s : Scope) (source : String) (nodes : List Node) : List Constant :=
  (QSource.constants source nodes).filter fun c =>
    Innermost (Node.outside nodes) c.first.index s.first s.last

/-- The constant with which the different constants of the scope come to be more than the limit. -/
def Scope.excessConstant (s : Scope) (limit : Nat) (source : String) (nodes : List Node) :
    Option Constant :=
  firstAbove limit distinctTexts (s.constants source nodes)

theorem distinctTexts_le_append (cs cs' : List Constant) :
    distinctTexts cs ≤ distinctTexts (cs ++ cs') := by
  refine Finset.card_le_card ?_
  rw [List.map_append, List.toFinset_append]
  exact Finset.subset_union_left

/-! ### Tokens that are counted -/

section

variable {quote : Option (AnnotatedToken × String)} {rest : List AnnotatedToken}

/-- Tokens that are neither literals nor of quoted texts count for nothing. -/
theorem constantsFrom_skip {ts : List AnnotatedToken}
    (h : ∀ t ∈ ts, t.kind.isLiteral = false ∧ t.kind.ofQuote = false) :
    constantsFrom quote (ts ++ rest) = constantsFrom quote rest := by
  induction ts with
  | nil => rfl
  | cons t ts ih =>
      obtain ⟨⟨hliteral, hquote⟩, hts⟩ := List.forall_mem_cons.1 h
      rw [List.cons_append, constantsFrom.eq_def]
      dsimp only
      split
      case h_6 => exact ih hts
      all_goals
        next hkind => simp [hkind, Kind.isLiteral, Kind.ofQuote] at hliteral hquote

/-- The pieces of a quoted text are put together, up to its closing quote. -/
theorem constantsFrom_pieces {first last : AnnotatedToken} {text : String}
    {content : List AnnotatedToken}
    (hcontent : ∀ t ∈ content, t.kind = .quotedText ∨ t.kind = .quotedEscape)
    (hlast : last.kind = .closeQuote) :
    constantsFrom (some (first, text)) (content ++ last :: rest) =
      constantAt first (text ++ String.ofList (Lexeme.join (content.map (·.toLexeme)))) ++
        constantsFrom none rest := by
  induction content generalizing text with
  | nil => simp [constantsFrom, hlast]
  | cons t content ih =>
      obtain ⟨ht, hcontent⟩ := List.forall_mem_cons.1 hcontent
      have htext : text ++ t.text ++ String.ofList (Lexeme.join (content.map (·.toLexeme))) =
          text ++ String.ofList (Lexeme.join ((t :: content).map (·.toLexeme))) := by
        rw [List.map_cons, Lexeme.join_cons, String.ofList_append, Lexeme.chars, String.ofList_toList,
          String.append_assoc]
      rw [List.cons_append, constantsFrom.eq_def]
      rcases ht with ht | ht <;> simp only [ht, Option.map_some, ih hcontent, htext]

end

/-! ### From the tokens to the tree -/

/-- What the rule counts at a node, given the annotations of its tokens. -/
def Node.counted (look : Token → AnnotatedToken) : Node → List (Counted String)
  | .leaf .literal t => if (look t).isAssignment then [] else constantAt (look t) t.text
  | .quoted first content _ =>
    constantAt (look first) ("\"" ++ String.ofList (Lexeme.join (content.map Token.toLexeme)))
  | _ => []

section

variable {look : Token → AnnotatedToken}

theorem constantsFrom_map_skip (hlook : ∀ t, (look t).toToken = t) {ts : List Token}
    (h : ∀ t ∈ ts, t.kind.isLiteral = false ∧ t.kind.ofQuote = false)
    (rest : List AnnotatedToken) :
    constantsFrom none (ts.map look ++ rest) = constantsFrom none rest := by
  refine constantsFrom_skip (List.forall_mem_map.2 fun t ht => ?_)
  rw [hlook]
  exact h t ht

mutual

theorem constantsFrom_tokens (hlook : ∀ t, (look t).toToken = t) :
    ∀ (node : Node) (rest : List AnnotatedToken), (∀ x ∈ node.subtrees, x.Fits) →
    constantsFrom none (node.tokens.map look ++ rest) =
      node.subtrees.flatMap (Node.counted look) ++ constantsFrom none rest
  | .leaf form token, rest, hfits => by
      have hform : token.kind.leafForm? = some form := hfits _ (Node.self_mem_subtrees _)
      rw [Node.subtrees_leaf, List.flatMap_singleton, Node.tokens]
      by_cases hliteral : form = .literal
      · subst hliteral
        cases hkind : token.kind <;> simp [hkind, Kind.leafForm?] at hform
        have hkind' : (look token).kind = .literal _ :=
          (congrArg (·.kind) (hlook token)).trans hkind
        have htext : (look token).text = token.text := congrArg (·.text) (hlook token)
        rw [List.map_singleton, List.singleton_append, constantsFrom.eq_def, Node.counted]
        simp only [hkind', htext]
      · have hkinds : token.kind.isLiteral = false ∧ token.kind.ofQuote = false := by
          cases hkind : token.kind <;> simp_all [Kind.leafForm?, Kind.isLiteral, Kind.ofQuote]
        rw [constantsFrom_map_skip hlook (List.forall_mem_singleton.2 hkinds)]
        cases form <;> simp_all [Node.counted]
  | .assignment parts, rest, hfits => by
      rw [Node.subtrees_assignment, List.flatMap_singleton, Node.tokens]
      refine constantsFrom_map_skip hlook (fun t ht => ?_) rest
      have hkind := (hfits _ (Node.self_mem_subtrees _)).kind_of_mem_assignment ht
      rcases hkind with hkind | hkind | hkind | hkind <;> simp [hkind, Kind.isLiteral, Kind.ofQuote]
  | .quoted first content last, rest, hfits => by
      obtain ⟨hfirst, hlast, hcontent⟩ := hfits _ (Node.self_mem_subtrees _)
      have hkind : (look first).kind = .openQuote := (congrArg (·.kind) (hlook first)).trans hfirst
      have hjoin : (content.map look).map (fun t => t.toLexeme) = content.map Token.toLexeme := by
        simp [List.map_map, Function.comp_def, hlook]
      rw [Node.subtrees_quoted, List.flatMap_singleton, Node.tokens, Node.counted, ← hjoin]
      rw [List.map_append, List.map_cons, List.append_assoc, List.cons_append, constantsFrom.eq_def]
      simp only [hkind]
      have hpieces : ∀ t ∈ content.map look, t.kind = .quotedText ∨ t.kind = .quotedEscape := by
        refine List.forall_mem_map.2 fun t ht => ?_
        rw [hlook]
        exact hcontent t ht
      exact constantsFrom_pieces hpieces ((congrArg (·.kind) (hlook last)).trans hlast)
  | .enclosed form first items last, rest, hfits => by
      have hnode := hfits _ (Node.self_mem_subtrees _)
      have hitems : ∀ x ∈ Node.all items, x.Fits := fun x hx => hfits x (by simp [hx])
      have hopen : ∀ t ∈ form.gap ++ [first],
          t.kind.isLiteral = false ∧ t.kind.ofQuote = false := by
        intro t ht
        rcases hnode.kind_of_mem_first ht with hkind | hkind <;>
          simp [hkind, Kind.isLiteral, Kind.ofQuote]
      have hclose : ∀ t ∈ [last], t.kind.isLiteral = false ∧ t.kind.ofQuote = false :=
        List.forall_mem_singleton.2 (by simp [hnode.2.1, Kind.isLiteral, Kind.ofQuote])
      have htokens : (Node.enclosed form first items last).tokens =
          (form.gap ++ [first]) ++ (Node.allTokens items ++ [last]) := by
        simp [Node.tokens]
      rw [htokens, List.map_append, List.append_assoc, constantsFrom_map_skip hlook hopen,
        List.map_append, List.append_assoc, constantsFrom_allTokens hlook items _ hitems,
        constantsFrom_map_skip hlook hclose, Node.subtrees_enclosed, List.flatMap_cons]
      rfl

/-- **The rule counts node by node.** -/
theorem constantsFrom_allTokens (hlook : ∀ t, (look t).toToken = t) :
    ∀ (nodes : List Node) (rest : List AnnotatedToken), (∀ x ∈ Node.all nodes, x.Fits) →
    constantsFrom none ((Node.allTokens nodes).map look ++ rest) =
      (Node.all nodes).flatMap (Node.counted look) ++ constantsFrom none rest
  | [], rest, _ => by simp
  | node :: nodes, rest, hfits => by
      have hnode : ∀ x ∈ node.subtrees, x.Fits := fun x hx => hfits x (by simp [hx])
      have hnodes : ∀ x ∈ Node.all nodes, x.Fits := fun x hx => hfits x (by simp [hx])
      rw [Node.allTokens_cons, List.map_append, List.append_assoc,
        constantsFrom_tokens hlook node _ hnode, constantsFrom_allTokens hlook nodes _ hnodes,
        Node.all_cons, List.flatMap_append, List.append_assoc]

end

end

/-- The annotated token of a token of a tree. -/
def annotationOf (nodes : List Node) (t : Token) : AnnotatedToken :=
  { ((analyze nodes).tokens[t.index]?).getD ⟨t, none, none, none, false, none⟩ with toToken := t }

@[simp] theorem toToken_annotationOf (nodes : List Node) (t : Token) :
    (annotationOf nodes t).toToken = t := rfl

section

variable {tokens : List Token} {nodes : List Node} (hnumbered : Token.Numbered tokens)
  (h : parse tokens = .ok nodes)

include hnumbered h

theorem annotationOf_toToken {t : AnnotatedToken} (ht : t ∈ (analyze nodes).tokens) :
    annotationOf nodes t.toToken = t := by
  rw [annotationOf, getElem?_index_of_mem_analyze hnumbered h ht]
  rfl

theorem map_annotationOf :
    (Node.allTokens nodes).map (annotationOf nodes) = (analyze nodes).tokens := by
  rw [← toToken_analyze, List.map_map]
  exact (List.map_congr_left fun t ht => annotationOf_toToken hnumbered h ht).trans (List.map_id' _)

theorem annotationOf_mem {t : Token} (ht : t ∈ Node.allTokens nodes) :
    annotationOf nodes t ∈ (analyze nodes).tokens := by
  rw [← map_annotationOf hnumbered h]
  exact List.mem_map_of_mem ht

/-- **The rule counts the nodes of the tree that are constants.** -/
theorem countedConstants_analyze : countedConstants (analyze nodes).tokens =
    (Node.all nodes).flatMap (Node.counted (annotationOf nodes)) := by
  have hcount := constantsFrom_allTokens (toToken_annotationOf nodes) nodes [] (fits_parse h)
  rwa [map_annotationOf hnumbered h, List.append_nil, constantsFrom, List.append_nil] at hcount

/-- A literal is annotated as written just if an assignment sign writes to it. -/
theorem isAssignment_annotationOf_iff {t : Token} (ht : .leaf .literal t ∈ Node.all nodes) :
    (annotationOf nodes t).isAssignment = true ↔ IsWritten nodes t := by
  have hform : t.kind.leafForm? = some .literal := fits_parse h _ ht
  have hliteral := Kind.leafForm?_eq_literal.1 hform
  have hmem : annotationOf nodes t ∈ (analyze nodes).tokens :=
    annotationOf_mem hnumbered h (Node.mem_allTokens_of_mem_all ht (by simp [Node.tokens]))
  obtain ⟨m, hm, hannotate⟩ := exists_marked_of_mem_analyze hmem
  have htoken : m.token = t := by
    rw [← Marked.toToken_annotate (analyze nodes).scopes.reverse m, ← hannotate]
    rfl
  rw [hannotate, Marked.isAssignment_annotate_iff (Or.inr (htoken ▸ hliteral))]
  constructor
  · rintro ⟨_, _, hmark⟩
    obtain ⟨a, -, htarget⟩ := exists_isTarget_of_mark hm hmark
    exact ⟨a, htoken ▸ htarget⟩
  · rintro ⟨a, htarget⟩
    obtain ⟨m', hm', htoken', form, query, hform', hmark⟩ := exists_marked_of_isTarget h htarget
    obtain rfl : LeafForm.literal = form := Option.some.inj (hform.symm.trans hform')
    rw [marked_eq_of_token_eq hnumbered h hm hm' (htoken.trans htoken'.symm)]
    exact ⟨_, _, hmark⟩

end

/-! ### Texts and keys -/

/-- What the rule tells the text of a constant from others by: that of a quoted text lacks the closing
quote. -/
def keyOf (text : List Char) : String :=
  String.ofList (if text.head? = some '"' then text.dropLast else text)

/-- A text that starts with a quote ends with another one. -/
def QuotedOrNot (text : List Char) : Prop :=
  text.head? ≠ some '"' ∨ ∃ body, text = '"' :: body ++ ['"']

section

variable {text text' : List Char}

theorem keyOf_of_head?_ne (h : text.head? ≠ some '"') : keyOf text = String.ofList text := by
  rw [keyOf, if_neg h]

theorem keyOf_quoted (body : List Char) :
    keyOf ('"' :: body ++ ['"']) = String.ofList ('"' :: body) := by
  rw [keyOf, if_pos (by simp), List.dropLast_concat]

/-- **Texts of constants with the same key are the same.** -/
theorem eq_of_keyOf_eq (h : QuotedOrNot text) (h' : QuotedOrNot text')
    (hkey : keyOf text = keyOf text') : text = text' := by
  rcases h with h | ⟨body, rfl⟩
  · rcases h' with h' | ⟨body', rfl⟩
    · rwa [keyOf_of_head?_ne h, keyOf_of_head?_ne h', String.ofList_inj] at hkey
    · rw [keyOf_of_head?_ne h, keyOf_quoted, String.ofList_inj] at hkey
      simp [hkey] at h
  · rcases h' with h' | ⟨body', rfl⟩
    · rw [keyOf_quoted, keyOf_of_head?_ne h', String.ofList_inj] at hkey
      simp [← hkey] at h'
    · rw [keyOf_quoted, keyOf_quoted, String.ofList_inj] at hkey
      rw [hkey]

end

/-- What the rule counts for a constant, given the annotations of tokens. -/
def Constant.counted (look : Token → AnnotatedToken) (c : Constant) : Option (Counted String) :=
  (look c.first).scope.map fun id => ⟨id, keyOf c.text, look c.first⟩

section

variable {source : String} {nodes : List Node} (h : parseText source = .ok nodes)

include h

/-- The text from the first to the last token of a node is what the tokens of the node make up. -/
theorem between?_of_mem_all {x : Node} (hx : x ∈ Node.all nodes) {first last : Token}
    (hfirst : x.tokens.head? = some first) (hlast : x.tokens.getLast? = some last) :
    Constant.between? source first last =
      some ⟨first, Lexeme.join (x.tokens.map Token.toLexeme)⟩ := by
  obtain ⟨xs, hxs, hjoin, -⟩ := exists_of_tokenize_eq_ok (tokenize_of_parseText h)
  obtain ⟨before, behind, htokens⟩ := Node.infix_allTokens nodes hx
  rw [Constant.between?, ← hjoin, Token.slice?_layOut (hxs.symm.trans htokens.symm) hfirst hlast]
  rfl

theorem constant?_literal {t : Token} (ht : .leaf .literal t ∈ Node.all nodes) :
    Node.constant? source nodes (.leaf .literal t) =
      if IsWritten nodes t then none else some ⟨t, t.chars⟩ := by
  rw [Node.constant?, @between?_of_mem_all _ _ h _ ht t t rfl rfl]
  simp [Node.tokens]

theorem constant?_quoted {first last : Token} {content : List Token}
    (hx : .quoted first content last ∈ Node.all nodes) :
    Node.constant? source nodes (.quoted first content last) =
      some ⟨first, '"' :: Lexeme.join (content.map Token.toLexeme) ++ ['"']⟩ := by
  obtain ⟨hfirst, hlast, -⟩ := fits_parse (parse_of_parseText h) _ hx
  have hchars : ∀ t ∈ (Node.quoted first content last).tokens,
      t.kind = .openQuote ∨ t.kind = .closeQuote → t.chars = ['"'] := fun t ht =>
    chars_of_quote (tokenize_of_parseText h) (Node.mem_allTokens_of_mem_all hx ht)
  rw [Node.constant?, between?_of_mem_all h hx rfl List.getLast?_concat]
  simp [Node.tokens, hchars first (by simp [Node.tokens]) (Or.inl hfirst),
    hchars last (by simp [Node.tokens]) (Or.inr hlast)]

theorem head?_chars_of_leaf {t : Token} (ht : .leaf .literal t ∈ Node.all nodes) :
    t.chars.head? ≠ some '"' := by
  have hform : t.kind.leafForm? = some .literal := fits_parse (parse_of_parseText h) _ ht
  cases hkind : t.kind <;> simp [hkind, Kind.leafForm?] at hform
  exact head?_chars_of_literal (tokenize_of_parseText h)
    (Node.mem_allTokens_of_mem_all ht (by simp [Node.tokens])) hkind

/-- The first token and the text of a constant. -/
theorem of_constant?_eq_some {x : Node} (hx : x ∈ Node.all nodes) {c : Constant}
    (hc : x.constant? source nodes = some c) : c.first ∈ x.tokens ∧ QuotedOrNot c.text := by
  cases x with
  | leaf form t =>
      by_cases hliteral : form = .literal
      · subst hliteral
        rw [constant?_literal h hx, Option.ite_none_left_eq_some] at hc
        obtain rfl := Option.some.inj hc.2
        exact ⟨by simp [Node.tokens], Or.inl (head?_chars_of_leaf h hx)⟩
      · cases form <;> simp_all [Node.constant?]
  | quoted first content last =>
      rw [constant?_quoted h hx] at hc
      obtain rfl := Option.some.inj hc
      exact ⟨by simp [Node.tokens], Or.inr ⟨_, rfl⟩⟩
  | _ => simp [Node.constant?] at hc

theorem of_mem_constants {c : Constant} (hc : c ∈ constants source nodes) :
    c.first ∈ Node.allTokens nodes ∧ QuotedOrNot c.text := by
  obtain ⟨x, hx, hconstant⟩ := List.mem_filterMap.1 hc
  exact (of_constant?_eq_some h hx hconstant).imp_left (Node.mem_allTokens_of_mem_all hx)

/-- The rule counts for a node what it counts for the constant. -/
theorem counted_eq {x : Node} (hx : x ∈ Node.all nodes) :
    x.counted (annotationOf nodes) =
      ((x.constant? source nodes).bind (Constant.counted (annotationOf nodes))).toList := by
  cases x with
  | leaf form t =>
      by_cases hliteral : form = .literal
      · subst hliteral
        have hwritten := isAssignment_annotationOf_iff
          (numbered_of_tokenize (tokenize_of_parseText h)) (parse_of_parseText h) hx
        have hkey : keyOf t.chars = t.text := by
          rw [keyOf_of_head?_ne (head?_chars_of_leaf h hx)]
          exact String.ofList_toList
        rw [constant?_literal h hx, Node.counted]
        by_cases hassignment : (annotationOf nodes t).isAssignment = true
        · rw [if_pos hassignment, if_pos (hwritten.1 hassignment)]
          rfl
        · rw [if_neg hassignment, if_neg (mt hwritten.2 hassignment), Option.bind_some,
            Constant.counted, hkey]
          rfl
      · cases form <;> simp_all [Node.counted, Node.constant?]
  | quoted first content last =>
      rw [constant?_quoted h hx, Node.counted, Option.bind_some, Constant.counted,
        keyOf_quoted, String.ofList_cons]
      rfl
  | _ => rfl

/-- **The rule counts the constants of the tree that stand in a scope.** -/
theorem countedConstants_eq : countedConstants (analyze nodes).tokens =
    (constants source nodes).filterMap (Constant.counted (annotationOf nodes)) := by
  rw [countedConstants_analyze (numbered_of_tokenize (tokenize_of_parseText h))
    (parse_of_parseText h), constants, List.filterMap_filterMap, List.filterMap_eq_flatMap_toList]
  exact List.flatMap_congr fun x hx => counted_eq h hx

/-- **The rule tells the constants of a scope apart by their texts in the source.** -/
theorem card_keysOf_countedConstants {s : Scope} (hs : s ∈ (analyze nodes).scopes)
    {cs : List Constant} (hcs : cs ⊆ constants source nodes) :
    (keysOf s.id (cs.filterMap (Constant.counted (annotationOf nodes)))).card =
      distinctTexts (cs.filter fun c =>
        Innermost (Node.outside nodes) c.first.index s.first s.last) := by
  have hnumbered := numbered_of_tokenize (tokenize_of_parseText h)
  have hkeys : keysOf s.id (cs.filterMap (Constant.counted (annotationOf nodes))) =
      ((cs.filter fun c => Innermost (Node.outside nodes) c.first.index s.first s.last).map
        Constant.text).toFinset.image keyOf := by
    ext key
    simp only [mem_keysOf, List.mem_filterMap, Constant.counted, Option.map_eq_some_iff,
      Finset.mem_image, List.mem_toFinset, List.mem_map, List.mem_filter, decide_eq_true_eq]
    have hscope : ∀ c ∈ cs, (annotationOf nodes c.first).scope = some s.id ↔
        Innermost (Node.outside nodes) c.first.index s.first s.last := fun c hc =>
      scope_eq_some_iff hnumbered (parse_of_parseText h)
        (annotationOf_mem hnumbered (parse_of_parseText h) (of_mem_constants h (hcs hc)).1) hs
    constructor
    · rintro ⟨_, ⟨c, hc, id, hid, rfl⟩, rfl, rfl⟩
      exact ⟨c.text, ⟨c, ⟨hc, (hscope c hc).1 hid⟩, rfl⟩, rfl⟩
    · rintro ⟨_, ⟨c, ⟨hc, hinnermost⟩, rfl⟩, rfl⟩
      exact ⟨_, ⟨c, hc, s.id, (hscope c hc).2 hinnermost, rfl⟩, rfl, rfl⟩
  rw [hkeys, distinctTexts]
  refine Finset.card_image_of_injOn fun text htext text' htext' => ?_
  simp only [Finset.mem_coe, List.mem_toFinset, List.mem_map, List.mem_filter] at htext htext'
  obtain ⟨c, ⟨hc, -⟩, rfl⟩ := htext
  obtain ⟨c', ⟨hc', -⟩, rfl⟩ := htext'
  exact eq_of_keyOf_eq (of_mem_constants h (hcs hc)).2 (of_mem_constants h (hcs hc')).2

/-! ### The limit -/

/-- **The rule on constants objects to the constants that are one too many.** -/
theorem mem_flagged_tooManyConstants {limits : Thresholds} {t : AnnotatedToken} :
    t ∈ Rule.tooManyConstants.flagged limits (analyze nodes).tokens ↔
      ∃ s ∈ (analyze nodes).scopes, ((s.excessConstant limits.constants source nodes).map fun c =>
        annotationOf nodes c.first) = some t := by
  have htoken : ∀ (c : Constant) item, c.counted (annotationOf nodes) = some item →
      item.token = annotationOf nodes c.first := by
    intro c item hitem
    obtain ⟨_, -, rfl⟩ := Option.map_eq_some_iff.1 hitem
    rfl
  have hfirst : ∀ s ∈ (analyze nodes).scopes, firstAbove limits.constants (fun cs => (keysOf s.id
      (cs.filterMap (Constant.counted (annotationOf nodes)))).card) (constants source nodes) =
        s.excessConstant limits.constants source nodes := by
    intro s hs
    rw [firstAbove_congr fun cs hcs => card_keysOf_countedConstants h hs hcs.subset]
    exact firstAbove_filter (Nat.zero_le _) distinctTexts_le_append
  rw [Rule.flagged, countedConstants_eq h, mem_firstExcess_filterMap_iff htoken]
  simp only [Option.map_eq_some_iff]
  constructor
  · rintro ⟨id, c, hc, rfl⟩
    -- the constant counts for a scope of the table
    obtain ⟨item, hitem, rfl⟩ := exists_of_firstAbove_keysOf hc
    obtain ⟨id, hscope, rfl⟩ := Option.map_eq_some_iff.1 hitem
    have hmem := annotationOf_mem (numbered_of_tokenize (tokenize_of_parseText h))
      (parse_of_parseText h) (of_mem_constants h (mem_of_firstAbove_eq_some hc)).1
    obtain ⟨m, hm, hannotate⟩ := exists_marked_of_mem_analyze hmem
    rw [hannotate, Marked.scope_annotate] at hscope
    obtain ⟨s, hs, rfl⟩ := exists_mem_scopes_of_lt (scope_lt_of_mem_marked hm hscope)
    exact ⟨s, hs, c, (hfirst s hs).symm.trans hc, rfl⟩
  · rintro ⟨s, hs, c, hc, rfl⟩
    exact ⟨s.id, c, (hfirst s hs).trans hc, rfl⟩

/-- The constant that is one too many is annotated with the scope. -/
theorem scope_annotationOf_excessConstant {limit : Nat} {s : Scope}
    (hs : s ∈ (analyze nodes).scopes) {c : Constant}
    (hc : s.excessConstant limit source nodes = some c) :
    (annotationOf nodes c.first).scope = some s.id := by
  have hnumbered := numbered_of_tokenize (tokenize_of_parseText h)
  obtain ⟨hmem, hinnermost⟩ := List.mem_filter.1 (mem_of_firstAbove_eq_some hc)
  exact (scope_eq_some_iff hnumbered (parse_of_parseText h) (annotationOf_mem hnumbered
    (parse_of_parseText h) (of_mem_constants h hmem).1) hs).2 (of_decide_eq_true hinnermost)

end

/-- **The limit on constants agrees with the tree.**  There is one finding for each scope with more
different constants than allowed, at the first token of the constant with which they come to be more,
and there are no others; a constant outside all scopes is never reported. -/
theorem findings_excessConstant (limits : Thresholds) {source : String} {nodes : List Node}
    (h : parseText source = .ok nodes) :
    ∃ found, checkText limits source = .ok found ∧
      (found.filter (·.rule == .tooManyConstants)).Perm
        ((analyze nodes).scopes.filterMap fun s =>
          (s.excessConstant limits.constants source nodes).map fun c =>
            .atToken .tooManyConstants c.first) ∧
      (∀ s ∈ (analyze nodes).scopes, ((s.excessConstant limits.constants source nodes).isSome ↔
        limits.constants < distinctTexts (s.constants source nodes))) ∧
      ∀ c ∈ constants source nodes,
        (∀ s ∈ (analyze nodes).scopes, ¬ s.Covers c.first.index) →
          ∀ f ∈ found, f.rule = .tooManyConstants → f.index ≠ c.first.index := by
  have hchecked : checkText limits source = .ok (findings limits (analyze nodes).tokens) := by
    rw [checkText, h]
  have howner : ∀ s ∈ (analyze nodes).scopes, ∀ t,
      ((s.excessConstant limits.constants source nodes).map fun c => annotationOf nodes c.first) =
        some t → t.scope = some s.id := by
    intro s hs t ht
    obtain ⟨c, hc, rfl⟩ := Option.map_eq_some_iff.1 ht
    exact scope_annotationOf_excessConstant h hs hc
  have hperm := perm_findings_of_scopes (numbered_of_tokenize (tokenize_of_parseText h))
    (parse_of_parseText h) (fun t => mem_flagged_tooManyConstants h) howner
  simp only [Option.map_map] at hperm
  refine ⟨_, hchecked, hperm, fun s hs => ?_, fun c hc houtside f hf hrule => ?_⟩
  · exact isSome_firstAbove_iff (Nat.zero_le _) distinctTexts_le_append
  · have hmem := hperm.mem_iff.1 (List.mem_filter.2 ⟨hf, beq_iff_eq.2 hrule⟩)
    obtain ⟨s, hs, hfinding⟩ := List.mem_filterMap.1 hmem
    obtain ⟨c', hc', rfl⟩ := Option.map_eq_some_iff.1 hfinding
    have hinnermost := (List.mem_filter.1 (mem_of_firstAbove_eq_some hc')).2
    intro hindex
    exact houtside s hs (hindex ▸ (of_decide_eq_true hinnermost).1.2)

/-- In `1 2;{1;"a";"a";{1;3;3;"1"};1.5:1;"\"";"b"}` at most two constants are allowed.  The outer lambda
comes to have more with `"\""`: the repeated texts, what is assigned to, and the constants of the inner
lambda make no difference.  The inner one comes to have more with `"1"`, which is not the same as `1`. -/
theorem findings_excessConstant_nested :
    let source := "1 2;\x7b1;\"a\";\"a\";\x7b1;3;3;\"1\"\x7d;1.5:1;\"\\\"\";\"b\"\x7d"
    let limits : Thresholds := { constants := 2 }
    let found : List Finding := [⟨.tooManyConstants, 22, ⟨22, 23⟩, ⟨0, 22⟩⟩,
      ⟨.invalidAssign, 27, ⟨27, 30⟩, ⟨0, 27⟩⟩, ⟨.tooManyConstants, 31, ⟨33, 34⟩, ⟨0, 33⟩⟩]
    ∃ nodes, parseText source = .ok nodes ∧ checkText limits source = .ok found ∧
      (found.filter (·.rule == .tooManyConstants)).Perm
        ((analyze nodes).scopes.filterMap fun s =>
          (s.excessConstant 2 source nodes).map fun c => .atToken .tooManyConstants c.first) := by
  intro source limits found
  have hfound : checkText limits source = .ok found := by decide +kernel
  cases hnodes : parseText source with
  | error e => simp [checkText, hnodes] at hfound
  | ok nodes =>
      obtain ⟨found', hfound', hperm, -⟩ := findings_excessConstant limits hnodes
      obtain rfl := Except.ok.inj (hfound'.symm.trans hfound)
      exact ⟨nodes, rfl, hfound, hperm⟩

end QSource
