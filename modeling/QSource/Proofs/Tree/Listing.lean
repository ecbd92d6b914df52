/-
**A tree says where every token stands.**

A tree can be written down by the numbers of its tokens alone: the number of a leaf, the numbers of
the first and of the last token of a pair with those of the items between them, all numbers from the
opening to the closing quote of a quoted text.  The only tokens that are not named in this way are
the blanks that an assignment sign or the start of a lambda takes in.

Main definitions:

* `QSource.Node.indices`, `QSource.Node.allIndices` — **the listing of a tree**;
* `QSource.Node.gap` — the tokens that a node takes in without naming them;
* `QSource.Faithful` — what a tree has to say about the tokens that it was made from.

Main results:

* `QSource.Node.allIndices_sublist` — the listing is in the order of the tokens;
* `QSource.Node.mem_allIndices_or_exists` — a token is listed, or it is in a gap;
* `QSource.faithful_parse` — **every tree is faithful to the tokens that it was made from**.
-/

import QSource.Proofs.Tree.Shape

set_option relaxedAutoImplicit false
set_option autoImplicit false

namespace QSource

namespace Node

/-! ### The listing of a tree -/

mutual

/-- The numbers that a node names. -/
def indices : Node → List Nat
  | .leaf _ token => [token.index]
  | .assignment parts => (parts.operator.toList ++ [parts.colon]).map (·.index)
  | .quoted first _ last => List.range' first.index (last.index + 1 - first.index)
  | .enclosed _ first items last => first.index :: allIndices items ++ [last.index]

/-- The numbers that the nodes of a sequence name. -/
def allIndices : List Node → List Nat
  | [] => []
  | node :: nodes => node.indices ++ allIndices nodes

end

/-- The tokens that a node takes in without naming them. -/
def gap : Node → List Token
  | .assignment parts => parts.gap
  | .enclosed form _ _ _ => form.gap
  | _ => []

/-- The numbers from the opening to the closing quote are those of the tokens of a quoted text. -/
theorem indices_quoted {start : Nat} {first last : Token} {content : List Token}
    (h : Token.CountFrom start (first :: content ++ [last])) :
    (quoted first content last).indices = (quoted first content last).tokens.map (·.index) := by
  rw [Node.tokens, h, indices]
  rw [List.cons_append, Token.countFrom_cons, Token.countFrom_append] at h
  obtain ⟨hfirst, -, hlast⟩ := h
  obtain ⟨hlast, -⟩ := Token.countFrom_cons.1 hlast
  have hlength : last.index + 1 - first.index = (first :: content ++ [last]).length := by
    simp only [List.cons_append, List.length_cons, List.length_append, List.length_nil]
    omega
  rw [hlength, hfirst]

mutual

theorem indices_sublist : ∀ node : Node,
    (∀ x ∈ node.subtrees, ∃ start, Token.CountFrom start x.tokens) →
    node.indices.Sublist (node.tokens.map (·.index))
  | .leaf form token, _ => by simp [indices, Node.tokens]
  | .assignment parts, _ => by
      rw [indices, Node.tokens, Assignment.tokens, List.append_assoc]
      exact ((List.Sublist.refl _).append (List.sublist_append_right _ _)).map _
  | .quoted first content last, h => by
      obtain ⟨start, hstart⟩ := h _ (self_mem_subtrees _)
      simp [indices_quoted hstart]
  | .enclosed form first items last, h => by
      have hitems := allIndices_sublist items fun x hx => h x (by simp [hx])
      rw [indices, Node.tokens, List.append_assoc, List.map_append]
      refine List.Sublist.trans ?_ (List.sublist_append_right _ _)
      simpa using hitems

/-- The listing is in the order of the tokens. -/
theorem allIndices_sublist : ∀ nodes : List Node,
    (∀ x ∈ all nodes, ∃ start, Token.CountFrom start x.tokens) →
    (allIndices nodes).Sublist ((allTokens nodes).map (·.index))
  | [], _ => by simp [allIndices]
  | node :: nodes, h => by
      rw [allIndices, allTokens_cons, List.map_append]
      refine (indices_sublist node fun x hx => h x ?_).append
        (allIndices_sublist nodes fun x hx => h x ?_) <;> simp [hx]

end

mutual

theorem mem_indices_or_exists {t : Token} : ∀ node : Node,
    (∀ x ∈ node.subtrees, ∃ start, Token.CountFrom start x.tokens) → t ∈ node.tokens →
    t.index ∈ node.indices ∨ ∃ x ∈ node.subtrees, t ∈ x.gap
  | .leaf form token, _, ht => by
      left
      obtain rfl : t = token := by simpa [Node.tokens] using ht
      simp [indices]
  | .assignment parts, _, ht => by
      simp only [Node.tokens, Assignment.tokens, List.mem_append, or_assoc] at ht
      rcases ht with ht | ht | ht
      · left
        exact List.mem_map_of_mem (List.mem_append_left _ ht)
      · right
        exact ⟨_, self_mem_subtrees _, ht⟩
      · left
        exact List.mem_map_of_mem (List.mem_append_right _ ht)
  | .quoted first content last, h, ht => by
      left
      obtain ⟨start, hstart⟩ := h _ (self_mem_subtrees _)
      rw [indices_quoted hstart]
      exact List.mem_map_of_mem ht
  | .enclosed form first items last, h, ht => by
      simp only [Node.tokens, List.append_assoc, List.cons_append, List.mem_append,
        List.mem_cons] at ht
      rcases ht with ht | rfl | ht | rfl | ht
      · right
        exact ⟨_, self_mem_subtrees _, ht⟩
      · left
        simp [indices]
      · rcases mem_allIndices_or_exists items (fun x hx => h x (by simp [hx])) ht with
          hlisted | ⟨x, hx, hgap⟩
        · left
          simp [indices, hlisted]
        · right
          exact ⟨x, by simp [hx], hgap⟩
      · left
        simp [indices]
      · simp at ht

/-- A token is listed, or it is in a gap. -/
theorem mem_allIndices_or_exists {t : Token} : ∀ nodes : List Node,
    (∀ x ∈ all nodes, ∃ start, Token.CountFrom start x.tokens) → t ∈ allTokens nodes →
    t.index ∈ allIndices nodes ∨ ∃ x ∈ all nodes, t ∈ x.gap
  | [], _, ht => by simp at ht
  | node :: nodes, h, ht => by
      rw [allTokens_cons, List.mem_append] at ht
      rw [allIndices, all_cons]
      rcases ht with ht | ht
      · rcases mem_indices_or_exists node (fun x hx => h x (by simp [hx])) ht with
          hlisted | ⟨x, hx, hgap⟩
        · exact Or.inl (List.mem_append_left _ hlisted)
        · exact Or.inr ⟨x, List.mem_append_left _ hx, hgap⟩
      · rcases mem_allIndices_or_exists nodes (fun x hx => h x (by simp [hx])) ht with
          hlisted | ⟨x, hx, hgap⟩
        · exact Or.inl (List.mem_append_right _ hlisted)
        · exact Or.inr ⟨x, List.mem_append_right _ hx, hgap⟩

end

end Node

/-! ### Faithful trees -/

/-- The place between an operator and its colon, when there is exactly one. -/
def SignGap (nodes : List Node) (i : Nat) : Prop :=
  ∃ parts operator, .assignment parts ∈ Node.all nodes ∧ parts.operator = some operator ∧
    i = operator.index + 1 ∧ parts.colon.index = operator.index + 2

/-- A place between the brace that opens a lambda and the bracket that opens its parameter list. -/
def ParamsGap (nodes : List Node) (i : Nat) : Prop :=
  ∃ brace gap first items last body close,
    .enclosed .lambda brace (.enclosed (.params gap) first items last :: body) close ∈
      Node.all nodes ∧ brace.index < i ∧ i < first.index

/-- **What a tree has to say about the tokens that it was made from.**  It lists them in their order,
without a repetition; what it leaves out are blanks, in one of two places; and each of its nodes
fits the tokens that it names. -/
structure Faithful (tokens : List Token) (nodes : List Node) : Prop where
  increasing : (Node.allIndices nodes).Pairwise (· < ·)
  lt_length : ∀ i ∈ Node.allIndices nodes, i < tokens.length
  left_out : ∀ i < tokens.length, i ∉ Node.allIndices nodes →
    (∃ t, tokens[i]? = some t ∧ t.kind = .whitespace) ∧ (SignGap nodes i ∨ ParamsGap nodes i)
  getElem?_index : ∀ x ∈ Node.all nodes, ∀ t ∈ x.tokens, tokens[t.index]? = some t
  fits : ∀ x ∈ Node.all nodes, x.Fits
  content : ∀ first content last, .quoted first content last ∈ Node.all nodes →
    ∀ t ∈ tokens, first.index < t.index → t.index < last.index →
      t.kind = .quotedText ∨ t.kind = .quotedEscape
  not_isParams : ∀ x ∈ nodes, x.isParams = false

section

variable {tokens : List Token} {nodes : List Node}

theorem countFrom_of_mem_all_parse (hnumbered : Token.Numbered tokens)
    (h : parse tokens = .ok nodes) {x : Node} (hx : x ∈ Node.all nodes) :
    ∃ start, Token.CountFrom start x.tokens := by
  have hcount := hnumbered.countFrom
  rw [← allTokens_parse h] at hcount
  exact Node.countFrom_of_mem_all hcount hx

/-- What an assignment sign takes in is one blank token between its operator and its colon. -/
theorem signGap_of_mem_gap (hnumbered : Token.Numbered tokens) (h : parse tokens = .ok nodes)
    {parts : Assignment} (hx : .assignment parts ∈ Node.all nodes) {t : Token}
    (ht : t ∈ parts.gap) : t.kind = .whitespace ∧ SignGap nodes t.index := by
  obtain ⟨-, -, -, hgap⟩ := fits_parse h _ hx
  rcases hgap with hgap | ⟨operator, blank, hoperator, hgap, hblank⟩
  · simp [hgap] at ht
  · obtain rfl : t = blank := by simpa [hgap] using ht
    obtain ⟨start, hstart⟩ := countFrom_of_mem_all_parse hnumbered h hx
    simp only [Node.tokens, Assignment.tokens, hoperator, hgap, Option.toList_some,
      List.cons_append, List.nil_append, Token.countFrom_cons] at hstart
    obtain ⟨hfirst, hsecond, hthird, -⟩ := hstart
    refine ⟨hblank, parts, operator, hx, hoperator, ?_, ?_⟩
    · omega
    · omega

/-- What a parameter list takes in are blanks between the brace and the bracket. -/
theorem paramsGap_of_mem_gap (hnumbered : Token.Numbered tokens) (h : parse tokens = .ok nodes)
    {form : Enclosure} {first last : Token} {items : List Node}
    (hx : .enclosed form first items last ∈ Node.all nodes) {t : Token} (ht : t ∈ form.gap) :
    t.kind = .whitespace ∧ ParamsGap nodes t.index := by
  obtain ⟨-, -, hblanks, -⟩ := fits_parse h _ hx
  refine ⟨hblanks t ht, ?_⟩
  cases form with
  | params gap =>
      obtain ⟨brace, body, close, hlambda⟩ := exists_of_params_mem_all h hx
      obtain ⟨start, hstart⟩ := countFrom_of_mem_all_parse hnumbered h hlambda
      -- the lambda starts with its brace, the gap, and the bracket, without anything between them
      simp only [Node.tokens, Node.allTokens_cons, Enclosure.gap, List.nil_append,
        List.cons_append, List.append_assoc, Token.countFrom_cons, Token.countFrom_append] at hstart
      obtain ⟨hbrace, hgap, hfirst, -⟩ := hstart
      have hindex := hgap.index_mem ht
      refine ⟨brace, gap, first, items, last, body, close, hlambda, ?_, ?_⟩
      · omega
      · omega
  | bracket => simp [Enclosure.gap] at ht
  | group => simp [Enclosure.gap] at ht
  | lambda => simp [Enclosure.gap] at ht

/-- The tokens between the numbers of two quotes are the content of the quoted text. -/
theorem mem_content_of_index (hnumbered : Token.Numbered tokens) (h : parse tokens = .ok nodes)
    {first last : Token} {content : List Token}
    (hx : .quoted first content last ∈ Node.all nodes) {t : Token} (ht : t ∈ tokens)
    (hfirst : first.index < t.index) (hlast : t.index < last.index) : t ∈ content := by
  obtain ⟨start, hstart⟩ := countFrom_of_mem_all_parse hnumbered h hx
  simp only [Node.tokens, List.cons_append, Token.countFrom_cons, Token.countFrom_append] at hstart
  obtain ⟨hfirst', hcontent, hlast', -⟩ := hstart
  have hindex : t.index ∈ content.map (·.index) := by
    rw [hcontent.mem_map_index]
    omega
  -- the content has a token with that number, and numbers are not shared
  obtain ⟨u, hu, heq⟩ := List.mem_map.1 hindex
  have hmem : u ∈ tokens := by
    rw [← allTokens_parse h]
    exact Node.mem_allTokens_of_mem_all hx (by simp [Node.tokens, hu])
  rwa [hnumbered.eq_of_index_eq ht hmem heq.symm]

end

/-- **Every tree is faithful to the tokens that it was made from.** -/
theorem faithful_parse {tokens : List Token} {nodes : List Node}
    (hnumbered : Token.Numbered tokens) (h : parse tokens = .ok nodes) : Faithful tokens nodes := by
  have hcount : ∀ x ∈ Node.all nodes, ∃ start, Token.CountFrom start x.tokens := by
    intro x hx
    exact countFrom_of_mem_all_parse hnumbered h hx
  have hsublist : (Node.allIndices nodes).Sublist (List.range tokens.length) := by
    rw [← hnumbered, ← allTokens_parse h]
    exact Node.allIndices_sublist nodes hcount
  have hmem : ∀ x ∈ Node.all nodes, ∀ t ∈ x.tokens, t ∈ tokens := by
    intro x hx t ht
    rw [← allTokens_parse h]
    exact Node.mem_allTokens_of_mem_all hx ht
  constructor
  case increasing => exact List.pairwise_lt_range.sublist hsublist
  case lt_length =>
    intro i hi
    exact List.mem_range.1 (hsublist.subset hi)
  case left_out =>
    intro i hi hnot
    have ht : tokens[i] ∈ tokens := List.getElem_mem hi
    have hindex : tokens[i].index = i := hnumbered.index_eq (List.getElem?_eq_getElem hi)
    have htree : tokens[i] ∈ Node.allTokens nodes := by rwa [allTokens_parse h]
    rcases Node.mem_allIndices_or_exists nodes hcount htree with hlisted | ⟨x, hx, hgap⟩
    · rw [hindex] at hlisted
      exact absurd hlisted hnot
    · have hplace : tokens[i].kind = .whitespace ∧
          (SignGap nodes tokens[i].index ∨ ParamsGap nodes tokens[i].index) := by
        cases x with
        | leaf form token => simp [Node.gap] at hgap
        | assignment parts => exact (signGap_of_mem_gap hnumbered h hx hgap).imp id Or.inl
        | quoted first content last => simp [Node.gap] at hgap
        | enclosed form first items last =>
            exact (paramsGap_of_mem_gap hnumbered h hx hgap).imp id Or.inr
      rw [hindex] at hplace
      exact ⟨⟨tokens[i], List.getElem?_eq_getElem hi, hplace.1⟩, hplace.2⟩
  case getElem?_index =>
    intro x hx t ht
    exact hnumbered.getElem?_index (hmem x hx t ht)
  case fits => exact fits_parse h
  case content =>
    intro first content last hx t ht hfirst hlast
    obtain ⟨-, -, hcontent⟩ := fits_parse h _ hx
    exact hcontent t (mem_content_of_index hnumbered h hx ht hfirst hlast)
  case not_isParams => exact not_isParams_parse h

/-- A lambda with a blank before its parameter list, and an operator with a blank behind it: the two
blanks are all that the listing leaves out. -/
theorem faithful_parse_blanks :
    let tokens := Lexeme.layOut [⟨.opening .brace, "\x7b"⟩, ⟨.whitespace, " "⟩,
      ⟨.opening .bracket, "["⟩, ⟨.closing .bracket, "]"⟩, ⟨.identifier, "a"⟩, ⟨.operator, "+"⟩,
      ⟨.whitespace, " "⟩, ⟨.colon, ":"⟩, ⟨.openQuote, "\""⟩, ⟨.quotedText, "b"⟩,
      ⟨.closeQuote, "\""⟩, ⟨.closing .brace, "\x7d"⟩]
    ∃ nodes, Token.Numbered tokens ∧ parse tokens = .ok nodes ∧ Faithful tokens nodes ∧
      Node.allIndices nodes = [0, 2, 3, 4, 5, 7, 8, 9, 10, 11] := by
  intro tokens
  have hnumbered : Token.Numbered tokens := Token.numbered_layOut _
  exact ⟨_, hnumbered, rfl, faithful_parse hnumbered rfl, by decide +kernel⟩

end QSource
