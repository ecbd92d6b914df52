/-
**How far a pass looks back over blanks.**

An assignment sign takes in an operator before it, and a bracket holds the parameters of a lambda, with
blanks between the two or not.  Blanks and comments may stand anywhere, but a sign looks back over one
token of blanks only, and a bracket over blanks only.  For tokens put together by hand this makes a
difference.  For those of a text it makes none: a pass that looks back over any blanks and comments comes
to the same tree, so no operator is left before a sign, and no bracket at the start of a lambda.

Main definitions:

* `QSource.Nesting.assignAcross`, `QSource.Nesting.encloseAcross`, `QSource.parseAcross` — **a pass that
  looks back over any blanks and comments**;
* `QSource.Node.Taken` — no bracket stands at the start of a lambda with nothing but blanks before it;
* `QSource.IsSequence` — the sequences of a tree;
* `QSource.LeavesNothing` — **no sign and no parameter list is missed** across blanks and comments.

Main results:

* `QSource.Nesting.readAcross_eq`, `QSource.parseAcross_eq` — **on the tokens of a text both passes make the
  same steps**;
* `QSource.Nesting.Step.taken`, `QSource.paramsTaken_parse` — a pass takes every parameter list behind blanks;
* `QSource.leavesNothing_parse` — what the tokens say of one another and what the pass does, put together;
* `QSource.lookahead_parseText` — **looking back over blanks on one line is enough**.
-/

import QSource.Proofs.Check
import QSource.Proofs.Token.Spacing
import QSource.Proofs.Tree.Signs

set_option relaxedAutoImplicit false
set_option autoImplicit false

namespace QSource

namespace Nesting

/-! ### A pass that looks further -/

/-- Appends an assignment sign, which takes in an operator before it across any blanks and comments. -/
def assignAcross (nodes : List Node) (colon : Token) : List Node :=
  match nodes.dropWhile Node.isSpace with
  | .leaf .operator operator :: before =>
    .assignment ⟨some operator, Node.allTokens (nodes.takeWhile Node.isSpace).reverse, colon⟩ :: before
  | _ => .assignment ⟨none, [], colon⟩ :: nodes

/-- The tokens of a list of nodes, if all are blanks and comments. -/
def spaces? (nodes : List Node) : Option (List Token) :=
  if nodes.all Node.isSpace then some (Node.allTokens nodes) else none

/-- The sequence around a pair that has just been closed, where a bracket holds the parameters of a lambda
across any blanks and comments. -/
def encloseAcross (d : Opened) (around : Option Delimiter) (items : List Node) (last : Token) :
    List Node :=
  match (if d.pair = .bracket ∧ around = some .brace then spaces? d.before else none) with
  | some gap => [.enclosed (.params gap.reverse) d.first items last]
  | none => enclose d none items last

/-- Reads one token.  Only signs and closing delimiters look back. -/
def readAcross (p : Nesting) (token : Token) : Except ParseError Nesting :=
  match p.quote, token.kind, p.opened with
  | none, .colon, _ | none, .doubleColon, _ =>
    .ok { p with nodes := assignAcross p.nodes token }
  | none, .closing pair, d :: rest =>
    if d.pair = pair then
      .ok ⟨encloseAcross d (rest.head?.map Opened.pair) p.nodes.reverse token, rest, none⟩
    else
      p.read token
  | _, _, _ => p.read token

/-- Reads the tokens that are left, and ends the pass. -/
def runAcross (p : Nesting) : List Token → Except ParseError (List Node)
  | [] => p.finish
  | token :: tokens =>
    match p.readAcross token with
    | .ok next => next.runAcross tokens
    | .error e => .error e

end Nesting

/-- The tree of a sequence of tokens, made by a pass that looks back over any blanks and comments. -/
def parseAcross (tokens : List Token) : Except ParseError (List Node) := Nesting.start.runAcross tokens

namespace Nesting

/-! ### Both passes make the same steps -/

/-- No blanks or comments end the sequence, whose latest node comes first. -/
def EndsInNoSpace (nodes : List Node) : Prop := ∀ x ∈ nodes.head?, x.isSpace = false

/-- **At most one token of blanks ends the sequence**, and nothing else that may be looked past. -/
def EndsInOneBlank (nodes : List Node) : Prop :=
  EndsInNoSpace nodes ∨
    ∃ blank before, nodes = .leaf .space blank :: before ∧ blank.kind = .whitespace ∧ EndsInNoSpace before

theorem EndsInNoSpace.dropWhile_eq {nodes : List Node} (h : EndsInNoSpace nodes) :
    nodes.dropWhile Node.isSpace = nodes := by
  cases nodes with
  | nil => rfl
  | cons x nodes => exact List.dropWhile_cons_of_neg (by simp [h x rfl])

theorem EndsInNoSpace.takeWhile_eq {nodes : List Node} (h : EndsInNoSpace nodes) :
    nodes.takeWhile Node.isSpace = [] := by
  cases nodes with
  | nil => rfl
  | cons x nodes => exact List.takeWhile_cons_of_neg (by simp [h x rfl])

theorem assignAcross_eq {nodes : List Node} (h : EndsInOneBlank nodes) (colon : Token) :
    assignAcross nodes colon = assign nodes colon := by
  rw [assignAcross]
  rcases h with hnone | ⟨blank, before, rfl, hblank, hnone⟩
  · rw [hnone.dropWhile_eq, hnone.takeWhile_eq]
    cases nodes with
    | nil => rfl
    | cons x before =>
        cases x with
        | leaf form token =>
            cases form with
            | operator => simp [assign]
            | space => exact absurd (hnone _ rfl) (by simp [Node.isSpace])
            | _ => rfl
        | assignment | quoted | enclosed => rfl
  · rw [List.dropWhile_cons_of_pos rfl, List.takeWhile_cons_of_pos rfl, hnone.dropWhile_eq,
      hnone.takeWhile_eq]
    cases before with
    | nil => rfl
    | cons x before =>
        cases x with
        | leaf form token =>
            cases form with
            | operator => simp [assign, hblank, Node.tokens]
            | _ => rfl
        | assignment | quoted | enclosed => rfl

theorem EndsInNoSpace.blanks?_cons {x : Node} {before : List Node} (h : EndsInNoSpace (x :: before)) :
    blanks? (x :: before) = none := by
  have hx := h x rfl
  cases x with
  | leaf form token => cases form <;> simp [Node.isSpace, blanks?] at hx ⊢
  | assignment | quoted | enclosed => rfl

theorem spaces?_eq {nodes : List Node} (h : EndsInOneBlank nodes) : spaces? nodes = blanks? nodes := by
  rcases h with hnone | ⟨blank, before, rfl, hblank, hnone⟩
  · cases nodes with
    | nil => rfl
    | cons x before => simp [spaces?, hnone.blanks?_cons, hnone x rfl]
  · cases before with
    | nil => simp [spaces?, blanks?, Node.isSpace, Node.tokens, hblank]
    | cons x before =>
        have hall : (Node.leaf .space blank :: x :: before).all Node.isSpace = false := by
          rw [List.all_cons, List.all_cons, hnone x rfl, Bool.false_and, Bool.and_false]
        rw [spaces?, hall, blanks?, if_pos hblank, hnone.blanks?_cons]
        rfl

theorem encloseAcross_eq {d : Opened} (h : d.pair = .bracket → EndsInOneBlank d.before)
    (around : Option Delimiter) (items : List Node) (last : Token) :
    encloseAcross d around items last = enclose d around items last := by
  obtain ⟨pair, first, before⟩ := d
  cases pair with
  | paren => rfl
  | brace => rfl
  | bracket =>
      by_cases haround : around = some .brace
      · simp only [encloseAcross, enclose, haround, and_self, if_true, spaces?_eq (h rfl)]
        cases blanks? before <;> simp
      · simp [encloseAcross, enclose, haround]

/-! ### What the tokens of a text say -/

theorem exists_map_leaf_of_isSpace {gap : List Node} (h : ∀ x ∈ gap, x.isSpace = true) :
    ∃ spaces : List Token, gap = spaces.map (Node.leaf .space) := by
  induction gap with
  | nil => exact ⟨[], rfl⟩
  | cons x gap ih =>
      obtain ⟨hx, hgap⟩ := List.forall_mem_cons.1 h
      obtain ⟨spaces, rfl⟩ := ih hgap
      cases x with
      | leaf form token =>
          cases form <;> simp [Node.isSpace] at hx
          exact ⟨token :: spaces, rfl⟩
      | assignment | quoted | enclosed => simp [Node.isSpace] at hx

@[simp] theorem allTokens_map_leaf (form : LeafForm) (tokens : List Token) :
    Node.allTokens (tokens.map (Node.leaf form)) = tokens := by
  induction tokens with
  | nil => simp
  | cons token tokens ih => simp [ih, Node.tokens]

theorem isSkippable_of_fits {token : Token} (h : (Node.leaf .space token).Fits) :
    token.kind.isSkippable = true := by
  cases hkind : token.kind <;> simp [Node.Fits, hkind, Kind.leafForm?, Kind.isSkippable] at h ⊢

/-- **Blanks and comments before a token on the same line are none or one token of blanks.** -/
theorem eq_of_isSpace {gap : List Node} {next : Token} (hspace : ∀ x ∈ gap, x.isSpace = true)
    (hfits : ∀ x ∈ gap, x.Fits) (hnext : next.kind ≠ .lineBreak)
    (hchain : ((Node.allTokens gap ++ [next]).map (·.kind)).IsChain Kind.MayPrecede) :
    gap = [] ∨ ∃ blank, gap = [.leaf .space blank] ∧ blank.kind = .whitespace := by
  obtain ⟨spaces, rfl⟩ := exists_map_leaf_of_isSpace hspace
  rw [allTokens_map_leaf, List.map_append] at hchain
  have hskippable : ∀ kind ∈ spaces.map (·.kind), kind.isSkippable = true := by
    intro kind hkind
    obtain ⟨token, htoken, rfl⟩ := List.mem_map.1 hkind
    exact isSkippable_of_fits (hfits _ (List.mem_map_of_mem htoken))
  rcases eq_of_isChain_mayPrecede hskippable hnext hchain with hnil | hone
  · rw [List.map_eq_nil_iff.1 hnil]
    exact .inl rfl
  · obtain ⟨blank, rfl, hblank⟩ := List.map_eq_singleton_iff.1 hone
    exact .inr ⟨blank, rfl, hblank⟩

/-- The same at the end of a sequence, whose latest node comes first. -/
theorem endsInOneBlank_of_isChain {nodes : List Node} {next : Token} (hfits : ∀ x ∈ nodes, x.Fits)
    (hnext : next.kind ≠ .lineBreak)
    (hchain : ((Node.allTokens nodes.reverse ++ [next]).map (·.kind)).IsChain Kind.MayPrecede) :
    EndsInOneBlank nodes := by
  have hsplit : nodes.takeWhile Node.isSpace ++ nodes.dropWhile Node.isSpace = nodes :=
    List.takeWhile_append_dropWhile
  have hbefore : EndsInNoSpace (nodes.dropWhile Node.isSpace) := by
    intro x hx
    have hhead := List.head?_dropWhile_not Node.isSpace nodes
    rwa [hx] at hhead
  generalize nodes.dropWhile Node.isSpace = before at hsplit hbefore
  have hspace : ∀ x ∈ nodes.takeWhile Node.isSpace, x.isSpace = true :=
    List.all_eq_true.1 List.all_takeWhile
  generalize nodes.takeWhile Node.isSpace = gap at hsplit hspace
  subst hsplit
  have hsuffix : (Node.allTokens gap.reverse ++ [next]).map (·.kind) <:+
      (Node.allTokens (gap ++ before).reverse ++ [next]).map (·.kind) := by
    rw [List.reverse_append, Node.allTokens_append, List.append_assoc]
    exact (List.suffix_append _ _).map _
  have hfits' : ∀ x ∈ gap.reverse, x.Fits := fun x hx => hfits x (by simp [List.mem_reverse.1 hx])
  rcases eq_of_isSpace (by simpa using hspace) hfits' hnext (hchain.suffix hsuffix) with
    hnil | ⟨blank, hone, hblank⟩
  · rw [List.reverse_eq_nil_iff.1 hnil]
    exact .inl hbefore
  · obtain rfl : gap = [.leaf .space blank] := by simpa using congrArg List.reverse hone
    exact .inr ⟨blank, before, rfl, hblank, hbefore⟩

section

variable {p : Nesting} {token : Token} (hshaped : p.Shaped)
  (hchain : ((p.tokens ++ [token]).map (·.kind)).IsChain Kind.MayPrecede)

include hshaped hchain

/-- The open sequence ends in at most one token of blanks before a token on the same line. -/
theorem endsInOneBlank_nodes (hquote : p.quote = none) (htoken : token.kind ≠ .lineBreak) :
    EndsInOneBlank p.nodes := by
  refine endsInOneBlank_of_isChain (fun x hx => hshaped.nodes.fits x (Node.mem_all_of_mem hx)) htoken
    (hchain.suffix (List.IsSuffix.map _ ?_))
  rw [Nesting.tokens, hquote, quoteTokens, List.append_nil, List.append_assoc]
  exact List.suffix_append _ _

/-- So does the sequence before the innermost open bracket. -/
theorem endsInOneBlank_before {d : Opened} {rest : List Opened} (hopened : p.opened = d :: rest) :
    EndsInOneBlank d.before := by
  obtain ⟨hfirst, hbefore, -⟩ := hopened ▸ hshaped.opened
  have hnext : d.first.kind ≠ .lineBreak := by simp [hfirst]
  refine endsInOneBlank_of_isChain (fun x hx => hbefore.fits x (Node.mem_all_of_mem hx)) hnext <|
    List.IsChain.infix hchain (List.IsInfix.map _ ?_)
  rw [Nesting.tokens, hopened]
  refine ⟨rest.reverse.flatMap Opened.tokens,
    Node.allTokens p.nodes.reverse ++ quoteTokens p.quote ++ [token], ?_⟩
  simp [Opened.tokens]

/-- **On tokens that follow one another as in a text both passes make the same step.** -/
theorem readAcross_eq : p.readAcross token = p.read token := by
  obtain ⟨nodes, opened, quote⟩ := p
  cases quote with
  | some quote => rfl
  | none =>
      cases hkind : token.kind with
      | colon | doubleColon =>
          have hblank := endsInOneBlank_nodes hshaped hchain rfl (by simp [hkind])
          simp [readAcross, read, readPlain, hkind, assignAcross_eq hblank]
      | closing pair =>
          cases opened with
          | nil => simp [readAcross, hkind]
          | cons d rest =>
              have hblank := endsInOneBlank_before hshaped hchain rfl
              simp [readAcross, read, readPlain, hkind, encloseAcross_eq fun _ => hblank]
      | _ => simp [readAcross, hkind]

end

theorem runAcross_eq {tokens : List Token} : ∀ {p : Nesting}, p.Shaped →
    ((p.tokens ++ tokens).map (·.kind)).IsChain Kind.MayPrecede → p.runAcross tokens = p.run tokens := by
  induction tokens with
  | nil => intros; rfl
  | cons token tokens ih =>
      intro p hshaped hchain
      have hfront : p.tokens ++ [token] <+: p.tokens ++ token :: tokens := ⟨tokens, by simp⟩
      have hstart := List.IsChain.prefix hchain (hfront.map _)
      rw [runAcross, run, readAcross_eq hshaped hstart]
      cases hread : p.read token with
      | ok q =>
          have hstep := Step.of_read hread
          exact ih (hstep.shaped hshaped) (by simpa [hstep.tokens_eq] using hchain)
      | error e => rfl

end Nesting

/-- **On the tokens of a text both passes come to the same tree.** -/
theorem parseAcross_eq {tokens : List Token} (h : (tokens.map (·.kind)).IsChain Kind.MayPrecede) :
    parseAcross tokens = parse tokens :=
  Nesting.runAcross_eq Nesting.shaped_start
    (by simpa [Nesting.tokens, Nesting.start, Nesting.quoteTokens] using h)

/-! ### Parameter lists -/

/-- **No bracket stands at the start of a lambda** with nothing but blanks before it.  These are the nodes
behind the delimiter `around`, the latest first. -/
def Node.Taken (around : Option Delimiter) (nodes : List Node) : Prop :=
  around = some .brace → ∀ behind first items last before,
    nodes = behind ++ .enclosed .bracket first items last :: before → Nesting.blanks? before = none

/-- The same between the braces of a node. -/
def Node.ParamsTaken : Node → Prop
  | .enclosed .lambda _ items _ => Node.Taken (some .brace) items.reverse
  | _ => True

namespace Nesting

open Node (Taken ParamsTaken)

/-- Nodes of which no parameter list is missed, neither among themselves nor below. -/
structure TakenAll (around : Option Delimiter) (nodes : List Node) : Prop where
  here : Taken around nodes
  below : ∀ x ∈ Node.all nodes, x.ParamsTaken

theorem TakenAll.nil (around : Option Delimiter) : TakenAll around [] where
  here := by simp [Taken]
  below := by simp

theorem TakenAll.tail {around : Option Delimiter} {x : Node} {nodes : List Node}
    (h : TakenAll around (x :: nodes)) : TakenAll around nodes where
  here := by
    rintro haround behind first items last before rfl
    exact h.here haround (x :: behind) first items last before rfl
  below := fun y hy => h.below y (by simp [hy])

/-- A node may follow unless it is a bracket at the start of a lambda. -/
theorem TakenAll.cons {around : Option Delimiter} {x : Node} {nodes : List Node}
    (h : TakenAll around nodes) (hx : ∀ y ∈ x.subtrees, y.ParamsTaken)
    (hbracket : around = some .brace → ∀ first items last, x = .enclosed .bracket first items last →
      blanks? nodes = none) : TakenAll around (x :: nodes) where
  here := by
    intro haround behind first items last before heq
    cases behind with
    | nil =>
        obtain ⟨rfl, rfl⟩ := List.cons.inj heq
        exact hbracket haround first items last rfl
    | cons y behind => exact h.here haround behind first items last before (List.cons.inj heq).2
  below := by
    intro y hy
    rw [Node.all_cons, List.mem_append] at hy
    exact hy.elim (hx y) (h.below y)

theorem takenAll_assign {around : Option Delimiter} {nodes : List Node} (h : TakenAll around nodes)
    (colon : Token) : TakenAll around (assign nodes colon) := by
  have hcons : ∀ (a : Assignment) {nodes : List Node}, TakenAll around nodes →
      TakenAll around (.assignment a :: nodes) :=
    fun a _ h => h.cons (by simp [ParamsTaken]) (by simp)
  unfold assign
  split
  · exact hcons _ h.tail
  · split
    · exact hcons _ h.tail.tail
    · exact hcons _ h
  · exact hcons _ h

/-- A bracket at the start of a lambda becomes its parameter list. -/
theorem takenAll_enclose {d : Opened} {around : Option Delimiter} {nodes : List Node}
    (hbefore : TakenAll around d.before) (hnodes : TakenAll (some d.pair) nodes) (last : Token) :
    TakenAll around (enclose d around nodes.reverse last) := by
  have hall : ∀ {form : Enclosure}, (Node.enclosed form d.first nodes.reverse last).ParamsTaken →
      ∀ x ∈ (Node.enclosed form d.first nodes.reverse last).subtrees, x.ParamsTaken := by
    intro form htaken x hx
    rw [Node.subtrees_enclosed, List.mem_cons] at hx
    rcases hx with rfl | hx
    · exact htaken
    · exact hnodes.below x (Node.mem_all_reverse.1 hx)
  obtain ⟨pair, first, before⟩ := d
  cases pair with
  | paren => exact hbefore.cons (hall trivial) (by simp)
  | brace =>
      have hitems : Taken (some .brace) nodes.reverse.reverse := by
        rw [List.reverse_reverse]
        exact hnodes.here
      exact hbefore.cons (hall hitems) (by simp)
  | bracket =>
      simp only [enclose]
      split
      · exact (TakenAll.nil around).cons (hall trivial) (by simp)
      · next hnone =>
          refine hbefore.cons (hall trivial) fun haround _ _ _ _ => ?_
          simpa [haround] using hnone

/-- The same of the sequences before the open delimiters. -/
def OpenTaken : List Opened → Prop
  | [] => True
  | d :: rest => TakenAll (rest.head?.map Opened.pair) d.before ∧ OpenTaken rest

/-- **The invariant of a pass**: no bracket has been left at the start of a lambda. -/
def TakenPass (p : Nesting) : Prop :=
  TakenAll (p.opened.head?.map Opened.pair) p.nodes ∧ OpenTaken p.opened

/-- **A pass leaves no bracket at the start of a lambda**, blanks aside. -/
theorem Step.taken {p q : Nesting} {token : Token} (h : Step p token q) (hp : p.TakenPass) :
    q.TakenPass := by
  obtain ⟨hnodes, hopened⟩ := hp
  cases h with
  | piece | openQuote => exact ⟨hnodes, hopened⟩
  | closeQuote => exact ⟨hnodes.cons (by simp [ParamsTaken]) (by simp), hopened⟩
  | leaf => exact ⟨hnodes.cons (by simp [ParamsTaken]) (by simp), hopened⟩
  | opening => exact ⟨.nil _, hnodes, hopened⟩
  | closing => exact ⟨takenAll_enclose hopened.1 hnodes _, hopened.2⟩
  | sign => exact ⟨takenAll_assign hnodes _, hopened⟩

end Nesting

section

variable {tokens : List Token} {nodes : List Node}

/-- No lambda of a tree has a bracket at its start. -/
theorem paramsTaken_parse (h : parse tokens = .ok nodes) : ∀ x ∈ Node.all nodes, x.ParamsTaken := by
  have htaken := Nesting.parse_invariant (fun p _ => p.TakenPass) (fun hp hstep => hstep.taken hp)
    ⟨.nil _, trivial⟩ h
  exact fun x hx => htaken.1.below x (Node.mem_all_reverse.2 hx)

end

/-! ### Trees of texts -/

/-- The sequences of a tree: the whole script, and what stands between two delimiters. -/
def IsSequence (nodes items : List Node) : Prop :=
  items = nodes ∨ ∃ form first last, .enclosed form first items last ∈ Node.all nodes

/-- **No sign and no parameter list is missed across blanks and comments.**  Where an operator comes before
a sign, the sign has taken in another one; and the first node of a lambda, blanks and comments aside, is no
bracket, whether or not the lambda has a parameter list. -/
structure LeavesNothing (nodes : List Node) : Prop where
  operators : ∀ items, IsSequence nodes items → ∀ before operator gap a behind,
    items = before ++ .leaf .operator operator :: (gap ++ .assignment a :: behind) →
      (∀ x ∈ gap, x.isSpace = true) → a.operator.isSome = true
  params : ∀ brace items close, .enclosed .lambda brace items close ∈ Node.all nodes →
    ∀ gap first inside last behind, items = gap ++ .enclosed .bracket first inside last :: behind →
      ¬ ∀ x ∈ gap, x.isSpace = true

section

variable {nodes items : List Node}

theorem IsSequence.mem_all (h : IsSequence nodes items) : ∀ x ∈ items, x ∈ Node.all nodes := by
  intro x hx
  rcases h with rfl | ⟨form, first, last, hnode⟩
  · exact Node.mem_all_of_mem hx
  · exact Node.mem_all_items (Node.mem_all_of_mem hx) nodes hnode

theorem IsSequence.infix_allTokens (h : IsSequence nodes items) :
    Node.allTokens items <:+: Node.allTokens nodes := by
  rcases h with rfl | ⟨form, first, last, hnode⟩
  · exact List.infix_rfl
  · refine List.IsInfix.trans ⟨form.gap ++ [first], [last], ?_⟩ (Node.infix_allTokens nodes hnode)
    simp [Node.tokens]

variable {tokens : List Token} (h : parse tokens = .ok nodes)
  (hchain : (tokens.map (·.kind)).IsChain Kind.MayPrecede)

include h hchain

/-- In a sequence of the tree blanks and comments before a token on the same line are one token of blanks,
if there are any. -/
theorem IsSequence.eq_of_isSpace (hitems : IsSequence nodes items) {before gap behind : List Node}
    {next : Token} (hsplit : items = before ++ gap ++ behind)
    (hnext : (Node.allTokens behind).head? = some next) (hkind : next.kind ≠ .lineBreak)
    (hspace : ∀ x ∈ gap, x.isSpace = true) :
    gap = [] ∨ ∃ blank, gap = [.leaf .space blank] ∧ blank.kind = .whitespace := by
  obtain ⟨rest, hrest⟩ := List.head?_eq_some_iff.1 hnext
  have hwithin : Node.allTokens gap ++ [next] <:+: tokens := by
    refine List.IsInfix.trans ⟨Node.allTokens before, rest, ?_⟩
      (allTokens_parse h ▸ hitems.infix_allTokens)
    rw [hsplit, Node.allTokens_append, Node.allTokens_append, hrest]
    simp
  have hfits : ∀ x ∈ gap, x.Fits :=
    fun x hx => fits_parse h x (hitems.mem_all x (by simp [hsplit, hx]))
  exact Nesting.eq_of_isSpace hspace hfits hkind <| List.IsChain.infix hchain (hwithin.map _)

/-- **A tree whose tokens follow one another as in a text leaves nothing.** -/
theorem leavesNothing_parse : LeavesNothing nodes where
  operators := by
    intro items hitems before operator gap a behind hsplit hspace
    have hfits := fits_parse h _ (hitems.mem_all (.assignment a) (by simp [hsplit]))
    by_contra hnone
    rw [Option.not_isSome_iff_eq_none] at hnone
    have hgap : a.gap = [] := by simpa [hnone] using hfits.2.2.2
    have hjoined : Node.Joined items.reverse := by
      rcases hitems with rfl | ⟨form, first, last, hnode⟩
      · exact joined_parse h
      · exact signsJoined_parse h _ hnode
    rw [hsplit] at hjoined
    simp only [List.reverse_append, List.reverse_cons, List.append_assoc, List.singleton_append] at hjoined
    have hends := hjoined.earlier.1 hnone
    have hcolon : a.colon.kind ≠ .lineBreak := by rcases hfits.1 with hk | hk <;> simp [hk]
    have hsplit' : items = (before ++ [.leaf .operator operator]) ++ gap ++ .assignment a :: behind := by
      simp [hsplit]
    have hnext : (Node.allTokens (.assignment a :: behind)).head? = some a.colon := by
      simp [Node.tokens, Assignment.tokens, hnone, hgap]
    rcases hitems.eq_of_isSpace h hchain hsplit' hnext hcolon hspace with rfl | ⟨blank, rfl, hblank⟩
    · exact hends trivial
    · exact hends hblank
  params := by
    intro brace items close hnode gap first inside last behind hsplit hspace
    have hitems : IsSequence nodes items := .inr ⟨_, _, _, hnode⟩
    have hfits := fits_parse h _
      (hitems.mem_all (.enclosed .bracket first inside last) (by simp [hsplit]))
    have htaken := paramsTaken_parse h _ hnode rfl behind.reverse first inside last gap.reverse
      (by simp [hsplit])
    have hsplit' : items = [] ++ gap ++ .enclosed .bracket first inside last :: behind := hsplit
    have hnext : (Node.allTokens (.enclosed .bracket first inside last :: behind)).head? = some first := by
      simp [Node.tokens, Enclosure.gap]
    have hfirst : first.kind ≠ .lineBreak := by simp [hfits.1]
    rcases hitems.eq_of_isSpace h hchain hsplit' hnext hfirst hspace with rfl | ⟨blank, rfl, hblank⟩
    · simp [Nesting.blanks?] at htaken
    · simp [Nesting.blanks?, hblank] at htaken

end

/-- The tree of a text, made by the pass that looks back over any blanks and comments. -/
def parseTextAcross (source : String) : Except SourceError (List Node) :=
  match tokenize source with
  | .error e => .error (.lex e)
  | .ok tokens =>
    match parseAcross tokens with
    | .error e => .error (.parse e)
    | .ok nodes => .ok nodes

/-- **Looking back over blanks on one line is enough.**  A pass that looks back over any blanks and comments
makes the same of every text, and the tree of a text leaves no operator before a sign that has none, and no
bracket at the start of a lambda. -/
theorem lookahead_parseText (source : String) : parseTextAcross source = parseText source ∧
    ∀ nodes, parseText source = .ok nodes → LeavesNothing nodes := by
  constructor
  · rw [parseTextAcross, parseText]
    cases htokens : tokenize source with
    | error e => rfl
    | ok tokens =>
        have hparse := parseAcross_eq (isChain_mayPrecede htokens)
        cases htree : parse tokens <;> simp [hparse, htree]
  · intro nodes h
    exact leavesNothing_parse (parse_of_parseText h) (isChain_mayPrecede (tokenize_of_parseText h))

/-- A parameter list and two signs behind blanks, and a comment at the end of a line. -/
theorem lookahead_parseText_blanks :
    let source := "\x7b \t[x] x+ :x\x7d /c\n-\t:1"
    ∃ nodes, parseText source = .ok nodes ∧ parseTextAcross source = .ok nodes ∧ LeavesNothing nodes := by
  intro source
  obtain ⟨hsame, hleaves⟩ := lookahead_parseText source
  have hok : (parseText source).isOk = true := by decide +kernel
  cases hnodes : parseText source with
  | error e => simp [hnodes, Except.isOk, Except.toBool] at hok
  | ok nodes => exact ⟨nodes, rfl, hsame.trans hnodes, hleaves nodes hnodes⟩

/-- **For tokens put together by hand it is not enough**: with two tokens of blanks between an operator and
a colon, which no text has, the operator is left. -/
theorem not_leavesNothing_twoBlanks :
    let tokens := Lexeme.layOut [⟨.operator, "+"⟩, ⟨.whitespace, " "⟩, ⟨.whitespace, " "⟩, ⟨.colon, ":"⟩]
    ∃ nodes, parse tokens = .ok nodes ∧ ¬ LeavesNothing nodes := by
  intro tokens
  refine ⟨[.leaf .operator tokens[0], .leaf .space tokens[1], .leaf .space tokens[2],
    .assignment ⟨none, [], tokens[3]⟩], rfl, fun hleaves => ?_⟩
  have hsome := hleaves.operators _ (.inl rfl) [] tokens[0]
    [.leaf .space tokens[1], .leaf .space tokens[2]] ⟨none, [], tokens[3]⟩ [] rfl
    (by simp [Node.isSpace])
  simp at hsome

end QSource
