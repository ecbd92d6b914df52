/-
**What reading one token can do**, and what a whole pass keeps.

`Nesting.Step` lists the ways in which a pass goes on, with the kind of token that each of them
takes.  Everything that is proved of trees goes through it: an invariant has to be kept by seven
steps, and then holds of the tree of every sequence of tokens.  The first such invariant is here: no
token is lost, none is added, and their order stays.

Main definitions:

* `QSource.Nesting.Step` — **the steps of a pass**;
* `QSource.Nesting.tokens` — the tokens that a pass has read, from what it keeps of them.

Main results:

* `QSource.Nesting.Step.of_read` — reading a token without an error is a step;
* `QSource.Nesting.parse_invariant` — **what every step keeps holds of every tree**;
* `QSource.allTokens_parse` — **the tree of a sequence of tokens holds exactly these tokens, in
  their order**.
-/

import QSource.Tree.Parse

set_option relaxedAutoImplicit false
set_option autoImplicit false

namespace QSource

namespace Nesting

/-! ### Steps -/

/-- The ways in which a pass goes on with a token. -/
inductive Step : Nesting → Token → Nesting → Prop
  /-- A piece of the quoted text under way. -/
  | piece {nodes : List Node} {opened : List Opened} {first token : Token} {content : List Token}
      (hkind : token.kind = .quotedText ∨ token.kind = .quotedEscape) :
      Step ⟨nodes, opened, some (first, content)⟩ token
        ⟨nodes, opened, some (first, token :: content)⟩
  /-- The end of the quoted text under way. -/
  | closeQuote {nodes : List Node} {opened : List Opened} {first token : Token}
      {content : List Token} (hkind : token.kind = .closeQuote) :
      Step ⟨nodes, opened, some (first, content)⟩ token
        ⟨.quoted first content.reverse token :: nodes, opened, none⟩
  /-- The start of a quoted text. -/
  | openQuote {nodes : List Node} {opened : List Opened} {token : Token}
      (hkind : token.kind = .openQuote) :
      Step ⟨nodes, opened, none⟩ token ⟨nodes, opened, some (token, [])⟩
  /-- An opening delimiter that does not nest too deeply. -/
  | opening {nodes : List Node} {opened : List Opened} {token : Token} {pair : Delimiter}
      (hkind : token.kind = .opening pair) (hdepth : opened.length < maxDepth) :
      Step ⟨nodes, opened, none⟩ token ⟨[], ⟨pair, token, nodes⟩ :: opened, none⟩
  /-- A closing delimiter that fits the innermost open one. -/
  | closing {nodes : List Node} {d : Opened} {rest : List Opened} {token : Token}
      (hkind : token.kind = .closing d.pair) :
      Step ⟨nodes, d :: rest, none⟩ token
        ⟨enclose d (rest.head?.map Opened.pair) nodes.reverse token, rest, none⟩
  /-- An assignment sign. -/
  | sign {nodes : List Node} {opened : List Opened} {token : Token}
      (hkind : token.kind = .colon ∨ token.kind = .doubleColon) :
      Step ⟨nodes, opened, none⟩ token ⟨assign nodes token, opened, none⟩
  /-- A token that stands alone. -/
  | leaf {nodes : List Node} {opened : List Opened} {token : Token} {form : LeafForm}
      (hkind : token.kind.leafForm? = some form) :
      Step ⟨nodes, opened, none⟩ token ⟨.leaf form token :: nodes, opened, none⟩

theorem Step.of_readQuoted {p q : Nesting} {first token : Token} {content : List Token}
    (hquote : p.quote = some (first, content))
    (h : p.readQuoted first content token = .ok q) : Step p token q := by
  obtain ⟨nodes, opened, quote⟩ := p
  subst hquote
  cases hkind : token.kind with
  | quotedText =>
      simp only [readQuoted, hkind, Except.ok.injEq] at h
      exact h ▸ .piece (Or.inl hkind)
  | quotedEscape =>
      simp only [readQuoted, hkind, Except.ok.injEq] at h
      exact h ▸ .piece (Or.inr hkind)
  | closeQuote =>
      simp only [readQuoted, hkind, Except.ok.injEq] at h
      exact h ▸ .closeQuote hkind
  | _ => simp [readQuoted, hkind] at h

theorem Step.of_readPlain {p q : Nesting} {token : Token} (hquote : p.quote = none)
    (h : p.readPlain token = .ok q) : Step p token q := by
  obtain ⟨nodes, opened, quote⟩ := p
  subst hquote
  cases hkind : token.kind with
  | openQuote =>
      simp only [readPlain, hkind, Except.ok.injEq] at h
      exact h ▸ .openQuote hkind
  | opening pair =>
      simp only [readPlain, hkind] at h
      split at h
      · next hdepth =>
          rw [Except.ok.injEq] at h
          exact h ▸ .opening hkind hdepth
      · simp at h
  | closing pair =>
      simp only [readPlain, hkind] at h
      cases opened with
      | nil => simp at h
      | cons d rest =>
          by_cases hpair : d.pair = pair
          · simp only [hpair, if_true, Except.ok.injEq] at h
            exact h ▸ .closing (hpair ▸ hkind)
          · simp [hpair] at h
  | colon =>
      simp only [readPlain, hkind, Except.ok.injEq] at h
      exact h ▸ .sign (Or.inl hkind)
  | doubleColon =>
      simp only [readPlain, hkind, Except.ok.injEq] at h
      exact h ▸ .sign (Or.inr hkind)
  | quotedText | quotedEscape | closeQuote => simp [readPlain, hkind, Kind.leafForm?] at h
  | _ =>
      simp only [readPlain, hkind, Kind.leafForm?, Except.ok.injEq] at h
      exact h ▸ .leaf (by rw [hkind]; rfl)

/-- **Reading a token without an error is a step.** -/
theorem Step.of_read {p q : Nesting} {token : Token} (h : p.read token = .ok q) :
    Step p token q := by
  rw [read] at h
  split at h
  · next hquote => exact .of_readQuoted hquote h
  · next hquote => exact .of_readPlain hquote h

/-- A step is what reading its token does. -/
theorem Step.read_eq {p q : Nesting} {token : Token} (h : Step p token q) : p.read token = .ok q := by
  cases h with
  | piece hkind => rcases hkind with hkind | hkind <;> simp [read, readQuoted, hkind]
  | closeQuote hkind => simp [read, readQuoted, hkind]
  | openQuote hkind => simp [read, readPlain, hkind]
  | opening hkind hdepth => simp [read, readPlain, hkind, hdepth]
  | closing hkind => simp [read, readPlain, hkind]
  | sign hkind => rcases hkind with hkind | hkind <;> simp [read, readPlain, hkind]
  | @leaf _ _ token form hkind =>
      cases htoken : token.kind <;> simp_all [read, readPlain, Kind.leafForm?]

/-! ### Whole passes -/

/-- A pass ends well only where nothing is open any more. -/
theorem eq_of_finish {p : Nesting} {nodes : List Node} (h : p.finish = .ok nodes) :
    p = ⟨nodes.reverse, [], none⟩ := by
  obtain ⟨nodes', opened, quote⟩ := p
  rw [finish] at h
  split at h
  · simp at h
  · simp at h
  · next hquote hopened =>
      rw [Except.ok.injEq] at h
      simp only at hquote hopened
      rw [← h, List.reverse_reverse, hquote, hopened]

/-- A pass that comes to a tree does so step for step wherever its steps stay steps, and more tokens
may follow. -/
theorem run_simulation {f : Nesting → Nesting} {g : Token → Token}
    (hstep : ∀ {p q : Nesting} {token : Token}, Step p token q → Step (f p) (g token) (f q))
    {p : Nesting} {tokens : List Token} {nodes : List Node} (h : p.run tokens = .ok nodes)
    (rest : List Token) :
    (f p).run (tokens.map g ++ rest) = (f ⟨nodes.reverse, [], none⟩).run rest := by
  induction tokens generalizing p with
  | nil =>
      rw [run] at h
      rw [List.map_nil, List.nil_append, ← eq_of_finish h]
  | cons token tokens ih =>
      rw [run] at h
      split at h
      · next q hread =>
          rw [List.map_cons, List.cons_append, run, (hstep (.of_read hread)).read_eq]
          exact ih h
      · simp at h

/-- What every step keeps holds at the end of a pass, where nothing is open any more. -/
theorem run_invariant (Inv : Nesting → List Token → Prop)
    (hstep : ∀ {p q : Nesting} {read : List Token} {token : Token}, Inv p read → Step p token q →
      Inv q (read ++ [token]))
    {p : Nesting} {read tokens : List Token} {nodes : List Node} (hp : Inv p read)
    (h : p.run tokens = .ok nodes) : Inv ⟨nodes.reverse, [], none⟩ (read ++ tokens) := by
  induction tokens generalizing p read with
  | nil =>
      rw [run] at h
      rwa [List.append_nil, ← eq_of_finish h]
  | cons token tokens ih =>
      rw [run] at h
      split at h
      · next q hread =>
          have hq := ih (hstep hp (.of_read hread)) h
          rwa [List.append_assoc] at hq
      · simp at h

/-- **What holds at the start and is kept by every step holds of the tree of a sequence of
tokens.** -/
theorem parse_invariant (Inv : Nesting → List Token → Prop)
    (hstep : ∀ {p q : Nesting} {read : List Token} {token : Token}, Inv p read → Step p token q →
      Inv q (read ++ [token]))
    (hstart : Inv start []) {tokens : List Token} {nodes : List Node}
    (h : parse tokens = .ok nodes) : Inv ⟨nodes.reverse, [], none⟩ tokens := by
  have hrun := run_invariant Inv hstep hstart h
  rwa [List.nil_append] at hrun

end Nesting

/-! ### The tokens of a pass -/

@[simp] theorem Node.allTokens_nil : Node.allTokens [] = [] := by rw [Node.allTokens]

@[simp] theorem Node.allTokens_cons (x : Node) (xs : List Node) :
    Node.allTokens (x :: xs) = x.tokens ++ Node.allTokens xs := by rw [Node.allTokens]

@[simp] theorem Node.allTokens_append (xs ys : List Node) :
    Node.allTokens (xs ++ ys) = Node.allTokens xs ++ Node.allTokens ys := by
  induction xs with
  | nil => simp
  | cons x xs ih => simp [ih]

/-- The tokens that stand before the sequence behind an open delimiter. -/
def Opened.tokens (d : Opened) : List Token := Node.allTokens d.before.reverse ++ [d.first]

namespace Nesting

/-- The tokens of the quoted text under way. -/
def quoteTokens : Option (Token × List Token) → List Token
  | none => []
  | some (first, content) => first :: content.reverse

/-- The tokens that a pass has read. -/
def tokens (p : Nesting) : List Token :=
  p.opened.reverse.flatMap Opened.tokens ++ Node.allTokens p.nodes.reverse ++ quoteTokens p.quote

theorem allTokens_of_blanks? {nodes : List Node} {gap : List Token} (h : blanks? nodes = some gap) :
    Node.allTokens nodes.reverse = gap.reverse := by
  fun_induction blanks? nodes generalizing gap with
  | case1 =>
      rw [Option.some.injEq] at h
      exact h ▸ rfl
  | case2 token nodes hkind ih =>
      obtain ⟨rest, hrest, rfl⟩ := Option.map_eq_some_iff.1 h
      simp [ih hrest, Node.tokens]
  | case3 => simp at h
  | case4 => simp at h

/-- Closing a pair puts its tokens behind those of the sequence around it. -/
theorem allTokens_enclose (d : Opened) (around : Option Delimiter) (items : List Node)
    (last : Token) : Node.allTokens (enclose d around items last).reverse =
      d.tokens ++ Node.allTokens items ++ [last] := by
  obtain ⟨pair, first, before⟩ := d
  cases pair with
  | paren => simp [enclose, Opened.tokens, Node.tokens, Enclosure.gap]
  | brace => simp [enclose, Opened.tokens, Node.tokens, Enclosure.gap]
  | bracket =>
      simp only [enclose]
      split
      · next gap hgap =>
          have hblanks : blanks? before = some gap := by
            split at hgap
            · exact hgap
            · simp at hgap
          simp [Opened.tokens, Node.tokens, Enclosure.gap, allTokens_of_blanks? hblanks]
      · simp [Opened.tokens, Node.tokens, Enclosure.gap]

/-- An assignment sign takes in tokens that stood directly before it. -/
theorem allTokens_assign (nodes : List Node) (colon : Token) :
    Node.allTokens (assign nodes colon).reverse = Node.allTokens nodes.reverse ++ [colon] := by
  unfold assign
  split
  · simp [Node.tokens, Assignment.tokens]
  · split <;> simp [Node.tokens, Assignment.tokens]
  · simp [Node.tokens, Assignment.tokens]

/-- Every step keeps the token that it reads, behind those read before. -/
theorem Step.tokens_eq {p q : Nesting} {token : Token} (h : Step p token q) :
    q.tokens = p.tokens ++ [token] := by
  cases h with
  | piece hkind => simp [Nesting.tokens, quoteTokens]
  | closeQuote hkind => simp [Nesting.tokens, quoteTokens, Node.tokens]
  | openQuote hkind => simp [Nesting.tokens, quoteTokens]
  | opening hkind hdepth =>
      simp [Nesting.tokens, quoteTokens, Opened.tokens]
  | closing hkind => simp [Nesting.tokens, quoteTokens, allTokens_enclose]
  | sign hkind => simp [Nesting.tokens, quoteTokens, allTokens_assign]
  | leaf hkind => simp [Nesting.tokens, quoteTokens, Node.tokens]

end Nesting

/-- **The tree of a sequence of tokens holds exactly these tokens, in their order.** -/
theorem allTokens_parse {tokens : List Token} {nodes : List Node} (h : parse tokens = .ok nodes) :
    Node.allTokens nodes = tokens := by
  have hrun := Nesting.parse_invariant (fun p read => p.tokens = read)
    (fun hp hstep => by rw [hstep.tokens_eq, hp]) rfl h
  simpa [Nesting.tokens, Nesting.quoteTokens] using hrun

end QSource
