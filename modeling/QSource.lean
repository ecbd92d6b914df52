import QSource.Command.Run
import QSource.Main
import QSource.Proofs.Check
import QSource.Proofs.Lint.Lines
import QSource.Proofs.Scope.Lexical
import QSource.Proofs.Scope.Statements
import QSource.Proofs.Token.Obstacle
import QSource.Proofs.Token.Opening
import QSource.Proofs.Tree.Automaton
import QSource.Proofs.Tree.Balance
import QSource.Proofs.Tree.Listing
import QSource.Proofs.Lint.Order
import QSource.Proofs.Lexicon.Locality
import QSource.Proofs.Token.Lines
import QSource.Proofs.Token.Appended
import QSource.Proofs.Lexicon.Grammar
import QSource.Proofs.Lexicon.Reading
import QSource.Proofs.Lexicon.Telling
import QSource.Proofs.Token.Atoms
import QSource.Proofs.Text.Returns
import QSource.Proofs.Lexicon.Returns
import QSource.Proofs.Token.Returns
import QSource.Proofs.Tree.Relabel
import QSource.Proofs.Scope.Relabel
import QSource.Proofs.Lint.Relabel
import QSource.Proofs.Lint.Returns
import QSource.Proofs.Returns
import QSource.Proofs.Lint.Constants
import QSource.Proofs.Lint.Statements
import QSource.Proofs.Lint.ReadFirst
import QSource.Proofs.Lint.Rename
import QSource.Proofs.Scope.Context
import QSource.Proofs.Scope.Signs
import QSource.Proofs.Command.Units
import QSource.Proofs.Lint.Unused
import QSource.Proofs.Scope.Lambdas
import QSource.Proofs.Lint.Limits
import QSource.Proofs.Lint.Reserved
import QSource.Proofs.Scope.EmptyLines
import QSource.Proofs.Lint.Escapes
import QSource.Proofs.Token.Operands
import QSource.Proofs.Tree.Lookahead
import QSource.Proofs.Text.Lookup
import QSource.Proofs.Lint.Thresholds
import QSource.Proofs.Lint.Seeds
import QSource.Proofs.Lint.Budgets
import QSource.Proofs.FileTree.Sources
import QSource.Proofs.Token.Lexer
import QSource.Proofs.Tree.Descent
