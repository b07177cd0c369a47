import MathMarkup.Main
import MathMarkup.Command.Sorted
import MathMarkup.Command.Hashed
import MathMarkup.Grammar.Outcome
import MathMarkup.Proofs.Recognition
import MathMarkup.Proofs.MaximalMunch
import MathMarkup.Proofs.WireForm
import MathMarkup.Proofs.Juxtaposition
import MathMarkup.Proofs.Parenthesized
import MathMarkup.Proofs.Apart
import MathMarkup.Proofs.Appending
import MathMarkup.Proofs.Depth
import MathMarkup.Proofs.Layout
import MathMarkup.Proofs.Canonical
import MathMarkup.Proofs.Environment
import MathMarkup.Proofs.Tables
import MathMarkup.Proofs.Dependence
import MathMarkup.Proofs.LongestChain
import MathMarkup.Proofs.EmptyScript
import MathMarkup.Proofs.Captures
import MathMarkup.Proofs.Calls
import MathMarkup.Proofs.Literals
import MathMarkup.Proofs.NonNumeric
import MathMarkup.Proofs.Conversion
import MathMarkup.Proofs.Positional
import MathMarkup.Proofs.Values
import MathMarkup.Proofs.Rounding
import MathMarkup.Proofs.Doubles
import MathMarkup.Proofs.ReadBack
import MathMarkup.Proofs.Stages
